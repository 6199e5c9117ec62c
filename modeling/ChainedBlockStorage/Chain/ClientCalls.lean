/-
What `HeadServiceImpl::Write` makes of a client's calls.

- `act_acceptInv`: a request that `Write` has accepted is in the log until it is acknowledged, and is not accepted again
  as long as the log rejects it.
- `ok_is_queued`: a request answered OK has been pushed to the pending queue, in every sequence of calls in which a new
  request is not older than all entries of its client, and no queued number is congruent to its own modulo 2^32.
  `late_request_dropped` is a sequence that breaks it.
-/
import ChainedBlockStorage.Chain.Step

namespace ChainedBlockStorage.Chain

open Run Tables

/-- the log has an entry for this request -/
def Node.logged (n : Node) (r : ClientRequestId) : Bool := (n.replayLog.flag? r.identifier r.timestamp).isSome

/-- `addToLog` returns 0 exactly for a request that is neither too old nor in the log -/
theorem addToLog_accepts (n : Node) (r : ClientRequestId) :
    ¬ (n.replayLog.addToLog r).1 < 0 ↔ n.replayLog.tooOld r = false ∧ n.logged r = false := by
  rw [ReplayLog.addToLog_code]
  unfold Node.logged
  cases n.replayLog.tooOld r <;> cases (n.replayLog.flag? r.identifier r.timestamp).isSome <;> simp

/-! ## Accepted requests -/

/-- accepted requests are numbered or about to be, and they are in the log until they are acknowledged -/
structure AcceptInv (n : Node) : Prop where
  nodup : n.accepted.Nodup
  known : ∀ r ∈ n.accepted, n.logged r = true ∨ r ∈ n.acked
  numbered : n.accepted.Perm (n.numbered.map Entry.reqId ++ n.adding.map WriteRequest.clientRequestId)

/-- the fields of `AcceptInv`, and a log that has lost nothing -/
theorem AcceptInv.of_eq {n n' : Node} (h : AcceptInv n) (h1 : n'.accepted = n.accepted) (h2 : n'.acked = n.acked)
    (h3 : n'.numbered = n.numbered) (h4 : n'.adding = n.adding)
    (hlog : ∀ r, n.logged r = true → n'.logged r = true) : AcceptInv n' := by
  refine ⟨by rw [h1]; exact h.nodup, ?_, by rw [h1, h3, h4]; exact h.numbered⟩
  rw [h1, h2]
  intro r hr
  exact (h.known r hr).imp_left (hlog r)

theorem writeAct_acceptInv (n : Node) (a : WriteAct) (h : AcceptInv n)
    (ha : ∀ q, a = .addToLog q → q.clientRequestId ∈ n.accepted → q.clientRequestId ∈ n.acked →
      n.replayLog.tooOld q.clientRequestId = true ∨ n.logged q.clientRequestId = true) : AcceptInv (n.writeAct a) := by
  cases a with
  | addToLog q =>
    simp only [Node.writeAct]
    split
    · have hlog : ∀ r, n.logged r = true →
          ((n.replayLog.addToLog q.clientRequestId).2.flag? r.identifier r.timestamp).isSome = true :=
        fun r hr => ReplayLog.addToLog_isSome _ _ hr
      split
      · exact h.of_eq rfl rfl rfl rfl hlog
      · rename_i hcode
        obtain ⟨hold, hnot⟩ := (addToLog_accepts n q.clientRequestId).1 hcode
        have hnew : q.clientRequestId ∉ n.accepted := by
          intro hmem
          rcases h.known _ hmem with hk | hk
          · rw [hnot] at hk; cases hk
          · rcases ha q rfl hmem hk with hc | hc
            · rw [hold] at hc; cases hc
            · rw [hnot] at hc; cases hc
        refine ⟨?_, ?_, ?_⟩
        · exact List.nodup_append.2 ⟨h.nodup, List.nodup_singleton _, by
            rintro x hx y hy rfl
            rw [List.mem_singleton.1 hy] at hx
            exact hnew hx⟩
        · intro r hr
          rcases List.mem_append.1 hr with hr | hr
          · exact (h.known r hr).imp_left (hlog r)
          · obtain rfl := List.mem_singleton.1 hr
            left
            simp only [Node.logged, ReplayLog.addToLog_zero _ _ hcode]
            simp
        · simp only [List.map_append, List.map_singleton, ← List.append_assoc]
          exact h.numbered.append_right _
    · exact h
  | takeSeq k =>
    simp only [Node.writeAct]
    split
    · exact h
    · rename_i q hk
      refine ⟨h.nodup, h.known, ?_⟩
      have hperm : n.adding.Perm (q :: n.adding.eraseIdx k) := by
        obtain ⟨hlt, rfl⟩ := List.getElem?_eq_some_iff.1 hk
        exact (List.getElem_cons_eraseIdx_perm hlt).symm
      have hmap := (hperm.map WriteRequest.clientRequestId).append_left (n.numbered.map Entry.reqId)
      simp only [List.map_append, List.map_singleton, List.append_assoc]
      exact h.numbered.trans hmap
  | pushEntry k =>
    simp only [Node.writeAct]
    repeat' split
    all_goals exact h.of_eq rfl rfl rfl rfl (fun _ hr => hr)

theorem act_acceptInv (n : Node) (a : Act) (h : AcceptInv n)
    (ha : ∀ q, a = .write (.addToLog q) → q.clientRequestId ∈ n.accepted → q.clientRequestId ∈ n.acked →
      n.replayLog.tooOld q.clientRequestId = true ∨ n.logged q.clientRequestId = true) : AcceptInv (n.act a) := by
  unfold Node.act
  split
  · exact h
  cases a with
  | write a => exact writeAct_acceptInv n a h fun q hq => ha q (by rw [hq])
  | relay k a =>
    cases a with
    | addToLog =>
      simp only [Node.relayAct]
      split
      · exact h.of_eq rfl rfl rfl rfl fun r hr => ReplayLog.addToLog_isSome _ _ hr
      · exact h
    | pushEntry | drop =>
      simp only [Node.relayAct]
      repeat' split
      all_goals exact h.of_eq rfl rfl rfl rfl fun _ hr => hr
  | rwb a =>
    cases a <;> simp only [Node.rwbAct] <;> repeat' split
    all_goals exact h.of_eq rfl rfl rfl rfl fun _ hr => hr
  | ack k a =>
    simp only [Node.ackAct, Node.ackStart, Node.ackPop]
    repeat' split
    all_goals refine h.of_eq rfl rfl rfl rfl fun r hr => ?_
    all_goals first | exact hr | exact (ReplayLog.commitLogEntry_isSome _ _ _ _).trans hr
  | ackLogEntry q =>
    refine ⟨h.nodup, ?_, h.numbered⟩
    simp only [Node.ackLogEntry, Node.logged]
    intro r hr
    by_cases hc : (n.replayLog.ackLogEntry q).1 = 0
    · rw [if_pos hc, ReplayLog.ackLogEntry_zero _ _ hc]
      by_cases hrq : r.identifier = q.identifier ∧ r.timestamp = q.timestamp
      · right
        rw [requestId_ext hrq.1 hrq.2]
        simp
      · rw [if_neg hrq]
        exact (h.known r hr).imp_right fun hk => List.mem_append_left _ hk
    · rw [if_neg hc, ReplayLog.ackLogEntry_ne _ _ hc]
      exact h.known r hr

theorem wire_acceptInv (n : Node) (w : Wire) (h : AcceptInv n) : AcceptInv (n.wire w) := by
  cases w <;> simp only [Node.wire] <;> repeat' split
  all_goals exact h.of_eq rfl rfl rfl rfl fun _ hr => hr

/-- a request of the client 10.0.0.1:1 -/
def requestAt (seconds : ℤ) : WriteRequest := ⟨[7], 0, ⟨"10.0.0.1", 1, ⟨seconds, 0⟩⟩⟩

/-- a whole `Write` call on a single node -/
def writeCall (r : WriteRequest) : List Event :=
  [.act 0 (.write (.addToLog r)), .act 0 (.write (.takeSeq 0)), .act 0 (.write (.pushEntry 0))]

/-- a single node writes and commits the next number -/
def writeAndCommit : List Event :=
  [.act 0 (.rwb .poll), .act 0 (.rwb .spin), .act 0 (.rwb .pop), .act 0 (.rwb .leave), .act 0 (.rwb .write),
    .act 0 (.rwb .bump), .act 0 (.rwb .send), .act 0 (.ack 0 .start), .act 0 (.ack 0 .pop), .act 0 (.ack 0 .commit),
    .act 0 (.ack 0 .log), .act 0 (.ack 0 .bump), .act 0 (.ack 0 .leave)]

/-! ## An OK answer -/

/-- one whole `Write` call at the head, or a step of anything else -/
inductive Call where
  | write (request : WriteRequest)
  | other (e : Event)

/-- a step that belongs to no `Write` call at the head -/
def Event.isOther : Event → Bool
  | .act 0 (.write _) => false
  | _ => true

def callStep (s : Nodes) : Call → Nodes
  | .write request => run step s (writeCall request)
  | .other e => if e.isOther then step s e else s

/-- a request that has not been queued is not older than all entries of its client, and the number it would take differs
modulo 2^32 from the numbers in the queue -/
def CallRule (s : Nodes) : Call → Prop
  | .write request =>
    ((∀ e ∈ (s 0).queued, e.reqId ≠ request.clientRequestId) →
      (s 0).replayLog.tooOld request.clientRequestId = false) ∧
    ∀ e ∈ (s 0).pendingQueue.toList, toInt e.seqNum ≠ toInt (s 0).currentSeq
  | .other _ => True

/-- between calls: what is in the log or was answered OK has been queued -/
structure AnswerInv (n : Node) : Prop where
  adding : n.adding = []
  pushing : n.pushing = []
  logged : ∀ r, n.logged r = true → ∃ e ∈ n.queued, e.reqId = r
  answered : ∀ r ∈ n.answered, ∃ e ∈ n.queued, e.reqId = r

/-- the fields of `AnswerInv`, and a log that has gained nothing -/
theorem AnswerInv.of_eq {n n' : Node} (h : AnswerInv n) (h1 : n'.adding = n.adding) (h2 : n'.pushing = n.pushing)
    (h3 : n'.queued = n.queued) (h4 : n'.answered = n.answered)
    (hlog : ∀ r, n'.logged r = true → n.logged r = true) : AnswerInv n' := by
  refine ⟨h1.trans h.adding, h2.trans h.pushing, ?_, ?_⟩
  · rw [h3]; exact fun r hr => h.logged r (hlog r hr)
  · rw [h3, h4]; exact h.answered

/-- other threads of the head -/
theorem act_answerInv (n : Node) (a : Act) (h : AnswerInv n) (hr : n.relays = []) (ha : ∀ b, a ≠ .write b) :
    AnswerInv (n.act a) := by
  unfold Node.act
  split
  · exact h
  cases a with
  | write b => exact absurd rfl (ha b)
  | relay k a =>
    cases a <;> simpa [Node.relayAct, hr] using h
  | rwb a =>
    cases a <;> simp only [Node.rwbAct] <;> repeat' split
    all_goals exact h.of_eq rfl rfl rfl rfl fun _ hr => hr
  | ack k a =>
    simp only [Node.ackAct, Node.ackStart, Node.ackPop]
    repeat' split
    all_goals refine h.of_eq rfl rfl rfl rfl fun r hr => ?_
    all_goals first | exact hr | exact (ReplayLog.commitLogEntry_isSome _ _ _ _).symm.trans hr
  | ackLogEntry q =>
    refine h.of_eq rfl rfl rfl rfl ?_
    simp only [Node.ackLogEntry, Node.logged]
    intro r hr
    by_cases hc : (n.replayLog.ackLogEntry q).1 = 0
    · rw [ReplayLog.ackLogEntry_zero _ _ hc] at hr
      split_ifs at hr
      · cases hr
      · exact hr
    · rwa [ReplayLog.ackLogEntry_ne _ _ hc] at hr

theorem wire_answerInv (n : Node) (w : Wire) (h : AnswerInv n) : AnswerInv (n.wire w) := by
  cases w <;> simp only [Node.wire] <;> repeat' split
  all_goals exact h.of_eq rfl rfl rfl rfl fun _ hr => hr

/-- a whole call keeps the invariant -/
theorem writeCall_answerInv (n : Node) (q : WriteRequest) (h : AnswerInv n)
    (hold : (∀ e ∈ n.queued, e.reqId ≠ q.clientRequestId) → n.replayLog.tooOld q.clientRequestId = false)
    (hnum : ∀ e ∈ n.pendingQueue.toList, toInt e.seqNum ≠ toInt n.currentSeq) :
    AnswerInv (((n.act (.write (.addToLog q))).act (.write (.takeSeq 0))).act (.write (.pushEntry 0))) := by
  have hadd := h.adding
  have hpush := h.pushing
  by_cases hd : n.rwb.isDead = true
  · simpa [Node.act, hd] using h
  by_cases hh : n.headService = true
  · by_cases hc : (n.replayLog.addToLog q.clientRequestId).1 < 0
    · -- rejected: the request was queued before
      have hq : ∃ e ∈ n.queued, e.reqId = q.clientRequestId := by
        by_contra hno
        push Not at hno
        have hl : n.logged q.clientRequestId ≠ true := fun hl => by
          obtain ⟨e, he, hr⟩ := h.logged _ hl
          exact hno e he hr
        exact ((addToLog_accepts n _).2 ⟨hold hno, by simpa using hl⟩) hc
      have hneg := ReplayLog.addToLog_neg _ _ hc
      simp only [Node.act, hd, Node.writeAct, hh, hc, hadd, hpush, hneg, if_true, if_false, List.getElem?_nil,
        Bool.false_eq_true]
      refine ⟨rfl, rfl, h.logged, ?_⟩
      intro r hr
      rcases List.mem_append.1 hr with hr | hr
      · exact h.answered r hr
      · rw [List.mem_singleton.1 hr]; exact hq
    · -- accepted: numbered and queued
      obtain ⟨pq, hpq⟩ : ∃ pq, n.pendingQueue.pushEntry (q.entry n.currentSeq) = some pq := by
        cases hp : n.pendingQueue.pushEntry (q.entry n.currentSeq) with
        | some pq => exact ⟨pq, rfl⟩
        | none =>
          obtain ⟨x, hx, hxe⟩ := PendingQueue.pushEntry_eq_none.1 hp
          exact absurd hxe (hnum x hx)
      have hz := ReplayLog.addToLog_zero n.replayLog q.clientRequestId hc
      simp only [Node.act, hd, Node.writeAct, hh, hc, hadd, hpush, hpq, if_true, if_false, List.nil_append,
        List.getElem?_cons_zero, List.eraseIdx_cons_zero, Bool.false_eq_true]
      refine ⟨rfl, rfl, ?_, ?_⟩
      · intro r hr
        simp only [Node.logged, hz] at hr
        by_cases hrq : r.identifier = q.clientRequestId.identifier ∧ r.timestamp = q.clientRequestId.timestamp
        · exact ⟨_, List.mem_append_right _ (List.mem_singleton_self _), (requestId_ext hrq.1 hrq.2).symm⟩
        · rw [if_neg hrq] at hr
          obtain ⟨e, he, her⟩ := h.logged r hr
          exact ⟨e, List.mem_append_left _ he, her⟩
      · intro r hr
        rcases List.mem_append.1 hr with hr | hr
        · obtain ⟨e, he, her⟩ := h.answered r hr
          exact ⟨e, List.mem_append_left _ he, her⟩
        · rw [List.mem_singleton.1 hr]
          exact ⟨_, List.mem_append_right _ (List.mem_singleton_self _), rfl⟩
  · simpa [Node.act, hd, Node.writeAct, hh, hadd, hpush] using h

theorem run_writeCall (s : Nodes) (q : WriteRequest) : run step s (writeCall q) 0 =
    (((s 0).act (.write (.addToLog q))).act (.write (.takeSeq 0))).act (.write (.pushEntry 0)) := by
  simp [writeCall, run, step]

/-- the roles are fixed, nobody relays to the head, and the head keeps `AnswerInv` between calls -/
structure CallInv (n start : ℕ) (s : Nodes) : Prop where
  conf : ∀ i, (s i).conf = (stable n start ReplayLog.empty i).conf
  relays : (s 0).relays = []
  head : AnswerInv (s 0)

theorem callStep_inv (n start : ℕ) (s : Nodes) (c : Call) (h : CallInv n start s) (hr : CallRule s c) :
    CallInv n start (callStep s c) := by
  cases c with
  | write q =>
    refine ⟨fun i => ?_, ?_, ?_⟩
    · simp only [callStep, writeCall, run_cons, run_nil, step_conf, h.conf]
    · have hsame : ∀ (x : Node) b, (x.act (.write b)).relays = x.relays := fun x b => act_relays x _ (by simp)
      simp only [callStep, run_writeCall, hsame, h.relays]
    · simp only [callStep, run_writeCall]
      exact writeCall_answerInv (s 0) q h.head hr.1 hr.2
  | other e =>
    simp only [callStep]
    split
    · refine ⟨fun i => (step_conf s e i).trans (h.conf i), relays_head_step h.conf h.relays e, ?_⟩
      refine step_node_inv AnswerInv s e 0 h.head ?_ wire_answerInv
      rintro a rfl
      apply act_answerInv (s 0) a h.head h.relays
      rintro b rfl
      simp [Event.isOther] at *
    · exact h

/-- **An OK answer is a queued write.** In every sequence of `Write` calls at the head of a stable chain, with any steps
of the other threads between them, whose calls all meet `CallRule`: each request that was answered OK has been numbered
and pushed to the pending queue. -/
theorem ok_is_queued (n start : ℕ) (cs : List Call)
    (hm : Meets callStep CallRule (stable n start ReplayLog.empty) cs) :
    ∀ r ∈ (run callStep (stable n start ReplayLog.empty) cs 0).answered,
      ∃ e ∈ (run callStep (stable n start ReplayLog.empty) cs 0).queued, e.reqId = r := by
  have hinit : AnswerInv (stable n start ReplayLog.empty 0) := by
    unfold stable
    split_ifs <;> exact ⟨rfl, rfl, fun r hr => by simp [Node.idle, Node.logged] at hr, by simp [Node.idle]⟩
  have hrelays : (stable n start ReplayLog.empty 0).relays = [] := by
    unfold stable
    split_ifs <;> rfl
  exact (run_inv_of_meets callStep CallRule (CallInv n start) (callStep_inv n start) _ cs
    ⟨fun _ => rfl, hrelays, hinit⟩ hm).head.answered

instance (s : Nodes) : ∀ c, Decidable (CallRule s c)
  | .write request => inferInstanceAs (Decidable (((∀ e ∈ (s 0).queued, e.reqId ≠ request.clientRequestId) →
      (s 0).replayLog.tooOld request.clientRequestId = false) ∧
      ∀ e ∈ (s 0).pendingQueue.toList, toInt e.seqNum ≠ toInt (s 0).currentSeq))
  | .other _ => isTrue trivial

/-- two requests in order, a retry of the first after its commit, and the first again after both -/
def callsInOrder : List Call :=
  .write (requestAt 1) :: writeAndCommit.map .other ++ [.write (requestAt 1), .write (requestAt 2)]

theorem ok_is_queued_in_order :
    (∀ r ∈ (run callStep (stable 1 0 ReplayLog.empty) callsInOrder 0).answered,
      ∃ e ∈ (run callStep (stable 1 0 ReplayLog.empty) callsInOrder 0).queued, e.reqId = r) ∧
    (run callStep (stable 1 0 ReplayLog.empty) callsInOrder 0).answered.length = 3 :=
  ⟨ok_is_queued 1 0 callsInOrder (by decide +kernel), by decide +kernel⟩

/-- **A request that overtakes an older one of its client makes `Write` drop that one and answer OK.** -/
theorem late_request_dropped : ¬ ∀ r ∈ (run callStep (stable 1 0 ReplayLog.empty)
    [.write (requestAt 2), .write (requestAt 1)] 0).answered, ∃ e ∈ (run callStep (stable 1 0 ReplayLog.empty)
    [.write (requestAt 2), .write (requestAt 1)] 0).queued, e.reqId = r := by
  decide +kernel

end ChainedBlockStorage.Chain
