/-
What `WriteAck` answers.

The answer is read off the entry of the replay log, which the first answer erases. So an absent entry stands for a
request that was never accepted and for one that has been acknowledged.

- `writeAck_truthful_iff`: the answer is the truth exactly when the log has the entry as committed, or the request has
  not been acknowledged before and no thread is between `Storage::commit` and `commitLogEntry` for it.
- `repeated_ack_false`: the second of two calls answers that the request is not committed.
-/
import ChainedBlockStorage.Chain.CommitOnce
import ChainedBlockStorage.Chain.ClientCalls

namespace ChainedBlockStorage.Chain

open Run Tables Positions

/-! ## The handler -/

/-- `reply->committed()` of `WriteAck` -/
def Node.writeAck (n : Node) (r : ClientRequestId) : Bool := (n.replayLog.ackLogEntry r).1 = 0

/-- the request whose write an event commits -/
def Node.commitId (n : Node) : NodeEvent → Option ClientRequestId
  | .act (.ack k .commit) =>
    if n.rwb.isDead then none
    else match n.acks[k]? with
      | some ⟨_, _, .popped e⟩ => some e.reqId
      | _ => none
  | _ => none

/-- a tail in free surroundings, among them the handlers of `WriteAck` (`Act.ackLogEntry`) -/
structure Tail where
  node : Node
  /-- history: the requests whose write has been committed -/
  committedIds : List ClientRequestId

def Tail.step (s : Tail) (e : NodeEvent) : Tail where
  node := s.node.event e
  committedIds := s.committedIds ++ (s.node.commitId e).toList

/-- a node in some role, whose log has entries of before -/
def Tail.start (c : Conf) (start : ℕ) (log : ReplayLog) : Tail :=
  ⟨Node.idle c.state c.upstream c.downstream c.headService start log [], []⟩

/-- the write of the request is committed, in this run or before it -/
def Tail.Committed (log : ReplayLog) (s : Tail) (r : ClientRequestId) : Prop :=
  r ∈ s.committedIds ∨ log.flag? r.identifier r.timestamp = some true

instance (log : ReplayLog) (s : Tail) (r : ClientRequestId) : Decidable (s.Committed log r) :=
  inferInstanceAs (Decidable (_ ∨ _))

/-- the log has the request as committed -/
def Node.marked (n : Node) (r : ClientRequestId) : Prop := n.replayLog.flag? r.identifier r.timestamp = some true

instance (n : Node) (r : ClientRequestId) : Decidable (n.marked r) := inferInstanceAs (Decidable (_ = _))

/-- a thread has committed the request and is about to mark it -/
def AckThread.marking (r : ClientRequestId) (t : AckThread) : Bool :=
  match t.phase with
  | .stored e => e.reqId = r
  | _ => false

theorem writeAck_iff (n : Node) (r : ClientRequestId) : n.writeAck r = true ↔ n.marked r := by
  unfold Node.writeAck Node.marked
  rw [decide_eq_true_iff]
  exact ReplayLog.ackLogEntry_code n.replayLog r

/-! ## What is on its way is known to the log -/

/-- everything between `addToLog` and `commitLogEntry` satisfies `K` -/
structure EnRoute (K : ClientRequestId → Prop) (n : Node) : Prop where
  adding : ∀ q ∈ n.adding, K q.clientRequestId
  pushing : ∀ e ∈ n.pushing, K e.reqId
  relays : ∀ h ∈ n.relays, h.phase = .added → K h.req.clientRequestId
  queue : ∀ e ∈ n.pendingQueue, K e.reqId
  hand : ∀ e, n.rwb.unwritten = some e ∨ n.rwb.unsent = some e → K e.reqId
  sent : ∀ x ∈ n.sentList, K x.2.reqId
  popped : ∀ t ∈ n.acks, ∀ e, t.phase = .popped e ∨ t.phase = .stored e → K e.reqId

theorem EnRoute.mono {K K' : ClientRequestId → Prop} {n : Node} (h : EnRoute K n) (hK : ∀ r, K r → K' r) :
    EnRoute K' n :=
  ⟨fun q hq => hK _ (h.adding q hq), fun e he => hK _ (h.pushing e he), fun y hy ha => hK _ (h.relays y hy ha),
    fun e he => hK _ (h.queue e he), fun e he => hK _ (h.hand e he), fun x hx => hK _ (h.sent x hx),
    fun t ht e he => hK _ (h.popped t ht e he)⟩

section Carry

variable {K : ClientRequestId → Prop} {n : Node}

theorem EnRoute.setRelay (h : EnRoute K n) (k : ℕ) (y : RelayHandler) (hy : y.phase = .added → K y.req.clientRequestId)
    (log : ReplayLog) : EnRoute K { n with replayLog := log, relays := n.relays.set k y } := by
  refine ⟨h.adding, h.pushing, ?_, h.queue, h.hand, h.sent, h.popped⟩
  intro z hz ha
  rcases List.mem_or_eq_of_mem_set hz with hz | rfl
  · exact h.relays z hz ha
  · exact hy ha

theorem EnRoute.setAck (h : EnRoute K n) (k : ℕ) (u : AckThread)
    (hu : ∀ e, u.phase = .popped e ∨ u.phase = .stored e → K e.reqId) : EnRoute K (n.setAck k u) := by
  refine ⟨h.adding, h.pushing, h.relays, h.queue, h.hand, h.sent, ?_⟩
  intro t ht
  rcases List.mem_or_eq_of_mem_set ht with ht | rfl
  · exact h.popped t ht
  · exact hu

/-- a push of an entry that satisfies `K` -/
theorem EnRoute.push (h : EnRoute K n) {e : Entry} {q : PendingQueue} (hq : n.pendingQueue.pushEntry e = some q)
    (he : K e.reqId) (queued : List Entry) : EnRoute K { n with pendingQueue := q, queued := queued } := by
  refine ⟨h.adding, h.pushing, h.relays, ?_, h.hand, h.sent, h.popped⟩
  intro x hx
  rcases ((PendingQueue.pushEntry_eq_some hq).1 x).1 hx with hx | rfl
  · exact h.queue x hx
  · exact he

theorem writeAct_enRoute (h : EnRoute K n) (a : WriteAct) (hlog : ∀ r, (n.writeAct a).logged r = true → K r) :
    EnRoute K (n.writeAct a) := by
  cases a with
  | addToLog q =>
    simp only [Node.writeAct] at hlog ⊢
    split
    · rename_i hh
      rw [if_pos hh] at hlog
      split
      · exact ⟨h.adding, h.pushing, h.relays, h.queue, h.hand, h.sent, h.popped⟩
      · rename_i hc
        rw [if_neg hc] at hlog
        refine ⟨?_, h.pushing, h.relays, h.queue, h.hand, h.sent, h.popped⟩
        intro x hx
        rcases List.mem_append.1 hx with hx | hx
        · exact h.adding x hx
        · rw [List.mem_singleton.1 hx]
          exact hlog _ (by simp [Node.logged, ReplayLog.addToLog_zero _ _ hc])
    · exact h
  | takeSeq k =>
    simp only [Node.writeAct]
    split
    · exact h
    · rename_i q hk
      refine ⟨fun x hx => h.adding x ((List.eraseIdx_sublist _ _).subset hx), ?_, h.relays, h.queue, h.hand, h.sent, h.popped⟩
      intro e he
      rcases List.mem_append.1 he with he | he
      · exact h.pushing e he
      · rw [List.mem_singleton.1 he]
        exact h.adding q (List.mem_of_getElem? hk)
  | pushEntry k =>
    simp only [Node.writeAct]
    split
    · exact h
    · rename_i e hk
      have hsub : ∀ x ∈ n.pushing.eraseIdx k, K x.reqId :=
        fun x hx => h.pushing x ((List.eraseIdx_sublist _ _).subset hx)
      split
      · exact ⟨h.adding, hsub, h.relays, h.queue, h.hand, h.sent, h.popped⟩
      · rename_i q hq
        have hp := h.push hq (h.pushing e (List.mem_of_getElem? hk)) (n.queued ++ [e])
        exact ⟨hp.adding, hsub, hp.relays, hp.queue, hp.hand, hp.sent, hp.popped⟩

theorem relayAct_enRoute (h : EnRoute K n) (k : ℕ) (a : RelayAct)
    (hlog : ∀ r, (n.relayAct k a).logged r = true → K r) : EnRoute K (n.relayAct k a) := by
  cases a with
  | addToLog =>
    simp only [Node.relayAct] at hlog ⊢
    split
    · rename_i q f hk
      simp only [hk] at hlog
      refine h.setRelay k _ ?_ _
      intro ha
      by_cases hc : (n.replayLog.addToLog q.clientRequestId).1 < 0
      · simp [hc] at ha
      · exact hlog _ (by simp [Node.logged, ReplayLog.addToLog_zero _ _ hc])
    · exact h
  | pushEntry =>
    simp only [Node.relayAct]
    split
    · rename_i q f hk
      split
      · exact h.setRelay k _ (by simp) n.replayLog
      · rename_i l hl
        have hp := h.push hl (h.relays _ (List.mem_of_getElem? hk) rfl) (n.queued ++ [q.entry])
        exact hp.setRelay k _ (by simp) n.replayLog
    · exact h
  | drop =>
    simp only [Node.relayAct]
    split
    · exact h.setRelay k _ (by simp) n.replayLog
    · exact h

theorem rwbAct_enRoute (h : EnRoute K n) (a : RwbAct) : EnRoute K (n.rwbAct a) := by
  cases a with
  | pop =>
    simp only [Node.rwbAct]
    split
    · rename_i e q hr hp
      obtain ⟨he, -, hmem⟩ := PendingQueue.popEntry_eq_some hp
      refine ⟨h.adding, h.pushing, h.relays, fun x hx => h.queue x ((hmem x).1 hx).1, ?_, h.sent, h.popped⟩
      rintro d (hd | hd)
      · obtain rfl : e = d := by simpa [Rwb.unwritten] using hd
        exact h.queue e he
      · cases hd
    · exact h
  | send =>
    simp only [Node.rwbAct]
    split
    · rename_i e hr
      have he := h.hand e (Or.inr (by rw [hr]; rfl))
      split
      · exact ⟨h.adding, h.pushing, h.relays, h.queue, by simp [Rwb.unwritten, Rwb.unsent], h.sent, h.popped⟩
      · rename_i l hl
        refine ⟨h.adding, h.pushing, h.relays, h.queue, by simp [Rwb.unwritten, Rwb.unsent], ?_, h.popped⟩
        intro x hx
        rcases (SentList.pushEntry_eq_some hl x).1 hx with hx | rfl
        · exact h.sent x hx
        · exact he
    · exact h
  | poll | spin | leave | retry | write | bump =>
    simp only [Node.rwbAct]
    repeat' split
    all_goals
      refine ⟨h.adding, h.pushing, h.relays, h.queue, fun d hd => h.hand d ?_, h.sent, h.popped⟩
      simp_all [Rwb.unwritten, Rwb.unsent]

theorem ackAct_enRoute (h : EnRoute K n) (k : ℕ) (a : AckAct) : EnRoute K (n.ackAct k a) := by
  have hstep := ackAct_step n k a
  generalize n.ackAct k a = x at hstep ⊢
  cases hstep with
  | stay => exact h
  | takeUp hk | retire hk | turn hk | retry hk => exact h.setAck k _ (by simp)
  | @refuse b _ hk | @leave b _ hk =>
    apply h.setAck k _
    cases b <;> simp
  | @pop b q e l hk hsome =>
    obtain ⟨hin, hmem⟩ := SentList.popEntry_eq_some hsome
    have hset := h.setAck k ⟨b, q, .popped e⟩ (by
      rintro d (hd | hd) <;> cases hd
      exact h.sent _ hin)
    exact ⟨hset.adding, hset.pushing, hset.relays, hset.queue, hset.hand, fun x hx => h.sent x ((hmem x).1 hx).1,
      hset.popped⟩
  | @commit b q e hk =>
    have hset := h.setAck k ⟨b, q, .stored e⟩ (by
      rintro d (hd | hd) <;> cases hd
      exact h.popped _ (List.mem_of_getElem? hk) e (Or.inl rfl))
    exact ⟨hset.adding, hset.pushing, hset.relays, hset.queue, hset.hand, hset.sent, hset.popped⟩
  | @log b q e hk =>
    have hset := h.setAck k ⟨b, q, .logged⟩ (by simp)
    exact ⟨hset.adding, hset.pushing, hset.relays, hset.queue, hset.hand, hset.sent, hset.popped⟩
  | @bump b q hk =>
    have hset := h.setAck k ⟨b, q, .relaying⟩ (by simp)
    exact ⟨hset.adding, hset.pushing, hset.relays, hset.queue, hset.hand, hset.sent, hset.popped⟩

theorem wire_enRoute (h : EnRoute K n) (w : Wire) : EnRoute K (n.wire w) := by
  cases w with
  | relaySent j k | relayOk =>
    simp only [Node.wire]
    split
    · refine ⟨h.adding, h.pushing, h.relays, h.queue, fun d hd => h.hand d ?_, h.sent, h.popped⟩
      simp_all [Rwb.unwritten, Rwb.unsent]
    · exact h
  | relayArrives q =>
    refine ⟨h.adding, h.pushing, ?_, h.queue, h.hand, h.sent, h.popped⟩
    intro y hy ha
    rcases List.mem_append.1 hy with hy | hy
    · exact h.relays y hy ha
    · rw [List.mem_singleton.1 hy] at ha
      cases ha
  | ackSent k j m =>
    simp only [Node.wire]
    split
    · exact h.setAck k _ (by simp)
    · exact h
  | ackArrives seq =>
    refine ⟨h.adding, h.pushing, h.relays, h.queue, h.hand, h.sent, ?_⟩
    intro t ht e he
    rcases List.mem_append.1 ht with ht | ht
    · exact h.popped t ht e he
    · rw [List.mem_singleton.1 ht] at he
      simp at he
  | ackOk k =>
    simp only [Node.wire]
    split
    · rename_i b seq j m hk
      apply h.setAck k _
      cases b <;> simp [AckThread.finish]
    · exact h

/-- **On its way.** What an event puts on its way has just been accepted by the log. -/
theorem event_enRoute (h : EnRoute K n) (e : NodeEvent) (hlog : ∀ r, (n.event e).logged r = true → K r) :
    EnRoute K (n.event e) := by
  cases e with
  | act a =>
    simp only [Node.event] at hlog ⊢
    unfold Node.act at hlog ⊢
    by_cases hd : n.rwb.isDead = true
    · rw [if_pos hd]
      exact h
    · rw [if_neg hd] at hlog ⊢
      cases a with
      | write a => exact writeAct_enRoute h a hlog
      | relay k a => exact relayAct_enRoute h k a hlog
      | rwb a => exact rwbAct_enRoute h a
      | ack k a => exact ackAct_enRoute h k a
      | ackLogEntry r => exact ⟨h.adding, h.pushing, h.relays, h.queue, h.hand, h.sent, h.popped⟩
  | wire w => exact wire_enRoute h w
  | configure c => exact ⟨h.adding, h.pushing, h.relays, h.queue, h.hand, h.sent, h.popped⟩
  | launchTail =>
    refine ⟨h.adding, h.pushing, h.relays, h.queue, h.hand, h.sent, ?_⟩
    intro t ht e he
    rcases List.mem_append.1 ht with ht | ht
    · exact h.popped t ht e he
    · rw [List.mem_singleton.1 ht] at he
      simp at he

end Carry

/-! ## What changes the answer -/

/-- the log has the request, or it has been acknowledged -/
def Node.Known (n : Node) (r : ClientRequestId) : Prop := n.logged r = true ∨ r ∈ n.acked

/-- a thread is between `Storage::commit` and `commitLogEntry` for the request -/
def Node.marking (n : Node) (r : ClientRequestId) : Prop := ∃ t ∈ n.acks, t.marking r = true

instance (n : Node) (r : ClientRequestId) : Decidable (n.marking r) :=
  inferInstanceAs (Decidable (∃ t ∈ n.acks, t.marking r = true))

/-- the same entries committed, acknowledged and about to be marked, and none lost -/
structure SameAnswer (n n' : Node) : Prop where
  marked : ∀ r, n'.marked r ↔ n.marked r
  acked : n'.acked = n.acked
  marking : ∀ r, n'.marking r ↔ n.marking r
  logged : ∀ r, n.logged r = true → n'.logged r = true

theorem SameAnswer.of_eq {n n' : Node} (h1 : n'.replayLog = n.replayLog) (h2 : n'.acked = n.acked)
    (h3 : ∀ r, n'.marking r ↔ n.marking r) : SameAnswer n n' where
  marked r := by rw [Node.marked, Node.marked, h1]
  acked := h2
  marking := h3
  logged r := by rw [Node.logged, Node.logged, h1]; exact id

theorem SameAnswer.refl (n : Node) : SameAnswer n n := .of_eq rfl rfl fun _ => Iff.rfl

/-- an entry is added uncommitted, so the committed ones are the same -/
theorem addToLog_marked (n : Node) (q r : ClientRequestId) :
    (n.replayLog.addToLog q).2.flag? r.identifier r.timestamp = some true ↔ n.marked r := by
  unfold Node.marked
  by_cases hc : (n.replayLog.addToLog q).1 < 0
  · rw [ReplayLog.addToLog_neg _ _ hc]
  · rw [ReplayLog.addToLog_zero _ _ hc]
    split_ifs with hrq
    · have hnot := ((addToLog_accepts n q).1 hc).2
      rw [Node.logged] at hnot
      rw [hrq.1, hrq.2]
      cases hf : n.replayLog.flag? q.identifier q.timestamp <;> simp_all
    · exact Iff.rfl

theorem marking_setAck {n : Node} {k : ℕ} {t : AckThread} (hk : n.acks[k]? = some t) (u : AckThread)
    (hu : ∀ r, u.marking r = t.marking r) (r : ClientRequestId) : (n.setAck k u).marking r ↔ n.marking r := by
  constructor
  · rintro ⟨v, hv, hr⟩
    rcases List.mem_or_eq_of_mem_set hv with hv | rfl
    · exact ⟨v, hv, hr⟩
    · exact ⟨t, List.mem_of_getElem? hk, (hu r).symm.trans hr⟩
  · rintro ⟨v, hv, hr⟩
    rcases mem_set_or_eq hk u hv with hv | rfl
    · exact ⟨v, hv, hr⟩
    · exact ⟨u, mem_set_self hk u, (hu r).trans hr⟩

theorem marking_append {n n' : Node} {u : AckThread} (hacks : n'.acks = n.acks ++ [u])
    (hu : ∀ r, u.marking r = false) (r : ClientRequestId) : n'.marking r ↔ n.marking r := by
  unfold Node.marking
  rw [hacks]
  simp [hu, or_and_right, exists_or]

/-- what an event does to the answers -/
inductive AnswerMove (n : Node) (e : NodeEvent) : Prop where
  | same (h : SameAnswer n (n.event e)) (hid : n.commitId e = none)
  /-- the write of a request is committed -/
  | commit (r : ClientRequestId) (hid : n.commitId e = some r) (hlog : (n.event e).replayLog = n.replayLog)
    (hacked : (n.event e).acked = n.acked) (hmarking : ∀ r', (n.event e).marking r' ↔ n.marking r' ∨ r' = r)
  /-- and its entry is marked -/
  | mark (r : ClientRequestId) (hid : n.commitId e = none)
    (hlog : (n.event e).replayLog = (n.replayLog.commitLogEntry r).2) (hacked : (n.event e).acked = n.acked)
    (hr : n.marking r) (hmarking : ∀ r', (n.event e).marking r' → n.marking r')
    (hkept : ∀ r', n.marking r' → (n.event e).marking r' ∨ r' = r)
  /-- `ackLogEntry` -/
  | ack (r : ClientRequestId) (hid : n.commitId e = none) (hnode : n.event e = n.ackLogEntry r)

theorem ackAct_answer (n : Node) (k : ℕ) (a : AckAct) (hd : n.rwb.isDead = false) :
    AnswerMove n (.act (.ack k a)) := by
  have hev : n.event (.act (.ack k a)) = n.ackAct k a := by simp [Node.event, Node.act, hd]
  have hid : a ≠ .commit → n.commitId (.act (.ack k a)) = none := by
    intro ha
    cases a <;> first | rfl | exact absurd rfl ha
  have hstep := ackAct_step n k a
  rw [← hev] at hstep
  -- a thread that goes on without being about to mark, and was not
  have hset : ∀ (t u : AckThread), n.acks[k]? = some t → a ≠ .commit →
      (n.event (.act (.ack k a))).replayLog = n.replayLog → (n.event (.act (.ack k a))).acked = n.acked →
      (n.event (.act (.ack k a))).acks = n.acks.set k u → (∀ r, u.marking r = t.marking r) →
      AnswerMove n (.act (.ack k a)) := by
    intro t u hk ha h1 h2 h3 hu
    refine .same (.of_eq h1 h2 fun r => ?_) (hid ha)
    rw [← marking_setAck hk u hu r]
    unfold Node.marking
    rw [h3]
    rfl
  generalize hx : n.event (.act (.ack k a)) = x at hstep hset
  cases hstep with
  | stay ha =>
    refine .same (by rw [hx]; exact .refl n) ?_
    by_cases hc : a = .commit
    · subst hc
      simp only [Node.commitId, hd, Bool.false_eq_true, if_false]
      split
      · rename_i b q e hk
        exact absurd hk (ha rfl b q e)
      · rfl
    · exact hid hc
  | takeUp hk | turn hk | pop hk | retry hk => exact hset _ _ hk (by simp) rfl rfl rfl fun _ => rfl
  | retire hk | bump hk => exact hset _ _ hk (by simp) rfl rfl rfl fun _ => rfl
  | @refuse b _ hk | @leave b _ hk =>
    apply hset _ _ hk (by simp) rfl rfl rfl
    intro r
    cases b <;> rfl
  | @commit b q e hk =>
    have hacks : (n.event (.act (.ack k .commit))).acks = n.acks.set k ⟨b, q, .stored e⟩ := by
      rw [hx]
      rfl
    refine .commit e.reqId (by simp [Node.commitId, hd, hk]) (by rw [hx]; rfl) (by rw [hx]; rfl) fun r' => ?_
    unfold Node.marking
    rw [hacks]
    constructor
    · rintro ⟨v, hv, hr⟩
      rcases List.mem_or_eq_of_mem_set hv with hv | rfl
      · exact Or.inl ⟨v, hv, hr⟩
      · exact Or.inr (of_decide_eq_true hr).symm
    · rintro (⟨v, hv, hr⟩ | rfl)
      · rcases mem_set_or_eq hk ⟨b, q, .stored e⟩ hv with hv | rfl
        · exact ⟨v, hv, hr⟩
        · cases hr
      · exact ⟨_, mem_set_self hk _, decide_eq_true rfl⟩
  | @log b q e hk =>
    have hacks : (n.event (.act (.ack k .log))).acks = n.acks.set k ⟨b, q, .logged⟩ := by
      rw [hx]
      rfl
    refine .mark e.reqId (hid (by simp)) (by rw [hx]) (by rw [hx]; rfl)
      ⟨_, List.mem_of_getElem? hk, decide_eq_true rfl⟩ ?_ ?_
    · rintro r' ⟨v, hv, hr⟩
      rw [hacks] at hv
      rcases List.mem_or_eq_of_mem_set hv with hv | rfl
      · exact ⟨v, hv, hr⟩
      · cases hr
    · rintro r' ⟨v, hv, hr⟩
      rcases mem_set_or_eq hk ⟨b, q, .logged⟩ hv with hv | rfl
      · exact Or.inl ⟨v, by rw [hacks]; exact hv, hr⟩
      · exact Or.inr (of_decide_eq_true hr).symm

theorem event_answer (n : Node) (e : NodeEvent) : AnswerMove n e := by
  cases e with
  | act a =>
    by_cases hd : n.rwb.isDead = true
    · refine .same ?_ ?_
      · simp only [Node.event, Node.act, hd, if_true]
        exact .refl n
      · unfold Node.commitId
        repeat' split
        all_goals simp_all
    rw [Bool.not_eq_true] at hd
    have hact : ∀ x, (n.event (.act a)) = x → n.commitId (.act a) = none → SameAnswer n x → AnswerMove n (.act a) := by
      rintro x rfl hid hx
      exact .same hx hid
    cases a with
    | write a =>
      apply hact (n.writeAct a) (by simp only [Node.event, Node.act, hd, Bool.false_eq_true, if_false]) rfl
      cases a with
      | addToLog q =>
        simp only [Node.writeAct]
        repeat' split
        · exact ⟨fun r => addToLog_marked n _ r, rfl, fun _ => Iff.rfl, fun r hr => ReplayLog.addToLog_isSome _ _ hr⟩
        · exact ⟨fun r => addToLog_marked n _ r, rfl, fun _ => Iff.rfl, fun r hr => ReplayLog.addToLog_isSome _ _ hr⟩
        · exact .refl n
      | takeSeq k | pushEntry k =>
        simp only [Node.writeAct]
        repeat' split
        all_goals exact .of_eq rfl rfl fun _ => Iff.rfl
    | relay k a =>
      apply hact (n.relayAct k a) (by simp only [Node.event, Node.act, hd, Bool.false_eq_true, if_false]) rfl
      cases a with
      | addToLog =>
        simp only [Node.relayAct]
        split
        · exact ⟨fun r => addToLog_marked n _ r, rfl, fun _ => Iff.rfl, fun r hr => ReplayLog.addToLog_isSome _ _ hr⟩
        · exact .refl n
      | pushEntry | drop =>
        simp only [Node.relayAct]
        repeat' split
        all_goals exact .of_eq rfl rfl fun _ => Iff.rfl
    | rwb a =>
      apply hact (n.rwbAct a) (by simp only [Node.event, Node.act, hd, Bool.false_eq_true, if_false]) rfl
      cases a <;> simp only [Node.rwbAct] <;> repeat' split
      all_goals exact .of_eq rfl rfl fun _ => Iff.rfl
    | ack k a => exact ackAct_answer n k a hd
    | ackLogEntry r => exact .ack r rfl (by simp only [Node.event, Node.act, hd, Bool.false_eq_true, if_false])
  | wire w =>
    refine .same ?_ rfl
    simp only [Node.event]
    cases w with
    | relaySent _ _ | relayArrives _ | relayOk =>
      simp only [Node.wire]
      repeat' split
      all_goals exact .of_eq rfl rfl fun _ => Iff.rfl
    | ackArrives seq => exact .of_eq rfl rfl fun r => marking_append rfl (fun _ => rfl) r
    | ackSent k j m =>
      simp only [Node.wire]
      split
      · rename_i b seq hk
        exact .of_eq rfl rfl fun r => marking_setAck hk ⟨b, seq, .calling j m⟩ (fun _ => rfl) r
      · exact .refl n
    | ackOk k =>
      simp only [Node.wire]
      split
      · rename_i b seq j m hk
        refine .of_eq rfl rfl fun r => marking_setAck hk _ (fun r => ?_) r
        unfold AckThread.finish
        cases b <;> rfl
      · exact .refl n
  | configure c => exact .same (.of_eq rfl rfl fun _ => Iff.rfl) rfl
  | launchTail => exact .same (.of_eq rfl rfl fun r => marking_append rfl (fun _ => rfl) r) rfl

/-! ## The invariant -/

/-- a committed request is marked, acknowledged or about to be marked, and nothing else is -/
structure TruthInv (log : ReplayLog) (s : Tail) : Prop where
  route : EnRoute s.node.Known s.node
  sound : ∀ r, s.node.marked r ∨ r ∈ s.node.acked ∨ s.node.marking r → s.Committed log r
  complete : ∀ r, s.Committed log r → s.node.marked r ∨ r ∈ s.node.acked ∨ s.node.marking r

/-- marking sets the flag of an entry that is there -/
theorem marked_commitLogEntry {n n' : Node} {r : ClientRequestId} (h : n'.replayLog = (n.replayLog.commitLogEntry r).2)
    (r' : ClientRequestId) : n'.marked r' ↔ n.marked r' ∨ r' = r ∧ n.logged r = true := by
  unfold Node.marked
  rw [h, ReplayLog.commitLogEntry_flag?]
  by_cases hr : r'.identifier = r.identifier ∧ r'.timestamp = r.timestamp
  · obtain rfl := requestId_ext hr.1 hr.2
    cases hf : n.replayLog.flag? r'.identifier r'.timestamp <;> simp [Node.logged, hf]
  · have hne : r' ≠ r := fun he => hr (by rw [he]; exact ⟨rfl, rfl⟩)
    simp [hr, hne]

/-- acknowledging takes out a marked entry -/
theorem ackLogEntry_answer (n : Node) (r r' : ClientRequestId) :
    ((n.ackLogEntry r).marked r' → n.marked r') ∧
      (r' ∈ (n.ackLogEntry r).acked ↔ r' ∈ n.acked ∨ r' = r ∧ n.marked r) ∧
      (n.marked r' → (n.ackLogEntry r).marked r' ∨ r' ∈ (n.ackLogEntry r).acked) ∧
      (n.logged r' = true → (n.ackLogEntry r).logged r' = true ∨ r' ∈ (n.ackLogEntry r).acked) := by
  have hcode : (n.replayLog.ackLogEntry r).1 = 0 ↔ n.marked r := ReplayLog.ackLogEntry_code _ _
  by_cases hc : (n.replayLog.ackLogEntry r).1 = 0
  · have hz := ReplayLog.ackLogEntry_zero _ _ hc
    have hm := hcode.1 hc
    by_cases hr : r'.identifier = r.identifier ∧ r'.timestamp = r.timestamp
    · obtain rfl := requestId_ext hr.1 hr.2
      simp [Node.ackLogEntry, Node.marked, Node.logged, hc, hz, show n.replayLog.flag? _ _ = some true from hm]
    · have hne : r' ≠ r := fun he => hr (by rw [he]; exact ⟨rfl, rfl⟩)
      refine ⟨?_, ?_, ?_, ?_⟩
      all_goals simp [Node.ackLogEntry, Node.marked, Node.logged, hc, hz, hr, hne]
      all_goals exact fun h => Or.inl h
  · have hm : ¬ n.marked r := fun h => hc (hcode.2 h)
    have hlog := ReplayLog.ackLogEntry_ne _ _ hc
    refine ⟨?_, ?_, ?_, ?_⟩
    all_goals simp [Node.ackLogEntry, Node.marked, Node.logged, hc, hlog]
    all_goals first | exact fun h => Or.inl h | exact fun _ h => absurd h hm

/-- what the log has taken in is known until it is acknowledged -/
theorem event_known (n : Node) (e : NodeEvent) (r : ClientRequestId) (h : n.Known r) : (n.event e).Known r := by
  cases event_answer n e with
  | same hs hid =>
    unfold Node.Known
    rw [hs.acked]
    exact h.imp_left (hs.logged r)
  | commit r' hid hlog hacked hmarking =>
    unfold Node.Known Node.logged
    rw [hacked, hlog]
    exact h
  | mark r' hid hlog hacked hr hmarking hkept =>
    unfold Node.Known Node.logged
    rw [hacked, hlog, ReplayLog.commitLogEntry_isSome]
    exact h
  | ack r' hid hnode =>
    rw [hnode]
    rcases h with h | h
    · exact (ackLogEntry_answer n r' r).2.2.2 h
    · exact Or.inr ((ackLogEntry_answer n r' r).2.1.2 (Or.inl h))

/-- the threads carry what they are about to mark -/
theorem EnRoute.marking {K : ClientRequestId → Prop} {n : Node} (h : EnRoute K n) {r : ClientRequestId}
    (hr : n.marking r) : K r := by
  obtain ⟨t, ht, hm⟩ := hr
  cases hp : t.phase with
  | stored e =>
    have he : e.reqId = r := by simpa [AckThread.marking, hp] using hm
    rw [← he]
    exact h.popped t ht e (Or.inr hp)
  | start | ready | popped _ | logged | relaying | calling _ _ | done | failed => simp [AckThread.marking, hp] at hm

theorem Tail.step_inv {log : ReplayLog} {s : Tail} (h : TruthInv log s) (e : NodeEvent) : TruthInv log (s.step e) := by
  have hroute : EnRoute (s.node.event e).Known (s.node.event e) := by
    refine event_enRoute (h.route.mono fun r hr => event_known s.node e r hr) e ?_
    exact fun r hr => Or.inl hr
  have hids : ∀ r, (s.step e).Committed log r ↔ s.Committed log r ∨ s.node.commitId e = some r := by
    intro r
    simp only [Tail.Committed, Tail.step, List.mem_append, Option.mem_toList]
    tauto
  cases event_answer s.node e with
  | same hs hid =>
    refine ⟨hroute, ?_, ?_⟩
    · intro r hr
      simp only [Tail.step, hs.marked, hs.acked, hs.marking] at hr
      exact (hids r).2 (Or.inl (h.sound r hr))
    · intro r hr
      rw [hids, hid] at hr
      simp only [Tail.step, hs.marked, hs.acked, hs.marking]
      exact h.complete r (hr.resolve_right (by simp))
  | commit r' hid hlog hacked hmarking =>
    have hmarked : ∀ r, (s.node.event e).marked r ↔ s.node.marked r := by
      intro r
      unfold Node.marked
      rw [hlog]
    refine ⟨hroute, ?_, ?_⟩
    · intro r hr
      simp only [Tail.step, hmarked, hacked, hmarking] at hr
      rw [hids, hid]
      rcases hr with hr | hr | hr | rfl
      · exact Or.inl (h.sound r (Or.inl hr))
      · exact Or.inl (h.sound r (Or.inr (Or.inl hr)))
      · exact Or.inl (h.sound r (Or.inr (Or.inr hr)))
      · exact Or.inr rfl
    · intro r hr
      simp only [Tail.step, hmarked, hacked, hmarking]
      rw [hids, hid] at hr
      rcases hr with hr | hr
      · rcases h.complete r hr with hm | hm | hm
        · exact Or.inl hm
        · exact Or.inr (Or.inl hm)
        · exact Or.inr (Or.inr (Or.inl hm))
      · exact Or.inr (Or.inr (Or.inr (Option.some.inj hr).symm))
  | mark r' hid hlog hacked hr' hmarking hkept =>
    have hmarked := marked_commitLogEntry hlog
    refine ⟨hroute, ?_, ?_⟩
    · intro r hr
      simp only [Tail.step, hmarked, hacked] at hr
      rw [hids]
      rcases hr with (hr | ⟨rfl, -⟩) | hr | hr
      · exact Or.inl (h.sound r (Or.inl hr))
      · exact Or.inl (h.sound r (Or.inr (Or.inr hr')))
      · exact Or.inl (h.sound r (Or.inr (Or.inl hr)))
      · exact Or.inl (h.sound r (Or.inr (Or.inr (hmarking r hr))))
    · intro r hr
      simp only [Tail.step, hmarked, hacked]
      rw [hids, hid] at hr
      rcases h.complete r (hr.resolve_right (by simp)) with hm | hm | hm
      · exact Or.inl (Or.inl hm)
      · exact Or.inr (Or.inl hm)
      · rcases hkept r hm with hm | rfl
        · exact Or.inr (Or.inr hm)
        · -- its entry is in the log, or was acknowledged in the meantime
          rcases h.route.marking hr' with hk | hk
          · exact Or.inl (Or.inr ⟨rfl, hk⟩)
          · exact Or.inr (Or.inl hk)
  | ack r' hid hnode =>
    have hans := ackLogEntry_answer s.node r'
    have hmarking : ∀ r, (s.node.event e).marking r ↔ s.node.marking r := by
      intro r
      rw [hnode]
      rfl
    refine ⟨hroute, ?_, ?_⟩
    · intro r hr
      simp only [Tail.step, hmarking] at hr
      rw [hnode] at hr
      rw [hids]
      rcases hr with hr | hr | hr
      · exact Or.inl (h.sound r (Or.inl ((hans r).1 hr)))
      · rcases (hans r).2.1.1 hr with hr | ⟨rfl, hr⟩
        · exact Or.inl (h.sound r (Or.inr (Or.inl hr)))
        · exact Or.inl (h.sound r (Or.inl hr))
      · exact Or.inl (h.sound r (Or.inr (Or.inr hr)))
    · intro r hr
      simp only [Tail.step, hmarking]
      rw [hnode]
      rw [hids, hid] at hr
      rcases h.complete r (hr.resolve_right (by simp)) with hm | hm | hm
      · exact ((hans r).2.2.1 hm).imp_right Or.inl
      · exact Or.inr (Or.inl ((hans r).2.1.2 (Or.inl hm)))
      · exact Or.inr (Or.inr hm)

theorem truthInv_start (c : Conf) (start : ℕ) (log : ReplayLog) : TruthInv log (Tail.start c start log) := by
  refine ⟨⟨?_, ?_, ?_, ?_, ?_, ?_, ?_⟩, ?_, ?_⟩
  · simp [Tail.start, Node.idle]
  · simp [Tail.start, Node.idle]
  · simp [Tail.start, Node.idle]
  · simp [Tail.start, Node.idle]
  · simp [Tail.start, Node.idle, Rwb.unwritten, Rwb.unsent]
  · simp [Tail.start, Node.idle]
  · simp [Tail.start, Node.idle]
  · rintro r (hr | hr | hr)
    · exact Or.inr hr
    · simp [Tail.start, Node.idle] at hr
    · simp [Tail.start, Node.idle, Node.marking] at hr
  · rintro r (hr | hr)
    · simp [Tail.start] at hr
    · exact Or.inl hr

/-- **When the answer of `WriteAck` is the truth.** After every run of a tail in free surroundings, with any number of
`WriteAck` calls before: whether it answers "committed" agrees with whether the write is committed if and only if the
log has the request as committed, or the request has not been acknowledged before and no thread is between
`Storage::commit` and `commitLogEntry` for it. -/
theorem writeAck_truthful_iff (c : Conf) (start : ℕ) (log : ReplayLog) (es : List NodeEvent) (r : ClientRequestId) :
    let s := run Tail.step (Tail.start c start log) es
    (s.node.writeAck r = true ↔ s.Committed log r) ↔ s.node.marked r ∨ r ∉ s.node.acked ∧ ¬ s.node.marking r := by
  intro s
  have h : TruthInv log s := run_inv Tail.step (TruthInv log) (fun _ e h => Tail.step_inv h e) _ es
    (truthInv_start c start log)
  have hsound := h.sound r
  have hcomplete := h.complete r
  rw [writeAck_iff]
  constructor
  · intro htrue
    by_cases hm : s.node.marked r
    · exact Or.inl hm
    · refine Or.inr ⟨fun ha => ?_, fun ha => ?_⟩
      · exact hm (htrue.2 (hsound (Or.inr (Or.inl ha))))
      · exact hm (htrue.2 (hsound (Or.inr (Or.inr ha))))
  · rintro (hm | ⟨ha, hk⟩)
    · exact ⟨fun _ => hsound (Or.inl hm), fun _ => hm⟩
    · constructor
      · exact fun hm => hsound (Or.inl hm)
      · intro hc
        rcases hcomplete hc with hm | hm | hm
        · exact hm
        · exact absurd hm ha
        · exact absurd hm hk

/-- a tail with one background thread -/
def tailConf : Conf := ⟨.tail, some 0, none, false⟩

/-- request 1 is relayed, written and committed, and `WriteAck` is called for it -/
def committedAndAcked : List NodeEvent :=
  [.launchTail, .wire (.relayArrives ⟨[7], 0, 1, (requestAt 1).clientRequestId⟩), .act (.relay 0 .addToLog),
    .act (.relay 0 .pushEntry), .act (.rwb .poll), .act (.rwb .spin), .act (.rwb .pop), .act (.rwb .leave),
    .act (.rwb .write), .act (.rwb .bump), .act (.rwb .send), .act (.ack 0 .start), .act (.ack 0 .pop),
    .act (.ack 0 .commit), .act (.ack 0 .log), .act (.ack 0 .bump), .act (.ackLogEntry (requestAt 1).clientRequestId)]

/-- **A repeated call is told that a committed request is not committed.** -/
theorem repeated_ack_false :
    let s := run Tail.step (Tail.start tailConf 0 ReplayLog.empty) committedAndAcked
    s.node.writeAck (requestAt 1).clientRequestId = false ∧
      s.Committed ReplayLog.empty (requestAt 1).clientRequestId := by
  decide +kernel

end ChainedBlockStorage.Chain
