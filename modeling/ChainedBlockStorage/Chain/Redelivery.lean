/-
What a repeated relay does to a node that already has its number.

A call can fail after its handler has run, and `relay_write_background` then relays the same entry again. Only the
replay log of the callee can tell the second handler that the number is known. `RejectRule` says that it does; the
retries are otherwise unrestricted, and several handlers of one number may run at once.

- `OnceInv`: a node takes each number into its queue once.
- `redelivered_step`: in a step that keeps the rule no node takes a number in again, and every pending queue stays above
  `writeSeq` (`Redelivered.above`).
-/
import ChainedBlockStorage.Chain.WritePath
import ChainedBlockStorage.Chain.ClientCalls

namespace ChainedBlockStorage.Chain

open Run Tables Positions

/-- `addToLog` has returned 0 for this number: it has been queued, or `pushEntry` is next -/
def Node.hasAccepted (x : Node) (seqNum : ℤ) : Prop :=
  (∃ e ∈ x.queued, e.seqNum = seqNum) ∨ ∃ h ∈ x.relays, h.phase = .added ∧ h.req.seqNum = seqNum

instance (x : Node) (seqNum : ℤ) : Decidable (x.hasAccepted seqNum) := inferInstanceAs (Decidable (_ ∨ _))

/-- a repeated relay of a number the node has accepted is rejected by the log -/
def RejectRule (s : Nodes) : Event → Prop
  | .act i (.relay k .addToLog) => ∀ h ∈ (s i).relays[k]?, h.phase = .arrived → (s i).hasAccepted h.req.seqNum →
      (s i).replayLog.tooOld h.req.clientRequestId = true ∨ (s i).logged h.req.clientRequestId = true
  | _ => True

instance (s : Nodes) : ∀ e, Decidable (RejectRule s e)
  | .act i (.relay k .addToLog) => inferInstanceAs (Decidable (∀ h ∈ (s i).relays[k]?, h.phase = .arrived →
      (s i).hasAccepted h.req.seqNum →
      (s i).replayLog.tooOld h.req.clientRequestId = true ∨ (s i).logged h.req.clientRequestId = true))
  | .act _ (.relay _ .pushEntry) | .act _ (.relay _ .drop) | .act _ (.write _) | .act _ (.rwb _)
  | .act _ (.ack _ _) | .act _ (.ackLogEntry _) | .sendRelay _ | .relayOk _ | .sendAck _ _ | .ackOk _ _ =>
    isTrue trivial

/-! ## One node -/

/-- each number is accepted at most once, and what has been popped is not in the queue any more -/
structure OnceInv (x : Node) : Prop where
  added : ∀ (m : ℕ) (h : RelayHandler), x.relays[m]? = some h → h.phase = .added →
    ∀ e ∈ x.queued, e.seqNum ≠ h.req.seqNum
  once : ∀ (m m' : ℕ) (h h' : RelayHandler), x.relays[m]? = some h → x.relays[m']? = some h' → h.phase = .added →
    h'.phase = .added → h.req.seqNum = h'.req.seqNum → m = m'
  queue : ∀ e ∈ x.pendingQueue, e ∈ x.queued
  popped : ∀ e, e ∈ x.written ∨ x.rwb.inHand = some e → (∃ q ∈ x.queued, q.seqNum = e.seqNum) ∧
    ∀ y ∈ x.pendingQueue, y.seqNum ≠ e.seqNum

/-- the handlers are the same or have only arrived, and the thread holds the same entry -/
theorem OnceInv.of_eq {x x' : Node} (h : OnceInv x) (hq : x'.queued = x.queued) (hp : x'.pendingQueue = x.pendingQueue)
    (hw : x'.written = x.written) (hr : ∀ e, x'.rwb.inHand = some e → x.rwb.inHand = some e)
    (hrel : ∀ (m : ℕ) (y : RelayHandler), x'.relays[m]? = some y → y.phase = .added → x.relays[m]? = some y) :
    OnceInv x' where
  added m y hy ha := by rw [hq]; exact h.added m y (hrel m y hy ha) ha
  once m m' y y' hy hy' ha ha' := h.once m m' y y' (hrel m y hy ha) (hrel m' y' hy' ha') ha ha'
  queue := by rw [hp, hq]; exact h.queue
  popped := by
    rw [hw, hq, hp]
    rintro e (he | he)
    · exact h.popped e (Or.inl he)
    · exact h.popped e (Or.inr (hr e he))

theorem wire_onceInv (x : Node) (w : Wire) (h : OnceInv x) : OnceInv (x.wire w) := by
  cases w with
  | relayArrives q =>
    refine h.of_eq rfl rfl rfl (fun _ he => he) ?_
    intro m y hy ha
    simp only [Node.wire] at hy
    rcases getElem?_of_concat hy with hy | ⟨-, rfl⟩
    · exact hy
    · cases ha
  | relaySent j k | relayOk =>
    simp only [Node.wire]
    split
    · rename_i hr
      exact h.of_eq rfl rfl rfl (fun e he => by simpa [hr, Rwb.inHand] using he) (fun _ _ hy _ => hy)
    · exact h
  | ackSent _ _ _ | ackArrives _ | ackOk _ =>
    simp only [Node.wire]
    repeat' split
    all_goals exact h.of_eq rfl rfl rfl (fun _ he => he) (fun _ _ hy _ => hy)

/-- `relay_write_background` takes entries out of the queue one by one -/
theorem rwbAct_onceInv (x : Node) (a : RwbAct) (h : OnceInv x) : OnceInv (x.rwbAct a) := by
  cases a with
  | poll | spin | leave | retry | bump | send =>
    simp only [Node.rwbAct]
    repeat' split
    all_goals exact h.of_eq rfl rfl rfl (fun e he => by simp_all [Rwb.inHand]) (fun _ _ hy _ => hy)
  | pop =>
    simp only [Node.rwbAct]
    split
    · rename_i e q hr hp
      obtain ⟨he, -, hmem⟩ := PendingQueue.popEntry_eq_some hp
      refine ⟨h.added, h.once, fun y hy => h.queue y ((hmem y).1 hy).1, ?_⟩
      rintro d (hd | hd)
      · obtain ⟨h1, h2⟩ := h.popped d (Or.inl hd)
        exact ⟨h1, fun y hy => h2 y ((hmem y).1 hy).1⟩
      · obtain rfl : e = d := by simpa [Rwb.inHand] using hd
        exact ⟨⟨e, h.queue e he, rfl⟩, fun y hy => ((hmem y).1 hy).2⟩
    · exact h
  | write =>
    simp only [Node.rwbAct]
    split
    · rename_i e hr
      have hin := h.popped e (Or.inr (by simp [hr, Rwb.inHand]))
      refine ⟨h.added, h.once, h.queue, ?_⟩
      rintro d (hd | hd)
      · rcases List.mem_append.1 hd with hd | hd
        · exact h.popped d (Or.inl hd)
        · rw [List.mem_singleton.1 hd]
          exact hin
      · obtain rfl : e = d := by simpa [Rwb.inHand] using hd
        exact hin
    · exact h

/-- one handler takes its next step without being accepted -/
theorem OnceInv.setRelay {x : Node} (h : OnceInv x) {k : ℕ} {y : RelayHandler} (hy : y.phase ≠ .added)
    (log : ReplayLog) :
    OnceInv { x with relays := x.relays.set k y, replayLog := log } := by
  refine h.of_eq rfl rfl rfl (fun _ he => he) ?_
  intro m z hz ha
  rcases getElem?_of_set hz with ⟨-, rfl⟩ | ⟨-, hz⟩
  · exact absurd ha hy
  · exact hz

/-- a handler is accepted: nothing with its number had been -/
theorem OnceInv.accept {x : Node} (h : OnceInv x) {k : ℕ} {y : RelayHandler} (hnot : ¬ x.hasAccepted y.req.seqNum)
    (log : ReplayLog) : OnceInv { x with relays := x.relays.set k y, replayLog := log } := by
  refine ⟨?_, ?_, h.queue, h.popped⟩
  · intro m z hz ha e he
    rcases getElem?_of_set hz with ⟨-, rfl⟩ | ⟨-, hz⟩
    · exact fun heq => hnot (Or.inl ⟨e, he, heq⟩)
    · exact h.added m z hz ha e he
  · intro m m' z z' hz hz' ha ha' heq
    rcases getElem?_of_set hz with ⟨hm, rfl⟩ | ⟨-, hold⟩ <;>
      rcases getElem?_of_set hz' with ⟨hm', hzy⟩ | ⟨-, hold'⟩
    · exact hm.trans hm'.symm
    · exact absurd (Or.inr ⟨z', List.mem_of_getElem? hold', ha', heq.symm⟩) hnot
    · subst hzy
      exact absurd (Or.inr ⟨z, List.mem_of_getElem? hold, ha, heq⟩) hnot
    · exact h.once m m' z z' hold hold' ha ha' heq

/-- an accepted handler pushes its entry, whose number is new to the queue -/
theorem OnceInv.push {x : Node} (h : OnceInv x) {k : ℕ} {req : RelayWriteRequest} {f : Bool}
    (hk : x.relays[k]? = some ⟨req, .added, f⟩) {q : PendingQueue} (hq : x.pendingQueue.pushEntry req.entry = some q) :
    OnceInv { x with pendingQueue := q, relays := x.relays.set k ⟨req, .pushed, f⟩,
                     queued := x.queued ++ [req.entry] } := by
  have hmem := (PendingQueue.pushEntry_eq_some hq).1
  have hnew := h.added k _ hk rfl
  have hold : ∀ (m : ℕ) (z : RelayHandler), (x.relays.set k ⟨req, .pushed, f⟩)[m]? = some z → z.phase = .added →
      x.relays[m]? = some z ∧ m ≠ k := by
    intro m z hz ha
    rcases getElem?_of_set hz with ⟨-, rfl⟩ | ⟨hmk, hz⟩
    · cases ha
    · exact ⟨hz, hmk⟩
  refine ⟨?_, ?_, ?_, ?_⟩
  · intro m z hz ha e he
    obtain ⟨hz, hmk⟩ := hold m z hz ha
    rcases List.mem_append.1 he with he | he
    · exact h.added m z hz ha e he
    · rw [List.mem_singleton.1 he]
      exact fun heq => hmk (h.once m k z _ hz hk ha rfl heq.symm)
  · intro m m' z z' hz hz' ha ha'
    exact h.once m m' z z' (hold m z hz ha).1 (hold m' z' hz' ha').1 ha ha'
  · intro e he
    rcases (hmem e).1 he with he | rfl
    · exact List.mem_append_left _ (h.queue e he)
    · exact List.mem_append_right _ (List.mem_singleton_self _)
  · intro e he
    obtain ⟨⟨p, hp, hpe⟩, hne⟩ := h.popped e he
    refine ⟨⟨p, List.mem_append_left _ hp, hpe⟩, ?_⟩
    intro y hy
    rcases (hmem y).1 hy with hy | rfl
    · exact hne y hy
    · exact fun heq => hnew p hp (hpe.trans heq.symm)

theorem relayAct_onceInv (x : Node) (k : ℕ) (a : RelayAct) (h : OnceInv x)
    (hr : a = .addToLog → ∀ y ∈ x.relays[k]?, y.phase = .arrived → x.hasAccepted y.req.seqNum →
      x.replayLog.tooOld y.req.clientRequestId = true ∨ x.logged y.req.clientRequestId = true) :
    OnceInv (x.relayAct k a) := by
  cases a with
  | addToLog =>
    simp only [Node.relayAct]
    split
    · rename_i req f hk
      by_cases hc : (x.replayLog.addToLog req.clientRequestId).1 < 0
      · exact h.setRelay (by simp [hc]) _
      · obtain ⟨hold, hnot⟩ := (addToLog_accepts x req.clientRequestId).1 hc
        refine h.accept ?_ _
        intro hacc
        rcases hr rfl ⟨req, .arrived, f⟩ (by rw [hk]; rfl) rfl hacc with hc | hc
        · rw [hold] at hc; cases hc
        · rw [hnot] at hc; cases hc
    · exact h
  | pushEntry =>
    simp only [Node.relayAct]
    split
    · rename_i req f hk
      split
      · exact h.setRelay (by simp) _
      · rename_i q hq
        exact h.push hk hq
    · exact h
  | drop =>
    simp only [Node.relayAct]
    split
    · exact h.setRelay (by simp) _
    · exact h

/-! ## The chain -/

section Chain

variable {n start : ℕ} {log : ReplayLog} {s : Nodes}

/-- the head numbers consecutively, every handler carries an entry of the head's list, and every node takes its entries
once and in order -/
structure Redelivered (n start : ℕ) (log : ReplayLog) (s : Nodes) : Prop where
  conf : ∀ i, (s i).conf = (stable n start log i).conf
  head : HeadInv start (s 0).path
  quiet : ∀ i, i ≠ 0 → (s i).adding = [] ∧ (s i).pushing = []
  node : ∀ i < n, PathInv start (s 0).numbered (s i).path
  genuine : ∀ i < n, ∀ h ∈ (s i).relays, h.req.entry ∈ (s 0).numbered
  once : ∀ i, i ≠ 0 → i < n → OnceInv (s i)

/-- an entry of the head's list at or below `writeSeq` has been written -/
theorem PathInv.mem_written {start : ℤ} {N : List Entry} {p : Path} (h : PathInv start N p) (hN : Consecutive start N)
    {e : Entry} (he : e ∈ N) (hle : e.seqNum ≤ p.writeSeq) : e ∈ p.written := by
  obtain ⟨k, hk⟩ := List.mem_iff_getElem?.1 he
  have hseq := hN k e hk
  have hlt := (List.getElem?_eq_some_iff.1 hk).1
  have hw : p.writeSeq ≤ p.writtenSeq := by
    unfold Path.writtenSeq
    split <;> omega
  rw [h.written]
  apply List.mem_of_getElem? (i := k)
  rw [List.getElem?_take_of_lt (by omega), hk]

/-- a number that no pop has taken is above `writeSeq` -/
theorem OnceInv.above {x : Node} (h : OnceInv x) {start : ℤ} {N : List Entry} (hp : PathInv start N x.path)
    (hN : Consecutive start N) {e : Entry} (he : e ∈ N) (hnew : ∀ q ∈ x.queued, q.seqNum ≠ e.seqNum) :
    x.writeSeq < e.seqNum := by
  by_contra hle
  obtain ⟨⟨q, hq, hqe⟩, -⟩ := h.popped e (Or.inl (hp.mem_written hN he (not_lt.1 hle)))
  exact hnew q hq hqe

theorem relayAct_pathInv (x : Node) (k : ℕ) (a : RelayAct) {start : ℤ} {N : List Entry} (h : PathInv start N x.path)
    (hN : Consecutive start N) (hg : ∀ y ∈ x.relays, y.req.entry ∈ N) (ho : OnceInv x) :
    PathInv start N (x.relayAct k a).path := by
  cases a with
  | addToLog | drop =>
    simp only [Node.relayAct]
    split
    all_goals exact ⟨h.queue, h.hand, h.send, h.pop, h.lower, h.upper, h.written⟩
  | pushEntry =>
    simp only [Node.relayAct]
    split
    · rename_i req f hk
      split
      · exact ⟨h.queue, h.hand, h.send, h.pop, h.lower, h.upper, h.written⟩
      · rename_i q hq
        have he : req.entry ∈ N := hg _ (List.mem_of_getElem? hk)
        have habove : x.writeSeq < req.entry.seqNum := ho.above h hN he (ho.added k _ hk rfl)
        have hp := h.push hq he (fun _ => habove)
        exact ⟨hp.queue, hp.hand, hp.send, hp.pop, hp.lower, hp.upper, hp.written⟩
    · exact h

theorem relays_set_req {x : Node} {k : ℕ} {y z : RelayHandler} (hy : x.relays[k]? = some y) (hzy : z.req = y.req) :
    (x.relays.set k z).map RelayHandler.req = x.relays.map RelayHandler.req := by
  apply List.ext_getElem?
  intro m
  rw [List.map_set, List.getElem?_set]
  split_ifs with hkm hlt
  · rw [← hkm, List.getElem?_map, hy, hzy]
    rfl
  · rw [← hkm, List.getElem?_eq_none (not_lt.1 hlt)]
  · rfl

/-- a handler keeps its request -/
theorem act_relays_req (x : Node) (a : Act) :
    (x.act a).relays.map RelayHandler.req = x.relays.map RelayHandler.req := by
  by_cases ha : ∃ k b, a = .relay k b
  · obtain ⟨k, b, rfl⟩ := ha
    unfold Node.act
    split
    · rfl
    · cases b <;> simp only [Node.relayAct] <;> repeat' split
      all_goals first | rfl | exact relays_set_req ‹_› (by rfl)
  · rw [act_relays x a fun k b hb => ha ⟨k, b, hb⟩]

theorem act_genuine (x : Node) (a : Act) {N : List Entry} (h : ∀ y ∈ x.relays, y.req.entry ∈ N) :
    ∀ y ∈ (x.act a).relays, y.req.entry ∈ N := by
  intro y hy
  have hreq : y.req ∈ (x.act a).relays.map RelayHandler.req := List.mem_map_of_mem hy
  rw [act_relays_req] at hreq
  obtain ⟨z, hz, hzy⟩ := List.mem_map.1 hreq
  rw [← hzy]
  exact h z hz

/-- one node of the chain changes; `N` is what the head has numbered afterwards -/
theorem Redelivered.updateWith (h : Redelivered n start log s) (i : ℕ) (x : Node) {N : List Entry}
    (hconf : x.conf = (s i).conf) (hnum : (Function.update s i x 0).numbered = N)
    (hN : ∀ p, PathInv start (s 0).numbered p → PathInv start N p) (hsub : ∀ e ∈ (s 0).numbered, e ∈ N)
    (hhead : i = 0 → HeadInv start x.path) (hquiet : i ≠ 0 → x.adding = [] ∧ x.pushing = [])
    (hnode : i < n → PathInv start N x.path) (hgen : i < n → ∀ y ∈ x.relays, y.req.entry ∈ N)
    (honce : i ≠ 0 → i < n → OnceInv x) : Redelivered n start log (Function.update s i x) := by
  have hat : ∀ (P : ℕ → Node → Prop) (j : ℕ), (j = i → P i x) → (j ≠ i → P j (s j)) →
      P j (Function.update s i x j) := by
    intro P j hi hj
    by_cases hji : j = i
    · rw [hji, Function.update_self]; exact hi hji
    · rw [Function.update_of_ne hji]; exact hj hji
  refine ⟨?_, ?_, ?_, ?_, ?_, ?_⟩
  · exact fun j => hat (fun j y => y.conf = (stable n start log j).conf) j (fun _ => hconf.trans (h.conf i))
      fun _ => h.conf j
  · exact hat (fun _ y => HeadInv start y.path) 0 (fun h0 => hhead h0.symm) fun _ => h.head
  · exact fun j hj => hat (fun j y => j ≠ 0 → y.adding = [] ∧ y.pushing = []) j (fun _ => hquiet)
      (fun _ => h.quiet j) hj
  · intro j hj
    rw [hnum]
    exact hat (fun j y => j < n → PathInv start N y.path) j (fun _ => hnode) (fun _ hj => hN _ (h.node j hj)) hj
  · intro j hj
    rw [hnum]
    exact hat (fun j y => j < n → ∀ z ∈ y.relays, z.req.entry ∈ N) j (fun _ => hgen)
      (fun _ hj z hz => hsub _ (h.genuine j hj z hz)) hj
  · exact fun j hj => hat (fun j y => j ≠ 0 → j < n → OnceInv y) j (fun _ => honce) (fun _ => h.once j) hj

/-- one node of the chain changes and the head numbers nothing -/
theorem Redelivered.update (h : Redelivered n start log s) (i : ℕ) (x : Node) (hconf : x.conf = (s i).conf)
    (hnum : i = 0 → x.numbered = (s 0).numbered) (hhead : i = 0 → HeadInv start x.path)
    (hquiet : i ≠ 0 → x.adding = [] ∧ x.pushing = []) (hnode : i < n → PathInv start (s 0).numbered x.path)
    (hgen : i < n → ∀ y ∈ x.relays, y.req.entry ∈ (s 0).numbered) (honce : i ≠ 0 → i < n → OnceInv x) :
    Redelivered n start log (Function.update s i x) := by
  refine h.updateWith i x hconf ?_ (fun _ hp => hp) (fun _ he => he) hhead hquiet hnode hgen honce
  by_cases h0 : i = 0
  · subst h0; simpa using hnum rfl
  · rw [Function.update_of_ne (Ne.symm h0)]

/-- a `Write` handler at the head -/
theorem Redelivered.writeAct (h : Redelivered n start log s) (h0 : 0 < n) (a : WriteAct) :
    Redelivered n start log (Function.update s 0 ((s 0).writeAct a)) := by
  have hconf : ((s 0).writeAct a).conf = (s 0).conf := writeAct_conf (s 0) a
  have hrel : ((s 0).writeAct a).relays = [] := (writeAct_relays (s 0) a).trans h.head.relays
  have hgen : ∀ N : List Entry, 0 < n → ∀ y ∈ ((s 0).writeAct a).relays, y.req.entry ∈ N := by
    intro N _ y hy
    rw [hrel] at hy
    cases hy
  by_cases ha : ∀ k, a ≠ .takeSeq k
  · obtain ⟨hnum, hhead, hp⟩ := writeAct_inv (s 0) a ha h.head (h.node 0 h0)
    exact h.update 0 _ hconf (fun _ => hnum) (fun _ => hhead) (absurd rfl) (fun _ => hp) (hgen _) (absurd rfl)
  · push Not at ha
    obtain ⟨k, rfl⟩ := ha
    rcases takeSeq_inv (s 0) k h.head (h.node 0 h0) with hsame | ⟨hhead, ⟨e, hnum, hp⟩, -⟩
    · rw [hsame, Function.update_eq_self]
      exact h
    · refine h.updateWith 0 _ hconf (by rw [Function.update_self]; exact hnum) (fun p hp => hp.append e)
        (fun _ hx => List.mem_append_left _ hx) (fun _ => hhead) (absurd rfl) (fun _ => hp) (hgen _) (absurd rfl)

theorem Redelivered.act (h : Redelivered n start log s) (h0 : 0 < n) (i : ℕ) (a : Act)
    (hr : RejectRule s (.act i a)) : Redelivered n start log (Function.update s i ((s i).act a)) := by
  by_cases hd : (s i).rwb.isDead = true
  · rw [show (s i).act a = s i by simp [Node.act, hd], Function.update_eq_self]
    exact h
  have hgen := fun hi => act_genuine (s i) a (h.genuine i hi)
  -- a step that leaves the write path alone
  have hsame : ((s i).act a).path = (s i).path → ((s i).act a).queued = (s i).queued →
      Redelivered n start log (Function.update s i ((s i).act a)) := by
    intro hp hq
    refine h.update i _ (act_conf _ a) ?_ ?_ ?_ ?_ hgen ?_
    · rintro rfl; exact congrArg Path.numbered hp
    · rintro rfl; rw [hp]; exact h.head
    · intro hi
      exact ⟨(congrArg Path.adding hp).trans (h.quiet i hi).1, (congrArg Path.pushing hp).trans (h.quiet i hi).2⟩
    · rw [hp]; exact h.node i
    · intro hi hin
      apply (h.once i hi hin).of_eq hq (congrArg Path.pendingQueue hp) (congrArg Path.written hp)
      · intro e he
        rwa [show ((s i).act a).rwb = (s i).rwb from congrArg Path.rwb hp] at he
      · intro m y hy _
        rwa [show ((s i).act a).relays = (s i).relays from congrArg Path.relays hp] at hy
  cases a with
  | write a =>
    have hact : (s i).act (.write a) = (s i).writeAct a := by simp [Node.act, hd]
    by_cases hi : i = 0
    · subst hi
      rw [hact]
      exact h.writeAct h0 a
    · rw [hact, writeAct_quiet (conf_headService (h.conf i) hi) (h.quiet i hi).1 (h.quiet i hi).2,
        Function.update_eq_self]
      exact h
  | relay k a =>
    have hact : (s i).act (.relay k a) = (s i).relayAct k a := by simp [Node.act, hd]
    by_cases hi : i = 0
    · -- nobody relays to the head
      subst hi
      have hrel : (s 0).relays = [] := h.head.relays
      rw [hact, show (s 0).relayAct k a = s 0 by cases a <;> simp [Node.relayAct, hrel], Function.update_eq_self]
      exact h
    · rw [hact] at hgen ⊢
      have honce := h.once i hi
      have hsame := relayAct_intake (s i) k a
      have hquiet : ((s i).relayAct k a).adding = [] ∧ ((s i).relayAct k a).pushing = [] :=
        ⟨(congrArg Intake.adding hsame).trans (h.quiet i hi).1, (congrArg Intake.pushing hsame).trans (h.quiet i hi).2⟩
      refine h.update i _ (relayAct_conf _ k a) (fun h => absurd h hi) (fun h => absurd h hi) (fun _ => hquiet) ?_ hgen ?_
      · exact fun hin => relayAct_pathInv _ k a (h.node i hin) h.head.numbering (h.genuine i hin) (honce hin)
      · refine fun _ hin => relayAct_onceInv _ k a (honce hin) ?_
        rintro rfl
        exact hr
  | rwb a =>
    have hact : (s i).act (.rwb a) = (s i).rwbAct a := by simp [Node.act, hd]
    rw [hact] at hgen ⊢
    have hsame := rwbAct_intake (s i) a
    refine h.update i _ (rwbAct_conf _ a) ?_ ?_ ?_ ?_ hgen fun hi hin => rwbAct_onceInv _ a (h.once i hi hin)
    · rintro rfl; exact congrArg Intake.numbered hsame
    · rintro rfl; exact h.head.move (rwbAct_move _ a (h.node 0 h0))
    · intro hi
      exact ⟨(congrArg Intake.adding hsame).trans (h.quiet i hi).1,
        (congrArg Intake.pushing hsame).trans (h.quiet i hi).2⟩
    · exact fun hi => rwbAct_pathInv _ a h.head.numbering (h.node i hi)
  | ack k a =>
    have hact : (s i).act (.ack k a) = (s i).ackAct k a := by simp [Node.act, hd]
    apply hsame (by rw [hact]; exact ackAct_path _ k a)
    rw [hact]
    simp only [Node.ackAct, Node.ackStart, Node.ackPop]
    repeat' split
    all_goals rfl
  | ackLogEntry r =>
    have hact : (s i).act (.ackLogEntry r) = (s i).ackLogEntry r := by simp [Node.act, hd]
    exact hsame (by rw [hact]; rfl) (by rw [hact]; rfl)

/-- the node's half of a call -/
theorem Redelivered.wire (h : Redelivered n start log s) (h0 : 0 < n) (i : ℕ) (w : Wire)
    (hw : ∀ q, w = .relayArrives q → i ≠ 0 ∧ (i < n → q.entry ∈ (s 0).numbered)) :
    Redelivered n start log (Nodes.wire s i w) := by
  have hsame := wire_intake (s i) w
  -- the thread may move within a call, with the same entry in hand
  have hpath : ∀ N, PathInv start N (s i).path → PathInv start N ((s i).wire w).path ∧
      ((∀ q, w ≠ .relayArrives q) → RwbMove (s i).path ((s i).wire w).path) := by
    intro N hN
    cases w with
    | relaySent j k =>
      simp only [Node.wire]
      split
      · rename_i e hr
        refine ⟨hN.moveOn (.calling e j k) (fun _ hx => hx) (by simp [Node.path, hr]) (by simp) (by simp) ?_ (by simp),
          fun _ => RwbMove.moveOn (.calling e j k) _ _ (by simp [Path.top, Node.path, hr, Rwb.inHand])⟩
        rintro x ⟨⟩
        exact hN.hand e (by simp [Node.path, hr, Rwb.inHand])
      · exact ⟨hN, fun _ => RwbMove.refl _⟩
    | relayOk =>
      simp only [Node.wire]
      split
      · rename_i e j k hr
        refine ⟨hN.moveOn (.write e) (fun _ hx => hx) (by simp [Node.path, hr]) (by simp) (by simp) ?_ (by simp),
          fun _ => RwbMove.moveOn (.write e) _ _ (by simp [Path.top, Node.path, hr, Rwb.inHand])⟩
        rintro x ⟨⟩
        exact hN.hand e (by simp [Node.path, hr, Rwb.inHand])
      · exact ⟨hN, fun _ => RwbMove.refl _⟩
    | relayArrives q =>
      exact ⟨⟨hN.queue, hN.hand, hN.send, hN.pop, hN.lower, hN.upper, hN.written⟩, fun h => absurd rfl (h q)⟩
    | ackSent _ _ _ | ackArrives _ | ackOk _ =>
      simp only [Node.wire]
      repeat' split
      all_goals exact ⟨hN, fun _ => RwbMove.refl _⟩
  refine h.update i _ (wire_conf _ w) ?_ ?_ ?_ (fun hi => (hpath _ (h.node i hi)).1) ?_
    fun hi hin => wire_onceInv _ w (h.once i hi hin)
  · rintro rfl; exact congrArg Intake.numbered hsame
  · rintro rfl
    exact h.head.move ((hpath _ (h.node 0 h0)).2 fun q hq => (hw q hq).1 rfl)
  · intro hi
    exact ⟨(congrArg Intake.adding hsame).trans (h.quiet i hi).1,
      (congrArg Intake.pushing hsame).trans (h.quiet i hi).2⟩
  · intro hi y hy
    by_cases hq : ∀ q, w ≠ .relayArrives q
    · rw [wire_relays _ w hq] at hy
      exact h.genuine i hi y hy
    · push Not at hq
      obtain ⟨q, rfl⟩ := hq
      rcases List.mem_append.1 hy with hy | hy
      · exact h.genuine i hi y hy
      · rw [List.mem_singleton.1 hy]
        exact (hw q rfl).2 hi

theorem redelivered_step (h : Redelivered n start log s) (h0 : 0 < n) (e : Event) (hr : RejectRule s e) :
    Redelivered n start log (step s e) := by
  cases e with
  | act i a => exact h.act h0 i a hr
  | sendRelay i =>
    rcases step_sendRelay s i with hs | ⟨e, j, ht, hs⟩ <;> rw [hs]
    · exact h
    obtain ⟨hrwb, hd, -⟩ := relayTarget_eq_some ht
    obtain ⟨hin, rfl⟩ := conf_downstream (h.conf i) hd
    have h1 := h.wire h0 i (.relaySent (i + 1) (s (i + 1)).relays.length) (by simp)
    have hnum : (Nodes.wire s i (.relaySent (i + 1) (s (i + 1)).relays.length) 0).numbered = (s 0).numbered := by
      by_cases hi : 0 = i
      · subst hi; simp [Nodes.wire, Node.wire, hrwb]
      · simp [Nodes.wire, hi]
    apply h1.wire h0 (i + 1) _
    rintro q ⟨⟩
    refine ⟨by omega, fun _ => ?_⟩
    rw [hnum, entry_relayRequest]
    exact ((h.node i (by omega)).hand e (by simp [Node.path, hrwb, Rwb.inHand])).1
  | relayOk i =>
    rcases step_relayOk s i with hs | ⟨e, j, k, -, -, hs⟩ <;> rw [hs]
    · exact h
    · exact h.wire h0 i _ (by simp)
  | sendAck i k =>
    rcases step_sendAck s i k with hs | ⟨seq, j, -, hs⟩ <;> rw [hs]
    · exact h
    · exact (h.wire h0 i _ (by simp)).wire h0 j _ (by simp)
  | ackOk i k =>
    rcases step_ackOk s i k with hs | hs <;> rw [hs]
    · exact h
    · exact h.wire h0 i _ (by simp)

theorem redelivered_stable (n start : ℕ) (log : ReplayLog) : Redelivered n start log (stable n start log) := by
  have hp := onPath_stable n start log
  have hidle : ∀ i, (stable n start log i).relays = [] ∧ OnceInv (stable n start log i) := by
    intro i
    obtain ⟨a, b, c, d, acks, e⟩ := stable_idle n start log i
    rw [e]
    exact ⟨rfl, by simp [Node.idle], by simp [Node.idle], by simp [Node.idle], by simp [Node.idle, Rwb.inHand]⟩
  refine ⟨hp.conf, hp.head, hp.quiet, hp.node, ?_, fun i _ _ => (hidle i).2⟩
  intro i _ y hy
  rw [(hidle i).1] at hy
  cases hy

/-- the pending queue is above `writeSeq` -/
theorem Redelivered.above (h : Redelivered n start log s) {i : ℕ} (hi : i < n) {x : Entry}
    (hx : x ∈ (s i).pendingQueue) : (s i).writeSeq < x.seqNum := by
  have hxN := (h.node i hi).queue x hx
  by_cases h0 : i = 0
  · subst h0
    exact lt_of_le_of_lt (h.node 0 hi).writeSeq_le_top.1 (h.head.queue x hx)
  · by_contra hle
    have hw := (h.node i hi).mem_written h.head.numbering hxN (not_lt.1 hle)
    exact ((h.once i h0 hi).popped x (Or.inl hw)).2 x hx rfl

end Chain

end ChainedBlockStorage.Chain
