/-
A node and the next one: what relays take down, and the replay log that decides about it.

`relay_write_background` of node u takes its numbers in order, but the replay log of the next node w decides by client
timestamp. `Handover` is the invariant of the two: what u has to relay, which numbers above `R` have reached w, and
where the entries of w's log come from. It asks nothing of how u came by its queue, and relays may be repeated at will.

- `Waiting`: only the awaited number is popped, or it stays in the queue.
- `Handover.accepts`: the first delivery of a number is accepted, if the timestamps of each client grow with the numbers
  and every request is later than the log `C` that w began with.
- `Handover.step`: every step of the chain keeps the handover.
-/
import ChainedBlockStorage.Chain.Traces

namespace ChainedBlockStorage.Chain

open Tables Run Positions

/-! ## What comes next at one node -/

/-- the entry in hand is the one the thread has waited for, or that one stays in the queue -/
structure Waiting (n : Node) : Prop where
  pop : n.rwb = .pop → ∃ x ∈ n.pendingQueue, x.seqNum = n.writeSeq + 1
  hand : ∀ e, n.rwb.inHand = some e → e.seqNum = n.writeSeq + 1 ∨
    e.seqNum ≤ n.writeSeq ∧ ∃ x ∈ n.pendingQueue, x.seqNum = n.writeSeq + 1

section Waiting

variable {n n' : Node}

theorem Waiting.grow (h : Waiting n) (hq : ∀ x ∈ n.pendingQueue, x ∈ n'.pendingQueue) (hr : n'.rwb = n.rwb)
    (hw : n'.writeSeq = n.writeSeq) : Waiting n' := by
  constructor
  · rw [hr, hw]
    intro hp
    obtain ⟨x, hx, hxw⟩ := h.pop hp
    exact ⟨x, hq x hx, hxw⟩
  · rw [hr, hw]
    intro e he
    rcases h.hand e he with hle | ⟨hle, x, hx, hxw⟩
    · exact Or.inl hle
    · exact Or.inr ⟨hle, x, hq x hx, hxw⟩

/-- the thread keeps its entry, or has none -/
theorem Waiting.moveOn (h : Waiting n) (r : Rwb) (l : List Entry) (hp : r ≠ .pop)
    (hr : ∀ e, r.inHand = some e → n.rwb.inHand = some e) : Waiting { n with rwb := r, written := l } :=
  ⟨fun he => absurd he hp, fun e he => h.hand e (hr e he)⟩

/-- only `relay_write_background` takes from the queue and writes -/
theorem act_grows (n : Node) (a : Act) (ha : ∀ b, a ≠ .rwb b) : (∀ x ∈ n.pendingQueue, x ∈ (n.act a).pendingQueue) ∧
    (n.act a).rwb = n.rwb ∧ (n.act a).writeSeq = n.writeSeq ∧ (n.act a).written = n.written := by
  refine ⟨?_, act_progress n a ha⟩
  unfold Node.act
  split
  · exact fun _ hx => hx
  cases a with
  | rwb b => exact absurd rfl (ha b)
  | write a =>
    cases a <;> simp only [Node.writeAct] <;> repeat' split
    all_goals first
      | exact fun _ hx => hx
      | rename_i hq; exact fun x hx => ((PendingQueue.pushEntry_eq_some hq).1 x).2 (Or.inl hx)
  | relay k a =>
    cases a <;> simp only [Node.relayAct] <;> repeat' split
    all_goals first
      | exact fun _ hx => hx
      | rename_i hq; exact fun x hx => ((PendingQueue.pushEntry_eq_some hq).1 x).2 (Or.inl hx)
  | ack k a =>
    have hq : (n.ackAct k a).pendingQueue = n.pendingQueue := congrArg Path.pendingQueue (ackAct_path n k a)
    exact fun x hx => hq ▸ hx
  | ackLogEntry r => exact fun _ hx => hx

theorem Waiting.rwbAct (h : Waiting n) (a : RwbAct) : Waiting (n.rwbAct a) := by
  cases a with
  | poll | leave | retry | write | send =>
    simp only [Node.rwbAct]
    repeat' split
    all_goals first
      | exact h
      | exact h.moveOn _ _ (by simp) (by simp_all [Rwb.inHand])
      | exact ⟨by simp, by simp [Rwb.inHand]⟩
  | spin =>
    simp only [Node.rwbAct]
    split
    · rename_i e _ hp
      split_ifs with he
      · exact ⟨fun _ => ⟨e, (PendingQueue.peekEntry_eq_some hp).1, he⟩, by simp [Rwb.inHand]⟩
      · exact h
    · exact h
  | pop =>
    simp only [Node.rwbAct]
    split
    · rename_i e q hr hp
      obtain ⟨-, hmin, hmem⟩ := PendingQueue.popEntry_eq_some hp
      obtain ⟨x, hx, hxw⟩ := h.pop hr
      refine ⟨by simp, ?_⟩
      rintro y ⟨⟩
      by_cases he : e.seqNum = n.writeSeq + 1
      · exact Or.inl he
      · have hle := hmin x hx
        exact Or.inr ⟨by simp only; omega, x, (hmem x).2 ⟨hx, by omega⟩, hxw⟩
    · exact h
  | bump =>
    simp only [Node.rwbAct]
    split
    · exact ⟨by simp, by simp [Rwb.inHand]⟩
    · exact h

theorem Waiting.act (h : Waiting n) (a : Act) : Waiting (n.act a) := by
  by_cases ha : ∃ b, a = .rwb b
  · obtain ⟨b, rfl⟩ := ha
    unfold Node.act
    split
    · exact h
    · exact h.rwbAct b
  · obtain ⟨h1, h2, h3, -⟩ := act_grows n a fun b hb => ha ⟨b, hb⟩
    exact h.grow h1 h2 h3

theorem Waiting.wire (h : Waiting n) (w : Wire) : Waiting (n.wire w) := by
  cases w with
  | relaySent j k | relayOk =>
    simp only [Node.wire]
    split
    · exact h.moveOn _ _ (by simp) (by simp_all [Rwb.inHand])
    · exact h
  | relayArrives q => exact h.grow (fun _ hx => hx) rfl rfl
  | ackArrives seq => exact h.grow (fun _ hx => hx) rfl rfl
  | ackSent _ _ _ | ackOk _ =>
    simp only [Node.wire]
    split
    · exact h.grow (fun _ hx => hx) rfl rfl
    · exact h

theorem step_waiting {s : Nodes} (e : Event) (j : ℕ) (h : Waiting (s j)) : Waiting (step s e j) :=
  step_node_inv Waiting s e j h (fun a _ => h.act a) fun _ w hn => hn.wire w

end Waiting

/-! ## A node and the next one -/

/-- the largest number the thread has taken -/
def Node.reached (n : Node) : ℤ := if n.rwb.inHand.isSome then n.writeSeq + 1 else n.writeSeq

/-- the timestamps of a client grow with the numbers of its requests -/
def TimestampOrder (Q : Entry → Prop) : Prop := ∀ x y, Q x → Q y → x.reqId.identifier = y.reqId.identifier →
  x.seqNum < y.seqNum → x.reqId.timestamp < y.reqId.timestamp

/-- node u relays entries of `Q` to node w, which is node `j`, began with the log `C`, and has no number up
to `R` to wait for -/
structure Handover (R : ℤ) (C : ReplayLog) (Q : Entry → Prop) (j : ℕ) (u w : Node) : Prop where
  queue : ∀ x ∈ u.pendingQueue, Q x
  relaying : ∀ e, u.rwb.relaying = some e → Q e
  upTo : ∀ k, R < k → k ≤ u.writeSeq → w.delivered k ∨ ∃ x ∈ u.pendingQueue, x.seqNum = k
  busy : u.rwb = .pop ∨ u.rwb.inHand.isSome → ∀ k, R < k → k ≤ u.writeSeq → w.delivered k
  past : ∀ e, u.rwb = .write e ∨ u.rwb = .bump e ∨ u.rwb = .send e → R < e.seqNum → w.delivered e.seqNum
  calling : ∀ e m k, u.rwb = .calling e m k → m = j ∧ ∃ h, w.relays[k]? = some h ∧ h.req = relayRequest e
  handlers : ∀ h ∈ w.relays, (∃ e, Q e ∧ h.req = relayRequest e) ∧ h.req.seqNum ≤ u.reached ∧
    (R < h.req.seqNum → w.delivered h.req.seqNum ∨ ∃ e, u.rwb.relaying = some e ∧ e.seqNum = h.req.seqNum)
  log : ∀ c t, (w.replayLog.flag? c t).isSome → (C.flag? c t).isSome ∨
    ∃ h ∈ w.relays, h.phase.ran = true ∧ h.req.clientRequestId.identifier = c ∧ h.req.clientRequestId.timestamp = t
  first : ∀ k, R < k → w.delivered k → ∃ h ∈ w.relays, h.first = true ∧ h.req.seqNum = k
  queued : ∀ h ∈ w.relays, h.first = true → R < h.req.seqNum → h.phase = .added ∨ h.phase = .pushed

theorem inHand_of_relaying {r : Rwb} {e : Entry} (h : r.relaying = some e) : r.inHand = some e := by
  cases r <;> simp_all [Rwb.relaying, Rwb.inHand]

section Handover

variable {R : ℤ} {C : ReplayLog} {Q Q' : Entry → Prop} {j : ℕ} {u u' w w' : Node}

theorem Handover.mono (h : Handover R C Q j u w) (hQ : ∀ e, Q e → Q' e) : Handover R C Q' j u w :=
  { h with
    queue := fun x hx => hQ x (h.queue x hx)
    relaying := fun e he => hQ e (h.relaying e he)
    handlers := by
      intro x hx
      obtain ⟨⟨e, he, hreq⟩, hrest⟩ := h.handlers x hx
      exact ⟨⟨e, hQ e he, hreq⟩, hrest⟩ }

/-! ### Steps of node u -/

/-- more is queued -/
theorem Handover.grow (h : Handover R C Q j u w) (hsub : ∀ x ∈ u.pendingQueue, x ∈ u'.pendingQueue)
    (hq : ∀ x ∈ u'.pendingQueue, x ∈ u.pendingQueue ∨ Q x) (hr : u'.rwb = u.rwb) (hw : u'.writeSeq = u.writeSeq) :
    Handover R C Q j u' w where
  queue x hx := (hq x hx).elim (h.queue x) id
  relaying := by rw [hr]; exact h.relaying
  upTo := by
    rw [hw]
    intro k h1 h2
    rcases h.upTo k h1 h2 with hd | ⟨x, hx, hk⟩
    · exact Or.inl hd
    · exact Or.inr ⟨x, hsub x hx, hk⟩
  busy := by rw [hr, hw]; exact h.busy
  past := by rw [hr]; exact h.past
  calling := by rw [hr]; exact h.calling
  handlers := by
    have hreach : u'.reached = u.reached := by rw [Node.reached, Node.reached, hr, hw]
    rw [hr, hreach]
    exact h.handlers
  log := h.log
  first := h.first
  queued := h.queued

/-- the thread moves on and relays what it relayed -/
theorem Handover.moveOn (h : Handover R C Q j u w) (r : Rwb) (hrel : r.relaying = u.rwb.relaying)
    (hhand : r.inHand.isSome = u.rwb.inHand.isSome)
    (hbusy : r = .pop ∨ r.inHand.isSome → ∀ k, R < k → k ≤ u.writeSeq → w.delivered k)
    (hpast : ∀ e, r = .write e ∨ r = .bump e ∨ r = .send e → R < e.seqNum → w.delivered e.seqNum)
    (hcall : ∀ e m k, r = .calling e m k → m = j ∧ ∃ y, w.relays[k]? = some y ∧ y.req = relayRequest e)
    (l : List Entry) (sl : SentList) : Handover R C Q j { u with rwb := r, written := l, sentList := sl } w :=
  { h with
    relaying := fun e he => h.relaying e (hrel ▸ he)
    busy := hbusy
    past := hpast
    calling := hcall
    handlers := fun x hx => by
      obtain ⟨h1, h2, h3⟩ := h.handlers x hx
      refine ⟨h1, ?_, ?_⟩
      · unfold Node.reached at h2 ⊢
        simpa only [hhand] using h2
      · simpa only [hrel] using h3 }

/-- **`relay_write_background` takes its next step.** -/
theorem Handover.rwbAct (h : Handover R C Q j u w) (hwait : Waiting u) (hs : u.state.relays = true) (a : RwbAct) :
    Handover R C Q j (u.rwbAct a) w := by
  cases a with
  | poll =>
    simp only [Node.rwbAct]
    split
    · rename_i hr _
      exact h.moveOn .spin (by simp [hr, Rwb.relaying]) (by simp [hr, Rwb.inHand]) (by simp [Rwb.inHand]) (by simp)
        (by simp) _ _
    · exact h
  | spin =>
    simp only [Node.rwbAct]
    split
    · rename_i e hr hp
      split_ifs with he
      · -- nothing at or below `writeSeq` is left in the queue
        refine h.moveOn .pop (by simp [hr, Rwb.relaying]) (by simp [hr, Rwb.inHand]) (fun _ k h1 h2 => ?_) (by simp)
          (by simp) _ _
        rcases h.upTo k h1 h2 with hd | ⟨x, hx, rfl⟩
        · exact hd
        · have := (PendingQueue.peekEntry_eq_some hp).2 x hx
          omega
      · exact h
    · exact h
  | pop =>
    simp only [Node.rwbAct]
    split
    · rename_i e q hr hp
      obtain ⟨he, -, hmem⟩ := PendingQueue.popEntry_eq_some hp
      have hbusy := h.busy (Or.inl hr)
      refine ⟨fun x hx => h.queue x ((hmem x).1 hx).1, ?_, fun k h1 h2 => Or.inl (hbusy k h1 h2), fun _ => hbusy,
        by simp, by simp, fun x hx => ?_, h.log, h.first, h.queued⟩
      · rintro x ⟨⟩
        exact h.queue e he
      · obtain ⟨h1, h2, h3⟩ := h.handlers x hx
        refine ⟨h1, ?_, fun hR => ?_⟩
        · simp only [Node.reached, hr, Rwb.inHand] at h2
          exact h2.trans (Int.le_add_one le_rfl)
        · rcases h3 hR with hd | ⟨y, hy, -⟩
          · exact Or.inl hd
          · simp [hr, Rwb.relaying] at hy
    · exact h
  | leave =>
    simp only [Node.rwbAct]
    split
    · rw [if_pos hs]
      exact h
    · exact h
  | retry =>
    simp only [Node.rwbAct]
    split
    · rename_i e m k hr
      exact h.moveOn (.relay e) (by simp [hr, Rwb.relaying]) (by simp [hr, Rwb.inHand])
        (fun _ => h.busy (Or.inr (by simp [hr, Rwb.inHand]))) (by simp) (by simp) _ _
    · exact h
  | write =>
    simp only [Node.rwbAct]
    split
    · rename_i e hr
      refine h.moveOn (.bump e) (by simp [hr, Rwb.relaying]) (by simp [hr, Rwb.inHand])
        (fun _ => h.busy (Or.inr (by simp [hr, Rwb.inHand]))) (fun x hx => ?_) (by simp) _ _
      obtain rfl : e = x := by simpa using hx
      exact h.past e (Or.inl hr)
    · exact h
  | bump =>
    simp only [Node.rwbAct]
    split
    · rename_i e hr
      have hhand : u.rwb.inHand = some e := by simp [hr, Rwb.inHand]
      have hbusy := h.busy (Or.inr (by simp [hhand]))
      refine ⟨h.queue, by simp [Rwb.relaying], fun k h1 h2 => ?_, by simp [Rwb.inHand], fun x hx => ?_, by simp,
        fun x hx => ?_, h.log, h.first, h.queued⟩
      · rcases Int.lt_or_eq_of_le h2 with h2 | rfl
        · exact Or.inl (hbusy k h1 (Int.lt_add_one_iff.1 h2))
        · -- the number that is counted now is the one in hand, or was left in the queue
          rcases hwait.hand e hhand with he | ⟨-, hx⟩
          · exact Or.inl (he ▸ h.past e (Or.inr (Or.inl hr)) (he ▸ h1))
          · exact Or.inr hx
      · obtain rfl : e = x := by simpa using hx
        exact h.past e (Or.inr (Or.inl hr))
      · obtain ⟨h1, h2, h3⟩ := h.handlers x hx
        refine ⟨h1, ?_, fun hR => ?_⟩
        · simpa [Node.reached, hr, Rwb.inHand] using h2
        · rcases h3 hR with hd | ⟨y, hy, -⟩
          · exact Or.inl hd
          · simp [hr, Rwb.relaying] at hy
    · exact h
  | send =>
    simp only [Node.rwbAct]
    split
    · rename_i e hr
      split
      · exact h.moveOn .dead (by simp [hr, Rwb.relaying]) (by simp [hr, Rwb.inHand]) (by simp [Rwb.inHand]) (by simp)
          (by simp) _ _
      · exact h.moveOn .poll (by simp [hr, Rwb.relaying]) (by simp [hr, Rwb.inHand]) (by simp [Rwb.inHand]) (by simp)
          (by simp) _ _
    · exact h

/-! ### Steps of node w -/

/-- the log may lose entries -/
theorem Handover.frame (h : Handover R C Q j u w) (hrel : w'.relays = w.relays)
    (hlog : ∀ c t, (w'.replayLog.flag? c t).isSome → (w.replayLog.flag? c t).isSome) : Handover R C Q j u w' := by
  have hd : ∀ k, w'.delivered k = w.delivered k := fun k => by rw [Node.delivered, Node.delivered, hrel]
  constructor
  · exact h.queue
  · exact h.relaying
  all_goals simp only [hd, hrel]
  · exact h.upTo
  · exact h.busy
  · exact h.past
  · exact h.calling
  · exact h.handlers
  · exact fun c t ht => h.log c t (hlog c t ht)
  · exact h.first
  · exact h.queued

/-- handler `k` takes a step: the first to run with its number is queued or about to be -/
theorem Handover.setRelay (h : Handover R C Q j u w) {k : ℕ} {x : RelayHandler} (hk : w.relays[k]? = some x)
    (y : RelayHandler) (hreq : y.req = x.req) (hran : x.phase.ran = true → y.phase.ran = true)
    (hfirst : x.first = true → R < x.req.seqNum → y.first = true)
    (hnew : y.phase.ran = true → R < y.req.seqNum → w.delivered y.req.seqNum ∨ y.first = true)
    (hqueued : y.first = true → R < y.req.seqNum → y.phase = .added ∨ y.phase = .pushed)
    (hrel : w'.relays = w.relays.set k y)
    (hlog : ∀ c t, (w'.replayLog.flag? c t).isSome → (w.replayLog.flag? c t).isSome ∨
      y.phase.ran = true ∧ y.req.clientRequestId.identifier = c ∧ y.req.clientRequestId.timestamp = t) :
    Handover R C Q j u w' := by
  have hx : x ∈ w.relays := List.mem_of_getElem? hk
  have hlt := (List.getElem?_eq_some_iff.1 hk).1
  have hy : y ∈ w'.relays := hrel ▸ mem_set_self hk y
  have hmem : ∀ z ∈ w'.relays, z ∈ w.relays ∨ z = y := fun z hz => List.mem_or_eq_of_mem_set (hrel ▸ hz)
  have hstay : ∀ z ∈ w.relays, z ∈ w'.relays ∨ z = x := fun z hz => hrel ▸ mem_set_or_eq hk y hz
  have hd : ∀ c, w.delivered c → w'.delivered c := by
    intro c hc
    rw [delivered_iff, hrel]
    exact delivered_set hk hreq hran (delivered_iff.1 hc)
  have hold : ∀ c, w'.delivered c → w.delivered c ∨ y.phase.ran = true ∧ y.req.seqNum = c := by
    intro c hc
    rw [delivered_iff] at hc
    obtain ⟨z, hz, hr, hzc⟩ := hc
    rcases hmem z hz with hz | rfl
    · exact Or.inl (delivered_iff.2 ⟨z, hz, hr, hzc⟩)
    · exact Or.inr ⟨hr, hzc⟩
  refine ⟨h.queue, h.relaying, fun c h1 h2 => (h.upTo c h1 h2).imp_left (hd c),
    fun hb c h1 h2 => hd c (h.busy hb c h1 h2),
    fun e he hR => hd _ (h.past e he hR), fun e m i he => ?_, fun z hz => ?_, fun c t ht => ?_, fun c hc hdc => ?_,
    fun z hz => ?_⟩
  · obtain ⟨hm, z, hz, hzr⟩ := h.calling e m i he
    refine ⟨hm, ?_⟩
    by_cases hik : k = i
    · subst hik
      obtain rfl := Option.some.inj (hk.symm.trans hz)
      exact ⟨y, by rw [hrel]; simp [hlt], hreq.trans hzr⟩
    · exact ⟨z, by rw [hrel, List.getElem?_set_ne hik, hz], hzr⟩
  · rcases hmem z hz with hz | rfl
    · obtain ⟨h1, h2, h3⟩ := h.handlers z hz
      exact ⟨h1, h2, fun hR => (h3 hR).imp_left (hd _)⟩
    · obtain ⟨h1, h2, h3⟩ := h.handlers x hx
      rw [hreq]
      exact ⟨h1, h2, fun hR => (h3 hR).imp_left (hd _)⟩
  · rcases hlog c t ht with ht | hyt
    · rcases h.log c t ht with hC | ⟨z, hz, hr, hzt⟩
      · exact Or.inl hC
      · rcases hstay z hz with hz | rfl
        · exact Or.inr ⟨z, hz, hr, hzt⟩
        · exact Or.inr ⟨y, hy, hran hr, by rw [hreq]; exact hzt⟩
    · exact Or.inr ⟨y, hy, hyt⟩
  · -- the first with number `c` is the old one, or handler `k` itself
    have hwas : w.delivered c → ∃ z ∈ w'.relays, z.first = true ∧ z.req.seqNum = c := by
      intro hcd
      obtain ⟨z, hz, hf, hzc⟩ := h.first c hc hcd
      rcases hstay z hz with hz | rfl
      · exact ⟨z, hz, hf, hzc⟩
      · exact ⟨y, hy, hfirst hf (hzc ▸ hc), by rw [hreq, hzc]⟩
    rcases hold c hdc with hcd | ⟨hr, rfl⟩
    · exact hwas hcd
    · rcases hnew hr hc with hcd | hf
      · exact hwas hcd
      · exact ⟨y, hy, hf, rfl⟩
  · rcases hmem z hz with hz | rfl
    · exact h.queued z hz
    · exact hqueued

/-- **The first delivery is accepted.** Everything else that has reached w has a smaller number. -/
theorem Handover.accepts (h : Handover R C Q j u w) (hwait : Waiting u) (hord : TimestampOrder Q)
    (hlater : ∀ e, Q e → R < e.seqNum → C.Later e.reqId) {x : RelayHandler} (hx : x ∈ w.relays) (hR : R < x.req.seqNum)
    (hnew : ¬ w.delivered x.req.seqNum) : (w.replayLog.addToLog x.req.clientRequestId).1 = 0 := by
  obtain ⟨⟨e, he, hreq⟩, -, hrel⟩ := h.handlers x hx
  obtain ⟨y, hy, hyx⟩ := (hrel hR).resolve_left hnew
  have hhand := inHand_of_relaying hy
  -- it is the number in hand, the one after `writeSeq`
  have hnext : x.req.seqNum = u.writeSeq + 1 := by
    rcases hwait.hand y hhand with hn | ⟨hle, -⟩
    · rw [← hyx, hn]
    · exact absurd (h.busy (Or.inr (by simp [hhand])) _ hR (hyx ▸ hle)) hnew
  apply ReplayLog.addToLog_of_later
  intro t ht
  rcases h.log _ t (ReplayLog.mem_timestamps.1 ht) with hC | ⟨z, hz, hzr, hzc, rfl⟩
  · rw [hreq] at hC hR ⊢
    exact hlater e he hR t (ReplayLog.mem_timestamps.2 hC)
  · obtain ⟨⟨d, hd, hzreq⟩, hzle, -⟩ := h.handlers z hz
    have hne : z.req.seqNum ≠ x.req.seqNum := fun hzx => hnew (delivered_iff.2 ⟨z, hz, hzr, hzx⟩)
    have hlt : z.req.seqNum < x.req.seqNum := by
      have hle : z.req.seqNum ≤ u.writeSeq + 1 := by simpa [Node.reached, hhand] using hzle
      omega
    rw [hreq, hzreq] at hlt hzc ⊢
    exact hord d e hd he hzc hlt

/-- handler `k` of node w pushes its entry, or throws -/
theorem Handover.relayAct (h : Handover R C Q j u w) (hwait : Waiting u) (hord : TimestampOrder Q)
    (hlater : ∀ e, Q e → R < e.seqNum → C.Later e.reqId) (k : ℕ) (a : RelayAct)
    (hpush : a = .pushEntry → ∀ x ∈ w.relays[k]?, x.phase = .added → (w.pendingQueue.pushEntry x.req.entry).isSome) :
    Handover R C Q j u (w.relayAct k a) := by
  cases a with
  | addToLog =>
    simp only [Node.relayAct]
    split
    · rename_i request f hk
      have hx : (⟨request, .arrived, f⟩ : RelayHandler) ∈ w.relays := List.mem_of_getElem? hk
      refine h.setRelay hk ⟨request, if (w.replayLog.addToLog request.clientRequestId).1 < 0 then .refused else .added,
        !w.delivered request.seqNum⟩ rfl (by simp [RelayPhase.ran]) (fun hf hR => ?_) (fun _ _ => ?_) (fun hf hR => ?_) rfl
        fun c t ht => ?_
      · -- a handler that has not run is not the first
        simpa using h.queued _ hx hf hR
      · cases hd : w.delivered request.seqNum <;> simp
      · have hnew : ¬ w.delivered request.seqNum := by simpa using hf
        have h0 := h.accepts hwait hord hlater hx hR hnew
        simp only at h0
        simp [h0]
      · by_cases hneg : (w.replayLog.addToLog request.clientRequestId).1 < 0
        · simp only [ReplayLog.addToLog_neg _ _ hneg] at ht
          exact Or.inl ht
        · simp only [ReplayLog.addToLog_zero _ _ hneg] at ht
          split_ifs at ht with hct
          · exact Or.inr ⟨by simp [hneg, RelayPhase.ran], hct.1.symm, hct.2.symm⟩
          · exact Or.inl ht
    · exact h
  | pushEntry =>
    simp only [Node.relayAct]
    split
    · rename_i request f hk
      obtain ⟨q, hq⟩ := Option.isSome_iff_exists.1 (hpush rfl _ hk rfl)
      rw [hq]
      exact h.setRelay hk ⟨request, .pushed, f⟩ rfl (by simp [RelayPhase.ran]) (fun hf _ => hf)
        (fun _ _ => Or.inl (delivered_iff.2 ⟨_, List.mem_of_getElem? hk, rfl, rfl⟩)) (by simp) rfl fun _ _ => Or.inl
    · exact h
  | drop =>
    simp only [Node.relayAct]
    split
    · rename_i request f hk
      have hx : (⟨request, .arrived, f⟩ : RelayHandler) ∈ w.relays := List.mem_of_getElem? hk
      have hnot : f = true → R < request.seqNum → False := fun hf hR => by simpa using h.queued _ hx hf hR
      exact h.setRelay hk ⟨request, .lost, f⟩ rfl (by simp [RelayPhase.ran]) (fun hf _ => hf) (by simp [RelayPhase.ran])
        (fun hf hR => (hnot hf hR).elim) rfl fun _ _ => Or.inl
    · exact h

/-- a request arrives: it is the one that u is relaying -/
theorem Handover.arrives (h : Handover R C Q j u w) (hwait : Waiting u) {e : Entry} (he : u.rwb = .relay e) :
    Handover R C Q j (u.wire (.relaySent j w.relays.length)) (w.wire (.relayArrives (relayRequest e))) := by
  have hhand : u.rwb.inHand = some e := by simp [he, Rwb.inHand]
  have hrel : u.rwb.relaying = some e := by simp [he, Rwb.relaying]
  have hd : ∀ k, (w.wire (.relayArrives (relayRequest e))).delivered k = w.delivered k := by
    simp [Node.delivered, Node.wire, RelayPhase.ran]
  have hbusy := h.busy (Or.inr (by simp [hhand]))
  have hreach : u.reached = u.writeSeq + 1 := by simp [Node.reached, hhand]
  have hle : e.seqNum ≤ u.writeSeq + 1 := by rcases hwait.hand e hhand with h1 | ⟨h1, -⟩ <;> omega
  simp only [Node.wire, he]
  refine ⟨h.queue, ?_, fun k h1 h2 => ?_, fun _ k h1 h2 => ?_, by simp, ?_, fun x hx => ?_, fun c t ht => ?_,
    fun k h1 h2 => ?_, fun x hx => ?_⟩
  · rintro x ⟨⟩
    exact h.relaying e hrel
  · exact (h.upTo k h1 h2).imp_left fun hk => (hd k).trans hk
  · exact (hd k).trans (hbusy k h1 h2)
  · rintro x m k ⟨⟩
    exact ⟨rfl, ⟨relayRequest e, .arrived, false⟩, by simp, rfl⟩
  · have hnow : ({ u with rwb := .calling e j w.relays.length } : Node).reached = u.writeSeq + 1 := by
      simp [Node.reached, Rwb.inHand]
    rw [hnow]
    rcases List.mem_append.1 hx with hx | hx
    · obtain ⟨h1, h2, h3⟩ := h.handlers x hx
      refine ⟨h1, hreach ▸ h2, fun hR => ?_⟩
      rcases h3 hR with hk | ⟨y, hy, hyx⟩
      · exact Or.inl ((hd _).trans hk)
      · obtain rfl := Option.some.inj (hrel.symm.trans hy)
        exact Or.inr ⟨e, rfl, hyx⟩
    · rw [List.mem_singleton.1 hx]
      exact ⟨⟨e, h.relaying e hrel, rfl⟩, hle, fun _ => Or.inr ⟨e, rfl, rfl⟩⟩
  · rcases h.log c t ht with hC | ⟨x, hx, hxt⟩
    · exact Or.inl hC
    · exact Or.inr ⟨x, List.mem_append_left _ hx, hxt⟩
  · obtain ⟨x, hx, hxk⟩ := h.first k h1 ((hd k).symm.trans h2)
    exact ⟨x, List.mem_append_left _ hx, hxk⟩
  · rcases List.mem_append.1 hx with hx | hx
    · exact h.queued x hx
    · rw [List.mem_singleton.1 hx]
      simp

/-- the call returns OK: its number has been delivered -/
theorem Handover.answered (h : Handover R C Q j u w) {e : Entry} {m k : ℕ} (he : u.rwb = .calling e m k)
    (ha : w.relayAnswered k = true) : Handover R C Q j (u.wire .relayOk) w := by
  obtain ⟨-, x, hx, hreq⟩ := h.calling e m k he
  have hdel : w.delivered e.seqNum := by
    simp only [Node.relayAnswered, hx, Option.any_some] at ha
    refine delivered_iff.2 ⟨x, List.mem_of_getElem? hx, ?_, by rw [hreq]; rfl⟩
    cases hp : x.phase <;> simp_all [RelayPhase.ok, RelayPhase.ran]
  have hrel : u.rwb.relaying = some e := by simp [he, Rwb.relaying]
  have hhand : u.rwb.inHand.isSome := by simp [he, Rwb.inHand]
  simp only [Node.wire, he]
  refine ⟨h.queue, by simp [Rwb.relaying], h.upTo, fun _ => h.busy (Or.inr hhand), fun y hy _ => ?_, by simp,
    fun y hy => ?_, h.log, h.first, h.queued⟩
  · obtain rfl : e = y := by simpa using hy
    exact hdel
  · obtain ⟨h1, h2, h3⟩ := h.handlers y hy
    refine ⟨h1, by simpa [Node.reached, he, Rwb.inHand] using h2, fun hR => Or.inl ?_⟩
    rcases h3 hR with hd | ⟨z, hz, hzy⟩
    · exact hd
    · obtain rfl := Option.some.inj (hrel.symm.trans hz)
      exact hzy ▸ hdel

/-! ### Steps of the chain -/

theorem ackAct_log (n : Node) (k : ℕ) (a : AckAct) : (n.ackAct k a).replayLog = n.replayLog ∨
    ∃ r, (n.ackAct k a).replayLog = (n.replayLog.commitLogEntry r).2 := by
  simp only [Node.ackAct, Node.ackStart, Node.ackPop]
  repeat' split
  all_goals first
    | exact Or.inl rfl
    | exact Or.inr ⟨_, rfl⟩

/-- commits and acks only take entries out of the log -/
theorem ackAct_isSome (n : Node) (k : ℕ) (a : AckAct) {c : String} {t : Timestamp}
    (h : ((n.ackAct k a).replayLog.flag? c t).isSome) : (n.replayLog.flag? c t).isSome := by
  rcases ackAct_log n k a with hl | ⟨r, hl⟩ <;> rw [hl] at h
  · exact h
  · rwa [ReplayLog.commitLogEntry_isSome] at h

theorem ackLogEntry_isSome (n : Node) (r : ClientRequestId) {c : String} {t : Timestamp}
    (h : ((n.ackLogEntry r).replayLog.flag? c t).isSome) : (n.replayLog.flag? c t).isSome := by
  simp only [Node.ackLogEntry] at h
  by_cases h0 : (n.replayLog.ackLogEntry r).1 = 0
  · rw [ReplayLog.ackLogEntry_zero _ _ h0] at h
    split_ifs at h
    · cases h
    · exact h
  · rwa [ReplayLog.ackLogEntry_ne _ _ h0] at h

/-- where nobody calls, the log only loses entries -/
theorem act_isSome {n : Node} (hhead : n.headService = false) (hrel : n.relays = []) (a : Act) {c : String}
    {t : Timestamp}
    (h : ((n.act a).replayLog.flag? c t).isSome) : (n.replayLog.flag? c t).isSome := by
  unfold Node.act at h
  split at h
  · exact h
  cases a with
  | write a =>
    cases a with
    | addToLog request => simpa [Node.writeAct, hhead] using h
    | takeSeq k | pushEntry k =>
      simp only [Node.writeAct] at h
      repeat' split at h
      all_goals exact h
  | relay k a => cases a <;> simpa [Node.relayAct, hrel] using h
  | rwb a =>
    cases a <;> simp only [Node.rwbAct] at h <;> repeat' split at h
    all_goals exact h
  | ack k a => exact ackAct_isSome n k a h
  | ackLogEntry r => exact ackLogEntry_isSome n r h

theorem wire_log (n : Node) (w : Wire) : (n.wire w).replayLog = n.replayLog := by
  cases w <;> simp only [Node.wire] <;> repeat' split
  all_goals rfl

theorem Handover.actDown (h : Handover R C Q j u w) (hwait : Waiting u) (hord : TimestampOrder Q)
    (hlater : ∀ e, Q e → R < e.seqNum → C.Later e.reqId) (hhead : w.headService = false) (a : Act)
    (hpush : ∀ k, a = .relay k .pushEntry → ∀ x ∈ w.relays[k]?, x.phase = .added →
      (w.pendingQueue.pushEntry x.req.entry).isSome) : Handover R C Q j u (w.act a) := by
  unfold Node.act
  split
  · exact h
  cases a with
  | write a =>
    cases a with
    | addToLog request => simpa [Node.writeAct, hhead] using h
    | takeSeq k | pushEntry k =>
      simp only [Node.writeAct]
      repeat' split
      all_goals first
        | exact h
        | exact h.frame rfl fun _ _ => id
  | relay k a => exact h.relayAct hwait hord hlater k a fun ha => hpush k (by rw [ha])
  | rwb a =>
    cases a <;> simp only [Node.rwbAct] <;> repeat' split
    all_goals exact h.frame rfl fun _ _ => id
  | ack k a => exact h.frame (congrArg Path.relays (ackAct_path w k a)) fun _ _ => ackAct_isSome w k a
  | ackLogEntry r => exact h.frame rfl fun _ _ => ackLogEntry_isSome w r

theorem Handover.wireDown (h : Handover R C Q j u w) (x : Wire) (hx : ∀ q, x ≠ .relayArrives q) :
    Handover R C Q j u (w.wire x) := by
  exact h.frame (wire_relays w x hx) fun c t ht => by rwa [wire_log] at ht

theorem Handover.actUp (h : Handover R C Q j u w) (hwait : Waiting u) (hs : u.state.relays = true) (a : Act)
    (hq : ∀ x ∈ (u.act a).pendingQueue, x ∈ u.pendingQueue ∨ Q x) : Handover R C Q j (u.act a) w := by
  by_cases ha : ∃ b, a = .rwb b
  · obtain ⟨b, rfl⟩ := ha
    unfold Node.act
    split
    · exact h
    · exact h.rwbAct hwait hs b
  · obtain ⟨h1, h2, h3, -⟩ := act_grows u a fun b hb => ha ⟨b, hb⟩
    exact h.grow h1 hq h2 h3

theorem Handover.wireUp (h : Handover R C Q j u w) (x : Wire) (hs : ∀ m k, x ≠ .relaySent m k) (ho : x ≠ .relayOk) :
    Handover R C Q j (u.wire x) w := by
  have hsame : (u.wire x).pendingQueue = u.pendingQueue ∧ (u.wire x).rwb = u.rwb ∧
      (u.wire x).writeSeq = u.writeSeq := by
    cases x with
    | relaySent m k => exact absurd rfl (hs m k)
    | relayOk => exact absurd rfl ho
    | relayArrives _ | ackArrives _ => exact ⟨rfl, rfl, rfl⟩
    | ackSent _ _ _ | ackOk _ =>
      simp only [Node.wire]
      split
      all_goals exact ⟨rfl, rfl, rfl⟩
  exact h.grow (fun y hy => by rwa [hsame.1]) (fun y hy => Or.inl (by rwa [hsame.1] at hy)) hsame.2.1 hsame.2.2

/-- the entries that event `e` pushes to the pending queue of node `j` -/
def Nodes.pushes (s : Nodes) (j : ℕ) : Event → List Entry
  | .act i (.write (.pushEntry k)) => if i = j then (s i).pushing[k]?.toList else []
  | .act i (.relay k .pushEntry) =>
    match (s i).relays[k]? with
    | some ⟨request, .added, _⟩ => if i = j then [request.entry] else []
    | _ => []
  | _ => []

/-- what node `j` queues meets no number that is equal as an int -/
def NoClash (s : Nodes) (j : ℕ) (e : Event) : Prop :=
  ∀ x ∈ s.pushes j e, ∀ y ∈ (s j).pendingQueue.toList, toInt y.seqNum ≠ toInt x.seqNum

instance (s : Nodes) (j : ℕ) (e : Event) : Decidable (NoClash s j e) :=
  inferInstanceAs (Decidable (∀ x ∈ s.pushes j e, ∀ y ∈ (s j).pendingQueue.toList, toInt y.seqNum ≠ toInt x.seqNum))

theorem act_queued (n : Node) (a : Act) : (n.act a).queued = n.queued ∧
    (∀ x ∈ (n.act a).pendingQueue, x ∈ n.pendingQueue) ∨
    ∃ x, (n.act a).queued = n.queued ++ [x] ∧ (∀ y, y ∈ (n.act a).pendingQueue ↔ y ∈ n.pendingQueue ∨ y = x) ∧
      ((∃ k, a = .write (.pushEntry k) ∧ n.pushing[k]? = some x) ∨
        ∃ k request f, a = .relay k .pushEntry ∧ n.relays[k]? = some ⟨request, .added, f⟩ ∧ x = request.entry) := by
  unfold Node.act
  split
  · exact Or.inl ⟨rfl, fun _ hx => hx⟩
  cases a with
  | write a =>
    cases a with
    | addToLog request | takeSeq k =>
      left
      simp only [Node.writeAct]
      repeat' split
      all_goals exact ⟨rfl, fun _ hx => hx⟩
    | pushEntry k =>
      simp only [Node.writeAct]
      split
      · exact Or.inl ⟨rfl, fun _ hx => hx⟩
      · rename_i y hk
        split
        · exact Or.inl ⟨rfl, fun _ hx => hx⟩
        · rename_i q hq
          exact Or.inr ⟨y, rfl, (PendingQueue.pushEntry_eq_some hq).1, Or.inl ⟨k, rfl, hk⟩⟩
  | relay k a =>
    cases a with
    | addToLog | drop =>
      left
      simp only [Node.relayAct]
      split
      all_goals exact ⟨rfl, fun _ hx => hx⟩
    | pushEntry =>
      simp only [Node.relayAct]
      split
      · rename_i request f hk
        split
        · exact Or.inl ⟨rfl, fun _ hx => hx⟩
        · rename_i q hq
          exact Or.inr ⟨request.entry, rfl, (PendingQueue.pushEntry_eq_some hq).1,
            Or.inr ⟨k, request, f, rfl, hk, rfl⟩⟩
      · exact Or.inl ⟨rfl, fun _ hx => hx⟩
  | rwb a =>
    left
    cases a with
    | pop =>
      simp only [Node.rwbAct]
      split
      · rename_i hp
        exact ⟨rfl, fun x hx => (((PendingQueue.popEntry_eq_some hp).2.2 x).1 hx).1⟩
      · exact ⟨rfl, fun _ hx => hx⟩
    | poll | spin | leave | retry | write | bump | send =>
      simp only [Node.rwbAct]
      repeat' split
      all_goals exact ⟨rfl, fun _ hx => hx⟩
  | ack k a =>
    have hp : (n.ackAct k a).pendingQueue = n.pendingQueue := congrArg Path.pendingQueue (ackAct_path n k a)
    have hq : (n.ackAct k a).queued = n.queued := by
      simp only [Node.ackAct, Node.ackStart, Node.ackPop]
      repeat' split
      all_goals rfl
    exact Or.inl ⟨hq, fun x hx => hp ▸ hx⟩
  | ackLogEntry r => exact Or.inl ⟨rfl, fun _ hx => hx⟩

theorem wire_queued (n : Node) (w : Wire) : (n.wire w).queued = n.queued ∧
    (n.wire w).pendingQueue = n.pendingQueue := by
  constructor
  all_goals
    cases w <;> simp only [Node.wire] <;> repeat' split
    all_goals rfl

/-- **What a step queues** it pushes. -/
theorem step_queued (s : Nodes) (e : Event) (j : ℕ) : ∃ l, (Chain.step s e j).queued = (s j).queued ++ l ∧
    (∀ x ∈ l, x ∈ s.pushes j e) ∧ ∀ x ∈ (Chain.step s e j).pendingQueue, x ∈ (s j).pendingQueue ∨ x ∈ l := by
  refine step_node_inv (fun n => ∃ l, n.queued = (s j).queued ++ l ∧ (∀ x ∈ l, x ∈ s.pushes j e) ∧
    ∀ x ∈ n.pendingQueue, x ∈ (s j).pendingQueue ∨ x ∈ l) s e j ⟨[], by simp⟩ (fun a he => ?_) fun n w hn => ?_
  · subst he
    rcases act_queued (s j) a with ⟨hq, hx⟩ | ⟨x, hq, hmem, hfrom⟩
    · exact ⟨[], by simp [hq], by simp, fun x h => Or.inl (hx x h)⟩
    · refine ⟨[x], hq, fun y hy => ?_, fun y hy => by simpa using (hmem y).1 hy⟩
      rw [List.mem_singleton.1 hy]
      rcases hfrom with ⟨k, rfl, hk⟩ | ⟨k, request, f, rfl, hk, rfl⟩
      · simp [Nodes.pushes, hk]
      · simp [Nodes.pushes, hk]
  · obtain ⟨h1, h2⟩ := wire_queued n w
    rwa [h1, h2]

/-- **Every step of the chain keeps the handover of node `i` to node `j`**, the only node it relays to and the only one
that relays to it. -/
theorem Handover.step {s : Nodes} {e : Event} {i : ℕ} (h : Handover R C Q j (s i) (s j)) (hij : i ≠ j)
    (hwait : Waiting (s i)) (hord : TimestampOrder Q) (hlater : ∀ e, Q e → R < e.seqNum → C.Later e.reqId)
    (hto : ∀ m, (s i).downstream = some m → m = j) (hfrom : ∀ m, (s m).downstream = some j → m = i)
    (hs : (s i).state.relays = true) (hhead : (s j).headService = false)
    (hq : ∀ x ∈ (Chain.step s e i).pendingQueue, x ∈ (s i).pendingQueue ∨ Q x) (hclash : NoClash s j e) :
    Handover R C Q j (Chain.step s e i) (Chain.step s e j) := by
  -- half of a call that is not the relay between the two
  have hwire : ∀ (s' : Nodes) m x, (m = j → ∀ q, x ≠ .relayArrives q) → (m = i → ∀ c k, x ≠ .relaySent c k) →
      (m = i → x ≠ .relayOk) → Handover R C Q j (s' i) (s' j) →
      Handover R C Q j (Nodes.wire s' m x i) (Nodes.wire s' m x j) := by
    intro s' m x h1 h2 h3 hs'
    by_cases hi : m = i
    · subst hi
      simpa [Nodes.wire, hij.symm] using hs'.wireUp x (h2 rfl) (h3 rfl)
    · by_cases hj : m = j
      · subst hj
        simpa [Nodes.wire, hij] using hs'.wireDown x (h1 rfl)
      · simpa [Nodes.wire, Ne.symm hi, Ne.symm hj] using hs'
  cases e with
  | act m a =>
    by_cases hi : m = i
    · subst hi
      simp only [Chain.step, Function.update_self, Function.update_of_ne hij.symm] at hq ⊢
      exact h.actUp hwait hs a hq
    · by_cases hj : m = j
      · subst hj
        simp only [Chain.step, Function.update_self, Function.update_of_ne hij]
        apply h.actDown hwait hord hlater hhead a
        intro k ha x hx hp
        obtain ⟨request, ph, f⟩ := x
        obtain rfl : ph = .added := hp
        subst ha
        rw [← Option.ne_none_iff_isSome, Ne, PendingQueue.pushEntry_eq_none]
        rintro ⟨y, hy, hyx⟩
        exact hclash request.entry (by simp [Nodes.pushes, Option.mem_def.1 hx]) y hy hyx
      · simpa only [Chain.step, Function.update_of_ne (Ne.symm hi), Function.update_of_ne (Ne.symm hj)] using h
  | sendRelay m =>
    rcases step_sendRelay s m with hs' | ⟨x, c, ht, hs'⟩ <;> rw [hs']
    · exact h
    · obtain ⟨hr, hd, -⟩ := relayTarget_eq_some ht
      by_cases hi : m = i
      · subst hi
        obtain rfl := hto c hd
        simpa [Nodes.wire, hij, hij.symm] using h.arrives hwait hr
      · have hc : c ≠ j := fun hc => hi (hfrom m (hc ▸ hd))
        exact hwire _ c _ (fun hj => absurd hj hc) (by simp) (by simp)
          (hwire s m _ (by simp) (fun hm => absurd hm hi) (by simp) h)
  | relayOk m =>
    rcases step_relayOk s m with hs' | ⟨x, c, k, hr, ha, hs'⟩ <;> rw [hs']
    · exact h
    · by_cases hi : m = i
      · subst hi
        obtain ⟨rfl, -⟩ := h.calling x c k hr
        simpa [Nodes.wire, hij.symm] using h.answered hr ha
      · exact hwire s m _ (by simp) (by simp) (fun hm => absurd hm hi) h
  | sendAck m k =>
    rcases step_sendAck s m k with hs' | ⟨seq, c, -, hs'⟩ <;> rw [hs']
    · exact h
    · exact hwire _ c _ (by simp) (by simp) (by simp) (hwire s m _ (by simp) (by simp) (by simp) h)
  | ackOk m k =>
    rcases step_ackOk s m k with hs' | hs' <;> rw [hs']
    · exact h
    · exact hwire s m _ (by simp) (by simp) (by simp) h

end Handover

end ChainedBlockStorage.Chain
