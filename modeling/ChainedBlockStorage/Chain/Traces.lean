/-
What a node has on record, whoever it is linked to: its numbers fit in an int, and a node behind the head holds nothing
that was not delivered to it.

The results are about one node and its own steps, so they also hold where links change during a run.

- `step_numbers`: no number appears that the head has not handed out.
- `Known`: queue, hand, sent list and acks of a node behind the head, traced back to `RelayWrite` handlers that ran; all
  numbers up to `writeSeq` have been delivered.
- `step_delivered`, `step_written`, `step_writeSeq`: what only grows.
-/
import ChainedBlockStorage.Chain.Step

namespace ChainedBlockStorage.Chain

open Tables Positions

/-! ## Sequence numbers -/

/-- a number of this run that fits in an int -/
def Fits (start k : ℤ) : Prop := start < k ∧ toInt k = k

/-- the entry that has been popped and is not in the sent list yet -/
def Rwb.held : Rwb → Option Entry
  | .relay e | .calling e _ _ | .write e | .bump e | .send e => some e
  | _ => none

/-- the entry that has left the relay loop and is not in the sent list yet -/
def Rwb.unrecorded : Rwb → Option Entry
  | .write e | .bump e | .send e => some e
  | _ => none

structure Numbers (start : ℤ) (p : Path) : Prop where
  queue : ∀ e ∈ p.pendingQueue, Fits start e.seqNum
  held : ∀ e, p.rwb.held = some e → Fits start e.seqNum
  pushing : ∀ e ∈ p.pushing, Fits start e.seqNum
  relays : ∀ h ∈ p.relays, Fits start h.req.seqNum
  next : start < p.currentSeq

section Numbers

variable {start : ℤ} {n : Node}

/-- the thread moves on with an entry it had, or that was queued -/
theorem Numbers.moveOn {p : Path} (h : Numbers start p) (r : Rwb) (q : PendingQueue) (w : ℤ) (l : List Entry)
    (hq : ∀ e ∈ q, e ∈ p.pendingQueue) (hr : ∀ e, r.held = some e → p.rwb.held = some e ∨ e ∈ p.pendingQueue) :
    Numbers start { p with rwb := r, pendingQueue := q, writeSeq := w, written := l } :=
  { h with
    queue := fun e he => h.queue e (hq e he)
    held := fun e he => (hr e he).elim (h.held e) (h.queue e) }

theorem numbers_writeAct (h : Numbers start n.path) (a : WriteAct)
    (ht : ∀ k, a = .takeSeq k → toInt n.currentSeq = n.currentSeq) : Numbers start (n.writeAct a).path := by
  cases a with
  | addToLog request =>
    simp only [Node.writeAct]
    repeat' split
    all_goals exact ⟨h.queue, h.held, h.pushing, h.relays, h.next⟩
  | takeSeq k =>
    simp only [Node.writeAct]
    split
    · exact h
    · rename_i request _
      have hnext : start < n.currentSeq := h.next
      refine ⟨h.queue, h.held, fun e he => ?_, h.relays, by simp only [Node.path]; omega⟩
      rcases List.mem_append.1 he with he | he
      · exact h.pushing e he
      · rw [List.mem_singleton.1 he]
        exact ⟨hnext, ht k rfl⟩
  | pushEntry k =>
    have hsub : ∀ e ∈ n.pushing.eraseIdx k, Fits start e.seqNum := fun e he =>
      h.pushing e (List.mem_of_mem_eraseIdx he)
    simp only [Node.writeAct]
    split
    · exact h
    · rename_i entry hk
      split
      · exact ⟨h.queue, h.held, hsub, h.relays, h.next⟩
      · rename_i q hq
        refine ⟨fun e he => ?_, h.held, hsub, h.relays, h.next⟩
        rcases ((PendingQueue.pushEntry_eq_some hq).1 e).1 he with he | rfl
        · exact h.queue e he
        · exact h.pushing e (List.mem_of_getElem? hk)

theorem numbers_relayAct (h : Numbers start n.path) (k : ℕ) (a : RelayAct) : Numbers start (n.relayAct k a).path := by
  -- the handler keeps its request
  have hset : ∀ (request : RelayWriteRequest) (ph : RelayPhase) (f f' : Bool) (ph' : RelayPhase),
      n.relays[k]? = some ⟨request, ph, f⟩ → ∀ x ∈ n.relays.set k ⟨request, ph', f'⟩, Fits start x.req.seqNum := by
    intro request ph f f' ph' hk x hx
    rcases List.mem_or_eq_of_mem_set hx with hx | rfl
    · exact h.relays x hx
    · have hreq := h.relays ⟨request, ph, f⟩ (List.mem_of_getElem? hk)
      exact hreq
  cases a with
  | addToLog =>
    simp only [Node.relayAct]
    split
    · rename_i request f hk
      exact ⟨h.queue, h.held, h.pushing, hset request _ f _ _ hk, h.next⟩
    · exact h
  | pushEntry =>
    simp only [Node.relayAct]
    split
    · rename_i request f hk
      split
      · exact ⟨h.queue, h.held, h.pushing, hset request _ f _ _ hk, h.next⟩
      · rename_i q hq
        refine ⟨fun e he => ?_, h.held, h.pushing, hset request _ f _ _ hk, h.next⟩
        rcases ((PendingQueue.pushEntry_eq_some hq).1 e).1 he with he | rfl
        · exact h.queue e he
        · exact h.relays _ (List.mem_of_getElem? hk)
    · exact h
  | drop =>
    simp only [Node.relayAct]
    split
    · rename_i request f hk
      exact ⟨h.queue, h.held, h.pushing, hset request _ f _ _ hk, h.next⟩
    · exact h

theorem numbers_rwbAct (h : Numbers start n.path) (a : RwbAct) : Numbers start (n.rwbAct a).path := by
  cases a with
  | poll | spin =>
    simp only [Node.rwbAct]
    repeat' split
    all_goals first
      | exact h
      | exact h.moveOn _ n.pendingQueue n.writeSeq n.written (fun _ he => he) (by simp [Rwb.held])
  | pop =>
    simp only [Node.rwbAct]
    split
    · rename_i e q _ hp
      obtain ⟨he, -, hmem⟩ := PendingQueue.popEntry_eq_some hp
      refine h.moveOn (.relay e) q n.writeSeq n.written (fun x hx => ((hmem x).1 hx).1) fun x hx => Or.inr ?_
      cases hx
      exact he
    · exact h
  | leave | retry | write | bump | send =>
    simp only [Node.rwbAct]
    repeat' split
    all_goals first
      | exact h
      | exact h.moveOn _ n.pendingQueue _ _ (fun _ he => he) (by simp_all [Rwb.held, Node.path])

theorem numbers_act (h : Numbers start n.path) (a : Act)
    (ht : ∀ k, a = .write (.takeSeq k) → toInt n.currentSeq = n.currentSeq) : Numbers start (n.act a).path := by
  unfold Node.act
  split
  · exact h
  cases a with
  | write a => exact numbers_writeAct h a fun k hk => ht k (by rw [hk])
  | relay k a => exact numbers_relayAct h k a
  | rwb a => exact numbers_rwbAct h a
  | ack k a => simpa only [ackAct_path] using h
  | ackLogEntry r => exact h

theorem numbers_wire (h : Numbers start n.path) (w : Wire)
    (hw : ∀ q, w = .relayArrives q → Fits start q.seqNum) : Numbers start (n.wire w).path := by
  cases w with
  | relayArrives q =>
    refine ⟨h.queue, h.held, h.pushing, fun x hx => ?_, h.next⟩
    rcases List.mem_append.1 hx with hx | hx
    · exact h.relays x hx
    · rw [List.mem_singleton.1 hx]
      exact hw q rfl
  | relaySent j k | relayOk =>
    simp only [Node.wire]
    split
    · rename_i hr
      exact h.moveOn _ n.pendingQueue n.writeSeq n.written (fun _ he => he) (by simp_all [Rwb.held, Node.path])
    · exact h
  | ackSent k j m => simpa only [ackSent_path] using h
  | ackArrives seq => simpa only [ackArrives_path] using h
  | ackOk k => simpa only [ackOk_path] using h

/-- a step of the chain hands no number out that does not fit -/
theorem step_numbers {s : Nodes} (h : ∀ i, Numbers start (s i).path) (e : Event)
    (ht : ∀ i k, e = .act i (.write (.takeSeq k)) → toInt (s i).currentSeq = (s i).currentSeq) (j : ℕ) :
    Numbers start (step s e j).path := by
  refine step_node_calls (fun n => Numbers start n.path) s e j (h j) (fun a ha => ?_) fun n w hw _ hn => ?_
  · exact numbers_act (h j) a fun k hk => ht j k (by rw [ha, hk])
  · apply numbers_wire hn w
    intro q hq
    obtain ⟨i, x, hx, rfl⟩ := hw q hq
    obtain ⟨hr, -, -⟩ := relayTarget_eq_some hx
    exact (h i).held x (by simp [Node.path, hr, Rwb.held])

end Numbers

/-! ## What a node holds was delivered to it -/

section Delivered

variable {start : ℤ} {n : Node} {k : ℤ}

theorem delivered_iff : n.delivered k = true ↔ ∃ h ∈ n.relays, h.phase.ran = true ∧ h.req.seqNum = k := by
  simp [Node.delivered]

/-- a handler that has run stays so -/
theorem delivered_set {l : List RelayHandler} {i : ℕ} {x y : RelayHandler} (hx : l[i]? = some x) (hreq : y.req = x.req)
    (hran : x.phase.ran = true → y.phase.ran = true) (hd : ∃ h ∈ l, h.phase.ran = true ∧ h.req.seqNum = k) :
    ∃ h ∈ l.set i y, h.phase.ran = true ∧ h.req.seqNum = k := by
  obtain ⟨h, hm, hr, hk⟩ := hd
  rcases mem_set_or_eq hx y hm with hm | rfl
  · exact ⟨h, hm, hr, hk⟩
  · exact ⟨y, mem_set_self hx y, hran hr, by rw [hreq, hk]⟩

theorem delivered_relayAct (i : ℕ) (a : RelayAct) (hd : n.delivered k) : (n.relayAct i a).delivered k := by
  rw [delivered_iff] at hd ⊢
  cases a with
  | addToLog =>
    simp only [Node.relayAct]
    split
    · rename_i request f hk
      exact delivered_set hk rfl (by simp [RelayPhase.ran]) hd
    · exact hd
  | pushEntry =>
    simp only [Node.relayAct]
    split
    · rename_i request f hk
      split
      · exact delivered_set hk rfl (by simp [RelayPhase.ran]) hd
      · exact delivered_set hk rfl (by simp [RelayPhase.ran]) hd
    · exact hd
  | drop =>
    simp only [Node.relayAct]
    split
    · rename_i request f hk
      exact delivered_set hk rfl (by simp [RelayPhase.ran]) hd
    · exact hd

theorem delivered_act (a : Act) (hd : n.delivered k) : (n.act a).delivered k := by
  by_cases ha : ∃ i b, a = .relay i b
  · obtain ⟨i, b, rfl⟩ := ha
    unfold Node.act
    split
    · exact hd
    · exact delivered_relayAct i b hd
  · rwa [Node.delivered, act_relays n a fun i b hb => ha ⟨i, b, hb⟩]

theorem delivered_wire (w : Wire) (hd : n.delivered k) : (n.wire w).delivered k := by
  cases w with
  | relayArrives q =>
    rw [delivered_iff] at hd ⊢
    obtain ⟨h, hm, hh⟩ := hd
    exact ⟨h, List.mem_append_left _ hm, hh⟩
  | relaySent j i => rwa [Node.delivered, wire_relays n (.relaySent j i) (by simp)]
  | relayOk => rwa [Node.delivered, wire_relays n .relayOk (by simp)]
  | ackSent i j m => rwa [Node.delivered, wire_relays n (.ackSent i j m) (by simp)]
  | ackArrives seq => exact hd
  | ackOk i => rwa [Node.delivered, wire_relays n (.ackOk i) (by simp)]

theorem step_delivered (s : Nodes) (e : Event) (j : ℕ) (hd : (s j).delivered k) : (step s e j).delivered k :=
  step_node_inv (fun n => n.delivered k = true) s e j hd (fun _ _ => delivered_act _ hd) fun _ w => delivered_wire w

end Delivered

/-- a thread has popped its entry and not yet reported it -/
def AckPhase.hasPopped : AckPhase → Bool
  | .popped _ | .stored _ | .logged | .relaying | .calling _ _ => true
  | _ => false

/-- nothing is at a node behind the head that was not delivered to it -/
structure Known (start : ℤ) (n : Node) : Prop where
  quiet : n.headService = false ∧ n.adding = [] ∧ n.pushing = []
  queue : ∀ e ∈ n.pendingQueue, n.delivered e.seqNum
  held : ∀ e, n.rwb.held = some e → n.delivered e.seqNum
  next : n.rwb = .pop ∨ n.rwb.inHand.isSome → n.delivered (n.writeSeq + 1)
  upTo : ∀ k, start < k → k ≤ n.writeSeq → n.delivered k
  sent : ∀ x ∈ n.sentList, n.delivered x.1
  popped : ∀ t ∈ n.acks, t.phase.hasPopped = true → n.delivered (toInt t.seq)

section Known

variable {start : ℤ} {n : Node}

theorem Known.writeAct (h : Known start n) (a : WriteAct) : n.writeAct a = n :=
  writeAct_quiet h.quiet.1 h.quiet.2.1 h.quiet.2.2 a

theorem Known.relayAct (h : Known start n) (k : ℕ) (a : RelayAct) : Known start (n.relayAct k a) := by
  have hd : ∀ {x}, n.delivered x → (n.relayAct k a).delivered x := delivered_relayAct k a
  have hsame : (n.relayAct k a).headService = n.headService ∧ (n.relayAct k a).adding = n.adding ∧
      (n.relayAct k a).pushing = n.pushing ∧ (n.relayAct k a).rwb = n.rwb ∧ (n.relayAct k a).writeSeq = n.writeSeq ∧
      (n.relayAct k a).sentList = n.sentList ∧ (n.relayAct k a).acks = n.acks := by
    cases a <;> simp only [Node.relayAct] <;> repeat' split
    all_goals exact ⟨rfl, rfl, rfl, rfl, rfl, rfl, rfl⟩
  obtain ⟨e1, e2, e3, e4, e5, e6, e7⟩ := hsame
  refine ⟨by rw [e1, e2, e3]; exact h.quiet, ?_, fun e he => hd (h.held e (by rwa [e4] at he)), ?_, ?_, ?_, ?_⟩
  · -- a new entry comes from the handler that pushes it
    have hq : ∀ e ∈ (n.relayAct k a).pendingQueue, e ∈ n.pendingQueue ∨ (n.relayAct k a).delivered e.seqNum := by
      intro e he
      cases a with
      | addToLog | drop =>
        left
        simp only [Node.relayAct] at he
        split at he <;> exact he
      | pushEntry =>
        simp only [Node.relayAct] at he ⊢
        split at he
        · rename_i request f hk
          cases hp : n.pendingQueue.pushEntry request.entry with
          | none =>
            simp only [hp] at he
            exact Or.inl he
          | some q =>
            simp only [hp] at he ⊢
            rcases ((PendingQueue.pushEntry_eq_some hp).1 e).1 he with he | rfl
            · exact Or.inl he
            · right
              rw [delivered_iff]
              have hi := (List.getElem?_eq_some_iff.1 hk).1
              exact ⟨⟨request, .pushed, f⟩, List.mem_of_getElem? (i := k) (by simp [hi]), rfl, rfl⟩
        · exact Or.inl he
    exact fun e he => (hq e he).elim (fun he => hd (h.queue e he)) id
  · rw [e4, e5]
    exact fun hr => hd (h.next hr)
  · rw [e5]
    exact fun x h1 h2 => hd (h.upTo x h1 h2)
  · rw [e6]
    exact fun x hx => hd (h.sent x hx)
  · rw [e7]
    exact fun t ht hp => hd (h.popped t ht hp)

/-- the thread moves on with its entry, or without one -/
theorem Known.moveOn (h : Known start n) (r : Rwb) (l : List Entry) (hr : r.held = n.rwb.held ∨ r.held = none)
    (hp : r ≠ .pop) (hi : r.inHand.isSome → n.rwb.inHand.isSome) : Known start { n with rwb := r, written := l } where
  quiet := h.quiet
  queue := h.queue
  held e he := by
    rcases hr with hr | hr
    · exact h.held e (hr ▸ he)
    · rw [show r.held = none from hr] at he
      cases he
  next hr' := h.next (hr'.elim (fun he => absurd he hp) fun he => Or.inr (hi he))
  upTo := h.upTo
  sent := h.sent
  popped := h.popped

theorem Known.rwbAct (h : Known start n) (hn : Numbers start n.path) (a : RwbAct) : Known start (n.rwbAct a) := by
  cases a with
  | poll =>
    simp only [Node.rwbAct]
    split
    · exact ⟨h.quiet, h.queue, by simp [Rwb.held], by simp [Rwb.inHand], h.upTo, h.sent, h.popped⟩
    · exact h
  | spin =>
    simp only [Node.rwbAct]
    split
    · rename_i e _ hp
      split_ifs with he
      · have hd := h.queue e (PendingQueue.peekEntry_eq_some hp).1
        rw [he] at hd
        exact ⟨h.quiet, h.queue, by simp [Rwb.held], fun _ => hd, h.upTo, h.sent, h.popped⟩
      · exact h
    · exact h
  | pop =>
    simp only [Node.rwbAct]
    split
    · rename_i e q hr hp
      obtain ⟨he, -, hmem⟩ := PendingQueue.popEntry_eq_some hp
      refine ⟨h.quiet, fun x hx => h.queue x ((hmem x).1 hx).1, fun x hx => ?_, fun _ => h.next (Or.inl hr), h.upTo,
        h.sent, h.popped⟩
      cases hx
      exact h.queue e he
    · exact h
  | leave | retry | write =>
    simp only [Node.rwbAct]
    repeat' split
    all_goals first
      | exact h
      | exact h.moveOn _ _ (by simp_all [Rwb.held]) (by simp) (by simp_all [Rwb.inHand])
  | bump =>
    simp only [Node.rwbAct]
    split
    · rename_i e hr
      have hnext := h.next (Or.inr (by simp [hr, Rwb.inHand]))
      refine ⟨h.quiet, h.queue, fun x hx => h.held x (by rw [hr]; exact hx), by simp [Rwb.inHand], fun k h1 h2 => ?_,
        h.sent, h.popped⟩
      rcases Int.lt_or_eq_of_le h2 with h2 | rfl
      · exact h.upTo k h1 (Int.lt_add_one_iff.1 h2)
      · exact hnext
    · exact h
  | send =>
    simp only [Node.rwbAct]
    split
    · rename_i e hr
      split
      · exact ⟨h.quiet, h.queue, by simp [Rwb.held], by simp [Rwb.inHand], h.upTo, h.sent, h.popped⟩
      · rename_i l hl
        refine ⟨h.quiet, h.queue, by simp [Rwb.held], by simp [Rwb.inHand], h.upTo, fun x hx => ?_, h.popped⟩
        have hfit : Fits start e.seqNum := hn.held e (by simp [Node.path, hr, Rwb.held])
        rcases (SentList.pushEntry_eq_some hl x).1 hx with hx | rfl
        · exact h.sent x hx
        · simp only [hfit.2]
          exact h.held e (by simp [hr, Rwb.held])
    · exact h

theorem Known.setAck (h : Known start n) (k : ℕ) (t : AckThread)
    (ht : t.phase.hasPopped = true → n.delivered (toInt t.seq)) : Known start (n.setAck k t) :=
  { h with
    popped := fun x hx hp => by
      rcases List.mem_or_eq_of_mem_set hx with hx | rfl
      · exact h.popped x hx hp
      · exact ht hp }

theorem Known.ackAct (h : Known start n) (k : ℕ) (a : AckAct) : Known start (n.ackAct k a) := by
  have hstep := ackAct_step n k a
  generalize n.ackAct k a = x at hstep ⊢
  cases hstep with
  | stay => exact h
  | takeUp hk | retire hk | turn hk => exact h.setAck k _ (by simp [AckPhase.hasPopped])
  | @refuse b _ hk | @leave b _ hk =>
    apply h.setAck k _
    cases b <;> simp [AckPhase.hasPopped]
  | @pop b q e l hk hsome =>
    obtain ⟨hmem, hl⟩ := SentList.popEntry_eq_some hsome
    have hs := h.setAck k ⟨b, q, .popped e⟩ fun _ => h.sent _ hmem
    exact { hs with sent := fun x hx => h.sent x ((hl x).1 hx).1 }
  | @commit b q e hk =>
    have ht := h.popped _ (List.mem_of_getElem? hk) rfl
    have hs := h.setAck k ⟨b, q, .stored e⟩ fun _ => ht
    exact { hs with }
  | @log b q e hk =>
    have ht := h.popped _ (List.mem_of_getElem? hk) rfl
    have hs := h.setAck k ⟨b, q, .logged⟩ fun _ => ht
    exact { hs with }
  | @bump b q hk =>
    have ht := h.popped _ (List.mem_of_getElem? hk) rfl
    have hs := h.setAck k ⟨b, q, .relaying⟩ fun _ => ht
    exact { hs with }
  | retry hk =>
    have ht := h.popped _ (List.mem_of_getElem? hk) rfl
    exact h.setAck k _ fun _ => ht

theorem Known.act (h : Known start n) (hn : Numbers start n.path) (a : Act) : Known start (n.act a) := by
  unfold Node.act
  split
  · exact h
  cases a with
  | write a =>
    change Known start (n.writeAct a)
    rwa [h.writeAct]
  | relay k a => exact h.relayAct k a
  | rwb a => exact h.rwbAct hn a
  | ack k a => exact h.ackAct k a
  | ackLogEntry r => exact { h with }

theorem Known.wire (h : Known start n) (w : Wire) : Known start (n.wire w) := by
  cases w with
  | relayArrives q =>
    have hd : ∀ {x}, n.delivered x → (n.wire (.relayArrives q)).delivered x := delivered_wire _
    exact ⟨h.quiet, fun e he => hd (h.queue e he), fun e he => hd (h.held e he), fun hr => hd (h.next hr),
      fun k h1 h2 => hd (h.upTo k h1 h2), fun x hx => hd (h.sent x hx), fun t ht hp => hd (h.popped t ht hp)⟩
  | relaySent _ _ | relayOk =>
    simp only [Node.wire]
    split
    · exact h.moveOn _ _ (by simp_all [Rwb.held]) (by simp) (by simp_all [Rwb.inHand])
    · exact h
  | ackArrives seq =>
    refine { h with popped := fun t ht hp => ?_ }
    rcases List.mem_append.1 ht with ht | ht
    · exact h.popped t ht hp
    · rw [List.mem_singleton.1 ht] at hp
      cases hp
  | ackSent k j m =>
    simp only [Node.wire]
    split
    · rename_i b seq hk
      have ht := h.popped _ (List.mem_of_getElem? hk) rfl
      exact h.setAck k _ fun _ => ht
    · exact h
  | ackOk k =>
    simp only [Node.wire]
    split
    · apply h.setAck k _
      unfold AckThread.finish
      dsimp only
      split <;> simp [AckPhase.hasPopped]
    · exact h

end Known

/-! ## What only grows -/

theorem act_written (n : Node) (a : Act) : ∃ l, (n.act a).written = n.written ++ l := by
  by_cases ha : ∃ b, a = .rwb b
  · obtain ⟨b, rfl⟩ := ha
    unfold Node.act
    split
    · exact ⟨[], (List.append_nil _).symm⟩
    · cases b <;> simp only [Node.rwbAct] <;> repeat' split
      all_goals first
        | exact ⟨_, rfl⟩
        | exact ⟨[], (List.append_nil _).symm⟩
  · obtain ⟨-, -, hw⟩ := act_progress n a fun b hb => ha ⟨b, hb⟩
    exact ⟨[], by rw [hw, List.append_nil]⟩

theorem wire_written (n : Node) (w : Wire) : (n.wire w).written = n.written := by
  cases w <;> simp only [Node.wire] <;> repeat' split
  all_goals rfl

/-- what is written stays -/
theorem step_written (s : Nodes) (e : Event) (j : ℕ) {k : ℤ} (h : k ∈ (s j).written.map Entry.seqNum) :
    k ∈ (step s e j).written.map Entry.seqNum := by
  refine step_node_inv (fun n => k ∈ n.written.map Entry.seqNum) s e j h (fun a _ => ?_) fun n w hn => ?_
  · obtain ⟨l, hl⟩ := act_written (s j) a
    rw [hl, List.map_append]
    exact List.mem_append_left _ h
  · rwa [wire_written]

theorem act_writeSeq (n : Node) (a : Act) : n.writeSeq ≤ (n.act a).writeSeq := by
  by_cases ha : ∃ b, a = .rwb b
  · obtain ⟨b, rfl⟩ := ha
    unfold Node.act
    split
    · exact le_rfl
    · cases b <;> simp only [Node.rwbAct] <;> repeat' split
      all_goals first
        | exact le_rfl
        | exact Int.le_add_one le_rfl
  · obtain ⟨-, hw, -⟩ := act_progress n a fun b hb => ha ⟨b, hb⟩
    exact hw.ge

theorem wire_writeSeq (n : Node) (w : Wire) : (n.wire w).writeSeq = n.writeSeq := by
  cases w <;> simp only [Node.wire] <;> repeat' split
  all_goals rfl

theorem step_writeSeq (s : Nodes) (e : Event) (j : ℕ) : (s j).writeSeq ≤ (step s e j).writeSeq :=
  step_node_inv (fun n => (s j).writeSeq ≤ n.writeSeq) s e j le_rfl (fun a _ => act_writeSeq (s j) a)
    fun n w hn => by rwa [wire_writeSeq]

end ChainedBlockStorage.Chain
