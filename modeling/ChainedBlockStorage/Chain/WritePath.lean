/-
The write path of a stable chain: from `currentSeq++` at the head to `Storage::write` at every node.

Let the top of a node be the number in the hand of `relay_write_background`, or else `writeSeq`. The invariant `OnPath`:
- at the head, numbers are consecutive, and what is not yet popped is above the top;
- at every node, the entry in hand is number `writeSeq + 1`, and `written` is as much of the head's list as
  `writeSeq` says;
- at neighbours, whatever the downstream node has queued or popped is at or below the top of the upstream node, and a
  `RelayWrite` handler that is still running carries the entry the upstream node is relaying.

- `onPath_step`: `OnPath` holds after every step in which a relay is repeated only when its earlier handlers
  are finished.
-/
import ChainedBlockStorage.Chain.Step

namespace ChainedBlockStorage.Chain

open Tables Positions

/-! ## The invariant -/

/-- the number in hand, or else `writeSeq` -/
def Path.top (p : Path) : ℤ :=
  match p.rwb.inHand with
  | some e => e.seqNum
  | none => p.writeSeq

/-- the number of the last entry in `written` -/
def Path.writtenSeq (p : Path) : ℤ :=
  match p.rwb with
  | .bump _ => p.writeSeq + 1
  | _ => p.writeSeq

/-- entry `k` has the number `start + 1 + k` -/
def Consecutive (start : ℤ) (l : List Entry) : Prop := ∀ (k : ℕ) (e : Entry), l[k]? = some e → e.seqNum = start + 1 + k

theorem Consecutive.append {start : ℤ} {l : List Entry} (h : Consecutive start l) (e : Entry)
    (he : e.seqNum = start + 1 + l.length) : Consecutive start (l ++ [e]) := by
  intro k x hx
  rcases getElem?_of_concat hx with hx | ⟨rfl, rfl⟩
  · exact h k x hx
  · exact he

/-- an entry is the one at its number -/
theorem Consecutive.getElem? {start : ℤ} {l : List Entry} (h : Consecutive start l) {e : Entry} (he : e ∈ l) {k : ℕ}
    (hk : e.seqNum = start + 1 + k) : l[k]? = some e := by
  obtain ⟨m, hm⟩ := List.mem_iff_getElem?.1 he
  have : k = m := by have := h m e hm; omega
  rw [this, hm]

/-- what holds at every node of the chain whose head has numbered `N` -/
structure PathInv (start : ℤ) (N : List Entry) (p : Path) : Prop where
  queue : ∀ x ∈ p.pendingQueue, x ∈ N
  hand : ∀ e, p.rwb.inHand = some e → e ∈ N ∧ e.seqNum = p.writeSeq + 1
  send : ∀ e, p.rwb = .send e → e.seqNum = p.writeSeq
  pop : p.rwb = .pop → (∃ x ∈ p.pendingQueue, x.seqNum = p.writeSeq + 1) ∧
    ∀ x ∈ p.pendingQueue, p.writeSeq + 1 ≤ x.seqNum
  lower : start ≤ p.writeSeq
  upper : p.writtenSeq ≤ start + N.length
  written : p.written = N.take (p.writtenSeq - start).toNat

/-- what holds at the head -/
structure HeadInv (start : ℤ) (p : Path) : Prop where
  numbering : Consecutive start p.numbered
  next : p.currentSeq = start + 1 + p.numbered.length
  pushing : ∀ e ∈ p.pushing, e ∈ p.numbered ∧ p.top < e.seqNum ∧ ∀ x ∈ p.pendingQueue, x.seqNum ≠ e.seqNum
  distinct : p.pushing.Pairwise fun a b => a.seqNum ≠ b.seqNum
  queue : ∀ x ∈ p.pendingQueue, p.top < x.seqNum
  relays : p.relays = []

/-- what holds between a node and the next one downstream, which is node `j` -/
structure LinkInv (j : ℕ) (u d : Path) : Prop where
  queue : ∀ x ∈ d.pendingQueue, x.seqNum ≤ u.top
  top : d.top ≤ u.top
  running : ∀ (m : ℕ) (h : RelayHandler), d.relays[m]? = some h → h.phase.finished = false →
    ∃ e, u.rwb.relaying = some e ∧ h.req = relayRequest e
  calling : ∀ e c k, u.rwb = .calling e c k →
    c = j ∧ ∀ (m : ℕ) (h : RelayHandler), d.relays[m]? = some h → h.phase.finished = false → m = k

structure OnPath (n start : ℕ) (log : ReplayLog) (s : Nodes) : Prop where
  conf : ∀ i, (s i).conf = (stable n start log i).conf
  head : HeadInv start (s 0).path
  quiet : ∀ i, i ≠ 0 → (s i).adding = [] ∧ (s i).pushing = []
  node : ∀ i < n, PathInv start (s 0).numbered (s i).path
  link : ∀ i, i + 1 < n → LinkInv (i + 1) (s i).path (s (i + 1)).path

/-! ## Steps of one node -/

theorem pairwise_ne_of_getElem? {α β : Type} {f : α → β} {l : List α} (h : l.Pairwise fun a b => f a ≠ f b) {i j : ℕ}
    {a b : α} (ha : l[i]? = some a) (hb : l[j]? = some b) (hij : i ≠ j) : f a ≠ f b := by
  obtain ⟨hi, rfl⟩ := List.getElem?_eq_some_iff.1 ha
  obtain ⟨hj, rfl⟩ := List.getElem?_eq_some_iff.1 hb
  rcases Nat.lt_or_gt_of_ne hij with h' | h'
  · exact List.pairwise_iff_getElem.1 h i j hi hj h'
  · exact (List.pairwise_iff_getElem.1 h j i hj hi h').symm

section Node

variable {start : ℤ} {N : List Entry} {p : Path}

theorem PathInv.append (h : PathInv start N p) (e : Entry) : PathInv start (N ++ [e]) p where
  queue x hx := List.mem_append_left _ (h.queue x hx)
  hand x hx := ⟨List.mem_append_left _ (h.hand x hx).1, (h.hand x hx).2⟩
  send := h.send
  pop := h.pop
  lower := h.lower
  upper := by have := h.upper; simp only [List.length_append, List.length_singleton]; push_cast; omega
  written := by
    have hle : (p.writtenSeq - start).toNat ≤ N.length := by have := h.upper; omega
    rw [h.written, List.take_append_of_le_length hle]

/-- a push of an entry of the head's list, not below the number the thread is about to pop -/
theorem PathInv.push (h : PathInv start N p) {e : Entry} {q : PendingQueue}
    (hq : p.pendingQueue.pushEntry e = some q) (he : e ∈ N) (hp : p.rwb = .pop → p.writeSeq + 1 ≤ e.seqNum) :
    PathInv start N { p with pendingQueue := q } := by
  have hmem := (PendingQueue.pushEntry_eq_some hq).1
  refine { h with queue := ?_, pop := ?_ }
  · intro x hx
    rcases (hmem x).1 hx with hx | rfl
    · exact h.queue x hx
    · exact he
  · intro hrwb
    obtain ⟨⟨y, hy, hyw⟩, hall⟩ := h.pop hrwb
    refine ⟨⟨y, (hmem y).2 (Or.inl hy), hyw⟩, ?_⟩
    intro x hx
    rcases (hmem x).1 hx with hx | rfl
    · exact hall x hx
    · exact hp hrwb

/-- the top is `writeSeq`, or one more while an entry is in hand -/
theorem PathInv.writeSeq_le_top (h : PathInv start N p) : p.writeSeq ≤ p.top ∧ p.top ≤ p.writeSeq + 1 := by
  unfold Path.top
  split
  · rename_i e he
    have := (h.hand e he).2
    omega
  · omega

theorem Path.writtenSeq_of_not_bump (h : ∀ e, p.rwb ≠ .bump e) : p.writtenSeq = p.writeSeq := by
  unfold Path.writtenSeq
  split
  · rename_i e he; exact absurd he (h e)
  · rfl

/-- the thread moves on without writing -/
theorem PathInv.moveOn (h : PathInv start N p) (r : Rwb) {q : PendingQueue} (hq : ∀ x ∈ q, x ∈ p.pendingQueue)
    (hb : ∀ e, p.rwb ≠ .bump e) (hr : ∀ e, r ≠ .bump e) (hs : ∀ e, r ≠ .send e)
    (hand : ∀ e, r.inHand = some e → e ∈ N ∧ e.seqNum = p.writeSeq + 1)
    (pop : r = .pop → (∃ x ∈ q, x.seqNum = p.writeSeq + 1) ∧ ∀ x ∈ q, p.writeSeq + 1 ≤ x.seqNum) :
    PathInv start N { p with rwb := r, pendingQueue := q } := by
  have hw : ({ p with rwb := r, pendingQueue := q } : Path).writtenSeq = p.writtenSeq := by
    rw [Path.writtenSeq_of_not_bump hb, Path.writtenSeq_of_not_bump hr]
  exact {
    queue := fun x hx => h.queue x (hq x hx)
    hand := hand
    send := fun e he => absurd he (hs e)
    pop := pop
    lower := h.lower
    upper := by rw [hw]; exact h.upper
    written := by rw [hw]; exact h.written }

/-- the thread writes the entry that it has in hand, the next one of the head's list -/
theorem PathInv.write (h : PathInv start N p) (hN : Consecutive start N) {e : Entry} (hr : p.rwb = .write e) :
    PathInv start N
      { p with rwb := .bump e, written := p.written ++ [{ e with data := Data.ofString e.data.val }] } := by
  obtain ⟨heN, hseq⟩ := h.hand e (by simp [hr, Rwb.inHand])
  have hlow := h.lower
  have hw : p.writtenSeq = p.writeSeq := Path.writtenSeq_of_not_bump (by simp [hr])
  have hget : N[(p.writeSeq - start).toNat]? = some e := hN.getElem? heN (by omega)
  have hlt := (List.getElem?_eq_some_iff.1 hget).1
  have hk : (p.writeSeq + 1 - start).toNat = (p.writeSeq - start).toNat + 1 := by omega
  exact {
    queue := h.queue
    hand := by rintro x ⟨⟩; exact ⟨heN, hseq⟩
    send := by rintro x ⟨⟩
    pop := by rintro ⟨⟩
    lower := hlow
    upper := by
      show p.writeSeq + 1 ≤ start + N.length
      omega
    written := by
      calc p.written ++ [{ e with data := Data.ofString e.data.val }]
          = N.take (p.writeSeq - start).toNat ++ [e] := by rw [h.written, hw, ofString_val]
        _ = N.take (p.writeSeq + 1 - start).toNat := by rw [hk, List.take_add_one, hget]; rfl }

/-- `writeSeq` takes in what was written -/
theorem PathInv.bump (h : PathInv start N p) {e : Entry} (hr : p.rwb = .bump e) :
    PathInv start N { p with rwb := .send e, writeSeq := p.writeSeq + 1 } := by
  have hw : p.writtenSeq = p.writeSeq + 1 := by simp [Path.writtenSeq, hr]
  have hup := h.upper
  have hwr := h.written
  rw [hw] at hup hwr
  exact {
    queue := h.queue
    hand := by rintro x ⟨⟩
    send := by rintro x ⟨⟩; exact (h.hand e (by simp [hr, Rwb.inHand])).2
    pop := by rintro ⟨⟩
    lower := le_trans h.lower (by show p.writeSeq ≤ p.writeSeq + 1; omega)
    upper := hup
    written := hwr }

/-- `relay_write_background` keeps the invariant of its node -/
theorem rwbAct_pathInv (n : Node) (a : RwbAct) (hN : Consecutive start N) (h : PathInv start N n.path) :
    PathInv start N (n.rwbAct a).path := by
  cases a with
  | poll =>
    simp only [Node.rwbAct]
    split
    · rename_i hr _
      exact h.moveOn .spin (fun _ hx => hx) (by simp [Node.path, hr]) (by simp) (by simp) (by simp [Rwb.inHand]) (by simp)
    · exact h
  | spin =>
    simp only [Node.rwbAct]
    split
    · rename_i e hr hp
      split_ifs with he
      · obtain ⟨hq, hmin⟩ := PendingQueue.peekEntry_eq_some hp
        apply h.moveOn .pop (fun _ hx => hx) (by simp [Node.path, hr]) (by simp) (by simp) (by simp [Rwb.inHand])
        exact fun _ => ⟨⟨e, hq, he⟩, fun x hx => he ▸ hmin x hx⟩
      · exact h
    · exact h
  | pop =>
    simp only [Node.rwbAct]
    split
    · rename_i e q hr hp
      obtain ⟨he, hmin, hmem⟩ := PendingQueue.popEntry_eq_some hp
      obtain ⟨⟨y, hy, hyw⟩, hall⟩ := h.pop hr
      have hseq : e.seqNum = n.writeSeq + 1 := le_antisymm (hyw ▸ hmin y hy) (hall e he)
      refine h.moveOn (.relay e) (fun x hx => ((hmem x).1 hx).1) (by simp [Node.path, hr]) (by simp) (by simp) ?_ (by simp)
      rintro x ⟨⟩
      exact ⟨h.queue e he, hseq⟩
    · exact h
  | leave =>
    simp only [Node.rwbAct]
    split
    · rename_i e hr
      split_ifs
      · exact h
      · refine h.moveOn (.write e) (fun _ hx => hx) (by simp [Node.path, hr]) (by simp) (by simp) ?_ (by simp)
        rintro x ⟨⟩
        exact h.hand e (by simp [Node.path, hr, Rwb.inHand])
    · exact h
  | retry =>
    simp only [Node.rwbAct]
    split
    · rename_i e j k hr
      refine h.moveOn (.relay e) (fun _ hx => hx) (by simp [Node.path, hr]) (by simp) (by simp) ?_ (by simp)
      rintro x ⟨⟩
      exact h.hand e (by simp [Node.path, hr, Rwb.inHand])
    · exact h
  | write =>
    simp only [Node.rwbAct]
    split
    · rename_i hr
      exact h.write hN hr
    · exact h
  | bump =>
    simp only [Node.rwbAct]
    split
    · rename_i hr
      exact h.bump hr
    · exact h
  | send =>
    simp only [Node.rwbAct]
    split
    · rename_i e hr
      split
      · exact h.moveOn .dead (fun _ hx => hx) (by simp [Node.path, hr]) (by simp) (by simp) (by simp [Rwb.inHand]) (by simp)
      · exact h.moveOn .poll (fun _ hx => hx) (by simp [Node.path, hr]) (by simp) (by simp) (by simp [Rwb.inHand]) (by simp)
    · exact h

/-- what a step of `relay_write_background` changes for the other threads and the neighbours -/
structure RwbMove (p p' : Path) : Prop where
  same : p'.currentSeq = p.currentSeq ∧ p'.relays = p.relays ∧ p'.adding = p.adding ∧ p'.pushing = p.pushing ∧
    p'.numbered = p.numbered
  /-- only the pop changes the queue, and it raises the top by one -/
  queue : (p'.pendingQueue = p.pendingQueue ∧ p'.top = p.top) ∨
    ∃ e ∈ p.pendingQueue, p'.top = e.seqNum ∧ e.seqNum = p.top + 1 ∧
      (∀ x ∈ p.pendingQueue, e.seqNum ≤ x.seqNum) ∧
      ∀ x, x ∈ p'.pendingQueue ↔ x ∈ p.pendingQueue ∧ x.seqNum ≠ e.seqNum

theorem RwbMove.refl (p : Path) : RwbMove p p := ⟨⟨rfl, rfl, rfl, rfl, rfl⟩, Or.inl ⟨rfl, rfl⟩⟩

theorem RwbMove.top_le {p p' : Path} (h : RwbMove p p') : p.top ≤ p'.top := by
  rcases h.queue with ⟨-, ht⟩ | ⟨e, -, ht, hseq, -⟩ <;> omega

/-- a step that does not pop -/
theorem RwbMove.moveOn (r : Rwb) (w : ℤ) (l : List Entry)
    (ht : ({ p with rwb := r, writeSeq := w } : Path).top = p.top) :
    RwbMove p { p with rwb := r, writeSeq := w, written := l } :=
  ⟨⟨rfl, rfl, rfl, rfl, rfl⟩, Or.inl ⟨rfl, ht⟩⟩

theorem rwbAct_move (n : Node) (a : RwbAct) (h : PathInv start N n.path) : RwbMove n.path (n.rwbAct a).path := by
  have hrefl := RwbMove.refl n.path
  cases a with
  | poll =>
    simp only [Node.rwbAct]
    split
    · rename_i hr _
      exact RwbMove.moveOn .spin _ _ (by simp [Path.top, Node.path, hr, Rwb.inHand])
    · exact hrefl
  | spin =>
    simp only [Node.rwbAct]
    split
    · rename_i hr _
      split_ifs
      · exact RwbMove.moveOn .pop _ _ (by simp [Path.top, Node.path, hr, Rwb.inHand])
      · exact hrefl
    · exact hrefl
  | pop =>
    simp only [Node.rwbAct]
    split
    · rename_i e q hr hp
      obtain ⟨he, hmin, hmem⟩ := PendingQueue.popEntry_eq_some hp
      obtain ⟨⟨y, hy, hyw⟩, hall⟩ := h.pop hr
      have hseq : e.seqNum = n.writeSeq + 1 := le_antisymm (hyw ▸ hmin y hy) (hall e he)
      have htop : n.path.top = n.writeSeq := by simp [Path.top, Node.path, hr, Rwb.inHand]
      exact ⟨⟨rfl, rfl, rfl, rfl, rfl⟩, Or.inr ⟨e, he, rfl, by rw [htop, hseq], hmin, hmem⟩⟩
    · exact hrefl
  | leave =>
    simp only [Node.rwbAct]
    split
    · rename_i e hr
      split_ifs
      · exact hrefl
      · exact RwbMove.moveOn (.write e) _ _ (by simp [Path.top, Node.path, hr, Rwb.inHand])
    · exact hrefl
  | retry =>
    simp only [Node.rwbAct]
    split
    · rename_i e j k hr
      exact RwbMove.moveOn (.relay e) _ _ (by simp [Path.top, Node.path, hr, Rwb.inHand])
    · exact hrefl
  | write =>
    simp only [Node.rwbAct]
    split
    · rename_i e hr
      exact RwbMove.moveOn (.bump e) _ _ (by simp [Path.top, Node.path, hr, Rwb.inHand])
    · exact hrefl
  | bump =>
    simp only [Node.rwbAct]
    split
    · rename_i e hr
      have hr' : n.path.rwb = .bump e := hr
      have hseq : e.seqNum = n.writeSeq + 1 := (h.hand e (by simp [hr', Rwb.inHand])).2
      exact RwbMove.moveOn (.send e) _ _ (by simp [Path.top, hr', Rwb.inHand, hseq])
    · exact hrefl
  | send =>
    simp only [Node.rwbAct]
    split
    · rename_i e hr
      split
      · exact RwbMove.moveOn .dead _ _ (by simp [Path.top, Node.path, hr, Rwb.inHand])
      · exact RwbMove.moveOn .poll _ _ (by simp [Path.top, Node.path, hr, Rwb.inHand])
    · exact hrefl

/-- while the node has a downstream node to relay to, only an answer ends the relay of an entry -/
theorem rwbAct_relaying (n : Node) (a : RwbAct) (hs : n.state.relays = true) :
    (n.rwb.relaying = none ∨ (n.rwbAct a).rwb.relaying = n.rwb.relaying) ∧
      ∀ e c k, (n.rwbAct a).rwb = .calling e c k → n.rwb = .calling e c k := by
  cases a <;> simp only [Node.rwbAct] <;> repeat' split
  all_goals simp_all [Rwb.relaying]

/-- the thread keeps the invariant of the head -/
theorem HeadInv.move {p' : Path} (h : HeadInv start p) (hm : RwbMove p p') : HeadInv start p' := by
  obtain ⟨⟨h1, h2, -, h4, h5⟩, hq⟩ := hm
  have hkeep : (∀ e ∈ p.pushing, p'.top < e.seqNum ∧ ∀ x ∈ p'.pendingQueue, x.seqNum ≠ e.seqNum) ∧
      ∀ x ∈ p'.pendingQueue, p'.top < x.seqNum := by
    rcases hq with ⟨hq, ht⟩ | ⟨e, he, ht, hseq, hmin, hmem⟩
    · rw [hq, ht]
      exact ⟨fun e he => (h.pushing e he).2, h.queue⟩
    · refine ⟨?_, ?_⟩
      · intro x hx
        obtain ⟨-, hlt, hne⟩ := h.pushing x hx
        have := hne e he
        exact ⟨by omega, fun y hy => hne y ((hmem y).1 hy).1⟩
      · intro x hx
        obtain ⟨hx, hne⟩ := (hmem x).1 hx
        have := hmin x hx
        omega
  exact {
    numbering := by rw [h5]; exact h.numbering
    next := by rw [h1, h5]; exact h.next
    pushing := by
      rw [h4, h5]
      exact fun e he => ⟨(h.pushing e he).1, hkeep.1 e he⟩
    distinct := by rw [h4]; exact h.distinct
    queue := hkeep.2
    relays := by rw [h2]; exact h.relays }

/-- the thread of the downstream node keeps the link -/
theorem LinkInv.moveDown {j : ℕ} {u p' : Path} (h : LinkInv j u p) (hm : RwbMove p p') : LinkInv j u p' := by
  obtain ⟨⟨-, h2, -⟩, hq⟩ := hm
  rcases hq with ⟨hq, ht⟩ | ⟨e, he, ht, -, -, hmem⟩
  · exact ⟨by rw [hq]; exact h.queue, by rw [ht]; exact h.top, by rw [h2]; exact h.running, by rw [h2]; exact h.calling⟩
  · exact ⟨fun x hx => h.queue x ((hmem x).1 hx).1, by rw [ht]; exact h.queue e he, by rw [h2]; exact h.running,
      by rw [h2]; exact h.calling⟩

/-- the thread of the upstream node keeps the link, if it keeps the entry of every running handler -/
theorem LinkInv.moveUp {j : ℕ} {d p' : Path} (h : LinkInv j p d) (hm : RwbMove p p')
    (hrun : p'.rwb.relaying = p.rwb.relaying ∨
      ∀ (m : ℕ) (x : RelayHandler), d.relays[m]? = some x → x.phase.finished = true)
    (hcall : ∀ e c k, p'.rwb = .calling e c k → p.rwb = .calling e c k ∨
      c = j ∧ ∀ (m : ℕ) (x : RelayHandler), d.relays[m]? = some x → x.phase.finished = true) : LinkInv j p' d := by
  refine ⟨fun x hx => (h.queue x hx).trans hm.top_le, h.top.trans hm.top_le, ?_, ?_⟩
  · intro m x hx hf
    rcases hrun with hrun | hrun
    · rw [hrun]
      exact h.running m x hx hf
    · exact absurd ((hrun m x hx).symm.trans hf) (by simp)
  · intro e c k hc
    rcases hcall e c k hc with hc | ⟨hj, hall⟩
    · exact h.calling e c k hc
    · exact ⟨hj, fun m x hx hf => absurd ((hall m x hx).symm.trans hf) (by simp)⟩

/-- no handler runs while the upstream node relays nothing -/
theorem LinkInv.finished {j : ℕ} {u d : Path} (h : LinkInv j u d) (hu : u.rwb.relaying = none) (m : ℕ)
    (x : RelayHandler) (hx : d.relays[m]? = some x) : x.phase.finished = true := by
  by_contra hf
  obtain ⟨e, he, -⟩ := h.running m x hx (by simpa using hf)
  rw [hu] at he
  cases he

/-- a running handler takes its next step -/
theorem LinkInv.setRelay {j : ℕ} {u d : Path} (h : LinkInv j u d) {k : ℕ} {x y : RelayHandler}
    (hx : d.relays[k]? = some x)
    (hf : x.phase.finished = false) (hy : y.req = x.req) {q : PendingQueue} (hq : ∀ z ∈ q, z.seqNum ≤ u.top) :
    LinkInv j u { d with relays := d.relays.set k y, pendingQueue := q } := by
  -- a handler that runs afterwards was running before, with the same request
  have hold : ∀ (m : ℕ) (z : RelayHandler), (d.relays.set k y)[m]? = some z → z.phase.finished = false →
      ∃ z' : RelayHandler, d.relays[m]? = some z' ∧ z'.phase.finished = false ∧ z.req = z'.req := by
    intro m z hz hzf
    rcases getElem?_of_set hz with ⟨rfl, rfl⟩ | ⟨-, hz⟩
    · exact ⟨x, hx, hf, hy⟩
    · exact ⟨z, hz, hzf, rfl⟩
  refine ⟨hq, h.top, ?_, ?_⟩
  · intro m z hz hzf
    obtain ⟨z', hz', hzf', hreq⟩ := hold m z hz hzf
    rw [hreq]
    exact h.running m z' hz' hzf'
  · intro e c k hc
    obtain ⟨hj, hall⟩ := h.calling e c k hc
    refine ⟨hj, ?_⟩
    intro m z hz hzf
    obtain ⟨z', hz', hzf', -⟩ := hold m z hz hzf
    exact hall m z' hz' hzf'

/-- a running handler carries the entry at the top of the upstream node -/
theorem LinkInv.entry_of_running {j : ℕ} {u d : Path} (h : LinkInv j u d) (hu : PathInv start N u) {k : ℕ}
    {x : RelayHandler}
    (hx : d.relays[k]? = some x) (hf : x.phase.finished = false) : x.req.entry ∈ N ∧ x.req.entry.seqNum = u.top := by
  obtain ⟨e, he, hreq⟩ := h.running k x hx hf
  have hin : u.rwb.inHand = some e := by
    cases hr : u.rwb <;> simp_all [Rwb.relaying, Rwb.inHand]
  rw [hreq, entry_relayRequest]
  exact ⟨(hu.hand e hin).1, by simp [Path.top, hin]⟩

/-- a `RelayWrite` handler keeps the invariant of its node and the link -/
theorem relayAct_inv (n : Node) (k : ℕ) (a : RelayAct) {j : ℕ} {u : Path} (hu : PathInv start N u)
    (h : PathInv start N n.path) (hl : LinkInv j u n.path) :
    PathInv start N (n.relayAct k a).path ∧ LinkInv j u (n.relayAct k a).path := by
  cases a with
  | addToLog =>
    simp only [Node.relayAct]
    split
    · rename_i req first hk
      exact ⟨⟨h.queue, h.hand, h.send, h.pop, h.lower, h.upper, h.written⟩, hl.setRelay hk rfl (by rfl) hl.queue⟩
    · exact ⟨h, hl⟩
  | pushEntry =>
    simp only [Node.relayAct]
    split
    · rename_i req first hk
      split
      · exact ⟨⟨h.queue, h.hand, h.send, h.pop, h.lower, h.upper, h.written⟩, hl.setRelay hk rfl (by rfl) hl.queue⟩
      · rename_i q hq
        obtain ⟨heN, hseq⟩ := hl.entry_of_running hu hk rfl
        have hpop : n.rwb = .pop → n.writeSeq + 1 ≤ req.entry.seqNum := by
          intro hr
          obtain ⟨⟨y, hy, hyw⟩, -⟩ := h.pop hr
          calc n.writeSeq + 1 = y.seqNum := hyw.symm
            _ ≤ u.top := hl.queue y hy
            _ = req.entry.seqNum := hseq.symm
        have hp := h.push hq heN hpop
        refine ⟨⟨hp.queue, hp.hand, hp.send, hp.pop, hp.lower, hp.upper, hp.written⟩, hl.setRelay hk rfl (by rfl) ?_⟩
        intro x hx
        rcases ((PendingQueue.pushEntry_eq_some hq).1 x).1 hx with hx | rfl
        · exact hl.queue x hx
        · exact le_of_eq hseq
    · exact ⟨h, hl⟩
  | drop =>
    simp only [Node.relayAct]
    split
    · rename_i req first hk
      exact ⟨⟨h.queue, h.hand, h.send, h.pop, h.lower, h.upper, h.written⟩, hl.setRelay hk rfl (by rfl) hl.queue⟩
    · exact ⟨h, hl⟩

/-- handlers do not touch what the next node downstream depends on -/
theorem relayAct_linkUp (n : Node) (k : ℕ) (a : RelayAct) {j : ℕ} {d : Path} (hl : LinkInv j n.path d) :
    LinkInv j (n.relayAct k a).path d := by
  have h := hl
  cases a <;> simp only [Node.relayAct] <;> repeat' split
  all_goals exact ⟨h.queue, h.top, h.running, h.calling⟩

/-- a `Write` handler that does not take a number -/
theorem writeAct_inv (n : Node) (a : WriteAct) (ha : ∀ k, a ≠ .takeSeq k) (hh : HeadInv start n.path)
    (h : PathInv start n.numbered n.path) :
    (n.writeAct a).numbered = n.numbered ∧ HeadInv start (n.writeAct a).path ∧
      PathInv start n.numbered (n.writeAct a).path := by
  cases a with
  | addToLog request =>
    simp only [Node.writeAct]
    repeat' split
    all_goals exact ⟨rfl, ⟨hh.numbering, hh.next, hh.pushing, hh.distinct, hh.queue, hh.relays⟩,
      ⟨h.queue, h.hand, h.send, h.pop, h.lower, h.upper, h.written⟩⟩
  | takeSeq k => exact absurd rfl (ha k)
  | pushEntry k =>
    simp only [Node.writeAct]
    split
    · exact ⟨rfl, hh, h⟩
    · rename_i e hk
      have he : e ∈ n.path.pushing := List.mem_of_getElem? hk
      have hsub : ∀ x ∈ n.pushing.eraseIdx k, x ∈ n.path.pushing := fun x hx => List.mem_of_mem_eraseIdx hx
      have hdist : (n.pushing.eraseIdx k).Pairwise fun a b => a.seqNum ≠ b.seqNum :=
        hh.distinct.sublist (List.eraseIdx_sublist _ _)
      obtain ⟨heN, hlt, hne⟩ := hh.pushing e he
      split
      · exact ⟨rfl, ⟨hh.numbering, hh.next, fun x hx => hh.pushing x (hsub x hx), hdist, hh.queue, hh.relays⟩,
          ⟨h.queue, h.hand, h.send, h.pop, h.lower, h.upper, h.written⟩⟩
      · rename_i q hq
        have hmem := (PendingQueue.pushEntry_eq_some hq).1
        have hp := h.push hq heN (fun hr => by
          have htop : n.path.top = n.path.writeSeq := by simp [Path.top, hr, Rwb.inHand]
          omega)
        refine ⟨rfl, ⟨hh.numbering, hh.next, ?_, hdist, ?_, hh.relays⟩,
          ⟨hp.queue, hp.hand, hp.send, hp.pop, hp.lower, hp.upper, hp.written⟩⟩
        · intro x hx
          obtain ⟨hxN, hxt, hxq⟩ := hh.pushing x (hsub x hx)
          refine ⟨hxN, hxt, ?_⟩
          intro y hy
          rcases (hmem y).1 hy with hy | rfl
          · exact hxq y hy
          · -- the entry pushed is not among those that remain
            obtain ⟨m, hmk, hm⟩ := List.mem_eraseIdx_iff_getElem?.1 hx
            exact pairwise_ne_of_getElem? hh.distinct hk hm (Ne.symm hmk)
        · intro x hx
          rcases (hmem x).1 hx with hx | rfl
          · exact hh.queue x hx
          · exact hlt

/-- `currentSeq++` -/
theorem takeSeq_inv (n : Node) (k : ℕ) (hh : HeadInv start n.path) (h : PathInv start n.numbered n.path) :
    n.writeAct (.takeSeq k) = n ∨ HeadInv start (n.writeAct (.takeSeq k)).path ∧
      (∃ e, (n.writeAct (.takeSeq k)).numbered = n.numbered ++ [e] ∧
        PathInv start (n.numbered ++ [e]) (n.writeAct (.takeSeq k)).path) ∧
      ∀ j d, LinkInv j n.path d → LinkInv j (n.writeAct (.takeSeq k)).path d := by
  simp only [Node.writeAct]
  split
  · exact Or.inl rfl
  · rename_i request hk
    have hnext := hh.next
    have hseq : (request.entry n.currentSeq).seqNum = start + 1 + n.path.numbered.length := hnext
    -- every number already given is below the new one
    have hbelow : ∀ x ∈ n.path.numbered, x.seqNum < start + 1 + n.path.numbered.length := by
      intro x hx
      obtain ⟨m, hm⟩ := List.mem_iff_getElem?.1 hx
      have := hh.numbering m x hm
      have := (List.getElem?_eq_some_iff.1 hm).1
      omega
    have htop : n.path.top < start + 1 + n.path.numbered.length := by
      unfold Path.top
      split
      · rename_i e he
        exact hbelow e (h.hand e he).1
      · have hup := h.upper
        have hw : n.path.writeSeq ≤ n.path.writtenSeq := by
          unfold Path.writtenSeq
          split <;> omega
        have : (n.path.numbered.length : ℤ) = n.numbered.length := rfl
        omega
    have hp := h.append (request.entry n.currentSeq)
    refine Or.inr ⟨?_, ⟨_, rfl, ⟨hp.queue, hp.hand, hp.send, hp.pop, hp.lower, hp.upper, hp.written⟩⟩,
      fun j d hl => ⟨hl.queue, hl.top, hl.running, hl.calling⟩⟩
    refine ⟨hh.numbering.append _ hseq, ?_, ?_, ?_, hh.queue, hh.relays⟩
    · show n.currentSeq + 1 = start + 1 + ((n.numbered ++ [request.entry n.currentSeq]).length : ℕ)
      simp only [List.length_append, List.length_singleton]
      have : n.currentSeq = start + 1 + n.numbered.length := hnext
      push_cast
      omega
    · intro x hx
      rcases List.mem_append.1 hx with hx | hx
      · obtain ⟨h1, h2, h3⟩ := hh.pushing x hx
        exact ⟨List.mem_append_left _ h1, h2, h3⟩
      · obtain rfl := List.mem_singleton.1 hx
        refine ⟨List.mem_append_right _ (List.mem_singleton_self _), ?_, ?_⟩
        · rw [hseq]; exact htop
        · intro y hy
          have := hbelow y (h.queue y hy)
          omega
    · refine List.pairwise_append.2 ⟨hh.distinct, List.pairwise_singleton _ _, ?_⟩
      intro x hx y hy
      obtain rfl := List.mem_singleton.1 hy
      have := hbelow x (hh.pushing x hx).1
      omega

end Node

/-! ## Steps of the chain -/

section Chain

variable {n start : ℕ} {log : ReplayLog} {s : Nodes}

/-- one node of the chain changes; `N` is what the head has numbered afterwards -/
theorem OnPath.updateWith (h : OnPath n start log s) (i : ℕ) (x : Node) {N : List Entry} (hconf : x.conf = (s i).conf)
    (hnum : (Function.update s i x 0).numbered = N)
    (hN : ∀ p, PathInv start (s 0).numbered p → PathInv start N p)
    (hhead : i = 0 → HeadInv start x.path) (hquiet : i ≠ 0 → x.adding = [] ∧ x.pushing = [])
    (hnode : i < n → PathInv start N x.path) (hup : ∀ j, j + 1 = i → i < n → LinkInv i (s j).path x.path)
    (hdown : i + 1 < n → LinkInv (i + 1) x.path (s (i + 1)).path) : OnPath n start log (Function.update s i x) := by
  refine ⟨?_, ?_, ?_, ?_, ?_⟩
  · intro j
    by_cases hj : j = i
    · subst hj; rw [Function.update_self, hconf, h.conf]
    · rw [Function.update_of_ne hj, h.conf]
  · by_cases h0 : i = 0
    · subst h0; rw [Function.update_self]; exact hhead rfl
    · rw [Function.update_of_ne (Ne.symm h0)]; exact h.head
  · intro j hj0
    by_cases hj : j = i
    · subst hj; rw [Function.update_self]; exact hquiet hj0
    · rw [Function.update_of_ne hj]; exact h.quiet j hj0
  · intro j hjn
    rw [hnum]
    by_cases hj : j = i
    · subst hj; rw [Function.update_self]; exact hnode hjn
    · rw [Function.update_of_ne hj]; exact hN _ (h.node j hjn)
  · intro j hjn
    by_cases hj : j = i
    · subst hj
      rw [Function.update_self, Function.update_of_ne (by omega)]
      exact hdown hjn
    · rw [Function.update_of_ne hj]
      by_cases hj' : j + 1 = i
      · subst hj'
        rw [Function.update_self]
        exact hup j rfl hjn
      · rw [Function.update_of_ne hj']
        exact h.link j hjn

/-- one node of the chain changes and the head numbers nothing -/
theorem OnPath.update (h : OnPath n start log s) (i : ℕ) (x : Node) (hconf : x.conf = (s i).conf)
    (hnum : i = 0 → x.numbered = (s 0).numbered) (hhead : i = 0 → HeadInv start x.path)
    (hquiet : i ≠ 0 → x.adding = [] ∧ x.pushing = []) (hnode : i < n → PathInv start (s 0).numbered x.path)
    (hup : ∀ j, j + 1 = i → i < n → LinkInv i (s j).path x.path)
    (hdown : i + 1 < n → LinkInv (i + 1) x.path (s (i + 1)).path) : OnPath n start log (Function.update s i x) := by
  refine h.updateWith i x hconf ?_ (fun _ hp => hp) hhead hquiet hnode hup hdown
  by_cases h0 : i = 0
  · subst h0; simpa using hnum rfl
  · rw [Function.update_of_ne (Ne.symm h0)]

/-- a change that leaves the write path alone -/
theorem OnPath.update_same (h : OnPath n start log s) (i : ℕ) (x : Node) (hconf : x.conf = (s i).conf)
    (hpath : x.path = (s i).path) : OnPath n start log (Function.update s i x) := by
  apply h.update i x hconf
  · rintro rfl
    exact congrArg Path.numbered hpath
  · rintro rfl
    rw [hpath]; exact h.head
  · intro hi
    obtain ⟨h1, h2⟩ := h.quiet i hi
    exact ⟨(congrArg Path.adding hpath).trans h1, (congrArg Path.pushing hpath).trans h2⟩
  · rw [hpath]; exact h.node i
  · rintro j rfl hn
    rw [hpath]; exact h.link j hn
  · rw [hpath]; exact h.link i

/-- a change of `relay_write_background` -/
theorem OnPath.update_move (h : OnPath n start log s) (h0 : 0 < n) (i : ℕ) (x : Node) (hconf : x.conf = (s i).conf)
    (hsame : x.intake = (s i).intake)
    (hp : i < n → PathInv start (s 0).numbered x.path) (hm : i < n → RwbMove (s i).path x.path)
    (hdown : i + 1 < n → LinkInv (i + 1) x.path (s (i + 1)).path) : OnPath n start log (Function.update s i x) := by
  refine h.update i x hconf ?_ ?_ ?_ hp ?_ hdown
  · rintro rfl
    exact congrArg Intake.numbered hsame
  · rintro rfl
    exact h.head.move (hm h0)
  · intro hi
    exact ⟨(congrArg Intake.adding hsame).trans (h.quiet i hi).1,
      (congrArg Intake.pushing hsame).trans (h.quiet i hi).2⟩
  · rintro j rfl hn
    exact (h.link j hn).moveDown (hm hn)

theorem OnPath.writeAct (h : OnPath n start log s) (h0 : 0 < n) (i : ℕ) (a : WriteAct) :
    OnPath n start log (Function.update s i ((s i).writeAct a)) := by
  have hconf : ((s i).writeAct a).conf = (s i).conf := writeAct_conf (s i) a
  by_cases hi : i = 0
  · subst hi
    have hnode := h.node 0 h0
    by_cases ha : ∀ k, a ≠ .takeSeq k
    · obtain ⟨hnum, hhead, hp⟩ := writeAct_inv (s 0) a ha h.head hnode
      apply h.update 0 _ hconf (fun _ => hnum) (fun _ => hhead) (fun h => absurd rfl h) (fun _ => hp)
      · intro j hj; omega
      · intro hn
        have hl := h.link 0 hn
        cases a with
        | takeSeq k => exact absurd rfl (ha k)
        | addToLog r =>
          simp only [Node.writeAct]; repeat' split
          all_goals exact ⟨hl.queue, hl.top, hl.running, hl.calling⟩
        | pushEntry k =>
          simp only [Node.writeAct]; repeat' split
          all_goals exact ⟨hl.queue, hl.top, hl.running, hl.calling⟩
    · push Not at ha
      obtain ⟨k, rfl⟩ := ha
      rcases takeSeq_inv (s 0) k h.head hnode with hsame | ⟨hhead, ⟨e, hnum, hp⟩, hlink⟩
      · rw [hsame, Function.update_eq_self]
        exact h
      · refine h.updateWith 0 _ hconf ?_ (fun p hp => hp.append e) (fun _ => hhead) (fun h => absurd rfl h)
          (fun _ => hp) ?_ (fun hn => hlink _ _ (h.link 0 hn))
        · rw [Function.update_self]; exact hnum
        · intro j hj; omega
  · obtain ⟨h1, h2⟩ := h.quiet i hi
    rw [writeAct_quiet (conf_headService (h.conf i) hi) h1 h2, Function.update_eq_self]
    exact h

theorem OnPath.relayAct (h : OnPath n start log s) (i k : ℕ) (a : RelayAct) :
    OnPath n start log (Function.update s i ((s i).relayAct k a)) := by
  have hconf : ((s i).relayAct k a).conf = (s i).conf := relayAct_conf (s i) k a
  have hsame := relayAct_intake (s i) k a
  cases i with
  | zero =>
    -- nobody relays to the head
    have hr : (s 0).relays = [] := h.head.relays
    have hnone : (s 0).relayAct k a = s 0 := by cases a <;> simp [Node.relayAct, hr]
    rw [hnone, Function.update_eq_self]
    exact h
  | succ i =>
    have hinv : i + 1 < n → PathInv start (s 0).numbered ((s (i + 1)).relayAct k a).path ∧
        LinkInv (i + 1) (s i).path ((s (i + 1)).relayAct k a).path := fun hn =>
      relayAct_inv _ k a (h.node i (by omega)) (h.node (i + 1) hn) (h.link i hn)
    refine h.update (i + 1) _ hconf (by simp) (by simp) ?_ (fun hn => (hinv hn).1) ?_ ?_
    · intro hi
      exact ⟨(congrArg Intake.adding hsame).trans (h.quiet _ hi).1,
        (congrArg Intake.pushing hsame).trans (h.quiet _ hi).2⟩
    · intro j hj hn
      obtain rfl : j = i := by omega
      exact (hinv hn).2
    · exact fun hn => relayAct_linkUp _ k a (h.link (i + 1) hn)

theorem OnPath.act (h : OnPath n start log s) (h0 : 0 < n) (i : ℕ) (a : Act) :
    OnPath n start log (Function.update s i ((s i).act a)) := by
  unfold Node.act
  split
  · rw [Function.update_eq_self]; exact h
  · cases a with
    | write a => exact h.writeAct h0 i a
    | relay k a => exact h.relayAct i k a
    | ack k a => exact h.update_same i _ (ackAct_conf _ k a) (ackAct_path _ k a)
    | ackLogEntry r => exact h.update_same i _ rfl rfl
    | rwb a =>
      have hm : i < n → RwbMove (s i).path ((s i).rwbAct a).path := fun hn => rwbAct_move _ a (h.node i hn)
      refine h.update_move h0 i _ (rwbAct_conf _ a) (rwbAct_intake _ a)
        (fun hn => rwbAct_pathInv _ a h.head.numbering (h.node i hn)) hm ?_
      intro hn
      have hs : (s i).state.relays = true := by rw [conf_state (h.conf i) (by omega), relays_roleOf hn]
      obtain ⟨hr, hc⟩ := rwbAct_relaying (s i) a hs
      refine (h.link i hn).moveUp (hm (by omega)) ?_ (fun e c k he => Or.inl (hc e c k he))
      rcases hr with hr | hr
      · exact Or.inr ((h.link i hn).finished hr)
      · exact Or.inl hr

/-- a relay is repeated only when its earlier handlers are finished or will never run -/
def RetryRule (s : Nodes) : Event → Prop
  | .sendRelay i => ∀ t ∈ (s i).relayTarget, ∀ h ∈ (s t.2).relays, h.req.seqNum = t.1.seqNum → h.phase.finished = true
  | _ => True

instance (s : Nodes) : ∀ e, Decidable (RetryRule s e)
  | .sendRelay i => inferInstanceAs (Decidable (∀ t ∈ (s i).relayTarget, ∀ h ∈ (s t.2).relays,
      h.req.seqNum = t.1.seqNum → h.phase.finished = true))
  | .act _ _ | .relayOk _ | .sendAck _ _ | .ackOk _ _ => isTrue trivial

/-- sending a relay: the thread waits in the call and the handler appears at the callee -/
theorem OnPath.sendRelay (h : OnPath n start log s) (h0 : 0 < n) (i : ℕ) (hr : RetryRule s (.sendRelay i)) :
    OnPath n start log (step s (.sendRelay i)) := by
  rcases step_sendRelay s i with hs | ⟨e, j, ht, hs⟩ <;> rw [hs]
  · exact h
  obtain ⟨hrwb, hd, -⟩ := relayTarget_eq_some ht
  obtain ⟨hin, rfl⟩ := conf_downstream (h.conf i) hd
  have hl := h.link i hin
  have hnode := h.node i (by omega)
  -- no earlier handler is still running
  have hfin : ∀ (m : ℕ) (x : RelayHandler), (s (i + 1)).relays[m]? = some x → x.phase.finished = true := by
    intro m x hx
    by_contra hf
    obtain ⟨e', he', hreq⟩ := hl.running m x hx (by simpa using hf)
    have hee : e = e' := by simpa [Node.path, hrwb, Rwb.relaying] using he'
    exact hf (hr (e, i + 1) ht x (List.mem_of_getElem? hx) (by rw [hreq, hee]; rfl))
  have hpath : ((s i).wire (.relaySent (i + 1) (s (i + 1)).relays.length)).path =
      { (s i).path with rwb := .calling e (i + 1) (s (i + 1)).relays.length } := by
    simp [Node.wire, hrwb, Node.path]
  -- the caller
  have h1 : OnPath n start log (Nodes.wire s i (.relaySent (i + 1) (s (i + 1)).relays.length)) := by
    have hm : RwbMove (s i).path ((s i).wire (.relaySent (i + 1) (s (i + 1)).relays.length)).path := by
      rw [hpath]
      exact RwbMove.moveOn _ _ _ (by simp [Path.top, Node.path, hrwb, Rwb.inHand])
    refine h.update_move h0 i _ (wire_conf _ _) (wire_intake _ _) (fun _ => ?_) (fun _ => hm) (fun _ => ?_)
    · rw [hpath]
      refine hnode.moveOn (.calling e (i + 1) _) (fun _ hx => hx) (by simp [Node.path, hrwb]) (by simp) (by simp) ?_
        (by simp)
      rintro x ⟨⟩
      exact hnode.hand e (by simp [Node.path, hrwb, Rwb.inHand])
    · apply hl.moveUp hm (Or.inr hfin)
      rw [hpath]
      rintro e' c k ⟨⟩
      exact Or.inr ⟨rfl, hfin⟩
  -- the handler
  set s1 := Nodes.wire s i (.relaySent (i + 1) (s (i + 1)).relays.length) with hs1
  have hs1i : s1 (i + 1) = s (i + 1) := by simp [hs1, Nodes.wire]
  have hcall : (s1 i).rwb = .calling e (i + 1) (s (i + 1)).relays.length := by
    simp [hs1, Nodes.wire, Node.wire, hrwb]
  have hd := h1.node (i + 1) hin
  have hl1 := h1.link i hin
  refine h1.update (i + 1) _ (wire_conf _ _) (by simp) (by simp) (h1.quiet (i + 1)) ?_ ?_ ?_
  · exact fun _ => ⟨hd.queue, hd.hand, hd.send, hd.pop, hd.lower, hd.upper, hd.written⟩
  · intro j hj _
    obtain rfl : j = i := by omega
    have hlast : ∀ (m : ℕ) (x : RelayHandler),
        ((s (j + 1)).relays ++ [⟨relayRequest e, .arrived, false⟩])[m]? = some x → x.phase.finished = false →
        m = (s (j + 1)).relays.length ∧ x.req = relayRequest e := by
      intro m x hx hf
      rcases getElem?_of_concat hx with hx | ⟨hm, rfl⟩
      · exact absurd ((hfin m x hx).symm.trans hf) (by simp)
      · exact ⟨hm, rfl⟩
    refine ⟨hl1.queue, hl1.top, ?_, ?_⟩
    · intro m x hx hf
      rw [hs1i] at hx
      refine ⟨e, ?_, (hlast m x hx hf).2⟩
      show (s1 j).rwb.relaying = some e
      rw [hcall]
      rfl
    · intro e' c k hc
      have hc' : (s1 j).rwb = .calling e' c k := hc
      rw [hcall, Rwb.calling.injEq] at hc'
      refine ⟨hc'.2.1.symm, ?_⟩
      intro m x hx hf
      rw [hs1i] at hx
      rw [← hc'.2.2]
      exact (hlast m x hx hf).1
  · intro hn
    have hl2 := h1.link (i + 1) hn
    exact ⟨hl2.queue, hl2.top, hl2.running, hl2.calling⟩

/-- the answer to a relay: no handler is left running -/
theorem OnPath.relayOk (h : OnPath n start log s) (h0 : 0 < n) (i : ℕ) : OnPath n start log (step s (.relayOk i)) := by
  rcases step_relayOk s i with hs | ⟨e, j, k, hrwb, ha, hs⟩ <;> rw [hs]
  · exact h
  have hpath : ((s i).wire .relayOk).path = { (s i).path with rwb := .write e } := by
    simp [Node.wire, hrwb, Node.path]
  have hm : RwbMove (s i).path ((s i).wire .relayOk).path := by
    rw [hpath]
    exact RwbMove.moveOn _ _ _ (by simp [Path.top, Node.path, hrwb, Rwb.inHand])
  refine h.update_move h0 i _ (wire_conf _ _) (wire_intake _ _) (fun hn => ?_) (fun _ => hm) (fun hn => ?_)
  · rw [hpath]
    have hnode := h.node i hn
    refine hnode.moveOn (.write e) (fun _ hx => hx) (by simp [Node.path, hrwb]) (by simp) (by simp) ?_ (by simp)
    rintro x ⟨⟩
    exact hnode.hand e (by simp [Node.path, hrwb, Rwb.inHand])
  · obtain ⟨rfl, hall⟩ := (h.link i hn).calling e j k hrwb
    refine (h.link i hn).moveUp hm (Or.inr ?_) (by rw [hpath]; rintro e' c k ⟨⟩)
    -- the one handler that could still be running is the one that has answered
    intro m x hx
    by_contra hf
    obtain rfl := hall m x hx (by simpa using hf)
    have hx' : (s (i + 1)).relays[m]? = some x := hx
    simp only [Node.relayAnswered, hx', Option.any_some] at ha
    cases hp : x.phase <;> simp_all [RelayPhase.ok, RelayPhase.finished]

/-- an exchange of acks -/
theorem OnPath.wire_same (h : OnPath n start log s) (i : ℕ) (w : Wire) (hw : ∀ x : Node, (x.wire w).path = x.path) :
    OnPath n start log (Nodes.wire s i w) :=
  h.update_same i _ (wire_conf _ _) (hw _)

/-- **The write path holds together in every run that keeps the retry rule.** -/
theorem onPath_step (h : OnPath n start log s) (h0 : 0 < n) (e : Event) (hr : RetryRule s e) :
    OnPath n start log (step s e) := by
  cases e with
  | act i a => exact h.act h0 i a
  | sendRelay i => exact h.sendRelay h0 i hr
  | relayOk i => exact h.relayOk h0 i
  | sendAck i k =>
    rcases step_sendAck s i k with hs | ⟨seq, j, -, hs⟩ <;> rw [hs]
    · exact h
    · exact (h.wire_same i _ (ackSent_path k j _)).wire_same j _ (ackArrives_path seq)
  | ackOk i k =>
    rcases step_ackOk s i k with hs | hs <;> rw [hs]
    · exact h
    · exact h.wire_same i _ (ackOk_path k)

theorem onPath_stable (n start : ℕ) (log : ReplayLog) : OnPath n start log (stable n start log) := by
  have hpath : ∀ i, (stable n start log i).path = ⟨start + 1, start, Sorted.empty, .poll, [], [], [], [], []⟩ := by
    intro i
    unfold stable
    split_ifs <;> rfl
  have hnum : (stable n start log 0).numbered = [] := congrArg Path.numbered (hpath 0)
  refine ⟨fun _ => rfl, ?_, ?_, ?_, ?_⟩
  · rw [hpath]
    exact ⟨by simp [Consecutive], by simp, by simp, by simp, by simp, rfl⟩
  · exact fun i _ => ⟨congrArg Path.adding (hpath i), congrArg Path.pushing (hpath i)⟩
  · intro i _
    rw [hpath, hnum]
    exact ⟨by simp, by simp [Rwb.inHand], by simp, by simp, le_refl _, by simp [Path.writtenSeq], by simp⟩
  · intro i _
    rw [hpath, hpath]
    exact ⟨by simp, le_refl _, by simp, by simp⟩

end Chain

end ChainedBlockStorage.Chain
