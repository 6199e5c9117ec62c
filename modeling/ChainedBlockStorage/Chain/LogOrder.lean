/-
A stable chain is a log replicated along a chain (`Core/LogChain`).

The log is what the head has numbered. A node has taken what it has popped from its pending queue, applied what it has
passed to `Storage::write`, and committed what it has passed to `Storage::commit`.

- `act_advance`, `wire_progress`: what one step does to these four.
- `Stored`, `stored_step`: the sent list, the commits and `commitSeq` of a node follow its writes.
- `step_refines`: every event of the chain is a move of the abstract one, or none.
- `chain_refines`: so the numbers of all nodes are ordered in every run, and what one node has committed is known to all.
-/
import ChainedBlockStorage.Core.LogChain
import ChainedBlockStorage.Chain.Agreement
import ChainedBlockStorage.Chain.CommitOnce

namespace ChainedBlockStorage.Chain

open Run Tables Positions
open LogChain (Move Moves Ordered ordered_empty ordered_moves)

/-! ## Progress of a node -/

/-- what a node has numbered, the number it has reached, and what it has written and committed -/
structure Progress where
  numbered : List Entry
  top : ℤ
  written : List Entry
  committed : List (ℤ × Int64)

def Node.progress (n : Node) : Progress := ⟨n.numbered, n.path.top, n.written, n.committed⟩

/-- one step forward in one of the four -/
inductive Advance : Progress → Progress → Prop where
  | stay (p : Progress) : Advance p p
  | number (p : Progress) (e : Entry) : Advance p { p with numbered := p.numbered ++ [e] }
  | take (p : Progress) : Advance p { p with top := p.top + 1 }
  | write (p : Progress) (e : Entry) : Advance p { p with written := p.written ++ [e] }
  | commit (p : Progress) (c : ℤ × Int64) : Advance p { p with committed := p.committed ++ [c] }

theorem Advance.of_eq {p q : Progress} (h : q = p) : Advance p q := h ▸ .stay p

/-- calls between nodes are no progress -/
theorem wire_progress (n : Node) (w : Wire) : (n.wire w).progress = n.progress := by
  cases w with
  | relaySent j k =>
    simp only [Node.wire]
    split
    · next hr => simp [Node.progress, Node.path, Path.top, hr, Rwb.inHand]
    · rfl
  | relayOk =>
    simp only [Node.wire]
    split
    · next hr => simp [Node.progress, Node.path, Path.top, hr, Rwb.inHand]
    · rfl
  | relayArrives _ => rfl
  | ackSent _ _ _ | ackArrives _ | ackOk _ =>
    simp only [Node.wire]
    repeat' split
    all_goals rfl

section Node

variable {start : ℤ} {N : List Entry} {n : Node}

theorem rwbAct_advance (h : PathInv start N n.path) (a : RwbAct) : Advance n.progress (n.rwbAct a).progress := by
  cases a with
  | poll | spin | leave | retry =>
    simp only [Node.rwbAct]
    repeat' split
    all_goals refine .of_eq ?_
    all_goals simp_all [Node.progress, Node.path, Path.top, Rwb.inHand]
  | pop =>
    simp only [Node.rwbAct]
    split
    · rename_i e q hr hp
      obtain ⟨he, hmin, -⟩ := PendingQueue.popEntry_eq_some hp
      obtain ⟨⟨y, hy, hyw⟩, hall⟩ := h.pop hr
      have hseq : e.seqNum = n.writeSeq + 1 := le_antisymm (hyw ▸ hmin y hy) (hall e he)
      have htop : n.path.top = n.writeSeq := by simp [Path.top, Node.path, hr, Rwb.inHand]
      have hnew : ({ n with rwb := .relay e, pendingQueue := q } : Node).progress =
          { n.progress with top := n.progress.top + 1 } := by
        simp only [Node.progress, htop]
        rw [← hseq]
        rfl
      rw [hnew]
      exact .take _
    · exact .stay _
  | write =>
    simp only [Node.rwbAct]
    split
    · rename_i e hr
      have hnew : ({ n with rwb := .bump e, written := n.written ++ [{ e with data := Data.ofString e.data.val }] } :
          Node).progress = { n.progress with written := n.progress.written ++ [e] } := by
        simp [Node.progress, Node.path, Path.top, hr, Rwb.inHand]
      rw [hnew]
      exact .write _ e
    · exact .stay _
  | bump =>
    simp only [Node.rwbAct]
    split
    · rename_i e hr
      have hseq : e.seqNum = n.writeSeq + 1 := (h.hand e (by simp [Node.path, hr, Rwb.inHand])).2
      refine .of_eq ?_
      simp [Node.progress, Node.path, Path.top, hr, Rwb.inHand, hseq]
    · exact .stay _
  | send =>
    simp only [Node.rwbAct]
    split
    · rename_i e hr
      split <;> refine .of_eq ?_ <;> simp [Node.progress, Node.path, Path.top, hr, Rwb.inHand]
    · exact .stay _

/-- **One step of a thread.** -/
theorem act_advance (h : PathInv start N n.path) (a : Act) : Advance n.progress (n.act a).progress := by
  unfold Node.act
  split
  · exact .stay _
  cases a with
  | write a =>
    cases a with
    | takeSeq k =>
      simp only [Node.writeAct]
      split
      · exact .stay _
      · exact .number _ _
    | addToLog q | pushEntry k =>
      refine .of_eq ?_
      simp only [Node.writeAct]
      repeat' split
      all_goals rfl
  | relay k a =>
    refine .of_eq ?_
    cases a <;> simp only [Node.relayAct] <;> repeat' split
    all_goals rfl
  | rwb a => exact rwbAct_advance h a
  | ack k a =>
    show Advance n.progress (n.ackAct k a).progress
    have hstep := ackAct_step n k a
    generalize n.ackAct k a = x at hstep ⊢
    cases hstep with
    | commit hk => exact .commit _ _
    | stay | takeUp | retire | turn | refuse | pop | log | bump | leave | retry => exact .stay _
  | ackLogEntry r => exact .stay _

/-- the number in hand is at most the last one that the head has given out -/
theorem PathInv.top_le (h : PathInv start N n.path) (hN : Consecutive start N) : n.path.top ≤ start + N.length := by
  have hup := h.upper
  unfold Path.top
  split
  · next e he =>
    obtain ⟨k, hk⟩ := List.mem_iff_getElem?.1 (h.hand e he).1
    have hlt := (List.getElem?_eq_some_iff.1 hk).1
    have := hN k e hk
    omega
  · have : n.path.writeSeq ≤ n.path.writtenSeq := by
      unfold Path.writtenSeq
      split <;> omega
    omega

/-- what is written has been taken -/
theorem PathInv.written_le_top (h : PathInv start N n.path) :
    (n.written.length : ℤ) = n.path.writtenSeq - start ∧ n.path.writtenSeq ≤ n.path.top := by
  have hlow := h.lower
  have hup := h.upper
  have htop := h.writeSeq_le_top.1
  have hseq : n.path.writeSeq ≤ n.path.writtenSeq := by
    unfold Path.writtenSeq
    split <;> omega
  constructor
  · have hw : n.written = N.take (n.path.writtenSeq - start).toNat := h.written
    rw [hw, List.length_take]
    omega
  · unfold Path.writtenSeq
    split
    · next e he =>
      have hseq := (h.hand e (by simp [he, Rwb.inHand])).2
      have : n.path.top = e.seqNum := by simp [Path.top, he, Rwb.inHand]
      omega
    · exact htop

/-- entry `k` that is written has the number `start + 1 + k` -/
theorem PathInv.consecutive (h : PathInv start N n.path) (hN : Consecutive start N) : Consecutive start n.written := by
  intro k e he
  have hw : n.written = N.take (n.path.writtenSeq - start).toNat := h.written
  rw [hw] at he
  exact hN k e (List.getElem?_eq_some_iff.1 he |>.elim fun hk he' => by
    rw [List.getElem_take] at he'
    exact List.getElem?_eq_some_iff.2 ⟨(List.length_take .. ▸ hk).trans_le (min_le_right _ _), he'⟩)

/-! ## What a node has written and committed -/

/-- what is not yet sent is the last write, and the commits are in order -/
structure Stored (start : ℤ) (n : Node) : Prop where
  unsent : ∀ e, n.rwb.unsent = some e → ∃ l, n.written = l ++ [e]
  commits : CommittedOnce start n

theorem Rwb.inHand_of_unwritten {r : Rwb} {e : Entry} (h : r.unwritten = some e) : r.inHand = some e := by
  cases r <;> first | exact h | cases h

/-- an entry that is written is one of the head's, at or below `writtenSeq` -/
theorem PathInv.of_mem_written (h : PathInv start N n.path) (hN : Consecutive start N) {w : Entry} (hw : w ∈ n.written) :
    w ∈ N ∧ start < w.seqNum ∧ w.seqNum ≤ n.path.writtenSeq := by
  obtain ⟨k, hk⟩ := List.mem_iff_getElem?.1 hw
  have hlt := (List.getElem?_eq_some_iff.1 hk).1
  have hseq := h.consecutive hN k w hk
  have hlen := h.written_le_top.1
  have htake : n.written = N.take (n.path.writtenSeq - start).toNat := h.written
  rw [htake] at hw
  exact ⟨List.mem_of_mem_take hw, by omega, by omega⟩

theorem Consecutive.nodup {l : List Entry} (h : Consecutive start l) : (l.map Entry.seqNum).Nodup := by
  have hmap : l.map Entry.seqNum = (List.range l.length).map fun k : ℕ => start + 1 + k := by
    refine List.ext_getElem (by simp) fun k hk _ => ?_
    rw [List.getElem_map, List.getElem_map, List.getElem_range]
    exact h k _ (List.getElem?_eq_getElem _)
  rw [hmap]
  exact List.nodup_range.map fun a b hab => by simpa using hab

/-- a node of the chain writes every number once, its queue apart -/
theorem PathInv.writtenOnce (h : PathInv start N n.path) (hN : Consecutive start N) (hs : Stored start n) :
    WrittenOnce { n with pendingQueue := Sorted.empty, queued := N } where
  queue x hx := absurd hx (Sorted.not_mem_empty x)
  hand e he := by
    have hhand := Rwb.inHand_of_unwritten he
    obtain ⟨heN, hseq⟩ := h.hand e hhand
    refine ⟨List.mem_map_of_mem heN, fun w hw => ?_, fun x hx => absurd hx (Sorted.not_mem_empty x)⟩
    have hle := (h.of_mem_written hN hw).2.2
    have hw : n.path.writtenSeq = n.path.writeSeq := by
      apply Path.writtenSeq_of_not_bump
      intro x hx
      have hb : n.rwb = .bump x := hx
      have he : n.rwb.unwritten = some e := he
      rw [hb] at he
      cases he
    omega
  written w hw := List.mem_map_of_mem (h.of_mem_written hN hw).1
  nodup := (h.consecutive hN).nodup
  unsent := hs.unsent

theorem wire_unsent (n : Node) (w : Wire) :
    (n.wire w).rwb.unsent = n.rwb.unsent ∧ (n.wire w).written = n.written := by
  cases w with
  | relaySent j k | relayOk =>
    simp only [Node.wire]
    split
    · next hr => simp [hr, Rwb.unsent]
    · exact ⟨rfl, rfl⟩
  | relayArrives _ | ackArrives _ => exact ⟨rfl, rfl⟩
  | ackSent _ _ _ | ackOk _ =>
    simp only [Node.wire]
    repeat' split
    all_goals exact ⟨rfl, rfl⟩

theorem wire_stored (hs : Stored start n) (w : Wire) : Stored start (n.wire w) := by
  obtain ⟨hu, hw⟩ := wire_unsent n w
  refine ⟨fun e he => ?_, wire_committedOnce hs.commits w⟩
  rw [hw]
  exact hs.unsent e (hu ▸ he)

theorem rwbAct_unsent (h : ∀ e, n.rwb.unsent = some e → ∃ l, n.written = l ++ [e]) (a : RwbAct) (e : Entry)
    (he : (n.rwbAct a).rwb.unsent = some e) : ∃ l, (n.rwbAct a).written = l ++ [e] := by
  cases a with
  | write =>
    simp only [Node.rwbAct] at he ⊢
    split at he
    · obtain rfl := Option.some.inj he
      exact ⟨n.written, by simp [*]⟩
    · simp_all
  | bump =>
    simp only [Node.rwbAct] at he ⊢
    split at he
    · rename_i x hr
      obtain rfl : x = e := Option.some.inj he
      simpa [hr] using h x (by rw [hr]; rfl)
    · simp_all
  | poll | spin | pop | leave | retry | send =>
    simp only [Node.rwbAct] at he ⊢
    repeat' split at he
    all_goals simp_all [Rwb.unsent]

/-- the write thread adds to the sent list what it has written, whose number is new there -/
theorem rwbAct_stored (h : PathInv start N n.path) (hN : Consecutive start N) (hs : Stored start n)
    (hb : ∀ w ∈ n.written, 0 ≤ w.seqNum ∧ w.seqNum < 2 ^ 31) (a : RwbAct) : Stored start (n.rwbAct a) := by
  refine ⟨fun e he => rwbAct_unsent hs.unsent a e he, ?_⟩
  cases a with
  | poll | spin | pop | leave | retry | write | bump =>
    simp only [Node.rwbAct]
    repeat' split
    all_goals refine hs.commits.of_eq rfl rfl fun w hw => ?_
    all_goals simp_all [Node.sent, Rwb.unsent]
  | send =>
    have hquiet : CommittedOnce start { n with pendingQueue := Sorted.empty, queued := N } :=
      hs.commits.of_eq rfl rfl fun w hw => hw
    refine (rwbAct_committedOnce hquiet (h.writtenOnce hN hs) hb .send).of_eq ?_ ?_ ?_
    all_goals simp only [Node.rwbAct]
    all_goals repeat' split
    all_goals first | rfl | exact fun w hw => hw

theorem act_stored (h : PathInv start N n.path) (hN : Consecutive start N) (h0 : 0 ≤ start) (hs : start < 2 ^ 31)
    (hn : Stored start n) (hb : ∀ w ∈ n.written, 0 ≤ w.seqNum ∧ w.seqNum < 2 ^ 31) (a : Act) :
    Stored start (n.act a) := by
  by_cases ha : ∃ b, a = .rwb b
  · obtain ⟨b, rfl⟩ := ha
    unfold Node.act
    split
    · exact hn
    · exact rwbAct_stored h hN hn hb b
  -- the other threads leave what is written and sent
  obtain ⟨hr, -, hw⟩ := act_progress n a fun b hb => ha ⟨b, hb⟩
  have hsent : ∀ w ∈ n.sent, w ∈ (n.act a).sent := by
    simp only [Node.sent, hr, hw]
    exact fun _ hw => hw
  refine ⟨by rw [hr, hw]; exact hn.unsent, ?_⟩
  revert hsent
  unfold Node.act
  split
  · exact fun _ => hn.commits
  intro hsent
  cases a with
  | write a =>
    refine hn.commits.of_eq (writeAct_commits n a) ?_ hsent
    cases a <;> simp only [Node.writeAct] <;> repeat' split
    all_goals rfl
  | relay k a =>
    refine hn.commits.of_eq (relayAct_commits n k a) ?_ hsent
    cases a <;> simp only [Node.relayAct] <;> repeat' split
    all_goals rfl
  | rwb b => exact absurd ⟨b, rfl⟩ ha
  | ack k a => exact ackAct_committedOnce hn.commits h0 hs (fun w hw => hb w (mem_written_of_sent hw)) k a
  | ackLogEntry r => exact hn.commits.of_eq rfl rfl fun _ hw => hw

/-- commit `k` is of entry `k` of the head's list -/
theorem Stored.committed_eq (h : PathInv start N n.path) (hN : Consecutive start N) (hs : Stored start n) :
    n.committed.length ≤ n.written.length ∧
      n.committed = (N.take n.committed.length).map fun e => (e.seqNum, e.volumeOffset) := by
  have hentry : ∀ (k : ℕ) (c : ℤ × Int64), n.committed[k]? = some c →
      ∃ w, n.written[k]? = some w ∧ c = (w.seqNum, w.volumeOffset) := by
    intro k c hc
    obtain ⟨⟨w, hw, rfl⟩, -⟩ := hs.commits.done c (List.mem_of_getElem? hc)
    exact ⟨w, (h.consecutive hN).getElem? (mem_written_of_sent hw) (hs.commits.numbers k _ hc), rfl⟩
  have hle : n.committed.length ≤ n.written.length := by
    by_contra hlt
    obtain ⟨w, hw, -⟩ := hentry n.written.length _ (List.getElem?_eq_getElem (not_le.1 hlt))
    exact absurd (List.getElem?_eq_some_iff.1 hw).1 (lt_irrefl _)
  have hw : n.written = N.take (n.path.writtenSeq - start).toNat := h.written
  refine ⟨hle, List.ext_getElem? fun k => ?_⟩
  by_cases hk : k < n.committed.length
  · obtain ⟨w, hwk, hc⟩ := hentry k _ (List.getElem?_eq_getElem hk)
    have hwN : N[k]? = some w := by
      rw [hw, List.getElem?_take] at hwk
      exact (ite_eq_iff.1 hwk).elim And.right fun h => by cases h.2
    rw [List.getElem?_eq_getElem hk, hc, List.getElem?_map, List.getElem?_take_of_lt hk, hwN]
    rfl
  · rw [List.getElem?_eq_none (not_lt.1 hk), List.getElem?_map, List.getElem?_take_eq_none (not_lt.1 hk)]
    rfl

end Node

/-! ## The chain -/

/-- a stable chain, with what its nodes have stored -/
structure InStep (n start : ℕ) (log : ReplayLog) (s : Nodes) : Prop where
  order : InOrder n start log s
  stored : ∀ i < n, Stored start (s i)

section Chain

variable {n start : ℕ} {log : ReplayLog} {s : Nodes}

theorem InStep.bounds (h : InStep n start log s) {i : ℕ} (hi : i < n) (w : Entry) (hw : w ∈ (s i).written) :
    0 ≤ w.seqNum ∧ w.seqNum < 2 ^ 31 := by
  have hpath := h.order.path.node i hi
  obtain ⟨-, hlo, hhi⟩ := hpath.of_mem_written h.order.path.head.numbering hw
  have hb := h.order.bounded
  have hup := hpath.upper
  unfold Bounded at hb
  omega

theorem inStep_step (hn : 0 < n) (hs : start < 2 ^ 31) (h : InStep n start log s) (e : Event) (hr : Rules s e) :
    InStep n start log (step s e) := by
  obtain ⟨hp, hback, hb⟩ := h.order
  refine ⟨⟨onPath_step hp hn e hr.2, onReturn_step hback hp hb e, bounded_step hp hb e hr.1⟩, fun i hi => ?_⟩
  refine step_node_inv (Stored start) s e i (h.stored i hi) (fun a _ => ?_) fun x w hx => wire_stored hx w
  exact act_stored (hp.node i hi) hp.head.numbering (by omega) (by omega) (h.stored i hi) (h.bounds hi) a

theorem idle_stored {state : State} {up down : Option ℕ} {head : Bool} {acks : List AckThread}
    (hacks : ∀ t ∈ acks, t.phase = .start) : Stored start (Node.idle state up down head start log acks) := by
  have hstart : ∀ (k : ℕ) (t : AckThread), acks[k]? = some t → t.phase = .start :=
    fun k t hk => hacks t (List.mem_of_getElem? hk)
  refine ⟨by simp [Node.idle, Rwb.unsent], by simp [Node.idle], by simp [Node.idle], by simp [Node.idle], le_rfl,
    fun k t hk hr => ?_, fun k t hk hh => ?_, fun k t e hk he => ?_, fun k m t u hk _ hh => ?_,
    fun _ => by simp [Node.idle], fun t ht hb => ?_⟩
  · rw [hstart k t hk] at hr; cases hr
  · rw [hstart k t hk] at hh; cases hh
  · rw [hstart k t hk] at he; cases he
  · rw [hstart k t hk] at hh; cases hh
  · rw [hacks t ht] at hb; cases hb

theorem inStep_run (hn : 0 < n) (hs : start < 2 ^ 31) (log : ReplayLog) (es : List Event)
    (hm : Meets step Rules (stable n start log) es) : InStep n start log (run step (stable n start log) es) := by
  refine run_inv_of_meets step Rules (InStep n start log) (fun s e h hr => inStep_step hn hs h e hr) _ es ?_ hm
  refine ⟨inOrder_run n start hn hs log [] trivial, fun i _ => ?_⟩
  unfold stable
  split_ifs <;> exact idle_stored (by simp)

/-- for neighbours, the upstream node has committed at most what the downstream one has -/
theorem InStep.committed_le (h : InStep n start log s) {i : ℕ} (hi : i + 1 < n) :
    (s i).committed.length ≤ (s (i + 1)).committed.length := by
  obtain ⟨hcommit, hhandler⟩ := h.order.back.link i hi
  have hu := (h.stored i (by omega)).commits
  have hd := (h.stored (i + 1) hi).commits.length_le
  by_cases hall : ∀ t ∈ (s i).acks, t.phase.unbumped = false
  · have := hu.settled hall
    omega
  -- the thread that has committed and not yet changed `commitSeq` handles an ack of the downstream node
  · push Not at hall
    obtain ⟨t, ht, hb⟩ := hall
    have hb : t.phase.unbumped = true := by simpa using hb
    obtain ⟨k, hk⟩ := List.mem_iff_getElem?.1 ht
    have hnum := (hu.held k t hk (AckPhase.holds_of_unbumped hb)).1
    have hlen := hu.unbumped t ht hb
    have hle := (hhandler k t hk).2
    omega

/-! ## The abstract chain -/

/-- the chain as a replicated log -/
def view (n start : ℕ) (p : ℕ → Progress) : LogChain.State Entry where
  log := (p 0).numbered
  taken i := if i < n then ((p i).top - start).toNat else 0
  applied i := if i < n then (p i).written.length else 0
  committed i := if i < n then (p i).committed.length else 0

def Nodes.view (n start : ℕ) (s : Nodes) : LogChain.State Entry := Chain.view n start fun i => (s i).progress

/-- what the invariants say about the four numbers -/
theorem InStep.ordered (h : InStep n start log s) : Ordered n (s.view n start) := by
  have hhead := h.order.path.head.numbering
  refine ⟨fun i hi => ?_, fun i hi => ?_, fun i hi => ?_, fun i hi => ?_⟩
  · have hnode := h.order.path.node i hi
    have htop := hnode.top_le hhead
    cases i with
    | zero =>
      simp only [Nodes.view, view, LogChain.State.offered, if_pos hi, Node.progress]
      omega
    | succ i =>
      have hlink : (s (i + 1)).path.top ≤ (s i).path.top := (h.order.path.link i hi).top
      have hi' : i < n := by omega
      simp only [Nodes.view, view, LogChain.State.offered, if_pos hi, if_pos hi', Node.progress]
      omega
  · have hlen := (h.order.path.node i hi).written_le_top
    simp only [Nodes.view, view, if_pos hi, Node.progress]
    omega
  · simp only [Nodes.view, view, if_pos hi, Node.progress]
    exact (Stored.committed_eq (h.order.path.node i hi) hhead (h.stored i hi)).1
  · have hi' : i < n := by omega
    simp only [Nodes.view, view, if_pos hi, if_pos hi', Node.progress]
    exact h.committed_le hi

/-- one number of every replica, when one of them changes -/
theorem ite_update {p : ℕ → Progress} {i : ℕ} (hi : i < n) (q : Progress) (g : Progress → ℕ) :
    (fun j => if j < n then g (Function.update p i q j) else 0) =
      Function.update (fun j => if j < n then g (p j) else 0) i (g q) := by
  funext j
  by_cases hj : j = i
  · subst hj; simp [hi]
  · simp [Function.update_of_ne hj]

theorem view_update {p : ℕ → Progress} {i : ℕ} (hi : i < n) (q : Progress) :
    view n start (Function.update p i q) = ⟨(Function.update p i q 0).numbered,
      Function.update (view n start p).taken i (q.top - start).toNat,
      Function.update (view n start p).applied i q.written.length,
      Function.update (view n start p).committed i q.committed.length⟩ := by
  simp only [view, ite_update hi q fun p => (p.top - start).toNat, ite_update hi q fun p => p.written.length,
    ite_update hi q fun p => p.committed.length]

/-- a node that is not the head, or numbers nothing, leaves the log -/
theorem update_numbered {p : ℕ → Progress} {i : ℕ} {q : Progress} (h : i = 0 → q.numbered = (p 0).numbered) :
    (Function.update p i q 0).numbered = (p 0).numbered := by
  by_cases hi : i = 0
  · rw [hi, Function.update_self, h hi]
  · rw [Function.update_of_ne (Ne.symm hi)]

/-- **A step forward of one node is a move of the abstract chain**, as both states are in order -/
theorem Advance.move {p : ℕ → Progress} {i : ℕ} {q : Progress} (hi : i < n) (hadv : Advance (p i) q)
    (htop : start ≤ (p i).top) (hafter : Ordered n (view n start (Function.update p i q))) :
    Move n (view n start p) (view n start (Function.update p i q)) := by
  have ht : (view n start p).taken i = ((p i).top - start).toNat := if_pos hi
  have ha : (view n start p).applied i = (p i).written.length := if_pos hi
  have hc : (view n start p).committed i = (p i).committed.length := if_pos hi
  rw [view_update hi] at hafter ⊢
  generalize hpi : p i = r at *
  cases hadv with
  | stay =>
    rw [update_numbered fun h => by rw [← hpi, h], ← ht, ← ha, ← hc]
    simp only [Function.update_eq_self]
    exact .stay _
  | number e =>
    simp only [← ht, ← ha, ← hc, Function.update_eq_self]
    by_cases h0 : i = 0
    · subst h0
      rw [Function.update_self, ← hpi]
      exact .append _ e
    · rw [Function.update_of_ne (Ne.symm h0)]
      exact .stay _
  | take =>
    have hsucc : (r.top + 1 - start).toNat = (view n start p).taken i + 1 := by omega
    rw [update_numbered fun h => by rw [← hpi, h]] at hafter ⊢
    simp only [← ha, ← hc, Function.update_eq_self, hsucc] at hafter ⊢
    refine .take _ i hi (Nat.lt_of_succ_le ?_)
    have hle := hafter.taken i hi
    cases i with
    | zero =>
      have hlog : (view n start p).taken 0 + 1 ≤ (p 0).numbered.length := by
        simpa [LogChain.State.offered] using hle
      exact hlog
    | succ i => simpa [LogChain.State.offered] using hle
  | write e =>
    rw [update_numbered fun h => by rw [← hpi, h]] at hafter ⊢
    simp only [← ht, ← ha, ← hc, Function.update_eq_self, List.length_append, List.length_singleton] at hafter ⊢
    exact .apply _ i hi (Nat.lt_of_succ_le (by simpa using hafter.applied i hi))
  | commit c =>
    rw [update_numbered fun h => by rw [← hpi, h]] at hafter ⊢
    simp only [← ht, ← ha, ← hc, Function.update_eq_self, List.length_append, List.length_singleton] at hafter ⊢
    refine .commit _ i hi (Nat.lt_of_succ_le (by simpa using hafter.committed i hi)) fun hnext => ?_
    have hle := hafter.next i hnext
    simp only [Function.update_self, Function.update_of_ne (Nat.succ_ne_self i)] at hle
    exact Nat.lt_of_succ_le hle

/-- **Every event of the chain is a move of the abstract one.** -/
theorem step_refines (hn : 0 < n) (hs : start < 2 ^ 31) (h : InStep n start log s) (e : Event) (hr : Rules s e) :
    Move n (s.view n start) ((step s e).view n start) := by
  have hafter := (inStep_step hn hs h e hr).ordered
  by_cases hact : ∃ i a, e = .act i a
  · obtain ⟨i, a, rfl⟩ := hact
    have hupdate : (fun j => (step s (.act i a) j).progress) =
        Function.update (fun j => (s j).progress) i ((s i).act a).progress := by
      funext j
      simp only [step]
      exact Function.apply_update (fun _ => Node.progress) s i _ j
    unfold Nodes.view at hafter ⊢
    rw [hupdate] at hafter ⊢
    by_cases hi : i < n
    · have hnode := h.order.path.node i hi
      exact (act_advance hnode a).move hi (hnode.lower.trans hnode.writeSeq_le_top.1) hafter
    -- nodes outside the chain do not count
    · have hsame : view n start (Function.update (fun j => (s j).progress) i ((s i).act a).progress) =
          view n start fun j => (s j).progress := by
        have hne : ∀ j < n, Function.update (fun j => (s j).progress) i ((s i).act a).progress j = (s j).progress :=
          fun j hj => Function.update_of_ne (by omega) _ _
        simp only [view, LogChain.State.mk.injEq]
        refine ⟨by rw [hne 0 hn], ?_, ?_, ?_⟩ <;> funext j <;> split_ifs with hj <;> simp only [hne j, hj]
      rw [hsame]
      exact .stay _
  · have hsame : (fun j => (step s e j).progress) = fun j => (s j).progress := by
      funext j
      exact step_node_inv (fun x => x.progress = (s j).progress) s e j rfl (fun a ha => absurd ⟨j, a, ha⟩ hact)
        fun x w hx => (wire_progress x w).trans hx
    unfold Nodes.view
    rw [hsame]
    exact .stay _

/-- the run of a stable chain is one of the abstract chain -/
theorem run_refines (hn : 0 < n) (hs : start < 2 ^ 31) (es : List Event) (h : InStep n start log s)
    (hm : Meets step Rules s es) : Moves n (s.view n start) ((run step s es).view n start) := by
  induction es generalizing s with
  | nil => exact .refl
  | cons e es ih =>
    obtain ⟨hr, hm⟩ := hm
    exact .head (step_refines hn hs h e hr) (ih (inStep_step hn hs h e hr) hm)

theorem view_stable (n start : ℕ) (log : ReplayLog) : (stable n start log).view n start = .empty := by
  have hp : ∀ i, (stable n start log i).progress = ⟨[], start, [], []⟩ := by
    intro i
    unfold stable
    split_ifs <;> rfl
  simp [Nodes.view, view, hp, LogChain.State.empty]

/-- what the numbers of the abstract chain say about a node -/
theorem InStep.stored_eq (h : InStep n start log s) {i : ℕ} (hi : i < n) :
    (s i).written = (s 0).numbered.take ((s.view n start).applied i) ∧
      (s i).committed = ((s 0).numbered.take ((s.view n start).committed i)).map fun e => (e.seqNum, e.volumeOffset) := by
  have hnode := h.order.path.node i hi
  have hw : (s i).written = (s 0).numbered.take ((s i).path.writtenSeq - start).toNat := hnode.written
  have hlen : ((s i).path.writtenSeq - start).toNat = (s i).written.length := by
    have := hnode.written_le_top.1
    omega
  rw [hlen] at hw
  have ha : (s.view n start).applied i = (s i).written.length := if_pos hi
  have hc : (s.view n start).committed i = (s i).committed.length := if_pos hi
  rw [ha, hc]
  exact ⟨hw, (Stored.committed_eq hnode h.order.path.head.numbering (h.stored i hi)).2⟩

end Chain

/-- **A stable chain is a replicated log.** Every run that keeps the rules is a run of the abstract chain, from every
state on. A node has written and committed as many entries of the head's list, from its start, as the abstract chain
says. What any node has committed it has committed for good, every node behind it has committed that too, and every node
has popped it from its pending queue. -/
theorem chain_refines (n start : ℕ) (hn : 0 < n) (hs : start < 2 ^ 31) (es es' : List Event)
    (hm : Meets step Rules (stable n start ReplayLog.empty) (es ++ es')) :
    let s := run step (stable n start ReplayLog.empty) es
    let s' := run step s es'
    Moves n .empty (s.view n start) ∧ Moves n (s.view n start) (s'.view n start) ∧
      (∀ i < n, (s' i).written = (s' 0).numbered.take ((s'.view n start).applied i) ∧
        (s' i).committed =
          ((s' 0).numbered.take ((s'.view n start).committed i)).map fun e => (e.seqNum, e.volumeOffset)) ∧
      ∀ i < n, (s i).committed <+: (s' i).committed ∧ (∀ j < n, i ≤ j → (s i).committed <+: (s' j).committed) ∧
        ∀ j < n, start + (s i).committed.length ≤ (s' j).path.top := by
  intro s s'
  obtain ⟨hm, hm'⟩ := (meets_append _ _ _ _ _).1 hm
  have h : InStep n start ReplayLog.empty s := inStep_run hn hs _ es hm
  have h' : InStep n start ReplayLog.empty s' :=
    run_inv_of_meets step Rules _ (fun s e h hr => inStep_step hn hs h e hr) _ es' h hm'
  have hmoves := run_refines hn hs es (inStep_run hn hs ReplayLog.empty [] trivial) hm
  have hmoves' := run_refines hn hs es' h hm'
  rw [run_nil, view_stable] at hmoves
  have hordered : Ordered n (s'.view n start) := ordered_moves (ordered_moves (ordered_empty n) hmoves) hmoves'
  have hgrow := LogChain.moves_grow hmoves'
  have hkept : ∀ i < n, (s i).committed <+: (s' i).committed := by
    intro i hi
    rw [(h.stored_eq hi).2, (h'.stored_eq hi).2]
    exact ((hgrow.log.take _).trans (List.take_prefix_take_left (hgrow.committed i))).map _
  have hc : ∀ i < n, (s.view n start).committed i = (s i).committed.length := fun i hi => if_pos hi
  refine ⟨hmoves, hmoves', fun i hi => h'.stored_eq hi, fun i hi => ⟨hkept i hi, fun j hj hij => ?_, fun j hj => ?_⟩⟩
  · refine (hkept i hi).trans ?_
    rw [(h'.stored_eq hi).2, (h'.stored_eq hj).2]
    exact (hordered.committed_prefix hij hj).map _
  · have hle : (s i).committed.length ≤ (s'.view n start).taken j := by
      calc (s i).committed.length = (s.view n start).committed i := (hc i hi).symm
        _ ≤ (s'.view n start).committed i := hgrow.committed i
        _ ≤ (s'.view n start).taken j := hordered.committed_le_taken hi hj
    have ht : (s'.view n start).taken j = ((s' j).path.top - start).toNat := if_pos hj
    have hnode := h'.order.path.node j hj
    have htop := hnode.lower.trans hnode.writeSeq_le_top.1
    omega

theorem chain_refines_two_nodes :
    Moves 2 .empty ((run step (stable 2 0 ReplayLog.empty) downAndBack).view 2 0) ∧
      ((run step (stable 2 0 ReplayLog.empty) downAndBack).view 2 0).committed 0 = 1 := by
  have hm : Meets step Rules (stable 2 0 ReplayLog.empty) (downAndBack ++ []) := by decide +kernel
  exact ⟨(chain_refines 2 0 (by decide) (by decide) downAndBack [] hm).1, by decide +kernel⟩

end ChainedBlockStorage.Chain
