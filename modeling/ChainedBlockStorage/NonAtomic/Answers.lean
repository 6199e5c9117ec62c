/-
What the callers of the two volumes see.

- `same_answers`: every read, `read_sequence_number` and `get_sequence_number` returns the same on both, in every in-order
  run that keeps to the conditions of `Mirror` and asks for an uncommitted write at one of its own blocks.
- `commit_keeps_second_pending`: `commit` of `storage.cpp` erases one pending block of an unaligned write, `commit` of
  `storage-nonatomic.cpp` both, and a later uncommitted write of the second block is only read on one side.
-/
import ChainedBlockStorage.NonAtomic.Mirror

namespace ChainedBlockStorage.NonAtomic

open Run
open Storage (Block Buf File Op InRange blockOf remOf Touches JunkUnused blockSize inRange_parts inRange_tmod inRange_base block_next)

/-! ## Reading -/

section Read

variable {s : Storage.Driver} {t : Driver}

theorem Mirror.read_eq (h : Mirror s t) {off : ℤ} (ho : InRange off) : read t.vol off = Storage.read s.vol off := by
  obtain ⟨hoff, hr, hb0, hb1⟩ := inRange_parts ho
  have htmod := inRange_tmod ho
  have hoff0 := inRange_base ho
  have hoff1 := block_next (blockOf off)
  by_cases hr0 : remOf off = 0
  · have hoff' : off = 4096 * blockOf off := by omega
    rw [hoff', read_aligned, Storage.read_aligned]
    exact h.readAligned_eq hb0
  · simp only [read, Storage.read, Storage.blockSize_eq, Nat.cast_ofNat, htmod, hoff0, hoff1, h.readAligned_eq hb0,
      h.readAligned_eq (hb1 hr0), ne_eq, Nat.cast_eq_zero, hr0, not_false_eq_true, if_true]

/-- an offset at a block of write `w`, with a second one only if the write has it -/
def OwnBlocks (w : ℤ × Buf) (off : ℤ) : Prop := blockOf off = blockOf w.1 ∧ (remOf off ≠ 0 → remOf w.1 ≠ 0)

/-- an uncommitted write is asked for at its own blocks -/
def OwnOffset (s : Storage.Driver) (seqNum off : ℤ) : Prop :=
  ∀ k w, s.committed ≤ k → s.writes[k]? = some w → seqNum = s.start + k + 1 → OwnBlocks w off

theorem Mirror.readSequenceNumber_eq (h : Mirror s t) {seqNum off : ℤ} (ho : InRange off)
    (hown : OwnOffset s seqNum off) :
    readSequenceNumber t.vol seqNum off = Storage.readSequenceNumber s.vol seqNum off := by
  by_cases hnum : ∃ k : ℕ, s.committed ≤ k ∧ k < s.writes.length ∧ seqNum = s.start + k + 1
  swap
  · have hs : s.vol.uncommittedWrites seqNum = none := h.traced.sound.none fun k hc hk e =>
      hnum ⟨k - 1, by omega, by omega, by rw [e]; omega⟩
    have ht : t.vol.uncommittedWrites seqNum = none := by
      rw [Option.eq_none_iff_forall_ne_some]
      intro uw huw
      have hex := (h.owned.some_iff seqNum).1 ⟨uw, huw⟩
      rw [h.committed, h.writes, h.start] at hex
      exact hnum hex
    rw [readSequenceNumber, ht, Storage.readSequenceNumber, hs]
  obtain ⟨k, hc, hk, hseq⟩ := hnum
  have hw : s.writes[k]? = some s.writes[k] := List.getElem?_eq_getElem hk
  set w := s.writes[k]
  obtain ⟨hblock, hrem⟩ := hown k w hc hw hseq
  obtain ⟨uwA, huA, hroot, -⟩ := h.traced.sound.uncommitted (k := k + 1) (by omega) hk
  have huA' : s.vol.uncommittedWrites seqNum = some uwA := by rw [← huA, hseq]; congr 1; push_cast; ring
  have hone := h.traced.sound.oneRoot _ uwA huA'
  have hck : t.committed ≤ k := h.committed ▸ hc
  have hkt : k < t.writes.length := h.writes ▸ hk
  obtain ⟨uw, hu⟩ := h.owned.uncommitted hck hkt
  have hu' : t.vol.uncommittedWrites seqNum = some uw := by rw [hseq, ← h.start]; exact hu
  have how : InRange w.1 := h.owned.inRange w (by rw [h.writes]; exact List.mem_of_getElem? hw)
  obtain ⟨hoff, hr, -, -⟩ := inRange_parts ho
  have htmod := inRange_tmod ho
  -- one part on both sides
  have hpart : ∀ i, Part w.1 i → (t.vol.file.block (uw.newFileOffset i)).asBytes =
      Storage.uncommittedBlock s.vol.file (s.root (k + 1)) (4096 * (blockOf w.1 + i : ℕ)) := by
    intro i hi
    have hb := hi.lt how
    have hT : Touches (blockOf w.1 + i) w := (touches_iff_part how w.2 _).2 ⟨i, hi, rfl⟩
    have hne : (s.leaf (k + 1) (blockOf w.1 + i)).num ≠ 0 := (h.traced.num (k + 1) (by omega) hk _ hb).2
      ((Storage.lastTouch_ne_zero _ _ _).2 ⟨k, Nat.lt_succ_self k, w, hw, hT⟩)
    have hdata : t.dataNum k i = uw.newFileOffset i := by rw [Driver.dataNum, hu]; rfl
    rw [← hdata, h.parts k w i hc hw hi]
    exact (Storage.uncommittedBlock_eq _ _ _ hne).symm
  have h0 := hpart 0 (Or.inl rfl)
  simp only [add_zero, ← hblock] at h0
  by_cases hr0 : remOf off = 0
  · have hoff' : off = 4096 * blockOf off := by omega
    simp only [readSequenceNumber, Storage.readSequenceNumber, hu', huA', Storage.blockSize_eq, Nat.cast_ofNat, htmod, hr0,
      Nat.cast_zero, ne_eq, not_true_eq_false, if_false, h0, hroot]
    rw [← hoff']
  · have h1 := hpart 1 (Or.inr ⟨rfl, hrem hr0⟩)
    rw [← hblock] at h1
    have hoff0 := inRange_base ho
    have hoff1 := block_next (blockOf off)
    simp only [readSequenceNumber, Storage.readSequenceNumber, hu', huA', Storage.blockSize_eq, Nat.cast_ofNat, htmod,
      hoff0, hoff1, h0, h1, hroot, hone, ne_eq, Nat.cast_eq_zero, hr0, not_false_eq_true, if_true]

end Read

/-! ## Calls -/

/-- a call of `storage.hpp` -/
inductive Ask where
  | op (o : Op)
  | read (volumeOffset : ℤ)
  | readSequenceNumber (seqNum volumeOffset : ℤ)
  | getSequenceNumber

inductive Answer where
  | bytes (b : Buf)
  | found (b : Option Buf)
  | number (n : ℤ)

structure Both where
  atomic : Storage.Driver
  nonAtomic : Driver
  /-- the answers of the two so far, in pairs -/
  answers : List (Answer × Answer)

def Both.answer (p : Both) (a a' : Answer) : Both := { p with answers := p.answers ++ [(a, a')] }

def Both.step (p : Both) : Ask → Both
  | .op o => { p with atomic := p.atomic.step o, nonAtomic := p.nonAtomic.step o }
  | .read off =>
    if InRange off then p.answer (.bytes (Storage.read p.atomic.vol off)) (.bytes (read p.nonAtomic.vol off)) else p
  | .readSequenceNumber n off =>
    if InRange off then
      p.answer (.found (Storage.readSequenceNumber p.atomic.vol n off)) (.found (readSequenceNumber p.nonAtomic.vol n off))
    else p
  | .getSequenceNumber =>
    p.answer (.number (Storage.getSequenceNumber p.atomic.vol)) (.number (getSequenceNumber p.nonAtomic.vol))

/-- both after `init_volume` on a new file -/
def Both.new (start : ℤ) : Both := ⟨Storage.Driver.open start (Storage.initVolume File.new), Driver.new start, []⟩

/-- the unassigned numbers of `storage.cpp` name no block in use -/
def Both.JunkUnused (p : Both) : Ask → Prop
  | .op o => Storage.JunkUnused p.atomic o
  | _ => True

/-- the conditions on a call -/
def Both.Allowed (p : Both) : Ask → Prop
  | .op o => Storage.JunkUnused p.atomic o ∧ NoDoubleFree p.nonAtomic o ∧ CommitKept p.atomic o
  | .readSequenceNumber n off => InRange off → OwnOffset p.atomic n off
  | .read _ | .getSequenceNumber => True

/-- no two answers differ -/
def Both.Same (p : Both) : Prop := ∀ a ∈ p.answers, a.1 = a.2

theorem Both.Same.answer {p : Both} (h : p.Same) {x y : Answer} (e : x = y) : (p.answer x y).Same := by
  intro a ha
  rcases List.mem_append.1 ha with ha | ha
  · exact h a ha
  · rw [List.mem_singleton.1 ha]
    exact e

theorem step_same (p : Both) (a : Ask) (h : Mirror p.atomic p.nonAtomic ∧ p.Same) (hc : p.Allowed a) :
    Mirror (p.step a).atomic (p.step a).nonAtomic ∧ (p.step a).Same := by
  obtain ⟨hm, hs⟩ := h
  cases a with
  | op o => exact ⟨step_mirror o hm hc.1 hc.2.1 hc.2.2, hs⟩
  | read off =>
    simp only [Both.step]
    split
    · next ho => exact ⟨hm, hs.answer (congrArg Answer.bytes (hm.read_eq ho).symm)⟩
    · exact ⟨hm, hs⟩
  | readSequenceNumber n off =>
    simp only [Both.step]
    split
    · next ho => exact ⟨hm, hs.answer (congrArg Answer.found (hm.readSequenceNumber_eq ho (hc ho)).symm)⟩
    · exact ⟨hm, hs⟩
  | getSequenceNumber => exact ⟨hm, hs.answer (congrArg Answer.number hm.number.symm)⟩

/-- **The same answers.** -/
theorem same_answers (start : ℤ) (es : List Ask) (hc : Meets Both.step Both.Allowed (Both.new start) es) :
    (run Both.step (Both.new start) es).Same :=
  (run_inv_of_meets Both.step Both.Allowed (fun p => Mirror p.atomic p.nonAtomic ∧ p.Same) step_same (Both.new start) es
    ⟨mirror_new start, fun _ ha => absurd ha List.not_mem_nil⟩ hc).2

/-- two overlapping uncommitted writes, asked for before and after a commit -/
def alike : List Ask := [.op Storage.firstOp, .op Storage.secondOp, .readSequenceNumber 2 0, .op .commit, .read 0]

/-- a write of blocks without entries frees nothing -/
theorem freedOnce_of_zero {t : Driver} (h : Owned t) {off : ℤ}
    (hz : ∀ i, Part off i → entryNum t.vol.file (blockOf off + i) = 0) : FreedOnce t off := by
  intro i hi k hx
  have hlow := h.toFree_low hx
  rw [hz i hi] at hlow
  omega

theorem same_answers_alike : (run Both.step (Both.new 0) alike).Same := by
  apply same_answers 0 alike
  have h0 := owned_new 0
  have hf0 : FreedOnce (Driver.new 0) 100 := freedOnce_of_zero h0 fun i hi => entryNum_new 0 (hi.lt (by decide))
  have h1 : Owned ((Driver.new 0).step Storage.firstOp) := step_owned _ _ h0 fun _ => hf0
  obtain ⟨uw, hs⟩ := step_written h0 (show InRange 100 by decide) (fun _ => 7) fun _ => 0
  have hf1 : FreedOnce ((Driver.new 0).step Storage.firstOp) 0 := freedOnce_of_zero h1 fun i hi => by
    have hlt := hi.lt (show InRange 0 by decide)
    exact (hs.entryNum_eq hlt).trans (entryNum_new 0 hlt)
  refine ⟨⟨Storage.junkUnused_firstOp _, fun _ => hf0, trivial⟩, ⟨Storage.junkUnused_secondOp _, fun _ => hf1, trivial⟩,
    fun _ k w _ hw hk => ?_, ⟨trivial, trivial, fun w hw _ w' hw' => ?_⟩, trivial, trivial⟩
  · change (2 : ℤ) = 0 + k + 1 at hk
    obtain rfl : k = 1 := by omega
    cases hw
    exact ⟨rfl, fun hr => hr⟩
  · cases hw
    change w' ∈ [((0 : ℤ), fun _ => (8 : UInt8))] at hw'
    rw [List.mem_singleton.1 hw']
    decide

/-! ## A difference -/

/-- between two answers, each volume is in a run of its own -/
theorem both_ops (p : Both) (ops : List Op) : run Both.step p (ops.map Ask.op) =
    { p with atomic := run Storage.Driver.step p.atomic ops, nonAtomic := run Driver.step p.nonAtomic ops } := by
  induction ops generalizing p with
  | nil => rfl
  | cons o ops ih =>
    rw [List.map_cons, run_cons, ih]
    rfl

/-- a read after writes and commits -/
theorem same_read {p : Both} {ops : List Op} {off : ℤ} (ho : InRange off)
    (h : (run Both.step p (ops.map Ask.op ++ [.read off])).Same) :
    Storage.read (run Storage.Driver.step p.atomic ops).vol off = read (run Driver.step p.nonAtomic ops).vol off := by
  rw [run_snoc, both_ops, Both.step, if_pos ho] at h
  have he := h _ (List.mem_append_right _ (List.mem_singleton_self _))
  injection he

/-- write 1 fills half of block 1, write 2 all of it, and write 1 is committed -/
def secondPending : List Op := [Storage.firstOp, .write (fun _ => 8) 4096 fun _ => 0, .commit]

theorem nonAtomic_reads_first : read (run Driver.step (Driver.new 0) secondPending).vol 4096 0 = 7 := by
  rw [Driver.new, Driver.open, initVolume_new]
  decide +kernel

theorem atomic_reads_second :
    Storage.read (run Storage.Driver.step Storage.Driver.new secondPending).vol 4096 0 = 8 := by
  decide +kernel

/-- **Two answers.** After the commit of write 1 one volume reads write 2 in block 1, the other one write 1. -/
theorem commit_keeps_second_pending :
    Meets Both.step Both.JunkUnused (Both.new 0) (secondPending.map Ask.op ++ [.read 4096]) ∧
      ¬ (run Both.step (Both.new 0) (secondPending.map Ask.op ++ [.read 4096])).Same := by
  constructor
  · exact ⟨Storage.junkUnused_firstOp _, Storage.junkUnused_low (b := 1) (by decide) _ _ _, trivial, trivial, trivial⟩
  · intro h
    have hread := congrFun (same_read (by decide) h) 0
    have hsame : (8 : UInt8) = 7 := atomic_reads_second.symm.trans (hread.trans nonAtomic_reads_first)
    exact absurd hsame (by decide)

end ChainedBlockStorage.NonAtomic
