/-
`pending_blocks` of `storage.cpp` against the uncommitted writes.

A write adds an entry for each of its blocks. Its commit erases the one of its first block, also if a later uncommitted
write has replaced it; and it would erase the one of its second block if its two roots differed, which they never do.

- `Tracker`: an in-order run with the data blocks that each write was given.
- `pending_exact_iff`: the runs in which `pending_blocks` has an entry exactly for the blocks of uncommitted writes, and
  this is the data block of the latest one. Nothing is assumed of the unassigned numbers.
- `pending_stays`: after the commit of an unaligned write its second block is still pending.
-/
import ChainedBlockStorage.Storage.Leaves
import ChainedBlockStorage.Storage.Open

namespace ChainedBlockStorage.Storage

open Positions Run

/-! ## What a write leaves pending -/

@[simp] theorem getFreeBlockNum_pending (c : Call) :
    c.getFreeBlockNum.2.vol.pendingBlocks = c.vol.pendingBlocks := (getFreeBlockNum_same c.vol).pending

@[simp] theorem newBlockNums_pending (c : Call) (same two : Bool) (junk : ℤ) :
    (c.newBlockNums same two junk).2.vol.pendingBlocks = c.vol.pendingBlocks := by
  cases same <;> cases two <;> simp [Call.newBlockNums]

@[simp] theorem writeLevel_pending (c : Call) (same : Bool) (n : ℤ × ℤ) (b : Words × Words) :
    (c.writeLevel same n b).vol.pendingBlocks = c.vol.pendingBlocks := by
  cases same <;> rfl

/-- the data blocks of a write, `file_offset` -/
def fileOffset (buf : Buf) (off : ℤ) (v : Volume) : ℕ → ℤ := (writeData buf off (Call.start v)).1

theorem write_pending (junk : ℕ → ℤ) (buf : Buf) {off : ℤ} (ho : InRange off) (seq : ℤ) (v : Volume) (o : ℤ) :
    (write junk buf off seq v).vol.pendingBlocks o =
      if remOf off ≠ 0 ∧ o = 4096 * (blockOf off + 1 : ℕ) then some (fileOffset buf off v 1)
      else if o = 4096 * blockOf off then some (fileOffset buf off v 0) else v.pendingBlocks o := by
  have hdata : (write junk buf off seq v).vol.pendingBlocks = (writeData buf off (Call.start v)).2.vol.pendingBlocks := by
    simp [write, writeMetadata, allocLevels]
  have htmod := inRange_tmod ho
  rw [hdata, fileOffset]
  by_cases hr : remOf off = 0
  · have hoff : off = 4096 * blockOf off := by
      have := (inRange_parts ho).1
      omega
    simp only [writeData, blockSize_eq, Nat.cast_ofNat, htmod, hr, Nat.cast_zero, ne_eq, not_true_eq_false, if_false,
      false_and, Call.setPending, Call.writeBlock, getFreeBlockNum_pending, if_true, ← hoff]
    rfl
  · simp only [writeData, blockSize_eq, Nat.cast_ofNat, htmod, inRange_base ho, block_next, ne_eq, Nat.cast_eq_zero, hr,
      not_false_eq_true, if_true, true_and, Call.setPending, Call.writeBlock, getFreeBlockNum_pending, one_ne_zero,
      if_false]
    rfl

/-! ## Runs with their data blocks -/

structure Tracker where
  drv : Driver
  /-- `file_offset` of each write, oldest first -/
  data : List (ℕ → ℤ)

def Tracker.new (start : ℤ) : Tracker := ⟨Driver.open start (initVolume File.new), []⟩

def Tracker.step (t : Tracker) (op : Op) : Tracker where
  drv := t.drv.step op
  data :=
    match op with
    | .write buf off _ => if InRange off then t.data ++ [fileOffset buf off t.drv.vol] else t.data
    | .commit => t.data

/-- write `w` at position `k` is the latest uncommitted one that touches block `b` -/
structure Latest (s : Driver) (b k : ℕ) (w : ℤ × Buf) : Prop where
  uncommitted : s.committed ≤ k
  write : s.writes[k]? = some w
  touches : Touches b w
  last : ∀ j, k < j → ∀ w', s.writes[j]? = some w' → ¬ Touches b w'

/-- an entry for every block of an uncommitted write and for no other offset, the data block of the latest write -/
structure PendingExact (t : Tracker) : Prop where
  inside : ∀ o d, t.drv.vol.pendingBlocks o = some d → ∃ b : ℕ, o = 4096 * b
  entry : ∀ b : ℕ, (∃ d, t.drv.vol.pendingBlocks (4096 * b) = some d) ↔ Uncommitted t.drv b
  latest : ∀ (b : ℕ) d, t.drv.vol.pendingBlocks (4096 * b) = some d →
    ∃ k w n, Latest t.drv b k w ∧ t.data[k]? = some n ∧ d = n (b - blockOf w.1)

structure PendingInv (t : Tracker) : Prop where
  sound : Sound True t.drv
  inRange : ∀ w ∈ t.drv.writes, InRange w.1
  length : t.data.length = t.drv.writes.length
  exact : PendingExact t

/-- a write behind the next one to commit touches block `b` -/
def TouchedLater (s : Driver) (b : ℕ) : Prop := ∃ w ∈ s.writes.drop (s.committed + 1), Touches b w

/-- a commit finds no later uncommitted write of its first block; and one of its second block, if it has one -/
def CommitExact (t : Tracker) : Op → Prop
  | .write _ _ _ => True
  | .commit => ∀ w, t.drv.writes[t.drv.committed]? = some w →
      ¬ TouchedLater t.drv (blockOf w.1) ∧ (remOf w.1 ≠ 0 → TouchedLater t.drv (blockOf w.1 + 1))

/-! ## A write -/

section Write

variable {s s' : Driver} {off : ℤ} {buf : Buf} {out : Call} {b : ℕ}

/-- a write is the latest one of its blocks -/
theorem Latest.new (hs : Written s s' off buf out) (hle : s.committed ≤ s.writes.length) (hT : Touches b (off, buf)) :
    Latest s' b s.writes.length (off, buf) := by
  refine ⟨?_, ?_, hT, fun j hj w hw => ?_⟩
  · rw [hs.committed]
    exact hle
  · rw [hs.writes]
    exact List.getElem?_concat_length
  · rw [hs.writes] at hw
    have hlt := (List.getElem?_eq_some_iff.1 hw).1
    rw [List.length_append, List.length_singleton] at hlt
    omega

/-- and other blocks keep theirs -/
theorem Latest.old {k : ℕ} {w : ℤ × Buf} (h : Latest s b k w) (hs : Written s s' off buf out)
    (hT : ¬ Touches b (off, buf)) : Latest s' b k w := by
  have hlt := (List.getElem?_eq_some_iff.1 h.write).1
  refine ⟨?_, ?_, h.touches, fun j hj w' hw' => ?_⟩
  · rw [hs.committed]
    exact h.uncommitted
  · rw [hs.writes, List.getElem?_append_left hlt]
    exact h.write
  · rw [hs.writes] at hw'
    rcases getElem?_of_concat_lt hw' with ⟨hw', -⟩ | ⟨-, rfl⟩
    · exact h.last j hj w' hw'
    · exact hT

end Write

theorem exact_written {t : Tracker} (h : PendingInv t) {off : ℤ} (ho : InRange off) (buf : Buf) (junk : ℕ → ℤ) :
    PendingExact (t.step (.write buf off junk)) := by
  have hs := step_write (s := t.drv) ho buf junk
  have hdata : (t.step (.write buf off junk)).data = t.data ++ [fileOffset buf off t.drv.vol] := if_pos ho
  have hpend : ∀ o, (t.step (.write buf off junk)).drv.vol.pendingBlocks o = _ := fun o =>
    (congrArg (fun v : Volume => v.pendingBlocks o) hs.vol).trans (write_pending junk buf ho _ _ o)
  have htouch := touches_iff ho buf
  have hle := h.sound.le
  set t' := t.step (.write buf off junk)
  have hdrv : t'.drv = t.drv.step (.write buf off junk) := rfl
  rw [← hdrv] at hs
  -- what is pending at a block
  have hblock : ∀ b : ℕ, t'.drv.vol.pendingBlocks (4096 * b) =
      if Touches b (off, buf) then some (fileOffset buf off t.drv.vol (b - blockOf off))
      else t.drv.vol.pendingBlocks (4096 * b) := by
    intro b
    have h0 : (4096 * b : ℤ) = 4096 * blockOf off ↔ b = blockOf off := by omega
    have h1 : (4096 * b : ℤ) = 4096 * (blockOf off + 1 : ℕ) ↔ b = blockOf off + 1 := by omega
    simp only [hpend, h0, h1, htouch]
    by_cases hb1 : remOf off ≠ 0 ∧ b = blockOf off + 1
    · rw [if_pos hb1, if_pos (Or.inr hb1), hb1.2, Nat.add_sub_cancel_left]
    · by_cases hb0 : b = blockOf off
      · rw [if_neg hb1, if_pos hb0, if_pos (Or.inl hb0), hb0, Nat.sub_self]
      · rw [if_neg hb1, if_neg hb0, if_neg (not_or.2 ⟨hb0, hb1⟩)]
  constructor
  case inside =>
    intro o d hd
    rw [hpend] at hd
    split_ifs at hd with h1 h0
    · exact ⟨_, h1.2⟩
    · exact ⟨_, h0⟩
    · exact h.exact.inside o d hd
  case entry =>
    intro b
    rw [uncommitted_written hs hle, hblock, ← h.exact.entry b]
    by_cases hT : Touches b (off, buf)
    · simp [hT]
    · simp [hT]
  case latest =>
    intro b d hd
    rw [hblock] at hd
    by_cases hT : Touches b (off, buf)
    · rw [if_pos hT, Option.some.injEq] at hd
      refine ⟨t.drv.writes.length, (off, buf), fileOffset buf off t.drv.vol, Latest.new hs hle hT, ?_, hd.symm⟩
      rw [hdata, ← h.length]
      exact List.getElem?_concat_length
    · rw [if_neg hT] at hd
      obtain ⟨k, w, n, hk, hn, rfl⟩ := h.exact.latest b d hd
      have hlt := (List.getElem?_eq_some_iff.1 hk.write).1
      refine ⟨k, w, n, hk.old hs hT, ?_, rfl⟩
      rw [hdata, List.getElem?_append_left (h.length ▸ hlt)]
      exact hn

/-! ## A commit -/

section Commit

variable {t : Tracker} {w : ℤ × Buf} {uw : UncommittedWrite} {c : Call}

/-- behind the latest write of a block there is no other -/
theorem Latest.not_later {s : Driver} {b : ℕ} (h : Latest s b s.committed w) : ¬ TouchedLater s b := by
  intro hT
  obtain ⟨w', hw', hT'⟩ := hT
  obtain ⟨i, hi⟩ := List.mem_iff_getElem?.1 hw'
  rw [List.getElem?_drop] at hi
  exact h.last _ (by omega) w' hi hT'

/-- a commit of another write leaves it the latest -/
theorem Latest.kept {s s' : Driver} {b k : ℕ} {w₀ : ℤ × Buf} (h : Latest s b k w₀) (hs : Committed s s' w uw c)
    (hne : k ≠ s.committed) : Latest s' b k w₀ where
  uncommitted := by
    have hge := h.uncommitted
    rw [hs.committed]
    omega
  write := by
    rw [hs.writes]
    exact h.write
  touches := h.touches
  last := by
    rw [hs.writes]
    exact h.last

/-- only the entry of the first block goes -/
theorem pending_committed (h : PendingInv t) (hs : Committed t.drv (t.drv.step .commit) w uw c) (o : ℤ) :
    (t.step .commit).drv.vol.pendingBlocks o =
      if o = 4096 * blockOf w.1 then none else t.drv.vol.pendingBlocks o :=
  hs.pending_eq (h.inRange w (List.mem_of_getElem? hs.write)) o

theorem uncommitted_committed (hs : Committed t.drv (t.drv.step .commit) w uw c) (b : ℕ) :
    Uncommitted (t.step .commit).drv b ↔ TouchedLater t.drv b := by
  have hdrv : (t.step .commit).drv = t.drv.step .commit := rfl
  rw [Uncommitted, TouchedLater, hdrv, hs.writes, hs.committed]

/-- the uncommitted writes are the next one and those behind it -/
theorem uncommitted_iff (hs : Committed t.drv (t.drv.step .commit) w uw c) (b : ℕ) :
    Uncommitted t.drv b ↔ Touches b w ∨ TouchedLater t.drv b := by
  obtain ⟨hlt, e⟩ := List.getElem?_eq_some_iff.1 hs.write
  rw [Uncommitted, TouchedLater, List.drop_eq_getElem_cons hlt, e]
  simp only [List.mem_cons, or_and_right, exists_or, exists_eq_left]

theorem exact_committed (h : PendingInv t) (hs : Committed t.drv (t.drv.step .commit) w uw c)
    (hc : CommitExact t .commit) : PendingExact (t.step .commit) := by
  have ho : InRange w.1 := h.inRange w (List.mem_of_getElem? hs.write)
  have htouch : ∀ b, Touches b w ↔ b = blockOf w.1 ∨ remOf w.1 ≠ 0 ∧ b = blockOf w.1 + 1 := touches_iff ho w.2
  have hpend := pending_committed h hs
  obtain ⟨hfst, hsnd⟩ := hc w hs.write
  have hiff : ∀ b : ℕ, (4096 * b : ℤ) = 4096 * blockOf w.1 ↔ b = blockOf w.1 := fun b => by omega
  -- a second block is touched again later
  have hlater : ∀ b, b ≠ blockOf w.1 → Touches b w → TouchedLater t.drv b := by
    intro b hb hT
    rcases (htouch b).1 hT with e | ⟨hr, rfl⟩
    · exact absurd e hb
    · exact hsnd hr
  constructor
  case inside =>
    intro o d hd
    rw [hpend] at hd
    split_ifs at hd
    exact h.exact.inside o d hd
  case entry =>
    intro b
    rw [uncommitted_committed hs, hpend]
    by_cases hb : b = blockOf w.1
    · rw [if_pos ((hiff b).2 hb), hb]
      simp [hfst]
    · rw [if_neg (fun e => hb ((hiff b).1 e)), h.exact.entry b, uncommitted_iff hs]
      exact ⟨fun h => h.elim (hlater b hb) id, Or.inr⟩
  case latest =>
    intro b d hd
    rw [hpend] at hd
    by_cases hb : b = blockOf w.1
    · rw [if_pos ((hiff b).2 hb)] at hd
      cases hd
    rw [if_neg fun e => hb ((hiff b).1 e)] at hd
    obtain ⟨k, w₀, n, hk, hn, rfl⟩ := h.exact.latest b d hd
    have hne : k ≠ t.drv.committed := by
      intro he
      subst he
      obtain rfl := Option.some.inj (hs.write.symm.trans hk.write)
      exact hk.not_later (hlater b hb hk.touches)
    exact ⟨k, w₀, n, hk.kept hs hne, hn, rfl⟩

/-- and no other commit leaves the map right -/
theorem commitExact_of_exact (h : PendingInv t) (hs : Committed t.drv (t.drv.step .commit) w uw c)
    (hp : PendingExact (t.step .commit)) : CommitExact t .commit := by
  intro w' hw'
  obtain rfl := Option.some.inj (hs.write.symm.trans hw')
  have ho : InRange w.1 := h.inRange w (List.mem_of_getElem? hs.write)
  have hpend := pending_committed h hs
  constructor
  · rw [← uncommitted_committed hs, ← hp.entry, hpend, if_pos rfl]
    simp
  · intro hr
    have hT : Touches (blockOf w.1 + 1) w := (touches_iff ho w.2 _).2 (Or.inr ⟨hr, rfl⟩)
    have hbefore := (h.exact.entry (blockOf w.1 + 1)).2 ((uncommitted_iff hs _).2 (Or.inl hT))
    have hne : ¬ (4096 * (blockOf w.1 + 1 : ℕ) : ℤ) = 4096 * blockOf w.1 := by omega
    rw [← uncommitted_committed hs, ← hp.entry, hpend, if_neg hne]
    exact hbefore

end Commit

/-! ## Runs -/

theorem step_out_of_range {off : ℤ} (ho : ¬ InRange off) (t : Tracker) (buf : Buf) (junk : ℕ → ℤ) :
    t.step (.write buf off junk) = t := by
  simp only [Tracker.step, Driver.step, if_neg ho]

theorem step_done {t : Tracker} (h : t.drv.step .commit = t.drv) : t.step .commit = t := by
  simp only [Tracker.step, h]

theorem step_pendingInv (t : Tracker) (op : Op) (h : PendingInv t) (hc : CommitExact t op) : PendingInv (t.step op) := by
  have hsound : Sound True (t.step op).drv := step_sound t.drv op h.sound (supplied_true t.drv op)
  cases op with
  | write buf off junk =>
    by_cases ho : InRange off
    · have hs := step_write (s := t.drv) ho buf junk
      have hdata : (t.step (.write buf off junk)).data = t.data ++ [fileOffset buf off t.drv.vol] := if_pos ho
      have hwrites : (t.step (.write buf off junk)).drv.writes = t.drv.writes ++ [(off, buf)] := hs.writes
      refine ⟨hsound, fun w hw => ?_, ?_, exact_written h ho buf junk⟩
      · rw [hwrites] at hw
        rcases List.mem_append.1 hw with hw | hw
        · exact h.inRange w hw
        · rw [List.mem_singleton.1 hw]
          exact ho
      · rw [hdata, hwrites, List.length_append, List.length_append, h.length]
        rfl
    · rw [step_out_of_range ho]
      exact h
  | commit =>
    rcases step_commit h.sound with ⟨-, e⟩ | ⟨w, uw, c, hs⟩
    · rw [step_done e]
      exact h
    · have hwrites : (t.step .commit).drv.writes = t.drv.writes := hs.writes
      exact ⟨hsound, by rw [hwrites]; exact h.inRange, by rw [hwrites]; exact h.length, exact_committed h hs hc⟩

theorem pendingInv_new (start : ℤ) : PendingInv (Tracker.new start) := by
  have hnone : ∀ o, (Tracker.new start).drv.vol.pendingBlocks o = none := fun _ => rfl
  have hwrites : (Tracker.new start).drv.writes = [] := rfl
  have hunc : ∀ b, ¬ Uncommitted (Tracker.new start).drv b := by
    rintro b ⟨w, hw, -⟩
    rw [hwrites, List.drop_nil] at hw
    cases hw
  refine ⟨sound_new_from start, fun w hw => ?_, rfl, ⟨fun o d hd => ?_, fun b => ?_, fun b d hd => ?_⟩⟩
  · rw [hwrites] at hw
    cases hw
  · rw [hnone] at hd
    cases hd
  · rw [hnone]
    simp [hunc b]
  · rw [hnone] at hd
    cases hd

/-- **The pending map of a run.** In every state of an in-order run on a new file, `pending_blocks` has an entry exactly
for the blocks of uncommitted writes, the data block of the latest one: if and only if every commit of the run finds no
later uncommitted write of its first block, and, if the write is unaligned, one of its second block. -/
theorem pending_exact_iff (start : ℤ) (es : List Op) :
    (∀ k, PendingExact (run Tracker.step (Tracker.new start) (es.take k))) ↔
      Meets Tracker.step CommitExact (Tracker.new start) es := by
  refine forall_take_iff_meets Tracker.step CommitExact PendingInv PendingExact (fun t h => h.exact) step_pendingInv ?_
    (Tracker.new start) es (pendingInv_new start)
  intro t op h hp
  cases op with
  | write buf off junk => trivial
  | commit =>
    rcases step_commit h.sound with ⟨hc, -⟩ | ⟨w, uw, c, hs⟩
    · intro w hw
      exact absurd (List.getElem?_eq_some_iff.1 hw).1 (by omega)
    · exact commitExact_of_exact h hs hp

/-- **An entry is left.** One unaligned write and its commit. -/
theorem pending_stays : ¬ ∀ start es, PendingExact (run Tracker.step (Tracker.new start) es) := by
  intro h
  have hpend : ∃ d, (run Tracker.step (Tracker.new 0) [firstOp, .commit]).drv.vol.pendingBlocks (4096 * (1 : ℕ)) = some d :=
    ⟨3, by decide +kernel⟩
  obtain ⟨w, hw, -⟩ := ((h 0 [firstOp, .commit]).entry 1).1 hpend
  have hdone : (run Tracker.step (Tracker.new 0) [firstOp, .commit]).drv.writes.length ≤
      (run Tracker.step (Tracker.new 0) [firstOp, .commit]).drv.committed := by decide +kernel
  rw [List.drop_of_length_le hdone] at hw
  cases hw

end ChainedBlockStorage.Storage
