/-
Reads between the writes and commits of an in-order run.

- `read_written`, `read_committed`: an aligned write is what `read` returns, right after it and when all is committed.
- `read_overlay`: a read whose blocks are pending, or in no uncommitted write, returns the overlay of all writes so far.
- `reads_never_go_back`: runs in which every read and every unaligned write finds its blocks so. Each read takes a byte
  from the last write that covers it, and these writes only move forward.
- `commit_takes_read_back`: `commit` of an older write erases the pending entry of a newer one, and the next read
  returns the older data.
-/
import ChainedBlockStorage.Storage.Leaves

namespace ChainedBlockStorage.Storage

open Crash Radix Run

/-! ## Where a byte comes from -/

/-- `w` puts a value at byte `p` -/
def Covers (w : ℤ × Buf) (p : ℤ) : Prop := w.1 ≤ p ∧ p < w.1 + blockSize

instance (w : ℤ × Buf) (p : ℤ) : Decidable (Covers w p) := inferInstanceAs (Decidable (_ ∧ _))

/-- `x` is what write `n` put at byte `p`; number 0 is the new file -/
def FromWrite (ws : List (ℤ × Buf)) (p : ℤ) (x : UInt8) : ℕ → Prop
  | 0 => x = 0
  | n + 1 => ∃ w, ws[n]? = some w ∧ Covers w p ∧ w.2 (p - w.1).toNat = x

/-- the last of the first `n` writes that covers byte `p` -/
def lastWrite (ws : List (ℤ × Buf)) (p : ℤ) : ℕ → ℕ
  | 0 => 0
  | n + 1 => if ∃ w ∈ ws[n]?, Covers w p then n + 1 else lastWrite ws p n

theorem lastWrite_le (ws : List (ℤ × Buf)) (p : ℤ) (n : ℕ) : lastWrite ws p n ≤ n := by
  induction n with
  | zero => exact le_rfl
  | succ n ih =>
    rw [lastWrite]
    split
    · exact le_rfl
    · omega

theorem lastWrite_mono (ws : List (ℤ × Buf)) (p : ℤ) {m n : ℕ} (h : m ≤ n) : lastWrite ws p m ≤ lastWrite ws p n := by
  induction n, h using Nat.le_induction with
  | base => exact le_rfl
  | succ n _ ih =>
    apply ih.trans
    rw [lastWrite]
    split
    · have := lastWrite_le ws p n
      omega
    · exact le_rfl

/-- the overlay takes each byte from the last write that covers it -/
theorem overlay_from (ws : List (ℤ × Buf)) (p : ℤ) (n : ℕ) :
    FromWrite ws p (overlay (ws.take n) p) (lastWrite ws p n) := by
  induction n with
  | zero => rfl
  | succ n ih =>
    rw [lastWrite]
    cases hw : ws[n]? with
    | none =>
      have htake : ws.take (n + 1) = ws.take n := by
        rw [List.take_of_length_le (Nat.le_succ_of_le (List.getElem?_eq_none_iff.1 hw)),
          List.take_of_length_le (List.getElem?_eq_none_iff.1 hw)]
      simpa [htake] using ih
    | some w =>
      have htake : ws.take (n + 1) = ws.take n ++ [w] := by rw [List.take_add_one, hw]; rfl
      simp only [Option.mem_def, Option.some.injEq, exists_eq_left']
      by_cases hc : Covers w p
      · have hover : overlay (ws.take n ++ [w]) p = w.2 (p - w.1).toNat := by
          rw [overlay_snoc]
          exact if_pos hc
        rw [htake, if_pos hc, hover]
        exact ⟨w, hw, hc, rfl⟩
      · have hover : overlay (ws.take n ++ [w]) p = overlay (ws.take n) p := by
          rw [overlay_snoc]
          exact if_neg hc
        rw [htake, if_neg hc, hover]
        exact ih

/-! ## Reading a write back -/

/-- a pending block of a write is the one in its tree -/
theorem pending_written {s : Driver} {off : ℤ} {buf : Buf} {junk : ℕ → ℤ} (h : Sound True s) (ho : InRange off)
    (hj : JunkUnused s (.write buf off junk)) (b : ℕ) (hb : b < 67108864) (hT : Touches b (off, buf)) :
    (s.step (.write buf off junk)).vol.pendingBlocks (4096 * b) =
      some ((s.step (.write buf off junk)).leaf (s.writes.length + 1) b).num := by
  obtain ⟨hs, uw, d, n, g, hw⟩ := write_step h ho buf junk (supplied_true s _)
  have hnum : ((s.step (.write buf off junk)).leaf (s.writes.length + 1) b).num =
      if b = blockOf off then d 0 else if remOf off ≠ 0 ∧ b = blockOf off + 1 then d 1
      else node volShape (child s.vol.file) (s.root s.writes.length) 3 b := by
    rw [Driver.leaf, (root_written hs hw _).1, if_pos rfl, hs.vol, leafAt_frame (new_tree_kept h hw (hj ho)) b hb]
    exact new_leaf hw b hb
  rw [hnum, pending_eq hs hw]
  rcases (touches_iff ho buf b).1 hT with rfl | h1
  · have h1 : ¬ (remOf off ≠ 0 ∧ blockOf off = blockOf off + 1) := by omega
    rw [if_neg h1, if_pos rfl, if_pos rfl]
  · have h0 : ¬ b = blockOf off := by omega
    rw [if_pos h1, if_neg h0, if_pos h1]

theorem aligned_eq {off : ℤ} (ho : InRange off) (ha : remOf off = 0) : off = 4096 * blockOf off := by
  have hoff := (inRange_parts ho).1
  rw [ha, add_zero] at hoff
  exact_mod_cast hoff

/-- an aligned write is what `read` returns right after it -/
theorem read_written {s : Driver} {off : ℤ} (h : Sound True s) (ho : InRange off) (ha : remOf off = 0) (buf : Buf)
    (junk : ℕ → ℤ) (hj : JunkUnused s (.write buf off junk)) : read (s.step (.write buf off junk)).vol off = buf := by
  have hb0 := (inRange_parts ho).2.2.1
  have hl := leaves_written h ho hj
  have hT : Touches (blockOf off) (off, buf) := (touches_iff ho buf _).2 (Or.inl rfl)
  calc read (s.step (.write buf off junk)).vol off
      = readAligned (s.step (.write buf off junk)).vol (4096 * blockOf off) := by rw [← read_aligned, ← aligned_eq ho ha]
    _ = ((s.step (.write buf off junk)).leaf (s.writes.length + 1) (blockOf off)).data :=
      readAligned_pending (hl.found _ hb0 hT) (pending_written h ho hj _ hb0 hT)
    _ = buf := hl.aligned ha

/-- the last write is an aligned one with data `buf`; once it is committed its block is not pending -/
structure Newest (s : Driver) (off : ℤ) (buf : Buf) : Prop where
  sound : Sound True s
  last : s.writes[s.writes.length - 1]? = some (off, buf)
  data : (s.leaf s.writes.length (blockOf off)).data = buf
  done : s.committed = s.writes.length → s.vol.pendingBlocks (4096 * blockOf off) = none

theorem newest_written {s : Driver} {off : ℤ} (h : Sound True s) (ho : InRange off) (ha : remOf off = 0) (buf : Buf)
    (junk : ℕ → ℤ) (hj : JunkUnused s (.write buf off junk)) : Newest (s.step (.write buf off junk)) off buf := by
  have hs := step_write (s := s) ho buf junk
  have hlen : (s.step (.write buf off junk)).writes.length = s.writes.length + 1 := by rw [hs.writes]; simp
  have hle := h.le
  refine ⟨step_sound s _ h (supplied_true s _), ?_, ?_, ?_⟩
  · rw [hlen, hs.writes]
    simp
  · rw [hlen]
    exact (leaves_written h ho hj).aligned ha
  · rw [hs.committed, hlen]
    omega

theorem newest_commit {s : Driver} {off : ℤ} {buf : Buf} (ho : InRange off) (h : Newest s off buf) :
    Newest (s.step .commit) off buf := by
  have hb0 := (inRange_parts ho).2.2.1
  rcases step_commit h.sound with ⟨-, e⟩ | ⟨w, uw, c, hs⟩
  · rw [e]
    exact h
  constructor
  · exact sound_committed h.sound hs
  · rw [hs.writes]
    exact h.last
  · rw [hs.writes, leaves_committed h.sound hs _ hs.lt le_rfl _ hb0]
    exact h.data
  · intro hc
    rw [hs.committed, hs.writes] at hc
    -- the commit of the last write erases the entry of its block
    have hw := hs.write
    rw [show s.committed = s.writes.length - 1 by omega, h.last, Option.some.injEq] at hw
    subst hw
    rw [hs.pending_eq ho]
    exact if_pos rfl

theorem newest_commits {s : Driver} {off : ℤ} {buf : Buf} (ho : InRange off) (h : Newest s off buf) (m : ℕ) :
    Newest (run Driver.step s (List.replicate m .commit)) off buf := by
  induction m with
  | zero => exact h
  | succ m ih =>
    rw [List.replicate_succ', run_snoc]
    exact newest_commit ho ih

/-- and it is what `read` returns when all is committed -/
theorem read_committed {s : Driver} {off : ℤ} {buf : Buf} (ho : InRange off) (ha : remOf off = 0) (h : Newest s off buf)
    (hc : s.committed = s.writes.length) : read s.vol off = buf := by
  calc read s.vol off = readAligned s.vol (4096 * blockOf off) := by rw [← read_aligned, ← aligned_eq ho ha]
    _ = (s.leaf s.committed (blockOf off)).data := readAligned_committed h.sound (h.done hc)
    _ = buf := by
      rw [hc]
      exact h.data

/-! ## Reads in a run -/

/-- a call of `read`: how many writes there were before it, its offset, and what it returned -/
structure ReadCall where
  issued : ℕ
  off : ℤ
  data : Buf

structure Reader where
  drv : Driver
  reads : List ReadCall

inductive Access where
  | op (o : Op)
  | read (volumeOffset : ℤ)

def Reader.step (s : Reader) : Access → Reader
  | .op o => { s with drv := s.drv.step o }
  | .read off =>
    if InRange off then { s with reads := s.reads ++ [⟨s.drv.writes.length, off, read s.drv.vol off⟩] } else s

theorem Reader.drv_read (s : Reader) (off : ℤ) : (s.step (.read off)).drv = s.drv := by
  simp only [Reader.step]
  split <;> rfl

def Reader.new : Reader := ⟨Driver.new, []⟩

/-- byte `p` is among those that `r` returned -/
def ReadCall.Has (r : ReadCall) (p : ℤ) : Prop := r.off ≤ p ∧ p < r.off + blockSize

/-- read `i` took byte `p` from write `source i`, one issued before it, and no later read took it from an earlier one -/
structure Forward (s : Reader) (p : ℤ) (source : ℕ → ℕ) : Prop where
  found : ∀ i r, s.reads[i]? = some r → r.Has p →
    source i ≤ r.issued ∧ FromWrite s.drv.writes p (r.data (p - r.off).toNat) (source i)
  mono : ∀ i j ri rj, i ≤ j → s.reads[i]? = some ri → s.reads[j]? = some rj → ri.Has p → rj.Has p →
    source i ≤ source j

/-- the two blocks of a read are pending if an uncommitted write covers them -/
def ReadKept (s : Driver) (off : ℤ) : Prop :=
  (Uncommitted s (blockOf off) → s.vol.pendingBlocks (4096 * blockOf off) ≠ none) ∧
    (remOf off ≠ 0 → Uncommitted s (blockOf off + 1) → s.vol.pendingBlocks (4096 * (blockOf off + 1)) ≠ none)

def AccessOk (s : Reader) : Access → Prop
  | .op o => JunkUnused s.drv o ∧ PendingKept s.drv o
  | .read off => InRange off → ReadKept s.drv off

/-- a byte of a read is a byte of one of its two blocks -/
theorem read_byte {off : ℤ} (ho : InRange off) {p : ℕ} (hp : p < 4096) : ∃ b i : ℕ, b < 67108864 ∧ i < 4096 ∧
    off + p = 4096 * b + i ∧ (b = blockOf off ∨ remOf off ≠ 0 ∧ b = blockOf off + 1) ∧
    ∀ v, read v off p = readAligned v (4096 * b) i := by
  obtain ⟨hoff, hr, hb0, hb1⟩ := inRange_parts ho
  have htmod := inRange_tmod ho
  have hoff0 := inRange_base ho
  have hoff1 := block_next (blockOf off)
  by_cases hr0 : remOf off = 0
  · have hbase : off = 4096 * blockOf off := by omega
    refine ⟨blockOf off, p, hb0, hp, by omega, Or.inl rfl, fun v => ?_⟩
    have hval : read v off = readAligned v off := by simp [read, htmod, hr0]
    rw [hval, ← hbase]
  have hval : ∀ v, read v off p = if p < 4096 - remOf off then readAligned v (4096 * blockOf off) (remOf off + p)
      else readAligned v (4096 * (blockOf off + 1 : ℕ)) (p - (4096 - remOf off)) := fun v => by
    simp only [read, blockSize_eq, Nat.cast_ofNat, htmod, hoff0, hoff1, ne_eq, Nat.cast_eq_zero, hr0,
      not_false_eq_true, if_true, Int.toNat_natCast]
  by_cases hp1 : p < 4096 - remOf off
  · refine ⟨blockOf off, remOf off + p, hb0, by omega, by omega, Or.inl rfl, fun v => ?_⟩
    rw [hval, if_pos hp1]
  · refine ⟨blockOf off + 1, p - (4096 - remOf off), hb1 hr0, by omega, ?_, Or.inr ⟨hr0, rfl⟩, fun v => ?_⟩
    · push_cast
      omega
    · rw [hval, if_neg hp1]

/-- a kept block of the read -/
theorem ReadKept.block {s : Driver} {off : ℤ} (hk : ReadKept s off) {b : ℕ}
    (hb : b = blockOf off ∨ remOf off ≠ 0 ∧ b = blockOf off + 1) :
    Uncommitted s b → s.vol.pendingBlocks (4096 * b) ≠ none := by
  rcases hb with rfl | ⟨hr, rfl⟩
  · exact hk.1
  · push_cast
    exact hk.2 hr

/-- **What a read returns.** -/
theorem read_overlay {s : Driver} (h : Content s) {off : ℤ} (ho : InRange off) (hk : ReadKept s off) (p : ℕ)
    (hp : p < 4096) : read s.vol off p = overlay s.writes (off + p) := by
  obtain ⟨b, i, hb, hi, hpos, hblock, hread⟩ := read_byte ho hp
  rw [hread, hpos]
  exact read_content h b hb (hk.block hblock) s.vol rfl rfl (fun _ _ => rfl) i hi

/-! ## The run -/

/-- a step adds at most one write -/
theorem step_writes (s : Driver) (o : Op) : ∃ l, (s.step o).writes = s.writes ++ l := by
  cases o with
  | write buf off junk =>
    by_cases ho : InRange off
    · exact ⟨[(off, buf)], by simp only [Driver.step, if_pos ho]⟩
    · exact ⟨[], by simp [Driver.step, ho]⟩
  | commit =>
    refine ⟨[], ?_⟩
    rw [List.append_nil]
    simp only [Driver.step]
    split
    · rfl
    · split <;> rfl

/-- each read returned the contents of its time -/
structure ReadsInv (s : Reader) : Prop where
  content : Content s.drv
  issued : ∀ r ∈ s.reads, r.issued ≤ s.drv.writes.length
  mono : s.reads.Pairwise fun r r' => r.issued ≤ r'.issued
  data : ∀ r ∈ s.reads, ∀ p : ℕ, p < 4096 → r.data p = overlay (s.drv.writes.take r.issued) (r.off + p)

theorem step_readsInv (s : Reader) (a : Access) (h : ReadsInv s) (hc : AccessOk s a) : ReadsInv (s.step a) := by
  cases a with
  | op o =>
    obtain ⟨l, hl⟩ := step_writes s.drv o
    constructor
    · exact step_content s.drv o h.content hc
    · intro r hr
      have := h.issued r hr
      simp only [Reader.step, hl, List.length_append]
      omega
    · exact h.mono
    · intro r hr p hp
      simp only [Reader.step, hl]
      rw [List.take_append_of_le_length (h.issued r hr)]
      exact h.data r hr p hp
  | read off =>
    by_cases ho : InRange off
    swap
    · simpa only [Reader.step, if_neg ho] using h
    simp only [Reader.step, if_pos ho]
    constructor
    · exact h.content
    · intro r hr
      rcases List.mem_append.1 hr with hr | hr
      · exact h.issued r hr
      · rw [List.mem_singleton.1 hr]
    · refine List.pairwise_append.2 ⟨h.mono, List.pairwise_singleton _ _, fun r hr r' hr' => ?_⟩
      rw [List.mem_singleton.1 hr']
      exact h.issued r hr
    · intro r hr p hp
      rcases List.mem_append.1 hr with hr | hr
      · exact h.data r hr p hp
      · rw [List.mem_singleton.1 hr]
        simp only [List.take_length]
        exact read_overlay h.content ho (hc ho) p hp

/-- **Reads never go back.** In every run on a new file whose reads and unaligned writes find each block that an
uncommitted write covers pending, every read takes a byte from the last write that covers it. -/
theorem reads_never_go_back (es : List Access) (hc : Meets Reader.step AccessOk Reader.new es) (p : ℤ) :
    Forward (run Reader.step Reader.new es) p fun i =>
      lastWrite (run Reader.step Reader.new es).drv.writes p
        (((run Reader.step Reader.new es).reads[i]?).elim 0 ReadCall.issued) := by
  have h : ReadsInv (run Reader.step Reader.new es) :=
    run_inv_of_meets Reader.step AccessOk ReadsInv step_readsInv Reader.new es
      ⟨content_new, by simp [Reader.new], List.Pairwise.nil, by simp [Reader.new]⟩ hc
  set s := run Reader.step Reader.new es
  constructor
  · intro i r hi hr
    obtain ⟨hlo, hhi⟩ := hr
    simp only [blockSize_eq, Nat.cast_ofNat] at hhi
    have hdata := h.data r (List.mem_of_getElem? hi) (p - r.off).toNat (by omega)
    have hp : r.off + ((p - r.off).toNat : ℤ) = p := by omega
    simp only [hi, Option.elim_some]
    rw [hdata, hp]
    exact ⟨lastWrite_le _ _ _, overlay_from _ _ _⟩
  · intro i j ri rj hij hi hj _ _
    simp only [hi, hj, Option.elim_some]
    apply lastWrite_mono _ _
    rcases Nat.lt_or_eq_of_le hij with hlt | rfl
    · obtain ⟨hi', rfl⟩ := List.getElem?_eq_some_iff.1 hi
      obtain ⟨hj', rfl⟩ := List.getElem?_eq_some_iff.1 hj
      exact List.pairwise_iff_getElem.1 h.mono i j hi' hj' hlt
    · rw [Option.some.inj (hi.symm.trans hj)]

/-- two overlapping uncommitted writes, read before and after both commits -/
def overlapping : List Access := [.op secondOp, .op firstOp, .read 100, .op .commit, .op .commit, .read 0]

theorem reads_never_go_back_overlapping :
    Forward (run Reader.step Reader.new overlapping) 100 fun i =>
      lastWrite (run Reader.step Reader.new overlapping).drv.writes 100
        (((run Reader.step Reader.new overlapping).reads[i]?).elim 0 ReadCall.issued) := by
  refine reads_never_go_back overlapping ?_ 100
  have h2 : PendingKept Driver.new secondOp := fun _ h => absurd (by decide) h
  have h1 : PendingKept (Driver.new.step secondOp) firstOp := fun _ _ => ⟨by decide +kernel, by decide +kernel⟩
  have hr : ReadKept ((Driver.new.step secondOp).step firstOp) 100 := ⟨by decide +kernel, by decide +kernel⟩
  have hr' : ReadKept ((((Driver.new.step secondOp).step firstOp).step .commit).step .commit) 0 :=
    ⟨by decide +kernel, by decide +kernel⟩
  refine ⟨⟨junkUnused_secondOp _, h2⟩, ⟨junkUnused_firstOp _, h1⟩, fun _ => hr, ⟨trivial, trivial⟩, ⟨trivial, trivial⟩,
    fun _ => ?_, trivial⟩
  have hdrv := Reader.drv_read ((Reader.new.step (.op secondOp)).step (.op firstOp)) 100
  simp only [Reader.step] at hdrv ⊢
  rw [hdrv]
  exact hr'

/-- writes 1 and 2 fill block 0 with ones and with twos; it is read before and after the commit of write 1 -/
def takenBack : Reader :=
  run Reader.step Reader.new [.op (.write (fun _ => 1) 0 fun _ => 0), .op (.write (fun _ => 2) 0 fun _ => 0), .read 0,
    .op .commit, .read 0]

/-- **A commit takes a read back.** The first read returns write 2, the second one write 1. -/
theorem commit_takes_read_back : ¬ ∃ source, Forward takenBack 0 source := by
  rintro ⟨source, h⟩
  have hw : takenBack.drv.writes = [(0, fun _ => 1), (0, fun _ => 2)] := rfl
  obtain ⟨r, hr, hro, hr0⟩ : ∃ r, takenBack.reads[0]? = some r ∧ r.off = 0 ∧ r.data 0 = 2 :=
    ⟨_, rfl, rfl, by decide +kernel⟩
  obtain ⟨r', hr', hro', hr0'⟩ : ∃ r, takenBack.reads[1]? = some r ∧ r.off = 0 ∧ r.data 0 = 1 :=
    ⟨_, rfl, rfl, by decide +kernel⟩
  have hhas : r.Has 0 ∧ r'.Has 0 := by simp [ReadCall.Has, hro, hro']
  have hf := (h.found 0 r hr hhas.1).2
  have hf' := (h.found 1 r' hr' hhas.2).2
  have hmono := h.mono 0 1 r r' (by decide) hr hr' hhas.1 hhas.2
  rw [hro, sub_self, Int.toNat_zero, hr0, hw] at hf
  rw [hro', sub_self, Int.toNat_zero, hr0', hw] at hf'
  -- a two comes from write 2 only, and write 2 put no one
  have h2 : ∀ n, FromWrite [((0 : ℤ), fun _ => 1), (0, fun _ => 2)] 0 2 n → n = 2 := by
    rintro (- | - | - | n) hn
    · exact absurd hn (show ¬ (2 : UInt8) = 0 by decide)
    · obtain ⟨w, hw, -, hx⟩ := hn
      cases hw
      exact absurd hx (by decide)
    · rfl
    · obtain ⟨w, hw, -⟩ := hn
      cases hw
  have h1 : ∀ n, FromWrite [((0 : ℤ), fun _ => 1), (0, fun _ => 2)] 0 1 n → n = 1 := by
    rintro (- | - | - | n) hn
    · exact absurd hn (show ¬ (1 : UInt8) = 0 by decide)
    · rfl
    · obtain ⟨w, hw, -, hx⟩ := hn
      cases hw
      exact absurd hx (by decide)
    · obtain ⟨w, hw, -⟩ := hn
      cases hw
  rw [h2 _ hf, h1 _ hf'] at hmono
  omega

end ChainedBlockStorage.Storage
