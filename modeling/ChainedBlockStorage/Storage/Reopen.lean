/-
Closing a volume and opening it again.

`close_volume` drops what is uncommitted, and `open_volume` rebuilds the queue from the file: its blocks less those of
the committed tree. It takes the file's length for the number of blocks, so every block in use has to lie inside.

- `Inside`, `step_inside`: in every in-order run on a new file it does.
- `reopen_exact`: the committed tree, its number and the checksum are as before; the queue is every other block, once.
-/
import ChainedBlockStorage.Storage.Digest
import ChainedBlockStorage.Storage.Reclaim

namespace ChainedBlockStorage.Storage

open Crash Radix Run

/-! ## The code -/

/-- `close_volume` leaves `first_block` as it is -/
def closeVolume (v : Volume) : Volume :=
  { v with uncommittedWrites := fun _ => none, pendingBlocks := fun _ => none, freeBlocks := [], numTotalBlocks := 0 }

/-- which is what `open_volume` starts from -/
theorem closeVolume_eq (v : Volume) : closeVolume v = freshVolume v.file v.firstBlock 0 := rfl

/-- `close_volume`, then `open_volume` of the same file -/
def reopen (v : Volume) : Volume := (openVolume (closeVolume v).file).vol

/-! ## The size of the file -/

/-- a list of operations lengthens the file by whole blocks, up to the last block written -/
structure Grown (f g : File) (ios : List (Io (ℤ × Block))) : Prop where
  le : f.size ≤ g.size
  whole : f.size % 4096 = 0 → g.size % 4096 = 0
  covers : ∀ w : ℤ × Block, .pwrite w ∈ ios → (w.1 + 1) * 4096 ≤ g.size

theorem grown_foldl (f : File) (ios : List (Io (ℤ × Block))) : Grown f (ios.foldl (Io.apply File.write) f) ios := by
  induction ios generalizing f with
  | nil => exact ⟨le_rfl, id, fun w hw => absurd hw List.not_mem_nil⟩
  | cons o ios ih =>
    have hrest := ih (Io.apply File.write f o)
    rw [List.foldl_cons]
    cases o with
    | pwrite w =>
      have hsize : (Io.apply File.write f (.pwrite w)).size = max f.size ((w.1 + 1) * 4096).toNat := rfl
      have hle := hrest.le
      rw [hsize] at hle
      refine ⟨by omega, fun h => hrest.whole (by omega), fun x hx => ?_⟩
      rcases List.mem_cons.1 hx with e | hx
      · cases e
        omega
      · exact hrest.covers x hx
    | fdatasync =>
      refine ⟨hrest.le, hrest.whole, fun x hx => ?_⟩
      rcases List.mem_cons.1 hx with e | hx
      · cases e
      · exact hrest.covers x hx

/-- the file is whole blocks, block 0 and every block in use among them -/
structure Inside (s : Driver) : Prop where
  sound : Sound True s
  whole : s.vol.file.size % 4096 = 0
  pos : 4096 ≤ s.vol.file.size
  inside : ∀ x ∈ s.used, (x + 1) * 4096 ≤ s.vol.file.size

/-- a commit takes no block into use -/
theorem used_committed {s s' : Driver} {w : ℤ × Buf} {uw : UncommittedWrite} {c : Call} (h : Sound True s)
    (hs : Committed s s' w uw c) {x : ℤ} (hx : x ∈ s'.used) : x ∈ s.used := by
  rcases hx with ⟨k, hc, hk, hx⟩ | ⟨k, hc, hk, hx⟩
  · rw [hs.committed] at hc
    rw [hs.writes] at hk
    exact used_live (by omega) hk ((reach_committed h hs hc hk x).1 hx)
  · rw [hs.committed] at hc
    rw [hs.writes] at hk
    rw [(root_committed h hs k (by omega) hk).2 hc] at hx
    exact used_dead (by omega) hk hx

theorem inside_written {s : Driver} {off : ℤ} {buf : Buf} {junk : ℕ → ℤ} (h : Inside s) (ho : InRange off)
    (hj : JunkUnused s (.write buf off junk)) : Inside (s.step (.write buf off junk)) := by
  obtain ⟨uw, d, n, g, hw⟩ := write_exact h.sound ho buf junk
  have hs := step_write (s := s) ho buf junk
  have hgrown := grown_foldl s.vol.file (write junk buf off s.next s.vol).io
  rw [← hw.ok.io, ← hs.vol] at hgrown
  have hpos := h.pos
  have hle := hgrown.le
  refine ⟨step_sound s _ h.sound (supplied_true s _), hgrown.whole h.whole, by omega, fun x hx => ?_⟩
  rw [used_written h.sound ho hs hw (hj ho)] at hx
  rcases hx with hx | hx
  · have := h.inside x hx
    omega
  · obtain ⟨blk, hm⟩ := hw.written x hx
    exact hgrown.covers _ hm

theorem inside_committed {s s' : Driver} {w : ℤ × Buf} {uw : UncommittedWrite} {c : Call} (h : Inside s)
    (hs : Committed s s' w uw c) : Inside s' := by
  have hsize : s'.vol.file.size = max s.vol.file.size 4096 := by
    rw [hs.vol, hs.ok.file]
    rfl
  have hpos := h.pos
  have hwhole := h.whole
  refine ⟨sound_committed h.sound hs, by omega, by omega, fun x hx => ?_⟩
  have := h.inside x (used_committed h.sound hs hx)
  omega

theorem step_inside (s : Driver) (op : Op) (h : Inside s) (hj : JunkUnused s op) : Inside (s.step op) := by
  refine Driver.step_inv Inside h.sound h op (fun buf off junk e ho => ?_) fun w uw c hs => inside_committed h hs
  subst e
  exact inside_written h ho hj

theorem inside_new (start : ℤ) : Inside (Driver.open start (initVolume File.new)) := by
  have hsize : (Driver.open start (initVolume File.new)).vol.file.size = 4096 := rfl
  refine ⟨sound_new_from start, by omega, by omega, fun x hx => ?_⟩
  rcases hx with ⟨k, -, -, hx⟩ | ⟨k, hc, hk, -⟩
  · exact absurd hx (not_reach_null _ _ (child_zero _) x)
  · exact absurd (hc.trans_le hk) (lt_irrefl _)

/-! ## Reopening -/

theorem durable_new_from (start : ℤ) : Durable (Driver.open start (initVolume File.new)) where
  sound := sound_new_from start
  view := rfl
  survives := fun f hf => init_survivors Driver.new.io (List.prefix_refl _) f hf

/-- what the file of a running volume holds -/
theorem volumeFile_inside {s : Driver} (h : Inside s) (hc : Carries s.vol.file s.vol) : VolumeFile s.vol.file := by
  have hroot : (FirstBlock.ofBlock (s.vol.file.block 0)).firstLevelBlocks 0 = s.root s.committed := by
    rw [hc.root, h.sound.root_committed]
    rfl
  constructor
  · rw [hroot]
    exact h.sound.versions.proper _ le_rfl h.sound.le
  · intro x hx
    rw [hroot] at hx
    have hu : x ∈ s.used := used_live le_rfl h.sound.le hx
    exact ⟨h.sound.pos hu, h.inside x hu⟩

/-- `w` holds the committed tree of `v`, block for block, and every other block of the file is in the queue once -/
structure Reopened (v w : Volume) : Prop where
  file : w.file = v.file
  root : w.committedRoot = v.committedRoot
  leaves : ∀ b < numBlocks, w.leaf b = v.leaf b
  last : getSequenceNumber w = getSequenceNumber v
  checksum : ∀ md5 : List UInt8 → List UInt8, checksum md5 w = checksum md5 v
  nodup : w.freeBlocks.Nodup
  free : ∀ x, x ∈ w.freeBlocks ↔ 1 ≤ x ∧ (x + 1) * blockSize ≤ v.file.size ∧
    ¬ Reach volShape (child v.file) v.committedRoot x

/-- **Close and reopen.** -/
theorem reopen_exact (start : ℤ) (es : List Op)
    (hj : Meets Driver.step JunkUnused (Driver.open start (initVolume File.new)) es) :
    let s := run Driver.step (Driver.open start (initVolume File.new)) es
    Reopened s.vol (reopen s.vol) := by
  intro s
  have h : Inside s := run_inv_of_meets Driver.step JunkUnused Inside step_inside _ es (inside_new start) hj
  have hd : Durable s := run_inv_of_meets Driver.step JunkUnused Durable step_durable _ es (durable_new_from start) hj
  have hcar := hd.self
  have hpos := h.pos
  have hwhole := h.whole
  have hne : (s.vol.file.size + 1) / blockSize ≠ 0 := by
    simp only [blockSize_eq]
    omega
  obtain ⟨hfile, hfirst⟩ := openVolume_first s.vol.file hne
  have hroot : (reopen s.vol).committedRoot = s.vol.committedRoot := by
    rw [Volume.committedRoot, reopen, closeVolume, hfirst]
    exact hcar.root
  have hleaf : ∀ b < numBlocks, (reopen s.vol).leaf b = s.vol.leaf b := fun b _ => by
    rw [Volume.leaf, Volume.leaf, hroot, reopen, closeVolume, hfile]
  obtain ⟨hnodup, hfree⟩ := openVolume_free s.vol.file (volumeFile_inside h hcar) hne
  refine ⟨hfile, hroot, hleaf, ?_, fun md5 => ?_, hnodup, fun x => ?_⟩
  · rw [getSequenceNumber, getSequenceNumber, reopen, closeVolume, hfirst, hcar.last]
  · rw [checksum, checksum, digests_congr md5 hleaf]
  · refine (hfree x).trans ?_
    rw [hcar.root]
    simp only [blockSize_eq]
    refine and_congr_right fun _ => and_congr_left fun _ => ?_
    push_cast
    omega

/-- an overlapping write is uncommitted when the volume is closed -/
theorem reopen_exact_uncommitted :
    Meets Driver.step JunkUnused Driver.new [firstOp, .commit, secondOp] ∧
      Reopened (run Driver.step Driver.new [firstOp, .commit, secondOp]).vol
        (reopen (run Driver.step Driver.new [firstOp, .commit, secondOp]).vol) := by
  have hj : Meets Driver.step JunkUnused Driver.new [firstOp, .commit, secondOp] :=
    ⟨junkUnused_firstOp _, trivial, junkUnused_secondOp _, trivial⟩
  exact ⟨hj, reopen_exact 0 _ hj⟩

end ChainedBlockStorage.Storage
