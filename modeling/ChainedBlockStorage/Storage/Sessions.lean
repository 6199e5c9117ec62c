/-
The volume over many sessions.

A session ends when the volume is closed, or when the node crashes in the middle of an operation; the next one begins
with `open_volume` of whatever the device kept. `Life` runs sessions one after another, and `Life.log` lists the writes
that the volume has committed in all of them.

- `kept_opening`, `step_alive`: at every moment each file that a crash could leave holds the committed tree inside its
  own blocks, so `open_volume` accepts it.
- `life_step`: a session that ends loses no write of the log; a crash in a commit may add the write being committed.
- `log_persists`: after any number of sessions the block map is the first one with the log applied, and the log only grows.
-/
import ChainedBlockStorage.Storage.Image
import ChainedBlockStorage.Storage.Reopen

namespace ChainedBlockStorage.Storage

open Crash Radix Run

/-! ## Files that can be opened -/

/-- a file that `open_volume` accepts: whole blocks, the committed tree among them -/
structure Mountable (f : File) : Prop where
  volume : VolumeFile f
  whole : f.size % 4096 = 0
  empty : f.size = 0 → f.block 0 = Block.zero

/-- `f` holds the committed tree of `v`, inside its own blocks -/
structure Kept (f : File) (v : Volume) : Prop where
  carries : Carries f v
  whole : f.size % 4096 = 0
  inside : ∀ x, Reach volShape (child v.file) v.committedRoot x → 1 ≤ x ∧ (x + 1) * 4096 ≤ f.size

/-- the committed tree in the file is the one in the memory's file -/
theorem Kept.reach {f : File} {v : Volume} (h : Kept f v) (x : ℤ) :
    Reach volShape (child f) v.committedRoot x ↔ Reach volShape (child v.file) v.committedRoot x :=
  reach_congr volShape (child v.file) (child f) v.committedRoot (child_zero _) (child_zero _)
    (fun y hy => child_congr (h.carries.tree y hy)) x

theorem Kept.mountable {f : File} {v : Volume} (h : Kept f v)
    (hp : Proper volShape (child v.file) v.committedRoot) : Mountable f where
  volume := by
    refine ⟨?_, fun x hx => ?_⟩
    · rw [h.carries.root]
      exact proper_congr volShape (child v.file) (child f) v.committedRoot (child_zero _) (child_zero _)
        (fun y hy => child_congr (h.carries.tree y hy)) hp
    · rw [h.carries.root] at hx
      exact h.inside x ((h.reach x).1 hx)
  whole := h.whole
  empty h0 := h.carries.empty (by rw [h0, blockSize_eq])

/-- what `open_volume` reads back is what the file was to hold -/
theorem Kept.image {f : File} {v : Volume} (h : Kept f v) : (openVolume f).vol.image = v.image := by
  have hroot : (openVolume f).vol.committedRoot = v.committedRoot := by
    by_cases he : (f.size + 1) / blockSize = 0
    · rw [Volume.committedRoot, openVolume_first_empty f he, ← h.carries.root, h.carries.empty he, ofBlock_zero]
    · rw [Volume.committedRoot, (openVolume_first f he).2, h.carries.root]
  have htree : ∀ x, Reach volShape (child v.file) v.committedRoot x →
      (openVolume f).vol.file.block x = v.file.block x := by
    intro x hx
    by_cases he : (f.size + 1) / blockSize = 0
    · have hin := h.inside x hx
      have hwhole := h.whole
      rw [blockSize_eq] at he
      omega
    · rw [(openVolume_first f he).1, h.carries.tree x hx]
  funext b
  by_cases hb : b < 67108864
  · rw [vol_image_eq _ hb, vol_image_eq _ hb, Volume.leaf, Volume.leaf, hroot, leafAt_frame htree b hb]
  · rw [Volume.image, Volume.image, imageAt, imageAt, if_neg (numBlocks_eq ▸ hb), if_neg (numBlocks_eq ▸ hb)]

theorem Kept.number {f : File} {v : Volume} (h : Kept f v) :
    getSequenceNumber (openVolume f).vol = getSequenceNumber v := (open_carries h.carries).last

/-- the file holds what it was opened with, whatever `open_volume` has done to it so far -/
theorem kept_opening {f : File} (h : Mountable f) (q : List (Io (ℤ × Block))) (hq : q <+: (openVolume f).io) (g : File)
    (hg : (Disk.exec File.write ⟨f, []⟩ q).Survives File.write g) : Kept g (openVolume f).vol := by
  have hstart : ∀ g, (Disk.mk f ([] : List (ℤ × Block))).Survives File.write g → g = f := by
    intro g hg
    obtain ⟨ws, hws, rfl⟩ := hg
    rw [List.sublist_nil.1 hws]
    rfl
  have hwhole := h.whole
  by_cases he : (f.size + 1) / blockSize = 0
  · -- an empty file: block 0 is written, and the crash may lose it
    have hv := openVolume_empty f he
    have h0 : f.size = 0 := by
      rw [blockSize_eq] at he
      omega
    have hnone : ∀ x, ¬ Reach volShape (child (openVolume f).vol.file) (openVolume f).vol.committedRoot x := by
      rw [hv]
      exact not_reach_null _ _ (child_zero _)
    have hfirst : (openVolume f).vol.firstBlock = FirstBlock.zero := by rw [hv]; rfl
    have hzero : ∀ g : File, g.block 0 = Block.zero → g.size % 4096 = 0 → Kept g (openVolume f).vol := by
      intro g hb hs
      refine ⟨⟨?_, ?_, fun x hx => absurd hx (hnone x), fun _ => hb⟩, hs, fun x hx => absurd hx (hnone x)⟩
      · rw [hb, ofBlock_zero, hfirst]
      · rw [hb, ofBlock_zero, Volume.committedRoot, hfirst]
    have hio : (openVolume f).io = [.pwrite (0, FirstBlock.zero.toBlock)] := by
      simp only [openVolume, if_pos he]
      rfl
    rw [hio, List.prefix_cons_iff] at hq
    rcases hq with rfl | ⟨q, rfl, hq⟩
    · rw [hstart g hg]
      exact hzero f (h.empty h0) hwhole
    · rw [List.prefix_nil] at hq
      subst hq
      obtain ⟨g', hg', hgg⟩ := survives_pwrite File.write _ _ g hg
      rw [hstart g' hg'] at hgg
      rcases hgg with rfl | rfl
      · exact hzero _ (h.empty h0) hwhole
      · refine ⟨⟨?_, ?_, fun x hx => absurd hx (hnone x), fun hs => ?_⟩, ?_, fun x hx => absurd hx (hnone x)⟩
        · rw [write_block_self, ofBlock_toBlock_lastCommitted, hfirst]
        · rw [write_block_self, ofBlock_toBlock_firstLevelBlocks, Volume.committedRoot, hfirst]
        · simp only [File.write, blockSize_eq] at hs
          omega
        · simp only [File.write, blockSize_eq]
          omega
  · obtain ⟨hfile, hfirst⟩ := openVolume_first f he
    have hio : (openVolume f).io = [] := by
      simp only [openVolume, if_neg he]
      rfl
    rw [hio, List.prefix_nil] at hq
    subst hq
    rw [hstart g hg]
    refine ⟨⟨by rw [hfirst], by rw [Volume.committedRoot, hfirst], fun x _ => by rw [hfile], fun h => absurd h he⟩,
      hwhole, fun x hx => ?_⟩
    rw [Volume.committedRoot, hfirst, hfile] at hx
    exact h.volume.inside x hx

/-- a file that was opened without a crash is what the process sees -/
theorem kept_view {f : File} (h : Mountable f) : Kept (openVolume f).vol.file (openVolume f).vol := by
  have hview : (Disk.exec File.write ⟨f, []⟩ (openVolume f).io).view File.write = (openVolume f).vol.file := by
    rw [view_exec]
    by_cases he : (f.size + 1) / blockSize = 0
    · simp only [openVolume, if_pos he]
      rfl
    · simp only [openVolume, if_neg he]
      rfl
  exact kept_opening h _ (List.prefix_refl _) _ (hview ▸ survives_view File.write _)

/-! ## Sessions -/

/-- a volume in its current session -/
structure Life where
  /-- the file when the session began -/
  base : File
  drv : Driver
  /-- the writes of earlier sessions that it began with, oldest first -/
  past : List (ℤ × Buf)

inductive Event where
  | op (o : Op)
  /-- `close_volume`, then `open_volume` -/
  | reopen
  /-- a crash in `o`, after the file operations `p` of the session, that leaves the file `f`; then `open_volume` -/
  | crash (o : Op) (p : List (Io (ℤ × Block))) (f : File)

/-- the node starts on the file `f`; its numbers go on from the one in block 0 -/
def Life.boot (f : File) (past : List (ℤ × Buf)) : Life :=
  ⟨f, Driver.open (getSequenceNumber (openVolume f).vol) (openVolume f), past⟩

/-- the next session: the number in block 0 tells which writes it has -/
def Life.recover (s : Life) (f : File) : Life :=
  Life.boot f (s.past ++ s.drv.writes.take (getSequenceNumber (openVolume f).vol - s.drv.start).toNat)

/-- the file as device and cache hold it after the operations `p` of this session -/
def Life.disk (s : Life) (p : List (Io (ℤ × Block))) : Disk File (ℤ × Block) := Disk.exec File.write ⟨s.base, []⟩ p

-- `close_volume` syncs the file, so the next session opens what this one saw
def Life.step (s : Life) : Event → Life
  | .op o => { s with drv := s.drv.step o }
  | .reopen => s.recover ((s.disk s.drv.io).view File.write)
  | .crash _ _ f => s.recover f

/-- the committed writes of all sessions, oldest first -/
def Life.log (s : Life) : List (ℤ × Buf) := s.past ++ s.drv.writes.take s.drv.committed

/-- the writes since then -/
def Life.queue (s : Life) : List (ℤ × Buf) := s.drv.writes.drop s.drv.committed

/-- an operation meets the conditions of a run; a crash leaves what may survive at some point of an operation, or of
`open_volume` -/
def Legal (s : Life) : Event → Prop
  | .op o => JunkUnused s.drv o ∧ PendingKept s.drv o
  | .reopen => True
  | .crash o p f => JunkUnused s.drv o ∧ (s.drv.writes = [] ∨ s.drv.io <+: p) ∧ p <+: (s.drv.step o).io ∧
      (s.disk p).Survives File.write f

/-- the writes that were called for, oldest first -/
def issued : List Event → List (ℤ × Buf)
  | [] => []
  | .op (.write buf off _) :: es => (off, buf) :: issued es
  | _ :: es => issued es

structure Alive (s : Life) : Prop where
  imaged : Imaged s.drv
  inside : Inside s.drv
  number : getSequenceNumber s.drv.vol = s.drv.start + s.drv.committed
  mountable : Mountable s.base
  view : (s.disk s.drv.io).view File.write = s.drv.vol.file
  survives : ∀ f, (s.disk s.drv.io).Survives File.write f → Kept f s.drv.vol
  /-- until the first write the session has only opened the file -/
  opening : s.drv.writes = [] → s.drv.io = (openVolume s.base).io ∧ s.drv.vol = (openVolume s.base).vol

theorem disk_append (s : Life) (p q : List (Io (ℤ × Block))) : s.disk (p ++ q) = (s.disk p).exec File.write q :=
  exec_append File.write _ p q

theorem Alive.self {s : Life} (h : Alive s) : Kept s.drv.vol.file s.drv.vol := by
  have hv := h.survives _ (survives_view File.write _)
  rwa [h.view] at hv

theorem alive_boot {f : File} (h : Mountable f) (past : List (ℤ × Buf)) : Alive (Life.boot f past) := by
  have hkept := kept_view h
  have himaged : Imaged (Driver.open (getSequenceNumber (openVolume f).vol) (openVolume f)) :=
    imaged_opened f _ .openVolume (fun _ => h.volume) trivial
  have hsize : 4096 ≤ (openVolume f).vol.file.size := by
    have hwhole := h.whole
    by_cases he : (f.size + 1) / blockSize = 0
    · rw [openVolume_empty f he]
      simp only [freshVolume, File.write, blockSize_eq]
      omega
    · rw [(openVolume_first f he).1]
      rw [blockSize_eq] at he
      omega
  refine ⟨himaged, ⟨himaged.layered.sound, hkept.whole, hsize, fun x hx => ?_⟩, ?_, h, ?_,
    kept_opening h _ (List.prefix_refl _), fun _ => ⟨rfl, rfl⟩⟩
  · rcases hx with ⟨k, hc, hk, hx⟩ | ⟨k, hc, hk, -⟩
    · have hroot : (Life.boot f past).drv.root 0 = (openVolume f).vol.committedRoot :=
        himaged.layered.sound.root_committed
      have hk0 : k = 0 := Nat.le_zero.1 hk
      have hx' : Reach volShape (child (openVolume f).vol.file) (openVolume f).vol.committedRoot x := by
        rw [hk0, hroot] at hx
        exact hx
      exact (hkept.inside x hx').2
    · exact absurd (hc.trans_le hk) (lt_irrefl _)
  · simp [Life.boot, Driver.open]
  · rw [Life.disk, view_exec]
    by_cases he : (f.size + 1) / blockSize = 0
    · simp only [Life.boot, Driver.open, openVolume, if_pos he]
      rfl
    · simp only [Life.boot, Driver.open, openVolume, if_neg he]
      rfl

/-! ## Operations -/

theorem kept_write {f : File} {v : Volume} (h : Kept f v) (w : ℤ × Block) (h0 : w.1 ≠ 0)
    (hx : ¬ Reach volShape (child v.file) v.committedRoot w.1) : Kept (f.write w) v where
  carries := carries_write h.carries w h0 hx
  whole := by
    have := h.whole
    simp only [File.write, blockSize_eq]
    omega
  inside x hr := by
    have hin := h.inside x hr
    simp only [File.write, blockSize_eq]
    omega

theorem kept_sameTree {f : File} {v w : Volume} (h : Kept f v) (hs : SameTree v w) : Kept f w := by
  have hroot : w.committedRoot = v.committedRoot := by rw [Volume.committedRoot, hs.firstBlock]; rfl
  refine ⟨carries_sameTree h.carries hs, h.whole, fun x hx => ?_⟩
  rw [hroot] at hx
  exact h.inside x ((reach_congr volShape (child v.file) (child w.file) v.committedRoot (child_zero _) (child_zero _)
    (fun y hy => child_congr (hs.tree y hy)) x).1 hx)

section Write

variable {s : Life} {off : ℤ} {buf : Buf} {junk : ℕ → ℤ}

/-- **A crash in a write** leaves the committed tree. -/
theorem kept_in_write (h : Alive s) (ho : InRange off) (hj : JunkUnused s.drv (.write buf off junk))
    (q : List (Io (ℤ × Block))) (hq : q <+: (write junk buf off s.drv.next s.drv.vol).io) (f : File)
    (hf : (s.disk (s.drv.io ++ q)).Survives File.write f) : Kept f s.drv.vol := by
  obtain ⟨hs, uw, d, n, g, hw⟩ := write_step h.inside.sound ho buf junk (supplied_true s.drv _)
  rw [disk_append] at hf
  refine survives_inv File.write (fun f => Kept f s.drv.vol) _ q h.survives (fun w hm f hc => ?_) f hf
  obtain ⟨h0, hx⟩ := write_spares h.inside.sound hw (hj ho) w (hq.subset hm)
  exact kept_write hc w h0 hx

theorem alive_written (h : Alive s) (ho : InRange off) (hj : JunkUnused s.drv (.write buf off junk))
    (hp : PendingKept s.drv (.write buf off junk)) : Alive (s.step (.op (.write buf off junk))) := by
  obtain ⟨hs, uw, d, n, g, hw⟩ := write_step h.inside.sound ho buf junk (supplied_true s.drv _)
  set s' := s.step (.op (.write buf off junk)) with hs'
  have hdrv : s'.drv = s.drv.step (.write buf off junk) := rfl
  have htree : SameTree s.drv.vol s'.drv.vol := by
    rw [hdrv, hs.vol]
    exact write_sameTree h.inside.sound hw (hj ho)
  refine ⟨imaged_written h.imaged ho hj hp, inside_written h.inside ho hj, ?_, h.mountable, ?_, fun f hf => ?_,
    fun h0 => ?_⟩
  · rw [hdrv, hs.committed, hs.start, ← h.number]
    exact congrArg FirstBlock.lastCommitted htree.firstBlock
  · calc (s'.disk s'.drv.io).view File.write
        = (write junk buf off s.drv.next s.drv.vol).io.foldl (Io.apply File.write) s.drv.vol.file := by
          rw [hdrv, hs.io, disk_append, view_exec, ← h.view]
          rfl
      _ = s'.drv.vol.file := by rw [hdrv, hs.vol, hw.io]
  · rw [hdrv, hs.io] at hf
    exact kept_sameTree (kept_in_write h ho hj _ (List.prefix_refl _) f hf) htree
  · rw [hdrv, hs.writes] at h0
    exact absurd h0 (List.append_ne_nil_of_right_ne_nil _ (List.cons_ne_nil _ _))

end Write

section Commit

variable {s : Life} {w : ℤ × Buf} {uw : UncommittedWrite} {c : Call}

/-- the file after the commit -/
theorem kept_committed (h : Alive s) (hs : Committed s.drv (s.drv.step .commit) w uw c) : Kept c.vol.file c.vol := by
  have hinside := inside_committed h.inside hs
  have hroot := (sound_committed h.inside.sound hs).root_committed
  rw [← hs.vol]
  refine ⟨by rw [hs.vol]; exact carries_committed hs, hinside.whole, fun x hx => ?_⟩
  have hx' : x ∈ (s.drv.step .commit).used := by
    refine used_live le_rfl hinside.sound.le ?_
    rw [hroot]
    exact hx
  exact ⟨hinside.sound.pos hx', hinside.inside x hx'⟩

/-- **A crash in a commit** leaves the old committed tree or the new one. -/
theorem kept_in_commit (h : Alive s) (hs : Committed s.drv (s.drv.step .commit) w uw c) (q : List (Io (ℤ × Block)))
    (hq : q <+: c.io) (f : File) (hf : (s.disk (s.drv.io ++ q)).Survives File.write f) :
    Kept f s.drv.vol ∨ Kept f c.vol := by
  rw [hs.ok.io] at hq
  rw [disk_append] at hf
  rcases survives_commit File.write _ _ q hq f hf with hf | rfl | rfl
  · exact Or.inl (h.survives f hf)
  · rw [h.view]
    exact Or.inl h.self
  · rw [h.view, ← hs.ok.file]
    exact Or.inr (kept_committed h hs)

theorem alive_committed (h : Alive s) (hs : Committed s.drv (s.drv.step .commit) w uw c) :
    Alive (s.step (.op .commit)) := by
  set s' := s.step (.op .commit) with hs'
  have hdrv : s'.drv = s.drv.step .commit := rfl
  refine ⟨imaged_committed h.imaged hs, inside_committed h.inside hs, ?_, h.mountable, ?_, fun f hf => ?_, fun h0 => ?_⟩
  · rw [hdrv, hs.committed, hs.start, hs.vol, getSequenceNumber, hs.ok.last]
    push_cast
    ring
  · calc (s'.disk s'.drv.io).view File.write = c.io.foldl (Io.apply File.write) s.drv.vol.file := by
          rw [hdrv, hs.io, disk_append, view_exec, ← h.view]
          rfl
      _ = s.drv.vol.file.write (0, c.vol.firstBlock.toBlock) := by
          rw [hs.ok.io]
          rfl
      _ = s'.drv.vol.file := by rw [hdrv, hs.vol, hs.ok.file]
  · rw [hdrv, hs.io, hs.ok.io, disk_append] at hf
    have hview : (s'.disk s.drv.io).view File.write = s.drv.vol.file := h.view
    rw [survives_committed File.write _ _ f hf, hview, ← hs.ok.file, hdrv, hs.vol]
    exact kept_committed h hs
  · rw [hdrv, hs.writes] at h0
    have hlt := hs.lt
    rw [h0] at hlt
    exact absurd hlt (Nat.not_lt_zero _)

end Commit

/-! ## The log -/

/-- the committed image is `img` with the log in it, and its number counts the log from `first` on -/
structure Chronicle (img : Image) (first : ℤ) (s : Life) : Prop where
  alive : Alive s
  image : s.drv.vol.image = img.writeAll first s.log
  number : s.drv.start + s.drv.committed = first + s.log.length

theorem chronicle_boot {f : File} (h : Mountable f) :
    Chronicle (openVolume f).vol.image (getSequenceNumber (openVolume f).vol) (Life.boot f []) where
  alive := alive_boot h []
  image := rfl
  number := by simp [Life.boot, Life.log, Driver.open]

section Chronicle

variable {img : Image} {first : ℤ} {s : Life}

theorem chronicle_written {off : ℤ} {buf : Buf} {junk : ℕ → ℤ} (h : Chronicle img first s) (ho : InRange off)
    (hj : JunkUnused s.drv (.write buf off junk)) (hp : PendingKept s.drv (.write buf off junk)) :
    Chronicle img first (s.step (.op (.write buf off junk))) ∧ (s.step (.op (.write buf off junk))).log = s.log := by
  have hs := step_write (s := s.drv) ho buf junk
  have hlog : (s.step (.op (.write buf off junk))).log = s.log := by
    change s.past ++ (s.drv.step (.write buf off junk)).writes.take (s.drv.step (.write buf off junk)).committed = _
    rw [hs.writes, hs.committed, List.take_append_of_le_length h.alive.inside.sound.le]
    rfl
  refine ⟨⟨alive_written h.alive ho hj hp, ?_, ?_⟩, hlog⟩
  · rw [hlog, ← h.image]
    exact volImage_written h.alive.imaged ho hj
  · change (s.drv.step (.write buf off junk)).start + ((s.drv.step (.write buf off junk)).committed : ℤ) = _
    rw [hlog, hs.start, hs.committed, h.number]

theorem chronicle_committed {w : ℤ × Buf} {uw : UncommittedWrite} {c : Call} (h : Chronicle img first s)
    (hs : Committed s.drv (s.drv.step .commit) w uw c) :
    Chronicle img first (s.step (.op .commit)) ∧ (s.step (.op .commit)).log = s.log ++ [w] := by
  have hlog : (s.step (.op .commit)).log = s.log ++ [w] := by
    change s.past ++ (s.drv.step .commit).writes.take (s.drv.step .commit).committed = _
    rw [hs.writes, hs.committed, List.take_add_one, hs.write, Option.toList_some, ← List.append_assoc]
    rfl
  refine ⟨⟨alive_committed h.alive hs, ?_, ?_⟩, hlog⟩
  · calc (s.drv.step .commit).vol.image = s.drv.vol.image.write (s.drv.start + s.drv.committed + 1) w :=
          volImage_committed h.alive.imaged hs
      _ = img.writeAll first (s.step (.op .commit)).log := by rw [hlog, writeAll_snoc, h.image, h.number]
  · change (s.drv.step .commit).start + ((s.drv.step .commit).committed : ℤ) = _
    rw [hlog, hs.start, hs.committed, List.length_append, List.length_singleton]
    have := h.number
    push_cast
    linarith

/-- **The end of a session.** A file that holds the committed tree opens with the whole log. -/
theorem chronicle_recover {f : File} (h : Chronicle img first s) (hf : Kept f s.drv.vol) :
    Chronicle img first (s.recover f) ∧ (s.recover f).log = s.log := by
  have hsound := h.alive.inside.sound
  have hproper : Proper volShape (child s.drv.vol.file) s.drv.vol.committedRoot := by
    have := hsound.versions.proper _ le_rfl hsound.le
    rwa [hsound.root_committed] at this
  have hnumber : getSequenceNumber (openVolume f).vol = s.drv.start + s.drv.committed := hf.number.trans h.alive.number
  have hpast : (s.recover f).past = s.log := by
    change s.past ++ s.drv.writes.take (getSequenceNumber (openVolume f).vol - s.drv.start).toNat = s.log
    rw [hnumber, add_sub_cancel_left, Int.toNat_natCast]
    rfl
  have hlog : (s.recover f).log = s.log := (List.append_nil _).trans hpast
  refine ⟨⟨alive_boot (hf.mountable hproper) _, ?_, ?_⟩, hlog⟩
  · rw [hlog, ← h.image]
    exact hf.image
  · rw [hlog, ← h.number, ← hnumber]
    simp [Life.recover, Life.boot, Driver.open]

/-- what a crash leaves: the committed tree of now, or the one after the commit it fell into -/
theorem kept_in_crash (h : Alive s) {o : Op} {p : List (Io (ℤ × Block))} {f : File} (hl : Legal s (.crash o p f)) :
    Kept f s.drv.vol ∨ ∃ w uw c, o = .commit ∧ Committed s.drv (s.drv.step .commit) w uw c ∧ Kept f c.vol := by
  obtain ⟨hj, hp, hp', hf⟩ := hl
  -- a crash in `open_volume`
  have hearly : s.drv.writes = [] → p <+: s.drv.io → Kept f s.drv.vol := by
    intro h0 hq
    obtain ⟨hio, hvol⟩ := h.opening h0
    rw [hvol]
    exact kept_opening h.mountable p (hio ▸ hq) f hf
  by_cases hlong : s.drv.io <+: p
  swap
  · rcases List.prefix_or_prefix_of_prefix hp' (step_io s.drv o) with hshort | hlong'
    · exact Or.inl (hearly (hp.resolve_right hlong) hshort)
    · exact absurd hlong' hlong
  obtain ⟨q, rfl⟩ := hlong
  have hstay : s.drv.step o = s.drv → Kept f s.drv.vol := by
    intro e
    rw [e] at hp'
    have hq : q = [] := by
      have := hp'.length_le
      rw [List.length_append] at this
      exact List.length_eq_zero_iff.1 (by omega)
    rw [hq, List.append_nil] at hf
    exact h.survives f hf
  cases o with
  | write buf off junk =>
    left
    by_cases ho : InRange off
    · rw [(step_write ho buf junk).io, List.prefix_append_right_inj] at hp'
      exact kept_in_write h ho hj q hp' f hf
    · exact hstay (by simp only [Driver.step, if_neg ho])
  | commit =>
    rcases step_commit h.inside.sound with ⟨-, e⟩ | ⟨w, uw, c, hs⟩
    · exact Or.inl (hstay e)
    · rw [hs.io, List.prefix_append_right_inj] at hp'
      exact (kept_in_commit h hs q hp' f hf).imp_right fun hc => ⟨w, uw, c, rfl, hs, hc⟩

/-- **One event.** The log loses nothing. -/
theorem life_step (h : Chronicle img first s) (e : Event) (hl : Legal s e) :
    Chronicle img first (s.step e) ∧ s.log <+: (s.step e).log := by
  cases e with
  | op o =>
    cases o with
    | write buf off junk =>
      by_cases ho : InRange off
      · obtain ⟨hc, hlog⟩ := chronicle_written h ho hl.1 hl.2
        exact ⟨hc, hlog ▸ List.prefix_refl _⟩
      · have hstay : s.step (.op (.write buf off junk)) = s := by
          simp only [Life.step, Driver.step, if_neg ho]
        rw [hstay]
        exact ⟨h, List.prefix_refl _⟩
    | commit =>
      rcases step_commit h.alive.inside.sound with ⟨-, e⟩ | ⟨w, uw, c, hs⟩
      · have hstay : s.step (.op .commit) = s := by simp only [Life.step, e]
        rw [hstay]
        exact ⟨h, List.prefix_refl _⟩
      · obtain ⟨hc, hlog⟩ := chronicle_committed h hs
        exact ⟨hc, hlog ▸ List.prefix_append _ _⟩
  | reopen =>
    obtain ⟨hc, hlog⟩ := chronicle_recover h (h.alive.view ▸ h.alive.self)
    exact ⟨hc, hlog ▸ List.prefix_refl _⟩
  | crash o p f =>
    rcases kept_in_crash h.alive hl with hf | ⟨w, uw, c, rfl, hs, hf⟩
    · obtain ⟨hc, hlog⟩ := chronicle_recover h hf
      exact ⟨hc, hlog ▸ List.prefix_refl _⟩
    · -- the next session cannot tell this crash from one right after the commit
      have hsame : s.recover f = (s.step (.op .commit)).recover f := by
        change Life.boot f _ = Life.boot f _
        rw [show (s.step (.op .commit)).drv = s.drv.step .commit from rfl, hs.writes, hs.start]
        rfl
      obtain ⟨hc, hlog⟩ := chronicle_committed h hs
      obtain ⟨hr, hrlog⟩ := chronicle_recover hc (hs.vol ▸ hf)
      change Chronicle img first (s.recover f) ∧ s.log <+: (s.recover f).log
      rw [hsame, hrlog, hlog]
      exact ⟨hr, List.prefix_append _ _⟩

end Chronicle

theorem run_chronicle {img : Image} {first : ℤ} {s : Life} (h : Chronicle img first s) (es : List Event)
    (hl : Meets Life.step Legal s es) :
    Chronicle img first (run Life.step s es) ∧ s.log <+: (run Life.step s es).log := by
  induction es generalizing s with
  | nil => exact ⟨h, List.prefix_refl _⟩
  | cons e es ih =>
    obtain ⟨hc, hlog⟩ := life_step h e hl.1
    obtain ⟨hrun, hrest⟩ := ih hc hl.2
    exact ⟨hrun, hlog.trans hrest⟩

/-! ## What was called for -/

theorem commit_writes (s : Driver) : (s.step .commit).writes = s.writes := by
  simp only [Driver.step]
  split
  · rfl
  · split <;> rfl

/-- log and queue hold writes that were called for, in their order -/
theorem run_issued (s : Life) (es : List Event) :
    ((run Life.step s es).past ++ (run Life.step s es).drv.writes).Sublist (s.past ++ s.drv.writes ++ issued es) := by
  induction es generalizing s with
  | nil => simp [issued]
  | cons e es ih =>
    have hrest := ih (s.step e)
    have hend : ∀ f, ((s.recover f).past ++ (s.recover f).drv.writes).Sublist (s.past ++ s.drv.writes) := by
      intro f
      change (s.past ++ s.drv.writes.take _ ++ []).Sublist _
      rw [List.append_nil]
      exact (List.take_sublist _ _).append_left _
    cases e with
    | op o =>
      cases o with
      | write buf off junk =>
        by_cases ho : InRange off
        · have hw : (s.step (.op (.write buf off junk))).drv.writes = s.drv.writes ++ [(off, buf)] :=
            (step_write ho buf junk).writes
          have hlist : s.past ++ (s.drv.writes ++ [(off, buf)]) ++ issued es =
              s.past ++ s.drv.writes ++ issued (.op (.write buf off junk) :: es) := by
            simp [issued]
          rw [hw, show (s.step (.op (.write buf off junk))).past = s.past from rfl, hlist] at hrest
          exact hrest
        · have hw : (s.step (.op (.write buf off junk))).drv.writes = s.drv.writes := by
            simp only [Life.step, Driver.step, if_neg ho]
          rw [hw] at hrest
          exact hrest.trans (List.Sublist.append_left (List.sublist_cons_self _ _) _)
      | commit =>
        have hw : (s.step (.op .commit)).drv.writes = s.drv.writes := commit_writes s.drv
        rw [hw] at hrest
        exact hrest
    | reopen => exact hrest.trans ((hend _).append_right _)
    | crash o p f => exact hrest.trans ((hend f).append_right _)

/-- **No session loses a committed write.** A volume file is opened, used, closed, and cut off by crashes at any point of
any operation, any number of times. At each moment there is a log, made of writes that were called for, in their order,
which has only grown: block 0 counts it, the block map is the first one with the log applied, and a read returns the
bytes of the log and the queue after it (where its uncommitted blocks are pending). -/
theorem log_persists (f : File) (hf : Mountable f) (es es' : List Event)
    (hl : Meets Life.step Legal (Life.boot f []) (es ++ es')) :
    let img := (openVolume f).vol.image
    let first := getSequenceNumber (openVolume f).vol
    let s := run Life.step (Life.boot f []) es
    s.drv.vol.image = img.writeAll first s.log ∧
      getSequenceNumber s.drv.vol = first + s.log.length ∧
      (∀ off, InRange off → ReadKept s.drv off → ∀ p < blockSize,
        read s.drv.vol off p = (img.writeAll first (s.log ++ s.queue)).byte (off + p)) ∧
      (s.log ++ s.queue).Sublist (issued es) ∧
      s.log <+: (run Life.step (Life.boot f []) (es ++ es')).log := by
  intro img first s
  obtain ⟨hl1, hl2⟩ := (meets_append Life.step Legal (Life.boot f []) es es').1 hl
  obtain ⟨h, -⟩ := run_chronicle (chronicle_boot hf) es hl1
  have hall : s.log ++ s.queue = s.past ++ s.drv.writes := by
    rw [Life.log, Life.queue, List.append_assoc, List.take_append_drop]
  refine ⟨h.image, h.alive.number.trans h.number, fun off ho hk p hp => ?_, ?_, ?_⟩
  · have hnew : s.drv.spec.newest = img.writeAll first (s.log ++ s.queue) := by
      rw [writeAll_append, ← h.image, ← h.number]
      rfl
    rw [read_newest h.alive.imaged ho hk hp, hnew]
  · rw [hall]
    exact run_issued (Life.boot f []) es
  · rw [run_append]
    exact (run_chronicle h es' hl2).2

/-- two sessions: the first one crashes in its second commit and loses the second write -/
theorem log_persists_crash :
    let s := run Life.step (Life.boot fiveBlocks []) [.op secondOp, .op .commit, .op secondOp]
    let f := (s.disk s.drv.io).durable
    s.log <+: (run Life.step (Life.boot fiveBlocks [])
      ([.op secondOp, .op .commit, .op secondOp] ++ [.crash .commit s.drv.io f, .op secondOp])).log := by
  intro s f
  have hf : Mountable fiveBlocks :=
    ⟨volumeFile_empty fiveBlocks (by simp [fiveBlocks, FirstBlock.zero]), rfl, fun h => absurd h (by decide)⟩
  have hop : ∀ t : Life, Legal t (.op secondOp) := fun t =>
    ⟨junkUnused_secondOp _, fun _ h => absurd (show remOf 0 = 0 from rfl) h⟩
  have hl : Meets Life.step Legal (Life.boot fiveBlocks [])
      ([.op secondOp, .op .commit, .op secondOp] ++ [.crash .commit s.drv.io f, .op secondOp]) :=
    ⟨hop _, ⟨trivial, trivial⟩, hop _, ⟨trivial, Or.inr (List.prefix_refl _), step_io _ _, [], List.nil_sublist _, rfl⟩,
      hop _, trivial⟩
  exact (log_persists fiveBlocks hf _ _ hl).2.2.2.2

end ChainedBlockStorage.Storage
