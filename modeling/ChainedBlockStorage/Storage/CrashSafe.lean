/-
Crash atomicity of the volume.

The file operations of a run go through a write-back cache (`Core/Crash`). `Carries f v` says that the file `f` holds
the committed tree of `v`: block 0 names its root and number, and its blocks are as in the memory's file.

- `open_carries`: `open_volume` of such a file finds exactly that committed tree.
- `write_survivors`, `commit_survivors`: at every point of a write what may survive carries the committed tree; at every
  point of a commit it carries the old one or the new one.
- `crash_atomic`: a crash at any point of a run on a new file loses nothing committed and exposes nothing else.
-/
import ChainedBlockStorage.Storage.Runs

namespace ChainedBlockStorage.Storage

open Crash Radix Run

/-! ## The committed tree in a file -/

/-- the root of the committed tree -/
def Volume.committedRoot (v : Volume) : ℤ := v.firstBlock.firstLevelBlocks 0

structure Carries (f : File) (v : Volume) : Prop where
  last : (FirstBlock.ofBlock (f.block 0)).lastCommitted = v.firstBlock.lastCommitted
  root : (FirstBlock.ofBlock (f.block 0)).firstLevelBlocks 0 = v.committedRoot
  tree : ∀ x, Reach volShape (child v.file) v.committedRoot x → f.block x = v.file.block x
  empty : (f.size + 1) / blockSize = 0 → f.block 0 = Block.zero

/-- the same data for every block, the same `last_updated`, and the same number -/
structure SameCommitted (v w : Volume) : Prop where
  data : ∀ b < numBlocks, leafData v.file v.committedRoot b = leafData w.file w.committedRoot b
  updated : ∀ b < numBlocks, leafUpdated v.file v.committedRoot b = leafUpdated w.file w.committedRoot b
  last : getSequenceNumber v = getSequenceNumber w

theorem SameCommitted.refl (v : Volume) : SameCommitted v v := ⟨fun _ _ => rfl, fun _ _ => rfl, rfl⟩

theorem SameCommitted.trans {u v w : Volume} (h : SameCommitted u v) (h' : SameCommitted v w) : SameCommitted u w :=
  ⟨fun b hb => (h.data b hb).trans (h'.data b hb), fun b hb => (h.updated b hb).trans (h'.updated b hb),
    h.last.trans h'.last⟩

/-- two volumes whose files agree on the committed tree -/
theorem sameCommitted_of_tree {v w : Volume} (hroot : v.committedRoot = w.committedRoot)
    (hlast : getSequenceNumber v = getSequenceNumber w)
    (htree : ∀ x, Reach volShape (child w.file) w.committedRoot x → v.file.block x = w.file.block x) :
    SameCommitted v w where
  data := fun b hb => by rw [hroot]; exact leafData_frame htree b hb
  updated := fun b hb => by rw [hroot]; exact leafUpdated_frame htree b hb
  last := hlast

theorem openVolume_first (f : File) (h : (f.size + 1) / blockSize ≠ 0) :
    (openVolume f).vol.file = f ∧ (openVolume f).vol.firstBlock = FirstBlock.ofBlock (f.block 0) := by
  simp only [openVolume, if_neg h]
  exact ⟨rfl, rfl⟩

theorem openVolume_first_empty (f : File) (h : (f.size + 1) / blockSize = 0) :
    (openVolume f).vol.firstBlock = FirstBlock.zero := by
  simp only [openVolume, if_pos h]
  rfl

/-- **Reopening.** -/
theorem open_carries {f : File} {v : Volume} (h : Carries f v) : SameCommitted (openVolume f).vol v := by
  by_cases he : (f.size + 1) / blockSize = 0
  · -- an empty file carries the empty tree
    have hz := h.empty he
    have hroot : v.committedRoot = 0 := by rw [← h.root, hz, ofBlock_zero]; rfl
    have hfirst := openVolume_first_empty f he
    have hroot' : (openVolume f).vol.committedRoot = 0 := by rw [Volume.committedRoot, hfirst]; rfl
    refine sameCommitted_of_tree (hroot'.trans hroot.symm) ?_ fun x hx => ?_
    · rw [getSequenceNumber, getSequenceNumber, ← h.last, hfirst, hz, ofBlock_zero]
    · rw [hroot] at hx
      exact absurd hx (not_reach_null _ _ (child_zero _) x)
  · obtain ⟨hfile, hfirst⟩ := openVolume_first f he
    refine sameCommitted_of_tree ?_ ?_ fun x hx => ?_
    · rw [Volume.committedRoot, hfirst, h.root]
    · rw [getSequenceNumber, getSequenceNumber, hfirst, h.last]
    · rw [hfile]
      exact h.tree x hx

theorem carries_write {f : File} {v : Volume} (h : Carries f v) (w : ℤ × Block) (h0 : w.1 ≠ 0)
    (hx : ¬ Reach volShape (child v.file) v.committedRoot w.1) : Carries (f.write w) v where
  last := by rw [write_block_ne f w 0 h0.symm, h.last]
  root := by rw [write_block_ne f w 0 h0.symm, h.root]
  tree := fun x hr => by
    have hne : x ≠ w.1 := fun e => hx (e ▸ hr)
    rw [write_block_ne f w x hne, h.tree x hr]
  empty := fun he => by
    rw [write_block_ne f w 0 h0.symm]
    apply h.empty
    simp only [File.write, blockSize_eq] at he ⊢
    omega

/-- the committed tree of `w` is the one of `v` -/
structure SameTree (v w : Volume) : Prop where
  firstBlock : w.firstBlock = v.firstBlock
  tree : ∀ x, Reach volShape (child v.file) v.committedRoot x → w.file.block x = v.file.block x

theorem carries_sameTree {f : File} {v w : Volume} (h : Carries f v) (hs : SameTree v w) : Carries f w := by
  have hroot : w.committedRoot = v.committedRoot := by rw [Volume.committedRoot, hs.firstBlock]; rfl
  refine ⟨by rw [h.last, hs.firstBlock], by rw [h.root, hroot], fun x hx => ?_, h.empty⟩
  rw [hroot] at hx
  have hx' := (reach_congr volShape (child v.file) (child w.file) v.committedRoot (child_zero _) (child_zero _)
    (fun y hy => child_congr (hs.tree y hy)) x).1 hx
  rw [h.tree x hx', hs.tree x hx']

theorem sameCommitted_of_sameTree {v w : Volume} (hs : SameTree v w) : SameCommitted w v := by
  have hroot : w.committedRoot = v.committedRoot := by rw [Volume.committedRoot, hs.firstBlock]; rfl
  exact sameCommitted_of_tree hroot (by rw [getSequenceNumber, getSequenceNumber, hs.firstBlock]) hs.tree

/-! ## One step -/

/-- the file as device and cache hold it after the operations of a run on a new file -/
def diskAfter (io : List (Io (ℤ × Block))) : Disk File (ℤ × Block) := Disk.exec File.write ⟨File.new, []⟩ io

theorem diskAfter_append (l l' : List (Io (ℤ × Block))) : diskAfter (l ++ l') = (diskAfter l).exec File.write l' :=
  exec_append File.write _ l l'

/-- between operations: the process sees `vol.file`, and whatever may survive carries the committed tree -/
structure Durable (s : Driver) : Prop where
  sound : Sound True s
  view : (diskAfter s.io).view File.write = s.vol.file
  survives : ∀ f, (diskAfter s.io).Survives File.write f → Carries f s.vol

theorem Durable.self {s : Driver} (h : Durable s) : Carries s.vol.file s.vol := by
  have hv := h.survives _ (survives_view File.write _)
  rwa [h.view] at hv

section Write

variable {s s' : Driver} {off : ℤ} {buf : Buf} {J : Set ℤ} {b r : ℕ} {out : Call} {uw : UncommittedWrite} {d : ℕ → ℤ}
  {n : ℕ → ℤ × ℤ} {g : File}

/-- no operation of a write touches block 0 or the committed tree -/
theorem write_spares (h : Sound True s) (hw : WriteOk True s.used J s.vol b r buf s.next out uw d n g)
    (hj : ∀ x ∈ J, x ≠ 0 ∧ ¬ s.vol.Holds x ∧ x ∉ out.nums) (w : ℤ × Block) (hm : .pwrite w ∈ out.io) :
    w.1 ≠ 0 ∧ ¬ Reach volShape (child s.vol.file) s.vol.committedRoot w.1 := by
  rcases hw.wrote w hm with ha | hJ
  · obtain ⟨a, ha, e⟩ := ha
    have hg := hw.got a ha
    rw [← e]
    exact ⟨by have := hg.pos; omega, fun hx => hg.unused (h.holds_used (Or.inl hx))⟩
  · exact ⟨(hj w.1 hJ).1, fun hx => (hj w.1 hJ).2.1 (Or.inl hx)⟩

theorem write_sameTree (h : Sound True s) (hw : WriteOk True s.used J s.vol b r buf s.next out uw d n g)
    (hj : ∀ x ∈ J, x ≠ 0 ∧ ¬ s.vol.Holds x ∧ x ∉ out.nums) : SameTree s.vol out.vol where
  firstBlock := hw.firstBlock
  tree := fun _ hx => hw.held_kept h (fun x hJ => (hj x hJ).2.1) (Or.inl hx)

/-- **Crash in a write.** -/
theorem write_survivors (h : Durable s) (hw : WriteOk True s.used J s.vol b r buf s.next out uw d n g)
    (hj : ∀ x ∈ J, x ≠ 0 ∧ ¬ s.vol.Holds x ∧ x ∉ out.nums) (q : List (Io (ℤ × Block))) (hq : q <+: out.io) (f : File)
    (hf : (diskAfter (s.io ++ q)).Survives File.write f) : Carries f s.vol := by
  rw [diskAfter_append] at hf
  refine survives_inv File.write (fun f => Carries f s.vol) _ q h.survives (fun w hm f hc => ?_) f hf
  obtain ⟨h0, hx⟩ := write_spares h.sound hw hj w (hq.subset hm)
  exact carries_write hc w h0 hx

theorem durable_written (h : Durable s) (hs : Written s s' off buf out)
    (hw : WriteOk True s.used J s.vol b r buf s.next out uw d n g)
    (hj : ∀ x ∈ J, x ≠ 0 ∧ ¬ s.vol.Holds x ∧ x ∉ out.nums) : Durable s' where
  sound := sound_written h.sound hs hw
  view := by
    calc (diskAfter s'.io).view File.write = out.io.foldl (Io.apply File.write) s.vol.file := by
          rw [hs.io, diskAfter_append, view_exec, h.view]
      _ = s'.vol.file := by rw [hs.vol, hw.io]
  survives := fun f hf => by
    rw [hs.io] at hf
    rw [hs.vol]
    exact carries_sameTree (write_survivors h hw hj out.io (List.prefix_refl _) f hf) (write_sameTree h.sound hw hj)

end Write

section Commit

variable {s s' : Driver} {w : ℤ × Buf} {uw : UncommittedWrite} {c : Call}

/-- the file after the commit carries the new committed tree -/
theorem carries_committed (hs : Committed s s' w uw c) : Carries c.vol.file c.vol where
  last := by rw [hs.ok.file, write_block_self]; exact ofBlock_toBlock_lastCommitted _
  root := by rw [hs.ok.file, write_block_self]; exact ofBlock_toBlock_firstLevelBlocks _
  tree := fun _ _ => rfl
  empty := fun he => by
    rw [hs.ok.file] at he
    simp only [File.write, blockSize_eq] at he
    omega

/-- **Crash in a commit.** Before the new block 0 is on disk the old tree survives, afterwards the new one; the first
sync has made all of it durable. -/
theorem commit_survivors (h : Durable s) (hs : Committed s s' w uw c) (q : List (Io (ℤ × Block))) (hq : q <+: c.io)
    (f : File) (hf : (diskAfter (s.io ++ q)).Survives File.write f) : Carries f s.vol ∨ Carries f c.vol := by
  rw [hs.ok.io] at hq
  rw [diskAfter_append] at hf
  rcases survives_commit File.write _ _ q hq f hf with hf | rfl | rfl
  · exact Or.inl (h.survives f hf)
  · rw [h.view]
    exact Or.inl h.self
  · rw [h.view, ← hs.ok.file]
    exact Or.inr (carries_committed hs)

theorem durable_committed (h : Durable s) (hs : Committed s s' w uw c) : Durable s' where
  sound := sound_committed h.sound hs
  view := by
    calc (diskAfter s'.io).view File.write = c.io.foldl (Io.apply File.write) s.vol.file := by
          rw [hs.io, diskAfter_append, view_exec, h.view]
      _ = s.vol.file.write (0, c.vol.firstBlock.toBlock) := by
          rw [hs.ok.io]
          rfl
      _ = s'.vol.file := by rw [hs.vol, hs.ok.file]
  survives := fun f hf => by
    rw [hs.io, hs.ok.io, diskAfter_append] at hf
    rw [survives_committed File.write _ _ f hf, h.view, hs.vol, ← hs.ok.file]
    exact carries_committed hs

end Commit

theorem step_durable (s : Driver) (op : Op) (h : Durable s) (hj : JunkUnused s op) : Durable (s.step op) := by
  refine Driver.step_inv Durable h.sound h op (fun buf off junk e ho => ?_) fun w uw c hs => durable_committed h hs
  subst e
  obtain ⟨hs, uw, d, n, g, hw⟩ := write_step h.sound ho buf junk (supplied_true s _)
  exact durable_written h hs hw (hj ho)

/-- `init_volume` on a new file: the empty tree survives whether or not its block 0 does -/
theorem init_survivors (q : List (Io (ℤ × Block))) (hq : q <+: Driver.new.io) (f : File)
    (hf : (diskAfter q).Survives File.write f) : Carries f Driver.new.vol := by
  have hempty : ∀ x, ¬ Reach volShape (child Driver.new.vol.file) Driver.new.vol.committedRoot x :=
    not_reach_null _ _ (child_zero _)
  have hnew : Carries File.new Driver.new.vol :=
    ⟨by simp [File.new, FirstBlock.zero]; rfl, by simp [File.new, FirstBlock.zero]; rfl,
      fun x hx => absurd hx (hempty x), fun _ => rfl⟩
  have hio : Driver.new.io = [.pwrite (0, FirstBlock.zero.toBlock)] := rfl
  rw [hio, List.prefix_cons_iff] at hq
  have hstart : ∀ f, (Disk.mk File.new ([] : List (ℤ × Block))).Survives File.write f → f = File.new := by
    intro f hf
    obtain ⟨ws, hws, rfl⟩ := hf
    rw [List.sublist_nil.1 hws]
    rfl
  rcases hq with rfl | ⟨q, rfl, hq⟩
  · rw [hstart f hf]
    exact hnew
  · rw [List.prefix_nil] at hq
    subst hq
    obtain ⟨g, hg, hfg⟩ := survives_pwrite File.write _ _ f hf
    rw [hstart g hg] at hfg
    rcases hfg with rfl | rfl
    · exact hnew
    · refine ⟨?_, ?_, fun x hx => absurd hx (hempty x), fun he => ?_⟩
      · rw [write_block_self, ofBlock_toBlock_lastCommitted]; rfl
      · rw [write_block_self, ofBlock_toBlock_firstLevelBlocks]; rfl
      · simp [File.write] at he
        omega

theorem durable_new : Durable Driver.new where
  sound := sound_new
  view := rfl
  survives := fun f hf => init_survivors Driver.new.io (List.prefix_refl _) f hf

theorem run_durable (es : List Op) (hj : Meets Driver.step JunkUnused Driver.new es) :
    Durable (run Driver.step Driver.new es) :=
  run_inv_of_meets Driver.step JunkUnused Durable step_durable Driver.new es durable_new hj

/-! ## Whole runs -/

/-- the operations of a run are only ever added to -/
theorem step_io (s : Driver) (op : Op) : s.io <+: (s.step op).io := by
  cases op with
  | write buf off junk =>
    simp only [Driver.step]
    split
    · exact List.prefix_append _ _
    · exact List.prefix_refl _
  | commit =>
    simp only [Driver.step]
    split
    · exact List.prefix_refl _
    · split
      · exact List.prefix_refl _
      · exact List.prefix_append _ _

/-- writes alone leave the committed tree as the last commit left it -/
theorem writes_sameCommitted (s : Driver) (ws : List Op) (h : Durable s) (hw : ∀ op ∈ ws, op ≠ .commit)
    (hj : Meets Driver.step JunkUnused s ws) : SameCommitted (run Driver.step s ws).vol s.vol := by
  induction ws generalizing s with
  | nil => exact SameCommitted.refl _
  | cons op ws ih =>
    have hrest := ih (s.step op) (step_durable s op h hj.1) (fun o ho => hw o (List.mem_cons_of_mem _ ho)) hj.2
    rw [run_cons]
    apply hrest.trans
    cases op with
    | write buf off junk =>
      by_cases ho : InRange off
      · obtain ⟨hs, uw, d, n, g, hwr⟩ := write_step h.sound ho buf junk (supplied_true s _)
        rw [hs.vol]
        exact sameCommitted_of_sameTree (write_sameTree h.sound hwr (hj.1 ho))
      · simp only [Driver.step, if_neg ho]
        exact SameCommitted.refl _
    | commit => exact absurd rfl (hw _ List.mem_cons_self)

/-- **Crash in any step.** -/
theorem step_survivors (s : Driver) (op : Op) (h : Durable s) (hj : JunkUnused s op) (p : List (Io (ℤ × Block)))
    (hp : s.io <+: p) (hp' : p <+: (s.step op).io) (f : File) (hf : (diskAfter p).Survives File.write f) :
    Carries f s.vol ∨ op = .commit ∧ Carries f (s.step op).vol := by
  obtain ⟨q, rfl⟩ := hp
  have hstay : s.step op = s → Carries f s.vol := by
    intro e
    rw [e] at hp'
    have hq : q = [] := by
      have := hp'.length_le
      simp only [List.length_append] at this
      exact List.length_eq_zero_iff.1 (by omega)
    rw [hq, List.append_nil] at hf
    exact h.survives f hf
  cases op with
  | write buf off junk =>
    left
    by_cases ho : InRange off
    · obtain ⟨hs, uw, d, n, g, hw⟩ := write_step h.sound ho buf junk (supplied_true s _)
      rw [hs.io, List.prefix_append_right_inj] at hp'
      exact write_survivors h hw (hj ho) q hp' f hf
    · exact hstay (by simp only [Driver.step, if_neg ho])
  | commit =>
    rcases step_commit h.sound with ⟨-, e⟩ | ⟨w, uw, c, hs⟩
    · exact Or.inl (hstay e)
    · rw [hs.io, List.prefix_append_right_inj] at hp'
      rw [hs.vol]
      exact (commit_survivors h hs q hp' f hf).imp_right fun hc => ⟨rfl, hc⟩

/-- **Crash atomicity.** A run on a new file does `es`, then the writes `ws` with nothing committed since, and crashes
anywhere in the operation `e` that follows (or in `init_volume`). Whatever the device kept, `open_volume` finds the
committed tree as it was after `es`, or, for a commit `e`, as it is after `e`. -/
theorem crash_atomic (es ws : List Op) (e : Op) (hws : ∀ op ∈ ws, op ≠ .commit)
    (hj : Meets Driver.step JunkUnused Driver.new (es ++ ws ++ [e])) (p : List (Io (ℤ × Block)))
    (hp : es ++ ws = [] ∨ (run Driver.step Driver.new (es ++ ws)).io <+: p)
    (hp' : p <+: (run Driver.step Driver.new (es ++ ws ++ [e])).io) (f : File)
    (hf : (diskAfter p).Survives File.write f) :
    SameCommitted (openVolume f).vol (run Driver.step Driver.new es).vol ∨
      e = .commit ∧ SameCommitted (openVolume f).vol (run Driver.step Driver.new (es ++ ws ++ [e])).vol := by
  obtain ⟨hj1, hj2⟩ := (meets_append Driver.step JunkUnused Driver.new (es ++ ws) [e]).1 hj
  obtain ⟨hje, hjw⟩ := (meets_append Driver.step JunkUnused Driver.new es ws).1 hj1
  have hsame : SameCommitted (run Driver.step Driver.new (es ++ ws)).vol (run Driver.step Driver.new es).vol := by
    rw [run_append]
    exact writes_sameCommitted _ ws (run_durable es hje) hws hjw
  have hstep : ∀ p, (run Driver.step Driver.new (es ++ ws)).io <+: p →
      p <+: (run Driver.step Driver.new (es ++ ws ++ [e])).io → (diskAfter p).Survives File.write f →
      SameCommitted (openVolume f).vol (run Driver.step Driver.new es).vol ∨
        e = .commit ∧ SameCommitted (openVolume f).vol (run Driver.step Driver.new (es ++ ws ++ [e])).vol := by
    intro p hp hp' hf
    rw [run_snoc] at hp' ⊢
    rcases step_survivors _ e (run_durable (es ++ ws) hj1) hj2.1 p hp hp' f hf with hc | ⟨he, hc⟩
    · exact Or.inl ((open_carries hc).trans hsame)
    · exact Or.inr ⟨he, open_carries hc⟩
  rcases hp with hnil | hp
  · -- the crash may also fall into `init_volume`
    obtain ⟨rfl, rfl⟩ := List.append_eq_nil_iff.1 hnil
    by_cases hlong : Driver.new.io <+: p
    · exact hstep p hlong hp' hf
    · left
      rcases List.prefix_or_prefix_of_prefix hp' (step_io Driver.new e) with hshort | hlong'
      · exact open_carries (init_survivors p hshort f hf)
      · exact absurd hlong' hlong
  · exact hstep p hp hp' hf

/-- write 1 is committed, write 2 is not, and the crash loses every block of write 2 -/
theorem crash_atomic_lost_write :
    SameCommitted (openVolume (diskAfter (run Driver.step Driver.new [firstOp, .commit, secondOp]).io).durable).vol
        (run Driver.step Driver.new [firstOp, .commit]).vol ∨
      Op.commit = .commit ∧
        SameCommitted (openVolume (diskAfter (run Driver.step Driver.new [firstOp, .commit, secondOp]).io).durable).vol
          (run Driver.step Driver.new [firstOp, .commit, secondOp, .commit]).vol :=
  crash_atomic [firstOp, .commit] [secondOp] .commit (by simp [secondOp])
    ⟨junkUnused_firstOp _, trivial, junkUnused_secondOp _, trivial, trivial⟩ _
    (Or.inr (List.prefix_refl _)) (step_io _ .commit) _ ⟨[], List.nil_sublist _, rfl⟩

end ChainedBlockStorage.Storage
