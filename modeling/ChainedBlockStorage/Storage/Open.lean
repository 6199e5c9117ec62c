/-
Opening a volume, and what `get_free_block_num` hands out afterwards.

- `usedBlocks_eq`: the triple loop of `open_volume` lists the nodes of the committed tree.
- `mem_unusedFrom`: its second loop queues the other blocks of the file.
- `allocator_sound`: after `open_volume`, every number handed out is unused. After `init_volume` this needs the queue to
  last, or a file of at most two blocks: `init_volume` queues all blocks of the file but starts the counter at 1, so the
  numbers after the queue are those of blocks already handed out (`counter_reuses_block`).
-/
import ChainedBlockStorage.Storage.Runs

namespace ChainedBlockStorage.Storage

open Crash Radix Run

/-! ## The blocks in use -/

/-- `open_volume` collects the nodes of the committed tree -/
theorem usedBlocks_eq (f : File) (b : FirstBlock) :
    usedBlocks f b =
      if b.firstLevelBlocks 0 = 0 then [] else subtree volShape (child f) volShape.depth 0 (b.firstLevelBlocks 0) := by
  have h3 : ∀ y, y ≠ 0 → _ = subtree volShape (child f) 1 2 y := fun y hy =>
    congrArg (y :: ·) (entries_loop f hy id)
  have h2 : ∀ y, y ≠ 0 → _ = subtree volShape (child f) 2 1 y := fun y hy =>
    congrArg (y :: ·) (words_loop f hy (by decide) fun _ => h3)
  have h1 : ∀ y, y ≠ 0 → _ = subtree volShape (child f) 3 0 y := fun y hy =>
    congrArg (y :: ·) (words_loop f hy (by decide) fun _ => h2)
  simp only [usedBlocks, numFirstLevel_eq, List.range_one, List.flatMap_singleton]
  split
  · rfl
  · next h => exact h1 _ h

theorem mem_usedBlocks (f : File) (b : FirstBlock) (x : ℤ) :
    x ∈ usedBlocks f b ↔ Reach volShape (child f) (b.firstLevelBlocks 0) x := by
  rw [usedBlocks_eq]
  split
  · next h => simp [h, not_reach_null _ _ (child_zero f)]
  · next h => exact mem_subtree_root volShape (child f) _ (child_zero f) h x

theorem nodup_usedBlocks (f : File) (b : FirstBlock) (hp : Proper volShape (child f) (b.firstLevelBlocks 0)) :
    (usedBlocks f b).Nodup := by
  rw [usedBlocks_eq]
  split
  · exact List.nodup_nil
  · next h => exact nodup_subtree volShape (child f) _ (child_zero f) hp volShape.depth 0 0 (by simp) Nat.one_pos h

/-! ## The free queue -/

/-- the second loop of `open_volume`, for a sorted list of different numbers none of which it has passed -/
theorem mem_unusedFrom (used : List ℤ) (n : ℤ) (count : ℕ) (hs : used.Pairwise (· < ·)) (hn : ∀ u ∈ used, n ≤ u)
    (x : ℤ) :
    x ∈ unusedFrom used n count ↔ n ≤ x ∧ x < n + count ∧ x ∉ used := by
  induction count generalizing used n with
  | zero => simp only [unusedFrom, List.not_mem_nil, false_iff]; omega
  | succ count ih =>
    cases used with
    | nil =>
      rw [unusedFrom, List.mem_cons, ih [] (n + 1) List.Pairwise.nil (by simp)]
      simp only [List.not_mem_nil, not_false_eq_true, and_true]
      push_cast
      omega
    | cons u us =>
      have hu := hn u List.mem_cons_self
      obtain ⟨hlt, hs'⟩ := List.pairwise_cons.1 hs
      rw [unusedFrom]
      split
      · next e =>
        have hus : ∀ w ∈ us, n + 1 ≤ w := fun w hw => by have := hlt w hw; omega
        rw [ih us (n + 1) hs' hus, List.mem_cons, not_or]
        push_cast
        constructor
        · intro h
          exact ⟨by omega, by omega, by omega, h.2.2⟩
        · intro h
          exact ⟨by omega, by omega, h.2.2.2⟩
      · next e =>
        have hus : ∀ w ∈ u :: us, n + 1 ≤ w := by
          intro w hw
          rcases List.mem_cons.1 hw with rfl | hw
          · omega
          · have := hlt w hw; omega
        rw [List.mem_cons, ih (u :: us) (n + 1) hs hus]
        push_cast
        constructor
        · intro h
          rcases h with rfl | h
          · exact ⟨le_rfl, by omega, fun hm => by have := hus _ hm; omega⟩
          · exact ⟨by omega, by omega, h.2.2⟩
        · intro h
          by_cases hx : x = n
          · exact Or.inl hx
          · exact Or.inr ⟨by omega, by omega, h.2.2⟩

theorem nodup_unusedFrom (used : List ℤ) (n : ℤ) (count : ℕ) (hs : used.Pairwise (· < ·)) (hn : ∀ u ∈ used, n ≤ u) :
    (unusedFrom used n count).Nodup := by
  induction count generalizing used n with
  | zero => exact List.nodup_nil
  | succ count ih =>
    cases used with
    | nil =>
      rw [unusedFrom, List.nodup_cons, mem_unusedFrom [] (n + 1) count List.Pairwise.nil (by simp)]
      exact ⟨by omega, ih [] (n + 1) List.Pairwise.nil (by simp)⟩
    | cons u us =>
      have hu := hn u List.mem_cons_self
      obtain ⟨hlt, hs'⟩ := List.pairwise_cons.1 hs
      rw [unusedFrom]
      split
      · exact ih us (n + 1) hs' (fun w hw => by have := hlt w hw; omega)
      · next e =>
        have hus : ∀ w ∈ u :: us, n + 1 ≤ w := by
          intro w hw
          rcases List.mem_cons.1 hw with rfl | hw
          · omega
          · have := hlt w hw; omega
        rw [List.nodup_cons, mem_unusedFrom (u :: us) (n + 1) count hs hus]
        exact ⟨by omega, ih (u :: us) (n + 1) hs hus⟩

/-! ## What the two opening functions leave -/

/-- a file whose committed tree shares no block with itself and lies inside the file, clear of block 0 -/
structure VolumeFile (f : File) : Prop where
  proper : Proper volShape (child f) ((FirstBlock.ofBlock (f.block 0)).firstLevelBlocks 0)
  inside : ∀ x, Reach volShape (child f) ((FirstBlock.ofBlock (f.block 0)).firstLevelBlocks 0) x →
    1 ≤ x ∧ (x + 1) * blockSize ≤ f.size

/-- opening an empty file -/
theorem openVolume_empty (f : File) (h : (f.size + 1) / blockSize = 0) :
    (openVolume f).vol = freshVolume (f.write (0, FirstBlock.zero.toBlock)) FirstBlock.zero 1 := by
  simp only [blockSize_eq] at h
  simp [openVolume, h, Call.start, Call.writeBlock, freshVolume, usedBlocks, FirstBlock.zero, unusedFrom]

/-- opening any other file -/
theorem openVolume_vol (f : File) (h : (f.size + 1) / blockSize ≠ 0) :
    (openVolume f).vol = { freshVolume f (FirstBlock.ofBlock (f.block 0)) ((f.size + 1) / blockSize : ℕ) with
      freeBlocks := unusedFrom ((usedBlocks f (FirstBlock.ofBlock (f.block 0))).mergeSort (· ≤ ·)) 1
        (((f.size + 1) / blockSize : ℕ) - 1 : ℤ).toNat } := by
  simp only [openVolume, if_neg h]
  rfl

theorem sorted_used (l : List ℤ) (hn : l.Nodup) : (l.mergeSort (· ≤ ·)).Pairwise (· < ·) := by
  have h1 : (l.mergeSort (· ≤ ·)).Pairwise (· ≤ ·) := List.pairwise_mergeSort' (· ≤ ·) l
  have h2 : (l.mergeSort (· ≤ ·)).Nodup := (List.mergeSort_perm l _).nodup_iff.2 hn
  exact (h1.and h2).imp fun h => lt_of_le_of_ne h.1 h.2

/-- **The queue after `open_volume`.** Every block of the file that is not in the committed tree, once. -/
theorem openVolume_free (f : File) (hf : VolumeFile f) (h : (f.size + 1) / blockSize ≠ 0) :
    (openVolume f).vol.freeBlocks.Nodup ∧ ∀ x, x ∈ (openVolume f).vol.freeBlocks ↔
      1 ≤ x ∧ x < ((f.size + 1) / blockSize : ℕ) ∧
        ¬ Reach volShape (child f) ((FirstBlock.ofBlock (f.block 0)).firstLevelBlocks 0) x := by
  rw [openVolume_vol f h]
  generalize (f.size + 1) / blockSize = total at h ⊢
  have htop : (1 : ℤ) + ((total : ℤ) - 1).toNat = total := by omega
  set used := (usedBlocks f (FirstBlock.ofBlock (f.block 0))).mergeSort (· ≤ ·) with hused
  have hs : used.Pairwise (· < ·) := sorted_used _ (nodup_usedBlocks f _ hf.proper)
  have hmem : ∀ x, x ∈ used ↔ Reach volShape (child f) ((FirstBlock.ofBlock (f.block 0)).firstLevelBlocks 0) x :=
    fun x => (List.mergeSort_perm _ _).mem_iff.trans (mem_usedBlocks f _ x)
  have hlow : ∀ x ∈ used, 1 ≤ x := fun x hx => (hf.inside x ((hmem x).1 hx)).1
  refine ⟨nodup_unusedFrom used 1 _ hs hlow, fun x => ?_⟩
  rw [← hmem x]
  refine (mem_unusedFrom used 1 _ hs hlow x).trans ?_
  rw [htop]

theorem sound_openVolume (f : File) (start : ℤ) (hf : VolumeFile f) :
    Sound True (Driver.open start (openVolume f)) := by
  by_cases h : (f.size + 1) / blockSize = 0
  · have hv := openVolume_empty f h
    refine sound_open start ?_ ?_ ?_ ?_ ?_ ?_ ?_ <;> rw [hv]
    · exact fun _ => rfl
    · exact proper_null _ _ (child_zero _)
    · exact List.nodup_nil
    · simp [freshVolume]
    · exact fun x hx => absurd hx (not_reach_null _ _ (child_zero _) x)
    · simp [freshVolume]
    · simp [freshVolume]
  · have hv := openVolume_vol f h
    obtain ⟨hnodup, hfree⟩ := openVolume_free f hf h
    rw [hv] at hnodup hfree
    refine sound_open start ?_ ?_ ?_ ?_ ?_ ?_ ?_ <;> rw [hv]
    · exact fun _ => rfl
    · exact hf.proper
    · exact hnodup
    · exact fun x hx => ((hfree x).1 hx).2.2
    · intro x hx
      have hin := hf.inside x hx
      simp only [blockSize_eq, Nat.cast_ofNat] at hin
      exact ⟨hin.1, fun _ => by simp only [freshVolume, blockSize_eq]; omega⟩
    · intro x hx
      have hx' := (hfree x).1 hx
      exact ⟨hx'.1, fun _ => by simp only [freshVolume]; omega⟩
    · simp only [freshVolume, blockSize_eq]
      omega

/-- the counter is only right for files of at most two blocks -/
theorem sound_initVolume (f : File) (start : ℤ) :
    Sound (f.size < 3 * blockSize) (Driver.open start (initVolume f)) := by
  have hroot : (initVolume f).vol.firstBlock.firstLevelBlocks 0 = 0 := rfl
  have hmem : ∀ x ∈ (initVolume f).vol.freeBlocks, 1 ≤ x ∧ (f.size < 3 * blockSize → x ≤ 1) := by
    intro x hx
    simp only [initVolume, Call.start, Call.writeBlock, freshVolume, File.write, List.mem_map, List.mem_range,
      blockSize_eq, Nat.cast_ofNat] at hx
    obtain ⟨i, hi, rfl⟩ := hx
    simp only [blockSize_eq]
    omega
  apply sound_open start (fun _ => rfl)
  · rw [hroot]; exact proper_null _ _ (child_zero _)
  · refine List.Nodup.map (fun a b h => ?_) List.nodup_range
    have h' : (a : ℤ) + 1 = b + 1 := h
    omega
  · rw [hroot]; exact fun x _ => not_reach_null _ _ (child_zero _) x
  · rw [hroot]; exact fun x hx => absurd hx (not_reach_null _ _ (child_zero _) x)
  · exact hmem
  · simp [initVolume, Call.start, Call.writeBlock, freshVolume]

/-! ## Allocator soundness -/

inductive Opening where
  | initVolume
  | openVolume

def Opening.call (f : File) : Opening → Call
  | .initVolume => Storage.initVolume f
  | .openVolume => Storage.openVolume f

/-- the counter lies above every block of the file that was opened -/
def CounterOk (f : File) : Opening → Prop
  | .initVolume => f.size < 3 * blockSize
  | .openVolume => True

/-- one result of `get_free_block_num`, with the volume it left: not block 0, in no tree, not in the queue -/
def Unused (a : ℤ × Volume) : Prop := a.1 ≠ 0 ∧ ¬ a.2.Holds a.1 ∧ a.1 ∉ a.2.freeBlocks

theorem sound_opening (f : File) (start : ℤ) (o : Opening) (hf : o = .openVolume → VolumeFile f) :
    Sound (CounterOk f o) (Driver.open start (o.call f)) := by
  cases o with
  | initVolume => exact sound_initVolume f start
  | openVolume => exact sound_openVolume f start (hf rfl)

/-- with a counter that is right the opened volume is sound without a condition -/
theorem sound_opened (f : File) (start : ℤ) (o : Opening) (hf : o = .openVolume → VolumeFile f) (hc : CounterOk f o) :
    Sound True (Driver.open start (o.call f)) :=
  eq_true hc ▸ sound_opening f start o hf

/-- a new volume whose first write has any number -/
theorem sound_new_from (start : ℤ) : Sound True (Driver.open start (initVolume File.new)) :=
  sound_opened File.new start .initVolume (fun h => by cases h) (by simp [CounterOk, File.new])

theorem unused_of_got {sound : Prop} {s : Driver} (h : Sound sound s) {a : ℤ × Volume} (ha : GotOk s.used s.vol a) :
    Unused a := by
  refine ⟨by have := ha.pos; omega, fun hx => ?_, ha.queue⟩
  -- a node of a tree now was one of the same tree when the call began
  have hback : ∀ root, (∀ x, Reach volShape (child s.vol.file) root x → x ∈ s.used) →
      ∀ x, Reach volShape (child a.2.file) root x → Reach volShape (child s.vol.file) root x :=
    fun root hr x => (reach_congr volShape (child s.vol.file) (child a.2.file) root (child_zero _) (child_zero _)
      (fun y hy => child_congr (ha.file y (hr y hy))) x).1
  refine ha.unused (h.holds_used ?_)
  rcases hx with hx | ⟨n, uw, hu, i, hi, hx⟩
  · rw [ha.firstBlock] at hx
    exact Or.inl (hback _ (fun x hx => h.holds_used (Or.inl hx)) _ hx)
  · rw [ha.unc] at hu
    exact Or.inr ⟨n, uw, hu, i, hi, hback _ (fun x hx => h.holds_used (Or.inr ⟨n, uw, hu, i, hi, hx⟩)) _ hx⟩

theorem step_got {sound : Prop} (s : Driver) (op : Op) (h : Sound sound s ∧ ∀ a ∈ s.got, Unused a)
    (he : Supplied sound s op) : Sound sound (s.step op) ∧ ∀ a ∈ (s.step op).got, Unused a := by
  refine ⟨step_sound s op h.1 he, Driver.step_inv (fun t => ∀ a ∈ t.got, Unused a) h.1 h.2 op ?_ ?_⟩
  · intro buf off junk e ho a ha
    subst e
    obtain ⟨hs, uw, d, n, g, hw⟩ := write_step h.1 ho buf junk he
    rw [hs.got] at ha
    rcases List.mem_append.1 ha with ha | ha
    · exact h.2 a ha
    · exact unused_of_got h.1 (hw.got a ha)
  · intro w uw c hs a ha
    rw [hs.got] at ha
    exact h.2 a ha

/-- **Allocator soundness.** After `open_volume` of a volume file, `init_volume` of a file of at most two blocks, or
`init_volume` of any file while the queue lasts, no call of `get_free_block_num` returns block 0, a block of the
committed tree or of an uncommitted one, or a block still in the queue. -/
theorem allocator_sound (f : File) (start : ℤ) (o : Opening) (es : List Op)
    (hf : o = .openVolume → VolumeFile f)
    (hm : Meets Driver.step (Supplied (CounterOk f o)) (Driver.open start (o.call f)) es) :
    ∀ a ∈ (run Driver.step (Driver.open start (o.call f)) es).got, Unused a := by
  have hgot : ∀ a ∈ (Driver.open start (o.call f)).got, Unused a := by
    intro a ha
    have : (o.call f).got = [] := by
      cases o with
      | initVolume => rfl
      | openVolume => simp only [Opening.call, openVolume]; split <;> rfl
    simp [Driver.open, this] at ha
  exact (run_inv_of_meets Driver.step (Supplied (CounterOk f o)) (fun s => Sound _ s ∧ ∀ a ∈ s.got, Unused a) step_got _
    es ⟨sound_opening f start o hf, hgot⟩ hm).2

/-- a volume file without a tree -/
theorem volumeFile_empty (f : File) (h : (FirstBlock.ofBlock (f.block 0)).firstLevelBlocks 0 = 0) : VolumeFile f where
  proper := by rw [h]; exact proper_null _ _ (child_zero f)
  inside := by rw [h]; exact fun x hx => absurd hx (not_reach_null _ _ (child_zero f) x)

/-- an existing file of five blocks, all zero -/
def fiveBlocks : File := ⟨5 * 4096, fun _ => Block.zero⟩

theorem allocator_sound_five_blocks :
    VolumeFile fiveBlocks ∧
      ∀ a ∈ (run Driver.step (Driver.open 0 (Opening.openVolume.call fiveBlocks))
        [.write (fun _ => 7) 100 fun _ => 0, .write (fun _ => 8) 0 fun _ => 0, .commit]).got, Unused a := by
  have h : VolumeFile fiveBlocks := volumeFile_empty fiveBlocks (by simp [fiveBlocks, FirstBlock.zero])
  refine ⟨h, allocator_sound fiveBlocks 0 .openVolume _ (fun _ => h) ?_⟩
  exact ⟨fun _ => Or.inl trivial, fun _ => Or.inl trivial, trivial, trivial⟩

/-- `init_volume` on five blocks, then two writes at offset 0: the first takes the queue 1, 2, 3, 4 -/
def reuseState : Driver :=
  run Driver.step (Driver.open 0 (Opening.initVolume.call fiveBlocks))
    [.write (fun _ => 7) 0 fun _ => 0, .write (fun _ => 8) 0 fun _ => 0]

theorem reuse_calls : 4 < reuseState.got.length := by decide +kernel

/-- the second write gets 2 from the counter, the root of the first -/
theorem counter_reuses_block : ∃ a ∈ reuseState.got, a.1 = 2 ∧ a.2.Holds 2 :=
  ⟨_, List.getElem_mem reuse_calls, by decide +kernel,
    Or.inr ⟨1, _, rfl, 0, by decide, by decide, 0, by decide, 0, by decide, by decide +kernel⟩⟩

end ChainedBlockStorage.Storage
