/-
`Storage::write` as a path copy.

A write at block `b` with remainder `r` (offset 4096 b + r) replaces the path to block `b`, and for r ≠ 0 also the path
to block b + 1, in the tree it builds on.

- `newBlocks_fst`, `newBlocks_snd`, `newBlocks_fst_updated`, `newBlocks_snd_updated`: what the new metadata blocks hold.
- `allocLevels_spec`, `numOf_inj`: the numbers of a write are handed out in stages, so no two are equal.
-/
import ChainedBlockStorage.Core.Versions
import ChainedBlockStorage.Storage.Alloc
import ChainedBlockStorage.Storage.Tree

namespace ChainedBlockStorage.Storage

open Crash Radix

/-! ## The plan of a write -/

/-- the tree that write `n + 1` builds on -/
def rootAt (v : Volume) (n : ℤ) : ℤ :=
  match v.uncommittedWrites n with
  | some uw => uw.newMetadataOffset 0
  | none => v.firstBlock.firstLevelBlocks 0

/-- both roots of an uncommitted write are the same block -/
def OneRoot (v : Volume) : Prop :=
  ∀ n uw, v.uncommittedWrites n = some uw → uw.newMetadataOffset 1 = uw.newMetadataOffset 0

theorem baseRoot_eq {v : Volume} {seq : ℤ}
    (h : ∀ uw, v.uncommittedWrites (seq - 1) = some uw → uw.newMetadataOffset 1 = uw.newMetadataOffset 0) (i : ℕ)
    (hi : i < 2) (o : ℕ → ℕ) (ho : o 0 = 0) : baseRoot v seq i o = rootAt v (seq - 1) := by
  unfold baseRoot rootAt
  cases hu : v.uncommittedWrites (seq - 1) with
  | none => simp [ho]
  | some uw =>
    have h1 := h uw hu
    have h' : i = 0 ∨ i = 1 := by omega
    obtain rfl | rfl := h'
    · rfl
    · exact h1

/-- the plan `m` of a write at block `b`, remainder `r`, on the tree under `root` in `f` -/
structure PlanOk (b r : ℕ) (root : ℤ) (f : File) (m : MetaPlan) : Prop where
  two : m.two = decide (r ≠ 0)
  o0 : m.o0 = offsetsOf (4096 * b)
  o1 : m.o1 = if r ≠ 0 then offsetsOf (4096 * (b + 1 : ℕ)) else fun _ => 0
  p0 : m.p0 = readPath f root (offsetsOf (4096 * b))
  p1 : m.p1 = if r ≠ 0 then readPath f root (offsetsOf (4096 * (b + 1 : ℕ))) else Path.zero

theorem metaPlan_ok {v : Volume} {seq : ℤ}
    (h : ∀ uw, v.uncommittedWrites (seq - 1) = some uw → uw.newMetadataOffset 1 = uw.newMetadataOffset 0) (b r : ℕ)
    (hr : r < 4096) : PlanOk b r (rootAt v (seq - 1)) v.file (metaPlan v seq (4096 * b + r : ℕ)) := by
  have hrem := tmod_block b r hr
  have hoff : ((4096 * b + r : ℕ) : ℤ) - (r : ℤ) = 4096 * b := by push_cast; omega
  have hoff1 := block_next b
  have e0 : baseRoot v seq 0 (offsetsOf (4096 * b)) = rootAt v (seq - 1) :=
    baseRoot_eq h 0 (by omega) _ (offsetsOf_first _)
  have e1 : baseRoot v seq 1 (offsetsOf (4096 * (b + 1 : ℕ))) = rootAt v (seq - 1) :=
    baseRoot_eq h 1 (by omega) _ (offsetsOf_first _)
  have hr0 : ((r : ℤ) ≠ 0) = (r ≠ 0) := by simp
  constructor
  · simp only [metaPlan, blockSize_eq, Nat.cast_ofNat, hrem, hr0]
  · simp only [metaPlan, blockSize_eq, Nat.cast_ofNat, hrem, hoff]
  · simp only [metaPlan, blockSize_eq, Nat.cast_ofNat, hrem, hoff, hoff1, hr0, decide_eq_true_eq]
  · simp only [metaPlan, blockSize_eq, Nat.cast_ofNat, hrem, hoff, e0]
  · simp only [metaPlan, blockSize_eq, Nat.cast_ofNat, hrem, hoff, hoff1, hr0, decide_eq_true_eq]
    by_cases hz : r = 0
    · simp [hz]
    · rw [if_pos hz, if_pos hz, if_pos hz, e1]

section Plan

variable {b r : ℕ} {root : ℤ} {f : File} {m : MetaPlan}

theorem same_two (h : PlanOk b r root f m) (hr : r ≠ 0) (j : ℕ) (hj : j < 3) (hb : b + 1 < 67108864) :
    m.same j = true ↔ key j b = key j (b + 1) := by
  rw [← offsetsOf_same j b hj hb]
  simp [MetaPlan.same, h.o0, h.o1, hr]

theorem same_one (h : PlanOk b r root f m) (hr : r = 0) (j : ℕ) (hj : j < 3) :
    m.same j = true ↔ j = 0 ∨ key j b % 512 = 0 := by
  rw [← offsetsOf_zero j b hj]
  simp [MetaPlan.same, h.o0, h.o1, hr]

theorem same_zero (h : PlanOk b r root f m) : m.same 0 = true := by
  simp only [MetaPlan.same, h.o0, h.o1, offsetsOf_first, decide_eq_true_eq]
  split <;> simp

/-! ## The new metadata blocks -/

/-- the update of one entry at level `j` -/
def setAt (j i : ℕ) (v seq : ℤ) (w : Words) : Words := if j = 2 then setEntry i v seq w else setWord i v w

theorem setAt_slot (j i : ℕ) (v seq : ℤ) (w : Words) (i' : ℕ) :
    setAt j i v seq w (slot j i') = if i' = i then v else w (slot j i') := by
  by_cases hj : j = 2
  · simp only [setAt, slot, hj, if_true, setEntry]
    by_cases hi : i' = i
    · simp [hi]
    · have h2 : ¬ 2 * i' + 1 = 2 * i := by omega
      simp [hi, h2]
  · simp [setAt, slot, hj, setWord]

theorem setAt_updated (i : ℕ) (v seq : ℤ) (w : Words) (l : ℕ) :
    setAt 2 i v seq w (2 * l) = if l = i then seq else w (2 * l) := by
  simp only [setAt, if_true, setEntry]
  by_cases hi : l = i
  · simp [hi]
  · have h1 : ¬ 2 * l = 2 * i + 1 := by omega
    have h2 : ¬ 2 * l = 2 * i := by omega
    simp [hi, h1, h2]

/-- the number of target `i` at level `j`; level 3 is the data -/
def numOf (d : ℕ → ℤ) (n : ℕ → ℤ × ℤ) (i j : ℕ) : ℤ := if j = 3 then d i else if i = 0 then (n j).1 else (n j).2

theorem newBlocks_eq (m : MetaPlan) (n : ℕ → ℤ × ℤ) (seq : ℤ) (d : ℕ → ℤ) (j : ℕ) (hj : j < 3) :
    newBlocks m n seq d j = updateLevel (m.same j) m.two (m.p0.block j) (m.p1.block j)
      (setAt j (m.o0 (j + 1)) (numOf d n 0 (j + 1)) seq) (setAt j (m.o1 (j + 1)) (numOf d n 1 (j + 1)) seq) := by
  have h : j = 0 ∨ j = 1 ∨ j = 2 := by omega
  obtain rfl | rfl | rfl := h <;> rfl

theorem p0_slot (h : PlanOk b r root f m) (j : ℕ) (hj : j < 3) (i : ℕ) :
    m.p0.block j (slot j i) = child f j (node volShape (child f) root j (key j b)) i := by
  rw [h.p0, readPath_block f root _ j hj, readPath_num f root b j (by omega), readMeta_slot]

theorem p1_slot (h : PlanOk b r root f m) (hr : r ≠ 0) (j : ℕ) (hj : j < 3) (i : ℕ) :
    m.p1.block j (slot j i) = child f j (node volShape (child f) root j (key j (b + 1))) i := by
  rw [h.p1, if_pos hr, readPath_block f root _ j hj, readPath_num f root (b + 1) j (by omega), readMeta_slot]

/-- pointers of the first target's new block -/
theorem newBlocks_fst (h : PlanOk b r root f m) (n : ℕ → ℤ × ℤ) (seq : ℤ) (d : ℕ → ℤ) (j : ℕ) (hj : j < 3)
    (hb : r ≠ 0 → b + 1 < 67108864) (i : ℕ) :
    (newBlocks m n seq d j).1 (slot j i) =
      if r ≠ 0 ∧ key j b = key j (b + 1) ∧ i = key (j + 1) (b + 1) % volShape.fan j then numOf d n 1 (j + 1)
      else if i = key (j + 1) b % volShape.fan j then numOf d n 0 (j + 1)
      else child f j (node volShape (child f) root j (key j b)) i := by
  have ho0 : m.o0 (j + 1) = key (j + 1) b % volShape.fan j := by rw [h.o0, offsetsOf_eq j b hj]
  have hp := p0_slot h j hj i
  rw [newBlocks_eq m n seq d j hj, updateLevel]
  by_cases hr : r = 0
  · simp [h.two, hr, setAt_slot, ho0, hp]
  · have hs := same_two h hr j hj (hb hr)
    have ho1 : m.o1 (j + 1) = key (j + 1) (b + 1) % volShape.fan j := by
      rw [h.o1, if_pos hr, offsetsOf_eq j (b + 1) hj]
    by_cases hk : key j b = key j (b + 1)
    · simp [h.two, hr, hs.2 hk, hk, setAt_slot, ho0, ho1, hp]
    · have hsf : m.same j = false := by
        rw [← Bool.not_eq_true, hs]; exact hk
      simp [h.two, hr, hsf, hk, setAt_slot, ho0, hp]

/-- pointers of the second target's new block, where it has one of its own -/
theorem newBlocks_snd (h : PlanOk b r root f m) (n : ℕ → ℤ × ℤ) (seq : ℤ) (d : ℕ → ℤ) (j : ℕ) (hj : j < 3) (hr : r ≠ 0)
    (hb : b + 1 < 67108864) (hk : key j b ≠ key j (b + 1)) (i : ℕ) :
    (newBlocks m n seq d j).2 (slot j i) =
      if i = key (j + 1) (b + 1) % volShape.fan j then numOf d n 1 (j + 1)
      else child f j (node volShape (child f) root j (key j (b + 1))) i := by
  have ho1 : m.o1 (j + 1) = key (j + 1) (b + 1) % volShape.fan j := by
    rw [h.o1, if_pos hr, offsetsOf_eq j (b + 1) hj]
  have hsf : m.same j = false := by
    rw [← Bool.not_eq_true, same_two h hr j hj hb]; exact hk
  rw [newBlocks_eq m n seq d j hj, updateLevel]
  simp [h.two, hr, hsf, setAt_slot, ho1, p1_slot h hr j hj i]

theorem p0_updated (h : PlanOk b r root f m) (l : ℕ) :
    m.p0.block 2 (2 * l) = readMeta f (node volShape (child f) root 2 (key 2 b)) (2 * l) := by
  rw [h.p0, readPath_block f root _ 2 (by omega), readPath_num f root b 2 (by omega)]

theorem p1_updated (h : PlanOk b r root f m) (hr : r ≠ 0) (l : ℕ) :
    m.p1.block 2 (2 * l) = readMeta f (node volShape (child f) root 2 (key 2 (b + 1))) (2 * l) := by
  rw [h.p1, if_pos hr, readPath_block f root _ 2 (by omega), readPath_num f root (b + 1) 2 (by omega)]

/-- `last_updated` in the first target's new last-level block -/
theorem newBlocks_fst_updated (h : PlanOk b r root f m) (n : ℕ → ℤ × ℤ) (seq : ℤ) (d : ℕ → ℤ)
    (hb : r ≠ 0 → b + 1 < 67108864) (l : ℕ) :
    (newBlocks m n seq d 2).1 (2 * l) =
      if r ≠ 0 ∧ key 2 b = key 2 (b + 1) ∧ l = (b + 1) % 256 then seq
      else if l = b % 256 then seq
      else readMeta f (node volShape (child f) root 2 (key 2 b)) (2 * l) := by
  have ho0 : m.o0 3 = b % 256 := by rw [h.o0, offsetsOf_eq 2 b (by omega)]; rfl
  have hp := p0_updated h l
  rw [newBlocks_eq m n seq d 2 (by omega), updateLevel]
  by_cases hr : r = 0
  · simp [h.two, hr, setAt_updated, ho0, hp]
  · have hs := same_two h hr 2 (by omega) (hb hr)
    have ho1 : m.o1 3 = (b + 1) % 256 := by
      rw [h.o1, if_pos hr, offsetsOf_eq 2 (b + 1) (by omega)]; rfl
    by_cases hk : key 2 b = key 2 (b + 1)
    · simp [h.two, hr, hs.2 hk, hk, setAt_updated, ho0, ho1, hp]
    · have hsf : m.same 2 = false := by
        rw [← Bool.not_eq_true, hs]; exact hk
      simp [h.two, hr, hsf, hk, setAt_updated, ho0, hp]

/-- `last_updated` in the second target's new last-level block, where it has one of its own -/
theorem newBlocks_snd_updated (h : PlanOk b r root f m) (n : ℕ → ℤ × ℤ) (seq : ℤ) (d : ℕ → ℤ) (hr : r ≠ 0)
    (hb : b + 1 < 67108864) (hk : key 2 b ≠ key 2 (b + 1)) (l : ℕ) :
    (newBlocks m n seq d 2).2 (2 * l) =
      if l = (b + 1) % 256 then seq else readMeta f (node volShape (child f) root 2 (key 2 (b + 1))) (2 * l) := by
  have ho1 : m.o1 3 = (b + 1) % 256 := by
    rw [h.o1, if_pos hr, offsetsOf_eq 2 (b + 1) (by omega)]; rfl
  have hsf : m.same 2 = false := by
    rw [← Bool.not_eq_true, same_two h hr 2 (by omega) hb]; exact hk
  rw [newBlocks_eq m n seq d 2 (by omega), updateLevel]
  simp [h.two, hr, hsf, setAt_updated, ho1, p1_updated h hr l]

/-- without a second target the second block is all zero -/
theorem newBlocks_junk (h : PlanOk b r root f m) (n : ℕ → ℤ × ℤ) (seq : ℤ) (d : ℕ → ℤ) (j : ℕ) (hj : j < 3)
    (hr : r = 0) : (newBlocks m n seq d j).2 = fun _ => 0 := by
  rw [newBlocks_eq m n seq d j hj, updateLevel]
  simp [h.two, h.p1, hr, Path.zero]

end Plan

/-! ## The numbers of a write -/

/-- target `i` has a level-j node of its own -/
def Own (b r i j : ℕ) : Prop := i = 0 ∨ i = 1 ∧ r ≠ 0 ∧ key j b ≠ key j (b + 1)

theorem own_data {b r i : ℕ} (h : Own b r i 3) : i = 0 ∨ i = 1 ∧ r ≠ 0 := by
  rcases h with h | ⟨h, hr, -⟩
  · exact Or.inl h
  · exact Or.inr ⟨h, hr⟩

section Nums

variable {sound : Prop} {U J : Set ℤ} {v : Volume} {c : Call} {b r : ℕ} {root : ℤ} {f : File} {m : MetaPlan}
  {d : ℕ → ℤ} {n : ℕ → ℤ × ℤ}

/-- the three levels take their numbers one after the other -/
theorem allocLevels_spec (h : CallInv sound U ∅ v c) (m : MetaPlan) (junk : ℕ → ℤ) (k : ℕ)
    (he : Enough sound
      (k + levelCount (m.same 2) m.two + levelCount (m.same 1) m.two + levelCount (m.same 0) m.two) c.vol) :
    CallInv sound U ∅ v (allocLevels m junk c).2 ∧ Enough sound k (allocLevels m junk c).2.vol ∧
      ∃ c1 c2, LevelNums (m.same 0) m.two c c1 ((allocLevels m junk c).1 0) ∧
        LevelNums (m.same 1) m.two c1 c2 ((allocLevels m junk c).1 1) ∧
        LevelNums (m.same 2) m.two c2 (allocLevels m junk c).2 ((allocLevels m junk c).1 2) := by
  obtain ⟨h0, e0, l0⟩ := newBlockNums_spec h (m.same 0) m.two (junk 0) _ he
  obtain ⟨h1, e1, l1⟩ := newBlockNums_spec h0 (m.same 1) m.two (junk 1) _ e0
  obtain ⟨h2, e2, l2⟩ := newBlockNums_spec h1 (m.same 2) m.two (junk 2) _ e1
  exact ⟨h2, e2, _, _, l0, l1, l2⟩

/-- the numbers of a write: handed out in the call, and all different -/
structure NumsOk (b r : ℕ) (d : ℕ → ℤ) (n : ℕ → ℤ × ℤ) (c : Call) : Prop where
  mem : ∀ j ≤ 3, ∀ i, Own b r i j → numOf d n i j ∈ c.nums
  inj : ∀ j ≤ 3, ∀ i, Own b r i j → ∀ j' ≤ 3, ∀ i', Own b r i' j' → numOf d n i j = numOf d n i' j' → j = j' ∧ i = i'
  one : r ≠ 0 → ∀ j < 3, key j b = key j (b + 1) → (n j).2 = (n j).1

/-- the metadata blocks alone -/
theorem NumsOk.meta_inj (h : NumsOk b r d n c) (j : ℕ) (hj : j < 3) (i : ℕ) (ho : Own b r i j) (j' : ℕ) (hj' : j' < 3)
    (i' : ℕ) (ho' : Own b r i' j') (e : numOf d n i j = numOf d n i' j') : j = j' ∧ i = i' :=
  h.inj j (by omega) i ho j' (by omega) i' ho' e

theorem own_level (h : PlanOk b r root f m) (hb : r ≠ 0 → b + 1 < 67108864) (j : ℕ) (hj : j < 3) (i : ℕ)
    (ho : Own b r i j) : i = 0 ∨ i = 1 ∧ m.two = true ∧ m.same j = false := by
  rcases ho with ho | ⟨ho, hr, hk⟩
  · exact Or.inl ho
  · right
    refine ⟨ho, by simp [h.two, hr], ?_⟩
    rw [← Bool.not_eq_true, same_two h hr j hj (hb hr)]
    exact hk

/-- one level's part of `NumsOk` -/
theorem level_stage (h : PlanOk b r root f m) (hb : r ≠ 0 → b + 1 < 67108864) (j : ℕ) (hj : j < 3) {c c' : Call}
    (l : LevelNums (m.same j) m.two c c' (n j)) (i : ℕ) (ho : Own b r i j) :
    numOf d n i j ∈ c'.nums ∧ numOf d n i j ∉ c.nums := by
  have hj3 : j ≠ 3 := by omega
  rcases own_level h hb j hj i ho with rfl | ⟨rfl, h2, hs⟩
  · exact ⟨by simpa [numOf, hj3] using l.fst, by simpa [numOf, hj3] using l.fst_new⟩
  · exact ⟨by simpa [numOf, hj3] using l.snd h2 (by simp [hs]), by simpa [numOf, hj3] using l.snd_new h2 (by simp [hs])⟩

theorem level_ne (h : PlanOk b r root f m) (hb : r ≠ 0 → b + 1 < 67108864) (j : ℕ) (hj : j < 3) {c c' : Call}
    (l : LevelNums (m.same j) m.two c c' (n j)) (i i' : ℕ) (ho : Own b r i j) (ho' : Own b r i' j)
    (e : numOf d n i j = numOf d n i' j) : i = i' := by
  have hj3 : j ≠ 3 := by omega
  rcases own_level h hb j hj i ho with rfl | ⟨rfl, h2, hs⟩ <;>
    rcases own_level h hb j hj i' ho' with rfl | ⟨rfl, h2', hs'⟩
  · rfl
  · exact absurd (by simpa [numOf, hj3] using e.symm) (l.snd_ne h2' (by simp [hs']))
  · exact absurd (by simpa [numOf, hj3] using e) (l.snd_ne h2 (by simp [hs]))
  · rfl

/-- two numbers of different stages are different -/
theorem stage_inj (st : ℕ → Set ℤ) (hmono : ∀ k, st k ⊆ st (k + 1)) {x y : ℤ} {k k' : ℕ} (hx : x ∈ st (k + 1))
    (hx' : x ∉ st k) (hy : y ∈ st (k' + 1)) (hy' : y ∉ st k') (e : x = y) : k = k' := by
  have hm : Monotone st := monotone_nat_of_le_succ hmono
  subst e
  by_contra hne
  rcases Nat.lt_or_gt_of_ne hne with hlt | hlt
  · exact hy' (hm hlt hx)
  · exact hx' (hm hlt hy)

theorem numsOk_of_levels {c1 c2 c3 : Call} (h : PlanOk b r root f m) (hb : r ≠ 0 → b + 1 < 67108864)
    (hd0 : d 0 ∈ c.nums) (hd1 : r ≠ 0 → d 1 ∈ c.nums) (hdne : r ≠ 0 → d 1 ≠ d 0)
    (l0 : LevelNums (m.same 0) m.two c c1 (n 0)) (l1 : LevelNums (m.same 1) m.two c1 c2 (n 1))
    (l2 : LevelNums (m.same 2) m.two c2 c3 (n 2)) : NumsOk b r d n c3 := by
  -- stage k + 1 is reached once level (k + 3) % 4 has its numbers; the data comes first
  let st : ℕ → Set ℤ := fun | 0 => ∅ | 1 => c.nums | 2 => c1.nums | 3 => c2.nums | _ => c3.nums
  have hmono : ∀ k, st k ⊆ st (k + 1) := by
    intro k
    match k with
    | 0 => exact Set.empty_subset _
    | 1 => exact l0.mono
    | 2 => exact l1.mono
    | 3 => exact l2.mono
    | k + 4 => exact Set.Subset.refl _
  have hdata : ∀ i, Own b r i 3 → numOf d n i 3 ∈ c.nums := by
    intro i ho
    rcases own_data ho with rfl | ⟨rfl, hr⟩
    · exact hd0
    · exact hd1 hr
  have hst : ∀ j ≤ 3, ∀ i, Own b r i j → numOf d n i j ∈ st ((j + 1) % 4 + 1) ∧ numOf d n i j ∉ st ((j + 1) % 4) := by
    intro j hj i ho
    have hj' : j = 0 ∨ j = 1 ∨ j = 2 ∨ j = 3 := by omega
    obtain rfl | rfl | rfl | rfl := hj'
    · exact level_stage h hb 0 (by omega) l0 i ho
    · exact level_stage h hb 1 (by omega) l1 i ho
    · exact level_stage h hb 2 (by omega) l2 i ho
    · exact ⟨hdata i ho, Set.notMem_empty _⟩
  have hall : ∀ k ≤ 4, st k ⊆ c3.nums := by
    intro k hk
    exact (monotone_nat_of_le_succ hmono) hk
  constructor
  · intro j hj i ho
    exact hall _ (by omega) (hst j hj i ho).1
  · intro j hj i ho j' hj' i' ho' e
    have hk := stage_inj st hmono (hst j hj i ho).1 (hst j hj i ho).2 (hst j' hj' i' ho').1 (hst j' hj' i' ho').2 e
    have hjj : j = j' := by omega
    subst hjj
    refine ⟨rfl, ?_⟩
    have hj4 : j = 0 ∨ j = 1 ∨ j = 2 ∨ j = 3 := by omega
    obtain rfl | rfl | rfl | rfl := hj4
    · exact level_ne h hb 0 (by omega) l0 i i' ho ho' e
    · exact level_ne h hb 1 (by omega) l1 i i' ho ho' e
    · exact level_ne h hb 2 (by omega) l2 i i' ho ho' e
    · rcases own_data ho with rfl | ⟨rfl, hr⟩ <;> rcases own_data ho' with rfl | ⟨rfl, hr'⟩
      · rfl
      · exact absurd e.symm (hdne hr')
      · exact absurd e (hdne hr)
      · rfl
  · intro hr j hj hk
    have hs := (same_two h hr j hj (hb hr)).2 hk
    have hj' : j = 0 ∨ j = 1 ∨ j = 2 := by omega
    obtain rfl | rfl | rfl := hj'
    · exact l0.one hs
    · exact l1.one hs
    · exact l2.one hs

end Nums

/-! ## Writing the new blocks -/

/-- `write_block` of the three levels; `one j` says that level j has one block only -/
def Call.writeLevels (c : Call) (one : ℕ → Bool) (n : ℕ → ℤ × ℤ) (b : ℕ → Words × Words) : Call :=
  ((c.writeLevel (one 0) (n 0) (b 0)).writeLevel (one 1) (n 1) (b 1)).writeLevel (one 2) (n 2) (b 2)

theorem writeLevel_block (c : Call) (one : Bool) (n : ℤ × ℤ) (b : Words × Words) (x : ℤ) :
    (c.writeLevel one n b).vol.file.block x =
      if one = false ∧ x = n.2 then .words b.2 else if x = n.1 then .words b.1 else c.vol.file.block x := by
  cases one <;> simp [Call.writeLevel, Call.writeBlock, File.write]

section Writes

variable {c : Call} {one : ℕ → Bool} {n : ℕ → ℤ × ℤ} {bl : ℕ → Words × Words}

/-- what a level does not write stays -/
theorem writeLevel_frame (j : ℕ) {x : ℤ} (h1 : x ≠ (n j).1) (h2 : one j = false → x ≠ (n j).2) :
    (c.writeLevel (one j) (n j) (bl j)).vol.file.block x = c.vol.file.block x := by
  rw [writeLevel_block, if_neg (fun h => h2 h.1 h.2), if_neg h1]

theorem writeLevels_frame {x : ℤ} (h1 : ∀ j < 3, x ≠ (n j).1) (h2 : ∀ j < 3, one j = false → x ≠ (n j).2) :
    (c.writeLevels one n bl).vol.file.block x = c.vol.file.block x := by
  unfold Call.writeLevels
  rw [writeLevel_frame 2 (h1 2 (by omega)) (h2 2 (by omega)), writeLevel_frame 1 (h1 1 (by omega)) (h2 1 (by omega)),
    writeLevel_frame 0 (h1 0 (by omega)) (h2 0 (by omega))]

/-- each new block holds what was written to it: no later level overwrites it -/
theorem writeLevels_hit {d : ℕ → ℤ} {b r : ℕ}
    (hn : ∀ j < 3, ∀ i, Own b r i j → ∀ j' < 3, ∀ i', Own b r i' j' → numOf d n i j = numOf d n i' j' → j = j' ∧ i = i')
    (ho : ∀ j < 3, one j = false ↔ Own b r 1 j) (j : ℕ) (hj : j < 3) (i : ℕ) (hi : Own b r i j) :
    (c.writeLevels one n bl).vol.file.block (numOf d n i j) = .words (if i = 0 then (bl j).1 else (bl j).2) := by
  have hfst : ∀ j' < 3, numOf d n 0 j' = (n j').1 := fun j' h => by simp [numOf, Nat.ne_of_lt h]
  have hsnd : ∀ j' < 3, numOf d n 1 j' = (n j').2 := fun j' h => by simp [numOf, Nat.ne_of_lt h]
  have hother : ∀ (c : Call) (j' : ℕ), j' < 3 → j ≠ j' →
      (c.writeLevel (one j') (n j') (bl j')).vol.file.block (numOf d n i j) = c.vol.file.block (numOf d n i j) := by
    intro c j' hj' hne
    refine writeLevel_frame j' (fun e => ?_) (fun h1 e => ?_)
    · exact hne (hn j (by omega) i hi j' (by omega) 0 (Or.inl rfl) (e.trans (hfst j' hj').symm)).1
    · exact hne (hn j (by omega) i hi j' (by omega) 1 ((ho j' hj').1 h1) (e.trans (hsnd j' hj').symm)).1
  have hself : ∀ c : Call, (c.writeLevel (one j) (n j) (bl j)).vol.file.block (numOf d n i j) =
      .words (if i = 0 then (bl j).1 else (bl j).2) := by
    intro c
    rw [writeLevel_block]
    rcases hi with rfl | ⟨rfl, hr, hk⟩
    · rw [hfst j hj]
      by_cases h1 : one j = false
      · have hne : (n j).1 ≠ (n j).2 := fun e => by
          have := hn j (by omega) 0 (Or.inl rfl) j (by omega) 1 ((ho j hj).1 h1)
            ((hfst j hj).trans (e.trans (hsnd j hj).symm))
          omega
        simp [hne]
      · simp [h1]
    · rw [hsnd j hj]
      simp [(ho j hj).2 (Or.inr ⟨rfl, hr, hk⟩)]
  have h : j = 0 ∨ j = 1 ∨ j = 2 := by omega
  unfold Call.writeLevels
  obtain rfl | rfl | rfl := h
  · rw [hother _ 2 (by omega) (by omega), hother _ 1 (by omega) (by omega), hself]
  · rw [hother _ 2 (by omega) (by omega), hself]
  · rw [hself]

end Writes

/-! ## Blocks lost to an unassigned number -/

/-- `g` is `f` with some of the blocks in `J` overwritten by zeros -/
def LostTo (J : Set ℤ) (f g : File) : Prop := ∀ x, g.block x = f.block x ∨ x ∈ J ∧ g.block x = .words fun _ => 0

theorem lostTo_shrinks {J : Set ℤ} {f g : File} (h : LostTo J f g) : Shrinks (child f) (child g) := by
  intro j x i
  unfold child
  by_cases hx : x = 0
  · simp [hx]
  · rcases h x with e | ⟨-, e⟩
    · left; simp [e]
    · right; simp [e]

theorem lostTo_keep {J : Set ℤ} {f g : File} (h : LostTo J f g) {x : ℤ} (hx : x ∉ J) : g.block x = f.block x :=
  (h x).resolve_right (fun h => hx h.1)

/-- the second block of a level, which has no second target, goes to a block in `J` -/
theorem lostTo_writeLevel {J : Set ℤ} {c c' : Call} (h : LostTo J c.vol.file c'.vol.file) (one two : Bool) (n : ℤ × ℤ)
    (b : Words × Words) (hz : one = false → two = false → n.2 ∈ J ∧ b.2 = fun _ => 0) :
    LostTo J (c.writeLevel (one || !two) n b).vol.file (c'.writeLevel one n b).vol.file := by
  intro x
  rw [writeLevel_block, writeLevel_block]
  cases one with
  | true =>
    by_cases hx : x = n.1
    · simp [hx]
    · simpa [hx] using h x
  | false =>
    cases two with
    | true =>
      by_cases hx2 : x = n.2
      · simp [hx2]
      · by_cases hx : x = n.1
        · have : ¬ n.1 = n.2 := fun e => hx2 (hx.trans e)
          simp [hx, this]
        · simpa [hx, hx2] using h x
    | false =>
      obtain ⟨hJ, hb⟩ := hz rfl rfl
      by_cases hx2 : x = n.2
      · right
        subst hx2
        simp [hb, hJ]
      · by_cases hx : x = n.1
        · have : ¬ n.1 = n.2 := fun e => hx2 (hx.trans e)
          simp [hx, this]
        · simpa [hx, hx2] using h x

theorem lostTo_writeLevels {J : Set ℤ} (c : Call) (m : MetaPlan) (n : ℕ → ℤ × ℤ) (bl : ℕ → Words × Words)
    (hz : ∀ j < 3, m.same j = false → m.two = false → (n j).2 ∈ J ∧ (bl j).2 = fun _ => 0) :
    LostTo J (c.writeLevels (fun j => m.same j || !m.two) n bl).vol.file (c.writeLevels m.same n bl).vol.file := by
  have h0 : LostTo J c.vol.file c.vol.file := fun x => Or.inl rfl
  have h1 := lostTo_writeLevel h0 (m.same 0) m.two (n 0) (bl 0) (hz 0 (by omega))
  have h2 := lostTo_writeLevel h1 (m.same 1) m.two (n 1) (bl 1) (hz 1 (by omega))
  exact lostTo_writeLevel h2 (m.same 2) m.two (n 2) (bl 2) (hz 2 (by omega))

end ChainedBlockStorage.Storage
