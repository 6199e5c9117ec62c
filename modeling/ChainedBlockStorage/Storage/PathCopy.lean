/-
`write_metadata` on any volume: the tree under the new root against the tree it was built on.

Nothing is assumed of the base tree (its shape, its blocks, whether nodes are shared) or of the rest of the volume; the
numbers that `get_free_block_num` returns in the call are new to it and all different.

- `allocLevels_got`: which numbers the call takes, level by level.
- `metadataEntry_eq`: the walk to an entry finds the leaf of the radix tree.
- `writeMetadata_entry`: the new tree has the new entries at its targets and the base tree's entry everywhere else.
-/
import ChainedBlockStorage.Storage.Runs

namespace ChainedBlockStorage.Storage

open Radix Run

/-! ## The numbers of a call -/

/-- the results of `get_free_block_num` between two points of a call -/
def Call.handedOut (c c' : Call) : List ℤ := (c'.got.drop c.got.length).map Prod.fst

theorem handedOut_of_append {c c' : Call} {l : List (ℤ × Volume)} (h : c'.got = c.got ++ l) :
    c.handedOut c' = l.map Prod.fst := by
  rw [Call.handedOut, h, List.drop_left]

/-- the numbers one level takes -/
def levelNums (same two : Bool) (n : ℤ × ℤ) : List ℤ := if two ∧ ¬ same then [n.1, n.2] else [n.1]

/-- the numbers of the metadata blocks, in the order they are taken -/
def metaNums (m : MetaPlan) (n : ℕ → ℤ × ℤ) : List ℤ := (List.range 3).flatMap fun j => levelNums (m.same j) m.two (n j)

theorem newBlockNums_got (c : Call) (same two : Bool) (junk : ℤ) :
    ∃ l, (c.newBlockNums same two junk).2.got = c.got ++ l ∧
      l.map Prod.fst = levelNums same two (c.newBlockNums same two junk).1 := by
  cases same with
  | true => exact ⟨[_], rfl, by simp [levelNums, Call.newBlockNums, Call.getFreeBlockNum]⟩
  | false =>
    cases two with
    | false => exact ⟨[_], rfl, by simp [levelNums, Call.newBlockNums, Call.getFreeBlockNum]⟩
    | true => exact ⟨[_, _], List.append_assoc _ _ _, by simp [levelNums, Call.newBlockNums, Call.getFreeBlockNum]⟩

theorem allocLevels_got (m : MetaPlan) (junk : ℕ → ℤ) (c : Call) :
    ∃ l, (allocLevels m junk c).2.got = c.got ++ l ∧ l.map Prod.fst = metaNums m (allocLevels m junk c).1 := by
  obtain ⟨l0, g0, e0⟩ := newBlockNums_got c (m.same 0) m.two (junk 0)
  obtain ⟨l1, g1, e1⟩ := newBlockNums_got (c.newBlockNums (m.same 0) m.two (junk 0)).2 (m.same 1) m.two (junk 1)
  obtain ⟨l2, g2, e2⟩ := newBlockNums_got
    ((c.newBlockNums (m.same 0) m.two (junk 0)).2.newBlockNums (m.same 1) m.two (junk 1)).2 (m.same 2) m.two (junk 2)
  refine ⟨l0 ++ l1 ++ l2, ?_, ?_⟩
  · simp only [allocLevels]
    rw [g2, g1, g0, List.append_assoc, List.append_assoc, List.append_assoc]
  · rw [List.map_append, List.map_append, e0, e1, e2]
    simp [metaNums, List.range_succ, allocLevels]

@[simp] theorem newBlockNums_file (c : Call) (same two : Bool) (junk : ℤ) :
    (c.newBlockNums same two junk).2.vol.file = c.vol.file := by
  have h : ∀ c : Call, c.getFreeBlockNum.2.vol.file = c.vol.file := fun c => (getFreeBlockNum_same c.vol).file
  cases same <;> cases two <;> simp [Call.newBlockNums, h]

theorem allocLevels_file (m : MetaPlan) (junk : ℕ → ℤ) (c : Call) :
    (allocLevels m junk c).2.vol.file = c.vol.file := by
  simp [allocLevels]

theorem allocLevels_junk (m : MetaPlan) (junk : ℕ → ℤ) (c : Call) (j : ℕ) (hj : j < 3) (hs : m.same j = false)
    (h2 : m.two = false) : ((allocLevels m junk c).1 j).2 = junk j := by
  have hj' : j = 0 ∨ j = 1 ∨ j = 2 := by omega
  obtain rfl | rfl | rfl := hj' <;> simp only [allocLevels, hs, h2, newBlockNums_junk]

theorem allocLevels_one (m : MetaPlan) (junk : ℕ → ℤ) (c : Call) (j : ℕ) (hj : j < 3) (hs : m.same j = true) :
    ((allocLevels m junk c).1 j).2 = ((allocLevels m junk c).1 j).1 := by
  have hj' : j = 0 ∨ j = 1 ∨ j = 2 := by omega
  obtain rfl | rfl | rfl := hj' <;> simp [allocLevels, hs, Call.newBlockNums]

theorem writeLevels_got (c : Call) (one : ℕ → Bool) (n : ℕ → ℤ × ℤ) (bl : ℕ → Words × Words) :
    (c.writeLevels one n bl).got = c.got := by
  unfold Call.writeLevels Call.writeLevel
  split <;> split <;> split <;> rfl

/-- what `write_metadata` takes are the numbers of its metadata blocks -/
theorem writeMetadata_handedOut (junk : ℕ → ℤ) (seq : ℤ) (d : ℕ → ℤ) (off : ℤ) (c : Call) :
    c.handedOut (writeMetadata junk seq d off c).2 =
      metaNums (metaPlan c.vol seq off) (allocLevels (metaPlan c.vol seq off) junk c).1 := by
  obtain ⟨l, hl, e⟩ := allocLevels_got (metaPlan c.vol seq off) junk c
  rw [← e]
  refine handedOut_of_append (Eq.trans ?_ hl)
  exact writeLevels_got _ (metaPlan c.vol seq off).same _ _

section Plan

variable {b r : ℕ} {root : ℤ} {f : File} {m : MetaPlan} {d : ℕ → ℤ} {n : ℕ → ℤ × ℤ}

theorem mem_metaNums {x : ℤ} : x ∈ metaNums m n ↔ ∃ j < 3, x ∈ levelNums (m.same j) m.two (n j) := by
  simp [metaNums, List.mem_flatMap]

/-- a metadata block's number is one of its level's -/
theorem numOf_levelNums (h : PlanOk b r root f m) (hb : r ≠ 0 → b + 1 < 67108864) (j : ℕ) (hj : j < 3) (i : ℕ)
    (ho : Own b r i j) : numOf d n i j ∈ levelNums (m.same j) m.two (n j) := by
  rcases own_level h hb j hj i ho with rfl | ⟨rfl, h2, hs⟩
  · rw [numOf_fst d n j hj, levelNums]
    split <;> simp
  · rw [numOf_snd d n j hj, levelNums, if_pos ⟨h2, by simp [hs]⟩]
    simp

/-- and each of a level's numbers is a metadata block's -/
theorem levelNums_numOf (h : PlanOk b r root f m) (hb : r ≠ 0 → b + 1 < 67108864) (j : ℕ) (hj : j < 3) {x : ℤ}
    (hx : x ∈ levelNums (m.same j) m.two (n j)) : ∃ i, Own b r i j ∧ numOf d n i j = x := by
  unfold levelNums at hx
  split at hx
  · next hc =>
    have ho : Own b r 1 j := (own_iff h hb j hj).1 (by simp [hc.1, hc.2])
    simp only [List.mem_cons, List.not_mem_nil, or_false] at hx
    rcases hx with rfl | rfl
    · exact ⟨0, Or.inl rfl, numOf_fst d n j hj⟩
    · exact ⟨1, ho, numOf_snd d n j hj⟩
  · rw [List.mem_singleton] at hx
    exact ⟨0, Or.inl rfl, (numOf_fst d n j hj).trans hx.symm⟩

/-- numbers that are all different stand at one position each -/
theorem metaNums_inj (h : PlanOk b r root f m) (hb : r ≠ 0 → b + 1 < 67108864) (hn : (metaNums m n).Nodup) (j : ℕ)
    (hj : j < 3) (i : ℕ) (ho : Own b r i j) (j' : ℕ) (hj' : j' < 3) (i' : ℕ) (ho' : Own b r i' j')
    (e : numOf d n i j = numOf d n i' j') : j = j' ∧ i = i' := by
  obtain ⟨hlevel, hdisj⟩ := List.nodup_flatMap.1 hn
  have hm := numOf_levelNums (d := d) (n := n) h hb j hj i ho
  have hm' := numOf_levelNums (d := d) (n := n) h hb j' hj' i' ho'
  have hjj : j = j' := by
    by_contra hne
    have hsymm : Std.Symm (Function.onFun List.Disjoint fun j => levelNums (m.same j) m.two (n j)) :=
      ⟨fun _ _ hd => List.Disjoint.symm hd⟩
    exact hdisj.forall (List.mem_range.2 hj) (List.mem_range.2 hj') hne hm (e ▸ hm')
  subst hjj
  refine ⟨rfl, ?_⟩
  have hnd := hlevel j (List.mem_range.2 hj)
  have hne : m.two = true → m.same j = false → (n j).1 ≠ (n j).2 := fun h2 hs => by
    simpa [levelNums, h2, hs] using hnd
  rcases own_level h hb j hj i ho with rfl | ⟨rfl, h2, hs⟩ <;>
    rcases own_level h hb j hj i' ho' with rfl | ⟨rfl, h2', hs'⟩
  · rfl
  · rw [numOf_fst d n j hj, numOf_snd d n j hj] at e
    exact absurd e (hne h2' hs')
  · rw [numOf_fst d n j hj, numOf_snd d n j hj] at e
    exact absurd e.symm (hne h2 hs)
  · rfl

end Plan

/-! ## The walk to an entry -/

/-- the `metadata_entry` of an offset in the tree under `root`, all zero where there is none -/
def metadataEntry (f : File) (root volumeOffset : ℤ) : ℤ × ℤ :=
  if root = 0 then (0, 0) else
    let n := (f.block root).asWords (getSecondLevel volumeOffset)
    if n = 0 then (0, 0) else
      let n := (f.block n).asWords (getThirdLevel volumeOffset)
      if n = 0 then (0, 0) else
        ((f.block n).fileBlockNum (getLastLevel volumeOffset), (f.block n).lastUpdated (getLastLevel volumeOffset))

theorem metadataEntry_eq (f : File) (root : ℤ) (b : ℕ) (hb : b < 67108864) :
    metadataEntry f root (4096 * b) = (node volShape (child f) root 3 b, leafUpdated f root b) := by
  have hk : b / 256 / 512 % 512 = b / 256 / 512 := by omega
  simp only [metadataEntry, getSecondLevel_block, getThirdLevel_block, getLastLevel_block, leafUpdated, node, fan_zero,
    fan_one, fan_two, child, slot, hk, Block.fileBlockNum]
  by_cases h : root = 0
  · simp [h]
  · by_cases h1 : (f.block root).asWords (b / 256 / 512) = 0
    · simp [h, h1]
    · by_cases h2 : (f.block ((f.block root).asWords (b / 256 / 512))).asWords (b / 256 % 512) = 0 <;> simp [h, h1, h2]

/-! ## The new tree -/

/-- the numbers of a call of `write_metadata` that began in `c` and ended in `out`: those handed out are all different,
not 0 and not in the base tree, and the unassigned ones name no block of the base tree and none of these -/
structure NumbersUnused (junk : ℕ → ℤ) (seq off : ℤ) (c out : Call) : Prop where
  nodup : (c.handedOut out).Nodup
  new : ∀ x ∈ c.handedOut out, x ≠ 0 ∧ ¬ Reach volShape (child c.vol.file) (rootAt c.vol (seq - 1)) x
  junk : ∀ x ∈ strays junk (blockOf off) (remOf off),
    ¬ Reach volShape (child c.vol.file) (rootAt c.vol (seq - 1)) x ∧ x ∉ c.handedOut out

/-- a tree is the same in a file that keeps its metadata blocks -/
theorem tree_kept {f g : File} {root : ℤ}
    (h : ∀ j < 3, ∀ k < volShape.cap j, node volShape (child g) root j k ≠ 0 →
      f.block (node volShape (child g) root j k) = g.block (node volShape (child g) root j k)) :
    (∀ j ≤ 3, ∀ k < volShape.cap j, node volShape (child f) root j k = node volShape (child g) root j k) ∧
      ∀ b < 67108864, leafUpdated f root b = leafUpdated g root b := by
  have hnode : ∀ j ≤ 3, ∀ k < volShape.cap j, node volShape (child f) root j k = node volShape (child g) root j k := by
    intro j hj k hk
    refine node_congr volShape _ _ _ (fun j hj k hk i => ?_) j k hj hk
    by_cases hx : node volShape (child g) root j k = 0
    · rw [hx, child_zero, child_zero]
    · exact child_congr (h j hj k hk hx) j i
  refine ⟨hnode, fun b hb => ?_⟩
  have hk : b / 256 < volShape.cap 2 := by simp only [cap_two]; omega
  unfold leafUpdated
  rw [hnode 2 (by omega) _ hk]
  split
  · rfl
  · next hx => rw [h 2 (by omega) _ hk hx]

/-- **Path copy.** The tree under the new root has `file_offset` and the write's number at its one or two targets and
the base tree's entry at every other block. The base tree is that of the previous write if it is uncommitted, else the
committed one. -/
theorem writeMetadata_entry (junk : ℕ → ℤ) (seq : ℤ) (d : ℕ → ℤ) (off : ℤ) (c : Call) (ho : InRange off)
    (h1 : ∀ uw, c.vol.uncommittedWrites (seq - 1) = some uw → uw.newMetadataOffset 1 = uw.newMetadataOffset 0)
    (hn : NumbersUnused junk seq off c (writeMetadata junk seq d off c).2) :
    (writeMetadata junk seq d off c).1.newMetadataOffset 1 = (writeMetadata junk seq d off c).1.newMetadataOffset 0 ∧
      ∀ b < numBlocks,
        metadataEntry (writeMetadata junk seq d off c).2.vol.file ((writeMetadata junk seq d off c).1.newMetadataOffset 0)
            (4096 * (b : ℕ)) =
          if b = blockOf off then (d 0, seq)
          else if remOf off ≠ 0 ∧ b = blockOf off + 1 then (d 1, seq)
          else metadataEntry c.vol.file (rootAt c.vol (seq - 1)) (4096 * (b : ℕ)) := by
  obtain ⟨hoff, hr, hb0, hb1⟩ := inRange_parts ho
  obtain ⟨hnodup, hnew, hjunk⟩ := hn
  rw [writeMetadata_handedOut] at hnodup hnew hjunk
  have hm := metaPlan_ok h1 (blockOf off) (remOf off) hr
  rw [← hoff] at hm
  set b0 := blockOf off
  set r := remOf off
  set root := rootAt c.vol (seq - 1)
  set m := metaPlan c.vol seq off with hmdef
  set a := allocLevels m junk c with hadef
  have hinj := metaNums_inj (d := d) hm hb1 hnodup
  have hmem : ∀ j < 3, ∀ i, Own b0 r i j → numOf d a.1 i j ∈ metaNums m a.1 := fun j hj i hi =>
    mem_metaNums.2 ⟨j, hj, numOf_levelNums hm hb1 j hj i hi⟩
  -- `g` is the file without the blocks that unassigned numbers overwrite
  set g := (a.2.writeLevels (fun j => m.same j || !m.two) a.1 (newBlocks m a.1 seq d)).vol.file with hg
  have hblocks : BlocksOk b0 r m seq d a.1 g :=
    ⟨fun j hj i hi => (hnew _ (hmem j hj i hi)).1,
      fun hr0 j hj hk => allocLevels_one m junk c j hj ((same_two hm hr0 j hj (hb1 hr0)).2 hk),
      fun j hj i hi => writeLevels_hit hinj (own_iff hm hb1) j hj i hi⟩
  have hkept : ∀ x, Reach volShape (child c.vol.file) root x → g.block x = c.vol.file.block x := by
    intro x hx
    have h0 : ∀ j < 3, x ≠ (a.1 j).1 := fun j hj e =>
      (hnew _ (hmem j hj 0 (Or.inl rfl))).2 (by rw [numOf_fst d a.1 j hj, ← e]; exact hx)
    have h2 : ∀ j < 3, (m.same j || !m.two) = false → x ≠ (a.1 j).2 := fun j hj hs e =>
      (hnew _ (hmem j hj 1 ((own_iff hm hb1 j hj).1 hs))).2 (by rw [numOf_snd d a.1 j hj, ← e]; exact hx)
    rw [hg, writeLevels_frame h0 h2, hadef, allocLevels_file]
  have hcopy := pathCopy_of_blocks hm hblocks hb0 hb1 hkept
  have hlost : LostTo (strays junk b0 r) g (writeMetadata junk seq d off c).2.vol.file :=
    lostTo_writeLevels a.2 m a.1 _ fun j hj hs h2 =>
      ⟨⟨j, stray_of_plan hm j hj hs h2, (allocLevels_junk m junk c j hj hs h2).symm⟩,
        newBlocks_junk hm a.1 seq d j hj (by simpa [hm.two] using h2)⟩
  -- the metadata blocks of the new tree are not lost
  have hsame : ∀ j < 3, ∀ k < volShape.cap j, node volShape (child g) (numOf d a.1 0 0) j k ≠ 0 →
      (writeMetadata junk seq d off c).2.vol.file.block (node volShape (child g) (numOf d a.1 0 0) j k) =
        g.block (node volShape (child g) (numOf d a.1 0 0) j k) := by
    intro j hj k hk hx
    apply lostTo_keep hlost
    intro hJ
    by_cases hT : touched b0 r j k
    · obtain ⟨i, hi, -, e⟩ := touched_own d a.1 hT
      rw [node_touched hcopy j k (by simp only [volShape_depth]; omega) hk hT, e] at hJ
      exact (hjunk _ hJ).2 (hmem j hj i hi)
    · rw [node_untouched hcopy j k (by simp only [volShape_depth]; omega) hk hT] at hJ hx
      exact (hjunk _ hJ).1 ⟨hx, j, by simp only [volShape_depth]; omega, k, hk, rfl⟩
  obtain ⟨hnode, hupd⟩ := tree_kept hsame
  have hroot : (writeMetadata junk seq d off c).1.newMetadataOffset 0 = numOf d a.1 0 0 := rfl
  refine ⟨(allocLevels_one m junk c 0 (by omega) (same_zero hm)), fun b hb => ?_⟩
  rw [numBlocks_eq] at hb
  rw [hroot, metadataEntry_eq _ _ b hb, metadataEntry_eq _ _ b hb, hnode 3 le_rfl b hb, hupd b hb,
    updated_of_blocks hm hblocks hb0 hb1 hkept b hb]
  rw [copied_leaf hcopy b hb]
  by_cases h0 : b = b0
  · rw [if_pos h0, if_pos (Or.inl h0), if_pos h0]
  · by_cases h2 : r ≠ 0 ∧ b = b0 + 1
    · rw [if_neg h0, if_pos h2, if_pos (Or.inr h2), if_neg h0, if_pos h2]
    · rw [if_neg h0, if_neg h2, if_neg (not_or.2 ⟨h0, h2⟩), if_neg h0, if_neg h2]

/-- the first write of a new volume, across the end of a last-level block -/
theorem writeMetadata_entry_straddling :
    InRange 1044580 ∧
      metadataEntry (writeMetadata (fun _ => 0) 1 (fun i => i + 5) 1044580 (Call.start Driver.new.vol)).2.vol.file
        ((writeMetadata (fun _ => 0) 1 (fun i => i + 5) 1044580 (Call.start Driver.new.vol)).1.newMetadataOffset 0)
        (4096 * (256 : ℕ)) = (6, 1) := by
  have hnums : (Call.start Driver.new.vol).handedOut
      (writeMetadata (fun _ => 0) 1 (fun i => i + 5) 1044580 (Call.start Driver.new.vol)).2 = [2, 3, 4, 5] := by
    decide +kernel
  have hroot : rootAt (Call.start Driver.new.vol).vol (1 - 1) = 0 := by decide +kernel
  have hn : NumbersUnused (fun _ => 0) 1 1044580 (Call.start Driver.new.vol)
      (writeMetadata (fun _ => 0) 1 (fun i => i + 5) 1044580 (Call.start Driver.new.vol)).2 := by
    refine ⟨by rw [hnums]; decide, fun x hx => ⟨?_, ?_⟩, fun x hx => ?_⟩
    · rw [hnums] at hx
      rintro rfl
      exact absurd hx (by decide)
    · rw [hroot]
      exact not_reach_null _ _ (child_zero _) x
    · obtain ⟨j, ⟨hr, -, -⟩, -⟩ := hx
      exact absurd hr (by decide)
  exact ⟨by decide, (writeMetadata_entry (fun _ => 0) 1 (fun i => i + 5) 1044580 (Call.start Driver.new.vol) (by decide)
    (fun uw h => by cases h) hn).2 256 (by decide)⟩

end ChainedBlockStorage.Storage
