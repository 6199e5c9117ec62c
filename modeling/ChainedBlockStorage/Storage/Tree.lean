/-
The volume's metadata as a radix tree.

A metadata block is a node, an int64 in it a pointer, 0 null. Block `b` of the volume (offsets 4096 b to 4096 b + 4095)
is the leaf under key `b`; `key j b` is the key of the level-j node above it. The index computations of `storage.cpp`
and its three walks (`read_aligned`, `write_metadata`, `open_volume`) are this tree's `node`.

- `readPath_num`: `old_block_nums` is the path of nodes above block `b`.
- `committedBlockNum_eq`: `read_aligned` finds the leaf of the committed tree.
- `leafData`, `leafUpdated`: what a tree holds for a block.
-/
import ChainedBlockStorage.Core.Radix
import ChainedBlockStorage.Storage.Atomic

namespace ChainedBlockStorage.Storage

open Radix

/-! ## Shape and keys -/

def volShape : Shape := ⟨fun j => if j = 2 then numEntries else numIndirect, 3⟩

@[simp] theorem volShape_depth : volShape.depth = 3 := rfl
@[simp] theorem fan_zero : volShape.fan 0 = 512 := rfl
@[simp] theorem fan_one : volShape.fan 1 = 512 := rfl
@[simp] theorem fan_two : volShape.fan 2 = 256 := rfl
@[simp] theorem cap_zero : volShape.cap 0 = 1 := rfl
@[simp] theorem cap_one : volShape.cap 1 = 512 := rfl
@[simp] theorem cap_two : volShape.cap 2 = 262144 := rfl
@[simp] theorem cap_three : volShape.cap 3 = 67108864 := rfl

/-- the word of a level-j node that holds pointer `i` -/
def slot (j i : ℕ) : ℕ := if j = 2 then 2 * i + 1 else i

def child (f : File) (j : ℕ) (n : ℤ) (i : ℕ) : ℤ := if n = 0 then 0 else (f.block n).asWords (slot j i)

theorem child_zero (f : File) : NullSafe (child f) := fun j i => by simp [child]

theorem child_congr {f g : File} {n : ℤ} (h : g.block n = f.block n) (j i : ℕ) : child g j n i = child f j n i := by
  simp [child, h]

/-- the key of the level-j node above block `b` -/
def key (j b : ℕ) : ℕ :=
  match j with
  | 0 => b / 256 / 512 / 512
  | 1 => b / 256 / 512
  | 2 => b / 256
  | _ => b

@[simp] theorem key_three (b : ℕ) : key 3 b = b := rfl

theorem key_div (j b : ℕ) (hj : j < 3) : key (j + 1) b / volShape.fan j = key j b := by
  have h : j = 0 ∨ j = 1 ∨ j = 2 := by omega
  obtain rfl | rfl | rfl := h <;> simp [key]

theorem key_lt (j b : ℕ) (hj : j ≤ 3) (hb : b < 67108864) : key j b < volShape.cap j := by
  have h : j = 0 ∨ j = 1 ∨ j = 2 ∨ j = 3 := by omega
  obtain rfl | rfl | rfl | rfl := h <;> simp [key] <;> omega

theorem key_zero (b : ℕ) (hb : b < 67108864) : key 0 b = 0 := by simp [key]; omega

@[simp] theorem offsetsOf_first (offset : ℤ) : offsetsOf offset 0 = 0 := getFirstLevel_eq offset

/-- `offsets[j + 1]` of block `b` is the index of its level-(j + 1) node in the level-j one -/
theorem offsetsOf_eq (j b : ℕ) (hj : j < 3) : offsetsOf (4096 * b) (j + 1) = key (j + 1) b % volShape.fan j := by
  have h : j = 0 ∨ j = 1 ∨ j = 2 := by omega
  obtain rfl | rfl | rfl := h <;> simp [offsetsOf, key]

/-- `offsets[0][j] == offsets[1][j]` for neighbouring blocks: they lie below the same level-j node -/
theorem offsetsOf_same (j b : ℕ) (hj : j < 3) (hb : b + 1 < 67108864) :
    offsetsOf (4096 * b) j = offsetsOf (4096 * (b + 1 : ℕ)) j ↔ key j b = key j (b + 1) := by
  have h : j = 0 ∨ j = 1 ∨ j = 2 := by omega
  obtain rfl | rfl | rfl := h
  · simp [offsetsOf, key]; omega
  · simp only [offsetsOf, getSecondLevel_block, key]; omega
  · simp only [offsetsOf, getThirdLevel_block, key]; omega

/-- the index is the key where keys are small -/
theorem offsetsOf_zero (j b : ℕ) (hj : j < 3) : offsetsOf (4096 * b) j = 0 ↔ j = 0 ∨ key j b % 512 = 0 := by
  have h : j = 0 ∨ j = 1 ∨ j = 2 := by omega
  obtain rfl | rfl | rfl := h <;> simp [offsetsOf, key]

/-! ## The source's walks -/

theorem readMeta_slot (f : File) (n : ℤ) (j i : ℕ) : readMeta f n (slot j i) = child f j n i := by
  unfold readMeta child
  by_cases hn : n = 0 <;> simp [hn]

theorem readPath_num (f : File) (root : ℤ) (b : ℕ) (j : ℕ) (hj : j ≤ 3) :
    (readPath f root (offsetsOf (4096 * b))).num j = node volShape (child f) root j (key j b) := by
  have h1 := offsetsOf_eq 0 b (by omega)
  have h2 := offsetsOf_eq 1 b (by omega)
  have h3 := offsetsOf_eq 2 b (by omega)
  have n1 : (readPath f root (offsetsOf (4096 * b))).num 1 = node volShape (child f) root 1 (key 1 b) := by
    simp only [readPath, node, ← readMeta_slot, slot, ← h1]; rfl
  have n2 : (readPath f root (offsetsOf (4096 * b))).num 2 = node volShape (child f) root 2 (key 2 b) := by
    rw [node, key_div 1 b (by omega), ← n1, ← readMeta_slot, ← h2]; rfl
  have h : j = 0 ∨ j = 1 ∨ j = 2 ∨ j = 3 := by omega
  obtain rfl | rfl | rfl | rfl := h
  · rfl
  · exact n1
  · exact n2
  · rw [node, key_div 2 b (by omega), ← n2, ← readMeta_slot, ← h3]; rfl

theorem readPath_block (f : File) (root : ℤ) (o : ℕ → ℕ) (j : ℕ) (hj : j < 3) :
    (readPath f root o).block j = readMeta f ((readPath f root o).num j) := by
  have h : j = 0 ∨ j = 1 ∨ j = 2 := by omega
  obtain rfl | rfl | rfl := h <;> rfl

theorem committedBlockNum_eq (v : Volume) (b : ℕ) :
    committedBlockNum v (4096 * b) = node volShape (child v.file) (v.firstBlock.firstLevelBlocks 0) 3 b := by
  have h1 := getSecondLevel_block b
  have h2 := getThirdLevel_block b
  have h3 := getLastLevel_block b
  simp only [committedBlockNum, getFirstLevel_eq, h1, h2, h3, node, fan_zero, fan_one, fan_two, child, slot,
    Block.fileBlockNum]
  split
  · next h => simp [h]
  · next h =>
    split
    · next h' => simp [h, h']
    · next h' => split <;> next h'' => simp [h, h', h'']

/-- a loop over the words of an indirect block is one over the children of a node -/
theorem words_loop {β : Type} (f : File) {x : ℤ} (hx : x ≠ 0) {j : ℕ} (hj : j ≠ 2) {F G : ℕ → ℤ → List β}
    (hF : ∀ i y, y ≠ 0 → F i y = G i y) :
    ((List.range numIndirect).flatMap fun i =>
      if (f.block x).asWords i = 0 then [] else F i ((f.block x).asWords i)) =
      (List.range (volShape.fan j)).flatMap fun i =>
        if child f j x i = 0 then [] else G i (child f j x i) := by
  have hfan : volShape.fan j = numIndirect := by simp [volShape, hj]
  have hc : ∀ i, child f j x i = (f.block x).asWords i := fun i => by simp [child, hx, slot, hj]
  rw [hfan]
  apply List.flatMap_congr
  intro i _
  rw [hc]
  split
  · rfl
  · next h => exact hF i _ h

/-- a loop over the entries of a last-level block is one over its leaves -/
theorem entries_loop {β : Type} (f : File) {x : ℤ} (hx : x ≠ 0) (visit : ℤ → β) :
    ((List.range numEntries).filterMap fun l =>
      if (f.block x).fileBlockNum l = 0 then none else some (visit ((f.block x).fileBlockNum l))) =
      (List.range (volShape.fan 2)).flatMap fun l =>
        if child f 2 x l = 0 then [] else [visit (child f 2 x l)] := by
  have hc : ∀ l, child f 2 x l = (f.block x).fileBlockNum l := fun l => by simp [child, hx, slot, Block.fileBlockNum]
  simp only [hc, fan_two, numEntries_eq]
  induction List.range 256 with
  | nil => rfl
  | cons l ls ih =>
    rw [List.filterMap_cons, List.flatMap_cons, ← ih]
    by_cases h : (f.block x).fileBlockNum l = 0 <;> simp [h]

/-! ## What a tree holds -/

/-- the data of block `b` in the tree under `root`, all zero where there is none -/
def leafData (f : File) (root : ℤ) (b : ℕ) : Buf :=
  if node volShape (child f) root 3 b = 0 then fun _ => 0 else (f.block (node volShape (child f) root 3 b)).asBytes

/-- `last_updated` of block `b` in the tree under `root` -/
def leafUpdated (f : File) (root : ℤ) (b : ℕ) : ℤ :=
  if node volShape (child f) root 2 (b / 256) = 0 then 0
  else (f.block (node volShape (child f) root 2 (b / 256))).lastUpdated (b % 256)

section Frame

variable {f g : File} {root : ℤ}

theorem node_frame (h : ∀ x, Reach volShape (child f) root x → g.block x = f.block x) (j k : ℕ) (hj : j ≤ 3)
    (hk : k < volShape.cap j) : node volShape (child g) root j k = node volShape (child f) root j k :=
  node_congr_reach volShape (child f) (child g) root (child_zero f) (child_zero g)
    (fun x hx => child_congr (h x hx)) j k hj hk

theorem leafData_frame (h : ∀ x, Reach volShape (child f) root x → g.block x = f.block x) (b : ℕ) (hb : b < 67108864) :
    leafData g root b = leafData f root b := by
  have hn := node_frame h 3 b le_rfl hb
  unfold leafData
  rw [hn]
  split
  · rfl
  · next h0 => rw [h _ ⟨h0, 3, le_rfl, b, hb, rfl⟩]

theorem leafUpdated_frame (h : ∀ x, Reach volShape (child f) root x → g.block x = f.block x) (b : ℕ)
    (hb : b < 67108864) : leafUpdated g root b = leafUpdated f root b := by
  have hk : b / 256 < volShape.cap 2 := by simp; omega
  have hn := node_frame h 2 (b / 256) (by omega) hk
  unfold leafUpdated
  rw [hn]
  split
  · rfl
  · next h0 => rw [h _ ⟨h0, 2, by simp, b / 256, hk, rfl⟩]

end Frame

/-- `read_aligned` below the pending blocks -/
theorem readAligned_none (v : Volume) (b : ℕ) (h : v.pendingBlocks (4096 * b) = none) :
    readAligned v (4096 * b) = leafData v.file (v.firstBlock.firstLevelBlocks 0) b := by
  simp only [readAligned, h, committedBlockNum_eq]
  rfl

/-! ## The blocks a volume holds -/

/-- a node of the committed tree or of an uncommitted one -/
def Volume.Holds (v : Volume) (x : ℤ) : Prop :=
  Reach volShape (child v.file) (v.firstBlock.firstLevelBlocks 0) x ∨
    ∃ n uw, v.uncommittedWrites n = some uw ∧ ∃ i < 2, Reach volShape (child v.file) (uw.newMetadataOffset i) x

end ChainedBlockStorage.Storage
