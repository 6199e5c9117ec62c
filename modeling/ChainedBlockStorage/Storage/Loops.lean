/-
The nested loops of `storage.cpp` (`get_modified_offsets`, `checksum`) as loops over the volume's radix tree.

- `scan_words`, `scan_entries`: one loop of the source is one level of `scan`.
- `metadata_loops`, `data_loops`: the loops of the source run over the last-level blocks, or the data blocks, in the
  order of their offsets.
-/
import ChainedBlockStorage.Core.Scan
import ChainedBlockStorage.Storage.Tree

namespace ChainedBlockStorage.Storage

open Radix

variable {β : Type}

/-- a loop over the words of an indirect block -/
theorem scan_words (f : File) (visit : ℕ → ℤ → List β) (n j : ℕ) (hj : j < 2) (x : ℤ) (hx : x ≠ 0) (k : ℕ)
    (F : ℕ → ℤ → List β)
    (hF : ∀ i y, y ≠ 0 → F i y = scan volShape (child f) visit n (j + 1) y (k * 512 + i)) :
    ((List.range numIndirect).flatMap fun i =>
      if (f.block x).asWords i = 0 then [] else F i ((f.block x).asWords i)) =
      scan volShape (child f) visit (n + 1) j x k := by
  have hfan : volShape.fan j = 512 := by simp [volShape, Nat.ne_of_lt hj]
  rw [words_loop f hx (Nat.ne_of_lt hj) hF]
  simp only [scan, hfan]

/-- the loop over the entries of a last-level block -/
theorem scan_entries (f : File) (visit : ℤ → β) (x : ℤ) (hx : x ≠ 0) (k : ℕ) :
    ((List.range numEntries).filterMap fun l =>
      if (f.block x).fileBlockNum l = 0 then none else some (visit ((f.block x).fileBlockNum l))) =
      scan volShape (child f) (fun _ y => [visit y]) 1 2 x k := by
  rw [entries_loop f hx visit]
  rfl

theorem scan_vol (f : File) (root : ℤ) (visit : ℕ → ℤ → List β) (n : ℕ) :
    (if root = 0 then [] else scan volShape (child f) visit n 0 root 0) =
      (List.range (volShape.cap n)).flatMap fun k =>
        if node volShape (child f) root n k = 0 then [] else visit k (node volShape (child f) root n k) :=
  scan_eq volShape (child f) visit root (child_zero f) n

/-- **The loops down to the last-level blocks.** -/
theorem metadata_loops (f : File) (root : ℤ) (visit : ℕ → ℤ → List β) :
    (if root = 0 then [] else (List.range numIndirect).flatMap fun j =>
      if (f.block root).asWords j = 0 then [] else (List.range numIndirect).flatMap fun k =>
        if (f.block ((f.block root).asWords j)).asWords k = 0 then []
        else visit (j * 512 + k) ((f.block ((f.block root).asWords j)).asWords k)) =
      (List.range (volShape.cap 2)).flatMap fun t =>
        if node volShape (child f) root 2 t = 0 then [] else visit t (node volShape (child f) root 2 t) := by
  rw [← scan_vol f root visit 2]
  split
  · rfl
  · next h =>
    refine scan_words f visit 1 0 (by omega) root h 0 (fun j y => (List.range numIndirect).flatMap fun k =>
      if (f.block y).asWords k = 0 then [] else visit (j * 512 + k) ((f.block y).asWords k)) fun j y hy => ?_
    simp only [Nat.zero_mul, Nat.zero_add]
    exact scan_words f visit 0 1 (by omega) y hy j (fun k => visit (j * 512 + k)) fun _ _ _ => rfl

/-- **The loops down to the data blocks.** -/
theorem data_loops (f : File) (root : ℤ) (visit : ℤ → β) :
    (if root = 0 then [] else (List.range numIndirect).flatMap fun j =>
      if (f.block root).asWords j = 0 then [] else (List.range numIndirect).flatMap fun k =>
        if (f.block ((f.block root).asWords j)).asWords k = 0 then []
        else (List.range numEntries).filterMap fun l =>
          if (f.block ((f.block ((f.block root).asWords j)).asWords k)).fileBlockNum l = 0 then none
          else some (visit ((f.block ((f.block ((f.block root).asWords j)).asWords k)).fileBlockNum l))) =
      (List.range (volShape.cap 3)).filterMap fun b =>
        if node volShape (child f) root 3 b = 0 then none else some (visit (node volShape (child f) root 3 b)) := by
  have hflat : ∀ bs : List ℕ, (bs.filterMap fun b =>
      if node volShape (child f) root 3 b = 0 then none else some (visit (node volShape (child f) root 3 b))) =
      bs.flatMap fun b =>
        if node volShape (child f) root 3 b = 0 then [] else [visit (node volShape (child f) root 3 b)] := by
    intro bs
    induction bs with
    | nil => rfl
    | cons b bs ih => by_cases h : node volShape (child f) root 3 b = 0 <;> simp [h, ih]
  rw [hflat, ← scan_vol f root (fun _ y => [visit y]) 3]
  split
  · rfl
  · next h =>
    refine scan_words f _ 2 0 (by omega) root h 0 (fun _ y => (List.range numIndirect).flatMap fun k =>
      if (f.block y).asWords k = 0 then [] else (List.range numEntries).filterMap fun l =>
        if (f.block ((f.block y).asWords k)).fileBlockNum l = 0 then none
        else some (visit ((f.block ((f.block y).asWords k)).fileBlockNum l))) fun j y hy => ?_
    simp only [Nat.zero_mul, Nat.zero_add]
    exact scan_words f _ 1 1 (by omega) y hy j (fun _ z => (List.range numEntries).filterMap fun l =>
      if (f.block z).fileBlockNum l = 0 then none else some (visit ((f.block z).fileBlockNum l)))
      fun k z hz => scan_entries f visit z hz _

end ChainedBlockStorage.Storage
