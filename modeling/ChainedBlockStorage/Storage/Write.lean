/-
What one `Storage::write` does.

`WriteOk` collects it: the blocks it was handed, the file it leaves (`g`, up to blocks lost to an unassigned number),
the path copy that leads from the tree it builds on to its own, the data blocks, `to_free`, and the pending blocks.

- `write_ok`: every write satisfies it.
-/
import ChainedBlockStorage.Storage.CopyOnWrite

namespace ChainedBlockStorage.Storage

open Crash Radix

/-! ## Touched positions -/

/-- the level-j nodes that a write at block `b`, remainder `r`, replaces -/
def touched (b r j k : ℕ) : Prop := k = key j b ∨ r ≠ 0 ∧ k = key j (b + 1)

/-- the number that replaces the level-j node under key `k` -/
def freshOf (b : ℕ) (d : ℕ → ℤ) (n : ℕ → ℤ × ℤ) (j k : ℕ) : ℤ := if k = key j b then numOf d n 0 j else numOf d n 1 j

theorem touched_own {b r : ℕ} (d : ℕ → ℤ) (n : ℕ → ℤ × ℤ) {j k : ℕ} (h : touched b r j k) :
    ∃ i, Own b r i j ∧ k = key j (b + i) ∧ freshOf b d n j k = numOf d n i j := by
  by_cases hk : k = key j b
  · exact ⟨0, Or.inl rfl, hk, if_pos hk⟩
  · rcases h with h | ⟨hr, h⟩
    · exact absurd h hk
    · exact ⟨1, Or.inr ⟨rfl, hr, fun e => hk (h.trans e.symm)⟩, h, if_neg hk⟩

/-- what replaces a touched node was handed out -/
theorem NumsOk.freshOf_mem {b r : ℕ} {d : ℕ → ℤ} {n : ℕ → ℤ × ℤ} {c : Call} (h : NumsOk b r d n c) {j k : ℕ} (hj : j ≤ 3)
    (hT : touched b r j k) : freshOf b d n j k ∈ c.nums := by
  obtain ⟨i, ho, -, e⟩ := touched_own d n hT
  rw [e]
  exact h.mem j hj i ho

/-- no number replaces two nodes -/
theorem NumsOk.freshOf_inj {b r : ℕ} {d : ℕ → ℤ} {n : ℕ → ℤ × ℤ} {c : Call} (h : NumsOk b r d n c) {j k j' k' : ℕ}
    (hj : j ≤ 3) (hj' : j' ≤ 3) (hT : touched b r j k) (hT' : touched b r j' k')
    (e : freshOf b d n j k = freshOf b d n j' k') : j = j' ∧ k = k' := by
  obtain ⟨i, ho, ek, ef⟩ := touched_own d n hT
  obtain ⟨i', ho', ek', ef'⟩ := touched_own d n hT'
  rw [ef, ef'] at e
  obtain ⟨rfl, rfl⟩ := h.inj j hj i ho j' hj' i' ho' e
  exact ⟨rfl, ek.trans ek'.symm⟩

theorem touched_parent {b r j : ℕ} (hj : j < 3) {k : ℕ} (h : touched b r (j + 1) k) :
    touched b r j (k / volShape.fan j) := by
  rcases h with h | ⟨hr, h⟩
  · exact Or.inl (by rw [h, key_div j b hj])
  · exact Or.inr ⟨hr, by rw [h, key_div j (b + 1) hj]⟩

/-- how many level-j nodes a write replaces -/
def nodeCount (b r j : ℕ) : ℕ := if r ≠ 0 ∧ key j b ≠ key j (b + 1) then 2 else 1

/-- how many block numbers a write takes -/
def blocksNeeded (b r : ℕ) : ℕ := nodeCount b r 2 + nodeCount b r 1 + nodeCount b r 0 + dataCount r

section Plan

variable {b r : ℕ} {root : ℤ} {f g : File} {m : MetaPlan} {d : ℕ → ℤ} {n : ℕ → ℤ × ℤ} {seq : ℤ}

theorem levelCount_eq (h : PlanOk b r root f m) (hb : r ≠ 0 → b + 1 < 67108864) (j : ℕ) (hj : j < 3) :
    levelCount (m.same j) m.two = nodeCount b r j := by
  unfold levelCount nodeCount
  by_cases hr : r = 0
  · simp [h.two, hr]
  · have hs := same_two h hr j hj (hb hr)
    by_cases hk : key j b = key j (b + 1)
    · simp [hs.2 hk, hk]
    · have hsf : m.same j = false := by rw [← Bool.not_eq_true, hs]; exact hk
      simp [h.two, hr, hsf, hk]

/-! ## The path copy -/

/-- the new blocks of a write, as they end up in the file `g` -/
structure BlocksOk (b r : ℕ) (m : MetaPlan) (seq : ℤ) (d : ℕ → ℤ) (n : ℕ → ℤ × ℤ) (g : File) : Prop where
  pos : ∀ j < 3, ∀ i, Own b r i j → numOf d n i j ≠ 0
  one : r ≠ 0 → ∀ j < 3, key j b = key j (b + 1) → (n j).2 = (n j).1
  hit : ∀ j < 3, ∀ i, Own b r i j →
    g.block (numOf d n i j) = .words (if i = 0 then (newBlocks m n seq d j).1 else (newBlocks m n seq d j).2)

theorem numOf_one (h : BlocksOk b r m seq d n g) (hr : r ≠ 0) (j : ℕ) (hj : j ≤ 3)
    (hk : key j b = key j (b + 1)) : numOf d n 1 j = numOf d n 0 j := by
  have h3 : j ≠ 3 := by
    intro e
    subst e
    simp at hk
  have h1 := h.one hr j (by omega) hk
  simp [numOf, h3, h1]

/-- pointers of the first target's copy -/
theorem child_fst (hm : PlanOk b r root f m) (h : BlocksOk b r m seq d n g) (hb : r ≠ 0 → b + 1 < 67108864) (j : ℕ)
    (hj : j < 3) (i : ℕ) :
    child g j (numOf d n 0 j) i =
      if r ≠ 0 ∧ key j b = key j (b + 1) ∧ i = key (j + 1) (b + 1) % volShape.fan j then numOf d n 1 (j + 1)
      else if i = key (j + 1) b % volShape.fan j then numOf d n 0 (j + 1)
      else child f j (node volShape (child f) root j (key j b)) i := by
  have hp := h.pos j (by omega) 0 (Or.inl rfl)
  rw [child, if_neg hp, h.hit j hj 0 (Or.inl rfl), asWords_words, if_pos rfl,
    newBlocks_fst hm n seq d j hj hb]

/-- pointers of the second target's copy, where it has one of its own -/
theorem child_snd (hm : PlanOk b r root f m) (h : BlocksOk b r m seq d n g) (j : ℕ) (hj : j < 3) (hr : r ≠ 0)
    (hb : b + 1 < 67108864) (hk : key j b ≠ key j (b + 1)) (i : ℕ) :
    child g j (numOf d n 1 j) i =
      if i = key (j + 1) (b + 1) % volShape.fan j then numOf d n 1 (j + 1)
      else child f j (node volShape (child f) root j (key j (b + 1))) i := by
  have ho : Own b r 1 j := Or.inr ⟨rfl, hr, hk⟩
  have hp := h.pos j (by omega) 1 ho
  rw [child, if_neg hp, h.hit j hj 1 ho, asWords_words, if_neg (by omega),
    newBlocks_snd hm n seq d j hj hr hb hk]

/-- a touched child of a copy is the child's copy -/
theorem copy_hit (hm : PlanOk b r root f m) (h : BlocksOk b r m seq d n g) (hb : r ≠ 0 → b + 1 < 67108864) (j : ℕ)
    (hj : j < 3) (k : ℕ) (hk : touched b r (j + 1) k) :
    child g j (freshOf b d n j (k / volShape.fan j)) (k % volShape.fan j) = freshOf b d n (j + 1) k := by
  have hd0 := key_div j b hj
  have hd1 := key_div j (b + 1) hj
  by_cases hk0 : k = key (j + 1) b
  · -- the first target
    subst hk0
    rw [hd0, freshOf, if_pos rfl, freshOf, if_pos rfl, child_fst hm h hb j hj]
    split
    · next hc =>
      have hkk : key (j + 1) b = key (j + 1) (b + 1) :=
        Nat.ext_div_mod (by rw [hd0, hd1]; exact hc.2.1) hc.2.2
      exact numOf_one h hc.1 (j + 1) (by omega) hkk
    · rw [if_pos rfl]
  · -- the second target, below the first one's parent or below its own
    rcases hk with hk | ⟨hr, hk⟩
    · exact absurd hk hk0
    · subst hk
      rw [hd1, freshOf, freshOf, if_neg hk0]
      by_cases hp : key j (b + 1) = key j b
      · rw [if_pos hp, child_fst hm h hb j hj, if_pos ⟨hr, hp.symm, rfl⟩]
      · rw [if_neg hp, child_snd hm h j hj hr (hb hr) (Ne.symm hp), if_pos rfl]

/-- an untouched child of a copy is the old child -/
theorem copy_miss (hm : PlanOk b r root f m) (h : BlocksOk b r m seq d n g) (hb : r ≠ 0 → b + 1 < 67108864) (j : ℕ)
    (hj : j < 3) (k : ℕ) (hp : touched b r j (k / volShape.fan j)) (hk : ¬ touched b r (j + 1) k) :
    child g j (freshOf b d n j (k / volShape.fan j)) (k % volShape.fan j) =
      child f j (node volShape (child f) root j (k / volShape.fan j)) (k % volShape.fan j) := by
  have hd0 := key_div j b hj
  have hd1 := key_div j (b + 1) hj
  by_cases hp0 : k / volShape.fan j = key j b
  · have h0 : k % volShape.fan j ≠ key (j + 1) b % volShape.fan j := fun e =>
      hk (Or.inl (Nat.ext_div_mod (by rw [hd0]; exact hp0) e))
    have h1 : ¬ (r ≠ 0 ∧ key j b = key j (b + 1) ∧ k % volShape.fan j = key (j + 1) (b + 1) % volShape.fan j) :=
      fun hc => hk (Or.inr ⟨hc.1, Nat.ext_div_mod (by rw [hd1, hp0]; exact hc.2.1) hc.2.2⟩)
    rw [freshOf, if_pos hp0, child_fst hm h hb j hj, if_neg h1, if_neg h0, hp0]
  · rcases hp with hp | ⟨hr, hp⟩
    · exact absurd hp hp0
    · have h1 : k % volShape.fan j ≠ key (j + 1) (b + 1) % volShape.fan j := fun e =>
        hk (Or.inr ⟨hr, Nat.ext_div_mod (by rw [hd1]; exact hp) e⟩)
      rw [freshOf, if_neg hp0, child_snd hm h j hj hr (hb hr) (fun e => hp0 (hp.trans e.symm)), if_neg h1, hp]

theorem pathCopy_of_blocks (hm : PlanOk b r root f m) (h : BlocksOk b r m seq d n g) (hb0 : b < 67108864)
    (hb : r ≠ 0 → b + 1 < 67108864)
    (hkept : ∀ x, Reach volShape (child f) root x → g.block x = f.block x) :
    PathCopy volShape (child f) (child g) root (numOf d n 0 0) (touched b r) (freshOf b d n) where
  root := Or.inl (key_zero b hb0).symm
  root_eq := by rw [freshOf, if_pos (key_zero b hb0).symm]
  parent := fun j hj k hT => touched_parent hj hT
  hit := fun j hj k _ hT => copy_hit hm h hb j hj k hT
  miss := fun j hj k _ hP hT => copy_miss hm h hb j hj k hP hT
  kept := fun j hj k hk _ i => by
    by_cases hx : node volShape (child f) root j k = 0
    · rw [hx, child_zero, child_zero]
    · exact child_congr (hkept _ ⟨hx, j, by omega, k, hk, rfl⟩) j i

/-- the leaves of the new tree: the data blocks of the write, and the old leaves -/
theorem copied_leaf {root' : ℤ} (h : PathCopy volShape (child f) (child g) root root' (touched b r) (freshOf b d n))
    (k : ℕ) (hk : k < 67108864) :
    node volShape (child g) root' 3 k =
      if k = b then d 0 else if r ≠ 0 ∧ k = b + 1 then d 1 else node volShape (child f) root 3 k := by
  by_cases h0 : k = b
  · rw [if_pos h0, node_touched h 3 k le_rfl hk (Or.inl h0)]
    exact if_pos h0
  · by_cases h1 : r ≠ 0 ∧ k = b + 1
    · rw [if_neg h0, if_pos h1, node_touched h 3 k le_rfl hk (Or.inr h1)]
      exact if_neg h0
    · rw [if_neg h0, if_neg h1, node_untouched h 3 k le_rfl hk (not_or.2 ⟨h0, h1⟩)]

theorem leafUpdated_eq (f : File) (root : ℤ) (b : ℕ) :
    leafUpdated f root b = readMeta f (node volShape (child f) root 2 (b / 256)) (2 * (b % 256)) := by
  unfold leafUpdated readMeta Block.lastUpdated
  by_cases h : node volShape (child f) root 2 (b / 256) = 0 <;> simp [h]

/-- **Last updated.** The blocks of a write carry its number, all others what they carried. -/
theorem updated_of_blocks (hm : PlanOk b r root f m) (h : BlocksOk b r m seq d n g) (hb0 : b < 67108864)
    (hb : r ≠ 0 → b + 1 < 67108864)
    (hkept : ∀ x, Reach volShape (child f) root x → g.block x = f.block x) (b' : ℕ) (hb' : b' < 67108864) :
    leafUpdated g (numOf d n 0 0) b' =
      if b' = b ∨ r ≠ 0 ∧ b' = b + 1 then seq else leafUpdated f root b' := by
  have hcopy := pathCopy_of_blocks hm h hb0 hb hkept
  have hcap : b' / 256 < volShape.cap 2 := by simp; omega
  -- a new block, read at its own number
  have hread : ∀ i, Own b r i 2 → readMeta g (numOf d n i 2) (2 * (b' % 256)) =
      (if i = 0 then (newBlocks m n seq d 2).1 else (newBlocks m n seq d 2).2) (2 * (b' % 256)) := by
    intro i hi
    have hp := h.pos 2 (by omega) i hi
    rw [readMeta, if_pos hp, h.hit 2 (by omega) i hi, asWords_words]
  rw [leafUpdated_eq, leafUpdated_eq]
  by_cases hT : touched b r 2 (b' / 256)
  · rw [node_touched hcopy 2 _ (by simp) hcap hT, freshOf]
    by_cases h0 : b' / 256 = key 2 b
    · -- below the first target's parent
      have h0' : b' / 256 = b / 256 := h0
      rw [if_pos h0, hread 0 (Or.inl rfl), if_pos rfl, newBlocks_fst_updated hm n seq d hb, h0]
      by_cases h1 : r ≠ 0 ∧ key 2 b = key 2 (b + 1) ∧ b' % 256 = (b + 1) % 256
      · have h1' : b / 256 = (b + 1) / 256 := h1.2.1
        rw [if_pos h1, if_pos (Or.inr ⟨h1.1, by omega⟩)]
      · rw [if_neg h1]
        by_cases h2 : b' % 256 = b % 256
        · rw [if_pos h2, if_pos (Or.inl (by omega))]
        · have h3 : ¬ (b' = b ∨ r ≠ 0 ∧ b' = b + 1) := by
            rintro (rfl | ⟨hr, rfl⟩)
            · exact h2 rfl
            · exact h1 ⟨hr, h0.symm, rfl⟩
          rw [if_neg h2, if_neg h3]
    · -- below the second target's own parent
      obtain ⟨hr, hk⟩ : r ≠ 0 ∧ b' / 256 = key 2 (b + 1) := by
        rcases hT with hT | hT
        · exact absurd hT h0
        · exact hT
      have hk' : b' / 256 = (b + 1) / 256 := hk
      have hne : key 2 b ≠ key 2 (b + 1) := fun e => h0 (hk.trans e.symm)
      rw [if_neg h0, hread 1 (Or.inr ⟨rfl, hr, hne⟩), if_neg (by omega), newBlocks_snd_updated hm n seq d hr (hb hr) hne, hk]
      by_cases h2 : b' % 256 = (b + 1) % 256
      · rw [if_pos h2, if_pos (Or.inr ⟨hr, by omega⟩)]
      · have h3 : ¬ (b' = b ∨ r ≠ 0 ∧ b' = b + 1) := by
          rintro (rfl | ⟨-, rfl⟩)
          · exact h0 rfl
          · exact h2 rfl
        rw [if_neg h2, if_neg h3]
  · have h3 : ¬ (b' = b ∨ r ≠ 0 ∧ b' = b + 1) := by
      rintro (rfl | ⟨hr, rfl⟩)
      · exact hT (Or.inl rfl)
      · exact hT (Or.inr ⟨hr, rfl⟩)
    rw [node_untouched hcopy 2 _ (by simp) hcap hT, if_neg h3]
    by_cases hx : node volShape (child f) root 2 (b' / 256) = 0
    · simp [readMeta, hx]
    · have hreach : Reach volShape (child f) root (node volShape (child f) root 2 (b' / 256)) :=
        ⟨hx, 2, by simp, _, hcap, rfl⟩
      rw [readMeta, if_pos hx, readMeta, if_pos hx, hkept _ hreach]

/-! ## Old blocks -/

theorem p0_num (h : PlanOk b r root f m) (j : ℕ) (hj : j ≤ 3) :
    m.p0.num j = node volShape (child f) root j (key j b) := by
  rw [h.p0, readPath_num f root b j hj]

theorem p1_num (h : PlanOk b r root f m) (j : ℕ) (hj : j ≤ 3) (hne : m.p1.num j ≠ 0) :
    r ≠ 0 ∧ m.p1.num j = node volShape (child f) root j (key j (b + 1)) := by
  by_cases hr : r = 0
  · exact absurd (by rw [h.p1, if_neg (by simp [hr])]; rfl) hne
  · exact ⟨hr, by rw [h.p1, if_pos hr, readPath_num f root (b + 1) j hj]⟩

theorem mem_levelToFree (p0 p1 : Path) (j : ℕ) (x : ℤ) :
    x ∈ levelToFree p0 p1 j ↔ x ≠ 0 ∧ (x = p0.num j ∨ x = p1.num j ∧ x ≠ p0.num j) := by
  unfold levelToFree
  rw [List.mem_append]
  constructor
  · intro hx
    rcases hx with hx | hx
    · split at hx
      · next h0 => rw [List.mem_singleton] at hx; exact ⟨hx ▸ h0, Or.inl hx⟩
      · simp at hx
    · split at hx
      · next h1 => rw [List.mem_singleton] at hx; exact ⟨hx ▸ h1.1, Or.inr ⟨hx, hx ▸ h1.2⟩⟩
      · simp at hx
  · intro h
    obtain ⟨hx0, hx⟩ := h
    rcases hx with hx | ⟨hx, hne⟩
    · left; rw [if_pos (hx ▸ hx0)]; simp [hx]
    · right; rw [if_pos ⟨hx ▸ hx0, hx ▸ hne⟩]; simp [hx]

/-- what level `j` frees stood at a touched level-j position -/
theorem levelToFree_touched (h : PlanOk b r root f m) (hb0 : b < 67108864) (hb : r ≠ 0 → b + 1 < 67108864) (j : ℕ)
    (hj : j ≤ 3) (x : ℤ) (hx : x ∈ levelToFree m.p0 m.p1 j) :
    x ≠ 0 ∧ ∃ k < volShape.cap j, touched b r j k ∧ node volShape (child f) root j k = x := by
  obtain ⟨hx0, hx⟩ := (mem_levelToFree m.p0 m.p1 j x).1 hx
  refine ⟨hx0, ?_⟩
  rcases hx with hx | ⟨hx, -⟩
  · exact ⟨key j b, key_lt j b hj hb0, Or.inl rfl, by rw [hx, p0_num h j hj]⟩
  · obtain ⟨hr, e⟩ := p1_num h j hj (hx ▸ hx0)
    exact ⟨key j (b + 1), key_lt j (b + 1) hj (hb hr), Or.inr ⟨hr, rfl⟩, by rw [hx, e]⟩

theorem toFree_touched (h : PlanOk b r root f m) (hb0 : b < 67108864) (hb : r ≠ 0 → b + 1 < 67108864) (x : ℤ)
    (hx : x ∈ toFreeOf m.p0 m.p1) :
    x ≠ 0 ∧ ∃ j ≤ volShape.depth, ∃ k < volShape.cap j, touched b r j k ∧ node volShape (child f) root j k = x := by
  obtain ⟨j, hj, hx⟩ := List.mem_flatMap.1 hx
  have hj' : j < 4 := List.mem_range.1 hj
  obtain ⟨hx0, hk⟩ := levelToFree_touched h hb0 hb j (by omega) x hx
  exact ⟨hx0, j, by simp; omega, hk⟩

theorem levelToFree_nodup (p0 p1 : Path) (j : ℕ) : (levelToFree p0 p1 j).Nodup := by
  unfold levelToFree
  split <;> split
  · next h0 h1 => simpa using Ne.symm h1.2
  all_goals simp

theorem toFree_nodup (h : PlanOk b r root f m) (hb0 : b < 67108864) (hb : r ≠ 0 → b + 1 < 67108864)
    (hp : Proper volShape (child f) root) : (toFreeOf m.p0 m.p1).Nodup := by
  refine List.nodup_flatMap.2 ⟨fun j _ => levelToFree_nodup m.p0 m.p1 j, List.pairwise_iff_getElem.2 ?_⟩
  intro i j hi hj hij x hx hx'
  simp only [List.length_range] at hi hj
  simp only [List.getElem_range] at hx hx'
  obtain ⟨hx0, k, hk, -, e⟩ := levelToFree_touched h hb0 hb i (by omega) x hx
  obtain ⟨-, k', hk', -, e'⟩ := levelToFree_touched h hb0 hb j (by omega) x hx'
  have := (hp i (by simp; omega) k hk j (by simp; omega) k' hk' (e.trans e'.symm) (e ▸ hx0)).1
  omega

end Plan

/-! ## The call as a whole -/

theorem readPath_frame {f g : File} {root : ℤ} (h : ∀ x, Reach volShape (child f) root x → g.block x = f.block x)
    (b : ℕ) (hb : b < 67108864) : readPath g root (offsetsOf (4096 * b)) = readPath f root (offsetsOf (4096 * b)) := by
  have hm : ∀ j ≤ 3, readMeta g ((readPath f root (offsetsOf (4096 * b))).num j) =
      readMeta f ((readPath f root (offsetsOf (4096 * b))).num j) := by
    intro j hj
    rw [readPath_num f root b j hj]
    unfold readMeta
    split
    · next h0 => rw [h _ ⟨h0, j, hj, key j b, key_lt j b hj hb, rfl⟩]
    · rfl
  have h0 := hm 0 (by omega)
  have h1 := hm 1 (by omega)
  have h2 := hm 2 (by omega)
  simp only [readPath] at h0 h1 h2
  simp only [readPath, h0, h1, h2]

/-- level `j` of an aligned write at block `b` writes a block to an unassigned number -/
def Stray (b r j : ℕ) : Prop := r = 0 ∧ (j = 1 ∨ j = 2) ∧ key j b % 512 ≠ 0

/-- the unassigned numbers a write uses -/
def strays (junk : ℕ → ℤ) (b r : ℕ) : Set ℤ := {x | ∃ j, Stray b r j ∧ junk j = x}

section Call

variable {sound : Prop} {U J : Set ℤ} {v : Volume} {c : Call} {b r : ℕ} {root : ℤ} {f : File} {m : MetaPlan}

theorem stray_of_plan (h : PlanOk b r root f m) (j : ℕ) (hj : j < 3) (hs : m.same j = false) (h2 : m.two = false) :
    Stray b r j := by
  have hr : r = 0 := by simpa [h.two] using h2
  have h1 := (same_one h hr j hj).not.1 (by simp [hs])
  have hj' : j = 0 ∨ j = 1 ∨ j = 2 := by omega
  refine ⟨hr, ?_, fun e => h1 (Or.inr e)⟩
  rcases hj' with hj' | hj'
  · exact absurd (Or.inl hj') h1
  · exact hj'

theorem plan_of_stray (h : PlanOk b r root f m) {j : ℕ} (hs : Stray b r j) :
    j < 3 ∧ m.same j = false ∧ m.two = false := by
  obtain ⟨hr, hj, hk⟩ := hs
  refine ⟨by omega, ?_, by simp [h.two, hr]⟩
  rw [← Bool.not_eq_true, same_one h hr j (by omega)]
  omega

theorem callInv_writeLevel (h : CallInv sound U J v c) (one : Bool) (n : ℤ × ℤ) (b : Words × Words)
    (h1 : n.1 ∈ c.nums) (h2 : one = false → n.2 ∈ c.nums ∨ n.2 ∈ J) : CallInv sound U J v (c.writeLevel one n b) := by
  have hc := callInv_writeBlock h n.1 (.words b.1) (Or.inl h1)
  cases one with
  | true => exact hc
  | false => exact callInv_writeBlock hc n.2 (.words b.2) (h2 rfl)

theorem callInv_writeLevels (h : CallInv sound U J v c) (one : ℕ → Bool) (n : ℕ → ℤ × ℤ) (bl : ℕ → Words × Words)
    (h1 : ∀ j < 3, (n j).1 ∈ c.nums) (h2 : ∀ j < 3, one j = false → (n j).2 ∈ c.nums ∨ (n j).2 ∈ J) :
    CallInv sound U J v (c.writeLevels one n bl) := by
  have hnums : ∀ (c : Call) (one : Bool) (n : ℤ × ℤ) (b : Words × Words), (c.writeLevel one n b).nums = c.nums :=
    fun c one n b => by cases one <;> rfl
  refine callInv_writeLevel (callInv_writeLevel (callInv_writeLevel h _ _ _ (h1 0 (by omega)) (h2 0 (by omega)))
    _ _ _ ?_ ?_) _ _ _ ?_ ?_
  all_goals simp only [hnums]
  · exact h1 1 (by omega)
  · exact h2 1 (by omega)
  · exact h1 2 (by omega)
  · exact h2 2 (by omega)

theorem mem_writeLevels (c : Call) (one : ℕ → Bool) (n : ℕ → ℤ × ℤ) (bl : ℕ → Words × Words) (j : ℕ) (hj : j < 3)
    (h : one j = false) : .pwrite ((n j).2, .words (bl j).2) ∈ (c.writeLevels one n bl).io := by
  have hkeep : ∀ (c : Call) (one : Bool) (n : ℤ × ℤ) (b : Words × Words) (o : Io (ℤ × Block)),
      o ∈ c.io → o ∈ (c.writeLevel one n b).io := by
    intro c one n b o ho
    cases one <;> simp [Call.writeLevel, Call.writeBlock, ho]
  have hself : ∀ (c : Call) (n : ℤ × ℤ) (b : Words × Words), .pwrite (n.2, .words b.2) ∈ (c.writeLevel false n b).io :=
    fun c n b => by simp [Call.writeLevel, Call.writeBlock]
  have hj' : j = 0 ∨ j = 1 ∨ j = 2 := by omega
  unfold Call.writeLevels
  obtain rfl | rfl | rfl := hj'
  · exact hkeep _ _ _ _ _ (hkeep _ _ _ _ _ (h ▸ hself _ _ _))
  · exact hkeep _ _ _ _ _ (h ▸ hself _ _ _)
  · exact h ▸ hself _ _ _

/-- everything a write does; `g` is the file it leaves where no block is lost to an unassigned number -/
structure WriteOk (sound : Prop) (U J : Set ℤ) (v : Volume) (b r : ℕ) (buf : Buf) (seq : ℤ) (out : Call)
    (uw : UncommittedWrite) (d : ℕ → ℤ) (n : ℕ → ℤ × ℤ) (g : File) : Prop where
  alloc : AllocOk sound (U ∪ out.nums) out.vol
  got : ∀ a ∈ out.got, GotOk U v a
  firstBlock : out.vol.firstBlock = v.firstBlock
  unc : out.vol.uncommittedWrites = fun k => if k = seq then some uw else v.uncommittedWrites k
  io : out.vol.file = out.io.foldl (Io.apply File.write) v.file
  wrote : ∀ w, .pwrite w ∈ out.io → w.1 ∈ out.nums ∨ w.1 ∈ J
  strayed : ∀ x ∈ J, ∃ blk, .pwrite (x, blk) ∈ out.io
  nums : NumsOk b r d n out
  lost : LostTo J g out.vol.file
  kept : ∀ x ∉ out.nums, g.block x = v.file.block x
  copy : PathCopy volShape (child v.file) (child g) (rootAt v (seq - 1)) (uw.newMetadataOffset 0) (touched b r)
    (freshOf b d n)
  oneRoot : uw.newMetadataOffset 1 = uw.newMetadataOffset 0
  free_nodup : uw.toFree.Nodup
  free_touched : ∀ x ∈ uw.toFree, x ≠ 0 ∧ ∃ j ≤ volShape.depth, ∃ k < volShape.cap j, touched b r j k ∧
    node volShape (child v.file) (rootAt v (seq - 1)) j k = x
  fst_data : g.block (d 0) = .bytes (fillFrom r (readAligned v (4096 * b)) buf)
  snd_data : r ≠ 0 → ∃ w : Volume, w.firstBlock = v.firstBlock ∧ (∀ x ≠ d 0, w.file.block x = v.file.block x) ∧
    w.pendingBlocks (4096 * (b + 1)) = v.pendingBlocks (4096 * (b + 1)) ∧
    g.block (d 1) = .bytes (fillUpTo r (readAligned w (4096 * (b + 1))) buf)
  pending : out.vol.pendingBlocks = fun o : ℤ => if r ≠ 0 ∧ o = 4096 * (b + 1) then some (d 1)
    else if o = 4096 * b then some (d 0) else v.pendingBlocks o

/-- `last_updated` in the new tree: the blocks of the write carry its number, all others what they carried -/
def Stamped (b r : ℕ) (seq : ℤ) (f g : File) (root root' : ℤ) : Prop :=
  ∀ b' < 67108864, leafUpdated g root' b' = if b' = b ∨ r ≠ 0 ∧ b' = b + 1 then seq else leafUpdated f root b'

/-- the part of a write before its metadata blocks are written: data blocks `d`, plan `m`, numbers `a` -/
structure Prepared (sound : Prop) (U : Set ℤ) (v : Volume) (b r : ℕ) (buf : Buf) (seq : ℤ) (junk : ℕ → ℤ)
    (d : (ℕ → ℤ) × Call) (m : MetaPlan) (a : (ℕ → ℤ × ℤ) × Call) : Prop where
  data : DataNums v buf b r d.1 d.2
  dataInv : CallInv sound U ∅ v d.2
  plan : PlanOk b r (rootAt v (seq - 1)) v.file m
  inv : CallInv sound U ∅ v a.2
  nums : NumsOk b r d.1 a.1 a.2
  file : a.2.vol.file = d.2.vol.file
  pending : a.2.vol.pendingBlocks = d.2.vol.pendingBlocks
  mono : ∀ x ∈ d.2.nums, x ∈ a.2.nums
  junk : ∀ j < 3, m.same j = false → m.two = false → (a.1 j).2 = junk j
  one : (a.1 0).2 = (a.1 0).1

theorem write_prepared (h : AllocOk sound U v) (h1 : OneRoot v) (junk : ℕ → ℤ) (buf : Buf) (seq : ℤ) (hr : r < 4096)
    (hb0 : b < 67108864) (hb : r ≠ 0 → b + 1 < 67108864)
    (hU : ∀ x, Reach volShape (child v.file) (rootAt v (seq - 1)) x → x ∈ U)
    (he : Enough sound (blocksNeeded b r) v) :
    let d := writeData buf (4096 * b + r : ℕ) (Call.start v)
    let m := metaPlan d.2.vol seq (4096 * b + r : ℕ)
    Prepared sound U v b r buf seq junk d m (allocLevels m junk d.2) := by
  intro d m
  obtain ⟨hd, hed, hdn⟩ := writeData_spec h buf b r hr _ he
  -- the plan reads the file behind the data blocks as it was
  have hkept : ∀ x, Reach volShape (child v.file) (rootAt v (seq - 1)) x → d.2.vol.file.block x = v.file.block x :=
    fun x hx => hd.file x (fun hm => hd.not_mem hm (hU x hx)) (Set.notMem_empty x)
  have hroot : rootAt d.2.vol (seq - 1) = rootAt v (seq - 1) := by
    have hunc : d.2.vol.uncommittedWrites = v.uncommittedWrites := hd.unc
    have hfirst : d.2.vol.firstBlock = v.firstBlock := hd.firstBlock
    simp only [rootAt, hunc, hfirst]
  have hone : OneRoot d.2.vol := fun n uw hn => h1 n uw (by rw [← hd.unc]; exact hn)
  have hm0 : PlanOk b r (rootAt d.2.vol (seq - 1)) d.2.vol.file m := metaPlan_ok (hone _) b r hr
  rw [hroot] at hm0
  have hm : PlanOk b r (rootAt v (seq - 1)) v.file m := by
    refine ⟨hm0.two, hm0.o0, hm0.o1, ?_, ?_⟩
    · rw [hm0.p0, readPath_frame hkept b hb0]
    · rw [hm0.p1]
      split
      · next hr0 => rw [readPath_frame hkept (b + 1) (hb hr0)]
      · rfl
  obtain ⟨ha, -, c1, c2, l0, l1, l2⟩ := allocLevels_spec hd m junk 0 (by
    rw [levelCount_eq hm hb 0 (by omega), levelCount_eq hm hb 1 (by omega), levelCount_eq hm hb 2 (by omega), zero_add]
    exact hed)
  exact
    { data := hdn
      dataInv := hd
      plan := hm
      inv := ha
      nums := numsOk_of_levels hm hb hdn.fst hdn.snd hdn.ne l0 l1 l2
      file := l2.file.trans (l1.file.trans l0.file)
      pending := l2.pending.trans (l1.pending.trans l0.pending)
      mono := fun x hx => l2.mono x (l1.mono x (l0.mono x hx))
      junk := fun j hj hs h2 => by
        have hj' : j = 0 ∨ j = 1 ∨ j = 2 := by omega
        obtain rfl | rfl | rfl := hj' <;> simp only [allocLevels, hs, h2, newBlockNums_junk]
      one := l0.one (same_zero hm) }

section Prepared

variable {buf : Buf} {seq : ℤ} {junk : ℕ → ℤ} {d : (ℕ → ℤ) × Call} {a : (ℕ → ℤ × ℤ) × Call}

theorem numOf_fst (d : ℕ → ℤ) (n : ℕ → ℤ × ℤ) (j : ℕ) (hj : j < 3) : numOf d n 0 j = (n j).1 := by
  simp [numOf, Nat.ne_of_lt hj]

theorem numOf_snd (d : ℕ → ℤ) (n : ℕ → ℤ × ℤ) (j : ℕ) (hj : j < 3) : numOf d n 1 j = (n j).2 := by
  simp [numOf, Nat.ne_of_lt hj]

/-- the levels that write a second block of their own -/
theorem own_iff (hm : PlanOk b r root f m) (hb : r ≠ 0 → b + 1 < 67108864) (j : ℕ) (hj : j < 3) :
    (m.same j || !m.two) = false ↔ Own b r 1 j := by
  simp only [Bool.or_eq_false_iff, Bool.not_eq_false', hm.two, decide_eq_true_eq, Own]
  constructor
  · intro hc
    exact Or.inr ⟨trivial, hc.2, fun e => by rw [(same_two hm hc.2 j hj (hb hc.2)).2 e] at hc; simp at hc⟩
  · intro hc
    rcases hc with hc | ⟨-, hr0, hk⟩
    · omega
    · exact ⟨by rw [← Bool.not_eq_true, same_two hm hr0 j hj (hb hr0)]; exact hk, hr0⟩

theorem Prepared.mem_fst (hp : Prepared sound U v b r buf seq junk d m a) (j : ℕ) (hj : j < 3) :
    (a.1 j).1 ∈ a.2.nums := by
  rw [← numOf_fst d.1 a.1 j hj]
  exact hp.nums.mem j (by omega) 0 (Or.inl rfl)

theorem Prepared.mem_snd (hp : Prepared sound U v b r buf seq junk d m a) (j : ℕ) (hj : j < 3) (ho : Own b r 1 j) :
    (a.1 j).2 ∈ a.2.nums := by
  rw [← numOf_snd d.1 a.1 j hj]
  exact hp.nums.mem j (by omega) 1 ho

/-- the call with its metadata blocks written -/
theorem Prepared.callInv (hp : Prepared sound U v b r buf seq junk d m a) (hb : r ≠ 0 → b + 1 < 67108864)
    (bl : ℕ → Words × Words) : CallInv sound U (strays junk b r) v (a.2.writeLevels m.same a.1 bl) := by
  refine callInv_writeLevels (callInv_mono hp.inv (by simp)) _ _ _ hp.mem_fst (fun j hj hs => ?_)
  cases h2 : m.two with
  | false => exact Or.inr ⟨j, stray_of_plan hp.plan j hj hs h2, (hp.junk j hj hs h2).symm⟩
  | true => exact Or.inl (hp.mem_snd j hj ((own_iff hp.plan hb j hj).1 (by simp [hs, h2])))

/-- blocks that were not handed out stay -/
theorem Prepared.kept (hp : Prepared sound U v b r buf seq junk d m a) (hb : r ≠ 0 → b + 1 < 67108864)
    (bl : ℕ → Words × Words) (x : ℤ) (hx : x ∉ a.2.nums) :
    (a.2.writeLevels (fun j => m.same j || !m.two) a.1 bl).vol.file.block x = v.file.block x := by
  have hx0 : ∀ j < 3, x ≠ (a.1 j).1 := fun j hj e => hx (e ▸ hp.mem_fst j hj)
  have hx1 : ∀ j < 3, (m.same j || !m.two) = false → x ≠ (a.1 j).2 :=
    fun j hj ho e => hx (e ▸ hp.mem_snd j hj ((own_iff hp.plan hb j hj).1 ho))
  rw [writeLevels_frame hx0 hx1, hp.file]
  exact hp.dataInv.file x (fun hm => hx (hp.mono x hm)) (Set.notMem_empty x)

/-- the metadata blocks do not overwrite the data blocks -/
theorem Prepared.data_kept (hp : Prepared sound U v b r buf seq junk d m a) (hb : r ≠ 0 → b + 1 < 67108864)
    (bl : ℕ → Words × Words) (i : ℕ) (ho : Own b r i 3) :
    (a.2.writeLevels (fun j => m.same j || !m.two) a.1 bl).vol.file.block (d.1 i) = d.2.vol.file.block (d.1 i) := by
  have e3 : numOf d.1 a.1 i 3 = d.1 i := rfl
  rw [writeLevels_frame, hp.file]
  · intro j hj e
    have := (hp.nums.inj 3 le_rfl i ho j (by omega) 0 (Or.inl rfl)
      (e3.trans (e.trans (numOf_fst d.1 a.1 j hj).symm))).1
    omega
  · intro j hj h0 e
    have := (hp.nums.inj 3 le_rfl i ho j (by omega) 1 ((own_iff hp.plan hb j hj).1 h0)
      (e3.trans (e.trans (numOf_snd d.1 a.1 j hj).symm))).1
    omega

theorem writeLevels_pending (c : Call) (one : ℕ → Bool) (n : ℕ → ℤ × ℤ) (bl : ℕ → Words × Words) :
    (c.writeLevels one n bl).vol.pendingBlocks = c.vol.pendingBlocks := by
  unfold Call.writeLevels Call.writeLevel
  split <;> split <;> split <;> rfl

theorem writeLevels_nums (c : Call) (one : ℕ → Bool) (n : ℕ → ℤ × ℤ) (bl : ℕ → Words × Words) :
    (c.writeLevels one n bl).nums = c.nums := by
  unfold Call.writeLevels Call.writeLevel
  split <;> split <;> split <;> rfl

/-- the last part of a write: the metadata blocks and `uncommitted_writes[seq]` -/
def finish (seq : ℤ) (d : ℕ → ℤ) (m : MetaPlan) (a : (ℕ → ℤ × ℤ) × Call) : UncommittedWrite × Call :=
  let uw : UncommittedWrite := ⟨toFreeOf m.p0 m.p1, fun i => if i = 0 then (a.1 0).1 else (a.1 0).2⟩
  let c := a.2.writeLevels m.same a.1 (newBlocks m a.1 seq d)
  (uw, { c with vol := { c.vol with
    uncommittedWrites := fun n => if n = seq then some uw else c.vol.uncommittedWrites n } })

theorem finish_ok (hp : Prepared sound U v b r buf seq junk d m a) (hb0 : b < 67108864) (hb : r ≠ 0 → b + 1 < 67108864)
    (hU : ∀ x, Reach volShape (child v.file) (rootAt v (seq - 1)) x → x ∈ U)
    (hpr : Proper volShape (child v.file) (rootAt v (seq - 1))) :
    ∃ g, WriteOk sound U (strays junk b r) v b r buf seq (finish seq d.1 m a).2 (finish seq d.1 m a).1 d.1 a.1 g ∧
      Stamped b r seq v.file g (rootAt v (seq - 1)) ((finish seq d.1 m a).1.newMetadataOffset 0) := by
  have hc := hp.callInv hb (newBlocks m a.1 seq d.1)
  have hblocks : BlocksOk b r m seq d.1 a.1
      (a.2.writeLevels (fun j => m.same j || !m.two) a.1 (newBlocks m a.1 seq d.1)).vol.file :=
    ⟨fun j hj i ho => by have := hp.inv.pos (hp.nums.mem j (by omega) i ho); omega, hp.nums.one,
      fun j hj i ho => writeLevels_hit hp.nums.meta_inj (own_iff hp.plan hb) j hj i ho⟩
  have hnums : (finish seq d.1 m a).2.nums = a.2.nums := writeLevels_nums a.2 m.same a.1 _
  have htree : ∀ x, Reach volShape (child v.file) (rootAt v (seq - 1)) x →
      (a.2.writeLevels (fun j => m.same j || !m.two) a.1 (newBlocks m a.1 seq d.1)).vol.file.block x = v.file.block x :=
    fun x hx => hp.kept hb _ x (fun hm => hp.inv.not_mem hm (hU x hx))
  refine ⟨(a.2.writeLevels (fun j => m.same j || !m.two) a.1 (newBlocks m a.1 seq d.1)).vol.file, ?_, fun b' hb' => ?_⟩
  swap
  · simpa [finish, numOf] using updated_of_blocks hp.plan hblocks hb0 hb htree b' hb'
  exact
    { alloc := allocOk_congr hc.alloc rfl rfl
      got := hc.got
      firstBlock := hc.firstBlock
      unc := by funext k; exact congrArg (fun u => if k = seq then _ else u k) hc.unc
      io := hc.io
      wrote := hc.wrote
      strayed := fun x hx => by
        obtain ⟨j, hj, rfl⟩ := hx
        obtain ⟨hj3, hs, h2⟩ := plan_of_stray hp.plan hj
        rw [← hp.junk j hj3 hs h2]
        exact ⟨_, mem_writeLevels a.2 m.same a.1 _ j hj3 hs⟩
      nums := ⟨fun j hj i ho => by rw [hnums]; exact hp.nums.mem j hj i ho, hp.nums.inj, hp.nums.one⟩
      lost := lostTo_writeLevels a.2 m a.1 _ (fun j hj hs h2 =>
        ⟨⟨j, stray_of_plan hp.plan j hj hs h2, (hp.junk j hj hs h2).symm⟩,
          newBlocks_junk hp.plan a.1 seq d.1 j hj (by simpa [hp.plan.two] using h2)⟩)
      kept := fun x hx => hp.kept hb _ x (by rw [← hnums]; exact hx)
      copy := by
        have hcopy := pathCopy_of_blocks hp.plan hblocks hb0 hb htree
        simpa [finish, numOf] using hcopy
      oneRoot := by simpa [finish] using hp.one
      free_nodup := toFree_nodup hp.plan hb0 hb hpr
      free_touched := toFree_touched hp.plan hb0 hb
      fst_data := (hp.data_kept hb _ 0 (Or.inl rfl)).trans hp.data.fst_block
      snd_data := fun hr0 => by
        obtain ⟨w, w1, w2, w3, w4⟩ := hp.data.snd_block hr0
        exact ⟨w, w1, w2, w3, (hp.data_kept hb _ 1 (Or.inr ⟨rfl, hr0, by simp⟩)).trans w4⟩
      pending := (writeLevels_pending a.2 m.same a.1 _).trans (hp.pending.trans hp.data.pending) }

end Prepared

/-- **One write.** -/
theorem write_ok (h : AllocOk sound U v) (h1 : OneRoot v) (junk : ℕ → ℤ) (buf : Buf) (seq : ℤ) (hr : r < 4096)
    (hb0 : b < 67108864) (hb : r ≠ 0 → b + 1 < 67108864)
    (hU : ∀ x, Reach volShape (child v.file) (rootAt v (seq - 1)) x → x ∈ U)
    (hp : Proper volShape (child v.file) (rootAt v (seq - 1))) (he : Enough sound (blocksNeeded b r) v) :
    ∃ uw d n g, WriteOk sound U (strays junk b r) v b r buf seq (write junk buf (4096 * b + r : ℕ) seq v) uw d n g ∧
      Stamped b r seq v.file g (rootAt v (seq - 1)) (uw.newMetadataOffset 0) := by
  obtain ⟨g, hg⟩ := finish_ok (write_prepared h h1 junk buf seq hr hb0 hb hU he) hb0 hb hU hp
  exact ⟨_, _, _, g, hg⟩

end Call

end ChainedBlockStorage.Storage
