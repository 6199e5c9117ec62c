/-
Radix trees whose nodes live in a store, and their update by path copying.

A store is seen through `child j x i`: the i-th child pointer of the node at address `x`, read as a level-j node; `0`
is the null pointer. A key at level j + 1 is `k`, its parent is the key `k / fan j` and it hangs there at index
`k % fan j`, so one number names a position and no path lists are needed. Several roots may share nodes.

- `subtree`, `mem_subtree_root`, `nodup_subtree`: the nodes of a tree as a list.
- `reach_finite`: a tree has at most as many nodes as positions.
- `PathCopy`: the new store holds fresh copies of the nodes at the touched positions, each pointing at fresh children
  where the child is touched and at the old child where it is not; nothing else changed.
- `node_touched`, `node_untouched`: the new tree is the old one with exactly the touched positions replaced.
- `proper_of_pathCopy`, `reach_of_pathCopy`, `dropped_of_pathCopy`: no node becomes shared, the new tree holds the
  fresh nodes and the untouched old ones, and what is no longer reached is what stood at the touched positions.
- `Shrinks`: pointers may also have been lost (a node overwritten by zeros). Walks then reach what they did, or null.
-/
import Mathlib.Tactic

namespace ChainedBlockStorage.Radix

variable {A : Type} [Zero A]

/-- fan-out of each level and the level of the leaves -/
structure Shape where
  fan : ℕ → ℕ
  depth : ℕ

/-- number of keys at a level -/
def Shape.cap (S : Shape) : ℕ → ℕ
  | 0 => 1
  | j + 1 => S.cap j * S.fan j

/-- the address at level `j` under key `k`, walking down from the root `r` -/
def node (S : Shape) (child : ℕ → A → ℕ → A) (r : A) : ℕ → ℕ → A
  | 0, _ => r
  | j + 1, k => child j (node S child r j (k / S.fan j)) (k % S.fan j)

/-- `x` is a node of the tree under `r` -/
def Reach (S : Shape) (child : ℕ → A → ℕ → A) (r x : A) : Prop :=
  x ≠ 0 ∧ ∃ j ≤ S.depth, ∃ k < S.cap j, node S child r j k = x

/-- no address stands at two positions of the tree -/
def Proper (S : Shape) (child : ℕ → A → ℕ → A) (r : A) : Prop :=
  ∀ j ≤ S.depth, ∀ k < S.cap j, ∀ j' ≤ S.depth, ∀ k' < S.cap j',
    node S child r j k = node S child r j' k' → node S child r j k ≠ 0 → j = j' ∧ k = k'

/-- the null pointer has no children -/
def NullSafe (child : ℕ → A → ℕ → A) : Prop := ∀ j i, child j 0 i = 0

theorem div_lt_cap (S : Shape) (j k : ℕ) (h : k < S.cap (j + 1)) : k / S.fan j < S.cap j :=
  Nat.div_lt_of_lt_mul (lt_of_lt_of_eq h (Nat.mul_comm _ _))

theorem node_null (S : Shape) (child : ℕ → A → ℕ → A) (h0 : NullSafe child) (j k : ℕ) : node S child 0 j k = 0 := by
  induction j generalizing k with
  | zero => rfl
  | succ j ih => rw [node, ih, h0]

theorem not_reach_null (S : Shape) (child : ℕ → A → ℕ → A) (h0 : NullSafe child) (x : A) : ¬ Reach S child 0 x := by
  intro h
  obtain ⟨hx, j, -, k, -, e⟩ := h
  exact hx (e.symm.trans (node_null S child h0 j k))

theorem proper_null (S : Shape) (child : ℕ → A → ℕ → A) (h0 : NullSafe child) : Proper S child 0 :=
  fun j _ k _ _ _ _ _ _ hne => absurd (node_null S child h0 j k) hne

/-! ## Frame -/

omit [Zero A] in
/-- **Frame.** A walk depends only on the pointers it follows. -/
theorem node_congr (S : Shape) (child child' : ℕ → A → ℕ → A) (r : A)
    (h : ∀ j < S.depth, ∀ k < S.cap j, ∀ i, child' j (node S child r j k) i = child j (node S child r j k) i)
    (j k : ℕ) (hj : j ≤ S.depth) (hk : k < S.cap j) : node S child' r j k = node S child r j k := by
  induction j generalizing k with
  | zero => rfl
  | succ j ih =>
    have hk' := div_lt_cap S j k hk
    simp only [node, ih _ (by omega) hk']
    exact h j (by omega) _ hk' _

/-- two stores agree below `r` when they agree on the nodes the first one reaches -/
theorem node_congr_reach (S : Shape) (child child' : ℕ → A → ℕ → A) (r : A) (h0 : NullSafe child)
    (h0' : NullSafe child')
    (h : ∀ x, Reach S child r x → ∀ j i, child' j x i = child j x i)
    (j k : ℕ) (hj : j ≤ S.depth) (hk : k < S.cap j) : node S child' r j k = node S child r j k := by
  refine node_congr S child child' r (fun j hj k hk i => ?_) j k hj hk
  by_cases hx : node S child r j k = 0
  · rw [hx, h0, h0']
  · exact h _ ⟨hx, j, by omega, k, hk, rfl⟩ j i

theorem reach_congr (S : Shape) (child child' : ℕ → A → ℕ → A) (r : A) (h0 : NullSafe child) (h0' : NullSafe child')
    (h : ∀ x, Reach S child r x → ∀ j i, child' j x i = child j x i) (x : A) :
    Reach S child' r x ↔ Reach S child r x := by
  have hn := node_congr_reach S child child' r h0 h0' h
  constructor
  · rintro ⟨hx, j, hj, k, hk, e⟩
    exact ⟨hx, j, hj, k, hk, by rw [← hn j k hj hk]; exact e⟩
  · rintro ⟨hx, j, hj, k, hk, e⟩
    exact ⟨hx, j, hj, k, hk, by rw [hn j k hj hk]; exact e⟩

theorem proper_congr (S : Shape) (child child' : ℕ → A → ℕ → A) (r : A) (h0 : NullSafe child) (h0' : NullSafe child')
    (h : ∀ x, Reach S child r x → ∀ j i, child' j x i = child j x i) (hp : Proper S child r) : Proper S child' r := by
  have hn := node_congr_reach S child child' r h0 h0' h
  intro j hj k hk j' hj' k' hk' e hne
  rw [hn j k hj hk] at e hne
  rw [hn j' k' hj' hk'] at e
  exact hp j hj k hk j' hj' k' hk' e hne

/-! ## Enumeration -/

/-- the nodes from `x` at level `j` down, `n` levels deep, parents first -/
def subtree [DecidableEq A] (S : Shape) (child : ℕ → A → ℕ → A) : ℕ → ℕ → A → List A
  | 0, _, x => [x]
  | n + 1, j, x =>
    x :: (List.range (S.fan j)).flatMap fun i => if child j x i = 0 then [] else subtree S child n (j + 1) (child j x i)

/-- a tree has at most as many nodes as positions -/
theorem reach_finite (S : Shape) (child : ℕ → A → ℕ → A) (r : A) :
    {x | Reach S child r x}.Finite ∧ {x | Reach S child r x}.ncard ≤ ∑ j ∈ Finset.range (S.depth + 1), S.cap j := by
  classical
  let P := (Finset.range (S.depth + 1)).sigma fun j => Finset.range (S.cap j)
  have hsub : {x | Reach S child r x} ⊆ ↑(P.image fun p => node S child r p.1 p.2) := by
    intro x hx
    obtain ⟨-, j, hj, k, hk, e⟩ := hx
    refine Finset.mem_coe.2 (Finset.mem_image.2 ⟨⟨j, k⟩, Finset.mem_sigma.2 ⟨?_, Finset.mem_range.2 hk⟩, e⟩)
    exact Finset.mem_range.2 (Nat.lt_succ_of_le hj)
  refine ⟨(Finset.finite_toSet _).subset hsub, ?_⟩
  calc {x | Reach S child r x}.ncard ≤ (P.image fun p => node S child r p.1 p.2).card := by
        rw [← Set.ncard_coe_finset]
        exact Set.ncard_le_ncard hsub (Finset.finite_toSet _)
    _ ≤ P.card := Finset.card_image_le
    _ = ∑ j ∈ Finset.range (S.depth + 1), S.cap j := by simp [P, Finset.card_sigma]

/-- the key at level `j` above key `k` at level `j + d` -/
def up (S : Shape) : ℕ → ℕ → ℕ → ℕ
  | _, 0, k => k
  | j, d + 1, k => up S (j + 1) d k / S.fan j

theorem up_lt (S : Shape) (j d k : ℕ) (h : k < S.cap (j + d)) : up S j d k < S.cap j := by
  induction d generalizing j with
  | zero => exact h
  | succ d ih => exact div_lt_cap S j _ (ih (j + 1) (by rwa [Nat.add_right_comm]))

omit [Zero A] in
theorem node_child (S : Shape) (child : ℕ → A → ℕ → A) (r : A) (j k i : ℕ) (hi : i < S.fan j) :
    node S child r (j + 1) (k * S.fan j + i) = child j (node S child r j k) i := by
  have hpos : 0 < S.fan j := by omega
  have hd : (k * S.fan j + i) / S.fan j = k := by
    rw [Nat.add_comm, Nat.add_mul_div_right _ _ hpos, Nat.div_eq_of_lt hi, Nat.zero_add]
  have hm : (k * S.fan j + i) % S.fan j = i := by
    rw [Nat.add_comm, Nat.add_mul_mod_self_right, Nat.mod_eq_of_lt hi]
  rw [node, hd, hm]

theorem child_lt_cap (S : Shape) {j k i : ℕ} (hk : k < S.cap j) (hi : i < S.fan j) : k * S.fan j + i < S.cap (j + 1) :=
  calc k * S.fan j + i < k * S.fan j + S.fan j := by omega
    _ = (k + 1) * S.fan j := by ring
    _ ≤ S.cap j * S.fan j := Nat.mul_le_mul_right _ hk

/-- nothing hangs below a null pointer -/
theorem node_below_null (S : Shape) (child : ℕ → A → ℕ → A) (r : A) (h0 : NullSafe child) (j d k : ℕ)
    (h : node S child r j (up S j d k) = 0) : node S child r (j + d) k = 0 := by
  induction d generalizing j with
  | zero => exact h
  | succ d ih =>
    have h1 : node S child r (j + 1) (up S (j + 1) d k) = 0 := by
      rw [node, show up S (j + 1) d k / S.fan j = up S j (d + 1) k from rfl, h, h0]
    have := ih (j + 1) h1
    rwa [Nat.add_right_comm] at this

/-- `subtree` lists the non-null positions below its own, and only these -/
theorem mem_subtree [DecidableEq A] (S : Shape) (child : ℕ → A → ℕ → A) (r : A) (h0 : NullSafe child) (n j k : ℕ)
    (hk : k < S.cap j) (hx : node S child r j k ≠ 0) (y : A) :
    y ∈ subtree S child n j (node S child r j k) ↔
      y ≠ 0 ∧ ∃ d ≤ n, ∃ k' < S.cap (j + d), up S j d k' = k ∧ node S child r (j + d) k' = y := by
  induction n generalizing j k with
  | zero =>
    simp only [subtree, List.mem_singleton]
    constructor
    · intro h
      exact ⟨h ▸ hx, 0, le_rfl, k, hk, rfl, h.symm⟩
    · intro h
      obtain ⟨-, d, hd, k', -, e, hy⟩ := h
      obtain rfl : d = 0 := by omega
      simp only [up] at e
      rw [← hy, ← e]
      rfl
  | succ n ih =>
    simp only [subtree, List.mem_cons, List.mem_flatMap, List.mem_range]
    constructor
    · intro h
      rcases h with h | ⟨i, hi, h⟩
      · exact ⟨h ▸ hx, 0, by omega, k, hk, rfl, h.symm⟩
      · rw [← node_child S child r j k i hi] at h
        split at h
        · simp at h
        · next hc =>
          obtain ⟨hy, d, hd, k', hk', e, hn⟩ := (ih (j + 1) _ (child_lt_cap S hk hi) hc).1 h
          have hpos : 0 < S.fan j := by omega
          refine ⟨hy, d + 1, by omega, k', by rwa [Nat.add_right_comm] at hk', ?_, by rwa [Nat.add_right_comm] at hn⟩
          calc up S j (d + 1) k' = (k * S.fan j + i) / S.fan j := by rw [up, e]
            _ = k := by rw [Nat.add_comm, Nat.add_mul_div_right _ _ hpos, Nat.div_eq_of_lt hi, Nat.zero_add]
    · intro h
      obtain ⟨hy, d, hd, k', hk', e, hn⟩ := h
      cases d with
      | zero =>
        left
        simp only [up] at e
        rw [← hn, ← e]
        rfl
      | succ d =>
        right
        have hk2 : k' < S.cap (j + 1 + d) := by rwa [Nat.add_right_comm]
        have hn2 : node S child r (j + 1 + d) k' = y := by rwa [Nat.add_right_comm]
        have hu := up_lt S (j + 1) d k' hk2
        simp only [up] at e
        have hpos : 0 < S.fan j := by
          rcases Nat.eq_zero_or_pos (S.fan j) with hz | hz
          · simp [Shape.cap, hz] at hu
          · exact hz
        have hu2 : k * S.fan j + up S (j + 1) d k' % S.fan j = up S (j + 1) d k' := by
          rw [← e]; exact Nat.div_add_mod' _ _
        -- the child on the way down is not null, or nothing would be below it
        have hc : node S child r (j + 1) (up S (j + 1) d k') ≠ 0 := fun hz =>
          hy (hn2.symm.trans (node_below_null S child r h0 (j + 1) d k' hz))
        refine ⟨up S (j + 1) d k' % S.fan j, Nat.mod_lt _ hpos, ?_⟩
        rw [← node_child S child r j k _ (Nat.mod_lt _ hpos), hu2, if_neg hc]
        exact (ih (j + 1) _ hu hc).2 ⟨hy, d, by omega, k', hk2, rfl, hn2⟩

/-- a tree without shared nodes is listed without repetition -/
theorem nodup_subtree [DecidableEq A] (S : Shape) (child : ℕ → A → ℕ → A) (r : A) (h0 : NullSafe child)
    (hp : Proper S child r) (n j k : ℕ) (hj : j + n ≤ S.depth) (hk : k < S.cap j) (hx : node S child r j k ≠ 0) :
    (subtree S child n j (node S child r j k)).Nodup := by
  induction n generalizing j k with
  | zero => exact List.nodup_singleton _
  | succ n ih =>
    -- what the i-th summand lists stands below the i-th child
    have hmem : ∀ i < S.fan j, ∀ y, y ∈ (if child j (node S child r j k) i = 0 then [] else
        subtree S child n (j + 1) (child j (node S child r j k) i)) →
        y ≠ 0 ∧ ∃ d ≤ n, ∃ k' < S.cap (j + 1 + d), up S (j + 1) d k' = k * S.fan j + i ∧
          node S child r (j + 1 + d) k' = y := by
      intro i hi y hy
      rw [← node_child S child r j k i hi] at hy
      split at hy
      · simp at hy
      · next hc => exact (mem_subtree S child r h0 n (j + 1) _ (child_lt_cap S hk hi) hc y).1 hy
    rw [subtree, List.nodup_cons, List.nodup_flatMap]
    refine ⟨fun hm => ?_, fun i hi => ?_, List.pairwise_iff_getElem.2 fun a b ha hb hab y hy hy' => ?_⟩
    · obtain ⟨i, hi, hy⟩ := List.mem_flatMap.1 hm
      obtain ⟨hy0, d, hd, k', hk', -, e⟩ := hmem i (List.mem_range.1 hi) _ hy
      have := (hp (j + 1 + d) (by omega) k' hk' j (by omega) k hk e (e ▸ hy0)).1
      omega
    · have hi' := List.mem_range.1 hi
      rw [← node_child S child r j k i hi']
      split
      · exact List.nodup_nil
      · next hc => exact ih (j + 1) _ (by omega) (child_lt_cap S hk hi') hc
    · simp only [List.length_range] at ha hb
      simp only [List.getElem_range] at hy hy'
      obtain ⟨hy0, d, hd, k1, hk1, e1, n1⟩ := hmem a ha y hy
      obtain ⟨-, d', hd', k2, hk2, e2, n2⟩ := hmem b hb y hy'
      obtain ⟨hjj, rfl⟩ := hp (j + 1 + d) (by omega) k1 hk1 (j + 1 + d') (by omega) k2 hk2 (n1.trans n2.symm) (n1 ▸ hy0)
      obtain rfl : d = d' := by omega
      omega

/-- **Enumeration.** From a root, `subtree` lists exactly the nodes of the tree. -/
theorem mem_subtree_root [DecidableEq A] (S : Shape) (child : ℕ → A → ℕ → A) (r : A) (h0 : NullSafe child) (hr : r ≠ 0)
    (y : A) : y ∈ subtree S child S.depth 0 r ↔ Reach S child r y := by
  have hk : (0 : ℕ) < S.cap 0 := Nat.one_pos
  have h := mem_subtree S child r h0 S.depth 0 0 hk hr y
  rw [show subtree S child S.depth 0 r = subtree S child S.depth 0 (node S child r 0 0) from rfl, h]
  constructor
  · intro h
    obtain ⟨hy, d, hd, k', hk', -, e⟩ := h
    rw [Nat.zero_add] at hk' e
    exact ⟨hy, d, hd, k', hk', e⟩
  · intro h
    obtain ⟨hy, d, hd, k', hk', e⟩ := h
    have hk2 : k' < S.cap (0 + d) := by rwa [Nat.zero_add]
    have hu := up_lt S 0 d k' hk2
    exact ⟨hy, d, hd, k', hk2, Nat.lt_one_iff.1 hu, by rwa [Nat.zero_add]⟩

/-! ## Lost pointers -/

/-- every pointer of the second store is one of the first or null -/
def Shrinks (child child' : ℕ → A → ℕ → A) : Prop := ∀ j x i, child' j x i = child j x i ∨ child' j x i = 0

theorem node_shrinks (S : Shape) (child child' : ℕ → A → ℕ → A) (r : A) (h0' : NullSafe child')
    (h : Shrinks child child') (j k : ℕ) :
    node S child' r j k = node S child r j k ∨ node S child' r j k = 0 := by
  induction j generalizing k with
  | zero => exact Or.inl rfl
  | succ j ih =>
    simp only [node]
    rcases ih (k / S.fan j) with e | e
    · rw [e]; exact h j _ _
    · rw [e]; exact Or.inr (h0' j _)

theorem reach_of_shrinks (S : Shape) (child child' : ℕ → A → ℕ → A) (r : A) (h0' : NullSafe child')
    (h : Shrinks child child') (x : A) (hx : Reach S child' r x) : Reach S child r x := by
  obtain ⟨hx0, j, hj, k, hk, e⟩ := hx
  rcases node_shrinks S child child' r h0' h j k with e' | e'
  · exact ⟨hx0, j, hj, k, hk, e'.symm.trans e⟩
  · exact absurd (e.symm.trans e') hx0

theorem proper_of_shrinks (S : Shape) (child child' : ℕ → A → ℕ → A) (r : A) (h0' : NullSafe child')
    (h : Shrinks child child') (hp : Proper S child r) : Proper S child' r := by
  intro j hj k hk j' hj' k' hk' e hne
  rcases node_shrinks S child child' r h0' h j k with e1 | e1
  · rcases node_shrinks S child child' r h0' h j' k' with e2 | e2
    · exact hp j hj k hk j' hj' k' hk' (by rw [← e1, ← e2]; exact e) (by rw [← e1]; exact hne)
    · exact absurd (e.trans e2) hne
  · exact absurd e1 hne

/-! ## Path copying -/

/-- the new store and root are the old ones with the positions `T` copied to the addresses `fresh` -/
structure PathCopy (S : Shape) (child child' : ℕ → A → ℕ → A) (r r' : A) (T : ℕ → ℕ → Prop) (fresh : ℕ → ℕ → A) :
    Prop where
  root : T 0 0
  root_eq : r' = fresh 0 0
  parent : ∀ j < S.depth, ∀ k, T (j + 1) k → T j (k / S.fan j)
  hit : ∀ j < S.depth, ∀ k < S.cap (j + 1), T (j + 1) k →
    child' j (fresh j (k / S.fan j)) (k % S.fan j) = fresh (j + 1) k
  miss : ∀ j < S.depth, ∀ k < S.cap (j + 1), T j (k / S.fan j) → ¬ T (j + 1) k →
    child' j (fresh j (k / S.fan j)) (k % S.fan j) = child j (node S child r j (k / S.fan j)) (k % S.fan j)
  kept : ∀ j < S.depth, ∀ k < S.cap j, ¬ T j k → ∀ i, child' j (node S child r j k) i = child j (node S child r j k) i

/-- the copies are pairwise different, not null, and not in the old tree -/
structure FreshFor (S : Shape) (child : ℕ → A → ℕ → A) (r : A) (T : ℕ → ℕ → Prop) (fresh : ℕ → ℕ → A) : Prop where
  ne_zero : ∀ j ≤ S.depth, ∀ k < S.cap j, T j k → fresh j k ≠ 0
  inj : ∀ j ≤ S.depth, ∀ k < S.cap j, ∀ j' ≤ S.depth, ∀ k' < S.cap j', T j k → T j' k' →
    fresh j k = fresh j' k' → j = j' ∧ k = k'
  new : ∀ j ≤ S.depth, ∀ k < S.cap j, T j k → ¬ Reach S child r (fresh j k)

section PathCopy

variable {S : Shape} {child child' : ℕ → A → ℕ → A} {r r' : A} {T : ℕ → ℕ → Prop} {fresh : ℕ → ℕ → A}

omit [Zero A] in
theorem node_pathCopy (h : PathCopy S child child' r r' T fresh) (j k : ℕ) (hj : j ≤ S.depth) (hk : k < S.cap j) :
    (T j k → node S child' r' j k = fresh j k) ∧ (¬ T j k → node S child' r' j k = node S child r j k) := by
  induction j generalizing k with
  | zero =>
    have hk0 : k = 0 := by simpa [Shape.cap] using hk
    subst hk0
    exact ⟨fun _ => h.root_eq, fun hT => absurd h.root hT⟩
  | succ j ih =>
    have hk' := div_lt_cap S j k hk
    obtain ⟨ih1, ih2⟩ := ih (k / S.fan j) (by omega) hk'
    constructor
    · intro hT
      simp only [node, ih1 (h.parent j (by omega) k hT)]
      exact h.hit j (by omega) k hk hT
    · intro hT
      by_cases hP : T j (k / S.fan j)
      · simp only [node, ih1 hP]
        exact h.miss j (by omega) k hk hP hT
      · simp only [node, ih2 hP]
        exact h.kept j (by omega) _ hk' hP _

omit [Zero A] in
/-- a touched position of the new tree holds its fresh copy -/
theorem node_touched (h : PathCopy S child child' r r' T fresh) (j k : ℕ) (hj : j ≤ S.depth) (hk : k < S.cap j)
    (hT : T j k) : node S child' r' j k = fresh j k :=
  (node_pathCopy h j k hj hk).1 hT

omit [Zero A] in
/-- an untouched position of the new tree holds what it held -/
theorem node_untouched (h : PathCopy S child child' r r' T fresh) (j k : ℕ) (hj : j ≤ S.depth) (hk : k < S.cap j)
    (hT : ¬ T j k) : node S child' r' j k = node S child r j k :=
  (node_pathCopy h j k hj hk).2 hT

/-- **The nodes of the new tree**: the fresh copies and the untouched old nodes. -/
theorem reach_of_pathCopy (h : PathCopy S child child' r r' T fresh) (hf : FreshFor S child r T fresh) (x : A) :
    Reach S child' r' x ↔ (∃ j ≤ S.depth, ∃ k < S.cap j, T j k ∧ fresh j k = x) ∨
      (x ≠ 0 ∧ ∃ j ≤ S.depth, ∃ k < S.cap j, ¬ T j k ∧ node S child r j k = x) := by
  constructor
  · rintro ⟨hx, j, hj, k, hk, e⟩
    by_cases hT : T j k
    · rw [node_touched h j k hj hk hT] at e; exact Or.inl ⟨j, hj, k, hk, hT, e⟩
    · rw [node_untouched h j k hj hk hT] at e; exact Or.inr ⟨hx, j, hj, k, hk, hT, e⟩
  · rintro (⟨j, hj, k, hk, hT, e⟩ | ⟨hx, j, hj, k, hk, hT, e⟩)
    · exact ⟨e ▸ hf.ne_zero j hj k hk hT, j, hj, k, hk, (node_touched h j k hj hk hT).trans e⟩
    · exact ⟨hx, j, hj, k, hk, (node_untouched h j k hj hk hT).trans e⟩

theorem proper_of_pathCopy (h : PathCopy S child child' r r' T fresh) (hf : FreshFor S child r T fresh)
    (hp : Proper S child r) : Proper S child' r' := by
  intro j hj k hk j' hj' k' hk' e hne
  by_cases hT : T j k <;> by_cases hT' : T j' k'
  · rw [node_touched h j k hj hk hT, node_touched h j' k' hj' hk' hT'] at e
    exact hf.inj j hj k hk j' hj' k' hk' hT hT' e
  · rw [node_touched h j k hj hk hT, node_untouched h j' k' hj' hk' hT'] at e
    exact absurd ⟨hf.ne_zero j hj k hk hT, j', hj', k', hk', e.symm⟩ (hf.new j hj k hk hT)
  · rw [node_untouched h j k hj hk hT, node_touched h j' k' hj' hk' hT'] at e
    exact absurd ⟨hf.ne_zero j' hj' k' hk' hT', j, hj, k, hk, e⟩ (hf.new j' hj' k' hk' hT')
  · rw [node_untouched h j k hj hk hT] at e hne
    rw [node_untouched h j' k' hj' hk' hT'] at e
    exact hp j hj k hk j' hj' k' hk' e hne

/-- **What path copying drops**: a node of the old tree is gone from the new one iff it stood at a touched position. -/
theorem dropped_of_pathCopy (h : PathCopy S child child' r r' T fresh) (hf : FreshFor S child r T fresh)
    (hp : Proper S child r) (x : A) :
    (Reach S child r x ∧ ¬ Reach S child' r' x) ↔
      x ≠ 0 ∧ ∃ j ≤ S.depth, ∃ k < S.cap j, T j k ∧ node S child r j k = x := by
  constructor
  · rintro ⟨⟨hx, j, hj, k, hk, e⟩, hn⟩
    by_cases hT : T j k
    · exact ⟨hx, j, hj, k, hk, hT, e⟩
    · exact absurd ((reach_of_pathCopy h hf x).2 (Or.inr ⟨hx, j, hj, k, hk, hT, e⟩)) hn
  · rintro ⟨hx, j, hj, k, hk, hT, e⟩
    have hold : Reach S child r x := ⟨hx, j, hj, k, hk, e⟩
    refine ⟨hold, fun hn => ?_⟩
    rcases (reach_of_pathCopy h hf x).1 hn with ⟨j', hj', k', hk', hT', e'⟩ | ⟨_, j', hj', k', hk', hT', e'⟩
    · exact hf.new j' hj' k' hk' hT' (e' ▸ hold)
    · obtain ⟨rfl, rfl⟩ := hp j hj k hk j' hj' k' hk' (e.trans e'.symm) (e ▸ hx)
      exact hT' hT

end PathCopy

end ChainedBlockStorage.Radix
