/-
Versions of a path-copied radix tree in one store: the oldest one is the committed tree, each later one a path copy of
its predecessor, and all of them share nodes.

Version `k` (c ≤ k ≤ w) hangs under `root k`. `dead k` (c < k ≤ w) lists the nodes version `k` replaced; they become
free when version `k` becomes the oldest. `free` is the free list and `B` a bound every address in play obeys.

- `versions_frame`, `versions_shrinks`, `versions_agree`: the invariant under changes to the store that spare the trees,
  under lost pointers, and under renaming.
- `versions_push`: adding a version by path copying with unused addresses keeps the invariant.
- `versions_pop`: dropping the oldest version and freeing what its successor replaced keeps it.
- `used_ncard_le`: the oldest version and what each later one added are all that is in use.
-/
import ChainedBlockStorage.Core.Radix

namespace ChainedBlockStorage.Radix

variable {A : Type} [Zero A]

/-- the addresses in use: nodes of some version, or waiting to be freed -/
def Used (S : Shape) (child : ℕ → A → ℕ → A) (root : ℕ → A) (dead : ℕ → List A) (c w : ℕ) : Set A :=
  {x | (∃ k, c ≤ k ∧ k ≤ w ∧ Reach S child (root k) x) ∨ ∃ k, c < k ∧ k ≤ w ∧ x ∈ dead k}

structure Versions (S : Shape) (child : ℕ → A → ℕ → A) (B : A → Prop) (root : ℕ → A) (dead : ℕ → List A)
    (free : List A) (c w : ℕ) : Prop where
  le : c ≤ w
  proper : ∀ k, c ≤ k → k ≤ w → Proper S child (root k)
  free_nodup : free.Nodup
  dead_nodup : ∀ k, c < k → k ≤ w → (dead k).Nodup
  free_used : ∀ x ∈ free, x ∉ Used S child root dead c w
  dead_live : ∀ k, c < k → k ≤ w → ∀ x ∈ dead k, ∀ i, k ≤ i → i ≤ w → ¬ Reach S child (root i) x
  dead_dead : ∀ k, c < k → k ≤ w → ∀ i, k < i → i ≤ w → ∀ x ∈ dead k, x ∉ dead i
  bound_used : ∀ x ∈ Used S child root dead c w, B x
  bound_free : ∀ x ∈ free, B x

section Versions

variable {S : Shape} {child child' : ℕ → A → ℕ → A} {B B' : A → Prop} {root root' : ℕ → A} {dead dead' : ℕ → List A}
  {free free' : List A} {c w : ℕ}

theorem used_live {k : ℕ} {x : A} (hc : c ≤ k) (hw : k ≤ w) (h : Reach S child (root k) x) :
    x ∈ Used S child root dead c w :=
  Or.inl ⟨k, hc, hw, h⟩

theorem used_dead {k : ℕ} {x : A} (hc : c < k) (hw : k ≤ w) (h : x ∈ dead k) : x ∈ Used S child root dead c w :=
  Or.inr ⟨k, hc, hw, h⟩

/-- the invariant only gets easier when trees lose nodes -/
theorem versions_of_reach (h : Versions S child B root dead free c w)
    (hr : ∀ k, c ≤ k → k ≤ w → ∀ x, Reach S child' (root k) x → Reach S child (root k) x)
    (hp : ∀ k, c ≤ k → k ≤ w → Proper S child' (root k)) : Versions S child' B root dead free c w := by
  have hu : ∀ x ∈ Used S child' root dead c w, x ∈ Used S child root dead c w := by
    intro x hx
    rcases hx with ⟨k, hc, hw, hx⟩ | hx
    · exact used_live hc hw (hr k hc hw x hx)
    · exact Or.inr hx
  exact
    { le := h.le
      proper := hp
      free_nodup := h.free_nodup
      dead_nodup := h.dead_nodup
      free_used := fun x hx hx' => h.free_used x hx (hu x hx')
      dead_live := fun k hc hw x hx i hi hiw hx' =>
        h.dead_live k hc hw x hx i hi hiw (hr i (by omega) hiw x hx')
      dead_dead := h.dead_dead
      bound_used := fun x hx => h.bound_used x (hu x hx)
      bound_free := h.bound_free }

theorem versions_shrinks (h : Versions S child B root dead free c w) (h0' : NullSafe child')
    (hs : Shrinks child child') : Versions S child' B root dead free c w :=
  versions_of_reach h (fun k _ _ x => reach_of_shrinks S child child' (root k) h0' hs x)
    (fun k hc hw => proper_of_shrinks S child child' (root k) h0' hs (h.proper k hc hw))

theorem versions_frame (h : Versions S child B root dead free c w) (h0 : NullSafe child) (h0' : NullSafe child')
    (hk : ∀ x ∈ Used S child root dead c w, ∀ j i, child' j x i = child j x i) :
    Versions S child' B root dead free c w := by
  have hk' : ∀ k, c ≤ k → k ≤ w → ∀ x, Reach S child (root k) x → ∀ j i, child' j x i = child j x i :=
    fun k hc hw x hx => hk x (used_live hc hw hx)
  exact versions_of_reach h
    (fun k hc hw x => (reach_congr S child child' (root k) h0 h0' (hk' k hc hw) x).1)
    (fun k hc hw => proper_congr S child child' (root k) h0 h0' (hk' k hc hw) (h.proper k hc hw))

theorem used_frame (h0 : NullSafe child) (h0' : NullSafe child')
    (hk : ∀ x ∈ Used S child root dead c w, ∀ j i, child' j x i = child j x i) :
    Used S child' root dead c w = Used S child root dead c w := by
  have hr : ∀ k, c ≤ k → k ≤ w → ∀ x, Reach S child' (root k) x ↔ Reach S child (root k) x :=
    fun k hc hw => reach_congr S child child' (root k) h0 h0' (fun x hx => hk x (used_live hc hw hx))
  ext x
  constructor
  · intro hx
    rcases hx with ⟨k, hc, hw, hx⟩ | hx
    · exact used_live hc hw ((hr k hc hw x).1 hx)
    · exact Or.inr hx
  · intro hx
    rcases hx with ⟨k, hc, hw, hx⟩ | hx
    · exact used_live hc hw ((hr k hc hw x).2 hx)
    · exact Or.inr hx

theorem used_agree (hr : ∀ k, c ≤ k → k ≤ w → root' k = root k) (hd : ∀ k, c < k → k ≤ w → dead' k = dead k) :
    Used S child root' dead' c w = Used S child root dead c w := by
  ext x
  constructor
  · intro hx
    rcases hx with ⟨k, hc, hw, hx⟩ | ⟨k, hc, hw, hx⟩
    · exact used_live hc hw (hr k hc hw ▸ hx)
    · exact used_dead hc hw (hd k hc hw ▸ hx)
  · intro hx
    rcases hx with ⟨k, hc, hw, hx⟩ | ⟨k, hc, hw, hx⟩
    · exact used_live hc hw ((hr k hc hw).symm ▸ hx)
    · exact used_dead hc hw ((hd k hc hw).symm ▸ hx)

/-- only the roots and dead lists of the versions in play matter -/
theorem versions_agree (h : Versions S child B root dead free c w) (hr : ∀ k, c ≤ k → k ≤ w → root' k = root k)
    (hd : ∀ k, c < k → k ≤ w → dead' k = dead k) : Versions S child B root' dead' free c w := by
  have hu : Used S child root' dead' c w = Used S child root dead c w := used_agree hr hd
  exact
    { le := h.le
      proper := fun k hc hw => by rw [hr k hc hw]; exact h.proper k hc hw
      free_nodup := h.free_nodup
      dead_nodup := fun k hc hw => by rw [hd k hc hw]; exact h.dead_nodup k hc hw
      free_used := by rw [hu]; exact h.free_used
      dead_live := fun k hc hw x hx i hi hiw => by
        rw [hd k hc hw] at hx
        rw [hr i (by omega) hiw]
        exact h.dead_live k hc hw x hx i hi hiw
      dead_dead := fun k hc hw i hi hiw x hx => by
        rw [hd k hc hw] at hx
        rw [hd i (by omega) hiw]
        exact h.dead_dead k hc hw i hi hiw x hx
      bound_used := by rw [hu]; exact h.bound_used
      bound_free := h.bound_free }

/-! ## Adding a version -/

/-- what `versions_push` asks of the new version besides being a path copy of the last one -/
structure PushOk (S : Shape) (child child' : ℕ → A → ℕ → A) (B' : A → Prop) (root : ℕ → A) (dead : ℕ → List A)
    (c w : ℕ) (T : ℕ → ℕ → Prop) (fresh : ℕ → ℕ → A) (d free' : List A) : Prop where
  kept : ∀ x ∈ Used S child root dead c w, ∀ j i, child' j x i = child j x i
  ne_zero : ∀ j ≤ S.depth, ∀ k < S.cap j, T j k → fresh j k ≠ 0
  inj : ∀ j ≤ S.depth, ∀ k < S.cap j, ∀ j' ≤ S.depth, ∀ k' < S.cap j', T j k → T j' k' →
    fresh j k = fresh j' k' → j = j' ∧ k = k'
  new : ∀ j ≤ S.depth, ∀ k < S.cap j, T j k → fresh j k ∉ Used S child root dead c w
  bound : ∀ j ≤ S.depth, ∀ k < S.cap j, T j k → B' (fresh j k)
  used_bound : ∀ x ∈ Used S child root dead c w, B' x
  d_nodup : d.Nodup
  d_touched : ∀ x ∈ d, x ≠ 0 ∧ ∃ j ≤ S.depth, ∃ k < S.cap j, T j k ∧ node S child (root w) j k = x
  free_nodup : free'.Nodup
  free_used : ∀ x ∈ free', x ∉ Used S child root dead c w
  free_new : ∀ x ∈ free', ∀ j ≤ S.depth, ∀ k < S.cap j, T j k → fresh j k ≠ x
  free_bound : ∀ x ∈ free', B' x

theorem freshFor_of_pushOk {T : ℕ → ℕ → Prop} {fresh : ℕ → ℕ → A} {d : List A} (hcw : c ≤ w)
    (h : PushOk S child child' B' root dead c w T fresh d free') : FreshFor S child (root w) T fresh where
  ne_zero := h.ne_zero
  inj := h.inj
  new := fun j hj k hk hT hx => h.new j hj k hk hT (used_live hcw le_rfl hx)

/-- **Adding a version.** -/
theorem versions_push {T : ℕ → ℕ → Prop} {fresh : ℕ → ℕ → A} {d : List A} {r' : A}
    (h : Versions S child B root dead free c w) (h0 : NullSafe child) (h0' : NullSafe child')
    (hpc : PathCopy S child child' (root w) r' T fresh)
    (hok : PushOk S child child' B' root dead c w T fresh d free') :
    Versions S child' B' (fun k => if k = w + 1 then r' else root k) (fun k => if k = w + 1 then d else dead k) free'
      c (w + 1) := by
  have hff := freshFor_of_pushOk h.le hok
  have hle := h.le
  have hold := versions_frame h h0 h0' hok.kept
  have hu := used_frame h0 h0' hok.kept
  have hrold : ∀ k, k ≤ w → (if k = w + 1 then r' else root k) = root k := fun k hk => if_neg (by omega)
  have hdold : ∀ k, k ≤ w → (if k = w + 1 then d else dead k) = dead k := fun k hk => if_neg (by omega)
  -- a node of the new tree is a fresh one or an old one
  have hnew : ∀ x, Reach S child' r' x →
      (∃ j ≤ S.depth, ∃ k < S.cap j, T j k ∧ fresh j k = x) ∨ Reach S child (root w) x := by
    intro x hx
    rcases (reach_of_pathCopy hpc hff x).1 hx with hx | ⟨hx, j, hj, k, hk, -, e⟩
    · exact Or.inl hx
    · exact Or.inr ⟨hx, j, hj, k, hk, e⟩
  -- a dead node is an old one that the new tree does not hold
  have hdrop : ∀ x ∈ d, Reach S child (root w) x ∧ ¬ Reach S child' r' x := fun x hx =>
    (dropped_of_pathCopy hpc hff (h.proper w hle le_rfl) x).2 (hok.d_touched x hx)
  have hused : ∀ x ∈ Used S child' (fun k => if k = w + 1 then r' else root k)
      (fun k => if k = w + 1 then d else dead k) c (w + 1),
      x ∈ Used S child root dead c w ∨ ∃ j ≤ S.depth, ∃ k < S.cap j, T j k ∧ fresh j k = x := by
    intro x hx
    rcases hx with ⟨k, hc, hw, hx⟩ | ⟨k, hc, hw, hx⟩
    · by_cases hk : k = w + 1
      · simp only [hk, if_true] at hx
        rcases hnew x hx with hx | hx
        · exact Or.inr hx
        · exact Or.inl (used_live hle le_rfl hx)
      · simp only [hk, if_false] at hx
        left
        rw [← hu]
        exact used_live hc (by omega) hx
    · left
      by_cases hk : k = w + 1
      · simp only [hk, if_true] at hx
        exact used_live hle le_rfl (hdrop x hx).1
      · simp only [hk, if_false] at hx
        exact used_dead hc (by omega) hx
  exact
    { le := by omega
      proper := fun k hc hw => by
        by_cases hk : k = w + 1
        · simp only [hk, if_true]
          exact proper_of_pathCopy hpc hff (h.proper w hle le_rfl)
        · simp only [hk, if_false]
          exact hold.proper k hc (by omega)
      free_nodup := hok.free_nodup
      dead_nodup := fun k hc hw => by
        by_cases hk : k = w + 1
        · simp only [hk, if_true]
          exact hok.d_nodup
        · simp only [hk, if_false]
          exact h.dead_nodup k hc (by omega)
      free_used := fun x hx hx' => by
        rcases hused x hx' with hx' | ⟨j, hj, k, hk, hT, e⟩
        · exact hok.free_used x hx hx'
        · exact hok.free_new x hx j hj k hk hT e
      dead_live := fun k hc hw x hx i hi hiw hx' => by
        by_cases hk : k = w + 1
        · have hiw' : i = w + 1 := by omega
          simp only [hk, if_true] at hx
          simp only [hiw', if_true] at hx'
          exact (hdrop x hx).2 hx'
        · simp only [hk, if_false] at hx
          by_cases hi' : i = w + 1
          · simp only [hi', if_true] at hx'
            rcases hnew x hx' with ⟨j, hj, k', hk', hT, e⟩ | hx'
            · exact hok.new j hj k' hk' hT (e ▸ used_dead hc (by omega) hx)
            · exact h.dead_live k hc (by omega) x hx w (by omega) le_rfl hx'
          · simp only [hi', if_false] at hx'
            exact hold.dead_live k hc (by omega) x hx i hi (by omega) hx'
      dead_dead := fun k hc hw i hi hiw x hx hx' => by
        have hk : k ≠ w + 1 := by omega
        simp only [hk, if_false] at hx
        by_cases hi' : i = w + 1
        · simp only [hi', if_true] at hx'
          exact h.dead_live k hc (by omega) x hx w (by omega) le_rfl (hdrop x hx').1
        · simp only [hi', if_false] at hx'
          exact h.dead_dead k hc (by omega) i hi (by omega) x hx hx'
      bound_used := fun x hx => by
        rcases hused x hx with hx | ⟨j, hj, k, hk, hT, e⟩
        · exact hok.used_bound x hx
        · exact e ▸ hok.bound j hj k hk hT
      bound_free := hok.free_bound }

/-! ## Dropping the oldest version -/

theorem used_pop (x : A) (hx : x ∈ Used S child root dead (c + 1) w) : x ∈ Used S child root dead c w := by
  rcases hx with ⟨k, hc, hw, hx⟩ | ⟨k, hc, hw, hx⟩
  · exact used_live (by omega) hw hx
  · exact used_dead (by omega) hw hx

/-- **Dropping the oldest version.** What its successor replaced is in no later tree and may be reused. -/
theorem versions_pop (h : Versions S child B root dead free c w) (hc : c < w) :
    Versions S child B root dead (free ++ dead (c + 1)) (c + 1) w := by
  have hdead : ∀ x ∈ dead (c + 1), x ∈ Used S child root dead c w := fun x hx => used_dead (by omega) hc hx
  exact
    { le := hc
      proper := fun k hk => h.proper k (by omega)
      free_nodup := List.nodup_append'.2 ⟨h.free_nodup, h.dead_nodup (c + 1) (by omega) hc,
        fun x hx hx' => h.free_used x hx (hdead x hx')⟩
      dead_nodup := fun k hk => h.dead_nodup k (by omega)
      free_used := fun x hx hx' => by
        rcases List.mem_append.1 hx with hx | hx
        · exact h.free_used x hx (used_pop x hx')
        · rcases hx' with ⟨k, hk, hw, hx'⟩ | ⟨k, hk, hw, hx'⟩
          · exact h.dead_live (c + 1) (by omega) hc x hx k hk hw hx'
          · exact h.dead_dead (c + 1) (by omega) hc k hk hw x hx hx'
      dead_live := fun k hk => h.dead_live k (by omega)
      dead_dead := fun k hk => h.dead_dead k (by omega)
      bound_used := fun x hx => h.bound_used x (used_pop x hx)
      bound_free := fun x hx => by
        rcases List.mem_append.1 hx with hx | hx
        · exact h.bound_free x hx
        · exact h.bound_used x (hdead x hx) }

/-- a single version and a free list outside it -/
theorem versions_init (hp : Proper S child (root c)) (hn : free.Nodup)
    (hf : ∀ x ∈ free, ¬ Reach S child (root c) x) (hB : ∀ x, Reach S child (root c) x → B x) (hBf : ∀ x ∈ free, B x) :
    Versions S child B root dead free c c := by
  have hu : ∀ x ∈ Used S child root dead c c, Reach S child (root c) x := by
    intro x hx
    rcases hx with ⟨k, hc, hw, hx⟩ | ⟨k, hc, hw, hx⟩
    · rw [le_antisymm hw hc] at hx
      exact hx
    · omega
  exact
    { le := le_rfl
      proper := fun k hc hw => by rw [le_antisymm hw hc]; exact hp
      free_nodup := hn
      dead_nodup := fun k hc hw => by omega
      free_used := fun x hx hx' => hf x hx (hu x hx')
      dead_live := fun k hc hw => by omega
      dead_dead := fun k hc hw => by omega
      bound_used := fun x hx => hB x (hu x hx)
      bound_free := hBf }

/-! ## Counting -/

/-- **How many addresses are in use.** When every version adds at most `m` nodes to its predecessor, and replaces nodes
of its predecessor only, they are those of the oldest version and `m` for each later one. -/
theorem used_ncard_le (m : ℕ) (hcw : c ≤ w)
    (hdead : ∀ k, c ≤ k → k < w → ∀ x ∈ dead (k + 1), Reach S child (root k) x)
    (hnew : ∀ k, c ≤ k → k < w → ∃ T : Finset A, T.card ≤ m ∧
      ∀ x, Reach S child (root (k + 1)) x → Reach S child (root k) x ∨ x ∈ T) :
    (Used S child root dead c w).Finite ∧
      (Used S child root dead c w).ncard ≤ {x | Reach S child (root c) x}.ncard + m * (w - c) := by
  -- by the number of versions: a cover of all trees up to `w`
  have hcover : ∃ U : Set A, U.Finite ∧ U.ncard ≤ {x | Reach S child (root c) x}.ncard + m * (w - c) ∧
      ∀ k, c ≤ k → k ≤ w → ∀ x, Reach S child (root k) x → x ∈ U := by
    clear hdead
    induction w, hcw using Nat.le_induction with
    | base =>
      refine ⟨_, (reach_finite S child (root c)).1, by simp, fun k hc hk x hx => ?_⟩
      rw [le_antisymm hk hc] at hx
      exact hx
    | succ w hcw ih =>
      obtain ⟨U, hfin, hcard, hU⟩ := ih fun k hc hk => hnew k hc (by omega)
      obtain ⟨T, hT, hadd⟩ := hnew w hcw (Nat.lt_succ_self w)
      refine ⟨U ∪ T, hfin.union T.finite_toSet, ?_, fun k hc hk x hx => ?_⟩
      · calc (U ∪ T).ncard ≤ U.ncard + (T : Set A).ncard := Set.ncard_union_le _ _
          _ ≤ {x | Reach S child (root c) x}.ncard + m * (w - c) + m := by
            rw [Set.ncard_coe_finset]
            exact Nat.add_le_add hcard hT
          _ = {x | Reach S child (root c) x}.ncard + m * (w + 1 - c) := by
            rw [Nat.succ_sub hcw, Nat.mul_succ, Nat.add_assoc]
      · rcases Nat.lt_or_eq_of_le hk with hlt | rfl
        · exact Or.inl (hU k hc (Nat.le_of_lt_succ hlt) x hx)
        · rcases hadd x hx with hx | hx
          · exact Or.inl (hU w hcw le_rfl x hx)
          · exact Or.inr hx
  obtain ⟨U, hfin, hcard, hU⟩ := hcover
  have hsub : Used S child root dead c w ⊆ U := by
    intro x hx
    rcases hx with ⟨k, hc, hk, hx⟩ | ⟨k, hc, hk, hx⟩
    · exact hU k hc hk x hx
    · obtain ⟨k, rfl⟩ : ∃ i, k = i + 1 := ⟨k - 1, by omega⟩
      exact hU k (by omega) (by omega) x (hdead k (by omega) (by omega) x hx)
  exact ⟨hfin.subset hsub, (Set.ncard_le_ncard hsub hfin).trans hcard⟩

end Versions

end ChainedBlockStorage.Radix
