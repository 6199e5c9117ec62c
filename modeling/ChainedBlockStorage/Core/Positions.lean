/-
Positions in a list that changes.

One element is replaced (`getElem?_of_set`), or one comes last (`getElem?_of_concat`). `Stretch l a b d` says that `d`
has the elements of `l` from position a up to b, in some order: when they go, what is left of a list without duplicates
is the part before and the part behind (`filter_stretch`), so its elements move up (`getElem?_cut`).
-/
import Mathlib.Tactic

namespace ChainedBlockStorage.Positions

variable {α : Type} {l d : List α}

/-! ## One element changes, or comes -/

theorem getElem?_of_set {k m : ℕ} {a b : α} (h : (l.set k a)[m]? = some b) :
    m = k ∧ b = a ∨ m ≠ k ∧ l[m]? = some b := by
  rw [List.getElem?_set] at h
  split_ifs at h with hkm hlt
  · exact Or.inl ⟨hkm.symm, (Option.some.inj h).symm⟩
  · exact Or.inr ⟨fun h => hkm h.symm, h⟩

/-- a new element comes last -/
theorem getElem?_of_concat {m : ℕ} {a b : α} (h : (l ++ [a])[m]? = some b) :
    l[m]? = some b ∨ m = l.length ∧ b = a := by
  rcases lt_trichotomy m l.length with hm | rfl | hm
  · rw [List.getElem?_append_left hm] at h
    exact Or.inl h
  · simp only [List.getElem?_concat_length, Option.some.injEq] at h
    exact Or.inr ⟨rfl, h.symm⟩
  · rw [List.getElem?_eq_none (by simp; omega)] at h
    cases h

/-- an older element has an older position -/
theorem getElem?_of_concat_lt {m : ℕ} {a b : α} (h : (l ++ [a])[m]? = some b) :
    l[m]? = some b ∧ m < l.length ∨ m = l.length ∧ b = a := by
  rcases getElem?_of_concat h with hold | hnew
  · exact Or.inl ⟨hold, (List.getElem?_eq_some_iff.1 hold).1⟩
  · exact Or.inr hnew

/-- every other element stays where it is -/
theorem mem_set_or_eq {k : ℕ} {a b : α} (ha : l[k]? = some a) (c : α) (hb : b ∈ l) :
    b ∈ l.set k c ∨ b = a := by
  obtain ⟨i, hi⟩ := List.mem_iff_getElem?.1 hb
  by_cases hki : k = i
  · subst hki
    exact Or.inr (Option.some.inj (hi.symm.trans ha))
  · exact Or.inl (List.mem_of_getElem? (i := i) (by rw [List.getElem?_set_ne hki, hi]))

theorem mem_set_self {k : ℕ} {a : α} (ha : l[k]? = some a) (c : α) : c ∈ l.set k c := by
  have hk := (List.getElem?_eq_some_iff.1 ha).1
  exact List.mem_of_getElem? (i := k) (by simp [hk])

/-! ## A stretch goes -/

/-- `d` has the elements of `l` from position a up to b -/
def Stretch (l : List α) (a b : ℕ) (d : List α) : Prop := ∀ x, x ∈ d ↔ ∃ k, a ≤ k ∧ k < b ∧ l[k]? = some x

section Stretch

variable {a b : ℕ} {x : α}

theorem stretch_singleton (hx : l[a]? = some x) : Stretch l a (a + 1) [x] := by
  intro y
  rw [List.mem_singleton]
  constructor
  · rintro rfl
    exact ⟨a, le_refl _, by omega, hx⟩
  · rintro ⟨k, hk, hk', hy⟩
    obtain rfl : a = k := by omega
    exact Option.some.inj (hy.symm.trans hx)

/-- the stretch grows behind -/
theorem Stretch.right (h : Stretch l a b d) (hab : a ≤ b) (hx : l[b]? = some x) : Stretch l a (b + 1) (d ++ [x]) := by
  intro y
  rw [List.mem_append, List.mem_singleton, h y]
  constructor
  · rintro (⟨k, hk, hk', hy⟩ | rfl)
    · exact ⟨k, hk, by omega, hy⟩
    · exact ⟨b, hab, by omega, hx⟩
  · rintro ⟨k, hk, hk', hy⟩
    rcases Nat.lt_succ_iff_lt_or_eq.1 hk' with hk' | rfl
    · exact Or.inl ⟨k, hk, hk', hy⟩
    · exact Or.inr (Option.some.inj (hy.symm.trans hx))

/-- the stretch grows in front -/
theorem Stretch.left (h : Stretch l (a + 1) b d) (hab : a < b) (hx : l[a]? = some x) : Stretch l a b (d ++ [x]) := by
  intro y
  rw [List.mem_append, List.mem_singleton, h y]
  constructor
  · rintro (⟨k, hk, hk', hy⟩ | rfl)
    · exact ⟨k, by omega, hk', hy⟩
    · exact ⟨a, le_refl _, hab, hx⟩
  · rintro ⟨k, hk, hk', hy⟩
    rcases Nat.eq_or_lt_of_le hk with rfl | hk
    · exact Or.inr (Option.some.inj (hy.symm.trans hx))
    · exact Or.inl ⟨k, hk, hk', hy⟩

/-- in a list without duplicates, an element has one position -/
theorem position_unique (hl : l.Nodup) {i j : ℕ} (hi : l[i]? = some x) (hj : l[j]? = some x) : i = j :=
  (List.getElem?_inj (List.getElem?_eq_some_iff.1 hi).1 hl).1 (hi.trans hj.symm)

theorem Stretch.not_mem (h : Stretch l a b d) (hl : l.Nodup) {i : ℕ} (hi : l[i]? = some x) (hab : i < a ∨ b ≤ i) :
    x ∉ d := by
  intro hx
  obtain ⟨k, hk, hk', hkx⟩ := (h x).1 hx
  have := position_unique hl hi hkx
  omega

/-- **What is left** is the part before the stretch and the part behind it. -/
theorem filter_stretch [DecidableEq α] (h : Stretch l a b d) (hl : l.Nodup) (hab : a ≤ b) :
    (l.filter fun x => x ∉ d) = l.take a ++ l.drop b := by
  have hsplit : l = l.take a ++ ((l.drop a).take (b - a) ++ l.drop b) := by
    conv_lhs => rw [← List.take_append_drop a l, ← List.take_append_drop (b - a) (l.drop a), List.drop_drop]
    rw [Nat.add_sub_cancel' hab]
  have hfront : ((l.take a).filter fun x => x ∉ d) = l.take a := by
    apply List.filter_eq_self.2
    intro x hx
    obtain ⟨i, hi⟩ := List.mem_iff_getElem?.1 hx
    rw [List.getElem?_take] at hi
    split_ifs at hi with hia
    simpa using h.not_mem hl hi (Or.inl hia)
  have hmid : (((l.drop a).take (b - a)).filter fun x => x ∉ d) = [] := by
    apply List.filter_eq_nil_iff.2
    intro x hx
    obtain ⟨i, hi⟩ := List.mem_iff_getElem?.1 hx
    rw [List.getElem?_take] at hi
    split_ifs at hi with hib
    rw [List.getElem?_drop] at hi
    simpa using (h x).2 ⟨a + i, by omega, by omega, hi⟩
  have hback : ((l.drop b).filter fun x => x ∉ d) = l.drop b := by
    apply List.filter_eq_self.2
    intro x hx
    obtain ⟨i, hi⟩ := List.mem_iff_getElem?.1 hx
    rw [List.getElem?_drop] at hi
    simpa using h.not_mem hl hi (Or.inr (by omega))
  calc (l.filter fun x => x ∉ d)
      = (l.take a ++ ((l.drop a).take (b - a) ++ l.drop b)).filter fun x => x ∉ d := by rw [← hsplit]
    _ = l.take a ++ ([] ++ l.drop b) := by rw [List.filter_append, List.filter_append, hfront, hmid, hback]
    _ = l.take a ++ l.drop b := by rw [List.nil_append]

theorem length_cut (ha : a ≤ b) (hb : b ≤ l.length) : (l.take a ++ l.drop b).length = l.length - (b - a) := by
  rw [List.length_append, List.length_take, List.length_drop]
  omega

/-- an element before the stretch stays where it is, one behind it moves up -/
theorem getElem?_cut {i : ℕ} (ha : a ≤ l.length) :
    (l.take a ++ l.drop b)[i]? = if i < a then l[i]? else l[i - a + b]? := by
  split_ifs with hi
  · rw [List.getElem?_append_left (by rw [List.length_take]; omega), List.getElem?_take, if_pos hi]
  · rw [List.getElem?_append_right (by rw [List.length_take]; omega), List.getElem?_drop, List.length_take,
      Nat.min_eq_left ha, Nat.add_comm]

end Stretch

end ChainedBlockStorage.Positions
