/-
Sequences kept sorted by a key, with no key twice: what an ordered map is, and a priority queue of distinct keys.

`Sorted key` carries its order as a field, so an unsorted value cannot be built. Everything is said through membership:

- `mem_insert`, `mem_erase`: what the operations keep.
- `eq_of_mem`: a key has at most one element.
- `find?_eq_some`, `find?_eq_none`: look-up. `filter_le_eq_cons`: an element and what is behind it.
- `first?_eq_some`, `last?_eq_some`: the first element is the least, the last one the greatest. `toList_of_first`: it is
  in front of the others.
-/
import Mathlib.Tactic

namespace ChainedBlockStorage

variable {α κ : Type} [LinearOrder κ]

/-- a sequence sorted by `key`, no key twice -/
structure Sorted (key : α → κ) where
  toList : List α
  sorted : toList.Pairwise fun a b => key a < key b

namespace Sorted

variable {key : α → κ}

instance : Membership α (Sorted key) := ⟨fun s a => a ∈ s.toList⟩

theorem mem_toList {s : Sorted key} {a : α} : a ∈ s.toList ↔ a ∈ s := Iff.rfl

def empty : Sorted key := ⟨[], .nil⟩

@[simp] theorem not_mem_empty (a : α) : a ∉ (empty : Sorted key) := by
  simp [empty, ← mem_toList]

theorem eq_of_toList {s t : Sorted key} (h : s.toList = t.toList) : s = t := by
  cases s
  cases t
  congr

/-- a key has at most one element -/
theorem eq_of_mem {s : Sorted key} {a b : α} (ha : a ∈ s) (hb : b ∈ s) (h : key a = key b) : a = b := by
  have hn : (s.toList.map key).Nodup := (List.pairwise_map.2 s.sorted).imp ne_of_lt
  exact List.inj_on_of_nodup_map hn ha hb h

/-! ## Insertion -/

/-- insert in order; nothing changes when the key is there -/
def insertList (key : α → κ) (a : α) : List α → List α
  | [] => [a]
  | b :: l => if key a < key b then a :: b :: l else if key a = key b then b :: l else b :: insertList key a l

theorem mem_insertList (a c : α) (l : List α) (hl : l.Pairwise fun a b => key a < key b) :
    c ∈ insertList key a l ↔ c ∈ l ∨ (c = a ∧ ∀ b ∈ l, key b ≠ key a) := by
  induction l with
  | nil => simp [insertList]
  | cons b l ih =>
    have hb : ∀ d ∈ l, key b < key d := (List.pairwise_cons.1 hl).1
    have ih := ih hl.of_cons
    simp only [insertList]
    split_ifs with h1 h2
    · have hall : ∀ d ∈ b :: l, key d ≠ key a := by
        intro d hd
        rcases List.mem_cons.1 hd with rfl | hd
        · exact ne_of_gt h1
        · exact ne_of_gt (h1.trans (hb d hd))
      simp only [List.mem_cons] at hall ⊢
      tauto
    · simp only [List.mem_cons]
      constructor
      · exact Or.inl
      · rintro (h | ⟨-, h⟩)
        · exact h
        · exact absurd h2.symm (h b (Or.inl rfl))
    · simp only [List.mem_cons, ih]
      constructor
      · rintro (h | h | ⟨rfl, h⟩)
        · exact Or.inl (Or.inl h)
        · exact Or.inl (Or.inr h)
        · refine Or.inr ⟨rfl, ?_⟩
          rintro d (rfl | hd)
          · exact Ne.symm h2
          · exact h d hd
      · rintro ((h | h) | ⟨h, hd⟩)
        · exact Or.inl h
        · exact Or.inr (Or.inl h)
        · exact Or.inr (Or.inr ⟨h, fun d hm => hd d (Or.inr hm)⟩)

theorem pairwise_insertList (a : α) (l : List α) (hl : l.Pairwise fun a b => key a < key b) :
    (insertList key a l).Pairwise fun a b => key a < key b := by
  induction l with
  | nil => simp [insertList]
  | cons b l ih =>
    have hb : ∀ d ∈ l, key b < key d := (List.pairwise_cons.1 hl).1
    simp only [insertList]
    split_ifs with h1 h2
    · refine hl.cons ?_
      intro d hd
      rcases List.mem_cons.1 hd with rfl | hd
      · exact h1
      · exact h1.trans (hb d hd)
    · exact hl
    · refine (ih hl.of_cons).cons ?_
      intro d hd
      rcases (mem_insertList a d l hl.of_cons).1 hd with hd | ⟨rfl, -⟩
      · exact hb d hd
      · exact lt_of_le_of_ne (not_lt.1 h1) (Ne.symm h2)

/-- insert; nothing changes when the key is there -/
def insert (s : Sorted key) (a : α) : Sorted key := ⟨insertList key a s.toList, pairwise_insertList a _ s.sorted⟩

theorem mem_insert {s : Sorted key} {a c : α} : c ∈ s.insert a ↔ c ∈ s ∨ (c = a ∧ ∀ b ∈ s, key b ≠ key a) :=
  mem_insertList a c s.toList s.sorted

/-- a later element goes to the end -/
theorem insertList_last (a : α) (l : List α) (h : ∀ b ∈ l, key b < key a) : insertList key a l = l ++ [a] := by
  induction l with
  | nil => rfl
  | cons b l ih =>
    have hb := h b List.mem_cons_self
    rw [insertList, if_neg (lt_asymm hb), if_neg (ne_of_gt hb), ih fun c hc => h c (List.mem_cons_of_mem b hc)]
    rfl

/-- inserting a sorted list, behind what is there -/
theorem toList_foldl_insert (s : Sorted key) (l : List α) (h : (s.toList ++ l).Pairwise fun a b => key a < key b) :
    (l.foldl insert s).toList = s.toList ++ l := by
  induction l generalizing s with
  | nil => exact (List.append_nil _).symm
  | cons a l ih =>
    have hlast : (s.insert a).toList = s.toList ++ [a] :=
      insertList_last a s.toList fun b hb => (List.pairwise_append.1 h).2.2 b hb a List.mem_cons_self
    have hassoc : s.toList ++ a :: l = (s.toList ++ [a]) ++ l := List.append_cons _ _ _
    rw [hassoc, ← hlast] at h
    rw [List.foldl_cons, ih (s.insert a) h, hlast, ← hassoc]

/-! ## Removal -/

/-- remove the element with this key -/
def erase (s : Sorted key) (k : κ) : Sorted key := ⟨s.toList.filter (fun a => key a ≠ k), s.sorted.filter _⟩

@[simp] theorem mem_erase {s : Sorted key} {k : κ} {a : α} : a ∈ s.erase k ↔ a ∈ s ∧ key a ≠ k := by
  simp [erase, ← mem_toList]

/-! ## Look-up -/

/-- the element with this key -/
def find? (s : Sorted key) (k : κ) : Option α := s.toList.find? fun a => key a = k

theorem find?_eq_some {s : Sorted key} {k : κ} {a : α} : s.find? k = some a ↔ a ∈ s ∧ key a = k := by
  constructor
  · intro h
    exact ⟨List.mem_of_find?_eq_some h, by simpa using List.find?_some h⟩
  · rintro ⟨ha, hk⟩
    have hsome : (s.find? k).isSome := by
      simp only [find?, List.find?_isSome]
      exact ⟨a, ha, by simpa using hk⟩
    obtain ⟨b, hb⟩ := Option.isSome_iff_exists.1 hsome
    have hbk : key b = k := by simpa using List.find?_some hb
    rw [hb, eq_of_mem (List.mem_of_find?_eq_some hb) ha (hbk.trans hk.symm)]

theorem find?_eq_none {s : Sorted key} {k : κ} : s.find? k = none ↔ ∀ a ∈ s, key a ≠ k := by
  simp [find?, ← mem_toList]

/-- from an element on: itself and the ones behind it -/
theorem filter_le_eq_cons {s : Sorted key} {a : α} (ha : a ∈ s) :
    s.toList.filter (fun b => key a ≤ key b) = a :: s.toList.filter fun b => key a < key b := by
  obtain ⟨l, hl⟩ := s
  change a ∈ l at ha
  simp only
  induction l with
  | nil => cases ha
  | cons b l ih =>
    obtain ⟨hb, hl'⟩ := List.pairwise_cons.1 hl
    rcases List.mem_cons.1 ha with rfl | ha
    · have hle : l.filter (fun c => decide (key a ≤ key c)) = l := by
        simpa [List.filter_eq_self] using fun c hc => (hb c hc).le
      have hlt : l.filter (fun c => decide (key a < key c)) = l := by
        simpa [List.filter_eq_self] using hb
      simp [hle, hlt]
    · have hba := hb a ha
      simp [not_le.2 hba, not_lt.2 hba.le, ih hl' ha]

/-- the first element -/
def first? (s : Sorted key) : Option α := s.toList.head?

theorem first?_eq_some {s : Sorted key} {a : α} (h : s.first? = some a) : a ∈ s ∧ ∀ b ∈ s, key a ≤ key b := by
  obtain ⟨l, hl⟩ := List.head?_eq_some_iff.1 h
  have hp := s.sorted
  rw [hl] at hp
  refine ⟨by simp [← mem_toList, hl], ?_⟩
  intro b hb
  rw [← mem_toList, hl] at hb
  rcases List.mem_cons.1 hb with rfl | hb
  · exact le_refl _
  · exact le_of_lt (List.rel_of_pairwise_cons hp hb)

/-- the first element is in front of the others -/
theorem toList_of_first {s : Sorted key} {a : α} (h : s.first? = some a) :
    s.toList = a :: (s.erase (key a)).toList := by
  obtain ⟨l, hl⟩ := List.head?_eq_some_iff.1 h
  have hp := s.sorted
  rw [hl] at hp
  have herase : (s.erase (key a)).toList = l := by
    simp only [erase, hl]
    rw [List.filter_cons_of_neg (by simp), List.filter_eq_self]
    intro b hb
    simpa using ne_of_gt ((List.pairwise_cons.1 hp).1 b hb)
  rw [hl, herase]

/-- the last element -/
def last? (s : Sorted key) : Option α := s.toList.getLast?

theorem last?_eq_some {s : Sorted key} {a : α} (h : s.last? = some a) : a ∈ s ∧ ∀ b ∈ s, key b ≤ key a := by
  obtain ⟨l, hl⟩ := List.getLast?_eq_some_iff.1 h
  have hp := s.sorted
  rw [hl] at hp
  refine ⟨by simp [← mem_toList, hl], ?_⟩
  intro b hb
  rw [← mem_toList, hl] at hb
  rcases List.mem_append.1 hb with hb | hb
  · exact le_of_lt ((List.pairwise_append.1 hp).2.2 b hb a (List.mem_singleton_self a))
  · rw [List.mem_singleton.1 hb]

theorem last?_eq_none {s : Sorted key} : s.last? = none ↔ ∀ a, a ∉ s := by
  simp [last?, ← mem_toList, List.eq_nil_iff_forall_not_mem]

theorem first?_eq_none {s : Sorted key} : s.first? = none ↔ ∀ a, a ∉ s := by
  simp [first?, ← mem_toList, List.eq_nil_iff_forall_not_mem]

end Sorted

end ChainedBlockStorage
