/-
Numbers below B * B written one after another in base B, one digit for those below B and two for the others, with
nothing in between. How many numbers a text is made of is known, where one ends and the next begins is not.

- `eq_or_longer`: where all neighbours are `Apart`, every other reading of the text has more numbers.
- `resplit`: where two neighbours are not, and some number has two digits, there is another reading with as many.
- `unique_iff`: a text has one reading exactly when all its numbers have one digit or all neighbours are `Apart`.
-/
import Mathlib.Tactic

namespace ChainedBlockStorage.Numerals

variable {B : ℕ}

/-- the digits of one number -/
def numeral (B b : ℕ) : List ℕ := if b < B then [b] else [b / B, b % B]

def text (B : ℕ) (l : List ℕ) : List ℕ := l.flatMap (numeral B)

/-- no digit can move between neighbours: the first is 0, or has two digits of which the last is 0 if the second number
has only one -/
def Apart (B a b : ℕ) : Prop := a = 0 ∨ (B ≤ a ∧ (b < B → a % B = 0))

instance (a b : ℕ) : Decidable (Apart B a b) := by unfold Apart; infer_instance

@[simp] theorem text_nil : text B [] = [] := rfl

@[simp] theorem text_append (l m : List ℕ) : text B (l ++ m) = text B l ++ text B m := List.flatMap_append

theorem text_short {b : ℕ} (h : b < B) (l : List ℕ) : text B (b :: l) = b :: text B l := by
  simp [text, numeral, h]

theorem text_long {b : ℕ} (h : B ≤ b) (l : List ℕ) : text B (b :: l) = b / B :: b % B :: text B l := by
  simp [text, numeral, Nat.not_lt.2 h]

theorem lt_of_mem_text {l : List ℕ} (hl : ∀ b ∈ l, b < B * B) : ∀ c ∈ text B l, c < B := by
  intro c hc
  obtain ⟨b, hb, hc⟩ := List.mem_flatMap.1 hc
  have hlt := hl b hb
  unfold numeral at hc
  split_ifs at hc with h
  · rwa [List.mem_singleton.1 hc]
  · rcases List.mem_pair.1 hc with rfl | rfl
    · exact Nat.div_lt_of_lt_mul hlt
    · exact Nat.mod_lt b (Nat.pos_of_mul_pos_right (Nat.zero_lt_of_lt hlt))

/-- what the first number of a text can be -/
theorem text_eq_cons {l : List ℕ} {c : ℕ} {t : List ℕ} (h : text B l = c :: t) :
    ∃ x m, l = x :: m ∧ ((x < B ∧ x = c ∧ text B m = t) ∨ (B ≤ x ∧ x / B = c ∧ t = x % B :: text B m)) := by
  cases l with
  | nil => exact absurd h.symm (List.cons_ne_nil _ _)
  | cons x m =>
    refine ⟨x, m, rfl, ?_⟩
    by_cases hx : x < B
    · rw [text_short hx, List.cons.injEq] at h
      exact Or.inl ⟨hx, h⟩
    · rw [text_long (Nat.not_lt.1 hx), List.cons.injEq] at h
      exact Or.inr ⟨Nat.not_lt.1 hx, h.1, h.2.symm⟩

theorem eq_nil_of_text {l : List ℕ} (h : text B l = []) : l = [] := by
  cases l with
  | nil => rfl
  | cons x m =>
    by_cases hx : x < B
    · rw [text_short hx] at h; exact absurd h (List.cons_ne_nil _ _)
    · rw [text_long (Nat.not_lt.1 hx)] at h; exact absurd h (List.cons_ne_nil _ _)

/-! ## Apart -/

/-- every reading of the text of `t` is `t` or has more numbers -/
def EqOrLonger (B : ℕ) (t : List ℕ) : Prop := ∀ l, text B l = text B t → l = t ∨ t.length < l.length

/-- a digit left over from the number before `t` makes every reading longer than `t` -/
def LongerAfterDigit (B : ℕ) (t : List ℕ) : Prop :=
  ∀ c l, text B l = c :: text B t → (∀ e ∈ t.head?, e < B → c = 0) → t.length < l.length

theorem eqOrLonger_cons {a : ℕ} {t : List ℕ} (hB : 0 < B) (hch : (a :: t).IsChain (Apart B)) (ih : EqOrLonger B t)
    (ihd : LongerAfterDigit B t) : EqOrLonger B (a :: t) := by
  intro l hl
  by_cases ha : a < B
  · rw [text_short ha] at hl
    obtain ⟨x, m, rfl, ⟨-, rfl, hm⟩ | ⟨hx, hxa, hm⟩⟩ := text_eq_cons hl
    · exact (ih m hm).imp (fun h => by rw [h]) fun h => by simpa using h
    -- a number of two digits starts with its own first digit, which is not 0: `a` is the last number of the text
    · cases t with
      | nil => exact absurd hm.symm (List.cons_ne_nil _ _)
      | cons b t =>
        have hpos : 0 < x / B := Nat.div_pos hx hB
        rcases List.IsChain.rel hch with h0 | ⟨h, -⟩
        · rw [hxa, h0] at hpos; exact absurd hpos (lt_irrefl 0)
        · exact absurd ha (Nat.not_lt.2 h)
  · have ha := Nat.not_lt.1 ha
    rw [text_long ha] at hl
    obtain ⟨x, m, rfl, ⟨-, -, hm⟩ | ⟨-, hxa, hm⟩⟩ := text_eq_cons hl
    -- the first digit of `a` was read alone, the second one is left over
    · refine Or.inr (Nat.succ_lt_succ (ihd _ m hm fun e he hlt => ?_))
      rcases List.IsChain.rel_head? hch he with h0 | ⟨-, h⟩
      · exact absurd (h0 ▸ ha) (Nat.not_le.2 hB)
      · exact h hlt
    · obtain ⟨h1, h2⟩ := List.cons.inj hm
      obtain rfl := Nat.ext_div_mod hxa h1.symm
      exact (ih m h2.symm).imp (fun h => by rw [h]) fun h => by simpa using h

theorem longerAfterDigit_cons {a : ℕ} {t : List ℕ} (hB : 0 < B) (hch : (a :: t).IsChain (Apart B))
    (hall : EqOrLonger B (a :: t)) (ihd : LongerAfterDigit B t) : LongerAfterDigit B (a :: t) := by
  intro c l hl hc
  obtain ⟨x, m, rfl, ⟨-, -, hm⟩ | ⟨hx, hxc, hm⟩⟩ := text_eq_cons hl
  · rcases hall m hm with rfl | h
    · exact Nat.lt_succ_self _
    · exact Nat.lt_succ_of_lt h
  -- the digit and the first one of `a` were read as one number: `a` has two, and the second is left over in its turn
  · have ha : ¬ a < B := by
      intro ha
      have hpos : 0 < x / B := Nat.div_pos hx hB
      rw [hxc, hc a rfl ha] at hpos
      exact lt_irrefl 0 hpos
    have ha := Nat.not_lt.1 ha
    rw [text_long ha] at hm
    refine Nat.succ_lt_succ (ihd _ m (List.cons.inj hm).2.symm fun e he hlt => ?_)
    rcases List.IsChain.rel_head? hch he with h0 | ⟨-, h⟩
    · exact absurd (h0 ▸ ha) (Nat.not_le.2 hB)
    · exact h hlt

theorem apart_longer (hB : 0 < B) (t : List ℕ) (ht : t.IsChain (Apart B)) : EqOrLonger B t ∧ LongerAfterDigit B t := by
  induction t with
  | nil =>
    refine ⟨fun l hl => Or.inl (eq_nil_of_text hl), fun c l hl _ => ?_⟩
    obtain ⟨x, m, rfl, -⟩ := text_eq_cons hl
    exact Nat.succ_pos _
  | cons a t ih =>
    obtain ⟨h, hd⟩ := ih ht.tail
    have hall := eqOrLonger_cons hB ht h hd
    exact ⟨hall, longerAfterDigit_cons hB ht hall hd⟩

/-- **Where all neighbours are apart, every other reading has more numbers.** -/
theorem eq_or_longer (hB : 0 < B) {t : List ℕ} (ht : t.IsChain (Apart B)) {l : List ℕ} (h : text B l = text B t) :
    l = t ∨ t.length < l.length :=
  (apart_longer hB t ht).1 l h

/-! ## One digit each -/

theorem text_of_short {l : List ℕ} (h : ∀ b ∈ l, b < B) : text B l = l := by
  induction l with
  | nil => rfl
  | cons b l ih => rw [text_short (h b List.mem_cons_self), ih fun c hc => h c (List.mem_cons_of_mem b hc)]

/-- a text has at least one digit for each number, and exactly one only if all numbers have one -/
theorem length_text (l : List ℕ) : l.length ≤ (text B l).length ∧ ((text B l).length = l.length → ∀ b ∈ l, b < B) := by
  induction l with
  | nil => simp
  | cons b l ih =>
    by_cases hb : b < B
    · rw [text_short hb, List.length_cons, List.length_cons]
      refine ⟨Nat.succ_le_succ ih.1, fun h c hc => ?_⟩
      rcases List.mem_cons.1 hc with rfl | hc
      · exact hb
      · exact ih.2 (Nat.succ.inj h) c hc
    · rw [text_long (Nat.not_lt.1 hb), List.length_cons, List.length_cons, List.length_cons]
      exact ⟨by omega, fun h => by omega⟩

/-! ## Not apart -/

/-- two readings with as many numbers and the same text -/
structure Other (B : ℕ) (l m : List ℕ) : Prop where
  text : text B m = text B l
  length : m.length = l.length
  ne : m ≠ l
  lt : ∀ b ∈ m, b < B * B

theorem Other.append {l m : List ℕ} (h : Other B l m) (p q : List ℕ) (hp : ∀ b ∈ p, b < B * B)
    (hq : ∀ b ∈ q, b < B * B) : Other B (p ++ (l ++ q)) (p ++ (m ++ q)) where
  text := by simp only [text_append, h.text]
  length := by simp only [List.length_append, h.length]
  ne := fun he => h.ne (List.append_cancel_right (List.append_cancel_left he))
  lt := by
    intro b hb
    rcases List.mem_append.1 hb with hb | hb
    · exact hp b hb
    · exact (List.mem_append.1 hb).elim (h.lt b) (hq b)

theorem join_lt {c d : ℕ} (hc : c < B) (hd : d < B) : c * B + d < B * B := by
  calc c * B + d < c * B + B := Nat.add_lt_add_left hd _
    _ = (c + 1) * B := (Nat.succ_mul c B).symm
    _ ≤ B * B := Nat.mul_le_mul_right B hc

theorem lt_square {c : ℕ} (hc : c < B) : c < B * B := hc.trans_le (Nat.le_mul_of_pos_left B (Nat.zero_lt_of_lt hc))

/-- two digits, of which the first is not 0, read as one number -/
theorem text_join {c d : ℕ} (hc0 : c ≠ 0) (hd : d < B) (l : List ℕ) : text B ((c * B + d) :: l) = c :: d :: text B l := by
  have hB : 0 < B := Nat.zero_lt_of_lt hd
  have hle : B ≤ c * B + d := (Nat.le_mul_of_pos_left B (Nat.pos_of_ne_zero hc0)).trans (Nat.le_add_right _ _)
  have hdiv : (c * B + d) / B = c := by rw [Nat.mul_comm, Nat.mul_add_div hB, Nat.div_eq_of_lt hd, Nat.add_zero]
  have hmod : (c * B + d) % B = d := by rw [Nat.mul_comm, Nat.mul_add_mod, Nat.mod_eq_of_lt hd]
  rw [text_long hle, hdiv, hmod]

/-- the last digit of the first number moves to the second -/
theorem other_right {a b : ℕ} (ha : B ≤ a) (hab : a < B * B) (hb : b < B) (h : a % B ≠ 0) :
    Other B [a, b] [a / B, a % B * B + b] := by
  have hB : 0 < B := Nat.zero_lt_of_lt hb
  have hq : a / B < B := Nat.div_lt_of_lt_mul hab
  refine ⟨?_, rfl, ?_, ?_⟩
  · rw [text_short hq, text_join h hb, text_long ha, text_short hb]
  · intro he
    have : a / B = a := (List.cons.inj he).1
    exact absurd (this ▸ hq) (Nat.not_lt.2 ha)
  · intro x hx
    rcases List.mem_pair.1 hx with rfl | rfl
    · exact lt_square hq
    · exact join_lt (Nat.mod_lt a hB) hb

/-- the first digit of the second number moves to the first -/
theorem other_left {a b : ℕ} (ha : a < B) (h : a ≠ 0) (hb : B ≤ b) (hbb : b < B * B) :
    Other B [a, b] [a * B + b / B, b % B] := by
  have hB : 0 < B := Nat.zero_lt_of_lt ha
  have hq : b / B < B := Nat.div_lt_of_lt_mul hbb
  have hr : b % B < B := Nat.mod_lt b hB
  refine ⟨?_, rfl, ?_, ?_⟩
  · rw [text_join h hq, text_short hr, text_short ha, text_long hb]
  · intro he
    have : b % B = b := List.head_eq_of_cons_eq (List.cons.inj he).2
    exact absurd (this ▸ hr) (Nat.not_lt.2 hb)
  · intro x hx
    rcases List.mem_pair.1 hx with rfl | rfl
    · exact join_lt ha hq
    · exact lt_square hr

/-- two numbers of one digit are read as one, a number of two digits further on is read as two -/
theorem other_after {a b x : ℕ} (ha : a < B) (h : a ≠ 0) (hb : b < B) (hx : B ≤ x) (hxx : x < B * B) (q : List ℕ)
    (hq : ∀ y ∈ q, y < B * B) : Other B (a :: b :: (q ++ [x])) ((a * B + b) :: (q ++ [x / B, x % B])) := by
  have hr : x % B < B := Nat.mod_lt x (Nat.zero_lt_of_lt ha)
  have hd : x / B < B := Nat.div_lt_of_lt_mul hxx
  refine ⟨?_, by simp, ?_, ?_⟩
  · calc text B ((a * B + b) :: (q ++ [x / B, x % B])) = a :: b :: (text B q ++ [x / B, x % B]) := by
          rw [text_join h hb, text_append, text_short hd, text_short hr, text_nil]
      _ = text B (a :: b :: (q ++ [x])) := by rw [text_short ha, text_short hb, text_append, text_long hx, text_nil]
  · intro he
    have hle : B ≤ a * B + b := (Nat.le_mul_of_pos_left B (Nat.pos_of_ne_zero h)).trans (Nat.le_add_right _ _)
    rw [(List.cons.inj he).1] at hle
    exact absurd ha (Nat.not_lt.2 hle)
  · intro y hy
    rcases List.mem_cons.1 hy with rfl | hy
    · exact join_lt ha hb
    · rcases List.mem_append.1 hy with hy | hy
      · exact hq y hy
      · rcases List.mem_pair.1 hy with rfl | rfl
        · exact lt_square hd
        · exact lt_square hr

/-- the same with the number of two digits before them -/
theorem other_before {a b x : ℕ} (ha : a < B) (h : a ≠ 0) (hb : b < B) (hx : B ≤ x) (hxx : x < B * B) (q : List ℕ)
    (hq : ∀ y ∈ q, y < B * B) : Other B (x :: (q ++ [a, b])) (x / B :: x % B :: (q ++ [a * B + b])) := by
  have hr : x % B < B := Nat.mod_lt x (Nat.zero_lt_of_lt ha)
  have hd : x / B < B := Nat.div_lt_of_lt_mul hxx
  refine ⟨?_, by simp, ?_, ?_⟩
  · calc text B (x / B :: x % B :: (q ++ [a * B + b])) = x / B :: x % B :: (text B q ++ [a, b]) := by
          rw [text_short hd, text_short hr, text_append, text_join h hb, text_nil]
      _ = text B (x :: (q ++ [a, b])) := by rw [text_long hx, text_append, text_short ha, text_short hb, text_nil]
  · intro he
    exact absurd ((List.cons.inj he).1 ▸ hd) (Nat.not_lt.2 hx)
  · intro y hy
    rcases List.mem_cons.1 hy with rfl | hy
    · exact lt_square hd
    · rcases List.mem_cons.1 hy with rfl | hy
      · exact lt_square hr
      · rcases List.mem_append.1 hy with hy | hy
        · exact hq y hy
        · rw [List.mem_singleton.1 hy]
          exact join_lt ha hb

/-- **Where two neighbours are not apart and some number has two digits, there is another reading with as many.** -/
theorem resplit {l : List ℕ} (hl : ∀ b ∈ l, b < B * B) (hch : ¬ l.IsChain (Apart B)) (hlong : ∃ x ∈ l, B ≤ x) :
    ∃ m, Other B l m := by
  rw [List.isChain_iff_forall_rel_of_append_cons_cons] at hch
  push Not at hch
  obtain ⟨a, b, p, q, rfl, hab⟩ := hch
  have ha2 : a < B * B := hl a (by simp)
  have hb2 : b < B * B := hl b (by simp)
  have hp : ∀ y ∈ p, y < B * B := fun y hy => hl y (List.mem_append_left _ hy)
  have hq : ∀ y ∈ q, y < B * B := fun y hy => hl y (by simp [hy])
  obtain ⟨h0, hsame⟩ := not_or.1 hab
  rcases Nat.lt_or_ge a B with ha | ha
  · rcases Nat.lt_or_ge b B with hb | hb
    · obtain ⟨x, hx, hxB⟩ := hlong
      have hx2 : x < B * B := hl x hx
      rcases List.mem_append.1 hx with hx | hx
      · obtain ⟨p, r, rfl⟩ := List.append_of_mem hx
        have hr : ∀ y ∈ r, y < B * B := fun y hy => hp y (by simp [hy])
        have := (other_before ha h0 hb hxB hx2 r hr).append p q (fun y hy => hp y (List.mem_append_left _ hy)) hq
        exact ⟨_, by simpa using this⟩
      · have hx : x ∈ q := by
          rcases List.mem_cons.1 hx with rfl | hx
          · exact absurd ha (Nat.not_lt.2 hxB)
          · rcases List.mem_cons.1 hx with rfl | hx
            · exact absurd hb (Nat.not_lt.2 hxB)
            · exact hx
        obtain ⟨r, q, rfl⟩ := List.append_of_mem hx
        have hr : ∀ y ∈ r, y < B * B := fun y hy => hq y (List.mem_append_left _ hy)
        have := (other_after ha h0 hb hxB hx2 r hr).append p q hp fun y hy => hq y (by simp [hy])
        exact ⟨_, by simpa using this⟩
    · exact ⟨_, (other_left ha h0 hb hb2).append p q hp hq⟩
  · obtain ⟨hb, hr⟩ := Classical.not_imp.1 (not_and.1 hsame ha)
    exact ⟨_, (other_right ha ha2 hb hr).append p q hp hq⟩

/-! ## One reading -/

/-- **A text has one reading with its number of numbers exactly when all of them have one digit or all neighbours are
apart.** -/
theorem unique_iff (hB : 0 < B) {l : List ℕ} (hl : ∀ b ∈ l, b < B * B) :
    (∀ m, (∀ b ∈ m, b < B * B) → m.length = l.length → text B m = text B l → m = l) ↔
      (∀ b ∈ l, b < B) ∨ l.IsChain (Apart B) := by
  constructor
  · intro h
    by_contra hc
    obtain ⟨hlong, hch⟩ := not_or.1 hc
    push Not at hlong
    obtain ⟨m, hm⟩ := resplit hl hch hlong
    exact hm.ne (h m hm.lt hm.length hm.text)
  · rintro (h | h) m - hlen htext
    · have hm : (text B m).length = m.length := by rw [htext, text_of_short h, hlen]
      rw [text_of_short h, text_of_short ((length_text m).2 hm)] at htext
      exact htext
    · exact (eq_or_longer hB h htext).resolve_right fun hlt => absurd hlen (Nat.ne_of_gt hlt)

end ChainedBlockStorage.Numerals
