/-
A pool of numbers: a queue of free ones, and a counter behind which nothing was ever handed out.

`Pool.take` hands out the front of the queue, or the next number of the counter if the queue is empty; `Pool.give` puts
numbers back.

- `Pool.Ok`: the queue and the numbers in use have nothing in common, and both lie between `low` and the counter.
- `Pool.Ok.take`, `Pool.Ok.give`: what is handed out was not in use; what goes back was in use once.
-/
import Mathlib.Tactic

namespace ChainedBlockStorage

structure Pool where
  free : List ℤ
  total : ℤ

def Pool.take (p : Pool) : ℤ × Pool :=
  match p.free with
  | [] => (p.total + 1, { p with total := p.total + 1 })
  | x :: rest => (x, { p with free := rest })

def Pool.give (p : Pool) (l : List ℤ) : Pool := { p with free := p.free ++ l }

structure Pool.Ok (low : ℤ) (used : Set ℤ) (p : Pool) : Prop where
  nodup : p.free.Nodup
  free : ∀ x ∈ p.free, x ∉ used ∧ low < x ∧ x ≤ p.total
  used : ∀ x ∈ used, low < x ∧ x ≤ p.total
  low : low ≤ p.total

section Ok

variable {low : ℤ} {used : Set ℤ} {p : Pool}

theorem Pool.Ok.mono (h : p.Ok low used) {used' : Set ℤ} (hsub : used' ⊆ used) : p.Ok low used' where
  nodup := h.nodup
  free x hx := ⟨fun hu => (h.free x hx).1 (hsub hu), (h.free x hx).2⟩
  used x hx := h.used x (hsub hx)
  low := h.low

/-- the number handed out is new, and in use from now on -/
theorem Pool.Ok.take (h : p.Ok low used) : p.take.1 ∉ used ∧ p.take.2.Ok low (insert p.take.1 used) := by
  obtain ⟨free, total⟩ := p
  obtain ⟨hnodup, hfree, hused, hlow⟩ := h
  cases free with
  | nil =>
    simp only [Pool.take]
    refine ⟨fun hx => ?_, ⟨List.nodup_nil, by simp, fun x hx => ?_, ?_⟩⟩
    · have := (hused _ hx).2
      simp only at this
      omega
    · rcases Set.mem_insert_iff.1 hx with rfl | hx
      · simp only at hlow ⊢
        omega
      · have := hused x hx
        simp only at this ⊢
        omega
    · simp only at hlow ⊢
      omega
  | cons y rest =>
    obtain ⟨hy, hrest⟩ := List.nodup_cons.1 hnodup
    have hyfree := hfree y List.mem_cons_self
    simp only [Pool.take]
    refine ⟨hyfree.1, ⟨hrest, fun x hx => ?_, fun x hx => ?_, hlow⟩⟩
    · have hxfree := hfree x (List.mem_cons_of_mem y hx)
      refine ⟨fun hmem => ?_, hxfree.2⟩
      rcases Set.mem_insert_iff.1 hmem with rfl | hu
      · exact hy hx
      · exact hxfree.1 hu
    · rcases Set.mem_insert_iff.1 hx with rfl | hx
      · exact hyfree.2
      · exact hused x hx

/-- numbers in use go back, each of them once -/
theorem Pool.Ok.give (h : p.Ok low used) {l : List ℤ} (hl : l.Nodup) (hin : ∀ x ∈ l, x ∈ used) :
    (p.give l).Ok low (used \ {x | x ∈ l}) where
  nodup := List.nodup_append.2 ⟨h.nodup, hl, fun x hx y hy e => (h.free x hx).1 (hin x (e ▸ hy))⟩
  free x hx := by
    rcases List.mem_append.1 hx with hx | hx
    · exact ⟨fun hu => (h.free x hx).1 hu.1, (h.free x hx).2⟩
    · exact ⟨fun hu => hu.2 hx, h.used x (hin x hx)⟩
  used x hx := h.used x hx.1
  low := h.low

end Ok

end ChainedBlockStorage
