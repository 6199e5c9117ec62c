/-
Runs of a step function, and the induction that every invariant of this development uses.

A machine is a total `step : σ → ε → σ` (an event that is not enabled leaves the state alone). A run is a list of
events. `Meets` says that every step of a run satisfies a condition on the state before it, which is how the
conditional results (every run whose steps all meet a condition) are stated.

- `run_inv`: a property that every step preserves holds after every run.
- `run_inv_of_meets`: the same, for runs whose steps all meet the condition.
- `forall_take_iff_meets`: a condition that is exact for one step is exact for runs.
- `exists_run_of_rank`: if a step that lowers a rank is open in every state short of a goal, a run leads to the goal.
-/
import Mathlib.Tactic

namespace ChainedBlockStorage.Run

variable {σ ε : Type}

/-- the state after a list of events -/
def run (step : σ → ε → σ) (s : σ) (es : List ε) : σ := es.foldl step s

@[simp] theorem run_nil (step : σ → ε → σ) (s : σ) : run step s [] = s := rfl

theorem run_cons (step : σ → ε → σ) (s : σ) (e : ε) (es : List ε) :
    run step s (e :: es) = run step (step s e) es := rfl

theorem run_append (step : σ → ε → σ) (s : σ) (l l' : List ε) :
    run step s (l ++ l') = run step (run step s l) l' := by
  simp [run, List.foldl_append]

theorem run_snoc (step : σ → ε → σ) (s : σ) (l : List ε) (e : ε) :
    run step s (l ++ [e]) = step (run step s l) e := by
  simp [run, List.foldl_append]

/-- every step of the run satisfies `C` in the state before it -/
def Meets (step : σ → ε → σ) (C : σ → ε → Prop) : σ → List ε → Prop
  | _, [] => True
  | s, e :: es => C s e ∧ Meets step C (step s e) es

instance (step : σ → ε → σ) (C : σ → ε → Prop) [∀ s e, Decidable (C s e)] :
    ∀ (s : σ) (es : List ε), Decidable (Meets step C s es)
  | _, [] => isTrue trivial
  | s, e :: es =>
    have := instDecidableMeets step C (step s e) es
    inferInstanceAs (Decidable (C s e ∧ Meets step C (step s e) es))

theorem meets_append (step : σ → ε → σ) (C : σ → ε → Prop) (s : σ) (l l' : List ε) :
    Meets step C s (l ++ l') ↔ Meets step C s l ∧ Meets step C (run step s l) l' := by
  induction l generalizing s with
  | nil => simp [Meets]
  | cons e l ih => simp only [List.cons_append, Meets, run_cons, ih, and_assoc]

theorem meets_mono (step : σ → ε → σ) {C D : σ → ε → Prop} (h : ∀ s e, C s e → D s e) (s : σ) (es : List ε)
    (hm : Meets step C s es) : Meets step D s es := by
  induction es generalizing s with
  | nil => trivial
  | cons e es ih => exact ⟨h s e hm.1, ih (step s e) hm.2⟩

/-- **Invariant rule under a condition.** What every step that meets `C` preserves holds after every run whose steps
all meet `C`. -/
theorem run_inv_of_meets (step : σ → ε → σ) (C : σ → ε → Prop) (I : σ → Prop)
    (hstep : ∀ s e, I s → C s e → I (step s e)) (s : σ) (es : List ε) (h0 : I s) (hm : Meets step C s es) :
    I (run step s es) := by
  induction es generalizing s with
  | nil => exact h0
  | cons e es ih => exact ih (step s e) (hstep s e h0 hm.1) hm.2

/-- **Exact conditions.** From states with `I`, a step that meets `C` keeps `I`, and no other step leads to a state with
`P`: then `P` holds in every state of a run if and only if every step of the run meets `C`. -/
theorem forall_take_iff_meets (step : σ → ε → σ) (C : σ → ε → Prop) (I P : σ → Prop) (hP : ∀ s, I s → P s)
    (hstep : ∀ s e, I s → C s e → I (step s e)) (hexact : ∀ s e, I s → P (step s e) → C s e) (s : σ) (es : List ε)
    (h0 : I s) : (∀ k, P (run step s (es.take k))) ↔ Meets step C s es := by
  induction es generalizing s with
  | nil => simpa [Meets] using hP s h0
  | cons e es ih =>
    constructor
    · intro h
      have hC := hexact s e h0 (h 1)
      exact ⟨hC, (ih (step s e) (hstep s e h0 hC)).1 fun k => h (k + 1)⟩
    · rintro ⟨hC, hm⟩ k
      cases k with
      | zero => simpa using hP s h0
      | succ k => exact (ih (step s e) (hstep s e h0 hC)).2 hm k

/-- **Invariant rule.** What every step preserves holds after every run. -/
theorem run_inv (step : σ → ε → σ) (I : σ → Prop) (hstep : ∀ s e, I s → I (step s e)) (s : σ) (es : List ε)
    (h0 : I s) : I (run step s es) := by
  induction es generalizing s with
  | nil => exact h0
  | cons e es ih => exact ih (step s e) (hstep s e h0)

/-- **Progress rule.** In every state with `I` that is short of `G`, some step that meets `C` keeps `I` and lowers `rank`:
then a run whose steps all meet `C` leads from every state with `I` to one with `G`. -/
theorem exists_run_of_rank (step : σ → ε → σ) (C : σ → ε → Prop) (I G : σ → Prop) (rank : σ → ℕ)
    (h : ∀ s, I s → ¬ G s → ∃ e, C s e ∧ I (step s e) ∧ rank (step s e) < rank s) (s : σ) (h0 : I s) :
    ∃ es, Meets step C s es ∧ I (run step s es) ∧ G (run step s es) := by
  induction hr : rank s using Nat.strong_induction_on generalizing s with
  | _ r ih =>
    by_cases hg : G s
    · exact ⟨[], trivial, h0, hg⟩
    · obtain ⟨e, hC, hI, hlt⟩ := h s h0 hg
      obtain ⟨es, hm, hI', hG⟩ := ih _ (hr ▸ hlt) (step s e) hI rfl
      exact ⟨e :: es, ⟨hC, hm⟩, hI', hG⟩

end ChainedBlockStorage.Run
