/-
A log replicated along a chain.

The log grows at its end. Replica 0 takes the entries in order, every other replica takes what the one before it has
taken. A replica applies, in order, what it has taken. The last one commits what it has applied; every other one commits
what it has applied and the next one has committed. So all a replica knows is three numbers.

- `Ordered`, `ordered_move`: how the numbers of all replicas are ordered in every reachable state.
- `Ordered.committed_le_taken`: what one replica has committed, every replica has taken.
- `Ordered.committed_prefix`: of two replicas, one has committed a prefix of what the other has.
- `move_grows`: nothing is taken back.
-/
import Mathlib.Tactic

namespace ChainedBlockStorage.LogChain

variable {α : Type}

/-- the log, and how much of it each replica has taken, applied and committed -/
structure State (α : Type) where
  log : List α
  taken : ℕ → ℕ
  applied : ℕ → ℕ
  committed : ℕ → ℕ

/-- nothing in the log -/
def State.empty : State α := ⟨[], fun _ => 0, fun _ => 0, fun _ => 0⟩

/-- what replica `i` may take -/
def State.offered (s : State α) : ℕ → ℕ
  | 0 => s.log.length
  | i + 1 => s.taken i

/-- the steps of a chain of `n` replicas -/
inductive Move (n : ℕ) : State α → State α → Prop where
  | stay (s : State α) : Move n s s
  | append (s : State α) (a : α) : Move n s { s with log := s.log ++ [a] }
  | take (s : State α) (i : ℕ) (hi : i < n) (h : s.taken i < s.offered i) :
      Move n s { s with taken := Function.update s.taken i (s.taken i + 1) }
  | apply (s : State α) (i : ℕ) (hi : i < n) (h : s.applied i < s.taken i) :
      Move n s { s with applied := Function.update s.applied i (s.applied i + 1) }
  | commit (s : State α) (i : ℕ) (hi : i < n) (h : s.committed i < s.applied i)
      (hnext : i + 1 < n → s.committed i < s.committed (i + 1)) :
      Move n s { s with committed := Function.update s.committed i (s.committed i + 1) }

/-- a chain of `n` replicas gets from one state to another -/
abbrev Moves (n : ℕ) : State α → State α → Prop := Relation.ReflTransGen (Move n)

/-! ## The order of the numbers -/

structure Ordered (n : ℕ) (s : State α) : Prop where
  taken : ∀ i < n, s.taken i ≤ s.offered i
  applied : ∀ i < n, s.applied i ≤ s.taken i
  committed : ∀ i < n, s.committed i ≤ s.applied i
  next : ∀ i, i + 1 < n → s.committed i ≤ s.committed (i + 1)

theorem ordered_empty (n : ℕ) : Ordered n (State.empty : State α) where
  taken i _ := by cases i <;> exact le_rfl
  applied _ _ := le_rfl
  committed _ _ := le_rfl
  next _ _ := le_rfl

/-- one number goes up by one -/
theorem le_update (f : ℕ → ℕ) (i j : ℕ) : f j ≤ Function.update f i (f i + 1) j := by
  rw [Function.update_apply]
  split
  · next h => rw [h]; exact Nat.le_succ _
  · exact le_rfl

theorem update_le {f : ℕ → ℕ} {i j m : ℕ} (hj : f j ≤ m) (hi : j = i → f i < m) :
    Function.update f i (f i + 1) j ≤ m := by
  rw [Function.update_apply]
  split
  · next h => exact hi h
  · exact hj

theorem ordered_move {n : ℕ} {s s' : State α} (h : Ordered n s) (hm : Move n s s') : Ordered n s' := by
  cases hm with
  | stay => exact h
  | append a =>
    refine ⟨fun i hi => (h.taken i hi).trans ?_, h.applied, h.committed, h.next⟩
    cases i with
    | zero =>
      calc s.log.length ≤ s.log.length + [a].length := Nat.le_add_right _ _
        _ = (s.log ++ [a]).length := List.length_append.symm
    | succ i => exact le_rfl
  | take i hi hlt =>
    refine ⟨fun j hj => ?_, fun j hj => (h.applied j hj).trans (le_update _ _ _), h.committed, h.next⟩
    have hoffered : ∀ j, s.offered j ≤
        ({ s with taken := Function.update s.taken i (s.taken i + 1) } : State α).offered j := by
      intro j
      cases j with
      | zero => exact le_rfl
      | succ j => exact le_update s.taken i j
    exact (update_le (h.taken j hj) fun e => e ▸ hlt).trans (hoffered j)
  | apply i hi hlt =>
    refine ⟨h.taken, fun j hj => ?_, fun j hj => (h.committed j hj).trans (le_update _ _ _), h.next⟩
    exact update_le (h.applied j hj) fun e => e ▸ hlt
  | commit i hi hlt hnext =>
    refine ⟨h.taken, h.applied, fun j hj => ?_, fun j hj => ?_⟩
    · exact update_le (h.committed j hj) fun e => e ▸ hlt
    · refine (update_le (h.next j hj) fun e => ?_).trans (le_update _ _ _)
      subst e
      exact hnext hj

theorem ordered_moves {n : ℕ} {s s' : State α} (h : Ordered n s) (hm : Moves n s s') : Ordered n s' := by
  induction hm with
  | refl => exact h
  | tail _ hstep ih => exact ordered_move ih hstep

namespace Ordered

variable {n : ℕ} {s : State α}

/-- the further down, the less is taken -/
theorem taken_anti (h : Ordered n s) {i j : ℕ} (hij : i ≤ j) (hj : j < n) : s.taken j ≤ s.taken i := by
  induction j, hij using Nat.le_induction with
  | base => exact le_rfl
  | succ j _ ih => exact (h.taken (j + 1) hj).trans (ih (by omega))

/-- the further down, the more is committed -/
theorem committed_mono (h : Ordered n s) {i j : ℕ} (hij : i ≤ j) (hj : j < n) : s.committed i ≤ s.committed j := by
  induction j, hij using Nat.le_induction with
  | base => exact le_rfl
  | succ j _ ih => exact (ih (by omega)).trans (h.next j hj)

/-- **Durability.** What one replica has committed, every replica has taken. -/
theorem committed_le_taken (h : Ordered n s) {i j : ℕ} (hi : i < n) (hj : j < n) : s.committed i ≤ s.taken j := by
  have hlast : n - 1 < n := by omega
  calc s.committed i ≤ s.committed (n - 1) := h.committed_mono (by omega) hlast
    _ ≤ s.applied (n - 1) := h.committed _ hlast
    _ ≤ s.taken (n - 1) := h.applied _ hlast
    _ ≤ s.taken j := h.taken_anti (by omega) hlast

/-- **Agreement.** Of two replicas one has committed a prefix of what the other has. -/
theorem committed_prefix (h : Ordered n s) {i j : ℕ} (hij : i ≤ j) (hj : j < n) :
    s.log.take (s.committed i) <+: s.log.take (s.committed j) :=
  List.take_prefix_take_left (h.committed_mono hij hj)

end Ordered

/-! ## Progress -/

/-- `s'` has all that `s` has -/
structure Grows (s s' : State α) : Prop where
  log : s.log <+: s'.log
  taken : ∀ i, s.taken i ≤ s'.taken i
  applied : ∀ i, s.applied i ≤ s'.applied i
  committed : ∀ i, s.committed i ≤ s'.committed i

theorem Grows.refl (s : State α) : Grows s s :=
  ⟨List.prefix_refl _, fun _ => le_rfl, fun _ => le_rfl, fun _ => le_rfl⟩

theorem Grows.trans {s t u : State α} (h : Grows s t) (h' : Grows t u) : Grows s u :=
  ⟨h.log.trans h'.log, fun i => (h.taken i).trans (h'.taken i), fun i => (h.applied i).trans (h'.applied i),
    fun i => (h.committed i).trans (h'.committed i)⟩

theorem move_grows {n : ℕ} {s s' : State α} (hm : Move n s s') : Grows s s' := by
  have hs := Grows.refl s
  cases hm with
  | stay => exact hs
  | append a => exact { hs with log := List.prefix_append _ _ }
  | take i hi h => exact { hs with taken := le_update _ _ }
  | apply i hi h => exact { hs with applied := le_update _ _ }
  | commit i hi h hnext => exact { hs with committed := le_update _ _ }

theorem moves_grow {n : ℕ} {s s' : State α} (hm : Moves n s s') : Grows s s' := by
  induction hm with
  | refl => exact Grows.refl s
  | tail _ hstep ih => exact ih.trans (move_grows hstep)

end ChainedBlockStorage.LogChain
