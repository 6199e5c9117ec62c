/-
Nested loops over a radix tree that skip null pointers, against one loop over all keys.

- `scan`: `n` nested loops from a node down; `visit` is called with the key and the address of each node they end at.
- `scan_eq`: they visit the non-null nodes of their level in ascending order of key.
- `range_mul`, `filter_range_eq`, `filterMap_ite`: ranges level by level, and what a loop picks from one.
-/
import ChainedBlockStorage.Core.Radix

namespace ChainedBlockStorage.Radix

/-! ## Ranges -/

/-- two nested loops are one -/
theorem range_mul (n m : ℕ) : List.range (n * m) = (List.range n).flatMap fun i => (List.range m).map fun k => i * m + k := by
  induction n with
  | zero => simp
  | succ n ih => rw [Nat.succ_mul, List.range_add, ih, List.range_succ, List.flatMap_append]; simp

/-- the numbers below `n` with `p`, by their elements -/
theorem filter_range_eq (n : ℕ) (p : ℕ → Bool) (l : List ℕ) (hs : l.Pairwise (· < ·)) (hl : ∀ k, k ∈ l ↔ k < n ∧ p k) :
    (List.range n).filter p = l := by
  refine List.Perm.eq_of_pairwise (fun a b _ _ h h' => absurd h (lt_asymm h'))
    (List.pairwise_lt_range.filter p) hs ?_
  refine (List.perm_ext_iff_of_nodup (List.nodup_range.filter _) (hs.imp fun h => Nat.ne_of_lt h)).2 fun k => ?_
  rw [List.mem_filter, List.mem_range, hl]

/-- a loop that yields something at some numbers only -/
theorem filterMap_ite {β : Type} (l : List ℕ) (p : ℕ → Bool) (f : ℕ → β) :
    l.filterMap (fun k => if p k then some (f k) else none) = (l.filter p).map f := by
  induction l with
  | nil => rfl
  | cons k ks ih => cases hp : p k <;> simp [hp, ih]

/-! ## Loops over a tree -/

variable {A : Type} [Zero A] [DecidableEq A] {β : Type}

/-- `n` nested loops from the level-j node `x` with key `k` down -/
def scan (S : Shape) (child : ℕ → A → ℕ → A) (visit : ℕ → A → List β) : ℕ → ℕ → A → ℕ → List β
  | 0, _, x, k => visit k x
  | n + 1, j, x, k =>
    (List.range (S.fan j)).flatMap fun i =>
      if child j x i = 0 then [] else scan S child visit n (j + 1) (child j x i) (k * S.fan j + i)

/-- number of keys `n` levels below one key of level `j` -/
def Shape.width (S : Shape) : ℕ → ℕ → ℕ
  | _, 0 => 1
  | j, n + 1 => S.fan j * S.width (j + 1) n

theorem cap_mul_width (S : Shape) (j n : ℕ) : S.cap j * S.width j n = S.cap (j + n) := by
  induction n generalizing j with
  | zero => exact Nat.mul_one _
  | succ n ih =>
    rw [Shape.width, ← Nat.mul_assoc, Nat.add_comm n 1, ← Nat.add_assoc]
    exact ih (j + 1)

theorem up_add (S : Shape) (j n k t : ℕ) (ht : t < S.width j n) : up S j n (k * S.width j n + t) = k := by
  induction n generalizing j k t with
  | zero =>
    have h : t = 0 := by simpa [Shape.width] using ht
    simp [up, Shape.width, h]
  | succ n ih =>
    -- the key splits into the one of the child and the rest below it
    have hw : 0 < S.width (j + 1) n := Nat.pos_of_ne_zero fun h => by simp [Shape.width, h] at ht
    have hi : t / S.width (j + 1) n < S.fan j := Nat.div_lt_of_lt_mul (by rw [Nat.mul_comm]; exact ht)
    have hsplit : k * S.width j (n + 1) + t =
        (k * S.fan j + t / S.width (j + 1) n) * S.width (j + 1) n + t % S.width (j + 1) n := by
      conv_lhs => rw [← Nat.div_add_mod t (S.width (j + 1) n)]
      simp only [Shape.width]
      ring
    have hpos : 0 < S.fan j := Nat.zero_lt_of_lt hi
    calc up S j (n + 1) (k * S.width j (n + 1) + t) = (k * S.fan j + t / S.width (j + 1) n) / S.fan j := by
          rw [up, hsplit, ih (j + 1) _ _ (Nat.mod_lt _ hw)]
      _ = k := by rw [Nat.add_comm, Nat.add_mul_div_right _ _ hpos, Nat.div_eq_of_lt hi, Nat.zero_add]

theorem scan_node (S : Shape) (child : ℕ → A → ℕ → A) (visit : ℕ → A → List β) (r : A) (h0 : NullSafe child) (n j k : ℕ)
    (hx : node S child r j k ≠ 0) :
    scan S child visit n j (node S child r j k) k = (List.range (S.width j n)).flatMap fun t =>
      if node S child r (j + n) (k * S.width j n + t) = 0 then []
      else visit (k * S.width j n + t) (node S child r (j + n) (k * S.width j n + t)) := by
  induction n generalizing j k with
  | zero => simp [scan, Shape.width, hx]
  | succ n ih =>
    rw [scan, Shape.width, range_mul, List.flatMap_assoc]
    apply List.flatMap_congr
    intro i hi
    rw [← node_child S child r j k i (List.mem_range.1 hi), List.flatMap_map]
    have hkey : ∀ t, k * (S.fan j * S.width (j + 1) n) + (i * S.width (j + 1) n + t) =
        (k * S.fan j + i) * S.width (j + 1) n + t := fun t => by ring
    have hlevel : j + (n + 1) = j + 1 + n := by omega
    simp only [hkey, hlevel]
    split
    · next hc =>
      -- nothing hangs below a null pointer
      refine (List.flatMap_eq_nil_iff.2 fun t ht => if_pos ?_).symm
      exact node_below_null S child r h0 (j + 1) n _ (by rw [up_add S _ _ _ _ (List.mem_range.1 ht)]; exact hc)
    · next hc => exact ih (j + 1) _ hc

/-- **The loops visit their level in order.** -/
theorem scan_eq (S : Shape) (child : ℕ → A → ℕ → A) (visit : ℕ → A → List β) (r : A) (h0 : NullSafe child) (n : ℕ) :
    (if r = 0 then [] else scan S child visit n 0 r 0) = (List.range (S.cap n)).flatMap fun k =>
      if node S child r n k = 0 then [] else visit k (node S child r n k) := by
  split
  · next h =>
    refine (List.flatMap_eq_nil_iff.2 fun k _ => if_pos ?_).symm
    rw [h, node_null S child h0]
  · next h =>
    have hw : S.width 0 n = S.cap n := by
      rw [← Nat.one_mul (S.width 0 n), ← Nat.zero_add n, ← cap_mul_width S 0 n, Nat.zero_add]
      rfl
    have hs : scan S child visit n 0 r 0 = _ := scan_node S child visit r h0 n 0 0 h
    simpa [hw] using hs

end ChainedBlockStorage.Radix
