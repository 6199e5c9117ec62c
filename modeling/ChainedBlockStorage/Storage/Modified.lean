/-
`get_modified_offsets`: the blocks of the committed tree whose `last_updated` is above a number.

- `modifiedEntries_eq`: the nested loops list exactly these blocks, in block order.
- `committed_since`: a block that a run has changed since some point carries a number above the one committed there.
-/
import ChainedBlockStorage.Storage.Leaves
import ChainedBlockStorage.Storage.Loops
import ChainedBlockStorage.Storage.CrashSafe

namespace ChainedBlockStorage.Storage

open Radix Run

/-! ## The list -/

/-- `BLOCK_SIZE*(l + NUM_ENTRIES*(k + NUM_INDIRECT*(j + NUM_INDIRECT*i)))` -/
def modifiedOffset (i j k l : ℕ) : ℤ := blockSize * (l + numEntries * (k + numIndirect * (j + numIndirect * i)) : ℕ)

/-- the pairs of `get_modified_offsets`, with offsets as whole numbers -/
def modifiedEntries (v : Volume) (seqNum : ℤ) : List (ℤ × ℤ) :=
  (List.range numFirstLevel).flatMap fun i =>
    let first := v.firstBlock.firstLevelBlocks i
    if first = 0 then [] else
      (List.range numIndirect).flatMap fun j =>
        let second := (v.file.block first).asWords j
        if second = 0 then [] else
          (List.range numIndirect).flatMap fun k =>
            let third := (v.file.block second).asWords k
            if third = 0 then [] else
              (List.range numEntries).filterMap fun l =>
                let dataSeqNum := (v.file.block third).lastUpdated l
                if dataSeqNum > seqNum then some (modifiedOffset i j k l, dataSeqNum) else none

/-- offsets are computed in int: one of 2^31 or more is undefined -/
def getModifiedOffsets (v : Volume) (seqNum : ℤ) : Option (List (ℤ × ℤ)) :=
  if ∀ x ∈ modifiedEntries v seqNum, x.1 < 2 ^ 31 then some (modifiedEntries v seqNum) else none

/-- block `b` of the committed tree -/
def Volume.leaf (v : Volume) (b : ℕ) : Leaf := leafAt v.file v.committedRoot b

theorem leaf_committed {s : Driver} (h : Sound True s) (b : ℕ) : s.vol.leaf b = s.leaf s.committed b := by
  rw [Driver.leaf, h.root_committed]
  rfl

/-- the number of a block below the walk of the loops -/
theorem modifiedOffset_eq (j k l : ℕ) : modifiedOffset 0 j k l = 4096 * (l + 256 * (k + 512 * j) : ℕ) := by
  simp [modifiedOffset]

/-- **What is listed.** The loops run over the last-level blocks and their entries, in block order. -/
theorem modifiedEntries_eq (v : Volume) (seqNum : ℤ) :
    modifiedEntries v seqNum = ((List.range numBlocks).filter fun b =>
      node volShape (child v.file) v.committedRoot 2 (b / 256) ≠ 0 ∧ seqNum < (v.leaf b).updated).map fun b : ℕ =>
        (4096 * (b : ℤ), (v.leaf b).updated) := by
  have hroot : v.firstBlock.firstLevelBlocks 0 = v.committedRoot := rfl
  have hoff : ∀ j k l, modifiedOffset 0 j k l = 4096 * (((j * 512 + k) * 256 + l : ℕ) : ℤ) := fun j k l => by
    rw [modifiedOffset_eq]
    push_cast
    ring
  have hrange : List.range numBlocks = (List.range (volShape.cap 2)).flatMap fun t =>
      (List.range 256).map fun l => t * 256 + l := range_mul (volShape.cap 2) 256
  have hdiv : ∀ t l, l ∈ List.range 256 → (t * 256 + l) / 256 = t := fun t l hl => by
    have := List.mem_range.1 hl
    omega
  simp only [modifiedEntries, numFirstLevel_eq, List.range_one, List.flatMap_singleton, hroot, hoff]
  refine (metadata_loops v.file v.committedRoot fun t y => (List.range numEntries).filterMap fun l =>
    if (v.file.block y).lastUpdated l > seqNum
    then some (4096 * ((t * 256 + l : ℕ) : ℤ), (v.file.block y).lastUpdated l) else none).trans ?_
  rw [hrange, List.filter_flatMap, List.map_flatMap]
  refine List.flatMap_congr fun t _ => ?_
  rw [List.filter_map, List.map_map, ← filterMap_ite]
  split
  · next h0 =>
    refine (List.filterMap_eq_nil_iff.2 fun l hl => ?_).symm
    simp [hdiv t l hl, h0]
  · next h0 =>
    refine List.filterMap_congr fun l hl => ?_
    have hu : (v.leaf (t * 256 + l)).updated =
        (v.file.block (node volShape (child v.file) v.committedRoot 2 t)).lastUpdated l := by
      have hl' : l < 256 := List.mem_range.1 hl
      change leafUpdated v.file v.committedRoot (t * 256 + l) = _
      rw [leafUpdated, hdiv t l hl, if_neg h0, show (t * 256 + l) % 256 = l by omega]
    simp [hdiv t l hl, h0, hu]

theorem modifiedEntries_blocks (v : Volume) (seqNum : ℤ) :
    ∃ bs : List ℕ, bs.Pairwise (· < ·) ∧ (∀ b, b ∈ bs ↔ b < numBlocks ∧
      node volShape (child v.file) v.committedRoot 2 (b / 256) ≠ 0 ∧ seqNum < (v.leaf b).updated) ∧
      modifiedEntries v seqNum = bs.map fun b : ℕ => (4096 * (b : ℤ), (v.leaf b).updated) :=
  ⟨_, List.pairwise_lt_range.filter _, fun b => by rw [List.mem_filter, List.mem_range, decide_eq_true_eq],
    modifiedEntries_eq v seqNum⟩

/-- a last-level block that is absent has no entry above 0 -/
theorem mem_modifiedEntries (v : Volume) (seqNum : ℤ) (h0 : 0 ≤ seqNum) (x : ℤ × ℤ) :
    x ∈ modifiedEntries v seqNum ↔
      ∃ b : ℕ, b < 67108864 ∧ x = (4096 * (b : ℤ), (v.leaf b).updated) ∧ seqNum < (v.leaf b).updated := by
  simp only [modifiedEntries_eq, List.mem_map, List.mem_filter, List.mem_range, numBlocks_eq, decide_eq_true_eq]
  constructor
  · intro h
    obtain ⟨b, ⟨hb, -, hlt⟩, e⟩ := h
    exact ⟨b, hb, e.symm, hlt⟩
  · intro h
    obtain ⟨b, hb, e, hlt⟩ := h
    have hnode : node volShape (child v.file) v.committedRoot 2 (b / 256) ≠ 0 := fun hn => by
      have hzero : (v.leaf b).updated = 0 := if_pos hn
      omega
    exact ⟨b, ⟨hb, hnode, hlt⟩, e.symm⟩

/-- **The order.** -/
theorem modifiedEntries_sorted (v : Volume) (seqNum : ℤ) :
    (modifiedEntries v seqNum).Pairwise fun x y => x.1 < y.1 := by
  rw [modifiedEntries_eq, List.pairwise_map]
  refine (List.pairwise_lt_range.filter _).imp fun {a b} h => ?_
  simp only
  omega

/-! ## Numbers -/

theorem step_committed (s : Driver) (op : Op) : s.committed ≤ (s.step op).committed := by
  cases op <;> simp only [Driver.step] <;> repeat' split
  all_goals simp

theorem step_length (s : Driver) (op : Op) : s.writes.length ≤ (s.step op).writes.length := by
  cases op <;> simp only [Driver.step] <;> repeat' split
  all_goals simp

/-- a version that stays keeps its leaves; the leaves of a new one are those of its predecessor or carry its number -/
theorem step_leaf {s : Driver} {op : Op} (h : Sound True s) (hj : JunkUnused s op) {k : ℕ}
    (hc : (s.step op).committed ≤ k) (hk : k ≤ (s.step op).writes.length) (b : ℕ) (hb : b < 67108864) :
    s.committed ≤ k ∧ (k ≤ s.writes.length ∧ (s.step op).leaf k b = s.leaf k b ∨ k = s.writes.length + 1 ∧
      ((s.step op).leaf k b = s.leaf s.writes.length b ∨ ((s.step op).leaf k b).updated = s.next)) := by
  cases op with
  | write buf off junk =>
    by_cases ho : InRange off
    swap
    · simp only [Driver.step, if_neg ho] at hc hk ⊢
      exact ⟨hc, Or.inl ⟨hk, trivial⟩⟩
    have hl := leaves_written h ho hj
    have hs := step_write (s := s) ho buf junk
    rw [hs.committed] at hc
    rw [hs.writes, List.length_append, List.length_singleton] at hk
    refine ⟨hc, ?_⟩
    rcases Nat.lt_or_eq_of_le hk with hlt | rfl
    · exact Or.inl ⟨by omega, hl.old k hc (by omega) b hb⟩
    · refine Or.inr ⟨rfl, ?_⟩
      by_cases hT : Touches b (off, buf)
      · exact Or.inr (hl.updated b hb hT)
      · exact Or.inl (hl.other b hb hT)
  | commit =>
    rcases step_commit h with ⟨-, e⟩ | ⟨w, uw, c, hs⟩
    · rw [e] at hc hk ⊢
      exact ⟨hc, Or.inl ⟨hk, rfl⟩⟩
    rw [hs.committed] at hc
    rw [hs.writes] at hk
    exact ⟨by omega, Or.inl ⟨hk, leaves_committed h hs k hc hk b hb⟩⟩

/-- from version `j` on, every block is as in `base` or carries a number above that of version j -/
structure Since (base : ℕ → Leaf) (j : ℕ) (s : Driver) : Prop where
  sound : Sound True s
  le : j ≤ s.writes.length
  same : ∀ k, s.committed ≤ k → j ≤ k → k ≤ s.writes.length → ∀ b < 67108864,
    s.leaf k b = base b ∨ s.start + j < (s.leaf k b).updated

theorem step_since {base : ℕ → Leaf} {j : ℕ} (s : Driver) (op : Op) (h : Since base j s) (hj : JunkUnused s op) :
    Since base j (s.step op) where
  sound := step_sound s op h.sound (supplied_true s op)
  le := h.le.trans (step_length s op)
  same k hc hjk hk b hb := by
    have hle := h.le
    rw [step_start]
    obtain ⟨hc, ⟨hk, e⟩ | ⟨rfl, e | e⟩⟩ := step_leaf h.sound hj hc hk b hb
    · rw [e]
      exact h.same k hc hjk hk b hb
    · rw [e]
      exact h.same _ h.sound.le hle le_rfl b hb
    · rw [e, Driver.next]
      exact Or.inr (by omega)

/-- between two live versions a block changes only with its number -/
structure Stamps (s : Driver) : Prop where
  sound : Sound True s
  since : ∀ j, s.committed ≤ j → j ≤ s.writes.length → Since (s.leaf j) j s

theorem step_stamps (s : Driver) (op : Op) (h : Stamps s) (hj : JunkUnused s op) : Stamps (s.step op) := by
  have hsound := step_sound s op h.sound (supplied_true s op)
  refine ⟨hsound, fun j hc hk => ⟨hsound, hk, fun k hck hjk hkk b hb => ?_⟩⟩
  obtain ⟨hcj, ⟨hj', e⟩ | ⟨rfl, -⟩⟩ := step_leaf h.sound hj hc hk b hb
  · rw [e]
    exact (step_since s op (h.since j hcj hj') hj).same k hck hjk hkk b hb
  · -- the newest version
    obtain ⟨-, ⟨hk', -⟩ | ⟨rfl, -⟩⟩ := step_leaf h.sound hj hck hkk b hb
    · omega
    · exact Or.inl rfl

theorem stamps_open {c : Call} {start : ℤ} (h : Sound True (Driver.open start c)) : Stamps (Driver.open start c) := by
  refine ⟨h, fun j _ hj => ⟨h, hj, fun k _ hjk hk b _ => Or.inl ?_⟩⟩
  rw [show k = j by simp only [Driver.open, List.length_nil] at hj hk; omega]

/-- no block carries a number above that of its version -/
structure Bounded (s : Driver) : Prop where
  sound : Sound True s
  le : ∀ k, s.committed ≤ k → k ≤ s.writes.length → ∀ b < 67108864, (s.leaf k b).updated ≤ s.start + k

theorem step_bounded (s : Driver) (op : Op) (h : Bounded s) (hj : JunkUnused s op) : Bounded (s.step op) := by
  refine ⟨step_sound s op h.sound (supplied_true s op), fun k hc hk b hb => ?_⟩
  rw [step_start]
  obtain ⟨hc, ⟨hk, e⟩ | ⟨rfl, e | e⟩⟩ := step_leaf h.sound hj hc hk b hb
  · rw [e]
    exact h.le k hc hk b hb
  · have := h.le _ h.sound.le le_rfl b hb
    rw [e]
    push_cast
    omega
  · rw [e, Driver.next]
    push_cast
    omega

/-- **What is not listed has not changed.** In a run, let `t` be the state after its first part. A block of the
committed tree at the end is as in the committed tree of `t`, or carries a number above the one committed in t. -/
theorem committed_since {start : ℤ} {c : Call} (h : Sound True (Driver.open start c)) (es₁ es₂ : List Op)
    (hj : Meets Driver.step JunkUnused (Driver.open start c) (es₁ ++ es₂)) (b : ℕ) (hb : b < 67108864) :
    (run Driver.step (Driver.open start c) (es₁ ++ es₂)).vol.leaf b =
        (run Driver.step (Driver.open start c) es₁).vol.leaf b ∨
      start + (run Driver.step (Driver.open start c) es₁).committed <
        ((run Driver.step (Driver.open start c) (es₁ ++ es₂)).vol.leaf b).updated := by
  rw [meets_append] at hj
  have hstart : (run Driver.step (Driver.open start c) (es₁ ++ es₂)).start = start := run_start _ _
  have h1 : Stamps (run Driver.step (Driver.open start c) es₁) :=
    run_inv_of_meets Driver.step JunkUnused Stamps step_stamps _ es₁ (stamps_open h) hj.1
  set t := run Driver.step (Driver.open start c) es₁ with ht
  have h2 : Since (t.leaf t.committed) t.committed (run Driver.step t es₂) :=
    run_inv_of_meets Driver.step JunkUnused (Since _ _) step_since t es₂ (h1.since _ le_rfl h1.sound.le) hj.2
  have hmono : t.committed ≤ (run Driver.step t es₂).committed :=
    run_inv Driver.step (fun s => t.committed ≤ s.committed) (fun s op h => h.trans (step_committed s op)) t es₂ le_rfl
  rw [run_append, ← ht] at hstart ⊢
  rw [leaf_committed h2.sound, leaf_committed h1.sound, ← hstart]
  exact h2.same _ le_rfl hmono h2.sound.le b hb

end ChainedBlockStorage.Storage
