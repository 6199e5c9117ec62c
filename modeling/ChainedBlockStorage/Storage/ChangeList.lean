/-
`get_modified_offsets` as the code computes it: the offset is built in int, whose arithmetic wraps around.

- `exactList_iff`: the list is exact as long as every listed block lies below 2 GiB and was written.
- `change_list_exact`: which runs and numbers that leaves.
- `change_list_wraps`: the block at 2 GiB is listed at offset -2 GiB.
-/
import ChainedBlockStorage.Storage.History

namespace ChainedBlockStorage.Storage

open Radix Run

/-! ## The code -/

/-- the value of an int expression -/
def wrapInt (x : ℤ) : ℤ := Int.bmod x (2 ^ 32)

/-- `get_modified_offsets`; only the multiplication by BLOCK_SIZE can leave the int range -/
def getModifiedOffsetsInt (v : Volume) (seqNum : ℤ) : List (ℤ × ℤ) :=
  (modifiedEntries v seqNum).map fun x => (wrapInt x.1, x.2)

theorem wrapInt_eq {b : ℕ} (hb : 4096 * (b : ℤ) < 2 ^ 31) : wrapInt (4096 * b) = 4096 * b :=
  Int.bmod_eq_of_le (by norm_num; omega) (by norm_num; omega)

theorem wrapInt_lt (x : ℤ) : wrapInt x < 2 ^ 31 := by
  have h : wrapInt x < (((2 ^ 32 : ℕ) : ℤ) + 1) / 2 := Int.bmod_lt (by norm_num)
  norm_num at h ⊢
  exact h

/-! ## What it should list -/

/-- the number of the last committed write that touches block `b`; 0 if none does -/
def Driver.lastNumber (s : Driver) (b : ℕ) : ℤ :=
  if lastTouch s.writes b s.committed = 0 then 0 else s.start + lastTouch s.writes b s.committed

/-- some committed write touches block `b` -/
def Driver.Touched (s : Driver) (b : ℕ) : Prop := lastTouch s.writes b s.committed ≠ 0

/-- ascending, without repeats, exactly the blocks whose last committed write has a number above `k` -/
structure ExactList (s : Driver) (k : ℤ) (l : List (ℤ × ℤ)) : Prop where
  sorted : l.Pairwise fun x y => x.1 < y.1
  mem : ∀ x, x ∈ l ↔ ∃ b < numBlocks, s.Touched b ∧ k < s.lastNumber b ∧ x = (4096 * (b : ℤ), s.lastNumber b)

/-- block `b` has an entry above `k`, in a last-level block that is there -/
def Driver.Listed (s : Driver) (k : ℤ) (b : ℕ) : Prop := (∃ b', b' / 256 = b / 256 ∧ s.Touched b') ∧ k < s.lastNumber b

theorem getModifiedOffsetsInt_eq {s : Driver} (h : Traced s) (k : ℤ) :
    ∃ bs : List ℕ, bs.Pairwise (· < ·) ∧ (∀ b, b ∈ bs ↔ b < numBlocks ∧ s.Listed k b) ∧
      getModifiedOffsetsInt s.vol k = bs.map fun b : ℕ => (wrapInt (4096 * b), s.lastNumber b) := by
  have hle := h.sound.le
  have hroot : s.vol.committedRoot = s.root s.committed := h.sound.root_committed.symm
  have hupd : ∀ b < numBlocks, (s.vol.leaf b).updated = s.lastNumber b := fun b hb => by
    rw [leaf_committed h.sound]
    exact h.updated _ le_rfl hle b hb
  have hnode : ∀ b < numBlocks, node volShape (child s.vol.file) s.vol.committedRoot 2 (b / 256) ≠ 0 ↔
      ∃ b', b' / 256 = b / 256 ∧ s.Touched b' := by
    intro b hb
    rw [hroot]
    simp only [numBlocks_eq] at hb
    constructor
    · exact h.group _ le_rfl hle (b / 256) (by omega)
    · intro hx hn
      obtain ⟨b', he, hT⟩ := hx
      have hnum := (h.num _ le_rfl hle b' (by omega)).2 hT
      refine hnum ?_
      change child s.vol.file 2 (node volShape (child s.vol.file) (s.root s.committed) 2 (b' / 256)) (b' % 256) = 0
      rw [he, hn]
      exact child_zero _ _ _
  obtain ⟨bs, hsorted, hbs, hlist⟩ := modifiedEntries_blocks s.vol k
  refine ⟨bs, hsorted, fun b => ?_, ?_⟩
  · rw [hbs]
    refine and_congr_right fun hb => ?_
    rw [hnode b hb, hupd b hb]
    rfl
  · rw [getModifiedOffsetsInt, hlist, List.map_map]
    refine List.map_congr_left fun b hb => ?_
    rw [Function.comp_apply, hupd b ((hbs b).1 hb).1]

/-- **Exact lists.** -/
theorem exactList_iff {s : Driver} (h : Traced s) (k : ℤ) :
    ExactList s k (getModifiedOffsetsInt s.vol k) ↔
      ∀ b < numBlocks, s.Listed k b → s.Touched b ∧ 4096 * (b : ℤ) < 2 ^ 31 := by
  obtain ⟨bs, hsorted, hbs, hlist⟩ := getModifiedOffsetsInt_eq h k
  rw [hlist]
  constructor
  · intro he b hb hL
    obtain ⟨b', hb', hT, hk, e⟩ := (he.mem _).1 (List.mem_map_of_mem ((hbs b).2 ⟨hb, hL⟩))
    obtain ⟨e, -⟩ := Prod.ext_iff.1 e
    simp only at e
    -- block b' is listed at its own offset, which is the one b is listed at
    have hlow : 4096 * (b' : ℤ) < 2 ^ 31 := e ▸ wrapInt_lt _
    have hnodup : (bs.map fun c : ℕ => wrapInt (4096 * c)).Nodup := by
      have hlt := he.sorted
      rw [List.pairwise_map] at hlt
      rw [List.Nodup, List.pairwise_map]
      refine hlt.imp fun {a b} h => ?_
      simp only at h
      exact h.ne
    have hsame : b = b' := List.inj_on_of_nodup_map hnodup ((hbs b).2 ⟨hb, hL⟩)
      ((hbs b').2 ⟨hb', ⟨b', rfl, hT⟩, hk⟩) (e.trans (wrapInt_eq hlow).symm)
    exact ⟨hsame ▸ hT, hsame ▸ hlow⟩
  · intro hall
    have hwrap : ∀ b ∈ bs, wrapInt (4096 * (b : ℤ)) = 4096 * b := fun b hb => by
      obtain ⟨hb, hL⟩ := (hbs b).1 hb
      exact wrapInt_eq (hall b hb hL).2
    constructor
    · rw [List.pairwise_map]
      refine hsorted.imp_of_mem fun {a b} ha hb hab => ?_
      simp only [hwrap a ha, hwrap b hb]
      omega
    · intro x
      rw [List.mem_map]
      constructor
      · intro hx
        obtain ⟨b, hb, rfl⟩ := hx
        obtain ⟨hb', hL⟩ := (hbs b).1 hb
        exact ⟨b, hb', (hall b hb' hL).1, hL.2, by rw [hwrap b hb]⟩
      · intro hx
        obtain ⟨b, hb, hT, hk, rfl⟩ := hx
        have hm : b ∈ bs := (hbs b).2 ⟨hb, ⟨b, rfl, hT⟩, hk⟩
        exact ⟨b, hm, by rw [hwrap b hm]⟩

/-- no write of a number above `k` reaches 2 GiB; a negative `k` needs every block next to a touched one, in the same
last-level block, to be touched as well -/
structure FitsInt (s : Driver) (k : ℤ) : Prop where
  low : ∀ b < numBlocks, s.Touched b → k < s.start + lastTouch s.writes b s.committed → 4096 * (b : ℤ) < 2 ^ 31
  full : k < 0 → ∀ b < numBlocks, (∃ b', b' / 256 = b / 256 ∧ s.Touched b') → s.Touched b

theorem fitsInt_iff (s : Driver) (k : ℤ) :
    (∀ b < numBlocks, s.Listed k b → s.Touched b ∧ 4096 * (b : ℤ) < 2 ^ 31) ↔ FitsInt s k := by
  have hnum : ∀ b, s.Touched b → s.lastNumber b = s.start + lastTouch s.writes b s.committed := fun b hT => if_neg hT
  constructor
  · intro hall
    refine ⟨fun b hb hT hk => (hall b hb ⟨⟨b, rfl, hT⟩, by rw [hnum b hT]; exact hk⟩).2, fun hk b hb hx => ?_⟩
    by_contra hT
    have hzero : s.lastNumber b = 0 := if_pos (not_not.1 hT)
    exact hT (hall b hb ⟨hx, by rw [hzero]; exact hk⟩).1
  · intro hf b hb hL
    have hT : s.Touched b := by
      by_contra hT
      have hzero : s.lastNumber b = 0 := if_pos (not_not.1 hT)
      have hk := hL.2
      rw [hzero] at hk
      exact hT (hf.full hk b hb hL.1)
    exact ⟨hT, hf.low b hb hT (by rw [← hnum b hT]; exact hL.2)⟩

/-- **Exactly when the change list is exact**, in every state of an in-order run on a new file. -/
theorem change_list_exact (start : ℤ) (es : List Op)
    (hj : Meets Driver.step JunkUnused (Driver.open start (initVolume File.new)) es) (k : ℤ) :
    let s := run Driver.step (Driver.open start (initVolume File.new)) es
    ExactList s k (getModifiedOffsetsInt s.vol k) ↔ FitsInt s k := by
  intro s
  have h : Traced s := run_traced start es hj
  rw [exactList_iff h k]
  exact fitsInt_iff s k

/-- the first block behind 2 GiB and the one after it, committed -/
def writeAbove : List Op := [.write (fun _ => 7) (2 ^ 31 + 100) fun _ => 0, .commit]

theorem meets_writeAbove : Meets Driver.step JunkUnused Driver.new writeAbove := by
  refine ⟨fun _ x hx => ?_, trivial, trivial⟩
  obtain ⟨j, ⟨hr, -, -⟩, -⟩ := hx
  exact absurd hr (by decide)

/-- the block at 2^31 is listed at -2^31 -/
theorem change_list_wraps :
    ((-2147483648, 1) : ℤ × ℤ) ∈ getModifiedOffsetsInt (run Driver.step Driver.new writeAbove).vol 0 ∧
      ¬ ∀ (es : List Op) (k : ℤ), Meets Driver.step JunkUnused Driver.new es →
        ExactList (run Driver.step Driver.new es) k (getModifiedOffsetsInt (run Driver.step Driver.new es).vol k) := by
  have hm : ((-2147483648, 1) : ℤ × ℤ) ∈ getModifiedOffsetsInt (run Driver.step Driver.new writeAbove).vol 0 := by
    decide +kernel
  refine ⟨hm, fun hall => ?_⟩
  obtain ⟨b, -, -, -, e⟩ := ((hall writeAbove 0 meets_writeAbove).mem _).1 hm
  have := (Prod.ext_iff.1 e).1
  simp only at this
  omega

/-- two overlapping writes, the first one committed: the second is not listed -/
theorem change_list_exact_overlapping :
    ExactList (run Driver.step Driver.new [firstOp, secondOp, .commit]) 0
        (getModifiedOffsetsInt (run Driver.step Driver.new [firstOp, secondOp, .commit]).vol 0) ↔
      FitsInt (run Driver.step Driver.new [firstOp, secondOp, .commit]) 0 :=
  change_list_exact 0 [firstOp, secondOp, .commit] ⟨junkUnused_firstOp _, junkUnused_secondOp _, trivial, trivial⟩ 0

end ChainedBlockStorage.Storage
