/-
`Storage::checksum`: the MD5 digests of the data blocks of the committed tree, hashed once more.

MD5 itself is a parameter; `digests id` lists what it is applied to. A block that was never written has no entry in the
tree and contributes no digest, and a digest does not say which block it is of.

- `digests_traced`: one digest for each block that a committed write touched, in the order of their offsets.
- `digests_eq_iff`: equal digests mean equal contents of the written blocks, taken in order.
- `checksum_loses_position`: the same data in another block gives the same digests.
-/
import ChainedBlockStorage.Storage.History
import ChainedBlockStorage.Storage.Loops

namespace ChainedBlockStorage.Storage

open Radix Run

/-! ## The code -/

/-- the BLOCK_SIZE bytes that are handed to MD5 -/
def blockBytes (data : Buf) : List UInt8 := (List.range blockSize).map data

/-- `results` -/
def digests {δ : Type} (md5 : List UInt8 → δ) (v : Volume) : List δ :=
  (List.range numFirstLevel).flatMap fun i =>
    let first := v.firstBlock.firstLevelBlocks i
    if first = 0 then [] else
      (List.range numIndirect).flatMap fun j =>
        let second := (v.file.block first).asWords j
        if second = 0 then [] else
          (List.range numIndirect).flatMap fun k =>
            let third := (v.file.block second).asWords k
            if third = 0 then [] else
              (List.range numEntries).filterMap fun l =>
                let data := (v.file.block third).fileBlockNum l
                if data = 0 then none else some (md5 (blockBytes (v.file.block data).asBytes))

/-- `ss << std::hex << (int) byte` for each byte: no leading zeros -/
def hexString (bytes : List UInt8) : String := String.join (bytes.map fun b => String.ofList (Nat.toDigits 16 b.toNat))

def checksum (md5 : List UInt8 → List UInt8) (v : Volume) : String := hexString (md5 (digests md5 v).flatten)

/-! ## What is hashed -/

section Digests

variable {δ : Type} (md5 : List UInt8 → δ)

/-- one digest for each leaf of the committed tree -/
theorem digests_eq (v : Volume) :
    digests md5 v = ((List.range numBlocks).filter fun b => (v.leaf b).num ≠ 0).map fun b =>
      md5 (blockBytes (v.leaf b).data) := by
  have hnum : ∀ b, (v.leaf b).num = node volShape (child v.file) v.committedRoot 3 b := fun _ => rfl
  have hdata : ∀ b, (v.leaf b).data = if (v.leaf b).num = 0 then fun _ => 0 else (v.file.block (v.leaf b).num).asBytes :=
    fun _ => rfl
  have hpick : ∀ bs : List ℕ, (bs.filterMap fun b =>
      if node volShape (child v.file) v.committedRoot 3 b = 0 then none
      else some (md5 (blockBytes (v.file.block (node volShape (child v.file) v.committedRoot 3 b)).asBytes))) =
      (bs.filter fun b => (v.leaf b).num ≠ 0).map fun b => md5 (blockBytes (v.leaf b).data) := by
    intro bs
    rw [← filterMap_ite]
    refine List.filterMap_congr fun b _ => ?_
    by_cases h : (v.leaf b).num = 0
    · simp [h, ← hnum]
    · simp [h, ← hnum, hdata]
  have hloops := data_loops v.file v.committedRoot fun x => md5 (blockBytes (v.file.block x).asBytes)
  rw [hpick] at hloops
  have hcap : numBlocks = volShape.cap 3 := by rw [numBlocks_eq, cap_three]
  have hroot : v.firstBlock.firstLevelBlocks 0 = v.committedRoot := rfl
  rw [hcap]
  simp only [digests, numFirstLevel_eq, List.range_one, List.flatMap_singleton, hroot]
  exact hloops

/-- the digests are those of what is hashed -/
theorem digests_map (v : Volume) : digests md5 v = (digests id v).map md5 := by
  simp only [digests_eq, List.map_map, Function.comp_def, id_eq]

/-- volumes with the same leaves have the same digests -/
theorem digests_congr {v w : Volume} (h : ∀ b < numBlocks, v.leaf b = w.leaf b) : digests md5 v = digests md5 w := by
  rw [digests_eq, digests_eq]
  have hfilter : (List.range numBlocks).filter (fun b => (v.leaf b).num ≠ 0) =
      (List.range numBlocks).filter fun b => (w.leaf b).num ≠ 0 :=
    List.filter_congr fun b hb => by rw [h b (List.mem_range.1 hb)]
  rw [hfilter]
  refine List.map_congr_left fun b hb => ?_
  rw [h b (List.mem_range.1 (List.mem_filter.1 hb).1)]

/-- the blocks that a committed write touches, in the order of their offsets -/
def writtenBlocks (s : Driver) : List ℕ :=
  (List.range numBlocks).filter fun b => lastTouch s.writes b s.committed ≠ 0

/-- **What `checksum` hashes.** -/
theorem digests_traced {s : Driver} (h : Traced s) (hc : s.committed = s.writes.length) :
    digests md5 s.vol = (writtenBlocks s).map fun b => md5 (blockBytes (read s.vol (4096 * (b : ℕ)))) := by
  have hfilter : (List.range numBlocks).filter (fun b => (s.vol.leaf b).num ≠ 0) = writtenBlocks s := by
    refine List.filter_congr fun b hb => ?_
    have hb' : b < 67108864 := List.mem_range.1 hb
    have := h.num s.committed le_rfl h.sound.le b hb'
    rw [leaf_committed h.sound]
    exact decide_eq_decide.2 this
  rw [digests_eq, hfilter]
  refine List.map_congr_left fun b hb => ?_
  rw [read_traced h hc b (List.mem_range.1 (List.mem_filter.1 hb).1)]

/-- a block that was never written reads as zeros -/
theorem read_unwritten {s : Driver} (h : Traced s) (hc : s.committed = s.writes.length) {b : ℕ} (hb : b < 67108864)
    (hw : b ∉ writtenBlocks s) : read s.vol (4096 * b) = fun _ => 0 := by
  have h0 : ¬ (s.leaf s.committed b).num ≠ 0 := by
    rw [h.num s.committed le_rfl h.sound.le b hb]
    intro hne
    exact hw (List.mem_filter.2 ⟨List.mem_range.2 hb, by simpa using hne⟩)
  rw [read_traced h hc b hb, leaf_committed h.sound, leaf_data, if_pos (not_not.1 h0)]

end Digests

theorem blockBytes_eq (x y : Buf) : blockBytes x = blockBytes y ↔ ∀ p < blockSize, x p = y p := by
  unfold blockBytes
  constructor
  · intro h p hp
    exact List.map_inj_left.1 h p (List.mem_range.2 hp)
  · intro h
    exact List.map_congr_left fun p hp => h p (List.mem_range.1 hp)

/-! ## Two volumes -/

/-- the contents of the written blocks, in order -/
def contents (s : Driver) : List (List UInt8) :=
  (writtenBlocks s).map fun b => blockBytes (read s.vol (4096 * (b : ℕ)))

/-- `read` returns the same bytes at every block-aligned offset -/
def SameReads (v w : Volume) : Prop :=
  ∀ b < numBlocks, ∀ p < blockSize, read v (4096 * (b : ℕ)) p = read w (4096 * (b : ℕ)) p

/-- no two different inputs of MD5 in the two volumes have the same digest -/
def CollisionFree {δ : Type} (md5 : List UInt8 → δ) (v w : Volume) : Prop :=
  ∀ x ∈ digests id v ++ digests id w, ∀ y ∈ digests id v ++ digests id w, md5 x = md5 y → x = y

/-- a function that is injective on what occurs is injective on lists of it -/
theorem map_inj_of_mem {α δ : Type} {f : α → δ} (l l' : List α) (h : ∀ x ∈ l, ∀ y ∈ l', f x = f y → x = y) :
    l.map f = l'.map f ↔ l = l' := by
  induction l generalizing l' with
  | nil => cases l' <;> simp
  | cons x l ih =>
    cases l' with
    | nil => simp
    | cons y l' =>
      have hxy := h x List.mem_cons_self y List.mem_cons_self
      have hrest := ih l' fun a ha b hb => h a (List.mem_cons_of_mem x ha) b (List.mem_cons_of_mem y hb)
      rw [List.map_cons, List.map_cons, List.cons.injEq, List.cons.injEq, hrest]
      exact and_congr_left fun _ => ⟨hxy, fun e => by rw [e]⟩

theorem digests_inj {δ : Type} {md5 : List UInt8 → δ} {v w : Volume} (h : CollisionFree md5 v w) :
    digests md5 v = digests md5 w ↔ digests id v = digests id w := by
  rw [digests_map md5 v, digests_map md5 w]
  exact map_inj_of_mem _ _ fun x hx y hy => h x (List.mem_append_left _ hx) y (List.mem_append_right _ hy)

/-- **What equal digests mean.** The volumes of two in-order runs on new files with nothing uncommitted have equal
digests if and only if they have equally many written blocks and these hold the same bytes in order; so where the same
blocks are written, if and only if they read the same everywhere. -/
theorem digests_eq_iff {δ : Type} (md5 : List UInt8 → δ) (start₁ start₂ : ℤ) (es₁ es₂ : List Op)
    (hj₁ : Meets Driver.step JunkUnused (Driver.open start₁ (initVolume File.new)) es₁)
    (hj₂ : Meets Driver.step JunkUnused (Driver.open start₂ (initVolume File.new)) es₂) :
    let s := run Driver.step (Driver.open start₁ (initVolume File.new)) es₁
    let t := run Driver.step (Driver.open start₂ (initVolume File.new)) es₂
    s.committed = s.writes.length → t.committed = t.writes.length → CollisionFree md5 s.vol t.vol →
      (digests md5 s.vol = digests md5 t.vol ↔ contents s = contents t) ∧
        (writtenBlocks s = writtenBlocks t → (digests md5 s.vol = digests md5 t.vol ↔ SameReads s.vol t.vol)) := by
  intro s t hs ht hcol
  have h1 : Traced s := run_traced start₁ es₁ hj₁
  have h2 : Traced t := run_traced start₂ es₂ hj₂
  have hiff : digests md5 s.vol = digests md5 t.vol ↔ contents s = contents t := by
    rw [digests_inj hcol, digests_traced id h1 hs, digests_traced id h2 ht]
    simp only [contents, id_eq]
  refine ⟨hiff, fun hw => ?_⟩
  rw [hiff, contents, contents, ← hw, List.map_inj_left]
  constructor
  · intro he b hb p hp
    by_cases hm : b ∈ writtenBlocks s
    · exact (blockBytes_eq _ _).1 (he b hm) p hp
    · rw [read_unwritten h1 hs hb hm, read_unwritten h2 ht hb (hw ▸ hm)]
  · intro he b hb
    exact (blockBytes_eq _ _).2 (he b (List.mem_range.1 (List.mem_filter.1 hb).1))

/-- block `b` filled with sevens, and committed -/
def oneBlock (b : ℕ) : List Op := [.write (fun _ => 7) (4096 * b) fun _ => 0, .commit]

/-- the volume after `oneBlock b` -/
structure OneBlock (b : ℕ) (s : Driver) : Prop where
  traced : Traced s
  done : s.committed = s.writes.length
  written : writtenBlocks s = [b]
  read : read s.vol (4096 * b) = fun _ => 7

theorem meets_oneBlock {b : ℕ} (hb : b < 256) : Meets Driver.step JunkUnused Driver.new (oneBlock b) :=
  ⟨junkUnused_low hb _ _ _, trivial, trivial⟩

theorem oneBlock_run {b : ℕ} (hb : b < 256) : OneBlock b (run Driver.step Driver.new (oneBlock b)) := by
  have ho : InRange (4096 * b) := by
    unfold InRange
    simp only [volumeSize_eq, blockSize_eq]
    omega
  have ha : remOf (4096 * b) = 0 := by unfold remOf; omega
  have hblock : blockOf (4096 * b) = b := by unfold blockOf; omega
  set s := Driver.new.step (.write (fun _ => 7) (4096 * b) fun _ => 0)
  have hs : Written Driver.new s _ _ _ := step_write ho (fun _ => 7) fun _ => 0
  have hw : s.writes = [((4096 * b : ℤ), fun _ => (7 : UInt8))] := hs.writes
  have hc : s.committed = 0 := hs.committed
  have hnew : Newest s (4096 * b) fun _ => 7 := newest_written sound_new ho ha _ _ (junkUnused_low hb _ _ _)
  have hrun : run Driver.step Driver.new (oneBlock b) = s.step .commit := rfl
  rcases step_commit hnew.sound with ⟨he, -⟩ | ⟨w, uw, c, hs'⟩
  · rw [hc, hw] at he
    simp at he
  have hdone : (s.step .commit).committed = (s.step .commit).writes.length := by
    rw [hs'.committed, hs'.writes, hc, hw]
    rfl
  refine ⟨run_traced 0 _ (meets_oneBlock hb), hrun ▸ hdone, ?_, ?_⟩
  · rw [hrun, writtenBlocks, hs'.writes, hs'.committed, hw, hc, numBlocks_eq]
    refine filter_range_eq _ _ [b] (List.pairwise_singleton _ _) fun k => ?_
    have hT : Touches k ((4096 * b : ℤ), fun _ => (7 : UInt8)) ↔ k = b := by
      rw [touches_iff ho, ha, hblock]
      simp
    simp [lastTouch, hT]
    omega
  · rw [hrun]
    exact read_committed ho ha (newest_commit ho hnew) hdone

/-- the digests do not say where the data is: sevens in block 0 against sevens in block 1 -/
theorem checksum_loses_position :
    ¬ ∀ (md5 : List UInt8 → List UInt8) (es₁ es₂ : List Op), Meets Driver.step JunkUnused Driver.new es₁ →
      Meets Driver.step JunkUnused Driver.new es₂ →
      (run Driver.step Driver.new es₁).committed = (run Driver.step Driver.new es₁).writes.length →
      (run Driver.step Driver.new es₂).committed = (run Driver.step Driver.new es₂).writes.length →
      CollisionFree md5 (run Driver.step Driver.new es₁).vol (run Driver.step Driver.new es₂).vol →
      (digests md5 (run Driver.step Driver.new es₁).vol = digests md5 (run Driver.step Driver.new es₂).vol ↔
        SameReads (run Driver.step Driver.new es₁).vol (run Driver.step Driver.new es₂).vol) := by
  intro hall
  have h0 := oneBlock_run (b := 0) (by decide)
  have h1 := oneBlock_run (b := 1) (by decide)
  have hiff := hall id (oneBlock 0) (oneBlock 1) (meets_oneBlock (by decide)) (meets_oneBlock (by decide)) h0.done h1.done
    fun x _ y _ e => e
  have hsame : digests id (run Driver.step Driver.new (oneBlock 0)).vol =
      digests id (run Driver.step Driver.new (oneBlock 1)).vol := by
    rw [digests_traced id h0.traced h0.done, digests_traced id h1.traced h1.done, h0.written, h1.written]
    simp only [List.map_cons, List.map_nil, h0.read, h1.read]
  have hread := hiff.1 hsame 0 (by decide) 0 (by decide)
  rw [h0.read, read_unwritten h1.traced h1.done (by decide) (by rw [h1.written]; simp)] at hread
  exact absurd hread (by decide)

theorem digests_eq_iff_one_block :
    digests id (run Driver.step Driver.new (oneBlock 0)).vol = digests id (run Driver.step Driver.new (oneBlock 1)).vol ↔
      contents (run Driver.step Driver.new (oneBlock 0)) = contents (run Driver.step Driver.new (oneBlock 1)) :=
  (digests_eq_iff id 0 0 (oneBlock 0) (oneBlock 1) (meets_oneBlock (by decide)) (meets_oneBlock (by decide))
    (oneBlock_run (by decide)).done (oneBlock_run (by decide)).done fun _ _ _ _ e => e).1

end ChainedBlockStorage.Storage
