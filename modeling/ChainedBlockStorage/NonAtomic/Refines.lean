/-
The non-atomic volume as a block map, and its change list and checksum.

`storage-nonatomic.cpp` implements the block map of `Storage/Image` as well: the committed image is its table, entry by
entry, and the queue is the list of uncommitted writes.

- `entries_and_queue`: in every in-order run in which no write frees a block twice and no unaligned write reads past an
  uncommitted one, the volume is a run of `Spec`; the change list is that of the committed image for offsets of any
  size; `checksum` takes the written blocks of the committed image, but their bytes from the newest one.
-/
import ChainedBlockStorage.NonAtomic.Answers
import ChainedBlockStorage.Storage.Image

namespace ChainedBlockStorage.NonAtomic

open Positions Radix Run
open Storage (Block Buf File Op InRange blockOf remOf Touches Covers Image Cell Spec blockSize numBlocks blockBytes hexString
  fillFrom fillUpTo inRange_parts numBlocks_eq)

/-! ## The code -/

def getModifiedOffsets (v : Volume) (seqNum : ℤ) : List (ℤ × ℤ) :=
  (List.range numBlocks).filterMap fun i : ℕ =>
    let entry := readMetadata v.file (blockSize * i)
    if entry.lastUpdated > seqNum then some (blockSize * i, entry.lastUpdated) else none

/-- `results` -/
def digests {δ : Type} (md5 : List UInt8 → δ) (v : Volume) : List δ :=
  (List.range numBlocks).filterMap fun i : ℕ =>
    let entry := readMetadata v.file (blockSize * i)
    if entry.fileBlockNum ≠ 0 then some (md5 (blockBytes (readAligned v (blockSize * i)))) else none

def checksum (md5 : List UInt8 → List UInt8) (v : Volume) : String := hexString (md5 (digests md5 v).flatten)

/-! ## The abstraction -/

/-- the table as a block map -/
def Volume.image (v : Volume) : Image := fun b =>
  if b < numBlocks then ⟨entryNum v.file b ≠ 0, fun p => entryData v b p, (readMetadata v.file (4096 * b)).lastUpdated⟩
  else Cell.absent

def Driver.spec (t : Driver) : Spec := ⟨t.vol.image, t.start + t.committed, t.writes.drop t.committed⟩

/-- the image with the writes up to position `k` in it -/
def Driver.version (t : Driver) (k : ℕ) : Image :=
  t.vol.image.writeAll (t.start + t.committed) ((t.writes.take k).drop t.committed)

/-- an uncommitted write touches block `b` -/
def Driver.Queued (t : Driver) (b : ℕ) : Prop := ∃ w ∈ t.writes.drop t.committed, Touches b w

/-- block `b` is read as the newest write has left it: it is pending, or every write of it is committed -/
def Driver.Shown (t : Driver) (b : ℕ) : Prop := t.Queued b → t.vol.pendingBlocks (4096 * b) ≠ none

/-- an unaligned write reads the newest bytes of its two blocks -/
def ReadsNewest (t : Driver) : Op → Prop
  | .write _ off _ => InRange off → remOf off ≠ 0 → t.Shown (blockOf off) ∧ t.Shown (blockOf off + 1)
  | .commit => True

theorem image_at (v : Volume) {b : ℕ} (hb : b < 67108864) : v.image b =
    ⟨entryNum v.file b ≠ 0, fun p => entryData v b p, (readMetadata v.file (4096 * b)).lastUpdated⟩ :=
  if_pos (numBlocks_eq ▸ hb)

theorem image_past (v : Volume) {b : ℕ} (hb : ¬ b < 67108864) : v.image b = Cell.absent := if_neg (numBlocks_eq ▸ hb)

/-! ## Versions -/

section Version

variable {t : Driver}

theorem version_committed (t : Driver) : t.version t.committed = t.vol.image := by
  rw [Driver.version, List.drop_of_length_le (by rw [List.length_take]; omega)]
  rfl

theorem version_newest (t : Driver) : t.version t.writes.length = t.spec.newest := by
  rw [Driver.version, List.take_length]
  rfl

theorem version_next {k : ℕ} (hc : t.committed ≤ k) {w : ℤ × Buf} (hw : t.writes[k]? = some w) :
    t.version (k + 1) = (t.version k).write (t.start + k + 1) w := by
  have hk := (List.getElem?_eq_some_iff.1 hw).1
  have hlen : ((t.writes.take k).drop t.committed).length = k - t.committed := by
    rw [List.length_drop, List.length_take]
    omega
  rw [Driver.version, List.take_add_one, hw, Option.toList_some,
    List.drop_append_of_le_length (by rw [List.length_take]; omega), Storage.writeAll_snoc, hlen]
  congr 1
  omega

/-- a block keeps its cell from version `k` to version `l` when no write between touches it -/
theorem version_kept {k l b : ℕ} (hc : t.committed ≤ k) (hkl : k ≤ l) (hl : l ≤ t.writes.length)
    (h : ∀ j, k ≤ j → ∀ w, t.writes[j]? = some w → ¬ Touches b w) : t.version l b = t.version k b := by
  induction l, hkl using Nat.le_induction with
  | base => rfl
  | succ l hkl ih =>
    have hw : t.writes[l]? = some t.writes[l] := List.getElem?_eq_getElem hl
    rw [version_next (hc.trans hkl) hw, Image.write, if_neg (h l hkl _ hw)]
    exact ih (by omega)

/-- without an uncommitted write the newest cell is the committed one -/
theorem version_unqueued (h : Owned t) {b : ℕ} (hq : ¬ t.Queued b) : t.version t.writes.length b = t.vol.image b := by
  rw [version_kept le_rfl h.le le_rfl fun j hj w hw hT => hq ⟨w, ?_, hT⟩, version_committed]
  have hlt := (List.getElem?_eq_some_iff.1 hw).1
  rw [List.mem_iff_getElem?]
  exact ⟨j - t.committed, by rw [List.getElem?_drop, Nat.add_sub_cancel' hj, hw]⟩

end Version

/-! ## The invariant -/

/-- the data blocks of an uncommitted write hold what its version holds -/
structure Flat (t : Driver) : Prop where
  owned : Owned t
  parts : ∀ k w i, t.committed ≤ k → t.writes[k]? = some w → Part w.1 i → ∀ p : Fin blockSize,
    (t.vol.file.block (t.dataNum k i)).asBytes p = (t.version (k + 1) (blockOf w.1 + i)).data p
  number : getSequenceNumber t.vol = if t.committed = 0 then 0 else t.start + t.committed

/-- **A block is read as in the newest image.** -/
theorem Flat.readAligned_eq {t : Driver} (h : Flat t) {b : ℕ} (hb : b < 67108864) (hs : t.Shown b) (p : Fin blockSize) :
    readAligned t.vol (4096 * b) p = (t.version t.writes.length b).data p := by
  cases hp : t.vol.pendingBlocks (4096 * b) with
  | some x =>
    obtain ⟨k, i, hl, rfl⟩ := h.owned.pending b hb x hp
    obtain ⟨hc, w, hw, hi⟩ := hl.live
    have hk := (List.getElem?_eq_some_iff.1 hw).1
    have hblock := hl.block w hw
    calc readAligned t.vol (4096 * b) p = (t.vol.file.block (t.dataNum k i)).asBytes p := by rw [readAligned, hp]
      _ = (t.version (k + 1) b).data p := by rw [hblock, h.parts k w i hc hw hi p]
      _ = (t.version t.writes.length b).data p := by
        rw [version_kept (by omega) hk le_rfl fun j hj => hl.last j hj]
  | none =>
    have hq : ¬ t.Queued b := fun hq => hs hq hp
    calc readAligned t.vol (4096 * b) p = entryData t.vol b p := by
          rw [readAligned, hp]
          rfl
      _ = (t.version t.writes.length b).data p := by rw [version_unqueued h.owned hq, image_at _ hb]

/-! ## One write -/

section Write

variable {t t' : Driver} {off : ℤ} {buf : Buf} {uw : UncommittedWrite}

theorem Written.image_eq (hs : Written t t' off buf uw) : t'.vol.image = t.vol.image := by
  funext b
  by_cases hb : b < 67108864
  swap
  · rw [image_past _ hb, image_past _ hb]
  have hdata : entryData t'.vol b = entryData t.vol b := by
    rw [entryData, entryData, hs.entryNum_eq hb]
    split
    · next hne => rw [hs.kept (Or.inl (entryNum_used hb hne))]
    · rfl
  rw [image_at _ hb, image_at _ hb, hs.entryNum_eq hb, hdata, hs.readMetadata_eq hb]

theorem Written.version_eq (hs : Written t t' off buf uw) {k : ℕ} (hk : k ≤ t.writes.length) :
    t'.version k = t.version k := by
  rw [Driver.version, Driver.version, hs.image_eq, hs.start, hs.committed, hs.writes,
    List.take_append_of_le_length hk]

theorem Written.version_new (hs : Written t t' off buf uw) (h : Owned t) :
    t'.version (t.writes.length + 1) = (t.version t.writes.length).write t.next (off, buf) := by
  rw [version_next (by rw [hs.committed]; exact h.le) hs.new, hs.version_eq le_rfl, hs.start]
  rfl

/-- the bytes of its first block that a write covers -/
theorem covers_fst (ho : InRange off) (buf : Buf) {p : ℕ} (hp : p < 4096) :
    Covers (off, buf) (4096 * ((blockOf off + 0 : ℕ) : ℤ) + p) ↔ remOf off ≤ p := by
  obtain ⟨hoff, -, -, -⟩ := inRange_parts ho
  simp only [Covers, Storage.blockSize_eq]
  omega

/-- and those of its second one -/
theorem covers_snd (ho : InRange off) (buf : Buf) {p : ℕ} (hp : p < 4096) :
    Covers (off, buf) (4096 * ((blockOf off + 1 : ℕ) : ℤ) + p) ↔ p < remOf off := by
  obtain ⟨hoff, hr, -, -⟩ := inRange_parts ho
  simp only [Covers, Storage.blockSize_eq]
  omega

/-- both blocks of the write hold its bytes, and around them what was read there -/
theorem Written.part_eq (hs : Written t t' off buf uw) (h : Flat t) (ho : InRange off)
    (hr : remOf off ≠ 0 → t.Shown (blockOf off) ∧ t.Shown (blockOf off + 1)) {i : ℕ} (hi : Part off i)
    (p : Fin blockSize) : (t'.vol.file.block (uw.newFileOffset i)).asBytes p =
      (t'.version (t.writes.length + 1) (blockOf off + i)).data p := by
  obtain ⟨hoff, hlt, hb0, hb1⟩ := inRange_parts ho
  have hp4 : (p : ℕ) < 4096 := p.isLt
  have hT : Touches (blockOf off + i) (off, buf) := (touches_iff_part ho buf _).2 ⟨i, hi, rfl⟩
  rw [hs.version_new h.owned, Image.write, if_pos hT]
  rcases hi with rfl | ⟨rfl, hr0⟩
  · simp only [hs.ok.fst, Storage.asBytes_bytes, fillFrom, covers_fst ho buf hp4]
    split
    · next hin =>
      congr 1
      omega
    · next hin => exact h.readAligned_eq hb0 (hr (by omega)).1 p
  · simp only [hs.ok.snd hr0, Storage.asBytes_bytes, fillUpTo, covers_snd ho buf hp4]
    split
    · next hin =>
      have hpos : ((4096 * ((blockOf off + 1 : ℕ) : ℤ) + (p : ℕ) - off).toNat : ℕ) = 4096 - remOf off + (p : ℕ) := by
        omega
      rw [hpos]
      rfl
    · next hin => exact h.readAligned_eq (hb1 hr0) (hr hr0).2 p

theorem flat_written (h : Flat t) (ho : InRange off) (hs : Written t t' off buf uw) (hf : FreedOnce t off)
    (hr : remOf off ≠ 0 → t.Shown (blockOf off) ∧ t.Shown (blockOf off + 1)) : Flat t' := by
  refine ⟨owned_written h.owned ho hs hf, fun k w i hc hw hi p => ?_, ?_⟩
  · rw [hs.committed] at hc
    rw [hs.dataNum_eq]
    rcases hs.write hw with ⟨hw, hk⟩ | ⟨rfl, rfl⟩
    · have hlive : t.Live (.data k i) := ⟨hc, w, hw, hi⟩
      rw [if_neg (by omega), hs.version_eq hk, hs.kept (Or.inl (dataNum_used hlive))]
      exact h.parts k w i hc hw hi p
    · rw [if_pos rfl]
      exact hs.part_eq h ho hr hi p
  · rw [getSequenceNumber, readSequenceNum, hs.kept (Or.inr (by decide)), hs.committed, hs.start]
    exact h.number

end Write

/-! ## One commit -/

section Commit

variable {t t' : Driver} {w : ℤ × Buf} {uw : UncommittedWrite}

/-- the entries of the write get its number -/
theorem Committed.updated_part (hs : Committed t t' w uw) (ho : InRange w.1) {i : ℕ} (hi : Part w.1 i) :
    (readMetadata t'.vol.file (4096 * (blockOf w.1 + i : ℕ))).lastUpdated = t.start + t.committed + 1 := by
  have hlt := hi.lt ho
  rcases hi with rfl | ⟨rfl, hr⟩
  · rw [hs.fst _ hlt rfl]
  · rw [hs.snd _ hlt hr rfl]

/-- **A commit writes the oldest write of the queue into the table.** -/
theorem Committed.image_eq (hs : Committed t t' w uw) (h : Flat t) :
    t'.vol.image = t.vol.image.write (t.start + t.committed + 1) w := by
  have ho : InRange w.1 := h.owned.inRange w (List.mem_of_getElem? hs.write)
  funext b
  by_cases hb : b < 67108864
  swap
  · rw [image_past _ hb, Image.write, if_neg (Storage.not_touches_outside ho w.2 hb), image_past _ hb]
  by_cases hT : Touches b w
  · have hnext := congrFun (version_next le_rfl hs.write) b
    rw [version_committed] at hnext
    obtain ⟨i, hi, rfl⟩ := (touches_iff_part ho w.2 b).1 hT
    have hlive : t.Live (.data t.committed i) := ⟨le_rfl, w, hs.write, hi⟩
    have hlow := h.owned.num_low hlive
    rw [Driver.num] at hlow
    have hne : t.dataNum t.committed i ≠ 0 := by omega
    have hdata : ∀ p : Fin blockSize, entryData t'.vol (blockOf w.1 + i) p =
        (t.vol.image.write (t.start + t.committed + 1) w (blockOf w.1 + i)).data p := fun p => by
      rw [← hnext, ← h.parts t.committed w i le_rfl hs.write hi p, entryData, hs.entryNum_part ho hi, if_pos hne,
        hs.kept _ (by omega)]
    rw [image_at _ hb, hs.entryNum_part ho hi, hs.updated_part ho hi, funext hdata, Image.write, if_pos hT]
    simp [hne]
  · have hdata : entryData t'.vol b = entryData t.vol b := by
      rw [entryData, entryData, hs.entryNum_other hb hT]
      split
      · next hne =>
        have hlow := h.owned.num_low (o := .entry b) ⟨hb, hne⟩
        rw [Driver.num] at hlow
        rw [hs.kept _ (by omega)]
      · rfl
    rw [Image.write, if_neg hT, image_at _ hb, image_at _ hb, hs.entryNum_other hb hT, hdata, hs.other b hb hT]

theorem Committed.version_eq (hs : Committed t t' w uw) (h : Flat t) {k : ℕ} (hk : t.committed + 1 ≤ k) :
    t'.version k = t.version k := by
  have hqueue : (t.writes.take k).drop t.committed = w :: (t.writes.take k).drop (t.committed + 1) := by
    have hget : (t.writes.take k)[t.committed]? = some w := by rw [List.getElem?_take_of_lt hk, hs.write]
    obtain ⟨hlt, e⟩ := List.getElem?_eq_some_iff.1 hget
    rw [← e, List.drop_eq_getElem_cons hlt]
  calc t'.version k = (t.vol.image.write (t.start + t.committed + 1) w).writeAll (t.start + t.committed + 1)
        ((t.writes.take k).drop (t.committed + 1)) := by
        rw [Driver.version, hs.image_eq h, hs.start, hs.committed, hs.writes]
        push_cast
        rw [add_assoc]
    _ = t.version k := by
        rw [Driver.version, hqueue]
        rfl

theorem flat_committed (h : Flat t) (hs : Committed t t' w uw) : Flat t' := by
  refine ⟨owned_committed h.owned hs, fun k x i hc hx hi p => ?_, ?_⟩
  · rw [hs.committed] at hc
    rw [hs.writes] at hx
    have hlow := h.owned.num_low (o := .data k i) ⟨by omega, x, hx, hi⟩
    rw [Driver.num] at hlow
    rw [hs.dataNum_eq (by omega), hs.kept _ (by omega), hs.version_eq h (by omega)]
    exact h.parts k x i (by omega) hx hi p
  · rw [hs.number, hs.committed, hs.start, if_neg (Nat.succ_ne_zero _)]
    push_cast
    ring

end Commit

/-! ## Runs -/

theorem step_flat (t : Driver) (op : Op) (h : Flat t) (hc : NoDoubleFree t op ∧ ReadsNewest t op) : Flat (t.step op) := by
  cases op with
  | write buf off junk =>
    by_cases ho : InRange off
    · obtain ⟨uw, hs⟩ := step_written h.owned ho buf junk
      exact flat_written h ho hs (hc.1 ho) (hc.2 ho)
    · simp only [Driver.step, if_neg ho]
      exact h
  | commit =>
    rcases step_committed h.owned with ⟨-, e⟩ | ⟨w, uw, hs⟩
    · rw [e]
      exact h
    · exact flat_committed h hs

theorem step_blocks {t : Driver} (h : Flat t) (op : Op) : (t.step op).spec = t.spec.step op := by
  cases op with
  | write buf off junk =>
    by_cases ho : InRange off
    swap
    · simp only [Driver.step, Spec.step, if_neg ho]
    obtain ⟨uw, hs⟩ := step_written h.owned ho buf junk
    simp only [Spec.step, if_pos ho, Driver.spec, hs.image_eq, hs.start, hs.committed, hs.writes,
      List.drop_append_of_le_length h.owned.le]
  | commit =>
    rcases step_committed h.owned with ⟨hdone, e⟩ | ⟨w, uw, hs⟩
    · rw [e]
      simp only [Spec.step, Driver.spec, hdone, List.drop_length]
    · have hqueue : t.writes.drop t.committed = w :: t.writes.drop (t.committed + 1) := by
        obtain ⟨hlt, hget⟩ := List.getElem?_eq_some_iff.1 hs.write
        rw [← hget, List.drop_eq_getElem_cons hlt]
      simp only [Spec.step, Driver.spec, hqueue, hs.image_eq h, hs.start, hs.committed, hs.writes]
      push_cast
      simp only [add_assoc]

theorem step_start (t : Driver) (op : Op) : (t.step op).start = t.start := by
  cases op with
  | write buf off junk =>
    simp only [Driver.step]
    split <;> rfl
  | commit =>
    simp only [Driver.step]
    repeat' split
    all_goals rfl

theorem run_flat {t : Driver} (h : Flat t) (es : List Op)
    (hm : Meets Driver.step (fun t op => NoDoubleFree t op ∧ ReadsNewest t op) t es) : Flat (run Driver.step t es) :=
  run_inv_of_meets Driver.step _ Flat step_flat t es h hm

theorem run_blocks {t : Driver} (h : Flat t) (es : List Op)
    (hm : Meets Driver.step (fun t op => NoDoubleFree t op ∧ ReadsNewest t op) t es) :
    (run Driver.step t es).spec = run Spec.step t.spec es := by
  induction es generalizing t with
  | nil => rfl
  | cons op es ih =>
    calc (run Driver.step t (op :: es)).spec = run Spec.step (t.step op).spec es := ih (step_flat t op h hm.1) hm.2
      _ = run Spec.step t.spec (op :: es) := by rw [step_blocks h, run_cons]

/-- a volume that was never written to -/
def blank (start : ℤ) : Spec := ⟨fun _ => Cell.absent, start, []⟩

theorem image_new (start : ℤ) : (Driver.new start).vol.image = fun _ => Cell.absent := by
  funext b
  by_cases hb : b < 67108864
  swap
  · exact image_past _ hb
  have hne : ¬ (1 + (b / 256 : ℕ) : ℤ) = 0 := by omega
  have hupdated : (readMetadata (Driver.new start).vol.file (4096 * b)).lastUpdated = 0 := by
    rw [readMetadata_block, Driver.new, Driver.open, initVolume_new]
    simp only [if_neg hne, Block.lastUpdated, Storage.asWords_zero]
  rw [image_at _ hb, hupdated, entryData, entryNum_new start hb, if_neg (not_not.2 rfl)]
  simp [Cell.absent]

theorem flat_new (start : ℤ) : Flat (Driver.new start) :=
  ⟨owned_new start, fun k w i _ hw => (by cases hw), readSequenceNum_set _ _⟩

theorem blocks_new (start : ℤ) : (Driver.new start).spec = blank start := by
  rw [Driver.spec, image_new]
  simp [Driver.new, Driver.open, blank]

/-! ## What the callers see -/

/-- a byte of a read, by block -/
theorem read_part {off : ℤ} (ho : InRange off) {p : ℕ} (hp : p < 4096) : ∃ b i : ℕ, b < 67108864 ∧ i < 4096 ∧
    off + p = 4096 * b + i ∧ (b = blockOf off ∨ remOf off ≠ 0 ∧ b = blockOf off + 1) ∧
    ∀ v, read v off p = readAligned v (4096 * b) i := by
  obtain ⟨hoff, hr, hb0, hb1⟩ := inRange_parts ho
  by_cases hr0 : remOf off = 0
  · have hbase : off = 4096 * blockOf off := by omega
    refine ⟨blockOf off, p, hb0, hp, by omega, Or.inl rfl, fun v => ?_⟩
    have hval : read v off = readAligned v (4096 * blockOf off) := by
      conv_lhs => rw [hbase]
      exact read_aligned v _
    rw [hval]
  have hval : ∀ v, read v off p = if p < 4096 - remOf off then readAligned v (4096 * blockOf off) (remOf off + p)
      else readAligned v (4096 * (blockOf off + 1 : ℕ)) (p - (4096 - remOf off)) := fun v => by
    simp only [read, Storage.blockSize_eq, Nat.cast_ofNat, Storage.inRange_tmod ho, Storage.inRange_base ho,
      Storage.block_next, ne_eq, Nat.cast_eq_zero, hr0, not_false_eq_true, if_true, Int.toNat_natCast]
  by_cases hp1 : p < 4096 - remOf off
  · refine ⟨blockOf off, remOf off + p, hb0, by omega, by omega, Or.inl rfl, fun v => ?_⟩
    rw [hval, if_pos hp1]
  · refine ⟨blockOf off + 1, p - (4096 - remOf off), hb1 hr0, by omega, ?_, Or.inr ⟨hr0, rfl⟩, fun v => ?_⟩
    · push_cast
      omega
    · rw [hval, if_neg hp1]

/-- every block of a read at `off` is read as the newest write has left it -/
def ReadShown (t : Driver) (off : ℤ) : Prop := t.Shown (blockOf off) ∧ (remOf off ≠ 0 → t.Shown (blockOf off + 1))

theorem Flat.read_eq {t : Driver} (h : Flat t) {off : ℤ} (ho : InRange off) (hs : ReadShown t off) {p : ℕ}
    (hp : p < blockSize) : read t.vol off p = t.spec.newest.byte (off + p) := by
  obtain ⟨b, i, hb, hi, hpos, hblock, hread⟩ := read_part ho hp
  have hshown : t.Shown b := by
    rcases hblock with rfl | ⟨hr, rfl⟩
    · exact hs.1
    · exact hs.2 hr
  calc read t.vol off p = readAligned t.vol (4096 * b) i := hread t.vol
    _ = (t.version t.writes.length b).data ⟨i, hi⟩ := h.readAligned_eq hb hshown ⟨i, hi⟩
    _ = t.spec.newest.byte (off + p) := by rw [version_newest, Storage.byte_of_parts _ hi hpos]

/-- **The change list** needs no bound on the number asked for: all entries are looked at. -/
theorem getModifiedOffsets_image (v : Volume) (seqNum : ℤ) : getModifiedOffsets v seqNum = v.image.modified seqNum := by
  have hcell : ∀ b ∈ List.range numBlocks, (v.image b).updated = (readMetadata v.file (4096 * b)).lastUpdated :=
    fun b hb => by rw [image_at v (numBlocks_eq ▸ List.mem_range.1 hb)]
  calc getModifiedOffsets v seqNum = (List.range numBlocks).filterMap fun b : ℕ =>
        if decide (seqNum < (v.image b).updated) then some (4096 * (b : ℤ), (v.image b).updated) else none := by
        refine List.filterMap_congr fun b hb => ?_
        simp only [hcell b hb, decide_eq_true_eq, Storage.blockSize_eq]
        rfl
    _ = v.image.modified seqNum := filterMap_ite _ _ _

/-- **The digests** are taken over the written blocks of the committed image, but over their newest bytes. -/
theorem Flat.digests_eq {t : Driver} (h : Flat t) (hs : ∀ b, (t.vol.image b).present → t.Shown b) {δ : Type}
    (md5 : List UInt8 → δ) : digests md5 t.vol = ((List.range numBlocks).filter fun b => (t.vol.image b).present).map
      fun b => md5 (List.ofFn (t.spec.newest b).data) := by
  calc digests md5 t.vol = (List.range numBlocks).filterMap fun b : ℕ =>
        if (t.vol.image b).present then some (md5 (List.ofFn (t.spec.newest b).data)) else none := by
        refine List.filterMap_congr fun b hb => ?_
        have hlt : b < 67108864 := numBlocks_eq ▸ List.mem_range.1 hb
        have hpresent : (t.vol.image b).present = decide (entryNum t.vol.file b ≠ 0) := by rw [image_at _ hlt]
        have hbytes : t.Shown b → blockBytes (readAligned t.vol (4096 * b)) = List.ofFn (t.spec.newest b).data := by
          intro hshown
          rw [← version_newest, ← funext (h.readAligned_eq hlt hshown)]
          exact (Storage.ofFn_range blockSize _).symm
        by_cases hne : entryNum t.vol.file b ≠ 0
        · have hyes : (t.vol.image b).present = true := by rw [hpresent, decide_eq_true hne]
          rw [if_pos hyes, ← hbytes (hs b hyes)]
          exact if_pos hne
        · have hno : ¬ (t.vol.image b).present = true := by rw [hpresent, decide_eq_false hne]; exact Bool.false_ne_true
          exact (if_neg hne).trans (if_neg hno).symm
    _ = _ := filterMap_ite _ _ _

/-- **The table and the queue.** On a new file, in every run in which no write frees a block twice and no unaligned
write reads past an uncommitted one: the run is a run of `Spec`, and what the volume answers is read off that state. -/
theorem entries_and_queue (start : ℤ) (es : List Op)
    (hm : Meets Driver.step (fun t op => NoDoubleFree t op ∧ ReadsNewest t op) (Driver.new start) es) :
    let t := run Driver.step (Driver.new start) es
    let s := run Spec.step (blank start) es
    t.spec = s ∧
      (∀ off, InRange off → ReadShown t off → ∀ p < blockSize, read t.vol off p = s.newest.byte (off + p)) ∧
      (∀ seqNum, getModifiedOffsets t.vol seqNum = s.committed.modified seqNum) ∧
      (∀ md5 : List UInt8 → List UInt8, (∀ b, (s.committed b).present → t.Shown b) →
        digests md5 t.vol = ((List.range numBlocks).filter fun b => (s.committed b).present).map
          fun b => md5 (List.ofFn (s.newest b).data)) ∧
      (∀ md5 : List UInt8 → List UInt8, s.queue = [] → digests md5 t.vol = s.committed.digests md5) ∧
      getSequenceNumber t.vol = if s.seq = start then 0 else s.seq := by
  intro t s
  have h : Flat t := run_flat (flat_new start) es hm
  have hspec : t.spec = s := by
    calc t.spec = run Spec.step (Driver.new start).spec es := run_blocks (flat_new start) es hm
      _ = s := by rw [blocks_new]
  have hstart : t.start = start := run_inv Driver.step (fun t => t.start = start) (fun t op e => (step_start t op).trans e) _ es rfl
  rw [← hspec]
  refine ⟨rfl, fun off ho hs p hp => h.read_eq ho hs hp, getModifiedOffsets_image t.vol,
    fun md5 hs => h.digests_eq hs md5, fun md5 hq => ?_, ?_⟩
  · have hnone : ∀ b, ¬ t.Queued b := fun b hb => by
      obtain ⟨w, hw, -⟩ := hb
      change w ∈ t.spec.queue at hw
      rw [hq] at hw
      cases hw
    have hnewest : t.spec.newest = t.spec.committed := by
      rw [Spec.newest, hq]
      rfl
    rw [h.digests_eq (fun b _ hb => absurd hb (hnone b)), hnewest]
    rfl
  · have hseq : t.spec.seq = start + t.committed := by
      rw [← hstart]
      rfl
    rw [h.number, hseq, hstart]
    by_cases h0 : t.committed = 0
    · simp [h0]
    · rw [if_neg h0, if_neg (by omega)]

/-- two overlapping uncommitted writes, the second one unaligned, and a commit -/
theorem entries_and_queue_overlapping :
    let t := run Driver.step (Driver.new 0) [Storage.secondOp, Storage.firstOp, .commit]
    t.spec = run Spec.step (blank 0) [Storage.secondOp, Storage.firstOp, .commit] := by
  have h0 := owned_new 0
  have hf0 : FreedOnce (Driver.new 0) 0 := freedOnce_of_zero h0 fun i hi => entryNum_new 0 (hi.lt (by decide))
  obtain ⟨uw, hs⟩ := step_written h0 (show InRange 0 by decide) (fun _ => 8) fun _ => 0
  have h1 : Owned ((Driver.new 0).step Storage.secondOp) := step_owned _ _ h0 fun _ => hf0
  have hf1 : FreedOnce ((Driver.new 0).step Storage.secondOp) 100 := freedOnce_of_zero h1 fun i hi => by
    have hlt := hi.lt (show InRange 100 by decide)
    exact (hs.entryNum_eq hlt).trans (entryNum_new 0 hlt)
  -- block 0 is pending, and no write has touched block 1
  have hr1 : ReadsNewest ((Driver.new 0).step Storage.secondOp) Storage.firstOp := by
    intro _ _
    refine ⟨fun _ => ?_, fun hq => ?_⟩
    · have hp := hs.ok.pending (blockOf 100)
      rw [if_neg (by decide), if_pos (by decide)] at hp
      exact fun hnone => absurd (hp.symm.trans hnone) (Option.some_ne_none _)
    · obtain ⟨w, hw, hT⟩ := hq
      change w ∈ [((0 : ℤ), fun _ => (8 : UInt8))] at hw
      rw [List.mem_singleton.1 hw] at hT
      exact absurd hT (by decide)
  have hm : Meets Driver.step (fun t op => NoDoubleFree t op ∧ ReadsNewest t op) (Driver.new 0)
      [Storage.secondOp, Storage.firstOp, .commit] :=
    ⟨⟨fun _ => hf0, fun _ hr => absurd (by decide) hr⟩, ⟨fun _ => hf1, hr1⟩, ⟨trivial, trivial⟩, trivial⟩
  exact (entries_and_queue 0 [Storage.secondOp, Storage.firstOp, .commit] hm).1

end ChainedBlockStorage.NonAtomic
