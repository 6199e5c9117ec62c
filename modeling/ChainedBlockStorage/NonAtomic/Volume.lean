/-
The other implementation of `storage.hpp`: `storage-nonatomic.cpp`.

Block 0 holds the sequence number. Blocks 1 to 262144 are one flat table with an entry for each of the 2^26 blocks of the
volume, which `commit` changes in place. Data blocks come behind it.

As in `Storage/Atomic`, numbers and offsets are unbounded, `uncommitted_writes[n]` of an absent key is the null pointer,
and a `commit` that dereferences it is `none`. `fdatasync` changes nothing here.

- `readMetadata_write`: entries are independent of one another and of the data blocks.
- `initVolume_new`: the volume that `init_volume` makes of a new file.
-/
import ChainedBlockStorage.Storage.Alloc

namespace ChainedBlockStorage.NonAtomic

open Storage (Block Buf Words File blockSize numBlocks setWord setEntry fillFrom fillUpTo)

/-! ## State -/

structure MetadataEntry where
  lastUpdated : ℤ
  fileBlockNum : ℤ

structure UncommittedWrite where
  toFree : List ℤ
  newFileOffset : ℕ → ℤ

structure Volume where
  file : File
  uncommittedWrites : ℤ → Option UncommittedWrite
  pendingBlocks : ℤ → Option ℤ
  freeBlocks : List ℤ
  numTotalBlocks : ℤ

def metadataSize : ℕ := numBlocks * 16

/-! ## Metadata -/

/-- `file_offset` of the entry, as a block and an index there -/
def entryPlace (volumeOffset : ℤ) : ℤ × ℕ :=
  let fileOffset := volumeOffset.tdiv blockSize * 16 + blockSize
  (fileOffset / blockSize, (fileOffset % blockSize / 16).toNat)

def writeMetadata (f : File) (entry : MetadataEntry) (volumeOffset : ℤ) : File :=
  let p := entryPlace volumeOffset
  f.write (p.1, .words (setEntry p.2 entry.fileBlockNum entry.lastUpdated (f.block p.1).asWords))

def readMetadata (f : File) (volumeOffset : ℤ) : MetadataEntry :=
  let p := entryPlace volumeOffset
  ⟨(f.block p.1).lastUpdated p.2, (f.block p.1).fileBlockNum p.2⟩

def setSequenceNum (f : File) (sequenceNum : ℤ) : File :=
  f.write (0, .words (setWord 0 sequenceNum (f.block 0).asWords))

def readSequenceNum (f : File) : ℤ := (f.block 0).asWords 0

/-- the first `count` turns of the loop -/
def initMetadata (f : File) (count : ℕ) : File :=
  (List.range count).foldl (fun f (i : ℕ) => f.write ((i : ℤ) + 1, Block.zero)) f

theorem entryPlace_block (b : ℕ) : entryPlace (4096 * b) = (1 + ((b / 256 : ℕ) : ℤ), b % 256) := by
  have h : ((4096 * b : ℕ) : ℤ).tdiv (4096 : ℕ) = (4096 * b / 4096 : ℕ) := by simp only [Int.ofNat_tdiv]
  simp only [entryPlace, Storage.blockSize_eq]
  push_cast at h ⊢
  rw [h, Prod.mk.injEq]
  omega

/-- the table is in blocks 1 to 262144 -/
theorem readMetadata_block (f : File) (b : ℕ) :
    readMetadata f (4096 * b) =
      ⟨(f.block (1 + (b / 256 : ℕ))).lastUpdated (b % 256), (f.block (1 + (b / 256 : ℕ))).fileBlockNum (b % 256)⟩ := by
  rw [readMetadata, entryPlace_block]

/-- blocks outside the table do not matter -/
theorem readMetadata_frame {f g : File} (h : ∀ x, 0 < x → x ≤ 262144 → g.block x = f.block x) {b : ℕ}
    (hb : b < 67108864) : readMetadata g (4096 * b) = readMetadata f (4096 * b) := by
  rw [readMetadata_block, readMetadata_block, h _ (by omega) (by omega)]

theorem readMetadata_write (f : File) (entry : MetadataEntry) (b b' : ℕ) :
    readMetadata (writeMetadata f entry (4096 * b)) (4096 * b') =
      if b' = b then entry else readMetadata f (4096 * b') := by
  rw [readMetadata_block, readMetadata_block, writeMetadata, entryPlace_block]
  by_cases hblock : (1 + (b' / 256 : ℕ) : ℤ) = 1 + (b / 256 : ℕ)
  · rw [hblock, Storage.write_block_self]
    by_cases hb : b' = b
    · subst hb
      simp [Block.lastUpdated, Block.fileBlockNum, setEntry]
    · have hne : b' % 256 ≠ b % 256 := by omega
      have h1 : ¬ 2 * (b' % 256) + 1 = 2 * (b % 256) := by omega
      have h2 : ¬ 2 * (b' % 256) = 2 * (b % 256) + 1 := by omega
      simp [Block.lastUpdated, Block.fileBlockNum, setEntry, hb, hne, h1, h2]
  · have hb : b' ≠ b := fun e => hblock (by rw [e])
    rw [Storage.write_block_ne _ _ _ hblock, if_neg hb]

/-- only the block of the entry changes -/
theorem writeMetadata_block (f : File) (entry : MetadataEntry) (b : ℕ) (hb : b < 67108864) (x : ℤ)
    (hx : x ≤ 0 ∨ 262144 < x) : (writeMetadata f entry (4096 * b)).block x = f.block x := by
  rw [writeMetadata, entryPlace_block]
  exact Storage.write_block_ne _ _ _ (by simp only; omega)

theorem setSequenceNum_block (f : File) (n x : ℤ) (hx : x ≠ 0) : (setSequenceNum f n).block x = f.block x :=
  Storage.write_block_ne _ _ _ hx

@[simp] theorem readSequenceNum_set (f : File) (n : ℤ) : readSequenceNum (setSequenceNum f n) = n := by
  simp [readSequenceNum, setSequenceNum, setWord]

/-! ## Reading -/

def readAligned (v : Volume) (volumeOffset : ℤ) : Buf :=
  match v.pendingBlocks volumeOffset with
  | some n => (v.file.block n).asBytes
  | none =>
    let entry := readMetadata v.file volumeOffset
    if entry.fileBlockNum ≠ 0 then (v.file.block entry.fileBlockNum).asBytes else fun _ => 0

def read (v : Volume) (volumeOffset : ℤ) : Buf :=
  let remainder := volumeOffset.tmod blockSize
  if remainder ≠ 0 then
    let offset := volumeOffset - remainder
    let r := remainder.toNat
    fun p => if p < blockSize - r then readAligned v offset (r + p)
      else readAligned v (offset + blockSize) (p - (blockSize - r))
  else readAligned v volumeOffset

/-- `none` stands for `false`: the write is not in the uncommitted list -/
def readSequenceNumber (v : Volume) (seqNum volumeOffset : ℤ) : Option Buf :=
  match v.uncommittedWrites seqNum with
  | none => none
  | some uw =>
    let remainder := volumeOffset.tmod blockSize
    if remainder ≠ 0 then
      let r := remainder.toNat
      some fun p => if p < blockSize - r then (v.file.block (uw.newFileOffset 0)).asBytes (r + p)
        else (v.file.block (uw.newFileOffset 1)).asBytes (p - (blockSize - r))
    else some (v.file.block (uw.newFileOffset 0)).asBytes

def getSequenceNumber (v : Volume) : ℤ := readSequenceNum v.file

/-! ## Writing and committing -/

def getFreeBlockNum (v : Volume) : ℤ × Volume :=
  match v.freeBlocks with
  | [] => (v.numTotalBlocks + 1, { v with numTotalBlocks := v.numTotalBlocks + 1 })
  | num :: rest => (num, { v with freeBlocks := rest })

/-- the part of a write in one block, with what it adds to `to_free`; `fill` is the `memcpy` over the old contents -/
def writePart (offset : ℤ) (fill : Buf → Buf) (v : Volume) : (ℤ × List ℤ) × Volume :=
  let a := getFreeBlockNum v
  let entry := readMetadata a.2.file offset
  let buf1 := fill (read a.2 offset)
  ((a.1, if entry.fileBlockNum ≠ 0 then [entry.fileBlockNum] else []),
    { a.2 with
      file := a.2.file.write (a.1, .bytes buf1)
      pendingBlocks := fun o => if o = offset then some a.1 else a.2.pendingBlocks o })

def write (buf : Buf) (volumeOffset sequenceNumber : ℤ) (v : Volume) : Volume :=
  let remainder := volumeOffset.tmod blockSize
  let r :=
    if remainder ≠ 0 then
      let offset := volumeOffset - remainder
      let p := writePart offset (fun buf1 => fillFrom remainder.toNat buf1 buf) v
      let q := writePart (offset + blockSize) (fun buf1 => fillUpTo remainder.toNat buf1 buf) p.2
      ((⟨p.1.2 ++ q.1.2, fun i => if i = 0 then p.1.1 else q.1.1⟩ : UncommittedWrite), q.2)
    else
      -- nothing is read
      let p := writePart volumeOffset (fun _ => buf) v
      (⟨p.1.2, fun i => if i = 0 then p.1.1 else 0⟩, p.2)
  { r.2 with uncommittedWrites := fun n => if n = sequenceNumber then some r.1 else r.2.uncommittedWrites n }

/-- `pending_blocks.erase(offset)` and `write_metadata` -/
def switchEntry (v : Volume) (offset : ℤ) (entry : MetadataEntry) : Volume :=
  { v with
    pendingBlocks := fun o => if o = offset then none else v.pendingBlocks o
    file := writeMetadata v.file entry offset }

theorem switchEntry_pending (v : Volume) (b : ℕ) (entry : MetadataEntry) (c : ℕ) :
    (switchEntry v (4096 * b) entry).pendingBlocks (4096 * c) = if c = b then none else v.pendingBlocks (4096 * c) := by
  have hiff : (4096 * c : ℤ) = 4096 * b ↔ c = b := by omega
  simp only [switchEntry, hiff]

theorem switchEntry_entry (v : Volume) (b : ℕ) (entry : MetadataEntry) (c : ℕ) :
    readMetadata (switchEntry v (4096 * b) entry).file (4096 * c) =
      if c = b then entry else readMetadata v.file (4096 * c) :=
  readMetadata_write v.file entry b c

/-- the data blocks stay -/
theorem switchEntry_block (v : Volume) {b : ℕ} (hb : b < 67108864) (entry : MetadataEntry) {x : ℤ} (hx : 262144 < x) :
    (switchEntry v (4096 * b) entry).file.block x = v.file.block x :=
  writeMetadata_block v.file entry b hb x (Or.inr hx)

def commit (sequenceNumber volumeOffset : ℤ) (v : Volume) : Option Volume :=
  match v.uncommittedWrites sequenceNumber with
  | none => none
  | some uw =>
    let v := { v with uncommittedWrites := fun n => if n = sequenceNumber then none else v.uncommittedWrites n }
    let volumeOffset := volumeOffset - volumeOffset.tmod blockSize
    let v := switchEntry v volumeOffset ⟨sequenceNumber, uw.newFileOffset 0⟩
    let v := if uw.newFileOffset 1 ≠ 0 ∧ uw.newFileOffset 0 ≠ uw.newFileOffset 1 then
        switchEntry v (volumeOffset + 4096) ⟨sequenceNumber, uw.newFileOffset 1⟩
      else v
    some { v with file := setSequenceNum v.file sequenceNumber, freeBlocks := v.freeBlocks ++ uw.toFree }

/-! ## Opening -/

def initVolume (f : File) : Volume :=
  let f := setSequenceNum (initMetadata f (metadataSize / blockSize)) 0
  let numTotalBlocks := 1 + metadataSize / blockSize
  let blocksInFile := f.size / blockSize
  ⟨f, fun _ => none, fun _ => none,
    (List.range (blocksInFile - numTotalBlocks)).map fun i : ℕ => ((numTotalBlocks + i : ℕ) : ℤ), numTotalBlocks⟩

theorem initMetadata_new (count : ℕ) : initMetadata File.new count =
    if count = 0 then File.new else ⟨(count + 1) * 4096, fun _ => Block.zero⟩ := by
  induction count with
  | zero => rfl
  | succ count ih =>
    rw [initMetadata, List.range_succ, List.foldl_append]
    change File.write (initMetadata File.new count) ((count : ℤ) + 1, Block.zero) = _
    have hsize : ((((count : ℤ) + 1 + 1) * 4096).toNat : ℕ) = (count + 1 + 1) * 4096 := by omega
    rw [ih, if_neg (Nat.succ_ne_zero count)]
    split <;> simp [File.write, File.new, hsize]

/-- all entries are zero, and nothing is free yet -/
theorem initVolume_new : initVolume File.new =
    ⟨⟨1073745920, fun n => if n = 0 then .words (setWord 0 0 fun _ => 0) else Block.zero⟩, fun _ => none, fun _ => none, [],
      262145⟩ := by
  have hcount : metadataSize / blockSize = 262144 := by decide
  simp only [initVolume, hcount, initMetadata_new, setSequenceNum, File.write]
  simp

end ChainedBlockStorage.NonAtomic
