/-
The atomic volume, `storage.cpp`, function by function.

A `Volume` is the module's static state together with the file. `Call` carries it through one call of a Storage
function and records what the call did: the file operations in order (`io`) and every result of `get_free_block_num`
with the state it left (`got`).

- `unordered_map`s are functions into `Option`; `uncommitted_writes[n]` of an absent key is the null pointer.
- `write_metadata` reads `new_block_nums[1][j]` of an aligned write without having assigned it. Its value is a
  parameter, `junk j`.
- `commit` dereferences `uncommitted_writes[n]`; a null one is undefined behaviour, `none` here.
- Block and sequence numbers are unbounded. A counter past the int range makes `pwrite` fail and the process exit,
  which ends the run.
-/
import ChainedBlockStorage.Core.Crash
import ChainedBlockStorage.Storage.Layout

namespace ChainedBlockStorage.Storage

open Crash

/-! ## State -/

structure UncommittedWrite where
  toFree : List ℤ
  newMetadataOffset : ℕ → ℤ

structure Volume where
  file : File
  firstBlock : FirstBlock
  uncommittedWrites : ℤ → Option UncommittedWrite
  pendingBlocks : ℤ → Option ℤ
  freeBlocks : List ℤ
  numTotalBlocks : ℤ

/-- a call of a Storage function in progress -/
structure Call where
  vol : Volume
  /-- file operations, in order -/
  io : List (Io (ℤ × Block))
  /-- results of `get_free_block_num`, each with the state it left -/
  got : List (ℤ × Volume)

def Call.start (v : Volume) : Call := ⟨v, [], []⟩

/-- `write_block` -/
def Call.writeBlock (c : Call) (n : ℤ) (b : Block) : Call :=
  { c with vol := { c.vol with file := c.vol.file.write (n, b) }, io := c.io ++ [.pwrite (n, b)] }

/-- a completed `fdatasync` -/
def Call.fdatasync (c : Call) : Call := { c with io := c.io ++ [.fdatasync] }

def getFreeBlockNum (v : Volume) : ℤ × Volume :=
  match v.freeBlocks with
  | [] => (v.numTotalBlocks + 1, { v with numTotalBlocks := v.numTotalBlocks + 1 })
  | num :: rest => (num, { v with freeBlocks := rest })

def Call.getFreeBlockNum (c : Call) : ℤ × Call :=
  let a := Storage.getFreeBlockNum c.vol
  (a.1, { c with vol := a.2, got := c.got ++ [a] })

/-- `pending_blocks[offset] = n` -/
def Call.setPending (c : Call) (offset n : ℤ) : Call :=
  { c with vol := { c.vol with pendingBlocks := fun o => if o = offset then some n else c.vol.pendingBlocks o } }

/-! ## Reading -/

/-- what `read_aligned` finds in the committed tree: the data block number of an aligned offset, 0 if absent -/
def committedBlockNum (v : Volume) (volumeOffset : ℤ) : ℤ :=
  let n := v.firstBlock.firstLevelBlocks (getFirstLevel volumeOffset)
  if n = 0 then 0 else
    let n := (v.file.block n).asWords (getSecondLevel volumeOffset)
    if n = 0 then 0 else
      let n := (v.file.block n).asWords (getThirdLevel volumeOffset)
      if n = 0 then 0 else (v.file.block n).fileBlockNum (getLastLevel volumeOffset)

def readAligned (v : Volume) (volumeOffset : ℤ) : Buf :=
  match v.pendingBlocks volumeOffset with
  | some n => (v.file.block n).asBytes
  | none =>
    let n := committedBlockNum v volumeOffset
    if n = 0 then fun _ => 0 else (v.file.block n).asBytes

def read (v : Volume) (volumeOffset : ℤ) : Buf :=
  let remainder := volumeOffset.tmod blockSize
  if remainder ≠ 0 then
    let offset := volumeOffset - remainder
    let r := remainder.toNat
    fun p => if p < blockSize - r then readAligned v offset (r + p)
      else readAligned v (offset + blockSize) (p - (blockSize - r))
  else readAligned v volumeOffset

/-! ## Metadata -/

/-- `offsets[i]` of an aligned offset -/
def offsetsOf (volumeOffset : ℤ) : ℕ → ℕ
  | 0 => getFirstLevel volumeOffset
  | 1 => getSecondLevel volumeOffset
  | 2 => getThirdLevel volumeOffset
  | _ => getLastLevel volumeOffset

/-- `old_block_nums[i]` and `block[i]` -/
structure Path where
  num : ℕ → ℤ
  block : ℕ → Words

def Path.zero : Path := ⟨fun _ => 0, fun _ _ => 0⟩

/-- a metadata block, all zero where there is none -/
def readMeta (f : File) (n : ℤ) : Words := if n ≠ 0 then (f.block n).asWords else fun _ => 0

-- the source stops at the first absent block; `readMeta` of 0 is the zero block, so nothing is found below it either
def readPath (f : File) (root : ℤ) (offsets : ℕ → ℕ) : Path :=
  let b0 := readMeta f root
  let n1 := b0 (offsets 1)
  let b1 := readMeta f n1
  let n2 := b1 (offsets 2)
  let b2 := readMeta f n2
  let n3 := b2 (2 * offsets 3 + 1)
  { num := fun | 0 => root | 1 => n1 | 2 => n2 | _ => n3
    block := fun | 0 => b0 | 1 => b1 | _ => b2 }

/-- the root that write `sequenceNumber` builds on: the previous write's if that is uncommitted, else the
committed one -/
def baseRoot (v : Volume) (sequenceNumber : ℤ) (i : ℕ) (offsets : ℕ → ℕ) : ℤ :=
  match v.uncommittedWrites (sequenceNumber - 1) with
  | some uw => uw.newMetadataOffset i
  | none => v.firstBlock.firstLevelBlocks (offsets 0)

/-- the old blocks of one level -/
def levelToFree (p0 p1 : Path) (i : ℕ) : List ℤ :=
  (if p0.num i ≠ 0 then [p0.num i] else []) ++ if p1.num i ≠ 0 ∧ p1.num i ≠ p0.num i then [p1.num i] else []

/-- `to_free` -/
def toFreeOf (p0 p1 : Path) : List ℤ := (List.range 4).flatMap (levelToFree p0 p1)

/-- `new_block_nums[0][j]`, `new_block_nums[1][j]` of one level -/
def Call.newBlockNums (c : Call) (same two : Bool) (junk : ℤ) : (ℤ × ℤ) × Call :=
  let a := c.getFreeBlockNum
  if same then ((a.1, a.1), a.2)
  else if two then
    let b := a.2.getFreeBlockNum
    ((a.1, b.1), b.2)
  else ((a.1, junk), a.2)

/-- what `write_metadata` has computed before it allocates: the index paths, the old blocks on them, and whether there
are two targets -/
structure MetaPlan where
  two : Bool
  o0 : ℕ → ℕ
  o1 : ℕ → ℕ
  p0 : Path
  p1 : Path

/-- `offsets[0][j] == offsets[1][j]`; the second path of an aligned write is all zero -/
def MetaPlan.same (m : MetaPlan) (j : ℕ) : Bool := m.o0 j = m.o1 j

def metaPlan (v : Volume) (sequenceNumber volumeOffset : ℤ) : MetaPlan :=
  let remainder := volumeOffset.tmod blockSize
  let two : Bool := remainder ≠ 0
  let o0 := offsetsOf (volumeOffset - remainder)
  let o1 := if two then offsetsOf (volumeOffset - remainder + blockSize) else fun _ => 0
  { two := two, o0 := o0, o1 := o1
    p0 := readPath v.file (baseRoot v sequenceNumber 0 o0) o0
    p1 := if two then readPath v.file (baseRoot v sequenceNumber 1 o1) o1 else Path.zero }

/-- get new block numbers, level by level -/
def allocLevels (m : MetaPlan) (junk : ℕ → ℤ) (c : Call) : (ℕ → ℤ × ℤ) × Call :=
  let n0 := c.newBlockNums (m.same 0) m.two (junk 0)
  let n1 := n0.2.newBlockNums (m.same 1) m.two (junk 1)
  let n2 := n1.2.newBlockNums (m.same 2) m.two (junk 2)
  (fun | 0 => n0.1 | 1 => n1.1 | _ => n2.1, n2.2)

/-- `block[0][j]` and `block[1][j]` after the update of level j: the second target's entry goes to `block[0][j]` if both
targets lie below it -/
def updateLevel (same two : Bool) (b0 b1 : Words) (u0 u1 : Words → Words) : Words × Words :=
  (if two ∧ same then u1 (u0 b0) else u0 b0, if two ∧ ¬ same then u1 b1 else b1)

/-- update last level block(s) and indirect block(s) -/
def newBlocks (m : MetaPlan) (n : ℕ → ℤ × ℤ) (sequenceNumber : ℤ) (fileOffset : ℕ → ℤ) : ℕ → Words × Words
  | 0 => updateLevel (m.same 0) m.two (m.p0.block 0) (m.p1.block 0) (setWord (m.o0 1) (n 1).1) (setWord (m.o1 1) (n 1).2)
  | 1 => updateLevel (m.same 1) m.two (m.p0.block 1) (m.p1.block 1) (setWord (m.o0 2) (n 2).1) (setWord (m.o1 2) (n 2).2)
  | _ => updateLevel (m.same 2) m.two (m.p0.block 2) (m.p1.block 2)
      (setEntry (m.o0 3) (fileOffset 0) sequenceNumber) (setEntry (m.o1 3) (fileOffset 1) sequenceNumber)

/-- `write_block` of `block[0][j]`, and of `block[1][j]` if the two offsets differ at level j -/
def Call.writeLevel (c : Call) (same : Bool) (n : ℤ × ℤ) (b : Words × Words) : Call :=
  let c := c.writeBlock n.1 (.words b.1)
  if same then c else c.writeBlock n.2 (.words b.2)

def writeMetadata (junk : ℕ → ℤ) (sequenceNumber : ℤ) (fileOffset : ℕ → ℤ) (volumeOffset : ℤ) (c : Call) :
    UncommittedWrite × Call :=
  let m := metaPlan c.vol sequenceNumber volumeOffset
  let n := allocLevels m junk c
  let b := newBlocks m n.1 sequenceNumber fileOffset
  let c := ((n.2.writeLevel (m.same 0) (n.1 0) (b 0)).writeLevel (m.same 1) (n.1 1) (b 1)).writeLevel (m.same 2) (n.1 2) (b 2)
  (⟨toFreeOf m.p0 m.p1, fun i => if i = 0 then (n.1 0).1 else (n.1 0).2⟩, c)

/-! ## Writing and committing -/

/-- `memcpy` of the head of a buffer into the tail of a block, from byte `r` on -/
def fillFrom (r : ℕ) (old buf : Buf) : Buf := fun p => if r ≤ p then buf (p - r) else old p

/-- `memcpy` of the tail of a buffer, its last `r` bytes, into the head of a block -/
def fillUpTo (r : ℕ) (old buf : Buf) : Buf := fun p => if p < r then buf (blockSize - r + p) else old p

/-- the data blocks of a write, `file_offset` -/
def writeData (buf : Buf) (volumeOffset : ℤ) (c : Call) : (ℕ → ℤ) × Call :=
  let remainder := volumeOffset.tmod blockSize
  if remainder ≠ 0 then
    let offset := volumeOffset - remainder
    let a := c.getFreeBlockNum
    let buf1 := fillFrom remainder.toNat (read a.2.vol offset) buf
    let c := (a.2.writeBlock a.1 (.bytes buf1)).setPending offset a.1
    let offset := offset + blockSize
    let b := c.getFreeBlockNum
    let buf1 := fillUpTo remainder.toNat (read b.2.vol offset) buf
    let c := (b.2.writeBlock b.1 (.bytes buf1)).setPending offset b.1
    (fun i => if i = 0 then a.1 else b.1, c)
  else
    let a := c.getFreeBlockNum
    let c := (a.2.writeBlock a.1 (.bytes buf)).setPending volumeOffset a.1
    (fun i => if i = 0 then a.1 else -1, c)

def write (junk : ℕ → ℤ) (buf : Buf) (volumeOffset sequenceNumber : ℤ) (v : Volume) : Call :=
  let d := writeData buf volumeOffset (Call.start v)
  let m := writeMetadata junk sequenceNumber d.1 volumeOffset d.2
  { m.2 with vol := { m.2.vol with
      uncommittedWrites := fun n => if n = sequenceNumber then some m.1 else m.2.vol.uncommittedWrites n } }

/-- `first_level_blocks[get_first_level(offset)] = root` and `pending_blocks.erase(offset)` -/
def switchRoot (v : Volume) (offset root : ℤ) : Volume :=
  { v with
    firstBlock := { v.firstBlock with
      firstLevelBlocks := fun i => if i = getFirstLevel offset then root else v.firstBlock.firstLevelBlocks i }
    pendingBlocks := fun o => if o = offset then none else v.pendingBlocks o }

def commit (sequenceNumber volumeOffset : ℤ) (v : Volume) : Option Call :=
  match v.uncommittedWrites sequenceNumber with
  | none => none
  | some uw =>
    let v := { v with
      uncommittedWrites := fun n => if n = sequenceNumber then none else v.uncommittedWrites n }
    let volumeOffset := volumeOffset - volumeOffset.tmod blockSize
    let v := switchRoot v volumeOffset (uw.newMetadataOffset 0)
    let v := if uw.newMetadataOffset 1 ≠ 0 ∧ uw.newMetadataOffset 0 ≠ uw.newMetadataOffset 1 then
        switchRoot v (volumeOffset + 4096) (uw.newMetadataOffset 1)
      else v
    let v := { v with firstBlock := { v.firstBlock with lastCommitted := sequenceNumber } }
    -- fsync twice to make sure that the actual data is persistent before modifying the metadata
    let c := (((Call.start v).fdatasync).writeBlock 0 v.firstBlock.toBlock).fdatasync
    some { c with vol := { c.vol with freeBlocks := c.vol.freeBlocks ++ uw.toFree } }

def getSequenceNumber (v : Volume) : ℤ := v.firstBlock.lastCommitted

/-! ## Opening -/

/-- the volume with nothing uncommitted, before any block is free -/
def freshVolume (f : File) (b : FirstBlock) (total : ℤ) : Volume :=
  ⟨f, b, fun _ => none, fun _ => none, [], total⟩

/-- the block numbers in use, in the order `open_volume` collects them -/
def usedBlocks (f : File) (b : FirstBlock) : List ℤ :=
  (List.range numFirstLevel).flatMap fun i =>
    let first := b.firstLevelBlocks i
    if first = 0 then [] else
      first :: (List.range numIndirect).flatMap fun j =>
        let second := (f.block first).asWords j
        if second = 0 then [] else
          second :: (List.range numIndirect).flatMap fun k =>
            let third := (f.block second).asWords k
            if third = 0 then [] else
              third :: (List.range numEntries).filterMap fun l =>
                let data := (f.block third).fileBlockNum l
                if data = 0 then none else some data

/-- the numbers from `blockNum` on that are not in the sorted list `used`, `count` numbers in all -/
def unusedFrom (used : List ℤ) (blockNum : ℤ) : ℕ → List ℤ
  | 0 => []
  | count + 1 =>
    match used with
    | [] => blockNum :: unusedFrom [] (blockNum + 1) count
    | u :: us =>
      if blockNum = u then unusedFrom us (blockNum + 1) count else blockNum :: unusedFrom (u :: us) (blockNum + 1) count

def openVolume (f : File) : Call :=
  let total := (f.size + 1) / blockSize
  let c := if total = 0 then
      (Call.start (freshVolume f FirstBlock.zero 1)).writeBlock 0 FirstBlock.zero.toBlock
    else Call.start (freshVolume f (FirstBlock.ofBlock (f.block 0)) (total : ℕ))
  let used := (usedBlocks c.vol.file c.vol.firstBlock).mergeSort (· ≤ ·)
  { c with vol := { c.vol with freeBlocks := unusedFrom used 1 (c.vol.numTotalBlocks - 1).toNat } }

def initVolume (f : File) : Call :=
  let c := (Call.start (freshVolume f FirstBlock.zero 1)).writeBlock 0 FirstBlock.zero.toBlock
  let blocksInFile := c.vol.file.size / blockSize
  { c with vol := { c.vol with freeBlocks := (List.range (blocksInFile - 1)).map fun i : ℕ => (i : ℤ) + 1 } }

end ChainedBlockStorage.Storage
