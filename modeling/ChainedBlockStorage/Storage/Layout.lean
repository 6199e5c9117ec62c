/-
On-disk layout of the atomic volume (`storage.cpp`): constants, blocks, the index of an offset at each tree level, the
first block, and the file.

The file is an array of 4096-byte blocks. Block 0 is `first_block`; every other block is a metadata block (a union of
512 block numbers and 256 `{last_updated, file_block_num}` entries) or 4096 data bytes. A `Block` keeps whichever view
it was written with; `asWords` and `asBytes` read it as the other one (little-endian int64).

Block numbers, sequence numbers and offsets are the source's int64 values; `/` and `%` of C are `Int.tdiv` and
`Int.tmod`, and `& (N - 1)` is reduction modulo the power of two N.
-/
import Mathlib.Tactic

namespace ChainedBlockStorage.Storage

/-! ## Constants -/

def blockSize : ℕ := 4096
def volumeSize : ℕ := 256 * 1024 * 1024 * 1024
def numBlocks : ℕ := volumeSize / blockSize
def numEntries : ℕ := blockSize / 16
def numIndirect : ℕ := blockSize / 8
def numFirstLevel : ℕ := numBlocks / numEntries / numIndirect / numIndirect

@[simp] theorem blockSize_eq : blockSize = 4096 := rfl
@[simp] theorem volumeSize_eq : volumeSize = 274877906944 := rfl
@[simp] theorem numBlocks_eq : numBlocks = 67108864 := rfl
@[simp] theorem numEntries_eq : numEntries = 256 := rfl
@[simp] theorem numIndirect_eq : numIndirect = 512 := rfl
@[simp] theorem numFirstLevel_eq : numFirstLevel = 1 := rfl

/-! ## Index of an offset at each level -/

def getFirstLevel (offset : ℤ) : ℕ :=
  let offset := offset.tdiv numEntries
  let offset := offset.tdiv numIndirect
  let offset := offset.tdiv numIndirect
  let offset := offset.tdiv blockSize
  (offset % numFirstLevel).toNat

def getSecondLevel (offset : ℤ) : ℕ :=
  let offset := offset.tdiv numEntries
  let offset := offset.tdiv numIndirect
  let offset := offset.tdiv blockSize
  (offset % numIndirect).toNat

def getThirdLevel (offset : ℤ) : ℕ :=
  let offset := offset.tdiv numEntries
  let offset := offset.tdiv blockSize
  (offset % numIndirect).toNat

def getLastLevel (offset : ℤ) : ℕ :=
  let offset := offset.tdiv blockSize
  (offset % numEntries).toNat

/-- a volume of 2^38 bytes needs one first-level block only -/
@[simp] theorem getFirstLevel_eq (offset : ℤ) : getFirstLevel offset = 0 := by
  simp [getFirstLevel]

@[simp] theorem getSecondLevel_block (b : ℕ) : getSecondLevel (4096 * b) = b / 256 / 512 % 512 := by
  have h : ((((4096 * b : ℕ) : ℤ).tdiv (256 : ℕ)).tdiv (512 : ℕ)).tdiv (4096 : ℕ) = (4096 * b / 256 / 512 / 4096 : ℕ) := by
    simp only [Int.ofNat_tdiv]
  simp only [getSecondLevel, numEntries_eq, numIndirect_eq, blockSize_eq]
  push_cast at h ⊢
  rw [h]
  omega

@[simp] theorem getThirdLevel_block (b : ℕ) : getThirdLevel (4096 * b) = b / 256 % 512 := by
  have h : (((4096 * b : ℕ) : ℤ).tdiv (256 : ℕ)).tdiv (4096 : ℕ) = (4096 * b / 256 / 4096 : ℕ) := by
    simp only [Int.ofNat_tdiv]
  simp only [getThirdLevel, numEntries_eq, numIndirect_eq, blockSize_eq]
  push_cast at h ⊢
  rw [h]
  omega

@[simp] theorem getLastLevel_block (b : ℕ) : getLastLevel (4096 * b) = b % 256 := by
  have h : ((4096 * b : ℕ) : ℤ).tdiv (4096 : ℕ) = (4096 * b / 4096 : ℕ) := by simp only [Int.ofNat_tdiv]
  simp only [getLastLevel, numEntries_eq, blockSize_eq]
  push_cast at h ⊢
  rw [h]
  omega

/-! ## Blocks -/

/-- 4096 bytes; only indices below 4096 mean anything -/
abbrev Buf := ℕ → UInt8

/-- a block as 512 words (`indirect_block`) or 256 pairs of words (`last_level_block`) -/
abbrev Words := ℕ → ℤ

/-- the int64 at word `i` of a byte block -/
def wordAt (b : Buf) (i : ℕ) : ℤ :=
  Int.bmod ((List.range 8).foldr (fun p acc => ((b (8 * i + p)).toNat : ℤ) + 256 * acc) 0) (2 ^ 64)

/-- byte `p` of a word block -/
def byteAt (w : Words) (p : ℕ) : UInt8 := UInt8.ofNat ((w (p / 8) / 256 ^ (p % 8)) % 256).toNat

inductive Block where
  | bytes (b : Buf)
  | words (w : Words)

def Block.asWords : Block → Words
  | .bytes b => wordAt b
  | .words w => w

def Block.asBytes : Block → Buf
  | .bytes b => b
  | .words w => byteAt w

/-- what a hole of the file reads as -/
def Block.zero : Block := .bytes fun _ => 0

@[simp] theorem asWords_bytes (b : Buf) : (Block.bytes b).asWords = wordAt b := rfl
@[simp] theorem asWords_words (w : Words) : (Block.words w).asWords = w := rfl
@[simp] theorem asBytes_bytes (b : Buf) : (Block.bytes b).asBytes = b := rfl
@[simp] theorem asWords_zero : Block.zero.asWords = fun _ => 0 := by
  funext i; simp [Block.zero, wordAt, List.range_succ]

/-- `last_level_block[l].last_updated` -/
def Block.lastUpdated (b : Block) (l : ℕ) : ℤ := b.asWords (2 * l)

/-- `last_level_block[l].file_block_num` -/
def Block.fileBlockNum (b : Block) (l : ℕ) : ℤ := b.asWords (2 * l + 1)

def setWord (i : ℕ) (v : ℤ) (w : Words) : Words := fun j => if j = i then v else w j

/-- store a `metadata_entry` at index `l` -/
def setEntry (l : ℕ) (fileBlockNum lastUpdated : ℤ) (w : Words) : Words :=
  fun j => if j = 2 * l + 1 then fileBlockNum else if j = 2 * l then lastUpdated else w j

/-! ## The first block -/

structure FirstBlock where
  lastCommitted : ℤ
  firstLevelBlocks : ℕ → ℤ

def FirstBlock.zero : FirstBlock := ⟨0, fun _ => 0⟩

def FirstBlock.toBlock (b : FirstBlock) : Block :=
  .words fun i => if i = 0 then b.lastCommitted else if i ≤ numFirstLevel then b.firstLevelBlocks (i - 1) else 0

def FirstBlock.ofBlock (b : Block) : FirstBlock :=
  ⟨b.asWords 0, fun i => if i < numFirstLevel then b.asWords (i + 1) else 0⟩

@[simp] theorem ofBlock_toBlock_lastCommitted (b : FirstBlock) :
    (FirstBlock.ofBlock b.toBlock).lastCommitted = b.lastCommitted := by
  simp [FirstBlock.ofBlock, FirstBlock.toBlock]

@[simp] theorem ofBlock_toBlock_firstLevelBlocks (b : FirstBlock) :
    (FirstBlock.ofBlock b.toBlock).firstLevelBlocks 0 = b.firstLevelBlocks 0 := by
  simp [FirstBlock.ofBlock, FirstBlock.toBlock]

@[simp] theorem ofBlock_zero : FirstBlock.ofBlock Block.zero = FirstBlock.zero := by
  simp [FirstBlock.ofBlock, FirstBlock.zero]

/-! ## The file -/

/-- the volume file: its size in bytes and its blocks (holes and everything past the end read as zero) -/
structure File where
  size : ℕ
  block : ℤ → Block

/-- a file that `open` has just created -/
def File.new : File := ⟨0, fun _ => Block.zero⟩

/-- `pwrite` of one block -/
def File.write (f : File) (w : ℤ × Block) : File where
  size := max f.size ((w.1 + 1) * blockSize).toNat
  block := fun n => if n = w.1 then w.2 else f.block n

@[simp] theorem write_block_self (f : File) (n : ℤ) (b : Block) : (f.write (n, b)).block n = b := by
  simp [File.write]

theorem write_block_ne (f : File) (w : ℤ × Block) (n : ℤ) (h : n ≠ w.1) : (f.write w).block n = f.block n := by
  simp [File.write, h]

end ChainedBlockStorage.Storage
