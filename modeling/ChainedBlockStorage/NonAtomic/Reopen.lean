/-
`open_volume` of `storage-nonatomic.cpp` on the file that an earlier run left.

It should queue every block behind the table that no entry refers to. The loop that collects the entries passes the
index of a block where `read_metadata` takes an offset in bytes, and the loop that queues starts at 1 + METADATA_SIZE,
which is the size of the table in bytes and not in blocks: block 2^30 + 1 instead of block 262145.

- `recovers_iff`: what it queues is right exactly when there is nothing to queue.
- `reopen_recovers_iff`: the same for the files that runs leave.
- `reopen_loses_block`: after one write, block 262145 is free and not queued.
-/
import ChainedBlockStorage.NonAtomic.Owners

namespace ChainedBlockStorage.NonAtomic

open Run
open Storage (Block Buf File Op InRange numBlocks blockSize unusedFrom numBlocks_eq blockSize_eq)

/-! ## Closing and opening -/

def closeVolume (v : Volume) : Volume :=
  { v with uncommittedWrites := fun _ => none, pendingBlocks := fun _ => none, freeBlocks := [], numTotalBlocks := 0 }

/-- `used_blocks` before it is sorted; the loop passes `i` itself to `read_metadata` -/
def usedBlocks (f : File) : List ℤ :=
  (List.range numBlocks).filterMap fun i : ℕ =>
    let entry := readMetadata f i
    if entry.fileBlockNum ≠ 0 then some entry.fileBlockNum else none

def openVolume (f : File) : Volume :=
  let total := (f.size + 1) / blockSize
  let f := if total = 0 then setSequenceNum (initMetadata f (metadataSize / blockSize)) 0 else f
  let total := if total = 0 then 1 + metadataSize / blockSize else total
  let used := (usedBlocks f).mergeSort (· ≤ ·)
  ⟨f, fun _ => none, fun _ => none, unusedFrom used ((1 + metadataSize : ℕ) : ℤ) (total - (1 + metadataSize)), total⟩

/-- `free_blocks` after `open_volume` is every block of the file behind the table that no entry refers to, once -/
def Recovers (f : File) : Prop :=
  (openVolume f).freeBlocks.Nodup ∧ ∀ x : ℤ, x ∈ (openVolume f).freeBlocks ↔
    262145 ≤ x ∧ x < (f.size / blockSize : ℕ) ∧ ∀ b < 67108864, entryNum f b ≠ x

/-- every block of the file behind the table is referred to by an entry -/
def AllReferenced (f : File) : Prop :=
  ∀ x : ℤ, 262145 ≤ x → x < (f.size / blockSize : ℕ) → ∃ b < 67108864, entryNum f b = x

/-! ## What is queued -/

/-- whatever the list of used blocks holds, only blocks that the counter passes are queued -/
theorem mem_unusedFrom_range (used : List ℤ) (n : ℤ) (count : ℕ) {x : ℤ} (hx : x ∈ unusedFrom used n count) :
    n ≤ x ∧ x < n + count := by
  induction count generalizing used n with
  | zero => cases hx
  | succ count ih =>
    have hstep : ∀ used, x ∈ unusedFrom used (n + 1) count → n ≤ x ∧ x < n + (count + 1 : ℕ) := by
      intro used h
      have := ih used (n + 1) h
      push_cast
      omega
    have hhead : ∀ used, x ∈ n :: unusedFrom used (n + 1) count → n ≤ x ∧ x < n + (count + 1 : ℕ) := by
      intro used h
      rcases List.mem_cons.1 h with rfl | h
      · push_cast
        omega
      · exact hstep used h
    cases used with
    | nil => exact hhead [] hx
    | cons u us =>
      rw [unusedFrom] at hx
      split_ifs at hx
      · exact hstep us hx
      · exact hhead (u :: us) hx

/-- a file with at least the table in it -/
theorem openVolume_free {f : File} (h : 262145 * 4096 ≤ f.size) : ∃ used, (openVolume f).freeBlocks =
    unusedFrom used 1073741825 ((f.size + 1) / 4096 - 1073741825) := by
  have hne : ¬ (f.size + 1) / 4096 = 0 := by omega
  have hsize : metadataSize = 1073741824 := by decide
  refine ⟨(usedBlocks f).mergeSort (· ≤ ·), ?_⟩
  simp only [openVolume, blockSize_eq, if_neg hne, hsize]
  rfl

/-- numbers that all occur among the entries are at most 2^26 -/
theorem referenced_card {f : File} {lo hi : ℤ} (h : ∀ x, lo ≤ x → x < hi → ∃ b < 67108864, entryNum f b = x) :
    hi - lo ≤ 67108864 := by
  have hsub : Finset.Ico lo hi ⊆ (Finset.range 67108864).image (entryNum f) := by
    intro x hx
    obtain ⟨hlo, hhi⟩ := Finset.mem_Ico.1 hx
    obtain ⟨b, hb, e⟩ := h x hlo hhi
    exact Finset.mem_image.2 ⟨b, Finset.mem_range.2 hb, e⟩
  have hcard : (Finset.Ico lo hi).card ≤ 67108864 :=
    (Finset.card_le_card hsub).trans (Finset.card_image_le.trans_eq (Finset.card_range _))
  rw [Int.card_Ico] at hcard
  omega

/-- **Where `open_volume` recovers the free blocks.** Exactly where there are none. -/
theorem recovers_iff {f : File} (h : 262145 * 4096 ≤ f.size) : Recovers f ↔ AllReferenced f := by
  obtain ⟨used, hfree⟩ := openVolume_free h
  have hlow : ∀ x ∈ (openVolume f).freeBlocks, 1073741825 ≤ x := by
    intro x hx
    rw [hfree] at hx
    exact (mem_unusedFrom_range used _ _ hx).1
  constructor
  · rintro ⟨-, hmem⟩
    -- what is not referred to is queued, so it lies behind block 2^30; there are too few entries for all before that
    have hbelow : ∀ x : ℤ, 262145 ≤ x → x < (f.size / blockSize : ℕ) → x < 1073741825 →
        ∃ b < 67108864, entryNum f b = x := by
      intro x hlo hhi hx
      by_contra hn
      push Not at hn
      exact absurd (hlow x ((hmem x).2 ⟨hlo, hhi, hn⟩)) (by omega)
    intro x hlo hhi
    refine hbelow x hlo hhi ?_
    by_contra hge
    have hcard : (1073741825 : ℤ) - 262145 ≤ 67108864 :=
      referenced_card (f := f) fun y hy hy' => hbelow y hy (by omega) hy'
    omega
  · intro hall
    have hcard := referenced_card (f := f) fun x hlo hhi => hall x hlo hhi
    rw [blockSize_eq] at hcard
    have hcount : (f.size + 1) / 4096 - 1073741825 = 0 := by omega
    have hnil : (openVolume f).freeBlocks = [] := by rw [hfree, hcount]; rfl
    refine ⟨by rw [hnil]; exact List.nodup_nil, fun x => ?_⟩
    rw [hnil]
    refine ⟨fun hx => absurd hx List.not_mem_nil, fun hx => ?_⟩
    obtain ⟨b, hb, e⟩ := hall x hx.1 hx.2.1
    exact absurd e (hx.2.2 b hb)

/-! ## The file of a run -/

theorem size_le_write (f : File) (w : ℤ × Block) : f.size ≤ (f.write w).size := le_max_left _ _

/-- `init_metadata` writes the whole table -/
theorem initMetadata_size (f : File) (count : ℕ) : (count + 2) * 4096 ≤ (initMetadata f (count + 1)).size := by
  rw [initMetadata, List.range_succ, List.foldl_append]
  refine le_trans ?_ (le_max_right _ _)
  simp only [blockSize_eq]
  omega

theorem initVolume_size (f : File) : 262145 * 4096 ≤ (initVolume f).file.size := by
  have hcount : metadataSize / blockSize = 262143 + 1 := by decide
  rw [initVolume, hcount]
  exact (initMetadata_size f 262143).trans (size_le_write _ _)

theorem writePart_size (offset : ℤ) (fill : Buf → Buf) (v : Volume) :
    v.file.size ≤ (writePart offset fill v).2.file.size := by
  rw [writePart, getFreeBlockNum_eq]
  exact size_le_write _ _

theorem write_size (buf : Buf) (off seq : ℤ) (v : Volume) : v.file.size ≤ (write buf off seq v).file.size := by
  simp only [write]
  split_ifs <;> dsimp only
  · exact (writePart_size _ _ v).trans (writePart_size _ _ _)
  · exact writePart_size _ _ v

theorem commit_size {n off : ℤ} {v v' : Volume} (h : commit n off v = some v') : v.file.size ≤ v'.file.size := by
  have hswitch : ∀ (v : Volume) (o : ℤ) (e : MetadataEntry), v.file.size ≤ (switchEntry v o e).file.size :=
    fun v o e => size_le_write _ _
  unfold commit at h
  split at h
  · cases h
  · obtain rfl := Option.some.inj h
    refine le_trans ?_ (size_le_write _ _)
    split_ifs
    · exact (hswitch _ _ _).trans (hswitch _ _ _)
    · exact hswitch _ _ _

/-- a run does not shrink the file -/
theorem step_size (t : Driver) (op : Op) {n : ℕ} (h : n ≤ t.vol.file.size) : n ≤ (t.step op).vol.file.size := by
  cases op with
  | write buf off junk =>
    simp only [Driver.step]
    split_ifs
    · exact h.trans (write_size buf off _ _)
    · exact h
  | commit =>
    simp only [Driver.step]
    split
    · exact h
    · split
      · exact h
      · next hcommit => exact h.trans (commit_size hcommit)

/-- the file that `init_volume` on `f`, the calls and `close_volume` leave -/
def fileLeft (f : File) (start : ℤ) (es : List Op) : File :=
  (closeVolume (run Driver.step (Driver.open start (initVolume f)) es).vol).file

theorem fileLeft_new (start : ℤ) (es : List Op) :
    fileLeft File.new start es = (run Driver.step (Driver.new start) es).vol.file := rfl

theorem fileLeft_size (f : File) (start : ℤ) (es : List Op) : 262145 * 4096 ≤ (fileLeft f start es).size :=
  run_inv Driver.step (fun t => 262145 * 4096 ≤ t.vol.file.size) (fun t op h => step_size t op h) _ es (initVolume_size f)

/-- **Which files `open_volume` recovers the free blocks of.** Of all that runs leave, those whose blocks behind the
table are all referred to by entries. -/
theorem reopen_recovers_iff (f : File) (start : ℤ) (es : List Op) :
    Recovers (fileLeft f start es) ↔ AllReferenced (fileLeft f start es) :=
  recovers_iff (fileLeft_size f start es)

/-! ## A block is lost -/

/-- one write, and its commit -/
def oneWrite : List Op := [.write (fun _ => 1) 0 fun _ => 0, .commit]

theorem oneWrite_size : (fileLeft File.new 0 oneWrite).size = 262147 * 4096 := by
  rw [fileLeft, Driver.open, initVolume_new]
  decide +kernel

/-- the number that is never handed out has no entry -/
theorem Owned.entryNum_ne {t : Driver} (h : Owned t) {b : ℕ} (hb : b < 67108864) : entryNum t.vol.file b ≠ 262145 := by
  intro e
  have hne : entryNum t.vol.file b ≠ 0 := by omega
  have hlow := h.num_low (o := .entry b) ⟨hb, hne⟩
  rw [Driver.num, e] at hlow
  exact lt_irrefl _ hlow

/-- **A lost block.** -/
theorem reopen_loses_block : ¬ ∀ start es, Recovers (fileLeft File.new start es) := by
  intro h
  have hmeets : Meets Driver.step NoDoubleFree (Driver.new 0) oneWrite :=
    ⟨fun _ i hi k hk => absurd hk List.not_mem_nil, trivial, trivial⟩
  have hown : Owned (run Driver.step (Driver.new 0) oneWrite) :=
    run_inv_of_meets Driver.step NoDoubleFree Owned step_owned _ _ (owned_new 0) hmeets
  have hall := (recovers_iff (fileLeft_size File.new 0 oneWrite)).1 (h 0 oneWrite)
  have hlt : (262145 : ℤ) < ((fileLeft File.new 0 oneWrite).size / blockSize : ℕ) := by
    rw [oneWrite_size, blockSize_eq]
    norm_num
  obtain ⟨b, hb, e⟩ := hall 262145 (le_refl _) hlt
  rw [fileLeft_new] at e
  exact hown.entryNum_ne hb e

end ChainedBlockStorage.NonAtomic
