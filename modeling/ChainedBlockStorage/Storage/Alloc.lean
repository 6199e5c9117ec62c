/-
The allocator (`get_free_block_num`) and the part of a call that happens before any metadata is written.

`AllocOk` relates the free queue and the counter to a set of blocks in use. `CallInv` is the invariant of a call in
progress: everything it has written so far went to blocks it was handed, nothing else of the file changed, and each
number it was handed was unused at that moment.

- `alloc_take`: `get_free_block_num` returns a positive number that is not in use and not in the queue, and the
  invariant holds with that number added to the blocks in use.
- `callInv_alloc`, `callInv_writeBlock`, `callInv_setPending`: the three primitive steps keep `CallInv`.
- `newBlockNums_spec`, `writeData_spec`: what the two allocating parts of a write hand out.

The counter is only trusted under `sound` (no number above it was ever handed out); without it a call is covered as
long as the queue does not run out (`Enough`).
-/
import ChainedBlockStorage.Storage.Atomic

namespace ChainedBlockStorage.Storage

open Crash

/-! ## The allocator -/

structure AllocOk (sound : Prop) (U : Set ℤ) (v : Volume) : Prop where
  nodup : v.freeBlocks.Nodup
  pos : ∀ x ∈ v.freeBlocks, 1 ≤ x
  unused : ∀ x ∈ v.freeBlocks, x ∉ U
  total : 0 ≤ v.numTotalBlocks
  below : sound → (∀ x ∈ U, x ≤ v.numTotalBlocks) ∧ ∀ x ∈ v.freeBlocks, x ≤ v.numTotalBlocks

/-- the next `n` numbers come from the queue, or the counter may be used -/
def Enough (sound : Prop) (n : ℕ) (v : Volume) : Prop := sound ∨ n ≤ v.freeBlocks.length

theorem allocOk_congr {sound : Prop} {U : Set ℤ} {v w : Volume} (h : AllocOk sound U v)
    (hf : w.freeBlocks = v.freeBlocks) (ht : w.numTotalBlocks = v.numTotalBlocks) : AllocOk sound U w := by
  obtain ⟨h1, h2, h3, h4, h5⟩ := h
  constructor <;> simpa only [hf, ht]

theorem allocOk_mono {sound : Prop} {U U' : Set ℤ} {v : Volume} (h : AllocOk sound U v) (hU : ∀ x ∈ U', x ∈ U) :
    AllocOk sound U' v :=
  { h with
    unused := fun x hx hx' => h.unused x hx (hU x hx')
    below := fun hs => ⟨fun x hx => (h.below hs).1 x (hU x hx), (h.below hs).2⟩ }

/-- the fields `get_free_block_num` leaves alone -/
structure SameBut (v w : Volume) : Prop where
  file : w.file = v.file
  firstBlock : w.firstBlock = v.firstBlock
  unc : w.uncommittedWrites = v.uncommittedWrites
  pending : w.pendingBlocks = v.pendingBlocks

theorem getFreeBlockNum_same (v : Volume) : SameBut v (getFreeBlockNum v).2 := by
  unfold getFreeBlockNum
  cases v.freeBlocks <;> exact ⟨rfl, rfl, rfl, rfl⟩

theorem getFreeBlockNum_enough {sound : Prop} {n : ℕ} {v : Volume} (h : Enough sound (n + 1) v) :
    Enough sound n (getFreeBlockNum v).2 := by
  rcases h with h | h
  · exact Or.inl h
  · right
    unfold getFreeBlockNum
    cases hq : v.freeBlocks with
    | nil => rw [hq] at h; simp at h
    | cons x l => rw [hq] at h; simpa using h

/-- **One call of `get_free_block_num`.** -/
theorem alloc_take {sound : Prop} {U : Set ℤ} {v : Volume} (h : AllocOk sound U v) (n : ℕ)
    (he : Enough sound (n + 1) v) :
    1 ≤ (getFreeBlockNum v).1 ∧ (getFreeBlockNum v).1 ∉ U ∧
      (getFreeBlockNum v).1 ∉ (getFreeBlockNum v).2.freeBlocks ∧
      AllocOk sound (insert (getFreeBlockNum v).1 U) (getFreeBlockNum v).2 := by
  have ht := h.total
  cases hq : v.freeBlocks with
  | nil =>
    have hs : sound := by
      rcases he with he | he
      · exact he
      · rw [hq] at he; simp at he
    have hb := (h.below hs).1
    have hn : v.numTotalBlocks + 1 ∉ U := fun hu => by have := hb _ hu; omega
    simp only [getFreeBlockNum, hq]
    refine ⟨by omega, hn, by simp, ?_⟩
    refine ⟨by simp, by simp, by simp, by simp only; omega, fun _ => ⟨fun x hx => ?_, by simp⟩⟩
    rcases Set.mem_insert_iff.1 hx with rfl | hx
    · exact le_rfl
    · have := hb x hx; simp only; omega
  | cons x l =>
    have hm : ∀ y ∈ l, y ∈ v.freeBlocks := fun y hy => by rw [hq]; exact List.mem_cons_of_mem x hy
    have hx : x ∈ v.freeBlocks := by rw [hq]; exact List.mem_cons_self
    have hnd := h.nodup
    rw [hq, List.nodup_cons] at hnd
    simp only [getFreeBlockNum, hq]
    refine ⟨h.pos x hx, h.unused x hx, hnd.1, hnd.2, fun y hy => h.pos y (hm y hy), fun y hy hyU => ?_, ht,
      fun hs => ⟨fun y hy => ?_, fun y hy => (h.below hs).2 y (hm y hy)⟩⟩
    · rcases Set.mem_insert_iff.1 hyU with rfl | hyU
      · exact hnd.1 hy
      · exact h.unused y (hm y hy) hyU
    · rcases Set.mem_insert_iff.1 hy with rfl | hy
      · exact (h.below hs).2 y hx
      · exact (h.below hs).1 y hy

/-! ## `uncommitted_writes` -/

@[simp] theorem getFreeBlockNum_unc (c : Call) :
    c.getFreeBlockNum.2.vol.uncommittedWrites = c.vol.uncommittedWrites := (getFreeBlockNum_same c.vol).unc

@[simp] theorem newBlockNums_unc (c : Call) (same two : Bool) (junk : ℤ) :
    (c.newBlockNums same two junk).2.vol.uncommittedWrites = c.vol.uncommittedWrites := by
  cases same <;> cases two <;> simp [Call.newBlockNums]

@[simp] theorem writeLevel_unc (c : Call) (same : Bool) (n : ℤ × ℤ) (b : Words × Words) :
    (c.writeLevel same n b).vol.uncommittedWrites = c.vol.uncommittedWrites := by
  cases same <;> rfl

theorem writeData_unc (buf : Buf) (off : ℤ) (c : Call) :
    (writeData buf off c).2.vol.uncommittedWrites = c.vol.uncommittedWrites := by
  simp only [writeData]
  split <;> simp [Call.setPending, Call.writeBlock]

theorem writeMetadata_unc (junk : ℕ → ℤ) (seq : ℤ) (d : ℕ → ℤ) (off : ℤ) (c : Call) :
    (writeMetadata junk seq d off c).2.vol.uncommittedWrites = c.vol.uncommittedWrites := by
  simp only [writeMetadata, writeLevel_unc, allocLevels, newBlockNums_unc]

/-- a write adds its own entry -/
theorem write_unc (junk : ℕ → ℤ) (buf : Buf) (off seq : ℤ) (v : Volume) :
    ∃ uw, (write junk buf off seq v).vol.uncommittedWrites =
      fun n => if n = seq then some uw else v.uncommittedWrites n := by
  let d := writeData buf off (Call.start v)
  refine ⟨(writeMetadata junk seq d.1 off d.2).1, ?_⟩
  have h : (writeMetadata junk seq d.1 off d.2).2.vol.uncommittedWrites = v.uncommittedWrites :=
    (writeMetadata_unc junk seq d.1 off d.2).trans (writeData_unc buf off (Call.start v))
  funext n
  rw [← h]
  rfl

/-- a commit removes its own entry -/
theorem commit_unc {seq off : ℤ} {v : Volume} {c : Call} (h : commit seq off v = some c) :
    c.vol.uncommittedWrites = fun n => if n = seq then none else v.uncommittedWrites n := by
  unfold commit at h
  cases hu : v.uncommittedWrites seq with
  | none => simp [hu] at h
  | some uw =>
    simp only [hu, Option.some.injEq] at h
    subst h
    simp only [Call.fdatasync, Call.writeBlock, Call.start, switchRoot]
    split <;> rfl

/-- `commit` dereferences what it finds -/
theorem commit_eq_none (seq off : ℤ) (v : Volume) : commit seq off v = none ↔ v.uncommittedWrites seq = none := by
  unfold commit
  cases v.uncommittedWrites seq <;> simp

/-! ## A call in progress -/

/-- the numbers `get_free_block_num` has returned during the call -/
def Call.nums (c : Call) : Set ℤ := {x | ∃ g ∈ c.got, g.1 = x}

/-- a number was fine to hand out, seen from the state `v` in which the call began -/
structure GotOk (U : Set ℤ) (v : Volume) (g : ℤ × Volume) : Prop where
  pos : 1 ≤ g.1
  unused : g.1 ∉ U
  queue : g.1 ∉ g.2.freeBlocks
  firstBlock : g.2.firstBlock = v.firstBlock
  unc : g.2.uncommittedWrites = v.uncommittedWrites
  file : ∀ x ∈ U, g.2.file.block x = v.file.block x

/-- the invariant of a call that began in `v`, with the blocks `U` in use; besides the blocks it was handed it may have
written those in `J` -/
structure CallInv (sound : Prop) (U J : Set ℤ) (v : Volume) (c : Call) : Prop where
  alloc : AllocOk sound (U ∪ c.nums) c.vol
  got : ∀ g ∈ c.got, GotOk U v g
  firstBlock : c.vol.firstBlock = v.firstBlock
  unc : c.vol.uncommittedWrites = v.uncommittedWrites
  file : ∀ x ∉ c.nums, x ∉ J → c.vol.file.block x = v.file.block x
  io : c.vol.file = c.io.foldl (Io.apply File.write) v.file
  wrote : ∀ w, .pwrite w ∈ c.io → w.1 ∈ c.nums ∨ w.1 ∈ J

variable {sound : Prop} {U J : Set ℤ} {v : Volume} {c : Call}

theorem callInv_start (h : AllocOk sound U v) : CallInv sound U ∅ v (Call.start v) where
  alloc := allocOk_mono h (by simp [Call.nums, Call.start])
  got := by simp [Call.start]
  firstBlock := rfl
  unc := rfl
  file := fun _ _ _ => rfl
  io := rfl
  wrote := by simp [Call.start]

theorem nums_alloc (c : Call) : c.getFreeBlockNum.2.nums = insert c.getFreeBlockNum.1 c.nums := by
  ext x
  simp only [Call.nums, Call.getFreeBlockNum, Set.mem_ofPred_eq, List.mem_append, List.mem_singleton,
    Set.mem_insert_iff, or_and_right, exists_or, exists_eq_left]
  rw [or_comm, eq_comm]

theorem CallInv.not_mem (h : CallInv sound U J v c) {x : ℤ} (hx : x ∈ c.nums) : x ∉ U := by
  obtain ⟨g, hg, rfl⟩ := hx
  exact (h.got g hg).unused

theorem CallInv.pos (h : CallInv sound U J v c) {x : ℤ} (hx : x ∈ c.nums) : 1 ≤ x := by
  obtain ⟨g, hg, rfl⟩ := hx
  exact (h.got g hg).pos

theorem callInv_alloc (h : CallInv sound U ∅ v c) (n : ℕ) (he : Enough sound (n + 1) c.vol) :
    CallInv sound U ∅ v c.getFreeBlockNum.2 ∧ c.getFreeBlockNum.1 ∉ c.nums ∧
      Enough sound n c.getFreeBlockNum.2.vol := by
  obtain ⟨hpos, hnew, hq, hal⟩ := alloc_take h.alloc n he
  have hs := getFreeBlockNum_same c.vol
  have hU : c.getFreeBlockNum.1 ∉ U := fun hu => hnew (Or.inl hu)
  refine ⟨⟨?_, fun g hg => ?_, ?_, ?_, fun x hx _ => ?_, ?_, fun w hw => ?_⟩, fun hm => hnew (Or.inr hm),
    getFreeBlockNum_enough he⟩
  · rw [nums_alloc, Set.union_insert]; exact hal
  · simp only [Call.getFreeBlockNum, List.mem_append, List.mem_singleton] at hg
    rcases hg with hg | rfl
    · exact h.got g hg
    · refine ⟨hpos, hU, hq, hs.firstBlock.trans h.firstBlock, hs.unc.trans h.unc, fun x hx => ?_⟩
      rw [hs.file]
      exact h.file x (fun hm => h.not_mem hm hx) (Set.notMem_empty x)
  · exact hs.firstBlock.trans h.firstBlock
  · exact hs.unc.trans h.unc
  · rw [nums_alloc, Set.mem_insert_iff, not_or] at hx
    simp only [Call.getFreeBlockNum, hs.file]
    exact h.file x hx.2 (Set.notMem_empty x)
  · simp only [Call.getFreeBlockNum, hs.file]; exact h.io
  · rw [nums_alloc]; exact Or.inl (Set.mem_insert_of_mem _ ((h.wrote w hw).resolve_right (Set.notMem_empty w.1)))

theorem callInv_writeBlock (h : CallInv sound U J v c) (n : ℤ) (b : Block) (hn : n ∈ c.nums ∨ n ∈ J) :
    CallInv sound U J v (c.writeBlock n b) := by
  refine ⟨allocOk_congr h.alloc rfl rfl, h.got, h.firstBlock, h.unc, fun x hx hxJ => ?_, ?_, fun w hw => ?_⟩
  · have hxn : x ≠ n := fun e => by
      rcases hn with hn | hn
      · exact hx (e ▸ hn)
      · exact hxJ (e ▸ hn)
    exact (write_block_ne c.vol.file (n, b) x hxn).trans (h.file x hx hxJ)
  · simp only [Call.writeBlock, List.foldl_append, ← h.io]; rfl
  · simp only [Call.writeBlock, List.mem_append, List.mem_singleton, Io.pwrite.injEq] at hw
    rcases hw with hw | rfl
    · exact h.wrote w hw
    · exact hn

theorem callInv_mono {J' : Set ℤ} (h : CallInv sound U J v c) (hJ : ∀ x ∈ J, x ∈ J') : CallInv sound U J' v c :=
  { h with
    file := fun x hx hxJ => h.file x hx (fun hj => hxJ (hJ x hj))
    wrote := fun w hw => (h.wrote w hw).imp_right (hJ w.1) }

theorem callInv_setPending (h : CallInv sound U J v c) (o n : ℤ) : CallInv sound U J v (c.setPending o n) :=
  { h with alloc := allocOk_congr h.alloc rfl rfl }

/-! ## The numbers of one level -/

/-- how many numbers a level takes -/
def levelCount (same two : Bool) : ℕ := if two ∧ ¬ same then 2 else 1

/-- the numbers `n` of one level, handed out between `c` and `c'` -/
structure LevelNums (same two : Bool) (c c' : Call) (n : ℤ × ℤ) : Prop where
  mono : ∀ x ∈ c.nums, x ∈ c'.nums
  file : c'.vol.file = c.vol.file
  pending : c'.vol.pendingBlocks = c.vol.pendingBlocks
  io : c'.io = c.io
  fst : n.1 ∈ c'.nums
  fst_new : n.1 ∉ c.nums
  one : same → n.2 = n.1
  snd : two → ¬ same → n.2 ∈ c'.nums
  snd_new : two → ¬ same → n.2 ∉ c.nums
  snd_ne : two → ¬ same → n.2 ≠ n.1

theorem newBlockNums_spec (h : CallInv sound U ∅ v c) (same two : Bool) (junk : ℤ) (n : ℕ)
    (he : Enough sound (n + levelCount same two) c.vol) :
    CallInv sound U ∅ v (c.newBlockNums same two junk).2 ∧ Enough sound n (c.newBlockNums same two junk).2.vol ∧
      LevelNums same two c (c.newBlockNums same two junk).2 (c.newBlockNums same two junk).1 := by
  have hsa := getFreeBlockNum_same c.vol
  have hma : ∀ x ∈ c.nums, x ∈ c.getFreeBlockNum.2.nums := fun x hx => by
    rw [nums_alloc]; exact Set.mem_insert_of_mem _ hx
  have hself : c.getFreeBlockNum.1 ∈ c.getFreeBlockNum.2.nums := by rw [nums_alloc]; exact Set.mem_insert _ _
  cases same with
  | true =>
    obtain ⟨ha, hnew, hea⟩ := callInv_alloc h n (by simpa [levelCount] using he)
    exact ⟨ha, hea, hma, hsa.file, hsa.pending, rfl, hself, hnew, fun _ => rfl, by simp, by simp, by simp⟩
  | false =>
    cases two with
    | false =>
      obtain ⟨ha, hnew, hea⟩ := callInv_alloc h n (by simpa [levelCount] using he)
      exact ⟨ha, hea, hma, hsa.file, hsa.pending, rfl, hself, hnew, by simp, by simp, by simp, by simp⟩
    | true =>
      obtain ⟨ha, hnew, hea⟩ := callInv_alloc h (n + 1) (by simpa [levelCount] using he)
      obtain ⟨hb, hnewb, heb⟩ := callInv_alloc ha n hea
      have hsb := getFreeBlockNum_same c.getFreeBlockNum.2.vol
      have hmb : ∀ x ∈ c.getFreeBlockNum.2.nums, x ∈ c.getFreeBlockNum.2.getFreeBlockNum.2.nums := fun x hx => by
        rw [nums_alloc c.getFreeBlockNum.2]; exact Set.mem_insert_of_mem _ hx
      have hselfb : c.getFreeBlockNum.2.getFreeBlockNum.1 ∈ c.getFreeBlockNum.2.getFreeBlockNum.2.nums := by
        rw [nums_alloc c.getFreeBlockNum.2]; exact Set.mem_insert _ _
      refine ⟨hb, heb, fun x hx => hmb x (hma x hx), hsb.file.trans hsa.file, hsb.pending.trans hsa.pending, rfl,
        hmb _ hself, hnew, by simp, fun _ _ => hselfb, fun _ _ hx => hnewb (hma _ hx), fun _ _ e => hnewb ?_⟩
      have e' : c.getFreeBlockNum.2.getFreeBlockNum.1 = c.getFreeBlockNum.1 := e
      rw [e']
      exact hself

/-- without a second target the second number is whatever was there -/
theorem newBlockNums_junk (c : Call) (junk : ℤ) : (c.newBlockNums false false junk).1.2 = junk := rfl

/-! ## The data blocks -/

theorem tmod_block (b r : ℕ) (hr : r < 4096) : ((4096 * b + r : ℕ) : ℤ).tmod 4096 = r := by
  rw [Int.tmod_eq_emod_of_nonneg (by omega)]
  omega

/-- the offset of the next block -/
theorem block_next (b : ℕ) : (4096 * b : ℤ) + 4096 = 4096 * (b + 1 : ℕ) := by
  push_cast
  ring

/-- how many numbers the data blocks take -/
def dataCount (r : ℕ) : ℕ := if r ≠ 0 then 2 else 1

/-- the data blocks `d` of a write of `buf` at block `b`, remainder `r` -/
structure DataNums (v : Volume) (buf : Buf) (b r : ℕ) (d : ℕ → ℤ) (c : Call) : Prop where
  fst : d 0 ∈ c.nums
  snd : r ≠ 0 → d 1 ∈ c.nums
  ne : r ≠ 0 → d 1 ≠ d 0
  fst_block : c.vol.file.block (d 0) = .bytes (fillFrom r (readAligned v (4096 * b)) buf)
  snd_block : r ≠ 0 → ∃ w : Volume, w.firstBlock = v.firstBlock ∧ (∀ x ≠ d 0, w.file.block x = v.file.block x) ∧
    w.pendingBlocks (4096 * (b + 1)) = v.pendingBlocks (4096 * (b + 1)) ∧
    c.vol.file.block (d 1) = .bytes (fillUpTo r (readAligned w (4096 * (b + 1))) buf)
  pending : c.vol.pendingBlocks = fun o : ℤ => if r ≠ 0 ∧ o = 4096 * (b + 1) then some (d 1)
    else if o = 4096 * b then some (d 0) else v.pendingBlocks o

theorem readAligned_congr (v w : Volume) (hfile : w.file = v.file) (hfirst : w.firstBlock = v.firstBlock) (offset : ℤ)
    (hpend : w.pendingBlocks offset = v.pendingBlocks offset) : readAligned w offset = readAligned v offset := by
  simp only [readAligned, committedBlockNum, hfile, hfirst, hpend]

theorem read_aligned (v : Volume) (b : ℕ) : read v (4096 * b) = readAligned v (4096 * b) := by
  simp [read]

theorem fillFrom_zero (old buf : Buf) : fillFrom 0 old buf = buf := by
  funext p; simp [fillFrom]

theorem writeData_spec_one (h : AllocOk sound U v) (buf : Buf) (b : ℕ) (n : ℕ) (he : Enough sound (n + 1) v) :
    let w := writeData buf (4096 * b + 0 : ℕ) (Call.start v)
    CallInv sound U ∅ v w.2 ∧ Enough sound n w.2.vol ∧ DataNums v buf b 0 w.1 w.2 := by
  intro w
  have hs := getFreeBlockNum_same v
  obtain ⟨ha, -, hea⟩ := callInv_alloc (callInv_start h) n he
  have hmem : (Call.start v).getFreeBlockNum.1 ∈ (Call.start v).getFreeBlockNum.2.nums := by
    rw [nums_alloc]; exact Set.mem_insert _ _
  have hw : w = writeData buf (4096 * b + 0 : ℕ) (Call.start v) := rfl
  simp only [writeData, blockSize_eq, Nat.cast_ofNat, tmod_block b 0 (by omega), Nat.cast_zero, ne_eq, not_true,
    if_false] at hw
  rw [hw]
  refine ⟨callInv_setPending (callInv_writeBlock ha _ _ (Or.inl hmem)) _ _, hea, hmem, by simp, by simp, ?_, by simp, ?_⟩
  · simp [fillFrom_zero, Call.setPending, Call.writeBlock]
  · funext o
    simp [Call.setPending, Call.writeBlock, hs.pending, Call.getFreeBlockNum, Call.start]

theorem writeData_spec_two (h : AllocOk sound U v) (buf : Buf) (b r : ℕ) (hr : r < 4096) (hr0 : r ≠ 0) (n : ℕ)
    (he : Enough sound (n + 2) v) :
    let w := writeData buf (4096 * b + r : ℕ) (Call.start v)
    CallInv sound U ∅ v w.2 ∧ Enough sound n w.2.vol ∧ DataNums v buf b r w.1 w.2 := by
  intro w
  have hoff : ((4096 * b + r : ℕ) : ℤ) - (r : ℤ) = 4096 * b := by push_cast; omega
  have hoff1 : (4096 * b : ℤ) + 4096 = 4096 * (b + 1) := by ring
  -- the first block
  set a := (Call.start v).getFreeBlockNum with hadef
  have hs := getFreeBlockNum_same v
  obtain ⟨ha, -, hea⟩ := callInv_alloc (callInv_start h) (n + 1) he
  have hmema : a.1 ∈ a.2.nums := by rw [hadef, nums_alloc]; exact Set.mem_insert _ _
  set c := (a.2.writeBlock a.1 (.bytes (fillFrom r (readAligned v (4096 * b)) buf))).setPending (4096 * b) a.1 with hc
  have hcinv : CallInv sound U ∅ v c := callInv_setPending (callInv_writeBlock ha _ _ (Or.inl hmema)) _ _
  -- the second block
  set d := c.getFreeBlockNum with hddef
  have hsd := getFreeBlockNum_same c.vol
  obtain ⟨hd, hnewd, hed⟩ := callInv_alloc hcinv n hea
  have hmemd : d.1 ∈ d.2.nums := by rw [hddef, nums_alloc]; exact Set.mem_insert _ _
  have hne : d.1 ≠ a.1 := fun e => hnewd (show c.getFreeBlockNum.1 ∈ c.nums by rw [← hddef, e]; exact hmema)
  have hmemad : a.1 ∈ d.2.nums := by rw [hddef, nums_alloc]; exact Set.mem_insert_of_mem _ hmema
  have hfa : a.2.vol.file = v.file := hs.file
  have hpa : a.2.vol.pendingBlocks = v.pendingBlocks := hs.pending
  have hfd : d.2.vol.file = c.vol.file := hsd.file
  have hpd : d.2.vol.pendingBlocks = c.vol.pendingBlocks := hsd.pending
  have hread : read a.2.vol (4096 * b) = readAligned v (4096 * b) := by
    rw [read_aligned]
    exact readAligned_congr v a.2.vol hs.file hs.firstBlock _ (congrFun hs.pending _)
  have hw : w = (fun i => if i = 0 then a.1 else d.1,
      (d.2.writeBlock d.1 (.bytes (fillUpTo r (readAligned d.2.vol (4096 * (b + 1))) buf))).setPending
        (4096 * (b + 1)) d.1) := by
    have h1 := read_aligned d.2.vol (b + 1)
    push_cast at h1
    have hr0' : (r : ℤ) ≠ 0 := by exact_mod_cast hr0
    rw [← h1, hddef, hc, ← hread, hadef]
    simp only [w, writeData, tmod_block b r hr, hoff, hr0', ne_eq, not_false_eq_true, if_true, Int.toNat_natCast,
      blockSize_eq, Nat.cast_ofNat, hoff1]
  rw [hw]
  refine ⟨callInv_setPending (callInv_writeBlock hd _ _ (Or.inl hmemd)) _ _, hed, hmemad, fun _ => hmemd, fun _ => hne, ?_,
    fun _ => ⟨d.2.vol, ?_, ?_, ?_, ?_⟩, ?_⟩
  · simp only [Call.setPending, Call.writeBlock, hfd, hc]
    simp [File.write, hne.symm]
  · exact hd.firstBlock
  · intro x hx
    have hx' : x ≠ a.1 := by simpa using hx
    rw [hfd, hc]
    simp [Call.setPending, Call.writeBlock, File.write, hx', hfa]
  · rw [hpd, hc]
    simp [Call.setPending, Call.writeBlock, hpa]
  · simp [Call.setPending, Call.writeBlock]
  · funext o
    simp only [Call.setPending, Call.writeBlock, hpd, hc, hpa]
    simp [hr0]

theorem writeData_spec (h : AllocOk sound U v) (buf : Buf) (b r : ℕ) (hr : r < 4096) (n : ℕ)
    (he : Enough sound (n + dataCount r) v) :
    let w := writeData buf (4096 * b + r : ℕ) (Call.start v)
    CallInv sound U ∅ v w.2 ∧ Enough sound n w.2.vol ∧ DataNums v buf b r w.1 w.2 := by
  by_cases hr0 : r = 0
  · subst hr0
    exact writeData_spec_one h buf b n (by simpa [dataCount] using he)
  · exact writeData_spec_two h buf b r hr hr0 n (by simpa [dataCount, hr0] using he)

end ChainedBlockStorage.Storage
