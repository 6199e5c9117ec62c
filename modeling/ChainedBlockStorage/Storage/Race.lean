/-
`commit` of a write on one thread and the next write on another.

`commit` erases its write from `uncommitted_writes` before it takes the mutex and switches the root; `write_metadata`
takes the mutex to read the tree it builds on. Each thread is cut at these points, and the pieces interleave.

- `commit_pieces`, `write_pieces`: run by itself each thread is `commit` and `write`.
- `update_kept`: if the metadata is not read between the erasure and the switch, the new tree is built on the committed
  write's, and every block the new write does not touch keeps it.
- `read_in_gap_loses_update`: read in between, the tree is built on the one before.
-/
import ChainedBlockStorage.Storage.Leaves
import ChainedBlockStorage.Storage.Open

namespace ChainedBlockStorage.Storage

open Crash Radix Run

/-! ## The pieces of `commit` -/

/-- `uncommitted_writes.erase` -/
def eraseWrite (sequenceNumber : ℤ) (v : Volume) : Volume :=
  { v with uncommittedWrites := fun n => if n = sequenceNumber then none else v.uncommittedWrites n }

/-- what `commit` does under the mutex -/
def switchRoots (sequenceNumber volumeOffset : ℤ) (uw : UncommittedWrite) (v : Volume) : Volume :=
  let volumeOffset := volumeOffset - volumeOffset.tmod blockSize
  let v := switchRoot v volumeOffset (uw.newMetadataOffset 0)
  let v := if uw.newMetadataOffset 1 ≠ 0 ∧ uw.newMetadataOffset 0 ≠ uw.newMetadataOffset 1 then
      switchRoot v (volumeOffset + 4096) (uw.newMetadataOffset 1)
    else v
  { v with firstBlock := { v.firstBlock with lastCommitted := sequenceNumber } }

/-- the first block to disk, and the old blocks to the free queue -/
def persist (uw : UncommittedWrite) (v : Volume) : Volume :=
  { v with file := v.file.write (0, v.firstBlock.toBlock), freeBlocks := v.freeBlocks ++ uw.toFree }

theorem commit_pieces (sequenceNumber volumeOffset : ℤ) (v : Volume) :
    (commit sequenceNumber volumeOffset v).map Call.vol = (v.uncommittedWrites sequenceNumber).map fun uw =>
      persist uw (switchRoots sequenceNumber volumeOffset uw (eraseWrite sequenceNumber v)) := by
  unfold commit
  cases v.uncommittedWrites sequenceNumber <;> rfl

/-! ## The pieces of `write` -/

/-- new block numbers and metadata blocks, from the metadata `m` that was read -/
def buildTree (junk : ℕ → ℤ) (sequenceNumber : ℤ) (d : ℕ → ℤ) (m : MetaPlan) (v : Volume) : UncommittedWrite × Volume :=
  let a := allocLevels m junk (Call.start v)
  (⟨toFreeOf m.p0 m.p1, fun i => if i = 0 then (a.1 0).1 else (a.1 0).2⟩,
    (a.2.writeLevels m.same a.1 (newBlocks m a.1 sequenceNumber d)).vol)

/-- `uncommitted_writes[sequence_number] = uw` -/
def insertWrite (sequenceNumber : ℤ) (uw : UncommittedWrite) (v : Volume) : Volume :=
  { v with uncommittedWrites := fun n => if n = sequenceNumber then some uw else v.uncommittedWrites n }

/-- the numbers do not depend on what the call did before -/
theorem allocLevels_start (m : MetaPlan) (junk : ℕ → ℤ) (c : Call) :
    (allocLevels m junk c).1 = (allocLevels m junk (Call.start c.vol)).1 ∧
      (allocLevels m junk c).2.vol = (allocLevels m junk (Call.start c.vol)).2.vol := by
  have h : ∀ (c c' : Call) (same two : Bool) (x : ℤ), c'.vol = c.vol →
      (c'.newBlockNums same two x).1 = (c.newBlockNums same two x).1 ∧
        (c'.newBlockNums same two x).2.vol = (c.newBlockNums same two x).2.vol := by
    intro c c' same two x hc
    cases same <;> cases two <;> simp [Call.newBlockNums, Call.getFreeBlockNum, hc]
  have h0 := h (Call.start c.vol) c (m.same 0) m.two (junk 0) rfl
  have h1 := h _ _ (m.same 1) m.two (junk 1) h0.2
  have h2 := h _ _ (m.same 2) m.two (junk 2) h1.2
  refine ⟨?_, h2.2⟩
  simp only [allocLevels, h0.1, h1.1, h2.1]

theorem writeLevels_vol {c c' : Call} (h : c'.vol = c.vol) (one : ℕ → Bool) (n : ℕ → ℤ × ℤ) (b : ℕ → Words × Words) :
    (c'.writeLevels one n b).vol = (c.writeLevels one n b).vol := by
  unfold Call.writeLevels Call.writeLevel
  cases one 0 <;> cases one 1 <;> cases one 2 <;> simp [Call.writeBlock, h]

/-- `buildTree`, continuing any call -/
theorem buildTree_eq (junk : ℕ → ℤ) (seq : ℤ) (d : ℕ → ℤ) (m : MetaPlan) (c : Call) :
    buildTree junk seq d m c.vol =
      (⟨toFreeOf m.p0 m.p1, fun i => if i = 0 then ((allocLevels m junk c).1 0).1 else ((allocLevels m junk c).1 0).2⟩,
        ((allocLevels m junk c).2.writeLevels m.same (allocLevels m junk c).1
          (newBlocks m (allocLevels m junk c).1 seq d)).vol) := by
  obtain ⟨h1, h2⟩ := allocLevels_start m junk c
  rw [writeLevels_vol h2, h1]
  rfl

theorem write_pieces (junk : ℕ → ℤ) (buf : Buf) (volumeOffset sequenceNumber : ℤ) (v : Volume) :
    let d := writeData buf volumeOffset (Call.start v)
    let t := buildTree junk sequenceNumber d.1 (metaPlan d.2.vol sequenceNumber volumeOffset) d.2.vol
    (write junk buf volumeOffset sequenceNumber v).vol = insertWrite sequenceNumber t.1 t.2 := by
  intro d t
  have ht : t = buildTree junk sequenceNumber d.1 (metaPlan d.2.vol sequenceNumber volumeOffset) d.2.vol := rfl
  rw [ht, buildTree_eq]
  rfl

/-! ## The race -/

/-- `commit n` and write n + 1 -/
structure Job where
  n : ℤ
  commitOffset : ℤ
  buf : Buf
  offset : ℤ
  /-- what the unassigned numbers of the write hold -/
  junk : ℕ → ℤ

inductive CommitPhase where
  | start
  | erased (uw : UncommittedWrite)
  | switched (uw : UncommittedWrite)
  | done

/-- `data`: the data blocks are written. `planned`: the metadata has been read. `built`: the new tree is written. -/
inductive WritePhase where
  | start
  | data (fileOffset : ℕ → ℤ)
  | planned (fileOffset : ℕ → ℤ) (m : MetaPlan)
  | built (uw : UncommittedWrite)
  | done

structure Race where
  vol : Volume
  commit : CommitPhase
  write : WritePhase

/-- the thread that goes next -/
inductive Turn where
  | commit
  | write
deriving DecidableEq

def Race.start (v : Volume) : Race := ⟨v, .start, .start⟩

def Race.step (job : Job) (r : Race) : Turn → Race
  | .commit =>
    match r.commit with
    | .start =>
      match r.vol.uncommittedWrites job.n with
      | none => r
      | some uw => { r with vol := eraseWrite job.n r.vol, commit := .erased uw }
    | .erased uw => { r with vol := switchRoots job.n job.commitOffset uw r.vol, commit := .switched uw }
    | .switched uw => { r with vol := persist uw r.vol, commit := .done }
    | .done => r
  | .write =>
    match r.write with
    | .start =>
      let d := writeData job.buf job.offset (Call.start r.vol)
      { r with vol := d.2.vol, write := .data d.1 }
    | .data d => { r with write := .planned d (metaPlan r.vol (job.n + 1) job.offset) }
    | .planned d m =>
      let t := buildTree job.junk (job.n + 1) d m r.vol
      { r with vol := t.2, write := .built t.1 }
    | .built uw => { r with vol := insertWrite (job.n + 1) uw r.vol, write := .done }
    | .done => r

/-- the metadata is read while write n is in neither place -/
def Gap (r : Race) : Turn → Prop
  | .commit => False
  | .write => ∃ uw d, r.commit = .erased uw ∧ r.write = .data d

instance (r : Race) (t : Turn) : Decidable (Gap r t) :=
  match t, r with
  | .commit, _ => isFalse id
  | .write, ⟨_, .erased uw, .data d⟩ => isTrue ⟨uw, d, rfl, rfl⟩
  | .write, ⟨_, .start, _⟩ | .write, ⟨_, .switched _, _⟩ | .write, ⟨_, .done, _⟩ => isFalse (by simp [Gap])
  | .write, ⟨_, .erased _, .start⟩ | .write, ⟨_, .erased _, .planned _ _⟩ | .write, ⟨_, .erased _, .built _⟩
  | .write, ⟨_, .erased _, .done⟩ => isFalse (by simp [Gap])

/-- the unassigned numbers name no block of the volume `v` the race began in and none the write was handed -/
def RaceUnused (v : Volume) (job : Job) (r : Race) : Turn → Prop
  | .commit => True
  | .write => ∀ d m, r.write = .planned d m → ∀ x ∈ strays job.junk (blockOf job.offset) (remOf job.offset),
      x ≠ 0 ∧ ¬ v.Holds x ∧ ∀ j ≤ 3, ∀ i, Own (blockOf job.offset) (remOf job.offset) i j →
        x ≠ numOf d (allocLevels m job.junk (Call.start r.vol)).1 i j

/-! ## Building the new tree -/

/-- a call that goes on in `v` with the numbers `handed` -/
def Call.resume (v : Volume) (handed : List ℤ) : Call := ⟨v, [], handed.map fun x => (x, { v with freeBlocks := [] })⟩

theorem nums_resume (v : Volume) (handed : List ℤ) : (Call.resume v handed).nums = {x | x ∈ handed} := by
  ext x
  simp [Call.nums, Call.resume]

theorem callInv_resume {U : Set ℤ} {v : Volume} {handed : List ℤ} (h : AllocOk True (U ∪ {x | x ∈ handed}) v)
    (hnew : ∀ x ∈ handed, 1 ≤ x ∧ x ∉ U) : CallInv True U ∅ v (Call.resume v handed) where
  alloc := by
    rw [nums_resume]
    exact h
  got g hg := by
    obtain ⟨x, hx, rfl⟩ := List.mem_map.1 hg
    exact ⟨(hnew x hx).1, (hnew x hx).2, List.not_mem_nil, rfl, rfl, fun _ _ => rfl⟩
  firstBlock := rfl
  unc := rfl
  file _ _ _ := rfl
  io := rfl
  wrote := by simp [Call.resume]

/-- the new tree under `root'` holds what the tree under `root` in `f` holds, where the write does not touch it -/
def Extends (f : File) (root : ℤ) (w : ℤ × Buf) (g : File) (root' : ℤ) : Prop :=
  ∀ b : ℕ, b < 67108864 → ¬ Touches b w → leafAt g root' b = leafAt f root b

section Build

variable {f : File} {root seq : ℤ} {v : Volume} {U : Set ℤ} {b r : ℕ} {m : MetaPlan} {d : ℕ → ℤ}
  {a : (ℕ → ℤ × ℤ) × Call}

/-- the numbers are handed out, and nothing is written yet -/
structure Numbered (U : Set ℤ) (f : File) (root : ℤ) (v : Volume) (b r : ℕ) (m : MetaPlan) (d : ℕ → ℤ)
    (a : (ℕ → ℤ × ℤ) × Call) : Prop where
  inv : CallInv True U ∅ v a.2
  nums : NumsOk b r d a.1 a.2
  file : a.2.vol.file = v.file
  plan : PlanOk b r root f m
  second : r ≠ 0 → b + 1 < 67108864
  used : ∀ x, Reach volShape (child f) root x → x ∈ U
  kept : ∀ x, Reach volShape (child f) root x → v.file.block x = f.block x

theorem Numbered.mem_fst (h : Numbered U f root v b r m d a) (j : ℕ) (hj : j < 3) : (a.1 j).1 ∈ a.2.nums := by
  rw [← numOf_fst d a.1 j hj]
  exact h.nums.mem j (by omega) 0 (Or.inl rfl)

theorem Numbered.mem_snd (h : Numbered U f root v b r m d a) (j : ℕ) (hj : j < 3)
    (ho : (m.same j || !m.two) = false) : (a.1 j).2 ∈ a.2.nums := by
  rw [← numOf_snd d a.1 j hj]
  exact h.nums.mem j (by omega) 1 ((own_iff h.plan h.second j hj).1 ho)

/-- the old tree stays while the new blocks are written -/
theorem Numbered.tree_kept (h : Numbered U f root v b r m d a) (bl : ℕ → Words × Words) (x : ℤ)
    (hx : Reach volShape (child f) root x) :
    (a.2.writeLevels (fun j => m.same j || !m.two) a.1 bl).vol.file.block x = f.block x := by
  have hx' : x ∉ a.2.nums := fun hm => h.inv.not_mem hm (h.used x hx)
  have h1 : ∀ j < 3, x ≠ (a.1 j).1 := fun j hj e => hx' (e ▸ h.mem_fst j hj)
  have h2 : ∀ j < 3, (m.same j || !m.two) = false → x ≠ (a.1 j).2 := fun j hj ho e => hx' (e ▸ h.mem_snd j hj ho)
  rw [writeLevels_frame h1 h2, h.file]
  exact h.kept x hx

theorem Numbered.blocksOk (h : Numbered U f root v b r m d a) :
    BlocksOk b r m seq d a.1
      (a.2.writeLevels (fun j => m.same j || !m.two) a.1 (newBlocks m a.1 seq d)).vol.file where
  pos j hj i ho := by
    have := h.inv.pos (h.nums.mem j (by omega) i ho)
    omega
  one := h.nums.one
  hit j hj i ho := writeLevels_hit h.nums.meta_inj (own_iff h.plan h.second) j hj i ho

theorem Numbered.freshFor (h : Numbered U f root v b r m d a) :
    FreshFor volShape (child f) root (touched b r) (freshOf b d a.1) where
  ne_zero j hj k _ hT := by
    have := h.inv.pos (h.nums.freshOf_mem hj hT)
    omega
  inj j hj k _ j' hj' k' _ hT hT' e := h.nums.freshOf_inj hj hj' hT hT' e
  new j hj k _ hT hx := h.inv.not_mem (h.nums.freshOf_mem hj hT) (h.used _ hx)

/-- **Building on a tree.** The new tree holds the old one's leaves where the write does not touch it. -/
theorem Numbered.extends (h : Numbered U f root v b r m d a) (hb0 : b < 67108864) {junk : ℕ → ℤ}
    (hjunk : ∀ j < 3, m.same j = false → m.two = false → (a.1 j).2 = junk j)
    (hj : ∀ x ∈ strays junk b r, ¬ Reach volShape (child f) root x ∧ ∀ j ≤ 3, ∀ i, Own b r i j → x ≠ numOf d a.1 i j)
    (w : ℤ × Buf) (hw : ∀ b', Touches b' w ↔ b' = b ∨ r ≠ 0 ∧ b' = b + 1) :
    Extends f root w (a.2.writeLevels m.same a.1 (newBlocks m a.1 seq d)).vol.file (a.1 0).1 := by
  set g := (a.2.writeLevels (fun j => m.same j || !m.two) a.1 (newBlocks m a.1 seq d)).vol.file with hg
  have hkept : ∀ x, Reach volShape (child f) root x → g.block x = f.block x := h.tree_kept _
  have hcopy : PathCopy volShape (child f) (child g) root (a.1 0).1 (touched b r) (freshOf b d a.1) := by
    have hblocks : BlocksOk b r m seq d a.1 g := h.blocksOk
    have := pathCopy_of_blocks h.plan hblocks hb0 h.second hkept
    rwa [numOf_fst d a.1 0 (by omega)] at this
  have hlost : LostTo (strays junk b r) g (a.2.writeLevels m.same a.1 (newBlocks m a.1 seq d)).vol.file :=
    lostTo_writeLevels a.2 m a.1 _ (fun j hj hs h2 => ⟨⟨j, stray_of_plan h.plan j hj hs h2, (hjunk j hj hs h2).symm⟩,
      newBlocks_junk h.plan a.1 seq d j hj (by simpa [h.plan.two] using h2)⟩)
  intro b' hb' hT
  rw [hw] at hT
  have hT3 : ¬ touched b r 3 b' := hT
  -- no block of the new tree is lost to an unassigned number
  have hframe : ∀ x, Reach volShape (child g) (a.1 0).1 x →
      (a.2.writeLevels m.same a.1 (newBlocks m a.1 seq d)).vol.file.block x = g.block x := by
    intro x hx
    apply lostTo_keep hlost
    intro hJ
    rcases (reach_of_pathCopy hcopy h.freshFor x).1 hx with ⟨j, hj', k, -, hk, e⟩ | ⟨hx0, j, hj', k, hk, -, e⟩
    · obtain ⟨i, ho, -, ef⟩ := touched_own d a.1 hk
      exact (hj x hJ).2 j hj' i ho (e.symm.trans ef)
    · exact (hj x hJ).1 ⟨hx0, j, hj', k, hk, e⟩
  have hnode : node volShape (child g) (a.1 0).1 3 b' = node volShape (child f) root 3 b' :=
    node_untouched hcopy 3 b' le_rfl hb' hT3
  have hupd : leafUpdated g (a.1 0).1 b' = leafUpdated f root b' := by
    have hblocks : BlocksOk b r m seq d a.1 g := h.blocksOk
    have := updated_of_blocks h.plan hblocks hb0 h.second hkept b' hb'
    rwa [numOf_fst d a.1 0 (by omega), if_neg hT] at this
  have hdata : leafData g (a.1 0).1 b' = leafData f root b' := by
    unfold leafData
    rw [hnode]
    split
    · rfl
    · next h0 => rw [hkept _ ⟨h0, 3, le_rfl, b', hb', rfl⟩]
  rw [leafAt_frame hframe b' hb', leafAt, leafAt, hnode, hdata, hupd]

end Build

/-! ## The invariant -/

/-- where write n is, seen from `commit` -/
def CommitAt (n : ℤ) (uw : UncommittedWrite) (v : Volume) : CommitPhase → Prop
  | .start => v.uncommittedWrites n = some uw
  | .erased uw' => uw' = uw ∧ v.uncommittedWrites n = none
  | .switched uw' => uw' = uw ∧ v.uncommittedWrites n = none ∧ v.firstBlock.firstLevelBlocks 0 = uw.newMetadataOffset 0
  | .done => v.uncommittedWrites n = none ∧ v.firstBlock.firstLevelBlocks 0 = uw.newMetadataOffset 0

/-- the old blocks of write n are not free yet -/
def Waiting : CommitPhase → Prop
  | .done => False
  | _ => True

/-- the data blocks of write n + 1, until its tree is built -/
def handed (r : ℕ) : WritePhase → List ℤ
  | .data d | .planned d _ => d 0 :: if r ≠ 0 then [d 1] else []
  | _ => []

/-- how far write n + 1 is; `f` holds the tree of write n under `root` -/
def WriteAt (f : File) (root : ℤ) (job : Job) (v : Volume) : WritePhase → Prop
  | .start => True
  | .data d => remOf job.offset ≠ 0 → d 1 ≠ d 0
  | .planned d m => (remOf job.offset ≠ 0 → d 1 ≠ d 0) ∧ PlanOk (blockOf job.offset) (remOf job.offset) root f m
  | .built uw => uw.newMetadataOffset 1 = uw.newMetadataOffset 0 ∧
      Extends f root (job.offset, job.buf) v.file (uw.newMetadataOffset 0)
  | .done => ∃ uw, v.uncommittedWrites (job.n + 1) = some uw ∧ uw.newMetadataOffset 1 = uw.newMetadataOffset 0 ∧
      Extends f root (job.offset, job.buf) v.file (uw.newMetadataOffset 0)

/-- the tree of write n and what it replaced -/
def Held (f : File) (uw : UncommittedWrite) (p : CommitPhase) : Set ℤ :=
  {x | Reach volShape (child f) (uw.newMetadataOffset 0) x ∨ Waiting p ∧ x ∈ uw.toFree}

/-- blocks that may not be handed out -/
def Busy (f : File) (uw : UncommittedWrite) (job : Job) (r : Race) : Set ℤ :=
  Held f uw r.commit ∪ {x | x ∈ handed (remOf job.offset) r.write}

/-- `f` is the file the race began with and `uw` write n -/
structure RaceInv (f : File) (uw : UncommittedWrite) (job : Job) (r : Race) : Prop where
  kept : ∀ x, Reach volShape (child f) (uw.newMetadataOffset 0) x → r.vol.file.block x = f.block x
  alloc : AllocOk True (Busy f uw job r) r.vol
  handed : ∀ x ∈ handed (remOf job.offset) r.write, 1 ≤ x ∧ ¬ Reach volShape (child f) (uw.newMetadataOffset 0) x ∧
    (Waiting r.commit → x ∉ uw.toFree)
  oneRoot : OneRoot r.vol
  commit : CommitAt job.n uw r.vol r.commit
  write : WriteAt f (uw.newMetadataOffset 0) job r.vol r.write

/-- write n as the race finds it -/
structure LastWrite (f : File) (uw : UncommittedWrite) : Prop where
  one : uw.newMetadataOffset 1 = uw.newMetadataOffset 0
  nodup : uw.toFree.Nodup
  pos : ∀ x ∈ uw.toFree, 1 ≤ x
  dead : ∀ x ∈ uw.toFree, ¬ Reach volShape (child f) (uw.newMetadataOffset 0) x

section Steps

variable {f : File} {uw uw' : UncommittedWrite} {job : Job} {r : Race} {v v' : Volume}

theorem extends_block_zero {g : File} {root root' : ℤ} {w : ℤ × Buf} (h : Extends f root w g root') (blk : Block) :
    Extends f root w (g.write (0, blk)) root' := by
  intro b hb hT
  rw [leafAt_frame (fun x hx => write_block_ne g _ x hx.1) b hb]
  exact h b hb hT

theorem writeAt_congr {root : ℤ} {p : WritePhase} (h : WriteAt f root job v p) (hfile : v'.file = v.file)
    (hunc : v'.uncommittedWrites (job.n + 1) = v.uncommittedWrites (job.n + 1)) : WriteAt f root job v' p := by
  cases p <;> simp only [WriteAt, hfile, hunc] at * <;> exact h

/-- with both roots the same block, only one of the two switches applies -/
theorem switchRoots_eq (h : uw.newMetadataOffset 1 = uw.newMetadataOffset 0) (seq off : ℤ) (v : Volume) :
    let w := switchRoots seq off uw v
    w.file = v.file ∧ w.uncommittedWrites = v.uncommittedWrites ∧ w.freeBlocks = v.freeBlocks ∧
      w.numTotalBlocks = v.numTotalBlocks ∧ w.firstBlock.firstLevelBlocks 0 = uw.newMetadataOffset 0 := by
  have hne : ¬ (uw.newMetadataOffset 1 ≠ 0 ∧ uw.newMetadataOffset 0 ≠ uw.newMetadataOffset 1) := fun hc => hc.2 h.symm
  simp [switchRoots, if_neg hne, switchRoot]

theorem commitAt_root {p : CommitPhase} {n : ℤ} (h : CommitAt n uw v p) (hp : ∀ uw', p ≠ .erased uw') :
    rootAt v n = uw.newMetadataOffset 0 := by
  cases p with
  | start => simp only [rootAt, (show v.uncommittedWrites n = some uw from h)]
  | erased uw' => exact absurd rfl (hp uw')
  | switched uw' => simp only [rootAt, h.2.1, h.2.2]
  | done => simp only [rootAt, h.1, h.2]

/-! ### The commit's turn -/

theorem inv_erase (h : RaceInv f uw job r) (hp : r.commit = .start) :
    RaceInv f uw job { r with vol := eraseWrite job.n r.vol, commit := .erased uw } := by
  obtain ⟨h1, h2, h3, h4, h5, h6⟩ := h
  rw [hp] at h3 h5
  refine ⟨h1, ?_, h3, fun n uw' hn => ?_, ⟨rfl, by simp [eraseWrite]⟩, writeAt_congr h6 rfl (by simp [eraseWrite])⟩
  · refine allocOk_congr (allocOk_mono h2 fun x hx => ?_) rfl rfl
    simpa only [Busy, Held, hp, Waiting] using hx
  · simp only [eraseWrite] at hn
    split at hn
    · cases hn
    · exact h4 n uw' hn

theorem inv_switch (hl : LastWrite f uw) (h : RaceInv f uw job r) (hp : r.commit = .erased uw) :
    RaceInv f uw job { r with vol := switchRoots job.n job.commitOffset uw r.vol, commit := .switched uw } := by
  obtain ⟨h1, h2, h3, h4, h5, h6⟩ := h
  rw [hp] at h3 h5
  obtain ⟨e1, e2, e3, e4, e5⟩ := switchRoots_eq hl.one job.n job.commitOffset r.vol
  refine ⟨fun x hx => by rw [e1]; exact h1 x hx, ?_, h3, fun n uw' hn => h4 n uw' (by rwa [e2] at hn),
    ⟨rfl, by rw [e2]; exact h5.2, e5⟩, writeAt_congr h6 e1 (by rw [e2])⟩
  refine allocOk_congr (allocOk_mono h2 fun x hx => ?_) e3 e4
  simpa only [Busy, Held, hp, Waiting] using hx

theorem inv_persist (hl : LastWrite f uw) (h : RaceInv f uw job r) (hp : r.commit = .switched uw) :
    RaceInv f uw job { r with vol := persist uw r.vol, commit := .done } := by
  obtain ⟨h1, h2, h3, h4, h5, h6⟩ := h
  rw [hp] at h3 h5
  have hbusy : ∀ x ∈ uw.toFree, x ∈ Busy f uw job r := fun x hx => Or.inl (Or.inr ⟨by rw [hp]; trivial, hx⟩)
  have hkept : ∀ x : ℤ, x ≠ 0 → (persist uw r.vol).file.block x = r.vol.file.block x :=
    fun x hx => write_block_ne r.vol.file _ x hx
  refine ⟨fun x hx => (hkept x hx.1).trans (h1 x hx), ?_, fun x hx => ⟨(h3 x hx).1, (h3 x hx).2.1, False.elim⟩, h4,
    h5.2, ?_⟩
  · -- what write n replaced is in no tree and was not handed out since
    have hunused : ∀ x ∈ uw.toFree, x ∉ Busy f uw job { r with vol := persist uw r.vol, commit := .done } := by
      intro x hx hx'
      rcases hx' with (hx' | hx') | hx'
      · exact hl.dead x hx hx'
      · exact hx'.1
      · exact (h3 x hx').2.2 trivial hx
    have hold : ∀ x ∈ Busy f uw job { r with vol := persist uw r.vol, commit := .done }, x ∈ Busy f uw job r := by
      intro x hx
      rcases hx with (hx | hx) | hx
      · exact Or.inl (Or.inl hx)
      · exact absurd hx.1 id
      · exact Or.inr hx
    constructor
    · exact List.nodup_append'.2 ⟨h2.nodup, hl.nodup, fun x hx hx' => h2.unused x hx (hbusy x hx')⟩
    · intro x hx
      rcases List.mem_append.1 hx with hx | hx
      · exact h2.pos x hx
      · exact hl.pos x hx
    · intro x hx hx'
      rcases List.mem_append.1 hx with hx | hx
      · exact h2.unused x hx (hold x hx')
      · exact hunused x hx hx'
    · exact h2.total
    · intro _
      refine ⟨fun x hx => (h2.below trivial).1 x (hold x hx), fun x hx => ?_⟩
      rcases List.mem_append.1 hx with hx | hx
      · exact (h2.below trivial).2 x hx
      · exact (h2.below trivial).1 x (hbusy x hx)
  · cases hw : r.write with
    | start => trivial
    | data d => rw [hw] at h6; exact h6
    | planned d m => rw [hw] at h6; exact h6
    | built uw' =>
      rw [hw] at h6
      exact ⟨h6.1, extends_block_zero h6.2 _⟩
    | done =>
      rw [hw] at h6
      obtain ⟨uw', hu, hone, he⟩ := h6
      exact ⟨uw', hu, hone, extends_block_zero he _⟩

/-! ### The write's turn -/

theorem commitAt_congr {p : CommitPhase} {n : ℤ} (h : CommitAt n uw v p)
    (hunc : v'.uncommittedWrites n = v.uncommittedWrites n) (hfirst : v'.firstBlock = v.firstBlock) :
    CommitAt n uw v' p := by
  cases p <;> simp only [CommitAt, hunc, hfirst] at * <;> exact h

theorem mem_handed {r : ℕ} {d : ℕ → ℤ} {x : ℤ} (h : x ∈ d 0 :: if r ≠ 0 then [d 1] else []) :
    x = d 0 ∨ r ≠ 0 ∧ x = d 1 := by
  by_cases hr : r = 0 <;> simpa [hr] using h

theorem inv_data (ho : InRange job.offset) (h : RaceInv f uw job r) :
    RaceInv f uw job { r with
      vol := (writeData job.buf job.offset (Call.start r.vol)).2.vol
      write := .data (writeData job.buf job.offset (Call.start r.vol)).1 } := by
  obtain ⟨hoff, hr, hb0, hb⟩ := inRange_parts ho
  obtain ⟨h1, h2, h3, h4, h5, h6⟩ := h
  obtain ⟨hc, -, hd⟩ := writeData_spec h2 job.buf (blockOf job.offset) (remOf job.offset) hr 0 (Or.inl trivial)
  rw [← hoff] at hc hd
  set w := writeData job.buf job.offset (Call.start r.vol)
  have hmem : ∀ x ∈ handed (remOf job.offset) (.data w.1), x ∈ w.2.nums := by
    intro x hx
    rcases mem_handed hx with rfl | ⟨hr0, rfl⟩
    · exact hd.fst
    · exact hd.snd hr0
  refine ⟨fun x hx => ?_, ?_, fun x hx => ?_, fun n uw' hn => h4 n uw' (by rwa [← hc.unc]), ?_, hd.ne⟩
  · rw [hc.file x (fun hm => hc.not_mem hm (Or.inl (Or.inl hx))) (Set.notMem_empty x)]
    exact h1 x hx
  · apply allocOk_mono hc.alloc
    intro x hx
    rcases hx with hx | hx
    · exact Or.inl (Or.inl hx)
    · exact Or.inr (hmem x hx)
  · have hnew := hc.not_mem (hmem x hx)
    exact ⟨hc.pos (hmem x hx), fun hx' => hnew (Or.inl (Or.inl hx')), fun hw hx' => hnew (Or.inl (Or.inr ⟨hw, hx'⟩))⟩
  · exact commitAt_congr h5 (by rw [hc.unc]) hc.firstBlock

/-- outside the gap the metadata that is read is that of write n -/
theorem inv_plan (ho : InRange job.offset) (h : RaceInv f uw job r) {d : ℕ → ℤ} (hp : r.write = .data d)
    (hgap : ∀ uw', r.commit ≠ .erased uw') :
    RaceInv f uw job { r with write := .planned d (metaPlan r.vol (job.n + 1) job.offset) } := by
  obtain ⟨hoff, hr, hb0, hb⟩ := inRange_parts ho
  obtain ⟨h1, h2, h3, h4, h5, h6⟩ := h
  rw [hp] at h3 h6
  refine ⟨h1, ?_, h3, h4, h5, h6, ?_⟩
  · simpa only [Busy, hp, handed] using h2
  · have hm := metaPlan_ok (h4 (job.n + 1 - 1)) (blockOf job.offset) (remOf job.offset) hr
    rw [← hoff, add_sub_cancel_right, commitAt_root h5 hgap] at hm
    refine ⟨hm.two, hm.o0, hm.o1, ?_, ?_⟩
    · rw [hm.p0, readPath_frame h1 _ hb0]
    · rw [hm.p1]
      split
      · next hr0 => rw [readPath_frame h1 _ (hb hr0)]
      · rfl

theorem inv_build (ho : InRange job.offset) (h : RaceInv f uw job r) {d : ℕ → ℤ} {m : MetaPlan}
    (hp : r.write = .planned d m)
    (hj : ∀ x ∈ strays job.junk (blockOf job.offset) (remOf job.offset),
      ¬ Reach volShape (child f) (uw.newMetadataOffset 0) x ∧
        ∀ j ≤ 3, ∀ i, Own (blockOf job.offset) (remOf job.offset) i j →
          x ≠ numOf d (allocLevels m job.junk (Call.start r.vol)).1 i j) :
    RaceInv f uw job { r with
      vol := (buildTree job.junk (job.n + 1) d m r.vol).2
      write := .built (buildTree job.junk (job.n + 1) d m r.vol).1 } := by
  obtain ⟨hoff, hr, hb0, hb⟩ := inRange_parts ho
  obtain ⟨h1, h2, h3, h4, h5, h6⟩ := h
  rw [hp] at h3 h6
  obtain ⟨hne, hm⟩ := h6
  -- the call as it stands, with its data blocks handed out
  have hc : CallInv True (Held f uw r.commit) ∅ r.vol
      (Call.resume r.vol (handed (remOf job.offset) (.planned d m))) := by
    refine callInv_resume (by simpa only [Busy, hp] using h2) fun x hx => ⟨(h3 x hx).1, fun hx' => ?_⟩
    rcases hx' with hx' | hx'
    · exact (h3 x hx).2.1 hx'
    · exact (h3 x hx).2.2 hx'.1 hx'.2
  set c := Call.resume r.vol (handed (remOf job.offset) (.planned d m)) with hcdef
  obtain ⟨ha, -, c1, c2, l0, l1, l2⟩ := allocLevels_spec hc m job.junk 0 (Or.inl trivial)
  have hmem : ∀ x ∈ handed (remOf job.offset) (.planned d m), x ∈ c.nums := by
    intro x hx
    rw [hcdef, nums_resume]
    exact hx
  have hnums : NumsOk (blockOf job.offset) (remOf job.offset) d (allocLevels m job.junk c).1
      (allocLevels m job.junk c).2 :=
    numsOk_of_levels hm hb (hmem _ (by simp [handed])) (fun hr0 => hmem _ (by simp [handed, hr0])) hne l0 l1 l2
  have hn : Numbered (Held f uw r.commit) f (uw.newMetadataOffset 0) r.vol _ _ m d (allocLevels m job.junk c) :=
    ⟨ha, hnums, l2.file.trans (l1.file.trans l0.file), hm, hb, fun x hx => Or.inl hx, h1⟩
  have hjunk : ∀ j < 3, m.same j = false → m.two = false → ((allocLevels m job.junk c).1 j).2 = job.junk j := by
    intro j hj hs h2
    have hj' : j = 0 ∨ j = 1 ∨ j = 2 := by omega
    obtain rfl | rfl | rfl := hj' <;> simp only [allocLevels, hs, h2, newBlockNums_junk]
  have hstart : (allocLevels m job.junk c).1 = (allocLevels m job.junk (Call.start r.vol)).1 :=
    (allocLevels_start m job.junk c).1
  rw [← hstart] at hj
  have hext : Extends f (uw.newMetadataOffset 0) (job.offset, job.buf)
      ((allocLevels m job.junk c).2.writeLevels m.same (allocLevels m job.junk c).1
        (newBlocks m (allocLevels m job.junk c).1 (job.n + 1) d)).vol.file ((allocLevels m job.junk c).1 0).1 :=
    hn.extends hb0 hjunk hj (job.offset, job.buf) (touches_iff ho job.buf)
  have hout : CallInv True (Held f uw r.commit) (strays job.junk (blockOf job.offset) (remOf job.offset)) r.vol
      ((allocLevels m job.junk c).2.writeLevels m.same (allocLevels m job.junk c).1
        (newBlocks m (allocLevels m job.junk c).1 (job.n + 1) d)) := by
    apply callInv_writeLevels (callInv_mono ha (by simp)) _ _ _ hn.mem_fst
    intro j hj hs
    cases h2 : m.two with
    | false => exact Or.inr ⟨j, stray_of_plan hm j hj hs h2, (hjunk j hj hs h2).symm⟩
    | true => exact Or.inl (hn.mem_snd j hj (by simp [hs, h2]))
  have heq := buildTree_eq job.junk (job.n + 1) d m c
  rw [show c.vol = r.vol from rfl] at heq
  rw [heq]
  have hone := l0.one (same_zero hm)
  refine ⟨fun x hx => ?_, ?_, fun x hx => absurd hx List.not_mem_nil, fun n uw' hu => h4 n uw' (by rwa [← hout.unc]), ?_,
    ?_, ?_⟩
  · rw [hout.file x (fun hx' => ?_) fun hJ => (hj x hJ).1 hx]
    · exact h1 x hx
    · rw [writeLevels_nums] at hx'
      exact ha.not_mem hx' (Or.inl hx)
  · apply allocOk_mono hout.alloc
    intro x hx
    rcases hx with hx | hx
    · exact Or.inl hx
    · exact absurd hx List.not_mem_nil
  · exact commitAt_congr h5 (by rw [hout.unc]) hout.firstBlock
  · exact hone
  · exact hext

theorem inv_insert (h : RaceInv f uw job r) {uw' : UncommittedWrite} (hp : r.write = .built uw') :
    RaceInv f uw job { r with vol := insertWrite (job.n + 1) uw' r.vol, write := .done } := by
  obtain ⟨h1, h2, h3, h4, h5, h6⟩ := h
  rw [hp] at h3 h6
  refine ⟨h1, ?_, h3, fun n uw'' hn => ?_, commitAt_congr h5 (by simp [insertWrite]) rfl,
    ⟨uw', by simp [insertWrite], h6.1, h6.2⟩⟩
  · refine allocOk_congr (allocOk_mono h2 fun x hx => ?_) rfl rfl
    simpa only [Busy, hp, handed] using hx
  · simp only [insertWrite] at hn
    split at hn
    · cases hn
      exact h6.1
    · exact h4 n uw'' hn

theorem step_raceInv {v₀ : Volume} (hl : LastWrite f uw) (ho : InRange job.offset)
    (hv : ∀ x, Reach volShape (child f) (uw.newMetadataOffset 0) x → v₀.Holds x) (r : Race) (t : Turn)
    (h : RaceInv f uw job r) (hc : ¬ Gap r t ∧ RaceUnused v₀ job r t) : RaceInv f uw job (r.step job t) := by
  obtain ⟨hgap, hj⟩ := hc
  cases t with
  | commit =>
    have hat := h.commit
    cases hp : r.commit with
    | start =>
      rw [hp] at hat
      simp only [Race.step, hp, show r.vol.uncommittedWrites job.n = some uw from hat]
      exact inv_erase h hp
    | erased uw' =>
      rw [hp] at hat
      obtain rfl := hat.1
      simp only [Race.step, hp]
      exact inv_switch hl h hp
    | switched uw' =>
      rw [hp] at hat
      obtain rfl := hat.1
      simp only [Race.step, hp]
      exact inv_persist hl h hp
    | done =>
      simp only [Race.step, hp]
      exact h
  | write =>
    cases hp : r.write with
    | start =>
      simp only [Race.step, hp]
      exact inv_data ho h
    | data d =>
      simp only [Race.step, hp]
      exact inv_plan ho h hp fun uw' he => hgap ⟨uw', d, he, hp⟩
    | planned d m =>
      simp only [Race.step, hp]
      exact inv_build ho h hp fun x hx => ⟨fun hr => (hj d m hp x hx).2.1 (hv x hr), (hj d m hp x hx).2.2⟩
    | built uw' =>
      simp only [Race.step, hp]
      exact inv_insert h hp
    | done =>
      simp only [Race.step, hp]
      exact h

end Steps

/-! ## The write comes to its end -/

def WritePhase.rank : WritePhase → ℕ
  | .start => 0
  | .data _ => 1
  | .planned _ _ => 2
  | .built _ => 3
  | .done => 4

theorem step_rank (job : Job) (r : Race) (t : Turn) :
    (r.step job t).write.rank = min 4 (r.write.rank + [t].count .write) := by
  have hw : r.write.rank ≤ 4 := by cases r.write <;> simp [WritePhase.rank]
  cases t with
  | commit =>
    cases hp : r.commit with
    | start => cases hu : r.vol.uncommittedWrites job.n <;> simp [Race.step, hp, hu, hw]
    | erased | switched | done => simp [Race.step, hp, hw]
  | write => cases hp : r.write <;> simp [Race.step, hp, WritePhase.rank]

theorem run_rank (job : Job) (r : Race) (ts : List Turn) :
    (run (Race.step job) r ts).write.rank = min 4 (r.write.rank + ts.count .write) := by
  induction ts generalizing r with
  | nil =>
    have hw : r.write.rank ≤ 4 := by cases r.write <;> simp [WritePhase.rank]
    simp [hw]
  | cons t ts ih =>
    rw [run_cons, ih, step_rank]
    cases t <;> simp <;> omega

theorem write_done (job : Job) (v : Volume) (ts : List Turn) (h : 4 ≤ ts.count .write) :
    (run (Race.step job) (Race.start v) ts).write = .done := by
  have hr := run_rank job (Race.start v) ts
  generalize (run (Race.step job) (Race.start v) ts).write = p at hr
  cases p <;> simp only [WritePhase.rank, Race.start] at hr <;> first | rfl | omega

/-! ## The race as a whole -/

/-- the race of `s`: commit of its last write, at `commitOffset`, and the next write -/
def Driver.race (s : Driver) (commitOffset : ℤ) (buf : Buf) (offset : ℤ) (junk : ℕ → ℤ) : Job :=
  ⟨s.start + s.writes.length, commitOffset, buf, offset, junk⟩

/-- after the race and commit n + 1 the bytes of write n are in the tree, in every block write n + 1 does not touch -/
def UpdateKept (job : Job) (commitBuf : Buf) (v : Volume) : Prop :=
  ∃ c, commit (job.n + 1) job.offset v = some c ∧
    ∀ b : ℕ, b < 67108864 → ¬ Touches b (job.offset, job.buf) → ∀ i : ℕ, i < 4096 →
      job.commitOffset ≤ 4096 * (b : ℤ) + i → 4096 * (b : ℤ) + i < job.commitOffset + 4096 →
      (leafAt c.vol.file (c.vol.firstBlock.firstLevelBlocks 0) b).data i =
        commitBuf (4096 * (b : ℤ) + i - job.commitOffset).toNat

section Race

variable {s : Driver} {job : Job}

theorem lastWrite_of_sound (h : Sound True s) (hlast : s.committed + 1 = s.writes.length) :
    ∃ uw, s.vol.uncommittedWrites (s.start + s.writes.length) = some uw ∧ LastWrite s.vol.file uw ∧
      s.root s.writes.length = uw.newMetadataOffset 0 := by
  obtain ⟨uw, hu, hroot, hdead⟩ := h.uncommitted (k := s.writes.length) (by omega) le_rfl
  have hv := h.versions
  refine ⟨uw, hu, ⟨h.oneRoot _ uw hu, ?_, fun x hx => ?_, fun x hx => ?_⟩, hroot⟩
  · exact hdead ▸ hv.dead_nodup s.writes.length (by omega) le_rfl
  · exact h.pos (used_dead (k := s.writes.length) (by omega) le_rfl (hdead ▸ hx))
  · rw [← hroot]
    exact hv.dead_live s.writes.length (by omega) le_rfl x (hdead ▸ hx) s.writes.length le_rfl le_rfl

theorem raceInv_start (h : Sound True s) (hlast : s.committed + 1 = s.writes.length) {uw : UncommittedWrite}
    (hn : job.n = s.start + s.writes.length) (hu : s.vol.uncommittedWrites (s.start + s.writes.length) = some uw)
    (hroot : s.root s.writes.length = uw.newMetadataOffset 0) : RaceInv s.vol.file uw job (Race.start s.vol) where
  kept _ _ := rfl
  alloc := by
    apply allocOk_mono h.alloc
    intro x hx
    rcases hx with (hx | hx) | hx
    · exact used_live (k := s.writes.length) (by omega) le_rfl (hroot ▸ hx)
    · apply used_dead (k := s.writes.length) (by omega) le_rfl
      simp only [Driver.dead, hu]
      exact hx.2
    · exact absurd hx List.not_mem_nil
  handed x hx := absurd hx List.not_mem_nil
  oneRoot := h.oneRoot
  commit := by
    rw [hn]
    exact hu
  write := trivial

/-- after the race, commit n + 1 finds a tree that extends that of write n -/
theorem committed_extends {f : File} {uw : UncommittedWrite} {r : Race} (h : RaceInv f uw job r)
    (hw : r.write = .done) :
    ∃ c, commit (job.n + 1) job.offset r.vol = some c ∧ Extends f (uw.newMetadataOffset 0) (job.offset, job.buf)
      c.vol.file (c.vol.firstBlock.firstLevelBlocks 0) := by
  have hat := h.write
  rw [hw] at hat
  obtain ⟨uw', hu, hone, he⟩ := hat
  obtain ⟨c, hc, hok⟩ := commit_ok hu hone job.offset
  refine ⟨c, hc, ?_⟩
  rw [hok.file, hok.root]
  exact extends_block_zero he _

end Race

/-- an opened volume after the operations `es` -/
abbrev volumeAfter (f : File) (o : Opening) (start : ℤ) (es : List Op) : Driver :=
  run Driver.step (Driver.open start (o.call f)) es

/-- **The next write keeps the update.** Take any run of an opened volume that leaves one write uncommitted, and let its
commit and the next write interleave in any order. If the next write does not read its metadata between the erasure and
the root switch, then after its own commit every block it does not touch holds what the first write put there. -/
theorem update_kept (f : File) (o : Opening) (start : ℤ) (hf : o = .openVolume → VolumeFile f) (hc : CounterOk f o)
    (es : List Op) (hj : Meets Driver.step JunkUnused (Driver.open start (o.call f)) es) (commitOffset : ℤ)
    (commitBuf : Buf) (hlast : (volumeAfter f o start es).committed + 1 = (volumeAfter f o start es).writes.length)
    (hw : (volumeAfter f o start es).writes.getLast? = some (commitOffset, commitBuf)) (buf : Buf) (offset : ℤ)
    (junk : ℕ → ℤ) (ho : InRange offset) (ts : List Turn)
    (hts : Meets (Race.step ((volumeAfter f o start es).race commitOffset buf offset junk))
      (fun r t => ¬ Gap r t ∧
        RaceUnused (volumeAfter f o start es).vol ((volumeAfter f o start es).race commitOffset buf offset junk) r t)
      (Race.start (volumeAfter f o start es).vol) ts)
    (hdone : 4 ≤ ts.count .write) :
    UpdateKept ((volumeAfter f o start es).race commitOffset buf offset junk) commitBuf
      (run (Race.step ((volumeAfter f o start es).race commitOffset buf offset junk))
        (Race.start (volumeAfter f o start es).vol) ts).vol := by
  have hown : OwnWrites (volumeAfter f o start es) :=
    run_inv_of_meets Driver.step JunkUnused OwnWrites step_ownWrites _ es (ownWrites_open (sound_opened f start o hf hc)) hj
  set s := volumeAfter f o start es
  set job := s.race commitOffset buf offset junk
  obtain ⟨uw, hu, hl, hroot⟩ := lastWrite_of_sound hown.sound hlast
  have hv : ∀ x, Reach volShape (child s.vol.file) (uw.newMetadataOffset 0) x → s.vol.Holds x := fun x hx =>
    hown.sound.reach_holds (k := s.writes.length) (by omega) le_rfl (hroot ▸ hx)
  have h0 : RaceInv s.vol.file uw job (Race.start s.vol) := raceInv_start hown.sound hlast rfl hu hroot
  have hend := run_inv_of_meets (Race.step job) _ _ (step_raceInv hl ho hv) _ ts h0 hts
  obtain ⟨c, hcm, hext⟩ := committed_extends hend (write_done job s.vol ts hdone)
  refine ⟨c, hcm, fun b hb hT i hi hlo hhi => ?_⟩
  have hget : s.writes[s.committed]? = some (commitOffset, commitBuf) := by
    rw [← hw, List.getLast?_eq_getElem?]
    congr 1
    omega
  rw [hext b hb hT, ← hroot]
  have hbyte := hown.own s.committed le_rfl _ hget b hb i hi hlo hhi
  rwa [hlast] at hbyte

/-- write 1 fills block 0 with ones -/
def racedOnes : List Op := [.write (fun _ => 1) 0 fun _ => 0]

/-- its commit races with write 2, which fills block 1 with twos -/
def racedJob : Job := (volumeAfter File.new .initVolume 0 racedOnes).race 0 (fun _ => 2) 4096 fun _ => 0

/-- the metadata is read before the erasure -/
def readBefore : List Turn := [.write, .write, .commit, .commit, .write, .commit, .write]

/-- the metadata is read in the gap -/
def readInGap : List Turn := [.write, .commit, .write, .commit, .write, .commit, .write]

theorem raceUnused_racedJob (v : Volume) (r : Race) (t : Turn) : RaceUnused v racedJob r t := by
  cases t with
  | commit => trivial
  | write =>
    rintro d m - x ⟨j, ⟨-, hj, hk⟩, -⟩
    rcases hj with rfl | rfl <;> exact absurd hk (by decide +kernel)

theorem update_kept_read_before :
    UpdateKept racedJob (fun _ => 1)
      (run (Race.step racedJob) (Race.start (volumeAfter File.new .initVolume 0 racedOnes).vol) readBefore).vol := by
  refine update_kept File.new .initVolume 0 (by simp) (show File.new.size < 3 * blockSize by decide) racedOnes
    ⟨?_, trivial⟩ 0 (fun _ => 1) (by decide) rfl (fun _ => 2) 4096 (fun _ => 0) (by decide) readBefore ?_ (by decide)
  · rintro - x ⟨j, ⟨-, hj, hk⟩, -⟩
    rcases hj with rfl | rfl <;> exact absurd hk (by decide +kernel)
  · have hgap : Meets (Race.step racedJob) (fun r t => ¬ Gap r t)
        (Race.start (volumeAfter File.new .initVolume 0 racedOnes).vol) readBefore := by decide +kernel
    exact meets_mono _ (fun r t hg => ⟨hg, raceUnused_racedJob _ r t⟩) _ _ hgap

theorem read_in_gap_loses_update :
    ¬ UpdateKept racedJob (fun _ => 1)
      (run (Race.step racedJob) (Race.start (volumeAfter File.new .initVolume 0 racedOnes).vol) readInGap).vol := by
  rintro ⟨c, hc, h⟩
  have h1 := h 0 (by decide) (by decide +kernel) 0 (by decide) (by decide +kernel) (by decide +kernel)
  have h0 : (commit 2 4096 (run (Race.step racedJob) (Race.start (volumeAfter File.new .initVolume 0 racedOnes).vol)
      readInGap).vol).map (fun c => (leafAt c.vol.file (c.vol.firstBlock.firstLevelBlocks 0) 0).data 0) = some 0 := by
    decide +kernel
  rw [show commit 2 4096 (run (Race.step racedJob) (Race.start (volumeAfter File.new .initVolume 0 racedOnes).vol)
    readInGap).vol = some c from hc, Option.map_some, Option.some.injEq] at h0
  rw [h0] at h1
  exact absurd h1 (by decide)

end ChainedBlockStorage.Storage
