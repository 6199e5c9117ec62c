/-
Exact reclamation: what `commit` gives back to the queue, and where every block ever handed out is.

- `WriteExact`, `write_exact`: the numbers of a write are those of its new nodes, each of them is written, `to_free` is
  all that stood at the touched positions, and what leaves the queue was handed out.
- `Reclaims`, `step_reclaims`: what version k + 1 replaced is what version k holds and it does not; every number handed
  out is in use or in the queue.
- `commit_reclaims`: the two for whole runs.
-/
import ChainedBlockStorage.Storage.CrashSafe
import ChainedBlockStorage.Storage.Leaves
import ChainedBlockStorage.Storage.Open
import ChainedBlockStorage.Storage.PathCopy

namespace ChainedBlockStorage.Storage

open Crash Radix Run

/-! ## The queue during a call -/

/-- what the queue `v` began with is still in it, or was handed out -/
def Call.Keeps (v : Volume) (c : Call) : Prop := ∀ x ∈ v.freeBlocks, x ∈ c.vol.freeBlocks ∨ x ∈ c.nums

theorem keeps_alloc {v : Volume} {c : Call} (h : c.Keeps v) : c.getFreeBlockNum.2.Keeps v := by
  have htake : ∀ x ∈ c.vol.freeBlocks, x = c.getFreeBlockNum.1 ∨ x ∈ c.getFreeBlockNum.2.vol.freeBlocks := by
    intro x hx
    simp only [Call.getFreeBlockNum, Storage.getFreeBlockNum]
    cases hq : c.vol.freeBlocks with
    | nil => rw [hq] at hx; cases hx
    | cons y l => rw [hq] at hx; exact List.mem_cons.1 hx
  intro x hx
  rw [nums_alloc]
  rcases h x hx with hq | hm
  · rcases htake x hq with rfl | hq
    · exact Or.inr (Set.mem_insert _ _)
    · exact Or.inl hq
  · exact Or.inr (Set.mem_insert_of_mem _ hm)

theorem keeps_newBlockNums {v : Volume} {c : Call} (h : c.Keeps v) (same two : Bool) (junk : ℤ) :
    (c.newBlockNums same two junk).2.Keeps v := by
  cases same with
  | true => exact keeps_alloc h
  | false =>
    cases two with
    | false => exact keeps_alloc h
    | true => exact keeps_alloc (keeps_alloc h)

theorem keeps_writeData (v : Volume) (buf : Buf) (off : ℤ) : (writeData buf off (Call.start v)).2.Keeps v := by
  have h : (Call.start v).Keeps v := fun x hx => Or.inl hx
  -- writing and `pending_blocks` leave the queue and the numbers alone
  have hput : ∀ (c : Call) (n o : ℤ) (b : Block), c.Keeps v → ((c.writeBlock n b).setPending o n).Keeps v :=
    fun _ _ _ _ hc => hc
  simp only [writeData]
  split
  · exact hput _ _ _ _ (keeps_alloc (hput _ _ _ _ (keeps_alloc h)))
  · exact hput _ _ _ _ (keeps_alloc h)

/-! ## The file operations of a call -/

/-- the operations of one level -/
def levelIo (one : Bool) (n : ℤ × ℤ) (b : Words × Words) : List (Io (ℤ × Block)) :=
  .pwrite (n.1, .words b.1) :: if one then [] else [.pwrite (n.2, .words b.2)]

theorem writeLevel_io (c : Call) (one : Bool) (n : ℤ × ℤ) (b : Words × Words) :
    (c.writeLevel one n b).io = c.io ++ levelIo one n b := by
  cases one <;> simp [Call.writeLevel, Call.writeBlock, levelIo]

theorem writeLevels_io (c : Call) (one : ℕ → Bool) (n : ℕ → ℤ × ℤ) (bl : ℕ → Words × Words) :
    (c.writeLevels one n bl).io = c.io ++ (List.range 3).flatMap fun j => levelIo (one j) (n j) (bl j) := by
  unfold Call.writeLevels
  rw [writeLevel_io, writeLevel_io, writeLevel_io]
  simp [List.range_succ]

/-- each number of a level is written -/
theorem mem_levelIo {same two : Bool} {n : ℤ × ℤ} {x : ℤ} (hx : x ∈ levelNums same two n) (b : Words × Words) :
    ∃ blk, .pwrite (x, blk) ∈ levelIo same n b := by
  unfold levelNums at hx
  split at hx
  · next hc =>
    rcases List.mem_cons.1 hx with rfl | hx
    · exact ⟨_, List.mem_cons_self⟩
    · rw [List.mem_singleton] at hx
      exact ⟨.words b.2, by simp [levelIo, hc.2, hx]⟩
  · rw [List.mem_singleton] at hx
    exact ⟨.words b.1, by simp [levelIo, hx]⟩

theorem writeLevels_free (c : Call) (one : ℕ → Bool) (n : ℕ → ℤ × ℤ) (bl : ℕ → Words × Words) :
    (c.writeLevels one n bl).vol.freeBlocks = c.vol.freeBlocks := by
  unfold Call.writeLevels Call.writeLevel
  split <;> split <;> split <;> rfl

theorem allocLevels_io (m : MetaPlan) (junk : ℕ → ℤ) (c : Call) : (allocLevels m junk c).2.io = c.io := by
  have hget : ∀ (c : Call) (same two : Bool) (x : ℤ), (c.newBlockNums same two x).2.io = c.io := by
    intro c same two x
    cases same <;> cases two <;> rfl
  simp only [allocLevels, hget]

/-- the data blocks: what they are called, and that they are written -/
theorem writeData_got (v : Volume) (buf : Buf) (b r : ℕ) (hr : r < 4096) :
    let w := writeData buf (4096 * b + r : ℕ) (Call.start v)
    (∀ x ∈ w.2.nums, ∃ i, Own b r i 3 ∧ w.1 i = x) ∧ ∀ x ∈ w.2.nums, ∃ blk, .pwrite (x, blk) ∈ w.2.io := by
  intro w
  have hw : w = writeData buf (4096 * b + r : ℕ) (Call.start v) := rfl
  have hr' : ((r : ℤ) ≠ 0) = (r ≠ 0) := by simp
  simp only [writeData, blockSize_eq, Nat.cast_ofNat, tmod_block b r hr, hr'] at hw
  by_cases hr0 : r = 0
  · rw [if_neg (not_not.2 hr0)] at hw
    rw [hw]
    constructor
    · rintro x ⟨g, hg, rfl⟩
      simp only [Call.setPending, Call.writeBlock, Call.getFreeBlockNum, Call.start, List.nil_append,
        List.mem_singleton] at hg
      exact ⟨0, Or.inl rfl, by rw [hg]; rfl⟩
    · rintro x ⟨g, hg, rfl⟩
      simp only [Call.setPending, Call.writeBlock, Call.getFreeBlockNum, Call.start, List.nil_append,
        List.mem_singleton] at hg ⊢
      rw [hg]
      exact ⟨_, rfl⟩
  · rw [if_pos hr0] at hw
    rw [hw]
    constructor
    · rintro x ⟨g, hg, rfl⟩
      simp only [Call.setPending, Call.writeBlock, Call.getFreeBlockNum, Call.start, List.nil_append,
        List.cons_append, List.mem_cons, List.not_mem_nil, or_false] at hg
      rcases hg with hg | hg
      · exact ⟨0, Or.inl rfl, by rw [hg]; rfl⟩
      · exact ⟨1, Or.inr ⟨rfl, hr0, by simp⟩, by rw [hg]; rfl⟩
    · rintro x ⟨g, hg, rfl⟩
      simp only [Call.setPending, Call.writeBlock, Call.getFreeBlockNum, Call.start, List.nil_append,
        List.cons_append, List.mem_cons, List.not_mem_nil, or_false] at hg ⊢
      rcases hg with hg | hg
      · rw [hg]
        exact ⟨_, Or.inl rfl⟩
      · rw [hg]
        exact ⟨_, Or.inr rfl⟩

/-- all that stood at a touched position is in `to_free` -/
theorem touched_toFree {b r : ℕ} {root : ℤ} {f : File} {m : MetaPlan} (h : PlanOk b r root f m) {j k : ℕ} (hj : j ≤ 3)
    (hT : touched b r j k) (hx : node volShape (child f) root j k ≠ 0) :
    node volShape (child f) root j k ∈ toFreeOf m.p0 m.p1 := by
  refine List.mem_flatMap.2 ⟨j, List.mem_range.2 (by omega), (mem_levelToFree _ _ _ _).2 ⟨hx, ?_⟩⟩
  rcases hT with rfl | ⟨hr, rfl⟩
  · exact Or.inl (p0_num h j hj).symm
  · by_cases h0 : node volShape (child f) root j (key j (b + 1)) = m.p0.num j
    · exact Or.inl h0
    · exact Or.inr ⟨by rw [h.p1, if_pos hr, readPath_num f root (b + 1) j hj], h0⟩

/-! ## One write -/

/-- a write, with its numbers accounted for -/
structure WriteExact (s : Driver) (b r : ℕ) (buf : Buf) (junk : ℕ → ℤ) (out : Call) (uw : UncommittedWrite) (d : ℕ → ℤ)
    (n : ℕ → ℤ × ℤ) (g : File) : Prop where
  ok : WriteOk True s.used (strays junk b r) s.vol b r buf s.next out uw d n g
  only : ∀ x ∈ out.nums, ∃ j ≤ 3, ∃ i, Own b r i j ∧ numOf d n i j = x
  written : ∀ x ∈ out.nums, ∃ blk, .pwrite (x, blk) ∈ out.io
  queue : ∀ x ∈ s.vol.freeBlocks, x ∈ out.vol.freeBlocks ∨ x ∈ out.nums
  freed : ∀ j ≤ 3, ∀ k, touched b r j k → node volShape (child s.vol.file) (s.root s.writes.length) j k ≠ 0 →
    node volShape (child s.vol.file) (s.root s.writes.length) j k ∈ uw.toFree

theorem write_exact {s : Driver} (h : Sound True s) {off : ℤ} (ho : InRange off) (buf : Buf) (junk : ℕ → ℤ) :
    ∃ uw d n g, WriteExact s (blockOf off) (remOf off) buf junk (write junk buf off s.next s.vol) uw d n g := by
  obtain ⟨e, hr, hb0, hb⟩ := inRange_parts ho
  have hroot := next_root s
  have hU : ∀ x, Reach volShape (child s.vol.file) (rootAt s.vol (s.next - 1)) x → x ∈ s.used := by
    intro x hx
    rw [hroot] at hx
    exact used_live h.le le_rfl hx
  have hpr : Proper volShape (child s.vol.file) (rootAt s.vol (s.next - 1)) := by
    rw [hroot]
    exact h.versions.proper _ h.le le_rfl
  have hp := write_prepared h.alloc h.oneRoot junk buf s.next hr hb0 hb hU (Or.inl trivial)
  rw [← e] at hp
  obtain ⟨g, hw, -⟩ := finish_ok hp hb0 hb hU hpr
  set d := writeData buf off (Call.start s.vol) with hd
  set m := metaPlan d.2.vol s.next off
  set a := allocLevels m junk d.2 with ha
  have hdata := writeData_got s.vol buf (blockOf off) (remOf off) hr
  rw [← e, ← hd] at hdata
  obtain ⟨l, hl, hnums⟩ := allocLevels_got m junk d.2
  have hout : (write junk buf off s.next s.vol).nums = a.2.nums := writeLevels_nums a.2 m.same a.1 _
  have hio : (write junk buf off s.next s.vol).io =
      d.2.io ++ (List.range 3).flatMap fun j => levelIo (m.same j) (a.1 j) (newBlocks m a.1 s.next d.1 j) := by
    rw [← allocLevels_io m junk d.2]
    exact writeLevels_io a.2 m.same a.1 _
  have hfree : (write junk buf off s.next s.vol).vol.freeBlocks = a.2.vol.freeBlocks :=
    writeLevels_free a.2 m.same a.1 _
  -- a number is a data block's or a metadata block's
  have hsplit : ∀ x ∈ (write junk buf off s.next s.vol).nums, x ∈ d.2.nums ∨ x ∈ metaNums m a.1 := by
    intro x hx
    rw [hout] at hx
    obtain ⟨y, hy, rfl⟩ := hx
    rw [ha, hl] at hy
    rcases List.mem_append.1 hy with hy | hy
    · exact Or.inl ⟨y, hy, rfl⟩
    · exact Or.inr (hnums ▸ List.mem_map_of_mem hy)
  refine ⟨_, _, _, g, hw, fun x hx => ?_, fun x hx => ?_, fun x hx => ?_, fun j hj k hT hx => ?_⟩
  · rcases hsplit x hx with hx | hx
    · obtain ⟨i, hi, e⟩ := hdata.1 x hx
      exact ⟨3, le_rfl, i, hi, e⟩
    · obtain ⟨j, hj, hx⟩ := mem_metaNums.1 hx
      obtain ⟨i, hi, e⟩ := levelNums_numOf (d := d.1) hp.plan hb j hj hx
      exact ⟨j, by omega, i, hi, e⟩
  · rw [hio]
    rcases hsplit x hx with hx | hx
    · obtain ⟨blk, hm⟩ := hdata.2 x hx
      exact ⟨blk, List.mem_append_left _ hm⟩
    · obtain ⟨j, hj, hx⟩ := mem_metaNums.1 hx
      obtain ⟨blk, hm⟩ := mem_levelIo hx (newBlocks m a.1 s.next d.1 j)
      exact ⟨blk, List.mem_append_right _ (List.mem_flatMap.2 ⟨j, List.mem_range.2 hj, hm⟩)⟩
  · rw [hout, hfree]
    exact keeps_newBlockNums (keeps_newBlockNums (keeps_newBlockNums (keeps_writeData s.vol buf off) _ _ _) _ _ _) _ _ _
      x hx
  · have hplan := hp.plan
    rw [hroot] at hplan
    exact touched_toFree hplan hj hT hx

/-! ## The trees after a step -/

theorem own_touched {b r : ℕ} (d : ℕ → ℤ) (n : ℕ → ℤ × ℤ) {i j : ℕ} (h : Own b r i j) (hj : j ≤ 3) (hb0 : b < 67108864)
    (hb : r ≠ 0 → b + 1 < 67108864) :
    ∃ k < volShape.cap j, touched b r j k ∧ freshOf b d n j k = numOf d n i j := by
  rcases h with rfl | ⟨rfl, hr, hk⟩
  · exact ⟨key j b, key_lt j b hj hb0, Or.inl rfl, if_pos rfl⟩
  · exact ⟨key j (b + 1), key_lt j (b + 1) hj (hb hr), Or.inr ⟨hr, rfl⟩, if_neg (Ne.symm hk)⟩

section Step

variable {s s' : Driver} {off : ℤ} {buf : Buf} {junk : ℕ → ℤ} {out : Call} {uw : UncommittedWrite} {d : ℕ → ℤ}
  {n : ℕ → ℤ × ℤ} {g : File}

/-- the old versions after a write -/
theorem reach_written (h : Sound True s) (hs : Written s s' off buf out)
    (hw : WriteExact s (blockOf off) (remOf off) buf junk out uw d n g)
    (hj : ∀ x ∈ strays junk (blockOf off) (remOf off), x ≠ 0 ∧ ¬ s.vol.Holds x ∧ x ∉ out.nums) {k : ℕ}
    (hc : s.committed ≤ k) (hk : k ≤ s.writes.length) (x : ℤ) :
    Reach volShape (child s'.vol.file) (s'.root k) x ↔ Reach volShape (child s.vol.file) (s.root k) x := by
  rw [(root_written hs hw.ok k).1, if_neg (by omega), hs.vol]
  exact reach_congr volShape _ _ _ (child_zero _) (child_zero _)
    (fun y hy => child_congr (hw.ok.held_kept h (fun z hz => (hj z hz).2.1) (h.reach_holds hc hk hy))) x

/-- the new one holds its fresh nodes and what the last one held at untouched positions -/
theorem reach_new (h : Sound True s) (hs : Written s s' off buf out)
    (hw : WriteExact s (blockOf off) (remOf off) buf junk out uw d n g)
    (hj : ∀ x ∈ strays junk (blockOf off) (remOf off), x ≠ 0 ∧ ¬ s.vol.Holds x ∧ x ∉ out.nums) (x : ℤ) :
    Reach volShape (child s'.vol.file) (s'.root (s.writes.length + 1)) x ↔
      Reach volShape (child g) (uw.newMetadataOffset 0) x := by
  rw [(root_written hs hw.ok _).1, if_pos rfl, hs.vol]
  exact reach_congr volShape _ _ _ (child_zero _) (child_zero _)
    (fun y hy => child_congr (new_tree_kept h hw.ok hj y hy)) x

/-- **What a write replaces.** `to_free` is what the last version holds and the new one does not. -/
theorem mem_toFree (h : Sound True s) (hw : WriteExact s (blockOf off) (remOf off) buf junk out uw d n g) (x : ℤ) :
    x ∈ uw.toFree ↔ Reach volShape (child s.vol.file) (s.root s.writes.length) x ∧
      ¬ Reach volShape (child g) (uw.newMetadataOffset 0) x := by
  have hcopy := hw.ok.copy
  rw [next_root] at hcopy
  rw [dropped_of_pathCopy hcopy (freshFor_of_pushOk h.le (hw.ok.pushOk h)) (h.versions.proper _ h.le le_rfl)]
  constructor
  · intro hx
    have := hw.ok.free_touched x hx
    rwa [next_root] at this
  · rintro ⟨hx, j, hj, k, -, hT, rfl⟩
    exact hw.freed j hj k hT hx

/-- a number handed out by a write is in the new version -/
theorem reach_of_nums (h : Sound True s) (hw : WriteExact s (blockOf off) (remOf off) buf junk out uw d n g)
    (ho : InRange off) {x : ℤ} (hx : x ∈ out.nums) : Reach volShape (child g) (uw.newMetadataOffset 0) x := by
  obtain ⟨-, -, hb0, hb⟩ := inRange_parts ho
  have hcopy := hw.ok.copy
  rw [next_root] at hcopy
  obtain ⟨j, hj, i, hi, rfl⟩ := hw.only x hx
  obtain ⟨k, hk, hT, e⟩ := own_touched d n hi hj hb0 hb
  exact (reach_of_pathCopy hcopy (freshFor_of_pushOk h.le (hw.ok.pushOk h)) _).2 (Or.inl ⟨j, hj, k, hk, hT, e⟩)

/-- **The blocks in use after a write.** -/
theorem used_written (h : Sound True s) (ho : InRange off) (hs : Written s s' off buf out)
    (hw : WriteExact s (blockOf off) (remOf off) buf junk out uw d n g)
    (hj : ∀ x ∈ strays junk (blockOf off) (remOf off), x ≠ 0 ∧ ¬ s.vol.Holds x ∧ x ∉ out.nums) :
    s'.used = s.used ∪ out.nums := by
  have hlen : s'.writes.length = s.writes.length + 1 := by rw [hs.writes]; simp
  have hle := h.le
  have hcopy := hw.ok.copy
  rw [next_root] at hcopy
  ext x
  constructor
  · rintro (⟨k, hc, hk, hx⟩ | ⟨k, hc, hk, hx⟩)
    · rw [hs.committed] at hc
      rw [hlen] at hk
      rcases Nat.lt_or_eq_of_le hk with hlt | rfl
      · exact Or.inl (used_live hc (by omega) ((reach_written h hs hw hj hc (by omega) x).1 hx))
      · rw [reach_new h hs hw hj] at hx
        rcases (reach_of_pathCopy hcopy (freshFor_of_pushOk h.le (hw.ok.pushOk h)) x).1 hx with
          ⟨j, hj', k, -, hT, rfl⟩ | ⟨hx0, j, hj', k, hk', -, e⟩
        · exact Or.inr (hw.ok.nums.freshOf_mem hj' hT)
        · exact Or.inl (used_live hle le_rfl ⟨hx0, j, hj', k, hk', e⟩)
    · rw [hs.committed] at hc
      rw [hlen] at hk
      rw [(root_written hs hw.ok k).2] at hx
      split at hx
      · exact Or.inl (used_live hle le_rfl ((mem_toFree h hw x).1 hx).1)
      · exact Or.inl (used_dead hc (by omega) hx)
  · rintro ((⟨k, hc, hk, hx⟩ | ⟨k, hc, hk, hx⟩) | hx)
    · exact used_live (by rw [hs.committed]; exact hc) (by omega) ((reach_written h hs hw hj hc hk x).2 hx)
    · refine used_dead (k := k) (by rw [hs.committed]; exact hc) (by omega) ?_
      rw [(root_written hs hw.ok k).2, if_neg (by omega)]
      exact hx
    · exact used_live (k := s.writes.length + 1) (by rw [hs.committed]; omega) (by omega)
        ((reach_new h hs hw hj x).2 (reach_of_nums h hw ho hx))

theorem reach_committed {w : ℤ × Buf} {c : Call} (h : Sound True s) (hs : Committed s s' w uw c) {k : ℕ}
    (hc : s.committed + 1 ≤ k) (hk : k ≤ s.writes.length) (x : ℤ) :
    Reach volShape (child s'.vol.file) (s'.root k) x ↔ Reach volShape (child s.vol.file) (s.root k) x := by
  rw [(root_committed h hs k hc hk).1]
  refine reach_congr volShape _ _ _ (child_zero _) (child_zero _) (fun y hy => child_congr ?_) x
  exact hs.block_used h (used_live (by omega) hk hy)

end Step

/-! ## Runs -/

/-- version k + 1 replaced what version k holds and it does not; what was handed out is in use or in the queue -/
structure Reclaims (s : Driver) : Prop where
  sound : Sound True s
  dead : ∀ k, s.committed ≤ k → k < s.writes.length → ∀ x, x ∈ s.dead (k + 1) ↔
    Reach volShape (child s.vol.file) (s.root k) x ∧ ¬ Reach volShape (child s.vol.file) (s.root (k + 1)) x
  got : ∀ a ∈ s.got, a.1 ∈ s.used ∨ a.1 ∈ s.vol.freeBlocks

theorem reclaims_written {s : Driver} {off : ℤ} {buf : Buf} {junk : ℕ → ℤ} (h : Reclaims s) (ho : InRange off)
    (hj : JunkUnused s (.write buf off junk)) : Reclaims (s.step (.write buf off junk)) := by
  obtain ⟨uw, d, n, g, hw⟩ := write_exact h.sound ho buf junk
  have hs := step_write (s := s) ho buf junk
  have hused := used_written h.sound ho hs hw (hj ho)
  have hlen : (s.step (.write buf off junk)).writes.length = s.writes.length + 1 := by rw [hs.writes]; simp
  refine ⟨step_sound s _ h.sound (supplied_true s _), fun k hc hk x => ?_, fun a ha => ?_⟩
  · rw [hs.committed] at hc
    rw [hlen] at hk
    rw [(root_written hs hw.ok (k + 1)).2, reach_written h.sound hs hw (hj ho) hc (by omega)]
    rcases Nat.lt_or_eq_of_le (Nat.le_of_lt_succ hk) with hlt | rfl
    · rw [if_neg (by omega), reach_written h.sound hs hw (hj ho) (by omega) (by omega)]
      exact h.dead k hc hlt x
    · rw [if_pos rfl, reach_new h.sound hs hw (hj ho)]
      exact mem_toFree h.sound hw x
  · rw [hused, hs.vol]
    rw [hs.got] at ha
    rcases List.mem_append.1 ha with ha | ha
    · rcases h.got a ha with hu | hq
      · exact Or.inl (Or.inl hu)
      · exact (hw.queue a.1 hq).symm.imp_left Or.inr
    · exact Or.inl (Or.inr ⟨a, ha, rfl⟩)

theorem reclaims_committed {s s' : Driver} {w : ℤ × Buf} {uw : UncommittedWrite} {c : Call} (h : Reclaims s)
    (hs : Committed s s' w uw c) : Reclaims s' := by
  have hlt := hs.lt
  refine ⟨sound_committed h.sound hs, fun k hc hk x => ?_, fun a ha => ?_⟩
  · rw [hs.committed] at hc
    rw [hs.writes] at hk
    rw [(root_committed h.sound hs (k + 1) (by omega) hk).2 (by omega), reach_committed h.sound hs hc (by omega),
      reach_committed h.sound hs (by omega) hk]
    exact h.dead k (by omega) hk x
  · rw [hs.vol, hs.ok.free, List.mem_append, ← hs.dead_eq]
    rw [hs.got] at ha
    -- a node of the dropped version is in the next one or among its dead
    have hlive : ∀ k, s.committed + 1 ≤ k → k ≤ s.writes.length →
        Reach volShape (child s.vol.file) (s.root k) a.1 → a.1 ∈ s'.used := fun k hc hk hx =>
      used_live (k := k) (by rw [hs.committed]; exact hc) (by rw [hs.writes]; exact hk)
        ((reach_committed h.sound hs hc hk _).2 hx)
    rcases h.got a ha with (⟨k, hc, hk, hx⟩ | ⟨k, hc, hk, hx⟩) | hq
    · rcases Nat.lt_or_eq_of_le hc with hc | rfl
      · exact Or.inl (hlive k hc hk hx)
      · by_cases hn : Reach volShape (child s.vol.file) (s.root (s.committed + 1)) a.1
        · exact Or.inl (hlive _ le_rfl hlt hn)
        · exact Or.inr (Or.inr ((h.dead _ le_rfl hlt _).2 ⟨hx, hn⟩))
    · by_cases he : k = s.committed + 1
      · exact Or.inr (Or.inr (he ▸ hx))
      · refine Or.inl (used_dead (k := k) (by rw [hs.committed]; omega) (by rw [hs.writes]; exact hk) ?_)
        rw [(root_committed h.sound hs k (by omega) hk).2 (by omega)]
        exact hx
    · exact Or.inr (Or.inl hq)

theorem step_reclaims (s : Driver) (op : Op) (h : Reclaims s) (hj : JunkUnused s op) : Reclaims (s.step op) := by
  refine Driver.step_inv Reclaims h.sound h op (fun buf off junk e ho => ?_) fun w uw c hs => reclaims_committed h hs
  subst e
  exact reclaims_written h ho hj

theorem reclaims_new (start : ℤ) : Reclaims (Driver.open start (initVolume File.new)) where
  sound := sound_new_from start
  dead k _ hk := absurd hk (Nat.not_lt_zero k)
  got a ha := by simp [Driver.open, initVolume, Call.start, Call.writeBlock] at ha

theorem run_reclaims (start : ℤ) (es : List Op)
    (hj : Meets Driver.step JunkUnused (Driver.open start (initVolume File.new)) es) :
    Reclaims (run Driver.step (Driver.open start (initVolume File.new)) es) :=
  run_inv_of_meets Driver.step JunkUnused Reclaims step_reclaims _ es (reclaims_new start) hj

/-- a commit gives back, once each, what the old committed tree holds and the new one does not -/
def FreesDifference (s s' : Driver) : Prop :=
  ∃ freed : List ℤ, s'.vol.freeBlocks = s.vol.freeBlocks ++ freed ∧ freed.Nodup ∧ ∀ x, x ∈ freed ↔
    Reach volShape (child s.vol.file) s.vol.committedRoot x ∧
      ¬ Reach volShape (child s'.vol.file) s'.vol.committedRoot x

/-- every block handed out is in the committed tree or in the queue, in one place -/
structure Accounted (s : Driver) : Prop where
  somewhere : ∀ a ∈ s.got, Reach volShape (child s.vol.file) s.vol.committedRoot a.1 ∨ a.1 ∈ s.vol.freeBlocks
  once : (usedBlocks s.vol.file s.vol.firstBlock ++ s.vol.freeBlocks).Nodup

theorem frees_difference {s : Driver} (h : Reclaims s) (hlt : s.committed < s.writes.length) :
    FreesDifference s (s.step .commit) := by
  rcases step_commit h.sound with ⟨hc, -⟩ | ⟨w, uw, c, hs⟩
  · omega
  have hsound := sound_committed h.sound hs
  have hroot : s.vol.committedRoot = s.root s.committed := h.sound.root_committed.symm
  have hroot' : (s.step .commit).vol.committedRoot = (s.step .commit).root (s.committed + 1) := by
    rw [← hs.committed]
    exact hsound.root_committed.symm
  refine ⟨s.dead (s.committed + 1), ?_, h.sound.versions.dead_nodup _ (by omega) hlt, fun x => ?_⟩
  · rw [hs.vol, hs.ok.free, hs.dead_eq]
  · rw [hroot, hroot', reach_committed h.sound hs le_rfl hlt]
    exact h.dead _ le_rfl hlt x

theorem accounted {s : Driver} (h : Reclaims s) (hc : s.committed = s.writes.length) : Accounted s := by
  have hroot := h.sound.root_committed
  refine ⟨fun a ha => ?_, List.nodup_append'.2 ⟨?_, h.sound.versions.free_nodup, fun x hx hq => ?_⟩⟩
  · rcases h.got a ha with (⟨k, hck, hk, hx⟩ | ⟨k, hck, hk, -⟩) | hq
    · rw [show k = s.committed by omega, hroot] at hx
      exact Or.inl hx
    · omega
    · exact Or.inr hq
  · refine nodup_usedBlocks _ _ ?_
    rw [← hroot]
    exact h.sound.versions.proper _ le_rfl h.sound.le
  · rw [mem_usedBlocks] at hx
    exact h.sound.versions.free_used x hq (h.sound.holds_used (Or.inl hx))

/-- **Exact reclamation.** In every state of an in-order run on a new file, the next commit frees exactly the blocks of
the committed tree that its own tree no longer holds, and when nothing is uncommitted no block ever handed out is
missing from, or twice in, the committed tree and the queue together. -/
theorem commit_reclaims (start : ℤ) (es : List Op)
    (hj : Meets Driver.step JunkUnused (Driver.open start (initVolume File.new)) es) :
    let s := run Driver.step (Driver.open start (initVolume File.new)) es
    (s.committed < s.writes.length → FreesDifference s (s.step .commit)) ∧
      (s.committed = s.writes.length → Accounted s) := by
  intro s
  have h : Reclaims s := run_reclaims start es hj
  exact ⟨frees_difference h, accounted h⟩

/-- two overlapping writes, the second one still to be committed -/
theorem commit_reclaims_overlapping :
    Meets Driver.step JunkUnused Driver.new [firstOp, secondOp, .commit] ∧
      FreesDifference (run Driver.step Driver.new [firstOp, secondOp, .commit])
        (run Driver.step Driver.new [firstOp, secondOp, .commit, .commit]) := by
  have hj : Meets Driver.step JunkUnused Driver.new [firstOp, secondOp, .commit] :=
    ⟨junkUnused_firstOp _, junkUnused_secondOp _, trivial, trivial⟩
  have hlast : run Driver.step Driver.new [firstOp, secondOp, .commit, .commit] =
      (run Driver.step Driver.new [firstOp, secondOp, .commit]).step .commit :=
    run_append Driver.step Driver.new [firstOp, secondOp, .commit] [.commit]
  rw [hlast]
  refine ⟨hj, (commit_reclaims 0 _ hj).1 ?_⟩
  decide +kernel

end ChainedBlockStorage.Storage
