/-
How far the counter of `get_free_block_num` gets.

`num_total_blocks` only ever goes up, and each step of it is a number handed out. It goes up when the queue is empty,
and then every block below it is in use. It is an `int` in the source and has no bound here; `allocation_bounded` says
how far it gets.

- `Call.Counts`, `counts_write`: after a write the counter is where it was, or the queue is empty; the numbers it passed
  were handed out.
- `Full`, `step_full`: every number up to the counter is in use or in the queue, but for the one `open_volume` skips.
- `Few`, `step_few`: the blocks in use are those of the committed tree and at most eight for each uncommitted write.
- `allocation_bounded`: no number ever handed out exceeds the blocks of the opened file, or those that were in use at
  some moment; with at most `Q` uncommitted writes at a time the counter stays below 67371522 + 8 Q.
-/
import ChainedBlockStorage.Storage.Reclaim
import ChainedBlockStorage.Storage.Open

namespace ChainedBlockStorage.Storage

open Crash Radix Run

/-! ## The counter during a call -/

/-- since `v` the counter has stood still or the queue has run out, and the numbers it passed were handed out -/
structure Call.Counts (v : Volume) (c : Call) : Prop where
  moved : c.vol.numTotalBlocks = v.numTotalBlocks ∨ c.vol.freeBlocks = []
  passed : ∀ x, v.numTotalBlocks < x → x ≤ c.vol.numTotalBlocks → x ∈ c.nums

theorem counts_alloc {v : Volume} {c : Call} (h : c.Counts v) : c.getFreeBlockNum.2.Counts v := by
  cases hq : c.vol.freeBlocks with
  | nil =>
    have hfree : c.getFreeBlockNum.2.vol.freeBlocks = [] := by
      simp only [Call.getFreeBlockNum, Storage.getFreeBlockNum, hq]
    have htotal : c.getFreeBlockNum.2.vol.numTotalBlocks = c.vol.numTotalBlocks + 1 := by
      simp only [Call.getFreeBlockNum, Storage.getFreeBlockNum, hq]
    have hnum : c.getFreeBlockNum.1 = c.vol.numTotalBlocks + 1 := by
      simp only [Call.getFreeBlockNum, Storage.getFreeBlockNum, hq]
    refine ⟨Or.inr hfree, fun x hx hx' => ?_⟩
    rw [nums_alloc]
    rw [htotal] at hx'
    rcases Int.lt_or_eq_of_le hx' with hlt | rfl
    · exact Set.mem_insert_of_mem _ (h.passed x hx (Int.le_of_lt_add_one hlt))
    · exact hnum ▸ Set.mem_insert _ _
  | cons y l =>
    have hfree : c.getFreeBlockNum.2.vol.freeBlocks = l := by
      simp only [Call.getFreeBlockNum, Storage.getFreeBlockNum, hq]
    have htotal : c.getFreeBlockNum.2.vol.numTotalBlocks = c.vol.numTotalBlocks := by
      simp only [Call.getFreeBlockNum, Storage.getFreeBlockNum, hq]
    refine ⟨Or.inl (htotal.trans (h.moved.resolve_right ?_)), fun x hx hx' => ?_⟩
    · rw [hq]
      exact List.cons_ne_nil y l
    · rw [nums_alloc]
      exact Set.mem_insert_of_mem _ (h.passed x hx (htotal ▸ hx'))

theorem counts_newBlockNums {v : Volume} {c : Call} (h : c.Counts v) (same two : Bool) (junk : ℤ) :
    (c.newBlockNums same two junk).2.Counts v := by
  cases same with
  | true => exact counts_alloc h
  | false =>
    cases two with
    | false => exact counts_alloc h
    | true => exact counts_alloc (counts_alloc h)

theorem counts_writeData (v : Volume) (buf : Buf) (off : ℤ) : (writeData buf off (Call.start v)).2.Counts v := by
  have h : (Call.start v).Counts v := ⟨Or.inl rfl, fun x hx hx' => absurd hx' (not_le.2 hx)⟩
  -- writing and `pending_blocks` leave the queue, the counter and the numbers alone
  have hput : ∀ (c : Call) (n o : ℤ) (b : Block), c.Counts v → ((c.writeBlock n b).setPending o n).Counts v :=
    fun _ _ _ _ hc => ⟨hc.moved, hc.passed⟩
  simp only [writeData]
  split
  · exact hput _ _ _ _ (counts_alloc (hput _ _ _ _ (counts_alloc h)))
  · exact hput _ _ _ _ (counts_alloc h)

theorem writeLevels_total (c : Call) (one : ℕ → Bool) (n : ℕ → ℤ × ℤ) (bl : ℕ → Words × Words) :
    (c.writeLevels one n bl).vol.numTotalBlocks = c.vol.numTotalBlocks := by
  unfold Call.writeLevels Call.writeLevel
  split <;> split <;> split <;> rfl

theorem counts_write (junk : ℕ → ℤ) (buf : Buf) (off seq : ℤ) (v : Volume) : (write junk buf off seq v).Counts v := by
  set d := writeData buf off (Call.start v) with hd
  set m := metaPlan d.2.vol seq off
  set a := allocLevels m junk d.2 with ha
  have halloc : a.2.Counts v :=
    counts_newBlockNums (counts_newBlockNums (counts_newBlockNums (counts_writeData v buf off) _ _ _) _ _ _) _ _ _
  have hnums : (write junk buf off seq v).nums = a.2.nums := writeLevels_nums a.2 m.same a.1 _
  have hfree : (write junk buf off seq v).vol.freeBlocks = a.2.vol.freeBlocks := writeLevels_free a.2 m.same a.1 _
  have htotal : (write junk buf off seq v).vol.numTotalBlocks = a.2.vol.numTotalBlocks :=
    writeLevels_total a.2 m.same a.1 _
  exact ⟨by rw [htotal, hfree]; exact halloc.moved, by rw [htotal, hnums]; exact halloc.passed⟩

/-! ## Every number is somewhere -/

/-- every number up to the counter is in use or in the queue, but for `skipped` -/
structure Full (skipped : ℤ) (s : Driver) : Prop where
  reclaims : Reclaims s
  full : ∀ x, 1 ≤ x → x ≤ s.vol.numTotalBlocks → x ≠ skipped → x ∈ s.used ∨ x ∈ s.vol.freeBlocks

theorem full_written {skipped : ℤ} {s : Driver} {off : ℤ} {buf : Buf} {junk : ℕ → ℤ} (h : Full skipped s)
    (ho : InRange off) (hj : JunkUnused s (.write buf off junk)) : Full skipped (s.step (.write buf off junk)) := by
  obtain ⟨uw, d, n, g, hw⟩ := write_exact h.reclaims.sound ho buf junk
  have hs := step_write (s := s) ho buf junk
  have hcounts := counts_write junk buf off s.next s.vol
  refine ⟨reclaims_written h.reclaims ho hj, fun x hpos hx hne => ?_⟩
  rw [used_written h.reclaims.sound ho hs hw (hj ho), hs.vol]
  rw [hs.vol] at hx
  rcases le_or_gt x s.vol.numTotalBlocks with hold | hnew
  · rcases h.full x hpos hold hne with hu | hq
    · exact Or.inl (Or.inl hu)
    · exact (hw.queue x hq).symm.imp_left Or.inr
  · exact Or.inl (Or.inr (hcounts.passed x hnew hx))

/-- what a commit takes out of use is what its write replaced -/
theorem used_left {s s' : Driver} {w : ℤ × Buf} {uw : UncommittedWrite} {c : Call} (h : Reclaims s)
    (hs : Committed s s' w uw c) {x : ℤ} (hx : x ∈ s.used) : x ∈ s'.used ∨ x ∈ s.dead (s.committed + 1) := by
  have hlt := hs.lt
  have hlive : ∀ k, s.committed + 1 ≤ k → k ≤ s.writes.length →
      Reach volShape (child s.vol.file) (s.root k) x → x ∈ s'.used := fun k hc hk hx =>
    used_live (k := k) (by rw [hs.committed]; exact hc) (by rw [hs.writes]; exact hk)
      ((reach_committed h.sound hs hc hk _).2 hx)
  rcases hx with ⟨k, hc, hk, hx⟩ | ⟨k, hc, hk, hx⟩
  · rcases Nat.lt_or_eq_of_le hc with hc | rfl
    · exact Or.inl (hlive k hc hk hx)
    · by_cases hn : Reach volShape (child s.vol.file) (s.root (s.committed + 1)) x
      · exact Or.inl (hlive _ le_rfl hlt hn)
      · exact Or.inr ((h.dead _ le_rfl hlt _).2 ⟨hx, hn⟩)
  · by_cases he : k = s.committed + 1
    · exact Or.inr (he ▸ hx)
    · refine Or.inl (used_dead (k := k) (by rw [hs.committed]; omega) (by rw [hs.writes]; exact hk) ?_)
      rw [(root_committed h.sound hs k (by omega) hk).2 (by omega)]
      exact hx

theorem full_committed {skipped : ℤ} {s s' : Driver} {w : ℤ × Buf} {uw : UncommittedWrite} {c : Call}
    (h : Full skipped s) (hs : Committed s s' w uw c) : Full skipped s' := by
  refine ⟨reclaims_committed h.reclaims hs, fun x hpos hx hne => ?_⟩
  rw [hs.vol, hs.ok.total] at hx
  rw [hs.vol, hs.ok.free, List.mem_append, ← hs.dead_eq]
  rcases h.full x hpos hx hne with hu | hq
  · exact (used_left h.reclaims hs hu).imp_right Or.inr
  · exact Or.inr (Or.inl hq)

theorem step_full {skipped : ℤ} (s : Driver) (op : Op) (h : Full skipped s) (hj : JunkUnused s op) :
    Full skipped (s.step op) := by
  refine Driver.step_inv (Full skipped) h.reclaims.sound h op (fun buf off junk e ho => ?_)
    fun w uw c hs => full_committed h hs
  subst e
  exact full_written h ho hj

theorem reclaims_opened (f : File) (start : ℤ) (o : Opening) (hf : o = .openVolume → VolumeFile f)
    (hc : CounterOk f o) : Reclaims (Driver.open start (o.call f)) where
  sound := sound_opened f start o hf hc
  dead k _ hk := absurd hk (Nat.not_lt_zero k)
  got a ha := by
    have hnone : (o.call f).got = [] := by
      cases o with
      | initVolume => rfl
      | openVolume => simp only [Opening.call, openVolume]; split <;> rfl
    rw [show (Driver.open start (o.call f)).got = (o.call f).got from rfl, hnone] at ha
    cases ha

/-- the skipped number is the length of the file -/
theorem full_opened (f : File) (start : ℤ) (o : Opening) (hf : o = .openVolume → VolumeFile f) (hc : CounterOk f o) :
    Full (o.call f).vol.numTotalBlocks (Driver.open start (o.call f)) := by
  have hreclaims := reclaims_opened f start o hf hc
  have hroot : (Driver.open start (o.call f)).root 0 = (o.call f).vol.committedRoot := hreclaims.sound.root_committed
  refine ⟨hreclaims, fun x hpos hx hne => ?_⟩
  have hlt : x < (o.call f).vol.numTotalBlocks := lt_of_le_of_ne hx hne
  cases o with
  | initVolume =>
    have htotal : (initVolume f).vol.numTotalBlocks = 1 := rfl
    rw [Opening.call, htotal] at hlt
    omega
  | openVolume =>
    by_cases he : (f.size + 1) / blockSize = 0
    · rw [Opening.call, openVolume_empty f he] at hlt
      simp only [freshVolume] at hlt
      omega
    · obtain ⟨hfile, hfirst⟩ := openVolume_first f he
      have htotal : (openVolume f).vol.numTotalBlocks = ((f.size + 1) / blockSize : ℕ) := by
        rw [openVolume_vol f he]
        rfl
      rw [Opening.call, htotal] at hlt
      by_cases hr : Reach volShape (child f) ((FirstBlock.ofBlock (f.block 0)).firstLevelBlocks 0) x
      · left
        refine used_live (k := 0) le_rfl (Nat.zero_le _) ?_
        change Reach volShape (child (openVolume f).vol.file) ((Driver.open start (Opening.openVolume.call f)).root 0) x
        rw [hroot, hfile, Volume.committedRoot]
        rw [show (Opening.openVolume.call f).vol = (openVolume f).vol from rfl, hfirst]
        exact hr
      · exact Or.inr (((openVolume_free f (hf rfl) he).2 x).2 ⟨hpos, hlt, hr⟩)

/-! ## How many are in use -/

/-- each uncommitted write has added at most eight nodes -/
structure Few (s : Driver) : Prop where
  reclaims : Reclaims s
  new : ∀ k, s.committed ≤ k → k < s.writes.length → ∃ T : Finset ℤ, T.card ≤ 8 ∧
    ∀ x, Reach volShape (child s.vol.file) (s.root (k + 1)) x → Reach volShape (child s.vol.file) (s.root k) x ∨ x ∈ T

/-- two numbers a level -/
def ownNums (d : ℕ → ℤ) (n : ℕ → ℤ × ℤ) : Finset ℤ :=
  (Finset.range 4 ×ˢ Finset.range 2).image fun p => numOf d n p.2 p.1

theorem card_ownNums (d : ℕ → ℤ) (n : ℕ → ℤ × ℤ) : (ownNums d n).card ≤ 8 :=
  calc (ownNums d n).card ≤ (Finset.range 4 ×ˢ Finset.range 2).card := Finset.card_image_le
    _ = 8 := by rfl

theorem few_written {s : Driver} {off : ℤ} {buf : Buf} {junk : ℕ → ℤ} (h : Few s) (ho : InRange off)
    (hj : JunkUnused s (.write buf off junk)) : Few (s.step (.write buf off junk)) := by
  have hsound := h.reclaims.sound
  obtain ⟨uw, d, n, g, hw⟩ := write_exact hsound ho buf junk
  have hs := step_write (s := s) ho buf junk
  refine ⟨reclaims_written h.reclaims ho hj, fun k hc hk => ?_⟩
  rw [hs.committed] at hc
  rw [hs.writes, List.length_append, List.length_singleton] at hk
  rcases Nat.lt_or_eq_of_le (Nat.le_of_lt_succ hk) with hlt | rfl
  · obtain ⟨T, hT, hnew⟩ := h.new k hc hlt
    refine ⟨T, hT, fun x hx => ?_⟩
    rw [reach_written hsound hs hw (hj ho) (by omega) (by omega)] at hx
    rw [reach_written hsound hs hw (hj ho) hc (by omega)]
    exact hnew x hx
  · refine ⟨ownNums d n, card_ownNums d n, fun x hx => ?_⟩
    have hcopy := hw.ok.copy
    rw [next_root] at hcopy
    rw [reach_new hsound hs hw (hj ho)] at hx
    rw [reach_written hsound hs hw (hj ho) hc le_rfl]
    rcases (reach_of_pathCopy hcopy (freshFor_of_pushOk hsound.le (hw.ok.pushOk hsound)) x).1 hx with
      ⟨j, hj', k, -, hT, rfl⟩ | ⟨hx0, j, hj', k, hk', -, e⟩
    · right
      obtain ⟨i, hown, -, e⟩ := touched_own d n hT
      rw [e]
      refine Finset.mem_image.2 ⟨(j, i), Finset.mem_product.2 ⟨Finset.mem_range.2 (Nat.lt_succ_of_le hj'), ?_⟩, rfl⟩
      rcases hown with rfl | ⟨rfl, -⟩
      · exact Finset.mem_range.2 Nat.two_pos
      · exact Finset.mem_range.2 Nat.one_lt_two
    · exact Or.inl ⟨hx0, j, hj', k, hk', e⟩

theorem few_committed {s s' : Driver} {w : ℤ × Buf} {uw : UncommittedWrite} {c : Call} (h : Few s)
    (hs : Committed s s' w uw c) : Few s' := by
  refine ⟨reclaims_committed h.reclaims hs, fun k hc hk => ?_⟩
  rw [hs.committed] at hc
  rw [hs.writes] at hk
  obtain ⟨T, hT, hnew⟩ := h.new k (by omega) hk
  refine ⟨T, hT, fun x hx => ?_⟩
  rw [reach_committed h.reclaims.sound hs (by omega) hk] at hx
  rw [reach_committed h.reclaims.sound hs hc hk.le]
  exact hnew x hx

theorem step_few (s : Driver) (op : Op) (h : Few s) (hj : JunkUnused s op) : Few (s.step op) := by
  refine Driver.step_inv Few h.reclaims.sound h op (fun buf off junk e ho => ?_) fun w uw c hs => few_committed h hs
  subst e
  exact few_written h ho hj

/-- the blocks of the committed tree, and eight for each uncommitted write -/
theorem Few.ncard_used {s : Driver} (h : Few s) : s.used.Finite ∧
    s.used.ncard ≤ {x | Reach volShape (child s.vol.file) s.vol.committedRoot x}.ncard +
      8 * (s.writes.length - s.committed) := by
  have hcount := used_ncard_le 8 h.reclaims.sound.le (fun k hc hk x hx => ((h.reclaims.dead k hc hk x).1 hx).1) h.new
  rw [h.reclaims.sound.root_committed] at hcount
  exact hcount

/-- a volume that is written all over -/
theorem ncard_tree (v : Volume) : {x | Reach volShape (child v.file) v.committedRoot x}.ncard ≤ 67371521 :=
  calc {x | Reach volShape (child v.file) v.committedRoot x}.ncard
      ≤ ∑ j ∈ Finset.range (volShape.depth + 1), volShape.cap j := (reach_finite _ _ _).2
    _ = 67371521 := by simp [Finset.sum_range_succ]

/-! ## The counter over runs -/

/-- when the queue is empty all numbers but one are in use -/
theorem Full.counter_le {skipped : ℤ} {s : Driver} (h : Full skipped s) (hfin : s.used.Finite)
    (hq : s.vol.freeBlocks = []) : s.vol.numTotalBlocks ≤ 1 + s.used.ncard := by
  have hsub : ↑((Finset.Icc 1 s.vol.numTotalBlocks).erase skipped) ⊆ s.used := by
    intro x hx
    obtain ⟨hne, hx⟩ := Finset.mem_erase.1 (Finset.mem_coe.1 hx)
    obtain ⟨hpos, hle⟩ := Finset.mem_Icc.1 hx
    refine (h.full x hpos hle hne).resolve_right ?_
    rw [hq]
    exact List.not_mem_nil
  have hcard : (Finset.Icc 1 s.vol.numTotalBlocks).card - 1 ≤ s.used.ncard := by
    calc (Finset.Icc 1 s.vol.numTotalBlocks).card - 1 ≤ ((Finset.Icc 1 s.vol.numTotalBlocks).erase skipped).card :=
          Finset.pred_card_le_card_erase
      _ ≤ s.used.ncard := by
        rw [← Set.ncard_coe_finset]
        exact Set.ncard_le_ncard hsub hfin
  rw [Int.card_Icc] at hcard
  omega

/-- **One step.** The counter moves in a write that empties the queue only. -/
theorem step_counter {skipped : ℤ} {s : Driver} (hfull : Full skipped s) (hfew : Few s) (op : Op)
    (hj : JunkUnused s op) : (s.step op).vol.numTotalBlocks = s.vol.numTotalBlocks ∨
      (s.step op).vol.numTotalBlocks ≤ 1 + (s.step op).used.ncard := by
  cases op with
  | write buf off junk =>
    by_cases ho : InRange off
    · have hs := step_write (s := s) ho buf junk
      have hmoved := (counts_write junk buf off s.next s.vol).moved
      rw [← hs.vol] at hmoved
      exact hmoved.imp_right ((full_written hfull ho hj).counter_le (few_written hfew ho hj).ncard_used.1)
    · left
      simp only [Driver.step, if_neg ho]
  | commit =>
    left
    rcases step_commit hfull.reclaims.sound with ⟨-, e⟩ | ⟨w, uw, c, hs⟩
    · rw [e]
    · rw [hs.vol, hs.ok.total]

/-- the counter is at most what it was, or one more than the blocks in use at some moment -/
theorem run_counter {skipped : ℤ} {s : Driver} (hfull : Full skipped s) (hfew : Few s) (es : List Op)
    (hj : Meets Driver.step JunkUnused s es) :
    (run Driver.step s es).vol.numTotalBlocks = s.vol.numTotalBlocks ∨ ∃ k ≤ es.length,
      (run Driver.step s es).vol.numTotalBlocks ≤ 1 + (run Driver.step s (es.take k)).used.ncard := by
  induction es generalizing s with
  | nil => exact Or.inl rfl
  | cons op es ih =>
    rcases ih (step_full s op hfull hj.1) (step_few s op hfew hj.1) hj.2 with hsame | ⟨k, hk, hle⟩
    · rw [run_cons, hsame]
      refine (step_counter hfull hfew op hj.1).imp_right fun hle => ⟨1, ?_, hle⟩
      exact Nat.succ_le_succ (Nat.zero_le _)
    · exact Or.inr ⟨k + 1, Nat.succ_le_succ hk, hle⟩

/-- **Space.** After any run on an opened volume, the numbers handed out are at most `num_total_blocks`. That is at most
the blocks of the opened file, or one more than the blocks in use (in the committed tree, in an uncommitted one, or
waiting for a commit) at some moment of the run. So with at most `Q` uncommitted writes at a time it is at most
67371522 + 8 Q: below 2^31 for up to 2^27 of them, however long the run. -/
theorem allocation_bounded (f : File) (start : ℤ) (o : Opening) (es : List Op) (hf : o = .openVolume → VolumeFile f)
    (hc : CounterOk f o) (hj : Meets Driver.step JunkUnused (Driver.open start (o.call f)) es) :
    let total := (o.call f).vol.numTotalBlocks
    let after := fun k => run Driver.step (Driver.open start (o.call f)) (es.take k)
    let s := run Driver.step (Driver.open start (o.call f)) es
    (∀ a ∈ s.got, a.1 ≤ s.vol.numTotalBlocks) ∧
      (∃ k ≤ es.length, s.vol.numTotalBlocks ≤ max total (1 + (after k).used.ncard)) ∧
      ∀ Q : ℕ, (∀ k, (after k).writes.length ≤ (after k).committed + Q) →
        s.vol.numTotalBlocks ≤ max total (67371522 + 8 * Q) := by
  intro total after s
  have hfull := full_opened f start o hf hc
  have hfew : Few (Driver.open start (o.call f)) :=
    ⟨hfull.reclaims, fun k _ hk => absurd hk (Nat.not_lt_zero k)⟩
  have hcounter := run_counter hfull hfew es hj
  have hrun : Full total s := run_inv_of_meets Driver.step JunkUnused (Full total) step_full _ es hfull hj
  have hafter : ∀ k, Few (after k) := fun k => by
    have hpre : Meets Driver.step JunkUnused (Driver.open start (o.call f)) (es.take k) := by
      have hall := hj
      rw [← List.take_append_drop k es, meets_append] at hall
      exact hall.1
    exact run_inv_of_meets Driver.step JunkUnused Few step_few _ _ hfew hpre
  refine ⟨fun a ha => ?_, ?_, fun Q hQ => ?_⟩
  · have hversions := hrun.reclaims.sound.versions
    rcases hrun.reclaims.got a ha with hu | hq
    · exact (hversions.bound_used _ hu).2 trivial
    · exact (hversions.bound_free _ hq).2 trivial
  · rcases hcounter with hsame | ⟨k, hk, hle⟩
    · exact ⟨0, Nat.zero_le _, hsame.le.trans (le_max_left _ _)⟩
    · exact ⟨k, hk, hle.trans (le_max_right _ _)⟩
  · rcases hcounter with hsame | ⟨k, -, hle⟩
    · exact hsame.le.trans (le_max_left _ _)
    · refine le_max_of_le_right (hle.trans ?_)
      have hused := (hafter k).ncard_used.2
      have htree := ncard_tree (after k).vol
      have hout := hQ k
      change (1 : ℤ) + ((after k).used.ncard : ℤ) ≤ 67371522 + 8 * Q
      omega

/-- an overwrite for each of three commits, on five blocks -/
theorem allocation_bounded_overwrites :
    let s := run Driver.step (Driver.open 0 (Opening.openVolume.call fiveBlocks))
      [secondOp, .commit, secondOp, .commit, secondOp, .commit]
    ∀ a ∈ s.got, a.1 ≤ s.vol.numTotalBlocks :=
  (allocation_bounded fiveBlocks 0 .openVolume [secondOp, .commit, secondOp, .commit, secondOp, .commit]
    (fun _ => volumeFile_empty fiveBlocks (by simp [fiveBlocks, FirstBlock.zero])) trivial
    ⟨junkUnused_secondOp _, trivial, junkUnused_secondOp _, trivial, junkUnused_secondOp _, trivial, trivial⟩).1

end ChainedBlockStorage.Storage
