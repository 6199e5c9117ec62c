/-
In-order runs of the volume: writes numbered start + 1, start + 2, ..., commits in the same order, each after its write.

`Driver` is the volume together with what the caller did so far. Version `k` of the volume is the tree that write
start + k left (version `committed` is the committed tree).

- `Sound`, `step_sound`, `run_sound`: the versions share blocks as copy-on-write allows, and the free list and the
  counter are clear of them. No assumption is made on the unassigned numbers.
- `copy_on_write`: exactly which writes leave every block they were not handed alone.
-/
import ChainedBlockStorage.Core.Run
import ChainedBlockStorage.Storage.Write

namespace ChainedBlockStorage.Storage

open Crash Radix Run

/-! ## The driver -/

structure Driver where
  /-- the number before the first write -/
  start : ℤ
  vol : Volume
  /-- offset and buffer of each write, oldest first -/
  writes : List (ℤ × Buf)
  /-- how many of them are committed -/
  committed : ℕ
  /-- file operations since the volume was opened -/
  io : List (Io (ℤ × Block))
  /-- results of `get_free_block_num` since then -/
  got : List (ℤ × Volume)

/-- `junk` is what the unassigned numbers of an aligned write hold -/
inductive Op where
  | write (buf : Buf) (volumeOffset : ℤ) (junk : ℕ → ℤ)
  | commit

/-- 4096 bytes from the offset on are inside the volume -/
def InRange (volumeOffset : ℤ) : Prop := 0 ≤ volumeOffset ∧ volumeOffset ≤ volumeSize - blockSize

instance (o : ℤ) : Decidable (InRange o) := inferInstanceAs (Decidable (_ ∧ _))

def Driver.open (start : ℤ) (c : Call) : Driver := ⟨start, c.vol, [], 0, c.io, c.got⟩

/-- the number of the next write -/
def Driver.next (s : Driver) : ℤ := s.start + s.writes.length + 1

def Driver.step (s : Driver) : Op → Driver
  | .write buf off junk =>
    if InRange off then
      let c := write junk buf off s.next s.vol
      { s with vol := c.vol, writes := s.writes ++ [(off, buf)], io := s.io ++ c.io, got := s.got ++ c.got }
    else s
  | .commit =>
    match s.writes[s.committed]? with
    | none => s
    | some w =>
      match commit (s.start + s.committed + 1) w.1 s.vol with
      | none => s
      | some c => { s with vol := c.vol, committed := s.committed + 1, io := s.io ++ c.io, got := s.got ++ c.got }

theorem step_start (s : Driver) (op : Op) : (s.step op).start = s.start := by
  cases op <;> simp only [Driver.step] <;> repeat' split
  all_goals rfl

/-- the numbers of a run are counted from where the volume was opened -/
theorem run_start (s : Driver) (es : List Op) : (run Driver.step s es).start = s.start :=
  run_inv Driver.step (fun t => t.start = s.start) (fun t op h => (step_start t op).trans h) s es rfl

/-- block and remainder of an offset -/
def blockOf (off : ℤ) : ℕ := (off / 4096).toNat

def remOf (off : ℤ) : ℕ := (off % 4096).toNat

theorem inRange_parts {off : ℤ} (h : InRange off) :
    off = (4096 * blockOf off + remOf off : ℕ) ∧ remOf off < 4096 ∧ blockOf off < 67108864 ∧
      (remOf off ≠ 0 → blockOf off + 1 < 67108864) := by
  obtain ⟨h0, h1⟩ := h
  simp only [volumeSize_eq, blockSize_eq, Nat.cast_ofNat] at h1
  unfold blockOf remOf
  omega

theorem inRange_tmod {off : ℤ} (h : InRange off) : off.tmod 4096 = remOf off := by
  obtain ⟨e, hr, -⟩ := inRange_parts h
  conv_lhs => rw [e]
  exact tmod_block _ _ hr

/-- where its first block starts -/
theorem inRange_base {off : ℤ} (h : InRange off) : off - remOf off = 4096 * blockOf off := by
  obtain ⟨e, -⟩ := inRange_parts h
  omega

/-! ## Commit -/

/-- what `commit` leaves -/
structure CommitOk (seq off : ℤ) (v : Volume) (uw : UncommittedWrite) (c : Call) : Prop where
  file : c.vol.file = v.file.write (0, c.vol.firstBlock.toBlock)
  root : c.vol.firstBlock.firstLevelBlocks 0 = uw.newMetadataOffset 0
  last : c.vol.firstBlock.lastCommitted = seq
  unc : c.vol.uncommittedWrites = fun n => if n = seq then none else v.uncommittedWrites n
  pending : c.vol.pendingBlocks = fun o => if o = off - off.tmod 4096 then none else v.pendingBlocks o
  free : c.vol.freeBlocks = v.freeBlocks ++ uw.toFree
  total : c.vol.numTotalBlocks = v.numTotalBlocks
  io : c.io = [.fdatasync, .pwrite (0, c.vol.firstBlock.toBlock), .fdatasync]
  got : c.got = []

/-- `commit` finds its write, and its second half never applies: both roots are the same block -/
theorem commit_ok {v : Volume} {seq : ℤ} {uw : UncommittedWrite} (hu : v.uncommittedWrites seq = some uw)
    (h1 : uw.newMetadataOffset 1 = uw.newMetadataOffset 0) (off : ℤ) :
    ∃ c, commit seq off v = some c ∧ CommitOk seq off v uw c := by
  have h : ¬ (uw.newMetadataOffset 1 ≠ 0 ∧ uw.newMetadataOffset 0 ≠ uw.newMetadataOffset 1) := fun h => h.2 h1.symm
  simp only [commit, hu, if_neg h]
  refine ⟨_, rfl, ?_⟩
  constructor <;> first | rfl | simp [switchRoot, Call.start, Call.fdatasync, Call.writeBlock]

/-- it writes block 0 only -/
theorem CommitOk.block_ne {seq off : ℤ} {v : Volume} {uw : UncommittedWrite} {c : Call} (h : CommitOk seq off v uw c)
    {x : ℤ} (hx : x ≠ 0) : c.vol.file.block x = v.file.block x := by
  rw [h.file]
  exact write_block_ne v.file _ x hx

/-- what is pending after it was pending before it -/
theorem CommitOk.pending_some {seq off : ℤ} {v : Volume} {uw : UncommittedWrite} {c : Call}
    (h : CommitOk seq off v uw c) {o d : ℤ} (hd : c.vol.pendingBlocks o = some d) : v.pendingBlocks o = some d := by
  rw [h.pending] at hd
  dsimp only at hd
  split at hd
  · cases hd
  · exact hd

/-! ## Soundness -/

/-- the root of version `k` -/
def Driver.root (s : Driver) (k : ℕ) : ℤ := rootAt s.vol (s.start + k)

/-- the blocks that version `k` replaced -/
def Driver.dead (s : Driver) (k : ℕ) : List ℤ :=
  match s.vol.uncommittedWrites (s.start + k) with
  | some uw => uw.toFree
  | none => []

/-- a block number the allocator may know of -/
def Known (sound : Prop) (v : Volume) (x : ℤ) : Prop := 1 ≤ x ∧ (sound → x ≤ v.numTotalBlocks)

structure Sound (sound : Prop) (s : Driver) : Prop where
  versions : Versions volShape (child s.vol.file) (Known sound s.vol) s.root s.dead s.vol.freeBlocks s.committed
    s.writes.length
  total : 0 ≤ s.vol.numTotalBlocks
  oneRoot : OneRoot s.vol
  some_iff : ∀ n, (∃ uw, s.vol.uncommittedWrites n = some uw) ↔
    ∃ k : ℕ, s.committed < k ∧ k ≤ s.writes.length ∧ n = s.start + k

/-- the blocks in use: nodes of some version, or waiting to be freed -/
def Driver.used (s : Driver) : Set ℤ := Used volShape (child s.vol.file) s.root s.dead s.committed s.writes.length

section Sound

variable {sound : Prop} {s : Driver}

theorem Sound.le (h : Sound sound s) : s.committed ≤ s.writes.length := h.versions.le

theorem Sound.alloc (h : Sound sound s) : AllocOk sound s.used s.vol where
  nodup := h.versions.free_nodup
  pos := fun x hx => (h.versions.bound_free x hx).1
  unused := h.versions.free_used
  total := h.total
  below := fun hs => ⟨fun x hx => (h.versions.bound_used x hx).2 hs, fun x hx => (h.versions.bound_free x hx).2 hs⟩

theorem Sound.pos (h : Sound sound s) {x : ℤ} (hx : x ∈ s.used) : 1 ≤ x := (h.versions.bound_used x hx).1

theorem Sound.uncommitted (h : Sound sound s) {k : ℕ} (hc : s.committed < k) (hw : k ≤ s.writes.length) :
    ∃ uw, s.vol.uncommittedWrites (s.start + k) = some uw ∧ s.root k = uw.newMetadataOffset 0 ∧
      s.dead k = uw.toFree := by
  obtain ⟨uw, hu⟩ := (h.some_iff (s.start + k)).2 ⟨k, hc, hw, rfl⟩
  exact ⟨uw, hu, by simp [Driver.root, rootAt, hu], by simp [Driver.dead, hu]⟩

theorem Sound.none (h : Sound sound s) {n : ℤ} (hn : ∀ k : ℕ, s.committed < k → k ≤ s.writes.length → n ≠ s.start + k) :
    s.vol.uncommittedWrites n = none := by
  cases hu : s.vol.uncommittedWrites n with
  | none => rfl
  | some uw =>
    obtain ⟨k, hc, hw, e⟩ := (h.some_iff n).1 ⟨uw, hu⟩
    exact absurd e (hn k hc hw)

/-- every number names the root of some version -/
theorem Sound.rootAt (h : Sound sound s) (n : ℤ) :
    ∃ k, s.committed ≤ k ∧ k ≤ s.writes.length ∧ Storage.rootAt s.vol n = s.root k := by
  by_cases hk : ∃ k : ℕ, s.committed < k ∧ k ≤ s.writes.length ∧ n = s.start + k
  · obtain ⟨k, hc, hw, e⟩ := hk
    exact ⟨k, by omega, hw, by rw [e]; rfl⟩
  · refine ⟨s.committed, le_rfl, h.le, ?_⟩
    have h1 : s.vol.uncommittedWrites n = .none := h.none (fun k hc hw e => hk ⟨k, hc, hw, e⟩)
    have h2 : s.vol.uncommittedWrites (s.start + s.committed) = .none := h.none (fun k hc hw e => by omega)
    simp only [Driver.root, Storage.rootAt, h1, h2]

/-- the committed root is version `committed` -/
theorem Sound.root_committed (h : Sound sound s) : s.root s.committed = s.vol.firstBlock.firstLevelBlocks 0 := by
  have h2 : s.vol.uncommittedWrites (s.start + s.committed) = .none := h.none (fun k hc hw e => by omega)
  simp only [Driver.root, Storage.rootAt, h2]

/-- what the volume holds is in use -/
theorem Sound.holds_used (h : Sound sound s) {x : ℤ} (hx : s.vol.Holds x) : x ∈ s.used := by
  rcases hx with hx | ⟨n, uw, hu, i, hi, hx⟩
  · rw [← h.root_committed] at hx
    exact used_live le_rfl h.le hx
  · obtain ⟨k, hc, hw, e⟩ := (h.some_iff n).1 ⟨uw, hu⟩
    have hr : uw.newMetadataOffset i = s.root k := by
      have h1 := h.oneRoot n uw hu
      have hr0 : s.root k = uw.newMetadataOffset 0 := by simp only [Driver.root, Storage.rootAt, ← e, hu]
      have hi' : i = 0 ∨ i = 1 := by omega
      obtain rfl | rfl := hi'
      · exact hr0.symm
      · exact h1.trans hr0.symm
    rw [hr] at hx
    exact used_live (by omega) hw hx

/-- every version is held by the volume -/
theorem Sound.reach_holds (h : Sound sound s) {k : ℕ} (hc : s.committed ≤ k) (hw : k ≤ s.writes.length) {x : ℤ}
    (hx : Reach volShape (child s.vol.file) (s.root k) x) : s.vol.Holds x := by
  rcases Nat.lt_or_eq_of_le hc with hlt | heq
  · obtain ⟨uw, hu, hr, -⟩ := h.uncommitted hlt hw
    exact Or.inr ⟨_, uw, hu, 0, by omega, hr ▸ hx⟩
  · rw [← heq, h.root_committed] at hx
    exact Or.inl hx

/-- what a write at any number does in a sound state -/
theorem Sound.write (h : Sound sound s) (junk : ℕ → ℤ) (buf : Buf) (seq : ℤ) {b r : ℕ} (hr : r < 4096)
    (hb0 : b < 67108864) (hb : r ≠ 0 → b + 1 < 67108864) (he : Enough sound (blocksNeeded b r) s.vol) :
    ∃ uw d n g, WriteOk sound s.used (strays junk b r) s.vol b r buf seq
        (Storage.write junk buf (4096 * b + r : ℕ) seq s.vol) uw d n g ∧
      Stamped b r seq s.vol.file g (Storage.rootAt s.vol (seq - 1)) (uw.newMetadataOffset 0) := by
  obtain ⟨k, hc, hw, e⟩ := h.rootAt (seq - 1)
  refine write_ok h.alloc h.oneRoot junk buf seq hr hb0 hb (fun x hx => ?_) ?_ he
  · rw [e] at hx
    exact used_live hc hw hx
  · rw [e]
    exact h.versions.proper k hc hw

/-! ### One write -/

/-- a write meets the conditions under which path copying adds a version -/
theorem WriteOk.pushOk (h : Sound sound s) {J : Set ℤ} {b r : ℕ} {buf : Buf} {out : Call} {uw : UncommittedWrite}
    {d : ℕ → ℤ} {n : ℕ → ℤ × ℤ} {g : File}
    (hw : WriteOk sound s.used J s.vol b r buf s.next out uw d n g) :
    PushOk volShape (child s.vol.file) (child g) (Known sound out.vol) s.root s.dead s.committed s.writes.length
      (touched b r) (freshOf b d n) uw.toFree out.vol.freeBlocks := by
  have hnums : ∀ x ∈ out.nums, 1 ≤ x ∧ x ∉ s.used := by
    intro x hx
    obtain ⟨a, ha, rfl⟩ := hx
    exact ⟨(hw.got a ha).pos, (hw.got a ha).unused⟩
  have hfresh : ∀ j ≤ volShape.depth, ∀ k, touched b r j k → freshOf b d n j k ∈ out.nums :=
    fun j hj k hT => hw.nums.freshOf_mem hj hT
  have hroot : s.root s.writes.length = Storage.rootAt s.vol (s.next - 1) := by
    have : s.next - 1 = s.start + s.writes.length := by unfold Driver.next; ring
    rw [this]
    rfl
  exact
    { kept := fun x hx j i => child_congr (hw.kept x (fun hm => (hnums x hm).2 hx)) j i
      ne_zero := fun j hj k _ hT => by have := (hnums _ (hfresh j hj k hT)).1; omega
      inj := fun j hj k _ j' hj' k' _ hT hT' e => hw.nums.freshOf_inj hj hj' hT hT' e
      new := fun j hj k _ hT => (hnums _ (hfresh j hj k hT)).2
      bound := fun j hj k _ hT => ⟨(hnums _ (hfresh j hj k hT)).1,
        fun hs => (hw.alloc.below hs).1 _ (Or.inr (hfresh j hj k hT))⟩
      used_bound := fun x hx => ⟨h.pos hx, fun hs => (hw.alloc.below hs).1 x (Or.inl hx)⟩
      d_nodup := hw.free_nodup
      d_touched := by rw [hroot]; exact hw.free_touched
      free_nodup := hw.alloc.nodup
      free_used := fun x hx hx' => hw.alloc.unused x hx (Or.inl hx')
      free_new := fun x hx j hj k _ hT e => hw.alloc.unused x hx (Or.inr (e ▸ hfresh j hj k hT))
      free_bound := fun x hx => ⟨hw.alloc.pos x hx, fun hs => (hw.alloc.below hs).2 x hx⟩ }

/-- the state after a write, its file aside -/
structure Written (s s' : Driver) (off : ℤ) (buf : Buf) (out : Call) : Prop where
  start : s'.start = s.start
  vol : s'.vol = out.vol
  writes : s'.writes = s.writes ++ [(off, buf)]
  committed : s'.committed = s.committed
  io : s'.io = s.io ++ out.io
  got : s'.got = s.got ++ out.got

theorem step_write {off : ℤ} (ho : InRange off) (buf : Buf) (junk : ℕ → ℤ) :
    Written s (s.step (.write buf off junk)) off buf (write junk buf off s.next s.vol) := by
  simp only [Driver.step, if_pos ho]
  exact ⟨rfl, rfl, rfl, rfl, rfl, rfl⟩

theorem root_written {s' : Driver} {off : ℤ} {buf : Buf} {J : Set ℤ} {b r : ℕ} {out : Call} {uw : UncommittedWrite}
    {d : ℕ → ℤ} {n : ℕ → ℤ × ℤ} {g : File} {U : Set ℤ} (hs : Written s s' off buf out)
    (hw : WriteOk sound U J s.vol b r buf s.next out uw d n g) (k : ℕ) :
    s'.root k = (if k = s.writes.length + 1 then uw.newMetadataOffset 0 else s.root k) ∧
      s'.dead k = if k = s.writes.length + 1 then uw.toFree else s.dead k := by
  unfold Driver.root Driver.dead Storage.rootAt
  rw [hs.vol, hs.start, hw.unc, hw.firstBlock]
  by_cases he : k = s.writes.length + 1
  · have hseq : s.start + (k : ℤ) = s.next := by unfold Driver.next; omega
    simp only [hseq, if_true, if_pos he, and_self]
  · have hseq : s.start + (k : ℤ) ≠ s.next := by unfold Driver.next; omega
    simp only [hseq, if_false, if_neg he, and_self]

theorem sound_written {s' : Driver} {off : ℤ} {buf : Buf} {J : Set ℤ} {b r : ℕ} {out : Call} {uw : UncommittedWrite}
    {d : ℕ → ℤ} {n : ℕ → ℤ × ℤ} {g : File} (h : Sound sound s) (hs : Written s s' off buf out)
    (hw : WriteOk sound s.used J s.vol b r buf s.next out uw d n g) : Sound sound s' := by
  have hlen : s'.writes.length = s.writes.length + 1 := by rw [hs.writes]; simp
  have hroot : s.root s.writes.length = Storage.rootAt s.vol (s.next - 1) := by
    have : s.next - 1 = s.start + s.writes.length := by unfold Driver.next; ring
    rw [this]
    rfl
  have hcopy := hw.copy
  rw [← hroot] at hcopy
  have hpush := versions_push h.versions (child_zero _) (child_zero _) hcopy (hw.pushOk h)
  constructor
  · rw [hlen, hs.committed, hs.vol]
    exact versions_agree (versions_shrinks hpush (child_zero _) (lostTo_shrinks hw.lost))
      (fun k _ _ => (root_written hs hw k).1) (fun k _ _ => (root_written hs hw k).2)
  · rw [hs.vol]
    exact hw.alloc.total
  · intro k uw' hk
    rw [hs.vol, hw.unc] at hk
    dsimp only at hk
    split at hk
    · cases hk
      exact hw.oneRoot
    · exact h.oneRoot k uw' hk
  · intro k
    rw [hlen, hs.committed, hs.vol, hw.unc, hs.start]
    by_cases he : k = s.next
    · simp only [he, if_true, Option.some.injEq, exists_eq', true_iff]
      refine ⟨s.writes.length + 1, by have := h.le; omega, le_rfl, by unfold Driver.next; push_cast; ring⟩
    · simp only [he, if_false, h.some_iff]
      constructor
      · intro hk
        obtain ⟨i, hc, hi, e⟩ := hk
        exact ⟨i, hc, by omega, e⟩
      · intro hk
        obtain ⟨i, hc, hi, e⟩ := hk
        refine ⟨i, hc, ?_, e⟩
        by_contra hlt
        have : i = s.writes.length + 1 := by omega
        exact he (by rw [e, this]; unfold Driver.next; push_cast; ring)

/-! ### One commit -/

/-- the state after a commit -/
structure Committed (s s' : Driver) (w : ℤ × Buf) (uw : UncommittedWrite) (c : Call) : Prop where
  lt : s.committed < s.writes.length
  write : s.writes[s.committed]? = some w
  unc : s.vol.uncommittedWrites (s.start + s.committed + 1) = some uw
  ok : CommitOk (s.start + s.committed + 1) w.1 s.vol uw c
  start : s'.start = s.start
  vol : s'.vol = c.vol
  writes : s'.writes = s.writes
  committed : s'.committed = s.committed + 1
  io : s'.io = s.io ++ c.io
  got : s'.got = s.got

/-- a commit is a no-op exactly when nothing is uncommitted -/
theorem step_commit (h : Sound sound s) :
    (s.committed = s.writes.length ∧ s.step .commit = s) ∨
      ∃ w uw c, Committed s (s.step .commit) w uw c := by
  rcases Nat.lt_or_ge s.committed s.writes.length with hlt | hge
  · right
    obtain ⟨uw, hu, -, -⟩ := h.uncommitted (Nat.lt_succ_self s.committed) hlt
    have hu' : s.vol.uncommittedWrites (s.start + s.committed + 1) = some uw := by
      rw [← hu]; congr 1; push_cast; ring
    have hget : s.writes[s.committed]? = some s.writes[s.committed] := List.getElem?_eq_getElem hlt
    obtain ⟨c, hc, hok⟩ := commit_ok hu' (h.oneRoot _ uw hu') (s.writes[s.committed]).1
    refine ⟨s.writes[s.committed], uw, c, ?_⟩
    have hst : s.step .commit =
        { s with vol := c.vol, committed := s.committed + 1, io := s.io ++ c.io, got := s.got ++ c.got } := by
      simp only [Driver.step, hget, hc]
    rw [hst]
    exact ⟨hlt, hget, hu', hok, rfl, rfl, rfl, rfl, rfl, by simp [hok.got]⟩
  · left
    have hnone : s.writes[s.committed]? = .none := List.getElem?_eq_none hge
    exact ⟨by have := h.le; omega, by simp only [Driver.step, hnone]⟩

theorem root_committed {s' : Driver} {w : ℤ × Buf} {uw : UncommittedWrite} {c : Call} (h : Sound sound s)
    (hs : Committed s s' w uw c) (k : ℕ) (hk : s.committed + 1 ≤ k) (hkw : k ≤ s.writes.length) :
    s'.root k = s.root k ∧ (s.committed + 1 < k → s'.dead k = s.dead k) := by
  obtain ⟨uw', hu', -, -⟩ := h.uncommitted (by omega) hkw
  unfold Driver.root Driver.dead Storage.rootAt
  rw [hs.vol, hs.start, hs.ok.unc, hs.ok.root]
  by_cases he : k = s.committed + 1
  · have hu := hs.unc
    have e : s.start + (k : ℤ) = s.start + s.committed + 1 := by rw [he]; push_cast; ring
    refine ⟨?_, fun hlt => by omega⟩
    simp only [e, hu, if_true]
  · have hne : s.start + (k : ℤ) ≠ s.start + s.committed + 1 := by omega
    simp [hne, hu']

section Committed

variable {s' : Driver} {w : ℤ × Buf} {uw : UncommittedWrite} {c : Call}

/-- block 0 is in no tree -/
theorem Committed.block_used (hs : Committed s s' w uw c) (h : Sound sound s) {x : ℤ} (hx : x ∈ s.used) :
    s'.vol.file.block x = s.vol.file.block x := by
  have hpos := h.pos hx
  rw [hs.vol]
  exact hs.ok.block_ne (by omega)

/-- only the entry of the first block goes -/
theorem Committed.pending_eq (hs : Committed s s' w uw c) (ho : InRange w.1) (o : ℤ) :
    s'.vol.pendingBlocks o = if o = 4096 * blockOf w.1 then none else s.vol.pendingBlocks o := by
  have hbase : w.1 - w.1.tmod 4096 = 4096 * blockOf w.1 := by rw [inRange_tmod ho, inRange_base ho]
  rw [hs.vol, hs.ok.pending, hbase]

theorem Committed.dead_eq (hs : Committed s s' w uw c) : s.dead (s.committed + 1) = uw.toFree := by
  have e : s.start + ((s.committed + 1 : ℕ) : ℤ) = s.start + s.committed + 1 := by push_cast; ring
  simp only [Driver.dead, e, hs.unc]

end Committed

theorem sound_committed {s' : Driver} {w : ℤ × Buf} {uw : UncommittedWrite} {c : Call} (h : Sound sound s)
    (hs : Committed s s' w uw c) : Sound sound s' := by
  have hlen : s'.writes.length = s.writes.length := by rw [hs.writes]
  have hlt := hs.lt
  have hkept : ∀ x ∈ s.used, ∀ j i, child s'.vol.file j x i = child s.vol.file j x i :=
    fun x hx => child_congr (hs.block_used h hx)
  have hpop := versions_pop (versions_frame h.versions (child_zero _) (child_zero _) hkept) hlt
  constructor
  · have hv : Known sound s'.vol = Known sound s.vol := by unfold Known; rw [hs.vol, hs.ok.total]
    have hfree : s'.vol.freeBlocks = s.vol.freeBlocks ++ s.dead (s.committed + 1) := by
      rw [hs.vol, hs.ok.free, hs.dead_eq]
    rw [hlen, hs.committed, hv, hfree]
    exact versions_agree hpop (fun k hc hw => (root_committed h hs k hc hw).1)
      (fun k hc hw => (root_committed h hs k (by omega) hw).2 hc)
  · rw [hs.vol, hs.ok.total]
    exact h.total
  · intro n uw' hn
    rw [hs.vol, hs.ok.unc] at hn
    dsimp only at hn
    split at hn
    · cases hn
    · exact h.oneRoot n uw' hn
  · intro n
    rw [hlen, hs.committed, hs.vol, hs.ok.unc, hs.start]
    by_cases he : n = s.start + s.committed + 1
    · simp only [he, if_true, reduceCtorEq, exists_false, false_iff]
      intro hk
      obtain ⟨k, hc, hw, e⟩ := hk
      omega
    · simp only [he, if_false, h.some_iff]
      constructor
      · intro hk
        obtain ⟨k, hc, hw, e⟩ := hk
        exact ⟨k, by omega, hw, e⟩
      · intro hk
        obtain ⟨k, hc, hw, e⟩ := hk
        exact ⟨k, by omega, hw, e⟩

/-! ### Runs -/

/-- the numbers a write takes come from the queue, or the counter may be used -/
def Supplied (sound : Prop) (s : Driver) : Op → Prop
  | .write _ off _ => InRange off → Enough sound (blocksNeeded (blockOf off) (remOf off)) s.vol
  | .commit => True

/-- a write of a run: the call, what it does, and the numbers it leaves -/
theorem write_step_stamped (h : Sound sound s) {off : ℤ} (ho : InRange off) (buf : Buf) (junk : ℕ → ℤ)
    (he : Supplied sound s (.write buf off junk)) :
    Written s (s.step (.write buf off junk)) off buf (write junk buf off s.next s.vol) ∧
      ∃ uw d n g, WriteOk sound s.used (strays junk (blockOf off) (remOf off)) s.vol (blockOf off) (remOf off) buf s.next
        (write junk buf off s.next s.vol) uw d n g ∧
        Stamped (blockOf off) (remOf off) s.next s.vol.file g (Storage.rootAt s.vol (s.next - 1))
          (uw.newMetadataOffset 0) := by
  obtain ⟨e, hr, hb0, hb⟩ := inRange_parts ho
  have hw := h.write junk buf s.next hr hb0 hb (he ho)
  rw [← e] at hw
  exact ⟨step_write ho buf junk, hw⟩

theorem write_step (h : Sound sound s) {off : ℤ} (ho : InRange off) (buf : Buf) (junk : ℕ → ℤ)
    (he : Supplied sound s (.write buf off junk)) :
    Written s (s.step (.write buf off junk)) off buf (write junk buf off s.next s.vol) ∧
      ∃ uw d n g, WriteOk sound s.used (strays junk (blockOf off) (remOf off)) s.vol (blockOf off) (remOf off) buf s.next
        (write junk buf off s.next s.vol) uw d n g := by
  obtain ⟨hs, uw, d, n, g, hw, -⟩ := write_step_stamped h ho buf junk he
  exact ⟨hs, uw, d, n, g, hw⟩

/-- **Invariant rule for a step.** A write outside of the volume, and a commit of nothing, change nothing. -/
theorem Driver.step_inv (P : Driver → Prop) (h : Sound sound s) (hs : P s) (op : Op)
    (hwrite : ∀ buf off junk, op = .write buf off junk → InRange off → P (s.step (.write buf off junk)))
    (hcommit : ∀ w uw c, Committed s (s.step .commit) w uw c → P (s.step .commit)) : P (s.step op) := by
  cases op with
  | write buf off junk =>
    by_cases ho : InRange off
    · exact hwrite buf off junk rfl ho
    · simp only [Driver.step, if_neg ho]
      exact hs
  | commit =>
    rcases step_commit h with ⟨-, e⟩ | ⟨w, uw, c, hc⟩
    · rw [e]
      exact hs
    · exact hcommit w uw c hc

theorem step_sound (s : Driver) (op : Op) (h : Sound sound s) (he : Supplied sound s op) : Sound sound (s.step op) := by
  refine Driver.step_inv (Sound sound) h h op (fun buf off junk e ho => ?_) fun w uw c hs => sound_committed h hs
  subst e
  obtain ⟨hs, uw, d, n, g, hw⟩ := write_step h ho buf junk he
  exact sound_written h hs hw

theorem run_sound (h : Sound sound s) (es : List Op) (hm : Meets Driver.step (Supplied sound) s es) :
    Sound sound (run Driver.step s es) :=
  run_inv_of_meets Driver.step (Supplied sound) (Sound sound) step_sound s es h hm

/-- with a sound counter nothing is asked of the queue -/
theorem supplied_true (s : Driver) (op : Op) : Supplied True s op := by
  cases op with
  | write buf off junk => exact fun _ => Or.inl trivial
  | commit => trivial

theorem run_sound_true (h : Sound True s) (es : List Op) : Sound True (run Driver.step s es) :=
  run_inv Driver.step (Sound True) (fun s op h => step_sound s op h (supplied_true s op)) s es h

end Sound

/-! ## Opening -/

/-- a volume just opened, with one tree and a free list outside it -/
theorem sound_open {sound : Prop} {c : Call} (start : ℤ) (hu : ∀ n, c.vol.uncommittedWrites n = none)
    (hp : Proper volShape (child c.vol.file) (c.vol.firstBlock.firstLevelBlocks 0)) (hn : c.vol.freeBlocks.Nodup)
    (hf : ∀ x ∈ c.vol.freeBlocks, ¬ Reach volShape (child c.vol.file) (c.vol.firstBlock.firstLevelBlocks 0) x)
    (hB : ∀ x, Reach volShape (child c.vol.file) (c.vol.firstBlock.firstLevelBlocks 0) x → Known sound c.vol x)
    (hBf : ∀ x ∈ c.vol.freeBlocks, Known sound c.vol x) (ht : 0 ≤ c.vol.numTotalBlocks) :
    Sound sound (Driver.open start c) := by
  have hroot : (Driver.open start c).root 0 = c.vol.firstBlock.firstLevelBlocks 0 := by
    simp [Driver.root, rootAt, Driver.open, hu]
  constructor
  · refine versions_init ?_ hn ?_ ?_ hBf
    all_goals rw [show (Driver.open start c).committed = 0 from rfl, hroot]
    · exact hp
    · exact hf
    · exact hB
  · exact ht
  · intro n uw hn
    simp [Driver.open, hu] at hn
  · intro n
    simp only [Driver.open, hu, List.length_nil, reduceCtorEq, exists_false, false_iff]
    intro hk
    obtain ⟨k, h1, h2, -⟩ := hk
    omega

/-- the driver after `init_volume` on a file that does not exist yet -/
def Driver.new : Driver := Driver.open 0 (initVolume File.new)

/-- `open_volume` does the same there -/
theorem openVolume_new : openVolume File.new = initVolume File.new := by
  have h : File.new.size = 0 := rfl
  simp [openVolume, initVolume, h, Call.start, Call.writeBlock, freshVolume, usedBlocks, FirstBlock.zero, unusedFrom,
    File.write]

theorem sound_new : Sound True Driver.new := by
  have hfree : (initVolume File.new).vol.freeBlocks = [] := by
    simp [initVolume, Call.start, Call.writeBlock, freshVolume, File.write, File.new]
  have hroot : (initVolume File.new).vol.firstBlock.firstLevelBlocks 0 = 0 := rfl
  apply sound_open 0 (fun _ => rfl)
  · rw [hroot]; exact proper_null _ _ (child_zero _)
  · rw [hfree]; exact List.nodup_nil
  · rw [hfree]; simp
  · rw [hroot]; exact fun x hx => absurd hx (not_reach_null _ _ (child_zero _) x)
  · rw [hfree]; simp
  · decide

theorem run_new_sound (es : List Op) : Sound True (run Driver.step Driver.new es) := run_sound_true sound_new es

/-! ## Copy on write -/

/-- what the volume holds is not written, as long as no unassigned number names it -/
theorem WriteOk.held_kept {sound : Prop} {s : Driver} {J : Set ℤ} {b r : ℕ} {buf : Buf} {seq : ℤ} {out : Call}
    {uw : UncommittedWrite} {d : ℕ → ℤ} {n : ℕ → ℤ × ℤ} {g : File}
    (hw : WriteOk sound s.used J s.vol b r buf seq out uw d n g) (h : Sound sound s) (hj : ∀ x ∈ J, ¬ s.vol.Holds x)
    {x : ℤ} (hx : s.vol.Holds x) : out.vol.file.block x = s.vol.file.block x := by
  rw [lostTo_keep hw.lost (fun hJ => hj x hJ hx)]
  apply hw.kept x
  intro hm
  obtain ⟨a, ha, rfl⟩ := hm
  exact (hw.got a ha).unused (h.holds_used hx)

/-- every block the call wrote was handed to it -/
def Call.WritesOwn (c : Call) : Prop := ∀ w, .pwrite w ∈ c.io → w.1 ∈ c.nums

/-- **Copy on write.** In every state an in-order run on a new file reaches, a write keeps to the blocks it was handed,
and so leaves every committed and uncommitted tree alone, exactly when its offset is unaligned or below 2^20: an aligned
write further up uses a number nobody assigned. -/
theorem copy_on_write (es : List Op) (buf : Buf) (off seq : ℤ) (ho : InRange off) :
    (∀ junk, (write junk buf off seq (run Driver.step Driver.new es).vol).WritesOwn ∧
      ∀ x, (run Driver.step Driver.new es).vol.Holds x →
        (write junk buf off seq (run Driver.step Driver.new es).vol).vol.file.block x =
          (run Driver.step Driver.new es).vol.file.block x) ↔
      off % 4096 ≠ 0 ∨ off < 1048576 := by
  have h := run_new_sound es
  set s := run Driver.step Driver.new es
  obtain ⟨e, hr, hb0, hb⟩ := inRange_parts ho
  have hcond : (off % 4096 ≠ 0 ∨ off < 1048576) ↔ ∀ j, ¬ Stray (blockOf off) (remOf off) j := by
    unfold Stray
    constructor
    · intro hc j hj
      obtain ⟨hr0, rfl | rfl, hk⟩ := hj <;> simp only [key] at hk <;> omega
    · intro hc
      have h1 := hc 1
      have h2 := hc 2
      simp only [key, true_or, or_true, true_and] at h1 h2
      by_contra hn
      omega
  have hwrite := fun junk => h.write junk buf seq hr hb0 hb (Or.inl trivial)
  rw [← e] at hwrite
  rw [hcond]
  constructor
  · -- with the number of block 0 in it, an unassigned number shows
    intro hall j hj
    obtain ⟨uw, d, n, g, hw, -⟩ := hwrite fun _ => 0
    obtain ⟨blk, hblk⟩ := hw.strayed 0 ⟨j, hj, rfl⟩
    obtain ⟨a, ha, ha0⟩ := (hall fun _ => 0).1 _ hblk
    have := (hw.got a ha).pos
    omega
  · intro hc junk
    obtain ⟨uw, d, n, g, hw, -⟩ := hwrite junk
    have hnone : ∀ x, x ∉ strays junk (blockOf off) (remOf off) := by
      intro x hx
      obtain ⟨j, hj, -⟩ := hx
      exact hc j hj
    exact ⟨fun w hm => (hw.wrote w hm).resolve_right (hnone w.1), fun x => hw.held_kept h fun x hx => (hnone x hx).elim⟩

/-- one write at offset 0; its tree hangs under block 3 -/
def strayState : Driver := run Driver.step Driver.new [.write (fun _ => 7) 0 fun _ => 0]

/-- an unaligned write over blocks 255 and 256, where the index changes at two levels, next to the uncommitted one -/
theorem copy_on_write_crossing :
    InRange 1048476 ∧ strayState.vol.Holds 3 ∧
      (write (fun _ => 3) (fun _ => 8) 1048476 strayState.next strayState.vol).got.map (·.1) = [6, 7, 8, 9, 10, 11] ∧
      ∀ junk, (write junk (fun _ => 8) 1048476 strayState.next strayState.vol).WritesOwn ∧
        ∀ x, strayState.vol.Holds x →
          (write junk (fun _ => 8) 1048476 strayState.next strayState.vol).vol.file.block x =
            strayState.vol.file.block x := by
  have hr : InRange 1048476 := by decide
  have hheld : strayState.vol.Holds 3 :=
    Or.inr ⟨1, _, rfl, 0, by decide, by decide, 0, by decide, 0, by decide, by decide +kernel⟩
  refine ⟨hr, hheld, by decide +kernel, ?_⟩
  exact (copy_on_write [.write (fun _ => 7) 0 fun _ => 0] (fun _ => 8) 1048476 strayState.next hr).2
    (Or.inl (by decide))

/-- an aligned write at 2^20 whose unassigned numbers happen to hold 3 -/
def strayCall : Call := write (fun _ => 3) (fun _ => 7) 1048576 strayState.next strayState.vol

/-- the second write overwrites the root of the first, uncommitted one -/
theorem unassigned_number_overwrites_root :
    InRange 1048576 ∧ ¬ strayCall.WritesOwn ∧ strayState.vol.Holds 3 ∧
      strayCall.vol.file.block 3 ≠ strayState.vol.file.block 3 := by
  refine ⟨by decide, fun h => ?_, ?_, fun e => ?_⟩
  · have hw : ∃ blk, Io.pwrite (3, blk) ∈ strayCall.io :=
      ⟨_, mem_writeLevels _ _ _ _ 2 (by decide) (by decide +kernel)⟩
    obtain ⟨blk, hb⟩ := hw
    obtain ⟨a, ha, e⟩ := h _ hb
    have hnums : strayCall.got.map (·.1) = [6, 7, 8, 9] := by decide +kernel
    have hm : a.1 ∈ strayCall.got.map (·.1) := List.mem_map_of_mem ha
    rw [e, hnums] at hm
    simp at hm
  · exact Or.inr ⟨1, _, rfl, 0, by decide, by decide, 0, by decide, 0, by decide, by decide +kernel⟩
  · have h1 : (strayState.vol.file.block 3).asWords 0 = 4 := by decide +kernel
    have h2 : (strayCall.vol.file.block 3).asWords 0 = 0 := by decide +kernel
    rw [e, h1] at h2
    exact absurd h2 (by decide)

/-! ## Unassigned numbers -/

/-- the unassigned numbers of a write name no block in use: not block 0, no block of a tree, none just handed out -/
def JunkUnused (s : Driver) : Op → Prop
  | .write buf off junk => InRange off → ∀ x ∈ strays junk (blockOf off) (remOf off),
      x ≠ 0 ∧ ¬ s.vol.Holds x ∧ x ∉ (write junk buf off s.next s.vol).nums
  | .commit => True

/-- an unaligned write and an aligned one of the first block, which use no unassigned number -/
def firstOp : Op := .write (fun _ => 7) 100 fun _ => 0

def secondOp : Op := .write (fun _ => 8) 0 fun _ => 0

/-- an aligned write of one of the first 256 blocks uses no unassigned number -/
theorem junkUnused_low {b : ℕ} (hb : b < 256) (s : Driver) (buf : Buf) (junk : ℕ → ℤ) :
    JunkUnused s (.write buf (4096 * b) junk) := by
  rintro - x ⟨j, ⟨-, hj, hk⟩, -⟩
  rcases hj with rfl | rfl <;> simp only [key, blockOf] at hk <;> omega

theorem junkUnused_firstOp (s : Driver) : JunkUnused s firstOp := by
  intro _ x hx
  obtain ⟨j, ⟨hr, -, -⟩, -⟩ := hx
  exact absurd hr (by decide)

theorem junkUnused_secondOp (s : Driver) : JunkUnused s secondOp := by
  intro _ x hx
  obtain ⟨j, ⟨-, hj, hk⟩, -⟩ := hx
  rcases hj with rfl | rfl <;> exact absurd hk (by decide)

end ChainedBlockStorage.Storage
