/-
A write, its commit, and the bytes at other offsets.

An offset is a uint64 in the requests and a `long` in `Storage`. Nothing on the way compares it with the size of the
volume: the indices of the tree are masked, the keys of `pending_blocks` are not.

- `Layered`, `step_layered`: a version differs from the one before it in the blocks of its write only, and a pending
  block is that of the newest version.
- `write_frame`: for two offsets in the volume whose 4096 bytes have none in common, a write at one and its commit leave
  what `read` returns at the other as it was, in every state where the uncommitted blocks of the read are pending.
- `write_past_end`: a write at offset 2^38 changes byte 0.
-/
import ChainedBlockStorage.Storage.History

namespace ChainedBlockStorage.Storage

open Crash Positions Radix Run

/-! ## Offsets of requests -/

/-- the offset of a request, as `Storage::write` and `Storage::read` get it -/
def requestOffset (offset : UInt64) : ℤ := offset.toInt64.toInt

/-- the 4096 bytes from the offset on lie in the volume -/
def InVolume (offset : UInt64) : Prop := offset.toNat + blockSize ≤ volumeSize

instance (o : UInt64) : Decidable (InVolume o) := inferInstanceAs (Decidable (_ ≤ _))

/-- the 4096 bytes from one offset on and those from the other have none in common -/
def NoCommonByte (o₁ o₂ : UInt64) : Prop := o₁.toNat + blockSize ≤ o₂.toNat ∨ o₂.toNat + blockSize ≤ o₁.toNat

instance (o₁ o₂ : UInt64) : Decidable (NoCommonByte o₁ o₂) := inferInstanceAs (Decidable (_ ∨ _))

/-- `write` at `o₁` as number `seq`, and its `commit`, leave what `read` returns at `o₂` as it was -/
def LeavesAlone (v : Volume) (seq : ℤ) (junk : ℕ → ℤ) (buf : Buf) (o₁ o₂ : UInt64) : Prop :=
  ∃ c, commit seq (requestOffset o₁) (write junk buf (requestOffset o₁) seq v).vol = some c ∧
    ∀ p < blockSize, read c.vol (requestOffset o₂) p = read v (requestOffset o₂) p

/-- everything that is uncommitted is committed, in order -/
def Driver.commitAll (s : Driver) : Driver := run Driver.step s (List.replicate (s.writes.length - s.committed) .commit)

/-- below 2^63 the conversion to `long` keeps the value -/
theorem requestOffset_eq {o : UInt64} (h : InVolume o) : requestOffset o = o.toNat := by
  simp only [InVolume, blockSize_eq, volumeSize_eq] at h
  have hlt : 2 * o.toBitVec.toNat < 2 ^ 64 := by
    have : o.toBitVec.toNat = o.toNat := rfl
    omega
  exact BitVec.toInt_eq_toNat_of_lt hlt

theorem InVolume.inRange {o : UInt64} (h : InVolume o) : InRange (requestOffset o) := by
  rw [requestOffset_eq h]
  simp only [InVolume, blockSize_eq, volumeSize_eq] at h
  simp only [InRange, blockSize_eq, volumeSize_eq]
  push_cast
  omega

/-! ## One version and the next -/

structure Layered (s : Driver) : Prop where
  sound : Sound True s
  others : KeepsOthers s
  pending : PendingNewest s

theorem layered_written {s : Driver} {off : ℤ} {buf : Buf} {junk : ℕ → ℤ} (h : Layered s) (ho : InRange off)
    (hj : JunkUnused s (.write buf off junk)) : Layered (s.step (.write buf off junk)) where
  sound := step_sound s _ h.sound (supplied_true s _)
  others := keepsOthers_written h.sound h.others ho hj
  pending := pendingNewest_written h.sound h.pending ho hj

theorem layered_committed {s s' : Driver} {w : ℤ × Buf} {uw : UncommittedWrite} {c : Call} (h : Layered s)
    (hs : Committed s s' w uw c) : Layered s' where
  sound := sound_committed h.sound hs
  others := keepsOthers_committed h.sound h.others hs
  pending := pendingNewest_committed h.sound h.pending hs

theorem step_layered (s : Driver) (op : Op) (h : Layered s) (hj : JunkUnused s op) : Layered (s.step op) := by
  refine Driver.step_inv Layered h.sound h op (fun buf off junk e ho => ?_) fun w uw c hs => layered_committed h hs
  subst e
  exact layered_written h ho hj

/-- nothing is pending in a volume that was just opened -/
theorem opening_pending (f : File) (o : Opening) (x : ℤ) : (o.call f).vol.pendingBlocks x = none := by
  cases o with
  | initVolume => rfl
  | openVolume =>
    simp only [Opening.call, openVolume]
    split <;> rfl

theorem layered_opened (f : File) (start : ℤ) (o : Opening) (hf : o = .openVolume → VolumeFile f)
    (hc : CounterOk f o) : Layered (Driver.open start (o.call f)) where
  sound := sound_opened f start o hf hc
  others k _ w hw := by simp [Driver.open] at hw
  pending b _ d hd := by
    rw [show (Driver.open start (o.call f)).vol = (o.call f).vol from rfl, opening_pending] at hd
    cases hd

/-! ## What a read returns -/

/-- `read_aligned` returns the block of the newest version -/
theorem Layered.readAligned_eq {s : Driver} (h : Layered s) {b : ℕ} (hb : b < 67108864)
    (hk : Uncommitted s b → s.vol.pendingBlocks (4096 * b) ≠ none) :
    readAligned s.vol (4096 * b) = (s.leaf s.writes.length b).data := by
  cases hp : s.vol.pendingBlocks (4096 * b) with
  | some d => exact h.pending.readAligned_eq hb hp
  | none =>
    rw [readAligned_committed h.sound hp]
    exact congrArg Leaf.data (h.others.leaf_newest h.sound hb fun hu => hk hu hp).symm

/-- after its own commit the newest version is the committed one, and `read_aligned` returns its blocks -/
theorem readAligned_commit {s : Driver} (h : Layered s) {uw : UncommittedWrite} {off : ℤ} {c : Call}
    (hu : s.vol.uncommittedWrites (s.start + s.writes.length) = some uw)
    (hc : CommitOk (s.start + s.writes.length) off s.vol uw c) {b : ℕ} (hb : b < 67108864) :
    readAligned c.vol (4096 * b) = (s.leaf s.writes.length b).data := by
  have hkept : ∀ x ∈ s.used, c.vol.file.block x = s.vol.file.block x := fun x hx =>
    hc.block_ne (by have := h.sound.pos hx; omega)
  have hroot : s.root s.writes.length = uw.newMetadataOffset 0 := by simp only [Driver.root, rootAt, hu]
  cases hp : c.vol.pendingBlocks (4096 * b) with
  | some d =>
    have hs := hc.pending_some hp
    calc readAligned c.vol (4096 * b) = readAligned s.vol (4096 * b) := by
          rw [readAligned, readAligned, hp, hs]
          exact congrArg Block.asBytes (hkept d (h.pending.used h.sound hb hs))
      _ = (s.leaf s.writes.length b).data := h.pending.readAligned_eq hb hs
  | none =>
    rw [readAligned_none _ _ hp, hc.root, ← hroot]
    exact leafData_frame (fun x hx => hkept x (used_live h.sound.le le_rfl hx)) b hb

/-! ## The commits -/

/-- commits leave the newest version alone -/
theorem commits_layered {s : Driver} (h : Layered s) (m : ℕ) :
    let t := run Driver.step s (List.replicate m .commit)
    Layered t ∧ t.writes = s.writes ∧ t.committed = min (s.committed + m) s.writes.length ∧
      ∀ b < 67108864, t.leaf s.writes.length b = s.leaf s.writes.length b := by
  induction m with
  | zero => exact ⟨h, rfl, by simp [h.sound.le], fun _ _ => rfl⟩
  | succ m ih =>
    simp only [List.replicate_succ', run_snoc]
    set t := run Driver.step s (List.replicate m .commit)
    obtain ⟨ht, hw, hc, hl⟩ := ih
    rcases step_commit ht.sound with ⟨hdone, e⟩ | ⟨w, uw, c, hs⟩
    · rw [e]
      rw [hw] at hdone
      exact ⟨ht, hw, by omega, hl⟩
    · have hlt := hs.lt
      rw [hw] at hlt
      refine ⟨layered_committed ht hs, by rw [hs.writes, hw], by rw [hs.committed]; omega, fun b hb => ?_⟩
      rw [leaves_committed ht.sound hs _ hlt (by rw [hw]) b hb]
      exact hl b hb

/-- when all is committed `read_aligned` returns the block of the newest version -/
theorem readAligned_commitAll {s : Driver} (h : Layered s) {b : ℕ} (hb : b < 67108864) :
    readAligned s.commitAll.vol (4096 * b) = (s.leaf s.writes.length b).data := by
  obtain ⟨ht, hw, hc, hl⟩ := commits_layered h (s.writes.length - s.committed)
  have hle := h.sound.le
  have hdone : s.commitAll.committed = s.commitAll.writes.length := by
    rw [Driver.commitAll, hc, hw]
    omega
  have hu : ¬ Uncommitted s.commitAll b := by
    intro hu
    obtain ⟨w, hw, -⟩ := hu
    rw [hdone, List.drop_length] at hw
    cases hw
  rw [Driver.commitAll] at hu ⊢
  rw [ht.readAligned_eq hb fun h => absurd h hu, hw, hl b hb]

/-! ## The frame -/

/-- outside its 4096 bytes a write keeps what `read_aligned` returned before it -/
theorem leaf_kept {s : Driver} {off : ℤ} {buf : Buf} {junk : ℕ → ℤ} (h : Layered s) (ho : InRange off)
    (hj : JunkUnused s (.write buf off junk)) {b i : ℕ} (hb : b < 67108864)
    (hk : Uncommitted s b → s.vol.pendingBlocks (4096 * b) ≠ none) (hi : i < 4096)
    (hout : 4096 * (b : ℤ) + i < off ∨ off + 4096 ≤ 4096 * (b : ℤ) + i) :
    ((s.step (.write buf off junk)).leaf (s.writes.length + 1) b).data i = readAligned s.vol (4096 * b) i := by
  have hd := data_written h.sound ho hj
  obtain ⟨hoff, hr, -, hb1⟩ := inRange_parts ho
  by_cases hT : Touches b (off, buf)
  · rcases (touches_iff ho buf b).1 hT with rfl | ⟨hr0, rfl⟩
    · rw [hd.fst, fillFrom, if_neg (by omega)]
    · obtain ⟨old, e, hold⟩ := hd.snd hr0
      rw [e, fillUpTo, if_neg (by omega), hold fun d hp => h.pending.used h.sound hb hp]
  · rw [(leaves_written h.sound ho hj).other b hb hT, h.readAligned_eq hb hk]

/-- **A write touches its own bytes only.** In every state of an in-order run on an opened volume, for all offsets in the
volume without a common byte: the write at one and its commit, at once or in order, leave what `read` returns at the
other as it was. -/
theorem write_frame (f : File) (start : ℤ) (o : Opening) (es : List Op) (hf : o = .openVolume → VolumeFile f)
    (hc : CounterOk f o) (hj : Meets Driver.step JunkUnused (Driver.open start (o.call f)) es) (junk : ℕ → ℤ) (buf : Buf)
    (o₁ o₂ : UInt64) (h₁ : InVolume o₁) (h₂ : InVolume o₂) (hd : NoCommonByte o₁ o₂) :
    let s := run Driver.step (Driver.open start (o.call f)) es
    JunkUnused s (.write buf (requestOffset o₁) junk) → ReadKept s (requestOffset o₂) →
      LeavesAlone s.vol s.next junk buf o₁ o₂ ∧ ∀ p < blockSize,
        read (s.step (.write buf (requestOffset o₁) junk)).commitAll.vol (requestOffset o₂) p =
          read s.vol (requestOffset o₂) p := by
  intro s hjw hk
  have h : Layered s :=
    run_inv_of_meets Driver.step JunkUnused Layered step_layered _ es (layered_opened f start o hf hc) hj
  have ho₁ := h₁.inRange
  have ho₂ := h₂.inRange
  have h' := layered_written h ho₁ hjw
  have hs := step_write (s := s) ho₁ buf junk
  have hlen : (s.step (.write buf (requestOffset o₁) junk)).writes.length = s.writes.length + 1 := by
    rw [hs.writes]
    simp
  -- a volume that shows the newest version shows the bytes that were there
  have hframe : ∀ v : Volume, (∀ b < 67108864, readAligned v (4096 * (b : ℕ)) =
      ((s.step (.write buf (requestOffset o₁) junk)).leaf (s.writes.length + 1) b).data) →
      ∀ p < blockSize, read v (requestOffset o₂) p = read s.vol (requestOffset o₂) p := by
    intro v hv p hp
    obtain ⟨b, i, hb, hi, hpos, hblock, hread⟩ := read_byte ho₂ hp
    rw [hread, hread, hv b hb]
    refine leaf_kept h ho₁ hjw hb (hk.block hblock) hi ?_
    rw [← hpos, requestOffset_eq h₁, requestOffset_eq h₂]
    simp only [NoCommonByte, blockSize_eq] at hd hp
    omega
  constructor
  · obtain ⟨-, uw, d, n, g, hw⟩ := write_step h.sound ho₁ buf junk (supplied_true s _)
    have hnext : (s.step (.write buf (requestOffset o₁) junk)).start +
        (s.step (.write buf (requestOffset o₁) junk)).writes.length = s.next := by
      rw [hs.start, hlen, Driver.next]
      push_cast
      ring
    have hu : (s.step (.write buf (requestOffset o₁) junk)).vol.uncommittedWrites s.next = some uw := by
      rw [hs.vol, hw.unc]
      exact if_pos rfl
    obtain ⟨c, hcommit, hok⟩ := commit_ok hu hw.oneRoot (requestOffset o₁)
    rw [← hnext] at hu hok
    refine ⟨c, by rw [← hs.vol]; exact hcommit, hframe c.vol fun b hb => ?_⟩
    rw [readAligned_commit h' hu hok hb, hlen]
  · refine hframe _ fun b hb => ?_
    rw [readAligned_commitAll h' hb, hlen]

/-- two writes that share their middle block, the first one on top of an uncommitted write -/
theorem write_frame_unaligned :
    let s := Driver.new.step secondOp
    LeavesAlone s.vol s.next (fun _ => 0) (fun _ => 7) 100 4196 ∧ ∀ p < blockSize,
      read (s.step (.write (fun _ => 7) (requestOffset 100) fun _ => 0)).commitAll.vol (requestOffset 4196) p =
        read s.vol (requestOffset 4196) p :=
  write_frame File.new 0 .initVolume [secondOp] (fun h => by cases h) (by simp [CounterOk, File.new])
    ⟨junkUnused_secondOp _, trivial⟩ (fun _ => 0) (fun _ => 7) 100 4196 (by decide) (by decide)
    (by decide) (junkUnused_firstOp _) ⟨by decide +kernel, by decide +kernel⟩

/-- **Past the end.** On a new volume a write of ones at 2^38, after its commit, is read at offset 0. -/
theorem write_past_end : ¬ ∀ o₁ o₂, NoCommonByte o₁ o₂ →
    LeavesAlone Driver.new.vol Driver.new.next (fun _ => 0) (fun _ => 1) o₁ o₂ := by
  intro h
  obtain ⟨c, hc, hread⟩ := h 274877906944 0 (by decide)
  have hbefore : read Driver.new.vol (requestOffset 0) 0 = 0 := by decide +kernel
  have hafter : (commit Driver.new.next (requestOffset 274877906944) (write (fun _ => 0) (fun _ => 1)
      (requestOffset 274877906944) Driver.new.next Driver.new.vol).vol).map (fun c => read c.vol (requestOffset 0) 0) =
      some 1 := by decide +kernel
  rw [hc, Option.map_some, hread 0 (by decide), hbefore] at hafter
  exact absurd hafter (by decide)

end ChainedBlockStorage.Storage
