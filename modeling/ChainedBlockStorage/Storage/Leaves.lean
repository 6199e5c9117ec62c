/-
The leaves of the versions, one by one.

A leaf is the number of a data block, its data and its `last_updated`. A write gives its blocks new leaves with its own
number and data and leaves all others alone; a commit changes none.

- `leaves_written`, `leaves_committed`: the leaves after one step.
- `KeepsOthers`: a version differs from the one before it in the blocks of its write only.
- `readSequenceNumber_eq`: `read_sequence_number` returns what the write put there, until it is committed.
-/
import ChainedBlockStorage.Core.Positions
import ChainedBlockStorage.Storage.Overlay

namespace ChainedBlockStorage.Storage

open Crash Positions Radix Run

/-! ## Leaves -/

structure Leaf where
  num : ℤ
  data : Buf
  updated : ℤ

/-- block `b` in the tree under `root` -/
def leafAt (f : File) (root : ℤ) (b : ℕ) : Leaf :=
  ⟨node volShape (child f) root 3 b, leafData f root b, leafUpdated f root b⟩

theorem leafAt_data (f : File) (root : ℤ) (b : ℕ) :
    (leafAt f root b).data = if (leafAt f root b).num = 0 then fun _ => 0 else (f.block (leafAt f root b).num).asBytes :=
  rfl

theorem leafAt_frame {f g : File} {root : ℤ} (h : ∀ x, Reach volShape (child f) root x → g.block x = f.block x) (b : ℕ)
    (hb : b < 67108864) : leafAt g root b = leafAt f root b := by
  unfold leafAt
  rw [node_frame h 3 b le_rfl hb, leafData_frame h b hb, leafUpdated_frame h b hb]

/-- block `b` in version `k` -/
def Driver.leaf (s : Driver) (k b : ℕ) : Leaf := leafAt s.vol.file (s.root k) b

theorem leaf_data (s : Driver) (k b : ℕ) :
    (s.leaf k b).data = if (s.leaf k b).num = 0 then fun _ => 0 else (s.vol.file.block (s.leaf k b).num).asBytes :=
  leafAt_data _ _ _

/-- a block of a version is in use -/
theorem leaf_used {s : Driver} {k b : ℕ} (hc : s.committed ≤ k) (hk : k ≤ s.writes.length) (hb : b < 67108864)
    (h0 : (s.leaf k b).num ≠ 0) : (s.leaf k b).num ∈ s.used :=
  used_live hc hk ⟨h0, 3, le_rfl, b, hb, rfl⟩

/-- `read_aligned` of a pending block -/
theorem readAligned_pending {s : Driver} {k b : ℕ} (h0 : (s.leaf k b).num ≠ 0)
    (hp : s.vol.pendingBlocks (4096 * b) = some (s.leaf k b).num) :
    readAligned s.vol (4096 * b) = (s.leaf k b).data := by
  rw [readAligned, hp, leaf_data, if_neg h0]

/-- and of a block that is not pending -/
theorem readAligned_committed {s : Driver} (h : Sound True s) {b : ℕ} (hp : s.vol.pendingBlocks (4096 * b) = none) :
    readAligned s.vol (4096 * b) = (s.leaf s.committed b).data := by
  rw [readAligned_none _ _ hp, ← h.root_committed]
  rfl

/-- the leaves after write `s.next` at `off` -/
structure LeavesWritten (s s' : Driver) (off : ℤ) (buf : Buf) : Prop where
  old : ∀ k, s.committed ≤ k → k ≤ s.writes.length → ∀ b < 67108864, s'.leaf k b = s.leaf k b
  other : ∀ b < 67108864, ¬ Touches b (off, buf) → s'.leaf (s.writes.length + 1) b = s.leaf s.writes.length b
  found : ∀ b < 67108864, Touches b (off, buf) → (s'.leaf (s.writes.length + 1) b).num ≠ 0
  updated : ∀ b < 67108864, Touches b (off, buf) → (s'.leaf (s.writes.length + 1) b).updated = s.next
  own : ∀ b : ℕ, b < 67108864 → ∀ i : ℕ, i < 4096 → off ≤ 4096 * (b : ℤ) + i → 4096 * (b : ℤ) + i < off + 4096 →
    (s'.leaf (s.writes.length + 1) b).data i = buf (4096 * (b : ℤ) + i - off).toNat
  aligned : remOf off = 0 → (s'.leaf (s.writes.length + 1) (blockOf off)).data = buf

theorem touches_iff {off : ℤ} (ho : InRange off) (buf : Buf) (b : ℕ) :
    Touches b (off, buf) ↔ b = blockOf off ∨ remOf off ≠ 0 ∧ b = blockOf off + 1 := by
  obtain ⟨hoff, hr, -, -⟩ := inRange_parts ho
  unfold Touches
  simp only
  omega

/-- the leaves of the new version, read where no block is lost -/
theorem leaf_written {s s' : Driver} {off : ℤ} {buf : Buf} {J : Set ℤ} {out : Call} {uw : UncommittedWrite} {d : ℕ → ℤ}
    {n : ℕ → ℤ × ℤ} {g : File} (h : Sound True s) (hs : Written s s' off buf out)
    (hw : WriteOk True s.used J s.vol (blockOf off) (remOf off) buf s.next out uw d n g)
    (hj : ∀ x ∈ J, x ≠ 0 ∧ ¬ s.vol.Holds x ∧ x ∉ out.nums) (b : ℕ) (hb : b < 67108864) :
    s'.leaf (s.writes.length + 1) b = leafAt g (uw.newMetadataOffset 0) b := by
  rw [Driver.leaf, (root_written hs hw _).1, if_pos rfl, hs.vol]
  exact leafAt_frame (new_tree_kept h hw hj) b hb

/-- the data of a write: its bytes over what is read there -/
structure DataWritten (s s' : Driver) (off : ℤ) (buf : Buf) : Prop where
  fst : (s'.leaf (s.writes.length + 1) (blockOf off)).data =
    fillFrom (remOf off) (readAligned s.vol (4096 * blockOf off)) buf
  snd : remOf off ≠ 0 → ∃ old, (s'.leaf (s.writes.length + 1) (blockOf off + 1)).data = fillUpTo (remOf off) old buf ∧
    ((∀ e, s.vol.pendingBlocks (4096 * (blockOf off + 1 : ℕ)) = some e → e ∈ s.used) →
      old = readAligned s.vol (4096 * (blockOf off + 1 : ℕ)))

theorem data_written {s : Driver} {off : ℤ} {buf : Buf} {junk : ℕ → ℤ} (h : Sound True s) (ho : InRange off)
    (hj : JunkUnused s (.write buf off junk)) : DataWritten s (s.step (.write buf off junk)) off buf := by
  obtain ⟨hs, uw, d, n, g, hw⟩ := write_step h ho buf junk (supplied_true s _)
  have hleaf := leaf_written h hs hw (hj ho)
  obtain ⟨-, -, hb0, hb1⟩ := inRange_parts ho
  have hd : ∀ i, Own (blockOf off) (remOf off) i 3 → d i ∉ s.used ∧ d i ≠ 0 := fun i hi => by
    obtain ⟨hpos, hnew⟩ := nums_new hw (hw.nums.mem 3 le_rfl i hi)
    change 1 ≤ d i at hpos
    exact ⟨hnew, by omega⟩
  have hnum : ∀ b < 67108864, (leafAt g (uw.newMetadataOffset 0) b).num = if b = blockOf off then d 0
      else if remOf off ≠ 0 ∧ b = blockOf off + 1 then d 1 else (s.leaf s.writes.length b).num := new_leaf hw
  constructor
  · calc ((s.step (.write buf off junk)).leaf (s.writes.length + 1) (blockOf off)).data = (g.block (d 0)).asBytes := by
          rw [hleaf _ hb0, leafAt_data, hnum _ hb0, if_pos rfl, if_neg (hd 0 (Or.inl rfl)).2]
      _ = fillFrom (remOf off) (readAligned s.vol (4096 * blockOf off)) buf := by rw [hw.fst_data, asBytes_bytes]
  · intro hr
    obtain ⟨v, hfirst, hfile, hpend, hblk⟩ := hw.snd_data hr
    refine ⟨readAligned v (4096 * (blockOf off + 1 : ℕ)), ?_, fun hused => ?_⟩
    · have hne : ¬ blockOf off + 1 = blockOf off := by omega
      have hsnd : remOf off ≠ 0 ∧ blockOf off + 1 = blockOf off + 1 := ⟨hr, rfl⟩
      calc ((s.step (.write buf off junk)).leaf (s.writes.length + 1) (blockOf off + 1)).data
          = (g.block (d 1)).asBytes := by
            rw [hleaf _ (hb1 hr), leafAt_data, hnum _ (hb1 hr), if_neg hne, if_pos hsnd,
              if_neg (hd 1 (Or.inr ⟨rfl, hr, by simp⟩)).2]
        _ = fillUpTo (remOf off) (readAligned v (4096 * (blockOf off + 1 : ℕ))) buf := by
            rw [hblk, asBytes_bytes]
            push_cast
            rfl
    · have hkeep : ∀ x ∈ s.used, v.file.block x = s.vol.file.block x := fun x hx =>
        hfile x fun e => (hd 0 (Or.inl rfl)).1 (e ▸ hx)
      have hpend' : v.pendingBlocks (4096 * (blockOf off + 1 : ℕ)) = s.vol.pendingBlocks (4096 * (blockOf off + 1 : ℕ)) := by
        push_cast
        exact hpend
      cases hp : s.vol.pendingBlocks (4096 * (blockOf off + 1 : ℕ)) with
      | some e =>
        unfold readAligned
        rw [hpend', hp]
        exact congrArg Block.asBytes (hkeep e (hused e hp))
      | none =>
        rw [readAligned_none _ _ (hpend'.trans hp), readAligned_none _ _ hp, hfirst]
        exact leafData_frame (fun x hx => hkeep x (h.holds_used (Or.inl hx))) _ (hb1 hr)

theorem leaves_written {s : Driver} {off : ℤ} {buf : Buf} {junk : ℕ → ℤ} (h : Sound True s) (ho : InRange off)
    (hj : JunkUnused s (.write buf off junk)) : LeavesWritten s (s.step (.write buf off junk)) off buf := by
  obtain ⟨hs, uw, d, n, g, hw, hstamp⟩ := write_step_stamped h ho buf junk (supplied_true s _)
  set s' := s.step (.write buf off junk)
  obtain ⟨hoff, hr, hb0, hb1⟩ := inRange_parts ho
  have hj' := hj ho
  have hpos : ∀ i, Own (blockOf off) (remOf off) i 3 → d i ≠ 0 := fun i hi => by
    have := (nums_new hw (hw.nums.mem 3 le_rfl i hi)).1
    change 1 ≤ d i at this
    omega
  have hleaf := leaf_written h hs hw hj'
  have hwritten := data_written h ho hj
  have hnum : ∀ b < 67108864, (leafAt g (uw.newMetadataOffset 0) b).num = if b = blockOf off then d 0
      else if remOf off ≠ 0 ∧ b = blockOf off + 1 then d 1 else (s.leaf s.writes.length b).num := new_leaf hw
  have hupd : ∀ b < 67108864, (leafAt g (uw.newMetadataOffset 0) b).updated =
      if b = blockOf off ∨ remOf off ≠ 0 ∧ b = blockOf off + 1 then s.next else (s.leaf s.writes.length b).updated := by
    intro b hb
    have := hstamp b hb
    rwa [next_root] at this
  constructor
  · intro k hc hk b hb
    rw [Driver.leaf, (root_written hs hw k).1, if_neg (by omega), hs.vol]
    exact leafAt_frame (fun x hx => hw.held_kept h (fun x hJ => (hj' x hJ).2.1) (h.reach_holds hc hk hx)) b hb
  · intro b hb hT
    rw [touches_iff ho] at hT
    push Not at hT
    have h1 : ¬ (remOf off ≠ 0 ∧ b = blockOf off + 1) := fun hc => hT.2 hc.1 hc.2
    have hn : (leafAt g (uw.newMetadataOffset 0) b).num = (s.leaf s.writes.length b).num := by
      rw [hnum b hb, if_neg hT.1, if_neg h1]
    have hu : (leafAt g (uw.newMetadataOffset 0) b).updated = (s.leaf s.writes.length b).updated := by
      rw [hupd b hb, if_neg (not_or.2 ⟨hT.1, h1⟩)]
    have hd : (leafAt g (uw.newMetadataOffset 0) b).data = (s.leaf s.writes.length b).data := by
      rw [leafAt_data, hn, leaf_data]
      split
      · rfl
      · next hne =>
        have hreach : Reach volShape (child s.vol.file) (s.root s.writes.length) (s.leaf s.writes.length b).num :=
          ⟨hne, 3, le_rfl, b, hb, rfl⟩
        rw [hw.kept _ fun hm => (nums_new hw hm).2 (used_live h.le le_rfl hreach)]
    rw [hleaf b hb]
    cases hx : leafAt g (uw.newMetadataOffset 0) b
    cases hy : s.leaf s.writes.length b
    rw [hx, hy] at hn hu hd
    simp only at hn hu hd
    rw [hn, hu, hd]
  · intro b hb hT
    rw [hleaf b hb, hnum b hb]
    rcases (touches_iff ho buf b).1 hT with rfl | ⟨hr0, rfl⟩
    · rw [if_pos rfl]
      exact hpos 0 (Or.inl rfl)
    · rw [if_neg (by omega), if_pos ⟨hr0, rfl⟩]
      exact hpos 1 (Or.inr ⟨rfl, hr0, by simp⟩)
  · intro b hb hT
    rw [hleaf b hb, hupd b hb, if_pos ((touches_iff ho buf b).1 hT)]
  · intro b hb i hi hlo hhi
    have hT : Touches b (off, buf) := by
      unfold Touches
      simp only
      omega
    rcases (touches_iff ho buf b).1 hT with rfl | ⟨hr0, rfl⟩
    · rw [hwritten.fst, fillFrom, if_pos (by omega)]
      congr 1
      omega
    · obtain ⟨old, e, -⟩ := hwritten.snd hr0
      rw [e, fillUpTo, if_pos (by omega)]
      congr 1
      simp only [blockSize_eq]
      omega
  · intro hr0
    rw [hwritten.fst, hr0, fillFrom_zero]

theorem leaves_committed {s s' : Driver} {w : ℤ × Buf} {uw : UncommittedWrite} {c : Call} (h : Sound True s)
    (hs : Committed s s' w uw c) (k : ℕ) (hc : s.committed + 1 ≤ k) (hk : k ≤ s.writes.length) (b : ℕ)
    (hb : b < 67108864) : s'.leaf k b = s.leaf k b := by
  rw [Driver.leaf, (root_committed h hs k hc hk).1]
  exact leafAt_frame (fun x hx => hs.block_used h (used_live (by omega) hk hx)) b hb

/-! ## One version and the next -/

/-- a version has the leaves of the one before it, but for the blocks of its write -/
def KeepsOthers (s : Driver) : Prop :=
  ∀ k, s.committed ≤ k → ∀ w, s.writes[k]? = some w → ∀ b < 67108864, ¬ Touches b w → s.leaf (k + 1) b = s.leaf k b

theorem keepsOthers_written {s : Driver} {off : ℤ} {buf : Buf} {junk : ℕ → ℤ} (h : Sound True s) (hs : KeepsOthers s)
    (ho : InRange off) (hj : JunkUnused s (.write buf off junk)) : KeepsOthers (s.step (.write buf off junk)) := by
  have hl := leaves_written h ho hj
  have hw := step_write (s := s) ho buf junk
  intro k hc w hget b hb hT
  rw [hw.committed] at hc
  rw [hw.writes] at hget
  rcases getElem?_of_concat_lt hget with ⟨hget, hk⟩ | ⟨rfl, rfl⟩
  · rw [hl.old (k + 1) (by omega) (by omega) b hb, hl.old k hc (by omega) b hb]
    exact hs k hc w hget b hb hT
  · rw [hl.other b hb hT, hl.old _ hc le_rfl b hb]

theorem keepsOthers_committed {s s' : Driver} {w : ℤ × Buf} {uw : UncommittedWrite} {c : Call} (h : Sound True s)
    (hs : KeepsOthers s) (hc : Committed s s' w uw c) : KeepsOthers s' := by
  intro k hk x hx b hb hT
  rw [hc.committed] at hk
  rw [hc.writes] at hx
  have hlt := (List.getElem?_eq_some_iff.1 hx).1
  rw [leaves_committed h hc (k + 1) (by omega) hlt b hb, leaves_committed h hc k hk hlt.le b hb]
  exact hs k (by omega) x hx b hb hT

/-- a leaf stays as long as nothing is written there -/
theorem KeepsOthers.leaf_eq {s : Driver} (h : KeepsOthers s) {b m n : ℕ} (hb : b < 67108864) (hm : s.committed ≤ m)
    (hmn : m ≤ n) (hn : n ≤ s.writes.length)
    (hT : ∀ j, m ≤ j → j < n → ∀ w, s.writes[j]? = some w → ¬ Touches b w) : s.leaf n b = s.leaf m b := by
  induction n, hmn using Nat.le_induction with
  | base => rfl
  | succ n hmn ih =>
    have hw : s.writes[n]? = some s.writes[n] := List.getElem?_eq_getElem hn
    calc s.leaf (n + 1) b = s.leaf n b := h n (hm.trans hmn) _ hw b hb (hT n hmn (Nat.lt_succ_self n) _ hw)
      _ = s.leaf m b := ih (Nat.le_of_succ_le hn) fun j hj hjn => hT j hj (Nat.lt_succ_of_lt hjn)

/-- a block of no uncommitted write is the same in all versions -/
theorem KeepsOthers.leaf_newest {s : Driver} (h : KeepsOthers s) (hs : Sound True s) {b : ℕ} (hb : b < 67108864)
    (hu : ¬ Uncommitted s b) : s.leaf s.writes.length b = s.leaf s.committed b := by
  refine h.leaf_eq hb le_rfl hs.le le_rfl fun j hj _ w hw hT => hu ⟨w, ?_, hT⟩
  rw [List.mem_iff_getElem?]
  exact ⟨j - s.committed, by rw [List.getElem?_drop, Nat.add_sub_cancel' hj, hw]⟩

/-! ## Reading an uncommitted write back -/

/-- the data block that `read_sequence_number` walks to from root `root` -/
def uncommittedBlock (f : File) (root offset : ℤ) : Buf :=
  let mdb := f.block root
  let mdb := f.block (mdb.asWords (getSecondLevel offset))
  let mdb := f.block (mdb.asWords (getThirdLevel offset))
  (f.block (mdb.fileBlockNum (getLastLevel offset))).asBytes

/-- `none` stands for `false`: the write is not in the uncommitted list -/
def readSequenceNumber (v : Volume) (seqNum volumeOffset : ℤ) : Option Buf :=
  match v.uncommittedWrites seqNum with
  | none => none
  | some uw =>
    let remainder := volumeOffset.tmod blockSize
    if remainder ≠ 0 then
      let offset := volumeOffset - remainder
      let r := remainder.toNat
      some fun p => if p < blockSize - r then uncommittedBlock v.file (uw.newMetadataOffset 0) offset (r + p)
        else uncommittedBlock v.file (uw.newMetadataOffset 1) (offset + blockSize) (p - (blockSize - r))
    else some (uncommittedBlock v.file (uw.newMetadataOffset 0) volumeOffset)

/-- where the tree has the block, the walk meets no null pointer -/
theorem uncommittedBlock_eq (f : File) (root : ℤ) (b : ℕ) (h : (leafAt f root b).num ≠ 0) :
    uncommittedBlock f root (4096 * b) = (leafAt f root b).data := by
  have hchild : ∀ j (x : ℤ) i, child f j x i ≠ 0 → x ≠ 0 ∧ child f j x i = (f.block x).asWords (slot j i) := by
    intro j x i hx
    by_cases h0 : x = 0
    · exact absurd (by rw [h0]; exact child_zero f j i) hx
    · exact ⟨h0, by rw [child, if_neg h0]⟩
  obtain ⟨h2, e2⟩ := hchild 2 (node volShape (child f) root 2 (b / 256)) (b % 256) h
  obtain ⟨h1, e1⟩ := hchild 1 (node volShape (child f) root 1 (b / 256 / 512)) (b / 256 % 512) h2
  obtain ⟨-, e0⟩ := hchild 0 root (b / 256 / 512 % 512) h1
  have n1 : (f.block root).asWords (b / 256 / 512 % 512) = node volShape (child f) root 1 (b / 256 / 512) := e0.symm
  have n2 : (f.block (node volShape (child f) root 1 (b / 256 / 512))).asWords (b / 256 % 512) =
      node volShape (child f) root 2 (b / 256) := e1.symm
  have n3 : (f.block (node volShape (child f) root 2 (b / 256))).fileBlockNum (b % 256) =
      node volShape (child f) root 3 b := e2.symm
  simp only [uncommittedBlock, getSecondLevel_block, getThirdLevel_block, getLastLevel_block, n1, n2, n3]
  exact (if_neg h).symm

/-- every uncommitted version holds the write that made it -/
structure OwnWrites (s : Driver) : Prop where
  sound : Sound True s
  inRange : ∀ w ∈ s.writes, InRange w.1
  found : ∀ k, s.committed ≤ k → ∀ w, s.writes[k]? = some w → ∀ b < 67108864, Touches b w → (s.leaf (k + 1) b).num ≠ 0
  own : ∀ k, s.committed ≤ k → ∀ w, s.writes[k]? = some w → ∀ b : ℕ, b < 67108864 → ∀ i : ℕ, i < 4096 →
    w.1 ≤ 4096 * (b : ℤ) + i → 4096 * (b : ℤ) + i < w.1 + 4096 →
    (s.leaf (k + 1) b).data i = w.2 (4096 * (b : ℤ) + i - w.1).toNat

theorem ownWrites_written {s : Driver} {off : ℤ} {buf : Buf} {junk : ℕ → ℤ} (h : OwnWrites s) (ho : InRange off)
    (hj : JunkUnused s (.write buf off junk)) : OwnWrites (s.step (.write buf off junk)) := by
  have hl := leaves_written h.sound ho hj
  have hs := step_write (s := s) ho buf junk
  have hsound := step_sound s _ h.sound (supplied_true s (.write buf off junk))
  set s' := s.step (.write buf off junk)
  -- a write is an older one, in an older version, or the new one
  have hget : ∀ k w, s'.writes[k]? = some w → s.writes[k]? = some w ∧ k < s.writes.length ∨
      k = s.writes.length ∧ w = (off, buf) := by
    intro k w hw
    rw [hs.writes] at hw
    exact getElem?_of_concat_lt hw
  refine ⟨hsound, fun w hw => ?_, ?_, ?_⟩
  · rw [hs.writes] at hw
    rcases List.mem_append.1 hw with hw | hw
    · exact h.inRange w hw
    · rw [List.mem_singleton.1 hw]
      exact ho
  · intro k hc w hw b hb hT
    rw [hs.committed] at hc
    rcases hget k w hw with ⟨hw, hk⟩ | ⟨rfl, rfl⟩
    · rw [hl.old (k + 1) (by omega) (by omega) b hb]
      exact h.found k hc w hw b hb hT
    · exact hl.found b hb hT
  · intro k hc w hw b hb i hi hlo hhi
    rw [hs.committed] at hc
    rcases hget k w hw with ⟨hw, hk⟩ | ⟨rfl, rfl⟩
    · rw [hl.old (k + 1) (by omega) (by omega) b hb]
      exact h.own k hc w hw b hb i hi hlo hhi
    · exact hl.own b hb i hi hlo hhi

theorem ownWrites_committed {s s' : Driver} {w : ℤ × Buf} {uw : UncommittedWrite} {c : Call} (h : OwnWrites s)
    (hs : Committed s s' w uw c) : OwnWrites s' := by
  have hleaf : ∀ k, s'.committed ≤ k → ∀ x, s'.writes[k]? = some x →
      s.writes[k]? = some x ∧ ∀ b < 67108864, s'.leaf (k + 1) b = s.leaf (k + 1) b := by
    intro k hc x hx
    rw [hs.committed] at hc
    rw [hs.writes] at hx
    have hk := (List.getElem?_eq_some_iff.1 hx).1
    exact ⟨hx, fun b hb => leaves_committed h.sound hs (k + 1) (by omega) (by omega) b hb⟩
  have hle : s.committed ≤ s'.committed := by rw [hs.committed]; omega
  refine ⟨sound_committed h.sound hs, ?_, ?_, ?_⟩
  · rw [hs.writes]
    exact h.inRange
  · intro k hc x hx b hb hT
    obtain ⟨hx, hl⟩ := hleaf k hc x hx
    rw [hl b hb]
    exact h.found k (by omega) x hx b hb hT
  · intro k hc x hx b hb i hi hlo hhi
    obtain ⟨hx, hl⟩ := hleaf k hc x hx
    rw [hl b hb]
    exact h.own k (by omega) x hx b hb i hi hlo hhi

theorem step_ownWrites (s : Driver) (op : Op) (h : OwnWrites s) (hj : JunkUnused s op) : OwnWrites (s.step op) := by
  refine Driver.step_inv OwnWrites h.sound h op (fun buf off junk e ho => ?_) fun w uw c hs => ownWrites_committed h hs
  subst e
  exact ownWrites_written h ho hj

theorem ownWrites_open {c : Call} {start : ℤ} (h : Sound True (Driver.open start c)) :
    OwnWrites (Driver.open start c) where
  sound := h
  inRange w hw := absurd hw (List.not_mem_nil)
  found k _ w hw := by simp [Driver.open] at hw
  own k _ w hw := by simp [Driver.open] at hw

/-- **Reading back.** Until write `k` is committed `read_sequence_number` returns its buffer. -/
theorem readSequenceNumber_eq {s : Driver} (h : OwnWrites s) {k : ℕ} (hc : s.committed ≤ k) {off : ℤ} {buf : Buf}
    (hw : s.writes[k]? = some (off, buf)) :
    ∃ data, readSequenceNumber s.vol (s.start + k + 1) off = some data ∧ ∀ p < 4096, data p = buf p := by
  have ho : InRange off := h.inRange _ (List.mem_of_getElem? hw)
  have hk := (List.getElem?_eq_some_iff.1 hw).1
  obtain ⟨uw, hu, hroot, -⟩ := h.sound.uncommitted (k := k + 1) (by omega) (by omega)
  have hu' : s.vol.uncommittedWrites (s.start + k + 1) = some uw := by rw [← hu]; congr 1; push_cast; ring
  have hone := h.sound.oneRoot _ uw hu'
  obtain ⟨hoff, hr, hb0, hb1⟩ := inRange_parts ho
  have htmod := inRange_tmod ho
  -- a byte of the write, in the block where it lies
  have hbyte : ∀ b < 67108864, Touches b (off, buf) → ∀ i : ℕ, i < 4096 → off ≤ 4096 * (b : ℤ) + i →
      4096 * (b : ℤ) + i < off + 4096 →
      uncommittedBlock s.vol.file (s.root (k + 1)) (4096 * b) i = buf (4096 * (b : ℤ) + i - off).toNat := by
    intro b hb hT i hi hlo hhi
    rw [uncommittedBlock_eq _ _ b (h.found k hc _ hw b hb hT)]
    exact h.own k hc _ hw b hb i hi hlo hhi
  have hT0 : Touches (blockOf off) (off, buf) := (touches_iff ho buf _).2 (Or.inl rfl)
  by_cases hr0 : remOf off = 0
  · refine ⟨uncommittedBlock s.vol.file (s.root (k + 1)) (4096 * blockOf off), ?_, fun p hp => ?_⟩
    · have hoff0 : (4096 * blockOf off : ℤ) = off := by omega
      simp [readSequenceNumber, hu', htmod, hr0, hroot, hoff0]
    · rw [hbyte _ hb0 hT0 p hp (by omega) (by omega)]
      congr 1
      omega
  · have hT1 : Touches (blockOf off + 1) (off, buf) := (touches_iff ho buf _).2 (Or.inr ⟨hr0, rfl⟩)
    refine ⟨fun p =>
      if p < 4096 - remOf off then uncommittedBlock s.vol.file (s.root (k + 1)) (4096 * blockOf off) (remOf off + p)
      else uncommittedBlock s.vol.file (s.root (k + 1)) (4096 * (blockOf off + 1 : ℕ)) (p - (4096 - remOf off)), ?_,
      fun p hp => ?_⟩
    · have hoff0 := inRange_base ho
      have hoff1 := block_next (blockOf off)
      simp only [readSequenceNumber, hu', blockSize_eq, Nat.cast_ofNat, htmod, hoff0, hoff1, hone, hroot, ne_eq,
        Nat.cast_eq_zero, hr0, not_false_eq_true, if_true, Int.toNat_natCast]
    · by_cases hp1 : p < 4096 - remOf off
      · simp only [if_pos hp1]
        rw [hbyte _ hb0 hT0 _ (by omega) (by omega) (by omega)]
        congr 1
        omega
      · simp only [if_neg hp1]
        rw [hbyte _ (hb1 hr0) hT1 _ (by omega) (by omega) (by omega)]
        congr 1
        omega

end ChainedBlockStorage.Storage
