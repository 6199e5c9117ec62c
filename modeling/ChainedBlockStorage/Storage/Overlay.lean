/-
The contents of the volume against its purpose: an array of 2^38 bytes, all zero at first, into which each write
copies its 4096 bytes.

- `Content`, `step_content`: version k of the volume is the overlay of the first k writes, and a pending block is the
  latest version's. An unaligned write preserves this if the two blocks it reads are pending or in no uncommitted write.
- `no_lost_update`: runs whose unaligned writes all find their blocks pending lose nothing.
- `commit_drops_pending`: `commit` erases the pending entry of its block even if a later write has replaced the block,
  and the next unaligned write reads the older, committed data.
-/
import ChainedBlockStorage.Storage.Runs

namespace ChainedBlockStorage.Storage

open Crash Radix Run

/-! ## The abstract volume -/

/-- the contents after a list of writes, oldest first -/
def overlay (ws : List (ℤ × Buf)) : ℤ → UInt8 :=
  ws.foldl (fun img w p => if w.1 ≤ p ∧ p < w.1 + blockSize then w.2 (p - w.1).toNat else img p) fun _ => 0

theorem overlay_snoc (ws : List (ℤ × Buf)) (w : ℤ × Buf) (p : ℤ) :
    overlay (ws ++ [w]) p = if w.1 ≤ p ∧ p < w.1 + 4096 then w.2 (p - w.1).toNat else overlay ws p := by
  rw [overlay, List.foldl_append]
  rfl

/-- a write covers part of block `b` -/
def Touches (b : ℕ) (w : ℤ × Buf) : Prop := w.1 < 4096 * (b + 1) ∧ 4096 * (b : ℤ) < w.1 + 4096

instance (b : ℕ) (w : ℤ × Buf) : Decidable (Touches b w) := inferInstanceAs (Decidable (_ ∧ _))

/-- writes elsewhere do not change a block -/
theorem overlay_append (ws vs : List (ℤ × Buf)) (b : ℕ) (h : ∀ w ∈ vs, ¬ Touches b w) (i : ℕ) (hi : i < 4096) :
    overlay (ws ++ vs) (4096 * b + i) = overlay ws (4096 * b + i) := by
  induction vs using List.reverseRecOn with
  | nil => rw [List.append_nil]
  | append_singleton vs w ih =>
    have hw := h w (by simp)
    unfold Touches at hw
    rw [← List.append_assoc, overlay_snoc, if_neg (by omega)]
    exact ih fun w hw => h w (by simp [hw])

/-- a byte of the committed tree -/
def committedByte (v : Volume) (p : ℤ) : UInt8 := leafData v.file (v.firstBlock.firstLevelBlocks 0) (blockOf p)
    (remOf p)

/-! ## The invariant -/

/-- block `b` lies in a write that is not committed -/
def Uncommitted (s : Driver) (b : ℕ) : Prop := ∃ w ∈ s.writes.drop s.committed, Touches b w

instance (s : Driver) (b : ℕ) : Decidable (Uncommitted s b) := inferInstanceAs (Decidable (∃ w ∈ _, _))

/-- a write adds its own blocks -/
theorem uncommitted_written {s s' : Driver} {off : ℤ} {buf : Buf} {out : Call} (hs : Written s s' off buf out)
    (hle : s.committed ≤ s.writes.length) (b : ℕ) : Uncommitted s' b ↔ Uncommitted s b ∨ Touches b (off, buf) := by
  unfold Uncommitted
  rw [hs.writes, hs.committed, List.drop_append_of_le_length hle]
  simp only [List.mem_append, List.mem_singleton, or_and_right, exists_or, exists_eq_left]

/-- an unaligned write finds both of its blocks pending if an uncommitted write covers them -/
def PendingKept (s : Driver) : Op → Prop
  | .write _ off _ => InRange off → remOf off ≠ 0 →
      (Uncommitted s (blockOf off) → s.vol.pendingBlocks (4096 * blockOf off) ≠ none) ∧
        (Uncommitted s (blockOf off + 1) → s.vol.pendingBlocks (4096 * (blockOf off + 1)) ≠ none)
  | .commit => True

structure Content (s : Driver) : Prop where
  sound : Sound True s
  leaf : ∀ k, s.committed ≤ k → k ≤ s.writes.length → ∀ b < 67108864, ∀ i < 4096,
    leafData s.vol.file (s.root k) b i = overlay (s.writes.take k) (4096 * b + i)
  pending : ∀ b < 67108864, ∀ d, s.vol.pendingBlocks (4096 * (b : ℕ)) = some d →
    d ≠ 0 ∧ d = node volShape (child s.vol.file) (s.root s.writes.length) 3 b

section Read

variable {s : Driver}

/-- **Read for write.** A block that is pending, or in no uncommitted write, is read as the latest version has it, also
while another block has already been written. -/
theorem read_content (h : Content s) (b : ℕ) (hb : b < 67108864)
    (hc : Uncommitted s b → s.vol.pendingBlocks (4096 * b) ≠ none) (v : Volume)
    (hfirst : v.firstBlock = s.vol.firstBlock) (hpend : v.pendingBlocks (4096 * b) = s.vol.pendingBlocks (4096 * b))
    (hfile : ∀ x ∈ s.used, v.file.block x = s.vol.file.block x) (i : ℕ) (hi : i < 4096) :
    readAligned v (4096 * b) i = overlay s.writes (4096 * b + i) := by
  have hle := h.sound.le
  cases hp : s.vol.pendingBlocks (4096 * b) with
  | some d =>
    obtain ⟨hd0, hd⟩ := h.pending b hb d hp
    have hused : d ∈ s.used := used_live hle le_rfl ⟨hd0, 3, le_rfl, b, hb, hd.symm⟩
    calc readAligned v (4096 * b) i = (s.vol.file.block d).asBytes i := by
          rw [readAligned, hpend, hp]
          simp only [hfile d hused]
      _ = leafData s.vol.file (s.root s.writes.length) b i := by rw [leafData, ← hd, if_neg hd0]
      _ = overlay (s.writes.take s.writes.length) (4096 * b + i) := h.leaf _ hle le_rfl b hb i hi
      _ = overlay s.writes (4096 * b + i) := by rw [List.take_length]
  | none =>
    have hframe : leafData v.file (s.vol.firstBlock.firstLevelBlocks 0) b =
        leafData s.vol.file (s.vol.firstBlock.firstLevelBlocks 0) b :=
      leafData_frame (fun x hx => hfile x (h.sound.holds_used (Or.inl hx))) b hb
    -- nothing uncommitted covers the block
    have hnone : ∀ w ∈ s.writes.drop s.committed, ¬ Touches b w := fun w hw ht => hc ⟨w, hw, ht⟩ hp
    calc readAligned v (4096 * b) i = leafData s.vol.file (s.root s.committed) b i := by
          rw [readAligned_none v b (hpend.trans hp), hfirst, hframe, h.sound.root_committed]
      _ = overlay (s.writes.take s.committed) (4096 * b + i) := h.leaf _ le_rfl hle b hb i hi
      _ = overlay s.writes (4096 * b + i) := by
          rw [← overlay_append _ _ b hnone i hi, List.take_append_drop]

end Read

/-! ## One write -/

section Write

variable {s s' : Driver} {off : ℤ} {buf : Buf} {J : Set ℤ} {out : Call} {uw : UncommittedWrite} {d : ℕ → ℤ}
  {n : ℕ → ℤ × ℤ} {g : File}

theorem nums_new (hw : WriteOk True s.used J s.vol (blockOf off) (remOf off) buf s.next out uw d n g) {x : ℤ}
    (hx : x ∈ out.nums) : 1 ≤ x ∧ x ∉ s.used := by
  obtain ⟨a, ha, rfl⟩ := hx
  exact ⟨(hw.got a ha).pos, (hw.got a ha).unused⟩

theorem next_root (s : Driver) : rootAt s.vol (s.next - 1) = s.root s.writes.length := by
  have : s.next - 1 = s.start + s.writes.length := by unfold Driver.next; ring
  rw [this]
  rfl

/-- the first data block -/
theorem fst_data_content (h : Content s) (hr : remOf off < 4096) (hb0 : blockOf off < 67108864)
    (hoff : off = (4096 * blockOf off + remOf off : ℕ))
    (hw : WriteOk True s.used J s.vol (blockOf off) (remOf off) buf s.next out uw d n g)
    (hp : remOf off ≠ 0 → Uncommitted s (blockOf off) → s.vol.pendingBlocks (4096 * blockOf off) ≠ none) (i : ℕ)
    (hi : i < 4096) :
    (g.block (d 0)).asBytes i = overlay (s.writes ++ [(off, buf)]) (4096 * blockOf off + i) := by
  rw [hw.fst_data, asBytes_bytes, overlay_snoc, fillFrom]
  by_cases hri : remOf off ≤ i
  · have hpos : off ≤ 4096 * blockOf off + i ∧ (4096 * blockOf off + i : ℤ) < off + 4096 := by omega
    have hidx : (4096 * blockOf off + i - off : ℤ).toNat = i - remOf off := by omega
    simp only [if_pos hri, if_pos hpos, hidx]
  · have hneg : ¬ (off ≤ 4096 * blockOf off + i ∧ (4096 * blockOf off + i : ℤ) < off + 4096) := by omega
    rw [if_neg hri, if_neg hneg]
    exact read_content h _ hb0 (hp (by omega)) s.vol rfl rfl (fun _ _ => rfl) i hi

/-- the second data block -/
theorem snd_data_content (h : Content s) (hr : remOf off < 4096) (hr0 : remOf off ≠ 0)
    (hb : blockOf off + 1 < 67108864) (hoff : off = (4096 * blockOf off + remOf off : ℕ))
    (hw : WriteOk True s.used J s.vol (blockOf off) (remOf off) buf s.next out uw d n g)
    (hp : Uncommitted s (blockOf off + 1) → s.vol.pendingBlocks (4096 * (blockOf off + 1)) ≠ none) (i : ℕ)
    (hi : i < 4096) :
    (g.block (d 1)).asBytes i = overlay (s.writes ++ [(off, buf)]) (4096 * (blockOf off + 1 : ℕ) + i) := by
  obtain ⟨v, hfirst, hfile, hpend, hblk⟩ := hw.snd_data hr0
  rw [hblk, asBytes_bytes, overlay_snoc, fillUpTo]
  push_cast
  by_cases hri : i < remOf off
  · have hpos : off ≤ 4096 * (blockOf off + 1) + i ∧ (4096 * (blockOf off + 1) + i : ℤ) < off + 4096 := by omega
    have hidx : (4096 * (blockOf off + 1) + i - off : ℤ).toNat = 4096 - remOf off + i := by omega
    simp only [if_pos hri, if_pos hpos, hidx, blockSize_eq]
  · have hneg : ¬ (off ≤ 4096 * (blockOf off + 1) + i ∧ (4096 * (blockOf off + 1) + i : ℤ) < off + 4096) := by omega
    rw [if_neg hri, if_neg hneg]
    have hd0 : d 0 ∈ out.nums := hw.nums.mem 3 le_rfl 0 (Or.inl rfl)
    have hread := read_content h (blockOf off + 1) hb (by push_cast; exact hp) v hfirst (by push_cast; exact hpend)
      (fun x hx => hfile x fun e => (nums_new hw hd0).2 (e ▸ hx)) i hi
    push_cast at hread
    exact hread

/-- the new tree is not hit by an unassigned number -/
theorem new_tree_kept (h : Sound True s)
    (hw : WriteOk True s.used J s.vol (blockOf off) (remOf off) buf s.next out uw d n g)
    (hj : ∀ x ∈ J, x ≠ 0 ∧ ¬ s.vol.Holds x ∧ x ∉ out.nums) (x : ℤ)
    (hx : Reach volShape (child g) (uw.newMetadataOffset 0) x) : out.vol.file.block x = g.block x := by
  apply lostTo_keep hw.lost
  intro hJ
  have hcopy := hw.copy
  rw [next_root] at hcopy
  rcases (reach_of_pathCopy hcopy (freshFor_of_pushOk h.le (hw.pushOk h)) x).1 hx with
    ⟨j, hj', k, hk, hT, e⟩ | ⟨hx0, j, hj', k, hk, -, e⟩
  · exact (hj x hJ).2.2 (e ▸ hw.nums.freshOf_mem hj' hT)
  · exact (hj x hJ).2.1 (h.reach_holds h.le le_rfl ⟨hx0, j, hj', k, hk, e⟩)

/-- the leaf of the new tree: a data block of the write, or the old leaf -/
theorem new_leaf (hw : WriteOk True s.used J s.vol (blockOf off) (remOf off) buf s.next out uw d n g) (b : ℕ)
    (hb : b < 67108864) :
    node volShape (child g) (uw.newMetadataOffset 0) 3 b =
      if b = blockOf off then d 0 else if remOf off ≠ 0 ∧ b = blockOf off + 1 then d 1
      else node volShape (child s.vol.file) (s.root s.writes.length) 3 b := by
  have hcopy := hw.copy
  rw [next_root] at hcopy
  exact copied_leaf hcopy b hb

/-- an untouched block is the old one, and the write does not reach it -/
theorem untouched_content (h : Content s) {b : ℕ} (hb : b < 67108864) (hT : ¬ Touches b (off, buf))
    (hkept : ∀ x ∈ s.used, g.block x = s.vol.file.block x) {i : ℕ} (hi : i < 4096) :
    (if node volShape (child s.vol.file) (s.root s.writes.length) 3 b = 0 then fun _ => 0
      else (g.block (node volShape (child s.vol.file) (s.root s.writes.length) 3 b)).asBytes) i =
      overlay (s.writes ++ [(off, buf)]) (4096 * (b : ℤ) + i) := by
  have hle := h.sound.le
  have hleaf := h.leaf _ hle le_rfl b hb i hi
  rw [List.take_length] at hleaf
  have hnt : ∀ w ∈ [(off, buf)], ¬ Touches b w := fun w hw => by
    rw [List.mem_singleton.1 hw]
    exact hT
  rw [overlay_append _ _ b hnt i hi, ← hleaf, leafData]
  split
  · rfl
  · next hne => rw [hkept _ (used_live hle le_rfl ⟨hne, 3, le_rfl, b, hb, rfl⟩)]

/-- what is pending after the write -/
theorem pending_eq (hs : Written s s' off buf out)
    (hw : WriteOk True s.used J s.vol (blockOf off) (remOf off) buf s.next out uw d n g) (b : ℕ) :
    s'.vol.pendingBlocks (4096 * b) = if remOf off ≠ 0 ∧ b = blockOf off + 1 then some (d 1)
      else if b = blockOf off then some (d 0) else s.vol.pendingBlocks (4096 * b) := by
  have h0 : (4096 * b : ℤ) = 4096 * blockOf off ↔ b = blockOf off := by omega
  have h1 : (4096 * b : ℤ) = 4096 * (blockOf off + 1) ↔ b = blockOf off + 1 := by omega
  rw [hs.vol, hw.pending]
  simp only [h0, h1]

theorem content_written (h : Content s) (ho : InRange off) (hs : Written s s' off buf out)
    (hw : WriteOk True s.used J s.vol (blockOf off) (remOf off) buf s.next out uw d n g)
    (hj : ∀ x ∈ J, x ≠ 0 ∧ ¬ s.vol.Holds x ∧ x ∉ out.nums)
    (hp : remOf off ≠ 0 → (Uncommitted s (blockOf off) → s.vol.pendingBlocks (4096 * blockOf off) ≠ none) ∧
      (Uncommitted s (blockOf off + 1) → s.vol.pendingBlocks (4096 * (blockOf off + 1)) ≠ none)) : Content s' := by
  obtain ⟨hoff, hr, hb0, hb1⟩ := inRange_parts ho
  have hlen : s'.writes.length = s.writes.length + 1 := by rw [hs.writes]; simp
  have hkeep := new_tree_kept h.sound hw hj
  have hpos : ∀ i, Own (blockOf off) (remOf off) i 3 → d i ≠ 0 := fun i hi => by
    have := (nums_new hw (hw.nums.mem 3 le_rfl i hi)).1
    change 1 ≤ d i at this
    omega
  have hroot' : s'.root (s.writes.length + 1) = uw.newMetadataOffset 0 := by
    rw [(root_written hs hw _).1, if_pos rfl]
  have hnode : ∀ b < 67108864, node volShape (child s'.vol.file) (uw.newMetadataOffset 0) 3 b =
      node volShape (child g) (uw.newMetadataOffset 0) 3 b := fun b hb => by
    rw [hs.vol]
    exact node_frame hkeep 3 b le_rfl hb
  constructor
  · exact sound_written h.sound hs hw
  · intro k hc hk b hb i hi
    rw [hs.committed] at hc
    rw [hlen] at hk
    rcases Nat.lt_or_eq_of_le hk with hlt | rfl
    · -- an older version is where it was
      have hrk : s'.root k = s.root k := by rw [(root_written hs hw k).1, if_neg (by omega)]
      have htake : s'.writes.take k = s.writes.take k := by
        rw [hs.writes, List.take_append_of_le_length (by omega)]
      have hframe : leafData s'.vol.file (s.root k) b = leafData s.vol.file (s.root k) b := by
        rw [hs.vol]
        exact leafData_frame (fun x hx => hw.held_kept h.sound (fun x hJ => (hj x hJ).2.1)
          (h.sound.reach_holds hc (by omega) hx)) b hb
      rw [hrk, htake, hframe, h.leaf k hc (by omega) b hb i hi]
    · have htake : s'.writes.take (s.writes.length + 1) = s.writes ++ [(off, buf)] := by
        rw [hs.writes, List.take_of_length_le (by simp)]
      have hframe : leafData s'.vol.file (uw.newMetadataOffset 0) b = leafData g (uw.newMetadataOffset 0) b := by
        rw [hs.vol]
        exact leafData_frame hkeep b hb
      rw [hroot', htake, hframe, leafData, new_leaf hw b hb]
      by_cases h0 : b = blockOf off
      · subst h0
        rw [if_pos rfl, if_neg (hpos 0 (Or.inl rfl))]
        exact fst_data_content h hr hb0 hoff hw (fun hr0 => (hp hr0).1) i hi
      · by_cases h1 : remOf off ≠ 0 ∧ b = blockOf off + 1
        · rw [if_neg h0, if_pos h1, if_neg (hpos 1 (Or.inr ⟨rfl, h1.1, by simp⟩))]
          obtain ⟨hr0, rfl⟩ := h1
          exact snd_data_content h hr hr0 hb hoff hw (hp hr0).2 i hi
        · have hT : ¬ Touches b (off, buf) := by
            unfold Touches
            simp only
            omega
          rw [if_neg h0, if_neg h1]
          exact untouched_content h hb hT (fun x hx => hw.kept x fun hm => (nums_new hw hm).2 hx) hi
  · intro b hb e he
    rw [hlen, hroot', hnode b hb, new_leaf hw b hb]
    rw [pending_eq hs hw] at he
    by_cases h1 : remOf off ≠ 0 ∧ b = blockOf off + 1
    · have h0 : ¬ b = blockOf off := by omega
      rw [if_pos h1, Option.some.injEq] at he
      rw [if_neg h0, if_pos h1]
      exact ⟨he ▸ hpos 1 (Or.inr ⟨rfl, h1.1, by simp⟩), he.symm⟩
    · rw [if_neg h1] at he
      by_cases h0 : b = blockOf off
      · rw [if_pos h0, Option.some.injEq] at he
        rw [if_pos h0]
        exact ⟨he ▸ hpos 0 (Or.inl rfl), he.symm⟩
      · rw [if_neg h0] at he
        rw [if_neg h0, if_neg h1]
        exact h.pending b hb e he

end Write

/-! ## One commit -/

theorem content_committed {s s' : Driver} {w : ℤ × Buf} {uw : UncommittedWrite} {c : Call} (h : Content s)
    (hs : Committed s s' w uw c) : Content s' := by
  have htree : ∀ k, s.committed ≤ k → k ≤ s.writes.length → ∀ x,
      Reach volShape (child s.vol.file) (s.root k) x → s'.vol.file.block x = s.vol.file.block x :=
    fun k hc hk x hx => hs.block_used h.sound (used_live hc hk hx)
  constructor
  · exact sound_committed h.sound hs
  · intro k hc hk b hb i hi
    rw [hs.committed] at hc
    rw [hs.writes] at hk
    rw [(root_committed h.sound hs k hc hk).1, hs.writes, leafData_frame (htree k (by omega) hk) b hb]
    exact h.leaf k (by omega) hk b hb i hi
  · intro b hb e he
    have hlt := hs.lt
    rw [hs.vol] at he
    rw [hs.writes, (root_committed h.sound hs _ hlt le_rfl).1, node_frame (htree _ h.sound.le le_rfl) 3 b le_rfl hb]
    exact h.pending b hb e (hs.ok.pending_some he)

theorem step_content (s : Driver) (op : Op) (h : Content s) (hc : JunkUnused s op ∧ PendingKept s op) :
    Content (s.step op) := by
  refine Driver.step_inv Content h.sound h op (fun buf off junk e ho => ?_) fun w uw c hs => content_committed h hs
  subst e
  obtain ⟨hs, uw, d, n, g, hw⟩ := write_step h.sound ho buf junk (supplied_true s _)
  exact content_written h ho hs hw (hc.1 ho) (hc.2 ho)

theorem content_new : Content Driver.new where
  sound := sound_new
  leaf := fun k _ hk b hb i hi => by
    have hk0 : k = 0 := Nat.le_zero.1 hk
    subst hk0
    have hroot : Driver.new.root 0 = 0 := rfl
    rw [leafData, hroot, if_pos (node_null _ _ (child_zero _) 3 b)]
    rfl
  pending := fun b _ d hd => by cases hd

/-- **No lost update.** In every run on a new file whose unaligned writes find their blocks pending where an
uncommitted write covers them, the committed tree holds, at every byte and after every commit, the overlay of the
committed writes. -/
theorem no_lost_update (es : List Op)
    (hc : Meets Driver.step (fun s op => JunkUnused s op ∧ PendingKept s op) Driver.new es) (p : ℤ) (hp : 0 ≤ p)
    (hp' : p < volumeSize) :
    committedByte (run Driver.step Driver.new es).vol p =
      overlay ((run Driver.step Driver.new es).writes.take (run Driver.step Driver.new es).committed) p := by
  have h := run_inv_of_meets Driver.step (fun s op => JunkUnused s op ∧ PendingKept s op) Content step_content Driver.new
    es content_new hc
  set s := run Driver.step Driver.new es
  simp only [volumeSize_eq, Nat.cast_ofNat] at hp'
  have hpart : p = 4096 * (blockOf p : ℤ) + remOf p ∧ blockOf p < 67108864 ∧ remOf p < 4096 := by
    unfold blockOf remOf
    omega
  have hleaf := h.leaf s.committed le_rfl h.sound.le (blockOf p) hpart.2.1 (remOf p) hpart.2.2
  rw [h.sound.root_committed, ← hpart.1] at hleaf
  exact hleaf

/-- two overlapping uncommitted writes, the second of them unaligned -/
theorem no_lost_update_overlapping :
    committedByte (run Driver.step Driver.new [secondOp, firstOp, .commit, .commit]).vol 100 =
      overlay ((run Driver.step Driver.new [secondOp, firstOp, .commit, .commit]).writes.take
        (run Driver.step Driver.new [secondOp, firstOp, .commit, .commit]).committed) 100 := by
  refine no_lost_update [secondOp, firstOp, .commit, .commit] ?_ 100 (by decide) (by decide)
  have h2 : PendingKept Driver.new secondOp := fun _ h => absurd (by decide) h
  have h1 : PendingKept (Driver.new.step secondOp) firstOp := fun _ _ => ⟨by decide +kernel, by decide +kernel⟩
  exact ⟨⟨junkUnused_secondOp _, h2⟩, ⟨junkUnused_firstOp _, h1⟩, ⟨trivial, trivial⟩, ⟨trivial, trivial⟩, trivial⟩

/-- writes 1 and 2 fill block 0 with ones and with twos, write 1 is committed, and write 3 starts at byte 100 -/
def lostState : Driver :=
  run Driver.step Driver.new [.write (fun _ => 1) 0 fun _ => 0, .write (fun _ => 2) 0 fun _ => 0, .commit,
    .write (fun _ => 3) 100 fun _ => 0, .commit, .commit]

/-- write 2 is gone from byte 0: write 3 read the block as write 1 had left it -/
theorem commit_drops_pending :
    lostState.committed = 3 ∧ committedByte lostState.vol 0 = 1 ∧
      overlay (lostState.writes.take lostState.committed) 0 = 2 := by decide +kernel

end ChainedBlockStorage.Storage
