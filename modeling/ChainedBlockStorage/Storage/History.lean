/-
What the versions of a new volume say about the writes that made them.

Version k holds a block exactly when one of the first k writes touches it, and its `last_updated` is the number of the
last one that does; a last-level block is there exactly when one of its blocks is. Pending blocks are those of the newest
version, whichever commits have been made.

- `Traced`, `step_traced`: all of this, for every in-order run from `init_volume` on a new file.
- `read_traced`: when everything is committed `read` of an aligned offset returns the block of the committed tree.
- `uncommitted_read_back`: `read_sequence_number` returns what an uncommitted write was given, and nothing else.
-/
import ChainedBlockStorage.Storage.Open
import ChainedBlockStorage.Storage.Modified
import ChainedBlockStorage.Storage.Reads

namespace ChainedBlockStorage.Storage

open Radix Run

/-! ## The last write of a block -/

/-- the last of the first `n` writes that touches block `b`, counted from 1; 0 if none does -/
def lastTouch (ws : List (ℤ × Buf)) (b : ℕ) : ℕ → ℕ
  | 0 => 0
  | n + 1 => if ∃ w ∈ ws[n]?, Touches b w then n + 1 else lastTouch ws b n

/-- writes behind the first `n` do not matter -/
theorem lastTouch_append (ws vs : List (ℤ × Buf)) (b n : ℕ) (hn : n ≤ ws.length) :
    lastTouch (ws ++ vs) b n = lastTouch ws b n := by
  induction n with
  | zero => rfl
  | succ n ih => rw [lastTouch, lastTouch, ih (by omega), List.getElem?_append_left (by omega)]

theorem lastTouch_snoc (ws : List (ℤ × Buf)) (w : ℤ × Buf) (b : ℕ) :
    lastTouch (ws ++ [w]) b (ws.length + 1) = if Touches b w then ws.length + 1 else lastTouch ws b ws.length := by
  rw [lastTouch, lastTouch_append ws [w] b _ le_rfl]
  simp

/-- it is 0 exactly when none touches the block -/
theorem lastTouch_ne_zero (ws : List (ℤ × Buf)) (b n : ℕ) :
    lastTouch ws b n ≠ 0 ↔ ∃ i < n, ∃ w, ws[i]? = some w ∧ Touches b w := by
  induction n with
  | zero => simp [lastTouch]
  | succ n ih =>
    rw [lastTouch]
    split
    · next h =>
      obtain ⟨w, hw, hT⟩ := h
      exact ⟨fun _ => ⟨n, by omega, w, hw, hT⟩, fun _ => by omega⟩
    · next h =>
      rw [ih]
      constructor
      · intro hx
        obtain ⟨i, hi, hw⟩ := hx
        exact ⟨i, by omega, hw⟩
      · intro hx
        obtain ⟨i, hi, w, hw, hT⟩ := hx
        have hne : i ≠ n := fun e => h ⟨w, by rw [← e]; exact hw, hT⟩
        exact ⟨i, by omega, w, hw, hT⟩

/-! ## Pending blocks -/

/-- what a write leaves pending besides its own blocks -/
theorem pending_other {s : Driver} (h : Sound True s) {off : ℤ} (ho : InRange off) (buf : Buf) (junk : ℕ → ℤ) (b : ℕ)
    (hT : ¬ Touches b (off, buf)) :
    (s.step (.write buf off junk)).vol.pendingBlocks (4096 * b) = s.vol.pendingBlocks (4096 * b) := by
  obtain ⟨hs, uw, d, n, g, hw⟩ := write_step h ho buf junk (supplied_true s _)
  rw [touches_iff ho, not_or] at hT
  rw [pending_eq hs hw, if_neg hT.2, if_neg hT.1]

/-- a pending block is that of the newest version -/
def PendingNewest (s : Driver) : Prop :=
  ∀ b < 67108864, ∀ d, s.vol.pendingBlocks (4096 * (b : ℕ)) = some d → d ≠ 0 ∧ d = (s.leaf s.writes.length b).num

theorem pendingNewest_written {s : Driver} {off : ℤ} {buf : Buf} {junk : ℕ → ℤ} (h : Sound True s)
    (hp : PendingNewest s) (ho : InRange off) (hj : JunkUnused s (.write buf off junk)) :
    PendingNewest (s.step (.write buf off junk)) := by
  have hl := leaves_written h ho hj
  have hlen : (s.step (.write buf off junk)).writes.length = s.writes.length + 1 := by
    rw [(step_write (s := s) ho buf junk).writes]
    simp
  intro b hb d hd
  rw [hlen]
  by_cases hT : Touches b (off, buf)
  · rw [pending_written h ho hj b hb hT, Option.some.injEq] at hd
    exact ⟨hd ▸ hl.found b hb hT, hd.symm⟩
  · rw [pending_other h ho buf junk b hT] at hd
    rw [hl.other b hb hT]
    exact hp b hb d hd

theorem pendingNewest_committed {s s' : Driver} {w : ℤ × Buf} {uw : UncommittedWrite} {c : Call} (h : Sound True s)
    (hp : PendingNewest s) (hs : Committed s s' w uw c) : PendingNewest s' := by
  intro b hb d hd
  rw [hs.vol] at hd
  rw [hs.writes, leaves_committed h hs _ hs.lt le_rfl _ hb]
  exact hp b hb d (hs.ok.pending_some hd)

section Newest

variable {s : Driver} {b : ℕ} {d : ℤ}

/-- a pending block is in use -/
theorem PendingNewest.used (hp : PendingNewest s) (h : Sound True s) (hb : b < 67108864)
    (hd : s.vol.pendingBlocks (4096 * b) = some d) : d ∈ s.used := by
  obtain ⟨h0, rfl⟩ := hp b hb d hd
  exact leaf_used h.le le_rfl hb h0

/-- and what is read there is the newest version -/
theorem PendingNewest.readAligned_eq (hp : PendingNewest s) (hb : b < 67108864)
    (hd : s.vol.pendingBlocks (4096 * b) = some d) :
    readAligned s.vol (4096 * b) = (s.leaf s.writes.length b).data := by
  obtain ⟨h0, rfl⟩ := hp b hb d hd
  exact readAligned_pending h0 hd

end Newest

/-! ## The invariant -/

structure Traced (s : Driver) : Prop where
  sound : Sound True s
  num : ∀ k, s.committed ≤ k → k ≤ s.writes.length → ∀ b < 67108864,
    (s.leaf k b).num ≠ 0 ↔ lastTouch s.writes b k ≠ 0
  updated : ∀ k, s.committed ≤ k → k ≤ s.writes.length → ∀ b < 67108864,
    (s.leaf k b).updated = if lastTouch s.writes b k = 0 then 0 else s.start + lastTouch s.writes b k
  group : ∀ k, s.committed ≤ k → k ≤ s.writes.length → ∀ t < 262144,
    node volShape (child s.vol.file) (s.root k) 2 t ≠ 0 → ∃ b, b / 256 = t ∧ lastTouch s.writes b k ≠ 0
  pending : ∀ b < 67108864, ∀ d, s.vol.pendingBlocks (4096 * (b : ℕ)) = some d →
    d ≠ 0 ∧ d = (s.leaf s.writes.length b).num

/-- last-level blocks of the new version: above a block of the write, or of the last version -/
theorem group_written {s : Driver} {off : ℤ} {buf : Buf} {junk : ℕ → ℤ} (h : Sound True s) (ho : InRange off)
    (hj : JunkUnused s (.write buf off junk)) (t : ℕ) (ht : t < 262144) :
    (∃ b, b / 256 = t ∧ Touches b (off, buf)) ∨
      node volShape (child (s.step (.write buf off junk)).vol.file)
        ((s.step (.write buf off junk)).root (s.writes.length + 1)) 2 t =
      node volShape (child s.vol.file) (s.root s.writes.length) 2 t := by
  obtain ⟨hs, uw, d, n, g, hw⟩ := write_step h ho buf junk (supplied_true s _)
  have hcap : t < volShape.cap 2 := ht
  by_cases hT : touched (blockOf off) (remOf off) 2 t
  · left
    rcases hT with rfl | ⟨hr, rfl⟩
    · exact ⟨blockOf off, rfl, (touches_iff ho buf _).2 (Or.inl rfl)⟩
    · exact ⟨blockOf off + 1, rfl, (touches_iff ho buf _).2 (Or.inr ⟨hr, rfl⟩)⟩
  · right
    have hcopy := hw.copy
    rw [next_root] at hcopy
    rw [(root_written hs hw _).1, if_pos rfl, hs.vol, node_frame (new_tree_kept h hw (hj ho)) 2 t (by omega) hcap,
      node_untouched hcopy 2 t (by simp) hcap hT]

/-- those of an older version stay -/
theorem group_old {s : Driver} {off : ℤ} {buf : Buf} {junk : ℕ → ℤ} (h : Sound True s) (ho : InRange off)
    (hj : JunkUnused s (.write buf off junk)) {k : ℕ} (hc : s.committed ≤ k) (hk : k ≤ s.writes.length) (t : ℕ)
    (ht : t < 262144) :
    node volShape (child (s.step (.write buf off junk)).vol.file) ((s.step (.write buf off junk)).root k) 2 t =
      node volShape (child s.vol.file) (s.root k) 2 t := by
  obtain ⟨hs, uw, d, n, g, hw⟩ := write_step h ho buf junk (supplied_true s _)
  rw [(root_written hs hw k).1, if_neg (by omega), hs.vol]
  exact node_frame (fun x hx => hw.held_kept h (fun x hJ => (hj ho x hJ).2.1) (h.reach_holds hc hk hx)) 2 t (by omega) ht

theorem traced_written {s : Driver} {off : ℤ} {buf : Buf} {junk : ℕ → ℤ} (h : Traced s) (ho : InRange off)
    (hj : JunkUnused s (.write buf off junk)) : Traced (s.step (.write buf off junk)) := by
  have hl := leaves_written h.sound ho hj
  have hs := step_write (s := s) ho buf junk
  have hgroup := group_written h.sound ho hj
  have hold := fun k hc hk => group_old h.sound ho hj (k := k) hc hk
  have hle := h.sound.le
  have hlen : (s.step (.write buf off junk)).writes.length = s.writes.length + 1 := by rw [hs.writes]; simp
  have hsound := step_sound s _ h.sound (supplied_true s (.write buf off junk))
  have hnext : s.next = s.start + (s.writes.length + 1 : ℕ) := by unfold Driver.next; push_cast; ring
  set s' := s.step (.write buf off junk)
  -- the writes of an old version, and those of the new one
  have htouch : ∀ k ≤ s.writes.length, ∀ b, lastTouch s'.writes b k = lastTouch s.writes b k := fun k hk b => by
    rw [hs.writes]
    exact lastTouch_append _ _ b k hk
  have hnew : ∀ b, lastTouch s'.writes b (s.writes.length + 1) =
      if Touches b (off, buf) then s.writes.length + 1 else lastTouch s.writes b s.writes.length := fun b => by
    rw [hs.writes]
    exact lastTouch_snoc _ _ b
  constructor
  · exact hsound
  · intro k hc hk b hb
    rw [hs.committed] at hc
    rcases Nat.lt_or_eq_of_le (hlen ▸ hk) with hlt | rfl
    · rw [hl.old k hc (by omega) b hb, htouch k (by omega)]
      exact h.num k hc (by omega) b hb
    · rw [hnew]
      split
      · next hT => exact ⟨fun _ => by omega, fun _ => hl.found b hb hT⟩
      · next hT =>
        rw [hl.other b hb hT]
        exact h.num _ hle le_rfl b hb
  · intro k hc hk b hb
    rw [hs.committed] at hc
    rw [hs.start]
    rcases Nat.lt_or_eq_of_le (hlen ▸ hk) with hlt | rfl
    · rw [hl.old k hc (by omega) b hb, htouch k (by omega)]
      exact h.updated k hc (by omega) b hb
    · rw [hnew]
      split
      · next hT => rw [hl.updated b hb hT, if_neg (by omega), hnext]
      · next hT =>
        rw [hl.other b hb hT]
        exact h.updated _ hle le_rfl b hb
  · intro k hc hk t ht hx
    rw [hs.committed] at hc
    rcases Nat.lt_or_eq_of_le (hlen ▸ hk) with hlt | rfl
    · rw [hold k hc (by omega) t ht] at hx
      obtain ⟨b, hb, hT⟩ := h.group k hc (by omega) t ht hx
      exact ⟨b, hb, by rw [htouch k (by omega)]; exact hT⟩
    · rcases hgroup t ht with ⟨b, hb, hT⟩ | e
      · exact ⟨b, hb, by rw [hnew, if_pos hT]; omega⟩
      · rw [e] at hx
        obtain ⟨b, hb, hT⟩ := h.group _ hle le_rfl t ht hx
        refine ⟨b, hb, ?_⟩
        rw [hnew]
        split
        · omega
        · exact hT
  · exact pendingNewest_written h.sound h.pending ho hj

theorem traced_committed {s s' : Driver} {w : ℤ × Buf} {uw : UncommittedWrite} {c : Call} (h : Traced s)
    (hs : Committed s s' w uw c) : Traced s' := by
  have hlt := hs.lt
  have hl := leaves_committed h.sound hs
  constructor
  · exact sound_committed h.sound hs
  · intro k hc hk b hb
    rw [hs.committed] at hc
    rw [hs.writes] at hk ⊢
    rw [hl k hc hk b hb]
    exact h.num k (by omega) hk b hb
  · intro k hc hk b hb
    rw [hs.committed] at hc
    rw [hs.writes] at hk ⊢
    rw [hl k hc hk b hb, hs.start]
    exact h.updated k (by omega) hk b hb
  · intro k hc hk t ht hx
    rw [hs.committed] at hc
    rw [hs.writes] at hk ⊢
    refine h.group k (by omega) hk t ht ?_
    have hkept : ∀ x, Reach volShape (child s.vol.file) (s.root k) x → s'.vol.file.block x = s.vol.file.block x :=
      fun x hx => hs.block_used h.sound (used_live (by omega) hk hx)
    rwa [(root_committed h.sound hs k hc hk).1, node_frame hkept 2 t (by omega) ht] at hx
  · exact pendingNewest_committed h.sound h.pending hs

theorem step_traced (s : Driver) (op : Op) (h : Traced s) (hj : JunkUnused s op) : Traced (s.step op) := by
  refine Driver.step_inv Traced h.sound h op (fun buf off junk e ho => ?_) fun w uw c hs => traced_committed h hs
  subst e
  exact traced_written h ho hj

theorem traced_new_from (start : ℤ) : Traced (Driver.open start (initVolume File.new)) := by
  have hroot : ∀ k, (Driver.open start (initVolume File.new)).root k = 0 := fun _ => rfl
  have hnode : ∀ f : File, ∀ j b, node volShape (child f) 0 j b = 0 := fun f j b => node_null _ _ (child_zero f) j b
  refine ⟨sound_new_from start, fun k _ hk b _ => ?_, fun k _ hk b _ => ?_, fun k _ _ t _ hx => ?_, fun b _ d hd => ?_⟩
  · have h0 : k = 0 := by simpa [Driver.open] using hk
    simp [h0, lastTouch, Driver.leaf, leafAt, hroot, hnode]
  · have h0 : k = 0 := by simpa [Driver.open] using hk
    simp [h0, lastTouch, Driver.leaf, leafAt, hroot, leafUpdated, hnode]
  · rw [hroot, hnode] at hx
    exact absurd rfl hx
  · cases hd

theorem run_traced (start : ℤ) (es : List Op)
    (hj : Meets Driver.step JunkUnused (Driver.open start (initVolume File.new)) es) :
    Traced (run Driver.step (Driver.open start (initVolume File.new)) es) :=
  run_inv_of_meets Driver.step JunkUnused Traced step_traced _ es (traced_new_from start) hj

/-! ## Reading the committed volume -/

/-- when everything is committed a pending block is the committed one -/
theorem read_traced {s : Driver} (h : Traced s) (hc : s.committed = s.writes.length) (b : ℕ) (hb : b < 67108864) :
    read s.vol (4096 * b) = (s.vol.leaf b).data := by
  rw [read_aligned, leaf_committed h.sound]
  cases hp : s.vol.pendingBlocks (4096 * b) with
  | none => exact readAligned_committed h.sound hp
  | some d =>
    rw [hc]
    exact PendingNewest.readAligned_eq h.pending hb hp

/-! ## Reading uncommitted writes -/

/-- **Re-reading.** In every state of an in-order run on a new file, `read_sequence_number` returns the bytes of a write
that is not committed yet, and fails for every other number. -/
theorem uncommitted_read_back (start : ℤ) (es : List Op)
    (hj : Meets Driver.step JunkUnused (Driver.open start (initVolume File.new)) es) :
    let s := run Driver.step (Driver.open start (initVolume File.new)) es
    (∀ (k : ℕ) (off : ℤ) (buf : Buf), s.committed ≤ k → s.writes[k]? = some (off, buf) →
      ∃ data, readSequenceNumber s.vol (start + k + 1) off = some data ∧ ∀ p < blockSize, data p = buf p) ∧
      ∀ n : ℤ, (∀ k : ℕ, s.committed ≤ k → k < s.writes.length → n ≠ start + k + 1) →
        ∀ off, readSequenceNumber s.vol n off = none := by
  intro s
  have h : OwnWrites s :=
    run_inv_of_meets Driver.step JunkUnused OwnWrites step_ownWrites _ es (ownWrites_open (sound_new_from start)) hj
  have hstart : s.start = start := run_start _ es
  constructor
  · intro k off buf hc hw
    rw [← hstart]
    exact readSequenceNumber_eq h hc hw
  · intro n hn off
    have hnone : s.vol.uncommittedWrites n = none := h.sound.none fun k hc hk e =>
      hn (k - 1) (by omega) (by omega) (by rw [e, hstart]; omega)
    simp only [readSequenceNumber, hnone]

/-- two overlapping writes, the first one committed -/
theorem uncommitted_read_back_overlapping :
    ∃ data, readSequenceNumber (run Driver.step Driver.new [firstOp, secondOp, .commit]).vol 2 0 = some data ∧
      ∀ p < blockSize, data p = 8 :=
  (uncommitted_read_back 0 [firstOp, secondOp, .commit]
    ⟨junkUnused_firstOp _, junkUnused_secondOp _, trivial, trivial⟩).1 1 0 (fun _ => 8) (by decide +kernel) rfl

end ChainedBlockStorage.Storage
