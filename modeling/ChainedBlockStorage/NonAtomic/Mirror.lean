/-
The two volumes side by side: `storage.cpp` and `storage-nonatomic.cpp` get the same writes and commits.

- `Mirror`, `step_mirror`: entries hold what the leaves of the committed tree hold, the data blocks of uncommitted writes
  what the leaves of their versions hold, and a block is read alike on both sides. This needs two things of a run: no
  write frees an entry twice, and no commit leaves the two `pending_blocks` with a different view of a later write.
-/
import ChainedBlockStorage.NonAtomic.Owners
import ChainedBlockStorage.Storage.History

namespace ChainedBlockStorage.NonAtomic

open Positions Run
open Storage (Block Buf File Op InRange blockOf remOf Touches Uncommitted JunkUnused blockSize fillFrom fillUpTo inRange_parts)

/-! ## The relation -/

/-- what the entry of block `b` stands for -/
def entryData (v : Volume) (b : ℕ) : Buf :=
  if entryNum v.file b ≠ 0 then (v.file.block (entryNum v.file b)).asBytes else fun _ => 0

/-- `s` is the atomic volume, `t` the other one -/
structure Mirror (s : Storage.Driver) (t : Driver) : Prop where
  traced : Storage.Traced s
  owned : Owned t
  start : t.start = s.start
  writes : t.writes = s.writes
  committed : t.committed = s.committed
  stable : ∀ k, s.committed ≤ k → ∀ w, s.writes[k]? = some w → ∀ b < 67108864, ¬ Touches b w → s.leaf (k + 1) b = s.leaf k b
  entries : ∀ b < 67108864, entryData t.vol b = (s.leaf s.committed b).data
  parts : ∀ k w i, s.committed ≤ k → s.writes[k]? = some w → Part w.1 i →
    (t.vol.file.block (t.dataNum k i)).asBytes = (s.leaf (k + 1) (blockOf w.1 + i)).data
  pending : ∀ b < 67108864, t.vol.pendingBlocks (4096 * (b : ℕ)) ≠ none → s.vol.pendingBlocks (4096 * b) ≠ none
  gone : ∀ b < 67108864, t.vol.pendingBlocks (4096 * (b : ℕ)) = none → s.vol.pendingBlocks (4096 * b) ≠ none →
    ¬ Uncommitted s b
  number : getSequenceNumber t.vol = Storage.getSequenceNumber s.vol

section Mirror

variable {s : Storage.Driver} {t : Driver}

/-- **Read alike.** -/
theorem Mirror.readAligned_eq (h : Mirror s t) {b : ℕ} (hb : b < 67108864) :
    readAligned t.vol (4096 * b) = Storage.readAligned s.vol (4096 * b) := by
  have hothers : Storage.KeepsOthers s := h.stable
  have hpending : Storage.PendingNewest s := h.traced.pending
  cases ht : t.vol.pendingBlocks (4096 * b) with
  | some d =>
    obtain ⟨e, he⟩ := Option.ne_none_iff_exists'.1 (h.pending b hb (by rw [ht]; exact Option.some_ne_none d))
    obtain ⟨k, i, hl, rfl⟩ := h.owned.pending b hb d ht
    obtain ⟨hc, w, hw, hi⟩ := hl.live
    have hblock := hl.block w hw
    have hlast := hl.last
    rw [h.writes] at hw hlast
    rw [h.committed] at hc
    have hk := (List.getElem?_eq_some_iff.1 hw).1
    calc readAligned t.vol (4096 * b) = (t.vol.file.block (t.dataNum k i)).asBytes := by rw [readAligned, ht]
      _ = (s.leaf (k + 1) b).data := by rw [hblock, h.parts k w i hc hw hi]
      _ = (s.leaf s.writes.length b).data := by
        rw [hothers.leaf_eq hb (by omega) hk le_rfl fun j hj _ => hlast j hj]
      _ = Storage.readAligned s.vol (4096 * b) := (hpending.readAligned_eq hb he).symm
  | none =>
    have hentry : readAligned t.vol (4096 * b) = (s.leaf s.committed b).data := by
      rw [← h.entries b hb, readAligned, ht]
      rfl
    rw [hentry]
    cases hs : s.vol.pendingBlocks (4096 * b) with
    | none => exact (Storage.readAligned_committed h.traced.sound hs).symm
    | some e =>
      have hno := h.gone b hb ht (by rw [hs]; exact Option.some_ne_none e)
      rw [hpending.readAligned_eq hb hs, hothers.leaf_newest h.traced.sound hb hno]

end Mirror

/-! ## One write -/

/-- both put the same bytes in their blocks: what they read there before is the same -/
theorem Mirror.part_written {s s' : Storage.Driver} {t t' : Driver} {off : ℤ} {buf : Buf} {uw : UncommittedWrite}
    (h : Mirror s t) (ho : InRange off) (hd : Storage.DataWritten s s' off buf) (hs : Written t t' off buf uw) {i : ℕ}
    (hi : Part off i) : (t'.vol.file.block (uw.newFileOffset i)).asBytes =
      (s'.leaf (s.writes.length + 1) (blockOf off + i)).data := by
  obtain ⟨-, -, hb0, hb1⟩ := inRange_parts ho
  rcases hi with rfl | ⟨rfl, hr⟩
  · rw [hs.ok.fst, Storage.asBytes_bytes, h.readAligned_eq hb0]
    exact hd.fst.symm
  · obtain ⟨old, e, hold⟩ := hd.snd hr
    have hpending : Storage.PendingNewest s := h.traced.pending
    rw [e, hold fun d hp => hpending.used h.traced.sound (hb1 hr) hp, hs.ok.snd hr, Storage.asBytes_bytes,
      h.readAligned_eq (hb1 hr)]

theorem mirror_written {s : Storage.Driver} {t : Driver} (h : Mirror s t) {off : ℤ} (ho : InRange off) (buf : Buf)
    (junk : ℕ → ℤ) (hj : JunkUnused s (.write buf off junk)) (hf : FreedOnce t off) :
    Mirror (s.step (.write buf off junk)) (t.step (.write buf off junk)) := by
  have hsound := h.traced.sound
  have hle := hsound.le
  have hl := Storage.leaves_written hsound ho hj
  have hd : Storage.DataWritten s (s.step (.write buf off junk)) off buf := Storage.data_written hsound ho hj
  have hsw := Storage.step_write (s := s) ho buf junk
  have hfirst : (s.step (.write buf off junk)).vol.firstBlock = s.vol.firstBlock := by
    obtain ⟨hs, uw, d, n, g, hw⟩ := Storage.write_step hsound ho buf junk (Storage.supplied_true s _)
    rw [hs.vol, hw.firstBlock]
  have hpend := Storage.pending_written hsound ho hj
  have hother := Storage.pending_other hsound ho buf junk
  have htraced := Storage.step_traced s _ h.traced hj
  obtain ⟨uw, hs⟩ := step_written h.owned ho buf junk
  have howned := owned_written h.owned ho hs hf
  set s' := s.step (.write buf off junk)
  set t' := t.step (.write buf off junk)
  have htouch := Storage.touches_iff ho buf
  have hlen : s'.writes.length = s.writes.length + 1 := by rw [hsw.writes, List.length_append]; rfl
  have htlen : t.writes.length = s.writes.length := by rw [h.writes]
  have hget : ∀ k w, s'.writes[k]? = some w → s.writes[k]? = some w ∧ k < s.writes.length ∨
      k = s.writes.length ∧ w = (off, buf) := by
    intro k w hw
    rw [hsw.writes] at hw
    exact getElem?_of_concat_lt hw
  constructor
  case traced => exact htraced
  case owned => exact howned
  case start => rw [hs.start, hsw.start, h.start]
  case writes => rw [hs.writes, hsw.writes, h.writes]
  case committed => rw [hs.committed, hsw.committed, h.committed]
  case stable => exact Storage.keepsOthers_written hsound h.stable ho hj
  case entries =>
    intro b hb
    rw [hsw.committed, hl.old _ le_rfl hle b hb, ← h.entries b hb, entryData, entryData, hs.entryNum_eq hb]
    split
    · next hne => rw [hs.kept (Or.inl (entryNum_used hb hne))]
    · rfl
  case parts =>
    intro k w i hc hw hi
    rw [hsw.committed] at hc
    rw [hs.dataNum_eq, htlen]
    rcases hget k w hw with ⟨hw, hk⟩ | ⟨rfl, rfl⟩
    · have hlt := hi.lt (h.owned.inRange w (by rw [h.writes]; exact List.mem_of_getElem? hw))
      have hlive : t.Live (.data k i) := ⟨by rw [h.committed]; exact hc, w, by rw [h.writes]; exact hw, hi⟩
      rw [if_neg (by omega), hl.old (k + 1) (by omega) hk _ hlt, hs.kept (Or.inl (dataNum_used hlive))]
      exact h.parts k w i hc hw hi
    · rw [if_pos rfl]
      exact h.part_written ho hd hs hi
  case pending =>
    intro b hb hne
    by_cases hT : Touches b (off, buf)
    · rw [hpend b hb hT]
      exact Option.some_ne_none _
    · rw [htouch, not_or] at hT
      rw [hs.ok.pending, if_neg hT.2, if_neg hT.1] at hne
      rw [hother b (by rw [htouch, not_or]; exact hT)]
      exact h.pending b hb hne
  case gone =>
    intro b hb hnone hne
    by_cases hT : Touches b (off, buf)
    · rw [hs.ok.pending] at hnone
      rcases (htouch b).1 hT with h0 | h1
      · have hno : ¬ (remOf off ≠ 0 ∧ b = blockOf off + 1) := by omega
        rw [if_neg hno, if_pos h0] at hnone
        cases hnone
      · rw [if_pos h1] at hnone
        cases hnone
    · have hT' := hT
      rw [htouch, not_or] at hT'
      rw [hs.ok.pending, if_neg hT'.2, if_neg hT'.1] at hnone
      rw [hother b hT] at hne
      rw [Storage.uncommitted_written hsw hle]
      exact not_or.2 ⟨h.gone b hb hnone hne, hT⟩
  case number =>
    rw [getSequenceNumber, readSequenceNum, hs.kept (Or.inr (by decide)), Storage.getSequenceNumber, hfirst]
    exact h.number

/-! ## One commit -/

/-- a write that is committed is aligned, or no later write touches its second block -/
def CommitKept (s : Storage.Driver) : Op → Prop
  | .commit => ∀ w, s.writes[s.committed]? = some w → remOf w.1 ≠ 0 →
      ∀ w' ∈ s.writes.drop (s.committed + 1), ¬ Touches (blockOf w.1 + 1) w'
  | .write _ _ _ => True

theorem mirror_committed {s s' : Storage.Driver} {t t' : Driver} {w : ℤ × Buf} {uwA : Storage.UncommittedWrite}
    {c : Storage.Call} {w' : ℤ × Buf} {uw : UncommittedWrite} (h : Mirror s t) (hk : CommitKept s .commit)
    (hA : Storage.Committed s s' w uwA c) (hs : Committed t t' w' uw) : Mirror s' t' := by
  have hsound := h.traced.sound
  have hl := Storage.leaves_committed hsound hA
  -- both commit the same write
  have hw := hs.write
  rw [h.writes, h.committed, hA.write, Option.some.injEq] at hw
  subst hw
  have ho : InRange w.1 := h.owned.inRange w (List.mem_of_getElem? hs.write)
  have hlt := hA.lt
  have hpendA : ∀ b : ℕ, s'.vol.pendingBlocks (4096 * b) = if b = blockOf w.1 then none else s.vol.pendingBlocks (4096 * b) := by
    intro b
    have hiff : (4096 * b : ℤ) = 4096 * blockOf w.1 ↔ b = blockOf w.1 := by omega
    rw [hA.pending_eq ho]
    simp only [hiff]
  have htouch : ∀ b, Touches b w ↔ b = blockOf w.1 ∨ remOf w.1 ≠ 0 ∧ b = blockOf w.1 + 1 := Storage.touches_iff ho w.2
  have hlow : ∀ {o}, t.Live o → t'.vol.file.block (t.num o) = t.vol.file.block (t.num o) := fun {o} hlo =>
    hs.kept _ (by have := h.owned.num_low hlo; omega)
  constructor
  case traced => exact Storage.traced_committed h.traced hA
  case owned => exact owned_committed h.owned hs
  case start => rw [hs.start, hA.start, h.start]
  case writes => rw [hs.writes, hA.writes, h.writes]
  case committed => rw [hs.committed, hA.committed, h.committed]
  case stable => exact Storage.keepsOthers_committed hsound h.stable hA
  case entries =>
    intro b hb
    rw [hA.committed, hl _ le_rfl hlt b hb]
    by_cases hT : Touches b w
    · obtain ⟨i, hi, rfl⟩ := (touches_iff_part ho w.2 b).1 hT
      have hlive : t.Live (.data t.committed i) := ⟨le_rfl, w, hs.write, hi⟩
      have hne : t.dataNum t.committed i ≠ 0 := by
        have := h.owned.num_low hlive
        rw [Driver.num] at this
        omega
      rw [entryData, hs.entryNum_part ho hi, if_pos hne, ← h.parts s.committed w i le_rfl hA.write hi, ← h.committed]
      exact congrArg Block.asBytes (hlow hlive)
    · rw [h.stable _ le_rfl w hA.write b hb hT, ← h.entries b hb, entryData, entryData, hs.entryNum_other hb hT]
      split
      · next hne => exact congrArg Block.asBytes (hlow (o := .entry b) ⟨hb, hne⟩)
      · rfl
  case parts =>
    intro k x i hc hx hi
    rw [hA.committed] at hc
    rw [hA.writes] at hx
    have hlive : t.Live (.data k i) := ⟨by rw [h.committed]; omega, x, by rw [h.writes]; exact hx, hi⟩
    have hblt := hi.lt (h.owned.inRange x (by rw [h.writes]; exact List.mem_of_getElem? hx))
    rw [hs.dataNum_eq (by rw [h.committed]; omega), hl (k + 1) (by omega) (List.getElem?_eq_some_iff.1 hx).1 _ hblt,
      ← h.parts k x i (by omega) hx hi]
    exact congrArg Block.asBytes (hlow hlive)
  case pending =>
    intro b hb hne
    rw [hs.pending] at hne
    by_cases hT : Touches b w
    · rw [if_pos hT] at hne
      exact absurd rfl hne
    · rw [if_neg hT] at hne
      rw [hpendA, if_neg fun e => hT ((htouch b).2 (Or.inl e))]
      exact h.pending b hb hne
  case gone =>
    intro b hb hnone hne
    rw [hpendA] at hne
    have h0 : ¬ b = blockOf w.1 := fun e => hne (if_pos e)
    rw [if_neg h0] at hne
    rw [hs.pending] at hnone
    rintro ⟨x, hx, hTx⟩
    rw [hA.writes, hA.committed] at hx
    by_cases hT : Touches b w
    · obtain ⟨hr0, rfl⟩ := ((htouch b).1 hT).resolve_left h0
      exact hk w hA.write hr0 x hx hTx
    · rw [if_neg hT] at hnone
      refine h.gone b hb hnone hne ⟨x, ?_, hTx⟩
      rw [List.drop_eq_getElem_cons hlt]
      exact List.mem_cons_of_mem _ hx
  case number =>
    rw [hs.number, h.start, h.committed, Storage.getSequenceNumber, hA.vol, hA.ok.last]

theorem step_mirror {s : Storage.Driver} {t : Driver} (op : Op) (h : Mirror s t) (hj : JunkUnused s op)
    (hf : NoDoubleFree t op) (hk : CommitKept s op) : Mirror (s.step op) (t.step op) := by
  cases op with
  | write buf off junk =>
    by_cases ho : InRange off
    · exact mirror_written h ho buf junk hj (hf ho)
    · simp only [Storage.Driver.step, Driver.step, if_neg ho]
      exact h
  | commit =>
    rcases Storage.step_commit h.traced.sound with ⟨e, hA⟩ | ⟨w, uwA, c, hA⟩ <;>
      rcases step_committed h.owned with ⟨e', hs⟩ | ⟨w', uw, hs⟩
    · rw [hA, hs]
      exact h
    · have hlt := hs.lt
      rw [h.writes, h.committed] at hlt
      omega
    · have hlt := hA.lt
      rw [h.writes, h.committed] at e'
      omega
    · exact mirror_committed h hk hA hs

theorem mirror_new (start : ℤ) : Mirror (Storage.Driver.open start (Storage.initVolume File.new)) (Driver.new start) := by
  have hleaf : ∀ k b, ((Storage.Driver.open start (Storage.initVolume File.new)).leaf k b).num = 0 := fun _ b =>
    Radix.node_null Storage.volShape (Storage.child (Storage.initVolume File.new).vol.file) (Storage.child_zero _) 3 b
  constructor
  case traced => exact Storage.traced_new_from start
  case owned => exact owned_new start
  case start => rfl
  case writes => rfl
  case committed => rfl
  case stable => exact fun k _ w hw => by cases hw
  case entries =>
    intro b hb
    rw [entryData, entryNum_new start hb, Storage.leaf_data, hleaf]
    rfl
  case parts => exact fun k w i _ hw => by cases hw
  case pending => exact fun b _ hne => absurd rfl hne
  case gone => exact fun b _ _ hne => absurd rfl hne
  case number => exact readSequenceNum_set _ _

end ChainedBlockStorage.NonAtomic
