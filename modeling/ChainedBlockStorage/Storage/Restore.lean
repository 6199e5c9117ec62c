/-
Bringing a joining node up to date: the sender loop of `ChangeMode` on the old tail, and `NodeListenerImpl::Restore`.

The old tail sends its modified blocks with the data that `Storage::read` returns; the joining node writes and commits
one entry after the other under the numbers that came with them.

- `restoreLoop_ok`: after the loop the listed blocks are as the entries say and all others as before.
- `integration_copies`: the committed trees end up equal exactly when every listed block reads as committed (and has an
  int offset). `pending_write_restored`: `read` returns the data of a pending write.
- `restore_honest`: the persisted number is honest after every entry exactly when, besides, the numbers ascend in block
  order. `restore_lowers_number`: they need not.
-/
import ChainedBlockStorage.Storage.Modified
import ChainedBlockStorage.Storage.Reads
import ChainedBlockStorage.Storage.Open

namespace ChainedBlockStorage.Storage

open Crash Radix Run

/-! ## Sender and receiver -/

/-- `RestoreEntry`; its bytes arrive as they were sent -/
structure RestoreEntry where
  data : Buf
  offset : ℤ
  seqNum : ℤ

/-- the request that `ChangeMode` fills -/
def restoreRequest (v : Volume) (lastSeqNum : ℤ) : Option (List RestoreEntry) :=
  (getModifiedOffsets v lastSeqNum).map (List.map fun x => ⟨read v x.1, x.1, x.2⟩)

/-- `Storage::write` and `Storage::commit` of one entry; `junk` is what the unassigned numbers hold -/
def restoreEntry (junk : ℕ → ℤ) (e : RestoreEntry) (v : Volume) : Option Volume :=
  (commit e.seqNum e.offset (write junk e.data e.offset e.seqNum v).vol).map Call.vol

/-- the loop; no two entries have one offset, so `junk` goes by the offset -/
def restoreLoop (junk : ℤ → ℕ → ℤ) : List RestoreEntry → Volume → Option Volume
  | [], v => some v
  | e :: es, v => (restoreEntry (junk e.offset) e v).bind (restoreLoop junk es)

/-- what `Restore` leaves: the volume and the counters of `Tables` -/
structure Restored where
  vol : Volume
  writeSeq : ℤ
  commitSeq : ℤ
  currentSeq : ℤ

/-- the `maxseq` of the loop -/
def maxSeq (request : List RestoreEntry) (seq : ℤ) : ℤ :=
  request.foldl (fun maxseq e => if e.seqNum > maxseq then e.seqNum else maxseq) seq

def restore (junk : ℤ → ℕ → ℤ) (request : List RestoreEntry) (v : Volume) : Option Restored :=
  let maxseq := maxSeq request (getSequenceNumber v)
  (restoreLoop junk request v).map fun vol => ⟨vol, maxseq, maxseq, maxseq + 1⟩

/-! ## One entry -/

/-- a volume with nothing uncommitted, whatever number comes next -/
def Ready (v : Volume) : Prop := ∀ start, Sound True (Driver.open start (Call.start v))

theorem ready_of_sound {s : Driver} (h : Sound True s) (hc : s.committed = s.writes.length) : Ready s.vol := by
  intro start
  have hroot := h.root_committed
  have hused : ∀ x, Reach volShape (child s.vol.file) (s.vol.firstBlock.firstLevelBlocks 0) x → x ∈ s.used :=
    fun x hx => h.holds_used (Or.inl hx)
  refine sound_open start ?_ ?_ h.versions.free_nodup ?_ ?_ h.versions.bound_free h.total
  · exact fun n => h.none fun k hk hk' => by omega
  · exact hroot ▸ h.versions.proper _ le_rfl h.le
  · exact fun x hx hr => h.versions.free_used x hx (hused x hr)
  · exact fun x hx => h.versions.bound_used x (hused x hx)

/-- the entry's block is as the entry says, the others as before, and so on disk -/
structure EntryRestored (e : RestoreEntry) (v v' : Volume) : Prop where
  ready : Ready v'
  last : getSequenceNumber v' = e.seqNum
  carries : Carries v'.file v'
  data : (v'.leaf (blockOf e.offset)).data = e.data
  updated : (v'.leaf (blockOf e.offset)).updated = e.seqNum
  other : ∀ b < 67108864, b ≠ blockOf e.offset → v'.leaf b = v.leaf b

/-- the write of an entry on the joining node -/
def Unused1 (junk : ℕ → ℤ) (e : RestoreEntry) (v : Volume) : Prop :=
  JunkUnused (Driver.open (e.seqNum - 1) (Call.start v)) (.write e.data e.offset junk)

theorem restoreEntry_ok {junk : ℕ → ℤ} {e : RestoreEntry} {v : Volume} (h : Ready v) (ho : InRange e.offset)
    (ha : remOf e.offset = 0) (hj : Unused1 junk e v) :
    ∃ v', restoreEntry junk e v = some v' ∧ EntryRestored e v v' := by
  have hs0 := h (e.seqNum - 1)
  set s := Driver.open (e.seqNum - 1) (Call.start v) with hs
  have hnext : s.next = e.seqNum := by simp [hs, Driver.next, Driver.open]
  have hl := leaves_written hs0 ho hj
  have hw := step_write (s := s) ho e.data junk
  rw [hnext] at hw
  have hs1 := step_sound s _ hs0 (supplied_true s (.write e.data e.offset junk))
  set s1 := s.step (.write e.data e.offset junk)
  have hb0 := (inRange_parts ho).2.2.1
  have hwrites : s1.writes = [(e.offset, e.data)] := hw.writes
  have hcommitted : s1.committed = 0 := hw.committed
  have hstart : s1.start + s1.committed + 1 = e.seqNum := by
    rw [hw.start, hcommitted]
    simp [hs, Driver.open]
  have hlen : s1.writes.length = 1 := by rw [hwrites]; rfl
  rcases step_commit hs1 with ⟨hc, -⟩ | ⟨w, uw, c, hcom⟩
  · omega
  -- the commit finds the write
  have hunc := hcom.unc
  rw [hstart] at hunc
  obtain ⟨c', hc', hok⟩ := commit_ok hunc (hs1.oneRoot _ uw hunc) e.offset
  have hvol : (s1.step .commit).vol = c'.vol := by
    simp only [Driver.step, hwrites, hcommitted, List.getElem?_cons_zero]
    rw [hcommitted] at hstart
    rw [hstart, hc']
  have hdone : (s1.step .commit).committed = (s1.step .commit).writes.length := by
    rw [hcom.committed, hcom.writes, hcommitted, hlen]
  have hs2 := sound_committed hs1 hcom
  have hleaf : ∀ b < 67108864, c'.vol.leaf b = s1.leaf 1 b := by
    intro b hb
    rw [← hvol, leaf_committed hs2, hcom.committed, hcommitted]
    exact leaves_committed hs1 hcom 1 (by omega) (by omega) b hb
  have hT : ∀ b, Touches b (e.offset, e.data) ↔ b = blockOf e.offset := by
    intro b
    rw [touches_iff ho, ha]
    simp
  refine ⟨c'.vol, ?_, ?_⟩
  · have hvol1 : (write junk e.data e.offset e.seqNum v).vol = s1.vol := hw.vol.symm
    rw [restoreEntry, hvol1, hc']
    rfl
  constructor
  · exact hvol ▸ ready_of_sound hs2 hdone
  · exact hok.last
  · refine ⟨?_, ?_, fun _ _ => rfl, fun he => ?_⟩
    · rw [hok.file, write_block_self]
      exact ofBlock_toBlock_lastCommitted _
    · rw [hok.file, write_block_self]
      exact ofBlock_toBlock_firstLevelBlocks _
    · rw [hok.file] at he
      simp only [File.write, blockSize_eq] at he
      omega
  · rw [hleaf _ hb0]
    exact hl.aligned ha
  · rw [hleaf _ hb0, ← hnext]
    exact hl.updated _ hb0 ((hT _).2 rfl)
  · intro b hb hne
    rw [hleaf b hb]
    exact (hl.other b hb fun h => hne ((hT b).1 h)).trans (leaf_committed hs0 b).symm

/-! ## The loop -/

/-- the unassigned numbers of every write of the loop name no block in use -/
def EntriesUnused (junk : ℤ → ℕ → ℤ) : List RestoreEntry → Volume → Prop
  | [], _ => True
  | e :: es, v => Unused1 (junk e.offset) e v ∧
      ∀ v', restoreEntry (junk e.offset) e v = some v' → EntriesUnused junk es v'

/-- entries of whole blocks, each block at most once and in order -/
structure BlockList (es : List RestoreEntry) : Prop where
  block : ∀ e ∈ es, ∃ b : ℕ, b < 67108864 ∧ e.offset = 4096 * b
  sorted : es.Pairwise fun e e' => e.offset < e'.offset

structure LoopRestored (es : List RestoreEntry) (v v' : Volume) : Prop where
  ready : Ready v'
  last : getSequenceNumber v' = es.getLast?.elim (getSequenceNumber v) RestoreEntry.seqNum
  carries : Carries v.file v → Carries v'.file v'
  listed : ∀ e ∈ es, ∀ b : ℕ, b < 67108864 → e.offset = 4096 * b →
    (v'.leaf b).data = e.data ∧ (v'.leaf b).updated = e.seqNum
  other : ∀ b : ℕ, b < 67108864 → (∀ e ∈ es, e.offset ≠ 4096 * b) → v'.leaf b = v.leaf b

theorem block_offset {b : ℕ} (hb : b < 67108864) :
    InRange (4096 * (b : ℤ)) ∧ remOf (4096 * (b : ℤ)) = 0 ∧ blockOf (4096 * (b : ℤ)) = b := by
  unfold InRange remOf blockOf
  simp only [volumeSize_eq, blockSize_eq]
  omega

/-- **The loop.** -/
theorem restoreLoop_ok {junk : ℤ → ℕ → ℤ} {es : List RestoreEntry} {v : Volume} (h : Ready v) (hl : BlockList es)
    (hj : EntriesUnused junk es v) : ∃ v', restoreLoop junk es v = some v' ∧ LoopRestored es v v' := by
  induction es generalizing v with
  | nil => exact ⟨v, rfl, h, rfl, id, by simp, fun _ _ _ => rfl⟩
  | cons e es ih =>
    obtain ⟨b₀, hb₀, hoff⟩ := hl.block e List.mem_cons_self
    obtain ⟨hlt, hsorted⟩ := List.pairwise_cons.1 hl.sorted
    obtain ⟨ho, ha, hblock⟩ := block_offset hb₀
    rw [← hoff] at ho ha hblock
    obtain ⟨v₁, hv₁, hr⟩ := restoreEntry_ok h ho ha hj.1
    obtain ⟨v', hv', hr'⟩ := ih hr.ready ⟨fun e' he' => hl.block e' (List.mem_cons_of_mem _ he'), hsorted⟩ (hj.2 v₁ hv₁)
    refine ⟨v', by rw [restoreLoop, hv₁]; exact hv', hr'.ready, ?_, fun _ => hr'.carries hr.carries, ?_, ?_⟩
    · rw [hr'.last]
      cases es with
      | nil => exact hr.last
      | cons e' es =>
        rw [List.getLast?_cons_cons]
        cases hlast : (e' :: es).getLast? with
        | none => simp at hlast
        | some x => rfl
    · intro e' he' b hb heb
      rcases List.mem_cons.1 he' with rfl | he'
      · -- no later entry is of this block
        obtain rfl : b = blockOf e'.offset := by omega
        have hother : v'.leaf (blockOf e'.offset) = v₁.leaf (blockOf e'.offset) :=
          hr'.other _ hb fun x hx hxe => by have := hlt x hx; omega
        rw [hother]
        exact ⟨hr.data, hr.updated⟩
      · exact hr'.listed e' he' b hb heb
    · intro b hb hne
      rw [hr'.other b hb fun x hx => hne x (List.mem_cons_of_mem _ hx)]
      refine hr.other b hb fun hbe => hne e List.mem_cons_self ?_
      omega

theorem BlockList.take {es : List RestoreEntry} (h : BlockList es) (m : ℕ) : BlockList (es.take m) :=
  ⟨fun e he => h.block e (List.mem_of_mem_take he), h.sorted.sublist (List.take_sublist m es)⟩

theorem entriesUnused_take {junk : ℤ → ℕ → ℤ} (es : List RestoreEntry) (v : Volume) (m : ℕ)
    (h : EntriesUnused junk es v) : EntriesUnused junk (es.take m) v := by
  induction es generalizing v m with
  | nil => simpa using h
  | cons e es ih =>
    cases m with
    | zero => trivial
    | succ m => exact ⟨h.1, fun v' hv' => ih v' m (h.2 v' hv')⟩

/-! ## The request -/

/-- the same 4096 bytes and the same number -/
def SameBlock (x y : Leaf) : Prop := (∀ p < blockSize, x.data p = y.data p) ∧ x.updated = y.updated

/-- no pending write hides the committed bytes of block `b` from `read` -/
def Clean (v : Volume) (b : ℕ) : Prop :=
  ∀ d, v.pendingBlocks (4096 * b) = some d → ∀ p < blockSize, (v.file.block d).asBytes p = (v.leaf b).data p

theorem clean_iff (v : Volume) (b : ℕ) : Clean v b ↔ ∀ p < blockSize, read v (4096 * b) p = (v.leaf b).data p := by
  rw [read_aligned]
  cases hp : v.pendingBlocks (4096 * b) with
  | none =>
    rw [readAligned_none v b hp]
    simp only [Clean, hp, reduceCtorEq, false_implies, implies_true, true_iff]
    exact fun p _ => rfl
  | some d => simp [Clean, hp, readAligned]

/-- every listed block has an int offset and is read as committed -/
def Sendable (v : Volume) (seqNum : ℤ) : Prop :=
  ∀ b : ℕ, b < 67108864 → seqNum < (v.leaf b).updated → 4096 * (b : ℤ) < 2 ^ 31 ∧ Clean v b

/-- the entry of block `b` -/
def entryOf (v : Volume) (b : ℕ) : RestoreEntry := ⟨read v (4096 * b), 4096 * b, (v.leaf b).updated⟩

structure RequestOk (v : Volume) (seqNum : ℤ) (es : List RestoreEntry) : Prop where
  int : ∀ b : ℕ, b < 67108864 → seqNum < (v.leaf b).updated → 4096 * (b : ℤ) < 2 ^ 31
  mem : ∀ e, e ∈ es ↔ ∃ b : ℕ, b < 67108864 ∧ seqNum < (v.leaf b).updated ∧ e = entryOf v b
  list : BlockList es

theorem request_ok {v : Volume} {seqNum : ℤ} {es : List RestoreEntry} (h0 : 0 ≤ seqNum)
    (h : restoreRequest v seqNum = some es) : RequestOk v seqNum es := by
  unfold restoreRequest getModifiedOffsets at h
  split at h
  swap
  · cases h
  next hint =>
  simp only [Option.map_some, Option.some.injEq] at h
  have hmem : ∀ e, e ∈ es ↔ ∃ b : ℕ, b < 67108864 ∧ seqNum < (v.leaf b).updated ∧ e = entryOf v b := by
    intro e
    rw [← h, List.mem_map]
    constructor
    · rintro ⟨x, hx, rfl⟩
      obtain ⟨b, hb, rfl, hlt⟩ := (mem_modifiedEntries v seqNum h0 x).1 hx
      exact ⟨b, hb, hlt, rfl⟩
    · rintro ⟨b, hb, hlt, rfl⟩
      exact ⟨_, (mem_modifiedEntries v seqNum h0 _).2 ⟨b, hb, rfl, hlt⟩, rfl⟩
  refine ⟨fun b hb hlt => ?_, hmem, fun e he => ?_, ?_⟩
  · have hx : (4096 * (b : ℤ), (v.leaf b).updated) ∈ modifiedEntries v seqNum :=
      (mem_modifiedEntries v seqNum h0 _).2 ⟨b, hb, rfl, hlt⟩
    simpa using hint _ hx
  · obtain ⟨b, hb, -, rfl⟩ := (hmem e).1 he
    exact ⟨b, hb, rfl⟩
  · rw [← h, List.pairwise_map]
    exact modifiedEntries_sorted v seqNum

theorem request_exists {v : Volume} {seqNum : ℤ} (h0 : 0 ≤ seqNum)
    (h : ∀ b : ℕ, b < 67108864 → seqNum < (v.leaf b).updated → 4096 * (b : ℤ) < 2 ^ 31) :
    ∃ es, restoreRequest v seqNum = some es := by
  have hint : ∀ x ∈ modifiedEntries v seqNum, x.1 < 2 ^ 31 := by
    intro x hx
    obtain ⟨b, hb, rfl, hlt⟩ := (mem_modifiedEntries v seqNum h0 x).1 hx
    exact h b hb hlt
  exact ⟨_, by rw [restoreRequest, getModifiedOffsets, if_pos hint]; rfl⟩

/-- what the joining node holds after the loop, block by block -/
theorem restored_block {old v v' : Volume} {seqNum : ℤ} {es : List RestoreEntry} (hreq : RequestOk old seqNum es)
    (hr : LoopRestored es v v') {b : ℕ} (hb : b < 67108864) :
    (seqNum < (old.leaf b).updated → (v'.leaf b).data = read old (4096 * b) ∧ (v'.leaf b).updated = (old.leaf b).updated) ∧
      (¬ seqNum < (old.leaf b).updated → v'.leaf b = v.leaf b) := by
  constructor
  · exact fun hlt => hr.listed (entryOf old b) ((hreq.mem _).2 ⟨b, hb, hlt, rfl⟩) b hb rfl
  · intro hnlt
    apply hr.other b hb
    intro e he heb
    obtain ⟨c, -, hlt, rfl⟩ := (hreq.mem e).1 he
    have hcb : c = b := by
      simp only [entryOf] at heb
      omega
    exact hnlt (hcb ▸ hlt)

/-! ## Integration copies the volume -/

/-- `ChangeMode` and `Restore` complete, and the joining node's committed tree is the old tail's -/
def Copied (junk : ℤ → ℕ → ℤ) (old : Volume) (seqNum : ℤ) (v : Volume) : Prop :=
  ∃ request r, restoreRequest old seqNum = some request ∧ restore junk request v = some r ∧
    ∀ b < 67108864, SameBlock (r.vol.leaf b) (old.leaf b)

theorem copied_iff {junk : ℤ → ℕ → ℤ} {old v : Volume} {seqNum : ℤ} (h0 : 0 ≤ seqNum) (hv : Ready v)
    (hsince : ∀ b < 67108864, seqNum < (old.leaf b).updated ∨ SameBlock (v.leaf b) (old.leaf b))
    (hj : ∀ request, restoreRequest old seqNum = some request → EntriesUnused junk request v) :
    Copied junk old seqNum v ↔ Sendable old seqNum := by
  constructor
  · rintro ⟨request, r, hreq, hr, hsame⟩ b hb hlt
    have hok := request_ok h0 hreq
    obtain ⟨v', hv', hrest⟩ := restoreLoop_ok hv hok.list (hj request hreq)
    have hrv : r.vol = v' := by
      simp only [restore, hv', Option.map_some, Option.some.injEq] at hr
      rw [← hr]
    have hblock := (restored_block hok hrest hb).1 hlt
    refine ⟨hok.int b hb hlt, (clean_iff old b).2 fun p hp => ?_⟩
    rw [← hblock.1, ← hrv]
    exact (hsame b hb).1 p hp
  · intro hs
    obtain ⟨request, hreq⟩ := request_exists h0 fun b hb hlt => (hs b hb hlt).1
    have hok := request_ok h0 hreq
    obtain ⟨v', hv', hrest⟩ := restoreLoop_ok hv hok.list (hj request hreq)
    refine ⟨request, _, hreq, by rw [restore, hv']; rfl, fun b hb => ?_⟩
    by_cases hlt : seqNum < (old.leaf b).updated
    · obtain ⟨hdata, hupd⟩ := (restored_block hok hrest hb).1 hlt
      refine ⟨fun p hp => ?_, hupd⟩
      rw [hdata]
      exact (clean_iff old b).1 (hs b hb hlt).2 p hp
    · rw [(restored_block hok hrest hb).2 hlt]
      exact (hsince b hb).resolve_left hlt

/-! ## The persisted number -/

/-- A crash after any entry of the loop: the number that `open_volume` then finds covers only blocks that are in the
volume. And at the end of `Restore` the volume and the counters name one number. -/
def Honest (junk : ℤ → ℕ → ℤ) (old : Volume) (seqNum : ℤ) (v : Volume) : Prop :=
  ∃ request, restoreRequest old seqNum = some request ∧
    (∀ m ≤ request.length, ∃ v', restoreLoop junk (request.take m) v = some v' ∧ ∀ b < 67108864,
      (old.leaf b).updated ≤ getSequenceNumber (openVolume v'.file).vol →
        SameBlock ((openVolume v'.file).vol.leaf b) (old.leaf b)) ∧
    ∃ r, restore junk request v = some r ∧ getSequenceNumber r.vol = r.commitSeq ∧ r.commitSeq = r.writeSeq

/-- the numbers of the listed blocks ascend in block order -/
def Ascending (v : Volume) (seqNum : ℤ) : Prop :=
  ∀ b c : ℕ, b < c → c < 67108864 → seqNum < (v.leaf b).updated → seqNum < (v.leaf c).updated →
    (v.leaf b).updated < (v.leaf c).updated

theorem sameBlock_reopened {v : Volume} (h : Carries v.file v) {b : ℕ} (hb : b < 67108864) (x : Leaf) :
    SameBlock ((openVolume v.file).vol.leaf b) x ↔ SameBlock (v.leaf b) x := by
  have hs := open_carries h
  have hdata : ((openVolume v.file).vol.leaf b).data = (v.leaf b).data := hs.data b hb
  have hupd : ((openVolume v.file).vol.leaf b).updated = (v.leaf b).updated := hs.updated b hb
  rw [SameBlock, SameBlock, hdata, hupd]

/-- with ascending numbers `maxseq` is the last one -/
theorem maxSeq_ascending {es : List RestoreEntry} {seq : ℤ} (hs : es.Pairwise fun e e' => e.seqNum < e'.seqNum)
    (hlt : ∀ e ∈ es, seq < e.seqNum) : maxSeq es seq = es.getLast?.elim seq RestoreEntry.seqNum := by
  induction es generalizing seq with
  | nil => rfl
  | cons e es ih =>
    obtain ⟨h1, h2⟩ := List.pairwise_cons.1 hs
    have hmax : maxSeq (e :: es) seq = maxSeq es e.seqNum := by
      have := hlt e List.mem_cons_self
      simp only [maxSeq, List.foldl_cons, gt_iff_lt, this, if_true]
    rw [hmax, ih h2 h1]
    cases es with
    | nil => rfl
    | cons e' es =>
      rw [List.getLast?_cons_cons]
      cases hlast : (e' :: es).getLast? with
      | none => simp at hlast
      | some x => rfl

/-- an entry with the offset of an earlier block is among the first `m` if a later block's is -/
theorem mem_take_of_le {es : List RestoreEntry} (h : BlockList es) {e e' : RestoreEntry} {m : ℕ} (he : e ∈ es)
    (he' : e' ∈ es.take m) (hle : e.offset ≤ e'.offset) : e ∈ es.take m := by
  rw [← List.take_append_drop m es] at he
  rcases List.mem_append.1 he with he | he
  · exact he
  · have hs := h.sorted
    rw [← List.take_append_drop m es, List.pairwise_append] at hs
    have := hs.2.2 e' he' e he
    omega

/-- the last entry is of the last block -/
theorem offset_le_last {es : List RestoreEntry} (h : BlockList es) {e : RestoreEntry} (hl : es.getLast? = some e) :
    ∀ x ∈ es, x.offset ≤ e.offset := by
  obtain ⟨ys, rfl⟩ := List.getLast?_eq_some_iff.1 hl
  intro x hx
  rcases List.mem_append.1 hx with hx | hx
  · exact ((List.pairwise_append.1 h.sorted).2.2 x hx e (List.mem_singleton_self e)).le
  · rw [List.mem_singleton.1 hx]

section Honest

variable {junk : ℤ → ℕ → ℤ} {old v : Volume} {seqNum : ℤ} {request : List RestoreEntry}

/-- after a prefix of a clean, ascending request -/
theorem honest_prefix (hok : RequestOk old seqNum request) (hs : Sendable old seqNum) (ha : Ascending old seqNum)
    (hcar : Carries v.file v) (hlast : getSequenceNumber v = seqNum)
    (hsince : ∀ b < 67108864, seqNum < (old.leaf b).updated ∨ SameBlock (v.leaf b) (old.leaf b)) {m : ℕ} {v' : Volume}
    (hr : LoopRestored (request.take m) v v') {b : ℕ} (hb : b < 67108864)
    (hle : (old.leaf b).updated ≤ getSequenceNumber (openVolume v'.file).vol) :
    SameBlock ((openVolume v'.file).vol.leaf b) (old.leaf b) := by
  have hnum : getSequenceNumber (openVolume v'.file).vol = getSequenceNumber v' := (open_carries (hr.carries hcar)).last
  rw [sameBlock_reopened (hr.carries hcar) hb]
  rw [hnum, hr.last, hlast] at hle
  by_cases hlt : seqNum < (old.leaf b).updated
  · cases hl : (request.take m).getLast? with
    | none =>
      rw [hl, Option.elim_none] at hle
      omega
    | some e =>
      -- the block of the last entry is not before `b`, so `b` has been restored
      have he : e ∈ request.take m := List.mem_of_getLast? hl
      obtain ⟨c, hc, hltc, rfl⟩ := (hok.mem e).1 (List.mem_of_mem_take he)
      have hle' : (old.leaf b).updated ≤ (old.leaf c).updated := by rwa [hl, Option.elim_some] at hle
      have hbc : b ≤ c := by
        by_contra hcb
        have := ha c b (by omega) hb hltc hlt
        omega
      have hmem : entryOf old b ∈ request.take m :=
        mem_take_of_le hok.list ((hok.mem _).2 ⟨b, hb, hlt, rfl⟩) he (by simp only [entryOf]; omega)
      obtain ⟨hdata, hupd⟩ := hr.listed _ hmem b hb rfl
      refine ⟨fun p hp => ?_, hupd⟩
      rw [hdata]
      exact (clean_iff old b).1 (hs b hb hlt).2 p hp
  · have hother : v'.leaf b = v.leaf b := by
      apply hr.other b hb
      intro e he heb
      obtain ⟨c, -, hltc, rfl⟩ := (hok.mem e).1 (List.mem_of_mem_take he)
      have hcb : c = b := by
        simp only [entryOf] at heb
        omega
      exact hlt (hcb ▸ hltc)
    rw [hother]
    exact (hsince b hb).resolve_left hlt

/-- an entry with a number not above its predecessor's: the predecessor's number is persisted without it -/
theorem ascending_of_honest (h0 : 0 ≤ seqNum) (hv : Ready v) (hcar : Carries v.file v)
    (hbound : ∀ b < 67108864, (v.leaf b).updated ≤ seqNum)
    (hj : ∀ request, restoreRequest old seqNum = some request → EntriesUnused junk request v)
    (h : Honest junk old seqNum v) : Ascending old seqNum := by
  obtain ⟨request, hreq, hprefix, -⟩ := h
  have hok := request_ok h0 hreq
  intro b c hbc hc hltb hltc
  by_contra hle
  have hb : b < 67108864 := by omega
  obtain ⟨i, hi, hget⟩ := List.getElem_of_mem ((hok.mem _).2 ⟨b, hb, hltb, rfl⟩)
  obtain ⟨v', hv', hall⟩ := hprefix (i + 1) hi
  obtain ⟨v'', hv'', hr⟩ := restoreLoop_ok hv (hok.list.take (i + 1)) (entriesUnused_take request v _ (hj request hreq))
  obtain rfl := Option.some.inj (hv'.symm.trans hv'')
  have hlast : (request.take (i + 1)).getLast? = some (entryOf old b) := by
    rw [List.take_add_one, List.getElem?_eq_getElem hi, hget]
    exact List.getLast?_concat
  have hnum : getSequenceNumber (openVolume v'.file).vol = (old.leaf b).updated := by
    have hl := hr.last
    rw [hlast, Option.elim_some] at hl
    exact (open_carries (hr.carries hcar)).last.trans hl
  have hsame := (sameBlock_reopened (hr.carries hcar) hc _).1 (hall c hc (by rw [hnum]; omega))
  -- block c has not been restored
  have hother : v'.leaf c = v.leaf c := by
    apply hr.other c hc
    intro e he hec
    have := offset_le_last (hok.list.take (i + 1)) hlast e he
    simp only [entryOf] at this
    omega
  have hv1 := hbound c hc
  have hupd := hsame.2
  rw [hother] at hupd
  omega

theorem honest_iff (h0 : 0 ≤ seqNum) (hv : Ready v) (hcar : Carries v.file v) (hlast : getSequenceNumber v = seqNum)
    (hbound : ∀ b < 67108864, (v.leaf b).updated ≤ seqNum)
    (hsince : ∀ b < 67108864, seqNum < (old.leaf b).updated ∨ SameBlock (v.leaf b) (old.leaf b))
    (hj : ∀ request, restoreRequest old seqNum = some request → EntriesUnused junk request v) :
    Honest junk old seqNum v ↔ Sendable old seqNum ∧ Ascending old seqNum := by
  constructor
  · intro h
    have ha := ascending_of_honest h0 hv hcar hbound hj h
    refine ⟨fun b hb hlt => ?_, ha⟩
    obtain ⟨request, hreq, hprefix, -⟩ := h
    have hok := request_ok h0 hreq
    obtain ⟨v', hv', hall⟩ := hprefix request.length le_rfl
    rw [List.take_length] at hv'
    obtain ⟨v'', hv'', hr⟩ := restoreLoop_ok hv hok.list (hj request hreq)
    obtain rfl := Option.some.inj (hv'.symm.trans hv'')
    have hb' : entryOf old b ∈ request := (hok.mem _).2 ⟨b, hb, hlt, rfl⟩
    obtain ⟨e, he⟩ : ∃ e, request.getLast? = some e := by
      cases hl : request.getLast? with
      | none => rw [List.getLast?_eq_none_iff.1 hl] at hb'; cases hb'
      | some e => exact ⟨e, rfl⟩
    obtain ⟨c, hc, hltc, rfl⟩ := (hok.mem e).1 (List.mem_of_getLast? he)
    -- at the end of the loop the number covers every listed block
    have hnum : getSequenceNumber (openVolume v'.file).vol = (old.leaf c).updated := by
      have hl := hr.last
      rw [he, Option.elim_some] at hl
      exact (open_carries (hr.carries hcar)).last.trans hl
    have hbc := offset_le_last hok.list he _ hb'
    simp only [entryOf] at hbc
    have hle : (old.leaf b).updated ≤ (old.leaf c).updated := by
      rcases Nat.lt_or_eq_of_le (show b ≤ c by omega) with hlt' | rfl
      · exact (ha b c hlt' hc hlt hltc).le
      · exact le_rfl
    have hsame := (sameBlock_reopened (hr.carries hcar) hb _).1 (hall b hb (by rw [hnum]; exact hle))
    refine ⟨hok.int b hb hlt, (clean_iff old b).2 fun p hp => ?_⟩
    rw [← ((restored_block hok hr hb).1 hlt).1]
    exact hsame.1 p hp
  · rintro ⟨hs, ha⟩
    obtain ⟨request, hreq⟩ := request_exists h0 fun b hb hlt => (hs b hb hlt).1
    have hok := request_ok h0 hreq
    refine ⟨request, hreq, fun m _ => ?_, ?_⟩
    · obtain ⟨v', hv', hr⟩ := restoreLoop_ok hv (hok.list.take m) (entriesUnused_take request v m (hj request hreq))
      exact ⟨v', hv', fun b hb hle => honest_prefix hok hs ha hcar hlast hsince hr hb hle⟩
    · obtain ⟨v', hv', hr⟩ := restoreLoop_ok hv hok.list (hj request hreq)
      refine ⟨_, by rw [restore, hv']; rfl, ?_, rfl⟩
      have hseq : request.Pairwise fun e e' => e.seqNum < e'.seqNum := by
        refine hok.list.sorted.imp_of_mem fun {e e'} he he' hlt => ?_
        obtain ⟨b, hb, hltb, rfl⟩ := (hok.mem e).1 he
        obtain ⟨c, hc, hltc, rfl⟩ := (hok.mem e').1 he'
        simp only [entryOf] at hlt ⊢
        exact ha b c (by omega) hc hltb hltc
      have hgt : ∀ e ∈ request, getSequenceNumber v < e.seqNum := by
        intro e he
        obtain ⟨b, -, hltb, rfl⟩ := (hok.mem e).1 he
        rw [hlast]
        exact hltb
      change getSequenceNumber v' = maxSeq request (getSequenceNumber v)
      rw [hr.last, maxSeq_ascending hseq hgt]

end Honest

/-! ## From a run of the old tail -/

theorem opened_carries (f : File) (o : Opening) : Carries (o.call f).vol.file (o.call f).vol := by
  have hinit : ∀ v : Volume, v.file = f.write (0, FirstBlock.zero.toBlock) → v.firstBlock = FirstBlock.zero →
      Carries v.file v := by
    intro v hfile hfirst
    refine ⟨?_, ?_, fun _ _ => rfl, fun he => ?_⟩
    · rw [hfile, write_block_self, hfirst]
      exact ofBlock_toBlock_lastCommitted _
    · rw [hfile, write_block_self, Volume.committedRoot, hfirst]
      exact ofBlock_toBlock_firstLevelBlocks _
    · rw [hfile] at he
      simp only [File.write, blockSize_eq] at he
      omega
  cases o with
  | initVolume => exact hinit _ rfl rfl
  | openVolume =>
    by_cases he : (f.size + 1) / blockSize = 0
    · have hv := openVolume_empty f he
      exact hinit _ (by rw [Opening.call, hv]; rfl) (by rw [Opening.call, hv]; rfl)
    · obtain ⟨hfile, hfirst⟩ := openVolume_first f he
      simp only [Opening.call]
      refine ⟨?_, ?_, fun _ _ => rfl, fun h => absurd (hfile ▸ h) he⟩
      · rw [hfile, hfirst]
      · rw [hfile, Volume.committedRoot, hfirst]

theorem opened_ready (f : File) (o : Opening) (hf : o = .openVolume → VolumeFile f) (hc : CounterOk f o) :
    Ready (o.call f).vol :=
  ready_of_sound (sound_opened f 0 o hf hc) rfl

/-- the old tail after the operations `es` -/
abbrev tailAfter (f : File) (o : Opening) (start : ℕ) (es : List Op) : Driver :=
  run Driver.step (Driver.open start (o.call f)) es

section Integration

variable (f f' : File) (start : ℕ) (o o' : Opening) (hf : o = .openVolume → VolumeFile f) (hc : CounterOk f o)
  (hf' : o' = .openVolume → VolumeFile f') (hc' : CounterOk f' o') (es₁ es₂ : List Op)
  (hj : Meets Driver.step JunkUnused (Driver.open start (o.call f)) (es₁ ++ es₂))

include hf hc hj in
theorem unlisted_same {v : Volume}
    (hsame : ∀ b < 67108864, SameBlock (v.leaf b) ((tailAfter f o start es₁).vol.leaf b)) :
    ∀ b < 67108864,
      start + (tailAfter f o start es₁).committed < ((tailAfter f o start (es₁ ++ es₂)).vol.leaf b).updated ∨
      SameBlock (v.leaf b) ((tailAfter f o start (es₁ ++ es₂)).vol.leaf b) := by
  intro b hb
  rcases committed_since (sound_opened f start o hf hc) es₁ es₂ hj b hb with e | hlt
  · rw [e]
    exact Or.inr (hsame b hb)
  · exact Or.inl hlt

include hf hc hf' hc' hj in
/-- **Integration.** Let the old tail run `es₁` and then `es₂`, and let the joining node's committed tree be as the old
tail's after es₁. Then sender loop and `Restore` complete and leave it as the old tail's after es₂ if and only if every
listed block has an offset below 2^31 and is not pending with other bytes than the committed ones. -/
theorem integration_copies (junk : ℤ → ℕ → ℤ)
    (hsame : ∀ b < 67108864, SameBlock ((o'.call f').vol.leaf b) ((tailAfter f o start es₁).vol.leaf b))
    (hj' : ∀ request, restoreRequest (tailAfter f o start (es₁ ++ es₂)).vol
      (start + (tailAfter f o start es₁).committed) = some request → EntriesUnused junk request (o'.call f').vol) :
    Copied junk (tailAfter f o start (es₁ ++ es₂)).vol (start + (tailAfter f o start es₁).committed) (o'.call f').vol ↔
      Sendable (tailAfter f o start (es₁ ++ es₂)).vol (start + (tailAfter f o start es₁).committed) :=
  copied_iff (by omega) (opened_ready f' o' hf' hc') (unlisted_same f start o hf hc es₁ es₂ hj hsame) hj'

include hf hc hf' hc' hj in
/-- **The persisted number.** If moreover the joining node asks from its own number on, and the old tail's volume
carried no later one when it was opened, then the persisted number is honest after every entry, and agrees with the
counters at the end, if and only if the blocks read as committed and their numbers ascend in block order. -/
theorem restore_honest (junk : ℤ → ℕ → ℤ)
    (hsame : ∀ b < 67108864, SameBlock ((o'.call f').vol.leaf b) ((tailAfter f o start es₁).vol.leaf b))
    (hlast : getSequenceNumber (o'.call f').vol = start + (tailAfter f o start es₁).committed)
    (hstart : ∀ b < 67108864, ((o.call f).vol.leaf b).updated ≤ start)
    (hj' : ∀ request, restoreRequest (tailAfter f o start (es₁ ++ es₂)).vol
      (start + (tailAfter f o start es₁).committed) = some request → EntriesUnused junk request (o'.call f').vol) :
    Honest junk (tailAfter f o start (es₁ ++ es₂)).vol (start + (tailAfter f o start es₁).committed) (o'.call f').vol ↔
      Sendable (tailAfter f o start (es₁ ++ es₂)).vol (start + (tailAfter f o start es₁).committed) ∧
        Ascending (tailAfter f o start (es₁ ++ es₂)).vol (start + (tailAfter f o start es₁).committed) := by
  have hopen := sound_opened f start o hf hc
  have hb0 : Bounded (Driver.open start (o.call f)) := by
    refine ⟨hopen, fun k _ hk b hb => ?_⟩
    obtain rfl : k = 0 := by simpa [Driver.open] using hk
    have hleaf := leaf_committed hopen b
    have := hstart b hb
    simp only [Driver.open] at hleaf this ⊢
    rw [← hleaf]
    omega
  have h1 : Bounded (tailAfter f o start es₁) :=
    run_inv_of_meets Driver.step JunkUnused Bounded step_bounded _ es₁ hb0 ((meets_append _ _ _ _ _).1 hj).1
  have hst : (tailAfter f o start es₁).start = start := run_start _ es₁
  refine honest_iff (by omega) (opened_ready f' o' hf' hc') (opened_carries f' o') hlast (fun b hb => ?_)
    (unlisted_same f start o hf hc es₁ es₂ hj hsame) hj'
  rw [(hsame b hb).2, leaf_committed h1.sound, ← hst]
  exact h1.le _ le_rfl h1.sound.le b hb

end Integration

/-! ## Small runs -/

/-- the first megabyte uses no unassigned number -/
theorem entriesUnused_low {junk : ℤ → ℕ → ℤ} (es : List RestoreEntry) (v : Volume)
    (h : ∀ e ∈ es, blockOf e.offset < 256) : EntriesUnused junk es v := by
  induction es generalizing v with
  | nil => trivial
  | cons e es ih =>
    refine ⟨fun _ x hx => ?_, fun v' _ => ih v' fun e' he' => h e' (List.mem_cons_of_mem _ he')⟩
    obtain ⟨j, ⟨-, hj, hk⟩, -⟩ := hx
    have := h e List.mem_cons_self
    rcases hj with rfl | rfl <;> simp only [key] at hk <;> omega

theorem request_low {junk : ℤ → ℕ → ℤ} {old v : Volume} {seqNum : ℤ}
    (h : ∀ x ∈ modifiedEntries old seqNum, blockOf x.1 < 256) :
    ∀ request, restoreRequest old seqNum = some request → EntriesUnused junk request v := by
  intro request hreq
  apply entriesUnused_low request v
  intro e he
  unfold restoreRequest getModifiedOffsets at hreq
  split at hreq
  · simp only [Option.map_some, Option.some.injEq] at hreq
    rw [← hreq] at he
    obtain ⟨x, hx, rfl⟩ := List.mem_map.1 he
    exact h x hx
  · cases hreq

theorem leaf_new (b : ℕ) : ((Opening.initVolume.call File.new).vol.leaf b).updated = 0 := by
  have hroot : (Opening.initVolume.call File.new).vol.committedRoot = 0 := rfl
  rw [Volume.leaf, hroot, leafAt, leafUpdated, if_pos (node_null _ _ (child_zero _) _ _)]

theorem counterOk_new : CounterOk File.new .initVolume := show File.new.size < 3 * blockSize by decide

/-- a new node joins a tail that was new -/
theorem since_new (es : List Op)
    (hj : Meets Driver.step JunkUnused (Driver.open 0 (Opening.initVolume.call File.new)) es) (b : ℕ) (hb : b < 67108864) :
    0 < ((tailAfter File.new .initVolume 0 es).vol.leaf b).updated ∨
      SameBlock ((Opening.initVolume.call File.new).vol.leaf b) ((tailAfter File.new .initVolume 0 es).vol.leaf b) :=
  unlisted_same File.new 0 .initVolume (by simp) counterOk_new [] es hj (fun _ _ => ⟨fun _ _ => rfl, rfl⟩) b hb

/-- write 1 fills block 0, and block 0 only -/
def oneWrite : List Op := [secondOp, .commit]

theorem unused_oneWrite : Meets Driver.step JunkUnused (Driver.open 0 (Opening.initVolume.call File.new)) oneWrite :=
  ⟨junkUnused_secondOp _, trivial, trivial⟩

theorem listed_oneWrite : modifiedEntries (tailAfter File.new .initVolume 0 oneWrite).vol 0 = [(0, 1)] := by
  decide +kernel

theorem low_oneWrite (junk : ℤ → ℕ → ℤ) (v : Volume) (request : List RestoreEntry)
    (h : restoreRequest (tailAfter File.new .initVolume 0 oneWrite).vol 0 = some request) :
    EntriesUnused junk request v :=
  request_low (by rw [listed_oneWrite]; decide) request h

theorem integration_copies_one :
    Copied (fun _ _ => 0) (tailAfter File.new .initVolume 0 ([] ++ oneWrite)).vol
        ((0 : ℕ) + (tailAfter File.new .initVolume 0 []).committed) (Opening.initVolume.call File.new).vol ↔
      Sendable (tailAfter File.new .initVolume 0 ([] ++ oneWrite)).vol
        ((0 : ℕ) + (tailAfter File.new .initVolume 0 []).committed) :=
  integration_copies File.new File.new 0 .initVolume .initVolume (by simp) counterOk_new (by simp) counterOk_new []
    oneWrite unused_oneWrite (fun _ _ => 0) (fun _ _ => ⟨fun _ _ => rfl, rfl⟩) (low_oneWrite _ _)

theorem restore_honest_one :
    Honest (fun _ _ => 0) (tailAfter File.new .initVolume 0 ([] ++ oneWrite)).vol
        ((0 : ℕ) + (tailAfter File.new .initVolume 0 []).committed) (Opening.initVolume.call File.new).vol ↔
      Sendable (tailAfter File.new .initVolume 0 ([] ++ oneWrite)).vol
          ((0 : ℕ) + (tailAfter File.new .initVolume 0 []).committed) ∧
        Ascending (tailAfter File.new .initVolume 0 ([] ++ oneWrite)).vol
          ((0 : ℕ) + (tailAfter File.new .initVolume 0 []).committed) :=
  restore_honest File.new File.new 0 .initVolume .initVolume (by simp) counterOk_new (by simp) counterOk_new [] oneWrite
    unused_oneWrite (fun _ _ => 0) (fun _ _ => ⟨fun _ _ => rfl, rfl⟩) rfl (fun b _ => (leaf_new b).le) (low_oneWrite _ _)

/-- write 1 fills block 0 with ones and is committed, write 2 fills it with twos and is not -/
def pendingOver : List Op := [.write (fun _ => 1) (4096 * (0 : ℕ)) fun _ => 0, .commit,
  .write (fun _ => 2) (4096 * (0 : ℕ)) fun _ => 0]

theorem unused_pendingOver :
    Meets Driver.step JunkUnused (Driver.open 0 (Opening.initVolume.call File.new)) pendingOver :=
  ⟨junkUnused_low (by decide) _ _ _, trivial, junkUnused_low (by decide) _ _ _, trivial⟩

/-- **A pending write is restored.** The joining node, new as the old tail was, gets the twos of write 2 in place of the
committed ones. -/
theorem pending_write_restored : ¬ Copied (fun _ _ => 0) (tailAfter File.new .initVolume 0 pendingOver).vol 0
    (Opening.initVolume.call File.new).vol := by
  have hlist : ∀ x ∈ modifiedEntries (tailAfter File.new .initVolume 0 pendingOver).vol 0, blockOf x.1 < 256 := by
    decide +kernel
  rw [copied_iff le_rfl (opened_ready File.new .initVolume (by simp) counterOk_new) (since_new _ unused_pendingOver)
    (request_low hlist)]
  intro hs
  have hlt : 0 < ((tailAfter File.new .initVolume 0 pendingOver).vol.leaf 0).updated := by decide +kernel
  have hclean := (clean_iff _ 0).1 (hs 0 (by decide) hlt).2 0 (by decide)
  have hread : read (tailAfter File.new .initVolume 0 pendingOver).vol (4096 * (0 : ℕ)) 0 = 2 := by decide +kernel
  have hdata : ((tailAfter File.new .initVolume 0 pendingOver).vol.leaf 0).data 0 = 1 := by decide +kernel
  rw [hread, hdata] at hclean
  exact absurd hclean (by decide)

/-- write 1 fills block 1, write 2 block 0, and both are committed -/
def backwards : List Op := [.write (fun _ => 1) (4096 * (1 : ℕ)) fun _ => 0,
  .write (fun _ => 2) (4096 * (0 : ℕ)) fun _ => 0, .commit, .commit]

theorem unused_backwards :
    Meets Driver.step JunkUnused (Driver.open 0 (Opening.initVolume.call File.new)) backwards :=
  ⟨junkUnused_low (by decide) _ _ _, junkUnused_low (by decide) _ _ _, trivial, trivial, trivial⟩

/-- **The number goes up too early, and then down.** A new node gets number 2 first; a crash there leaves number 2
without write 1. At the end the volume has number 1 and the counters 2. -/
theorem restore_lowers_number :
    ¬ Honest (fun _ _ => 0) (tailAfter File.new .initVolume 0 backwards).vol 0 (Opening.initVolume.call File.new).vol ∧
      ((restoreRequest (tailAfter File.new .initVolume 0 backwards).vol 0).bind fun request =>
        (restore (fun _ _ => 0) request (Opening.initVolume.call File.new).vol).map fun r =>
          (getSequenceNumber r.vol, r.commitSeq)) = some (1, 2) := by
  have hlist : ∀ x ∈ modifiedEntries (tailAfter File.new .initVolume 0 backwards).vol 0, blockOf x.1 < 256 := by
    decide +kernel
  refine ⟨?_, by decide +kernel⟩
  rw [honest_iff le_rfl (opened_ready File.new .initVolume (by simp) counterOk_new) (opened_carries File.new .initVolume)
    rfl (fun b _ => (leaf_new b).le) (since_new _ unused_backwards) (request_low hlist)]
  rintro ⟨-, ha⟩
  have h0 : ((tailAfter File.new .initVolume 0 backwards).vol.leaf 0).updated = 2 := by decide +kernel
  have h1 : ((tailAfter File.new .initVolume 0 backwards).vol.leaf 1).updated = 1 := by decide +kernel
  have hlt := ha 0 1 (by decide) (by decide) (by rw [h0]; decide) (by rw [h1]; decide)
  rw [h0, h1] at hlt
  exact absurd hlt (by decide)

end ChainedBlockStorage.Storage
