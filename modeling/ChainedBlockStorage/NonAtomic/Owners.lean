/-
In-order runs of the non-atomic volume, and who owns a data block: the entry of a block of the volume, or one part of an
uncommitted write.

- `Owned`, `step_owned`: no number has two owners, and none with an owner is free, in every run in which no write frees
  an entry that an uncommitted write frees already.
-/
import ChainedBlockStorage.NonAtomic.Write

namespace ChainedBlockStorage.NonAtomic

open Positions
open Storage (Block Buf File Op InRange blockOf remOf Touches blockSize inRange_parts)

/-! ## The driver -/

structure Driver where
  /-- the number before the first write -/
  start : ℤ
  vol : Volume
  /-- offset and buffer of each write, oldest first -/
  writes : List (ℤ × Buf)
  /-- how many of them are committed -/
  committed : ℕ

def Driver.open (start : ℤ) (v : Volume) : Driver := ⟨start, v, [], 0⟩

/-- the number of the next write -/
def Driver.next (t : Driver) : ℤ := t.start + t.writes.length + 1

/-- the calls of `Storage/Runs`; nothing is unassigned here -/
def Driver.step (t : Driver) : Op → Driver
  | .write buf off _ =>
    if InRange off then { t with vol := write buf off t.next t.vol, writes := t.writes ++ [(off, buf)] } else t
  | .commit =>
    match t.writes[t.committed]? with
    | none => t
    | some w =>
      match commit (t.start + t.committed + 1) w.1 t.vol with
      | none => t
      | some v => { t with vol := v, committed := t.committed + 1 }

/-- the uncommitted write at position `k` -/
def Driver.uncommitted (t : Driver) (k : ℕ) : Option UncommittedWrite := t.vol.uncommittedWrites (t.start + k + 1)

def Driver.dataNum (t : Driver) (k i : ℕ) : ℤ := (t.uncommitted k).elim 0 fun uw => uw.newFileOffset i

def Driver.toFree (t : Driver) (k : ℕ) : List ℤ := (t.uncommitted k).elim [] UncommittedWrite.toFree

/-! ## Owners -/

/-- what can refer to a data block: the entry of block `b`, or part `i` of the uncommitted write at position `k` -/
inductive Owner where
  | entry (b : ℕ)
  | data (k i : ℕ)

def Driver.num (t : Driver) : Owner → ℤ
  | .entry b => entryNum t.vol.file b
  | .data k i => t.dataNum k i

def Driver.Live (t : Driver) : Owner → Prop
  | .entry b => b < 67108864 ∧ entryNum t.vol.file b ≠ 0
  | .data k i => t.committed ≤ k ∧ ∃ w, t.writes[k]? = some w ∧ Part w.1 i

/-- the numbers with an owner, and those waiting to be freed -/
def Driver.used (t : Driver) : Set ℤ := {x | (∃ o, t.Live o ∧ t.num o = x) ∨ ∃ k, x ∈ t.toFree k}

theorem entryNum_used {t : Driver} {b : ℕ} (hb : b < 67108864) (hne : entryNum t.vol.file b ≠ 0) :
    entryNum t.vol.file b ∈ t.used := Or.inl ⟨.entry b, ⟨hb, hne⟩, rfl⟩

theorem dataNum_used {t : Driver} {k i : ℕ} (hl : t.Live (.data k i)) : t.dataNum k i ∈ t.used :=
  Or.inl ⟨.data k i, hl, rfl⟩

/-- part `i` of the uncommitted write at position `k` is the last one in block `b` -/
structure LastPart (t : Driver) (b k i : ℕ) : Prop where
  live : t.Live (.data k i)
  block : ∀ w, t.writes[k]? = some w → b = blockOf w.1 + i
  last : ∀ j, k < j → ∀ w, t.writes[j]? = some w → ¬ Touches b w

/-- no number has two owners; `to_free` lists hold no number twice and none that will have an owner after the commit -/
structure Owned (t : Driver) : Prop where
  pool : t.vol.pool.Ok 262145 t.used
  le : t.committed ≤ t.writes.length
  inRange : ∀ w ∈ t.writes, InRange w.1
  some_iff : ∀ n, (∃ uw, t.vol.uncommittedWrites n = some uw) ↔
    ∃ k : ℕ, t.committed ≤ k ∧ k < t.writes.length ∧ n = t.start + k + 1
  single : ∀ k w, t.committed ≤ k → t.writes[k]? = some w → remOf w.1 = 0 → t.dataNum k 1 = 0
  inj : ∀ o o', t.Live o → t.Live o' → t.num o = t.num o' → o = o'
  freeEntry : ∀ k, ∀ x ∈ t.toFree k, ∀ b < 67108864, entryNum t.vol.file b = x → ∃ w, t.writes[k]? = some w ∧ Touches b w
  freeData : ∀ k, ∀ x ∈ t.toFree k, ∀ k' i, t.Live (.data k' i) → t.dataNum k' i ≠ x
  freeNodup : ∀ k, (t.toFree k).Nodup
  freeOnce : ∀ k k' x, x ∈ t.toFree k → x ∈ t.toFree k' → k = k'
  pending : ∀ b < 67108864, ∀ x, t.vol.pendingBlocks (4096 * (b : ℕ)) = some x → ∃ k i, LastPart t b k i ∧ x = t.dataNum k i

section Owned

variable {t : Driver}

theorem Owned.uncommitted (h : Owned t) {k : ℕ} (hc : t.committed ≤ k) (hk : k < t.writes.length) :
    ∃ uw, t.uncommitted k = some uw := (h.some_iff _).2 ⟨k, hc, hk, rfl⟩

/-- before the commits and behind the last write there is nothing -/
theorem Owned.uncommitted_eq_none (h : Owned t) {k : ℕ} (hk : k < t.committed ∨ t.writes.length ≤ k) :
    t.uncommitted k = none := by
  rw [Option.eq_none_iff_forall_ne_some]
  intro uw huw
  obtain ⟨k', hc, hw, e⟩ := (h.some_iff _).1 ⟨uw, huw⟩
  omega

/-- a list to free belongs to an uncommitted write -/
theorem Owned.toFree_lt (h : Owned t) {k : ℕ} {x : ℤ} (hx : x ∈ t.toFree k) : t.committed ≤ k ∧ k < t.writes.length := by
  by_contra hn
  rw [Driver.toFree, h.uncommitted_eq_none (by omega)] at hx
  cases hx

theorem Owned.num_low (h : Owned t) {o : Owner} (ho : t.Live o) : 262145 < t.num o :=
  (h.pool.used _ (Or.inl ⟨o, ho, rfl⟩)).1

theorem Owned.toFree_low (h : Owned t) {k : ℕ} {x : ℤ} (hx : x ∈ t.toFree k) : 262145 < x :=
  (h.pool.used x (Or.inr ⟨k, hx⟩)).1

end Owned

/-! ## A write of a run -/

structure Written (t t' : Driver) (off : ℤ) (buf : Buf) (uw : UncommittedWrite) : Prop where
  start : t'.start = t.start
  committed : t'.committed = t.committed
  writes : t'.writes = t.writes ++ [(off, buf)]
  ok : WriteOk t.used t.vol off buf t.next t'.vol uw

theorem Owned.pending_used {t : Driver} (h : Owned t) {b : ℕ} (hb : b < 67108864) {x : ℤ}
    (hx : t.vol.pendingBlocks (4096 * b) = some x ∨ entryNum t.vol.file b = x ∧ x ≠ 0) : x ∈ t.used := by
  rcases hx with hx | ⟨rfl, hne⟩
  · obtain ⟨k, i, hl, rfl⟩ := h.pending b hb x hx
    exact dataNum_used hl.live
  · exact entryNum_used hb hne

theorem step_written {t : Driver} (h : Owned t) {off : ℤ} (ho : InRange off) (buf : Buf) (junk : ℕ → ℤ) :
    ∃ uw, Written t (t.step (.write buf off junk)) off buf uw := by
  obtain ⟨uw, hw⟩ := write_ok h.pool (fun b hb x hx => h.pending_used hb hx) ho buf t.next
  refine ⟨uw, ?_⟩
  simp only [Driver.step, if_pos ho]
  exact ⟨rfl, rfl, rfl, hw⟩

section Written

variable {t t' : Driver} {off : ℤ} {buf : Buf} {uw : UncommittedWrite}

theorem Written.uncommitted_eq (hs : Written t t' off buf uw) (k : ℕ) :
    t'.uncommitted k = if k = t.writes.length then some uw else t.uncommitted k := by
  have hiff : t.start + (k : ℤ) + 1 = t.next ↔ k = t.writes.length := by
    unfold Driver.next
    omega
  simp only [Driver.uncommitted, hs.start, hs.ok.unc, hiff]

theorem Written.dataNum_eq (hs : Written t t' off buf uw) (k i : ℕ) :
    t'.dataNum k i = if k = t.writes.length then uw.newFileOffset i else t.dataNum k i := by
  rw [Driver.dataNum, hs.uncommitted_eq]
  split <;> rfl

theorem Written.toFree_eq (hs : Written t t' off buf uw) (k : ℕ) :
    t'.toFree k = if k = t.writes.length then uw.toFree else t.toFree k := by
  rw [Driver.toFree, hs.uncommitted_eq]
  split <;> rfl

/-- a write is an older one, or the new one -/
theorem Written.write (hs : Written t t' off buf uw) {k : ℕ} {w : ℤ × Buf} (hw : t'.writes[k]? = some w) :
    t.writes[k]? = some w ∧ k < t.writes.length ∨ k = t.writes.length ∧ w = (off, buf) := by
  rw [hs.writes] at hw
  exact getElem?_of_concat_lt hw

theorem Written.old (hs : Written t t' off buf uw) {k : ℕ} {w : ℤ × Buf} (hw : t.writes[k]? = some w) :
    t'.writes[k]? = some w := by
  rw [hs.writes, List.getElem?_append_left (List.getElem?_eq_some_iff.1 hw).1]
  exact hw

theorem Written.new (hs : Written t t' off buf uw) : t'.writes[t.writes.length]? = some (off, buf) := by
  rw [hs.writes]
  exact List.getElem?_concat_length

/-- a number to free is one of the new write, or of an older one -/
theorem Written.mem_toFree (hs : Written t t' off buf uw) (h : Owned t) {k : ℕ} {x : ℤ} (hx : x ∈ t'.toFree k) :
    k = t.writes.length ∧ x ∈ uw.toFree ∨ k < t.writes.length ∧ x ∈ t.toFree k := by
  rw [hs.toFree_eq] at hx
  by_cases hk : k = t.writes.length
  · rw [if_pos hk] at hx
    exact Or.inl ⟨hk, hx⟩
  · rw [if_neg hk] at hx
    exact Or.inr ⟨(h.toFree_lt hx).2, hx⟩

/-- the new numbers are behind the table -/
theorem Written.low (hs : Written t t' off buf uw) {i : ℕ} (hi : Part off i) : 262145 < uw.newFileOffset i :=
  (hs.ok.pool.used _ (Or.inr ⟨i, hi, rfl⟩)).1

/-- a write changes no block in use, and not the table -/
theorem Written.kept (hs : Written t t' off buf uw) {x : ℤ} (hx : x ∈ t.used ∨ x ≤ 262144) :
    t'.vol.file.block x = t.vol.file.block x := by
  refine hs.ok.kept x fun i hi e => ?_
  have hlow := hs.low hi
  rcases hx with hx | hx
  · exact hs.ok.fresh i hi (e ▸ hx)
  · omega

theorem Written.readMetadata_eq (hs : Written t t' off buf uw) {b : ℕ} (hb : b < 67108864) :
    readMetadata t'.vol.file (4096 * b) = readMetadata t.vol.file (4096 * b) :=
  readMetadata_frame (fun _ _ hx => hs.kept (Or.inr hx)) hb

theorem Written.entryNum_eq (hs : Written t t' off buf uw) {b : ℕ} (hb : b < 67108864) :
    entryNum t'.vol.file b = entryNum t.vol.file b := by
  rw [entryNum, hs.readMetadata_eq hb]
  rfl

/-- the owners afterwards, with their numbers: the parts of the write, and those there were -/
theorem Written.live (hs : Written t t' off buf uw) {o : Owner} (ho : t'.Live o) :
    (∃ i, Part off i ∧ o = .data t.writes.length i ∧ t'.num o = uw.newFileOffset i) ∨ t.Live o ∧ t'.num o = t.num o := by
  cases o with
  | entry b =>
    obtain ⟨hb, hne⟩ := ho
    rw [hs.entryNum_eq hb] at hne
    exact Or.inr ⟨⟨hb, hne⟩, hs.entryNum_eq hb⟩
  | data k i =>
    obtain ⟨hc, w, hw, hi⟩ := ho
    rw [hs.committed] at hc
    rcases hs.write hw with ⟨hw, hk⟩ | ⟨rfl, rfl⟩
    · exact Or.inr ⟨⟨hc, w, hw, hi⟩, by rw [Driver.num, hs.dataNum_eq, if_neg (by omega)]; rfl⟩
    · exact Or.inl ⟨i, hi, rfl, by rw [Driver.num, hs.dataNum_eq, if_pos rfl]⟩

/-- none of the blocks of the write has an entry that an uncommitted write frees already -/
def FreedOnce (t : Driver) (off : ℤ) : Prop :=
  ∀ i, Part off i → ∀ k, entryNum t.vol.file (blockOf off + i) ∉ t.toFree k

/-- what the write frees has an entry as its owner -/
theorem Written.owner (hs : Written t t' off buf uw) (ho : InRange off) {x : ℤ} (hx : x ∈ uw.toFree) :
    ∃ i, Part off i ∧ t.Live (.entry (blockOf off + i)) ∧ entryNum t.vol.file (blockOf off + i) = x := by
  obtain ⟨hne, i, hi, e⟩ := (hs.ok.toFree x).1 hx
  exact ⟨i, hi, ⟨hi.lt ho, by rw [e]; exact hne⟩, e⟩

/-- the numbers of the parts differ, from one another and from all others -/
theorem Written.inj (hs : Written t t' off buf uw) (h : Owned t) {o o' : Owner} (hl : t'.Live o) (hl' : t'.Live o')
    (e : t'.num o = t'.num o') : o = o' := by
  have hused : ∀ o, t.Live o → t.num o ∈ t.used := fun o hl => Or.inl ⟨o, hl, rfl⟩
  rcases hs.live hl with ⟨i, hi, rfl, e1⟩ | ⟨hl, e1⟩ <;> rcases hs.live hl' with ⟨i', hi', rfl, e2⟩ | ⟨hl', e2⟩ <;>
    rw [e1, e2] at e
  · rcases hi with rfl | ⟨rfl, hr⟩ <;> rcases hi' with rfl | ⟨rfl, hr'⟩
    · rfl
    · exact absurd e (hs.ok.ne hr')
    · exact absurd e.symm (hs.ok.ne hr)
    · rfl
  · exact absurd (e ▸ hused o' hl') (hs.ok.fresh i hi)
  · exact absurd (e ▸ hused o hl) (hs.ok.fresh i' hi')
  · exact h.inj o o' hl hl' e

/-- what the write frees is in use before it -/
theorem Written.toFree_used (hs : Written t t' off buf uw) (h : Owned t) (ho : InRange off) {k : ℕ} {x : ℤ}
    (hx : x ∈ t'.toFree k) : x ∈ t.used := by
  rcases hs.mem_toFree h hx with ⟨-, hu⟩ | ⟨-, hu⟩
  · obtain ⟨i, -, hl, rfl⟩ := hs.owner ho hu
    exact Or.inl ⟨_, hl, rfl⟩
  · exact Or.inr ⟨k, hu⟩

theorem Written.freeNodup (hs : Written t t' off buf uw) (h : Owned t) (ho : InRange off) : uw.toFree.Nodup := by
  refine hs.ok.nodup fun hr e => ?_
  -- two blocks of the volume never share a number
  by_contra hne
  have hlt : blockOf off + 1 < 67108864 := (inRange_parts ho).2.2.2 hr
  have hb := h.inj (.entry (blockOf off)) (.entry (blockOf off + 1)) ⟨by omega, hne⟩ ⟨hlt, e ▸ hne⟩ e
  injection hb with hb
  omega

/-- the last part in a block, afterwards: one of the write, or the one before -/
theorem Written.lastPart_new (hs : Written t t' off buf uw) (h : Owned t) {i : ℕ} (hi : Part off i) :
    LastPart t' (blockOf off + i) t.writes.length i := by
  refine ⟨⟨by rw [hs.committed]; exact h.le, (off, buf), hs.new, hi⟩, fun w hw => ?_, fun j hj w hw => ?_⟩
  · rw [hs.new, Option.some.injEq] at hw
    rw [← hw]
  · rcases hs.write hw with ⟨-, hk⟩ | ⟨hk, -⟩ <;> omega

theorem Written.lastPart_old (hs : Written t t' off buf uw) {b k i : ℕ} (hT : ¬ Touches b (off, buf))
    (hl : LastPart t b k i) : LastPart t' b k i ∧ k < t.writes.length := by
  obtain ⟨hck, w, hw, hi⟩ := hl.live
  have hk := (List.getElem?_eq_some_iff.1 hw).1
  refine ⟨⟨⟨by rw [hs.committed]; exact hck, w, hs.old hw, hi⟩, fun w' hw' => ?_, fun j hj w' hw' => ?_⟩, hk⟩
  · rcases hs.write hw' with ⟨hw', -⟩ | ⟨e, -⟩
    · exact hl.block w' hw'
    · omega
  · rcases hs.write hw' with ⟨hw', -⟩ | ⟨-, rfl⟩
    · exact hl.last j hj w' hw'
    · exact hT

theorem owned_written (h : Owned t) (ho : InRange off) (hs : Written t t' off buf uw) (hc : FreedOnce t off) :
    Owned t' := by
  have hlen : t'.writes.length = t.writes.length + 1 := by rw [hs.writes, List.length_append]; rfl
  constructor
  case pool =>
    refine hs.ok.pool.mono ?_
    rintro x (⟨o, hl, rfl⟩ | ⟨k, hx⟩)
    · rcases hs.live hl with ⟨i, hi, -, e⟩ | ⟨hl, e⟩
      · exact Or.inr ⟨i, hi, e.symm⟩
      · exact Or.inl (Or.inl ⟨o, hl, e.symm⟩)
    · exact Or.inl (hs.toFree_used h ho hx)
  case le =>
    rw [hs.committed, hlen]
    exact h.le.trans (Nat.le_succ _)
  case inRange =>
    intro w hw
    rw [hs.writes] at hw
    rcases List.mem_append.1 hw with hw | hw
    · exact h.inRange w hw
    · rw [List.mem_singleton.1 hw]
      exact ho
  case some_iff =>
    intro n
    rw [hs.ok.unc, hs.start, hs.committed, hlen]
    by_cases hn : n = t.next
    · simp only [if_pos hn, Option.some.injEq, exists_eq', true_iff]
      exact ⟨t.writes.length, h.le, Nat.lt_succ_self _, hn⟩
    · simp only [if_neg hn, h.some_iff]
      constructor
      · rintro ⟨k, hc, hk, e⟩
        exact ⟨k, hc, by omega, e⟩
      · rintro ⟨k, hc, hk, e⟩
        have hne : k ≠ t.writes.length := fun he => hn (by rw [e, he]; rfl)
        exact ⟨k, hc, by omega, e⟩
  case single =>
    intro k w hck hw hr
    rw [hs.committed] at hck
    rw [hs.dataNum_eq]
    rcases hs.write hw with ⟨hw, hk⟩ | ⟨rfl, rfl⟩
    · rw [if_neg (by omega)]
      exact h.single k w hck hw hr
    · rw [if_pos rfl]
      exact hs.ok.single hr
  case inj => exact fun o o' hl hl' e => hs.inj h hl hl' e
  case freeEntry =>
    intro k x hx b hb e
    rw [hs.entryNum_eq hb] at e
    rcases hs.mem_toFree h hx with ⟨rfl, hu⟩ | ⟨hk, hu⟩
    · obtain ⟨i, hi, hl, e'⟩ := hs.owner ho hu
      have hlb : t.Live (.entry b) := ⟨hb, by rw [e, ← e']; exact hl.2⟩
      have hbi := h.inj _ _ hlb hl (e.trans e'.symm)
      exact ⟨(off, buf), hs.new, (touches_iff_part ho buf b).2 ⟨i, hi, by injection hbi⟩⟩
    · obtain ⟨w, hw, hT⟩ := h.freeEntry k x hu b hb e
      exact ⟨w, hs.old hw, hT⟩
  case freeData =>
    intro k x hx k' i hl e
    have hxu := hs.toFree_used h ho hx
    rcases hs.live hl with ⟨i', hi', -, e1⟩ | ⟨hl, e1⟩
    · exact hs.ok.fresh i' hi' (by rw [← e1, Driver.num, e]; exact hxu)
    · have e2 : t.dataNum k' i = x := by rw [← e]; exact e1.symm
      rcases hs.mem_toFree h hx with ⟨-, hu⟩ | ⟨-, hu⟩
      · obtain ⟨j, -, hlj, e3⟩ := hs.owner ho hu
        have hne := h.inj _ _ hl hlj (e2.trans e3.symm)
        cases hne
      · exact h.freeData k x hu k' i hl e2
  case freeNodup =>
    intro k
    rw [hs.toFree_eq]
    split
    · exact hs.freeNodup h ho
    · exact h.freeNodup k
  case freeOnce =>
    intro k k' x hx hx'
    rcases hs.mem_toFree h hx with ⟨rfl, hu⟩ | ⟨hk, hu⟩ <;> rcases hs.mem_toFree h hx' with ⟨rfl, hu'⟩ | ⟨hk', hu'⟩
    · rfl
    · obtain ⟨i, hi, -, e⟩ := hs.owner ho hu
      exact absurd (e ▸ hu') (hc i hi k')
    · obtain ⟨i, hi, -, e⟩ := hs.owner ho hu'
      exact absurd (e ▸ hu) (hc i hi k)
    · exact h.freeOnce k k' x hu hu'
  case pending =>
    intro b hb x hx
    rw [hs.ok.pending] at hx
    by_cases h1 : remOf off ≠ 0 ∧ b = blockOf off + 1
    · rw [if_pos h1, Option.some.injEq] at hx
      exact ⟨_, 1, h1.2 ▸ hs.lastPart_new h (Or.inr ⟨rfl, h1.1⟩), by rw [hs.dataNum_eq, if_pos rfl, hx]⟩
    by_cases h0 : b = blockOf off
    · rw [if_neg h1, if_pos h0, Option.some.injEq] at hx
      exact ⟨_, 0, h0 ▸ hs.lastPart_new h (Or.inl rfl), by rw [hs.dataNum_eq, if_pos rfl, hx]⟩
    rw [if_neg h1, if_neg h0] at hx
    obtain ⟨k, i, hl, rfl⟩ := h.pending b hb x hx
    obtain ⟨hl', hk⟩ := hs.lastPart_old (by rw [Storage.touches_iff ho]; exact not_or.2 ⟨h0, h1⟩) hl
    exact ⟨k, i, hl', by rw [hs.dataNum_eq, if_neg (by omega)]⟩

end Written

/-! ## A commit of a run -/

structure Committed (t t' : Driver) (w : ℤ × Buf) (uw : UncommittedWrite) : Prop where
  write : t.writes[t.committed]? = some w
  uncommitted : t.uncommitted t.committed = some uw
  start : t'.start = t.start
  writes : t'.writes = t.writes
  committed : t'.committed = t.committed + 1
  unc : t'.vol.uncommittedWrites = fun n => if n = t.start + t.committed + 1 then none else t.vol.uncommittedWrites n
  pool : t'.vol.pool = t.vol.pool.give uw.toFree
  pending : ∀ b : ℕ, t'.vol.pendingBlocks (4096 * b) = if Touches b w then none else t.vol.pendingBlocks (4096 * b)
  fst : ∀ b < 67108864, b = blockOf w.1 →
    readMetadata t'.vol.file (4096 * (b : ℕ)) = ⟨t.start + t.committed + 1, uw.newFileOffset 0⟩
  snd : ∀ b < 67108864, remOf w.1 ≠ 0 → b = blockOf w.1 + 1 →
    readMetadata t'.vol.file (4096 * (b : ℕ)) = ⟨t.start + t.committed + 1, uw.newFileOffset 1⟩
  other : ∀ b < 67108864, ¬ Touches b w → readMetadata t'.vol.file (4096 * (b : ℕ)) = readMetadata t.vol.file (4096 * b)
  kept : ∀ x, 262144 < x → t'.vol.file.block x = t.vol.file.block x
  number : getSequenceNumber t'.vol = t.start + t.committed + 1

theorem readMetadata_setSequenceNum (f : File) (n : ℤ) {b : ℕ} (hb : b < 67108864) :
    readMetadata (setSequenceNum f n) (4096 * b) = readMetadata f (4096 * b) :=
  readMetadata_frame (fun x hx _ => setSequenceNum_block f n x (by omega)) hb

section Commit

variable {t : Driver}

/-- the second part of `commit` applies exactly to unaligned writes -/
theorem Owned.second_iff (h : Owned t) {w : ℤ × Buf} {uw : UncommittedWrite} (hw : t.writes[t.committed]? = some w)
    (hu : t.uncommitted t.committed = some uw) :
    uw.newFileOffset 1 ≠ 0 ∧ uw.newFileOffset 0 ≠ uw.newFileOffset 1 ↔ remOf w.1 ≠ 0 := by
  have hnum : ∀ i, t.dataNum t.committed i = uw.newFileOffset i := fun i => by rw [Driver.dataNum, hu]; rfl
  constructor
  · intro hne hr
    exact hne.1 (by rw [← hnum]; exact h.single _ w le_rfl hw hr)
  · intro hr
    have hl0 : t.Live (.data t.committed 0) := ⟨le_rfl, w, hw, Or.inl rfl⟩
    have hl1 : t.Live (.data t.committed 1) := ⟨le_rfl, w, hw, Or.inr ⟨rfl, hr⟩⟩
    have hlow := h.num_low hl1
    rw [Driver.num, hnum] at hlow
    refine ⟨by omega, fun e => ?_⟩
    have hne := h.inj _ _ hl0 hl1 (by rw [Driver.num, Driver.num, hnum, hnum, e])
    injection hne with _ hi
    cases hi

theorem committed_aligned (h : Owned t) {w : ℤ × Buf} {uw : UncommittedWrite} (hw : t.writes[t.committed]? = some w)
    (hu : t.uncommitted t.committed = some uw) (hr : remOf w.1 = 0) : Committed t (t.step .commit) w uw := by
  have ho : InRange w.1 := h.inRange w (List.mem_of_getElem? hw)
  obtain ⟨-, -, hb0, -⟩ := inRange_parts ho
  have htouch : ∀ b, Touches b w ↔ b = blockOf w.1 ∨ remOf w.1 ≠ 0 ∧ b = blockOf w.1 + 1 := Storage.touches_iff ho w.2
  have hone : ¬ (uw.newFileOffset 1 ≠ 0 ∧ uw.newFileOffset 0 ≠ uw.newFileOffset 1) := fun hc =>
    (h.second_iff hw hu).1 hc hr
  rw [Driver.uncommitted] at hu
  simp only [Driver.step, hw, commit, hu, if_neg hone, Storage.blockSize_eq, Nat.cast_ofNat, Storage.inRange_tmod ho,
    Storage.inRange_base ho]
  constructor
  case pending =>
    intro b
    simp only [switchEntry_pending, htouch, hr, ne_eq, not_true_eq_false, false_and, or_false]
  case fst =>
    intro b hb e
    simp only [readMetadata_setSequenceNum _ _ hb, switchEntry_entry, if_pos e]
  case snd => exact fun _ _ hne => absurd hr hne
  case other =>
    intro b hb hT
    rw [htouch, not_or] at hT
    simp only [readMetadata_setSequenceNum _ _ hb, switchEntry_entry, if_neg hT.1]
  case kept =>
    intro x hx
    rw [setSequenceNum_block _ _ x (by omega), switchEntry_block _ hb0 _ hx]
  case number => exact readSequenceNum_set _ _
  all_goals first | exact hw | exact hu | rfl

theorem committed_unaligned (h : Owned t) {w : ℤ × Buf} {uw : UncommittedWrite} (hw : t.writes[t.committed]? = some w)
    (hu : t.uncommitted t.committed = some uw) (hr : remOf w.1 ≠ 0) : Committed t (t.step .commit) w uw := by
  have ho : InRange w.1 := h.inRange w (List.mem_of_getElem? hw)
  obtain ⟨-, -, hb0, hb1⟩ := inRange_parts ho
  have htouch : ∀ b, Touches b w ↔ b = blockOf w.1 ∨ remOf w.1 ≠ 0 ∧ b = blockOf w.1 + 1 := Storage.touches_iff ho w.2
  have htwo := (h.second_iff hw hu).2 hr
  rw [Driver.uncommitted] at hu
  simp only [Driver.step, hw, commit, hu, if_pos htwo, Storage.blockSize_eq, Nat.cast_ofNat, Storage.inRange_tmod ho,
    Storage.inRange_base ho, Storage.block_next]
  constructor
  case pending =>
    intro b
    simp only [switchEntry_pending, htouch, hr, ne_eq, not_false_eq_true, true_and]
    by_cases h0 : b = blockOf w.1 <;> by_cases h1 : b = blockOf w.1 + 1 <;> simp [h0, h1]
  case fst =>
    intro b hb e
    have hne : ¬ b = blockOf w.1 + 1 := by omega
    simp only [readMetadata_setSequenceNum _ _ hb, switchEntry_entry, if_neg hne, if_pos e]
  case snd =>
    intro b hb _ e
    simp only [readMetadata_setSequenceNum _ _ hb, switchEntry_entry, if_pos e]
  case other =>
    intro b hb hT
    rw [htouch, not_or] at hT
    have h1 : ¬ b = blockOf w.1 + 1 := fun e => hT.2 ⟨hr, e⟩
    simp only [readMetadata_setSequenceNum _ _ hb, switchEntry_entry, if_neg hT.1, if_neg h1]
  case kept =>
    intro x hx
    rw [setSequenceNum_block _ _ x (by omega), switchEntry_block _ (hb1 hr) _ hx, switchEntry_block _ hb0 _ hx]
  case number => exact readSequenceNum_set _ _
  all_goals first | exact hw | exact hu | rfl

theorem step_committed (h : Owned t) :
    (t.committed = t.writes.length ∧ t.step .commit = t) ∨ ∃ w uw, Committed t (t.step .commit) w uw := by
  rcases Nat.lt_or_ge t.committed t.writes.length with hlt | hge
  · obtain ⟨uw, hu⟩ := h.uncommitted le_rfl hlt
    have hw : t.writes[t.committed]? = some t.writes[t.committed] := List.getElem?_eq_getElem hlt
    refine Or.inr ⟨t.writes[t.committed], uw, ?_⟩
    by_cases hr : remOf t.writes[t.committed].1 = 0
    · exact committed_aligned h hw hu hr
    · exact committed_unaligned h hw hu hr
  · refine Or.inl ⟨le_antisymm h.le hge, ?_⟩
    simp only [Driver.step, List.getElem?_eq_none hge]

end Commit

section Committed

variable {t t' : Driver} {w : ℤ × Buf} {uw : UncommittedWrite}

theorem Committed.lt (hs : Committed t t' w uw) : t.committed < t.writes.length := (List.getElem?_eq_some_iff.1 hs.write).1

theorem Committed.uncommitted_eq (hs : Committed t t' w uw) (k : ℕ) :
    t'.uncommitted k = if k = t.committed then none else t.uncommitted k := by
  have hiff : t.start + (k : ℤ) + 1 = t.start + t.committed + 1 ↔ k = t.committed := by omega
  simp only [Driver.uncommitted, hs.start, hs.unc, hiff]

theorem Committed.dataNum_eq (hs : Committed t t' w uw) {k : ℕ} (hk : k ≠ t.committed) (i : ℕ) :
    t'.dataNum k i = t.dataNum k i := by
  rw [Driver.dataNum, hs.uncommitted_eq, if_neg hk]
  rfl

theorem Committed.mem_toFree (hs : Committed t t' w uw) {k : ℕ} {x : ℤ} (hx : x ∈ t'.toFree k) :
    k ≠ t.committed ∧ x ∈ t.toFree k := by
  rw [Driver.toFree, hs.uncommitted_eq] at hx
  by_cases hk : k = t.committed
  · rw [if_pos hk] at hx
    cases hx
  · rw [if_neg hk] at hx
    exact ⟨hk, hx⟩

/-- the entries of the blocks of the write are its data blocks now -/
theorem Committed.entryNum_part (hs : Committed t t' w uw) (ho : InRange w.1) {i : ℕ} (hi : Part w.1 i) :
    entryNum t'.vol.file (blockOf w.1 + i) = t.dataNum t.committed i := by
  have hlt := hi.lt ho
  rw [Driver.dataNum, hs.uncommitted]
  rcases hi with rfl | ⟨rfl, hr⟩
  · rw [entryNum, hs.fst _ hlt rfl]
    rfl
  · rw [entryNum, hs.snd _ hlt hr rfl]
    rfl

theorem Committed.entryNum_other (hs : Committed t t' w uw) {b : ℕ} (hb : b < 67108864) (hT : ¬ Touches b w) :
    entryNum t'.vol.file b = entryNum t.vol.file b := by
  rw [entryNum, hs.other b hb hT]
  rfl

/-- an owner afterwards and the one that had its number before -/
inductive Passed (t : Driver) (w : ℤ × Buf) : Owner → Owner → Prop
  | part {i : ℕ} (hi : Part w.1 i) : Passed t w (.entry (blockOf w.1 + i)) (.data t.committed i)
  | entry {b : ℕ} (hT : ¬ Touches b w) : Passed t w (.entry b) (.entry b)
  | data {k i : ℕ} (hk : t.committed < k) : Passed t w (.data k i) (.data k i)

theorem Committed.passed (hs : Committed t t' w uw) (ho : InRange w.1) {o : Owner} (hl : t'.Live o) :
    ∃ o₀, Passed t w o o₀ ∧ t.Live o₀ ∧ t'.num o = t.num o₀ := by
  cases o with
  | entry b =>
    obtain ⟨hb, hne⟩ := hl
    by_cases hT : Touches b w
    · obtain ⟨i, hi, rfl⟩ := (touches_iff_part ho w.2 b).1 hT
      exact ⟨_, .part hi, ⟨le_rfl, w, hs.write, hi⟩, hs.entryNum_part ho hi⟩
    · have e := hs.entryNum_other hb hT
      exact ⟨_, .entry hT, ⟨hb, by rw [← e]; exact hne⟩, e⟩
  | data k i =>
    obtain ⟨hc, x, hx, hi⟩ := hl
    rw [hs.committed] at hc
    rw [hs.writes] at hx
    exact ⟨_, .data (by omega), ⟨by omega, x, hx, hi⟩, hs.dataNum_eq (by omega) i⟩

/-- no two owners come from one -/
theorem Passed.inj {o o' o₀ : Owner} (h : Passed t w o o₀) (h' : Passed t w o' o₀) : o = o' := by
  cases h with
  | part hi =>
    cases h' with
    | part hi' => rfl
    | data hk => omega
  | entry hT =>
    cases h'
    rfl
  | data hk =>
    cases h' with
    | part hi => omega
    | data hk' => rfl

theorem owned_committed (h : Owned t) (hs : Committed t t' w uw) : Owned t' := by
  have ho : InRange w.1 := h.inRange w (List.mem_of_getElem? hs.write)
  have hlt := hs.lt
  have hfree : t.toFree t.committed = uw.toFree := by rw [Driver.toFree, hs.uncommitted]; rfl
  constructor
  case pool =>
    rw [hs.pool, ← hfree]
    refine (h.pool.give (h.freeNodup _) fun x hx => Or.inr ⟨_, hx⟩).mono ?_
    rintro x (⟨o, hl, rfl⟩ | ⟨k, hx⟩)
    · obtain ⟨o₀, hp, hl₀, e⟩ := hs.passed ho hl
      refine ⟨Or.inl ⟨o₀, hl₀, e.symm⟩, fun hx => ?_⟩
      change t'.num o ∈ t.toFree t.committed at hx
      rw [e] at hx
      cases hp with
      | part hi => exact h.freeData _ _ hx _ _ hl₀ rfl
      | entry hT =>
        obtain ⟨w', hw', hT'⟩ := h.freeEntry _ _ hx _ hl₀.1 rfl
        rw [hs.write, Option.some.injEq] at hw'
        exact hT (hw' ▸ hT')
      | data hk => exact h.freeData _ _ hx _ _ hl₀ rfl
    · obtain ⟨hk, hx⟩ := hs.mem_toFree hx
      exact ⟨Or.inr ⟨k, hx⟩, fun hx' => hk (h.freeOnce _ _ x hx hx')⟩
  case le =>
    rw [hs.committed, hs.writes]
    exact hlt
  case inRange =>
    rw [hs.writes]
    exact h.inRange
  case some_iff =>
    intro n
    rw [hs.unc, hs.start, hs.committed, hs.writes]
    by_cases hn : n = t.start + t.committed + 1
    · simp only [if_pos hn, reduceCtorEq, exists_false, false_iff]
      rintro ⟨k, hc, hk, e⟩
      omega
    · simp only [if_neg hn, h.some_iff]
      constructor
      · rintro ⟨k, hc, hk, e⟩
        exact ⟨k, by omega, hk, e⟩
      · rintro ⟨k, hc, hk, e⟩
        exact ⟨k, by omega, hk, e⟩
  case single =>
    intro k x hc hx hr
    rw [hs.committed] at hc
    rw [hs.writes] at hx
    rw [hs.dataNum_eq (by omega)]
    exact h.single k x (by omega) hx hr
  case inj =>
    intro o o' hl hl' e
    obtain ⟨o₀, hp, hl₀, e₀⟩ := hs.passed ho hl
    obtain ⟨o₁, hp', hl₁, e₁⟩ := hs.passed ho hl'
    have heq := h.inj _ _ hl₀ hl₁ (by rw [← e₀, ← e₁, e])
    exact hp.inj (heq ▸ hp')
  case freeEntry =>
    intro k x hx b hb e
    obtain ⟨hk, hx⟩ := hs.mem_toFree hx
    rw [hs.writes]
    by_cases hT : Touches b w
    · obtain ⟨i, hi, rfl⟩ := (touches_iff_part ho w.2 b).1 hT
      rw [hs.entryNum_part ho hi] at e
      exact absurd e (h.freeData k x hx _ i ⟨le_rfl, w, hs.write, hi⟩)
    · rw [hs.entryNum_other hb hT] at e
      exact h.freeEntry k x hx b hb e
  case freeData =>
    intro k x hx k' i hl e
    obtain ⟨-, hx⟩ := hs.mem_toFree hx
    obtain ⟨hc, w', hw', hi⟩ := hl
    rw [hs.committed] at hc
    rw [hs.writes] at hw'
    rw [hs.dataNum_eq (by omega)] at e
    exact h.freeData k x hx k' i ⟨by omega, w', hw', hi⟩ e
  case freeNodup =>
    intro k
    rw [Driver.toFree, hs.uncommitted_eq]
    split
    · exact List.nodup_nil
    · exact h.freeNodup k
  case freeOnce => exact fun k k' x hx hx' => h.freeOnce k k' x (hs.mem_toFree hx).2 (hs.mem_toFree hx').2
  case pending =>
    intro b hb x hx
    rw [hs.pending] at hx
    by_cases hT : Touches b w
    · rw [if_pos hT] at hx
      cases hx
    rw [if_neg hT] at hx
    obtain ⟨k, i, hl, rfl⟩ := h.pending b hb x hx
    obtain ⟨hc, w', hw', hi⟩ := hl.live
    -- not the write that is committed, since it has a part in block b
    have hk : k ≠ t.committed := by
      rintro rfl
      rw [hs.write, Option.some.injEq] at hw'
      subst hw'
      exact hT ((touches_iff_part ho w.2 b).2 ⟨i, hi, hl.block w hs.write⟩)
    refine ⟨k, i, ⟨⟨by rw [hs.committed]; omega, w', by rw [hs.writes]; exact hw', hi⟩, ?_, ?_⟩, (hs.dataNum_eq hk i).symm⟩
    · rw [hs.writes]
      exact hl.block
    · rw [hs.writes]
      exact hl.last

end Committed

/-! ## Runs -/

/-- a write frees nothing that an uncommitted one frees already -/
def NoDoubleFree (t : Driver) : Op → Prop
  | .write _ off _ => InRange off → FreedOnce t off
  | .commit => True

theorem step_owned (t : Driver) (op : Op) (h : Owned t) (hc : NoDoubleFree t op) : Owned (t.step op) := by
  cases op with
  | write buf off junk =>
    by_cases ho : InRange off
    · obtain ⟨uw, hs⟩ := step_written h ho buf junk
      exact owned_written h ho hs (hc ho)
    · simp only [Driver.step, if_neg ho]
      exact h
  | commit =>
    rcases step_committed h with ⟨-, e⟩ | ⟨w, uw, hs⟩
    · rw [e]
      exact h
    · exact owned_committed h hs

/-- after `init_volume` on a new file -/
def Driver.new (start : ℤ) : Driver := Driver.open start (initVolume File.new)

theorem entryNum_new (start : ℤ) {b : ℕ} (hb : b < 67108864) : entryNum (Driver.new start).vol.file b = 0 := by
  have hne : ¬ (1 + (b / 256 : ℕ) : ℤ) = 0 := by omega
  rw [entryNum, readMetadata_block, Driver.new, Driver.open, initVolume_new]
  simp only [if_neg hne, Block.fileBlockNum, Storage.asWords_zero]

theorem owned_new (start : ℤ) : Owned (Driver.new start) := by
  have hvol : (Driver.new start).vol.freeBlocks = [] ∧ (Driver.new start).vol.numTotalBlocks = 262145 := by
    rw [Driver.new, Driver.open, initVolume_new]
    exact ⟨rfl, rfl⟩
  have hlive : ∀ o, ¬ (Driver.new start).Live o := by
    rintro (b | ⟨k, i⟩)
    · rintro ⟨hb, hne⟩
      exact hne (entryNum_new start hb)
    · rintro ⟨-, w, hw, -⟩
      cases hw
  have hfree : ∀ k, (Driver.new start).toFree k = [] := fun _ => rfl
  constructor
  case pool =>
    refine ⟨?_, ?_, ?_, ?_⟩
    · rw [Volume.pool, hvol.1]
      exact List.nodup_nil
    · rw [Volume.pool, hvol.1]
      simp
    · rintro x (⟨o, hl, -⟩ | ⟨k, hx⟩)
      · exact absurd hl (hlive o)
      · cases hx
    · rw [Volume.pool, hvol.2]
  case le => exact le_rfl
  case inRange => exact fun w hw => absurd hw List.not_mem_nil
  case some_iff =>
    intro n
    constructor
    · rintro ⟨uw, huw⟩
      cases huw
    · rintro ⟨k, -, hk, -⟩
      cases hk
  case single => exact fun k w _ hw _ => by cases hw
  case inj => exact fun o _ hl _ _ => absurd hl (hlive o)
  case freeEntry => exact fun k x hx _ _ _ => by cases hx
  case freeData => exact fun k x hx _ _ _ => by cases hx
  case freeNodup => exact fun _ => List.nodup_nil
  case freeOnce => exact fun k k' x hx _ => by cases hx
  case pending => exact fun b _ x hx => by cases hx

end ChainedBlockStorage.NonAtomic
