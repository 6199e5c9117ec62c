/-
The replay log (`replayLog.cpp`): for every client `ip:pid`, the timestamps it has seen with a committed flag.

A log is read through `flag? c t`, the flag of timestamp `t` of client `c`, and `tooOld`. The three calls are specified
by their return code and by `flag?` afterwards:

- `addToLog_zero`, `addToLog_neg`: 0 adds an uncommitted entry; a negative code leaves the log alone. It is -2 exactly
  for `tooOld`, and otherwise -1 exactly when the entry is there (`addToLog_code`).
- `ackLogEntry_zero`, `ackLogEntry_ne`: 0 removes a committed entry; any other code leaves the log alone.
- `commitLogEntry_flag?`: sets the flag of an entry that is there.
- `addToLog_of_later`: a request that is later than all its client has in the log is accepted.

A call is one step: the locks of `replayLog.cpp` cover the look-up and the change together, but for the test for a
timestamp that is too old, which `addToLog` makes before it takes the lock. `beforeLock` and `insertTimestamp` are its
two parts, and `addToLog_eq` puts them together.
-/
import Mathlib.Data.List.AList
import ChainedBlockStorage.Core.Sorted
import ChainedBlockStorage.Chain.Messages

namespace ChainedBlockStorage.Tables

open Chain

/-- `replayLogEntry::timestamp_list` -/
abbrev TimestampList := Sorted (Prod.fst : Timestamp × Bool → Timestamp)

structure ReplayLog where
  clientList : AList fun _ : String => TimestampList

namespace ReplayLog

def empty : ReplayLog := ⟨∅⟩

/-- the committed flag of an entry -/
def flag? (L : ReplayLog) (c : String) (t : Timestamp) : Option Bool :=
  (L.clientList.lookup c).bind fun l => (l.find? t).map Prod.snd

@[simp] theorem flag?_empty (c : String) (t : Timestamp) : empty.flag? c t = none := by
  simp [empty, flag?]

/-- `googleTimestampComparator` on the request and the smallest timestamp of its client -/
def tooOld (L : ReplayLog) (r : ClientRequestId) : Bool :=
  match (L.clientList.lookup r.identifier).bind Sorted.first? with
  | some e => r.timestamp < e.1
  | none => false

/-- store a client's list -/
def setClient (L : ReplayLog) (c : String) (l : TimestampList) : ReplayLog := ⟨L.clientList.insert c l⟩

/-- 0 if the request is good and an entry is added, -1 if the entry already exists, -2 if the request is too old -/
def addToLog (L : ReplayLog) (r : ClientRequestId) : ℤ × ReplayLog :=
  match L.clientList.lookup r.identifier with
  | none => (0, L.setClient r.identifier (Sorted.empty.insert (r.timestamp, false)))
  | some l =>
    if L.tooOld r then (-2, L)
    else match l.find? r.timestamp with
      | none => (0, L.setClient r.identifier (l.insert (r.timestamp, false)))
      | some _ => (-1, L)

/-- `addToLog` up to `client_entry_mutex.lock()`: what it answers, unless it comes to the lock -/
def beforeLock (L : ReplayLog) (r : ClientRequestId) : Option (ℤ × ReplayLog) :=
  match L.clientList.lookup r.identifier with
  | none => some (0, L.setClient r.identifier (Sorted.empty.insert (r.timestamp, false)))
  | some _ => if L.tooOld r then some (-2, L) else none

/-- `addToLog` under that lock; the client has a list by then -/
def insertTimestamp (L : ReplayLog) (r : ClientRequestId) : ℤ × ReplayLog :=
  let l := (L.clientList.lookup r.identifier).getD Sorted.empty
  match l.find? r.timestamp with
  | none => (0, L.setClient r.identifier (l.insert (r.timestamp, false)))
  | some _ => (-1, L)

/-- 0 if a committed entry is removed, -1 if there is no entry, -2 if it is not yet committed -/
def ackLogEntry (L : ReplayLog) (r : ClientRequestId) : ℤ × ReplayLog :=
  match L.clientList.lookup r.identifier with
  | none => (-1, L)
  | some l =>
    match l.find? r.timestamp with
    | none => (-1, L)
    | some e => if e.2 then (0, L.setClient r.identifier (l.erase r.timestamp)) else (-2, L)

/-- 0 if an uncommitted entry exists, -1 if there is no entry, -2 if it is already committed -/
def commitLogEntry (L : ReplayLog) (r : ClientRequestId) : ℤ × ReplayLog :=
  match L.clientList.lookup r.identifier with
  | none => (-1, L)
  | some l =>
    match l.find? r.timestamp with
    | none => (-1, L)
    | some e =>
      if e.2 then (-2, L)
      else (0, L.setClient r.identifier ((l.erase r.timestamp).insert (r.timestamp, true)))

/-! ## One client's list -/

theorem find?_insert (l : TimestampList) (t : Timestamp) (b : Bool) (h : l.find? t = none) (u : Timestamp) :
    (l.insert (t, b)).find? u = if u = t then some (t, b) else l.find? u := by
  rw [Sorted.find?_eq_none] at h
  split_ifs with hu
  · subst hu
    exact Sorted.find?_eq_some.2 ⟨Sorted.mem_insert.2 (Or.inr ⟨rfl, h⟩), rfl⟩
  · cases hl : l.find? u with
    | none =>
      rw [Sorted.find?_eq_none] at hl ⊢
      intro a ha
      rcases Sorted.mem_insert.1 ha with ha | ⟨rfl, -⟩
      · exact hl a ha
      · exact Ne.symm hu
    | some a =>
      rw [Sorted.find?_eq_some] at hl ⊢
      exact ⟨Sorted.mem_insert.2 (Or.inl hl.1), hl.2⟩

theorem find?_erase (l : TimestampList) (t u : Timestamp) :
    (l.erase t).find? u = if u = t then none else l.find? u := by
  split_ifs with hu
  · subst hu
    exact Sorted.find?_eq_none.2 fun a ha => (Sorted.mem_erase.1 ha).2
  · cases hl : l.find? u with
    | none =>
      rw [Sorted.find?_eq_none] at hl ⊢
      exact fun a ha => hl a (Sorted.mem_erase.1 ha).1
    | some a =>
      rw [Sorted.find?_eq_some] at hl ⊢
      exact ⟨Sorted.mem_erase.2 ⟨hl.1, by rw [hl.2]; exact hu⟩, hl.2⟩

/-! ## The log through `flag?` -/

/-- a list that differs from the client's list at one timestamp gives a log that differs at that entry -/
theorem flag?_setClient {L : ReplayLog} {d : String} {l l' : TimestampList} {s : Timestamp}
    {x : Option (Timestamp × Bool)} (hl : ∀ u, L.flag? d u = (l.find? u).map Prod.snd)
    (h : ∀ u, l'.find? u = if u = s then x else l.find? u) (c : String) (t : Timestamp) :
    (L.setClient d l').flag? c t = if c = d ∧ t = s then x.map Prod.snd else L.flag? c t := by
  by_cases hc : c = d
  · subst hc
    have : (L.setClient c l').flag? c t = (l'.find? t).map Prod.snd := by simp [setClient, flag?]
    rw [this, h, hl]
    by_cases ht : t = s <;> simp [ht]
  · simp [setClient, flag?, AList.lookup_insert_ne hc, hc]

theorem flag?_of_lookup {L : ReplayLog} {c : String} {l : TimestampList} (h : L.clientList.lookup c = some l)
    (t : Timestamp) : L.flag? c t = (l.find? t).map Prod.snd := by
  simp [flag?, h]

theorem flag?_of_lookup_none {L : ReplayLog} {c : String} (h : L.clientList.lookup c = none) (t : Timestamp) :
    L.flag? c t = none := by
  simp [flag?, h]

/-- too old: the client has entries and they are all later -/
theorem tooOld_iff (L : ReplayLog) (r : ClientRequestId) :
    L.tooOld r = true ↔ (∃ t, (L.flag? r.identifier t).isSome) ∧
      ∀ t, (L.flag? r.identifier t).isSome → r.timestamp < t := by
  cases hl : L.clientList.lookup r.identifier with
  | none => simp [tooOld, hl, flag?_of_lookup_none hl]
  | some l =>
    have hsome : ∀ t, (L.flag? r.identifier t).isSome ↔ ∃ e ∈ l, e.1 = t := by
      intro t
      rw [flag?_of_lookup hl, Option.isSome_map, Option.isSome_iff_exists]
      simp only [Sorted.find?_eq_some]
    simp only [hsome, tooOld, hl, Option.bind_some]
    cases hf : l.first? with
    | none =>
      rw [Sorted.first?_eq_none] at hf
      simp only [Bool.false_eq_true, false_iff, not_and]
      rintro ⟨t, e, he, -⟩
      exact absurd he (hf e)
    | some e =>
      obtain ⟨he, hmin⟩ := Sorted.first?_eq_some hf
      simp only [decide_eq_true_eq]
      constructor
      · intro hlt
        refine ⟨⟨e.1, e, he, rfl⟩, ?_⟩
        rintro t ⟨d, hd, rfl⟩
        exact hlt.trans_le (hmin d hd)
      · rintro ⟨-, h⟩
        exact h e.1 ⟨e, he, rfl⟩

/-- the return code of `addToLog` -/
theorem addToLog_code (L : ReplayLog) (r : ClientRequestId) :
    (L.addToLog r).1 = if L.tooOld r then -2 else if (L.flag? r.identifier r.timestamp).isSome then -1 else 0 := by
  cases hl : L.clientList.lookup r.identifier with
  | none => simp [addToLog, tooOld, hl, flag?_of_lookup_none hl]
  | some l =>
    simp only [addToLog, hl, flag?_of_lookup hl]
    by_cases ht : L.tooOld r
    · simp [ht]
    · cases hf : l.find? r.timestamp <;> simp [ht]

/-- **A negative code changes nothing.** -/
theorem addToLog_neg (L : ReplayLog) (r : ClientRequestId) (h : (L.addToLog r).1 < 0) : (L.addToLog r).2 = L := by
  cases hl : L.clientList.lookup r.identifier with
  | none => simp [addToLog, hl] at h
  | some l =>
    by_cases ht : L.tooOld r
    · simp [addToLog, hl, ht]
    · cases hf : l.find? r.timestamp with
      | none => simp [addToLog, hl, ht, hf] at h
      | some e => simp [addToLog, hl, ht, hf]

/-- **Code 0 adds an uncommitted entry.** -/
theorem addToLog_zero (L : ReplayLog) (r : ClientRequestId) (h : ¬ (L.addToLog r).1 < 0) (c : String) (t : Timestamp) :
    (L.addToLog r).2.flag? c t =
      if c = r.identifier ∧ t = r.timestamp then some false else L.flag? c t := by
  cases hl : L.clientList.lookup r.identifier with
  | none =>
    have he : ∀ u, (Sorted.empty : TimestampList).find? u = none := by simp [Sorted.find?_eq_none]
    have hL : ∀ u, L.flag? r.identifier u = ((Sorted.empty : TimestampList).find? u).map Prod.snd := by
      simp [he, flag?_of_lookup_none hl]
    simp only [addToLog, hl]
    exact flag?_setClient hL (find?_insert _ _ _ (he _)) c t
  | some l =>
    by_cases ht : L.tooOld r
    · simp [addToLog, hl, ht] at h
    · cases hf : l.find? r.timestamp with
      | some e => simp [addToLog, hl, ht, hf] at h
      | none =>
        simp only [addToLog, hl, ht, hf]
        exact flag?_setClient (flag?_of_lookup hl) (find?_insert _ _ _ hf) c t

/-- **`addToLog` is its two parts**, with nothing in between. -/
theorem addToLog_eq (L : ReplayLog) (r : ClientRequestId) :
    L.addToLog r = (L.beforeLock r).getD (L.insertTimestamp r) := by
  cases hl : L.clientList.lookup r.identifier with
  | none => simp [addToLog, beforeLock, hl]
  | some l =>
    by_cases ht : L.tooOld r
    · simp [addToLog, beforeLock, hl, ht]
    · cases hf : l.find? r.timestamp <;> simp [addToLog, beforeLock, insertTimestamp, hl, ht, hf]

/-- the insert is negative exactly for an entry that is there -/
theorem insertTimestamp_neg_iff (L : ReplayLog) (r : ClientRequestId) :
    (L.insertTimestamp r).1 < 0 ↔ (L.flag? r.identifier r.timestamp).isSome := by
  cases hl : L.clientList.lookup r.identifier with
  | none => simp [insertTimestamp, hl, flag?_of_lookup_none hl, Sorted.find?_eq_none.2]
  | some l => cases hf : l.find? r.timestamp <;> simp [insertTimestamp, hl, flag?_of_lookup hl, hf]

theorem insertTimestamp_neg (L : ReplayLog) (r : ClientRequestId) (h : (L.insertTimestamp r).1 < 0) :
    (L.insertTimestamp r).2 = L := by
  unfold insertTimestamp at h ⊢
  dsimp only at h ⊢
  cases hf : ((L.clientList.lookup r.identifier).getD Sorted.empty).find? r.timestamp with
  | none => simp [hf] at h
  | some e => rfl

theorem insertTimestamp_zero (L : ReplayLog) (r : ClientRequestId) (h : ¬ (L.insertTimestamp r).1 < 0) (c : String)
    (t : Timestamp) : (L.insertTimestamp r).2.flag? c t =
      if c = r.identifier ∧ t = r.timestamp then some false else L.flag? c t := by
  have hL : ∀ u, L.flag? r.identifier u =
      (((L.clientList.lookup r.identifier).getD Sorted.empty).find? u).map Prod.snd := by
    cases hl : L.clientList.lookup r.identifier with
    | none => simp [flag?_of_lookup_none hl, Sorted.find?_eq_none.2]
    | some l => exact flag?_of_lookup hl
  unfold insertTimestamp at h ⊢
  dsimp only at h ⊢
  cases hf : ((L.clientList.lookup r.identifier).getD Sorted.empty).find? r.timestamp with
  | none => exact flag?_setClient hL (find?_insert _ _ _ hf) c t
  | some e => simp [hf] at h

/-- the insert loses no entry -/
theorem insertTimestamp_isSome (L : ReplayLog) (r : ClientRequestId) {c : String} {t : Timestamp}
    (h : (L.flag? c t).isSome) : ((L.insertTimestamp r).2.flag? c t).isSome := by
  by_cases hr : (L.insertTimestamp r).1 < 0
  · rwa [insertTimestamp_neg L r hr]
  · rw [insertTimestamp_zero L r hr]
    split_ifs
    · rfl
    · exact h

/-- after the insert the entry is there, whatever the code -/
theorem insertTimestamp_self (L : ReplayLog) (r : ClientRequestId) :
    ((L.insertTimestamp r).2.flag? r.identifier r.timestamp).isSome := by
  by_cases hr : (L.insertTimestamp r).1 < 0
  · exact insertTimestamp_isSome L r ((insertTimestamp_neg_iff L r).1 hr)
  · rw [insertTimestamp_zero L r hr, if_pos ⟨rfl, rfl⟩]
    rfl

/-- the code of `ackLogEntry` is 0 exactly for a committed entry -/
theorem ackLogEntry_code (L : ReplayLog) (r : ClientRequestId) :
    (L.ackLogEntry r).1 = 0 ↔ L.flag? r.identifier r.timestamp = some true := by
  cases hl : L.clientList.lookup r.identifier with
  | none => simp [ackLogEntry, hl, flag?_of_lookup_none hl]
  | some l =>
    rw [flag?_of_lookup hl]
    cases hf : l.find? r.timestamp with
    | none => simp [ackLogEntry, hl, hf]
    | some e => cases he : e.2 <;> simp [ackLogEntry, hl, hf, he]

/-- **Any other code leaves the log alone.** -/
theorem ackLogEntry_ne (L : ReplayLog) (r : ClientRequestId) (h : (L.ackLogEntry r).1 ≠ 0) :
    (L.ackLogEntry r).2 = L := by
  cases hl : L.clientList.lookup r.identifier with
  | none => simp [ackLogEntry, hl]
  | some l =>
    cases hf : l.find? r.timestamp with
    | none => simp [ackLogEntry, hl, hf]
    | some e =>
      cases he : e.2 with
      | true => simp [ackLogEntry, hl, hf, he] at h
      | false => simp [ackLogEntry, hl, hf, he]

/-- **Code 0 removes the entry.** -/
theorem ackLogEntry_zero (L : ReplayLog) (r : ClientRequestId) (h : (L.ackLogEntry r).1 = 0) (c : String)
    (t : Timestamp) :
    (L.ackLogEntry r).2.flag? c t = if c = r.identifier ∧ t = r.timestamp then none else L.flag? c t := by
  cases hl : L.clientList.lookup r.identifier with
  | none => simp [ackLogEntry, hl] at h
  | some l =>
    cases hf : l.find? r.timestamp with
    | none => simp [ackLogEntry, hl, hf] at h
    | some e =>
      cases he : e.2 with
      | false => simp [ackLogEntry, hl, hf, he] at h
      | true =>
        simp only [ackLogEntry, hl, hf, he, if_true]
        exact flag?_setClient (flag?_of_lookup hl) (find?_erase l r.timestamp) c t

/-- **`commitLogEntry` sets the flag of an entry that is there**, and changes nothing else. -/
theorem commitLogEntry_flag? (L : ReplayLog) (r : ClientRequestId) (c : String) (t : Timestamp) :
    (L.commitLogEntry r).2.flag? c t =
      if c = r.identifier ∧ t = r.timestamp then (L.flag? c t).map fun _ => true else L.flag? c t := by
  have hsame : ∀ o : Option Bool, L.flag? r.identifier r.timestamp = o → (o.map fun _ => true) = o →
      L.flag? c t = if c = r.identifier ∧ t = r.timestamp then (L.flag? c t).map fun _ => true else L.flag? c t := by
    intro o ho hmap
    split_ifs with hct
    · rw [hct.1, hct.2, ho, hmap]
    · rfl
  cases hl : L.clientList.lookup r.identifier with
  | none => simpa [commitLogEntry, hl] using hsame none (flag?_of_lookup_none hl _) rfl
  | some l =>
    cases hf : l.find? r.timestamp with
    | none => simpa [commitLogEntry, hl, hf] using hsame none (by simp [flag?_of_lookup hl, hf]) rfl
    | some e =>
      cases he : e.2 with
      | true => simpa [commitLogEntry, hl, hf, he] using hsame (some true) (by simp [flag?_of_lookup hl, hf, he]) rfl
      | false =>
        have hfind : ∀ u, ((l.erase r.timestamp).insert (r.timestamp, true)).find? u =
            if u = r.timestamp then some (r.timestamp, true) else l.find? u := by
          intro u
          rw [find?_insert _ _ _ (by simp [find?_erase]), find?_erase]
          split_ifs <;> rfl
        simp only [commitLogEntry, hl, hf, he, Bool.false_eq_true, if_false]
        rw [flag?_setClient (flag?_of_lookup hl) hfind]
        split_ifs with hct
        · rw [hct.1, hct.2, flag?_of_lookup hl, hf]; rfl
        · rfl

/-- `addToLog` loses no entry -/
theorem addToLog_isSome (L : ReplayLog) (r : ClientRequestId) {c : String} {t : Timestamp}
    (h : (L.flag? c t).isSome) : ((L.addToLog r).2.flag? c t).isSome := by
  by_cases hr : (L.addToLog r).1 < 0
  · rw [addToLog_neg L r hr]; exact h
  · rw [addToLog_zero L r hr]
    split_ifs
    · rfl
    · exact h

/-- `commitLogEntry` neither adds nor loses an entry -/
theorem commitLogEntry_isSome (L : ReplayLog) (r : ClientRequestId) (c : String) (t : Timestamp) :
    ((L.commitLogEntry r).2.flag? c t).isSome = (L.flag? c t).isSome := by
  rw [commitLogEntry_flag?]
  split_ifs
  · exact Option.isSome_map
  · rfl

/-! ## Later requests -/

/-- the timestamps of a client -/
def timestamps (L : ReplayLog) (c : String) : List Timestamp :=
  match L.clientList.lookup c with
  | some l => l.toList.map Prod.fst
  | none => []

theorem mem_timestamps {L : ReplayLog} {c : String} {t : Timestamp} : t ∈ L.timestamps c ↔ (L.flag? c t).isSome := by
  cases hl : L.clientList.lookup c with
  | none => simp [timestamps, hl, flag?_of_lookup_none hl]
  | some l =>
    rw [flag?_of_lookup hl, Option.isSome_map, Option.isSome_iff_exists]
    simp only [timestamps, hl, List.mem_map, Sorted.mem_toList, Sorted.find?_eq_some]

/-- the request is later than all its client has in the log -/
def Later (L : ReplayLog) (r : ClientRequestId) : Prop := ∀ t ∈ L.timestamps r.identifier, t < r.timestamp

instance (L : ReplayLog) (r : ClientRequestId) : Decidable (L.Later r) :=
  inferInstanceAs (Decidable (∀ t ∈ L.timestamps r.identifier, t < r.timestamp))

/-- **A later request is accepted.** -/
theorem addToLog_of_later {L : ReplayLog} {r : ClientRequestId} (h : L.Later r) : (L.addToLog r).1 = 0 := by
  have hlt : ∀ t, (L.flag? r.identifier t).isSome → t < r.timestamp := fun t ht => h t (mem_timestamps.2 ht)
  have hold : ¬ L.tooOld r = true := by
    rw [tooOld_iff]
    rintro ⟨⟨t, ht⟩, hall⟩
    exact lt_asymm (hlt t ht) (hall t ht)
  have hnew : ¬ (L.flag? r.identifier r.timestamp).isSome := fun hs => lt_irrefl _ (hlt _ hs)
  rw [addToLog_code, if_neg hold, if_neg hnew]

end ReplayLog

end ChainedBlockStorage.Tables
