/-
The pending queue and the sent list (`pendingQueue.cpp`, `sentList.cpp`).

`pendingQueue` is a priority queue with the smallest `seqNum` on top, next to a `std::set<int>` of the numbers in it.
`pushEntry` throws when the number, converted to int, is in the set, so the queue holds no number twice. The set changes
with the queue in every call and is a function of it here (`seqNumSet`).

`sentList` is a `std::map<int, sentListEntry>`. Both throw `std::invalid_argument`; a throwing call returns `none`.

- `pushEntry_eq_some`, `pushEntry_eq_none`, `popEntry_eq_some`, `peekEntry_eq_some`: the pending queue.
- `sentList_pushEntry`, `sentList_popEntry`: the sent list.
-/
import ChainedBlockStorage.Core.Sorted
import ChainedBlockStorage.Chain.Messages

namespace ChainedBlockStorage.Tables

open Chain

/-! ## Pending queue -/

/-- `pendingQueueEntry` -/
@[ext] structure Entry where
  seqNum : ℤ
  volumeOffset : Int64
  data : Data
  reqId : ClientRequestId
deriving DecidableEq

/-- the queue, top first -/
abbrev PendingQueue := Sorted Entry.seqNum

namespace PendingQueue

def seqNumSet (q : PendingQueue) : List ℤ := q.toList.map fun e => toInt e.seqNum

def pushEntry (q : PendingQueue) (entry : Entry) : Option PendingQueue :=
  if toInt entry.seqNum ∈ q.seqNumSet then none else some (q.insert entry)

def peekEntry (q : PendingQueue) : Option Entry := q.first?

def popEntry (q : PendingQueue) : Option (Entry × PendingQueue) :=
  q.first?.map fun e => (e, q.erase e.seqNum)

theorem mem_seqNumSet {q : PendingQueue} {n : ℤ} : n ∈ q.seqNumSet ↔ ∃ e ∈ q, toInt e.seqNum = n := by
  simp [seqNumSet, ← Sorted.mem_toList]

theorem pushEntry_eq_none {q : PendingQueue} {e : Entry} :
    q.pushEntry e = none ↔ ∃ x ∈ q, toInt x.seqNum = toInt e.seqNum := by
  simp [pushEntry, mem_seqNumSet]

/-- a push that does not throw adds the entry, whose number was not there -/
theorem pushEntry_eq_some {q q' : PendingQueue} {e : Entry} (h : q.pushEntry e = some q') :
    (∀ x, x ∈ q' ↔ x ∈ q ∨ x = e) ∧ ∀ x ∈ q, x.seqNum ≠ e.seqNum := by
  unfold pushEntry at h
  split_ifs at h with hm
  have hne : ∀ x ∈ q, x.seqNum ≠ e.seqNum := by
    intro x hx hxe
    exact hm (mem_seqNumSet.2 ⟨x, hx, by rw [hxe]⟩)
  obtain rfl := Option.some.inj h
  refine ⟨?_, hne⟩
  intro x
  rw [Sorted.mem_insert, and_iff_left hne]

theorem peekEntry_eq_some {q : PendingQueue} {e : Entry} (h : q.peekEntry = some e) :
    e ∈ q ∧ ∀ x ∈ q, e.seqNum ≤ x.seqNum :=
  Sorted.first?_eq_some h

/-- a pop takes the smallest number -/
theorem popEntry_eq_some {q q' : PendingQueue} {e : Entry} (h : q.popEntry = some (e, q')) :
    e ∈ q ∧ (∀ x ∈ q, e.seqNum ≤ x.seqNum) ∧ ∀ x, x ∈ q' ↔ x ∈ q ∧ x.seqNum ≠ e.seqNum := by
  unfold popEntry at h
  obtain ⟨d, hd, hde⟩ := Option.map_eq_some_iff.1 h
  obtain ⟨rfl, rfl⟩ := Prod.mk.inj hde
  obtain ⟨h1, h2⟩ := Sorted.first?_eq_some hd
  exact ⟨h1, h2, fun x => Sorted.mem_erase⟩

end PendingQueue

/-! ## Sent list -/

structure SentListEntry where
  reqId : ClientRequestId
  volumeOffset : Int64
deriving DecidableEq

abbrev SentList := Sorted (Prod.fst : ℤ × SentListEntry → ℤ)

namespace SentList

/-- `seqNum` is an int -/
def pushEntry (l : SentList) (seqNum : ℤ) (entry : SentListEntry) : Option SentList :=
  match l.find? seqNum with
  | some _ => none
  | none => some (l.insert (seqNum, entry))

def popEntry (l : SentList) (seqNum : ℤ) : Option (SentListEntry × SentList) :=
  (l.find? seqNum).map fun e => (e.2, l.erase seqNum)

theorem pushEntry_eq_some {l l' : SentList} {n : ℤ} {e : SentListEntry} (h : l.pushEntry n e = some l') :
    ∀ x, x ∈ l' ↔ x ∈ l ∨ x = (n, e) := by
  unfold pushEntry at h
  cases hf : l.find? n with
  | some x => simp [hf] at h
  | none =>
    rw [hf] at h
    obtain rfl := Option.some.inj h
    intro x
    rw [Sorted.mem_insert, and_iff_left (Sorted.find?_eq_none.1 hf)]

theorem pushEntry_eq_none {l : SentList} {n : ℤ} {e : SentListEntry} : l.pushEntry n e = none ↔ ∃ x ∈ l, x.1 = n := by
  unfold pushEntry
  cases hf : l.find? n with
  | some x => exact iff_of_true rfl ⟨x, Sorted.find?_eq_some.1 hf⟩
  | none =>
    have hnone := Sorted.find?_eq_none.1 hf
    refine iff_of_false (by simp) ?_
    rintro ⟨x, hx, hxn⟩
    exact hnone x hx hxn

theorem popEntry_eq_some {l l' : SentList} {n : ℤ} {e : SentListEntry} (h : l.popEntry n = some (e, l')) :
    (n, e) ∈ l ∧ ∀ x, x ∈ l' ↔ x ∈ l ∧ x.1 ≠ n := by
  unfold popEntry at h
  obtain ⟨x, hx, hxe⟩ := Option.map_eq_some_iff.1 h
  obtain ⟨rfl, rfl⟩ := Prod.mk.inj hxe
  obtain ⟨h1, rfl⟩ := Sorted.find?_eq_some.1 hx
  exact ⟨h1, fun y => Sorted.mem_erase⟩

end SentList

end ChainedBlockStorage.Tables
