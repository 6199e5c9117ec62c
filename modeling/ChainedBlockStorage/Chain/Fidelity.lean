/-
The bytes of one block on their way from `Client::write` down the chain and back to `Client::read`.

`set_data` is called with a char pointer at both ends, so it copies up to the first zero byte; everybody
else takes 4096 bytes from the `data()` of the string that arrives. A read past an array or past the
terminating zero of a string is `none`.

- `block_delivered`: every node stores the block, and a client reads it back, exactly when the last byte is the first
  zero byte. The message itself never carries the block.
- `zero_block_reads_past`: a block of zeros arrives as the empty string.
-/
import ChainedBlockStorage.Storage.Reads
import ChainedBlockStorage.Chain.Node

namespace ChainedBlockStorage.Chain

open Run Tables Storage

/-! ## The client -/

/-- `Client::DataBlock` -/
structure DataBlock where
  buff : List UInt8
  length_eq : buff.length = blockSize

/-- `set_data(a)` of a char array: up to the first zero byte; without one the call reads past the array -/
def setData (a : List UInt8) : Option (List UInt8) := if 0 ∈ a then some (a.take (a.idxOf 0)) else none

/-- 4096 bytes from `x.data()` on: those of the string, then its terminating zero -/
def blockAt (x : List UInt8) : Option (List UInt8) :=
  if blockSize ≤ x.length + 1 then some ((x ++ [0]).take blockSize) else none

/-- the request of `Client::write` -/
def clientWrite (data : DataBlock) (offset : Int64) (id : ClientRequestId) : Option WriteRequest :=
  (setData data.buff).map fun x => ⟨x, offset.toUInt64, id⟩

/-- the reply of `TailServiceImpl::Read` -/
def tailRead (v : Volume) (offset : Int64) : Option (List UInt8) := setData (bytes (Storage.read v offset.toInt))

/-- the block that `Client::read` copies out of the reply -/
def clientRead (reply : List UInt8) : Option (List UInt8) := blockAt reply

/-! ## The chain -/

/-- the queue entry of the request at node `i` -/
def entryAt (request : WriteRequest) (seq : ℤ) : ℕ → Entry
  | 0 => request.entry seq
  | i + 1 => (relayRequest (entryAt request seq i)).entry

/-- no hop changes the entry -/
theorem entryAt_eq (request : WriteRequest) (seq : ℤ) (i : ℕ) : entryAt request seq i = request.entry seq := by
  induction i with
  | zero => rfl
  | succ i ih => rw [entryAt, entry_relayRequest, ih]

/-- what `Storage::write` takes from the string of an entry -/
def stored (e : Entry) : Option (List UInt8) := blockAt (Data.ofString e.data.val).val

/-- the bytes as the volume has them -/
def bufOf (x : List UInt8) : Buf := fun p => x.getD p 0

/-- `Storage::write` of an entry with the block `x` taken from its string -/
def storeOp (e : Entry) (x : List UInt8) (junk : ℕ → ℤ) : Op := .write (bufOf x) e.volumeOffset.toInt junk

theorem bytes_bufOf {x : List UInt8} (h : x.length = blockSize) : bytes (bufOf x) = x := by
  apply List.ext_getElem (by simp [bytes, h])
  intro p hp hp'
  simp [bytes, bufOf, hp']

/-! ## The block -/

/-- every node takes the block out of its entry, and after a node has written it, before it has taken another write and
at once or when all is committed, a client reads the block from it; no step reads past its string -/
def Delivered (data : DataBlock) (offset : Int64) (id : ClientRequestId) (seq : ℤ) : Prop :=
  ∃ request, clientWrite data offset id = some request ∧ ∀ i, stored (entryAt request seq i) = some data.buff ∧
    ∀ (s : Driver) (junk : ℕ → ℤ) (m : ℕ), Sound True s → JunkUnused s (storeOp (entryAt request seq i) data.buff junk) →
      ∀ t, t = run Driver.step (s.step (storeOp (entryAt request seq i) data.buff junk)) (List.replicate m .commit) →
        m = 0 ∨ t.committed = t.writes.length → (tailRead t.vol offset).bind clientRead = some data.buff

/-- the message holds the block as well -/
def Carried (data : DataBlock) (offset : Int64) (id : ClientRequestId) : Prop :=
  ∃ request, clientWrite data offset id = some request ∧ request.data = data.buff

theorem setData_eq_some {a x : List UInt8} : setData a = some x ↔ 0 ∈ a ∧ a.take (a.idxOf 0) = x := by
  unfold setData
  split
  · next h => simp [h]
  · next h => simp [h]

/-- a setter loses the zero byte at least -/
theorem setData_length {a x : List UInt8} (h : setData a = some x) : x.length = a.idxOf 0 ∧ x.length < a.length := by
  obtain ⟨h0, rfl⟩ := setData_eq_some.1 h
  have := List.idxOf_lt_length_iff.2 h0
  rw [List.length_take]
  omega

/-- setter and copy give the block back exactly when the last byte is the first zero -/
theorem setData_blockAt (data : DataBlock) :
    (setData data.buff).bind blockAt = some data.buff ↔ data.buff.idxOf 0 + 1 = blockSize := by
  have hlen := data.length_eq
  by_cases h0 : 0 ∈ data.buff
  swap
  · have : data.buff.idxOf 0 = data.buff.length := List.idxOf_eq_length h0
    simp only [setData, if_neg h0, Option.bind_none, reduceCtorEq, false_iff]
    omega
  have hlt := List.idxOf_lt_length_iff.2 h0
  have htake : (data.buff.take (data.buff.idxOf 0)).length = data.buff.idxOf 0 := by
    rw [List.length_take]
    omega
  simp only [setData, if_pos h0, Option.bind_some, blockAt, htake]
  constructor
  · intro h
    by_contra hne
    rw [if_neg (by omega)] at h
    cases h
  · intro h
    rw [if_pos (by omega), Option.some.injEq]
    -- the terminating zero takes the place of the zero that was cut off
    have hshort : (data.buff.take (data.buff.idxOf 0) ++ [0]).length ≤ blockSize := by
      rw [List.length_append, htake, List.length_singleton, h]
    have hget : data.buff[data.buff.idxOf 0] = 0 := List.getElem_idxOf hlt
    calc (data.buff.take (data.buff.idxOf 0) ++ [0]).take blockSize
        = data.buff.take (data.buff.idxOf 0) ++ [0] := List.take_of_length_le hshort
      _ = data.buff.take (data.buff.idxOf 0) ++ [data.buff[data.buff.idxOf 0]] := by rw [hget]
      _ = data.buff.take (data.buff.idxOf 0 + 1) := (List.take_append_getElem hlt)
      _ = data.buff := List.take_of_length_le (by omega)

/-- **The block end to end.** At an aligned offset of the volume it arrives, is stored and comes back if and only if its
last byte is its first zero byte. The message never carries it: either the setter stops short of 4096 bytes, or it reads
past the array. -/
theorem block_delivered (data : DataBlock) (offset : Int64) (ho : InRange offset.toInt) (ha : remOf offset.toInt = 0)
    (id : ClientRequestId) (seq : ℤ) :
    (Delivered data offset id seq ↔ data.buff.idxOf 0 + 1 = blockSize) ∧ ¬ Carried data offset id := by
  have hlen := data.length_eq
  -- cut to 4096 bytes, the string is what it was
  have hstored : ∀ x, setData data.buff = some x → ∀ i,
      stored (entryAt ⟨x, offset.toUInt64, id⟩ seq i) = blockAt x := by
    intro x hx i
    have hxl := (setData_length hx).2
    rw [entryAt_eq]
    have hcut : x.take blockSize = x := List.take_of_length_le (by omega)
    simp only [stored, WriteRequest.entry, Data.ofString, hcut]
  refine ⟨⟨?_, fun h => ?_⟩, ?_⟩
  · rintro ⟨request, hreq, hall⟩
    obtain ⟨x, hx, rfl⟩ := Option.map_eq_some_iff.1 hreq
    rw [← setData_blockAt, hx, Option.bind_some, ← hstored x hx 0]
    exact (hall 0).1
  · obtain ⟨x, hx, hb⟩ := Option.bind_eq_some_iff.1 ((setData_blockAt data).2 h)
    refine ⟨⟨x, offset.toUInt64, id⟩, by rw [clientWrite, hx]; rfl, fun i => ⟨(hstored x hx i).trans hb, ?_⟩⟩
    have hop : ∀ junk, storeOp (entryAt ⟨x, offset.toUInt64, id⟩ seq i) data.buff junk =
        .write (bufOf data.buff) offset.toInt junk := fun junk => by rw [entryAt_eq]; simp [storeOp, WriteRequest.entry]
    rintro s junk m hs hj t rfl hm
    rw [hop] at hj hm ⊢
    have hread : Storage.read (run Driver.step (s.step (.write (bufOf data.buff) offset.toInt junk))
        (List.replicate m .commit)).vol offset.toInt = bufOf data.buff := by
      rcases hm with rfl | hm
      · exact read_written hs ho ha _ junk hj
      · exact read_committed ho ha (newest_commits ho (newest_written hs ho ha _ junk hj) m) hm
    rw [tailRead, hread, bytes_bufOf hlen]
    exact (setData_blockAt data).2 h
  · rintro ⟨request, hreq, hdata⟩
    obtain ⟨x, hx, rfl⟩ := Option.map_eq_some_iff.1 hreq
    have hlt := (setData_length hx).2
    rw [show x = data.buff from hdata] at hlt
    exact absurd hlt (lt_irrefl _)

/-- a request of one client -/
def clientId : ClientRequestId := ⟨"10.0.0.1", 1, ⟨1, 0⟩⟩

/-- a block of sevens with a zero at its end -/
def sevens : DataBlock := ⟨List.replicate 4095 7 ++ [0], by rw [List.length_append, List.length_replicate]; rfl⟩

theorem block_delivered_sevens :
    (Delivered sevens 0 clientId 1 ↔ sevens.buff.idxOf 0 + 1 = blockSize) ∧ ¬ Carried sevens 0 clientId :=
  block_delivered sevens 0 (by decide) (by decide) clientId 1

/-- a block of zeros -/
def zeros : DataBlock := ⟨List.replicate 4096 0, List.length_replicate⟩

/-- **A block of zeros.** The message is empty, and `Storage::write` reads 4096 bytes from an empty string. -/
theorem zero_block_reads_past : clientWrite zeros 0 clientId = some ⟨[], 0, clientId⟩ ∧
    stored (entryAt ⟨[], 0, clientId⟩ 1 0) = none ∧ ¬ Delivered zeros 0 clientId 1 ∧ ¬ Carried zeros 0 clientId := by
  have hwrite : clientWrite zeros 0 clientId = some ⟨[], 0, clientId⟩ := rfl
  have hstored : stored (entryAt ⟨[], 0, clientId⟩ 1 0) = none := rfl
  refine ⟨hwrite, hstored, ?_, ?_⟩
  · rintro ⟨request, hreq, hall⟩
    obtain rfl := Option.some.inj (hwrite.symm.trans hreq)
    have := (hall 0).1
    rw [hstored] at this
    cases this
  · rintro ⟨request, hreq, hdata⟩
    obtain rfl := Option.some.inj (hwrite.symm.trans hreq)
    have := congrArg List.length hdata
    rw [zeros.length_eq] at this
    cases this

end ChainedBlockStorage.Chain
