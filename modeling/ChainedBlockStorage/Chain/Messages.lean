/-
The messages of `server.proto` that the chain model uses, `server::State`, and the client identifier of the replay log.

A `Data` is a string cut to `BLOCK_SIZE` bytes (`string m_data(x, 0, Constants::BLOCK_SIZE)`), so cutting it again at
the next hop changes nothing (`ofString_val`). Offsets are uint64 in the messages and int64 in the tables.

- `identifier_inj`: two requests with the same identifier `ip:pid` are from the same ip and pid, whatever
  the ip contains.
-/
import ChainedBlockStorage.Storage.Layout

namespace ChainedBlockStorage.Chain

/-- `server::State`; `initializing` is its `INITIALIZE` -/
inductive State where
  | head
  | tail
  | middle
  | single
  | initializing
  | transition
deriving DecidableEq, Repr

/-- `state != TAIL && state != SINGLE` -/
def State.relays (s : State) : Bool := s != .tail && s != .single

/-! ## Client requests -/

/-- `google::protobuf::Timestamp` -/
structure Timestamp where
  seconds : ℤ
  nanos : ℤ
deriving DecidableEq, Repr

/-- `googleTimestampComparator`: by seconds, then by nanos -/
instance : LinearOrder Timestamp :=
  LinearOrder.lift' (fun t => toLex (t.seconds, t.nanos)) fun a b h => by
    cases a; cases b; simpa using h

structure ClientRequestId where
  ip : String
  pid : ℕ
  timestamp : Timestamp
deriving DecidableEq, Repr

/-- the key of `ReplayLog::client_list` -/
def ClientRequestId.identifier (r : ClientRequestId) : String := r.ip ++ ":" ++ toString r.pid

theorem repr_inj {a b : ℕ} (h : a.repr = b.repr) : a = b := by
  have h := congrArg String.toList h
  rw [Nat.toList_repr, Nat.toList_repr] at h
  calc a = Nat.ofDigitChars 10 (Nat.toDigits 10 a) 0 := Nat.ofDigitChars_ten_toDigits.symm
    _ = Nat.ofDigitChars 10 (Nat.toDigits 10 b) 0 := by rw [h]
    _ = b := Nat.ofDigitChars_ten_toDigits

/-- a decimal number contains no colon -/
theorem colon_not_mem_repr (n : ℕ) : ':' ∉ n.repr.toList := by
  rw [Nat.toList_repr]
  intro h
  have := Nat.isDigit_of_mem_toDigits (by omega) (le_refl _) h
  simp at this

/-- the last separator of two equal lists is at the same place -/
theorem append_cons_inj {α : Type} {c : α} {l l' r r' : List α} (hr : c ∉ r) (hr' : c ∉ r')
    (h : l ++ c :: r = l' ++ c :: r') : l = l' ∧ r = r' := by
  rcases List.append_eq_append_iff.1 h with ⟨m, rfl, hm⟩ | ⟨m, rfl, hm⟩
  all_goals cases m <;> simp_all

theorem identifier_inj {r r' : ClientRequestId} (h : r.identifier = r'.identifier) : r.ip = r'.ip ∧ r.pid = r'.pid := by
  have h := congrArg String.toList h
  simp only [ClientRequestId.identifier, Nat.toString_eq_repr, String.toList_append, List.append_assoc] at h
  obtain ⟨h1, h2⟩ := append_cons_inj (colon_not_mem_repr _) (colon_not_mem_repr _) h
  exact ⟨String.toList_inj.1 h1, repr_inj (String.toList_inj.1 h2)⟩

/-- a request id is its identifier and its timestamp -/
theorem requestId_ext {r r' : ClientRequestId} (h : r.identifier = r'.identifier) (ht : r.timestamp = r'.timestamp) :
    r = r' := by
  obtain ⟨h1, h2⟩ := identifier_inj h
  cases r; cases r'; simp_all

/-! ## Data -/

/-- at most `BLOCK_SIZE` bytes -/
@[ext] structure Data where
  val : List UInt8
  length_le : val.length ≤ Storage.blockSize
deriving DecidableEq

/-- `string m_data(x, 0, Constants::BLOCK_SIZE)` -/
def Data.ofString (x : List UInt8) : Data := ⟨x.take Storage.blockSize, by simp⟩

@[simp] theorem ofString_val (d : Data) : Data.ofString d.val = d := Data.ext (List.take_of_length_le d.length_le)

/-- the 4096 bytes from `data()` of a string on: its own, the terminating zero, and what lies behind it -/
def Data.buffer (behind : Storage.Buf) (d : Data) : Storage.Buf :=
  fun p => if p < d.val.length then d.val.getD p 0 else if p = d.val.length then 0 else behind p

/-- a buffer as a string of 4096 bytes -/
def bytes (buf : Storage.Buf) : List UInt8 := (List.range Storage.blockSize).map buf

theorem bytes_congr {a b : Storage.Buf} (h : ∀ p < 4096, a p = b p) : bytes a = bytes b :=
  List.map_congr_left fun p hp => h p (by simpa using hp)

/-- only a string of full length comes back unchanged -/
theorem bytes_buffer (behind : Storage.Buf) (d : Data) :
    bytes (d.buffer behind) = d.val ↔ d.val.length = Storage.blockSize := by
  constructor
  · intro h
    rw [← h]
    simp [bytes]
  · intro h
    apply List.ext_getElem (by simp [bytes, h])
    intro p hp hp'
    simp [bytes, Data.buffer, hp', List.getD_eq_getElem?_getD]

/-! ## Requests -/

/-- `WriteRequest` -/
structure WriteRequest where
  data : List UInt8
  offset : UInt64
  clientRequestId : ClientRequestId
deriving DecidableEq

/-- `RelayWriteRequest` -/
structure RelayWriteRequest where
  data : List UInt8
  offset : UInt64
  seqNum : ℤ
  clientRequestId : ClientRequestId
deriving DecidableEq

/-- `ChecksumReply`, used as request and as reply -/
structure ChecksumReply where
  chkSum : String
  valid : Bool
deriving DecidableEq, Repr

/-- `(int) x`: the value modulo 2^32 -/
def toInt (x : ℤ) : ℤ := Int.bmod x (2 ^ 32)

theorem toInt_of_lt {x : ℤ} (h0 : 0 ≤ x) (h : x < 2 ^ 31) : toInt x = x := by
  unfold toInt
  rw [Int.bmod_eq_of_le] <;> omega

end ChainedBlockStorage.Chain
