/-
The resend of `ChangeMode` on node m-1 after node m has failed.

`last_seq_num` is what node m+1 reported. The sent-list entries behind it are read back from the volume and
relayed to m+1 again.

- `resend_exactly`: when the loop sends exactly the entries above `last_seq_num`. `up_to_date_successor_throws`: with
  nothing left to send `getSentListRange` throws an exception that nobody catches.
- `resend_eq_relay`: when a resent request is the one `relay_write_background` had sent. `resend_loses_timestamp`: the
  timestamp is assigned to a local copy.
-/
import ChainedBlockStorage.Storage.Leaves
import ChainedBlockStorage.Storage.Open
import ChainedBlockStorage.Chain.ClientCalls

namespace ChainedBlockStorage.Chain

open Run Tables Storage

/-! ## The range of the sent list -/

/-- the exceptions of `sentList` -/
inductive Exception where
  | lengthError
  | invalidArgument
deriving DecidableEq

/-- `startSeqNum` is an int -/
def getSentListRange (l : SentList) (startSeqNum : ℤ) : Except Exception (List (ℤ × SentListEntry)) :=
  if l.toList.length = 0 then .error .lengthError
  else if startSeqNum = 0 then .ok l.toList
  else match l.find? startSeqNum with
    | none => .error .invalidArgument
    | some _ => .ok (l.toList.dropWhile fun x => x.1 < startSeqNum)

/-- from the iterator on: the keys at or above the start -/
theorem dropWhile_eq_filter (l : SentList) (n : ℤ) :
    l.toList.dropWhile (fun x => x.1 < n) = l.toList.filter fun x => n ≤ x.1 := by
  obtain ⟨l, hs⟩ := l
  simp only
  induction l with
  | nil => rfl
  | cons a l ih =>
    obtain ⟨ha, hl⟩ := List.pairwise_cons.1 hs
    by_cases hn : a.1 < n
    · simp [hn, ih hl]
    · have hall : l.filter (fun x => decide (n ≤ x.1)) = l :=
        List.filter_eq_self.2 fun x hx => by have := ha x hx; simp; omega
      simp [hn, not_lt.1 hn, hall]

/-! ## The requests -/

/-- the request for entry `x` of number `seq`, with what `read_sequence_number` found; `timestamp` is a copy of the
field, so assigning to it leaves the field at its default -/
def resendRequest (read : Option Buf) (seq : ℤ) (x : SentListEntry) : Option RelayWriteRequest :=
  read.map fun data =>
    { data := bytes data
      offset := x.volumeOffset.toUInt64
      seqNum := seq
      clientRequestId := ⟨x.reqId.ip, x.reqId.pid, ⟨0, 0⟩⟩ }

/-- `current_resend_seq`, as the int that `getSentListRange` takes -/
def resendStart (lastSeqNum : UInt64) : ℤ := toInt (lastSeqNum + 1).toNat

/-- the requests of the loop, in order; `read` is `read_sequence_number` -/
def resendFrom (read : ℤ → ℤ → Option Buf) (l : SentList) (currentResendSeq : ℤ) :
    Except Exception (List RelayWriteRequest) :=
  match getSentListRange l currentResendSeq with
  | .error .lengthError => .ok []
  | .error .invalidArgument => .error .invalidArgument
  | .ok range => .ok (range.filterMap fun x => resendRequest (read x.1 x.2.volumeOffset.toInt) x.1 x.2)

def resend (read : ℤ → ℤ → Option Buf) (l : SentList) (lastSeqNum : UInt64) :
    Except Exception (List RelayWriteRequest) :=
  resendFrom read l (resendStart lastSeqNum)

theorem filterMap_seqNum (read : ℤ → ℤ → Option Buf) (l : List (ℤ × SentListEntry)) :
    (l.filterMap fun x => resendRequest (read x.1 x.2.volumeOffset.toInt) x.1 x.2).map RelayWriteRequest.seqNum =
      (l.filter fun x => (read x.1 x.2.volumeOffset.toInt).isSome).map Prod.fst := by
  induction l with
  | nil => rfl
  | cons a l ih =>
    rw [List.filterMap_cons, List.filter_cons]
    cases h : read a.1 a.2.volumeOffset.toInt with
    | none => simpa [resendRequest] using ih
    | some data => simpa [resendRequest] using ih

/-- the keys of a sorted list decide what a filter keeps -/
theorem filter_keys_eq (l : SentList) (p q : ℤ × SentListEntry → Bool) :
    (l.toList.filter p).map Prod.fst = (l.toList.filter q).map Prod.fst ↔ ∀ x ∈ l, p x = q x := by
  have hmem : ∀ (r : ℤ × SentListEntry → Bool), ∀ x ∈ l, x.1 ∈ (l.toList.filter r).map Prod.fst ↔ r x = true := by
    intro r x hx
    rw [List.mem_map]
    constructor
    · rintro ⟨y, hy, hyx⟩
      obtain ⟨hyl, hry⟩ := List.mem_filter.1 hy
      rwa [← Sorted.eq_of_mem hyl hx hyx]
    · exact fun hr => ⟨x, List.mem_filter.2 ⟨hx, hr⟩, rfl⟩
  constructor
  · intro h x hx
    rw [Bool.eq_iff_iff, ← hmem p x hx, ← hmem q x hx, h]
  · intro h
    rw [List.filter_congr h]

theorem resendFrom_iff (read : ℤ → ℤ → Option Buf) (l : SentList) (n m : ℤ) :
    (resendFrom read l n).map (List.map RelayWriteRequest.seqNum) =
        .ok ((l.toList.filter fun x => m < x.1).map Prod.fst) ↔
      l.toList = [] ∨ (n = 0 ∨ ∃ x ∈ l, x.1 = n) ∧
        ∀ x ∈ l, m < x.1 ↔ (n = 0 ∨ n ≤ x.1) ∧ (read x.1 x.2.volumeOffset.toInt).isSome := by
  unfold resendFrom getSentListRange
  by_cases hnil : l.toList = []
  · simp [hnil, Except.map]
  have hlen : l.toList.length ≠ 0 := fun h => hnil (List.length_eq_zero_iff.1 h)
  simp only [hlen, if_false, hnil, false_or]
  by_cases h0 : n = 0
  · simp only [h0, if_true, Except.map, filterMap_seqNum, Except.ok.injEq, true_or, true_and]
    rw [filter_keys_eq]
    refine forall₂_congr fun x _ => ?_
    rw [Bool.eq_iff_iff, decide_eq_true_iff]
    exact Iff.comm
  · cases hf : l.find? n with
    | none =>
      rw [Sorted.find?_eq_none] at hf
      simp only [h0, if_false, Except.map, reduceCtorEq, false_or, false_iff, not_and]
      rintro ⟨x, hx, hxe⟩
      exact absurd hxe (hf x hx)
    | some x =>
      obtain ⟨hx, hxe⟩ := Sorted.find?_eq_some.1 hf
      have hex : ∃ x ∈ l, x.1 = n := ⟨x, hx, hxe⟩
      simp only [h0, if_false, Except.map, filterMap_seqNum, Except.ok.injEq, false_or, hex, true_and,
        dropWhile_eq_filter, List.filter_filter]
      rw [filter_keys_eq]
      refine forall₂_congr fun x _ => ?_
      rw [Bool.eq_iff_iff, decide_eq_true_iff, Bool.and_eq_true, decide_eq_true_iff, and_comm]
      exact Iff.comm

/-- **The resend set.** The loop completes and sends exactly the entries above `last_seq_num` if and only if the sent
list is empty, or it has the entry `last_seq_num + 1` (0 stands for all of it), the entries from there on are the ones
above `last_seq_num`, and these are still in the uncommitted list. -/
theorem resend_exactly (read : ℤ → ℤ → Option Buf) (l : SentList) (lastSeqNum : UInt64) :
    (resend read l lastSeqNum).map (List.map RelayWriteRequest.seqNum) =
        .ok ((l.toList.filter fun x => (lastSeqNum.toNat : ℤ) < x.1).map Prod.fst) ↔
      l.toList = [] ∨ (resendStart lastSeqNum = 0 ∨ ∃ x ∈ l, x.1 = resendStart lastSeqNum) ∧
        ∀ x ∈ l, (lastSeqNum.toNat : ℤ) < x.1 ↔
          (resendStart lastSeqNum = 0 ∨ resendStart lastSeqNum ≤ x.1) ∧ (read x.1 x.2.volumeOffset.toInt).isSome :=
  resendFrom_iff read l (resendStart lastSeqNum) lastSeqNum.toNat

/-- below 2^31, with everything behind `last_seq_num` uncommitted: the list is empty or has that entry -/
theorem resend_exactly_int (read : ℤ → ℤ → Option Buf) (l : SentList) (lastSeqNum : UInt64)
    (hlast : lastSeqNum.toNat < 2 ^ 31 - 1)
    (hread : ∀ x ∈ l, (lastSeqNum.toNat : ℤ) < x.1 → (read x.1 x.2.volumeOffset.toInt).isSome) :
    (resend read l lastSeqNum).map (List.map RelayWriteRequest.seqNum) =
        .ok ((l.toList.filter fun x => (lastSeqNum.toNat : ℤ) < x.1).map Prod.fst) ↔
      l.toList = [] ∨ ∃ x ∈ l, x.1 = lastSeqNum.toNat + 1 := by
  have hstart : resendStart lastSeqNum = lastSeqNum.toNat + 1 := by
    have h1 : (lastSeqNum + 1).toNat = lastSeqNum.toNat + 1 := by
      rw [UInt64.toNat_add, UInt64.toNat_one, Nat.mod_eq_of_lt (by omega)]
    rw [resendStart, h1, toInt_of_lt (by omega) (by push_cast; omega)]
    push_cast
    rfl
  rw [resend_exactly, hstart]
  have hne : (lastSeqNum.toNat : ℤ) + 1 ≠ 0 := by omega
  simp only [hne, false_or]
  refine or_congr_right (and_iff_left_of_imp fun _ x hx => ?_)
  constructor
  · exact fun h => ⟨by omega, hread x hx h⟩
  · exact fun h => by have := h.1; omega

/-- write `k + 1` passes down three nodes, and nothing is committed -/
def passDown (k : ℕ) : List Event :=
  writeCall (requestAt (k + 1)) ++ [.act 0 (.rwb .poll), .act 0 (.rwb .spin), .act 0 (.rwb .pop), .sendRelay 0,
    .act 1 (.relay k .addToLog), .act 1 (.relay k .pushEntry), .relayOk 0, .act 0 (.rwb .write), .act 0 (.rwb .bump),
    .act 0 (.rwb .send), .act 1 (.rwb .poll), .act 1 (.rwb .spin), .act 1 (.rwb .pop), .sendRelay 1,
    .act 2 (.relay k .addToLog), .act 2 (.relay k .pushEntry), .relayOk 1, .act 1 (.rwb .write), .act 1 (.rwb .bump),
    .act 1 (.rwb .send), .act 2 (.rwb .poll), .act 2 (.rwb .spin), .act 2 (.rwb .pop), .act 2 (.rwb .leave),
    .act 2 (.rwb .write), .act 2 (.rwb .bump), .act 2 (.rwb .send)]

/-- two writes have passed down three nodes -/
def passedDown : Nodes := run step (stable 3 0 ReplayLog.empty) (passDown 0 ++ passDown 1)

/-- **A successor that has everything makes the resend throw.** Numbers 1 and 2 are in the sent list of node 0, and node
2 has written both. -/
theorem up_to_date_successor_throws : (passedDown 0).sentList.toList.map Prod.fst = [1, 2] ∧
    (passedDown 2).writeSeq = (2 : UInt64).toNat ∧
    ∀ read, resend read (passedDown 0).sentList 2 = .error .invalidArgument := by
  have h : getSentListRange (passedDown 0).sentList (resendStart 2) = .error .invalidArgument := by decide +kernel
  refine ⟨by decide +kernel, by decide +kernel, fun read => ?_⟩
  rw [resend, resendFrom, h]

/-! ## One resent request -/

/-- **The resent request.** On a volume opened with a sound counter, after any run whose unassigned numbers name no
block in use: write `k`, of entry `e`, is not committed. Then `ChangeMode` builds the same request for it as
`relay_write_background` if and only if its timestamp is zero, its data is 4096 bytes long, and its number is an int. -/
theorem resend_eq_relay (f : File) (start : ℤ) (o : Opening) (hf : o = .openVolume → VolumeFile f) (hc : CounterOk f o)
    (es : List Op) (hj : Meets Driver.step JunkUnused (Driver.open start (o.call f)) es) (k : ℕ)
    (hk : (run Driver.step (Driver.open start (o.call f)) es).committed ≤ k) (behind : Buf) (e : Entry)
    (hseq : e.seqNum = start + k + 1)
    (hw : (run Driver.step (Driver.open start (o.call f)) es).writes[k]? =
      some (e.volumeOffset.toInt, e.data.buffer behind)) :
    resendRequest (readSequenceNumber (run Driver.step (Driver.open start (o.call f)) es).vol (toInt e.seqNum)
        e.volumeOffset.toInt) (toInt e.seqNum) (sentEntry e) = some (relayRequest e) ↔
      e.reqId.timestamp = ⟨0, 0⟩ ∧ e.data.val.length = blockSize ∧ toInt e.seqNum = e.seqNum := by
  have h : OwnWrites (run Driver.step (Driver.open start (o.call f)) es) :=
    run_inv_of_meets Driver.step JunkUnused OwnWrites step_ownWrites _ es
      (ownWrites_open (sound_opened f start o hf hc)) hj
  have hstart : (run Driver.step (Driver.open start (o.call f)) es).start = start := Storage.run_start _ es
  obtain ⟨data, hread, hdata⟩ := readSequenceNumber_eq h hk hw
  rw [hstart, ← hseq] at hread
  constructor
  · intro heq
    obtain ⟨d, -, hd⟩ := Option.map_eq_some_iff.1 heq
    have hnum : toInt e.seqNum = e.seqNum := congrArg RelayWriteRequest.seqNum hd
    have hid : (⟨e.reqId.ip, e.reqId.pid, ⟨0, 0⟩⟩ : ClientRequestId) = e.reqId :=
      congrArg RelayWriteRequest.clientRequestId hd
    have hlen := congrArg (fun r => r.data.length) hd
    refine ⟨(congrArg ClientRequestId.timestamp hid).symm, ?_, hnum⟩
    simpa [bytes, relayRequest] using hlen.symm
  · rintro ⟨htime, hlen, hnum⟩
    have hbytes : bytes data = e.data.val := (bytes_congr hdata).trans ((bytes_buffer behind e.data).2 hlen)
    have hid : (⟨e.reqId.ip, e.reqId.pid, ⟨0, 0⟩⟩ : ClientRequestId) = e.reqId := by rw [← htime]
    rw [hnum, hread, resendRequest, Option.map_some, hbytes]
    simp only [sentEntry, relayRequest, hid]

/-- number 1: a full block at offset 0 -/
def fullEntry (seconds : ℤ) : Entry :=
  ⟨1, 0, ⟨List.replicate 4096 7, (List.length_replicate ..).le⟩, ⟨"10.0.0.1", 1, ⟨seconds, 0⟩⟩⟩

/-- its write on a new volume -/
def fullWrite (seconds : ℤ) : Op := .write ((fullEntry seconds).data.buffer fun _ => 0) 0 fun _ => 0

theorem junkUnused_fullWrite (s : Driver) (seconds : ℤ) : JunkUnused s (fullWrite seconds) := by
  rintro - x ⟨j, ⟨-, hj, hk⟩, -⟩
  rcases hj with rfl | rfl <;> exact absurd hk (by decide)

theorem resend_eq_relay_full :
    resendRequest (readSequenceNumber (run Driver.step Driver.new [fullWrite 0]).vol (toInt 1) 0) (toInt 1)
        (sentEntry (fullEntry 0)) = some (relayRequest (fullEntry 0)) ↔
      (fullEntry 0).reqId.timestamp = ⟨0, 0⟩ ∧ (fullEntry 0).data.val.length = blockSize ∧ toInt 1 = 1 := by
  refine resend_eq_relay File.new 0 .initVolume (by simp) (show File.new.size < 3 * blockSize by decide)
    [fullWrite 0] ⟨junkUnused_fullWrite _ _, trivial⟩ 0
    ?_ (fun _ => 0) (fullEntry 0) rfl ?_
  · rfl
  · rfl

/-- **The resent request has lost its timestamp.** Write 1 is in the volume, uncommitted; its request has
the time 1 s. -/
theorem resend_loses_timestamp :
    (run Driver.step Driver.new [fullWrite 1]).writes[0]? = some (0, (fullEntry 1).data.buffer fun _ => 0) ∧
      (run Driver.step Driver.new [fullWrite 1]).committed = 0 ∧
      resendRequest (readSequenceNumber (run Driver.step Driver.new [fullWrite 1]).vol (toInt 1) 0) (toInt 1)
        (sentEntry (fullEntry 1)) ≠ some (relayRequest (fullEntry 1)) := by
  refine ⟨rfl, rfl, fun h => ?_⟩
  obtain ⟨d, -, hd⟩ := Option.map_eq_some_iff.1 h
  have htime : (0 : ℤ) = 1 := congrArg (fun r => r.clientRequestId.timestamp.seconds) hd
  exact absurd htime (by decide)

end ChainedBlockStorage.Chain
