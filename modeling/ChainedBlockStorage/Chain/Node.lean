/-
One storage node: its tables, its role, and its threads at their program points.

A node runs `HeadServiceImpl::Write` handlers, `RelayWrite` handlers, the thread `relay_write_background`, the threads
`relay_write_ack_background` and `RelayWriteAck` handlers. Every access to a shared table is one step, so the steps of
different threads interleave freely. What the threads of one node do by themselves is an `Act`; the node's half of a
call between nodes is a `Wire`.

The volume is seen through the calls made to it: `written` and `committed` list the arguments of `Storage::write` and
`Storage::commit`, and `lastCommitted` is what `Storage::get_sequence_number` returns. The fields under "history" are
read by no step.
-/
import ChainedBlockStorage.Tables.ReplayLog
import ChainedBlockStorage.Tables.Queues

namespace ChainedBlockStorage.Chain

open Tables

/-! ## Threads -/

/-- where `relay_write_background` is -/
inductive Rwb where
  /-- `if (pendingQueue.getQueueSize())` -/
  | poll
  /-- `while (pendingQueue.peekEntry().seqNum != writeSeq + 1) {}` -/
  | spin
  /-- `pendingQueue.popEntry()` -/
  | pop
  /-- `while (state != TAIL && state != SINGLE)` -/
  | relay (e : Entry)
  /-- inside the call, answered by handler `k` of node `j` -/
  | calling (e : Entry) (j k : ℕ)
  /-- `Storage::write` -/
  | write (e : Entry)
  /-- `writeSeq++` -/
  | bump (e : Entry)
  /-- `sentList.pushEntry` -/
  | send (e : Entry)
  /-- the exception of `pushEntry` has left the thread, which ends the process -/
  | dead
deriving DecidableEq

/-- the entry that has been popped and not yet counted by `writeSeq` -/
def Rwb.inHand : Rwb → Option Entry
  | .relay e => some e
  | .calling e _ _ => some e
  | .write e => some e
  | .bump e => some e
  | _ => none

/-- the entry that is being relayed -/
def Rwb.relaying : Rwb → Option Entry
  | .relay e => some e
  | .calling e _ _ => some e
  | _ => none

def Rwb.isDead : Rwb → Bool
  | .dead => true
  | _ => false

inductive RelayPhase where
  /-- the request is on its way, or `addToLog` is next -/
  | arrived
  /-- `addToLog` returned 0; `pushEntry` is next -/
  | added
  | pushed
  /-- `addToLog` was negative -/
  | refused
  /-- `pushEntry` threw -/
  | threw
  /-- will never run -/
  | lost
deriving DecidableEq

/-- `addToLog` has run -/
def RelayPhase.ran : RelayPhase → Bool
  | .arrived | .lost => false
  | _ => true

/-- nothing is left to do -/
def RelayPhase.finished : RelayPhase → Bool
  | .arrived | .added => false
  | _ => true

/-- the status of the reply is OK -/
def RelayPhase.ok : RelayPhase → Bool
  | .pushed | .refused => true
  | _ => false

/-- a `RelayWrite` handler; `first` records whether it was the first with its number to reach `addToLog` here -/
structure RelayHandler where
  req : RelayWriteRequest
  phase : RelayPhase
  first : Bool

inductive AckPhase where
  /-- the background thread is about to read `commitSeq`; a handler waits until `commitSeq + 1` is its number -/
  | start
  /-- `sentList.popEntry` is next -/
  | ready
  /-- `Storage::commit` is next -/
  | popped (e : SentListEntry)
  /-- `commitLogEntry` is next -/
  | stored (e : SentListEntry)
  /-- the change of `commitSeq` is next -/
  | logged
  /-- at the test of the loop that calls the upstream node -/
  | relaying
  /-- inside the call, answered by thread `m` of node `j` -/
  | calling (j m : ℕ)
  | done
  /-- `popEntry` threw in a handler -/
  | failed

/-- a `relay_write_ack_background` thread or a `RelayWriteAck` handler -/
structure AckThread where
  background : Bool
  seq : ℤ
  phase : AckPhase

/-! ## The node -/

structure Node where
  state : State
  upstream : Option ℕ
  downstream : Option ℕ
  /-- `launch_head` has run -/
  headService : Bool
  currentSeq : ℤ
  writeSeq : ℤ
  commitSeq : ℤ
  replayLog : ReplayLog
  pendingQueue : PendingQueue
  sentList : SentList
  lastCommitted : ℤ
  written : List Entry
  committed : List (ℤ × Int64)
  rwb : Rwb
  /-- `Write` handlers between `addToLog` and `currentSeq++` -/
  adding : List WriteRequest
  /-- `Write` handlers between `currentSeq++` and `pushEntry` -/
  pushing : List Entry
  relays : List RelayHandler
  acks : List AckThread
  /-- history: what `Write` has numbered -/
  numbered : List Entry
  /-- history: what has been pushed to the pending queue -/
  queued : List Entry
  /-- history: requests for which `addToLog` returned 0 in `Write` -/
  accepted : List ClientRequestId
  /-- history: requests to which `Write` answered OK -/
  answered : List ClientRequestId
  /-- history: requests for which `ackLogEntry` returned 0 -/
  acked : List ClientRequestId

/-! ## `HeadServiceImpl::Write` -/

/-- the `pendingQueueEntry` of a client request -/
def WriteRequest.entry (request : WriteRequest) (seq : ℤ) : Entry where
  seqNum := seq
  volumeOffset := request.offset.toInt64
  data := Data.ofString request.data
  reqId := request.clientRequestId

inductive WriteAct where
  | addToLog (request : WriteRequest)
  | takeSeq (k : ℕ)
  | pushEntry (k : ℕ)

def Node.writeAct (n : Node) : WriteAct → Node
  | .addToLog request =>
    if n.headService then
      let (addResult, replayLog) := n.replayLog.addToLog request.clientRequestId
      if addResult < 0 then
        { n with replayLog, answered := n.answered ++ [request.clientRequestId] }
      else
        { n with replayLog, adding := n.adding ++ [request], accepted := n.accepted ++ [request.clientRequestId] }
    else n
  | .takeSeq k =>
    match n.adding[k]? with
    | none => n
    | some request =>
      let entry := request.entry n.currentSeq
      { n with
        currentSeq := n.currentSeq + 1
        adding := n.adding.eraseIdx k
        pushing := n.pushing ++ [entry]
        numbered := n.numbered ++ [entry] }
  | .pushEntry k =>
    match n.pushing[k]? with
    | none => n
    | some entry =>
      match n.pendingQueue.pushEntry entry with
      -- the exception becomes an error status
      | none => { n with pushing := n.pushing.eraseIdx k }
      | some pendingQueue =>
        { n with
          pendingQueue
          pushing := n.pushing.eraseIdx k
          queued := n.queued ++ [entry]
          answered := n.answered ++ [entry.reqId] }

/-! ## `RelayWrite` -/

/-- the request that `relay_write_background` builds -/
def relayRequest (e : Entry) : RelayWriteRequest where
  data := e.data.val
  offset := e.volumeOffset.toUInt64
  seqNum := e.seqNum
  clientRequestId := e.reqId

/-- the `pendingQueueEntry` of a relayed request -/
def RelayWriteRequest.entry (request : RelayWriteRequest) : Entry where
  seqNum := request.seqNum
  volumeOffset := request.offset.toInt64
  data := Data.ofString request.data
  reqId := request.clientRequestId

/-- a relay carries the entry unchanged -/
@[simp] theorem entry_relayRequest (e : Entry) : (relayRequest e).entry = e := by
  simp [relayRequest, RelayWriteRequest.entry]

inductive RelayAct where
  | addToLog
  | pushEntry
  | drop

/-- some handler with this number has reached `addToLog` -/
def Node.delivered (n : Node) (seqNum : ℤ) : Bool :=
  n.relays.any fun h => h.phase.ran && h.req.seqNum == seqNum

def Node.relayAct (n : Node) (k : ℕ) : RelayAct → Node
  | .addToLog =>
    match n.relays[k]? with
    | some ⟨request, .arrived, _⟩ =>
      let (addResult, replayLog) := n.replayLog.addToLog request.clientRequestId
      let phase := if addResult < 0 then .refused else .added
      { n with replayLog, relays := n.relays.set k ⟨request, phase, !n.delivered request.seqNum⟩ }
    | _ => n
  | .pushEntry =>
    match n.relays[k]? with
    | some ⟨request, .added, first⟩ =>
      match n.pendingQueue.pushEntry request.entry with
      | none => { n with relays := n.relays.set k ⟨request, .threw, first⟩ }
      | some pendingQueue =>
        { n with
          pendingQueue
          relays := n.relays.set k ⟨request, .pushed, first⟩
          queued := n.queued ++ [request.entry] }
    | _ => n
  | .drop =>
    match n.relays[k]? with
    | some ⟨request, .arrived, first⟩ => { n with relays := n.relays.set k ⟨request, .lost, first⟩ }
    | _ => n

/-! ## `relay_write_background` -/

/-- the sent-list entry that `relay_write_background` makes of `e` -/
def sentEntry (e : Entry) : SentListEntry := ⟨e.reqId, e.volumeOffset⟩

inductive RwbAct where
  | poll
  | spin
  | pop
  /-- the loop condition is false -/
  | leave
  /-- the call has failed -/
  | retry
  | write
  | bump
  | send

def Node.rwbAct (n : Node) : RwbAct → Node
  | .poll =>
    match n.rwb, n.pendingQueue.peekEntry with
    | .poll, some _ => { n with rwb := .spin }
    | _, _ => n
  | .spin =>
    match n.rwb, n.pendingQueue.peekEntry with
    | .spin, some e => if e.seqNum = n.writeSeq + 1 then { n with rwb := .pop } else n
    | _, _ => n
  | .pop =>
    match n.rwb, n.pendingQueue.popEntry with
    | .pop, some (e, pendingQueue) => { n with rwb := .relay e, pendingQueue }
    | _, _ => n
  | .leave =>
    match n.rwb with
    | .relay e => if n.state.relays then n else { n with rwb := .write e }
    | _ => n
  | .retry =>
    match n.rwb with
    | .calling e _ _ => { n with rwb := .relay e }
    | _ => n
  | .write =>
    match n.rwb with
    | .write e => { n with rwb := .bump e, written := n.written ++ [{ e with data := Data.ofString e.data.val }] }
    | _ => n
  | .bump =>
    match n.rwb with
    | .bump e => { n with rwb := .send e, writeSeq := n.writeSeq + 1 }
    | _ => n
  | .send =>
    match n.rwb with
    | .send e =>
      match n.sentList.pushEntry (toInt e.seqNum) ⟨e.reqId, e.volumeOffset⟩ with
      | none => { n with rwb := .dead }
      | some sentList => { n with rwb := .poll, sentList }
    | _ => n

/-! ## `relay_write_ack_background` and `RelayWriteAck` -/

inductive AckAct where
  | start
  | pop
  | commit
  | log
  | bump
  /-- the loop condition is false -/
  | leave
  /-- the call has failed -/
  | retry

/-- the condition of the loop that calls the upstream node -/
def AckThread.relays (t : AckThread) (s : State) : Bool :=
  if t.background then s == .tail else s != .head && s != .single

/-- where a thread goes after that loop: the background thread starts over -/
def AckThread.finish (t : AckThread) : AckThread := { t with phase := if t.background then .start else .done }

def Node.setAck (n : Node) (k : ℕ) (t : AckThread) : Node := { n with acks := n.acks.set k t }

def Node.ackStart (n : Node) (k : ℕ) (t : AckThread) : Node :=
  if t.background then
    if n.state = .tail ∨ n.state = .single then n.setAck k { t with seq := n.commitSeq + 1, phase := .ready }
    else n.setAck k { t with phase := .done }
  else if n.commitSeq + 1 = t.seq then n.setAck k { t with phase := .ready }
  else n

def Node.ackPop (n : Node) (k : ℕ) (t : AckThread) : Node :=
  match n.sentList.popEntry (toInt t.seq) with
  -- the exception is caught by the background thread and fails a handler
  | none => n.setAck k { t with phase := if t.background then .start else .failed }
  | some (e, sentList) => { n.setAck k { t with phase := .popped e } with sentList }

def Node.ackAct (n : Node) (k : ℕ) (a : AckAct) : Node :=
  match n.acks[k]? with
  | none => n
  | some t =>
    match a, t.phase with
    | .start, .start => n.ackStart k t
    | .pop, .ready => n.ackPop k t
    | .commit, .popped e =>
      { n.setAck k { t with phase := .stored e } with
        lastCommitted := t.seq
        committed := n.committed ++ [(t.seq, e.volumeOffset)] }
    | .log, .stored e =>
      { n.setAck k { t with phase := .logged } with replayLog := (n.replayLog.commitLogEntry e.reqId).2 }
    | .bump, .logged =>
      { n.setAck k { t with phase := .relaying } with
        commitSeq := if t.background then n.commitSeq + 1 else toInt t.seq }
    | .leave, .relaying => if t.relays n.state then n else n.setAck k t.finish
    | .retry, .calling _ _ => n.setAck k { t with phase := .relaying }
    | _, _ => n

/-! ## Steps of a node -/

/-- a step of a thread of the node -/
inductive Act where
  | write (a : WriteAct)
  | relay (k : ℕ) (a : RelayAct)
  | rwb (a : RwbAct)
  | ack (k : ℕ) (a : AckAct)
  /-- `ackLogEntry` in a `WriteAck` or `AckReplayLog` handler -/
  | ackLogEntry (r : ClientRequestId)

def Node.ackLogEntry (n : Node) (r : ClientRequestId) : Node :=
  let (result, replayLog) := n.replayLog.ackLogEntry r
  { n with replayLog, acked := if result = 0 then n.acked ++ [r] else n.acked }

def Node.act (n : Node) (a : Act) : Node :=
  if n.rwb.isDead then n
  else match a with
    | .write a => n.writeAct a
    | .relay k a => n.relayAct k a
    | .rwb a => n.rwbAct a
    | .ack k a => n.ackAct k a
    | .ackLogEntry r => n.ackLogEntry r

/-- the node's half of a call between nodes -/
inductive Wire where
  /-- `RelayWrite` is called; handler `k` of node `j` will answer -/
  | relaySent (j k : ℕ)
  | relayArrives (request : RelayWriteRequest)
  /-- the call returns OK -/
  | relayOk
  /-- thread `k` calls `RelayWriteAck`; thread `m` of node `j` will answer -/
  | ackSent (k j m : ℕ)
  | ackArrives (seq : ℤ)
  /-- the call of thread `k` returns OK -/
  | ackOk (k : ℕ)

def Node.wire (n : Node) : Wire → Node
  | .relaySent j k =>
    match n.rwb with
    | .relay e => { n with rwb := .calling e j k }
    | _ => n
  | .relayArrives request => { n with relays := n.relays ++ [⟨request, .arrived, false⟩] }
  | .relayOk =>
    match n.rwb with
    | .calling e _ _ => { n with rwb := .write e }
    | _ => n
  | .ackSent k j m =>
    match n.acks[k]? with
    | some ⟨background, seq, .relaying⟩ => n.setAck k ⟨background, seq, .calling j m⟩
    | _ => n
  | .ackArrives seq => { n with acks := n.acks ++ [⟨false, seq, .start⟩] }
  | .ackOk k =>
    match n.acks[k]? with
    | some ⟨background, seq, .calling _ _⟩ => n.setAck k (AckThread.finish ⟨background, seq, .relaying⟩)
    | _ => n

end ChainedBlockStorage.Chain
