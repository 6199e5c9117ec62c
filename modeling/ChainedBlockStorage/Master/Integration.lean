/-
`ChangeMode` with the answers to the calls that it makes of the new node.

An old tail or single server that takes another role calls `Restore` and `UpdateReplayLog` first and looks at neither
status.

- `joining_callChangeMode`: with both answers OK this is what the steps of `Chain/Join` do, one after another.
- `integration_reported`: when the answer of `ChangeMode` tells whether the new node has the volume and the log.
- `failed_integration_succeeds`: both calls fail, the new node has nothing, and `ChangeMode` is OK.
-/
import ChainedBlockStorage.Master.Roster

namespace ChainedBlockStorage.Master

open Chain Run Tables

/-! ## The call -/

/-- how a call ends for its caller, and whether its handler has run: an error can come before or after that -/
structure Answer where
  status : Status
  ran : Bool
  ran_of_ok : status = .ok → ran = true

def Answer.ok : Answer := ⟨.ok, true, fun _ => rfl⟩

/-- an error before the handler: a request above the receiver's message size limit -/
def Answer.rejected : Answer := ⟨.other, false, fun h => by cases h⟩

/-- what `ChangeMode` leaves: its status, the server itself and the new node -/
structure Changed where
  status : Status
  node : Chain.Node
  newNode : Chain.Node

/-- `UpdateReplayLog` -/
def receiveLog (m : Chain.Node) (log : ReplayLog) : Chain.Node := { m with replayLog := log }

/-- the two calls of the new node; both statuses are dropped -/
def transfer (old : Chain.Node) (lastSeqNum : UInt64) (restore updateReplayLog : Answer) (newNode : Chain.Node) :
    Chain.Node :=
  let newNode := if restore.ran then newNode.restore (old.getModifiedOffsets lastSeqNum.toInt64.toInt) else newNode
  if updateReplayLog.ran then receiveLog newNode old.replayLog else newNode

/-- `MasterListenerImpl::ChangeMode` -/
def callChangeMode (n : Chain.Node) (request : ChangeModeRequest ℕ) (restore updateReplayLog : Answer)
    (newNode : Chain.Node) : Changed where
  status := .ok
  node := n.changeMode request.newState request.prevAddr request.nextAddr
  newNode :=
    if request.newState.relays && !n.state.relays then
      transfer n request.lastSeqNum restore updateReplayLog newNode
    else newNode

/-- **The steps of a join.** Node u is a tail, or a single server without links. -/
theorem joining_callChangeMode (u : ℕ) (f : Joining) (lastSeqNum : UInt64) (hphase : f.phase = .idle)
    (halive : (f.nodes u).rwb.isDead = false) (hseq : lastSeqNum.toInt64.toInt = (f.nodes (u + 1)).commitSeq)
    (hrole : (f.nodes u).state = .tail ∨ (f.nodes u).state = .single ∧ (f.nodes u).upstream = none) :
    let old := if (f.nodes u).state = .single then State.head else .middle
    let r := callChangeMode (f.nodes u) ⟨old, none, some (u + 1), lastSeqNum⟩ .ok .ok (f.nodes (u + 1))
    let g := run (Joining.step u) f [.change .link, .change .getModifiedOffsets, .change .restore,
      .change .getRelayLogContent, .change .updateReplayLog, .change .setState]
    g.nodes u = { r.node with headService := (f.nodes u).headService } ∧ g.nodes (u + 1) = r.newNode := by
  intro old r g
  rcases hrole with hs | ⟨hs, hup⟩
  · have hold : old = .middle := by simp [old, hs]
    constructor
    · simp [g, r, hold, run, Joining.step, Joining.changeMode, callChangeMode, Chain.Node.changeMode, hphase, halive, hs]
    · simp [g, r, hold, run, Joining.step, Joining.changeMode, callChangeMode, transfer, receiveLog, Answer.ok,
        State.relays,
        Chain.Node.getModifiedOffsets, hphase, halive, hs, hseq]
  · have hold : old = .head := by simp [old, hs]
    constructor
    · simp [g, r, hold, run, Joining.step, Joining.changeMode, callChangeMode, Chain.Node.changeMode, hphase, halive, hs, hup]
    · simp [g, r, hold, run, Joining.step, Joining.changeMode, callChangeMode, transfer, receiveLog, Answer.ok,
        State.relays,
        Chain.Node.getModifiedOffsets, hphase, halive, hs, hseq]

/-! ## What the status says -/

/-- the new node is as both handlers would leave it -/
def Integrated (n : Chain.Node) (lastSeqNum : UInt64) (newNode newNode' : Chain.Node) : Prop :=
  newNode' = transfer n lastSeqNum .ok .ok newNode

/-- OK together with a new role means that the new node has everything; otherwise nothing has changed at `n` -/
structure Reported (n : Chain.Node) (took : Prop) (r : Changed) : Prop where
  success : r.status = .ok → r.node.state.relays = true → took
  failure : ¬ took → r.node.state = n.state ∧ r.node.upstream = n.upstream ∧ r.node.downstream = n.downstream

/-- each handler has run, or would have changed nothing -/
structure NothingMissed (n : Chain.Node) (lastSeqNum : UInt64) (restore updateReplayLog : Answer) (newNode : Chain.Node) :
    Prop where
  volume : restore.ran = true ∨ newNode.restore (n.getModifiedOffsets lastSeqNum.toInt64.toInt) = newNode
  log : updateReplayLog.ran = true ∨ newNode.replayLog = n.replayLog

theorem receiveLog_inj {m m' : Chain.Node} {log log' : ReplayLog} (hlog : m.replayLog = m'.replayLog) :
    receiveLog m log = receiveLog m' log' ↔ m = m' ∧ log = log' := by
  constructor
  · intro h
    refine ⟨?_, congrArg Chain.Node.replayLog h⟩
    calc m = receiveLog (receiveLog m log) m.replayLog := rfl
      _ = receiveLog (receiveLog m' log') m'.replayLog := by rw [h, hlog]
      _ = m' := rfl
  · rintro ⟨rfl, rfl⟩
    rfl

/-- the volume and the log are transferred independently -/
theorem transfer_integrated (n : Chain.Node) (lastSeqNum : UInt64) (restore updateReplayLog : Answer)
    (newNode : Chain.Node) :
    Integrated n lastSeqNum newNode (transfer n lastSeqNum restore updateReplayLog newNode) ↔
      NothingMissed n lastSeqNum restore updateReplayLog newNode := by
  set entries := n.getModifiedOffsets lastSeqNum.toInt64.toInt with hentries
  set restored := if restore.ran = true then newNode.restore entries else newNode with hrestored
  have hlog : restored.replayLog = newNode.replayLog := by
    rw [hrestored]
    split <;> rfl
  have hlog' : restored.replayLog = (newNode.restore entries).replayLog := hlog
  have hleft : transfer n lastSeqNum restore updateReplayLog newNode =
      receiveLog restored (if updateReplayLog.ran = true then n.replayLog else newNode.replayLog) := by
    by_cases hu : updateReplayLog.ran = true
    · simp only [transfer, if_pos hu, hrestored, hentries]
    · simp only [transfer, if_neg hu]
      rw [← hlog]
      rfl
  have hright : transfer n lastSeqNum .ok .ok newNode = receiveLog (newNode.restore entries) n.replayLog := rfl
  have hvol : restored = newNode.restore entries ↔ restore.ran = true ∨ newNode.restore entries = newNode := by
    by_cases hr : restore.ran = true
    · simp [hrestored, hr]
    · simp [hrestored, hr, eq_comm]
  have hsame : (if updateReplayLog.ran = true then n.replayLog else newNode.replayLog) = n.replayLog ↔
      updateReplayLog.ran = true ∨ newNode.replayLog = n.replayLog := by
    by_cases hu : updateReplayLog.ran = true <;> simp [hu]
  rw [Integrated, hleft, hright, receiveLog_inj hlog', hvol, hsame]
  exact ⟨fun h => ⟨h.1, h.2⟩, fun h => ⟨h.volume, h.log⟩⟩

/-- **When a failed integration is reported.** `ChangeMode` on an old tail or single server that hands the tail over,
for every answer to the two calls. -/
theorem integration_reported (n : Chain.Node) (request : ChangeModeRequest ℕ) (restore updateReplayLog : Answer)
    (newNode : Chain.Node) (hold : n.state.relays = false) (hnew : request.newState.relays = true) :
    let r := callChangeMode n request restore updateReplayLog newNode
    Reported n (Integrated n request.lastSeqNum newNode r.newNode) r ↔
      NothingMissed n request.lastSeqNum restore updateReplayLog newNode := by
  intro r
  have hstate : r.node.state = request.newState := (changeMode_same n _ _ _).2.2.2.1
  have hnode : r.newNode = transfer n request.lastSeqNum restore updateReplayLog newNode := by
    simp only [r, callChangeMode, hold, hnew, Bool.not_false, Bool.and_self, if_true]
  rw [hnode, ← transfer_integrated]
  constructor
  · intro h
    exact h.success rfl (by rw [hstate]; exact hnew)
  · intro h
    exact ⟨fun _ _ => h, fun hn => absurd h hn⟩

/-- a single server with one committed block, and a node that has just started -/
def aloneNode : Chain.Node := { stable 1 1 ReplayLog.empty 0 with committed := [(1, 0)] }

def startedNode : Chain.Node := Chain.Node.idle .initializing none none false 0 ReplayLog.empty []

def joinOne : ChangeModeRequest ℕ := ⟨.head, none, some 1, 0⟩

/-- **A failed integration is a success.** Neither handler runs; the single server becomes the head of a chain of two
and answers OK, so that `Register` makes the new node the tail, which is without block 0. -/
theorem failed_integration_succeeds :
    let r := callChangeMode aloneNode joinOne .rejected .rejected startedNode
    r.status = .ok ∧ r.node.state = .head ∧ r.node.downstream = some 1 ∧ r.newNode.committed = [] ∧
      ¬ ∀ (n : Chain.Node) (request : ChangeModeRequest ℕ) (a b : Answer) (newNode : Chain.Node), n.state.relays = false →
        request.newState.relays = true → Reported n
          (Integrated n request.lastSeqNum newNode (callChangeMode n request a b newNode).newNode)
          (callChangeMode n request a b newNode) := by
  intro r
  refine ⟨rfl, rfl, rfl, rfl, fun hall => ?_⟩
  have htook := (hall aloneNode joinOne .rejected .rejected startedNode rfl rfl).success rfl rfl
  exact absurd (congrArg Chain.Node.committed htook) (by decide +kernel)

theorem integration_reported_log_lost :
    let r := callChangeMode aloneNode joinOne .ok .rejected startedNode
    Reported aloneNode (Integrated aloneNode 0 startedNode r.newNode) r ↔
      NothingMissed aloneNode 0 .ok .rejected startedNode :=
  integration_reported aloneNode joinOne .ok .rejected startedNode rfl rfl

end ChainedBlockStorage.Master
