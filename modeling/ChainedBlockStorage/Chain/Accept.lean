/-
`HeadServiceImpl::Write` and `NodeListenerImpl::RelayWrite` as whole calls.

Both add the request to the replay log first and push its entry to the pending queue last, and the push can throw. What
they do to the two tables is one function, `accept`.

- `serveWrite_eq`, `serveRelay_eq`: the calls do the steps of the node model, one after another.
- `accept_all_or_nothing`: when a call does both or neither, and when a retry of a request that was not queued is served.
- `throw_logs_request`: the log has the request, the queue does not, and the retry is refused.
-/
import ChainedBlockStorage.Chain.Node

namespace ChainedBlockStorage.Chain

open Tables

/-! ## The calls -/

/-- `replayLog`, `pendingQueue` and `currentSeq` -/
structure Books where
  replayLog : ReplayLog
  pendingQueue : PendingQueue
  currentSeq : ℤ

/-- how a call ends -/
inductive Outcome where
  /-- OK, because the log has the request -/
  | refused
  /-- OK, with the request queued -/
  | queued
  /-- `pushEntry` threw -/
  | threw
deriving DecidableEq

/-- `addToLog` and, unless it is negative, `pushEntry` -/
def accept (t : Books) (entry : Entry) : Outcome × Books :=
  let (addResult, replayLog) := t.replayLog.addToLog entry.reqId
  if addResult < 0 then (.refused, { t with replayLog })
  else match t.pendingQueue.pushEntry entry with
    | none => (.threw, { t with replayLog })
    | some pendingQueue => (.queued, { t with replayLog, pendingQueue })

/-- `HeadServiceImpl::Write`: an accepted request takes `currentSeq++` before it is pushed -/
def headWrite (t : Books) (request : WriteRequest) : Outcome × Books :=
  let (outcome, t') := accept t (request.entry t.currentSeq)
  (outcome, if outcome = .refused then t' else { t' with currentSeq := t.currentSeq + 1 })

/-- `NodeListenerImpl::RelayWrite` -/
def relayWrite (t : Books) (request : RelayWriteRequest) : Outcome × Books := accept t request.entry

/-! ## In the node -/

def Node.books (n : Node) : Books := ⟨n.replayLog, n.pendingQueue, n.currentSeq⟩

/-- a `Write` handler from start to end, with no other thread in between -/
def Node.serveWrite (n : Node) (request : WriteRequest) : Node :=
  ((n.writeAct (.addToLog request)).writeAct (.takeSeq n.adding.length)).writeAct (.pushEntry n.pushing.length)

/-- a `RelayWrite` handler from start to end -/
def Node.serveRelay (n : Node) (request : RelayWriteRequest) : Node :=
  ((n.wire (.relayArrives request)).relayAct n.relays.length .addToLog).relayAct n.relays.length .pushEntry

theorem serveWrite_eq (n : Node) (request : WriteRequest) (h : n.headService = true) :
    (n.serveWrite request).books = (headWrite n.books request).2 := by
  have hid : ∀ k, (request.entry k).reqId = request.clientRequestId := fun _ => rfl
  by_cases hneg : (n.replayLog.addToLog request.clientRequestId).1 < 0
  · simp [Node.serveWrite, Node.writeAct, h, hneg, headWrite, accept, Node.books, hid]
  · cases hq : n.pendingQueue.pushEntry (request.entry n.currentSeq) with
    | none => simp [Node.serveWrite, Node.writeAct, h, hneg, headWrite, accept, Node.books, hid, hq]
    | some q => simp [Node.serveWrite, Node.writeAct, h, hneg, headWrite, accept, Node.books, hid, hq]

theorem serveRelay_eq (n : Node) (request : RelayWriteRequest) :
    (n.serveRelay request).books = (relayWrite n.books request).2 := by
  have hid : request.entry.reqId = request.clientRequestId := rfl
  by_cases hneg : (n.replayLog.addToLog request.clientRequestId).1 < 0
  · simp [Node.serveRelay, Node.wire, Node.relayAct, hneg, relayWrite, accept, Node.books, hid]
  · cases hq : n.pendingQueue.pushEntry request.entry with
    | none => simp [Node.serveRelay, Node.wire, Node.relayAct, hneg, relayWrite, accept, Node.books, hid, hq]
    | some q => simp [Node.serveRelay, Node.wire, Node.relayAct, hneg, relayWrite, accept, Node.books, hid, hq]

/-! ## All or nothing -/

/-- the log has gained an uncommitted entry for the request, and the queue its entry -/
structure InBoth (t t' : Books) (e : Entry) : Prop where
  fresh : t.replayLog.flag? e.reqId.identifier e.reqId.timestamp = none
  log : ∀ c u, t'.replayLog.flag? c u =
    if c = e.reqId.identifier ∧ u = e.reqId.timestamp then some false else t.replayLog.flag? c u
  unqueued : ∀ x ∈ t.pendingQueue, x.seqNum ≠ e.seqNum
  queue : ∀ x, x ∈ t'.pendingQueue ↔ x ∈ t.pendingQueue ∨ x = e

/-- both or neither; and a request that was neither refused nor queued is not refused the next time -/
structure AllOrNothing (t : Books) (e : Entry) (r : Outcome × Books) : Prop where
  both : InBoth t r.2 e ∨ r.2.replayLog = t.replayLog ∧ r.2.pendingQueue = t.pendingQueue
  retry : r.1 = .threw → 0 ≤ (r.2.replayLog.addToLog e.reqId).1

/-- `currentSeq` plays no part in it -/
theorem AllOrNothing.congr {t : Books} {e : Entry} {r r' : Outcome × Books} (h : AllOrNothing t e r) (h1 : r'.1 = r.1)
    (h2 : r'.2.replayLog = r.2.replayLog) (h3 : r'.2.pendingQueue = r.2.pendingQueue) : AllOrNothing t e r' := by
  refine ⟨?_, fun he => ?_⟩
  · rw [h2, h3]
    refine h.both.imp (fun hr => ?_) id
    exact ⟨hr.fresh, by rw [h2]; exact hr.log, hr.unqueued, by rw [h3]; exact hr.queue⟩
  · rw [h2]
    exact h.retry (h1 ▸ he)

/-- the log rejects the request: all its client has is later, or the request is there -/
def Rejects (L : ReplayLog) (r : ClientRequestId) : Prop := L.tooOld r = true ∨ (L.flag? r.identifier r.timestamp).isSome

theorem addToLog_neg_iff (L : ReplayLog) (r : ClientRequestId) : (L.addToLog r).1 < 0 ↔ Rejects L r := by
  rw [ReplayLog.addToLog_code, Rejects]
  split_ifs with h1 h2
  · simp [h1]
  · simp [h2]
  · simp [h1, h2]

theorem accept_all_or_nothing (t : Books) (e : Entry) :
    AllOrNothing t e (accept t e) ↔ Rejects t.replayLog e.reqId ∨ toInt e.seqNum ∉ t.pendingQueue.seqNumSet := by
  by_cases hneg : (t.replayLog.addToLog e.reqId).1 < 0
  · have hsame := ReplayLog.addToLog_neg _ _ hneg
    have hr : accept t e = (.refused, t) := by simp [accept, hneg, hsame]
    have hrej := (addToLog_neg_iff _ _).1 hneg
    rw [hr]
    exact ⟨fun _ => Or.inl hrej, fun _ => ⟨Or.inr ⟨rfl, rfl⟩, fun h => by cases h⟩⟩
  have hlog := ReplayLog.addToLog_zero _ _ hneg
  have hrej : ¬ Rejects t.replayLog e.reqId := fun h => hneg ((addToLog_neg_iff _ _).2 h)
  have hfresh : t.replayLog.flag? e.reqId.identifier e.reqId.timestamp = none := by
    by_contra hne
    exact hrej (Or.inr (Option.isSome_iff_ne_none.2 hne))
  cases hq : t.pendingQueue.pushEntry e with
  | some q =>
    obtain ⟨hmem, hne⟩ := PendingQueue.pushEntry_eq_some hq
    have hr : accept t e = (.queued, ⟨(t.replayLog.addToLog e.reqId).2, q, t.currentSeq⟩) := by simp [accept, hneg, hq]
    have hset : toInt e.seqNum ∉ t.pendingQueue.seqNumSet := fun hm => by simp [PendingQueue.pushEntry, hm] at hq
    rw [hr]
    exact ⟨fun _ => Or.inr hset, fun _ => ⟨Or.inl ⟨hfresh, hlog, hne, hmem⟩, fun h => by cases h⟩⟩
  | none =>
    have hr : accept t e = (.threw, ⟨(t.replayLog.addToLog e.reqId).2, t.pendingQueue, t.currentSeq⟩) := by
      simp [accept, hneg, hq]
    have hset : toInt e.seqNum ∈ t.pendingQueue.seqNumSet := by
      by_contra hm
      simp [PendingQueue.pushEntry, hm] at hq
    have hin : (t.replayLog.addToLog e.reqId).2.flag? e.reqId.identifier e.reqId.timestamp = some false := by
      rw [hlog, if_pos ⟨rfl, rfl⟩]
    rw [hr]
    constructor
    · intro h
      -- the log has changed, so the retry is refused
      have hretry := h.retry rfl
      have hneg' := (addToLog_neg_iff (t.replayLog.addToLog e.reqId).2 e.reqId).2 (Or.inr (by rw [hin]; rfl))
      simp only at hretry
      omega
    · intro h
      rcases h with h | h
      · exact absurd h hrej
      · exact absurd hset h

/-- **When a request is accepted all or nothing.** For every state of the log, the queue and `currentSeq`, and every
request of a client or of the upstream node. -/
theorem write_all_or_nothing (t : Books) :
    (∀ request : WriteRequest, AllOrNothing t (request.entry t.currentSeq) (headWrite t request) ↔
      Rejects t.replayLog request.clientRequestId ∨ toInt t.currentSeq ∉ t.pendingQueue.seqNumSet) ∧
      ∀ request : RelayWriteRequest, AllOrNothing t request.entry (relayWrite t request) ↔
        Rejects t.replayLog request.clientRequestId ∨ toInt request.seqNum ∉ t.pendingQueue.seqNumSet := by
  refine ⟨fun request => ?_, fun request => accept_all_or_nothing t request.entry⟩
  have hlog : (headWrite t request).2.replayLog = (accept t (request.entry t.currentSeq)).2.replayLog := by
    simp only [headWrite]
    split <;> rfl
  have hqueue : (headWrite t request).2.pendingQueue = (accept t (request.entry t.currentSeq)).2.pendingQueue := by
    simp only [headWrite]
    split <;> rfl
  have hsame : AllOrNothing t (request.entry t.currentSeq) (headWrite t request) ↔
      AllOrNothing t (request.entry t.currentSeq) (accept t (request.entry t.currentSeq)) :=
    ⟨fun h => h.congr rfl hlog.symm hqueue.symm, fun h => h.congr rfl hlog hqueue⟩
  exact hsame.trans (accept_all_or_nothing t (request.entry t.currentSeq))

/-- request number 1 of some client -/
def relayedBy (pid : ℕ) : RelayWriteRequest := ⟨[], 0, 1, ⟨"10.0.0.1", pid, ⟨1, 0⟩⟩⟩

/-- a node that has just been relayed number 1 -/
def relayedOne : Books := (relayWrite ⟨ReplayLog.empty, Sorted.empty, 1⟩ (relayedBy 1)).2

/-- **A request that was not queued is refused for good.** Number 1 is queued; the same number for another request
throws, the log keeps that request, and the retry is answered as a duplicate. -/
theorem throw_logs_request :
    (relayWrite relayedOne (relayedBy 2)).1 = .threw ∧
      (relayWrite (relayWrite relayedOne (relayedBy 2)).2 (relayedBy 2)).1 = .refused ∧
      (headWrite relayedOne ⟨[], 0, (relayedBy 2).clientRequestId⟩).1 = .threw ∧
      ¬ ∀ (t : Books) (request : RelayWriteRequest), AllOrNothing t request.entry (relayWrite t request) := by
  have hthrew : (relayWrite relayedOne (relayedBy 2)).1 = .threw := by decide +kernel
  refine ⟨hthrew, by decide +kernel, by decide +kernel, fun hall => ?_⟩
  have hretry := (hall relayedOne (relayedBy 2)).retry hthrew
  exact absurd hretry (by decide +kernel)

end ChainedBlockStorage.Chain
