/-
One call of `Client::write`, with as many attempts as it needs.

Every attempt builds a new request, whose timestamp is the time of the attempt. A reply can be lost or be an error
whether or not the head has executed the attempt, and an attempt whose reply was lost can reach the head later.
Everything else that the chain does goes on meanwhile.

- `write_numbered_once`: the head assigns at most one number to a call, in every run in which its log rejects what it
  has accepted, and in which an attempt is not executed after one with another time was accepted, unless the log
  rejects it.
- `retry_numbered_twice`: an executed attempt whose reply is lost, and the retry, get a number each.
-/
import ChainedBlockStorage.Chain.ClientCalls

namespace ChainedBlockStorage.Chain

open Run Tables

/-! ## The call -/

/-- the arguments of a call and the fields of the client it reads; `data` is what `set_data` copies of `data.buff` -/
structure WriteArgs where
  clientIp : String
  clientPid : ℕ
  data : List UInt8
  offset : Int64

/-- `timeval` -/
structure Timeval where
  sec : ℤ
  usec : ℤ

def Timeval.timestamp (tv : Timeval) : Timestamp := ⟨tv.sec, tv.usec * 1000⟩

/-- the request of an attempt -/
def WriteArgs.request (c : WriteArgs) (tv : Timeval) : WriteRequest :=
  ⟨c.data, c.offset.toUInt64, ⟨c.clientIp, c.clientPid, tv.timestamp⟩⟩

structure PendingWriteEntry where
  data : List UInt8
  offset : Int64

/-- where the call is -/
inductive WritePhase where
  /-- `gettimeofday` is next -/
  | attempt
  /-- inside the call of the head -/
  | calling
  | returned (timestamp : Timestamp)
  /-- `refreshConfig` threw -/
  | threw

structure Attempt where
  request : WriteRequest
  /-- the head has run `addToLog` for it -/
  executed : Bool

structure Session where
  nodes : Nodes
  phase : WritePhase
  attempts : List Attempt
  pendingWrites : Sorted (Prod.fst : Timestamp × PendingWriteEntry → Timestamp)
  /-- history: the attempts for which `addToLog` returned 0 -/
  accepted : List ClientRequestId

inductive SessionEvent where
  | attempt (tv : Timeval)
  /-- attempt `k` reaches the head -/
  | execute (k : ℕ)
  /-- the call of the head returns OK -/
  | ok
  /-- it returns an error, and `refreshConfig` succeeds or throws -/
  | error (refreshed : Bool)
  /-- a step of the chain, among them the rest of the handlers and those of other clients -/
  | chain (e : Event)

/-- `addToLog` of a request returns 0 -/
def Node.accepts (n : Node) (r : ClientRequestId) : Bool :=
  !n.rwb.isDead && n.headService && !decide ((n.replayLog.addToLog r).1 < 0)

/-- the head answers the last attempt OK -/
def Session.answered (s : Session) : Option ClientRequestId :=
  match s.phase, s.attempts.getLast? with
  | .calling, some a =>
    if a.executed ∧ a.request.clientRequestId ∈ (s.nodes 0).answered then some a.request.clientRequestId else none
  | _, _ => none

def Session.step (c : WriteArgs) (s : Session) : SessionEvent → Session
  | .attempt tv =>
    match s.phase with
    | .attempt => { s with phase := .calling, attempts := s.attempts ++ [⟨c.request tv, false⟩] }
    | _ => s
  | .execute k =>
    match s.attempts[k]? with
    | some ⟨request, false⟩ =>
      { s with
        nodes := Chain.step s.nodes (.act 0 (.write (.addToLog request)))
        attempts := s.attempts.set k ⟨request, true⟩
        accepted := if (s.nodes 0).accepts request.clientRequestId then s.accepted ++ [request.clientRequestId]
          else s.accepted }
    | _ => s
  | .ok =>
    match s.answered with
    | some r =>
      { s with
        phase := .returned r.timestamp
        pendingWrites := s.pendingWrites.insert (r.timestamp, ⟨c.data, c.offset⟩) }
    | none => s
  | .error refreshed =>
    match s.phase with
    | .calling => { s with phase := if refreshed then .attempt else .threw }
    | _ => s
  | .chain e => { s with nodes := Chain.step s.nodes e }

/-- the call is about to be made on a chain at rest -/
def Session.start (n start : ℕ) (log : ReplayLog) : Session where
  nodes := stable n start log
  phase := .attempt
  attempts := []
  pendingWrites := Sorted.empty
  accepted := []

/-- what the head has numbered for the call -/
def Session.numbered (s : Session) : List Entry := (s.nodes 0).numbered.filter fun e => e.reqId ∈ s.accepted

/-! ## The rules -/

/-- the log has a reason to reject the request -/
def Node.rejects (n : Node) (r : ClientRequestId) : Bool := n.replayLog.tooOld r || n.logged r

/-- the request that reaches `addToLog` at the head -/
def SessionEvent.adds (s : Session) : SessionEvent → Option ClientRequestId
  | .execute k => s.attempts[k]?.map fun a => a.request.clientRequestId
  | .chain (.act 0 (.write (.addToLog request))) => some request.clientRequestId
  | _ => none

/-- the log rejects what the head has accepted -/
def RejectsAccepted (s : Session) (e : SessionEvent) : Prop :=
  ∀ r ∈ e.adds s, r ∈ (s.nodes 0).accepted → (s.nodes 0).rejects r = true

/-- an attempt is not executed after another id of the call was accepted, unless the log rejects it -/
def NoFreshId (s : Session) : SessionEvent → Prop
  | .execute k => ∀ r ∈ SessionEvent.adds s (.execute k), (∃ r' ∈ s.accepted, r' ≠ r) → (s.nodes 0).rejects r = true
  | _ => True

/-! ## At most one number -/

theorem accepts_eq_false_of_rejects {n : Node} {r : ClientRequestId} (h : n.rejects r = true) : n.accepts r = false := by
  unfold Node.accepts
  by_contra hc
  have hcode : ¬ (n.replayLog.addToLog r).1 < 0 := by
    intro hneg
    simp [hneg] at hc
  obtain ⟨hold, hnot⟩ := (addToLog_accepts n r).1 hcode
  rw [Node.rejects, hold, hnot] at h
  cases h

/-- an accepted request is recorded -/
theorem accepted_of_accepts {n : Node} {q : WriteRequest} (h : n.accepts q.clientRequestId = true) :
    q.clientRequestId ∈ (n.act (.write (.addToLog q))).accepted := by
  simp only [Node.accepts, Bool.and_eq_true, Bool.not_eq_true', decide_eq_false_iff_not] at h
  obtain ⟨⟨hd, hh⟩, hc⟩ := h
  simp [Node.act, hd, Node.writeAct, hh, hc]

/-- what has been accepted stays accepted -/
theorem step_accepted (s : Nodes) (e : Event) (i : ℕ) : (s i).accepted <+: (step s e i).accepted := by
  refine step_node (fun a b => a.accepted <+: b.accepted) (fun _ => List.prefix_refl _) (fun _ _ _ => List.IsPrefix.trans)
    (fun n a => ?_) (fun n w => ?_) s e i
  · unfold Node.act
    split
    · exact List.prefix_refl _
    cases a with
    | write a =>
      cases a <;> simp only [Node.writeAct] <;> repeat' split
      all_goals first | exact List.prefix_refl _ | exact List.prefix_append _ _
    | relay k a =>
      cases a <;> simp only [Node.relayAct] <;> repeat' split
      all_goals exact List.prefix_refl _
    | rwb a =>
      cases a <;> simp only [Node.rwbAct] <;> repeat' split
      all_goals exact List.prefix_refl _
    | ack k a =>
      simp only [Node.ackAct, Node.ackStart, Node.ackPop]
      repeat' split
      all_goals exact List.prefix_refl _
    | ackLogEntry r => exact List.prefix_refl _
  · cases w <;> simp only [Node.wire] <;> repeat' split
    all_goals exact List.prefix_refl _

/-- the head accepts an id once, the call's ids among them, and at most one of these -/
structure SessionInv (s : Session) : Prop where
  head : AcceptInv (s.nodes 0)
  accepted : s.accepted ⊆ (s.nodes 0).accepted
  once : s.accepted.length ≤ 1

/-- a step of the chain whose `addToLog` at the head is not for an accepted id that the log takes again -/
theorem chain_acceptInv {s : Nodes} (h : AcceptInv (s 0)) (e : Event)
    (he : ∀ q, e = .act 0 (.write (.addToLog q)) → q.clientRequestId ∈ (s 0).accepted →
      (s 0).rejects q.clientRequestId = true) : AcceptInv (step s e 0) := by
  refine step_node_inv AcceptInv s e 0 h ?_ wire_acceptInv
  rintro a rfl
  apply act_acceptInv _ a h
  rintro q rfl hq -
  have hr := he q rfl hq
  simpa [Node.rejects] using hr

theorem Session.step_inv (c : WriteArgs) (s : Session) (e : SessionEvent) (h : SessionInv s)
    (hr : RejectsAccepted s e ∧ NoFreshId s e) : SessionInv (s.step c e) := by
  cases e with
  | attempt tv =>
    simp only [Session.step]
    split <;> exact ⟨h.head, h.accepted, h.once⟩
  | ok =>
    simp only [Session.step]
    split <;> exact ⟨h.head, h.accepted, h.once⟩
  | error refreshed =>
    simp only [Session.step]
    split <;> exact ⟨h.head, h.accepted, h.once⟩
  | chain e =>
    refine ⟨chain_acceptInv h.head e ?_, fun r hr => (step_accepted s.nodes e 0).subset (h.accepted hr), h.once⟩
    rintro q rfl hq
    exact hr.1 q.clientRequestId rfl hq
  | execute k =>
    simp only [Session.step]
    split
    · rename_i q hk
      have hadds : q.clientRequestId ∈ SessionEvent.adds s (.execute k) := by simp [SessionEvent.adds, hk]
      refine ⟨chain_acceptInv h.head (.act 0 (.write (.addToLog q))) ?_, ?_, ?_⟩
      · intro q' hq'
        cases hq'
        exact hr.1 _ hadds
      · have hmono := step_accepted s.nodes (.act 0 (.write (.addToLog q))) 0
        intro r hmem
        dsimp only at hmem
        split at hmem
        · rename_i hacc
          rcases List.mem_append.1 hmem with hmem | hmem
          · exact hmono.subset (h.accepted hmem)
          · rw [List.mem_singleton.1 hmem]
            simpa [Chain.step] using accepted_of_accepts hacc
        · exact hmono.subset (h.accepted hmem)
      · dsimp only
        split
        · rename_i hacc
          -- the log takes the id, so it is new, and no other id of the call was accepted
          have hnone : s.accepted = [] := by
            by_contra hne
            obtain ⟨r', hr'⟩ := List.exists_mem_of_ne_nil _ hne
            have hrej : (s.nodes 0).rejects q.clientRequestId = true := by
              by_cases heq : r' = q.clientRequestId
              · exact hr.1 _ hadds (heq ▸ h.accepted hr')
              · exact hr.2 _ hadds ⟨r', hr', heq⟩
            rw [accepts_eq_false_of_rejects hrej] at hacc
            cases hacc
          simp [hnone]
        · exact h.once
    · exact h

/-- in a list without duplicates at most `l.length` members are in `l` -/
theorem filter_mem_length_le {l l' : List ClientRequestId} (h : l'.Nodup) : (l'.filter (· ∈ l)).length ≤ l.length :=
  (List.subperm_of_subset (h.filter _) fun r hr => by simpa using (List.mem_filter.1 hr).2).length_le

/-- **One call, at most one number.** In every run in which the log rejects what it has accepted, and in which no attempt
of the call is executed after another id of the call was accepted unless the log rejects it: the head assigns at most
one number to the attempts of the call. -/
theorem write_numbered_once (c : WriteArgs) (n start : ℕ) (log : ReplayLog) (es : List SessionEvent)
    (hm : Meets (Session.step c) (fun s e => RejectsAccepted s e ∧ NoFreshId s e) (Session.start n start log) es) :
    (run (Session.step c) (Session.start n start log) es).numbered.length ≤ 1 := by
  have h : SessionInv (run (Session.step c) (Session.start n start log) es) := by
    refine run_inv_of_meets _ _ SessionInv (fun s e hi hc => Session.step_inv c s e hi hc) _ es ?_ hm
    obtain ⟨a, b, d, hs, acks, hidle⟩ := stable_idle n start log 0
    refine ⟨?_, by simp [Session.start], by simp [Session.start]⟩
    show AcceptInv (stable n start log 0)
    rw [hidle]
    exact ⟨List.nodup_nil, by simp [Node.idle], by simp [Node.idle]⟩
  have hnodup := (List.nodup_append.1 (h.head.numbered.nodup_iff.1 h.head.nodup)).1
  have hle := filter_mem_length_le (l := (run (Session.step c) (Session.start n start log) es).accepted) hnodup
  rw [List.filter_map, List.length_map] at hle
  exact hle.trans h.once

instance (s : Session) (e : SessionEvent) : Decidable (RejectsAccepted s e) :=
  inferInstanceAs (Decidable (∀ r ∈ e.adds s, r ∈ (s.nodes 0).accepted → (s.nodes 0).rejects r = true))

instance (s : Session) : ∀ e, Decidable (NoFreshId s e)
  | .execute k => inferInstanceAs (Decidable (∀ r ∈ SessionEvent.adds s (.execute k), (∃ r' ∈ s.accepted, r' ≠ r) →
      (s.nodes 0).rejects r = true))
  | .attempt _ | .ok | .error _ | .chain _ => isTrue trivial

/-- a call of the client 10.0.0.1:1 -/
def writeArgs : WriteArgs := ⟨"10.0.0.1", 1, [7], 0⟩

/-- attempt `k`, made at `sec` and executed -/
def attemptAt (sec : ℤ) (k : ℕ) : List SessionEvent :=
  [.attempt ⟨sec, 0⟩, .execute k, .chain (.act 0 (.write (.takeSeq 0))), .chain (.act 0 (.write (.pushEntry 0)))]

/-- the first attempt is lost; the retry is executed and answered, and returns its timestamp -/
theorem write_numbered_once_lost_request :
    (run (Session.step writeArgs) (Session.start 1 0 ReplayLog.empty)
      ([.attempt ⟨1, 0⟩, .error true] ++ attemptAt 2 1 ++ [.ok])).numbered.length ≤ 1 ∧
    (run (Session.step writeArgs) (Session.start 1 0 ReplayLog.empty)
      ([.attempt ⟨1, 0⟩, .error true] ++ attemptAt 2 1 ++ [.ok])).numbered.length = 1 :=
  ⟨write_numbered_once writeArgs 1 0 _ _ (by decide +kernel), by decide +kernel⟩

/-- **A retry after a lost reply is a second write**, although the log accepts no id twice. -/
theorem retry_numbered_twice :
    Meets (Session.step writeArgs) RejectsAccepted (Session.start 1 0 ReplayLog.empty)
      (attemptAt 1 0 ++ [.error true] ++ attemptAt 2 1 ++ [.ok]) ∧
    ¬ (run (Session.step writeArgs) (Session.start 1 0 ReplayLog.empty)
      (attemptAt 1 0 ++ [.error true] ++ attemptAt 2 1 ++ [.ok])).numbered.length ≤ 1 := by
  decide +kernel

end ChainedBlockStorage.Chain
