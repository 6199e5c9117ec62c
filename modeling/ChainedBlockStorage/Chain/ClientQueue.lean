/-
The calls of one client: `write`, `retryTopPendingWrite`, `peekPendingWrite`, `popPendingWrite` and `ackWrite`.

`write` keeps what it has sent in `pending_writes` until it is popped. The client makes one call at a time and looks at
no empty map. The chain runs on meanwhile, with the calls of other clients. An attempt whose call failed can still reach
the head at any later time. A `WriteAck` whose reply is lost, and what the tail passes upstream, are steps of the chain;
`addToLog` runs as one step.

- `chainKept_step`: what the client relies on at the head and at the tail.
- `clientInv_step`: one event of the client, one case each.
- `pending_writes_kept`: the writes that have returned are numbered once each, in their order and with their bytes; the
  map has those that are not popped; when `ackWrite` returns 0 all writes up to this one are stored at the tail.
-/
import ChainedBlockStorage.Chain.ClientWrite
import ChainedBlockStorage.Chain.TailReads

namespace ChainedBlockStorage.Chain

open Run Tables

/-! ## The client -/

/-- an element of `pending_writes` -/
abbrev PendingWrite := Timestamp × PendingWriteEntry

/-- the request of an attempt; `set_data` makes the same string of the data block each time -/
def PendingWriteEntry.request (ip : String) (pid : ℕ) (entry : PendingWriteEntry) (timestamp : Timestamp) :
    WriteRequest := ⟨entry.data, entry.offset.toUInt64, ⟨ip, pid, timestamp⟩⟩

/-- a call of the head that has not returned; `answers`, once `addToLog` has run for it, is how many calls with its id the
head had answered OK before -/
structure HeadCall where
  write : PendingWrite
  answers : Option ℕ

inductive ClientPhase where
  | idle
  /-- in `write`: `gettimeofday` is next -/
  | write (entry : PendingWriteEntry)
  /-- in `write`, inside the call of the head -/
  | writing (call : HeadCall)
  /-- in `retryTopPendingWrite`: `pending_writes.begin()` is next -/
  | retry
  /-- in `retryTopPendingWrite`, inside the call of the head -/
  | retrying (call : HeadCall)
  /-- `refreshConfig` threw -/
  | threw

structure Client where
  nodes : Nodes
  phase : ClientPhase
  /-- attempts whose call has failed and that have not reached the head -/
  late : List PendingWrite
  pendingWrites : Sorted (Prod.fst : PendingWrite → Timestamp)
  /-- history: all attempts -/
  sent : List PendingWrite
  /-- history: the attempts that have reached the head -/
  executed : List PendingWrite
  /-- history: what `write` has added to the map when it returned -/
  returned : List PendingWrite
  /-- history: what `popPendingWrite` has returned -/
  popped : List PendingWrite
  /-- history: the timestamps for which `ackWrite` has returned 0 -/
  acked : List Timestamp

inductive ClientEvent where
  /-- `write` is called -/
  | write (entry : PendingWriteEntry)
  | attempt (tv : Timeval)
  /-- `retryTopPendingWrite` is called -/
  | retryTop
  | resend
  /-- the call under way reaches the head -/
  | execute
  /-- attempt `k` of those that failed reaches it -/
  | executeLate (k : ℕ)
  /-- the call of the head returns OK -/
  | ok
  /-- it returns an error, and `refreshConfig` succeeds or throws -/
  | error (refreshed : Bool)
  | popPendingWrite
  /-- `ackWrite` is called, and the tail's answer arrives -/
  | ackWrite (timestamp : Timestamp)
  /-- a step of the chain -/
  | chain (e : Event)

/-- `pending_writes.begin()` -/
def Client.peekPendingWrite (c : Client) : Option PendingWrite := c.pendingWrites.first?

/-- the OK answers that the head has given for an id -/
def Node.answers (n : Node) (r : ClientRequestId) : ℕ := n.answered.count r

section Step

variable (ip : String) (pid tail : ℕ)

/-- the head has answered the call OK -/
def Client.answered (c : Client) (call : HeadCall) : Bool :=
  call.answers.any fun k => k < (c.nodes 0).answers ⟨ip, pid, call.write.1⟩

/-- `addToLog` of an attempt at the head -/
def addWrite (w : PendingWrite) : Event := .act 0 (.write (.addToLog (w.2.request ip pid w.1)))

/-- the chain's step in an event -/
def Client.chainEvent (c : Client) : ClientEvent → Option Event
  | .execute =>
    match c.phase with
    | .writing ⟨w, none⟩ | .retrying ⟨w, none⟩ => some (addWrite ip pid w)
    | _ => none
  | .executeLate k => c.late[k]?.map (addWrite ip pid)
  | .ackWrite timestamp =>
    if (c.nodes tail).rwb.isDead then none else some (.act tail (.ackLogEntry ⟨ip, pid, timestamp⟩))
  | .chain e => some e
  | _ => none

/-- the nodes after an event -/
def Client.nodesAfter (c : Client) (e : ClientEvent) : Nodes :=
  match c.chainEvent ip pid tail e with
  | some x => Chain.step c.nodes x
  | none => c.nodes

/-- an attempt reaches the head -/
def Client.execute (c : Client) (w : PendingWrite) : Client := { c with executed := c.executed ++ [w] }

/-- the call of the head fails -/
def Client.fail (c : Client) (call : HeadCall) (phase : ClientPhase) : Client :=
  { c with phase, late := if call.answers.isNone then c.late ++ [call.write] else c.late }

/-- what an event does to the client -/
def Client.callStep (c : Client) : ClientEvent → Client
  | .write entry =>
    match c.phase with
    | .idle => { c with phase := .write entry }
    | _ => c
  | .attempt tv =>
    match c.phase with
    | .write entry =>
      { c with phase := .writing ⟨(tv.timestamp, entry), none⟩, sent := c.sent ++ [(tv.timestamp, entry)] }
    | _ => c
  | .retryTop =>
    match c.phase with
    | .idle => { c with phase := .retry }
    | _ => c
  | .resend =>
    match c.phase, c.peekPendingWrite with
    | .retry, some w => { c with phase := .retrying ⟨w, none⟩, sent := c.sent ++ [w] }
    | _, _ => c
  | .execute =>
    match c.phase with
    | .writing ⟨w, none⟩ =>
      { c.execute w with phase := .writing ⟨w, some ((c.nodes 0).answers ⟨ip, pid, w.1⟩)⟩ }
    | .retrying ⟨w, none⟩ =>
      { c.execute w with phase := .retrying ⟨w, some ((c.nodes 0).answers ⟨ip, pid, w.1⟩)⟩ }
    | _ => c
  | .executeLate k =>
    match c.late[k]? with
    | some w => { c.execute w with late := c.late.eraseIdx k }
    | none => c
  | .ok =>
    match c.phase with
    | .writing call =>
      if c.answered ip pid call then
        { c with
          phase := .idle
          pendingWrites := c.pendingWrites.insert call.write
          returned := c.returned ++ [call.write] }
      else c
    | .retrying call => if c.answered ip pid call then { c with phase := .idle } else c
    | _ => c
  | .error refreshed =>
    match c.phase with
    | .writing call => c.fail call (if refreshed then .write call.write.2 else .threw)
    | .retrying call => c.fail call (if refreshed then .retry else .threw)
    | _ => c
  | .popPendingWrite =>
    match c.phase, c.peekPendingWrite with
    | .idle, some w => { c with pendingWrites := c.pendingWrites.erase w.1, popped := c.popped ++ [w] }
    | _, _ => c
  | .ackWrite timestamp =>
    if !(c.nodes tail).rwb.isDead && (c.nodes tail).writeAck ⟨ip, pid, timestamp⟩ then
      { c with acked := c.acked ++ [timestamp] }
    else c
  | .chain _ => c

def Client.step (c : Client) (e : ClientEvent) : Client :=
  { c.callStep ip pid tail e with nodes := c.nodesAfter ip pid tail e }

/-! ## The rules -/

/-- the replay-log key of the client -/
def clientKey : String := ip ++ ":" ++ toString pid

/-- nobody else sends under the client's key -/
def OwnKey : ClientEvent → Prop
  | .chain (.act 0 (.write (.addToLog q))) => q.clientRequestId.identifier ≠ clientKey ip pid
  | _ => True

/-- the clock has moved on since the last attempt -/
def ClockRule (c : Client) : ClientEvent → Prop
  | .attempt tv => ∀ w ∈ c.sent, w.1 < tv.timestamp
  | _ => True

/-- a request sent again after its acknowledgement is still rejected -/
def AckedRule (s : Nodes) : Event → Prop
  | .act i (.write (.addToLog request)) => request.clientRequestId ∈ (s i).acked →
      (s i).replayLog.tooOld request.clientRequestId = true ∨ (s i).logged request.clientRequestId = true
  | _ => True

/-- the rules of a run: those of the chain; a request sent again after its acknowledgement is still rejected; no other
client has the same ip and pid; the clock moves on -/
def ClientRules (c : Client) (e : ClientEvent) : Prop :=
  (∀ x ∈ c.chainEvent ip pid tail e, Rules c.nodes x ∧ AckedRule c.nodes x) ∧ OwnKey ip pid e ∧ ClockRule c e

end Step

/-- a client without pending writes, and a chain at rest -/
def Client.start (n start : ℕ) : Client where
  nodes := stable n start ReplayLog.empty
  phase := .idle
  late := []
  pendingWrites := Sorted.empty
  sent := []
  executed := []
  returned := []
  popped := []
  acked := []

/-! ## The chain under the client -/

/-- what the client relies on: at the head, a log with entries for accepted requests only; at the tail, truthful
answers -/
structure ChainKept (n start : ℕ) (s : Nodes) : Prop where
  inStep : InStep (n + 1) start ReplayLog.empty s
  accept : AcceptInv (s 0)
  relays : (s 0).relays = []
  logged : ∀ r, (s 0).logged r = true → r ∈ (s 0).accepted
  pushing : ∀ e ∈ (s 0).pushing, e ∈ (s 0).numbered
  vouched : Vouched (s n)

section Node

variable {n : Node} {r : ClientRequestId}

/-- without relays, only `Write` adds to the log -/
theorem act_logged (a : Act) (hrelays : n.relays = []) (h : ∀ r, n.logged r = true → r ∈ n.accepted) :
    ∀ r, (n.act a).logged r = true → r ∈ (n.act a).accepted := by
  unfold Node.act
  split
  · exact h
  cases a with
  | write a =>
    cases a with
    | addToLog q =>
      simp only [Node.writeAct]
      split
      swap
      · exact h
      split
      · next hc =>
        intro r hr
        rw [Node.logged, ReplayLog.addToLog_neg _ _ hc] at hr
        exact h r hr
      · next hc =>
        intro r hr
        simp only [Node.logged, ReplayLog.addToLog_zero _ _ hc] at hr
        split_ifs at hr with hrq
        · rw [requestId_ext hrq.1 hrq.2]
          exact List.mem_append_right _ (List.mem_singleton_self _)
        · exact List.mem_append_left _ (h r hr)
    | takeSeq k | pushEntry k =>
      simp only [Node.writeAct]
      repeat' split
      all_goals exact h
  | relay k a =>
    cases a <;> simpa [Node.relayAct, hrelays] using h
  | rwb a =>
    cases a <;> simp only [Node.rwbAct] <;> repeat' split
    all_goals exact h
  | ack k a =>
    simp only [Node.ackAct, Node.ackStart, Node.ackPop]
    repeat' split
    all_goals intro r hr
    all_goals apply h r
    all_goals first | exact hr | exact (ReplayLog.commitLogEntry_isSome _ _ _ _).symm.trans hr
  | ackLogEntry q =>
    intro r hr
    apply h r
    simp only [Node.ackLogEntry, Node.logged] at hr
    by_cases hc : (n.replayLog.ackLogEntry q).1 = 0
    · rw [ReplayLog.ackLogEntry_zero _ _ hc] at hr
      split_ifs at hr
      · cases hr
      · exact hr
    · rwa [ReplayLog.ackLogEntry_ne _ _ hc] at hr

theorem wire_logged (w : Wire) (h : ∀ r, n.logged r = true → r ∈ n.accepted) :
    ∀ r, (n.wire w).logged r = true → r ∈ (n.wire w).accepted := by
  cases w <;> simp only [Node.wire] <;> repeat' split
  all_goals exact h

/-- an entry is numbered before it is pushed -/
theorem act_pushing (a : Act) (h : ∀ e ∈ n.pushing, e ∈ n.numbered) :
    ∀ e ∈ (n.act a).pushing, e ∈ (n.act a).numbered := by
  by_cases ha : ∃ b, a = .write b
  swap
  · have hsame := act_intake n a fun b hb => ha ⟨b, hb⟩
    have hp : (n.act a).pushing = n.pushing := congrArg Intake.pushing hsame
    have hn : (n.act a).numbered = n.numbered := congrArg Intake.numbered hsame
    rwa [hp, hn]
  obtain ⟨b, rfl⟩ := ha
  unfold Node.act
  split
  · exact h
  cases b with
  | addToLog q =>
    simp only [Node.writeAct]
    repeat' split
    all_goals exact h
  | takeSeq k =>
    simp only [Node.writeAct]
    split
    · exact h
    · intro e he
      rcases List.mem_append.1 he with he | he
      · exact List.mem_append_left _ (h e he)
      · exact List.mem_append_right _ he
  | pushEntry k =>
    have hsub : ∀ e ∈ n.pushing.eraseIdx k, e ∈ n.numbered := fun e he => h e (List.mem_of_mem_eraseIdx he)
    simp only [Node.writeAct]
    repeat' split
    · exact h
    · exact hsub
    · exact hsub

/-- an id is answered when the log rejects it, or when its entry is pushed -/
theorem act_answers (a : Act) (hadd : ∀ q, a = .write (.addToLog q) → q.clientRequestId = r → n.rejects r = false)
    (hpush : ∀ e ∈ n.pushing, e.reqId ≠ r) : (n.act a).answers r = n.answers r := by
  have hother : ∀ r' ≠ r, (n.answered ++ [r']).count r = n.answers r := by
    intro r' hr'
    rw [List.count_append, List.count_singleton, if_neg (by simpa using hr')]
    rfl
  unfold Node.act
  split
  · rfl
  cases a with
  | write a =>
    cases a with
    | addToLog q =>
      simp only [Node.writeAct]
      split
      swap
      · rfl
      split
      swap
      · rfl
      next hc =>
        apply hother
        intro hq
        have hrej := hadd q rfl hq
        simp only [Node.rejects, Bool.or_eq_false_iff] at hrej
        exact (addToLog_accepts n _).2 (hq ▸ hrej) hc
    | takeSeq k =>
      simp only [Node.writeAct]
      split <;> rfl
    | pushEntry k =>
      simp only [Node.writeAct]
      split
      · rfl
      next e hk =>
        split
        · rfl
        · exact hother _ (hpush e (List.mem_of_getElem? hk))
  | relay k a =>
    cases a <;> simp only [Node.relayAct] <;> repeat' split
    all_goals rfl
  | rwb a =>
    cases a <;> simp only [Node.rwbAct] <;> repeat' split
    all_goals rfl
  | ack k a =>
    simp only [Node.ackAct, Node.ackStart, Node.ackPop]
    repeat' split
    all_goals rfl
  | ackLogEntry q => rfl

theorem wire_answers (w : Wire) : (n.wire w).answers r = n.answers r := by
  cases w <;> simp only [Node.wire] <;> repeat' split
  all_goals rfl

end Node

section Chain

variable {n start : ℕ} {s : Nodes} {r : ClientRequestId}

/-- **One step of the chain.** -/
theorem chainKept_step (hs : start < 2 ^ 31) (h : ChainKept n start s) {e : Event} (hr : Rules s e ∧ AckedRule s e) :
    ChainKept n start (step s e) where
  inStep := inStep_step (Nat.succ_pos n) hs h.inStep e hr.1
  accept := by
    refine step_node_inv AcceptInv s e 0 h.accept (fun a ha => ?_) wire_acceptInv
    apply act_acceptInv _ a h.accept
    intro q hq _
    have hacked := hr.2
    rw [ha, hq] at hacked
    exact hacked
  relays := relays_head_step h.inStep.order.path.conf h.relays e
  logged := by
    refine step_node_inv (fun x => ∀ r, x.logged r = true → r ∈ x.accepted) s e 0 h.logged (fun a _ => ?_)
      fun x w hx => wire_logged w hx
    exact act_logged a h.relays h.logged
  pushing := by
    refine step_node_inv (fun x => ∀ e ∈ x.pushing, e ∈ x.numbered) s e 0 h.pushing (fun a _ => ?_) fun x w hx => ?_
    · exact act_pushing a h.pushing
    · have hp : (x.wire w).pushing = x.pushing := congrArg Intake.pushing (wire_intake x w)
      rwa [hp, wire_numbered]
  vouched := step_vouched h.inStep (Nat.lt_succ_self n) h.vouched e

theorem chainKept_stable (hs : start < 2 ^ 31) : ChainKept n start (stable (n + 1) start ReplayLog.empty) := by
  obtain ⟨a, b, d, hh, acks, hidle⟩ := stable_idle (n + 1) start ReplayLog.empty 0
  have hvouched : Vouched (run step (stable (n + 1) start ReplayLog.empty) [] n) :=
    run_vouched (Nat.succ_pos n) hs [] trivial (Nat.lt_succ_self n)
  refine ⟨inStep_run (Nat.succ_pos n) hs ReplayLog.empty [] trivial, ?_, ?_, ?_, ?_, hvouched⟩ <;> rw [hidle]
  · exact ⟨List.nodup_nil, by simp [Node.idle], by simp [Node.idle]⟩
  · rfl
  · simp [Node.idle, Node.logged]
  · simp [Node.idle]

/-- a request id has at most one number -/
theorem ChainKept.nodup (h : ChainKept n start s) : ((s 0).numbered.map Entry.reqId).Nodup :=
  (List.nodup_append.1 (h.accept.numbered.nodup_iff.1 h.accept.nodup)).1

/-- a step numbers at most one entry -/
theorem step_numbered_one (s : Nodes) (e : Event) :
    (step s e 0).numbered = (s 0).numbered ∨ ∃ x, (step s e 0).numbered = (s 0).numbered ++ [x] := by
  by_cases ha : ∃ a, e = .act 0 a
  · obtain ⟨a, rfl⟩ := ha
    simp only [step, Function.update_self]
    rcases act_numbered (s 0) a with hn | ⟨_, _, -, -, hn⟩
    · exact Or.inl hn
    · exact Or.inr ⟨_, hn⟩
  · left
    exact step_node_inv (fun x => x.numbered = (s 0).numbered) s e 0 rfl (fun a h => absurd ⟨a, h⟩ ha)
      fun x w hx => (wire_numbered x w).trans hx

/-- an id that is not numbered gets no answer, unless the log rejects it -/
theorem ChainKept.answers (h : ChainKept n start s) {e : Event}
    (hadd : ∀ q, e = .act 0 (.write (.addToLog q)) → q.clientRequestId = r → (s 0).rejects r = false)
    (hr : r ∉ (s 0).numbered.map Entry.reqId) : (step s e 0).answers r = (s 0).answers r := by
  refine step_node_inv (fun x => x.answers r = (s 0).answers r) s e 0 rfl (fun a ha => ?_)
    fun x w hx => (wire_answers w).trans hx
  refine act_answers a (fun q hq => hadd q (hq ▸ ha)) fun x hx hxr => hr ?_
  exact List.mem_map.2 ⟨x, h.pushing x hx, hxr⟩

/-- committed writes stay -/
theorem step_committedWrites (s : Nodes) (e : Event) (i : ℕ) :
    (s i).written.take (s i).committed.length <+: (step s e i).written.take (step s e i).committed.length :=
  step_node (fun a b => a.written.take a.committed.length <+: b.written.take b.committed.length)
    (fun _ => List.prefix_refl _) (fun _ _ _ h h' => h.trans h') (fun x a => committedWrites_grow x (.act a))
    (fun x w => committedWrites_grow x (.wire w)) s e i

end Chain

/-! ## The calls -/

/-- the attempt under way is later than all that has been given up or has returned, and, until it reaches the head, than
all that has reached it -/
structure Newest (c : Client) (call : HeadCall) : Prop where
  late : ∀ w ∈ c.late, w.1 < call.write.1
  returned : ∀ w ∈ c.returned, w.1 < call.write.1
  executed : call.answers = none → ∀ w ∈ c.executed, w.1 < call.write.1

/-- the attempt of the call under way -/
def ClientPhase.attempt? : ClientPhase → Option PendingWrite
  | .writing call | .retrying call => some call.write
  | _ => none

/-- what the client knows of its attempts, and what is in the map -/
structure CallsInv (c : Client) : Prop where
  same : ∀ v ∈ c.sent, ∀ w ∈ c.sent, v.1 = w.1 → v = w
  late : c.late ⊆ c.sent
  executed : c.executed ⊆ c.sent
  returned : c.returned ⊆ c.sent
  attempt : ∀ w ∈ c.phase.attempt?, w ∈ c.sent
  sorted : c.returned.Pairwise fun v w => v.1 < w.1
  queue : c.returned = c.popped ++ c.pendingWrites.toList
  newest : ∀ call, c.phase = .writing call → Newest c call

theorem append_singleton_subset {α : Type} {l m : List α} {a : α} (h : l ⊆ m) (ha : a ∈ m) : l ++ [a] ⊆ m := by
  intro b hb
  rcases List.mem_append.1 hb with hb | hb
  · exact h hb
  · exact List.mem_singleton.1 hb ▸ ha

section Calls

variable {ip : String} {pid tail : ℕ} {c : Client}

/-- an attempt that is sent again is one of the attempts -/
theorem CallsInv.resend (h : CallsInv c) {w : PendingWrite} (hw : w ∈ c.sent) (call : HeadCall) (hcall : call.write = w) :
    CallsInv { c with phase := .retrying call, sent := c.sent ++ [w] } := by
  have hsub : c.sent ⊆ c.sent ++ [w] := List.subset_append_left _ _
  have hold : ∀ v ∈ c.sent ++ [w], v ∈ c.sent := by
    intro v hv
    rcases List.mem_append.1 hv with hv | hv
    · exact hv
    · exact List.mem_singleton.1 hv ▸ hw
  refine ⟨fun v hv u hu => h.same v (hold v hv) u (hold u hu), List.Subset.trans h.late hsub, List.Subset.trans h.executed hsub,
    List.Subset.trans h.returned hsub, ?_, h.sorted, h.queue, fun _ hc => by cases hc⟩
  intro v hv
  obtain rfl := Option.some.inj hv
  exact hsub (hcall ▸ hw)

/-- a new attempt is the newest -/
theorem CallsInv.attempt_new (h : CallsInv c) (w : PendingWrite) (hclock : ∀ v ∈ c.sent, v.1 < w.1) :
    CallsInv { c with phase := .writing ⟨w, none⟩, sent := c.sent ++ [w] } := by
  have hsub : c.sent ⊆ c.sent ++ [w] := List.subset_append_left _ _
  refine ⟨?_, List.Subset.trans h.late hsub, List.Subset.trans h.executed hsub, List.Subset.trans h.returned hsub, ?_, h.sorted, h.queue, ?_⟩
  · intro v hv u hu hvu
    rcases List.mem_append.1 hv with hv | hv <;> rcases List.mem_append.1 hu with hu | hu
    · exact h.same v hv u hu hvu
    · rw [List.mem_singleton.1 hu] at hvu
      exact absurd hvu (ne_of_lt (hclock v hv))
    · rw [List.mem_singleton.1 hv] at hvu
      exact absurd hvu.symm (ne_of_lt (hclock u hu))
    · exact (List.mem_singleton.1 hv).trans (List.mem_singleton.1 hu).symm
  · intro v hv
    obtain rfl := Option.some.inj hv
    exact List.mem_append_right _ (List.mem_singleton_self w)
  · intro call hcall
    obtain rfl := ClientPhase.writing.inj hcall
    exact ⟨fun v hv => hclock v (h.late hv), fun v hv => hclock v (h.returned hv), fun _ v hv => hclock v (h.executed hv)⟩

/-- a call has failed -/
theorem CallsInv.fail (h : CallsInv c) {call : HeadCall} (hcall : c.phase.attempt? = some call.write)
    {phase : ClientPhase} (hphase : phase.attempt? = none) : CallsInv (c.fail call phase) := by
  have hmem : call.write ∈ c.sent := h.attempt _ hcall
  refine ⟨h.same, ?_, h.executed, h.returned, fun w hw => ?_, h.sorted, h.queue, fun call' hc => ?_⟩
  · show (if call.answers.isNone then c.late ++ [call.write] else c.late) ⊆ c.sent
    split_ifs
    · exact append_singleton_subset h.late hmem
    · exact h.late
  · rw [show (c.fail call phase).phase = phase from rfl, hphase] at hw
    cases hw
  · rw [show phase = .writing call' from hc] at hphase
    cases hphase

/-- a write returns -/
theorem CallsInv.ok (h : CallsInv c) {call : HeadCall} (hcall : c.phase = .writing call) :
    CallsInv { c with
      phase := .idle
      pendingWrites := c.pendingWrites.insert call.write
      returned := c.returned ++ [call.write] } := by
  have hnew := (h.newest call hcall).returned
  have hmem : call.write ∈ c.sent := h.attempt _ (by rw [hcall]; rfl)
  have hlast : (c.pendingWrites.insert call.write).toList = c.pendingWrites.toList ++ [call.write] := by
    apply Sorted.insertList_last
    intro w hw
    apply hnew
    rw [h.queue]
    exact List.mem_append_right _ hw
  refine ⟨h.same, h.late, h.executed, append_singleton_subset h.returned hmem, ?_, ?_, ?_, ?_⟩
  · intro w hw
    cases hw
  · exact List.pairwise_append.2 ⟨h.sorted, List.pairwise_singleton _ _, fun v hv w hw =>
      List.mem_singleton.1 hw ▸ hnew v hv⟩
  · show c.returned ++ [call.write] = c.popped ++ (c.pendingWrites.insert call.write).toList
    rw [hlast, ← List.append_assoc, ← h.queue]
  · intro _ hc
    cases hc

/-- an attempt that was given up reaches the head -/
theorem CallsInv.executeLate (h : CallsInv c) {k : ℕ} {w : PendingWrite} (hk : c.late[k]? = some w) :
    CallsInv { c.execute w with late := c.late.eraseIdx k } := by
  have hw := List.mem_of_getElem? hk
  have herase : c.late.eraseIdx k ⊆ c.late := (List.eraseIdx_sublist _ _).subset
  refine ⟨h.same, List.Subset.trans herase h.late, append_singleton_subset h.executed (h.late hw), h.returned,
    h.attempt, h.sorted, h.queue, fun call hc => ?_⟩
  obtain ⟨h1, h2, h3⟩ := h.newest call hc
  refine ⟨fun v hv => h1 v (herase hv), h2, fun hnone v hv => ?_⟩
  rcases List.mem_append.1 hv with hv | hv
  · exact h3 hnone v hv
  · exact List.mem_singleton.1 hv ▸ h1 w hw

/-- the attempt under way reaches the head -/
theorem CallsInv.execute (h : CallsInv c) {w : PendingWrite} (hw : w ∈ c.sent) {phase : ClientPhase}
    (hattempt : phase.attempt? = some w)
    (hphase : ∀ call, phase = .writing call → call.answers ≠ none ∧ c.phase = .writing ⟨call.write, none⟩) :
    CallsInv { c.execute w with phase } := by
  refine ⟨h.same, h.late, append_singleton_subset h.executed hw, h.returned, fun v hv => ?_,
    h.sorted, h.queue, fun call hc => ?_⟩
  · obtain rfl := Option.some.inj (hattempt.symm.trans hv)
    exact hw
  · obtain ⟨hsome, hcall⟩ := hphase call hc
    obtain ⟨h1, h2, -⟩ := h.newest _ hcall
    exact ⟨h1, h2, fun hnone => absurd hnone hsome⟩

/-- a phase without a call of the head -/
theorem CallsInv.phase (h : CallsInv c) {phase : ClientPhase} (hphase : phase.attempt? = none) :
    CallsInv { c with phase } := by
  refine ⟨h.same, h.late, h.executed, h.returned, fun w hw => ?_, h.sorted, h.queue, fun call hc => ?_⟩
  · rw [show phase.attempt? = some w from hw] at hphase
    cases hphase
  · rw [show phase = .writing call from hc] at hphase
    cases hphase

theorem CallsInv.pop (h : CallsInv c) {w : PendingWrite} (hw : c.peekPendingWrite = some w) :
    CallsInv { c with pendingWrites := c.pendingWrites.erase w.1, popped := c.popped ++ [w] } := by
  refine ⟨h.same, h.late, h.executed, h.returned, h.attempt, h.sorted, ?_, fun call hc => ?_⟩
  · calc c.returned = c.popped ++ c.pendingWrites.toList := h.queue
      _ = c.popped ++ w :: (c.pendingWrites.erase w.1).toList := by rw [Sorted.toList_of_first hw]
      _ = c.popped ++ [w] ++ (c.pendingWrites.erase w.1).toList := List.append_cons _ _ _
  · obtain ⟨h1, h2, h3⟩ := h.newest call hc
    exact ⟨h1, h2, h3⟩

/-- what is in the map has returned -/
theorem CallsInv.peek_mem (h : CallsInv c) {w : PendingWrite} (hw : c.peekPendingWrite = some w) : w ∈ c.returned := by
  rw [h.queue]
  exact List.mem_append_right _ (Sorted.first?_eq_some hw).1

/-- **The calls.** An event keeps the map in order when the clock moves on. -/
theorem callsInv_step (h : CallsInv c) (e : ClientEvent) (hclock : ClockRule c e) : CallsInv (c.callStep ip pid tail e) := by
  cases e with
  | write entry | retryTop =>
    simp only [Client.callStep]
    split
    · exact h.phase rfl
    · exact h
  | attempt tv =>
    simp only [Client.callStep]
    split
    · exact h.attempt_new _ hclock
    · exact h
  | resend =>
    simp only [Client.callStep]
    split
    · next w hphase hw => exact h.resend (h.returned (h.peek_mem hw)) _ rfl
    · exact h
  | execute =>
    simp only [Client.callStep]
    split
    · next w hphase =>
      refine h.execute (h.attempt w (by rw [hphase]; rfl)) rfl fun call hc => ?_
      obtain rfl := ClientPhase.writing.inj hc
      exact ⟨by simp, hphase⟩
    · next w hphase => exact h.execute (h.attempt w (by rw [hphase]; rfl)) rfl fun call hc => by cases hc
    · exact h
  | executeLate k =>
    simp only [Client.callStep]
    split
    · next w hk => exact h.executeLate hk
    · exact h
  | ok =>
    simp only [Client.callStep]
    split
    · next call hphase =>
      split_ifs
      · exact h.ok hphase
      · exact h
    · split_ifs
      · exact h.phase rfl
      · exact h
    · exact h
  | error refreshed =>
    simp only [Client.callStep]
    split
    · next call hphase => exact h.fail (by rw [hphase]; rfl) (by cases refreshed <;> rfl)
    · next call hphase => exact h.fail (by rw [hphase]; rfl) (by cases refreshed <;> rfl)
    · exact h
  | popPendingWrite =>
    simp only [Client.callStep]
    split
    · next w hphase hw => exact h.pop hw
    · exact h
  | ackWrite timestamp =>
    simp only [Client.callStep]
    split_ifs
    · exact ⟨h.same, h.late, h.executed, h.returned, h.attempt, h.sorted, h.queue, fun call hc => by
        obtain ⟨h1, h2, h3⟩ := h.newest call hc
        exact ⟨h1, h2, h3⟩⟩
    · exact h
  | chain e => exact h

end Calls

/-! ## Where the writes are -/

section Writes

variable (ip : String) (pid n : ℕ)

/-- the request id of an attempt -/
def PendingWrite.id (w : PendingWrite) : ClientRequestId := ⟨ip, pid, w.1⟩

/-- the requests of the client that have reached the head, among all requests -/
def Attempted (executed : List PendingWrite) (q : WriteRequest) : Prop :=
  q.clientRequestId.identifier = clientKey ip pid → ∃ w ∈ executed, q = w.2.request ip pid w.1

/-- the call under way: no more answers than before until its id is numbered, and then behind what has returned -/
structure UnderWay (s : Nodes) (returned : List PendingWrite) (call : HeadCall) : Prop where
  answers : ∀ k, call.answers = some k → PendingWrite.id ip pid call.write ∉ (s 0).numbered.map Entry.reqId →
    (s 0).answers (PendingWrite.id ip pid call.write) ≤ k
  last : PendingWrite.id ip pid call.write ∈ (s 0).numbered.map Entry.reqId →
    (returned.map (PendingWrite.id ip pid) ++ [PendingWrite.id ip pid call.write]).Sublist
      ((s 0).numbered.map Entry.reqId)

/-- the writes of the client at the head and at the tail -/
structure WritesInv (c : Client) : Prop where
  requested : Requested (Attempted ip pid c.executed) (c.nodes 0)
  order : (c.returned.map (PendingWrite.id ip pid)).Sublist ((c.nodes 0).numbered.map Entry.reqId)
  writing : ∀ call, c.phase = .writing call → UnderWay ip pid c.nodes c.returned call
  acked : ∀ t ∈ c.acked, ∃ x ∈ (c.nodes n).written.take (c.nodes n).committed.length, x.reqId = ⟨ip, pid, t⟩

end Writes

section Writes

variable {ip : String} {pid n start : ℕ} {c : Client}

theorem Requested.mono {P Q : WriteRequest → Prop} {x : Node} (h : Requested P x) (hpq : ∀ q, P q → Q q) :
    Requested Q x := by
  refine ⟨fun q hq => hpq q (h.adding q hq), fun e he => ?_⟩
  obtain ⟨q, hq, hqe⟩ := h.numbered e he
  exact ⟨q, hpq q hq, hqe⟩

theorem Attempted.append {l : List PendingWrite} {q : WriteRequest} (h : Attempted ip pid l q) (w : PendingWrite) :
    Attempted ip pid (l ++ [w]) q := by
  intro hq
  obtain ⟨v, hv, hvq⟩ := h hq
  exact ⟨v, List.mem_append_left _ hv, hvq⟩

/-- an entry of the client at the head is one of its attempts -/
theorem Requested.of_numbered {l : List PendingWrite} {x : Node} (h : Requested (Attempted ip pid l) x) {e : Entry}
    (he : e ∈ x.numbered) (hkey : e.reqId.identifier = clientKey ip pid) :
    ∃ w ∈ l, e = (w.2.request ip pid w.1).entry e.seqNum := by
  obtain ⟨q, hq, hqe⟩ := h.numbered e he
  have hkey' : q.clientRequestId.identifier = clientKey ip pid := by rwa [hqe] at hkey
  obtain ⟨w, hw, rfl⟩ := hq hkey'
  exact ⟨w, hw, hqe⟩

/-- the head's log has no other timestamps of the client than those of its attempts -/
theorem WritesInv.logged (h : WritesInv ip pid n c) (hc : ChainKept n start c.nodes) {t : Timestamp}
    (ht : (c.nodes 0).logged ⟨ip, pid, t⟩ = true) : ∃ w ∈ c.executed, w.1 = t := by
  have hmem := hc.accept.numbered.subset (hc.logged _ ht)
  rcases List.mem_append.1 hmem with hmem | hmem
  · obtain ⟨e, he, hid⟩ := List.mem_map.1 hmem
    obtain ⟨w, hw, hwe⟩ := h.requested.of_numbered he (by rw [hid]; rfl)
    rw [hwe] at hid
    exact ⟨w, hw, congrArg ClientRequestId.timestamp hid⟩
  · obtain ⟨q, hq, hid⟩ := List.mem_map.1 hmem
    obtain ⟨w, hw, rfl⟩ := h.requested.adding q hq (by rw [hid]; rfl)
    exact ⟨w, hw, congrArg ClientRequestId.timestamp hid⟩

/-- **The head takes a later attempt.** -/
theorem WritesInv.fresh (h : WritesInv ip pid n c) (hc : ChainKept n start c.nodes) {w : PendingWrite}
    (hw : ∀ v ∈ c.executed, v.1 < w.1) : (c.nodes 0).rejects (w.id ip pid) = false := by
  have hlater : (c.nodes 0).replayLog.Later (w.id ip pid) := by
    intro t ht
    obtain ⟨v, hv, rfl⟩ := h.logged hc (t := t) (ReplayLog.mem_timestamps.1 ht)
    exact hw v hv
  have hcode := ReplayLog.addToLog_of_later hlater
  obtain ⟨hold, hnew⟩ := (addToLog_accepts (c.nodes 0) (w.id ip pid)).1 (by rw [hcode]; decide)
  rw [Node.rejects, hold, hnew]
  rfl

theorem WritesInv.not_numbered (h : WritesInv ip pid n c) {w : PendingWrite} (hw : ∀ v ∈ c.executed, v.1 < w.1) :
    w.id ip pid ∉ (c.nodes 0).numbered.map Entry.reqId := by
  intro hmem
  obtain ⟨e, he, hid⟩ := List.mem_map.1 hmem
  obtain ⟨v, hv, hve⟩ := h.requested.of_numbered he (by rw [hid]; rfl)
  rw [hve] at hid
  exact absurd (congrArg ClientRequestId.timestamp hid) (ne_of_lt (hw v hv))

/-- **The call under way.** A step of the chain in which the log does not reject its id -/
theorem UnderWay.step {s : Nodes} {returned : List PendingWrite} {call : HeadCall} (h : UnderWay ip pid s returned call)
    (hc : ChainKept n start s) (horder : (returned.map (PendingWrite.id ip pid)).Sublist ((s 0).numbered.map Entry.reqId))
    {e : Event} (hadd : ∀ q, e = .act 0 (.write (.addToLog q)) → q.clientRequestId = call.write.id ip pid →
      (s 0).rejects (call.write.id ip pid) = false) : UnderWay ip pid (Chain.step s e) returned call := by
  have hnum := step_numbered_one s e
  constructor
  · intro k hk hnot
    have hbefore : call.write.id ip pid ∉ (s 0).numbered.map Entry.reqId := by
      rcases hnum with hn | ⟨x, hn⟩ <;> rw [hn] at hnot
      · exact hnot
      · rw [List.map_append] at hnot
        exact fun hmem => hnot (List.mem_append_left _ hmem)
    rw [hc.answers hadd hbefore]
    exact h.answers k hk hbefore
  · intro hmem
    rcases hnum with hn | ⟨x, hn⟩ <;> rw [hn] at hmem ⊢
    · exact h.last hmem
    rw [List.map_append] at hmem ⊢
    rcases List.mem_append.1 hmem with hmem | hmem
    · exact (h.last hmem).trans (List.sublist_append_left _ _)
    -- its id is the one that has just been numbered
    · have hx : call.write.id ip pid = x.reqId := by simpa using hmem
      rw [hx]
      exact horder.append (List.Sublist.refl _)

/-- a call of the head that has been answered OK is numbered -/
theorem WritesInv.answered (h : WritesInv ip pid n c) {call : HeadCall} (hcall : c.phase = .writing call)
    (hok : c.answered ip pid call = true) : call.write.id ip pid ∈ (c.nodes 0).numbered.map Entry.reqId := by
  obtain ⟨k, hk, hlt⟩ := (Option.any_eq_true _ _).1 hok
  by_contra hnot
  have hle := (h.writing call hcall).answers k hk hnot
  exact absurd (of_decide_eq_true hlt) (not_lt.2 hle)

/-- what the client does itself -/
theorem writesInv_callStep (h : WritesInv ip pid n c) (hcalls : CallsInv c) (hc : ChainKept n start c.nodes)
    (e : ClientEvent) (hclock : ClockRule c e) : WritesInv ip pid n (c.callStep ip pid n e) := by
  have hreq : ∀ w, Requested (Attempted ip pid (c.executed ++ [w])) (c.nodes 0) := fun w =>
    h.requested.mono fun q hq => hq.append w
  cases e with
  | write entry | retryTop =>
    simp only [Client.callStep]
    split
    · exact ⟨h.requested, h.order, fun _ hw => (by cases hw), h.acked⟩
    · exact h
  | attempt tv =>
    simp only [Client.callStep]
    split
    · next entry hphase =>
      refine ⟨h.requested, h.order, fun call hw => ?_, h.acked⟩
      obtain rfl := ClientPhase.writing.inj hw
      have hnot := h.not_numbered (w := (tv.timestamp, entry)) fun v hv => hclock v (hcalls.executed hv)
      exact ⟨fun k hk => (by cases hk), fun hmem => absurd hmem hnot⟩
    · exact h
  | resend =>
    simp only [Client.callStep]
    split
    · exact ⟨h.requested, h.order, fun _ hw => (by cases hw), h.acked⟩
    · exact h
  | execute =>
    simp only [Client.callStep]
    split
    · next w hphase =>
      refine ⟨hreq w, h.order, fun call hw => ?_, h.acked⟩
      obtain rfl := ClientPhase.writing.inj hw
      refine ⟨fun k hk _ => ?_, (h.writing _ hphase).last⟩
      obtain rfl := Option.some.inj hk
      exact le_refl _
    · next w hphase => exact ⟨hreq w, h.order, fun _ hw => (by cases hw), h.acked⟩
    · exact h
  | executeLate k =>
    simp only [Client.callStep]
    split
    · next w hk => exact ⟨hreq w, h.order, h.writing, h.acked⟩
    · exact h
  | ok =>
    simp only [Client.callStep]
    split
    · next call hphase =>
      split_ifs with hok
      · refine ⟨h.requested, ?_, fun _ hw => (by cases hw), h.acked⟩
        rw [List.map_append]
        exact (h.writing call hphase).last (h.answered hphase hok)
      · exact h
    · split_ifs
      · exact ⟨h.requested, h.order, fun _ hw => (by cases hw), h.acked⟩
      · exact h
    · exact h
  | error refreshed =>
    simp only [Client.callStep]
    split
    · exact ⟨h.requested, h.order, fun _ hw => (by cases refreshed <;> cases hw), h.acked⟩
    · exact ⟨h.requested, h.order, fun _ hw => (by cases refreshed <;> cases hw), h.acked⟩
    · exact h
  | popPendingWrite =>
    simp only [Client.callStep]
    split
    · exact ⟨h.requested, h.order, h.writing, h.acked⟩
    · exact h
  | ackWrite timestamp =>
    simp only [Client.callStep]
    split_ifs with hack
    · refine ⟨h.requested, h.order, h.writing, fun t ht => ?_⟩
      rcases List.mem_append.1 ht with ht | ht
      · exact h.acked t ht
      · rw [List.mem_singleton.1 ht]
        exact hc.vouched _ (Or.inl ((writeAck_iff _ _).1 (Bool.and_eq_true_iff.1 hack).2))
    · exact h
  | chain e => exact h

/-- what the chain does meanwhile -/
theorem writesInv_nodes (h : WritesInv ip pid n c) (hc : ChainKept n start c.nodes) (e : Event)
    (hreq : ∀ q, e = .act 0 (.write (.addToLog q)) → Attempted ip pid c.executed q)
    (hadd : ∀ call, c.phase = .writing call → ∀ q, e = .act 0 (.write (.addToLog q)) →
      q.clientRequestId = call.write.id ip pid → (c.nodes 0).rejects (call.write.id ip pid) = false) :
    WritesInv ip pid n { c with nodes := Chain.step c.nodes e } where
  requested := step_requested h.requested e hreq
  order := by
    rcases step_numbered_one c.nodes e with hn | ⟨x, hn⟩ <;> rw [hn]
    · exact h.order
    · rw [List.map_append]
      exact h.order.trans (List.sublist_append_left _ _)
  writing := fun call hcall => (h.writing call hcall).step hc h.order (hadd call hcall)
  acked := fun t ht => by
    obtain ⟨x, hx, hxt⟩ := h.acked t ht
    exact ⟨x, (step_committedWrites c.nodes e n).subset hx, hxt⟩

end Writes

/-! ## Runs -/

/-- what holds of a client and its chain in every run -/
structure ClientInv (ip : String) (pid n start : ℕ) (c : Client) : Prop where
  chain : ChainKept n start c.nodes
  calls : CallsInv c
  writes : WritesInv ip pid n c

theorem callStep_nodes (ip : String) (pid tail : ℕ) (c : Client) (e : ClientEvent) :
    (c.callStep ip pid tail e).nodes = c.nodes := by
  cases e <;> simp only [Client.callStep] <;> repeat' split
  all_goals rfl

section Runs

variable {ip : String} {pid n start : ℕ} {c : Client}

/-- a request that reaches the head is of another client, an attempt that was given up, or the attempt under way -/
theorem chainEvent_adds {e : ClientEvent} {q : WriteRequest}
    (hx : c.chainEvent ip pid n e = some (.act 0 (.write (.addToLog q)))) (hown : OwnKey ip pid e) :
    q.clientRequestId.identifier ≠ clientKey ip pid ∨ ∃ w, q = w.2.request ip pid w.1 ∧
      w ∈ (c.callStep ip pid n e).executed ∧ (w ∈ c.late ∧ (c.callStep ip pid n e).phase = c.phase ∨
        c.phase = .writing ⟨w, none⟩ ∨ ∃ call, (c.callStep ip pid n e).phase = .retrying call) := by
  have hadd : ∀ {w : PendingWrite}, some (addWrite ip pid w) = some (.act 0 (.write (.addToLog q))) →
      q = w.2.request ip pid w.1 := by
    intro w h
    simpa [addWrite] using h.symm
  cases e with
  | execute =>
    simp only [Client.chainEvent] at hx
    split at hx
    · next w hphase =>
      refine Or.inr ⟨w, hadd hx, ?_, Or.inr (Or.inl hphase)⟩
      simp [Client.callStep, hphase, Client.execute]
    · next w hphase =>
      refine Or.inr ⟨w, hadd hx, ?_, Or.inr (Or.inr ?_)⟩ <;> simp [Client.callStep, hphase, Client.execute]
    · cases hx
  | executeLate k =>
    obtain ⟨w, hw, hwq⟩ := Option.map_eq_some_iff.1 hx
    refine Or.inr ⟨w, hadd (congrArg some hwq), ?_, Or.inl ⟨List.mem_of_getElem? hw, ?_⟩⟩ <;>
      simp [Client.callStep, hw, Client.execute]
  | ackWrite timestamp =>
    simp only [Client.chainEvent] at hx
    split_ifs at hx
    cases hx
  | chain e =>
    obtain rfl := Option.some.inj hx
    exact Or.inl hown
  | write _ | attempt _ | retryTop | resend | ok | error _ | popPendingWrite => cases hx

/-- **One event of the client.** -/
theorem clientInv_step (hs : start < 2 ^ 31) (h : ClientInv ip pid n start c) (e : ClientEvent)
    (hr : ClientRules ip pid n c e) : ClientInv ip pid n start (c.step ip pid n e) := by
  obtain ⟨hrules, hown, hclock⟩ := hr
  have hnodes := callStep_nodes ip pid n c e
  have hcalls : CallsInv (c.callStep ip pid n e) := callsInv_step h.calls e hclock
  have hwrites := writesInv_callStep h.writes h.calls h.chain e hclock
  have hchain : ChainKept n start (c.callStep ip pid n e).nodes := hnodes ▸ h.chain
  generalize hc : c.callStep ip pid n e = d at *
  cases hx : c.chainEvent ip pid n e with
  | none =>
    have hstep : c.step ip pid n e = d := by
      rw [Client.step, Client.nodesAfter, hx, hc, ← hnodes]
    rw [hstep]
    exact ⟨hchain, hcalls, hwrites⟩
  | some x =>
    have hstep : c.step ip pid n e = { d with nodes := step d.nodes x } := by
      rw [Client.step, Client.nodesAfter, hx, hc, hnodes]
    rw [hstep]
    refine ⟨chainKept_step hs hchain (by rw [hnodes]; exact hrules x hx), ?_, writesInv_nodes hwrites hchain x ?_ ?_⟩
    · exact ⟨hcalls.same, hcalls.late, hcalls.executed, hcalls.returned, hcalls.attempt, hcalls.sorted, hcalls.queue,
        fun call hcall => ⟨(hcalls.newest call hcall).late, (hcalls.newest call hcall).returned,
          (hcalls.newest call hcall).executed⟩⟩
    · rintro q rfl hkey
      rcases chainEvent_adds hx hown with hne | ⟨w, hw, hmem, -⟩
      · exact absurd hkey hne
      · exact ⟨w, hc ▸ hmem, hw⟩
    · rintro call hcall q rfl hid
      rcases chainEvent_adds hx hown with hne | ⟨w, rfl, -, hw⟩
      · exact absurd (congrArg ClientRequestId.identifier hid) hne
      rw [hc] at hw
      rcases hw with ⟨hlate, hphase⟩ | hphase | ⟨call', hphase⟩
      -- an earlier attempt has another timestamp
      · have hlt := (h.calls.newest call (hphase ▸ hcall)).late w hlate
        exact absurd (congrArg ClientRequestId.timestamp hid) (ne_of_lt hlt)
      · have hfresh := h.writes.fresh h.chain ((h.calls.newest _ hphase).executed rfl)
        rw [hnodes, ← hid]
        exact hfresh
      · rw [hcall] at hphase
        cases hphase

theorem clientInv_start (hs : start < 2 ^ 31) : ClientInv ip pid n start (Client.start (n + 1) start) := by
  refine ⟨chainKept_stable hs, ⟨?_, ?_, ?_, ?_, ?_, List.Pairwise.nil, rfl, ?_⟩,
    ⟨requested_stable _ (n + 1) start ReplayLog.empty, List.nil_sublist _, ?_, ?_⟩⟩
  all_goals intro _ h
  all_goals cases h

end Runs

/-- the entry of a write in the head's list and behind it -/
def PendingWrite.EntryOf (ip : String) (pid : ℕ) (w : PendingWrite) (x : Entry) : Prop :=
  x = (w.2.request ip pid w.1).entry x.seqNum

/-- a sublist reaches a prefix with all that is before what it has in the prefix -/
theorem mem_take_of_sublist {α : Type} {l L : List α} {m i j : ℕ} {a b : α} (hsub : l.Sublist L) (hL : L.Nodup)
    (ha : l[i]? = some a) (hb : l[j]? = some b) (hij : i ≤ j) (hmem : b ∈ L.take m) : a ∈ L.take m := by
  rw [← List.take_append_drop m L] at hsub hL
  obtain ⟨l₁, l₂, rfl, h₁, h₂⟩ := List.sublist_append_iff.1 hsub
  have hj : j < l₁.length := by
    by_contra hj
    rw [List.getElem?_append_right (not_lt.1 hj)] at hb
    have hdrop : b ∈ L.drop m := h₂.subset (List.mem_of_getElem? hb)
    exact (List.nodup_append.1 hL).2.2 b hmem b hdrop rfl
  rw [List.getElem?_append_left (lt_of_le_of_lt hij hj)] at ha
  exact h₁.subset (List.mem_of_getElem? ha)

section Returned

variable {ip : String} {pid n start : ℕ} {c : Client}

/-- an entry with the id of an attempt is that of the attempt -/
theorem ClientInv.entryOf (h : ClientInv ip pid n start c) {w : PendingWrite} (hw : w ∈ c.sent) {x : Entry}
    (hx : x ∈ (c.nodes 0).numbered) (hid : x.reqId = w.id ip pid) : w.EntryOf ip pid x := by
  obtain ⟨v, hv, hvx⟩ := h.writes.requested.of_numbered hx (by rw [hid]; rfl)
  have htime : v.1 = w.1 := by
    rw [hvx] at hid
    exact congrArg ClientRequestId.timestamp hid
  rw [← h.calls.same v (h.calls.executed hv) w hw htime]
  exact hvx

/-- what has returned, in the head's list -/
theorem ClientInv.numbered (h : ClientInv ip pid n start c) :
    ∃ l, l.Sublist (c.nodes 0).numbered ∧ List.Forall₂ (PendingWrite.EntryOf ip pid) c.returned l := by
  obtain ⟨l, hsub, hids⟩ := List.sublist_map_iff.1 h.writes.order
  refine ⟨l, hsub, List.forall₂_iff_get.2 ⟨by simpa using congrArg List.length hids, fun i hi hi' => ?_⟩⟩
  have hid : (c.returned.get ⟨i, hi⟩).id ip pid = (l.get ⟨i, hi'⟩).reqId := by
    have hget := congrArg (fun ids => ids[i]?) hids
    simpa [hi, hi'] using hget
  exact h.entryOf (h.calls.returned (List.get_mem _ _)) (hsub.subset (List.get_mem _ _)) hid.symm

/-- what the tail has committed is the start of the head's list -/
theorem ClientInv.committedWrites (h : ClientInv ip pid n start c) :
    ∃ m, (c.nodes n).written.take (c.nodes n).committed.length = (c.nodes 0).numbered.take m := by
  rw [(h.chain.inStep.stored_eq (Nat.lt_succ_self n)).1, List.take_take]
  exact ⟨_, rfl⟩

/-- **An answered `ackWrite`** speaks for all writes that returned before. -/
theorem ClientInv.acked (h : ClientInv ip pid n start c) {v w : PendingWrite} (hv : v ∈ c.returned) (hw : w ∈ c.returned)
    (hvw : v.1 ≤ w.1) (hack : w.1 ∈ c.acked) :
    ∃ x ∈ (c.nodes n).written.take (c.nodes n).committed.length, v.EntryOf ip pid x := by
  obtain ⟨l, hsub, hall⟩ := h.numbered
  obtain ⟨hlen, hget⟩ := List.forall₂_iff_get.1 hall
  obtain ⟨m, hm⟩ := h.committedWrites
  obtain ⟨i, hi, rfl⟩ := List.getElem_of_mem hv
  obtain ⟨j, hj, rfl⟩ := List.getElem_of_mem hw
  have hij : i ≤ j := by
    by_contra hlt
    exact absurd hvw (not_le.2 (List.pairwise_iff_getElem.1 h.calls.sorted j i hj hi (not_le.1 hlt)))
  have hi' : i < l.length := hlen ▸ hi
  have hj' : j < l.length := hlen ▸ hj
  -- the entry that the tail has committed is the one of the acknowledged write
  obtain ⟨y, hy, hyid⟩ := h.writes.acked _ hack
  rw [hm] at hy ⊢
  have hyj : y = l[j] := by
    have hid : l[j].reqId = c.returned[j].id ip pid := congrArg Entry.reqId (hget j hj hj')
    exact List.inj_on_of_nodup_map h.chain.nodup (List.mem_of_mem_take hy) (hsub.subset (List.getElem_mem hj'))
      (hyid.trans hid.symm)
  rw [hyj] at hy
  exact ⟨l[i], mem_take_of_sublist hsub (List.Nodup.of_map _ h.chain.nodup) (List.getElem?_eq_getElem hi')
    (List.getElem?_eq_getElem hj') hij hy, hget i hi hi'⟩

end Returned

/-- **The pending writes.** In every run of a client and its chain that keeps the rules: `write` returns in the order of
the timestamps, and the map has what has returned and has not been popped. The head has numbered every request id once.
What has returned stands in its list in the order of the returns, with its bytes and its offset, and an entry of the
client is one of its attempts. When `ackWrite` has returned 0 for a write, this one and all that returned before it are
written and committed at the tail. -/
theorem pending_writes_kept (ip : String) (pid n start : ℕ) (hs : start < 2 ^ 31) (es : List ClientEvent)
    (hm : Meets (Client.step ip pid n) (ClientRules ip pid n) (Client.start (n + 1) start) es) :
    let c := run (Client.step ip pid n) (Client.start (n + 1) start) es
    (c.returned.Pairwise fun v w => v.1 < w.1) ∧ c.returned = c.popped ++ c.pendingWrites.toList ∧
      ((c.nodes 0).numbered.map Entry.reqId).Nodup ∧
      (∃ l, l.Sublist (c.nodes 0).numbered ∧ List.Forall₂ (PendingWrite.EntryOf ip pid) c.returned l) ∧
      (∀ x ∈ (c.nodes 0).numbered, x.reqId.identifier = clientKey ip pid → ∃ w ∈ c.sent, w.EntryOf ip pid x) ∧
      ∀ v ∈ c.returned, ∀ w ∈ c.returned, v.1 ≤ w.1 → w.1 ∈ c.acked →
        ∃ x ∈ (c.nodes n).written.take (c.nodes n).committed.length, v.EntryOf ip pid x := by
  intro c
  have h : ClientInv ip pid n start c :=
    run_inv_of_meets _ _ (ClientInv ip pid n start) (fun d e hd hr => clientInv_step hs hd e hr) _ es
      (clientInv_start hs) hm
  refine ⟨h.calls.sorted, h.calls.queue, h.chain.nodup, h.numbered, fun x hx hkey => ?_,
    fun v hv w hw hvw hack => h.acked hv hw hvw hack⟩
  obtain ⟨w, hw, hwx⟩ := h.writes.requested.of_numbered hx hkey
  exact ⟨w, h.calls.executed hw, hwx⟩

instance (ip : String) (pid : ℕ) : ∀ e, Decidable (OwnKey ip pid e)
  | .chain (.act 0 (.write (.addToLog q))) => inferInstanceAs (Decidable (q.clientRequestId.identifier ≠ clientKey ip pid))
  | .chain (.act (_ + 1) _) | .chain (.act 0 (.write (.takeSeq _))) | .chain (.act 0 (.write (.pushEntry _)))
  | .chain (.act 0 (.relay _ _)) | .chain (.act 0 (.rwb _)) | .chain (.act 0 (.ack _ _))
  | .chain (.act 0 (.ackLogEntry _)) | .chain (.sendRelay _) | .chain (.relayOk _) | .chain (.sendAck _ _)
  | .chain (.ackOk _ _) | .write _ | .attempt _ | .retryTop | .resend | .execute | .executeLate _ | .ok | .error _
  | .popPendingWrite | .ackWrite _ => isTrue trivial

instance (c : Client) : ∀ e, Decidable (ClockRule c e)
  | .attempt tv => inferInstanceAs (Decidable (∀ w ∈ c.sent, w.1 < tv.timestamp))
  | .write _ | .retryTop | .resend | .execute | .executeLate _ | .ok | .error _ | .popPendingWrite | .ackWrite _
  | .chain _ => isTrue trivial

instance (s : Nodes) : ∀ e, Decidable (AckedRule s e)
  | .act i (.write (.addToLog request)) => inferInstanceAs (Decidable (request.clientRequestId ∈ (s i).acked →
      (s i).replayLog.tooOld request.clientRequestId = true ∨ (s i).logged request.clientRequestId = true))
  | .act _ (.write (.takeSeq _)) | .act _ (.write (.pushEntry _)) | .act _ (.relay _ _) | .act _ (.rwb _)
  | .act _ (.ack _ _) | .act _ (.ackLogEntry _) | .sendRelay _ | .relayOk _ | .sendAck _ _ | .ackOk _ _ =>
    isTrue trivial

instance (ip : String) (pid tail : ℕ) (c : Client) (e : ClientEvent) : Decidable (ClientRules ip pid tail c e) :=
  inferInstanceAs (Decidable ((∀ x ∈ c.chainEvent ip pid tail e, Rules c.nodes x ∧ AckedRule c.nodes x) ∧ _ ∧ _))

/-! ### A run with two nodes -/

/-- the head passes its next entry to handler `k` of node 1, which queues it, and both write it -/
def passToTail (k : ℕ) : List Event :=
  [.act 0 (.rwb .poll), .act 0 (.rwb .spin), .act 0 (.rwb .pop), .sendRelay 0, .act 1 (.relay k .addToLog),
    .act 1 (.relay k .pushEntry), .relayOk 0, .act 0 (.rwb .write), .act 0 (.rwb .bump), .act 0 (.rwb .send),
    .act 1 (.rwb .poll), .act 1 (.rwb .spin), .act 1 (.rwb .pop), .act 1 (.rwb .leave), .act 1 (.rwb .write),
    .act 1 (.rwb .bump), .act 1 (.rwb .send)]

/-- node 1 commits its next write, and handler `k` of the head does too -/
def commitBack (k : ℕ) : List Event :=
  [.act 1 (.ack 0 .start), .act 1 (.ack 0 .pop), .act 1 (.ack 0 .commit), .act 1 (.ack 0 .log), .act 1 (.ack 0 .bump),
    .sendAck 1 0, .act 0 (.ack k .start), .act 0 (.ack k .pop), .act 0 (.ack k .commit), .act 0 (.ack k .log),
    .act 0 (.ack k .bump), .act 0 (.ack k .leave), .ackOk 1 0]

/-- an attempt reaches the head and is answered -/
def takenUp : List ClientEvent :=
  [.execute, .chain (.act 0 (.write (.takeSeq 0))), .chain (.act 0 (.write (.pushEntry 0))), .ok]

/-- attempt 0 of those that failed reaches the head -/
def takenUpLate : List ClientEvent :=
  [.executeLate 0, .chain (.act 0 (.write (.takeSeq 0))), .chain (.act 0 (.write (.pushEntry 0)))]

/-- two writes; the first attempt of the second one is lost and reaches the head when the next one has returned. The
first write is sent again and popped, and the second one is acknowledged. -/
def twoWrites : List ClientEvent :=
  List.flatten [[.write ⟨[7], 0⟩, .attempt ⟨1, 0⟩], takenUp,
    [.write ⟨[8], 4096⟩, .attempt ⟨2, 0⟩, .error true, .attempt ⟨3, 0⟩], takenUp, takenUpLate,
    [.retryTop, .resend, .execute, .ok],
    (passToTail 0 ++ passToTail 1 ++ commitBack 0 ++ commitBack 1).map .chain, [.ackWrite ⟨3, 0⟩, .popPendingWrite]]

theorem pending_writes_kept_two_nodes :
    let c := run (Client.step "10.0.0.1" 1 1) (Client.start (1 + 1) 0) twoWrites
    c.returned.map Prod.fst = [⟨1, 0⟩, ⟨3, 0⟩] ∧ c.popped.length = 1 ∧ c.acked = [⟨3, 0⟩] ∧
      (c.nodes 0).numbered.map (fun x => x.reqId.timestamp) = [⟨1, 0⟩, ⟨3, 0⟩, ⟨2, 0⟩] ∧
      c.returned = c.popped ++ c.pendingWrites.toList ∧
      ∀ v ∈ c.returned, ∀ w ∈ c.returned, v.1 ≤ w.1 → w.1 ∈ c.acked →
        ∃ x ∈ (c.nodes 1).written.take (c.nodes 1).committed.length, v.EntryOf "10.0.0.1" 1 x := by
  have hm : Meets (Client.step "10.0.0.1" 1 1) (ClientRules "10.0.0.1" 1 1) (Client.start (1 + 1) 0) twoWrites := by
    decide +kernel
  obtain ⟨-, hqueue, -, -, -, hack⟩ := pending_writes_kept "10.0.0.1" 1 1 0 (by decide) twoWrites hm
  exact ⟨by decide +kernel, by decide +kernel, by decide +kernel, by decide +kernel, hqueue, hack⟩

end ChainedBlockStorage.Chain
