/-
Repeated requests that wait at the lock of `addToLog`.

`addToLog` tests for a timestamp that is too old before it takes `client_entry_mutex`, and inserts the timestamp after
that. In `Node` it runs at once. Here a `Write` or `RelayWrite` handler that has passed the test waits at the lock, and
every other thread may run before it inserts: the request can be written, committed and acknowledged meanwhile.

- `run_at_once`: the runs in which nobody waits are those of `step`.
- `numbered_at_most_once`: a request id is numbered at most once, and never after its acknowledgement, if no copy of it
  comes to `Write` after that or waits at the lock then. `acked_request_numbered_again` breaks either condition.
- `queue_above_written`: no pending queue holds a number at or below `writeSeq`, if the log rejects a relay of a number
  the node has, and no acknowledgement overtakes a relay at the lock. `written_number_queued_again` breaks either one.
-/
import ChainedBlockStorage.Chain.Redelivery
import ChainedBlockStorage.Chain.AckRelay

namespace ChainedBlockStorage.Chain

open Run Tables Positions

/-! ## The machine -/

/-- a `Write` handler comes to the lock -/
def Node.writeWaits (n : Node) (request : WriteRequest) : Bool :=
  !n.rwb.isDead && n.headService && (n.replayLog.beforeLock request.clientRequestId).isNone

/-- a `RelayWrite` handler comes to the lock -/
def Node.relayWaits (n : Node) (k : ℕ) : Bool :=
  match n.relays[k]? with
  | some ⟨request, .arrived, _⟩ => !n.rwb.isDead && (n.replayLog.beforeLock request.clientRequestId).isNone
  | _ => false

/-- the rest of `addToLog` in a `Write` handler -/
def Node.insertWrite (n : Node) (request : WriteRequest) : Node :=
  if n.rwb.isDead then n
  else
    let (addResult, replayLog) := n.replayLog.insertTimestamp request.clientRequestId
    if addResult < 0 then
      { n with replayLog, answered := n.answered ++ [request.clientRequestId] }
    else
      { n with replayLog, adding := n.adding ++ [request], accepted := n.accepted ++ [request.clientRequestId] }

/-- the rest of `addToLog` in a `RelayWrite` handler -/
def Node.insertRelay (n : Node) (k : ℕ) : Node :=
  if n.rwb.isDead then n
  else match n.relays[k]? with
    | some ⟨request, .arrived, _⟩ =>
      let (addResult, replayLog) := n.replayLog.insertTimestamp request.clientRequestId
      let phase := if addResult < 0 then .refused else .added
      { n with replayLog, relays := n.relays.set k ⟨request, phase, !n.delivered request.seqNum⟩ }
    | _ => n

structure SplitChain where
  nodes : Nodes
  /-- the `Write` handlers of each node that wait at the lock -/
  writes : ℕ → List WriteRequest
  /-- the `RelayWrite` handlers of each node that wait at the lock -/
  relays : ℕ → List ℕ

inductive SplitEvent where
  /-- a step of the chain; `addToLog` runs up to the lock, if it comes to it -/
  | chain (e : Event)
  /-- waiting `Write` handler `k` of node `i` takes the lock -/
  | insertWrite (i k : ℕ)
  /-- `RelayWrite` handler `k` of node `i` takes the lock -/
  | insertRelay (i k : ℕ)

def SplitChain.step (c : SplitChain) : SplitEvent → SplitChain
  | .chain (.act i (.write (.addToLog request))) =>
    if (c.nodes i).writeWaits request then
      { c with writes := Function.update c.writes i (c.writes i ++ [request]) }
    else { c with nodes := Chain.step c.nodes (.act i (.write (.addToLog request))) }
  | .chain (.act i (.relay k .addToLog)) =>
    if k ∈ c.relays i then c
    else if (c.nodes i).relayWaits k then { c with relays := Function.update c.relays i (c.relays i ++ [k]) }
    else { c with nodes := Chain.step c.nodes (.act i (.relay k .addToLog)) }
  -- a handler that waits runs
  | .chain (.act i (.relay k .drop)) =>
    if k ∈ c.relays i then c else { c with nodes := Chain.step c.nodes (.act i (.relay k .drop)) }
  | .chain e => { c with nodes := Chain.step c.nodes e }
  | .insertWrite i k =>
    match (c.writes i)[k]? with
    | none => c
    | some request =>
      { c with
        nodes := Function.update c.nodes i ((c.nodes i).insertWrite request)
        writes := Function.update c.writes i ((c.writes i).eraseIdx k) }
  | .insertRelay i k =>
    if k ∈ c.relays i then
      { c with
        nodes := Function.update c.nodes i ((c.nodes i).insertRelay k)
        relays := Function.update c.relays i ((c.relays i).erase k) }
    else c

/-- nobody waits -/
def SplitChain.free (s : Nodes) : SplitChain := ⟨s, fun _ => [], fun _ => []⟩

def SplitChain.start (n start : ℕ) (log : ReplayLog) : SplitChain := .free (stable n start log)

/-! ## Handlers that do not wait -/

section AtOnce

variable {n : Node}

theorem addToLog_of_waits {r : ClientRequestId} (h : (n.replayLog.beforeLock r).isNone) :
    n.replayLog.addToLog r = n.replayLog.insertTimestamp r := by
  rw [ReplayLog.addToLog_eq, Option.isNone_iff_eq_none.1 h]
  rfl

/-- a handler that inserts at once does the step of `Node` -/
theorem insertWrite_at_once {request : WriteRequest} (h : n.writeWaits request = true) :
    n.insertWrite request = n.act (.write (.addToLog request)) := by
  simp only [Node.writeWaits, Bool.and_eq_true, Bool.not_eq_true'] at h
  obtain ⟨⟨hd, hh⟩, hw⟩ := h
  simp [Node.insertWrite, Node.act, Node.writeAct, hd, hh, addToLog_of_waits hw]

theorem insertRelay_at_once {k : ℕ} (h : n.relayWaits k = true) : n.insertRelay k = n.act (.relay k .addToLog) := by
  unfold Node.relayWaits at h
  split at h
  · rename_i request f hk
    simp only [Bool.and_eq_true, Bool.not_eq_true'] at h
    simp [Node.insertRelay, Node.act, Node.relayAct, h.1, hk, addToLog_of_waits h.2]
  · cases h

theorem step_at_once (s : Nodes) (e : Event) :
    ∃ es, run SplitChain.step (.free s) es = .free (Chain.step s e) := by
  cases e with
  | act i a =>
    by_cases hw : ∃ q, a = .write (.addToLog q) ∧ (s i).writeWaits q = true
    · obtain ⟨q, rfl, hq⟩ := hw
      refine ⟨[.chain (.act i (.write (.addToLog q))), .insertWrite i 0], ?_⟩
      simp [run, SplitChain.step, SplitChain.free, hq, insertWrite_at_once hq, Chain.step]
    by_cases hr : ∃ k, a = .relay k .addToLog ∧ (s i).relayWaits k = true
    · obtain ⟨k, rfl, hk⟩ := hr
      refine ⟨[.chain (.act i (.relay k .addToLog)), .insertRelay i k], ?_⟩
      simp [run, SplitChain.step, SplitChain.free, hk, insertRelay_at_once hk, Chain.step]
    refine ⟨[.chain (.act i a)], ?_⟩
    cases a with
    | write a =>
      cases a with
      | addToLog q =>
        have hq : ¬ (s i).writeWaits q = true := fun hq => hw ⟨q, rfl, hq⟩
        simp [run, SplitChain.step, SplitChain.free, hq]
      | takeSeq _ | pushEntry _ => rfl
    | relay k a =>
      cases a with
      | addToLog =>
        have hk : ¬ (s i).relayWaits k = true := fun hk => hr ⟨k, rfl, hk⟩
        simp [run, SplitChain.step, SplitChain.free, hk]
      | drop => simp [run, SplitChain.step, SplitChain.free]
      | pushEntry => rfl
    | rwb _ | ack _ _ | ackLogEntry _ => rfl
  | sendRelay i => exact ⟨[.chain (.sendRelay i)], rfl⟩
  | relayOk i => exact ⟨[.chain (.relayOk i)], rfl⟩
  | sendAck i k => exact ⟨[.chain (.sendAck i k)], rfl⟩
  | ackOk i k => exact ⟨[.chain (.ackOk i k)], rfl⟩

/-- **Every run of `step` is a run here**, one in which nobody waits. -/
theorem run_at_once (s : Nodes) (es : List Event) :
    ∃ es', run SplitChain.step (.free s) es' = .free (run Chain.step s es) := by
  induction es generalizing s with
  | nil => exact ⟨[], rfl⟩
  | cons e es ih =>
    obtain ⟨l, hl⟩ := step_at_once s e
    obtain ⟨l', hl'⟩ := ih (Chain.step s e)
    refine ⟨l ++ l', ?_⟩
    rw [run_append, hl, hl', run_cons]

end AtOnce

/-- what a step does -/
inductive SplitMove (c : SplitChain) : SplitEvent → SplitChain → Prop where
  | none (e : SplitEvent) : SplitMove c e c
  | chain (e : Event) : SplitMove c (.chain e) { c with nodes := Chain.step c.nodes e }
  | writeWaits (i : ℕ) (q : WriteRequest) (h : (c.nodes i).headService = true) :
      SplitMove c (.chain (.act i (.write (.addToLog q))))
        { c with writes := Function.update c.writes i (c.writes i ++ [q]) }
  | relayWaits (i k : ℕ) (x : RelayHandler) (hk : (c.nodes i).relays[k]? = some x) (hx : x.phase = .arrived)
      (hold : (c.nodes i).replayLog.tooOld x.req.clientRequestId = false) :
      SplitMove c (.chain (.act i (.relay k .addToLog)))
        { c with relays := Function.update c.relays i (c.relays i ++ [k]) }
  | insertWrite (i k : ℕ) (q : WriteRequest) (hk : (c.writes i)[k]? = some q) :
      SplitMove c (.insertWrite i k)
        { c with
          nodes := Function.update c.nodes i ((c.nodes i).insertWrite q)
          writes := Function.update c.writes i ((c.writes i).eraseIdx k) }
  | insertRelay (i k : ℕ) (hk : k ∈ c.relays i) :
      SplitMove c (.insertRelay i k)
        { c with
          nodes := Function.update c.nodes i ((c.nodes i).insertRelay k)
          relays := Function.update c.relays i ((c.relays i).erase k) }

theorem tooOld_of_waits {L : ReplayLog} {r : ClientRequestId} (h : (L.beforeLock r).isNone) : L.tooOld r = false := by
  by_contra ht
  rw [Bool.not_eq_false] at ht
  unfold ReplayLog.beforeLock at h
  cases hl : L.clientList.lookup r.identifier <;> simp [hl, ht] at h

theorem step_move (c : SplitChain) (e : SplitEvent) : SplitMove c e (c.step e) := by
  cases e with
  | chain e =>
    by_cases hw : ∃ i q, e = .act i (.write (.addToLog q))
    · obtain ⟨i, q, rfl⟩ := hw
      simp only [SplitChain.step]
      split_ifs with h
      · simp only [Node.writeWaits, Bool.and_eq_true] at h
        exact .writeWaits i q h.1.2
      · exact .chain _
    by_cases hr : ∃ i k, e = .act i (.relay k .addToLog)
    · obtain ⟨i, k, rfl⟩ := hr
      simp only [SplitChain.step]
      split_ifs with hin h
      · exact .none _
      · unfold Node.relayWaits at h
        split at h
        · rename_i request f hk
          rw [Bool.and_eq_true] at h
          exact .relayWaits i k _ hk rfl (tooOld_of_waits h.2)
        · cases h
      · exact .chain _
    by_cases hd : ∃ i k, e = .act i (.relay k .drop)
    · obtain ⟨i, k, rfl⟩ := hd
      simp only [SplitChain.step]
      split_ifs
      · exact .none _
      · exact .chain _
    · have hstep : c.step (.chain e) = { c with nodes := Chain.step c.nodes e } := by
        unfold SplitChain.step
        split <;> simp_all
      rw [hstep]
      exact .chain e
  | insertWrite i k =>
    simp only [SplitChain.step]
    split
    · exact .none _
    · exact .insertWrite i k _ ‹_›
  | insertRelay i k =>
    simp only [SplitChain.step]
    split_ifs with h
    · exact .insertRelay i k h
    · exact .none _

/-! ## At most one number -/

/-- no copy of a request comes to `Write` after its acknowledgement, or waits at the lock when it is acknowledged -/
def CopyRule (c : SplitChain) : SplitEvent → Prop
  | .chain (.act i (.write (.addToLog request))) => request.clientRequestId ∉ (c.nodes i).acked
  | .chain (.act i (.ackLogEntry r)) => (c.nodes i).replayLog.flag? r.identifier r.timestamp = some true →
      ∀ q ∈ c.writes i, q.clientRequestId ≠ r
  | _ => True

/-- an accepted request is in the log or acknowledged, and what waits at the lock is not acknowledged -/
structure CopyInv (x : Node) (waiting : List WriteRequest) : Prop where
  accept : AcceptInv x
  unacked : ∀ q ∈ waiting, q.clientRequestId ∉ x.acked

section Copies

variable {n : Node} {ws : List WriteRequest}

/-- at the lock a `Write` handler is answered, or accepted if the log does not have its request -/
theorem insertWrite_cases (n : Node) (q : WriteRequest) : n.insertWrite q = n ∨
    n.insertWrite q = { n with
      replayLog := (n.replayLog.insertTimestamp q.clientRequestId).2
      answered := n.answered ++ [q.clientRequestId] } ∨
    n.logged q.clientRequestId = false ∧ n.insertWrite q = { n with
      replayLog := (n.replayLog.insertTimestamp q.clientRequestId).2
      adding := n.adding ++ [q]
      accepted := n.accepted ++ [q.clientRequestId] } := by
  unfold Node.insertWrite
  split
  · exact Or.inl rfl
  right
  dsimp only
  split
  · exact Or.inl rfl
  next hc =>
    rw [ReplayLog.insertTimestamp_neg_iff] at hc
    exact Or.inr ⟨by simpa [Node.logged] using hc, rfl⟩

/-- at the lock a `RelayWrite` handler is refused if the log has its request -/
theorem insertRelay_cases (x : Node) (k : ℕ) : x.insertRelay k = x ∨ ∃ req f,
    x.relays[k]? = some ⟨req, .arrived, f⟩ ∧
      (x.insertRelay k = { x with
          replayLog := (x.replayLog.insertTimestamp req.clientRequestId).2
          relays := x.relays.set k ⟨req, .refused, !x.delivered req.seqNum⟩ } ∨
        x.logged req.clientRequestId = false ∧ x.insertRelay k = { x with
          replayLog := (x.replayLog.insertTimestamp req.clientRequestId).2
          relays := x.relays.set k ⟨req, .added, !x.delivered req.seqNum⟩ }) := by
  unfold Node.insertRelay
  split
  · exact Or.inl rfl
  split
  · rename_i req f hk
    refine Or.inr ⟨req, f, hk, ?_⟩
    by_cases hc : (x.replayLog.insertTimestamp req.clientRequestId).1 < 0
    · left
      dsimp only
      rw [if_pos hc]
    · right
      dsimp only
      rw [if_neg hc]
      rw [ReplayLog.insertTimestamp_neg_iff] at hc
      exact ⟨by simpa [Node.logged] using hc, rfl⟩
  · exact Or.inl rfl

theorem insertWrite_acceptInv (h : AcceptInv n) (q : WriteRequest) (hq : q.clientRequestId ∉ n.acked) :
    AcceptInv (n.insertWrite q) := by
  have hlog : ∀ r, n.logged r = true →
      ((n.replayLog.insertTimestamp q.clientRequestId).2.flag? r.identifier r.timestamp).isSome = true :=
    fun r hr => ReplayLog.insertTimestamp_isSome _ _ hr
  rcases insertWrite_cases n q with hs | hs | ⟨hnot, hs⟩ <;> rw [hs]
  · exact h
  · exact h.of_eq rfl rfl rfl rfl hlog
  · have hnew : q.clientRequestId ∉ n.accepted := by
      intro hmem
      rcases h.known _ hmem with hk | hk
      · rw [hnot] at hk
        cases hk
      · exact hq hk
    refine ⟨?_, fun r hr => ?_, ?_⟩
    · refine List.nodup_append.2 ⟨h.nodup, List.nodup_singleton _, fun x hx y hy hxy => ?_⟩
      rw [hxy, List.mem_singleton.1 hy] at hx
      exact hnew hx
    · rcases List.mem_append.1 hr with hr | hr
      · exact (h.known r hr).imp_left (hlog r)
      · rw [List.mem_singleton.1 hr]
        exact Or.inl (ReplayLog.insertTimestamp_self _ _)
    · simp only [List.map_append, List.map_singleton, ← List.append_assoc]
      exact h.numbered.append_right _

/-- a `RelayWrite` handler accepts nothing for `Write`, and the log loses nothing -/
theorem insertRelay_acceptInv (h : AcceptInv n) (k : ℕ) : AcceptInv (n.insertRelay k) := by
  rcases insertRelay_cases n k with hs | ⟨req, f, -, hs | ⟨-, hs⟩⟩ <;> rw [hs]
  · exact h
  all_goals exact h.of_eq rfl rfl rfl rfl fun r hr => ReplayLog.insertTimestamp_isSome _ _ hr

theorem insertWrite_calls (n : Node) (q : WriteRequest) : (n.insertWrite q).acked = n.acked ∧
    ((n.insertWrite q).accepted = n.accepted ∨ (n.insertWrite q).accepted = n.accepted ++ [q.clientRequestId]) := by
  rcases insertWrite_cases n q with hs | hs | ⟨-, hs⟩ <;> rw [hs]
  · exact ⟨rfl, Or.inl rfl⟩
  · exact ⟨rfl, Or.inl rfl⟩
  · exact ⟨rfl, Or.inr rfl⟩

theorem insertRelay_calls (n : Node) (k : ℕ) :
    (n.insertRelay k).acked = n.acked ∧ (n.insertRelay k).accepted = n.accepted := by
  rcases insertRelay_cases n k with hs | ⟨req, f, -, hs | ⟨-, hs⟩⟩ <;> rw [hs]
  all_goals exact ⟨rfl, rfl⟩

/-- what `ackLogEntry` takes out of the log -/
theorem act_acked (n : Node) (a : Act) : (n.act a).acked = n.acked ∨
    ∃ r, a = .ackLogEntry r ∧ n.replayLog.flag? r.identifier r.timestamp = some true ∧
      (n.act a).acked = n.acked ++ [r] := by
  by_cases ha : ∃ r, a = .ackLogEntry r
  · obtain ⟨r, rfl⟩ := ha
    unfold Node.act
    split
    · exact Or.inl rfl
    simp only [Node.ackLogEntry]
    split_ifs with hc
    · exact Or.inr ⟨r, rfl, (ReplayLog.ackLogEntry_code _ _).1 hc, rfl⟩
    · exact Or.inl rfl
  · exact Or.inl (event_acked n a fun r hr => ha ⟨r, hr⟩)

theorem act_accepted (n : Node) (a : Act) : (n.act a).accepted = n.accepted ∨
    ∃ q, a = .write (.addToLog q) ∧ (n.act a).accepted = n.accepted ++ [q.clientRequestId] := by
  unfold Node.act
  split
  · exact Or.inl rfl
  cases a with
  | write a =>
    cases a with
    | addToLog q =>
      simp only [Node.writeAct]
      repeat' split
      · exact Or.inl rfl
      · exact Or.inr ⟨q, rfl, rfl⟩
      · exact Or.inl rfl
    | takeSeq k | pushEntry k =>
      simp only [Node.writeAct]
      repeat' split
      all_goals exact Or.inl rfl
  | relay k a =>
    cases a <;> simp only [Node.relayAct] <;> repeat' split
    all_goals exact Or.inl rfl
  | rwb a =>
    cases a <;> simp only [Node.rwbAct] <;> repeat' split
    all_goals exact Or.inl rfl
  | ack k a =>
    simp only [Node.ackAct, Node.ackStart, Node.ackPop]
    repeat' split
    all_goals exact Or.inl rfl
  | ackLogEntry r => exact Or.inl rfl

theorem wire_accepted (n : Node) (w : Wire) : (n.wire w).accepted = n.accepted := by
  cases w <;> simp only [Node.wire] <;> repeat' split
  all_goals rfl

end Copies

section Chain

variable {c : SplitChain} {i : ℕ}

/-- **One step, at one node**: the invariant, and a request that is acknowledged is not accepted -/
theorem copyInv_step (h : CopyInv (c.nodes i) (c.writes i)) (e : SplitEvent) (hr : CopyRule c e) :
    CopyInv ((c.step e).nodes i) ((c.step e).writes i) ∧
      (∀ r ∈ (c.nodes i).acked, r ∈ ((c.step e).nodes i).acked) ∧
      (((c.step e).nodes i).accepted = (c.nodes i).accepted ∨
        ∃ r ∉ (c.nodes i).acked, ((c.step e).nodes i).accepted = (c.nodes i).accepted ++ [r]) := by
  have hmove := step_move c e
  generalize c.step e = c' at hmove ⊢
  cases hmove with
  | none => exact ⟨h, fun _ hr => hr, Or.inl rfl⟩
  | chain e =>
    have haccept : AcceptInv (Chain.step c.nodes e i) := by
      refine step_node_inv AcceptInv c.nodes e i h.accept (fun a ha => act_acceptInv _ a h.accept ?_) wire_acceptInv
      intro q hq _ hacked
      rw [ha, hq] at hr
      exact absurd hacked hr
    have hacked : (Chain.step c.nodes e i).acked = (c.nodes i).acked ∨ ∃ r, (∀ q ∈ c.writes i, q.clientRequestId ≠ r) ∧
        (Chain.step c.nodes e i).acked = (c.nodes i).acked ++ [r] := by
      refine step_node_inv (fun x => x.acked = (c.nodes i).acked ∨ ∃ r, (∀ q ∈ c.writes i, q.clientRequestId ≠ r) ∧
        x.acked = (c.nodes i).acked ++ [r]) c.nodes e i (Or.inl rfl) (fun a ha => ?_)
        fun x w hx => by rwa [wire_acked]
      rcases act_acked (c.nodes i) a with hs | ⟨r, hq, hflag, hs⟩
      · exact Or.inl hs
      · rw [ha, hq] at hr
        exact Or.inr ⟨r, hr hflag, hs⟩
    have haccepted : (Chain.step c.nodes e i).accepted = (c.nodes i).accepted ∨
        ∃ r ∉ (c.nodes i).acked, (Chain.step c.nodes e i).accepted = (c.nodes i).accepted ++ [r] := by
      refine step_node_inv (fun x => x.accepted = (c.nodes i).accepted ∨
        ∃ r ∉ (c.nodes i).acked, x.accepted = (c.nodes i).accepted ++ [r]) c.nodes e i (Or.inl rfl) (fun a ha => ?_)
        fun x w hx => by rwa [wire_accepted]
      rcases act_accepted (c.nodes i) a with hs | ⟨q, hq, hs⟩
      · exact Or.inl hs
      · rw [ha, hq] at hr
        exact Or.inr ⟨_, hr, hs⟩
    rcases hacked with hs | ⟨r, hne, hs⟩
    · exact ⟨⟨haccept, fun q hq => by rw [hs]; exact h.unacked q hq⟩, fun r hr => by rwa [hs], haccepted⟩
    · refine ⟨⟨haccept, fun q hq hmem => ?_⟩, fun r hr => by rw [hs]; exact List.mem_append_left _ hr, haccepted⟩
      rw [hs] at hmem
      rcases List.mem_append.1 hmem with hmem | hmem
      · exact h.unacked q hq hmem
      · exact hne q hq (List.mem_singleton.1 hmem)
  | writeWaits j q hh =>
    refine ⟨⟨h.accept, fun p hp => ?_⟩, fun _ hr => hr, Or.inl rfl⟩
    by_cases hij : i = j
    · subst hij
      simp only [Function.update_self] at hp
      rcases List.mem_append.1 hp with hp | hp
      · exact h.unacked p hp
      · rw [List.mem_singleton.1 hp]
        exact hr
    · simp only [Function.update_of_ne hij] at hp
      exact h.unacked p hp
  | relayWaits => exact ⟨h, fun _ hr => hr, Or.inl rfl⟩
  | insertWrite j k q hk =>
    by_cases hij : i = j
    · subst hij
      have hq := h.unacked q (List.mem_of_getElem? hk)
      obtain ⟨hacked, haccepted⟩ := insertWrite_calls (c.nodes i) q
      simp only [Function.update_self]
      refine ⟨⟨insertWrite_acceptInv h.accept q hq, fun p hp => ?_⟩, fun r hr => by rwa [hacked], ?_⟩
      · rw [hacked]
        exact h.unacked p (List.mem_of_mem_eraseIdx hp)
      · exact haccepted.imp_right fun ha => ⟨_, hq, ha⟩
    · simp only [Function.update_of_ne hij]
      exact ⟨h, fun _ hr => hr, Or.inl trivial⟩
  | insertRelay j k hk =>
    by_cases hij : i = j
    · subst hij
      obtain ⟨hacked, haccepted⟩ := insertRelay_calls (c.nodes i) k
      simp only [Function.update_self]
      exact ⟨⟨insertRelay_acceptInv h.accept k, by rw [hacked]; exact h.unacked⟩, fun r hr => by rwa [hacked],
        Or.inl haccepted⟩
    · simp only [Function.update_of_ne hij]
      exact ⟨h, fun _ hr => hr, Or.inl trivial⟩

theorem copyInv_start (n start : ℕ) (log : ReplayLog) (i : ℕ) :
    CopyInv ((SplitChain.start n start log).nodes i) ((SplitChain.start n start log).writes i) := by
  refine ⟨?_, fun q hq => absurd hq List.not_mem_nil⟩
  show AcceptInv (stable n start log i)
  obtain ⟨a, b, d, f, acks, e⟩ := stable_idle n start log i
  rw [e]
  exact ⟨List.nodup_nil, fun r hr => absurd hr List.not_mem_nil, List.Perm.nil⟩

end Chain

/-- **At most one number.** On every node of a stable chain, in every run in which no copy of a request comes to `Write`
after its acknowledgement or waits at the lock when it is acknowledged: `addToLog` has returned 0 to `Write` at most
once for each request id, each id has at most one sequence number, and for a request that has been acknowledged it
returns 0 no more. -/
theorem numbered_at_most_once (n start : ℕ) (log : ReplayLog) (es es' : List SplitEvent)
    (hm : Meets SplitChain.step CopyRule (SplitChain.start n start log) (es ++ es')) (i : ℕ) :
    let c := run SplitChain.step (SplitChain.start n start log) es
    let c' := run SplitChain.step c es'
    (c'.nodes i).accepted.Nodup ∧ ((c'.nodes i).numbered.map Entry.reqId).Nodup ∧
      ∀ r ∈ (c.nodes i).acked, (c'.nodes i).accepted.count r = (c.nodes i).accepted.count r := by
  intro c c'
  obtain ⟨hm, hm'⟩ := (meets_append _ _ _ _ _).1 hm
  have h : CopyInv (c.nodes i) (c.writes i) :=
    run_inv_of_meets SplitChain.step CopyRule (fun d => CopyInv (d.nodes i) (d.writes i))
      (fun d e hd hr => (copyInv_step hd e hr).1) _ es (copyInv_start n start log i) hm
  have h' : CopyInv (c'.nodes i) (c'.writes i) ∧ ∀ r ∈ (c.nodes i).acked,
      r ∈ (c'.nodes i).acked ∧ (c'.nodes i).accepted.count r = (c.nodes i).accepted.count r := by
    refine run_inv_of_meets SplitChain.step CopyRule (fun d => CopyInv (d.nodes i) (d.writes i) ∧
      ∀ r ∈ (c.nodes i).acked, r ∈ (d.nodes i).acked ∧
        (d.nodes i).accepted.count r = (c.nodes i).accepted.count r) ?_ c es' ⟨h, fun r hr => ⟨hr, rfl⟩⟩ hm'
    intro d e hd hr
    obtain ⟨hinv, hacked, haccepted⟩ := copyInv_step hd.1 e hr
    refine ⟨hinv, fun r hmem => ⟨hacked r (hd.2 r hmem).1, ?_⟩⟩
    rcases haccepted with hs | ⟨q, hq, hs⟩
    · rw [hs]
      exact (hd.2 r hmem).2
    · have hne : q ≠ r := fun hqr => hq (hqr ▸ (hd.2 r hmem).1)
      rw [hs, List.count_append, List.count_singleton, if_neg (by simpa using hne), (hd.2 r hmem).2]
      rfl
  refine ⟨h'.1.accept.nodup, ?_, fun r hr => (h'.2 r hr).2⟩
  exact (List.nodup_append.1 (h'.1.accept.numbered.nodup_iff.1 h'.1.accept.nodup)).1

instance (c : SplitChain) : ∀ e, Decidable (CopyRule c e)
  | .chain (.act i (.write (.addToLog request))) =>
    inferInstanceAs (Decidable (request.clientRequestId ∉ (c.nodes i).acked))
  | .chain (.act i (.ackLogEntry r)) => inferInstanceAs (Decidable
      ((c.nodes i).replayLog.flag? r.identifier r.timestamp = some true → ∀ q ∈ c.writes i, q.clientRequestId ≠ r))
  | .chain (.act _ (.write (.takeSeq _))) | .chain (.act _ (.write (.pushEntry _))) | .chain (.act _ (.relay _ _))
  | .chain (.act _ (.rwb _)) | .chain (.act _ (.ack _ _)) | .chain (.sendRelay _) | .chain (.relayOk _)
  | .chain (.sendAck _ _) | .chain (.ackOk _ _) | .insertWrite _ _ | .insertRelay _ _ => isTrue trivial

/-- a single node takes the lock for a waiting `Write`, which is accepted -/
def insertedCall : List SplitEvent :=
  [.insertWrite 0 0, .chain (.act 0 (.write (.takeSeq 0))), .chain (.act 0 (.write (.pushEntry 0)))]

/-- a copy of request 1 waits at the lock until request 1 is committed; it is acknowledged, and request 2 comes -/
def copyWaits : List SplitEvent :=
  List.flatten [(writeCall (requestAt 1)).map .chain, [.chain (.act 0 (.write (.addToLog (requestAt 1))))],
    writeAndCommit.map .chain, [.insertWrite 0 0, .chain (.act 0 (.ackLogEntry (requestAt 1).clientRequestId))]]

def thenNext : List SplitEvent := .chain (.act 0 (.write (.addToLog (requestAt 2)))) :: insertedCall

theorem numbered_at_most_once_waiting :
    let c := run SplitChain.step (SplitChain.start 1 0 ReplayLog.empty) copyWaits
    let c' := run SplitChain.step c thenNext
    (c.nodes 0).acked = [(requestAt 1).clientRequestId] ∧ (c.nodes 0).answered.length = 2 ∧
      (c'.nodes 0).numbered.map (fun x => x.reqId.timestamp) = [⟨1, 0⟩, ⟨2, 0⟩] ∧
      ((c'.nodes 0).numbered.map Entry.reqId).Nodup := by
  have hm : Meets SplitChain.step CopyRule (SplitChain.start 1 0 ReplayLog.empty) (copyWaits ++ thenNext) := by
    decide +kernel
  obtain ⟨-, hnodup, -⟩ := numbered_at_most_once 1 0 ReplayLog.empty copyWaits thenNext hm 0
  exact ⟨by decide +kernel, by decide +kernel, by decide +kernel, hnodup⟩

/-- request 1 is written, committed and acknowledged, and comes again -/
def comesAgain : List SplitEvent :=
  List.flatten [(writeCall (requestAt 1) ++ writeAndCommit).map .chain,
    [.chain (.act 0 (.ackLogEntry (requestAt 1).clientRequestId)), .chain (.act 0 (.write (.addToLog (requestAt 1))))],
    insertedCall]

/-- a copy of request 1 passes the test while request 1 is in the log, and inserts when it is acknowledged and all that
is left in the log is later -/
def insertsLate : List SplitEvent :=
  List.flatten [(writeCall (requestAt 1)).map .chain,
    [.chain (.act 0 (.write (.addToLog (requestAt 2)))), .chain (.act 0 (.write (.addToLog (requestAt 1))))],
    insertedCall, writeAndCommit.map .chain,
    [.chain (.act 0 (.ackLogEntry (requestAt 1).clientRequestId))], insertedCall]

/-- **A retry after the acknowledgement is numbered again**, and so is a copy that waits at the lock meanwhile. -/
theorem acked_request_numbered_again :
    ¬ (((run SplitChain.step (SplitChain.start 1 0 ReplayLog.empty) comesAgain).nodes 0).numbered.map
        Entry.reqId).Nodup ∧
      ¬ (((run SplitChain.step (SplitChain.start 1 0 ReplayLog.empty) insertsLate).nodes 0).numbered.map
        Entry.reqId).Nodup := by
  decide +kernel

/-! ## What the pending queue holds -/

/-- no request is acknowledged while a relay of it waits at the lock -/
def NoOvertaking (c : SplitChain) : Event → Prop
  | .act i (.ackLogEntry r) => (c.nodes i).replayLog.flag? r.identifier r.timestamp = some true →
      ∀ k ∈ c.relays i, ∀ x ∈ (c.nodes i).relays[k]?, x.req.clientRequestId ≠ r
  | _ => True

/-- the log rejects a relay of a number the node has accepted, and no acknowledgement overtakes one at the lock -/
def RepeatRule (c : SplitChain) : SplitEvent → Prop
  | .chain e => RejectRule c.nodes e ∧ NoOvertaking c e
  | .insertWrite _ _ | .insertRelay _ _ => True

/-- when the number of a handler at the lock has been accepted, the log has its request -/
def AtLock (x : Node) (waiting : List ℕ) : Prop := ∀ k ∈ waiting, ∃ h, x.relays[k]? = some h ∧
  (x.hasAccepted h.req.seqNum → x.logged h.req.clientRequestId = true)

/-- one number, one request -/
def OneRequest (x : Node) : Prop := ∀ y ∈ x.relays, ∀ z ∈ x.relays, y.req.seqNum = z.req.seqNum →
  y.req.clientRequestId = z.req.clientRequestId

section Waiting

variable {n x : Node} {ks : List ℕ}

/-- handlers keep their requests -/
theorem AtLock.move (h : AtLock n ks) (hreq : n.relays.map RelayHandler.req <+: x.relays.map RelayHandler.req)
    (hkeep : ∀ k ∈ ks, ∀ y, n.relays[k]? = some y → x.hasAccepted y.req.seqNum →
      (n.hasAccepted y.req.seqNum → n.logged y.req.clientRequestId = true) →
        x.logged y.req.clientRequestId = true) : AtLock x ks := by
  intro k hk
  obtain ⟨y, hy, hin⟩ := h k hk
  have hmap : (n.relays.map RelayHandler.req)[k]? = some y.req := by rw [List.getElem?_map, hy]; rfl
  obtain ⟨t, ht⟩ := hreq
  have hmap' : (x.relays.map RelayHandler.req)[k]? = some y.req := by
    rw [← ht, List.getElem?_append_left (List.getElem?_eq_some_iff.1 hmap).1, hmap]
  rw [List.getElem?_map] at hmap'
  obtain ⟨z, hz, hzy⟩ := Option.map_eq_some_iff.1 hmap'
  refine ⟨z, hz, ?_⟩
  rw [hzy]
  exact fun ha => hkeep k hk y hy ha hin

/-- nothing is queued and no handler moves -/
theorem AtLock.of_eq (h : AtLock n ks) (hq : x.queued = n.queued) (hr : x.relays = n.relays)
    (hlog : ∀ k ∈ ks, ∀ y, n.relays[k]? = some y → n.logged y.req.clientRequestId = true →
      x.logged y.req.clientRequestId = true) : AtLock x ks := by
  refine h.move (by rw [hr]) fun k hk y hy ha hin => hlog k hk y hy (hin ?_)
  unfold Node.hasAccepted at ha ⊢
  rwa [hq, hr] at ha

/-- `addToLog` ends in a handler: when it is accepted, the log has its request -/
theorem AtLock.setRelay (h : AtLock n ks) (hone : OneRequest n) {k : ℕ} {y : RelayHandler} (hk : n.relays[k]? = some y)
    (p : RelayPhase) (f : Bool) (log : ReplayLog)
    (hlog : ∀ r, n.logged r = true → (log.flag? r.identifier r.timestamp).isSome = true)
    (hp : p = .added → (log.flag? y.req.clientRequestId.identifier y.req.clientRequestId.timestamp).isSome = true) :
    AtLock { n with replayLog := log, relays := n.relays.set k ⟨y.req, p, f⟩ } ks := by
  have hreq := relays_set_req (z := ⟨y.req, p, f⟩) hk rfl
  refine h.move (by rw [hreq]) fun m _ z hz ha hin => ?_
  rcases ha with ha | ⟨w, hw, hwp, hws⟩
  · exact hlog _ (hin (Or.inl ha))
  · obtain ⟨m', hm'⟩ := List.mem_iff_getElem?.1 hw
    rcases getElem?_of_set hm' with ⟨-, rfl⟩ | ⟨-, hm'⟩
    · have hid := hone y (List.mem_of_getElem? hk) z (List.mem_of_getElem? hz) hws
      show (log.flag? z.req.clientRequestId.identifier z.req.clientRequestId.timestamp).isSome = true
      rw [← hid]
      exact hp hwp
    · exact hlog _ (hin (Or.inr ⟨w, List.mem_of_getElem? hm', hwp, hws⟩))

/-- an accepted handler pushes its entry -/
theorem AtLock.push (h : AtLock n ks) {k : ℕ} {y : RelayHandler} (hk : n.relays[k]? = some y) (hy : y.phase = .added)
    (p : RelayPhase) (f : Bool) (q : PendingQueue) :
    AtLock { n with pendingQueue := q, relays := n.relays.set k ⟨y.req, p, f⟩, queued := n.queued ++ [y.req.entry] }
      ks := by
  have hreq := relays_set_req (z := ⟨y.req, p, f⟩) hk rfl
  refine h.move (by rw [hreq]) fun m _ z _ ha hin => hin ?_
  have hold : n.hasAccepted y.req.seqNum := Or.inr ⟨y, List.mem_of_getElem? hk, hy, rfl⟩
  rcases ha with ⟨e, he, hes⟩ | ⟨w, hw, hwp, hws⟩
  · rcases List.mem_append.1 he with he | he
    · exact Or.inl ⟨e, he, hes⟩
    · rw [List.mem_singleton.1 he] at hes
      exact hes ▸ hold
  · obtain ⟨m', hm'⟩ := List.mem_iff_getElem?.1 hw
    rcases getElem?_of_set hm' with ⟨-, rfl⟩ | ⟨-, hm'⟩
    · exact hws ▸ hold
    · exact Or.inr ⟨w, List.mem_of_getElem? hm', hwp, hws⟩

theorem insertRelay_atLock (h : AtLock n ks) (hone : OneRequest n) (k : ℕ) : AtLock (n.insertRelay k) ks := by
  have hlog : ∀ (q r : ClientRequestId), n.logged r = true →
      ((n.replayLog.insertTimestamp q).2.flag? r.identifier r.timestamp).isSome = true :=
    fun q r hr => ReplayLog.insertTimestamp_isSome _ q hr
  rcases insertRelay_cases n k with hs | ⟨req, f, hk, hs | ⟨-, hs⟩⟩ <;> rw [hs]
  · exact h
  all_goals exact h.setRelay hone hk _ _ _ (hlog _) fun _ => ReplayLog.insertTimestamp_self _ _

theorem relayAct_atLock (h : AtLock n ks) (hone : OneRequest n) (k : ℕ) (a : RelayAct) :
    AtLock (n.relayAct k a) ks := by
  cases a with
  | addToLog =>
    simp only [Node.relayAct]
    split
    · rename_i req f hk
      refine h.setRelay hone hk _ _ (n.replayLog.addToLog req.clientRequestId).2
        (fun r hr => ReplayLog.addToLog_isSome _ _ hr) fun hp => ?_
      have hc : ¬ (n.replayLog.addToLog req.clientRequestId).1 < 0 := fun hneg => by simp [hneg] at hp
      rw [ReplayLog.addToLog_zero _ _ hc, if_pos ⟨rfl, rfl⟩]
      rfl
    · exact h
  | pushEntry =>
    simp only [Node.relayAct]
    split
    · rename_i req f hk
      split
      · exact h.setRelay hone hk .threw f n.replayLog (fun _ hr => hr) fun hp => by cases hp
      · exact h.push hk rfl .pushed f _
    · exact h
  | drop =>
    simp only [Node.relayAct]
    split
    · rename_i req f hk
      exact h.setRelay hone hk .lost f n.replayLog (fun _ hr => hr) fun hp => by cases hp
    · exact h

/-- a step of a thread of a node behind the head -/
theorem act_atLock (h : AtLock n ks) (hone : OneRequest n) (hhead : n.headService = false) (hadd : n.adding = [])
    (hpush : n.pushing = []) (a : Act)
    (hack : ∀ r, a = .ackLogEntry r → n.replayLog.flag? r.identifier r.timestamp = some true →
      ∀ k ∈ ks, ∀ y ∈ n.relays[k]?, y.req.clientRequestId ≠ r) : AtLock (n.act a) ks := by
  unfold Node.act
  split
  · exact h
  cases a with
  | write a =>
    show AtLock (n.writeAct a) ks
    rw [writeAct_quiet hhead hadd hpush]
    exact h
  | relay k a => exact relayAct_atLock h hone k a
  | rwb a =>
    cases a <;> simp only [Node.rwbAct] <;> repeat' split
    all_goals exact h.of_eq rfl rfl fun _ _ _ _ hr => hr
  | ack k a =>
    simp only [Node.ackAct, Node.ackStart, Node.ackPop]
    repeat' split
    all_goals refine h.of_eq rfl rfl fun _ _ _ _ hr => ?_
    all_goals first | exact hr | exact (ReplayLog.commitLogEntry_isSome _ _ _ _).trans hr
  | ackLogEntry r =>
    refine h.of_eq rfl rfl fun k hk y hy hr => ?_
    simp only [Node.ackLogEntry, Node.logged]
    by_cases hc : (n.replayLog.ackLogEntry r).1 = 0
    · have hne := hack r rfl ((ReplayLog.ackLogEntry_code _ _).1 hc) k hk y hy
      rw [ReplayLog.ackLogEntry_zero _ _ hc, if_neg fun hid => hne (requestId_ext hid.1 hid.2)]
      exact hr
    · rw [ReplayLog.ackLogEntry_ne _ _ hc]
      exact hr

theorem wire_atLock (h : AtLock n ks) (w : Wire) : AtLock (n.wire w) ks := by
  cases w with
  | relayArrives q =>
    refine h.move (by simp [Node.wire]) fun _ _ y _ ha hin => hin ?_
    rcases ha with ha | ⟨z, hz, hzp, hzs⟩
    · exact Or.inl ha
    · rcases List.mem_append.1 hz with hz | hz
      · exact Or.inr ⟨z, hz, hzp, hzs⟩
      · rw [List.mem_singleton.1 hz] at hzp
        cases hzp
  | relaySent _ _ | relayOk | ackSent _ _ _ | ackArrives _ | ackOk _ =>
    simp only [Node.wire]
    repeat' split
    all_goals exact h.of_eq rfl rfl fun _ _ _ _ hr => hr

end Waiting

section Chain

variable {n start : ℕ} {log : ReplayLog} {c : SplitChain}

/-- entries of the head's list that have one number are one entry -/
theorem Redelivered.oneRequest {s : Nodes} (h : Redelivered n start log s) {i : ℕ} (hi : i < n) : OneRequest (s i) := by
  intro y hy z hz hyz
  obtain ⟨k, hk⟩ := List.mem_iff_getElem?.1 (h.genuine i hi y hy)
  have hseq : y.req.seqNum = start + 1 + k := h.head.numbering k _ hk
  have hz' : (s 0).numbered[k]? = some z.req.entry :=
    h.head.numbering.getElem? (h.genuine i hi z hz) (hyz.symm.trans hseq)
  have hentry : y.req.entry = z.req.entry := Option.some.inj (hk.symm.trans hz')
  exact congrArg Entry.reqId hentry

/-- a `Write` handler at the head takes the lock -/
theorem Redelivered.insertWrite {s : Nodes} (h : Redelivered n start log s) (q : WriteRequest) :
    Redelivered n start log (Function.update s 0 ((s 0).insertWrite q)) := by
  have hsame : ((s 0).insertWrite q).conf = (s 0).conf ∧ ((s 0).insertWrite q).numbered = (s 0).numbered ∧
      ((s 0).insertWrite q).relays = (s 0).relays ∧ HeadInv start ((s 0).insertWrite q).path ∧
      ∀ N, PathInv start N (s 0).path → PathInv start N ((s 0).insertWrite q).path := by
    have hh := h.head
    rcases insertWrite_cases (s 0) q with hs | hs | ⟨-, hs⟩ <;> rw [hs]
    all_goals
      exact ⟨rfl, rfl, rfl, ⟨hh.numbering, hh.next, hh.pushing, hh.distinct, hh.queue, hh.relays⟩,
        fun N hp => ⟨hp.queue, hp.hand, hp.send, hp.pop, hp.lower, hp.upper, hp.written⟩⟩
  obtain ⟨hconf, hnum, hrel, hhead, hpath⟩ := hsame
  refine h.update 0 _ hconf (fun _ => hnum) (fun _ => hhead) (absurd rfl) (fun hi => hpath _ (h.node 0 hi)) ?_
    (absurd rfl)
  rw [hrel]
  exact h.genuine 0

/-- a `RelayWrite` handler takes the lock -/
theorem Redelivered.insertRelay {s : Nodes} (h : Redelivered n start log s) {i k : ℕ}
    (hlock : i ≠ 0 → i < n → ∃ y, (s i).relays[k]? = some y ∧
      ((s i).hasAccepted y.req.seqNum → (s i).logged y.req.clientRequestId = true)) :
    Redelivered n start log (Function.update s i ((s i).insertRelay k)) := by
  by_cases h0 : i = 0
  · -- nobody relays to the head
    subst h0
    have hrel : (s 0).relays = [] := h.head.relays
    have hnone : (s 0).insertRelay k = s 0 := by simp [Node.insertRelay, hrel]
    rw [hnone, Function.update_eq_self]
    exact h
  rcases insertRelay_cases (s i) k with hsame | ⟨req, f, hk, hcase⟩
  · rw [hsame, Function.update_eq_self]
    exact h
  obtain ⟨p, log', b, hins, honce⟩ : ∃ p log' b,
      (s i).insertRelay k = { s i with replayLog := log', relays := (s i).relays.set k ⟨req, p, b⟩ } ∧
        (i < n → OnceInv { s i with replayLog := log', relays := (s i).relays.set k ⟨req, p, b⟩ }) := by
    rcases hcase with hins | ⟨hnew, hins⟩
    · exact ⟨_, _, _, hins, fun hi => (h.once i h0 hi).setRelay (by simp) _⟩
    · refine ⟨_, _, _, hins, fun hi => (h.once i h0 hi).accept (fun hacc => ?_) _⟩
      obtain ⟨y, hy, hin⟩ := hlock h0 hi
      obtain rfl := Option.some.inj (hk.symm.trans hy)
      rw [hnew] at hin
      exact Bool.false_ne_true (hin hacc)
  rw [hins]
  refine h.update i _ rfl (fun hi => absurd hi h0) (fun hi => absurd hi h0) (fun _ => h.quiet i h0)
    (fun hi => ?_) (fun hi y hy => ?_) fun _ hi => honce hi
  · have hpath := h.node i hi
    exact ⟨hpath.queue, hpath.hand, hpath.send, hpath.pop, hpath.lower, hpath.upper, hpath.written⟩
  · have hgen := h.genuine i hi _ (List.mem_of_getElem? hk)
    rcases List.mem_or_eq_of_mem_set hy with hy | rfl
    · exact h.genuine i hi y hy
    · exact hgen

/-- the chain, and what its handlers at the lock find in the log -/
structure Locked (n start : ℕ) (log : ReplayLog) (c : SplitChain) : Prop where
  chain : Redelivered n start log c.nodes
  writes : ∀ i, i ≠ 0 → c.writes i = []
  relays : ∀ i, i ≠ 0 → i < n → AtLock (c.nodes i) (c.relays i)

theorem locked_step (h0 : 0 < n) (h : Locked n start log c) (e : SplitEvent) (hr : RepeatRule c e) :
    Locked n start log (c.step e) := by
  have hmove := step_move c e
  generalize c.step e = c' at hmove ⊢
  cases hmove with
  | none => exact h
  | chain e =>
    refine ⟨redelivered_step h.chain h0 e hr.1, h.writes, fun i hi hin => ?_⟩
    refine step_node_inv (fun x => AtLock x (c.relays i)) c.nodes e i (h.relays i hi hin) (fun a ha => ?_)
      fun x w hx => wire_atLock hx w
    obtain ⟨hadd, hpush⟩ := h.chain.quiet i hi
    have hhead := conf_headService (h.chain.conf i) hi
    refine act_atLock (h.relays i hi hin) (h.chain.oneRequest hin) hhead hadd hpush a fun r har => ?_
    rw [ha, har] at hr
    exact hr.2
  | writeWaits j q hh =>
    refine ⟨h.chain, fun i hi => ?_, h.relays⟩
    have hji : i ≠ j := by
      rintro rfl
      rw [conf_headService (h.chain.conf i) hi] at hh
      cases hh
    show Function.update c.writes j _ i = []
    rw [Function.update_of_ne hji]
    exact h.writes i hi
  | relayWaits j k x hk hx hold =>
    refine ⟨h.chain, h.writes, fun i hi hin => ?_⟩
    by_cases hij : i = j
    · subst hij
      show AtLock (c.nodes i) (Function.update c.relays i _ i)
      rw [Function.update_self]
      intro m hm
      rcases List.mem_append.1 hm with hm | hm
      · exact h.relays i hi hin m hm
      · rw [List.mem_singleton.1 hm]
        refine ⟨x, hk, fun hacc => ?_⟩
        rcases hr.1 x hk hx hacc with hc | hc
        · rw [hold] at hc
          cases hc
        · exact hc
    · show AtLock (c.nodes i) (Function.update c.relays j _ i)
      rw [Function.update_of_ne hij]
      exact h.relays i hi hin
  | insertWrite j k q hk =>
    obtain rfl : j = 0 := by
      by_contra hj
      rw [h.writes j hj] at hk
      cases hk
    refine ⟨h.chain.insertWrite q, fun i hi => ?_, fun i hi hin => ?_⟩
    · show Function.update c.writes 0 _ i = []
      rw [Function.update_of_ne hi]
      exact h.writes i hi
    · show AtLock (Function.update c.nodes 0 _ i) (c.relays i)
      rw [Function.update_of_ne hi]
      exact h.relays i hi hin
  | insertRelay j k hk =>
    refine ⟨h.chain.insertRelay fun hj hjn => h.relays j hj hjn k hk, h.writes, fun i hi hin => ?_⟩
    by_cases hij : i = j
    · subst hij
      show AtLock (Function.update c.nodes i _ i) (Function.update c.relays i _ i)
      rw [Function.update_self, Function.update_self]
      have hins := insertRelay_atLock (h.relays i hi hin) (h.chain.oneRequest hin) k
      exact fun m hm => hins m (List.mem_of_mem_erase hm)
    · show AtLock (Function.update c.nodes j _ i) (Function.update c.relays j _ i)
      rw [Function.update_of_ne hij, Function.update_of_ne hij]
      exact h.relays i hi hin

theorem locked_start (n start : ℕ) (log : ReplayLog) : Locked n start log (SplitChain.start n start log) :=
  ⟨redelivered_stable n start log, fun _ _ => rfl, fun _ _ _ _ hk => absurd hk List.not_mem_nil⟩

end Chain

/-- **The pending queue holds no number already written.** In a stable chain, after every run in which a repeated relay
of a number that a node has accepted is rejected by its log, and no request is acknowledged at a node while a relay of
it waits at the lock there: on every node each entry of the pending queue has a number above `writeSeq`. -/
theorem queue_above_written (n start : ℕ) (log : ReplayLog) (es : List SplitEvent)
    (hm : Meets SplitChain.step RepeatRule (SplitChain.start n start log) es) :
    let c := run SplitChain.step (SplitChain.start n start log) es
    ∀ i < n, ∀ x ∈ (c.nodes i).pendingQueue, (c.nodes i).writeSeq < x.seqNum := by
  intro c i hi x hx
  have h : Locked n start log c :=
    run_inv_of_meets SplitChain.step RepeatRule (Locked n start log)
      (fun c e h hr => locked_step (Nat.zero_lt_of_lt hi) h e hr) _ es (locked_start n start log) hm
  exact h.chain.above hi hx

instance (c : SplitChain) : ∀ e, Decidable (NoOvertaking c e)
  | .act i (.ackLogEntry r) => inferInstanceAs (Decidable
      ((c.nodes i).replayLog.flag? r.identifier r.timestamp = some true →
        ∀ k ∈ c.relays i, ∀ x ∈ (c.nodes i).relays[k]?, x.req.clientRequestId ≠ r))
  | .act _ (.write _) | .act _ (.relay _ _) | .act _ (.rwb _) | .act _ (.ack _ _) | .sendRelay _ | .relayOk _
  | .sendAck _ _ | .ackOk _ _ => isTrue trivial

instance (c : SplitChain) : ∀ e, Decidable (RepeatRule c e)
  | .chain e => inferInstanceAs (Decidable (RejectRule c.nodes e ∧ NoOvertaking c e))
  | .insertWrite _ _ | .insertRelay _ _ => isTrue trivial

/-- the head of two nodes relays its next number, which the tail queues, and the answer is lost -/
def answerLost : List Event :=
  [.act 0 (.rwb .poll), .act 0 (.rwb .spin), .act 0 (.rwb .pop), .sendRelay 0, .act 1 (.relay 0 .addToLog),
    .act 1 (.relay 0 .pushEntry), .act 0 (.rwb .retry)]

/-- the tail writes and commits its next number -/
def tailCommits : List Event :=
  [.act 1 (.rwb .poll), .act 1 (.rwb .spin), .act 1 (.rwb .pop), .act 1 (.rwb .leave), .act 1 (.rwb .write),
    .act 1 (.rwb .bump), .act 1 (.rwb .send), .act 1 (.ack 0 .start), .act 1 (.ack 0 .pop), .act 1 (.ack 0 .commit),
    .act 1 (.ack 0 .log), .act 1 (.ack 0 .bump)]

/-- request 1 is acknowledged at the tail -/
def tailAcked : Event := .act 1 (.ackLogEntry (requestAt 1).clientRequestId)

/-- the relay again, up to the lock -/
def relayAgain : List Event := [.sendRelay 0, .act 1 (.relay 1 .addToLog)]

/-- the second relay takes the lock and, if it is accepted, queues its entry -/
def relayInserts : List SplitEvent := [.insertRelay 1 1, .chain (.act 1 (.relay 1 .pushEntry))]

/-- the second relay waits at the lock until number 1 is committed, and the acknowledgement comes after it -/
def relayWaitsLong : List SplitEvent :=
  List.flatten [(List.flatten [writeCall (requestAt 1), answerLost, relayAgain, tailCommits]).map .chain, relayInserts,
    [.chain tailAcked]]

theorem queue_above_written_waiting :
    let c := run SplitChain.step (SplitChain.start 2 0 ReplayLog.empty) relayWaitsLong
    (c.nodes 1).relays.map RelayHandler.phase = [.pushed, .refused] ∧
      (c.nodes 1).acked = [(requestAt 1).clientRequestId] ∧
      ∀ i < 2, ∀ x ∈ (c.nodes i).pendingQueue, (c.nodes i).writeSeq < x.seqNum := by
  have hm : Meets SplitChain.step RepeatRule (SplitChain.start 2 0 ReplayLog.empty) relayWaitsLong := by decide +kernel
  exact ⟨by decide +kernel, by decide +kernel, queue_above_written 2 0 ReplayLog.empty relayWaitsLong hm⟩

/-- the second relay comes after the acknowledgement -/
def relayAfterAck : List SplitEvent :=
  List.flatten [(List.flatten [writeCall (requestAt 1), answerLost, tailCommits, [tailAcked], relayAgain]).map .chain,
    relayInserts]

/-- the second relay waits at the lock while the acknowledgement comes -/
def relayOvertaken : List SplitEvent :=
  List.flatten [(List.flatten [writeCall (requestAt 1), answerLost, relayAgain, tailCommits, [tailAcked]]).map .chain,
    relayInserts]

/-- **An acknowledged request that is relayed again is queued again**, and so is one that waits at the lock meanwhile.
The tail has written number 1 and queues it. -/
theorem written_number_queued_again :
    (¬ ∀ x ∈ ((run SplitChain.step (SplitChain.start 2 0 ReplayLog.empty) relayAfterAck).nodes 1).pendingQueue.toList,
      ((run SplitChain.step (SplitChain.start 2 0 ReplayLog.empty) relayAfterAck).nodes 1).writeSeq < x.seqNum) ∧
    ¬ ∀ x ∈ ((run SplitChain.step (SplitChain.start 2 0 ReplayLog.empty) relayOvertaken).nodes 1).pendingQueue.toList,
      ((run SplitChain.step (SplitChain.start 2 0 ReplayLog.empty) relayOvertaken).nodes 1).writeSeq < x.seqNum := by
  decide +kernel

end ChainedBlockStorage.Chain
