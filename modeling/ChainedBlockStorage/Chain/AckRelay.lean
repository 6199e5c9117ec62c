/-
Acknowledgements on their way up a stable chain.

A client calls `WriteAck` at the tail, as often as it likes. The handler takes the entry out of the tail's replay log if
it is committed there, and then calls `AckReplayLog` at the upstream node, whatever became of the entry; so does every
handler of `AckReplayLog`. Writes and commits go on meanwhile.

- `erased_downstream_first`: a node has acknowledged a request only after the next one downstream, in every run in which
  a handler forwards only what its own node has acknowledged.
- `erased_above_tail`: a call that meets an entry not yet marked at the tail, and is overtaken by the commit on its way.
-/
import ChainedBlockStorage.Chain.Agreement
import ChainedBlockStorage.Chain.WriteAck

namespace ChainedBlockStorage.Chain

open Run Tables

/-! ## The handlers -/

inductive AckCallPhase where
  /-- `ackLogEntry` is next -/
  | arrived
  /-- at the test of the loop that calls the upstream node -/
  | relaying
  /-- inside the call, answered by call `m` -/
  | calling (m : ℕ)
  | done
deriving DecidableEq

/-- a call of `WriteAck` or `AckReplayLog`, at node `node` -/
structure AckCall where
  node : ℕ
  writeAck : Bool
  id : ClientRequestId
  /-- `reply->committed()` -/
  committed : Bool
  phase : AckCallPhase

/-- the condition of the loop that calls the upstream node -/
def AckCall.relays (c : AckCall) (s : State) : Bool :=
  if c.writeAck then s == .tail else s != .head && s != .single

structure AckChain where
  nodes : Nodes
  calls : List AckCall

inductive AckEvent where
  /-- a step of the chain that is none of a call's -/
  | chain (e : Event)
  /-- a client calls `WriteAck` at the tail -/
  | writeAck (r : ClientRequestId)
  /-- call `k` runs `ackLogEntry` -/
  | ackLogEntry (k : ℕ)
  /-- it calls `AckReplayLog` -/
  | relay (k : ℕ)
  /-- that call returns OK -/
  | ok (k : ℕ)
  /-- or fails -/
  | retry (k : ℕ)
  /-- the loop condition is false -/
  | leave (k : ℕ)

/-- a step that is not `ackLogEntry` -/
def Event.isChain : Event → Bool
  | .act _ (.ackLogEntry _) => false
  | _ => true

def AckChain.set (s : AckChain) (k : ℕ) (c : AckCall) : AckChain := { s with calls := s.calls.set k c }

/-- the call whose handler takes the step -/
def AckEvent.call : AckEvent → Option ℕ
  | .chain _ | .writeAck _ => none
  | .ackLogEntry k | .relay k | .ok k | .retry k | .leave k => some k

/-- the process of that handler is dead -/
def AckChain.stopped (s : AckChain) (e : AckEvent) : Bool :=
  e.call.any fun k => s.calls[k]?.any fun c => (s.nodes c.node).rwb.isDead

def AckChain.next (n : ℕ) (s : AckChain) : AckEvent → AckChain
  | .chain e => if e.isChain then { s with nodes := Chain.step s.nodes e } else s
  | .writeAck r => { s with calls := s.calls ++ [⟨n - 1, true, r, false, .arrived⟩] }
  | .ackLogEntry k =>
    match s.calls[k]? with
    | some ⟨i, w, r, _, .arrived⟩ =>
      { nodes := Chain.step s.nodes (.act i (.ackLogEntry r))
        calls := s.calls.set k ⟨i, w, r, (s.nodes i).writeAck r, .relaying⟩ }
    | _ => s
  | .relay k =>
    match s.calls[k]? with
    | some ⟨i, w, r, b, .relaying⟩ =>
      match (s.nodes i).upstream with
      | none => s
      | some j =>
        if AckCall.relays ⟨i, w, r, b, .relaying⟩ (s.nodes i).state then
          { s with calls := s.calls.set k ⟨i, w, r, b, .calling s.calls.length⟩ ++ [⟨j, false, r, false, .arrived⟩] }
        else s
    | _ => s
  | .ok k =>
    match s.calls[k]? with
    | some ⟨i, w, r, b, .calling m⟩ =>
      if s.calls[m]?.any fun c => c.phase = .done then s.set k ⟨i, w, r, b, .done⟩ else s
    | _ => s
  | .retry k =>
    match s.calls[k]? with
    | some ⟨i, w, r, b, .calling _⟩ => s.set k ⟨i, w, r, b, .relaying⟩
    | _ => s
  | .leave k =>
    match s.calls[k]? with
    | some ⟨i, w, r, b, .relaying⟩ =>
      if AckCall.relays ⟨i, w, r, b, .relaying⟩ (s.nodes i).state then s else s.set k ⟨i, w, r, b, .done⟩
    | _ => s

def AckChain.step (n : ℕ) (s : AckChain) (e : AckEvent) : AckChain := if s.stopped e then s else s.next n e

def AckChain.start (n start : ℕ) (log : ReplayLog) : AckChain := ⟨stable n start log, []⟩

/-- a handler forwards only what its own node has acknowledged -/
def ForwardsErased (s : AckChain) : AckEvent → Prop
  | .relay k => ∀ c ∈ s.calls[k]?, c.phase = .relaying → c.id ∈ (s.nodes c.node).acked
  | _ => True

instance (s : AckChain) : ∀ e, Decidable (ForwardsErased s e)
  | .relay k => inferInstanceAs (Decidable (∀ c ∈ s.calls[k]?, c.phase = .relaying → c.id ∈ (s.nodes c.node).acked))
  | .chain _ | .writeAck _ | .ackLogEntry _ | .ok _ | .retry _ | .leave _ => isTrue trivial

/-! ## From the tail upwards -/

/-- what a node has acknowledged, and what it is asked to acknowledge, the next one downstream has acknowledged -/
structure ErasedInv (n start : ℕ) (log : ReplayLog) (s : AckChain) : Prop where
  conf : ∀ i, (s.nodes i).conf = (stable n start log i).conf
  nodes : ∀ i, i + 1 < n → ∀ r ∈ (s.nodes i).acked, r ∈ (s.nodes (i + 1)).acked
  calls : ∀ c ∈ s.calls, c.node + 1 < n → c.id ∈ (s.nodes (c.node + 1)).acked

/-- only `ackLogEntry` acknowledges -/
theorem event_acked (n : Node) (a : Act) (ha : ∀ r, a ≠ .ackLogEntry r) : (n.act a).acked = n.acked := by
  unfold Node.act
  split
  · rfl
  cases a with
  | write a =>
    cases a <;> simp only [Node.writeAct] <;> repeat' split
    all_goals rfl
  | relay k a =>
    cases a <;> simp only [Node.relayAct] <;> repeat' split
    all_goals rfl
  | rwb a =>
    cases a <;> simp only [Node.rwbAct] <;> repeat' split
    all_goals rfl
  | ack k a =>
    simp only [Node.ackAct, Node.ackStart, Node.ackPop]
    repeat' split
    all_goals rfl
  | ackLogEntry r => exact absurd rfl (ha r)

theorem wire_acked (n : Node) (w : Wire) : (n.wire w).acked = n.acked := by
  cases w <;> simp only [Node.wire] <;> repeat' split
  all_goals rfl

theorem chain_acked (s : Nodes) (e : Event) (he : e.isChain = true) (j : ℕ) : (step s e j).acked = (s j).acked := by
  refine step_node_inv (fun x => x.acked = (s j).acked) s e j rfl ?_ fun x w hx => (wire_acked x w).trans hx
  rintro a rfl
  apply event_acked _ a
  rintro r rfl
  cases he

/-- the calls move on, and the nodes stay -/
theorem ErasedInv.of_calls {n start : ℕ} {log : ReplayLog} {s : AckChain} (h : ErasedInv n start log s)
    {calls : List AckCall}
    (hc : ∀ c ∈ calls, (∃ d ∈ s.calls, d.node = c.node ∧ d.id = c.id) ∨
      (c.node + 1 < n → c.id ∈ (s.nodes (c.node + 1)).acked)) :
    ErasedInv n start log { s with calls := calls } := by
  refine ⟨h.conf, h.nodes, ?_⟩
  intro c hmem hlt
  rcases hc c hmem with ⟨d, hd, hnode, hid⟩ | hc
  · rw [← hnode] at hlt ⊢
    rw [← hid]
    exact h.calls d hd hlt
  · exact hc hlt

theorem ErasedInv.set {n start : ℕ} {log : ReplayLog} {s : AckChain} (h : ErasedInv n start log s) {k : ℕ}
    {d c : AckCall} (hk : s.calls[k]? = some d) (hnode : d.node = c.node) (hid : d.id = c.id) :
    ErasedInv n start log (s.set k c) := by
  refine h.of_calls fun x hx => Or.inl ?_
  rcases List.mem_or_eq_of_mem_set hx with hx | rfl
  · exact ⟨x, hx, rfl, rfl⟩
  · exact ⟨d, List.mem_of_getElem? hk, hnode, hid⟩

/-- what the nodes have acknowledged after an `ackLogEntry` at node `i`: at most `r`, at that node, is new -/
structure Erases (s s' : Nodes) (i : ℕ) (r : ClientRequestId) : Prop where
  self : ∀ x, x ∈ (s' i).acked → x ∈ (s i).acked ∨ x = r
  other : ∀ j, j ≠ i → (s' j).acked = (s j).acked
  mono : ∀ j x, x ∈ (s j).acked → x ∈ (s' j).acked

theorem erases_ackLogEntry (s : Nodes) (i : ℕ) (r : ClientRequestId) :
    Erases s (step s (.act i (.ackLogEntry r))) i r := by
  have hself : (step s (.act i (.ackLogEntry r)) i).acked = (s i).acked ∨
      (step s (.act i (.ackLogEntry r)) i).acked = (s i).acked ++ [r] := by
    simp only [step, Function.update_self, Node.act, Node.ackLogEntry]
    split_ifs
    · exact Or.inl rfl
    · exact Or.inr rfl
    · exact Or.inl rfl
  have hother : ∀ j, j ≠ i → (step s (.act i (.ackLogEntry r)) j).acked = (s j).acked := by
    intro j hj
    simp [step, hj]
  refine ⟨fun x hx => ?_, hother, fun j x hx => ?_⟩
  · rcases hself with hs | hs <;> rw [hs] at hx
    · exact Or.inl hx
    · exact (List.mem_append.1 hx).imp_right List.mem_singleton.1
  · by_cases hj : j = i
    · subst hj
      rcases hself with hs | hs <;> rw [hs]
      · exact hx
      · exact List.mem_append_left _ hx
    · rw [hother j hj]
      exact hx

/-- a node acknowledges what it was asked to -/
theorem ErasedInv.ackLogEntry {n start : ℕ} {log : ReplayLog} {s : AckChain} (h : ErasedInv n start log s) {k : ℕ}
    {c d : AckCall} (hk : s.calls[k]? = some c) (hnode : d.node = c.node) (hid : d.id = c.id) :
    ErasedInv n start log
      { s with nodes := step s.nodes (.act c.node (.ackLogEntry c.id)), calls := s.calls.set k d } := by
  have hacked := erases_ackLogEntry s.nodes c.node c.id
  have hcall := h.calls c (List.mem_of_getElem? hk)
  refine ⟨fun j => (step_conf s.nodes _ j).trans (h.conf j), fun j hj x hx => ?_, fun x hx hlt => ?_⟩
  · by_cases hji : j = c.node
    · subst hji
      -- what is new here was acknowledged downstream before the call was made
      rcases hacked.self x hx with hold | rfl
      · exact hacked.mono _ _ (h.nodes _ hj x hold)
      · exact hacked.mono _ _ (hcall hj)
    · dsimp only at hx
      rw [hacked.other j hji] at hx
      exact hacked.mono _ _ (h.nodes j hj x hx)
  · rcases List.mem_or_eq_of_mem_set hx with hx | rfl
    · exact hacked.mono _ _ (h.calls x hx hlt)
    · rw [hnode] at hlt ⊢
      rw [hid]
      exact hacked.mono _ _ (hcall hlt)

theorem AckChain.next_inv {n start : ℕ} {log : ReplayLog} {s : AckChain} (h : ErasedInv n start log s) (e : AckEvent)
    (hr : ForwardsErased s e) : ErasedInv n start log (s.next n e) := by
  cases e with
  | chain e =>
    simp only [AckChain.next]
    split
    · rename_i he
      have hacked := chain_acked s.nodes e he
      refine ⟨fun i => (step_conf s.nodes e i).trans (h.conf i), ?_, ?_⟩
      · intro i hi r hri
        simp only [hacked] at hri ⊢
        exact h.nodes i hi r hri
      · intro c hc hlt
        simp only [hacked]
        exact h.calls c hc hlt
    · exact h
  | writeAck r =>
    apply h.of_calls
    intro c hc
    rcases List.mem_append.1 hc with hc | hc
    · exact Or.inl ⟨c, hc, rfl, rfl⟩
    · right
      rw [List.mem_singleton.1 hc]
      intro hlt
      dsimp only at hlt
      omega
  | ackLogEntry k =>
    simp only [AckChain.next]
    split
    · rename_i hk
      exact h.ackLogEntry hk rfl rfl
    · exact h
  | relay k =>
    simp only [AckChain.next]
    split
    · rename_i i w r b hk
      split
      · exact h
      · rename_i j hu
        split
        · have hold : r ∈ (s.nodes i).acked := hr _ hk rfl
          obtain ⟨-, rfl⟩ := conf_upstream (h.conf i) hu
          apply h.of_calls
          intro c hc
          rcases List.mem_append.1 hc with hc | hc
          · left
            rcases List.mem_or_eq_of_mem_set hc with hc | rfl
            · exact ⟨c, hc, rfl, rfl⟩
            · exact ⟨_, List.mem_of_getElem? hk, rfl, rfl⟩
          · right
            rw [List.mem_singleton.1 hc]
            exact fun _ => hold
        · exact h
    · exact h
  | ok k =>
    simp only [AckChain.next]
    split
    · rename_i hk
      split
      · exact h.set hk rfl rfl
      · exact h
    · exact h
  | retry k =>
    simp only [AckChain.next]
    split
    · rename_i hk
      exact h.set hk rfl rfl
    · exact h
  | leave k =>
    simp only [AckChain.next]
    split
    · rename_i hk
      split
      · exact h
      · exact h.set hk rfl rfl
    · exact h

/-- **Acks erase from the tail upwards.** On a stable chain, in every run of writes, commits and `WriteAck` calls in which
a handler forwards an ack only when its own node has acknowledged the request: what a node has acknowledged the next
one downstream has acknowledged. -/
theorem erased_downstream_first (n start : ℕ) (log : ReplayLog) (es : List AckEvent)
    (hm : Meets (AckChain.step n) ForwardsErased (AckChain.start n start log) es) :
    ∀ i, i + 1 < n → ∀ r ∈ ((run (AckChain.step n) (AckChain.start n start log) es).nodes i).acked,
      r ∈ ((run (AckChain.step n) (AckChain.start n start log) es).nodes (i + 1)).acked := by
  refine (run_inv_of_meets (AckChain.step n) ForwardsErased (ErasedInv n start log)
    (fun s e h hr => ?_) _ es ?_ hm).nodes
  · unfold AckChain.step
    split
    · exact h
    · exact AckChain.next_inv h e hr
  · refine ⟨fun _ => rfl, ?_, by simp [AckChain.start]⟩
    intro i _ r hr
    obtain ⟨a, b, c, d, acks, hidle⟩ := stable_idle n start log i
    simp only [AckChain.start, hidle, Node.idle, List.not_mem_nil] at hr

/-- a client's call goes all the way up -/
def ackedAll : List AckEvent :=
  downAndBack.map .chain ++ [.writeAck (request 1).clientRequestId, .ackLogEntry 0, .relay 0, .ackLogEntry 1, .leave 1,
    .ok 0]

theorem erased_downstream_first_two_nodes :
    ((request 1).clientRequestId ∈ ((run (AckChain.step 2) (AckChain.start 2 0 ReplayLog.empty) ackedAll).nodes 1).acked) ∧
      ((run (AckChain.step 2) (AckChain.start 2 0 ReplayLog.empty) ackedAll).calls.map AckCall.committed) =
        [true, true] := by
  have hm : Meets (AckChain.step 2) ForwardsErased (AckChain.start 2 0 ReplayLog.empty) ackedAll := by decide +kernel
  have hhead : (request 1).clientRequestId ∈
      ((run (AckChain.step 2) (AckChain.start 2 0 ReplayLog.empty) ackedAll).nodes 0).acked := by decide +kernel
  have htail := erased_downstream_first 2 0 ReplayLog.empty ackedAll hm 0 (by decide) _ hhead
  exact ⟨by simpa only [zero_add] using htail, by decide +kernel⟩

/-- the tail has passed the number to `Storage::commit` and not yet marked the entry when the client calls; the forwarded
call reaches the head after the commit -/
def overtakenAck : List AckEvent :=
  (downAndBack.take 23).map .chain ++ [.writeAck (request 1).clientRequestId, .ackLogEntry 0, .relay 0] ++
    (downAndBack.drop 23).map .chain ++ [.ackLogEntry 1]

/-- **The head forgets a request that the tail keeps.** -/
theorem erased_above_tail :
    ¬ ∀ r ∈ ((run (AckChain.step 2) (AckChain.start 2 0 ReplayLog.empty) overtakenAck).nodes 0).acked,
      r ∈ ((run (AckChain.step 2) (AckChain.start 2 0 ReplayLog.empty) overtakenAck).nodes 1).acked := by
  decide +kernel

end ChainedBlockStorage.Chain
