/-
The chain: nodes that call each other, and the steps of all of them interleaved.

An `Event` is a step of one thread, or one half of a call: sending the request (the handler appears at the callee) or
receiving the reply. A call can also fail at any time (`RwbAct.retry`, `AckAct.retry`) while its handler goes on, and a
request can be lost (`RelayAct.drop`).

`stable n start log` is a chain of `n` nodes in their roles, with equal counters and replay logs and empty queues; no
event changes a role or a link (`step_conf`).

A node is read through four views, so that a proof about one of them skips the steps of the others: `conf` (role and
links), `path` (what a write passes through), `intake` (the part of it that only `Write` changes) and `commits` (what a
commit passes through).
-/
import ChainedBlockStorage.Core.Run
import ChainedBlockStorage.Core.Positions
import ChainedBlockStorage.Chain.Node

namespace ChainedBlockStorage.Chain

open Tables Positions

/-! ## Views of a node -/

structure Conf where
  state : State
  upstream : Option ℕ
  downstream : Option ℕ
  headService : Bool
deriving DecidableEq

def Node.conf (n : Node) : Conf := ⟨n.state, n.upstream, n.downstream, n.headService⟩

structure Path where
  currentSeq : ℤ
  writeSeq : ℤ
  pendingQueue : PendingQueue
  rwb : Rwb
  written : List Entry
  relays : List RelayHandler
  adding : List WriteRequest
  pushing : List Entry
  numbered : List Entry

def Node.path (n : Node) : Path :=
  ⟨n.currentSeq, n.writeSeq, n.pendingQueue, n.rwb, n.written, n.relays, n.adding, n.pushing, n.numbered⟩

structure Intake where
  currentSeq : ℤ
  adding : List WriteRequest
  pushing : List Entry
  numbered : List Entry

def Node.intake (n : Node) : Intake := ⟨n.currentSeq, n.adding, n.pushing, n.numbered⟩

structure Commits where
  commitSeq : ℤ
  sentList : SentList
  acks : List AckThread

def Node.commits (n : Node) : Commits := ⟨n.commitSeq, n.sentList, n.acks⟩

section Frames

variable (n : Node)

theorem writeAct_conf (a : WriteAct) : (n.writeAct a).conf = n.conf := by
  cases a <;> simp only [Node.writeAct] <;> repeat' split
  all_goals rfl

theorem relayAct_conf (k : ℕ) (a : RelayAct) : (n.relayAct k a).conf = n.conf := by
  cases a <;> simp only [Node.relayAct] <;> repeat' split
  all_goals rfl

theorem rwbAct_conf (a : RwbAct) : (n.rwbAct a).conf = n.conf := by
  cases a <;> simp only [Node.rwbAct] <;> repeat' split
  all_goals rfl

theorem ackAct_conf (k : ℕ) (a : AckAct) : (n.ackAct k a).conf = n.conf := by
  simp only [Node.ackAct, Node.ackStart, Node.ackPop]
  repeat' split
  all_goals rfl

theorem act_conf (a : Act) : (n.act a).conf = n.conf := by
  unfold Node.act
  split
  · rfl
  · cases a with
    | write a => exact writeAct_conf n a
    | relay k a => exact relayAct_conf n k a
    | rwb a => exact rwbAct_conf n a
    | ack k a => exact ackAct_conf n k a
    | ackLogEntry r => rfl

theorem wire_conf (w : Wire) : (n.wire w).conf = n.conf := by
  cases w <;> simp only [Node.wire] <;> repeat' split
  all_goals rfl

/-- commits and acks do not touch the write path -/
theorem ackAct_path (k : ℕ) (a : AckAct) : (n.ackAct k a).path = n.path := by
  simp only [Node.ackAct, Node.ackStart, Node.ackPop]
  repeat' split
  all_goals rfl

theorem ackSent_path (k j m : ℕ) (n : Node) : (n.wire (.ackSent k j m)).path = n.path := by
  simp only [Node.wire]
  split <;> rfl

theorem ackArrives_path (seq : ℤ) (n : Node) : (n.wire (.ackArrives seq)).path = n.path := rfl

theorem ackOk_path (k : ℕ) (n : Node) : (n.wire (.ackOk k)).path = n.path := by
  simp only [Node.wire]
  split <;> rfl

theorem relayAct_intake (k : ℕ) (a : RelayAct) : (n.relayAct k a).intake = n.intake := by
  cases a <;> simp only [Node.relayAct] <;> repeat' split
  all_goals rfl

theorem rwbAct_intake (a : RwbAct) : (n.rwbAct a).intake = n.intake := by
  cases a <;> simp only [Node.rwbAct] <;> repeat' split
  all_goals rfl

theorem ackAct_intake (k : ℕ) (a : AckAct) : (n.ackAct k a).intake = n.intake := by
  have hp := ackAct_path n k a
  simp only [Node.path, Path.mk.injEq] at hp
  simp only [Node.intake, hp]

/-- only `Write` numbers -/
theorem act_intake (a : Act) (ha : ∀ b, a ≠ .write b) : (n.act a).intake = n.intake := by
  unfold Node.act
  split
  · rfl
  · cases a with
    | write b => exact absurd rfl (ha b)
    | relay k a => exact relayAct_intake n k a
    | rwb a => exact rwbAct_intake n a
    | ack k a => exact ackAct_intake n k a
    | ackLogEntry r => rfl

theorem wire_intake (w : Wire) : (n.wire w).intake = n.intake := by
  cases w <;> simp only [Node.wire] <;> repeat' split
  all_goals rfl

/-- an entry is numbered by `currentSeq++`, with the number it finds there -/
theorem act_numbered (a : Act) : (n.act a).numbered = n.numbered ∨
    ∃ k r, a = .write (.takeSeq k) ∧ n.adding[k]? = some r ∧
      (n.act a).numbered = n.numbered ++ [r.entry n.currentSeq] := by
  by_cases ha : ∃ b, a = .write b
  · obtain ⟨b, rfl⟩ := ha
    unfold Node.act
    split
    · exact Or.inl rfl
    cases b with
    | takeSeq k =>
      simp only [Node.writeAct]
      split
      · exact Or.inl rfl
      · rename_i r hk
        exact Or.inr ⟨k, r, rfl, hk, rfl⟩
    | addToLog r | pushEntry k =>
      left
      simp only [Node.writeAct]
      repeat' split
      all_goals rfl
  · exact Or.inl (congrArg Intake.numbered (act_intake n a fun b hb => ha ⟨b, hb⟩))

theorem wire_numbered (w : Wire) : (n.wire w).numbered = n.numbered := congrArg Intake.numbered (wire_intake n w)

/-- `Write` handlers away from the head have nothing to do -/
theorem writeAct_quiet {x : Node} (hh : x.headService = false) (ha : x.adding = []) (hp : x.pushing = [])
    (a : WriteAct) :
    x.writeAct a = x := by
  cases a <;> simp [Node.writeAct, hh, ha, hp]

theorem writeAct_relays (a : WriteAct) : (n.writeAct a).relays = n.relays := by
  cases a <;> simp only [Node.writeAct] <;> repeat' split
  all_goals rfl

theorem rwbAct_relays (a : RwbAct) : (n.rwbAct a).relays = n.relays := by
  cases a <;> simp only [Node.rwbAct] <;> repeat' split
  all_goals rfl

/-- a `RelayWrite` handler is at the point where its own steps left it -/
theorem act_relays (a : Act) (ha : ∀ k b, a ≠ .relay k b) : (n.act a).relays = n.relays := by
  unfold Node.act
  split
  · rfl
  · cases a with
    | write a => exact writeAct_relays n a
    | relay k b => exact absurd rfl (ha k b)
    | rwb a => exact rwbAct_relays n a
    | ack k a => exact congrArg Path.relays (ackAct_path n k a)
    | ackLogEntry r => rfl

/-- only `relay_write_background` writes -/
theorem act_progress (a : Act) (ha : ∀ b, a ≠ .rwb b) :
    (n.act a).rwb = n.rwb ∧ (n.act a).writeSeq = n.writeSeq ∧ (n.act a).written = n.written := by
  unfold Node.act
  split
  · exact ⟨rfl, rfl, rfl⟩
  · cases a with
    | write a =>
      cases a <;> simp only [Node.writeAct] <;> repeat' split
      all_goals exact ⟨rfl, rfl, rfl⟩
    | relay k a =>
      cases a <;> simp only [Node.relayAct] <;> repeat' split
      all_goals exact ⟨rfl, rfl, rfl⟩
    | rwb b => exact absurd rfl (ha b)
    | ack k a =>
      have hp := ackAct_path n k a
      exact ⟨congrArg Path.rwb hp, congrArg Path.writeSeq hp, congrArg Path.written hp⟩
    | ackLogEntry r => exact ⟨rfl, rfl, rfl⟩

theorem writeAct_commits (a : WriteAct) : (n.writeAct a).commits = n.commits := by
  cases a <;> simp only [Node.writeAct] <;> repeat' split
  all_goals rfl

theorem relayAct_commits (k : ℕ) (a : RelayAct) : (n.relayAct k a).commits = n.commits := by
  cases a <;> simp only [Node.relayAct] <;> repeat' split
  all_goals rfl

end Frames

/-! ## The steps of an ack thread -/

/-- what a step of ack thread `k` comes to -/
inductive AckStep (n : Node) (k : ℕ) : AckAct → Node → Prop
  /-- it waits, or the thread is somewhere else -/
  | stay {a : AckAct} (ha : a = .commit → ∀ b q e, n.acks[k]? ≠ some ⟨b, q, .popped e⟩) : AckStep n k a n
  | takeUp {q : ℤ} (hk : n.acks[k]? = some ⟨true, q, .start⟩) (hs : n.state = .tail ∨ n.state = .single) :
      AckStep n k .start (n.setAck k ⟨true, n.commitSeq + 1, .ready⟩)
  | retire {q : ℤ} (hk : n.acks[k]? = some ⟨true, q, .start⟩) : AckStep n k .start (n.setAck k ⟨true, q, .done⟩)
  | turn {q : ℤ} (hk : n.acks[k]? = some ⟨false, q, .start⟩) (hq : n.commitSeq + 1 = q) :
      AckStep n k .start (n.setAck k ⟨false, q, .ready⟩)
  | refuse {b : Bool} {q : ℤ} (hk : n.acks[k]? = some ⟨b, q, .ready⟩) (hnone : n.sentList.popEntry (toInt q) = none) :
      AckStep n k .pop (n.setAck k ⟨b, q, if b then .start else .failed⟩)
  | pop {b : Bool} {q : ℤ} {e : SentListEntry} {l : SentList} (hk : n.acks[k]? = some ⟨b, q, .ready⟩)
      (hsome : n.sentList.popEntry (toInt q) = some (e, l)) :
      AckStep n k .pop { n.setAck k ⟨b, q, .popped e⟩ with sentList := l }
  | commit {b : Bool} {q : ℤ} {e : SentListEntry} (hk : n.acks[k]? = some ⟨b, q, .popped e⟩) :
      AckStep n k .commit { n.setAck k ⟨b, q, .stored e⟩ with
        lastCommitted := q
        committed := n.committed ++ [(q, e.volumeOffset)] }
  | log {b : Bool} {q : ℤ} {e : SentListEntry} (hk : n.acks[k]? = some ⟨b, q, .stored e⟩) :
      AckStep n k .log { n.setAck k ⟨b, q, .logged⟩ with replayLog := (n.replayLog.commitLogEntry e.reqId).2 }
  | bump {b : Bool} {q : ℤ} (hk : n.acks[k]? = some ⟨b, q, .logged⟩) :
      AckStep n k .bump { n.setAck k ⟨b, q, .relaying⟩ with commitSeq := if b then n.commitSeq + 1 else toInt q }
  | leave {b : Bool} {q : ℤ} (hk : n.acks[k]? = some ⟨b, q, .relaying⟩)
      (hr : AckThread.relays ⟨b, q, .relaying⟩ n.state = false) :
      AckStep n k .leave (n.setAck k ⟨b, q, if b then .start else .done⟩)
  | retry {b : Bool} {q : ℤ} {j m : ℕ} (hk : n.acks[k]? = some ⟨b, q, .calling j m⟩) :
      AckStep n k .retry (n.setAck k ⟨b, q, .relaying⟩)

/-- **One step of an ack thread.** -/
theorem ackAct_step (n : Node) (k : ℕ) (a : AckAct) : AckStep n k a (n.ackAct k a) := by
  unfold Node.ackAct
  split
  · rename_i hk
    exact .stay fun _ b q e he => by rw [hk] at he; cases he
  rename_i t hk
  obtain ⟨b, q, p⟩ := t
  split
  all_goals rename_i hp
  · obtain rfl : p = .start := hp
    have hstay : AckStep n k .start n := .stay fun ha => by cases ha
    cases b with
    | true =>
      simp only [Node.ackStart, if_true]
      split_ifs with hs
      · exact .takeUp hk hs
      · exact .retire hk
    | false =>
      simp only [Node.ackStart, Bool.false_eq_true, if_false]
      split_ifs with hq
      · exact .turn hk hq
      · exact hstay
  · obtain rfl : p = .ready := hp
    unfold Node.ackPop
    split
    · rename_i hnone
      exact .refuse hk hnone
    · rename_i e l hsome
      exact .pop hk hsome
  · obtain rfl := hp
    exact .commit hk
  · obtain rfl := hp
    exact .log hk
  · obtain rfl : p = .logged := hp
    exact .bump hk
  · obtain rfl : p = .relaying := hp
    split_ifs with hr
    · exact .stay fun ha => by cases ha
    · exact .leave hk (by simpa using hr)
  · obtain rfl := hp
    exact .retry hk
  · rename_i hcommit _ _ _
    refine .stay ?_
    rintro rfl b' q' e he
    have ht := Option.some.inj (hk.symm.trans he)
    exact hcommit e rfl (congrArg AckThread.phase ht)

/-! ## Steps -/

/-- the nodes by number -/
abbrev Nodes := ℕ → Node

/-- a step of the chain -/
inductive Event where
  /-- a thread of node `i` -/
  | act (i : ℕ) (a : Act)
  /-- `relay_write_background` of node `i` calls `RelayWrite` -/
  | sendRelay (i : ℕ)
  /-- that call returns OK -/
  | relayOk (i : ℕ)
  /-- thread `k` of node `i` calls `RelayWriteAck` -/
  | sendAck (i k : ℕ)
  /-- that call returns OK -/
  | ackOk (i k : ℕ)

/-- the entry to relay and the node to call, when the loop condition holds -/
def Node.relayTarget (n : Node) : Option (Entry × ℕ) :=
  match n.rwb, n.downstream with
  | .relay e, some j => if n.state.relays then some (e, j) else none
  | _, _ => none

/-- the number to acknowledge and the node to call, when the loop condition holds -/
def Node.ackTarget (n : Node) (k : ℕ) : Option (ℤ × ℕ) :=
  match n.acks[k]?, n.upstream with
  | some ⟨background, seq, .relaying⟩, some j =>
    if n.rwb.isDead then none
    else if AckThread.relays ⟨background, seq, .relaying⟩ n.state then some (seq, j) else none
  | _, _ => none

/-- handler `k` of this node has answered OK -/
def Node.relayAnswered (n : Node) (k : ℕ) : Bool := n.relays[k]?.any fun h => h.phase.ok

/-- handler `m` of this node has answered OK -/
def Node.ackAnswered (n : Node) (m : ℕ) : Bool :=
  n.acks[m]?.any fun t => match t.phase with
    | .done => true
    | _ => false

def Nodes.wire (s : Nodes) (i : ℕ) (w : Wire) : Nodes := Function.update s i ((s i).wire w)

def step (s : Nodes) : Event → Nodes
  | .act i a => Function.update s i ((s i).act a)
  | .sendRelay i =>
    match (s i).relayTarget with
    | none => s
    | some (e, j) =>
      if (s j).rwb.isDead then s
      else Nodes.wire (Nodes.wire s i (.relaySent j (s j).relays.length)) j (.relayArrives (relayRequest e))
  | .relayOk i =>
    match (s i).rwb with
    | .calling _ j k => if (s j).relayAnswered k then Nodes.wire s i .relayOk else s
    | _ => s
  | .sendAck i k =>
    match (s i).ackTarget k with
    | none => s
    | some (seq, j) =>
      if (s j).rwb.isDead then s
      else Nodes.wire (Nodes.wire s i (.ackSent k j (s j).acks.length)) j (.ackArrives seq)
  | .ackOk i k =>
    match (s i).acks[k]? with
    | some ⟨_, _, .calling j m⟩ =>
      if (s i).rwb.isDead then s
      else if (s j).ackAnswered m then Nodes.wire s i (.ackOk k) else s
    | _ => s

/-! ### What an exchange does -/

theorem relayTarget_eq_some {n : Node} {e : Entry} {j : ℕ} (h : n.relayTarget = some (e, j)) :
    n.rwb = .relay e ∧ n.downstream = some j ∧ n.state.relays = true := by
  unfold Node.relayTarget at h
  split at h
  · rename_i hr hd
    split_ifs at h with hs
    obtain ⟨rfl, rfl⟩ := Prod.mk.inj (Option.some.inj h)
    exact ⟨hr, hd, hs⟩
  · cases h

theorem ackTarget_eq_some {n : Node} {k j : ℕ} {seq : ℤ} (h : n.ackTarget k = some (seq, j)) :
    ∃ b, n.acks[k]? = some ⟨b, seq, .relaying⟩ ∧ n.upstream = some j ∧ n.rwb.isDead = false ∧
      AckThread.relays ⟨b, seq, .relaying⟩ n.state = true := by
  unfold Node.ackTarget at h
  split at h
  · rename_i b q j' hk hu
    split_ifs at h with hd hs
    obtain ⟨rfl, rfl⟩ := Prod.mk.inj (Option.some.inj h)
    exact ⟨b, hk, hu, by simpa using hd, hs⟩
  · cases h

theorem step_sendRelay (s : Nodes) (i : ℕ) :
    step s (.sendRelay i) = s ∨ ∃ e j, (s i).relayTarget = some (e, j) ∧ step s (.sendRelay i) =
      Nodes.wire (Nodes.wire s i (.relaySent j (s j).relays.length)) j (.relayArrives (relayRequest e)) := by
  simp only [step]
  split
  · exact Or.inl rfl
  · rename_i e j h
    split_ifs
    · exact Or.inl rfl
    · exact Or.inr ⟨e, j, h, rfl⟩

theorem step_relayOk (s : Nodes) (i : ℕ) :
    step s (.relayOk i) = s ∨ ∃ e j k, (s i).rwb = .calling e j k ∧ (s j).relayAnswered k = true ∧
      step s (.relayOk i) = Nodes.wire s i .relayOk := by
  simp only [step]
  split
  · rename_i e j k h
    split_ifs with ha
    · exact Or.inr ⟨e, j, k, h, ha, rfl⟩
    · exact Or.inl rfl
  · exact Or.inl rfl

theorem step_sendAck (s : Nodes) (i k : ℕ) :
    step s (.sendAck i k) = s ∨ ∃ seq j, (s i).ackTarget k = some (seq, j) ∧ step s (.sendAck i k) =
      Nodes.wire (Nodes.wire s i (.ackSent k j (s j).acks.length)) j (.ackArrives seq) := by
  simp only [step]
  split
  · exact Or.inl rfl
  · rename_i seq j h
    split_ifs
    · exact Or.inl rfl
    · exact Or.inr ⟨seq, j, h, rfl⟩

theorem step_ackOk (s : Nodes) (i k : ℕ) :
    step s (.ackOk i k) = s ∨ step s (.ackOk i k) = Nodes.wire s i (.ackOk k) := by
  simp only [step]
  split
  · split_ifs
    · exact Or.inl rfl
    · exact Or.inr rfl
    · exact Or.inl rfl
  · exact Or.inl rfl

/-! ### What every node event keeps -/

/-- **A property that survives every act and every wire of a node survives every event.** -/
theorem step_node (P : Node → Node → Prop) (hrefl : ∀ n, P n n) (htrans : ∀ a b c, P a b → P b c → P a c)
    (hact : ∀ n a, P n (n.act a)) (hwire : ∀ n w, P n (n.wire w)) (s : Nodes) (e : Event) (j : ℕ) :
    P (s j) (step s e j) := by
  have hw : ∀ (s : Nodes) i w, P (s j) (Nodes.wire s i w j) := by
    intro s i w
    by_cases h : j = i
    · subst h; simpa [Nodes.wire] using hwire _ _
    · simpa [Nodes.wire, h] using hrefl _
  cases e with
  | act i a =>
    by_cases h : j = i
    · subst h; simpa [step] using hact _ _
    · simpa [step, h] using hrefl _
  | sendRelay i =>
    rcases step_sendRelay s i with h | ⟨e, m, -, h⟩ <;> rw [h]
    · exact hrefl _
    · exact htrans _ _ _ (hw _ _ _) (hw _ _ _)
  | relayOk i =>
    rcases step_relayOk s i with h | ⟨e, m, k, -, -, h⟩ <;> rw [h]
    · exact hrefl _
    · exact hw _ _ _
  | sendAck i k =>
    rcases step_sendAck s i k with h | ⟨seq, m, -, h⟩ <;> rw [h]
    · exact hrefl _
    · exact htrans _ _ _ (hw _ _ _) (hw _ _ _)
  | ackOk i k =>
    rcases step_ackOk s i k with h | h <;> rw [h]
    · exact hrefl _
    · exact hw _ _ _

/-- **Invariant rule for one node.** An act is looked at in the node's own state; a request that arrives comes from a
node that relays or acknowledges. -/
theorem step_node_calls (P : Node → Prop) (s : Nodes) (e : Event) (j : ℕ) (h : P (s j))
    (hact : ∀ a, e = .act j a → P ((s j).act a))
    (hwire : ∀ n w, (∀ q, w = .relayArrives q → ∃ i x, (s i).relayTarget = some (x, j) ∧ q = relayRequest x) →
      (∀ seq, w = .ackArrives seq → ∃ i k, (s i).ackTarget k = some (seq, j)) → P n → P (n.wire w)) :
    P (step s e j) := by
  have hw : ∀ (s' : Nodes) i w, (i = j → ∀ q, w = .relayArrives q → ∃ i x, (s i).relayTarget = some (x, j) ∧
      q = relayRequest x) → (i = j → ∀ seq, w = .ackArrives seq → ∃ i k, (s i).ackTarget k = some (seq, j)) → P (s' j) →
      P (Nodes.wire s' i w j) := by
    intro s' i w h1 h2 hs
    by_cases h : i = j
    · subst h; simpa [Nodes.wire] using hwire _ w (h1 rfl) (h2 rfl) hs
    · simpa [Nodes.wire, Ne.symm h] using hs
  cases e with
  | act i a =>
    by_cases hji : j = i
    · subst hji; simpa [step] using hact a rfl
    · simpa [step, hji] using h
  | sendRelay i =>
    rcases step_sendRelay s i with hs | ⟨x, m, ht, hs⟩ <;> rw [hs]
    · exact h
    · refine hw _ _ _ (fun hm q hq => ⟨i, x, hm ▸ ht, ?_⟩) (by simp) (hw _ _ _ (by simp) (by simp) h)
      cases hq
      rfl
  | relayOk i =>
    rcases step_relayOk s i with hs | ⟨x, m, k, -, -, hs⟩ <;> rw [hs]
    · exact h
    · exact hw _ _ _ (by simp) (by simp) h
  | sendAck i k =>
    rcases step_sendAck s i k with hs | ⟨seq, m, ht, hs⟩ <;> rw [hs]
    · exact h
    · refine hw _ _ _ (by simp) (fun hm q hq => ⟨i, k, ?_⟩) (hw _ _ _ (by simp) (by simp) h)
      cases hq
      exact hm ▸ ht
  | ackOk i k =>
    rcases step_ackOk s i k with hs | hs <;> rw [hs]
    · exact h
    · exact hw _ _ _ (by simp) (by simp) h

/-- the same where every request may arrive -/
theorem step_node_inv (P : Node → Prop) (s : Nodes) (e : Event) (j : ℕ) (h : P (s j))
    (hact : ∀ a, e = .act j a → P ((s j).act a)) (hwire : ∀ n w, P n → P (n.wire w)) : P (step s e j) :=
  step_node_calls P s e j h hact fun n w _ _ => hwire n w

/-- no event changes a role or a link -/
theorem step_conf (s : Nodes) (e : Event) (j : ℕ) : (step s e j).conf = (s j).conf :=
  step_node (fun a b => b.conf = a.conf) (fun _ => rfl) (fun _ _ _ h h' => h'.trans h) act_conf wire_conf s e j

/-! ## Stable chains -/

/-- the role of node `i` in a chain of `n` nodes -/
def roleOf (n i : ℕ) : State :=
  if n = 1 then .single else if i = 0 then .head else if i + 1 = n then .tail else .middle

/-- a node whose counters stand at `start` and whose queues are empty -/
def Node.idle (state : State) (upstream downstream : Option ℕ) (headService : Bool) (start : ℤ) (replayLog : ReplayLog)
    (acks : List AckThread) : Node where
  state := state
  upstream := upstream
  downstream := downstream
  headService := headService
  currentSeq := start + 1
  writeSeq := start
  commitSeq := start
  replayLog := replayLog
  pendingQueue := Sorted.empty
  sentList := Sorted.empty
  lastCommitted := start
  written := []
  committed := []
  rwb := .poll
  adding := []
  pushing := []
  relays := []
  acks := acks
  numbered := []
  queued := []
  accepted := []
  answered := []
  acked := []

/-- a chain of `n` nodes; the last one runs `relay_write_ack_background` -/
def stable (n start : ℕ) (replayLog : ReplayLog) : Nodes := fun i =>
  if i < n then
    Node.idle (roleOf n i) (if i = 0 then none else some (i - 1)) (if i + 1 = n then none else some (i + 1)) (i = 0)
      start replayLog (if i + 1 = n then [⟨true, 0, .start⟩] else [])
  else Node.idle .initializing none none false start replayLog []

theorem stable_idle (n start : ℕ) (log : ReplayLog) (i : ℕ) :
    ∃ a b c d acks, stable n start log i = Node.idle a b c d start log acks := by
  unfold stable
  split
  · exact ⟨_, _, _, _, _, rfl⟩
  · exact ⟨_, _, _, _, _, rfl⟩

section Roles

variable {n start i j : ℕ} {log : ReplayLog} {x : Node}

theorem stable_conf (hi : i < n) (log : ReplayLog) : (stable n start log i).conf =
    ⟨roleOf n i, if i = 0 then none else some (i - 1), if i + 1 = n then none else some (i + 1), i = 0⟩ := by
  unfold stable
  rw [if_pos hi]
  rfl

theorem stable_conf_outside (hi : ¬ i < n) (log : ReplayLog) :
    (stable n start log i).conf = ⟨.initializing, none, none, false⟩ := by
  unfold stable
  rw [if_neg hi]
  rfl

theorem conf_downstream (h : x.conf = (stable n start log i).conf) (hd : x.downstream = some j) :
    i + 1 < n ∧ j = i + 1 := by
  have hx : x.conf.downstream = some j := hd
  by_cases hi : i < n
  · rw [h, stable_conf hi, ite_eq_iff] at hx
    obtain ⟨-, hx⟩ | ⟨hn, hx⟩ := hx
    · cases hx
    · exact ⟨by omega, (Option.some.inj hx).symm⟩
  · rw [h, stable_conf_outside hi] at hx
    cases hx

theorem conf_upstream (h : x.conf = (stable n start log i).conf) (hu : x.upstream = some j) : i < n ∧ i = j + 1 := by
  have hx : x.conf.upstream = some j := hu
  by_cases hi : i < n
  · rw [h, stable_conf hi, ite_eq_iff] at hx
    obtain ⟨-, hx⟩ | ⟨h0, hx⟩ := hx
    · cases hx
    · exact ⟨hi, by have := Option.some.inj hx; omega⟩
  · rw [h, stable_conf_outside hi] at hx
    cases hx

theorem conf_headService (h : x.conf = (stable n start log i).conf) (hi : i ≠ 0) : x.headService = false := by
  have hx : x.headService = (stable n start log i).conf.headService := congrArg Conf.headService h
  by_cases hin : i < n
  · simpa [stable_conf hin, hi] using hx
  · simpa [stable_conf_outside hin] using hx

theorem conf_state (h : x.conf = (stable n start log i).conf) (hi : i < n) : x.state = roleOf n i := by
  rw [stable_conf hi] at h
  exact congrArg Conf.state h

/-- handlers appear only by a call -/
theorem act_relays_length (x : Node) (a : Act) : (x.act a).relays.length = x.relays.length := by
  by_cases ha : ∃ k b, a = .relay k b
  · obtain ⟨k, b, rfl⟩ := ha
    unfold Node.act
    split
    · rfl
    · cases b <;> simp only [Node.relayAct] <;> repeat' split
      all_goals simp
  · rw [act_relays x a fun k b hb => ha ⟨k, b, hb⟩]

theorem wire_relays (x : Node) (w : Wire) (hw : ∀ q, w ≠ .relayArrives q) : (x.wire w).relays = x.relays := by
  cases w with
  | relayArrives q => exact absurd rfl (hw q)
  | relaySent _ _ | relayOk | ackSent _ _ _ | ackArrives _ | ackOk _ =>
    simp only [Node.wire]
    repeat' split
    all_goals rfl

/-- nobody relays to the head -/
theorem relays_head_step {s : Nodes} (hconf : ∀ i, (s i).conf = (stable n start log i).conf) (h : (s 0).relays = [])
    (e : Event) : (step s e 0).relays = [] := by
  have hw : ∀ (s : Nodes) i w, (∀ q, w ≠ .relayArrives q) → (s 0).relays = [] → (Nodes.wire s i w 0).relays = [] := by
    intro s i w hq hs
    by_cases hi : 0 = i
    · subst hi; simpa [Nodes.wire, wire_relays _ w hq] using hs
    · simpa [Nodes.wire, hi] using hs
  cases e with
  | act i a =>
    by_cases hi : 0 = i
    · subst hi
      simp only [step, Function.update_self]
      have := act_relays_length (s 0) a
      rw [h] at this
      exact List.length_eq_zero_iff.1 this
    · simpa [step, hi] using h
  | sendRelay i =>
    rcases step_sendRelay s i with hs | ⟨e, j, ht, hs⟩ <;> rw [hs]
    · exact h
    · obtain ⟨-, hd, -⟩ := relayTarget_eq_some ht
      obtain ⟨-, rfl⟩ := conf_downstream (hconf i) hd
      have h1 := hw s i (.relaySent (i + 1) (s (i + 1)).relays.length) (by simp) h
      unfold Nodes.wire at h1 ⊢
      rwa [Function.update_of_ne (by omega)]
  | relayOk i =>
    rcases step_relayOk s i with hs | ⟨e, j, k, -, -, hs⟩ <;> rw [hs]
    · exact h
    · exact hw _ _ _ (by simp) h
  | sendAck i k =>
    rcases step_sendAck s i k with hs | ⟨seq, j, -, hs⟩ <;> rw [hs]
    · exact h
    · exact hw _ _ _ (by simp) (hw _ _ _ (by simp) h)
  | ackOk i k =>
    rcases step_ackOk s i k with hs | hs <;> rw [hs]
    · exact h
    · exact hw _ _ _ (by simp) h

theorem relays_roleOf (hi : i + 1 < n) : (roleOf n i).relays = true := by
  unfold roleOf
  split_ifs
  · omega
  · rfl
  · omega
  · rfl

end Roles

end ChainedBlockStorage.Chain
