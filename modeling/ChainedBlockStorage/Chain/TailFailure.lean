/-
The tail fails, and the server before it takes its place, as often as there is one.

A server crashes at any moment, several ones before the master has noticed any; the master then calls `ChangeMode` on
the last one that is left. Calls of a server that has crashed fail, and nobody waits for its own.

- `inStep_shorten`: `ChangeMode` on the last server makes a stable chain of what is left of a longer one.
- `remains_step`: so what is left runs like a stable chain in which the crashed servers have stopped.
- `tail_failures_keep_writes`: all that a crashed server has written, and all that any server has called committed, is
  written or in hand at every server that is left.
-/
import ChainedBlockStorage.Chain.Cluster
import ChainedBlockStorage.Chain.TailReads

namespace ChainedBlockStorage.Chain

open Run Tables Positions
open LogChain (moves_grow)

/-! ## The machine -/

structure FailingTail where
  nodes : Nodes
  /-- the nodes below this number are left -/
  live : ℕ
  /-- the length of the chain after the last `ChangeMode` -/
  length : ℕ

inductive TailEvent where
  /-- a step of the chain -/
  | node (e : Event)
  /-- the last node that is left crashes, unless it is the only one -/
  | crash
  /-- the master calls `ChangeMode` on the last node that is left -/
  | changeMode

/-- the state that the master asks for -/
def newTail (live : ℕ) : State := if live = 1 then .single else .tail

def FailingTail.step (c : FailingTail) : TailEvent → FailingTail
  | .node e => { c with nodes := Chain.step c.nodes e }
  | .crash =>
    let last := c.live - 1
    if 1 < c.live then
      { c with nodes := Function.update c.nodes last { c.nodes last with rwb := .dead }, live := last }
    else c
  | .changeMode =>
    let last := c.live - 1
    if c.live < c.length then
      { c with
        nodes := Function.update c.nodes last ((c.nodes last).changeMode (newTail c.live) none none)
        length := c.live }
    else c

def FailingTail.start (n start : ℕ) : FailingTail := ⟨stable n start ReplayLog.empty, n, n⟩

/-- the rules of the chain -/
def TailRules (c : FailingTail) : TailEvent → Prop
  | .node e => Rules c.nodes e
  | .crash | .changeMode => True

instance (c : FailingTail) : ∀ e, Decidable (TailRules c e)
  | .node e => inferInstanceAs (Decidable (Rules c.nodes e))
  | .crash | .changeMode => isTrue trivial

/-! ## What a node has taken -/

/-- what has been written, and what is in hand and will be written next -/
def Node.taken (n : Node) : List Entry := n.written ++ n.rwb.unwritten.toList

section Taken

variable {n start : ℕ} {log : ReplayLog} {s : Nodes}

/-- the entry in hand, if any, is written -/
theorem PathInv.top_of_written {N : List Entry} {x : Node} (h : PathInv start N x.path) (hu : x.rwb.unwritten = none) :
    x.path.top = x.path.writtenSeq := by
  have hhand : ∀ e, x.rwb.inHand = some e → e ∈ N ∧ e.seqNum = x.writeSeq + 1 := h.hand
  unfold Path.top Path.writtenSeq
  simp only [Node.path]
  cases hr : x.rwb with
  | bump e =>
    rw [hr] at hhand
    exact (hhand e rfl).2
  | relay e | calling e j k | write e =>
    rw [hr] at hu
    cases hu
  | poll | spin | pop | send e | dead => rfl

theorem writtenSeq_of_unwritten {x : Node} {e : Entry} (hu : x.rwb.unwritten = some e) :
    x.path.writtenSeq = x.writeSeq := by
  unfold Path.writtenSeq
  simp only [Node.path]
  cases hr : x.rwb with
  | bump e' =>
    rw [hr] at hu
    cases hu
  | poll | spin | pop | relay _ | calling _ _ _ | write _ | send _ | dead => rfl

/-- in hand and written is what the abstract chain has taken -/
theorem InStep.taken_eq (h : InStep n start log s) {i : ℕ} (hi : i < n) :
    (s i).taken = (s 0).numbered.take ((s.view n start).taken i) := by
  have hnode := h.order.path.node i hi
  have hview : (s.view n start).taken i = ((s i).path.top - start).toNat := if_pos hi
  have hwritten : (s i).written = (s 0).numbered.take ((s i).path.writtenSeq - start).toNat := hnode.written
  have hlower : (start : ℤ) ≤ (s i).writeSeq := hnode.lower
  rw [hview, Node.taken, hwritten]
  cases hu : (s i).rwb.unwritten with
  | none =>
    rw [hnode.top_of_written hu, Option.toList_none, List.append_nil]
  | some e =>
    obtain ⟨hmem, hseq⟩ := hnode.hand e (Rwb.inHand_of_unwritten hu)
    have hseq : e.seqNum = (s i).writeSeq + 1 := hseq
    have hbelow := writtenSeq_of_unwritten hu
    have htop : (s i).path.top = (s i).writeSeq + 1 := by
      have hhand : (s i).path.rwb.inHand = some e := Rwb.inHand_of_unwritten hu
      rw [Path.top, hhand]
      exact hseq
    have hget : (s 0).numbered[((s i).writeSeq - start).toNat]? = some e :=
      h.order.path.head.numbering.getElem? hmem (by omega)
    have hnext : ((s i).writeSeq + 1 - start).toNat = ((s i).writeSeq - start).toNat + 1 := by omega
    rw [hbelow, htop, hnext, List.take_add_one, hget]

theorem InStep.taken_prefix (h : InStep n start log s) {i : ℕ} (hi : i < n) : (s i).taken <+: (s 0).numbered := by
  rw [h.taken_eq hi]
  exact List.take_prefix _ _

/-- what a node has written, every node before it has taken -/
theorem InStep.written_prefix (h : InStep n start log s) {i j : ℕ} (hji : j ≤ i) (hi : i < n) :
    (s i).written <+: (s j).taken := by
  have hj : j < n := lt_of_le_of_lt hji hi
  rw [(h.stored_eq hi).1, h.taken_eq hj]
  refine List.take_prefix_take_left ?_
  calc (s.view n start).applied i ≤ (s.view n start).taken i := h.ordered.applied i hi
    _ ≤ (s.view n start).taken j := h.ordered.taken_anti hji hi

/-- what a node has committed, every node has taken -/
theorem InStep.committed_prefix (h : InStep n start log s) {i j : ℕ} (hi : i < n) (hj : j < n) :
    (s i).written.take (s i).committed.length <+: (s j).taken := by
  have hc : (s.view n start).committed i = (s i).committed.length := if_pos hi
  rw [(h.stored_eq hi).1, h.taken_eq hj, List.take_take, ← hc]
  refine List.take_prefix_take_left ?_
  exact (Nat.min_le_left _ _).trans (h.ordered.committed_le_taken hi hj)

/-- nothing that is taken is given back -/
theorem InStep.taken_grows (hn : 0 < n) (hs : start < 2 ^ 31) (h : InStep n start log s) {e : Event} (hr : Rules s e)
    {i : ℕ} (hi : i < n) : (s i).taken <+: (step s e i).taken := by
  have h' := inStep_step hn hs h e hr
  have hgrow := moves_grow (Relation.ReflTransGen.single (step_refines hn hs h e hr))
  rw [h.taken_eq hi, h'.taken_eq hi]
  exact (hgrow.log.take _).trans (List.take_prefix_take_left (hgrow.taken i))

end Taken

/-! ## A shorter chain -/

/-- a node without role and links -/
def Node.gone (n : Node) : Node :=
  { n with state := .initializing, upstream := none, downstream := none, headService := false }

/-- the first `live` nodes with the last of them as the new tail, and the others out of the chain -/
def shorten (live : ℕ) (s : Nodes) : Nodes := fun i =>
  if i + 1 = live then (s i).changeMode (newTail live) none none else if i < live then s i else (s i).gone

section Shorten

variable {n live start : ℕ} {log : ReplayLog} {s : Nodes}

theorem gone_of_conf {x : Node} (h : x.conf = ⟨.initializing, none, none, false⟩) : x.gone = x := by
  cases x
  simp only [Node.conf, Conf.mk.injEq] at h
  obtain ⟨rfl, rfl, rfl, rfl⟩ := h
  rfl

/-- `ChangeMode` changes neither the replay log nor what is committed -/
theorem changeMode_answers (x : Node) (new : State) (prev next : Option ℕ) :
    (x.changeMode new prev next).replayLog = x.replayLog ∧ (x.changeMode new prev next).acked = x.acked ∧
      (x.changeMode new prev next).committed = x.committed := by
  unfold Node.changeMode
  dsimp only
  split
  · exact ⟨rfl, rfl, rfl⟩
  · cases new <;> dsimp only <;> (try split) <;> exact ⟨rfl, rfl, rfl⟩

theorem shorten_path (live : ℕ) (s : Nodes) (i : ℕ) : (shorten live s i).path = (s i).path := by
  unfold shorten
  split_ifs
  · exact (changeMode_same _ _ _ _).1
  · rfl
  · rfl

/-- a new background thread at the new tail, and otherwise no change of the commits -/
theorem shorten_commits (live : ℕ) (s : Nodes) (i : ℕ) :
    (shorten live s i).commits = (s i).commits ∨
      i + 1 = live ∧
        (shorten live s i).commits = ({ s i with acks := (s i).acks ++ [⟨true, 0, .start⟩] } : Node).commits := by
  unfold shorten
  split_ifs with h
  · exact (changeMode_commits _ _ _ _).imp_right fun hc => ⟨h, hc⟩
  · exact Or.inl rfl
  · exact Or.inl rfl

theorem shorten_committed (live : ℕ) (s : Nodes) (i : ℕ) : (shorten live s i).committed = (s i).committed := by
  unfold shorten
  split_ifs
  · exact (changeMode_answers _ _ _ _).2.2
  · rfl
  · rfl

/-- the roles and links are those of the shorter chain -/
theorem shorten_conf (hconf : ∀ i, (s i).conf = (stable n start log i).conf) (hlt : live < n) (i : ℕ) :
    (shorten live s i).conf = (stable live start log i).conf := by
  by_cases hi : i < live
  swap
  · rw [stable_conf_outside hi, shorten, if_neg (by omega), if_neg hi]
    rfl
  have hc := hconf i
  rw [stable_conf (hi.trans hlt)] at hc
  rw [stable_conf hi]
  have hn : n ≠ 1 := by omega
  by_cases hlast : i + 1 = live
  · rw [shorten, if_pos hlast]
    have hstate : (s i).state = roleOf n i := congrArg Conf.state hc
    have hup : (s i).upstream = if i = 0 then none else some (i - 1) := congrArg Conf.upstream hc
    have hhead : (s i).headService = decide (i = 0) := congrArg Conf.headService hc
    have hinner : i + 1 ≠ n := by omega
    by_cases h1 : live = 1
    · obtain rfl : i = 0 := by omega
      have hs : (s 0).state = .head := by rw [hstate, roleOf, if_neg hn, if_pos rfl]
      simp [Node.changeMode, Node.conf, newTail, h1, hs, hhead, roleOf]
    · have hi0 : i ≠ 0 := by omega
      have hs : (s i).state = .middle := by rw [hstate, roleOf, if_neg hn, if_neg hi0, if_neg hinner]
      simp [Node.changeMode, Node.conf, newTail, h1, hs, hhead, hup, roleOf, hi0, hlast]
  · rw [shorten, if_neg hlast, if_pos hi, hc]
    have hinner : i + 1 ≠ n := by omega
    have h1 : live ≠ 1 := by omega
    simp [roleOf, hn, h1, hinner, hlast]

/-- a thread without a number -/
theorem CommitInv.launchTail {start : ℤ} {x : Node} (h : CommitInv start x) :
    CommitInv start { x with acks := x.acks ++ [⟨true, 0, .start⟩] } := by
  refine ⟨h.lower, h.upper, h.sent, ?_, ?_, ?_, ?_, ?_⟩
  · intro k t hk hi
    rcases getElem?_of_concat hk with hk | ⟨-, rfl⟩
    · exact h.started k t hk hi
    · cases hi
  · intro k t hk hr
    rcases getElem?_of_concat hk with hk | ⟨-, rfl⟩
    · exact h.ready k t hk hr
    · cases hr
  · intro k t hk hh
    rcases getElem?_of_concat hk with hk | ⟨-, rfl⟩
    · exact h.held k t hk hh
    · cases hh
  · intro k m t u hk hm hh hh'
    rcases getElem?_of_concat hk with hk | ⟨-, rfl⟩
    · rcases getElem?_of_concat hm with hm | ⟨-, rfl⟩
      · exact h.one k m t u hk hm hh hh'
      · cases hh'
    · cases hh
  · intro k t hk hp
    rcases getElem?_of_concat hk with hk | ⟨-, rfl⟩
    · exact h.past k t hk hp
    · cases hp

theorem sentTop_of_path {x y : Node} (h : x.path = y.path) : x.sentTop = y.sentTop := by
  have hr : x.rwb = y.rwb := congrArg Path.rwb h
  have hw : x.writeSeq = y.writeSeq := congrArg Path.writeSeq h
  unfold Node.sentTop
  rw [hr, hw]

/-- **A stable chain without its last servers is a stable chain**, once the new tail knows -/
theorem inStep_shorten (h : InStep n start log s) (hlt : live < n) :
    InStep live start log (shorten live s) := by
  obtain ⟨⟨hp, hback, hbound⟩, hstored⟩ := h
  have hpath := shorten_path live s
  have hnum : (shorten live s 0).numbered = (s 0).numbered := congrArg Path.numbered (hpath 0)
  refine ⟨⟨⟨shorten_conf hp.conf hlt, ?_, fun i hi => ?_, fun i hi => ?_, fun i hi => ?_⟩,
    ⟨fun i hi => ?_, fun i hi => ?_⟩, ?_⟩, fun i hi => ?_⟩
  · rw [hpath]
    exact hp.head
  · have hadd : (shorten live s i).adding = (s i).adding := congrArg Path.adding (hpath i)
    have hpush : (shorten live s i).pushing = (s i).pushing := congrArg Path.pushing (hpath i)
    rw [hadd, hpush]
    exact hp.quiet i hi
  · rw [hnum, hpath]
    exact hp.node i (hi.trans hlt)
  · rw [hpath, hpath]
    exact hp.link i (hi.trans hlt)
  · have htop := (sentTop_of_path (hpath i)).ge
    rcases shorten_commits live s i with hc | ⟨-, hc⟩
    · exact (hback.node i (hi.trans hlt)).of_commits_eq hc htop
    · exact (hback.node i (hi.trans hlt)).launchTail.of_commits_eq hc htop
  · -- the upstream node of a link is not the new tail
    obtain ⟨hcommit, hhandler⟩ := hback.link i (hi.trans hlt)
    have hu : (shorten live s i).commits = (s i).commits :=
      (shorten_commits live s i).resolve_right fun hr => by omega
    have hd : (shorten live s (i + 1)).commitSeq = (s (i + 1)).commitSeq := by
      rcases shorten_commits live s (i + 1) with hc | ⟨-, hc⟩ <;> exact congrArg Commits.commitSeq hc
    have huc : (shorten live s i).commitSeq = (s i).commitSeq := congrArg Commits.commitSeq hu
    have hua : (shorten live s i).acks = (s i).acks := congrArg Commits.acks hu
    exact ⟨by rw [huc, hd]; exact hcommit, by rw [hua, hd]; exact hhandler⟩
  · unfold Bounded at hbound ⊢
    rwa [hnum]
  · obtain ⟨hunsent, hcommits⟩ := hstored i (hi.trans hlt)
    have hr : (shorten live s i).rwb = (s i).rwb := congrArg Path.rwb (hpath i)
    have hw : (shorten live s i).written = (s i).written := congrArg Path.written (hpath i)
    have hsent : (shorten live s i).sent = (s i).sent := by
      unfold Node.sent
      rw [hr, hw]
    refine ⟨by rw [hr, hw]; exact hunsent, ?_⟩
    rcases shorten_commits live s i with hc | ⟨-, hc⟩
    · exact hcommits.of_eq hc (shorten_committed live s i) fun w hw => hsent ▸ hw
    · exact (hcommits.addAck _ rfl).of_eq hc (shorten_committed live s i) fun w hw => hsent ▸ hw

end Shorten

/-! ## The nodes that are left -/

/-- a call that is made or answered, between nodes that run -/
inductive Exchange (s : Nodes) : Event → Nodes → Prop where
  | none (e : Event) : Exchange s e s
  | sendRelay {i j : ℕ} {x : Entry} (ht : (s i).relayTarget = some (x, j)) (hj : (s j).rwb.isDead = false) :
      Exchange s (.sendRelay i)
        (Nodes.wire (s.wire i (.relaySent j (s j).relays.length)) j (.relayArrives (relayRequest x)))
  | relayOk {i j k : ℕ} {x : Entry} (hr : (s i).rwb = .calling x j k) (ha : (s j).relayAnswered k = true) :
      Exchange s (.relayOk i) (s.wire i .relayOk)
  | sendAck {i j k : ℕ} {seq : ℤ} (ht : (s i).ackTarget k = some (seq, j)) (hj : (s j).rwb.isDead = false) :
      Exchange s (.sendAck i k) (Nodes.wire (s.wire i (.ackSent k j (s j).acks.length)) j (.ackArrives seq))
  | ackOk {i j k m : ℕ} {b : Bool} {seq : ℤ} (hk : (s i).acks[k]? = some ⟨b, seq, .calling j m⟩)
      (hi : (s i).rwb.isDead = false) (ha : (s j).ackAnswered m = true) :
      Exchange s (.ackOk i k) (s.wire i (.ackOk k))

theorem step_exchange (s : Nodes) (e : Event) (he : ∀ i a, e ≠ .act i a) : Exchange s e (step s e) := by
  cases e with
  | act i a => exact absurd rfl (he i a)
  | sendRelay i =>
    simp only [step]
    split
    · exact .none _
    next x j ht =>
      split_ifs with hj
      · exact .none _
      · exact .sendRelay ht (by simpa using hj)
  | relayOk i =>
    simp only [step]
    split
    · next x j k hr =>
      split_ifs with ha
      · exact .relayOk hr ha
      · exact .none _
    · exact .none _
  | sendAck i k =>
    simp only [step]
    split
    · exact .none _
    next seq j ht =>
      split_ifs with hj
      · exact .none _
      · exact .sendAck ht (by simpa using hj)
  | ackOk i k =>
    simp only [step]
    split
    · next b seq j m hk =>
      split_ifs with hi ha
      · exact .none _
      · exact .ackOk hk (by simpa using hi) ha
      · exact .none _
    · exact .none _

/-- a node that has crashed does nothing, and nothing reaches it -/
theorem step_crashed {s : Nodes} {i : ℕ} (hd : (s i).rwb = .dead) (e : Event) : step s e i = s i := by
  have hdead : (s i).rwb.isDead = true := by rw [hd]; rfl
  have hne : ∀ j, (s j).rwb.isDead = false → i ≠ j := by
    rintro j hj rfl
    rw [hdead] at hj
    cases hj
  by_cases he : ∃ j a, e = .act j a
  · obtain ⟨j, a, rfl⟩ := he
    by_cases hj : i = j
    · subst hj
      simp [step, Node.act, hdead]
    · simp [step, hj]
  have hstep := step_exchange s e fun j a h => he ⟨j, a, h⟩
  generalize step s e = s' at hstep ⊢
  cases hstep with
  | none => rfl
  | sendRelay ht hj =>
    have hi := hne _ (by rw [(relayTarget_eq_some ht).1]; rfl)
    simp [Nodes.wire, hi, hne _ hj]
  | relayOk hr ha =>
    have hi := hne _ (by rw [hr]; rfl)
    simp [Nodes.wire, hi]
  | sendAck ht hj =>
    obtain ⟨_, -, -, halive, -⟩ := ackTarget_eq_some ht
    simp [Nodes.wire, hne _ halive, hne _ hj]
  | ackOk hk hi ha => simp [Nodes.wire, hne _ hi]

/-- the nodes from `live` to `n` have crashed; the others are as in `g`, where nothing happens to those -/
structure Agree (live n : ℕ) (s g : Nodes) : Prop where
  same : ∀ i, i < live ∨ n ≤ i → s i = g i
  dead : ∀ i, live ≤ i → i < n → (s i).rwb = .dead
  relays : ∀ i, (s i).relays = (g i).relays
  acks : ∀ i, (s i).acks = (g i).acks

section Agree

variable {live n len start : ℕ} {log : ReplayLog} {s g : Nodes}

/-- a node that is left changes -/
theorem Agree.update (h : Agree live n s g) {i : ℕ} (hi : i < live ∨ n ≤ i) (f : Node → Node) :
    Agree live n (Function.update s i (f (s i))) (Function.update g i (f (g i))) := by
  rw [h.same i hi]
  refine ⟨fun j hj => ?_, fun j hj hjn => ?_, fun j => ?_, fun j => ?_⟩
  · by_cases hji : j = i
    · rw [hji, Function.update_self, Function.update_self]
    · rw [Function.update_of_ne hji, Function.update_of_ne hji, h.same j hj]
  · rw [Function.update_of_ne (by omega)]
    exact h.dead j hj hjn
  · by_cases hji : j = i
    · rw [hji, Function.update_self, Function.update_self]
    · rw [Function.update_of_ne hji, Function.update_of_ne hji, h.relays j]
  · by_cases hji : j = i
    · rw [hji, Function.update_self, Function.update_self]
    · rw [Function.update_of_ne hji, Function.update_of_ne hji, h.acks j]

theorem Agree.wire (h : Agree live n s g) {i : ℕ} (hi : i < live ∨ n ≤ i) (w : Wire) :
    Agree live n (s.wire i w) (g.wire i w) := h.update hi fun x => x.wire w

/-- a node that runs is left -/
theorem Agree.left (h : Agree live n s g) {i : ℕ} (hi : (s i).rwb.isDead = false) : i < live ∨ n ≤ i := by
  by_contra hno
  rw [h.dead i (by omega) (by omega)] at hi
  cases hi

/-- **Simulation.** An event is one of the stable chain as well, or nothing -/
theorem Agree.step (h : Agree live n s g) (e : Event) (hr : Rules s e) :
    Agree live n (Chain.step s e) g ∨ Rules g e ∧ Agree live n (Chain.step s e) (Chain.step g e) := by
  by_cases he : ∃ i a, e = .act i a
  · obtain ⟨i, a, rfl⟩ := he
    cases hd : (s i).rwb.isDead with
    | true =>
      left
      have hstep : Chain.step s (.act i a) = s := by simp [Chain.step, Node.act, hd]
      rwa [hstep]
    | false =>
      right
      have hi := h.left hd
      refine ⟨⟨?_, trivial⟩, h.update hi fun x => x.act a⟩
      have hnumber := hr.1
      cases a with
      | write b =>
        cases b with
        | takeSeq k =>
          have hlt : (s i).currentSeq < 2 ^ 31 := hnumber
          rwa [h.same i hi] at hlt
        | addToLog _ | pushEntry _ => trivial
      | relay _ _ | rwb _ | ack _ _ | ackLogEntry _ => trivial
  have hstep := step_exchange s e fun i a hia => he ⟨i, a, hia⟩
  generalize Chain.step s e = s' at hstep ⊢
  cases hstep with
  | none => exact Or.inl h
  | @sendRelay i j x ht hj =>
    right
    have hi := h.left (i := i) (by rw [(relayTarget_eq_some ht).1]; rfl)
    have hretry := hr.2
    have hjl := h.left hj
    rw [h.same j hjl] at hj
    have htg := ht
    rw [h.same i hi] at htg
    have hg : Chain.step g (.sendRelay i) =
        Nodes.wire (g.wire i (.relaySent j (g j).relays.length)) j (.relayArrives (relayRequest x)) := by
      simp [Chain.step, htg, hj]
    rw [hg, h.relays j]
    refine ⟨⟨trivial, fun t ht' y hy => ?_⟩, (h.wire hi _).wire hjl _⟩
    obtain rfl := Option.some.inj (htg.symm.trans ht')
    exact hretry _ ht y (by rw [h.relays]; exact hy)
  | @relayOk i j k x hx ha =>
    right
    have hi := h.left (i := i) (by rw [hx]; rfl)
    rw [h.same i hi] at hx
    have ha : (g j).relayAnswered k = true := by
      unfold Node.relayAnswered at ha ⊢
      rwa [← h.relays j]
    have hg : Chain.step g (.relayOk i) = g.wire i .relayOk := by simp [Chain.step, hx, ha]
    rw [hg]
    exact ⟨⟨trivial, trivial⟩, h.wire hi _⟩
  | @sendAck i j k seq ht hj =>
    right
    obtain ⟨_, -, -, halive, -⟩ := ackTarget_eq_some ht
    have hi := h.left halive
    have hjl := h.left hj
    rw [h.same j hjl] at hj
    rw [h.same i hi] at ht
    have hg : Chain.step g (.sendAck i k) =
        Nodes.wire (g.wire i (.ackSent k j (g j).acks.length)) j (.ackArrives seq) := by simp [Chain.step, ht, hj]
    rw [hg, h.acks j]
    exact ⟨⟨trivial, trivial⟩, (h.wire hi _).wire hjl _⟩
  | @ackOk i j k m b seq hk hd ha =>
    right
    have hi := h.left hd
    rw [h.same i hi] at hk hd
    have ha : (g j).ackAnswered m = true := by
      unfold Node.ackAnswered at ha ⊢
      rwa [← h.acks j]
    have hg : Chain.step g (.ackOk i k) = g.wire i (.ackOk k) := by simp [Chain.step, hk, hd, ha]
    rw [hg]
    exact ⟨⟨trivial, trivial⟩, h.wire hi _⟩

end Agree

/-! ## Runs -/

/-- what is left runs like the stable chain `g`, and nothing that a crashed node has written is lost -/
structure Remains (n start : ℕ) (c : FailingTail) (g : Nodes) : Prop where
  pos : 0 < c.live
  live_le : c.live ≤ c.length
  length_le : c.length ≤ n
  chain : InStep c.length start ReplayLog.empty g
  agree : Agree c.live n c.nodes g
  written : ∀ i, c.live ≤ i → i < n → ∀ j < c.live, (c.nodes i).written <+: (c.nodes j).taken
  vouched : ∀ i < n, Vouched (c.nodes i)

theorem Vouched.of_eq {x y : Node} (h : Vouched x) (hlog : y.replayLog = x.replayLog) (hacked : y.acked = x.acked)
    (hmarking : ∀ r, y.marking r → x.marking r) (hwritten : y.written = x.written)
    (hcommitted : y.committed = x.committed) : Vouched y := by
  intro r hr
  rw [hwritten, hcommitted]
  unfold Node.marked at hr
  rw [hlog, hacked] at hr
  exact h r (hr.imp_right (Or.imp_right (hmarking r)))

section Runs

variable {n start : ℕ} {c : FailingTail} {g : Nodes}

/-- a step of the chain -/
theorem Remains.node (hs : start < 2 ^ 31) (h : Remains n start c g) (e : Event) (hr : Rules c.nodes e) :
    ∃ g', Remains n start (c.step (.node e)) g' := by
  have hlen : 0 < c.length := lt_of_lt_of_le h.pos h.live_le
  have hkeep : ∀ i, c.live ≤ i → i < n → Chain.step c.nodes e i = c.nodes i :=
    fun i hi hin => step_crashed (h.agree.dead i hi hin) e
  have hsame : ∀ j < c.live, c.nodes j = g j := fun j hj => h.agree.same j (Or.inl hj)
  -- what the other chain does is seen at the nodes that are left
  have hdone : ∀ g', InStep c.length start ReplayLog.empty g' → Agree c.live n (Chain.step c.nodes e) g' →
      (∀ j < c.live, (g j).taken <+: (g' j).taken) → (∀ i < c.live, Vouched (g' i)) →
      Remains n start (c.step (.node e)) g' := by
    intro g' hg' hagree htaken hv
    refine ⟨h.pos, h.live_le, h.length_le, hg', hagree, fun i hi hin j hj => ?_, fun i hi => ?_⟩
    · show (Chain.step c.nodes e i).written <+: (Chain.step c.nodes e j).taken
      rw [hkeep i hi hin, hagree.same j (Or.inl hj)]
      have hold := h.written i hi hin j hj
      rw [hsame j hj] at hold
      exact hold.trans (htaken j hj)
    · show Vouched (Chain.step c.nodes e i)
      by_cases hil : i < c.live
      · rw [hagree.same i (Or.inl hil)]
        exact hv i hil
      · rw [hkeep i (not_lt.1 hil) hi]
        exact h.vouched i hi
  have hvg : ∀ i < c.live, Vouched (g i) := fun i hi =>
    hsame i hi ▸ h.vouched i (lt_of_lt_of_le hi (h.live_le.trans h.length_le))
  rcases h.agree.step e hr with hagree | ⟨hrg, hagree⟩
  · exact ⟨g, hdone g h.chain hagree (fun j _ => List.prefix_refl _) hvg⟩
  · refine ⟨Chain.step g e, hdone _ (inStep_step hlen hs h.chain e hrg) hagree (fun j hj => ?_) fun i hi => ?_⟩
    · exact h.chain.taken_grows hlen hs hrg (lt_of_lt_of_le hj h.live_le)
    · exact step_vouched h.chain (lt_of_lt_of_le hi h.live_le) (hvg i hi) e

/-- the last node crashes -/
theorem Remains.crash (h : Remains n start c g) : Remains n start (c.step .crash) g := by
  simp only [FailingTail.step]
  split_ifs with h1
  swap
  · exact h
  have hlast : c.live - 1 < c.length := by have := h.live_le; omega
  have hln := h.length_le
  have hll := h.live_le
  have hne : ∀ j, j ≠ c.live - 1 → Function.update c.nodes (c.live - 1) { c.nodes (c.live - 1) with rwb := .dead } j =
      c.nodes j := fun j hj => Function.update_of_ne hj _ _
  have hg : c.nodes (c.live - 1) = g (c.live - 1) := h.agree.same _ (Or.inl (by omega))
  refine ⟨by simp only; omega, by simp only; omega, hln, h.chain, ⟨fun i hi => ?_, fun i hi hin => ?_, fun i => ?_,
    fun i => ?_⟩, fun i hi hin j hj => ?_, fun i hi => ?_⟩
  · simp only at hi ⊢
    rw [hne i (by omega)]
    exact h.agree.same i (by omega)
  · simp only at hi ⊢
    by_cases hil : i = c.live - 1
    · rw [hil, Function.update_self]
    · rw [hne i hil]
      exact h.agree.dead i (by omega) hin
  · by_cases hil : i = c.live - 1
    · simp only [hil, Function.update_self]
      exact h.agree.relays _
    · simp only [hne i hil]
      exact h.agree.relays i
  · by_cases hil : i = c.live - 1
    · simp only [hil, Function.update_self]
      exact h.agree.acks _
    · simp only [hne i hil]
      exact h.agree.acks i
  · simp only at hi hj ⊢
    rw [hne j (by omega)]
    by_cases hil : i = c.live - 1
    -- what the tail has written, the nodes before it have taken
    · rw [hil, Function.update_self, h.agree.same j (Or.inl (by omega))]
      show (c.nodes (c.live - 1)).written <+: _
      rw [hg]
      exact h.chain.written_prefix (by omega) hlast
    · rw [hne i hil]
      exact h.written i (by omega) hin j (by omega)
  · by_cases hil : i = c.live - 1
    · simp only [hil, Function.update_self]
      exact (h.vouched (c.live - 1) (by omega)).of_eq rfl rfl (fun _ hr => hr) rfl rfl
    · simp only [hne i hil]
      exact h.vouched i hi

/-- the last node that is left becomes the tail -/
theorem Remains.changeMode (h : Remains n start c g) : ∃ g', Remains n start (c.step .changeMode) g' := by
  simp only [FailingTail.step]
  split_ifs with h1
  swap
  · exact ⟨g, h⟩
  have hpos := h.pos
  have hln := h.length_le
  have hne : ∀ j, j ≠ c.live - 1 →
      Function.update c.nodes (c.live - 1) ((c.nodes (c.live - 1)).changeMode (newTail c.live) none none) j =
        c.nodes j := fun j hj => Function.update_of_ne hj _ _
  have hg : c.nodes (c.live - 1) = g (c.live - 1) := h.agree.same _ (Or.inl (by omega))
  have hshort : shorten c.live g (c.live - 1) = (g (c.live - 1)).changeMode (newTail c.live) none none := by
    rw [shorten, if_pos (by omega)]
  have hother : ∀ i, i ≠ c.live - 1 → shorten c.live g i = if i < c.live then g i else (g i).gone := fun i hi => by
    rw [shorten, if_neg (by omega)]
  have htaken : ∀ x : Node, (x.changeMode (newTail c.live) none none).taken = x.taken := by
    intro x
    have hp := (changeMode_same x (newTail c.live) none none).1
    have hr : (x.changeMode (newTail c.live) none none).rwb = x.rwb := congrArg Path.rwb hp
    have hw : (x.changeMode (newTail c.live) none none).written = x.written := congrArg Path.written hp
    unfold Node.taken
    rw [hr, hw]
  refine ⟨shorten c.live g, hpos, le_refl _, h.live_le.trans hln, inStep_shorten h.chain h1,
    ⟨fun i hi => ?_, fun i hi hin => ?_, fun i => ?_, fun i => ?_⟩, fun i hi hin j hj => ?_, fun i hi => ?_⟩
  · by_cases hil : i = c.live - 1
    · simp only [hil, Function.update_self]
      rw [hshort, hg]
    · simp only [hne i hil]
      rw [hother i hil, h.agree.same i hi]
      split_ifs with hlt
      · rfl
      -- a node that the chain never had
      · refine (gone_of_conf ?_).symm
        rw [h.chain.order.path.conf i]
        exact stable_conf_outside (by simp only at hi; omega) _
  · simp only at hi ⊢
    rw [hne i (by omega)]
    exact h.agree.dead i hi hin
  · by_cases hil : i = c.live - 1
    · simp only [hil, Function.update_self]
      rw [hshort, hg]
    · simp only [hne i hil]
      rw [hother i hil, h.agree.relays i]
      split_ifs <;> rfl
  · by_cases hil : i = c.live - 1
    · simp only [hil, Function.update_self]
      rw [hshort, hg]
    · simp only [hne i hil]
      rw [hother i hil, h.agree.acks i]
      split_ifs <;> rfl
  · simp only at hi hj ⊢
    rw [hne i (by omega)]
    have hold := h.written i hi hin j hj
    by_cases hjl : j = c.live - 1
    · rw [hjl] at hold ⊢
      rw [Function.update_self, htaken]
      exact hold
    · rw [hne j hjl]
      exact hold
  · by_cases hil : i = c.live - 1
    · simp only [hil, Function.update_self]
      obtain ⟨hlog, hacked, hcommitted⟩ := changeMode_answers (c.nodes (c.live - 1)) (newTail c.live) none none
      have hw : ((c.nodes (c.live - 1)).changeMode (newTail c.live) none none).written =
          (c.nodes (c.live - 1)).written := congrArg Path.written (changeMode_same _ _ _ _).1
      refine (h.vouched (c.live - 1) (by omega)).of_eq hlog hacked (fun r hr => ?_) hw hcommitted
      rcases changeMode_commits (c.nodes (c.live - 1)) (newTail c.live) none none with hc | hc
      · have hacks : ((c.nodes (c.live - 1)).changeMode (newTail c.live) none none).acks = _ := congrArg Commits.acks hc
        unfold Node.marking at hr ⊢
        rwa [hacks] at hr
      · exact (marking_append (congrArg Commits.acks hc) (fun _ => rfl) r).1 hr
    · simp only [hne i hil]
      exact h.vouched i hi

theorem remains_step (hs : start < 2 ^ 31) (h : ∃ g, Remains n start c g) (e : TailEvent) (hr : TailRules c e) :
    ∃ g, Remains n start (c.step e) g := by
  obtain ⟨g, h⟩ := h
  cases e with
  | node e => exact h.node hs e hr
  | crash => exact ⟨g, h.crash⟩
  | changeMode => exact h.changeMode

theorem remains_start (hn : 0 < n) (hs : start < 2 ^ 31) :
    Remains n start (FailingTail.start n start) (stable n start ReplayLog.empty) where
  pos := hn
  live_le := le_refl n
  length_le := le_refl n
  chain := inStep_run hn hs ReplayLog.empty [] trivial
  agree := ⟨fun _ _ => rfl, fun _ hi hin => absurd hin (not_lt.2 hi), fun _ => rfl, fun _ => rfl⟩
  written := fun _ hi hin => absurd hin (not_lt.2 hi)
  vouched := fun _ hi => run_vouched hn hs [] trivial hi

end Runs

/-- **Failures of the tail lose nothing.** In every run of a chain in which tails crash, at any moment and until one
server is left, and which keeps the rules of the chain: the servers that are left have taken a prefix of what the head
has numbered. All that a crashed server has written is among what each of them has taken, that is, written or in hand.
So is every request that `WriteAck` has called committed, or would, at any server, crashed or not. -/
theorem tail_failures_keep_writes (n start : ℕ) (hn : 0 < n) (hs : start < 2 ^ 31) (es : List TailEvent)
    (hm : Meets FailingTail.step TailRules (FailingTail.start n start) es) :
    let c := run FailingTail.step (FailingTail.start n start) es
    0 < c.live ∧ (∀ j < c.live, (c.nodes j).taken <+: (c.nodes 0).numbered) ∧
      (∀ i, c.live ≤ i → i < n → ∀ j < c.live, (c.nodes i).written <+: (c.nodes j).taken) ∧
      ∀ i < n, ∀ r, (c.nodes i).writeAck r = true ∨ r ∈ (c.nodes i).acked →
        ∀ j < c.live, ∃ x ∈ (c.nodes j).taken, x.reqId = r := by
  intro c
  obtain ⟨g, h⟩ : ∃ g, Remains n start c g :=
    run_inv_of_meets _ _ (fun c => ∃ g, Remains n start c g) (fun c e h hr => remains_step hs h e hr) _ es
      ⟨_, remains_start hn hs⟩ hm
  have hsame : ∀ j < c.live, c.nodes j = g j := fun j hj => h.agree.same j (Or.inl hj)
  refine ⟨h.pos, fun j hj => ?_, h.written, fun i hi r hr j hj => ?_⟩
  · rw [hsame j hj, hsame 0 h.pos]
    exact h.chain.taken_prefix (lt_of_lt_of_le hj h.live_le)
  · obtain ⟨x, hx, hxr⟩ := h.vouched i hi r (hr.imp (writeAck_iff _ r).1 Or.inl)
    refine ⟨x, ?_, hxr⟩
    by_cases hil : i < c.live
    · rw [hsame i hil] at hx
      rw [hsame j hj]
      exact (h.chain.committed_prefix (lt_of_lt_of_le hil h.live_le) (lt_of_lt_of_le hj h.live_le)).subset hx
    · exact (h.written i (not_lt.1 hil) hi j hj).subset (List.mem_of_mem_take hx)

/-- two nodes: the tail writes, commits and acknowledges an entry that the head has in hand, and crashes; the head goes
on as a single server -/
def tailCrashes : List TailEvent :=
  List.flatten [(downAndBack.take 26).map .node,
    [.node (.act 1 (.ackLogEntry (request 1).clientRequestId)), .crash, .changeMode],
    [.rwb .write, .rwb .bump, .rwb .send, .ack 1 .start, .ack 1 .pop, .ack 1 .commit].map fun a => .node (.act 0 a)]

theorem tail_failures_keep_writes_two_nodes :
    let c := run FailingTail.step (FailingTail.start 2 0) tailCrashes
    c.live = 1 ∧ (c.nodes 0).state = .single ∧ (request 1).clientRequestId ∈ (c.nodes 1).acked ∧
      (c.nodes 0).written = [(request 1).entry 1] ∧ (c.nodes 0).committed = [(1, (request 1).offset.toInt64)] ∧
      ∃ x ∈ (c.nodes 0).taken, x.reqId = (request 1).clientRequestId := by
  have hm : Meets FailingTail.step TailRules (FailingTail.start 2 0) tailCrashes := by decide +kernel
  have hlive : (run FailingTail.step (FailingTail.start 2 0) tailCrashes).live = 1 := by decide +kernel
  have hacked : (request 1).clientRequestId ∈
      ((run FailingTail.step (FailingTail.start 2 0) tailCrashes).nodes 1).acked := by decide +kernel
  obtain ⟨-, -, -, hkept⟩ := tail_failures_keep_writes 2 0 (by decide) (by decide) tailCrashes hm
  refine ⟨hlive, by decide +kernel, hacked, by decide +kernel, by decide +kernel, ?_⟩
  exact hkept 1 (by decide) _ (Or.inr hacked) 0 (by rw [hlive]; decide)

end ChainedBlockStorage.Chain
