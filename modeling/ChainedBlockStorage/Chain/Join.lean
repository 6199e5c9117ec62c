/-
A node joins: `ChangeMode` on the old tail, interleaved with every thread of the chain.

Node u is the tail, or a single server, and node u + 1 is the new node. `ChangeMode` sends what is committed
(`Restore`), then the replay log (`UpdateReplayLog`), and then changes the state of node u, whose threads go on all
the while. Only then does `relay_write_background` begin to relay, with the next turn of its loop. When `Register`
returns, the new node becomes the tail.

- `held_is_relayed`: after the join every number above what the new node was restored to is relayed and accepted, in
  every run in which no such number has left the relay loop when the state changes, and each client's requests are later
  than what the copied log has of it.
- `sent_is_lost_queued_is_refused`: a number in the sent list is never relayed, and one in the queue is
  refused by the copied log.
-/
import ChainedBlockStorage.Chain.FirstDelivery

namespace ChainedBlockStorage.Chain

open Run Tables

/-! ## The machine -/

/-- where `ChangeMode` on node u is -/
inductive JoinPhase where
  | idle
  /-- `downstream` is the new node; `get_modified_offsets` is next -/
  | linked
  /-- the entries of the `RestoreRequest` -/
  | modified (entries : List (ℤ × Int64))
  | restored
  /-- the `UpdateReplayLogRequest` is filled -/
  | copied
  /-- `server::state = new_state` is next -/
  | updated
  | switched
  /-- `Register` has returned at the new node -/
  | registered
deriving DecidableEq

def JoinPhase.joined : JoinPhase → Bool
  | .switched | .registered => true
  | _ => false

/-- `Restore` has returned -/
def JoinPhase.hasRestored : JoinPhase → Bool
  | .idle | .linked | .modified _ => false
  | _ => true

structure Joining where
  nodes : Nodes
  phase : JoinPhase
  /-- the log in the `UpdateReplayLogRequest` -/
  copied : ReplayLog
  /-- history: `writeSeq` of the new node after `Restore` -/
  restored : ℤ

/-- the steps of `ChangeMode` -/
inductive ChangeStep where
  | link
  | getModifiedOffsets
  | restore
  | getRelayLogContent
  | updateReplayLog
  | setState

inductive JoinEvent where
  /-- a step of the chain -/
  | node (e : Event)
  | change (c : ChangeStep)
  /-- the new node becomes the tail -/
  | register

/-- the last commit to each offset -/
def lastCommits : List (ℤ × Int64) → List (ℤ × Int64)
  | [] => []
  | x :: l => if x.2 ∈ l.map Prod.snd then lastCommits l else x :: lastCommits l

/-- `get_modified_offsets`: what is committed with a number above `seqNum` -/
def Node.getModifiedOffsets (n : Node) (seqNum : ℤ) : List (ℤ × Int64) :=
  (lastCommits n.committed).filter fun x => seqNum < x.1

/-- `Restore`: `maxseq` starts at `get_sequence_number` -/
def Node.restore (n : Node) (entries : List (ℤ × Int64)) : Node :=
  let maxseq := entries.foldl (fun m x => if x.1 > m then x.1 else m) n.lastCommitted
  { n with
    committed := n.committed ++ entries
    lastCommitted := entries.foldl (fun _ x => x.1) n.lastCommitted
    writeSeq := maxseq
    commitSeq := maxseq
    currentSeq := maxseq + 1 }

def Joining.changeMode (u : ℕ) (f : Joining) : ChangeStep → Joining
  | .link =>
    match f.phase with
    | .idle =>
      { f with
        nodes := Function.update f.nodes u { f.nodes u with downstream := some (u + 1) }
        phase := .linked }
    | _ => f
  | .getModifiedOffsets =>
    match f.phase with
    -- `last_seq_num` is the `commitSeq` of the new node
    | .linked => { f with phase := .modified ((f.nodes u).getModifiedOffsets (f.nodes (u + 1)).commitSeq) }
    | _ => f
  | .restore =>
    match f.phase with
    | .modified entries =>
      { f with
        nodes := Function.update f.nodes (u + 1) ((f.nodes (u + 1)).restore entries)
        phase := .restored
        restored := ((f.nodes (u + 1)).restore entries).writeSeq }
    | _ => f
  | .getRelayLogContent =>
    match f.phase with
    | .restored => { f with phase := .copied, copied := (f.nodes u).replayLog }
    | _ => f
  | .updateReplayLog =>
    match f.phase with
    | .copied =>
      { f with
        nodes := Function.update f.nodes (u + 1) { f.nodes (u + 1) with replayLog := f.copied }
        phase := .updated }
    | _ => f
  | .setState =>
    match f.phase with
    | .updated =>
      { f with
        nodes := Function.update f.nodes u
          { f.nodes u with state := if (f.nodes u).state = .single then .head else .middle }
        phase := .switched }
    | _ => f

def Joining.register (u : ℕ) (f : Joining) : Joining :=
  match f.phase with
  | .switched =>
    { f with
      nodes := Function.update f.nodes (u + 1) { f.nodes (u + 1) with
        state := .tail
        upstream := some u
        acks := (f.nodes (u + 1)).acks ++ [⟨true, 0, .start⟩] }
      phase := .registered }
  | _ => f

def Joining.step (u : ℕ) (f : Joining) : JoinEvent → Joining
  | .node e => { f with nodes := Chain.step f.nodes e }
  | .change c => if (f.nodes u).rwb.isDead then f else f.changeMode u c
  | .register => f.register u

/-- nodes 0 to u are a stable chain with the commits `base` in their volumes, and the new node has commits
up to `own` -/
def Joining.start (u start : ℕ) (log : ReplayLog) (base : List (ℤ × Int64)) (own : ℤ) : Joining where
  nodes := fun i =>
    if i = u + 1 then Node.idle .initializing none none false own ReplayLog.empty []
    else { stable (u + 1) start log i with committed := base }
  phase := .idle
  copied := ReplayLog.empty
  restored := own

/-- the numbers that are queued, in hand or written -/
def Node.holds (n : Node) : List ℤ :=
  n.pendingQueue.toList.map Entry.seqNum ++ n.rwb.held.toList.map Entry.seqNum ++ n.written.map Entry.seqNum

/-- the numbers that `relay_write_background` has still to relay -/
def Node.toRelay (n : Node) : List ℤ :=
  n.pendingQueue.toList.map Entry.seqNum ++ n.rwb.relaying.toList.map Entry.seqNum

/-- after the join, what node u holds above `writeSeq` of the new node is still to be relayed or queued there, and the
first relay of a number is accepted -/
def CarriedOver (u : ℕ) (f : Joining) : Prop := f.phase.joined = true →
  (∀ k ∈ (f.nodes u).holds, (f.nodes (u + 1)).writeSeq < k →
    k ∈ (f.nodes u).toRelay ∨ ∃ h ∈ (f.nodes (u + 1)).relays, h.req.seqNum = k ∧ h.phase.queued = true) ∧
  ∀ h ∈ (f.nodes (u + 1)).relays, h.first = true → f.restored < h.req.seqNum → h.phase.queued = true

instance (u : ℕ) (f : Joining) : Decidable (CarriedOver u f) := inferInstanceAs (Decidable (_ → _ ∧ _))

/-- the timestamps of a client grow with the numbers of its requests -/
def InPlace (l : List Entry) (x : Entry) : Prop := ∀ y ∈ l, y.reqId.identifier = x.reqId.identifier →
  (y.seqNum < x.seqNum → y.reqId.timestamp < x.reqId.timestamp) ∧
  (x.seqNum < y.seqNum → x.reqId.timestamp < y.reqId.timestamp)

/-- when the state changes, nothing above `restored` has left the relay loop, and what is to be relayed is later than
the copied log; what node u queues is in order, and later than the copied log after the change; and no push at the new
node meets a number that is equal as an int -/
def Caught (u : ℕ) (f : Joining) : JoinEvent → Prop
  | .node e =>
    (∀ x ∈ f.nodes.pushes u e, InPlace (f.nodes u).queued x ∧
      (f.phase.joined = true → f.restored < x.seqNum → f.copied.Later x.reqId)) ∧ NoClash f.nodes (u + 1) e
  | .change .setState => f.phase = .updated → (f.nodes u).writeSeq ≤ f.restored ∧
      (∀ e ∈ (f.nodes u).rwb.unrecorded.toList, e.seqNum ≤ f.restored) ∧
      ∀ x ∈ (f.nodes u).pendingQueue.toList ++ (f.nodes u).rwb.relaying.toList, f.restored < x.seqNum →
        f.copied.Later x.reqId
  | _ => True

instance (l : List Entry) (x : Entry) : Decidable (InPlace l x) :=
  inferInstanceAs (Decidable (∀ y ∈ l, _ → _ ∧ _))

instance (u : ℕ) (f : Joining) : ∀ e, Decidable (Caught u f e)
  | .node _ => inferInstanceAs (Decidable (_ ∧ _))
  | .change .setState => inferInstanceAs (Decidable (_ → _))
  | .change .link | .change .getModifiedOffsets | .change .restore | .change .getRelayLogContent
  | .change .updateReplayLog | .register => isTrue trivial

/-! ## The old tail -/

/-- what is in the queue and in hand was queued, and what is written has been counted or is in hand -/
structure Passed (n : Node) : Prop where
  queue : ∀ x ∈ n.pendingQueue, x ∈ n.queued
  hand : ∀ e, n.rwb.inHand = some e → e ∈ n.queued
  written : ∀ x ∈ n.written, x.seqNum ≤ n.writeSeq ∨ ∃ e, n.rwb = .bump e ∧ e.seqNum = x.seqNum

section Passed

variable {n : Node}

/-- the thread keeps its entry, or has none -/
theorem Passed.moveOn (h : Passed n) (r : Rwb) (hr : ∀ e, r.inHand = some e → n.rwb.inHand = some e)
    (hb : ∀ e, n.rwb ≠ .bump e) (l : SentList) : Passed { n with rwb := r, sentList := l } := by
  refine ⟨h.queue, fun e he => h.hand e (hr e he), fun x hx => ?_⟩
  rcases h.written x hx with hw | ⟨e, he, -⟩
  · exact Or.inl hw
  · exact absurd he (hb e)

theorem Passed.rwbAct (h : Passed n) (hwait : Waiting n) (a : RwbAct) : Passed (n.rwbAct a) := by
  cases a with
  | poll | spin | leave | retry | send =>
    simp only [Node.rwbAct]
    repeat' split
    all_goals first
      | exact h
      | exact h.moveOn _ (by simp_all [Rwb.inHand]) (by simp_all) _
  | pop =>
    simp only [Node.rwbAct]
    split
    · rename_i e q hr hp
      obtain ⟨he, -, hmem⟩ := PendingQueue.popEntry_eq_some hp
      refine ⟨fun x hx => h.queue x ((hmem x).1 hx).1, ?_, fun x hx => ?_⟩
      · rintro x ⟨⟩
        exact h.queue e he
      · rcases h.written x hx with hw | ⟨y, hy, -⟩
        · exact Or.inl hw
        · simp [hr] at hy
    · exact h
  | write =>
    simp only [Node.rwbAct]
    split
    · rename_i e hr
      refine ⟨h.queue, fun x hx => h.hand x (by simpa [hr, Rwb.inHand] using hx), fun x hx => ?_⟩
      rcases List.mem_append.1 hx with hx | hx
      · rcases h.written x hx with hw | ⟨y, hy, -⟩
        · exact Or.inl hw
        · simp [hr] at hy
      · rw [List.mem_singleton.1 hx]
        exact Or.inr ⟨e, rfl, rfl⟩
    · exact h
  | bump =>
    simp only [Node.rwbAct]
    split
    · rename_i e hr
      have hhand : e.seqNum ≤ n.writeSeq + 1 := by
        rcases hwait.hand e (by simp [hr, Rwb.inHand]) with he | ⟨he, -⟩ <;> omega
      refine ⟨h.queue, by simp [Rwb.inHand], fun x hx => Or.inl ?_⟩
      rcases h.written x hx with hw | ⟨y, hy, hyx⟩
      · exact hw.trans (Int.le_add_one le_rfl)
      · obtain rfl : e = y := by simpa [hr] using hy
        exact hyx ▸ hhand
    · exact h

theorem Passed.act (h : Passed n) (hwait : Waiting n) (a : Act) : Passed (n.act a) := by
  by_cases ha : ∃ b, a = .rwb b
  · obtain ⟨b, rfl⟩ := ha
    unfold Node.act
    split
    · exact h
    · exact h.rwbAct hwait b
  · have hne : ∀ b, a ≠ .rwb b := fun b hb => ha ⟨b, hb⟩
    obtain ⟨-, hr, hw, hwr⟩ := act_grows n a hne
    rcases act_queued n a with ⟨hq, hx⟩ | ⟨x, hq, hmem, -⟩
    · exact ⟨fun x hx' => by rw [hq]; exact h.queue x (hx x hx'), by rw [hr, hq]; exact h.hand,
        by rw [hwr, hw, hr]; exact h.written⟩
    · refine ⟨fun y hy => ?_, fun e he => ?_, by rw [hwr, hw, hr]; exact h.written⟩
      · rw [hq, List.mem_append, List.mem_singleton]
        exact ((hmem y).1 hy).imp_left (h.queue y)
      · rw [hq]
        exact List.mem_append_left _ (h.hand e (hr ▸ he))

theorem Passed.wire (h : Passed n) (w : Wire) : Passed (n.wire w) := by
  cases w with
  | relaySent _ _ | relayOk =>
    simp only [Node.wire]
    split
    · exact h.moveOn _ (by simp_all [Rwb.inHand]) (by simp_all) _
    · exact h
  | relayArrives _ | ackArrives _ => exact ⟨h.queue, h.hand, h.written⟩
  | ackSent _ _ _ | ackOk _ =>
    simp only [Node.wire]
    split
    · exact ⟨h.queue, h.hand, h.written⟩
    · exact h

end Passed

/-! ## The invariant -/

/-- queued at the old tail, and later than the copied log if it has to be relayed -/
def Owed (R : ℤ) (C : ReplayLog) (n : Node) (x : Entry) : Prop := x ∈ n.queued ∧ (R < x.seqNum → C.Later x.reqId)

structure JoinInv (u : ℕ) (f : Joining) : Prop where
  waiting : Waiting (f.nodes u)
  passed : Passed (f.nodes u)
  order : TimestampOrder (· ∈ (f.nodes u).queued)
  quiet : Quiet (f.nodes (u + 1))
  down : ∀ m, (f.nodes u).downstream = some m → m = u + 1
  up : ∀ m, (f.nodes m).downstream = some (u + 1) → m = u
  before : f.phase.joined = false → (f.nodes u).state.relays = false ∧ (f.nodes (u + 1)).relays = [] ∧
    ∀ e m k, (f.nodes u).rwb ≠ .calling e m k
  lower : f.phase.hasRestored = true → f.restored ≤ (f.nodes (u + 1)).writeSeq
  log : f.phase = .updated → ∀ c t, ((f.nodes (u + 1)).replayLog.flag? c t).isSome → (f.copied.flag? c t).isSome
  after : f.phase.joined = true → (f.nodes u).state.relays = true ∧
    Handover f.restored f.copied (Owed f.restored f.copied (f.nodes u)) (u + 1) (f.nodes u) (f.nodes (u + 1))

/-- an event pushes one entry at most -/
theorem pushes_eq {s : Nodes} {j : ℕ} {e : Event} {x y : Entry} (hx : x ∈ s.pushes j e) (hy : y ∈ s.pushes j e) :
    x = y := by
  unfold Nodes.pushes at hx hy
  split at hx <;> simp only at hy
  · split_ifs at hx hy
    · exact Option.some.inj ((Option.mem_toList.1 hx).symm.trans (Option.mem_toList.1 hy))
    · cases hx
  · split at hx
    · rename_i hk
      simp only [hk] at hy
      split_ifs at hx hy
      · rw [List.mem_singleton.1 hx, List.mem_singleton.1 hy]
      · cases hx
    · cases hx
  · cases hx

/-- a call begins only where the state relays -/
theorem step_calling {s : Nodes} {e : Event} {j : ℕ} (hs : (s j).state.relays = false)
    (h : ∀ x m k, (s j).rwb ≠ .calling x m k) : ∀ x m k, (step s e j).rwb ≠ .calling x m k := by
  have hw : ∀ (s' : Nodes) i w, (∀ m k, w ≠ .relaySent m k) ∨ i ≠ j → (∀ x m k, (s' j).rwb ≠ .calling x m k) →
      ∀ x m k, (Nodes.wire s' i w j).rwb ≠ .calling x m k := by
    intro s' i w hiw hs'
    by_cases hij : j = i
    · subst hij
      have hw := hiw.resolve_right (by simp)
      simp only [Nodes.wire, Function.update_self]
      cases w with
      | relaySent m k => exact absurd rfl (hw m k)
      | relayOk => simpa only [Node.wire] using hs'
      | ackSent _ _ _ | ackOk _ =>
        simp only [Node.wire]
        split
        all_goals exact hs'
      | relayArrives _ | ackArrives _ => exact hs'
    · simpa [Nodes.wire, hij] using hs'
  cases e with
  | act i a =>
    by_cases hij : j = i
    · subst hij
      simp only [step, Function.update_self]
      by_cases ha : ∃ b, a = .rwb b
      · obtain ⟨b, rfl⟩ := ha
        unfold Node.act
        split
        · exact h
        cases b <;> simp only [Node.rwbAct] <;> repeat' split
        all_goals first
          | exact h
          | simp
      · rw [(act_grows (s j) a fun b hb => ha ⟨b, hb⟩).2.1]
        exact h
    · simpa [step, hij] using h
  | sendRelay i =>
    rcases step_sendRelay s i with hs' | ⟨x, m, ht, hs'⟩ <;> rw [hs']
    · exact h
    · have hij : i ≠ j := by
        rintro rfl
        rw [(relayTarget_eq_some ht).2.2] at hs
        cases hs
      exact hw _ _ _ (Or.inl (by simp)) (hw _ _ _ (Or.inr hij) h)
  | relayOk i =>
    rcases step_relayOk s i with hs' | ⟨x, m, k, -, -, hs'⟩ <;> rw [hs']
    · exact h
    · exact hw _ _ _ (Or.inl (by simp)) h
  | sendAck i k =>
    rcases step_sendAck s i k with hs' | ⟨seq, m, -, hs'⟩ <;> rw [hs']
    · exact h
    · exact hw _ _ _ (Or.inl (by simp)) (hw _ _ _ (Or.inl (by simp)) h)
  | ackOk i k =>
    rcases step_ackOk s i k with hs' | hs' <;> rw [hs']
    · exact h
    · exact hw _ _ _ (Or.inl (by simp)) h

section JoinInv

variable {u : ℕ} {f : Joining}

/-- **A step of the chain.** -/
theorem JoinInv.node (h : JoinInv u f) (e : Event) (hc : Caught u f (.node e)) : JoinInv u (f.step u (.node e)) := by
  obtain ⟨hplace, hclash⟩ := hc
  obtain ⟨l, hl, hlp, hmem⟩ := step_queued f.nodes e u
  have hdown : ∀ m, (Chain.step f.nodes e m).downstream = (f.nodes m).downstream := fun m =>
    congrArg Conf.downstream (step_conf f.nodes e m)
  have hstate : (Chain.step f.nodes e u).state = (f.nodes u).state := congrArg Conf.state (step_conf f.nodes e u)
  have hwaiting : Waiting (Chain.step f.nodes e u) := step_waiting e u h.waiting
  have horder : TimestampOrder (· ∈ (Chain.step f.nodes e u).queued) := by
    intro x y hx hy hid hlt
    simp only [hl, List.mem_append] at hx hy
    rcases hx with hx | hx <;> rcases hy with hy | hy
    · exact h.order x y hx hy hid hlt
    · exact ((hplace y (hlp y hy)).1 x hx hid).1 hlt
    · exact ((hplace x (hlp x hx)).1 y hy hid.symm).2 hlt
    · rw [pushes_eq (hlp x hx) (hlp y hy)] at hlt
      exact absurd hlt (lt_irrefl _)
  refine ⟨hwaiting, ?_, horder, step_quiet e (u + 1) h.quiet, fun m hm => h.down m (hdown u ▸ hm),
    fun m hm => h.up m (hdown m ▸ hm), fun hp => ?_, fun hp => (h.lower hp).trans (step_writeSeq f.nodes e (u + 1)),
    fun hp => ?_, fun hp => ?_⟩
  · exact step_node_inv Passed f.nodes e u h.passed (fun a _ => h.passed.act h.waiting a) fun _ w hn => hn.wire w
  · obtain ⟨h1, h2, h3⟩ := h.before hp
    refine ⟨(congrArg State.relays hstate).trans h1, ?_, step_calling h1 h3⟩
    refine step_node_calls (fun n => n.relays = []) f.nodes e (u + 1) h2 (fun a _ => ?_) fun n w hw _ hn => ?_
    · have hlen := act_relays_length (f.nodes (u + 1)) a
      rw [h2] at hlen
      exact List.length_eq_zero_iff.1 hlen
    · rwa [wire_relays n w]
      rintro q rfl
      -- only node u could call, and it does not relay yet
      obtain ⟨i, x, ht, -⟩ := hw q rfl
      obtain ⟨-, hd, hr⟩ := relayTarget_eq_some ht
      rw [h.up i hd, h1] at hr
      cases hr
  · have hp : f.phase = .updated := hp
    have hrel := (h.before (by rw [hp]; rfl)).2.1
    refine step_node_inv (fun n => ∀ c t, (n.replayLog.flag? c t).isSome → (f.copied.flag? c t).isSome) f.nodes e (u + 1)
      (h.log hp) (fun a _ c t ht => ?_) fun n w hn c t ht => hn c t (by rwa [wire_log] at ht)
    exact h.log hp c t (act_isSome h.quiet.headService hrel a ht)
  · obtain ⟨hs, hover⟩ := h.after hp
    have hmono : ∀ x, Owed f.restored f.copied (f.nodes u) x →
        Owed f.restored f.copied (Chain.step f.nodes e u) x := fun x hx =>
      ⟨by rw [hl]; exact List.mem_append_left _ hx.1, hx.2⟩
    refine ⟨(congrArg State.relays hstate).trans hs, (hover.mono hmono).step (by omega) h.waiting
      (fun x y hx hy => horder x y hx.1 hy.1) (fun x hx => hx.2) h.down h.up hs h.quiet.headService (fun x hx => ?_)
      hclash⟩
    refine (hmem x hx).imp_right fun hxl => ⟨?_, (hplace x (hlp x hxl)).2 hp⟩
    rw [hl]
    exact List.mem_append_right _ hxl

/-- `ChangeMode` before the change of state: only links, counters and the log of the new node change -/
theorem JoinInv.prepare (h : JoinInv u f) (hp : f.phase.joined = false) (d : Option ℕ)
    (hd : ∀ m, d = some m → m = u + 1)
    (w : Node) (hconf : w.conf = (f.nodes (u + 1)).conf) (hpath : w.adding = [] ∧ w.pushing = [] ∧ w.relays = [])
    (g : Joining)
    (hg : g.nodes = Function.update (Function.update f.nodes u { f.nodes u with downstream := d }) (u + 1) w)
    (hph : g.phase.joined = false) (hlower : g.phase.hasRestored = true → g.restored ≤ w.writeSeq)
    (hlog : g.phase = .updated → ∀ c t, (w.replayLog.flag? c t).isSome → (g.copied.flag? c t).isSome) : JoinInv u g := by
  have hu : g.nodes u = { f.nodes u with downstream := d } := by simp [hg]
  have hw : g.nodes (u + 1) = w := by simp [hg]
  obtain ⟨h1, -, h3⟩ := h.before hp
  have hdown : w.downstream = (f.nodes (u + 1)).downstream := congrArg Conf.downstream hconf
  refine ⟨?_, ?_, ?_, ?_, ?_, fun m hm => ?_, fun _ => ?_, ?_, ?_, fun hj => ?_⟩
  · rw [hu]
    exact h.waiting.grow (fun _ hx => hx) rfl rfl
  · rw [hu]
    exact ⟨h.passed.queue, h.passed.hand, h.passed.written⟩
  · rw [hu]
    exact h.order
  · rw [hw]
    exact ⟨(congrArg Conf.headService hconf).trans h.quiet.headService, hpath.1, hpath.2.1⟩
  · rw [hu]
    exact hd
  · by_cases hmu : m = u
    · exact hmu
    · by_cases hmw : m = u + 1
      · subst hmw
        rw [hw, hdown] at hm
        exact h.up _ hm
      · rw [hg, Function.update_of_ne hmw, Function.update_of_ne hmu] at hm
        exact h.up m hm
  · rw [hu, hw]
    exact ⟨h1, hpath.2.2, h3⟩
  · rw [hw]
    exact hlower
  · rw [hw]
    exact hlog
  · rw [hph] at hj
    cases hj

/-- **The state changes.** What node u has above `restored` is still to be relayed, and nothing of it is in
the copied log. -/
theorem JoinInv.setState (h : JoinInv u f) (hc : Caught u f (.change .setState)) : JoinInv u
    (f.changeMode u .setState) := by
  cases hp : f.phase with
  | idle | linked | modified | restored | copied | switched | registered => simpa only [Joining.changeMode, hp] using h
  | updated =>
    obtain ⟨hws, hpast, hlater⟩ := hc hp
    obtain ⟨-, hrel, hcall⟩ := h.before (by rw [hp]; rfl)
    have hdel : ∀ k, (f.nodes (u + 1)).delivered k = false := fun k => by simp [Node.delivered, hrel]
    have hover : Handover f.restored f.copied (Owed f.restored f.copied (f.nodes u)) (u + 1) (f.nodes u)
        (f.nodes (u + 1)) := by
      refine ⟨fun x hx => ⟨h.passed.queue x hx, hlater x (List.mem_append_left _ hx)⟩, fun e he => ?_, fun k h1 h2 => ?_,
        fun _ k h1 h2 => ?_, fun e he hR => ?_, fun e m k he => absurd he (hcall e m k), by simp [hrel],
        fun c t ht => Or.inl (h.log hp c t ht), by simp [hdel], by simp [hrel]⟩
      · exact ⟨h.passed.hand e (inHand_of_relaying he), hlater e (List.mem_append_right _ (by simp [he]))⟩
      · exact absurd (h1.trans_le h2) (not_lt.2 hws)
      · exact absurd (h1.trans_le h2) (not_lt.2 hws)
      · have hle := hpast e (by rcases he with he | he | he <;> simp [he, Rwb.unrecorded])
        exact absurd hR (not_lt.2 hle)
    have hnew : ∀ (g : Joining) (s : State), s.relays = true →
        g.nodes = Function.update f.nodes u { f.nodes u with state := s } →
        g.phase = .switched → g.copied = f.copied → g.restored = f.restored → JoinInv u g := by
      intro g s hs hg hph hC hR
      have hu : g.nodes u = { f.nodes u with state := s } := by simp [hg]
      have hw : g.nodes (u + 1) = f.nodes (u + 1) := by simp [hg]
      refine ⟨?_, ?_, ?_, hw ▸ h.quiet, ?_, fun m hm => ?_, by simp [hph, JoinPhase.joined], fun _ => ?_, by simp [hph],
        fun _ => ?_⟩
      · rw [hu]
        exact h.waiting.grow (fun _ hx => hx) rfl rfl
      · rw [hu]
        exact ⟨h.passed.queue, h.passed.hand, h.passed.written⟩
      · rw [hu]
        exact h.order
      · rw [hu]
        exact h.down
      · by_cases hmu : m = u
        · exact hmu
        · rw [hg, Function.update_of_ne hmu] at hm
          exact h.up m hm
      · rw [hw, hR]
        exact h.lower (by rw [hp]; rfl)
      · rw [hu, hw, hC, hR]
        exact ⟨hs, (hover.mono fun _ hx => hx).grow (fun _ hx => hx) (fun _ hx => Or.inl hx) rfl rfl⟩
    simp only [Joining.changeMode, hp]
    exact hnew _ _ (by split <;> rfl) rfl rfl rfl rfl

theorem JoinInv.changeMode (h : JoinInv u f) (c : ChangeStep) (hc : Caught u f (.change c)) :
    JoinInv u (f.changeMode u c) := by
  have hsame : ∀ (w : Node), Function.update (Function.update f.nodes u { f.nodes u with downstream :=
      (f.nodes u).downstream }) (u + 1) w = Function.update f.nodes (u + 1) w := fun w => by
    rw [Function.update_eq_self_iff.2 rfl]
  have hkeep : Function.update (Function.update f.nodes u { f.nodes u with downstream := (f.nodes u).downstream }) (u + 1)
      (f.nodes (u + 1)) = f.nodes := by
    rw [hsame, Function.update_eq_self_iff.2 rfl]
  cases c with
  | setState => exact h.setState hc
  | link =>
    cases hp : f.phase with
    | linked | modified | restored | copied | updated | switched | registered =>
      simpa only [Joining.changeMode, hp] using h
    | idle =>
      simp only [Joining.changeMode, hp]
      have hb := h.before (by rw [hp]; rfl)
      refine h.prepare (by rw [hp]; rfl) (some (u + 1)) (by simp) (f.nodes (u + 1)) rfl
        ⟨h.quiet.adding, h.quiet.pushing, hb.2.1⟩ _ ?_ rfl (by simp [JoinPhase.hasRestored]) (by simp)
      exact (Function.update_eq_self_iff.2 (Function.update_of_ne (by omega) _ _).symm).symm
  | getModifiedOffsets =>
    cases hp : f.phase with
    | idle | modified | restored | copied | updated | switched | registered =>
      simpa only [Joining.changeMode, hp] using h
    | linked =>
      simp only [Joining.changeMode, hp]
      have hb := h.before (by rw [hp]; rfl)
      exact h.prepare (by rw [hp]; rfl) _ h.down (f.nodes (u + 1)) rfl ⟨h.quiet.adding, h.quiet.pushing, hb.2.1⟩ _
        hkeep.symm rfl (by simp [JoinPhase.hasRestored]) (by simp)
  | restore =>
    cases hp : f.phase with
    | idle | linked | restored | copied | updated | switched | registered =>
      simpa only [Joining.changeMode, hp] using h
    | modified entries =>
      simp only [Joining.changeMode, hp]
      have hb := h.before (by rw [hp]; rfl)
      exact h.prepare (by rw [hp]; rfl) _ h.down ((f.nodes (u + 1)).restore entries) rfl
        ⟨h.quiet.adding, h.quiet.pushing, hb.2.1⟩ _ (hsame _).symm rfl (fun _ => le_rfl) (by simp)
  | getRelayLogContent =>
    cases hp : f.phase with
    | idle | linked | modified | copied | updated | switched | registered =>
      simpa only [Joining.changeMode, hp] using h
    | restored =>
      simp only [Joining.changeMode, hp]
      have hb := h.before (by rw [hp]; rfl)
      exact h.prepare (by rw [hp]; rfl) _ h.down (f.nodes (u + 1)) rfl ⟨h.quiet.adding, h.quiet.pushing, hb.2.1⟩ _
        hkeep.symm rfl (fun _ => h.lower (by rw [hp]; rfl)) (by simp)
  | updateReplayLog =>
    cases hp : f.phase with
    | idle | linked | modified | restored | updated | switched | registered =>
      simpa only [Joining.changeMode, hp] using h
    | copied =>
      simp only [Joining.changeMode, hp]
      have hb := h.before (by rw [hp]; rfl)
      exact h.prepare (by rw [hp]; rfl) _ h.down { f.nodes (u + 1) with replayLog := f.copied } rfl
        ⟨h.quiet.adding, h.quiet.pushing, hb.2.1⟩ _ (hsame _).symm rfl (fun _ => h.lower (by rw [hp]; rfl))
        fun _ _ _ ht => ht

theorem JoinInv.register (h : JoinInv u f) : JoinInv u (f.register u) := by
  cases hp : f.phase with
  | idle | linked | modified | restored | copied | updated | registered => simpa only [Joining.register, hp] using h
  | switched =>
    obtain ⟨hs, hover⟩ := h.after (by rw [hp]; rfl)
    have hnew : ∀ (g : Joining) (l : List AckThread), g.nodes = Function.update f.nodes (u + 1)
        { f.nodes (u + 1) with state := .tail, upstream := some u, acks := l } → g.phase = .registered →
        g.copied = f.copied → g.restored = f.restored → JoinInv u g := by
      intro g l hg hph hC hR
      have hu : g.nodes u = f.nodes u := by simp [hg]
      have hw : g.nodes (u + 1) = { f.nodes (u + 1) with state := .tail, upstream := some u, acks := l } := by simp [hg]
      refine ⟨hu ▸ h.waiting, hu ▸ h.passed, hu ▸ h.order, ?_, hu ▸ h.down, fun m hm => ?_,
        by simp [hph, JoinPhase.joined], fun _ => ?_, by simp [hph], fun _ => ?_⟩
      · rw [hw]
        exact ⟨h.quiet.headService, h.quiet.adding, h.quiet.pushing⟩
      · by_cases hmw : m = u + 1
        · subst hmw
          rw [hw] at hm
          exact h.up _ hm
        · rw [hg, Function.update_of_ne hmw] at hm
          exact h.up m hm
      · rw [hw, hR]
        exact h.lower (by rw [hp]; rfl)
      · rw [hu, hw, hC, hR]
        exact ⟨hs, hover.frame rfl fun _ _ => id⟩
    simp only [Joining.register, hp]
    exact hnew _ _ rfl rfl rfl rfl

theorem step_joinInv (e : JoinEvent) (h : JoinInv u f) (hc : Caught u f e) : JoinInv u (f.step u e) := by
  cases e with
  | node e => exact h.node e hc
  | change c =>
    simp only [Joining.step]
    split
    · exact h
    · exact h.changeMode c hc
  | register => exact h.register

theorem joinInv_start (u start : ℕ) (log : ReplayLog) (base : List (ℤ × Int64)) (own : ℤ) :
    JoinInv u (Joining.start u start log base own) := by
  have hu : ∃ a b c acks, (Joining.start u start log base own).nodes u =
      { Node.idle a b none c start log acks with committed := base } ∧ a.relays = false := by
    simp only [Joining.start, show u ≠ u + 1 by omega, if_false, stable, show u < u + 1 by omega, if_true]
    refine ⟨_, _, _, _, rfl, ?_⟩
    unfold roleOf
    split_ifs <;> simp_all [State.relays]
  have hw : (Joining.start u start log base own).nodes (u + 1) =
      Node.idle .initializing none none false own ReplayLog.empty [] := by simp [Joining.start]
  obtain ⟨a, b, c, acks, hu, ha⟩ := hu
  refine ⟨?_, ?_, ?_, ?_, ?_, fun m hm => ?_, fun _ => ?_, ?_, ?_, ?_⟩
  · rw [hu]
    exact ⟨by simp [Node.idle], by simp [Node.idle, Rwb.inHand]⟩
  · rw [hu]
    exact ⟨by simp [Node.idle], by simp [Node.idle, Rwb.inHand], by simp [Node.idle]⟩
  · rw [hu]
    simp [Node.idle, TimestampOrder]
  · rw [hw]
    exact ⟨rfl, rfl, rfl⟩
  · simp [hu, Node.idle]
  · -- nobody in the chain has node u + 1 downstream
    by_cases hmw : m = u + 1
    · subst hmw
      rw [hw] at hm
      cases hm
    · simp only [Joining.start, hmw, if_false] at hm
      have hc := conf_downstream (x := stable (u + 1) start log m) rfl hm
      omega
  · rw [hu, hw]
    exact ⟨ha, rfl, by simp [Node.idle]⟩
  · simp [Joining.start, JoinPhase.hasRestored]
  · simp [Joining.start]
  · simp [Joining.start, JoinPhase.joined]

end JoinInv

/-- **No write is lost at the join**, whatever the threads do during `ChangeMode`: if nothing above the restored
number has left the relay loop when the state changes, and what is to be relayed is later than the copied log and in
order, then in every state after the join each number the old tail holds above `writeSeq` of the new node is still to
be relayed or is queued there, and no first delivery is refused. -/
theorem held_is_relayed (u start : ℕ) (log : ReplayLog) (base : List (ℤ × Int64)) (own : ℤ) (es : List JoinEvent)
    (h : Meets (Joining.step u) (Caught u) (Joining.start u start log base own) es) :
    CarriedOver u (run (Joining.step u) (Joining.start u start log base own) es) := by
  have hinv := run_inv_of_meets (Joining.step u) (Caught u) (JoinInv u) (fun f e hf hc => step_joinInv e hf hc) _ es
    (joinInv_start u start log base own) h
  intro hj
  obtain ⟨-, hover⟩ := hinv.after hj
  have hlow := hinv.lower (by cases hp : (run (Joining.step u) (Joining.start u start log base own) es).phase <;>
    simp_all [JoinPhase.joined, JoinPhase.hasRestored])
  generalize run (Joining.step u) (Joining.start u start log base own) es = f at *
  have hqueued : ∀ y ∈ (f.nodes (u + 1)).relays, y.first = true → f.restored < y.req.seqNum →
      y.phase.queued = true := by
    intro y hy hf hR
    rcases hover.queued y hy hf hR with hp | hp <;> rw [hp] <;> rfl
  have hdone : ∀ k, f.restored < k → (f.nodes (u + 1)).delivered k → ∃ y ∈ (f.nodes (u + 1)).relays,
      y.req.seqNum = k ∧ y.phase.queued = true := by
    intro k hR hd
    obtain ⟨y, hy, hf, rfl⟩ := hover.first k hR hd
    exact ⟨y, hy, rfl, hqueued y hy hf hR⟩
  refine ⟨fun k hk hw => ?_, hqueued⟩
  have hR : f.restored < k := hlow.trans_lt hw
  -- what has left the relay loop has been delivered
  have hqueue : ∀ x ∈ (f.nodes u).pendingQueue, x.seqNum ∈ (f.nodes u).toRelay := fun x hx =>
    List.mem_append_left _ (List.mem_map_of_mem hx)
  have hpast : ∀ e, (f.nodes u).rwb = .write e ∨ (f.nodes u).rwb = .bump e ∨ (f.nodes u).rwb = .send e → e.seqNum = k →
      ∃ y ∈ (f.nodes (u + 1)).relays, y.req.seqNum = k ∧ y.phase.queued = true := by
    rintro e he rfl
    exact hdone _ hR (hover.past e he hR)
  simp only [Node.holds, List.mem_append, List.mem_map] at hk
  rcases hk with (⟨x, hx, rfl⟩ | ⟨e, he, rfl⟩) | ⟨x, hx, rfl⟩
  · exact Or.inl (hqueue x hx)
  · have he := Option.mem_toList.1 he
    cases hr : (f.nodes u).rwb with
    | poll | spin | pop | dead => simp [hr, Rwb.held] at he
    | relay y | calling y _ _ =>
      left
      obtain rfl : y = e := by simpa [hr, Rwb.held] using he
      exact List.mem_append_right _ (List.mem_map_of_mem (by simp [hr, Rwb.relaying]))
    | write y | bump y | send y =>
      obtain rfl : y = e := by simpa [hr, Rwb.held] using he
      exact Or.inr (hpast y (by simp [hr]) rfl)
  · rcases hinv.passed.written x hx with hle | ⟨e, he, hex⟩
    · rcases hover.upTo x.seqNum hR hle with hd | ⟨y, hy, hyx⟩
      · exact Or.inr (hdone _ hR hd)
      · exact Or.inl (hyx ▸ hqueue y hy)
    · exact Or.inr (hpast e (Or.inr (Or.inl he)) hex)

/-- the whole of `ChangeMode`, and the new node becomes the tail -/
def wholeJoin : List JoinEvent := [.change .link, .change .getModifiedOffsets, .change .restore, .change .getRelayLogContent,
  .change .updateReplayLog, .change .setState, .register]

/-- a single server writes number 1 and records it -/
def writtenAlone : List Event := writeCall (requestAt 1) ++ [.act 0 (.rwb .poll), .act 0 (.rwb .spin),
  .act 0 (.rwb .pop), .act 0 (.rwb .leave), .act 0 (.rwb .write), .act 0 (.rwb .bump), .act 0 (.rwb .send)]

/-- number 1 is committed, a node joins, and number 2 is relayed to it -/
theorem held_is_relayed_committed :
    CarriedOver 0 (run (Joining.step 0) (Joining.start 0 0 ReplayLog.empty [] 0)
      ((writeCall (requestAt 1) ++ writeAndCommit).map .node ++ wholeJoin ++
        (writeCall (requestAt 2) ++ relayDown 0).map .node)) :=
  held_is_relayed 0 0 ReplayLog.empty [] 0 _ (by decide +kernel)

/-- **Sent and queued numbers are lost.** Number 1 is in the sent list when a node joins, and is never relayed; or it is
queued, and the new node refuses it because its request is in the copied log. -/
theorem sent_is_lost_queued_is_refused :
    ¬ CarriedOver 0 (run (Joining.step 0) (Joining.start 0 0 ReplayLog.empty [] 0) (writtenAlone.map .node ++ wholeJoin)) ∧
    ¬ CarriedOver 0 (run (Joining.step 0) (Joining.start 0 0 ReplayLog.empty [] 0)
      ((writeCall (requestAt 1)).map .node ++ wholeJoin ++ (relayDown 0).map .node)) := by
  decide +kernel

end ChainedBlockStorage.Chain
