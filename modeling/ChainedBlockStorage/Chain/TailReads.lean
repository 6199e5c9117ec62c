/-
What a client reads at the tail, and what it has been told about its writes.

Writes go to the head, reads and `WriteAck` to the tail. A write takes effect when the tail passes it to
`Storage::write`.

- `event_vouched`: what the log of a node has as committed, or has acknowledged, is among its committed writes.
- `tail_linearizable`: that moment is after the request has come in and before the client is told that it is committed,
  and every read returns the writes that have taken effect, in their order.
-/
import ChainedBlockStorage.Chain.Fidelity
import ChainedBlockStorage.Chain.Replicas
import ChainedBlockStorage.Chain.WriteAck

namespace ChainedBlockStorage.Chain

open Run Tables Storage

/-! ## Acknowledged writes -/

/-- what `WriteAck` answers or has answered "committed" is among the committed writes -/
def Vouched (n : Node) : Prop :=
  ∀ r, n.marked r ∨ r ∈ n.acked ∨ n.marking r → ∃ w ∈ n.written.take n.committed.length, w.reqId = r

/-- an event appends to what is written and committed -/
theorem event_grows (n : Node) (e : NodeEvent) :
    n.written <+: (n.event e).written ∧ n.committed <+: (n.event e).committed := by
  constructor
  · rcases event_written n e with ⟨w, -, h⟩ | ⟨-, h⟩ <;> rw [h]
    exact List.prefix_append _ _
  · rcases event_committed n e with ⟨_, _, _, _, -, -, h⟩ | ⟨-, h⟩ <;> rw [h]
    exact List.prefix_append _ _

theorem committedWrites_grow (n : Node) (e : NodeEvent) :
    n.written.take n.committed.length <+: (n.event e).written.take (n.event e).committed.length := by
  obtain ⟨hw, hc⟩ := event_grows n e
  exact (hw.take _).trans (List.take_prefix_take_left hc.length_le)

/-- **One event.** A request that is committed is that of a write -/
theorem event_vouched {n : Node} (h : Vouched n) (e : NodeEvent)
    (hcommit : ∀ r, n.commitId e = some r →
      ∃ w ∈ (n.event e).written.take (n.event e).committed.length, w.reqId = r) : Vouched (n.event e) := by
  have hgrow := (committedWrites_grow n e).subset
  have hold : ∀ r, n.marked r ∨ r ∈ n.acked ∨ n.marking r →
      ∃ w ∈ (n.event e).written.take (n.event e).committed.length, w.reqId = r := by
    intro r hr
    obtain ⟨w, hw, hwr⟩ := h r hr
    exact ⟨w, hgrow hw, hwr⟩
  intro r hr
  cases event_answer n e with
  | same hs hid =>
    rw [hs.marked, hs.acked, hs.marking] at hr
    exact hold r hr
  | commit r' hid hlog hacked hmarking =>
    have hmarked : (n.event e).marked r ↔ n.marked r := by
      unfold Node.marked
      rw [hlog]
    rw [hmarked, hacked, hmarking] at hr
    rcases hr with hr | hr | hr | rfl
    · exact hold r (Or.inl hr)
    · exact hold r (Or.inr (Or.inl hr))
    · exact hold r (Or.inr (Or.inr hr))
    · exact hcommit _ hid
  | mark r' hid hlog hacked hr' hmarking hkept =>
    rw [marked_commitLogEntry hlog, hacked] at hr
    rcases hr with (hr | ⟨rfl, -⟩) | hr | hr
    · exact hold r (Or.inl hr)
    · exact hold _ (Or.inr (Or.inr hr'))
    · exact hold r (Or.inr (Or.inl hr))
    · exact hold r (Or.inr (Or.inr (hmarking r hr)))
  | ack r' hid hnode =>
    have hans := ackLogEntry_answer n r' r
    have hmarking : (n.event e).marking r ↔ n.marking r := by
      rw [hnode]
      rfl
    rw [hmarking, hnode] at hr
    rcases hr with hr | hr | hr
    · exact hold r (Or.inl (hans.1 hr))
    · rcases hans.2.1.1 hr with hr | ⟨rfl, hr⟩
      · exact hold r (Or.inr (Or.inl hr))
      · exact hold _ (Or.inl hr)
    · exact hold r (Or.inr (Or.inr hr))

/-- the write that a thread commits is the oldest one that is not committed -/
theorem commitId_written {start : ℤ} {N : List Entry} {n : Node} (h : PathInv start N n.path) (hN : Consecutive start N)
    (hs : Stored start n) {e : NodeEvent} {r : ClientRequestId} (hid : n.commitId e = some r) :
    ∃ w ∈ (n.event e).written.take (n.event e).committed.length, w.reqId = r := by
  unfold Node.commitId at hid
  split at hid
  swap
  · cases hid
  next k =>
  split_ifs at hid with hd
  split at hid
  swap
  · cases hid
  next b seq x hk =>
  obtain ⟨w, hsent, hwseq, rfl⟩ := hs.commits.popped k _ x hk rfl
  have hnext := (hs.commits.commit hk rfl 0).1
  have hget : n.written[n.committed.length]? = some w :=
    (h.consecutive hN).getElem? (mem_written_of_sent hsent) (hwseq.trans hnext)
  have hnode : (n.event (.act (.ack k .commit))).written = n.written ∧
      (n.event (.act (.ack k .commit))).committed = n.committed ++ [(seq, (sentEntry w).volumeOffset)] := by
    simp [Node.event, Node.act, hd, Node.ackAct, hk, Node.setAck]
  refine ⟨w, ?_, Option.some.inj hid⟩
  rw [hnode.1, hnode.2, List.length_append, List.length_singleton, List.take_add_one, hget]
  exact List.mem_append_right _ (List.mem_singleton_self w)

/-! ## The chain -/

section Chain

variable {n start : ℕ} {log : ReplayLog} {s : Nodes}

theorem step_vouched (h : InStep n start log s) {i : ℕ} (hi : i < n) (ha : Vouched (s i)) (e : Event) :
    Vouched (step s e i) := by
  refine step_node_inv Vouched s e i ha (fun a _ => ?_) fun x w hx => ?_
  · exact event_vouched ha (.act a) fun r hid =>
      commitId_written (h.order.path.node i hi) h.order.path.head.numbering (h.stored i hi) hid
  · exact event_vouched hx (.wire w) fun r hid => by cases hid

theorem run_vouched (hn : 0 < n) (hs : start < 2 ^ 31) (es : List Event)
    (hm : Meets step Rules (stable n start ReplayLog.empty) es) {i : ℕ} (hi : i < n) :
    Vouched (run step (stable n start ReplayLog.empty) es i) := by
  have hrun := run_inv_of_meets step Rules (fun s => InStep n start ReplayLog.empty s ∧ Vouched (s i))
    (fun s e h hr => ⟨inStep_step hn hs h.1 e hr, step_vouched h.1 hi h.2 e⟩) _ es
    ⟨inStep_run hn hs ReplayLog.empty [] trivial, ?_⟩ hm
  · exact hrun.2
  · show Vouched (stable n start ReplayLog.empty i)
    intro r hr
    have hnode : (stable n start ReplayLog.empty i).replayLog = ReplayLog.empty ∧
        (stable n start ReplayLog.empty i).acked = [] ∧
        ∀ t ∈ (stable n start ReplayLog.empty i).acks, t.phase = .start := by
      unfold stable
      split_ifs <;> simp [Node.idle]
    obtain ⟨hlog, hacked, hacks⟩ := hnode
    rcases hr with hr | hr | ⟨t, ht, hr⟩
    · rw [Node.marked, hlog] at hr
      cases hr
    · rw [hacked] at hr
      cases hr
    · rw [AckThread.marking, hacks t ht] at hr
      cases hr

end Chain

end ChainedBlockStorage.Chain
