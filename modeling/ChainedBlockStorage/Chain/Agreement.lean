/-
Log agreement on a stable chain.

- `log_agreement`: after every run that keeps the rules, what each node has passed to `Storage::write` is a prefix of
  what the head has numbered, in consecutive numbers, and the counters of neighbours are ordered.
- `log_agreement_two_nodes`: a run of two nodes in which a write goes down and its commit comes back.
-/
import ChainedBlockStorage.Chain.CommitPath

namespace ChainedBlockStorage.Chain

open Run Tables

/-- sequence numbers stay below 2^31 -/
def NumberRule (s : Nodes) : Event → Prop
  | .act i (.write (.takeSeq _)) => (s i).currentSeq < 2 ^ 31
  | _ => True

instance (s : Nodes) : ∀ e, Decidable (NumberRule s e)
  | .act i (.write (.takeSeq _)) => inferInstanceAs (Decidable ((s i).currentSeq < 2 ^ 31))
  | .act _ (.write (.addToLog _)) | .act _ (.write (.pushEntry _)) | .act _ (.relay _ _) | .act _ (.rwb _)
  | .act _ (.ack _ _) | .act _ (.ackLogEntry _) | .sendRelay _ | .relayOk _ | .sendAck _ _ | .ackOk _ _ =>
    isTrue trivial

/-- the rules of a run: numbers below 2^31, and a relay repeated only when its earlier handlers are over -/
def Rules (s : Nodes) (e : Event) : Prop := NumberRule s e ∧ RetryRule s e

instance (s : Nodes) (e : Event) : Decidable (Rules s e) := inferInstanceAs (Decidable (_ ∧ _))

/-- what is numbered has a number below 2^31 -/
def Bounded (start : ℕ) (s : Nodes) : Prop := (start : ℤ) + (s 0).numbered.length < 2 ^ 31

theorem bounded_step {n start : ℕ} {log : ReplayLog} {s : Nodes} (h : OnPath n start log s) (hb : Bounded start s)
    (e : Event) (hr : NumberRule s e) : Bounded start (step s e) := by
  have hw : ∀ (s : Nodes) i w, (Nodes.wire s i w 0).numbered = (s 0).numbered := by
    intro s i w
    by_cases hi : 0 = i
    · subst hi; simp [Nodes.wire, wire_numbered]
    · simp [Nodes.wire, hi]
  unfold Bounded at hb ⊢
  cases e with
  | act i a =>
    by_cases hi : 0 = i
    · subst hi
      simp only [step, Function.update_self]
      rcases act_numbered (s 0) a with hn | ⟨k, r, rfl, -, hn⟩
      · rw [hn]; exact hb
      · have hlt : (s 0).path.currentSeq < 2 ^ 31 := hr
        have hnext := h.head.next
        have : (s 0).path.numbered.length = (s 0).numbered.length := rfl
        rw [hn, List.length_append, List.length_singleton]
        push_cast
        omega
    · simpa [step, hi] using hb
  | sendRelay i => rcases step_sendRelay s i with hs | ⟨_, _, -, hs⟩ <;> rw [hs] <;> simpa only [hw] using hb
  | relayOk i => rcases step_relayOk s i with hs | ⟨_, _, _, -, -, hs⟩ <;> rw [hs] <;> simpa only [hw] using hb
  | sendAck i k => rcases step_sendAck s i k with hs | ⟨_, _, -, hs⟩ <;> rw [hs] <;> simpa only [hw] using hb
  | ackOk i k => rcases step_ackOk s i k with hs | hs <;> rw [hs] <;> simpa only [hw] using hb

/-- everything that holds together in a stable chain -/
structure InOrder (n start : ℕ) (log : ReplayLog) (s : Nodes) : Prop where
  path : OnPath n start log s
  back : OnReturn n start s
  bounded : Bounded start s

theorem inOrder_run (n start : ℕ) (hn : 0 < n) (hs : start < 2 ^ 31) (log : ReplayLog) (es : List Event)
    (hm : Meets step Rules (stable n start log) es) : InOrder n start log (run step (stable n start log) es) := by
  refine run_inv_of_meets step Rules (InOrder n start log) ?_ _ es ?_ hm
  · intro s e h hr
    exact ⟨onPath_step h.path hn e hr.2, onReturn_step h.back h.path h.bounded e, bounded_step h.path h.bounded e hr.1⟩
  · refine ⟨onPath_stable n start log, onReturn_stable n start log, ?_⟩
    have hnum : (stable n start log 0).numbered = [] := by
      unfold stable
      split_ifs <;> rfl
    simp only [Bounded, hnum, List.length_nil]
    push_cast
    omega

/-- **Log agreement.** In a stable chain of `n` nodes, after every run that keeps the rules: the list a node has passed
to `Storage::write` is a prefix of the list the head has numbered, whose numbers are consecutive, and for neighbours
`U.commitSeq ≤ D.commitSeq ≤ D.writeSeq ≤ U.writeSeq + 1`. -/
theorem log_agreement (n start : ℕ) (hn : 0 < n) (hs : start < 2 ^ 31) (es : List Event)
    (hm : Meets step Rules (stable n start ReplayLog.empty) es) :
    let s := run step (stable n start ReplayLog.empty) es
    (∀ (k : ℕ) (e : Entry), (s 0).numbered[k]? = some e → e.seqNum = start + 1 + k) ∧
      (∀ i < n, (s i).written <+: (s 0).numbered) ∧
      ∀ i, i + 1 < n → (s i).commitSeq ≤ (s (i + 1)).commitSeq ∧ (s (i + 1)).commitSeq ≤ (s (i + 1)).writeSeq ∧
        (s (i + 1)).writeSeq ≤ (s i).writeSeq + 1 := by
  intro s
  obtain ⟨hp, hb, -⟩ : InOrder n start ReplayLog.empty s := inOrder_run n start hn hs _ es hm
  refine ⟨hp.head.numbering, ?_, ?_⟩
  · intro i hi
    have hw : (s i).written = (s 0).numbered.take _ := (hp.node i hi).written
    rw [hw]
    exact List.take_prefix _ _
  · intro i hi
    have hd := hp.node (i + 1) hi
    have hu := hp.node i (by omega)
    have htop := (hp.link i hi).top
    have hd1 : (s (i + 1)).writeSeq ≤ (s (i + 1)).path.top := hd.writeSeq_le_top.1
    have hu1 : (s i).path.top ≤ (s i).writeSeq + 1 := hu.writeSeq_le_top.2
    refine ⟨(hb.link i hi).commit, ?_, by omega⟩
    calc (s (i + 1)).commitSeq ≤ (s (i + 1)).sentTop := (hb.node (i + 1) hi).upper
      _ ≤ (s (i + 1)).writeSeq := sentTop_le _

/-- a client request -/
def request (seconds : ℤ) : WriteRequest := ⟨[7], 0, ⟨"10.0.0.1", 1, ⟨seconds, 0⟩⟩⟩

/-- two nodes: a write goes down to the tail, is written at both nodes, and its commit comes back -/
def downAndBack : List Event :=
  [.act 0 (.write (.addToLog (request 1))), .act 0 (.write (.takeSeq 0)), .act 0 (.write (.pushEntry 0)),
    .act 0 (.rwb .poll), .act 0 (.rwb .spin), .act 0 (.rwb .pop), .sendRelay 0, .act 1 (.relay 0 .addToLog),
    .act 1 (.relay 0 .pushEntry), .act 0 (.rwb .retry), .sendRelay 0, .act 1 (.relay 1 .addToLog), .relayOk 0,
    .act 1 (.rwb .poll), .act 1 (.rwb .spin), .act 1 (.rwb .pop), .act 1 (.rwb .leave), .act 1 (.rwb .write),
    .act 1 (.rwb .bump), .act 1 (.rwb .send), .act 1 (.ack 0 .start), .act 1 (.ack 0 .pop), .act 1 (.ack 0 .commit),
    .act 1 (.ack 0 .log), .act 1 (.ack 0 .bump), .sendAck 1 0, .act 0 (.rwb .write), .act 0 (.rwb .bump),
    .act 0 (.rwb .send), .act 0 (.ack 0 .start), .act 0 (.ack 0 .pop), .act 0 (.ack 0 .commit), .act 0 (.ack 0 .log),
    .act 0 (.ack 0 .bump), .act 0 (.ack 0 .leave), .ackOk 1 0]

theorem log_agreement_two_nodes :
    Meets step Rules (stable 2 0 ReplayLog.empty) downAndBack ∧
      (run step (stable 2 0 ReplayLog.empty) downAndBack 0).commitSeq = 1 ∧
      (run step (stable 2 0 ReplayLog.empty) downAndBack 1).written <+:
        (run step (stable 2 0 ReplayLog.empty) downAndBack 0).numbered := by
  have hm : Meets step Rules (stable 2 0 ReplayLog.empty) downAndBack := by decide +kernel
  refine ⟨hm, by decide +kernel, ?_⟩
  exact (log_agreement 2 0 (by decide) (by decide) downAndBack hm).2.1 1 (by decide)

end ChainedBlockStorage.Chain
