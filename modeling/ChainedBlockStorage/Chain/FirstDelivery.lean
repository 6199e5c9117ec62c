/-
The first delivery of each number on a stable chain.

The head decides the order by `currentSeq++`, but its `addToLog` has run before, so two requests of one client can take
their numbers the other way round. A node behind the head sees the numbers in order and decides by timestamp.

- `first_delivery_queued`: in every run in which each client's requests take numbers in the order of their timestamps,
  the first delivery of a number to a node queues it, and a node that has answered OK has queued the number.
- `numbered_out_of_order`: a run in which the second number is refused.
-/
import ChainedBlockStorage.Chain.ClientCalls
import ChainedBlockStorage.Chain.Handover

namespace ChainedBlockStorage.Chain

open Run Tables

/-- the number has been queued, or `pushEntry` is next -/
def RelayPhase.queued : RelayPhase → Bool
  | .added | .pushed => true
  | _ => false

/-- the first handler of each number queues it, and every OK answers for a number that is queued -/
def FirstQueued (n : ℕ) (s : Nodes) : Prop := ∀ j < n, (∀ h ∈ (s j).relays, h.first = true → h.phase.queued = true) ∧
  ∀ h ∈ (s j).relays, h.phase.ok = true → ∃ g ∈ (s j).relays, g.req.seqNum = h.req.seqNum ∧ g.phase.queued = true

instance (n : ℕ) (s : Nodes) : Decidable (FirstQueued n s) := inferInstanceAs (Decidable (∀ j < n, _ ∧ _))

/-- a request takes its number when it is later than all its client has in the log of the start and has numbered; no
push behind the head meets a number that is equal as an int -/
def InTurn (log : ReplayLog) (s : Nodes) : Event → Prop
  | .act i (.write (.takeSeq k)) => ∀ r ∈ (s i).adding[k]?, log.Later r.clientRequestId ∧
      ∀ x ∈ (s i).numbered, x.reqId.identifier = r.clientRequestId.identifier →
        x.reqId.timestamp < r.clientRequestId.timestamp
  | .act i (.relay k .pushEntry) => NoClash s i (.act i (.relay k .pushEntry))
  | _ => True

instance (log : ReplayLog) (s : Nodes) : ∀ e, Decidable (InTurn log s e)
  | .act i (.write (.takeSeq k)) => inferInstanceAs (Decidable (∀ r ∈ (s i).adding[k]?, log.Later r.clientRequestId ∧
      ∀ x ∈ (s i).numbered, x.reqId.identifier = r.clientRequestId.identifier →
        x.reqId.timestamp < r.clientRequestId.timestamp))
  | .act i (.relay k .pushEntry) => inferInstanceAs (Decidable (NoClash s i (.act i (.relay k .pushEntry))))
  | .act _ (.relay _ .addToLog) | .act _ (.relay _ .drop) | .act _ (.write (.addToLog _))
  | .act _ (.write (.pushEntry _)) | .act _ (.rwb _) | .act _ (.ack _ _) | .act _ (.ackLogEntry _)
  | .sendRelay _ | .relayOk _ | .sendAck _ _ | .ackOk _ _ => isTrue trivial

/-- a request takes its number when it is later than all its client has in the log of the start and has numbered -/
def TimestampTurn (log : ReplayLog) (s : Nodes) : Event → Prop
  | .act i (.write (.takeSeq k)) => ∀ r ∈ (s i).adding[k]?, log.Later r.clientRequestId ∧
      ∀ x ∈ (s i).numbered, x.reqId.identifier = r.clientRequestId.identifier →
        x.reqId.timestamp < r.clientRequestId.timestamp
  | _ => True

instance (log : ReplayLog) (s : Nodes) : ∀ e, Decidable (TimestampTurn log s e)
  | .act i (.write (.takeSeq k)) => inferInstanceAs (Decidable (∀ r ∈ (s i).adding[k]?, log.Later r.clientRequestId ∧
      ∀ x ∈ (s i).numbered, x.reqId.identifier = r.clientRequestId.identifier →
        x.reqId.timestamp < r.clientRequestId.timestamp))
  | .act _ (.relay _ _) | .act _ (.write (.addToLog _)) | .act _ (.write (.pushEntry _)) | .act _ (.rwb _)
  | .act _ (.ack _ _) | .act _ (.ackLogEntry _) | .sendRelay _ | .relayOk _ | .sendAck _ _ | .ackOk _ _ => isTrue trivial

theorem InTurn.timestamp {log : ReplayLog} {s : Nodes} {e : Event} (h : InTurn log s e) : TimestampTurn log s e := by
  unfold TimestampTurn
  split
  · exact h
  · trivial

/-! ## The head -/

/-- what `Write` numbers is in order -/
structure HeadOrder (start : ℤ) (log : ReplayLog) (x : Node) : Prop where
  next : start < x.currentSeq
  numbered : ∀ e ∈ x.numbered, start < e.seqNum ∧ e.seqNum < x.currentSeq ∧ log.Later e.reqId
  order : TimestampOrder (· ∈ x.numbered)
  pushing : ∀ e ∈ x.pushing, e ∈ x.numbered

section HeadOrder

variable {start : ℤ} {log : ReplayLog} {x : Node}

theorem HeadOrder.takeSeq (h : HeadOrder start log x) (k : ℕ)
    (hturn : ∀ r ∈ x.adding[k]?, log.Later r.clientRequestId ∧ ∀ y ∈ x.numbered,
      y.reqId.identifier = r.clientRequestId.identifier → y.reqId.timestamp < r.clientRequestId.timestamp) :
    HeadOrder start log (x.writeAct (.takeSeq k)) := by
  simp only [Node.writeAct]
  split
  · exact h
  · rename_i r hk
    obtain ⟨hlater, hall⟩ := hturn r hk
    have hnext := h.next
    refine ⟨by simp only; omega, fun e he => ?_, fun a b ha hb hc hlt => ?_, fun e he => ?_⟩
    · rcases List.mem_append.1 he with he | he
      · obtain ⟨h1, h2, h3⟩ := h.numbered e he
        exact ⟨h1, by simp only; omega, h3⟩
      · rw [List.mem_singleton.1 he]
        exact ⟨hnext, Int.lt_succ _, hlater⟩
    · rcases List.mem_append.1 hb with hb | hb
      · rcases List.mem_append.1 ha with ha | ha
        · exact h.order a b ha hb hc hlt
        · -- the new number is the largest
          obtain rfl := List.mem_singleton.1 ha
          have := (h.numbered b hb).2.1
          simp only [WriteRequest.entry] at hlt
          omega
      · obtain rfl := List.mem_singleton.1 hb
        rcases List.mem_append.1 ha with ha | ha
        · exact hall a ha hc
        · obtain rfl := List.mem_singleton.1 ha
          exact absurd hlt (lt_irrefl _)
    · rcases List.mem_append.1 he with he | he
      · exact List.mem_append_left _ (h.pushing e he)
      · exact List.mem_append_right _ he

theorem HeadOrder.congr {y : Node} (h : HeadOrder start log x) (hy : y.intake = x.intake) : HeadOrder start log y := by
  have h1 : y.currentSeq = x.currentSeq := congrArg Intake.currentSeq hy
  have h2 : y.numbered = x.numbered := congrArg Intake.numbered hy
  have h3 : y.pushing = x.pushing := congrArg Intake.pushing hy
  exact ⟨by rw [h1]; exact h.next, by rw [h1, h2]; exact h.numbered, by rw [h2]; exact h.order,
    by rw [h2, h3]; exact h.pushing⟩

theorem HeadOrder.act (h : HeadOrder start log x) (a : Act)
    (hturn : ∀ k, a = .write (.takeSeq k) → ∀ r ∈ x.adding[k]?, log.Later r.clientRequestId ∧ ∀ y ∈ x.numbered,
      y.reqId.identifier = r.clientRequestId.identifier → y.reqId.timestamp < r.clientRequestId.timestamp) :
    HeadOrder start log (x.act a) := by
  by_cases ha : ∃ b, a = .write b
  · obtain ⟨b, rfl⟩ := ha
    unfold Node.act
    split
    · exact h
    cases b with
    | takeSeq k => exact h.takeSeq k (hturn k rfl)
    | addToLog request =>
      simp only [Node.writeAct]
      repeat' split
      all_goals exact ⟨h.next, h.numbered, h.order, h.pushing⟩
    | pushEntry k =>
      have hsub : ∀ e ∈ x.pushing.eraseIdx k, e ∈ x.numbered := fun e he => h.pushing e (List.mem_of_mem_eraseIdx he)
      simp only [Node.writeAct]
      repeat' split
      all_goals first
        | exact h
        | exact ⟨h.next, h.numbered, h.order, hsub⟩
  · exact h.congr (act_intake x a fun b hb => ha ⟨b, hb⟩)

theorem HeadOrder.wire (h : HeadOrder start log x) (w : Wire) : HeadOrder start log (x.wire w) :=
  h.congr (wire_intake x w)

/-- what is numbered stays numbered -/
theorem step_numbered (s : Nodes) (e : Event) (j : ℕ) : ∀ y ∈ (s j).numbered, y ∈ (step s e j).numbered := by
  intro y hy
  refine step_node_inv (fun n => y ∈ n.numbered) s e j hy (fun a _ => ?_) fun n w hn => ?_
  · rcases act_numbered (s j) a with hn | ⟨-, r, -, -, hn⟩ <;> rw [hn]
    · exact hy
    · exact List.mem_append_left _ hy
  · rwa [wire_numbered]

end HeadOrder

/-! ## Behind the head -/

/-- no `Write` handler runs at the node -/
structure Quiet (x : Node) : Prop where
  headService : x.headService = false
  adding : x.adding = []
  pushing : x.pushing = []

theorem Quiet.congr {x y : Node} (h : Quiet x) (hconf : y.conf = x.conf) (hy : y.intake = x.intake) : Quiet y :=
  ⟨(congrArg Conf.headService hconf).trans h.headService, (congrArg Intake.adding hy).trans h.adding,
    (congrArg Intake.pushing hy).trans h.pushing⟩

theorem Quiet.act {x : Node} (h : Quiet x) (a : Act) : Quiet (x.act a) := by
  by_cases ha : ∃ b, a = .write b
  · obtain ⟨b, rfl⟩ := ha
    unfold Node.act
    split
    · exact h
    · simpa only [writeAct_quiet h.headService h.adding h.pushing] using h
  · exact h.congr (act_conf x a) (act_intake x a fun b hb => ha ⟨b, hb⟩)

theorem Quiet.wire {x : Node} (h : Quiet x) (w : Wire) : Quiet (x.wire w) := h.congr (wire_conf x w) (wire_intake x w)

theorem step_quiet {s : Nodes} (e : Event) (j : ℕ) (h : Quiet (s j)) : Quiet (step s e j) :=
  step_node_inv Quiet s e j h (fun a _ => h.act a) fun _ w hn => hn.wire w

/-! ## The chain -/

structure InSequence (n start : ℕ) (log : ReplayLog) (s : Nodes) : Prop where
  conf : ∀ i, (s i).conf = (stable n start log i).conf
  head : HeadOrder start log (s 0)
  top : (s 0).relays = []
  quiet : ∀ i, i ≠ 0 → Quiet (s i)
  waiting : ∀ i, Waiting (s i)
  link : ∀ i, i + 1 < n → Handover start log (· ∈ (s 0).numbered) (i + 1) (s i) (s (i + 1))

section InSequence

variable {n start : ℕ} {log : ReplayLog} {s : Nodes}

/-- what a node queues was numbered by the head -/
theorem InSequence.pushes (h : InSequence n start log s) (e : Event) {i : ℕ} (hi : i < n) :
    ∀ x ∈ s.pushes i e, x ∈ (s 0).numbered := by
  intro x hx
  unfold Nodes.pushes at hx
  split at hx
  · rename_i m k
    split_ifs at hx with hm
    · subst hm
      have hmem := List.mem_of_getElem? (Option.mem_toList.1 hx)
      by_cases h0 : m = 0
      · subst h0
        exact h.head.pushing x hmem
      · rw [(h.quiet m h0).pushing] at hmem
        cases hmem
    · cases hx
  · rename_i m k
    split at hx
    · rename_i request f hk
      split_ifs at hx with hm
      · subst hm
        rw [List.mem_singleton.1 hx]
        have hmem := List.mem_of_getElem? hk
        cases m with
        | zero =>
          rw [h.top] at hmem
          cases hmem
        | succ m =>
          obtain ⟨⟨y, hy, hreq⟩, -⟩ := (h.link m hi).handlers _ hmem
          simp only at hreq
          rwa [hreq, entry_relayRequest]
      · cases hx
    · cases hx
  · cases hx

theorem step_inSequence_of (h : InSequence n start log s) (e : Event) (hturn : TimestampTurn log s e)
    (hclash : ∀ i, i + 1 < n → NoClash s (i + 1) e) : InSequence n start log (step s e) := by
  have hconf : ∀ i, (step s e i).conf = (stable n start log i).conf := fun i => (step_conf s e i).trans (h.conf i)
  have hhead : HeadOrder start log (step s e 0) := by
    refine step_node_inv (HeadOrder start log) s e 0 h.head (fun a ha => ?_) fun _ w hn => hn.wire w
    apply h.head.act a
    intro k hk
    subst ha hk
    exact hturn
  refine ⟨hconf, hhead, relays_head_step h.conf h.top e, fun i hi => step_quiet e i (h.quiet i hi),
    fun i => step_waiting e i (h.waiting i), fun i hi => ?_⟩
  have hlink := (h.link i hi).mono (step_numbered s e 0)
  refine hlink.step (by omega) (h.waiting i) hhead.order (fun x hx _ => (hhead.numbered x hx).2.2)
    (fun m hm => (conf_downstream (h.conf i) hm).2) (fun m hm => ?_) ?_ (h.quiet (i + 1) (by omega)).headService
    (fun x hx => ?_) (hclash i hi)
  · have := (conf_downstream (h.conf m) hm).2
    omega
  · rw [conf_state (h.conf i) (by omega)]
    exact relays_roleOf hi
  · obtain ⟨l, -, hl, hmem⟩ := step_queued s e i
    exact (hmem x hx).imp_right fun hx => step_numbered s e 0 x (h.pushes e (by omega) x (hl x hx))

theorem step_inSequence (h : InSequence n start log s) (e : Event) (hturn : InTurn log s e) :
    InSequence n start log (step s e) := by
  refine step_inSequence_of h e hturn.timestamp fun i _ x hx => ?_
  -- behind the head only relayed entries are pushed
  unfold Nodes.pushes at hx
  split at hx
  · rename_i m k
    split_ifs at hx with hm
    · rw [hm, (h.quiet (i + 1) (by omega)).pushing] at hx
      simp at hx
    · cases hx
  · rename_i m k
    by_cases hm : m = i + 1
    · subst hm
      exact hturn x hx
    · simp [hm] at hx
      split at hx <;> simp at hx
  · cases hx

theorem inSequence_start (n start : ℕ) (log : ReplayLog) : InSequence n start log (stable n start log) := by
  have hwait : ∀ i, Waiting (stable n start log i) := by
    intro i
    obtain ⟨a, b, c, d, acks, e⟩ := stable_idle n start log i
    rw [e]
    exact ⟨by simp [Node.idle], by simp [Node.idle, Rwb.inHand]⟩
  refine ⟨fun _ => rfl, ?_, ?_, fun i hi => ?_, hwait, fun i hi => ?_⟩
  · obtain ⟨a, b, c, d, acks, e⟩ := stable_idle n start log 0
    rw [e]
    constructor <;> simp [Node.idle, TimestampOrder]
  · obtain ⟨a, b, c, d, acks, e⟩ := stable_idle n start log 0
    rw [e]
    rfl
  · have hh := conf_headService (x := stable n start log i) rfl hi
    obtain ⟨a, b, c, d, acks, e⟩ := stable_idle n start log i
    exact ⟨hh, by rw [e]; rfl, by rw [e]; rfl⟩
  · obtain ⟨a, b, c, d, acks, e⟩ := stable_idle n start log i
    obtain ⟨a', b', c', d', acks', e'⟩ := stable_idle n start log (i + 1)
    rw [e, e']
    constructor <;> simp [Node.idle, Rwb.relaying, Rwb.inHand, Node.delivered]

end InSequence

/-- **First deliveries.** After every run of a stable chain in which each client's requests take numbers in the order of
their timestamps: the first `RelayWrite` that delivers a number to a node has queued it there, and a node that has
answered OK has queued the number. -/
theorem first_delivery_queued (n start : ℕ) (log : ReplayLog) (es : List Event)
    (h : Meets step (InTurn log) (stable n start log) es) : FirstQueued n (run step (stable n start log) es) := by
  have hinv := run_inv_of_meets step (InTurn log) (InSequence n start log) (fun s e hs => step_inSequence hs e) _ es
    (inSequence_start n start log) h
  intro j hj
  cases j with
  | zero => simp [hinv.top]
  | succ i =>
    have hlink := hinv.link i hj
    have hpos : ∀ y ∈ (run step (stable n start log) es (i + 1)).relays, (start : ℤ) < y.req.seqNum := by
      intro y hy
      obtain ⟨⟨x, hx, hreq⟩, -⟩ := hlink.handlers y hy
      rw [hreq]
      exact (hinv.head.numbered x hx).1
    have hfirst : ∀ y ∈ (run step (stable n start log) es (i + 1)).relays, y.first = true → y.phase.queued = true := by
      intro y hy hf
      rcases hlink.queued y hy hf (hpos y hy) with hp | hp <;> rw [hp] <;> rfl
    refine ⟨hfirst, fun y hy hok => ?_⟩
    have hran : y.phase.ran = true := by cases hp : y.phase <;> simp_all [RelayPhase.ok, RelayPhase.ran]
    obtain ⟨z, hz, hf, hzy⟩ := hlink.first _ (hpos y hy) (delivered_iff.2 ⟨y, hy, hran, rfl⟩)
    exact ⟨z, hz, hzy, hfirst z hz hf⟩

/-- node 0 pops its next entry and relays it; handler `k` of node 1 takes it to `addToLog` and `pushEntry` -/
def relayDown (k : ℕ) : List Event :=
  [.act 0 (.rwb .poll), .act 0 (.rwb .spin), .act 0 (.rwb .pop), .sendRelay 0, .act 1 (.relay k .addToLog),
    .act 1 (.relay k .pushEntry), .relayOk 0, .act 0 (.rwb .write), .act 0 (.rwb .bump), .act 0 (.rwb .send)]

/-- both requests are in the log of the head, then number 1 goes to the one `first` -/
def bothAdded (first : ℕ) : List Event :=
  [.act 0 (.write (.addToLog (requestAt 1))), .act 0 (.write (.addToLog (requestAt 2))),
    .act 0 (.write (.takeSeq first)), .act 0 (.write (.takeSeq 0)), .act 0 (.write (.pushEntry 0)),
    .act 0 (.write (.pushEntry 0))]

theorem first_delivery_queued_in_turn :
    FirstQueued 2 (run step (stable 2 0 ReplayLog.empty) (bothAdded 0 ++ relayDown 0 ++ relayDown 1)) ∧
      ((run step (stable 2 0 ReplayLog.empty) (bothAdded 0 ++ relayDown 0 ++ relayDown 1)) 1).queued.length = 2 :=
  ⟨first_delivery_queued 2 0 ReplayLog.empty _ (by decide +kernel), by decide +kernel⟩

/-- **Number 2 is refused.** The later request has taken number 1. -/
theorem numbered_out_of_order :
    ¬ FirstQueued 2 (run step (stable 2 0 ReplayLog.empty) (bothAdded 1 ++ relayDown 0 ++ relayDown 1)) := by
  decide +kernel

end ChainedBlockStorage.Chain
