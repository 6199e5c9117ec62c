/-
A middle node fails: `ChangeMode` on its two neighbours, interleaved with every thread of the chain.

Node u + 1 fails. The master first calls `ChangeMode` on node u + 2, which links to node u and reports its `writeSeq`,
then on node u, which links to node u + 2, takes the part of its sent list behind the reported number, and relays it
entry by entry. Meanwhile `relay_write_background` of node u goes on: a write that the failed node has accepted is in
its hand until `sentList.pushEntry`.

`getSentListRange` is taken to return every entry from the start on, and a resent request to carry the client's
request id; `resend_exactly` and `resend_eq_relay` say when the code does so.

- `resent_or_received`: when `ChangeMode` has returned on node u, every number the failed node had accepted has reached
  node u + 2 or was resent, in every run in which no such number is in hand when the sent list is read.
- `accepted_in_hand_is_lost`: an accepted number in hand at that moment is recorded nowhere.
-/
import ChainedBlockStorage.Chain.Resend
import ChainedBlockStorage.Chain.Traces

namespace ChainedBlockStorage.Chain

open Tables Run Storage

/-! ## The machine -/

/-- where `ChangeMode` on node u is -/
inductive ChangePhase where
  | idle
  /-- `downstream` is node u + 2; `getSentListRange` is next -/
  | linked
  /-- the entries still to send -/
  | sending (l : List (ℤ × SentListEntry))
  /-- inside the call that resends `x`, answered by handler `k` of node u + 2 -/
  | calling (x : ℤ × SentListEntry) (l : List (ℤ × SentListEntry)) (k : ℕ)
  | returned
deriving DecidableEq

structure Failover where
  nodes : Nodes
  failed : Bool
  /-- `lastReceivedSeqNum` of node u + 2 -/
  reported : Option UInt64
  phase : ChangePhase
  /-- history: the numbers whose `RelayWrite` from node u the failed node answered OK -/
  accepted : List ℤ
  /-- history: the numbers that `ChangeMode` has resent -/
  resent : List ℤ

inductive FailEvent where
  /-- a step of the chain -/
  | node (e : Event)
  | crash
  /-- `ChangeMode` on node u + 2 -/
  | changeDown
  /-- `ChangeMode` on node u begins -/
  | changeUp
  | getSentListRange
  /-- the head of the resend loop -/
  | resend
  /-- the call returns OK -/
  | resendOk
  /-- the call has failed -/
  | resendRetry

/-- `read_sequence_number`: what a written, uncommitted number left in the volume -/
def Node.readSequenceNumber (behind : Buf) (n : Node) (seqNum : ℤ) : Option (List UInt8) :=
  if seqNum ∈ n.committed.map Prod.fst then none
  else (n.written.find? fun e => e.seqNum = seqNum).map fun e => bytes (e.data.buffer behind)

/-- the number of the relay that event `e` ends with an OK of node u + 1 -/
def Nodes.answeredBy (s : Nodes) (u : ℕ) : Event → List ℤ
  | .relayOk i =>
    match (s i).rwb with
    | .calling e j k => if i = u ∧ j = u + 1 ∧ (s j).relayAnswered k then [e.seqNum] else []
    | _ => []
  | _ => []

def Failover.step (behind : Buf) (u : ℕ) (f : Failover) : FailEvent → Failover
  | .node e => { f with nodes := Chain.step f.nodes e, accepted := f.accepted ++ f.nodes.answeredBy u e }
  | .crash => { f with nodes := Function.update f.nodes (u + 1) { f.nodes (u + 1) with rwb := .dead }, failed := true }
  | .changeDown =>
    if f.failed ∧ f.reported = none ∧ ¬ (f.nodes (u + 2)).rwb.isDead then
      { f with
        nodes := Function.update f.nodes (u + 2) { f.nodes (u + 2) with upstream := some u }
        reported := some (UInt64.ofInt (f.nodes (u + 2)).writeSeq) }
    else f
  | .changeUp =>
    if f.reported ≠ none ∧ f.phase = .idle ∧ ¬ (f.nodes u).rwb.isDead then
      { f with
        nodes := Function.update f.nodes u { f.nodes u with downstream := some (u + 2) }
        phase := .linked }
    else f
  | .getSentListRange =>
    match f.phase, f.reported with
    | .linked, some lastSeqNum =>
      if (f.nodes u).rwb.isDead then f
      else { f with phase := .sending ((f.nodes u).sentList.toList.filter fun x => resendStart lastSeqNum ≤ x.1) }
    | _, _ => f
  | .resend =>
    match f.phase with
    | .sending [] => if (f.nodes u).rwb.isDead then f else { f with phase := .returned }
    | .sending (x :: l) =>
      if (f.nodes u).rwb.isDead then f
      else match (f.nodes u).readSequenceNumber behind x.1 with
        -- "Unexpected error occurred"
        | none => { f with phase := .sending l }
        | some data =>
          if (f.nodes (u + 2)).rwb.isDead then f
          else
            { f with
              nodes := f.nodes.wire (u + 2) (.relayArrives ⟨data, x.2.volumeOffset.toUInt64, x.1, x.2.reqId⟩)
              phase := .calling x l (f.nodes (u + 2)).relays.length }
    | _ => f
  | .resendOk =>
    match f.phase with
    | .calling x l k =>
      if (f.nodes (u + 2)).relayAnswered k ∧ ¬ (f.nodes u).rwb.isDead then
        { f with phase := .sending l, resent := f.resent ++ [x.1] }
      else f
    | _ => f
  | .resendRetry =>
    match f.phase with
    | .calling x l _ => { f with phase := .sending (x :: l) }
    | _ => f

def Failover.start (s : Nodes) : Failover := ⟨s, false, none, .idle, [], []⟩

/-- once `ChangeMode` on node u has returned, every number the failed node had accepted is at node u + 2 or
was resent -/
def NothingLost (u : ℕ) (f : Failover) : Prop :=
  f.phase = .returned → ∀ k ∈ f.accepted, (f.nodes (u + 2)).delivered k ∨ k ∈ f.resent

/-- a number that is handed out fits in an int -/
def Nodes.TakesInt (s : Nodes) : Event → Prop
  | .act i (.write (.takeSeq _)) => toInt (s i).currentSeq = (s i).currentSeq
  | _ => True

instance (s : Nodes) : ∀ e, Decidable (s.TakesInt e)
  | .act _ (.write (.takeSeq _)) => inferInstanceAs (Decidable (_ = _))
  | .act _ (.write (.addToLog _)) | .act _ (.write (.pushEntry _)) | .act _ (.relay _ _) | .act _ (.rwb _)
  | .act _ (.ack _ _) | .act _ (.ackLogEntry _) | .sendRelay _ | .relayOk _ | .sendAck _ _ | .ackOk _ _ => isTrue trivial

/-- numbers are ints; no number accepted by the failed node is in hand when the sent list is read, and none is accepted
later, unless node u + 2 has it already -/
def Recorded (u : ℕ) (f : Failover) : FailEvent → Prop
  | .node e => f.nodes.TakesInt e ∧
      ((f.phase = .idle ∨ f.phase = .linked) ∨ ∀ k ∈ f.nodes.answeredBy u e, (f.nodes (u + 2)).delivered k)
  | .getSentListRange => f.phase = .linked → ∀ e ∈ (f.nodes u).rwb.unrecorded.toList, e.seqNum ∈ f.accepted →
      (f.nodes (u + 2)).delivered e.seqNum
  | _ => True

instance (u : ℕ) (f : Failover) : ∀ e, Decidable (Recorded u f e)
  | .node _ => inferInstanceAs (Decidable (_ ∧ _))
  | .getSentListRange => inferInstanceAs (Decidable (_ → _))
  | .crash | .changeDown | .changeUp | .resend | .resendOk | .resendRetry => isTrue trivial

/-! ## What the upstream node has on record -/

/-- acks come only from below, for numbers in `D`, and there is no thread of a tail -/
structure Acked (D : ℤ → Prop) (n : Node) : Prop where
  acks : ∀ t ∈ n.acks, t.background = false ∧ D (toInt t.seq)
  committed : ∀ x ∈ n.committed, D (toInt x.1)

/-- each of the numbers `acc` is in `D`, in hand, or in the sent list, unless the node is dead -/
structure Accounted (start : ℤ) (D : ℤ → Prop) (acc : List ℤ) (n : Node) : Prop where
  acked : Acked D n
  sent : ∀ x ∈ n.sentList, x.1 ∈ n.written.map Entry.seqNum ∧ Fits start x.1
  late : ∀ e, n.rwb = .bump e ∨ n.rwb = .send e → e.seqNum ∈ n.written.map Entry.seqNum
  account : ∀ k ∈ acc, D k ∨ (∃ e, n.rwb.unrecorded = some e ∧ e.seqNum = k) ∨ (∃ x ∈ n.sentList, x.1 = k) ∨
    n.rwb = .dead

section Accounted

variable {start : ℤ} {D D' : ℤ → Prop} {acc : List ℤ} {n n' : Node}

theorem Acked.mono (h : Acked D n) (hD : ∀ k, D k → D' k) : Acked D' n :=
  ⟨fun t ht => ⟨(h.acks t ht).1, hD _ (h.acks t ht).2⟩, fun x hx => hD _ (h.committed x hx)⟩

theorem Accounted.mono (h : Accounted start D acc n) (hD : ∀ k, D k → D' k) : Accounted start D' acc n :=
  ⟨h.acked.mono hD, h.sent, h.late, fun k hk => (h.account k hk).imp_left (hD k)⟩

theorem Acked.setAck (h : Acked D n) {k : ℕ} {t : AckThread} (hk : n.acks[k]? = some t) (ph : AckPhase) :
    Acked D (n.setAck k { t with phase := ph }) :=
  { h with
    acks := fun x hx => by
      rcases List.mem_or_eq_of_mem_set hx with hx | rfl
      · exact h.acks x hx
      · exact h.acks t (List.mem_of_getElem? hk) }

theorem Acked.congr (h : Acked D n) (h1 : n'.acks = n.acks) (h2 : n'.committed = n.committed) : Acked D n' :=
  ⟨by rw [h1]; exact h.acks, by rw [h2]; exact h.committed⟩

theorem Accounted.congr (h : Accounted start D acc n) (h1 : n'.acks = n.acks) (h2 : n'.committed = n.committed)
    (h3 : n'.sentList = n.sentList) (h4 : n'.written = n.written) (h5 : n'.rwb = n.rwb) : Accounted start D acc n' :=
  ⟨h.acked.congr h1 h2, by rw [h3, h4]; exact h.sent, by rw [h4, h5]; exact h.late,
    by rw [h3, h5]; exact h.account⟩

theorem Acked.ackAct (h : Acked D n) (k : ℕ) (a : AckAct) : Acked D (n.ackAct k a) := by
  have hstep := ackAct_step n k a
  generalize n.ackAct k a = x at hstep ⊢
  cases hstep with
  | stay => exact h
  | takeUp hk | retire hk =>
    obtain ⟨hb, -⟩ := h.acks _ (List.mem_of_getElem? hk)
    cases hb
  | turn hk | refuse hk | leave hk | retry hk => exact h.setAck hk _
  | pop hk | log hk | bump hk => exact (h.setAck hk _).congr rfl rfl
  | @commit b q e hk =>
    have hs := h.setAck hk (.stored e)
    refine ⟨hs.acks, fun x hx => ?_⟩
    rcases List.mem_append.1 hx with hx | hx
    · exact h.committed x hx
    · rw [List.mem_singleton.1 hx]
      exact (h.acks _ (List.mem_of_getElem? hk)).2

/-- an ack takes an entry from the sent list only for a number in `D` -/
theorem Accounted.ackAct (h : Accounted start D acc n) (k : ℕ) (a : AckAct) : Accounted start D acc (n.ackAct k a) := by
  have hpath := ackAct_path n k a
  have hw : (n.ackAct k a).written = n.written := congrArg Path.written hpath
  have hr : (n.ackAct k a).rwb = n.rwb := congrArg Path.rwb hpath
  have hl : (∀ x ∈ (n.ackAct k a).sentList, x ∈ n.sentList) ∧
      ∀ x ∈ n.sentList, x ∈ (n.ackAct k a).sentList ∨ D x.1 := by
    have hstep := ackAct_step n k a
    generalize n.ackAct k a = y at hstep ⊢
    cases hstep with
    | @pop b q e l hk hsome =>
      obtain ⟨-, hl⟩ := SentList.popEntry_eq_some hsome
      refine ⟨fun x hx => ((hl x).1 hx).1, fun x hx => ?_⟩
      by_cases hx1 : x.1 = toInt q
      · right
        rw [hx1]
        exact (h.acked.acks _ (List.mem_of_getElem? hk)).2
      · exact Or.inl ((hl x).2 ⟨hx, hx1⟩)
    | _ => exact ⟨fun _ hx => hx, fun _ hx => Or.inl hx⟩
  refine ⟨h.acked.ackAct k a, fun x hx => by rw [hw]; exact h.sent x (hl.1 x hx), by rw [hw, hr]; exact h.late,
    fun k hk => ?_⟩
  rw [hr]
  rcases h.account k hk with hd | hu | ⟨x, hx, rfl⟩ | hd
  · exact Or.inl hd
  · exact Or.inr (Or.inl hu)
  · rcases hl.2 x hx with hx | hd
    · exact Or.inr (Or.inr (Or.inl ⟨x, hx, rfl⟩))
    · exact Or.inl hd
  · exact Or.inr (Or.inr (Or.inr hd))

/-- `relay_write_background` takes an accepted number from its hand to the sent list -/
theorem Accounted.rwbAct (h : Accounted start D acc n) (hn : Numbers start n.path) (a : RwbAct) :
    Accounted start D acc (n.rwbAct a) := by
  -- a step before the relay is over
  have hearly : ∀ (r : Rwb) (q : PendingQueue), n.rwb.unrecorded = none → n.rwb ≠ .dead →
      (∀ e, r ≠ .bump e ∧ r ≠ .send e) → Accounted start D acc { n with rwb := r, pendingQueue := q } := by
    intro r q hu hd hr
    refine ⟨h.acked.congr rfl rfl, h.sent, fun e he => absurd he (by simp [(hr e).1, (hr e).2]), fun k hk => ?_⟩
    rcases h.account k hk with h1 | ⟨e, he, -⟩ | h3 | h4
    · exact Or.inl h1
    · rw [hu] at he
      cases he
    · exact Or.inr (Or.inr (Or.inl h3))
    · exact absurd h4 hd
  cases a with
  | poll | spin | pop | leave | retry =>
    simp only [Node.rwbAct]
    repeat' split
    all_goals first
      | exact h
      | exact hearly _ _ (by simp only [*, Rwb.unrecorded]) (by simp [*]) (by simp)
  | write =>
    simp only [Node.rwbAct]
    split
    · rename_i e hr
      have haccount := h.account
      rw [hr] at haccount
      refine ⟨h.acked.congr rfl rfl, fun x hx => ?_, fun x hx => ?_, fun k hk => ?_⟩
      · rw [List.map_append]
        exact ⟨List.mem_append_left _ (h.sent x hx).1, (h.sent x hx).2⟩
      · rcases hx with hx | hx
        · cases hx
          simp
        · cases hx
      · simpa [Rwb.unrecorded] using haccount k hk
    · exact h
  | bump =>
    simp only [Node.rwbAct]
    split
    · rename_i e hr
      have haccount := h.account
      rw [hr] at haccount
      refine ⟨h.acked.congr rfl rfl, h.sent, fun x hx => h.late x (Or.inl ?_), fun k hk => ?_⟩
      · rcases hx with hx | hx
        · cases hx
        · cases hx
          exact hr
      · simpa [Rwb.unrecorded] using haccount k hk
    · exact h
  | send =>
    simp only [Node.rwbAct]
    split
    · rename_i e hr
      split
      · exact ⟨h.acked.congr rfl rfl, h.sent, by simp, fun _ _ => Or.inr (Or.inr (Or.inr rfl))⟩
      · rename_i l hl
        have hmem := SentList.pushEntry_eq_some hl
        have hfit : Fits start e.seqNum := hn.held e (by simp [Node.path, hr, Rwb.held])
        refine ⟨h.acked.congr rfl rfl, fun x hx => ?_, by simp, fun k hk => ?_⟩
        · rcases (hmem x).1 hx with hx | rfl
          · exact h.sent x hx
          · simp only [hfit.2]
            exact ⟨h.late e (Or.inr hr), hfit⟩
        · rcases h.account k hk with h1 | ⟨e', he', rfl⟩ | ⟨x, hx, rfl⟩ | h4
          · exact Or.inl h1
          · rw [hr] at he'
            cases he'
            exact Or.inr (Or.inr (Or.inl ⟨_, (hmem _).2 (Or.inr rfl), hfit.2⟩))
          · exact Or.inr (Or.inr (Or.inl ⟨x, (hmem x).2 (Or.inl hx), rfl⟩))
          · rw [hr] at h4
            cases h4
    · exact h

theorem Accounted.act (h : Accounted start D acc n) (hn : Numbers start n.path) (a : Act) : Accounted start D acc
    (n.act a) := by
  unfold Node.act
  split
  · exact h
  cases a with
  | write a =>
    cases a <;> simp only [Node.writeAct] <;> repeat' split
    all_goals exact h.congr rfl rfl rfl rfl rfl
  | relay k a =>
    cases a <;> simp only [Node.relayAct] <;> repeat' split
    all_goals exact h.congr rfl rfl rfl rfl rfl
  | rwb a => exact h.rwbAct hn a
  | ack k a => exact h.ackAct k a
  | ackLogEntry r => exact h.congr rfl rfl rfl rfl rfl

theorem Acked.act (h : Acked D n) (a : Act) : Acked D (n.act a) := by
  unfold Node.act
  split
  · exact h
  cases a with
  | write a =>
    cases a <;> simp only [Node.writeAct] <;> repeat' split
    all_goals exact h.congr rfl rfl
  | relay k a =>
    cases a <;> simp only [Node.relayAct] <;> repeat' split
    all_goals exact h.congr rfl rfl
  | rwb a =>
    cases a <;> simp only [Node.rwbAct] <;> repeat' split
    all_goals exact h.congr rfl rfl
  | ack k a => exact h.ackAct k a
  | ackLogEntry r => exact h.congr rfl rfl

theorem Acked.wire (h : Acked D n) (w : Wire) (hw : ∀ seq, w = .ackArrives seq → D (toInt seq)) :
    Acked D (n.wire w) := by
  cases w with
  | relayArrives q => exact h.congr rfl rfl
  | relaySent _ _ | relayOk =>
    simp only [Node.wire]
    split
    · exact h.congr rfl rfl
    · exact h
  | ackArrives seq =>
    refine ⟨fun t ht => ?_, h.committed⟩
    rcases List.mem_append.1 ht with ht | ht
    · exact h.acks t ht
    · rw [List.mem_singleton.1 ht]
      exact ⟨rfl, hw seq rfl⟩
  | ackSent k j m | ackOk k =>
    simp only [Node.wire]
    split
    · rename_i hk
      exact h.setAck hk _
    · exact h

theorem Accounted.wire (h : Accounted start D acc n) (w : Wire) (hw : ∀ seq, w = .ackArrives seq → D (toInt seq)) :
    Accounted start D acc (n.wire w) := by
  have hacked := h.acked.wire w hw
  cases w with
  | relaySent _ _ | relayOk =>
    simp only [Node.wire] at hacked ⊢
    split
    · rename_i hr
      have haccount := h.account
      simp only [hr, Rwb.unrecorded, reduceCtorEq, false_and, exists_false, or_false, false_or] at haccount
      exact ⟨h.acked.congr rfl rfl, h.sent, by simp, fun k hk => (haccount k hk).imp_right fun hs => Or.inr (Or.inl hs)⟩
    · exact h
  | relayArrives _ | ackArrives _ => exact { h with acked := hacked }
  | ackSent _ _ _ | ackOk _ =>
    simp only [Node.wire] at hacked ⊢
    split
    · rename_i hk
      exact { h with acked := h.acked.setAck hk _ }
    · exact h

theorem Accounted.append (h : Accounted start D acc n) {more : List ℤ}
    (hm : ∀ k ∈ more, ∃ e, n.rwb.unrecorded = some e ∧ e.seqNum = k) : Accounted start D (acc ++ more) n :=
  { h with
    account := fun k hk => (List.mem_append.1 hk).elim (h.account k) fun hk => Or.inr (Or.inl (hm k hk)) }

end Accounted

/-! ## The invariant -/

section FailInv

variable {start : ℤ} {u : ℕ} {f : Failover} {behind : Buf}

/-- what `ChangeMode` on node u has still to send -/
def Failover.rest (f : Failover) : List (ℤ × SentListEntry) :=
  match f.phase with
  | .sending l => l
  | .calling x l _ => x :: l
  | _ => []

/-- node u + 2 has received `k` -/
abbrev Failover.received (u : ℕ) (f : Failover) (k : ℤ) : Prop := (f.nodes (u + 2)).delivered k

structure FailInv (start : ℤ) (u : ℕ) (f : Failover) : Prop where
  numbers : ∀ i, Numbers start (f.nodes i).path
  down : Known start (f.nodes (u + 2))
  lower : start ≤ (f.nodes (u + 2)).writeSeq
  failing : Acked (f.received u) (f.nodes (u + 1))
  up : Accounted start (f.received u) f.accepted (f.nodes u)
  links : ∀ i, ((f.nodes i).upstream = some (u + 1) → i = u + 2) ∧
    ((f.nodes i).upstream = some u → i = u + 1 ∨ i = u + 2)
  fits : ∀ k ∈ f.accepted, Fits start k
  reported : ∀ r, f.reported = some r → ∃ w, r = UInt64.ofInt w ∧ start ≤ w ∧ ∀ k, start < k → k ≤ w → f.received u k
  rest : ∀ x ∈ f.rest, Fits start x.1 ∧ x.1 ∈ (f.nodes u).written.map Entry.seqNum
  covered : (f.phase = .idle ∨ f.phase = .linked) ∨
    ∀ k ∈ f.accepted, f.received u k ∨ k ∈ f.resent ∨ ∃ x ∈ f.rest, x.1 = k

/-! ### A step of the chain -/

/-- the failed node's OK ends the relay of an entry -/
theorem mem_answeredBy {s : Nodes} {e : Event} {k : ℤ} (h : k ∈ s.answeredBy u e) :
    ∃ x c, e = .relayOk u ∧ (s u).rwb = .calling x (u + 1) c ∧ x.seqNum = k ∧ (step s e u).rwb = .write x := by
  unfold Nodes.answeredBy at h
  split at h
  · rename_i i
    split at h
    · rename_i x j c hr
      split_ifs at h with hc
      · obtain ⟨rfl, rfl, ha⟩ := hc
        refine ⟨x, c, rfl, hr, (List.mem_singleton.1 h).symm, ?_⟩
        simp [step, hr, ha, Nodes.wire, Node.wire]
      · cases h
    · cases h
  · cases h

/-- an ack that arrives at node u or u + 1 is for a number node u + 2 has received -/
theorem FailInv.ack_received (h : FailInv start u f) {i k j : ℕ} {seq : ℤ}
    (ht : (f.nodes i).ackTarget k = some (seq, j)) (hj : j = u ∨ j = u + 1) : f.received u (toInt seq) := by
  obtain ⟨b, hk, hup, -, -⟩ := ackTarget_eq_some ht
  have hmem := List.mem_of_getElem? hk
  have hi : i = u + 1 ∨ i = u + 2 := by
    rcases hj with rfl | rfl
    · exact (h.links i).2 hup
    · exact Or.inr ((h.links i).1 hup)
  rcases hi with rfl | rfl
  · exact (h.failing.acks _ hmem).2
  · have hdel := h.down.popped _ hmem rfl
    exact hdel

theorem FailInv.node (h : FailInv start u f) (e : Event) (hc : Recorded u f (.node e)) :
    FailInv start u (f.step behind u (.node e)) := by
  have hD : ∀ k, f.received u k → (step f.nodes e (u + 2)).delivered k := fun k => step_delivered f.nodes e (u + 2)
  have hconf : ∀ i, (step f.nodes e i).upstream = (f.nodes i).upstream := fun i =>
    congrArg Conf.upstream (step_conf f.nodes e i)
  have hack : ∀ j, (j = u ∨ j = u + 1) → ∀ seq, (∃ i k, (f.nodes i).ackTarget k = some (seq, j)) →
      (step f.nodes e (u + 2)).delivered (toInt seq) := by
    intro j hj seq ht
    obtain ⟨i, k, ht⟩ := ht
    exact hD _ (h.ack_received ht hj)
  have htake : ∀ i k, e = .act i (.write (.takeSeq k)) → toInt (f.nodes i).currentSeq = (f.nodes i).currentSeq := by
    rintro i k rfl
    exact hc.1
  have hanswered : ∀ k ∈ f.nodes.answeredBy u e,
      Fits start k ∧ ((f.phase = .idle ∨ f.phase = .linked) ∨ f.received u k) := by
    intro k hk
    obtain ⟨x, c, rfl, hr, rfl, -⟩ := mem_answeredBy hk
    refine ⟨(h.numbers u).held x (by simp [Node.path, hr, Rwb.held]), ?_⟩
    exact hc.2.imp_right fun hall => hall _ hk
  constructor
  · exact step_numbers h.numbers e htake
  · exact step_node_inv (Known start) f.nodes e (u + 2) h.down (fun a _ => h.down.act (h.numbers (u + 2)) a)
      fun n w hn => hn.wire w
  · exact h.lower.trans (step_writeSeq f.nodes e (u + 2))
  · exact step_node_calls (Acked _) f.nodes e (u + 1) (h.failing.mono hD) (fun a _ => (h.failing.mono hD).act a)
      fun n w _ hw hn => hn.wire w fun seq hs => hack (u + 1) (Or.inr rfl) seq (hw seq hs)
  · have hup : Accounted start _ f.accepted (step f.nodes e u) :=
      step_node_calls (Accounted start _ f.accepted) f.nodes e u (h.up.mono hD)
        (fun a _ => (h.up.mono hD).act (h.numbers u) a)
        fun n w _ hw hn => hn.wire w fun seq hs => hack u (Or.inl rfl) seq (hw seq hs)
    apply hup.append
    intro k hk
    obtain ⟨x, c, -, -, hx, hr⟩ := mem_answeredBy hk
    exact ⟨x, by rw [hr]; rfl, hx⟩
  · intro i
    simp only [Failover.step, hconf]
    exact h.links i
  · intro k hk
    exact (List.mem_append.1 hk).elim (h.fits k) fun hk => (hanswered k hk).1
  · intro r hr
    obtain ⟨w, hw, hlow, hall⟩ := h.reported r hr
    exact ⟨w, hw, hlow, fun k h1 h2 => hD k (hall k h1 h2)⟩
  · intro x hx
    exact ⟨(h.rest x hx).1, step_written f.nodes e u (h.rest x hx).2⟩
  · rcases h.covered with hp | hcov
    · exact Or.inl hp
    by_cases hp : f.phase = .idle ∨ f.phase = .linked
    · exact Or.inl hp
    right
    intro k hk
    rcases List.mem_append.1 hk with hk | hk
    · exact (hcov k hk).imp_left (hD k)
    · exact Or.inl (hD k ((hanswered k hk).2.resolve_left hp))

/-! ### The failure and `ChangeMode` -/

/-- a step of one node that changes neither its tables nor what it was sent -/
theorem FailInv.update (h : FailInv start u f) (j : ℕ) (x : Node)
    (hnum : Numbers start x.path) (hdown : j = u + 2 → Known start x ∧ start ≤ x.writeSeq)
    (hfail : j = u + 1 → x.acks = (f.nodes j).acks ∧ x.committed = (f.nodes j).committed)
    (hup : j = u → Accounted start (f.received u) f.accepted x ∧ x.written = (f.nodes j).written)
    (hlink : (x.upstream = some (u + 1) → j = u + 2) ∧ (x.upstream = some u → j = u + 1 ∨ j = u + 2))
    (hrec : j = u + 2 → ∀ k, f.received u k → x.delivered k) :
    FailInv start u { f with nodes := Function.update f.nodes j x } := by
  have hD : ∀ k, f.received u k → (Function.update f.nodes j x (u + 2)).delivered k := by
    intro k hk
    by_cases hj : u + 2 = j
    · subst hj
      simpa using hrec rfl k hk
    · rwa [Function.update_of_ne hj]
  constructor
  · intro i
    by_cases hi : i = j
    · subst hi
      simpa using hnum
    · simpa [hi] using h.numbers i
  · by_cases hj : u + 2 = j
    · subst hj
      simpa using (hdown rfl).1
    · simpa [hj] using h.down
  · by_cases hj : u + 2 = j
    · subst hj
      simpa using (hdown rfl).2
    · simpa [hj] using h.lower
  · by_cases hj : u + 1 = j
    · subst hj
      change Acked _ (Function.update f.nodes (u + 1) x (u + 1))
      rw [Function.update_self]
      exact (h.failing.mono hD).congr (hfail rfl).1 (hfail rfl).2
    · simpa [hj] using h.failing.mono hD
  · by_cases hj : u = j
    · subst hj
      change Accounted start _ f.accepted (Function.update f.nodes u x u)
      rw [Function.update_self]
      exact (hup rfl).1.mono hD
    · simpa [hj] using h.up.mono hD
  · intro i
    by_cases hi : i = j
    · subst hi
      simpa using hlink
    · simpa [hi] using h.links i
  · exact h.fits
  · intro r hr
    obtain ⟨w, hw, hlow, hall⟩ := h.reported r hr
    exact ⟨w, hw, hlow, fun k h1 h2 => hD k (hall k h1 h2)⟩
  · intro y hy
    refine ⟨(h.rest y hy).1, ?_⟩
    have hw := (h.rest y hy).2
    by_cases hj : u = j
    · subst hj
      simp only [Function.update_self, (hup rfl).2]
      exact hw
    · simpa only [Function.update_of_ne hj] using hw
  · exact h.covered.imp_right fun hc k hk => (hc k hk).imp_left (hD k)

theorem FailInv.crash (h : FailInv start u f) : FailInv start u (f.step behind u .crash) := by
  have hnum := h.numbers (u + 1)
  have hupd := h.update (u + 1) { f.nodes (u + 1) with rwb := .dead }
    ⟨hnum.queue, by simp [Node.path, Rwb.held], hnum.pushing, hnum.relays, hnum.next⟩ (by simp) (fun _ => ⟨rfl, rfl⟩)
    (by simp) (h.links (u + 1)) (by simp)
  exact ⟨hupd.numbers, hupd.down, hupd.lower, hupd.failing, hupd.up, hupd.links, hupd.fits, hupd.reported, hupd.rest,
    hupd.covered⟩

theorem FailInv.changeDown (h : FailInv start u f) : FailInv start u (f.step behind u .changeDown) := by
  simp only [Failover.step]
  split_ifs
  swap
  · exact h
  have hupd := h.update (u + 2) { f.nodes (u + 2) with upstream := some u } (h.numbers (u + 2))
    (fun _ => ⟨{ h.down with }, h.lower⟩) (by simp) (by simp) ⟨by simp, by simp⟩ fun _ k hk => hk
  refine ⟨hupd.numbers, hupd.down, hupd.lower, hupd.failing, hupd.up, hupd.links, hupd.fits, fun r hr => ?_, hupd.rest,
    hupd.covered⟩
  cases hr
  refine ⟨_, rfl, h.lower, fun k h1 h2 => ?_⟩
  change (Function.update f.nodes (u + 2) _ (u + 2)).delivered k = true
  rw [Function.update_self]
  exact h.down.upTo k h1 h2

theorem FailInv.changeUp (h : FailInv start u f) : FailInv start u (f.step behind u .changeUp) := by
  simp only [Failover.step]
  split_ifs with hc
  swap
  · exact h
  have hupd := h.update u { f.nodes u with downstream := some (u + 2) } (h.numbers u) (by simp) (by simp)
    (fun _ => ⟨h.up.congr rfl rfl rfl rfl rfl, rfl⟩) (h.links u) (by simp)
  exact ⟨hupd.numbers, hupd.down, hupd.lower, hupd.failing, hupd.up, hupd.links, hupd.fits, hupd.reported,
    by simp [Failover.rest],
    Or.inl (Or.inr rfl)⟩

/-- the start of the resend is the number behind the reported one -/
theorem resendStart_ofInt {w : ℤ} (h0 : -1 ≤ w) (hlt : w + 1 < 2 ^ 31) : resendStart (UInt64.ofInt w) = w + 1 := by
  have hadd : UInt64.ofInt w + 1 = UInt64.ofInt (w + 1) := by rw [UInt64.ofInt_add, UInt64.ofInt_one]
  have hnat : (UInt64.ofInt (w + 1)).toNat = (w + 1).toNat := by
    rw [UInt64.ofInt, Int.emod_eq_of_lt (by omega) (by omega), UInt64.toNat_ofNat', Nat.mod_eq_of_lt (by omega)]
  rw [resendStart, hadd, hnat, Int.toNat_of_nonneg (by omega), toInt_of_lt (by omega) hlt]

theorem Fits.lt {start k : ℤ} (h : Fits start k) : k < 2 ^ 31 := by
  have hk := h.2
  unfold toInt at hk
  have := Int.bmod_lt (x := k) (m := 2 ^ 32) (by decide)
  omega

/-- the start of the resend is not behind the reported number -/
theorem resendStart_le {w k : ℤ} (h0 : 0 ≤ w) (hk : w < k) (hint : toInt k = k) : resendStart (UInt64.ofInt w) ≤ k := by
  have hlt : k < 2 ^ 31 := Fits.lt ⟨hk, hint⟩
  rw [resendStart_ofInt (by omega) (by omega)]
  omega

/-- **The sent list is read.** Each accepted number has been received, or is about to be resent. -/
theorem FailInv.getSentListRange (h0 : 0 ≤ start) (h : FailInv start u f) (hc : Recorded u f .getSentListRange) :
    FailInv start u (f.step behind u .getSentListRange) := by
  cases hp : f.phase with
  | idle | sending | calling | returned => simpa only [Failover.step, hp] using h
  | linked =>
    cases hr : f.reported with
    | none => simpa only [Failover.step, hp, hr] using h
    | some r =>
      simp only [Failover.step, hp, hr]
      split_ifs with hdead
      · exact h
      obtain ⟨w, rfl, hlow, hall⟩ := h.reported r hr
      refine ⟨h.numbers, h.down, h.lower, h.failing, h.up, h.links, h.fits,
        fun r' hr' => h.reported r' (hr.symm ▸ hr'), fun x hx => ?_,
        Or.inr fun k hk => ?_⟩
      · have hx := List.mem_of_mem_filter hx
        exact ⟨(h.up.sent x hx).2, (h.up.sent x hx).1⟩
      · have hfit := h.fits k hk
        rcases h.up.account k hk with hd | ⟨e, he, rfl⟩ | ⟨x, hx, rfl⟩ | hd
        · exact Or.inl hd
        · exact Or.inl (hc hp e (Option.mem_toList.2 he) hk)
        · by_cases hw : x.1 ≤ w
          · exact Or.inl (hall x.1 hfit.1 hw)
          · refine Or.inr (Or.inr ⟨x, List.mem_filter.2 ⟨hx, ?_⟩, rfl⟩)
            simpa using resendStart_le (h0.trans hlow) (Int.not_le.1 hw) hfit.2
        · rw [hd] at hdead
          exact absurd rfl hdead

/-- where `ChangeMode` has got to does not concern the chain -/
theorem FailInv.phase (h : FailInv start u f) (ph : ChangePhase) (l : List ℤ)
    (hrest : ∀ x ∈ ({ f with phase := ph, resent := l } : Failover).rest, Fits start x.1 ∧
      x.1 ∈ (f.nodes u).written.map Entry.seqNum)
    (hcov : ∀ k ∈ f.accepted,
      f.received u k ∨ k ∈ l ∨ ∃ x ∈ ({ f with phase := ph, resent := l } : Failover).rest, x.1 = k) :
    FailInv start u { f with phase := ph, resent := l } :=
  ⟨h.numbers, h.down, h.lower, h.failing, h.up, h.links, h.fits, h.reported, hrest, Or.inr hcov⟩

theorem FailInv.covered_of_phase (h : FailInv start u f) (hp : f.phase ≠ .idle ∧ f.phase ≠ .linked) :
    ∀ k ∈ f.accepted, f.received u k ∨ k ∈ f.resent ∨ ∃ x ∈ f.rest, x.1 = k :=
  h.covered.resolve_left fun hc => hc.elim hp.1 hp.2

/-- a number that cannot be read back is committed, so node u + 2 has received it -/
theorem FailInv.unreadable (h : FailInv start u f) {x : ℤ × SentListEntry} (hx : x ∈ f.rest)
    (hr : (f.nodes u).readSequenceNumber behind x.1 = none) : f.received u x.1 := by
  obtain ⟨hfit, hw⟩ := h.rest x hx
  unfold Node.readSequenceNumber at hr
  split_ifs at hr with hc
  · obtain ⟨c, hcm, hcx⟩ := List.mem_map.1 hc
    have hd := h.up.acked.committed c hcm
    rwa [hcx, hfit.2] at hd
  · obtain ⟨e, he, hex⟩ := List.mem_map.1 hw
    rw [Option.map_eq_none_iff, List.find?_eq_none] at hr
    exact absurd hex (by simpa using hr e he)

theorem FailInv.resend (h : FailInv start u f) : FailInv start u (f.step behind u .resend) := by
  cases hp : f.phase with
  | idle | linked | calling | returned => simpa only [Failover.step, hp] using h
  | sending l =>
    have hcov := h.covered_of_phase (by simp [hp])
    have hrest : f.rest = l := by simp [Failover.rest, hp]
    rw [hrest] at hcov
    cases l with
    | nil =>
      simp only [Failover.step, hp]
      split_ifs
      · exact h
      · exact h.phase .returned f.resent (by simp [Failover.rest]) (by simpa [Failover.rest] using hcov)
    | cons x l =>
      have hmem : x ∈ f.rest := by simp [hrest]
      have hl : ∀ y ∈ l, Fits start y.1 ∧ y.1 ∈ (f.nodes u).written.map Entry.seqNum := fun y hy =>
        h.rest y (by rw [hrest]; exact List.mem_cons_of_mem x hy)
      simp only [Failover.step, hp]
      split
      · exact h
      split
      · rename_i hr
        apply h.phase (.sending l) f.resent hl
        intro k hk
        rcases hcov k hk with hd | hd | ⟨y, hy, rfl⟩
        · exact Or.inl hd
        · exact Or.inr (Or.inl hd)
        · rcases List.mem_cons.1 hy with rfl | hy
          · exact Or.inl (h.unreadable hmem hr)
          · exact Or.inr (Or.inr ⟨y, hy, rfl⟩)
      · rename_i data _
        split
        · exact h
        have hupd := h.update (u + 2)
          ((f.nodes (u + 2)).wire (.relayArrives ⟨data, x.2.volumeOffset.toUInt64, x.1, x.2.reqId⟩))
          (numbers_wire (h.numbers (u + 2)) _ fun q hq => by cases hq; exact (h.rest x hmem).1)
          (fun _ => ⟨h.down.wire _, h.lower⟩) (by simp) (by simp) (h.links (u + 2)) fun _ k => delivered_wire _
        refine hupd.phase (.calling x l _) f.resent 
          (fun y hy => hupd.rest y (by simpa [Failover.rest, hp] using hy)) ?_
        intro k hk
        apply (hcov k hk).imp_left
        intro hd
        change (Function.update f.nodes (u + 2) _ (u + 2)).delivered k = true
        rw [Function.update_self]
        exact delivered_wire _ hd

theorem FailInv.resendOk (h : FailInv start u f) : FailInv start u (f.step behind u .resendOk) := by
  cases hp : f.phase with
  | idle | linked | sending | returned => simpa only [Failover.step, hp] using h
  | calling x l k =>
    have hrest : f.rest = x :: l := by simp [Failover.rest, hp]
    have hcov := h.covered_of_phase (by simp [hp])
    rw [hrest] at hcov
    simp only [Failover.step, hp]
    split_ifs
    swap
    · exact h
    refine h.phase (.sending l) (f.resent ++ [x.1])
      (fun y hy => h.rest y (by rw [hrest]; exact List.mem_cons_of_mem x hy))
      fun c hc => ?_
    rcases hcov c hc with hd | hd | ⟨y, hy, rfl⟩
    · exact Or.inl hd
    · exact Or.inr (Or.inl (List.mem_append_left _ hd))
    · rcases List.mem_cons.1 hy with rfl | hy
      · exact Or.inr (Or.inl (by simp))
      · exact Or.inr (Or.inr ⟨y, hy, rfl⟩)

theorem FailInv.resendRetry (h : FailInv start u f) : FailInv start u (f.step behind u .resendRetry) := by
  cases hp : f.phase with
  | idle | linked | sending | returned => simpa only [Failover.step, hp] using h
  | calling x l k =>
    have hrest : f.rest = x :: l := by simp [Failover.rest, hp]
    have hcov := h.covered_of_phase (by simp [hp])
    have hall := h.rest
    rw [hrest] at hcov hall
    simp only [Failover.step, hp]
    exact h.phase (.sending (x :: l)) f.resent hall hcov

theorem step_failInv (h0 : 0 ≤ start) (f : Failover) (e : FailEvent) (h : FailInv start u f) (hc : Recorded u f e) :
    FailInv start u (f.step behind u e) := by
  cases e with
  | node e => exact h.node e hc
  | crash => exact h.crash
  | changeDown => exact h.changeDown
  | changeUp => exact h.changeUp
  | getSentListRange => exact h.getSentListRange h0 hc
  | resend => exact h.resend
  | resendOk => exact h.resendOk
  | resendRetry => exact h.resendRetry

theorem failInv_start {n start : ℕ} (log : ReplayLog) (hn : u + 2 < n) :
    FailInv start u (Failover.start (stable n start log)) := by
  have hacks : ∀ i, i + 1 < n → (stable n start log i).acks = [] := by
    intro i hi
    simp [stable, Node.idle, show i < n by omega, show i + 1 ≠ n by omega]
  have hacked : ∀ (D : ℤ → Prop) i, i + 1 < n → Acked D (stable n start log i) := by
    intro D i hi
    refine ⟨by simp [hacks i hi], ?_⟩
    obtain ⟨a, b, c, d, acks, e⟩ := stable_idle n start log i
    simp [e, Node.idle]
  constructor
  · intro i
    obtain ⟨a, b, c, d, acks, e⟩ := stable_idle n start log i
    simp only [Failover.start, e]
    constructor <;> simp [Node.path, Node.idle, Rwb.held]
  · obtain ⟨a, b, c, d, acks, e⟩ := stable_idle n start log (u + 2)
    have hhead : (stable n start log (u + 2)).headService = false := by simp [stable, Node.idle, hn]
    have hack : ∀ t ∈ (stable n start log (u + 2)).acks, t.phase = .start := by
      simp only [stable, hn, if_true, Node.idle]
      split <;> simp
    refine ⟨⟨hhead, ?_, ?_⟩, ?_, ?_, ?_, ?_, ?_, fun t ht hp => ?_⟩
    all_goals simp only [Failover.start]
    · simp [e, Node.idle]
    · simp [e, Node.idle]
    · simp [e, Node.idle]
    · simp [e, Node.idle, Rwb.held]
    · simp [e, Node.idle, Rwb.inHand]
    · intro k h1 h2
      simp only [e, Node.idle] at h2
      omega
    · simp [e, Node.idle]
    · rw [hack t ht] at hp
      cases hp
  · obtain ⟨a, b, c, d, acks, e⟩ := stable_idle n start log (u + 2)
    simp [Failover.start, e, Node.idle]
  · exact hacked _ _ (by omega)
  · refine ⟨hacked _ _ (by omega), ?_, ?_, by simp [Failover.start]⟩
    all_goals
      obtain ⟨a, b, c, d, acks, e⟩ := stable_idle n start log u
      simp [Failover.start, e, Node.idle]
  · intro i
    have hup : ∀ j, (stable n start log i).upstream = some j → i = j + 1 := fun j hj => (conf_upstream rfl hj).2
    exact ⟨hup (u + 1), fun h => Or.inl (hup u h)⟩
  · simp [Failover.start]
  · simp [Failover.start]
  · simp [Failover.start, Failover.rest]
  · exact Or.inl (Or.inl rfl)

end FailInv

/-- **Relay and resend.** Let node u + 1 of a stable chain fail at any moment of any run, and its neighbours
be told. If numbers are ints, and no accepted number is in hand when `ChangeMode` reads the sent list of
node u, and none is accepted later, then in every state in which it has returned each accepted number has
reached node u + 2 or was resent. -/
theorem resent_or_received (behind : Buf) (n start u : ℕ) (log : ReplayLog) (hn : u + 2 < n) (es : List FailEvent)
    (h : Meets (Failover.step behind u) (Recorded u) (Failover.start (stable n start log)) es) :
    NothingLost u (run (Failover.step behind u) (Failover.start (stable n start log)) es) := by
  have hinv := run_inv_of_meets (Failover.step behind u) (Recorded u) (FailInv start u)
    (fun f e hf hc => step_failInv (by omega) f e hf hc) _ es (failInv_start log hn) h
  intro hp k hk
  have hcov := hinv.covered_of_phase (by simp [hp]) k hk
  have hrest : (run (Failover.step behind u) (Failover.start (stable n start log)) es).rest = [] := by
    simp [Failover.rest, hp]
  rcases hcov with hd | hr | ⟨x, hx, -⟩
  · exact Or.inl hd
  · exact Or.inr hr
  · rw [hrest] at hx
    cases hx

/-- write 1 at node 0 is accepted by node 1 -/
def acceptedByMiddle : List Event :=
  writeCall (requestAt 1) ++ [.act 0 (.rwb .poll), .act 0 (.rwb .spin), .act 0 (.rwb .pop), .sendRelay 0,
    .act 1 (.relay 0 .addToLog), .act 1 (.relay 0 .pushEntry), .relayOk 0]

/-- node 0 writes it and records it -/
def recordedUpstream : List Event := [.act 0 (.rwb .write), .act 0 (.rwb .bump), .act 0 (.rwb .send)]

/-- node 1 fails, and the neighbours are told -/
def changeModes : List FailEvent := [.crash, .changeDown, .changeUp, .getSentListRange, .resend]

/-- node 2 takes the resent request -/
def resendArrives : List FailEvent :=
  [.node (.act 2 (.relay 0 .addToLog)), .node (.act 2 (.relay 0 .pushEntry)), .resendOk, .resend]

theorem resent_or_received_recorded :
    NothingLost 0 (run (Failover.step (fun _ => 0) 0) (Failover.start (stable 3 0 ReplayLog.empty))
      ((acceptedByMiddle ++ recordedUpstream).map .node ++ changeModes ++ resendArrives)) :=
  resent_or_received (fun _ => 0) 3 0 0 ReplayLog.empty (by decide) _ (by decide +kernel)

/-- **A number in hand is lost.** Node 1 has accepted number 1, node 0 has not recorded it when it reads its
sent list. -/
theorem accepted_in_hand_is_lost :
    ¬ NothingLost 0 (run (Failover.step (fun _ => 0) 0) (Failover.start (stable 3 0 ReplayLog.empty))
      (acceptedByMiddle.map .node ++ changeModes)) := by
  intro h
  have h1 := h (by decide +kernel) 1 (by decide +kernel)
  exact absurd h1 (by decide +kernel)

end ChainedBlockStorage.Chain
