/-
Nothing gets lost on the way down a stable chain.

The rules of a run (`Orderly`): numbers are below 2^31; each client's requests take numbers in the order of their
timestamps; a call fails only when its request was lost or its handler has failed. Calls can still overtake each other
and take as long as they like.

- `Supplied`: between neighbours, everything that the upstream node has relayed is queued or popped downstream, and
  every handler that has run has pushed its entry or is about to.
- `Flowing`, `flowing_step`: so no number is missing anywhere, and no write thread dies.
-/
import ChainedBlockStorage.Chain.Join
import ChainedBlockStorage.Chain.LogOrder

namespace ChainedBlockStorage.Chain

open Run Tables Positions

/-! ## The rules -/

/-- the request of handler `k` was lost, or its `pushEntry` threw -/
def Node.relayFailed (n : Node) (k : ℕ) : Bool := n.relays[k]?.any fun h => h.phase = .lost ∨ h.phase = .threw

/-- `popEntry` threw in handler `m` -/
def Node.ackFailed (n : Node) (m : ℕ) : Bool :=
  n.acks[m]?.any fun t => match t.phase with
    | .failed => true
    | _ => false

/-- the handler that answers the call the thread is in -/
def Rwb.callee : Rwb → Option (ℕ × ℕ)
  | .calling _ j k => some (j, k)
  | _ => none

def AckThread.callee (t : AckThread) : Option (ℕ × ℕ) :=
  match t.phase with
  | .calling j m => some (j, m)
  | _ => none

/-- a call fails only when its request was lost or its handler has failed -/
def TrueFailure (s : Nodes) : Event → Prop
  | .act i (.rwb .retry) => ∀ c ∈ (s i).rwb.callee, (s c.1).relayFailed c.2 = true
  | .act i (.ack k .retry) => ∀ c ∈ (s i).acks[k]?.bind AckThread.callee, (s c.1).ackFailed c.2 = true
  | _ => True

instance (s : Nodes) : ∀ e, Decidable (TrueFailure s e)
  | .act i (.rwb .retry) => inferInstanceAs (Decidable (∀ c ∈ (s i).rwb.callee, (s c.1).relayFailed c.2 = true))
  | .act i (.ack k .retry) =>
    inferInstanceAs (Decidable (∀ c ∈ (s i).acks[k]?.bind AckThread.callee, (s c.1).ackFailed c.2 = true))
  | .act _ (.rwb .poll) | .act _ (.rwb .spin) | .act _ (.rwb .pop) | .act _ (.rwb .leave) | .act _ (.rwb .write)
  | .act _ (.rwb .bump) | .act _ (.rwb .send) | .act _ (.ack _ .start) | .act _ (.ack _ .pop) | .act _ (.ack _ .commit)
  | .act _ (.ack _ .log) | .act _ (.ack _ .bump) | .act _ (.ack _ .leave) | .act _ (.write _) | .act _ (.relay _ _)
  | .act _ (.ackLogEntry _) | .sendRelay _ | .relayOk _ | .sendAck _ _ | .ackOk _ _ => isTrue trivial

/-- the rules of a run: numbers below 2^31, each client's numbers in the order of its timestamps, and true failures -/
structure Orderly (log : ReplayLog) (s : Nodes) (e : Event) : Prop where
  number : NumberRule s e
  turn : TimestampTurn log s e
  failure : TrueFailure s e

instance (log : ReplayLog) (s : Nodes) (e : Event) : Decidable (Orderly log s e) :=
  decidable_of_iff (NumberRule s e ∧ TimestampTurn log s e ∧ TrueFailure s e)
    ⟨fun h => ⟨h.1, h.2.1, h.2.2⟩, fun h => ⟨h.number, h.turn, h.failure⟩⟩

/-! ## What a node has taken in -/

/-- number `k` has been queued here, and perhaps popped -/
def Path.Received (p : Path) (k : ℤ) : Prop := k ≤ p.top ∨ ∃ x ∈ p.pendingQueue, x.seqNum = k

/-- a step of `relay_write_background` takes nothing in and loses nothing -/
theorem RwbMove.received {p p' : Path} (h : RwbMove p p') (k : ℤ) : p'.Received k ↔ p.Received k := by
  unfold Path.Received
  rcases h.queue with ⟨hq, ht⟩ | ⟨e, he, ht, hseq, -, hmem⟩
  · rw [hq, ht]
  · constructor
    · rintro (hk | ⟨x, hx, rfl⟩)
      · rcases Int.lt_or_eq_of_le (ht ▸ hk) with hk | rfl
        · exact Or.inl (by omega)
        · exact Or.inr ⟨e, he, rfl⟩
      · exact Or.inr ⟨x, ((hmem x).1 hx).1, rfl⟩
    · rintro (hk | ⟨x, hx, rfl⟩)
      · exact Or.inl (by omega)
      · by_cases hxe : x.seqNum = e.seqNum
        · exact Or.inl (by omega)
        · exact Or.inr ⟨x, (hmem x).2 ⟨hx, hxe⟩, rfl⟩

/-- the two neighbours, the upstream one as `u` -/
structure Supplied (start : ℤ) (u d : Path) : Prop where
  above : ∀ x ∈ d.pendingQueue, d.top < x.seqNum
  ran : ∀ h ∈ d.relays, h.phase.ran = true →
    h.phase = .pushed ∧ d.Received h.req.seqNum ∨ h.phase = .added ∧ ¬ d.Received h.req.seqNum
  sent : ∀ k, start < k → k ≤ u.top → d.Received k ∨ ∃ e, u.rwb.relaying = some e ∧ e.seqNum = k
  relay : ∀ e, u.rwb = .relay e → ¬ d.Received e.seqNum ∧ ∀ h ∈ d.relays, h.phase.finished = true
  calling : ∀ e c k, u.rwb = .calling e c k →
    ∃ h, d.relays[k]? = some h ∧ h.req = relayRequest e ∧ (h.phase = .pushed ↔ d.Received e.seqNum)

section Link

variable {start : ℤ} {N : List Entry} {j : ℕ} {u d : Path}

/-- what the downstream node has taken in was relayed -/
theorem LinkInv.received_le (h : LinkInv j u d) {k : ℤ} (hk : d.Received k) : k ≤ u.top := by
  rcases hk with hk | ⟨x, hx, rfl⟩
  · exact hk.trans h.top
  · exact h.queue x hx

/-! ### Steps of the upstream node -/

/-- it relays the same entry, or none -/
theorem Supplied.moveUp {u' : Path} (h : Supplied start u d) (htop : u'.top = u.top)
    (hrwb : u'.rwb = u.rwb ∨ u.rwb.relaying = none ∧ u'.rwb.relaying = none) : Supplied start u' d := by
  refine ⟨h.above, h.ran, fun k h1 h2 => ?_, fun e he => ?_, fun e c k he => ?_⟩
  · rcases h.sent k h1 (htop ▸ h2) with hk | ⟨e, he, hek⟩
    · exact Or.inl hk
    · rcases hrwb with hr | ⟨hn, -⟩
      · exact Or.inr ⟨e, by rw [hr]; exact he, hek⟩
      · rw [hn] at he
        cases he
  · rcases hrwb with hr | ⟨-, hn⟩
    · exact h.relay e (hr ▸ he)
    · rw [he] at hn
      cases hn
  · rcases hrwb with hr | ⟨-, hn⟩
    · exact h.calling e c k (hr ▸ he)
    · rw [he] at hn
      cases hn

/-- it pops the next entry, which the downstream node does not have -/
theorem Supplied.popUp {u' : Path} {e : Entry} (h : Supplied start u d) (hl : LinkInv j u d)
    (hnone : u.rwb.relaying = none) (htop : u'.top = u.top + 1) (he : e.seqNum = u'.top) (hr : u'.rwb = .relay e) :
    Supplied start u' d := by
  have hrel : u'.rwb.relaying = some e := by rw [hr]; rfl
  refine ⟨h.above, h.ran, fun k h1 h2 => ?_, fun x hx => ?_, fun x c k hx => ?_⟩
  · rcases Int.lt_or_eq_of_le h2 with h2 | rfl
    · refine (h.sent k h1 (by omega)).imp_right ?_
      rw [hnone]
      simp
    · exact Or.inr ⟨e, hrel, he⟩
  · obtain rfl := Rwb.relay.inj (hr.symm.trans hx)
    refine ⟨fun hk => ?_, fun y hy => ?_⟩
    · have := hl.received_le hk
      omega
    · obtain ⟨m, hm⟩ := List.mem_iff_getElem?.1 hy
      exact hl.finished hnone m y hm
  · rw [hr] at hx
    cases hx

/-- its call fails, and is to be repeated -/
theorem Supplied.retryUp {u' : Path} {e : Entry} {c k : ℕ} (h : Supplied start u d) (hl : LinkInv j u d)
    (hr : u.rwb = .calling e c k) (hr' : u'.rwb = .relay e) (htop : u'.top = u.top)
    (hfail : ∀ y, d.relays[k]? = some y → y.phase = .lost ∨ y.phase = .threw) : Supplied start u' d := by
  obtain ⟨y, hy, -, hrec⟩ := h.calling e c k hr
  have hover : y.phase ≠ .pushed ∧ y.phase.finished = true := by
    rcases hfail y hy with hp | hp <;> rw [hp] <;> exact ⟨by decide, rfl⟩
  refine ⟨h.above, h.ran, fun q h1 h2 => ?_, fun x hx => ?_, fun x c' k' hx => ?_⟩
  · refine (h.sent q h1 (htop ▸ h2)).imp_right ?_
    rw [hr, hr']
    exact id
  · obtain rfl := Rwb.relay.inj (hr'.symm.trans hx)
    refine ⟨fun hk => hover.1 (hrec.2 hk), fun z hz => ?_⟩
    -- no other handler of the downstream node is running
    by_contra hf
    obtain ⟨m, hm⟩ := List.mem_iff_getElem?.1 hz
    obtain rfl := (hl.calling e c k hr).2 m z hm (by simpa using hf)
    obtain rfl := Option.some.inj (hy.symm.trans hm)
    exact hf hover.2
  · rw [hr'] at hx
    cases hx

/-- its call is answered -/
theorem Supplied.okUp {u' : Path} {e : Entry} {c k : ℕ} {y : RelayHandler} (h : Supplied start u d)
    (hr : u.rwb = .calling e c k) (hy : d.relays[k]? = some y) (hok : y.phase.ok = true)
    (hr' : u'.rwb.relaying = none) (htop : u'.top = u.top) : Supplied start u' d := by
  obtain ⟨z, hz, -, hrec⟩ := h.calling e c k hr
  obtain rfl := Option.some.inj (hz.symm.trans hy)
  have hpushed : z.phase = .pushed := by
    have hran : z.phase.ran = true := by
      revert hok
      cases z.phase <;> simp [RelayPhase.ok, RelayPhase.ran]
    rcases h.ran z (List.mem_of_getElem? hz) hran with hp | hp
    · exact hp.1
    · rw [hp.1] at hok
      cases hok
  refine ⟨h.above, h.ran, fun q h1 h2 => ?_, fun x hx => ?_, fun x c' k' hx => ?_⟩
  · rcases h.sent q h1 (htop ▸ h2) with hq | ⟨x, hx, rfl⟩
    · exact Or.inl hq
    · rw [hr] at hx
      obtain rfl := Option.some.inj hx
      exact Or.inl (hrec.1 hpushed)
  · rw [hx] at hr'
    cases hr'
  · rw [hx] at hr'
    cases hr'

/-- its call goes out -/
theorem Supplied.callUp {u' d' : Path} {e : Entry} {c : ℕ} (h : Supplied start u d) (hr : u.rwb = .relay e)
    (hr' : u'.rwb = .calling e c d.relays.length) (htop : u'.top = u.top)
    (hrel : d'.relays = d.relays ++ [⟨relayRequest e, .arrived, false⟩]) (hqueue : d'.pendingQueue = d.pendingQueue)
    (hdtop : d'.top = d.top) : Supplied start u' d' := by
  have hrec : ∀ k, d'.Received k ↔ d.Received k := fun k => by rw [Path.Received, Path.Received, hqueue, hdtop]
  refine ⟨?_, fun y hy hran => ?_, fun q h1 h2 => ?_, fun x hx => ?_, fun x c' k hx => ?_⟩
  · rw [hqueue, hdtop]
    exact h.above
  · rw [hrel] at hy
    rw [hrec]
    rcases List.mem_append.1 hy with hy | hy
    · exact h.ran y hy hran
    · rw [List.mem_singleton.1 hy] at hran
      cases hran
  · rw [hrec]
    refine (h.sent q h1 (htop ▸ h2)).imp_right ?_
    rw [hr, hr']
    exact id
  · rw [hr'] at hx
    cases hx
  · rw [hr', Rwb.calling.injEq] at hx
    obtain ⟨rfl, -, rfl⟩ := hx
    refine ⟨⟨relayRequest e, .arrived, false⟩, by rw [hrel]; simp, rfl, ?_⟩
    rw [hrec]
    exact iff_of_false (fun hp => by cases hp) (h.relay e hr).1

/-! ### Steps of the downstream node -/

/-- its write thread goes on -/
theorem Supplied.moveDown {d' : Path} (h : Supplied start u d) (hm : RwbMove d d') : Supplied start u d' := by
  have hrel : d'.relays = d.relays := hm.same.2.1
  refine ⟨fun x hx => ?_, ?_, fun k h1 h2 => ?_, fun e he => ?_, fun e c k he => ?_⟩
  · rcases hm.queue with ⟨hq, ht⟩ | ⟨e, -, ht, -, hmin, hmem⟩
    · rw [hq] at hx
      rw [ht]
      exact h.above x hx
    · obtain ⟨hx, hne⟩ := (hmem x).1 hx
      have := hmin x hx
      omega
  · rw [hrel]
    simp only [hm.received]
    exact h.ran
  · rw [hm.received]
    exact h.sent k h1 h2
  · rw [hm.received, hrel]
    exact h.relay e he
  · rw [hm.received, hrel]
    exact h.calling e c k he

/-- a handler that has not finished serves the call of the upstream node -/
theorem Supplied.running (h : Supplied start u d) (hl : LinkInv j u d) {k : ℕ} {y : RelayHandler}
    (hk : d.relays[k]? = some y) (hf : y.phase.finished = false) :
    ∃ e c, u.rwb = .calling e c k ∧ y.req = relayRequest e ∧ ¬ d.Received e.seqNum := by
  obtain ⟨e, he, hreq⟩ := hl.running k y hk hf
  have hcall : ∃ c m, u.rwb = .calling e c m := by
    cases hu : u.rwb <;> rw [hu] at he <;> try cases he
    · have hfin := (h.relay e hu).2 y (List.mem_of_getElem? hk)
      rw [hf] at hfin
      cases hfin
    · exact ⟨_, _, rfl⟩
  obtain ⟨c, m, hu⟩ := hcall
  obtain rfl := (hl.calling e c m hu).2 k y hk hf
  obtain ⟨z, hz, -, hrec⟩ := h.calling e c k hu
  obtain rfl := Option.some.inj (hz.symm.trans hk)
  refine ⟨e, c, hu, hreq, fun hr => ?_⟩
  rw [hrec.2 hr] at hf
  cases hf

/-- the handler that serves it takes a step -/
theorem Supplied.setRelay {d' : Path} {k c : ℕ} {y z : RelayHandler} {e : Entry} (h : Supplied start u d)
    (hl : LinkInv j u d) (hk : d.relays[k]? = some y) (hu : u.rwb = .calling e c k) (hreq : z.req = relayRequest e)
    (hrel : d'.relays = d.relays.set k z) (hrec : ∀ q, d'.Received q ↔ d.Received q ∨ z.phase = .pushed ∧ q = e.seqNum)
    (hnew : ¬ d.Received e.seqNum) (hz : z.phase ≠ .refused ∧ z.phase ≠ .threw)
    (habove : ∀ x ∈ d'.pendingQueue, d'.top < x.seqNum) : Supplied start u d' := by
  have hlt := (List.getElem?_eq_some_iff.1 hk).1
  have hseq : z.req.seqNum = e.seqNum := by rw [hreq]; rfl
  refine ⟨habove, fun x hx hran => ?_, fun q h1 h2 => ?_, fun x hx => ?_, fun x c' m hx => ?_⟩
  · rw [hrec]
    obtain ⟨m, hm⟩ := List.mem_iff_getElem?.1 (hrel ▸ hx)
    rcases getElem?_of_set hm with ⟨rfl, rfl⟩ | ⟨hmk, hm⟩
    · rw [hseq]
      cases hp : x.phase <;> simp_all [RelayPhase.ran]
    · rcases h.ran x (List.mem_of_getElem? hm) hran with ⟨hp, hr⟩ | ⟨hp, -⟩
      · exact Or.inl ⟨hp, Or.inl hr⟩
      · exact absurd ((hl.calling e c k hu).2 m x hm (by rw [hp]; rfl)) hmk
  · rcases h.sent q h1 h2 with hq | hq
    · exact Or.inl ((hrec q).2 (Or.inl hq))
    · exact Or.inr hq
  · rw [hu] at hx
    cases hx
  · rw [hu, Rwb.calling.injEq] at hx
    obtain ⟨rfl, -, rfl⟩ := hx
    refine ⟨z, by rw [hrel]; simp [hlt], hreq, ?_⟩
    rw [hrec]
    simp [hnew]

end Link

/-! ## Nodes -/

section Node

variable {start : ℤ} {N : List Entry} {n : Node}

/-- a step of the upstream node's write thread -/
theorem Supplied.rwbUp {j : ℕ} {d : Path} (h : Supplied start n.path d) (hl : LinkInv j n.path d)
    (hp : PathInv start N n.path) (hs : n.state.relays = true) (a : RwbAct)
    (hfail : a = .retry → ∀ e c k, n.rwb = .calling e c k → ∀ y, d.relays[k]? = some y →
      y.phase = .lost ∨ y.phase = .threw) :
    Supplied start (n.rwbAct a).path d := by
  have hkeep : ∀ x : Node, x.path.top = n.path.top → n.rwb.relaying = none → x.rwb.relaying = none →
      Supplied start x.path d := fun x ht h1 h2 => h.moveUp ht (Or.inr ⟨h1, h2⟩)
  cases a with
  | poll | spin | write | send =>
    simp only [Node.rwbAct]
    repeat' split
    all_goals first
      | exact h
      | refine hkeep _ ?_ ?_ ?_ <;> simp_all [Path.top, Node.path, Rwb.inHand, Rwb.relaying]
  | pop =>
    simp only [Node.rwbAct]
    split
    · rename_i e q hr hpop
      obtain ⟨he, hmin, -⟩ := PendingQueue.popEntry_eq_some hpop
      obtain ⟨⟨y, hy, hyw⟩, hall⟩ := hp.pop hr
      have hseq : e.seqNum = n.writeSeq + 1 := le_antisymm (hyw ▸ hmin y hy) (hall e he)
      have htop : n.path.top = n.writeSeq := by simp [Path.top, Node.path, hr, Rwb.inHand]
      have hnew : ({ n with rwb := .relay e, pendingQueue := q } : Node).path.top = e.seqNum := rfl
      exact h.popUp hl (by simp [Node.path, hr, Rwb.relaying]) (by rw [hnew, htop, hseq]) hnew.symm rfl
    · exact h
  | leave =>
    simp only [Node.rwbAct, hs, if_true]
    split <;> exact h
  | retry =>
    simp only [Node.rwbAct]
    split
    · rename_i e c k hr
      have htop : ({ n with rwb := .relay e } : Node).path.top = n.path.top := by
        simp [Path.top, Node.path, hr, Rwb.inHand]
      exact h.retryUp hl hr rfl htop (hfail rfl e c k hr)
    · exact h
  | bump =>
    simp only [Node.rwbAct]
    split
    · rename_i e hr
      have hseq : e.seqNum = n.writeSeq + 1 := (hp.hand e (by simp [Node.path, hr, Rwb.inHand])).2
      refine hkeep _ ?_ ?_ rfl
      · simp [Path.top, Node.path, hr, Rwb.inHand, hseq]
      · simp [hr, Rwb.relaying]
    · exact h

/-- a handler of the downstream node takes a step: the first one with its number is accepted, and its push goes
through -/
theorem Supplied.relayDown {C : ReplayLog} {Q : Entry → Prop} {j : ℕ} {u : Node} (h : Supplied start u.path n.path)
    (hl : LinkInv j u.path n.path) (hand : Handover start C Q j u n) (hwait : Waiting u) (hord : TimestampOrder Q)
    (hlater : ∀ e, Q e → start < e.seqNum → C.Later e.reqId) (hfits : ∀ e, Q e → 0 ≤ e.seqNum ∧ e.seqNum < 2 ^ 31)
    (hpos : ∀ e, Q e → start < e.seqNum) (hqueue : ∀ x ∈ n.pendingQueue, Q x) (k : ℕ) (a : RelayAct) :
    Supplied start u.path (n.relayAct k a).path := by
  -- a handler in phase `arrived` or `added`, with its entry
  have hserve : ∀ y, n.relays[k]? = some y → y.phase.finished = false → ∃ e c, u.rwb = .calling e c k ∧ Q e ∧
      y.req = relayRequest e ∧ ¬ n.path.Received e.seqNum := by
    intro y hk hf
    obtain ⟨e, c, hu, hreq, hnew⟩ := h.running hl hk hf
    have hcall : u.rwb = .calling e c k := hu
    exact ⟨e, c, hcall, hand.relaying e (by rw [hcall]; rfl), hreq, hnew⟩
  cases a with
  | addToLog =>
    simp only [Node.relayAct]
    split
    · rename_i request f hk
      obtain ⟨e, c, hu, hQ, hreq, hnew⟩ := hserve _ hk rfl
      simp only at hreq
      subst hreq
      -- no handler with this number has run
      have hfirst : ¬ n.delivered e.seqNum = true := by
        intro hd
        obtain ⟨y, hy, hran, hseq⟩ := delivered_iff.1 hd
        rcases h.ran y hy hran with ⟨-, hr⟩ | ⟨hp, -⟩
        · exact hnew (hseq ▸ hr)
        · obtain ⟨m, hm⟩ := List.mem_iff_getElem?.1 hy
          obtain rfl := (hl.calling e c k hu).2 m y hm (by rw [hp]; rfl)
          rw [hk] at hm
          cases hm
          cases hp
      have h0 : (n.replayLog.addToLog e.reqId).1 = 0 :=
        hand.accepts hwait hord hlater (List.mem_of_getElem? hk) (hpos e hQ) hfirst
      have hphase : ¬ (n.replayLog.addToLog (relayRequest e).clientRequestId).1 < 0 := by
        show ¬ (n.replayLog.addToLog e.reqId).1 < 0
        omega
      refine h.setRelay hl hk hu (z := ⟨relayRequest e, .added, !n.delivered e.seqNum⟩) rfl ?_ (fun q => ?_) hnew
        (by simp) h.above
      · simp only [Node.path, if_neg hphase]
        rfl
      · simp [Path.Received, Path.top, Node.path]
    · exact h
  | pushEntry =>
    simp only [Node.relayAct]
    split
    · rename_i request f hk
      obtain ⟨e, c, hu, hQ, hreq, hnew⟩ := hserve _ hk rfl
      simp only at hreq
      subst hreq
      rw [entry_relayRequest]
      cases hq : n.pendingQueue.pushEntry e with
      | none =>
        obtain ⟨x, hx, hxe⟩ := PendingQueue.pushEntry_eq_none.1 hq
        obtain ⟨hx0, hx1⟩ := hfits x (hqueue x hx)
        obtain ⟨he0, he1⟩ := hfits e hQ
        rw [toInt_of_lt hx0 hx1, toInt_of_lt he0 he1] at hxe
        exact absurd (Or.inr ⟨x, hx, hxe⟩) hnew
      | some q =>
        have hmem := (PendingQueue.pushEntry_eq_some hq).1
        refine h.setRelay hl hk hu (z := ⟨relayRequest e, .pushed, f⟩) rfl rfl (fun k => ?_) hnew (by simp)
          (fun x hx => ?_)
        · simp only [Path.Received, Path.top, Node.path, hmem]
          constructor
          · rintro (hk | ⟨x, hx | rfl, hxk⟩)
            · exact Or.inl (Or.inl hk)
            · exact Or.inl (Or.inr ⟨x, hx, hxk⟩)
            · exact Or.inr ⟨trivial, hxk.symm⟩
          · rintro ((hk | ⟨x, hx, hxk⟩) | ⟨-, rfl⟩)
            · exact Or.inl hk
            · exact Or.inr ⟨x, Or.inl hx, hxk⟩
            · exact Or.inr ⟨e, Or.inr rfl, rfl⟩
        · rcases (hmem x).1 hx with hx | rfl
          · exact h.above x hx
          · exact not_le.1 fun hle => hnew (Or.inl hle)
    · exact h
  | drop =>
    simp only [Node.relayAct]
    split
    · rename_i request f hk
      obtain ⟨e, c, hu, -, hreq, hnew⟩ := hserve _ hk rfl
      exact h.setRelay hl hk hu (z := ⟨request, .lost, f⟩) hreq rfl
        (fun q => by simp [Path.Received, Path.top, Node.path]) hnew (by simp) h.above
    · exact h

end Node

/-! ## The chain -/

/-- every number that the head has given out is queued there, popped, or about to be pushed -/
def Path.Loaded (start : ℤ) (p : Path) : Prop :=
  ∀ k, start < k → k ≤ start + p.numbered.length → p.Received k ∨ ∃ e ∈ p.pushing, e.seqNum = k

/-- a stable chain in which no number is missing -/
structure Flowing (n start : ℕ) (log : ReplayLog) (s : Nodes) : Prop where
  inStep : InStep n start log s
  sequence : InSequence n start log s
  alive : ∀ i < n, (s i).rwb.isDead = false
  spin : ∀ i < n, (s i).rwb = .spin → ∃ x, x ∈ (s i).pendingQueue
  head : (s 0).path.Loaded start
  last : ∀ e c k, (s (n - 1)).rwb ≠ .calling e c k
  link : ∀ i, i + 1 < n → Supplied start (s i).path (s (i + 1)).path

/-! ### One node -/

section Node

variable {start : ℤ} {N : List Entry} {n : Node}

theorem wire_received (n : Node) (w : Wire) (k : ℤ) : (n.wire w).path.Received k ↔ n.path.Received k := by
  cases w with
  | relaySent j m | relayOk =>
    simp only [Node.wire]
    split
    · next hr => simp [Path.Received, Path.top, Node.path, hr, Rwb.inHand]
    · exact Iff.rfl
  | relayArrives q => exact Iff.rfl
  | ackSent m j l => rw [ackSent_path]
  | ackArrives q => exact Iff.rfl
  | ackOk m => rw [ackOk_path]

theorem wire_loaded (h : n.path.Loaded start) (w : Wire) : (n.wire w).path.Loaded start := by
  intro k h1 h2
  have hi := wire_intake n w
  have hnum : (n.wire w).numbered = n.numbered := congrArg Intake.numbered hi
  have hpush : (n.wire w).pushing = n.pushing := congrArg Intake.pushing hi
  rw [wire_received]
  refine (h k h1 ?_).imp_right ?_
  · change k ≤ start + (n.wire w).numbered.length at h2
    rwa [hnum] at h2
  · change (∃ e ∈ n.pushing, e.seqNum = k) → ∃ e ∈ (n.wire w).pushing, e.seqNum = k
    rw [hpush]
    exact id

/-- a handler of `Write` that does not throw -/
theorem writeAct_loaded (h : n.path.Loaded start) (hh : HeadInv start n.path)
    (hfits : ∀ e ∈ n.numbered, 0 ≤ e.seqNum ∧ e.seqNum < 2 ^ 31) (hqueue : ∀ x ∈ n.pendingQueue, x ∈ n.numbered)
    (a : WriteAct) : (n.writeAct a).path.Loaded start := by
  cases a with
  | addToLog q =>
    simp only [Node.writeAct]
    repeat' split
    all_goals exact h
  | takeSeq m =>
    simp only [Node.writeAct]
    split
    · exact h
    · rename_i q hk
      have hnext : n.currentSeq = start + 1 + n.numbered.length := hh.next
      intro k h1 h2
      simp only [Node.path, List.length_append, List.length_singleton] at h2
      push_cast at h2
      rcases Int.lt_or_eq_of_le h2 with h2 | rfl
      · refine (h k h1 (by show k ≤ start + n.numbered.length; omega)).imp_right ?_
        rintro ⟨e, he, hek⟩
        exact ⟨e, List.mem_append_left _ he, hek⟩
      · refine Or.inr ⟨q.entry n.currentSeq, List.mem_append_right _ (List.mem_singleton_self _), ?_⟩
        show n.currentSeq = _
        omega
  | pushEntry m =>
    simp only [Node.writeAct]
    split
    · exact h
    · rename_i e hk
      have he : e ∈ n.path.pushing := List.mem_of_getElem? hk
      obtain ⟨heN, -, hne⟩ := hh.pushing e he
      cases hq : n.pendingQueue.pushEntry e with
      | none =>
        obtain ⟨x, hx, hxe⟩ := PendingQueue.pushEntry_eq_none.1 hq
        obtain ⟨hx0, hx1⟩ := hfits x (hqueue x hx)
        obtain ⟨he0, he1⟩ := hfits e heN
        rw [toInt_of_lt hx0 hx1, toInt_of_lt he0 he1] at hxe
        exact absurd hxe (hne x hx)
      | some q =>
        have hmem := (PendingQueue.pushEntry_eq_some hq).1
        intro k h1 h2
        rcases h k h1 h2 with (hk' | ⟨x, hx, hxk⟩) | ⟨x, hx, hxk⟩
        · exact Or.inl (Or.inl hk')
        · exact Or.inl (Or.inr ⟨x, (hmem x).2 (Or.inl hx), hxk⟩)
        · -- it is the one that is pushed, or it stays
          obtain ⟨l, hl⟩ := List.mem_iff_getElem?.1 hx
          by_cases hlm : l = m
          · subst hlm
            obtain rfl := Option.some.inj (hk.symm.trans hl)
            exact Or.inl (Or.inr ⟨e, (hmem e).2 (Or.inr rfl), hxk⟩)
          · exact Or.inr ⟨x, List.mem_eraseIdx_iff_getElem?.2 ⟨l, hlm, hl⟩, hxk⟩

/-- the write thread does not die: what it adds to the sent list is above everything there -/
theorem rwbAct_alive (h : n.rwb.isDead = false) (hp : PathInv start N n.path) (hc : CommitInv start n) (h0 : 0 ≤ start)
    (hb : n.writeSeq < 2 ^ 31) (a : RwbAct) : (n.rwbAct a).rwb.isDead = false := by
  cases a with
  | send =>
    simp only [Node.rwbAct]
    split
    · rename_i e hr
      have hlow : start ≤ n.writeSeq := hp.lower
      have hseq : toInt e.seqNum = n.writeSeq := by
        rw [hp.send e hr]
        exact toInt_of_lt (h0.trans hlow) hb
      split
      · rename_i hnone
        obtain ⟨x, hx, hxe⟩ := SentList.pushEntry_eq_none.1 hnone
        have htop : n.sentTop = n.writeSeq - 1 := by simp [Node.sentTop, hr]
        have hle := (hc.sent x hx).2
        omega
      · rfl
    · exact h
  | poll | spin | pop | leave | retry | write | bump =>
    simp only [Node.rwbAct]
    repeat' split
    all_goals first
      | exact h
      | rfl

theorem rwbAct_spin (h : n.rwb = .spin → ∃ x, x ∈ n.pendingQueue) (a : RwbAct) :
    (n.rwbAct a).rwb = .spin → ∃ x, x ∈ (n.rwbAct a).pendingQueue := by
  cases a with
  | poll =>
    simp only [Node.rwbAct]
    split
    · rename_i e _ hp
      exact fun _ => ⟨e, (PendingQueue.peekEntry_eq_some hp).1⟩
    · exact h
  | spin | pop | leave | retry | write | bump | send =>
    simp only [Node.rwbAct]
    repeat' split
    all_goals first
      | exact h
      | exact fun hr => by cases hr

theorem act_spin (h : n.rwb = .spin → ∃ x, x ∈ n.pendingQueue) (a : Act) :
    (n.act a).rwb = .spin → ∃ x, x ∈ (n.act a).pendingQueue := by
  by_cases ha : ∃ b, a = .rwb b
  · obtain ⟨b, rfl⟩ := ha
    unfold Node.act
    split
    · exact h
    · exact rwbAct_spin h b
  · obtain ⟨hq, hr, -⟩ := act_grows n a fun b hb => ha ⟨b, hb⟩
    rw [hr]
    intro hs
    obtain ⟨x, hx⟩ := h hs
    exact ⟨x, hq x hx⟩

theorem wire_rwb (n : Node) (w : Wire) : ((n.wire w).rwb = n.rwb ∨ ∃ e, (n.wire w).rwb.held = some e) ∧
    (n.wire w).pendingQueue = n.pendingQueue := by
  cases w <;> simp only [Node.wire] <;> repeat' split
  all_goals simp [Rwb.held, Node.setAck]

end Node

/-! ### Steps of the chain -/

section Chain

variable {n start : ℕ} {log : ReplayLog} {s : Nodes}

/-- what the head has numbered fits in an int -/
theorem Flowing.fits (h : Flowing n start log s) {e : Entry} (he : e ∈ (s 0).numbered) :
    (start : ℤ) < e.seqNum ∧ e.seqNum < 2 ^ 31 := by
  obtain ⟨k, hk⟩ := List.mem_iff_getElem?.1 he
  have hseq := h.inStep.order.path.head.numbering k e hk
  have hlt := (List.getElem?_eq_some_iff.1 hk).1
  have hb := h.inStep.order.bounded
  unfold Bounded at hb
  omega

/-- no handler is left from an earlier call when the next one goes out -/
theorem Flowing.retryRule (h : Flowing n start log s) (e : Event) : RetryRule s e := by
  cases e with
  | sendRelay i =>
    intro t ht x hx _
    obtain ⟨e, j⟩ := t
    obtain ⟨hr, hd, -⟩ := relayTarget_eq_some (Option.mem_def.1 ht)
    obtain ⟨hi, rfl⟩ := conf_downstream (h.sequence.conf i) hd
    exact ((h.link i hi).relay e hr).2 x hx
  | act i a => trivial
  | relayOk i => trivial
  | sendAck i k => trivial
  | ackOk i k => trivial

/-- behind the head, what is about to be pushed is not in the queue -/
theorem Flowing.noClash (h : Flowing n start log s) {i : ℕ} (hi : i + 1 < n) (e : Event) : NoClash s (i + 1) e := by
  intro x hx y hy hxy
  have hnum : ∀ z ∈ (s (i + 1)).pendingQueue, z ∈ (s 0).numbered := (h.inStep.order.path.node (i + 1) hi).queue
  have hyfits := h.fits (hnum y hy)
  have hxfits := h.fits (h.sequence.pushes e hi x hx)
  rw [toInt_of_lt (by omega) hyfits.2, toInt_of_lt (by omega) hxfits.2] at hxy
  have hreceived : (s (i + 1)).path.Received x.seqNum := Or.inr ⟨y, hy, hxy⟩
  unfold Nodes.pushes at hx
  split at hx
  · rename_i m k
    split_ifs at hx with hm
    · rw [hm, (h.sequence.quiet (i + 1) (Nat.succ_ne_zero i)).pushing] at hx
      simp at hx
    · cases hx
  · rename_i m k
    split at hx
    · rename_i request f hk
      split_ifs at hx with hm
      · subst hm
        rw [List.mem_singleton.1 hx] at hreceived
        rcases (h.link i hi).ran _ (List.mem_of_getElem? hk) rfl with hp | hp
        · cases hp.1
        · exact hp.2 hreceived
      · cases hx
    · cases hx
  · cases hx

/-- a step of node `i` and the link to the next one -/
theorem Flowing.actUp (h : Flowing n start log s) {i : ℕ} (hi : i + 1 < n) (a : Act)
    (hf : TrueFailure s (.act i a)) : Supplied start ((s i).act a).path (s (i + 1)).path := by
  have hl := h.link i hi
  by_cases ha : ∃ b, a = .rwb b
  · obtain ⟨b, rfl⟩ := ha
    unfold Node.act
    split
    · exact hl
    · refine hl.rwbUp (h.inStep.order.path.link i hi) (h.inStep.order.path.node i (by omega)) ?_ b ?_
      · rw [conf_state (h.sequence.conf i) (by omega), relays_roleOf hi]
      · rintro rfl e c k hr y hy
        have hcall := ((h.inStep.order.path.link i hi).calling e c k hr).1
        subst hcall
        have hf : (s (i + 1)).relayFailed k = true := hf _ (by rw [hr]; rfl)
        have hy' : (s (i + 1)).relays[k]? = some y := hy
        rw [Node.relayFailed, hy'] at hf
        simpa using hf
  · obtain ⟨hr, hw, -⟩ := act_progress (s i) a fun b hb => ha ⟨b, hb⟩
    refine hl.moveUp ?_ (Or.inl hr)
    simp only [Path.top, Node.path, hr, hw]

/-- a step of node `i + 1` and the link to the one before it -/
theorem Flowing.actDown (h : Flowing n start log s) {i : ℕ} (hi : i + 1 < n) (a : Act) :
    Supplied start (s i).path ((s (i + 1)).act a).path := by
  have hl := h.link i hi
  have hsame : ∀ x : Node, x.path = (s (i + 1)).path → Supplied start (s i).path x.path := fun x hx => hx ▸ hl
  unfold Node.act
  split
  · exact hl
  cases a with
  | write b =>
    have hq := h.sequence.quiet (i + 1) (Nat.succ_ne_zero i)
    exact hsame _ (congrArg Node.path (writeAct_quiet hq.headService hq.adding hq.pushing b))
  | relay k b =>
    have hhead := h.sequence.head
    refine hl.relayDown (h.inStep.order.path.link i hi) (h.sequence.link i hi) (h.sequence.waiting i) hhead.order
      (fun e he _ => (hhead.numbered e he).2.2) (fun e he => ?_) (fun e he => (h.fits he).1)
      (h.inStep.order.path.node (i + 1) hi).queue k b
    have := h.fits he
    omega
  | rwb b => exact hl.moveDown (rwbAct_move _ b (h.inStep.order.path.node (i + 1) hi))
  | ack k b => exact hsame _ (ackAct_path _ k b)
  | ackLogEntry r => exact hsame _ rfl

theorem Flowing.actLink (h : Flowing n start log s) (i : ℕ) (a : Act) (hf : TrueFailure s (.act i a)) {j : ℕ}
    (hj : j + 1 < n) : Supplied start (step s (.act i a) j).path (step s (.act i a) (j + 1)).path := by
  simp only [step]
  by_cases hji : j = i
  · subst hji
    rw [Function.update_self, Function.update_of_ne (Nat.succ_ne_self j)]
    exact h.actUp hj a hf
  · rw [Function.update_of_ne hji]
    by_cases hji' : j + 1 = i
    · subst hji'
      rw [Function.update_self]
      exact h.actDown hj a
    · rw [Function.update_of_ne hji']
      exact h.link j hj

theorem Flowing.sendRelayLink (h : Flowing n start log s) (i : ℕ) {j : ℕ} (hj : j + 1 < n) :
    Supplied start (step s (.sendRelay i) j).path (step s (.sendRelay i) (j + 1)).path := by
  rcases step_sendRelay s i with hs | ⟨e, c, ht, hs⟩ <;> rw [hs]
  · exact h.link j hj
  obtain ⟨hr, hd, -⟩ := relayTarget_eq_some ht
  obtain ⟨hi, rfl⟩ := conf_downstream (h.sequence.conf i) hd
  set u := (s i).wire (.relaySent (i + 1) (s (i + 1)).relays.length) with hu
  set d := (s (i + 1)).wire (.relayArrives (relayRequest e)) with hd'
  have hnodes : ∀ m, Nodes.wire (Nodes.wire s i (.relaySent (i + 1) (s (i + 1)).relays.length)) (i + 1)
      (.relayArrives (relayRequest e)) m = if m = i then u else if m = i + 1 then d else s m := by
    intro m
    by_cases h1 : m = i
    · subst h1
      simp [Nodes.wire, hu]
    · by_cases h2 : m = i + 1
      · subst h2
        simp [Nodes.wire, hd']
      · simp [Nodes.wire, h1, h2]
  have hup : u.path = { (s i).path with rwb := .calling e (i + 1) (s (i + 1)).relays.length } := by
    simp [hu, Node.wire, hr, Node.path]
  have htop : u.path.top = (s i).path.top := by
    rw [hup]
    simp [Path.top, Node.path, hr, Rwb.inHand]
  rw [hnodes, hnodes]
  by_cases h1 : j = i
  · subst h1
    rw [if_pos rfl, if_neg (Nat.succ_ne_self j), if_pos rfl]
    exact (h.link j hj).callUp hr (by rw [hup]; rfl) htop rfl rfl rfl
  rw [if_neg h1]
  by_cases h2 : j + 1 = i
  · subst h2
    rw [if_pos rfl, if_neg (by omega)]
    refine (h.link j hj).moveDown ?_
    rw [hup]
    exact RwbMove.moveOn _ _ _ (by simp [Path.top, Node.path, hr, Rwb.inHand])
  rw [if_neg h2]
  by_cases h3 : j = i + 1
  · subst h3
    rw [if_pos rfl, if_neg (Nat.succ_ne_self _)]
    exact (h.link _ hj).moveUp rfl (Or.inl rfl)
  · rw [if_neg h3, if_neg (by omega)]
    exact h.link j hj

theorem Flowing.relayOkLink (h : Flowing n start log s) (i : ℕ) {j : ℕ} (hj : j + 1 < n) :
    Supplied start (step s (.relayOk i) j).path (step s (.relayOk i) (j + 1)).path := by
  rcases step_relayOk s i with hs | ⟨e, c, k, hr, hans, hs⟩ <;> rw [hs]
  · exact h.link j hj
  have hup : ((s i).wire .relayOk).path = { (s i).path with rwb := .write e } := by simp [Node.wire, hr, Node.path]
  have htop : ((s i).wire .relayOk).path.top = (s i).path.top := by
    rw [hup]
    simp [Path.top, Node.path, hr, Rwb.inHand]
  unfold Nodes.wire
  by_cases h1 : j = i
  · subst h1
    rw [Function.update_self, Function.update_of_ne (Nat.succ_ne_self j)]
    obtain rfl := ((h.inStep.order.path.link j hj).calling e c k hr).1
    obtain ⟨y, hy, -⟩ := (h.link j hj).calling e _ k hr
    have hy' : (s (j + 1)).relays[k]? = some y := hy
    refine (h.link j hj).okUp hr hy ?_ (by rw [hup]; rfl) htop
    simpa [Node.relayAnswered, hy'] using hans
  rw [Function.update_of_ne h1]
  by_cases h2 : j + 1 = i
  · subst h2
    rw [Function.update_self]
    refine (h.link j hj).moveDown ?_
    rw [hup]
    exact RwbMove.moveOn _ _ _ (by simp [Path.top, Node.path, hr, Rwb.inHand])
  · rw [Function.update_of_ne h2]
    exact h.link j hj

/-- an exchange of acks is none of the write path's -/
theorem step_ack_path (s : Nodes) (i k j : ℕ) :
    (step s (.sendAck i k) j).path = (s j).path ∧ (step s (.ackOk i k) j).path = (s j).path := by
  have hw : ∀ (s : Nodes) m w, (∀ x : Node, (x.wire w).path = x.path) → (Nodes.wire s m w j).path = (s j).path := by
    intro s m w hx
    by_cases hjm : j = m
    · subst hjm
      simp [Nodes.wire, hx]
    · simp [Nodes.wire, hjm]
  constructor
  · rcases step_sendAck s i k with hs | ⟨seq, m, -, hs⟩ <;> rw [hs]
    rw [hw _ _ _ (ackArrives_path seq), hw _ _ _ (ackSent_path k m _)]
  · rcases step_ackOk s i k with hs | hs <;> rw [hs]
    rw [hw _ _ _ (ackOk_path k)]

/-- what a step of a thread leaves at the head -/
theorem Flowing.actHead (h : Flowing n start log s) (hn : 0 < n) (a : Act) : ((s 0).act a).path.Loaded start := by
  have hp := h.inStep.order.path
  have hsame : ∀ x : Node, x.path = (s 0).path → x.path.Loaded start := fun x hx => hx ▸ h.head
  unfold Node.act
  split
  · exact h.head
  cases a with
  | write b =>
    refine writeAct_loaded h.head hp.head (fun e he => ?_) (hp.node 0 hn).queue b
    have := h.fits he
    omega
  | relay k b =>
    have hnone : (s 0).relays = [] := h.sequence.top
    refine hsame _ ?_
    cases b <;> simp [Node.relayAct, hnone]
  | rwb b =>
    have hm := rwbAct_move (s 0) b (hp.node 0 hn)
    intro k h1 h2
    rw [hm.same.2.2.2.2] at h2
    rw [hm.received, hm.same.2.2.2.1]
    exact h.head k h1 h2
  | ack k b => exact hsame _ (ackAct_path _ k b)
  | ackLogEntry r => exact hsame _ rfl

/-- the last node is the tail, or the only one -/
theorem Flowing.state_last (h : Flowing n start log s) (hn : 0 < n) :
    (s (n - 1)).state = .tail ∨ (s (n - 1)).state = .single := by
  rw [conf_state (h.sequence.conf (n - 1)) (by omega)]
  unfold roleOf
  split_ifs
  all_goals first
    | omega
    | simp

/-- **Every step that keeps the rules leaves nothing out.** -/
theorem flowing_step (hn : 0 < n) (hs : start < 2 ^ 31) (h : Flowing n start log s) (e : Event) (hr : Orderly log s e) :
    Flowing n start log (step s e) := by
  have hp := h.inStep.order.path
  have hb := h.inStep.order.bounded
  unfold Bounded at hb
  refine ⟨inStep_step hn hs h.inStep e ⟨hr.number, h.retryRule e⟩, ?_, fun i hi => ?_,
    fun i hi => ?_, ?_, step_calling ?_ h.last, fun j hj => ?_⟩
  · exact step_inSequence_of h.sequence e hr.turn fun i hi => h.noClash hi e
  · refine step_node_inv (fun x => x.rwb.isDead = false) s e i (h.alive i hi) (fun a _ => ?_) fun x w hx => ?_
    · by_cases ha : ∃ b, a = .rwb b
      · obtain ⟨b, rfl⟩ := ha
        unfold Node.act
        split
        · exact h.alive i hi
        · exact rwbAct_alive (h.alive i hi) (hp.node i hi) (h.inStep.order.back.node i hi) (by omega)
            (hp.writeSeq_lt hb hi) b
      · rw [(act_progress (s i) a fun b hb => ha ⟨b, hb⟩).1]
        exact h.alive i hi
    · rcases (wire_rwb x w).1 with hx' | ⟨e, he⟩
      · rwa [hx']
      · cases hw : (x.wire w).rwb <;> rw [hw] at he <;> first | rfl | cases he
  · refine step_node_inv (fun x => x.rwb = .spin → ∃ y, y ∈ x.pendingQueue) s e i (h.spin i hi) (fun a _ => ?_)
      fun x w hx => ?_
    · exact act_spin (h.spin i hi) a
    · obtain ⟨hx', hq⟩ := wire_rwb x w
      rw [hq]
      intro hs
      rcases hx' with hx' | ⟨e, he⟩
      · exact hx (hx'.symm.trans hs)
      · rw [hs] at he
        cases he
  · exact step_node_inv (fun x => x.path.Loaded start) s e 0 h.head (fun a _ => h.actHead hn a)
      fun x w hx => wire_loaded hx w
  · rcases h.state_last hn with hr | hr <;> rw [hr] <;> rfl
  · cases e with
    | act i a => exact h.actLink i a hr.failure hj
    | sendRelay i => exact h.sendRelayLink i hj
    | relayOk i => exact h.relayOkLink i hj
    | sendAck i k =>
      rw [(step_ack_path s i k j).1, (step_ack_path s i k (j + 1)).1]
      exact h.link j hj
    | ackOk i k =>
      rw [(step_ack_path s i k j).2, (step_ack_path s i k (j + 1)).2]
      exact h.link j hj

theorem flowing_stable (n start : ℕ) (hn : 0 < n) (hs : start < 2 ^ 31) (log : ReplayLog) :
    Flowing n start log (stable n start log) := by
  have hpath : ∀ i, (stable n start log i).path = ⟨start + 1, start, Sorted.empty, .poll, [], [], [], [], []⟩ := by
    intro i
    unfold stable
    split_ifs <;> rfl
  have hrwb : ∀ i, (stable n start log i).rwb = .poll := fun i => congrArg Path.rwb (hpath i)
  refine ⟨inStep_run hn hs log [] trivial, inSequence_start n start log, fun i _ => by rw [hrwb]; rfl,
    fun i _ hi => ?_, ?_, fun e c k hr => ?_, fun i _ => ?_⟩
  · rw [hrwb] at hi
    cases hi
  · intro k h1 h2
    rw [hpath] at h2
    simp only [List.length_nil] at h2
    omega
  · rw [hrwb] at hr
    cases hr
  · rw [hpath, hpath]
    refine ⟨by simp, by simp, fun k h1 h2 => ?_, by simp, by simp⟩
    simp only [Path.top, Rwb.inHand] at h2
    omega

end Chain

end ChainedBlockStorage.Chain
