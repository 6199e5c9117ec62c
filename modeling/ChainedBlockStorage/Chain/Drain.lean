/-
A stable chain never gets stuck.

From every state that a run within the rules of `Supply` reaches, steps within the rules lead to a state in which every
node has written and committed all that the head has numbered. First the way down is emptied, then the wave of acks is
let run until the tail has nothing left to commit.

- `exists_step_down`, `exists_step_up`: in every state short of that, one step brings the chain nearer.
- `never_stuck`: so a run leads there.
-/
import ChainedBlockStorage.Chain.AckWave

namespace ChainedBlockStorage.Chain

open Run Tables Positions

/-! ## The way down -/

/-- the steps that the handler of a call leaves to its caller -/
def RelayPhase.stage : RelayPhase → ℕ
  | .lost | .threw => 10
  | .arrived => 8
  | .added => 7
  | .pushed | .refused => 6

/-- the steps of `relay_write_background` up to the next pop; `relays` are the handlers downstream -/
def Rwb.stage (relays : List RelayHandler) : Rwb → ℕ
  | .relay _ => 9
  | .calling _ _ k => (relays[k]?).elim 10 fun h => h.phase.stage
  | .write _ => 5
  | .bump _ => 4
  | .send _ => 3
  | .poll => 2
  | .spin => 1
  | .pop | .dead => 0

/-- what is left to do on the way down at one node, when `goal` is the last number -/
def Node.left (goal : ℤ) (relays : List RelayHandler) (x : Node) : ℕ :=
  11 * (goal - x.path.top).toNat + x.rwb.stage relays

def Nodes.left (goal : ℤ) (s : Nodes) (i : ℕ) : ℕ := (s i).left goal (s (i + 1)).relays

def Nodes.leftDown (n : ℕ) (goal : ℤ) (s : Nodes) : ℕ := ∑ i ∈ Finset.range n, s.left goal i + (s 0).pushing.length

/-- the way down is empty: all that the head has numbered is written everywhere -/
structure Drained (n : ℕ) (goal : ℤ) (s : Nodes) : Prop where
  pushing : (s 0).pushing = []
  node : ∀ i < n, (s i).rwb = .poll ∧ (s i).writeSeq = goal

theorem sum_range_swap {n i : ℕ} (hi : i < n) {f g : ℕ → ℕ} (h : ∀ j < n, j ≠ i → f j = g j) :
    ∑ j ∈ Finset.range n, f j + g i = ∑ j ∈ Finset.range n, g j + f i := by
  have hmem := Finset.mem_range.2 hi
  have hrest : ∑ j ∈ (Finset.range n).erase i, f j = ∑ j ∈ (Finset.range n).erase i, g j :=
    Finset.sum_congr rfl fun j hj => h j (Finset.mem_range.1 (Finset.mem_of_mem_erase hj)) (Finset.ne_of_mem_erase hj)
  rw [← Finset.add_sum_erase _ f hmem, ← Finset.add_sum_erase _ g hmem, hrest]
  ring

/-! ### One node -/

section Node

variable {start goal : ℤ} {N : List Entry} {x : Node}

theorem Consecutive.le (h : Consecutive start N) {e : Entry} (he : e ∈ N) : e.seqNum ≤ start + N.length := by
  obtain ⟨k, hk⟩ := List.mem_iff_getElem?.1 he
  have hlt := (List.getElem?_eq_some_iff.1 hk).1
  have hseq := h k e hk
  omega

theorem left_lt {R R' : List RelayHandler} {y : Node} (htop : y.path.top = x.path.top)
    (hlt : y.rwb.stage R' < x.rwb.stage R) : y.left goal R' < x.left goal R := by
  unfold Node.left
  rw [htop]
  exact Nat.add_lt_add_left hlt _

theorem act_rwb (h : x.rwb.isDead = false) (b : RwbAct) : x.act (.rwb b) = x.rwbAct b := by
  simp [Node.act, h]

/-- the first entry of a queue that holds the next number and nothing below it -/
theorem first_of_next {q : PendingQueue} {w : ℤ} (hnext : ∃ e ∈ q, e.seqNum = w + 1) (habove : ∀ e ∈ q, w < e.seqNum) :
    ∃ e, q.peekEntry = some e ∧ e.seqNum = w + 1 := by
  obtain ⟨y, hy, hyw⟩ := hnext
  cases hp : q.peekEntry with
  | none => exact absurd hy (Sorted.first?_eq_none.1 hp y)
  | some e =>
    obtain ⟨he, hmin⟩ := PendingQueue.peekEntry_eq_some hp
    have h1 := hmin y hy
    have h2 := habove e he
    exact ⟨e, rfl, by omega⟩

/-- **`relay_write_background` outside a call goes on** when the next number is queued. -/
theorem exists_rwbAct (hd : x.rwb.isDead = false) (hp : PathInv start N x.path) (hN : Consecutive start N)
    (hgoal : goal = start + N.length) (habove : ∀ e ∈ x.pendingQueue, x.path.top < e.seqNum)
    (hnext : x.rwb = .poll ∨ x.rwb = .spin → ∃ e ∈ x.pendingQueue, e.seqNum = x.writeSeq + 1)
    (hrelay : ∀ e, x.rwb = .relay e → x.state.relays = false) (hcall : ∀ e j k, x.rwb ≠ .calling e j k)
    (halive : (x.rwbAct .send).rwb.isDead = false) (R : List RelayHandler) :
    ∃ b, b ≠ .retry ∧ (x.act (.rwb b)).left goal R < x.left goal R := by
  have hact := act_rwb hd
  cases hr : x.rwb with
  | dead =>
    rw [hr] at hd
    cases hd
  | calling e j k => exact absurd hr (hcall e j k)
  | poll =>
    have htop : x.path.top = x.writeSeq := by simp [Path.top, Node.path, hr, Rwb.inHand]
    obtain ⟨e, he, -⟩ := first_of_next (hnext (Or.inl hr)) fun e he => htop ▸ habove e he
    refine ⟨.poll, by simp, ?_⟩
    rw [hact]
    simp only [Node.rwbAct, hr, he]
    exact left_lt (by simp [Path.top, Node.path, hr, Rwb.inHand]) (by simp [hr, Rwb.stage])
  | spin =>
    have htop : x.path.top = x.writeSeq := by simp [Path.top, Node.path, hr, Rwb.inHand]
    obtain ⟨e, he, hseq⟩ := first_of_next (hnext (Or.inr hr)) fun e he => htop ▸ habove e he
    refine ⟨.spin, by simp, ?_⟩
    rw [hact]
    simp only [Node.rwbAct, hr, he, hseq, if_true]
    exact left_lt (by simp [Path.top, Node.path, hr, Rwb.inHand]) (by simp [hr, Rwb.stage])
  | pop =>
    obtain ⟨⟨y, hy, hyw⟩, hall⟩ := hp.pop hr
    have htop : x.path.top = x.writeSeq := by simp [Path.top, Node.path, hr, Rwb.inHand]
    obtain ⟨e, he, hseq⟩ : ∃ e, x.pendingQueue.peekEntry = some e ∧ e.seqNum = x.writeSeq + 1 :=
      first_of_next ⟨y, hy, hyw⟩ fun e he => hall e he
    have hpop : x.pendingQueue.popEntry = some (e, x.pendingQueue.erase e.seqNum) := by
      show x.pendingQueue.peekEntry.map _ = _
      rw [he]
      rfl
    have hle : e.seqNum ≤ goal := hgoal ▸ hN.le (hp.queue e (PendingQueue.peekEntry_eq_some he).1)
    have hw : x.path.writeSeq = x.writeSeq := rfl
    refine ⟨.pop, by simp, ?_⟩
    rw [hact]
    simp only [Node.rwbAct, hr, hpop]
    -- the entry in hand counts as done
    show 11 * (goal - e.seqNum).toNat + 9 < 11 * (goal - x.path.top).toNat + x.rwb.stage R
    rw [htop]
    omega
  | relay e =>
    refine ⟨.leave, by simp, ?_⟩
    rw [hact]
    simp only [Node.rwbAct, hr, hrelay e hr, Bool.false_eq_true, if_false]
    exact left_lt (by simp [Path.top, Node.path, hr, Rwb.inHand]) (by simp [hr, Rwb.stage])
  | write e =>
    refine ⟨.write, by simp, ?_⟩
    rw [hact]
    simp only [Node.rwbAct, hr]
    exact left_lt (by simp [Path.top, Node.path, hr, Rwb.inHand]) (by simp [hr, Rwb.stage])
  | bump e =>
    have hseq : e.seqNum = x.writeSeq + 1 := (hp.hand e (by simp [Node.path, hr, Rwb.inHand])).2
    refine ⟨.bump, by simp, ?_⟩
    rw [hact]
    simp only [Node.rwbAct, hr]
    exact left_lt (by simp [Path.top, Node.path, hr, Rwb.inHand, hseq]) (by simp [hr, Rwb.stage])
  | send e =>
    refine ⟨.send, by simp, ?_⟩
    rw [hact]
    simp only [Node.rwbAct, hr] at halive ⊢
    split at halive
    · cases halive
    · exact left_lt (by simp [Path.top, Node.path, hr, Rwb.inHand]) (by simp [hr, Rwb.stage])

end Node

/-! ### The chain -/

section Chain

variable {n start : ℕ} {log : ReplayLog} {goal : ℤ} {s : Nodes} {i : ℕ}

/-- only `Write` changes what it has taken in -/
theorem step_intake (s : Nodes) (e : Event) (j : ℕ) (he : ∀ b, e ≠ .act j (.write b)) :
    (step s e j).intake = (s j).intake := by
  refine step_node_inv (fun x => x.intake = (s j).intake) s e j rfl (fun a ha => act_intake _ a fun b hb => ?_)
    fun x w hx => (wire_intake x w).trans hx
  exact he b (hb ▸ ha)

theorem orderly_rwb {b : RwbAct} (hb : b ≠ .retry) : Orderly log s (.act i (.rwb b)) := by
  refine ⟨trivial, trivial, ?_⟩
  cases b with
  | retry => exact absurd rfl hb
  | poll | spin | pop | leave | write | bump | send => trivial

theorem left_congr {s' : Nodes} {j : ℕ} (ht : (s' j).path.top = (s j).path.top) (hr : (s' j).rwb = (s j).rwb)
    (hd : (s' (j + 1)).relays = (s (j + 1)).relays) : s'.left goal j = s.left goal j := by
  simp only [Nodes.left, Node.left, ht, hr, hd]

/-- one node comes nearer, and the others stay where they are -/
theorem leftDown_lt {s' : Nodes} (hi : i < n) (hlt : s'.left goal i < s.left goal i)
    (hother : ∀ j < n, j ≠ i → s'.left goal j = s.left goal j) (hp : (s' 0).intake = (s 0).intake) :
    s'.leftDown n goal < s.leftDown n goal := by
  have hsum := sum_range_swap hi hother
  have hpush : (s' 0).pushing = (s 0).pushing := congrArg Intake.pushing hp
  unfold Nodes.leftDown
  rw [hpush]
  omega

/-- a step of `relay_write_background` -/
theorem leftDown_rwb (hi : i < n) {b : RwbAct}
    (hlt : ((s i).act (.rwb b)).left goal (s (i + 1)).relays < s.left goal i) :
    (step s (.act i (.rwb b))).leftDown n goal < s.leftDown n goal := by
  refine leftDown_lt hi ?_ (fun j _ hji => ?_) (step_intake s _ 0 fun c hc => by cases hc)
  · simp only [Nodes.left, step, Function.update_self, Function.update_of_ne (Nat.succ_ne_self i)]
    exact hlt
  · have hj : step s (.act i (.rwb b)) j = s j := Function.update_of_ne hji _ _
    refine left_congr (by rw [hj]) (by rw [hj]) ?_
    by_cases hji' : j + 1 = i
    · subst hji'
      simp only [step, Function.update_self]
      exact act_relays _ _ fun k c hc => by cases hc
    · simp only [step, Function.update_of_ne hji']

/-- a step of the handler that node `i` has called -/
theorem leftDown_relay (hi : i < n) {k : ℕ} {b : RelayAct}
    (hlt : (s i).rwb.stage ((s (i + 1)).act (.relay k b)).relays < (s i).rwb.stage (s (i + 1)).relays) :
    (step s (.act (i + 1) (.relay k b))).leftDown n goal < s.leftDown n goal := by
  have hpath : ∀ j, (step s (.act (i + 1) (.relay k b)) j).rwb = (s j).rwb ∧
      (step s (.act (i + 1) (.relay k b)) j).path.top = (s j).path.top := by
    intro j
    by_cases hj : j = i + 1
    · subst hj
      simp only [step, Function.update_self]
      obtain ⟨hr, hw, -⟩ := act_progress (s (i + 1)) (.relay k b) fun c hc => by cases hc
      exact ⟨hr, by simp only [Path.top, Node.path, hr, hw]⟩
    · simp only [step, Function.update_of_ne hj, and_self]
  refine leftDown_lt hi (left_lt (hpath i).2 ?_) (fun j _ hji => left_congr (hpath j).2 (hpath j).1 ?_)
    (step_intake s _ 0 fun c hc => by cases hc)
  · rw [(hpath i).1]
    simp only [step, Function.update_self]
    exact hlt
  · simp only [step, Function.update_of_ne (show j + 1 ≠ i + 1 by omega)]

theorem left_top {e : Entry} {x y : Node} (hx : x.rwb.inHand = some e) (hy : y.rwb.inHand = some e) :
    y.path.top = x.path.top := by
  have hx' : x.path.rwb.inHand = some e := hx
  have hy' : y.path.rwb.inHand = some e := hy
  rw [Path.top, Path.top, hx', hy']

/-- a call that is answered -/
theorem leftDown_relayOk (hi : i < n) {e : Entry} {c k : ℕ} (hr : (s i).rwb = .calling e c k)
    (hans : (s c).relayAnswered k = true) (hstage : 5 < (s i).rwb.stage (s (i + 1)).relays) :
    (step s (.relayOk i)).leftDown n goal < s.leftDown n goal := by
  have hs : step s (.relayOk i) = Nodes.wire s i .relayOk := by simp [step, hr, hans]
  have hwire : (s i).wire .relayOk = { s i with rwb := .write e } := by simp [Node.wire, hr]
  refine leftDown_lt hi ?_ (fun j _ hji => ?_) (step_intake s _ 0 fun b hb => by cases hb)
  · simp only [hs, Nodes.left, Nodes.wire, Function.update_self, Function.update_of_ne (Nat.succ_ne_self i), hwire]
    exact left_lt (left_top (e := e) (by simp [hr, Rwb.inHand]) rfl) hstage
  · have hj : step s (.relayOk i) j = s j := by rw [hs, Nodes.wire, Function.update_of_ne hji]
    refine left_congr (by rw [hj]) (by rw [hj]) ?_
    rw [hs]
    by_cases hji' : j + 1 = i
    · subst hji'
      simp only [Nodes.wire, Function.update_self, hwire]
    · simp only [Nodes.wire, Function.update_of_ne hji']

/-- **A handler that is called finishes, or its caller notices that it cannot.** -/
theorem exists_step_call (h : Flowing n start log s) (hi : i + 1 < n) {e : Entry} {c k : ℕ}
    (hr : (s i).rwb = .calling e c k) :
    ∃ x, Orderly log s x ∧ (step s x 0).intake = (s 0).intake ∧ (step s x).leftDown n goal < s.leftDown n goal := by
  obtain ⟨y, hy, hreq, hrec⟩ := (h.link i hi).calling e c k hr
  have hy : (s (i + 1)).relays[k]? = some y := hy
  obtain rfl := ((h.inStep.order.path.link i hi).calling e c k hr).1
  have hstage : (s i).rwb.stage (s (i + 1)).relays = y.phase.stage := by
    rw [hr]
    simp [Rwb.stage, hy]
  have hset : ∀ z, (s i).rwb.stage ((s (i + 1)).relays.set k z) = z.phase.stage := by
    intro z
    rw [hr]
    simp [Rwb.stage, (List.getElem?_eq_some_iff.1 hy).1]
  have hact : ∀ b, (s (i + 1)).act (.relay k b) = (s (i + 1)).relayAct k b := by
    intro b
    simp [Node.act, h.alive (i + 1) hi]
  obtain ⟨q, p, f⟩ := y
  simp only at hreq hrec hstage
  subst hreq
  cases p with
  | arrived =>
    refine ⟨.act (i + 1) (.relay k .addToLog), ⟨trivial, trivial, trivial⟩, step_intake s _ 0 (fun b hb => by cases hb),
      leftDown_relay (by omega) ?_⟩
    rw [hact, hstage]
    simp only [Node.relayAct, hy, hset]
    split <;> decide
  | added =>
    -- the number is not here yet
    have hclash : ∀ w ∈ (s (i + 1)).pendingQueue, toInt w.seqNum ≠ toInt e.seqNum := by
      intro w hw hwe
      have hnum := (h.inStep.order.path.node (i + 1) hi).queue w hw
      have hw' := h.fits hnum
      have he := h.fits ((h.inStep.order.path.node i (by omega)).hand e (by simp [Node.path, hr, Rwb.inHand])).1
      rw [toInt_of_lt (by omega) hw'.2, toInt_of_lt (by omega) he.2] at hwe
      have := hrec.2 (Or.inr ⟨w, hw, hwe⟩)
      cases this
    refine ⟨.act (i + 1) (.relay k .pushEntry), ⟨trivial, trivial, trivial⟩, step_intake s _ 0 (fun b hb => by cases hb),
      leftDown_relay (by omega) ?_⟩
    rw [hact, hstage]
    simp only [Node.relayAct, hy, entry_relayRequest]
    split
    · rename_i hnone
      obtain ⟨w, hw, hwe⟩ := PendingQueue.pushEntry_eq_none.1 hnone
      exact absurd hwe (hclash w hw)
    · simp only [hset]
      decide
  | pushed | refused =>
    refine ⟨.relayOk i, ⟨trivial, trivial, trivial⟩, step_intake s _ 0 (fun b hb => by cases hb),
      leftDown_relayOk (by omega) hr ?_ ?_⟩
    · simp [Node.relayAnswered, hy, RelayPhase.ok]
    · rw [hstage]
      decide
  | threw | lost =>
    refine ⟨.act i (.rwb .retry), ⟨trivial, trivial, ?_⟩, step_intake s _ 0 (fun b hb => by cases hb),
      leftDown_rwb (by omega) ?_⟩
    · intro x hx
      rw [hr] at hx
      obtain rfl := Option.some.inj hx
      simp [Node.relayFailed, hy]
    · rw [act_rwb (h.alive i (by omega))]
      simp only [Node.rwbAct, hr]
      refine left_lt ?_ ?_
      · simp [Path.top, Node.path, hr, Rwb.inHand]
      · rw [hstage]
        show 9 < 10
        decide

/-- **The relay goes out.** -/
theorem exists_step_relay (h : Flowing n start log s) (hi : i + 1 < n) {e : Entry} (hr : (s i).rwb = .relay e) :
    ∃ x, Orderly log s x ∧ (step s x 0).intake = (s 0).intake ∧ (step s x).leftDown n goal < s.leftDown n goal := by
  have hconf : (s i).conf = _ := (h.sequence.conf i).trans (stable_conf (by omega) log)
  have hdown : (s i).downstream = some (i + 1) := by
    rw [show (s i).downstream = (s i).conf.downstream from rfl, hconf]
    simp [show i + 1 ≠ n by omega]
  have hstate : (s i).state.relays = true := by
    rw [conf_state (h.sequence.conf i) (by omega), relays_roleOf hi]
  have hs : step s (.sendRelay i) = Nodes.wire (Nodes.wire s i (.relaySent (i + 1) (s (i + 1)).relays.length)) (i + 1)
      (.relayArrives (relayRequest e)) := by
    simp [step, Node.relayTarget, hr, hdown, hstate, h.alive (i + 1) hi]
  have hwire : (s i).wire (.relaySent (i + 1) (s (i + 1)).relays.length) =
      { s i with rwb := .calling e (i + 1) (s (i + 1)).relays.length } := by
    simp [Node.wire, hr]
  refine ⟨.sendRelay i, ⟨trivial, trivial, trivial⟩, step_intake s _ 0 (fun b hb => by cases hb),
    leftDown_lt (i := i) (by omega) ?_ (fun j _ hji => ?_) (step_intake s _ 0 fun b hb => by cases hb)⟩
  · simp only [hs, Nodes.left, Nodes.wire, Function.update_self, Function.update_of_ne (Nat.succ_ne_self i),
      Function.update_of_ne (Nat.succ_ne_self i).symm, hwire]
    refine left_lt (left_top (e := e) (by simp [hr, Rwb.inHand]) rfl) ?_
    rw [hr]
    simp [Rwb.stage, Node.wire, RelayPhase.stage]
  · rw [hs]
    by_cases hji' : j = i + 1
    · subst hji'
      refine left_congr ?_ ?_ ?_
      · simp [Nodes.wire, Node.wire, Path.top, Node.path]
      · simp [Nodes.wire, Node.wire]
      · simp [Nodes.wire, show i + 1 + 1 ≠ i by omega]
    · have hj : j + 1 ≠ i + 1 := by omega
      refine left_congr ?_ ?_ ?_
      · simp [Nodes.wire, hji, hji']
      · simp [Nodes.wire, hji, hji']
      · simp only [Nodes.wire, Function.update_of_ne hj]
        by_cases hji'' : j + 1 = i
        · subst hji''
          rw [Function.update_self, hwire]
        · rw [Function.update_of_ne hji'']

/-- everything in a pending queue is still to be popped -/
theorem Flowing.above (h : Flowing n start log s) (hi : i < n) :
    ∀ e ∈ (s i).pendingQueue, (s i).path.top < e.seqNum := by
  cases i with
  | zero => exact h.inStep.order.path.head.queue
  | succ j => exact (h.link j hi).above

/-- **The next number is queued** at the first node that is not drained. -/
theorem Flowing.next (h : Flowing n start log s) (hi : i < n) (hgoal : goal = start + (s 0).numbered.length)
    (hpush : (s 0).pushing = []) (hup : ∀ j < i, (s j).rwb = .poll ∧ (s j).writeSeq = goal)
    (hr : (s i).rwb.inHand = none) (hlt : (s i).writeSeq < goal) :
    ∃ e ∈ (s i).pendingQueue, e.seqNum = (s i).writeSeq + 1 := by
  have htop : (s i).path.top = (s i).writeSeq := by
    have hr' : (s i).path.rwb.inHand = none := hr
    simp only [Path.top, hr']
    rfl
  have hlow : (start : ℤ) ≤ (s i).writeSeq := (h.inStep.order.path.node i hi).lower
  have hrec : (s i).path.Received ((s i).writeSeq + 1) := by
    cases i with
    | zero =>
      rcases h.head ((s 0).writeSeq + 1) (by omega) (by show _ ≤ (start : ℤ) + (s 0).numbered.length; omega) with
        hk | ⟨e, he, -⟩
      · exact hk
      · have he : e ∈ (s 0).pushing := he
        rw [hpush] at he
        cases he
    | succ j =>
      obtain ⟨hpoll, hseq⟩ := hup j (Nat.lt_succ_self j)
      have htop' : (s j).path.top = goal := by simp [Path.top, Node.path, hpoll, Rwb.inHand, hseq]
      rcases (h.link j hi).sent ((s (j + 1)).writeSeq + 1) (by omega) (by omega) with hk | ⟨e, he, -⟩
      · exact hk
      · have he : (s j).rwb.relaying = some e := he
        rw [hpoll] at he
        cases he
  rcases hrec with hk | hk
  · omega
  · exact hk

/-- **On the way down some step is open** until all is drained. -/
theorem exists_step_down (hn : 0 < n) (h : Flowing n start log s) (hgoal : goal = start + (s 0).numbered.length)
    (hd : ¬ Drained n goal s) :
    ∃ x, Orderly log s x ∧ (step s x 0).numbered = (s 0).numbered ∧ (step s x).leftDown n goal < s.leftDown n goal := by
  have hnumbered : (∃ x, Orderly log s x ∧ (step s x 0).intake = (s 0).intake ∧
      (step s x).leftDown n goal < s.leftDown n goal) → ∃ x, Orderly log s x ∧ (step s x 0).numbered = (s 0).numbered ∧
      (step s x).leftDown n goal < s.leftDown n goal := by
    intro hx
    obtain ⟨x, ho, hin, hlt⟩ := hx
    exact ⟨x, ho, congrArg Intake.numbered hin, hlt⟩
  cases hpush : (s 0).pushing with
  | cons e l =>
    have hget : (s 0).pushing[0]? = some e := by rw [hpush]; rfl
    -- the handler of `Write` ends, whether its push throws or not
    have hwrite : ((s 0).act (.write (.pushEntry 0))).path.top = (s 0).path.top ∧
        ((s 0).act (.write (.pushEntry 0))).rwb = (s 0).rwb ∧
        ((s 0).act (.write (.pushEntry 0))).relays = (s 0).relays ∧
        ((s 0).act (.write (.pushEntry 0))).numbered = (s 0).numbered ∧
        ((s 0).act (.write (.pushEntry 0))).pushing = l := by
      simp only [Node.act, h.alive 0 hn, Bool.false_eq_true, if_false, Node.writeAct, hget]
      split <;> exact ⟨rfl, rfl, rfl, rfl, by rw [hpush]; rfl⟩
    obtain ⟨htop, hr, hrel, hnum, hl⟩ := hwrite
    refine ⟨.act 0 (.write (.pushEntry 0)), ⟨trivial, trivial, trivial⟩, hnum, ?_⟩
    have hleft : ∀ j, (step s (.act 0 (.write (.pushEntry 0)))).left goal j = s.left goal j := by
      intro j
      by_cases hj : j = 0
      · subst hj
        exact left_congr htop hr rfl
      · have hsame : step s (.act 0 (.write (.pushEntry 0))) j = s j := Function.update_of_ne hj _ _
        exact left_congr (by rw [hsame]) (by rw [hsame]) rfl
    simp only [Nodes.leftDown, hleft]
    show _ + ((s 0).act (.write (.pushEntry 0))).pushing.length < _
    rw [hl, hpush, List.length_cons]
    exact Nat.lt_succ_self _
  | nil =>
    -- the first node that is not drained
    have hex : ∃ i, i < n ∧ ¬ ((s i).rwb = .poll ∧ (s i).writeSeq = goal) := by
      by_contra hall
      refine hd ⟨hpush, fun i hi => ?_⟩
      by_contra hi'
      exact hall ⟨i, hi, hi'⟩
    obtain ⟨i, ⟨hi, hnot⟩, hmin⟩ : ∃ i, (i < n ∧ ¬ ((s i).rwb = .poll ∧ (s i).writeSeq = goal)) ∧
        ∀ j < i, ¬ (j < n ∧ ¬ ((s j).rwb = .poll ∧ (s j).writeSeq = goal)) :=
      ⟨Nat.find hex, Nat.find_spec hex, fun j hj => Nat.find_min hex hj⟩
    have hup : ∀ j < i, (s j).rwb = .poll ∧ (s j).writeSeq = goal := fun j hj => by
      by_contra hj'
      exact hmin j hj ⟨hj.trans hi, hj'⟩
    have hp := h.inStep.order.path.node i hi
    have hlast : ¬ i + 1 < n → i = n - 1 := by omega
    by_cases hcall : ∃ e c k, (s i).rwb = .calling e c k
    · obtain ⟨e, c, k, hr⟩ := hcall
      by_cases hi' : i + 1 < n
      · exact hnumbered (exists_step_call h hi' hr)
      · rw [hlast hi'] at hr
        exact absurd hr (h.last e c k)
    by_cases hrel : (∃ e, (s i).rwb = .relay e) ∧ i + 1 < n
    · obtain ⟨⟨e, hr⟩, hi'⟩ := hrel
      exact hnumbered (exists_step_relay h hi' hr)
    have hgo : ∃ b, b ≠ .retry ∧ ((s i).act (.rwb b)).left goal (s (i + 1)).relays < s.left goal i := by
      refine exists_rwbAct (h.alive i hi) hp h.inStep.order.path.head.numbering hgoal (h.above hi) (fun hr => ?_)
        (fun e hr => ?_) (fun e j k hr => hcall ⟨e, j, k, hr⟩) ?_ (s (i + 1)).relays
      · have hnone : (s i).rwb.inHand = none := by rcases hr with hr | hr <;> rw [hr] <;> rfl
        refine h.next hi hgoal hpush hup hnone ?_
        have htop : (s i).path.top = (s i).writeSeq := by
          have hr' : (s i).path.rwb.inHand = none := hnone
          simp only [Path.top, hr']
          rfl
        rcases hr with hr | hr
        · have hwritten : (s i).path.writtenSeq = (s i).writeSeq := by simp [Path.writtenSeq, Node.path, hr]
          have hle := hp.upper
          exact lt_of_le_of_ne (by omega) fun heq => hnot ⟨hr, heq⟩
        · obtain ⟨x, hx⟩ := h.spin i hi hr
          have h1 := h.above hi x hx
          have h2 : x.seqNum ≤ start + (s 0).numbered.length :=
            h.inStep.order.path.head.numbering.le (hp.queue x hx)
          omega
      · have hi' : ¬ i + 1 < n := fun hi' => hrel ⟨⟨e, hr⟩, hi'⟩
        rw [hlast hi']
        rcases h.state_last hn with hs | hs <;> rw [hs] <;> rfl
      · have hlt := h.writeSeq_lt hi
        exact rwbAct_alive (h.alive i hi) hp (h.back hi) (Int.natCast_nonneg start) hlt .send
    obtain ⟨b, hb, hlt⟩ := hgo
    exact hnumbered ⟨_, orderly_rwb hb, step_intake s _ 0 (fun c hc => by cases hc), leftDown_rwb hi hlt⟩

end Chain

/-! ## The way back -/

/-- the steps of a thread up to its end, or to the next start of the background thread -/
def AckThread.stage (s : Nodes) (t : AckThread) : ℕ :=
  match t.phase with
  | .calling j m => if (s j).ackFailed m then 13 else 6
  | .relaying => 12
  | .start => 4
  | .ready => 3
  | .popped _ => 2
  | .stored _ => 1
  | .logged | .done | .failed => 0

/-- what is left to do on the way back at one node -/
def Nodes.leftBack (goal : ℤ) (s : Nodes) (i : ℕ) : ℕ :=
  13 * (goal - (s i).commitSeq).toNat + ((s i).acks.map (AckThread.stage s)).sum

def Nodes.leftUp (n : ℕ) (goal : ℤ) (s : Nodes) : ℕ := ∑ i ∈ Finset.range n, s.leftBack goal i

theorem sum_map_set {α : Type} {f : α → ℕ} {l : List α} {k : ℕ} {a : α} (h : l[k]? = some a) (b : α) :
    ((l.set k b).map f).sum + f a = (l.map f).sum + f b := by
  induction l generalizing k with
  | nil => simp at h
  | cons c l ih =>
    cases k with
    | zero =>
      obtain rfl : c = a := by simpa using h
      simp only [List.set_cons_zero, List.map_cons, List.sum_cons]
      ring
    | succ k =>
      have hl := ih (k := k) (by simpa using h)
      simp only [List.set_cons_succ, List.map_cons, List.sum_cons]
      omega

section Back

variable {n start : ℕ} {log : ReplayLog} {goal : ℤ} {s z : Nodes} {i k : ℕ}

theorem ackFailed_of_phase {x : Node} {m : ℕ} {t : AckThread} (hm : x.acks[m]? = some t) (ht : t.phase ≠ .failed) :
    x.ackFailed m = false := by
  by_contra hf
  exact ht (phase_of_ackFailed (by simpa using hf) hm)

theorem ackFailed_set {x y : Node} {t v : AckThread} (hk : x.acks[k]? = some t) (hy : y.acks = x.acks.set k v)
    (ht : t.phase ≠ .failed) (hv : v.phase ≠ .failed) (m : ℕ) : y.ackFailed m = x.ackFailed m := by
  by_cases hm : m = k
  · subst hm
    have hym : y.acks[m]? = some v := by rw [hy, List.getElem?_set_self (List.getElem?_eq_some_iff.1 hk).1]
    rw [ackFailed_of_phase hym hv, ackFailed_of_phase hk ht]
  · unfold Node.ackFailed
    rw [hy, List.getElem?_set_ne (Ne.symm hm)]

theorem stage_congr (h : ∀ j m, (z j).ackFailed m = (s j).ackFailed m) (t : AckThread) : t.stage z = t.stage s := by
  unfold AckThread.stage
  split
  · rw [h]
  all_goals rfl

/-- one thread takes a step -/
theorem leftUp_set (n : ℕ) (goal : ℤ) {t v : AckThread} (hi : i < n) (hk : (s i).acks[k]? = some t)
    (hacks : (z i).acks = (s i).acks.set k v) (hother : ∀ j, j ≠ i → z j = s j) (ht : t.phase ≠ .failed)
    (hv : v.phase ≠ .failed) :
    z.leftUp n goal + (13 * (goal - (s i).commitSeq).toNat + t.stage s) =
      s.leftUp n goal + (13 * (goal - (z i).commitSeq).toNat + v.stage s) := by
  have hfail : ∀ j m, (z j).ackFailed m = (s j).ackFailed m := by
    intro j m
    by_cases hj : j = i
    · subst hj
      exact ackFailed_set hk hacks ht hv m
    · rw [hother j hj]
  have hstage : AckThread.stage z = AckThread.stage s := funext (stage_congr hfail)
  have hsum := sum_range_swap (f := z.leftBack goal) (g := s.leftBack goal) hi fun j _ hj => by
    simp only [Nodes.leftBack, hother j hj, hstage]
  have hset := sum_map_set (f := AckThread.stage s) hk v
  unfold Nodes.leftUp
  simp only [Nodes.leftBack, hstage, hacks] at hsum ⊢
  omega

/-- a handler appears -/
theorem leftUp_concat (n : ℕ) (goal : ℤ) {t : AckThread} (hi : i < n) (hacks : (z i).acks = (s i).acks ++ [t])
    (hcommit : (z i).commitSeq = (s i).commitSeq) (hother : ∀ j, j ≠ i → z j = s j) (ht : t.phase ≠ .failed) :
    z.leftUp n goal = s.leftUp n goal + t.stage s := by
  have hfail : ∀ j m, (z j).ackFailed m = (s j).ackFailed m := by
    intro j m
    by_cases hj : j = i
    · subst hj
      rcases Nat.lt_trichotomy m (s j).acks.length with hm | hm | hm
      · simp only [Node.ackFailed, hacks, List.getElem?_append_left hm]
      · have hm' : (z j).acks[m]? = some t := by rw [hacks, hm, List.getElem?_concat_length]
        have hnone : (s j).acks[m]? = none := List.getElem?_eq_none (le_of_eq hm.symm)
        rw [ackFailed_of_phase hm' ht, Node.ackFailed, hnone]
        rfl
      · have hnone : (s j).acks[m]? = none := List.getElem?_eq_none (le_of_lt hm)
        have hnone' : (z j).acks[m]? = none := by
          rw [hacks]
          exact List.getElem?_eq_none (by simpa using hm)
        simp only [Node.ackFailed, hnone, hnone']
    · rw [hother j hj]
  have hstage : AckThread.stage z = AckThread.stage s := funext (stage_congr hfail)
  have hsum := sum_range_swap (f := z.leftBack goal) (g := s.leftBack goal) hi fun j _ hj => by
    simp only [Nodes.leftBack, hother j hj, hstage]
  unfold Nodes.leftUp
  simp only [Nodes.leftBack, hstage, hacks, hcommit, List.map_append, List.sum_append, List.map_singleton,
    List.sum_singleton] at hsum ⊢
  omega

/-- a step within the rules that brings the way back nearer to its end and leaves the way down alone -/
def OpenBack (n : ℕ) (log : ReplayLog) (goal : ℤ) (s : Nodes) : Prop :=
  ∃ x, Orderly log s x ∧ (∀ j, (step s x j).path = (s j).path) ∧ (step s x).leftUp n goal < s.leftUp n goal

/-- a step of a thread by itself -/
theorem openBack_act (halive : (s i).rwb.isDead = false) (hi : i < n) {t v : AckThread} (hk : (s i).acks[k]? = some t)
    {a : AckAct} {y : Node} (hy : (s i).ackAct k a = y) (hacks : y.acks = (s i).acks.set k v) (ht : t.phase ≠ .failed)
    (hv : v.phase ≠ .failed) (hlt : 13 * (goal - y.commitSeq).toNat + v.stage s <
      13 * (goal - (s i).commitSeq).toNat + t.stage s) (hf : TrueFailure s (.act i (.ack k a))) :
    OpenBack n log goal s := by
  have hact : (s i).act (.ack k a) = y := by simp [Node.act, halive, hy]
  have hself : step s (.act i (.ack k a)) i = y := by simp [step, hact]
  have hother : ∀ j, j ≠ i → step s (.act i (.ack k a)) j = s j := fun j hj => Function.update_of_ne hj _ _
  refine ⟨.act i (.ack k a), ⟨trivial, trivial, hf⟩, fun j => ?_, ?_⟩
  · by_cases hj : j = i
    · subst hj
      rw [hself, ← hy, ackAct_path]
    · rw [hother j hj]
  · have hsum := leftUp_set n goal hi hk (hself ▸ hacks) hother ht hv
    rw [hself] at hsum
    omega

/-- a thread calls upstream -/
theorem openBack_call (h : Returning n start log s) (hi : i + 1 < n) {b : Bool} {q : ℤ}
    (hk : (s (i + 1)).acks[k]? = some ⟨b, q, .relaying⟩) : OpenBack n log goal s := by
  have hconf : (s (i + 1)).conf = _ := (h.flowing.sequence.conf (i + 1)).trans (stable_conf hi log)
  have hup : (s (i + 1)).upstream = some i := by
    rw [show (s (i + 1)).upstream = (s (i + 1)).conf.upstream from rfl, hconf]
    simp
  have hrel := h.relays hi _ (List.mem_of_getElem? hk)
  have hs : step s (.sendAck (i + 1) k) =
      Nodes.wire (Nodes.wire s (i + 1) (.ackSent k i (s i).acks.length)) i (.ackArrives q) := by
    simp [step, Node.ackTarget, hk, hup, hrel, h.flowing.alive (i + 1) hi, h.flowing.alive i (by omega)]
  have hwire := ackSent_acks (j := i) (m := (s i).acks.length) hk
  refine ⟨.sendAck (i + 1) k, ⟨trivial, trivial, trivial⟩, fun j => (step_ack_path s (i + 1) k j).1, ?_⟩
  rw [hs]
  -- first the caller waits, then the handler is there
  have h1 := leftUp_set n goal (z := Nodes.wire s (i + 1) (.ackSent k i (s i).acks.length))
    (v := ⟨b, q, .calling i (s i).acks.length⟩) hi hk (by simp [Nodes.wire, hwire, Node.setAck])
    (fun j hj => Function.update_of_ne hj _ _) (by simp) (by simp)
  have h2 := leftUp_concat n goal (s := Nodes.wire s (i + 1) (.ackSent k i (s i).acks.length))
    (z := Nodes.wire (Nodes.wire s (i + 1) (.ackSent k i (s i).acks.length)) i (.ackArrives q))
    (t := ⟨false, q, .start⟩) (i := i) (by omega) (by simp [Nodes.wire, Node.wire]) (by simp [Nodes.wire, Node.wire])
    (fun j hj => Function.update_of_ne hj _ _) (by simp)
  have hnone : (s i).ackFailed (s i).acks.length = false := by simp [Node.ackFailed]
  have hcommit : (Nodes.wire s (i + 1) (.ackSent k i (s i).acks.length) (i + 1)).commitSeq = (s (i + 1)).commitSeq := by
    simp [Nodes.wire, hwire, Node.setAck]
  rw [hcommit] at h1
  simp only [AckThread.stage, hnone, Bool.false_eq_true, if_false] at h1 h2
  omega

/-- a call is answered -/
theorem openBack_ok (h : Returning n start log s) (hi : i < n) {b : Bool} {q : ℤ} {j m : ℕ}
    (hk : (s i).acks[k]? = some ⟨b, q, .calling j m⟩) (hans : (s j).ackAnswered m = true) : OpenBack n log goal s := by
  have hs : step s (.ackOk i k) = Nodes.wire s i (.ackOk k) := by simp [step, hk, h.flowing.alive i hi, hans]
  have hwire : (s i).wire (.ackOk k) = (s i).setAck k (AckThread.finish ⟨b, q, .relaying⟩) := by
    simp only [Node.wire, hk]
  refine ⟨.ackOk i k, ⟨trivial, trivial, trivial⟩, fun l => (step_ack_path s i k l).2, ?_⟩
  rw [hs]
  have hsum := leftUp_set n goal (z := Nodes.wire s i (.ackOk k))
    (v := AckThread.finish ⟨b, q, .relaying⟩) hi hk (by simp [Nodes.wire, hwire, Node.setAck])
    (fun j hj => Function.update_of_ne hj _ _) (by simp) (by cases b <;> simp [AckThread.finish])
  have hcommit : (Nodes.wire s i (.ackOk k) i).commitSeq = (s i).commitSeq := by
    simp [Nodes.wire, hwire, Node.setAck]
  have hstage : 6 ≤ AckThread.stage s ⟨b, q, .calling j m⟩ := by
    simp only [AckThread.stage]
    split <;> decide
  have hfin : (AckThread.finish ⟨b, q, .relaying⟩).stage s ≤ 4 := by
    cases b <;> simp [AckThread.finish, AckThread.stage]
  rw [hcommit] at hsum
  omega

theorem Drained.sentTop (h : Drained n goal s) (hi : i < n) : (s i).sentTop = goal := by
  obtain ⟨hr, hw⟩ := h.node i hi
  simp [Node.sentTop, hr, hw]

/-- what a thread that is ready asks for is there -/
theorem exists_popEntry (h : Returning n start log s) (hd : Drained n goal s) (hi : i < n) {b : Bool} {q : ℤ}
    (hk : (s i).acks[k]? = some ⟨b, q, .ready⟩) (hlt : (s i).commitSeq < goal) :
    ∃ e l, (s i).sentList.popEntry (toInt q) = some (e, l) := by
  have hp := h.paced i hi
  have htop := hd.sentTop hi
  have hlow := (h.flowing.back hi).lower
  have hseq : q = (s i).commitSeq + 1 := hp.ready _ (List.mem_of_getElem? hk) rfl
  have hbound := (sentTop_le (s i)).trans_lt (h.flowing.writeSeq_lt hi)
  have hint : toInt q = q := toInt_of_lt (by omega) (by omega)
  rcases hp.stock hk rfl (q := q) (by omega) (by omega) with ⟨y, hy, hyq⟩ | ⟨hh, -⟩
  · rw [hint]
    unfold SentList.popEntry
    cases hf : (s i).sentList.find? q with
    | some x => exact ⟨x.2, _, rfl⟩
    | none => exact absurd hyq (Sorted.find?_eq_none.1 hf y hy)
  · cases hh

/-- a handler that waits has the next number -/
theorem Returning.turn (h : Returning n start log s) (hi : i + 1 < n) {t : AckThread} (hk : (s i).acks[k]? = some t)
    (hl : t.phase.over = false) : t.Counts (s i).commitSeq := by
  have hw := h.wave i hi
  obtain ⟨c, b, hc⟩ := hw.live k t hk hl
  obtain ⟨-, x, hx, -, -, hcnt⟩ := hw.calling c b t.seq i k hc
  obtain rfl := Option.some.inj (hk.symm.trans hx)
  exact hcnt

/-- only the tail has a background thread -/
theorem Returning.background (h : Returning n start log s) (hi : i < n) {t : AckThread} (ht : t ∈ (s i).acks) :
    t.background = true ↔ ¬ i + 1 < n := by
  by_cases hl : i + 1 < n
  · simp [h.flowing.handlers hl t ht, hl]
  · obtain ⟨q, p, hacks, -⟩ := h.tail
    obtain rfl : i = n - 1 := by omega
    rw [hacks] at ht
    simp [List.mem_singleton.1 ht, hl]

/-- a thread that is not about to call goes on by itself -/
theorem exists_step_own (h : Returning n start log s) (hd : Drained n goal s) (hi : i < n) {t : AckThread}
    (hk : (s i).acks[k]? = some t) (hl : t.phase.over = false) (hp : t.phase.past = false)
    (hidle : t.phase = .start ∨ t.phase = .ready → (s i).commitSeq < goal) : OpenBack n log goal s := by
  have halive := h.flowing.alive i hi
  have hmem := List.mem_of_getElem? hk
  obtain ⟨b, q, p⟩ := t
  cases p with
  | done | failed => cases hl
  | relaying | calling _ _ => cases hp
  | start =>
    by_cases hi' : i + 1 < n
    · obtain rfl : b = false := h.flowing.handlers hi' _ hmem
      have hseq : (s i).commitSeq + 1 = q := h.turn hi' hk hl
      refine openBack_act halive hi hk (a := .start) (v := ⟨false, q, .ready⟩) rfl ?_ (by simp) (by simp) ?_ trivial
      · simp [Node.ackAct, hk, Node.ackStart, hseq, Node.setAck]
      · simp [Node.ackAct, hk, Node.ackStart, hseq, Node.setAck, AckThread.stage]
    · obtain rfl : b = true := (h.background hi hmem).2 hi'
      have hs : (s i).state = .tail ∨ (s i).state = .single := by
        obtain rfl : i = n - 1 := by omega
        exact h.flowing.state_last (by omega)
      refine openBack_act halive hi hk (a := .start) (v := ⟨true, (s i).commitSeq + 1, .ready⟩) rfl ?_ (by simp)
        (by simp) ?_ trivial
      · simp [Node.ackAct, hk, Node.ackStart, hs, Node.setAck]
      · simp [Node.ackAct, hk, Node.ackStart, hs, Node.setAck, AckThread.stage]
  | ready =>
    obtain ⟨e, l, hpop⟩ := exists_popEntry h hd hi hk (hidle (Or.inr rfl))
    refine openBack_act halive hi hk (a := .pop) (v := ⟨b, q, .popped e⟩) rfl ?_ (by simp) (by simp) ?_ trivial
    · simp [Node.ackAct, hk, Node.ackPop, hpop, Node.setAck]
    · simp [Node.ackAct, hk, Node.ackPop, hpop, Node.setAck, AckThread.stage]
  | popped e =>
    refine openBack_act halive hi hk (a := .commit) (v := ⟨b, q, .stored e⟩) rfl ?_ (by simp) (by simp) ?_ trivial
    · simp [Node.ackAct, hk, Node.setAck]
    · simp [Node.ackAct, hk, Node.setAck, AckThread.stage]
  | stored e =>
    refine openBack_act halive hi hk (a := .log) (v := ⟨b, q, .logged⟩) rfl ?_ (by simp) (by simp) ?_ trivial
    · simp [Node.ackAct, hk, Node.setAck]
    · simp [Node.ackAct, hk, Node.setAck, AckThread.stage]
  | logged =>
    have hback := h.flowing.back hi
    obtain ⟨hseq, htop, -⟩ := hback.held k _ hk rfl
    have hlow := hback.lower
    have hbound := (sentTop_le (s i)).trans_lt (h.flowing.writeSeq_lt hi)
    rw [hd.sentTop hi] at htop hbound
    simp only at hseq htop
    have hval : (if b then (s i).commitSeq + 1 else toInt q) = q := by
      split_ifs
      · exact hseq.symm
      · exact toInt_of_lt (by omega) (by omega)
    refine openBack_act halive hi hk (a := .bump) (v := ⟨b, q, .relaying⟩) rfl ?_ (by simp) (by simp) ?_ trivial
    · simp [Node.ackAct, hk, Node.setAck]
    · simp only [Node.ackAct, hk, Node.setAck, AckThread.stage, hval]
      omega

/-- **A thread at work goes on, or the thread that it has called does.** Only the tail's thread stops, when everything
is committed. -/
theorem exists_step_thread (h : Returning n start log s) (hd : Drained n goal s) (hi : i < n) {t : AckThread}
    (hk : (s i).acks[k]? = some t) (hl : t.phase.over = false)
    (hidle : t.phase = .start ∨ t.phase = .ready → (s i).commitSeq < goal) : OpenBack n log goal s := by
  induction i generalizing k t with
  | zero =>
    by_cases hp : t.phase.past = false
    · exact exists_step_own h hd hi hk hl hp hidle
    have hmem := List.mem_of_getElem? hk
    obtain ⟨b, q, p⟩ := t
    cases p <;> try exact absurd rfl hp
    · -- nobody is upstream
      have hrel : AckThread.relays ⟨b, q, .relaying⟩ (s 0).state = false := by
        rw [conf_state (h.flowing.sequence.conf 0) hi]
        by_cases hn : 0 + 1 < n
        · obtain rfl : b = false := h.flowing.handlers hn _ hmem
          rw [roleOf, if_neg (by omega), if_pos rfl]
          rfl
        · obtain rfl : b = true := (h.background hi hmem).2 hn
          rw [roleOf, if_pos (by omega)]
          rfl
      refine openBack_act (h.flowing.alive 0 hi) hi hk (a := .leave) (v := AckThread.finish ⟨b, q, .relaying⟩) rfl ?_
        (by simp) ?_ ?_ trivial
      · simp [Node.ackAct, hk, hrel, Node.setAck]
      · cases b <;> simp [AckThread.finish]
      · cases b <;> simp [Node.ackAct, hk, hrel, Node.setAck, AckThread.finish, AckThread.stage]
    · rename_i j m
      exact absurd rfl (h.top _ hmem j m)
  | succ i ih =>
    by_cases hp : t.phase.past = false
    · exact exists_step_own h hd hi hk hl hp hidle
    have hpaced := h.paced (i + 1) hi
    have htop := hd.sentTop hi
    have hup := (h.flowing.back hi).upper
    have hmem := List.mem_of_getElem? hk
    obtain ⟨b, q, p⟩ := t
    cases p <;> try exact absurd rfl hp
    · exact openBack_call h hi hk
    · rename_i j m
      -- the handler upstream has answered, has failed, or is at work
      obtain ⟨rfl, x, hx, -, hseq, hcnt⟩ := (h.wave i hi).calling k b q j m hk
      have hpast : q = (s (j + 1)).commitSeq := hpaced.past _ hmem rfl
      by_cases hover : x.phase.over = false
      · refine ih (by omega) hx hover fun hph => ?_
        have hcnt' : (s j).commitSeq + 1 = x.seq := by
          rcases hph with hph | hph <;> simpa [AckThread.Counts, hph, AckPhase.counted] using hcnt
        omega
      · obtain ⟨xb, xq, xp⟩ := x
        cases xp <;> try exact absurd rfl hover
        · exact openBack_ok h hi hk (by simp [Node.ackAnswered, hx])
        · have hf : (s j).ackFailed m = true := by simp [Node.ackFailed, hx]
          refine openBack_act (h.flowing.alive (j + 1) hi) hi hk (a := .retry) (v := ⟨b, q, .relaying⟩) rfl ?_ (by simp)
            (by simp) ?_ fun c hc => ?_
          · simp [Node.ackAct, hk, Node.setAck]
          · simp [Node.ackAct, hk, Node.setAck, AckThread.stage, hf]
          · rw [hk] at hc
            obtain rfl := Option.some.inj hc
            exact hf

/-- every node has committed up to `goal`, and the tail's thread is all that is left at work -/
structure CaughtUp (n : ℕ) (goal : ℤ) (s : Nodes) : Prop where
  commit : ∀ i < n, (s i).commitSeq = goal
  idle : ∀ i < n, ∀ t ∈ (s i).acks, t.phase.over = true ∨ i + 1 = n ∧ (t.phase = .start ∨ t.phase = .ready)

/-- when the tail's thread has nothing left to commit, nothing is left above it -/
theorem Returning.caughtUp (h : Returning n start log s) (hn : 0 < n) (hcommit : (s (n - 1)).commitSeq = goal)
    (hidle : ∀ t ∈ (s (n - 1)).acks, t.phase = .start ∨ t.phase = .ready) : CaughtUp n goal s := by
  -- by induction from the tail upwards
  have hall : ∀ d i, i + d + 1 = n → (s i).commitSeq = goal ∧ (∀ t ∈ (s i).acks, t.phase.past = false) ∧
      ∀ t ∈ (s i).acks, t.phase.over = true ∨ i + 1 = n ∧ (t.phase = .start ∨ t.phase = .ready) := by
    intro d
    induction d with
    | zero =>
      intro i hi
      obtain rfl : i = n - 1 := by omega
      refine ⟨hcommit, fun t ht => ?_, fun t ht => Or.inr ⟨hi, hidle t ht⟩⟩
      rcases hidle t ht with hp | hp <;> rw [hp] <;> rfl
    | succ d ih =>
      intro i hi
      obtain ⟨hc, hpast, -⟩ := ih (i + 1) (by omega)
      have hw := h.wave i (by omega)
      have hover : ∀ t ∈ (s i).acks, t.phase.over = true := by
        intro t ht
        by_contra hl
        obtain ⟨k, hk⟩ := List.mem_iff_getElem?.1 ht
        obtain ⟨c, b, hcall⟩ := hw.live k t hk (by simpa using hl)
        have := hpast _ (List.mem_of_getElem? hcall)
        cases this
      refine ⟨(hw.settled hpast).trans hc, fun t ht => ?_, fun t ht => Or.inl (hover t ht)⟩
      by_contra hp
      have := AckPhase.live_of_past (p := t.phase) (by simpa using hp)
      rw [hover t ht] at this
      cases this
  exact ⟨fun i hi => (hall (n - 1 - i) i (by omega)).1, fun i hi => (hall (n - 1 - i) i (by omega)).2.2⟩

/-- **On the way back some step is open** until all is committed. -/
theorem exists_step_up (h : Returning n start log s) (hn : 0 < n) (hd : Drained n goal s) (hnot : ¬ CaughtUp n goal s) :
    OpenBack n log goal s := by
  have hn1 : n - 1 < n := by omega
  obtain ⟨q, p, hacks, hl⟩ := h.tail
  have hk : (s (n - 1)).acks[0]? = some ⟨true, q, p⟩ := by rw [hacks]; rfl
  refine exists_step_thread h hd hn1 hk hl fun hidle => ?_
  have hup := (h.flowing.back hn1).upper
  rw [hd.sentTop hn1] at hup
  refine lt_of_le_of_ne hup fun heq => hnot (h.caughtUp hn heq fun t ht => ?_)
  rw [hacks] at ht
  rw [List.mem_singleton.1 ht]
  exact hidle

end Back

/-! ## Both ways -/

section Chain

variable {n start : ℕ} {log : ReplayLog} {s : Nodes}

theorem Drained.of_path {goal : ℤ} {z : Nodes} (h : Drained n goal s) (hp : ∀ j, (z j).path = (s j).path) :
    Drained n goal z := by
  have hpush : (z 0).pushing = (s 0).pushing := congrArg Path.pushing (hp 0)
  have hr : ∀ i, (z i).rwb = (s i).rwb := fun i => congrArg Path.rwb (hp i)
  have hw : ∀ i, (z i).writeSeq = (s i).writeSeq := fun i => congrArg Path.writeSeq (hp i)
  refine ⟨hpush.trans h.pushing, fun i hi => ?_⟩
  rw [hr, hw]
  exact h.node i hi

/-- **The way down can be emptied.** -/
theorem exists_run_down (hn : 0 < n) (hs : start < 2 ^ 31) (h : Returning n start log s) :
    ∃ es, Meets step (Orderly log) s es ∧
      (Returning n start log (run step s es) ∧ (run step s es 0).numbered = (s 0).numbered) ∧
      Drained n (start + (s 0).numbered.length) (run step s es) := by
  refine exists_run_of_rank step (Orderly log) (fun z => Returning n start log z ∧ (z 0).numbered = (s 0).numbered)
    (Drained n (start + (s 0).numbered.length)) (Nodes.leftDown n (start + (s 0).numbered.length)) ?_ s ⟨h, rfl⟩
  intro z hz hnot
  obtain ⟨hr, hnum⟩ := hz
  obtain ⟨x, ho, hx, hlt⟩ := exists_step_down hn hr.flowing (by rw [hnum]) hnot
  exact ⟨x, ho, ⟨returning_step hn hs hr x ho, hx.trans hnum⟩, hlt⟩

/-- **The way back can be emptied** when the way down is. -/
theorem exists_run_up (hn : 0 < n) (hs : start < 2 ^ 31) {goal : ℤ} (h : Returning n start log s)
    (hd : Drained n goal s) :
    ∃ es, Meets step (Orderly log) s es ∧
      (Returning n start log (run step s es) ∧ Drained n goal (run step s es) ∧
        (run step s es 0).numbered = (s 0).numbered) ∧ CaughtUp n goal (run step s es) := by
  refine exists_run_of_rank step (Orderly log)
    (fun z => Returning n start log z ∧ Drained n goal z ∧ (z 0).numbered = (s 0).numbered) (CaughtUp n goal)
    (Nodes.leftUp n goal) ?_ s ⟨h, hd, rfl⟩
  intro z hz hnot
  obtain ⟨hr, hdz, hnum⟩ := hz
  obtain ⟨x, ho, hx, hlt⟩ := exists_step_up hr hn hdz hnot
  exact ⟨x, ho, ⟨returning_step hn hs hr x ho, hdz.of_path hx, (congrArg Path.numbered (hx 0)).trans hnum⟩, hlt⟩

/-- a node with nothing left to do about the entries `N` -/
structure Complete (N : List Entry) (x : Node) : Prop where
  written : x.written = N
  committed : x.committed = N.map fun e => (e.seqNum, e.volumeOffset)
  pending : ∀ e, e ∉ x.pendingQueue
  sent : ∀ y, y ∉ x.sentList
  rwb : x.rwb = .poll
  relays : ∀ h ∈ x.relays, h.phase.finished = true
  acks : ∀ t ∈ x.acks, t.phase.over = true ∨ t.background = true ∧ (t.phase = .start ∨ t.phase = .ready)

theorem Returning.complete (h : Returning n start log s) (hd : Drained n (start + (s 0).numbered.length) s)
    (hc : CaughtUp n (start + (s 0).numbered.length) s) {i : ℕ} (hi : i < n) : Complete (s 0).numbered (s i) := by
  have hpath := h.flowing.inStep.order.path
  have hnode := hpath.node i hi
  have hstored := h.flowing.inStep.stored i hi
  have hnum : Consecutive start (s 0).numbered := hpath.head.numbering
  have hcommit := hc.commit i hi
  obtain ⟨hr, hw⟩ := hd.node i hi
  have hseq : (s i).path.writtenSeq = start + (s 0).numbered.length := by
    simp [Path.writtenSeq, Node.path, hr, hw]
  have hunbumped : ∀ t ∈ (s i).acks, t.phase.unbumped = false := by
    intro t ht
    rcases hc.idle i hi t ht with hp | ⟨-, hp | hp⟩
    · revert hp
      cases t.phase <;> simp [AckPhase.over, AckPhase.unbumped]
    · rw [hp]; rfl
    · rw [hp]; rfl
  have hlen : (s i).committed.length = (s 0).numbered.length := by
    have := hstored.commits.settled hunbumped
    omega
  refine ⟨?_, ?_, fun e he => ?_, fun y hy => ?_, hr, fun x hx => ?_, fun t ht => ?_⟩
  · have hwritten : (s i).written = (s 0).numbered.take ((s i).path.writtenSeq - start).toNat := hnode.written
    rw [hwritten, hseq]
    simp
  · have hall := (hstored.committed_eq hnode hnum).2
    rw [hlen, List.take_length] at hall
    exact hall
  · have h1 := h.flowing.above hi e he
    have h2 := hnum.le (hnode.queue e he)
    have htop : (s i).path.top = (s i).writeSeq := by simp [Path.top, Node.path, hr, Rwb.inHand]
    omega
  · obtain ⟨h1, h2⟩ := (h.flowing.back hi).sent y hy
    rw [hd.sentTop hi] at h2
    omega
  · cases i with
    | zero =>
      rw [h.flowing.sequence.top] at hx
      cases hx
    | succ j =>
      obtain ⟨m, hm⟩ := List.mem_iff_getElem?.1 hx
      have hrj : (s j).path.rwb.relaying = none := by
        show (s j).rwb.relaying = none
        rw [(hd.node j (by omega)).1]
        rfl
      exact (hpath.link j hi).finished hrj m x hm
  · refine (hc.idle i hi t ht).imp_right fun hp => ⟨?_, hp.2⟩
    exact (h.background hi ht).2 (by omega)

end Chain

/-- **A stable chain never gets stuck.** From every state that a run within the rules reaches, steps within the rules
lead to one in which the head still has numbered the same entries, and every node has written all of them, committed all
of them, emptied its queues and finished every call. -/
theorem never_stuck (n start : ℕ) (hn : 0 < n) (hs : start < 2 ^ 31) (log : ReplayLog) (es : List Event)
    (hm : Meets step (Orderly log) (stable n start log) es) :
    ∃ es', Meets step (Orderly log) (stable n start log) (es ++ es') ∧
      (run step (stable n start log) (es ++ es') 0).numbered = (run step (stable n start log) es 0).numbered ∧
      (run step (stable n start log) (es ++ es') 0).pushing = [] ∧
      ∀ i < n,
        Complete (run step (stable n start log) es 0).numbered (run step (stable n start log) (es ++ es') i) := by
  obtain ⟨es₁, hm₁, ⟨hr₁, hnum₁⟩, hd₁⟩ := exists_run_down hn hs (returning_run hn hs log es hm)
  obtain ⟨es₂, hm₂, ⟨hr₂, hd₂, hnum₂⟩, hc₂⟩ := exists_run_up hn hs hr₁ hd₁
  have hrun : run step (stable n start log) (es ++ (es₁ ++ es₂)) =
      run step (run step (run step (stable n start log) es) es₁) es₂ := by rw [run_append, run_append]
  have hnum := hnum₂.trans hnum₁
  refine ⟨es₁ ++ es₂, ?_, ?_, ?_, fun i hi => ?_⟩
  · rw [meets_append, meets_append]
    exact ⟨hm, hm₁, hm₂⟩
  · rw [hrun]
    exact hnum
  · rw [hrun]
    exact hd₂.pushing
  · rw [hrun, ← hnum]
    exact hr₂.complete (by rw [hnum]; exact hd₂) (by rw [hnum]; exact hc₂) hi

/-- two nodes; the request of the relay has been lost on its way to the tail -/
def lostRelay : List Event :=
  [.act 0 (.write (.addToLog (request 1))), .act 0 (.write (.takeSeq 0)), .act 0 (.write (.pushEntry 0)),
    .act 0 (.rwb .poll), .act 0 (.rwb .spin), .act 0 (.rwb .pop), .sendRelay 0, .act 1 (.relay 0 .drop)]

theorem never_stuck_two_nodes : ∃ es', ∀ i < 2,
    (run step (stable 2 0 ReplayLog.empty) (lostRelay ++ es') i).written = [(request 1).entry 1] ∧
      (run step (stable 2 0 ReplayLog.empty) (lostRelay ++ es') i).committed = [(1, (request 1).offset.toInt64)] := by
  have hm : Meets step (Orderly ReplayLog.empty) (stable 2 0 ReplayLog.empty) lostRelay := by decide +kernel
  have hnum : (run step (stable 2 0 ReplayLog.empty) lostRelay 0).numbered = [(request 1).entry 1] := by decide +kernel
  obtain ⟨es', -, -, -, hall⟩ := never_stuck 2 0 (by decide) (by decide) ReplayLog.empty lostRelay hm
  rw [hnum] at hall
  exact ⟨es', fun i hi => ⟨(hall i hi).written, (hall i hi).committed⟩⟩

end ChainedBlockStorage.Chain
