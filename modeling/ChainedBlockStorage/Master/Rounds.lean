/-
`Register` and `run_heartbeat` at the same time.

`Machine` has a thread in `Register` and the heartbeat thread, each at a program point; a registration takes `reg_mtx`,
and the two share everything else. Every call is a step, with its answer as an argument.

- `rounds_in_order`: no iterator leaves its copy and the list is in order whenever nobody is at work, in every run in
  which no node joins between a round's copy of the list and the end of its failure handling, and a joining node still
  finds the tail in the role that was chosen for it.
- `joined_during_round`: a node joins between the copy and the failure of a single server, and the handler walks out of
  the copy; the head fails between the choice and the list update, and the tail gets the wrong role.
-/
import ChainedBlockStorage.Master.Roles

namespace ChainedBlockStorage.Master

open Chain (State)
open Run

/-! ## The two threads -/

/-- where the thread in `Register` is, with its node, number, role for the old tail and `prev_addr` -/
inductive RegPc where
  | idle
  | beat (newNode : ℕ) (lastSeqNum : UInt64)
  | choose (newNode : ℕ) (lastSeqNum : UInt64)
  | check (newNode : ℕ) (lastSeqNum : UInt64) (oldTailState : State)
  | change (newNode : ℕ) (lastSeqNum : UInt64) (oldTailState : State)
  | reply (newNode : ℕ) (oldTailState : State)
  | update (newNode : ℕ) (oldTailState : State) (prevAddr : Option Addr)
deriving DecidableEq

/-- where the heartbeat thread is -/
inductive BeatPc where
  | sleeping
  | round (copy : List ℕ) (it : ℕ)
  | failing (h : Handler)
  /-- the process has exited -/
  | exited
deriving DecidableEq

structure Machine where
  world : World
  reg : RegPc
  beat : BeatPc

def Machine.start : Machine := ⟨World.start, .idle, .sleeping⟩

def RegPc.newNode : RegPc → Option ℕ
  | .idle => none
  | .beat p _ | .choose p _ | .check p _ _ | .change p _ _ | .reply p _ | .update p _ _ => some p

/-- a call of `Register` gets the lock -/
def Machine.register (m : Machine) (a : Addr) (lastSeqNum : UInt64) : Machine :=
  if m.world.roster.regMtx then m
  else { m with
    world := { m.world with roster := m.world.roster.build a }
    reg := .beat m.world.roster.made lastSeqNum }

/-- the next step of `Register`; `status` is the answer when it is a call -/
def Machine.regStep (m : Machine) (status : Status) : Machine :=
  match m.reg with
  | .idle => m
  | .beat p seq =>
    match status with
    | .ok => { m with reg := .choose p seq }
    | .unavailable | .unimplemented => m
    | .other => { m with reg := .idle }
  | .choose p seq => { m with reg := .check p seq m.world.roster.oldTailState }
  | .check p seq old =>
    if m.world.roster.nodeList = [] then { m with reg := .update p old none } else { m with reg := .change p seq old }
  | .change p seq old =>
    match status, m.world.roster.tail with
    | .ok, some t =>
      { m with
        world := m.world.changeMode t (joinRequest (m.world.roster.node p).addr seq old)
        reg := .reply p old }
    -- not null: the list was not empty
    | .ok, none => m
    | .unavailable, _ | .unimplemented, _ => m
    | .other, _ => { m with reg := .idle }
  | .reply p old => { m with reg := .update p old m.world.roster.tailAddr }
  | .update p old prevAddr =>
    let a := (m.world.roster.node p).addr
    { m with
      world := { m.world with
        roster := m.world.roster.insert p old
        servers := Function.update m.world.servers a ((m.world.servers a).registered prevAddr) }
      reg := .idle }

/-- the next step of `run_heartbeat`; `status` is the answer when it is a call, and `seq` the number in it -/
def Machine.beatStep (m : Machine) (status : Status) (seq : UInt64) : Machine :=
  match m.beat with
  | .sleeping => { m with beat := .round m.world.roster.nodeList 0 }
  | .round copy it =>
    if it < copy.length then
      match status with
      | .ok | .unimplemented => { m with beat := .round copy (it + 1) }
      | .unavailable => { m with beat := .failing ⟨copy, it, .call⟩ }
      | .other => { m with beat := .exited }
    else { m with beat := .sleeping }
  | .failing h =>
    let s := h.step m.world (if status = .ok then some seq else none)
    { m with world := s.1, beat := if s.2.pc = .returned then .sleeping else .failing s.2 }
  | .exited => m

inductive RoundEvent where
  | register (a : Addr) (lastSeqNum : UInt64)
  | reg (status : Status)
  | beat (status : Status) (seq : UInt64)

def Machine.step (m : Machine) (e : RoundEvent) : Machine :=
  match m.beat, e with
  | .exited, _ => m
  | _, .register a lastSeqNum => m.register a lastSeqNum
  | _, .reg status => m.regStep status
  | _, .beat status seq => m.beatStep status seq

/-- no iterator has left its list, and the list is in order when nobody is at work -/
structure RoundsSafe (m : Machine) : Prop where
  inside : m.world.fault = false
  ordered : m.reg = .idle → m.beat = .sleeping → m.world.roster.nodeList ≠ [] → Roles m.world.roster

/-! ## The condition -/

def BeatPc.busy : BeatPc → Bool
  | .failing _ => true
  | _ => false

/-- the copy that a round is about to call a node of -/
def BeatPc.copy : BeatPc → Option (List ℕ)
  | .round copy it => if it < copy.length then some copy else none
  | _ => none

/-- the role that the list update of `Register` records for the old tail -/
def RegPc.joins : RegPc → Option State
  | .update _ old _ => some old
  | _ => none

/-- a failure is found in a copy that is still the list; the list is updated while no failure is handled, and the role
chosen for the tail is still the one for it -/
def Undisturbed (m : Machine) : RoundEvent → Prop
  | .register _ _ => True
  | .reg _ => ∀ old ∈ m.reg.joins, m.beat.busy = false ∧
      (m.world.roster.nodeList = [] ∨ old = m.world.roster.oldTailState)
  | .beat status _ => status = .unavailable → ∀ copy ∈ m.beat.copy, copy = m.world.roster.nodeList

instance (m : Machine) : ∀ e, Decidable (Undisturbed m e)
  | .register _ _ => isTrue trivial
  | .reg _ => inferInstanceAs (Decidable (∀ old ∈ m.reg.joins, m.beat.busy = false ∧
      (m.world.roster.nodeList = [] ∨ old = m.world.roster.oldTailState)))
  | .beat status _ => inferInstanceAs (Decidable (status = .unavailable → ∀ copy ∈ m.beat.copy,
      copy = m.world.roster.nodeList))

/-! ## The invariant -/

structure RoundInv (m : Machine) : Prop where
  inside : m.world.fault = false
  made : ∀ p ∈ m.world.roster.nodeList, p < m.world.roster.made
  pending : ∀ p ∈ m.reg.newNode, p ∉ m.world.roster.nodeList ∧ p < m.world.roster.made
  roles : m.beat.busy = false → Roles m.world.roster
  failing : ∀ h, m.beat = .failing h → ∃ k, Working m.world.roster h k

/-- what a handler reads of the list is about the members and the two ends -/
theorem Working.congr {r x : Roster} {h : Handler} {k : ℕ} (hw : Working r h k) (hl : x.nodeList = r.nodeList)
    (hnode : ∀ p ∈ r.nodeList, x.node p = r.node p) (hhead : x.head = r.head) (htail : x.tail = r.tail)
    (hmade : r.made ≤ x.made) : Working x h k := by
  cases r with | mk node made nodeList head tail regMtx =>
  cases x with | mk node' made' nodeList' head' tail' regMtx' =>
  simp only at hl hnode hhead htail hmade
  subst hl hhead htail
  have hroles : ∀ {r : Roster}, r = ⟨node, made, nodeList', head', tail', regMtx⟩ → Roles r →
      Roles ⟨node', made', nodeList', head', tail', regMtx'⟩ := by
    rintro r rfl hr
    exact hr.congr rfl hnode rfl rfl hmade
  cases hw with
  | callEnd hr hi hlt hk => exact .callEnd (hroles rfl hr) hi hlt hk
  | callMiddle hr hi hlt hk => exact .callMiddle (hroles rfl hr) hi hlt hk
  | forward hr hc hit hd hk => exact .forward (hroles rfl hr) hc hit hd hk
  | backward hr hc hit hlt hd hk => exact .backward (hroles rfl hr) hc hit hlt hd hk
  | lookDown hr hs hsi hit hd hk => exact .lookDown (hroles rfl hr) hs hsi hit hd hk
  | lookUp hr hit his he hse hd hk => exact .lookUp (hroles rfl hr) hit his he hse hd hk
  | changeDown hr hb he hbe hd hk => exact .changeDown (hroles rfl hr) hb he hbe hd hk
  | changeUp hr hb he hbe hd hk => exact .changeUp (hroles rfl hr) hb he hbe hd hk
  | remove hr hk => exact .remove (hr.congr rfl (fun p hp => hnode p (List.mem_of_mem_filter hp)) rfl rfl hmade) hk
  | returned hr => exact .returned (hroles rfl hr)

section RoundInv

variable {m : Machine}

/-- a new node, while the heartbeat thread is anywhere -/
theorem RoundInv.register (h : RoundInv m) (a : Addr) (lastSeqNum : UInt64) : RoundInv (m.register a lastSeqNum) := by
  unfold Machine.register
  split_ifs
  · exact h
  have hnew : m.world.roster.made ∉ m.world.roster.nodeList := fun hm => lt_irrefl _ (h.made _ hm)
  have hsame : ∀ p ∈ m.world.roster.nodeList, (m.world.roster.build a).node p = m.world.roster.node p := by
    intro p hp
    have hne : p ≠ m.world.roster.made := (h.made p hp).ne
    simp [Roster.build, hne]
  refine ⟨h.inside, fun p hp => Nat.lt_succ_of_lt (h.made p hp), ?_, fun hb => ?_, fun hd he => ?_⟩
  · intro p hp
    obtain rfl : m.world.roster.made = p := Option.some.inj hp
    exact ⟨hnew, Nat.lt_succ_self _⟩
  · exact (h.roles hb).congr rfl hsame rfl rfl (Nat.le_succ _)
  · obtain ⟨k, hw⟩ := h.failing hd he
    exact ⟨k, hw.congr rfl hsame rfl rfl (Nat.le_succ _)⟩

/-- the thread in `Register` goes on without touching the list -/
theorem RoundInv.advance (h : RoundInv m) {reg : RegPc} (hreg : ∀ p ∈ reg.newNode, p ∈ m.reg.newNode)
    (servers : Addr → Server Addr) :
    RoundInv { m with world := { m.world with servers := servers }, reg := reg } :=
  ⟨h.inside, h.made, fun p hp => h.pending p (hreg p hp), h.roles, h.failing⟩

/-- the list update -/
theorem RoundInv.update (h : RoundInv m) {p : ℕ} {old : State} (hp : m.reg.newNode = some p)
    (hb : m.beat.busy = false) (hold : m.world.roster.nodeList = [] ∨ old = m.world.roster.oldTailState)
    (servers : Addr → Server Addr) :
    RoundInv { m with
      world := { m.world with roster := m.world.roster.insert p old, servers := servers }, reg := .idle } := by
  have hroles := h.roles hb
  obtain ⟨hnew, hlt⟩ := h.pending p hp
  have hold' : m.world.roster.nodeList = [] ∨
      old = if m.world.roster.nodeList.length = 1 then .head else .middle := by
    by_cases hne : m.world.roster.nodeList = []
    · exact Or.inl hne
    · exact Or.inr ((hold.resolve_left hne).trans (hroles.oldTailState hne))
  have hins := hroles.insert hnew hlt hold'
  refine ⟨h.inside, hins.made, fun q hq => ?_, fun _ => hins, fun hd he => ?_⟩
  · cases hq
  · simp only at he
    rw [he] at hb
    cases hb

theorem RoundInv.regStep (h : RoundInv m) {status : Status} (hu : Undisturbed m (.reg status)) :
    RoundInv (m.regStep status) := by
  unfold Machine.regStep
  cases hreg : m.reg with
  | idle => exact h
  | beat p seq =>
    cases status with
    | ok => exact h.advance (by simp [hreg, RegPc.newNode]) m.world.servers
    | unavailable | unimplemented => exact h
    | other => exact h.advance (by simp [RegPc.newNode]) m.world.servers
  | choose p seq => exact h.advance (by simp [hreg, RegPc.newNode]) m.world.servers
  | check p seq old =>
    dsimp only
    split
    · exact h.advance (by simp [hreg, RegPc.newNode]) m.world.servers
    · exact h.advance (by simp [hreg, RegPc.newNode]) m.world.servers
  | change p seq old =>
    dsimp only
    split
    · exact h.advance (by simp [hreg, RegPc.newNode]) _
    · exact h
    · exact h
    · exact h
    · exact h.advance (by simp [RegPc.newNode]) m.world.servers
  | reply p old => exact h.advance (by simp [hreg, RegPc.newNode]) m.world.servers
  | update p old prevAddr =>
    obtain ⟨hb, hold⟩ := hu old (by simp [hreg, RegPc.joins])
    exact h.update (by simp [hreg, RegPc.newNode]) hb hold _

/-- the heartbeat thread goes on without handling a failure -/
theorem RoundInv.calm (h : RoundInv m) {beat : BeatPc} (hm : m.beat.busy = false) (hb : beat.busy = false) :
    RoundInv { m with beat := beat } := by
  refine ⟨h.inside, h.made, h.pending, fun _ => h.roles hm, fun hd he => ?_⟩
  simp only at he
  rw [he] at hb
  cases hb

theorem RoundInv.beatStep (h : RoundInv m) {status : Status} {seq : UInt64}
    (hu : Undisturbed m (.beat status seq)) : RoundInv (m.beatStep status seq) := by
  unfold Machine.beatStep
  cases hbeat : m.beat with
  | sleeping => exact h.calm (by rw [hbeat]; rfl) rfl
  | round copy it =>
    have hcalm : m.beat.busy = false := by
      rw [hbeat]
      rfl
    dsimp only
    split_ifs with hit
    · cases status with
      | ok | unimplemented => exact h.calm hcalm rfl
      | unavailable =>
        have hcopy : copy = m.world.roster.nodeList := hu rfl copy (by simp [hbeat, BeatPc.copy, hit])
        refine ⟨h.inside, h.made, h.pending, fun hb => ?_, fun hd he => ?_⟩
        · cases hb
        · obtain rfl := BeatPc.failing.inj he
          subst hcopy
          exact ⟨_, Working.start (h.roles hcalm) hit⟩
      | other => exact h.calm hcalm rfl
    · exact h.calm hcalm rfl
  | failing hd =>
    obtain ⟨k, hw⟩ := h.failing hd hbeat
    dsimp only
    generalize (if status = .ok then some seq else none) = answer
    obtain ⟨hstep, hfault⟩ := step_working hw answer
    obtain ⟨hl, hmade, -⟩ := step_members m.world hd answer
    have hsub := hl.subset
    refine ⟨hfault.trans h.inside, fun p hp => ?_, fun p hp => ?_, fun hb => ?_, fun hd' he => ?_⟩
    · exact hmade ▸ h.made p (hsub hp)
    · obtain ⟨h1, h2⟩ := h.pending p hp
      exact ⟨fun hp' => h1 (hsub hp'), hmade ▸ h2⟩
    · simp only at hb
      split_ifs at hb with hpc
      · exact hstep.roles hpc
      · cases hb
    · simp only at he
      split_ifs at he with hpc
      obtain rfl := BeatPc.failing.inj he
      exact ⟨_, hstep⟩
  | exited => exact h

end RoundInv

theorem step_roundInv {m : Machine} (h : RoundInv m) {e : RoundEvent} (hu : Undisturbed m e) :
    RoundInv (m.step e) := by
  unfold Machine.step
  split
  · exact h
  · exact h.register _ _
  · exact h.regStep hu
  · exact h.beatStep hu

theorem roundInv_start : RoundInv Machine.start :=
  ⟨rfl, fun _ hp => absurd hp List.not_mem_nil, fun _ hp => absurd hp (Option.not_mem_none _),
    fun _ => Roles.of_empty rfl, fun _ he => by cases he⟩

/-- **Registrations and rounds.** In every run in which no node joins between a round's copy of the list and the end of
its failure handling, and a joining node still finds the tail in the role that was chosen for it, no iterator leaves its
copy and the list is in order whenever nobody is at work. -/
theorem rounds_in_order (es : List RoundEvent) (h : Meets Machine.step Undisturbed Machine.start es) :
    RoundsSafe (run Machine.step Machine.start es) := by
  have hinv := run_inv_of_meets Machine.step Undisturbed RoundInv (fun _ _ hm hu => step_roundInv hm hu) Machine.start
    es roundInv_start h
  refine ⟨hinv.inside, fun _ hb _ => hinv.roles ?_⟩
  rw [hb]
  rfl

/-- a registration up to the choice of the role for the old tail, with every call answered -/
def registerTo (port : ℤ) : List RoundEvent := [.register ⟨"10.0.0.1", port⟩ 0, .reg .ok, .reg .ok]

/-- the check, `ChangeMode` and the reply -/
def joinTail : List RoundEvent := [.reg .ok, .reg .ok, .reg .ok]

/-- the first node registers: there is no tail to call -/
def registerFirst : List RoundEvent := registerTo 1 ++ [.reg .ok, .reg .ok]

def registerNext (port : ℤ) : List RoundEvent := registerTo port ++ joinTail ++ [.reg .ok]

/-- the first of three fails in a round while the fourth registers -/
def failWhileRegistering : List RoundEvent :=
  registerFirst ++ registerNext 2 ++ registerNext 3 ++ [.beat .ok 0] ++ registerTo 4 ++
    [.beat .unavailable 0, .beat .ok 0] ++ joinTail ++ List.replicate 3 (.beat .ok 0) ++ [.reg .ok]

theorem rounds_in_order_failure :
    RoundsSafe (run Machine.step Machine.start failWhileRegistering) ∧
      (run Machine.step Machine.start failWhileRegistering).world.roster.nodeList = [1, 2, 3] ∧
        ((run Machine.step Machine.start failWhileRegistering).world.roster.node 1).state = .head := by
  have hm : Meets Machine.step Undisturbed Machine.start failWhileRegistering := by decide +kernel
  exact ⟨rounds_in_order failWhileRegistering hm, by decide +kernel, by decide +kernel⟩

/-- a round copies the list of one node, and the second one joins before the heartbeat fails -/
def joinDuringRound : List RoundEvent :=
  registerFirst ++ [.beat .ok 0] ++ registerNext 2 ++ [.beat .unavailable 0, .beat .ok 0, .beat .ok 0]

/-- of two nodes the head fails between the choice of MIDDLE for the tail and the list update -/
def failAfterChoice : List RoundEvent :=
  registerFirst ++ registerNext 2 ++ registerTo 3 ++
    [.beat .ok 0, .beat .unavailable 0, .beat .ok 0, .beat .ok 0, .beat .ok 0, .beat .ok 0] ++ joinTail ++ [.reg .ok]

/-- **They interfere.** The handler walks out of its copy, in which the new tail is missing; and the tail that has taken
over as single server becomes a middle node. -/
theorem joined_during_round :
    (run Machine.step Machine.start joinDuringRound).world.fault = true ∧
      ¬ RoundsSafe (run Machine.step Machine.start joinDuringRound) ∧
        ¬ RoundsSafe (run Machine.step Machine.start failAfterChoice) := by
  have hfault : (run Machine.step Machine.start joinDuringRound).world.fault = true := by decide +kernel
  refine ⟨hfault, fun h => ?_, fun h => ?_⟩
  · rw [h.inside] at hfault
    cases hfault
  · have hroles := h.ordered (by decide +kernel) (by decide +kernel) (by decide +kernel)
    exact absurd (hroles.role 0 1 (by decide +kernel)) (by decide +kernel)

end ChainedBlockStorage.Master
