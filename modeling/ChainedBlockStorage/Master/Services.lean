/-
The head and the tail service of the servers, and `GetConfig`.

A server launches the services itself, when `ChangeMode` or the reply of `Register` changes its state; a client finds them
through the addresses that the master answers. `Services` is what listens at one server. It follows the state of the
server step by step (`Hosted`), so that a service launched twice, or shut down where none listens, is seen.

- `config_served`: in every sequence of registrations and failures, the first list member is the only member with a head
  service, the last one the only member with a tail service, and `GetConfig` answers these two. A server that the master
  has dropped keeps what it listens on, and `hlp_Manage_Failure` leaves `head` and `tail` where they are when the list
  becomes empty; neither is followed here.
-/
import ChainedBlockStorage.Master.Roles

namespace ChainedBlockStorage.Master

open Chain (State roleOf)
open Run Positions

/-! ## `GetConfig` -/

/-- `Constants::head_port` -/
def headPort : ℤ := 1000

/-- `Constants::tail_port` -/
def tailPort : ℤ := 2000

/-- the address of a service of the server at `a` -/
def Addr.service (a : Addr) (port : ℤ) : Addr := ⟨a.ip, a.port + port⟩

structure GetConfigReply where
  head : Addr
  tail : Addr
deriving DecidableEq

/-- a reply with no field set -/
def GetConfigReply.unset : GetConfigReply := ⟨⟨"", 0⟩, ⟨"", 0⟩⟩

def Roster.getConfig (r : Roster) : GetConfigReply :=
  let reply := match r.head with
    | none => { GetConfigReply.unset with head := ⟨"localhost", -1⟩ }
    | some head => { GetConfigReply.unset with head := (r.node head).addr.service headPort }
  match r.tail with
  -- not the tail of the reply
  | none => { reply with head := ⟨"localhost", -1⟩ }
  | some tail => { reply with tail := (r.node tail).addr.service tailPort }

theorem Addr.service_inj {a b : Addr} {port : ℤ} (h : a.service port = b.service port) : a = b := by
  obtain ⟨ip, p⟩ := a
  obtain ⟨ip', p'⟩ := b
  simp only [Addr.service, Addr.mk.injEq] at h ⊢
  exact ⟨h.1, by linarith [h.2]⟩

/-! ## Services -/

structure Services where
  head : Bool
  tail : Bool
  /-- a service was launched where it was listening, or shut down where it was not -/
  fault : Bool
deriving DecidableEq

/-- a process that has just started -/
def Services.down : Services := ⟨false, false, false⟩

def Services.launchHead (v : Services) : Services := { v with head := true, fault := v.fault || v.head }

def Services.launchTail (v : Services) : Services := { v with tail := true, fault := v.fault || v.tail }

def Services.killTail (v : Services) : Services := { v with tail := false, fault := v.fault || !v.tail }

/-- what `ChangeMode` launches and shuts down -/
def Services.changeMode (v : Services) (newState oldState : State) : Services :=
  if newState = oldState then v
  else match newState with
    | .single =>
      let v := if oldState ≠ .head then v.launchHead else v
      if oldState ≠ .tail then v.launchTail else v
    | .head =>
      let v := if oldState = .single then v.killTail else v
      if oldState ≠ .single then v.launchHead else v
    | .tail => if oldState ≠ .single then v.launchTail else v
    | .middle => if oldState = .tail then v.killTail else v
    | .initializing | .transition => v

/-- what `register_server` launches after the reply -/
def Services.registered (hasPrevAddr : Bool) : Services :=
  let v := if hasPrevAddr then Services.down else Services.down.launchHead
  v.launchTail

/-- the services that belong to a state -/
def Services.of (s : State) : Services := ⟨s = .head ∨ s = .single, s = .tail ∨ s = .single, false⟩

/-- the change launches what the new state lacks, and shuts down what it has too much -/
def Switches (oldState newState : State) : Prop :=
  (Services.of oldState).changeMode newState oldState = Services.of newState

instance (oldState newState : State) : Decidable (Switches oldState newState) := inferInstanceAs (Decidable (_ = _))

theorem Services.changeMode_self (v : Services) (s : State) : v.changeMode s s = v := if_pos rfl

theorem switches_refl (s : State) : Switches s s := Services.changeMode_self _ s

/-- by position, in a chain of `n` nodes -/
theorem Services.of_roleOf {n i : ℕ} (hi : i < n) : Services.of (roleOf n i) = ⟨i = 0, i + 1 = n, false⟩ := by
  unfold roleOf Services.of
  split_ifs with h1 h2 h3
  · obtain rfl : i = 0 := by omega
    simp [h1]
  · have hne : 0 + 1 ≠ n := by omega
    simp [h2, hne]
  · simp [h2, h3]
  · simp [h2, h3]

/-! ## The master, the servers and their services -/

structure Hosted where
  world : World
  services : Addr → Services

def Hosted.start : Hosted := ⟨World.start, fun _ => Services.down⟩

/-- the services when the servers have gone from `w` to `x` with at most one `ChangeMode` -/
def follow (services : Addr → Services) (w x : World) : Addr → Services := fun a =>
  (services a).changeMode (x.servers a).state (w.servers a).state

/-- `Register`; the server at `a` is a new process -/
def Hosted.register (s : Hosted) (a : Addr) (lastSeqNum : UInt64) (beats calls : List Status) : Hosted where
  world := s.world.register a lastSeqNum beats calls
  services :=
    if s.world.completes beats calls then
      Function.update (follow s.services s.world (s.world.register a lastSeqNum beats calls)) a
        (Services.registered !s.world.roster.nodeList.isEmpty)
    else s.services

/-- the services along `Handler.steps` -/
def serveSteps : ℕ → World → Handler → (ℕ → Option UInt64) → (Addr → Services) → Addr → Services
  | 0, _, _, _, services => services
  | k + 1, w, h, answers, services =>
    let s := h.step w (answers 0)
    serveSteps k s.1 s.2 (fun i => answers (i + 1)) (follow services w s.1)

def Hosted.step (s : Hosted) : RosterEvent → Hosted
  | .register a lastSeqNum beats calls => s.register a lastSeqNum beats calls
  | .fail i answers =>
    if i < s.world.roster.nodeList.length then
      ⟨s.world.manageFailure i answers, serveSteps (4 * s.world.roster.nodeList.length + 12) s.world
        ⟨s.world.roster.nodeList, i, .call⟩ answers s.services⟩
    else s

/-- every list member has the services of its state, and no launch has gone wrong -/
structure Placed (w : World) (services : Addr → Services) : Prop where
  members : ∀ p ∈ w.roster.nodeList, services (w.roster.node p).addr = Services.of (w.servers (w.roster.node p).addr).state
  clean : ∀ a, (services a).fault = false

/-! ## One call of `ChangeMode` -/

section Call

variable {w x : World} {services : Addr → Services}

theorem follow_same (h : x.servers = w.servers) : follow services w x = services := by
  funext a
  rw [follow, h, Services.changeMode_self]

/-- what one step of the master does to the servers -/
inductive Called (w x : World) : Prop
  | nobody (h : x.servers = w.servers)
  | member {p : ℕ} {request : ChangeModeRequest Addr} (hp : p ∈ w.roster.nodeList)
      (h : x.servers = (w.changeMode p request).servers) (hs : Switches (w.roster.node p).state request.newState)

/-- **One call**: the services of the member that is called are those of its new state. -/
theorem Placed.call (h : Placed w services) (ha : Applied w) (hx : Called w x)
    (hl : x.roster.nodeList.Sublist w.roster.nodeList)
    (haddr : ∀ p, (x.roster.node p).addr = (w.roster.node p).addr) : Placed x (follow services w x) := by
  cases hx with
  | nobody hs =>
    rw [follow_same hs]
    refine ⟨fun p hp => ?_, h.clean⟩
    rw [haddr, hs]
    exact h.members p (hl.subset hp)
  | @member p request hp hs hswitch =>
    -- the services of the member that is called
    have hself : follow services w x (w.roster.node p).addr = Services.of (x.servers (w.roster.node p).addr).state := by
      have hstate : (x.servers (w.roster.node p).addr).state = request.newState := by
        simp only [hs, World.changeMode, Function.update_self, Server.changeMode_state]
      calc follow services w x (w.roster.node p).addr
          = (Services.of (w.roster.node p).state).changeMode request.newState (w.roster.node p).state := by
            rw [follow, hstate, h.members p hp, ha.states p hp]
        _ = Services.of request.newState := hswitch
        _ = _ := by rw [hstate]
    have hother : ∀ a, a ≠ (w.roster.node p).addr → x.servers a = w.servers a := by
      intro a hne
      simp only [hs, World.changeMode]
      exact Function.update_of_ne hne _ _
    constructor
    · intro q hq
      rw [haddr]
      by_cases hqp : (w.roster.node q).addr = (w.roster.node p).addr
      · rw [hqp]
        exact hself
      · rw [follow, hother _ hqp, Services.changeMode_self]
        exact h.members q (hl.subset hq)
    · intro a
      by_cases hap : a = (w.roster.node p).addr
      · rw [hap, hself]
        rfl
      · rw [follow, hother _ hap, Services.changeMode_self]
        exact h.clean a

end Call

/-! ## A failure -/

section Failure

variable {w : World} {services : Addr → Services} {hd : Handler} {k : ℕ}

/-- a node takes over from the head -/
theorem forward_called {it current : ℕ} (hr : Roles w.roster) (hc : w.roster.nodeList[0]? = some current)
    (hit : it + 1 < w.roster.nodeList.length) (dropList : List ℕ) (pc : Pc) (answer : Option UInt64) :
    Called w (w.takeOver ⟨w.roster.nodeList, it, pc⟩ current w.roster.nodeList[w.roster.nodeList.length - 1]? dropList
      answer).1 := by
  obtain ⟨p, hp, hmove⟩ := move_forward (h := ⟨w.roster.nodeList, it, pc⟩) hit
  simp only at hp hmove
  have hhead : (w.roster.node current).state = .head := by
    rw [hr.role 0 current hc]
    unfold roleOf
    split_ifs <;> first | rfl | omega
  have hend := eq_endpoint_iff hr.nodup hp (j := w.roster.nodeList.length - 1) (by omega)
  cases answer with
  | none =>
    simp only [World.takeOver, hhead, beq_self_eq_true, hmove]
    exact .nobody rfl
  | some seq =>
    simp only [World.takeOver, hhead, beq_self_eq_true, hmove, ne_eq, hend]
    refine .member (List.mem_of_getElem? hp) rfl ?_
    -- a middle node becomes the head, the tail a single server
    rw [hr.role _ p hp]
    unfold roleOf
    split_ifs <;> first | decide | omega

/-- a node takes over from the tail -/
theorem backward_called {it current : ℕ} (hr : Roles w.roster)
    (hc : w.roster.nodeList[w.roster.nodeList.length - 1]? = some current) (hit : 0 < it)
    (hlt : it < w.roster.nodeList.length) (dropList : List ℕ) (pc : Pc) (answer : Option UInt64) :
    Called w (w.takeOver ⟨w.roster.nodeList, it, pc⟩ current w.roster.nodeList[0]? dropList answer).1 := by
  obtain ⟨p, hp, hmove⟩ := move_backward (h := ⟨w.roster.nodeList, it, pc⟩) hit hlt
  simp only at hp hmove
  have htail : (w.roster.node current).state = .tail := by
    rw [hr.role _ current hc]
    unfold roleOf
    split_ifs <;> first | rfl | omega
  have hend := eq_endpoint_iff hr.nodup hp (j := 0) (by omega)
  have hne : (State.tail == State.head) = false := rfl
  cases answer with
  | none =>
    simp only [World.takeOver, htail, hne, hmove]
    exact .nobody rfl
  | some seq =>
    simp only [World.takeOver, htail, hne, hmove, ne_eq, hend]
    refine .member (List.mem_of_getElem? hp) rfl ?_
    rw [hr.role _ p hp]
    unfold roleOf
    split_ifs <;> first | decide | omega

theorem look_called (hd : Handler) (start : ℕ) (down endpoint : Option ℕ) (dropList : List ℕ) (answer : Option UInt64) :
    Called w (w.look hd start down endpoint dropList answer).1 := by
  unfold World.look
  repeat' split
  all_goals exact .nobody rfl

theorem step_called (hw : Working w.roster hd k) (answer : Option UInt64) : Called w (hd.step w answer).1 := by
  cases hw with
  | callEnd | callMiddle =>
    simp only [Handler.step]
    split
    · exact .nobody rfl
    · exact .nobody rfl
  | forward hr hc hit hd hk => exact forward_called hr hc hit _ _ answer
  | backward hr hc hit hlt hd hk => exact backward_called hr hc hit hlt _ _ answer
  | lookDown | lookUp => exact look_called _ _ _ _ _ answer
  | changeDown hr hb he hbe hd hk =>
    simp only [Handler.step]
    split
    · exact .nobody rfl
    · exact .member (List.mem_of_getElem? he) rfl (switches_refl _)
  | changeUp hr hb he hbe hd hk =>
    simp only [Handler.step]
    split
    · exact .nobody rfl
    · exact .member (List.mem_of_getElem? hb) rfl (switches_refl _)
  | @remove copy dropList it _ hr hk =>
    cases dropList with
    | nil => exact .nobody rfl
    | cons p dropList => exact .nobody rfl
  | returned => exact .nobody rfl

/-- **The whole failure handling**, by induction on the steps that are left. -/
theorem steps_placed (k : ℕ) (w : World) (hd : Handler) (answers : ℕ → Option UInt64) (services : Addr → Services)
    (hw : Working w.roster hd k) (ha : Applied w) (h : Placed w services) :
    Placed (hd.steps k w answers).1 (serveSteps k w hd answers services) := by
  induction k generalizing w hd answers services with
  | zero => exact h
  | succ k ih =>
    obtain ⟨hstep, -⟩ := step_working hw (answers 0)
    obtain ⟨hl, -, haddr⟩ := step_members w hd (answers 0)
    have hnext := h.call ha (step_called hw (answers 0)) hl haddr
    exact ih _ _ (fun i => answers (i + 1)) _ hstep (step_applied ha hw (answers 0)) hnext

theorem Placed.of_eq {x : World} (h : Placed w services) (hs : x.servers = w.servers) (hr : x.roster = w.roster) :
    Placed x services := ⟨fun p hp => by rw [hr] at hp ⊢; rw [hs]; exact h.members p hp, h.clean⟩

theorem manageFailure_placed (hr : Roles w.roster) (ha : Applied w) (h : Placed w services) {i : ℕ}
    (hi : i < w.roster.nodeList.length) (answers : ℕ → Option UInt64) :
    Placed (w.manageFailure i answers)
      (serveSteps (4 * w.roster.nodeList.length + 12) w ⟨w.roster.nodeList, i, .call⟩ answers services) := by
  have hplaced := steps_placed _ w _ answers services (Working.start hr hi) ha h
  unfold World.manageFailure
  dsimp only
  split_ifs
  · exact hplaced
  · exact hplaced.of_eq rfl rfl

end Failure

/-! ## A registration -/

section Register

variable {w : World} {services : Addr → Services} {a : Addr}

/-- a node joins with the services of its state -/
theorem Placed.join (h : Placed w services) {newNode : ℕ} (hnode : (w.roster.node newNode).addr = a)
    (ha : ∀ p ∈ w.roster.nodeList, (w.roster.node p).addr ≠ a) (old : State) (server : Server Addr) :
    Placed { w with roster := w.roster.insert newNode old, servers := Function.update w.servers a server }
      (Function.update services a (Services.of server.state)) := by
  constructor
  · intro p hp
    simp only [Roster.insert_nodeList] at hp
    simp only [Roster.insert_addr]
    rcases List.mem_append.1 hp with hp | hp
    · rw [Function.update_of_ne (ha p hp), Function.update_of_ne (ha p hp)]
      exact h.members p hp
    · rw [List.mem_singleton.1 hp, hnode, Function.update_self, Function.update_self]
  · intro b
    by_cases hb : b = a
    · rw [hb, Function.update_self]
      rfl
    · rw [Function.update_of_ne hb]
      exact h.clean b

/-- what the services follow at the address itself does not matter for a new process there -/
theorem follow_update {x y : World} (hs : x.servers = Function.update y.servers a (x.servers a)) (v : Services) :
    Function.update (follow services w x) a v = Function.update (follow services w y) a v := by
  funext b
  by_cases hb : b = a
  · rw [hb, Function.update_self, Function.update_self]
  · rw [Function.update_of_ne hb, Function.update_of_ne hb, follow, hs, Function.update_of_ne hb]
    rfl

theorem Placed.build (h : Placed w services) (hr : Roles w.roster) (a : Addr) :
    Placed { w with roster := w.roster.build a } services := by
  obtain ⟨-, -, hsame⟩ := hr.build a
  refine ⟨fun p hp => ?_, h.clean⟩
  simp only [hsame p hp]
  exact h.members p hp

/-- the tail hands its place on -/
theorem tail_switches (hr : Roles w.roster) {t : ℕ} (ht : w.roster.tail = some t) (hm : t ∈ w.roster.nodeList) :
    Switches (w.roster.node t).state w.roster.oldTailState := by
  have hne := List.ne_nil_of_mem hm
  have hpos := List.length_pos_iff.2 hne
  rw [hr.role _ t ((hr.tail hne).symm.trans ht), hr.oldTailState hne]
  unfold roleOf
  split_ifs <;> first | decide | omega

theorem register_placed (hr : Roles w.roster) (happ : Applied w) (h : Placed w services) {lastSeqNum : UInt64}
    (hnew : ∀ p ∈ w.roster.nodeList, (w.roster.node p).addr ≠ a) {x : World} {b : Bool}
    (hx : RegisterResult w a lastSeqNum x b) :
    Placed x (if b then Function.update (follow services w x) a (Services.registered !w.roster.nodeList.isEmpty)
      else services) := by
  obtain ⟨-, hnot, hsame⟩ := hr.build a
  have hmade : ((w.roster.build a).node w.roster.made).addr = a := by simp [Roster.build]
  have hnew' : ∀ p ∈ (w.roster.build a).nodeList, ((w.roster.build a).node p).addr ≠ a := by
    intro p hp
    rw [hsame p hp]
    exact hnew p hp
  cases hx with
  | waiting => exact h
  | aborted => exact h.build hr a
  | first hnil =>
    have hempty : (!w.roster.nodeList.isEmpty) = false := by simp [hnil]
    have hfollow : follow services w { w with roster := w.roster.build a } = services := follow_same rfl
    rw [if_pos rfl, hempty, follow_update (y := { w with roster := w.roster.build a }) (by simp), hfollow]
    exact (h.build hr a).join hmade hnew' w.roster.oldTailState ((w.servers a).registered none)
  | @behind t servers ht htail hs =>
    have hempty : (!w.roster.nodeList.isEmpty) = true := by simp [List.ne_nil_of_mem ht]
    -- first the tail changes its mode, then the new node is there
    have hplaced : Placed { w with roster := w.roster.build a, servers := servers }
        (follow services w { w with roster := w.roster.build a, servers := servers }) := by
      have hcall := h.call happ (x := { w with servers := servers }) (.member ht hs (tail_switches hr htail ht))
        (List.Sublist.refl _) fun _ => rfl
      exact hcall.build hr a
    rw [if_pos rfl, hempty, follow_update (y := { w with roster := w.roster.build a, servers := servers }) (by simp)]
    exact hplaced.join hmade hnew' w.roster.oldTailState ((servers a).registered (some (w.roster.node t).addr))

end Register

/-! ## Head and tail -/

/-- head and tail are both set -/
def Roster.Ended (r : Roster) : Prop := r.head.isSome = true ∧ r.tail.isSome = true

theorem Roles.ended {r : Roster} (h : Roles r) (hne : r.nodeList ≠ []) : r.Ended := by
  refine ⟨?_, h.tail_isSome hne⟩
  rw [h.head hne, List.getElem?_eq_getElem (List.length_pos_iff.2 hne)]
  rfl

/-- a takeover replaces one of them, and nothing else in `hlp_Manage_Failure` touches them -/
theorem step_ended {w : World} (h : w.roster.Ended) (hd : Handler) (answer : Option UInt64) :
    (hd.step w answer).1.roster.Ended := by
  have hpromote : ∀ (r : Roster) (current tryNext : ℕ) (s : State), r.Ended → (r.promote current tryNext s).Ended := by
    intro r current tryNext s hr
    unfold Roster.promote
    dsimp only
    split
    · exact ⟨rfl, hr.2⟩
    · exact ⟨hr.1, rfl⟩
  unfold Handler.step
  cases hd.pc with
  | takeOver current endpoint dropList =>
    dsimp only [World.takeOver]
    split
    · exact h
    · split
      · exact h
      · exact hpromote _ _ _ _ h
  | look start down endpoint dropList =>
    dsimp only [World.look]
    repeat' split
    all_goals exact h
  | remove dropList => cases dropList <;> exact h
  | call | changeDown _ _ _ | changeUp _ _ _ _ =>
    dsimp only
    split <;> exact h
  | returned => exact h

theorem steps_ended (k : ℕ) (w : World) (hd : Handler) (answers : ℕ → Option UInt64) (h : w.roster.Ended) :
    (hd.steps k w answers).1.roster.Ended := by
  induction k generalizing w hd answers with
  | zero => exact h
  | succ k ih => exact ih _ _ (fun i => answers (i + 1)) (step_ended h hd (answers 0))

theorem manageFailure_ended {w : World} (h : w.roster.Ended) (i : ℕ) (answers : ℕ → Option UInt64) :
    (w.manageFailure i answers).roster.Ended := by
  have hended := steps_ended (4 * w.roster.nodeList.length + 12) w ⟨w.roster.nodeList, i, .call⟩ answers h
  unfold World.manageFailure
  dsimp only
  split_ifs
  · exact hended
  · exact hended

/-- `Register` gets to the list update, which sets both, or leaves them -/
theorem RegisterResult.ends {w x : World} {a : Addr} {lastSeqNum : UInt64} {b : Bool}
    (hx : RegisterResult w a lastSeqNum x b) (hr : Roles w.roster) :
    (x.roster.head = w.roster.head ∧ x.roster.tail = w.roster.tail) ∨ x.roster.Ended := by
  have hroles := hx.roles hr
  cases hx with
  | waiting => exact Or.inl ⟨rfl, rfl⟩
  | aborted => exact Or.inl ⟨rfl, rfl⟩
  | first hnil => exact Or.inr (hroles.ended (by simp))
  | behind ht htail hs => exact Or.inr (hroles.ended (by simp))

/-! ## Runs -/

structure HostedInv (s : Hosted) : Prop where
  order : InOrder s.world
  placed : Placed s.world s.services
  ends : s.world.roster.head.isSome = s.world.roster.tail.isSome

theorem hostedInv_start : HostedInv Hosted.start :=
  ⟨inOrder_start, ⟨fun _ hp => absurd hp List.not_mem_nil, fun _ => rfl⟩, rfl⟩

theorem step_hostedInv (s : Hosted) (e : RosterEvent) (h : HostedInv s) (hnew : NewAddress s.world e) :
    HostedInv (s.step e) := by
  cases e with
  | register a lastSeqNum beats calls =>
    have hx := register_result h.order.roles a lastSeqNum beats calls
    refine ⟨⟨hx.fault_eq.trans h.order.fault, hx.roles h.order.roles, hx.applied h.order.roles h.order.applied hnew⟩,
      register_placed h.order.roles h.order.applied h.placed hnew hx, ?_⟩
    change (s.world.register a lastSeqNum beats calls).roster.head.isSome =
      (s.world.register a lastSeqNum beats calls).roster.tail.isSome
    obtain ⟨hhead, htail⟩ | ⟨hhead, htail⟩ := hx.ends h.order.roles
    · rw [hhead, htail]
      exact h.ends
    · rw [hhead, htail]
  | fail i answers =>
    unfold Hosted.step
    dsimp only
    split_ifs with hi
    · obtain ⟨hroles, hfault⟩ := manageFailure_roles h.order.roles hi answers
      have hne : s.world.roster.nodeList ≠ [] := List.length_pos_iff.1 (Nat.zero_lt_of_lt hi)
      obtain ⟨hhead, htail⟩ := manageFailure_ended (h.order.roles.ended hne) i answers
      exact ⟨⟨hfault.trans h.order.fault, hroles, manageFailure_applied h.order.roles h.order.applied hi answers⟩,
        manageFailure_placed h.order.roles h.order.applied h.placed hi answers, hhead.trans htail.symm⟩
    · exact h

/-- the member at the head of the list, in the reply -/
theorem getConfig_head {r : Roster} (h : Roles r) {p : ℕ} (hp : r.nodeList[0]? = some p) :
    r.getConfig.head = (r.node p).addr.service headPort := by
  have hne : r.nodeList ≠ [] := List.ne_nil_of_mem (List.mem_of_getElem? hp)
  obtain ⟨t, ht⟩ := Option.isSome_iff_exists.1 (h.tail_isSome hne)
  simp only [Roster.getConfig, (h.head hne).trans hp, ht]

theorem getConfig_tail {r : Roster} (h : Roles r) {p : ℕ} (hp : r.nodeList[r.nodeList.length - 1]? = some p) :
    r.getConfig.tail = (r.node p).addr.service tailPort := by
  have hne : r.nodeList ≠ [] := List.ne_nil_of_mem (List.mem_of_getElem? hp)
  simp only [Roster.getConfig, (h.tail hne).trans hp]

/-- a member is the one at position `j` exactly if its address is -/
theorem addr_eq_iff {w : World} (hr : Roles w.roster) (ha : Applied w) {i j p q : ℕ}
    (hp : w.roster.nodeList[i]? = some p) (hq : w.roster.nodeList[j]? = some q) :
    (w.roster.node q).addr = (w.roster.node p).addr ↔ i = j := by
  constructor
  · intro he
    by_contra hne
    have hpq : q ≠ p := by
      intro hpq
      exact hne (position_unique hr.nodup hp (hpq ▸ hq))
    exact ha.addr_ne (List.mem_of_getElem? hp) (List.mem_of_getElem? hq) hpq he
  · rintro rfl
    rw [Option.some.inj (hp.symm.trans hq)]

/-- **Clients find the services.** In every sequence of registrations of new processes and of failures, executed one at a
time: no service is launched where it listens or shut down where it does not; of the list members the first, and no
other, listens as head, and the last one as tail; these two are what `GetConfig` answers; and its two null pointers go
together, so that the reply of a missing tail replaces no head. -/
theorem config_served (es : List RosterEvent)
    (h : Meets Hosted.step (fun s => NewAddress s.world) Hosted.start es) :
    let s := run Hosted.step Hosted.start es
    let r := s.world.roster
    (∀ a, (s.services a).fault = false) ∧
      (∀ i p, r.nodeList[i]? = some p →
        ((s.services (r.node p).addr).head = true ↔ i = 0) ∧
        ((s.services (r.node p).addr).tail = true ↔ i + 1 = r.nodeList.length) ∧
        (r.getConfig.head = (r.node p).addr.service headPort ↔ i = 0) ∧
        (r.getConfig.tail = (r.node p).addr.service tailPort ↔ i + 1 = r.nodeList.length)) ∧
      (r.head = none ↔ r.tail = none) := by
  intro s r
  have hinv : HostedInv s := run_inv_of_meets Hosted.step _ HostedInv step_hostedInv Hosted.start es hostedInv_start h
  have hroles : Roles r := hinv.order.roles
  refine ⟨hinv.placed.clean, fun i p hp => ?_, ?_⟩
  · have hlt := (List.getElem?_eq_some_iff.1 hp).1
    have hpos : 0 < r.nodeList.length := Nat.zero_lt_of_lt hlt
    have hmem := List.mem_of_getElem? hp
    have hservices : s.services (r.node p).addr = ⟨i = 0, i + 1 = r.nodeList.length, false⟩ := by
      calc s.services (r.node p).addr = Services.of (s.world.servers (r.node p).addr).state :=
            hinv.placed.members p hmem
        _ = Services.of (roleOf r.nodeList.length i) := by
            rw [hinv.order.applied.states p hmem, hroles.role i p hp]
        _ = _ := Services.of_roleOf hlt
    obtain ⟨first, hfirst⟩ : ∃ q, r.nodeList[0]? = some q := ⟨_, List.getElem?_eq_getElem hpos⟩
    obtain ⟨last, hlast⟩ : ∃ q, r.nodeList[r.nodeList.length - 1]? = some q :=
      ⟨_, List.getElem?_eq_getElem (Nat.sub_lt hpos Nat.one_pos)⟩
    rw [hservices, getConfig_head hroles hfirst, getConfig_tail hroles hlast]
    refine ⟨by simp, by simp, ?_, ?_⟩
    · rw [← addr_eq_iff hroles hinv.order.applied hp hfirst]
      exact ⟨Addr.service_inj, fun he => by rw [he]⟩
    · rw [show i + 1 = r.nodeList.length ↔ i = r.nodeList.length - 1 by omega,
        ← addr_eq_iff hroles hinv.order.applied hp hlast]
      exact ⟨Addr.service_inj, fun he => by rw [he]⟩
  · have hends : r.head.isSome = r.tail.isSome := hinv.ends
    rw [← Option.isNone_iff_eq_none, ← Option.isNone_iff_eq_none, ← Option.not_isSome, ← Option.not_isSome, hends]

/-- three nodes join, then the head fails, and then its successor -/
def twoHeadsFail : List RosterEvent :=
  [.register ⟨"10.0.0.1", 1⟩ 0 [.ok] [.ok], .register ⟨"10.0.0.1", 2⟩ 0 [.ok] [.ok],
    .register ⟨"10.0.0.1", 3⟩ 0 [.ok] [.ok], .fail 0 fun _ => some 0, .fail 0 fun _ => some 0]

/-- the tail is left, with both services -/
theorem config_served_alone :
    let s := run Hosted.step Hosted.start twoHeadsFail
    s.world.roster.nodeList = [2] ∧ s.world.roster.getConfig = ⟨⟨"10.0.0.1", 1003⟩, ⟨"10.0.0.1", 2003⟩⟩ ∧
      (s.services (s.world.roster.node 2).addr).head = true ∧ (s.services (s.world.roster.node 2).addr).tail = true := by
  intro s
  have hlist : s.world.roster.nodeList = [2] := by decide +kernel
  have hm : Meets Hosted.step (fun s => NewAddress s.world) Hosted.start twoHeadsFail := by decide +kernel
  obtain ⟨-, hserved, -⟩ := config_served twoHeadsFail hm
  obtain ⟨hhead, htail, -⟩ := hserved 0 2 (by decide +kernel)
  exact ⟨hlist, by decide +kernel, hhead.2 rfl, htail.2 (by decide +kernel)⟩

end ChainedBlockStorage.Master
