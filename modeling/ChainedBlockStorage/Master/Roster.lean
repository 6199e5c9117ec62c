/-
The master: its list of nodes, `Register`, and `hlp_Manage_Failure`.

A `master::Node` is named by its pointer, and its stub calls the server at its address; what a server does with
`ChangeMode` and with the reply of `Register` is `Server`. `hlp_Manage_Failure` is a `Handler` at a program point: every
call that it makes is one step, with the answer as an argument, so that other threads of the master can come between.
`World.register` and `World.manageFailure` are whole calls with nothing in between.

A handler that dereferences its iterator outside the list that it walks has undefined behaviour; the model stops it
there and sets `fault`.
-/
import ChainedBlockStorage.Chain.Cluster

namespace ChainedBlockStorage.Master

open Chain (State)

/-! ## Servers -/

/-- `ServerIp` -/
structure Addr where
  ip : String
  port : ℤ
deriving DecidableEq

/-- `ChangeModeRequest`, with the addresses in any form -/
structure ChangeModeRequest (α : Type) where
  newState : State
  prevAddr : Option α
  nextAddr : Option α
  lastSeqNum : UInt64

/-- role and links of a server -/
structure Server (α : Type) where
  state : State
  upstream : Option α
  downstream : Option α

/-- a process that has just started -/
def Server.fresh {α : Type} : Server α := ⟨.initializing, none, none⟩

def Server.changeMode {α : Type} (s : Server α) (request : ChangeModeRequest α) : Server α :=
  let s := { s with
    upstream := request.prevAddr.or s.upstream
    downstream := request.nextAddr.or s.downstream }
  if request.newState = s.state then s
  else match request.newState with
    | .single => ⟨.single, none, none⟩
    | .head => { s with state := .head, upstream := none }
    | .tail => { s with state := .tail, downstream := none }
    | new => { s with state := new }

/-- `register_server` after the reply -/
def Server.registered {α : Type} (s : Server α) (prevAddr : Option α) : Server α :=
  { s with
    upstream := prevAddr.or s.upstream
    state := if prevAddr.isSome then .tail else .single }

/-- the node's part in this, without its threads and tables -/
def nodeServer (n : Chain.Node) : Server ℕ := ⟨n.state, n.upstream, n.downstream⟩

theorem nodeServer_changeMode (n : Chain.Node) (request : ChangeModeRequest ℕ) :
    nodeServer (n.changeMode request.newState request.prevAddr request.nextAddr) =
      (nodeServer n).changeMode request := by
  obtain ⟨new, prev, next, seq⟩ := request
  unfold Chain.Node.changeMode Server.changeMode nodeServer
  dsimp only
  split
  · rfl
  · cases new <;> dsimp only <;> split <;> rfl

theorem nodeServer_registered (n : Chain.Node) (prev : Option ℕ) :
    nodeServer (n.registered prev) = (nodeServer n).registered prev := rfl

/-! ## The master -/

/-- `master::Node` -/
structure Member where
  addr : Addr
  state : State

structure Roster where
  /-- by pointer -/
  node : ℕ → Member
  /-- pointers from here on are free -/
  made : ℕ
  nodeList : List ℕ
  head : Option ℕ
  tail : Option ℕ
  /-- `reg_mtx` is held -/
  regMtx : Bool

/-- the addresses of the list members -/
def Roster.addrs (r : Roster) : List Addr := r.nodeList.map fun p => (r.node p).addr

theorem Roster.mem_addrs {r : Roster} {p : ℕ} (hp : p ∈ r.nodeList) : (r.node p).addr ∈ r.addrs :=
  List.mem_map_of_mem hp

/-- members go, and no address changes -/
theorem Roster.addrs_sublist {r x : Roster} (hl : x.nodeList.Sublist r.nodeList)
    (haddr : ∀ p, (x.node p).addr = (r.node p).addr) : x.addrs.Sublist r.addrs := by
  unfold Roster.addrs
  simp only [haddr]
  exact hl.map _

/-- the master and the servers that it calls -/
structure World where
  roster : Roster
  servers : Addr → Server Addr
  /-- an iterator was dereferenced outside its list, or a call has not returned -/
  fault : Bool

def Roster.start : Roster := ⟨fun _ => ⟨⟨"", 0⟩, .initializing⟩, 0, [], none, none, false⟩

def World.start : World := ⟨Roster.start, fun _ => Server.fresh, false⟩

def Roster.setState (r : Roster) (p : ℕ) (s : State) : Roster :=
  { r with node := Function.update r.node p { r.node p with state := s } }

/-- the server of node `p` handles `ChangeMode` -/
def World.changeMode (w : World) (p : ℕ) (request : ChangeModeRequest Addr) : World :=
  let a := (w.roster.node p).addr
  { w with servers := Function.update w.servers a ((w.servers a).changeMode request) }

/-! ## `Register` -/

inductive Status where
  | ok
  | unavailable
  | unimplemented
  | other
deriving DecidableEq

/-- the answer that ends a loop which repeats a call as long as it is unavailable or unimplemented -/
def lastAnswer : List Status → Option Status
  | [] => none
  | .unavailable :: l => lastAnswer l
  | .unimplemented :: l => lastAnswer l
  | status :: _ => some status

/-- `new Node` -/
def Roster.build (r : Roster) (a : Addr) : Roster :=
  { r with
    node := Function.update r.node r.made ⟨a, .initializing⟩
    made := r.made + 1
    regMtx := true }

def Roster.oldTailState (r : Roster) : State := if r.tail = r.head then .head else .middle

/-- the `ChangeModeRequest` that joins a node at `a` to the tail -/
def joinRequest (a : Addr) (lastSeqNum : UInt64) (oldTailState : State) : ChangeModeRequest Addr :=
  ⟨oldTailState, none, some a, lastSeqNum⟩

/-- the address of `master::tail` -/
def Roster.tailAddr (r : Roster) : Option Addr := r.tail.map fun t => (r.node t).addr

/-- what `Register` does under `nodeList_mtx` -/
def Roster.insert (r : Roster) (newNode : ℕ) (oldTailState : State) : Roster :=
  let r := { r with nodeList := r.nodeList ++ [newNode] }
  let r :=
    if r.nodeList.length = 1 then { r.setState newNode .single with head := some newNode }
    else match r.tail with
      | some t => (r.setState t oldTailState).setState newNode .tail
      -- not null: the list was not empty
      | none => r
  { r with tail := some newNode, regMtx := false }

@[simp] theorem Roster.setState_addr (r : Roster) (p : ℕ) (s : State) (q : ℕ) :
    ((r.setState p s).node q).addr = (r.node q).addr := by
  unfold Roster.setState
  by_cases hq : q = p
  · subst hq
    simp
  · simp [hq]

section Insert

variable (r : Roster) (newNode : ℕ) (old : State)

@[simp] theorem Roster.insert_nodeList : (r.insert newNode old).nodeList = r.nodeList ++ [newNode] := by
  unfold Roster.insert
  dsimp only
  split
  · rfl
  · split <;> rfl

@[simp] theorem Roster.insert_tail : (r.insert newNode old).tail = some newNode := rfl

/-- no address changes -/
@[simp] theorem Roster.insert_addr (q : ℕ) : ((r.insert newNode old).node q).addr = (r.node q).addr := by
  unfold Roster.insert
  dsimp only
  split
  · exact Roster.setState_addr _ _ _ _
  · split
    · exact (Roster.setState_addr _ _ _ _).trans (Roster.setState_addr _ _ _ _)
    · rfl

@[simp] theorem Roster.insert_addrs : (r.insert newNode old).addrs = r.addrs ++ [(r.node newNode).addr] := by
  simp [Roster.addrs]

/-- the state of the new node -/
theorem Roster.insert_state_new (htail : r.nodeList ≠ [] → r.tail.isSome) :
    ((r.insert newNode old).node newNode).state = if r.nodeList = [] then .single else .tail := by
  unfold Roster.insert
  by_cases hnil : r.nodeList = []
  · simp [hnil, Roster.setState]
  · obtain ⟨t, ht⟩ := Option.isSome_iff_exists.1 (htail hnil)
    simp [hnil, ht, Roster.setState]

/-- the old tail takes its new role -/
theorem Roster.insert_state_tail (hne : r.nodeList ≠ []) {t : ℕ} (ht : r.tail = some t) (htn : t ≠ newNode) :
    ((r.insert newNode old).node t).state = old := by
  simp [Roster.insert, Roster.setState, hne, ht, htn]

/-- the others stay as they are -/
theorem Roster.insert_other {q : ℕ} (hq : q ≠ newNode) (hqt : r.tail ≠ some q) :
    (r.insert newNode old).node q = r.node q := by
  unfold Roster.insert
  dsimp only
  split
  · simp [Roster.setState, hq]
  · split
    · rename_i t ht
      have hne : q ≠ t := by
        rintro rfl
        exact hqt ht
      simp [Roster.setState, hq, hne]
    · rfl

end Insert

/-- `Register` from the first line to the reply, which the server handles at once; `beats` and `calls` are the answers
in its two loops -/
def World.register (w : World) (a : Addr) (lastSeqNum : UInt64) (beats calls : List Status) : World :=
  if w.roster.regMtx then w
  else
    let newNode := w.roster.made
    let oldTailState := w.roster.oldTailState
    -- it returns an error and keeps the lock
    let aborted := { w with roster := w.roster.build a }
    let joined := fun (w : World) (prevAddr : Option Addr) => { w with
      roster := w.roster.insert newNode oldTailState
      servers := Function.update w.servers a ((w.servers a).registered prevAddr) }
    match lastAnswer beats with
    -- the loop has not ended, so neither has the call
    | none => w
    | some .ok =>
      match w.roster.nodeList, w.roster.tail with
      | _ :: _, some tail =>
        match lastAnswer calls with
        | none => w
        | some .ok =>
          joined (aborted.changeMode tail (joinRequest a lastSeqNum oldTailState)) aborted.roster.tailAddr
        | some _ => aborted
      | _, _ => joined aborted none
    | some _ => aborted

/-! ## `hlp_Manage_Failure` -/

inductive Pc where
  /-- the call begins -/
  | call
  /-- the loop that looks for a node to take over from `current`, a head or a tail -/
  | takeOver (current : ℕ) (endpoint : Option ℕ) (dropList : List ℕ)
  /-- the loop that looks for a neighbour of the middle node at position `start`: downstream, or upstream when `down`
  is the one found downstream -/
  | look (start : ℕ) (down : Option ℕ) (endpoint : Option ℕ) (dropList : List ℕ)
  /-- `ChangeMode` on the downstream neighbour -/
  | changeDown (down up : ℕ) (dropList : List ℕ)
  /-- `ChangeMode` on the upstream neighbour, with the number that the other has returned -/
  | changeUp (down up : ℕ) (lastSeqNum : UInt64) (dropList : List ℕ)
  /-- `nodeList.remove` for the rest of the drop list -/
  | remove (dropList : List ℕ)
  | returned
deriving DecidableEq

/-- a call of `hlp_Manage_Failure`: its iterator is at position `it` of `copy` -/
structure Handler where
  copy : List ℕ
  it : ℕ
  pc : Pc
deriving DecidableEq

/-- `it++` or `it--`, and the node it is at then -/
def Handler.move (h : Handler) (forward : Bool) : Option (ℕ × ℕ) :=
  if forward then (h.copy[h.it + 1]?).map fun p => (h.it + 1, p)
  else if h.it = 0 then none
  else (h.copy[h.it - 1]?).map fun p => (h.it - 1, p)

/-- the iterator is outside its list -/
def World.outside (w : World) (h : Handler) : World × Handler := ({ w with fault := true }, { h with pc := .returned })

/-- what `hlp_Manage_Failure` does first for the node that has failed -/
def Roster.entry (r : Roster) (it current : ℕ) : Pc :=
  match (r.node current).state with
  | .single => .remove [current]
  | .head => .takeOver current r.tail [current]
  | .tail => .takeOver current r.head [current]
  | .middle => .look it none r.tail [current]
  | _ => .remove [current]

/-- `try_next` has taken over from `current` -/
def Roster.promote (r : Roster) (current tryNext : ℕ) (newState : State) : Roster :=
  let r := r.setState tryNext newState
  if (r.node current).state = .head then { r with head := some tryNext } else { r with tail := some tryNext }

@[simp] theorem Roster.promote_nodeList (r : Roster) (current tryNext : ℕ) (newState : State) :
    (r.promote current tryNext newState).nodeList = r.nodeList := by
  unfold Roster.promote
  dsimp only
  split <;> rfl

@[simp] theorem Roster.promote_made (r : Roster) (current tryNext : ℕ) (newState : State) :
    (r.promote current tryNext newState).made = r.made := by
  unfold Roster.promote
  dsimp only
  split <;> rfl

@[simp] theorem Roster.promote_node (r : Roster) (current tryNext : ℕ) (newState : State) :
    (r.promote current tryNext newState).node = (r.setState tryNext newState).node := by
  unfold Roster.promote
  dsimp only
  split <;> rfl

/-- one turn of the loop for a head or a tail -/
def World.takeOver (w : World) (h : Handler) (current : ℕ) (endpoint : Option ℕ) (dropList : List ℕ)
    (answer : Option UInt64) : World × Handler :=
  let state := (w.roster.node current).state
  match h.move (state == .head) with
  | none => w.outside h
  | some (it, tryNext) =>
    let keepGoing := some tryNext ≠ endpoint
    let newState := if keepGoing then state else .single
    match answer with
    | none =>
      (w, { h with
        it := it
        pc :=
          if keepGoing then .takeOver current endpoint (dropList ++ [tryNext])
          else .remove (dropList ++ [tryNext]) })
    | some _ =>
      let w := w.changeMode tryNext ⟨newState, none, none, 0⟩
      ({ w with roster := w.roster.promote current tryNext newState }, { h with it := it, pc := .remove dropList })

/-- one turn of the loop for a neighbour of a middle node -/
def World.look (w : World) (h : Handler) (start : ℕ) (down : Option ℕ) (endpoint : Option ℕ) (dropList : List ℕ)
    (answer : Option UInt64) : World × Handler :=
  match h.move down.isNone with
  | none => w.outside h
  | some (it, tryNext) =>
    match answer with
    | none =>
      -- past the endpoint, the failure is the one of an end
      (w, { h with
        it := it
        pc := if some tryNext = endpoint then .call else .look start down endpoint (dropList ++ [tryNext]) })
    | some _ =>
      match down with
      | none => (w, { h with it := start, pc := .look start (some tryNext) w.roster.head dropList })
      | some d => (w, { h with it := it, pc := .changeDown d tryNext dropList })

/-- a step of the handler; `answer` is the reply of the call that it makes, none when the call fails -/
def Handler.step (w : World) (h : Handler) (answer : Option UInt64) : World × Handler :=
  match h.pc with
  | .call =>
    match h.copy[h.it]? with
    | none => w.outside h
    | some current => (w, { h with pc := w.roster.entry h.it current })
  | .takeOver current endpoint dropList => w.takeOver h current endpoint dropList answer
  | .look start down endpoint dropList => w.look h start down endpoint dropList answer
  | .changeDown down up dropList =>
    match answer with
    | none => (w, { h with pc := .returned })
    | some seq =>
      (w.changeMode down ⟨(w.roster.node down).state, some (w.roster.node up).addr, none, 0⟩,
        { h with pc := .changeUp down up seq dropList })
  | .changeUp down up seq dropList =>
    match answer with
    | none => (w, { h with pc := .returned })
    | some _ =>
      (w.changeMode up ⟨(w.roster.node up).state, none, some (w.roster.node down).addr, seq⟩,
        { h with pc := .remove dropList })
  | .remove [] => (w, { h with pc := .returned })
  | .remove (p :: dropList) =>
    ({ w with roster := { w.roster with nodeList := w.roster.nodeList.filter fun x => x ≠ p } },
      { h with pc := .remove dropList })
  | .returned => (w, h)

/-- at most so many steps, with the answer to each -/
def Handler.steps : ℕ → World → Handler → (ℕ → Option UInt64) → World × Handler
  | 0, w, h, _ => (w, h)
  | k + 1, w, h, answers =>
    let s := h.step w (answers 0)
    steps k s.1 s.2 fun i => answers (i + 1)

/-- `hlp_Manage_Failure` on the node at position `i`; twelve steps and four for every node are enough -/
def World.manageFailure (w : World) (i : ℕ) (answers : ℕ → Option UInt64) : World :=
  let s := Handler.steps (4 * w.roster.nodeList.length + 12) w ⟨w.roster.nodeList, i, .call⟩ answers
  if s.2.pc = .returned then s.1 else { s.1 with fault := true }

end ChainedBlockStorage.Master
