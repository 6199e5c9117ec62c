/-
Nodes that register while nothing fails.

`Formation` is the master and the server processes with the messages between them: requests and replies of `Register`
are delivered in any order, and a `ChangeMode` call is handled in the steps of the server. A process starts once.

- `joins_agree`: when no reply is in flight and no registration is at work, servers and master agree and every node that
  joined behind another has got the volume before it became TAIL, in every run in which no `ChangeMode` is handled by a
  server whose own `Register` has not been answered.
- `modeChange_before_reply`: node 3 registers while the reply to node 2 is in flight; node 2 does not send `Restore`,
  and the reply makes it TAIL again.
-/
import ChainedBlockStorage.Master.Roles

namespace ChainedBlockStorage.Master

open Chain (State roleOf)
open Run Positions

/-! ## A server process -/

/-- the links that `ChangeMode` sets first -/
def Server.link {α : Type} (s : Server α) (request : ChangeModeRequest α) : Server α :=
  { s with
    upstream := request.prevAddr.or s.upstream
    downstream := request.nextAddr.or s.downstream }

/-- the new state, and the links that go with it; `oldState` was read in the beginning -/
def Server.setMode {α : Type} (s : Server α) (newState oldState : State) : Server α :=
  let s := { s with state := newState }
  if newState = oldState then s
  else match newState with
    | .single => { s with upstream := none, downstream := none }
    | .head => { s with upstream := none }
    | .tail => { s with downstream := none }
    | _ => s

/-- with nothing in between it is `ChangeMode` -/
theorem Server.link_setMode {α : Type} (s : Server α) (request : ChangeModeRequest α) :
    (s.link request).setMode request.newState s.state = s.changeMode request := by
  obtain ⟨new, prev, next, seq⟩ := request
  unfold Server.changeMode Server.setMode Server.link
  dsimp only
  split
  · rename_i h
    rw [h]
  · cases new <;> rfl

/-- whether the server that changes its state sends `Restore` downstream -/
def bringsUp (newState oldState : State) : Bool :=
  newState != .tail && newState != .single && (oldState == .tail || oldState == .single)

structure Process where
  server : Server Addr
  /-- it has received `Restore` -/
  restored : Bool
  /-- it has become TAIL without -/
  bare : Bool

def Process.fresh : Process := ⟨Server.fresh, false, false⟩

/-- its state changes, perhaps to TAIL -/
def Process.become (p : Process) (s : Server Addr) : Process :=
  { p with
    server := s
    bare := p.bare || (s.state == .tail && p.server.state != .tail && !p.restored) }

/-! ## The machine -/

/-- where a call of `ChangeMode` is -/
inductive CallPc where
  | sent
  /-- the server has read its state and set its links -/
  | linked (oldState : State)
  /-- the downstream node is up to date -/
  | restored (oldState : State)
  | answered
deriving DecidableEq

/-- where the thread in `Register` is -/
inductive JoinPc where
  | idle
  | beat (newNode : ℕ) (lastSeqNum : UInt64)
  | choose (newNode : ℕ) (lastSeqNum : UInt64)
  | check (newNode : ℕ) (lastSeqNum : UInt64) (oldTailState : State)
  /-- `ChangeMode` at node `tail` -/
  | call (newNode : ℕ) (lastSeqNum : UInt64) (oldTailState : State) (tail : ℕ) (pc : CallPc)
  | reply (newNode : ℕ) (oldTailState : State)
  | update (newNode : ℕ) (oldTailState : State) (prevAddr : Option Addr)
deriving DecidableEq

structure Formation where
  roster : Roster
  process : Addr → Process
  started : List Addr
  /-- `Register` requests in flight, or waiting for `reg_mtx` -/
  requests : List (Addr × UInt64)
  reg : JoinPc
  /-- `Register` replies in flight, with `prev_addr` -/
  replies : List (Addr × Option Addr)

def Formation.empty : Formation := ⟨Roster.start, fun _ => Process.fresh, [], [], .idle, []⟩

inductive FormationEvent where
  /-- a server starts and calls `Register` -/
  | launch (a : Addr) (lastSeqNum : UInt64)
  /-- request `k` gets the lock -/
  | take (k : ℕ)
  /-- the next step of `Register`, or of the `ChangeMode` that it calls -/
  | reg
  /-- reply `k` arrives -/
  | answer (k : ℕ)

def Formation.launch (f : Formation) (a : Addr) (lastSeqNum : UInt64) : Formation :=
  if a ∈ f.started then f
  else { f with started := a :: f.started, requests := f.requests ++ [(a, lastSeqNum)] }

def Formation.take (f : Formation) (k : ℕ) : Formation :=
  match f.requests[k]? with
  | none => f
  | some (a, seq) =>
    if f.roster.regMtx then f
    else { f with
      requests := f.requests.eraseIdx k
      roster := f.roster.build a
      reg := .beat f.roster.made seq }

def Formation.setProcess (f : Formation) (a : Addr) (p : Process) : Formation :=
  { f with process := Function.update f.process a p }

/-- a step of the server at `a` in `ChangeMode` -/
def Formation.changeMode (f : Formation) (a : Addr) (request : ChangeModeRequest Addr) (pc : CallPc) :
    Formation × CallPc :=
  let p := f.process a
  match pc with
  | .sent => (f.setProcess a { p with server := p.server.link request }, .linked p.server.state)
  | .linked oldState =>
    match bringsUp request.newState oldState, p.server.downstream with
    | true, some d => (f.setProcess d { f.process d with restored := true }, .restored oldState)
    | _, _ => (f, .restored oldState)
  | .restored oldState => (f.setProcess a (p.become (p.server.setMode request.newState oldState)), .answered)
  | .answered => (f, .answered)

def Formation.regStep (f : Formation) : Formation :=
  match f.reg with
  | .idle => f
  | .beat p seq => { f with reg := .choose p seq }
  | .choose p seq => { f with reg := .check p seq f.roster.oldTailState }
  | .check p seq old =>
    match f.roster.nodeList, f.roster.tail with
    | _ :: _, some t => { f with reg := .call p seq old t .sent }
    | _, _ => { f with reg := .update p old none }
  | .call p _ old _ .answered => { f with reg := .reply p old }
  | .call p seq old t pc =>
    let s := f.changeMode (f.roster.node t).addr (joinRequest (f.roster.node p).addr seq old) pc
    { s.1 with reg := .call p seq old t s.2 }
  | .reply p old => { f with reg := .update p old f.roster.tailAddr }
  | .update p old prevAddr =>
    { f with
      roster := f.roster.insert p old
      replies := f.replies ++ [((f.roster.node p).addr, prevAddr)]
      reg := .idle }

def Formation.answer (f : Formation) (k : ℕ) : Formation :=
  match f.replies[k]? with
  | none => f
  | some (a, prevAddr) =>
    let p := f.process a
    { f.setProcess a (p.become (p.server.registered prevAddr)) with replies := f.replies.eraseIdx k }

def Formation.step (f : Formation) : FormationEvent → Formation
  | .launch a lastSeqNum => f.launch a lastSeqNum
  | .take k => f.take k
  | .reg => f.regStep
  | .answer k => f.answer k

/-- no registration is at work and no message in flight -/
structure Formation.Quiet (f : Formation) : Prop where
  requests : f.requests = []
  reg : f.reg = .idle
  replies : f.replies = []

/-- the process of node `p` -/
def Formation.processOf (f : Formation) (p : ℕ) : Process := f.process (f.roster.node p).addr

/-- servers and master agree, and nobody became TAIL behind another before its `Restore` -/
structure Agree (f : Formation) : Prop where
  states : ∀ p ∈ f.roster.nodeList, (f.processOf p).server.state = (f.roster.node p).state
  links : ∀ i p q, f.roster.nodeList[i]? = some p → f.roster.nodeList[i + 1]? = some q →
    (f.processOf p).server.downstream = some (f.roster.node q).addr
  restored : ∀ i p, 0 < i → f.roster.nodeList[i]? = some p →
    (f.processOf p).restored = true ∧ (f.processOf p).bare = false

/-- the server to which `ChangeMode` is on its way -/
def Formation.calls (f : Formation) : Option Addr :=
  match f.reg with
  | .call _ _ _ t .sent => some (f.roster.node t).addr
  | _ => none

/-- a server handles `ChangeMode` after the reply to its own `Register` -/
def RepliedFirst (f : Formation) : FormationEvent → Prop
  | .reg => ∀ a ∈ f.calls, ∀ x ∈ f.replies, x.1 ≠ a
  | _ => True

instance (f : Formation) : ∀ e, Decidable (RepliedFirst f e)
  | .reg => inferInstanceAs (Decidable (∀ a ∈ f.calls, ∀ x ∈ f.replies, x.1 ≠ a))
  | .launch _ _ | .take _ | .answer _ => isTrue trivial

/-! ## The master's side, in every run -/

def JoinPc.newNode : JoinPc → Option ℕ
  | .idle => none
  | .beat p _ | .choose p _ | .check p _ _ | .call p _ _ _ _ | .reply p _ | .update p _ _ => some p

/-- the role that has been chosen for the old tail -/
def JoinPc.role : JoinPc → Option State
  | .check _ _ old | .call _ _ old _ _ | .reply _ old | .update _ old _ => some old
  | _ => none

/-- the tail that is called -/
def JoinPc.called : JoinPc → Option ℕ
  | .call _ _ _ t _ => some t
  | _ => none

/-- whether the node joins behind another -/
def JoinPc.behind : JoinPc → Option Bool
  | .call _ _ _ _ _ | .reply _ _ => some true
  | .update _ _ prev => some prev.isSome
  | _ => none

/-- list members, the node that registers, and those that wait for it -/
def Formation.names (f : Formation) : List Addr :=
  f.roster.addrs ++ ((f.reg.newNode.map fun p => (f.roster.node p).addr).toList ++ f.requests.map Prod.fst)

structure Booked (f : Formation) : Prop where
  roles : Roles f.roster
  lock : f.reg ≠ .idle → f.roster.regMtx = true
  pending : ∀ p ∈ f.reg.newNode, p ∉ f.roster.nodeList ∧ p < f.roster.made
  role : ∀ old ∈ f.reg.role, f.roster.nodeList ≠ [] → old = f.roster.oldTailState
  called : ∀ t ∈ f.reg.called, f.roster.tail = some t
  behind : ∀ b ∈ f.reg.behind, (b = true ↔ f.roster.nodeList ≠ [])
  names : f.names.Nodup
  started : ∀ a ∈ f.names, a ∈ f.started

section Booked

variable {f : Formation}

theorem Booked.launch (h : Booked f) (a : Addr) (seq : UInt64) : Booked (f.launch a seq) := by
  unfold Formation.launch
  split_ifs with hs
  · exact h
  have hnames : Formation.names { f with started := a :: f.started, requests := f.requests ++ [(a, seq)] } =
      f.names ++ [a] := by
    simp [Formation.names]
  refine { h with names := ?_, started := ?_ }
  · rw [hnames]
    refine List.nodup_append.2 ⟨h.names, List.nodup_singleton _, ?_⟩
    rintro x hx y hy rfl
    exact hs (List.mem_singleton.1 hy ▸ h.started x hx)
  · intro x hx
    rw [hnames] at hx
    rcases List.mem_append.1 hx with hx | hx
    · exact List.mem_cons_of_mem _ (h.started x hx)
    · rw [List.mem_singleton.1 hx]
      exact List.mem_cons_self

theorem Booked.take (h : Booked f) (k : ℕ) : Booked (f.take k) := by
  unfold Formation.take
  split
  · exact h
  · rename_i a seq hk
    split_ifs with hlock
    · exact h
    have hidle : f.reg = .idle := by
      by_contra hne
      exact hlock (h.lock hne)
    obtain ⟨hb, hnew, hsame⟩ := h.roles.build a
    have hperm : (Formation.names { f with
        requests := f.requests.eraseIdx k
        roster := f.roster.build a
        reg := .beat f.roster.made seq }).Perm f.names := by
      have hmembers := h.roles.build_addrs a
      have hmade : ((f.roster.build a).node f.roster.made).addr = a := by simp [Roster.build]
      simp only [Formation.names, hidle, JoinPc.newNode, Option.map_some, Option.map_none, Option.toList_some,
        Option.toList_none, List.nil_append, hmade, List.singleton_append]
      rw [hmembers]
      apply List.Perm.append_left _
      have hmap := (List.getElem_cons_eraseIdx_perm (List.getElem?_eq_some_iff.1 hk).1).map Prod.fst
      rwa [(List.getElem?_eq_some_iff.1 hk).2] at hmap
    refine ⟨hb, fun _ => rfl, ?_, ?_, ?_, ?_, hperm.nodup_iff.2 h.names, fun x hx => h.started x (hperm.subset hx)⟩
    · intro p hp
      obtain rfl : f.roster.made = p := Option.some.inj hp
      exact ⟨hnew, Nat.lt_succ_self _⟩
    · intro old hold
      cases hold
    · intro t ht
      cases ht
    · intro b hb
      cases hb

/-- the thread in `Register` goes on with the same node -/
theorem Booked.advance (h : Booked f) {reg : JoinPc} (process : Addr → Process) (hreg : reg.newNode = f.reg.newNode)
    (hne : f.reg ≠ .idle) (hrole : ∀ old ∈ reg.role, f.roster.nodeList ≠ [] → old = f.roster.oldTailState)
    (hcalled : ∀ t ∈ reg.called, f.roster.tail = some t)
    (hbehind : ∀ b ∈ reg.behind, (b = true ↔ f.roster.nodeList ≠ [])) :
    Booked { f with process := process, reg := reg } := by
  have hnames : Formation.names { f with process := process, reg := reg } = f.names := by
    simp only [Formation.names, hreg]
  refine ⟨h.roles, fun _ => h.lock hne, fun p hp => h.pending p (hreg ▸ hp), hrole, hcalled, hbehind, ?_, ?_⟩
  · rw [hnames]
    exact h.names
  · rw [hnames]
    exact h.started

/-- the list update -/
theorem Booked.update (h : Booked f) {p : ℕ} {old : State} {prev : Option Addr} (hreg : f.reg = .update p old prev)
    (replies : List (Addr × Option Addr)) :
    Booked { f with roster := f.roster.insert p old, replies := replies, reg := .idle } := by
  have hnew : f.reg.newNode = some p := by
    rw [hreg]
    rfl
  obtain ⟨hp, hlt⟩ := h.pending p hnew
  have hold : f.roster.nodeList = [] ∨ old = if f.roster.nodeList.length = 1 then .head else .middle := by
    by_cases hne : f.roster.nodeList = []
    · exact Or.inl hne
    · refine Or.inr ((h.role old ?_ hne).trans (h.roles.oldTailState hne))
      rw [hreg]
      rfl
  have hnames : Formation.names { f with roster := f.roster.insert p old, replies := replies, reg := .idle } =
      f.names := by
    simp [Formation.names, JoinPc.newNode, hreg]
  refine ⟨h.roles.insert hp hlt hold, fun hne => absurd rfl hne, ?_, ?_, ?_, ?_, ?_, ?_⟩
  · intro q hq
    cases hq
  · intro x hx
    cases hx
  · intro t ht
    cases ht
  · intro b hb
    cases hb
  · rw [hnames]
    exact h.names
  · rw [hnames]
    exact h.started

theorem Booked.answer (h : Booked f) (k : ℕ) : Booked (f.answer k) := by
  unfold Formation.answer
  split
  · exact h
  · exact ⟨h.roles, h.lock, h.pending, h.role, h.called, h.behind, h.names, h.started⟩

/-- a server does not touch the list -/
theorem changeMode_frame (f : Formation) (a : Addr) (request : ChangeModeRequest Addr) (pc : CallPc) :
    ∃ process, (f.changeMode a request pc).1 = { f with process := process } := by
  cases pc with
  | sent => exact ⟨_, rfl⟩
  | linked oldState =>
    unfold Formation.changeMode
    dsimp only
    split
    · exact ⟨_, rfl⟩
    · exact ⟨f.process, rfl⟩
  | restored oldState => exact ⟨_, rfl⟩
  | answered => exact ⟨f.process, rfl⟩

theorem Booked.regStep (h : Booked f) : Booked f.regStep := by
  unfold Formation.regStep
  cases hreg : f.reg with
  | idle => exact h
  | beat p seq =>
    exact h.advance f.process (by simp [hreg, JoinPc.newNode]) (by simp [hreg]) (by simp [JoinPc.role])
      (by simp [JoinPc.called]) (by simp [JoinPc.behind])
  | choose p seq =>
    exact h.advance f.process (by simp [hreg, JoinPc.newNode]) (by simp [hreg]) (by simp [JoinPc.role])
      (by simp [JoinPc.called]) (by simp [JoinPc.behind])
  | check p seq old =>
    have hrole := h.role old (by simp [hreg, JoinPc.role])
    dsimp only
    split
    · rename_i q l t hl ht
      exact h.advance f.process (by simp [hreg, JoinPc.newNode]) (by simp [hreg]) (by simpa [JoinPc.role] using hrole)
        (by simpa [JoinPc.called] using ht) (by simp [JoinPc.behind, hl])
    · rename_i hnone
      have hnil : f.roster.nodeList = [] := by
        by_contra hne
        obtain ⟨q, l, hl⟩ := List.exists_cons_of_ne_nil hne
        obtain ⟨t, ht⟩ := Option.isSome_iff_exists.1 (h.roles.tail_isSome hne)
        exact hnone q l t hl ht
      exact h.advance f.process (by simp [hreg, JoinPc.newNode]) (by simp [hreg]) (by simpa [JoinPc.role] using hrole)
        (by simp [JoinPc.called]) (by simp [JoinPc.behind, hnil])
  | call p seq old t pc =>
    have hrole := h.role old (by simp [hreg, JoinPc.role])
    have hbehind := h.behind true (by simp [hreg, JoinPc.behind])
    have hcalled := h.called t (by simp [hreg, JoinPc.called])
    split
    all_goals rename_i he
    all_goals cases he
    · exact h.advance f.process (by simp [hreg, JoinPc.newNode]) (by simp [hreg]) (by simpa [JoinPc.role] using hrole)
        (by simp [JoinPc.called]) (by simpa [JoinPc.behind] using hbehind)
    · obtain ⟨process, hp⟩ := changeMode_frame f (f.roster.node t).addr (joinRequest (f.roster.node p).addr seq old) pc
      dsimp only
      rw [hp]
      exact h.advance process (by simp [hreg, JoinPc.newNode]) (by simp [hreg]) (by simpa [JoinPc.role] using hrole)
        (by simpa [JoinPc.called] using hcalled) (by simpa [JoinPc.behind] using hbehind)
  | reply p old =>
    have hrole := h.role old (by simp [hreg, JoinPc.role])
    have hne := (h.behind true (by simp [hreg, JoinPc.behind])).1 rfl
    exact h.advance f.process (by simp [hreg, JoinPc.newNode]) (by simp [hreg]) (by simpa [JoinPc.role] using hrole)
      (by simp [JoinPc.called]) (by simp [JoinPc.behind, Roster.tailAddr, h.roles.tail_isSome hne, hne])
  | update p old prev => exact h.update hreg _

end Booked

/-! ## The servers' side -/

/-- the registration has not reached the tail -/
def JoinPc.early : JoinPc → Bool
  | .idle | .beat _ _ | .choose _ _ | .check _ _ _ | .call _ _ _ _ .sent => true
  | _ => false

/-- the tail has changed its mode for this node, to this state -/
def JoinPc.changed : JoinPc → Option (ℕ × State)
  | .call p _ old _ .answered | .reply p old | .update p old _ => some (p, old)
  | _ => none

/-- where tail `t` is while `Register` is at a program point -/
inductive TailAt (r : Roster) (process : Addr → Process) (replies : List (Addr × Option Addr)) (t : ℕ) : JoinPc → Prop
  | settled {pc : JoinPc} (hpc : pc.early = true) (hr : replies = [])
      (hs : (process (r.node t).addr).server.state = (r.node t).state) : TailAt r process replies t pc
  /-- it has its role at the master and not yet itself -/
  | replying {pc : JoinPc} {prev : Option Addr} (hpc : pc.early = true) (hr : replies = [((r.node t).addr, prev)])
      (hs : (process (r.node t).addr).server.state = .initializing)
      (hprev : (r.node t).state = if prev.isSome then .tail else .single) : TailAt r process replies t pc
  | linked {p : ℕ} {seq : UInt64} {old : State} (hr : replies = [])
      (hs : (process (r.node t).addr).server.state = (r.node t).state)
      (hd : (process (r.node t).addr).server.downstream = some (r.node p).addr) :
      TailAt r process replies t (.call p seq old t (.linked (r.node t).state))
  | restored {p : ℕ} {seq : UInt64} {old : State} (hr : replies = [])
      (hs : (process (r.node t).addr).server.state = (r.node t).state)
      (hd : (process (r.node t).addr).server.downstream = some (r.node p).addr)
      (hp : (process (r.node p).addr).restored = true) :
      TailAt r process replies t (.call p seq old t (.restored (r.node t).state))
  | changed {pc : JoinPc} {p : ℕ} {old : State} (hpc : pc.changed = some (p, old)) (hr : replies = [])
      (hs : (process (r.node t).addr).server.state = old)
      (hd : (process (r.node t).addr).server.downstream = some (r.node p).addr)
      (hp : (process (r.node p).addr).restored = true) : TailAt r process replies t pc

section TailAt

variable {r : Roster} {process : Addr → Process} {replies : List (Addr × Option Addr)} {t p : ℕ} {pc pc' : JoinPc}
  {old : State}

theorem JoinPc.early_of_changed {c : ℕ × State} (h : pc.changed = some c) : pc.early = false := by
  unfold JoinPc.changed at h
  split at h
  · rfl
  · rfl
  · rfl
  · cases h

/-- the registration goes on before it reaches the tail -/
theorem TailAt.early (h : TailAt r process replies t pc) (hpc : pc.early = true) (hpc' : pc'.early = true) :
    TailAt r process replies t pc' := by
  cases h with
  | settled _ hr hs => exact .settled hpc' hr hs
  | replying _ hr hs hprev => exact .replying hpc' hr hs hprev
  | linked | restored => cases hpc
  | changed hc => rw [JoinPc.early_of_changed hc] at hpc; cases hpc

/-- after the call of the tail -/
theorem TailAt.of_changed (h : TailAt r process replies t pc) (hc : pc.changed = some (p, old)) :
    replies = [] ∧ (process (r.node t).addr).server.state = old ∧
      (process (r.node t).addr).server.downstream = some (r.node p).addr ∧
      (process (r.node p).addr).restored = true := by
  cases h with
  | settled hpc | replying hpc => rw [JoinPc.early_of_changed hc] at hpc; cases hpc
  | linked | restored => cases hc
  | changed hc' hr hs hd hp =>
    cases hc.symm.trans hc'
    exact ⟨hr, hs, hd, hp⟩

end TailAt

structure Served (f : Formation) : Prop where
  waiting : ∀ a, a ∉ f.roster.addrs → (f.process a).server.state = .initializing ∧ (f.process a).bare = false
  joined : ∀ i p q, f.roster.nodeList[i]? = some p → f.roster.nodeList[i + 1]? = some q →
    (f.processOf p).server.state = (f.roster.node p).state ∧
      (f.processOf p).server.downstream = some (f.roster.node q).addr
  restored : ∀ i p, 0 < i → f.roster.nodeList[i]? = some p →
    (f.processOf p).restored = true ∧ (f.processOf p).bare = false
  tail : ∀ t, f.roster.nodeList[f.roster.nodeList.length - 1]? = some t →
    TailAt f.roster f.process f.replies t f.reg
  first : f.roster.nodeList = [] → f.replies = []

section Served

variable {f : Formation}

theorem Booked.addr_ne (h : Booked f) {p q : ℕ} (hp : p ∈ f.roster.nodeList) (hq : q ∈ f.roster.nodeList)
    (hpq : q ≠ p) : (f.roster.node q).addr ≠ (f.roster.node p).addr :=
  fun he => hpq (List.inj_on_of_nodup_map (List.Nodup.of_append_left h.names) hq hp he)

/-- the node that registers has an address of its own -/
theorem Booked.newNode_addr (h : Booked f) {p : ℕ} (hp : f.reg.newNode = some p) :
    (f.roster.node p).addr ∉ f.roster.addrs := by
  intro hm
  refine List.disjoint_of_nodup_append h.names hm (List.mem_append_left _ ?_)
  simp [hp]

/-- only the tail's process changes -/
theorem Served.tailProcess (h : Served f) (hb : Booked f) {t : ℕ}
    (ht : f.roster.nodeList[f.roster.nodeList.length - 1]? = some t) {x : Process}
    (hx : x.restored = (f.processOf t).restored)
    (hbare : (f.processOf t).restored = true → x.bare = (f.processOf t).bare)
    (reg : JoinPc) (replies : List (Addr × Option Addr))
    (htail : TailAt f.roster (Function.update f.process (f.roster.node t).addr x) replies t reg) :
    Served { f.setProcess (f.roster.node t).addr x with reg := reg, replies := replies } := by
  have hmem := List.mem_of_getElem? ht
  refine ⟨fun a ha => ?_, fun i p q hp hq => ?_, fun i p hi hp => ?_, fun t' ht' => ?_, fun hnil => ?_⟩
  · have hne : a ≠ (f.roster.node t).addr := fun he => ha (he ▸ Roster.mem_addrs hmem)
    simp only [Formation.setProcess, Function.update_of_ne hne]
    exact h.waiting a ha
  · have hpt : p ≠ t := by
      rintro rfl
      have hi := position_unique hb.roles.nodup hp ht
      have hlt := (List.getElem?_eq_some_iff.1 hq).1
      simp only [Formation.setProcess] at hlt
      omega
    simp only [Formation.processOf, Formation.setProcess,
      Function.update_of_ne (hb.addr_ne hmem (List.mem_of_getElem? hp) hpt)]
    exact h.joined i p q hp hq
  · obtain ⟨h1, h2⟩ := h.restored i p hi hp
    by_cases hpt : p = t
    · subst hpt
      simp only [Formation.processOf, Formation.setProcess, Function.update_self]
      exact ⟨hx.trans h1, (hbare h1).trans h2⟩
    · simp only [Formation.processOf, Formation.setProcess,
        Function.update_of_ne (hb.addr_ne hmem (List.mem_of_getElem? hp) hpt)]
      exact ⟨h1, h2⟩
  · obtain rfl : t = t' := Option.some.inj (ht.symm.trans ht')
    exact htail
  · simp only [Formation.setProcess] at hnil
    simp [hnil] at ht

/-- the tail's own role -/
theorem Booked.tail_state (h : Booked f) {t : ℕ} (ht : f.roster.nodeList[f.roster.nodeList.length - 1]? = some t) :
    (f.roster.node t).state = if f.roster.nodeList.length = 1 then .single else .tail := by
  have hlt := (List.getElem?_eq_some_iff.1 ht).1
  rw [h.roles.role _ t ht]
  unfold roleOf
  split_ifs <;> first | rfl | omega

theorem Booked.tail_last (h : Booked f) (hne : f.roster.nodeList ≠ []) {t : ℕ} (ht : f.roster.tail = some t) :
    f.roster.nodeList[f.roster.nodeList.length - 1]? = some t :=
  (h.roles.tail hne).symm.trans ht

/-- the registration goes on, and no process changes -/
theorem Served.advance (h : Served f) {reg : JoinPc} (htail : ∀ t,
    f.roster.nodeList[f.roster.nodeList.length - 1]? = some t → TailAt f.roster f.process f.replies t reg) :
    Served { f with reg := reg } :=
  ⟨h.waiting, h.joined, h.restored, htail, h.first⟩

theorem Served.early (h : Served f) (he : f.reg.early = true) {reg : JoinPc} (hreg : reg.early = true) :
    Served { f with reg := reg } :=
  h.advance fun t ht => (h.tail t ht).early he hreg

theorem Served.changed (h : Served f) {p : ℕ} {old : State} (hc : f.reg.changed = some (p, old)) {reg : JoinPc}
    (hreg : reg.changed = some (p, old)) : Served { f with reg := reg } := by
  apply h.advance
  intro t ht
  obtain ⟨hr, hs, hd, hp⟩ := (h.tail t ht).of_changed hc
  exact .changed hreg hr hs hd hp

/-- the role that the old tail gets is none that it has, and it brings its successor up to date for it -/
theorem Booked.bringsUp (h : Booked f) {t : ℕ} (ht : f.roster.nodeList[f.roster.nodeList.length - 1]? = some t)
    {old : State} (hold : f.reg.role = some old) :
    bringsUp old (f.roster.node t).state = true ∧ old ≠ (f.roster.node t).state ∧ (old = .head ∨ old = .middle) := by
  have hne : f.roster.nodeList ≠ [] := by
    intro hnil
    simp [hnil] at ht
  rw [h.tail_state ht, h.role old hold hne, h.roles.oldTailState hne]
  split_ifs <;> decide

/-- the tail reads its state, which its own registration has set -/
theorem Served.sent (h : Served f) (hb : Booked f) {p t : ℕ} {seq : UInt64} {old : State}
    (hreg : f.reg = .call p seq old t .sent) (hu : RepliedFirst f .reg) : Served f.regStep := by
  have hne := (hb.behind true (by simp [hreg, JoinPc.behind])).1 rfl
  have ht := hb.tail_last hne (hb.called t (by simp [hreg, JoinPc.called]))
  have hfree : ∀ x ∈ f.replies, x.1 ≠ (f.roster.node t).addr := hu _ (by simp [Formation.calls, hreg])
  obtain ⟨hr, hs⟩ : f.replies = [] ∧ (f.processOf t).server.state = (f.roster.node t).state := by
    have htail := h.tail t ht
    rw [hreg] at htail
    cases htail with
    | settled _ hr hs => exact ⟨hr, hs⟩
    | replying _ hr => exact absurd rfl (hfree _ (by rw [hr]; exact List.mem_singleton_self _))
    | changed hc => cases hc
  have hnext : f.regStep =
      { f.setProcess (f.roster.node t).addr
          { f.processOf t with
            server := (f.processOf t).server.link (joinRequest (f.roster.node p).addr seq old) } with
        reg := .call p seq old t (.linked (f.roster.node t).state)
        replies := f.replies } := by
    unfold Formation.regStep
    rw [hreg, ← hs]
    rfl
  rw [hnext]
  refine h.tailProcess hb ht ?_ ?_ _ _ (.linked hr ?_ ?_)
  · rfl
  · exact fun _ => rfl
  · rw [Function.update_self]
    exact hs
  · rw [Function.update_self]
    rfl

/-- the new node gets the volume -/
theorem Served.linked (h : Served f) (hb : Booked f) {p t : ℕ} {seq : UInt64} {old o : State}
    (hreg : f.reg = .call p seq old t (.linked o)) : Served f.regStep := by
  have hne := (hb.behind true (by simp [hreg, JoinPc.behind])).1 rfl
  have ht := hb.tail_last hne (hb.called t (by simp [hreg, JoinPc.called]))
  have hnew := hb.newNode_addr (p := p) (by simp [hreg, JoinPc.newNode])
  have hrole : f.reg.role = some old := by simp [hreg, JoinPc.role]
  obtain ⟨hup, -, -⟩ := hb.bringsUp ht hrole
  have htail := h.tail t ht
  rw [hreg] at htail
  obtain ⟨hr, hs, hd, rfl⟩ : f.replies = [] ∧ (f.processOf t).server.state = (f.roster.node t).state ∧
      (f.processOf t).server.downstream = some (f.roster.node p).addr ∧ o = (f.roster.node t).state := by
    cases htail with
    | settled hpc | replying hpc => cases hpc
    | linked hr hs hd => exact ⟨hr, hs, hd, rfl⟩
    | changed hc => cases hc
  have hnext : f.regStep =
      { f.setProcess (f.roster.node p).addr { f.processOf p with restored := true } with
        reg := .call p seq old t (.restored (f.roster.node t).state) } := by
    unfold Formation.regStep
    rw [hreg]
    simp only [Formation.changeMode, joinRequest, hup]
    rw [show (f.process (f.roster.node t).addr).server.downstream = some (f.roster.node p).addr from hd]
    rfl
  have hother : ∀ q ∈ f.roster.nodeList, (f.roster.node q).addr ≠ (f.roster.node p).addr :=
    fun q hq he => hnew (he ▸ Roster.mem_addrs hq)
  rw [hnext]
  refine ⟨fun a ha => ?_, fun i x q hx hq => ?_, fun i x hi hx => ?_, fun t' ht' => ?_, h.first⟩
  · have hwait := h.waiting a ha
    by_cases hap : a = (f.roster.node p).addr
    · subst hap
      simp only [Formation.setProcess, Function.update_self]
      exact hwait
    · simp only [Formation.setProcess, Function.update_of_ne hap]
      exact hwait
  · simp only [Formation.processOf, Formation.setProcess, Function.update_of_ne (hother x (List.mem_of_getElem? hx))]
    exact h.joined i x q hx hq
  · simp only [Formation.processOf, Formation.setProcess, Function.update_of_ne (hother x (List.mem_of_getElem? hx))]
    exact h.restored i x hi hx
  · obtain rfl : t = t' := Option.some.inj (ht.symm.trans ht')
    have hself := hother t (List.mem_of_getElem? ht)
    refine .restored hr ?_ ?_ ?_
    · simp only [Formation.setProcess, Function.update_of_ne hself]
      exact hs
    · simp only [Formation.setProcess, Function.update_of_ne hself]
      exact hd
    · simp only [Formation.setProcess, Function.update_self]

/-- the old tail is a head or a middle node -/
theorem Served.restoredStep (h : Served f) (hb : Booked f) {p t : ℕ} {seq : UInt64} {old o : State}
    (hreg : f.reg = .call p seq old t (.restored o)) : Served f.regStep := by
  have hne := (hb.behind true (by simp [hreg, JoinPc.behind])).1 rfl
  have ht := hb.tail_last hne (hb.called t (by simp [hreg, JoinPc.called]))
  have hnew := hb.newNode_addr (p := p) (by simp [hreg, JoinPc.newNode])
  have hrole : f.reg.role = some old := by simp [hreg, JoinPc.role]
  obtain ⟨-, hold, hcases⟩ := hb.bringsUp ht hrole
  have htail := h.tail t ht
  rw [hreg] at htail
  obtain ⟨hr, hd, hp, rfl⟩ : f.replies = [] ∧
      (f.processOf t).server.downstream = some (f.roster.node p).addr ∧ (f.processOf p).restored = true ∧
      o = (f.roster.node t).state := by
    cases htail with
    | settled hpc | replying hpc => cases hpc
    | restored hr hs hd hp => exact ⟨hr, hd, hp, rfl⟩
    | changed hc => cases hc
  have hnext : f.regStep =
      { f.setProcess (f.roster.node t).addr
          ((f.processOf t).become ((f.processOf t).server.setMode old (f.roster.node t).state)) with
        reg := .call p seq old t .answered
        replies := f.replies } := by
    unfold Formation.regStep
    rw [hreg]
    rfl
  have hself : (f.roster.node p).addr ≠ (f.roster.node t).addr :=
    fun he => hnew (he ▸ Roster.mem_addrs (List.mem_of_getElem? ht))
  have hstate : ((f.processOf t).server.setMode old (f.roster.node t).state).state = old := by
    unfold Server.setMode
    rcases hcases with rfl | rfl <;> simp [hold]
  have hdown : ((f.processOf t).server.setMode old (f.roster.node t).state).downstream =
      some (f.roster.node p).addr := by
    unfold Server.setMode
    rcases hcases with rfl | rfl <;> simp [hold, hd]
  rw [hnext]
  have hchanged : (JoinPc.call p seq old t .answered).changed = some (p, old) := rfl
  refine h.tailProcess hb ht ?_ (fun hrest => ?_) _ _ (.changed hchanged hr ?_ ?_ ?_)
  · rfl
  · simp [Process.become, hrest]
  · rw [Function.update_self]
    exact hstate
  · rw [Function.update_self]
    exact hdown
  · rw [Function.update_of_ne hself]
    exact hp

/-- the list update; the reply is on its way -/
theorem Served.update (h : Served f) (hb : Booked f) {p : ℕ} {old : State} {prev : Option Addr}
    (hreg : f.reg = .update p old prev) : Served f.regStep := by
  obtain ⟨hp, -⟩ := hb.pending p (by simp [hreg, JoinPc.newNode])
  have hnew := hb.newNode_addr (p := p) (by simp [hreg, JoinPc.newNode])
  have hbehind := hb.behind prev.isSome (by simp [hreg, JoinPc.behind])
  obtain ⟨hwait, hbare⟩ := h.waiting _ hnew
  have hchanged : f.reg.changed = some (p, old) := by simp [hreg, JoinPc.changed]
  have hstate := f.roster.insert_state_new p old hb.roles.tail_isSome
  -- the last node of the list before the update, when there is one
  have hlast : ∀ t, f.roster.nodeList[f.roster.nodeList.length - 1]? = some t → f.roster.nodeList ≠ [] ∧
      f.roster.tail = some t ∧ t ≠ p ∧ f.replies = [] ∧ (f.processOf t).server.state = old ∧
      (f.processOf t).server.downstream = some (f.roster.node p).addr ∧ (f.processOf p).restored = true := by
    intro t ht
    have hne : f.roster.nodeList ≠ [] := by
      intro hnil
      simp [hnil] at ht
    obtain ⟨hr, hs, hd, hrest⟩ := (h.tail t ht).of_changed hchanged
    exact ⟨hne, (hb.roles.tail hne).trans ht, fun he => hp (he ▸ List.mem_of_getElem? ht), hr, hs, hd, hrest⟩
  have hreplies : f.replies = [] := by
    by_cases hne : f.roster.nodeList = []
    · exact h.first hne
    · obtain ⟨t, ht⟩ := Option.isSome_iff_exists.1 (hb.roles.tail_isSome hne)
      obtain ⟨-, -, -, hr, -⟩ := hlast t (hb.tail_last hne ht)
      exact hr
  have hnext : f.regStep = { f with
      roster := f.roster.insert p old
      replies := [((f.roster.node p).addr, prev)]
      reg := .idle } := by
    unfold Formation.regStep
    rw [hreg, hreplies]
    rfl
  rw [hnext]
  refine ⟨fun a ha => ?_, fun i x q hx hq => ?_, fun i x hi hx => ?_, fun t' ht' => ?_, fun hnil => ?_⟩
  · refine h.waiting a fun hm => ha ?_
    simp only [Roster.insert_addrs]
    exact List.mem_append_left _ hm
  · simp only [Roster.insert_nodeList] at hx hq
    simp only [Formation.processOf, Roster.insert_addr]
    have hxm : f.roster.nodeList[i]? = some x := by
      have hlt := (List.getElem?_eq_some_iff.1 hq).1
      rw [List.length_append, List.length_singleton] at hlt
      rwa [List.getElem?_append_left (by omega)] at hx
    have hxp : x ≠ p := fun he => hp (he ▸ List.mem_of_getElem? hxm)
    rcases getElem?_of_concat hq with hq₀ | ⟨hi, rfl⟩
    · obtain ⟨hs, hd⟩ := h.joined i x q hxm hq₀
      have hxt : f.roster.tail ≠ some x := by
        intro ht
        have hne := List.ne_nil_of_mem (List.mem_of_getElem? hxm)
        have hpos := position_unique hb.roles.nodup hxm (hb.tail_last hne ht)
        have hlt := (List.getElem?_eq_some_iff.1 hq₀).1
        omega
      rw [f.roster.insert_other p old hxp hxt]
      exact ⟨hs, hd⟩
    · rw [show i = f.roster.nodeList.length - 1 by omega] at hxm
      obtain ⟨hne, ht, -, -, hs, hd, -⟩ := hlast x hxm
      rw [f.roster.insert_state_tail q old hne ht hxp]
      exact ⟨hs, hd⟩
  · simp only [Roster.insert_nodeList] at hx
    simp only [Formation.processOf, Roster.insert_addr]
    rcases getElem?_of_concat hx with hx₀ | ⟨hi', rfl⟩
    · exact h.restored i x hi hx₀
    · have hlt : f.roster.nodeList.length - 1 < f.roster.nodeList.length := by omega
      obtain ⟨-, -, -, -, -, -, hrest⟩ := hlast _ (List.getElem?_eq_getElem hlt)
      exact ⟨hrest, hbare⟩
  · simp only [Roster.insert_nodeList, List.length_append, List.length_singleton, Nat.add_sub_cancel,
      List.getElem?_concat_length, Option.some.injEq] at ht'
    subst ht'
    have hreply : [((f.roster.node p).addr, prev)] = [(((f.roster.insert p old).node p).addr, prev)] := by
      rw [Roster.insert_addr]
    refine .replying rfl hreply ?_ ?_
    · rw [Roster.insert_addr]
      exact hwait
    · rw [hstate]
      by_cases hne : f.roster.nodeList = []
      · rw [if_pos hne, if_neg (by simpa [hne] using hbehind)]
      · rw [if_neg hne, if_pos (hbehind.2 hne)]
  · simp only [Roster.insert_nodeList] at hnil
    exact absurd hnil (List.append_ne_nil_of_right_ne_nil _ (List.cons_ne_nil _ _))

theorem Served.regStep (h : Served f) (hb : Booked f) (hu : RepliedFirst f .reg) : Served f.regStep := by
  cases hreg : f.reg with
  | idle =>
    unfold Formation.regStep
    rw [hreg]
    exact h
  | beat p seq =>
    unfold Formation.regStep
    rw [hreg]
    exact h.early (by rw [hreg]; rfl) rfl
  | choose p seq =>
    unfold Formation.regStep
    rw [hreg]
    exact h.early (by rw [hreg]; rfl) rfl
  | check p seq old =>
    unfold Formation.regStep
    rw [hreg]
    dsimp only
    split
    · exact h.early (by rw [hreg]; rfl) rfl
    · rename_i hnone
      apply h.advance
      intro t ht
      have hne : f.roster.nodeList ≠ [] := by
        intro hnil
        simp [hnil] at ht
      obtain ⟨q, l, hl⟩ := List.exists_cons_of_ne_nil hne
      exact absurd ((hb.roles.tail hne).trans ht) (hnone q l t hl)
  | call p seq old t pc =>
    cases pc with
    | sent => exact h.sent hb hreg hu
    | linked o => exact h.linked hb hreg
    | restored o => exact h.restoredStep hb hreg
    | answered =>
      have hchanged : f.reg.changed = some (p, old) := by simp [hreg, JoinPc.changed]
      unfold Formation.regStep
      rw [hreg]
      exact h.changed hchanged rfl
  | reply p old =>
    have hchanged : f.reg.changed = some (p, old) := by simp [hreg, JoinPc.changed]
    unfold Formation.regStep
    rw [hreg]
    exact h.changed hchanged rfl
  | update p old prev => exact h.update hb hreg

/-- a registration begins -/
theorem Served.take (h : Served f) (hb : Booked f) (k : ℕ) : Served (f.take k) := by
  unfold Formation.take
  split
  · exact h
  · rename_i a seq hk
    split_ifs with hlock
    · exact h
    have hidle : f.reg = .idle := by
      by_contra hne
      exact hlock (hb.lock hne)
    obtain ⟨-, -, hsame⟩ := hb.roles.build a
    have hat : ∀ {i p : ℕ}, f.roster.nodeList[i]? = some p → (f.roster.build a).node p = f.roster.node p :=
      fun hp => hsame _ (List.mem_of_getElem? hp)
    have hmembers := hb.roles.build_addrs a
    refine ⟨fun x hx => h.waiting x (hmembers ▸ hx), fun i p q hp hq => ?_, fun i p hi hp => ?_, fun t ht => ?_,
      h.first⟩
    · simp only [Formation.processOf, hat hp, hat hq]
      exact h.joined i p q hp hq
    · simp only [Formation.processOf, hat hp]
      exact h.restored i p hi hp
    · have htail := h.tail t ht
      rw [hidle] at htail
      have hnode := hat ht
      cases htail with
      | settled _ hr hs => exact .settled rfl hr (by rw [hnode]; exact hs)
      | replying _ hr hs hprev =>
        exact .replying rfl (by rw [hnode]; exact hr) (by rw [hnode]; exact hs) (by rw [hnode]; exact hprev)
      | changed hc => cases hc

/-- the tail learns its role -/
theorem Served.answer (h : Served f) (hb : Booked f) (k : ℕ) : Served (f.answer k) := by
  unfold Formation.answer
  split
  · exact h
  · rename_i a prev hk
    have hne : f.roster.nodeList ≠ [] := by
      intro hnil
      simp [h.first hnil] at hk
    obtain ⟨t, ht⟩ := Option.isSome_iff_exists.1 (hb.roles.tail_isSome hne)
    have hlast := hb.tail_last hne ht
    obtain ⟨prev', he, hr, hs, hprev⟩ : ∃ prev', f.reg.early = true ∧
        f.replies = [((f.roster.node t).addr, prev')] ∧ (f.processOf t).server.state = .initializing ∧
        (f.roster.node t).state = if prev'.isSome then .tail else .single := by
      have htail := h.tail t hlast
      generalize f.reg = pc at htail ⊢
      cases htail with
      | replying he hr hs hprev => exact ⟨_, he, hr, hs, hprev⟩
      | settled _ hr | changed _ hr => rw [hr] at hk; cases hk
      | linked hr | restored hr => rw [hr] at hk; cases hk
    rw [hr] at hk ⊢
    obtain ⟨rfl, hpair⟩ : k = 0 ∧ ((f.roster.node t).addr, prev') = (a, prev) := by
      cases k with
      | zero => exact ⟨rfl, Option.some.inj hk⟩
      | succ k => cases hk
    obtain ⟨rfl, rfl⟩ := Prod.mk.inj hpair
    refine h.tailProcess hb hlast ?_ (fun hrest => ?_) f.reg [] (.settled he rfl ?_)
    · rfl
    · simp only [Formation.processOf] at hrest ⊢
      simp [Process.become, hrest]
    · rw [Function.update_self, hprev]
      rfl

end Served

/-- **One step.** -/
theorem step_agrees {f : Formation} (hb : Booked f) (h : Served f) {e : FormationEvent} (hu : RepliedFirst f e) :
    Booked (f.step e) ∧ Served (f.step e) := by
  cases e with
  | launch a seq =>
    refine ⟨hb.launch a seq, ?_⟩
    unfold Formation.step Formation.launch
    dsimp only
    split_ifs
    · exact h
    · exact ⟨h.waiting, h.joined, h.restored, h.tail, h.first⟩
  | take k => exact ⟨hb.take k, h.take hb k⟩
  | reg => exact ⟨hb.regStep, h.regStep hb hu⟩
  | answer k => exact ⟨hb.answer k, h.answer hb k⟩

theorem booked_empty : Booked Formation.empty where
  roles := Roles.of_empty rfl
  lock h := absurd rfl h
  pending _ hp := by cases hp
  role _ hr := by cases hr
  called _ ht := by cases ht
  behind _ hb := by cases hb
  names := List.nodup_nil
  started _ ha := absurd ha List.not_mem_nil

theorem served_empty : Served Formation.empty where
  waiting _ _ := ⟨rfl, rfl⟩
  joined _ _ _ hp := by cases hp
  restored _ _ _ hp := by cases hp
  tail _ ht := by cases ht
  first _ := rfl

/-- **Servers and master agree after joins.** In every run in which no `ChangeMode` is handled by a server whose own
`Register` has not been answered, they agree whenever no registration is at work and no message is in flight. -/
theorem joins_agree (es : List FormationEvent) (h : Meets Formation.step RepliedFirst Formation.empty es)
    (hq : (run Formation.step Formation.empty es).Quiet) : Agree (run Formation.step Formation.empty es) := by
  obtain ⟨hb, hs⟩ := run_inv_of_meets Formation.step RepliedFirst (fun f => Booked f ∧ Served f)
    (fun _ _ hf hu => step_agrees hf.1 hf.2 hu) Formation.empty es ⟨booked_empty, served_empty⟩ h
  generalize run Formation.step Formation.empty es = f at hq hb hs
  refine ⟨fun p hp => ?_, fun i p q hp hpq => (hs.joined i p q hp hpq).2, hs.restored⟩
  obtain ⟨i, hi⟩ := List.mem_iff_getElem?.1 hp
  by_cases hlast : i + 1 < f.roster.nodeList.length
  · exact (hs.joined i p _ hi (List.getElem?_eq_getElem hlast)).1
  · have hlt := (List.getElem?_eq_some_iff.1 hi).1
    rw [show i = f.roster.nodeList.length - 1 by omega] at hi
    have htail := hs.tail p hi
    rw [hq.reg, hq.replies] at htail
    cases htail with
    | settled _ _ hstate => exact hstate
    | replying _ hr => cases hr
    | changed hc => cases hc

/-- three servers start, and the first one has registered and waits for its reply -/
def firstOfThree : List FormationEvent :=
  [.launch ⟨"10.0.0.1", 1⟩ 0, .launch ⟨"10.0.0.1", 2⟩ 0, .launch ⟨"10.0.0.1", 3⟩ 0, .take 0] ++ List.replicate 4 .reg

/-- the whole of `Register` behind a tail -/
def joinBehind : List FormationEvent := .take 0 :: List.replicate 9 .reg

/-- the first two replies arrive while the next registration is at work -/
def repliesInTime : List FormationEvent :=
  firstOfThree ++ joinBehind.take 3 ++ [.answer 0] ++ joinBehind.drop 3 ++ joinBehind.take 4 ++ [.answer 0] ++
    joinBehind.drop 4 ++ [.answer 0]

theorem joins_agree_three :
    Agree (run Formation.step Formation.empty repliesInTime) ∧
      (run Formation.step Formation.empty repliesInTime).roster.nodeList = [0, 1, 2] := by
  have hm : Meets Formation.step RepliedFirst Formation.empty repliesInTime := by decide +kernel
  exact ⟨joins_agree repliesInTime hm ⟨by decide +kernel, by decide +kernel, by decide +kernel⟩, by decide +kernel⟩

/-- the reply to node 2 arrives when node 3 has registered -/
def replyTooLate : List FormationEvent :=
  firstOfThree ++ [.answer 0] ++ joinBehind ++ joinBehind ++ [.answer 0, .answer 0]

/-- **They disagree.** Node 2 is still initializing when it becomes a middle node, so node 3 gets no volume; then the
reply to its own registration makes it TAIL. -/
theorem modeChange_before_reply :
    (run Formation.step Formation.empty replyTooLate).Quiet ∧
      ¬ Agree (run Formation.step Formation.empty replyTooLate) := by
  refine ⟨⟨by decide +kernel, by decide +kernel, by decide +kernel⟩, fun h => ?_⟩
  exact absurd (h.states 1 (by decide +kernel)) (by decide +kernel)

end ChainedBlockStorage.Master
