/-
`reg_mtx` and `changemode_mtx`: locked at the first line of `Register` and of `ChangeMode`, unlocked at the last.

`Register` has two early returns in between. `ChangeMode` has none, but `getSentListRange` throws, and only
`length_error` is caught.

- `mutex_released`: which exits release the mutex, for all answers to the calls that the handlers make.
- `exit_keeps_mutex`: one heartbeat that fails for good, or one successor that has everything, and no later call gets
  past the first line.
-/
import ChainedBlockStorage.Master.Integration
import ChainedBlockStorage.Chain.Resend

namespace ChainedBlockStorage.Master

open Chain (resend resendFrom resendStart getSentListRange)

/-- how control leaves a handler -/
inductive Exit where
  | returned (status : Status)
  | threw (e : Chain.Exception)
deriving DecidableEq

/-! ## `Register` -/

/-- how `World.register` ends: none while it waits for the lock or is in a loop -/
def World.registerExit (w : World) (beats calls : List Status) : Option Exit :=
  if w.roster.regMtx then none
  else match lastAnswer beats with
    | none => none
    | some .ok =>
      match w.roster.nodeList, w.roster.tail with
      | [], _ => some (.returned .ok)
      | _ :: _, some _ => (lastAnswer calls).map Exit.returned
      -- a null pointer
      | _ :: _, none => none
    | some status => some (.returned status)

/-- what every exit of `Register` should leave -/
structure RegisterReleases (w : World) (a : Addr) (lastSeqNum : UInt64) (beats calls : List Status) : Prop where
  unlocked : ∀ e, w.registerExit beats calls = some e → (w.register a lastSeqNum beats calls).roster.regMtx = false
  unchanged : ∀ e, w.registerExit beats calls = some e → e ≠ .returned .ok →
    let r := (w.register a lastSeqNum beats calls).roster
    r.nodeList = w.roster.nodeList ∧ r.head = w.roster.head ∧ r.tail = w.roster.tail

/-- `Register` takes one of its early returns -/
def World.Aborts (w : World) (beats calls : List Status) : Prop :=
  w.roster.regMtx = false ∧ (lastAnswer beats = some .other ∨
    lastAnswer beats = some .ok ∧ w.roster.nodeList ≠ [] ∧ w.roster.tail ≠ none ∧ lastAnswer calls = some .other)

/-- the loops end with an OK or with an error that they do not wait for to pass -/
theorem lastAnswer_eq_some (l : List Status) {status : Status} (h : lastAnswer l = some status) :
    status = .ok ∨ status = .other := by
  induction l with
  | nil => cases h
  | cons s l ih =>
    cases s with
    | ok => exact Or.inl (Option.some.inj h).symm
    | other => exact Or.inr (Option.some.inj h).symm
    | unavailable | unimplemented => exact ih h

/-- one case for every way through `Register` -/
theorem register_exit_cases (w : World) (a : Addr) (lastSeqNum : UInt64) (beats calls : List Status) :
    w.registerExit beats calls = none ∧ ¬ w.Aborts beats calls ∨
      w.registerExit beats calls = some (.returned .other) ∧ w.Aborts beats calls ∧
        (w.register a lastSeqNum beats calls).roster = w.roster.build a ∨
      w.registerExit beats calls = some (.returned .ok) ∧ ¬ w.Aborts beats calls ∧
        (w.register a lastSeqNum beats calls).roster.regMtx = false := by
  unfold World.registerExit World.Aborts World.register
  by_cases hlock : w.roster.regMtx = true
  · simp [hlock]
  rcases hbeats : lastAnswer beats with _ | status
  · simp [hlock]
  rcases lastAnswer_eq_some beats hbeats with rfl | rfl
  · rcases hl : w.roster.nodeList with _ | ⟨p, l⟩
    · simp [hlock, Roster.insert]
    rcases ht : w.roster.tail with _ | t
    · simp [hlock]
    rcases hcalls : lastAnswer calls with _ | status
    · simp [hlock]
    rcases lastAnswer_eq_some calls hcalls with rfl | rfl
    · simp [hlock, Roster.insert]
    · simp [hlock]
  · simp [hlock]

theorem register_releases_iff (w : World) (a : Addr) (lastSeqNum : UInt64) (beats calls : List Status) :
    RegisterReleases w a lastSeqNum beats calls ↔ ¬ w.Aborts beats calls := by
  rcases register_exit_cases w a lastSeqNum beats calls with ⟨he, hno⟩ | ⟨he, habort, hr⟩ | ⟨he, hno, hfree⟩
  · refine iff_of_true ⟨fun e h => ?_, fun e h => ?_⟩ hno
    · rw [he] at h
      cases h
    · rw [he] at h
      cases h
  · refine iff_of_false (fun h => ?_) (not_not_intro habort)
    have hfree := h.unlocked _ he
    rw [hr] at hfree
    cases hfree
  · refine iff_of_true ⟨fun _ _ => hfree, fun e h hne => ?_⟩ hno
    rw [he] at h
    exact absurd (Option.some.inj h).symm hne

/-! ## `ChangeMode` -/

/-- what a call of `ChangeMode` leaves; `exit` is none while it waits for the lock or is in a loop -/
structure Left where
  exit : Option Exit
  changed : Changed
  changemodeMtx : Bool

/-- each request is repeated until its first OK; `relays k` are the answers to the one at position `k` -/
def relayed (relays : ℕ → List Status) (requests : List Chain.RelayWriteRequest) : Bool :=
  (List.range requests.length).all fun k => (relays k).contains .ok

/-- `ChangeMode` from the lock on; `read` is `read_sequence_number` -/
def serveChangeMode (read : ℤ → ℤ → Option Storage.Buf) (n : Chain.Node) (changemodeMtx : Bool)
    (request : ChangeModeRequest ℕ) (restore updateReplayLog : Answer) (relays : ℕ → List Status)
    (newNode : Chain.Node) : Left :=
  let changed := callChangeMode n request restore updateReplayLog newNode
  if changemodeMtx then ⟨none, ⟨.ok, n, newNode⟩, true⟩
  else if request.newState = n.state ∧ request.nextAddr.isSome then
    match resend read n.sentList request.lastSeqNum with
    | .error e => ⟨some (.threw e), changed, true⟩
    | .ok requests =>
      if relayed relays requests then ⟨some (.returned changed.status), changed, false⟩ else ⟨none, changed, true⟩
  else ⟨some (.returned changed.status), changed, false⟩

/-- what every exit of `ChangeMode` should leave -/
def Left.Releases (l : Left) : Prop := ∀ e, l.exit = some e → l.changemodeMtx = false

/-- node m-1 has sent-list entries, but none with the number behind the reported one -/
structure StartMissing (n : Chain.Node) (request : ChangeModeRequest ℕ) : Prop where
  middleFailed : request.newState = n.state ∧ request.nextAddr.isSome = true
  nonempty : n.sentList.toList ≠ []
  start : resendStart request.lastSeqNum ≠ 0
  missing : ∀ x ∈ n.sentList, x.1 ≠ resendStart request.lastSeqNum

/-- when the exception gets out of the resend -/
theorem resend_eq_error (read : ℤ → ℤ → Option Storage.Buf) (l : Tables.SentList) (lastSeqNum : UInt64) :
    (∃ e, resend read l lastSeqNum = .error e) ↔
      l.toList ≠ [] ∧ resendStart lastSeqNum ≠ 0 ∧ ∀ x ∈ l, x.1 ≠ resendStart lastSeqNum := by
  unfold resend resendFrom getSentListRange
  by_cases hnil : l.toList = []
  · simp [hnil]
  by_cases hstart : resendStart lastSeqNum = 0
  · simp [hnil, hstart]
  rcases hf : l.find? (resendStart lastSeqNum) with _ | x
  · simp only [hnil, hstart, List.length_eq_zero_iff, if_false, not_false_iff, true_and, ne_eq]
    exact iff_of_true ⟨_, rfl⟩ (Sorted.find?_eq_none.1 hf)
  · obtain ⟨hx, hkey⟩ := Sorted.find?_eq_some.1 hf
    simp only [hnil, hstart, List.length_eq_zero_iff, if_false, reduceCtorEq, exists_false, false_iff]
    exact fun h => h.2.2 x hx hkey

theorem changeMode_releases_iff (read : ℤ → ℤ → Option Storage.Buf) (n : Chain.Node) (changemodeMtx : Bool)
    (request : ChangeModeRequest ℕ) (restore updateReplayLog : Answer) (relays : ℕ → List Status)
    (newNode : Chain.Node) :
    (serveChangeMode read n changemodeMtx request restore updateReplayLog relays newNode).Releases ↔
      ¬ (changemodeMtx = false ∧ StartMissing n request) := by
  unfold serveChangeMode Left.Releases
  by_cases hlock : changemodeMtx = true
  · simp [hlock]
  by_cases hmid : request.newState = n.state ∧ request.nextAddr.isSome = true
  · have hiff := resend_eq_error read n.sentList request.lastSeqNum
    simp only [hlock, hmid, Bool.false_eq_true, if_false, and_self, if_true]
    rcases hr : resend read n.sentList request.lastSeqNum with e | requests
    · obtain ⟨hne, hstart, hmiss⟩ := hiff.1 ⟨e, hr⟩
      have hmissing : StartMissing n request := ⟨hmid, hne, hstart, hmiss⟩
      simp [hmissing]
    · have hno : ¬ StartMissing n request := fun h => by
        obtain ⟨e, he⟩ := hiff.2 ⟨h.nonempty, h.start, h.missing⟩
        rw [hr] at he
        cases he
      dsimp only
      split <;> simp [hno]
  · have hno : ¬ StartMissing n request := fun h => hmid h.middleFailed
    simp [hlock, hmid, hno]

/-! ## Both -/

/-- **When a mutex is released.** Every call of `Register` and every call of `ChangeMode`, whatever the calls inside
answer. -/
theorem mutex_released (w : World) (a : Addr) (lastSeqNum : UInt64) (beats calls : List Status)
    (read : ℤ → ℤ → Option Storage.Buf) (n : Chain.Node) (changemodeMtx : Bool) (request : ChangeModeRequest ℕ)
    (restore updateReplayLog : Answer) (relays : ℕ → List Status) (newNode : Chain.Node) :
    (RegisterReleases w a lastSeqNum beats calls ↔ ¬ w.Aborts beats calls) ∧
      ((serveChangeMode read n changemodeMtx request restore updateReplayLog relays newNode).Releases ↔
        ¬ (changemodeMtx = false ∧ StartMissing n request)) :=
  ⟨register_releases_iff w a lastSeqNum beats calls,
    changeMode_releases_iff read n changemodeMtx request restore updateReplayLog relays newNode⟩

/-- to node m-1 after a middle failure, where node m+1 has written number 2 -/
def successorUpToDate : ChangeModeRequest ℕ := ⟨.head, none, some 2, 2⟩

theorem getSentListRange_up_to_date :
    getSentListRange (Chain.passedDown 0).sentList (resendStart successorUpToDate.lastSeqNum) =
      .error .invalidArgument := by
  decide +kernel

/-- **An exit that keeps the mutex.** The first heartbeat of a registration fails for good; node m+1 has everything that
node m-1 has sent. After either, every later call waits. -/
theorem exit_keeps_mutex :
    let w := World.start.register ⟨"10.0.0.1", 1⟩ 0 [.other] []
    World.start.registerExit [.other] [] = some (.returned .other) ∧
      (∀ a seq beats calls, w.registerExit beats calls = none ∧ w.register a seq beats calls = w) ∧
      (∀ read restore updateReplayLog relays newNode,
        let l := serveChangeMode read (Chain.passedDown 0) false successorUpToDate restore updateReplayLog relays newNode
        l.exit = some (.threw .invalidArgument) ∧ ∀ request,
          (serveChangeMode read l.changed.node l.changemodeMtx request restore updateReplayLog relays newNode).exit =
            none) ∧
      ¬ ((∀ w a seq beats calls, RegisterReleases w a seq beats calls) ∧
        ∀ read n mtx request a b relays newNode, (serveChangeMode read n mtx request a b relays newNode).Releases) := by
  intro w
  have hresend : ∀ read, resend read (Chain.passedDown 0).sentList successorUpToDate.lastSeqNum =
      .error .invalidArgument := by
    intro read
    rw [resend, resendFrom, getSentListRange_up_to_date]
  have hstate : successorUpToDate.newState = (Chain.passedDown 0).state := by decide +kernel
  refine ⟨rfl, fun a seq beats calls => ⟨rfl, rfl⟩, ?_, fun h => ?_⟩
  · intro read restore updateReplayLog relays newNode l
    have hl : l = ⟨some (.threw .invalidArgument),
        callChangeMode (Chain.passedDown 0) successorUpToDate restore updateReplayLog newNode, true⟩ := by
      simp only [l, serveChangeMode, hresend, hstate, Bool.false_eq_true, if_false, true_and]
      rfl
    rw [hl]
    exact ⟨rfl, fun _ => rfl⟩
  · have hfree := (h.1 World.start ⟨"10.0.0.1", 1⟩ 0 [.other] []).unlocked _ rfl
    cases hfree

end ChainedBlockStorage.Master
