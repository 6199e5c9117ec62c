/-
Servers that crash and come back at their address.

`Lives` is the master with its servers, where a server may end and another process may start at its ip and port at any
time, and the `ChangeMode` requests by which `Register` has told tails of their new successors.

- `one_entry_iff`: in every state of a run list members have different addresses and nobody has been told to take itself
  as downstream node, if and only if no registration comes, as far as it gets, from an address that the list still has.
- `restarted_tail_registers`: the tail restarts and registers before a heartbeat has failed.
-/
import ChainedBlockStorage.Master.Roles

namespace ChainedBlockStorage.Master

open Chain (State)
open Run

/-! ## Crashes and restarts -/

structure Lives where
  world : World
  /-- the address that `ChangeMode` was sent to, and the one in `next_addr` -/
  told : List (Addr × Addr)

def Lives.start : Lives := ⟨World.start, []⟩

/-- the tail that `Register` calls -/
def World.calls (w : World) (beats calls : List Status) : Option ℕ :=
  if !w.roster.regMtx && lastAnswer beats == some .ok && !w.roster.nodeList.isEmpty && !calls.isEmpty then w.roster.tail
  else none

inductive LifeEvent where
  /-- the process at this address ends, and another one starts there -/
  | restart (a : Addr)
  | register (a : Addr) (lastSeqNum : UInt64) (beats calls : List Status)
  /-- the heartbeat finds that the list member at position `i` has failed -/
  | fail (i : ℕ) (answers : ℕ → Option UInt64)

def Lives.step (m : Lives) : LifeEvent → Lives
  | .restart a => { m with world := { m.world with servers := Function.update m.world.servers a Server.fresh } }
  | .register a lastSeqNum beats calls =>
    { world := m.world.register a lastSeqNum beats calls
      told := m.told ++ ((m.world.calls beats calls).map fun t => ((m.world.roster.node t).addr, a)).toList }
  | .fail i answers => { m with world := m.world.step (.fail i answers) }

/-- one list member for each address, and nobody is its own successor -/
structure OneEntry (m : Lives) : Prop where
  addrs : m.world.roster.addrs.Nodup
  told : ∀ x ∈ m.told, x.1 ≠ x.2

/-- a registration from the address of a list member gets neither to the list update nor to a call of that member -/
def NoEntryLeft (m : Lives) : LifeEvent → Prop
  | .register a _ beats calls => ∀ p ∈ m.world.roster.nodeList, (m.world.roster.node p).addr = a →
      m.world.completes beats calls = false ∧ m.world.calls beats calls ≠ some p
  | _ => True

instance (m : Lives) : ∀ e, Decidable (NoEntryLeft m e)
  | .register a _ beats calls => inferInstanceAs (Decidable (∀ p ∈ m.world.roster.nodeList,
      (m.world.roster.node p).addr = a → m.world.completes beats calls = false ∧ m.world.calls beats calls ≠ some p))
  | .restart _ | .fail _ _ => isTrue trivial

/-! ## The invariant -/

structure LifeInv (m : Lives) : Prop where
  roles : Roles m.world.roster
  one : OneEntry m

section LifeInv

variable {w : World} {a : Addr} {lastSeqNum : UInt64} {x : World} {b : Bool}

/-- a failure takes addresses off the list -/
theorem steps_addrs (k : ℕ) (w : World) (h : Handler) (answers : ℕ → Option UInt64) :
    (h.steps k w answers).1.roster.addrs.Sublist w.roster.addrs := by
  induction k generalizing w h answers with
  | zero => exact List.Sublist.refl _
  | succ k ih =>
    obtain ⟨hl, -, haddr⟩ := step_members w h (answers 0)
    exact (ih _ _ fun i => answers (i + 1)).trans (Roster.addrs_sublist hl haddr)

theorem manageFailure_addrs (w : World) (i : ℕ) (answers : ℕ → Option UInt64) :
    (w.manageFailure i answers).roster.addrs.Sublist w.roster.addrs := by
  unfold World.manageFailure
  dsimp only
  split_ifs <;> exact steps_addrs _ w _ answers

/-- the list update adds the new address, and nothing else in `Register` does -/
theorem RegisterResult.addrs (hx : RegisterResult w a lastSeqNum x b) (h : Roles w.roster) :
    x.roster.addrs = if b then w.roster.addrs ++ [a] else w.roster.addrs := by
  have hbuild := h.build_addrs a
  have hmade : ((w.roster.build a).node w.roster.made).addr = a := by simp [Roster.build]
  cases hx with
  | waiting => rfl
  | aborted => exact hbuild
  | first | behind =>
    simp only [Roster.insert_addrs, if_true]
    rw [hbuild, hmade]

/-- the tail that is called is a list member -/
theorem Roles.calls_mem (h : Roles w.roster) {beats calls : List Status} {t : ℕ} (ht : w.calls beats calls = some t) :
    t ∈ w.roster.nodeList := by
  unfold World.calls at ht
  split_ifs at ht with hc
  have hne : w.roster.nodeList ≠ [] := by
    intro hnil
    simp [hnil] at hc
  exact List.mem_of_getElem? ((h.tail hne).symm.trans ht)

variable {m : Lives}

/-- a registration that leaves no member with the new node's address -/
theorem LifeInv.register (h : LifeInv m) {beats calls : List Status}
    (hr : NoEntryLeft m (.register a lastSeqNum beats calls)) :
    LifeInv (m.step (.register a lastSeqNum beats calls)) := by
  have hx := register_result h.roles a lastSeqNum beats calls
  refine ⟨hx.roles h.roles, ?_, ?_⟩
  · simp only [Lives.step, hx.addrs h.roles]
    split_ifs with hc
    · refine List.nodup_append.2 ⟨h.one.addrs, List.nodup_singleton _, ?_⟩
      rintro y hy z hz rfl
      obtain ⟨p, hp, rfl⟩ := List.mem_map.1 hy
      obtain ⟨hnot, -⟩ := hr p hp (List.mem_singleton.1 hz)
      rw [hc] at hnot
      cases hnot
    · exact h.one.addrs
  · intro y hy
    rcases List.mem_append.1 hy with hy | hy
    · exact h.one.told y hy
    · simp only [Option.mem_toList, Option.map_eq_some_iff] at hy
      obtain ⟨t, ht, rfl⟩ := hy
      exact fun he => (hr t (h.roles.calls_mem ht) he).2 ht

theorem step_lifeInv (h : LifeInv m) {e : LifeEvent} (hr : NoEntryLeft m e) : LifeInv (m.step e) := by
  cases e with
  | restart a => exact ⟨h.roles, h.one.addrs, h.one.told⟩
  | register a lastSeqNum beats calls => exact h.register hr
  | fail i answers =>
    unfold Lives.step World.step
    dsimp only
    split_ifs with hi
    · obtain ⟨hroles, -⟩ := manageFailure_roles h.roles hi answers
      exact ⟨hroles, h.one.addrs.sublist (manageFailure_addrs m.world i answers), h.one.told⟩
    · exact h

/-- a registration that leaves a member with the new node's address adds a second one, or calls that member -/
theorem noEntryLeft_of_oneEntry (h : LifeInv m) {e : LifeEvent} (ho : OneEntry (m.step e)) : NoEntryLeft m e := by
  cases e with
  | restart a => trivial
  | fail i answers => trivial
  | register a lastSeqNum beats calls =>
    intro p hp hpa
    have hx := register_result h.roles a lastSeqNum beats calls
    refine ⟨?_, fun hcall => ?_⟩
    · by_contra hc
      have haddrs := ho.addrs
      simp only [Lives.step, hx.addrs h.roles, Bool.not_eq_false] at haddrs hc
      rw [if_pos hc] at haddrs
      exact (List.nodup_append.1 haddrs).2.2 a (hpa ▸ Roster.mem_addrs hp) a (List.mem_singleton_self _) rfl
    · refine ho.told ((m.world.roster.node p).addr, a) ?_ hpa
      simp [Lives.step, hcall]

end LifeInv

/-- **One entry for each address.** In every state of a run list members have different addresses and nobody has been
told to take itself as downstream node, if and only if every registration that comes from the address of a list member
gets neither to the list update nor to a call of that member. -/
theorem one_entry_iff (es : List LifeEvent) :
    (∀ k, OneEntry (run Lives.step Lives.start (es.take k))) ↔ Meets Lives.step NoEntryLeft Lives.start es :=
  forall_take_iff_meets Lives.step NoEntryLeft LifeInv OneEntry (fun _ h => h.one) (fun _ _ h hr => step_lifeInv h hr)
    (fun _ _ h ho => noEntryLeft_of_oneEntry h ho) Lives.start es
    ⟨Roles.of_empty rfl, List.nodup_nil, fun _ hx => absurd hx List.not_mem_nil⟩

/-- two nodes register; the second one restarts and registers again, before or after a heartbeat has failed -/
def twoNodes : List LifeEvent :=
  [.register ⟨"10.0.0.1", 1⟩ 0 [.ok] [], .register ⟨"10.0.0.1", 2⟩ 0 [.ok] [.ok], .restart ⟨"10.0.0.1", 2⟩]

def registerAgain : LifeEvent := .register ⟨"10.0.0.1", 2⟩ 0 [.ok] [.ok]

/-- the failed tail is found in time -/
example : Meets Lives.step NoEntryLeft Lives.start (twoNodes ++ [.fail 1 fun _ => some 0, registerAgain]) := by
  decide +kernel

/-- **Two entries.** The tail registers again while it is still in the list: it is told to take itself as downstream
node, and is in the list twice. -/
theorem restarted_tail_registers :
    ¬ OneEntry (run Lives.step Lives.start (twoNodes ++ [registerAgain])) ∧
      (run Lives.step Lives.start (twoNodes ++ [registerAgain])).told.getLast? =
        some (⟨"10.0.0.1", 2⟩, ⟨"10.0.0.1", 2⟩) ∧
          (run Lives.step Lives.start (twoNodes ++ [registerAgain])).world.roster.addrs =
            [⟨"10.0.0.1", 1⟩, ⟨"10.0.0.1", 2⟩, ⟨"10.0.0.1", 2⟩] := by
  have haddrs : (run Lives.step Lives.start (twoNodes ++ [registerAgain])).world.roster.addrs =
      [⟨"10.0.0.1", 1⟩, ⟨"10.0.0.1", 2⟩, ⟨"10.0.0.1", 2⟩] := by decide +kernel
  refine ⟨fun h => ?_, by decide +kernel, haddrs⟩
  have hnodup := h.addrs
  rw [haddrs] at hnodup
  exact absurd hnodup (by decide)

end ChainedBlockStorage.Master
