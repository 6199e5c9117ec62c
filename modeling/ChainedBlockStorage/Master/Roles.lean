/-
The master's list through joins and failures, one at a time.

- `Roles`: the list is empty, one single server, or head, middle nodes and tail in order, with `master::head` and
  `master::tail` at its ends. `Working` is what holds at each point of `hlp_Manage_Failure`, with a bound on the steps
  that are left.
- `roster_in_order`: after every sequence of registrations and failures of list members the list is in order, no
  iterator has left it, and every recorded state is the one the node has applied last.
-/
import ChainedBlockStorage.Core.Positions
import ChainedBlockStorage.Master.Roster

namespace ChainedBlockStorage.Master

open Chain (State roleOf)
open Run Positions

/-! ## Roles by position -/

structure Roles (r : Roster) : Prop where
  nodup : r.nodeList.Nodup
  made : ∀ p ∈ r.nodeList, p < r.made
  role : ∀ (i p : ℕ), r.nodeList[i]? = some p → (r.node p).state = roleOf r.nodeList.length i
  head : r.nodeList ≠ [] → r.head = r.nodeList[0]?
  tail : r.nodeList ≠ [] → r.tail = r.nodeList[r.nodeList.length - 1]?

section Roles

variable {r : Roster} {a b : ℕ}

theorem Roles.of_empty (h : r.nodeList = []) : Roles r := by
  constructor <;> simp [h]

theorem Roles.tail_isSome (h : Roles r) (hne : r.nodeList ≠ []) : r.tail.isSome := by
  have hpos := List.length_pos_iff.2 hne
  rw [h.tail hne, List.getElem?_eq_getElem (Nat.sub_lt hpos Nat.one_pos)]
  rfl

/-- it is about the members and the two ends -/
theorem Roles.congr (h : Roles r) {x : Roster} (hl : x.nodeList = r.nodeList)
    (hnode : ∀ p ∈ r.nodeList, x.node p = r.node p) (hhead : x.head = r.head) (htail : x.tail = r.tail)
    (hmade : r.made ≤ x.made) : Roles x := by
  refine ⟨hl ▸ h.nodup, fun p hp => ?_, fun i p hi => ?_, ?_, ?_⟩
  · rw [hl] at hp
    exact (h.made p hp).trans_le hmade
  · rw [hl] at hi ⊢
    rw [hnode p (List.mem_of_getElem? hi)]
    exact h.role i p hi
  · rw [hl, hhead]
    exact h.head
  · rw [hl, htail]
    exact h.tail

/-- the list loses a stretch: roles and ends are to be checked for what is left -/
theorem Roles.cut (h : Roles r) (hab : a ≤ b) (hb : b ≤ r.nodeList.length) {x : Roster}
    (hx : x.nodeList = r.nodeList.take a ++ r.nodeList.drop b) (hmade : x.made = r.made)
    (hrole : ∀ i p, (if i < a then r.nodeList[i]? else r.nodeList[i - a + b]?) = some p →
      (x.node p).state = roleOf (r.nodeList.length - (b - a)) i)
    (hhead : 0 < a ∨ b < r.nodeList.length → x.head = if 0 < a then r.nodeList[0]? else r.nodeList[b]?)
    (htail : 0 < a ∨ b < r.nodeList.length →
      x.tail = if b < r.nodeList.length then r.nodeList[r.nodeList.length - 1]? else r.nodeList[a - 1]?) : Roles x := by
  have hlen : x.nodeList.length = r.nodeList.length - (b - a) := by rw [hx, length_cut hab hb]
  have hat : ∀ i, x.nodeList[i]? = if i < a then r.nodeList[i]? else r.nodeList[i - a + b]? :=
    fun i => by rw [hx, getElem?_cut (hab.trans hb)]
  have hne : x.nodeList ≠ [] → 0 < a ∨ b < r.nodeList.length := by
    intro hn
    have := List.length_pos_iff.2 hn
    omega
  refine ⟨?_, ?_, ?_, ?_, ?_⟩
  · rw [hx]
    apply List.Nodup.append (h.nodup.sublist (List.take_sublist _ _)) (h.nodup.sublist (List.drop_sublist _ _))
    exact (List.disjoint_take_drop h.nodup hab)
  · intro p hp
    rw [hmade]
    rw [hx] at hp
    rcases List.mem_append.1 hp with hp | hp
    · exact h.made p (List.mem_of_mem_take hp)
    · exact h.made p (List.mem_of_mem_drop hp)
  · intro i p hp
    rw [hlen]
    exact hrole i p (hat i ▸ hp)
  · intro hn
    rw [hhead (hne hn), hat]
    split_ifs with h1
    · rfl
    · congr 1
      omega
  · intro hn
    rw [htail (hne hn), hat, hlen]
    have hpos := hne hn
    split_ifs with h1 h2 h2
    · congr 1
      omega
    · congr 1
      omega
    · congr 1
      omega
    · omega

/-- a middle stretch goes -/
theorem Roles.dropMiddle (h : Roles r) (ha : 0 < a) (hab : a ≤ b) (hb : b < r.nodeList.length) :
    Roles { r with nodeList := r.nodeList.take a ++ r.nodeList.drop b } := by
  refine h.cut hab hb.le rfl rfl ?_ ?_ ?_
  · intro i p hp
    split_ifs at hp with hi
    · have hlt := (List.getElem?_eq_some_iff.1 hp).1
      rw [show ({ r with nodeList := r.nodeList.take a ++ r.nodeList.drop b } : Roster).node p = r.node p from rfl,
        h.role i p hp]
      unfold roleOf
      split_ifs <;> first | rfl | omega
    · have hlt := (List.getElem?_eq_some_iff.1 hp).1
      rw [show ({ r with nodeList := r.nodeList.take a ++ r.nodeList.drop b } : Roster).node p = r.node p from rfl,
        h.role _ p hp]
      unfold roleOf
      split_ifs <;> first | rfl | omega
  · intro _
    rw [if_pos ha]
    exact h.head (by rintro hn; simp [hn] at hb)
  · intro _
    rw [if_pos hb]
    exact h.tail (by rintro hn; simp [hn] at hb)

/-- the head and those behind it go, and node `p` takes over -/
theorem Roles.dropFront (h : Roles r) (hb : 0 < b) {p : ℕ} (hp : r.nodeList[b]? = some p) :
    Roles { r.setState p (if b + 1 = r.nodeList.length then .single else .head) with
      head := some p, nodeList := r.nodeList.take 0 ++ r.nodeList.drop b } := by
  have hlt := (List.getElem?_eq_some_iff.1 hp).1
  refine h.cut (Nat.zero_le _) hlt.le rfl rfl ?_ ?_ ?_
  · intro i q hq
    rw [if_neg (Nat.not_lt_zero _), Nat.sub_zero] at hq
    have hlt' := (List.getElem?_eq_some_iff.1 hq).1
    by_cases hqp : q = p
    · subst hqp
      have hi := position_unique h.nodup hq hp
      simp only [Roster.setState, Function.update_self]
      unfold roleOf
      split_ifs <;> first | rfl | omega
    · have hi : i ≠ 0 := by
        rintro rfl
        rw [Nat.zero_add, hp] at hq
        exact hqp (Option.some.inj hq).symm
      simp only [Roster.setState, Function.update_of_ne hqp]
      rw [h.role _ q hq]
      unfold roleOf
      split_ifs <;> first | rfl | omega
  · intro _
    simp [hp]
  · intro _
    rw [if_pos hlt]
    exact h.tail (by rintro hn; simp [hn] at hlt)

/-- the tail and those before it go, and node `p` takes over -/
theorem Roles.dropBack (h : Roles r) (ha : a + 1 < r.nodeList.length) {p : ℕ} (hp : r.nodeList[a]? = some p) :
    Roles { r.setState p (if a = 0 then .single else .tail) with
      tail := some p, nodeList := r.nodeList.take (a + 1) ++ r.nodeList.drop r.nodeList.length } := by
  refine h.cut ha.le (le_refl _) rfl rfl ?_ ?_ ?_
  · intro i q hq
    split_ifs at hq with hi
    · by_cases hqp : q = p
      · subst hqp
        have hia := position_unique h.nodup hq hp
        simp only [Roster.setState, Function.update_self]
        unfold roleOf
        split_ifs <;> first | rfl | omega
      · have hia : i ≠ a := by
          rintro rfl
          rw [hp] at hq
          exact hqp (Option.some.inj hq).symm
        simp only [Roster.setState, Function.update_of_ne hqp]
        rw [h.role _ q hq]
        unfold roleOf
        split_ifs <;> first | rfl | omega
    · have := (List.getElem?_eq_some_iff.1 hq).1
      omega
  · intro _
    rw [if_pos (Nat.succ_pos a)]
    exact h.head (by rintro hn; simp [hn] at ha)
  · intro _
    rw [if_neg (lt_irrefl _), Nat.add_sub_cancel, hp]

end Roles

/-! ## The handler at work -/

/-- what holds at each point of `hlp_Manage_Failure` while nothing else touches the list, with `k` steps left at most -/
inductive Working (r : Roster) : Handler → ℕ → Prop
  | callEnd {i k : ℕ} (hr : Roles r) (hi : i = 0 ∨ i + 1 = r.nodeList.length) (hlt : i < r.nodeList.length)
      (hk : 2 * r.nodeList.length + 2 ≤ k) : Working r ⟨r.nodeList, i, .call⟩ k
  | callMiddle {i k : ℕ} (hr : Roles r) (hi : 0 < i) (hlt : i + 1 < r.nodeList.length)
      (hk : 4 * r.nodeList.length + 12 ≤ k) : Working r ⟨r.nodeList, i, .call⟩ k
  /-- the head has failed, and so have the nodes up to the iterator -/
  | forward {it k current : ℕ} {dropList : List ℕ} (hr : Roles r) (hc : r.nodeList[0]? = some current)
      (hit : it + 1 < r.nodeList.length) (hd : Stretch r.nodeList 0 (it + 1) dropList)
      (hk : 2 * (r.nodeList.length - it) + dropList.length ≤ k) :
      Working r ⟨r.nodeList, it, .takeOver current r.nodeList[r.nodeList.length - 1]? dropList⟩ k
  /-- the tail has failed, and so have the nodes down to the iterator -/
  | backward {it k current : ℕ} {dropList : List ℕ} (hr : Roles r)
      (hc : r.nodeList[r.nodeList.length - 1]? = some current) (hit : 0 < it) (hlt : it < r.nodeList.length)
      (hd : Stretch r.nodeList it r.nodeList.length dropList) (hk : 2 * it + dropList.length + 2 ≤ k) :
      Working r ⟨r.nodeList, it, .takeOver current r.nodeList[0]? dropList⟩ k
  | lookDown {start it k : ℕ} {dropList : List ℕ} (hr : Roles r) (hs : 0 < start) (hsi : start ≤ it)
      (hit : it + 1 < r.nodeList.length) (hd : Stretch r.nodeList start (it + 1) dropList)
      (hk : 2 * (r.nodeList.length - it) + dropList.length + 2 * start + 2 * r.nodeList.length + 9 ≤ k) :
      Working r ⟨r.nodeList, it, .look start none r.nodeList[r.nodeList.length - 1]? dropList⟩ k
  | lookUp {start it e k down : ℕ} {dropList : List ℕ} (hr : Roles r) (hit : 0 < it) (his : it ≤ start)
      (he : r.nodeList[e]? = some down) (hse : start < e) (hd : Stretch r.nodeList it e dropList)
      (hk : 2 * it + dropList.length + 2 * r.nodeList.length + 10 ≤ k) :
      Working r ⟨r.nodeList, it, .look start (some down) r.nodeList[0]? dropList⟩ k
  | changeDown {it b e k down up : ℕ} {dropList : List ℕ} (hr : Roles r) (hb : r.nodeList[b]? = some up)
      (he : r.nodeList[e]? = some down) (hbe : b < e) (hd : Stretch r.nodeList (b + 1) e dropList)
      (hk : dropList.length + 3 ≤ k) : Working r ⟨r.nodeList, it, .changeDown down up dropList⟩ k
  | changeUp {it b e k down up : ℕ} {seq : UInt64} {dropList : List ℕ} (hr : Roles r) (hb : r.nodeList[b]? = some up)
      (he : r.nodeList[e]? = some down) (hbe : b < e) (hd : Stretch r.nodeList (b + 1) e dropList)
      (hk : dropList.length + 2 ≤ k) : Working r ⟨r.nodeList, it, .changeUp down up seq dropList⟩ k
  /-- the list is in order without what is still to be removed -/
  | remove {copy dropList : List ℕ} {it k : ℕ}
      (hr : Roles { r with nodeList := r.nodeList.filter fun x => x ∉ dropList }) (hk : dropList.length + 1 ≤ k) :
      Working r ⟨copy, it, .remove dropList⟩ k
  | returned {copy : List ℕ} {it k : ℕ} (hr : Roles r) : Working r ⟨copy, it, .returned⟩ k

/-- no steps left: it has returned -/
theorem Working.returned_of_zero {r : Roster} {h : Handler} (hw : Working r h 0) : h.pc = .returned := by
  cases hw with
  | returned hr => rfl
  | callEnd _ _ _ hk | callMiddle _ _ _ hk | forward _ _ _ _ hk | backward _ _ _ _ _ hk | lookDown _ _ _ _ _ hk
  | lookUp _ _ _ _ _ _ hk | changeDown _ _ _ _ _ hk | changeUp _ _ _ _ _ hk | remove _ hk => omega

theorem Working.roles {r : Roster} {h : Handler} {k : ℕ} (hw : Working r h k) (hp : h.pc = .returned) : Roles r := by
  cases hw with
  | returned hr => exact hr
  | callEnd | callMiddle | forward | backward | lookDown | lookUp | changeDown | changeUp | remove => cases hp

/-- the call begins -/
theorem Working.start {r : Roster} (hr : Roles r) {i : ℕ} (hi : i < r.nodeList.length) :
    Working r ⟨r.nodeList, i, .call⟩ (4 * r.nodeList.length + 12) := by
  by_cases hend : i = 0 ∨ i + 1 = r.nodeList.length
  · exact .callEnd hr hend hi (by omega)
  · exact .callMiddle hr (by omega) (by omega) (le_refl _)

section Working

variable {w : World} {k : ℕ}

/-- everybody has failed -/
theorem remove_all {r : Roster} (hr : Roles r) {dropList : List ℕ}
    (hd : Stretch r.nodeList 0 r.nodeList.length dropList) (x : Roster) (hx : x.nodeList = r.nodeList) :
    Roles { x with nodeList := x.nodeList.filter fun p => p ∉ dropList } := by
  apply Roles.of_empty
  show (x.nodeList.filter fun p => p ∉ dropList) = []
  rw [hx, filter_stretch hd hr.nodup (Nat.zero_le _)]
  simp

theorem call_working {i current : ℕ} (hr : Roles w.roster) (hi : w.roster.nodeList[i]? = some current) (copy : List ℕ)
    (hcopy : copy = w.roster.nodeList) (hk : 2 * w.roster.nodeList.length + 1 ≤ k)
    (hmid : 0 < i → i + 1 < w.roster.nodeList.length → 4 * w.roster.nodeList.length + 11 ≤ k) :
    Working w.roster ⟨copy, i, w.roster.entry i current⟩ k := by
  subst hcopy
  have hlt := (List.getElem?_eq_some_iff.1 hi).1
  have hne : w.roster.nodeList ≠ [] := by
    intro hn
    simp [hn] at hlt
  unfold Roster.entry
  rw [hr.role i current hi]
  unfold roleOf
  split_ifs with h1 h0 hl
  · -- a single server
    have hd : Stretch w.roster.nodeList 0 w.roster.nodeList.length [current] := by
      obtain rfl : i = 0 := by omega
      rw [h1]
      exact stretch_singleton hi
    exact .remove (remove_all hr hd _ rfl) (by simp only [List.length_singleton]; omega)
  · subst h0
    rw [hr.tail hne]
    exact .forward hr hi (by omega) (stretch_singleton hi) (by simp only [List.length_singleton]; omega)
  · obtain rfl : i = w.roster.nodeList.length - 1 := by omega
    have hd := stretch_singleton hi
    rw [Nat.sub_add_cancel (by omega)] at hd
    rw [hr.head hne]
    exact .backward hr hi (by omega) (by omega) hd (by simp only [List.length_singleton]; omega)
  · have hbound := hmid (by omega) (by omega)
    rw [hr.tail hne]
    exact .lookDown hr (by omega) (le_refl _) (by omega) (stretch_singleton hi)
      (by simp only [List.length_singleton]; omega)

/-- the iterator one node further on -/
theorem move_forward {h : Handler} (hlt : h.it + 1 < h.copy.length) :
    ∃ p, h.copy[h.it + 1]? = some p ∧ h.move true = some (h.it + 1, p) := by
  refine ⟨h.copy[h.it + 1], List.getElem?_eq_getElem hlt, ?_⟩
  simp [Handler.move, List.getElem?_eq_getElem hlt]

theorem move_backward {h : Handler} (h0 : 0 < h.it) (hlt : h.it < h.copy.length) :
    ∃ p, h.copy[h.it - 1]? = some p ∧ h.move false = some (h.it - 1, p) := by
  have hlt' : h.it - 1 < h.copy.length := by omega
  refine ⟨h.copy[h.it - 1], List.getElem?_eq_getElem hlt', ?_⟩
  simp [Handler.move, List.getElem?_eq_getElem hlt', h0.ne']

/-- a node other than the last is not at the endpoint -/
theorem eq_endpoint_iff {l : List ℕ} (hl : l.Nodup) {i j p : ℕ} (hp : l[i]? = some p) (hj : j < l.length) :
    some p = l[j]? ↔ i = j := by
  constructor
  · exact fun h => position_unique hl hp h.symm
  · rintro rfl
    exact hp.symm

theorem forward_working {it current : ℕ} {dropList : List ℕ} (hr : Roles w.roster)
    (hc : w.roster.nodeList[0]? = some current) (hit : it + 1 < w.roster.nodeList.length)
    (hd : Stretch w.roster.nodeList 0 (it + 1) dropList)
    (hk : 2 * (w.roster.nodeList.length - it) + dropList.length ≤ k) (pc : Pc) (answer : Option UInt64) :
    let s := w.takeOver ⟨w.roster.nodeList, it, pc⟩ current w.roster.nodeList[w.roster.nodeList.length - 1]? dropList
      answer
    Working s.1.roster s.2 (k - 1) ∧ s.1.fault = w.fault := by
  obtain ⟨p, hp, hmove⟩ := move_forward (h := ⟨w.roster.nodeList, it, pc⟩) hit
  simp only at hp hmove
  have hstate : (w.roster.node current).state = .head := by
    rw [hr.role 0 current hc]
    unfold roleOf
    split_ifs <;> first | rfl | omega
  have hend := eq_endpoint_iff hr.nodup hp (j := w.roster.nodeList.length - 1) (by omega)
  have hne : current ≠ p := by
    rintro rfl
    have := position_unique hr.nodup hc hp
    omega
  intro s
  cases answer with
  | none =>
    have hd' := hd.right (Nat.zero_le _) hp
    simp only [World.takeOver, hstate, beq_self_eq_true, hmove, s, ne_eq, hend]
    refine ⟨?_, trivial⟩
    split_ifs with hlast
    · refine .remove (remove_all hr ?_ _ rfl) (by simp only [List.length_append, List.length_singleton]; omega)
      rwa [hlast, Nat.sub_add_cancel (by omega)] at hd'
    · exact .forward hr hc (by omega) hd' (by simp only [List.length_append, List.length_singleton]; omega)
  | some seq =>
    simp only [World.takeOver, hstate, beq_self_eq_true, hmove, s, ne_eq, hend, World.changeMode, Roster.promote,
      Roster.setState, Function.update_of_ne hne, if_true]
    refine ⟨.remove ?_ (by omega), trivial⟩
    simp only [filter_stretch hd hr.nodup (Nat.zero_le _)]
    have hfront := hr.dropFront (Nat.succ_pos it) hp
    have hrole : (if ¬it + 1 = w.roster.nodeList.length - 1 then State.head else State.single) =
        if it + 1 + 1 = w.roster.nodeList.length then State.single else State.head := by
      split_ifs <;> first | rfl | omega
    rw [hrole]
    exact hfront

theorem backward_working {it current : ℕ} {dropList : List ℕ} (hr : Roles w.roster)
    (hc : w.roster.nodeList[w.roster.nodeList.length - 1]? = some current) (hit : 0 < it)
    (hlt : it < w.roster.nodeList.length) (hd : Stretch w.roster.nodeList it w.roster.nodeList.length dropList)
    (hk : 2 * it + dropList.length + 2 ≤ k) (pc : Pc) (answer : Option UInt64) :
    let s := w.takeOver ⟨w.roster.nodeList, it, pc⟩ current w.roster.nodeList[0]? dropList answer
    Working s.1.roster s.2 (k - 1) ∧ s.1.fault = w.fault := by
  obtain ⟨p, hp, hmove⟩ := move_backward (h := ⟨w.roster.nodeList, it, pc⟩) hit hlt
  simp only at hp hmove
  have hstate : (w.roster.node current).state = .tail := by
    rw [hr.role _ current hc]
    unfold roleOf
    split_ifs <;> first | rfl | omega
  have hend := eq_endpoint_iff hr.nodup hp (j := 0) (by omega)
  have hne : current ≠ p := by
    rintro rfl
    have := position_unique hr.nodup hc hp
    omega
  intro s
  cases answer with
  | none =>
    have hd' : Stretch w.roster.nodeList (it - 1) w.roster.nodeList.length (dropList ++ [p]) := by
      refine Stretch.left ?_ (by omega) hp
      rwa [Nat.sub_add_cancel hit]
    simp only [World.takeOver, hstate, hmove, s, ne_eq, hend, reduceCtorEq, beq_eq_false_iff_ne.2, not_false_eq_true]
    refine ⟨?_, trivial⟩
    split_ifs with hlast
    · refine .remove (remove_all hr ?_ _ rfl) (by simp only [List.length_append, List.length_singleton]; omega)
      rwa [hlast] at hd'
    · exact .backward hr hc (by omega) (by omega) hd'
        (by simp only [List.length_append, List.length_singleton]; omega)
  | some seq =>
    simp only [World.takeOver, hstate, hmove, s, ne_eq, hend, World.changeMode, Roster.promote,
      Roster.setState, Function.update_of_ne hne, reduceCtorEq, beq_eq_false_iff_ne.2, not_false_eq_true, if_false]
    refine ⟨.remove ?_ (by omega), trivial⟩
    simp only [filter_stretch hd hr.nodup hlt.le]
    have hback := hr.dropBack (a := it - 1) (by omega) hp
    rw [Nat.sub_add_cancel hit] at hback
    have hrole : (if ¬it - 1 = 0 then State.tail else State.single) =
        if it - 1 = 0 then State.single else State.tail := by
      split_ifs <;> rfl
    rw [hrole]
    exact hback

theorem lookDown_working {start it : ℕ} {dropList : List ℕ} (hr : Roles w.roster) (hs : 0 < start) (hsi : start ≤ it)
    (hit : it + 1 < w.roster.nodeList.length) (hd : Stretch w.roster.nodeList start (it + 1) dropList)
    (hk : 2 * (w.roster.nodeList.length - it) + dropList.length + 2 * start + 2 * w.roster.nodeList.length + 9 ≤ k)
    (pc : Pc) (answer : Option UInt64) :
    let s := w.look ⟨w.roster.nodeList, it, pc⟩ start none w.roster.nodeList[w.roster.nodeList.length - 1]? dropList
      answer
    Working s.1.roster s.2 (k - 1) ∧ s.1 = w := by
  obtain ⟨p, hp, hmove⟩ := move_forward (h := ⟨w.roster.nodeList, it, pc⟩) hit
  simp only at hp hmove
  have hend := eq_endpoint_iff hr.nodup hp (j := w.roster.nodeList.length - 1) (by omega)
  intro s
  cases answer with
  | none =>
    simp only [World.look, Option.isNone_none, hmove, s, hend]
    refine ⟨?_, trivial⟩
    split_ifs with hlast
    · exact .callEnd hr (Or.inr (by omega)) (by omega) (by omega)
    · exact .lookDown hr hs (by omega) (by omega) (hd.right (by omega) hp)
        (by simp only [List.length_append, List.length_singleton]; omega)
  | some seq =>
    simp only [World.look, Option.isNone_none, hmove, s]
    refine ⟨?_, trivial⟩
    rw [hr.head (by rintro hn; simp [hn] at hit)]
    exact .lookUp hr hs (le_refl _) hp (by omega) hd (by omega)

theorem lookUp_working {start it e down : ℕ} {dropList : List ℕ} (hr : Roles w.roster) (hit : 0 < it)
    (his : it ≤ start) (he : w.roster.nodeList[e]? = some down) (hse : start < e)
    (hd : Stretch w.roster.nodeList it e dropList)
    (hk : 2 * it + dropList.length + 2 * w.roster.nodeList.length + 10 ≤ k) (pc : Pc) (answer : Option UInt64) :
    let s := w.look ⟨w.roster.nodeList, it, pc⟩ start (some down) w.roster.nodeList[0]? dropList answer
    Working s.1.roster s.2 (k - 1) ∧ s.1 = w := by
  have hlt := (List.getElem?_eq_some_iff.1 he).1
  have hlt' : it < w.roster.nodeList.length := by omega
  obtain ⟨p, hp, hmove⟩ := move_backward (h := ⟨w.roster.nodeList, it, pc⟩) hit hlt'
  simp only at hp hmove
  have hend := eq_endpoint_iff hr.nodup hp (j := 0) (by omega)
  have hd' : Stretch w.roster.nodeList (it - 1 + 1) e dropList := by rwa [Nat.sub_add_cancel hit]
  intro s
  cases answer with
  | none =>
    simp only [World.look, Option.isNone_some, hmove, s, hend]
    refine ⟨?_, trivial⟩
    split_ifs with hlast
    · exact .callEnd hr (Or.inl (by omega)) (by omega) (by omega)
    · exact .lookUp hr (by omega) (by omega) he hse (hd'.left (by omega) hp)
        (by simp only [List.length_append, List.length_singleton]; omega)
  | some seq =>
    simp only [World.look, Option.isNone_some, hmove, s]
    exact ⟨.changeDown hr hp he (by omega) hd' (by omega), trivial⟩

/-- **One step of the handler**, with any answer: it stays in its list, and one step less is left. -/
theorem step_working {h : Handler} (hw : Working w.roster h k) (answer : Option UInt64) :
    Working (h.step w answer).1.roster (h.step w answer).2 (k - 1) ∧ (h.step w answer).1.fault = w.fault := by
  cases hw with
  | callEnd hr hi hlt hk =>
    simp only [Handler.step, List.getElem?_eq_getElem hlt]
    exact ⟨call_working hr (List.getElem?_eq_getElem hlt) _ rfl (by omega) (by omega), trivial⟩
  | @callMiddle i _ hr hi hlt hk =>
    have hlt' : i < w.roster.nodeList.length := by omega
    simp only [Handler.step, List.getElem?_eq_getElem hlt']
    exact ⟨call_working hr (List.getElem?_eq_getElem hlt') _ rfl (by omega) (by omega), trivial⟩
  | forward hr hc hit hd hk => exact forward_working hr hc hit hd hk _ answer
  | backward hr hc hit hlt hd hk => exact backward_working hr hc hit hlt hd hk _ answer
  | lookDown hr hs hsi hit hd hk =>
    obtain ⟨h1, h2⟩ := lookDown_working hr hs hsi hit hd hk _ answer
    exact ⟨h1, congrArg World.fault h2⟩
  | lookUp hr hit his he hse hd hk =>
    obtain ⟨h1, h2⟩ := lookUp_working hr hit his he hse hd hk _ answer
    exact ⟨h1, congrArg World.fault h2⟩
  | changeDown hr hb he hbe hd hk =>
    simp only [Handler.step]
    split
    · exact ⟨.returned hr, rfl⟩
    · exact ⟨.changeUp hr hb he hbe hd (by omega), rfl⟩
  | @changeUp it b e _ down up seq dropList hr hb he hbe hd hk =>
    have hlt := (List.getElem?_eq_some_iff.1 he).1
    simp only [Handler.step]
    split
    · exact ⟨.returned hr, rfl⟩
    · refine ⟨.remove ?_ (by omega), rfl⟩
      simp only [World.changeMode, filter_stretch hd hr.nodup hbe]
      exact hr.dropMiddle (Nat.succ_pos b) hbe hlt
  | @remove copy dropList it _ hr hk =>
    cases dropList with
    | nil =>
      simp only [List.not_mem_nil, not_false_eq_true, decide_true, List.filter_true] at hr
      exact ⟨.returned hr, rfl⟩
    | cons p dropList =>
      simp only [Handler.step]
      refine ⟨.remove ?_ (by simp only [List.length_cons] at hk; omega), trivial⟩
      simp only [List.filter_filter]
      simpa only [List.mem_cons, not_or, Bool.decide_and, ne_eq, Bool.and_comm] using hr
  | returned hr => exact ⟨.returned hr, rfl⟩

end Working

/-- the handler takes nodes off the list and makes none -/
theorem step_members (w : World) (h : Handler) (answer : Option UInt64) :
    (h.step w answer).1.roster.nodeList.Sublist w.roster.nodeList ∧
      (h.step w answer).1.roster.made = w.roster.made ∧
        ∀ p, ((h.step w answer).1.roster.node p).addr = (w.roster.node p).addr := by
  have hsame : ∀ x : World, x.roster.nodeList = w.roster.nodeList → x.roster.made = w.roster.made →
      (∀ p, (x.roster.node p).addr = (w.roster.node p).addr) → x.roster.nodeList.Sublist w.roster.nodeList ∧
      x.roster.made = w.roster.made ∧ ∀ p, (x.roster.node p).addr = (w.roster.node p).addr :=
    fun x hl hm ha => ⟨hl ▸ List.Sublist.refl _, hm, ha⟩
  unfold Handler.step
  cases hpc : h.pc with
  | call =>
    dsimp only
    split
    · exact hsame _ rfl rfl fun _ => rfl
    · exact hsame _ rfl rfl fun _ => rfl
  | takeOver current endpoint dropList =>
    dsimp only [World.takeOver]
    split
    · exact hsame _ rfl rfl fun _ => rfl
    · split
      · exact hsame _ rfl rfl fun _ => rfl
      · apply hsame _ (Roster.promote_nodeList _ _ _ _) (Roster.promote_made _ _ _ _)
        intro p
        rw [Roster.promote_node, Roster.setState_addr]
        rfl
  | look start down endpoint dropList =>
    dsimp only [World.look]
    repeat' split
    all_goals exact hsame _ rfl rfl fun _ => rfl
  | changeDown down up dropList =>
    dsimp only
    split
    · exact hsame _ rfl rfl fun _ => rfl
    · exact hsame _ rfl rfl fun _ => rfl
  | changeUp down up seq dropList =>
    dsimp only
    split
    · exact hsame _ rfl rfl fun _ => rfl
    · exact hsame _ rfl rfl fun _ => rfl
  | remove dropList =>
    cases dropList with
    | nil => exact hsame _ rfl rfl fun _ => rfl
    | cons p dropList => exact ⟨List.filter_sublist, rfl, fun _ => rfl⟩
  | returned => exact hsame _ rfl rfl fun _ => rfl

/-! ## What the servers have applied -/

/-- list members have different addresses, and the state recorded for one is the state of its server -/
structure Applied (w : World) : Prop where
  addrs : w.roster.addrs.Nodup
  states : ∀ p ∈ w.roster.nodeList, (w.servers (w.roster.node p).addr).state = (w.roster.node p).state

/-- a server applies the state that it is sent -/
@[simp] theorem Server.changeMode_state {α : Type} (s : Server α) (request : ChangeModeRequest α) :
    (s.changeMode request).state = request.newState := by
  unfold Server.changeMode
  dsimp only
  split
  · rename_i h
    exact h.symm
  · cases h : request.newState <;> rfl

section Applied

variable {w : World}

theorem Applied.addr_ne (h : Applied w) {p q : ℕ} (hp : p ∈ w.roster.nodeList) (hq : q ∈ w.roster.nodeList)
    (hpq : q ≠ p) : (w.roster.node q).addr ≠ (w.roster.node p).addr :=
  fun he => hpq (List.inj_on_of_nodup_map h.addrs hq hp he)

/-- list member `p` applies a state, which is then recorded -/
theorem Applied.call (h : Applied w) {p : ℕ} (hp : p ∈ w.roster.nodeList) (request : ChangeModeRequest Addr)
    {x : Roster} (hl : x.nodeList = w.roster.nodeList) (haddr : ∀ q, (x.node q).addr = (w.roster.node q).addr)
    (hself : (x.node p).state = request.newState)
    (hother : ∀ q, q ≠ p → (x.node q).state = (w.roster.node q).state) :
    Applied { w.changeMode p request with roster := x } := by
  constructor
  · exact h.addrs.sublist (Roster.addrs_sublist (hl ▸ List.Sublist.refl _) haddr)
  · intro q hq
    rw [show ({ w.changeMode p request with roster := x } : World).roster.nodeList = w.roster.nodeList from hl] at hq
    simp only [haddr, World.changeMode]
    by_cases hqp : q = p
    · subst hqp
      rw [Function.update_self, Server.changeMode_state, hself]
    · rw [Function.update_of_ne (h.addr_ne hp hq hqp), hother q hqp]
      exact h.states q hq

/-- some members go -/
theorem Applied.sublist (h : Applied w) {x : World} (hs : x.servers = w.servers) (hn : x.roster.node = w.roster.node)
    (hl : x.roster.nodeList.Sublist w.roster.nodeList) : Applied x := by
  constructor
  · exact h.addrs.sublist (Roster.addrs_sublist hl fun p => by rw [hn])
  · intro p hp
    rw [hs, hn]
    exact h.states p (hl.subset hp)

theorem takeOver_applied (h : Applied w) {hd : Handler} (hcopy : hd.copy = w.roster.nodeList) (current : ℕ)
    (endpoint : Option ℕ) (dropList : List ℕ) (answer : Option UInt64) :
    Applied (w.takeOver hd current endpoint dropList answer).1 := by
  unfold World.takeOver
  dsimp only
  split
  · exact h.sublist rfl rfl (List.Sublist.refl _)
  · rename_i it tryNext hmove
    have hmem : tryNext ∈ w.roster.nodeList := by
      rw [← hcopy]
      unfold Handler.move at hmove
      split_ifs at hmove
      all_goals
        obtain ⟨q, hq, hqe⟩ := Option.map_eq_some_iff.1 hmove
        obtain ⟨-, rfl⟩ := Prod.mk.inj hqe
        exact List.mem_of_getElem? hq
    split
    · exact h
    · refine h.call hmem _ (Roster.promote_nodeList _ _ _ _) (fun q => ?_) ?_ fun q hq => ?_
      · rw [Roster.promote_node]
        by_cases hq : q = tryNext
        · subst hq
          simp [Roster.setState, World.changeMode]
        · simp [Roster.setState, World.changeMode, hq]
      · simp [Roster.setState]
      · simp [Roster.setState, World.changeMode, hq]

theorem look_applied (h : Applied w) (hd : Handler) (start : ℕ) (down endpoint : Option ℕ) (dropList : List ℕ)
    (answer : Option UInt64) : Applied (w.look hd start down endpoint dropList answer).1 := by
  unfold World.look
  repeat' split
  all_goals exact h.sublist rfl rfl (List.Sublist.refl _)

theorem step_applied (h : Applied w) {hd : Handler} {k : ℕ} (hw : Working w.roster hd k) (answer : Option UInt64) :
    Applied (hd.step w answer).1 := by
  cases hw with
  | callEnd | callMiddle =>
    simp only [Handler.step]
    split
    · exact h.sublist rfl rfl (List.Sublist.refl _)
    · exact h
  | forward | backward => exact takeOver_applied h rfl _ _ _ answer
  | lookDown | lookUp => exact look_applied h _ _ _ _ _ answer
  | changeDown hr hb he hbe hd hk =>
    simp only [Handler.step]
    split
    · exact h
    · exact h.call (List.mem_of_getElem? he) _ rfl (fun _ => rfl) rfl fun _ _ => rfl
  | changeUp hr hb he hbe hd hk =>
    simp only [Handler.step]
    split
    · exact h
    · exact h.call (List.mem_of_getElem? hb) _ rfl (fun _ => rfl) rfl fun _ _ => rfl
  | @remove copy dropList it _ hr hk =>
    cases dropList with
    | nil => exact h
    | cons p dropList => exact h.sublist rfl rfl List.filter_sublist
  | returned => exact h

end Applied

/-! ## Joins -/

section Register

variable {r : Roster}

/-- `new Node` is no list member -/
theorem Roles.build (h : Roles r) (a : Addr) : Roles (r.build a) ∧ r.made ∉ r.nodeList ∧
    ∀ p ∈ r.nodeList, (r.build a).node p = r.node p := by
  have hnew : r.made ∉ r.nodeList := fun hm => lt_irrefl _ (h.made _ hm)
  have hsame : ∀ p ∈ r.nodeList, (r.build a).node p = r.node p := by
    intro p hp
    have hne : p ≠ r.made := (h.made p hp).ne
    simp [Roster.build, hne]
  exact ⟨h.congr rfl hsame rfl rfl (Nat.le_succ _), hnew, hsame⟩

theorem Roles.build_addrs (h : Roles r) (a : Addr) : (r.build a).addrs = r.addrs := by
  obtain ⟨-, -, hsame⟩ := h.build a
  exact List.map_congr_left fun p hp => by rw [hsame p hp]

/-- a new node comes behind a tail that has taken the right role -/
theorem Roles.insert (h : Roles r) {newNode : ℕ} (hnew : newNode ∉ r.nodeList) (hlt : newNode < r.made) {old : State}
    (hold : r.nodeList = [] ∨ old = if r.nodeList.length = 1 then .head else .middle) :
    Roles (r.insert newNode old) := by
  unfold Roster.insert
  by_cases hnil : r.nodeList = []
  · simp only [hnil, List.nil_append, List.length_singleton, if_true, Roster.setState]
    refine ⟨List.nodup_singleton _, by simpa using hlt, ?_, fun _ => rfl, fun _ => rfl⟩
    intro i p hp
    obtain ⟨rfl, rfl⟩ : i = 0 ∧ newNode = p := by
      cases i with
      | zero => exact ⟨rfl, by simpa using hp⟩
      | succ i => simp at hp
    simp [roleOf]
  · have hpos := List.length_pos_iff.2 hnil
    have hone : (r.nodeList ++ [newNode]).length ≠ 1 := by
      rw [List.length_append, List.length_singleton]
      omega
    have hold' := hold.resolve_left hnil
    obtain ⟨t, ht⟩ : ∃ t, r.nodeList[r.nodeList.length - 1]? = some t :=
      ⟨_, List.getElem?_eq_getElem (Nat.sub_lt hpos Nat.one_pos)⟩
    have htail := (h.tail hnil).trans ht
    have htnew : t ≠ newNode := by
      rintro rfl
      exact hnew (List.mem_of_getElem? ht)
    simp only [if_neg hone, htail, Roster.setState]
    refine ⟨?_, ?_, ?_, ?_, ?_⟩
    · exact List.nodup_append.2 ⟨h.nodup, List.nodup_singleton _, by
        rintro p hp q hq rfl
        exact hnew (List.mem_singleton.1 hq ▸ hp)⟩
    · intro p hp
      rcases List.mem_append.1 hp with hp | hp
      · exact h.made p hp
      · rw [List.mem_singleton.1 hp]
        exact hlt
    · intro i p hp
      simp only [List.length_append, List.length_singleton]
      rcases getElem?_of_concat hp with hp₀ | ⟨rfl, rfl⟩
      · have hi := (List.getElem?_eq_some_iff.1 hp₀).1
        have hpnew : p ≠ newNode := by
          rintro rfl
          exact hnew (List.mem_of_getElem? hp₀)
        rw [Function.update_of_ne hpnew]
        by_cases hpt : p = t
        · subst hpt
          have hlast := position_unique h.nodup hp₀ ht
          rw [Function.update_self, hold']
          unfold roleOf
          split_ifs <;> first | rfl | omega
        · have hlast : i ≠ r.nodeList.length - 1 := by
            rintro rfl
            rw [ht] at hp₀
            exact hpt (Option.some.inj hp₀).symm
          rw [Function.update_of_ne hpt, h.role i p hp₀]
          unfold roleOf
          split_ifs <;> first | rfl | omega
      · rw [Function.update_self]
        unfold roleOf
        split_ifs <;> first | rfl | omega
    · intro _
      rw [List.getElem?_append_left hpos]
      exact h.head hnil
    · intro _
      simp

/-- the role that `Register` chooses -/
theorem Roles.oldTailState (h : Roles r) (hne : r.nodeList ≠ []) :
    r.oldTailState = if r.nodeList.length = 1 then .head else .middle := by
  have hpos := List.length_pos_iff.2 hne
  have hlast : r.nodeList[r.nodeList.length - 1]? = some r.nodeList[r.nodeList.length - 1] := List.getElem?_eq_getElem _
  have hends : r.tail = r.head ↔ r.nodeList.length - 1 = 0 := by
    rw [h.tail hne, h.head hne, hlast]
    exact eq_endpoint_iff h.nodup hlast hpos
  unfold Roster.oldTailState
  simp only [hends]
  split_ifs <;> first | rfl | omega

end Register

/-! ## Runs -/

inductive RosterEvent where
  /-- `Register`, with the answers in its loops -/
  | register (a : Addr) (lastSeqNum : UInt64) (beats calls : List Status)
  /-- `hlp_Manage_Failure` on the list member at position `i`, with the answers to its calls -/
  | fail (i : ℕ) (answers : ℕ → Option UInt64)

def World.step (w : World) : RosterEvent → World
  | .register a lastSeqNum beats calls => w.register a lastSeqNum beats calls
  | .fail i answers => if i < w.roster.nodeList.length then w.manageFailure i answers else w

/-- the new node has an address of its own -/
def NewAddress (w : World) : RosterEvent → Prop
  | .register a _ _ _ => ∀ p ∈ w.roster.nodeList, (w.roster.node p).addr ≠ a
  | .fail _ _ => True

instance (w : World) : ∀ e, Decidable (NewAddress w e)
  | .register a _ _ _ => inferInstanceAs (Decidable (∀ p ∈ w.roster.nodeList, (w.roster.node p).addr ≠ a))
  | .fail _ _ => isTrue trivial

structure InOrder (w : World) : Prop where
  fault : w.fault = false
  roles : Roles w.roster
  applied : Applied w

section InOrder

variable {w : World}

/-- the server of the new node is not one of a list member -/
theorem Applied.insert (h : Applied w) {newNode : ℕ} {a : Addr} {old : State}
    {servers : Addr → Server Addr} (hnew : newNode ∉ w.roster.nodeList) (haddr : (w.roster.node newNode).addr = a)
    (ha : ∀ p ∈ w.roster.nodeList, (w.roster.node p).addr ≠ a)
    (hstate : (servers a).state = if w.roster.nodeList = [] then .single else .tail)
    (hold : w.roster.nodeList ≠ [] → ∃ t ∈ w.roster.nodeList, w.roster.tail = some t ∧
      (servers (w.roster.node t).addr).state = old)
    (hother : ∀ p ∈ w.roster.nodeList, w.roster.tail ≠ some p →
      servers (w.roster.node p).addr = w.servers (w.roster.node p).addr) :
    Applied { w with roster := w.roster.insert newNode old, servers := servers } := by
  have htail : w.roster.nodeList ≠ [] → w.roster.tail.isSome := by
    intro hne
    obtain ⟨t, -, ht, -⟩ := hold hne
    exact Option.isSome_iff_exists.2 ⟨t, ht⟩
  constructor
  · rw [show World.roster { w with roster := w.roster.insert newNode old, servers := servers } =
      w.roster.insert newNode old from rfl, Roster.insert_addrs]
    refine List.nodup_append.2 ⟨h.addrs, List.nodup_singleton _, ?_⟩
    rintro x hx y hy rfl
    obtain ⟨p, hp, rfl⟩ := List.mem_map.1 hx
    exact ha p hp ((List.mem_singleton.1 hy).trans haddr)
  · intro q hq
    simp only [Roster.insert_nodeList] at hq
    simp only [Roster.insert_addr]
    rcases List.mem_append.1 hq with hq | hq
    · have hne := List.ne_nil_of_mem hq
      obtain ⟨t, ht, htt, htold⟩ := hold hne
      have hqnew : q ≠ newNode := fun he => hnew (he ▸ hq)
      by_cases hqt : q = t
      · subst hqt
        rw [w.roster.insert_state_tail newNode old hne htt hqnew]
        exact htold
      · have hqt' : w.roster.tail ≠ some q := by
          rw [htt]
          simpa using Ne.symm hqt
        rw [w.roster.insert_other newNode old hqnew hqt', hother q hq hqt']
        exact h.states q hq
    · obtain rfl := List.mem_singleton.1 hq
      rw [haddr, hstate, w.roster.insert_state_new q old htail]

/-- **The whole call**, by induction on the steps that are left. -/
theorem steps_working (k : ℕ) (w : World) (h : Handler) (answers : ℕ → Option UInt64) (hw : Working w.roster h k) :
    (h.steps k w answers).2.pc = .returned ∧ Roles (h.steps k w answers).1.roster ∧
      (h.steps k w answers).1.fault = w.fault := by
  induction k generalizing w h answers with
  | zero => exact ⟨hw.returned_of_zero, hw.roles hw.returned_of_zero, rfl⟩
  | succ k ih =>
    obtain ⟨hstep, hfault⟩ := step_working hw (answers 0)
    obtain ⟨hpc, hroles, hrest⟩ := ih _ _ (fun i => answers (i + 1)) hstep
    exact ⟨hpc, hroles, hrest.trans hfault⟩

theorem steps_applied (k : ℕ) (w : World) (h : Handler) (answers : ℕ → Option UInt64) (hw : Working w.roster h k)
    (ha : Applied w) : Applied (h.steps k w answers).1 := by
  induction k generalizing w h answers with
  | zero => exact ha
  | succ k ih =>
    obtain ⟨hstep, -⟩ := step_working hw (answers 0)
    exact ih _ _ (fun i => answers (i + 1)) hstep (step_applied ha hw (answers 0))

/-- a failure of any list member, with any answers -/
theorem manageFailure_roles (h : Roles w.roster) {i : ℕ} (hi : i < w.roster.nodeList.length)
    (answers : ℕ → Option UInt64) :
    Roles (w.manageFailure i answers).roster ∧ (w.manageFailure i answers).fault = w.fault := by
  obtain ⟨hpc, hroles, hfault⟩ := steps_working _ w _ answers (Working.start h hi)
  unfold World.manageFailure
  simp only [hpc, if_true]
  exact ⟨hroles, hfault⟩

theorem manageFailure_applied (h : Roles w.roster) (ha : Applied w) {i : ℕ} (hi : i < w.roster.nodeList.length)
    (answers : ℕ → Option UInt64) : Applied (w.manageFailure i answers) := by
  have happlied := steps_applied _ w _ answers (Working.start h hi) ha
  unfold World.manageFailure
  dsimp only
  split_ifs
  · exact happlied
  · exact happlied.sublist rfl rfl (List.Sublist.refl _)

/-- the node that a registration makes changes nothing for the others -/
theorem Applied.build (h : Applied w) (hr : Roles w.roster) (a : Addr) :
    Applied { w with roster := w.roster.build a } := by
  obtain ⟨-, -, hsame⟩ := hr.build a
  refine ⟨?_, fun p hp => ?_⟩
  · rw [hr.build_addrs a]
    exact h.addrs
  · simp only [hsame p hp]
    exact h.states p hp

/-- what a call of `Register` from `a` leads to, and whether it has got to the list update -/
inductive RegisterResult (w : World) (a : Addr) (lastSeqNum : UInt64) : World → Bool → Prop
  | waiting : RegisterResult w a lastSeqNum w false
  | aborted : RegisterResult w a lastSeqNum { w with roster := w.roster.build a } false
  | first (hnil : w.roster.nodeList = []) :
      RegisterResult w a lastSeqNum { w with
        roster := (w.roster.build a).insert w.roster.made w.roster.oldTailState
        servers := Function.update w.servers a ((w.servers a).registered none) } true
  | behind {t : ℕ} {servers : Addr → Server Addr} (ht : t ∈ w.roster.nodeList) (htail : w.roster.tail = some t)
      (hs : servers = (w.changeMode t (joinRequest a lastSeqNum w.roster.oldTailState)).servers) :
      RegisterResult w a lastSeqNum { w with
        roster := (w.roster.build a).insert w.roster.made w.roster.oldTailState
        servers := Function.update servers a ((servers a).registered (some (w.roster.node t).addr)) } true

/-- the answers lead to the list update -/
def World.completes (w : World) (beats calls : List Status) : Bool :=
  !w.roster.regMtx && lastAnswer beats == some .ok && (w.roster.nodeList.isEmpty || lastAnswer calls == some .ok)

theorem register_result (h : Roles w.roster) (a : Addr) (lastSeqNum : UInt64) (beats calls : List Status) :
    RegisterResult w a lastSeqNum (w.register a lastSeqNum beats calls) (w.completes beats calls) := by
  obtain ⟨-, -, hsame⟩ := h.build a
  unfold World.register World.completes
  by_cases hlock : w.roster.regMtx = true
  · simp only [hlock, if_true, Bool.not_true, Bool.false_and]
    exact .waiting
  simp only [hlock, Bool.false_eq_true, if_false, Bool.not_false, Bool.true_and]
  rcases hbeats : lastAnswer beats with _ | answer
  · exact .waiting
  cases answer with
  | unavailable | unimplemented | other => exact .aborted
  | ok =>
    rcases hl : w.roster.nodeList with _ | ⟨q, l⟩
    · exact .first hl
    · have hne : w.roster.nodeList ≠ [] := by
        rw [hl]
        exact List.cons_ne_nil _ _
      obtain ⟨t, ht⟩ := Option.isSome_iff_exists.1 (h.tail_isSome hne)
      have hmem : t ∈ w.roster.nodeList := List.mem_of_getElem? ((h.tail hne).symm.trans ht)
      simp only [ht]
      rcases hcalls : lastAnswer calls with _ | answer
      · exact .waiting
      cases answer with
      | unavailable | unimplemented | other => exact .aborted
      | ok =>
        have haddr : (w.roster.build a).tailAddr = some (w.roster.node t).addr := by
          simp [Roster.tailAddr, show (w.roster.build a).tail = some t from ht, hsame t hmem]
        have hservers : World.servers (World.changeMode { w with roster := w.roster.build a } t
            (joinRequest a lastSeqNum w.roster.oldTailState)) =
            (w.changeMode t (joinRequest a lastSeqNum w.roster.oldTailState)).servers := by
          simp only [World.changeMode, hsame t hmem]
        have hbehind := RegisterResult.behind hmem ht hservers
        rw [← haddr] at hbehind
        exact hbehind

section RegisterResult

variable {a : Addr} {lastSeqNum : UInt64} {x : World} {b : Bool}

theorem RegisterResult.roles (hx : RegisterResult w a lastSeqNum x b) (h : Roles w.roster) : Roles x.roster := by
  obtain ⟨hb, hnew, -⟩ := h.build a
  have hlt : w.roster.made < (w.roster.build a).made := Nat.lt_succ_self _
  cases hx with
  | waiting => exact h
  | aborted => exact hb
  | first hnil => exact hb.insert hnew hlt (Or.inl hnil)
  | behind ht htail hs => exact hb.insert hnew hlt (Or.inr (h.oldTailState (List.ne_nil_of_mem ht)))

theorem RegisterResult.fault_eq (hx : RegisterResult w a lastSeqNum x b) : x.fault = w.fault := by
  cases hx <;> rfl

/-- a registration with an address of its own -/
theorem RegisterResult.applied (hx : RegisterResult w a lastSeqNum x b) (h : Roles w.roster) (hw : Applied w)
    (ha : ∀ p ∈ w.roster.nodeList, (w.roster.node p).addr ≠ a) : Applied x := by
  obtain ⟨-, hnew, hsame⟩ := h.build a
  have hb := hw.build h a
  have hmade : ((w.roster.build a).node w.roster.made).addr = a := by simp [Roster.build]
  have ha' : ∀ p ∈ (w.roster.build a).nodeList, ((w.roster.build a).node p).addr ≠ a := by
    intro p hp
    rw [hsame p hp]
    exact ha p hp
  cases hx with
  | waiting => exact hw
  | aborted => exact hb
  | first hnil =>
    have hnil' : (w.roster.build a).nodeList = [] := hnil
    apply Applied.insert (w := { w with roster := w.roster.build a }) hb hnew hmade ha'
    · rw [Function.update_self, if_pos hnil']
      rfl
    · exact fun hne => absurd hnil' hne
    · intro p hp
      rw [hnil'] at hp
      cases hp
  | @behind t servers ht htail hs =>
    have hne : (w.roster.build a).nodeList ≠ [] := List.ne_nil_of_mem ht
    apply Applied.insert (w := { w with roster := w.roster.build a }) hb hnew hmade ha'
    · -- it has the old tail as its predecessor
      rw [Function.update_self, if_neg hne]
      rfl
    · -- the old tail has changed its mode
      refine fun _ => ⟨t, ht, htail, ?_⟩
      rw [Function.update_of_ne (ha' t ht), hsame t ht, hs]
      simp only [World.changeMode, Function.update_self, Server.changeMode_state, joinRequest]
    · intro p hp hpt
      have hpt' : p ≠ t := by
        rintro rfl
        exact hpt htail
      rw [Function.update_of_ne (ha' p hp), hsame p hp, hs]
      simp only [World.changeMode]
      rw [Function.update_of_ne (hw.addr_ne ht hp hpt')]

end RegisterResult

theorem inOrder_start : InOrder World.start :=
  ⟨rfl, Roles.of_empty rfl, List.nodup_nil, fun _ hp => absurd hp List.not_mem_nil⟩

end InOrder

/-- **The master's list is in order** after every sequence of registrations and failures. -/
theorem roster_in_order (es : List RosterEvent) (h : Meets World.step NewAddress World.start es) :
    InOrder (run World.step World.start es) := by
  refine run_inv_of_meets World.step NewAddress InOrder (fun w e hw he => ?_) World.start es inOrder_start h
  cases e with
  | register a lastSeqNum beats calls =>
    have hx := register_result hw.roles a lastSeqNum beats calls
    exact ⟨hx.fault_eq.trans hw.fault, hx.roles hw.roles, hx.applied hw.roles hw.applied he⟩
  | fail i answers =>
    unfold World.step
    dsimp only
    split_ifs with hi
    · obtain ⟨hroles, hfault⟩ := manageFailure_roles hw.roles hi answers
      exact ⟨hfault.trans hw.fault, hroles, manageFailure_applied hw.roles hw.applied hi answers⟩
    · exact hw

/-- Four nodes join; then the second one fails, and so do those behind it: the failure is the one of the tail, and the
first node is alone. -/
theorem roster_in_order_failures :
    let node := fun port => RosterEvent.register ⟨"10.0.0.1", port⟩ 0 [.unavailable, .ok] [.ok]
    let es := [node 1, node 2, node 3, node 4, .fail 1 fun k => if k = 6 then some 0 else none]
    InOrder (run World.step World.start es) ∧
      (run World.step World.start (es.take 4)).roster.nodeList = [0, 1, 2, 3] ∧
        (run World.step World.start es).roster.nodeList = [0] ∧
          ((run World.step World.start es).servers ⟨"10.0.0.1", 1⟩).state = .single := by
  intro node es
  have hm : Meets World.step NewAddress World.start es := by decide +kernel
  exact ⟨roster_in_order es hm, by decide +kernel, by decide +kernel, by decide +kernel⟩

end ChainedBlockStorage.Master
