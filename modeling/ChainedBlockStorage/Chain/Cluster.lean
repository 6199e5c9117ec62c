/-
Numbering across joins and failures.

Nodes start from their volumes, join (`Restore`, the reply of `Register`), change their roles (`ChangeMode`) and fail,
in any order and as often as the master likes, while all threads run. `currentSeq` is set at start-up, by `Restore`
and by `Write`, but a node also queues and writes the numbers that are relayed to it.

- `numbering_is_next`: on a head or a single server that has no `Write` between number and queue, `currentSeq` is one
  more than the largest number written, queued or popped, in every run in which a node is promoted only if no relayed
  number has reached its `currentSeq`, and none does so afterwards.
- `promoted_reuses_number`: a tail that has written number 1 becomes a single server and hands out number 1.
-/
import ChainedBlockStorage.Chain.Join

namespace ChainedBlockStorage.Chain

open Run Tables

/-! ## `ChangeMode` and `Register` at a node -/

/-- head and tail service, and the links, as `ChangeMode` sets them -/
def Node.changeMode (n : Node) (new : State) (prev next : Option ℕ) : Node :=
  let n := { n with upstream := prev.or n.upstream, downstream := next.or n.downstream }
  let launchTail := fun (n : Node) => { n with acks := n.acks ++ [⟨true, 0, .start⟩] }
  if new = n.state then n
  else match new with
    | .single =>
      let m := { n with
        state := new, upstream := none, downstream := none, headService := n.headService || n.state != .head }
      if n.state = .tail then m else launchTail m
    | .head => { n with state := new, upstream := none, headService := n.headService || n.state != .single }
    | .tail =>
      let m := { n with state := new, downstream := none }
      if n.state = .single then m else launchTail m
    | _ => { n with state := new }

/-- the reply of `Register`: the first node is a single server, any other the tail behind node `prev` -/
def Node.registered (n : Node) (prev : Option ℕ) : Node :=
  { n with
    upstream := prev.or n.upstream
    state := if prev.isSome then .tail else .single
    headService := n.headService || prev.isNone
    acks := n.acks ++ [⟨true, 0, .start⟩] }

/-! ## The machine -/

structure Cluster where
  nodes : Nodes
  /-- history: the numbers that were in the volume of a node before its counters were set -/
  volume : ℕ → List ℤ
  /-- history: the nodes that `Restore` was called on -/
  restored : List ℕ

inductive ClusterEvent where
  /-- a step of the chain -/
  | node (e : Event)
  | crash (i : ℕ)
  /-- `Restore` on a node that registers, with whatever the old tail has read -/
  | restore (i : ℕ) (entries : List (ℤ × Int64))
  | updateReplayLog (i : ℕ) (log : ReplayLog)
  | changeMode (i : ℕ) (new : State) (prev next : Option ℕ)
  | registered (i : ℕ) (prev : Option ℕ)
  /-- `ChangeMode` on node `i` resends an entry of its sent list -/
  | resend (i : ℕ) (x : ℤ × SentListEntry) (data : List UInt8) (reqId : ClientRequestId)

def Cluster.set (c : Cluster) (i : ℕ) (n : Node) : Cluster := { c with nodes := Function.update c.nodes i n }

def Cluster.step (c : Cluster) : ClusterEvent → Cluster
  | .node e => { c with nodes := Chain.step c.nodes e }
  | .crash i => c.set i { c.nodes i with rwb := .dead }
  | .restore i entries =>
    let n := c.nodes i
    -- a node registers once, and nobody calls it before
    if n.state = .initializing ∧ n.acks.length = 0 ∧ i ∉ c.restored ∧ ¬ n.rwb.isDead then
      { nodes := Function.update c.nodes i (n.restore entries)
        volume := Function.update c.volume i (c.volume i ++ entries.map Prod.fst)
        restored := i :: c.restored }
    else c
  | .updateReplayLog i log =>
    if (c.nodes i).rwb.isDead then c else c.set i { c.nodes i with replayLog := log }
  | .changeMode i new prev next =>
    if (c.nodes i).rwb.isDead ∨ new = .initializing then c else c.set i ((c.nodes i).changeMode new prev next)
  | .registered i prev => if (c.nodes i).rwb.isDead then c else c.set i ((c.nodes i).registered prev)
  | .resend i x data reqId =>
    match (c.nodes i).downstream with
    | none => c
    | some j =>
      if (c.nodes i).rwb.isDead ∨ (c.nodes j).rwb.isDead ∨ x ∉ (c.nodes i).sentList.toList then c
      else { c with nodes := c.nodes.wire j (.relayArrives ⟨data, x.2.volumeOffset.toUInt64, x.1, reqId⟩) }

/-- no node has registered, and the volume of node `i` has commits up to `own i` -/
def Cluster.start (own : ℕ → ℤ) : Cluster where
  nodes := fun i => Node.idle .initializing none none false (own i) ReplayLog.empty []
  volume := fun i => [own i]
  restored := []

/-- the numbers that node `i` has in its volume, queued or popped -/
def Cluster.numbers (c : Cluster) (i : ℕ) : List ℤ := c.volume i ++ (c.nodes i).holds

/-- at a head or a single server with no `Write` between number and queue, `currentSeq` is one more than the largest
number of the node -/
def NumberingIsNext (c : Cluster) : Prop := ∀ i, (c.nodes i).rwb.isDead = false →
  (c.nodes i).state = .head ∨ (c.nodes i).state = .single → (c.nodes i).pushing = [] →
  IsGreatest {k | k ∈ c.numbers i} ((c.nodes i).currentSeq - 1)

/-- no number that was queued at the node has reached its `currentSeq` -/
def Node.Unreached (n : Node) : Prop := ∀ x ∈ n.queued, x.seqNum < n.currentSeq

instance (n : Node) : Decidable n.Unreached := inferInstanceAs (Decidable (∀ x ∈ n.queued, x.seqNum < n.currentSeq))

/-- when the head service is launched, no queued number has reached `currentSeq`; a node that runs it queues no relayed
number that has; and its own pushes do not throw -/
def PromotedUnreached (c : Cluster) : ClusterEvent → Prop
  | .node (.act i (.write (.pushEntry k))) => NoClash c.nodes i (.act i (.write (.pushEntry k)))
  | .node (.act i (.relay k .pushEntry)) => (c.nodes i).headService = true →
      ∀ x ∈ c.nodes.pushes i (.act i (.relay k .pushEntry)), x.seqNum < (c.nodes i).currentSeq
  | .changeMode i new prev next => (c.nodes i).headService = false →
      ((c.nodes i).changeMode new prev next).headService = true → (c.nodes i).Unreached
  | .registered i none => (c.nodes i).Unreached
  | _ => True

instance (c : Cluster) : ∀ e, Decidable (PromotedUnreached c e)
  | .node (.act i (.write (.pushEntry k))) =>
    inferInstanceAs (Decidable (NoClash c.nodes i (.act i (.write (.pushEntry k)))))
  | .node (.act i (.relay k .pushEntry)) => inferInstanceAs (Decidable ((c.nodes i).headService = true →
      ∀ x ∈ c.nodes.pushes i (.act i (.relay k .pushEntry)), x.seqNum < (c.nodes i).currentSeq))
  | .changeMode i new prev next => inferInstanceAs (Decidable ((c.nodes i).headService = false →
      ((c.nodes i).changeMode new prev next).headService = true → (c.nodes i).Unreached))
  | .registered i none => inferInstanceAs (Decidable (c.nodes i).Unreached)
  | .node (.act _ (.write (.addToLog _))) | .node (.act _ (.write (.takeSeq _))) | .node (.act _ (.relay _ .addToLog))
  | .node (.act _ (.relay _ .drop)) | .node (.act _ (.rwb _)) | .node (.act _ (.ack _ _))
  | .node (.act _ (.ackLogEntry _)) | .node (.sendRelay _) | .node (.relayOk _) | .node (.sendAck _ _)
  | .node (.ackOk _ _) | .crash _ | .restore _ _ | .updateReplayLog _ _ | .registered _ (some _)
  | .resend _ _ _ _ => isTrue trivial

/-! ## What was queued is still there -/

/-- an alive node has every number that was queued, and no other -/
structure Kept (n : Node) : Prop where
  queue : ∀ x ∈ n.pendingQueue, x ∈ n.queued
  held : ∀ e, n.rwb.held = some e → e ∈ n.queued
  written : ∀ x ∈ n.written, ∃ y ∈ n.queued, y.seqNum = x.seqNum
  late : ∀ e, n.rwb = .bump e ∨ n.rwb = .send e → ∃ x ∈ n.written, x.seqNum = e.seqNum
  kept : n.rwb.isDead = false → ∀ x ∈ n.queued, x.seqNum ∈ n.holds

section Kept

variable {n n' : Node}

theorem mem_holds {k : ℤ} : k ∈ n.holds ↔ (∃ x ∈ n.pendingQueue, x.seqNum = k) ∨
    (∃ e, n.rwb.held = some e ∧ e.seqNum = k) ∨ ∃ x ∈ n.written, x.seqNum = k := by
  simp only [Node.holds, List.mem_append, List.mem_map, Option.mem_toList, or_assoc, Sorted.mem_toList]

theorem Kept.mem_holds_iff (h : Kept n) (hd : n.rwb.isDead = false) {k : ℤ} :
    k ∈ n.holds ↔ ∃ x ∈ n.queued, x.seqNum = k := by
  constructor
  · rw [mem_holds]
    rintro (⟨x, hx, hk⟩ | ⟨e, he, hk⟩ | ⟨x, hx, hk⟩)
    · exact ⟨x, h.queue x hx, hk⟩
    · exact ⟨e, h.held e he, hk⟩
    · obtain ⟨y, hy, hyx⟩ := h.written x hx
      exact ⟨y, hy, hyx.trans hk⟩
  · rintro ⟨x, hx, rfl⟩
    exact h.kept hd x hx

/-- the same queue, hand and history -/
theorem Kept.congr (h : Kept n) (h1 : n'.pendingQueue = n.pendingQueue) (h2 : n'.rwb = n.rwb)
    (h3 : n'.written = n.written)
    (h4 : n'.queued = n.queued) : Kept n' := by
  have hh : n'.holds = n.holds := by rw [Node.holds, Node.holds, h1, h2, h3]
  exact ⟨by rw [h1, h4]; exact h.queue, by rw [h2, h4]; exact h.held, by rw [h3, h4]; exact h.written,
    by rw [h2, h3]; exact h.late, by rw [h2, h4, hh]; exact h.kept⟩

theorem Kept.crash (h : Kept n) : Kept { n with rwb := .dead } :=
  ⟨h.queue, by simp [Rwb.held], h.written, by simp, by simp [Rwb.isDead]⟩

/-- the thread moves on with its entry, or leaves one behind that is written -/
theorem Kept.moveOn (h : Kept n) (r : Rwb) (l : SentList) (w : ℤ) (hr : ∀ e, r.held = some e → n.rwb.held = some e)
    (hl : ∀ e, r = .bump e ∨ r = .send e → n.rwb = .bump e ∨ n.rwb = .send e)
    (hleft : ∀ e, n.rwb.held = some e → r.held = some e ∨ ∃ x ∈ n.written, x.seqNum = e.seqNum)
    (hd : n.rwb.isDead = false) : Kept { n with rwb := r, sentList := l, writeSeq := w } := by
  refine ⟨h.queue, fun e he => h.held e (hr e he), h.written, fun e he => h.late e (hl e he), fun _ x hx => ?_⟩
  rw [mem_holds]
  rcases mem_holds.1 (h.kept hd x hx) with hq | ⟨e, he, hk⟩ | hw
  · exact Or.inl hq
  · rcases hleft e he with he | ⟨y, hy, hye⟩
    · exact Or.inr (Or.inl ⟨e, he, hk⟩)
    · exact Or.inr (Or.inr ⟨y, hy, hye.trans hk⟩)
  · exact Or.inr (Or.inr hw)

theorem Kept.rwbAct (h : Kept n) (a : RwbAct) : Kept (n.rwbAct a) := by
  cases a with
  | poll | spin | leave | retry | bump =>
    simp only [Node.rwbAct]
    repeat' split
    all_goals first
      | exact h
      | exact h.moveOn _ _ _ (by simp_all [Rwb.held]) (by simp_all) (by simp_all [Rwb.held]) (by simp_all [Rwb.isDead])
  | send =>
    simp only [Node.rwbAct]
    split
    · rename_i e hr
      split
      · exact h.crash
      · refine h.moveOn .poll _ _ (by simp [Rwb.held]) (by simp) (fun x hx => Or.inr ?_) (by simp [hr, Rwb.isDead])
        obtain rfl : e = x := by simpa [hr, Rwb.held] using hx
        exact h.late e (Or.inr hr)
    · exact h
  | pop =>
    simp only [Node.rwbAct]
    split
    · rename_i e q hr hp
      obtain ⟨he, -, hmem⟩ := PendingQueue.popEntry_eq_some hp
      refine ⟨fun x hx => h.queue x ((hmem x).1 hx).1, ?_, h.written, by simp, fun _ x hx => ?_⟩
      · rintro x ⟨⟩
        exact h.queue e he
      · rw [mem_holds]
        rcases mem_holds.1 (h.kept (by simp [hr, Rwb.isDead]) x hx) with ⟨y, hy, hk⟩ | ⟨y, hy, -⟩ | hw
        · by_cases hye : y.seqNum = e.seqNum
          · exact Or.inr (Or.inl ⟨e, rfl, hye ▸ hk⟩)
          · exact Or.inl ⟨y, (hmem y).2 ⟨hy, hye⟩, hk⟩
        · simp [hr, Rwb.held] at hy
        · exact Or.inr (Or.inr hw)
    · exact h
  | write =>
    simp only [Node.rwbAct]
    split
    · rename_i e hr
      have he : n.rwb.held = some e := by simp [hr, Rwb.held]
      refine ⟨h.queue, fun x hx => h.held x (he.trans hx), fun x hx => ?_, fun x hx => ?_, fun _ x hx => ?_⟩
      · rcases List.mem_append.1 hx with hx | hx
        · exact h.written x hx
        · rw [List.mem_singleton.1 hx]
          exact ⟨e, h.held e he, rfl⟩
      · obtain rfl : e = x := by simpa using hx
        exact ⟨_, List.mem_append_right _ (List.mem_singleton_self _), rfl⟩
      · rw [mem_holds]
        rcases mem_holds.1 (h.kept (by simp [hr, Rwb.isDead]) x hx) with hq | ⟨y, hy, hk⟩ | ⟨y, hy, hk⟩
        · exact Or.inl hq
        · exact Or.inr (Or.inl ⟨y, he.symm.trans hy, hk⟩)
        · exact Or.inr (Or.inr ⟨y, List.mem_append_left _ hy, hk⟩)
    · exact h

theorem Kept.act (h : Kept n) (a : Act) : Kept (n.act a) := by
  by_cases ha : ∃ b, a = .rwb b
  · obtain ⟨b, rfl⟩ := ha
    unfold Node.act
    split
    · exact h
    · exact h.rwbAct b
  · obtain ⟨hsub, hr, -, hw⟩ := act_grows n a fun b hb => ha ⟨b, hb⟩
    have hmore : ∀ k, k ∈ n.holds → k ∈ (n.act a).holds := by
      intro k hk
      rw [mem_holds, hr, hw]
      rcases mem_holds.1 hk with ⟨x, hx, hxk⟩ | hk
      · exact Or.inl ⟨x, hsub x hx, hxk⟩
      · exact Or.inr hk
    rcases act_queued n a with ⟨hq, hx⟩ | ⟨x, hq, hmem, -⟩
    · exact ⟨fun x hx' => hq ▸ h.queue x (hx x hx'), by rw [hr, hq]; exact h.held, by rw [hw, hq]; exact h.written,
        by rw [hr, hw]; exact h.late, by rw [hr, hq]; exact fun hd x hx => hmore _ (h.kept hd x hx)⟩
    · have hin : ∀ y, y ∈ n.queued → y ∈ (n.act a).queued := fun y hy => by rw [hq]; exact List.mem_append_left _ hy
      have hxq : x ∈ (n.act a).queued := by simp [hq]
      refine ⟨fun y hy => ?_, fun e he => hin e (h.held e (hr ▸ he)), fun y hy => ?_, by rw [hr, hw]; exact h.late,
        fun hd y hy => ?_⟩
      · rcases (hmem y).1 hy with hy | rfl
        · exact hin y (h.queue y hy)
        · exact hxq
      · obtain ⟨z, hz, hzy⟩ := h.written y (hw ▸ hy)
        exact ⟨z, hin z hz, hzy⟩
      · rw [hq] at hy
        rcases List.mem_append.1 hy with hy | hy
        · exact hmore _ (h.kept (hr ▸ hd) y hy)
        · rw [List.mem_singleton.1 hy, mem_holds]
          exact Or.inl ⟨x, (hmem x).2 (Or.inr rfl), rfl⟩

theorem Kept.wire (h : Kept n) (w : Wire) : Kept (n.wire w) := by
  cases w with
  | relaySent _ _ | relayOk =>
    simp only [Node.wire]
    split
    · exact h.moveOn _ _ _ (by simp_all [Rwb.held]) (by simp_all) (by simp_all [Rwb.held]) (by simp_all [Rwb.isDead])
    · exact h
  | relayArrives _ | ackArrives _ => exact h.congr rfl rfl rfl rfl
  | ackSent _ _ _ | ackOk _ =>
    simp only [Node.wire]
    split
    · exact h.congr rfl rfl rfl rfl
    · exact h

end Kept

/-! ## What `currentSeq` is next to -/

/-- without the head service `currentSeq` follows the volume `v`, with it all that was queued or is about to be -/
structure Counting (v : List ℤ) (n : Node) : Prop where
  kept : Kept n
  role : n.state = .head ∨ n.state = .single → n.headService = true
  fresh : n.state = .initializing → n.headService = false
  quiet : n.headService = false → n.adding = [] ∧ n.pushing = []
  base : n.headService = false → IsGreatest {k | k ∈ v} (n.currentSeq - 1)
  top : n.headService = true → IsGreatest {k | k ∈ v ∨ (∃ x ∈ n.queued, x.seqNum = k) ∨ ∃ x ∈ n.pushing, x.seqNum = k}
    (n.currentSeq - 1)

section Counting

variable {v : List ℤ} {n n' : Node}

theorem intake_counters {n n' : Node} (h : n'.intake = n.intake) :
    n'.currentSeq = n.currentSeq ∧ n'.adding = n.adding ∧ n'.pushing = n.pushing :=
  ⟨congrArg Intake.currentSeq h, congrArg Intake.adding h, congrArg Intake.pushing h⟩

theorem Counting.writeAct (h : Counting v n) (hs : n.headService = true) (hd : n.rwb.isDead = false) (a : WriteAct)
    (hw : ∀ k x, a = .pushEntry k → n.pushing[k]? = some x → (n.pendingQueue.pushEntry x).isSome) :
    Counting v (n.act (.write a)) := by
  have hkept := h.kept.act (.write a)
  obtain ⟨hmem, hle⟩ := h.top hs
  simp only [Node.act, hd, Bool.false_eq_true, if_false] at hkept ⊢
  cases a with
  | addToLog request =>
    by_cases hneg : (n.replayLog.addToLog request.clientRequestId).1 < 0
    all_goals
      simp only [Node.writeAct, hs, if_true, hneg, if_false] at hkept ⊢
      exact ⟨hkept, fun _ => rfl, fun hi => absurd (h.fresh hi) (by simp [hs]), by simp, by simp, fun _ => h.top hs⟩
  | takeSeq k =>
    cases hk : n.adding[k]? with
    | none => simpa only [Node.writeAct, hk] using h
    | some request =>
      simp only [Node.writeAct, hk] at hkept ⊢
      refine ⟨hkept, h.role, h.fresh, by simp [hs], by simp [hs], fun _ => ⟨?_, fun m hm => ?_⟩⟩
      · exact Or.inr (Or.inr ⟨_, List.mem_append_right _ (List.mem_singleton_self _), by simp [WriteRequest.entry]⟩)
      · have hold : (m ∈ v ∨ (∃ x ∈ n.queued, x.seqNum = m) ∨ ∃ x ∈ n.pushing, x.seqNum = m) ∨ m = n.currentSeq := by
          rcases hm with hm | hm | ⟨x, hx, rfl⟩
          · exact Or.inl (Or.inl hm)
          · exact Or.inl (Or.inr (Or.inl hm))
          · rcases List.mem_append.1 hx with hx | hx
            · exact Or.inl (Or.inr (Or.inr ⟨x, hx, rfl⟩))
            · rw [List.mem_singleton.1 hx]
              exact Or.inr rfl
        simp only
        rcases hold with hm | rfl
        · have := hle hm
          omega
        · omega
  | pushEntry k =>
    cases hk : n.pushing[k]? with
    | none => simpa only [Node.writeAct, hk] using h
    | some x =>
      obtain ⟨q, hq⟩ := Option.isSome_iff_exists.1 (hw k x rfl hk)
      simp only [Node.writeAct, hk, hq] at hkept ⊢
      -- the entry goes from `pushing` to `queued`
      have hsame : ∀ m, (∃ y ∈ n.queued ++ [x], y.seqNum = m) ∨ (∃ y ∈ n.pushing.eraseIdx k, y.seqNum = m) ↔
          (∃ y ∈ n.queued, y.seqNum = m) ∨ ∃ y ∈ n.pushing, y.seqNum = m := by
        intro m
        have hpush : ∀ y, y ∈ n.pushing ↔ y = x ∨ y ∈ n.pushing.eraseIdx k := by
          intro y
          obtain ⟨hlt, rfl⟩ := List.getElem?_eq_some_iff.1 hk
          exact ((List.getElem_cons_eraseIdx_perm hlt).mem_iff.symm).trans List.mem_cons
        simp only [hpush, List.mem_append, List.mem_singleton]
        constructor
        · rintro (⟨y, hy | rfl, hm⟩ | ⟨y, hy, hm⟩)
          · exact Or.inl ⟨y, hy, hm⟩
          · exact Or.inr ⟨y, Or.inl rfl, hm⟩
          · exact Or.inr ⟨y, Or.inr hy, hm⟩
        · rintro (⟨y, hy, hm⟩ | ⟨y, rfl | hy, hm⟩)
          · exact Or.inl ⟨y, Or.inl hy, hm⟩
          · exact Or.inl ⟨y, Or.inr rfl, hm⟩
          · exact Or.inr ⟨y, hy, hm⟩
      refine ⟨hkept, h.role, h.fresh, by simp [hs], by simp [hs], fun _ => ?_⟩
      simp only [hsame]
      exact ⟨hmem, hle⟩

/-- **A step of the node.** -/
theorem Counting.act (h : Counting v n) (a : Act)
    (hw : ∀ k x, a = .write (.pushEntry k) → n.pushing[k]? = some x → (n.pendingQueue.pushEntry x).isSome)
    (hr : ∀ k request f, a = .relay k .pushEntry → n.relays[k]? = some ⟨request, .added, f⟩ → n.headService = true →
      request.seqNum < n.currentSeq) : Counting v (n.act a) := by
  by_cases hd : n.rwb.isDead = true
  · simpa only [Node.act, hd, if_true] using h
  have hd : n.rwb.isDead = false := by simpa using hd
  have hconf := act_conf n a
  have hstate : (n.act a).state = n.state := congrArg Conf.state hconf
  have hhead : (n.act a).headService = n.headService := congrArg Conf.headService hconf
  by_cases hs : n.headService = true
  · by_cases ha : ∃ b, a = .write b
    · obtain ⟨b, rfl⟩ := ha
      exact h.writeAct hs hd b fun k x hk => hw k x (by rw [hk])
    · obtain ⟨h1, -, h3⟩ := intake_counters (act_intake n a fun b hb => ha ⟨b, hb⟩)
      obtain ⟨hmem, hle⟩ := h.top hs
      refine ⟨h.kept.act a, by rw [hstate, hhead]; exact h.role, by rw [hstate, hhead]; exact h.fresh,
        by simp [hhead, hs], by simp [hhead, hs], fun _ => ?_⟩
      rw [h1, h3]
      rcases act_queued n a with ⟨hq, -⟩ | ⟨x, hq, -, hfrom⟩
      · rw [hq]
        exact ⟨hmem, hle⟩
      · -- a relayed entry is queued, below `currentSeq`
        have hx : x.seqNum < n.currentSeq := by
          rcases hfrom with ⟨k, rfl, -⟩ | ⟨k, request, f, rfl, hk, rfl⟩
          · exact absurd ⟨_, rfl⟩ ha
          · exact hr k request f rfl hk hs
        rw [hq]
        constructor
        · rcases hmem with hm | ⟨y, hy, hm⟩ | hm
          · exact Or.inl hm
          · exact Or.inr (Or.inl ⟨y, List.mem_append_left _ hy, hm⟩)
          · exact Or.inr (Or.inr hm)
        · rintro m (hm | ⟨y, hy, rfl⟩ | hm)
          · exact hle (Or.inl hm)
          · rcases List.mem_append.1 hy with hy | hy
            · exact hle (Or.inr (Or.inl ⟨y, hy, rfl⟩))
            · rw [List.mem_singleton.1 hy]
              omega
          · exact hle (Or.inr (Or.inr hm))
  · have hs : n.headService = false := by simpa using hs
    obtain ⟨hadd, hpush⟩ := h.quiet hs
    by_cases ha : ∃ b, a = .write b
    · obtain ⟨b, rfl⟩ := ha
      have hsame : n.act (.write b) = n := by simp [Node.act, hd, writeAct_quiet hs hadd hpush]
      rwa [hsame]
    · obtain ⟨h1, h2, h3⟩ := intake_counters (act_intake n a fun b hb => ha ⟨b, hb⟩)
      exact ⟨h.kept.act a, by rw [hstate, hhead]; exact h.role, by rw [hstate, hhead]; exact h.fresh,
        by rw [h2, h3]; exact fun _ => h.quiet hs, by rw [h1]; exact fun _ => h.base hs, by simp [hhead, hs]⟩

theorem Counting.wire (h : Counting v n) (w : Wire) : Counting v (n.wire w) := by
  have hconf := wire_conf n w
  have hstate : (n.wire w).state = n.state := congrArg Conf.state hconf
  have hhead : (n.wire w).headService = n.headService := congrArg Conf.headService hconf
  obtain ⟨h1, h2, h3⟩ := intake_counters (wire_intake n w)
  exact ⟨h.kept.wire w, by rw [hstate, hhead]; exact h.role, by rw [hstate, hhead]; exact h.fresh,
    by rw [hhead, h2, h3]; exact h.quiet, by rw [hhead, h1]; exact h.base,
    by rw [hhead, h1, h3, (wire_queued n w).1]; exact h.top⟩

/-- **The head service is launched**: nothing that was queued has reached `currentSeq`. -/
theorem Counting.launch (h : Counting v n) (hkept : Kept n')
    (hrole : n'.state = .head ∨ n'.state = .single → n'.headService = true)
    (hfresh : n'.state = .initializing → n'.headService = false) (hmono : n.headService = true → n'.headService = true)
    (hsame : n'.currentSeq = n.currentSeq ∧ n'.adding = n.adding ∧ n'.pushing = n.pushing ∧ n'.queued = n.queued)
    (hlaunch : n.headService = false → n'.headService = true → n.Unreached) : Counting v n' := by
  obtain ⟨h1, h2, h3, h4⟩ := hsame
  have hfalse : n'.headService = false → n.headService = false := fun hs => by
    by_contra hne
    rw [hmono (by simpa using hne)] at hs
    cases hs
  refine ⟨hkept, hrole, hfresh, fun hs => by rw [h2, h3]; exact h.quiet (hfalse hs),
    fun hs => by rw [h1]; exact h.base (hfalse hs), fun hs => ?_⟩
  rw [h1, h3, h4]
  by_cases hold : n.headService = true
  · exact h.top hold
  · have hold : n.headService = false := by simpa using hold
    obtain ⟨hmem, hle⟩ := h.base hold
    refine ⟨Or.inl hmem, ?_⟩
    rintro m (hm | ⟨x, hx, rfl⟩ | ⟨x, hx, -⟩)
    · exact hle hm
    · have := hlaunch hold hs x hx
      omega
    · rw [(h.quiet hold).2] at hx
      cases hx

theorem Counting.crash (h : Counting v n) : Counting v { n with rwb := .dead } :=
  ⟨h.kept.crash, h.role, h.fresh, h.quiet, h.base, h.top⟩

theorem changeMode_same (n : Node) (new : State) (prev next : Option ℕ) :
    (n.changeMode new prev next).path = n.path ∧ (n.changeMode new prev next).queued = n.queued ∧
      (n.changeMode new prev next).lastCommitted = n.lastCommitted ∧ (n.changeMode new prev next).state = new ∧
      ∃ l, (n.changeMode new prev next).acks = n.acks ++ l := by
  unfold Node.changeMode
  dsimp only
  split
  · rename_i hnew
    exact ⟨rfl, rfl, rfl, hnew.symm, [], (List.append_nil _).symm⟩
  · cases new with
    | single | tail =>
      dsimp only
      split
      · exact ⟨rfl, rfl, rfl, rfl, [], (List.append_nil _).symm⟩
      · exact ⟨rfl, rfl, rfl, rfl, _, rfl⟩
    | _ => exact ⟨rfl, rfl, rfl, rfl, [], (List.append_nil _).symm⟩

/-- at most, a background thread is launched -/
theorem changeMode_commits (n : Node) (new : State) (prev next : Option ℕ) :
    (n.changeMode new prev next).commits = n.commits ∨
      (n.changeMode new prev next).commits = ({ n with acks := n.acks ++ [⟨true, 0, .start⟩] } : Node).commits := by
  unfold Node.changeMode
  dsimp only
  split
  · exact Or.inl rfl
  · cases new with
    | single | tail =>
      dsimp only
      split
      · exact Or.inl rfl
      · exact Or.inr rfl
    | _ => exact Or.inl rfl

/-- the head service is never shut down, and heads and single servers run it -/
theorem changeMode_headService (n : Node) (new : State) (prev next : Option ℕ)
    (hrole : n.state = .head ∨ n.state = .single → n.headService = true) :
    (n.headService = true → (n.changeMode new prev next).headService = true) ∧
      (new = .head ∨ new = .single → (n.changeMode new prev next).headService = true) := by
  unfold Node.changeMode
  dsimp only
  split
  · rename_i hnew
    exact ⟨id, fun h => hrole (hnew ▸ h)⟩
  · cases new with
    | single =>
      have hh : (n.headService || n.state != .head) = true := by
        by_cases hs : n.state = .head
        · simp [hrole (Or.inl hs)]
        · simp [hs]
      dsimp only
      split
      all_goals exact ⟨fun _ => hh, fun _ => hh⟩
    | head =>
      have hh : (n.headService || n.state != .single) = true := by
        by_cases hs : n.state = .single
        · simp [hrole (Or.inr hs)]
        · simp [hs]
      exact ⟨fun _ => hh, fun _ => hh⟩
    | tail =>
      dsimp only
      split
      all_goals exact ⟨id, by simp⟩
    | _ => exact ⟨id, by simp⟩

theorem Counting.changeMode (h : Counting v n) (new : State) (prev next : Option ℕ) (hnew : new ≠ .initializing)
    (hc : n.headService = false → (n.changeMode new prev next).headService = true → n.Unreached) :
    Counting v (n.changeMode new prev next) := by
  obtain ⟨hpath, hq, -, hstate, -⟩ := changeMode_same n new prev next
  obtain ⟨hmono, hhead⟩ := changeMode_headService n new prev next h.role
  have hkept := h.kept.congr (congrArg Path.pendingQueue hpath) (congrArg Path.rwb hpath) (congrArg Path.written hpath) hq
  refine h.launch hkept
    (fun hs => hhead (hstate ▸ hs)) (fun hs => absurd (hstate.symm.trans hs) hnew) hmono
    ⟨congrArg Path.currentSeq hpath, congrArg Path.adding hpath, congrArg Path.pushing hpath, hq⟩ hc

theorem Counting.registered (h : Counting v n) (prev : Option ℕ) (hc : prev = none → n.Unreached) :
    Counting v (n.registered prev) := by
  refine h.launch (h.kept.congr rfl rfl rfl rfl) ?_ ?_ ?_ ⟨rfl, rfl, rfl, rfl⟩ ?_
  all_goals cases prev <;> simp_all [Node.registered]

/-- `maxseq` is the largest of the volume's number and the restored ones -/
theorem maxseq_isGreatest (l : List (ℤ × Int64)) (m : ℤ) :
    IsGreatest {k | k ∈ m :: l.map Prod.fst} (l.foldl (fun m x => if x.1 > m then x.1 else m) m) := by
  induction l generalizing m with
  | nil => simp [IsGreatest, upperBounds]
  | cons x l ih =>
    obtain ⟨hmem, hle⟩ := ih (if x.1 > m then x.1 else m)
    have hmax : m ≤ (if x.1 > m then x.1 else m) ∧ x.1 ≤ (if x.1 > m then x.1 else m) := by split <;> omega
    have htop : (if x.1 > m then x.1 else m) ≤ List.foldl (fun m x => if x.1 > m then x.1 else m) m (x :: l) :=
      hle List.mem_cons_self
    constructor
    · rcases List.mem_cons.1 hmem with hm | hm
      · change List.foldl _ _ l ∈ m :: x.1 :: l.map Prod.fst
        rw [hm]
        split <;> simp
      · exact List.mem_cons_of_mem _ (List.mem_cons_of_mem _ hm)
    · intro k hk
      rcases List.mem_cons.1 hk with rfl | hk
      · exact hmax.1.trans htop
      · rcases List.mem_cons.1 hk with rfl | hk
        · exact hmax.2.trans htop
        · exact hle (List.mem_cons_of_mem _ hk)

theorem Counting.restore (h : Counting v n) (hs : n.headService = false) (hv : v = [n.lastCommitted])
    (entries : List (ℤ × Int64)) : Counting (v ++ entries.map Prod.fst) (n.restore entries) := by
  refine ⟨h.kept.congr rfl rfl rfl rfl, h.role, h.fresh, h.quiet, fun _ => ?_, fun ht => ?_⟩
  · rw [hv]
    simpa [Node.restore] using maxseq_isGreatest entries n.lastCommitted
  · simp [Node.restore, hs] at ht

end Counting

/-! ## The cluster -/

/-- a node that nobody has called has in its volume what `get_sequence_number` returns -/
def Newborn (v : List ℤ) (n : Node) : Prop := n.acks = [] → v = [n.lastCommitted]

theorem Newborn.act {v : List ℤ} {n : Node} (h : Newborn v n) (a : Act) : Newborn v (n.act a) := by
  have hsame : (n.act a).acks = [] → n.acks = [] ∧ (n.act a).lastCommitted = n.lastCommitted := by
    unfold Node.act
    split
    · exact fun ha => ⟨ha, rfl⟩
    cases a with
    | write a =>
      cases a <;> simp only [Node.writeAct] <;> repeat' split
      all_goals exact fun ha => ⟨ha, rfl⟩
    | relay k a =>
      cases a <;> simp only [Node.relayAct] <;> repeat' split
      all_goals exact fun ha => ⟨ha, rfl⟩
    | rwb a =>
      cases a <;> simp only [Node.rwbAct] <;> repeat' split
      all_goals exact fun ha => ⟨ha, rfl⟩
    | ack k a =>
      intro ha
      by_cases hn : n.acks = []
      · exact ⟨hn, by simp [Node.ackAct, hn]⟩
      · exfalso
        apply hn
        have hlen : (n.ackAct k a).acks.length = n.acks.length := by
          simp only [Node.ackAct, Node.ackStart, Node.ackPop, Node.setAck]
          repeat' split
          all_goals simp
        simp only at ha
        rw [ha] at hlen
        exact List.length_eq_zero_iff.1 hlen.symm
    | ackLogEntry r => exact fun ha => ⟨ha, rfl⟩
  intro ha
  obtain ⟨h1, h2⟩ := hsame ha
  rw [h2]
  exact h h1

theorem Newborn.wire {v : List ℤ} {n : Node} (h : Newborn v n) (w : Wire) : Newborn v (n.wire w) := by
  have hlast : (n.wire w).lastCommitted = n.lastCommitted := by
    cases w <;> simp only [Node.wire] <;> repeat' split
    all_goals rfl
  intro ha
  rw [hlast]
  apply h
  cases w with
  | ackArrives seq => simp [Node.wire] at ha
  | relayArrives q => exact ha
  | relaySent _ _ | relayOk | ackSent _ _ _ | ackOk _ =>
    simp only [Node.wire] at ha
    split at ha
    all_goals first
      | exact ha
      | simpa [Node.setAck] using ha

/-- a step that changes one node -/
theorem Cluster.set_nodes {P : ℕ → Node → Prop} {c : Cluster} (h : ∀ j, P j (c.nodes j)) {i : ℕ} {n : Node}
    (hn : P i n) (j : ℕ) : P j ((c.set i n).nodes j) := by
  by_cases hj : j = i
  · subst hj
    simpa [Cluster.set] using hn
  · simpa [Cluster.set, hj] using h j

/-- **Invariant rule for the nodes of a cluster.** Only a step of the chain and a resend depend on other nodes. -/
theorem Cluster.step_nodes (P : Node → Prop) (c : Cluster) (e : ClusterEvent) (h : ∀ i, P (c.nodes i))
    (hnode : ∀ e', e = .node e' → ∀ j, P (Chain.step c.nodes e' j)) (hcrash : ∀ n, P n → P { n with rwb := .dead })
    (hrestore : ∀ i entries, (c.nodes i).acks = [] → i ∉ c.restored → P ((c.nodes i).restore entries))
    (hlog : ∀ n log, P n → P { n with replayLog := log })
    (hmode : ∀ n new prev next, P n → P (n.changeMode new prev next))
    (hregistered : ∀ n prev, P n → P (n.registered prev))
    (hresend : ∀ i x, x ∈ (c.nodes i).sentList → ∀ n data reqId, P n →
      P (n.wire (.relayArrives ⟨data, x.2.volumeOffset.toUInt64, x.1, reqId⟩))) (j : ℕ) : P ((c.step e).nodes j) := by
  have hset : ∀ i n, P n → P ((c.set i n).nodes j) := fun i n hn =>
    Cluster.set_nodes (P := fun _ => P) h hn j
  cases e with
  | node e => exact hnode e rfl j
  | crash i => exact hset i _ (hcrash _ (h i))
  | restore i entries =>
    simp only [Cluster.step]
    split
    · rename_i hi
      exact hset i _ (hrestore i entries (List.length_eq_zero_iff.1 hi.2.1) hi.2.2.1)
    · exact h j
  | updateReplayLog i log =>
    simp only [Cluster.step]
    split
    · exact h j
    · exact hset i _ (hlog _ log (h i))
  | changeMode i new prev next =>
    simp only [Cluster.step]
    split
    · exact h j
    · exact hset i _ (hmode _ new prev next (h i))
  | registered i prev =>
    simp only [Cluster.step]
    split
    · exact h j
    · exact hset i _ (hregistered _ prev (h i))
  | resend i x data reqId =>
    simp only [Cluster.step]
    split
    · exact h j
    · rename_i m _
      split
      · exact h j
      · rename_i hc
        push Not at hc
        exact hset m _ (hresend i x hc.2.2 _ data reqId (h m))

/-- what `Restore` starts from is what the node had in its volume when it started -/
theorem newborn_step {v : ℕ → List ℤ} {c : Cluster} (h : ∀ i, i ∉ c.restored → Newborn (v i) (c.nodes i))
    (e : ClusterEvent) (i : ℕ) (hr : i ∉ (c.step e).restored) : Newborn (v i) ((c.step e).nodes i) := by
  have hset : ∀ j n, i ∉ c.restored → (Newborn (v j) (c.nodes j) → Newborn (v j) n) →
      Newborn (v i) ((c.set j n).nodes i) := by
    intro j n hi hn
    by_cases hj : i = j
    · subst hj
      simpa [Cluster.set] using hn (h i hi)
    · simpa [Cluster.set, hj] using h i hi
  cases e with
  | node e => exact step_node_inv (Newborn (v i)) c.nodes e i (h i hr) (fun a _ => (h i hr).act a) fun _ w hn => hn.wire w
  | crash j => exact hset j _ hr id
  | restore j entries =>
    simp only [Cluster.step] at hr ⊢
    split
    · rename_i hj
      rw [if_pos hj] at hr
      obtain ⟨hij, hir⟩ : i ≠ j ∧ i ∉ c.restored := by simpa using hr
      simpa [hij] using h i hir
    · rename_i hj
      rw [if_neg hj] at hr
      exact h i hr
  | updateReplayLog j log =>
    simp only [Cluster.step] at hr ⊢
    split_ifs at hr ⊢
    · exact h i hr
    · exact hset j _ hr id
  | changeMode j new prev next =>
    simp only [Cluster.step] at hr ⊢
    split_ifs at hr ⊢
    · exact h i hr
    · refine hset j _ hr fun hb ha => ?_
      obtain ⟨-, -, hlast, -, l, hl⟩ := changeMode_same (c.nodes j) new prev next
      rw [hlast]
      rw [hl] at ha
      exact hb (List.append_eq_nil_iff.1 ha).1
  | registered j prev =>
    simp only [Cluster.step] at hr ⊢
    split_ifs at hr ⊢
    · exact h i hr
    · exact hset j _ hr fun _ ha => by simp [Node.registered] at ha
  | resend j x data reqId =>
    have hres : (c.step (.resend j x data reqId)).restored = c.restored := by
      simp only [Cluster.step]
      repeat' split
      all_goals rfl
    rw [hres] at hr
    simp only [Cluster.step]
    split
    · exact h i hr
    · rename_i m _
      split
      · exact h i hr
      · exact hset m _ hr fun hb => hb.wire _

structure ClusterInv (c : Cluster) : Prop where
  counting : ∀ i, Counting (c.volume i) (c.nodes i)
  newborn : ∀ i, i ∉ c.restored → Newborn (c.volume i) (c.nodes i)

section ClusterInv

variable {c : Cluster}

theorem ClusterInv.node (h : ClusterInv c) (e : Event) (hc : PromotedUnreached c (.node e)) (i : ℕ) :
    Counting (c.volume i) (Chain.step c.nodes e i) := by
  refine step_node_inv (Counting (c.volume i)) c.nodes e i (h.counting i) (fun a ha => ?_) fun _ w hn => hn.wire w
  refine (h.counting i).act a (fun k x hk hx => ?_) fun k request f hk hx hs => ?_
  · subst ha hk
    rw [← Option.ne_none_iff_isSome, Ne, PendingQueue.pushEntry_eq_none]
    rintro ⟨y, hy, hyx⟩
    exact hc x (by simp [Nodes.pushes, hx]) y hy hyx
  · subst ha hk
    exact hc hs request.entry (by simp [Nodes.pushes, hx])

/-- only `Restore` adds to what a volume had in it -/
theorem step_volume (c : Cluster) (e : ClusterEvent) {i : ℕ} (hr : i ∉ (c.step e).restored) :
    (c.step e).volume i = c.volume i := by
  cases e with
  | restore j entries =>
    simp only [Cluster.step] at hr ⊢
    split
    · rename_i hj
      rw [if_pos hj] at hr
      have hij : i ≠ j := fun h => hr (h ▸ List.mem_cons_self)
      simp [hij]
    · rfl
  | _ =>
    simp only [Cluster.step]
    repeat' split
    all_goals rfl

theorem step_counting (e : ClusterEvent) (h : ClusterInv c) (hc : PromotedUnreached c e) (j : ℕ) :
    Counting ((c.step e).volume j) ((c.step e).nodes j) := by
  have hset : ∀ i n, Counting (c.volume i) n → Counting (c.volume j) ((c.set i n).nodes j) := fun i n hn =>
    Cluster.set_nodes (P := fun i => Counting (c.volume i)) h.counting hn j
  cases e with
  | node e => exact h.node e hc j
  | crash i => exact hset i _ (h.counting i).crash
  | restore i entries =>
    simp only [Cluster.step]
    split
    · rename_i hi
      obtain ⟨hstate, hacks, hr, -⟩ := hi
      have hv := h.newborn i hr (List.length_eq_zero_iff.1 hacks)
      have hn := (h.counting i).restore ((h.counting i).fresh hstate) hv entries
      by_cases hj : j = i
      · subst hj
        simpa using hn
      · simpa [hj] using h.counting j
    · exact h.counting j
  | updateReplayLog i log =>
    simp only [Cluster.step]
    split
    · exact h.counting j
    · have hi := h.counting i
      exact hset i _ ⟨hi.kept.congr rfl rfl rfl rfl, hi.role, hi.fresh, hi.quiet, hi.base, hi.top⟩
  | changeMode i new prev next =>
    simp only [Cluster.step]
    split
    · exact h.counting j
    · rename_i hi
      exact hset i _ ((h.counting i).changeMode new prev next (fun hn => hi (Or.inr hn)) hc)
  | registered i prev =>
    simp only [Cluster.step]
    split
    · exact h.counting j
    · refine hset i _ ((h.counting i).registered prev fun hp => ?_)
      subst hp
      exact hc
  | resend i x data reqId =>
    simp only [Cluster.step]
    split
    · exact h.counting j
    · rename_i m _
      split
      · exact h.counting j
      · exact hset m _ ((h.counting m).wire _)

theorem step_clusterInv (e : ClusterEvent) (h : ClusterInv c) (hc : PromotedUnreached c e) : ClusterInv (c.step e) := by
  refine ⟨step_counting e h hc, fun i hr => ?_⟩
  rw [step_volume c e hr]
  exact newborn_step h.newborn e i hr

theorem clusterInv_start (own : ℕ → ℤ) : ClusterInv (Cluster.start own) := by
  refine ⟨fun i => ⟨⟨?_, ?_, ?_, ?_, ?_⟩, ?_, ?_, ?_, ?_, ?_⟩, fun i _ _ => ?_⟩
  all_goals simp [Cluster.start, Node.idle, Rwb.held, IsGreatest, upperBounds]

end ClusterInv

/-- **Numbering.** After every run of joins, writes, commits and failures in which a node launches its head service
only when no queued number has reached its `currentSeq`, and queues no such number by `RelayWrite` afterwards: on
every head and every single server that has no `Write` between number and queue, `currentSeq` is one more than the
largest number in its volume, queue or hand. -/
theorem numbering_is_next (own : ℕ → ℤ) (es : List ClusterEvent)
    (h : Meets Cluster.step PromotedUnreached (Cluster.start own) es) :
    NumberingIsNext (run Cluster.step (Cluster.start own) es) := by
  have hinv := run_inv_of_meets Cluster.step PromotedUnreached ClusterInv (fun c e hc hp => step_clusterInv e hc hp) _ es
    (clusterInv_start own) h
  intro i hd hrole hpush
  have hi := hinv.counting i
  have hset : ∀ k, k ∈ (run Cluster.step (Cluster.start own) es).numbers i ↔
      k ∈ (run Cluster.step (Cluster.start own) es).volume i ∨
        (∃ x ∈ ((run Cluster.step (Cluster.start own) es).nodes i).queued, x.seqNum = k) ∨
        ∃ x ∈ ((run Cluster.step (Cluster.start own) es).nodes i).pushing, x.seqNum = k := by
    intro k
    rw [Cluster.numbers, List.mem_append, hi.kept.mem_holds_iff hd, hpush]
    simp
  simp only [hset]
  exact hi.top (hi.role hrole)

/-- node 0 is a single server, and node 1 joins behind it -/
def joinBehind (entries : List (ℤ × Int64)) : List ClusterEvent :=
  [.restore 1 entries, .updateReplayLog 1 ReplayLog.empty, .changeMode 0 .head none (some 1), .registered 1 (some 0)]

/-- the head fails, and the tail becomes a single server -/
def headFails : List ClusterEvent := [.crash 0, .changeMode 1 .single none none]

/-- node 1 writes the entry that it has queued -/
def tailWrites : List Event := [.act 1 (.rwb .poll), .act 1 (.rwb .spin), .act 1 (.rwb .pop), .act 1 (.rwb .leave),
  .act 1 (.rwb .write), .act 1 (.rwb .bump), .act 1 (.rwb .send)]

/-- number 1 is committed before the join, so the new node goes on with number 2 -/
theorem numbering_is_next_restored :
    NumberingIsNext (run Cluster.step (Cluster.start fun _ => 0) (.registered 0 none ::
      (writeCall (requestAt 1) ++ writeAndCommit).map .node ++ joinBehind [(1, 0)] ++ headFails)) :=
  numbering_is_next (fun _ => 0) _ (by decide +kernel)

/-- **A number is handed out twice.** Number 1 is relayed to the tail and written there; when the head fails, the tail's
`currentSeq` is still 1. -/
theorem promoted_reuses_number :
    ¬ NumberingIsNext (run Cluster.step (Cluster.start fun _ => 0) (.registered 0 none :: joinBehind [] ++
      (writeCall (requestAt 1) ++ relayDown 0 ++ tailWrites).map .node ++ headFails)) := by
  intro h
  have hle := (h 1 (by decide +kernel) (by decide +kernel) (by decide +kernel)).2
  have hone : (1 : ℤ) ∈ (run Cluster.step (Cluster.start fun _ => 0) (.registered 0 none :: joinBehind [] ++
      (writeCall (requestAt 1) ++ relayDown 0 ++ tailWrites).map .node ++ headFails)).numbers 1 := by decide +kernel
  exact absurd (hle hone) (by decide +kernel)

end ChainedBlockStorage.Chain
