/-
One node and its volume, with everything around it free: calls arrive and return as they like, roles and links change,
background threads are started in any number.

Two kinds of committers share `commitSeq` without a lock. What keeps them apart is `sentList`: a number that is queued
once is sent once, so it is popped once.

- `writtenOnce_event`, `committedOnce_event`: the invariants of the write side and of the commit side.
- `commits_contiguous`: the numbers passed to `Storage::commit` are start + 1, start + 2, ..., each after the
  `Storage::write` of that number with the same offset, and `commit` finds its uncommitted write.
-/
import ChainedBlockStorage.Chain.CommitPath
import ChainedBlockStorage.Storage.Open

namespace ChainedBlockStorage.Chain

open Run Tables Positions

/-! ## A node in free surroundings -/

inductive NodeEvent where
  /-- a step of a thread -/
  | act (a : Act)
  /-- a call arrives, is sent or returns -/
  | wire (w : Wire)
  /-- role, links and head service change -/
  | configure (c : Conf)
  /-- `launch_tail` -/
  | launchTail

def Node.event (n : Node) : NodeEvent → Node
  | .act a => n.act a
  | .wire w => n.wire w
  | .configure c =>
    { n with state := c.state, upstream := c.upstream, downstream := c.downstream, headService := c.headService }
  | .launchTail => { n with acks := n.acks ++ [⟨true, 0, .start⟩] }

/-- a call of the volume, with the arguments that matter here -/
inductive StorageCall where
  | write (e : Entry)
  | commit (sequenceNumber : ℤ) (volumeOffset : Int64)
deriving DecidableEq

/-- the call of the volume that an event makes -/
def Node.storageCall (n : Node) : NodeEvent → Option StorageCall
  | .act (.rwb .write) =>
    match n.rwb with
    | .write e => some (.write e)
    | _ => none
  | .act (.ack k .commit) =>
    if n.rwb.isDead then none
    else match n.acks[k]? with
      | some ⟨_, seq, .popped e⟩ => some (.commit seq e.volumeOffset)
      | _ => none
  | _ => none

/-- a node with its volume -/
structure Lone where
  node : Node
  vol : Storage.Volume
  /-- the calls of the volume, oldest first -/
  calls : List StorageCall
  /-- `commit` has dereferenced a null pointer -/
  nullDeref : Bool

/-- `junk` and `behind` are what a write of a number finds in memory that is not set -/
def Lone.step (junk : ℤ → ℕ → ℤ) (behind : ℤ → Storage.Buf) (s : Lone) (e : NodeEvent) : Lone :=
  match s.node.storageCall e with
  | none => { s with node := s.node.event e }
  | some (.write x) =>
    let c := Storage.write (junk x.seqNum) (x.data.buffer (behind x.seqNum)) x.volumeOffset.toInt x.seqNum s.vol
    { s with node := s.node.event e, vol := c.vol, calls := s.calls ++ [.write x] }
  | some (.commit seq off) =>
    match Storage.commit seq off.toInt s.vol with
    | none => { s with node := s.node.event e, calls := s.calls ++ [.commit seq off], nullDeref := true }
    | some c => { s with node := s.node.event e, vol := c.vol, calls := s.calls ++ [.commit seq off] }

/-- a node whose counters stand at `start`, in some role, on any volume -/
def Lone.start (c : Conf) (start : ℕ) (log : ReplayLog) (vol : Storage.Volume) : Lone where
  node := Node.idle c.state c.upstream c.downstream c.headService start log []
  vol := vol
  calls := []
  nullDeref := false

/-! ## The write side -/

/-- popped and not yet written -/
def Rwb.unwritten : Rwb → Option Entry
  | .relay e => some e
  | .calling e _ _ => some e
  | .write e => some e
  | _ => none

/-- written and not yet sent -/
def Rwb.unsent : Rwb → Option Entry
  | .bump e => some e
  | .send e => some e
  | _ => none

/-- the numbers that have been queued -/
def Node.queuedNums (n : Node) : List ℤ := n.queued.map Entry.seqNum

/-- a number is in the queue, in hand or written, and in one of these once -/
structure WrittenOnce (n : Node) : Prop where
  queue : ∀ x ∈ n.pendingQueue, x.seqNum ∈ n.queuedNums ∧ ∀ w ∈ n.written, w.seqNum ≠ x.seqNum
  hand : ∀ e, n.rwb.unwritten = some e → e.seqNum ∈ n.queuedNums ∧ (∀ w ∈ n.written, w.seqNum ≠ e.seqNum) ∧
    ∀ x ∈ n.pendingQueue, x.seqNum ≠ e.seqNum
  written : ∀ w ∈ n.written, w.seqNum ∈ n.queuedNums
  nodup : (n.written.map Entry.seqNum).Nodup
  unsent : ∀ e, n.rwb.unsent = some e → ∃ l, n.written = l ++ [e]

/-- the same queue and writes, and no new entry in hand -/
theorem WrittenOnce.of_eq {n n' : Node} (h : WrittenOnce n) (h1 : n'.queued = n.queued)
    (h2 : n'.pendingQueue = n.pendingQueue) (h3 : n'.written = n.written)
    (h4 : ∀ e, n'.rwb.unwritten = some e → n.rwb.unwritten = some e)
    (h5 : ∀ e, n'.rwb.unsent = some e → n.rwb.unsent = some e) : WrittenOnce n' where
  queue := by rw [h2, h3, Node.queuedNums, h1]; exact h.queue
  hand := by rw [h2, h3, Node.queuedNums, h1]; exact fun e he => h.hand e (h4 e he)
  written := by rw [h3, Node.queuedNums, h1]; exact h.written
  nodup := by rw [h3]; exact h.nodup
  unsent := by rw [h3]; exact fun e he => h.unsent e (h5 e he)

/-- a push of a number that is queued for the first time -/
theorem WrittenOnce.push {n : Node} (h : WrittenOnce n) {x : Entry} {q : PendingQueue}
    (hq : n.pendingQueue.pushEntry x = some q) (hx : x.seqNum ∉ n.queuedNums) {n' : Node}
    (h1 : n'.queued = n.queued ++ [x]) (h2 : n'.pendingQueue = q) (h3 : n'.written = n.written) (h4 : n'.rwb = n.rwb) :
    WrittenOnce n' := by
  have hmem := (PendingQueue.pushEntry_eq_some hq).1
  have hnums : n'.queuedNums = n.queuedNums ++ [x.seqNum] := by simp [Node.queuedNums, h1]
  have hnew : ∀ y, y ∈ n.queuedNums → y ≠ x.seqNum := by
    rintro y hy rfl
    exact hx hy
  refine ⟨?_, ?_, ?_, by rw [h3]; exact h.nodup, by rw [h3, h4]; exact h.unsent⟩
  · rw [h2, h3, hnums]
    intro y hy
    rcases (hmem y).1 hy with hy | rfl
    · exact ⟨List.mem_append_left _ (h.queue y hy).1, (h.queue y hy).2⟩
    · exact ⟨by simp, fun w hw => hnew _ (h.written w hw)⟩
  · rw [h2, h3, h4, hnums]
    intro e he
    obtain ⟨he1, he2, he3⟩ := h.hand e he
    refine ⟨List.mem_append_left _ he1, he2, ?_⟩
    intro y hy
    rcases (hmem y).1 hy with hy | rfl
    · exact he3 y hy
    · exact Ne.symm (hnew _ he1)
  · rw [h3, hnums]
    exact fun w hw => List.mem_append_left _ (h.written w hw)

theorem rwbAct_queued (n : Node) (a : RwbAct) : (n.rwbAct a).queued = n.queued := by
  cases a <;> simp only [Node.rwbAct] <;> repeat' split
  all_goals rfl

theorem rwbAct_writtenOnce (n : Node) (a : RwbAct) (h : WrittenOnce n) : WrittenOnce (n.rwbAct a) := by
  cases a with
  | poll | spin | leave | retry | bump | send =>
    simp only [Node.rwbAct]
    repeat' split
    all_goals refine h.of_eq rfl rfl rfl ?_ ?_ <;> intro e he <;> simp_all [Rwb.unwritten, Rwb.unsent]
  | pop =>
    simp only [Node.rwbAct]
    split
    · rename_i e q hr hp
      obtain ⟨he, -, hmem⟩ := PendingQueue.popEntry_eq_some hp
      obtain ⟨he1, he2⟩ := h.queue e he
      refine ⟨fun x hx => h.queue x ((hmem x).1 hx).1, ?_, h.written, h.nodup, by simp [Rwb.unsent]⟩
      intro d hd
      obtain rfl : e = d := by simpa [Rwb.unwritten] using hd
      exact ⟨he1, he2, fun x hx => ((hmem x).1 hx).2⟩
    · exact h
  | write =>
    simp only [Node.rwbAct]
    split
    · rename_i e hr
      obtain ⟨he1, he2, he3⟩ := h.hand e (by rw [hr]; rfl)
      simp only [ofString_val]
      refine ⟨?_, by simp [Rwb.unwritten], ?_, ?_, ?_⟩
      · intro x hx
        refine ⟨(h.queue x hx).1, ?_⟩
        intro w hw
        rcases List.mem_append.1 hw with hw | hw
        · exact (h.queue x hx).2 w hw
        · rw [List.mem_singleton.1 hw]
          exact Ne.symm (he3 x hx)
      · intro w hw
        rcases List.mem_append.1 hw with hw | hw
        · exact h.written w hw
        · rw [List.mem_singleton.1 hw]
          exact he1
      · rw [List.map_append, List.map_singleton]
        refine List.nodup_append.2 ⟨h.nodup, List.nodup_singleton _, ?_⟩
        rintro a ha b hb rfl
        obtain ⟨w, hw, rfl⟩ := List.mem_map.1 ha
        exact he2 w hw (List.mem_singleton.1 hb)
      · intro d hd
        obtain rfl : e = d := by simpa [Rwb.unsent] using hd
        exact ⟨_, rfl⟩
    · exact h

/-- a number is queued at most once -/
def Node.QueuedOnce (n : Node) : Prop := n.queuedNums.Nodup ∧ ∀ x ∈ n.queued, 0 ≤ x.seqNum ∧ x.seqNum < 2 ^ 31

theorem wire_queued_eq (n : Node) (w : Wire) : (n.wire w).queued = n.queued := by
  cases w <;> simp only [Node.wire] <;> repeat' split
  all_goals rfl

theorem wire_writtenOnce (n : Node) (w : Wire) (h : WrittenOnce n) : WrittenOnce (n.wire w) := by
  cases w with
  | relaySent j k | relayOk =>
    simp only [Node.wire]
    split
    · refine h.of_eq rfl rfl rfl ?_ ?_ <;> intro e he <;> simp_all [Rwb.unwritten, Rwb.unsent]
    · exact h
  | relayArrives _ | ackSent _ _ _ | ackArrives _ | ackOk _ =>
    simp only [Node.wire]
    repeat' split
    all_goals exact h.of_eq rfl rfl rfl (fun _ he => he) (fun _ he => he)

/-- a handler leaves the queue alone or pushes one entry -/
theorem act_push (n : Node) (a : Act) (ha : ∀ b, a ≠ .rwb b) :
    (n.act a).queued = n.queued ∧ (n.act a).pendingQueue = n.pendingQueue ∨
      ∃ x, (n.act a).queued = n.queued ++ [x] ∧ n.pendingQueue.pushEntry x = some (n.act a).pendingQueue := by
  unfold Node.act
  split
  · exact Or.inl ⟨rfl, rfl⟩
  cases a with
  | write a =>
    cases a with
    | pushEntry k =>
      simp only [Node.writeAct]
      split
      · exact Or.inl ⟨rfl, rfl⟩
      · rename_i x hk
        split
        · exact Or.inl ⟨rfl, rfl⟩
        · rename_i q hq
          exact Or.inr ⟨x, rfl, hq⟩
    | addToLog q | takeSeq k =>
      left
      simp only [Node.writeAct]
      repeat' split
      all_goals exact ⟨rfl, rfl⟩
  | relay k a =>
    cases a with
    | pushEntry =>
      simp only [Node.relayAct]
      split
      · rename_i q f hk
        split
        · exact Or.inl ⟨rfl, rfl⟩
        · rename_i l hl
          exact Or.inr ⟨_, rfl, hl⟩
      · exact Or.inl ⟨rfl, rfl⟩
    | addToLog | drop =>
      left
      simp only [Node.relayAct]
      repeat' split
      all_goals exact ⟨rfl, rfl⟩
  | rwb b => exact absurd rfl (ha b)
  | ack k a =>
    left
    simp only [Node.ackAct, Node.ackStart, Node.ackPop]
    repeat' split
    all_goals exact ⟨rfl, rfl⟩
  | ackLogEntry r => exact Or.inl ⟨rfl, rfl⟩

theorem act_queued_grows (n : Node) (a : Act) : n.queued <+: (n.act a).queued := by
  by_cases ha : ∃ b, a = .rwb b
  · obtain ⟨b, rfl⟩ := ha
    unfold Node.act
    split
    · exact List.prefix_refl _
    · show n.queued <+: (n.rwbAct b).queued
      rw [rwbAct_queued]
  · rcases act_push n a fun b hb => ha ⟨b, hb⟩ with ⟨h, -⟩ | ⟨x, h, -⟩
    · rw [h]
    · rw [h]
      exact List.prefix_append _ _

theorem event_queued_grows (n : Node) (e : NodeEvent) : n.queued <+: (n.event e).queued := by
  cases e with
  | act a => exact act_queued_grows n a
  | wire w => simp only [Node.event, wire_queued_eq, List.prefix_refl]
  | configure c => exact List.prefix_refl _
  | launchTail => exact List.prefix_refl _

theorem act_writtenOnce (n : Node) (a : Act) (h : WrittenOnce n) (hq : (n.act a).queuedNums.Nodup) :
    WrittenOnce (n.act a) := by
  by_cases ha : ∃ b, a = .rwb b
  · obtain ⟨b, rfl⟩ := ha
    unfold Node.act
    split
    · exact h
    · exact rwbAct_writtenOnce n b h
  · have ha' : ∀ b, a ≠ .rwb b := fun b hb => ha ⟨b, hb⟩
    obtain ⟨h1, -, h3⟩ := act_progress n a ha'
    rcases act_push n a ha' with ⟨h0, h2⟩ | ⟨x, h0, hpush⟩
    · exact h.of_eq h0 h2 h3 (by rw [h1]; exact fun _ he => he) (by rw [h1]; exact fun _ he => he)
    · refine h.push hpush ?_ h0 rfl h3 h1
      intro hx
      rw [Node.queuedNums, h0, List.map_append, List.map_singleton] at hq
      exact (List.nodup_append.1 hq).2.2 _ hx _ (List.mem_singleton_self _) rfl

theorem writtenOnce_event (n : Node) (e : NodeEvent) (h : WrittenOnce n) (hq : (n.event e).queuedNums.Nodup) :
    WrittenOnce (n.event e) := by
  cases e with
  | act a => exact act_writtenOnce n a h hq
  | wire w => exact wire_writtenOnce n w h
  | configure c => exact h.of_eq rfl rfl rfl (fun _ he => he) (fun _ he => he)
  | launchTail => exact h.of_eq rfl rfl rfl (fun _ he => he) (fun _ he => he)

/-! ## The commit side -/

/-- what `sentList` has been given -/
def Node.sent (n : Node) : List Entry :=
  match n.rwb.unsent with
  | some _ => n.written.dropLast
  | none => n.written

/-- between `Storage::commit` and the change of `commitSeq` -/
def AckPhase.unbumped : AckPhase → Bool
  | .stored _ | .logged => true
  | _ => false

theorem AckPhase.holds_of_unbumped {p : AckPhase} (h : p.unbumped = true) : p.holds = true := by
  cases p <;> first | rfl | cases h

/-- what is committed or held was sent and is not in the sent list any more, the next number is held by at most one
thread, and `commitSeq` counts the commits -/
structure CommittedOnce (start : ℤ) (n : Node) : Prop where
  sent : ∀ x ∈ n.sentList, ∃ w ∈ n.sent, x = (w.seqNum, sentEntry w)
  done : ∀ c ∈ n.committed, (∃ w ∈ n.sent, c = (w.seqNum, w.volumeOffset)) ∧ ∀ x ∈ n.sentList, x.1 ≠ c.1
  numbers : ∀ (i : ℕ) (c : ℤ × Int64), n.committed[i]? = some c → c.1 = start + 1 + i
  lower : start ≤ n.commitSeq
  ready : ∀ (k : ℕ) (t : AckThread), n.acks[k]? = some t → t.phase.isReady = true →
    start < t.seq ∧ t.seq ≤ n.commitSeq + 1
  held : ∀ (k : ℕ) (t : AckThread), n.acks[k]? = some t → t.phase.holds = true →
    t.seq = n.commitSeq + 1 ∧ (∃ w ∈ n.sent, w.seqNum = t.seq) ∧ ∀ x ∈ n.sentList, x.1 ≠ t.seq
  popped : ∀ (k : ℕ) (t : AckThread) (e : SentListEntry), n.acks[k]? = some t → t.phase = .popped e →
    ∃ w ∈ n.sent, w.seqNum = t.seq ∧ e = sentEntry w
  one : ∀ (k m : ℕ) (t u : AckThread), n.acks[k]? = some t → n.acks[m]? = some u → t.phase.holds = true →
    u.phase.holds = true → k = m
  settled : (∀ t ∈ n.acks, t.phase.unbumped = false) → n.commitSeq = start + n.committed.length
  unbumped : ∀ t ∈ n.acks, t.phase.unbumped = true → n.commitSeq + 1 = start + n.committed.length

section Commits

variable {start : ℤ} {n : Node}

/-- more has been sent, and the threads go nowhere -/
theorem CommittedOnce.of_eq (h : CommittedOnce start n) {n' : Node} (hc : n'.commits = n.commits)
    (hd : n'.committed = n.committed) (hs : ∀ w ∈ n.sent, w ∈ n'.sent) : CommittedOnce start n' := by
  have hcommit : n'.commitSeq = n.commitSeq := congrArg Commits.commitSeq hc
  have hsent : n'.sentList = n.sentList := congrArg Commits.sentList hc
  have hacks : n'.acks = n.acks := congrArg Commits.acks hc
  refine ⟨?_, ?_, by rw [hd]; exact h.numbers, by rw [hcommit]; exact h.lower, ?_, ?_, ?_, ?_, ?_, ?_⟩
  · rw [hsent]
    intro x hx
    obtain ⟨w, hw, hxw⟩ := h.sent x hx
    exact ⟨w, hs w hw, hxw⟩
  · rw [hd, hsent]
    intro c hc
    obtain ⟨⟨w, hw, hcw⟩, hne⟩ := h.done c hc
    exact ⟨⟨w, hs w hw, hcw⟩, hne⟩
  · rw [hacks, hcommit]; exact h.ready
  · rw [hacks, hcommit, hsent]
    intro k t hk hh
    obtain ⟨h1, ⟨w, hw, hwt⟩, h3⟩ := h.held k t hk hh
    exact ⟨h1, ⟨w, hs w hw, hwt⟩, h3⟩
  · rw [hacks]
    intro k t e hk he
    obtain ⟨w, hw, hwt⟩ := h.popped k t e hk he
    exact ⟨w, hs w hw, hwt⟩
  · rw [hacks]; exact h.one
  · rw [hacks, hcommit, hd]; exact h.settled
  · rw [hacks, hcommit, hd]; exact h.unbumped

/-- a new thread has no number yet -/
theorem CommittedOnce.addAck (h : CommittedOnce start n) (u : AckThread) (hu : u.phase = .start) :
    CommittedOnce start { n with acks := n.acks ++ [u] } := by
  have hcase : ∀ (m : ℕ) (v : AckThread), (n.acks ++ [u])[m]? = some v → n.acks[m]? = some v ∨ v = u :=
    fun m v hv => (getElem?_of_concat hv).imp_right And.right
  have hquiet : u.phase.holds = false ∧ u.phase.isReady = false ∧ u.phase.unbumped = false := by
    rw [hu]; exact ⟨rfl, rfl, rfl⟩
  refine ⟨h.sent, h.done, h.numbers, h.lower, ?_, ?_, ?_, ?_, ?_, ?_⟩
  · intro k t hk hr
    rcases hcase k t hk with hk | rfl
    · exact h.ready k t hk hr
    · rw [hquiet.2.1] at hr; cases hr
  · intro k t hk hh
    rcases hcase k t hk with hk | rfl
    · exact h.held k t hk hh
    · rw [hquiet.1] at hh; cases hh
  · intro k t e hk he
    rcases hcase k t hk with hk | rfl
    · exact h.popped k t e hk he
    · rw [hu] at he; cases he
  · intro k m t v hk hm hh hh'
    rcases hcase k t hk with hk | rfl
    · rcases hcase m v hm with hm | rfl
      · exact h.one k m t v hk hm hh hh'
      · rw [hquiet.1] at hh'; cases hh'
    · rw [hquiet.1] at hh; cases hh
  · intro hall
    exact h.settled fun t ht => hall t (List.mem_append_left _ ht)
  · intro t ht hb
    rcases List.mem_append.1 ht with ht | ht
    · exact h.unbumped t ht hb
    · rw [List.mem_singleton.1 ht, hquiet.2.2] at hb; cases hb

/-- a thread moves on without taking or giving back a number -/
theorem CommittedOnce.setAck (h : CommittedOnce start n) {k : ℕ} {t : AckThread} (hk : n.acks[k]? = some t)
    (u : AckThread) (hready : u.phase.isReady = true → start < u.seq ∧ u.seq ≤ n.commitSeq + 1)
    (hheld : u.phase.holds = true → t.phase.holds = true ∧ u.seq = t.seq) (hpopped : ∀ e, u.phase ≠ .popped e)
    (hb : u.phase.unbumped = t.phase.unbumped) : CommittedOnce start (n.setAck k u) := by
  refine ⟨h.sent, h.done, h.numbers, h.lower, ?_, ?_, ?_, ?_, ?_, ?_⟩
  · intro m v hv hr
    rcases getElem?_of_set hv with ⟨rfl, rfl⟩ | ⟨-, hv⟩
    · exact hready hr
    · exact h.ready m v hv hr
  · intro m v hv hh
    rcases getElem?_of_set hv with ⟨rfl, rfl⟩ | ⟨-, hv⟩
    · obtain ⟨ht, hseq⟩ := hheld hh
      rw [hseq]
      exact h.held m t hk ht
    · exact h.held m v hv hh
  · intro m v e hv he
    rcases getElem?_of_set hv with ⟨rfl, rfl⟩ | ⟨-, hv⟩
    · exact absurd he (hpopped e)
    · exact h.popped m v e hv he
  · intro m m' v v' hv hv' hh hh'
    rcases getElem?_of_set hv with ⟨rfl, rfl⟩ | ⟨-, hold⟩
    · rcases getElem?_of_set hv' with ⟨rfl, rfl⟩ | ⟨-, hold'⟩
      · rfl
      · exact h.one _ _ t v' hk hold' (hheld hh).1 hh'
    · rcases getElem?_of_set hv' with ⟨rfl, rfl⟩ | ⟨-, hold'⟩
      · exact h.one _ _ v t hold hk hh (hheld hh').1
      · exact h.one _ _ v v' hold hold' hh hh'
  · intro hall
    apply h.settled
    intro v hv
    rcases mem_set_or_eq hk u hv with hv | rfl
    · exact hall v hv
    · rw [← hb]; exact hall u (mem_set_self hk u)
  · intro v hv hvb
    rcases List.mem_or_eq_of_mem_set hv with hv | rfl
    · exact h.unbumped v hv hvb
    · exact h.unbumped t (List.mem_of_getElem? hk) (hb ▸ hvb)

/-- while nobody is between `Storage::commit` and the change of `commitSeq`, as many numbers are committed -/
theorem CommittedOnce.length_le (h : CommittedOnce start n) :
    n.commitSeq = start + n.committed.length ∨ n.commitSeq + 1 = start + n.committed.length := by
  by_cases hall : ∀ t ∈ n.acks, t.phase.unbumped = false
  · exact Or.inl (h.settled hall)
  · push Not at hall
    obtain ⟨t, ht, hb⟩ := hall
    exact Or.inr (h.unbumped t ht (by simpa using hb))

/-- what is numbered between `start` and `commitSeq` is committed -/
theorem CommittedOnce.committed_of_le (h : CommittedOnce start n) {k : ℤ} (hlo : start < k) (hhi : k ≤ n.commitSeq) :
    ∃ c ∈ n.committed, c.1 = k := by
  have hlen := h.length_le
  have hi : (k - start - 1).toNat < n.committed.length := by omega
  refine ⟨_, List.getElem_mem hi, ?_⟩
  rw [h.numbers _ _ (List.getElem?_eq_getElem hi)]
  omega

/-- the key of a thread that is ready, found in the sent list, is its number -/
theorem toInt_key {x y : ℤ} (hx : 0 ≤ x ∧ x ≤ 2 ^ 31) (hy : 0 ≤ y) (h : toInt x = y) : x = y := by
  rcases eq_or_lt_of_le hx.2 with rfl | hlt
  · rw [show toInt (2 ^ 31) = -2 ^ 31 by decide] at h
    omega
  · rw [toInt_of_lt hx.1 hlt] at h
    exact h

/-- **Taking a number.** What a ready thread finds in the sent list is the next number, and nobody holds it. -/
theorem CommittedOnce.pop (h : CommittedOnce start n) (h0 : 0 ≤ start) (hs : start < 2 ^ 31)
    (hb : ∀ w ∈ n.sent, 0 ≤ w.seqNum ∧ w.seqNum < 2 ^ 31) {k : ℕ} {t : AckThread} (hk : n.acks[k]? = some t)
    (hr : t.phase.isReady = true) {e : SentListEntry} {l : SentList}
    (hp : n.sentList.popEntry (toInt t.seq) = some (e, l)) :
    CommittedOnce start { n.setAck k { t with phase := .popped e } with sentList := l } := by
  obtain ⟨hin, hmem⟩ := SentList.popEntry_eq_some hp
  obtain ⟨hready1, hready2⟩ := h.ready k t hk hr
  obtain ⟨w, hw, hwe⟩ := h.sent _ hin
  obtain ⟨hwseq, rfl⟩ := Prod.mk.inj hwe
  have hlen := h.length_le
  have hcommit : n.commitSeq < 2 ^ 31 := by
    by_cases hpos : start < n.commitSeq
    · obtain ⟨c, hc, hcn⟩ := h.committed_of_le hpos (le_refl _)
      obtain ⟨⟨v, hv, rfl⟩, -⟩ := h.done c hc
      rw [← hcn]
      exact (hb v hv).2
    · omega
  have hkey : t.seq = w.seqNum := toInt_key ⟨by omega, by omega⟩ (hb w hw).1 hwseq
  rw [hwseq] at hin hmem
  have hnext : t.seq = n.commitSeq + 1 := by
    by_contra hne
    obtain ⟨c, hc, hcn⟩ := h.committed_of_le hready1 (show t.seq ≤ n.commitSeq by omega)
    exact (h.done c hc).2 _ hin (by rw [hcn, hkey])
  have hnone : ∀ (m : ℕ) (v : AckThread), n.acks[m]? = some v → v.phase.holds = true → False := by
    intro m v hv hh
    obtain ⟨hv1, -, hv2⟩ := h.held m v hv hh
    exact hv2 _ hin (by rw [hv1, ← hnext, hkey])
  have hsub : ∀ x ∈ l, x ∈ n.sentList := fun x hx => ((hmem x).1 hx).1
  refine ⟨fun x hx => h.sent x (hsub x hx), ?_, h.numbers, h.lower, ?_, ?_, ?_, ?_, ?_, ?_⟩
  · intro c hc
    exact ⟨(h.done c hc).1, fun x hx => (h.done c hc).2 x (hsub x hx)⟩
  · intro m v hv hvr
    rcases getElem?_of_set hv with ⟨rfl, rfl⟩ | ⟨-, hv⟩
    · cases hvr
    · exact h.ready m v hv hvr
  · intro m v hv hh
    rcases getElem?_of_set hv with ⟨rfl, rfl⟩ | ⟨-, hv⟩
    · refine ⟨hnext, ⟨w, hw, hkey.symm⟩, ?_⟩
      intro x hx
      rw [show ({ t with phase := .popped (sentEntry w) } : AckThread).seq = w.seqNum from hkey]
      exact ((hmem x).1 hx).2
    · exact absurd hh fun hh => hnone m v hv hh
  · intro m v d hv hd
    rcases getElem?_of_set hv with ⟨rfl, rfl⟩ | ⟨-, hv⟩
    · cases hd
      exact ⟨w, hw, hkey.symm, rfl⟩
    · exact absurd (show v.phase.holds = true by rw [hd]; rfl) fun hh => hnone m v hv hh
  · intro m m' v v' hv hv' hh hh'
    rcases getElem?_of_set hv with ⟨rfl, rfl⟩ | ⟨-, hv⟩
    · rcases getElem?_of_set hv' with ⟨rfl, rfl⟩ | ⟨-, hv'⟩
      · rfl
      · exact absurd hh' fun hh' => hnone m' v' hv' hh'
    · exact absurd hh fun hh => hnone m v hv hh
  · intro _
    apply h.settled
    intro v hv
    obtain ⟨m, hm⟩ := List.mem_iff_getElem?.1 hv
    by_contra hvb
    exact hnone m v hm (AckPhase.holds_of_unbumped (by simpa using hvb))
  · intro v hv hvb
    rcases List.mem_or_eq_of_mem_set hv with hv | rfl
    · exact h.unbumped v hv hvb
    · cases hvb

/-- the holder of a number is the only one between its pop and the change of `commitSeq` -/
theorem CommittedOnce.none_else (h : CommittedOnce start n) {k : ℕ} {t : AckThread} (hk : n.acks[k]? = some t)
    (hh : t.phase.holds = true) (m : ℕ) (v : AckThread) (hmk : m ≠ k) (hv : n.acks[m]? = some v) :
    v.phase.holds = false := by
  by_contra hc
  exact hmk (h.one m k v t hv hk (by simpa using hc) hh)

/-- **Committing.** The number is the next one after those committed. -/
theorem CommittedOnce.commit (h : CommittedOnce start n) {k : ℕ} {t : AckThread} (hk : n.acks[k]? = some t)
    {e : SentListEntry} (hp : t.phase = .popped e) (last : ℤ) :
    t.seq = start + 1 + n.committed.length ∧
      CommittedOnce start { n.setAck k { t with phase := .stored e } with
        lastCommitted := last, committed := n.committed ++ [(t.seq, e.volumeOffset)] } := by
  have hh : t.phase.holds = true := by rw [hp]; rfl
  obtain ⟨hseq, -, hne⟩ := h.held k t hk hh
  obtain ⟨w, hw, hwt, rfl⟩ := h.popped k t e hk hp
  have helse := h.none_else hk hh
  have hsettled : n.commitSeq = start + n.committed.length := by
    apply h.settled
    intro v hv
    obtain ⟨m, hm⟩ := List.mem_iff_getElem?.1 hv
    by_cases hmk : m = k
    · rw [hmk, hk] at hm
      rw [← Option.some.inj hm, hp]
      rfl
    · by_contra hc
      have hnot := helse m v hmk hm
      rw [AckPhase.holds_of_unbumped (by simpa using hc)] at hnot
      cases hnot
  refine ⟨by omega, h.sent, ?_, ?_, h.lower, ?_, ?_, ?_, ?_, ?_, ?_⟩
  · intro c hc
    rcases List.mem_append.1 hc with hc | hc
    · exact h.done c hc
    · rw [List.mem_singleton.1 hc]
      exact ⟨⟨w, hw, by rw [hwt]; rfl⟩, hne⟩
  · intro i c hc
    rcases getElem?_of_concat hc with hc | ⟨rfl, rfl⟩
    · exact h.numbers i c hc
    · show t.seq = start + 1 + n.committed.length
      omega
  · intro m v hv hvr
    rcases getElem?_of_set hv with ⟨rfl, rfl⟩ | ⟨-, hv⟩
    · cases hvr
    · exact h.ready m v hv hvr
  · intro m v hv hvh
    rcases getElem?_of_set hv with ⟨rfl, rfl⟩ | ⟨-, hv⟩
    · exact h.held m t hk hh
    · exact h.held m v hv hvh
  · intro m v d hv hd
    rcases getElem?_of_set hv with ⟨rfl, rfl⟩ | ⟨-, hv⟩
    · cases hd
    · exact h.popped m v d hv hd
  · intro m m' v v' hv hv' hvh hvh'
    rcases getElem?_of_set hv with ⟨rfl, rfl⟩ | ⟨hmk, hv⟩
    · rcases getElem?_of_set hv' with ⟨rfl, rfl⟩ | ⟨hmk', hv'⟩
      · rfl
      · rw [helse m' v' hmk' hv'] at hvh'; cases hvh'
    · rw [helse m v hmk hv] at hvh; cases hvh
  · intro hall
    have hself := hall _ (mem_set_self hk { t with phase := .stored (sentEntry w) })
    cases hself
  · intro v hv hvb
    show n.commitSeq + 1 = start + ((n.committed ++ [(t.seq, (sentEntry w).volumeOffset)]).length : ℤ)
    rw [List.length_append, List.length_singleton]
    push_cast
    omega

/-- **Moving on.** The holder of a number that is committed changes `commitSeq` to it. -/
theorem CommittedOnce.bump (h : CommittedOnce start n) {k : ℕ} {t : AckThread} (hk : n.acks[k]? = some t)
    (hp : t.phase.unbumped = true) :
    CommittedOnce start { n.setAck k { t with phase := .relaying } with commitSeq := t.seq } := by
  have hh := AckPhase.holds_of_unbumped hp
  obtain ⟨hseq, -, -⟩ := h.held k t hk hh
  have hlen := h.unbumped t (List.mem_of_getElem? hk) hp
  have helse := h.none_else hk hh
  have hlow := h.lower
  refine ⟨h.sent, h.done, h.numbers, by show start ≤ t.seq; omega, ?_, ?_, ?_, ?_, ?_, ?_⟩
  · intro m v hv hvr
    rcases getElem?_of_set hv with ⟨rfl, rfl⟩ | ⟨-, hv⟩
    · cases hvr
    · obtain ⟨h1, h2⟩ := h.ready m v hv hvr
      exact ⟨h1, by show v.seq ≤ t.seq + 1; omega⟩
  · intro m v hv hvh
    rcases getElem?_of_set hv with ⟨rfl, rfl⟩ | ⟨hmk, hv⟩
    · cases hvh
    · rw [helse m v hmk hv] at hvh; cases hvh
  · intro m v d hv hd
    rcases getElem?_of_set hv with ⟨rfl, rfl⟩ | ⟨-, hv⟩
    · cases hd
    · exact h.popped m v d hv hd
  · intro m m' v v' hv hv' hvh hvh'
    rcases getElem?_of_set hv with ⟨rfl, rfl⟩ | ⟨hmk, hv⟩
    · cases hvh
    · rw [helse m v hmk hv] at hvh; cases hvh
  · intro _
    show t.seq = start + n.committed.length
    omega
  · intro v hv hvb
    obtain ⟨m, hm⟩ := List.mem_iff_getElem?.1 hv
    rcases getElem?_of_set hm with ⟨rfl, rfl⟩ | ⟨hmk, hm⟩
    · cases hvb
    · have hnot := helse m v hmk hm
      rw [AckPhase.holds_of_unbumped hvb] at hnot
      cases hnot

theorem ackAct_committedOnce (h : CommittedOnce start n) (h0 : 0 ≤ start) (hs : start < 2 ^ 31)
    (hb : ∀ w ∈ n.sent, 0 ≤ w.seqNum ∧ w.seqNum < 2 ^ 31) (k : ℕ) (a : AckAct) :
    CommittedOnce start (n.ackAct k a) := by
  have hlow := h.lower
  have hstep := ackAct_step n k a
  generalize n.ackAct k a = x at hstep ⊢
  cases hstep with
  | stay => exact h
  | takeUp hk =>
    refine h.setAck hk _ (fun _ => ⟨?_, le_refl _⟩) (by simp [AckPhase.holds]) (by simp) rfl
    show start < n.commitSeq + 1
    omega
  | retire hk => exact h.setAck hk _ (by simp [AckPhase.isReady]) (by simp [AckPhase.holds]) (by simp) rfl
  | @turn q hk hq =>
    refine h.setAck hk _ (fun _ => ⟨?_, le_of_eq hq.symm⟩) (by simp [AckPhase.holds]) (by simp) rfl
    show start < q
    omega
  | @refuse b _ hk | @leave b _ hk =>
    apply h.setAck hk _
    all_goals cases b <;> simp [AckPhase.isReady, AckPhase.holds, AckPhase.unbumped]
  | pop hk hsome => exact h.pop h0 hs hb hk rfl hsome
  | @commit b q e hk => exact (h.commit hk rfl q).2
  | @log b q e hk =>
    have hset := h.setAck hk ⟨b, q, .logged⟩ (by simp [AckPhase.isReady]) (fun _ => ⟨rfl, rfl⟩) (by simp) rfl
    exact hset.of_eq rfl rfl fun _ hw => hw
  | @bump b q hk =>
    obtain ⟨hseq, ⟨w, hw, hwt⟩, -⟩ := h.held k _ hk rfl
    obtain rfl : w.seqNum = q := hwt
    have hval : (if b then n.commitSeq + 1 else toInt w.seqNum) = w.seqNum := by
      split_ifs
      · exact hseq.symm
      · exact toInt_of_lt (hb w hw).1 (hb w hw).2
    rw [hval]
    exact h.bump hk rfl
  | retry hk => exact h.setAck hk _ (by simp [AckPhase.isReady]) (by simp [AckPhase.holds]) (by simp) rfl

/-- the write thread adds what it has written, whose number is new to the sent list -/
theorem rwbAct_committedOnce (h : CommittedOnce start n) (hw : WrittenOnce n)
    (hb : ∀ w ∈ n.written, 0 ≤ w.seqNum ∧ w.seqNum < 2 ^ 31) (a : RwbAct) : CommittedOnce start (n.rwbAct a) := by
  cases a with
  | send =>
    simp only [Node.rwbAct]
    split
    · rename_i e hr
      obtain ⟨l, hl⟩ := hw.unsent e (by rw [hr]; rfl)
      have hsent : n.sent = l := by simp [Node.sent, hr, Rwb.unsent, hl]
      have hseq : toInt e.seqNum = e.seqNum := by
        have hbe := hb e (by rw [hl]; simp)
        exact toInt_of_lt hbe.1 hbe.2
      have hnew : ∀ w ∈ l, w.seqNum ≠ e.seqNum := by
        have hnd := hw.nodup
        rw [hl, List.map_append, List.map_singleton] at hnd
        intro w hwl
        exact (List.nodup_append.1 hnd).2.2 _ (List.mem_map_of_mem hwl) _ (List.mem_singleton_self _)
      rw [hseq]
      split
      · refine h.of_eq rfl rfl ?_
        intro w hwl
        rw [hsent] at hwl
        show w ∈ n.written
        rw [hl]
        exact List.mem_append_left _ hwl
      · rename_i sl hsl
        have hmem := SentList.pushEntry_eq_some hsl
        have hgrow : ∀ w ∈ n.sent, w ∈ n.written := by
          rw [hsent, hl]
          exact fun w hwl => List.mem_append_left _ hwl
        have he : e ∈ n.written := by rw [hl]; simp
        -- what is committed or held was sent before
        have hold : ∀ w ∈ n.sent, w.seqNum ≠ e.seqNum := by rw [hsent]; exact hnew
        refine ⟨?_, ?_, h.numbers, h.lower, h.ready, ?_, ?_, h.one, h.settled, h.unbumped⟩
        · intro x hx
          rcases (hmem x).1 hx with hx | rfl
          · obtain ⟨w, hwl, hxw⟩ := h.sent x hx
            exact ⟨w, hgrow w hwl, hxw⟩
          · exact ⟨e, he, rfl⟩
        · intro c hc
          obtain ⟨⟨w, hwl, rfl⟩, hne⟩ := h.done c hc
          refine ⟨⟨w, hgrow w hwl, rfl⟩, ?_⟩
          intro x hx
          rcases (hmem x).1 hx with hx | rfl
          · exact hne x hx
          · exact Ne.symm (hold w hwl)
        · intro k t hk hh
          obtain ⟨h1, ⟨w, hwl, hwt⟩, hne⟩ := h.held k t hk hh
          refine ⟨h1, ⟨w, hgrow w hwl, hwt⟩, ?_⟩
          intro x hx
          rcases (hmem x).1 hx with hx | rfl
          · exact hne x hx
          · rw [← hwt]
            exact Ne.symm (hold w hwl)
        · intro k t d hk hd
          obtain ⟨w, hwl, hwt⟩ := h.popped k t d hk hd
          exact ⟨w, hgrow w hwl, hwt⟩
    · exact h
  | poll | spin | pop | leave | retry | write | bump =>
    simp only [Node.rwbAct]
    repeat' split
    all_goals refine h.of_eq rfl rfl fun w hwl => ?_
    all_goals simp_all [Node.sent, Rwb.unsent]

theorem wire_committedOnce (h : CommittedOnce start n) (w : Wire) : CommittedOnce start (n.wire w) := by
  cases w with
  | relaySent j k | relayOk =>
    simp only [Node.wire]
    split
    · refine h.of_eq rfl rfl fun w hwl => ?_
      simp_all [Node.sent, Rwb.unsent]
    · exact h
  | relayArrives q => exact h.of_eq rfl rfl fun _ hwl => hwl
  | ackSent k j m =>
    simp only [Node.wire]
    split
    · rename_i b seq hk
      exact h.setAck hk _ (by simp [AckPhase.isReady]) (by simp [AckPhase.holds]) (by simp) rfl
    · exact h
  | ackArrives seq => exact h.addAck ⟨false, seq, .start⟩ rfl
  | ackOk k =>
    simp only [Node.wire]
    split
    · rename_i b seq j m hk
      apply h.setAck hk _
      all_goals cases b <;> simp [AckThread.finish, AckPhase.isReady, AckPhase.holds, AckPhase.unbumped]
    · exact h

theorem mem_written_of_sent {w : Entry} (h : w ∈ n.sent) : w ∈ n.written := by
  unfold Node.sent at h
  split at h
  · exact List.mem_of_mem_dropLast h
  · exact h

theorem WrittenOnce.bounds (h : WrittenOnce n) (hb : ∀ x ∈ n.queued, 0 ≤ x.seqNum ∧ x.seqNum < 2 ^ 31) (w : Entry)
    (hw : w ∈ n.written) : 0 ≤ w.seqNum ∧ w.seqNum < 2 ^ 31 := by
  obtain ⟨x, hx, hxw⟩ := List.mem_map.1 (h.written w hw)
  rw [← hxw]
  exact hb x hx

theorem committedOnce_event (h : CommittedOnce start n) (hw : WrittenOnce n) (h0 : 0 ≤ start) (hs : start < 2 ^ 31)
    (hb : ∀ x ∈ n.queued, 0 ≤ x.seqNum ∧ x.seqNum < 2 ^ 31) (e : NodeEvent) : CommittedOnce start (n.event e) := by
  have hbw := hw.bounds hb
  cases e with
  | act a =>
    simp only [Node.event]
    unfold Node.act
    split
    · exact h
    cases a with
    | write a =>
      refine h.of_eq (writeAct_commits n a) ?_ fun w hwl => ?_
      · cases a <;> simp only [Node.writeAct] <;> repeat' split
        all_goals rfl
      · cases a <;> simp only [Node.writeAct] <;> repeat' split
        all_goals exact hwl
    | relay k a =>
      refine h.of_eq (relayAct_commits n k a) ?_ fun w hwl => ?_
      · cases a <;> simp only [Node.relayAct] <;> repeat' split
        all_goals rfl
      · cases a <;> simp only [Node.relayAct] <;> repeat' split
        all_goals exact hwl
    | rwb a => exact rwbAct_committedOnce h hw hbw a
    | ack k a => exact ackAct_committedOnce h h0 hs (fun w hwl => hbw w (mem_written_of_sent hwl)) k a
    | ackLogEntry r => exact h.of_eq rfl rfl fun _ hwl => hwl
  | wire w => exact wire_committedOnce h w
  | configure c => exact h.of_eq rfl rfl fun _ hwl => hwl
  | launchTail => exact h.addAck ⟨true, 0, .start⟩ rfl

end Commits

/-! ## The calls of the volume -/

/-- a write of the volume is a step of `relay_write_background` -/
theorem event_written (n : Node) (e : NodeEvent) :
    (∃ w, n.storageCall e = some (.write w) ∧ (n.event e).written = n.written ++ [w]) ∨
      (∀ w, n.storageCall e ≠ some (.write w)) ∧ (n.event e).written = n.written := by
  cases e with
  | act a =>
    by_cases ha : ∃ b, a = .rwb b
    · obtain ⟨b, rfl⟩ := ha
      simp only [Node.event, Node.act]
      cases b with
      | write =>
        cases hr : n.rwb <;> simp [Node.storageCall, Node.rwbAct, hr, Rwb.isDead]
      | poll | spin | pop | leave | retry | bump | send =>
        refine Or.inr ⟨by simp [Node.storageCall], ?_⟩
        split
        · rfl
        · simp only [Node.rwbAct]
          repeat' split
          all_goals rfl
    · have ha' : ∀ b, a ≠ .rwb b := fun b hb => ha ⟨b, hb⟩
      refine Or.inr ⟨?_, (act_progress n a ha').2.2⟩
      intro w hw
      unfold Node.storageCall at hw
      repeat' split at hw
      all_goals simp_all
  | wire w =>
    refine Or.inr ⟨by simp [Node.storageCall], ?_⟩
    cases w <;> simp only [Node.event, Node.wire] <;> repeat' split
    all_goals rfl
  | configure c => exact Or.inr ⟨by simp [Node.storageCall], rfl⟩
  | launchTail => exact Or.inr ⟨by simp [Node.storageCall], rfl⟩

/-- a commit of the volume is a step of a thread that has popped the number -/
theorem event_committed (n : Node) (e : NodeEvent) :
    (∃ (k : ℕ) (b : Bool) (seq : ℤ) (x : SentListEntry), n.acks[k]? = some ⟨b, seq, .popped x⟩ ∧
      n.storageCall e = some (.commit seq x.volumeOffset) ∧
      (n.event e).committed = n.committed ++ [(seq, x.volumeOffset)]) ∨
      (∀ seq off, n.storageCall e ≠ some (.commit seq off)) ∧ (n.event e).committed = n.committed := by
  cases e with
  | act a =>
    by_cases ha : ∃ k, a = .ack k .commit
    · obtain ⟨k, rfl⟩ := ha
      by_cases hd : n.rwb.isDead = true
      · exact Or.inr ⟨by simp [Node.storageCall, hd], by simp [Node.event, Node.act, hd]⟩
      · cases hk : n.acks[k]? with
        | none => exact Or.inr ⟨by simp [Node.storageCall, hk], by simp [Node.event, Node.act, hd, Node.ackAct, hk]⟩
        | some t =>
          obtain ⟨b, seq, p⟩ := t
          cases p with
          | popped x =>
            refine Or.inl ⟨k, b, seq, x, hk, by simp [Node.storageCall, hd, hk], ?_⟩
            simp [Node.event, Node.act, hd, Node.ackAct, hk]
          | start | ready | stored _ | logged | relaying | calling _ _ | done | failed =>
            refine Or.inr ⟨by simp [Node.storageCall, hk], ?_⟩
            simp [Node.event, Node.act, hd, Node.ackAct, hk]
    · refine Or.inr ⟨?_, ?_⟩
      · intro seq off hc
        unfold Node.storageCall at hc
        repeat' split at hc
        all_goals simp_all
      · simp only [Node.event, Node.act]
        split
        · rfl
        cases a with
        | write a =>
          cases a <;> simp only [Node.writeAct] <;> repeat' split
          all_goals rfl
        | relay k a =>
          cases a <;> simp only [Node.relayAct] <;> repeat' split
          all_goals rfl
        | rwb a =>
          cases a <;> simp only [Node.rwbAct] <;> repeat' split
          all_goals rfl
        | ack k a =>
          have hac : a ≠ .commit := fun h => ha ⟨k, by rw [h]⟩
          simp only [Node.ackAct, Node.ackStart, Node.ackPop]
          repeat' split
          all_goals first | rfl | exact absurd rfl hac
        | ackLogEntry r => rfl
  | wire w =>
    refine Or.inr ⟨by simp [Node.storageCall], ?_⟩
    cases w <;> simp only [Node.event, Node.wire] <;> repeat' split
    all_goals rfl
  | configure c => exact Or.inr ⟨by simp [Node.storageCall], rfl⟩
  | launchTail => exact Or.inr ⟨by simp [Node.storageCall], rfl⟩

/-- the numbers and offsets passed to `Storage::commit` -/
def Lone.commits (s : Lone) : List (ℤ × Int64) := s.calls.filterMap fun c => match c with
  | .commit seq off => some (seq, off)
  | .write _ => none

/-- every commit has a write of its number and offset before it -/
def WrittenBefore (calls : List StorageCall) : Prop :=
  ∀ (i : ℕ) (seq : ℤ) (off : Int64), calls[i]? = some (.commit seq off) →
    ∃ j < i, ∃ w, calls[j]? = some (.write w) ∧ w.seqNum = seq ∧ w.volumeOffset = off

/-- a call that is a write, or a commit with a write before it -/
theorem WrittenBefore.append {calls : List StorageCall} (h : WrittenBefore calls) (c : StorageCall)
    (hc : ∀ seq off, c = .commit seq off → ∃ w, .write w ∈ calls ∧ w.seqNum = seq ∧ w.volumeOffset = off) :
    WrittenBefore (calls ++ [c]) := by
  have hold : ∀ (j : ℕ) (x : StorageCall), calls[j]? = some x → (calls ++ [c])[j]? = some x := by
    intro j x hx
    rw [List.getElem?_append_left (List.getElem?_eq_some_iff.1 hx).1, hx]
  intro i seq off hi
  rcases getElem?_of_concat hi with hi | ⟨rfl, he⟩
  · obtain ⟨j, hj, w, hw, h1, h2⟩ := h i seq off hi
    exact ⟨j, hj, w, hold j _ hw, h1, h2⟩
  · obtain ⟨w, hw, h1, h2⟩ := hc seq off he.symm
    obtain ⟨j, hj⟩ := List.mem_iff_getElem?.1 hw
    exact ⟨j, (List.getElem?_eq_some_iff.1 hj).1, w, hold j _ hj, h1, h2⟩

structure LoneInv (start : ℤ) (s : Lone) : Prop where
  write : WrittenOnce s.node
  commit : CommittedOnce start s.node
  writes : ∀ w ∈ s.node.written, .write w ∈ s.calls
  commits : s.commits = s.node.committed
  before : WrittenBefore s.calls
  /-- what is written and not committed is in `uncommitted_writes` -/
  found : ∀ w ∈ s.node.written, (∀ c ∈ s.node.committed, c.1 ≠ w.seqNum) →
    s.vol.uncommittedWrites w.seqNum ≠ none
  nullDeref : s.nullDeref = false

theorem Lone.step_node (junk : ℤ → ℕ → ℤ) (behind : ℤ → Storage.Buf) (s : Lone) (e : NodeEvent) :
    (s.step junk behind e).node = s.node.event e := by
  unfold Lone.step
  repeat' split
  all_goals rfl

section Step

variable {start : ℤ} (junk : ℤ → ℕ → ℤ) (behind : ℤ → Storage.Buf) {s : Lone}

/-- a step that calls `Storage::write` -/
theorem Lone.write_inv (h : LoneInv start s) {e : NodeEvent} (hw' : WrittenOnce (s.node.event e))
    (hc' : CommittedOnce start (s.node.event e)) {w : Entry} (hcall : s.node.storageCall e = some (.write w))
    (hwritten : (s.node.event e).written = s.node.written ++ [w]) : LoneInv start (s.step junk behind e) := by
  have hcommitted : (s.node.event e).committed = s.node.committed := by
    rcases event_committed s.node e with ⟨k, b, seq, x, -, hc, -⟩ | ⟨-, hc⟩
    · rw [hcall] at hc
      cases hc
    · exact hc
  obtain ⟨uw, huw⟩ := Storage.write_unc (junk w.seqNum) (w.data.buffer (behind w.seqNum)) w.volumeOffset.toInt
    w.seqNum s.vol
  have hstep : s.step junk behind e = { s with
      node := s.node.event e
      vol := (Storage.write (junk w.seqNum) (w.data.buffer (behind w.seqNum)) w.volumeOffset.toInt w.seqNum s.vol).vol
      calls := s.calls ++ [.write w] } := by
    simp only [Lone.step, hcall]
  rw [hstep]
  refine ⟨hw', hc', fun v hv => ?_, ?_, h.before.append _ (by simp), fun v hv hne => ?_, h.nullDeref⟩
  · rw [hwritten] at hv
    rcases List.mem_append.1 hv with hv | hv
    · exact List.mem_append_left _ (h.writes v hv)
    · rw [List.mem_singleton.1 hv]
      exact List.mem_append_right _ (List.mem_singleton_self _)
  · have hcm := h.commits
    simp only [Lone.commits, List.filterMap_append] at hcm ⊢
    rw [hcm, hcommitted]
    simp
  · simp only [huw]
    split_ifs with hvw
    · simp
    · rw [hwritten] at hv
      rw [hcommitted] at hne
      rcases List.mem_append.1 hv with hv | hv
      · exact h.found v hv hne
      · rw [List.mem_singleton.1 hv] at hvw
        exact absurd rfl hvw

/-- a step that calls `Storage::commit`: the number is written and not committed, so the call finds it -/
theorem Lone.commit_inv (h : LoneInv start s) {e : NodeEvent} (hw' : WrittenOnce (s.node.event e))
    (hc' : CommittedOnce start (s.node.event e)) {k : ℕ} {b : Bool} {seq : ℤ} {x : SentListEntry}
    (hk : s.node.acks[k]? = some ⟨b, seq, .popped x⟩)
    (hcall : s.node.storageCall e = some (.commit seq x.volumeOffset))
    (hcommitted : (s.node.event e).committed = s.node.committed ++ [(seq, x.volumeOffset)])
    (hwritten : (s.node.event e).written = s.node.written) : LoneInv start (s.step junk behind e) := by
  obtain ⟨w, hw, hwseq, rfl⟩ := h.commit.popped k _ x hk rfl
  have hw := mem_written_of_sent hw
  obtain ⟨hnext, -⟩ := h.commit.commit hk rfl 0
  have hnew : ∀ c ∈ s.node.committed, c.1 ≠ w.seqNum := by
    intro c hcm
    obtain ⟨i, hi⟩ := List.mem_iff_getElem?.1 hcm
    have hlt := (List.getElem?_eq_some_iff.1 hi).1
    have := h.commit.numbers i c hi
    simp only at hwseq hnext
    omega
  have hfound := h.found w hw hnew
  simp only at hwseq
  subst hwseq
  cases hcommit : Storage.commit w.seqNum (sentEntry w).volumeOffset.toInt s.vol with
  | none => exact absurd ((Storage.commit_eq_none _ _ _).1 hcommit) hfound
  | some c =>
    have hstep : s.step junk behind e = { s with
        node := s.node.event e, vol := c.vol, calls := s.calls ++ [.commit w.seqNum (sentEntry w).volumeOffset] } := by
      simp only [Lone.step, hcall, hcommit]
    rw [hstep]
    refine ⟨hw', hc', ?_, ?_, h.before.append _ fun seq off heq => ?_, fun v hv hne => ?_, h.nullDeref⟩
    · rw [hwritten]
      exact fun v hv => List.mem_append_left _ (h.writes v hv)
    · have hcm := h.commits
      simp only [Lone.commits, List.filterMap_append] at hcm ⊢
      rw [hcm, hcommitted]
      simp
    · cases heq
      exact ⟨w, h.writes w hw, rfl, rfl⟩
    · rw [hwritten] at hv
      rw [hcommitted] at hne
      have hvw : v.seqNum ≠ w.seqNum := Ne.symm (hne _ (List.mem_append_right _ (List.mem_singleton_self _)))
      simp only [Storage.commit_unc hcommit, if_neg hvw]
      exact h.found v hv fun c hcm => hne c (List.mem_append_left _ hcm)

/-- a step without a call -/
theorem Lone.quiet_inv (h : LoneInv start s) {e : NodeEvent} (hw' : WrittenOnce (s.node.event e))
    (hc' : CommittedOnce start (s.node.event e)) (hcall : s.node.storageCall e = none)
    (hwritten : (s.node.event e).written = s.node.written)
    (hcommitted : (s.node.event e).committed = s.node.committed) : LoneInv start (s.step junk behind e) := by
  have hstep : s.step junk behind e = { s with node := s.node.event e } := by simp only [Lone.step, hcall]
  rw [hstep]
  refine ⟨hw', hc', ?_, h.commits.trans hcommitted.symm, h.before, ?_, h.nullDeref⟩
  · rw [hwritten]
    exact h.writes
  · rw [hwritten, hcommitted]
    exact h.found

/-- **One step.** A commit is of a number that is written and not committed, so `commit` finds it. -/
theorem Lone.step_inv (h0 : 0 ≤ start) (hs : start < 2 ^ 31) (h : LoneInv start s) (e : NodeEvent)
    (hq : (s.step junk behind e).node.QueuedOnce) : LoneInv start (s.step junk behind e) := by
  rw [Lone.step_node junk behind s e] at hq
  have hb : ∀ x ∈ s.node.queued, 0 ≤ x.seqNum ∧ x.seqNum < 2 ^ 31 :=
    fun x hx => hq.2 x ((event_queued_grows s.node e).subset hx)
  have hw' := writtenOnce_event s.node e h.write hq.1
  have hc' := committedOnce_event h.commit h.write h0 hs hb e
  rcases event_written s.node e with ⟨w, hcall, hwritten⟩ | ⟨hwrite, hwritten⟩
  · exact Lone.write_inv junk behind h hw' hc' hcall hwritten
  rcases event_committed s.node e with ⟨k, b, seq, x, hk, hcall, hcommitted⟩ | ⟨hcommit, hcommitted⟩
  · exact Lone.commit_inv junk behind h hw' hc' hk hcall hcommitted hwritten
  have hnone : s.node.storageCall e = none := by
    cases hx : s.node.storageCall e with
    | none => rfl
    | some x =>
      cases x with
      | write w => exact absurd hx (hwrite w)
      | commit seq off => exact absurd hx (hcommit seq off)
  exact Lone.quiet_inv junk behind h hw' hc' hnone hwritten hcommitted

end Step

theorem Lone.run_node (junk : ℤ → ℕ → ℤ) (behind : ℤ → Storage.Buf) (s : Lone) (es : List NodeEvent) :
    (run (Lone.step junk behind) s es).node = run Node.event s.node es := by
  induction es generalizing s with
  | nil => rfl
  | cons e es ih =>
    rw [run_cons, run_cons, ih, Lone.step_node]

theorem Node.QueuedOnce.of_prefix {n n' : Node} (h : n'.QueuedOnce) (hp : n.queued <+: n'.queued) : n.QueuedOnce :=
  ⟨(hp.sublist.map _).nodup h.1, fun x hx => h.2 x (hp.subset hx)⟩

theorem run_queued (n : Node) (es : List NodeEvent) : n.queued <+: (run Node.event n es).queued :=
  run_inv Node.event (fun m => n.queued <+: m.queued) (fun m e h => h.trans (event_queued_grows m e)) n es
    (List.prefix_refl _)

/-- **Commits are contiguous, once each, and never without a write.** In every run of a node in free surroundings that
queues no number twice, and numbers below 2^31: the numbers passed to `Storage::commit` are start + 1, start + 2, ...,
each commit comes after the `Storage::write` of the same number and offset, and `uncommitted_writes` of the number is
not null when `commit` dereferences it. -/
theorem commits_contiguous (c : Conf) (start : ℕ) (hs : start < 2 ^ 31) (log : ReplayLog) (vol : Storage.Volume)
    (junk : ℤ → ℕ → ℤ) (behind : ℤ → Storage.Buf) (es : List NodeEvent)
    (hq : (run (Lone.step junk behind) (Lone.start c start log vol) es).node.QueuedOnce) :
    let s := run (Lone.step junk behind) (Lone.start c start log vol) es
    (∀ (i : ℕ) (x : ℤ × Int64), s.commits[i]? = some x → x.1 = start + 1 + i) ∧ WrittenBefore s.calls ∧
      s.nullDeref = false := by
  intro s
  have hrun : ∀ (es : List NodeEvent) (s : Lone), LoneInv start s →
      (run (Lone.step junk behind) s es).node.QueuedOnce → LoneInv start (run (Lone.step junk behind) s es) := by
    intro es
    induction es with
    | nil => exact fun s h _ => h
    | cons e es ih =>
      intro s h hq
      have hq' : (s.step junk behind e).node.QueuedOnce := by
        apply hq.of_prefix
        rw [run_cons, Lone.run_node]
        exact run_queued _ es
      exact ih _ (Lone.step_inv junk behind (by omega) (by omega) h e hq') hq
  have hinv : LoneInv start s := by
    refine hrun es _ ?_ hq
    refine ⟨⟨?_, ?_, ?_, List.nodup_nil, ?_⟩, ⟨?_, ?_, ?_, le_refl _, ?_, ?_, ?_, ?_, ?_, ?_⟩, ?_, rfl, ?_, ?_, rfl⟩
    all_goals simp [Lone.start, Node.idle, Rwb.unwritten, Rwb.unsent, WrittenBefore]
  refine ⟨?_, hinv.before, hinv.nullDeref⟩
  intro i x hx
  rw [hinv.commits] at hx
  exact hinv.commit.numbers i x hx

instance (n : Node) : Decidable n.QueuedOnce := inferInstanceAs (Decidable (_ ∧ _))

/-- the middle node of a chain -/
def middleConf : Conf := ⟨.middle, some 0, some 2, false⟩

/-- number 1 is relayed, written and sent; two copies of its ack pass the guard together -/
def duplicateAck : List NodeEvent :=
  [.wire (.relayArrives ⟨[7], 0, 1, ⟨"10.0.0.1", 1, ⟨1, 0⟩⟩⟩), .act (.relay 0 .addToLog), .act (.relay 0 .pushEntry),
    .act (.rwb .poll), .act (.rwb .spin), .act (.rwb .pop), .wire (.relaySent 2 0), .wire .relayOk, .act (.rwb .write),
    .act (.rwb .bump), .act (.rwb .send), .wire (.ackArrives 1), .wire (.ackArrives 1), .act (.ack 0 .start),
    .act (.ack 1 .start), .act (.ack 1 .pop), .act (.ack 0 .pop), .act (.ack 1 .commit), .act (.ack 1 .log),
    .act (.ack 1 .bump)]

theorem commits_contiguous_duplicate_ack :
    let s := run (Lone.step (fun _ _ => 0) fun _ _ => 0)
      (Lone.start middleConf 0 ReplayLog.empty (Storage.Driver.new.vol)) duplicateAck
    ((∀ (i : ℕ) (x : ℤ × Int64), s.commits[i]? = some x → x.1 = 0 + 1 + i) ∧ WrittenBefore s.calls ∧
      s.nullDeref = false) ∧ s.node.committed = [(1, 0)] := by
  have hnode := Lone.run_node (fun _ _ => 0) (fun _ _ => 0)
    (Lone.start middleConf 0 ReplayLog.empty (Storage.Driver.new.vol)) duplicateAck
  refine ⟨?_, ?_⟩
  · apply commits_contiguous middleConf 0 (by decide) ReplayLog.empty _ _ _ duplicateAck
    rw [hnode]
    decide +kernel
  · rw [hnode]
    decide +kernel

end ChainedBlockStorage.Chain
