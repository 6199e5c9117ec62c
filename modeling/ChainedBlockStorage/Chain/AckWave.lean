/-
One wave of acks at a time runs up a stable chain.

The background thread of the tail commits a number and calls its upstream node, whose handler commits it and calls the
next one. So at most one thread of a node is at work, a handler is at work exactly while the thread that has called it
waits, and `commitSeq` of two neighbours differs by one exactly while the wave is between them.

- `Paced`: one node. Its thread at work is about the next number, and what is not committed is in the sent list.
- `Wave`: two neighbours.
- `returning_step`: every step that keeps the rules of `Supply` keeps both.
-/
import ChainedBlockStorage.Chain.Supply

namespace ChainedBlockStorage.Chain

open Run Tables Positions

/-! ## Threads at work -/

/-- the thread has ended -/
def AckPhase.over : AckPhase → Bool
  | .done | .failed => true
  | _ => false

/-- `commitSeq` has been changed -/
def AckPhase.counted : AckPhase → Bool
  | .relaying | .calling _ _ | .done => true
  | _ => false

theorem AckPhase.live_of_past {p : AckPhase} (h : p.past = true) : p.over = false := by
  cases p <;> first | rfl | cases h

theorem AckPhase.live_of_holds {p : AckPhase} (h : p.holds = true) : p.over = false := by
  cases p <;> first | rfl | cases h

theorem AckPhase.live_of_ready {p : AckPhase} (h : p.isReady = true) : p.over = false := by
  cases p <;> first | rfl | cases h

theorem phase_of_ackFailed {n : Node} {m : ℕ} {t : AckThread} (h : n.ackFailed m = true) (ht : n.acks[m]? = some t) :
    t.phase = .failed := by
  obtain ⟨b, q, p⟩ := t
  simp only [Node.ackFailed, ht, Option.any_some] at h
  split at h
  · rfl
  · cases h

theorem phase_of_ackAnswered {n : Node} {m : ℕ} {t : AckThread} (h : n.ackAnswered m = true)
    (ht : n.acks[m]? = some t) : t.phase = .done := by
  obtain ⟨b, q, p⟩ := t
  simp only [Node.ackAnswered, ht, Option.any_some] at h
  split at h
  · rfl
  · cases h

/-- `commitSeq` and the number of a thread -/
def AckThread.Counts (t : AckThread) (commitSeq : ℤ) : Prop :=
  if t.phase.counted then commitSeq = t.seq else commitSeq + 1 = t.seq

structure Paced (x : Node) : Prop where
  one : ∀ (k m : ℕ) (t u : AckThread), x.acks[k]? = some t → x.acks[m]? = some u → t.phase.over = false →
    u.phase.over = false → k = m
  ready : ∀ t ∈ x.acks, t.phase.isReady = true → t.seq = x.commitSeq + 1
  past : ∀ t ∈ x.acks, t.phase.past = true → t.seq = x.commitSeq
  stocked : ∀ q, x.commitSeq < q → q ≤ x.sentTop →
    (∃ y ∈ x.sentList, y.1 = q) ∨ ∃ t ∈ x.acks, t.phase.holds = true ∧ t.seq = q

/-- node `i` as `u`, and the next one downstream -/
structure Wave (i : ℕ) (u d : Node) : Prop where
  live : ∀ (m : ℕ) (t : AckThread), u.acks[m]? = some t → t.phase.over = false →
    ∃ (k : ℕ) (b : Bool), d.acks[k]? = some ⟨b, t.seq, .calling i m⟩
  calling : ∀ (k : ℕ) (b : Bool) (q : ℤ) (j m : ℕ), d.acks[k]? = some ⟨b, q, .calling j m⟩ →
    j = i ∧ ∃ t, u.acks[m]? = some t ∧ t.background = false ∧ t.seq = q ∧ t.Counts u.commitSeq
  relaying : ∀ t ∈ d.acks, t.phase = .relaying → u.commitSeq + 1 = t.seq
  settled : (∀ t ∈ d.acks, t.phase.past = false) → u.commitSeq = d.commitSeq

/-! ## One node -/

section Node

variable {x x' : Node} {k : ℕ} {t : AckThread}

/-- beside a thread at work all others have ended -/
theorem Paced.others (h : Paced x) (hk : x.acks[k]? = some t) (hl : t.phase.over = false) {m : ℕ} {v : AckThread}
    (hm : x.acks[m]? = some v) (hmk : m ≠ k) : v.phase.over = true := by
  by_contra hv
  exact hmk (h.one m k v t hm hk (by simpa using hv) hl)

/-- a number that is not committed is in the sent list, or the thread at work has it -/
theorem Paced.stock (h : Paced x) (hk : x.acks[k]? = some t) (hl : t.phase.over = false) {q : ℤ} (h1 : x.commitSeq < q)
    (h2 : q ≤ x.sentTop) : (∃ y ∈ x.sentList, y.1 = q) ∨ t.phase.holds = true ∧ t.seq = q := by
  refine (h.stocked q h1 h2).imp_right ?_
  rintro ⟨v, hv, hh, hq⟩
  obtain ⟨m, hm⟩ := List.mem_iff_getElem?.1 hv
  obtain rfl := h.one m k v t hm hk (AckPhase.live_of_holds hh) hl
  obtain rfl := Option.some.inj (hm.symm.trans hk)
  exact ⟨hh, hq⟩

/-- the thread at work takes a step -/
theorem Paced.move (h : Paced x) (hk : x.acks[k]? = some t) (hl : t.phase.over = false) (u : AckThread)
    (hacks : x'.acks = x.acks.set k u) (hready : u.phase.isReady = true → u.seq = x'.commitSeq + 1)
    (hpast : u.phase.past = true → u.seq = x'.commitSeq)
    (hstock : ∀ q, x'.commitSeq < q → q ≤ x'.sentTop →
      (∃ y ∈ x'.sentList, y.1 = q) ∨ u.phase.holds = true ∧ u.seq = q) :
    Paced x' := by
  -- a live thread is the one that moved
  have hone : ∀ (m : ℕ) (v : AckThread), x'.acks[m]? = some v → v.phase.over = false → m = k ∧ v = u := by
    intro m v hm hv
    rw [hacks] at hm
    rcases getElem?_of_set hm with hm | ⟨hmk, hm⟩
    · exact hm
    · rw [h.others hk hl hm hmk] at hv
      cases hv
  have hmem : ∀ v ∈ x'.acks, v.phase.over = false → v = u := fun v hv hlive => by
    obtain ⟨m, hm⟩ := List.mem_iff_getElem?.1 hv
    exact (hone m v hm hlive).2
  refine ⟨fun m l v w hm hl hv hw => ?_, fun v hv hr => ?_, fun v hv hp => ?_, fun q h1 h2 => ?_⟩
  · rw [(hone m v hm hv).1, (hone l w hl hw).1]
  · obtain rfl := hmem v hv (AckPhase.live_of_ready hr)
    exact hready hr
  · obtain rfl := hmem v hv (AckPhase.live_of_past hp)
    exact hpast hp
  · refine (hstock q h1 h2).imp_right fun hu => ⟨u, ?_, hu⟩
    rw [hacks]
    exact mem_set_self hk u

/-- the threads stay, and what is added to the sent list is the new end -/
theorem Paced.frame (h : Paced x) (hacks : x'.acks = x.acks) (hcommit : x'.commitSeq = x.commitSeq)
    (hsent : ∀ y ∈ x.sentList, y ∈ x'.sentList)
    (htop : ∀ q, x.sentTop < q → q ≤ x'.sentTop → ∃ y ∈ x'.sentList, y.1 = q) : Paced x' := by
  refine ⟨by rw [hacks]; exact h.one, by rw [hacks, hcommit]; exact h.ready, by rw [hacks, hcommit]; exact h.past,
    fun q h1 h2 => ?_⟩
  rw [hcommit] at h1
  rw [hacks]
  rcases Int.lt_or_le x.sentTop q with hq | hq
  · exact Or.inl (htop q hq h2)
  · refine (h.stocked q h1 hq).imp_left ?_
    rintro ⟨y, hy, hyq⟩
    exact ⟨y, hsent y hy, hyq⟩

/-- **One step of an ack thread.** -/
theorem paced_ackAct {start : ℤ} (h : Paced x) (hc : CommitInv start x) (h0 : 0 ≤ start) (hb : x.sentTop < 2 ^ 31)
    (k : ℕ) (a : AckAct) : Paced (x.ackAct k a) := by
  have hlow := hc.lower
  have hup := hc.upper
  have hstep := ackAct_step x k a
  generalize x.ackAct k a = y at hstep ⊢
  -- the sent list stays, and what the thread holds
  have hkeep : ∀ {t u : AckThread} {q : ℤ}, x.acks[k]? = some t → t.phase.over = false →
      (t.phase.holds = true → u.phase.holds = true ∧ u.seq = t.seq) → x.commitSeq < q → q ≤ x.sentTop →
      (∃ y ∈ x.sentList, y.1 = q) ∨ u.phase.holds = true ∧ u.seq = q := by
    intro t u q hk hl hu h1 h2
    refine (h.stock hk hl h1 h2).imp_right ?_
    rintro ⟨hh, rfl⟩
    exact hu hh
  cases hstep with
  | stay => exact h
  | takeUp hk =>
    exact h.move hk rfl _ rfl (fun _ => rfl) (fun hp => by cases hp) fun q => hkeep hk rfl fun hh => by cases hh
  | retire hk =>
    exact h.move hk rfl _ rfl (fun hr => by cases hr) (fun hp => by cases hp) fun q =>
      hkeep hk rfl fun hh => by cases hh
  | turn hk hq =>
    exact h.move hk rfl _ rfl (fun _ => hq.symm) (fun hp => by cases hp) fun q => hkeep hk rfl fun hh => by cases hh
  | @refuse b q hk =>
    refine h.move hk rfl _ rfl ?_ ?_ fun q => hkeep hk rfl fun hh => by cases hh
    all_goals cases b <;> exact fun hp => by cases hp
  | @pop b q e l hk hsome =>
    obtain ⟨hin, hmem⟩ := SentList.popEntry_eq_some hsome
    have hseq : q = x.commitSeq + 1 := h.ready _ (List.mem_of_getElem? hk) rfl
    obtain ⟨hlo, hhi⟩ := hc.sent _ hin
    have hint : toInt q = q := (toInt_key ⟨by omega, by omega⟩ (by omega) rfl).symm
    refine h.move hk rfl _ rfl (fun hr => by cases hr) (fun hp => by cases hp) fun q' h1 h2 => ?_
    rcases h.stock hk rfl h1 h2 with ⟨y, hy, rfl⟩ | ⟨hh, -⟩
    · by_cases hyq : y.1 = toInt q
      · exact Or.inr ⟨rfl, (hyq.trans hint).symm⟩
      · exact Or.inl ⟨y, (hmem y).2 ⟨hy, hyq⟩, rfl⟩
    · cases hh
  | commit hk =>
    exact h.move hk rfl _ rfl (fun hr => by cases hr) (fun hp => by cases hp) fun q => hkeep hk rfl fun _ => ⟨rfl, rfl⟩
  | log hk =>
    exact h.move hk rfl _ rfl (fun hr => by cases hr) (fun hp => by cases hp) fun q => hkeep hk rfl fun _ => ⟨rfl, rfl⟩
  | @bump b q hk =>
    obtain ⟨hseq, htop, -⟩ := hc.held k _ hk rfl
    simp only at hseq htop
    have hval : (if b then x.commitSeq + 1 else toInt q) = q := by
      split_ifs
      · exact hseq.symm
      · exact toInt_of_lt (by omega) (by omega)
    refine h.move hk rfl ⟨b, q, .relaying⟩ rfl (fun hr => by cases hr) (fun _ => hval.symm) fun q' h1 h2 => Or.inl ?_
    have hq' : q < q' := hval ▸ h1
    rcases h.stock hk rfl (by omega) h2 with hy | ⟨-, hq⟩
    · exact hy
    · have hq : q = q' := hq
      omega
  | @leave b q hk =>
    refine h.move hk rfl _ rfl ?_ ?_ fun q => hkeep hk rfl fun hh => by cases hh
    all_goals cases b <;> exact fun hp => by cases hp
  | retry hk =>
    have hp := h.past _ (List.mem_of_getElem? hk) rfl
    exact h.move hk rfl _ rfl (fun hr => by cases hr) (fun _ => hp) fun q => hkeep hk rfl fun hh => by cases hh

/-- a thread calls upstream -/
theorem paced_ackSent (h : Paced x) (k j m : ℕ) : Paced (x.wire (.ackSent k j m)) := by
  simp only [Node.wire]
  split
  · rename_i b q hk
    have hp := h.past _ (List.mem_of_getElem? hk) rfl
    refine h.move hk rfl _ rfl (fun hr => by cases hr) (fun _ => hp) fun q h1 h2 => ?_
    exact (h.stock hk rfl h1 h2).imp_right fun hh => by cases hh.1
  · exact h

/-- its call is answered -/
theorem paced_ackOk (h : Paced x) (k : ℕ) : Paced (x.wire (.ackOk k)) := by
  simp only [Node.wire]
  split
  · rename_i b q j m hk
    refine h.move hk rfl _ rfl ?_ ?_ fun q h1 h2 => ?_
    · cases b <;> exact fun hr => by cases hr
    · cases b <;> exact fun hp => by cases hp
    · exact (h.stock hk rfl h1 h2).imp_right fun hh => by cases hh.1
  · exact h

/-- a handler appears while no thread is at work -/
theorem paced_ackArrives (h : Paced x) (hidle : ∀ t ∈ x.acks, t.phase.over = true) (seq : ℤ) :
    Paced (x.wire (.ackArrives seq)) := by
  have hlast : ∀ (m : ℕ) (v : AckThread), (x.acks ++ [⟨false, seq, .start⟩])[m]? = some v → v.phase.over = false →
      m = x.acks.length ∧ v = ⟨false, seq, .start⟩ := by
    intro m v hm hv
    rcases getElem?_of_concat hm with hm | hm
    · rw [hidle v (List.mem_of_getElem? hm)] at hv
      cases hv
    · exact hm
  refine ⟨fun m l v w hm hl hv hw => ?_, fun v hv hr => ?_, fun v hv hp => ?_, fun q h1 h2 => ?_⟩
  · rw [(hlast m v hm hv).1, (hlast l w hl hw).1]
  · obtain ⟨m, hm⟩ := List.mem_iff_getElem?.1 hv
    rw [(hlast m v hm (AckPhase.live_of_ready hr)).2] at hr
    cases hr
  · obtain ⟨m, hm⟩ := List.mem_iff_getElem?.1 hv
    rw [(hlast m v hm (AckPhase.live_of_past hp)).2] at hp
    cases hp
  · refine (h.stocked q h1 h2).imp_right ?_
    rintro ⟨v, hv, hvq⟩
    exact ⟨v, List.mem_append_left _ hv, hvq⟩

/-- **A step of a node that is none of an ack thread's.** -/
theorem Paced.act {start : ℤ} {N : List Entry} (h : Paced x) (hp : PathInv start N x.path) (h0 : 0 ≤ start)
    (hb : x.writeSeq < 2 ^ 31) (a : Act) (ha : ∀ k b, a ≠ .ack k b) : Paced (x.act a) := by
  have hsame : ∀ y : Node, y.commits = x.commits → y.rwb = x.rwb → y.writeSeq = x.writeSeq → Paced y := by
    intro y hc hr hw
    have htop : y.sentTop = x.sentTop := by rw [Node.sentTop, Node.sentTop, hr, hw]
    refine h.frame (congrArg Commits.acks hc) (congrArg Commits.commitSeq hc) (fun z hz => ?_) fun q h1 h2 => ?_
    · rw [show y.sentList = x.sentList from congrArg Commits.sentList hc]
      exact hz
    · omega
  by_cases hrwb : ∃ b, a = .rwb b
  swap
  · obtain ⟨hr, hw, -⟩ := act_progress x a fun b hb => hrwb ⟨b, hb⟩
    refine hsame _ ?_ hr hw
    unfold Node.act
    split
    · rfl
    cases a with
    | write b => exact writeAct_commits x b
    | relay k b => exact relayAct_commits x k b
    | rwb b => exact absurd ⟨b, rfl⟩ hrwb
    | ack k b => exact absurd rfl (ha k b)
    | ackLogEntry r => rfl
  obtain ⟨b, rfl⟩ := hrwb
  unfold Node.act
  split
  · exact h
  cases b with
  | send =>
    simp only [Node.rwbAct]
    split
    · rename_i e hr
      have hlow : start ≤ x.writeSeq := hp.lower
      have hseq : toInt e.seqNum = x.writeSeq := by
        rw [hp.send e hr]
        exact toInt_of_lt (h0.trans hlow) hb
      have htop : x.sentTop = x.writeSeq - 1 := by simp [Node.sentTop, hr]
      split
      · rename_i hnone
        refine h.frame rfl rfl (fun _ hz => hz) fun q h1 h2 => ?_
        -- the number is in the sent list already
        obtain ⟨y, hy, hye⟩ := SentList.pushEntry_eq_none.1 hnone
        have h2 : q ≤ x.writeSeq := h2
        exact ⟨y, hy, by omega⟩
      · rename_i l hl
        have hmem := SentList.pushEntry_eq_some hl
        refine h.frame rfl rfl (fun z hz => (hmem z).2 (Or.inl hz)) fun q h1 h2 => ?_
        have h2 : q ≤ x.writeSeq := h2
        exact ⟨_, (hmem _).2 (Or.inr rfl), by simp only; omega⟩
    · exact h
  | poll | spin | pop | leave | retry | write | bump =>
    simp only [Node.rwbAct]
    repeat' split
    all_goals first
      | exact h
      | exact h.frame rfl rfl (fun _ hz => hz) fun q h1 h2 => by simp_all [Node.sentTop]; omega

end Node

/-! ## Two neighbours -/

section Link

variable {i k : ℕ} {u d u' d' : Node} {t : AckThread}

/-- while a thread downstream is at work and has not called, all threads upstream have ended -/
theorem Wave.idle (h : Wave i u d) (hd : Paced d) (hk : d.acks[k]? = some t) (hl : t.phase.over = false)
    (hcall : ∀ j m, t.phase ≠ .calling j m) : ∀ x ∈ u.acks, x.phase.over = true := by
  intro x hx
  by_contra hover
  obtain ⟨m, hm⟩ := List.mem_iff_getElem?.1 hx
  obtain ⟨c, b, hc⟩ := h.live m x hm (by simpa using hover)
  obtain rfl := hd.one k c t _ hk hc hl rfl
  obtain rfl := Option.some.inj (hk.symm.trans hc)
  exact hcall i m rfl

/-- a handler that an ended call belongs to has no other thread beside it at work -/
theorem Wave.idle_of_over (h : Wave i u d) (hd : Paced d) {b : Bool} {q : ℤ} {j m : ℕ} {x : AckThread}
    (hk : d.acks[k]? = some ⟨b, q, .calling j m⟩) (hm : u.acks[m]? = some x) (hx : x.phase.over = true) :
    ∀ y ∈ u.acks, y.phase.over = true := by
  intro y hy
  by_contra hover
  obtain ⟨l, hl⟩ := List.mem_iff_getElem?.1 hy
  obtain ⟨c, b', hc⟩ := h.live l y hl (by simpa using hover)
  obtain rfl := hd.one k c _ _ hk hc rfl rfl
  have heq := Option.some.inj (hk.symm.trans hc)
  simp only [AckThread.mk.injEq, AckPhase.calling.injEq] at heq
  obtain ⟨-, -, -, rfl⟩ := heq
  obtain rfl := Option.some.inj (hm.symm.trans hl)
  exact hover hx

/-- a thread downstream that has not changed `commitSeq` yet: the two nodes agree -/
theorem Wave.even (h : Wave i u d) (hd : Paced d) (hk : d.acks[k]? = some t) (hl : t.phase.over = false)
    (hp : t.phase.past = false) : u.commitSeq = d.commitSeq := by
  refine h.settled fun x hx => ?_
  obtain ⟨m, hm⟩ := List.mem_iff_getElem?.1 hx
  by_contra hpast
  have hpast : x.phase.past = true := by simpa using hpast
  obtain rfl := hd.one k m t x hk hm hl (AckPhase.live_of_past hpast)
  obtain rfl := Option.some.inj (hk.symm.trans hm)
  rw [hp] at hpast
  cases hpast

/-- neither node moves a thread -/
theorem Wave.of_eq (h : Wave i u d) (hu : u'.acks = u.acks) (hus : u'.commitSeq = u.commitSeq) (hd : d'.acks = d.acks)
    (hds : d'.commitSeq = d.commitSeq) : Wave i u' d' := by
  refine ⟨?_, ?_, ?_, ?_⟩
  · rw [hu, hd]
    exact h.live
  · rw [hu, hus, hd]
    exact h.calling
  · rw [hus, hd]
    exact h.relaying
  · rw [hus, hd, hds]
    exact h.settled

/-- the thread at work upstream takes a step -/
theorem Wave.moveUp (h : Wave i u d) (hd : Paced d) (hk : u.acks[k]? = some t) (hl : t.phase.over = false)
    (v : AckThread) (hacks : u'.acks = u.acks.set k v) (hbg : v.background = t.background) (hseq : v.seq = t.seq)
    (hcounts : t.Counts u.commitSeq → v.Counts u'.commitSeq) : Wave i u' d := by
  obtain ⟨c, b, hc⟩ := h.live k t hk hl
  refine ⟨fun m x hm hx => ?_, fun l b' q j m hl' => ?_, fun x hx hr => ?_, fun hpast => ?_⟩
  · rw [hacks] at hm
    rcases getElem?_of_set hm with ⟨rfl, rfl⟩ | ⟨-, hm⟩
    · rw [hseq]
      exact ⟨c, b, hc⟩
    · exact h.live m x hm hx
  · -- the call is the one that the thread serves
    obtain rfl := hd.one c l _ _ hc hl' rfl rfl
    have heq := Option.some.inj (hc.symm.trans hl')
    simp only [AckThread.mk.injEq, AckPhase.calling.injEq] at heq
    obtain ⟨rfl, rfl, rfl, rfl⟩ := heq
    obtain ⟨-, x, hx, hxb, -, hcnt⟩ := h.calling c b t.seq i k hc
    obtain rfl := Option.some.inj (hk.symm.trans hx)
    refine ⟨rfl, v, ?_, hbg.trans hxb, hseq, hcounts hcnt⟩
    rw [hacks]
    simp [(List.getElem?_eq_some_iff.1 hk).1]
  · obtain ⟨m, hm⟩ := List.mem_iff_getElem?.1 hx
    obtain rfl := hd.one c m _ x hc hm rfl (by rw [hr]; rfl)
    obtain rfl := Option.some.inj (hc.symm.trans hm)
    cases hr
  · have := hpast _ (List.mem_of_getElem? hc)
    cases this

/-- the thread at work downstream takes a step, and is not in a call after it -/
theorem Wave.moveDown (h : Wave i u d) (hk : d.acks[k]? = some t) (v : AckThread) (hacks : d'.acks = d.acks.set k v)
    (hidle : ∀ x ∈ u.acks, x.phase.over = true) (hcall : ∀ j m, v.phase ≠ .calling j m)
    (hrel : v.phase = .relaying → u.commitSeq + 1 = v.seq)
    (hset : v.phase.past = false → u.commitSeq = d'.commitSeq) : Wave i u d' := by
  refine ⟨fun m x hm hx => ?_, fun l b q j m hl => ?_, fun x hx hr => ?_, fun hpast => ?_⟩
  · rw [hidle x (List.mem_of_getElem? hm)] at hx
    cases hx
  · rw [hacks] at hl
    rcases getElem?_of_set hl with ⟨rfl, rfl⟩ | ⟨-, hl⟩
    · exact absurd rfl (hcall j m)
    · exact h.calling l b q j m hl
  · rw [hacks] at hx
    rcases List.mem_or_eq_of_mem_set hx with hx | rfl
    · exact h.relaying x hx hr
    · exact hrel hr
  · refine hset (hpast v ?_)
    rw [hacks]
    exact mem_set_self hk v

/-- the thread at work downstream calls, and a handler appears upstream -/
theorem Wave.call (h : Wave i u d) {b : Bool} {q : ℤ} (hk : d.acks[k]? = some ⟨b, q, .relaying⟩) (hd : Paced d)
    (hu : u'.acks = u.acks ++ [⟨false, q, .start⟩]) (hus : u'.commitSeq = u.commitSeq)
    (hacks : d'.acks = d.acks.set k ⟨b, q, .calling i u.acks.length⟩) : Wave i u' d' := by
  have hidle := h.idle hd hk rfl (fun j m hp => by cases hp)
  have hrel := h.relaying _ (List.mem_of_getElem? hk) rfl
  have hself : d'.acks[k]? = some ⟨b, q, .calling i u.acks.length⟩ := by
    rw [hacks]
    simp [(List.getElem?_eq_some_iff.1 hk).1]
  -- the other threads downstream have ended
  have hother : ∀ (l : ℕ) (x : AckThread), d'.acks[l]? = some x → x.phase.over = false →
      l = k ∧ x = ⟨b, q, .calling i u.acks.length⟩ := by
    intro l x hl hx
    rw [hacks] at hl
    rcases getElem?_of_set hl with hl | ⟨hlk, hl⟩
    · exact hl
    · exact absurd (hd.one l k x _ hl hk hx rfl) hlk
  refine ⟨fun m x hm hx => ?_, fun l b' q' j m hl => ?_, fun x hx hr => ?_, fun hpast => ?_⟩
  · rw [hu] at hm
    rcases getElem?_of_concat hm with hm | ⟨rfl, rfl⟩
    · rw [hidle x (List.mem_of_getElem? hm)] at hx
      cases hx
    · exact ⟨k, b, hself⟩
  · obtain ⟨-, heq⟩ := hother l _ hl rfl
    simp only [AckThread.mk.injEq, AckPhase.calling.injEq] at heq
    obtain ⟨-, rfl, rfl, rfl⟩ := heq
    refine ⟨rfl, ⟨false, q', .start⟩, ?_, rfl, rfl, ?_⟩
    · rw [hu]
      simp
    · rw [hus]
      exact hrel
  · obtain ⟨l, hl⟩ := List.mem_iff_getElem?.1 hx
    obtain ⟨-, rfl⟩ := hother l x hl (by rw [hr]; rfl)
    cases hr
  · have := hpast _ (List.mem_of_getElem? hself)
    cases this

/-- a handler appears downstream, where no thread is at work -/
theorem Wave.arrive (h : Wave i u d) {q : ℤ} (hd : d'.acks = d.acks ++ [⟨false, q, .start⟩])
    (hds : d'.commitSeq = d.commitSeq) : Wave i u d' := by
  refine ⟨fun m x hm hx => ?_, fun l b q j m hl => ?_, fun x hx hr => ?_, fun hpast => ?_⟩
  · obtain ⟨c, b, hc⟩ := h.live m x hm hx
    refine ⟨c, b, ?_⟩
    rw [hd, List.getElem?_append_left (List.getElem?_eq_some_iff.1 hc).1, hc]
  · rw [hd] at hl
    rcases getElem?_of_concat hl with hl | ⟨-, hl⟩
    · exact h.calling l b q j m hl
    · cases hl
  · rw [hd] at hx
    rcases List.mem_append.1 hx with hx | hx
    · exact h.relaying x hx hr
    · rw [List.mem_singleton.1 hx] at hr
      cases hr
  · rw [hds]
    refine h.settled fun x hx => hpast x ?_
    rw [hd]
    exact List.mem_append_left _ hx

/-- **A step of an ack thread upstream.** -/
theorem Wave.ackUp {start : ℤ} (h : Wave i u d) (hd : Paced d) (hu : CommitInv start u) (h0 : 0 ≤ start)
    (hb : u.sentTop < 2 ^ 31) (hbg : ∀ t ∈ u.acks, t.background = false) (k : ℕ) (a : AckAct) :
    Wave i (u.ackAct k a) d := by
  have hstep := ackAct_step u k a
  generalize u.ackAct k a = y at hstep ⊢
  cases hstep with
  | stay => exact h
  | takeUp hk | retire hk =>
    have := hbg _ (List.mem_of_getElem? hk)
    cases this
  | turn hk | pop hk | commit hk | log hk | retry hk => exact h.moveUp hd hk rfl _ rfl rfl rfl id
  | @refuse b q hk =>
    obtain rfl : b = false := hbg _ (List.mem_of_getElem? hk)
    exact h.moveUp hd hk rfl _ rfl rfl rfl id
  | @leave b q hk =>
    obtain rfl : b = false := hbg _ (List.mem_of_getElem? hk)
    exact h.moveUp hd hk rfl _ rfl rfl rfl id
  | @bump b q hk =>
    obtain rfl : b = false := hbg _ (List.mem_of_getElem? hk)
    obtain ⟨hseq, htop, -⟩ := hu.held k _ hk rfl
    have hlow := hu.lower
    simp only at hseq htop
    exact h.moveUp hd hk rfl _ rfl rfl rfl fun _ => toInt_of_lt (by omega) (by omega)

/-- **A step of an ack thread downstream.** -/
theorem Wave.ackDown {start : ℤ} (h : Wave i u d) (hd : Paced d) (hc : CommitInv start d) (k : ℕ) (a : AckAct)
    (hrelays : ∀ t ∈ d.acks, t.relays d.state = true)
    (hfail : a = .retry → ∀ b q j m, d.acks[k]? = some ⟨b, q, .calling j m⟩ → u.ackFailed m = true) :
    Wave i u (d.ackAct k a) := by
  have hstep := ackAct_step d k a
  generalize d.ackAct k a = y at hstep ⊢
  -- a thread that has not changed `commitSeq`, and does not
  have hfree : ∀ {t v : AckThread}, d.acks[k]? = some t → t.phase.over = false → t.phase.past = false →
      v.phase.past = false → ∀ y : Node, y.acks = d.acks.set k v → y.commitSeq = d.commitSeq → Wave i u y := by
    intro t v hk hl hp hv y hacks hy
    refine h.moveDown hk v hacks (h.idle hd hk hl ?_) ?_ ?_ fun _ => hy ▸ h.even hd hk hl hp
    · rintro j m hj
      rw [hj] at hp
      cases hp
    · rintro j m hj
      rw [hj] at hv
      cases hv
    · intro hj
      rw [hj] at hv
      cases hv
  cases hstep with
  | stay => exact h
  | takeUp hk | retire hk | turn hk | pop hk | commit hk | log hk => exact hfree hk rfl rfl rfl _ rfl rfl
  | @refuse b q hk =>
    refine hfree hk rfl rfl ?_ _ rfl rfl
    cases b <;> rfl
  | @bump b q hk =>
    obtain ⟨hseq, htop, -⟩ := hc.held k _ hk rfl
    have heven := h.even hd hk rfl rfl
    simp only at hseq
    refine h.moveDown hk _ rfl (h.idle hd hk rfl fun j m hj => by cases hj) (fun j m hj => by cases hj) (fun _ => ?_)
      fun hp => by cases hp
    show u.commitSeq + 1 = q
    omega
  | @leave b q hk hr =>
    have hrel : AckThread.relays ⟨b, q, .relaying⟩ d.state = true := hrelays _ (List.mem_of_getElem? hk)
    rw [hr] at hrel
    cases hrel
  | @retry b q j m hk =>
    obtain ⟨-, x, hx, -, hseq, hcnt⟩ := h.calling k b q j m hk
    have hf := hfail rfl b q j m hk
    have hph := phase_of_ackFailed hf hx
    refine h.moveDown hk _ rfl (h.idle_of_over hd hk hx (by rw [hph]; rfl)) (fun j m hj => by cases hj) (fun _ => ?_)
      fun hp => by cases hp
    rw [AckThread.Counts, hph, hseq] at hcnt
    exact hcnt

/-- the call of a thread downstream is answered -/
theorem Wave.answered (h : Wave i u d) (hd : Paced d) {b : Bool} {q : ℤ} {j m : ℕ}
    (hk : d.acks[k]? = some ⟨b, q, .calling j m⟩) (hans : u.ackAnswered m = true) : Wave i u (d.wire (.ackOk k)) := by
  obtain ⟨-, x, hx, -, hseq, hcnt⟩ := h.calling k b q j m hk
  have hph := phase_of_ackAnswered hans hx
  have hpast : q = d.commitSeq := hd.past _ (List.mem_of_getElem? hk) rfl
  rw [AckThread.Counts, hph, hseq] at hcnt
  have heq : u.commitSeq = d.commitSeq := Eq.trans hcnt hpast
  simp only [Node.wire, hk]
  refine h.moveDown hk (AckThread.finish ⟨b, q, .relaying⟩) rfl (h.idle_of_over hd hk hx (by rw [hph]; rfl)) ?_ ?_
    fun _ => heq
  · cases b <;> exact fun j m hj => by cases hj
  · cases b <;> exact fun hj => by cases hj

end Link

/-! ## The tail -/

/-- the one thread of the tail, which does not end -/
def Node.Turning (x : Node) : Prop := ∃ q p, x.acks = [⟨true, q, p⟩] ∧ p.over = false

section Tail

variable {x : Node}

theorem Node.Turning.of_acks {y : Node} (h : x.Turning) (hacks : y.acks = x.acks) : y.Turning := by
  unfold Node.Turning
  rw [hacks]
  exact h

theorem Node.Turning.set {q : ℤ} {p : AckPhase} {k : ℕ} {t : AckThread} (h : x.acks = [⟨true, q, p⟩])
    (hk : x.acks[k]? = some t) {y : Node} {q' : ℤ} {p' : AckPhase} (hy : y.acks = x.acks.set k ⟨true, q', p'⟩)
    (hp : p'.over = false) : y.Turning := by
  rw [h] at hk
  obtain ⟨hk, -⟩ := List.getElem?_eq_some_iff.1 hk
  obtain rfl : k = 0 := by simpa using hk
  exact ⟨q', p', by rw [hy, h]; rfl, hp⟩

theorem turning_ackAct (h : x.Turning) (hs : x.state = .tail ∨ x.state = .single) (k : ℕ) (a : AckAct) :
    (x.ackAct k a).Turning := by
  obtain ⟨q, p, hacks, hp⟩ := id h
  have hbg : ∀ {t : AckThread}, x.acks[k]? = some t → t.background = true := by
    intro t hk
    have hmem := List.mem_of_getElem? hk
    rw [hacks] at hmem
    rw [List.mem_singleton.1 hmem]
  have hstep := ackAct_step x k a
  generalize hy : x.ackAct k a = y at hstep ⊢
  cases hstep with
  | stay => exact h
  | retire hk =>
    -- the loop of the background thread goes on in a tail
    have hgo : x.ackAct k .start = x.setAck k ⟨true, x.commitSeq + 1, .ready⟩ := by
      simp [Node.ackAct, hk, Node.ackStart, hs]
    rw [← hy, hgo]
    exact Node.Turning.set hacks hk rfl rfl
  | takeUp hk => exact Node.Turning.set hacks hk rfl rfl
  | turn hk =>
    have := hbg hk
    cases this
  | @refuse b q hk | @leave b q hk =>
    obtain rfl : b = true := hbg hk
    exact Node.Turning.set hacks hk rfl rfl
  | @pop b q e l hk | @commit b q e hk | @log b q e hk | @bump b q hk | @retry b q j m hk =>
    obtain rfl : b = true := hbg hk
    exact Node.Turning.set hacks hk rfl rfl

theorem turning_wire (h : x.Turning) (w : Wire) (hw : ∀ q, w ≠ .ackArrives q) : (x.wire w).Turning := by
  obtain ⟨q, p, hacks, hp⟩ := id h
  have hbg : ∀ {k : ℕ} {t : AckThread}, x.acks[k]? = some t → t.background = true := by
    intro k t hk
    have hmem := List.mem_of_getElem? hk
    rw [hacks] at hmem
    rw [List.mem_singleton.1 hmem]
  cases w with
  | ackArrives q => exact absurd rfl (hw q)
  | relayArrives _ => exact h.of_acks rfl
  | relaySent _ _ | relayOk =>
    simp only [Node.wire]
    split
    · exact h.of_acks rfl
    · exact h
  | ackSent k j m =>
    simp only [Node.wire]
    split
    · rename_i b seq hk
      obtain rfl : b = true := hbg hk
      exact Node.Turning.set hacks hk rfl rfl
    · exact h
  | ackOk k =>
    simp only [Node.wire]
    split
    · rename_i b seq j m hk
      obtain rfl : b = true := hbg hk
      exact Node.Turning.set hacks hk rfl rfl
    · exact h

end Tail

/-! ## The head -/

/-- no thread is in a call -/
def Node.Topmost (x : Node) : Prop := ∀ t ∈ x.acks, ∀ j m, t.phase ≠ .calling j m

section Head

variable {x y : Node}

theorem Node.Topmost.set {k : ℕ} {v : AckThread} (h : x.Topmost) (hy : y.acks = x.acks.set k v)
    (hv : ∀ j m, v.phase ≠ .calling j m) : y.Topmost := by
  intro t ht
  rw [hy] at ht
  rcases List.mem_or_eq_of_mem_set ht with ht | rfl
  · exact h t ht
  · exact hv

theorem Node.Topmost.of_acks (h : x.Topmost) (hacks : y.acks = x.acks) : y.Topmost := by
  unfold Node.Topmost
  rw [hacks]
  exact h

theorem topmost_ackAct (h : x.Topmost) (k : ℕ) (a : AckAct) : (x.ackAct k a).Topmost := by
  have hstep := ackAct_step x k a
  generalize x.ackAct k a = y at hstep ⊢
  cases hstep with
  | stay => exact h
  | @refuse b q _ _ | @leave b q _ _ =>
    refine h.set (v := ⟨b, q, _⟩) rfl ?_
    cases b <;> exact fun j m hp => by cases hp
  | takeUp _ _ | retire _ | turn _ _ | pop _ _ | commit _ | log _ | bump _ | retry _ =>
    exact h.set rfl fun j m hp => by cases hp

end Head

/-! ## The chain -/

structure Returning (n start : ℕ) (log : ReplayLog) (s : Nodes) : Prop where
  flowing : Flowing n start log s
  paced : ∀ i < n, Paced (s i)
  wave : ∀ i, i + 1 < n → Wave i (s i) (s (i + 1))
  tail : (s (n - 1)).Turning
  top : (s 0).Topmost

section Chain

variable {n start : ℕ} {log : ReplayLog} {s : Nodes}

theorem Flowing.back (h : Flowing n start log s) {i : ℕ} (hi : i < n) : CommitInv start (s i) :=
  h.inStep.order.back.node i hi

theorem Flowing.writeSeq_lt (h : Flowing n start log s) {i : ℕ} (hi : i < n) : (s i).writeSeq < 2 ^ 31 := by
  have hb := h.inStep.order.bounded
  unfold Bounded at hb
  exact h.inStep.order.path.writeSeq_lt hb hi

/-- the threads of a node that has a downstream neighbour are handlers -/
theorem Flowing.handlers (h : Flowing n start log s) {i : ℕ} (hi : i + 1 < n) :
    ∀ t ∈ (s i).acks, t.background = false := by
  intro t ht
  obtain ⟨k, hk⟩ := List.mem_iff_getElem?.1 ht
  exact ((h.inStep.order.back.link i hi).handler k t hk).1

theorem roleOf_succ {i : ℕ} (hi : i + 1 < n) : roleOf n (i + 1) = .middle ∨ roleOf n (i + 1) = .tail := by
  unfold roleOf
  rw [if_neg (by omega), if_neg (Nat.succ_ne_zero i)]
  split_ifs
  · exact Or.inr rfl
  · exact Or.inl rfl

/-- a thread of any node but the head calls upstream -/
theorem Returning.relays (h : Returning n start log s) {i : ℕ} (hi : i + 1 < n) :
    ∀ t ∈ (s (i + 1)).acks, t.relays (s (i + 1)).state = true := by
  intro t ht
  rw [conf_state (h.flowing.sequence.conf (i + 1)) hi]
  by_cases hl : i + 2 < n
  · have hbg := h.flowing.handlers hl t ht
    rcases roleOf_succ hi with hr | hr <;> simp [AckThread.relays, hbg, hr]
  · have hr : roleOf n (i + 1) = .tail := by
      unfold roleOf
      rw [if_neg (by omega), if_neg (by omega), if_pos (by omega)]
    rw [hr, AckThread.relays]
    split <;> rfl

/-- a step of a node that is none of an ack thread's leaves the threads and `commitSeq` -/
theorem act_acks (x : Node) (a : Act) (ha : ∀ k b, a ≠ .ack k b) :
    (x.act a).acks = x.acks ∧ (x.act a).commitSeq = x.commitSeq := by
  unfold Node.act
  split
  · exact ⟨rfl, rfl⟩
  cases a with
  | write b => exact ⟨congrArg Commits.acks (writeAct_commits x b), congrArg Commits.commitSeq (writeAct_commits x b)⟩
  | relay k b =>
    exact ⟨congrArg Commits.acks (relayAct_commits x k b), congrArg Commits.commitSeq (relayAct_commits x k b)⟩
  | rwb b =>
    cases b <;> simp only [Node.rwbAct] <;> repeat' split
    all_goals exact ⟨rfl, rfl⟩
  | ack k b => exact absurd rfl (ha k b)
  | ackLogEntry r => exact ⟨rfl, rfl⟩

/-- a step of node `i` and the wave between it and the next one -/
theorem Returning.actUp (h : Returning n start log s) {i : ℕ} (hi : i + 1 < n) (a : Act) :
    Wave i ((s i).act a) (s (i + 1)) := by
  have hw := h.wave i hi
  by_cases ha : ∃ k b, a = .ack k b
  · obtain ⟨k, b, rfl⟩ := ha
    have hlt := h.flowing.writeSeq_lt (Nat.lt_of_succ_lt hi)
    unfold Node.act
    split
    · exact hw
    · exact hw.ackUp (h.paced (i + 1) hi) (h.flowing.back (Nat.lt_of_succ_lt hi)) (Int.natCast_nonneg start)
        ((sentTop_le _).trans_lt hlt) (h.flowing.handlers hi) k b
  · obtain ⟨hacks, hseq⟩ := act_acks (s i) a fun k b hb => ha ⟨k, b, hb⟩
    exact hw.of_eq hacks hseq rfl rfl

/-- a step of node `i + 1` and the wave between it and the one before -/
theorem Returning.actDown (h : Returning n start log s) {i : ℕ} (hi : i + 1 < n) (a : Act)
    (hf : TrueFailure s (.act (i + 1) a)) : Wave i (s i) ((s (i + 1)).act a) := by
  have hw := h.wave i hi
  by_cases ha : ∃ k b, a = .ack k b
  · obtain ⟨k, b, rfl⟩ := ha
    unfold Node.act
    split
    · exact hw
    · refine hw.ackDown (h.paced (i + 1) hi) (h.flowing.back hi) k b (h.relays hi) ?_
      rintro rfl c q j m hk
      obtain ⟨rfl, -⟩ := hw.calling k c q j m hk
      exact hf (j, m) (by rw [hk]; rfl)
  · obtain ⟨hacks, hseq⟩ := act_acks (s (i + 1)) a fun k b hb => ha ⟨k, b, hb⟩
    exact hw.of_eq rfl rfl hacks hseq

theorem Returning.actWave (h : Returning n start log s) (i : ℕ) (a : Act) (hf : TrueFailure s (.act i a)) {j : ℕ}
    (hj : j + 1 < n) : Wave j (step s (.act i a) j) (step s (.act i a) (j + 1)) := by
  simp only [step]
  by_cases hji : j = i
  · subst hji
    rw [Function.update_self, Function.update_of_ne (Nat.succ_ne_self j)]
    exact h.actUp hj a
  · rw [Function.update_of_ne hji]
    by_cases hji' : j + 1 = i
    · subst hji'
      rw [Function.update_self]
      exact h.actDown hj a hf
    · rw [Function.update_of_ne hji']
      exact h.wave j hj

theorem Returning.act_paced (h : Returning n start log s) {i : ℕ} (hi : i < n) (a : Act) : Paced ((s i).act a) := by
  have hlt := h.flowing.writeSeq_lt hi
  by_cases ha : ∃ k b, a = .ack k b
  · obtain ⟨k, b, rfl⟩ := ha
    unfold Node.act
    split
    · exact h.paced i hi
    · exact paced_ackAct (h.paced i hi) (h.flowing.back hi) (Int.natCast_nonneg start) ((sentTop_le _).trans_lt hlt) k b
  · exact (h.paced i hi).act (h.flowing.inStep.order.path.node i hi) (Int.natCast_nonneg start) hlt a
      fun k b hb => ha ⟨k, b, hb⟩

/-- a call of thread `k` of node `j + 1`: what it leaves of the nodes -/
theorem step_sendAck_nodes {k j : ℕ} {seq : ℤ} (hs : step s (.sendAck (j + 1) k) =
    Nodes.wire (Nodes.wire s (j + 1) (.ackSent k j (s j).acks.length)) j (.ackArrives seq)) (m : ℕ) :
    step s (.sendAck (j + 1) k) m = if m = j then (s j).wire (.ackArrives seq)
      else if m = j + 1 then (s (j + 1)).wire (.ackSent k j (s j).acks.length) else s m := by
  rw [hs]
  by_cases h1 : m = j
  · subst h1
    simp [Nodes.wire]
  · by_cases h2 : m = j + 1
    · subst h2
      simp [Nodes.wire]
    · simp [Nodes.wire, h1, h2]

theorem ackSent_acks {x : Node} {k j m : ℕ} {b : Bool} {q : ℤ} (hk : x.acks[k]? = some ⟨b, q, .relaying⟩) :
    x.wire (.ackSent k j m) = x.setAck k ⟨b, q, .calling j m⟩ := by
  simp only [Node.wire, hk]

/-- **A call to the upstream node.** -/
theorem Returning.sendAck (h : Returning n start log s) (i k : ℕ) (hfl : Flowing n start log (step s (.sendAck i k))) :
    Returning n start log (step s (.sendAck i k)) := by
  rcases step_sendAck s i k with hs | ⟨seq, j, ht, hs⟩
  · rw [hs]
    exact h
  obtain ⟨b, hk, hu, -, -⟩ := ackTarget_eq_some ht
  obtain ⟨hin, rfl⟩ := conf_upstream (h.flowing.sequence.conf i) hu
  have hpj := h.paced (j + 1) hin
  have hw := h.wave j hin
  have hnodes := step_sendAck_nodes hs
  have hidle := hw.idle hpj hk rfl fun l m hp => by cases hp
  rw [ackSent_acks hk] at hnodes
  refine ⟨hfl, fun m hm => ?_, fun m hm => ?_, ?_, ?_⟩
  · rw [hnodes]
    split_ifs with h1 h2
    · exact paced_ackArrives (h.paced j (by omega)) hidle seq
    · exact ackSent_acks hk ▸ paced_ackSent hpj k j _
    · exact h.paced m hm
  · rw [hnodes, hnodes]
    by_cases h1 : m = j
    · subst h1
      rw [if_pos rfl, if_neg (Nat.succ_ne_self m), if_pos rfl]
      exact hw.call hk hpj rfl rfl rfl
    · rw [if_neg h1]
      by_cases h2 : m + 1 = j
      · subst h2
        rw [if_pos rfl, if_neg (by omega)]
        exact (h.wave m hm).arrive rfl rfl
      · rw [if_neg h2]
        by_cases h3 : m = j + 1
        · subst h3
          rw [if_pos rfl, if_neg (by omega)]
          exact (h.wave _ hm).moveUp (h.paced _ hm) hk rfl _ rfl rfl rfl id
        · rw [if_neg h3, if_neg (by omega)]
          exact h.wave m hm
  · rw [hnodes, if_neg (by omega)]
    split_ifs with h1
    · have hturn := h.tail
      rw [h1] at hturn
      exact ackSent_acks hk ▸ turning_wire hturn (.ackSent k j (s j).acks.length) fun q hq => by cases hq
    · exact h.tail
  · rw [hnodes, if_neg (Nat.succ_ne_zero j).symm]
    split_ifs with h1
    · subst h1
      intro t ht
      rcases List.mem_append.1 ht with ht | ht
      · exact h.top t ht
      · rw [List.mem_singleton.1 ht]
        exact fun l m hp => by cases hp
    · exact h.top

/-- **The call is answered.** -/
theorem Returning.ackOk (h : Returning n start log s) (i k : ℕ) (hfl : Flowing n start log (step s (.ackOk i k))) :
    Returning n start log (step s (.ackOk i k)) := by
  have hcall : step s (.ackOk i k) = s ∨ ∃ b q j m, (s i).acks[k]? = some ⟨b, q, .calling j m⟩ ∧
      (s j).ackAnswered m = true ∧ step s (.ackOk i k) = Nodes.wire s i (.ackOk k) := by
    simp only [step]
    split
    · rename_i b q j m hk
      split_ifs with hd ha
      · exact Or.inl rfl
      · exact Or.inr ⟨b, q, j, m, hk, ha, rfl⟩
      · exact Or.inl rfl
    · exact Or.inl rfl
  rcases hcall with hs | ⟨b, q, j, m, hk, hans, hs⟩
  · rw [hs]
    exact h
  rw [hs] at hfl ⊢
  have hwire : (s i).wire (.ackOk k) = (s i).setAck k (AckThread.finish ⟨b, q, .relaying⟩) := by
    simp only [Node.wire, hk]
  have hi : i ≠ 0 := by
    rintro rfl
    exact h.top _ (List.mem_of_getElem? hk) j m rfl
  refine ⟨hfl, fun l hl => ?_, fun l hl => ?_, ?_, ?_⟩
  all_goals unfold Nodes.wire
  · by_cases hli : l = i
    · subst hli
      rw [Function.update_self]
      exact paced_ackOk (h.paced l hl) k
    · rw [Function.update_of_ne hli]
      exact h.paced l hl
  · by_cases hli : l = i
    · subst hli
      rw [Function.update_self, Function.update_of_ne (Nat.succ_ne_self l)]
      obtain rfl : b = false := h.flowing.handlers hl _ (List.mem_of_getElem? hk)
      rw [hwire]
      exact (h.wave l hl).moveUp (h.paced _ hl) hk rfl _ rfl rfl rfl id
    · rw [Function.update_of_ne hli]
      by_cases hli' : l + 1 = i
      · subst hli'
        rw [Function.update_self]
        obtain ⟨rfl, -⟩ := (h.wave l hl).calling k b q j m hk
        exact (h.wave j hl).answered (h.paced _ hl) hk hans
      · rw [Function.update_of_ne hli']
        exact h.wave l hl
  · by_cases hni : n - 1 = i
    · subst hni
      rw [Function.update_self]
      exact turning_wire h.tail (.ackOk k) fun q hq => by cases hq
    · rw [Function.update_of_ne hni]
      exact h.tail
  · rw [Function.update_of_ne hi.symm]
    exact h.top

/-- what the way back sees of a node -/
def Node.returnView (x : Node) : Commits × ℤ := (x.commits, x.sentTop)

/-- the exchanges of the way down are not seen from the way back -/
theorem step_relay_returnView (s : Nodes) (i j : ℕ) : (step s (.sendRelay i) j).returnView = (s j).returnView ∧
    (step s (.relayOk i) j).returnView = (s j).returnView := by
  have hw : ∀ (s : Nodes) m w, ((s m).wire w).returnView = (s m).returnView →
      (Nodes.wire s m w j).returnView = (s j).returnView := by
    intro s m w hx
    by_cases hjm : j = m
    · subst hjm
      simpa [Nodes.wire] using hx
    · simp [Nodes.wire, hjm]
  refine ⟨?_, ?_⟩
  · rcases step_sendRelay s i with hs | ⟨e, m, ht, hs⟩ <;> rw [hs]
    obtain ⟨hr, -, -⟩ := relayTarget_eq_some ht
    rw [hw _ m (.relayArrives (relayRequest e)) rfl]
    refine hw _ _ _ ?_
    simp [Node.wire, hr, Node.returnView, Node.commits, Node.sentTop]
  · rcases step_relayOk s i with hs | ⟨e, m, k, hr, -, hs⟩ <;> rw [hs]
    refine hw _ _ _ ?_
    simp [Node.wire, hr, Node.returnView, Node.commits, Node.sentTop]

/-- a step that is not seen from the way back -/
theorem Returning.of_returnView (h : Returning n start log s) {s' : Nodes} (hfl : Flowing n start log s')
    (hview : ∀ i, (s' i).returnView = (s i).returnView) : Returning n start log s' := by
  have hacks : ∀ i, (s' i).acks = (s i).acks := fun i => congrArg (fun v => v.1.acks) (hview i)
  have hseq : ∀ i, (s' i).commitSeq = (s i).commitSeq := fun i => congrArg (fun v => v.1.commitSeq) (hview i)
  have hsent : ∀ i, (s' i).sentList = (s i).sentList := fun i => congrArg (fun v => v.1.sentList) (hview i)
  have htop : ∀ i, (s' i).sentTop = (s i).sentTop := fun i => congrArg Prod.snd (hview i)
  refine ⟨hfl, fun i hi => ?_, fun i hi => ?_, h.tail.of_acks (hacks _), h.top.of_acks (hacks 0)⟩
  · refine (h.paced i hi).frame (hacks i) (hseq i) (fun y hy => by rwa [hsent]) fun q h1 h2 => ?_
    rw [htop] at h2
    exact absurd h1 (not_lt.2 h2)
  · exact (h.wave i hi).of_eq (hacks i) (hseq i) (hacks (i + 1)) (hseq (i + 1))

theorem Returning.act_turning (h : Returning n start log s) (hn : 0 < n) (a : Act) : ((s (n - 1)).act a).Turning := by
  by_cases ha : ∃ k b, a = .ack k b
  · obtain ⟨k, b, rfl⟩ := ha
    unfold Node.act
    split
    · exact h.tail
    · exact turning_ackAct h.tail (h.flowing.state_last hn) k b
  · exact h.tail.of_acks (act_acks _ a fun k b hb => ha ⟨k, b, hb⟩).1

theorem Returning.act_topmost (h : Returning n start log s) (a : Act) : ((s 0).act a).Topmost := by
  by_cases ha : ∃ k b, a = .ack k b
  · obtain ⟨k, b, rfl⟩ := ha
    unfold Node.act
    split
    · exact h.top
    · exact topmost_ackAct h.top k b
  · exact h.top.of_acks (act_acks _ a fun k b hb => ha ⟨k, b, hb⟩).1

/-- **Every step that keeps the rules leaves one wave at a time.** -/
theorem returning_step (hn : 0 < n) (hs : start < 2 ^ 31) (h : Returning n start log s) (e : Event)
    (hr : Orderly log s e) : Returning n start log (step s e) := by
  have hfl := flowing_step hn hs h.flowing e hr
  cases e with
  | act i a =>
    refine ⟨hfl, fun j hj => ?_, fun j hj => h.actWave i a hr.failure hj, ?_, ?_⟩
    all_goals simp only [step]
    · by_cases hji : j = i
      · subst hji
        rw [Function.update_self]
        exact h.act_paced hj a
      · rw [Function.update_of_ne hji]
        exact h.paced j hj
    · by_cases hni : n - 1 = i
      · subst hni
        rw [Function.update_self]
        exact h.act_turning hn a
      · rw [Function.update_of_ne hni]
        exact h.tail
    · by_cases hi : 0 = i
      · subst hi
        rw [Function.update_self]
        exact h.act_topmost a
      · rw [Function.update_of_ne hi]
        exact h.top
  | sendRelay i => exact h.of_returnView hfl fun j => (step_relay_returnView s i j).1
  | relayOk i => exact h.of_returnView hfl fun j => (step_relay_returnView s i j).2
  | sendAck i k => exact h.sendAck i k hfl
  | ackOk i k => exact h.ackOk i k hfl

theorem returning_stable (n start : ℕ) (hn : 0 < n) (hs : start < 2 ^ 31) (log : ReplayLog) :
    Returning n start log (stable n start log) := by
  have hacks : ∀ i, i < n → (stable n start log i).acks = if i + 1 = n then [⟨true, 0, .start⟩] else [] := by
    intro i hi
    unfold stable
    rw [if_pos hi]
    rfl
  have hmem : ∀ i, i < n → ∀ t ∈ (stable n start log i).acks, t = ⟨true, 0, .start⟩ ∧ i + 1 = n := by
    intro i hi t ht
    rw [hacks i hi] at ht
    split_ifs at ht with hl
    · exact ⟨List.mem_singleton.1 ht, hl⟩
    · cases ht
  have hseq : ∀ i, (stable n start log i).commitSeq = start ∧ (stable n start log i).sentTop = start := by
    intro i
    unfold stable
    split_ifs <;> exact ⟨rfl, rfl⟩
  refine ⟨flowing_stable n start hn hs log, fun i hi => ⟨fun k m t u hk hm _ _ => ?_, fun t ht hr => ?_,
    fun t ht hp => ?_, fun q h1 h2 => ?_⟩, fun i hi => ⟨fun m t hm _ => ?_, fun k b q j m hk => ?_, fun t ht hr => ?_, fun _ => ?_⟩, ?_,
    fun t ht j m hp => ?_⟩
  · rw [hacks i hi] at hk hm
    split_ifs at hk hm
    · have h1 := (List.getElem?_eq_some_iff.1 hk).1
      have h2 := (List.getElem?_eq_some_iff.1 hm).1
      rw [List.length_singleton] at h1 h2
      omega
    · simp at hk
  · rw [(hmem i hi t ht).1] at hr
    cases hr
  · rw [(hmem i hi t ht).1] at hp
    cases hp
  · rw [(hseq i).1] at h1
    rw [(hseq i).2] at h2
    exact absurd h1 (not_lt.2 h2)
  · have := (hmem i (by omega) t (List.mem_of_getElem? hm)).2
    omega
  · have := (hmem (i + 1) hi _ (List.mem_of_getElem? hk)).1
    cases this
  · rw [(hmem (i + 1) hi t ht).1] at hr
    cases hr
  · rw [(hseq i).1, (hseq (i + 1)).1]
  · refine ⟨0, .start, ?_, rfl⟩
    rw [hacks (n - 1) (by omega), if_pos (by omega)]
  · rw [(hmem 0 hn t ht).1] at hp
    cases hp

theorem returning_run (hn : 0 < n) (hs : start < 2 ^ 31) (log : ReplayLog) (es : List Event)
    (hm : Meets step (Orderly log) (stable n start log) es) :
    Returning n start log (run step (stable n start log) es) :=
  run_inv_of_meets step (Orderly log) (Returning n start log) (fun _ e h hr => returning_step hn hs h e hr) _ es
    (returning_stable n start hn hs log) hm

end Chain

end ChainedBlockStorage.Chain
