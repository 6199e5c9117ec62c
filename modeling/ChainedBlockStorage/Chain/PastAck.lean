/-
A `RelayWriteAck` that comes too late.

The handler waits until `commitSeq + 1` is its number. The caller repeats the call whenever it fails, also when the
ack has taken effect; and the thread that a role change starts commits numbers by itself.

- `no_wait_for_past`: no handler waits for a number that is committed, in every run of joins, role changes and failures
  in which an ack goes only to a node that neither has the number nor is at it, no background thread takes up a number
  that a handler waits for, and no number is popped twice.
- `redelivered_ack_waits`: an ack for a committed number leaves a handler that waits, and no step of it does anything.
- `retried_ack_waits`: the call fails after the head has committed, and the tail repeats it.
-/
import ChainedBlockStorage.Chain.Cluster
import ChainedBlockStorage.Chain.Agreement

namespace ChainedBlockStorage.Chain

open Run Tables Positions

/-! ## What a thread is at -/

/-- a handler at its loop on `commitSeq` -/
def AckThread.waits (t : AckThread) : Bool :=
  !t.background && match t.phase with
    | .start => true
    | _ => false

/-- the entry is popped, and `commitSeq` not yet changed -/
def AckPhase.commits : AckPhase → Bool
  | .popped _ | .stored _ | .logged => true
  | _ => false

/-- the number that a thread waits for, is about to pop, or commits -/
def AckThread.current (t : AckThread) : Option ℤ :=
  match t.phase with
  | .start => if t.background then none else some t.seq
  | .ready | .popped _ | .stored _ | .logged => some t.seq
  | _ => none

/-- number `seq` is not committed here, and no thread is at it -/
def Node.Open (n : Node) (seq : ℤ) : Prop := n.commitSeq < seq ∧ ∀ t ∈ n.acks, t.current ≠ some seq

instance (n : Node) (seq : ℤ) : Decidable (n.Open seq) :=
  inferInstanceAs (Decidable (n.commitSeq < seq ∧ ∀ t ∈ n.acks, t.current ≠ some seq))

/-- the number whose entry thread `k` takes off the sent list when it calls `popEntry` -/
def Node.pops (n : Node) (k : ℕ) : Option ℤ :=
  match n.acks[k]? with
  | some ⟨_, seq, .ready⟩ => if (n.sentList.popEntry (toInt seq)).isSome then some seq else none
  | _ => none

/-- the number that background thread `k` takes up when it reads `commitSeq` -/
def Node.takesUp (n : Node) (k : ℕ) : Option ℤ :=
  match n.acks[k]? with
  | some ⟨true, _, .start⟩ => if n.state = .tail ∨ n.state = .single then some (n.commitSeq + 1) else none
  | _ => none

/-- the entry that thread `k` takes off the sent list has the next number, and nobody else is committing -/
def Node.PopsNext (n : Node) (k : ℕ) : Prop :=
  ∀ seq ∈ n.pops k, seq = n.commitSeq + 1 ∧ ∀ t ∈ n.acks, t.phase.commits = false

instance (n : Node) (k : ℕ) : Decidable (n.PopsNext k) :=
  inferInstanceAs (Decidable (∀ seq ∈ n.pops k, seq = n.commitSeq + 1 ∧ ∀ t ∈ n.acks, t.phase.commits = false))

/-- an ack goes only to a node where its number is open, a background thread takes up no number that a handler waits
for, and a number is popped only once -/
def AckedOnce (c : Cluster) : ClusterEvent → Prop
  | .node (.sendAck i k) => ∀ x ∈ (c.nodes i).ackTarget k, (c.nodes x.2).Open x.1
  | .node (.act i (.ack k .start)) => ∀ seq ∈ (c.nodes i).takesUp k,
      ∀ t ∈ (c.nodes i).acks, t.waits = true → t.seq ≠ seq
  | .node (.act i (.ack k .pop)) => (c.nodes i).PopsNext k
  | _ => True

instance (c : Cluster) : ∀ e, Decidable (AckedOnce c e)
  | .node (.sendAck i k) => inferInstanceAs (Decidable (∀ x ∈ (c.nodes i).ackTarget k, (c.nodes x.2).Open x.1))
  | .node (.act i (.ack k .start)) => inferInstanceAs (Decidable (∀ seq ∈ (c.nodes i).takesUp k,
      ∀ t ∈ (c.nodes i).acks, t.waits = true → t.seq ≠ seq))
  | .node (.act i (.ack k .pop)) => inferInstanceAs (Decidable ((c.nodes i).PopsNext k))
  | .node (.act _ (.ack _ .commit)) | .node (.act _ (.ack _ .log)) | .node (.act _ (.ack _ .bump))
  | .node (.act _ (.ack _ .leave)) | .node (.act _ (.ack _ .retry)) | .node (.act _ (.write _))
  | .node (.act _ (.relay _ _)) | .node (.act _ (.rwb _)) | .node (.act _ (.ackLogEntry _)) | .node (.sendRelay _)
  | .node (.relayOk _) | .node (.ackOk _ _) | .crash _ | .restore _ _ | .updateReplayLog _ _ | .changeMode _ _ _ _
  | .registered _ _ | .resend _ _ _ _ => isTrue trivial

/-! ## Who commits -/

/-- the number being committed is the next one, and one thread commits it -/
structure CommitsNext (n : Node) : Prop where
  next : ∀ t ∈ n.acks, t.phase.commits = true → t.seq = n.commitSeq + 1
  one : ∀ (k m : ℕ) t u, n.acks[k]? = some t → n.acks[m]? = some u → t.phase.commits = true →
    u.phase.commits = true → k = m

section CommitsNext

variable {n : Node}

theorem CommitsNext.congr {n' : Node} (h : CommitsNext n) (hc : n'.commitSeq = n.commitSeq) (ha : n'.acks = n.acks) :
    CommitsNext n' :=
  ⟨by rw [hc, ha]; exact h.next, by rw [ha]; exact h.one⟩

theorem CommitsNext.setAck (h : CommitsNext n) {k : ℕ} {t : AckThread} (hk : n.acks[k]? = some t) {u : AckThread}
    (hcom : u.phase.commits = true → t.phase.commits = true ∧ u.seq = t.seq ∨
      u.seq = n.commitSeq + 1 ∧ ∀ v ∈ n.acks, v.phase.commits = false) : CommitsNext (n.setAck k u) := by
  have hnew : ∀ (m : ℕ) v, m ≠ k → n.acks[m]? = some v → u.phase.commits = true → v.phase.commits = false := by
    intro m v hm hv hu
    rcases hcom hu with ⟨htc, -⟩ | ⟨-, hnone⟩
    · by_contra hvc
      exact hm (h.one m k v t hv hk (by simpa using hvc) htc)
    · exact hnone v (List.mem_of_getElem? hv)
  constructor
  · intro v hv hvc
    rcases List.mem_or_eq_of_mem_set hv with hv | rfl
    · exact h.next v hv hvc
    · rcases hcom hvc with ⟨htc, hseq⟩ | ⟨hseq, -⟩
      · rw [hseq]
        exact h.next t (List.mem_of_getElem? hk) htc
      · exact hseq
  · intro m m' v w hv hw hvc hwc
    rcases getElem?_of_set hv with ⟨hm, hvu⟩ | ⟨hm, hv₀⟩ <;> rcases getElem?_of_set hw with ⟨hm', hwu⟩ | ⟨hm', hw₀⟩
    · exact hm.trans hm'.symm
    · subst hvu
      rw [hnew _ _ hm' hw₀ hvc] at hwc
      cases hwc
    · subst hwu
      rw [hnew _ _ hm hv₀ hwc] at hvc
      cases hvc
    · exact h.one _ _ _ _ hv₀ hw₀ hvc hwc

theorem CommitsNext.rest (h : CommitsNext n) {k : ℕ} {t : AckThread} (hk : n.acks[k]? = some t) {u : AckThread}
    (hu : u.phase.commits = false) : CommitsNext (n.setAck k u) :=
  h.setAck hk (by simp [hu])

/-- after the one thread that commits, nobody does -/
theorem CommitsNext.bump (h : CommitsNext n) {k : ℕ} {t : AckThread} (hk : n.acks[k]? = some t)
    (ht : t.phase.commits = true) {u : AckThread} (hu : u.phase.commits = false) (c : ℤ) :
    CommitsNext { n.setAck k u with commitSeq := c } := by
  refine ⟨?_, (h.rest hk hu).one⟩
  intro v hv hvc
  obtain ⟨m, hm⟩ := List.mem_iff_getElem?.1 hv
  rcases getElem?_of_set hm with ⟨-, rfl⟩ | ⟨hmk, hm⟩
  · rw [hu] at hvc
    cases hvc
  · exact absurd (h.one m k v t hm hk hvc ht) hmk

theorem CommitsNext.ackAct (h : CommitsNext n) (k : ℕ) (a : AckAct) (hpop : a = .pop → n.PopsNext k) :
    CommitsNext (n.ackAct k a) := by
  have hstep := ackAct_step n k a
  generalize n.ackAct k a = x at hstep ⊢
  cases hstep with
  | stay => exact h
  | takeUp hk | retire hk | turn hk | retry hk => exact h.rest hk rfl
  | @refuse b _ hk | @leave b _ hk => cases b <;> exact h.rest hk rfl
  | @pop b q e l hk hsome =>
    have hnext := hpop rfl q (by simp [Node.pops, hk, hsome])
    have hset : CommitsNext (n.setAck k ⟨b, q, .popped e⟩) := h.setAck hk fun _ => Or.inr hnext
    exact hset.congr rfl rfl
  | @commit b q e hk =>
    have hset : CommitsNext (n.setAck k ⟨b, q, .stored e⟩) := h.setAck hk fun _ => Or.inl ⟨rfl, rfl⟩
    exact hset.congr rfl rfl
  | @log b q e hk =>
    have hset : CommitsNext (n.setAck k ⟨b, q, .logged⟩) := h.setAck hk fun _ => Or.inl ⟨rfl, rfl⟩
    exact hset.congr rfl rfl
  | bump hk => exact h.bump hk rfl rfl _

theorem CommitsNext.concat (h : CommitsNext n) {t : AckThread} (ht : t.phase.commits = false) :
    CommitsNext { n with acks := n.acks ++ [t] } := by
  constructor
  · intro u hu huc
    rcases List.mem_append.1 hu with hu | hu
    · exact h.next u hu huc
    · rw [List.mem_singleton.1 hu, ht] at huc
      cases huc
  · intro k m u v hu hv huc hvc
    rcases getElem?_of_concat hu with hu | ⟨-, rfl⟩
    · rcases getElem?_of_concat hv with hv | ⟨-, rfl⟩
      · exact h.one k m u v hu hv huc hvc
      · rw [ht] at hvc
        cases hvc
    · rw [ht] at huc
      cases huc

/-- only ack threads change `commitSeq` and the acks of a node -/
theorem act_commits_eq (n : Node) (a : Act) (ha : ∀ k b, a ≠ .ack k b) :
    (n.act a).commitSeq = n.commitSeq ∧ (n.act a).acks = n.acks := by
  unfold Node.act
  split
  · exact ⟨rfl, rfl⟩
  cases a with
  | ack k b => exact absurd rfl (ha k b)
  | ackLogEntry r => exact ⟨rfl, rfl⟩
  | write a =>
    have hc := writeAct_commits n a
    exact ⟨congrArg Commits.commitSeq hc, congrArg Commits.acks hc⟩
  | relay k a =>
    have hc := relayAct_commits n k a
    exact ⟨congrArg Commits.commitSeq hc, congrArg Commits.acks hc⟩
  | rwb a =>
    cases a <;> simp only [Node.rwbAct] <;> repeat' split
    all_goals exact ⟨rfl, rfl⟩

theorem CommitsNext.act (h : CommitsNext n) (a : Act) (ha : ∀ k, a = .ack k .pop → n.PopsNext k) :
    CommitsNext (n.act a) := by
  by_cases hack : ∃ k b, a = .ack k b
  · obtain ⟨k, b, rfl⟩ := hack
    unfold Node.act
    split
    · exact h
    · exact h.ackAct k b fun hb => ha k (hb ▸ rfl)
  · obtain ⟨hc, hl⟩ := act_commits_eq n a fun k b hb => hack ⟨k, b, hb⟩
    exact h.congr hc hl

theorem CommitsNext.wire (h : CommitsNext n) (w : Wire) : CommitsNext (n.wire w) := by
  cases w with
  | ackArrives seq => exact h.concat rfl
  | relaySent j k | relayOk =>
    simp only [Node.wire]
    split
    · exact h.congr rfl rfl
    · exact h
  | relayArrives q => exact h.congr rfl rfl
  | ackSent k j m =>
    simp only [Node.wire]
    split
    · rename_i hk
      exact h.rest hk rfl
    · exact h
  | ackOk k =>
    simp only [Node.wire]
    split
    · rename_i b q _ _ hk
      cases b <;> exact h.rest hk rfl
    · exact h

end CommitsNext

/-! ## Who waits -/

/-- a handler waits for a number that is not committed and that no other thread is at -/
structure Ahead (n : Node) : Prop where
  commits : CommitsNext n
  low : -2 ^ 31 ≤ n.commitSeq
  wait : ∀ t ∈ n.acks, t.waits = true → n.commitSeq < t.seq
  apart : ∀ (k m : ℕ) t u, n.acks[k]? = some t → n.acks[m]? = some u → k ≠ m → t.waits = true → u.current ≠ some t.seq

theorem toInt_succ_le {x : ℤ} (h : -2 ^ 31 ≤ x) : -2 ^ 31 ≤ toInt (x + 1) ∧ toInt (x + 1) ≤ x + 1 := by
  unfold toInt
  rw [Int.bmod_def]
  split <;> omega

/-- what a thread reports as committed is the next number, or one that an `int` has instead -/
theorem CommitsNext.reports_le {n : Node} (h : CommitsNext n) (hlow : -2 ^ 31 ≤ n.commitSeq) {t : AckThread}
    (ht : t ∈ n.acks) (htc : t.phase.commits = true) :
    -2 ^ 31 ≤ (if t.background then n.commitSeq + 1 else toInt t.seq) ∧
      (if t.background then n.commitSeq + 1 else toInt t.seq) ≤ n.commitSeq + 1 := by
  have hto := toInt_succ_le hlow
  rw [h.next t ht htc]
  split_ifs
  · omega
  · exact hto

theorem AckThread.waits_iff {t : AckThread} : t.waits = true ↔ t.background = false ∧ t.phase = .start := by
  obtain ⟨b, q, p⟩ := t
  cases p <;> simp [AckThread.waits]

theorem AckThread.current_of_waits {t : AckThread} (h : t.waits = true) : t.current = some t.seq := by
  obtain ⟨hb, hp⟩ := AckThread.waits_iff.1 h
  simp [AckThread.current, hp, hb]

theorem AckThread.current_of_commits {t : AckThread} (h : t.phase.commits = true) : t.current = some t.seq := by
  obtain ⟨b, q, p⟩ := t
  cases p <;> simp_all [AckThread.current, AckPhase.commits]

section Ahead

variable {n : Node}

/-- the same threads and `commitSeq` -/
theorem Ahead.congr {n' : Node} (h : Ahead n) (hc : n'.commitSeq = n.commitSeq) (ha : n'.acks = n.acks) : Ahead n' :=
  ⟨h.commits.congr hc ha, by rw [hc]; exact h.low, by rw [hc, ha]; exact h.wait, by rw [ha]; exact h.apart⟩

/-- thread `k` moves on with its number, or gives it up; the rest stay -/
theorem Ahead.setAck (h : Ahead n) {k : ℕ} {t : AckThread} (hk : n.acks[k]? = some t) {u : AckThread}
    (hcommits : CommitsNext (n.setAck k u)) (hw : u.waits = false)
    (hcur : u.current = t.current ∨ u.current = none ∨
      ∀ m v, m ≠ k → n.acks[m]? = some v → v.waits = true → u.current ≠ some v.seq) : Ahead (n.setAck k u) := by
  refine ⟨hcommits, h.low, ?_, ?_⟩
  · intro v hv hvw
    rcases List.mem_or_eq_of_mem_set hv with hv | rfl
    · exact h.wait v hv hvw
    · rw [hw] at hvw
      cases hvw
  · intro m m' v w hv hw' hne hvw
    rcases getElem?_of_set hv with ⟨-, hvu⟩ | ⟨hm, hv₀⟩
    · rw [hvu, hw] at hvw
      cases hvw
    rcases getElem?_of_set hw' with ⟨-, hwu⟩ | ⟨-, hw₀⟩
    · rw [hwu]
      rcases hcur with hcur | hcur | hcur
      · rw [hcur]
        exact h.apart _ _ _ _ hv₀ hk hm hvw
      · simp [hcur]
      · exact hcur m v hm hv₀ hvw
    · exact h.apart _ _ _ _ hv₀ hw₀ hne hvw

/-- thread `k` is at no number any more -/
theorem Ahead.giveUp (h : Ahead n) {k : ℕ} {t : AckThread} (hk : n.acks[k]? = some t) {u : AckThread}
    (hu : u.current = none) : Ahead (n.setAck k u) := by
  refine h.setAck hk (h.commits.rest hk ?_) ?_ (Or.inr (Or.inl hu))
  · by_contra hc
    rw [AckThread.current_of_commits (by simpa using hc)] at hu
    cases hu
  · by_contra hw
    rw [AckThread.current_of_waits (by simpa using hw)] at hu
    cases hu

/-- the thread reports its number as committed -/
theorem Ahead.bump (h : Ahead n) {k : ℕ} {t : AckThread} (hk : n.acks[k]? = some t) (ht : t.phase = .logged) :
    Ahead { n.setAck k { t with phase := .relaying } with
      commitSeq := if t.background then n.commitSeq + 1 else toInt t.seq } := by
  have htc : t.phase.commits = true := by simp [ht, AckPhase.commits]
  have hseq := h.commits.next t (List.mem_of_getElem? hk) htc
  have hset : Ahead (n.setAck k { t with phase := .relaying }) := h.giveUp hk rfl
  have hbound := h.commits.reports_le h.low (List.mem_of_getElem? hk) htc
  refine ⟨h.commits.bump hk htc rfl _, hbound.1, ?_, hset.apart⟩
  -- another handler waits for a later number, since this thread was at the next one
  intro v hv hvw
  obtain ⟨m, hm⟩ := List.mem_iff_getElem?.1 hv
  rcases getElem?_of_set hm with ⟨-, rfl⟩ | ⟨hmk, hm⟩
  · simp [AckThread.waits] at hvw
  · have hlt := h.wait v (List.mem_of_getElem? hm) hvw
    have hne : v.seq ≠ t.seq := by
      intro heq
      apply h.apart m k v t hm hk hmk hvw
      rw [AckThread.current_of_commits htc, heq]
    have hle := hbound.2
    show (if t.background then n.commitSeq + 1 else toInt t.seq) < v.seq
    omega

theorem Ahead.ackAct (h : Ahead n) (k : ℕ) (a : AckAct)
    (hstart : a = .start → ∀ seq ∈ n.takesUp k, ∀ t ∈ n.acks, t.waits = true → t.seq ≠ seq)
    (hpop : a = .pop → n.PopsNext k) : Ahead (n.ackAct k a) := by
  have hcommits := h.commits.ackAct k a hpop
  have hstep := ackAct_step n k a
  generalize n.ackAct k a = x at hcommits hstep ⊢
  cases hstep with
  | stay => exact h
  | takeUp hk hs =>
    -- no handler waits for the number that the background thread takes up
    refine h.setAck hk hcommits (by simp [AckThread.waits]) (Or.inr (Or.inr fun m v _ hv hvw heq => ?_))
    refine hstart rfl (n.commitSeq + 1) ?_ v (List.mem_of_getElem? hv) hvw ?_
    · simp [Node.takesUp, hk, hs]
    · exact (Option.some.inj heq).symm
  | retire hk | retry hk => exact h.giveUp hk rfl
  | turn hk => exact h.setAck hk hcommits (by simp [AckThread.waits]) (Or.inl rfl)
  | @refuse b _ hk | @leave b _ hk => cases b <;> exact h.giveUp hk rfl
  | @pop b q e l hk hsome =>
    have hset : Ahead (n.setAck k ⟨b, q, .popped e⟩) :=
      h.setAck hk (hcommits.congr rfl rfl) (by simp [AckThread.waits]) (Or.inl rfl)
    exact hset.congr rfl rfl
  | @commit b q e hk =>
    have hset : Ahead (n.setAck k ⟨b, q, .stored e⟩) :=
      h.setAck hk (hcommits.congr rfl rfl) (by simp [AckThread.waits]) (Or.inl rfl)
    exact hset.congr rfl rfl
  | @log b q e hk =>
    have hset : Ahead (n.setAck k ⟨b, q, .logged⟩) :=
      h.setAck hk (hcommits.congr rfl rfl) (by simp [AckThread.waits]) (Or.inl rfl)
    exact hset.congr rfl rfl
  | bump hk => exact h.bump hk rfl

/-- a thread that starts, or an ack that arrives where its number is open -/
theorem Ahead.concat (h : Ahead n) {t : AckThread} (hcom : t.phase.commits = false)
    (ht : t.background = true ∧ t.phase = .start ∨ n.Open t.seq ∧ t.waits = true) :
    Ahead { n with acks := n.acks ++ [t] } := by
  have hcur : ∀ u ∈ n.acks, u.waits = true → t.current ≠ some u.seq := by
    intro u hu huw
    rcases ht with ⟨hb, hp⟩ | ⟨hopen, htw⟩
    · simp [AckThread.current, hp, hb]
    · rw [AckThread.current_of_waits htw]
      intro heq
      apply hopen.2 u hu
      rw [AckThread.current_of_waits huw, heq]
  refine ⟨h.commits.concat hcom, h.low, ?_, ?_⟩
  · intro u hu huw
    rcases List.mem_append.1 hu with hu | hu
    · exact h.wait u hu huw
    · obtain rfl := List.mem_singleton.1 hu
      rcases ht with ⟨hb, hp⟩ | ⟨hopen, -⟩
      · simp [AckThread.waits, hb] at huw
      · exact hopen.1
  · intro k m u v hu hv hkm huw
    rcases getElem?_of_concat hu with hu₀ | ⟨hk, rfl⟩
    · rcases getElem?_of_concat hv with hv | ⟨-, rfl⟩
      · exact h.apart k m u v hu₀ hv hkm huw
      · exact hcur u (List.mem_of_getElem? hu₀) huw
    · rcases getElem?_of_concat hv with hv | ⟨hm, rfl⟩
      · rcases ht with ⟨hb, -⟩ | ⟨hopen, -⟩
        · simp [AckThread.waits, hb] at huw
        · exact hopen.2 v (List.mem_of_getElem? hv)
      · exact absurd (hk.trans hm.symm) hkm

theorem Ahead.act (h : Ahead n) (a : Act) (ha : ∀ k b, a = .ack k b → Ahead (n.ackAct k b)) : Ahead (n.act a) := by
  by_cases hack : ∃ k b, a = .ack k b
  · obtain ⟨k, b, rfl⟩ := hack
    unfold Node.act
    split
    · exact h
    · exact ha k b rfl
  · obtain ⟨hc, hl⟩ := act_commits_eq n a fun k b hb => hack ⟨k, b, hb⟩
    exact h.congr hc hl

theorem Ahead.wire (h : Ahead n) (w : Wire) (hw : ∀ seq, w = .ackArrives seq → n.Open seq) : Ahead (n.wire w) := by
  cases w with
  | ackArrives seq => exact h.concat rfl (Or.inr ⟨hw seq rfl, rfl⟩)
  | relaySent j k | relayOk =>
    simp only [Node.wire]
    split
    · exact h.congr rfl rfl
    · exact h
  | relayArrives q => exact h.congr rfl rfl
  | ackSent k j m =>
    simp only [Node.wire]
    split
    · rename_i hk
      exact h.giveUp hk rfl
    · exact h
  | ackOk k =>
    simp only [Node.wire]
    split
    · rename_i b q _ _ hk
      cases b <;> exact h.giveUp hk rfl
    · exact h

theorem Ahead.changeMode (h : Ahead n) (new : State) (prev next : Option ℕ) : Ahead (n.changeMode new prev next) := by
  have hlaunch : Ahead { n with acks := n.acks ++ [⟨true, 0, .start⟩] } := h.concat rfl (Or.inl ⟨rfl, rfl⟩)
  rcases changeMode_commits n new prev next with e | e
  · exact h.congr (congrArg Commits.commitSeq e) (congrArg Commits.acks e)
  · exact hlaunch.congr (congrArg Commits.commitSeq e) (congrArg Commits.acks e)

end Ahead

/-! ## Runs -/

/-- `Ahead` everywhere, and the volume that `Restore` starts from is the one of the start -/
structure AheadInv (own : ℕ → ℕ) (c : Cluster) : Prop where
  nodes : ∀ i, Ahead (c.nodes i)
  newborn : ∀ i, i ∉ c.restored → Newborn [(own i : ℤ)] (c.nodes i)

section AheadInv

variable {own : ℕ → ℕ} {c : Cluster}

/-- a call between nodes -/
theorem ahead_wire {s : Nodes} (h : ∀ i, Ahead (s i)) (i : ℕ) (w : Wire)
    (hw : ∀ seq, w = .ackArrives seq → (s i).Open seq) : ∀ j, Ahead (Nodes.wire s i w j) := by
  intro j
  by_cases hj : j = i
  · subst hj
    simpa [Nodes.wire] using (h j).wire w hw
  · simpa [Nodes.wire, hj] using h j

/-- the caller moves on, and no thread of it takes up another number -/
theorem Node.Open.ackSent {n : Node} {seq : ℤ} (h : n.Open seq) (k j m : ℕ) : (n.wire (.ackSent k j m)).Open seq := by
  simp only [Node.wire]
  split
  · refine ⟨h.1, fun t ht => ?_⟩
    rcases List.mem_or_eq_of_mem_set ht with ht | rfl
    · exact h.2 t ht
    · simp [AckThread.current]
  · exact h

theorem AheadInv.node (h : AheadInv own c) (e : Event) (hc : AckedOnce c (.node e)) :
    ∀ j, Ahead (Chain.step c.nodes e j) := by
  cases e with
  | act i a =>
    intro j
    by_cases hj : j = i
    · subst hj
      have hact : Ahead ((c.nodes j).act a) := by
        refine (h.nodes j).act a fun k b ha => (h.nodes j).ackAct k b ?_ ?_
        · rintro rfl
          subst ha
          exact hc
        · rintro rfl
          subst ha
          exact hc
      simpa [Chain.step] using hact
    · simpa [Chain.step, hj] using h.nodes j
  | sendRelay i =>
    rcases step_sendRelay c.nodes i with hs | ⟨e, j, -, hs⟩ <;> rw [hs]
    · exact h.nodes
    · exact ahead_wire (ahead_wire h.nodes _ _ (by simp)) _ _ (by simp)
  | relayOk i =>
    rcases step_relayOk c.nodes i with hs | ⟨e, j, k, -, -, hs⟩ <;> rw [hs]
    · exact h.nodes
    · exact ahead_wire h.nodes _ _ (by simp)
  | sendAck i k =>
    rcases step_sendAck c.nodes i k with hs | ⟨seq, j, ht, hs⟩ <;> rw [hs]
    · exact h.nodes
    · apply ahead_wire (ahead_wire h.nodes _ _ (by simp)) _ _
      intro seq' hseq
      obtain rfl : seq = seq' := by simpa using hseq
      have hopen : (c.nodes j).Open seq := hc _ ht
      by_cases hji : j = i
      · subst hji
        simpa [Nodes.wire] using hopen.ackSent k j (c.nodes j).acks.length
      · simpa [Nodes.wire, hji] using hopen
  | ackOk i k =>
    rcases step_ackOk c.nodes i k with hs | hs <;> rw [hs]
    · exact h.nodes
    · exact ahead_wire h.nodes _ _ (by simp)

/-- `Restore` starts from the number in the volume, one that was committed -/
theorem AheadInv.restore (h : AheadInv own c) (i : ℕ) (entries : List (ℤ × Int64)) (ha : (c.nodes i).acks = [])
    (hr : i ∉ c.restored) : Ahead ((c.nodes i).restore entries) := by
  have hlast : [(own i : ℤ)] = [(c.nodes i).lastCommitted] := h.newborn i hr ha
  refine ⟨⟨?_, ?_⟩, ?_, ?_, ?_⟩
  rotate_left 2
  · have hle := (maxseq_isGreatest entries (c.nodes i).lastCommitted).2 List.mem_cons_self
    have hown : (own i : ℤ) = (c.nodes i).lastCommitted := by simpa using hlast
    simp only [Node.restore]
    omega
  all_goals simp [Node.restore, ha]

theorem step_aheadInv (e : ClusterEvent) (h : AheadInv own c) (hc : AckedOnce c e) : AheadInv own (c.step e) := by
  refine ⟨Cluster.step_nodes Ahead c e h.nodes ?_ ?_ ?_ ?_ ?_ ?_ ?_, newborn_step h.newborn e⟩
  · intro e' he
    subst he
    exact h.node e' hc
  · exact fun n hn => hn.congr rfl rfl
  · exact h.restore
  · exact fun n log hn => hn.congr rfl rfl
  · exact fun n new prev next hn => hn.changeMode new prev next
  · exact fun n prev hn => (hn.concat (t := ⟨true, 0, .start⟩) rfl (Or.inl ⟨rfl, rfl⟩)).congr rfl rfl
  · exact fun i x _ n data reqId hn => hn.wire _ (by simp)

theorem aheadInv_start (own : ℕ → ℕ) : AheadInv own (Cluster.start fun i => own i) := by
  refine ⟨fun i => ⟨⟨?_, ?_⟩, ?_, ?_, ?_⟩, fun i _ _ => rfl⟩
  rotate_left 2
  · show -2 ^ 31 ≤ (own i : ℤ)
    omega
  all_goals simp [Cluster.start, Node.idle]

end AheadInv

/-- **Nobody waits for the past.** After every run of joins, writes, commits, role changes, relinks and failures in
which an ack is delivered only where its number is open, a background thread takes up no number that a handler waits
for, and a number is popped only once: every handler in its loop waits for a number that is not committed. -/
theorem no_wait_for_past (own : ℕ → ℕ) (es : List ClusterEvent)
    (h : Meets Cluster.step AckedOnce (Cluster.start fun i => own i) es) :
    ∀ i, ∀ t ∈ ((run Cluster.step (Cluster.start fun i => own i) es).nodes i).acks, t.waits = true →
      ((run Cluster.step (Cluster.start fun i => own i) es).nodes i).commitSeq < t.seq := by
  have hinv := run_inv_of_meets Cluster.step AckedOnce (AheadInv own) (fun c e hc hp => step_aheadInv e hc hp) _ es
    (aheadInv_start own) h
  exact fun i => (hinv.nodes i).wait

/-- **An ack that comes again.** Where its number is committed, the handler changes nothing and never gets past its
loop. -/
theorem redelivered_ack_waits {n : Node} {k : ℕ} {t : AckThread} (hk : n.acks[k]? = some t) (hw : t.waits = true)
    (hpast : t.seq ≤ n.commitSeq) (a : AckAct) : n.act (.ack k a) = n := by
  obtain ⟨hb, hp⟩ := AckThread.waits_iff.1 hw
  have hne : n.commitSeq + 1 ≠ t.seq := by omega
  unfold Node.act
  split
  · rfl
  · cases a <;> simp [Node.ackAct, Node.ackStart, hk, hb, hp, hne]

/-- a request is numbered, and relayed to node 1, which writes it; the head has it in hand -/
def writtenBelow : List ClusterEvent :=
  .registered 0 none :: joinBehind [] ++ (writeCall (requestAt 1) ++ (relayDown 0).take 7 ++ tailWrites).map .node

/-- thread `k` of node `i` commits its number -/
def commitAt (i k : ℕ) : List ClusterEvent :=
  [.node (.act i (.ack k .start)), .node (.act i (.ack k .pop)), .node (.act i (.ack k .commit)),
    .node (.act i (.ack k .log)), .node (.act i (.ack k .bump))]

/-- the head refuses the ack until it has the entry in its sent list; then the call is repeated -/
def refusedAck : List ClusterEvent :=
  writtenBelow ++ commitAt 1 0 ++ [.node (.sendAck 1 0), .node (.act 0 (.ack 1 .start)), .node (.act 0 (.ack 1 .pop)),
    .node (.act 1 (.ack 0 .retry))] ++ ((relayDown 0).drop 7).map .node ++ [.node (.sendAck 1 0)]

theorem no_wait_for_past_refused :
    (∀ t ∈ ((run Cluster.step (Cluster.start fun _ => ((0 : ℕ) : ℤ)) refusedAck).nodes 0).acks, t.waits = true →
      ((run Cluster.step (Cluster.start fun _ => ((0 : ℕ) : ℤ)) refusedAck).nodes 0).commitSeq < t.seq) ∧
      ∃ t ∈ ((run Cluster.step (Cluster.start fun _ => ((0 : ℕ) : ℤ)) refusedAck).nodes 0).acks, t.waits = true := by
  have hm : Meets Cluster.step AckedOnce (Cluster.start fun _ => ((0 : ℕ) : ℤ)) refusedAck := by decide +kernel
  exact ⟨no_wait_for_past (fun _ => 0) refusedAck hm 0, by decide +kernel⟩

/-- the head commits, the call fails all the same, and the tail repeats it -/
def retriedAck : List ClusterEvent :=
  writtenBelow ++ ((relayDown 0).drop 7).map .node ++ commitAt 1 0 ++ [.node (.sendAck 1 0)] ++ commitAt 0 1 ++
    [.node (.act 0 (.ack 1 .leave)), .node (.act 1 (.ack 0 .retry)), .node (.sendAck 1 0)]

/-- **A handler waits for a number that is past.** Its second call finds number 1 committed at the head. -/
theorem retried_ack_waits :
    ¬ ∀ t ∈ ((run Cluster.step (Cluster.start fun _ => 0) retriedAck).nodes 0).acks, t.waits = true →
      ((run Cluster.step (Cluster.start fun _ => 0) retriedAck).nodes 0).commitSeq < t.seq := by
  decide +kernel

end ChainedBlockStorage.Chain
