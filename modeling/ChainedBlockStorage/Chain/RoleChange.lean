/-
Acks while the tail changes its role.

Node u + 1 is the tail, with node u above it, and `ChangeMode` makes it a middle node while its thread
`relay_write_ack_background` commits and calls node u. Node u refuses an ack as long as it has not pushed the entry to
its sent list, so the call is repeated, but only as long as the node is the tail.

- `no_ack_lost`: every number that node u + 1 has committed and node u has not is in flight or will still be sent, in
  every run in which no background thread is caught by the role change with an ack that is not in flight, commits after
  it, or has an ack refused after it, and numbers are popped once and fit an int.
- `refused_ack_lost`: the head refuses number 1, and the tail becomes a middle node before it repeats the call.
-/
import ChainedBlockStorage.Chain.PastAck

namespace ChainedBlockStorage.Chain

open Run Tables Positions

/-! ## Where an ack is -/

/-- the number that a handler waits for, is about to pop, or commits -/
def AckThread.inFlight (t : AckThread) : Option ℤ := if t.background then none else t.current

/-- the number that a thread calls the upstream node for, and will call it again for when the call fails -/
def AckThread.sending (t : AckThread) (s : State) : Option ℤ :=
  match t.phase with
  | .relaying | .calling _ _ => if t.relays s then some t.seq else none
  | _ => none

/-- a handler of this node has the ack of `seq` -/
def Node.Acking (n : Node) (seq : ℤ) : Prop := ∃ t ∈ n.acks, t.inFlight = some seq

/-- this node will send the ack of `seq` -/
def Node.WillAck (n : Node) (seq : ℤ) : Prop := ∃ t ∈ n.acks, t.sending n.state = some seq

/-- what node u + 1 has committed and node u has not is in flight to node u or will still be sent -/
def NoAckLost (u : ℕ) (f : Joining) : Prop := ∀ k, (f.nodes u).commitSeq < k → k ≤ (f.nodes (u + 1)).commitSeq →
  (f.nodes (u + 1)).WillAck k ∨ (f.nodes u).Acking k

/-- the number for which handler `k` throws when it calls `popEntry` -/
def Node.refuses (n : Node) (k : ℕ) : Option ℤ :=
  match n.acks[k]? with
  | some ⟨false, seq, .ready⟩ => if (n.sentList.popEntry (toInt seq)).isNone then some seq else none
  | _ => none

/-- the number that thread `k` puts in `commitSeq` -/
def Node.reports (n : Node) (k : ℕ) : Option (Bool × ℤ) :=
  match n.acks[k]? with
  | some ⟨background, seq, .logged⟩ => some (background, seq)
  | _ => none

/-- when the state changes, what a background thread calls for is committed upstream or in flight there; after it no
background thread reports a commit, and no handler upstream refuses an ack that nobody has and nobody repeats; and at
both nodes numbers are popped once, at node u they fit an int -/
def AckCarried (u : ℕ) (f : Joining) : JoinEvent → Prop
  | .node (.act i (.ack k .pop)) => (i = u ∨ i = u + 1 → (f.nodes i).PopsNext k) ∧
      (i = u → ∀ seq ∈ (f.nodes u).refuses k, seq ≤ (f.nodes u).commitSeq ∨ (f.nodes (u + 1)).WillAck seq ∨
        ∃ t ∈ (f.nodes u).acks.eraseIdx k, t.inFlight = some seq)
  | .node (.act i (.ack k .bump)) => ∀ x ∈ (f.nodes i).reports k,
      (i = u → x.2 < 2 ^ 31) ∧ (i = u + 1 → x.1 = true → (f.nodes (u + 1)).state = .tail)
  | .change .setState => f.phase = .updated → ∀ t ∈ (f.nodes (u + 1)).acks, t.background = true →
      ∀ seq ∈ t.sending .tail, seq ≤ (f.nodes u).commitSeq ∨ (f.nodes u).Acking seq
  | _ => True

instance (n : Node) (seq : ℤ) : Decidable (n.Acking seq) :=
  inferInstanceAs (Decidable (∃ t ∈ n.acks, t.inFlight = some seq))

instance (n : Node) (seq : ℤ) : Decidable (n.WillAck seq) :=
  inferInstanceAs (Decidable (∃ t ∈ n.acks, t.sending n.state = some seq))

instance (u : ℕ) (f : Joining) : ∀ e, Decidable (AckCarried u f e)
  | .node (.act i (.ack k .pop)) => inferInstanceAs (Decidable ((i = u ∨ i = u + 1 → (f.nodes i).PopsNext k) ∧
      (i = u → ∀ seq ∈ (f.nodes u).refuses k, seq ≤ (f.nodes u).commitSeq ∨ (f.nodes (u + 1)).WillAck seq ∨
        ∃ t ∈ (f.nodes u).acks.eraseIdx k, t.inFlight = some seq)))
  | .node (.act i (.ack k .bump)) => inferInstanceAs (Decidable (∀ x ∈ (f.nodes i).reports k,
      (i = u → x.2 < 2 ^ 31) ∧ (i = u + 1 → x.1 = true → (f.nodes (u + 1)).state = .tail)))
  | .change .setState => inferInstanceAs (Decidable (f.phase = .updated → ∀ t ∈ (f.nodes (u + 1)).acks,
      t.background = true → ∀ seq ∈ t.sending .tail, seq ≤ (f.nodes u).commitSeq ∨ (f.nodes u).Acking seq))
  | .node (.act _ (.ack _ .start)) | .node (.act _ (.ack _ .commit)) | .node (.act _ (.ack _ .log))
  | .node (.act _ (.ack _ .leave)) | .node (.act _ (.ack _ .retry)) | .node (.act _ (.write _))
  | .node (.act _ (.relay _ _)) | .node (.act _ (.rwb _)) | .node (.act _ (.ackLogEntry _)) | .node (.sendRelay _)
  | .node (.relayOk _) | .node (.sendAck _ _) | .node (.ackOk _ _) | .change .link | .change .getModifiedOffsets
  | .change .restore | .change .getRelayLogContent | .change .updateReplayLog | .register => isTrue trivial

/-! ## The upstream node -/

/-- the number is behind the handler -/
def AckPhase.reported : AckPhase → Bool
  | .relaying | .calling _ _ | .done => true
  | _ => false

/-- handlers that are through have their number committed -/
structure Answering (n : Node) : Prop where
  commits : CommitsNext n
  low : -2 ^ 31 ≤ n.commitSeq
  through : ∀ t ∈ n.acks, t.background = false → t.phase.reported = true → t.seq ≤ n.commitSeq

/-- from `n` to `n'` no handler goes away, `commitSeq` does not fall, and an ack in flight stays in flight until it is
committed, `lost` excepted -/
structure Carries (lost : ℤ → Prop) (n n' : Node) : Prop where
  mono : n.commitSeq ≤ n'.commitSeq
  handlers : ∀ (m : ℕ) (t : AckThread), n.acks[m]? = some t → t.background = false →
    ∃ t', n'.acks[m]? = some t' ∧ t'.background = false ∧ t'.seq = t.seq
  flight : ∀ seq, n.Acking seq → n'.Acking seq ∨ seq ≤ n'.commitSeq ∨ lost seq

section Answering

variable {n n' : Node} {lost : ℤ → Prop}

theorem Carries.of_eq (hc : n'.commitSeq = n.commitSeq) (ha : n'.acks = n.acks) : Carries lost n n' := by
  refine ⟨le_of_eq hc.symm, fun m t hm hb => ⟨t, ha ▸ hm, hb, rfl⟩, fun seq hs => Or.inl ?_⟩
  unfold Node.Acking
  rw [ha]
  exact hs

theorem Answering.congr (h : Answering n) (hc : n'.commitSeq = n.commitSeq) (ha : n'.acks = n.acks) : Answering n' :=
  ⟨h.commits.congr hc ha, by rw [hc]; exact h.low, by rw [hc, ha]; exact h.through⟩

/-- one thread moves on -/
theorem carries_setAck {k : ℕ} {t : AckThread} (hk : n.acks[k]? = some t) (u : AckThread)
    (hb : u.background = t.background) (hseq : t.background = false → u.seq = t.seq)
    (ha : n'.acks = n.acks.set k u) (hc : n.commitSeq ≤ n'.commitSeq)
    (hf : ∀ seq, t.inFlight = some seq → u.inFlight = some seq ∨ seq ≤ n'.commitSeq ∨ lost seq) :
    Carries lost n n' := by
  have hlt := (List.getElem?_eq_some_iff.1 hk).1
  refine ⟨hc, ?_, ?_⟩
  · intro m v hm hv
    by_cases hkm : k = m
    · subst hkm
      obtain rfl := Option.some.inj (hk.symm.trans hm)
      exact ⟨u, by rw [ha, List.getElem?_set_self hlt], hb.trans hv, hseq hv⟩
    · exact ⟨v, by rw [ha, List.getElem?_set_ne hkm, hm], hv, rfl⟩
  · rintro seq ⟨v, hv, hvs⟩
    rcases mem_set_or_eq hk u hv with hv | rfl
    · exact Or.inl ⟨v, ha ▸ hv, hvs⟩
    · rcases hf seq hvs with hu | hle | hl
      · exact Or.inl ⟨u, ha ▸ mem_set_self hk u, hu⟩
      · exact Or.inr (Or.inl hle)
      · exact Or.inr (Or.inr hl)

theorem Answering.setAck (h : Answering n) {k : ℕ} {t u : AckThread} (hk : n.acks[k]? = some t)
    (hcommits : CommitsNext (n.setAck k u))
    (hu : u.background = false → u.phase.reported = true → u.seq = t.seq ∧ t.background = false ∧
      t.phase.reported = true) : Answering (n.setAck k u) := by
  refine ⟨hcommits, h.low, ?_⟩
  intro v hv hvb hvr
  rcases List.mem_or_eq_of_mem_set hv with hv | rfl
  · exact h.through v hv hvb hvr
  · obtain ⟨hs, hb, hr⟩ := hu hvb hvr
    rw [hs]
    exact h.through t (List.mem_of_getElem? hk) hb hr

theorem toInt_of_range {x : ℤ} (h0 : -2 ^ 31 ≤ x) (h : x < 2 ^ 31) : toInt x = x := by
  unfold toInt
  rw [Int.bmod_def]
  split <;> omega

/-- the thread that commits moves `commitSeq` to its number -/
theorem bump_answering (h : Answering n) {k : ℕ} {t : AckThread} (hk : n.acks[k]? = some t) (ht : t.phase = .logged)
    (hint : t.seq < 2 ^ 31) :
    Answering { n.setAck k { t with phase := .relaying } with
      commitSeq := if t.background then n.commitSeq + 1 else toInt t.seq } ∧
    Carries lost n { n.setAck k { t with phase := .relaying } with
      commitSeq := if t.background then n.commitSeq + 1 else toInt t.seq } := by
  have htc : t.phase.commits = true := by simp [ht, AckPhase.commits]
  have hseq := h.commits.next t (List.mem_of_getElem? hk) htc
  have hlow := h.low
  have hto : (if t.background then n.commitSeq + 1 else toInt t.seq) = t.seq := by
    split_ifs
    · exact hseq.symm
    · exact toInt_of_range (by omega) hint
  rw [hto]
  have hle : n.commitSeq ≤ t.seq := by omega
  constructor
  · refine ⟨h.commits.bump hk htc rfl _, hlow.trans hle, ?_⟩
    intro v hv hvb hvr
    rcases List.mem_or_eq_of_mem_set hv with hv | rfl
    · exact (h.through v hv hvb hvr).trans hle
    · exact le_refl _
  · apply carries_setAck hk { t with phase := .relaying } rfl (fun _ => rfl) rfl hle
    intro seq hs
    obtain rfl : t.seq = seq := by
      unfold AckThread.inFlight at hs
      split_ifs at hs
      simpa [AckThread.current, ht] using hs
    exact Or.inr (Or.inl (le_refl _))

/-- a thread that goes on with its number -/
theorem Answering.goOn (h : Answering n) {k : ℕ} {b : Bool} {q : ℤ} {p r : AckPhase}
    (hk : n.acks[k]? = some ⟨b, q, p⟩) (hr : r.reported = false)
    (hc : AckThread.inFlight ⟨b, q, p⟩ = AckThread.inFlight ⟨b, q, r⟩) (hn : CommitsNext (n.setAck k ⟨b, q, r⟩))
    (hcommit : n'.commitSeq = n.commitSeq) (ha : n'.acks = n.acks.set k ⟨b, q, r⟩) :
    Answering n' ∧ Carries lost n n' := by
  refine ⟨(h.setAck hk hn (by simp [hr])).congr hcommit ha,
    carries_setAck hk ⟨b, q, r⟩ rfl (fun _ => rfl) ha (le_of_eq hcommit.symm) ?_⟩
  intro seq hs
  exact Or.inl (hc ▸ hs)

/-- a thread that no ack is in flight with -/
theorem Answering.idle (h : Answering n) {k : ℕ} {b : Bool} {q : ℤ} {p : AckPhase}
    (hk : n.acks[k]? = some ⟨b, q, p⟩) (u : AckThread) (hub : u.background = b) (huq : b = false → u.seq = q)
    (hnone : AckThread.inFlight ⟨b, q, p⟩ = none) (huc : u.phase.commits = false)
    (hur : u.phase.reported = true → b = false → p.reported = true) :
    Answering (n.setAck k u) ∧ Carries lost n (n.setAck k u) := by
  refine ⟨h.setAck hk (h.commits.rest hk huc) fun hb hr => ?_, carries_setAck hk u hub huq rfl (le_refl _) ?_⟩
  · have hbf : b = false := hub.symm.trans hb
    exact ⟨huq hbf, hbf, hur hr hbf⟩
  · intro seq hs
    rw [hnone] at hs
    cases hs

theorem ackAct_answering (h : Answering n) (k : ℕ) (a : AckAct) (hpop : a = .pop → n.PopsNext k)
    (hint : a = .bump → ∀ x ∈ n.reports k, x.2 < 2 ^ 31) :
    Answering (n.ackAct k a) ∧ Carries (fun seq => a = .pop ∧ n.refuses k = some seq) n (n.ackAct k a) := by
  have hcommits := h.commits.ackAct k a hpop
  have hstep := ackAct_step n k a
  generalize n.ackAct k a = x at hcommits hstep ⊢
  cases hstep with
  | stay => exact ⟨h, Carries.of_eq rfl rfl⟩
  | takeUp hk => exact h.idle hk ⟨true, n.commitSeq + 1, .ready⟩ rfl (by simp) rfl rfl (by simp [AckPhase.reported])
  | @retire q hk => exact h.idle hk ⟨true, q, .done⟩ rfl (by simp) rfl rfl (by simp)
  | turn hk => exact h.goOn hk (r := .ready) rfl rfl hcommits rfl rfl
  | @refuse b q hk hnone =>
    -- the ack that the handler throws away
    refine ⟨h.setAck hk hcommits (by cases b <;> simp [AckPhase.reported]),
      carries_setAck hk ⟨b, q, if b then .start else .failed⟩ rfl (fun _ => rfl) rfl (le_refl _) ?_⟩
    intro seq hs
    cases b with
    | true => simp [AckThread.inFlight] at hs
    | false =>
      obtain rfl : q = seq := by simpa [AckThread.inFlight, AckThread.current] using hs
      exact Or.inr (Or.inr ⟨rfl, by simp [Node.refuses, hk, hnone]⟩)
  | @pop b q e l hk hsome => exact h.goOn hk (r := .popped e) rfl rfl (hcommits.congr rfl rfl) rfl rfl
  | @commit b q e hk => exact h.goOn hk (r := .stored e) rfl rfl (hcommits.congr rfl rfl) rfl rfl
  | log hk => exact h.goOn hk (r := .logged) rfl rfl (hcommits.congr rfl rfl) rfl rfl
  | @bump b q hk => exact bump_answering h hk rfl (hint rfl (b, q) (by simp [Node.reports, hk]))
  | @leave b q hk =>
    exact h.idle hk ⟨b, q, if b then .start else .done⟩ rfl (fun _ => rfl) (by cases b <;> rfl) (by cases b <;> rfl)
      (fun _ _ => rfl)
  | @retry b q j m hk =>
    exact h.idle hk ⟨b, q, .relaying⟩ rfl (fun _ => rfl) (by cases b <;> rfl) rfl (fun _ _ => rfl)

theorem act_answering (h : Answering n) (a : Act) (hpop : ∀ k, a = .ack k .pop → n.PopsNext k)
    (hint : ∀ k, a = .ack k .bump → ∀ x ∈ n.reports k, x.2 < 2 ^ 31) :
    Answering (n.act a) ∧ Carries (fun seq => ∃ k, a = .ack k .pop ∧ n.refuses k = some seq) n (n.act a) := by
  by_cases hack : ∃ k b, a = .ack k b
  · obtain ⟨k, b, rfl⟩ := hack
    unfold Node.act
    split
    · exact ⟨h, Carries.of_eq rfl rfl⟩
    · obtain ⟨h1, h2⟩ := ackAct_answering h k b (fun hb => hpop k (hb ▸ rfl)) (fun hb => hint k (hb ▸ rfl))
      refine ⟨h1, h2.mono, h2.handlers, fun seq hs => ?_⟩
      rcases h2.flight seq hs with hs | hs | ⟨rfl, hs⟩
      · exact Or.inl hs
      · exact Or.inr (Or.inl hs)
      · exact Or.inr (Or.inr ⟨k, rfl, hs⟩)
  · obtain ⟨hc, hl⟩ := act_commits_eq n a fun k b hb => hack ⟨k, b, hb⟩
    exact ⟨h.congr hc hl, Carries.of_eq hc hl⟩

theorem wire_answering (h : Answering n) (w : Wire) : Answering (n.wire w) ∧ Carries (fun _ => False) n (n.wire w) := by
  cases w with
  | ackArrives seq =>
    refine ⟨⟨h.commits.concat rfl, h.low, ?_⟩, le_refl _, ?_, ?_⟩
    · intro t ht hb hr
      rcases List.mem_append.1 ht with ht | ht
      · exact h.through t ht hb hr
      · rw [List.mem_singleton.1 ht] at hr
        cases hr
    · intro m t hm hb
      refine ⟨t, ?_, hb, rfl⟩
      show (n.acks ++ [_])[m]? = some t
      rw [List.getElem?_append_left (List.getElem?_eq_some_iff.1 hm).1, hm]
    · rintro x ⟨t, ht, htx⟩
      exact Or.inl ⟨t, List.mem_append_left _ ht, htx⟩
  | relayArrives q => exact ⟨h.congr rfl rfl, Carries.of_eq rfl rfl⟩
  | relaySent j k | relayOk =>
    simp only [Node.wire]
    split
    · exact ⟨h.congr rfl rfl, Carries.of_eq rfl rfl⟩
    · exact ⟨h, Carries.of_eq rfl rfl⟩
  | ackSent k j m =>
    simp only [Node.wire]
    split
    · rename_i b q hk
      exact h.idle hk ⟨b, q, .calling j m⟩ rfl (fun _ => rfl) (by cases b <;> rfl) rfl (fun _ _ => rfl)
    · exact ⟨h, Carries.of_eq rfl rfl⟩
  | ackOk k =>
    simp only [Node.wire]
    split
    · rename_i b q j m hk
      exact h.idle hk (AckThread.finish ⟨b, q, .relaying⟩) rfl (fun _ => rfl) (by cases b <;> rfl) (by cases b <;> rfl)
        (fun _ _ => rfl)
    · exact ⟨h, Carries.of_eq rfl rfl⟩

end Answering

/-! ## The old tail -/

/-- from `n` to `n'` what will be sent will still be, `ended` excepted, and what is newly committed will be sent -/
structure Sends (ended : ℤ → Prop) (n n' : Node) : Prop where
  will : ∀ seq, n.WillAck seq → n'.WillAck seq ∨ ended seq
  commit : ∀ k, k ≤ n'.commitSeq → k ≤ n.commitSeq ∨ n'.WillAck k

/-- the number being committed is the next one, and the node sends acks -/
structure Committing (n : Node) : Prop where
  commits : CommitsNext n
  low : -2 ^ 31 ≤ n.commitSeq
  role : n.state = .tail ∨ n.state = .middle

/-- every call of `n'` is a call of `n` -/
def SameCalls (n n' : Node) : Prop := ∀ t ∈ n'.acks, ∀ j m, t.phase = .calling j m →
  ∃ v ∈ n.acks, v.phase = .calling j m ∧ v.seq = t.seq

section Committing

variable {n n' : Node} {ended : ℤ → Prop}

theorem Sends.of_eq (hc : n'.commitSeq = n.commitSeq) (ha : n'.acks = n.acks) (hs : n'.state = n.state) :
    Sends ended n n' := by
  refine ⟨fun seq h => Or.inl ?_, fun k hk => Or.inl (hc ▸ hk)⟩
  unfold Node.WillAck
  rw [ha, hs]
  exact h

theorem SameCalls.of_eq (ha : n'.acks = n.acks) : SameCalls n n' := fun t ht _ _ hp => ⟨t, ha ▸ ht, hp, rfl⟩

theorem sends_setAck {k : ℕ} {t : AckThread} (hk : n.acks[k]? = some t) (u : AckThread) (ha : n'.acks = n.acks.set k u)
    (hst : n'.state = n.state) (hc : ∀ q, q ≤ n'.commitSeq → q ≤ n.commitSeq ∨ u.sending n.state = some q)
    (hw : ∀ seq, t.sending n.state = some seq → u.sending n.state = some seq ∨ ended seq) : Sends ended n n' := by
  constructor
  · rintro seq ⟨v, hv, hvs⟩
    unfold Node.WillAck
    rw [ha, hst]
    rcases mem_set_or_eq hk u hv with hv | rfl
    · exact Or.inl ⟨v, hv, hvs⟩
    · exact (hw seq hvs).imp_left fun hu => ⟨u, mem_set_self hk u, hu⟩
  · intro q hq
    apply (hc q hq).imp_right
    intro hu
    unfold Node.WillAck
    rw [ha, hst]
    exact ⟨u, mem_set_self hk u, hu⟩

theorem sameCalls_setAck {k : ℕ} {t : AckThread} (hk : n.acks[k]? = some t) (u : AckThread)
    (ha : n'.acks = n.acks.set k u) (hu : ∀ j m, u.phase = .calling j m → t.phase = .calling j m ∧ u.seq = t.seq) :
    SameCalls n n' := by
  intro v hv j m hp
  rw [ha] at hv
  rcases List.mem_or_eq_of_mem_set hv with hv | rfl
  · exact ⟨v, hv, hp, rfl⟩
  · obtain ⟨hp', hseq⟩ := hu j m hp
    exact ⟨t, List.mem_of_getElem? hk, hp', hseq.symm⟩

/-- a handler calls as long as the node is neither head nor single server -/
theorem sending_relaying (hr : n.state = .tail ∨ n.state = .middle) {b : Bool} {q : ℤ}
    (hb : b = true → n.state = .tail) : AckThread.sending ⟨b, q, .relaying⟩ n.state = some q := by
  cases b with
  | true => simp [AckThread.sending, AckThread.relays, hb rfl]
  | false => rcases hr with hr | hr <;> simp [AckThread.sending, AckThread.relays, hr]

theorem ackAct_committing (h : Committing n) (k : ℕ) (a : AckAct) (hpop : a = .pop → n.PopsNext k)
    (hrep : a = .bump → ∀ x ∈ n.reports k, x.1 = true → n.state = .tail) :
    Committing (n.ackAct k a) ∧ Sends (fun _ => False) n (n.ackAct k a) ∧ SameCalls n (n.ackAct k a) := by
  have hcommits := h.commits.ackAct k a hpop
  have hstate : (n.ackAct k a).state = n.state := congrArg Conf.state (ackAct_conf n k a)
  suffices hmain : -2 ^ 31 ≤ (n.ackAct k a).commitSeq ∧ Sends (fun _ => False) n (n.ackAct k a) ∧
      SameCalls n (n.ackAct k a) from ⟨⟨hcommits, hmain.1, by rw [hstate]; exact h.role⟩, hmain.2⟩
  have hstay : -2 ^ 31 ≤ n.commitSeq ∧ Sends (fun _ => False) n n ∧ SameCalls n n :=
    ⟨h.low, Sends.of_eq rfl rfl rfl, SameCalls.of_eq rfl⟩
  -- a thread that neither calls nor is about to
  have hquiet : ∀ (t u : AckThread) (x : Node), n.acks[k]? = some t → t.sending n.state = none →
      (∀ j m, u.phase ≠ .calling j m) → x.acks = n.acks.set k u → x.state = n.state → x.commitSeq = n.commitSeq →
      -2 ^ 31 ≤ x.commitSeq ∧ Sends (fun _ => False) n x ∧ SameCalls n x := by
    intro t u x hk ht hu ha hs hc
    refine ⟨by rw [hc]; exact h.low, sends_setAck hk u ha hs (fun q hq => Or.inl (hc ▸ hq)) ?_,
      sameCalls_setAck hk u ha fun j m hp => absurd hp (hu j m)⟩
    intro seq hseq
    rw [ht] at hseq
    cases hseq
  have hstep := ackAct_step n k a
  generalize n.ackAct k a = x at hstep ⊢
  cases hstep with
  | stay => exact hstay
  | takeUp hk | retire hk | turn hk | pop hk | commit hk | log hk => exact hquiet _ _ _ hk rfl (by simp) rfl rfl rfl
  | @refuse b q hk => exact hquiet _ _ _ hk rfl (by cases b <;> simp) rfl rfl rfl
  | @bump b q hk =>
    -- the new number is the thread's, which goes on to call
    have hmem := List.mem_of_getElem? hk
    have hseq : q = n.commitSeq + 1 := h.commits.next _ hmem rfl
    have hbound := h.commits.reports_le h.low hmem rfl
    refine ⟨hbound.1, sends_setAck hk ⟨b, q, .relaying⟩ rfl rfl ?_ (by simp [AckThread.sending]),
      sameCalls_setAck hk ⟨b, q, .relaying⟩ rfl (by simp)⟩
    intro x hx
    have hle : x ≤ n.commitSeq + 1 := hx.trans hbound.2
    rcases eq_or_lt_of_le hle with rfl | hlt
    · right
      rw [sending_relaying h.role fun hb => hrep rfl (b, q) (by simp [Node.reports, hk]) hb, hseq]
    · exact Or.inl (by omega)
  | @leave b q hk hr => exact hquiet _ _ _ hk (by simp [AckThread.sending, hr]) (by cases b <;> simp) rfl rfl rfl
  | @retry b q j m hk =>
    exact ⟨h.low, sends_setAck hk ⟨b, q, .relaying⟩ rfl rfl (fun _ hx => Or.inl hx) (fun seq hs => Or.inl hs),
      sameCalls_setAck hk ⟨b, q, .relaying⟩ rfl (by simp)⟩

theorem act_committing (h : Committing n) (a : Act) (hpop : ∀ k, a = .ack k .pop → n.PopsNext k)
    (hrep : ∀ k, a = .ack k .bump → ∀ x ∈ n.reports k, x.1 = true → n.state = .tail) :
    Committing (n.act a) ∧ Sends (fun _ => False) n (n.act a) ∧ SameCalls n (n.act a) := by
  by_cases hack : ∃ k b, a = .ack k b
  · obtain ⟨k, b, rfl⟩ := hack
    unfold Node.act
    split
    · exact ⟨h, Sends.of_eq rfl rfl rfl, SameCalls.of_eq rfl⟩
    · exact ackAct_committing h k b (fun hb => hpop k (hb ▸ rfl)) fun hb => hrep k (hb ▸ rfl)
  · obtain ⟨hc, hl⟩ := act_commits_eq n a fun k b hb => hack ⟨k, b, hb⟩
    have hs : (n.act a).state = n.state := congrArg Conf.state (act_conf n a)
    exact ⟨⟨h.commits.congr hc hl, by rw [hc]; exact h.low, by rw [hs]; exact h.role⟩, Sends.of_eq hc hl hs,
      SameCalls.of_eq hl⟩

theorem wire_commitSeq (n : Node) (w : Wire) : (n.wire w).commitSeq = n.commitSeq := by
  cases w <;> simp only [Node.wire] <;> repeat' split
  all_goals rfl

/-- only an answer ends what a node will send -/
theorem wire_committing (h : Committing n) (w : Wire) :
    Committing (n.wire w) ∧
      Sends (fun seq => ∃ k b j m, w = .ackOk k ∧ n.acks[k]? = some ⟨b, seq, .calling j m⟩) n (n.wire w) := by
  have hs : (n.wire w).state = n.state := congrArg Conf.state (wire_conf n w)
  have hc := wire_commitSeq n w
  refine ⟨⟨h.commits.wire w, by rw [hc]; exact h.low, by rw [hs]; exact h.role⟩, ?_⟩
  cases w with
  | ackArrives seq =>
    refine ⟨?_, fun k hk => Or.inl hk⟩
    rintro x ⟨t, ht, htx⟩
    exact Or.inl ⟨t, List.mem_append_left _ ht, htx⟩
  | relayArrives q => exact Sends.of_eq rfl rfl rfl
  | relaySent j k | relayOk =>
    simp only [Node.wire]
    split
    · exact Sends.of_eq rfl rfl rfl
    · exact Sends.of_eq rfl rfl rfl
  | ackSent k j m =>
    simp only [Node.wire]
    split
    · rename_i b q hk
      exact sends_setAck hk ⟨b, q, .calling j m⟩ rfl rfl (fun _ hx => Or.inl hx) fun seq hseq => Or.inl hseq
    · exact Sends.of_eq rfl rfl rfl
  | ackOk k =>
    simp only [Node.wire]
    split
    · rename_i b q j m hk
      refine sends_setAck hk (AckThread.finish ⟨b, q, .relaying⟩) rfl rfl (fun _ hx => Or.inl hx) fun seq hseq => ?_
      right
      simp only [AckThread.sending] at hseq
      split_ifs at hseq
      obtain rfl := Option.some.inj hseq
      exact ⟨k, b, j, m, rfl, hk⟩
    · exact Sends.of_eq rfl rfl rfl

theorem wire_sameCalls (n : Node) (w : Wire) (hw : ∀ k j m, w ≠ .ackSent k j m) : SameCalls n (n.wire w) := by
  cases w with
  | ackArrives seq =>
    intro t ht j m hp
    rcases List.mem_append.1 ht with ht | ht
    · exact ⟨t, ht, hp, rfl⟩
    · rw [List.mem_singleton.1 ht] at hp
      cases hp
  | relayArrives q => exact SameCalls.of_eq rfl
  | relaySent j k | relayOk =>
    simp only [Node.wire]
    split
    · exact SameCalls.of_eq rfl
    · exact SameCalls.of_eq rfl
  | ackSent k j m => exact absurd rfl (hw k j m)
  | ackOk k =>
    simp only [Node.wire]
    split
    · rename_i b q j m hk
      exact sameCalls_setAck hk (AckThread.finish ⟨b, q, .relaying⟩) rfl (by cases b <;> simp [AckThread.finish])
    · exact SameCalls.of_eq rfl

end Committing

/-! ## Both nodes -/

/-- the call of a thread of `d` has a handler at `n`, which is node `u` -/
def Answered (u : ℕ) (n d : Node) : Prop := ∀ t ∈ d.acks, ∀ j m, t.phase = .calling j m →
  j = u ∧ ∃ v, n.acks[m]? = some v ∧ v.background = false ∧ v.seq = t.seq

theorem Answered.move {u : ℕ} {n n' d d' : Node} {lost : ℤ → Prop} (h : Answered u n d) (hn : Carries lost n n')
    (hd : SameCalls d d') : Answered u n' d' := by
  intro t ht j m hp
  obtain ⟨v, hv, hvp, hvs⟩ := hd t ht j m hp
  obtain ⟨rfl, x, hx, hxb, hxs⟩ := h v hv j m hvp
  obtain ⟨x', hx', hxb', hxs'⟩ := hn.handlers m x hx hxb
  exact ⟨rfl, x', hx', hxb', hxs'.trans (hxs.trans hvs)⟩

structure CarryInv (u : ℕ) (f : Joining) : Prop where
  up : Answering (f.nodes u)
  down : Committing (f.nodes (u + 1))
  link : (f.nodes (u + 1)).upstream = some u
  calls : Answered u (f.nodes u) (f.nodes (u + 1))
  carried : NoAckLost u f

section CarryInv

variable {u : ℕ} {f f' : Joining} {lost ended : ℤ → Prop}

/-- **What the two nodes keep.** An ack that is dropped on one side is committed, or still has the other side. -/
theorem CarryInv.move (h : CarryInv u f) {n d : Node} (hn : f'.nodes u = n) (hd : f'.nodes (u + 1) = d)
    (hup : Answering n) (hdown : Committing d) (hlink : d.upstream = (f.nodes (u + 1)).upstream)
    (hcalls : Answered u n d) (hc : Carries lost (f.nodes u) n) (hs : Sends ended (f.nodes (u + 1)) d)
    (hlost : ∀ seq, lost seq ∨ ended seq → seq ≤ n.commitSeq ∨ d.WillAck seq ∨ n.Acking seq) : CarryInv u f' := by
  subst hn hd
  refine ⟨hup, hdown, hlink.trans h.link, hcalls, ?_⟩
  intro k hlo hhi
  have hdrop : lost k ∨ ended k → (f'.nodes (u + 1)).WillAck k ∨ (f'.nodes u).Acking k := by
    intro hk
    rcases hlost k hk with hle | hk
    · omega
    · exact hk
  rcases hs.commit k hhi with hk | hk
  · rcases h.carried k (lt_of_le_of_lt hc.mono hlo) hk with hw | ha
    · rcases hs.will k hw with hw | he
      · exact Or.inl hw
      · exact hdrop (Or.inr he)
    · rcases hc.flight k ha with ha | hle | hl
      · exact Or.inr ha
      · omega
      · exact hdrop (Or.inl hl)
  · exact Or.inl hk

/-- a node that is neither of the two -/
theorem CarryInv.other (h : CarryInv u f) (h1 : f'.nodes u = f.nodes u)
    (h2 : f'.nodes (u + 1) = f.nodes (u + 1)) : CarryInv u f' := by
  refine ⟨by rw [h1]; exact h.up, by rw [h2]; exact h.down, by rw [h2]; exact h.link, by rw [h1, h2]; exact h.calls, ?_⟩
  unfold NoAckLost
  rw [h1, h2]
  exact h.carried

/-- node u changes alone -/
theorem CarryInv.upstream (h : CarryInv u f) {n : Node} (hn : f'.nodes u = n) (hd : f'.nodes (u + 1) = f.nodes (u + 1))
    (hup : Answering n) (hc : Carries lost (f.nodes u) n)
    (hlost : ∀ seq, lost seq → seq ≤ n.commitSeq ∨ (f.nodes (u + 1)).WillAck seq ∨ n.Acking seq) : CarryInv u f' := by
  have hs : Sends (fun _ => False) (f.nodes (u + 1)) (f.nodes (u + 1)) := Sends.of_eq rfl rfl rfl
  exact h.move hn hd hup h.down rfl (h.calls.move hc (SameCalls.of_eq rfl)) hc hs
    fun seq hs => hs.elim (hlost seq) False.elim

/-- node u + 1 changes alone -/
theorem CarryInv.downstream (h : CarryInv u f) {d : Node} (hn : f'.nodes u = f.nodes u) (hd : f'.nodes (u + 1) = d)
    (hdown : Committing d) (hlink : d.upstream = (f.nodes (u + 1)).upstream) (hcalls : SameCalls (f.nodes (u + 1)) d)
    (hs : Sends ended (f.nodes (u + 1)) d)
    (hended : ∀ seq, ended seq → seq ≤ (f.nodes u).commitSeq ∨ (f.nodes u).Acking seq) : CarryInv u f' := by
  have hc : Carries (fun _ => False) (f.nodes u) (f.nodes u) := Carries.of_eq rfl rfl
  apply h.move hn hd h.up hdown hlink (h.calls.move hc hcalls) hc hs
  rintro seq (hf | he)
  · exact hf.elim
  · exact (hended seq he).imp_right Or.inr

/-- a handler that throws leaves the others where they are -/
theorem ackPop_acking {n : Node} {k : ℕ} {seq : ℤ} (h : ∃ t ∈ n.acks.eraseIdx k, t.inFlight = some seq) :
    (n.act (.ack k .pop)).Acking seq := by
  obtain ⟨t, ht, hts⟩ := h
  obtain ⟨m, hmk, hm⟩ := List.mem_eraseIdx_iff_getElem?.1 ht
  have hacks : (n.act (.ack k .pop)).acks[m]? = n.acks[m]? := by
    unfold Node.act
    split
    · rfl
    · simp only [Node.ackAct, Node.ackStart, Node.ackPop]
      repeat' split
      all_goals first
        | rfl
        | exact List.getElem?_set_ne (Ne.symm hmk)
  exact ⟨t, List.mem_of_getElem? (hacks.trans hm), hts⟩

theorem CarryInv.act (h : CarryInv u f) (i : ℕ) (a : Act) (hr : AckCarried u f (.node (.act i a))) :
    CarryInv u { f with nodes := Function.update f.nodes i ((f.nodes i).act a) } := by
  by_cases hi : i = u
  · subst hi
    have hpop : ∀ k, a = .ack k .pop → (f.nodes i).PopsNext k := by
      rintro k rfl
      exact hr.1 (Or.inl rfl)
    have hint : ∀ k, a = .ack k .bump → ∀ x ∈ (f.nodes i).reports k, x.2 < 2 ^ 31 := by
      rintro k rfl x hx
      exact (hr x hx).1 rfl
    obtain ⟨h1, h2⟩ := act_answering h.up a hpop hint
    apply h.upstream (Function.update_self _ _ _) (Function.update_of_ne (by omega) _ _) h1 h2
    rintro seq ⟨k, rfl, href⟩
    rcases hr.2 rfl seq href with hle | hw | hother
    · exact Or.inl (hle.trans h2.mono)
    · exact Or.inr (Or.inl hw)
    · exact Or.inr (Or.inr (ackPop_acking hother))
  · by_cases hi' : i = u + 1
    · subst hi'
      have hpop : ∀ k, a = .ack k .pop → (f.nodes (u + 1)).PopsNext k := by
        rintro k rfl
        exact hr.1 (Or.inr rfl)
      have hrep : ∀ k, a = .ack k .bump → ∀ x ∈ (f.nodes (u + 1)).reports k, x.1 = true →
          (f.nodes (u + 1)).state = .tail := by
        rintro k rfl x hx
        exact (hr x hx).2 rfl
      obtain ⟨h1, h2, h3⟩ := act_committing h.down a hpop hrep
      exact h.downstream (Function.update_of_ne (by omega) _ _) (Function.update_self _ _ _) h1
        (congrArg Conf.upstream (act_conf _ a)) h3 h2 fun _ => False.elim
    · exact h.other (Function.update_of_ne (Ne.symm hi) _ _) (Function.update_of_ne (Ne.symm hi') _ _)

/-- a half of a call, other than the ones that begin or end a call of node u + 1 -/
theorem CarryInv.wire (h : CarryInv u f) (i : ℕ) (w : Wire)
    (hw : i = u + 1 → (∀ k j m, w ≠ .ackSent k j m) ∧ ∀ k, w ≠ .ackOk k) :
    CarryInv u { f with nodes := Nodes.wire f.nodes i w } := by
  by_cases hi : i = u
  · subst hi
    obtain ⟨h1, h2⟩ := wire_answering h.up w
    exact h.upstream (Function.update_self _ _ _) (Function.update_of_ne (by omega) _ _) h1 h2 fun _ => False.elim
  · by_cases hi' : i = u + 1
    · subst hi'
      obtain ⟨hsent, hok⟩ := hw rfl
      obtain ⟨h1, h2⟩ := wire_committing h.down w
      refine h.downstream (Function.update_of_ne (by omega) _ _) (Function.update_self _ _ _) h1
        (congrArg Conf.upstream (wire_conf _ w)) (wire_sameCalls _ w hsent) h2 ?_
      rintro seq ⟨k, b, j, m, hk, -⟩
      exact absurd hk (hok k)
    · exact h.other (Function.update_of_ne (Ne.symm hi) _ _) (Function.update_of_ne (Ne.symm hi') _ _)

/-- node u + 1 calls, and the handler appears at node u -/
theorem CarryInv.sendAck (h : CarryInv u f) {k : ℕ} {seq : ℤ} {j : ℕ}
    (ht : (f.nodes (u + 1)).ackTarget k = some (seq, j)) :
    CarryInv u { f with
      nodes := Nodes.wire (Nodes.wire f.nodes (u + 1) (.ackSent k j (f.nodes j).acks.length)) j
        (.ackArrives seq) } := by
  obtain ⟨b, hk, hu, -, -⟩ := ackTarget_eq_some ht
  obtain rfl : u = j := Option.some.inj (h.link.symm.trans hu)
  obtain ⟨h1, h2⟩ := wire_answering h.up (.ackArrives seq)
  obtain ⟨h3, h4⟩ := wire_committing h.down (.ackSent k u (f.nodes u).acks.length)
  have hcalls : Answered u ((f.nodes u).wire (.ackArrives seq))
      ((f.nodes (u + 1)).wire (.ackSent k u (f.nodes u).acks.length)) := by
    intro t htm j m hp
    simp only [Node.wire, hk] at htm
    rcases List.mem_or_eq_of_mem_set htm with htm | rfl
    · exact (h.calls.move h2 (SameCalls.of_eq rfl)) t htm j m hp
    · simp only [AckPhase.calling.injEq] at hp
      obtain ⟨rfl, rfl⟩ := hp
      exact ⟨rfl, ⟨false, seq, .start⟩, by simp [Node.wire], rfl, rfl⟩
  refine h.move (by simp [Nodes.wire]) (by simp [Nodes.wire]) h1 h3 (congrArg Conf.upstream (wire_conf _ _)) hcalls h2
    h4 ?_
  rintro x (hf | ⟨_, _, _, _, hk', -⟩)
  · exact hf.elim
  · cases hk'

/-- node u has answered, so it has committed the number -/
theorem CarryInv.ackOk (h : CarryInv u f) {k : ℕ} {b : Bool} {seq : ℤ} {j m : ℕ}
    (hk : (f.nodes (u + 1)).acks[k]? = some ⟨b, seq, .calling j m⟩) (hans : (f.nodes j).ackAnswered m = true) :
    CarryInv u { f with nodes := Nodes.wire f.nodes (u + 1) (.ackOk k) } := by
  obtain ⟨h1, h2⟩ := wire_committing h.down (.ackOk k)
  refine h.downstream (Function.update_of_ne (by omega) _ _) (Function.update_self _ _ _) h1
    (congrArg Conf.upstream (wire_conf _ (.ackOk k))) (wire_sameCalls _ (.ackOk k) (by simp)) h2 ?_
  rintro x ⟨k', b', j', m', hk', hx⟩
  left
  obtain rfl : k = k' := by simpa using hk'
  rw [hk] at hx
  simp only [Option.some.injEq, AckThread.mk.injEq, AckPhase.calling.injEq] at hx
  obtain ⟨-, rfl, -, -⟩ := hx
  obtain ⟨rfl, v, hv, hvb, hvs⟩ := h.calls _ (List.mem_of_getElem? hk) j m rfl
  have hdone : v.phase.reported = true := by
    simp only [Node.ackAnswered, hv, Option.any_some] at hans
    cases hp : v.phase <;> simp_all [AckPhase.reported]
  simp only at hvs
  rw [← hvs]
  exact h.up.through v (List.mem_of_getElem? hv) hvb hdone

theorem CarryInv.node (h : CarryInv u f) (e : Event) (hr : AckCarried u f (.node e)) :
    CarryInv u { f with nodes := Chain.step f.nodes e } := by
  cases e with
  | act i a => exact h.act i a hr
  | sendRelay i =>
    rcases step_sendRelay f.nodes i with hs | ⟨e, j, -, hs⟩ <;> rw [hs]
    · exact h
    · exact (h.wire i _ fun _ => ⟨by simp, by simp⟩).wire j _ fun _ => ⟨by simp, by simp⟩
  | relayOk i =>
    rcases step_relayOk f.nodes i with hs | ⟨e, j, k, -, -, hs⟩ <;> rw [hs]
    · exact h
    · exact h.wire i _ fun _ => ⟨by simp, by simp⟩
  | sendAck i k =>
    rcases step_sendAck f.nodes i k with hs | ⟨seq, j, ht, hs⟩ <;> rw [hs]
    · exact h
    · by_cases hi : i = u + 1
      · subst hi
        exact h.sendAck ht
      · exact (h.wire i _ fun hi' => absurd hi' hi).wire j _ fun _ => ⟨by simp, by simp⟩
  | ackOk i k =>
    by_cases hi : i = u + 1
    · subst hi
      simp only [Chain.step]
      split
      · rename_i b seq j m hk
        split_ifs with hd hans
        · exact h
        · exact h.ackOk hk hans
        · exact h
      · exact h
    · rcases step_ackOk f.nodes i k with hs | hs <;> rw [hs]
      · exact h
      · exact h.wire i _ fun hi' => absurd hi' hi

/-- the state changes: what handlers call for they go on to call for -/
theorem CarryInv.setState (h : CarryInv u f) (hn : f'.nodes u = f.nodes u)
    (hd : f'.nodes (u + 1) = { f.nodes (u + 1) with state := .middle })
    (hr : ∀ t ∈ (f.nodes (u + 1)).acks, t.background = true → ∀ seq ∈ t.sending .tail,
      seq ≤ (f.nodes u).commitSeq ∨ (f.nodes u).Acking seq) : CarryInv u f' := by
  suffices hs : Sends (fun seq => seq ≤ (f.nodes u).commitSeq ∨ (f.nodes u).Acking seq) (f.nodes (u + 1))
      { f.nodes (u + 1) with state := .middle } from
    h.downstream hn hd ⟨h.down.commits.congr rfl rfl, h.down.low, Or.inr rfl⟩ rfl (SameCalls.of_eq rfl) hs
      fun _ hs => hs
  refine ⟨?_, fun k hk => Or.inl hk⟩
  rintro seq ⟨t, ht, hts⟩
  obtain ⟨b, q, p⟩ := t
  cases b with
  | true =>
    right
    apply hr _ ht rfl seq
    rcases h.down.role with hs | hs
    · rwa [hs] at hts
    · rw [hs] at hts
      cases p <;> simp [AckThread.sending, AckThread.relays] at hts
  | false =>
    left
    refine ⟨_, ht, ?_⟩
    rcases h.down.role with hs | hs
    · rw [hs] at hts
      cases p <;> simp_all [AckThread.sending, AckThread.relays]
    · rwa [hs] at hts

theorem CarryInv.changeMode (h : CarryInv u f) (c : ChangeStep) (hr : AckCarried u f (.change c)) :
    CarryInv u (f.changeMode (u + 1) c) := by
  cases c with
  | link =>
    simp only [Joining.changeMode]
    split
    · refine h.downstream (Function.update_of_ne (by omega) _ _) (Function.update_self _ _ _)
        ⟨h.down.commits.congr rfl rfl, h.down.low, h.down.role⟩ rfl (SameCalls.of_eq rfl) ?_ fun _ => False.elim
      exact Sends.of_eq rfl rfl rfl
    · exact h
  | restore | updateReplayLog =>
    simp only [Joining.changeMode]
    split
    · exact h.other (Function.update_of_ne (by omega) _ _) (Function.update_of_ne (by omega) _ _)
    · exact h
  | getModifiedOffsets | getRelayLogContent =>
    simp only [Joining.changeMode]
    split
    · exact h.other rfl rfl
    · exact h
  | setState =>
    simp only [Joining.changeMode]
    split
    · rename_i hp
      have hs : (f.nodes (u + 1)).state ≠ .single := by
        rcases h.down.role with hs | hs <;> rw [hs] <;> decide
      simp only [if_neg hs]
      exact h.setState (Function.update_of_ne (by omega) _ _) (Function.update_self _ _ _) (hr hp)
    · exact h

theorem step_carryInv (h : CarryInv u f) (e : JoinEvent) (hr : AckCarried u f e) :
    CarryInv u (Joining.step (u + 1) f e) := by
  cases e with
  | node e => exact h.node e hr
  | change c =>
    simp only [Joining.step]
    split
    · exact h
    · exact h.changeMode c hr
  | register =>
    simp only [Joining.step, Joining.register]
    split
    · exact h.other (Function.update_of_ne (by omega) _ _) (Function.update_of_ne (by omega) _ _)
    · exact h

theorem carryInv_start (u start : ℕ) (log : ReplayLog) (base : List (ℤ × Int64)) (own : ℤ) :
    CarryInv u (Joining.start (u + 1) start log base own) := by
  have hu : (Joining.start (u + 1) start log base own).nodes u =
      { stable (u + 2) start log u with committed := base } := if_neg (by omega)
  have hd : (Joining.start (u + 1) start log base own).nodes (u + 1) =
      { stable (u + 2) start log (u + 1) with committed := base } := if_neg (by omega)
  have hacks : (stable (u + 2) start log u).acks = [] := by simp [stable, Node.idle]
  have hacks' : (stable (u + 2) start log (u + 1)).acks = [⟨true, 0, .start⟩] := by simp [stable, Node.idle]
  have hc : ∀ i, (stable (u + 2) start log i).commitSeq = start := by
    intro i
    obtain ⟨a, b, c, d, acks, hidle⟩ := stable_idle (u + 2) start log i
    rw [hidle]
    rfl
  refine ⟨?_, ?_, ?_, ?_, ?_⟩
  · rw [hu]
    refine ⟨⟨?_, ?_⟩, ?_, ?_⟩
    · simp [hacks]
    · simp [hacks]
    · simp only [hc]
      omega
    · simp [hacks]
  · rw [hd]
    refine ⟨⟨?_, ?_⟩, ?_, Or.inl ?_⟩
    · simp [hacks', AckPhase.commits]
    · intro k m t v hk hm htc
      have ht := List.mem_of_getElem? hk
      rw [hacks', List.mem_singleton] at ht
      rw [ht] at htc
      cases htc
    · simp only [hc]
      omega
    · simp [stable, Node.idle, roleOf]
  · rw [hd]
    simp [stable, Node.idle]
  · rw [hd]
    intro t ht j m hp
    rw [hacks', List.mem_singleton] at ht
    rw [ht] at hp
    cases hp
  · intro k hlo hhi
    rw [hu] at hlo
    rw [hd] at hhi
    simp only [hc] at hlo hhi
    omega

end CarryInv

/-- **No ack is lost.** Node u + 1, the tail, becomes a middle node while all threads run. In every run in which no
background thread has an ack to send that is not in flight when the state changes, none reports a commit after it,
every ack that node u refuses is repeated, and numbers are popped once and fit an int: what node u + 1 has committed
and node u has not is in flight or will still be sent. -/
theorem no_ack_lost (u start : ℕ) (log : ReplayLog) (base : List (ℤ × Int64)) (own : ℤ) (es : List JoinEvent)
    (h : Meets (Joining.step (u + 1)) (AckCarried u) (Joining.start (u + 1) start log base own) es) :
    NoAckLost u (run (Joining.step (u + 1)) (Joining.start (u + 1) start log base own) es) :=
  (run_inv_of_meets (Joining.step (u + 1)) (AckCarried u) (CarryInv u) (fun _ e hf hr => step_carryInv hf e hr) _ es
    (carryInv_start u start log base own) h).carried

/-- the tail commits its number and calls the head, which throws -/
def commitAndRefuse : List Event :=
  [.act 1 (.ack 0 .start), .act 1 (.ack 0 .pop), .act 1 (.ack 0 .commit), .act 1 (.ack 0 .log), .act 1 (.ack 0 .bump),
    .sendAck 1 0, .act 0 (.ack 0 .start), .act 0 (.ack 0 .pop), .act 1 (.ack 0 .retry)]

/-- number 1 is relayed, written and committed at the tail, while the head has it still in hand -/
def refusedOnce : List JoinEvent :=
  (writeCall (requestAt 1) ++ (relayDown 0).take 7 ++ tailWrites ++ commitAndRefuse).map .node

/-- all steps of `ChangeMode` -/
def changeToMiddle : List JoinEvent :=
  [.change .link, .change .getModifiedOffsets, .change .restore, .change .getRelayLogContent, .change .updateReplayLog,
    .change .setState]

/-- the call is repeated before the role changes, and answered after it -/
def repeatedInTime : List JoinEvent :=
  refusedOnce ++ ((relayDown 0).drop 7).map .node ++ [.node (.sendAck 1 0)] ++ changeToMiddle ++
    [.node (.act 1 (.ack 0 .retry)), .node (.act 1 (.ack 0 .leave)), .node (.act 0 (.ack 1 .start))]

theorem no_ack_lost_in_time :
    NoAckLost 0 (run (Joining.step 1) (Joining.start 1 0 ReplayLog.empty [] 0) repeatedInTime) ∧
      ((run (Joining.step 1) (Joining.start 1 0 ReplayLog.empty [] 0) repeatedInTime).nodes 0).commitSeq = 0 ∧
      ((run (Joining.step 1) (Joining.start 1 0 ReplayLog.empty [] 0) repeatedInTime).nodes 1).commitSeq = 1 := by
  have hm : Meets (Joining.step 1) (AckCarried 0) (Joining.start 1 0 ReplayLog.empty [] 0) repeatedInTime := by
    decide +kernel
  exact ⟨no_ack_lost 0 0 ReplayLog.empty [] 0 repeatedInTime hm, by decide +kernel, by decide +kernel⟩

/-- **An ack is lost.** The head has refused number 1, and the old tail does not repeat the call as a middle node. -/
theorem refused_ack_lost :
    ¬ NoAckLost 0 (run (Joining.step 1) (Joining.start 1 0 ReplayLog.empty [] 0) (refusedOnce ++ changeToMiddle)) := by
  intro h
  have hlost := h 1 (by decide +kernel) (by decide +kernel)
  exact absurd hlost (by decide +kernel)

end ChainedBlockStorage.Chain
