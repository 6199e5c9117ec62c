/-
Sequence numbers as ints.

A number is a `long` in the counters, the queue and the volume and a uint64 in the messages. It is an `int` in the set
next to the pending queue, as key of the sent list, in the loop of `ChangeMode`, and in `RelayWriteAck`, which casts it
before it stores it in `commitSeq`.

- `numbers_kept`: in every run of joins, role changes and failures, of any length, numbers keep their value everywhere,
  as long as those that `Write` assigns, and those for which an entry is popped off the sent list, are ints.
- `ack_sets_negative`: the ack of number 2^31 sets `commitSeq` to -2^31.
-/
import ChainedBlockStorage.Chain.MidFailure
import ChainedBlockStorage.Chain.PastAck
import ChainedBlockStorage.Chain.CommitOnce

namespace ChainedBlockStorage.Chain

open Run Tables Positions Storage

/-! ## What keeping its value means -/

/-- an entry that `Write` or `RelayWrite` may push -/
def Node.Pushable (n : Node) (e : Entry) : Prop := e ∈ n.pushing ∨ ∃ h ∈ n.relays, h.req.entry = e

/-- numbers keep their value in `RelayWriteAck`, the pending queue, the sent list and the resend loop of a node -/
structure NumbersKept (n : Node) : Prop where
  /-- `RelayWriteAck` sets `commitSeq` to its number, and a handler of the next number goes on -/
  ack : ∀ (k : ℕ) seq, n.acks[k]? = some ⟨false, seq, .logged⟩ → (n.ackAct k .bump).commitSeq = seq ∧
    ∀ m : ℕ, (n.ackAct k .bump).acks[m]? = some ⟨false, seq + 1, .start⟩ →
      ((n.ackAct k .bump).ackAct m .start).acks[m]? = some ⟨false, seq + 1, .ready⟩
  /-- `pendingQueue.pushEntry` throws only for a number that is in the queue -/
  queue : ∀ e, n.Pushable e → n.pendingQueue.pushEntry e = none → ∃ x ∈ n.pendingQueue, x.seqNum = e.seqNum
  /-- the sent list has written entries, each at its number -/
  sent : ∀ x ∈ n.sentList, ∃ w ∈ n.written, x = (w.seqNum, sentEntry w)
  /-- `sentList.pushEntry` throws only for a number that is in the list -/
  send : ∀ e x, n.rwb = .send e → n.sentList.pushEntry (toInt e.seqNum) x = none → ∃ y ∈ n.sentList, y.1 = e.seqNum
  /-- an ack has popped the entry of its number -/
  popped : ∀ t ∈ n.acks, ∀ e, t.phase = .popped e → ∃ w ∈ n.written, w.seqNum = t.seq ∧ e = sentEntry w
  /-- from the number behind `last_seq_num` on, `getSentListRange` has the entries in the order of their numbers -/
  range : ∀ x ∈ n.sentList, ∃ rest, getSentListRange n.sentList (resendStart (UInt64.ofInt (x.1 - 1))) = .ok (x :: rest) ∧
    (∀ y, y ∈ rest ↔ y ∈ n.sentList ∧ x.1 < y.1) ∧ rest.Pairwise fun a b => a.1 < b.1
  /-- `read_sequence_number` finds the write of a number in the list, unless it is committed -/
  read : ∀ x ∈ n.sentList, x.1 ∉ n.committed.map Prod.fst → ∀ behind, ∃ w ∈ n.written, w.seqNum = x.1 ∧
    n.readSequenceNumber behind x.1 = some (bytes (w.data.buffer behind))

/-- a number that `Write` assigns, or for which an entry is popped, is an int -/
def IntNumbers (c : Cluster) : ClusterEvent → Prop
  | .node (.act i (.write (.takeSeq _))) => toInt (c.nodes i).currentSeq = (c.nodes i).currentSeq
  | .node (.act i (.ack k .pop)) => ∀ seq ∈ (c.nodes i).pops k, toInt seq = seq
  | _ => True

instance (c : Cluster) : ∀ e, Decidable (IntNumbers c e)
  | .node (.act i (.write (.takeSeq _))) => inferInstanceAs (Decidable (toInt (c.nodes i).currentSeq = _))
  | .node (.act i (.ack k .pop)) => inferInstanceAs (Decidable (∀ seq ∈ (c.nodes i).pops k, toInt seq = seq))
  | .node (.act _ (.ack _ .start)) | .node (.act _ (.ack _ .commit)) | .node (.act _ (.ack _ .log))
  | .node (.act _ (.ack _ .bump)) | .node (.act _ (.ack _ .leave)) | .node (.act _ (.ack _ .retry))
  | .node (.act _ (.write (.addToLog _))) | .node (.act _ (.write (.pushEntry _)))
  | .node (.act _ (.relay _ _)) | .node (.act _ (.rwb _)) | .node (.act _ (.ackLogEntry _)) | .node (.sendRelay _)
  | .node (.relayOk _) | .node (.sendAck _ _) | .node (.ackOk _ _) | .crash _ | .restore _ _ | .updateReplayLog _ _
  | .changeMode _ _ _ _ | .registered _ _ | .resend _ _ _ _ => isTrue trivial

/-! ## The invariant of a node -/

/-- the numbers of the commit side are ints, and what is sent or popped was written under its number -/
structure IntCommits (n : Node) : Prop where
  commit : -1 < n.commitSeq
  ready : ∀ t ∈ n.acks, t.phase.isReady = true → -1 < t.seq
  acks : ∀ t ∈ n.acks, t.background = false ∨ t.phase.holds = true ∨ t.phase.past = true → Fits (-1) t.seq
  sent : ∀ x ∈ n.sentList, Fits (-1) x.1 ∧ ∃ w ∈ n.written, x = (w.seqNum, sentEntry w)
  unsent : ∀ e, n.rwb.unsent = some e → e ∈ n.written
  popped : ∀ t ∈ n.acks, ∀ e, t.phase = .popped e → ∃ w ∈ n.written, w.seqNum = t.seq ∧ e = sentEntry w

section IntCommits

variable {n n' : Node}

/-- more may have been written -/
theorem IntCommits.grow (h : IntCommits n) (hc : n'.commits = n.commits) (hw : ∀ w ∈ n.written, w ∈ n'.written)
    (hu : ∀ e, n'.rwb.unsent = some e → n.rwb.unsent = some e ∨ e ∈ n'.written) : IntCommits n' := by
  have hcommit : n'.commitSeq = n.commitSeq := congrArg Commits.commitSeq hc
  have hsent : n'.sentList = n.sentList := congrArg Commits.sentList hc
  have hacks : n'.acks = n.acks := congrArg Commits.acks hc
  refine ⟨by rw [hcommit]; exact h.commit, by rw [hacks]; exact h.ready, by rw [hacks]; exact h.acks, ?_, ?_, ?_⟩
  · rw [hsent]
    intro x hx
    obtain ⟨hfit, w, hwn, hxw⟩ := h.sent x hx
    exact ⟨hfit, w, hw w hwn, hxw⟩
  · intro e he
    exact (hu e he).elim (fun he => hw e (h.unsent e he)) id
  · rw [hacks]
    intro t ht e he
    obtain ⟨w, hwn, hwt⟩ := h.popped t ht e he
    exact ⟨w, hw w hwn, hwt⟩

/-- the same commit side and writes -/
theorem IntCommits.congr (h : IntCommits n) (hc : n'.commits = n.commits) (hw : n'.written = n.written)
    (hr : n'.rwb = n.rwb) : IntCommits n' :=
  h.grow hc (fun w hwn => by rwa [hw]) fun e he => Or.inl (by rwa [← hr])

theorem IntCommits.rwbAct (h : IntCommits n) (hn : Numbers (-1) n.path) (a : RwbAct) : IntCommits (n.rwbAct a) := by
  cases a with
  | poll | spin | pop | leave | retry | bump =>
    simp only [Node.rwbAct]
    repeat' split
    all_goals exact h.grow rfl (fun _ hw => hw) (by simp_all [Rwb.unsent])
  | write =>
    simp only [Node.rwbAct]
    split
    · rename_i e hr
      rw [ofString_val]
      refine h.grow rfl (fun w hw => List.mem_append_left _ hw) fun x hx => Or.inr ?_
      obtain rfl : e = x := by simpa [Rwb.unsent] using hx
      exact List.mem_append_right _ (List.mem_singleton_self _)
    · exact h
  | send =>
    simp only [Node.rwbAct]
    split
    · rename_i e hr
      split
      · exact h.grow rfl (fun _ hw => hw) (by simp [Rwb.unsent])
      · rename_i l hl
        have hmem := SentList.pushEntry_eq_some hl
        have hfit : Fits (-1) e.seqNum := hn.held e (by simp [Node.path, hr, Rwb.held])
        refine ⟨h.commit, h.ready, h.acks, fun x hx => ?_, by simp [Rwb.unsent], h.popped⟩
        rcases (hmem x).1 hx with hx | rfl
        · exact h.sent x hx
        · simp only [hfit.2]
          exact ⟨hfit, e, h.unsent e (by simp [hr, Rwb.unsent]), rfl⟩
    · exact h

/-- a thread moves on with its number, or takes up another -/
theorem IntCommits.setAck (h : IntCommits n) (k : ℕ) (u : AckThread) (hready : u.phase.isReady = true → -1 < u.seq)
    (hfit : u.background = false ∨ u.phase.holds = true ∨ u.phase.past = true → Fits (-1) u.seq)
    (hpop : ∀ e, u.phase = .popped e → ∃ w ∈ n.written, w.seqNum = u.seq ∧ e = sentEntry w) :
    IntCommits (n.setAck k u) := by
  refine ⟨h.commit, ?_, ?_, h.sent, h.unsent, ?_⟩
  all_goals
    intro t ht
    rcases List.mem_or_eq_of_mem_set ht with ht | rfl
  · exact h.ready t ht
  · exact hready
  · exact h.acks t ht
  · exact hfit
  · exact h.popped t ht
  · exact hpop

/-- a thread that starts: a handler of an int, or a background thread -/
theorem IntCommits.concat (h : IntCommits n) {t : AckThread} (hp : t.phase = .start)
    (ht : t.background = false → Fits (-1) t.seq) : IntCommits { n with acks := n.acks ++ [t] } := by
  have hcases : ∀ u ∈ n.acks ++ [t], u ∈ n.acks ∨ u = t := fun u hu => by simpa using hu
  refine ⟨h.commit, ?_, ?_, h.sent, h.unsent, ?_⟩
  all_goals
    intro u hu
    rcases hcases u hu with hu | rfl
  · exact h.ready u hu
  · simp [hp, AckPhase.isReady]
  · exact h.acks u hu
  · simpa [hp, AckPhase.holds, AckPhase.past] using ht
  · exact h.popped u hu
  · simp [hp]

theorem IntCommits.ackAct (h : IntCommits n) (k : ℕ) (a : AckAct)
    (hpop : a = .pop → ∀ seq ∈ n.pops k, toInt seq = seq) : IntCommits (n.ackAct k a) := by
  have hlow := h.commit
  -- a thread that has its number from a handler or has popped it keeps it
  have hkeep : ∀ {b : Bool} {q : ℤ} {p : AckPhase}, n.acks[k]? = some ⟨b, q, p⟩ →
      (p.holds = true ∨ p.past = true) → Fits (-1) q := fun hk hp => h.acks _ (List.mem_of_getElem? hk) (Or.inr hp)
  have hhandler : ∀ {q : ℤ} {p : AckPhase}, n.acks[k]? = some ⟨false, q, p⟩ → Fits (-1) q :=
    fun hk => h.acks _ (List.mem_of_getElem? hk) (Or.inl rfl)
  have hstep := ackAct_step n k a
  generalize n.ackAct k a = x at hstep ⊢
  cases hstep with
  | stay => exact h
  | takeUp hk => exact h.setAck k _ (fun _ => by show -1 < n.commitSeq + 1; omega) (by simp [AckPhase.holds, AckPhase.past]) (by simp)
  | retire hk => exact h.setAck k _ (by simp [AckPhase.isReady]) (by simp [AckPhase.holds, AckPhase.past]) (by simp)
  | turn hk => exact h.setAck k _ (fun _ => (hhandler hk).1) (fun _ => hhandler hk) (by simp)
  | @refuse b q hk =>
    cases b
    · exact h.setAck k _ (by simp [AckPhase.isReady]) (fun _ => hhandler hk) (by simp)
    · exact h.setAck k _ (by simp [AckPhase.isReady]) (by simp [AckPhase.holds, AckPhase.past]) (by simp)
  | @pop b q e l hk hsome =>
    have hq : toInt q = q := hpop rfl q (by simp [Node.pops, hk, hsome])
    have hready : -1 < q := h.ready _ (List.mem_of_getElem? hk) rfl
    obtain ⟨hin, hmem⟩ := SentList.popEntry_eq_some hsome
    rw [hq] at hin
    obtain ⟨-, w, hw, hxw⟩ := h.sent _ hin
    obtain ⟨hwq, hwe⟩ := Prod.mk.inj hxw
    have hset := h.setAck k ⟨b, q, .popped e⟩ (by simp [AckPhase.isReady]) (fun _ => ⟨hready, hq⟩)
      fun d hd => ⟨w, hw, hwq.symm, by rw [← hwe]; exact (AckPhase.popped.inj hd).symm⟩
    exact ⟨hset.commit, hset.ready, hset.acks, fun x hx => hset.sent x ((hmem x).1 hx).1, hset.unsent, hset.popped⟩
  | @commit b q e hk =>
    have hset := h.setAck k ⟨b, q, .stored e⟩ (by simp [AckPhase.isReady]) (fun _ => hkeep hk (Or.inl rfl)) (by simp)
    exact hset.congr rfl rfl rfl
  | @log b q e hk =>
    have hset := h.setAck k ⟨b, q, .logged⟩ (by simp [AckPhase.isReady]) (fun _ => hkeep hk (Or.inl rfl)) (by simp)
    exact hset.congr rfl rfl rfl
  | @bump b q hk =>
    have hfit := hkeep hk (Or.inl rfl)
    have hset := h.setAck k ⟨b, q, .relaying⟩ (by simp [AckPhase.isReady]) (fun _ => hfit) (by simp)
    refine ⟨?_, hset.ready, hset.acks, hset.sent, hset.unsent, hset.popped⟩
    show -1 < if b then n.commitSeq + 1 else toInt q
    split_ifs
    · omega
    · rw [hfit.2]
      exact hfit.1
  | @leave b q hk =>
    cases b
    · exact h.setAck k _ (by simp [AckPhase.isReady]) (fun _ => hkeep hk (Or.inr rfl)) (by simp)
    · exact h.setAck k _ (by simp [AckPhase.isReady]) (by simp [AckPhase.holds, AckPhase.past]) (by simp)
  | retry hk => exact h.setAck k _ (by simp [AckPhase.isReady]) (fun _ => hkeep hk (Or.inr rfl)) (by simp)

theorem IntCommits.act (h : IntCommits n) (hn : Numbers (-1) n.path) (a : Act)
    (hpop : ∀ k, a = .ack k .pop → ∀ seq ∈ n.pops k, toInt seq = seq) : IntCommits (n.act a) := by
  by_cases hr : ∃ b, a = .rwb b
  · obtain ⟨b, rfl⟩ := hr
    unfold Node.act
    split
    · exact h
    · exact h.rwbAct hn b
  obtain ⟨hrwb, -, hw⟩ := act_progress n a fun b hb => hr ⟨b, hb⟩
  unfold Node.act at hrwb hw ⊢
  split
  · exact h
  rename_i hd
  rw [if_neg hd] at hrwb hw
  cases a with
  | write a => exact h.congr (writeAct_commits n a) hw hrwb
  | relay k a => exact h.congr (relayAct_commits n k a) hw hrwb
  | rwb b => exact absurd ⟨b, rfl⟩ hr
  | ack k a => exact h.ackAct k a fun ha => hpop k (by rw [ha])
  | ackLogEntry r => exact h.congr rfl rfl rfl

theorem IntCommits.wire (h : IntCommits n) (w : Wire) (hw : ∀ seq, w = .ackArrives seq → Fits (-1) seq) :
    IntCommits (n.wire w) := by
  cases w with
  | relayArrives q => exact h.congr rfl rfl rfl
  | relaySent j k | relayOk =>
    simp only [Node.wire]
    split
    · exact h.grow rfl (fun _ hx => hx) (by simp [Rwb.unsent])
    · exact h
  | ackArrives seq => exact h.concat rfl fun _ => hw seq rfl
  | ackSent k j m =>
    simp only [Node.wire]
    split
    · rename_i b q hk
      have hfit := h.acks _ (List.mem_of_getElem? hk) (Or.inr (Or.inr rfl))
      exact h.setAck k _ (by simp [AckPhase.isReady]) (fun _ => hfit) (by simp)
    · exact h
  | ackOk k =>
    simp only [Node.wire]
    split
    · rename_i b q j m hk
      have hfit := h.acks _ (List.mem_of_getElem? hk) (Or.inr (Or.inr rfl))
      cases b
      · exact h.setAck k _ (by simp [AckThread.finish, AckPhase.isReady]) (fun _ => hfit) (by simp [AckThread.finish])
      · apply h.setAck k
        all_goals simp [AckThread.finish, AckPhase.isReady, AckPhase.holds, AckPhase.past]
    · exact h

theorem IntCommits.changeMode (h : IntCommits n) (new : State) (prev next : Option ℕ) :
    IntCommits (n.changeMode new prev next) := by
  have hlaunch : IntCommits { n with acks := n.acks ++ [⟨true, 0, .start⟩] } := h.concat rfl (by simp)
  have hpath := (changeMode_same n new prev next).1
  rcases changeMode_commits n new prev next with e | e
  · exact h.congr e (congrArg Path.written hpath) (congrArg Path.rwb hpath)
  · exact hlaunch.congr e (congrArg Path.written hpath) (congrArg Path.rwb hpath)

end IntCommits

/-! ## What follows at a node -/

section Kept

variable {n : Node}

/-- the number behind `last_seq_num` is looked up under its own value, and what is behind it comes in order -/
theorem IntCommits.range (h : IntCommits n) {x : ℤ × SentListEntry} (hx : x ∈ n.sentList) :
    getSentListRange n.sentList (resendStart (UInt64.ofInt (x.1 - 1))) =
      .ok (x :: n.sentList.toList.filter fun y => x.1 < y.1) := by
  have hfit := (h.sent x hx).1
  have hlow := hfit.1
  have hlt := hfit.lt
  have hstart : resendStart (UInt64.ofInt (x.1 - 1)) = x.1 := by
    rw [resendStart_ofInt (by omega) (by omega)]
    omega
  have hne : n.sentList.toList.length ≠ 0 := fun h0 => List.ne_nil_of_mem hx (List.length_eq_zero_iff.1 h0)
  rw [hstart, ← Sorted.filter_le_eq_cons hx]
  unfold getSentListRange
  rw [if_neg hne]
  split_ifs with h0
  · -- 0 stands for the whole list, whose numbers are not negative
    have hall : n.sentList.toList.filter (fun y => decide (x.1 ≤ y.1)) = n.sentList.toList := by
      rw [List.filter_eq_self]
      intro y hy
      have hy0 := (h.sent y hy).1.1
      simp only [decide_eq_true_eq]
      omega
    rw [hall]
  · cases hf : n.sentList.find? x.1 with
    | none => exact absurd rfl (Sorted.find?_eq_none.1 hf x hx)
    | some y => simp only [dropWhile_eq_filter]

theorem IntCommits.read (h : IntCommits n) {x : ℤ × SentListEntry} (hx : x ∈ n.sentList)
    (hc : x.1 ∉ n.committed.map Prod.fst) (behind : Buf) : ∃ w ∈ n.written, w.seqNum = x.1 ∧
      n.readSequenceNumber behind x.1 = some (bytes (w.data.buffer behind)) := by
  obtain ⟨-, w, hw, hxw⟩ := h.sent x hx
  have hsome : (n.written.find? fun e => e.seqNum = x.1).isSome := by
    rw [List.find?_isSome]
    exact ⟨w, hw, by simp [hxw]⟩
  obtain ⟨e, he⟩ := Option.isSome_iff_exists.1 hsome
  refine ⟨e, List.mem_of_find?_eq_some he, by simpa using List.find?_some he, ?_⟩
  rw [Node.readSequenceNumber, if_neg hc, he]
  rfl

/-- a handler goes on when its number is the next one -/
theorem ackAct_turn {k : ℕ} {seq : ℤ} (hk : n.acks[k]? = some ⟨false, seq, .start⟩) (hseq : n.commitSeq + 1 = seq) :
    (n.ackAct k .start).acks[k]? = some ⟨false, seq, .ready⟩ := by
  have hlt := (List.getElem?_eq_some_iff.1 hk).1
  have hact : n.ackAct k .start = n.setAck k ⟨false, seq, .ready⟩ := by simp [Node.ackAct, Node.ackStart, hk, hseq]
  rw [hact]
  simp [Node.setAck, hlt]

theorem numbersKept (hn : Numbers (-1) n.path) (h : IntCommits n) : NumbersKept n where
  ack k seq hk := by
    have hfit : Fits (-1) seq := h.acks _ (List.mem_of_getElem? hk) (Or.inl rfl)
    have hbump : n.ackAct k .bump = { n.setAck k ⟨false, seq, .relaying⟩ with commitSeq := seq } := by
      simp [Node.ackAct, hk, hfit.2]
    rw [hbump]
    exact ⟨rfl, fun m hm => ackAct_turn hm rfl⟩
  queue e he hnone := by
    obtain ⟨x, hx, hxe⟩ := PendingQueue.pushEntry_eq_none.1 hnone
    have hfit : Fits (-1) e.seqNum := by
      rcases he with he | ⟨q, hq, rfl⟩
      · exact hn.pushing e he
      · exact hn.relays q hq
    have hxfit : Fits (-1) x.seqNum := hn.queue x hx
    exact ⟨x, hx, by rw [← hxfit.2, hxe, hfit.2]⟩
  sent x hx := (h.sent x hx).2
  send e x hr hnone := by
    have hfit : Fits (-1) e.seqNum := hn.held e (by simp [Node.path, hr, Rwb.held])
    rw [hfit.2] at hnone
    exact SentList.pushEntry_eq_none.1 hnone
  popped := h.popped
  range x hx := by
    refine ⟨_, h.range hx, fun y => ?_, n.sentList.sorted.filter _⟩
    simp [← Sorted.mem_toList]
  read x hx hc behind := h.read hx hc behind

end Kept

/-! ## Runs -/

structure IntInv (own : ℕ → ℕ) (c : Cluster) : Prop where
  numbers : ∀ i, Numbers (-1) (c.nodes i).path
  commits : ∀ i, IntCommits (c.nodes i)
  newborn : ∀ i, i ∉ c.restored → Newborn [(own i : ℤ)] (c.nodes i)

section IntInv

variable {own : ℕ → ℕ} {c : Cluster}

/-- `Restore` counts on from what the volume has -/
theorem IntInv.maxseq (h : IntInv own c) {i : ℕ} (hacks : (c.nodes i).acks = []) (hr : i ∉ c.restored)
    (entries : List (ℤ × Int64)) : -1 < ((c.nodes i).restore entries).commitSeq := by
  have hlast : [(own i : ℤ)] = [(c.nodes i).lastCommitted] := h.newborn i hr hacks
  have hown : (own i : ℤ) = (c.nodes i).lastCommitted := by simpa using hlast
  have hle := (maxseq_isGreatest entries (c.nodes i).lastCommitted).2 List.mem_cons_self
  simp only [Node.restore]
  omega

theorem step_intInv (e : ClusterEvent) (h : IntInv own c) (hc : IntNumbers c e) : IntInv own (c.step e) := by
  refine ⟨?_, ?_, newborn_step h.newborn e⟩
  · refine Cluster.step_nodes (fun n => Numbers (-1) n.path) c e h.numbers ?_ ?_ ?_ ?_ ?_ ?_ ?_
    · rintro e rfl
      apply step_numbers h.numbers e
      rintro i k rfl
      exact hc
    · exact fun n hn => ⟨hn.queue, by simp [Node.path, Rwb.held], hn.pushing, hn.relays, hn.next⟩
    · intro i entries hacks hr
      have hn := h.numbers i
      have hmax := h.maxseq hacks hr entries
      exact ⟨hn.queue, hn.held, hn.pushing, hn.relays, by simp only [Node.path, Node.restore] at hmax ⊢; omega⟩
    · exact fun n log hn => hn
    · exact fun n new prev next hn => by rw [(changeMode_same n new prev next).1]; exact hn
    · exact fun n prev hn => hn
    · intro i x hx n data reqId hn
      apply numbers_wire hn
      rintro q ⟨⟩
      exact ((h.commits i).sent x hx).1
  · refine Cluster.step_nodes IntCommits c e h.commits ?_ ?_ ?_ ?_ ?_ ?_ ?_
    · rintro e rfl j
      refine step_node_calls IntCommits c.nodes e j (h.commits j) (fun a ha => ?_) fun n w _ hw hn => hn.wire w ?_
      · apply (h.commits j).act (h.numbers j) a
        rintro k rfl
        subst ha
        exact hc
      · rintro seq rfl
        obtain ⟨i, k, ht⟩ := hw seq rfl
        obtain ⟨b, hk, -⟩ := ackTarget_eq_some ht
        exact (h.commits i).acks _ (List.mem_of_getElem? hk) (Or.inr (Or.inr rfl))
    · exact fun n hn => hn.grow rfl (fun _ hw => hw) (by simp [Rwb.unsent])
    · intro i entries hacks hr
      have hi := h.commits i
      exact ⟨h.maxseq hacks hr entries, hi.ready, hi.acks, hi.sent, hi.unsent, hi.popped⟩
    · exact fun n log hn => hn.congr rfl rfl rfl
    · exact fun n new prev next hn => hn.changeMode new prev next
    · exact fun n prev hn => (hn.concat (t := ⟨true, 0, .start⟩) rfl (by simp)).congr rfl rfl rfl
    · exact fun i x _ n data reqId hn => hn.wire _ (by simp)

theorem intInv_start (own : ℕ → ℕ) : IntInv own (Cluster.start fun i => own i) := by
  refine ⟨fun i => ?_, fun i => ⟨?_, ?_, ?_, ?_, ?_, ?_⟩, fun i _ _ => rfl⟩
  · constructor
    all_goals simp [Cluster.start, Node.idle, Node.path, Rwb.held]
  · show -1 < (own i : ℤ)
    omega
  all_goals simp [Cluster.start, Node.idle, Rwb.unsent]

end IntInv

/-- **Numbers keep their value.** In every state of every run of joins, writes, commits, role changes, relinks, resends
and failures, as long as the numbers that `Write` assigns, and those for which an entry is popped, are ints: an ack sets
`commitSeq` to its number and the next one is accepted, a table throws only for the same number, and the sent list has
the entries at their numbers, in order, for the resend. -/
theorem numbers_kept (own : ℕ → ℕ) (es : List ClusterEvent)
    (h : Meets Cluster.step IntNumbers (Cluster.start fun i => own i) es) (i : ℕ) :
    NumbersKept ((run Cluster.step (Cluster.start fun i => own i) es).nodes i) := by
  have hinv := run_inv_of_meets Cluster.step IntNumbers (IntInv own) (fun c e hc hp => step_intInv e hc hp) _ es
    (intInv_start own) h
  exact numbersKept (hinv.numbers i) (hinv.commits i)

deriving instance DecidableEq for AckPhase, AckThread

/-- a number goes down to the tail, and its commit comes back to the head, which has not set `commitSeq` yet -/
def ackAtHead : List ClusterEvent :=
  writtenBelow ++ ((relayDown 0).drop 7).map .node ++ commitAt 1 0 ++ [.node (.sendAck 1 0)] ++ (commitAt 0 1).take 4

theorem numbers_kept_one :
    NumbersKept ((run Cluster.step (Cluster.start fun _ => ((0 : ℕ) : ℤ)) ackAtHead).nodes 0) ∧
      ((run Cluster.step (Cluster.start fun _ => ((0 : ℕ) : ℤ)) ackAtHead).nodes 0).acks[1]? =
        some ⟨false, 1, .logged⟩ := by
  have hm : Meets Cluster.step IntNumbers (Cluster.start fun _ => ((0 : ℕ) : ℤ)) ackAtHead := by decide +kernel
  exact ⟨numbers_kept (fun _ => 0) ackAtHead hm 0, by decide +kernel⟩

/-- **The ack of number 2^31.** Volumes that have counted to 2^31 - 1 start again, and the next write passes down and
back: the head sets `commitSeq` to -2^31. -/
theorem ack_sets_negative :
    ¬ ∀ i, NumbersKept ((run Cluster.step (Cluster.start fun _ => 2 ^ 31 - 1) ackAtHead).nodes i) := by
  intro h
  have hk : ((run Cluster.step (Cluster.start fun _ => 2 ^ 31 - 1) ackAtHead).nodes 0).acks[1]? =
      some ⟨false, 2 ^ 31, .logged⟩ := by
    decide +kernel
  have hcommit := ((h 0).ack 1 (2 ^ 31) hk).1
  have hneg : (((run Cluster.step (Cluster.start fun _ => 2 ^ 31 - 1) ackAtHead).nodes 0).ackAct 1 .bump).commitSeq =
      -2 ^ 31 := by
    decide +kernel
  rw [hneg] at hcommit
  exact absurd hcommit (by decide)

end ChainedBlockStorage.Chain
