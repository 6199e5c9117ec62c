/-
The way back of a stable chain: from the sent list to `commitSeq` at every node.

A thread holds a number between `sentList.popEntry` and the change of `commitSeq`. The invariant `OnReturn`:
- at every node, the sent list holds numbers above `commitSeq` and up to what has been written, at most one thread holds
  a number, and it is `commitSeq + 1`;
- a `RelayWriteAck` handler is about a number that the downstream node has committed.

- `onReturn_step`: every step keeps it, on a chain whose write path is in order and whose numbers are below 2^31.
-/
import ChainedBlockStorage.Chain.WritePath

namespace ChainedBlockStorage.Chain

open Tables Positions

/-! ## The invariant -/

/-- between `popEntry` and the change of `commitSeq` -/
def AckPhase.holds : AckPhase → Bool
  | .popped _ | .stored _ | .logged => true
  | _ => false

/-- after the change of `commitSeq`, until the upstream node has answered -/
def AckPhase.past : AckPhase → Bool
  | .relaying | .calling _ _ => true
  | _ => false

def AckPhase.isReady : AckPhase → Bool
  | .ready => true
  | _ => false

/-- a background thread that has no number -/
def AckThread.idle (t : AckThread) : Bool :=
  t.background && match t.phase with
    | .start | .done => true
    | _ => false

/-- the last number that is in the sent list or was -/
def Node.sentTop (n : Node) : ℤ :=
  match n.rwb with
  | .send _ => n.writeSeq - 1
  | _ => n.writeSeq

structure CommitInv (start : ℤ) (n : Node) : Prop where
  lower : start ≤ n.commitSeq
  upper : n.commitSeq ≤ n.sentTop
  sent : ∀ x ∈ n.sentList, n.commitSeq < x.1 ∧ x.1 ≤ n.sentTop
  started : ∀ (k : ℕ) (t : AckThread), n.acks[k]? = some t → t.idle = false → start < t.seq
  ready : ∀ (k : ℕ) (t : AckThread), n.acks[k]? = some t → t.phase.isReady = true → t.seq ≤ n.commitSeq + 1
  held : ∀ (k : ℕ) (t : AckThread), n.acks[k]? = some t → t.phase.holds = true →
    t.seq = n.commitSeq + 1 ∧ t.seq ≤ n.sentTop ∧ ∀ x ∈ n.sentList, x.1 ≠ t.seq
  one : ∀ (k m : ℕ) (t u : AckThread), n.acks[k]? = some t → n.acks[m]? = some u → t.phase.holds = true →
    u.phase.holds = true → k = m
  past : ∀ (k : ℕ) (t : AckThread), n.acks[k]? = some t → t.phase.past = true → t.seq ≤ n.commitSeq

/-- what holds between a node and the next one downstream -/
structure CommitLink (u d : Node) : Prop where
  commit : u.commitSeq ≤ d.commitSeq
  handler : ∀ (k : ℕ) (t : AckThread), u.acks[k]? = some t → t.background = false ∧ t.seq ≤ d.commitSeq

structure OnReturn (n start : ℕ) (s : Nodes) : Prop where
  node : ∀ i < n, CommitInv start (s i)
  link : ∀ i, i + 1 < n → CommitLink (s i) (s (i + 1))

/-! ## Threads -/

section Node

variable {start : ℤ} {n : Node}

/-- a thread moves on without taking or giving back a number -/
theorem CommitInv.setAck (h : CommitInv start n) {k : ℕ} {t : AckThread} (hk : n.acks[k]? = some t) (u : AckThread)
    (hstarted : u.idle = false → start < u.seq) (hready : u.phase.isReady = true → u.seq ≤ n.commitSeq + 1)
    (hheld : u.phase.holds = true → t.phase.holds = true ∧ u.seq = t.seq)
    (hpast : u.phase.past = true → u.seq ≤ n.commitSeq) : CommitInv start (n.setAck k u) := by
  refine ⟨h.lower, h.upper, h.sent, ?_, ?_, ?_, ?_, ?_⟩
  · intro m v hv hi
    rcases getElem?_of_set hv with ⟨rfl, rfl⟩ | ⟨-, hv⟩
    · exact hstarted hi
    · exact h.started m v hv hi
  · intro m v hv hr
    rcases getElem?_of_set hv with ⟨rfl, rfl⟩ | ⟨-, hv⟩
    · exact hready hr
    · exact h.ready m v hv hr
  · intro m v hv hh
    rcases getElem?_of_set hv with ⟨rfl, rfl⟩ | ⟨-, hv⟩
    · obtain ⟨ht, hseq⟩ := hheld hh
      rw [hseq]
      exact h.held m t hk ht
    · exact h.held m v hv hh
  · intro m m' v v' hv hv' hh hh'
    rcases getElem?_of_set hv with ⟨rfl, rfl⟩ | ⟨-, hold⟩
    · rcases getElem?_of_set hv' with ⟨rfl, rfl⟩ | ⟨-, hold'⟩
      · rfl
      · exact h.one _ _ t v' hk hold' (hheld hh).1 hh'
    · rcases getElem?_of_set hv' with ⟨rfl, rfl⟩ | ⟨-, hold'⟩
      · exact h.one _ _ v t hold hk hh (hheld hh').1
      · exact h.one _ _ v v' hold hold' hh hh'
  · intro m v hv hp
    rcases getElem?_of_set hv with ⟨rfl, rfl⟩ | ⟨-, hv⟩
    · exact hpast hp
    · exact h.past m v hv hp

/-- taking a number off the sent list -/
theorem CommitInv.pop (h : CommitInv start n) (h0 : 0 ≤ start) (hb : n.sentTop < 2 ^ 31) {k : ℕ} {t : AckThread}
    (hk : n.acks[k]? = some t) (hr : t.phase.isReady = true) {e : SentListEntry} {l : SentList}
    (hp : n.sentList.popEntry (toInt t.seq) = some (e, l)) :
    CommitInv start { n.setAck k { t with phase := .popped e } with sentList := l } := by
  obtain ⟨hin, hmem⟩ := SentList.popEntry_eq_some hp
  obtain ⟨hlo, hhi⟩ := h.sent _ hin
  have hlow := h.lower
  have hready := h.ready k t hk hr
  have hidle : t.idle = false := by
    cases hph : t.phase <;> simp_all [AckThread.idle, AckPhase.isReady]
  have hstarted := h.started k t hk hidle
  simp only at hlo hhi
  -- the key is the number itself, and it is the next one to commit
  have hkey : toInt t.seq = t.seq := toInt_of_lt (by omega) (by omega)
  rw [hkey] at hin hlo hhi hmem
  have hseq : t.seq = n.commitSeq + 1 := by omega
  have hnone : ∀ (m : ℕ) (v : AckThread), n.acks[m]? = some v → v.phase.holds = true → False := by
    intro m v hv hh
    obtain ⟨hv1, -, hv2⟩ := h.held m v hv hh
    exact hv2 _ hin (by rw [hv1]; exact hseq)
  refine ⟨h.lower, h.upper, ?_, ?_, ?_, ?_, ?_, ?_⟩
  · exact fun x hx => h.sent x ((hmem x).1 hx).1
  · intro m v hv hi
    rcases getElem?_of_set hv with ⟨rfl, rfl⟩ | ⟨-, hv⟩
    · exact hstarted
    · exact h.started m v hv hi
  · intro m v hv hr
    rcases getElem?_of_set hv with ⟨rfl, rfl⟩ | ⟨-, hv⟩
    · cases hr
    · exact h.ready m v hv hr
  · intro m v hv hh
    rcases getElem?_of_set hv with ⟨rfl, rfl⟩ | ⟨-, hv⟩
    · exact ⟨hseq, hhi, fun x hx => ((hmem x).1 hx).2⟩
    · exact absurd hh (fun hh => hnone m v hv hh)
  · intro m m' v v' hv hv' hh hh'
    rcases getElem?_of_set hv with ⟨rfl, rfl⟩ | ⟨-, hv⟩
    · rcases getElem?_of_set hv' with ⟨rfl, rfl⟩ | ⟨-, hv'⟩
      · rfl
      · exact absurd hh' (fun hh' => hnone m' v' hv' hh')
    · exact absurd hh (fun hh => hnone m v hv hh)
  · intro m v hv hp
    rcases getElem?_of_set hv with ⟨rfl, rfl⟩ | ⟨-, hv⟩
    · cases hp
    · exact h.past m v hv hp

/-- the holder of a number changes `commitSeq` to it -/
theorem CommitInv.bump (h : CommitInv start n) {k : ℕ} {t : AckThread} (hk : n.acks[k]? = some t)
    (hh : t.phase.holds = true) :
    CommitInv start { n.setAck k { t with phase := .relaying } with commitSeq := t.seq } := by
  obtain ⟨hseq, htop, hne⟩ := h.held k t hk hh
  have hnone : ∀ (m : ℕ) (v : AckThread), m ≠ k → n.acks[m]? = some v → v.phase.holds = true → False :=
    fun m v hmk hv hv' => hmk (h.one m k v t hv hk hv' hh)
  have hlow := h.lower
  refine ⟨?_, htop, ?_, ?_, ?_, ?_, ?_, ?_⟩
  · show start ≤ t.seq
    omega
  · intro x hx
    obtain ⟨h1, h2⟩ := h.sent x hx
    have := hne x hx
    exact ⟨by show t.seq < x.1; omega, h2⟩
  · intro m v hv hi
    rcases getElem?_of_set hv with ⟨rfl, rfl⟩ | ⟨-, hv⟩
    · show start < t.seq
      omega
    · exact h.started m v hv hi
  · intro m v hv hr
    rcases getElem?_of_set hv with ⟨rfl, rfl⟩ | ⟨-, hv⟩
    · cases hr
    · have := h.ready m v hv hr
      show v.seq ≤ t.seq + 1
      omega
  · intro m v hv hv'
    rcases getElem?_of_set hv with ⟨rfl, rfl⟩ | ⟨hmk, hv⟩
    · cases hv'
    · exact absurd hv' (fun hv' => hnone m v hmk hv hv')
  · intro m m' v v' hv hv' hv1 hv2
    rcases getElem?_of_set hv with ⟨rfl, rfl⟩ | ⟨hmk, hv⟩
    · cases hv1
    · exact absurd hv1 (fun hv1 => hnone m v hmk hv hv1)
  · intro m v hv hp
    rcases getElem?_of_set hv with ⟨rfl, rfl⟩ | ⟨-, hv⟩
    · exact le_refl _
    · have := h.past m v hv hp
      show v.seq ≤ t.seq
      omega

/-- what a step of a thread changes for the neighbours: `commitSeq` does not fall, it only takes the number of a
thread, and threads keep their number -/
structure AckMove (n n' : Node) : Prop where
  commit : n'.commitSeq = n.commitSeq ∨
    ∃ (k : ℕ) (t : AckThread), n.acks[k]? = some t ∧ n.commitSeq ≤ t.seq ∧ n'.commitSeq = t.seq
  threads : ∀ (k : ℕ) (t' : AckThread), n'.acks[k]? = some t' →
    ∃ t, n.acks[k]? = some t ∧ t'.background = t.background ∧ (t.background = false → t'.seq = t.seq)

theorem AckMove.refl (n : Node) : AckMove n n := ⟨Or.inl rfl, fun _ t h => ⟨t, h, rfl, fun _ => rfl⟩⟩

theorem AckMove.commit_le {n n' : Node} (h : AckMove n n') : n.commitSeq ≤ n'.commitSeq := by
  rcases h.commit with h | ⟨_, _, _, hle, h⟩ <;> omega

theorem threads_setAck {n : Node} {k : ℕ} {t : AckThread} (hk : n.acks[k]? = some t) (u : AckThread)
    (hb : u.background = t.background) (hseq : t.background = false → u.seq = t.seq) (m : ℕ) (v : AckThread)
    (hv : (n.acks.set k u)[m]? = some v) :
    ∃ t, n.acks[m]? = some t ∧ v.background = t.background ∧ (t.background = false → v.seq = t.seq) := by
  rcases getElem?_of_set hv with ⟨rfl, rfl⟩ | ⟨-, hv⟩
  · exact ⟨t, hk, hb, hseq⟩
  · exact ⟨v, hv, rfl, fun _ => rfl⟩

/-- the threads of a node keep its invariant -/
theorem ackAct_inv (h : CommitInv start n) (h0 : 0 ≤ start) (hb : n.sentTop < 2 ^ 31) (k : ℕ) (a : AckAct) :
    CommitInv start (n.ackAct k a) ∧ AckMove n (n.ackAct k a) := by
  have hlow := h.lower
  -- a thread that holds no number, nor goes on to
  have hfree : ∀ {t : AckThread} (u : AckThread), n.acks[k]? = some t → u.background = t.background →
      (t.background = false → u.seq = t.seq) → (u.idle = false → start < u.seq) →
      (u.phase.isReady = true → u.seq ≤ n.commitSeq + 1) → u.phase.holds = false →
      (u.phase.past = true → u.seq ≤ n.commitSeq) →
      CommitInv start (n.setAck k u) ∧ AckMove n (n.setAck k u) := by
    intro t u hk hbg hseq hidle hready hh hpast
    exact ⟨h.setAck hk u hidle hready (by simp [hh]) hpast, Or.inl rfl, threads_setAck hk u hbg hseq⟩
  have hstep := ackAct_step n k a
  generalize n.ackAct k a = x at hstep ⊢
  cases hstep with
  | stay => exact ⟨h, AckMove.refl n⟩
  | takeUp hk =>
    refine hfree _ hk rfl (by simp) (fun _ => ?_) (fun _ => le_refl _) rfl (by simp [AckPhase.past])
    show start < n.commitSeq + 1
    omega
  | @retire q hk =>
    apply hfree ⟨true, q, .done⟩ hk rfl (by simp)
    all_goals simp [AckThread.idle, AckPhase.isReady, AckPhase.holds, AckPhase.past]
  | @turn q hk hq =>
    refine hfree _ hk rfl (fun _ => rfl) (fun _ => ?_) (fun _ => le_of_eq hq.symm) rfl (by simp [AckPhase.past])
    show start < q
    omega
  | @refuse b q hk =>
    have hs := h.started k _ hk (by simp [AckThread.idle])
    apply hfree ⟨b, q, if b then .start else .failed⟩ hk rfl (fun _ => rfl) (fun _ => hs)
    all_goals cases b <;> simp [AckPhase.isReady, AckPhase.holds, AckPhase.past]
  | pop hk hsome => exact ⟨h.pop h0 hb hk rfl hsome, Or.inl rfl, threads_setAck hk _ rfl (fun _ => rfl)⟩
  | @commit b q e hk =>
    have hs := h.started k _ hk (by simp [AckThread.idle])
    have hset := h.setAck hk ⟨b, q, .stored e⟩ (fun _ => hs) (by simp [AckPhase.isReady]) (fun _ => ⟨rfl, rfl⟩)
      (by simp [AckPhase.past])
    exact ⟨⟨hset.lower, hset.upper, hset.sent, hset.started, hset.ready, hset.held, hset.one, hset.past⟩,
      Or.inl rfl, threads_setAck hk _ rfl (fun _ => rfl)⟩
  | @log b q e hk =>
    have hs := h.started k _ hk (by simp [AckThread.idle])
    have hset := h.setAck hk ⟨b, q, .logged⟩ (fun _ => hs) (by simp [AckPhase.isReady]) (fun _ => ⟨rfl, rfl⟩)
      (by simp [AckPhase.past])
    exact ⟨⟨hset.lower, hset.upper, hset.sent, hset.started, hset.ready, hset.held, hset.one, hset.past⟩,
      Or.inl rfl, threads_setAck hk _ rfl (fun _ => rfl)⟩
  | @bump b q hk =>
    have hseq : q = n.commitSeq + 1 := (h.held k _ hk rfl).1
    have htop : q ≤ n.sentTop := (h.held k _ hk rfl).2.1
    have hval : (if b then n.commitSeq + 1 else toInt q) = q := by
      split_ifs
      · exact hseq.symm
      · exact toInt_of_lt (by omega) (by omega)
    rw [hval]
    have hle : n.commitSeq ≤ q := by omega
    exact ⟨h.bump hk rfl, Or.inr ⟨k, _, hk, hle, rfl⟩, threads_setAck hk _ rfl (fun _ => rfl)⟩
  | @leave b q hk =>
    have hs := h.started k _ hk (by simp [AckThread.idle])
    apply hfree ⟨b, q, if b then .start else .done⟩ hk rfl (fun _ => rfl) (fun _ => hs)
    all_goals cases b <;> simp [AckPhase.isReady, AckPhase.holds, AckPhase.past]
  | retry hk =>
    have hs := h.started k _ hk (by simp [AckThread.idle])
    have hp := h.past k _ hk rfl
    exact hfree _ hk rfl (fun _ => rfl) (fun _ => hs) (by simp [AckPhase.isReady]) rfl (fun _ => hp)

/-- the exchanges of acks, seen from one node -/
theorem ackSent_inv (h : CommitInv start n) {k j m : ℕ} : CommitInv start (n.wire (.ackSent k j m)) ∧
    AckMove n (n.wire (.ackSent k j m)) := by
  simp only [Node.wire]
  split
  · rename_i b seq hk
    have hp := h.past k _ hk rfl
    have hs := h.started k _ hk (by simp [AckThread.idle])
    exact ⟨h.setAck hk _ (fun _ => hs) (by simp [AckPhase.isReady]) (by simp [AckPhase.holds]) (fun _ => hp),
      Or.inl rfl, threads_setAck hk _ rfl (fun _ => rfl)⟩
  · exact ⟨h, AckMove.refl n⟩

theorem ackOk_inv (h : CommitInv start n) {k : ℕ} : CommitInv start (n.wire (.ackOk k)) ∧
    AckMove n (n.wire (.ackOk k)) := by
  simp only [Node.wire]
  split
  · rename_i b seq j m hk
    have hs := h.started k _ hk (by simp [AckThread.idle])
    refine ⟨h.setAck hk _ (fun _ => hs) ?_ ?_ ?_, Or.inl rfl, threads_setAck hk _ rfl (fun _ => rfl)⟩
    all_goals cases b <;> simp [AckThread.finish, AckPhase.isReady, AckPhase.holds, AckPhase.past]
  · exact ⟨h, AckMove.refl n⟩

/-- a handler for a number above `start` appears -/
theorem ackArrives_inv (h : CommitInv start n) {seq : ℤ} (hs : start < seq) :
    CommitInv start (n.wire (.ackArrives seq)) := by
  refine ⟨h.lower, h.upper, h.sent, ?_, ?_, ?_, ?_, ?_⟩
  · intro m v hv hi
    rcases getElem?_of_concat hv with hv | ⟨-, rfl⟩
    · exact h.started m v hv hi
    · exact hs
  · intro m v hv hr
    rcases getElem?_of_concat hv with hv | ⟨-, rfl⟩
    · exact h.ready m v hv hr
    · cases hr
  · intro m v hv hh
    rcases getElem?_of_concat hv with hv | ⟨-, rfl⟩
    · exact h.held m v hv hh
    · cases hh
  · intro m m' v v' hv hv' hh hh'
    rcases getElem?_of_concat hv with hv | ⟨-, rfl⟩
    · rcases getElem?_of_concat hv' with hv' | ⟨-, rfl⟩
      · exact h.one m m' v v' hv hv' hh hh'
      · cases hh'
    · cases hh
  · intro m v hv hp
    rcases getElem?_of_concat hv with hv | ⟨-, rfl⟩
    · exact h.past m v hv hp
    · cases hp

/-- more may have been written -/
theorem CommitInv.of_commits_eq {x : Node} (h : CommitInv start n) (hc : x.commits = n.commits)
    (ht : n.sentTop ≤ x.sentTop) : CommitInv start x := by
  have hcommit : x.commitSeq = n.commitSeq := congrArg Commits.commitSeq hc
  have hsent : x.sentList = n.sentList := congrArg Commits.sentList hc
  have hacks : x.acks = n.acks := congrArg Commits.acks hc
  have hup := h.upper
  refine ⟨by rw [hcommit]; exact h.lower, by omega, ?_, ?_, ?_, ?_, ?_, ?_⟩
  · rw [hsent, hcommit]
    exact fun y hy => ⟨(h.sent y hy).1, (h.sent y hy).2.trans ht⟩
  · rw [hacks]; exact h.started
  · rw [hacks, hcommit]; exact h.ready
  · rw [hacks, hcommit, hsent]
    intro k t hk hh
    obtain ⟨h1, h2, h3⟩ := h.held k t hk hh
    exact ⟨h1, h2.trans ht, h3⟩
  · rw [hacks]; exact h.one
  · rw [hacks, hcommit]; exact h.past

/-- the write thread adds what it has just written to the sent list -/
theorem CommitInv.send (h : CommitInv start n) {e : Entry} (hr : n.rwb = .send e) {l : SentList} {x : SentListEntry}
    (hl : n.sentList.pushEntry n.writeSeq x = some l) : CommitInv start { n with rwb := .poll, sentList := l } := by
  have htop : n.sentTop = n.writeSeq - 1 := by simp [Node.sentTop, hr]
  have hup := h.upper
  have hmem := SentList.pushEntry_eq_some hl
  refine ⟨h.lower, ?_, ?_, h.started, h.ready, ?_, h.one, h.past⟩
  · show n.commitSeq ≤ n.writeSeq
    omega
  · intro y hy
    show n.commitSeq < y.1 ∧ y.1 ≤ n.writeSeq
    rcases (hmem y).1 hy with hy | rfl
    · obtain ⟨h1, h2⟩ := h.sent y hy
      exact ⟨h1, by omega⟩
    · exact ⟨by show n.commitSeq < n.writeSeq; omega, le_refl _⟩
  · intro k t hk hh
    obtain ⟨h1, h2, h3⟩ := h.held k t hk hh
    refine ⟨h1, by show t.seq ≤ n.writeSeq; omega, ?_⟩
    intro y hy
    rcases (hmem y).1 hy with hy | rfl
    · exact h3 y hy
    · show n.writeSeq ≠ t.seq
      omega

theorem rwbAct_commitInv (h : CommitInv start n) {N : List Entry} (hp : PathInv start N n.path) (h0 : 0 ≤ start)
    (hb : n.writeSeq < 2 ^ 31) (a : RwbAct) :
    CommitInv start (n.rwbAct a) ∧ (n.rwbAct a).commitSeq = n.commitSeq ∧ (n.rwbAct a).acks = n.acks := by
  cases a with
  | send =>
    simp only [Node.rwbAct]
    split
    · rename_i e hr
      have hr' : n.path.rwb = .send e := hr
      have hlow : start ≤ n.writeSeq := hp.lower
      have hseq : toInt e.seqNum = n.writeSeq := by
        rw [hp.send e hr']
        exact toInt_of_lt (by show 0 ≤ n.writeSeq; omega) hb
      rw [hseq]
      split
      · exact ⟨h.of_commits_eq rfl (by simp [Node.sentTop, hr]), rfl, rfl⟩
      · rename_i l hl
        exact ⟨h.send hr hl, rfl, rfl⟩
    · exact ⟨h, rfl, rfl⟩
  | poll | spin | pop | leave | retry | write | bump =>
    simp only [Node.rwbAct]
    repeat' split
    all_goals exact ⟨h.of_commits_eq rfl (by simp_all [Node.sentTop]), rfl, rfl⟩

end Node

/-! ## Steps of the chain -/

section Chain

variable {n start : ℕ} {log : ReplayLog} {s : Nodes}

theorem CommitLink.move {u d u' d' : Node} (h : CommitLink u d) (hu : AckMove u u') (hd : d.commitSeq ≤ d'.commitSeq) :
    CommitLink u' d' := by
  refine ⟨?_, ?_⟩
  · rcases hu.commit with hc | ⟨k, t, hk, -, hc⟩
    · rw [hc]; exact h.commit.trans hd
    · rw [hc]; exact (h.handler k t hk).2.trans hd
  · intro k t' hk
    obtain ⟨t, ht, hb, hseq⟩ := hu.threads k t' hk
    obtain ⟨h1, h2⟩ := h.handler k t ht
    exact ⟨hb.trans h1, by rw [hseq h1]; exact h2.trans hd⟩

/-- one node of the chain changes, as its threads change it -/
theorem OnReturn.update (h : OnReturn n start s) (i : ℕ) (x : Node) (hx : i < n → CommitInv start x)
    (hm : i < n → AckMove (s i) x) : OnReturn n start (Function.update s i x) := by
  refine ⟨?_, ?_⟩
  · intro j hj
    by_cases hji : j = i
    · subst hji; rw [Function.update_self]; exact hx hj
    · rw [Function.update_of_ne hji]; exact h.node j hj
  · intro j hj
    have hl := h.link j hj
    by_cases hji : j = i
    · subst hji
      rw [Function.update_self, Function.update_of_ne (by omega)]
      exact hl.move (hm (by omega)) (le_refl _)
    · rw [Function.update_of_ne hji]
      by_cases hji' : j + 1 = i
      · subst hji'
        rw [Function.update_self]
        exact hl.move (AckMove.refl _) (hm hj).commit_le
      · rw [Function.update_of_ne hji']
        exact hl

theorem AckMove.of_eq {x y : Node} (hc : y.commitSeq = x.commitSeq) (ha : y.acks = x.acks) : AckMove x y :=
  ⟨Or.inl hc, fun _ t hk => ⟨t, ha ▸ hk, rfl, fun _ => rfl⟩⟩

/-- one node of the chain changes and its threads do not -/
theorem OnReturn.update_same (h : OnReturn n start s) (i : ℕ) (x : Node) (hc : x.commits = (s i).commits)
    (ht : x.sentTop = (s i).sentTop) : OnReturn n start (Function.update s i x) :=
  h.update i x (fun hn => (h.node i hn).of_commits_eq hc (le_of_eq ht.symm))
    (fun _ => AckMove.of_eq (congrArg Commits.commitSeq hc) (congrArg Commits.acks hc))

/-- numbers are below 2^31 -/
theorem OnPath.writeSeq_lt (h : OnPath n start log s) (hb : (start : ℤ) + (s 0).numbered.length < 2 ^ 31) {i : ℕ}
    (hi : i < n) : (s i).writeSeq < 2 ^ 31 := by
  have hup := (h.node i hi).upper
  have hw : (s i).path.writeSeq ≤ (s i).path.writtenSeq := by
    unfold Path.writtenSeq
    split <;> omega
  have : (s i).path.writeSeq = (s i).writeSeq := rfl
  omega

theorem sentTop_le (x : Node) : x.sentTop ≤ x.writeSeq := by
  unfold Node.sentTop
  split <;> omega

theorem OnReturn.act (h : OnReturn n start s) (hp : OnPath n start log s)
    (hb : (start : ℤ) + (s 0).numbered.length < 2 ^ 31) (i : ℕ) (a : Act) :
    OnReturn n start (Function.update s i ((s i).act a)) := by
  unfold Node.act
  split
  · rw [Function.update_eq_self]; exact h
  · cases a with
    | write a =>
      apply h.update_same i _ (writeAct_commits _ a)
      cases a <;> simp only [Node.writeAct] <;> repeat' split
      all_goals rfl
    | relay k a =>
      apply h.update_same i _ (relayAct_commits _ k a)
      cases a <;> simp only [Node.relayAct] <;> repeat' split
      all_goals rfl
    | ackLogEntry r => exact h.update_same i _ rfl rfl
    | rwb a =>
      have hinv := fun hn => rwbAct_commitInv (h.node i hn) (hp.node i hn) (by omega) (hp.writeSeq_lt hb hn) a
      exact h.update i _ (fun hn => (hinv hn).1) (fun hn => AckMove.of_eq (hinv hn).2.1 (hinv hn).2.2)
    | ack k a =>
      have hinv := fun hn => ackAct_inv (h.node i hn) (by omega)
        ((sentTop_le _).trans_lt (hp.writeSeq_lt hb hn)) k a
      exact h.update i _ (fun hn => (hinv hn).1) (fun hn => (hinv hn).2)

/-- sending an ack: the upstream node learns of a number that is committed here -/
theorem OnReturn.sendAck (h : OnReturn n start s) (hp : OnPath n start log s) (i k : ℕ) :
    OnReturn n start (step s (.sendAck i k)) := by
  rcases step_sendAck s i k with hs | ⟨seq, j, ht, hs⟩ <;> rw [hs]
  · exact h
  obtain ⟨b, hk, hu, -, -⟩ := ackTarget_eq_some ht
  obtain ⟨hin, rfl⟩ := conf_upstream (hp.conf i) hu
  have hnode := h.node (j + 1) hin
  have hpast : seq ≤ (s (j + 1)).commitSeq := hnode.past k _ hk rfl
  have hstart : (start : ℤ) < seq := hnode.started k _ hk (by simp [AckThread.idle])
  have h1 : OnReturn n start (Nodes.wire s (j + 1) (.ackSent k j (s j).acks.length)) :=
    h.update (j + 1) _ (fun hn => (ackSent_inv (h.node (j + 1) hn)).1) (fun hn => (ackSent_inv (h.node (j + 1) hn)).2)
  set s1 := Nodes.wire s (j + 1) (.ackSent k j (s j).acks.length) with hs1
  have hc1 : (s1 (j + 1)).commitSeq = (s (j + 1)).commitSeq := by
    simp only [hs1, Nodes.wire, Function.update_self, Node.wire]
    split <;> rfl
  refine ⟨?_, ?_⟩
  · intro m hm
    by_cases hmj : m = j
    · subst hmj
      simp only [Nodes.wire, Function.update_self]
      exact ackArrives_inv (h1.node m hm) hstart
    · simp only [Nodes.wire, Function.update_of_ne hmj]
      exact h1.node m hm
  · intro m hm
    have hl := h1.link m hm
    by_cases hmj : m = j
    · subst hmj
      simp only [Nodes.wire, Function.update_self]
      rw [Function.update_of_ne (by omega)]
      refine ⟨hl.commit, ?_⟩
      intro c t ht
      rcases List.mem_append.1 (List.mem_of_getElem? ht) with hold | hnew
      · obtain ⟨c', hc'⟩ := List.mem_iff_getElem?.1 hold
        exact hl.handler c' t hc'
      · obtain rfl := List.mem_singleton.1 hnew
        exact ⟨rfl, by rw [hc1]; exact hpast⟩
    · simp only [Nodes.wire, Function.update_of_ne hmj]
      by_cases hmj' : m + 1 = j
      · subst hmj'
        rw [Function.update_self]
        exact ⟨hl.commit, hl.handler⟩
      · rw [Function.update_of_ne hmj']
        exact hl

/-- **The way back holds together in every step of a chain whose write path is in order.** -/
theorem onReturn_step (h : OnReturn n start s) (hp : OnPath n start log s)
    (hb : (start : ℤ) + (s 0).numbered.length < 2 ^ 31) (e : Event) : OnReturn n start (step s e) := by
  cases e with
  | act i a => exact h.act hp hb i a
  | sendRelay i =>
    rcases step_sendRelay s i with hs | ⟨e, j, ht, hs⟩ <;> rw [hs]
    · exact h
    · obtain ⟨hr, -, -⟩ := relayTarget_eq_some ht
      refine OnReturn.update_same (h.update_same i _ ?_ ?_) j _ rfl rfl
      · simp only [Node.wire, hr]; rfl
      · simp [Node.wire, hr, Node.sentTop]
  | relayOk i =>
    rcases step_relayOk s i with hs | ⟨e, j, k, hr, -, hs⟩ <;> rw [hs]
    · exact h
    · apply h.update_same i _
      · simp only [Node.wire, hr]; rfl
      · simp [Node.wire, hr, Node.sentTop]
  | sendAck i k => exact h.sendAck hp i k
  | ackOk i k =>
    rcases step_ackOk s i k with hs | hs <;> rw [hs]
    · exact h
    · exact h.update i _ (fun hn => (ackOk_inv (h.node i hn)).1) (fun hn => (ackOk_inv (h.node i hn)).2)

theorem onReturn_stable (n start : ℕ) (log : ReplayLog) : OnReturn n start (stable n start log) := by
  have hc : ∀ i, (stable n start log i).commitSeq = start ∧ (stable n start log i).sentList = Sorted.empty ∧
      (stable n start log i).sentTop = start := by
    intro i
    unfold stable
    split_ifs <;> exact ⟨rfl, rfl, rfl⟩
  have hacks : ∀ (i k : ℕ) (t : AckThread), (stable n start log i).acks[k]? = some t →
      i + 1 = n ∧ t = ⟨true, 0, .start⟩ := by
    intro i k t hk
    have hmem := List.mem_of_getElem? hk
    unfold stable at hmem
    by_cases hi : i < n
    · rw [if_pos hi] at hmem
      by_cases hl : i + 1 = n
      · exact ⟨hl, by simpa [Node.idle, hl] using hmem⟩
      · simp [Node.idle, hl] at hmem
    · simp [hi, Node.idle] at hmem
  refine ⟨?_, ?_⟩
  · intro i _
    obtain ⟨h1, h2, h3⟩ := hc i
    refine ⟨le_of_eq h1.symm, by omega, by simp [h2], ?_, ?_, ?_, ?_, ?_⟩
    · intro k t hk hi
      obtain ⟨-, rfl⟩ := hacks i k t hk
      cases hi
    · intro k t hk hr
      obtain ⟨-, rfl⟩ := hacks i k t hk
      cases hr
    · intro k t hk hh
      obtain ⟨-, rfl⟩ := hacks i k t hk
      cases hh
    · rintro k m t u hk - hh -
      obtain ⟨-, rfl⟩ := hacks i k t hk
      cases hh
    · intro k t hk hp
      obtain ⟨-, rfl⟩ := hacks i k t hk
      cases hp
  · intro i hi
    refine ⟨by rw [(hc i).1, (hc (i + 1)).1], ?_⟩
    intro k t hk
    obtain ⟨h1, -⟩ := hacks i k t hk
    omega

end Chain

end ChainedBlockStorage.Chain
