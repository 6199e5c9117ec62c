/-
The two calls that take entries out of the replay log: `ackLogEntry` and `cleanOldLogEntry`.

`ackLogEntry` should remove an entry and those with older timestamps, and removes the one entry. `cleanOldLogEntry(age)`
should remove the entries that are older than `age` seconds, and decides for each client by its newest entry whether all
of its entries go or none.

- `ack_clears_iff`: when an ack leaves nothing of its client's past.
- `clean_exact_iff`: when a cleaning removes exactly the old entries.
- `ack_keeps_older`, `clean_keeps_older`: the older of two entries of one client stays.
-/
import ChainedBlockStorage.Core.Run
import ChainedBlockStorage.Tables.LogTransfer

namespace ChainedBlockStorage.Tables.ReplayLog

open Chain Run

/-! ## Runs of calls -/

/-- the log after a call -/
def step (L : ReplayLog) (c : LogCall) : ReplayLog := (L.call c).2

/-! ## ackLogEntry -/

/-- what an ack should do: code 0 leaves no entry of the client up to the request, and all others as they were; another
code is -1 or -2 and leaves the log as it was -/
structure Clears (L : ReplayLog) (r : ClientRequestId) : Prop where
  past : (L.ackLogEntry r).1 = 0 → ∀ t ≤ r.timestamp, (L.ackLogEntry r).2.flag? r.identifier t = none
  later : (L.ackLogEntry r).1 = 0 → ∀ t, r.timestamp < t →
    (L.ackLogEntry r).2.flag? r.identifier t = L.flag? r.identifier t
  others : (L.ackLogEntry r).1 = 0 → ∀ c ≠ r.identifier, ∀ t, (L.ackLogEntry r).2.flag? c t = L.flag? c t
  refused : (L.ackLogEntry r).1 ≠ 0 → ((L.ackLogEntry r).1 = -1 ∨ (L.ackLogEntry r).1 = -2) ∧ (L.ackLogEntry r).2 = L

/-- a committed entry has no earlier one of its client -/
def First (L : ReplayLog) (r : ClientRequestId) : Prop :=
  L.flag? r.identifier r.timestamp = some true → ∀ t < r.timestamp, L.flag? r.identifier t = none

theorem ackLogEntry_refused (L : ReplayLog) (r : ClientRequestId) (h : (L.ackLogEntry r).1 ≠ 0) :
    (L.ackLogEntry r).1 = -1 ∨ (L.ackLogEntry r).1 = -2 := by
  cases hl : L.clientList.lookup r.identifier with
  | none => simp [ackLogEntry, hl]
  | some l =>
    cases hf : l.find? r.timestamp with
    | none => simp [ackLogEntry, hl, hf]
    | some e =>
      cases he : e.2 with
      | false => simp [ackLogEntry, hl, hf, he]
      | true => simp [ackLogEntry, hl, hf, he] at h

theorem clears_iff (L : ReplayLog) (r : ClientRequestId) : L.Clears r ↔ L.First r := by
  constructor
  · intro h hcom t ht
    have hcode := (ackLogEntry_code L r).2 hcom
    have hpast := h.past hcode t (le_of_lt ht)
    rw [ackLogEntry_zero L r hcode, if_neg fun hc => ne_of_lt ht hc.2] at hpast
    exact hpast
  · intro h
    constructor
    case past =>
      intro hcode t ht
      rw [ackLogEntry_zero L r hcode]
      split_ifs with hc
      · rfl
      · exact h ((ackLogEntry_code L r).1 hcode) t (lt_of_le_of_ne ht fun e => hc ⟨rfl, e⟩)
    case later =>
      intro hcode t ht
      rw [ackLogEntry_zero L r hcode, if_neg fun hc => ne_of_gt ht hc.2]
    case others =>
      intro hcode c hc t
      rw [ackLogEntry_zero L r hcode, if_neg fun h => hc h.1]
    case refused => exact fun hcode => ⟨ackLogEntry_refused L r hcode, ackLogEntry_ne L r hcode⟩

/-- every ack of a run does what it should -/
def AckClears (L : ReplayLog) : LogCall → Prop
  | .ack r => L.Clears r
  | _ => True

def AckFirst (L : ReplayLog) : LogCall → Prop
  | .ack r => L.First r
  | _ => True

/-- **Acks and the past of a client.** In a run of calls, every ack with code 0 leaves no entry of its client up to its
own and all others as they were, and every other ack leaves the log as it was: if and only if no ack finds a committed
entry with an earlier one of the client. -/
theorem ack_clears_iff (calls : List LogCall) : Meets step AckClears empty calls ↔ Meets step AckFirst empty calls := by
  have hcall : ∀ L c, AckClears L c ↔ AckFirst L c := by
    intro L c
    cases c with
    | ack r => exact clears_iff L r
    | _ => exact Iff.rfl
  exact ⟨meets_mono step (fun L c => (hcall L c).1) empty calls, meets_mono step (fun L c => (hcall L c).2) empty calls⟩

/-- request `n` of one client -/
def requestAt (n : ℤ) : ClientRequestId := ⟨"", 0, ⟨n, 0⟩⟩

/-- **The older entry stays.** Two requests, the second one is committed and acked. -/
theorem ack_keeps_older : ¬ ∀ calls r, (run step empty calls).Clears r := by
  intro h
  have hpast := (h [.add (requestAt 1), .add (requestAt 2), .commit (requestAt 2)] (requestAt 2)).past (by decide)
    ⟨1, 0⟩ (by decide)
  exact absurd hpast (by decide)

/-! ## cleanOldLogEntry -/

/-- the newest entry of a client is more than `age` seconds older than `now`; false for a client without entries -/
def stale (now age : ℤ) (l : TimestampList) : Bool :=
  match l.last? with
  | none => false
  | some e => decide (e.1.seconds < now) && decide (now - e.1.seconds > age)

/-- `now` is `tv_sec` of the current time -/
def cleanOldLogEntry (L : ReplayLog) (now age : ℤ) : ReplayLog :=
  let toRemove := (L.clientList.entries.filter fun e => stale now age e.2).map Sigma.fst
  ⟨toRemove.foldl (fun clients identifier => clients.erase identifier) L.clientList⟩

/-- at most `age` seconds older than `now`, or in the future; in whole seconds, as `age` is -/
def Recent (now age : ℤ) (t : Timestamp) : Prop := now < t.seconds ∨ now - t.seconds ≤ age

instance (now age : ℤ) (t : Timestamp) : Decidable (Recent now age t) := by unfold Recent; infer_instance

/-- exactly the recent entries are left, with their flags -/
def CleanExact (L : ReplayLog) (now age : ℤ) : Prop :=
  ∀ c t, (L.cleanOldLogEntry now age).flag? c t = if Recent now age t then L.flag? c t else none

theorem lookup_foldl_erase (ids : List String) (m : AList fun _ : String => TimestampList) (c : String) :
    (ids.foldl (fun clients identifier => clients.erase identifier) m).lookup c =
      if c ∈ ids then none else m.lookup c := by
  induction ids generalizing m with
  | nil => rfl
  | cons d ids ih =>
    rw [List.foldl_cons, ih]
    by_cases hc : c = d
    · subst hc
      rw [AList.lookup_erase, if_pos List.mem_cons_self]
      split <;> rfl
    · rw [AList.lookup_erase_ne hc]
      simp only [List.mem_cons, hc, false_or]

/-- a client stays with all of its entries, or goes with all of them -/
theorem cleanOldLogEntry_lookup (L : ReplayLog) (now age : ℤ) (c : String) :
    (L.cleanOldLogEntry now age).clientList.lookup c =
      (L.clientList.lookup c).filter fun l => !stale now age l := by
  have hmem : ∀ l, L.clientList.lookup c = some l → (c ∈ (L.clientList.entries.filter fun e =>
      stale now age e.2).map Sigma.fst ↔ stale now age l = true) := by
    intro l hl
    rw [List.mem_map]
    constructor
    · rintro ⟨⟨d, l'⟩, he, rfl⟩
      obtain ⟨he, hstale⟩ := List.mem_filter.1 he
      have := AList.mem_lookup_iff.2 he
      rw [hl, Option.mem_def, Option.some.injEq] at this
      rw [this]
      exact hstale
    · exact fun hstale => ⟨⟨c, l⟩, List.mem_filter.2 ⟨AList.mem_lookup_iff.1 hl, hstale⟩, rfl⟩
  rw [cleanOldLogEntry, lookup_foldl_erase]
  cases hl : L.clientList.lookup c with
  | none => split <;> rfl
  | some l =>
    simp only [hmem l hl]
    cases hs : stale now age l <;> simp [Option.filter, hs]

theorem seconds_le {t u : Timestamp} (h : t ≤ u) : t.seconds ≤ u.seconds := by
  rcases Prod.Lex.le_iff.1 h with h | h
  · exact le_of_lt h
  · exact le_of_eq h.1

/-- where the newest entry is too old, all are -/
theorem not_recent_of_stale {now age : ℤ} {l : TimestampList} (h : stale now age l = true) {e : Timestamp × Bool}
    (he : e ∈ l) : ¬ Recent now age e.1 := by
  unfold stale at h
  cases hn : l.last? with
  | none => exact absurd he (Sorted.last?_eq_none.1 hn e)
  | some n =>
    simp only [hn, Bool.and_eq_true, decide_eq_true_eq] at h
    have hle := seconds_le ((Sorted.last?_eq_some hn).2 e he)
    unfold Recent
    omega

/-- **Where a cleaning is exact.** It leaves exactly the entries that are at most `age` seconds old, with their flags, if
and only if no client with a newest entry that is young enough has an older one that is not. -/
theorem clean_exact_iff (L : ReplayLog) (now age : ℤ) :
    L.CleanExact now age ↔ ∀ c l, L.clientList.lookup c = some l → stale now age l = false → ∀ e ∈ l, Recent now age e.1 := by
  have hflag : ∀ c t, (L.cleanOldLogEntry now age).flag? c t =
      ((L.clientList.lookup c).filter fun l => !stale now age l).bind fun l => (l.find? t).map Prod.snd := by
    intro c t
    rw [flag?, cleanOldLogEntry_lookup]
  constructor
  · intro h c l hl hs e he
    by_contra hold
    have hfind : l.find? e.1 = some e := Sorted.find?_eq_some.2 ⟨he, rfl⟩
    have hkept := h c e.1
    rw [hflag, hl, if_neg hold] at hkept
    simp [Option.filter, hs, hfind] at hkept
  · intro h c t
    rw [hflag]
    cases hl : L.clientList.lookup c with
    | none => simp [flag?_of_lookup_none hl]
    | some l =>
      rw [flag?_of_lookup hl]
      cases hf : l.find? t with
      | none => cases hs : stale now age l <;> simp [Option.filter, hs, hf]
      | some e =>
        obtain ⟨he, rfl⟩ := Sorted.find?_eq_some.1 hf
        cases hs : stale now age l with
        | true => simp [Option.filter, hs, not_recent_of_stale hs he]
        | false => simp [Option.filter, hs, hf, h c l hl hs e he]

/-- **An old entry beside a recent one stays.** -/
theorem clean_keeps_older : ¬ ∀ L now age, CleanExact L now age := by
  intro h
  have hkept := h (run step empty [.add (requestAt 0), .add (requestAt 100)]) 100 10 (requestAt 0).identifier ⟨0, 0⟩
  exact absurd hkept (by decide)

end ChainedBlockStorage.Tables.ReplayLog
