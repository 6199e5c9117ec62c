/-
The replay log that a joining node is sent: `getRelayLogContent` on the sender, `initRelayLogContent` on the receiver.

The message has one entry for each client, with its timestamps and its committed flags in two repeated fields. The sender
goes through `client_list` in whatever order the hash map has (`Iteration`); the receiver forgets what it had.

- `init_get_same`: the receiver has the sender's clients, each with the sender's list; a client without entries stays.
- `call_same`: a call looks at the lists of the clients only, so its code and its effect are the same on both.
- `transfer_lossless`: from then on all calls return the same codes on both nodes.
-/
import ChainedBlockStorage.Tables.ReplayLog

namespace ChainedBlockStorage.Tables

open Chain

/-! ## The message -/

/-- `server::ReplayLogEntry` -/
structure ReplayLogEntry where
  identifier : String
  timestamp : List Timestamp
  committed : List Bool

/-- `server::UpdateReplayLogRequest` -/
structure UpdateReplayLogRequest where
  entry : List ReplayLogEntry

namespace ReplayLog

/-- the entries of `client_list`, as a loop over the hash map meets them -/
def Iteration (L : ReplayLog) := {order : List (Σ _ : String, TimestampList) // order.Perm L.clientList.entries}

/-- the entry that is added for one client -/
def entryOf (e : Σ _ : String, TimestampList) : ReplayLogEntry where
  identifier := e.1
  timestamp := e.2.toList.map Prod.fst
  committed := e.2.toList.map Prod.snd

def getRelayLogContent (L : ReplayLog) (order : L.Iteration) (content : UpdateReplayLogRequest) :
    UpdateReplayLogRequest :=
  { entry := content.entry ++ order.1.map entryOf }

def clearContent (_ : ReplayLog) : ReplayLog := empty

/-- `new_entry->timestamp_list` -/
def timestampList (entry : ReplayLogEntry) : TimestampList :=
  entry.timestamp.zipIdx.foldl (fun l t => l.insert (t.1, entry.committed.getD t.2 false)) Sorted.empty

/-- `client_list.insert`: a client that is there stays as it is -/
def insertEntry (L : ReplayLog) (entry : ReplayLogEntry) : ReplayLog :=
  if (L.clientList.lookup entry.identifier).isSome then L else L.setClient entry.identifier (timestampList entry)

def initRelayLogContent (L : ReplayLog) (content : UpdateReplayLogRequest) : ReplayLog :=
  content.entry.foldl insertEntry L.clearContent

/-! ## One client -/

/-- timestamps and flags are paired again -/
theorem foldl_zipIdx {σ : Type} (f : σ → Timestamp × Bool → σ) (l pre : List (Timestamp × Bool)) (s : σ) :
    ((l.map Prod.fst).zipIdx pre.length).foldl (fun s t => f s (t.1, ((pre ++ l).map Prod.snd).getD t.2 false)) s =
      l.foldl f s := by
  induction l generalizing pre s with
  | nil => rfl
  | cons e l ih =>
    have hflag : ((pre ++ e :: l).map Prod.snd).getD pre.length false = e.2 := by simp
    have hrest := ih (pre ++ [e]) (f s e)
    rw [List.length_append, List.length_singleton, List.append_assoc, List.singleton_append] at hrest
    rw [List.map_cons, List.zipIdx_cons, List.foldl_cons, List.foldl_cons, hflag]
    exact hrest

/-- **One client's list survives.** -/
theorem timestampList_entryOf (e : Σ _ : String, TimestampList) : timestampList (entryOf e) = e.2 := by
  have hpair : timestampList (entryOf e) = e.2.toList.foldl Sorted.insert Sorted.empty :=
    foldl_zipIdx Sorted.insert e.2.toList [] Sorted.empty
  rw [hpair]
  exact Sorted.eq_of_toList (Sorted.toList_foldl_insert Sorted.empty e.2.toList e.2.sorted)

/-! ## All clients -/

/-- the same clients, each with the same timestamps and flags -/
def Same (L M : ReplayLog) : Prop := ∀ c, L.clientList.lookup c = M.clientList.lookup c

/-- clients that are new are added, the others stay -/
theorem foldl_insertEntry (order : List (Σ _ : String, TimestampList)) (L : ReplayLog) (hn : order.NodupKeys)
    (hnew : ∀ c ∈ order.keys, L.clientList.lookup c = none) (c : String) :
    ((order.map entryOf).foldl insertEntry L).clientList.lookup c = (order.dlookup c).or (L.clientList.lookup c) := by
  induction order generalizing L with
  | nil => rfl
  | cons e order ih =>
    obtain ⟨he, hn⟩ := List.nodupKeys_cons.1 hn
    have hnone : L.clientList.lookup e.1 = none := hnew e.1 (by simp)
    have hinsert : insertEntry L (entryOf e) = L.setClient e.1 e.2 := by
      have hid : (entryOf e).identifier = e.1 := rfl
      rw [insertEntry, hid, hnone, timestampList_entryOf]
      rfl
    have hnew' : ∀ c ∈ order.keys, (L.setClient e.1 e.2).clientList.lookup c = none := by
      intro c hc
      have hne : c ≠ e.1 := fun h => he (h ▸ hc)
      rw [setClient, AList.lookup_insert_ne hne]
      exact hnew c (by simp [hc])
    rw [List.map_cons, List.foldl_cons, hinsert, ih _ hn hnew']
    by_cases hc : c = e.1
    · subst hc
      have hnot : order.dlookup e.1 = none := List.dlookup_eq_none.2 he
      rw [hnot, setClient, AList.lookup_insert, Option.none_or]
      exact (congrArg (Option.or · _) (List.dlookup_cons_eq order e.1 e.2)).symm
    · rw [setClient, AList.lookup_insert_ne hc, List.dlookup_cons_ne _ e hc]

/-- **The receiver has what the sender has.** -/
theorem init_get_same (L prev : ReplayLog) (order : L.Iteration) :
    (prev.initRelayLogContent (L.getRelayLogContent order ⟨[]⟩)).Same L := by
  intro c
  have hn : order.1.NodupKeys := (List.perm_nodupKeys order.2).2 L.clientList.nodupKeys
  have hfold := foldl_insertEntry order.1 empty hn (fun _ _ => rfl) c
  have hempty : empty.clientList.lookup c = none := rfl
  rw [hempty, Option.or_none, List.perm_dlookup c hn order.2] at hfold
  exact hfold

/-! ## Later calls -/

inductive LogCall where
  | add (r : ClientRequestId)
  | commit (r : ClientRequestId)
  | ack (r : ClientRequestId)

/-- the code of a call, and the log after it -/
def call (L : ReplayLog) : LogCall → ℤ × ReplayLog
  | .add r => L.addToLog r
  | .commit r => L.commitLogEntry r
  | .ack r => L.ackLogEntry r

/-- the codes of a sequence of calls -/
def codes : ReplayLog → List LogCall → List ℤ
  | _, [] => []
  | L, c :: cs => (L.call c).1 :: codes (L.call c).2 cs

theorem Same.setClient {L M : ReplayLog} (h : L.Same M) (c : String) (l : TimestampList) :
    (L.setClient c l).Same (M.setClient c l) := by
  intro d
  by_cases hd : d = c
  · rw [hd, ReplayLog.setClient, ReplayLog.setClient, AList.lookup_insert, AList.lookup_insert]
  · rw [ReplayLog.setClient, ReplayLog.setClient, AList.lookup_insert_ne hd, AList.lookup_insert_ne hd]
    exact h d

/-- **A call looks at the lists of the clients only.** -/
theorem call_same {L M : ReplayLog} (h : L.Same M) (c : LogCall) :
    (L.call c).1 = (M.call c).1 ∧ (L.call c).2.Same (M.call c).2 := by
  cases c with
  | add r =>
    have hold : L.tooOld r = M.tooOld r := by rw [tooOld, tooOld, h r.identifier]
    simp only [call, addToLog, h r.identifier, hold]
    split
    · exact ⟨rfl, h.setClient _ _⟩
    · split
      · exact ⟨rfl, h⟩
      · split
        · exact ⟨rfl, h.setClient _ _⟩
        · exact ⟨rfl, h⟩
  | commit r =>
    simp only [call, commitLogEntry, h r.identifier]
    split
    · exact ⟨rfl, h⟩
    · split
      · exact ⟨rfl, h⟩
      · split
        · exact ⟨rfl, h⟩
        · exact ⟨rfl, h.setClient _ _⟩
  | ack r =>
    simp only [call, ackLogEntry, h r.identifier]
    split
    · exact ⟨rfl, h⟩
    · split
      · exact ⟨rfl, h⟩
      · split
        · exact ⟨rfl, h.setClient _ _⟩
        · exact ⟨rfl, h⟩

theorem codes_same {L M : ReplayLog} (h : L.Same M) (cs : List LogCall) : L.codes cs = M.codes cs := by
  induction cs generalizing L M with
  | nil => rfl
  | cons c cs ih =>
    obtain ⟨hcode, hsame⟩ := call_same h c
    rw [codes, codes, hcode, ih hsame]

/-- **The transfer loses nothing.** Whatever the receiver had, afterwards it has the same clients as the sender, with the
same timestamps and flags, and every later sequence of calls returns the same codes on both. -/
theorem transfer_lossless (L prev : ReplayLog) (order : L.Iteration) :
    let R := prev.initRelayLogContent (L.getRelayLogContent order ⟨[]⟩)
    R.Same L ∧ ∀ cs, R.codes cs = L.codes cs :=
  ⟨init_get_same L prev order, fun cs => codes_same (init_get_same L prev order) cs⟩

end ReplayLog

end ChainedBlockStorage.Tables
