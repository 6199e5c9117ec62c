/-
The chain checksum (`HeadServiceImpl::ChecksumSystem`, `NodeListenerImpl::ChecksumChain`).

The head calls its neighbour, which calls the next one, down to the tail; every node then writes `valid` and `chk_sum`
of the one reply that travels back. `request.valid` is true all the way down, and each hop overwrites the `valid` it
received, so the verdict of the head compares the head with its neighbour only.

- `checksumSystem_valid`: what the head replies.
- `checksum_verdict`: the verdict is right exactly when the head differs from its neighbour or the nodes behind agree.
- `checksum_misses_tail`: three nodes, the tail alone differs, and the reply is valid.
-/
import ChainedBlockStorage.Chain.Messages

namespace ChainedBlockStorage.Chain

/-- a node as the checksum sees it: its state and `Storage::checksum()` of its volume -/
structure Server where
  state : State
  checksum : String
deriving DecidableEq, Repr

/-- `ChecksumChain` on the first node of the list; the others are the nodes downstream of it -/
def checksumChain : List Server → ChecksumReply → ChecksumReply → ChecksumReply
  | [], _, reply => reply
  | node :: downstream, request, reply =>
    let my_cs := node.checksum
    let ds_cs := if node.state.relays then (checksumChain downstream request reply).chkSum else my_cs
    { valid := request.valid && ds_cs == my_cs, chkSum := my_cs }

/-- `ChecksumSystem` on the head -/
def checksumSystem (head : Server) (downstream : List Server) : ChecksumReply :=
  let cs_request : ChecksumReply := { chkSum := "", valid := true }
  let my_cs := head.checksum
  let ds_cs := if head.state.relays then (checksumChain downstream cs_request ⟨"", false⟩).chkSum else my_cs
  { valid := cs_request.valid && ds_cs == my_cs, chkSum := my_cs }

/-- the states behind the head: MIDDLE, ..., MIDDLE, TAIL -/
def behindHead : List String → List Server
  | [] => []
  | [c] => [⟨.tail, c⟩]
  | c :: cs => ⟨.middle, c⟩ :: behindHead cs

/-- the head of a chain: SINGLE when nobody is behind it -/
def headOf (c : String) (cs : List String) : Server := ⟨if cs = [] then .single else .head, c⟩

/-- whatever the nodes behind do, a node replies its own checksum -/
theorem checksumChain_chkSum (node : Server) (ds : List Server) (request reply : ChecksumReply) :
    (checksumChain (node :: ds) request reply).chkSum = node.checksum := rfl

/-- **The verdict of the head** looks at its neighbour only. -/
theorem checksumSystem_valid (c d : String) (cs : List String) :
    (checksumSystem (headOf c (d :: cs)) (behindHead (d :: cs))).valid = true ↔ d = c := by
  have h : (checksumChain (behindHead (d :: cs)) ⟨"", true⟩ ⟨"", false⟩).chkSum = d := by
    cases cs <;> exact checksumChain_chkSum _ _ _ _
  simp [checksumSystem, headOf, State.relays, h]

theorem checksumSystem_single (c : String) : (checksumSystem (headOf c []) (behindHead [])).valid = true := by
  simp [checksumSystem, headOf, State.relays]

def AllEqual (l : List String) : Prop := ∀ a ∈ l, ∀ b ∈ l, a = b

theorem allEqual_cons {c : String} {l : List String} : AllEqual (c :: l) ↔ ∀ a ∈ l, a = c := by
  constructor
  · intro h a ha
    exact h a (List.mem_cons_of_mem c ha) c List.mem_cons_self
  · intro h a ha b hb
    have hc : ∀ x ∈ c :: l, x = c := by simpa using h
    rw [hc a ha, hc b hb]

/-- the head differs from its neighbour, or the nodes behind the neighbour agree with it -/
def NeighbourDecides (c : String) : List String → Prop
  | [] => True
  | d :: cs => d = c → ∀ e ∈ cs, e = d

/-- **Chain checksum.** For a chain whose head has checksum `c` and whose other nodes have the checksums `cs`: the head
replies valid exactly for equal checksums, if and only if `NeighbourDecides c cs`. -/
theorem checksum_verdict (c : String) (cs : List String) :
    ((checksumSystem (headOf c cs) (behindHead cs)).valid = true ↔ AllEqual (c :: cs)) ↔ NeighbourDecides c cs := by
  cases cs with
  | nil => simp [checksumSystem_single, allEqual_cons, NeighbourDecides]
  | cons d cs =>
    rw [checksumSystem_valid, allEqual_cons, List.forall_mem_cons, NeighbourDecides]
    constructor
    · rintro h rfl
      exact (h.1 rfl).2
    · intro h
      refine ⟨fun hd => ⟨hd, ?_⟩, And.left⟩
      intro e he
      exact (h hd e he).trans hd

/-- **A mismatch behind the neighbour is lost.** -/
theorem checksum_misses_tail :
    ¬ ∀ c cs, (checksumSystem (headOf c cs) (behindHead cs)).valid = true ↔ AllEqual (c :: cs) := by
  intro h
  have hv : (checksumSystem (headOf "a" ["a", "b"]) (behindHead ["a", "b"])).valid = true := by decide +kernel
  have hab : "b" = "a" := (h "a" ["a", "b"]).1 hv "b" (by simp) "a" (by simp)
  exact absurd hab (by decide)

end ChainedBlockStorage.Chain
