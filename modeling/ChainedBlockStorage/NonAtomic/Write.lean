/-
What one write to the non-atomic volume does.

`WriteOk` collects it: the numbers it takes, what it puts in their blocks, and which entries it will free.

- `write_ok`: every write satisfies it, on a volume whose free numbers are not in use.
-/
import ChainedBlockStorage.Core.Pool
import ChainedBlockStorage.Storage.Leaves
import ChainedBlockStorage.NonAtomic.Volume

namespace ChainedBlockStorage.NonAtomic

open Storage (Block Buf File InRange blockOf remOf Touches blockSize fillFrom fillUpTo inRange_parts)

/-! ## One write -/

/-- `file_block_num` in the entry of block `b` -/
def entryNum (f : File) (b : ℕ) : ℤ := (readMetadata f (4096 * b)).fileBlockNum

def Volume.pool (v : Volume) : Pool := ⟨v.freeBlocks, v.numTotalBlocks⟩

theorem getFreeBlockNum_eq (v : Volume) : getFreeBlockNum v =
    (v.pool.take.1, { v with freeBlocks := v.pool.take.2.free, numTotalBlocks := v.pool.take.2.total }) := by
  obtain ⟨file, unc, pending, free, total⟩ := v
  cases free <;> rfl

theorem read_aligned (v : Volume) (b : ℕ) : read v (4096 * b) = readAligned v (4096 * b) := by
  simp [read]

/-- a read of block `b` looks at its pending block, its entry, and the block that this names -/
theorem readAligned_frame {v w : Volume} {b : ℕ} (hb : b < 67108864)
    (hpend : w.pendingBlocks (4096 * b) = v.pendingBlocks (4096 * b))
    (htable : ∀ x, 0 < x → x ≤ 262144 → w.file.block x = v.file.block x)
    (hfile : ∀ x, v.pendingBlocks (4096 * b) = some x ∨ entryNum v.file b = x ∧ x ≠ 0 →
      w.file.block x = v.file.block x) : readAligned w (4096 * b) = readAligned v (4096 * b) := by
  unfold readAligned
  rw [hpend]
  cases hp : v.pendingBlocks (4096 * b) with
  | some x => simp only [hfile x (Or.inl hp)]
  | none =>
    simp only [readMetadata_frame htable hb]
    split
    · next hne => exact congrArg Block.asBytes (hfile _ (Or.inr ⟨rfl, hne⟩))
    · rfl

/-- what `writePart` does with block `b` -/
structure PartOk (U : Set ℤ) (v : Volume) (b : ℕ) (fill : Buf → Buf) (num : ℤ) (toFree : List ℤ) (v' : Volume) :
    Prop where
  fresh : num ∉ U
  pool : v'.pool.Ok 262145 (insert num U)
  toFree : toFree = if entryNum v.file b ≠ 0 then [entryNum v.file b] else []
  kept : ∀ x ≠ num, v'.file.block x = v.file.block x
  data : v'.file.block num = .bytes (fill (readAligned v (4096 * b)))
  pending : v'.pendingBlocks = fun o : ℤ => if o = 4096 * b then some num else v.pendingBlocks o
  unc : v'.uncommittedWrites = v.uncommittedWrites

theorem writePart_ok {U : Set ℤ} {v : Volume} (h : v.pool.Ok 262145 U) (b : ℕ) (fill : Buf → Buf) :
    PartOk U v b fill (writePart (4096 * b) fill v).1.1 (writePart (4096 * b) fill v).1.2
      (writePart (4096 * b) fill v).2 := by
  simp only [writePart, getFreeBlockNum_eq, read_aligned]
  constructor
  · exact h.take.1
  · exact h.take.2
  · rfl
  · exact fun x hx => Storage.write_block_ne _ _ _ hx
  · exact Storage.write_block_self _ _ _
  · rfl
  · rfl

theorem PartOk.low {U : Set ℤ} {v v' : Volume} {b : ℕ} {fill : Buf → Buf} {num : ℤ} {toFree : List ℤ}
    (h : PartOk U v b fill num toFree v') : 262145 < num := (h.pool.used num (Set.mem_insert _ _)).1

/-- the blocks of a write at `off`, counted from `blockOf off` -/
def Part (off : ℤ) (i : ℕ) : Prop := i = 0 ∨ i = 1 ∧ remOf off ≠ 0

theorem touches_iff_part {off : ℤ} (ho : InRange off) (buf : Buf) (b : ℕ) :
    Touches b (off, buf) ↔ ∃ i, Part off i ∧ b = blockOf off + i := by
  rw [Storage.touches_iff ho]
  constructor
  · rintro (rfl | ⟨hr, rfl⟩)
    · exact ⟨0, Or.inl rfl, rfl⟩
    · exact ⟨1, Or.inr ⟨rfl, hr⟩, rfl⟩
  · rintro ⟨i, rfl | ⟨rfl, hr⟩, rfl⟩
    · exact Or.inl rfl
    · exact Or.inr ⟨hr, rfl⟩

theorem Part.lt {off : ℤ} (ho : InRange off) {i : ℕ} (hi : Part off i) : blockOf off + i < 67108864 := by
  obtain ⟨-, -, hb0, hb1⟩ := inRange_parts ho
  rcases hi with rfl | ⟨rfl, hr⟩
  · exact hb0
  · exact hb1 hr

/-- what a write does: the numbers it takes, and what it puts there -/
structure WriteOk (U : Set ℤ) (v : Volume) (off : ℤ) (buf : Buf) (seq : ℤ) (v' : Volume) (uw : UncommittedWrite) :
    Prop where
  unc : v'.uncommittedWrites = fun n => if n = seq then some uw else v.uncommittedWrites n
  pool : v'.pool.Ok 262145 (U ∪ {x | ∃ i, Part off i ∧ uw.newFileOffset i = x})
  fresh : ∀ i, Part off i → uw.newFileOffset i ∉ U
  ne : remOf off ≠ 0 → uw.newFileOffset 0 ≠ uw.newFileOffset 1
  single : remOf off = 0 → uw.newFileOffset 1 = 0
  toFree : ∀ x, x ∈ uw.toFree ↔ x ≠ 0 ∧ ∃ i, Part off i ∧ entryNum v.file (blockOf off + i) = x
  nodup : (remOf off ≠ 0 → entryNum v.file (blockOf off) = entryNum v.file (blockOf off + 1) →
    entryNum v.file (blockOf off) = 0) → uw.toFree.Nodup
  kept : ∀ x, (∀ i, Part off i → x ≠ uw.newFileOffset i) → v'.file.block x = v.file.block x
  fst : v'.file.block (uw.newFileOffset 0) = .bytes (fillFrom (remOf off) (readAligned v (4096 * blockOf off)) buf)
  snd : remOf off ≠ 0 → v'.file.block (uw.newFileOffset 1) =
    .bytes (fillUpTo (remOf off) (readAligned v (4096 * (blockOf off + 1 : ℕ))) buf)
  pending : ∀ b : ℕ, v'.pendingBlocks (4096 * b) = if remOf off ≠ 0 ∧ b = blockOf off + 1 then some (uw.newFileOffset 1)
    else if b = blockOf off then some (uw.newFileOffset 0) else v.pendingBlocks (4096 * b)

theorem mem_nonzero (e x : ℤ) : x ∈ (if e ≠ 0 then [e] else []) ↔ x ≠ 0 ∧ e = x := by
  by_cases he : e = 0
  · subst he
    simp only [ne_eq, not_true_eq_false, if_false, List.not_mem_nil, false_iff, not_and]
    exact fun hx => Ne.symm hx
  · simp only [ne_eq, he, not_false_eq_true, if_true, List.mem_singleton]
    constructor
    · rintro rfl
      exact ⟨he, rfl⟩
    · rintro ⟨-, rfl⟩
      rfl

section Write

variable {U : Set ℤ} {v : Volume} {off : ℤ}

/-- an aligned write -/
theorem write_ok_aligned (h : v.pool.Ok 262145 U) (ho : InRange off) (hr : remOf off = 0) (buf : Buf) (seq : ℤ) :
    ∃ uw, WriteOk U v off buf seq (write buf off seq v) uw := by
  obtain ⟨hoff, -, -, -⟩ := inRange_parts ho
  have hoff0 : off = 4096 * blockOf off := by omega
  have htmod := Storage.inRange_tmod ho
  have hp := writePart_ok h (blockOf off) fun _ => buf
  rw [← hoff0] at hp
  have hpart : ∀ i, Part off i ↔ i = 0 := fun i => by simp [Part, hr]
  refine ⟨⟨(writePart off (fun _ => buf) v).1.2, fun i => if i = 0 then (writePart off (fun _ => buf) v).1.1 else 0⟩, ?_⟩
  have hwrite : write buf off seq v = { (writePart off (fun _ => buf) v).2 with
      uncommittedWrites := fun n => if n = seq then some ⟨(writePart off (fun _ => buf) v).1.2,
        fun i => if i = 0 then (writePart off (fun _ => buf) v).1.1 else 0⟩
        else (writePart off (fun _ => buf) v).2.uncommittedWrites n } := by
    simp [write, htmod, hr]
  rw [hwrite]
  set p := writePart off (fun _ => buf) v
  constructor
  · simp only [hp.unc]
  · refine hp.pool.mono ?_
    rintro x (hx | ⟨i, hi, rfl⟩)
    · exact Set.mem_insert_of_mem _ hx
    · rw [(hpart i).1 hi]
      exact Set.mem_insert _ _
  · intro i hi
    rw [(hpart i).1 hi]
    exact hp.fresh
  · exact fun hne => absurd hr hne
  · exact fun _ => rfl
  · intro x
    simp only [hp.toFree, mem_nonzero, hpart, exists_eq_left, add_zero]
  · intro _
    simp only [hp.toFree]
    split <;> simp
  · exact fun x hx => hp.kept x (hx 0 (Or.inl rfl))
  · rw [hr, Storage.fillFrom_zero]
    exact hp.data
  · exact fun hne => absurd hr hne
  · intro b
    simp only [hp.pending, hr, ne_eq, not_true_eq_false, false_and, if_false, if_true]
    have hiff : (4096 * b : ℤ) = off ↔ b = blockOf off := by omega
    simp only [← hoff0, hiff]

/-- an unaligned write; what is read for its second block does not depend on its first one -/
theorem write_ok_unaligned (h : v.pool.Ok 262145 U)
    (hU : ∀ b < 67108864, ∀ x, v.pendingBlocks (4096 * (b : ℕ)) = some x ∨ entryNum v.file b = x ∧ x ≠ 0 → x ∈ U)
    (ho : InRange off) (hr : remOf off ≠ 0) (buf : Buf) (seq : ℤ) :
    ∃ uw, WriteOk U v off buf seq (write buf off seq v) uw := by
  obtain ⟨hoff, hr1, hb0, hb1⟩ := inRange_parts ho
  have htmod := Storage.inRange_tmod ho
  have hoff0 := Storage.inRange_base ho
  have hoff1 := Storage.block_next (blockOf off)
  have hp := writePart_ok h (blockOf off) fun buf1 => fillFrom (remOf off) buf1 buf
  have hq := writePart_ok hp.pool (blockOf off + 1) fun buf1 => fillUpTo (remOf off) buf1 buf
  have hwrite : ∀ p q, p = writePart (4096 * blockOf off) (fun buf1 => fillFrom (remOf off) buf1 buf) v →
      q = writePart (4096 * (blockOf off + 1 : ℕ)) (fun buf1 => fillUpTo (remOf off) buf1 buf) p.2 →
      write buf off seq v = { q.2 with
        uncommittedWrites := fun n => if n = seq then some ⟨p.1.2 ++ q.1.2, fun i => if i = 0 then p.1.1 else q.1.1⟩
          else q.2.uncommittedWrites n } := by
    rintro p q rfl rfl
    simp only [write, Storage.blockSize_eq, Nat.cast_ofNat, htmod, hoff0, hoff1, ne_eq, Nat.cast_eq_zero, hr,
      not_false_eq_true, if_true, Int.toNat_natCast]
  rw [hwrite _ _ rfl rfl]
  set p := writePart (4096 * blockOf off) (fun buf1 => fillFrom (remOf off) buf1 buf) v
  set q := writePart (4096 * (blockOf off + 1 : ℕ)) (fun buf1 => fillUpTo (remOf off) buf1 buf) p.2
  have hpart : ∀ i, Part off i ↔ i = 0 ∨ i = 1 := fun i => by simp [Part, hr]
  have hlow := hp.low
  have htable : ∀ x, 0 < x → x ≤ 262144 → p.2.file.block x = v.file.block x := fun x _ hx => hp.kept x (by omega)
  have hentry : entryNum p.2.file (blockOf off + 1) = entryNum v.file (blockOf off + 1) := by
    rw [entryNum, readMetadata_frame htable (hb1 hr)]
    rfl
  have hread : readAligned p.2 (4096 * (blockOf off + 1 : ℕ)) = readAligned v (4096 * (blockOf off + 1 : ℕ)) := by
    refine readAligned_frame (hb1 hr) ?_ htable fun x hx => hp.kept x fun e => ?_
    · rw [hp.pending]
      exact if_neg (by push_cast; omega)
    · exact hp.fresh (e ▸ hU _ (hb1 hr) x hx)
  refine ⟨⟨p.1.2 ++ q.1.2, fun i => if i = 0 then p.1.1 else q.1.1⟩, ?_⟩
  have hne : q.1.1 ≠ p.1.1 := fun e => hq.fresh (e ▸ Set.mem_insert _ _)
  constructor
  · simp only [hq.unc, hp.unc]
  · refine hq.pool.mono ?_
    rintro x (hx | ⟨i, hi, rfl⟩)
    · exact Set.mem_insert_of_mem _ (Set.mem_insert_of_mem _ hx)
    · rcases (hpart i).1 hi with rfl | rfl
      · exact Set.mem_insert_of_mem _ (Set.mem_insert _ _)
      · exact Set.mem_insert _ _
  · intro i hi
    rcases (hpart i).1 hi with rfl | rfl
    · exact hp.fresh
    · exact fun hu => hq.fresh (Set.mem_insert_of_mem _ hu)
  · exact fun _ e => hne e.symm
  · exact fun h0 => absurd h0 hr
  · intro x
    simp only [hp.toFree, hq.toFree, hentry, List.mem_append, mem_nonzero, hpart, or_and_right, exists_or,
      exists_eq_left, add_zero, ← and_or_left]
  · intro hdist
    simp only [hp.toFree, hq.toFree, hentry]
    refine List.nodup_append.2 ⟨by split <;> simp, by split <;> simp, fun x hx y hy e => ?_⟩
    rw [mem_nonzero] at hx hy
    exact hx.1 (hx.2 ▸ hdist hr (by rw [hx.2, e, hy.2]))
  · intro x hx
    rw [hq.kept x (hx 1 (Or.inr ⟨rfl, hr⟩)), hp.kept x (hx 0 (Or.inl rfl))]
  · exact (hq.kept _ fun e => hne e.symm).trans hp.data
  · intro _
    rw [← hread]
    exact hq.data
  · intro b
    have h0 : (4096 * b : ℤ) = 4096 * blockOf off ↔ b = blockOf off := by omega
    have h1 : (4096 * b : ℤ) = 4096 * (blockOf off + 1 : ℕ) ↔ b = blockOf off + 1 := by omega
    simp only [hq.pending, hp.pending, h0, h1, hr, ne_eq, not_false_eq_true, true_and, one_ne_zero, if_false, if_true]

theorem write_ok (h : v.pool.Ok 262145 U)
    (hU : ∀ b < 67108864, ∀ x, v.pendingBlocks (4096 * (b : ℕ)) = some x ∨ entryNum v.file b = x ∧ x ≠ 0 → x ∈ U)
    (ho : InRange off) (buf : Buf) (seq : ℤ) : ∃ uw, WriteOk U v off buf seq (write buf off seq v) uw := by
  by_cases hr : remOf off = 0
  · exact write_ok_aligned h ho hr buf seq
  · exact write_ok_unaligned h hU ho hr buf seq

end Write

end ChainedBlockStorage.NonAtomic
