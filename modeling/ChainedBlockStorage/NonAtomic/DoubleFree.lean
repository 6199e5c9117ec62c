/-
Free block numbers of the non-atomic volume: none twice, and none that anything refers to.

A write puts the committed entry of its block into its `to_free` list. A second write of the block that is issued before
the first one is committed finds the same entry there, and both commits put it into `free_blocks`.

- `singleUse_iff`: the free list is right in every state of a run, and stays right when what is uncommitted there is
  committed, exactly if no write finds an entry that an uncommitted write frees already.
- `freed_twice`: one block written three times, the last two before their commits.
-/
import ChainedBlockStorage.NonAtomic.Owners

namespace ChainedBlockStorage.NonAtomic

open Run
open Storage (Buf Op InRange blockOf remOf inRange_parts inRange_tmod inRange_base block_next)

/-- `free_blocks` holds no number twice and none that an entry, a pending block or an uncommitted write refers to; no
two entries and parts of uncommitted writes share a number -/
structure SingleUse (t : Driver) : Prop where
  nodup : t.vol.freeBlocks.Nodup
  entry : ∀ b < 67108864, entryNum t.vol.file b ≠ 0 → entryNum t.vol.file b ∉ t.vol.freeBlocks
  pending : ∀ o x, t.vol.pendingBlocks o = some x → x ∉ t.vol.freeBlocks
  uncommitted : ∀ n uw, t.vol.uncommittedWrites n = some uw →
    (∀ i < 2, uw.newFileOffset i ≠ 0 → uw.newFileOffset i ∉ t.vol.freeBlocks) ∧ ∀ x ∈ uw.toFree, x ∉ t.vol.freeBlocks
  inj : ∀ o o', t.Live o → t.Live o' → t.num o = t.num o' → o = o'

/-! ## Pending blocks -/

/-- `pending_blocks` has entries for blocks of the volume only -/
def PendingInside (t : Driver) : Prop := ∀ o x, t.vol.pendingBlocks o = some x → ∃ b < 67108864, o = 4096 * (b : ℕ)

theorem writePart_pending (offset : ℤ) (fill : Buf → Buf) (v : Volume) {o : ℤ} (h : o ≠ offset) :
    (writePart offset fill v).2.pendingBlocks o = v.pendingBlocks o := by
  simp only [writePart, getFreeBlockNum_eq, if_neg h]

/-- a write adds entries for its own blocks only -/
theorem write_pending {off : ℤ} (ho : InRange off) (buf : Buf) (seq : ℤ) (v : Volume) {o : ℤ}
    (h : ∀ b < 67108864, o ≠ 4096 * (b : ℕ)) : (write buf off seq v).pendingBlocks o = v.pendingBlocks o := by
  obtain ⟨hoff, -, hb0, hb1⟩ := inRange_parts ho
  have htmod := inRange_tmod ho
  by_cases hr : remOf off = 0
  · have hoff0 : off = 4096 * blockOf off := by omega
    have hne : o ≠ off := fun e => h _ hb0 (e.trans hoff0)
    simp only [write, Storage.blockSize_eq, Nat.cast_ofNat, htmod, hr, Nat.cast_zero, ne_eq, not_true_eq_false,
      if_false, writePart_pending off _ _ hne]
  · have hne : o ≠ 4096 * blockOf off := h _ hb0
    have hne' : o ≠ 4096 * (blockOf off + 1 : ℕ) := h _ (hb1 hr)
    simp only [write, Storage.blockSize_eq, Nat.cast_ofNat, htmod, inRange_base ho, block_next, ne_eq, Nat.cast_eq_zero,
      hr, not_false_eq_true, if_true, writePart_pending _ _ _ hne', writePart_pending _ _ _ hne]

/-- a commit only removes entries -/
theorem commit_pending {n off : ℤ} {v v' : Volume} (h : commit n off v = some v') {o x : ℤ}
    (hx : v'.pendingBlocks o = some x) : v.pendingBlocks o = some x := by
  unfold commit at h
  split at h
  · cases h
  · obtain rfl := Option.some.inj h
    simp only [switchEntry] at hx
    split at hx <;> simp only at hx <;> split_ifs at hx <;> exact hx

theorem step_pendingInside (t : Driver) (op : Op) (h : PendingInside t) : PendingInside (t.step op) := by
  intro o x hx
  cases op with
  | write buf off junk =>
    by_cases ho : InRange off
    · simp only [Driver.step, if_pos ho] at hx
      by_contra hn
      push Not at hn
      rw [write_pending ho buf _ _ hn] at hx
      obtain ⟨b, hb, e⟩ := h o x hx
      exact hn b hb e
    · simp only [Driver.step, if_neg ho] at hx
      exact h o x hx
  | commit =>
    simp only [Driver.step] at hx
    split at hx
    · exact h o x hx
    · split at hx
      · exact h o x hx
      · next hcommit => exact h o x (commit_pending hcommit hx)

/-! ## The free list -/

/-- a number in use is not free -/
theorem Owned.not_free {t : Driver} (h : Owned t) {x : ℤ} (hx : x ∈ t.used) : x ∉ t.vol.freeBlocks :=
  fun hfree => (h.pool.free x hfree).1 hx

theorem Owned.singleUse {t : Driver} (h : Owned t) (hp : PendingInside t) : SingleUse t where
  nodup := h.pool.nodup
  entry b hb hne := h.not_free (entryNum_used hb hne)
  pending o x hx := by
    obtain ⟨b, hb, rfl⟩ := hp o x hx
    exact h.not_free (h.pending_used hb (Or.inl hx))
  uncommitted n uw huw := by
    obtain ⟨k, hc, hk, rfl⟩ := (h.some_iff n).1 ⟨uw, huw⟩
    have hu : t.uncommitted k = some uw := huw
    have hnum : ∀ i, t.dataNum k i = uw.newFileOffset i := fun i => by rw [Driver.dataNum, hu]; rfl
    have hw : t.writes[k]? = some t.writes[k] := List.getElem?_eq_getElem hk
    refine ⟨fun i hi hne => ?_, fun x hx => h.not_free (Or.inr ⟨k, by rw [Driver.toFree, hu]; exact hx⟩)⟩
    have hpart : Part t.writes[k].1 i := by
      interval_cases i
      · exact Or.inl rfl
      · exact Or.inr ⟨rfl, fun hr => hne (by rw [← hnum]; exact h.single k _ hc hw hr)⟩
    rw [← hnum]
    exact h.not_free (dataNum_used ⟨hc, _, hw, hpart⟩)
  inj := h.inj

/-! ## Committing what is uncommitted -/

/-- what a commit does to the free list and to the other uncommitted writes, whatever they hold -/
theorem commit_frees {t : Driver} {w : ℤ × Buf} {uw : UncommittedWrite} (hw : t.writes[t.committed]? = some w)
    (hu : t.uncommitted t.committed = some uw) :
    (t.step .commit).start = t.start ∧ (t.step .commit).writes = t.writes ∧
      (t.step .commit).committed = t.committed + 1 ∧
      (t.step .commit).vol.freeBlocks = t.vol.freeBlocks ++ uw.toFree ∧
      ∀ k, k ≠ t.committed → (t.step .commit).uncommitted k = t.uncommitted k := by
  rw [Driver.uncommitted] at hu
  simp only [Driver.step, hw, commit, hu]
  refine ⟨trivial, trivial, trivial, ?_, fun k hk => ?_⟩
  · split <;> rfl
  · have hne : ¬ t.start + (k : ℤ) + 1 = t.start + t.committed + 1 := by omega
    rw [Driver.uncommitted, Driver.uncommitted]
    split <;> simp only [switchEntry, if_neg hne]

/-- committing the next `n` writes leaves the lists of the others, and their own in the free list -/
theorem commits_free (n : ℕ) {t : Driver} (hlen : t.committed + n ≤ t.writes.length)
    (hall : ∀ k, t.committed ≤ k → k < t.writes.length → ∃ uw, t.uncommitted k = some uw) :
    let t' := run Driver.step t (List.replicate n .commit)
    (∀ k, t.committed ≤ k → k < t.committed + n → ∀ x ∈ t.toFree k, x ∈ t'.vol.freeBlocks) ∧
      (∀ x ∈ t.vol.freeBlocks, x ∈ t'.vol.freeBlocks) ∧
      ∀ k, t.committed + n ≤ k → t'.uncommitted k = t.uncommitted k ∧ t'.start = t.start := by
  induction n generalizing t with
  | zero => exact ⟨fun k h h' => absurd h (by omega), fun x hx => hx, fun k _ => ⟨rfl, rfl⟩⟩
  | succ n ih =>
    have hlt : t.committed < t.writes.length := by omega
    obtain ⟨uw, hu⟩ := hall t.committed le_rfl hlt
    obtain ⟨hstart, hwrites, hcom, hfree, hunc⟩ := commit_frees (List.getElem?_eq_getElem hlt) hu
    rw [List.replicate_succ, run_cons]
    set t₁ := t.step .commit
    have hall₁ : ∀ k, t₁.committed ≤ k → k < t₁.writes.length → ∃ uw, t₁.uncommitted k = some uw := by
      intro k hk hk'
      rw [hunc k (by omega)]
      exact hall k (by omega) (by rw [← hwrites]; exact hk')
    obtain ⟨hown, hkeep, hrest⟩ := ih (by rw [hcom, hwrites]; omega) hall₁
    refine ⟨fun k hk hk' x hx => ?_, fun x hx => hkeep x (by rw [hfree]; exact List.mem_append_left _ hx), fun k hk => ?_⟩
    · by_cases he : k = t.committed
      · rw [he, Driver.toFree, hu] at hx
        exact hkeep x (by rw [hfree]; exact List.mem_append_right _ hx)
      · refine hown k (by omega) (by omega) x ?_
        rw [Driver.toFree, hunc k he]
        exact hx
    · obtain ⟨h1, h2⟩ := hrest k (by omega)
      exact ⟨h1.trans (hunc k (by omega)), h2.trans hstart⟩

/-- **A list entry that two uncommitted writes hold shows.** It is free as soon as the first of them is committed, and
the second one still refers to it. -/
theorem twice_shows {t : Driver} {j k : ℕ} {x : ℤ} (hj : x ∈ t.toFree j) (hk : x ∈ t.toFree k) (hjk : j < k)
    (hc : t.committed ≤ j) (hlt : j < t.writes.length)
    (hall : ∀ k, t.committed ≤ k → k < t.writes.length → ∃ uw, t.uncommitted k = some uw) :
    ¬ ∀ n, SingleUse (run Driver.step t (List.replicate n .commit)) := by
  intro h
  obtain ⟨hown, -, hrest⟩ := commits_free (j + 1 - t.committed) (by omega) hall
  have hfree := hown j hc (by omega) x hj
  obtain ⟨hk', -⟩ := hrest k (by omega)
  rw [Driver.toFree, ← hk'] at hk
  set t' := run Driver.step t (List.replicate (j + 1 - t.committed) .commit)
  cases hu : t'.uncommitted k with
  | none => rw [hu] at hk; cases hk
  | some uw =>
    rw [hu] at hk
    exact ((h (j + 1 - t.committed)).uncommitted _ uw hu).2 x hk hfree

/-- a write that finds an entry in another `to_free` list puts it into its own -/
theorem freedOnce_of_singleUse {t : Driver} (h : Owned t) {off : ℤ} (ho : InRange off) (buf : Buf) (junk : ℕ → ℤ)
    (hs : ∀ n, SingleUse (run Driver.step (t.step (.write buf off junk)) (List.replicate n .commit))) :
    FreedOnce t off := by
  intro i hi k hk
  obtain ⟨uw, hw⟩ := step_written h ho buf junk
  set t' := t.step (.write buf off junk)
  obtain ⟨hck, hlt⟩ := h.toFree_lt hk
  have hlow := h.toFree_low hk
  have hlen : t'.writes.length = t.writes.length + 1 := by rw [hw.writes, List.length_append]; rfl
  have hj : entryNum t.vol.file (blockOf off + i) ∈ t'.toFree k := by
    rw [hw.toFree_eq, if_neg (Nat.ne_of_lt hlt)]
    exact hk
  have hnew : entryNum t.vol.file (blockOf off + i) ∈ t'.toFree t.writes.length := by
    rw [hw.toFree_eq, if_pos rfl]
    exact (hw.ok.toFree _).2 ⟨by omega, i, hi, rfl⟩
  refine twice_shows hj hnew hlt (by rw [hw.committed]; exact hck) (by omega) (fun m hm hm' => ?_) hs
  rw [hw.uncommitted_eq]
  split
  · exact ⟨uw, rfl⟩
  · exact h.uncommitted (by rw [← hw.committed]; exact hm) (by omega)

/-! ## Runs -/

theorem commits_meet (t : Driver) (n : ℕ) : Meets Driver.step NoDoubleFree t (List.replicate n .commit) := by
  induction n generalizing t with
  | zero => trivial
  | succ n ih => exact ⟨trivial, ih _⟩

/-- **No block is freed twice.** In every state of an in-order run on a new file, and after the commits of any number of
the writes that are uncommitted there, the free list and what refers to a block have no number in common and none twice:
if and only if no write finds an entry that an uncommitted write frees already. -/
theorem singleUse_iff (start : ℤ) (es : List Op) :
    (∀ k n, SingleUse (run Driver.step (run Driver.step (Driver.new start) (es.take k)) (List.replicate n .commit))) ↔
      Meets Driver.step NoDoubleFree (Driver.new start) es := by
  refine forall_take_iff_meets Driver.step NoDoubleFree (fun t => Owned t ∧ PendingInside t)
    (fun t => ∀ n, SingleUse (run Driver.step t (List.replicate n .commit))) ?_ ?_ ?_ (Driver.new start) es ?_
  · rintro t ⟨h, hp⟩ n
    have hown := run_inv_of_meets Driver.step NoDoubleFree Owned step_owned t _ h (commits_meet t n)
    exact hown.singleUse (run_inv Driver.step PendingInside step_pendingInside t _ hp)
  · exact fun t op h hc => ⟨step_owned t op h.1 hc, step_pendingInside t op h.2⟩
  · intro t op h hs
    cases op with
    | write buf off junk => exact fun ho => freedOnce_of_singleUse h.1 ho buf junk hs
    | commit => trivial
  · exact ⟨owned_new start, fun o x hx => by cases hx⟩

/-- one block is written and committed, then written twice; both commits free the first write's block -/
def writtenThrice : List Op :=
  [.write (fun _ => 1) 0 fun _ => 0, .commit, .write (fun _ => 2) 0 fun _ => 0, .write (fun _ => 3) 0 fun _ => 0,
    .commit, .commit]

theorem writtenThrice_free : (run Driver.step (Driver.new 0) writtenThrice).vol.freeBlocks = [262146, 262146] := by
  rw [Driver.new, Driver.open, initVolume_new]
  decide +kernel

/-- **A number is free twice.** -/
theorem freed_twice : ¬ ∀ start es, SingleUse (run Driver.step (Driver.new start) es) := by
  intro h
  have hnodup := (h 0 writtenThrice).nodup
  rw [writtenThrice_free] at hnodup
  exact absurd hnodup (by decide)

end ChainedBlockStorage.NonAtomic
