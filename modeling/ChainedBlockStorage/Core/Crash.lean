/-
A file behind a write-back cache, and what a crash can leave of it.

`durable` is what is on the device, `dirty` the writes issued since the last completed sync, oldest first. The process
always reads `view`, the durable contents under all dirty writes. A crash keeps any subset of the dirty writes
(`Survives`): each one may independently have reached the device or not, and a later write of a block that did reach
it wins over an earlier one.

- `survives_view`: losing nothing is one of the outcomes.
- `survives_step`: an outcome after a write is an outcome before it, with the write applied or not; after a sync the
  view is the only outcome.
- `survives_commit`, `survives_committed`: the two-sync commit.
- `survives_inv`: what holds of the durable contents and is kept by every dirty write holds of every outcome.
-/
import Mathlib.Tactic

namespace ChainedBlockStorage.Crash

variable {F W : Type}

/-- one file operation -/
inductive Io (W : Type) where
  | pwrite (w : W)
  | fdatasync

/-- the file as the device and the cache hold it -/
structure Disk (F W : Type) where
  durable : F
  dirty : List W

/-- apply writes in order -/
def writeAll (app : F → W → F) (f : F) (ws : List W) : F := ws.foldl app f

/-- the contents the process sees -/
def Disk.view (app : F → W → F) (d : Disk F W) : F := writeAll app d.durable d.dirty

def Disk.step (app : F → W → F) (d : Disk F W) : Io W → Disk F W
  | .pwrite w => { d with dirty := d.dirty ++ [w] }
  | .fdatasync => ⟨d.view app, []⟩

/-- the file after a list of operations -/
def Disk.exec (app : F → W → F) (d : Disk F W) (ios : List (Io W)) : Disk F W := ios.foldl (Disk.step app) d

/-- `f` may be what a crash leaves of the file -/
def Disk.Survives (app : F → W → F) (d : Disk F W) (f : F) : Prop :=
  ∃ ws, ws.Sublist d.dirty ∧ f = writeAll app d.durable ws

/-- what an operation does to the contents the process sees -/
def Io.apply (app : F → W → F) (f : F) : Io W → F
  | .pwrite w => app f w
  | .fdatasync => f

theorem exec_append (app : F → W → F) (d : Disk F W) (l l' : List (Io W)) :
    d.exec app (l ++ l') = (d.exec app l).exec app l' := by
  simp [Disk.exec, List.foldl_append]

theorem exec_cons (app : F → W → F) (d : Disk F W) (o : Io W) (l : List (Io W)) :
    d.exec app (o :: l) = (d.step app o).exec app l := rfl

@[simp] theorem view_step (app : F → W → F) (d : Disk F W) (o : Io W) :
    (d.step app o).view app = o.apply app (d.view app) := by
  cases o with
  | pwrite w => simp [Disk.step, Disk.view, Io.apply, writeAll]
  | fdatasync => rfl

theorem view_exec (app : F → W → F) (d : Disk F W) (l : List (Io W)) :
    (d.exec app l).view app = l.foldl (Io.apply app) (d.view app) := by
  induction l generalizing d with
  | nil => rfl
  | cons o l ih => rw [exec_cons, ih, view_step]; rfl

theorem survives_view (app : F → W → F) (d : Disk F W) : d.Survives app (d.view app) :=
  ⟨d.dirty, List.Sublist.refl _, rfl⟩

theorem survives_step (app : F → W → F) (d : Disk F W) (o : Io W) (f : F) (h : (d.step app o).Survives app f) :
    (∃ w, o = .pwrite w ∧ ∃ g, d.Survives app g ∧ (f = g ∨ f = app g w)) ∨ (o = .fdatasync ∧ f = d.view app) := by
  obtain ⟨ws, hws, rfl⟩ := h
  cases o with
  | pwrite w =>
    left
    refine ⟨w, rfl, ?_⟩
    obtain ⟨l1, l2, rfl, h1, h2⟩ := List.sublist_append_iff.1 hws
    refine ⟨_, ⟨l1, h1, rfl⟩, ?_⟩
    rcases List.sublist_singleton.1 h2 with rfl | rfl
    · left; simp [Disk.step]
    · right; simp [Disk.step, writeAll]
  | fdatasync =>
    right
    have : ws = [] := List.sublist_nil.1 hws
    subst this
    exact ⟨rfl, rfl⟩

theorem survives_sync (app : F → W → F) (d : Disk F W) (f : F) (h : (d.step app .fdatasync).Survives app f) :
    f = d.view app := by
  rcases survives_step app d .fdatasync f h with ⟨w, e, -⟩ | ⟨-, e⟩
  · cases e
  · exact e

theorem survives_pwrite (app : F → W → F) (d : Disk F W) (w : W) (f : F) (h : (d.step app (.pwrite w)).Survives app f) :
    ∃ g, d.Survives app g ∧ (f = g ∨ f = app g w) := by
  rcases survives_step app d (.pwrite w) f h with ⟨w', e, hg⟩ | ⟨e, -⟩
  · cases e
    exact hg
  · cases e

/-- **Commit by two syncs.** The first makes everything written so far durable, the second the one write that switches
over: a crash in between leaves an outcome from before, the view without the write, or the view with it. -/
theorem survives_commit (app : F → W → F) (d : Disk F W) (w : W) (q : List (Io W))
    (hq : q <+: [.fdatasync, .pwrite w, .fdatasync]) (f : F) (h : (d.exec app q).Survives app f) :
    d.Survives app f ∨ f = d.view app ∨ f = app (d.view app) w := by
  rw [List.prefix_cons_iff] at hq
  rcases hq with rfl | ⟨q, rfl, hq⟩
  · exact Or.inl h
  · right
    rw [List.prefix_cons_iff] at hq
    rcases hq with rfl | ⟨q, rfl, hq⟩
    · exact Or.inl (survives_sync app d f h)
    · rw [List.prefix_cons_iff] at hq
      rcases hq with rfl | ⟨q, rfl, hq⟩
      · obtain ⟨g, hg, hf⟩ := survives_pwrite app (d.step app .fdatasync) w f h
        rwa [survives_sync app d g hg] at hf
      · rw [List.prefix_nil] at hq
        subst hq
        right
        have := survives_sync app _ f h
        rwa [view_step, view_step] at this

theorem survives_committed (app : F → W → F) (d : Disk F W) (w : W) (f : F)
    (h : (d.exec app [.fdatasync, .pwrite w, .fdatasync]).Survives app f) : f = app (d.view app) w := by
  have := survives_sync app _ f h
  rwa [view_step, view_step] at this

/-- **Invariant rule for crashes.** A property that every outcome has now, and that every further write keeps, is one
every outcome has after the further writes and syncs. -/
theorem survives_inv (app : F → W → F) (P : F → Prop) (d : Disk F W) (l : List (Io W))
    (h0 : ∀ f, d.Survives app f → P f) (hw : ∀ w, .pwrite w ∈ l → ∀ f, P f → P (app f w)) :
    ∀ f, (d.exec app l).Survives app f → P f := by
  induction l generalizing d with
  | nil => exact h0
  | cons o l ih =>
    rw [exec_cons]
    refine ih _ (fun f hf => ?_) (fun w hm => hw w (List.mem_cons_of_mem _ hm))
    rcases survives_step app d o f hf with ⟨w, rfl, g, hg, rfl | rfl⟩ | ⟨-, rfl⟩
    · exact h0 f hg
    · exact hw w List.mem_cons_self g (h0 g hg)
    · exact h0 _ (survives_view app d)

end ChainedBlockStorage.Crash
