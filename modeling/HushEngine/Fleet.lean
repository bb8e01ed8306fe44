import HushEngine.SingleOwner

/-!
Any number of partitions over the same two tables, each with one owner. The
owners start in any order and take their steps in any order; a partition's step
is the step of a single owner on its own memory and the shared tables. A commit
touches the rows and the progress of its own partition only.
-/
namespace HushEngine

open Keyed

structure Fleet where
  owners : Table Int Worker
  db : Db
deriving DecidableEq

inductive FleetAction
  | start (partition : Int) (hllEnabled : Bool) (now : Nat) (nowUtc : Int)
  | act (partition : Int) (a : Action)
deriving DecidableEq

/-- What a partition's rows and its progress have in common between two tables. -/
structure Db.SamePartition (partition : Int) (db db' : Db) : Prop where
  progress : db'.loadProgress partition = db.loadProgress partition
  rows : ∀ k : AggKey, k.kpartition = partition → db'.aggCells.lookup k = db.aggCells.lookup k

theorem Batch.samePartition_flush (b : Batch) (db : Db) {p q : Int} (hq : q ≠ p) :
    db.SamePartition q (b.flush db p) where
  progress := Db.flushWindows_loadProgress_ne _ _ _ _ _ q hq
  rows k hk := by
    apply Db.flushWindows_lookup_of_not_mem
    intro hp
    exact absurd (hk.symm.trans hp) hq

theorem Db.RowsCovered.of_samePartition {db db' : Db} {partition : Int}
    (h : db.RowsCovered partition) (hsame : db.SamePartition partition db') :
    db'.RowsCovered partition := by
  intro k row hk hlook
  rw [hsame.rows k hk] at hlook
  rw [hsame.progress]
  exact h k row hk hlook

/-- A steady owner does not mind what other partitions write. -/
theorem Owner.Steady.of_samePartition {partition : Int} {w : Worker} {db db' : Db}
    (h : Owner.Steady partition ⟨w, db⟩) (hsame : db.SamePartition partition db') :
    Owner.Steady partition ⟨w, db'⟩ where
  mem := h.mem
  ahead := by
    intro pr hpr
    rw [hsame.progress] at hpr
    exact h.ahead pr hpr
  fits b hb := by
    have hfits := h.fits b hb
    refine { hfits with progress := ?_, closed_after := ?_ }
    · intro pr hpr
      rw [hsame.progress] at hpr
      exact hfits.progress pr hpr
    · intro pr hpr
      rw [hsame.progress] at hpr
      exact hfits.closed_after pr hpr
  taken := h.taken

namespace Fleet

/-- No partition has an owner yet. -/
def idle (db : Db) : Fleet := ⟨∅, db⟩

/-- The fleet after the partition's owner and the tables have become those. -/
def advance (s : Fleet) (p : Int) (o : Owner) : Fleet :=
  ⟨s.owners.insert p o.toWorker, o.db⟩

@[simp] theorem advance_db (s : Fleet) (p : Int) (o : Owner) : (s.advance p o).db = o.db := rfl

@[simp] theorem advance_owners_self (s : Fleet) (p : Int) (o : Owner) :
    (s.advance p o).owners.lookup p = some o.toWorker :=
  AList.lookup_insert _

theorem advance_owners_ne (s : Fleet) {p q : Int} (o : Owner) (h : q ≠ p) :
    (s.advance p o).owners.lookup q = s.owners.lookup q :=
  AList.lookup_insert_ne h

def step (s : Fleet) : FleetAction → Option Fleet
  | .start p hllEnabled now nowUtc =>
    match s.owners.lookup p with
    | none => some (s.advance p (Owner.boot s.db p hllEnabled now nowUtc []))
    | some _ => none
  | .act p a =>
    match s.owners.lookup p with
    | none => none
    | some w => (Owner.step p ⟨w, s.db⟩ a).map (s.advance p)

section StepLemmas

variable {s t : Fleet} {p : Int}

theorem step_start {hllEnabled : Bool} {now : Nat} {nowUtc : Int}
    (h : step s (.start p hllEnabled now nowUtc) = some t) :
    s.owners.lookup p = none ∧ t = s.advance p (Owner.boot s.db p hllEnabled now nowUtc []) := by
  simp only [step] at h
  split at h
  · next hnone => exact ⟨hnone, (Option.some.inj h).symm⟩
  · cases h

theorem step_act {a : Action} (h : step s (.act p a) = some t) :
    ∃ w o, s.owners.lookup p = some w ∧ Owner.step p ⟨w, s.db⟩ a = some o ∧ t = s.advance p o := by
  simp only [step] at h
  split at h
  · cases h
  · next w hw =>
    obtain ⟨o, ho, rfl⟩ := Option.map_eq_some_iff.mp h
    exact ⟨w, o, hw, ho, rfl⟩

end StepLemmas

/-- Other partitions keep their rows and their progress when one takes a step. -/
theorem samePartition_of_step {p q : Int} {w : Worker} {db : Db} {o : Owner} {a : Action}
    (hq : q ≠ p) (h : Owner.step p ⟨w, db⟩ a = some o) : db.SamePartition q o.db := by
  rcases Owner.step_db h with hdb | ⟨_, b, _, hdb⟩ <;> rw [hdb]
  · exact ⟨rfl, fun _ _ => rfl⟩
  · exact b.samePartition_flush db hq

/-- Lifts what an owner's step preserves to the fleet: `inv` holds of a fresh owner, is kept
by the owner's own steps, and does not depend on other partitions. -/
theorem lift_step (inv : Int → Worker → Db → Prop) {s t : Fleet} {a : FleetAction}
    (hboot : ∀ p hllEnabled now nowUtc,
      a = .start p hllEnabled now nowUtc →
      inv p (Owner.boot s.db p hllEnabled now nowUtc []).toWorker s.db)
    (hown : ∀ p b w o, a = .act p b → s.owners.lookup p = some w → inv p w s.db →
      Owner.step p ⟨w, s.db⟩ b = some o → inv p o.toWorker o.db)
    (hother : ∀ q w db, s.db.SamePartition q db → inv q w s.db → inv q w db)
    (h : ∀ p w, s.owners.lookup p = some w → inv p w s.db) (hstep : step s a = some t) :
    ∀ p w, t.owners.lookup p = some w → inv p w t.db := by
  intro q w hw
  cases a with
  | start p hllEnabled now nowUtc =>
    obtain ⟨_, rfl⟩ := step_start hstep
    by_cases hq : q = p
    · subst hq
      rw [advance_owners_self] at hw
      cases hw
      exact hboot q hllEnabled now nowUtc rfl
    · rw [advance_owners_ne s _ hq] at hw
      exact h q w hw
  | act p b =>
    obtain ⟨w', o, hw', ho, rfl⟩ := step_act hstep
    by_cases hq : q = p
    · subst hq
      rw [advance_owners_self] at hw
      cases hw
      exact hown q b w' o rfl hw' (h q w' hw') ho
    · rw [advance_owners_ne s _ hq] at hw
      exact hother q w o.db (samePartition_of_step hq ho) (h q w hw)

/-- Every owner is steady. -/
def Steady (s : Fleet) : Prop := ∀ p w, s.owners.lookup p = some w → Owner.Steady p ⟨w, s.db⟩

theorem steady_idle (db : Db) : (idle db).Steady := by
  intro p w hw
  cases hw

theorem Steady.step {s t : Fleet} {a : FleetAction} (h : s.Steady)
    (hstep : Fleet.step s a = some t) : t.Steady :=
  lift_step (fun p w db => Owner.Steady p ⟨w, db⟩)
    (fun p hllEnabled now nowUtc _ => Owner.steady_boot s.db p hllEnabled now nowUtc [])
    (fun _ _ _ _ _ _ hw ho => hw.step ho) (fun _ _ _ hsame hw => hw.of_samePartition hsame)
    h hstep

/-- Every owner is steady, and no partition has rows of windows it has not settled. -/
structure Sound (s : Fleet) : Prop where
  steady : s.Steady
  rows : ∀ p, s.db.RowsCovered p

theorem Sound.step {s t : Fleet} {a : FleetAction} (h : s.Sound)
    (hstep : Fleet.step s a = some t) : t.Sound := by
  refine ⟨h.steady.step hstep, fun q => ?_⟩
  cases a with
  | start p hllEnabled now nowUtc =>
    obtain ⟨_, rfl⟩ := step_start hstep
    exact h.rows q
  | act p b =>
    obtain ⟨w, o, hw, ho, rfl⟩ := step_act hstep
    by_cases hq : q = p
    · subst hq
      have hsound : Owner.Sound q ⟨w, s.db⟩ := { h.steady q w hw with rows := h.rows q }
      exact (hsound.step ho).rows
    · exact (h.rows q).of_samePartition (samePartition_of_step hq ho)

end Fleet

end HushEngine
