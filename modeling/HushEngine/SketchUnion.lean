import HushEngine.SketchRegisters
import HushEngine.StatsQueries

/-!
The union of stored sketches. Merging the sketches of two partitions gives the
sketch of all their users, whatever they share, so folding the stored rows of a
cell gives the sketch of one pass over its distinct users. Rows without a
sketch are passed over.
-/
namespace HushEngine

namespace HyperLogLog

/-- The sketch of default precision of users in the order they were seen. -/
def ofUsers (users : List String) : HyperLogLog := users.foldl insert withDefaultPrecision

theorem ofUsers_concat (users : List String) (user : String) :
    ofUsers (users ++ [user]) = (ofUsers users).insert user := by
  rw [ofUsers, ofUsers, List.foldl_append, List.foldl_cons, List.foldl_nil]

@[simp] theorem ofUsers_precision (users : List String) :
    (ofUsers users).precision = defaultPrecision := by
  induction users using List.reverseRecOn with
  | nil => rfl
  | append_singleton users user ih => rw [ofUsers_concat, insert_precision, ih]

theorem valid_ofUsers (users : List String) : (ofUsers users).Valid := by
  induction users using List.reverseRecOn with
  | nil => exact valid_new defaultPrecision (by decide)
  | append_singleton users user ih =>
    rw [ofUsers_concat]
    exact ih.insert user

/-- The sketch depends on which users there are, not on their order or repetitions. -/
theorem ofUsers_congr {users users' : List String} (hmem : ∀ user, user ∈ users ↔ user ∈ users') :
    ofUsers users = ofUsers users' :=
  absorbing_insert.foldl_congr withDefaultPrecision hmem

theorem merge_ofUsers (users users' : List String) :
    (ofUsers users).merge (ofUsers users') = some (ofUsers (users ++ users')) := by
  induction users' using List.reverseRecOn with
  | nil =>
    rw [List.append_nil, merge, if_pos (by rw [ofUsers_precision, ofUsers_precision])]
    exact congrArg (fun registers => some (⟨(ofUsers users).precision, registers⟩ : HyperLogLog))
      (mergeRegisters_zero _ _)
  | append_singleton users' user ih =>
    have hprecision : (ofUsers users).precision = (ofUsers users').precision := by
      rw [ofUsers_precision, ofUsers_precision]
    rw [ofUsers_concat, (valid_ofUsers users).merge_insert (valid_ofUsers users') hprecision, ih,
      Option.map_some, ← ofUsers_concat, List.append_assoc]

theorem Valid.fromBytes_toBytes {h : HyperLogLog} (hv : h.Valid) :
    fromBytes h.toBytes = some h := by
  have hp := hv.toNat_precision
  have hmod : h.precision.toNat % 64 = h.precision.toNat := by omega
  rw [toBytes, fromBytes, hmod, if_neg fun hne => hne hv.length_registers]

end HyperLogLog

open HyperLogLog

theorem CellAgg.hll_add (agg : CellAgg) (user : String) :
    (agg.add user true).hll = some ((agg.hll.getD withDefaultPrecision).insert user) := by
  rw [CellAgg.add, if_pos rfl]

theorem CellAgg.hll_foldl_add {agg : CellAgg} {h : HyperLogLog} (hhll : agg.hll = some h)
    (users : List String) : (users.foldl (fun agg user => agg.add user true) agg).hll =
      some (users.foldl HyperLogLog.insert h) := by
  induction users generalizing agg h with
  | nil => exact hhll
  | cons user users ih =>
    rw [List.foldl_cons, List.foldl_cons]
    exact ih (by rw [CellAgg.hll_add, hhll, Option.getD_some])

/-- The column of a row whose partition saw these users, or kept no sketch. -/
def storedSketch (users : Option (List String)) : Option (List UInt8) :=
  users.map fun users => (ofUsers users).toBytes

/-- A cell with sketches writes the column of the users added to it. -/
theorem CellAgg.usersHll_foldl_add (user : String) (users : List String) :
    ((user :: users).foldl (fun agg user => agg.add user true) CellAgg.empty).toRow.usersHll =
      storedSketch (some (user :: users)) := by
  have hhll := CellAgg.hll_foldl_add (CellAgg.hll_add CellAgg.empty user) users
  rw [CellAgg.toRow, storedSketch, Option.map_some, ofUsers, List.foldl_cons, List.foldl_cons]
  dsimp only
  rw [hhll, Option.map_some, CellAgg.empty, Option.getD_none]

theorem mergeHllBytes_none (users : List String) :
    mergeHllBytes none (storedSketch (some users)) = .ok (some (ofUsers users)) := by
  rw [mergeHllBytes, storedSketch, Option.map_some, Option.bind_some,
    (valid_ofUsers users).fromBytes_toBytes]

theorem mergeHllBytes_some (users users' : List String) :
    mergeHllBytes (some (ofUsers users)) (storedSketch (some users')) =
      .ok (some (ofUsers (users ++ users'))) := by
  rw [mergeHllBytes, storedSketch, Option.map_some, Option.bind_some,
    (valid_ofUsers users').fromBytes_toBytes]
  dsimp only
  rw [merge_ofUsers]

/-- All users of the rows, one row after the other. -/
def usersOf (rows : List (Option (List String))) : List String :=
  rows.flatMap fun users => users.getD []

theorem mem_usersOf (rows : List (Option (List String))) (user : String) :
    user ∈ usersOf rows ↔ ∃ users, some users ∈ rows ∧ user ∈ users := by
  rw [usersOf, List.mem_flatMap]
  constructor
  · intro h
    obtain ⟨row, hrow, huser⟩ := h
    cases row with
    | none => cases huser
    | some users => exact ⟨users, hrow, huser⟩
  · intro h
    obtain ⟨users, hrow, huser⟩ := h
    exact ⟨some users, hrow, huser⟩

theorem foldlM_mergeHllBytes_some (rows : List (Option (List String))) (users : List String) :
    (rows.map storedSketch).foldlM mergeHllBytes (some (ofUsers users)) =
      .ok (some (ofUsers (users ++ usersOf rows))) := by
  induction rows generalizing users with
  | nil => rw [usersOf, List.flatMap_nil, List.append_nil]; rfl
  | cons row rows ih =>
    rw [List.map_cons, List.foldlM_cons, usersOf, List.flatMap_cons]
    cases row with
    | none => exact ih users
    | some users' =>
      rw [mergeHllBytes_some]
      exact (ih (users ++ users')).trans (by rw [usersOf, List.append_assoc]; rfl)

theorem foldlM_mergeHllBytes_none {rows : List (Option (List String))}
    (hrows : ∃ users, some users ∈ rows) :
    (rows.map storedSketch).foldlM mergeHllBytes none = .ok (some (ofUsers (usersOf rows))) := by
  induction rows with
  | nil =>
    obtain ⟨users, husers⟩ := hrows
    cases husers
  | cons row rows ih =>
    rw [List.map_cons, List.foldlM_cons, usersOf, List.flatMap_cons]
    cases row with
    | none =>
      obtain ⟨users, husers⟩ := hrows
      exact ih ⟨users, (List.mem_cons.mp husers).resolve_left (by simp)⟩
    | some users =>
      rw [mergeHllBytes_none]
      exact foldlM_mergeHllBytes_some rows users

/-- Folding the stored rows of a cell, in any order and with rows that have no sketch, gives the
sketch of its distinct users, each inserted once; on valid sketches inserting and merging are
commutative and idempotent. -/
theorem union_exact (rows : List (Option (List String))) (hrows : ∃ users, some users ∈ rows) :
    (∀ distinct : List String, distinct.Nodup →
      (∀ user, user ∈ distinct ↔ ∃ users, some users ∈ rows ∧ user ∈ users) →
      (rows.map storedSketch).foldlM mergeHllBytes none = .ok (some (ofUsers distinct))) ∧
    (∀ h : HyperLogLog, h.Valid → ∀ a b, (h.insert a).insert b = (h.insert b).insert a ∧
      (h.insert a).insert a = h.insert a) ∧
    ∀ h other : HyperLogLog, h.Valid → other.Valid →
      h.merge other = other.merge h ∧ h.merge h = some h := by
  refine ⟨?_, fun h _ a b => ⟨insert_comm h a b, insert_idem h a⟩,
    fun h other hv hother => ⟨hv.merge_comm hother, merge_self h⟩⟩
  intro distinct _ hmem
  have hsame : ∀ user, user ∈ usersOf rows ↔ user ∈ distinct := by
    intro user
    rw [mem_usersOf, hmem]
  rw [foldlM_mergeHllBytes_none hrows, ofUsers_congr hsame]

/-- Two partitions that share a user, which one of them saw twice, and a row without a sketch. -/
def sharedRows : List (Option (List String)) := [some ["u1", "u2", "u1"], none, some ["u2", "u3"]]

theorem union_exact_sharedRows :
    (sharedRows.map storedSketch).foldlM mergeHllBytes none =
      .ok (some (ofUsers ["u3", "u1", "u2"])) := by
  refine (union_exact sharedRows ⟨["u2", "u3"], by decide⟩).1 _ (by decide) ?_
  intro user
  simp only [sharedRows, List.mem_cons, List.not_mem_nil, or_false]
  constructor
  · rintro (rfl | rfl | rfl)
    · exact ⟨["u2", "u3"], by simp⟩
    · exact ⟨["u1", "u2", "u1"], by simp⟩
    · exact ⟨["u2", "u3"], by simp⟩
  · intro h
    obtain ⟨users, husers, huser⟩ := h
    rcases husers with hrow | hrow | hrow
    all_goals simp_all
    all_goals grind

end HushEngine
