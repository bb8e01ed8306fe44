import HushEngine.PartitionWindows

/-!
The two Postgres tables and the aggregator's access to them: `agg_cells` keyed
by window, cell and Kafka partition, and `partition_progress` with one resume
point per partition. A flush is one transaction, so it is one function from
tables to tables; a transaction that rolls back leaves the tables as they were.
Counts are natural numbers: a `bigint` column holds a count of messages.
Timestamps are those that are bound, in nanoseconds. A `timestamptz` column keeps
their microseconds, which makes no difference to a comparison with the end of a
window; `stored` is what it leaves of the tables.
-/
namespace HushEngine

open Keyed

/-- The primary key of `agg_cells`. -/
structure AggKey where
  windowStart : Int
  cell : CellKey
  kpartition : Int
deriving DecidableEq

structure AggRow where
  events : Nat
  users : Nat
  usersHll : Option (List UInt8)
deriving DecidableEq

structure PartitionProgress where
  committedOffset : Nat
  flushedWatermark : Int
deriving DecidableEq

/-- What a `timestamptz` column makes of the timestamps bound to it: it keeps whole microseconds,
and the order. -/
structure Timestamptz (column : Int → Int) : Prop where
  whole : ∀ ts, 1000 ∣ ts → column ts = ts
  mono : ∀ {ts ts'}, ts ≤ ts' → column ts ≤ column ts'

structure Db where
  aggCells : Table AggKey AggRow
  partitionProgress : Table Int PartitionProgress
deriving DecidableEq

def CellAgg.toRow (agg : CellAgg) : AggRow :=
  ⟨agg.events, agg.users.card, agg.hll.map HyperLogLog.toBytes⟩

/-- The rows that a window's cells stand for. -/
def Window.rowOf (win : Window) (cell : CellKey) : Option AggRow :=
  (win.cells.lookup cell).map CellAgg.toRow

namespace Db

def empty : Db := ⟨∅, ∅⟩

def loadProgress (db : Db) (partition : Int) : Option PartitionProgress :=
  db.partitionProgress.lookup partition

/-- The tables as their columns hold them. -/
def stored (column : Int → Int) (db : Db) : Db where
  aggCells := db.aggCells
  partitionProgress := mapValues
    (fun _ pr => ⟨pr.committedOffset, column pr.flushedWatermark⟩) db.partitionProgress

/-- The rows that one closed window writes. -/
def windowRows (partition : Int) (closed : Int × Window) : List (AggKey × AggRow) :=
  (rows closed.2.cells).map fun cell => (⟨closed.1, cell.1, partition⟩, cell.2.toRow)

/-- Writes every closed window's cells and the new progress, in one transaction. -/
def flushWindows (db : Db) (partition : Int) (closed : List (Int × Window))
    (committedOffset : Nat) (flushedWatermark : Int) : Db where
  aggCells := closed.foldl (fun t c => upserts t (windowRows partition c)) db.aggCells
  partitionProgress :=
    db.partitionProgress.insert partition ⟨committedOffset, flushedWatermark⟩

/-- The earliest point up to which every partition with a progress row has flushed. -/
def minFlushedWatermark (db : Db) : Option Int :=
  ((rows db.partitionProgress).map fun r => r.2.flushedWatermark).min?

theorem minFlushedWatermark_eq_some_iff (db : Db) (t : Int) :
    db.minFlushedWatermark = some t ↔
      (∃ p pr, db.loadProgress p = some pr ∧ pr.flushedWatermark = t) ∧
      ∀ p pr, db.loadProgress p = some pr → t ≤ pr.flushedWatermark := by
  unfold minFlushedWatermark loadProgress
  rw [List.min?_eq_some_iff]
  constructor
  · intro h
    obtain ⟨hmem, hall⟩ := h
    obtain ⟨⟨p, pr⟩, hrow, rfl⟩ := List.mem_map.mp hmem
    refine ⟨⟨p, pr, (mem_rows _ p pr).mp hrow, rfl⟩, fun q pq hq => hall _ ?_⟩
    exact List.mem_map.mpr ⟨(q, pq), (mem_rows _ q pq).mpr hq, rfl⟩
  · intro h
    obtain ⟨⟨p, pr, hp, rfl⟩, hall⟩ := h
    refine ⟨List.mem_map.mpr ⟨(p, pr), (mem_rows _ p pr).mpr hp, rfl⟩, ?_⟩
    intro b hb
    obtain ⟨⟨q, pq⟩, hrow, rfl⟩ := List.mem_map.mp hb
    exact hall q pq ((mem_rows _ q pq).mp hrow)

theorem minFlushedWatermark_eq_none_iff (db : Db) :
    db.minFlushedWatermark = none ↔ ∀ p, db.loadProgress p = none := by
  unfold minFlushedWatermark loadProgress
  rw [List.min?_eq_none_iff, List.map_eq_nil_iff]
  constructor
  · intro hnil p
    by_contra hne
    obtain ⟨pr, hpr⟩ := Option.ne_none_iff_exists'.mp hne
    have hmem := (mem_rows _ p pr).mpr hpr
    simp [hnil] at hmem
  · intro hnone
    by_contra hne
    obtain ⟨⟨p, pr⟩, hmem⟩ := List.exists_mem_of_ne_nil _ hne
    rw [mem_rows, hnone p] at hmem
    cases hmem

/-- The completeness check of `get_stats`. -/
def windowComplete (db : Db) (w : Int) : Bool :=
  (db.minFlushedWatermark.map fun wm => decide (windowEnd w ≤ wm)).getD false

theorem windowComplete_iff (db : Db) (w : Int) :
    db.windowComplete w = true ↔ (∃ p pr, db.loadProgress p = some pr) ∧
      ∀ p pr, db.loadProgress p = some pr → windowEnd w ≤ pr.flushedWatermark := by
  unfold windowComplete
  cases hmin : db.minFlushedWatermark with
  | none =>
    have hnone := (minFlushedWatermark_eq_none_iff db).mp hmin
    simp [hnone]
  | some t =>
    obtain ⟨⟨p, pr, hp, rfl⟩, hall⟩ := (minFlushedWatermark_eq_some_iff db _).mp hmin
    simp only [Option.map_some, Option.getD_some, decide_eq_true_eq]
    constructor
    · exact fun hle => ⟨⟨p, pr, hp⟩, fun q pq hq => hle.trans (hall q pq hq)⟩
    · exact fun h => h.2 p pr hp

section FlushWindows

variable (db : Db) (partition : Int) (closed : List (Int × Window)) (committedOffset : Nat)
  (flushedWatermark : Int)

theorem flushWindows_aggCells :
    (db.flushWindows partition closed committedOffset flushedWatermark).aggCells =
      upserts db.aggCells (closed.flatMap (windowRows partition)) :=
  foldl_upserts _ _ _

@[simp] theorem flushWindows_loadProgress :
    (db.flushWindows partition closed committedOffset flushedWatermark).loadProgress partition =
      some ⟨committedOffset, flushedWatermark⟩ :=
  AList.lookup_insert _

theorem flushWindows_loadProgress_ne (q : Int) (hq : q ≠ partition) :
    (db.flushWindows partition closed committedOffset flushedWatermark).loadProgress q =
      db.loadProgress q :=
  AList.lookup_insert_ne hq

theorem mem_windowRows (c : Int × Window) (k : AggKey) (row : AggRow) :
    (k, row) ∈ windowRows partition c ↔ k.windowStart = c.1 ∧ k.kpartition = partition ∧
      ∃ agg, c.2.cells.lookup k.cell = some agg ∧ agg.toRow = row := by
  obtain ⟨start, cell, p⟩ := k
  simp only [windowRows, List.mem_map, Prod.mk.injEq, AggKey.mk.injEq, Prod.exists, mem_rows]
  constructor
  · intro h
    obtain ⟨key, agg, hlook, ⟨rfl, rfl, rfl⟩, rfl⟩ := h
    exact ⟨rfl, rfl, agg, hlook, rfl⟩
  · intro h
    obtain ⟨rfl, rfl, agg, hlook, rfl⟩ := h
    exact ⟨cell, agg, hlook, ⟨rfl, rfl, rfl⟩, rfl⟩

theorem nodup_windowRows (c : Int × Window) :
    ((windowRows partition c).map Prod.fst).Nodup := by
  have hkeys : (windowRows partition c).map Prod.fst =
      ((rows c.2.cells).map Prod.fst).map fun key => (⟨c.1, key, partition⟩ : AggKey) := by
    simp [windowRows, Function.comp_def]
  rw [hkeys]
  exact (nodup_rows_keys _).map fun a b hab => congrArg AggKey.cell hab

/-- Distinct windows write distinct keys. -/
theorem nodup_flatMap_windowRows (hnodup : (closed.map Prod.fst).Nodup) :
    ((closed.flatMap (windowRows partition)).map Prod.fst).Nodup := by
  induction closed with
  | nil => simp
  | cons c closed ih =>
    rw [List.map_cons, List.nodup_cons] at hnodup
    rw [List.flatMap_cons, List.map_append, List.nodup_append]
    refine ⟨nodup_windowRows partition c, ih hnodup.2, ?_⟩
    intro k hk k' hk' heq
    subst heq
    obtain ⟨⟨_, row⟩, hrow, rfl⟩ := List.mem_map.mp hk
    obtain ⟨⟨_, row'⟩, hrow', heq⟩ := List.mem_map.mp hk'
    dsimp only at heq
    subst heq
    obtain ⟨c', hc', hmem⟩ := List.mem_flatMap.mp hrow'
    have h1 := ((mem_windowRows _ _ _ _).mp hrow).1
    have h2 := ((mem_windowRows _ _ _ _).mp hmem).1
    exact hnodup.1 (List.mem_map.mpr ⟨c', hc', by rw [← h1, ← h2]⟩)

/-- A flush writes the cells of its windows and leaves every other row alone. -/
theorem flushWindows_lookup (hnodup : (closed.map Prod.fst).Nodup) (k : AggKey) (row : AggRow)
    (win : Window) (agg : CellAgg) (hp : k.kpartition = partition)
    (hclosed : (k.windowStart, win) ∈ closed) (hagg : win.cells.lookup k.cell = some agg)
    (hrow : agg.toRow = row) :
    (db.flushWindows partition closed committedOffset flushedWatermark).aggCells.lookup k =
      some row := by
  rw [flushWindows_aggCells]
  apply lookup_upserts_of_mem _ _ _ _ (nodup_flatMap_windowRows partition closed hnodup)
  exact List.mem_flatMap.mpr ⟨_, hclosed, (mem_windowRows _ _ _ _).mpr ⟨rfl, hp, agg, hagg, hrow⟩⟩

theorem flushWindows_lookup_of_not_mem (k : AggKey)
    (h : k.kpartition = partition → k.windowStart ∉ closed.map Prod.fst) :
    (db.flushWindows partition closed committedOffset flushedWatermark).aggCells.lookup k =
      db.aggCells.lookup k := by
  rw [flushWindows_aggCells]
  apply lookup_upserts_of_not_mem
  intro row hrow
  obtain ⟨c, hc, hmem⟩ := List.mem_flatMap.mp hrow
  obtain ⟨hstart, hp, _⟩ := (mem_windowRows _ _ _ _).mp hmem
  exact h hp (List.mem_map.mpr ⟨c, hc, hstart.symm⟩)

/-- A key that its window has no cell for keeps the row it had. -/
theorem flushWindows_lookup_of_no_cell (k : AggKey)
    (h : ∀ win, (k.windowStart, win) ∈ closed → win.cells.lookup k.cell = none) :
    (db.flushWindows partition closed committedOffset flushedWatermark).aggCells.lookup k =
      db.aggCells.lookup k := by
  rw [flushWindows_aggCells]
  apply lookup_upserts_of_not_mem
  intro row hrow
  obtain ⟨⟨start, win⟩, hc, hmem⟩ := List.mem_flatMap.mp hrow
  obtain ⟨rfl, _, agg, hagg, _⟩ := (mem_windowRows _ _ _ _).mp hmem
  rw [h win hc] at hagg
  cases hagg

/-- The row of a flushed window is the one it wrote, or the one it found. -/
theorem flushWindows_lookup_window (hnodup : (closed.map Prod.fst).Nodup) {w : Int} {win : Window}
    (hc : (w, win) ∈ closed) (cell : CellKey) :
    (db.flushWindows partition closed committedOffset flushedWatermark).aggCells.lookup
        ⟨w, cell, partition⟩ =
      (win.rowOf cell).or (db.aggCells.lookup ⟨w, cell, partition⟩) := by
  unfold Window.rowOf
  cases hagg : win.cells.lookup cell with
  | some agg =>
    rw [flushWindows_lookup db partition closed committedOffset flushedWatermark hnodup
      ⟨w, cell, partition⟩ agg.toRow win agg rfl hc hagg rfl]
    rfl
  | none =>
    rw [flushWindows_lookup_of_no_cell db partition closed committedOffset flushedWatermark
      ⟨w, cell, partition⟩]
    · rfl
    · intro win' hc'
      obtain rfl : win' = win := congrArg Prod.snd (List.inj_on_of_nodup_map hnodup hc' hc rfl)
      exact hagg

theorem flushWindows_isSome (k : AggKey) (h : (db.aggCells.lookup k).isSome) :
    ((db.flushWindows partition closed committedOffset flushedWatermark).aggCells.lookup
      k).isSome := by
  rw [flushWindows_aggCells]
  exact isSome_lookup_upserts _ _ _ h

end FlushWindows

end Db

end HushEngine
