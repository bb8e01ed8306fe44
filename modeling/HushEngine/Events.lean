import Mathlib.Tactic.NormNum

/-!
Time as the pipeline sees it, and the events and dimensions shared by every crate.
A `DateTime<Utc>` is an `Int`, nanoseconds since 1970, so the leap seconds that
chrono can represent are left out; an `Instant` of the monotonic wall clock is a
`Nat`, nanoseconds too. Tumbling windows are aligned to multiples of the window
size. An event contributes to one cell at each of four levels; a cell above the
namespace level carries sentinels in the columns it has not drilled into.
-/
namespace HushEngine

def windowSize : Int := 60000000000

def allowedLateness : Int := 30000000000

def idlePartitionTimeout : Nat := 10000000000

/-- `chrono::Duration::days(1)`. -/
def oneDay : Int := 86400000000000

/-- Floors a timestamp to the start of its containing tumbling window. -/
def windowStart (ts : Int) : Int := ts - ts % windowSize

def windowEnd (start : Int) : Int := start + windowSize

def Aligned (w : Int) : Prop := windowStart w = w

instance (w : Int) : Decidable (Aligned w) := by
  unfold Aligned
  infer_instance

theorem windowStart_le (ts : Int) : windowStart ts ≤ ts := by
  unfold windowStart windowSize
  omega

theorem lt_windowEnd (ts : Int) : ts < windowEnd (windowStart ts) := by
  unfold windowEnd windowStart windowSize
  omega

theorem aligned_windowStart (ts : Int) : Aligned (windowStart ts) := by
  unfold Aligned windowStart windowSize
  omega

abbrev Uuid := BitVec 128

inductive EventKind
  | edit
  | new
  | log
  | categorize
deriving DecidableEq

/-- `user` is already the pseudonym once an event has passed the gateway. -/
structure Event where
  eventId : Uuid
  user : String
  ts : Int
  family : String
  wiki : String
  ns : Int
  kind : EventKind
  isBot : Bool
deriving DecidableEq

/-- The event the aggregator's own tests build. -/
def evt (ts : Int) (id : Nat) (user : String) : Event :=
  ⟨BitVec.ofNat 128 id, user, ts, "wikipedia", "enwiki", 0, .edit, false⟩

/-- The window an event is folded into. -/
def Event.window (e : Event) : Int := windowStart e.ts

def rollupStr : String := "*"

def rollupNamespace : Int := -1

def levelGlobal : Int := 0

def levelFamily : Int := 1

def levelWiki : Int := 2

def levelNamespace : Int := 3

structure CellKey where
  level : Int
  family : String
  wiki : String
  ns : Int
deriving DecidableEq

namespace CellKey

def global : CellKey := ⟨levelGlobal, rollupStr, rollupStr, rollupNamespace⟩

/-- The cell of a whole family. -/
def ofFamily (family : String) : CellKey := ⟨levelFamily, family, rollupStr, rollupNamespace⟩

/-- The cell of one wiki of a family. -/
def ofWiki (family wiki : String) : CellKey := ⟨levelWiki, family, wiki, rollupNamespace⟩

/-- The four cells, one per level, that a single event contributes to. -/
def cellsForEvent (e : Event) : List CellKey :=
  [global, ofFamily e.family, ofWiki e.family e.wiki, ⟨levelNamespace, e.family, e.wiki, e.ns⟩]

/-- The key one level up, or `none` at the global root. -/
def parent (c : CellKey) : Option CellKey :=
  if c.level = levelGlobal then none
  else if c.level = levelFamily then some global
  else if c.level = levelWiki then some (ofFamily c.family)
  else if c.level = levelNamespace then some (ofWiki c.family c.wiki)
  else none

/-- Everything a cell with a parent can be. -/
theorem parent_cases {c key : CellKey} (h : c.parent = some key) :
    (c.level = levelFamily ∧ key = global) ∨
    (c.level = levelWiki ∧ key = ofFamily c.family) ∨
    (c.level = levelNamespace ∧ key = ofWiki c.family c.wiki) := by
  unfold parent at h
  split_ifs at h with _ hfamily hwiki hnamespace <;> obtain rfl := Option.some.inj h
  · exact Or.inl ⟨hfamily, rfl⟩
  · exact Or.inr (Or.inl ⟨hwiki, rfl⟩)
  · exact Or.inr (Or.inr ⟨hnamespace, rfl⟩)

theorem global_mem_cellsForEvent (e : Event) : global ∈ cellsForEvent e := by
  simp [cellsForEvent]

/-- The four keys differ in their level. -/
theorem nodup_cellsForEvent (e : Event) : (cellsForEvent e).Nodup := by
  simp [cellsForEvent, global, ofFamily, ofWiki, levelGlobal, levelFamily, levelWiki,
    levelNamespace]

end CellKey

/-- One record of a Kafka partition: its offset and the decoded event. -/
structure Message where
  offset : Nat
  event : Event
deriving DecidableEq

/-- The window a message is folded into. -/
def Message.window (m : Message) : Int := m.event.window

end HushEngine
