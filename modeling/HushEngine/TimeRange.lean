import HushEngine.Gateway
import HushEngine.Rebalance

/-!
The operations of the consume loop that can panic. A `DateTime<Utc>` reaches
over half a million years, a 64-bit count of nanoseconds over six centuries;
truncating to a window fails outside the smaller range, which nothing before it
has checked. `none` is a panic, and a step that panics has no next state.
-/
namespace HushEngine

open Keyed Runs

/-- `DateTime::<Utc>::MIN_UTC`, the first instant of the year -262143. -/
def minUtc : Int := -8334601228800000000000

/-- `DateTime::<Utc>::MAX_UTC`, the last nanosecond of the year 262142. -/
def maxUtc : Int := 8210266876799999999999

def Representable (ts : Int) : Prop := minUtc ≤ ts ∧ ts ≤ maxUtc

instance (ts : Int) : Decidable (Representable ts) := inferInstanceAs (Decidable (_ ∧ _))

/-- `timestamp_nanos_opt` is not `None`. -/
def FitsNanos (ts : Int) : Prop := -2 ^ 63 ≤ ts ∧ ts < 2 ^ 63

instance (ts : Int) : Decidable (FitsNanos ts) := inferInstanceAs (Decidable (_ ∧ _))

/-- `DateTime + TimeDelta`. -/
def addDelta (ts delta : Int) : Option Int :=
  if Representable (ts + delta) then some (ts + delta) else none

/-- `duration_trunc` and the `expect` on its result. -/
def windowStart? (ts : Int) : Option Int := if FitsNanos ts then some (windowStart ts) else none

def windowEnd? (start : Int) : Option Int := addDelta start windowSize

theorem addDelta_isSome_iff (ts delta : Int) :
    (addDelta ts delta).isSome ↔ Representable (ts + delta) := by
  unfold addDelta
  split_ifs with h <;> simp [h]

theorem windowEnd?_isSome_iff (start : Int) :
    (windowEnd? start).isSome ↔ Representable (windowEnd start) :=
  addDelta_isSome_iff _ _

/-- A timestamp whose window can be computed is far from the ends of the larger range. -/
theorem FitsNanos.representable {ts : Int} (h : FitsNanos ts) :
    Representable (windowEnd (windowStart ts)) ∧ Representable (ts - oneDay) ∧
      Representable (ts - allowedLateness) := by
  obtain ⟨hlow, hhigh⟩ := h
  unfold Representable windowEnd windowStart windowSize oneDay allowedLateness minUtc maxUtc
  omega

namespace PartitionState

def watermark? (ps : PartitionState) : Option Int := addDelta ps.maxEventTs (-allowedLateness)

def processEvent? (ps : PartitionState) (e : Event) (offset now : Nat) :
    Option (PartitionState × ProcessOutcome) := do
  let wStart ← windowStart? e.ts
  let _wEnd ← windowEnd? wStart
  return ps.processEvent e offset now

/-- The watermark is computed once, and the end of every open window. -/
def takeClosedWindows? (ps : PartitionState) : Option (PartitionState × List (Int × Window)) := do
  let _watermark ← ps.watermark?
  if ∀ w ∈ ps.openWindows.keys, (windowEnd? w).isSome then return ps.takeClosedWindows else none

def ofMessage? (partition : Int) (m : Message) (hllEnabled : Bool) (now : Nat) :
    Option PartitionState :=
  (addDelta m.event.ts (-oneDay)).map fun _ => ofMessage partition m hllEnabled now

/-- The consume loop's body: the entry for the partition, made if it is missing, and the event. -/
def consume? (state : Option PartitionState) (partition : Int) (m : Message) (hllEnabled : Bool)
    (now : Nat) : Option (PartitionState × ProcessOutcome) := do
  let ps ← state.orElse fun _ => ofMessage? partition m hllEnabled now
  ps.processEvent? m.event m.offset now

/-- The newest timestamp is not beyond the range, and every open window has an end. -/
structure InRange (ps : PartitionState) : Prop where
  maxEventTs : ps.maxEventTs ≤ maxUtc
  open_end : ∀ w win, ps.openWindows.lookup w = some win → Representable (windowEnd w)

theorem inRange_resumeFrom (partition : Int) (committedOffset : Nat) {flushedWatermark : Int}
    (h : flushedWatermark ≤ maxUtc) (now : Nat) (hllEnabled : Bool) :
    InRange ((resumeFrom partition committedOffset flushedWatermark now).withHllEnabled
      hllEnabled) where
  maxEventTs := h
  open_end w win hwin := by cases hwin

theorem processEvent?_eq_some_iff {ps : PartitionState} {e : Event} {offset now : Nat}
    {r : PartitionState × ProcessOutcome} :
    ps.processEvent? e offset now = some r ↔
      FitsNanos e.ts ∧ r = ps.processEvent e offset now := by
  unfold processEvent? windowStart?
  split_ifs with h
  · have hend := (windowEnd?_isSome_iff _).mpr h.representable.1
    obtain ⟨wEnd, hwEnd⟩ := Option.isSome_iff_exists.mp hend
    simp [hwEnd, h, eq_comm]
  · simp [h]

theorem InRange.processEvent {ps : PartitionState} (h : ps.InRange) {e : Event}
    (he : FitsNanos e.ts) (offset now : Nat) : (ps.processEvent e offset now).1.InRange where
  maxEventTs := by
    have hmax := h.maxEventTs
    have hlate := he.representable.2.2.2
    unfold FitsNanos at he
    rw [processEvent_maxEventTs]
    unfold maxUtc at *
    omega
  open_end w win hwin := by
    rcases ps.processEvent_cases e offset now with
      ⟨_, _, hlook⟩ | ⟨_, _, _, hlook⟩ | ⟨_, _, _, hlook⟩ <;> rw [hlook] at hwin
    · exact h.open_end w win hwin
    · exact h.open_end w win hwin
    · split_ifs at hwin with hw
      · subst hw
        exact he.representable.1
      · exact h.open_end w win hwin

theorem InRange.tickIdle {ps : PartitionState} (h : ps.InRange) (nowWall : Nat) {nowUtc : Int}
    (hnow : nowUtc ≤ maxUtc) : (ps.tickIdle nowWall nowUtc).InRange where
  maxEventTs := by
    rcases ps.tickIdle_maxEventTs nowWall nowUtc with heq | ⟨_, heq⟩ <;> rw [heq]
    · exact h.maxEventTs
    · exact hnow
  open_end w win hwin := by
    rw [tickIdle_openWindows] at hwin
    exact h.open_end w win hwin

theorem InRange.takeClosedWindows {ps : PartitionState} (h : ps.InRange) :
    ps.takeClosedWindows.1.InRange where
  maxEventTs := h.maxEventTs
  open_end w win hwin := h.open_end w win (lookup_of_takeClosedWindows hwin).1

theorem eq_of_takeClosedWindows? {ps : PartitionState} {r : PartitionState × List (Int × Window)}
    (h : ps.takeClosedWindows? = some r) : r = ps.takeClosedWindows := by
  obtain ⟨_, _, hrest⟩ := Option.bind_eq_some_iff.mp h
  split_ifs at hrest
  exact (Option.some.inj hrest).symm

/-- A take panics only if the watermark falls out of the range. -/
theorem InRange.takeClosedWindows?_eq {ps : PartitionState} (h : ps.InRange)
    (hlow : minUtc ≤ ps.maxEventTs - allowedLateness) :
    ps.takeClosedWindows? = some ps.takeClosedWindows := by
  have hmax := h.maxEventTs
  have hwatermark : ps.watermark?.isSome :=
    (addDelta_isSome_iff _ _).mpr ⟨by omega, by unfold allowedLateness; omega⟩
  obtain ⟨t, ht⟩ := Option.isSome_iff_exists.mp hwatermark
  have hends : ∀ w ∈ ps.openWindows.keys, (windowEnd? w).isSome := by
    intro w hw
    obtain ⟨win, hwin⟩ := Option.isSome_iff_exists.mp (AList.lookup_isSome.mpr hw)
    exact (windowEnd?_isSome_iff w).mpr (h.open_end w win hwin)
  unfold takeClosedWindows?
  rw [ht, if_pos hends]
  rfl

end PartitionState

/-- What happens to one partition's entry in the shared states. -/
inductive SlotAction
  | assign (committedOffset : Nat) (flushedWatermark : Int) (hllEnabled : Bool) (now : Nat)
  | revoke
  | deliver (m : Message) (gatewayNow : Int) (hllEnabled : Bool) (now : Nat)
  | tickIdle (nowWall : Nat) (nowUtc : Int)
  | take
deriving DecidableEq

namespace Slot

def step (partition : Int) (s : Option PartitionState) :
    SlotAction → Option (Option PartitionState)
  | .assign committedOffset flushedWatermark hllEnabled now =>
    some (some ((PartitionState.resumeFrom partition committedOffset flushedWatermark
      now).withHllEnabled hllEnabled))
  | .revoke => some none
  | .deliver m _ hllEnabled now =>
    (PartitionState.consume? s partition m hllEnabled now).map fun r => some r.1
  | .tickIdle nowWall nowUtc => some (s.map fun ps => ps.tickIdle nowWall nowUtc)
  | .take =>
    match s with
    | none => some none
    | some ps => ps.takeClosedWindows?.map fun r => some r.1

/-- Clocks and stored watermarks are timestamps, and events have passed the gateway. -/
def Valid (_ : Option PartitionState) : SlotAction → Prop
  | .assign _ flushedWatermark _ _ => Representable flushedWatermark
  | .deliver m gatewayNow _ _ =>
    Representable m.event.ts ∧ m.event.validate gatewayNow = .ok ()
  | .tickIdle _ nowUtc => Representable nowUtc
  | .revoke | .take => True

instance (s : Option PartitionState) (a : SlotAction) : Decidable (Valid s a) :=
  match a with
  | .assign _ flushedWatermark _ _ => inferInstanceAs (Decidable (Representable flushedWatermark))
  | .deliver m gatewayNow _ _ => inferInstanceAs
      (Decidable (Representable m.event.ts ∧ m.event.validate gatewayNow = .ok ()))
  | .tickIdle _ nowUtc => inferInstanceAs (Decidable (Representable nowUtc))
  | .revoke | .take => inferInstanceAs (Decidable True)

/-- A present entry is in range. -/
def InRange (s : Option PartitionState) : Prop := ∀ ps, s = some ps → ps.InRange

section Consume

variable {s : Option PartitionState} {partition : Int} {m : Message} {hllEnabled : Bool}
  {now : Nat}

/-- The entry an event is folded into, present or new. -/
theorem exists_entry (partition : Int) (hllEnabled : Bool) (now : Nat) (hs : InRange s)
    (hfits : FitsNanos m.event.ts) :
    ∃ ps, (s.orElse fun _ => PartitionState.ofMessage? partition m hllEnabled now) = some ps ∧
      ps.InRange := by
  cases s with
  | some ps => exact ⟨ps, rfl, hs ps rfl⟩
  | none =>
    obtain ⟨hlow, hhigh⟩ := hfits.representable.2.1
    have hnew : addDelta m.event.ts (-oneDay) = some (m.event.ts - oneDay) :=
      if_pos ⟨hlow, hhigh⟩
    refine ⟨PartitionState.ofMessage partition m hllEnabled now, ?_, ?_⟩
    · simp [PartitionState.ofMessage?, hnew]
    · exact PartitionState.inRange_resumeFrom _ _ hhigh _ _

/-- The loop's body returns if the window of the event can be computed, and only then. -/
theorem consume?_eq_some (partition : Int) (hllEnabled : Bool) (now : Nat) (hs : InRange s)
    (hfits : FitsNanos m.event.ts) :
    ∃ ps : PartitionState, ps.InRange ∧ PartitionState.consume? s partition m hllEnabled now =
      some (ps.processEvent m.event m.offset now) := by
  obtain ⟨ps, hps, hrange⟩ := exists_entry partition hllEnabled now hs hfits
  refine ⟨ps, hrange, ?_⟩
  unfold PartitionState.consume?
  rw [hps]
  exact PartitionState.processEvent?_eq_some_iff.mpr ⟨hfits, rfl⟩

theorem fitsNanos_of_consume? {r : PartitionState × ProcessOutcome}
    (h : PartitionState.consume? s partition m hllEnabled now = some r) :
    FitsNanos m.event.ts := by
  obtain ⟨ps, _, hr⟩ := Option.bind_eq_some_iff.mp h
  exact (PartitionState.processEvent?_eq_some_iff.mp hr).1

end Consume

theorem InRange.step {partition : Int} {s t : Option PartitionState} {a : SlotAction}
    (h : InRange s) (hvalid : Valid s a) (hstep : Slot.step partition s a = some t) :
    InRange t := by
  intro ps hps
  subst hps
  cases a with
  | assign committedOffset flushedWatermark hllEnabled now =>
    obtain rfl := Option.some.inj (Option.some.inj hstep)
    exact PartitionState.inRange_resumeFrom _ _ hvalid.2 _ _
  | revoke => cases Option.some.inj hstep
  | deliver m gatewayNow hllEnabled now =>
    obtain ⟨r, hr, heq⟩ := Option.map_eq_some_iff.mp hstep
    have hfits := fitsNanos_of_consume? hr
    obtain ⟨ps', hrange, hconsume⟩ := consume?_eq_some partition hllEnabled now h hfits
    obtain rfl := Option.some.inj (hconsume.symm.trans hr)
    obtain rfl := Option.some.inj heq
    exact hrange.processEvent hfits _ _
  | tickIdle nowWall nowUtc =>
    obtain ⟨ps', rfl, rfl⟩ := Option.map_eq_some_iff.mp (Option.some.inj hstep)
    exact (h ps' rfl).tickIdle nowWall hvalid.2
  | take =>
    cases s with
    | none => cases Option.some.inj hstep
    | some ps' =>
      obtain ⟨r, hr, heq⟩ := Option.map_eq_some_iff.mp hstep
      obtain rfl := Option.some.inj heq
      rw [PartitionState.eq_of_takeClosedWindows? hr]
      exact (h ps' rfl).takeClosedWindows

/-- The loop's body and the next take complete exactly for events whose timestamp is a 64-bit
count of nanoseconds. -/
theorem completes_iff (partition : Int) (actions : List SlotAction) (s : Option PartitionState)
    (hrun : Run (step partition) Valid none actions s) (m : Message) (hllEnabled : Bool)
    (now : Nat) :
    ((PartitionState.consume? s partition m hllEnabled now).bind
      fun r => r.1.takeClosedWindows?).isSome ↔ FitsNanos m.event.ts := by
  have hs : InRange s := hrun.invariant (fun _ _ _ h hvalid hstep => h.step hvalid hstep)
    fun ps hps => by cases hps
  constructor
  · intro h
    obtain ⟨closed, hclosed⟩ := Option.isSome_iff_exists.mp h
    obtain ⟨r, hr, _⟩ := Option.bind_eq_some_iff.mp hclosed
    exact fitsNanos_of_consume? hr
  · intro hfits
    obtain ⟨ps, hrange, hconsume⟩ := consume?_eq_some partition hllEnabled now hs hfits
    have hmax := ps.processEvent_maxEventTs m.event m.offset now
    have hlow := hfits.representable.2.2.1
    rw [hconsume, Option.bind_some, (hrange.processEvent hfits m.offset
      now).takeClosedWindows?_eq (by omega)]
    rfl

/-- An event of the year 1500. -/
def oldEdit : Message := ⟨0, evt (-14831769600000000000) 1 "u1"⟩

/-- The gateway accepts it now, and the consume loop panics, with or without an entry. -/
theorem old_event_panics :
    Representable oldEdit.event.ts ∧ oldEdit.event.validate 1790000000000000000 = .ok () ∧
      PartitionState.consume? none 0 oldEdit false 0 = none ∧
      ∃ s, Run (step 0) Valid none [.assign 0 1789000000000000000 false 0] s ∧
        PartitionState.consume? s 0 oldEdit false 0 = none :=
  ⟨by decide, by decide, rfl, _, run_of_execute rfl, rfl⟩

theorem completes_iff_new :
    ∃ s, Run (step 0) Valid none [.assign 0 1789000000000000000 false 0, .take] s ∧
      ((PartitionState.consume? s 0 ⟨0, evt 1790000000000000000 1 "u1"⟩ false 0).bind
        fun r => r.1.takeClosedWindows?).isSome := by
  have hrun : ∃ s, Run (step 0) Valid none [.assign 0 1789000000000000000 false 0, .take] s :=
    ⟨_, run_of_execute rfl⟩
  obtain ⟨s, hs⟩ := hrun
  exact ⟨s, hs,
    (completes_iff 0 _ s hs ⟨0, evt 1790000000000000000 1 "u1"⟩ false 0).mpr (by decide)⟩

end Slot

end HushEngine
