import HushEngine.Events
import Mathlib.Data.List.Basic

/-!
What the gateway lets through. An event's timestamp is bounded from above only,
by the gateway's own clock and an allowance for skew; an event far in the past
is as welcome as a recent one.
-/
namespace HushEngine

inductive EventValidationError
  | emptyUser (eventId : Uuid)
  | emptyWiki (eventId : Uuid)
  | emptyFamily (eventId : Uuid)
  | negativeNamespace (eventId : Uuid) (ns : Int)
  | timestampInFuture (eventId : Uuid) (ts : Int)
deriving DecidableEq

/-- What follows the event's id in the message of an error; `showTs` prints a `DateTime<Utc>`. -/
def EventValidationError.reason (showTs : Int → String) : EventValidationError → String
  | emptyUser _ => "has empty user field"
  | emptyWiki _ => "has empty wiki field"
  | emptyFamily _ => "has empty family field"
  | negativeNamespace _ ns => "has negative namespace " ++ toString ns
  | timestampInFuture _ ts => "timestamp " ++ showTs ts ++ " is too far in the future"

/-- `MAX_FUTURE_SKEW_SECS`, in nanoseconds. -/
def maxFutureSkew : Int := 60000000000

/-- The characters of Unicode's `White_Space`, which `str::trim` strips. -/
def isWhiteSpace (c : Char) : Bool :=
  (9 ≤ c.toNat && c.toNat ≤ 13) || c.toNat == 32 || c.toNat == 0x85 || c.toNat == 0xa0 ||
    c.toNat == 0x1680 || (0x2000 ≤ c.toNat && c.toNat ≤ 0x200a) || c.toNat == 0x2028 ||
    c.toNat == 0x2029 || c.toNat == 0x202f || c.toNat == 0x205f || c.toNat == 0x3000

/-- `s.trim().is_empty()`. -/
def isBlank (s : String) : Bool := s.toList.all isWhiteSpace

namespace Event

def validate (e : Event) (now : Int) : Except EventValidationError Unit :=
  if isBlank e.user then .error (.emptyUser e.eventId)
  else if isBlank e.wiki then .error (.emptyWiki e.eventId)
  else if isBlank e.family then .error (.emptyFamily e.eventId)
  else if e.ns < 0 then .error (.negativeNamespace e.eventId e.ns)
  else if e.ts > now + maxFutureSkew then .error (.timestampInFuture e.eventId e.ts)
  else .ok ()

theorem validate_ok_iff (e : Event) (now : Int) :
    e.validate now = .ok () ↔ isBlank e.user = false ∧ isBlank e.wiki = false ∧
      isBlank e.family = false ∧ 0 ≤ e.ns ∧ e.ts ≤ now + maxFutureSkew := by
  unfold validate
  split_ifs <;> simp_all

/-- An error is about the event and names the first check it fails. -/
theorem validate_error {e : Event} {now : Int} {err : EventValidationError}
    (h : e.validate now = .error err) :
    (err = .emptyUser e.eventId ∧ isBlank e.user = true) ∨
    (err = .emptyWiki e.eventId ∧ isBlank e.wiki = true) ∨
    (err = .emptyFamily e.eventId ∧ isBlank e.family = true) ∨
    (err = .negativeNamespace e.eventId e.ns ∧ e.ns < 0) ∨
    (err = .timestampInFuture e.eventId e.ts ∧ now + maxFutureSkew < e.ts) := by
  unfold validate at h
  split_ifs at h with huser hwiki hfamily hns hts <;> cases h
  · exact Or.inl ⟨rfl, huser⟩
  · exact Or.inr (Or.inl ⟨rfl, hwiki⟩)
  · exact Or.inr (Or.inr (Or.inl ⟨rfl, hfamily⟩))
  · exact Or.inr (Or.inr (Or.inr (Or.inl ⟨rfl, hns⟩)))
  · exact Or.inr (Or.inr (Or.inr (Or.inr ⟨rfl, hts⟩)))

end Event

end HushEngine
