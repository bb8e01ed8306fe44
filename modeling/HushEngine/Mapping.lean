import HushEngine.Fallible
import HushEngine.TimeRange

/-!
What the wiki source makes of one recent-change message. The family is guessed
from the name of the wiki and is never blank; a message is refused for the
range of its timestamp first and for its type second.
-/
namespace HushEngine

structure RecentChange where
  kind : String
  ns : Int
  user : String
  bot : Bool
  wiki : String
  /-- In seconds. -/
  timestamp : Int
deriving DecidableEq

inductive MappingError
  | unknownKind (kind : String)
  | invalidTimestamp (timestamp : Int)
deriving DecidableEq

def MappingError.message : MappingError → String
  | unknownKind kind => "unknown recentchange type: " ++ kind
  | invalidTimestamp timestamp => "invalid timestamp: " ++ toString timestamp

def endsWith (w suffix : String) : Bool := suffix.toList.isSuffixOf w.toList

def familyForWiki (wiki : String) : String :=
  if wiki = "wikidatawiki" then "wikidata"
  else if wiki = "commonswiki" then "commons"
  else if wiki = "specieswiki" then "wikispecies"
  else if wiki = "mediawikiwiki" then "mediawiki"
  else if endsWith wiki "wiktionary" then "wiktionary"
  else if endsWith wiki "wikinews" then "wikinews"
  else if endsWith wiki "wikibooks" then "wikibooks"
  else if endsWith wiki "wikiquote" then "wikiquote"
  else if endsWith wiki "wikisource" then "wikisource"
  else if endsWith wiki "wikiversity" then "wikiversity"
  else if endsWith wiki "wikivoyage" then "wikivoyage"
  else if endsWith wiki "wiki" then "wikipedia"
  else "other"

def kindForStr (s : String) : Except MappingError EventKind :=
  if s = "edit" then .ok .edit
  else if s = "new" then .ok .new
  else if s = "log" then .ok .log
  else if s = "categorize" then .ok .categorize
  else .error (.unknownKind s)

/-- `to_event`; the event's id is drawn at random, so it is an argument here. -/
def toEvent (uuid : Uuid) (rc : RecentChange) : Except MappingError Event :=
  let ts := rc.timestamp * 1000000000
  if Representable ts then do
    let kind ← kindForStr rc.kind
    return ⟨uuid, rc.user, ts, familyForWiki rc.wiki, rc.wiki, rc.ns, kind, rc.bot⟩
  else .error (.invalidTimestamp rc.timestamp)

theorem isBlank_ite {c : Prop} [Decidable c] {s t : String} (hs : isBlank s = false)
    (ht : isBlank t = false) : isBlank (if c then s else t) = false := by
  split
  · exact hs
  · exact ht

theorem familyForWiki_not_blank (wiki : String) : isBlank (familyForWiki wiki) = false := by
  unfold familyForWiki
  repeat refine isBlank_ite (by decide) ?_
  decide

theorem kindForStr_error {s : String} {err : MappingError} (h : kindForStr s = .error err) :
    err = .unknownKind s := by
  unfold kindForStr at h
  split_ifs at h
  cases h
  rfl

theorem toEvent_ok {uuid : Uuid} {rc : RecentChange} {e : Event} (h : toEvent uuid rc = .ok e) :
    ∃ kind, kindForStr rc.kind = .ok kind ∧ Representable (rc.timestamp * 1000000000) ∧
      e = ⟨uuid, rc.user, rc.timestamp * 1000000000, familyForWiki rc.wiki, rc.wiki, rc.ns, kind,
        rc.bot⟩ := by
  unfold toEvent at h
  dsimp only at h
  split_ifs at h with hts
  obtain ⟨kind, hkind, hevent⟩ := Fallible.bind_eq_ok.mp h
  exact ⟨kind, hkind, hts, (Except.ok.inj hevent).symm⟩

theorem toEvent_of_kind {rc : RecentChange} {kind : EventKind}
    (hts : Representable (rc.timestamp * 1000000000)) (hkind : kindForStr rc.kind = .ok kind)
    (uuid : Uuid) : toEvent uuid rc = .ok ⟨uuid, rc.user, rc.timestamp * 1000000000,
      familyForWiki rc.wiki, rc.wiki, rc.ns, kind, rc.bot⟩ := by
  unfold toEvent
  rw [hkind]
  exact if_pos hts

/-- Whether a message is mapped does not depend on the id that is drawn for it. -/
theorem toEvent_uuid {uuid : Uuid} {rc : RecentChange} {e : Event} (h : toEvent uuid rc = .ok e)
    (uuid' : Uuid) : toEvent uuid' rc = .ok { e with eventId := uuid' } := by
  obtain ⟨kind, hkind, hts, rfl⟩ := toEvent_ok h
  exact toEvent_of_kind hts hkind uuid'

/-- An error names the field it is about. -/
theorem toEvent_error {uuid : Uuid} {rc : RecentChange} {err : MappingError}
    (h : toEvent uuid rc = .error err) :
    (err = .invalidTimestamp rc.timestamp ∧ ¬ Representable (rc.timestamp * 1000000000)) ∨
      (err = .unknownKind rc.kind ∧ Representable (rc.timestamp * 1000000000)) := by
  unfold toEvent at h
  dsimp only at h
  split_ifs at h with hts
  · cases hkind : kindForStr rc.kind with
    | ok kind =>
      rw [hkind] at h
      cases h
    | error err' =>
      rw [hkind] at h
      cases h
      exact Or.inr ⟨kindForStr_error hkind, hts⟩
  · cases h
    exact Or.inl ⟨rfl, hts⟩

/-- What the gateway can still object to in a mapped event. -/
theorem validate_toEvent {uuid : Uuid} {rc : RecentChange} {e : Event}
    (h : toEvent uuid rc = .ok e) (now : Int) :
    e.validate now = .ok () ↔ isBlank rc.user = false ∧ isBlank rc.wiki = false ∧ 0 ≤ rc.ns ∧
      rc.timestamp * 1000000000 ≤ now + maxFutureSkew := by
  obtain ⟨kind, _, _, rfl⟩ := toEvent_ok h
  rw [Event.validate_ok_iff]
  simp only [familyForWiki_not_blank, true_and]

end HushEngine
