import Mathlib.Algebra.BigOperators.Group.Finset.Sigma
import Mathlib.Data.Finset.Card

/-!
What an aggregation is for, apart from any pipeline: a finite set of events,
each contributing to some keys and carrying a user, determines for every key
how many events and how many distinct users it has. Splitting the events by a
route that respects users splits both counts; renaming users injectively
changes neither.
-/
namespace HushEngine.Tally

structure Totals where
  events : ℕ
  users : ℕ
deriving DecidableEq

variable {E K U : Type*} [DecidableEq K]

/-- The events of the set that contribute to the key. -/
def contributors (cells : E → List K) (s : Finset E) (k : K) : Finset E :=
  s.filter fun e => k ∈ cells e

theorem mem_contributors (cells : E → List K) (s : Finset E) (k : K) (e : E) :
    e ∈ contributors cells s k ↔ e ∈ s ∧ k ∈ cells e := by
  simp [contributors]

theorem contributors_insert_of_mem [DecidableEq E] (cells : E → List K) (s : Finset E) (k : K)
    (e : E) (h : k ∈ cells e) :
    contributors cells (insert e s) k = insert e (contributors cells s k) := by
  simp [contributors, Finset.filter_insert, h]

theorem contributors_insert_of_not_mem [DecidableEq E] (cells : E → List K) (s : Finset E)
    (k : K) (e : E) (h : k ∉ cells e) :
    contributors cells (insert e s) k = contributors cells s k := by
  simp [contributors, Finset.filter_insert, h]

variable [DecidableEq U]

/-- The users of the events that contribute to the key. -/
def users (cells : E → List K) (user : E → U) (s : Finset E) (k : K) : Finset U :=
  (contributors cells s k).image user

/-- Without one user's events, that user is all that is missing. -/
theorem users_filter_ne (cells : E → List K) (user : E → U) (s : Finset E) (k : K) (u : U) :
    users cells user (s.filter fun e => user e ≠ u) k = (users cells user s k).erase u := by
  ext v
  simp only [users, contributors, Finset.mem_image, Finset.mem_filter, Finset.mem_erase]
  constructor
  · intro hv
    obtain ⟨e, ⟨⟨he, hne⟩, hk⟩, rfl⟩ := hv
    exact ⟨hne, e, ⟨he, hk⟩, rfl⟩
  · intro hv
    obtain ⟨hne, e, ⟨he, hk⟩, rfl⟩ := hv
    exact ⟨e, ⟨⟨he, hne⟩, hk⟩, rfl⟩

def totals (cells : E → List K) (user : E → U) (s : Finset E) (k : K) : Totals :=
  ⟨(contributors cells s k).card, (users cells user s k).card⟩

/-- A key has totals only if some event contributes to it. -/
def tally (cells : E → List K) (user : E → U) (s : Finset E) (k : K) : Option Totals :=
  if (contributors cells s k).Nonempty then some (totals cells user s k) else none

theorem tally_isSome_iff (cells : E → List K) (user : E → U) (s : Finset E) (k : K) :
    (tally cells user s k).isSome ↔ (contributors cells s k).Nonempty := by
  unfold tally
  split <;> simp_all

theorem totals_of_tally (cells : E → List K) (user : E → U) (s : Finset E) (k : K) :
    (tally cells user s k).getD ⟨0, 0⟩ = totals cells user s k := by
  unfold tally
  split
  · rfl
  · next h =>
    have hempty : contributors cells s k = ∅ := Finset.not_nonempty_iff_eq_empty.mp h
    simp [totals, users, hempty]

/-- A part of a set has its tally at a key only if it has all that contributes to the key. -/
theorem tally_eq_iff_of_subset (cells : E → List K) (user : E → U) {s t : Finset E} (h : s ⊆ t)
    (k : K) :
    tally cells user s k = tally cells user t k ↔
      contributors cells s k = contributors cells t k := by
  have hsub : contributors cells s k ⊆ contributors cells t k := Finset.filter_subset_filter _ h
  constructor
  · intro htally
    have hevents := congrArg (fun r => (r.getD ⟨0, 0⟩).events) htally
    simp only [totals_of_tally, totals] at hevents
    exact Finset.eq_of_subset_of_card_le hsub hevents.ge
  · intro heq
    simp only [tally, totals, users, heq]

section Routing

variable {ι : Type*} [DecidableEq ι]

/-- The part of the set that takes a given route. -/
def routed (route : E → ι) (s : Finset E) (i : ι) : Finset E := s.filter fun e => route e = i

theorem contributors_routed (cells : E → List K) (route : E → ι) (s : Finset E) (k : K) (i : ι) :
    contributors cells (routed route s i) k =
      (contributors cells s k).filter fun e => route e = i := by
  ext e
  simp only [contributors, routed, Finset.mem_filter]
  tauto

/-- Event counts add up over the routes, whatever the route depends on. -/
theorem sum_events_routed (cells : E → List K) (user : E → U) (route : E → ι) (s : Finset E)
    (k : K) (routes : Finset ι) (hroutes : ∀ e ∈ contributors cells s k, route e ∈ routes) :
    ∑ i ∈ routes, (totals cells user (routed route s i) k).events =
      (totals cells user s k).events := by
  simp only [totals, contributors_routed]
  exact (Finset.card_eq_sum_card_fiberwise hroutes).symm

/-- Distinct users add up over the routes when a user decides the route. -/
theorem sum_users_routed (cells : E → List K) (user : E → U) (route : U → ι) (s : Finset E)
    (k : K) (routes : Finset ι)
    (hroutes : ∀ e ∈ contributors cells s k, route (user e) ∈ routes) :
    ∑ i ∈ routes, (totals cells user (routed (fun e => route (user e)) s i) k).users =
      (totals cells user s k).users := by
  have hpart : ∀ i, users cells user (routed (fun e => route (user e)) s i) k =
      (users cells user s k).filter fun u => route u = i := by
    intro i
    rw [users, contributors_routed, users, Finset.filter_image]
  have hmaps : ∀ u ∈ users cells user s k, route u ∈ routes := by
    intro u hu
    obtain ⟨e, he, rfl⟩ := Finset.mem_image.mp hu
    exact hroutes e he
  simp only [totals, hpart]
  exact (Finset.card_eq_sum_card_fiberwise hmaps).symm

end Routing

section Children

variable {cells : E → List K} {child : E → K} {s : Finset E} {k : K} {kids : Finset K}

/-- The events of a key are those of its children, each in one of them. -/
theorem contributors_child (hchild : ∀ e ∈ s, ∀ c ∈ kids, c ∈ cells e ↔ k ∈ cells e ∧ child e = c)
    {c : K} (hc : c ∈ kids) :
    contributors cells s c = (contributors cells s k).filter fun e => child e = c := by
  ext e
  simp only [contributors, Finset.mem_filter]
  constructor
  · intro h
    obtain ⟨hk, heq⟩ := (hchild e h.1 c hc).mp h.2
    exact ⟨⟨h.1, hk⟩, heq⟩
  · intro h
    obtain ⟨⟨he, hk⟩, heq⟩ := h
    exact ⟨he, (hchild e he c hc).mpr ⟨hk, heq⟩⟩

theorem sum_events_children (user : E → U)
    (hchild : ∀ e ∈ s, ∀ c ∈ kids, c ∈ cells e ↔ k ∈ cells e ∧ child e = c)
    (hkids : ∀ e ∈ contributors cells s k, child e ∈ kids) :
    ∑ c ∈ kids, (totals cells user s c).events = (totals cells user s k).events := by
  simp only [totals]
  rw [Finset.card_eq_sum_card_fiberwise hkids]
  exact Finset.sum_congr rfl fun c hc => by rw [contributors_child hchild hc]

/-- A user of a child is a user of the key. -/
theorem users_child_le (user : E → U)
    (hchild : ∀ e ∈ s, ∀ c ∈ kids, c ∈ cells e ↔ k ∈ cells e ∧ child e = c)
    {c : K} (hc : c ∈ kids) :
    (totals cells user s c).users ≤ (totals cells user s k).users := by
  apply Finset.card_le_card
  apply Finset.image_subset_image
  rw [contributors_child hchild hc]
  exact Finset.filter_subset _ _

/-- A user of the key is a user of some child, perhaps of several. -/
theorem users_le_sum_children (user : E → U)
    (hchild : ∀ e ∈ s, ∀ c ∈ kids, c ∈ cells e ↔ k ∈ cells e ∧ child e = c)
    (hkids : ∀ e ∈ contributors cells s k, child e ∈ kids) :
    (totals cells user s k).users ≤ ∑ c ∈ kids, (totals cells user s c).users := by
  have hunion : users cells user s k ⊆ kids.biUnion fun c => users cells user s c := by
    intro u hu
    obtain ⟨e, he, rfl⟩ := Finset.mem_image.mp hu
    refine Finset.mem_biUnion.mpr ⟨child e, hkids e he, Finset.mem_image_of_mem user ?_⟩
    rw [contributors_child hchild (hkids e he)]
    exact Finset.mem_filter.mpr ⟨he, rfl⟩
  exact (Finset.card_le_card hunion).trans Finset.card_biUnion_le

theorem users_le_events (cells : E → List K) (user : E → U) (s : Finset E) (k : K) :
    (totals cells user s k).users ≤ (totals cells user s k).events :=
  Finset.card_image_le

end Children

/-- Members counted for each part are counted once only if the parts are disjoint. -/
theorem card_biUnion_eq_sum_iff (kids : Finset K) (part : K → Finset U) :
    (kids.biUnion part).card = ∑ c ∈ kids, (part c).card ↔
      (kids : Set K).PairwiseDisjoint part := by
  have himage : (kids.sigma part).image (fun x => x.2) = kids.biUnion part := by
    ext u
    simp
  rw [← himage, ← Finset.card_sigma, Finset.card_image_iff]
  constructor
  · intro hinj c hc d hd hne
    refine Finset.disjoint_left.mpr fun u hu hu' => hne ?_
    have hmem : (⟨c, u⟩ : Σ _ : K, U) ∈ kids.sigma part := Finset.mem_sigma.mpr ⟨hc, hu⟩
    have hmem' : (⟨d, u⟩ : Σ _ : K, U) ∈ kids.sigma part := Finset.mem_sigma.mpr ⟨hd, hu'⟩
    exact congrArg Sigma.fst (hinj hmem hmem' rfl)
  · intro hdisjoint x hx y hy heq
    obtain ⟨c, u⟩ := x
    obtain ⟨d, v⟩ := y
    obtain rfl : u = v := heq
    obtain ⟨hc, hu⟩ := Finset.mem_sigma.mp hx
    obtain ⟨hd, hu'⟩ := Finset.mem_sigma.mp hy
    by_contra hne
    have hcd : c ≠ d := fun heq => hne (by rw [heq])
    exact Finset.disjoint_left.mp (hdisjoint hc hd hcd) hu hu'

/-- Replacing every event by a renamed copy with the same cells keeps all totals. -/
theorem tally_image {E' V : Type*} [DecidableEq E'] [DecidableEq V]
    (cells : E → List K) (user : E → U) (cells' : E' → List K) (user' : E' → V)
    (rename : E → E') (f : U → V) (s : Finset E) (k : K)
    (hrename : Set.InjOn rename s) (hf : Function.Injective f)
    (hcells : ∀ e, cells' (rename e) = cells e) (huser : ∀ e, user' (rename e) = f (user e)) :
    tally cells' user' (s.image rename) k = tally cells user s k := by
  have hcontrib : contributors cells' (s.image rename) k =
      (contributors cells s k).image rename := by
    ext e'
    simp only [contributors, Finset.mem_filter, Finset.mem_image]
    constructor
    · intro h
      obtain ⟨⟨e, he, rfl⟩, hk⟩ := h
      exact ⟨e, ⟨he, by rwa [hcells] at hk⟩, rfl⟩
    · intro h
      obtain ⟨e, ⟨he, hk⟩, rfl⟩ := h
      exact ⟨⟨e, he, rfl⟩, by rwa [hcells]⟩
  have hinj : Set.InjOn rename (contributors cells s k) :=
    hrename.mono fun e he => (Finset.mem_filter.mp he).1
  have husers : users cells' user' (s.image rename) k = (users cells user s k).image f := by
    rw [users, hcontrib, users, Finset.image_image, Finset.image_image]
    exact Finset.image_congr fun e _ => huser e
  have htotals : totals cells' user' (s.image rename) k = totals cells user s k := by
    unfold totals
    rw [husers, Finset.card_image_of_injective _ hf, hcontrib, Finset.card_image_of_injOn hinj]
  unfold tally
  simp only [htotals, hcontrib, Finset.image_nonempty]

end HushEngine.Tally
