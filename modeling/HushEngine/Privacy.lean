import Mathlib.Algebra.Ring.Nat
import Mathlib.Data.List.Sort
import Mathlib.Data.List.Perm.Basic

/-!
Threshold suppression of one parent's children. Children below the threshold
are hidden; the smallest visible ones are pulled in until the hidden group,
with the parent's residual, reaches the threshold; a hidden group that does not
reach it is not released. Counts are `u64`, with the sums of a release build.
-/
namespace HushEngine

/-- One cell's summed counts, before or after suppression. -/
structure RawCell where
  family : String
  wiki : String
  ns : Int
  events : UInt64
  users : UInt64
deriving DecidableEq

inductive ResultCell
  | visible (family wiki : String) (ns : Int) (events users : UInt64)
  /-- Children merged together. -/
  | other (events users : UInt64)
deriving DecidableEq

def ResultCell.users : ResultCell → UInt64
  | visible _ _ _ _ users => users
  | other _ users => users

def RawCell.toVisible (c : RawCell) : ResultCell :=
  .visible c.family c.wiki c.ns c.events c.users

def defaultK : UInt64 := 10

/-- The sum of a column, wrapping as `Iterator::sum` does without overflow checks. -/
def sumBy (column : RawCell → UInt64) : List RawCell → UInt64
  | [] => 0
  | c :: cs => column c + sumBy column cs

def saturatingSub (a b : UInt64) : UInt64 := if b ≤ a then a - b else 0

/-- The pulling loop: the visible children left, the hidden ones and their effective size. -/
def pull (k : UInt64) :
    List RawCell → List RawCell → UInt64 → List RawCell × List RawCell × UInt64
  | [], hidden, effective => ([], hidden, effective)
  | c :: visible, hidden, effective =>
    if effective > 0 ∧ effective < k then pull k visible (hidden ++ [c]) (effective + c.users)
    else (c :: visible, hidden, effective)

def suppress (parentUsers : UInt64) (children : List RawCell) (k : UInt64) : List ResultCell :=
  let hidden := children.filter fun c => decide (c.users < k)
  let visible := children.filter fun c => !decide (c.users < k)
  let hiddenUsers := sumBy RawCell.users hidden
  let visible := visible.insertionSort fun a b => a.users ≤ b.users
  let residual := saturatingSub parentUsers (sumBy RawCell.users visible + hiddenUsers)
  let r := pull k visible hidden (hiddenUsers + residual)
  r.1.map RawCell.toVisible ++
    if r.2.1 ≠ [] ∧ r.2.2 ≥ k then [.other (sumBy RawCell.events r.2.1) r.2.2] else []

def suppressSingle (c : RawCell) (k : UInt64) : Bool := decide (c.users ≥ k)

theorem pull_sublist (k : UInt64) (visible hidden : List RawCell) (effective : UInt64) :
    (pull k visible hidden effective).1.Sublist visible := by
  induction visible generalizing hidden effective with
  | nil => exact .slnil
  | cons c visible ih =>
    rw [pull]
    split_ifs
    · exact (ih _ _).cons _
    · exact .refl _

/-- A visible cell is a child that reaches the threshold. -/
theorem mem_of_visible_mem_suppress {parentUsers k : UInt64} {children : List RawCell}
    {family wiki : String} {ns : Int} {events users : UInt64}
    (h : .visible family wiki ns events users ∈ suppress parentUsers children k) :
    ⟨family, wiki, ns, events, users⟩ ∈ children ∧ k ≤ users := by
  unfold suppress at h
  dsimp only at h
  rcases List.mem_append.mp h with hvisible | hother
  · obtain ⟨⟨_, _, _, _, _⟩, hc, heq⟩ := List.mem_map.mp hvisible
    cases heq
    have hmem := (List.mem_insertionSort _).mp ((pull_sublist _ _ _ _).subset hc)
    rw [List.mem_filter] at hmem
    exact ⟨hmem.1, by simpa using hmem.2⟩
  · split_ifs at hother
    · cases List.mem_singleton.mp hother
    · cases hother

/-- No released cell is below the threshold. -/
theorem le_users_of_mem_suppress {parentUsers k : UInt64} {children : List RawCell}
    {cell : ResultCell} (h : cell ∈ suppress parentUsers children k) : k ≤ cell.users := by
  unfold suppress at h
  dsimp only at h
  rcases List.mem_append.mp h with hvisible | hother
  · obtain ⟨c, hc, rfl⟩ := List.mem_map.mp hvisible
    have hsorted := (pull_sublist _ _ _ _).subset hc
    have hmem := (List.mem_insertionSort _).mp hsorted
    have hnot := (List.mem_filter.mp hmem).2
    simpa [RawCell.toVisible, ResultCell.users] using hnot
  · split_ifs at hother with hcond
    · obtain rfl := List.mem_singleton.mp hother
      exact hcond.2
    · cases hother

/-- A column's sum without wrapping. -/
def natSumBy (column : RawCell → UInt64) (cs : List RawCell) : Nat :=
  (cs.map fun c => (column c).toNat).sum

theorem natSumBy_cons (column : RawCell → UInt64) (c : RawCell) (cs : List RawCell) :
    natSumBy column (c :: cs) = (column c).toNat + natSumBy column cs := by
  simp [natSumBy]

theorem toNat_sumBy (column : RawCell → UInt64) (cs : List RawCell)
    (h : natSumBy column cs < 2 ^ 64) : (sumBy column cs).toNat = natSumBy column cs := by
  induction cs with
  | nil => rfl
  | cons c cs ih =>
    rw [natSumBy_cons] at h ⊢
    rw [sumBy, UInt64.toNat_add, ih (by omega)]
    omega

theorem natSumBy_append (column : RawCell → UInt64) (cs ds : List RawCell) :
    natSumBy column (cs ++ ds) = natSumBy column cs + natSumBy column ds := by
  simp [natSumBy]

theorem natSumBy_perm (column : RawCell → UInt64) {cs ds : List RawCell} (h : cs.Perm ds) :
    natSumBy column cs = natSumBy column ds :=
  (h.map _).sum_nat

/-- The users of a response, over visible and other rows. -/
def releasedUsers (cells : List ResultCell) : Nat := (cells.map fun c => c.users.toNat).sum

theorem releasedUsers_append (cs ds : List ResultCell) :
    releasedUsers (cs ++ ds) = releasedUsers cs + releasedUsers ds := by
  simp [releasedUsers]

theorem releasedUsers_map_toVisible (cs : List RawCell) :
    releasedUsers (cs.map RawCell.toVisible) = natSumBy RawCell.users cs := by
  simp [releasedUsers, natSumBy, RawCell.toVisible, ResultCell.users, Function.comp_def]

/-- The loop moves users from the visible to the hidden side. -/
theorem pull_users (k : UInt64) (visible hidden : List RawCell) (effective : UInt64)
    (h : natSumBy RawCell.users visible + effective.toNat < 2 ^ 64) :
    natSumBy RawCell.users (pull k visible hidden effective).1 +
      (pull k visible hidden effective).2.2.toNat =
    natSumBy RawCell.users visible + effective.toNat := by
  induction visible generalizing hidden effective with
  | nil => rfl
  | cons c visible ih =>
    have hsplit := natSumBy_cons RawCell.users c visible
    rw [pull]
    split_ifs
    · have hadd : (effective + c.users).toNat = effective.toNat + c.users.toNat := by
        rw [UInt64.toNat_add]
        omega
      rw [ih _ _ (by omega), hadd, hsplit]
      omega
    · rfl

/-- The loop stops with nothing to hide, with enough hidden, or with nothing visible. -/
theorem pull_stops (k : UInt64) (visible hidden : List RawCell) (effective : UInt64) :
    (pull k visible hidden effective).2.2 = 0 ∨ k ≤ (pull k visible hidden effective).2.2 ∨
      (pull k visible hidden effective).1 = [] := by
  induction visible generalizing hidden effective with
  | nil => exact Or.inr (Or.inr rfl)
  | cons c visible ih =>
    rw [pull]
    split_ifs with hcond
    · exact ih _ _
    · by_cases hzero : effective = 0
      · exact Or.inl hzero
      · right
        left
        have hpos : 0 < effective := UInt64.pos_iff_ne_zero.mpr hzero
        exact UInt64.not_lt.mp fun hlt => hcond ⟨hpos, hlt⟩

/-- A loop that has pulled, or started with hidden children, ends with hidden children. -/
theorem pull_hidden_ne_nil (k : UInt64) (visible hidden : List RawCell) (effective : UInt64)
    (h : hidden ≠ []) : (pull k visible hidden effective).2.1 ≠ [] := by
  induction visible generalizing hidden effective with
  | nil => exact h
  | cons c visible ih =>
    rw [pull]
    split_ifs
    · exact ih _ _ (by simp)
    · exact h

theorem pull_zero (k : UInt64) (visible hidden : List RawCell) :
    pull k visible hidden 0 = (visible, hidden, 0) := by
  cases visible with
  | nil => rfl
  | cons c visible =>
    rw [pull, if_neg]
    intro h
    obtain ⟨hpos, _⟩ := h
    exact absurd hpos (by decide)

/-- Under a parent without users, children at the threshold are all visible. -/
theorem visible_mem_suppress_zero {k : UInt64} {children : List RawCell}
    (hall : ∀ c ∈ children, k ≤ c.users) {c : RawCell} (hc : c ∈ children) :
    c.toVisible ∈ suppress 0 children k := by
  have hhidden : children.filter (fun c => decide (c.users < k)) = [] := by
    apply List.filter_eq_nil_iff.mpr
    intro c' hc' hlt
    exact absurd (hall c' hc') (UInt64.not_le.mpr (of_decide_eq_true hlt))
  have hresidual : ∀ x : UInt64, saturatingSub 0 x = 0 := by
    intro x
    unfold saturatingSub
    split_ifs with hle
    · rw [UInt64.le_zero_iff.mp hle]
      rfl
    · rfl
  unfold suppress
  dsimp only
  rw [hhidden, hresidual, show sumBy RawCell.users [] + 0 = 0 from rfl, pull_zero]
  apply List.mem_append_left
  apply List.mem_map_of_mem
  apply (List.mem_insertionSort _).mpr
  exact List.mem_filter.mpr ⟨hc, by simpa using hall c hc⟩

/-- A nonempty list of cells at or above the threshold sums to at least the threshold. -/
theorem natSumBy_eq_zero_or_ge {k : UInt64} {cs : List RawCell} (h : ∀ c ∈ cs, k ≤ c.users) :
    natSumBy RawCell.users cs = 0 ∨ k.toNat ≤ natSumBy RawCell.users cs := by
  cases cs with
  | nil => exact Or.inl rfl
  | cons c cs =>
    right
    have hc : k.toNat ≤ c.users.toNat := UInt64.le_iff_toNat_le.mp (h c (List.mem_cons_self ..))
    rw [natSumBy_cons]
    omega

/-- Visible children are pulled until the hidden group is large enough, is
empty of users, or has taken all of them. -/
theorem pull_outcome {k : UInt64} {visible hidden : List RawCell} (hk : 1 ≤ k)
    (hlt : natSumBy RawCell.users hidden + natSumBy RawCell.users visible < 2 ^ 64)
    {r : List RawCell × List RawCell × UInt64}
    (hr : pull k visible hidden (sumBy RawCell.users hidden) = r) :
    natSumBy RawCell.users r.1 + r.2.2.toNat =
        natSumBy RawCell.users hidden + natSumBy RawCell.users visible ∧
      (r.2.1 ≠ [] ∧ k ≤ r.2.2 ∨
        r.2.2.toNat < k.toNat ∧ (r.2.2.toNat = 0 ∨ natSumBy RawCell.users r.1 = 0)) := by
  have hhidden := toNat_sumBy RawCell.users hidden (by omega)
  have husers := pull_users k visible hidden (sumBy RawCell.users hidden) (by omega)
  have hstops := pull_stops k visible hidden (sumBy RawCell.users hidden)
  rw [hr] at husers hstops
  refine ⟨by omega, ?_⟩
  by_cases hge : k ≤ r.2.2
  · refine Or.inl ⟨?_, hge⟩
    by_cases hnil : hidden = []
    · -- nothing hidden: the loop has not started, and the effective size is zero
      rw [hnil, show sumBy RawCell.users [] = 0 from rfl, pull_zero] at hr
      have hzero : r.2.2 = 0 := by rw [← hr]
      rw [hzero] at hge
      exact absurd (UInt64.le_trans hk hge) (by decide)
    · rw [← hr]
      exact pull_hidden_ne_nil k visible hidden _ hnil
  · refine Or.inr ⟨Nat.lt_of_not_le fun hle => hge (UInt64.le_iff_toNat_le.mpr hle), ?_⟩
    rcases hstops with hzero | hge' | hnil
    · exact Or.inl (by rw [hzero]; rfl)
    · exact absurd hge' hge
    · exact Or.inr (by rw [hnil]; rfl)

theorem residual_eq_zero {parentUsers : UInt64} {visible hidden : List RawCell}
    (h : natSumBy RawCell.users hidden + natSumBy RawCell.users visible = parentUsers.toNat) :
    saturatingSub parentUsers (sumBy RawCell.users visible + sumBy RawCell.users hidden) = 0 := by
  have hbound := parentUsers.toNat_lt
  have hhidden := toNat_sumBy RawCell.users hidden (by omega)
  have hvisible := toNat_sumBy RawCell.users visible (by omega)
  have htotal : sumBy RawCell.users visible + sumBy RawCell.users hidden = parentUsers := by
    apply UInt64.toNat_inj.mp
    rw [UInt64.toNat_add]
    omega
  rw [htotal, saturatingSub, if_pos (UInt64.le_refl _), UInt64.sub_self]

/-- When the children account for the parent, either all of the parent is released, or the
parent is below the threshold and nothing is. -/
theorem releasedUsers_suppress {parentUsers k : UInt64} {children : List RawCell} (hk : 1 ≤ k)
    (hsum : natSumBy RawCell.users children = parentUsers.toNat) :
    releasedUsers (suppress parentUsers children k) =
      if k ≤ parentUsers then parentUsers.toNat else 0 := by
  have hbound := parentUsers.toNat_lt
  have hkpos : 1 ≤ k.toNat := UInt64.le_iff_toNat_le.mp hk
  unfold suppress
  dsimp only
  generalize hhidden : children.filter (fun c => decide (c.users < k)) = hidden
  generalize hsorted : (children.filter fun c => !decide (c.users < k)).insertionSort
    (fun a b => a.users ≤ b.users) = visible
  have hperm : (hidden ++ visible).Perm children := by
    rw [← hhidden, ← hsorted]
    exact ((List.perm_insertionSort _ _).append_left _).trans (List.filter_append_perm _ _)
  have hvisible : ∀ c ∈ visible, k ≤ c.users := by
    intro c hc
    rw [← hsorted, List.mem_insertionSort] at hc
    simpa using (List.mem_filter.mp hc).2
  have hparts : natSumBy RawCell.users hidden + natSumBy RawCell.users visible =
      parentUsers.toNat := by
    rw [← natSumBy_append, natSumBy_perm _ hperm, hsum]
  rw [residual_eq_zero hparts, UInt64.add_zero, releasedUsers_append, releasedUsers_map_toVisible]
  have hleft := natSumBy_eq_zero_or_ge fun c hc =>
    hvisible c ((pull_sublist k visible hidden (sumBy RawCell.users hidden)).subset hc)
  generalize hpull : pull k visible hidden (sumBy RawCell.users hidden) = r at hleft ⊢
  obtain ⟨hconserved, ⟨hnonempty, hge⟩ | ⟨hlt, hzero⟩⟩ :=
    pull_outcome hk (by omega) hpull
  · have hge' := UInt64.le_iff_toNat_le.mp hge
    rw [if_pos ⟨hnonempty, hge⟩, if_pos (UInt64.le_iff_toNat_le.mpr (by omega))]
    simp only [releasedUsers, List.map_cons, List.map_nil, List.sum_cons, List.sum_nil,
      ResultCell.users]
    omega
  · rw [if_neg fun h => absurd (UInt64.le_iff_toNat_le.mp h.2) (by omega),
      show releasedUsers [] = 0 from rfl]
    split_ifs with hk
    · have := UInt64.le_iff_toNat_le.mp hk
      omega
    · have := mt UInt64.le_iff_toNat_le.mpr hk
      omega

end HushEngine
