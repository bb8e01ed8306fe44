import HushEngine.Privacy
import HushEngine.SortedCut

/-!
What `suppress` releases. The pulling loop is determined by the sizes of the
visible children in ascending order: it takes a prefix of them, until the
hidden mass is zero or reaches the threshold. Without wrapping sums the hidden
mass is what the larger of parent and children has beyond the visible rows.
-/
namespace HushEngine

open SortedCut

/-- The loop's condition, in natural numbers. -/
theorem between_iff {m k : UInt64} : 0 < m ∧ m < k ↔ 0 < m.toNat ∧ m.toNat < k.toNat := by
  rw [UInt64.lt_iff_toNat_lt, UInt64.lt_iff_toNat_lt, UInt64.toNat_zero]

/-- The hidden mass after the loop has pulled the first `i` sizes. -/
def massAfter (effective : UInt64) (sizes : List UInt64) (i : Nat) : UInt64 :=
  (sizes.take i).foldl (· + ·) effective

/-- The loop pulls `n` of the sizes: the mass is between zero and the threshold until then. -/
structure StopsAt (k effective : UInt64) (sizes : List UInt64) (n : Nat) : Prop where
  le : n ≤ sizes.length
  before : ∀ i < n, 0 < massAfter effective sizes i ∧ massAfter effective sizes i < k
  stop : n < sizes.length →
    ¬ (0 < massAfter effective sizes n ∧ massAfter effective sizes n < k)

theorem StopsAt.unique {k effective : UInt64} {sizes : List UInt64} {n m : Nat}
    (hn : StopsAt k effective sizes n) (hm : StopsAt k effective sizes m) : n = m := by
  rcases Nat.lt_trichotomy n m with hlt | heq | hgt
  · exact absurd (hm.before n hlt) (hn.stop (hlt.trans_le hm.le))
  · exact heq
  · exact absurd (hn.before m hgt) (hm.stop (hgt.trans_le hn.le))

theorem StopsAt.cons {k effective u : UInt64} {sizes : List UInt64} {n : Nat}
    (hcond : 0 < effective ∧ effective < k) (h : StopsAt k (effective + u) sizes n) :
    StopsAt k effective (u :: sizes) (n + 1) where
  le := Nat.succ_le_succ h.le
  before i hi := by
    cases i with
    | zero => exact hcond
    | succ i => exact h.before i (by omega)
  stop hlt := h.stop (Nat.lt_of_succ_lt_succ hlt)

/-- The pulling loop moves a prefix of the visible children. -/
theorem pull_eq (k : UInt64) (visible hidden : List RawCell) (effective : UInt64) :
    ∃ n, StopsAt k effective (visible.map RawCell.users) n ∧
      pull k visible hidden effective = (visible.drop n, hidden ++ visible.take n,
        massAfter effective (visible.map RawCell.users) n) := by
  induction visible generalizing hidden effective with
  | nil => exact ⟨0, ⟨le_rfl, by simp, by simp⟩, by simp [pull, massAfter]⟩
  | cons c visible ih =>
    rw [pull]
    split_ifs with hcond
    · obtain ⟨n, hstops, heq⟩ := ih (hidden ++ [c]) (effective + c.users)
      refine ⟨n + 1, hstops.cons hcond, ?_⟩
      rw [heq]
      simp [massAfter]
    · exact ⟨0, ⟨Nat.zero_le _, by simp, fun _ => hcond⟩, by simp [massAfter]⟩

/-- The children below the threshold. -/
def belowThreshold (k : UInt64) (children : List RawCell) : List RawCell :=
  children.filter fun c => decide (c.users < k)

/-- The other children, smallest first. -/
def smallestFirst (k : UInt64) (children : List RawCell) : List RawCell :=
  (children.filter fun c => !decide (c.users < k)).insertionSort fun a b => a.users ≤ b.users

/-- What the loop starts from: the users below the threshold and the residual of the parent. -/
def hiddenMass (parentUsers k : UInt64) (children : List RawCell) : UInt64 :=
  sumBy RawCell.users (belowThreshold k children) +
    saturatingSub parentUsers (sumBy RawCell.users children)

theorem sumBy_append (column : RawCell → UInt64) (cs ds : List RawCell) :
    sumBy column (cs ++ ds) = sumBy column cs + sumBy column ds := by
  induction cs with
  | nil => simp [sumBy]
  | cons c cs ih => rw [List.cons_append, sumBy, sumBy, ih, UInt64.add_assoc]

/-- A wrapping sum does not depend on the order either. -/
theorem sumBy_perm (column : RawCell → UInt64) {cs ds : List RawCell} (h : cs.Perm ds) :
    sumBy column cs = sumBy column ds := by
  induction h with
  | nil => rfl
  | cons c _ ih => rw [sumBy, sumBy, ih]
  | swap c d cs =>
    rw [sumBy, sumBy, sumBy, sumBy, ← UInt64.add_assoc, ← UInt64.add_assoc,
      UInt64.add_comm (column d)]
  | trans _ _ ih ih' => exact ih.trans ih'

theorem perm_parts (k : UInt64) (children : List RawCell) :
    (belowThreshold k children ++ smallestFirst k children).Perm children :=
  ((List.perm_insertionSort _ _).append_left _).trans (List.filter_append_perm _ _)

instance : Std.Total fun a b : RawCell => a.users ≤ b.users := ⟨fun _ _ => UInt64.le_total ..⟩

instance : IsTrans RawCell fun a b => a.users ≤ b.users := ⟨fun _ _ _ => UInt64.le_trans⟩

theorem sortedBy_smallestFirst (k : UInt64) (children : List RawCell) :
    SortedBy (fun c : RawCell => c.users.toNat) (smallestFirst k children) :=
  List.pairwise_insertionSort (fun a b : RawCell => a.users ≤ b.users) _

theorem le_of_mem_smallestFirst {k : UInt64} {children : List RawCell} {c : RawCell}
    (hc : c ∈ smallestFirst k children) : k ≤ c.users := by
  rw [smallestFirst, List.mem_insertionSort] at hc
  simpa using (List.mem_filter.mp hc).2

theorem sum_parts (k : UInt64) (children : List RawCell) :
    sumBy RawCell.users (smallestFirst k children) +
        sumBy RawCell.users (belowThreshold k children) = sumBy RawCell.users children := by
  rw [UInt64.add_comm, ← sumBy_append, sumBy_perm _ (perm_parts k children)]

/-- The residual is zero when the children account for the parent. -/
theorem residual_eq_zero_of_le {parentUsers : UInt64} {children : List RawCell}
    (hfits : natSumBy RawCell.users children < 2 ^ 64)
    (hle : parentUsers.toNat ≤ natSumBy RawCell.users children) (k : UInt64) :
    saturatingSub parentUsers (sumBy RawCell.users (smallestFirst k children) +
      sumBy RawCell.users (belowThreshold k children)) = 0 := by
  have hall := toNat_sumBy RawCell.users children hfits
  rw [sum_parts, saturatingSub]
  split_ifs with h
  · have h' := UInt64.le_iff_toNat_le.mp h
    apply UInt64.toNat_inj.mp
    rw [UInt64.toNat_sub_of_le _ _ h, UInt64.toNat_zero]
    omega
  · rfl

/-- The response, by how many of the visible children the loop has pulled. -/
theorem suppress_eq (parentUsers k : UInt64) (children : List RawCell) :
    ∃ n, StopsAt k (hiddenMass parentUsers k children)
        ((smallestFirst k children).map RawCell.users) n ∧
      suppress parentUsers children k =
        ((smallestFirst k children).drop n).map RawCell.toVisible ++
          if belowThreshold k children ++ (smallestFirst k children).take n ≠ [] ∧
              massAfter (hiddenMass parentUsers k children)
                ((smallestFirst k children).map RawCell.users) n ≥ k then
            [.other (sumBy RawCell.events
                (belowThreshold k children ++ (smallestFirst k children).take n))
              (massAfter (hiddenMass parentUsers k children)
                ((smallestFirst k children).map RawCell.users) n)]
          else [] := by
  have hmass : sumBy RawCell.users (belowThreshold k children) + saturatingSub parentUsers
      (sumBy RawCell.users (smallestFirst k children) +
        sumBy RawCell.users (belowThreshold k children)) = hiddenMass parentUsers k children := by
    rw [hiddenMass, sum_parts]
  obtain ⟨n, hstops, heq⟩ := pull_eq k (smallestFirst k children) (belowThreshold k children)
    (hiddenMass parentUsers k children)
  refine ⟨n, hstops, ?_⟩
  have hdef : suppress parentUsers children k =
      let r := pull k (smallestFirst k children) (belowThreshold k children)
        (sumBy RawCell.users (belowThreshold k children) + saturatingSub parentUsers
          (sumBy RawCell.users (smallestFirst k children) +
            sumBy RawCell.users (belowThreshold k children)))
      r.1.map RawCell.toVisible ++
        if r.2.1 ≠ [] ∧ r.2.2 ≥ k then [.other (sumBy RawCell.events r.2.1) r.2.2] else [] := rfl
  rw [hdef, hmass, heq]

section Minimal

variable {parentUsers k : UInt64} {children : List RawCell}

theorem massAfter_map (effective : UInt64) (cs : List RawCell) (i : Nat) :
    massAfter effective (cs.map RawCell.users) i =
      effective + sumBy RawCell.users (cs.take i) := by
  rw [massAfter, ← List.map_take]
  generalize cs.take i = ds
  induction ds generalizing effective with
  | nil => simp [sumBy]
  | cons d ds ih => rw [List.map_cons, List.foldl_cons, ih, sumBy, UInt64.add_assoc]

/-- Without wrapping, what is hidden at the start is what the larger of parent and children has
beyond the visible children. -/
theorem toNat_hiddenMass (parentUsers k : UInt64) {children : List RawCell}
    (h : natSumBy RawCell.users children < 2 ^ 64) :
    (hiddenMass parentUsers k children).toNat +
        natSumBy RawCell.users (smallestFirst k children) =
      max parentUsers.toNat (natSumBy RawCell.users children) := by
  have hparts := natSumBy_perm RawCell.users (perm_parts k children)
  rw [natSumBy_append] at hparts
  have hparent := parentUsers.toNat_lt
  have hall := toNat_sumBy RawCell.users children h
  have hbelow := toNat_sumBy RawCell.users (belowThreshold k children) (by omega)
  rw [hiddenMass, UInt64.toNat_add, saturatingSub]
  split_ifs with hle
  · have hle' := UInt64.le_iff_toNat_le.mp hle
    rw [UInt64.toNat_sub_of_le _ _ hle]
    omega
  · have hlt := UInt64.lt_iff_toNat_lt.mp (UInt64.not_le.mp hle)
    rw [UInt64.toNat_zero]
    omega

/-- The hidden mass after some pulls is what lies beyond the children still visible. -/
theorem toNat_massAfter (parentUsers k : UInt64) {children : List RawCell}
    (h : natSumBy RawCell.users children < 2 ^ 64) (i : Nat) :
    (massAfter (hiddenMass parentUsers k children)
        ((smallestFirst k children).map RawCell.users) i).toNat +
      natSumBy RawCell.users ((smallestFirst k children).drop i) =
    max parentUsers.toNat (natSumBy RawCell.users children) := by
  have hmass := toNat_hiddenMass parentUsers k h
  have hsplit : natSumBy RawCell.users ((smallestFirst k children).take i) +
      natSumBy RawCell.users ((smallestFirst k children).drop i) =
      natSumBy RawCell.users (smallestFirst k children) := by
    rw [← natSumBy_append, List.take_append_drop]
  have hparent := parentUsers.toNat_lt
  rw [massAfter_map, UInt64.toNat_add, toNat_sumBy _ _ (by omega)]
  omega

/-- Without the last child it pulled, the loop would have been between zero and the threshold. -/
theorem lastPulled_needed (h : natSumBy RawCell.users children < 2 ^ 64) {n : Nat}
    (hstops : StopsAt k (hiddenMass parentUsers k children)
      ((smallestFirst k children).map RawCell.users) n) {c : RawCell}
    (hc : ((smallestFirst k children).take n).getLast? = some c) :
    0 < max parentUsers.toNat (natSumBy RawCell.users children) -
        (natSumBy RawCell.users ((smallestFirst k children).drop n) + c.users.toNat) ∧
      max parentUsers.toNat (natSumBy RawCell.users children) -
        (natSumBy RawCell.users ((smallestFirst k children).drop n) + c.users.toNat) <
        k.toNat := by
  have hlen : n ≤ (smallestFirst k children).length := by simpa using hstops.le
  cases n with
  | zero => simp at hc
  | succ n =>
    have hlast : (smallestFirst k children)[n] = c := by
      rw [List.take_succ_eq_append_getElem (by omega), List.getLast?_concat] at hc
      exact Option.some.inj hc
    have hdrop : (smallestFirst k children).drop n =
        c :: (smallestFirst k children).drop (n + 1) := by
      rw [List.drop_eq_getElem_cons (by omega), hlast]
    obtain ⟨hpos, hlt⟩ := between_iff.mp (hstops.before n (Nat.lt_succ_self n))
    have hmass := toNat_massAfter parentUsers k h n
    rw [hdrop, natSumBy_cons] at hmass
    omega

end Minimal

/-- The response shows the largest children as they are and merges the others, as few as
possible, whenever what lies beyond the shown ones reaches the threshold. -/
theorem suppress_minimal (parentUsers k : UInt64) (children : List RawCell)
    (husers : natSumBy RawCell.users children < 2 ^ 64)
    (hevents : natSumBy RawCell.events children < 2 ^ 64) :
    ∃ (below pulled shown : List RawCell) (others : List ResultCell) (beyond : Nat),
      suppress parentUsers children k = shown.map RawCell.toVisible ++ others ∧
      (below ++ pulled ++ shown).Perm children ∧
      (∀ c ∈ below, c.users < k) ∧ (∀ c ∈ pulled ++ shown, k ≤ c.users) ∧
      shown.Pairwise (fun c d => c.users ≤ d.users) ∧
      beyond = max parentUsers.toNat (natSumBy RawCell.users children) -
        natSumBy RawCell.users shown ∧
      (shown = [] ∨ beyond = 0 ∨ k.toNat ≤ beyond) ∧
      (below ++ pulled ≠ [] ∧ k.toNat ≤ beyond → ∃ events users : UInt64,
        others = [.other events users] ∧ users.toNat = beyond ∧
        events.toNat = natSumBy RawCell.events (below ++ pulled)) ∧
      (¬ (below ++ pulled ≠ [] ∧ k.toNat ≤ beyond) → others = []) ∧
      (∀ c ∈ pulled, ∀ d ∈ shown, c.users ≤ d.users) ∧
      ∀ c, pulled.getLast? = some c →
        0 < max parentUsers.toNat (natSumBy RawCell.users children) -
            (natSumBy RawCell.users shown + c.users.toNat) ∧
          max parentUsers.toNat (natSumBy RawCell.users children) -
            (natSumBy RawCell.users shown + c.users.toNat) < k.toNat := by
  obtain ⟨n, hstops, heq⟩ := suppress_eq parentUsers k children
  have hmass := toNat_massAfter parentUsers k husers n
  have hlast := fun c hc => lastPulled_needed (c := c) husers hstops hc
  have hsorted := sortedBy_smallestFirst k children
  have hstop := hstops.stop
  rw [List.length_map] at hstop
  have hperm : ((belowThreshold k children ++ (smallestFirst k children).take n) ++
      (smallestFirst k children).drop n).Perm children := by
    rw [List.append_assoc, List.take_append_drop]
    exact perm_parts k children
  generalize massAfter (hiddenMass parentUsers k children)
    ((smallestFirst k children).map RawCell.users) n = mass at heq hmass hstop
  refine ⟨belowThreshold k children, (smallestFirst k children).take n,
    (smallestFirst k children).drop n, _, mass.toNat, heq, hperm, ?_, ?_, ?_, by omega, ?_, ?_, ?_,
    ?_, hlast⟩
  · intro c hc
    simpa using (List.mem_filter.mp hc).2
  · rw [List.take_append_drop]
    exact fun c hc => le_of_mem_smallestFirst hc
  · exact (hsorted.imp UInt64.le_iff_toNat_le.mpr).drop
  · rcases Nat.lt_or_ge n (smallestFirst k children).length with hlt | hge
    · right
      by_contra hneither
      obtain ⟨hne, hnle⟩ := not_or.mp hneither
      exact hstop hlt (between_iff.mpr ⟨by omega, by omega⟩)
    · exact Or.inl (List.drop_eq_nil_of_le hge)
  · intro hcond
    rw [if_pos ⟨hcond.1, UInt64.le_iff_toNat_le.mpr hcond.2⟩]
    refine ⟨_, _, rfl, rfl, toNat_sumBy _ _ ?_⟩
    have hsplit := natSumBy_perm RawCell.events hperm
    rw [natSumBy_append] at hsplit
    omega
  · intro hcond
    rw [if_neg fun h => hcond ⟨h.1, UInt64.le_iff_toNat_le.mp h.2⟩]
  · have hpairs := hsorted
    rw [← List.take_append_drop n (smallestFirst k children)] at hpairs
    intro c hc d hd
    exact UInt64.le_iff_toNat_le.mpr ((List.pairwise_append.mp hpairs).2.2 c hc d hd)

/-- A child below the threshold takes the smallest visible one with it. -/
def oneSmallChild : List RawCell :=
  [⟨"f", "b", 0, 30, 12⟩, ⟨"f", "a", 0, 9, 5⟩, ⟨"f", "c", 0, 50, 23⟩]

theorem suppress_minimal_oneSmallChild :
    suppress 40 oneSmallChild 10 = [.visible "f" "c" 0 50 23, .other 39 17] ∧
      ∃ (below pulled shown : List RawCell) (others : List ResultCell),
        suppress 40 oneSmallChild 10 = shown.map RawCell.toVisible ++ others ∧
        (below ++ pulled ++ shown).Perm oneSmallChild ∧
        ∀ c ∈ pulled, ∀ d ∈ shown, c.users ≤ d.users := by
  refine ⟨by decide, ?_⟩
  obtain ⟨below, pulled, shown, others, _, heq, hperm, _, _, _, _, _, _, _, hle, _⟩ :=
    suppress_minimal 40 10 oneSmallChild (by decide) (by decide)
  exact ⟨below, pulled, shown, others, heq, hperm, hle⟩

section Order

/-- The sizes of the visible children, in ascending order. -/
def sizes (k : UInt64) (children : List RawCell) : List UInt64 :=
  ((children.map RawCell.users).filter fun u => !decide (u < k)).insertionSort (· ≤ ·)

/-- The loop stops between two different children of one size. -/
def CutsTie (parentUsers k : UInt64) (children : List RawCell) : Prop :=
  ∃ n u, StopsAt k (hiddenMass parentUsers k children) (sizes k children) (n + 1) ∧
    (sizes k children)[n]? = some u ∧ (sizes k children)[n + 1]? = some u ∧
    ∃ a ∈ children, ∃ b ∈ children, a.users = u ∧ b.users = u ∧ a ≠ b

variable {parentUsers k : UInt64} {children children' : List RawCell}

theorem map_users_smallestFirst (k : UInt64) (children : List RawCell) :
    (smallestFirst k children).map RawCell.users = sizes k children := by
  rw [smallestFirst, sizes, List.map_insertionSort _ (· ≤ ·) RawCell.users _
    (fun _ _ _ _ => Iff.rfl), List.filter_map]
  rfl

theorem sizes_perm (k : UInt64) (h : children'.Perm children) :
    sizes k children' = sizes k children := by
  refine List.Perm.eq_of_pairwise' (r := (· ≤ ·)) (List.pairwise_insertionSort _ _)
    (List.pairwise_insertionSort _ _) ?_
  exact (List.perm_insertionSort _ _).trans
    (((h.map _).filter _).trans (List.perm_insertionSort _ _).symm)

theorem hiddenMass_perm (parentUsers k : UInt64) (h : children'.Perm children) :
    hiddenMass parentUsers k children' = hiddenMass parentUsers k children := by
  have hbelow : (belowThreshold k children').Perm (belowThreshold k children) := h.filter _
  rw [hiddenMass, hiddenMass, sumBy_perm _ h, sumBy_perm _ hbelow]

/-- How many children are pulled does not depend on their order, only which of one size are. -/
theorem suppress_eq_of_stopsAt {n : Nat}
    (hstops : StopsAt k (hiddenMass parentUsers k children) (sizes k children) n)
    (hperm : children'.Perm children) :
    suppress parentUsers children' k =
      ((smallestFirst k children').drop n).map RawCell.toVisible ++
        if belowThreshold k children' ++ (smallestFirst k children').take n ≠ [] ∧
            massAfter (hiddenMass parentUsers k children) (sizes k children) n ≥ k then
          [.other (sumBy RawCell.events
              (belowThreshold k children' ++ (smallestFirst k children').take n))
            (massAfter (hiddenMass parentUsers k children) (sizes k children) n)]
        else [] := by
  obtain ⟨m, hm, heq⟩ := suppress_eq parentUsers k children'
  rw [map_users_smallestFirst, hiddenMass_perm _ _ hperm, sizes_perm _ hperm] at hm heq
  rw [heq, hm.unique hstops]

/-- The child a released row shows, if it shows one. -/
def ResultCell.child? : ResultCell → Option RawCell
  | visible family wiki ns events users => some ⟨family, wiki, ns, events, users⟩
  | other _ _ => none

/-- The visible rows of the response. -/
theorem filterMap_child_suppress {n : Nat}
    (hstops : StopsAt k (hiddenMass parentUsers k children) (sizes k children) n)
    (hperm : children'.Perm children) :
    (suppress parentUsers children' k).filterMap ResultCell.child? =
      (smallestFirst k children').drop n := by
  rw [suppress_eq_of_stopsAt hstops hperm, List.filterMap_append, List.filterMap_map]
  have hnone : ∀ (p : Prop) [Decidable p] (events users : UInt64),
      (if p then [ResultCell.other events users] else []).filterMap ResultCell.child? = [] := by
    intro p _ events users
    split_ifs <;> rfl
  rw [hnone, List.append_nil]
  exact List.filterMap_some

theorem suppress_perm_of_drop_perm {n : Nat}
    (hstops : StopsAt k (hiddenMass parentUsers k children) (sizes k children) n)
    (hperm : children'.Perm children)
    (hdrop : ((smallestFirst k children').drop n).Perm ((smallestFirst k children).drop n)) :
    (suppress parentUsers children' k).Perm (suppress parentUsers children k) := by
  have hsplit : ∀ cs : List RawCell, ((belowThreshold k cs ++ (smallestFirst k cs).take n) ++
      (smallestFirst k cs).drop n).Perm cs := by
    intro cs
    rw [List.append_assoc, List.take_append_drop]
    exact perm_parts k cs
  have hhidden : (belowThreshold k children' ++ (smallestFirst k children').take n).Perm
      (belowThreshold k children ++ (smallestFirst k children).take n) := by
    have hall := (hsplit children').trans (hperm.trans (hsplit children).symm)
    exact (List.perm_append_right_iff _).mp (hall.trans (hdrop.symm.append_left _))
  rw [suppress_eq_of_stopsAt hstops hperm, suppress_eq_of_stopsAt hstops (.refl _),
    sumBy_perm _ hhidden]
  have hnil : belowThreshold k children' ++ (smallestFirst k children').take n ≠ [] ↔
      belowThreshold k children ++ (smallestFirst k children).take n ≠ [] := by
    rw [ne_eq, ne_eq, ← List.length_eq_zero_iff, ← List.length_eq_zero_iff, hhidden.length_eq]
  simp only [hnil]
  exact (hdrop.map _).append_right _

theorem map_toNat_smallestFirst (k : UInt64) (children : List RawCell) (n : Nat) :
    ((smallestFirst k children).map fun c => c.users.toNat)[n]? =
      ((sizes k children)[n]?).map UInt64.toNat := by
  rw [← map_users_smallestFirst, List.getElem?_map, List.getElem?_map, Option.map_map]
  rfl

theorem smallestFirst_perm (k : UInt64) (h : children'.Perm children) :
    (smallestFirst k children').Perm (smallestFirst k children) :=
  (List.perm_insertionSort _ _).trans
    ((h.filter _).trans (List.perm_insertionSort _ _).symm)

theorem drop_perm_of_not_cutsTie (h : ¬ CutsTie parentUsers k children) {n : Nat}
    (hstops : StopsAt k (hiddenMass parentUsers k children) (sizes k children) n)
    (hperm : children'.Perm children) :
    ((smallestFirst k children').drop n).Perm ((smallestFirst k children).drop n) := by
  cases n with
  | zero => exact smallestFirst_perm k hperm
  | succ n =>
    refine (perm_drop_of_untied (smallestFirst_perm k hperm).symm (sortedBy_smallestFirst k _)
      (sortedBy_smallestFirst k _) fun u hleft hright a ha b hb hkeya hkeyb => ?_).symm
    by_contra hne
    have hmem : ∀ c ∈ smallestFirst k children, c ∈ children := fun c hc =>
      (perm_parts k children).subset (List.mem_append_right _ hc)
    rw [map_toNat_smallestFirst, Option.map_eq_some_iff] at hleft hright
    obtain ⟨v, hv, rfl⟩ := hleft
    obtain ⟨v', hv', heq⟩ := hright
    rw [UInt64.toNat_inj.mp heq] at hv'
    exact h ⟨n, v, hstops, hv, hv', a, hmem a ha, b, hmem b hb, UInt64.toNat_inj.mp hkeya,
      UInt64.toNat_inj.mp hkeyb, hne⟩

/-- An ordering of the children whose visible ones come sorted already. -/
theorem exists_children_of_sorted {l : List RawCell}
    (hperm : l.Perm (smallestFirst k children))
    (hsorted : SortedBy (fun c : RawCell => c.users.toNat) l) :
    (belowThreshold k children ++ l).Perm children ∧
      smallestFirst k (belowThreshold k children ++ l) = l := by
  refine ⟨(hperm.append_left _).trans (perm_parts k children), ?_⟩
  have hbelow : (belowThreshold k children).filter (fun c => !decide (c.users < k)) = [] := by
    apply List.filter_eq_nil_iff.mpr
    intro c hc
    simpa using (List.mem_filter.mp hc).2
  have hvisible : l.filter (fun c => !decide (c.users < k)) = l := by
    apply List.filter_eq_self.mpr
    intro c hc
    simpa using le_of_mem_smallestFirst (hperm.subset hc)
  rw [smallestFirst, List.filter_append, hbelow, hvisible, List.nil_append]
  exact (hsorted.imp UInt64.le_iff_toNat_le.mpr).insertionSort_eq

/-- The response depends on the order of the children exactly when the loop stops between two
different children of one size. -/
theorem suppress_perm_iff (parentUsers k : UInt64) (children : List RawCell) :
    (∀ first second : List RawCell, first.Perm children → second.Perm children →
      (suppress parentUsers first k).Perm (suppress parentUsers second k)) ↔
    ¬ CutsTie parentUsers k children := by
  constructor
  · intro hsame htie
    obtain ⟨n, u, hstops, hleft, hright, a, ha, b, hb, hua, hub, hne⟩ := htie
    have hmem : ∀ c ∈ children, c.users = u → c ∈ smallestFirst k children := by
      intro c hc huc
      have hu : u ∈ sizes k children := List.mem_of_getElem? hleft
      rw [← map_users_smallestFirst] at hu
      obtain ⟨d, hd, hud⟩ := List.mem_map.mp hu
      have hle := le_of_mem_smallestFirst hd
      rw [hud, ← huc] at hle
      exact (List.mem_insertionSort _).mpr (List.mem_filter.mpr ⟨hc, by simpa using hle⟩)
    obtain ⟨l₁, l₂, hperm₁, hperm₂, hsorted₁, hsorted₂, hnot⟩ :=
      exists_drop_not_perm (sortedBy_smallestFirst k children) (n := n) (u := u.toNat)
        (by rw [map_toNat_smallestFirst, hleft]; rfl) (by rw [map_toNat_smallestFirst, hright]; rfl)
        (hmem a ha hua) (hmem b hb hub) (by rw [hua]) (by rw [hub]) hne
    obtain ⟨hfirst, heq₁⟩ := exists_children_of_sorted hperm₁ hsorted₁
    obtain ⟨hsecond, heq₂⟩ := exists_children_of_sorted hperm₂ hsorted₂
    have hchildren := (hsame _ _ hfirst hsecond).filterMap ResultCell.child?
    rw [filterMap_child_suppress hstops hfirst, filterMap_child_suppress hstops hsecond, heq₁,
      heq₂] at hchildren
    exact hnot hchildren
  · intro htie first second hfirst hsecond
    obtain ⟨n, hstops, _⟩ := suppress_eq parentUsers k children
    rw [map_users_smallestFirst] at hstops
    have hsame : ∀ cs : List RawCell, cs.Perm children →
        (suppress parentUsers cs k).Perm (suppress parentUsers children k) := fun cs hcs =>
      suppress_perm_of_drop_perm hstops hcs (drop_perm_of_not_cutsTie htie hstops hcs)
    exact (hsame first hfirst).trans (hsame second hsecond).symm

/-- Without wrapping sums one pull is enough. -/
theorem le_massAfter_one (h : natSumBy RawCell.users children < 2 ^ 64) {u : UInt64}
    (hu : (sizes k children)[0]? = some u) :
    k ≤ massAfter (hiddenMass parentUsers k children) (sizes k children) 1 := by
  have hstart := toNat_hiddenMass parentUsers k h
  have hone := toNat_massAfter parentUsers k h 1
  rw [map_users_smallestFirst] at hone
  rw [← map_users_smallestFirst, List.getElem?_map] at hu
  obtain ⟨c, hc, rfl⟩ := Option.map_eq_some_iff.mp hu
  have hle := UInt64.le_iff_toNat_le.mp (le_of_mem_smallestFirst (List.mem_of_getElem? hc))
  cases hlist : smallestFirst k children with
  | nil => simp [hlist] at hc
  | cons d ds =>
    rw [hlist] at hc hstart hone
    obtain rfl : d = c := by simpa using hc
    have hsum : natSumBy RawCell.users (d :: ds) =
        d.users.toNat + natSumBy RawCell.users ds := by simp [natSumBy]
    rw [List.drop_one, List.tail_cons] at hone
    exact UInt64.le_iff_toNat_le.mpr (by omega)

/-- Without wrapping sums a tie is cut only between the two smallest visible children, when the
mass hidden at the start is below the threshold. -/
theorem cutsTie_iff (h : natSumBy RawCell.users children < 2 ^ 64) :
    CutsTie parentUsers k children ↔
      (0 < hiddenMass parentUsers k children ∧ hiddenMass parentUsers k children < k) ∧
        ∃ u, (sizes k children)[0]? = some u ∧ (sizes k children)[1]? = some u ∧
          ∃ a ∈ children, ∃ b ∈ children, a.users = u ∧ b.users = u ∧ a ≠ b := by
  constructor
  · intro htie
    obtain ⟨n, u, hstops, hleft, hright, hpair⟩ := htie
    refine ⟨hstops.before 0 (Nat.succ_pos n), u, ?_⟩
    cases n with
    | zero => exact ⟨hleft, hright, hpair⟩
    | succ n =>
      obtain ⟨v, hv⟩ : ∃ v, (sizes k children)[0]? = some v :=
        ⟨_, List.getElem?_eq_getElem (Nat.lt_of_lt_of_le (Nat.succ_pos _) hstops.le)⟩
      have hlt := (hstops.before 1 (by omega)).2
      exact absurd (le_massAfter_one h hv) (UInt64.not_le.mpr hlt)
  · intro hparts
    obtain ⟨hmass, u, hleft, hright, hpair⟩ := hparts
    refine ⟨0, u, ⟨?_, ?_, ?_⟩, hleft, hright, hpair⟩
    · obtain ⟨hlen, _⟩ := List.getElem?_eq_some_iff.mp hleft
      exact hlen
    · intro i hi
      obtain rfl : i = 0 := by omega
      exact hmass
    · intro _ hbetween
      exact absurd (le_massAfter_one h hleft) (UInt64.not_le.mpr hbetween.2)

/-- Two children of ten users and one of five, which takes one of the others with it. -/
def equalChildren : List RawCell :=
  [⟨"f", "a", 0, 20, 10⟩, ⟨"f", "b", 0, 30, 10⟩, ⟨"f", "c", 0, 5, 5⟩]

/-- In one order the first is shown, in the other the second; both responses together give away
the hidden one. -/
theorem suppress_order_equalChildren :
    equalChildren.reverse.Perm equalChildren ∧
      suppress 25 equalChildren 10 = [.visible "f" "b" 0 30 10, .other 25 15] ∧
      suppress 25 equalChildren.reverse 10 = [.visible "f" "a" 0 20 10, .other 35 15] ∧
      ¬ ∀ first second : List RawCell, first.Perm equalChildren → second.Perm equalChildren →
        (suppress 25 first 10).Perm (suppress 25 second 10) := by
  have hreverse : equalChildren.reverse.Perm equalChildren := List.reverse_perm _
  refine ⟨hreverse, by decide, by decide, fun h => ?_⟩
  exact absurd (h _ _ hreverse (.refl _)) (by decide)

end Order

end HushEngine
