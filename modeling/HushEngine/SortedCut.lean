import Mathlib.Data.List.Sort

/-!
Cutting a list that is sorted by a key. The keys of such a list are determined
by its elements, so cutting at a position between two different keys leaves the
same elements behind however equal keys were ordered; cutting inside a group of
different elements with one key does not.
-/
namespace HushEngine.SortedCut

variable {α β : Type*} [LinearOrder β] (key : α → β)

/-- In ascending order of the key. -/
def SortedBy (l : List α) : Prop := l.Pairwise fun a b => key a ≤ key b

variable {key}

theorem SortedBy.map_key {l : List α} (h : SortedBy key l) : (l.map key).Pairwise (· ≤ ·) :=
  List.pairwise_map.mpr h

theorem SortedBy.map_key_eq {l l' : List α} (hl : SortedBy key l) (hl' : SortedBy key l')
    (h : l.Perm l') : l.map key = l'.map key :=
  (h.map key).eq_of_pairwise' hl.map_key hl'.map_key

/-- Up to the cut the keys are at most the key before it. -/
theorem SortedBy.key_le_of_mem_take {l : List α} (h : SortedBy key l) {n : ℕ} {u : β}
    (hu : (l.map key)[n]? = some u) {a : α} (ha : a ∈ l.take (n + 1)) : key a ≤ u := by
  obtain ⟨i, hi, rfl⟩ := List.getElem_of_mem ha
  rw [List.length_take] at hi
  obtain ⟨hn, rfl⟩ := List.getElem?_eq_some_iff.mp hu
  rw [List.length_map] at hn
  rw [List.getElem_take, List.getElem_map]
  rcases Nat.lt_or_ge i n with hlt | hge
  · exact List.pairwise_iff_getElem.mp h i n (by omega) hn hlt
  · have hin : i = n := by omega
    subst hin
    exact le_rfl

/-- From the cut on the keys are at least the key after it. -/
theorem SortedBy.le_key_of_mem_drop {l : List α} (h : SortedBy key l) {n : ℕ} {v : β}
    (hv : (l.map key)[n]? = some v) {a : α} (ha : a ∈ l.drop n) : v ≤ key a := by
  obtain ⟨i, hi, rfl⟩ := List.getElem_of_mem ha
  rw [List.length_drop] at hi
  obtain ⟨hn, rfl⟩ := List.getElem?_eq_some_iff.mp hv
  rw [List.length_map] at hn
  rw [List.getElem_drop, List.getElem_map]
  rcases Nat.eq_zero_or_pos i with hzero | hpos
  · subst hzero
    exact le_rfl
  · exact List.pairwise_iff_getElem.mp h n (n + i) hn (by omega) (by omega)

/-- At most the elements before the cut are below the key after it. -/
theorem SortedBy.length_below_le {l : List α} (hl : SortedBy key l) {n : ℕ} {v : β}
    (hv : (l.map key)[n]? = some v) : (l.filter fun c => decide (key c < v)).length ≤ n := by
  have hnone : (l.drop n).filter (fun c => decide (key c < v)) = [] := by
    apply List.filter_eq_nil_iff.mpr
    intro c hc hlt
    exact absurd (hl.le_key_of_mem_drop hv hc) (not_le.mpr (of_decide_eq_true hlt))
  rw [← List.take_append_drop n l, List.filter_append, hnone, List.append_nil]
  exact (List.length_filter_le _ _).trans (List.length_take_le _ _)

/-- At most the elements after the cut are above the key before it. -/
theorem SortedBy.length_above_le {l : List α} (hl : SortedBy key l) {n : ℕ} {u : β}
    (hu : (l.map key)[n]? = some u) :
    (l.filter fun c => decide (u < key c)).length + (n + 1) ≤ l.length := by
  have hnone : (l.take (n + 1)).filter (fun c => decide (u < key c)) = [] := by
    apply List.filter_eq_nil_iff.mpr
    intro c hc hlt
    exact absurd (hl.key_le_of_mem_take hu hc) (not_le.mpr (of_decide_eq_true hlt))
  have hn : n < l.length := by
    obtain ⟨hn, _⟩ := List.getElem?_eq_some_iff.mp hu
    rwa [List.length_map] at hn
  have hfilter : l.filter (fun c => decide (u < key c)) =
      (l.drop (n + 1)).filter fun c => decide (u < key c) := by
    conv_lhs => rw [← List.take_append_drop (n + 1) l, List.filter_append, hnone, List.nil_append]
  have hle := List.length_filter_le (fun c => decide (u < key c)) (l.drop (n + 1))
  rw [← hfilter, List.length_drop] at hle
  omega

/-- A sorted list stays sorted when a group of equal keys is put in another order. -/
theorem SortedBy.regroup {l : List α} (hl : SortedBy key l) (u : β) {G : List α}
    (hG : G.Perm (l.filter fun c => decide (key c = u))) :
    SortedBy key ((l.filter fun c => decide (key c < u)) ++
      (G ++ l.filter fun c => decide (u < key c))) := by
  have hkey : ∀ c ∈ G, key c = u := fun c hc => by
    simpa using (List.mem_filter.mp (hG.subset hc)).2
  have hgroup : SortedBy key G := List.pairwise_iff_forall_sublist.mpr fun hsub => by
    rw [hkey _ (hsub.subset (by simp)), hkey _ (hsub.subset (by simp))]
  refine List.pairwise_append.mpr ⟨hl.filter _, ?_, ?_⟩
  · refine List.pairwise_append.mpr ⟨hgroup, hl.filter _, ?_⟩
    intro c hc d hd
    have habove : u < key d := by simpa using (List.mem_filter.mp hd).2
    rw [hkey c hc]
    exact habove.le
  · intro c hc d hd
    have hbelow : key c < u := by simpa using (List.mem_filter.mp hc).2
    rcases List.mem_append.mp hd with hd | hd
    · rw [hkey d hd]
      exact hbelow.le
    · have habove : u < key d := by simpa using (List.mem_filter.mp hd).2
      exact (hbelow.trans habove).le

/-- The elements from a key on end a sorted list. -/
theorem SortedBy.filter_le_suffix {l : List α} (hl : SortedBy key l) (v : β) :
    (l.filter fun c => decide (v ≤ key c)) <:+ l := by
  induction l with
  | nil => exact List.suffix_refl []
  | cons c l ih =>
    obtain ⟨hc, hl⟩ := List.pairwise_cons.mp hl
    by_cases hv : v ≤ key c
    · have hall : (c :: l).filter (fun d => decide (v ≤ key d)) = c :: l := by
        apply List.filter_eq_self.mpr
        intro d hd
        rcases List.mem_cons.mp hd with rfl | hd
        · exact decide_eq_true hv
        · exact decide_eq_true (hv.trans (hc d hd))
      exact hall.symm ▸ List.suffix_refl (c :: l)
    · rw [List.filter_cons_of_neg (by simpa using hv)]
      exact (ih hl).trans (List.suffix_cons c l)

section InsertionSort

variable {r : α → α → Prop} [DecidableRel r] [IsTrans α r]

theorem filter_orderedInsert (p : α → Bool) (a : α) {l : List α} (hl : l.Pairwise r) :
    (l.orderedInsert r a).filter p =
      if p a then (l.filter p).orderedInsert r a else l.filter p := by
  induction l with
  | nil => cases hp : p a <;> simp [hp]
  | cons b l ih =>
    obtain ⟨hb, hl⟩ := List.pairwise_cons.mp hl
    by_cases hab : r a b
    · -- everything that stays comes after `a`
      have hall : ∀ d ∈ (b :: l).filter p, r a d := by
        intro d hd
        rcases List.mem_cons.mp (List.mem_of_mem_filter hd) with rfl | hd
        · exact hab
        · exact IsTrans.trans _ _ _ hab (hb d hd)
      rw [List.orderedInsert_cons_of_le _ _ hab, List.filter_cons]
      split_ifs
      · cases hrest : (b :: l).filter p with
        | nil => rfl
        | cons d ds =>
          rw [List.orderedInsert_cons_of_le]
          exact hall d (by rw [hrest]; exact List.mem_cons_self ..)
      · rfl
    · rw [List.orderedInsert_of_not_le (h := hab), List.filter_cons, ih hl, List.filter_cons]
      split_ifs
      · rw [List.orderedInsert_of_not_le (h := hab)]
      · rfl
      · rfl
      · rfl

/-- Insertion sort is stable: what is selected before or after sorting comes in the same order. -/
theorem filter_insertionSort [Std.Total r] (p : α → Bool) (l : List α) :
    (l.insertionSort r).filter p = (l.filter p).insertionSort r := by
  induction l with
  | nil => rfl
  | cons a l ih =>
    rw [List.insertionSort_cons, filter_orderedInsert p a (List.pairwise_insertionSort r l), ih,
      List.filter_cons]
    split_ifs <;> rfl

end InsertionSort

variable [DecidableEq α]

/-- Where an element is the only one of its key, its copies are counted by the keys. -/
theorem count_eq_count_key {l m : List α} {a : α} (hsub : m ⊆ l)
    (honly : ∀ b ∈ l, key b = key a → b = a) : m.count a = (m.map key).count (key a) := by
  rw [List.count, List.count, List.countP_map]
  apply List.countP_congr
  intro b hb
  simp only [Function.comp_apply, beq_iff_eq]
  exact ⟨fun h => by rw [h], honly b (hsub hb)⟩

/-- The elements after the cut do not depend on the order of equal keys, unless the cut
separates different elements of one key. -/
theorem perm_drop_of_untied {l l' : List α} (hperm : l.Perm l') (hl : SortedBy key l)
    (hl' : SortedBy key l') {n : ℕ}
    (huntied : ∀ u, (l.map key)[n]? = some u → (l.map key)[n + 1]? = some u →
      ∀ a ∈ l, ∀ b ∈ l, key a = u → key b = u → a = b) :
    (l.drop (n + 1)).Perm (l'.drop (n + 1)) := by
  have hkeys := hl.map_key_eq hl' hperm
  rcases Nat.lt_or_ge (n + 1) l.length with hlt | hge
  · have hn : n < l.length := by omega
    have hu : (l.map key)[n]? = some (key l[n]) := by simp [hn]
    have hv : (l.map key)[n + 1]? = some (key l[n + 1]) := by simp [hlt]
    have huv : key l[n] ≤ key l[n + 1] := List.pairwise_iff_getElem.mp hl n _ hn hlt (by omega)
    rw [List.perm_iff_count]
    intro c
    by_cases hbelow : key c < key l[n + 1]
    · have hnot : ∀ m : List α, SortedBy key m → m.map key = l.map key →
          (m.drop (n + 1)).count c = 0 := fun m hm heq => List.count_eq_zero.mpr fun hc =>
        absurd (hm.le_key_of_mem_drop (by rw [heq]; exact hv) hc) (not_le.mpr hbelow)
      rw [hnot l hl rfl, hnot l' hl' hkeys.symm]
    by_cases habove : key l[n] < key c
    · have hall : ∀ m : List α, SortedBy key m → m.map key = l.map key →
          (m.drop (n + 1)).count c = m.count c := by
        intro m hm heq
        have hzero : (m.take (n + 1)).count c = 0 := List.count_eq_zero.mpr fun hc =>
          absurd (hm.key_le_of_mem_take (by rw [heq]; exact hu) hc) (not_le.mpr habove)
        conv_rhs => rw [← List.take_append_drop (n + 1) m]
        rw [List.count_append, hzero, Nat.zero_add]
      rw [hall l hl rfl, hall l' hl' hkeys.symm, hperm.count_eq]
    · -- the keys on both sides of the cut are the key of `c`
      have hleft : key c = key l[n] :=
        le_antisymm (not_lt.mp habove) (huv.trans (not_lt.mp hbelow))
      have hright : key l[n + 1] = key l[n] :=
        le_antisymm (by rw [← hleft]; exact not_lt.mp hbelow) huv
      by_cases hc : c ∈ l
      · have honly : ∀ b ∈ l, key b = key c → b = c := fun b hb heq =>
          huntied _ hu (by rw [hv, hright]) b hb c hc (by rw [heq, hleft]) hleft
        rw [count_eq_count_key (List.drop_subset _ _) honly,
          count_eq_count_key (fun b hb => hperm.mem_iff.mpr (List.drop_subset _ _ hb)) honly,
          List.map_drop, List.map_drop, hkeys]
      · have hc' : c ∉ l' := fun h => hc (hperm.mem_iff.mpr h)
        rw [List.count_eq_zero.mpr fun h => hc (List.drop_subset _ _ h),
          List.count_eq_zero.mpr fun h => hc' (List.drop_subset _ _ h)]
  · rw [List.drop_eq_nil_of_le hge, List.drop_eq_nil_of_le (by rw [← hperm.length_eq]; exact hge)]

/-- The elements below, at and above a key. -/
theorem perm_three_way (key : α → β) (l : List α) (u : β) {G : List α}
    (hG : G.Perm (l.filter fun c => decide (key c = u))) :
    ((l.filter fun c => decide (key c < u)) ++
      (G ++ l.filter fun c => decide (u < key c))).Perm l := by
  rw [List.perm_iff_count]
  intro c
  have hcount : ∀ p : α → Bool, (l.filter p).count c = if p c then l.count c else 0 := by
    intro p
    split_ifs with hp
    · exact List.count_filter hp
    · exact List.count_eq_zero.mpr fun h => hp (List.mem_filter.mp h).2
  rw [List.count_append, List.count_append, hG.count_eq, hcount, hcount, hcount]
  rcases lt_trichotomy (key c) u with h | h | h
  · simp [h, h.ne, h.not_gt]
  · simp [h]
  · simp [h, h.ne', h.not_gt]

/-- A sorted list in which different elements of one key stand on both sides of the cut can be
sorted in two ways that leave different elements after it. -/
theorem exists_drop_not_perm {l : List α} (hl : SortedBy key l) {n : ℕ} {u : β}
    (hu : (l.map key)[n]? = some u) (hv : (l.map key)[n + 1]? = some u) {a b : α}
    (ha : a ∈ l) (hb : b ∈ l) (hkeya : key a = u) (hkeyb : key b = u) (hne : a ≠ b) :
    ∃ l₁ l₂ : List α, l₁.Perm l ∧ l₂.Perm l ∧ SortedBy key l₁ ∧ SortedBy key l₂ ∧
      ¬ (l₁.drop (n + 1)).Perm (l₂.drop (n + 1)) := by
  have hbelow := hl.length_below_le hu
  have habove := hl.length_above_le hv
  have hlength := (perm_three_way key l u (List.Perm.refl _)).length_eq
  have hmem : a ∈ l.filter (fun c => decide (key c = u)) ∧
      b ∈ l.filter (fun c => decide (key c = u)) := by
    simp [ha, hb, hkeya, hkeyb]
  have hperm := fun G hG => perm_three_way key l u (G := G) hG
  have hsorted := fun G hG => hl.regroup u (G := G) hG
  generalize l.filter (fun c => decide (key c < u)) = X at *
  generalize l.filter (fun c => decide (u < key c)) = Y at *
  generalize l.filter (fun c => decide (key c = u)) = G at *
  have hpair : G.Perm (a :: b :: (G.erase a).erase b) :=
    (List.perm_cons_erase hmem.1).trans
      ((List.perm_cons_erase ((List.mem_erase_of_ne hne.symm).mpr hmem.2)).cons a)
  generalize (G.erase a).erase b = R at hpair
  have hgroup := hpair.length_eq
  simp only [List.length_append, List.length_cons] at hlength hgroup
  -- the group in an order that puts `c` just before the cut and `d` just after it
  obtain ⟨p, hp⟩ : ∃ p, X.length + p = n := ⟨n - X.length, by omega⟩
  have harrange : ∀ c d, G.Perm (c :: d :: R) →
      G.Perm (R.take p ++ c :: d :: R.drop p) := fun c d h =>
    h.trans ((List.perm_middle.trans ((List.perm_middle.trans
      (by rw [List.take_append_drop])).cons c)).symm)
  have hdrop : ∀ c d, (X ++ ((R.take p ++ c :: d :: R.drop p) ++ Y)).drop (n + 1) =
      d :: (R.drop p ++ Y) := by
    intro c d
    rw [show X ++ ((R.take p ++ c :: d :: R.drop p) ++ Y) =
      (X ++ R.take p ++ [c]) ++ d :: (R.drop p ++ Y) by simp]
    apply List.drop_left'
    simp only [List.length_append, List.length_take, List.length_singleton]
    omega
  have hswap : G.Perm (b :: a :: R) := hpair.trans (.swap _ _ _)
  refine ⟨_, _, hperm _ (harrange a b hpair).symm, hperm _ (harrange b a hswap).symm,
    hsorted _ (harrange a b hpair).symm, hsorted _ (harrange b a hswap).symm, ?_⟩
  rw [hdrop, hdrop]
  intro h
  have hcount := h.count_eq a
  rw [List.count_cons_of_ne hne.symm, List.count_cons_self] at hcount
  omega

end HushEngine.SortedCut
