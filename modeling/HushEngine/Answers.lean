import HushEngine.Attribution

/-!
What an answer says about people. Over the rows that a run has left, a visible
row counts the distinct users of one cell among events that were delivered, and
the merged row adds such counts up. It counts a user once for every merged cell
the user is in, so it stands for as many people as it says only when no user is
in two of them.
-/
namespace HushEngine

open Keyed Tally Fallible Grouping Runs

/-- Children that account for the parent are either shown or merged into the one other row. -/
theorem suppress_split (parentUsers k : UInt64) (children : List RawCell)
    (husers : natSumBy RawCell.users children < 2 ^ 64)
    (hevents : natSumBy RawCell.events children < 2 ^ 64)
    (hle : parentUsers.toNat ≤ natSumBy RawCell.users children) :
    ∃ merged shown, (merged ++ shown).Perm children ∧ (∀ c ∈ shown, k ≤ c.users) ∧
      (suppress parentUsers children k).filterMap ResultCell.child? = shown ∧
      ∀ events users, ResultCell.other events users ∈ suppress parentUsers children k →
        k ≤ users ∧ events.toNat = natSumBy RawCell.events merged ∧
          users.toNat = natSumBy RawCell.users merged := by
  obtain ⟨n, hstops, heq⟩ := suppress_eq parentUsers k children
  have hstops' := hstops
  rw [map_users_smallestFirst] at hstops'
  have hperm : ((belowThreshold k children ++ (smallestFirst k children).take n) ++
      (smallestFirst k children).drop n).Perm children := by
    rw [List.append_assoc, List.take_append_drop]
    exact perm_parts k children
  have hmass := toNat_massAfter parentUsers k husers n
  have hsplit := natSumBy_perm RawCell.users hperm
  have hsplit' := natSumBy_perm RawCell.events hperm
  rw [natSumBy_append] at hsplit hsplit'
  refine ⟨_, _, hperm, fun c hc => le_of_mem_smallestFirst (List.mem_of_mem_drop hc),
    filterMap_child_suppress hstops' (.refl _), fun events users hmem => ?_⟩
  rw [heq] at hmem
  rcases List.mem_append.mp hmem with hshown | hother
  · obtain ⟨c, _, hc⟩ := List.mem_map.mp hshown
    cases hc
  · split_ifs at hother with hcond
    · obtain ⟨rfl, rfl⟩ := ResultCell.other.inj (List.mem_singleton.mp hother)
      exact ⟨hcond.2, toNat_sumBy _ _ (by omega), by omega⟩
    · cases hother

theorem suppress_nil (parentUsers k : UInt64) : suppress parentUsers [] k = [] := by
  simp [suppress, pull]

/-- The users of the events that contribute to a cell. -/
def usersIn (events : Finset Event) (c : CellKey) : Finset String :=
  Tally.users CellKey.cellsForEvent Event.user events c

/-- What the rows of an answer say of a set of events. -/
structure Describes (events : Finset Event) (k : UInt64) (q : StatsQuery)
    (cells : List ResultCell) : Prop where
  visible : ∀ family wiki ns ev us, ResultCell.visible family wiki ns ev us ∈ cells →
    k ≤ us ∧ totals CellKey.cellsForEvent Event.user events ⟨q.level, family, wiki, ns⟩ =
      ⟨ev.toNat, us.toNat⟩
  other : ∀ ev us, ResultCell.other ev us ∈ cells → ∃ merged : Finset CellKey,
    (∀ c ∈ merged, c.level = q.level ∧
      ∀ ev us, ResultCell.visible c.family c.wiki c.ns ev us ∉ cells) ∧
    ev.toNat = ∑ c ∈ merged, (contributors CellKey.cellsForEvent events c).card ∧
    us.toNat = ∑ c ∈ merged, (usersIn events c).card
  threshold : q.level ≠ levelGlobal → ∀ ev us, ResultCell.other ev us ∈ cells → k ≤ us

/-- The parents that can be asked for. -/
theorem parentKey_cases {q : StatsQuery} {key : CellKey} (h : parentKey q = .ok key) :
    (q.level = levelFamily ∧ key = .global) ∨
    (q.level = levelWiki ∧ ∃ family, key = .ofFamily family) ∨
    (q.level = levelNamespace ∧ ∃ family wiki, key = .ofWiki family wiki) := by
  unfold parentKey at h
  split_ifs at h with hfamily hwiki hnamespace
  · cases h
    exact Or.inl ⟨hfamily, rfl⟩
  · split at h <;> cases h
    exact Or.inr (Or.inl ⟨hwiki, _, rfl⟩)
  · split at h <;> cases h
    exact Or.inr (Or.inr ⟨hnamespace, _, _, rfl⟩)

theorem parentKey_level {q : StatsQuery} {key : CellKey} (h : parentKey q = .ok key) :
    key.level + 1 = q.level ∧ key.level ≤ levelWiki := by
  rcases parentKey_cases h with ⟨hlevel, rfl⟩ | ⟨hlevel, family, rfl⟩ |
    ⟨hlevel, family, wiki, rfl⟩ <;> rw [hlevel] <;> exact ⟨rfl, by simp [CellKey.global,
      CellKey.ofFamily, CellKey.ofWiki, levelGlobal, levelFamily, levelWiki]⟩

/-- The clause for children looks at the window and the cell of a row. -/
theorem mem_childKeys_iff (db : Db) (x : Int) (key c : CellKey) :
    c ∈ db.childKeys x key ↔ isChildRow x key ⟨x, c, 0⟩ = true ∧ ⟨x, c⟩ ∈ db.groups := by
  rw [Db.mem_groups, Db.childKeys, List.mem_toFinset, List.mem_map]
  constructor
  · intro hc
    obtain ⟨⟨⟨start, cell, p⟩, row⟩, hr, rfl⟩ := hc
    obtain ⟨hrow, hchild⟩ := List.mem_filter.mp hr
    obtain ⟨rfl, _⟩ := GroupKey.mk.inj (group_of_mem_childRows hr)
    refine ⟨(isChildRow_congr rfl _ key).trans hchild, p, ?_⟩
    exact Option.isSome_iff_exists.mpr ⟨row, (mem_rows _ _ _).mp hrow⟩
  · intro hc
    obtain ⟨hchild, p, hp⟩ := hc
    obtain ⟨row, hrow⟩ := Option.isSome_iff_exists.mp hp
    refine ⟨(⟨x, c, p⟩, row), List.mem_filter.mpr ⟨(mem_rows _ _ _).mpr hrow, ?_⟩, rfl⟩
    exact (isChildRow_congr rfl x key).trans hchild

namespace Db

variable {db : Db} {w : Int} {s : Int → Finset Event}

/-- A row that the query for children reads comes with a row of the parent asked about. -/
theorem Tallied.isSome_parent (h : db.Tallied w s) {q : StatsQuery} {key : CellKey}
    (hparent : parentKey q = .ok key) {r : AggKey × AggRow} (hr : r ∈ db.childRows w key) :
    (db.aggCells.lookup ⟨w, key, r.1.kpartition⟩).isSome := by
  obtain ⟨hrow, hchild⟩ := List.mem_filter.mp hr
  obtain ⟨⟨start, cell, p⟩, row⟩ := r
  have hlook := (mem_rows _ _ _).mp hrow
  have hgroup := group_of_mem_childRows hr
  obtain ⟨rfl, _⟩ := GroupKey.mk.inj hgroup
  obtain ⟨e, he, hcell⟩ := h.exists_event (Option.isSome_iff_exists.mpr ⟨row, hlook⟩)
  refine (h.isSome_iff p key).mpr ⟨e, (mem_contributors _ _ _ _).mpr ⟨he, ?_⟩⟩
  rw [CellKey.mem_cellsForEvent] at hcell ⊢
  rcases parentKey_cases hparent with ⟨_, rfl⟩ | ⟨_, family, rfl⟩ | ⟨_, family, wiki, rfl⟩ <;>
    simp only [isChildRow, CellKey.global, CellKey.ofFamily, CellKey.ofWiki, levelGlobal,
      levelFamily, levelWiki, levelNamespace] at hchild hcell ⊢ <;>
    grind

/-- Where the parent has no row its children have none. -/
theorem Tallied.childRows_of_no_parent (h : db.Tallied w s) {q : StatsQuery} {key : CellKey}
    (hparent : parentKey q = .ok key) (hkey : ¬ ∃ p, (db.aggCells.lookup ⟨w, key, p⟩).isSome) :
    db.childRows w key = [] := by
  rw [List.eq_nil_iff_forall_not_mem]
  exact fun r hr => hkey ⟨_, h.isSome_parent hparent hr⟩

theorem Tallied.fetchChildren_of_no_parent (h : db.Tallied w s) {q : StatsQuery} {key : CellKey}
    (hparent : parentKey q = .ok key) (hkey : ¬ ∃ p, (db.aggCells.lookup ⟨w, key, p⟩).isSome) :
    fetchChildren db w key = .ok [] := by
  rw [fetchChildren, h.childRows_of_no_parent hparent hkey]
  rfl

section Fetched

variable {key : CellKey} (h : db.Tallied w s)
  (hkey : ∃ p, (db.aggCells.lookup ⟨w, key, p⟩).isSome) (hlevel : key.level ≤ levelWiki)
  {children : List RawCell} (hok : fetchChildren db w key = .ok children)

include h hkey hlevel hok

theorem Tallied.fetched_totals {c : RawCell} (hc : c ∈ children) :
    c.events.toNat = db.groupSum ⟨w, c.cell key⟩ AggRow.events ∧
      c.users.toNat = db.groupSum ⟨w, c.cell key⟩ AggRow.users := by
  obtain ⟨g, hg, hgc⟩ := exists_of_mem_mapM hok hc
  obtain ⟨hcell, hevents, husers⟩ := sumGroup_spec hgc key
  rw [hcell, hevents, husers, h.columnSum_group hkey hlevel hg, h.columnSum_group hkey hlevel hg]
  exact ⟨rfl, rfl⟩

end Fetched

end Db

/-- The cells that an answer shows. -/
def shownKeys (q : StatsQuery) (cells : List ResultCell) : Finset CellKey :=
  ((cells.filterMap ResultCell.child?).map fun c =>
    (⟨q.level, c.family, c.wiki, c.ns⟩ : CellKey)).toFinset

/-- The cells that a request is about: the children of the parent asked about, or the global
cell. -/
def Db.askedKeys (db : Db) (q : StatsQuery) : Finset CellKey :=
  if q.level = levelGlobal then {.global}
  else match parentKey q with
    | .ok key => db.childKeys q.window key
    | .error _ => ∅

/-- Those of them that the answer does not show. -/
def Db.hiddenKeys (db : Db) (q : StatsQuery) (cells : List ResultCell) : Finset CellKey :=
  db.askedKeys q \ shownKeys q cells

theorem level_of_mem_askedKeys {db : Db} {q : StatsQuery} {c : CellKey}
    (h : c ∈ db.askedKeys q) : c.level = q.level := by
  unfold Db.askedKeys at h
  split_ifs at h with hlevel
  · rw [Finset.mem_singleton.mp h, hlevel]
    rfl
  · split at h
    · next key hparent =>
      obtain ⟨r, hr, rfl⟩ := List.mem_map.mp (List.mem_toFinset.mp h)
      have hchild := (List.mem_filter.mp hr).2
      simp only [isChildRow, Bool.and_eq_true, decide_eq_true_eq] at hchild
      rw [hchild.1.2, (parentKey_level hparent).1]
    · cases Finset.notMem_empty _ h

/-- A hidden cell is of the level asked for, and no row of the answer shows it. -/
theorem hidden_of_mem_hiddenKeys {db : Db} {q : StatsQuery} {cells : List ResultCell}
    {c : CellKey} (h : c ∈ db.hiddenKeys q cells) : c.level = q.level ∧
      ∀ ev us, ResultCell.visible c.family c.wiki c.ns ev us ∉ cells := by
  obtain ⟨hasked, hshown⟩ := Finset.mem_sdiff.mp h
  have hlevel := level_of_mem_askedKeys hasked
  refine ⟨hlevel, fun ev us hmem => hshown ?_⟩
  refine List.mem_toFinset.mpr (List.mem_map.mpr
    ⟨⟨c.family, c.wiki, c.ns, ev, us⟩, List.mem_filterMap.mpr ⟨_, hmem, rfl⟩, ?_⟩)
  rw [← hlevel]

/-- How an exact answer to a request for children divides them: some are shown, and the others are
merged into the one other row if there is one. -/
structure AnswerSplit (db : Db) (k : UInt64) (q : StatsQuery) (cells : List ResultCell)
    (key : CellKey) (merged shown : List RawCell) : Prop where
  parent : parentKey q = .ok key
  nodup : ((merged ++ shown).map (RawCell.cell key)).Nodup
  mem_keys : ∀ c, c ∈ (merged ++ shown).map (RawCell.cell key) ↔ c ∈ db.childKeys q.window key
  totals : ∀ c ∈ merged ++ shown,
    c.events.toNat = db.groupSum ⟨q.window, c.cell key⟩ AggRow.events ∧
      c.users.toNat = db.groupSum ⟨q.window, c.cell key⟩ AggRow.users
  threshold : ∀ c ∈ shown, k ≤ c.users
  visible : cells.filterMap ResultCell.child? = shown
  other : ∀ events users, ResultCell.other events users ∈ cells →
    k ≤ users ∧ events.toNat = natSumBy RawCell.events merged ∧
      users.toNat = natSumBy RawCell.users merged

theorem Db.Tallied.exists_answerSplit {estimate : HyperLogLog → UInt64} {db : Db}
    {s : Int → Finset Event} {k : UInt64} {q : StatsQuery} {cells : List ResultCell}
    (h : db.Tallied q.window s) (hlevel : q.level ≠ levelGlobal) (hq : q.estimator = .exact)
    (hcells : computeCells estimate db k q = .ok cells) :
    ∃ key merged shown, AnswerSplit db k q cells key merged shown := by
  obtain ⟨key, parentCell, children, hparent, hcell, hchildren, rfl⟩ :=
    (computeCells_children estimate hlevel).mp hcells
  rw [hq] at hcell hchildren
  obtain ⟨c, rfl, _, _, _, hevents, husers⟩ := fetchCell_eq_ok.mp hcell
  obtain ⟨_, hwiki⟩ := parentKey_level hparent
  by_cases hkey : ∃ p, (db.aggCells.lookup ⟨q.window, key, p⟩).isSome
  · have hle := h.le_fetched_users hkey hwiki hchildren
    have hsum := h.fetched_events hkey hwiki hchildren
    have hparentEvents := lt_of_toBigint hevents
    have hchildUsers : natSumBy RawCell.users children ≤ natSumBy RawCell.events children :=
      List.sum_le_sum fun c hc => (h.fetched_child hkey hwiki hchildren hc).2
    have hparentUsers := toNat_of_toBigint husers
    obtain ⟨merged, shown, hperm, hk, hshown, hother⟩ :=
      suppress_split c.users k children (by omega) (by omega) (by omega)
    obtain ⟨hnodup, hmem⟩ := h.fetched_cells hkey hwiki hchildren
    have hkeys := hperm.map (RawCell.cell key)
    exact ⟨key, merged, shown, hparent, hkeys.nodup_iff.mpr hnodup,
      fun c => hkeys.mem_iff.trans (hmem c),
      fun c hc => h.fetched_totals hkey hwiki hchildren (hperm.subset hc), hk, hshown, hother⟩
  · have hrows := h.childRows_of_no_parent hparent hkey
    have hnil : children = [] := by
      change fetchChildren db q.window key = .ok children at hchildren
      rw [fetchChildren, hrows] at hchildren
      cases hchildren
      rfl
    have hkeys : db.childKeys q.window key = ∅ := by
      rw [Db.childKeys, hrows]
      rfl
    rw [hnil, suppress_nil]
    exact ⟨key, [], [], hparent, List.nodup_nil, by simp [hkeys], by simp, by simp, rfl, by simp⟩

namespace AnswerSplit

variable {db : Db} {k : UInt64} {q : StatsQuery} {cells : List ResultCell} {key : CellKey}
  {merged shown : List RawCell} (h : AnswerSplit db k q cells key merged shown)

include h

theorem cell_eq (c : RawCell) : c.cell key = ⟨q.level, c.family, c.wiki, c.ns⟩ := by
  rw [RawCell.cell, (parentKey_level h.parent).1]

theorem mem_shown {family wiki : String} {ns : Int} {events users : UInt64} :
    ResultCell.visible family wiki ns events users ∈ cells ↔
      ⟨family, wiki, ns, events, users⟩ ∈ shown := by
  rw [← h.visible, List.mem_filterMap]
  constructor
  · exact fun hmem => ⟨_, hmem, rfl⟩
  · intro hmem
    obtain ⟨cell, hcell, heq⟩ := hmem
    cases cell <;> cases heq
    exact hcell

/-- What is merged is what is not shown. -/
theorem mem_merged (c : CellKey) : c ∈ (merged.map (RawCell.cell key)).toFinset ↔
    c ∈ db.childKeys q.window key ∧ c ∉ (shown.map (RawCell.cell key)).toFinset := by
  have hnodup := h.nodup
  rw [List.map_append, List.nodup_append] at hnodup
  rw [← h.mem_keys, List.map_append, List.mem_append, List.mem_toFinset, List.mem_toFinset]
  constructor
  · exact fun hc => ⟨Or.inl hc, fun hshown => hnodup.2.2 c hc c hshown rfl⟩
  · exact fun hc => hc.1.resolve_right hc.2

theorem shownKeys_eq : (shown.map (RawCell.cell key)).toFinset = shownKeys q cells := by
  rw [shownKeys, h.visible]
  exact congrArg List.toFinset (List.map_congr_left fun c _ => h.cell_eq c)

theorem askedKeys_eq : db.askedKeys q = db.childKeys q.window key := by
  have hlevel : q.level ≠ levelGlobal := fun hglobal => by
    have hparent := h.parent
    simp [parentKey, hglobal, levelGlobal, levelFamily, levelWiki, levelNamespace] at hparent
  rw [Db.askedKeys, if_neg hlevel, h.parent]

theorem merged_eq : (merged.map (RawCell.cell key)).toFinset = db.hiddenKeys q cells := by
  ext c
  rw [h.mem_merged, Db.hiddenKeys, Finset.mem_sdiff, h.askedKeys_eq, h.shownKeys_eq]

/-- The totals of the merged children are sums over their keys. -/
theorem sum_merged :
    natSumBy RawCell.events merged = ∑ c ∈ (merged.map (RawCell.cell key)).toFinset,
        db.groupSum ⟨q.window, c⟩ AggRow.events ∧
      natSumBy RawCell.users merged = ∑ c ∈ (merged.map (RawCell.cell key)).toFinset,
        db.groupSum ⟨q.window, c⟩ AggRow.users := by
  have hnodup := h.nodup
  rw [List.map_append, List.nodup_append] at hnodup
  rw [List.sum_toFinset _ hnodup.1, List.sum_toFinset _ hnodup.1, List.map_map, List.map_map]
  constructor
  · exact congrArg List.sum (List.map_congr_left fun c hc =>
      (h.totals c (List.mem_append_left _ hc)).1)
  · exact congrArg List.sum (List.map_congr_left fun c hc =>
      (h.totals c (List.mem_append_left _ hc)).2)

end AnswerSplit

/-- The other row of an exact answer adds up the cells asked for that it does not show. -/
theorem Db.Tallied.sum_other {estimate : HyperLogLog → UInt64} {db : Db} {s : Int → Finset Event}
    {k : UInt64} {q : StatsQuery} {cells : List ResultCell} (h : db.Tallied q.window s)
    (hq : q.estimator = .exact) (hcells : computeCells estimate db k q = .ok cells)
    {ev us : UInt64} (hother : ResultCell.other ev us ∈ cells) :
    ev.toNat = ∑ c ∈ db.hiddenKeys q cells, db.groupSum ⟨q.window, c⟩ AggRow.events ∧
      us.toNat = ∑ c ∈ db.hiddenKeys q cells, db.groupSum ⟨q.window, c⟩ AggRow.users := by
  by_cases hlevel : q.level = levelGlobal
  · obtain ⟨global, hglobal, rfl⟩ := (computeCells_global estimate hlevel).mp hcells
    rw [hq] at hglobal
    obtain ⟨c, rfl, _, _, _, hevents, husers⟩ := fetchCell_eq_ok.mp hglobal
    have hreleased : ResultCell.other ev us = releaseSingle c k := List.mem_singleton.mp hother
    have hhidden : db.hiddenKeys q [ResultCell.other ev us] = {.global} := by
      rw [Db.hiddenKeys, Db.askedKeys, if_pos hlevel]
      exact Finset.sdiff_empty
    rw [show ((some c).map fun c => releaseSingle c k).toList = [releaseSingle c k] from rfl,
      ← hreleased, hhidden, Finset.sum_singleton, Finset.sum_singleton]
    unfold releaseSingle at hreleased
    split_ifs at hreleased
    · cases hreleased
    · obtain ⟨rfl, rfl⟩ := ResultCell.other.inj hreleased
      exact ⟨toNat_of_toBigint hevents, toNat_of_toBigint husers⟩
  · obtain ⟨key, merged, shown, hsplit⟩ := h.exists_answerSplit hlevel hq hcells
    obtain ⟨_, hev, hus⟩ := hsplit.other ev us hother
    rw [hev, hus, ← hsplit.merged_eq]
    exact hsplit.sum_merged

section Describes

variable {estimate : HyperLogLog → UInt64} {db : Db} {route : String → Int}
  {events : Finset Event} {k : UInt64} {q : StatsQuery} {cells : List ResultCell}
  (h : db.Tallied q.window (Tally.routed (fun e => route e.user) events))

include h

theorem describes_global (hlevel : q.level = levelGlobal) (hq : q.estimator = .exact)
    (hcells : computeCells estimate db k q = .ok cells) : Describes events k q cells := by
  obtain ⟨global, hglobal, rfl⟩ := (computeCells_global estimate hlevel).mp hcells
  rw [hq] at hglobal
  obtain ⟨c, rfl, hfamily, hwiki, hns, hevents, husers⟩ := fetchCell_eq_ok.mp hglobal
  obtain ⟨hsum, hsum'⟩ := h.groupSum_routed .global
  rw [← toNat_of_toBigint hevents] at hsum
  rw [← toNat_of_toBigint husers] at hsum'
  rw [show ((some c).map fun c => releaseSingle c k).toList = [releaseSingle c k] from rfl,
    releaseSingle]
  refine ⟨?_, ?_, fun hne => absurd hlevel hne⟩
  · intro family wiki ns ev us hmem
    split_ifs at hmem with hk
    · obtain ⟨rfl, rfl, rfl, rfl, rfl⟩ := ResultCell.visible.inj (List.mem_singleton.mp hmem)
      rw [hlevel, hfamily, hwiki, hns, hsum, hsum']
      exact ⟨of_decide_eq_true hk, rfl⟩
    · cases List.mem_singleton.mp hmem
  · intro ev us hmem
    split_ifs at hmem with hk
    · cases List.mem_singleton.mp hmem
    · obtain ⟨rfl, rfl⟩ := ResultCell.other.inj (List.mem_singleton.mp hmem)
      refine ⟨{.global}, fun g hg => ?_, ?_, ?_⟩
      · obtain rfl := Finset.mem_singleton.mp hg
        refine ⟨hlevel.symm, fun ev us hvisible => ?_⟩
        rw [if_neg hk] at hvisible
        cases List.mem_singleton.mp hvisible
      · rw [Finset.sum_singleton]
        exact hsum
      · rw [Finset.sum_singleton]
        exact hsum'

theorem describes_children (hlevel : q.level ≠ levelGlobal) (hq : q.estimator = .exact)
    (hcells : computeCells estimate db k q = .ok cells) : Describes events k q cells := by
  obtain ⟨key, merged, shown, hsplit⟩ := h.exists_answerSplit hlevel hq hcells
  refine ⟨fun family wiki ns ev us hmem => ?_, fun ev us hmem => ?_,
    fun _ ev us hmem => (hsplit.other ev us hmem).1⟩
  · have hc := hsplit.mem_shown.mp hmem
    obtain ⟨htotals, htotals'⟩ := hsplit.totals _ (List.mem_append_right _ hc)
    obtain ⟨hevents, husers⟩ := h.groupSum_routed ⟨q.level, family, wiki, ns⟩
    rw [hsplit.cell_eq] at htotals htotals'
    refine ⟨hsplit.threshold _ hc, ?_⟩
    rw [htotals.trans hevents, htotals'.trans husers]
  · obtain ⟨_, hev, hus⟩ := hsplit.other ev us hmem
    obtain ⟨hsumEvents, hsumUsers⟩ := hsplit.sum_merged
    refine ⟨(merged.map (RawCell.cell key)).toFinset, fun g hg => ?_, ?_, ?_⟩
    · obtain ⟨_, hapart⟩ := (hsplit.mem_merged g).mp hg
      obtain ⟨c', _, rfl⟩ := List.mem_map.mp (List.mem_toFinset.mp hg)
      rw [hsplit.cell_eq] at hapart ⊢
      refine ⟨rfl, fun ev us hmem' => hapart ?_⟩
      exact List.mem_toFinset.mpr (List.mem_map.mpr
        ⟨_, hsplit.mem_shown.mp hmem', hsplit.cell_eq _⟩)
    · rw [hev, hsumEvents]
      exact Finset.sum_congr rfl fun g _ => (h.groupSum_routed g).1
    · rw [hus, hsumUsers]
      exact Finset.sum_congr rfl fun g _ => (h.groupSum_routed g).2

theorem describes_exact (hq : q.estimator = .exact)
    (hcells : computeCells estimate db k q = .ok cells) : Describes events k q cells := by
  by_cases hlevel : q.level = levelGlobal
  · exact describes_global h hlevel hq hcells
  · exact describes_children h hlevel hq hcells

end Describes

namespace Fleet

/-- After any run, an exact answer is true of events that were delivered: a visible row counts one
cell's distinct users, at least as many as the threshold, and the merged row adds up cells that
are not shown. -/
theorem answer_of_delivered (estimate : HyperLogLog → UInt64) (route : String → Int)
    (actions : List FleetAction) (s : Fleet) (hrun : Run step free (idle Db.empty) actions s)
    (hrouted : ∀ p m now, FleetAction.act p (.deliver m now) ∈ actions → route m.event.user = p)
    (k : UInt64) (q : StatsQuery) (hq : q.estimator = .exact) (cells : List ResultCell)
    (hcells : computeCells estimate s.db k q = .ok cells) :
    ∃ events : Finset Event,
      (∀ e ∈ events, Delivered actions (route e.user) e ∧ e.window = q.window) ∧
      Describes events k q cells := by
  obtain ⟨events, hevents, _, htallied⟩ :=
    (accounted_of_run hrun).exists_events (Delivered.route_eq hrouted) q.window
  exact ⟨events, hevents, describes_exact htallied hq hcells⟩

/-- One user edits three wikis of a family, and the clock closes the window. -/
def oneEditor : List FleetAction :=
  [.start 0 false 0 0, .act 0 (.deliver ⟨0, { evt 1000000000 1 "u1" with wiki := "dewiki" }⟩ 0),
    .act 0 (.deliver ⟨1, { evt 1000000000 2 "u1" with wiki := "frwiki" }⟩ 0),
    .act 0 (.deliver ⟨2, evt 1000000000 3 "u1"⟩ 0),
    .act 0 (.tickIdle 20000000000 200000000000), .act 0 .collect, .act 0 .commit]

theorem deliver_oneEditor {p : Int} {m : Message} {now : Nat}
    (h : FleetAction.act p (.deliver m now) ∈ oneEditor) : p = 0 ∧ m.event.user = "u1" := by
  simp only [oneEditor, List.mem_cons, FleetAction.act.injEq, Action.deliver.injEq, reduceCtorEq,
    and_false, List.not_mem_nil, or_false, false_or] at h
  rcases h with ⟨rfl, rfl, rfl⟩ | ⟨rfl, rfl, rfl⟩ | ⟨rfl, rfl, rfl⟩ <;> exact ⟨rfl, rfl⟩

def familyQuery : StatsQuery := ⟨0, 2, some "wikipedia", none, .exact⟩

/-- The answer releases nothing but a row of three users. -/
theorem answer_of_delivered_oneEditor :
    ∃ s, Run step free (idle Db.empty) oneEditor s ∧
      computeCells (fun _ => 0) s.db 3 familyQuery = .ok [.other 3 3] ∧
      ∃ events : Finset Event, (∀ e ∈ events, Delivered oneEditor 0 e ∧ e.window = 0) ∧
        Describes events 3 familyQuery [.other 3 3] := by
  have hrun : ∃ s, Run step free (idle Db.empty) oneEditor s ∧
      computeCells (fun _ => 0) s.db 3 familyQuery = .ok [.other 3 3] :=
    ⟨_, run_of_execute rfl, by rfl⟩
  obtain ⟨s, hs, hcells⟩ := hrun
  exact ⟨s, hs, hcells, answer_of_delivered (fun _ => 0) (fun _ => 0) _ s hs
    (fun p m now hmem => (deliver_oneEditor hmem).1.symm) 3 familyQuery rfl _ hcells⟩

/-- The merged row adds up the cells asked for that are not shown. It stands for at most as many
people as it says, for exactly as many when and only when nobody is in two of these cells, and
otherwise for fewer, down to a share of one cell. -/
theorem merged_people (estimate : HyperLogLog → UInt64) (route : String → Int)
    (actions : List FleetAction) (s : Fleet) (hrun : Run step free (idle Db.empty) actions s)
    (hrouted : ∀ p m now, FleetAction.act p (.deliver m now) ∈ actions → route m.event.user = p)
    (k : UInt64) (q : StatsQuery) (hq : q.estimator = .exact) (cells : List ResultCell)
    (hcells : computeCells estimate s.db k q = .ok cells) (ev us : UInt64)
    (hother : ResultCell.other ev us ∈ cells) :
    ∃ events : Finset Event,
      (∀ e ∈ events, Delivered actions (route e.user) e ∧ e.window = q.window) ∧
      (∀ key, s.db.groupSum ⟨q.window, key⟩ AggRow.events =
          (contributors CellKey.cellsForEvent events key).card ∧
        s.db.groupSum ⟨q.window, key⟩ AggRow.users = (usersIn events key).card) ∧
      (∀ c ∈ s.db.hiddenKeys q cells, c.level = q.level ∧
        ∀ ev us, ResultCell.visible c.family c.wiki c.ns ev us ∉ cells) ∧
      ev.toNat = ∑ c ∈ s.db.hiddenKeys q cells, (contributors CellKey.cellsForEvent events c).card ∧
      us.toNat = ∑ c ∈ s.db.hiddenKeys q cells, (usersIn events c).card ∧
      ((s.db.hiddenKeys q cells).biUnion (usersIn events)).card ≤ us.toNat ∧
      us.toNat ≤ (s.db.hiddenKeys q cells).card *
        ((s.db.hiddenKeys q cells).biUnion (usersIn events)).card ∧
      (((s.db.hiddenKeys q cells).biUnion (usersIn events)).card = us.toNat ↔
        (s.db.hiddenKeys q cells : Set CellKey).PairwiseDisjoint (usersIn events)) := by
  obtain ⟨events, hevents, _, htallied⟩ :=
    (accounted_of_run hrun).exists_events (Delivered.route_eq hrouted) q.window
  obtain ⟨hev, hus⟩ := htallied.sum_other hq hcells hother
  have hrows := htallied.groupSum_routed
  have hsum : us.toNat = ∑ c ∈ s.db.hiddenKeys q cells, (usersIn events c).card :=
    hus.trans (Finset.sum_congr rfl fun c _ => (hrows c).2)
  refine ⟨events, hevents, hrows, fun c hc => hidden_of_mem_hiddenKeys hc,
    hev.trans (Finset.sum_congr rfl fun c _ => (hrows c).1), hsum, ?_, ?_, ?_⟩ <;> rw [hsum]
  · exact Finset.card_biUnion_le
  · exact Finset.sum_le_card_nsmul _ _ _ fun c hc =>
      Finset.card_le_card (Finset.subset_biUnion_of_mem _ hc)
  · exact card_biUnion_eq_sum_iff _ (usersIn events)

/-- The three users of the answer are one person, in the three wikis that are not shown. -/
theorem merged_people_oneEditor :
    ∃ s, Run step free (idle Db.empty) oneEditor s ∧
      computeCells (fun _ => 0) s.db 3 familyQuery = .ok [.other 3 3] ∧
      s.db.hiddenKeys familyQuery [.other 3 3] = {.ofWiki "wikipedia" "dewiki",
        .ofWiki "wikipedia" "frwiki", .ofWiki "wikipedia" "enwiki"} ∧
      ∃ events : Finset Event,
        3 = ∑ c ∈ s.db.hiddenKeys familyQuery [.other 3 3], (usersIn events c).card ∧
        ((s.db.hiddenKeys familyQuery [.other 3 3]).biUnion (usersIn events)).card ≤ 1 := by
  have hrun : ∃ s, Run step free (idle Db.empty) oneEditor s ∧
      computeCells (fun _ => 0) s.db 3 familyQuery = .ok [.other 3 3] ∧
      s.db.hiddenKeys familyQuery [.other 3 3] = {.ofWiki "wikipedia" "dewiki",
        .ofWiki "wikipedia" "frwiki", .ofWiki "wikipedia" "enwiki"} :=
    ⟨_, run_of_execute rfl, by rfl, by decide⟩
  obtain ⟨s, hs, hcells, hhidden⟩ := hrun
  obtain ⟨events, hevents, _, _, _, hsum, _⟩ := merged_people (fun _ => 0) (fun _ => 0) _ s hs
    (fun p m now hmem => (deliver_oneEditor hmem).1.symm) 3 familyQuery rfl _ hcells 3 3 (by simp)
  refine ⟨s, hs, hcells, hhidden, events, hsum, ?_⟩
  refine Finset.card_le_one.mpr fun u hu v hv => ?_
  have huser : ∀ u ∈ (s.db.hiddenKeys familyQuery [.other 3 3]).biUnion (usersIn events),
      u = "u1" := by
    intro u hu
    obtain ⟨c, _, hc⟩ := Finset.mem_biUnion.mp hu
    obtain ⟨e, he, rfl⟩ := Finset.mem_image.mp hc
    obtain ⟨offset, now, hmem⟩ := (hevents e ((mem_contributors _ _ _ _).mp he).1).1
    exact (deliver_oneEditor hmem).2
  rw [huser u hu, huser v hv]

end Fleet

end HushEngine
