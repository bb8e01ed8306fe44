import HushEngine.StatsQueries

/-!
Subtraction across levels. In a window where every cell's users are the sum of
its children's, the answer for one family at the wiki level releases all of the
family's users or, when the family is below the threshold, none of them. What
the families' answers leave of the global count is therefore the users of the
families below the threshold, whatever the family level pulled in to hide them.
-/
namespace HushEngine

open Keyed Fallible Grouping

namespace Db

/-- The users of a cell's children, over all their rows. -/
def childUsers (db : Db) (w : Int) (key : CellKey) : Nat :=
  (((rows db.aggCells).filter fun r =>
    decide (r.1.windowStart = w ∧ r.1.cell.parent = some key)).map fun r => r.2.users).sum

/-- Every cell above the namespace level has as many users as its children together. -/
def Additive (db : Db) (w : Int) : Prop :=
  ∀ key : CellKey, levelGlobal ≤ key.level → key.level < levelNamespace →
    db.groupSum ⟨w, key⟩ AggRow.users = db.childUsers w key

/-- The families that the rows of a window name. -/
def families (db : Db) (w : Int) : List String :=
  (((rows db.aggCells).filter fun r => decide (r.1.windowStart = w)).map
    fun r => r.1.cell.family).dedup

def familyUsers (db : Db) (w : Int) (family : String) : Nat :=
  db.groupSum ⟨w, .ofFamily family⟩ AggRow.users

/-- The event sums that an answer about a parent's children casts all fit a `bigint`. -/
def Readable (db : Db) (w : Int) (parent : CellKey) : Prop :=
  db.groupSum ⟨w, parent⟩ AggRow.events < 2 ^ 63 ∧
    ∀ g ∈ groupBy (childLabel parent) (db.childRows w parent),
      columnSum AggRow.events g.2 < 2 ^ 63

instance (db : Db) (w : Int) (parent : CellKey) : Decidable (db.Readable w parent) :=
  inferInstanceAs (Decidable (_ ∧ _))

/-- The family reaches the threshold, and its answer is not an error. -/
def Answered (db : Db) (k : UInt64) (w : Int) (family : String) : Prop :=
  db.Readable w (.ofFamily family) ∧ k.toNat ≤ db.familyUsers w family

instance (db : Db) (k : UInt64) (w : Int) (family : String) :
    Decidable (db.Answered k w family) :=
  inferInstanceAs (Decidable (_ ∧ _))

/-- The users of the families that are not answered. -/
def withheldUsers (db : Db) (k : UInt64) (w : Int) : Nat :=
  ((db.families w).map fun f => if db.Answered k w f then 0 else db.familyUsers w f).sum

end Db

/-- The breakdown of one family into its wikis. -/
def familyQuery (w : Int) (family : String) : StatsQuery :=
  ⟨w, levelWiki, some family, none, .exact⟩

section Release

variable (estimate : HyperLogLog → UInt64) (db : Db) (s : Settings)

/-- The users an answer releases; a failing query releases nothing. -/
def releasedBy (q : StatsQuery) : Nat :=
  match computeStats estimate db s q with
  | .ok resp => releasedUsers resp.cells
  | .error _ => 0

def familiesRelease (w : Int) : Nat :=
  ((db.families w).map fun f => releasedBy estimate db s (familyQuery w f)).sum

end Release

namespace Db

variable {db : Db} {w : Int}

theorem isChildRow_ofFamily (w : Int) (f : String) (k : AggKey) :
    isChildRow w (.ofFamily f) k =
      decide (k.windowStart = w ∧ k.cell.parent = some (.ofFamily f)) := by
  have hparent : (CellKey.ofWiki f "").parent = some (.ofFamily f) := rfl
  exact Bool.eq_iff_iff.mpr ((isChildRow_iff hparent w k).trans decide_eq_true_iff.symm)

theorem parent_eq_global_iff (c : CellKey) : c.parent = some .global ↔ c.level = levelFamily := by
  obtain ⟨level, family, wiki, ns⟩ := c
  unfold CellKey.parent
  simp only [CellKey.ofFamily, CellKey.ofWiki, CellKey.global, levelGlobal, levelFamily, levelWiki,
    levelNamespace]
  by_cases h0 : level = 0 <;> by_cases h1 : level = 1 <;> by_cases h2 : level = 2 <;>
    by_cases h3 : level = 3 <;> simp_all

/-- The only parents at the family level are whole families. -/
theorem eq_ofFamily_of_parent {c key : CellKey} (hparent : c.parent = some key)
    (hlevel : key.level = levelFamily) : key = .ofFamily key.family := by
  unfold CellKey.parent at hparent
  split_ifs at hparent <;> obtain rfl := Option.some.inj hparent
  · exact absurd hlevel (by decide)
  · rfl
  · exact absurd hlevel (by simp [CellKey.ofWiki, levelWiki, levelFamily])

theorem childUsers_ofFamily (f : String) :
    db.childUsers w (.ofFamily f) =
      ((db.childRows w (.ofFamily f)).map fun r => r.2.users).sum := by
  simp only [childUsers, childRows, isChildRow_ofFamily]

/-- A cell that is nobody's parent has no users in an additive table. -/
theorem groupSum_eq_zero (hadd : db.Additive w) {key : CellKey} (hlow : levelGlobal ≤ key.level)
    (hhigh : key.level < levelNamespace) (horphan : ∀ c : CellKey, c.parent ≠ some key) :
    db.groupSum ⟨w, key⟩ AggRow.users = 0 := by
  rw [hadd key hlow hhigh, childUsers]
  have hnone : (rows db.aggCells).filter (fun r =>
      decide (r.1.windowStart = w ∧ r.1.cell.parent = some key)) = [] := by
    apply List.filter_eq_nil_iff.mpr
    intro r _ hr
    exact horphan _ (of_decide_eq_true hr).2
  rw [hnone]
  rfl

theorem users_le_groupSum {r : AggKey × AggRow} (hr : r ∈ rows db.aggCells) :
    r.2.users ≤ db.groupSum r.1.group AggRow.users := by
  have hmem : r ∈ (rows db.aggCells).filter fun r' => decide (r'.1.group = r.1.group) :=
    List.mem_filter.mpr ⟨hr, by simp⟩
  exact List.single_le_sum (fun _ _ => Nat.zero_le _) _ (List.mem_map_of_mem hmem)

/-- A row of the family level that is not a whole family's has no users. -/
theorem users_eq_zero (hadd : db.Additive w) {r : AggKey × AggRow} (hr : r ∈ rows db.aggCells)
    (hstart : r.1.windowStart = w) (hlevel : r.1.cell.level = levelFamily)
    (hcell : r.1.cell ≠ .ofFamily r.1.cell.family) : r.2.users = 0 := by
  have hle := users_le_groupSum hr
  have horphan : ∀ c : CellKey, c.parent ≠ some r.1.cell := by
    intro c hparent
    exact hcell (eq_ofFamily_of_parent hparent hlevel)
  rw [AggKey.group, hstart, groupSum_eq_zero hadd (by rw [hlevel]; decide)
    (by rw [hlevel]; decide) horphan] at hle
  omega

/-- The families share the global users out among them. -/
theorem groupSum_global (hadd : db.Additive w) :
    db.groupSum ⟨w, .global⟩ AggRow.users =
      ((db.families w).map fun f => db.familyUsers w f).sum := by
  have hlabel : ∀ r ∈ (rows db.aggCells).filter fun r =>
      decide (r.1.windowStart = w ∧ r.1.cell.parent = some .global),
      r.1.cell.family ∈ db.families w := by
    intro r hr
    rw [List.mem_filter] at hr
    exact List.mem_dedup.mpr (List.mem_map.mpr
      ⟨r, List.mem_filter.mpr ⟨hr.1, decide_eq_true (of_decide_eq_true hr.2).1⟩, rfl⟩)
  rw [hadd .global (by decide) (by decide), childUsers,
    ← sum_fibers (fun r : AggKey × AggRow => r.1.cell.family) (fun r => r.2.users)
      (List.nodup_dedup _) hlabel]
  congr 1
  apply List.map_congr_left
  intro f _
  rw [familyUsers, groupSum, List.filter_filter]
  apply sum_filter_eq
  intro r hr hne
  by_contra husers
  refine hne (Bool.eq_iff_iff.mpr ?_)
  simp only [Bool.and_eq_true, decide_eq_true_eq, parent_eq_global_iff, AggKey.group,
    GroupKey.mk.injEq]
  constructor
  · intro h
    obtain ⟨rfl, hstart, hlevel⟩ := h
    refine ⟨hstart, ?_⟩
    by_contra hcell
    exact husers (users_eq_zero hadd hr hstart hlevel hcell)
  · intro h
    obtain ⟨hstart, hcell⟩ := h
    rw [hcell]
    exact ⟨rfl, hstart, rfl⟩

/-- The child rows of a family carry the family's users. -/
theorem sum_childRows_ofFamily (hadd : db.Additive w) (f : String) :
    ((db.childRows w (.ofFamily f)).map fun r => r.2.users).sum = db.familyUsers w f := by
  rw [familyUsers, hadd (.ofFamily f) (show (0 : Int) ≤ 1 by decide) (show (1 : Int) < 3 by decide),
    childUsers_ofFamily]

end Db

section Release

variable (estimate : HyperLogLog → UInt64) {db : Db} {s : Settings} {w : Int}

theorem readable_of_fetch {parent : CellKey} {cell : Option RawCell} {children : List RawCell}
    (hcell : fetchCell db w parent = .ok cell)
    (hchildren : fetchChildren db w parent = .ok children) : db.Readable w parent := by
  obtain ⟨c, _, _, _, _, hevents, _⟩ := fetchCell_eq_ok.mp hcell
  refine ⟨lt_of_toBigint hevents, ?_⟩
  intro g hg
  obtain ⟨c', hc'⟩ := exists_mapM_ok_iff.mp ⟨children, hchildren⟩ g hg
  exact (sumGroup_eq_ok hc').1

/-- A readable family whose users fit a `bigint` is answered without an error. -/
theorem computeStats_familyQuery (hadd : db.Additive w) {f : String}
    (hlt : db.familyUsers w f < 2 ^ 63) (hread : db.Readable w (.ofFamily f)) :
    ∃ resp, computeStats estimate db s (familyQuery w f) = .ok resp := by
  have hchildren : ∃ children, fetchChildren db w (.ofFamily f) = .ok children := by
    apply exists_mapM_ok_iff.mpr
    intro g hg
    have hle := columnSum_group_le hg AggRow.users
    rw [Db.sum_childRows_ofFamily hadd] at hle
    exact sumGroup_ok (hread.2 g hg) (lt_of_le_of_lt hle hlt)
  obtain ⟨children, hchildren⟩ := hchildren
  obtain ⟨c, hcell, _⟩ := fetchCell_ok hread.1 hlt
  have hcells := (computeCells_children estimate (q := familyQuery w f) (k := s.k)
    (show (2 : Int) ≠ 0 by decide)).mpr ⟨.ofFamily f, _, children, rfl, hcell, hchildren, rfl⟩
  exact ⟨_, bind_eq_ok.mpr ⟨_, hcells, rfl⟩⟩

/-- A family's answer releases all of its users or none. -/
theorem releasedBy_familyQuery (hdp : s.dpEnabled = false) (hk : 1 ≤ s.k) (hadd : db.Additive w)
    {f : String} (hlt : db.familyUsers w f < 2 ^ 63) :
    releasedBy estimate db s (familyQuery w f) =
      if db.Answered s.k w f then db.familyUsers w f else 0 := by
  unfold releasedBy
  cases hresp : computeStats estimate db s (familyQuery w f) with
  | error e =>
    rw [if_neg]
    intro h
    obtain ⟨hread, _⟩ := h
    obtain ⟨resp, hok⟩ := computeStats_familyQuery estimate (s := s) hadd hlt hread
    rw [hresp] at hok
    cases hok
  | ok resp =>
    have hcells := ((computeStats_eq_ok estimate hdp).mp hresp).1
    obtain ⟨parent, cell, children, hparent, hcell, hchildren, hsuppress⟩ :=
      (computeCells_children estimate (show (2 : Int) ≠ 0 by decide)).mp hcells
    obtain rfl : CellKey.ofFamily f = parent := Except.ok.inj hparent
    have hread := readable_of_fetch hcell hchildren
    obtain ⟨c, rfl, _, _, _, _, husers⟩ := fetchCell_eq_ok.mp hcell
    have hcount : c.users.toNat = db.familyUsers w f := toNat_of_toBigint husers
    have hsum : natSumBy RawCell.users children = c.users.toNat := by
      rw [natSumBy_fetchChildren hchildren, hcount]
      exact Db.sum_childRows_ofFamily hadd f
    have hanswered : db.Answered s.k w f ↔ s.k ≤ c.users := by
      rw [Db.Answered, UInt64.le_iff_toNat_le, hcount]
      exact ⟨fun h => h.2, fun h => ⟨hread, h⟩⟩
    dsimp only
    rw [hsuppress, Option.map_some, Option.getD_some, releasedUsers_suppress hk hsum, hcount]
    simp only [hanswered]

theorem familyUsers_le_global (hadd : db.Additive w) {f : String} (hf : f ∈ db.families w) :
    db.familyUsers w f ≤ db.groupSum ⟨w, .global⟩ AggRow.users := by
  rw [Db.groupSum_global hadd]
  exact List.single_le_sum (fun _ _ => Nat.zero_le _) _ (List.mem_map_of_mem hf)

/-- The families' answers and the families without one make up the global users. -/
theorem familiesRelease_add_withheldUsers (hdp : s.dpEnabled = false) (hk : 1 ≤ s.k)
    (hadd : db.Additive w) (hlt : db.groupSum ⟨w, .global⟩ AggRow.users < 2 ^ 63) :
    familiesRelease estimate db s w + db.withheldUsers s.k w =
      db.groupSum ⟨w, .global⟩ AggRow.users := by
  rw [Db.groupSum_global hadd, familiesRelease, Db.withheldUsers, ← List.sum_map_add]
  congr 1
  apply List.map_congr_left
  intro f hf
  rw [releasedBy_familyQuery estimate hdp hk hadd
    (lt_of_le_of_lt (familyUsers_le_global hadd hf) hlt)]
  split_ifs <;> omega

end Release

/-- What a subtraction leaves of a released total is nobody or at least `k` users. -/
def Protected (k : UInt64) (total released : Nat) : Prop :=
  ∃ hidden, released + hidden = total ∧ (hidden = 0 ∨ k.toNat ≤ hidden)

/-- Subtracting the families' answers from a released global count is harmless exactly when the
families without an answer have nobody, or at least `k` users, between them. -/
theorem residual_protected_iff (estimate : HyperLogLog → UInt64) (db : Db) (s : Settings) (w : Int)
    (hdp : s.dpEnabled = false) (hk : 1 ≤ s.k) (hadd : db.Additive w) (resp : StatsResponse)
    (hresp : computeStats estimate db s ⟨w, levelGlobal, none, none, .exact⟩ = .ok resp)
    (family wiki : String) (ns : Int) (events total : UInt64)
    (hreleased : .visible family wiki ns events total ∈ resp.cells) :
    Protected s.k total.toNat (familiesRelease estimate db s w) ↔
      (db.withheldUsers s.k w = 0 ∨ s.k.toNat ≤ db.withheldUsers s.k w) := by
  obtain ⟨global, hglobal, hcells⟩ := (computeCells_global estimate rfl).mp
    ((computeStats_eq_ok estimate hdp).mp hresp).1
  obtain ⟨c, rfl, _, _, _, _, husers⟩ := fetchCell_eq_ok.mp hglobal
  have htotal : total.toNat = db.groupSum ⟨w, .global⟩ AggRow.users := by
    rw [hcells] at hreleased
    have hcell := congrArg ResultCell.users (List.mem_singleton.mp hreleased)
    rw [releaseSingle_users] at hcell
    rw [← toNat_of_toBigint husers, ← hcell]
    rfl
  have hparts := familiesRelease_add_withheldUsers estimate hdp hk hadd (lt_of_toBigint husers)
  rw [htotal, ← hparts]
  constructor
  · intro h
    obtain ⟨hidden, heq, hprotected⟩ := h
    obtain rfl : hidden = db.withheldUsers s.k w := by omega
    exact hprotected
  · exact fun hprotected => ⟨_, rfl, hprotected⟩

/-- Only cells with a row and their parents can break additivity. -/
theorem Db.additive_of_rows {db : Db} {w : Int}
    (h : ∀ r ∈ rows db.aggCells, ∀ key ∈ r.1.cell :: r.1.cell.parent.toList,
      levelGlobal ≤ key.level → key.level < levelNamespace →
        db.groupSum ⟨w, key⟩ AggRow.users = db.childUsers w key) : db.Additive w := by
  intro key hlow hhigh
  by_cases hkey : ∃ r ∈ rows db.aggCells, key ∈ r.1.cell :: r.1.cell.parent.toList
  · obtain ⟨r, hr, hmem⟩ := hkey
    exact h r hr key hmem hlow hhigh
  · push Not at hkey
    have hself : (rows db.aggCells).filter (fun r => decide (r.1.group = ⟨w, key⟩)) = [] := by
      apply List.filter_eq_nil_iff.mpr
      intro r hr hgroup
      have hcell : r.1.cell = key := congrArg GroupKey.cell (of_decide_eq_true hgroup)
      exact hkey r hr (by simp [hcell])
    have hchild : (rows db.aggCells).filter (fun r =>
        decide (r.1.windowStart = w ∧ r.1.cell.parent = some key)) = [] := by
      apply List.filter_eq_nil_iff.mpr
      intro r hr hparent
      exact hkey r hr (by simp [(of_decide_eq_true hparent).2])
    rw [Db.groupSum, hself, Db.childUsers, hchild]

/-- Twenty users in the two wikis of one family and five in another family. -/
def twoFamilies : Db where
  aggCells := upserts ∅ [
    (⟨0, .global, 0⟩, ⟨75, 25, none⟩),
    (⟨0, .ofFamily "wikipedia", 0⟩, ⟨60, 20, none⟩),
    (⟨0, .ofFamily "wiktionary", 0⟩, ⟨15, 5, none⟩),
    (⟨0, .ofWiki "wikipedia" "enwiki", 0⟩, ⟨30, 10, none⟩),
    (⟨0, .ofWiki "wikipedia" "dewiki", 0⟩, ⟨30, 10, none⟩),
    (⟨0, .ofWiki "wiktionary" "enwiktionary", 0⟩, ⟨15, 5, none⟩),
    (⟨0, ⟨3, "wikipedia", "enwiki", 0⟩, 0⟩, ⟨30, 10, none⟩),
    (⟨0, ⟨3, "wikipedia", "dewiki", 0⟩, 0⟩, ⟨30, 10, none⟩),
    (⟨0, ⟨3, "wiktionary", "enwiktionary", 0⟩, 0⟩, ⟨15, 5, none⟩)]
  partitionProgress := upserts ∅ [(0, ⟨9, 60000000000⟩)]

theorem additive_twoFamilies : twoFamilies.Additive 0 :=
  Db.additive_of_rows (by decide)

theorem families_undo_hiding :
    twoFamilies.Additive 0 ∧ twoFamilies.windowComplete 0 = true ∧ ∀ estimate,
      computeStats estimate twoFamilies defaultSettings ⟨0, 0, none, none, .exact⟩ =
        .ok ⟨0, 0, [.visible "*" "*" (-1) 75 25]⟩ ∧
      computeStats estimate twoFamilies defaultSettings ⟨0, 1, none, none, .exact⟩ =
        .ok ⟨0, 1, [.other 75 25]⟩ ∧
      ¬ Protected defaultSettings.k 25
        (familiesRelease estimate twoFamilies defaultSettings 0) := by
  refine ⟨additive_twoFamilies, by decide, fun estimate => ⟨by rfl, by rfl, ?_⟩⟩
  rw [show familiesRelease estimate twoFamilies defaultSettings 0 = 20 by rfl]
  intro h
  rcases h with ⟨hidden, heq, hzero | hle⟩
  · omega
  · have hthreshold : 10 ≤ hidden := hle
    omega

theorem residual_protected_iff_twoFamilies :
    Protected defaultSettings.k 25 (familiesRelease (fun _ => 0) twoFamilies defaultSettings 0) ↔
      (twoFamilies.withheldUsers defaultSettings.k 0 = 0 ∨
        defaultSettings.k.toNat ≤ twoFamilies.withheldUsers defaultSettings.k 0) :=
  residual_protected_iff (fun _ => 0) twoFamilies defaultSettings 0 rfl (by decide)
    additive_twoFamilies ⟨0, 0, [.visible "*" "*" (-1) 75 25]⟩ (by rfl) "*" "*" (-1) 75 25
    (by simp)

end HushEngine
