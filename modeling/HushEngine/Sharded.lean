import HushEngine.Keyed
import Mathlib.Data.List.Pairwise

/-!
A keyed table stored in leaves. A row goes to the leaf of its shard if that has
been attached, and to the default leaf otherwise; a leaf is attached empty, so
not while the default one has rows of the shard. The leaves together hold what a
single table would, and the rows of one shard are read from one leaf.
-/
namespace HushEngine.Keyed

structure Sharded (σ α β : Type*) where
  leaves : Table σ (Table α β)
  default : Table α β

namespace Sharded

variable {σ α β : Type*} [DecidableEq σ]

def empty : Sharded σ α β := ⟨∅, ∅⟩

/-- Where the rows of a shard are. -/
def leafOf (t : Sharded σ α β) (i : σ) : Table α β := (t.leaves.lookup i).getD t.default

def scan (t : Sharded σ α β) : List (α × β) :=
  (rows t.leaves).flatMap (fun l => rows l.2) ++ rows t.default

variable [DecidableEq α] (shard : α → σ)

def upsert (t : Sharded σ α β) (r : α × β) : Sharded σ α β :=
  match t.leaves.lookup (shard r.1) with
  | some leaf => { t with leaves := t.leaves.insert (shard r.1) (leaf.insert r.1 r.2) }
  | none => { t with default := t.default.insert r.1 r.2 }

def attach (t : Sharded σ α β) (i : σ) : Option (Sharded σ α β) :=
  if (t.leaves.lookup i).isSome then some t
  else if ∃ r ∈ rows t.default, shard r.1 = i then none
  else some { t with leaves := t.leaves.insert i ∅ }

/-- The leaves hold the rows of the single table, each in its place. -/
structure Lays (t : Sharded σ α β) (flat : Table α β) : Prop where
  lookup : ∀ k, (t.leafOf (shard k)).lookup k = flat.lookup k
  leaf_shard : ∀ i leaf k v, t.leaves.lookup i = some leaf → leaf.lookup k = some v → shard k = i
  default_shard : ∀ k v, t.default.lookup k = some v → t.leaves.lookup (shard k) = none

theorem lays_empty : Lays shard (empty : Sharded σ α β) ∅ where
  lookup k := rfl
  leaf_shard i leaf k v hleaf := by cases hleaf
  default_shard k v hrow := by cases hrow

variable {shard} {t t' : Sharded σ α β} {flat : Table α β}

theorem Lays.upsert_leaf (h : Lays shard t flat) {r : α × β} {leaf : Table α β}
    (hleaf : t.leaves.lookup (shard r.1) = some leaf) :
    Lays shard { t with leaves := t.leaves.insert (shard r.1) (leaf.insert r.1 r.2) }
      (flat.insert r.1 r.2) where
  lookup k := by
    have hlook := h.lookup k
    unfold leafOf at hlook ⊢
    dsimp only
    by_cases hshard : shard k = shard r.1
    · rw [hshard, hleaf, Option.getD_some] at hlook
      rw [hshard, AList.lookup_insert, Option.getD_some]
      by_cases hk : k = r.1
      · rw [hk, AList.lookup_insert, AList.lookup_insert]
      · rw [AList.lookup_insert_ne hk, AList.lookup_insert_ne hk, hlook]
    · have hk : k ≠ r.1 := fun heq => hshard (congrArg shard heq)
      rw [AList.lookup_insert_ne hshard, AList.lookup_insert_ne hk, hlook]
  leaf_shard i leaf' k v hleaf' hrow := by
    rcases lookup_of_insert hleaf' with ⟨rfl, rfl⟩ | ⟨_, hold⟩
    · rcases lookup_of_insert hrow with ⟨rfl, _⟩ | ⟨_, hold⟩
      · rfl
      · exact h.leaf_shard _ _ _ _ hleaf hold
    · exact h.leaf_shard _ _ _ _ hold hrow
  default_shard k v hrow := by
    have hnone := h.default_shard k v hrow
    have hshard : shard k ≠ shard r.1 := by
      intro heq
      rw [heq, hleaf] at hnone
      cases hnone
    dsimp only
    rw [AList.lookup_insert_ne hshard, hnone]

theorem Lays.upsert_default (h : Lays shard t flat) {r : α × β}
    (hleaf : t.leaves.lookup (shard r.1) = none) :
    Lays shard { t with default := t.default.insert r.1 r.2 } (flat.insert r.1 r.2) where
  lookup k := by
    have hlook := h.lookup k
    unfold leafOf at hlook ⊢
    dsimp only
    by_cases hk : k = r.1
    · rw [hk, hleaf, Option.getD_none, AList.lookup_insert, AList.lookup_insert]
    · rw [AList.lookup_insert_ne hk, ← hlook]
      cases t.leaves.lookup (shard k) with
      | some leaf => rfl
      | none =>
        rw [Option.getD_none, Option.getD_none]
        exact AList.lookup_insert_ne hk
  leaf_shard := h.leaf_shard
  default_shard k v hrow := by
    rcases lookup_of_insert hrow with ⟨rfl, _⟩ | ⟨_, hold⟩
    · exact hleaf
    · exact h.default_shard k v hold

theorem Lays.upsert (h : Lays shard t flat) (r : α × β) :
    Lays shard (t.upsert shard r) (flat.insert r.1 r.2) := by
  unfold Sharded.upsert
  split
  · next leaf hleaf => exact h.upsert_leaf hleaf
  · next hleaf => exact h.upsert_default hleaf

theorem Lays.upserts (h : Lays shard t flat) (rs : List (α × β)) :
    Lays shard (rs.foldl (Sharded.upsert shard) t) (upserts flat rs) := by
  induction rs generalizing t flat with
  | nil => exact h
  | cons r rs ih => exact ih (h.upsert r)

/-- Attaching moves no row. -/
theorem Lays.attach (h : Lays shard t flat) {i : σ} (hattach : t.attach shard i = some t') :
    Lays shard t' flat := by
  unfold Sharded.attach at hattach
  split_ifs at hattach with hsome hrows
  · exact Option.some.inj hattach ▸ h
  · obtain rfl := Option.some.inj hattach
    have hfree : ∀ k v, t.default.lookup k = some v → shard k ≠ i := fun k v hrow heq =>
      hrows ⟨(k, v), (mem_rows _ _ _).mpr hrow, heq⟩
    have hnone : t.leaves.lookup i = none := by simpa using hsome
    refine ⟨fun k => ?_, fun j leaf k v hleaf hrow => ?_, fun k v hrow => ?_⟩
    · rw [← h.lookup k]
      unfold leafOf
      dsimp only
      by_cases hshard : shard k = i
      · rw [hshard, AList.lookup_insert, hnone, Option.getD_some, Option.getD_none]
        cases hrow : t.default.lookup k with
        | none => rfl
        | some v => exact absurd hshard (hfree k v hrow)
      · rw [AList.lookup_insert_ne hshard]
    · rcases lookup_of_insert hleaf with ⟨_, rfl⟩ | ⟨_, hold⟩
      · cases hrow
      · exact h.leaf_shard j leaf k v hold hrow
    · dsimp only
      rw [AList.lookup_insert_ne (hfree k v hrow)]
      exact h.default_shard k v hrow

/-- A leaf cannot be attached when it is missing and the single table has rows of its shard. -/
theorem Lays.attach_eq_none_iff (h : Lays shard t flat) (i : σ) :
    t.attach shard i = none ↔
      t.leaves.lookup i = none ∧ ∃ k, shard k = i ∧ (flat.lookup k).isSome := by
  have hdefault : t.leaves.lookup i = none →
      ((∃ r ∈ rows t.default, shard r.1 = i) ↔ ∃ k, shard k = i ∧ (flat.lookup k).isSome) := by
    intro hnone
    have hleaf : t.leafOf i = t.default := by rw [leafOf, hnone, Option.getD_none]
    constructor
    · intro hrow
      obtain ⟨⟨k, v⟩, hrow, rfl⟩ := hrow
      refine ⟨k, rfl, ?_⟩
      rw [← h.lookup k, hleaf, (mem_rows _ _ _).mp hrow]
      rfl
    · intro hrow
      obtain ⟨k, rfl, hsome⟩ := hrow
      obtain ⟨v, hv⟩ := Option.isSome_iff_exists.mp hsome
      rw [← h.lookup k, hleaf] at hv
      exact ⟨(k, v), (mem_rows _ _ _).mpr hv, rfl⟩
  unfold Sharded.attach
  cases hleaf : t.leaves.lookup i with
  | some leaf => simp
  | none =>
    rw [← hdefault hleaf]
    simp

/-- Writing rows attaches no leaf. -/
theorem isSome_leaves_upsert (t : Sharded σ α β) (r : α × β) (i : σ) :
    ((t.upsert shard r).leaves.lookup i).isSome = (t.leaves.lookup i).isSome := by
  unfold Sharded.upsert
  split
  · next leaf hleaf =>
    dsimp only
    by_cases hi : i = shard r.1
    · rw [hi, AList.lookup_insert, hleaf]
      rfl
    · rw [AList.lookup_insert_ne hi]
  · rfl

theorem isSome_leaves_upserts (t : Sharded σ α β) (rs : List (α × β)) (i : σ) :
    ((rs.foldl (Sharded.upsert shard) t).leaves.lookup i).isSome =
      (t.leaves.lookup i).isSome := by
  induction rs generalizing t with
  | nil => rfl
  | cons r rs ih => rw [List.foldl_cons, ih, isSome_leaves_upsert]

omit [DecidableEq α] in
theorem lookup_leaves_attach {i j : σ} (hattach : t.attach shard i = some t') (hj : j ≠ i) :
    t'.leaves.lookup j = t.leaves.lookup j := by
  unfold Sharded.attach at hattach
  split_ifs at hattach
  · rw [Option.some.inj hattach]
  · obtain rfl := Option.some.inj hattach
    exact AList.lookup_insert_ne hj

theorem Lays.mem_leafOf (h : Lays shard t flat) {i : σ} {k : α} (hk : shard k = i) (v : β) :
    (k, v) ∈ rows (t.leafOf i) ↔ flat.lookup k = some v := by
  rw [mem_rows, ← h.lookup k, hk]

theorem Lays.mem_scan (h : Lays shard t flat) (k : α) (v : β) :
    (k, v) ∈ t.scan ↔ flat.lookup k = some v := by
  rw [← h.mem_leafOf rfl v, scan, List.mem_append, List.mem_flatMap, leafOf]
  constructor
  · intro hrow
    rcases hrow with ⟨⟨i, leaf⟩, hleaf, hrow⟩ | hrow
    · have hleaf := (mem_rows _ _ _).mp hleaf
      rw [h.leaf_shard i leaf k v hleaf ((mem_rows _ _ _).mp hrow), hleaf]
      exact hrow
    · rw [h.default_shard k v ((mem_rows _ _ _).mp hrow)]
      exact hrow
  · intro hrow
    cases hleaf : t.leaves.lookup (shard k) with
    | some leaf =>
      rw [hleaf] at hrow
      exact Or.inl ⟨(shard k, leaf), (mem_rows _ _ _).mpr hleaf, hrow⟩
    | none =>
      rw [hleaf] at hrow
      exact Or.inr hrow

/-- No row is in two leaves. -/
theorem Lays.nodup_scan (h : Lays shard t flat) : t.scan.Nodup := by
  have hleaves : ((rows t.leaves).flatMap fun l => rows l.2).Nodup := by
    rw [List.nodup_flatMap]
    refine ⟨fun l _ => (nodup_rows_keys l.2).of_map, ?_⟩
    have hkeys := List.pairwise_map.mp (nodup_rows_keys t.leaves)
    refine hkeys.imp_of_mem fun {l l'} hl hl' hne => ?_
    rintro ⟨k, v⟩ hrow hrow'
    apply hne
    rw [← h.leaf_shard l.1 l.2 k v ((mem_rows _ _ _).mp hl) ((mem_rows _ _ _).mp hrow),
      ← h.leaf_shard l'.1 l'.2 k v ((mem_rows _ _ _).mp hl') ((mem_rows _ _ _).mp hrow')]
  refine List.Nodup.append hleaves (nodup_rows_keys t.default).of_map ?_
  rintro ⟨k, v⟩ hrow hdefault
  obtain ⟨⟨i, leaf⟩, hleaf, hrow⟩ := List.mem_flatMap.mp hrow
  have hleaf := (mem_rows _ _ _).mp hleaf
  have hnone := h.default_shard k v ((mem_rows _ _ _).mp hdefault)
  rw [h.leaf_shard i leaf k v hleaf ((mem_rows _ _ _).mp hrow), hleaf] at hnone
  cases hnone

/-- A scan of the leaves is a scan of the single table, in another order. -/
theorem Lays.scan_perm (h : Lays shard t flat) : t.scan.Perm (rows flat) :=
  (List.perm_ext_iff_of_nodup h.nodup_scan (nodup_rows_keys flat).of_map).mpr fun r => by
    rw [h.mem_scan, mem_rows]

/-- The rows selected are read from one leaf if they are of one shard. -/
theorem Lays.filter_leafOf_perm (h : Lays shard t flat) {i : σ} (p : α → Bool)
    (hp : ∀ k, p k = true → shard k = i) :
    ((rows (t.leafOf i)).filter fun r => p r.1).Perm ((rows flat).filter fun r => p r.1) := by
  refine (List.perm_ext_iff_of_nodup ((nodup_rows_keys _).of_map.filter _)
    ((nodup_rows_keys flat).of_map.filter _)).mpr fun r => ?_
  obtain ⟨k, v⟩ := r
  rw [List.mem_filter, List.mem_filter]
  refine and_congr_left fun hk => ?_
  rw [h.mem_leafOf (hp k hk), mem_rows]

end Sharded

end HushEngine.Keyed
