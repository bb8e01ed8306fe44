import Mathlib.Algebra.BigOperators.Group.Finset.Basic
import Mathlib.Data.List.AList

/-!
Keyed tables: association lists with distinct keys, used wherever the program
has a hash map, an ordered map or a table with a primary key. Batches of
insertions and removals are folds; each comes with the lookups it leaves
behind, and sums over the rows of a table are sums over its keys.
-/
namespace HushEngine.Keyed

abbrev Table (α β : Type*) := AList (fun _ : α => β)

variable {α β : Type*}

def rows (t : Table α β) : List (α × β) := t.entries.map fun e => (e.1, e.2)

theorem mem_rows [DecidableEq α] (t : Table α β) (k : α) (v : β) :
    (k, v) ∈ rows t ↔ t.lookup k = some v := by
  constructor
  · intro h
    obtain ⟨⟨a, b⟩, he, heq⟩ := List.mem_map.mp h
    obtain ⟨rfl, rfl⟩ := Prod.mk.inj heq
    exact AList.mem_lookup_iff.mpr he
  · intro h
    exact List.mem_map.mpr ⟨⟨k, v⟩, AList.mem_lookup_iff.mp h, rfl⟩

theorem nodup_rows_keys (t : Table α β) : ((rows t).map Prod.fst).Nodup := by
  have h : (rows t).map Prod.fst = t.keys := by
    simp [rows, AList.keys, List.keys, Function.comp_def]
  rw [h]
  exact t.keys_nodup

/-- Rewrites every value in place. -/
def mapValues {γ : Type*} (f : α → β → γ) (t : Table α β) : Table α γ :=
  ⟨t.entries.map fun e => ⟨e.1, f e.1 e.2⟩, by
    have hkeys := t.nodupKeys
    unfold List.NodupKeys List.keys at hkeys ⊢
    rwa [List.map_map]⟩

theorem rows_mapValues {γ : Type*} (f : α → β → γ) (t : Table α β) :
    rows (mapValues f t) = (rows t).map fun r => (r.1, f r.1 r.2) := by
  simp [rows, mapValues, Function.comp_def]

variable [DecidableEq α]

/-- What a table holds after an insertion is the new entry or another one it held before. -/
theorem lookup_of_insert {t : Table α β} {k k' : α} {v v' : β}
    (h : (t.insert k v).lookup k' = some v') :
    (k' = k ∧ v' = v) ∨ (k' ≠ k ∧ t.lookup k' = some v') := by
  by_cases hk : k' = k
  · subst hk
    rw [AList.lookup_insert] at h
    exact Or.inl ⟨rfl, (Option.some.inj h).symm⟩
  · rw [AList.lookup_insert_ne hk] at h
    exact Or.inr ⟨hk, h⟩

theorem lookup_of_erase {t : Table α β} {k k' : α} {v : β}
    (h : (t.erase k).lookup k' = some v) : k' ≠ k ∧ t.lookup k' = some v := by
  by_cases hk : k' = k
  · subst hk
    rw [AList.lookup_erase] at h
    cases h
  · rw [AList.lookup_erase_ne hk] at h
    exact ⟨hk, h⟩

theorem lookup_mapValues {γ : Type*} (f : α → β → γ) (t : Table α β) (k : α) :
    (mapValues f t).lookup k = (t.lookup k).map (f k) := by
  cases hlook : t.lookup k with
  | some v =>
    rw [Option.map_some, ← mem_rows, rows_mapValues]
    exact List.mem_map.mpr ⟨(k, v), (mem_rows t k v).mpr hlook, rfl⟩
  | none =>
    by_contra hne
    obtain ⟨v, hv⟩ := Option.ne_none_iff_exists'.mp hne
    rw [← mem_rows, rows_mapValues] at hv
    obtain ⟨⟨a, b⟩, hrow, heq⟩ := List.mem_map.mp hv
    obtain ⟨rfl, _⟩ := Prod.mk.inj heq
    rw [mem_rows, hlook] at hrow
    cases hrow

theorem lookup_isSome_iff (t : Table α β) (k : α) :
    (t.lookup k).isSome ↔ ∃ v, (k, v) ∈ rows t := by
  simp only [mem_rows, Option.isSome_iff_exists]

/-- Inserts the rows in order; a later row replaces an earlier one of its key. -/
def upserts (t : Table α β) (rs : List (α × β)) : Table α β :=
  rs.foldl (fun t r => t.insert r.1 r.2) t

theorem lookup_upserts_of_not_mem (t : Table α β) (rs : List (α × β)) (k : α)
    (h : ∀ v, (k, v) ∉ rs) : (upserts t rs).lookup k = t.lookup k := by
  induction rs generalizing t with
  | nil => rfl
  | cons r rs ih =>
    have hne : k ≠ r.1 := by
      rintro rfl
      exact h r.2 (List.mem_cons_self ..)
    have hrest := ih (t.insert r.1 r.2) fun v hv => h v (List.mem_cons_of_mem _ hv)
    rw [show upserts t (r :: rs) = upserts (t.insert r.1 r.2) rs from rfl, hrest]
    exact AList.lookup_insert_ne hne

theorem lookup_upserts_of_mem (t : Table α β) (rs : List (α × β)) (k : α) (v : β)
    (hnodup : (rs.map Prod.fst).Nodup) (h : (k, v) ∈ rs) :
    (upserts t rs).lookup k = some v := by
  induction rs generalizing t with
  | nil => simp at h
  | cons r rs ih =>
    rw [List.map_cons, List.nodup_cons] at hnodup
    rw [show upserts t (r :: rs) = upserts (t.insert r.1 r.2) rs from rfl]
    rcases List.mem_cons.mp h with rfl | hmem
    · rw [lookup_upserts_of_not_mem]
      · exact AList.lookup_insert _
      · intro v' hv'
        exact hnodup.1 (List.mem_map.mpr ⟨_, hv', rfl⟩)
    · exact ih _ hnodup.2 hmem

/-- What a table holds after a batch of insertions was inserted or is what it held before. -/
theorem lookup_of_upserts {t : Table α β} {rs : List (α × β)} {k : α} {v : β}
    (h : (upserts t rs).lookup k = some v) : (k, v) ∈ rs ∨ t.lookup k = some v := by
  induction rs generalizing t with
  | nil => exact Or.inr h
  | cons r rs ih =>
    rcases ih h with hmem | hlook
    · exact Or.inl (List.mem_cons_of_mem _ hmem)
    · rcases lookup_of_insert hlook with ⟨rfl, rfl⟩ | ⟨_, hold⟩
      · exact Or.inl (List.mem_cons_self ..)
      · exact Or.inr hold

/-- Insertions never remove a key. -/
theorem isSome_lookup_upserts (t : Table α β) (rs : List (α × β)) (k : α)
    (h : (t.lookup k).isSome) : ((upserts t rs).lookup k).isSome := by
  induction rs generalizing t with
  | nil => exact h
  | cons r rs ih =>
    apply ih
    by_cases hk : k = r.1
    · subst hk
      rw [AList.lookup_insert]
      rfl
    · rw [AList.lookup_insert_ne hk]
      exact h

/-- Nested insertion loops are one pass over the concatenated rows. -/
theorem foldl_upserts {γ : Type*} (t : Table α β) (cs : List γ) (f : γ → List (α × β)) :
    cs.foldl (fun t c => upserts t (f c)) t = upserts t (cs.flatMap f) := by
  induction cs generalizing t with
  | nil => rfl
  | cons c cs ih => rw [List.foldl_cons, ih, List.flatMap_cons, upserts, upserts, upserts,
      List.foldl_append]

/-- Collecting one row for each of distinct keys. -/
theorem lookup_upserts_map (ks : List α) (hnodup : ks.Nodup) (f : α → β) (k : α) :
    (upserts ∅ (ks.map fun a => (a, f a))).lookup k = if k ∈ ks then some (f k) else none := by
  split_ifs with hk
  · apply lookup_upserts_of_mem
    · simpa [Function.comp_def] using hnodup
    · exact List.mem_map.mpr ⟨k, hk, rfl⟩
  · rw [lookup_upserts_of_not_mem]
    · rfl
    · intro v hv
      obtain ⟨a, ha, heq⟩ := List.mem_map.mp hv
      rw [(Prod.mk.inj heq).1] at ha
      exact hk ha

/-- Collecting the rows of a table, with their values changed. -/
theorem lookup_upserts_rows {γ : Type*} (t : Table α β) (f : β → γ) (k : α) :
    (upserts ∅ ((rows t).map fun r => (r.1, f r.2))).lookup k = (t.lookup k).map f := by
  cases hlook : t.lookup k with
  | some v =>
    apply lookup_upserts_of_mem
    · simpa [Function.comp_def] using nodup_rows_keys t
    · exact List.mem_map.mpr ⟨(k, v), (mem_rows t k v).mpr hlook, rfl⟩
  | none =>
    rw [lookup_upserts_of_not_mem]
    · rfl
    · intro v hv
      obtain ⟨⟨a, b⟩, hrow, heq⟩ := List.mem_map.mp hv
      obtain ⟨rfl, rfl⟩ := Prod.mk.inj heq
      rw [(mem_rows t a b).mp hrow] at hlook
      cases hlook

/-- An insertion does not disturb the rows selected, in their order, if it is not one of them. -/
theorem filter_rows_insert (t : Table α β) (k : α) (v : β) (p : α → Bool) (hk : p k = false) :
    (rows (t.insert k v)).filter (fun r => p r.1) = (rows t).filter fun r => p r.1 := by
  have herase : ∀ entries : List ((_ : α) × β),
      ((entries.kerase k).map fun e => (e.1, e.2)).filter (fun r => p r.1) =
        (entries.map fun e => (e.1, e.2)).filter fun r => p r.1 := by
    intro entries
    induction entries with
    | nil => rfl
    | cons e entries ih =>
      by_cases he : k = e.1
      · rw [List.kerase_cons_eq he, List.map_cons, List.filter_cons, ← he, hk]
        rfl
      · rw [List.kerase_cons_ne he, List.map_cons, List.map_cons, List.filter_cons,
          List.filter_cons, ih]
  rw [rows, AList.entries_insert, List.map_cons, List.filter_cons, hk]
  exact herase t.entries

theorem filter_rows_upserts (t : Table α β) (rs : List (α × β)) (p : α → Bool)
    (hrs : ∀ r ∈ rs, p r.1 = false) :
    (rows (upserts t rs)).filter (fun r => p r.1) = (rows t).filter fun r => p r.1 := by
  induction rs generalizing t with
  | nil => rfl
  | cons r rs ih =>
    rw [show upserts t (r :: rs) = upserts (t.insert r.1 r.2) rs from rfl,
      ih _ fun r' hr' => hrs r' (List.mem_cons_of_mem _ hr'),
      filter_rows_insert t r.1 r.2 p (hrs r (List.mem_cons_self ..))]

/-- Updates the entries of the keys in order, each made from what is stored there. -/
def modifyAll (t : Table α β) (ks : List α) (f : Option β → β) : Table α β :=
  ks.foldl (fun t k => t.insert k (f (t.lookup k))) t

theorem lookup_modifyAll (t : Table α β) (ks : List α) (f : Option β → β) (k : α)
    (hnodup : ks.Nodup) :
    (modifyAll t ks f).lookup k = if k ∈ ks then some (f (t.lookup k)) else t.lookup k := by
  induction ks generalizing t with
  | nil => simp [modifyAll]
  | cons a ks ih =>
    obtain ⟨ha, hks⟩ := List.nodup_cons.mp hnodup
    rw [show modifyAll t (a :: ks) f = modifyAll (t.insert a (f (t.lookup a))) ks f from rfl,
      ih _ hks]
    by_cases hk : k = a
    · subst hk
      simp [ha, AList.lookup_insert]
    · simp [hk, AList.lookup_insert_ne hk]

/-- Removes the keys in order. -/
def removals (t : Table α β) (ks : List α) : Table α β := ks.foldl (fun t k => t.erase k) t

theorem lookup_removals (t : Table α β) (ks : List α) (k : α) :
    (removals t ks).lookup k = if k ∈ ks then none else t.lookup k := by
  induction ks generalizing t with
  | nil => simp [removals]
  | cons a ks ih =>
    rw [show removals t (a :: ks) = removals (t.erase a) ks from rfl, ih]
    by_cases hmem : k ∈ ks
    · simp [hmem]
    · by_cases hk : k = a
      · subst hk
        simp [hmem, AList.lookup_erase]
      · simp [hmem, hk, AList.lookup_erase_ne hk]

section MapValues

variable {γ : Type*} (f : α → β → γ)

omit [DecidableEq α] in
theorem keys_mapValues (t : Table α β) : (mapValues f t).keys = t.keys := by
  simp [AList.keys, List.keys, mapValues, Function.comp_def]

theorem mapValues_erase (t : Table α β) (k : α) :
    mapValues f (t.erase k) = (mapValues f t).erase k := by
  have hentries : ∀ es : List ((_ : α) × β),
      (es.kerase k).map (fun e => (⟨e.1, f e.1 e.2⟩ : (_ : α) × γ)) =
        (es.map fun e => (⟨e.1, f e.1 e.2⟩ : (_ : α) × γ)).kerase k := by
    intro es
    induction es with
    | nil => rfl
    | cons e es ih =>
      have hhead : (⟨e.1, f e.1 e.2⟩ : (_ : α) × γ).1 = e.1 := rfl
      by_cases he : k = e.1
      · rw [List.kerase_cons_eq he, List.map_cons, List.kerase_cons_eq (he.trans hhead.symm)]
      · rw [List.kerase_cons_ne he, List.map_cons, List.map_cons,
          List.kerase_cons_ne fun h => he (h.trans hhead), ih]
  exact AList.ext (hentries t.entries)

theorem mapValues_insert (t : Table α β) (k : α) (v : β) :
    mapValues f (t.insert k v) = (mapValues f t).insert k (f k v) := by
  have herase := congrArg AList.entries (mapValues_erase f t k)
  apply AList.ext
  exact congrArg (List.cons (⟨k, f k v⟩ : (_ : α) × γ)) herase

theorem mapValues_upserts (t : Table α β) (rs : List (α × β)) :
    mapValues f (upserts t rs) = upserts (mapValues f t) (rs.map fun r => (r.1, f r.1 r.2)) := by
  induction rs generalizing t with
  | nil => rfl
  | cons r rs ih =>
    rw [show upserts t (r :: rs) = upserts (t.insert r.1 r.2) rs from rfl, ih, mapValues_insert]
    rfl

theorem mapValues_removals (t : Table α β) (ks : List α) :
    mapValues f (removals t ks) = removals (mapValues f t) ks := by
  induction ks generalizing t with
  | nil => rfl
  | cons k ks ih =>
    rw [show removals t (k :: ks) = removals (t.erase k) ks from rfl, ih, mapValues_erase]
    rfl

theorem mapValues_modifyAll (g : β → γ) {make : Option β → β} (make' : Option γ → γ)
    (hmake : ∀ v, g (make v) = make' (v.map g)) (t : Table α β) (ks : List α) :
    mapValues (fun _ => g) (modifyAll t ks make) =
      modifyAll (mapValues (fun _ => g) t) ks make' := by
  induction ks generalizing t with
  | nil => rfl
  | cons k ks ih =>
    have hcons : modifyAll t (k :: ks) make =
        modifyAll (t.insert k (make (t.lookup k))) ks make := rfl
    rw [hcons, ih, mapValues_insert, hmake, ← lookup_mapValues (fun _ => g)]
    rfl

end MapValues

section Sum

variable {M : Type*} [AddCommMonoid M] (t : Table α β) (f : β → M) (k : α)

/-- The sum of a table's values without one entry. -/
theorem sum_rows_erase : ((rows t).map fun r => f r.2).sum =
    (t.lookup k).elim 0 f + ((rows (t.erase k)).map fun r => f r.2).sum := by
  have hentries : ∀ es : List (Sigma fun _ : α => β), (es.map fun e => f e.2).sum =
      (es.dlookup k).elim 0 f + ((es.kerase k).map fun e => f e.2).sum := by
    intro es
    induction es with
    | nil => simp
    | cons e es ih =>
      obtain ⟨k', v⟩ := e
      by_cases hk : k = k'
      · subst hk
        simp
      · rw [List.map_cons, List.sum_cons, ih, List.dlookup_cons_ne _ _ hk,
          List.kerase_cons_ne hk, List.map_cons, List.sum_cons, add_left_comm]
  have hsum := hentries t.entries
  simp only [rows, List.map_map]
  exact hsum

theorem sum_rows_insert (v : β) : ((rows (t.insert k v)).map fun r => f r.2).sum =
    f v + ((rows (t.erase k)).map fun r => f r.2).sum := by
  simp only [rows, List.map_map]
  exact List.sum_cons

end Sum

/-- A sum over the rows whose key satisfies a predicate is a sum over those keys. -/
theorem sum_rows_filter {M : Type*} [AddCommMonoid M] (t : Table α β) (p : α → Bool)
    (f : α → β → M) :
    (((rows t).filter fun r => p r.1).map fun r => f r.1 r.2).sum =
      ∑ k ∈ t.keys.toFinset with p k, (t.lookup k).elim 0 (f k) := by
  have hkeys : ((rows t).filter fun r => p r.1).map Prod.fst = t.keys.filter p := by
    rw [show t.keys = (rows t).map Prod.fst by
      simp [rows, AList.keys, List.keys, Function.comp_def], List.filter_map]
    rfl
  have hval : ((rows t).filter fun r => p r.1).map (fun r => f r.1 r.2) =
      (t.keys.filter p).map fun k => (t.lookup k).elim 0 (f k) := by
    rw [← hkeys, List.map_map]
    apply List.map_congr_left
    intro h hr
    obtain ⟨k, v⟩ := h
    have hlook := (mem_rows t k v).mp (List.mem_of_mem_filter hr)
    simp [hlook]
  rw [hval, ← List.sum_toFinset _ (t.keys_nodup.filter p), List.toFinset_filter]

/-- Counting the keys of a predicate, in any order. -/
theorem countP_keys (t : Table α β) (p : α → Prop) [DecidablePred p] :
    t.keys.countP (fun k => decide (p k)) = {k ∈ t.keys.toFinset | p k}.card := by
  rw [List.countP_eq_length_filter, ← List.toFinset_card_of_nodup (t.keys_nodup.filter _),
    List.toFinset_filter]
  simp

theorem countP_rows (t : Table α β) (p : α → Prop) [DecidablePred p] :
    (rows t).countP (fun r => decide (p r.1)) = {k ∈ t.keys.toFinset | p k}.card := by
  rw [← countP_keys, show t.keys = (rows t).map Prod.fst by
    simp [rows, AList.keys, List.keys, Function.comp_def], List.countP_map]
  rfl

end HushEngine.Keyed
