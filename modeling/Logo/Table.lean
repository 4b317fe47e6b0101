/-! Finite maps from names to values. Names that differ only in ASCII case are one name. -/
namespace Logo

/-- The spelling under which a name is stored: its ASCII letters in upper case. -/
def fold (name : String) : String := name.toUpper

/-- Every name is stored folded, and only once. -/
structure Table (α : Type) where
  entries : List (String × α)
  folded : ∀ key ∈ entries.map Prod.fst, ∃ name, fold name = key
  distinct : (entries.map Prod.fst).Nodup

namespace Table
variable {α β : Type}

instance : EmptyCollection (Table α) := ⟨⟨[], List.forall_mem_nil _, List.nodup_nil⟩⟩

def put (key : String) (a : α) : List (String × α) → List (String × α)
  | [] => [(key, a)]
  | (k, b) :: rest => if k = key then (key, a) :: rest else (k, b) :: put key a rest

theorem put_of_not_mem (key : String) (a : α) {l : List (String × α)} (h : key ∉ l.map Prod.fst) :
    put key a l = l ++ [(key, a)] := by
  induction l with
  | nil => rfl
  | cons p rest ih =>
    rw [List.map_cons, List.mem_cons, not_or] at h
    rw [put, if_neg (Ne.symm h.1), ih h.2, List.cons_append]

theorem keys_put_of_mem (key : String) (a : α) {l : List (String × α)} (h : key ∈ l.map Prod.fst) :
    (put key a l).map Prod.fst = l.map Prod.fst := by
  induction l with
  | nil => cases h
  | cons p rest ih =>
    by_cases hp : p.1 = key
    · simp [put, hp]
    · have hrest := (List.mem_cons.mp h).resolve_left (Ne.symm hp)
      simp only [put, hp, if_false, List.map_cons, ih hrest]

theorem folded_put (name : String) (a : α) (t : Table α) :
    ∀ key ∈ (put (fold name) a t.entries).map Prod.fst, ∃ name, fold name = key := by
  intro key hkey
  by_cases h : fold name ∈ t.entries.map Prod.fst
  · exact t.folded key (keys_put_of_mem _ a h ▸ hkey)
  · simp only [put_of_not_mem _ a h, List.map_append, List.mem_append] at hkey
    rcases hkey with hkey | hkey
    · exact t.folded key hkey
    · exact ⟨name, (List.mem_singleton.mp hkey).symm⟩

theorem distinct_put (key : String) (a : α) (t : Table α) : ((put key a t.entries).map Prod.fst).Nodup := by
  by_cases h : key ∈ t.entries.map Prod.fst
  · rw [keys_put_of_mem _ a h]
    exact t.distinct
  · rw [put_of_not_mem _ a h, List.map_append, List.nodup_append]
    refine ⟨t.distinct, List.nodup_cons.mpr ⟨List.not_mem_nil, List.nodup_nil⟩, fun k hk k' hk' heq => h ?_⟩
    have hkey : k' = key := List.mem_singleton.mp hk'
    rwa [← hkey, ← heq]

/-- The value stored under a folded name. -/
def get? (t : Table α) (key : String) : Option α := t.entries.lookup key

def find? (t : Table α) (name : String) : Option α := t.get? (fold name)

def insert (t : Table α) (name : String) (a : α) : Table α :=
  ⟨put (fold name) a t.entries, folded_put name a t, distinct_put (fold name) a t⟩

/-- Of two pairs with one name the later counts. -/
def ofList (pairs : List (String × α)) : Table α :=
  pairs.foldl (fun t p => t.insert p.1 p.2) {}

theorem keys_map (f : α → β) (l : List (String × α)) :
    (l.map fun p => (p.1, f p.2)).map Prod.fst = l.map Prod.fst := by
  simp

def map (f : α → β) (t : Table α) : Table β :=
  ⟨t.entries.map fun p => (p.1, f p.2), keys_map f t.entries ▸ t.folded, keys_map f t.entries ▸ t.distinct⟩

theorem ext_entries {t t' : Table α} (h : t.entries = t'.entries) : t = t' := by
  cases t
  cases t'
  simpa using h

theorem lookup_cons (k key : String) (a : α) (l : List (String × α)) :
    ((key, a) :: l).lookup k = if k = key then some a else l.lookup k := by
  rw [List.lookup_cons]
  by_cases h : k = key
  · simp [h]
  · simp [h, beq_eq_false_iff_ne.mpr h]

theorem lookup_put (key k : String) (a : α) (l : List (String × α)) :
    (put key a l).lookup k = if k = key then some a else l.lookup k := by
  induction l with
  | nil => exact lookup_cons k key a []
  | cons p rest ih =>
    obtain ⟨k', b⟩ := p
    by_cases hp : k' = key
    · simp only [put, hp, if_true, lookup_cons]
      split <;> rfl
    · simp only [put, hp, if_false, lookup_cons, ih]
      by_cases h : k = key
      · simp [h, Ne.symm hp]
      · simp [h]

@[simp] theorem get?_empty (key : String) : ({} : Table α).get? key = none := rfl

theorem get?_insert (t : Table α) (name key : String) (a : α) :
    (t.insert name a).get? key = if key = fold name then some a else t.get? key :=
  lookup_put _ _ _ _

theorem find?_insert (t : Table α) (name other : String) (a : α) :
    (t.insert name a).find? other = if fold other = fold name then some a else t.find? other :=
  get?_insert t name (fold other) a

/-- Of pairs added from the last to the first, the first with the name counts. -/
theorem get?_foldr (pairs : List (String × α)) (t : Table α) (key : String) :
    (pairs.foldr (fun p t => t.insert p.1 p.2) t).get? key =
      ((pairs.find? fun p => fold p.1 == key).map Prod.snd).or (t.get? key) := by
  induction pairs with
  | nil => rfl
  | cons p rest ih =>
    rw [List.foldr_cons, get?_insert, List.find?_cons, ih]
    by_cases h : key = fold p.1
    · rw [if_pos h, h, beq_self_eq_true]
      rfl
    · rw [if_neg h, beq_eq_false_iff_ne.mpr (Ne.symm h)]

theorem get?_ofList (pairs : List (String × α)) (key : String) :
    (ofList pairs).get? key = (pairs.reverse.find? fun p => fold p.1 == key).map Prod.snd := by
  have hfolded := get?_foldr pairs.reverse {} key
  rw [List.foldr_reverse] at hfolded
  exact hfolded.trans (Option.or_none ..)

/-- Of pairs with different names each is found. -/
theorem find?_of_mem {pairs : List (String × α)} {p : String × α} (h : (pairs.map fun p => fold p.1).Nodup)
    (hp : p ∈ pairs) : pairs.find? (fun q => fold q.1 == fold p.1) = some p := by
  induction pairs with
  | nil => cases hp
  | cons q rest ih =>
    rw [List.map_cons, List.nodup_cons] at h
    rw [List.find?_cons]
    rcases List.mem_cons.mp hp with rfl | hrest
    · rw [beq_self_eq_true]
    · have hne : fold q.1 ≠ fold p.1 := fun heq => h.1 (heq ▸ List.mem_map_of_mem (f := fun p => fold p.1) hrest)
      rw [beq_eq_false_iff_ne.mpr hne]
      exact ih h.2 hrest

theorem get?_ofList_of_mem {pairs : List (String × α)} (h : (pairs.map fun p => fold p.1).Nodup) {name : String} {a : α}
    (hmem : (name, a) ∈ pairs) : (ofList pairs).get? (fold name) = some a := by
  rw [get?_ofList, find?_of_mem (p := (name, a)) _ (List.mem_reverse.mpr hmem)]
  · rfl
  · rw [List.map_reverse]
    exact List.pairwise_reverse.mpr (h.imp Ne.symm)

end Table
end Logo
