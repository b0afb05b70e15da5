import PlanExpr.Ordered.DistinctList

namespace PlanExpr

/-- Entries in the order in which their keys were first added, each key once. -/
structure OrderedMap (κ ν : Type) where
  entries : List (κ × ν)
  nodup_keys : (entries.map Prod.fst).Nodup
deriving DecidableEq

namespace OrderedMap

variable {κ ν : Type}

def empty : OrderedMap κ ν := ⟨[], List.nodup_nil⟩

instance : EmptyCollection (OrderedMap κ ν) := ⟨empty⟩

instance : Inhabited (OrderedMap κ ν) := ⟨empty⟩

@[ext] theorem ext {first second : OrderedMap κ ν} (h : first.entries = second.entries) :
    first = second := by
  cases first
  cases second
  cases h
  rfl

def size (map : OrderedMap κ ν) : Nat := map.entries.length

@[simp] theorem entries_empty : (empty : OrderedMap κ ν).entries = [] := rfl

/-- The keys in the order of their entries. -/
def keys (map : OrderedMap κ ν) : DistinctList κ :=
  ⟨map.entries.map Prod.fst, map.nodup_keys⟩

variable [DecidableEq κ]

/-- Gives a key its value in place, or adds the pair at the end when the key is new. -/
def assign (key : κ) (value : ν) : List (κ × ν) → List (κ × ν)
  | [] => [(key, value)]
  | (known, old) :: rest =>
      if known = key then (known, value) :: rest else (known, old) :: assign key value rest

/-- Assigning a value leaves the known keys in place and adds at most the new one. -/
theorem keys_assign (key : κ) (value : ν) (entries : List (κ × ν)) :
    (assign key value entries).map Prod.fst =
      if key ∈ entries.map Prod.fst then entries.map Prod.fst
      else entries.map Prod.fst ++ [key] := by
  induction entries with
  | nil => simp [assign]
  | cons entry rest ih =>
      obtain ⟨known, old⟩ := entry
      by_cases hEq : known = key
      · simp [assign, hEq]
      · have hNe : ¬key = known := fun h => hEq h.symm
        simp only [assign, hEq, if_false, List.map_cons, ih, List.mem_cons, hNe, false_or]
        split <;> rfl

/-- A key that is there already keeps its place and takes the new value. -/
def insert (map : OrderedMap κ ν) (key : κ) (value : ν) : OrderedMap κ ν :=
  ⟨assign key value map.entries, by
    rw [keys_assign]
    split
    · exact map.nodup_keys
    · rename_i hNew
      rw [List.nodup_append]
      exact ⟨map.nodup_keys, by simp, fun x hx y hy hEq => hNew (by simp_all)⟩⟩

/-- Inserts pairs one after the other. -/
def ofList (pairs : List (κ × ν)) : OrderedMap κ ν :=
  pairs.foldl (fun map (key, value) => map.insert key value) empty

@[simp] theorem entries_insert (map : OrderedMap κ ν) (key : κ) (value : ν) :
    (map.insert key value).entries = assign key value map.entries := rfl

theorem lookup_pair_cons (key other : κ) (value : ν) (rest : List (κ × ν)) :
    ((key, value) :: rest).lookup other =
      if other = key then some value else rest.lookup other := by
  by_cases h : other = key
  · simp [h]
  · simp [List.lookup_cons, beq_eq_false_iff_ne.mpr h, h]

/-- Assigning changes what is found under the key and nothing else. -/
theorem lookup_assign (key other : κ) (value : ν) (entries : List (κ × ν)) :
    (assign key value entries).lookup other =
      if other = key then some value else entries.lookup other := by
  induction entries with
  | nil => simp [assign, lookup_pair_cons]
  | cons entry rest ih =>
      obtain ⟨known, old⟩ := entry
      by_cases hEq : known = key
      · subst hEq
        simp only [assign, if_true, lookup_pair_cons]
        split <;> rfl
      · simp only [assign, hEq, if_false, lookup_pair_cons, ih]
        by_cases hOther : other = known
        · simp [hOther, hEq]
        · simp [hOther]

theorem keys_insert (map : OrderedMap κ ν) (key : κ) (value : ν) :
    (map.insert key value).keys = map.keys.insert key := by
  apply DistinctList.ext
  rw [DistinctList.toList_insert]
  exact keys_assign key value map.entries

/-- The keys of inserted pairs are the listed keys, each at its first place. -/
theorem keys_ofList (pairs : List (κ × ν)) :
    (ofList pairs).keys = .ofList (pairs.map Prod.fst) := by
  have h : ∀ start : OrderedMap κ ν,
      (pairs.foldl (fun map (key, value) => map.insert key value) start).keys =
        (pairs.map Prod.fst).foldl DistinctList.insert start.keys := by
    induction pairs with
    | nil => simp
    | cons head tail ih =>
        intro start
        rw [List.foldl_cons, ih, keys_insert, List.map_cons, List.foldl_cons]
  exact h empty

/-- Under each key stands the value that was listed for it last. -/
theorem lookup_ofList (pairs : List (κ × ν)) (key : κ) :
    (ofList pairs).entries.lookup key = pairs.reverse.lookup key := by
  have h : ∀ start : OrderedMap κ ν,
      (pairs.foldl (fun map (key, value) => map.insert key value) start).entries.lookup key =
        (pairs.reverse.lookup key).or (start.entries.lookup key) := by
    induction pairs with
    | nil => simp
    | cons head tail ih =>
        intro start
        rw [List.foldl_cons, ih, entries_insert, lookup_assign, List.reverse_cons,
          List.lookup_append, Option.or_assoc]
        obtain ⟨known, value⟩ := head
        by_cases hEq : key = known <;> simp [lookup_pair_cons, hEq]
  simpa [ofList] using h empty

/-- Assigning adds no entry but the assigned one. -/
theorem mem_of_mem_assign {key : κ} {value : ν} {entries : List (κ × ν)} {entry : κ × ν}
    (h : entry ∈ assign key value entries) : entry = (key, value) ∨ entry ∈ entries := by
  induction entries with
  | nil => exact .inl (List.mem_singleton.mp h)
  | cons head rest ih =>
      obtain ⟨known, old⟩ := head
      by_cases hEq : known = key
      · subst hEq
        simp only [assign, if_true, List.mem_cons] at h
        exact h.imp_right (List.mem_cons_of_mem _)
      · simp only [assign, hEq, if_false, List.mem_cons] at h
        rcases h with rfl | h
        · exact .inr List.mem_cons_self
        · exact (ih h).imp_right (List.mem_cons_of_mem _)

/-- Every entry was inserted as it stands. -/
theorem mem_of_mem_ofList {pairs : List (κ × ν)} {entry : κ × ν} :
    entry ∈ (ofList pairs).entries → entry ∈ pairs := by
  have hFold : ∀ start : OrderedMap κ ν,
      entry ∈ (pairs.foldl (fun map (key, value) => map.insert key value) start).entries →
        entry ∈ start.entries ∨ entry ∈ pairs := by
    induction pairs with
    | nil => exact fun start h => .inl h
    | cons head tail ih =>
        intro start h
        rcases ih _ h with hStart | hTail
        · rcases mem_of_mem_assign hStart with rfl | hOld
          · exact .inr List.mem_cons_self
          · exact .inl hOld
        · exact .inr (List.mem_cons_of_mem _ hTail)
  intro h
  exact (hFold empty h).resolve_left List.not_mem_nil

theorem lookup_of_notMem {key : κ} {entries : List (κ × ν)}
    (h : key ∉ entries.map Prod.fst) : entries.lookup key = none := by
  rw [List.lookup_eq_none_iff]
  intro entry hEntry
  have hNe : key ≠ entry.1 := fun hEq => h (hEq ▸ List.mem_map_of_mem hEntry)
  simpa using hNe

/-- Entries with the same distinct keys and the same value under each key are the same. -/
theorem entries_eq_of_lookup {first second : List (κ × ν)} (hNodup : (first.map Prod.fst).Nodup)
    (hKeys : first.map Prod.fst = second.map Prod.fst)
    (hLookup : ∀ key, first.lookup key = second.lookup key) : first = second := by
  induction first generalizing second with
  | nil => simpa using hKeys
  | cons head tail ih =>
      obtain _ | ⟨head', tail'⟩ := second
      · simp at hKeys
      obtain ⟨key, value⟩ := head
      obtain ⟨key', value'⟩ := head'
      simp only [List.map_cons, List.cons.injEq, List.nodup_cons] at hKeys hNodup
      obtain ⟨rfl, hKeys⟩ := hKeys
      have hValue : value = value' := by simpa using hLookup key
      have hTail : tail = tail' := by
        refine ih hNodup.2 hKeys fun other => ?_
        by_cases hOther : other = key
        · rw [hOther, lookup_of_notMem hNodup.1, lookup_of_notMem (hKeys ▸ hNodup.1)]
        · simpa [lookup_pair_cons, hOther] using hLookup other
      rw [hValue, hTail]

theorem assign_of_notMem {key : κ} {value : ν} {entries : List (κ × ν)}
    (h : key ∉ entries.map Prod.fst) : assign key value entries = entries ++ [(key, value)] := by
  induction entries with
  | nil => rfl
  | cons entry rest ih =>
      simp only [List.map_cons, List.mem_cons, not_or] at h
      have hNe : ¬entry.1 = key := fun hEq => h.1 hEq.symm
      simp [assign, hNe, ih h.2]

theorem entries_foldl_insert {pairs : List (κ × ν)} {start : OrderedMap κ ν}
    (h : ((start.entries ++ pairs).map Prod.fst).Nodup) :
    (pairs.foldl (fun map (key, value) => map.insert key value) start).entries =
      start.entries ++ pairs := by
  induction pairs generalizing start with
  | nil => simp
  | cons head tail ih =>
      have hNew : head.1 ∉ start.entries.map Prod.fst := by
        intro hMem
        rw [List.map_append, List.nodup_append] at h
        exact h.2.2 head.1 hMem head.1 (by simp) rfl
      have hInsert : (start.insert head.1 head.2).entries = start.entries ++ [head] := by
        rw [entries_insert, assign_of_notMem hNew]
      rw [List.foldl_cons, ih (by rw [hInsert]; simpa using h), hInsert, List.append_assoc]
      rfl

/-- Entries with distinct keys are what inserting them gives. -/
@[simp] theorem ofList_entries (map : OrderedMap κ ν) : ofList map.entries = map := by
  apply ext
  simpa [ofList] using @entries_foldl_insert κ ν _ map.entries empty (by simpa using map.nodup_keys)

theorem entries_ofList_of_nodup {pairs : List (κ × ν)} (h : (pairs.map Prod.fst).Nodup) :
    (ofList pairs).entries = pairs :=
  congrArg entries (ofList_entries ⟨pairs, h⟩)

end OrderedMap

end PlanExpr
