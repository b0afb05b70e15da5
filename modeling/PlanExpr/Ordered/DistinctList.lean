namespace PlanExpr

/-- Values in the order in which they were first added, each of them once. -/
structure DistinctList (α : Type) where
  toList : List α
  nodup : toList.Nodup
deriving DecidableEq

namespace DistinctList

variable {α : Type}

def empty : DistinctList α := ⟨[], List.nodup_nil⟩

instance : EmptyCollection (DistinctList α) := ⟨empty⟩

instance : Inhabited (DistinctList α) := ⟨empty⟩

@[ext] theorem ext {first second : DistinctList α} (h : first.toList = second.toList) :
    first = second := by
  cases first
  cases second
  cases h
  rfl

def size (values : DistinctList α) : Nat := values.toList.length

@[simp] theorem toList_empty : (empty : DistinctList α).toList = [] := rfl

variable [DecidableEq α]

/-- Adds a value behind the others unless it is there already. -/
def insert (values : DistinctList α) (value : α) : DistinctList α :=
  if h : value ∈ values.toList then values
  else
    ⟨values.toList ++ [value], by
      rw [List.nodup_append]
      exact ⟨values.nodup, by simp, fun x hx y hy hEq => h (by simp_all)⟩⟩

/-- The distinct values of a list, each at its first place. -/
def ofList (values : List α) : DistinctList α :=
  values.foldl insert empty

theorem toList_insert (values : DistinctList α) (value : α) :
    (values.insert value).toList =
      if value ∈ values.toList then values.toList else values.toList ++ [value] := by
  unfold insert
  split <;> rfl

@[simp] theorem mem_insert {values : DistinctList α} {value other : α} :
    other ∈ (values.insert value).toList ↔ other ∈ values.toList ∨ other = value := by
  rw [toList_insert]
  split
  · constructor
    · exact .inl
    · rintro (h | rfl) <;> assumption
  · simp

theorem mem_ofList {values : List α} {value : α} :
    value ∈ (ofList values).toList ↔ value ∈ values := by
  have h : ∀ (start : DistinctList α),
      value ∈ (values.foldl insert start).toList ↔ value ∈ start.toList ∨ value ∈ values := by
    induction values with
    | nil => simp
    | cons head tail ih =>
        intro start
        rw [List.foldl_cons, ih, mem_insert, List.mem_cons, or_assoc]
  simpa [ofList] using h empty

theorem toList_foldl_insert {values : List α} {start : DistinctList α}
    (h : (start.toList ++ values).Nodup) :
    (values.foldl insert start).toList = start.toList ++ values := by
  induction values generalizing start with
  | nil => simp
  | cons head tail ih =>
      have hNew : head ∉ start.toList := by
        intro hMem
        rw [List.nodup_append] at h
        exact h.2.2 head hMem head (by simp) rfl
      have hInsert : (start.insert head).toList = start.toList ++ [head] := by
        rw [toList_insert, if_neg hNew]
      rw [List.foldl_cons, ih (by rw [hInsert]; simpa using h), hInsert, List.append_assoc]
      rfl

/-- Values added one by one go behind those that are there, without the ones that are there
already and without repeats. -/
theorem toList_foldl_insert_eq (values : List α) (start : DistinctList α) :
    (values.foldl insert start).toList =
      start.toList ++ (values.removeAll start.toList).eraseDups := by
  induction values generalizing start with
  | nil => simp
  | cons head tail ih =>
      rw [List.foldl_cons, ih, toList_insert, List.cons_removeAll]
      by_cases h : head ∈ start.toList
      · simp [h]
      · have hRest : tail.removeAll (start.toList ++ [head]) =
            (tail.removeAll start.toList).filter fun value => !value == head := by
          simp only [List.removeAll, List.filter_filter]
          congr 1
          funext value
          cases hEq : value == head <;> simp_all
        simp [h, hRest, List.eraseDups_cons]

/-- Building from a list keeps the first of every group of equal values. -/
theorem toList_ofList (values : List α) : (ofList values).toList = values.eraseDups := by
  simpa [ofList] using toList_foldl_insert_eq values empty

theorem nodup_eraseDups (values : List α) : values.eraseDups.Nodup := by
  rw [← toList_ofList]
  exact (ofList values).nodup

/-- Distinct values are what building from them gives. -/
@[simp] theorem ofList_toList (values : DistinctList α) : ofList values.toList = values := by
  apply ext
  simpa [ofList] using @toList_foldl_insert α _ values.toList empty (by simpa using values.nodup)

theorem toList_ofList_of_nodup {values : List α} (h : values.Nodup) :
    (ofList values).toList = values :=
  congrArg toList (ofList_toList ⟨values, h⟩)

end DistinctList

end PlanExpr
