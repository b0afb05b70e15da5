import PlanExpr.Expr.Skeleton

/-! A reader for the text forms. It reads either form, since it takes parentheses wherever an
operand stands, and it cannot tell one kind of leaf from another. -/
namespace PlanExpr.Text

/-- A step that takes characters from the front of a text, or finds that they do not fit. -/
abbrev TextReader := StateT (List Char) Option

/-- Takes a character if it is next, and says whether it was. -/
def accept (char : Char) : TextReader Bool := fun
  | [] => some (false, [])
  | first :: rest => if first = char then some (true, rest) else some (false, first :: rest)

def expect (mark : String) : TextReader Unit := fun chars =>
  if mark.toList.isPrefixOf chars then some ((), chars.drop mark.toList.length) else none

/-- Takes the characters in front of the first stop, and the stop. -/
def readUpTo (stop : Char) : TextReader String := fun chars =>
  match chars.dropWhile (· != stop) with
  | [] => none
  | _ :: rest => some (String.ofList (chars.takeWhile (· != stop)), rest)

/-- Takes a word, as long as it goes. -/
def readName : TextReader String := fun chars =>
  some (String.ofList (chars.takeWhile isWordChar), chars.dropWhile isWordChar)

/-- The values in a list that is not closed by anything but its end. -/
def splitValues (content : String) : List String :=
  if content = "" then [] else (content.toList.splitOn ',').map String.ofList

section Steps

variable {α β : Type}

theorem bind_of_some {first : TextReader α} {next : α → TextReader β} {chars rest : List Char}
    {value : α} (h : first chars = some (value, rest)) :
    (first >>= next) chars = next value rest := by
  change (first chars).bind (fun result => next result.1 result.2) = _
  rw [h]
  rfl

@[simp] theorem accept_self (char : Char) (rest : List Char) :
    accept char (char :: rest) = some (true, rest) :=
  if_pos rfl

theorem accept_of_ne {char : Char} {chars : List Char} (h : ∀ first ∈ chars.head?, first ≠ char) :
    accept char chars = some (false, chars) := by
  cases chars with
  | nil => rfl
  | cons first rest => exact if_neg (h first rfl)

/-- A branch on the next character is taken when the character is there, and it is gone. -/
theorem branch_of_next (char : Char) (found missing : TextReader α) (rest : List Char) :
    (accept char >>= fun isNext => if isNext then found else missing) (char :: rest) =
      found rest := by
  rw [bind_of_some (accept_self char rest), if_pos rfl]

theorem branch_of_ne {char : Char} {found missing : TextReader α} {chars : List Char}
    (h : ∀ first ∈ chars.head?, first ≠ char) :
    (accept char >>= fun isNext => if isNext then found else missing) chars = missing chars := by
  rw [bind_of_some (accept_of_ne h), if_neg Bool.false_ne_true]

@[simp] theorem expect_append (mark : String) (tail : List Char) :
    expect mark (mark.toList ++ tail) = some ((), tail) := by
  have hPrefix : mark.toList.isPrefixOf (mark.toList ++ tail) :=
    List.isPrefixOf_iff_prefix.mpr (List.prefix_append _ _)
  rw [expect, if_pos hPrefix, List.drop_left]

theorem readUpTo_append {stop : Char} {text : String} (tail : List Char)
    (h : text.toList.all (· != stop)) :
    readUpTo stop (text.toList ++ stop :: tail) = some (text, tail) := by
  have hText : ∀ char ∈ text.toList, (char != stop) = true := List.all_eq_true.mp h
  unfold readUpTo
  rw [List.dropWhile_append_of_pos hText, List.takeWhile_append_of_pos hText]
  simp

theorem readName_append {name : String} {tail : List Char} (hName : isWord name)
    (hTail : ∀ first ∈ tail.head?, isWordChar first = false) :
    readName (name.toList ++ tail) = some (name, tail) := by
  have hChars : ∀ char ∈ name.toList, isWordChar char = true := by
    simp only [isWord, Bool.and_eq_true] at hName
    exact List.all_eq_true.mp hName.2
  have hStop : tail.takeWhile isWordChar = [] ∧ tail.dropWhile isWordChar = tail := by
    cases tail with
    | nil => exact ⟨rfl, rfl⟩
    | cons first rest => simp [hTail first rfl]
  rw [readName, List.takeWhile_append_of_pos hChars, List.dropWhile_append_of_pos hChars, hStop.1,
    hStop.2, List.append_nil, String.ofList_toList]

theorem all_intercalate {accepts : Char → Bool} {separator : List Char} {texts : List (List Char)}
    (hSeparator : separator.all accepts) (hTexts : ∀ text ∈ texts, text.all accepts) :
    (separator.intercalate texts).all accepts := by
  induction texts with
  | nil => rfl
  | cons first rest ih =>
      have hFirst := hTexts first List.mem_cons_self
      have hRest := ih fun text hText => hTexts text (List.mem_cons_of_mem _ hText)
      cases rest with
      | nil => rwa [List.intercalate_singleton]
      | cons next rest =>
          rw [List.intercalate_cons_cons, List.all_append, List.all_append, hFirst, hSeparator,
            hRest]
          rfl

/-- The values of a list end where the list is closed. -/
theorem readUpTo_intercalate {values : List String} (tail : List Char)
    (h : ∀ value ∈ values, isListable value) :
    readUpTo ')' ((",".intercalate values).toList ++ ')' :: tail) =
      some (",".intercalate values, tail) := by
  refine readUpTo_append tail ?_
  rw [String.toList_intercalate]
  refine all_intercalate (by decide) fun chars hChars => ?_
  obtain ⟨value, hValue, rfl⟩ := List.mem_map.mp hChars
  have hAll := h value hValue
  simp only [isListable, Bool.and_eq_true, List.all_eq_true] at hAll
  exact List.all_eq_true.mpr fun char hChar => (hAll.2 char hChar).2

theorem splitValues_intercalate {values : List String} (h : ∀ value ∈ values, isListable value) :
    splitValues (",".intercalate values) = values := by
  cases values with
  | nil => rfl
  | cons value rest =>
      have hSplit : (",".intercalate (value :: rest)).toList.splitOn ',' =
          (value :: rest).map String.toList := by
        rw [String.toList_intercalate]
        apply List.splitOn_intercalate ',' _ (by simp)
        intro chars hChars hComma
        obtain ⟨item, hItem, rfl⟩ := List.mem_map.mp hChars
        have hAll := h item hItem
        simp only [isListable, Bool.and_eq_true, List.all_eq_true] at hAll
        simpa using (hAll.2 ',' hComma).1
      have hContent : ",".intercalate (value :: rest) ≠ "" := by
        -- No values and one empty value would have the same text.
        intro hEmpty
        have hFirst := h value List.mem_cons_self
        rw [hEmpty] at hSplit
        simp only [isListable, Bool.and_eq_true, bne_iff_ne] at hFirst
        simp at hSplit
        exact hFirst.1 hSplit.1
      rw [splitValues, if_neg hContent, hSplit, List.map_map]
      simp [Function.comp_def]

end Steps

end PlanExpr.Text

namespace PlanExpr.Expr

open Text

/-- What can stand behind the first operand of a node. -/
inductive Sequel where
  | binary (op : Operator)
  | isNull (negated : Bool)
  | like (negated : Bool)
  | isIn (negated : Bool)

namespace Sequel

/-- The signs and words in front of what else the node holds. -/
def mark : Sequel → String
  | .binary op => op.joiner
  | .isNull negated => isNullSuffix negated
  | .like negated => if negated then " NOT LIKE '" else " LIKE '"
  | .isIn negated => if negated then " NOT IN (" else " IN ("

/-- Every sequel. A sign that starts with another one comes before it. -/
def all : List Sequel :=
  [.binary .ge, .binary .le, .binary .ne, .binary .add, .binary .sub, .binary .mul, .binary .div,
    .binary .mod, .binary .eq, .binary .gt, .binary .lt, .binary .and, .binary .or, .isNull true,
    .isNull false, .like true, .like false, .isIn true, .isIn false]

end Sequel

/-- Takes the mark of a sequel if one is next. -/
def readSequel : TextReader (Option Sequel) := fun chars =>
  match Sequel.all.findSome? fun sequel => (expect sequel.mark chars).map (sequel, ·.2) with
  | some (sequel, rest) => some (some sequel, rest)
  | none => some (none, chars)

/-- What is listed in a call: an argument, or the key and the value of an attribute. -/
abbrev Part := Expr ⊕ (String × String)

/-- The call with the listed parts, the arguments and the attributes each in their order. -/
def ofParts (name : String) (parts : List Part) : Expr :=
  .call name (.ofList (parts.filterMap Sum.getRight?)) (parts.filterMap Sum.getLeft?)

section Nodes

variable (tree : TextReader Expr)

def readPart : TextReader Part := do
  if ← accept '\x22' then
    let key ← readUpTo '\x22'
    expect "=\""
    return .inr (key, ← readUpTo '\x22')
  else
    return .inl (← tree)

/-- Takes at most a number of parts, each with the comma or the closing sign behind it. -/
def readPartsUpTo : Nat → TextReader (List Part)
  | 0 => fun _ => none
  | bound + 1 => do
      let part ← readPart tree
      if ← accept ')' then
        return [part]
      else
        expect ", "
        return part :: (← readPartsUpTo bound)

/-- Takes the parts of a call and the closing sign. There are no more parts than characters. -/
def readParts : TextReader (List Part) := do
  if ← accept ')' then
    return []
  else
    readPartsUpTo tree (← get).length

/-- Takes an operand: a tree in parentheses, a call, or a leaf. -/
def readOperand : TextReader Expr := do
  if ← accept '(' then
    let operand ← tree
    expect ")"
    return operand
  else
    let name ← readName
    if ← accept '(' then
      return ofParts name (← readParts tree)
    else
      return word name

/-- Takes what else a node holds, once its first operand and the mark behind it are known. -/
def readAfter (operand : Expr) : Sequel → TextReader Expr
  | .binary op => do return .binary op operand (← readOperand tree)
  | .isNull negated => return .isNull operand negated
  | .like negated => do return .like operand negated (← readUpTo '\x27')
  | .isIn negated => do
      return .isIn operand negated (.ofList (splitValues (← readUpTo ')')))

/-- Takes what follows the first operand of a node, which may be nothing. -/
def readSequelOf (operand : Expr) : TextReader Expr := do
  match ← readSequel with
  | none => return operand
  | some sequel => readAfter tree operand sequel

end Nodes

/-- Takes a tree whose height is less than a bound. -/
def readTree : Nat → TextReader Expr
  | 0 => fun _ => none
  | levels + 1 => do
      if ← accept '!' then
        return .not (← readOperand (readTree levels))
      else if ← accept '-' then
        return .negate (← readOperand (readTree levels))
      else
        let operand ← readOperand (readTree levels)
        readSequelOf (readTree levels) operand

/-- Nothing follows, or a sign that ends a tree inside of another one. -/
def Ends (tail : List Char) : Prop :=
  ∀ first ∈ tail.head?, first = ')' ∨ first = ','

/-- What follows does not continue a word and does not make a call of it. -/
def Bounds (tail : List Char) : Prop :=
  ∀ first ∈ tail.head?, isWordChar first = false ∧ first ≠ '('

theorem Ends.bounds {tail : List Char} (h : Ends tail) : Bounds tail := by
  intro first hFirst
  rcases h first hFirst with rfl | rfl <;> decide

theorem Sequel.bounds_mark (sequel : Sequel) (tail : List Char) :
    Bounds (sequel.mark.toList ++ tail) := by
  intro first hFirst
  rcases sequel with op | negated | negated | negated
  · cases op <;> cases hFirst <;> decide
  all_goals cases negated <;> cases hFirst <;> decide

/-- A sequel is told by its mark. A sign must not be followed by a character that makes another
sign of it. -/
theorem readSequel_mark {sequel : Sequel} {tail : List Char}
    (h : ∀ op, sequel = .binary op → ∀ first ∈ tail.head?, first ≠ '=') :
    readSequel (sequel.mark.toList ++ tail) = some (some sequel, tail) := by
  rcases sequel with op | negated | negated | negated
  · have hNe := h op rfl
    cases tail with
    | nil => cases op <;> rfl
    | cons first rest =>
        have hFirst : ¬ '=' = first := fun hEq => hNe first rfl hEq.symm
        cases op with
        -- Only these two signs are the start of another one.
        | gt | lt =>
            simp [readSequel, Sequel.all, expect, Sequel.mark, Operator.joiner, Operator.symbol,
              hFirst]
        | _ => rfl
  all_goals cases negated <;> rfl

theorem readSequel_of_ends {tail : List Char} (h : Ends tail) :
    readSequel tail = some (none, tail) := by
  cases tail with
  | nil => rfl
  | cons first rest => rcases h first rfl with rfl | rfl <;> rfl

end PlanExpr.Expr
