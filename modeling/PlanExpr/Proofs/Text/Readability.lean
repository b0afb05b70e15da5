import PlanExpr.Proofs.Text.Reader

/-! The reader gives the skeleton of a tree for its text, in front of anything that ends a tree.
So the text in either form determines the skeleton. -/
namespace PlanExpr.Expr

open Text

/-- A text that is not empty and starts with one of some characters. -/
def StartsWith (accepts : Char → Bool) (chars : List Char) : Prop :=
  ∃ first rest, chars = first :: rest ∧ accepts first = true

namespace StartsWith

variable {accepts other : Char → Bool} {chars : List Char}

theorem append (h : StartsWith accepts chars) (tail : List Char) :
    StartsWith accepts (chars ++ tail) := by
  obtain ⟨first, rest, rfl, hFirst⟩ := h
  exact ⟨first, rest ++ tail, rfl, hFirst⟩

theorem mono (h : StartsWith accepts chars)
    (hOther : ∀ char, accepts char = true → other char = true) : StartsWith other chars := by
  obtain ⟨first, rest, rfl, hFirst⟩ := h
  exact ⟨first, rest, rfl, hOther first hFirst⟩

theorem head_ne (h : StartsWith accepts chars) {char : Char} (hChar : accepts char = false) :
    ∀ first ∈ chars.head?, first ≠ char := by
  obtain ⟨start, rest, rfl, hStart⟩ := h
  rintro first hFirst rfl
  cases hFirst
  rw [hChar] at hStart
  cases hStart

end StartsWith

def isOperandStart (char : Char) : Bool :=
  isWordChar char || char == '('

def isTreeStart (char : Char) : Bool :=
  isOperandStart char || char == '!' || char == '-'

def isPartStart (char : Char) : Bool :=
  isTreeStart char || char == '\x22'

theorem isOperandStart_of_isWordChar (char : Char) (h : isWordChar char = true) :
    isOperandStart char = true := by
  rw [isOperandStart, h, Bool.true_or]

theorem isTreeStart_of_isOperandStart (char : Char) (h : isOperandStart char = true) :
    isTreeStart char = true := by
  rw [isTreeStart, h, Bool.true_or, Bool.true_or]

theorem isPartStart_of_isTreeStart (char : Char) (h : isTreeStart char = true) :
    isPartStart char = true := by
  rw [isPartStart, h, Bool.true_or]

theorem startsWith_of_isWord {name : String} (h : isWord name) :
    StartsWith isWordChar name.toList := by
  simp only [isWord, Bool.and_eq_true, bne_iff_ne] at h
  cases hChars : name.toList with
  | nil => exact absurd (String.toList_inj.mp hChars) h.1
  | cons first rest =>
      rw [hChars, List.all_cons, Bool.and_eq_true] at h
      exact ⟨first, rest, rfl, h.2.1⟩

variable {form : Form}

theorem isWord_text_of_isLeaf {tree : Expr} (hLegible : tree.isLegible) (hLeaf : tree.kind.isLeaf) :
    isWord (tree.text form) := by
  cases tree with
  | constant literal => exact hLegible
  | series column =>
      obtain ⟨path, aliasName⟩ := column
      simp only [isLegible, Bool.and_eq_true] at hLegible
      cases form with
      | expression => exact hLegible.1
      | symbol =>
          cases aliasName with
          | none => exact hLegible.1
          | some name => exact hLegible.2
  | timestamp | null =>
      rw [text]
      decide
  | _ => simp [kind, Kind.isLeaf] at hLeaf

/-- A leaf or a call starts with a word. -/
theorem startsWith_text_of_bare {tree : Expr} (hLegible : tree.isLegible)
    (hBare : tree.kind.isLeaf ∨ tree.kind = .call) :
    StartsWith isWordChar (tree.text form).toList := by
  rcases hBare with hLeaf | hCall
  · exact startsWith_of_isWord (isWord_text_of_isLeaf hLegible hLeaf)
  · cases tree with
    | call name attributes arguments =>
        simp only [isLegible, Bool.and_eq_true] at hLegible
        simp only [text, callText, String.toList_append, List.append_assoc]
        exact (startsWith_of_isWord hLegible.1.1).append _
    | _ => cases hCall

theorem bare_of_isAtomic {kind : Kind} (h : kind.isAtomic form) : kind.isLeaf ∨ kind = .call := by
  cases kind <;> cases form <;> simp_all [Kind.isAtomic, Kind.isLeaf]

theorem startsWith_operandText {tree : Expr} (hLegible : tree.isLegible) :
    StartsWith isOperandStart (operandText form tree.kind (tree.text form)).toList := by
  by_cases hAtomic : tree.kind.isAtomic form
  · rw [operandText, if_pos hAtomic]
    exact (startsWith_text_of_bare hLegible (bare_of_isAtomic hAtomic)).mono
      isOperandStart_of_isWordChar
  · rw [operandText, if_neg hAtomic, String.toList_append, String.toList_append, List.append_assoc]
    exact ⟨'(', _, rfl, rfl⟩

theorem startsWith_text {tree : Expr} (hLegible : tree.isLegible) :
    StartsWith isTreeStart (tree.text form).toList := by
  have hOperand {operand : Expr} (h : operand.isLegible) : StartsWith isTreeStart
      (operandText form operand.kind (operand.text form)).toList :=
    (startsWith_operandText h).mono isTreeStart_of_isOperandStart
  have hBare (h : tree.kind.isLeaf ∨ tree.kind = .call) :
      StartsWith isTreeStart (tree.text form).toList :=
    ((startsWith_text_of_bare hLegible h).mono isOperandStart_of_isWordChar).mono
      isTreeStart_of_isOperandStart
  cases tree with
  | constant _ | series _ | timestamp | null => exact hBare (.inl rfl)
  | call _ _ _ => exact hBare (.inr rfl)
  | binary op left right =>
      simp only [isLegible, Bool.and_eq_true] at hLegible
      rw [text, String.append_assoc, String.toList_append]
      exact (hOperand hLegible.1).append _
  | not operand =>
      rw [text, String.toList_append]
      exact ⟨'!', _, rfl, rfl⟩
  | negate operand =>
      rw [text, String.toList_append]
      exact ⟨'-', _, rfl, rfl⟩
  | isNull operand negated =>
      have h : operand.isLegible := hLegible
      rw [text, String.toList_append]
      exact (hOperand h).append _
  | like operand negated pattern =>
      simp only [isLegible, Bool.and_eq_true] at hLegible
      rw [text, String.toList_append]
      exact (hOperand hLegible.1).append _
  | isIn operand negated values =>
      simp only [isLegible, Bool.and_eq_true] at hLegible
      rw [text, String.toList_append]
      exact (hOperand hLegible.1).append _

/-- A reader that takes the text of every legible tree below a height and gives the skeleton. The
text is read as far as the tree goes, whatever ends the tree behind it. -/
def ReadsTrees (form : Form) (levels : Nat) (read : TextReader Expr) : Prop :=
  ∀ tree : Expr, tree.isLegible → tree.height < levels → ∀ tail, Ends tail →
    read ((tree.text form).toList ++ tail) = some (tree.skeleton form, tail)

section Parts

variable {read : TextReader Expr}

theorem readPart_argument {tree : Expr} {levels : Nat} (hRead : ReadsTrees form levels read)
    (hLegible : tree.isLegible) (hHeight : tree.height < levels) {tail : List Char}
    (hTail : Ends tail) :
    readPart read ((tree.text form).toList ++ tail) = some (.inl (tree.skeleton form), tail) := by
  have hStart : StartsWith isTreeStart ((tree.text form).toList ++ tail) :=
    (startsWith_text hLegible).append tail
  have hQuote := hStart.head_ne (show isTreeStart '\x22' = false by decide)
  rw [readPart, branch_of_ne hQuote, bind_of_some (hRead tree hLegible hHeight tail hTail)]
  rfl

theorem readPart_attribute {entry : String × String}
    (hKey : entry.1.toList.all (· != '\x22')) (hValue : entry.2.toList.all (· != '\x22'))
    (tail : List Char) :
    readPart read ((attributeText entry).toList ++ tail) = some (.inr entry, tail) := by
  have hText : (attributeText entry).toList ++ tail = '\x22' :: (entry.1.toList ++ '\x22' ::
      ("=\"".toList ++ (entry.2.toList ++ '\x22' :: tail))) := by
    simp [attributeText, String.toList_append]
  rw [hText, readPart, branch_of_next, bind_of_some (readUpTo_append _ hKey),
    bind_of_some (expect_append _ _), bind_of_some (readUpTo_append _ hValue)]
  rfl

/-- Parts that are read one by one are read as a list, whose end is the closing sign. -/
theorem readPartsUpTo_intercalate {items : List (Part × List Char)}
    (hItems : ∀ item ∈ items, ∀ tail, Ends tail →
      readPart read (item.2 ++ tail) = some (item.1, tail))
    (hSome : items ≠ []) {bound : Nat} (hBound : items.length ≤ bound) (tail : List Char) :
    readPartsUpTo read bound
        (", ".toList.intercalate (items.map Prod.snd) ++ ')' :: tail) =
      some (items.map Prod.fst, tail) := by
  have hClosed : Ends (')' :: tail) := by
    rintro first ⟨⟩
    exact .inl rfl
  induction items generalizing bound with
  | nil => exact absurd rfl hSome
  | cons item rest ih =>
      obtain _ | bound := bound
      · cases hBound
      have hItem := hItems item List.mem_cons_self
      cases rest with
      | nil =>
          rw [readPartsUpTo, List.map_cons, List.map_nil, List.intercalate_singleton,
            bind_of_some (hItem _ hClosed), branch_of_next]
          rfl
      | cons next rest =>
          have hRest := ih (fun other hOther => hItems other (List.mem_cons_of_mem _ hOther))
            (List.cons_ne_nil _ _) (Nat.le_of_succ_le_succ hBound)
          generalize hMore : ", ".toList.intercalate ((next :: rest).map Prod.snd) ++ ')' :: tail =
            more at hRest
          have hComma : Ends (", ".toList ++ more) := by
            rintro first ⟨⟩
            exact .inr rfl
          have hChars : ", ".toList.intercalate ((item :: next :: rest).map Prod.snd) ++
              ')' :: tail = item.2 ++ (", ".toList ++ more) := by
            rw [← hMore, List.map_cons, List.map_cons, List.intercalate_cons_cons]
            simp only [List.append_assoc]
          have hOpen : ∀ first ∈ (", ".toList ++ more).head?, first ≠ ')' := by
            rintro first ⟨⟩
            decide
          rw [hChars, readPartsUpTo, bind_of_some (hItem _ hComma), branch_of_ne hOpen,
            bind_of_some (expect_append _ _), bind_of_some hRest]
          rfl

theorem length_le_length_intercalate (texts : List (List Char)) :
    texts.length ≤ (", ".toList.intercalate texts).length + 1 := by
  induction texts with
  | nil => exact Nat.zero_le _
  | cons first rest ih =>
      cases rest with
      | nil => simp
      | cons next rest =>
          rw [List.intercalate_cons_cons]
          simp only [List.length_append, List.length_cons] at ih ⊢
          have hComma : ", ".toList.length = 2 := rfl
          omega

theorem readParts_intercalate {items : List (Part × List Char)}
    (hItems : ∀ item ∈ items, ∀ tail, Ends tail →
      readPart read (item.2 ++ tail) = some (item.1, tail))
    (hStarts : ∀ item ∈ items, StartsWith isPartStart item.2) (tail : List Char) :
    readParts read (", ".toList.intercalate (items.map Prod.snd) ++ ')' :: tail) =
      some (items.map Prod.fst, tail) := by
  cases items with
  | nil => rfl
  | cons item rest =>
      generalize hChars : ", ".toList.intercalate ((item :: rest).map Prod.snd) ++ ')' :: tail =
        chars
      have hFirst : StartsWith isPartStart chars := by
        have hStart := hStarts item List.mem_cons_self
        rw [← hChars, List.map_cons]
        cases rest with
        | nil =>
            rw [List.map_nil, List.intercalate_singleton]
            exact hStart.append _
        | cons next rest =>
            rw [List.map_cons, List.intercalate_cons_cons, List.append_assoc, List.append_assoc]
            exact hStart.append _
      have hBound : (item :: rest).length ≤ chars.length := by
        have hLength := length_le_length_intercalate ((item :: rest).map Prod.snd)
        rw [List.length_map] at hLength
        rw [← hChars, List.length_append, List.length_cons (a := ')')]
        omega
      have hOpen := hFirst.head_ne (show isPartStart ')' = false by decide)
      rw [readParts, branch_of_ne hOpen]
      have hRun := readPartsUpTo_intercalate hItems (List.cons_ne_nil _ _) hBound tail
      rw [hChars] at hRun
      exact hRun

end Parts

theorem height_lt_levels {tree : Expr} {trees : List Expr} (h : tree ∈ trees) :
    tree.height < levels trees := by
  induction trees with
  | nil => cases h
  | cons first rest ih =>
      rw [levels]
      rcases List.mem_cons.mp h with rfl | hRest
      · omega
      · have hLevels := ih hRest
        omega

/-- The parts of the skeleton of a call, each with the text that stands for it. -/
def listedParts (form : Form) (attributes : OrderedMap String String) (arguments : List Expr) :
    List (Part × List Char) :=
  arguments.map (fun tree => (.inl (tree.skeleton form), (tree.text form).toList)) ++
    attributes.entries.map fun entry => (.inr entry, (attributeText entry).toList)

theorem ofParts_listedParts (name : String) (attributes : OrderedMap String String)
    (arguments : List Expr) :
    ofParts name ((listedParts form attributes arguments).map Prod.fst) =
      (Expr.call name attributes arguments).skeleton form := by
  have hAttributes : ((listedParts form attributes arguments).map Prod.fst).filterMap
      Sum.getRight? = attributes.entries := by
    simp [listedParts, Function.comp_def]
  have hArguments : ((listedParts form attributes arguments).map Prod.fst).filterMap
      Sum.getLeft? = arguments.map (skeleton form) := by
    simp [listedParts, Function.comp_def]
  rw [ofParts, hAttributes, hArguments, OrderedMap.ofList_entries, skeleton, skeletons_eq_map]

theorem toList_text_call (name : String) (attributes : OrderedMap String String)
    (arguments : List Expr) (tail : List Char) :
    ((Expr.call name attributes arguments).text form).toList ++ tail =
      name.toList ++ '(' :: (", ".toList.intercalate
        ((listedParts form attributes arguments).map Prod.snd) ++ ')' :: tail) := by
  have hParts : (texts form arguments ++ attributes.entries.map attributeText).map String.toList =
      (listedParts form attributes arguments).map Prod.snd := by
    simp [listedParts, texts_eq_map, Function.comp_def]
  rw [text, callText]
  simp only [String.toList_append, String.toList_intercalate, hParts, List.append_assoc]
  rfl

section Operands

variable {levels : Nat} {read : TextReader Expr}

theorem readPart_listedParts (hRead : ReadsTrees form levels read) {name : String}
    {attributes : OrderedMap String String} {arguments : List Expr}
    (hLegible : (Expr.call name attributes arguments).isLegible)
    (hHeight : (Expr.call name attributes arguments).height ≤ levels) :
    ∀ item ∈ listedParts form attributes arguments, StartsWith isPartStart item.2 ∧
      ∀ tail, Ends tail → readPart read (item.2 ++ tail) = some (item.1, tail) := by
  simp only [isLegible, Bool.and_eq_true, allLegible_eq_all] at hLegible
  rw [height] at hHeight
  intro item hItem
  rcases List.mem_append.mp hItem with hArgument | hAttribute
  · obtain ⟨tree, hTree, rfl⟩ := List.mem_map.mp hArgument
    have hTreeLegible := List.all_eq_true.mp hLegible.1.2 tree hTree
    have hTreeHeight := Nat.lt_of_lt_of_le (height_lt_levels hTree) hHeight
    exact ⟨(startsWith_text hTreeLegible).mono isPartStart_of_isTreeStart,
      fun tail hTail => readPart_argument hRead hTreeLegible hTreeHeight hTail⟩
  · obtain ⟨entry, hEntry, rfl⟩ := List.mem_map.mp hAttribute
    have hEntryLegible := List.all_eq_true.mp hLegible.2 entry hEntry
    rw [Bool.and_eq_true] at hEntryLegible
    refine ⟨?_, fun tail _ => readPart_attribute hEntryLegible.1 hEntryLegible.2 tail⟩
    simp only [attributeText, String.toList_append, List.append_assoc]
    exact ⟨'\x22', _, rfl, rfl⟩

/-- A leaf or a call is read as an operand whatever the form says about parentheses. -/
theorem readOperand_bare (hRead : ReadsTrees form levels read) {tree : Expr}
    (hLegible : tree.isLegible) (hHeight : tree.height ≤ levels)
    (hBare : tree.kind.isLeaf ∨ tree.kind = .call) {tail : List Char} (hTail : Bounds tail) :
    readOperand read ((tree.text form).toList ++ tail) = some (tree.skeleton form, tail) := by
  have hStart : StartsWith isWordChar ((tree.text form).toList ++ tail) :=
    (startsWith_text_of_bare hLegible hBare).append tail
  have hOpen := hStart.head_ne (show isWordChar '(' = false by decide)
  rw [readOperand, branch_of_ne hOpen]
  rcases hBare with hLeaf | hCall
  · have hWord : isWord (tree.text form) := isWord_text_of_isLeaf hLegible hLeaf
    have hName := readName_append hWord fun first hFirst => (hTail first hFirst).1
    rw [bind_of_some hName, branch_of_ne fun first hFirst => (hTail first hFirst).2,
      skeleton_of_isLeaf form hLeaf]
    rfl
  · cases tree with
    | call name attributes arguments =>
        have hItems := readPart_listedParts hRead hLegible hHeight
        have hParts := readParts_intercalate (fun item hItem => (hItems item hItem).2)
          (fun item hItem => (hItems item hItem).1) tail
        have hName : isWord name := by
          simp only [isLegible, Bool.and_eq_true] at hLegible
          exact hLegible.1.1
        have hParenthesis : ∀ first ∈ ('(' :: (", ".toList.intercalate
            ((listedParts form attributes arguments).map Prod.snd) ++ ')' :: tail)).head?,
            isWordChar first = false := by
          rintro first ⟨⟩
          rfl
        rw [toList_text_call, bind_of_some (readName_append hName hParenthesis),
          branch_of_next, bind_of_some hParts, ofParts_listedParts]
        rfl
    | _ => cases hCall

/-- An operand is read in the parentheses that the form puts around it. -/
theorem readOperand_operandText (hRead : ReadsTrees form levels read) {tree : Expr}
    (hLegible : tree.isLegible) (hHeight : tree.height < levels) {tail : List Char}
    (hTail : Bounds tail) :
    readOperand read ((operandText form tree.kind (tree.text form)).toList ++ tail) =
      some (tree.skeleton form, tail) := by
  by_cases hAtomic : tree.kind.isAtomic form
  · rw [operandText, if_pos hAtomic]
    exact readOperand_bare hRead hLegible (Nat.le_of_lt hHeight) (bare_of_isAtomic hAtomic) hTail
  · have hChars : (operandText form tree.kind (tree.text form)).toList ++ tail =
        '(' :: ((tree.text form).toList ++ (")".toList ++ tail)) := by
      rw [operandText, if_neg hAtomic]
      simp only [String.toList_append, List.append_assoc]
      rfl
    have hClosed : Ends (")".toList ++ tail) := by
      rintro first ⟨⟩
      exact .inl rfl
    rw [hChars, readOperand, branch_of_next, bind_of_some (hRead tree hLegible hHeight _ hClosed),
      bind_of_some (expect_append _ _)]
    rfl

end Operands

section Trees

variable {levels : Nat}

theorem readTree_of_operand {chars rest : List Char} {operand : Expr}
    (hStart : StartsWith isOperandStart chars)
    (hOperand : readOperand (readTree levels) chars = some (operand, rest)) :
    readTree (levels + 1) chars = readSequelOf (readTree levels) operand rest := by
  have hNot := hStart.head_ne (show isOperandStart '!' = false by decide)
  have hNegate := hStart.head_ne (show isOperandStart '-' = false by decide)
  rw [readTree, branch_of_ne hNot, branch_of_ne hNegate, bind_of_some hOperand]

/-- A leaf or a call with nothing behind it is all of its text. -/
theorem readTree_bare (hRead : ReadsTrees form levels (readTree levels)) {tree : Expr}
    (hLegible : tree.isLegible) (hHeight : tree.height ≤ levels)
    (hBare : tree.kind.isLeaf ∨ tree.kind = .call) {tail : List Char} (hTail : Ends tail) :
    readTree (levels + 1) ((tree.text form).toList ++ tail) = some (tree.skeleton form, tail) := by
  have hStart : StartsWith isOperandStart ((tree.text form).toList ++ tail) :=
    ((startsWith_text_of_bare hLegible hBare).append tail).mono isOperandStart_of_isWordChar
  rw [readTree_of_operand hStart (readOperand_bare hRead hLegible hHeight hBare hTail.bounds),
    readSequelOf, bind_of_some (readSequel_of_ends hTail)]
  rfl

/-- Behind the first operand of a node the mark tells the reader the node. -/
theorem readTree_sequel (hRead : ReadsTrees form levels (readTree levels)) {operand : Expr}
    (hLegible : operand.isLegible) (hHeight : operand.height < levels) (sequel : Sequel)
    {back : List Char} (hBack : ∀ op, sequel = .binary op → ∀ first ∈ back.head?, first ≠ '=') :
    readTree (levels + 1) ((operandText form operand.kind (operand.text form)).toList ++
        (sequel.mark.toList ++ back)) =
      readAfter (readTree levels) (operand.skeleton form) sequel back := by
  have hOperand := readOperand_operandText hRead hLegible hHeight (sequel.bounds_mark back)
  rw [readTree_of_operand ((startsWith_operandText hLegible).append _) hOperand, readSequelOf,
    bind_of_some (readSequel_mark hBack)]

theorem readTree_binary (hRead : ReadsTrees form levels (readTree levels)) {op : Operator}
    {left right : Expr} (hLegible : (Expr.binary op left right).isLegible)
    (hLeft : left.height < levels) (hRight : right.height < levels) {tail : List Char}
    (hTail : Bounds tail) :
    readTree (levels + 1) (((Expr.binary op left right).text form).toList ++ tail) =
      some ((Expr.binary op left right).skeleton form, tail) := by
  simp only [isLegible, Bool.and_eq_true] at hLegible
  have hStart : StartsWith isOperandStart
      ((operandText form right.kind (right.text form)).toList ++ tail) :=
    (startsWith_operandText hLegible.2).append tail
  have hSign := hStart.head_ne (show isOperandStart '=' = false by decide)
  have hTree := readTree_sequel hRead hLegible.1 hLeft (.binary op) fun _ _ => hSign
  simp only [text, String.toList_append, List.append_assoc]
  rw [Sequel.mark] at hTree
  rw [hTree, readAfter, bind_of_some (readOperand_operandText hRead hLegible.2 hRight hTail)]
  rfl

theorem readTree_like (hRead : ReadsTrees form levels (readTree levels)) {operand : Expr}
    {negated : Bool} {pattern : String} (hLegible : (Expr.like operand negated pattern).isLegible)
    (hHeight : operand.height < levels) (tail : List Char) :
    readTree (levels + 1) (((Expr.like operand negated pattern).text form).toList ++ tail) =
      some ((Expr.like operand negated pattern).skeleton form, tail) := by
  simp only [isLegible, Bool.and_eq_true] at hLegible
  have hTree := @readTree_sequel _ _ hRead _ hLegible.1 hHeight (.like negated)
    (pattern.toList ++ '\x27' :: tail) nofun
  simp only [text, likeSuffix, String.toList_append, List.append_assoc]
  rw [Sequel.mark] at hTree
  refine hTree.trans ?_
  rw [readAfter, bind_of_some (readUpTo_append tail hLegible.2)]
  rfl

theorem readTree_isIn (hRead : ReadsTrees form levels (readTree levels)) {operand : Expr}
    {negated : Bool} {values : DistinctList String}
    (hLegible : (Expr.isIn operand negated values).isLegible) (hHeight : operand.height < levels)
    (tail : List Char) :
    readTree (levels + 1) (((Expr.isIn operand negated values).text form).toList ++ tail) =
      some ((Expr.isIn operand negated values).skeleton form, tail) := by
  simp only [isLegible, Bool.and_eq_true, List.all_eq_true] at hLegible
  have hTree := @readTree_sequel _ _ hRead _ hLegible.1 hHeight (.isIn negated)
    ((",".intercalate values.toList).toList ++ ')' :: tail) nofun
  simp only [text, isInSuffix, String.toList_append, List.append_assoc]
  rw [Sequel.mark] at hTree
  refine hTree.trans ?_
  rw [readAfter, bind_of_some (readUpTo_intercalate tail hLegible.2),
    splitValues_intercalate hLegible.2, DistinctList.ofList_toList]
  rfl

/-- The text of a tree reads back as its skeleton, in front of whatever ends a tree. -/
theorem readTree_text (form : Form) (levels : Nat) : ReadsTrees form levels (readTree levels) := by
  -- The reader calls itself on what may be any tree below the node, so the bound carries it.
  induction levels with
  | zero => exact fun tree _ hHeight => absurd hHeight (Nat.not_lt_zero _)
  | succ levels ih =>
      intro tree hLegible hHeight tail hTail
      have hBare (h : tree.kind.isLeaf ∨ tree.kind = .call) :=
        readTree_bare ih hLegible (Nat.le_of_lt_succ hHeight) h hTail
      cases tree with
      | constant _ | series _ | timestamp | null => exact hBare (.inl rfl)
      | call _ _ _ => exact hBare (.inr rfl)
      | binary op left right =>
          rw [height] at hHeight
          exact readTree_binary ih hLegible (by omega) (by omega) hTail.bounds
      | not operand =>
          rw [height] at hHeight
          have hOperandLegible : operand.isLegible := hLegible
          have hOperand := readOperand_operandText ih hOperandLegible (by omega) hTail.bounds
          have hChars : ((Expr.not operand).text form).toList ++ tail =
              '!' :: ((operandText form operand.kind (operand.text form)).toList ++ tail) := by
            simp [text]
          rw [hChars, readTree, branch_of_next, bind_of_some hOperand]
          rfl
      | negate operand =>
          rw [height] at hHeight
          have hOperandLegible : operand.isLegible := hLegible
          have hOperand := readOperand_operandText ih hOperandLegible (by omega) hTail.bounds
          have hChars : ((Expr.negate operand).text form).toList ++ tail =
              '-' :: ((operandText form operand.kind (operand.text form)).toList ++ tail) := by
            simp [text]
          rw [hChars, readTree, branch_of_ne (by simp), branch_of_next, bind_of_some hOperand]
          rfl
      | isNull operand negated =>
          rw [height] at hHeight
          have hOperandLegible : operand.isLegible := hLegible
          simp only [text, String.toList_append, List.append_assoc]
          exact readTree_sequel ih hOperandLegible (by omega) (.isNull negated) nofun
      | like operand negated pattern =>
          rw [height] at hHeight
          exact readTree_like ih hLegible (by omega) tail
      | isIn operand negated values =>
          rw [height] at hHeight
          exact readTree_isIn ih hLegible (by omega) tail

end Trees

/-- Trees with the same text in one of the forms have the same skeleton: they differ in no more
than which leaf a word stands for. -/
theorem skeleton_eq_of_text_eq {form : Form} {first second : Expr} (hFirst : first.isLegible)
    (hSecond : second.isLegible) (hText : first.text form = second.text form) :
    first.skeleton form = second.skeleton form := by
  have hRead := readTree_text form (max first.height second.height + 1)
  have hReadFirst := hRead first hFirst (by omega) [] nofun
  have hReadSecond := hRead second hSecond (by omega) [] nofun
  rw [hText, hReadSecond] at hReadFirst
  injection hReadFirst with hPair
  injection hPair with hSkeleton
  exact hSkeleton.symm

/-- The name of a result column does not tell a series from a constant. -/
theorem skeleton_eq_of_same_symbol :
    (Expr.binary .ge (.series ⟨"root.s1", some "5"⟩) (.like .null true "a)")).text .symbol =
      (Expr.binary .ge (.constant ⟨.int32, "5"⟩) (.like .null true "a)")).text .symbol ∧
    (Expr.binary .ge (.series ⟨"root.s1", some "5"⟩) (.like .null true "a)")).skeleton .symbol =
      (Expr.binary .ge (.constant ⟨.int32, "5"⟩) (.like .null true "a)")).skeleton .symbol := by
  have hText : (Expr.binary .ge (.series ⟨"root.s1", some "5"⟩) (.like .null true "a)")).text
        .symbol =
      (Expr.binary .ge (.constant ⟨.int32, "5"⟩) (.like .null true "a)")).text .symbol := by decide
  exact ⟨hText, skeleton_eq_of_text_eq (by decide) (by decide) hText⟩

/-- A value with a comma is not told from two values. -/
example : (Expr.isIn .null false (.ofList ["a,b"])).expressionText =
    (Expr.isIn .null false (.ofList ["a", "b"])).expressionText := by
  decide

end PlanExpr.Expr
