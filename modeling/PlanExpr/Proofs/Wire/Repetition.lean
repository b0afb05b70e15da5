import PlanExpr.Proofs.Expr.Descent
import PlanExpr.Proofs.Wire.Canonical

/-! What becomes of a list on the wire that names a value or a key more than once. The reader ends
up with what building the node from the same list gives, and no tree that it returns holds anything
twice. -/
namespace PlanExpr.Wire

open PlanExpr.Expr (nodes forall_mem_nodes)

/-- A membership test on the wire, with the values listed as they come. -/
def spellIsIn (operand : Expr) (negated : Bool) (listed : List String) : List UInt8 :=
  Kind.isIn.tag :: (encode operand ++ (encodeBool negated ++ encodeValues listed))

/-- A call on the wire, with the attributes listed as they come. -/
def spellCall (name : String) (listed : List (String × String)) (arguments : List Expr) :
    List UInt8 :=
  Kind.call.tag :: (encodeText name ++ (encodeAttributes listed ++
    (encodeLength arguments.length ++ encodeEach arguments)))

theorem wireForm_spellIsIn {operand : Expr} {listed : List String} (hFits : FitsFields operand)
    (hHeight : operand.height < maxDepth) (hCount : listed.length ≤ maxLength)
    (hListed : ∀ text ∈ listed, text.utf8ByteSize ≤ maxLength) (negated : Bool) :
    WireForm maxDepth false 0 (.isInList operand negated listed)
      (spellIsIn operand negated listed) := by
  have hOperand : WireForm maxDepth false 1 operand (encode operand) :=
    wireForm_encode hFits (by omega)
  have hValues : ValuesForm false (.ofList listed) (encodeValues listed) :=
    valuesForm_iff.mpr ⟨listed, rfl, nofun, hCount, hListed, rfl⟩
  exact .node (Nat.zero_le _) (.isIn hOperand (boolForm_encodeBool negated) hValues)

theorem wireForm_spellCall {name : String} {listed : List (String × String)}
    {arguments : List Expr} (hName : name.utf8ByteSize ≤ maxLength)
    (hCount : listed.length ≤ maxLength)
    (hListed : ∀ entry ∈ listed,
      entry.1.utf8ByteSize ≤ maxLength ∧ entry.2.utf8ByteSize ≤ maxLength)
    (hArity : arguments.length ≤ maxLength) (hFits : AllFitFields arguments)
    (hLevels : Expr.levels arguments ≤ maxDepth) :
    WireForm maxDepth false 0 (.call name (.ofList listed) arguments)
      (spellCall name listed arguments) := by
  have hAttributes : AttributesForm false (.ofList listed) (encodeAttributes listed) :=
    attributesForm_iff.mpr ⟨listed, rfl, nofun, hCount, hListed, rfl⟩
  have hArguments : WireForms maxDepth false 1 arguments (encodeEach arguments) :=
    wireForms_encodeEach hFits (by omega)
  exact .node (Nat.zero_le _) (.call (textForm_encodeText hName) hAttributes
    (lengthForm_encodeLength hArity) hArguments)

section Parts

variable {limit depth : Nat} {plain : Bool}

theorem WireForms.singleton {tree : Expr} {bytes : List UInt8}
    (h : WireForm limit plain depth tree bytes) : WireForms limit plain depth [tree] bytes := by
  rw [← List.append_nil bytes]
  exact .cons h .nil

/-- The children of a node stand next to each other in what follows its tag. -/
theorem PayloadForm.exists_children {kind : Kind} {tree : Expr} {payload : List UInt8}
    (h : PayloadForm limit plain depth kind tree payload) :
    ∃ below, below <:+: payload ∧ WireForms limit plain (depth + 1) tree.children below := by
  cases h with
  | constant | series | timestamp | null => exact ⟨[], List.nil_infix, .nil⟩
  | binary hLeft hRight => exact ⟨_, List.infix_rfl, .cons hLeft (.singleton hRight)⟩
  | not hOperand => exact ⟨_, List.infix_rfl, .singleton hOperand⟩
  | negate hOperand => exact ⟨_, List.infix_rfl, .singleton hOperand⟩
  | isNull hOperand => exact ⟨_, (List.prefix_append _ _).isInfix, .singleton hOperand⟩
  | like hOperand => exact ⟨_, (List.prefix_append _ _).isInfix, .singleton hOperand⟩
  | isIn hOperand => exact ⟨_, (List.prefix_append _ _).isInfix, .singleton hOperand⟩
  | @call _ _ _ _ text pairs count bytes _ _ _ hArguments =>
      exact ⟨bytes, ⟨text ++ (pairs ++ count), [], by simp⟩, hArguments⟩

theorem WireForms.exists_part {trees : List Expr} {bytes : List UInt8}
    (h : WireForms limit plain depth trees bytes) {tree : Expr} (hTree : tree ∈ trees) :
    ∃ part, part <:+: bytes ∧ WireForm limit plain depth tree part := by
  induction trees generalizing bytes with
  | nil => cases hTree
  | cons first rest ih =>
      obtain _ | @⟨_, _, _, bytes, tail, hFirst, hRest⟩ := h
      rcases List.mem_cons.mp hTree with rfl | hMem
      · exact ⟨bytes, (List.prefix_append bytes tail).isInfix, hFirst⟩
      · obtain ⟨part, hPart, hForm⟩ := ih hRest hMem
        exact ⟨part, hPart.trans (List.suffix_append bytes tail).isInfix, hForm⟩

/-- Every node of a tree has a wire form of its own within that of the tree. -/
theorem WireForm.exists_part {tree : Expr} {bytes : List UInt8}
    (h : WireForm limit plain depth tree bytes) :
    ∀ node ∈ tree.nodes, ∃ depth part, part <:+: bytes ∧ WireForm limit plain depth node part := by
  apply forall_mem_nodes
  · rintro node ⟨depth, part, hPart, _, hPayload⟩ child hChild
    obtain ⟨below, hBelow, hChildren⟩ := hPayload.exists_children
    obtain ⟨inner, hInner, hForm⟩ := hChildren.exists_part hChild
    exact ⟨depth + 1, inner,
      (hInner.trans hBelow).trans ((List.suffix_cons _ _).isInfix.trans hPart), hForm⟩
  · exact ⟨depth, bytes, List.infix_rfl, h⟩

end Parts

/-- What bytes list for a node is kept once. A value stands where it is listed first, and so does a
key, which has the value that is listed for it last. -/
def KeptOnce (bytes : List UInt8) : Expr → Prop
  | .isIn _ _ values =>
      values.toList.Nodup ∧
        ∃ listed, encodeValues listed <:+: bytes ∧ FirstPlaces listed values
  | .call _ attributes _ =>
      (attributes.entries.map Prod.fst).Nodup ∧
        ∃ listed, encodeAttributes listed <:+: bytes ∧ LastValues listed attributes
  | _ => True

theorem FirstPlaces.nodup {listed : List String} {values : DistinctList String}
    (h : FirstPlaces listed values) : values.toList.Nodup := by
  rw [h]
  exact DistinctList.nodup_eraseDups listed

theorem LastValues.nodup_keys {listed : List (String × String)}
    {attributes : OrderedMap String String} (h : LastValues listed attributes) :
    (attributes.entries.map Prod.fst).Nodup := by
  rw [h.keys]
  exact DistinctList.nodup_eraseDups _

theorem WireForm.keptOnce {limit depth : Nat} {plain : Bool} {node : Expr}
    {part bytes : List UInt8} (h : WireForm limit plain depth node part) (hPart : part <:+: bytes) :
    KeptOnce bytes node := by
  obtain ⟨_, hPayload⟩ := h
  cases hPayload with
  | @isIn _ _ _ _ below flag _ _ _ hValues =>
      obtain ⟨listed, hKept, _, _, _, rfl⟩ := valuesForm_iff.mp hValues
      have hPlaces := firstPlaces_iff.mpr hKept
      have hListed : encodeValues listed <:+:
          Kind.isIn.tag :: (below ++ (flag ++ encodeValues listed)) :=
        ⟨Kind.isIn.tag :: (below ++ flag), [], by simp⟩
      exact ⟨hPlaces.nodup, listed, hListed.trans hPart, hPlaces⟩
  | @call _ _ _ _ text _ count below _ hAttributes =>
      obtain ⟨listed, hKept, _, _, _, rfl⟩ := attributesForm_iff.mp hAttributes
      have hValues := lastValues_iff.mpr hKept
      have hListed : encodeAttributes listed <:+:
          Kind.call.tag :: (text ++ (encodeAttributes listed ++ (count ++ below))) :=
        ⟨Kind.call.tag :: text, count ++ below, by simp⟩
      exact ⟨hValues.nodup_keys, listed, hListed.trans hPart, hValues⟩
  | _ => trivial

/-- Reading a list collapses its repeats as building a node from the list does. A membership test
keeps the values at their first places, and a call keeps the keys at their first places with the
values that were listed last. So whatever bytes a tree was read from, each of its nodes keeps once
what they list for it. -/
theorem repeats_collapse :
    (∀ operand negated listed tail, FitsFields operand → operand.height < maxDepth →
      listed.length ≤ maxLength → (∀ text ∈ listed, text.utf8ByteSize ≤ maxLength) →
        (Decodes (⟨spellIsIn operand negated listed ++ tail⟩ : Buffer)
            (.isInList operand negated listed) tail ∧
          Decodes (⟨spellIsIn operand negated listed ++ tail⟩ : ByteStream)
            (.isInList operand negated listed) tail) ∧
        (DistinctList.ofList listed).toList = listed.eraseDups ∧
        (DistinctList.ofList listed).toList.Nodup ∧
        ∀ value, value ∈ (DistinctList.ofList listed).toList ↔ value ∈ listed) ∧
    (∀ name listed arguments tail, name.utf8ByteSize ≤ maxLength → listed.length ≤ maxLength →
      (∀ entry ∈ listed, entry.1.utf8ByteSize ≤ maxLength ∧ entry.2.utf8ByteSize ≤ maxLength) →
      arguments.length ≤ maxLength → AllFitFields arguments → Expr.levels arguments ≤ maxDepth →
        (Decodes (⟨spellCall name listed arguments ++ tail⟩ : Buffer)
            (.call name (.ofList listed) arguments) tail ∧
          Decodes (⟨spellCall name listed arguments ++ tail⟩ : ByteStream)
            (.call name (.ofList listed) arguments) tail) ∧
        LastValues listed (.ofList listed) ∧
        ((OrderedMap.ofList listed).entries.map Prod.fst).Nodup) ∧
    ∀ bytes tree rest,
      Decodes (⟨bytes⟩ : Buffer) tree rest ∨ Decodes (⟨bytes⟩ : ByteStream) tree rest →
        ∃ front, bytes = front ++ rest ∧ ∀ node ∈ tree.nodes, KeptOnce front node := by
  refine ⟨?_, ?_, ?_⟩
  · intro operand negated listed tail hFits hHeight hCount hListed
    have hForm := wireForm_spellIsIn hFits hHeight hCount hListed negated
    have hPlaces : FirstPlaces listed (.ofList listed) := firstPlaces_iff.mpr rfl
    exact ⟨hForm.decodes tail, hPlaces, hPlaces.nodup, fun value => DistinctList.mem_ofList⟩
  · intro name listed arguments tail hName hCount hListed hArity hFits hLevels
    have hForm := wireForm_spellCall hName hCount hListed hArity hFits hLevels
    have hValues : LastValues listed (.ofList listed) := lastValues_iff.mpr rfl
    exact ⟨hForm.decodes tail, hValues, hValues.nodup_keys⟩
  · intro bytes tree rest h
    obtain ⟨front, hBytes, hForm⟩ := exists_wireForm_of_decodes h
    refine ⟨front, hBytes, fun node hNode => ?_⟩
    obtain ⟨_, part, hPart, hNodeForm⟩ := hForm.exists_part node hNode
    exact hNodeForm.keptOnce hPart

/-- Repeats with another value or key between them. The argument of the call is the root of another
list, so both kinds of list are kept once in one tree. -/
theorem repeats_collapse_interleaved :
    let test : Expr := .isIn .null true (.ofList ["a", "b"])
    let pairs := [("k", "1"), ("j", "2"), ("k", "3")]
    let call : Expr := .call "f" (.ofList [("k", "3"), ("j", "2")]) [test]
    Decodes (⟨spellIsIn .null true ["a", "b", "a"] ++ [7]⟩ : Buffer) test [7] ∧
      Decodes (⟨spellCall "f" pairs [test] ++ [9]⟩ : ByteStream) call [9] ∧
      ∃ front, spellCall "f" pairs [test] ++ [9] = front ++ [9] ∧ test ∈ call.nodes ∧
        KeptOnce front call ∧ KeptOnce front test := by
  intro test pairs call
  obtain ⟨hTests, hCalls, hTrees⟩ := repeats_collapse
  have hTest := hTests .null true ["a", "b", "a"] [7] trivial (by decide) (by decide) (by decide)
  have hCall := hCalls "f" pairs [test] [9] (by decide) (by decide) (by decide) (by decide)
    (by decide) (by decide)
  obtain ⟨front, hFront, hKept⟩ := hTrees _ call [9] (.inr hCall.1.2)
  have hChild : test ∈ call.nodes :=
    Expr.mem_nodes_of_mem_children List.mem_cons_self (Expr.self_mem_nodes test)
  exact ⟨hTest.1.1, hCall.1.2, front, hFront, hChild, hKept call (Expr.self_mem_nodes call),
    hKept test hChild⟩

end PlanExpr.Wire
