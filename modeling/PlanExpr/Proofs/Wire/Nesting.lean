import PlanExpr.Proofs.Wire.RoundTrip
import PlanExpr.Proofs.Wire.Traversal

/-! Trees with nodes below the deepest level. They have a wire form, but reading it stops in front
of the first tag below that level, and what stands there or behind it makes no difference. -/
namespace PlanExpr.Wire

/-- Tags in descending steps do not skip a level, so the first one below a limit lies right below
it. -/
theorem exists_first_below {limit : Nat} {tags : List TagPlace}
    (hSteps : tags.IsChain fun tag next => next.depth ≤ tag.depth + 1)
    (hHead : ∀ tag ∈ tags.head?, tag.depth ≤ limit + 1) (hDeep : ∃ tag ∈ tags, limit < tag.depth) :
    ∃ before place after, tags = before ++ place :: after ∧ place.depth = limit + 1 ∧
      ∀ tag ∈ before, tag.depth ≤ limit := by
  induction tags with
  | nil =>
      obtain ⟨tag, hMem, _⟩ := hDeep
      exact absurd hMem List.not_mem_nil
  | cons first rest ih =>
      have hFirst : first.depth ≤ limit + 1 := hHead first rfl
      obtain ⟨hNext, hRest⟩ := List.isChain_cons.mp hSteps
      by_cases hShallow : first.depth ≤ limit
      · have hDeepRest : ∃ tag ∈ rest, limit < tag.depth := by
          obtain ⟨tag, hMem, hTag⟩ := hDeep
          rcases List.mem_cons.mp hMem with rfl | hMem
          · omega
          · exact ⟨tag, hMem, hTag⟩
        have hHeadRest (tag : TagPlace) (hTag : tag ∈ rest.head?) : tag.depth ≤ limit + 1 :=
          Nat.le_trans (hNext tag hTag) (Nat.succ_le_succ hShallow)
        obtain ⟨before, place, after, rfl, hPlace, hBefore⟩ := ih hRest hHeadRest hDeepRest
        exact ⟨first :: before, place, after, rfl, hPlace,
          List.forall_mem_cons.mpr ⟨hShallow, hBefore⟩⟩
      · exact ⟨[], first, rest, rfl, by omega, List.forall_mem_nil _⟩

/-- The tags of a tree are those that reading its wire form notes, so they are in descending
steps. -/
theorem descends_tags {tree : Expr} (hFits : FitsFields tree) :
    Descends 0 tree.height ((tags tree).map TagPlace.visit) := by
  let source : Traced Buffer := ⟨⟨encode tree⟩, #[]⟩
  have hLimit : 0 + (tree.height + 1) = tree.height + 1 := by omega
  have hUnread : unread source = encode tree ++ [] := (List.append_nil _).symm
  obtain ⟨after, hRead, _, hVisits⟩ := (traverses_readNode _ 0 hLimit tree 0 hFits).whole
    (forall_mem_tags_iff.mpr (Nat.le_refl _)) source [] hUnread
  obtain ⟨added, hAdded, hDescends⟩ := notes_readNode _ 0 hLimit source
  rw [hRead] at hAdded
  have hSame : (tags tree).map TagPlace.visit = added :=
    List.append_cancel_left (hVisits.symm.trans hAdded)
  rw [hSame]
  exact hDescends.descends

/-- The bytes in front of the first tag below the deepest level are taken, and then the reader
stops without looking for a tag. -/
theorem fails_in_front_of_below {tree : Expr} (hFits : FitsFields tree) {place : TagPlace}
    {before after : List TagPlace} (hTags : tags tree = before ++ place :: after)
    (hBefore : ∀ tag ∈ before, tag.depth ≤ maxDepth) (hPlace : maxDepth < place.depth)
    {input : List UInt8} (hInput : (encode tree).take place.offset <+: input) :
    Fails (⟨input⟩ : Buffer) (.nestingTooDeep maxDepth) (input.drop place.offset) := by
  have hMem : place ∈ tags tree := by simp [hTags]
  have hInside := (offset_of_mem_tagsAt hMem).2
  rw [Nat.zero_add] at hInside
  have hSorted : (tags tree).Pairwise (·.offset < ·.offset) := pairwise_tagsAt tree 0 0
  rw [hTags, List.pairwise_append, List.pairwise_cons] at hSorted
  obtain ⟨_, ⟨hAfter, _⟩, _⟩ := hSorted
  have hShallow : ∀ tag ∈ tags tree, tag.offset < 0 + place.offset → tag.depth ≤ maxDepth := by
    intro tag hTag hOffset
    rw [hTags, List.mem_append, List.mem_cons] at hTag
    rcases hTag with hTag | rfl | hTag
    · exact hBefore tag hTag
    · omega
    · have hBehind := hAfter tag hTag
      omega
  have hLimit : 0 + (maxDepth + 1) = maxDepth + 1 := Nat.zero_add _
  let source : Traced Buffer := ⟨⟨(encode tree).take place.offset⟩, #[]⟩
  obtain ⟨error, stopped, hRead, _, hError⟩ := (traverses_readNode _ 0 hLimit tree 0 hFits).cut
    place.offset hInside hShallow source rfl
  obtain ⟨rfl, hRest⟩ := hError ⟨place, hMem, (Nat.zero_add _).symm, hPlace⟩
  have hFront : Fails (⟨(encode tree).take place.offset⟩ : Buffer) (.nestingTooDeep maxDepth) [] :=
    fails_iff_readExpr.mpr ⟨stopped, hRead, hRest⟩
  -- The error is no shortage, so bytes behind the front part stay where they are.
  obtain ⟨more, rfl⟩ := hInput
  rw [List.drop_left' (List.length_take_of_le (Nat.le_of_lt hInside))]
  exact hFront.append_of_fault rfl more

/-- In the wire form of a tree that is too high, there is a first tag below the deepest level, and
the reader comes no further. -/
theorem exists_first_tag_below {tree : Expr} (hFits : FitsFields tree)
    (hHigh : maxDepth < tree.height) :
    ∃ place, (tags tree).find? (fun tag => tag.depth == maxDepth + 1) = some place ∧
      ∀ input, (encode tree).take place.offset <+: input →
        Fails (⟨input⟩ : Buffer) (.nestingTooDeep maxDepth) (input.drop place.offset) := by
  have hDescends := descends_tags hFits
  have hSteps := (List.isChain_map TagPlace.visit).mp hDescends.steps
  have hHead (tag : TagPlace) (hTag : tag ∈ (tags tree).head?) : tag.depth ≤ maxDepth + 1 := by
    have hRoot : tag.depth = 0 := hDescends.first tag.visit (by simpa using ⟨tag, hTag, rfl⟩)
    omega
  have hDeep : ∃ tag ∈ tags tree, maxDepth < tag.depth := by
    by_contra hNone
    simp only [not_exists, not_and, Nat.not_lt] at hNone
    exact absurd (forall_mem_tags_iff.mp hNone) (Nat.not_le_of_lt hHigh)
  obtain ⟨before, place, after, hTags, hPlace, hBefore⟩ := exists_first_below hSteps hHead hDeep
  have hFind : (tags tree).find? (fun tag => tag.depth == maxDepth + 1) = some place := by
    rw [List.find?_eq_some_iff_append]
    refine ⟨by simp [hPlace], before, after, hTags, fun tag hTag => ?_⟩
    have hShallow := hBefore tag hTag
    simp only [Bool.not_eq_true', beq_eq_false_iff_ne]
    omega
  exact ⟨place, hFind, fun input => fails_in_front_of_below hFits hTags hBefore (by omega)⟩

/-- A tree with a node below the deepest level is written but not read. The reader stops at the
tag that is the first one below that level in preorder. It has taken exactly the bytes in front of
it then, whatever follows them and even if nothing does. So what was written is read back when and
only when all nodes lie within the deepest level. -/
theorem refused_at_first_below {tree : Expr} (hFits : FitsFields tree) :
    ∃ bytes, toBytes tree = .ok bytes ∧
      ((∃ placed ∈ tree.outline, maxDepth < placed.depth) →
        ∃ place, (tags tree).find? (fun tag => tag.depth == maxDepth + 1) = some place ∧
          bytes[place.offset]? = some place.kind.tag ∧
          ∀ input, bytes.take place.offset <+: input →
            Fails (⟨input⟩ : Buffer) (.nestingTooDeep maxDepth) (input.drop place.offset) ∧
            Fails (⟨input⟩ : ByteStream) (.nestingTooDeep maxDepth) (input.drop place.offset)) ∧
      ofBytes bytes =
        if ∀ placed ∈ tree.outline, placed.depth ≤ maxDepth then .ok tree
        else .error (.nestingTooDeep maxDepth) := by
  refine ⟨encode tree, toBytes_eq_ok hFits, ?_, ?_⟩
  · intro ⟨placed, hPlaced, hDeep⟩
    have hHigh : maxDepth < tree.height := by
      by_contra hLow
      have hAll := forall_mem_outline_iff.mpr (Nat.le_of_not_lt hLow)
      exact absurd (hAll placed hPlaced) (Nat.not_le_of_lt hDeep)
    obtain ⟨place, hFind, hFails⟩ := exists_first_tag_below hFits hHigh
    obtain ⟨distance, hOffset, hByte⟩ :=
      standsAt_of_mem_tagsAt tree (List.mem_of_find?_eq_some hFind)
    rw [Nat.zero_add] at hOffset
    refine ⟨place, hFind, hOffset ▸ hByte, fun input hInput => ?_⟩
    have hBuffer := hFails input hInput
    exact ⟨hBuffer, hBuffer.of_fault rfl rfl⟩
  · simp only [forall_mem_outline_iff]
    split
    · rename_i hLow
      have hRead : Decodes (⟨encode tree⟩ : Buffer) tree [] :=
        decodes_encode hFits hLow (List.append_nil _).symm
      exact decodeAll_of_decodes hRead
    · rename_i hLow
      obtain ⟨place, _, hFails⟩ := exists_first_tag_below hFits (Nat.lt_of_not_le hLow)
      exact decodeAll_of_fails (hFails (encode tree) (List.take_prefix _ _))

/-- A sum of ones with the parentheses on the right. -/
def nestedSum : Nat → Expr
  | 0 => .constant ⟨.int32, "1"⟩
  | count + 1 => .binary .add (.constant ⟨.int32, "1"⟩) (nestedSum count)

/-- In a sum of 258 ones the last but one lies too deep. The reader stops in front of it, behind
256 operators with their left operands and one operator more. -/
theorem refused_at_first_below_nestedSum :
    FitsFields (nestedSum 257) ∧ (∃ placed ∈ (nestedSum 257).outline, maxDepth < placed.depth) ∧
    ∃ bytes, toBytes (nestedSum 257) = .ok bytes ∧
      Fails (⟨bytes.take 2049⟩ : Buffer) (.nestingTooDeep maxDepth) [] ∧
      Fails (⟨bytes⟩ : ByteStream) (.nestingTooDeep maxDepth) (bytes.drop 2049) ∧
      ofBytes bytes = .error (.nestingTooDeep maxDepth) := by
  have hFits : FitsFields (nestedSum 257) := by decide +kernel
  have hDeep : ∃ placed ∈ (nestedSum 257).outline, maxDepth < placed.depth := by decide +kernel
  have hFind : (tags (nestedSum 257)).find? (fun tag => tag.depth == maxDepth + 1) =
      some ⟨2049, 257, .constant⟩ := by decide +kernel
  obtain ⟨bytes, hBytes, hStop, hRefused⟩ := refused_at_first_below hFits
  obtain ⟨place, hPlace, _, hFails⟩ := hStop hDeep
  cases hFind.symm.trans hPlace
  have hNothing := (hFails (bytes.take 2049) (List.prefix_refl _)).1
  rw [List.drop_take_self] at hNothing
  rw [if_neg (by simpa using hDeep)] at hRefused
  exact ⟨hFits, hDeep, bytes, hBytes, hNothing, (hFails bytes (List.take_prefix _ _)).2, hRefused⟩

end PlanExpr.Wire
