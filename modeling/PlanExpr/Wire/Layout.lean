import PlanExpr.Expr.Outline
import PlanExpr.Wire.Encode

namespace PlanExpr.Wire

/-- Where a tag stands in a wire form, and the kind and depth of the node that it starts. -/
structure TagPlace where
  offset : Nat
  depth : Nat
  kind : Kind
deriving DecidableEq, Repr

mutual

/-- The tags in the wire form of a tree, in the order in which they stand there, for a root at
the given depth whose own tag is at the given offset. -/
def tagsAt (depth offset : Nat) : Expr → List TagPlace
  | .constant _ => [⟨offset, depth, .constant⟩]
  | .series _ => [⟨offset, depth, .series⟩]
  | .timestamp => [⟨offset, depth, .timestamp⟩]
  | .null => [⟨offset, depth, .null⟩]
  | .binary op left right =>
      ⟨offset, depth, .binary op⟩ ::
        (tagsAt (depth + 1) (offset + 1) left ++
          tagsAt (depth + 1) (offset + 1 + (encode left).length) right)
  | .not operand => ⟨offset, depth, .not⟩ :: tagsAt (depth + 1) (offset + 1) operand
  | .negate operand => ⟨offset, depth, .negate⟩ :: tagsAt (depth + 1) (offset + 1) operand
  | .isNull operand _ => ⟨offset, depth, .isNull⟩ :: tagsAt (depth + 1) (offset + 1) operand
  | .like operand .. => ⟨offset, depth, .like⟩ :: tagsAt (depth + 1) (offset + 1) operand
  | .isIn operand .. => ⟨offset, depth, .isIn⟩ :: tagsAt (depth + 1) (offset + 1) operand
  | .call name attributes arguments =>
      ⟨offset, depth, .call⟩ ::
        tagsEach (depth + 1)
          (offset + 1 + (encodeText name).length + (encodeAttributes attributes.entries).length +
            (encodeLength arguments.length).length)
          arguments

/-- The tags in the wire forms of several trees that stand one after the other. -/
def tagsEach (depth offset : Nat) : List Expr → List TagPlace
  | [] => []
  | first :: rest =>
      tagsAt depth offset first ++ tagsEach depth (offset + (encode first).length) rest

end

def tags (tree : Expr) : List TagPlace :=
  tagsAt 0 0 tree

mutual

/-- Tags stand on the wire in preorder, one for each node. -/
theorem tagsAt_map_visit : (tree : Expr) → (depth offset : Nat) →
    (tagsAt depth offset tree).map (fun tag => (tag.kind, tag.depth)) =
      (tree.outlineAt depth).map fun placed => (placed.node.kind, placed.depth)
  | .constant _, _, _ | .series _, _, _ | .timestamp, _, _ | .null, _, _ => rfl
  | .binary _ left right, depth, offset => by
      simp [tagsAt, Expr.outlineAt, Expr.kind, tagsAt_map_visit left, tagsAt_map_visit right]
  | .not operand, _, _ | .negate operand, _, _ => by
      simp [tagsAt, Expr.outlineAt, Expr.kind, tagsAt_map_visit operand]
  | .isNull operand _, _, _ | .like operand .., _, _ | .isIn operand .., _, _ => by
      simp [tagsAt, Expr.outlineAt, Expr.kind, tagsAt_map_visit operand]
  | .call _ _ arguments, _, _ => by
      simp [tagsAt, Expr.outlineAt, Expr.kind, tagsEach_map_visit arguments]

theorem tagsEach_map_visit : (trees : List Expr) → (depth offset : Nat) →
    (tagsEach depth offset trees).map (fun tag => (tag.kind, tag.depth)) =
      (Expr.outlineAll depth trees).map fun placed => (placed.node.kind, placed.depth)
  | [], _, _ => rfl
  | first :: rest, depth, offset => by
      simp [tagsEach, Expr.outlineAll, tagsAt_map_visit first, tagsEach_map_visit rest]

end

/-- The byte at a distance behind an offset, in bytes that start at that offset. -/
def StandsAt (bytes : List UInt8) (start : Nat) (tag : TagPlace) : Prop :=
  ∃ distance, tag.offset = start + distance ∧ bytes[distance]? = some tag.kind.tag

theorem StandsAt.append_right {bytes : List UInt8} {start : Nat} {tag : TagPlace}
    (h : StandsAt bytes start tag) (tail : List UInt8) : StandsAt (bytes ++ tail) start tag := by
  obtain ⟨distance, hOffset, hByte⟩ := h
  have hLt := (List.getElem?_eq_some_iff.mp hByte).1
  exact ⟨distance, hOffset, by rw [List.getElem?_append_left hLt, hByte]⟩

theorem StandsAt.append_left {bytes : List UInt8} {start : Nat} {tag : TagPlace}
    (front : List UInt8) (h : StandsAt bytes (start + front.length) tag) :
    StandsAt (front ++ bytes) start tag := by
  obtain ⟨distance, hOffset, hByte⟩ := h
  refine ⟨front.length + distance, by omega, ?_⟩
  rw [List.getElem?_append_right (by omega), Nat.add_sub_cancel_left, hByte]

theorem standsAt_root {bytes : List UInt8} {start depth : Nat} (kind : Kind) :
    StandsAt (kind.tag :: bytes) start ⟨start, depth, kind⟩ :=
  ⟨0, rfl, rfl⟩

theorem StandsAt.cons {bytes : List UInt8} {start : Nat} {tag : TagPlace} (byte : UInt8)
    (h : StandsAt bytes (start + 1) tag) : StandsAt (byte :: bytes) start tag :=
  StandsAt.append_left [byte] h

mutual

/-- Every tag place points at its tag in the wire form. -/
theorem standsAt_of_mem_tagsAt : (tree : Expr) → {depth start : Nat} → {tag : TagPlace} →
    tag ∈ tagsAt depth start tree → StandsAt (encode tree) start tag
  | .constant _, _, _, _, h => by
      rw [tagsAt, List.mem_singleton] at h
      exact h ▸ standsAt_root _
  | .series _, _, _, _, h => by
      rw [tagsAt, List.mem_singleton] at h
      exact h ▸ standsAt_root _
  | .timestamp, _, _, _, h => by
      rw [tagsAt, List.mem_singleton] at h
      exact h ▸ standsAt_root _
  | .null, _, _, _, h => by
      rw [tagsAt, List.mem_singleton] at h
      exact h ▸ standsAt_root _
  | .binary _ left right, depth, start, tag, h => by
      rw [tagsAt, List.mem_cons, List.mem_append] at h
      rw [encode]
      rcases h with rfl | hLeft | hRight
      · exact standsAt_root _
      · exact .cons _ ((standsAt_of_mem_tagsAt left hLeft).append_right _)
      · exact .cons _ (.append_left _ (standsAt_of_mem_tagsAt right hRight))
  | .not operand, _, _, _, h => by
      rw [tagsAt, List.mem_cons] at h
      rw [encode]
      rcases h with rfl | h
      · exact standsAt_root _
      · exact .cons _ (standsAt_of_mem_tagsAt operand h)
  | .negate operand, _, _, _, h => by
      rw [tagsAt, List.mem_cons] at h
      rw [encode]
      rcases h with rfl | h
      · exact standsAt_root _
      · exact .cons _ (standsAt_of_mem_tagsAt operand h)
  | .isNull operand _, _, _, _, h => by
      rw [tagsAt, List.mem_cons] at h
      rw [encode]
      rcases h with rfl | h
      · exact standsAt_root _
      · exact .cons _ ((standsAt_of_mem_tagsAt operand h).append_right _)
  | .like operand _ _, _, _, _, h => by
      rw [tagsAt, List.mem_cons] at h
      rw [encode]
      rcases h with rfl | h
      · exact standsAt_root _
      · exact .cons _ ((standsAt_of_mem_tagsAt operand h).append_right _)
  | .isIn operand _ _, _, _, _, h => by
      rw [tagsAt, List.mem_cons] at h
      rw [encode]
      rcases h with rfl | h
      · exact standsAt_root _
      · exact .cons _ ((standsAt_of_mem_tagsAt operand h).append_right _)
  | .call _ _ arguments, _, _, _, h => by
      rw [tagsAt, List.mem_cons] at h
      rw [encode]
      rcases h with rfl | h
      · exact standsAt_root _
      · exact .cons _ (.append_left _ (.append_left _ (.append_left _
          (standsAt_of_mem_tagsEach arguments h))))

theorem standsAt_of_mem_tagsEach : (trees : List Expr) → {depth start : Nat} → {tag : TagPlace} →
    tag ∈ tagsEach depth start trees → StandsAt (encodeEach trees) start tag
  | [], _, _, _, h => by simp [tagsEach] at h
  | first :: rest, _, _, _, h => by
      rw [tagsEach, List.mem_append] at h
      rw [encodeEach]
      rcases h with hFirst | hRest
      · exact (standsAt_of_mem_tagsAt first hFirst).append_right _
      · exact .append_left _ (standsAt_of_mem_tagsEach rest hRest)

end

theorem StandsAt.offset_bounds {bytes : List UInt8} {start : Nat} {tag : TagPlace}
    (h : StandsAt bytes start tag) : start ≤ tag.offset ∧ tag.offset < start + bytes.length := by
  obtain ⟨distance, hOffset, hByte⟩ := h
  have hDistance := (List.getElem?_eq_some_iff.mp hByte).1
  omega

/-- A tag of a tree stands within the wire form of the tree. -/
theorem offset_of_mem_tagsAt {tree : Expr} {depth start : Nat} {tag : TagPlace}
    (h : tag ∈ tagsAt depth start tree) :
    start ≤ tag.offset ∧ tag.offset < start + (encode tree).length :=
  (standsAt_of_mem_tagsAt tree h).offset_bounds

theorem offset_of_mem_tagsEach {trees : List Expr} {depth start : Nat} {tag : TagPlace}
    (h : tag ∈ tagsEach depth start trees) : start ≤ tag.offset :=
  (standsAt_of_mem_tagsEach trees h).offset_bounds.1

mutual

/-- Tags are listed in the order in which they stand on the wire. -/
theorem pairwise_tagsAt : (tree : Expr) → (depth start : Nat) →
    (tagsAt depth start tree).Pairwise (·.offset < ·.offset)
  | .constant _, _, _ | .series _, _, _ | .timestamp, _, _ | .null, _, _ =>
      List.pairwise_singleton ..
  | .binary _ left right, depth, start => by
      rw [tagsAt, List.pairwise_cons, List.pairwise_append]
      refine ⟨fun tag hMem => ?_, pairwise_tagsAt left .., pairwise_tagsAt right .., ?_⟩
      · rcases List.mem_append.mp hMem with hLeft | hRight
        · exact (offset_of_mem_tagsAt hLeft).1
        · have hOffset := (offset_of_mem_tagsAt hRight).1
          simp only
          omega
      · intro tag hLeft next hRight
        exact Nat.lt_of_lt_of_le (offset_of_mem_tagsAt hLeft).2 (offset_of_mem_tagsAt hRight).1
  | .not operand, _, _ | .negate operand, _, _ =>
      List.pairwise_cons.mpr
        ⟨fun _ hMem => (offset_of_mem_tagsAt hMem).1, pairwise_tagsAt operand ..⟩
  | .isNull operand _, _, _ | .like operand .., _, _ | .isIn operand .., _, _ =>
      List.pairwise_cons.mpr
        ⟨fun _ hMem => (offset_of_mem_tagsAt hMem).1, pairwise_tagsAt operand ..⟩
  | .call _ _ arguments, _, _ => by
      rw [tagsAt, List.pairwise_cons]
      refine ⟨fun tag hMem => ?_, pairwise_tagsEach arguments ..⟩
      have hOffset := offset_of_mem_tagsEach hMem
      simp only
      omega

theorem pairwise_tagsEach : (trees : List Expr) → (depth start : Nat) →
    (tagsEach depth start trees).Pairwise (·.offset < ·.offset)
  | [], _, _ => List.Pairwise.nil
  | first :: rest, depth, start => by
      rw [tagsEach, List.pairwise_append]
      refine ⟨pairwise_tagsAt first .., pairwise_tagsEach rest .., fun tag hFirst next hRest => ?_⟩
      exact Nat.lt_of_lt_of_le (offset_of_mem_tagsAt hFirst).2 (offset_of_mem_tagsEach hRest)

end

mutual

/-- No tag lies below a limit when the tag of the deepest node does not. -/
theorem forall_mem_tagsAt_iff {limit : Nat} : (tree : Expr) → (depth start : Nat) →
    ((∀ tag ∈ tagsAt depth start tree, tag.depth ≤ limit) ↔ depth + tree.height ≤ limit)
  | .constant _, _, _ | .series _, _, _ | .timestamp, _, _ | .null, _, _ => by
      simp [tagsAt, Expr.height]
  | .binary _ left right, depth, start => by
      simp only [tagsAt, Expr.height, List.forall_mem_cons, List.forall_mem_append,
        forall_mem_tagsAt_iff left, forall_mem_tagsAt_iff right]
      omega
  | .not operand, _, _ | .negate operand, _, _ => by
      simp only [tagsAt, Expr.height, List.forall_mem_cons, forall_mem_tagsAt_iff operand]
      omega
  | .isNull operand _, _, _ | .like operand .., _, _ | .isIn operand .., _, _ => by
      simp only [tagsAt, Expr.height, List.forall_mem_cons, forall_mem_tagsAt_iff operand]
      omega
  | .call _ _ arguments, depth, _ => by
      rw [tagsAt, Expr.height, List.forall_mem_cons]
      exact forall_mem_tagsEach_iff arguments depth _

theorem forall_mem_tagsEach_iff {limit : Nat} : (trees : List Expr) → (depth start : Nat) →
    ((depth ≤ limit ∧ ∀ tag ∈ tagsEach (depth + 1) start trees, tag.depth ≤ limit) ↔
      depth + Expr.levels trees ≤ limit)
  | [], _, _ => by simp [tagsEach, Expr.levels]
  | first :: rest, depth, start => by
      rw [tagsEach, Expr.levels, List.forall_mem_append, forall_mem_tagsAt_iff first, and_left_comm,
        forall_mem_tagsEach_iff rest]
      omega

end

theorem forall_mem_tags_iff {tree : Expr} {limit : Nat} :
    (∀ tag ∈ tags tree, tag.depth ≤ limit) ↔ tree.height ≤ limit := by
  rw [tags, forall_mem_tagsAt_iff, Nat.zero_add]

/-- The nodes of a tree lie where their tags do. -/
theorem forall_mem_outline_iff {tree : Expr} {limit : Nat} :
    (∀ placed ∈ tree.outline, placed.depth ≤ limit) ↔ tree.height ≤ limit := by
  have hDepths := congrArg (List.map Prod.snd) (tagsAt_map_visit tree 0 0)
  rw [List.map_map, List.map_map] at hDepths
  calc
    _ ↔ ∀ depth ∈ tree.outline.map Expr.Placed.depth, depth ≤ limit := List.forall_mem_map.symm
    _ ↔ ∀ depth ∈ (tags tree).map TagPlace.depth, depth ≤ limit := by
      rw [show (tags tree).map TagPlace.depth = _ from hDepths]
      rfl
    _ ↔ ∀ tag ∈ tags tree, tag.depth ≤ limit := List.forall_mem_map
    _ ↔ tree.height ≤ limit := forall_mem_tags_iff

end PlanExpr.Wire
