import Mathlib.Data.List.Chain
import PlanExpr.Expr.Outline
import PlanExpr.Proofs.Wire.Extension

/-! The nodes that reading notes. A tree that was read has all its nodes noted in preorder. A read
that fails keeps what it has noted by then, and in any case no node lies more than one level below
the one that was noted before it. -/
namespace PlanExpr.Wire

variable {σ α β : Type}

/-- A read that adds an allowed sequence of nodes to those noted before, also when it fails. -/
def Notes (allowed : List Visit → Prop) (read : Reader (Traced σ) α) : Prop :=
  ∀ source, ∃ added,
    (finalSource (read source)).visits.toList = source.visits.toList ++ added ∧ allowed added

/-- A read that notes nothing. -/
abbrev Quiet (read : Reader (Traced σ) α) : Prop :=
  Notes (· = []) read

namespace Notes

variable {allowed behind total : List Visit → Prop}

theorem mono {read : Reader (Traced σ) α} (h : Notes allowed read)
    (hTotal : ∀ added, allowed added → total added) : Notes total read := by
  intro source
  obtain ⟨added, hAdded, hAllowed⟩ := h source
  exact ⟨added, hAdded, hTotal added hAllowed⟩

/-- Reads in sequence note what the first one notes and, unless it fails, what the second one
does behind it. -/
theorem bind {first : Reader (Traced σ) α} {next : α → Reader (Traced σ) β}
    (hFirst : Notes allowed first) (hNext : ∀ value, Notes behind (next value))
    (hStop : ∀ added, allowed added → total added)
    (hAppend : ∀ added more, allowed added → behind more → total (added ++ more)) :
    Notes total (first >>= next) := by
  intro source
  obtain ⟨added, hAdded, hAllowed⟩ := hFirst source
  cases hRead : first source with
  | error error middle =>
      rw [hRead] at hAdded
      rw [bind_of_error hRead]
      exact ⟨added, hAdded, hStop added hAllowed⟩
  | ok value middle =>
      obtain ⟨more, hMore, hBehind⟩ := hNext value middle
      rw [hRead] at hAdded
      rw [bind_of_ok hRead, hMore, show middle.visits.toList = _ from hAdded]
      exact ⟨added ++ more, List.append_assoc .., hAppend added more hAllowed hBehind⟩

theorem pure (value : α) (hNil : allowed []) :
    Notes allowed (pure value : Reader (Traced σ) α) :=
  fun source => ⟨[], (List.append_nil source.visits.toList).symm, hNil⟩

theorem throw (error : DecodeError) (hNil : allowed []) :
    Notes allowed (throw error : Reader (Traced σ) α) :=
  fun source => ⟨[], (List.append_nil source.visits.toList).symm, hNil⟩

theorem lift (read : Reader σ α) (hNil : allowed []) : Notes allowed (Traced.lift read) := by
  intro source
  refine ⟨[], ?_, hNil⟩
  unfold Traced.lift
  cases read source.source <;> simp [finalSource]

theorem note (kind : Kind) (depth : Nat) :
    Notes (· = [⟨kind, depth⟩]) (Traced.note kind depth : Reader (Traced σ) Unit) :=
  fun _ => ⟨[⟨kind, depth⟩], Array.toList_push, rfl⟩

end Notes

/-- Reads that note sequences of a kind that is closed under appending. -/
def noting (allowed : List Visit → Prop) (hNil : allowed [])
    (hAppend : ∀ added more, allowed added → allowed more → allowed (added ++ more)) :
    Correspondence (Traced σ) (Traced σ) where
  Related := fun read _ => Notes allowed read
  related_pure := fun value => Notes.pure value hNil
  related_bind := fun hFirst hNext => hFirst.bind hNext (fun _ => id) hAppend

section Fields

variable [ByteSource σ] {allowed : List Visit → Prop} {hNil : allowed []}
  {hAppend : ∀ added more, allowed added → allowed more → allowed (added ++ more)}

theorem noting_fields : (noting (σ := σ) allowed hNil hAppend).RelatesFields :=
  Correspondence.relatesFields (Notes.lift readByte hNil) (Notes.lift readWord hNil)
    (fun count => Notes.lift (readRaw count) hNil) fun error _ => Notes.throw error hNil

/-- Fields are read without noting anything. -/
theorem quiet_fields :
    (noting (σ := σ) (· = []) rfl fun _ _ hAdded hMore =>
      List.append_eq_nil_iff.mpr ⟨hAdded, hMore⟩).RelatesFields :=
  noting_fields

/-- Payloads note what their children may note, one child after the other. -/
theorem Notes.readPayload {child : Reader (Traced σ) Expr} (hChild : Notes allowed child)
    (hNil : allowed [])
    (hAppend : ∀ added more, allowed added → allowed more → allowed (added ++ more))
    (kind : Kind) : Notes allowed (readPayload child kind) := by
  have hRelated : (noting allowed hNil hAppend).Related child child := hChild
  exact noting_fields.readPayload hRelated kind

end Fields

/-- Nodes from a depth down to a limit, of which the first lies at that depth and every other one
at most one level below its predecessor. -/
structure Descends (depth limit : Nat) (visits : List Visit) : Prop where
  first : ∀ visit ∈ visits.head?, visit.depth = depth
  bounds : ∀ visit ∈ visits, depth ≤ visit.depth ∧ visit.depth ≤ limit
  steps : visits.IsChain fun visit next => next.depth ≤ visit.depth + 1

namespace Descends

variable {depth limit : Nat}

theorem nil : Descends depth limit [] :=
  ⟨nofun, nofun, .nil⟩

theorem append {visits more : List Visit} (h : Descends depth limit visits)
    (hMore : Descends depth limit more) : Descends depth limit (visits ++ more) where
  first := by
    cases visits with
    | nil => exact hMore.first
    | cons visit rest => exact h.first
  bounds := by
    intro visit hMem
    rcases List.mem_append.mp hMem with hMem | hMem
    · exact h.bounds visit hMem
    · exact hMore.bounds visit hMem
  steps := by
    refine List.isChain_append.mpr ⟨h.steps, hMore.steps, fun visit hLast next hHead => ?_⟩
    -- Coming back up to the depth is never a step down by more than one level.
    have hDepth := hMore.first next hHead
    have hBounds := h.bounds visit (List.mem_of_getLast? hLast)
    omega

theorem cons (kind : Kind) {below : List Visit} (hDepth : depth ≤ limit)
    (h : Descends (depth + 1) limit below) : Descends depth limit (⟨kind, depth⟩ :: below) where
  first := by simp
  bounds := by
    intro visit hMem
    rcases List.mem_cons.mp hMem with rfl | hMem
    · exact ⟨Nat.le_refl _, hDepth⟩
    · have hBounds := h.bounds visit hMem
      omega
  steps := by
    refine List.isChain_cons.mpr ⟨fun next hHead => ?_, h.steps⟩
    exact Nat.le_of_eq (h.first next hHead)

end Descends

/-- What is noted while one node is read: nothing, or the node and behind it nodes below it. -/
def DescendsFrom (depth limit : Nat) (visits : List Visit) : Prop :=
  visits = [] ∨ ∃ kind below, visits = ⟨kind, depth⟩ :: below ∧ depth ≤ limit ∧
    Descends (depth + 1) limit below

theorem DescendsFrom.descends {depth limit : Nat} {visits : List Visit}
    (h : DescendsFrom depth limit visits) : Descends depth limit visits := by
  rcases h with rfl | ⟨kind, below, rfl, hDepth, hBelow⟩
  · exact .nil
  · exact .cons kind hDepth hBelow

section Nodes

variable [ByteSource σ] {limit : Nat}

/-- Whatever the bytes are, reading a node notes nodes in descending steps. -/
theorem notes_readNode (levels depth : Nat) (hLimit : depth + levels = limit + 1) :
    Notes (DescendsFrom depth limit) (readNode levels depth : Reader (Traced σ) Expr) := by
  induction levels generalizing depth with
  | zero => exact Notes.throw _ (.inl rfl)
  | succ levels ih =>
      have hChild := (ih (depth + 1) (by omega)).mono fun _ => DescendsFrom.descends
      have hPayload (kind : Kind) :
          Notes (Descends (depth + 1) limit)
            (readPayload (readNode (σ := σ) levels (depth + 1)) kind) :=
        hChild.readPayload .nil (fun _ _ => .append) kind
      have hNode (kind : Kind) : Notes (DescendsFrom depth limit)
          (Traced.note kind depth >>= fun _ =>
            readPayload (readNode (σ := σ) levels (depth + 1)) kind) := by
        apply (Notes.note kind depth).bind fun _ => hPayload kind
        · rintro _ rfl
          exact .inr ⟨kind, [], rfl, by omega, .nil⟩
        · rintro _ below rfl hBelow
          exact .inr ⟨kind, below, rfl, by omega, hBelow⟩
      have hKind : Quiet (readKind : Reader (Traced σ) Kind) := quiet_fields.readKind
      apply hKind.bind hNode
      · rintro _ rfl
        exact .inl rfl
      · rintro _ more rfl hMore
        exact hMore

end Nodes

/-- The nodes of a tree in preorder as reading notes them, for a root at the given depth. -/
def visitsAt (depth : Nat) (tree : Expr) : List Visit :=
  (tree.outlineAt depth).map fun placed => ⟨placed.node.kind, placed.depth⟩

/-- The same for several trees one after the other. -/
def visitsAll (depth : Nat) (trees : List Expr) : List Visit :=
  (Expr.outlineAll depth trees).map fun placed => ⟨placed.node.kind, placed.depth⟩

@[simp] theorem visitsAll_nil (depth : Nat) : visitsAll depth [] = [] := rfl

theorem visitsAll_append (depth : Nat) (trees more : List Expr) :
    visitsAll depth (trees ++ more) = visitsAll depth trees ++ visitsAll depth more := by
  induction trees with
  | nil => rfl
  | cons first rest ih =>
      simp only [visitsAll, List.cons_append, Expr.outlineAll, List.map_append] at ih ⊢
      rw [ih, List.append_assoc]

theorem visitsAll_singleton (depth : Nat) (tree : Expr) :
    visitsAll depth [tree] = visitsAt depth tree := by
  simp [visitsAll, visitsAt, Expr.outlineAll]

/-- A read that, when it gives a value, has noted all that belongs to the value and was not noted
before the read. -/
def Completes (before : List Visit) (read : Reader (Traced σ) α) (visits : α → List Visit) : Prop :=
  ∀ source value after, read source = .ok value after →
    ∃ added, after.visits.toList = source.visits.toList ++ added ∧ visits value = before ++ added

namespace Completes

variable {before : List Visit} {visits : α → List Visit}

theorem pure {value : α} (h : visits value = before) :
    Completes before (pure value : Reader (Traced σ) α) visits := by
  intro source result after hRead
  cases hRead
  exact ⟨[], (List.append_nil _).symm, by rw [h, List.append_nil]⟩

theorem quiet {read : Reader (Traced σ) α} (h : Quiet read) : Completes [] read fun _ => [] := by
  intro source value after hRead
  obtain ⟨added, hAdded, rfl⟩ := h source
  rw [hRead] at hAdded
  exact ⟨[], hAdded, rfl⟩

theorem bind {first : Reader (Traced σ) β} {next : β → Reader (Traced σ) α}
    {firstVisits : β → List Visit} (hFirst : Completes [] first firstVisits)
    (hNext : ∀ value, Completes (before ++ firstVisits value) (next value) visits) :
    Completes before (first >>= next) visits := by
  intro source result after hRead
  obtain ⟨value, middle, hValue, hResult⟩ := bind_eq_ok.mp hRead
  obtain ⟨added, hAdded, hVisits⟩ := hFirst source value middle hValue
  obtain ⟨more, hMore, hTotal⟩ := hNext value middle result after hResult
  refine ⟨added ++ more, by rw [hMore, hAdded, List.append_assoc], ?_⟩
  rw [hTotal, hVisits, List.nil_append, List.append_assoc]

/-- A field in front of a read adds nothing to what the read completes. -/
theorem afterField {first : Reader (Traced σ) β} {next : β → Reader (Traced σ) α}
    (hFirst : Quiet first) (hNext : ∀ value, Completes before (next value) visits) :
    Completes before (first >>= next) visits :=
  (quiet hFirst).bind fun value => by
    rw [List.append_nil]
    exact hNext value

theorem map {read : Reader (Traced σ) β} {f : β → α}
    (h : Completes before read fun value => visits (f value)) :
    Completes before (read >>= fun value => Pure.pure (f value)) visits := by
  intro source result after hRead
  obtain ⟨value, middle, hValue, hPure⟩ := bind_eq_ok.mp hRead
  cases hPure
  exact h source value _ hValue

end Completes

section Trees

variable [ByteSource σ] {child : Reader (Traced σ) Expr} {depth : Nat}

/-- Arguments that are read one by one have their nodes noted one tree after the other. -/
theorem completes_readArguments (hChild : Completes [] child (visitsAt depth))
    (before : List Visit) : Completes before (readArguments child)
      (fun arguments => before ++ visitsAll depth arguments) := by
  have hLoop (count : Nat) (start : Array Expr) :
      Completes (before ++ visitsAll depth start.toList)
        (readRepeatedly (fun arguments => return arguments.push (← child)) count start)
        (fun arguments => before ++ visitsAll depth arguments.toList) := by
    induction count generalizing start with
    | zero => exact .pure rfl
    | succ count ih =>
        rw [readRepeatedly, bind_assoc]
        refine hChild.bind fun tree => ?_
        rw [pure_bind, List.append_assoc, ← visitsAll_singleton, ← visitsAll_append,
          ← Array.toList_push]
        exact ih (start.push tree)
  have hStart (count : Nat) := hLoop count #[]
  simp only [visitsAll_nil, List.append_nil] at hStart
  exact .afterField quiet_fields.readLength fun count => .map (f := Array.toList) (hStart count)

/-- Behind its own note, reading a node completes the nodes of the tree that it gives. -/
theorem completes_readPayload (hChild : Completes [] child (visitsAt (depth + 1))) (kind : Kind) :
    Completes [⟨kind, depth⟩] (readPayload child kind) (visitsAt depth) := by
  cases kind with
  | constant => exact .afterField quiet_fields.readConstant fun literal => .pure rfl
  | series => exact .afterField quiet_fields.readSeries fun column => .pure rfl
  | timestamp => exact .pure rfl
  | null => exact .pure rfl
  | binary op =>
      refine hChild.bind fun left => hChild.bind fun right => .pure ?_
      simp [visitsAt, Expr.outlineAt, Expr.kind]
  | not => exact hChild.bind fun operand => .pure rfl
  | negate => exact hChild.bind fun operand => .pure rfl
  | isNull =>
      exact hChild.bind fun operand => .afterField quiet_fields.readBool fun negated => .pure rfl
  | like =>
      exact hChild.bind fun operand => .afterField quiet_fields.readBool fun negated =>
        .afterField quiet_fields.readText fun pattern => .pure rfl
  | isIn =>
      exact hChild.bind fun operand => .afterField quiet_fields.readBool fun negated =>
        .afterField quiet_fields.readValues fun values => .pure rfl
  | call =>
      exact .afterField quiet_fields.readText fun name =>
        .afterField quiet_fields.readAttributes fun attributes =>
          .map (completes_readArguments hChild [⟨.call, depth⟩])

/-- A node that is read has its tree noted in preorder. -/
theorem completes_readNode (levels depth : Nat) :
    Completes [] (readNode levels depth : Reader (Traced σ) Expr) (visitsAt depth) := by
  induction levels generalizing depth with
  | zero => exact fun _ _ _ hRead => by cases hRead
  | succ levels ih =>
      refine .afterField quiet_fields.readKind fun kind => ?_
      have hNote : Completes [] (Traced.note kind depth : Reader (Traced σ) Unit)
          fun _ => [⟨kind, depth⟩] := by
        intro source value after hRead
        cases hRead
        exact ⟨[⟨kind, depth⟩], Array.toList_push, rfl⟩
      exact hNote.bind fun _ => completes_readPayload (ih (depth + 1)) kind

end Trees

end PlanExpr.Wire
