import PlanExpr.Wire.Decode
import PlanExpr.Wire.Grammar

/-! When a read accepts exactly the forms of a relation. The law is an equivalence that leaves
the bytes behind the form open, so it carries over to reads in sequence. -/
namespace PlanExpr.Wire

variable {σ α β ι : Type}

theorem bind_of_ok {first : Reader σ α} {next : α → Reader σ β} {source middle : σ} {value : α}
    (h : first source = .ok value middle) : (first >>= next) source = next value middle := by
  change EStateM.bind first next source = _
  unfold EStateM.bind
  rw [h]

theorem bind_of_error {first : Reader σ α} {next : α → Reader σ β} {source middle : σ}
    {error : DecodeError} (h : first source = .error error middle) :
    (first >>= next) source = .error error middle := by
  change EStateM.bind first next source = _
  unfold EStateM.bind
  rw [h]

/-- A run of two reads is a run of the first and, from where it ended, one of the second. -/
theorem bind_eq_ok {first : Reader σ α} {next : α → Reader σ β} {source after : σ} {result : β} :
    (first >>= next) source = .ok result after ↔
      ∃ value middle, first source = .ok value middle ∧ next value middle = .ok result after := by
  cases hFirst : first source with
  | error error middle =>
      rw [bind_of_error hFirst]
      simp
  | ok value middle =>
      rw [bind_of_ok hFirst]
      constructor
      · intro h
        exact ⟨value, middle, rfl, h⟩
      · intro hParts
        obtain ⟨_, _, hOk, hNext⟩ := hParts
        cases hOk
        exact hNext

variable [ByteSource σ]

/-- A read gives a value and leaves a rest exactly when the unread bytes are a form of this
value and behind it the rest. Nothing is said about reads that fail. -/
def Recognizes (read : Reader σ α) (form : α → List UInt8 → Prop) : Prop :=
  ∀ (source : σ) (value : α) (rest : List UInt8),
    (∃ after, read source = .ok value after ∧ unread after = rest) ↔
      ∃ bytes, unread source = bytes ++ rest ∧ form value bytes

namespace Recognizes

theorem congr {read : Reader σ α} {form other : α → List UInt8 → Prop}
    (h : Recognizes read form) (hForm : ∀ value bytes, form value bytes ↔ other value bytes) :
    Recognizes read other := by
  intro source value rest
  rw [h source value rest]
  exact exists_congr fun bytes => and_congr_right' (hForm value bytes)

/-- Forms of a read are unambiguous and none of them continues another. -/
theorem unique {read : Reader σ α} {form : α → List UInt8 → Prop} (h : Recognizes read form)
    {source : σ} {value other : α} {bytes bytes' rest rest' : List UInt8}
    (hUnread : unread source = bytes ++ rest) (hForm : form value bytes)
    (hUnread' : unread source = bytes' ++ rest') (hForm' : form other bytes') :
    value = other ∧ bytes = bytes' ∧ rest = rest' := by
  obtain ⟨after, hRead, rfl⟩ := (h source value rest).mpr ⟨bytes, hUnread, hForm⟩
  obtain ⟨after', hRead', rfl⟩ := (h source other rest').mpr ⟨bytes', hUnread', hForm'⟩
  rw [hRead] at hRead'
  cases hRead'
  rw [hUnread] at hUnread'
  exact ⟨rfl, List.append_cancel_right hUnread', rfl⟩

theorem pure (value : α) :
    Recognizes (pure value : Reader σ α) (fun result bytes => result = value ∧ bytes = []) := by
  intro source result rest
  constructor
  · intro hRun
    obtain ⟨after, hRead, rfl⟩ := hRun
    cases hRead
    exact ⟨[], rfl, rfl, rfl⟩
  · intro hParts
    obtain ⟨bytes, hUnread, rfl, rfl⟩ := hParts
    exact ⟨source, rfl, hUnread⟩

theorem throw (error : DecodeError) :
    Recognizes (throw error : Reader σ α) (fun _ _ => False) := by
  intro source result rest
  constructor
  · intro hRun
    obtain ⟨after, hRead, _⟩ := hRun
    cases hRead
  · intro hParts
    obtain ⟨_, _, hFalse⟩ := hParts
    exact hFalse.elim

/-- Forms of reads in sequence stand one behind the other. -/
theorem bind {first : Reader σ α} {next : α → Reader σ β} {form : α → List UInt8 → Prop}
    {nextForm : α → β → List UInt8 → Prop} (hFirst : Recognizes first form)
    (hNext : ∀ value, Recognizes (next value) (nextForm value)) :
    Recognizes (first >>= next) (fun result bytes =>
      ∃ value front back, bytes = front ++ back ∧ form value front ∧
        nextForm value result back) := by
  intro source result rest
  constructor
  · intro hRun
    obtain ⟨after, hRead, hRest⟩ := hRun
    obtain ⟨value, middle, hValue, hResult⟩ := bind_eq_ok.mp hRead
    obtain ⟨front, hFront, hForm⟩ := (hFirst source value _).mp ⟨middle, hValue, rfl⟩
    obtain ⟨back, hBack, hNextForm⟩ := (hNext value middle result rest).mp ⟨after, hResult, hRest⟩
    exact ⟨front ++ back, by rw [hFront, hBack, List.append_assoc], value, front, back, rfl,
      hForm, hNextForm⟩
  · intro hParts
    obtain ⟨bytes, hUnread, value, front, back, rfl, hForm, hNextForm⟩ := hParts
    rw [List.append_assoc] at hUnread
    obtain ⟨middle, hValue, hMiddle⟩ := (hFirst source value _).mpr ⟨front, hUnread, hForm⟩
    obtain ⟨after, hResult, hRest⟩ := (hNext value middle result rest).mpr ⟨back, hMiddle, hNextForm⟩
    exact ⟨after, bind_eq_ok.mpr ⟨value, middle, hValue, hResult⟩, hRest⟩

/-- A check of what was read takes nothing more: it passes a value on or fails. -/
theorem check {first : Reader σ α} {next : α → Reader σ β} {form : α → List UInt8 → Prop}
    (hFirst : Recognizes first form) (accepts : α → β → Prop)
    (hNext : ∀ value,
      (∃ result, next value = Pure.pure result ∧ ∀ other, accepts value other ↔ other = result) ∨
        (∃ error, next value = MonadExcept.throw error ∧ ∀ other, ¬accepts value other)) :
    Recognizes (first >>= next) (fun result bytes =>
      ∃ value, form value bytes ∧ accepts value result) := by
  have hStep (value : α) : Recognizes (next value)
      (fun result bytes => accepts value result ∧ bytes = []) := by
    rcases hNext value with ⟨result, hPure, hAccepts⟩ | ⟨error, hThrow, hRejects⟩
    · rw [hPure]
      exact (Recognizes.pure result).congr fun other bytes => and_congr_left' (hAccepts other).symm
    · rw [hThrow]
      exact (Recognizes.throw error).congr fun other bytes =>
        ⟨False.elim, fun h => hRejects other h.1⟩
  refine (hFirst.bind hStep).congr fun result bytes => ?_
  constructor
  · intro hParts
    obtain ⟨value, front, back, rfl, hForm, hAccepts, rfl⟩ := hParts
    exact ⟨value, by rwa [List.append_nil], hAccepts⟩
  · intro hParts
    obtain ⟨value, hForm, hAccepts⟩ := hParts
    exact ⟨value, bytes, [], (List.append_nil bytes).symm, hForm, hAccepts, rfl⟩

theorem map {read : Reader σ α} {form : α → List UInt8 → Prop} (h : Recognizes read form)
    (f : α → β) : Recognizes (read >>= fun value => Pure.pure (f value)) (fun result bytes =>
      ∃ value, form value bytes ∧ result = f value) :=
  h.check (fun value result => result = f value) fun _ => .inl ⟨_, rfl, fun _ => Iff.rfl⟩

/-- A counted loop whose step reads one item and adds it accepts that many items one after the
other, and gives what adding them in order gives. -/
theorem readRepeatedly {step : β → Reader σ β} {item : ι → List UInt8 → Prop} (add : β → ι → β)
    (hStep : ∀ value, Recognizes (step value) (fun next bytes =>
      ∃ one, item one bytes ∧ next = add value one)) (count : Nat) (start : β) :
    Recognizes (readRepeatedly step count start) (fun final bytes =>
      ∃ items, items.length = count ∧ ListForm item items bytes ∧ final = items.foldl add start) := by
  induction count generalizing start with
  | zero =>
      refine (Recognizes.pure start).congr fun final bytes => ?_
      constructor
      · intro hParts
        obtain ⟨rfl, rfl⟩ := hParts
        exact ⟨[], rfl, .nil, rfl⟩
      · intro hParts
        obtain ⟨items, hLength, hItems, hFinal⟩ := hParts
        obtain rfl := List.eq_nil_of_length_eq_zero hLength
        cases hItems
        exact ⟨hFinal, rfl⟩
  | succ count ih =>
      refine ((hStep start).bind ih).congr fun final bytes => ?_
      constructor
      · intro hParts
        obtain ⟨_, front, back, rfl, ⟨one, hOne, rfl⟩, items, hLength, hItems, hFinal⟩ := hParts
        exact ⟨one :: items, by rw [List.length_cons, hLength], .cons hOne hItems, hFinal⟩
      · intro hParts
        obtain ⟨items, hLength, hItems, hFinal⟩ := hParts
        cases hItems with
        | nil => cases hLength
        | cons hOne hItems =>
            exact ⟨_, _, _, rfl, ⟨_, hOne, rfl⟩, _, Nat.succ.inj hLength, hItems, hFinal⟩

end Recognizes

end PlanExpr.Wire
