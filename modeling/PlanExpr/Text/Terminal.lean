/-! Text without the parts by which it would steer a terminal: control characters other than
white space, and the sequences that the escape character starts. The states are those in which
a terminal reads its input, as far as they differ in what is shown. -/
namespace PlanExpr.Text.Terminal

def isSpacing (c : Char) : Bool :=
  c == '\t' || c == '\n' || c == '\x0c' || c == '\r'

/-- The characters that stand between the start of a sequence and its end. -/
def isIntermediate (c : Char) : Bool :=
  ' ' ≤ c && c ≤ '/'

/-- The characters that spell the numbers of a sequence and separate them. -/
def isParameter (c : Char) : Bool :=
  '0' ≤ c && c ≤ ';'

/-- The characters that mark the numbers of a sequence as private. -/
def isPrivate (c : Char) : Bool :=
  '<' ≤ c && c ≤ '?'

/-- The characters that end a sequence which may have parameters. -/
def isFinal (c : Char) : Bool :=
  '@' ≤ c && c ≤ '~'

/-- Whether the byte that ends a string is among the bytes of a character. -/
def hasTerminator (c : Char) : Bool :=
  (String.utf8EncodeChar c).contains 0x9C

/-- What a terminal is in the middle of. -/
inductive State where
  | text
  /-- A sequence of which only the escape character is read. -/
  | escape
  /-- An escape sequence behind an intermediate character. -/
  | intermediate
  | control
  /-- A device control string of which nothing is read. -/
  | deviceEntry
  /-- A device control string behind a parameter. -/
  | deviceParameter
  /-- A device control string behind an intermediate character. -/
  | deviceIntermediate
  /-- A string up to the terminator, whatever it is for. -/
  | string
  /-- A command to the operating system up to the bell. -/
  | command
deriving DecidableEq, Repr

namespace State

/-- Whether a character is shown. Inside a sequence only white space is, and inside a string
nothing. -/
def shows (state : State) (c : Char) : Bool :=
  match state with
  | .text => isSpacing c || ' ' ≤ c && c != '\x7f'
  | .escape | .intermediate | .control => isSpacing c
  | .deviceEntry | .deviceParameter | .deviceIntermediate | .string | .command => false

/-- The state behind a character. The escape character starts a sequence anew, and the two
characters for cancelling end one. A character that has no meaning for a sequence changes
nothing. -/
def next (state : State) (c : Char) : State :=
  if c = '\x18' ∨ c = '\x1a' then .text
  else if c = '\x1b' then .escape
  else match state with
    | .text => .text
    | .escape =>
        if c = '[' then .control
        else if c = ']' then .command
        else if c = 'P' then .deviceEntry
        else if c = 'X' ∨ c = '^' ∨ c = '_' then .string
        else if isIntermediate c then .intermediate
        else if isParameter c || isPrivate c || isFinal c then .text
        else .escape
    | .intermediate =>
        if isParameter c || isPrivate c || isFinal c then .text else .intermediate
    | .control => if isFinal c then .text else .control
    | .deviceEntry =>
        if isIntermediate c then .deviceIntermediate
        else if isParameter c || isPrivate c then .deviceParameter
        else if isFinal c then .string
        else .deviceEntry
    | .deviceParameter =>
        if isIntermediate c then .deviceIntermediate
        else if isPrivate c || isFinal c then .string
        else .deviceParameter
    | .deviceIntermediate =>
        if isParameter c || isPrivate c || isFinal c then .string else .deviceIntermediate
    | .string => if hasTerminator c then .text else .string
    | .command => if c = '\x07' then .text else .command

end State

/-- The characters that are shown from a state on. White space inside a sequence breaks it
off: text `flows` from there as it does outside sequences, and the sequence goes on only at the
next character that is not shown, unless a character beyond ASCII came before and ended it. -/
def shownFrom (state : State) (flows : Bool) : List Char → List Char
  | [] => []
  | c :: rest =>
      if flows && State.text.shows c then
        c :: shownFrom (if c.toNat < 0x80 then state else .text) true rest
      else if state.shows c then
        c :: shownFrom (state.next c) true rest
      else
        shownFrom (state.next c) false rest

/-- What is left of a text for a reader who has no terminal. -/
def plain (text : String) : String :=
  String.ofList (shownFrom .text true text.toList)

/-- Nothing is added and nothing changes its place. -/
theorem shownFrom_sublist (state : State) (flows : Bool) (text : List Char) :
    (shownFrom state flows text).Sublist text := by
  induction text generalizing state flows with
  | nil => exact .refl _
  | cons c rest ih =>
      rw [shownFrom]
      split
      · exact (ih _ _).cons_cons c
      · split
        · exact (ih _ _).cons_cons c
        · exact (ih _ _).cons c

theorem shows_text_of_shows {state : State} {c : Char} (h : state.shows c) :
    State.text.shows c := by
  cases state <;> simp_all [State.shows]

theorem shows_of_mem_shownFrom {state : State} {flows : Bool} {text : List Char} {c : Char}
    (h : c ∈ shownFrom state flows text) : State.text.shows c := by
  induction text generalizing state flows with
  | nil => simp [shownFrom] at h
  | cons head rest ih =>
      rw [shownFrom] at h
      split at h
      · rename_i hFlows
        rcases List.mem_cons.1 h with rfl | hRest
        · simp_all
        · exact ih hRest
      · split at h
        · rename_i hShows
          rcases List.mem_cons.1 h with rfl | hRest
          · exact shows_text_of_shows hShows
          · exact ih hRest
        · exact ih h

/-- Text that has nothing to take away stays as it is. -/
theorem shownFrom_eq_self {text : List Char} (h : ∀ c ∈ text, State.text.shows c) :
    shownFrom .text true text = text := by
  induction text with
  | nil => rfl
  | cons c rest ih =>
      have hRest := ih fun c hc => h c (List.mem_cons_of_mem _ hc)
      simp [shownFrom, h c List.mem_cons_self, hRest]

theorem plain_plain (text : String) : plain (plain text) = plain text := by
  simp only [plain, String.toList_ofList]
  rw [shownFrom_eq_self fun c hc => shows_of_mem_shownFrom hc]

end PlanExpr.Text.Terminal
