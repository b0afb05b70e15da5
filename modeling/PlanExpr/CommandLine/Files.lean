/-! Files as a run of the program sees them. A tree in memory answers reads with the bytes and
the failures of an operating system, so a run is a function of its surroundings. -/
namespace PlanExpr.CommandLine

/-- Why a file or standard input gave no bytes, with the words of the operating system. -/
structure ReadFailure where
  reason : String
  code : Nat
deriving DecidableEq, Repr

namespace ReadFailure

def text (failure : ReadFailure) : String :=
  s!"{failure.reason} (os error {failure.code})"

def notFound : ReadFailure := ⟨"No such file or directory", 2⟩

/-- The path leads through a file. -/
def notDirectory : ReadFailure := ⟨"Not a directory", 20⟩

def isDirectory : ReadFailure := ⟨"Is a directory", 21⟩

/-- The path or one of its names is longer than any that can exist. -/
def nameTooLong : ReadFailure := ⟨"File name too long", 36⟩

/-- The one who runs the program may not read the file. -/
def permissionDenied : ReadFailure := ⟨"Permission denied", 13⟩

/-- The failure with a number. For a number without a name here the given words stand. -/
def ofNumber (number : Nat) (reason : String) : ReadFailure :=
  let named := [notFound, permissionDenied, notDirectory, isDirectory, nameTooLong]
  (named.find? fun failure => failure.code == number).getD ⟨reason, number⟩

end ReadFailure

/-- The names that lead from the root of a tree to a place in it. -/
abbrev Place := List String

inductive Entry where
  | directory
  | file (bytes : List UInt8)
  /-- A device through which standard input is read. -/
  | standardInput
deriving DecidableEq, Repr

/-- A tree of files. The root is a directory without being listed, and every directory on the
way to a listed place is meant to be listed too. Relative paths begin at `start`. -/
structure FileTree where
  entries : List (Place × Entry)
  start : Place
deriving Repr

namespace FileTree

/-- The bytes that a single name may have. -/
def maxNameLength : Nat := 255

/-- The bytes that a path may have. -/
def maxPathLength : Nat := 4095

def lookup? (tree : FileTree) (place : Place) : Option Entry :=
  if place = [] then some .directory else tree.entries.lookup place

/-- Follows names from a place. An empty name and one dot stay where they are, and two dots go
to the directory above, which for the root is the root. All of them, like any other name, need a
directory to start from. -/
def walk (tree : FileTree) (place : Place) : List String → Except ReadFailure Entry
  | [] =>
      match tree.lookup? place with
      | some entry => .ok entry
      | none => .error .notFound
  | name :: names =>
      match tree.lookup? place with
      | some .directory =>
          if name = "" ∨ name = "." then tree.walk place names
          else if name = ".." then tree.walk place.dropLast names
          else if maxNameLength < name.utf8ByteSize then .error .nameTooLong
          else tree.walk (place ++ [name]) names
      | some _ => .error .notDirectory
      | none => .error .notFound

def find (tree : FileTree) (path : String) : Except ReadFailure Entry :=
  if path = "" then .error .notFound
  else if maxPathLength < path.utf8ByteSize then .error .nameTooLong
  else tree.walk (if path.startsWith "/" then [] else tree.start) (path.splitOn "/")

/-- A tree with the directories and devices that a system has in any case. Relative paths begin
at a directory without entries. -/
def bare : FileTree where
  entries :=
    [["bin"], ["boot"], ["dev"], ["dev", "fd"], ["dev", "pts"], ["dev", "shm"], ["etc"], ["home"],
      ["lib"], ["media"], ["mnt"], ["opt"], ["proc"], ["proc", "self"], ["proc", "self", "fd"],
      ["root"], ["run"], ["sbin"], ["srv"], ["sys"], ["tmp"], ["usr"], ["usr", "bin"],
      ["usr", "include"], ["usr", "lib"], ["usr", "local"], ["usr", "local", "bin"],
      ["usr", "sbin"], ["usr", "share"], ["var"], ["var", "cache"], ["var", "lib"], ["var", "log"],
      ["var", "tmp"]].map (·, .directory) ++
    [(["dev", "null"], .file []), (["dev", "stdin"], .standardInput),
      (["dev", "fd", "0"], .standardInput), (["proc", "self", "fd", "0"], .standardInput)]
  start := ["tmp"]

@[simp] theorem lookup?_root (tree : FileTree) : tree.lookup? [] = some .directory := by
  simp [lookup?]

theorem walk_root_above (tree : FileTree) (names : List String) :
    tree.walk [] (".." :: names) = tree.walk [] names := by
  simp [walk]

/-- No path leads through what is not a directory. -/
theorem walk_through {tree : FileTree} {place : Place} {entry : Entry}
    (h : tree.lookup? place = some entry) (hEntry : entry ≠ .directory)
    (name : String) (names : List String) :
    tree.walk place (name :: names) = .error .notDirectory := by
  cases entry <;> simp_all [walk]

end FileTree

/-- What a run finds around it: files and the bytes of standard input. -/
structure Surroundings where
  files : FileTree
  input : List UInt8

/-- The bytes at a path, or those of standard input without a path. -/
def Surroundings.fetch (surroundings : Surroundings) :
    Option String → Except ReadFailure (List UInt8)
  | none => .ok surroundings.input
  | some path =>
      match surroundings.files.find path with
      | .ok .directory => .error .isDirectory
      | .ok (.file bytes) => .ok bytes
      | .ok .standardInput => .ok surroundings.input
      | .error failure => .error failure

end PlanExpr.CommandLine
