/-!
# MarkovCheck.CommandLine.Path

Paths as text, and the places that they lead to.

* `splitSlashes`  — the parts of a path between its slashes.
* `withExtension` — a path with another extension of its last part.
* `Place`         — an origin and the names on the way down from it.
-/

namespace MarkovCheck
namespace CommandLine

/-- Splits a text at every slash. -/
def splitSlashes : List Char → List (List Char)
  | [] => [[]]
  | '/' :: rest => [] :: splitSlashes rest
  | c :: rest =>
    match splitSlashes rest with
    | [] => [[c]]
    | part :: parts => (c :: part) :: parts

/-- Whether a part of a path leads nowhere: it is empty or a single dot. -/
def isIdle (part : List Char) : Bool := part == [] || part == ['.']

def isUp (part : List Char) : Bool := part == ['.', '.']

/-- The name of a file without its extension: up to the last dot, unless the name starts with that
dot. -/
def stem (name : List Char) : List Char :=
  match (name.reverse.dropWhile (· != '.')).drop 1 with
  | [] => name
  | before => before.reverse

/-- Gives the first part that leads somewhere another extension, and drops the parts before it. The
parts stand in reverse. -/
def extendFirst (extension : List Char) : List (List Char) → Option (List (List Char))
  | [] => none
  | part :: rest =>
    if isIdle part then extendFirst extension rest
    else if isUp part then none
    else some ((stem part ++ '.' :: extension) :: rest)

/-- Replaces the extension of the last part of a path. A path that ends in no name stays as it is. -/
def withExtension (path extension : String) : String :=
  match extendFirst extension.toList (splitSlashes path.toList).reverse with
  | none => path
  | some parts => String.ofList (['/'].intercalate parts.reverse)

/-- Where the way to a place starts: at the working directory, some levels above it, or at the root
of all directories. -/
inductive Origin where
  | above (levels : Nat)
  | root
deriving DecidableEq, Repr

def Origin.ofPath (path : String) : Origin :=
  if path.toList.head? == some '/' then .root else .above 0

/-- A place in the directories: an origin and the names on the way down from it. -/
structure Place where
  origin : Origin
  names : List String := []
deriving DecidableEq, Repr

namespace Place

def child (p : Place) (name : String) : Place := { p with names := p.names ++ [name] }

/-- The directory that holds a place. The root holds itself. -/
def parent (p : Place) : Place :=
  match p.names, p.origin with
  | [], .above levels => ⟨.above (levels + 1), []⟩
  | [], .root => p
  | names, origin => ⟨origin, names.dropLast⟩

/-- Whether the way to a place passes through another one. -/
def isBelow (p q : Place) : Bool :=
  p.origin = q.origin && q.names.isPrefixOf p.names && q.names.length < p.names.length

/-- The directory of a name is the one that the name was looked up in. -/
theorem parent_child (p : Place) (name : String) : (p.child name).parent = p := by
  obtain ⟨origin, names⟩ := p
  cases names with
  | nil => rfl
  | cons first rest =>
    simp only [child, parent, List.cons_append]
    rw [← List.cons_append, List.dropLast_concat]

end Place

/-- The longest name that a directory takes, in bytes. -/
def maxNameSize : Nat := 255

/-- The longest path that leads anywhere, in bytes. -/
def maxPathSize : Nat := 4095

end CommandLine
end MarkovCheck
