import MarkovCheck.CommandLine.Path

/-!
# MarkovCheck.CommandLine.Directory

The files that a run can read and write.

A path is followed part by part from its origin. Every part but the last must lead to a directory,
also where the next one leads up again.

* `Directory`         — the files in and around a working directory.
* `place?`            — the place that a path leads to.
* `file?`             — the content of a file.
* `read?`, `write?`   — what can be read at a path, and the directory with a file of new content.
-/

namespace MarkovCheck
namespace CommandLine

/-- The files in and around a working directory, by place. -/
structure Directory where
  files : List (Place × ByteArray)

namespace Directory

/-- The place of a file in the working directory or below it. -/
def placeBelow? (path : String) : Option Place :=
  let parts := splitSlashes path.toList
  if path.toList.head? == some '/' || parts.any isUp || (parts.getLast?.map isIdle).getD true then
    none
  else some ⟨.above 0, (parts.filter fun part => !isIdle part).map String.ofList⟩

/-- The files of the system that have no content: the null device, and the standard input of a run
that is given none. -/
def emptyDevices : List (Place × ByteArray) :=
  [(⟨.root, ["dev", "null"]⟩, .empty), (⟨.root, ["dev", "stdin"]⟩, .empty)]

/-- The directory with the given files by path. -/
def ofFiles (files : List (String × ByteArray)) : Directory :=
  ⟨emptyDevices ++
    files.filterMap fun (path, content) => (placeBelow? path).map fun place => (place, content)⟩

/-- The directories that every system has at its root. -/
def rootDirectories : List String :=
  ["bin", "boot", "dev", "etc", "home", "lib", "media", "mnt", "opt", "proc", "root", "run", "sbin",
    "srv", "sys", "tmp", "usr", "var"]

/-- Whether a place is a directory: an origin, one that every system has, or one with a file. -/
def isDirectory (d : Directory) (p : Place) : Bool :=
  p.names.isEmpty || (p.origin = .root && rootDirectories.any fun name => p.names == [name]) ||
    d.files.any fun f => f.1.isBelow p

/-- Follows one part of a path, which only a directory allows. -/
def follow? (d : Directory) (p : Place) (part : List Char) : Option Place :=
  if !d.isDirectory p then none
  else if isIdle part then some p
  else if isUp part then some p.parent
  else
    let name := String.ofList part
    if name.utf8ByteSize ≤ maxNameSize then some (p.child name) else none

/-- The place that a path leads to, whether or not anything is there. -/
def place? (d : Directory) (path : String) : Option Place :=
  if path.utf8ByteSize ≤ maxPathSize then
    (splitSlashes path.toList).foldlM d.follow? ⟨.ofPath path, []⟩
  else none

def file? (d : Directory) (path : String) : Option ByteArray :=
  (d.place? path).bind fun p => d.files.lookup p

/-- What can be read at a path. A directory can be opened, and nothing is in it to read. -/
def read? (d : Directory) (path : String) : Option ByteArray :=
  match d.place? path with
  | none => none
  | some p => if d.isDirectory p then some .empty else d.files.lookup p

/-- Whether new files may stand at a place: anywhere but in the directories of the system, of which
only one is open to all. -/
def isOpen (p : Place) : Bool := p.origin ≠ .root || p.names.head? == some "tmp"

def put (p : Place) (content : ByteArray) : List (Place × ByteArray) → List (Place × ByteArray)
  | [] => [(p, content)]
  | f :: rest => if f.1 = p then (p, content) :: rest else f :: put p content rest

/-- The directory with a file of new content, if the file can be written. -/
def write? (d : Directory) (path : String) (content : ByteArray) : Option Directory :=
  match d.place? path with
  | none => none
  | some p => if isOpen p && !d.isDirectory p then some ⟨put p content d.files⟩ else none

end Directory
end CommandLine
end MarkovCheck
