/-!
# MarkovCheck.Text.Names

Sets of names as ascending lists without repetition, in the order of code points.

* `insertName`, `unionNames`, `sortNames` — adding one name, many names, or those of any list.
-/

namespace MarkovCheck

/-- Inserts a name into an ascending list without repetition. -/
def insertName (x : String) : List String → List String
  | [] => [x]
  | y :: rest =>
    match compare x y with
    | .lt => x :: y :: rest
    | .eq => y :: rest
    | .gt => y :: insertName x rest

/-- Inserts the names of a list into an ascending list. -/
def unionNames (xs ys : List String) : List String := xs.foldr insertName ys

/-- The names of a list in ascending order, each once. -/
def sortNames (xs : List String) : List String := unionNames xs []

end MarkovCheck
