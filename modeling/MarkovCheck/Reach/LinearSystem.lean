import MarkovCheck.Value.Basic

/-!
# MarkovCheck.Reach.LinearSystem

Solving `x = A x + b` by eliminating the variables one after the other.

The equation of a variable is solved for this variable: its own entry `c` is moved to the left side,
where it leaves the factor `1 / (1 - c)`. The right hand side is then substituted in the equations of
later variables. What remains of an equation refers to later variables only, and is solved from the
last equation back to the first.

An index tells in which other equations a variable may occur, so that a substitution need not visit all
of them. Entries that cancel out stay in the index, and are found to be gone when their turn comes.

* `Equation`   — the entries of a row of `A` by ascending column, and the entry of `b`.
* `System`     — the equations with the index of occurrences.
* `eliminate?` — solves for one variable, `none` when the factor is not defined.
* `solve?`     — the solution, `none` when a factor is not defined.
-/

namespace MarkovCheck
namespace LinearSystem

variable {V : Type} [Value V]

/-- The right hand side of an equation: entries by ascending column, and a constant. -/
structure Equation (V : Type) where
  entries : List (Nat × V)
  const : V
deriving Inhabited

/-- Adds a value to the entry of a column; an entry that becomes zero disappears. -/
def addEntry (column : Nat) (value : V) : List (Nat × V) → List (Nat × V)
  | [] => if Value.isZero value then [] else [(column, value)]
  | (other, v) :: rest =>
    if column < other then
      if Value.isZero value then (other, v) :: rest else (column, value) :: (other, v) :: rest
    else if column = other then
      let sum := Value.add v value
      if Value.isZero sum then rest else (other, sum) :: rest
    else (other, v) :: addEntry column value rest

/-- The equation of a row of entries in any order; entries of one column are added up. -/
def Equation.ofRow (row : List (Nat × V)) (const : V) : Equation V :=
  ⟨row.foldl (fun entries e => addEntry e.1 e.2 entries) [], const⟩

/-- Adds a multiple of the right hand side of another equation. -/
def Equation.addMultiple (e : Equation V) (c : V) (f : Equation V) : Equation V :=
  ⟨f.entries.foldl (fun entries g => addEntry g.1 (Value.mul c g.2) entries) e.entries,
    Value.add e.const (Value.mul c f.const)⟩

/-- Takes the entry of a column out of a row. -/
def takeEntry (column : Nat) : List (Nat × V) → Option (V × List (Nat × V))
  | [] => none
  | (other, v) :: rest =>
    if other = column then some (v, rest)
    else (takeEntry column rest).map fun (w, others) => (w, (other, v) :: others)

/-- Solves an equation for its own variable `i`. -/
def isolate? (i : Nat) (e : Equation V) : Option (Equation V) :=
  match takeEntry i e.entries with
  | none => some e
  | some (c, rest) =>
    (Value.div? Value.one (Value.sub Value.one c)).map fun factor =>
      ⟨rest.map fun g => (g.1, Value.mul g.2 factor), Value.mul e.const factor⟩

/-- Equations of which the first ones may be solved already. -/
structure System (V : Type) where
  equations : Array (Equation V)
  /-- For every variable the other equations in which it may occur, each once. -/
  occurrences : Array (List Nat)

/-- Notes that equation `i` refers to the variables of some entries, its own one apart. -/
def note (i : Nat) (occurrences : Array (List Nat)) (entries : List (Nat × V)) : Array (List Nat) :=
  entries.foldl
    (fun occurrences g => if g.1 = i then occurrences else occurrences.modify g.1 (List.insert i))
    occurrences

namespace System

def ofEquations (equations : List (Equation V)) : System V :=
  ⟨equations.toArray, equations.zipIdx.foldl (fun occurrences e => note e.2 occurrences e.1.entries)
    (Array.replicate equations.length [])⟩

/-- Substitutes the right hand side `f` of variable `k` in equation `i`, if this one is later and still
refers to the variable. -/
def substitute (k : Nat) (f : Equation V) (s : System V) (i : Nat) : System V :=
  if i ≤ k then s
  else
    match s.equations[i]? with
    | none => s
    | some e =>
      match takeEntry k e.entries with
      | none => s
      | some (c, rest) =>
        ⟨s.equations.setIfInBounds i (Equation.addMultiple ⟨rest, e.const⟩ c f),
          note i s.occurrences f.entries⟩

/-- Solves the equation of variable `k`, and substitutes it where the variable occurs. -/
def eliminate? (s : System V) (k : Nat) : Option (System V) :=
  match s.equations[k]? with
  | none => some s
  | some e =>
    (isolate? k e).map fun f =>
      (s.occurrences[k]?.getD []).foldl (substitute k f)
        ⟨s.equations.setIfInBounds k f, s.occurrences.setIfInBounds k []⟩

/-- Eliminates the variables below a bound, in ascending order. -/
def eliminateBelow? (s : System V) : Nat → Option (System V)
  | 0 => some s
  | k + 1 => (s.eliminateBelow? k).bind fun t => t.eliminate? k

end System

/-- The value of a right hand side, the entries added to the constant from left to right. -/
def Equation.eval (e : Equation V) (x : Array V) : V :=
  e.entries.foldl
    (fun sum g => Value.add sum (Value.mul g.2 (x[g.1]?.getD Value.zero))) e.const

/-- Solves triangular equations from the last one back. -/
def backSubstitute (equations : Array (Equation V)) : Array V :=
  (List.range equations.size).foldr
    (fun i x =>
      match equations[i]? with
      | some e => x.setIfInBounds i (e.eval x)
      | none => x)
    (Array.replicate equations.size Value.zero)

def solve? (equations : List (Equation V)) : Option (Array V) :=
  ((System.ofEquations equations).eliminateBelow? equations.length).map fun s =>
    backSubstitute s.equations

end LinearSystem
end MarkovCheck
