import MarkovCheck.Algebra.Polynomial.Basic

/-!
# MarkovCheck.Algebra.Polynomial.Text

The text of rational numbers and polynomials.

* `ratText`            — `n`, or `n/d` in lowest terms.
* `Polynomial.toText`  — the terms from the leading one down, joined by their signs; a factor of one
  is not written.
-/

namespace MarkovCheck

def ratText (r : Rat) : String :=
  if r.den = 1 then toString r.num else toString r.num ++ "/" ++ toString r.den

namespace Polynomial

def magnitude (c : Rat) : Rat := if c < 0 then -c else c

/-- The text of a term without its sign. -/
def termText (t : Term) : String :=
  let c := magnitude t.2
  if t.1.isOne then ratText c
  else if c = 1 then t.1.toText
  else ratText c ++ "*" ++ t.1.toText

def toText (p : Polynomial) : String :=
  match p.terms.reverse with
  | [] => "0"
  | t :: rest =>
    let first := (if t.2 < 0 then "-" else "") ++ termText t
    rest.foldl (fun s t => s ++ (if t.2 < 0 then " - " else " + ") ++ termText t) first

instance : ToString Polynomial := ⟨toText⟩

end Polynomial
end MarkovCheck
