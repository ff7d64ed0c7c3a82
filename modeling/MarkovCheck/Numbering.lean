import Std.Data.HashMap

/-!
# MarkovCheck.Numbering

Consecutive numbers for keys, in the order in which the keys first occur.

* `Numbering.number` — the number of a key, the next free one if the key is new.
* `Numbering.numberAll` — the numbers of the keys of a list.
-/

namespace MarkovCheck

/-- The numbers given so far; as many as there are keys. -/
structure Numbering (κ : Type) [BEq κ] [Hashable κ] where
  numbers : Std.HashMap κ Nat := {}

namespace Numbering

variable {κ : Type} [BEq κ] [Hashable κ]

def empty : Numbering κ := {}

def size (n : Numbering κ) : Nat := n.numbers.size

def find? (n : Numbering κ) (k : κ) : Option Nat := n.numbers[k]?

/-- The number of a key and the numbering that knows it. -/
def number (n : Numbering κ) (k : κ) : Nat × Numbering κ :=
  match n.find? k with
  | some i => (i, n)
  | none => (n.size, ⟨n.numbers.insert k n.size⟩)

/-- The numbers of the keys of a list, from left to right. -/
def numberAll (n : Numbering κ) : List κ → List Nat × Numbering κ
  | [] => ([], n)
  | k :: ks =>
    let (i, n) := n.number k
    let (is, n) := n.numberAll ks
    (i :: is, n)

end Numbering
end MarkovCheck
