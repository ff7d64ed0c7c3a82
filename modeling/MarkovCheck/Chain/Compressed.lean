/-!
# MarkovCheck.Chain.Compressed

Compressed sparse rows: the entries of all rows of a matrix, one row after the other.

Row `s` consists of the entries from number `offsets[s]` up to number `offsets[s + 1]`. The entries
arrive row by row, and a row is started only when an entry of it or of a later row arrives, or at the
end; so a row without entries begins where the next one does.

* `push`      — one more entry, in the last row that has one or in a later row.
* `startRows` — starts the rows up to a given one.
* `pushRow`   — the next row with all its entries.
* `close`, `reopen` — adds the offset after the last row, and takes it away again.
* `row`       — the entries of a row.
-/

namespace MarkovCheck

structure Compressed (V : Type) where
  /-- Where the rows begin that have been started. -/
  offsets : Array Nat := #[]
  targets : Array Nat := #[]
  values : Array V := #[]
deriving DecidableEq, Inhabited

namespace Compressed

variable {V : Type}

/-- Starts the rows up to row `s` that have not been started yet. -/
def startRows (c : Compressed V) (s : Nat) : Compressed V :=
  { c with offsets := c.offsets ++ Array.replicate (s + 1 - c.offsets.size) c.targets.size }

def push (c : Compressed V) (source target : Nat) (value : V) : Compressed V :=
  let c := c.startRows source
  { c with targets := c.targets.push target, values := c.values.push value }

/-- Starts the next row and adds its entries. -/
def pushRow (c : Compressed V) (row : List (Nat × V)) : Compressed V :=
  row.foldl (fun c e => { c with targets := c.targets.push e.1, values := c.values.push e.2 })
    { c with offsets := c.offsets.push c.targets.size }

/-- Adds the offset after the last row, which is the number of entries. -/
def close (c : Compressed V) : Compressed V := { c with offsets := c.offsets.push c.targets.size }

/-- Takes the last offset away, so that rows can follow. -/
def reopen (c : Compressed V) : Compressed V := { c with offsets := c.offsets.pop }

/-- The entries of a row: their targets and values. -/
def row (c : Compressed V) (s : Nat) : List (Nat × V) :=
  let first := c.offsets[s]?.getD 0
  let last := c.offsets[s + 1]?.getD 0
  ((c.targets.extract first last).zip (c.values.extract first last)).toList

/-- The first `n` rows. -/
def rows (c : Compressed V) (n : Nat) : Array (List (Nat × V)) := Array.ofFn fun s : Fin n => c.row s

end Compressed
end MarkovCheck
