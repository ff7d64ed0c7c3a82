import MarkovCheck.Value.Basic

/-!
# MarkovCheck.Value.Cache

Interned values: every distinct value has one index, in the order of first insertion, so values are
compared by comparing indices.

Two tables grow together. One maps a value, as far as `Value.sameKey` tells values apart, to its
index; the other is the list of the values by index. Every index of the first leads to the value in the
second.

* `ValueCache.insert` — the index of a value, which is new if the value is.
* `ValueCache.index?`, `ValueCache.value?` — the index of a known value, and the value of an index.
-/

namespace MarkovCheck

/-- The distinct values inserted so far, with their indices and by index. -/
structure ValueCache (V : Type) where
  indices : List (V × Nat)
  values : Array V
  values_of_mem : ∀ e ∈ indices, values[e.2]? = some e.1

namespace ValueCache

variable {V : Type}

def empty : ValueCache V := ⟨[], #[], fun _ h => nomatch h⟩

def size (c : ValueCache V) : Nat := c.values.size

def value? (c : ValueCache V) (i : Nat) : Option V := c.values[i]?

/-- Gives the next index to a value. -/
def push (c : ValueCache V) (v : V) : ValueCache V where
  indices := (v, c.size) :: c.indices
  values := c.values.push v
  values_of_mem := by
    intro e he
    rcases List.mem_cons.1 he with rfl | he
    · exact Array.getElem?_push_size
    · have hlt : e.2 < c.values.size := (Array.getElem?_eq_some_iff.1 (c.values_of_mem e he)).1
      rw [Array.getElem?_push, if_neg (Nat.ne_of_lt hlt), c.values_of_mem e he]

variable [Value V]

def index? (c : ValueCache V) (v : V) : Option Nat :=
  (c.indices.find? fun e => Value.sameKey v e.1).map (·.2)

/-- The index of a value and the cache that holds it. -/
def insert (c : ValueCache V) (v : V) : Nat × ValueCache V :=
  match c.index? v with
  | some i => (i, c)
  | none => (c.size, c.push v)

end ValueCache
end MarkovCheck
