/-!
# MarkovCheck.Text.Blank

The blank characters of the text formats, and trimming.

* `isBlank` — the characters with the Unicode property `White_Space`.
* `trim`    — a text without the blanks at its two ends.
* `fields`  — the maximal runs of characters that are not blank.
-/

namespace MarkovCheck
namespace Text

/-- The code points with the Unicode property `White_Space`. -/
def isBlank (c : Char) : Bool :=
  let n := c.toNat
  (9 ≤ n && n ≤ 13) || n == 0x20 || n == 0x85 || n == 0xA0 || n == 0x1680 ||
    (0x2000 ≤ n && n ≤ 0x200A) || n == 0x2028 || n == 0x2029 || n == 0x202F ||
    n == 0x205F || n == 0x3000

def trimEnd (s : List Char) : List Char := (s.reverse.dropWhile isBlank).reverse

def trim (s : List Char) : List Char := trimEnd (s.dropWhile isBlank)

/-- Splits off the fields of a text; `field` holds the characters of the field being read, last
character first. -/
def fieldsFrom (field : List Char) : List Char → List (List Char)
  | [] => if field.isEmpty then [] else [field.reverse]
  | c :: rest =>
    if isBlank c then
      if field.isEmpty then fieldsFrom [] rest else field.reverse :: fieldsFrom [] rest
    else fieldsFrom (c :: field) rest

/-- The maximal runs of characters that are not blank, in order. -/
def fields (s : List Char) : List (List Char) := fieldsFrom [] s

end Text
end MarkovCheck
