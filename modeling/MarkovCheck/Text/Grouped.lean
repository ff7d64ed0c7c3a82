/-!
# MarkovCheck.Text.Grouped

Numbers with a comma between every group of three digits.

* `group`   — the digits of a text in groups of three, counted from the end.
* `grouped` — the same after an optional minus sign.
-/

namespace MarkovCheck
namespace Text

/-- Puts commas between groups of three characters; `width` is the number of bytes of the text from
the first character on. -/
def groupFrom (first : Bool) (width : Nat) : List Char → List Char
  | [] => []
  | c :: rest =>
    let tail := groupFrom false (width - 1) rest
    if !first && width % 3 == 0 then ',' :: c :: tail else c :: tail

/-- Groups the characters of a text. -/
def group (s : String) : String := String.ofList (groupFrom true s.utf8ByteSize s.toList)

/-- Groups the characters of a text after an optional minus sign. -/
def grouped (s : String) : String :=
  match s.toList with
  | '-' :: rest => "-" ++ group (String.ofList rest)
  | _ => group s

/-- A natural number with a comma between every group of three digits. -/
def groupedNat (n : Nat) : String := grouped (toString n)

end Text
end MarkovCheck
