import MarkovCheck.Text.Printed

/-!
# MarkovCheck.Text.Quoted

Texts in quotes. A quote, a backslash and every character without a printed form of its own are
written as escapes.
-/

namespace MarkovCheck
namespace Text

def codePoint (c : Char) : List Char := Nat.toDigits 16 c.toNat

def escape (c : Char) : List Char :=
  if c = '"' then ['\\', '"']
  else if c = '\\' then ['\\', '\\']
  else if c = '\n' then ['\\', 'n']
  else if c = '\r' then ['\\', 'r']
  else if c = '\t' then ['\\', 't']
  else if c = Char.ofNat 0 then ['\\', '0']
  else if isPrinted c then [c]
  else "\\u\x7b".toList ++ codePoint c ++ ['\x7d']

def quoted (s : String) : String := "\"" ++ String.ofList (s.toList.flatMap escape) ++ "\""

end Text
end MarkovCheck
