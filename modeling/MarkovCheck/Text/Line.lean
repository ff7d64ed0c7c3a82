/-!
# MarkovCheck.Text.Line

The lines of a sequence of bytes.

A line ends with a line feed, or at the end of the input; a carriage return in front of the line
feed belongs to the ending. The lines stop before the first one that is not valid UTF-8.

* `rawLines` — the lines with their endings, which together are the input.
* `lines`    — the texts of the lines.
-/

namespace MarkovCheck
namespace Text

def lineFeed : UInt8 := 10

def carriageReturn : UInt8 := 13

/-- Puts a byte in front of lines: a line feed is a line of its own, any other byte belongs to the
line that follows. -/
def consByte (b : UInt8) (lines : List (List UInt8)) : List (List UInt8) :=
  if b = lineFeed then [b] :: lines
  else
    match lines with
    | [] => [[b]]
    | l :: ls => (b :: l) :: ls

def rawLines (bytes : List UInt8) : List (List UInt8) := bytes.foldr consByte []

def stripEnding (line : List UInt8) : List UInt8 :=
  match line.reverse with
  | b :: rest =>
    if b = lineFeed then
      match rest with
      | c :: rest' => if c = carriageReturn then rest'.reverse else rest.reverse
      | [] => []
    else line
  | [] => line

def decodeLine? (line : List UInt8) : Option String :=
  String.fromUTF8? ⟨(stripEnding line).toArray⟩

/-- The texts of the lines before the first one that is not valid. -/
def decodeLines : List (List UInt8) → List String
  | [] => []
  | l :: ls =>
    match decodeLine? l with
    | some s => s :: decodeLines ls
    | none => []

/-- The texts of the lines of an input. -/
def lines (data : ByteArray) : List String := decodeLines (rawLines data.toList)

end Text
end MarkovCheck
