-- SUMMARY: Cutting bytes into lines, and dropping the blanks at the end of a line.
import Argand.Text.CharSet

/-!
# Lines

A line ends at a line feed, and a carriage return right before that is part of the ending. What
follows the last line feed is a line only if it is not empty.
-/
namespace Argand.Text

/-- The bytes of a line without a carriage return at their end. -/
def dropReturn (line : List UInt8) : List UInt8 :=
  if line.getLast? = some 13 then line.dropLast else line

/-- Cut into lines; `first` holds the bytes of the line under way, the latest first. -/
def linesFrom (first : List UInt8) : List UInt8 → List (List UInt8)
  | [] => if first.isEmpty then [] else [first.reverse]
  | b :: bs =>
    if b = 10 then dropReturn first.reverse :: linesFrom [] bs
    else linesFrom (b :: first) bs

/-- The lines of the bytes, without their endings. -/
def lines (bs : List UInt8) : List (List UInt8) :=
  linesFrom [] bs

/-! ## Trimming -/

/-- Drop the blank characters at the end of a text. -/
def trimEnd (s : String) : String :=
  String.ofList (s.toList.reverse.dropWhile blanks.contains).reverse

end Argand.Text
