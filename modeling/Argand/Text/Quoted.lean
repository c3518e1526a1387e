-- SUMMARY: Text between double quotes, with escapes for what would not show.
import Argand.Text.CharSet
import Argand.Text.Hex

/-!
# Quoted text

Error messages quote the text they complain about. A quotation holds only characters that show:
the quote and the backslash stand behind a backslash, four control characters have a letter each,
and whatever else does not show is written by its code point. A line break never stays raw, so a
message fits on one line.
-/
namespace Argand.Text

/-- The character after the backslash, for the characters that have a short escape. -/
def shortEscape? (c : Char) : Option Char :=
  if c = '"' ∨ c = '\\' then some c
  else if c = '\n' then some 'n'
  else if c = '\r' then some 'r'
  else if c = '\t' then some 't'
  else if c = '\x00' then some '0'
  else none

/-- One character inside a quotation. -/
def quotedChar (c : Char) : List Char :=
  match shortEscape? c with
  | some e => ['\\', e]
  | none =>
    if extending.contains c || fillers.contains c || unprintable.contains c then
      ['\\', 'u', '\x7b'] ++ hexOfNat c.toNat ++ ['\x7d']
    else [c]

/-- The text between double quotes. -/
def quoted (s : String) : String :=
  String.ofList ('"' :: s.toList.flatMap quotedChar ++ ['"'])

end Argand.Text
