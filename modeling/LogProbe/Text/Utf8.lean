import LogProbe.Text.Basic

/-! Bytes and the texts that they are the UTF-8 form of. The names of files are bytes that need not
be the form of any text. -/
namespace LogProbe

abbrev Bytes := List UInt8

namespace Bytes

/-- The UTF-8 form of a text. -/
def ofText (t : Text) : Bytes := t.flatMap String.utf8EncodeChar

/-- The character whose form comes first. No form has more than four bytes. -/
def char? (b : Bytes) : Option Char := (b.take 4).toByteArray.utf8DecodeChar? 0

/-- Reads a text behind the bytes, `skip` in number, that are left of a character. -/
def textFrom? : Nat → Bytes → Option Text
  | _, [] => some []
  | skip + 1, _ :: rest => textFrom? skip rest
  | 0, b :: rest =>
    match char? (b :: rest) with
    | some c => (textFrom? (c.utf8Size - 1) rest).map (c :: ·)
    | none => none

/-- The text with a UTF-8 form, if there is one. -/
def text? (b : Bytes) : Option Text := textFrom? 0 b

/-- What stands for bytes that are not the form of a character. -/
def replacement : Char := '\uFFFD'

def isContinuation (b : UInt8) : Bool := 0x80 ≤ b && b ≤ 0xBF

/-- Whether a byte can be the second one of a form of three or four bytes. -/
def fitsSecond (first second : UInt8) : Bool :=
  if first = 0xE0 then 0xA0 ≤ second && second ≤ 0xBF
  else if first = 0xED then 0x80 ≤ second && second ≤ 0x9F
  else if first = 0xF0 then 0x90 ≤ second && second ≤ 0xBF
  else if first = 0xF4 then 0x80 ≤ second && second ≤ 0x8F
  else 0xE1 ≤ first && first ≤ 0xF3 && isContinuation second

/-- How many bytes one replacement stands for where no form is whole: those that could begin one, or
a single byte. -/
def spoiled : Bytes → Nat
  | first :: second :: rest =>
    if fitsSecond first second then
      if 0xF0 ≤ first && rest.head?.any isContinuation then 3 else 2
    else 1
  | _ => 1

def shownFrom : Nat → Bytes → Text
  | _, [] => []
  | skip + 1, _ :: rest => shownFrom skip rest
  | 0, b :: rest =>
    match char? (b :: rest) with
    | some c => c :: shownFrom (c.utf8Size - 1) rest
    | none => replacement :: shownFrom (spoiled (b :: rest) - 1) rest

/-- Bytes as they are shown, also where they are not the form of a text. -/
def shown (b : Bytes) : Text := shownFrom 0 b

example : shown [0x61, 0xFF, 0xE2, 0x82, 0x62] = ['a', replacement, replacement, 'b'] := by
  decide +kernel

end Bytes
end LogProbe
