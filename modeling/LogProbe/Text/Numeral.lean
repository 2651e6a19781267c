import LogProbe.Text.Basic

/-! Decimal numerals for words of 64 bits. -/
namespace LogProbe

inductive NumeralError where
  | empty
  | invalidDigit
  | tooLarge
  deriving DecidableEq, Repr

namespace NumeralError

def message : NumeralError → Text
  | empty => "cannot parse integer from empty string".toList
  | invalidDigit => "invalid digit found in string".toList
  | tooLarge => "number too large to fit in target type".toList

end NumeralError

namespace Numeral

/-- One more than the largest word. -/
def bound : Nat := 18446744073709551616

/-- A number, if a word can hold it. -/
def word? (n : Nat) : Option Nat := if n < bound then some n else none

theorem word?_eq_some_iff {n m : Nat} : word? n = some m ↔ n = m ∧ n < bound := by
  simp only [word?, Option.ite_none_right_eq_some, Option.some.injEq]
  exact and_comm

def digit? (c : Char) : Option Nat := if c.isDigit then some (c.toNat - '0'.toNat) else none

/-- Reads digits after a number already read. The first character that spoils the number decides
the error. -/
def digits (n : Nat) : Text → Except NumeralError Nat
  | [] => .ok n
  | c :: t =>
    match digit? c with
    | none => .error .invalidDigit
    | some d => if bound ≤ 10 * n + d then .error .tooLarge else digits (10 * n + d) t

/-- Reads a numeral, which may have a plus sign in front. -/
def parse : Text → Except NumeralError Nat
  | [] => .error .empty
  | ['+'] => .error .invalidDigit
  | '+' :: t => digits 0 t
  | t => digits 0 t

def ofNat (n : Nat) : Text := Nat.toDigits 10 n

end Numeral
end LogProbe
