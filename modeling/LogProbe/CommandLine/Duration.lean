import LogProbe.Text.Blank
import LogProbe.Text.Numeral

/-! Durations as they are typed, such as `1h 30m` or `1.5s`, and as they are shown. -/
namespace LogProbe

structure Duration where
  seconds : Nat
  nanos : Nat
  deriving DecidableEq, Repr

namespace Duration

def nanosPerSecond : Nat := 1000000000

def zero : Duration := ⟨0, 0⟩

def totalNanos (d : Duration) : Nat := d.seconds * nanosPerSecond + d.nanos

/-- Moves whole seconds out of the nanoseconds. -/
def normal (d : Duration) : Duration :=
  ⟨d.seconds + d.nanos / nanosPerSecond, d.nanos % nanosPerSecond⟩

/-! Sums and multiples are taken in words of 64 bits and do not exist where they do not fit. -/

def times? (d : Duration) (n : Nat) : Option Duration := do
  return ⟨← Numeral.word? (n * d.seconds), ← Numeral.word? (n * d.nanos)⟩

/-- The `n`-th part, if it comes out even. -/
def part? (d : Duration) (n : Nat) : Option Duration :=
  if d.seconds % n = 0 ∧ d.nanos % n = 0 then some ⟨d.seconds / n, d.nanos / n⟩ else none

def plus? (d e : Duration) : Option Duration := do
  let nanos ← Numeral.word? (d.nanos + e.nanos)
  let sum := normal ⟨d.seconds + e.seconds, nanos⟩
  return ⟨← Numeral.word? sum.seconds, sum.nanos⟩

/-- A unit with its names. Fractions of it are taken of `divisible`, which is the same length in
nanoseconds up to a minute and in seconds from an hour on; a nanosecond has none. -/
structure TimeUnit where
  names : List String
  length : Duration
  divisible : Option Duration

/-- The units. Months and years are mean ones. -/
def units : List TimeUnit :=
  [⟨["nanos", "nsec", "ns"], ⟨0, 1⟩, none⟩,
    nanos ["usec", "us", "µs"] 1000, nanos ["millis", "msec", "ms"] 1000000,
    ⟨["seconds", "second", "secs", "sec", "s"], ⟨1, 0⟩, some ⟨0, nanosPerSecond⟩⟩,
    ⟨["minutes", "minute", "min", "mins", "m"], ⟨60, 0⟩, some ⟨0, 60 * nanosPerSecond⟩⟩,
    seconds ["hours", "hour", "hr", "hrs", "h"] 3600, seconds ["days", "day", "d"] 86400,
    seconds ["weeks", "week", "wk", "wks", "w"] 604800,
    seconds ["months", "month", "M"] 2630016,
    seconds ["years", "year", "yr", "yrs", "y"] 31557600]
where
  nanos (names : List String) (n : Nat) : TimeUnit := ⟨names, ⟨0, n⟩, some ⟨0, n⟩⟩
  seconds (names : List String) (n : Nat) : TimeUnit := ⟨names, ⟨n, 0⟩, some ⟨n, 0⟩⟩

def unit? (name : Text) : Option TimeUnit := units.find? (·.names.contains (String.ofList name))

structure Fraction where
  numerator : Nat
  denominator : Nat
  deriving DecidableEq, Repr

/-- A number as it is read. Its digits after a point make up the fraction. -/
structure Amount where
  whole : Nat
  fraction : Option Fraction
  deriving DecidableEq, Repr

namespace Amount

def push? (a : Amount) (digit : Nat) : Option Amount :=
  match a.fraction with
  | none => do return { a with whole := ← Numeral.word? (10 * a.whole + digit) }
  | some f => do
    let numerator ← Numeral.word? (10 * f.numerator + digit)
    let denominator ← Numeral.word? (10 * f.denominator)
    return { a with fraction := some ⟨numerator, denominator⟩ }

/-- The number before its point, followed by the point. -/
def pointed (a : Amount) : Amount := { a with fraction := some ⟨0, 1⟩ }

end Amount

/-- Adds an amount of a unit. A point must be followed by a digit, and a fraction must come out
even. -/
def add? (d : Duration) (a : Amount) (name : Text) : Option Duration := do
  let unit ← unit? name
  let d ← d.plus? (← unit.length.times? a.whole)
  match a.fraction with
  | none => return d
  | some f =>
    if f.denominator = 1 then none
    else
      let multiple ← (← unit.divisible).times? f.numerator
      d.plus? (← multiple.part? f.denominator)

/-- What is being read: a gap before a number, a number, or the unit of a number. -/
inductive Mode where
  | gap
  | number (amount : Amount)
  | unit (amount : Amount) (reversed : Text)

def isUnitLetter (c : Char) : Bool := c.isAlpha || c == 'µ'

def readFrom? : Mode → Duration → Text → Option Duration
  | .gap, d, [] => some d
  | .number _, _, [] => none
  | .unit a name, d, [] => d.add? a name.reverse
  | .gap, d, c :: t =>
    if isBlank c then readFrom? .gap d t
    else (Numeral.digit? c).bind fun n => readFrom? (.number ⟨n, none⟩) d t
  | .number a, d, c :: t =>
    match Numeral.digit? c with
    | some n => (a.push? n).bind fun a => readFrom? (.number a) d t
    | none =>
      if isBlank c then readFrom? (.number a) d t
      else if isUnitLetter c then readFrom? (.unit a [c]) d t
      else if c == '.' && a.fraction.isNone then readFrom? (.number a.pointed) d t
      else none
  | .unit a name, d, c :: t =>
    match Numeral.digit? c with
    | some n => (d.add? a name.reverse).bind fun d => readFrom? (.number ⟨n, none⟩) d t
    | none =>
      if isBlank c then (d.add? a name.reverse).bind fun d => readFrom? .gap d t
      else if isUnitLetter c then readFrom? (.unit a (c :: name)) d t
      else none

/-- Reads a sum of amounts, each with its unit. Only zero may stand without one. -/
def parse? (typed : Text) : Option Duration :=
  if typed = ['0'] then some zero
  else if typed.all isBlank then none
  else readFrom? .gap zero typed

/-- The parts of a duration that is shown, the largest first: how often a unit fits, and the names
of the unit for one and for several. -/
def parts (d : Duration) : List (Nat × String × String) :=
  let inYear := d.seconds % 31557600
  let inMonth := inYear % 2630016
  let inDay := inMonth % 86400
  [(d.seconds / 31557600, "year", "years"), (inYear / 2630016, "month", "months"),
    (inMonth / 86400, "day", "days"), (inDay / 3600, "h", "h"), (inDay % 3600 / 60, "m", "m"),
    (inDay % 60, "s", "s"), (d.nanos / 1000000, "ms", "ms"), (d.nanos / 1000 % 1000, "us", "us"),
    (d.nanos % 1000, "ns", "ns")]

def shown (d : Duration) : Text :=
  let shownPart : Nat × String × String → Option Text
    | (0, _, _) => none
    | (1, one, _) => some (Numeral.ofNat 1 ++ one.toList)
    | (n, _, several) => some (Numeral.ofNat n ++ several.toList)
  match d.parts.filterMap shownPart with
  | [] => "0s".toList
  | first :: rest => Text.join ' ' first rest

end Duration
end LogProbe
