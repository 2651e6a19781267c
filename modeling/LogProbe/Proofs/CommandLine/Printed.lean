import LogProbe.CommandLine.Printed
import LogProbe.Proofs.Text.Numeral
import Mathlib.Data.Char
import Mathlib.Data.List.Forall2
import Mathlib.Data.List.Induction
import Mathlib.Data.List.Lex
import Mathlib.Data.List.Nodup

/-! Printed maps of edits. A printed text falls into tokens whatever stands between them, and from
its tokens the map is read back. A map has its keys in ascending order, each of them once. -/
namespace LogProbe
namespace Printed

inductive Token where
  | mark (c : Char)
  | string (t : Text)
  deriving DecidableEq

/-- Where a scan is: between tokens, in a string, behind a backslash in one, or in a code there, of
which digits are missing. -/
inductive Mode where
  | between
  | string (seen : Text)
  | escape (seen : Text)
  | code (seen : Text) (missing value : Nat)

def unescape? : Char → Option Char
  | '"' => some '"'
  | '\\' => some '\\'
  | '/' => some '/'
  | 'n' => some '\n'
  | 'r' => some '\r'
  | 't' => some '\t'
  | 'b' => some '\x08'
  | 'f' => some '\x0c'
  | _ => none

def hexValue? (c : Char) : Option Nat :=
  if '0' ≤ c ∧ c ≤ '9' then some (c.toNat - '0'.toNat)
  else if 'a' ≤ c ∧ c ≤ 'f' then some (c.toNat - 'a'.toNat + 10)
  else if 'A' ≤ c ∧ c ≤ 'F' then some (c.toNat - 'A'.toNat + 10)
  else none

/-- The tokens of a text. The digits of a number are tokens of their own. -/
def scan : Mode → Text → Option (List Token)
  | .between, [] => some []
  | _, [] => none
  | .between, c :: t =>
    if c = '"' then scan (.string []) t
    else if c = ' ' ∨ c = '\n' then scan .between t
    else (scan .between t).map (.mark c :: ·)
  | .string seen, c :: t =>
    if c = '"' then (scan .between t).map (.string seen :: ·)
    else if c = '\\' then scan (.escape seen) t
    else scan (.string (seen ++ [c])) t
  | .escape seen, c :: t =>
    if c = 'u' then scan (.code seen 4 0) t
    else
      match unescape? c with
      | some meant => scan (.string (seen ++ [meant])) t
      | none => none
  | .code seen missing value, c :: t =>
    match hexValue? c with
    | some digit =>
      if missing ≤ 1 then scan (.string (seen ++ [Char.ofNat (16 * value + digit)])) t
      else scan (.code seen (missing - 1) (16 * value + digit)) t
    | none => none

/-- Reads something from the front of tokens. -/
abbrev Reader (α : Type) := List Token → Option (α × List Token)

namespace Reader
variable {α : Type}

def digits : List Token → Text × List Token
  | .mark c :: rest =>
    if c.isDigit then (c :: (digits rest).1, (digits rest).2) else ([], .mark c :: rest)
  | rest => ([], rest)

def number : Reader Nat := fun tokens =>
  match digits tokens with
  | ([], _) => none
  | (numeral, rest) => some (Nat.ofDigitChars 10 numeral 0, rest)

def string : Reader Text
  | .string t :: rest => some (t, rest)
  | _ => none

def mark (c : Char) (tokens : List Token) : Option (List Token) :=
  if tokens.head? = some (.mark c) then some tokens.tail else none

/-- A member of an object, with its name. -/
def member (value : Reader α) : Reader (Text × α) := fun tokens => do
  let (name, rest) ← string tokens
  let (a, rest) ← value (← mark ':' rest)
  return ((name, a), rest)

/-- The member with the given name. -/
def field (name : String) (value : Reader α) : Reader α := fun tokens => do
  let ((given, a), rest) ← member value tokens
  if given = name.toList then some (a, rest) else none

/-- Items with commas between them, up to what closes them, `bound` of them at most. -/
def items (close : Char) (item : Reader α) : (bound : Nat) → Reader (List α)
  | 0, _ => none
  | bound + 1, tokens => do
    let (a, rest) ← item tokens
    match mark close rest with
    | some rest => return ([a], rest)
    | none =>
      let (others, rest) ← items close item bound (← mark ',' rest)
      return (a :: others, rest)

def enclosed (left right : Char) (item : Reader α) : Reader (List α) := fun tokens => do
  let inner ← mark left tokens
  match mark right inner with
  | some rest => return ([], rest)
  | none => items right item inner.length inner

def edit : Reader Edit := fun tokens => do
  let (stop, rest) ← field "end" number (← mark '\x7b' tokens)
  let (text, rest) ← field "new_text" string (← mark ',' rest)
  let (start, rest) ← field "start" number (← mark ',' rest)
  return (⟨start, stop, text⟩, ← mark '\x7d' rest)

def editsByPath : Reader (List (Text × List Edit)) :=
  enclosed '\x7b' '\x7d' (member (enclosed '[' ']' edit))

end Reader

/-- The map of edits that a text prints. -/
def read? (t : Text) : Option (List (Text × List Edit)) :=
  match (scan .between t).bind Reader.editsByPath with
  | some (map, []) => some map
  | _ => none

/-- A text that is made up of tokens and what may stand between them. -/
inductive Spells : Text → List Token → Prop
  | nil : Spells [] []
  | gap {c : Char} {t : Text} {tokens : List Token} (gap : c = ' ' ∨ c = '\n')
      (rest : Spells t tokens) : Spells (c :: t) tokens
  | mark {c : Char} {t : Text} {tokens : List Token} (plain : c ≠ '"' ∧ c ≠ ' ' ∧ c ≠ '\n')
      (rest : Spells t tokens) : Spells (c :: t) (.mark c :: tokens)
  | string (s : Text) {t : Text} {tokens : List Token} (rest : Spells t tokens) :
      Spells (string s ++ t) (.string s :: tokens)

section Tokens
variable {t u : Text} {tokens others : List Token}

theorem Spells.append (h : Spells t tokens) (h' : Spells u others) :
    Spells (t ++ u) (tokens ++ others) := by
  induction h with
  | nil => exact h'
  | gap hgap _ ih => exact .gap hgap ih
  | mark hplain _ ih => exact .mark hplain ih
  | string s _ ih =>
    rw [List.append_assoc]
    exact .string s ih

theorem spells_gaps (h : t.all (fun c => c = ' ' ∨ c = '\n') = true) : Spells t [] := by
  induction t with
  | nil => exact .nil
  | cons c t ih =>
    rw [List.all_cons, Bool.and_eq_true, decide_eq_true_eq] at h
    exact .gap h.1 (ih h.2)

end Tokens

section Nesting

theorem nested_append (t u : Text) : nested (t ++ u) = nested t ++ nested u := List.flatMap_append

theorem newline_not_mem_character (c : Char) : '\n' ∉ character c := by
  have hdigit : ∀ d < 16, '\n' ≠ Nat.digitChar d := by decide
  unfold character
  iterate 7
    split
    · decide
  split
  · simp [hexDigit, hdigit _ (Nat.mod_lt _ (by decide))]
  · rename_i hnewline _ _ _ _ _
    simpa using Ne.symm hnewline

theorem nested_of_not_mem {t : Text} (h : '\n' ∉ t) : nested t = t := by
  rw [nested, List.flatMap_congr (g := fun c => [c]) fun c hc => if_neg (ne_of_mem_of_not_mem hc h)]
  exact List.flatMap_singleton' t

theorem nested_string (s : Text) : nested (string s) = string s :=
  nested_of_not_mem (by simp [string, newline_not_mem_character])

/-- The tokens are the same one level deeper. -/
theorem Spells.nested {t : Text} {tokens : List Token} (h : Spells t tokens) :
    Spells (Printed.nested t) tokens := by
  induction h with
  | nil => exact .nil
  | @gap c t _ hgap _ ih =>
    rw [← List.singleton_append, nested_append]
    refine (spells_gaps ?_).append ih
    rcases hgap with rfl | rfl <;> decide
  | @mark c t _ hplain _ ih =>
    rw [← List.singleton_append, nested_append, nested_of_not_mem (by simpa using hplain.2.2.symm)]
    exact .mark hplain ih
  | string s _ ih =>
    rw [nested_append, nested_string]
    exact .string s ih

variable {left right : Char}

end Nesting

section Reading
open Reader
variable {α : Type} {read : Reader α} {print : α → Text} {rest : List Token}

end Reading

section Maps
variable {α : Type} {map entries : List (Text × α)}

end Maps

end Printed
end LogProbe
