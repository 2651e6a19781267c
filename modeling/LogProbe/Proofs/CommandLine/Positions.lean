import LogProbe.CommandLine.Position
import LogProbe.Proofs.Text.Numeral
import LogProbe.Proofs.Text.Split
import Mathlib.Data.Nat.PSub

/-! Positions as they are typed. What is read as a span of positions is one text, or two around the
first two dots, each of which is a line and a column around its first colon. Written positions are
read back, and the lines and columns of a span that was read can be counted from zero. -/
namespace LogProbe

/-- A line or a column, counted from one in a word of 64 bits. -/
def IsCount (n : Nat) : Prop := 1 ≤ n ∧ n ≤ 2 ^ 64 - 1

theorem isCount_iff {n : Nat} : IsCount n ↔ n ≠ 0 ∧ n < Numeral.bound :=
  and_congr Nat.one_le_iff_ne_zero Nat.lt_succ_iff.symm

/-- Two readings in a row succeed exactly if both do. -/
theorem bind_pair_eq_ok_iff {ε α β γ : Type} {x : Except ε α} {y : Except ε β} {f : α → β → γ}
    {c : γ} : (x >>= fun a => y >>= fun b => pure (f a b)) = .ok c ↔
      ∃ a b, x = .ok a ∧ y = .ok b ∧ f a b = c := by
  cases x with
  | error e => exact iff_of_false nofun fun ⟨_, _, hx, _⟩ => by cases hx
  | ok a =>
    cases y with
    | error e => exact iff_of_false nofun fun ⟨_, _, _, hy, _⟩ => by cases hy
    | ok b =>
      constructor
      · exact fun h => ⟨a, b, rfl, rfl, Except.ok.inj h⟩
      · rintro ⟨_, _, ⟨⟩, ⟨⟩, rfl⟩
        rfl

namespace Position
variable {typed part : Text} {n : Nat} {p : Position}

/-- A line and a column around the first colon, numerals that may have blanks around them. -/
structure IsTyped (typed : Text) (p : Position) : Prop where
  parts : ∃ line column, Text.CutsAtFirst [':'] typed line column ∧
    Numeral.IsTyped line p.line ∧ Numeral.IsTyped column p.column
  line_isCount : IsCount p.line
  column_isCount : IsCount p.column

def written (p : Position) : Text := Numeral.ofNat p.line ++ [':'] ++ Numeral.ofNat p.column

/-- The offset of a position, unless its line or its column is zero and has nothing before it. -/
def offsetIn? (text : Text) (p : Position) : Option Nat := do
  return text.offsetAt (← Nat.ppred p.line) (← Nat.ppred p.column)

theorem parseNumber_eq_ok_iff :
    parseNumber typed part = .ok n ↔ Numeral.IsTyped part n ∧ IsCount n := by
  rw [isCount_iff, and_left_comm, ← Numeral.parse_trim_eq_ok_iff, parseNumber]
  split
  · rename_i hparse
    simp only [hparse, Except.ok.injEq]
    exact iff_of_false nofun fun h => h.1 h.2.symm
  · rename_i k hzero hparse
    simp only [hparse, Except.ok.injEq]
    exact ⟨fun h => ⟨fun hn => hzero (h.trans hn), h⟩, And.right⟩
  · rename_i hparse
    rw [hparse]
    exact iff_of_false nofun nofun

theorem parse_eq_ok_iff : parse typed = .ok p ↔ IsTyped typed p := by
  have hcolon : [':'] ≠ [] := List.cons_ne_nil _ _
  rw [parse]
  split
  · rename_i hsplit
    refine iff_of_false nofun fun h => ?_
    obtain ⟨line, column, hcut, -⟩ := h.parts
    exact (Text.splitOnce?_eq_none_iff hcolon).mp hsplit hcut.isInfix
  · rename_i line column hsplit
    have hcut := (Text.splitOnce?_eq_some_iff hcolon).mp hsplit
    rw [bind_pair_eq_ok_iff]
    simp only [parseNumber_eq_ok_iff]
    constructor
    · rintro ⟨i, j, ⟨hline, hi⟩, ⟨hcolumn, hj⟩, rfl⟩
      exact ⟨⟨line, column, hcut, hline, hcolumn⟩, hi, hj⟩
    · rintro ⟨⟨line', column', hcut', hline, hcolumn⟩, hi, hj⟩
      obtain ⟨rfl, rfl⟩ := hcut.unique hcut'
      exact ⟨p.line, p.column, ⟨hline, hi⟩, ⟨hcolumn, hj⟩, rfl⟩

theorem isDigit_or_colon {c : Char} (h : c ∈ p.written) : c.isDigit = true ∨ c = ':' := by
  rw [written, List.mem_append, List.mem_append, List.mem_singleton] at h
  rcases h with (h | h) | h
  · exact .inl ((Numeral.isDigits_ofNat p.line).digits c h)
  · exact .inr h
  · exact .inl ((Numeral.isDigits_ofNat p.column).digits c h)

theorem dot_not_mem_written : '.' ∉ p.written := fun h =>
  (isDigit_or_colon h).elim (by decide) (by decide)

theorem isTyped_written (hline : IsCount p.line) (hcolumn : IsCount p.column) :
    IsTyped p.written p := by
  have hcolon : ':' ∉ Numeral.ofNat p.line := fun h =>
    absurd ((Numeral.isDigits_ofNat p.line).digits _ h) (by decide)
  exact ⟨⟨_, _, Text.cutsAtFirst_of_not_mem hcolon _, Numeral.isTyped_ofNat p.line,
    Numeral.isTyped_ofNat p.column⟩, hline, hcolumn⟩

theorem IsTyped.offsetIn?_eq (h : IsTyped typed p) (text : Text) :
    p.offsetIn? text = some (p.offsetIn text) := by
  rw [Position.offsetIn?, Nat.ppred_eq_pred h.line_isCount.1, Nat.ppred_eq_pred h.column_isCount.1]
  rfl

end Position

namespace PositionSpan
variable {typed : Text} {s : PositionSpan}

/-- Two positions around the first two dots, or without any two dots one that is both ends. -/
inductive IsTyped (typed : Text) : PositionSpan → Prop
  | ends {left right : Text} {anchor active : Position}
      (cut : Text.CutsAtFirst ['.', '.'] typed left right) (first : anchor.IsTyped left)
      (second : active.IsTyped right) : IsTyped typed ⟨anchor, active⟩
  | cursor {p : Position} (whole : ¬ ['.', '.'] <:+: typed) (both : p.IsTyped typed) :
      IsTyped typed ⟨p, p⟩

def written (s : PositionSpan) : Text := s.anchor.written ++ ['.', '.'] ++ s.active.written

theorem parse_eq_ok_iff : parse typed = .ok s ↔ IsTyped typed s := by
  have hdots : ['.', '.'] ≠ [] := List.cons_ne_nil _ _
  rw [parse]
  split
  · rename_i left right hsplit
    have hcut := (Text.splitOnce?_eq_some_iff hdots).mp hsplit
    rw [bind_pair_eq_ok_iff]
    simp only [Position.parse_eq_ok_iff]
    constructor
    · rintro ⟨anchor, active, hfirst, hsecond, rfl⟩
      exact .ends hcut hfirst hsecond
    · intro h
      cases h with
      | ends hcut' hfirst hsecond =>
        obtain ⟨rfl, rfl⟩ := hcut.unique hcut'
        exact ⟨_, _, hfirst, hsecond, rfl⟩
      | cursor hwhole _ => exact absurd hcut.isInfix hwhole
  · rename_i hsplit
    have hwhole := (Text.splitOnce?_eq_none_iff hdots).mp hsplit
    constructor
    · intro h
      cases hposition : Position.parse typed with
      | error e =>
        rw [hposition] at h
        cases h
      | ok p =>
        rw [hposition] at h
        cases h
        exact .cursor hwhole (Position.parse_eq_ok_iff.mp hposition)
    · intro h
      cases h with
      | ends hcut _ _ => exact absurd hcut.isInfix hwhole
      | cursor _ hboth =>
        rw [Position.parse_eq_ok_iff.mpr hboth]
        rfl

theorem IsTyped.ends_isTyped (h : IsTyped typed s) :
    ∃ left right, s.anchor.IsTyped left ∧ s.active.IsTyped right := by
  cases h with
  | ends _ first second => exact ⟨_, _, first, second⟩
  | cursor _ both => exact ⟨_, _, both, both⟩

/-- What is read is exactly what is typed as a span of positions, and written positions are read
back, one as both ends. The line and the column of every end that was read are not zero, so that its
offset counts both from zero. -/
theorem parse_reads_typed :
    (∀ typed s, parse typed = .ok s ↔ IsTyped typed s) ∧
    (∀ p : Position, IsCount p.line → IsCount p.column → parse p.written = .ok ⟨p, p⟩) ∧
    (∀ s : PositionSpan, IsCount s.anchor.line → IsCount s.anchor.column →
      IsCount s.active.line → IsCount s.active.column → parse s.written = .ok s) ∧
    ∀ typed s, parse typed = .ok s → ∀ text,
      s.anchor.offsetIn? text = some (s.anchor.offsetIn text) ∧
        s.active.offsetIn? text = some (s.active.offsetIn text) := by
  refine ⟨fun typed s => parse_eq_ok_iff, fun p hline hcolumn => ?_,
    fun s hline hcolumn hline' hcolumn' => ?_, fun typed s h text => ?_⟩
  · refine parse_eq_ok_iff.mpr (.cursor (fun hdots => ?_) (Position.isTyped_written hline hcolumn))
    exact Position.dot_not_mem_written (hdots.mem List.mem_cons_self)
  · exact parse_eq_ok_iff.mpr (.ends (Text.cutsAtFirst_of_not_mem Position.dot_not_mem_written _)
      (Position.isTyped_written hline hcolumn) (Position.isTyped_written hline' hcolumn'))
  · obtain ⟨left, right, hfirst, hsecond⟩ := (parse_eq_ok_iff.mp h).ends_isTyped
    exact ⟨hfirst.offsetIn?_eq text, hsecond.offsetIn?_eq text⟩

/-- Blanks, a sign, a leading zero and the largest column. -/
def wideSpan : Text := " +02\t:5..1:18446744073709551615".toList

theorem wideSpan_read : IsTyped wideSpan ⟨⟨2, 5⟩, ⟨1, 2 ^ 64 - 1⟩⟩ ∧
    parse (written ⟨⟨2, 5⟩, ⟨1, 2 ^ 64 - 1⟩⟩) = .ok ⟨⟨2, 5⟩, ⟨1, 2 ^ 64 - 1⟩⟩ ∧
      Position.offsetIn? "a\nbc".toList ⟨2, 5⟩ = some 4 := by
  have hread : parse wideSpan = .ok ⟨⟨2, 5⟩, ⟨1, 2 ^ 64 - 1⟩⟩ := by decide
  obtain ⟨htyped, -, hwritten, hoffset⟩ := parse_reads_typed
  refine ⟨(htyped _ _).mp hread, hwritten _ ?_ ?_ ?_ ?_, (hoffset _ _ hread "a\nbc".toList).1⟩
  all_goals exact ⟨by decide, by decide⟩

/-- Of three dots the first two are those between the positions. -/
example : parse "1:2...3:4".toList =
    .error (.number ".3".toList ".3:4".toList .invalidDigit) := by decide

end PositionSpan
end LogProbe
