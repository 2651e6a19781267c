import LogProbe.Proofs.Text.Lines
import Mathlib.Data.Prod.Lex

/-! Positions counted in lines and characters. The offset of a position is a boundary and grows with
the position; an offset is that of its own position, unless it is behind the carriage return of its
line's break, which positions do not tell from the place in front of it. -/
namespace LogProbe
namespace Text
variable {t : Text} {n : Nat}

/-- The position of an offset: how many line feeds are in front of it, and how many characters
since the last of them. -/
def positionAt? (t : Text) (n : Nat) : Option (Nat × Nat) :=
  (t.cut? n).map fun (upper, _) =>
    (upper.count '\n', (upper.takeEndWhile (· != '\n')).length)

section FirstLine

/-- The content of the line that a text starts with. -/
def firstLine (t : Text) : Text := dropReturn (t.takeWhile (· != '\n'))

theorem offsetAt_zero (t : Text) (column : Nat) :
    t.offsetAt 0 column = size (t.firstLine.take column) := by
  cases t <;> rfl

theorem firstLine_prefix_takeWhile (t : Text) : t.firstLine <+: t.takeWhile (· != '\n') := by
  obtain ⟨last, hlast, -⟩ := exists_dropReturn (t.takeWhile (· != '\n'))
  exact ⟨last, hlast.symm⟩

theorem size_le_of_isPrefix {a b : Text} (h : a <+: b) : size a ≤ size b := by
  obtain ⟨rest, rfl⟩ := h
  rw [size_append]
  exact Nat.le_add_right _ _

end FirstLine

theorem isBoundary_offsetAt (t : Text) (line column : Nat) :
    t.isBoundary (t.offsetAt line column) = true := by
  fun_induction offsetAt t line column with
  | case1 t column =>
    obtain ⟨rest, hrest⟩ : t.firstLine.take column <+: t :=
      (List.take_prefix column t.firstLine).trans
        ((firstLine_prefix_takeWhile t).trans (List.takeWhile_prefix _))
    have hboundary := isBoundary_size_append (t.firstLine.take column) rest
    rwa [hrest] at hboundary
  | case2 => exact isBoundary_zero []
  | case3 c t line column ih =>
    have hadd := isBoundary_size_add [c] t (offsetAt t (if c = '\n' then line else line + 1) column)
    rw [size_cons, size_nil, Nat.add_zero] at hadd
    exact hadd.trans ih

section Order

theorem offsetAt_le_of_column {column column' : Nat} (h : column ≤ column') (line : Nat) :
    t.offsetAt line column ≤ t.offsetAt line column' := by
  fun_induction offsetAt t line column with
  | case1 t column =>
    rw [offsetAt_zero]
    exact size_le_of_isPrefix (List.take_prefix_take_left h)
  | case2 => exact Nat.zero_le _
  | case3 c t line column ih =>
    rw [offsetAt]
    exact Nat.add_le_add_left (ih h) _

/-- The positions of later lines are behind the first one. -/
theorem size_takeWhile_le_offsetAt (t : Text) (line column : Nat) :
    size (t.takeWhile (· != '\n')) ≤ t.offsetAt (line + 1) column := by
  induction t with
  | nil => exact Nat.zero_le _
  | cons c t ih =>
    rw [offsetAt]
    by_cases hc : c = '\n'
    · rw [List.takeWhile_cons_of_neg (by simp [hc])]
      exact Nat.zero_le _
    · rw [List.takeWhile_cons_of_pos (by simp [hc]), if_neg hc, size_cons]
      exact Nat.add_le_add_left ih _

theorem offsetAt_le_of_line {line line' : Nat} (h : line < line') (column column' : Nat) :
    t.offsetAt line column ≤ t.offsetAt line' column' := by
  obtain ⟨line', rfl⟩ : ∃ k, line' = k + 1 := ⟨line' - 1, by omega⟩
  induction t generalizing line line' with
  | nil => cases line <;> exact Nat.le_of_eq (by simp [offsetAt, dropReturn, endsWith])
  | cons c t ih =>
    cases line with
    | zero =>
      rw [offsetAt_zero]
      calc size ((firstLine (c :: t)).take column)
        _ ≤ size ((c :: t).takeWhile (· != '\n')) :=
          size_le_of_isPrefix ((List.take_prefix _ _).trans (firstLine_prefix_takeWhile _))
        _ ≤ offsetAt (c :: t) (line' + 1) column' := size_takeWhile_le_offsetAt _ _ _
    | succ line =>
      rw [offsetAt, offsetAt]
      refine Nat.add_le_add_left ?_ _
      by_cases hc : c = '\n'
      · obtain ⟨k, rfl⟩ : ∃ k, line' = k + 1 := ⟨line' - 1, by omega⟩
        rw [if_pos hc, if_pos hc]
        exact ih k (by omega)
      · rw [if_neg hc, if_neg hc]
        exact ih line' h

/-- Offsets grow with their positions, by line first and by character then. -/
theorem monotone_offsetAt (t : Text) :
    Monotone fun position : ℕ ×ₗ ℕ => t.offsetAt (ofLex position).1 (ofLex position).2 := by
  intro p q hle
  simp only
  rcases Prod.Lex.le_iff.mp hle with hline | ⟨hline, hcolumn⟩
  · exact offsetAt_le_of_line hline _ _
  · rw [hline]
    exact offsetAt_le_of_column hcolumn _

end Order

section Inverse

theorem WholeLines.of_cons {c : Char} (h : WholeLines (c :: t)) :
    t.WholeLines ∧ (t = [] → c = '\n') := by
  have hlast : (c :: t).getLast? = some '\n' := h.resolve_left (List.cons_ne_nil c t)
  cases t with
  | nil => exact ⟨.inl rfl, fun _ => by simpa using hlast⟩
  | cons d t => exact ⟨.inr (by rwa [List.getLast?_cons_cons] at hlast), fun h => by cases h⟩

/-- Complete lines in front of a text move its positions down, one line for each of them. -/
theorem offsetAt_append {above : Text} (h : above.WholeLines) (below : Text) (column : Nat) :
    offsetAt (above ++ below) (above.count '\n') column = above.size + offsetAt below 0 column := by
  induction above with
  | nil => simp
  | cons c above ih =>
    obtain ⟨hrest, hfeed⟩ := h.of_cons
    rw [size_cons, Nat.add_assoc, ← ih hrest, List.cons_append]
    by_cases hc : c = '\n'
    · rw [hc, List.count_cons_self, offsetAt, if_pos rfl]
    · have hmem : '\n' ∈ above :=
        List.mem_of_getLast? (hrest.resolve_left fun hnil => hc (hfeed hnil))
      obtain ⟨k, hk⟩ : ∃ k, above.count '\n' = k + 1 :=
        ⟨above.count '\n' - 1, by have := List.count_pos_iff.mpr hmem; omega⟩
      rw [List.count_cons_of_ne hc, hk, offsetAt, if_neg hc]

theorem positionAt?_eq {v : LineView} (h : LineView.at? t n = some v) :
    t.positionAt? n = some (v.above.count '\n', v.head.length) := by
  obtain ⟨⟨upper, lower⟩, hcut, rfl⟩ := Option.map_eq_some_iff.mp h
  have hfeed : '\n' ∉ upper.takeEndWhile (· != '\n') := fun hc =>
    absurd (LineView.mem_takeEndWhile hc) (by decide)
  have hcount : upper.count '\n' = (upper.dropEndWhile (· != '\n')).count '\n' := by
    conv => lhs; rw [← dropEndWhile_append_takeEndWhile (· != '\n') upper]
    rw [List.count_append, List.count_eq_zero.mpr hfeed, Nat.add_zero]
  rw [positionAt?, hcut, Option.map_some]
  exact congrArg (fun line => some (line, (upper.takeEndWhile (· != '\n')).length)) hcount

/-- An offset is that of the line and of the character where its line view has it. -/
theorem offsetAt_view {v : LineView} (h : LineView.Shows t n v) (hreturn : ¬ t.AfterReturn n) :
    t.offsetAt (v.above.count '\n') v.head.length = n := by
  have htext : t = v.above ++ (v.head ++ v.tail ++ v.below) := by simpa using h.text
  have hwhole : v.above.WholeLines := by
    have hstarts := h.starts
    rw [htext] at hstarts
    exact startsLine_size_iff.mp hstarts
  have hline : firstLine (v.head ++ v.tail ++ v.below) = v.content := by
    rw [firstLine, h.takeWhile_eq, h.content_eq hreturn]
  rw [htext, offsetAt_append hwhole, offsetAt_zero, hline, LineView.content, List.take_left,
    ← size_append, h.offset]

theorem offsetAt_positionAt? (hn : t.isBoundary n = true) (hreturn : ¬ t.AfterReturn n) :
    ∃ line column, t.positionAt? n = some (line, column) ∧ t.offsetAt line column = n := by
  obtain ⟨v, hv⟩ := LineView.exists_at? hn
  exact ⟨_, _, positionAt?_eq hv, offsetAt_view (LineView.shows_of_at? hv) hreturn⟩

end Inverse

/-- Every position has an offset on a boundary within the text, and a later position no smaller one;
and every offset, but those behind the carriage return of a break, is the offset of its position. -/
theorem offset_of_position (t : Text) :
    (∀ line column, t.offsetAt line column ≤ t.size ∧
      t.isBoundary (t.offsetAt line column) = true) ∧
    (Monotone fun position : ℕ ×ₗ ℕ => t.offsetAt (ofLex position).1 (ofLex position).2) ∧
    ∀ n, t.isBoundary n = true → ¬ t.AfterReturn n →
      ∃ line column, t.positionAt? n = some (line, column) ∧ t.offsetAt line column = n := by
  refine ⟨fun line column => ?_, monotone_offsetAt t, fun n => offsetAt_positionAt?⟩
  have hboundary := isBoundary_offsetAt t line column
  exact ⟨le_size_of_isBoundary hboundary, hboundary⟩

/-- In the second line the positions grow up to its end; the place between a return and its line feed
has a position that stands for the place in front of both. -/
theorem returnedLine_positions :
    returnedLine.positionAt? 7 = some (1, 1) ∧ returnedLine.offsetAt 1 1 = 7 ∧
      returnedLine.offsetAt 1 1 ≤ returnedLine.offsetAt 1 9 ∧
      returnedLine.positionAt? 5 = some (0, 4) ∧ returnedLine.offsetAt 0 4 = 4 := by
  obtain ⟨-, hmono, hinverse⟩ := offset_of_position returnedLine
  have hposition : returnedLine.positionAt? 7 = some (1, 1) := by decide
  obtain ⟨line, column, hline, hoffset⟩ := hinverse 7 (by decide) (by decide)
  cases hposition.symm.trans hline
  have hle : toLex ((1, 1) : ℕ × ℕ) ≤ toLex (1, 9) := Prod.Lex.le_iff.mpr (.inr ⟨rfl, by decide⟩)
  exact ⟨hposition, hoffset, hmono hle, by decide, by decide⟩

end Text
end LogProbe
