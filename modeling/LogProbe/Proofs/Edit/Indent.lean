import LogProbe.Edit.Indent
import LogProbe.Proofs.Edit.Order
import LogProbe.Proofs.Text.Layout
import LogProbe.Proofs.Text.Split

/-! What indentation leaves as it is: the span of every edit and the ink of its text, and a text of
one line that goes into a text without padding. -/
namespace LogProbe
namespace Indent

/-- Padding changes the text of an edit alone. -/
theorem exists_reindent?_of_reindentEdit? {i : Indent} {source : Text} {e e' : Edit}
    (h : i.reindentEdit? source e = some e') :
    ∃ base text, i.reindent? e.text base = some text ∧ e' = { e with text } := by
  have hrest : ∀ base : Text, ((i.reindent? e.text base).bind fun text =>
      some { e with text }) = some e' →
        ∃ base text, i.reindent? e.text base = some text ∧ e' = { e with text } := by
    intro base h
    obtain ⟨text, htext, h⟩ := Option.bind_eq_some_iff.mp h
    exact ⟨base, text, htext, (Option.some.inj h).symm⟩
  obtain ⟨view, -, h⟩ := Option.bind_eq_some_iff.mp h
  simp only at h
  split at h
  · obtain ⟨base, -, h⟩ := Option.bind_eq_some_iff.mp h
    exact hrest base h
  · exact hrest _ h

theorem span_reindentEdit? {i : Indent} {source : Text} {e e' : Edit}
    (h : i.reindentEdit? source e = some e') : e'.span = e.span := by
  obtain ⟨base, text, -, rfl⟩ := exists_reindent?_of_reindentEdit? h
  rfl

theorem isPadding_of_mem_unit? {i : Indent} {unit : Text} (h : i.unit? = some unit) :
    unit.all isPadding = true := by
  rw [unit?] at h
  split at h
  · rw [Text.repeat?] at h
    split at h
    · cases h
      simp [isPadding]
    · cases h
  · cases h
    rfl

theorem ink_join (first : Text) (rest : List Text) :
    (Text.join '\n' first rest).ink = first.ink ++ rest.flatMap Text.ink := by
  rw [Text.join, Text.ink_append]
  induction rest with
  | nil => rfl
  | cons line rest ih =>
    have hline : Text.ink ('\n' :: line) = line.ink := rfl
    rw [List.append_cancel_left_eq] at ih
    rw [List.flatMap_cons, Text.ink_append, hline, List.flatMap_cons, ih]

theorem ink_dropWhile_isPadding (line : Text) : Text.ink (line.dropWhile isPadding) = line.ink := by
  have hsplit : line.takeWhile isPadding ++ line.dropWhile isPadding = line :=
    List.takeWhile_append_dropWhile
  have hpadding : Text.ink (line.takeWhile isPadding) = [] :=
    Text.ink_of_all (Text.all_isLayout_of_isPadding List.all_takeWhile)
  calc Text.ink (line.dropWhile isPadding)
      = Text.ink (line.takeWhile isPadding ++ line.dropWhile isPadding) := by
        rw [Text.ink_append, hpadding, List.nil_append]
    _ = line.ink := by rw [hsplit]

/-- The induction follows the lines: each is padded after the one before it. -/
theorem ink_padLines? {unit previous : Text} {level : Nat} {lines padded : List Text}
    (hunit : unit.all isPadding = true) (h : padLines? unit level previous lines = some padded) :
    padded.flatMap Text.ink = lines.flatMap Text.ink := by
  induction lines generalizing level previous padded with
  | nil =>
    cases h
    rfl
  | cons line lines ih =>
    simp only [padLines?, Option.bind_eq_bind, Option.bind_eq_some_iff] at h
    obtain ⟨padding, hpadding, rest, hrest, h⟩ := h
    cases h
    have hlayout : padding.ink = [] := by
      rw [Text.repeat?] at hpadding
      split at hpadding
      · cases hpadding
        refine Text.ink_of_all (Text.all_isLayout_of_isPadding ?_)
        simpa [List.all_flatten] using .inr (by simpa using hunit)
      · cases hpadding
    rw [List.flatMap_cons, List.flatMap_cons, ih hrest, Text.ink_append, hlayout,
      ink_dropWhile_isPadding, List.nil_append]

/-- Padding its lines keeps the ink of a text. -/
theorem ink_reindent? {i : Indent} {text base text' : Text}
    (h : i.reindent? text base = some text') : text'.ink = text.ink := by
  rw [reindent?] at h
  split at h
  · cases h
    rfl
  · simp only [Option.bind_eq_bind, Option.bind_eq_some_iff] at h
    obtain ⟨unit, hunit, level, -, padded, hpadded, h⟩ := h
    cases h
    calc (Text.join '\n' (Text.split '\n' text).1 padded).ink
        = (Text.join '\n' (Text.split '\n' text).1 (Text.split '\n' text).2).ink := by
          rw [ink_join, ink_join, ink_padLines? (isPadding_of_mem_unit? hunit) hpadded]
      _ = text.ink := by rw [Text.join_split]

theorem reindent?_line {text : Text} (h : '\n' ∉ text) :
    ({} : Indent).reindent? text [] = some text := by
  unfold reindent?
  split
  · rfl
  · have hunit : ({} : Indent).unit? = some [' ', ' ', ' ', ' '] := by decide
    have hlevel : ({} : Indent).levelOf? [] = some 0 := by decide
    simp [hunit, hlevel, Text.split_of_not_mem h, padLines?, Text.join]

/-- A text of one line goes unchanged into a text without padding. -/
theorem reindentEdit?_line {e : Edit} {n : Nat} (hstart : e.start ≤ n) (h : '\n' ∉ e.text) :
    ({} : Indent).reindentEdit? (List.replicate n 'x') e = some e := by
  have hview : LineView.at? (List.replicate n 'x') e.start =
      some (.ofCut (List.replicate e.start 'x') (List.replicate (n - e.start) 'x')) := by
    rw [LineView.at?, Text.cut?_replicate rfl hstart]
    rfl
  have hbase : (LineView.ofCut (List.replicate e.start 'x')
      (List.replicate (n - e.start) 'x')).head.takeWhile isPadding = [] := by
    simp [LineView.ofCut, Text.takeEndWhile, isPadding]
  have hfirst : e.text.startsWith '\n' = false := by
    rw [Text.startsWith, beq_eq_false_iff_ne]
    exact fun hhead => h (List.mem_of_mem_head? hhead)
  simp [reindentEdit?, hview, hfirst, hbase, reindent?_line h]

end Indent
end LogProbe
