import LogProbe.Editor.Basic
import LogProbe.Proofs.Edit.Acceptance
import LogProbe.Proofs.Edit.TabStops

/-! Snippets that are put in, and the cursors that they leave behind. The cursor lies in the text
put in unless the first stop of the snippet makes a new one with what is around it and nothing else
follows. -/
namespace LogProbe
namespace Editor
open Snippet
variable {e e' : Editor} {s : Snippet} {site : Selection}

theorem exists_split_of_insertSnippet (h : insertSnippet s site e = .ok e') :
    ∃ above below, e'.text = above ++ s.plainText ++ below ∧ above.size = site.start ∧
      e'.cursors = e.cursors ++ (s.firstStop?.map (site.start + ·)).toList := by
  rw [insertSnippet] at h
  cases htext : Edit.applyAll e.text [⟨site.start, site.stop, s.plainText⟩] with
  | error failure =>
    rw [htext] at h
    cases h
  | ok t =>
    rw [htext] at h
    cases h
    obtain ⟨above, replaced, below, -, hstart, -, rfl⟩ := Edit.exists_split_of_applyAll_one htext
    exact ⟨above, below, rfl, hstart, rfl⟩

/-- The cursor stands behind what the part of the body in front of the first stop leaves. -/
theorem exists_cursor_of_insertSnippet {d : Char} {before after : Text}
    (h : insertSnippet s site e = .ok e') (hstop : IsFirstStop s.body d before after) :
    ∃ above below cursor, e'.text = above ++ s.plainText ++ below ∧ above.size = site.start ∧
      e'.cursors = e.cursors ++ [cursor] ∧ cursor = (above ++ plain before).size ∧
      (cursor ≤ (above ++ s.plainText).size ↔
        (MakesStop d before after → plain after ≠ ['0'])) := by
  obtain ⟨above, below, htext, hstart, hcursors⟩ := exists_split_of_insertSnippet h
  have hfirst : s.firstStop? = some (plain before).size :=
    firstStop?_eq_some_iff.mpr ⟨d, before, after, hstop, rfl⟩
  refine ⟨above, below, (above ++ plain before).size, htext, hstart, ?_, rfl, ?_⟩
  · rw [hcursors, hfirst, Text.size_append, hstart]
    rfl
  · rw [Text.size_append, Text.size_append, Nat.add_le_add_iff_left]
    exact hstop.size_le_iff

/-- What becomes of the tab stops of a snippet. Its plain text has a stop exactly where a `$` and a
digit come together around a gap. The first stop is the first `$1`, or else the first `$0`, and its
offset is the size of what the part in front of it leaves. The plain texts of the parts in front of
it and behind it make up that of the body, unless it makes a new stop, which takes the last
character of the one and the first of the other. The cursor lies in the text that is put in unless
that happens and nothing follows. None of this happens where no stop stands right behind a `$`. -/
theorem insertSnippet_tabStops (s : Snippet) :
    (tabStop '1' <:+: s.plainText ↔ Joins '1' s.body) ∧
    (tabStop '0' <:+: s.plainText ↔ Joins '0' s.body) ∧
    (s.firstStop? = none ↔ ¬ tabStop '1' <:+: s.body ∧ ¬ tabStop '0' <:+: s.body) ∧
    (∀ k, s.firstStop? = some k ↔
      ∃ d before after, IsFirstStop s.body d before after ∧ (plain before).size = k) ∧
    (StopsApart s.body → ¬ tabStop '1' <:+: s.plainText ∧ ¬ tabStop '0' <:+: s.plainText ∧
      ∀ d before after, IsFirstStop s.body d before after →
        s.plainText = plain before ++ plain after) ∧
    ∀ d before after, IsFirstStop s.body d before after →
      (s.plainText = plain before ++ plain after ↔ ¬ MakesStop d before after) ∧
      (MakesStop d before after → ∃ p q, plain before = p ++ ['$'] ∧ plain after = '0' :: q ∧
        s.plainText = p ++ q) ∧
      ((plain before).size ≤ s.plainText.size ↔
        (MakesStop d before after → plain after ≠ ['0'])) ∧
      ∀ e e' site, insertSnippet s site e = .ok e' →
        ∃ above below cursor, e'.text = above ++ s.plainText ++ below ∧
          above.size = site.start ∧ e'.cursors = e.cursors ++ [cursor] ∧
          cursor = (above ++ plain before).size ∧
          (cursor ≤ (above ++ s.plainText).size ↔
            (MakesStop d before after → plain after ≠ ['0'])) := by
  have hone : tabStop '1' <:+: s.plainText ↔ Joins '1' s.body := isInfix_plain_iff (.inl rfl)
  have hzero : tabStop '0' <:+: s.plainText ↔ Joins '0' s.body := isInfix_plain_iff (.inr rfl)
  refine ⟨hone, hzero, firstStop?_eq_none_iff, fun k => firstStop?_eq_some_iff, fun hapart => ?_,
    fun d before after hstop => ?_⟩
  · refine ⟨mt hone.mp hapart.not_joins, mt hzero.mp hapart.not_joins, ?_⟩
    intro d before after hstop
    exact hstop.plain_eq_append (hapart.not_makesStop hstop)
  · refine ⟨hstop.plain_eq_append_iff, hstop.exists_of_makesStop, hstop.size_le_iff, ?_⟩
    intro e e' site h
    exact exists_cursor_of_insertSnippet h hstop

/-- A word in brackets. -/
def bracketsEditor : Editor where
  languageId := "javascript"
  text := "[ xx ]".toList

def callSnippet : Snippet := ⟨"log($1)$0".toList⟩

theorem callSnippet_isFirstStop :
    IsFirstStop callSnippet.body '1' "log(".toList ")$0".toList :=
  ⟨(Text.splitOnce?_eq_some_iff (tabStop_ne_nil '1')).mp (by decide), .inl rfl⟩

/-- A call in the place of the word, with the cursor between its parentheses. -/
theorem bracketsEditor_cursor :
    ∃ e', insertSnippet callSnippet ⟨4, 2⟩ bracketsEditor = .ok e' ∧
      e'.text = "[ log() ]".toList ∧ e'.cursors = [6] ∧
      ¬ tabStop '1' <:+: callSnippet.plainText ∧ ¬ tabStop '0' <:+: callSnippet.plainText ∧
      callSnippet.plainText = plain "log(".toList ++ plain ")$0".toList ∧
      ∃ above below, e'.text = above ++ callSnippet.plainText ++ below ∧ above.size = 2 ∧
        6 ≤ (above ++ callSnippet.plainText).size := by
  obtain ⟨e', hinsert, htext, hcursors⟩ : ∃ e',
      insertSnippet callSnippet ⟨4, 2⟩ bracketsEditor = .ok e' ∧
      e'.text = "[ log() ]".toList ∧ e'.cursors = [6] := by
    simp only [insertSnippet, Edit.applyAll_singleton]
    exact ⟨_, rfl, rfl, rfl⟩
  have hapart : StopsApart callSnippet.body := by
    rintro c (rfl | rfl)
    all_goals exact (Text.splitOnce?_eq_none_iff (List.cons_ne_nil _ _)).mp (by decide)
  obtain ⟨-, -, -, -, hclean, hstops⟩ := insertSnippet_tabStops callSnippet
  obtain ⟨hone, hzero, hplain⟩ := hclean hapart
  obtain ⟨-, -, -, hcursor⟩ := hstops '1' _ _ callSnippet_isFirstStop
  obtain ⟨above, below, cursor, hsplit, hstart, hrecorded, -, hinside⟩ := hcursor _ _ _ hinsert
  obtain rfl : 6 = cursor := List.head_eq_of_cons_eq (hcursors.symm.trans hrecorded)
  refine ⟨e', hinsert, htext, hcursors, hone, hzero, hplain _ _ _ callSnippet_isFirstStop, above,
    below, hsplit, hstart, hinside.mpr fun hnew => ?_⟩
  exact absurd hnew (hapart.not_makesStop callSnippet_isFirstStop)

/-- An editor without text, with cursors that snippets have left. -/
def emptyEditor (cursors : List Nat) : Editor where
  languageId := "javascript"
  text := []
  cursors := cursors

/-- A `$1` between a `$` and a `0`. -/
def enclosedStop : Snippet := ⟨"$$10".toList⟩

/-- A `$0` between a `$` and a `0`, behind the first stop. -/
def enclosedEnd : Snippet := ⟨"$1$$00".toList⟩

theorem enclosedStop_isFirstStop : IsFirstStop enclosedStop.body '1' ['$'] ['0'] :=
  ⟨(Text.splitOnce?_eq_some_iff (tabStop_ne_nil '1')).mp (by decide), .inl rfl⟩

/-- The one snippet puts nothing in and leaves its cursor behind the end; the other puts a tab stop
in. -/
theorem emptyEditor_cursor_outside :
    insertSnippet enclosedStop (.cursor 0) (emptyEditor []) = .ok (emptyEditor [1]) ∧
      (¬ ∀ k, enclosedStop.firstStop? = some k → k ≤ enclosedStop.plainText.size) ∧
      IsFirstStop enclosedStop.body '1' ['$'] ['0'] ∧
      enclosedStop.plainText ≠ plain ['$'] ++ plain ['0'] ∧
      insertSnippet enclosedEnd (.cursor 0) (emptyEditor [1]) =
        .ok { emptyEditor [1, 0] with text := tabStop '0' } ∧
      tabStop '0' <:+: enclosedEnd.plainText := by
  have hgone : enclosedStop.plainText = [] := by decide
  have hstop : enclosedStop.firstStop? = some 1 := by decide
  have hkept : tabStop '0' <:+: enclosedEnd.plainText := ⟨[], [], by decide⟩
  refine ⟨?_, fun h => ?_, enclosedStop_isFirstStop, by decide, ?_, hkept⟩
  · simp only [insertSnippet, Edit.applyAll_singleton]
    rfl
  · have hle := h 1 hstop
    rw [hgone] at hle
    exact absurd hle (by decide)
  · simp only [insertSnippet, Edit.applyAll_singleton]
    rfl

end Editor
end LogProbe
