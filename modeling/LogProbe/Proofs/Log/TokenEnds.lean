import LogProbe.Proofs.Log.Truncation
import Mathlib.Order.Bounds.Basic

/-! The places between the tokens of a text. A cut that moves back moves to the last of these places
in front of it, so that it splits no token and gives up no token that it need not; what a caption
keeps of a text is a number of whole tokens. -/
namespace LogProbe
namespace Caption
variable {t : Text} {n cut : Nat}

/-- A place between two tokens, counted in characters: the start, or behind the first token a place
between two tokens of the rest. An escape sequence that the text is too short for ends beyond it. -/
inductive IsTokenEnd : Text → Nat → Prop
  | start (t : Text) : IsTokenEnd t 0
  | behind {t : Text} {n : Nat} (ne : t ≠ []) (rest : IsTokenEnd (t.drop (tokenLength t)) n) :
      IsTokenEnd t (tokenLength t + n)

/-- The places between two tokens up to a cut. -/
def tokenEnds (t : Text) (cut : Nat) : Set Nat := {n | IsTokenEnd t n ∧ n ≤ cut}

/-- The tokens of a text from the left. The end of the text may cut the last one short. -/
def tokens : Text → List Text
  | [] => []
  | c :: t =>
    (c :: t).take (tokenLength (c :: t)) :: tokens ((c :: t).drop (tokenLength (c :: t)))
termination_by t => t.length
decreasing_by
  have hpos := tokenLength_pos (c :: t)
  rw [List.length_drop, List.length_cons]
  omega

theorem flatten_tokens (t : Text) : (tokens t).flatten = t := by
  fun_induction tokens t with
  | case1 => rfl
  | case2 c t ih => rw [List.flatten_cons, ih, List.take_append_drop]

/-- In front of a token's end there are whole tokens. -/
theorem IsTokenEnd.exists_take (h : IsTokenEnd t n) :
    ∃ count, t.take n = ((tokens t).take count).flatten := by
  induction h with
  | start t => exact ⟨0, by rw [List.take_zero, List.take_zero, List.flatten_nil]⟩
  | @behind t n ne _ ih =>
    obtain ⟨count, hcount⟩ := ih
    cases t with
    | nil => cases ne rfl
    | cons c t =>
      refine ⟨count + 1, ?_⟩
      rw [tokens, List.take_succ_cons, List.flatten_cons, ← hcount, List.take_add]

/-- The recursion is that of the tokens in front of the cut. -/
theorem isGreatest_escapeBoundary (hcut : cut ≤ t.length) :
    IsGreatest (tokenEnds t cut) (escapeBoundary t cut) := by
  induction cut using Nat.strongRecOn generalizing t with
  | _ cut ih =>
    have hpos := tokenLength_pos t
    by_cases hlt : cut < tokenLength t
    · rw [escapeBoundary_of_lt hlt]
      refine ⟨⟨.start t, Nat.zero_le _⟩, ?_⟩
      rintro n ⟨hend, hn⟩
      cases hend with
      | start => exact Nat.le_refl 0
      | behind _ _ => omega
    · have hle : tokenLength t ≤ cut := Nat.le_of_not_lt hlt
      have hne : t ≠ [] := by
        rintro rfl
        exact absurd (Nat.le_trans hle hcut) (Nat.not_le.mpr hpos)
      have hroom : cut - tokenLength t ≤ (t.drop (tokenLength t)).length := by
        rw [List.length_drop]
        exact Nat.sub_le_sub_right hcut _
      obtain ⟨⟨hend, hbound⟩, hgreatest⟩ := ih (cut - tokenLength t) (by omega) hroom
      rw [escapeBoundary_of_le hle hcut]
      refine ⟨⟨.behind hne hend, by omega⟩, ?_⟩
      rintro n ⟨hend, hn⟩
      cases hend with
      | start => exact Nat.zero_le _
      | @behind _ n _ hrest =>
        have hn' : n ≤ cut - tokenLength t := by omega
        exact Nat.add_le_add_left (hgreatest ⟨hrest, hn'⟩) _

/-- A cut moves back to the last place between two tokens that is not behind it. So a caption keeps
whole tokens of a text: all of them, or of a long text as many as its room takes, which is a
character less where a parenthesis is closed. -/
theorem cut_between_tokens (t : Text) :
    (∀ cut ≤ t.length, IsGreatest (tokenEnds t cut) (escapeBoundary t cut)) ∧
    ∃ kept mark, truncate t = kept ++ mark ∧ kept <+: t ∧
      (∃ count, kept = ((tokens t).take count).flatten) ∧
      (mark = [] ∧ kept = t ∨
        mark = [ellipsis] ∧ IsGreatest (tokenEnds t (maxLength - 1)) kept.length ∨
        mark = [ellipsis, ')'] ∧ IsGreatest (tokenEnds t (maxLength - 2)) kept.length) := by
  refine ⟨fun cut => isGreatest_escapeBoundary, ?_⟩
  by_cases hlong : maxLength < t.length
  · have hkept {kept : Text} {cut : Nat} (hcut : cut ≤ maxLength)
        (h : kept = t.take (escapeBoundary t cut)) :
        kept <+: t ∧ (∃ count, kept = ((tokens t).take count).flatten) ∧
          IsGreatest (tokenEnds t cut) kept.length := by
      have hroom : cut ≤ t.length := Nat.le_trans hcut (Nat.le_of_lt hlong)
      have hgreatest := isGreatest_escapeBoundary hroom
      obtain ⟨hend, hbound⟩ := hgreatest.1
      have hlength : kept.length = escapeBoundary t cut := by
        rw [h, List.length_take_of_le (Nat.le_trans hbound hroom)]
      exact ⟨h ▸ List.take_prefix _ _, h ▸ hend.exists_take, hlength ▸ hgreatest⟩
    obtain ⟨inner, last, hcuts⟩ := exists_cuts hlong
    rw [hcuts.truncate_eq hlong]
    split
    · obtain ⟨hfront, hwhole, hlast⟩ := hkept (Nat.sub_le _ _) hcuts.inner_eq
      exact ⟨inner, _, rfl, hfront, hwhole, .inr (.inr ⟨rfl, hlast⟩)⟩
    · obtain ⟨hfront, hwhole, hlast⟩ := hkept (Nat.sub_le _ _) hcuts.outer_eq
      exact ⟨inner ++ last, _, rfl, hfront, hwhole, .inr (.inl ⟨rfl, hlast⟩)⟩
  · have hsame : truncate t = t := if_pos (Nat.le_of_not_lt hlong)
    refine ⟨t, [], by rw [hsame, List.append_nil], List.prefix_rfl, ⟨(tokens t).length, ?_⟩,
      .inl ⟨rfl, rfl⟩⟩
    rw [List.take_length, flatten_tokens]

/-- A code point whose braces are not closed. -/
def openPoint : Text := "a\\u\x7b12".toList

/-- A sequence that is not closed takes in all that is left, so that no cut but the last keeps any of
it. -/
theorem openPoint_cut : openPoint.length = 6 ∧ IsGreatest (tokenEnds openPoint 5) 1 ∧
    IsGreatest (tokenEnds openPoint 6) 6 := by
  have hgreatest := (cut_between_tokens openPoint).1
  exact ⟨by decide, hgreatest 5 (by decide), hgreatest 6 (by decide)⟩

end Caption
end LogProbe
