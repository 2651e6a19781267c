import LogProbe.Text.Basic
import Mathlib.Data.List.Basic

/-! Pieces of a text. A text falls into pieces at every occurrence of a separator and is made up of
them again. At the first occurrence of a longer separator it falls into two parts. -/
namespace LogProbe
namespace Text
variable {separator : Char}

theorem split_append (a b : Text) : split separator (a ++ separator :: b) =
    ((split separator a).1, (split separator a).2 ++ (split separator b).1 ::
      (split separator b).2) := by
  induction a with
  | nil => simp [split]
  | cons c a ih =>
    rw [List.cons_append, split, split, ih]
    by_cases hc : c = separator <;> simp [hc]

theorem split_of_not_mem {t : Text} (h : separator ∉ t) : split separator t = (t, []) := by
  induction t with
  | nil => rfl
  | cons c t ih =>
    rw [List.mem_cons, not_or] at h
    rw [split, ih h.2]
    simp [Ne.symm h.1]

theorem not_mem_split (t : Text) :
    separator ∉ (split separator t).1 ∧ ∀ piece ∈ (split separator t).2, separator ∉ piece := by
  induction t with
  | nil => simp [split]
  | cons c t ih =>
    by_cases h : c = separator
    · simpa [split, h] using ih
    · simpa [split, h, Ne.symm h] using ih

/-- Pieces without a separator are the pieces of the text they make up. -/
theorem split_join {first : Text} {rest : List Text} (hfirst : separator ∉ first)
    (hrest : ∀ piece ∈ rest, separator ∉ piece) :
    split separator (join separator first rest) = (first, rest) := by
  induction rest generalizing first with
  | nil => simpa [join] using split_of_not_mem hfirst
  | cons piece rest ih =>
    have hjoin : join separator first (piece :: rest) =
        first ++ separator :: join separator piece rest := by
      simp [join]
    rw [hjoin, split_append, split_of_not_mem hfirst,
      ih (hrest piece List.mem_cons_self) fun p hp => hrest p (List.mem_cons_of_mem _ hp)]
    rfl

section FirstOccurrence
variable {separator t a b : Text}

/-- The two parts of a text are in front of and behind the first occurrence of a separator. -/
structure CutsAtFirst (separator t a b : Text) : Prop where
  text : t = a ++ separator ++ b
  first : ∀ a' b', t = a' ++ separator ++ b' → a.length ≤ a'.length

theorem CutsAtFirst.isInfix (h : CutsAtFirst separator t a b) : separator <:+: t :=
  ⟨a, b, h.text.symm⟩

theorem CutsAtFirst.unique {a' b' : Text} (h : CutsAtFirst separator t a b)
    (h' : CutsAtFirst separator t a' b') : a = a' ∧ b = b' := by
  have hlength : a.length = a'.length := Nat.le_antisymm (h.first _ _ h'.text) (h'.first _ _ h.text)
  have htext : a ++ (separator ++ b) = a' ++ (separator ++ b') := by
    simpa using h.text.symm.trans h'.text
  obtain ⟨ha, hrest⟩ := List.append_inj htext hlength
  exact ⟨ha, List.append_cancel_left hrest⟩

/-- No separator lies in front of the first one. -/
theorem CutsAtFirst.not_isInfix (h : CutsAtFirst separator t a b) (hne : separator ≠ []) :
    ¬ separator <:+: a := by
  rintro ⟨p, q, rfl⟩
  have hfirst := h.first p (q ++ separator ++ b) (by rw [h.text]; simp)
  have hpos := List.length_pos_iff.mpr hne
  simp only [List.length_append] at hfirst
  omega

/-- Where a separator does not occur at the start, the parts are those of the rest. -/
theorem cutsAtFirst_cons_iff {c : Char} (h : ¬ separator <+: c :: t) :
    CutsAtFirst separator (c :: t) a b ↔ ∃ a', a = c :: a' ∧ CutsAtFirst separator t a' b := by
  constructor
  · rintro ⟨htext, hfirst⟩
    cases a with
    | nil => exact absurd ⟨b, htext.symm⟩ h
    | cons d a =>
      obtain ⟨rfl, hrest⟩ := List.cons.inj htext
      refine ⟨a, rfl, hrest, fun a' b' ht => ?_⟩
      exact Nat.le_of_succ_le_succ (hfirst (c :: a') b' (congrArg (c :: ·) ht))
  · rintro ⟨a, rfl, htext, hfirst⟩
    refine ⟨congrArg (c :: ·) htext, fun a' b' ht => ?_⟩
    cases a' with
    | nil => exact absurd ⟨b', ht.symm⟩ h
    | cons d a' => exact Nat.succ_le_succ (hfirst a' b' (List.cons.inj ht).2)

theorem splitOnce?_eq_some_iff (h : separator ≠ []) :
    splitOnce? separator t = some (a, b) ↔ CutsAtFirst separator t a b := by
  induction t generalizing a b with
  | nil =>
    refine iff_of_false (by simp [splitOnce?]) fun hcut => h ?_
    exact (List.append_eq_nil_iff.mp (List.append_eq_nil_iff.mp hcut.text.symm).1).2
  | cons c t ih =>
    rw [splitOnce?]
    split
    · rename_i hstart
      obtain ⟨rest, hrest⟩ := List.isPrefixOf_iff_prefix.mp hstart
      rw [← hrest, List.drop_left, Option.some.injEq, Prod.mk.injEq]
      constructor
      · rintro ⟨rfl, rfl⟩
        exact ⟨rfl, fun _ _ _ => Nat.zero_le _⟩
      · rintro ⟨htext, hfirst⟩
        obtain rfl : a = [] := List.length_eq_zero_iff.mp (Nat.le_zero.mp (hfirst [] rest rfl))
        exact ⟨rfl, List.append_cancel_left htext⟩
    · rename_i hstart
      rw [List.isPrefixOf_iff_prefix] at hstart
      rw [cutsAtFirst_cons_iff hstart, Option.map_eq_some_iff]
      constructor
      · rintro ⟨⟨a', b'⟩, hsplit, heq⟩
        cases heq
        exact ⟨a', rfl, ih.mp hsplit⟩
      · rintro ⟨a', rfl, hcut⟩
        exact ⟨(a', b), ih.mpr hcut, rfl⟩

theorem splitOnce?_eq_none_iff (h : separator ≠ []) :
    splitOnce? separator t = none ↔ ¬ separator <:+: t := by
  induction t with
  | nil => exact iff_of_true rfl fun hin => h (List.infix_nil.mp hin)
  | cons c t ih =>
    rw [splitOnce?, List.infix_cons_iff]
    split
    · rename_i hstart
      exact iff_of_false (by simp) fun hnot => hnot (.inl (List.isPrefixOf_iff_prefix.mp hstart))
    · rename_i hstart
      rw [List.isPrefixOf_iff_prefix] at hstart
      rw [Option.map_eq_none_iff, ih, or_iff_right hstart]

/-- A separator occurs first behind a text that has no character it could start with. -/
theorem cutsAtFirst_of_not_mem {c : Char} {rest : Text} (h : c ∉ a) (b : Text) :
    CutsAtFirst (c :: rest) (a ++ c :: rest ++ b) a b := by
  refine ⟨rfl, fun a' b' ht => ?_⟩
  rw [List.append_assoc, List.append_assoc] at ht
  rcases List.append_eq_append_iff.mp ht with ⟨m, rfl, -⟩ | ⟨m, rfl, hm⟩
  · rw [List.length_append]
    exact Nat.le_add_right _ _
  · cases m with
    | nil => exact Nat.le_of_eq (congrArg List.length (List.append_nil a'))
    | cons d m =>
      obtain ⟨rfl, -⟩ := List.cons.inj hm
      exact absurd (List.mem_append_right _ List.mem_cons_self) h

end FirstOccurrence

end Text
end LogProbe
