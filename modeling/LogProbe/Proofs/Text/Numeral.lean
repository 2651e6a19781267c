import LogProbe.Text.Blank
import LogProbe.Text.Numeral

/-! Numerals as they are typed. A text is read as a number exactly if it is a numeral for a word: its
digits, as many as there are, have a value that a word can hold. Blanks on both sides are left
out. -/
namespace LogProbe

namespace Text
variable {t : Text}

theorem exists_trim (t : Text) :
    ∃ before behind, t = before ++ t.trim ++ behind ∧ (∀ c ∈ before, isBlank c = true) ∧
      ∀ c ∈ behind, isBlank c = true := by
  refine ⟨t.takeWhile isBlank, takeEndWhile isBlank (t.dropWhile isBlank), ?_, ?_, ?_⟩
  · rw [List.append_assoc, trim, trimEnd, dropEndWhile_append_takeEndWhile,
      List.takeWhile_append_dropWhile]
  · exact List.all_eq_true.mp List.all_takeWhile
  · intro c hc
    exact List.all_eq_true.mp List.all_takeWhile c (List.mem_reverse.mp hc)

theorem dropWhile_isBlank_append (hne : t ≠ []) (h : ∀ c ∈ t, isBlank c = false) (rest : Text) :
    (t ++ rest).dropWhile isBlank = t ++ rest := by
  cases t with
  | nil => cases hne rfl
  | cons c t =>
    rw [List.cons_append, List.dropWhile_cons_of_neg]
    simp [h c List.mem_cons_self]

theorem trim_append {before behind : Text} (hbefore : ∀ c ∈ before, isBlank c = true)
    (hne : t ≠ []) (h : ∀ c ∈ t, isBlank c = false) (hbehind : ∀ c ∈ behind, isBlank c = true) :
    trim (before ++ t ++ behind) = t := by
  have hreverse : t.reverse.dropWhile isBlank = t.reverse := by
    have hdrop := dropWhile_isBlank_append (List.reverse_ne_nil_iff.mpr hne)
      (fun c hc => h c (List.mem_reverse.mp hc)) []
    rwa [List.append_nil] at hdrop
  rw [trim, List.append_assoc, List.dropWhile_append_of_pos hbefore,
    dropWhile_isBlank_append hne h, trimEnd, dropEndWhile, List.reverse_append,
    List.dropWhile_append_of_pos fun c hc => hbehind c (List.mem_reverse.mp hc), hreverse,
    List.reverse_reverse]

end Text

namespace Numeral
variable {t : Text} {n m : Nat}

/-- One digit or more, which write a number. -/
structure IsDigits (t : Text) (n : Nat) : Prop where
  ne : t ≠ []
  digits : ∀ c ∈ t, c.isDigit = true
  value : Nat.ofDigitChars 10 t 0 = n

/-- Digits, with a plus sign in front of them or none. -/
inductive IsNumeral : Text → Nat → Prop
  | bare {t : Text} {n : Nat} (h : IsDigits t n) : IsNumeral t n
  | plus {t : Text} {n : Nat} (h : IsDigits t n) : IsNumeral ('+' :: t) n

/-- A numeral between blanks. -/
def IsTyped (t : Text) (n : Nat) : Prop :=
  ∃ before numeral behind, t = before ++ numeral ++ behind ∧ (∀ c ∈ before, isBlank c = true) ∧
    (∀ c ∈ behind, isBlank c = true) ∧ IsNumeral numeral n

section Reading

theorem le_ofDigitChars (t : Text) (n : Nat) : n ≤ Nat.ofDigitChars 10 t n := by
  rw [Nat.ofDigitChars_eq_ofDigitChars_zero]
  exact Nat.le_trans (Nat.le_mul_of_pos_left n (Nat.pow_pos (by decide))) (Nat.le_add_right _ _)

theorem digits_eq_ok_iff (hn : n < bound) :
    digits n t = .ok m ↔
      (∀ c ∈ t, c.isDigit = true) ∧ Nat.ofDigitChars 10 t n = m ∧ m < bound := by
  induction t generalizing n with
  | nil =>
    rw [digits, Nat.ofDigitChars_nil, Except.ok.injEq]
    constructor
    · rintro rfl
      exact ⟨by simp, rfl, hn⟩
    · exact fun h => h.2.1
  | cons c t ih =>
    rw [digits, digit?, List.forall_mem_cons, Nat.ofDigitChars_cons]
    by_cases hc : c.isDigit = true
    · rw [if_pos hc]
      by_cases hlarge : bound ≤ 10 * n + (c.toNat - '0'.toNat)
      · -- digits behind it make the number no smaller
        simp only [if_pos hlarge]
        refine iff_of_false (by simp) ?_
        rintro ⟨-, rfl, hm⟩
        exact absurd (Nat.le_trans hlarge (le_ofDigitChars t _)) (Nat.not_le.mpr hm)
      · simp only [if_neg hlarge, ih (Nat.lt_of_not_le hlarge), hc, true_and]
    · simp [hc]

theorem isNumeral_plus_iff : IsNumeral ('+' :: t) n ↔ IsDigits t n := by
  constructor
  · rintro (h | h)
    · exact absurd (h.digits '+' List.mem_cons_self) (by decide)
    · exact h
  · exact .plus

theorem isNumeral_iff_of_head? (h : t.head? ≠ some '+') : IsNumeral t n ↔ IsDigits t n := by
  constructor
  · rintro (hdigits | hdigits)
    · exact hdigits
    · exact absurd rfl h
  · exact .bare

theorem parse_eq_ok_iff : parse t = .ok n ↔ IsNumeral t n ∧ n < bound := by
  have hdigits {t : Text} (ht : t ≠ []) : digits 0 t = .ok n ↔ IsDigits t n ∧ n < bound := by
    rw [digits_eq_ok_iff (by decide)]
    exact ⟨fun ⟨hall, hvalue, hn⟩ => ⟨⟨ht, hall, hvalue⟩, hn⟩,
      fun ⟨⟨_, hall, hvalue⟩, hn⟩ => ⟨hall, hvalue, hn⟩⟩
  unfold parse
  split
  · rw [isNumeral_iff_of_head? (by simp)]
    exact iff_of_false (by simp) fun h => h.1.ne rfl
  · rw [isNumeral_plus_iff]
    exact iff_of_false (by simp) fun h => h.1.ne rfl
  · rename_i t hsign
    rw [isNumeral_plus_iff, hdigits fun hnil => hsign (by rw [hnil])]
  · rename_i hnil _ hsign
    have hhead : t.head? ≠ some '+' := by
      cases t with
      | nil => simp
      | cons c t =>
        intro hc
        obtain rfl : c = '+' := by simpa using hc
        exact hsign t rfl
    rw [isNumeral_iff_of_head? hhead, hdigits hnil]

end Reading

section Blanks

theorem isBlank_of_isDigit {c : Char} (h : c.isDigit = true) : isBlank c = false := by
  obtain ⟨hzero, hnine⟩ := Char.isDigit_iff_toNat.mp h
  have hlow : 48 ≤ c.toNat := hzero
  have hhigh : c.toNat ≤ 57 := hnine
  simp [isBlank, blankRanges]
  omega

theorem IsNumeral.noBlank (h : IsNumeral t n) : t ≠ [] ∧ ∀ c ∈ t, isBlank c = false := by
  cases h with
  | bare h => exact ⟨h.ne, fun c hc => isBlank_of_isDigit (h.digits c hc)⟩
  | plus h =>
    refine ⟨List.cons_ne_nil _ _, ?_⟩
    rw [List.forall_mem_cons]
    exact ⟨by decide, fun c hc => isBlank_of_isDigit (h.digits c hc)⟩

/-- With the blanks around it left out, a text is read as the numeral between them. -/
theorem parse_trim_eq_ok_iff : parse t.trim = .ok n ↔ IsTyped t n ∧ n < bound := by
  rw [parse_eq_ok_iff]
  refine and_congr_left fun _ => ⟨fun h => ?_, ?_⟩
  · obtain ⟨before, behind, ht, hbefore, hbehind⟩ := Text.exists_trim t
    exact ⟨before, t.trim, behind, ht, hbefore, hbehind, h⟩
  · rintro ⟨before, numeral, behind, rfl, hbefore, hbehind, h⟩
    obtain ⟨hne, hnone⟩ := h.noBlank
    rwa [Text.trim_append hbefore hne hnone hbehind]

end Blanks

section Writing

theorem isDigits_ofNat (n : Nat) : IsDigits (ofNat n) n :=
  ⟨Nat.toDigits_ne_nil, fun _ => Nat.isDigit_of_mem_toDigits (by decide) (by decide),
    Nat.ofDigitChars_ten_toDigits⟩

theorem isTyped_ofNat (n : Nat) : IsTyped (ofNat n) n :=
  ⟨[], ofNat n, [], by simp, by simp, by simp, .bare (isDigits_ofNat n)⟩

end Writing

end Numeral
end LogProbe
