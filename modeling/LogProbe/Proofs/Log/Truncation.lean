import LogProbe.Proofs.Log.Caption

/-! The cut of a long caption. A text is read as tokens, its escape sequences and the characters
between them; where a cut would split a token it moves back to the start of that. A long call is cut
at one of two places: further left with a parenthesis behind the mark if a group is open there, else
further right with none. In between lies one token at most, and where that opens the first group,
the caption ends within a group that nothing closes. -/
namespace LogProbe
namespace Caption
variable {t : Text} {cut : Nat}

/-- Length of the token that a text starts with: an escape sequence or a single character. -/
def tokenLength (t : Text) : Nat := if t.startsWith '\\' then escapeLength t else 1

theorem escapeLength_pos (c : Char) (t : Text) : 0 < escapeLength (c :: t) := by
  unfold escapeLength
  split
  all_goals simp

theorem tokenLength_pos (t : Text) : 0 < tokenLength t := by
  rw [tokenLength]
  split
  · cases t with
    | nil => contradiction
    | cons c t => exact escapeLength_pos c t
  · exact Nat.one_pos

/-- What is left of a token that has room is kept, and then what is kept of the text behind it. -/
theorem keepWhole_pending {pending : Nat} (hcut : pending ≤ cut) (ht : cut ≤ t.length) :
    keepWhole pending t cut = pending + escapeBoundary (t.drop pending) (cut - pending) := by
  induction t generalizing pending cut with
  | nil =>
    obtain rfl : cut = 0 := Nat.le_zero.mp ht
    obtain rfl : pending = 0 := Nat.le_zero.mp hcut
    rfl
  | cons c t ih =>
    cases pending with
    | zero => rw [Nat.zero_add, List.drop_zero, Nat.sub_zero, escapeBoundary]
    | succ pending =>
      obtain ⟨cut, rfl⟩ : ∃ k, cut = k + 1 := ⟨cut - 1, by omega⟩
      rw [keepWhole, ih (Nat.le_of_succ_le_succ hcut) (Nat.le_of_succ_le_succ ht),
        List.drop_succ_cons, Nat.add_sub_add_right, Nat.add_right_comm]

/-- A cut within the first token moves back to the start. -/
theorem escapeBoundary_of_lt (hcut : cut < tokenLength t) : escapeBoundary t cut = 0 := by
  cases t with
  | nil => simp [escapeBoundary, keepWhole]
  | cons c t =>
    cases cut with
    | zero => rfl
    | succ cut =>
      rw [tokenLength] at hcut
      split at hcut
      · rename_i hslash
        obtain rfl : c = '\\' := by simpa [Text.startsWith] using hslash
        rw [escapeBoundary, keepWhole, if_pos rfl]
        simp only
        rw [if_pos hcut]
      · omega

/-- A cut behind the first token is one of the text behind that. -/
theorem escapeBoundary_of_le (hcut : tokenLength t ≤ cut) (ht : cut ≤ t.length) :
    escapeBoundary t cut =
      tokenLength t + escapeBoundary (t.drop (tokenLength t)) (cut - tokenLength t) := by
  have hpos := tokenLength_pos t
  obtain ⟨cut, rfl⟩ : ∃ k, cut = k + 1 := ⟨cut - 1, by omega⟩
  cases t with
  | nil => simp at ht
  | cons c t =>
    have hrest {pending : Nat} (hpending : pending ≤ cut) :
        keepWhole pending t cut + 1 = pending + 1 +
          escapeBoundary ((c :: t).drop (pending + 1)) (cut + 1 - (pending + 1)) := by
      rw [keepWhole_pending hpending (Nat.le_of_succ_le_succ ht), List.drop_succ_cons,
        Nat.add_sub_add_right, Nat.add_right_comm]
    rw [escapeBoundary, keepWhole]
    rw [tokenLength] at hcut hpos ⊢
    by_cases hc : c = '\\'
    · have hslash : Text.startsWith (c :: t) '\\' = true := by simpa [Text.startsWith] using hc
      rw [if_pos hslash] at hcut hpos ⊢
      have hpending : escapeLength (c :: t) - 1 ≤ cut := Nat.sub_le_of_le_add hcut
      have hkept := hrest hpending
      rw [Nat.sub_add_cancel hpos] at hkept
      rw [if_pos hc]
      simp only
      rw [if_neg (Nat.not_lt.mpr hcut), hkept]
    · have hslash : ¬ Text.startsWith (c :: t) '\\' = true := by simpa [Text.startsWith] using hc
      rw [if_neg hc, if_neg hslash]
      exact hrest (Nat.zero_le cut)

/-- One character further the cut is the same, or one more token is kept and ends there. -/
theorem escapeBoundary_succ (ht : cut < t.length) :
    escapeBoundary t (cut + 1) = escapeBoundary t cut ∨
      escapeBoundary t (cut + 1) = cut + 1 ∧
        escapeBoundary t cut + tokenLength (t.drop (escapeBoundary t cut)) = cut + 1 := by
  -- by recursion on the tokens that the cut leaves whole
  induction cut using Nat.strongRecOn generalizing t with
  | _ cut ih =>
    have hpos := tokenLength_pos t
    have hroom : cut + 1 ≤ t.length := ht
    rcases Nat.lt_trichotomy (cut + 1) (tokenLength t) with hlt | heq | hgt
    · left
      rw [escapeBoundary_of_lt hlt, escapeBoundary_of_lt (Nat.lt_of_succ_lt hlt)]
    · right
      have hstart : escapeBoundary t cut = 0 := escapeBoundary_of_lt (by omega)
      have hnone : escapeBoundary (t.drop (tokenLength t)) 0 = 0 :=
        escapeBoundary_of_lt (tokenLength_pos _)
      rw [escapeBoundary_of_le (by omega) hroom, hstart, List.drop_zero, Nat.zero_add, heq,
        Nat.sub_self, hnone]
      exact ⟨rfl, rfl⟩
    · have hle : tokenLength t ≤ cut := Nat.le_of_lt_succ hgt
      have hlength : cut - tokenLength t < (t.drop (tokenLength t)).length := by
        rw [List.length_drop]
        omega
      have hnext := ih (cut - tokenLength t) (by omega) hlength
      rw [escapeBoundary_of_le (by omega) hroom,
        escapeBoundary_of_le hle (Nat.le_of_lt ht),
        Nat.sub_add_comm hle, ← List.drop_drop]
      omega

/-- The two places where a long text is cut. `inner` is kept for certain, `last` behind it only
where no parenthesis takes its room: nothing, or the one token that ends there. -/
structure Cuts (t inner last : Text) : Prop where
  inside : inner ++ last <+: t
  inner_eq : inner = t.take (escapeBoundary t (maxLength - 2))
  outer_eq : inner ++ last = t.take (escapeBoundary t (maxLength - 1))
  last_eq : last = [] ∨ (inner ++ last).length = maxLength - 1 ∧
    last.length = tokenLength (t.drop inner.length)

theorem exists_cuts (hlong : maxLength < t.length) : ∃ inner last, Cuts t inner last := by
  have hroom : maxLength - 2 < t.length := Nat.lt_of_le_of_lt (Nat.sub_le _ _) hlong
  have hinner : escapeBoundary t (maxLength - 2) ≤ maxLength - 2 := keepWhole_le 0 t _
  rcases escapeBoundary_succ hroom with hsame | ⟨hnext, htoken⟩
  · refine ⟨_, [], ?_, rfl, ?_, .inl rfl⟩
    · rw [List.append_nil]
      exact List.take_prefix _ _
    · rw [List.append_nil]
      exact congrArg t.take hsame.symm
  · generalize hkept : escapeBoundary t (maxLength - 2) = n at *
    have houter : t.take n ++ (t.drop n).take (tokenLength (t.drop n)) =
        t.take (escapeBoundary t (maxLength - 1)) := by
      rw [← List.take_add, htoken, ← hnext]
      rfl
    have hlength : (t.take n).length = n := by
      rw [List.length_take]
      omega
    refine ⟨t.take n, _, ?_, by rw [hkept], houter, .inr ⟨?_, ?_⟩⟩
    · rw [houter]
      exact List.take_prefix _ _
    · rw [houter, List.length_take]
      change escapeBoundary t (maxLength - 1) = maxLength - 1 at hnext
      omega
    · rw [hlength, List.length_take, List.length_drop]
      omega

/-- The caption of a long text, by the text's two cuts. -/
theorem Cuts.truncate_eq {inner last : Text} (h : Cuts t inner last)
    (hlong : maxLength < t.length) : truncate t =
      if t.endsWith ')' && hasOpenGroup inner then inner ++ [ellipsis, ')']
      else inner ++ last ++ [ellipsis] := by
  rw [truncate, if_neg (Nat.not_le.mpr hlong), h.outer_eq]
  simp only
  rw [← h.inner_eq]

/-- A caption keeps this part of a text. -/
def Keeps (t kept : Text) : Prop :=
  truncate t = kept ++ [ellipsis] ∨ truncate t = kept ++ [ellipsis, ')']

/-- The caption closes the group in which the text was cut. -/
def ClosesGroup (caption : Text) : Prop := [ellipsis, ')'] <:+ caption

instance (t kept : Text) : Decidable (Keeps t kept) := inferInstanceAs (Decidable (_ ∨ _))

instance (caption : Text) : Decidable (ClosesGroup caption) :=
  inferInstanceAs (Decidable (_ <:+ _))

theorem hasOpenGroup_append_singleton {inner : Text} {c : Char} :
    (hasOpenGroup (inner ++ [c]) = true → hasOpenGroup inner = true) ↔
      ¬ (c = '(' ∧ inner.count '(' = inner.count ')') := by
  simp only [hasOpenGroup, decide_eq_true_eq, List.count_append]
  by_cases hopen : c = '('
  · subst hopen
    have hone : List.count '(' ['('] = 1 ∧ List.count ')' ['('] = 0 := by decide
    simp only [hone, true_and]
    omega
  · have hnone : List.count '(' [c] = 0 := List.count_eq_zero.mpr (by simpa using Ne.symm hopen)
    simp only [hnone, hopen, false_and, not_false_eq_true, iff_true]
    omega

/-- The last character tells which of the two marks a caption has. -/
theorem append_marks_ne (a b : Text) : a ++ [ellipsis] ≠ b ++ [ellipsis, ')'] := by
  intro h
  have hlast := congrArg List.getLast? h
  simp [ellipsis] at hlast

/-- A long call is kept up to the inner cut and its group closed if one is open there, and else up
to the outer cut with no group closed. So its caption ends within no group that it leaves open
exactly if a group that is open at the outer cut is open at the inner one: unless the token in
between opens it. -/
theorem closes_group_iff (hlong : maxLength < t.length) (hcall : t.endsWith ')' = true) :
    ∃ inner last, Cuts t inner last ∧
      (∀ kept, Keeps t kept ↔ kept = if hasOpenGroup inner then inner else inner ++ last) ∧
      (ClosesGroup (truncate t) ↔ hasOpenGroup inner = true) ∧
      ((∀ kept, Keeps t kept → hasOpenGroup kept = true → ClosesGroup (truncate t)) ↔
        (hasOpenGroup (inner ++ last) = true → hasOpenGroup inner = true)) ∧
      (∀ c, last = [c] → ((hasOpenGroup (inner ++ last) = true → hasOpenGroup inner = true) ↔
        ¬ (c = '(' ∧ inner.count '(' = inner.count ')'))) := by
  obtain ⟨inner, last, h⟩ := exists_cuts hlong
  have htruncate := h.truncate_eq hlong
  rw [hcall, Bool.true_and] at htruncate
  have hkeeps (kept : Text) :
      Keeps t kept ↔ kept = if hasOpenGroup inner then inner else inner ++ last := by
    rw [Keeps, htruncate]
    split
    · rw [or_iff_right (append_marks_ne kept inner).symm, List.append_cancel_right_eq, eq_comm]
    · rw [or_iff_left (append_marks_ne _ kept), List.append_cancel_right_eq, eq_comm]
  have hcloses : ClosesGroup (truncate t) ↔ hasOpenGroup inner = true := by
    rw [ClosesGroup, htruncate]
    split
    · rename_i hopen
      exact iff_of_true (List.suffix_append _ _) hopen
    · rename_i hopen
      refine iff_of_false ?_ hopen
      rintro ⟨kept, hkept⟩
      exact append_marks_ne _ kept hkept.symm
  refine ⟨inner, last, h, hkeeps, hcloses, ?_, ?_⟩
  · simp only [hkeeps, forall_eq, hcloses]
    cases hasOpenGroup inner <;> simp
  · rintro c rfl
    exact hasOpenGroup_append_singleton

/-- A call that is cut between its arguments. -/
def methodCall : Text := "someObject.method(firstArgument, second)".toList

theorem methodCall_closes_group :
    maxLength < methodCall.length ∧ methodCall.endsWith ')' = true ∧
      truncate methodCall = "someObject.method(firstArgum⋯)".toList ∧
      ∃ inner last, Cuts methodCall inner last ∧ hasOpenGroup inner = true ∧
        (∀ kept, Keeps methodCall kept ↔ kept = inner) ∧
        ∀ kept, Keeps methodCall kept → hasOpenGroup kept = true →
          ClosesGroup (truncate methodCall) := by
  have hlong : maxLength < methodCall.length := by decide
  have hcall : methodCall.endsWith ')' = true := by decide
  have hcloses : ClosesGroup (truncate methodCall) := by decide
  obtain ⟨inner, last, hcuts, hkeeps, hopen, hgroup, -⟩ := closes_group_iff hlong hcall
  have hinner := hopen.mp hcloses
  refine ⟨hlong, hcall, by decide, inner, last, hcuts, hinner, fun kept => ?_,
    hgroup.mpr fun _ => hinner⟩
  rw [hkeeps, if_pos hinner]

/-- A call whose parenthesis is the last character in front of the outer cut. -/
def dispatchCall : Text := "controller.dispatchAndNotify(event)".toList

theorem dispatchCall_leaves_group_open :
    maxLength < dispatchCall.length ∧ dispatchCall.endsWith ')' = true ∧
      truncate dispatchCall = "controller.dispatchAndNotify(⋯".toList ∧
      Keeps dispatchCall "controller.dispatchAndNotify(".toList ∧
      hasOpenGroup "controller.dispatchAndNotify(".toList = true ∧
      ¬ ClosesGroup (truncate dispatchCall) := by
  decide

end Caption
end LogProbe
