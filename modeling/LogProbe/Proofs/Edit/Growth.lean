import LogProbe.Proofs.Edit.Rounds

/-! What edits do to the text below them: it stays as it is and moves by what they add less what
they remove. -/
namespace LogProbe
namespace Edit

/-- How many more bytes the edits insert than they remove. -/
def growth : List Edit → Int
  | [] => 0
  | e :: edits => e.text.size + e.start - e.stop + growth edits

@[simp] theorem growth_nil : growth [] = 0 := rfl

@[simp] theorem growth_cons (e : Edit) (edits : List Edit) :
    growth (e :: edits) = e.text.size + e.start - e.stop + growth edits := rfl

@[simp] theorem growth_append (edits rest : List Edit) :
    growth (edits ++ rest) = growth edits + growth rest := by
  induction edits with
  | nil => simp
  | cons e edits ih => rw [List.cons_append, growth_cons, growth_cons, ih, Int.add_assoc]

theorem growth_perm {edits edits' : List Edit} (h : edits.Perm edits') :
    growth edits = growth edits' := by
  induction h with
  | nil => rfl
  | cons e _ ih => rw [growth_cons, growth_cons, ih]
  | swap e e' rest => rw [growth_cons, growth_cons, growth_cons, growth_cons, Int.add_left_comm]
  | trans _ _ ih ih' => rw [ih, ih']

/-- The edits lie within the first `above` bytes of a text that ends in `below`, and turn it into
`t`: with `top` for those bytes, at least as long as the part above all the edits. -/
structure Lifts (edits : List Edit) (above : Nat) (below t top : Text) : Prop where
  text : t = top ++ below
  size : (top.size : Int) = above + growth edits
  kept : ∀ n ≤ above, (∀ x ∈ edits, n ≤ x.start) → n ≤ top.size

/-- The induction follows the edits from the bottom up: what is done lies below all that come. -/
theorem exists_lifts_of_applyUpward {source upper lower done t : Text} {edits : List Edit}
    (hs : source = upper ++ lower) (h : applyUpward source upper done edits = .ok t) :
    ∃ top, Lifts edits upper.size done t top := by
  induction edits generalizing upper lower done with
  | nil =>
    cases h
    exact ⟨upper, rfl, by simp, fun n hn _ => hn⟩
  | cons e rest ih =>
    obtain ⟨hall, -⟩ := (isOk_applyUpward_iff hs).mp ⟨t, h⟩
    obtain ⟨hfits, hstop⟩ := hall e (by simp)
    obtain ⟨above, replaced, between, rfl, habove, hreplaced⟩ := (hs ▸ hfits).split hstop
    rw [applyUpward_cons hfits habove hreplaced] at h
    have hs' : source = above ++ (replaced ++ (between ++ lower)) := by simp [hs]
    obtain ⟨top, rfl, hsize, hkept⟩ := ih hs' h
    refine ⟨top ++ (e.text ++ between), by simp, ?_, fun n hn hx => ?_⟩
    · simp only [Text.size_append, growth_cons] at hreplaced ⊢
      omega
    · have htop : n ≤ top.size :=
        hkept n (habove ▸ hx e (by simp)) fun x hx' => hx x (by simp [hx'])
      rw [Text.size_append]
      omega

/-- A batch above a place moves what is below that place and leaves it as it is. -/
theorem exists_lifts_of_applyAll {above below t : Text} {batch : List Edit}
    (h : applyAll (above ++ below) batch = .ok t) (hstop : ∀ e ∈ batch, e.stop ≤ above.size) :
    ∃ top, Lifts batch above.size below t top := by
  have hfits := (isOk_applyAll_iff.mp ⟨t, h⟩).1
  have hrestart : applyUpward (above ++ below) above below (bottomUp batch) = .ok t :=
    (applyUpward_restart (fun e he => hfits e (mem_bottomUp.mp he))
      fun e he => hstop e (mem_bottomUp.mp he)).trans h
  obtain ⟨top, htext, hsize, hkept⟩ := exists_lifts_of_applyUpward rfl hrestart
  refine ⟨top, htext, ?_, fun n hn hx => hkept n hn (by simpa using hx)⟩
  rw [hsize, growth_perm (bottomUp_perm batch)]

/-- So do rounds of which none reaches below an earlier one. -/
theorem exists_lifts_of_applyRounds {above below t : Text} {rounds : List (List Edit)}
    (h : applyRounds (above ++ below) rounds = .ok t) (hrising : Rising rounds)
    (hstop : ∀ e ∈ rounds.flatten, e.stop ≤ above.size) :
    ∃ top, t = top ++ below ∧ (top.size : Int) = above.size + growth rounds.flatten := by
  induction rounds generalizing above with
  | nil =>
    cases h
    exact ⟨above, rfl, by simp⟩
  | cons batch rounds ih =>
    obtain ⟨t', ht', hrounds⟩ := applyRounds_cons_eq_ok h
    obtain ⟨hbelow, hrising⟩ := rising_cons.mp hrising
    rw [List.flatten_cons] at hstop
    obtain ⟨top, rfl, hsize, hkept⟩ :=
      exists_lifts_of_applyAll ht' fun e he => hstop e (List.mem_append_left _ he)
    obtain ⟨top', htext, hsize'⟩ := ih hrounds hrising fun e he =>
      hkept e.stop (hstop e (List.mem_append_right _ he)) fun x hx => hbelow x hx e he
    exact ⟨top', htext, by rw [hsize', hsize, List.flatten_cons, growth_append, Int.add_assoc]⟩

end Edit
end LogProbe
