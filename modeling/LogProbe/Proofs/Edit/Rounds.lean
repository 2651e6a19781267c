import LogProbe.Proofs.Edit.Acceptance
import Mathlib.Logic.Basic

/-! Batches one after the other. Each round of edits is applied to the text that the rounds before
it left, while its offsets refer to the first text. As long as every round stays above the rounds
before it, nothing moves under it, and all rounds together are one batch. -/
namespace LogProbe
namespace Edit

/-- Applies rounds of edits in turn. -/
def applyRounds (source : Text) (rounds : List (List Edit)) : Except Failure Text :=
  rounds.foldlM applyAll source

/-- No edit reaches below the start of an edit of an earlier round. -/
def Rising (rounds : List (List Edit)) : Prop :=
  rounds.Pairwise fun earlier later => ∀ x ∈ earlier, ∀ e ∈ later, e.stop ≤ x.start

theorem rising_cons {batch : List Edit} {rounds : List (List Edit)} :
    Rising (batch :: rounds) ↔
      (∀ x ∈ batch, ∀ e ∈ rounds.flatten, e.stop ≤ x.start) ∧ Rising rounds := by
  rw [Rising, List.pairwise_cons]
  refine and_congr_left fun _ => ⟨?_, ?_⟩
  · intro h x hx e he
    obtain ⟨later, hlater, he⟩ := List.mem_flatten.mp he
    exact h later hlater x hx e he
  · intro h later hlater x hx e he
    exact h x hx e (List.mem_flatten.mpr ⟨later, hlater, he⟩)

theorem Fits.of_above {upper lower lower' : Text} {e : Edit} (h : e.Fits (upper ++ lower))
    (hstop : e.stop ≤ upper.size) : e.Fits (upper ++ lower') where
  forward := h.forward
  inside := by rw [Text.size_append]; omega
  startBoundary := by
    have hforward := h.forward
    have hstart := h.startBoundary
    rwa [Text.isBoundary_append (by omega)] at hstart ⊢
  stopBoundary := by
    have hboundary := h.stopBoundary
    rwa [Text.isBoundary_append hstop] at hboundary ⊢

/-- Of the source only the defects of the edits matter. -/
theorem applyUpward_congr {source source' : Text} {edits : List Edit}
    (hfits : ∀ e ∈ edits, e.Fits source ∧ e.Fits source') (upper done : Text) :
    applyUpward source upper done edits = applyUpward source' upper done edits := by
  induction edits generalizing upper done with
  | nil => rfl
  | cons e rest ih =>
    obtain ⟨hsource, hsource'⟩ := hfits e (by simp)
    rw [applyUpward, applyUpward, defect?_eq_none_iff.mpr hsource, defect?_eq_none_iff.mpr hsource']
    cases upper.cut? e.stop with
    | none => rfl
    | some parts => exact ih (fun x hx => hfits x (by simp [hx])) _ _

/-- Going on above an untouched part is the same as starting anew on the text reached so far. -/
theorem applyUpward_restart {upper lower done : Text} {edits : List Edit}
    (hfits : ∀ e ∈ edits, e.Fits (upper ++ lower)) (hstop : ∀ e ∈ edits, e.stop ≤ upper.size) :
    applyUpward (upper ++ lower) upper done edits =
      applyUpward (upper ++ done) (upper ++ done) [] edits := by
  have hboth : ∀ e ∈ edits, e.Fits (upper ++ lower) ∧ e.Fits (upper ++ done) :=
    fun e he => ⟨hfits e he, (hfits e he).of_above (hstop e he)⟩
  cases edits with
  | nil => simp [applyUpward]
  | cons e rest =>
    obtain ⟨hsource, htext⟩ := hboth e (by simp)
    obtain ⟨above, replaced, between, rfl, habove, hreplaced⟩ :=
      hsource.split (hstop e (by simp))
    have hrest : ∀ x ∈ rest, x.Fits _ ∧ x.Fits _ := fun x hx => hboth x (by simp [hx])
    have hmove := applyUpward_congr hrest above (e.text ++ between ++ done)
    rw [applyUpward_cons hsource habove hreplaced, hmove]
    rw [List.append_assoc (above ++ replaced) between done] at htext ⊢
    rw [applyUpward_cons htext habove hreplaced]
    simp

/-- After some of the edits the part above them is untouched and waits for the rest. -/
theorem applyUpward_append {source upper lower done t : Text} {edits : List Edit}
    (hs : source = upper ++ lower) (h : applyUpward source upper done edits = .ok t) :
    ∃ upper' lower' done', source = upper' ++ lower' ∧ t = upper' ++ done' ∧
      (∀ n ≤ upper.size, (∀ x ∈ edits, n ≤ x.start) → n ≤ upper'.size) ∧
      ∀ rest, applyUpward source upper done (edits ++ rest) =
        applyUpward source upper' done' rest := by
  induction edits generalizing upper lower done with
  | nil =>
    cases h
    exact ⟨upper, lower, done, hs, rfl, fun n hn _ => hn, fun _ => rfl⟩
  | cons e edits ih =>
    obtain ⟨hall, -⟩ := (isOk_applyUpward_iff hs).mp ⟨t, h⟩
    obtain ⟨hfits, hstop⟩ := hall e (by simp)
    obtain ⟨above, replaced, between, rfl, habove, hreplaced⟩ := (hs ▸ hfits).split hstop
    rw [applyUpward_cons hfits habove hreplaced] at h
    have hs' : source = above ++ (replaced ++ (between ++ lower)) := by simp [hs]
    obtain ⟨upper', lower', done', hsource, ht, hkept, hrest⟩ := ih hs' h
    refine ⟨upper', lower', done', hsource, ht, ?_, ?_⟩
    · intro n _ hn
      have hstart := hn e (by simp)
      exact hkept n (by omega) fun x hx => hn x (by simp [hx])
    · intro rest
      rw [List.cons_append, applyUpward_cons hfits habove hreplaced, hrest]

/-- A batch leaves the text above all its edits as it is. -/
theorem exists_kept_of_applyAll {source t : Text} {batch : List Edit}
    (h : applyAll source batch = .ok t) :
    ∃ upper lower done, source = upper ++ lower ∧ t = upper ++ done ∧
      (∀ n ≤ source.size, (∀ x ∈ batch, n ≤ x.start) → n ≤ upper.size) ∧
      ∀ rest, applyUpward source source [] (bottomUp batch ++ rest) =
        applyUpward source upper done rest := by
  obtain ⟨upper, lower, done, hs, ht, hkept, hrest⟩ :=
    applyUpward_append (List.append_nil source).symm ((applyAll_eq source batch).symm.trans h)
  exact ⟨upper, lower, done, hs, ht, fun n hn hx => hkept n hn (by simpa using hx), hrest⟩

theorem Fits.of_applyAll {source t : Text} {batch : List Edit} {e : Edit}
    (h : applyAll source batch = .ok t) (hfits : e.Fits source)
    (hstop : ∀ x ∈ batch, e.stop ≤ x.start) : e.Fits t := by
  obtain ⟨upper, lower, done, rfl, rfl, hkept, -⟩ := exists_kept_of_applyAll h
  exact hfits.of_above (hkept e.stop hfits.inside hstop)

theorem bottomUp_append {a b : List Edit} (hforward : ∀ e ∈ a ++ b, e.start ≤ e.stop)
    (hstop : ∀ x ∈ a, ∀ e ∈ b, e.stop ≤ x.start) :
    bottomUp (a ++ b) = bottomUp a ++ bottomUp b := by
  symm
  apply eq_bottomUp
  · rw [List.pairwise_append]
    refine ⟨pairwise_bottomUp a, pairwise_bottomUp b, ?_⟩
    intro x hx e he
    rw [mem_bottomUp] at hx he
    have hle := hstop x hx e he
    have hx := hforward x (by simp [hx])
    have he := hforward e (by simp [he])
    rw [appliesBefore_iff]
    omega
  · intro k
    rw [List.filter_append, filter_bottomUp, filter_bottomUp, List.filter_append]

/-- Two rounds, the second above the first, are one batch. -/
theorem applyAll_append {source t : Text} {a b : List Edit} (h : applyAll source a = .ok t)
    (hfits : ∀ e ∈ b, e.Fits source) (hstop : ∀ x ∈ a, ∀ e ∈ b, e.stop ≤ x.start) :
    applyAll source (a ++ b) = applyAll t b := by
  have hforward : ∀ e ∈ a ++ b, e.start ≤ e.stop := by
    intro e he
    rcases List.mem_append.mp he with ha | hb
    · exact ((isOk_applyAll_iff.mp ⟨t, h⟩).1 e ha).forward
    · exact (hfits e hb).forward
  obtain ⟨upper, lower, done, rfl, rfl, hkept, hrest⟩ := exists_kept_of_applyAll h
  rw [applyAll_eq, bottomUp_append hforward hstop, hrest, applyAll_eq]
  apply applyUpward_restart
  · intro e he
    exact hfits e (mem_bottomUp.mp he)
  · intro e he
    rw [mem_bottomUp] at he
    exact hkept e.stop (hfits e he).inside fun x hx => hstop x hx e he

/-- Rounds of which none reaches below an earlier one are one batch. -/
theorem applyRounds_of_rising {source : Text} {rounds : List (List Edit)} (hrising : Rising rounds)
    (hfits : ∀ e ∈ rounds.flatten, e.Fits source) (hfree : ConflictFree rounds.flatten) :
    applyRounds source rounds = applyAll source rounds.flatten := by
  induction rounds generalizing source with
  | nil => exact (applyAll_nil source).symm
  | cons batch rounds ih =>
    obtain ⟨habove, hrising⟩ := rising_cons.mp hrising
    rw [List.flatten_cons] at hfits hfree ⊢
    obtain ⟨hfree, hfrees, -⟩ := List.pairwise_append.mp hfree
    obtain ⟨t, ht⟩ := isOk_applyAll_iff.mpr ⟨fun e he => hfits e (by simp [he]), hfree⟩
    have hfits' : ∀ e ∈ rounds.flatten, e.Fits source := fun e he => hfits e (by simp_all)
    rw [applyAll_append ht hfits' habove, ← ih hrising ?_ hfrees, applyRounds, List.foldlM_cons, ht]
    · rfl
    · intro e he
      exact (hfits' e he).of_applyAll ht fun x hx => habove x hx e he

/-- The edit puts a character across byte `n` of the text. -/
def Covers (n : Nat) (e : Edit) : Prop :=
  ∃ (a b : Text) (c : Char), e.text = a ++ c :: b ∧
    e.start + a.size < n ∧ n < e.start + a.size + c.utf8Size

/-- The edit neither moves nor replaces what is at byte `n`. -/
def Keeps (n : Nat) (e : Edit) : Prop :=
  e.text.size = e.stop - e.start ∧ (n ≤ e.start ∨ e.stop ≤ n)

/-- Once a character stands across byte `n`, edits that keep this byte leave it so. -/
theorem isBoundary_of_applyUpward {source upper lower done t : Text} {edits : List Edit} {n : Nat}
    (hs : source = upper ++ lower) (h : applyUpward source upper done edits = .ok t)
    (hall : ∀ e ∈ edits, Keeps n e ∨ Covers n e)
    (hn : (upper ++ done).isBoundary n = false ∨ ∃ e ∈ edits, Covers n e) :
    t.isBoundary n = false := by
  induction edits generalizing upper lower done with
  | nil =>
    cases h
    simpa using hn
  | cons e rest ih =>
    obtain ⟨hok, -⟩ := (isOk_applyUpward_iff hs).mp ⟨t, h⟩
    obtain ⟨hfits, hstop⟩ := hok e (by simp)
    obtain ⟨above, replaced, between, rfl, habove, hreplaced⟩ := (hs ▸ hfits).split hstop
    rw [applyUpward_cons hfits habove hreplaced] at h
    have hs' : source = above ++ (replaced ++ (between ++ lower)) := by simp [hs]
    refine ih hs' h (fun x hx => hall x (by simp [hx])) ?_
    rw [List.append_assoc e.text]
    have hcovered : Covers n e → (above ++ (e.text ++ (between ++ done))).isBoundary n = false := by
      rintro ⟨a, b, c, htext, hlow, hhigh⟩
      have hwithin := Text.isBoundary_within (above ++ a) (b ++ between ++ done) (c := c) (n := n)
        (by rw [Text.size_append]; omega) (by rw [Text.size_append]; omega)
      simpa [htext] using hwithin
    rcases hall e (by simp) with ⟨hwidth, hout⟩ | hcover
    · have hsize : replaced.size = e.text.size := by
        rw [Text.size_append] at hreplaced
        omega
      have hsame : Text.isBoundary (above ++ replaced ++ (between ++ done)) n =
          Text.isBoundary (above ++ e.text ++ (between ++ done)) n :=
        Text.isBoundary_replace hsize (by omega)
      simp only [List.append_assoc] at hsame hn
      rcases hn with hn | ⟨x, hx, hcover⟩
      · exact .inl (hsame ▸ hn)
      · rcases List.mem_cons.mp hx with rfl | hx
        · exact .inl (hcovered hcover)
        · exact .inr ⟨x, hx, hcover⟩
    · exact .inl (hcovered hcover)

theorem isBoundary_of_applyAll {source t : Text} {batch : List Edit} {n : Nat}
    (h : applyAll source batch = .ok t) (hall : ∀ e ∈ batch, Keeps n e ∨ Covers n e)
    (hn : source.isBoundary n = false ∨ ∃ e ∈ batch, Covers n e) : t.isBoundary n = false := by
  refine isBoundary_of_applyUpward (List.append_nil source).symm h (by simpa using hall) ?_
  simpa using hn

theorem applyRounds_cons (source : Text) (batch : List Edit) (rounds : List (List Edit)) :
    applyRounds source (batch :: rounds) =
      (applyAll source batch).bind fun t => applyRounds t rounds := rfl

theorem applyRounds_cons_eq_ok {source t : Text} {batch : List Edit} {rounds : List (List Edit)}
    (h : applyRounds source (batch :: rounds) = .ok t) :
    ∃ t', applyAll source batch = .ok t' ∧ applyRounds t' rounds = .ok t := by
  rw [applyRounds_cons] at h
  cases ht : applyAll source batch with
  | error failure =>
    rw [ht] at h
    cases h
  | ok t' =>
    rw [ht] at h
    exact ⟨t', rfl, h⟩

/-- No rounds are accepted in which an edit still ends at a byte within a character. -/
theorem applyRounds_ne_ok_of_isBoundary {source : Text} {rounds : List (List Edit)} {n : Nat}
    (hn : source.isBoundary n = false) (hall : ∀ e ∈ rounds.flatten, Keeps n e ∨ Covers n e)
    (hstop : ∃ e ∈ rounds.flatten, e.stop = n) (t : Text) : applyRounds source rounds ≠ .ok t := by
  induction rounds generalizing source with
  | nil => simp at hstop
  | cons batch rounds ih =>
    intro h
    obtain ⟨t', ht', hrounds⟩ := applyRounds_cons_eq_ok h
    have hkept := isBoundary_of_applyAll ht' (fun e he => hall e (by simp [he])) (.inl hn)
    refine ih hkept (fun e he => hall e (by simp_all)) ?_ hrounds
    obtain ⟨e, he, rfl⟩ := hstop
    rw [List.flatten_cons, List.mem_append] at he
    rcases he with he | he
    · have hfits := (isOk_applyAll_iff.mp ⟨t', ht'⟩).1 e he
      rw [hfits.stopBoundary] at hn
      cases hn
    · exact ⟨e, he, rfl⟩

/-- Nor are rounds in which an earlier round puts a character across the end of a later edit. -/
theorem applyRounds_ne_ok_of_covers {source : Text} {first rest : List (List Edit)}
    {batch : List Edit} {n : Nat}
    (hall : ∀ e ∈ (first ++ batch :: rest).flatten, Keeps n e ∨ Covers n e)
    (hcover : ∃ x ∈ batch, Covers n x) (hstop : ∃ e ∈ rest.flatten, e.stop = n) (t : Text) :
    applyRounds source (first ++ batch :: rest) ≠ .ok t := by
  induction first generalizing source with
  | nil =>
    intro h
    obtain ⟨t', ht', hrest⟩ := applyRounds_cons_eq_ok h
    have hn := isBoundary_of_applyAll ht' (fun e he => hall e (by simp [he])) (.inr hcover)
    exact applyRounds_ne_ok_of_isBoundary hn (fun e he => hall e (by simp_all)) hstop t hrest
  | cons earlier first ih =>
    intro h
    obtain ⟨t', -, hrest⟩ := applyRounds_cons_eq_ok h
    exact ih (fun e he => hall e (by simp_all)) hrest

/-- The same edit with a text that depends on its span alone. -/
def refill (fill : Nat × Nat → Text) (e : Edit) : Edit := { e with text := fill e.span }

theorem refill_start (fill : Nat × Nat → Text) (e : Edit) : (e.refill fill).start = e.start := rfl

/-- The text for span `k` that puts a character across byte `n`, and blanks for other spans. -/
def crossing (k : Nat × Nat) (n : Nat) (span : Nat × Nat) : Text :=
  if span = k then List.replicate (n - 1 - k.1) ' ' ++ ['é']
  else List.replicate (span.2 - span.1) ' '

theorem mem_crossing {k span : Nat × Nat} {n : Nat} {c : Char} (h : c ∈ crossing k n span) :
    c = ' ' ∨ c = 'é' := by
  unfold crossing at h
  split at h
  · rcases List.mem_append.mp h with h | h
    · exact .inl (List.eq_of_mem_replicate h)
    · exact .inr (List.mem_singleton.mp h)
  · exact .inl (List.eq_of_mem_replicate h)

theorem covers_crossing {x e : Edit} {n : Nat} (hspan : e.span = x.span) (hn : x.start < n) :
    Covers n (e.refill (crossing x.span n)) := by
  refine ⟨List.replicate (n - 1 - x.start) ' ', [], 'é', ?_, ?_, ?_⟩
  · change crossing x.span n e.span = _
    rw [crossing, if_pos hspan]
    rfl
  all_goals
    simp only [span, Prod.mk.injEq] at hspan
    rw [Text.size_replicate rfl, refill_start, hspan.1]
    have hwidth : 'é'.utf8Size = 2 := rfl
    omega

theorem keeps_crossing {e : Edit} {k : Nat × Nat} {n : Nat} (hspan : e.span ≠ k)
    (hn : n ≤ e.start ∨ e.stop ≤ n) : Keeps n (e.refill (crossing k n)) := by
  refine ⟨?_, hn⟩
  change Text.size (crossing k n e.span) = _
  rw [crossing, if_neg hspan, Text.size_replicate rfl]
  rfl

theorem exists_of_not_rising {rounds : List (List Edit)} (h : ¬ Rising rounds) :
    ∃ first batch rest x e, rounds = first ++ batch :: rest ∧ x ∈ batch ∧ e ∈ rest.flatten ∧
      x.start < e.stop := by
  induction rounds with
  | nil => exact absurd List.Pairwise.nil h
  | cons batch rounds ih =>
    rw [rising_cons, not_and_or] at h
    rcases h with h | h
    · simp only [not_forall] at h
      obtain ⟨x, hx, e, he, hlt⟩ := h
      exact ⟨[], batch, rounds, x, e, rfl, hx, he, by omega⟩
    · obtain ⟨first, batch', rest, x, e, rfl, hx, he, hlt⟩ := ih h
      exact ⟨batch :: first, batch', rest, x, e, rfl, hx, he, hlt⟩

theorem ConflictFree.eq_or {edits : List Edit} (h : ConflictFree edits) {x e : Edit}
    (hx : x ∈ edits) (he : e ∈ edits) : x = e ∨ x.conflictsWith e = false := by
  obtain ⟨i, hi, rfl⟩ := List.getElem_of_mem hx
  obtain ⟨j, hj, rfl⟩ := List.getElem_of_mem he
  rcases eq_or_ne i j with rfl | hij
  · exact .inl rfl
  · exact .inr (conflictFree_iff_getElem.mp h i j hi hj hij)

/-- No edit reaches across the end of an edit that it does not conflict with. -/
theorem stop_outside {x e : Edit} (he : e.start ≤ e.stop)
    (h : x.conflictsWith e = false) : e.stop ≤ x.start ∨ x.stop ≤ e.stop := by
  unfold conflictsWith isInsertion at h
  by_cases hxi : x.start = x.stop <;> by_cases hei : e.start = e.stop <;> simp [hxi, hei] at h <;>
    omega

/-- Rounds of which one reaches below an earlier one fail for some texts of their edits, though no
two of the edits conflict. -/
theorem exists_refill_ne_ok {rounds : List (List Edit)} (h : ¬ Rising rounds)
    (hforward : ∀ e ∈ rounds.flatten, e.start ≤ e.stop) (hfree : ConflictFree rounds.flatten) :
    ∃ k n, ∀ source t,
      applyRounds source (rounds.map fun batch => batch.map (refill (crossing k n))) ≠ .ok t := by
  obtain ⟨first, batch, rest, x, e, rfl, hx, he, hlt⟩ := exists_of_not_rising h
  refine ⟨x.span, e.stop, fun source t => ?_⟩
  have hmem : e ∈ (first ++ batch :: rest).flatten := by simp_all
  rw [List.map_append, List.map_cons]
  apply applyRounds_ne_ok_of_covers (n := e.stop)
  · intro g hg
    rw [← List.map_cons, ← List.map_append, ← List.map_flatten, List.mem_map] at hg
    obtain ⟨g, hg, rfl⟩ := hg
    by_cases hspan : g.span = x.span
    · exact .inr (covers_crossing hspan hlt)
    · refine .inl (keeps_crossing hspan ?_)
      rcases hfree.eq_or hg hmem with rfl | hgfree
      · exact .inr (Nat.le_refl _)
      · exact stop_outside (hforward e hmem) hgfree
  · exact ⟨_, List.mem_map_of_mem hx, covers_crossing rfl hlt⟩
  · refine ⟨e.refill (crossing x.span e.stop), ?_, rfl⟩
    rw [← List.map_flatten]
    exact List.mem_map_of_mem he

end Edit
end LogProbe
