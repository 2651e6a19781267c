import LogProbe.Proofs.Edit.Acceptance

/-! The text that a batch gives. An accepted batch is spliced into its text from left to right,
and neither the text nor a failure depends on the order of the batch, insertions at one offset
apart. -/
namespace LogProbe
namespace Edit

def insertsAt (offset : Nat) (e : Edit) : Bool := e.isInsertion && e.start == offset

theorem insertsAt_eq_hasSpan (offset : Nat) : insertsAt offset = hasSpan (offset, offset) := by
  funext e
  apply Bool.eq_iff_iff.mpr
  simp only [insertsAt, isInsertion, hasSpan_iff, span, Bool.and_eq_true, beq_iff_eq, Prod.mk.injEq]
  omega

/-- The order in which the texts of a batch are read: by start and then by stop, the insertions at
one offset with the last of the batch first. -/
structure ReadingOrder (batch order : List Edit) : Prop where
  perm : order.Perm batch
  ascending : order.Pairwise fun a b => a.start < b.start ∨ a.start = b.start ∧ a.stop ≤ b.stop
  insertions : ∀ offset,
    order.filter (insertsAt offset) = (batch.filter (insertsAt offset)).reverse

/-- Each edit in turn gives the text since the edit before it and its own text; the rest of the
source follows the last one. -/
def splice? (source : Text) : Nat → List Edit → Option Text
  | done, [] => source.slice? done source.size
  | done, e :: rest => do
    let kept ← source.slice? done e.start
    let tail ← splice? source e.stop rest
    return kept ++ e.text ++ tail

theorem readingOrder_reverse_bottomUp (batch : List Edit) :
    ReadingOrder batch (bottomUp batch).reverse where
  perm := (List.reverse_perm _).trans (bottomUp_perm batch)
  ascending := by
    rw [List.pairwise_reverse]
    exact (pairwise_bottomUp batch).imp appliesBefore_iff.mp
  insertions offset := by rw [insertsAt_eq_hasSpan, List.filter_reverse, filter_bottomUp]

/-- The parts of the source between two splices come together where the first moves up. -/
theorem splice?_extend (above : Text) {m rest done : Text} {edits : List Edit}
    (h : splice? (above ++ m ++ rest) (above ++ m).size edits = some done) :
    splice? (above ++ m ++ rest) above.size edits = some (m ++ done) := by
  cases edits with
  | nil => exact Text.slice?_extend h
  | cons e edits =>
    simp only [splice?, Option.bind_eq_bind, Option.bind_eq_some_iff] at h
    obtain ⟨kept, hkept, tail, htail, hdone⟩ := h
    cases hdone
    rw [splice?, Text.slice?_extend hkept, htail]
    simp

/-- What has been applied below the untouched part is the splice of the edits applied so far. -/
theorem splice?_of_applyUpward {source upper lower done t : Text} {edits read : List Edit}
    (hs : source = upper ++ lower) (hdone : splice? source upper.size read = some done)
    (h : applyUpward source upper done edits = .ok t) :
    splice? source 0 (edits.reverse ++ read) = some t := by
  induction edits generalizing upper lower done read with
  | nil =>
    cases h
    subst hs
    have := splice?_extend [] (by simpa using hdone)
    simpa using this
  | cons e rest ih =>
    obtain ⟨hall, -⟩ := (isOk_applyUpward_iff hs).mp ⟨t, h⟩
    obtain ⟨hfits, hstop⟩ := hall e (by simp)
    obtain ⟨above, replaced, between, rfl, habove, hreplaced⟩ := (hs ▸ hfits).split hstop
    rw [applyUpward_cons hfits habove hreplaced] at h
    have hrest : source = above ++ (replaced ++ (between ++ lower)) := by simp [hs]
    have hread : splice? source above.size (e :: read) = some (e.text ++ between ++ done) := by
      have hbelow : splice? source e.stop read = some (between ++ done) := by
        rw [hs, ← hreplaced]
        exact splice?_extend _ (hs ▸ hdone)
      have hkept : source.slice? above.size above.size = some [] := by
        simpa [hrest] using Text.slice?_append above [] (replaced ++ (between ++ lower))
      rw [splice?, ← habove, hkept, hbelow]
      simp
    simpa using ih hrest hread h

theorem splice?_reverse_bottomUp {source t : Text} {batch : List Edit}
    (h : applyAll source batch = .ok t) :
    splice? source 0 (bottomUp batch).reverse = some t := by
  have hend : splice? source source.size [] = some [] := by
    simpa [splice?] using Text.slice?_to_size source []
  have hsource : source = source ++ [] := by simp
  have := splice?_of_applyUpward hsource hend h
  rwa [List.append_nil] at this

/-- Two edits of one span that is not empty conflict. -/
theorem conflictsWith_of_span_eq {a b : Edit} (h : a.span = b.span) (ha : a.start < a.stop) :
    a.conflictsWith b = true := by
  simp only [span, Prod.mk.injEq] at h
  have hb : b.isInsertion = false := by simp [isInsertion]; omega
  have ha' : a.isInsertion = false := by simp [isInsertion]; omega
  simp only [conflictsWith, ha', hb]
  simp
  omega

/-- Without conflicts only insertions share a span, so their order is all that a batch's order can
decide. -/
theorem filter_span_eq_of_perm {batch batch' : List Edit} (hp : batch'.Perm batch)
    (hforward : ∀ e ∈ batch, e.start ≤ e.stop) (hfree : ConflictFree batch)
    (hins : ∀ offset, batch'.filter (insertsAt offset) = batch.filter (insertsAt offset))
    (k : Nat × Nat) : batch'.filter (hasSpan k) = batch.filter (hasSpan k) := by
  by_cases hk : k.1 = k.2
  · have := hins k.1
    rwa [insertsAt_eq_hasSpan, show (k.1, k.1) = k from Prod.ext rfl hk] at this
  · have hperm := hp.filter (hasSpan k)
    have hfree' : ConflictFree (batch.filter (hasSpan k)) := hfree.filter _
    match hl : batch.filter (hasSpan k) with
    | [] =>
      rw [hl] at hperm
      exact hperm.eq_nil
    | [a] =>
      rw [hl] at hperm
      exact hperm.eq_singleton
    | a :: b :: rest =>
      -- two edits of one span that is not empty
      have hmem : ∀ e ∈ a :: b :: rest, e ∈ batch ∧ e.span = k := by
        intro e he
        rw [← hl, List.mem_filter] at he
        exact ⟨he.1, by simpa using he.2⟩
      obtain ⟨ha, hka⟩ := hmem a (by simp)
      obtain ⟨-, hkb⟩ := hmem b (by simp)
      have hlt : a.start < a.stop := by
        have hle := hforward a ha
        subst hka
        simp only [span] at hk
        omega
      rw [hl] at hfree'
      have hab := List.rel_of_pairwise_cons hfree' (List.mem_cons_self : b ∈ b :: _)
      rw [conflictsWith_of_span_eq (hka.trans hkb.symm) hlt] at hab
      cases hab

theorem ReadingOrder.eq_reverse_bottomUp {batch order : List Edit} (h : ReadingOrder batch order)
    (hforward : ∀ e ∈ batch, e.start ≤ e.stop) (hfree : ConflictFree batch) :
    order = (bottomUp batch).reverse := by
  rw [← List.reverse_eq_iff]
  apply eq_bottomUp
  · rw [List.pairwise_reverse]
    exact h.ascending.imp appliesBefore_iff.mpr
  · apply filter_span_eq_of_perm ((List.reverse_perm order).trans h.perm) hforward hfree
    intro offset
    rw [List.filter_reverse, h.insertions, List.reverse_reverse]

theorem defect?_congr {source : Text} {e e' : Edit} (h : e.span = e'.span) :
    e.defect? source = e'.defect? source := by
  simp only [span, Prod.mk.injEq] at h
  simp only [defect?, h.1, h.2]

/-- A failure depends on the spans of the edits alone. -/
theorem applyUpward_error_congr {source upper done done' : Text} {edits edits' : List Edit}
    {failure : Failure} (hspan : edits.map span = edits'.map span)
    (h : applyUpward source upper done edits = .error failure) :
    applyUpward source upper done' edits' = .error failure := by
  induction edits generalizing upper done done' edits' with
  | nil => cases h
  | cons e rest ih =>
    cases edits' with
    | nil => cases hspan
    | cons e' rest' =>
      obtain ⟨he, hrest⟩ := List.cons.inj hspan
      have he' := Prod.mk.inj he
      rw [applyUpward] at h ⊢
      rw [← defect?_congr he, ← he'.1, ← he'.2]
      cases hd : e.defect? source with
      | some failure' =>
        rw [hd] at h
        exact h
      | none =>
        rw [hd] at h
        cases hc : upper.cut? e.stop with
        | none =>
          rw [hc] at h
          exact h
        | some parts =>
          rw [hc] at h
          exact ih hrest h

theorem map_span_bottomUp_of_perm {batch batch' : List Edit} (hp : batch'.Perm batch) :
    (bottomUp batch).map span = (bottomUp batch').map span := by
  have hperm : ((bottomUp batch).map span).Perm ((bottomUp batch').map span) :=
    ((bottomUp_perm batch).trans (hp.symm.trans (bottomUp_perm batch').symm)).map span
  have hsorted (edits : List Edit) : ((bottomUp edits).map span).Pairwise
      fun k l => l.1 < k.1 ∨ l.1 = k.1 ∧ l.2 ≤ k.2 := by
    rw [List.pairwise_map]
    exact (pairwise_bottomUp edits).imp appliesBefore_iff.mp
  refine hperm.eq_of_pairwise ?_ (hsorted batch) (hsorted batch')
  rintro ⟨a, b⟩ ⟨c, d⟩ - - h h'
  simp only [Prod.mk.injEq]
  omega

theorem applyAll_of_perm {source : Text} {batch batch' : List Edit} (hp : batch'.Perm batch)
    (hins : ∀ offset, batch'.filter (insertsAt offset) = batch.filter (insertsAt offset)) :
    applyAll source batch' = applyAll source batch := by
  cases h : applyAll source batch with
  | error failure =>
    rw [applyAll_eq] at h ⊢
    exact applyUpward_error_congr (map_span_bottomUp_of_perm hp) h
  | ok t =>
    obtain ⟨hfits, hfree⟩ := isOk_applyAll_iff.mp ⟨t, h⟩
    have hsame : bottomUp batch' = bottomUp batch := by
      apply eq_bottomUp (pairwise_bottomUp batch')
      intro k
      rw [filter_bottomUp]
      exact filter_span_eq_of_perm hp (fun e he => (hfits e he).forward) hfree hins k
    rw [← h, applyAll_eq, applyAll_eq, hsame]

theorem ReadingOrder.pair_sublist {batch order : List Edit} (h : ReadingOrder batch order)
    {a b : Edit} (ha : a ∈ batch) (hb : b ∈ batch)
    (hlt : a.start < b.start ∨ a.start = b.start ∧ a.stop < b.stop) : [a, b].Sublist order := by
  obtain ⟨front, back, rfl⟩ := List.append_of_mem (h.perm.mem_iff.mpr ha)
  have hasc := List.pairwise_append.mp h.ascending
  have hb' := h.perm.mem_iff.mpr hb
  rcases List.mem_append.mp hb' with hfront | hback
  · have := hasc.2.2 b hfront a (by simp)
    omega
  · rcases List.mem_cons.mp hback with rfl | hback
    · omega
    · exact ((List.singleton_sublist.mpr hback).cons_cons a).trans
        (List.sublist_append_right front (a :: back))

/-- An accepted batch gives the left-to-right splice of its edits in reading order. An insertion
at the start of a replaced span is read before the replacement and one at its end after it. The
whole outcome, a failure included, is that of every other order of the batch that keeps the order
of the insertions at each offset. -/
theorem applyAll_splices (source : Text) (batch : List Edit) :
    (∃ order, ReadingOrder batch order) ∧
    (∀ order, ReadingOrder batch order →
      (∀ t, applyAll source batch = .ok t → splice? source 0 order = some t) ∧
      ∀ i ∈ batch, i.start = i.stop → ∀ r ∈ batch, r.start < r.stop →
        (i.start = r.start → [i, r].Sublist order) ∧
        (i.start = r.stop → [r, i].Sublist order)) ∧
    ∀ batch', batch'.Perm batch →
      (∀ offset, batch'.filter (insertsAt offset) = batch.filter (insertsAt offset)) →
      applyAll source batch' = applyAll source batch := by
  refine ⟨⟨_, readingOrder_reverse_bottomUp batch⟩, ?_, fun batch' => applyAll_of_perm⟩
  intro order horder
  constructor
  · intro t h
    obtain ⟨hfits, hfree⟩ := isOk_applyAll_iff.mp ⟨t, h⟩
    rw [horder.eq_reverse_bottomUp (fun e he => (hfits e he).forward) hfree]
    exact splice?_reverse_bottomUp h
  · intro i hi hinsertion r hr hreplaces
    constructor
    · intro hstart
      exact horder.pair_sublist hi hr (by omega)
    · intro hstop
      exact horder.pair_sublist hr hi (by omega)

end Edit
end LogProbe
