import LogProbe.Edit.Batch

/-! The order in which the edits of a batch are applied. Both orders of a batch, the one in which
edits are applied and the one in which their texts are read, compare spans alone; a stable sort by
such an order is settled by the edits of each span. -/
namespace LogProbe
namespace Edit

def span (e : Edit) : Nat × Nat := (e.start, e.stop)

def hasSpan (k : Nat × Nat) (e : Edit) : Bool := e.span == k

@[simp] theorem hasSpan_iff {k : Nat × Nat} {e : Edit} : e.hasSpan k = true ↔ e.span = k := by
  simp [hasSpan]

/-- A total order of spans, used to compare edits. -/
structure SpanOrder (le : Edit → Edit → Bool) : Prop where
  trans : ∀ a b c, le a b = true → le b c = true → le a c = true
  total : ∀ a b, (le a b || le b a) = true
  antisymm : ∀ a b, le a b = true → le b a = true → a.span = b.span
  of_span_eq : ∀ a b, a.span = b.span → le a b = true

theorem appliesBefore_iff {a b : Edit} : a.appliesBefore b = true ↔
    b.start < a.start ∨ b.start = a.start ∧ b.stop ≤ a.stop := by
  simp [appliesBefore]

theorem spanOrder_appliesBefore : SpanOrder appliesBefore where
  trans a b c := by simp only [appliesBefore_iff]; omega
  total a b := by rw [Bool.or_eq_true, appliesBefore_iff, appliesBefore_iff]; omega
  antisymm a b := by
    simp only [appliesBefore_iff, span, Prod.mk.injEq]
    omega
  of_span_eq a b := by
    simp only [appliesBefore_iff, span, Prod.mk.injEq]
    omega

section Sorting
variable {le : Edit → Edit → Bool}

/-- Two sorted lists with the same edits of every span are the same list. -/
theorem eq_of_filter_span (h : SpanOrder le) {l l' : List Edit}
    (hl : l.Pairwise fun a b => le a b = true) (hl' : l'.Pairwise fun a b => le a b = true)
    (hf : ∀ k, l.filter (hasSpan k) = l'.filter (hasSpan k)) : l = l' := by
  -- an edit of one list is an edit of the other
  have hmem : ∀ {m m' : List Edit}, (∀ k, m.filter (hasSpan k) = m'.filter (hasSpan k)) →
      ∀ e ∈ m, e ∈ m' := by
    intro m m' hm e he
    have : e ∈ m'.filter (hasSpan e.span) := by
      rw [← hm]
      exact List.mem_filter.mpr ⟨he, by simp⟩
    exact (List.mem_filter.mp this).1
  induction l generalizing l' with
  | nil =>
    cases l' with
    | nil => rfl
    | cons b l' => cases hmem (fun k => (hf k).symm) b (by simp)
  | cons a l ih =>
    cases l' with
    | nil => cases hmem hf a (by simp)
    | cons b l' =>
      have hba : le b a = true := by
        rcases List.mem_cons.mp (hmem hf a (by simp)) with rfl | ha
        · exact h.of_span_eq _ _ rfl
        · exact List.rel_of_pairwise_cons hl' ha
      have hab : le a b = true := by
        rcases List.mem_cons.mp (hmem (fun k => (hf k).symm) b (by simp)) with rfl | hb
        · exact h.of_span_eq _ _ rfl
        · exact List.rel_of_pairwise_cons hl hb
      have hspan := h.antisymm a b hab hba
      -- the first edits have one span, so they head the same filtered list
      have hfirst := hf a.span
      rw [List.filter_cons_of_pos (by simp), List.filter_cons_of_pos (by simp [hspan])] at hfirst
      obtain rfl : a = b := (List.cons.inj hfirst).1
      refine congrArg (a :: ·) (ih hl.tail hl'.tail ?_)
      intro k
      by_cases hk : a.span = k
      · subst hk
        exact (List.cons.inj hfirst).2
      · have := hf k
        rwa [List.filter_cons_of_neg (by simpa using hk),
          List.filter_cons_of_neg (by simpa using hk)] at this

/-- Sorting keeps the edits of one span in order. -/
theorem filter_mergeSort (h : SpanOrder le) (batch : List Edit) (k : Nat × Nat) :
    (batch.mergeSort le).filter (hasSpan k) = batch.filter (hasSpan k) := by
  have hspan : ∀ e ∈ batch.filter (hasSpan k), e.span = k := by
    intro e he
    simpa using (List.mem_filter.mp he).2
  have hsorted : (batch.filter (hasSpan k)).Pairwise fun a b => le a b = true := by
    apply List.pairwise_of_forall_mem_list
    intro a ha b hb
    exact h.of_span_eq a b ((hspan a ha).trans (hspan b hb).symm)
  have hsub : (batch.filter (hasSpan k)).Sublist ((batch.mergeSort le).filter (hasSpan k)) := by
    have := (List.sublist_mergeSort h.trans h.total hsorted List.filter_sublist).filter (hasSpan k)
    rwa [List.filter_filter, show (fun a => hasSpan k a && hasSpan k a) = hasSpan k by simp]
      at this
  exact (hsub.eq_of_length ((List.mergeSort_perm batch le).filter _).length_eq.symm).symm

theorem eq_mergeSort_of_filter_span (h : SpanOrder le) {l batch : List Edit}
    (hl : l.Pairwise fun a b => le a b = true)
    (hf : ∀ k, l.filter (hasSpan k) = batch.filter (hasSpan k)) : l = batch.mergeSort le := by
  refine eq_of_filter_span h hl (List.pairwise_mergeSort h.trans h.total batch) ?_
  intro k
  rw [hf, filter_mergeSort h]

end Sorting

/-- A batch in the order of its application. -/
def bottomUp (batch : List Edit) : List Edit := batch.mergeSort appliesBefore

theorem applyAll_eq (source : Text) (batch : List Edit) :
    applyAll source batch = applyUpward source source [] (bottomUp batch) := rfl

theorem bottomUp_perm (batch : List Edit) : (bottomUp batch).Perm batch :=
  List.mergeSort_perm _ _

@[simp] theorem mem_bottomUp {e : Edit} {batch : List Edit} : e ∈ bottomUp batch ↔ e ∈ batch :=
  (bottomUp_perm batch).mem_iff

theorem pairwise_bottomUp (batch : List Edit) :
    (bottomUp batch).Pairwise fun a b => a.appliesBefore b = true :=
  List.pairwise_mergeSort spanOrder_appliesBefore.trans spanOrder_appliesBefore.total batch

theorem filter_bottomUp (batch : List Edit) (k : Nat × Nat) :
    (bottomUp batch).filter (hasSpan k) = batch.filter (hasSpan k) :=
  filter_mergeSort spanOrder_appliesBefore batch k

theorem eq_bottomUp {l batch : List Edit} (hl : l.Pairwise fun a b => a.appliesBefore b = true)
    (hf : ∀ k, l.filter (hasSpan k) = batch.filter (hasSpan k)) : l = bottomUp batch :=
  eq_mergeSort_of_filter_span spanOrder_appliesBefore hl hf

end Edit
end LogProbe
