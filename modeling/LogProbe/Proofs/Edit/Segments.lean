import LogProbe.Proofs.Edit.Splice
import LogProbe.Proofs.Text.Layout
import Mathlib.Data.List.Pairwise

/-! The parts of a splice. At a boundary that no edit crosses a splice falls into what the edits
make of the text above it and what they make of the text below; insertions at one offset stand there
in one block. -/
namespace LogProbe

/-- A list falls into the items of a class and the others, if no item of the class follows another
one. -/
theorem eq_filter_append_filter {α : Type} {p : α → Bool} {l : List α}
    (h : l.Pairwise fun a b => p b = true → p a = true) :
    l = l.filter p ++ l.filter fun a => !p a := by
  induction l with
  | nil => rfl
  | cons a l ih =>
    rw [List.pairwise_cons] at h
    cases ha : p a with
    | true =>
      rw [List.filter_cons_of_pos ha, List.filter_cons_of_neg (by simp [ha]), List.cons_append,
        ← ih h.2]
    | false =>
      have hl : ∀ b ∈ l, p b = false := fun b hb =>
        Bool.eq_false_iff.mpr fun hpb => by simp [h.1 b hb hpb] at ha
      have hnone : (a :: l).filter p = [] := by simpa [ha] using hl
      have hall : (a :: l).filter (fun b => !p b) = a :: l := by simpa [ha] using hl
      rw [hnone, hall, List.nil_append]

namespace Edit
variable {source : Text} {start n stop : Nat} {t : Text}

/-- What edits make of a stretch of a text, each in turn giving the text since the one before it
and its own text. -/
def stretch? (source : Text) (stop : Nat) : Nat → List Edit → Option Text
  | start, [] => source.slice? start stop
  | start, e :: rest => do
    let kept ← source.slice? start e.start
    let tail ← stretch? source stop e.stop rest
    return kept ++ e.text ++ tail

theorem stretch?_cons_eq_some_iff {e : Edit} {rest : List Edit} :
    stretch? source stop start (e :: rest) = some t ↔ ∃ kept tail,
      source.slice? start e.start = some kept ∧ stretch? source stop e.stop rest = some tail ∧
        kept ++ e.text ++ tail = t := by
  simp [stretch?, Option.bind_eq_some_iff]

/-- A splice is what the edits make of the text to its end. -/
theorem splice?_eq_stretch? (source : Text) (start : Nat) (edits : List Edit) :
    splice? source start edits = stretch? source source.size start edits := by
  induction edits generalizing start with
  | nil => rfl
  | cons e rest ih => rw [splice?, stretch?, ih]

/-- A stretch falls into two at a boundary that lies behind some of the edits and before the
others. -/
theorem exists_stretch?_append {upper lower : List Edit}
    (h : stretch? source stop start (upper ++ lower) = some t)
    (hn : source.isBoundary n = true) (hstart : start ≤ n) (hstop : n ≤ stop)
    (hupper : ∀ e ∈ upper, e.stop ≤ n) (hlower : ∀ e ∈ lower, n ≤ e.start) :
    ∃ a b, stretch? source n start upper = some a ∧ stretch? source stop n lower = some b ∧
      a ++ b = t := by
  induction upper generalizing start t with
  | nil =>
    cases lower with
    | nil =>
      obtain ⟨x, y, hx, hy, rfl⟩ := Text.slice?_split h hstart hstop hn
      exact ⟨x, y, hx, hy, rfl⟩
    | cons e lower =>
      obtain ⟨kept, tail, hkept, htail, rfl⟩ := stretch?_cons_eq_some_iff.mp h
      obtain ⟨x, y, hx, hy, rfl⟩ := Text.slice?_split hkept hstart (hlower e (by simp)) hn
      exact ⟨x, y ++ e.text ++ tail, hx, stretch?_cons_eq_some_iff.mpr ⟨y, tail, hy, htail, rfl⟩,
        by simp⟩
  | cons e upper ih =>
    rw [List.forall_mem_cons] at hupper
    obtain ⟨kept, tail, hkept, htail, rfl⟩ := stretch?_cons_eq_some_iff.mp h
    obtain ⟨a, b, ha, hb, rfl⟩ := ih htail hupper.1 hupper.2
    exact ⟨kept ++ e.text ++ a, b, stretch?_cons_eq_some_iff.mpr ⟨kept, a, hkept, ha, rfl⟩, hb,
      by simp⟩

/-- Around an edit stands what the edits before it make of the text above it, and what those behind
it make of the text below. -/
theorem exists_stretch?_around {upper lower : List Edit} {e : Edit}
    (h : stretch? source stop start (upper ++ e :: lower) = some t) :
    ∃ above below, stretch? source e.start start upper = some above ∧
      stretch? source stop e.stop lower = some below ∧ above ++ e.text ++ below = t := by
  induction upper generalizing start t with
  | nil => exact stretch?_cons_eq_some_iff.mp h
  | cons d upper ih =>
    obtain ⟨kept, tail, hkept, htail, rfl⟩ := stretch?_cons_eq_some_iff.mp h
    obtain ⟨above, below, habove, hbelow, rfl⟩ := ih htail
    exact ⟨kept ++ d.text ++ above, below,
      stretch?_cons_eq_some_iff.mpr ⟨kept, above, hkept, habove, rfl⟩, hbelow, by simp⟩

theorem insertsAt_iff {e : Edit} : insertsAt n e = true ↔ e.start = n ∧ e.stop = n := by
  simp only [insertsAt, isInsertion, Bool.and_eq_true, beq_iff_eq]
  omega

/-- Insertions at one offset stand there one behind the other. -/
theorem exists_stretch?_insertions {block lower : List Edit}
    (h : stretch? source stop n (block ++ lower) = some t)
    (hblock : ∀ e ∈ block, insertsAt n e = true) :
    ∃ b, stretch? source stop n lower = some b ∧ block.flatMap (·.text) ++ b = t := by
  induction block generalizing t with
  | nil => exact ⟨t, h, rfl⟩
  | cons e block ih =>
    rw [List.forall_mem_cons, insertsAt_iff] at hblock
    obtain ⟨⟨hstart, hstop⟩, hblock⟩ := hblock
    obtain ⟨kept, tail, hkept, htail, rfl⟩ := stretch?_cons_eq_some_iff.mp h
    rw [hstart] at hkept
    rw [hstop] at htail
    obtain ⟨b, hb, rfl⟩ := ih htail hblock
    have hsize := Text.size_of_slice? hkept
    obtain rfl : kept = [] := Text.size_eq_zero (by omega)
    exact ⟨b, hb, by simp⟩

/-- At an offset the result has the texts of `block` one behind the other. Before them stands what
the edits before them make of the text above, and behind them what the others make of the text
below. -/
def HasBlock (source : Text) (order : List Edit) (result : Text) (n : Nat) (block : List Edit) :
    Prop :=
  ∃ upper lower above below, order = upper ++ block ++ lower ∧
    (∀ e ∈ upper, e.stop ≤ n) ∧ (∀ e ∈ lower, n ≤ e.start) ∧
    stretch? source n 0 upper = some above ∧ stretch? source source.size n lower = some below ∧
    above ++ block.flatMap (·.text) ++ below = result

/-- No edit of an accepted batch reaches across an insertion. -/
theorem stop_le_of_insertsAt {batch : List Edit} (hforward : ∀ e ∈ batch, e.start ≤ e.stop)
    (hfree : ConflictFree batch) (hn : ∃ i ∈ batch, insertsAt n i = true) {e : Edit}
    (he : e ∈ batch) (hlt : e.start < n) : e.stop ≤ n := by
  obtain ⟨i, hi, hin⟩ := hn
  obtain ⟨hstart, hstop⟩ := insertsAt_iff.mp hin
  have hne : i ≠ e := by
    rintro rfl
    omega
  have : Std.Symm fun a b : Edit => a.conflictsWith b = false :=
    ⟨fun a b hab => by rwa [conflictsWith_comm]⟩
  have hconflict : i.conflictsWith e = false := List.Pairwise.forall hfree hi he hne
  rw [← hstart] at hlt ⊢
  exact (stop_le_start_iff (hforward i hi) (hforward e he)
    (appliesBefore_iff.mpr (.inl hlt))).mpr hconflict

/-- In reading order the insertions at an offset come in one block, the last of the batch first,
behind all that starts above the offset. -/
theorem ReadingOrder.exists_block {batch order : List Edit} (horder : ReadingOrder batch order)
    (hforward : ∀ e ∈ batch, e.start ≤ e.stop) (hfree : ConflictFree batch)
    (hn : ∃ i ∈ batch, insertsAt n i = true) :
    ∃ upper lower, order = upper ++ ((batch.filter (insertsAt n)).reverse ++ lower) ∧
      (∀ e ∈ upper, e.stop ≤ n) ∧ ∀ e ∈ lower, n ≤ e.start := by
  have hmem : ∀ {e}, e ∈ order → e ∈ batch := fun he => horder.perm.mem_iff.mp he
  have hupper : order = order.filter (·.start < n) ++ order.filter fun e => !decide (e.start < n) :=
    eq_filter_append_filter (horder.ascending.imp fun hab hb => by
      simp only [decide_eq_true_eq] at hb ⊢
      omega)
  generalize hrest : (order.filter fun e => !decide (e.start < n)) = rest at hupper
  have hlow : ∀ e ∈ rest, e ∈ batch ∧ n ≤ e.start := by
    rintro e he
    rw [← hrest, List.mem_filter] at he
    exact ⟨hmem he.1, by simpa using he.2⟩
  have hlower : rest = rest.filter (insertsAt n) ++ rest.filter fun e => !insertsAt n e := by
    refine eq_filter_append_filter ((hrest ▸ horder.ascending.filter _).imp_of_mem ?_)
    intro a b ha _ hab hb
    obtain ⟨ha, hle⟩ := hlow a ha
    have hspan := hforward a ha
    rw [insertsAt_iff] at hb ⊢
    omega
  have hblock : rest.filter (insertsAt n) = (batch.filter (insertsAt n)).reverse := by
    have habove : (order.filter (·.start < n)).filter (insertsAt n) = [] := by
      rw [List.filter_filter, List.filter_eq_nil_iff]
      intro e _
      simp only [Bool.and_eq_true, insertsAt_iff, decide_eq_true_eq]
      omega
    rw [← horder.insertions, hupper, List.filter_append, habove, List.nil_append]
  rw [hblock] at hlower
  refine ⟨_, _, hlower ▸ hupper, fun e he => ?_, fun e he => (hlow e (List.mem_filter.mp he).1).2⟩
  obtain ⟨he, hlt⟩ := List.mem_filter.mp he
  exact stop_le_of_insertsAt hforward hfree hn (hmem he) (by simpa using hlt)

/-- The insertions of a batch at one offset stand there in one block, the last of the batch
first. -/
theorem hasBlock_of_applyAll {batch order : List Edit} (h : applyAll source batch = .ok t)
    (horder : ReadingOrder batch order) (hn : ∃ i ∈ batch, insertsAt n i = true) :
    HasBlock source order t n (batch.filter (insertsAt n)).reverse := by
  obtain ⟨hfits, hfree⟩ := isOk_applyAll_iff.mp ⟨t, h⟩
  have hforward : ∀ e ∈ batch, e.start ≤ e.stop := fun e he => (hfits e he).forward
  have hboundary : source.isBoundary n = true := by
    obtain ⟨i, hi, hin⟩ := hn
    rw [← (insertsAt_iff.mp hin).1]
    exact (hfits i hi).startBoundary
  have hsplice := horder.eq_reverse_bottomUp hforward hfree ▸ splice?_reverse_bottomUp h
  obtain ⟨upper, lower, hsplit, hends, hstarts⟩ := horder.exists_block hforward hfree hn
  have hblock : ∀ e ∈ (batch.filter (insertsAt n)).reverse, insertsAt n e = true := fun e he =>
    (List.mem_filter.mp (List.mem_reverse.mp he)).2
  rw [splice?_eq_stretch?, hsplit] at hsplice
  obtain ⟨above, tail, habove, htail, rfl⟩ := exists_stretch?_append hsplice hboundary
    (Nat.zero_le n) (Text.le_size_of_isBoundary hboundary) hends fun e he => by
      rcases List.mem_append.mp he with he | he
      · exact Nat.le_of_eq (insertsAt_iff.mp (hblock e he)).1.symm
      · exact hstarts e he
  obtain ⟨below, hbelow, rfl⟩ := exists_stretch?_insertions htail hblock
  exact ⟨upper, lower, above, below, by rw [hsplit, List.append_assoc], hends, hstarts, habove,
    hbelow, List.append_assoc above _ below⟩

end Edit
end LogProbe
