import LogProbe.Proofs.Edit.Widening

/-! What stands next to removed stretches. Edits that take lines with their spans stop in front of
ink; so the text that they leave falls apart at an offset with ink, and what stands there is the ink
or what an edit put in its place. -/
namespace LogProbe
namespace Edit
variable {source : Text} {bare wide : Edit} {start n stop : Nat} {t : Text}

section Ink
variable (h : Widens source bare wide) (hn : source.isBoundary n = true)
include h hn

theorem Widens.stop_lt_of_ink (hink : Text.IsInk (source.charBefore? n)) (hlt : bare.stop < n) :
    wide.stop < n := by
  obtain ⟨m, hm, hlayout⟩ := h.trail_layout
  refine Nat.lt_of_not_le fun hle => ?_
  have := hink.le_of_before hn hm hlayout hle
  omega

theorem Widens.le_start_of_ink (hink : Text.IsInk (source.charBefore? n)) (hle : n ≤ bare.start) :
    n ≤ wide.start := by
  obtain ⟨m, hm, hpadding⟩ := h.lead
  exact hink.le_of_before hn hm (Text.all_isLayout_of_isPadding hpadding) hle

theorem Widens.stop_le_of_ink (hink : Text.IsInk (source.charAfter? n)) (hle : bare.stop ≤ n) :
    wide.stop ≤ n := by
  obtain ⟨m, hm, hlayout⟩ := h.trail_layout
  exact hink.le_of_after hn hm hlayout hle

theorem Widens.lt_start_of_ink (hink : Text.IsInk (source.charAfter? n)) (hlt : n < bare.start) :
    n < wide.start := by
  obtain ⟨m, hm, hpadding⟩ := h.lead
  refine Nat.lt_of_not_le fun hle => ?_
  have := hink.le_of_after hn hm (Text.all_isLayout_of_isPadding hpadding) hle
  omega

end Ink

/-- The character that ends at an offset when the edits are made: the last one of an edit that ends
there, or else that of the source. -/
def lastAt? (source : Text) (edits : List Edit) (n : Nat) : Option Char :=
  match edits.find? (·.stop == n) with
  | some e => e.text.getLast?
  | none => source.charBefore? n

/-- The character that starts at an offset when the edits are made. -/
def firstAt? (source : Text) (edits : List Edit) (n : Nat) : Option Char :=
  match edits.find? (·.start == n) with
  | some e => e.text.head?
  | none => source.charAfter? n

/-- A stretch ends with what ends at its end. -/
theorem getLast?_stretch? {edits : List Edit} (h : stretch? source n start edits = some t)
    (hstart : start < n) (hforward : ∀ e ∈ edits, e.start < e.stop ∧ e.stop ≤ n)
    (hascending : edits.Pairwise fun a b => a.stop ≤ b.start)
    (htext : ∀ e ∈ edits, e.stop = n → e.text ≠ []) :
    t.getLast? = lastAt? source edits n ∧ (lastAt? source edits n).isSome = true := by
  induction edits generalizing start t with
  | nil =>
    have hlast : source.charBefore? n = t.getLast? := Text.charBefore?_of_slice? h hstart
    rw [lastAt?, List.find?_nil, hlast]
    refine ⟨rfl, List.getLast?_isSome.mpr ?_⟩
    rintro rfl
    have := Text.size_of_slice? h
    simp only [Text.size_nil] at this
    omega
  | cons e rest ih =>
    rw [List.forall_mem_cons] at hforward htext
    rw [List.pairwise_cons] at hascending
    obtain ⟨kept, tail, hkept, htail, rfl⟩ := stretch?_cons_eq_some_iff.mp h
    by_cases hend : e.stop = n
    · -- nothing fits behind an edit that ends there
      obtain rfl : rest = [] := List.eq_nil_iff_forall_not_mem.mpr fun d hd => by
        have hbehind := hascending.1 d hd
        have hspan := hforward.2 d hd
        omega
      rw [hend] at htail
      have hsize := Text.size_of_slice? htail
      obtain rfl : tail = [] := Text.size_eq_zero (by omega)
      have hne := htext.1 hend
      rw [lastAt?, List.find?_cons_of_pos (by simpa using hend), List.append_nil,
        List.getLast?_append_of_ne_nil _ hne]
      exact ⟨rfl, List.getLast?_isSome.mpr hne⟩
    · obtain ⟨hlast, hsome⟩ := ih htail (by omega) hforward.2 hascending.2 htext.2
      have hskip : lastAt? source (e :: rest) n = lastAt? source rest n := by
        rw [lastAt?, lastAt?, List.find?_cons_of_neg (by simpa using hend)]
      rw [hskip]
      refine ⟨?_, hsome⟩
      rw [List.getLast?_append, hlast]
      obtain ⟨c, hc⟩ := Option.isSome_iff_exists.mp hsome
      rw [hc]
      rfl

/-- A stretch starts with what starts at its start. -/
theorem head?_stretch? {edits : List Edit} (h : stretch? source stop n edits = some t)
    (hstop : n < stop) (hforward : ∀ e ∈ edits, n ≤ e.start ∧ e.start < e.stop)
    (hascending : edits.Pairwise fun a b => a.stop ≤ b.start)
    (htext : ∀ e ∈ edits, e.start = n → e.text ≠ []) :
    t.head? = firstAt? source edits n := by
  cases edits with
  | nil => exact (Text.charAfter?_of_slice? h hstop).symm
  | cons e rest =>
    rw [List.forall_mem_cons] at hforward htext
    rw [List.pairwise_cons] at hascending
    obtain ⟨kept, tail, hkept, htail, rfl⟩ := stretch?_cons_eq_some_iff.mp h
    have hsize := Text.size_of_slice? hkept
    by_cases hbegin : e.start = n
    · obtain rfl : kept = [] := Text.size_eq_zero (by omega)
      rw [firstAt?, List.find?_cons_of_pos (by simpa using hbegin), List.nil_append,
        List.head?_append_of_ne_nil _ (htext.1 hbegin)]
    · have hnone : (e :: rest).find? (·.start == n) = none := by
        rw [List.find?_eq_none, List.forall_mem_cons]
        refine ⟨by simpa using hbegin, fun d hd => ?_⟩
        have hbehind := hascending.1 d hd
        simp only [beq_iff_eq]
        omega
      have hafter := Text.charAfter?_of_slice? hkept (by omega)
      have hne : kept ≠ [] := by
        rintro rfl
        simp only [Text.size_nil] at hsize
        omega
      rw [firstAt?, hnone, List.append_assoc, List.head?_append_of_ne_nil _ hne]
      exact hafter.symm

/-- A wide edit is on the side of an offset on which its span is. -/
structure KeepsSide (n : Nat) (bare wide : Edit) : Prop where
  stop_le_iff : wide.stop ≤ n ↔ bare.stop ≤ n
  le_start : n < wide.stop → n ≤ wide.start

/-- A span keeps clear of an offset in front of it: it ends there at the latest, and then with
something that it leaves, or it starts there at the earliest. -/
def ClearOfEnd (n : Nat) (e : Edit) : Prop :=
  e.stop < n ∨ e.stop = n ∧ e.text ≠ [] ∨ n ≤ e.start

/-- A span keeps clear of an offset behind it. -/
def ClearOfStart (n : Nat) (e : Edit) : Prop :=
  e.stop ≤ n ∨ e.start = n ∧ e.text ≠ [] ∨ n < e.start

/-- What does not stay in front of the offset is behind it. -/
theorem ClearOfEnd.le_start_iff {e : Edit} (h : ClearOfEnd n e) (hforward : e.start < e.stop) :
    n ≤ e.start ↔ ¬ e.stop ≤ n := by
  rcases h with hlt | ⟨heq, -⟩ | hle <;> omega

theorem Widens.keepsSide_of_end (h : Widens source bare wide) (hforward : bare.start < bare.stop)
    (hn : source.isBoundary n = true) (hink : Text.IsInk (source.charBefore? n))
    (hclear : ClearOfEnd n bare) :
    KeepsSide n bare wide ∧ (bare.stop = n ∨ wide.stop = n → wide = bare) := by
  have hstart := h.start_le
  have hstop := h.le_stop
  rcases hclear with hlt | ⟨heq, htext⟩ | hle
  · have hwide := h.stop_lt_of_ink hn hink hlt
    exact ⟨⟨by omega, by omega⟩, by omega⟩
  · obtain rfl := h.eq_of_text htext
    exact ⟨⟨Iff.rfl, by omega⟩, fun _ => rfl⟩
  · have hwide := h.le_start_of_ink hn hink hle
    exact ⟨⟨by omega, fun _ => hwide⟩, by omega⟩

theorem Widens.keepsSide_of_start (h : Widens source bare wide) (hforward : bare.start < bare.stop)
    (hn : source.isBoundary n = true) (hink : Text.IsInk (source.charAfter? n))
    (hclear : ClearOfStart n bare) :
    KeepsSide n bare wide ∧ (bare.start = n ∨ wide.start = n → n < wide.stop → wide = bare) := by
  have hstart := h.start_le
  have hstop := h.le_stop
  rcases hclear with hle | ⟨heq, htext⟩ | hlt
  · have hwide := h.stop_le_of_ink hn hink hle
    exact ⟨⟨by omega, by omega⟩, by omega⟩
  · obtain rfl := h.eq_of_text htext
    exact ⟨⟨Iff.rfl, by omega⟩, fun _ _ => rfl⟩
  · have hwide := h.lt_start_of_ink hn hink hlt
    exact ⟨⟨by omega, by omega⟩, by omega⟩

/-- Edits that are just their spans where one of the two meets an offset meet it alike. -/
theorem find?_eq_of_forall₂ {position : Edit → Nat} {bares wides : List Edit}
    (h : List.Forall₂ (fun bare wide => position bare = n ∨ position wide = n → wide = bare)
      bares wides) :
    wides.find? (position · == n) = bares.find? (position · == n) := by
  induction h with
  | nil => rfl
  | @cons bare wide bares wides hpair _ ih =>
    by_cases hmeets : position bare = n ∨ position wide = n
    · obtain rfl := hpair hmeets
      have hwide : position wide = n := hmeets.elim id id
      rw [List.find?_cons_of_pos (by simpa using hwide),
        List.find?_cons_of_pos (by simpa using hwide)]
    · rw [not_or] at hmeets
      rw [List.find?_cons_of_neg (by simpa using hmeets.2),
        List.find?_cons_of_neg (by simpa using hmeets.1), ih]

/-- A search finds the same where everything it looks for is kept. -/
theorem find?_filter_of_imp {α : Type} {p q : α → Bool} {l : List α}
    (h : ∀ a ∈ l, q a = true → p a = true) : (l.filter p).find? q = l.find? q := by
  induction l with
  | nil => rfl
  | cons a l ih =>
    rw [List.forall_mem_cons] at h
    cases hq : q a with
    | true =>
      rw [List.filter_cons_of_pos (h.1 hq), List.find?_cons_of_pos hq, List.find?_cons_of_pos hq]
    | false =>
      rw [List.find?_cons_of_neg (by simp [hq]), ← ih h.2, List.filter_cons]
      split
      · rw [List.find?_cons_of_neg (by simp [hq])]
      · rfl

/-- Edits with the lines that they take, one behind the other, and their spans. -/
structure Widened (source : Text) (bares wides : List Edit) : Prop where
  widens : List.Forall₂ (Widens source) bares wides
  forward : ∀ e ∈ bares, e.start < e.stop
  ascending : wides.Pairwise fun a b => a.stop ≤ b.start

namespace Widened
variable {bares wides : List Edit} (h : Widened source bares wides)
include h

theorem forall₂ {S : Edit → Prop} {R : Edit → Edit → Prop} (hS : ∀ e ∈ bares, S e)
    (hR : ∀ {bare wide}, Widens source bare wide → bare.start < bare.stop → S bare → R bare wide) :
    List.Forall₂ R bares wides := by
  have hall := (List.forall₂_and_left _ _).mpr ⟨h.forward,
    (List.forall₂_and_left _ _).mpr ⟨hS, h.widens⟩⟩
  exact hall.imp fun bare wide hpair => hR hpair.2.2 hpair.1 hpair.2.1

theorem exists_bare {wide : Edit} (hw : wide ∈ wides) :
    ∃ bare ∈ bares, Widens source bare wide ∧ bare.start < bare.stop := by
  obtain ⟨bare, hb, hwidens⟩ := exists_widens_of_mem h.widens hw
  exact ⟨bare, hb, hwidens, h.forward bare hb⟩

theorem forward_wide : ∀ e ∈ wides, e.start < e.stop := by
  intro e he
  obtain ⟨bare, -, hwidens, hforward⟩ := h.exists_bare he
  have hstart := hwidens.start_le
  have hstop := hwidens.le_stop
  omega

theorem filter {S : Edit → Prop} {p : Edit → Bool} (hS : ∀ e ∈ bares, S e)
    (hp : ∀ {bare wide}, Widens source bare wide → bare.start < bare.stop → S bare →
      p bare = p wide) :
    Widened source (bares.filter p) (wides.filter p) where
  widens := by
    have hall : List.Forall₂ (fun bare wide => Widens source bare wide ∧ p bare = p wide)
        bares wides := h.forall₂ hS fun hwidens hforward hbare =>
      ⟨hwidens, hp hwidens hforward hbare⟩
    have hkept := List.rel_filter (fun _ _ hpair => Iff.of_eq (congrArg (· = true) hpair.2)) hall
    exact hkept.imp fun _ _ hpair => hpair.1
  forward e he := h.forward e (List.mem_filter.mp he).1
  ascending := h.ascending.filter _

/-- The two sides of an offset, given that all edits are on the side of their spans. -/
theorem exists_sides (hn : source.isBoundary n = true) (hstart : start ≤ n) (hstop : n ≤ stop)
    {S : Edit → Prop} (hS : ∀ e ∈ bares, S e)
    (hside : ∀ {bare wide}, Widens source bare wide → bare.start < bare.stop → S bare →
      KeepsSide n bare wide)
    (ht : stretch? source stop start wides = some t) :
    Widened source (bares.filter (·.stop ≤ n)) (wides.filter (·.stop ≤ n)) ∧
    Widened source (bares.filter fun e => !decide (e.stop ≤ n))
      (wides.filter fun e => !decide (e.stop ≤ n)) ∧
    (wides.filter (·.stop ≤ n) ++ wides.filter fun e => !decide (e.stop ≤ n)) = wides ∧
    ∃ left rest, stretch? source n start (wides.filter (·.stop ≤ n)) = some left ∧
      stretch? source stop n (wides.filter fun e => !decide (e.stop ≤ n)) = some rest ∧
      left ++ rest = t := by
  have hsplit : wides = wides.filter (·.stop ≤ n) ++ wides.filter fun e => !decide (e.stop ≤ n) :=
    eq_filter_append_filter (h.ascending.imp_of_mem fun {a b} _ hb hab hle => by
      have hforward := h.forward_wide b hb
      simp only [decide_eq_true_eq] at hle ⊢
      omega)
  refine ⟨h.filter hS fun hw hf hs => by simp only [(hside hw hf hs).stop_le_iff],
    h.filter hS fun hw hf hs => by simp only [(hside hw hf hs).stop_le_iff], hsplit.symm, ?_⟩
  rw [hsplit] at ht
  refine exists_stretch?_append ht hn hstart hstop ?_ ?_
  · intro e he
    simpa using (List.mem_filter.mp he).2
  · intro e he
    obtain ⟨he, hlt⟩ := List.mem_filter.mp he
    obtain ⟨bare, hb, hwidens, hforward⟩ := h.exists_bare he
    exact (hside hwidens hforward (hS bare hb)).le_start (by simpa using hlt)

/-- In front of an offset behind ink the edits leave what ends there, in the source or in the place
of a span. -/
theorem getLast?_eq (hn : source.isBoundary n = true) (hink : Text.IsInk (source.charBefore? n))
    (hclear : ∀ e ∈ bares, ClearOfEnd n e) (hinside : ∀ e ∈ wides, e.stop ≤ n)
    (hstart : start < n) {left : Text} (hleft : stretch? source n start wides = some left) :
    left.getLast? = lastAt? source bares n := by
  have hsame : wides.find? (·.stop == n) = bares.find? (·.stop == n) :=
    find?_eq_of_forall₂ (h.forall₂ hclear fun hw hf hs => (hw.keepsSide_of_end hf hn hink hs).2)
  have hforward : ∀ e ∈ wides, e.start < e.stop ∧ e.stop ≤ n := fun e he =>
    ⟨h.forward_wide e he, hinside e he⟩
  refine (getLast?_stretch? hleft hstart hforward h.ascending fun e he hstop => ?_).1.trans ?_
  · obtain ⟨bare, hb, hwidens, hf⟩ := h.exists_bare he
    have hbare := hclear bare hb
    obtain rfl := (hwidens.keepsSide_of_end hf hn hink hbare).2 (.inr hstop)
    rcases hbare with hlt | ⟨-, htext⟩ | hle
    · omega
    · exact htext
    · omega
  · rw [lastAt?, lastAt?, hsame]

/-- Behind an offset in front of ink the edits leave what starts there. -/
theorem head?_eq (hn : source.isBoundary n = true) (hink : Text.IsInk (source.charAfter? n))
    (hclear : ∀ e ∈ bares, ClearOfStart n e) (hinside : ∀ e ∈ bares, n < e.stop)
    (hstop : n < stop) {right : Text} (hright : stretch? source stop n wides = some right) :
    right.head? = firstAt? source bares n := by
  have hbehind : ∀ e ∈ bares, ClearOfStart n e ∧ n < e.stop := fun e he =>
    ⟨hclear e he, hinside e he⟩
  have hsame : wides.find? (·.start == n) = bares.find? (·.start == n) :=
    find?_eq_of_forall₂ (h.forall₂ hbehind fun hw hf hs hmeets => by
      have hwide := hw.le_stop
      exact (hw.keepsSide_of_start hf hn hink hs.1).2 hmeets (by omega))
  refine (head?_stretch? hright hstop (fun e he => ?_) h.ascending fun e he hstart => ?_).trans ?_
  · obtain ⟨bare, hb, hwidens, hf⟩ := h.exists_bare he
    have hwide := hwidens.le_stop
    have hlt := hinside bare hb
    have hside := (hwidens.keepsSide_of_start hf hn hink (hclear bare hb)).1
    exact ⟨hside.le_start (by omega), h.forward_wide e he⟩
  · obtain ⟨bare, hb, hwidens, hf⟩ := h.exists_bare he
    have hwide := hwidens.le_stop
    have hlt := hinside bare hb
    have hbare := hclear bare hb
    obtain rfl := (hwidens.keepsSide_of_start hf hn hink hbare).2 (.inr hstart) (by omega)
    rcases hbare with hle | ⟨-, htext⟩ | hlt
    · omega
    · exact htext
    · omega
  · rw [firstAt?, firstAt?, hsame]

/-- What is left of a text with an offset behind ink and one in front of ink: a part up to the one,
a part between them and a part from the other on. -/
theorem exists_parts {k : Nat} (hn : source.isBoundary n = true)
    (hbefore : Text.IsInk (source.charBefore? n)) (hk : source.isBoundary k = true)
    (hafter : Text.IsInk (source.charAfter? k)) (hpos : 0 < n) (hnk : n ≤ k)
    (hend : k < source.size) (hclearEnd : ∀ e ∈ bares, ClearOfEnd n e)
    (hclearStart : ∀ e ∈ bares, ClearOfStart k e) (ht : splice? source 0 wides = some t) :
    ∃ upper middle lower left between right gaps, wides = upper ++ middle ++ lower ∧
      stretch? source n 0 upper = some left ∧ stretch? source k n middle = some between ∧
      stretch? source source.size k lower = some right ∧ left ++ between ++ right = t ∧
      left.getLast? = lastAt? source bares n ∧ right.head? = firstAt? source bares k ∧
      stretch? source k n (bares.filter fun e => decide (n ≤ e.start) && decide (e.stop ≤ k)) =
        some gaps ∧ between.ink = gaps.ink := by
  rw [splice?_eq_stretch?] at ht
  obtain ⟨hup, hdown, hsplit, left, rest, hleft, hrest, rfl⟩ := h.exists_sides hn (Nat.zero_le n)
    (by omega) hclearEnd (fun hw hf hs => (hw.keepsSide_of_end hf hn hbefore hs).1) ht
  obtain ⟨hmiddle, hlow, hsplit', between, right, hbetween, hright, rfl⟩ := hdown.exists_sides hk
    hnk (Nat.le_of_lt hend) (fun e he => hclearStart e (List.mem_filter.mp he).1)
    (fun hw hf hs => (hw.keepsSide_of_start hf hk hafter hs).1) hrest
  obtain ⟨gaps, hgaps, hink⟩ := ink_stretch? hmiddle.widens (Text.slice?_self hn) rfl hbetween
  refine ⟨_, _, _, left, between, right, gaps, ?_, hleft, hbetween, hright,
    List.append_assoc left between right, ?_, ?_, ?_, hink.symm⟩
  · rw [List.append_assoc, hsplit', hsplit]
  · have hinside : ∀ e ∈ wides.filter (·.stop ≤ n), e.stop ≤ n := fun e he => by
      simpa using (List.mem_filter.mp he).2
    rw [hup.getLast?_eq hn hbefore (fun e he => hclearEnd e (List.mem_filter.mp he).1) hinside hpos
      hleft, lastAt?, lastAt?, find?_filter_of_imp]
    simp only [beq_iff_eq, decide_eq_true_eq]
    omega
  · have hbehind : ∀ e ∈ (bares.filter fun e => !decide (e.stop ≤ n)).filter fun e =>
        !decide (e.stop ≤ k), k < e.stop := fun e he => by
      simpa using (List.mem_filter.mp he).2
    rw [hlow.head?_eq hk hafter
      (fun e he => hclearStart e (List.mem_filter.mp (List.mem_filter.mp he).1).1) hbehind hend
      hright, firstAt?, firstAt?, List.filter_filter, find?_filter_of_imp]
    intro e he hstart
    have hforward := h.forward e he
    simp only [beq_iff_eq, Bool.and_eq_true, Bool.not_eq_true', decide_eq_false_iff_not] at hstart ⊢
    omega
  · rw [← hgaps, List.filter_filter]
    congr 1
    refine List.filter_congr fun e he => ?_
    simp only [(hclearEnd e he).le_start_iff (h.forward e he), decide_not, Bool.and_comm]

end Widened

end Edit
end LogProbe
