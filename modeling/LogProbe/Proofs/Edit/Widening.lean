import LogProbe.Proofs.Edit.Segments
import Mathlib.Data.List.Forall2

/-! Edits that take the lines of what they replace. An edit may take with its span the padding in
front of it and the rest of its last line. The ink of the text that is left is the same, lines that
the spans do not meet are left as they are, and spans with ink at their ends stay apart. -/
namespace LogProbe
namespace Edit

/-- `wide` replaces the span of `bare` by the same text, and takes the lines of the span with it
if nothing else stands on them. -/
structure Widens (source : Text) (bare wide : Edit) : Prop where
  text : wide.text = bare.text
  forward : bare.start ≤ bare.stop
  lead : ∃ m, source.slice? wide.start bare.start = some m ∧ m.all isPadding = true
  trail : ∃ m feed, source.slice? bare.stop wide.stop = some (m ++ feed) ∧
    m.all isLayout = true ∧ '\n' ∉ m ∧ (feed = [] ∨ feed = ['\n'])
  whole : wide = bare ∨ source.StartsLine wide.start ∧
    (source.StartsLine wide.stop ∨ wide.stop = source.size) ∧ wide.text = []

/-- What an edit replaces is a stretch with ink at both ends. -/
structure TakesInk (source : Text) (e : Edit) : Prop where
  forward : e.start < e.stop
  trimmed : ∃ m, source.slice? e.start e.stop = some m ∧ m.isTrimmed = true

variable {source : Text} {bare wide bare' wide' : Edit}

theorem Fits.widens (h : bare.Fits source) : Widens source bare bare where
  text := rfl
  forward := h.forward
  lead := ⟨[], Text.slice?_self h.startBoundary, rfl⟩
  trail := ⟨[], [], Text.slice?_self h.stopBoundary, rfl, by simp, .inl rfl⟩
  whole := .inl rfl

theorem TakesInk.fits (h : bare.TakesInk source) : bare.Fits source := by
  obtain ⟨m, hm, -⟩ := h.trimmed
  obtain ⟨hforward, hstart, hstop⟩ := Text.boundaries_of_slice? hm
  exact ⟨hforward, Text.le_size_of_isBoundary hstop, hstart, hstop⟩

theorem Widens.start_le (h : Widens source bare wide) : wide.start ≤ bare.start := by
  obtain ⟨m, hm, -⟩ := h.lead
  exact (Text.boundaries_of_slice? hm).1

theorem Widens.le_stop (h : Widens source bare wide) : bare.stop ≤ wide.stop := by
  obtain ⟨m, feed, hm, -⟩ := h.trail
  exact (Text.boundaries_of_slice? hm).1

theorem Widens.fits (h : Widens source bare wide) : wide.Fits source := by
  have hstart := h.start_le
  have hstop := h.le_stop
  have hforward := h.forward
  obtain ⟨m, hm, -⟩ := h.lead
  obtain ⟨m', feed, hm', -⟩ := h.trail
  have hboundary := (Text.boundaries_of_slice? hm').2.2
  exact ⟨by omega, Text.le_size_of_isBoundary hboundary, (Text.boundaries_of_slice? hm).2.1,
    hboundary⟩

/-- Only an edit that leaves nothing takes more than its span. -/
theorem Widens.eq_of_text (h : Widens source bare wide) (htext : bare.text ≠ []) : wide = bare :=
  h.whole.resolve_right fun hwhole => htext (h.text ▸ hwhole.2.2)

/-- All that is taken behind the span is layout. -/
theorem Widens.trail_layout (h : Widens source bare wide) :
    ∃ m, source.slice? bare.stop wide.stop = some m ∧ m.all isLayout = true := by
  obtain ⟨m, feed, hm, hlayout, -, hbreak⟩ := h.trail
  refine ⟨m ++ feed, hm, ?_⟩
  rcases hbreak with rfl | rfl <;> rw [List.all_append, hlayout] <;> rfl

/-- Behind the span, a line starts at the end of the wide edit at the earliest. -/
theorem Widens.stop_le_of_startsLine (h : Widens source bare wide) {n : Nat}
    (hn : source.isBoundary n = true) (hline : source.StartsLine n) (hbehind : bare.stop < n) :
    wide.stop ≤ n := by
  obtain ⟨m, feed, hm, -, hfeed, hbreak⟩ := h.trail
  rcases hbreak with rfl | rfl
  · rw [List.append_nil] at hm
    exact Nat.le_of_lt (hline.not_within hn hm hfeed hbehind)
  · -- up to the line feed at its end the rest of the line has none
    have hsize := Text.size_of_slice? hm
    obtain ⟨a, b, hsource, hstart, -⟩ := Text.slice?_eq_some_iff.mp hm
    have hrest : source.slice? bare.stop (a ++ m).size = some m :=
      Text.slice?_eq_some_iff.mpr ⟨a, ['\n'] ++ b, by simp [hsource], hstart, rfl⟩
    have hwithin := hline.not_within hn hrest hfeed hbehind
    have hone : Char.utf8Size '\n' = 1 := rfl
    simp only [Text.size_append, Text.size_cons, Text.size_nil, hone] at hsize hwithin
    omega

theorem TakesInk.isInk (h : bare.TakesInk source) :
    Text.IsInk (source.charAfter? bare.start) ∧ Text.IsInk (source.charBefore? bare.stop) := by
  obtain ⟨m, hm, htrimmed⟩ := h.trimmed
  exact Text.isInk_of_isTrimmed hm h.forward htrimmed

/-- Two spans with ink at their ends stay apart when their lines are taken with them. -/
theorem Widens.stop_le_start (h : Widens source bare wide) (h' : Widens source bare' wide')
    (hink : bare.TakesInk source) (hink' : bare'.TakesInk source)
    (horder : bare.stop ≤ bare'.start) : wide.stop ≤ wide'.start := by
  obtain ⟨m, hm, hlayout⟩ := h.trail_layout
  obtain ⟨m', hm', hpadding⟩ := h'.lead
  have hfits := h.fits
  have hbare := hink.fits
  have hbare' := hink'.fits
  -- the trailing layout of the first ends where the ink of the second starts, and the other way
  have hstop : wide.stop ≤ bare'.start :=
    hink'.isInk.1.le_of_after hbare'.startBoundary hm hlayout horder
  have hstart : bare.stop ≤ wide'.start :=
    hink.isInk.2.le_of_before hbare.stopBoundary hm' (Text.all_isLayout_of_isPadding hpadding)
      horder
  rcases h.whole with rfl | ⟨-, hline | hend, -⟩
  · exact hstart
  · -- no line starts within the padding in front of the second
    refine Nat.le_of_not_lt fun hlt => ?_
    have hwithin := hline.not_within hfits.stopBoundary hm'
      (Text.not_mem_of_isPadding hpadding) hlt
    omega
  · have hforward := hink'.forward
    have hinside := hbare'.inside
    omega

/-- A line that does not meet the span does not meet the lines taken with it. -/
theorem Widens.outside_line (h : Widens source bare wide) (hink : bare.TakesInk source)
    {above line below : Text} (hline : Text.IsLine source above line below)
    (hout : bare.stop ≤ above.size ∨ (above ++ line).size ≤ bare.start) :
    wide.stop ≤ above.size ∨ (above ++ line).size ≤ wide.start := by
  obtain ⟨rfl, hstarts, -, hends⟩ := hline
  have hforward := hink.forward
  have hbare := hink.fits
  rcases hout with hout | hout
  · -- the line starts behind the span, and not right behind its ink
    have hstart : (above ++ line ++ below).StartsLine above.size := by
      rw [List.append_assoc]
      exact Text.startsLine_size_iff.mpr hstarts
    have hboundary : (above ++ line ++ below).isBoundary above.size = true := by
      rw [List.append_assoc]
      exact Text.isBoundary_size_append above (line ++ below)
    have hne : bare.stop ≠ above.size := fun heq =>
      hink.isInk.2.not_startsLine (by omega) (heq ▸ hstart)
    exact .inl (h.stop_le_of_startsLine hboundary hstart (by omega))
  · -- the line has a break, behind which the next line starts
    obtain ⟨m, hm, hpadding⟩ := h.lead
    have hinside := hbare.inside
    have hfeed : line.getLast? = some '\n' := by
      refine hends.resolve_right ?_
      rintro rfl
      simp only [List.append_nil] at hinside
      omega
    have hstart : (above ++ line ++ below).StartsLine (above ++ line).size :=
      Text.startsLine_size_iff.mpr (.inr (by rw [List.getLast?_append, hfeed]; rfl))
    refine .inr (Nat.le_of_not_lt fun hlt => ?_)
    have hwithin := hstart.not_within (Text.isBoundary_size_append _ _) hm
      (Text.not_mem_of_isPadding hpadding) hlt
    omega

/-- What the wide edits leave of a stretch has the ink of what the bare ones leave. -/
theorem ink_stretch? {bares wides : List Edit} (h : List.Forall₂ (Widens source) bares wides)
    {b w stop : Nat} {m t : Text} (hm : source.slice? b w = some m)
    (hlayout : m.all isLayout = true) (ht : stretch? source stop w wides = some t) :
    ∃ t', stretch? source stop b bares = some t' ∧ t'.ink = t.ink := by
  induction h generalizing b w m t with
  | nil =>
    refine ⟨m ++ t, Text.slice?_trans hm ht, ?_⟩
    rw [Text.ink_append, Text.ink_of_all hlayout, List.nil_append]
  | @cons bare wide bares wides hwidens _ ih =>
    obtain ⟨kept, tail, hkept, htail, rfl⟩ := stretch?_cons_eq_some_iff.mp ht
    obtain ⟨lead, hlead, hpadding⟩ := hwidens.lead
    obtain ⟨trail, htrail, htrailing⟩ := hwidens.trail_layout
    obtain ⟨tail', htail', hink⟩ := ih htrail htrailing htail
    refine ⟨(m ++ kept ++ lead) ++ bare.text ++ tail', stretch?_cons_eq_some_iff.mpr
      ⟨_, _, Text.slice?_trans (Text.slice?_trans hm hkept) hlead, htail', rfl⟩, ?_⟩
    simp [Text.ink_of_all hlayout, Text.ink_of_all (Text.all_isLayout_of_isPadding hpadding),
      hink, hwidens.text]

/-- The text that the wide edits leave has the ink of the text that the bare ones leave. -/
theorem ink_splice? {bares wides : List Edit} (h : List.Forall₂ (Widens source) bares wides)
    {b w : Nat} {m t : Text} (hm : source.slice? b w = some m) (hlayout : m.all isLayout = true)
    (ht : splice? source w wides = some t) :
    ∃ t', splice? source b bares = some t' ∧ t'.ink = t.ink := by
  rw [splice?_eq_stretch?] at ht ⊢
  exact ink_stretch? h hm hlayout ht

theorem exists_widens_of_mem {bares wides : List Edit} (h : List.Forall₂ (Widens source) bares wides)
    (hw : wide ∈ wides) : ∃ bare ∈ bares, Widens source bare wide := by
  obtain ⟨i, hi, rfl⟩ := List.getElem_of_mem hw
  have hi' : i < bares.length := h.length_eq ▸ hi
  exact ⟨bares[i], List.getElem_mem hi', h.get hi' hi⟩

/-- Spans from the bottom up stay in this order, apart, when their lines are taken with them. -/
theorem pairwise_of_widens {bares wides : List Edit}
    (h : List.Forall₂ (Widens source) bares wides) (hink : ∀ e ∈ bares, e.TakesInk source)
    (hdescending : bares.Pairwise fun x e => e.stop ≤ x.start) :
    wides.Pairwise fun x e => e.start < x.start ∧ e.stop ≤ x.start := by
  induction h with
  | nil => exact .nil
  | @cons bare wide bares wides hwidens hrest ih =>
    rw [List.forall_mem_cons] at hink
    rw [List.pairwise_cons] at hdescending
    refine List.pairwise_cons.mpr ⟨fun e he => ?_, ih hink.2 hdescending.2⟩
    obtain ⟨bare', hb', hwidens'⟩ := exists_widens_of_mem hrest he
    have hstop := hwidens'.stop_le_start hwidens (hink.2 bare' hb') hink.1
      (hdescending.1 bare' hb')
    have hstart := hwidens'.start_le
    have hend := hwidens'.le_stop
    have hforward := (hink.2 bare' hb').forward
    omega

/-- Edits from the bottom up, each above the one before it, are accepted. -/
theorem exists_applyAll_of_descending {edits : List Edit} (hfits : ∀ e ∈ edits, e.Fits source)
    (hdescending : edits.Pairwise fun x e => e.stop ≤ x.start) :
    ∃ t, applyAll source edits = .ok t ∧ splice? source 0 edits.reverse = some t := by
  have hsorted : edits.Pairwise fun x e => x.appliesBefore e = true := by
    refine hdescending.imp_of_mem fun {x e} hx he hle => appliesBefore_iff.mpr ?_
    have hforward := (hfits x hx).forward
    have hforward' := (hfits e he).forward
    omega
  have hbottomUp : bottomUp edits = edits := List.mergeSort_of_pairwise hsorted
  obtain ⟨t, ht⟩ : ∃ t, applyAll source edits = .ok t := by
    rw [applyAll_eq, hbottomUp, isOk_applyUpward_iff (List.append_nil source).symm]
    exact ⟨fun e he => ⟨hfits e he, (hfits e he).inside⟩, hdescending⟩
  have hsplice := splice?_reverse_bottomUp ht
  rw [hbottomUp] at hsplice
  exact ⟨t, ht, hsplice⟩

/-- The edits leave a line of the text as it is: their result has it as a line, between what those
above it make of the text above it and what those below it make of the text below. -/
def KeepsLine (source : Text) (order : List Edit) (result above line : Text) : Prop :=
  ∃ upper lower above' below', order = upper ++ lower ∧
    (∀ e ∈ upper, e.stop ≤ above.size) ∧ (∀ e ∈ lower, (above ++ line).size ≤ e.start) ∧
    splice? above 0 upper = some above' ∧
    splice? source (above ++ line).size lower = some below' ∧
    Text.IsLine result above' line below'

section Around
variable {above line below : Text}

/-- A stretch of the text that reaches from above a line to below it. -/
theorem slice?_around {n k : Nat} {m : Text}
    (hm : (above ++ line ++ below).slice? n k = some m) (hn : n ≤ above.size)
    (hk : (above ++ line).size ≤ k) :
    ∃ x y, above.slice? n above.size = some x ∧
      (above ++ line ++ below).slice? (above ++ line).size k = some y ∧ m = x ++ line ++ y := by
  have hline : (above ++ line ++ below).slice? above.size (above ++ line).size = some line :=
    Text.slice?_append above line below
  obtain ⟨hforward, hstart, hstop⟩ := Text.boundaries_of_slice? hline
  obtain ⟨x, rest, hx, hrest, rfl⟩ := Text.slice?_split hm hn (Nat.le_trans hforward hk) hstart
  obtain ⟨m', y, hm', hy, rfl⟩ := Text.slice?_split hrest hforward hk hstop
  obtain rfl : m' = line := Option.some.inj (hm'.symm.trans hline)
  rw [List.append_assoc above, Text.slice?_append_of_le (Nat.le_refl _)] at hx
  exact ⟨x, y, hx, hy, (List.append_assoc x m' y).symm⟩

/-- Edits on both sides of a line leave it between what they make of the two sides. -/
theorem splice?_around {order : List Edit} {n : Nat} {t : Text}
    (hforward : ∀ e ∈ order, e.start ≤ e.stop)
    (hascending : order.Pairwise fun a b => a.stop ≤ b.start)
    (hout : ∀ e ∈ order, e.stop ≤ above.size ∨ (above ++ line).size ≤ e.start)
    (hn : n ≤ above.size) (h : splice? (above ++ line ++ below) n order = some t) :
    ∃ upper lower above' below', order = upper ++ lower ∧
      (∀ e ∈ upper, e.stop ≤ above.size) ∧ (∀ e ∈ lower, (above ++ line).size ≤ e.start) ∧
      splice? above n upper = some above' ∧
      splice? (above ++ line ++ below) (above ++ line).size lower = some below' ∧
      t = above' ++ line ++ below' := by
  induction order generalizing n t with
  | nil =>
    obtain ⟨x, y, hx, hy, rfl⟩ := slice?_around h hn (by simp)
    exact ⟨[], [], x, y, rfl, by simp, by simp, hx, hy, rfl⟩
  | cons e order ih =>
    rw [List.forall_mem_cons] at hforward hout
    rw [List.pairwise_cons] at hascending
    simp only [splice?, Option.bind_eq_bind, Option.bind_eq_some_iff] at h
    obtain ⟨kept, hkept, tail, htail, ht⟩ := h
    cases ht
    have hspan := hforward.1
    rcases hout.1 with hup | hdown
    · obtain ⟨upper, lower, above', below', rfl, hupper, hlower, habove, hbelow, rfl⟩ :=
        ih hforward.2 hascending.2 hout.2 hup htail
      rw [List.append_assoc above, Text.slice?_append_of_le (by omega)] at hkept
      refine ⟨e :: upper, lower, kept ++ e.text ++ above', below', rfl,
        List.forall_mem_cons.mpr ⟨hup, hupper⟩, hlower, ?_, hbelow, by simp⟩
      rw [splice?, hkept, habove]
      rfl
    · -- the first edit below the line, and with it all the others
      obtain ⟨x, y, hx, hy, rfl⟩ := slice?_around hkept hn hdown
      refine ⟨[], e :: order, x, y ++ e.text ++ tail, rfl, by simp,
        List.forall_mem_cons.mpr ⟨hdown, fun d hd => ?_⟩, hx, ?_, by simp⟩
      · have hbehind := hascending.1 d hd
        omega
      · rw [splice?, hy, htail]
        rfl

/-- What edits make of complete lines is complete lines, when no edit but one that takes complete
lines ends where a line starts. -/
theorem wholeLines_splice? {order : List Edit} {n : Nat} {out t : Text}
    (habove : above.WholeLines)
    (hwhole : ∀ e ∈ order, above.StartsLine e.stop → above.StartsLine e.start ∧ e.text = [])
    (hout : above.StartsLine n → out.WholeLines) (h : splice? above n order = some t) :
    (out ++ t).WholeLines := by
  induction order generalizing n out t with
  | nil =>
    have hend : (above ++ []).StartsLine above.size := Text.startsLine_size_iff.mpr habove
    rw [List.append_nil] at hend
    exact Text.WholeLines.append_slice? h hend hout
  | cons e order ih =>
    rw [List.forall_mem_cons] at hwhole
    simp only [splice?, Option.bind_eq_bind, Option.bind_eq_some_iff] at h
    obtain ⟨kept, hkept, tail, htail, ht⟩ := h
    cases ht
    have hline : above.StartsLine e.stop → (out ++ kept ++ e.text).WholeLines := fun hstop => by
      obtain ⟨hstart, htext⟩ := hwhole.1 hstop
      rw [htext, List.append_nil]
      exact Text.WholeLines.append_slice? hkept hstart hout
    simpa only [List.append_assoc] using ih hwhole.2 hline htail

/-- A line that no span meets is kept, if the spans have ink at their ends. -/
theorem keepsLine_of_widens {bares wides : List Edit} {t : Text}
    (h : List.Forall₂ (Widens source) bares wides) (hink : ∀ e ∈ bares, e.TakesInk source)
    (hascending : wides.Pairwise fun a b => a.stop ≤ b.start)
    (ht : splice? source 0 wides = some t) (hline : Text.IsLine source above line below)
    (hout : ∀ e ∈ bares, e.stop ≤ above.size ∨ (above ++ line).size ≤ e.start) :
    KeepsLine source wides t above line := by
  have hforward : ∀ wide ∈ wides, wide.start < wide.stop ∧ wide.stop ≤ source.size :=
    fun wide hw => by
      obtain ⟨bare, hb, hwidens⟩ := exists_widens_of_mem h hw
      have hstart := hwidens.start_le
      have hstop := hwidens.le_stop
      have hbare := (hink bare hb).forward
      exact ⟨by omega, hwidens.fits.inside⟩
  have houtside : ∀ wide ∈ wides,
      wide.stop ≤ above.size ∨ (above ++ line).size ≤ wide.start := fun wide hw => by
    obtain ⟨bare, hb, hwidens⟩ := exists_widens_of_mem h hw
    exact hwidens.outside_line (hink bare hb) hline (hout bare hb)
  obtain ⟨rfl, hstarts, hfeed, hends⟩ := hline
  obtain ⟨upper, lower, above', below', rfl, hupper, hlower, habove, hbelow, rfl⟩ :=
    splice?_around (fun wide hw => Nat.le_of_lt (hforward wide hw).1) hascending houtside
      (Nat.zero_le _) ht
  refine ⟨upper, lower, above', below', rfl, hupper, hlower, habove, hbelow, rfl, ?_, hfeed, ?_⟩
  · have hempty : above.StartsLine 0 → Text.WholeLines [] := fun _ => .inl rfl
    refine wholeLines_splice? hstarts (fun wide hw hstop => ?_) hempty habove
    obtain ⟨bare, hb, hwidens⟩ := exists_widens_of_mem h (List.mem_append_left lower hw)
    have hsize := hupper wide hw
    have hspan := (hforward wide (List.mem_append_left lower hw)).1
    rcases hwidens.whole with rfl | ⟨hstart, -, htext⟩
    · -- behind the ink at the end of a span no line starts
      refine absurd ?_ ((hink wide hb).isInk.2.not_startsLine (by omega))
      rw [List.append_assoc]
      exact (Text.startsLine_append_of_le hsize).mpr hstop
    · rw [List.append_assoc, Text.startsLine_append_of_le (by omega)] at hstart
      exact ⟨hstart, htext⟩
  · -- at the end of the text there is nothing left to edit
    refine hends.imp_right ?_
    rintro rfl
    rw [List.append_nil] at hforward hbelow
    cases lower with
    | nil =>
      rw [splice?, Text.slice?_self (Text.isBoundary_size _)] at hbelow
      exact (Option.some.inj hbelow).symm
    | cons wide lower =>
      have hspan := hforward wide (by simp)
      have hstart := hlower wide (by simp)
      omega

end Around

end Edit
end LogProbe
