import LogProbe.Proofs.Log.Comments
import LogProbe.Proofs.Text.Layout

/-! What a log does to the tokens of a text. No token stands in the stretch that an edit takes out,
so all of them are found again in their order: in front of the edit, in what it keeps, and behind
it. -/
namespace LogProbe

/-- The texts stand in another one in this order, one behind the other. -/
inductive Text.InOrder : List Text → Text → Prop
  | nil (t : Text) : InOrder [] t
  | cons (gap m : Text) {rest : List Text} {t : Text} (behind : InOrder rest t) :
      InOrder (m :: rest) (gap ++ m ++ t)

namespace Text.InOrder
variable {texts rest : List Text} {t u : Text}

theorem prepend (h : InOrder texts t) (front : Text) : InOrder texts (front ++ t) := by
  cases h with
  | nil => exact .nil _
  | cons gap m behind =>
    rw [List.append_assoc, ← List.append_assoc front, ← List.append_assoc (front ++ gap)]
    exact .cons (front ++ gap) m behind

theorem append (h : InOrder texts t) (h' : InOrder rest u) : InOrder (texts ++ rest) (t ++ u) := by
  induction h with
  | nil => exact h'.prepend _
  | cons gap m _ ih =>
    rw [List.cons_append, List.append_assoc (gap ++ m)]
    exact .cons gap m ih

end Text.InOrder

namespace Token
variable {source m : Text} {leaves : List Token} {i j : Nat}

def text? (source : Text) (t : Token) : Option Text := source.slice? t.start t.stop

/-- Tokens in the order of the text, with texts of their own. -/
structure Lined (source : Text) (leaves : List Token) : Prop where
  ordered : leaves.Pairwise fun a b => a.stop ≤ b.start
  texts : ∀ t ∈ leaves, ∃ m, t.text? source = some m

theorem Lined.mapM_text? (h : Lined source leaves) :
    leaves.mapM (text? source) = some (leaves.filterMap (text? source)) := by
  have htexts := h.texts
  clear h
  induction leaves with
  | nil => rfl
  | cons t leaves ih =>
    rw [List.forall_mem_cons] at htexts
    obtain ⟨⟨m, hm⟩, hrest⟩ := htexts
    rw [List.mapM_cons, hm, ih hrest, List.filterMap_cons_some hm]
    rfl

/-- Tokens within a stretch stand in it in their order. Those without content may be anywhere. -/
theorem Lined.inOrder (h : Lined source leaves) (hm : source.slice? i j = some m)
    (hwithin : ∀ t ∈ leaves, t.start < t.stop → i ≤ t.start ∧ t.stop ≤ j) :
    Text.InOrder (leaves.filterMap (text? source)) m := by
  obtain ⟨hordered, htexts⟩ := h
  induction leaves generalizing i m with
  | nil => exact .nil _
  | cons t leaves ih =>
    rw [List.forall_mem_cons] at htexts hwithin
    rw [List.pairwise_cons] at hordered
    obtain ⟨⟨text, htext⟩, hrest⟩ := htexts
    rw [List.filterMap_cons_some htext]
    obtain ⟨hforward, hstart, hstop⟩ := Text.boundaries_of_slice? htext
    have hsize := Text.size_of_slice? htext
    by_cases hwidth : t.start < t.stop
    · obtain ⟨hlow, hhigh⟩ := hwithin.1 hwidth
      obtain ⟨gap, m', hgap, hm', rfl⟩ := Text.slice?_split hm hlow (by omega) hstart
      obtain ⟨text', below, htext', hbelow, rfl⟩ := Text.slice?_split hm' hforward hhigh hstop
      obtain rfl : text = text' := Option.some.inj (htext.symm.trans htext')
      rw [← List.append_assoc]
      have hbehind : ∀ d ∈ leaves, d.start < d.stop → t.stop ≤ d.start ∧ d.stop ≤ j :=
        fun d hd hd' => ⟨hordered.1 d hd, (hwithin.2 d hd hd').2⟩
      exact .cons gap text (ih hbelow hbehind hordered.2 hrest)
    · obtain rfl : text = [] := Text.size_eq_zero (by omega)
      exact .cons [] [] (ih hm hwithin.2 hordered.2 hrest)

theorem Lined.forward (h : Lined source leaves) {t : Token} (ht : t ∈ leaves) :
    t.start ≤ t.stop := by
  obtain ⟨m, hm⟩ := h.texts t ht
  exact (Text.boundaries_of_slice? hm).1

theorem Lined.of_append {front back : List Token} (h : Lined source (front ++ back)) :
    Lined source front ∧ Lined source back := by
  obtain ⟨hfront, hback, -⟩ := List.pairwise_append.mp h.ordered
  exact ⟨⟨hfront, fun t ht => h.texts t (List.mem_append_left back ht)⟩,
    ⟨hback, fun t ht => h.texts t (List.mem_append_right front ht)⟩⟩

/-- Tokens of which none with content stands in a gap fall into those in front of it and those
behind it. -/
theorem Lined.exists_split_of_gap (h : Lined source leaves)
    (hgap : ∀ t ∈ leaves, t.start < t.stop → t.stop ≤ i ∨ j ≤ t.start) :
    ∃ front back, leaves = front ++ back ∧ (∀ t ∈ front, t.start < t.stop → t.stop ≤ i) ∧
      ∀ t ∈ back, t.start < t.stop → j ≤ t.start := by
  induction leaves with
  | nil => exact ⟨[], [], rfl, by simp, by simp⟩
  | cons t leaves ih =>
    have hordered := List.pairwise_cons.mp h.ordered
    have hforward := h.forward (List.mem_cons_self ..)
    rw [List.forall_mem_cons] at hgap
    by_cases hback : t.start < t.stop ∧ j ≤ t.start
    · refine ⟨[], t :: leaves, rfl, by simp, List.forall_mem_cons.mpr ⟨fun _ => hback.2, ?_⟩⟩
      intro d hd _
      have hbehind := hordered.1 d hd
      omega
    · have hlined : Lined source ([t] ++ leaves) := h
      obtain ⟨front, back, rfl, hfront, hrest⟩ := ih hlined.of_append.2 hgap.2
      refine ⟨t :: front, back, rfl, List.forall_mem_cons.mpr ⟨fun hwidth => ?_, hfront⟩, hrest⟩
      exact (hgap.1 hwidth).resolve_right fun hle => hback ⟨hwidth, hle⟩

end Token

/-- What a frame leaves of a text holds all tokens that the frame does not cut or take out. -/
theorem Frame.Splits.inOrder {source above dropped kept below : Text} {f : Frame}
    {leaves : List Token} (h : f.Splits source above dropped kept below)
    (hlined : Token.Lined source leaves)
    (hspares : ∀ t ∈ leaves, t.Spares f.stop ∧ (t.start < t.stop → ¬ f.Drops t)) :
    ∃ front inner back : List Token, leaves = front ++ inner ++ back ∧
      Text.InOrder (front.filterMap (Token.text? source)) above ∧
      Text.InOrder (inner.filterMap (Token.text? source)) kept ∧
      Text.InOrder (back.filterMap (Token.text? source)) below := by
  obtain ⟨rest, back, rfl, hrest, hback⟩ := hlined.exists_split_of_gap fun t ht _ => (hspares t ht).1
  obtain ⟨hlined', hlinedBack⟩ := hlined.of_append
  obtain ⟨front, inner, rfl, hfront, hinner⟩ := hlined'.exists_split_of_gap (i := f.full)
    (j := f.start) fun t ht hwidth => by
      have hkept := (hspares t (List.mem_append_left back ht)).2 hwidth
      rw [Drops] at hkept
      omega
  obtain ⟨hlinedFront, hlinedInner⟩ := hlined'.of_append
  have habove : source.slice? 0 f.full = some above :=
    Text.slice?_eq_some_iff.mpr ⟨[], dropped ++ kept ++ below, by simp [h.text], rfl, h.full⟩
  have hkept : source.slice? f.start f.stop = some kept :=
    Text.slice?_eq_some_iff.mpr ⟨above ++ dropped, below, h.text, h.start, h.stop⟩
  have hbelow : source.slice? f.stop source.size = some below :=
    Text.slice?_eq_some_iff.mpr ⟨above ++ dropped ++ kept, [], by simp [h.text], h.stop,
      by rw [h.text]⟩
  refine ⟨front, inner, back, rfl, hlinedFront.inOrder habove fun t ht hwidth => ?_,
    hlinedInner.inOrder hkept fun t ht hwidth => ?_,
    hlinedBack.inOrder hbelow fun t ht hwidth => ?_⟩
  · exact ⟨Nat.zero_le _, hfront t ht hwidth⟩
  · exact ⟨hinner t ht hwidth, hrest t (List.mem_append_right front ht) hwidth⟩
  · obtain ⟨m, hm⟩ := hlinedBack.texts t ht
    exact ⟨hback t ht hwidth, Text.le_size_of_isBoundary (Text.boundaries_of_slice? hm).2.2⟩

theorem Parse.lined_leaves {source : Text} {parse : Parse}
    (h : parse.root.nested source = true) : Token.Lined source parse.root.leaves where
  ordered := ParseNode.pairwise_leaves h
  texts t ht := by
    obtain ⟨hstart, hstop⟩ := ParseNode.boundaries_leaf h ht
    exact Option.isSome_iff_exists.mp
      (Text.isSome_slice?_iff.mpr ⟨(ParseNode.leaf_within h ht).2.1, hstart, hstop⟩)

namespace Placement
open Edit

/-- Where the nodes of a text nest and name their siblings, no leaf with content reaches into the
stretch from the full start of a node to its start: it is in front of the node, in it or behind it.
A log can be put at every place, and the text that its edit leaves has the texts of all leaves in
their order, first those in what is above the edit, then those in what it keeps, and then those in
what is below. -/
theorem leaves_keep_order (source : Text) (parse : Parse)
    (hnested : parse.root.nested source = true) (hplain : parse.root.plainSiblings = true) :
    (∀ p ∈ (Tree.ofParse source parse).places, ∀ leaf ∈ parse.root.leaves,
      leaf.start < leaf.stop →
        (leaf.stop ≤ p.label.fullStart ∨ p.label.start ≤ leaf.start) ∧
        (leaf.stop ≤ p.label.fullStart ∨
          p.label.start ≤ leaf.start ∧ leaf.stop ≤ p.label.stop ∨ p.label.stop ≤ leaf.start)) ∧
    ∀ (r : Placement) (log : Text), r.place ∈ (Tree.ofParse source parse).places →
      ∃ e above dropped kept below, r.render? source log = some e ∧
        (r.frame log).Splits source above dropped kept below ∧
        applyAll source [e] = .ok
          (above ++ (r.frame log).ahead ++ kept ++ (r.frame log).behind ++ below) ∧
        ∃ front inner back, parse.root.leaves.mapM (Token.text? source) =
            some (front ++ inner ++ back) ∧
          Text.InOrder front above ∧ Text.InOrder inner kept ∧ Text.InOrder back below ∧
          Text.InOrder (front ++ inner ++ back)
            (above ++ (r.frame log).ahead ++ kept ++ (r.frame log).behind ++ below) := by
  have hlined := Parse.lined_leaves hnested
  refine ⟨fun p hp leaf hleaf hwidth => ?_, fun r log hplace => ?_⟩
  · have hspares := (Tree.among_ofParse hnested hp).spares leaf hleaf
    have hgap := hspares.gap hplain hwidth
    have hstop := hspares.stop
    rw [Token.Spares] at hstop
    exact ⟨hgap, by omega⟩
  · have hamong := Tree.among_ofParse hnested hplace
    obtain ⟨above, dropped, kept, below, hsplits⟩ := (frame_sound hamong.sound log).splits
    obtain ⟨e, he, hresult⟩ := hsplits.applyAll
    obtain ⟨front, inner, back, hleaves, hfront, hinner, hback⟩ :=
      hsplits.inOrder hlined fun t ht => by
        obtain ⟨hspares, hkept⟩ := spares_frame hamong log ht
        exact ⟨hspares, hkept hplain⟩
    refine ⟨e, above, dropped, kept, below, (render?_eq_edit? hamong.sound log).trans he, hsplits,
      hresult, _, _, _, ?_, hfront, hinner, hback, ?_⟩
    · rw [hlined.mapM_text?, hleaves, List.filterMap_append, List.filterMap_append]
    · have hall := (hfront.append (hinner.prepend (r.frame log).ahead)).append
        (hback.prepend (r.frame log).behind)
      simpa only [List.append_assoc] using hall

/-- The leaves of the branch, its comment among them, around a log behind the call. -/
theorem noteBranch_leaves_kept :
    ∃ parse place e t, noteBranch.parse? = some parse ∧
      place ∈ (Tree.ofParse noteBranch.text parse).places ∧
      (after place).render? noteBranch.text "console.log()".toList = some e ∧
      applyAll noteBranch.text [e] = .ok t ∧
      Text.InOrder (["if", "(", "x", ")", "// note", "foo", "(", ")", ";"].map String.toList) t := by
  obtain ⟨parse, place, hparse, hnested, hplain, hplace, htexts⟩ : ∃ parse place,
      noteBranch.parse? = some parse ∧ parse.root.nested noteBranch.text = true ∧
      parse.root.plainSiblings = true ∧ place ∈ (Tree.ofParse noteBranch.text parse).places ∧
      parse.root.leaves.mapM (Token.text? noteBranch.text) =
        some (["if", "(", "x", ")", "// note", "foo", "(", ")", ";"].map String.toList) :=
    ⟨_, _, rfl, by decide +kernel, by decide +kernel, List.mem_of_getElem? (rfl : _[4]? = _),
      by decide +kernel⟩
  obtain ⟨e, _, _, _, _, he, -, ht, _, _, _, hall, -, -, -, horder⟩ :=
    (leaves_keep_order noteBranch.text parse hnested hplain).2 (after place) "console.log()".toList
      hplace
  rw [Option.some.inj (hall.symm.trans htexts)] at horder
  exact ⟨parse, place, e, _, hparse, hplace, he, ht, horder⟩

end Placement
end LogProbe
