import LogProbe.Log.Placement
import LogProbe.Proofs.Edit.Indent
import LogProbe.Proofs.Log.Removal

/-! The removal of a log that has just been inserted. Where the log went in with nothing but line
breaks and padding, its removal leaves the ink of the text as it was before. -/
namespace LogProbe
open Edit

/-- What an accepted insertion does to a text. -/
theorem Edit.exists_split_of_insertion {source t : Text} {e : Edit} (hpoint : e.start = e.stop)
    (ht : applyAll source [e] = .ok t) :
    ∃ above below, source = above ++ below ∧ above.size = e.start ∧
      t = above ++ e.text ++ below := by
  have hfits : e.Fits source := (isOk_applyAll_iff.mp ⟨t, ht⟩).1 e (List.mem_singleton_self e)
  obtain ⟨above, below, rfl, habove⟩ := Text.isBoundary_iff.mp hfits.startBoundary
  have hresult := applyAll_one above [] below habove (by rw [List.append_nil, habove, hpoint])
  rw [List.append_nil] at hresult
  exact ⟨above, below, rfl, habove, Except.ok.inj (ht.symm.trans hresult)⟩

/-- A stretch of the text that an insertion leaves, from the first to the last of what is inserted,
where layout may be left out at both ends. -/
def Edit.SpansInk (e : Edit) (start stop : Nat) : Prop :=
  ∃ lead text trail : Text, e.text = lead ++ text ++ trail ∧ lead.all isLayout = true ∧
    trail.all isLayout = true ∧ start = e.start + lead.size ∧
    stop = e.start + Text.size (lead ++ text)

namespace Placement

/-- Whether a log is put at the start of a block or next to what stands in one, and nothing else
with it. -/
def insertsAlone : Placement → Bool
  | before p lead => standsInBlock p && lead.isEmpty
  | after p => standsInBlock p
  | inside _ => true

theorem insertion_of_insertsAlone {source log : Text} {r : Placement} {e : Edit}
    (hr : r.insertsAlone = true) (he : r.render? source log = some e) :
    e.start = e.stop ∧ e.text.ink = log.ink := by
  have hbreak : Text.ink ['\n'] = [] := rfl
  cases r with
  | before p lead =>
    rw [insertsAlone, Bool.and_eq_true, List.isEmpty_iff] at hr
    obtain ⟨hblock, rfl⟩ := hr
    rw [render?, if_pos hblock] at he
    cases he
    exact ⟨rfl, by simp [insertion, hbreak]⟩
  | after p =>
    have hblock : standsInBlock p = true := hr
    rw [render?, if_pos hblock] at he
    cases he
    exact ⟨rfl, rfl⟩
  | inside p =>
    cases he
    exact ⟨rfl, rfl⟩

end Placement

/-- The only log of a tree is a statement in a list of statements. -/
structure Tree.OnlyLog (tree : Tree) (statement : Place) : Prop where
  call : ∃ call, tree.logCalls = [call] ∧ call.parent? = some statement
  kind : statement.kind = .expressionStatement
  outer : statement.parentKind? = some .statementBlock ∨ statement.parentKind? = some .program

namespace Removal

/-- A log on its own is removed with its statement. -/
theorem plan?_of_onlyLog {tree : Tree} {statement : Place} (h : tree.OnlyLog statement) :
    plan? tree = (ofStatement? tree.source statement.label).map fun e => [e] := by
  obtain ⟨⟨call, hcalls, hparent⟩, hkind, houter⟩ := h
  have hsite : site call = .statement statement :=
    site_eq_statement_iff.mpr ⟨hparent, hkind, houter⟩
  have hedit : edit? tree.source call = ofStatement? tree.source statement.label := by
    rw [edit?, hsite]
  rw [plan?_of_logCalls hcalls, hedit]

/-- The removal of a statement leaves the ink in front of it and behind it. -/
theorem ink_of_ofStatement? {front text back : Text} {statement : Label}
    (hstart : front.size = statement.start) (hstop : (front ++ text).size = statement.stop) :
    ∃ e t, ofStatement? (front ++ text ++ back) statement = some e ∧
      applyAll (front ++ text ++ back) [e] = .ok t ∧ t.ink = front.ink ++ back.ink := by
  have hslice := Text.slice?_append front text back
  rw [hstart, hstop] at hslice
  obtain ⟨hforward, hboundary, hboundary'⟩ := Text.boundaries_of_slice? hslice
  obtain ⟨e, he, hwidens⟩ := exists_ofStatement?
    ⟨hforward, Text.le_size_of_isBoundary hboundary', hboundary, hboundary'⟩
  have hfits : ∀ x ∈ [e], x.Fits (front ++ text ++ back) :=
    List.forall_mem_singleton.mpr hwidens.fits
  obtain ⟨t, ht, hsplice⟩ := exists_applyAll_of_descending hfits (List.pairwise_singleton _ _)
  obtain ⟨bare, hbare, hink⟩ := ink_splice? (.cons hwidens .nil)
    (Text.slice?_self (Text.isBoundary_zero _)) rfl hsplice
  have hfront : (front ++ text ++ back).slice? 0 statement.start = some front := by
    simpa [hstart] using Text.slice?_append [] front (text ++ back)
  have hback : (front ++ text ++ back).slice? statement.stop (front ++ text ++ back).size =
      some back := by
    rw [← hstop]
    exact Text.slice?_to_size (front ++ text) back
  have hrest : bare = front ++ [] ++ back := by
    rw [splice?, hfront, splice?, hback] at hbare
    exact (Option.some.inj hbare).symm
  exact ⟨e, t, he, ht, by rw [← hink, hrest, List.append_nil, Text.ink_append]⟩

/-- A log is inserted on its own, as it is or with its lines padded. If the only log of the text
that is left is the one inserted, and stands there as a statement, then its removal gives a text
with the ink of the text before the insertion. -/
theorem undoes_insertion {source log t : Text} {r : Placement} {e inserted : Edit} {tree : Tree}
    {statement : Place} (hr : r.insertsAlone = true) (he : r.render? source log = some e)
    (hinserted : inserted = e ∨ ∃ i : Indent, i.reindentEdit? source e = some inserted)
    (ht : applyAll source [inserted] = .ok t) (htree : tree.source = t)
    (honly : tree.OnlyLog statement)
    (hspan : inserted.SpansInk statement.label.start statement.label.stop) :
    ∃ text edits t', statement.text? t = some text ∧ text.ink = log.ink ∧
      plan? tree = some edits ∧ applyAll t edits = .ok t' ∧ t'.ink = source.ink := by
  obtain ⟨hpoint, hink⟩ : inserted.start = inserted.stop ∧ inserted.text.ink = log.ink := by
    obtain ⟨hpoint, hink⟩ := Placement.insertion_of_insertsAlone hr he
    rcases hinserted with rfl | ⟨i, hi⟩
    · exact ⟨hpoint, hink⟩
    · obtain ⟨base, text, htext, rfl⟩ := Indent.exists_reindent?_of_reindentEdit? hi
      exact ⟨hpoint, (Indent.ink_reindent? htext).trans hink⟩
  obtain ⟨above, below, rfl, habove, rfl⟩ := exists_split_of_insertion hpoint ht
  obtain ⟨lead, text, trail, htext, hlead, htrail, hstart, hstop⟩ := hspan
  -- of the five parts of the text the statement is the one in the middle
  have hparts : above ++ inserted.text ++ below =
      (above ++ lead) ++ text ++ (trail ++ below) := by simp [htext]
  have hfront : (above ++ lead).size = statement.label.start := by
    rw [Text.size_append, habove, hstart]
  have hend : (above ++ lead ++ text).size = statement.label.stop := by
    rw [List.append_assoc, Text.size_append, habove, hstop]
  obtain ⟨e', t', he', ht', hkept⟩ := ink_of_ofStatement? hfront hend
  refine ⟨text, [e'], t', ?_, ?_, ?_, ?_⟩
  · rw [hparts, Place.text?, Node.text?]
    exact Text.slice?_eq_some_iff.mpr ⟨above ++ lead, trail ++ below, rfl, hfront, hend⟩
  · calc text.ink = (lead ++ text ++ trail).ink := by
          simp [Text.ink_of_all hlead, Text.ink_of_all htrail]
      _ = log.ink := by rw [← htext, hink]
  · rw [plan?_of_onlyLog honly, htree, hparts, he']
    rfl
  · rw [hparts]
    refine ⟨ht', ?_⟩
    simpa [Text.ink_of_all hlead, Text.ink_of_all htrail] using hkept

/-- A statement in a block. -/
def blockName : ParseTable where
  grammar := .javascript
  text := "\x7b\n  a;\n\x7d\n".toList
  hasErrors := false
  rows := [
    ⟨none, "program", true, none, 0, 9, none⟩,
    ⟨some 0, "statement_block", true, none, 0, 8, none⟩,
    ⟨some 1, "\x7b", false, none, 0, 1, none⟩,
    ⟨some 1, "expression_statement", true, none, 4, 6, none⟩,
    ⟨some 3, "identifier", true, none, 4, 5, none⟩,
    ⟨some 3, ";", false, none, 5, 6, none⟩,
    ⟨some 1, "\x7d", false, none, 7, 8, none⟩]

/-- The block with a log on a line of its own. -/
def blockLogged : ParseTable where
  grammar := .javascript
  text := "\x7b\n  a;\n  console.log(1)\n\x7d\n".toList
  hasErrors := false
  rows := [
    ⟨none, "program", true, none, 0, 26, none⟩,
    ⟨some 0, "statement_block", true, none, 0, 25, none⟩,
    ⟨some 1, "\x7b", false, none, 0, 1, none⟩,
    ⟨some 1, "expression_statement", true, none, 4, 6, none⟩,
    ⟨some 3, "identifier", true, none, 4, 5, none⟩,
    ⟨some 3, ";", false, none, 5, 6, none⟩,
    ⟨some 1, "expression_statement", true, none, 9, 23, none⟩] ++
    logRows 7 6 9 none ++ [
    ⟨some 1, "\x7d", false, none, 24, 25, none⟩]

/-- The log behind the statement, padded for a document with an indentation of two spaces. -/
theorem blockName_undone :
    ∃ parse parse' place e inserted edits t', blockName.parse? = some parse ∧
      blockLogged.parse? = some parse' ∧
      place ∈ (Tree.ofParse blockName.text parse).places ∧
      (Placement.after place).render? blockName.text "console.log(1)".toList = some e ∧
      Indent.reindentEdit? ⟨true, 2⟩ blockName.text e = some inserted ∧
      applyAll blockName.text [inserted] = .ok blockLogged.text ∧
      plan? (.ofParse blockLogged.text parse') = some edits ∧
      applyAll blockLogged.text edits = .ok t' ∧ t'.ink = "\x7ba;\x7d".toList := by
  obtain ⟨parse, place, hparse, hplace, hblock, hstop⟩ : ∃ parse place,
      blockName.parse? = some parse ∧ place ∈ (Tree.ofParse blockName.text parse).places ∧
      Placement.standsInBlock place = true ∧ place.label.stop = 6 :=
    ⟨_, _, rfl, List.mem_of_getElem? (rfl : _[2]? = _), rfl, rfl⟩
  obtain ⟨parse', statement, hparse', honly, hstart, hend⟩ : ∃ parse' statement,
      blockLogged.parse? = some parse' ∧
      (Tree.ofParse blockLogged.text parse').OnlyLog statement ∧
      statement.label.start = 9 ∧ statement.label.stop = 23 :=
    ⟨_, _, rfl, ⟨⟨_, rfl, rfl⟩, rfl, .inl rfl⟩, rfl, rfl⟩
  have he : (Placement.after place).render? blockName.text "console.log(1)".toList =
      some (.insertion 6 "\nconsole.log(1)".toList) := by
    rw [Placement.render?, if_pos hblock, hstop]
    rfl
  have hinserted : Indent.reindentEdit? ⟨true, 2⟩ blockName.text
      (.insertion 6 "\nconsole.log(1)".toList) =
        some (.insertion 6 "\n  console.log(1)".toList) := by decide +kernel
  have ht : applyAll blockName.text [.insertion 6 "\n  console.log(1)".toList] =
      .ok blockLogged.text := by
    rw [applyAll_singleton]
    rfl
  have hspan : (Edit.insertion 6 "\n  console.log(1)".toList).SpansInk statement.label.start
      statement.label.stop :=
    ⟨"\n  ".toList, "console.log(1)".toList, [], rfl, by decide, rfl, hstart, hend⟩
  obtain ⟨text, edits, t', -, -, hedits, ht', hink⟩ :=
    undoes_insertion (r := .after place) hblock he (.inr ⟨_, hinserted⟩) ht rfl honly hspan
  exact ⟨parse, parse', place, _, _, edits, t', hparse, hparse', hplace, he, hinserted, ht, hedits,
    ht', hink⟩

end Removal
end LogProbe
