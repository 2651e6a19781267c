import LogProbe.Proofs.Log.Footprint
import LogProbe.Proofs.Syntax.Leaves

/-! What the edit of a log does to the line comments of a text. A comment that the edit does not
take out stands in the new text at its image; its line still ends there unless the edit starts right
behind the comment with something else than a line break. -/
namespace LogProbe

namespace Frame

/-- Where an offset of the text is found in the text that the frame leaves. -/
def image (f : Frame) (offset : Nat) : Nat :=
  if offset < f.start then offset
  else if offset < f.stop then offset - (f.start - f.full) + f.ahead.size
  else offset - (f.start - f.full) + f.ahead.size + f.behind.size

/-- The frame takes out a part of the token. -/
def Drops (f : Frame) (t : Token) : Prop := f.full < t.stop ∧ t.start < f.start

variable {source : Text} {f : Frame} {above dropped kept below x m y : Text}

/-- A stretch in front of the frame stays where it is. -/
theorem Splits.image_above (h : f.Splits source above dropped kept below)
    (hsource : source = x ++ m ++ y) (hm : 0 < m.size) (hstop : Text.size (x ++ m) ≤ f.full)
    (hahead : f.ahead ≠ []) (hy : Text.endsLine y = true) :
    ∃ x' y', above ++ f.ahead ++ kept ++ f.behind ++ below = x' ++ m ++ y' ∧
      x'.size = f.image x.size ∧
      (Text.endsLine y' = true ↔
        (Text.size (x ++ m) = f.full → Text.endsLine f.ahead = true)) := by
  have htext : (x ++ m) ++ y = above ++ (dropped ++ kept ++ below) := by
    simpa using hsource.symm.trans h.text
  have hfull := h.full
  have hstart := h.start
  obtain ⟨z, rfl, rfl⟩ := Text.exists_append_of_size_le htext (by omega)
  refine ⟨x, z ++ f.ahead ++ kept ++ f.behind ++ below, by simp, ?_, ?_⟩
  · simp only [Text.size_append] at hstart hstop
    rw [Frame.image, if_pos (by omega)]
  · cases z with
    | nil =>
      have hat : Text.size (x ++ m) = f.full := by simpa using hfull
      have hends : Text.endsLine ([] ++ f.ahead ++ kept ++ f.behind ++ below) =
          Text.endsLine f.ahead := by
        simpa using Text.endsLine_append hahead (kept ++ f.behind ++ below)
      rw [hends]
      exact ⟨fun h _ => h, fun h => h hat⟩
    | cons c z =>
      have hbefore : Text.size (x ++ m) ≠ f.full := by
        have := c.utf8Size_pos
        simp only [← hfull, Text.size_append, Text.size_cons]
        omega
      exact ⟨fun _ h => absurd h hbefore, fun _ => hy⟩

/-- A stretch that the frame keeps moves with it. -/
theorem Splits.image_kept (h : f.Splits source above dropped kept below)
    (hsource : source = x ++ m ++ y) (hm : 0 < m.size) (hstart : f.start ≤ x.size)
    (hstop : Text.size (x ++ m) ≤ f.stop) (hbehind : Text.endsLine f.behind = true)
    (hy : Text.endsLine y = true) :
    ∃ x' y', above ++ f.ahead ++ kept ++ f.behind ++ below = x' ++ m ++ y' ∧
      x'.size = f.image x.size ∧ Text.endsLine y' = true := by
  have htext : (above ++ dropped) ++ (kept ++ below) = x ++ (m ++ y) := by
    simpa using h.text.symm.trans hsource
  obtain ⟨-, hfull, hstart', hstop'⟩ := h
  obtain ⟨x₁, rfl, hkept⟩ := Text.exists_append_of_size_le htext (by omega)
  have hwithin : Text.size (x₁ ++ m) ≤ kept.size := by
    simp only [Text.size_append] at hstop hstop' ⊢
    omega
  obtain ⟨z, rfl, rfl⟩ := Text.exists_append_of_size_le (by simpa using hkept.symm) hwithin
  refine ⟨above ++ f.ahead ++ x₁, z ++ f.behind ++ below, by simp, ?_, ?_⟩
  · simp only [Text.size_append] at hfull hstart hstart' hstop hstop' ⊢
    rw [Frame.image, if_neg (by omega), if_pos (by omega)]
    omega
  · cases z with
    | cons c z => exact hy
    | nil =>
      cases hcase : f.behind with
      | nil => exact hy
      | cons c behind =>
        rw [hcase] at hbehind
        exact hbehind

/-- A stretch behind the frame stays in front of what follows it. -/
theorem Splits.image_below (h : f.Splits source above dropped kept below)
    (hsource : source = x ++ m ++ y) (hstop : f.stop ≤ x.size) :
    ∃ x', above ++ f.ahead ++ kept ++ f.behind ++ below = x' ++ m ++ y ∧
      x'.size = f.image x.size := by
  have htext : (above ++ dropped ++ kept) ++ below = x ++ (m ++ y) := by
    simpa using h.text.symm.trans hsource
  obtain ⟨-, hfull, hstart', hstop'⟩ := h
  obtain ⟨z, rfl, rfl⟩ := Text.exists_append_of_size_le htext (by omega)
  refine ⟨above ++ f.ahead ++ kept ++ f.behind ++ z, by simp, ?_⟩
  simp only [Text.size_append] at hfull hstart' hstop hstop' ⊢
  rw [Frame.image, if_neg (by omega), if_neg (by omega)]
  omega

end Frame

theorem Frame.not_drops_insertion {offset : Nat} {t : Token} (h : t.Spares offset) (text : Text) :
    ¬ (Frame.insertion offset text).Drops t := by
  rintro ⟨hstop, hstart⟩
  change offset < t.stop at hstop
  change t.start < offset at hstart
  rcases h with h | h <;> omega

namespace Placement
variable {source : Text} {all : List Token} {plain : Prop} {r : Placement}

theorem frame_ahead_ne_nil (r : Placement) (log : Text) : (r.frame log).ahead ≠ [] := by
  cases r with
  | inside p => simp [frame, Frame.insertion]
  | before p lead =>
    rw [frame]
    split <;> simp [Frame.insertion]
  | after p =>
    rw [frame]
    split <;> simp [Frame.insertion]

theorem endsLine_frame_behind (r : Placement) (log : Text) :
    Text.endsLine (r.frame log).behind = true := by
  cases r with
  | inside p => rfl
  | before p lead =>
    rw [frame]
    split <;> rfl
  | after p =>
    rw [frame]
    split <;> rfl

/-- Where a log is put no leaf is cut, and with plain siblings none is taken out. -/
theorem spares_frame (h : r.place.label.Among source all plain) (log : Text) {t : Token}
    (ht : t ∈ all) : t.Spares (r.frame log).stop ∧
      (plain → t.start < t.stop → ¬ (r.frame log).Drops t) := by
  have hspares := h.spares t ht
  have hblock : plain → t.start < t.stop →
      ¬ (r.place.label.fullStart < t.stop ∧ t.start < r.place.label.start) := by
    rintro hplain hwidth ⟨hstop, hstart⟩
    rcases hspares.gap hplain hwidth with hgap | hgap <;> omega
  cases r with
  | inside p =>
    exact ⟨hspares.firstTokenEnd, fun _ _ => Frame.not_drops_insertion hspares.firstTokenEnd _⟩
  | before p lead =>
    rw [frame]
    split
    · exact ⟨hspares.start, fun _ _ => Frame.not_drops_insertion hspares.start _⟩
    · exact ⟨hspares.stop, hblock⟩
  | after p =>
    rw [frame]
    split
    · exact ⟨hspares.stop, fun _ _ => Frame.not_drops_insertion hspares.stop _⟩
    · exact ⟨hspares.stop, hblock⟩

end Placement

/-- A text has a line comment at the offset: the comment ends there with its line. -/
def Text.HasLineComment (t : Text) (offset : Nat) (comment : Text) : Prop :=
  ∃ above below, t = above ++ comment ++ below ∧ above.size = offset ∧
    ['/', '/'].isPrefixOf comment = true ∧ Text.endsLine below = true

/-- A leaf of the parse is a comment that runs to the end of its line. -/
structure Token.IsLineComment (source : Text) (c : Token) (comment : Text) : Prop where
  kind : c.kind = "comment"
  text : source.slice? c.start c.stop = some comment
  ends : source.HasLineComment c.start comment

theorem Text.hasLineComment_iff {above comment below : Text}
    (h : ['/', '/'].isPrefixOf comment = true) :
    Text.HasLineComment (above ++ comment ++ below) above.size comment ↔
      Text.endsLine below = true := by
  constructor
  · rintro ⟨above', below', htext, hsize, -, hends⟩
    rw [List.append_assoc, List.append_assoc above'] at htext
    obtain ⟨rfl, hrest⟩ := Text.append_inj_of_size htext hsize.symm
    rwa [List.append_cancel_left hrest]
  · exact fun hends => ⟨above, below, rfl, rfl, h, hends⟩

theorem Token.IsLineComment.split {source comment : Text} {c : Token}
    (h : c.IsLineComment source comment) :
    ∃ above below, source = above ++ comment ++ below ∧ above.size = c.start ∧
      Text.size (above ++ comment) = c.stop ∧ ['/', '/'].isPrefixOf comment = true ∧
      Text.endsLine below = true := by
  obtain ⟨above, below, rfl, hstart, hstop⟩ := Text.slice?_eq_some_iff.mp h.text
  obtain ⟨-, -, -, -, hslashes, -⟩ := h.ends
  refine ⟨above, below, rfl, hstart, hstop, hslashes, ?_⟩
  rw [← Text.hasLineComment_iff hslashes, hstart]
  exact h.ends

theorem Text.size_pos_of_slashes {comment : Text} (h : ['/', '/'].isPrefixOf comment = true) :
    0 < comment.size := by
  cases comment with
  | nil => cases h
  | cons c comment =>
    have := c.utf8Size_pos
    rw [Text.size_cons]
    omega

theorem Token.IsLineComment.start_lt_stop {source comment : Text} {c : Token}
    (h : c.IsLineComment source comment) : c.start < c.stop := by
  obtain ⟨above, below, -, hstart, hstop, hslashes, -⟩ := h.split
  have hpos := Text.size_pos_of_slashes hslashes
  rw [Text.size_append] at hstop
  omega

/-- A line comment that is not taken out is found at its image. -/
theorem Frame.Splits.hasLineComment_iff {source above dropped kept below comment : Text} {f : Frame}
    {c : Token} (h : f.Splits source above dropped kept below)
    (hc : c.IsLineComment source comment) (hkept : ¬ f.Drops c) (hspares : c.Spares f.stop)
    (hahead : f.ahead ≠ []) (hbehind : Text.endsLine f.behind = true) :
    Text.HasLineComment (above ++ f.ahead ++ kept ++ f.behind ++ below) (f.image c.start) comment ↔
      (c.stop = f.full → Text.endsLine f.ahead = true) := by
  obtain ⟨x, y, hsource, hstart, hstop, hslashes, hends⟩ := hc.split
  have hpos := Text.size_pos_of_slashes hslashes
  have hwidth := hc.start_lt_stop
  have horder : f.full ≤ f.start ∧ f.start ≤ f.stop := by
    have hfull := h.full
    have hstart := h.start
    have hstop := h.stop
    simp only [Text.size_append] at hfull hstart hstop
    omega
  rw [← hstart, ← hstop]
  -- the image as a split of the new text decides what its line ends with
  have hiff {x' y' : Text} (htext : above ++ f.ahead ++ kept ++ f.behind ++ below =
      x' ++ comment ++ y') (hsize : x'.size = f.image x.size) :
      Text.HasLineComment (above ++ f.ahead ++ kept ++ f.behind ++ below) (f.image x.size)
        comment ↔ Text.endsLine y' = true := by
    rw [htext, ← hsize]
    exact Text.hasLineComment_iff hslashes
  by_cases hbefore : c.stop ≤ f.full
  · obtain ⟨x', y', htext, hsize, hline⟩ :=
      h.image_above hsource hpos (by omega) hahead hends
    exact (hiff htext hsize).trans hline
  · have hafter : f.start ≤ c.start := by
      refine Nat.le_of_not_lt fun hlt => hkept ⟨by omega, hlt⟩
    have hnot : Text.size (x ++ comment) ≠ f.full := by omega
    rcases hspares with hspares | hspares
    · obtain ⟨x', y', htext, hsize, hline⟩ :=
        h.image_kept hsource hpos (by omega) (by omega) hbehind hends
      exact (hiff htext hsize).trans ⟨fun _ h => absurd h hnot, fun _ => hline⟩
    · obtain ⟨x', htext, hsize⟩ := h.image_below hsource (by omega)
      exact (hiff htext hsize).trans ⟨fun _ h => absurd h hnot, fun _ => hends⟩

namespace Placement
open Edit

/-- In a tree whose nodes nest every log can be put at every place. A line comment that the edit
does not take out is then found at its image, and it is still a line comment there exactly if the
edit does not go on with its line. With plain siblings no comment is taken out. -/
theorem line_comments_survive_iff (source : Text) (parse : Parse) (r : Placement) (log : Text)
    (hnested : parse.root.nested source = true)
    (hplace : r.place ∈ (Tree.ofParse source parse).places) :
    ∃ e t, r.render? source log = some e ∧ applyAll source [e] = .ok t ∧
      (parse.root.plainSiblings = true → ∀ c ∈ parse.root.leaves, ∀ comment,
        c.IsLineComment source comment → ¬ (r.frame log).Drops c) ∧
      ∀ c ∈ parse.root.leaves, ∀ comment, c.IsLineComment source comment →
        ¬ (r.frame log).Drops c →
        (t.HasLineComment ((r.frame log).image c.start) comment ↔
          (c.stop = (r.frame log).full → Text.endsLine (r.frame log).ahead = true)) := by
  have hamong := Tree.among_ofParse hnested hplace
  obtain ⟨above, dropped, kept, below, hsplits⟩ := (frame_sound hamong.sound log).splits
  obtain ⟨e, he, hresult⟩ := hsplits.applyAll
  refine ⟨e, _, (render?_eq_edit? hamong.sound log).trans he, hresult, ?_, ?_⟩
  · intro hplain c hc comment hcomment
    exact (spares_frame hamong log hc).2 hplain hcomment.start_lt_stop
  · intro c hc comment hcomment hkept
    exact hsplits.hasLineComment_iff hcomment hkept (spares_frame hamong log hc).1
      (frame_ahead_ne_nil r log) (endsLine_frame_behind r log)

end Placement

/-- A branch behind a comment that ends the line of its condition. -/
def noteBranch : ParseTable where
  grammar := .javascript
  text := "if (x) // note\n  foo();\n".toList
  hasErrors := false
  rows := [
    ⟨none, "program", true, none, 0, 24, none⟩,
    ⟨some 0, "if_statement", true, none, 0, 23, none⟩,
    ⟨some 1, "if", false, none, 0, 2, none⟩,
    ⟨some 1, "parenthesized_expression", true, some "condition", 3, 6, none⟩,
    ⟨some 3, "(", false, none, 3, 4, none⟩,
    ⟨some 3, "identifier", true, none, 4, 5, none⟩,
    ⟨some 3, ")", false, none, 5, 6, none⟩,
    ⟨some 1, "comment", true, none, 7, 14, none⟩,
    ⟨some 1, "expression_statement", true, some "consequence", 17, 23, none⟩,
    ⟨some 8, "call_expression", true, none, 17, 22, none⟩,
    ⟨some 9, "identifier", true, some "function", 17, 20, none⟩,
    ⟨some 9, "arguments", true, some "arguments", 20, 22, none⟩,
    ⟨some 11, "(", false, none, 20, 21, none⟩,
    ⟨some 11, ")", false, none, 21, 22, none⟩,
    ⟨some 8, ";", false, none, 22, 23, none⟩]

def note : Token := ⟨"comment", true, none, 7, 14, none⟩

theorem note_isLineComment : note.IsLineComment noteBranch.text "// note".toList :=
  ⟨rfl, rfl, "if (x) ".toList, "\n  foo();\n".toList, rfl, rfl, rfl, rfl⟩

/-- The edit for a cursor at the call. -/
def branchLog : Edit :=
  ⟨14, 23, " \x7b\nfoo();\nconsole.log('*** foo() »', foo())\n\x7d".toList⟩

/-- The branch is put in a new block, from the end of the comment on. -/
theorem noteBranch_place :
    ∃ parse place, noteBranch.parse? = some parse ∧
      parse.root.wellPlaced noteBranch.text = true ∧ parse.root.plainSiblings = true ∧
      note ∈ parse.root.leaves ∧ place ∈ (Tree.ofParse noteBranch.text parse).places ∧
      Placement.standsInBlock place = false ∧ place.label.fullStart = 14 ∧
      Insertion.plan (.ofParse noteBranch.text parse) [.cursor 17] = .ok [.edit branchLog] := by
  refine ⟨_, _, rfl, by decide +kernel, by decide +kernel, by decide +kernel,
    List.mem_of_getElem? (rfl : _[4]? = _), rfl, rfl, ?_⟩
  rw [Insertion.plan_of_pairwise (by decide)]
  rfl

namespace Placement
open Edit Insertion

theorem noteBranch_line_goes_on :
    ∃ parse place e t, noteBranch.parse? = some parse ∧
      place ∈ (Tree.ofParse noteBranch.text parse).places ∧
      (after place).render? noteBranch.text "console.log()".toList = some e ∧
      applyAll noteBranch.text [e] = .ok t ∧
      ¬ t.HasLineComment (((after place).frame "console.log()".toList).image 7)
        "// note".toList := by
  obtain ⟨parse, place, hparse, hplaced, hplain, hnote, hplace, hblock, hfull, -⟩ :=
    noteBranch_place
  obtain ⟨e, t, he, ht, hdrops, hcomments⟩ := line_comments_survive_iff noteBranch.text parse
    (after place) "console.log()".toList (ParseNode.nested_of_wellPlaced hplaced) hplace
  have hkept := hdrops hplain note hnote _ note_isLineComment
  have hiff := hcomments note hnote _ note_isLineComment hkept
  refine ⟨parse, place, e, t, hparse, hplace, he, ht, fun hcomment => ?_⟩
  have hahead := hiff.mp hcomment
  rw [frame, if_neg (by rw [hblock]; decide)] at hahead
  cases hahead hfull.symm

/-- The brace of the new block is put on the line of the comment. -/
theorem noteBranch_swallows_brace :
    ∃ parse, noteBranch.parse? = some parse ∧ parse.root.wellPlaced noteBranch.text = true ∧
      note ∈ parse.root.leaves ∧ note.IsLineComment noteBranch.text "// note".toList ∧
      Insertion.plan (.ofParse noteBranch.text parse) [.cursor 17] = .ok [edit branchLog] ∧
      applyAll noteBranch.text [branchLog] = .ok ("if (x) ".toList ++ "// note".toList ++
        " \x7b\nfoo();\nconsole.log('*** foo() »', foo())\n\x7d\n".toList) ∧
      Text.endsLine " \x7b\nfoo();\nconsole.log('*** foo() »', foo())\n\x7d\n".toList = false := by
  obtain ⟨parse, -, hparse, hplaced, -, hnote, -, -, -, hplan⟩ := noteBranch_place
  refine ⟨parse, hparse, hplaced, hnote, note_isLineComment, hplan, ?_, by decide⟩
  rw [applyAll_singleton]
  rfl

end Placement
end LogProbe
