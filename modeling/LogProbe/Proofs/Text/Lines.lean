import LogProbe.Proofs.Text.Layout

/-! Lines of a text, seen from the offsets on them. The places that an offset shows of its line lie
around it in order and on boundaries. The offsets of one line show the same places; only behind the
carriage return of the line's break that character is seen as one of the line. -/
namespace LogProbe
namespace Text
variable {t : Text} {n : Nat}

/-- The carriage return of a line's break ends at the offset: a line feed comes next, or the text
ends. -/
def AfterReturn (t : Text) (n : Nat) : Prop :=
  t.charBefore? n = some '\r' ∧ (t.charAfter? n = none ∨ t.charAfter? n = some '\n')

instance (t : Text) (n : Nat) : Decidable (AfterReturn t n) :=
  inferInstanceAs (Decidable (_ ∧ _))

/-- What a line may end with: a carriage return or none, then a line feed or none. -/
def lineEndings : List Text := [[], ['\n'], ['\r'], ['\r', '\n']]

/-- The places of the line that an offset is on: where it starts, where its content starts, where
it stops and where the next line starts. -/
structure LineAround (t : Text) (n start first stop next : Nat) : Prop where
  start_le_first : start ≤ first
  first_le_stop : first ≤ stop
  start_le : start ≤ n
  le_stop : n ≤ stop
  stop_le_next : stop ≤ next
  next_le_size : next ≤ t.size
  boundaries : ∀ m ∈ [start, first, stop, next], t.isBoundary m = true
  starts : t.StartsLine start
  padding : ∃ padding content, t.slice? start first = some padding ∧
    t.slice? first stop = some content ∧ padding.all isPadding = true ∧
      content.head?.all (!isPadding ·) = true
  content : ∃ line, t.slice? start stop = some line ∧ '\n' ∉ line
  ending : ∃ ending ∈ lineEndings, t.slice? stop next = some ending
  ends : next = t.size ∨ t.charBefore? next = some '\n'
  /-- Only an offset behind the return of the line's break has its line stop there. -/
  return_of_stop : t.AfterReturn stop → stop = n

section Returns

theorem dropReturn_of_getLast? (h : t.getLast? ≠ some '\r') : t.dropReturn = t :=
  if_neg (by simpa [endsWith] using h)

theorem exists_dropReturn (t : Text) : ∃ last, t = t.dropReturn ++ last ∧
    (last = [] ∧ t.getLast? ≠ some '\r' ∨ last = ['\r']) := by
  by_cases h : t.getLast? = some '\r'
  · obtain ⟨front, rfl⟩ := List.getLast?_eq_some_iff.mp h
    refine ⟨['\r'], ?_, .inr rfl⟩
    rw [dropReturn, endsWith, h, List.dropLast_concat]
    rfl
  · exact ⟨[], by rw [dropReturn_of_getLast? h, List.append_nil], .inl ⟨rfl, h⟩⟩

theorem dropReturn_append (a : Text) {b : Text} (hb : b ≠ []) :
    (a ++ b).dropReturn = a ++ b.dropReturn := by
  have hlast : (a ++ b).endsWith '\r' = b.endsWith '\r' := by
    rw [endsWith, endsWith, List.getLast?_append, List.getLast?_eq_some_getLast hb]
    rfl
  rw [dropReturn, dropReturn, hlast, List.dropLast_append_of_ne_nil hb]
  split <;> rfl

end Returns

/-- A stretch of two parts is the stretches of both. -/
theorem slice?_parts {x y : Text} {i k : Nat} (h : t.slice? i k = some (x ++ y)) :
    t.slice? i (i + x.size) = some x ∧ t.slice? (i + x.size) k = some y := by
  obtain ⟨a, b, rfl, rfl, rfl⟩ := slice?_eq_some_iff.mp h
  rw [← size_append]
  exact ⟨slice?_eq_some_iff.mpr ⟨a, y ++ b, by simp, rfl, rfl⟩,
    slice?_eq_some_iff.mpr ⟨a ++ x, b, by simp, rfl, by simp⟩⟩

end Text

namespace LineView

theorem stop_eq (v : LineView) : v.stop = Text.size (v.above ++ v.content) := by
  rw [stop, content, List.append_assoc]

theorem contentStart_eq (v : LineView) :
    v.contentStart = v.start + Text.size (v.content.takeWhile isPadding) :=
  Text.size_append _ _

namespace Shows
variable {t : Text} {m n : Nat} {v w : LineView}

/-- The line up to its line feed is what is behind its start, as far as there is none. -/
theorem takeWhile_eq (h : Shows t n v) :
    (v.head ++ v.tail ++ v.below).takeWhile (· != '\n') = v.head ++ v.tail := by
  have hline : ∀ c ∈ v.head ++ v.tail, (c != '\n') = true := by
    intro c hc
    rw [bne_iff_ne]
    rintro rfl
    exact (List.mem_append.mp hc).elim h.head_feed h.tail_feed
  have hbelow : v.below.takeWhile (· != '\n') = [] := by
    rcases h.below_feed with hnil | ⟨rest, hrest⟩
    · rw [hnil, List.takeWhile_nil]
    · rw [hrest, List.takeWhile_cons_of_neg (by simp)]
  rw [List.takeWhile_append_of_pos hline, hbelow, List.append_nil]

/-- Unless the offset is behind the return of the line's break, the line's content is the line
without that return. -/
theorem content_eq (h : Shows t n v) (hreturn : ¬ t.AfterReturn n) :
    v.content = (v.head ++ v.tail).dropReturn := by
  by_cases htail : v.tail = []
  · have hhead : v.content = v.head := by
      rw [content, htail]
      exact List.append_nil v.head
    rw [hhead, htail, List.append_nil]
    refine (Text.dropReturn_of_getLast? fun hlast => hreturn ?_).symm
    have htext := h.text
    rw [htail, List.append_nil] at htext
    rw [Text.AfterReturn, htext, ← h.offset, Text.charBefore?_append, Text.charAfter?_append,
      List.getLast?_append, hlast]
    refine ⟨rfl, ?_⟩
    rcases h.below_feed with hnil | ⟨rest, hrest⟩
    · exact .inl (by rw [hnil]; rfl)
    · exact .inr (by rw [hrest]; rfl)
  · rw [content, Text.dropReturn_append v.head htail]

theorem slice_content (h : Shows t n v) : t.slice? v.start v.stop = some v.content := by
  obtain ⟨last, htail, -⟩ := Text.exists_dropReturn v.tail
  refine Text.slice?_eq_some_iff.mpr ⟨v.above, last ++ v.below, ?_, rfl, v.stop_eq.symm⟩
  conv => lhs; rw [h.text, htail]
  simp [content]

theorem feed_not_mem_content (h : Shows t n v) : '\n' ∉ v.content := by
  obtain ⟨last, htail, -⟩ := Text.exists_dropReturn v.tail
  rw [content, List.mem_append, not_or]
  refine ⟨h.head_feed, fun hc => h.tail_feed ?_⟩
  rw [htail]
  exact List.mem_append_left _ hc

/-- From the stop of a line to the start of the next one there is a line ending, with a line feed
unless the text ends there. -/
theorem exists_ending (h : Shows t n v) :
    ∃ ending ∈ Text.lineEndings, t.slice? v.stop v.stopWithBreak = some ending ∧
      (v.stopWithBreak = t.size ∨ t.charBefore? v.stopWithBreak = some '\n') := by
  obtain ⟨last, htail, hlast⟩ := Text.exists_dropReturn v.tail
  have htext : t = v.above ++ v.content ++ (last ++ v.below.take 1) ++ v.below.drop 1 := by
    conv => lhs; rw [h.text, htail, ← List.take_append_drop 1 v.below]
    simp [content]
  have hnext : v.stopWithBreak = Text.size (v.above ++ v.content ++ (last ++ v.below.take 1)) := by
    conv => lhs; rw [stopWithBreak, htail]
    simp [content]
  have hslice : t.slice? v.stop v.stopWithBreak = some (last ++ v.below.take 1) :=
    Text.slice?_eq_some_iff.mpr ⟨_, _, htext, v.stop_eq.symm, hnext.symm⟩
  refine ⟨_, ?_, hslice, ?_⟩
  · have hfeed : v.below.take 1 = [] ∨ v.below.take 1 = ['\n'] := by
      rcases h.below_feed with hnil | ⟨rest, hrest⟩
      · exact .inl (by rw [hnil]; rfl)
      · exact .inr (by rw [hrest]; rfl)
    rcases hlast with ⟨rfl, -⟩ | rfl <;> rcases hfeed with hfeed | hfeed <;> rw [hfeed] <;> decide
  · rcases h.below_feed with hnil | ⟨rest, hrest⟩
    · left
      rw [hnext]
      conv => rhs; rw [htext, hnil, List.drop_nil, List.append_nil]
      rw [hnil]
    · right
      rw [hnext, htext, Text.charBefore?_append, hrest]
      simp

/-- A line stops behind the return of its break only where the offset is there already. -/
theorem stop_eq_of_afterReturn (h : Shows t n v) (hreturn : t.AfterReturn v.stop) :
    v.stop = n := by
  by_cases htail : v.tail = []
  · rw [← h.offset, stop, htail]
    exact congrArg Text.size (List.append_nil _)
  · obtain ⟨last, hsplit, hlast⟩ := Text.exists_dropReturn v.tail
    have htext : t = v.above ++ v.head ++ v.tail.dropReturn ++ (last ++ v.below) := by
      conv => lhs; rw [h.text, hsplit]
      simp
    obtain ⟨hbefore, hafter⟩ := hreturn
    rw [stop, htext, Text.charBefore?_append] at hbefore
    rw [stop, htext, Text.charAfter?_append] at hafter
    rcases hlast with ⟨rfl, hlast⟩ | rfl
    · rw [List.append_nil] at hsplit
      rw [← hsplit, List.getLast?_append, List.getLast?_eq_some_getLast htail] at hbefore
      rw [List.getLast?_eq_some_getLast htail] at hlast
      exact absurd hbefore hlast
    · simp at hafter

theorem lineAround (h : Shows t n v) :
    t.LineAround n v.start v.contentStart v.stop v.stopWithBreak := by
  obtain ⟨ending, hending, hbreak, hends⟩ := h.exists_ending
  have hline := h.slice_content
  rw [← List.takeWhile_append_dropWhile (p := isPadding) (l := v.content)] at hline
  obtain ⟨hindent, hrest⟩ := Text.slice?_parts hline
  rw [← contentStart_eq] at hindent hrest
  obtain ⟨hstart_first, hstart, hfirst⟩ := Text.boundaries_of_slice? hindent
  obtain ⟨hfirst_stop, -, hstop⟩ := Text.boundaries_of_slice? hrest
  obtain ⟨hstop_next, -, hnext⟩ := Text.boundaries_of_slice? hbreak
  refine ⟨hstart_first, hfirst_stop, ?_, ?_, hstop_next, Text.le_size_of_isBoundary hnext, ?_,
    h.starts, ⟨_, _, hindent, hrest, List.all_takeWhile, ?_⟩,
    ⟨v.content, h.slice_content, h.feed_not_mem_content⟩, ⟨ending, hending, hbreak⟩, hends,
    h.stop_eq_of_afterReturn⟩
  · rw [← h.offset, start, Text.size_append]
    exact Nat.le_add_right _ _
  · rw [← h.offset, stop, Text.size_append (v.above ++ v.head)]
    exact Nat.le_add_right _ _
  · simp only [List.mem_cons, List.not_mem_nil, or_false]
    rintro m (rfl | rfl | rfl | rfl) <;> assumption
  · have hnot := List.head?_dropWhile_not isPadding v.content
    cases hdrop : v.content.dropWhile isPadding with
    | nil => rfl
    | cons c inner =>
      rw [hdrop] at hnot
      simpa using hnot

/-- Offsets whose lines start at one place are on one line. -/
theorem same_line (hv : Shows t m v) (hw : Shows t n w) (hstart : v.start = w.start) :
    v.above = w.above ∧ v.head ++ v.tail = w.head ++ w.tail ∧ v.below = w.below := by
  have htext : v.above ++ (v.head ++ v.tail ++ v.below) = w.above ++ (w.head ++ w.tail ++ w.below) :=
    by simpa using hv.text.symm.trans hw.text
  obtain ⟨habove, hrest⟩ := Text.append_inj_of_size htext hstart
  have hline : v.head ++ v.tail = w.head ++ w.tail := by
    rw [← hv.takeWhile_eq, ← hw.takeWhile_eq, hrest]
  rw [hline] at hrest
  exact ⟨habove, hline, List.append_cancel_left hrest⟩

/-- Two offsets of a line, neither of them behind the return of its break, show the same places. -/
theorem same_places (hv : Shows t m v) (hw : Shows t n w) (hstart : v.start = w.start)
    (hm : ¬ t.AfterReturn m) (hn : ¬ t.AfterReturn n) :
    v.contentStart = w.contentStart ∧ v.stop = w.stop ∧ v.stopWithBreak = w.stopWithBreak := by
  obtain ⟨habove, hline, hbelow⟩ := hv.same_line hw hstart
  have hcontent : v.content = w.content := by
    rw [hv.content_eq hm, hw.content_eq hn, hline]
  refine ⟨?_, ?_, ?_⟩
  · rw [contentStart, contentStart, habove, hcontent]
  · rw [stop_eq, stop_eq, habove, hcontent]
  · rw [stopWithBreak, stopWithBreak, List.append_assoc v.above, List.append_assoc w.above, habove,
      hline, hbelow]

end Shows
end LineView

namespace Text

/-- Every offset shows its line: the four places lie around it in order, with no line feed up to the
stop and nothing but a line ending from there to the next line. Two offsets of one line show the
same four places, unless one of them is behind the carriage return of the line's break. -/
theorem line_of_offset (t : Text) :
    (∀ n, t.isBoundary n = true → ∃ start first stop next,
      t.lineStart? n = some start ∧ t.contentStart? n = some first ∧ t.lineEnd? n = some stop ∧
        t.lineEndWithBreak? n = some next ∧ t.LineAround n start first stop next) ∧
    ∀ m n, t.isBoundary m = true → t.isBoundary n = true → t.lineStart? m = t.lineStart? n →
      ¬ t.AfterReturn m → ¬ t.AfterReturn n →
        t.contentStart? m = t.contentStart? n ∧ t.lineEnd? m = t.lineEnd? n ∧
          t.lineEndWithBreak? m = t.lineEndWithBreak? n := by
  constructor
  · intro n hn
    obtain ⟨v, hv⟩ := LineView.exists_at? hn
    rw [lineStart?, contentStart?, lineEnd?, lineEndWithBreak?, hv]
    exact ⟨_, _, _, _, rfl, rfl, rfl, rfl, (LineView.shows_of_at? hv).lineAround⟩
  · intro m n hm hn hstart hreturn hreturn'
    obtain ⟨v, hv⟩ := LineView.exists_at? hm
    obtain ⟨w, hw⟩ := LineView.exists_at? hn
    have hshows := LineView.shows_of_at? hv
    have hshows' := LineView.shows_of_at? hw
    simp only [lineStart?, contentStart?, lineEnd?, lineEndWithBreak?, hv, hw, Option.map_some,
      Option.some.injEq] at hstart ⊢
    exact hshows.same_places hshows' hstart hreturn hreturn'

/-- Two lines with a carriage return in the break between them. -/
def returnedLine : Text := "é x\r\n\tb".toList

/-- At the start of the first line and in front of its return the same places are seen; behind the
return the line seems to stop there. -/
theorem returnedLine_places :
    returnedLine.LineAround 2 0 0 4 6 ∧ returnedLine.lineEnd? 0 = returnedLine.lineEnd? 4 ∧
      returnedLine.AfterReturn 5 ∧ returnedLine.lineEnd? 5 = some 5 := by
  have hline := line_of_offset returnedLine
  obtain ⟨start, first, stop, next, hstart, hfirst, hstop, hnext, haround⟩ := hline.1 2 (by decide)
  have hsame := hline.2 0 4 (by decide) (by decide) (by decide) (by decide) (by decide)
  obtain rfl : 0 = start := Option.some.inj hstart
  obtain rfl : 0 = first := Option.some.inj hfirst
  obtain rfl : 4 = stop := Option.some.inj hstop
  obtain rfl : 6 = next := Option.some.inj hnext
  exact ⟨haround, hsame.2.1, by decide, by decide⟩

end Text
end LogProbe
