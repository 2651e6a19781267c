import LogProbe.Proofs.Text.Cut
import LogProbe.Text.Line

/-! Layout and ink. Padding and line breaks lay a text out; the rest of its characters is its ink.
Where a stretch of a text lies is told by the characters on both sides of its ends. -/
namespace LogProbe

/-- The characters that lay a text out: spaces, tabs and those of a line break. -/
def isLayout (c : Char) : Bool := isPadding c || c == '\n' || c == '\r'

theorem isLayout_of_isPadding {c : Char} (h : isPadding c = true) : isLayout c = true := by
  simp [isLayout, h]

namespace Text

/-- The characters of a text that are no layout. -/
def ink (t : Text) : Text := t.filter (!isLayout ·)

@[simp] theorem ink_nil : ink [] = [] := rfl

@[simp] theorem ink_append (a b : Text) : ink (a ++ b) = ink a ++ ink b := List.filter_append a b

theorem ink_of_all {t : Text} (h : t.all isLayout = true) : ink t = [] := by
  rw [ink, List.filter_eq_nil_iff]
  intro c hc
  simp [List.all_eq_true.mp h c hc]

/-- A text with no layout at its ends. -/
def isTrimmed (t : Text) : Bool := t.head?.all (!isLayout ·) && t.getLast?.all (!isLayout ·)

theorem all_isLayout_of_isPadding {t : Text} (h : t.all isPadding = true) :
    t.all isLayout = true := by
  rw [List.all_eq_true] at h ⊢
  exact fun c hc => isLayout_of_isPadding (h c hc)

theorem not_mem_of_isPadding {t : Text} (h : t.all isPadding = true) : '\n' ∉ t :=
  fun hc => absurd (List.all_eq_true.mp h _ hc) (by decide)

/-- Two stretches, one behind the other. -/
theorem slice?_trans {t x y : Text} {i j k : Nat} (hx : slice? t i j = some x)
    (hy : slice? t j k = some y) : slice? t i k = some (x ++ y) := by
  obtain ⟨a, b, rfl, rfl, rfl⟩ := slice?_eq_some_iff.mp hx
  obtain ⟨a', c, ht, hj, rfl⟩ := slice?_eq_some_iff.mp hy
  rw [List.append_assoc a'] at ht
  obtain ⟨rfl, rfl⟩ := append_inj_of_size ht hj.symm
  exact slice?_eq_some_iff.mpr ⟨a, c, by simp, rfl, by simp⟩

/-- A stretch falls into two at a boundary within it. -/
theorem slice?_split {t m : Text} {i n k : Nat} (h : slice? t i k = some m) (hi : i ≤ n)
    (hk : n ≤ k) (hn : t.isBoundary n = true) :
    ∃ x y, slice? t i n = some x ∧ slice? t n k = some y ∧ m = x ++ y := by
  obtain ⟨-, hstart, hstop⟩ := isSome_slice?_iff.mp (Option.isSome_of_eq_some h)
  obtain ⟨x, hx⟩ := Option.isSome_iff_exists.mp (isSome_slice?_iff.mpr ⟨hi, hstart, hn⟩)
  obtain ⟨y, hy⟩ := Option.isSome_iff_exists.mp (isSome_slice?_iff.mpr ⟨hk, hn, hstop⟩)
  exact ⟨x, y, hx, hy, Option.some.inj (h.symm.trans (slice?_trans hx hy))⟩

theorem size_of_slice? {t m : Text} {i j : Nat} (h : slice? t i j = some m) :
    i + m.size = j := by
  obtain ⟨a, b, -, rfl, rfl⟩ := slice?_eq_some_iff.mp h
  rw [size_append]

theorem boundaries_of_slice? {t m : Text} {i j : Nat} (h : slice? t i j = some m) :
    i ≤ j ∧ t.isBoundary i = true ∧ t.isBoundary j = true :=
  isSome_slice?_iff.mp (Option.isSome_of_eq_some h)

/-- What is cut out of the beginning of a text. -/
theorem slice?_append_of_le {a b : Text} {i j : Nat} (h : j ≤ a.size) :
    slice? (a ++ b) i j = slice? a i j := by
  apply Option.ext
  intro m
  rw [slice?_eq_some_iff, slice?_eq_some_iff]
  constructor
  · rintro ⟨x, y, ht, rfl, rfl⟩
    obtain ⟨z, rfl, -⟩ := exists_append_of_size_le ht.symm h
    exact ⟨x, z, rfl, rfl, rfl⟩
  · rintro ⟨x, y, rfl, rfl, rfl⟩
    exact ⟨x, y ++ b, by simp, rfl, rfl⟩

theorem slice?_self {t : Text} {n : Nat} (h : t.isBoundary n = true) : slice? t n n = some [] := by
  obtain ⟨a, b, rfl, rfl⟩ := isBoundary_iff.mp h
  simpa using slice?_append a [] b

section Neighbours

/-- The character that ends at an offset. -/
def charBefore? (t : Text) (n : Nat) : Option Char := (t.cut? n).bind (·.1.getLast?)

/-- The character that starts at an offset. -/
def charAfter? (t : Text) (n : Nat) : Option Char := (t.cut? n).bind (·.2.head?)

@[simp] theorem charBefore?_append (a b : Text) : charBefore? (a ++ b) a.size = a.getLast? := by
  rw [charBefore?, cut?_append, Option.bind_some]

@[simp] theorem charAfter?_append (a b : Text) : charAfter? (a ++ b) a.size = b.head? := by
  rw [charAfter?, cut?_append, Option.bind_some]

theorem charBefore?_append_of_le {a b : Text} {n : Nat} (hn : n ≤ a.size) :
    charBefore? (a ++ b) n = charBefore? a n := by
  have hboundary := isBoundary_append (b := b) hn
  cases hcut : a.cut? n with
  | none =>
    have hnone : (a ++ b).cut? n = none := by
      rwa [isBoundary, isBoundary, hcut, Option.isSome_none, Option.isSome_eq_false_iff,
        Option.isNone_iff_eq_none] at hboundary
    rw [charBefore?, charBefore?, hcut, hnone]
  | some parts =>
    obtain ⟨rfl, rfl⟩ := append_of_cut? hcut
    rw [List.append_assoc, charBefore?_append, charBefore?_append]

variable {t m : Text} {i j n : Nat}

/-- Within a stretch every character starts in it. -/
theorem charAfter?_mem (h : slice? t i j = some m) (hn : t.isBoundary n = true) (hi : i ≤ n)
    (hj : n < j) : ∃ c ∈ m, t.charAfter? n = some c := by
  obtain ⟨x, y, -, hy, rfl⟩ := slice?_split h hi (Nat.le_of_lt hj) hn
  obtain ⟨a, b, rfl, rfl, rfl⟩ := slice?_eq_some_iff.mp hy
  rw [List.append_assoc, charAfter?_append]
  cases y with
  | nil => simp at hj
  | cons c y => exact ⟨c, by simp, rfl⟩

/-- Within a stretch every character ends in it. -/
theorem charBefore?_mem (h : slice? t i j = some m) (hn : t.isBoundary n = true) (hi : i < n)
    (hj : n ≤ j) : ∃ c ∈ m, t.charBefore? n = some c := by
  obtain ⟨x, y, hx, -, rfl⟩ := slice?_split h (Nat.le_of_lt hi) hj hn
  obtain ⟨a, b, rfl, rfl, rfl⟩ := slice?_eq_some_iff.mp hx
  rw [charBefore?_append]
  rcases x.eq_nil_or_concat with rfl | ⟨x, c, rfl⟩
  · simp at hi
  · exact ⟨c, by simp, by simp⟩

theorem charAfter?_of_slice? (h : slice? t i j = some m) (hij : i < j) :
    t.charAfter? i = m.head? := by
  obtain ⟨a, b, rfl, rfl, rfl⟩ := slice?_eq_some_iff.mp h
  rw [List.append_assoc, charAfter?_append]
  cases m with
  | nil => simp at hij
  | cons c m => rfl

theorem charBefore?_of_slice? (h : slice? t i j = some m) (hij : i < j) :
    t.charBefore? j = m.getLast? := by
  obtain ⟨a, b, rfl, rfl, rfl⟩ := slice?_eq_some_iff.mp h
  rw [charBefore?_append]
  rcases m.eq_nil_or_concat with rfl | ⟨m, c, rfl⟩
  · simp at hij
  · simp

/-- A line starts at the start of the text and behind every line feed. -/
def StartsLine (t : Text) (n : Nat) : Prop := n = 0 ∨ t.charBefore? n = some '\n'

theorem startsLine_append_of_le {a b : Text} (hn : n ≤ a.size) :
    StartsLine (a ++ b) n ↔ StartsLine a n := by
  rw [StartsLine, StartsLine, charBefore?_append_of_le hn]

/-- A text of complete lines, behind which the next line starts. -/
def WholeLines (t : Text) : Prop := t = [] ∨ t.getLast? = some '\n'

theorem startsLine_size_iff {a b : Text} : StartsLine (a ++ b) a.size ↔ a.WholeLines := by
  rw [StartsLine, WholeLines, charBefore?_append]
  refine or_congr_left ⟨size_eq_zero, ?_⟩
  rintro rfl
  rfl

/-- Lines that were complete, and are again behind a further stretch up to the start of a line. -/
theorem WholeLines.append_slice? {out : Text} (hm : slice? t i j = some m)
    (hj : t.StartsLine j) (hout : t.StartsLine i → out.WholeLines) : (out ++ m).WholeLines := by
  have hsize := size_of_slice? hm
  cases m with
  | nil =>
    obtain rfl : i = j := hsize
    rw [List.append_nil]
    exact hout hj
  | cons c m =>
    have hpos := c.utf8Size_pos
    simp only [size_cons] at hsize
    rcases hj with rfl | hfeed
    · omega
    · rw [charBefore?_of_slice? hm (by omega)] at hfeed
      exact .inr (by rw [List.getLast?_append, hfeed]; rfl)

/-- A line of a text, its break included, with what is above it and below it. -/
structure IsLine (source above line below : Text) : Prop where
  text : source = above ++ line ++ below
  starts : above.WholeLines
  feed : '\n' ∉ line.dropLast
  ends : line.getLast? = some '\n' ∨ below = []

/-- No line starts behind the beginning of a stretch without line feeds. -/
theorem StartsLine.not_within (h : t.StartsLine n) (hn : t.isBoundary n = true)
    (hm : slice? t i j = some m) (hfeed : '\n' ∉ m) (hi : i < n) : j < n := by
  refine Nat.lt_of_not_le fun hj => ?_
  obtain ⟨c, hc, hbefore⟩ := charBefore?_mem hm hn hi hj
  rcases h with rfl | h
  · omega
  · rw [h] at hbefore
    exact hfeed (Option.some.inj hbefore ▸ hc)

/-- The character is there and is no layout. -/
def IsInk (c : Option Char) : Prop := ∃ d, c = some d ∧ isLayout d = false

/-- A stretch of layout does not reach beyond ink behind its beginning. -/
theorem IsInk.le_of_after (h : IsInk (t.charAfter? n)) (hn : t.isBoundary n = true)
    (hm : slice? t i j = some m) (hlayout : m.all isLayout = true) (hi : i ≤ n) : j ≤ n := by
  refine Nat.le_of_not_lt fun hj => ?_
  obtain ⟨d, hd, hink⟩ := h
  obtain ⟨c, hc, hafter⟩ := charAfter?_mem hm hn hi hj
  obtain rfl : d = c := Option.some.inj (hd.symm.trans hafter)
  cases hink.symm.trans (List.all_eq_true.mp hlayout d hc)

/-- A stretch of layout does not start above ink in front of its end. -/
theorem IsInk.le_of_before (h : IsInk (t.charBefore? n)) (hn : t.isBoundary n = true)
    (hm : slice? t i j = some m) (hlayout : m.all isLayout = true) (hj : n ≤ j) : n ≤ i := by
  refine Nat.le_of_not_lt fun hi => ?_
  obtain ⟨d, hd, hink⟩ := h
  obtain ⟨c, hc, hbefore⟩ := charBefore?_mem hm hn hi hj
  obtain rfl : d = c := Option.some.inj (hd.symm.trans hbefore)
  cases hink.symm.trans (List.all_eq_true.mp hlayout d hc)

theorem IsInk.not_startsLine (h : IsInk (t.charBefore? n)) (hn : 0 < n) : ¬ t.StartsLine n := by
  rintro (rfl | hfeed)
  · omega
  · obtain ⟨d, hd, hink⟩ := h
    rw [hfeed] at hd
    cases hd
    cases hink

/-- A text without layout at its ends has ink there. -/
theorem isInk_of_isTrimmed (h : slice? t i j = some m) (hij : i < j) (hm : m.isTrimmed = true) :
    IsInk (t.charAfter? i) ∧ IsInk (t.charBefore? j) := by
  rw [charAfter?_of_slice? h hij, charBefore?_of_slice? h hij]
  rw [isTrimmed, Bool.and_eq_true] at hm
  have hne : m ≠ [] := by
    rintro rfl
    have := size_of_slice? h
    simp only [size_nil] at this
    omega
  obtain ⟨hhead, hlast⟩ := hm
  rw [List.head?_eq_some_head hne] at hhead ⊢
  rw [List.getLast?_eq_some_getLast hne] at hlast ⊢
  exact ⟨⟨_, rfl, by simpa using hhead⟩, ⟨_, rfl, by simpa using hlast⟩⟩

end Neighbours

end Text

namespace LineView
variable {t : Text} {n : Nat} {v : LineView}

theorem mem_takeEndWhile {p : Char → Bool} {t : Text} {c : Char} (h : c ∈ t.takeEndWhile p) :
    p c = true :=
  List.all_eq_true.mp List.all_takeWhile c (List.mem_reverse.mp h)

/-- What an offset shows of its line: no line feed up to the end of the line, and the line feed
there, unless the text ends. -/
structure Shows (t : Text) (n : Nat) (v : LineView) : Prop where
  text : t = v.above ++ v.head ++ v.tail ++ v.below
  offset : Text.size (v.above ++ v.head) = n
  starts : t.StartsLine v.start
  head_feed : '\n' ∉ v.head
  tail_feed : '\n' ∉ v.tail
  below_feed : v.below = [] ∨ ∃ rest, v.below = '\n' :: rest

theorem shows_of_at? (h : at? t n = some v) : Shows t n v := by
  obtain ⟨htext, hoffset⟩ := append_of_at? h
  obtain ⟨⟨upper, lower⟩, -, rfl⟩ := Option.map_eq_some_iff.mp h
  refine ⟨htext, hoffset, ?_, fun hc => ?_, fun hc => ?_, ?_⟩
  · rw [Text.StartsLine, start, htext, List.append_assoc, List.append_assoc,
      Text.charBefore?_append]
    change Text.size (upper.dropEndWhile (· != '\n')) = 0 ∨
      (upper.dropEndWhile (· != '\n')).getLast? = some '\n'
    rw [Text.dropEndWhile, List.getLast?_reverse]
    have hnot := List.head?_dropWhile_not (· != '\n') upper.reverse
    cases hdrop : upper.reverse.dropWhile (· != '\n') with
    | nil => exact .inl rfl
    | cons c rest =>
      rw [hdrop] at hnot
      exact .inr (congrArg some (by simpa using hnot))
  · exact absurd (mem_takeEndWhile hc) (by decide)
  · exact absurd (List.all_eq_true.mp List.all_takeWhile _ hc) (by decide)
  · change lower.dropWhile (· != '\n') = [] ∨ ∃ rest, lower.dropWhile (· != '\n') = '\n' :: rest
    have hnot := List.head?_dropWhile_not (· != '\n') lower
    cases hdrop : lower.dropWhile (· != '\n') with
    | nil => exact .inl rfl
    | cons c rest =>
      rw [hdrop] at hnot
      exact .inr ⟨rest, by rw [show c = '\n' by simpa using hnot]⟩

theorem exists_at? (h : t.isBoundary n = true) : ∃ v, at? t n = some v := by
  obtain ⟨parts, hparts⟩ := Option.isSome_iff_exists.mp h
  exact ⟨_, Option.map_eq_some_iff.mpr ⟨parts, hparts, rfl⟩⟩

/-- Where the content of a line starts at an offset, only padding stands before it. -/
theorem Shows.all_head_isPadding (h : Shows t n v) (hstart : v.contentStart = n) :
    v.head.all isPadding = true := by
  have hsplit : v.content.takeWhile isPadding ++ v.content.dropWhile isPadding =
      v.head ++ v.tail.dropReturn := List.takeWhile_append_dropWhile
  have hsize : Text.size (v.content.takeWhile isPadding) = v.head.size := by
    have hoffset := h.offset
    rw [← hstart, contentStart, Text.size_append, Text.size_append] at hoffset
    omega
  rw [← (Text.append_inj_of_size hsplit hsize).1]
  exact List.all_takeWhile

/-- A line that holds only padding in front of its break is all layout. -/
theorem all_isLayout_of_dropReturn {tail : Text} (h : tail.dropReturn.all isPadding = true) :
    tail.all isLayout = true := by
  rw [Text.dropReturn] at h
  split at h
  · rename_i hends
    rw [Text.endsWith, beq_iff_eq, List.getLast?_eq_some_iff] at hends
    obtain ⟨front, rfl⟩ := hends
    rw [List.dropLast_concat] at h
    rw [List.all_append, Text.all_isLayout_of_isPadding h]
    rfl
  · exact Text.all_isLayout_of_isPadding h

end LineView
end LogProbe
