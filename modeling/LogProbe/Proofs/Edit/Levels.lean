import Mathlib.Data.List.DropRight
import LogProbe.Proofs.Edit.Indent

/-! The levels of the lines of an indented text. Indentation reads a text line by line and keeps a
level, which no padding can change: what opens a line is read behind its padding, what ends it is
none. So the lines of the result have the levels of the lines they come from, and a second
indentation finds nothing to do. -/
namespace LogProbe

namespace Text

/-- The lines of a text, without the line feeds between them. -/
def lines (t : Text) : List Text := (split '\n' t).1 :: (split '\n' t).2

theorem dropWhile_padding {padding : Text} (h : padding.all isPadding = true) (t : Text) :
    (padding ++ t).dropWhile isPadding = t.dropWhile isPadding :=
  List.dropWhile_append_of_pos fun c hc => List.all_eq_true.mp h c hc

/-- What ends a line is told without its padding, unless it is padding. -/
theorem endsWith_padding {padding : Text} (h : padding.all isPadding = true) (t : Text) {c : Char}
    (hc : isPadding c = false) : endsWith (padding ++ t) c = endsWith t c := by
  rw [endsWith, endsWith, List.getLast?_append]
  cases ht : t.getLast? with
  | some last => rfl
  | none =>
    cases hp : padding.getLast? with
    | none => rfl
    | some last =>
      have hlast := List.all_eq_true.mp h last (List.mem_of_getLast? hp)
      have hne : last ≠ c := by
        rintro rfl
        simp [hc] at hlast
      simpa using hne

theorem size_replicate_flatten (k : Nat) (t : Text) :
    size (List.replicate k t).flatten = k * size t := by
  induction k with
  | zero => simp
  | succ k ih =>
    rw [List.replicate_succ, List.flatten_cons, size_append, ih, Nat.succ_mul, Nat.add_comm]

/-- No piece is longer than the text that the pieces make up. -/
theorem size_le_join (separator : Char) (first : Text) {rest : List Text} {piece : Text}
    (h : piece ∈ rest) : piece.size ≤ size (join separator first rest) := by
  obtain ⟨before, after, rfl⟩ := List.append_of_mem h
  simp only [join, List.flatMap_append, List.flatMap_cons, size_append, size_cons]
  omega

end Text

namespace Indent

section Lines
variable {unit previous line : Text} {level : Nat} {lines : List Text}

/-- A line at a level, in place of the padding it has. -/
def atLevel (unit : Text) (level : Nat) (line : Text) : Text :=
  (List.replicate level unit).flatten ++ line.dropWhile isPadding

/-- The levels of the lines that follow `previous`, which stands at `level`. -/
def levels : Nat → Text → List Text → List Nat
  | _, _, [] => []
  | level, previous, line :: rest =>
    nextLevel level previous line :: levels (nextLevel level previous line) line rest

@[simp] theorem length_levels : (levels level previous lines).length = lines.length := by
  induction lines generalizing level previous with
  | nil => rfl
  | cons line lines ih => rw [levels, List.length_cons, ih, List.length_cons]

/-- Lines are padded one by one, as long as their padding can exist. -/
theorem padLines?_eq_some_iff {padded : List Text} :
    padLines? unit level previous lines = some padded ↔
      (∀ k ∈ levels level previous lines, k * unit.size ≤ Text.maxSize) ∧
        padded = List.zipWith (atLevel unit) (levels level previous lines) lines := by
  induction lines generalizing level previous padded with
  | nil => simp [padLines?, levels, eq_comm]
  | cons line lines ih =>
    simp only [padLines?, Option.bind_eq_bind, Option.bind_eq_some_iff, Option.pure_def,
      Option.some.injEq, Text.repeat?, Option.ite_none_right_eq_some, levels,
      List.forall_mem_cons, List.zipWith_cons_cons]
    constructor
    · rintro ⟨_, ⟨hfits, rfl⟩, rest, hrest, rfl⟩
      obtain ⟨hall, rfl⟩ := ih.mp hrest
      exact ⟨⟨hfits, hall⟩, rfl⟩
    · rintro ⟨⟨hfits, hall⟩, rfl⟩
      exact ⟨_, ⟨hfits, rfl⟩, _, ih.mpr ⟨hall, rfl⟩, rfl⟩

theorem all_isPadding_replicate (hunit : unit.all isPadding = true) (level : Nat) :
    (List.replicate level unit).flatten.all isPadding = true := by
  simpa [List.all_flatten] using .inr (by simpa using hunit)

theorem dropWhile_atLevel (hunit : unit.all isPadding = true) :
    (atLevel unit level line).dropWhile isPadding = line.dropWhile isPadding := by
  rw [atLevel, Text.dropWhile_padding (all_isPadding_replicate hunit level),
    List.dropWhile_idempotent]

theorem endsWith_atLevel (hunit : unit.all isPadding = true) :
    (atLevel unit level line).endsWith '{' = line.endsWith '{' := by
  have hbrace : isPadding '{' = false := by decide
  calc (atLevel unit level line).endsWith '{'
      = Text.endsWith (line.dropWhile isPadding) '{' :=
        Text.endsWith_padding (all_isPadding_replicate hunit level) _ hbrace
    _ = Text.endsWith (line.takeWhile isPadding ++ line.dropWhile isPadding) '{' :=
        (Text.endsWith_padding List.all_takeWhile _ hbrace).symm
    _ = line.endsWith '{' := by rw [List.takeWhile_append_dropWhile]

theorem nextLevel_congr {previous' line' : Text}
    (hprevious : previous'.endsWith '{' = previous.endsWith '{')
    (hline : line'.dropWhile isPadding = line.dropWhile isPadding) :
    nextLevel level previous' line' = nextLevel level previous line := by
  rw [nextLevel, nextLevel, hprevious, hline]

/-- Padded lines have the levels of the lines they come from, whatever the levels at which they were
put. The induction is over the lines, for every end of the line before them. -/
theorem levels_zipWith_atLevel (hunit : unit.all isPadding = true) {previous' : Text}
    (hprevious : previous'.endsWith '{' = previous.endsWith '{') {others : List Nat}
    (hlength : others.length = lines.length) :
    levels level previous' (List.zipWith (atLevel unit) others lines) =
      levels level previous lines := by
  induction lines generalizing level previous previous' others with
  | nil => simp [levels]
  | cons line lines ih =>
    cases others with
    | nil => cases hlength
    | cons other others =>
      rw [List.zipWith_cons_cons, levels, levels,
        nextLevel_congr hprevious (dropWhile_atLevel hunit),
        ih (endsWith_atLevel hunit) (Nat.succ.inj hlength)]

theorem zipWith_atLevel_twice (hunit : unit.all isPadding = true) (l : List Nat) :
    List.zipWith (atLevel unit) l (List.zipWith (atLevel unit) l lines) =
      List.zipWith (atLevel unit) l lines := by
  induction lines generalizing l with
  | nil => simp
  | cons line lines ih =>
    cases l with
    | nil => rfl
    | cons level l =>
      rw [List.zipWith_cons_cons, List.zipWith_cons_cons, ih, atLevel, dropWhile_atLevel hunit,
        atLevel]

theorem map_dropWhile_zipWith_atLevel (hunit : unit.all isPadding = true) {l : List Nat}
    (hlength : l.length = lines.length) :
    (List.zipWith (atLevel unit) l lines).map (·.dropWhile isPadding) =
      lines.map (·.dropWhile isPadding) := by
  induction lines generalizing l with
  | nil => simp
  | cons line lines ih =>
    cases l with
    | nil => cases hlength
    | cons level l =>
      rw [List.zipWith_cons_cons, List.map_cons, List.map_cons, dropWhile_atLevel hunit,
        ih (Nat.succ.inj hlength)]

/-- Of the first lines of a text, as many as `k`, those that end in an opening brace. -/
def opened (lines : List Text) (k : Nat) : Nat := (lines.take k).countP (·.endsWith '{')

/-- Of the first lines of a text, as many as `k`, those that start with a closing brace behind their
padding. -/
def closed (lines : List Text) (k : Nat) : Nat :=
  (lines.take k).countP fun line => Text.startsWith (line.dropWhile isPadding) '}'

/-- As long as no more lines close a block than there are levels to leave, the level counts the
lines above that open one less those that close one. The induction is over the lines: the first of
them does not leave level zero, so the count may start from its level. -/
theorem getElem?_levels {k : Nat} (hk : k < lines.length)
    (hbalance : ∀ j ≤ k, closed lines (j + 1) ≤ level + opened (previous :: lines) (j + 1)) :
    (levels level previous lines)[k]? =
      some (level + opened (previous :: lines) (k + 1) - closed lines (k + 1)) := by
  induction lines generalizing level previous k with
  | nil => cases hk
  | cons line lines ih =>
    have hopened : ∀ j, opened (previous :: line :: lines) (j + 1) =
        opened (line :: lines) j + if previous.endsWith '{' then 1 else 0 := fun j => by
      rw [opened, List.take_succ_cons, List.countP_cons, opened]
    have hclosed : ∀ j, closed (line :: lines) (j + 1) =
        closed lines j + if Text.startsWith (line.dropWhile isPadding) '}' then 1 else 0 :=
      fun j => by rw [closed, List.take_succ_cons, List.countP_cons, closed]
    have hfirst := hbalance 0 (Nat.zero_le k)
    have hnone : opened (line :: lines) 0 = 0 ∧ closed lines 0 = 0 := by simp [opened, closed]
    have hnext : nextLevel level previous line +
          (if Text.startsWith (line.dropWhile isPadding) '}' then 1 else 0) =
        level + if previous.endsWith '{' then 1 else 0 := by
      rw [hopened, hclosed] at hfirst
      rw [nextLevel]
      split <;> split <;> simp_all
    cases k with
    | zero =>
      rw [levels, List.getElem?_cons_zero, hopened, hclosed, Option.some.injEq]
      omega
    | succ k =>
      have hrest : ∀ j ≤ k, closed lines (j + 1) ≤
          nextLevel level previous line + opened (line :: lines) (j + 1) := by
        intro j hj
        have := hbalance (j + 1) (Nat.succ_le_succ hj)
        rw [hopened, hclosed] at this
        omega
      rw [levels, List.getElem?_cons_succ, ih (Nat.lt_of_succ_lt_succ hk) hrest, hopened, hclosed,
        Option.some.injEq]
      omega

end Lines

section Texts
variable {i : Indent} {text base text' : Text}

/-- One level of padding, also where no text can be that long. -/
def unit (i : Indent) : Text := if i.spaces then List.replicate i.width ' ' else ['\t']

theorem unit?_eq_some_iff {u : Text} :
    i.unit? = some u ↔ u = i.unit ∧ i.unit.size ≤ Text.maxSize := by
  rw [unit?, unit]
  split
  · have hone : Text.size [' '] = 1 := rfl
    simp [Text.repeat?, Text.size_replicate (show Char.utf8Size ' ' = 1 from rfl), hone, eq_comm,
      and_comm]
  · simp [Text.maxSize, eq_comm, show Text.size ['\t'] = 1 from rfl]

theorem all_isPadding_unit : i.unit.all isPadding = true := by
  rw [unit]
  split
  · simp [isPadding]
  · rfl

/-- The level of a padding, whatever its width. -/
def levelOf (i : Indent) (padding : Text) : Nat := i.columnsOf padding / i.columns

/-- The levels of the lines of a text after the first. -/
def levelsIn (i : Indent) (text base : Text) : List Nat :=
  levels (i.levelOf base) (Text.split '\n' text).1 (Text.split '\n' text).2

theorem length_levelsIn : (i.levelsIn text base).length = (Text.split '\n' text).2.length :=
  length_levels

/-- The widths met on the way are widths of texts: the padding of the line on which the text lands
can be counted, one level of padding can exist and so can the padding of every line. -/
structure Fits (i : Indent) (text base : Text) : Prop where
  countable : i.columnsOf base < Numeral.bound
  level : i.unit.size ≤ Text.maxSize
  padding : ∀ k ∈ i.levelsIn text base, k * i.unit.size ≤ Text.maxSize

/-- A text with the lines after the first at their levels. -/
def reindented (i : Indent) (text base : Text) : Text :=
  Text.join '\n' (Text.split '\n' text).1
    (List.zipWith (atLevel i.unit) (i.levelsIn text base) (Text.split '\n' text).2)

theorem reindent?_eq_some_iff (h : '\x60' ∉ text) :
    i.reindent? text base = some text' ↔ i.Fits text base ∧ text' = i.reindented text base := by
  have hcontains : text.contains '\x60' = false := by simpa using h
  simp only [reindent?, hcontains, Bool.false_eq_true, if_false, Option.bind_eq_bind,
    Option.bind_eq_some_iff, Option.pure_def, Option.some.injEq, levelOf?, Option.map_eq_some_iff,
    Numeral.word?_eq_some_iff, unit?_eq_some_iff, padLines?_eq_some_iff]
  constructor
  · rintro ⟨_, ⟨rfl, hunit⟩, _, ⟨_, ⟨rfl, hcount⟩, rfl⟩, _, ⟨hall, rfl⟩, rfl⟩
    exact ⟨⟨hcount, hunit, hall⟩, rfl⟩
  · rintro ⟨hfits, rfl⟩
    exact ⟨_, ⟨rfl, hfits.level⟩, _, ⟨_, ⟨rfl, hfits.countable⟩, rfl⟩, _, ⟨hfits.padding, rfl⟩, rfl⟩

theorem split_reindented : Text.split '\n' (i.reindented text base) =
    ((Text.split '\n' text).1,
      List.zipWith (atLevel i.unit) (i.levelsIn text base) (Text.split '\n' text).2) := by
  refine Text.split_join (Text.not_mem_split text).1 fun piece hpiece => ?_
  rw [← List.map_uncurry_zip_eq_zipWith] at hpiece
  obtain ⟨⟨level, line⟩, hzip, rfl⟩ := List.mem_map.mp hpiece
  have hline := (Text.not_mem_split text).2 line (List.of_mem_zip hzip).2
  rw [Function.uncurry_apply_pair, atLevel, List.mem_append, not_or]
  exact ⟨Text.not_mem_of_isPadding (all_isPadding_replicate all_isPadding_unit level),
    fun h => hline ((List.dropWhile_sublist _).subset h)⟩

theorem lines_reindented : (i.reindented text base).lines =
    (Text.split '\n' text).1 ::
      List.zipWith (atLevel i.unit) (i.levelsIn text base) (Text.split '\n' text).2 := by
  rw [Text.lines, split_reindented]

theorem levelsIn_reindented : i.levelsIn (i.reindented text base) base = i.levelsIn text base := by
  rw [levelsIn, split_reindented]
  exact levels_zipWith_atLevel all_isPadding_unit rfl length_levelsIn

/-- A second indentation finds nothing to do. -/
theorem reindented_twice : i.reindented (i.reindented text base) base = i.reindented text base := by
  rw [reindented, levelsIn_reindented, split_reindented, zipWith_atLevel_twice all_isPadding_unit,
    ← reindented]

/-- What becomes of a text that is indented for a line padded with `base`: a text with a backtick
stays as it is, and any other has the lines it had, the first as it was and the others behind new
padding, which is as many levels deep as the braces above ask for; what comes out is left alone. -/
structure Reindented (i : Indent) (text base text' : Text) : Prop where
  template : '\x60' ∈ text → text' = text
  again : i.reindent? text' base = some text'
  count : text'.lines.length = text.lines.length
  first : text'.lines.head? = text.lines.head?
  behind : text'.lines.map (·.dropWhile isPadding) = text.lines.map (·.dropWhile isPadding)
  level : '\x60' ∉ text → ∀ k line, text.lines.tail[k]? = some line →
    (∀ j ≤ k, closed text.lines.tail (j + 1) ≤ i.levelOf base + opened text.lines (j + 1)) →
      text'.lines.tail[k]? = some (atLevel i.unit
        (i.levelOf base + opened text.lines (k + 1) - closed text.lines.tail (k + 1)) line)

theorem reindented_of_template (h : '\x60' ∈ text) : i.Reindented text base text where
  template _ := rfl
  again := by
    rw [reindent?, if_pos]
    simpa using h
  count := rfl
  first := rfl
  behind := rfl
  level hnone := absurd h hnone

/-- The backtick is ink, which no padding changes. -/
theorem template_mem_iff (h : i.reindent? text base = some text') :
    '\x60' ∈ text' ↔ '\x60' ∈ text := by
  have hink : ∀ t : Text, '\x60' ∈ t.ink ↔ '\x60' ∈ t := fun t => by
    rw [Text.ink, List.mem_filter]
    exact and_iff_left (by decide)
  rw [← hink, ink_reindent? h, hink]

theorem Fits.reindented (h : i.Fits text base) : i.Fits (i.reindented text base) base :=
  { h with padding := by rw [levelsIn_reindented]; exact h.padding }

theorem reindented_of_fits (hnone : '\x60' ∉ text) (hfits : i.Fits text base) :
    i.Reindented text base (i.reindented text base) where
  template h := absurd h hnone
  again := by
    have h : i.reindent? text base = some (i.reindented text base) :=
      (reindent?_eq_some_iff hnone).mpr ⟨hfits, rfl⟩
    rw [reindent?_eq_some_iff fun hin => hnone ((template_mem_iff h).mp hin)]
    exact ⟨hfits.reindented, reindented_twice.symm⟩
  count := by
    rw [lines_reindented, Text.lines, List.length_cons, List.length_zipWith, length_levelsIn,
      Nat.min_self, List.length_cons]
  first := by
    rw [lines_reindented, Text.lines, List.head?_cons, List.head?_cons]
  behind := by
    rw [lines_reindented, Text.lines, List.map_cons, List.map_cons,
      map_dropWhile_zipWith_atLevel all_isPadding_unit length_levelsIn]
  level _ k line hline hbalance := by
    rw [lines_reindented, List.tail_cons, levelsIn]
    have hk : k < (Text.split '\n' text).2.length := (List.getElem?_eq_some_iff.mp hline).1
    rw [List.getElem?_zipWith, getElem?_levels hk hbalance]
    rw [Text.lines, List.tail_cons] at hline
    rw [hline]
    rfl

end Texts

/-- The most bytes that a text can have while there is room for it to double. -/
def roomySize : Nat := 4611686018427387904

/-- What is met on the way has room: the padding of the line on which the text lands can be counted,
and neither one level of padding nor the text with all its lines padded is too long. -/
structure Roomy (i : Indent) (text base : Text) : Prop where
  countable : i.columnsOf base < Numeral.bound
  level : i.unit.size ≤ roomySize
  whole : (i.reindented text base).size ≤ roomySize

theorem Roomy.fits {i : Indent} {text base : Text} (h : i.Roomy text base) : i.Fits text base where
  countable := h.countable
  level := Nat.le_trans h.level (by decide)
  padding k hk := by
    obtain ⟨n, hn, rfl⟩ := List.mem_iff_getElem.mp hk
    have hline : n < (Text.split '\n' text).2.length := length_levelsIn (i := i) ▸ hn
    have hpadded : atLevel i.unit (i.levelsIn text base)[n] (Text.split '\n' text).2[n] ∈
        List.zipWith (atLevel i.unit) (i.levelsIn text base) (Text.split '\n' text).2 :=
      List.mem_iff_getElem.mpr ⟨n, by rw [List.length_zipWith]; omega, List.getElem_zipWith⟩
    calc (i.levelsIn text base)[n] * i.unit.size
        = Text.size (List.replicate (i.levelsIn text base)[n] i.unit).flatten :=
          (Text.size_replicate_flatten _ _).symm
      _ ≤ Text.size (atLevel i.unit (i.levelsIn text base)[n] (Text.split '\n' text).2[n]) := by
          rw [atLevel, Text.size_append]
          exact Nat.le_add_right _ _
      _ ≤ (i.reindented text base).size := Text.size_le_join _ _ hpadded
      _ ≤ Text.maxSize := Nat.le_trans h.whole (by decide)

/-- Indentation changes padding alone: it gives a text for every text for which there is room, and
whatever it gives has the lines of what it got behind the padding of their levels. An edit keeps its
place. -/
theorem reindent?_keeps_lines (i : Indent) :
    (∀ text base, '\x60' ∈ text ∨ i.Roomy text base →
      ∃ text', i.reindent? text base = some text') ∧
    (∀ text base text', i.reindent? text base = some text' → i.Reindented text base text') ∧
    ∀ source e e', i.reindentEdit? source e = some e' → e'.start = e.start ∧ e'.stop = e.stop := by
  refine ⟨fun text base h => ?_, fun text base text' h => ?_, fun source e e' h => ?_⟩
  · by_cases hin : '\x60' ∈ text
    · exact ⟨text, (reindented_of_template hin).again⟩
    · have hfits := (h.resolve_left hin).fits
      exact ⟨_, (reindent?_eq_some_iff hin).mpr ⟨hfits, rfl⟩⟩
  · by_cases hin : '\x60' ∈ text
    · have hsame : i.reindent? text base = some text := (reindented_of_template hin).again
      rw [hsame] at h
      cases h
      exact reindented_of_template hin
    · obtain ⟨hfits, rfl⟩ := (reindent?_eq_some_iff hin).mp h
      exact reindented_of_fits hin hfits
  · exact Prod.mk.inj (span_reindentEdit? h)

/-- A block that opens and closes, put on a line of two spaces. -/
theorem block_reindented :
    ({ width := 2 } : Indent).Roomy " \x7b\nfoo()\n\x7d".toList "  ".toList ∧
    ({ width := 2 } : Indent).reindent? " \x7b\nfoo()\n\x7d".toList "  ".toList =
      some " \x7b\n    foo()\n  \x7d".toList ∧
    ({ width := 2 } : Indent).Reindented " \x7b\nfoo()\n\x7d".toList "  ".toList
      " \x7b\n    foo()\n  \x7d".toList := by
  have hroomy : ({ width := 2 } : Indent).Roomy " \x7b\nfoo()\n\x7d".toList "  ".toList :=
    ⟨by decide, by decide, by decide⟩
  obtain ⟨hreturns, hkeeps, -⟩ := reindent?_keeps_lines { width := 2 }
  obtain ⟨text', h⟩ := hreturns _ _ (.inr hroomy)
  have htext : text' = " \x7b\n    foo()\n  \x7d".toList :=
    Option.some.inj (h.symm.trans (by decide))
  subst htext
  exact ⟨hroomy, h, hkeeps _ _ _ h⟩

/-- A level as wide as no text can be, though a word can count it: no line is indented at all. -/
theorem wideLevel_reindent? :
    ({ width := 9223372036854775808 } : Indent).columns < Numeral.bound ∧
    ({ width := 9223372036854775808 } : Indent).columnsOf [] < Numeral.bound ∧
    ({ width := 9223372036854775808 } : Indent).reindent? ['a'] [] = none := by
  decide

end Indent
end LogProbe
