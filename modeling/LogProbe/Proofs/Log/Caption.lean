import LogProbe.Log.Echo
import LogProbe.Proofs.Text.Cut
import Mathlib.Data.List.Chain

/-! Captions fit a literal in single quotes. A text is flat if it has no such quote and no white
space but single spaces. The text of a caption is made flat and then cut short; what is flat and
short stays as it is, and the log statement around it is a single line with two quotes up to the
expression that it echoes. -/
namespace LogProbe
namespace Caption
variable {t u : Text}

/-- No single quote, and white space as single spaces only. -/
structure IsFlat (t : Text) : Prop where
  noQuote : '\'' ∉ t
  onlySpaces : ∀ c ∈ t, isBlank c = true → c = ' '
  single : t.IsChain fun a b => ¬ (isBlank a = true ∧ isBlank b = true)

theorem onlySpaces_of_all (h : t.all (fun c => !isBlank c || c == ' ') = true) :
    ∀ c ∈ t, isBlank c = true → c = ' ' := by
  intro c hc hblank
  simpa [hblank] using List.all_eq_true.mp h c hc

/-- Where white space is single spaces only, no line ends. -/
theorem isLineBreak_eq_false {c : Char} (h : isBlank c = true → c = ' ') :
    isLineBreak c = false := by
  refine Bool.eq_false_iff.mpr fun hbreak => ?_
  simp only [isLineBreak, Bool.or_eq_true, beq_iff_eq] at hbreak
  rcases hbreak with ((rfl | rfl) | rfl) | rfl
  all_goals exact absurd (h (by decide)) (by decide)

namespace IsFlat

theorem of_isPrefix (h : IsFlat t) (hu : u <+: t) : IsFlat u where
  noQuote hmem := h.noQuote (hu.subset hmem)
  onlySpaces c hmem := h.onlySpaces c (hu.subset hmem)
  single := h.single.prefix hu

/-- Flat texts can be joined where the second one does not start with a blank. -/
theorem append (ht : IsFlat t) (hu : IsFlat u) (hhead : ∀ c ∈ u.head?, isBlank c = false) :
    IsFlat (t ++ u) where
  noQuote := by
    rw [List.mem_append, not_or]
    exact ⟨ht.noQuote, hu.noQuote⟩
  onlySpaces c hmem := by
    rcases List.mem_append.mp hmem with hmem | hmem
    · exact ht.onlySpaces c hmem
    · exact hu.onlySpaces c hmem
  single := by
    refine ht.single.append hu.single fun a _ b hb => ?_
    simp [hhead b hb]

theorem count_quote (h : IsFlat t) : t.count '\'' = 0 := List.count_eq_zero.mpr h.noQuote

end IsFlat

section Squeeze

theorem mem_squeeze {inRun : Bool} {c : Char} (hc : c ∈ squeeze inRun t) :
    c = ' ' ∨ c ∈ t ∧ isBlank c = false := by
  induction t generalizing inRun with
  | nil => simp [squeeze] at hc
  | cons d t ih =>
    have htail {inRun : Bool} (hc : c ∈ squeeze inRun t) :
        c = ' ' ∨ c ∈ d :: t ∧ isBlank c = false :=
      (ih hc).imp_right fun ⟨hmem, hblank⟩ => ⟨List.mem_cons_of_mem d hmem, hblank⟩
    rw [squeeze] at hc
    split at hc
    · split at hc
      · exact htail hc
      · rcases List.mem_cons.mp hc with rfl | hc
        · exact .inl rfl
        · exact htail hc
    · rename_i hblank
      rcases List.mem_cons.mp hc with rfl | hc
      · exact .inr ⟨List.mem_cons_self, by simpa using hblank⟩
      · exact htail hc

/-- No blank is next to another one, nor next to the run that is under way. -/
theorem isChain_squeeze (inRun : Bool) (t : Text) :
    (squeeze inRun t).IsChain (fun a b => ¬ (isBlank a = true ∧ isBlank b = true)) ∧
      (inRun = true → ∀ c ∈ (squeeze inRun t).head?, isBlank c = false) := by
  induction t generalizing inRun with
  | nil => simp [squeeze]
  | cons d t ih =>
    rw [squeeze]
    split
    · cases inRun with
      | true => exact ih true
      | false =>
        obtain ⟨hchain, hhead⟩ := ih true
        refine ⟨hchain.cons fun c hc => ?_, by simp⟩
        simp [hhead rfl c hc]
    · rename_i hblank
      refine ⟨(ih false).1.cons fun c _ => ?_, fun _ => ?_⟩
      · simp [hblank]
      · simpa using hblank

theorem squeeze_of_isChain (hspaces : ∀ c ∈ t, isBlank c = true → c = ' ')
    (h : t.IsChain fun a b => ¬ (isBlank a = true ∧ isBlank b = true)) {inRun : Bool}
    (hhead : inRun = true → ∀ c ∈ t.head?, isBlank c = false) : squeeze inRun t = t := by
  induction t generalizing inRun with
  | nil => rfl
  | cons c t ih =>
    obtain ⟨hnext, hchain⟩ := List.isChain_cons.mp h
    have hrest := fun d hd => hspaces d (List.mem_cons_of_mem c hd)
    rw [squeeze]
    split
    · rename_i hblank
      have hfirst : ¬ inRun = true := fun hrun => by
        simp [hhead hrun c rfl] at hblank
      have hbehind : ∀ d ∈ t.head?, isBlank d = false := fun d hd => by
        simpa [hblank] using hnext d hd
      rw [if_neg hfirst, ih hrest hchain fun _ => hbehind,
        hspaces c List.mem_cons_self hblank]
    · rw [ih hrest hchain (by simp)]

end Squeeze

theorem isFlat_escape (t : Text) : IsFlat (escape t) where
  noQuote hmem := by
    rcases mem_squeeze hmem with hspace | ⟨hmem, -⟩
    · exact absurd hspace (by decide)
    · obtain ⟨c, -, hc⟩ := List.mem_map.mp hmem
      split at hc
      · exact absurd hc (by decide)
      · contradiction
  onlySpaces c hmem hblank := by
    rcases mem_squeeze hmem with hspace | ⟨-, hnot⟩
    · exact hspace
    · exact absurd hblank (by simp [hnot])
  single := (isChain_squeeze false _).1

theorem dropBreaks_of_not_mem (h : '\n' ∉ t) : dropBreaks t = t := by
  induction t with
  | nil => rfl
  | cons c t ih =>
    rw [List.mem_cons, not_or] at h
    have hrest := ih h.2
    rw [dropBreaks]
    · rw [if_neg (Ne.symm h.1), hrest]
    · rintro rest - rfl
      simp at h

theorem requote_of_not_mem (h : '\'' ∉ t) : requote t = t := by
  have hsame : ∀ c ∈ t, (if c = '\'' then '"' else c) = c := fun c hc =>
    if_neg fun (hquote : c = '\'') => h (hquote ▸ hc)
  rw [requote, List.map_congr_left hsame, List.map_id']

/-- A flat text stays as it is. -/
theorem IsFlat.escape_eq (h : IsFlat t) : escape t = t := by
  have hbreak : '\n' ∉ t := fun hmem => absurd (h.onlySpaces _ hmem (by decide)) (by decide)
  rw [escape, dropBreaks_of_not_mem hbreak, requote_of_not_mem h.noQuote,
    squeeze_of_isChain h.onlySpaces h.single (by simp)]

theorem keepWhole_le (pending : Nat) (t : Text) (cut : Nat) : keepWhole pending t cut ≤ cut := by
  induction t generalizing pending cut with
  | nil => simp [keepWhole]
  | cons c t ih =>
    cases cut with
    | zero => simp [keepWhole]
    | succ cut =>
      have hrest := fun pending => Nat.succ_le_succ (ih pending cut)
      cases pending with
      | succ pending => exact hrest pending
      | zero =>
        rw [keepWhole]
        split
        · simp only
          split
          · exact Nat.zero_le _
          · exact hrest _
        · exact hrest 0

/-- A short text is kept; of a long one the beginning is kept and a mark put behind it, which has
room within the limit. -/
theorem truncate_cases (t : Text) : t.length ≤ maxLength ∧ truncate t = t ∨
    ∃ kept mark, kept <+: t ∧ (mark = [ellipsis] ∨ mark = [ellipsis, ')']) ∧
      truncate t = kept ++ mark ∧ (kept ++ mark).length ≤ maxLength := by
  rw [truncate]
  split
  · rename_i hshort
    exact .inl ⟨hshort, rfl⟩
  · have hkept (cut : Nat) : (t.take (escapeBoundary t cut)).length ≤ cut :=
      Nat.le_trans (List.length_take_le _ _) (keepWhole_le 0 t cut)
    simp only
    split
    · refine .inr ⟨_, _, List.take_prefix _ _, .inr rfl, rfl, ?_⟩
      rw [List.length_append]
      exact Nat.add_le_add_right (hkept (maxLength - 2)) 2
    · refine .inr ⟨_, _, List.take_prefix _ _, .inl rfl, rfl, ?_⟩
      rw [List.length_append]
      exact Nat.add_le_add_right (hkept (maxLength - 1)) 1

theorem isFlat_of_mark {mark : Text} (h : mark = [ellipsis] ∨ mark = [ellipsis, ')']) :
    IsFlat mark ∧ ∀ c ∈ mark.head?, isBlank c = false := by
  rcases h with rfl | rfl
  all_goals
    refine ⟨⟨by decide, onlySpaces_of_all (by decide), by decide⟩, ?_⟩
    rintro _ ⟨⟩
    decide

/-- What is made of a flat text: a text that is flat too and short, so that neither flattening nor
shortening changes it any more. It is the flat text itself or the beginning of it with a mark. -/
structure IsShortened (flat caption : Text) : Prop where
  isFlat : IsFlat caption
  escape_eq : escape caption = caption
  length_le : caption.length ≤ maxLength
  truncate_eq : truncate caption = caption
  begins : caption = flat ∨
    ∃ kept, kept <+: flat ∧ (caption = kept ++ [ellipsis] ∨ caption = kept ++ [ellipsis, ')'])

theorem IsFlat.isShortened (h : IsFlat t) : IsShortened t (truncate t) := by
  have hparts : IsFlat (truncate t) ∧ (truncate t).length ≤ maxLength ∧ (truncate t = t ∨
      ∃ kept, kept <+: t ∧
        (truncate t = kept ++ [ellipsis] ∨ truncate t = kept ++ [ellipsis, ')'])) := by
    rcases truncate_cases t with ⟨hshort, heq⟩ | ⟨kept, mark, hkept, hmark, heq, hlength⟩
    · rw [heq]
      exact ⟨h, hshort, .inl rfl⟩
    · obtain ⟨hflat, hhead⟩ := isFlat_of_mark hmark
      rw [heq]
      refine ⟨(h.of_isPrefix hkept).append hflat hhead, hlength, .inr ⟨kept, hkept, ?_⟩⟩
      rcases hmark with rfl | rfl
      · exact .inl rfl
      · exact .inr rfl
  obtain ⟨hflat, hlength, hbegins⟩ := hparts
  exact ⟨hflat, hflat.escape_eq, hlength, if_pos hlength, hbegins⟩

theorem isFlat_ofText (t : Text) : IsFlat (ofText t) := (isFlat_escape t).isShortened.isFlat

/-- One line with two quotes, and white space as spaces only. -/
structure IsQuotedLine (t : Text) : Prop where
  quotes : t.count '\'' = 2
  onlySpaces : ∀ c ∈ t, isBlank c = true → c = ' '
  oneLine : ∀ c ∈ t, isLineBreak c = false

/-- A flat text between two others that have the quotes. -/
theorem IsFlat.isQuotedLine {before behind : Text} (h : IsFlat t)
    (hquotes : before.count '\'' + behind.count '\'' = 2)
    (hbefore : ∀ c ∈ before, isBlank c = true → c = ' ')
    (hbehind : ∀ c ∈ behind, isBlank c = true → c = ' ') :
    IsQuotedLine (before ++ t ++ behind) := by
  have hspaces : ∀ c ∈ before ++ t ++ behind, isBlank c = true → c = ' ' := by
    rw [List.forall_mem_append, List.forall_mem_append]
    exact ⟨⟨hbefore, h.onlySpaces⟩, hbehind⟩
  refine ⟨?_, hspaces, fun c hc => isLineBreak_eq_false (hspaces c hc)⟩
  rw [List.count_append, List.count_append, h.count_quote]
  exact hquotes

/-- With a flat caption, all of a log statement up to the expression is one line with two quotes. -/
theorem isQuotedLine_logStatement (h : IsFlat t) :
    (∀ expression, ∃ lead, logStatement t (some expression) = lead ++ expression ++ [')'] ∧
      IsQuotedLine lead) ∧ IsQuotedLine (logStatement t none) := by
  refine ⟨fun expression => ⟨_, rfl, h.isQuotedLine (by decide) ?_ ?_⟩,
    h.isQuotedLine (by decide) ?_ ?_⟩
  all_goals exact onlySpaces_of_all (by decide)

/-- Every text is made flat, and every caption is a short flat text; so a log statement has one line
and two quotes in front of the expression that it echoes. -/
theorem fits_literal (t : Text) :
    (IsFlat (escape t) ∧ escape (escape t) = escape t) ∧
      IsShortened (escape t) (ofText t) ∧
      (∀ expression, ∃ lead,
        logStatement (ofText t) (some expression) = lead ++ expression ++ [')'] ∧
          IsQuotedLine lead) ∧
      IsQuotedLine (logStatement (ofText t) none) := by
  have hflat := isFlat_escape t
  have hcaption : IsShortened (escape t) (ofText t) := hflat.isShortened
  exact ⟨⟨hflat, hflat.escape_eq⟩, hcaption, isQuotedLine_logStatement hcaption.isFlat⟩

example : escape "foo(\n  'a',\r\n\t b)".toList = "foo( \"a\", b)".toList := by decide

end Caption

/-- The caption of every echo is flat, be it cut short or, as that of a function's name, not. -/
theorem Echo.isFlat_caption {source : Text} {target : Place} {e : Echo}
    (h : ofTarget? source target = some e) : Caption.IsFlat e.caption := by
  have hsource {n : Node} {e : Echo} (h : (n.text? source).map ofSource = some e) :
      Caption.IsFlat e.caption := by
    obtain ⟨text, -, rfl⟩ := Option.map_eq_some_iff.mp h
    exact Caption.isFlat_ofText text
  have hbinding {n : Node} {e : Echo} (h : ofBinding? source n = some e) :
      Caption.IsFlat e.caption := by
    obtain ⟨text, -, h⟩ := Option.bind_eq_some_iff.mp h
    obtain ⟨value, -, h⟩ := Option.bind_eq_some_iff.mp h
    cases h
    exact Caption.isFlat_ofText text
  rw [ofTarget?] at h
  split at h
  · obtain ⟨text, -, rfl⟩ := Option.map_eq_some_iff.mp h
    exact Caption.isFlat_escape text
  · split at h
    · obtain ⟨text, -, h⟩ := Option.bind_eq_some_iff.mp h
      obtain ⟨value, -, h⟩ := Option.bind_eq_some_iff.mp h
      cases h
      exact Caption.isFlat_ofText text
    · split at h
      · exact hsource h
      · split at h
        · exact hbinding h
        · split at h
          · exact hbinding h
          · exact hsource h

end LogProbe
