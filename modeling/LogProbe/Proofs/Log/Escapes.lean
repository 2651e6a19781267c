import LogProbe.Proofs.Log.Truncation

/-! Escape sequences in captions. A text is whole if it can be read, from its start to its end, as
characters and complete escape sequences. Flattening leaves out line breaks and keeps the backslash
of a line continuation, which then takes what follows it into a sequence; apart from that whole
texts stay whole, also where they are cut short, and the literal around a whole caption ends behind
it. -/
namespace LogProbe
namespace Caption
variable {t u e : Text}

def hexDigits : List Char := "0123456789abcdefABCDEF".toList

def isHexDigit (c : Char) : Bool := hexDigits.contains c

/-- A character that is no backslash, or a complete escape sequence. A single character behind the
backslash may be a line break: the line is continued. -/
inductive IsToken : Text → Prop
  | char {c : Char} (plain : c ≠ '\\') : IsToken [c]
  | single {c : Char} (noByte : c ≠ 'x') (noUnit : c ≠ 'u') : IsToken ['\\', c]
  | byte {digits : Text} (count : digits.length = 2) (hex : digits.all isHexDigit = true) :
      IsToken ('\\' :: 'x' :: digits)
  | unit {digits : Text} (count : digits.length = 4) (hex : digits.all isHexDigit = true) :
      IsToken ('\\' :: 'u' :: digits)
  | point {digits : Text} (ne : digits ≠ []) (hex : digits.all isHexDigit = true) :
      IsToken ('\\' :: 'u' :: '{' :: (digits ++ ['}']))

/-- Every backslash that is read as the start of an escape sequence starts a complete one. -/
inductive IsWhole : Text → Prop
  | nil : IsWhole []
  | cons {e t : Text} (first : IsToken e) (rest : IsWhole t) : IsWhole (e ++ t)

/-- A text that starts with an escape sequence, but with no complete one. -/
def IsBroken (u : Text) : Prop := u ≠ [] ∧ ∀ e, IsToken e → ¬ e <+: u

/-- A line is continued: there is a line break behind the backslash of an escape sequence. -/
def HasContinuation (t : Text) : Prop :=
  ∃ a b, IsWhole a ∧ (t = a ++ '\\' :: '\n' :: b ∨ t = a ++ '\\' :: '\r' :: '\n' :: b)

theorem of_isHexDigit {c : Char} (h : isHexDigit c = true) :
    c ≠ '\\' ∧ c ≠ '{' ∧ c ≠ '}' ∧ c ≠ '\n' ∧ c ≠ '\r' ∧ isBlank c = false := by
  have hall : hexDigits.all (fun c => c != '\\' && c != '{' && c != '}' && c != '\n' &&
      c != '\r' && !isBlank c) = true := by decide
  have hc := List.all_eq_true.mp hall c (List.contains_iff_mem.mp h)
  simpa [and_assoc] using hc

theorem not_mem_of_hex {digits : Text} {c : Char} (h : digits.all isHexDigit = true)
    (hc : isHexDigit c = false) : c ∉ digits := fun hmem => by
  rw [List.all_eq_true.mp h c hmem] at hc
  cases hc

section Reading

/-- How far the reading of a token has come. -/
inductive Stage
  | between
  | slash
  /-- One more digit is missing than the number says. -/
  | digits (missing : Nat)
  | unit
  | point (started : Bool)
  deriving DecidableEq

namespace Stage

def next? : Stage → Char → Option Stage
  | between, c => some (if c = '\\' then slash else between)
  | slash, c => some (if c = 'x' then digits 1 else if c = 'u' then unit else between)
  | digits 0, c => if isHexDigit c then some between else none
  | digits (missing + 1), c => if isHexDigit c then some (digits missing) else none
  | unit, c =>
    if c = '{' then some (point false) else if isHexDigit c then some (digits 2) else none
  | point started, c =>
    if isHexDigit c then some (point true)
    else if started ∧ c = '}' then some between else none

/-- What can still follow when all tokens are to be complete in the end. -/
def Completes : Stage → Text → Prop
  | between, t => IsWhole t
  | slash, t => IsWhole ('\\' :: t)
  | digits missing, t => ∃ digits rest, t = digits ++ rest ∧ digits.length = missing + 1 ∧
      digits.all isHexDigit = true ∧ IsWhole rest
  | unit, t => IsWhole ('\\' :: 'u' :: t)
  | point started, t => ∃ digits rest, t = digits ++ '}' :: rest ∧
      digits.all isHexDigit = true ∧ (started = true ∨ digits ≠ []) ∧ IsWhole rest

theorem Completes.of_next? {s s' : Stage} {c : Char} (hnext : s.next? c = some s')
    (h : s'.Completes t) : s.Completes (c :: t) := by
  cases s with
  | between =>
    cases hnext
    by_cases hc : c = '\\'
    · rw [if_pos hc] at h
      rw [hc]
      exact h
    · rw [if_neg hc] at h
      exact .cons (.char hc) h
  | slash =>
    cases hnext
    by_cases hx : c = 'x'
    · rw [if_pos hx] at h
      obtain ⟨digits, rest, rfl, hcount, hhex, hrest⟩ := h
      rw [hx]
      exact .cons (.byte hcount hhex) hrest
    · by_cases hu : c = 'u'
      · rw [if_neg hx, if_pos hu] at h
        rw [hu]
        exact h
      · rw [if_neg hx, if_neg hu] at h
        exact .cons (.single hx hu) h
  | digits missing =>
    cases missing with
    | zero =>
      obtain ⟨hc, hs⟩ := Option.ite_none_right_eq_some.mp hnext
      cases hs
      exact ⟨[c], t, rfl, rfl, by simp [hc], h⟩
    | succ missing =>
      obtain ⟨hc, hs⟩ := Option.ite_none_right_eq_some.mp hnext
      cases hs
      obtain ⟨digits, rest, rfl, hcount, hhex, hrest⟩ := h
      exact ⟨c :: digits, rest, rfl, by simp [hcount], by simp [hc, hhex], hrest⟩
  | unit =>
    rw [next?] at hnext
    split at hnext
    · rename_i hc
      cases hnext
      obtain ⟨digits, rest, rfl, hhex, hsome, hrest⟩ := h
      have hpoint := IsWhole.cons (.point (hsome.resolve_left (by simp)) hhex) hrest
      rw [hc]
      simpa [Completes] using hpoint
    · obtain ⟨hc, hs⟩ := Option.ite_none_right_eq_some.mp hnext
      cases hs
      obtain ⟨digits, rest, rfl, hcount, hhex, hrest⟩ := h
      have hunit : IsToken ('\\' :: 'u' :: c :: digits) :=
        .unit (by simp [hcount]) (by simp [hc, hhex])
      exact .cons hunit hrest
  | point started =>
    rw [next?] at hnext
    split at hnext
    · rename_i hc
      cases hnext
      obtain ⟨digits, rest, rfl, hhex, -, hrest⟩ := h
      exact ⟨c :: digits, rest, rfl, by simp [hc, hhex], .inr (by simp), hrest⟩
    · obtain ⟨⟨hstarted, rfl⟩, hs⟩ := Option.ite_none_right_eq_some.mp hnext
      cases hs
      exact ⟨[], t, rfl, rfl, .inl hstarted, h⟩

end Stage

def read? (s : Stage) (t : Text) : Option Stage := t.foldlM Stage.next? s

theorem read?_cons (s : Stage) (c : Char) (t : Text) :
    read? s (c :: t) = (s.next? c).bind (read? · t) := rfl

theorem read?_append (s : Stage) (t u : Text) :
    read? s (t ++ u) = (read? s t).bind (read? · u) := List.foldlM_append

theorem completes_of_read? {s : Stage} (h : read? s t = some .between) : s.Completes t := by
  induction t generalizing s with
  | nil =>
    cases h
    exact .nil
  | cons c t ih =>
    obtain ⟨s', hnext, hrest⟩ := Option.bind_eq_some_iff.mp h
    exact (ih hrest).of_next? hnext

theorem read?_digits {digits : Text} {missing : Nat} (hcount : digits.length = missing + 1)
    (hhex : digits.all isHexDigit = true) : read? (.digits missing) digits = some .between := by
  induction digits generalizing missing with
  | nil => cases hcount
  | cons c digits ih =>
    rw [List.all_cons, Bool.and_eq_true] at hhex
    rw [List.length_cons, Nat.add_right_cancel_iff] at hcount
    rw [read?_cons]
    cases missing with
    | zero =>
      obtain rfl := List.eq_nil_of_length_eq_zero hcount
      simp [Stage.next?, hhex.1, read?]
    | succ missing =>
      simp only [Stage.next?, hhex.1, if_true, Option.bind_some]
      exact ih hcount hhex.2

theorem read?_point {digits : Text} (hhex : digits.all isHexDigit = true) (started : Bool)
    (h : started = true ∨ digits ≠ []) :
    read? (.point started) (digits ++ ['}']) = some .between := by
  induction digits generalizing started with
  | nil =>
    have hstarted : started = true := h.resolve_right (by simp)
    rw [hstarted]
    decide
  | cons c digits ih =>
    rw [List.all_cons, Bool.and_eq_true] at hhex
    rw [List.cons_append, read?_cons]
    simp only [Stage.next?, hhex.1, if_true, Option.bind_some]
    exact ih hhex.2 true (.inl rfl)

theorem IsToken.read? (h : IsToken e) : read? .between e = some .between := by
  cases h with
  | char plain => simp [Caption.read?, Stage.next?, plain]
  | single noByte noUnit => simp [Caption.read?, Stage.next?, noByte, noUnit]
  | byte count hex => exact read?_digits count hex
  | @unit digits count hex =>
    -- the first digit is read where a brace could stand as well
    cases digits with
    | nil => cases count
    | cons c digits =>
      rw [List.all_cons, Bool.and_eq_true] at hex
      have hbrace : c ≠ '{' := (of_isHexDigit hex.1).2.1
      change (Stage.unit.next? c).bind (Caption.read? · digits) = _
      simp only [Stage.next?, hbrace, hex.1, if_false, if_true, Option.bind_some]
      exact read?_digits (Nat.succ.inj count) hex.2
  | point ne hex => exact read?_point hex false (.inr ne)

/-- The whole texts are those that are read to the end, and not within a token. -/
theorem isWhole_iff_read? : IsWhole t ↔ read? .between t = some .between := by
  refine ⟨fun h => ?_, completes_of_read?⟩
  induction h with
  | nil => rfl
  | cons first rest ih => rw [read?_append, first.read?, Option.bind_some, ih]

instance (t : Text) : Decidable (IsWhole t) := decidable_of_iff _ isWhole_iff_read?.symm

end Reading

section Flatten

theorem next?_quote (s : Stage) : s.next? '\'' = s.next? '"' := by
  cases s with
  | digits missing => cases missing <;> rfl
  | point started => cases started <;> rfl
  | _ => rfl

theorem read?_requote (s : Stage) (t : Text) : read? s (requote t) = read? s t := by
  induction t generalizing s with
  | nil => rfl
  | cons c t ih =>
    have hnext : s.next? (if c = '\'' then '"' else c) = s.next? c := by
      split
      · rename_i hquote
        rw [hquote, next?_quote]
      · rfl
    rw [requote, List.map_cons, read?_cons, read?_cons, hnext]
    exact congrArg _ (funext ih)

/-- White space stands between tokens or behind a backslash, and ends the token there. -/
theorem next?_of_isBlank {c : Char} (h : isBlank c = true) (s : Stage) :
    s.next? c = if s = .between ∨ s = .slash then some .between else none := by
  have hhex : isHexDigit c = false := by
    rw [Bool.eq_false_iff]
    intro hhex
    rw [(of_isHexDigit hhex).2.2.2.2.2] at h
    cases h
  have hne (d : Char) (hd : isBlank d = false) : c ≠ d := by
    rintro rfl
    rw [hd] at h
    cases h
  cases s with
  | digits missing => cases missing <;> simp [Stage.next?, hhex]
  | point started => simp [Stage.next?, hhex, hne '}' (by decide)]
  | between => simp [Stage.next?, hne '\\' (by decide)]
  | slash => simp [Stage.next?, hne 'x' (by decide), hne 'u' (by decide)]
  | unit => simp [Stage.next?, hhex, hne '{' (by decide)]

/-- Behind a blank of a run the reading stands between tokens, where more of them do nothing. -/
theorem read?_squeeze (t : Text) :
    (∀ s, read? s (squeeze false t) = read? s t) ∧
      read? .between (squeeze true t) = read? .between t := by
  induction t with
  | nil => exact ⟨fun _ => rfl, rfl⟩
  | cons c t ih =>
    obtain ⟨hrest, hrun⟩ := ih
    by_cases hblank : isBlank c = true
    · have hspace : isBlank ' ' = true := by decide
      constructor
      · intro s
        rw [squeeze, if_pos hblank, if_neg (by simp), read?_cons, read?_cons,
          next?_of_isBlank hspace, next?_of_isBlank hblank]
        split
        · exact hrun
        · rfl
      · rw [squeeze, if_pos hblank, if_pos rfl, read?_cons, next?_of_isBlank hblank]
        exact hrun
    · have hcons (inRun : Bool) (s : Stage) :
          read? s (squeeze inRun (c :: t)) = read? s (c :: t) := by
        rw [squeeze, if_neg hblank, read?_cons, read?_cons]
        exact congrArg _ (funext hrest)
      exact ⟨hcons false, hcons true .between⟩

/-- Of flattening, only that line breaks are left out tells on the tokens. -/
theorem isWhole_escape_iff : IsWhole (escape t) ↔ IsWhole (dropBreaks t) := by
  rw [isWhole_iff_read?, isWhole_iff_read?, escape, (read?_squeeze _).1, read?_requote]

theorem dropBreaks_append (hfeed : '\n' ∉ e) (hreturn : '\r' ∉ e) (t : Text) :
    dropBreaks (e ++ t) = e ++ dropBreaks t := by
  induction e with
  | nil => rfl
  | cons c e ih =>
    rw [List.mem_cons, not_or] at hfeed hreturn
    rw [List.cons_append, dropBreaks, if_neg (Ne.symm hfeed.1), ih hfeed.2 hreturn.2,
      List.cons_append]
    rintro rest rfl
    exact absurd rfl hreturn.1

/-- A character is kept unless it is part of a line break. -/
theorem dropBreaks_cons (c : Char) (t : Text) :
    dropBreaks (c :: t) = dropBreaks t ∨ dropBreaks (c :: t) = c :: dropBreaks t := by
  by_cases hbreak : c = '\r' ∧ ∃ rest, t = '\n' :: rest
  · obtain ⟨rfl, rest, rfl⟩ := hbreak
    left
    simp [dropBreaks]
  · rw [dropBreaks]
    · split
      · exact .inl rfl
      · exact .inr rfl
    · rintro rest rfl rfl
      exact hbreak ⟨rfl, rest, rfl⟩

/-- Without line continuations all sequences are left as they are. -/
theorem IsWhole.dropBreaks (h : IsWhole t) (hnone : ¬ HasContinuation t) :
    IsWhole (Caption.dropBreaks t) := by
  induction h with
  | nil => exact .nil
  | @cons e t first rest ih =>
    have hrest : IsWhole (Caption.dropBreaks t) := by
      refine ih fun ⟨a, b, ha, hb⟩ => hnone ⟨e ++ a, b, .cons first ha, ?_⟩
      exact hb.imp (fun h => by rw [h, List.append_assoc]) (fun h => by rw [h, List.append_assoc])
    have hkept (hfeed : '\n' ∉ e) (hreturn : '\r' ∉ e) :
        IsWhole (Caption.dropBreaks (e ++ t)) := by
      rw [dropBreaks_append hfeed hreturn]
      exact .cons first hrest
    cases first with
    | @char c plain =>
      rcases dropBreaks_cons c t with hdrop | hkeep
      · exact hdrop ▸ hrest
      · exact hkeep ▸ .cons (.char plain) hrest
    | @single c noByte noUnit =>
      have hslash : Caption.dropBreaks ('\\' :: c :: t) = '\\' :: Caption.dropBreaks (c :: t) :=
        dropBreaks_append (e := ['\\']) (by simp) (by simp) (c :: t)
      have hfeed : c ≠ '\n' := by
        rintro rfl
        exact hnone ⟨[], t, .nil, .inl rfl⟩
      have hreturn : ∀ after, c = '\r' → t = '\n' :: after → False := by
        rintro after rfl rfl
        exact hnone ⟨[], after, .nil, .inr rfl⟩
      have hchar : Caption.dropBreaks (c :: t) = c :: Caption.dropBreaks t := by
        rw [Caption.dropBreaks, if_neg hfeed]
        exact hreturn
      change IsWhole (Caption.dropBreaks ('\\' :: c :: t))
      rw [hslash, hchar]
      exact .cons (.single noByte noUnit) hrest
    | byte _ hex | unit _ hex | point _ hex =>
      apply hkept
      · simp [not_mem_of_hex hex (c := '\n') (by decide)]
      · simp [not_mem_of_hex hex (c := '\r') (by decide)]

end Flatten

section Cut

theorem IsWhole.append_iff (h : IsWhole t) : IsWhole (t ++ u) ↔ IsWhole u := by
  rw [isWhole_iff_read?, isWhole_iff_read?, read?_append, isWhole_iff_read?.mp h, Option.bind_some]

theorem IsToken.tokenLength_eq (h : IsToken e) (t : Text) :
    tokenLength (e ++ t) = e.length := by
  have hescape {u : Text} : tokenLength ('\\' :: u) = escapeLength ('\\' :: u) := if_pos rfl
  cases h with
  | char plain => exact if_neg (by simpa [Text.startsWith] using plain)
  | @single c noByte noUnit =>
    rw [List.cons_append, hescape, escapeLength]
    simp only [List.drop_succ_cons, List.drop_zero, List.cons_append]
    split <;> simp_all
  | byte count hex =>
    rw [List.cons_append, hescape]
    simp [escapeLength, count]
  | @unit digits count hex =>
    cases digits with
    | nil => cases count
    | cons c digits =>
      rw [List.all_cons, Bool.and_eq_true] at hex
      have hbrace : c ≠ '{' := (of_isHexDigit hex.1).2.1
      rw [List.cons_append, hescape, escapeLength]
      simp only [List.drop_succ_cons, List.drop_zero, List.cons_append]
      split <;> simp_all
  | @point digits ne hex =>
    have hdigits : ∀ c ∈ digits, (c != '}') = true := fun c hc =>
      bne_iff_ne.mpr (of_isHexDigit (List.all_eq_true.mp hex c hc)).2.2.1
    have htake : (digits ++ '}' :: t).takeWhile (· != '}') = digits := by
      rw [List.takeWhile_append_of_pos hdigits, List.takeWhile_cons_of_neg (by simp)]
      exact List.append_nil digits
    rw [List.cons_append, hescape]
    simp [escapeLength, htake]

theorem IsToken.ne_nil (h : IsToken e) : e ≠ [] := by
  rintro rfl
  cases h

/-- Every text is whole up to where it ends or breaks. -/
theorem exists_whole (u : Text) :
    ∃ whole rest, u = whole ++ rest ∧ IsWhole whole ∧ (rest = [] ∨ IsBroken rest) := by
  by_cases hnil : u = []
  · exact ⟨[], [], hnil, .nil, .inl rfl⟩
  · by_cases htoken : ∃ e, IsToken e ∧ e <+: u
    · obtain ⟨e, he, t, hu⟩ := htoken
      have hshorter : t.length < u.length := by
        rw [← hu, List.length_append]
        exact Nat.lt_add_of_pos_left (List.length_pos_iff.mpr he.ne_nil)
      obtain ⟨whole, rest, rfl, hwhole, hrest⟩ := exists_whole t
      exact ⟨e ++ whole, rest, by rw [← hu, List.append_assoc], .cons he hwhole, hrest⟩
    · exact ⟨[], u, rfl, .nil, .inr ⟨hnil, fun e he hfront => htoken ⟨e, he, hfront⟩⟩⟩
termination_by u.length

theorem IsBroken.not_isWhole (h : IsBroken u) (hnil : t ≠ []) (ht : t <+: u) : ¬ IsWhole t := by
  intro hwhole
  cases hwhole with
  | nil => exact hnil rfl
  | cons first _ => exact h.2 _ first ((List.prefix_append _ _).trans ht)

/-- No incomplete escape sequence of a text starts in its part `kept`. -/
def StaysWhole (t kept : Text) : Prop :=
  ∀ whole broken, t = whole ++ broken → IsWhole whole → IsBroken broken → kept <+: whole

/-- A part that ends within no token is whole exactly if none of its sequences is incomplete. -/
theorem isWhole_iff_staysWhole {kept : Text} (hkept : kept <+: t)
    (hsplit : ∀ whole rest, t = whole ++ rest → IsWhole whole → IsWhole kept ∨ whole <+: kept) :
    IsWhole kept ↔ StaysWhole t kept := by
  constructor
  · rintro h whole broken rfl hwhole hbroken
    rcases List.prefix_or_prefix_of_prefix hkept (List.prefix_append _ _) with hin | ⟨m, rfl⟩
    · exact hin
    · have hm : m <+: broken := (List.prefix_append_right_inj whole).mp hkept
      have hnil : m = [] := Classical.byContradiction fun hne =>
        hbroken.not_isWhole hne hm (hwhole.append_iff.mp h)
      exact ⟨[], by rw [hnil, List.append_nil, List.append_nil]⟩
  · intro h
    obtain ⟨whole, rest, rfl, hwhole, hrest⟩ := exists_whole t
    have hin : kept <+: whole := by
      rcases hrest with rfl | hbroken
      · rwa [List.append_nil] at hkept
      · exact h whole rest rfl hwhole hbroken
    rcases hsplit whole rest rfl hwhole with h | hout
    · exact h
    · rwa [hin.eq_of_length_le hout.length_le]

/-- The recursion is that of the tokens in front of the cut. -/
theorem isWhole_take_or_le (hwhole : IsWhole t) {cut : Nat} (hcut : cut ≤ (t ++ u).length) :
    IsWhole ((t ++ u).take (escapeBoundary (t ++ u) cut)) ∨
      t.length ≤ escapeBoundary (t ++ u) cut := by
  induction hwhole generalizing cut with
  | nil => exact .inr (Nat.zero_le _)
  | @cons e t first rest ih =>
    rw [List.append_assoc]
    rw [List.append_assoc, List.length_append] at hcut
    have htoken := first.tokenLength_eq (t ++ u)
    by_cases hlt : cut < e.length
    · rw [escapeBoundary_of_lt (htoken.symm ▸ hlt), List.take_zero]
      exact .inl .nil
    · have hle : tokenLength (e ++ (t ++ u)) ≤ cut := htoken.symm ▸ Nat.le_of_not_lt hlt
      rw [escapeBoundary_of_le hle (by rwa [List.length_append]), htoken, List.drop_left,
        List.take_length_add_append, List.length_append]
      exact (ih (by omega)).imp (.cons first) fun h => by omega

/-- What a caption keeps of a flat text, which is all of a short one. -/
theorem exists_kept (t : Text) : ∃ kept mark, truncate t = kept ++ mark ∧ kept <+: t ∧
    (mark = [] ∧ kept = t ∨ mark = [ellipsis] ∨ mark = [ellipsis, ')']) ∧
    (IsWhole kept ↔ StaysWhole t kept) := by
  by_cases hlong : maxLength < t.length
  · obtain ⟨inner, last, hcuts⟩ := exists_cuts hlong
    have hcut {kept : Text} {cut : Nat} (hle : cut ≤ maxLength)
        (hkept : kept = t.take (escapeBoundary t cut)) :
        kept <+: t ∧ (IsWhole kept ↔ StaysWhole t kept) := by
      have hfront : kept <+: t := hkept ▸ List.take_prefix _ _
      refine ⟨hfront, isWhole_iff_staysWhole hfront ?_⟩
      rintro whole rest rfl hwhole
      have hroom : cut ≤ (whole ++ rest).length := Nat.le_trans hle (Nat.le_of_lt hlong)
      rw [hkept]
      exact (isWhole_take_or_le hwhole hroom).imp_right fun h =>
        (List.prefix_take_iff).mpr ⟨List.prefix_append _ _, h⟩
    rw [hcuts.truncate_eq hlong]
    split
    · obtain ⟨hfront, hiff⟩ := hcut (Nat.sub_le _ _) hcuts.inner_eq
      exact ⟨inner, _, rfl, hfront, .inr (.inr rfl), hiff⟩
    · obtain ⟨hfront, hiff⟩ := hcut (Nat.sub_le _ _) hcuts.outer_eq
      exact ⟨inner ++ last, _, rfl, hfront, .inr (.inl rfl), hiff⟩
  · have hsame : truncate t = t := if_pos (Nat.le_of_not_lt hlong)
    refine ⟨t, [], by rw [hsame, List.append_nil], List.prefix_rfl, .inl ⟨rfl, rfl⟩,
      isWhole_iff_staysWhole List.prefix_rfl fun whole rest h _ => ?_⟩
    exact .inr (h ▸ List.prefix_append _ _)

theorem IsWhole.staysWhole {kept : Text} (h : IsWhole t) : StaysWhole t kept := by
  rintro whole broken rfl hwhole hbroken
  exact absurd (hwhole.append_iff.mp h) (hbroken.not_isWhole hbroken.1 List.prefix_rfl)

end Cut

section Literal

/-- Reads a literal in single quotes up to its end: what stands in it, and what comes behind. -/
def literal? : Stage → Text → Option (Text × Text)
  | _, [] => none
  | s, c :: t =>
    if s = .between ∧ c = '\'' then some ([], t)
    else (s.next? c).bind fun s => (literal? s t).map fun (inside, behind) => (c :: inside, behind)

theorem literal?_append {s : Stage} (h : read? s t = some .between) (hquote : '\'' ∉ t)
    (rest : Text) : literal? s (t ++ '\'' :: rest) = some (t, rest) := by
  induction t generalizing s with
  | nil =>
    cases h
    exact if_pos ⟨rfl, rfl⟩
  | cons c t ih =>
    rw [List.mem_cons, not_or] at hquote
    obtain ⟨s', hnext, hrest⟩ := Option.bind_eq_some_iff.mp h
    have hplain : ¬ (s = .between ∧ c = '\'') := fun hend => hquote.1 hend.2.symm
    rw [List.cons_append, literal?, if_neg hplain, hnext, Option.bind_some, ih hrest hquote.2]
    rfl

/-- The literal of a log statement with this caption, with or without an expression, is read up to
the quote that is meant to close it. -/
def EndsLiteral (caption : Text) : Prop :=
  ∀ expression, ∃ inside behind,
    logStatement caption expression = "console.log('".toList ++ inside ++ '\'' :: behind ∧
      "*** ".toList ++ caption <+: inside ∧ literal? .between (inside ++ '\'' :: behind) =
        some (inside, behind)

theorem endsLiteral_of_isWhole (hflat : IsFlat t) (h : IsWhole t) : EndsLiteral t := by
  have hread {tail : Text} (htail : IsWhole tail) (hquote : '\'' ∉ tail) (behind : Text) :
      literal? .between ("*** ".toList ++ (t ++ tail) ++ '\'' :: behind) =
        some ("*** ".toList ++ (t ++ tail), behind) := by
    refine literal?_append (isWhole_iff_read?.mp ?_) ?_ behind
    · have hlead : IsWhole "*** ".toList := by decide
      rw [hlead.append_iff, h.append_iff]
      exact htail
    · have hlead : '\'' ∉ "*** ".toList := by decide
      simp only [List.mem_append, not_or]
      exact ⟨hlead, hflat.noQuote, hquote⟩
  have hfront (tail : Text) : "*** ".toList ++ t <+: "*** ".toList ++ (t ++ tail) :=
    (List.prefix_append_right_inj _).mpr (List.prefix_append t tail)
  have hopen : "console.log('*** ".toList = "console.log('".toList ++ "*** ".toList := by decide
  have hclose : "')".toList = '\'' :: [')'] := by decide
  have hmark : " »', ".toList = " »".toList ++ '\'' :: ", ".toList := by decide
  intro expression
  cases expression with
  | none =>
    have hlog : logStatement t none =
        "console.log('".toList ++ ("*** ".toList ++ (t ++ [])) ++ '\'' :: [')'] := by
      change "console.log('*** ".toList ++ t ++ "')".toList = _
      rw [hopen, hclose]
      simp only [List.append_assoc, List.nil_append]
    exact ⟨_, _, hlog, hfront [], hread .nil List.not_mem_nil [')']⟩
  | some expression =>
    have hlog : logStatement t (some expression) =
        "console.log('".toList ++ ("*** ".toList ++ (t ++ " »".toList)) ++
          '\'' :: (", ".toList ++ expression ++ [')']) := by
      change "console.log('*** ".toList ++ t ++ " »', ".toList ++ expression ++ [')'] = _
      rw [hopen, hmark]
      simp only [List.append_assoc, List.cons_append]
    have htail : IsWhole " »".toList := by decide
    have hquote : '\'' ∉ " »".toList := by decide
    exact ⟨_, _, hlog, hfront " »".toList, hread htail hquote _⟩

end Literal

/-- The caption of a whole text is whole exactly if no escape sequence of the flattened text that
starts in the part kept is incomplete. So it is if the source without its line breaks is whole,
which it always is without line continuations; and the literal around a whole caption ends behind
it. -/
theorem escapes_whole_iff (hsource : IsWhole t) :
    ∃ kept mark, ofText t = kept ++ mark ∧ kept <+: escape t ∧
      (mark = [] ∧ kept = escape t ∨ mark = [ellipsis] ∨ mark = [ellipsis, ')']) ∧
      (IsWhole kept ↔ StaysWhole (escape t) kept) ∧
      (IsWhole (escape t) ↔ IsWhole (dropBreaks t)) ∧
      (IsWhole (dropBreaks t) → IsWhole kept) ∧
      (¬ HasContinuation t → IsWhole (dropBreaks t)) ∧
      (IsWhole kept → EndsLiteral (ofText t)) := by
  obtain ⟨kept, mark, htruncate, hfront, hmark, hiff⟩ := exists_kept (escape t)
  refine ⟨kept, mark, htruncate, hfront, hmark, hiff, isWhole_escape_iff,
    fun h => hiff.mpr (isWhole_escape_iff.mpr h).staysWhole, hsource.dropBreaks, fun h => ?_⟩
  refine endsLiteral_of_isWhole (isFlat_ofText t) ?_
  rw [ofText, htruncate, h.append_iff]
  rcases hmark with ⟨rfl, -⟩ | rfl | rfl
  all_goals decide

/-- A call with an escape sequence where its caption is cut. -/
def accentCall : Text := "foo(\"aaaaaaaaaaaaaaaaaaaaa\\u00e9\")".toList

theorem accentCall_whole : IsWhole accentCall ∧
    ofText accentCall = "foo(\"aaaaaaaaaaaaaaaaaaaaa⋯)".toList ∧
      EndsLiteral (ofText accentCall) := by
  have hsource : IsWhole accentCall := by decide
  have hbreaks : IsWhole (dropBreaks accentCall) := by decide
  obtain ⟨kept, mark, -, -, -, -, -, hkept, -, hends⟩ := escapes_whole_iff hsource
  exact ⟨hsource, by decide, hends (hkept hbreaks)⟩

/-- A string that goes on in the next line, where it happens to start with a `u`. -/
def continuedString : Text := "\"\\\nu\"".toList

theorem continuedString_not_whole : IsWhole continuedString ∧
    ofText continuedString = "\"\\u\"".toList ∧ ofText continuedString = escape continuedString ∧
      ¬ IsWhole (ofText continuedString) ∧ ¬ EndsLiteral (ofText continuedString) := by
  refine ⟨by decide, by decide, by decide, by decide, fun h => ?_⟩
  obtain ⟨inside, behind, hlog, -, hread⟩ := h none
  have hrest : inside ++ '\'' :: behind = "*** \"\\u\"')".toList := by
    have hsame : logStatement (ofText continuedString) none =
        "console.log('".toList ++ "*** \"\\u\"')".toList := by decide
    rw [hsame, List.append_assoc] at hlog
    exact (List.append_cancel_left hlog).symm
  have hnone : literal? .between "*** \"\\u\"')".toList = none := by decide
  rw [hrest, hnone] at hread
  cases hread

end Caption
end LogProbe
