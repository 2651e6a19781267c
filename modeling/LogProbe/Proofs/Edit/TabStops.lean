import LogProbe.Edit.Snippet
import LogProbe.Proofs.Text.Split
import Mathlib.Data.Option.Basic

/-! What is left of a body without its tab stops. One pass leaves out the stops of one digit; the
characters that it keeps stay in order, but a `$` and a digit may come together around what has gone
and make a stop that the body does not have. The first stop cuts the body in two, and the plain
texts of the two parts make up that of the body unless a new stop lies across the cut. -/
namespace LogProbe
namespace Snippet
variable {d c : Char} {t a b : Text}

def tabStop (d : Char) : Text := ['$', d]

theorem tabStop_ne_nil (d : Char) : tabStop d ≠ [] := List.cons_ne_nil _ _

/-- Tab stops of one digit in a row. -/
def tabStops (d : Char) (n : Nat) : Text := (List.replicate n (tabStop d)).flatten

@[simp] theorem tabStops_zero (d : Char) : tabStops d 0 = [] := rfl

@[simp] theorem tabStops_succ (d : Char) (n : Nat) :
    tabStops d (n + 1) = '$' :: d :: tabStops d n := rfl

theorem isPrefix_tabStops_append_iff {n : Nat} {e : Char} (he : e ≠ '$') :
    [e] <+: tabStops d n ++ c :: t ↔ n = 0 ∧ e = c := by
  cases n <;> simp [he]

theorem tabStop_isPrefix_cons_iff : tabStop d <+: c :: t ↔ c = '$' ∧ [d] <+: t := by
  rw [tabStop, List.cons_prefix_cons, eq_comm]

/-- A text is empty, or a tab stop with a text behind it, or another character with one. -/
@[elab_as_elim]
theorem stopInduction (d : Char) {motive : Text → Prop} (nil : motive [])
    (stop : ∀ t, motive t → motive ('$' :: d :: t))
    (keep : ∀ c t, ¬ tabStop d <+: c :: t → motive t → motive (c :: t)) (t : Text) : motive t := by
  fun_induction dropStops d t with
  | case1 t ih => exact stop t ih
  | case2 c t hc ih =>
    refine keep '$' (c :: t) ?_ ih
    rw [tabStop_isPrefix_cons_iff, List.cons_prefix_cons]
    exact fun h => hc h.2.1.symm
  | case3 c t hc ih =>
    refine keep c t ?_ ih
    rw [tabStop_isPrefix_cons_iff]
    rintro ⟨rfl, u, rfl⟩
    exact hc d u rfl rfl
  | case4 => exact nil

section OnePass

@[simp] theorem dropStops_stop (d : Char) (t : Text) :
    dropStops d ('$' :: d :: t) = dropStops d t := by
  rw [dropStops, if_pos rfl]

theorem dropStops_cons (h : ¬ tabStop d <+: c :: t) :
    dropStops d (c :: t) = c :: dropStops d t := by
  rw [tabStop_isPrefix_cons_iff] at h
  cases t with
  | nil => simp [dropStops]
  | cons e t =>
    by_cases hc : c = '$'
    · subst hc
      rw [dropStops, if_neg fun he => h ⟨rfl, t, by rw [he]; rfl⟩]
    · simp [dropStops, hc]

theorem dropStops_cons_of_ne (h : c ≠ '$') : dropStops d (c :: t) = c :: dropStops d t :=
  dropStops_cons fun hstop => h (tabStop_isPrefix_cons_iff.mp hstop).1

theorem dropStops_of_not_isInfix (h : ¬ tabStop d <:+: t) : dropStops d t = t := by
  induction t using stopInduction d with
  | nil => rfl
  | stop t ih => exact absurd ⟨[], t, rfl⟩ h
  | keep c t hc ih =>
    rw [dropStops_cons hc, ih fun ht => h (List.infix_cons ht)]

/-- A text without a `$` is inserted as it is. -/
theorem plain_of_not_mem (h : '$' ∉ t) : plain t = t := by
  have hstop (d : Char) : ¬ tabStop d <:+: t := fun hd => h (hd.subset List.mem_cons_self)
  rw [plain, dropStops_of_not_isInfix (hstop _), dropStops_of_not_isInfix (hstop _)]

/-- A pass works on two parts one by one unless a stop lies across the cut. -/
theorem dropStops_append (h : ¬ (['$'] <:+ a ∧ [d] <+: b)) :
    dropStops d (a ++ b) = dropStops d a ++ dropStops d b := by
  induction a using stopInduction d with
  | nil => rfl
  | stop a ih =>
    rw [List.cons_append, List.cons_append, dropStops_stop, dropStops_stop]
    refine ih fun ⟨hdollar, hd⟩ => h ⟨hdollar.trans ?_, hd⟩
    exact List.suffix_append ['$', d] a
  | keep c a hc ih =>
    have hkeep : ¬ tabStop d <+: c :: (a ++ b) := by
      rw [tabStop_isPrefix_cons_iff] at hc ⊢
      rintro ⟨rfl, hd⟩
      -- where `a` ends here, the stop would lie across the cut
      cases a with
      | nil => exact h ⟨List.suffix_rfl, hd⟩
      | cons e a =>
        obtain ⟨rfl, -⟩ := List.cons_prefix_cons.mp hd
        exact hc ⟨rfl, a, rfl⟩
    rw [List.cons_append, dropStops_cons hkeep, dropStops_cons hc, List.cons_append,
      ih fun ⟨hdollar, hd⟩ => h ⟨hdollar.trans (List.suffix_cons c a), hd⟩]

theorem dropStops_append_dollar (hd : d ≠ '$') :
    dropStops d (a ++ '$' :: b) = dropStops d a ++ dropStops d ('$' :: b) :=
  dropStops_append fun h => hd (List.cons_prefix_cons.mp h.2).1

/-- A stop goes, and what is on its two sides does not change by that. -/
theorem dropStops_around_stop (hd : d ≠ '$') :
    dropStops d (a ++ tabStop d ++ b) = dropStops d a ++ dropStops d b := by
  rw [List.append_assoc, tabStop, List.cons_append, List.singleton_append,
    dropStops_append_dollar hd, dropStops_stop]

theorem dropStops_tabStops_append (d : Char) (n : Nat) (t : Text) :
    dropStops d (tabStops d n ++ t) = dropStops d t := by
  induction n with
  | zero => rfl
  | succ n ih => rw [tabStops_succ, List.cons_append, List.cons_append, dropStops_stop, ih]

/-- A character that a pass keeps divides the text into what becomes of the two sides. -/
theorem exists_append_of_dropStops (h : dropStops d t = a ++ c :: b) :
    ∃ u v, t = u ++ c :: v ∧ dropStops d u = a ∧ dropStops d v = b ∧ ¬ tabStop d <+: c :: v := by
  induction t using stopInduction d generalizing a with
  | nil => simp [dropStops] at h
  | stop t ih =>
    rw [dropStops_stop] at h
    obtain ⟨u, v, rfl, hu, hv⟩ := ih h
    exact ⟨'$' :: d :: u, v, rfl, by rw [dropStops_stop, hu], hv⟩
  | keep e t he ih =>
    rw [dropStops_cons he] at h
    cases a with
    | nil =>
      obtain ⟨rfl, rfl⟩ := List.cons.inj h
      exact ⟨[], t, rfl, rfl, rfl, he⟩
    | cons f a =>
      obtain ⟨rfl, htail⟩ := List.cons.inj h
      obtain ⟨u, v, rfl, hu, hv⟩ := ih htail
      have hkeep : ¬ tabStop d <+: e :: u := fun hu => he (hu.trans ⟨c :: v, rfl⟩)
      exact ⟨e :: u, v, rfl, by rw [dropStops_cons hkeep, hu], hv⟩

theorem dropStops_eq_nil_iff : dropStops d t = [] ↔ ∃ n, t = tabStops d n := by
  constructor
  · intro h
    induction t using stopInduction d with
    | nil => exact ⟨0, rfl⟩
    | stop t ih =>
      rw [dropStops_stop] at h
      obtain ⟨n, rfl⟩ := ih h
      exact ⟨n + 1, rfl⟩
    | keep c t hc ih =>
      rw [dropStops_cons hc] at h
      cases h
  · rintro ⟨n, rfl⟩
    simpa [dropStops] using dropStops_tabStops_append d n []

/-- What is left starts with a digit exactly if stops and the digit are at the start. -/
theorem isPrefix_dropStops_iff (hc : c ≠ '$') :
    [c] <+: dropStops d t ↔ ∃ n rest, t = tabStops d n ++ c :: rest := by
  constructor
  · rintro ⟨b, hb⟩
    obtain ⟨u, v, rfl, hu, -, -⟩ := exists_append_of_dropStops (a := []) hb.symm
    obtain ⟨n, rfl⟩ := dropStops_eq_nil_iff.mp hu
    exact ⟨n, v, rfl⟩
  · rintro ⟨n, rest, rfl⟩
    rw [dropStops_tabStops_append, dropStops_cons_of_ne hc]
    exact ⟨_, rfl⟩

end OnePass

section TwoPasses

/-- A text of which nothing is left: `$1`s, and `$0`s that may have `$1`s within them. The number
counts the `$0`s. -/
inductive Gap : Nat → Text → Prop
  | nil : Gap 0 []
  | one {n t} : Gap n t → Gap n ('$' :: '1' :: t)
  | zero {n t} (k : Nat) : Gap n t → Gap (n + 1) ('$' :: tabStops '1' k ++ '0' :: t)

theorem Gap.tabStops_append {n : Nat} (h : Gap n t) (k : Nat) : Gap n (tabStops '1' k ++ t) := by
  induction k with
  | zero => exact h
  | succ k ih => exact .one ih

/-- The first pass leaves the `$0`s of a gap and goes on behind it. -/
theorem Gap.dropStops_append {n : Nat} (h : Gap n t) (b : Text) :
    dropStops '1' (t ++ b) = tabStops '0' n ++ dropStops '1' b := by
  induction h with
  | nil => rfl
  | one _ ih => rw [List.cons_append, List.cons_append, dropStops_stop, ih]
  | @zero n t k _ ih =>
    have hdollar : ¬ tabStop '1' <+: '$' :: (tabStops '1' k ++ '0' :: (t ++ b)) := by
      rw [tabStop_isPrefix_cons_iff, isPrefix_tabStops_append_iff (by decide)]
      simp
    rw [List.append_assoc, List.cons_append, List.cons_append, dropStops_cons hdollar,
      dropStops_tabStops_append, dropStops_cons_of_ne (by decide), ih]
    rfl

theorem dropStops_eq_tabStops_iff {n : Nat} : dropStops '1' t = tabStops '0' n ↔ Gap n t := by
  constructor
  · intro h
    induction n generalizing t with
    | zero =>
      obtain ⟨k, rfl⟩ := dropStops_eq_nil_iff.mp h
      simpa using Gap.nil.tabStops_append k
    | succ n ih =>
      -- only `$1`s stand in front of the first `$` that is left, and between it and its `0`
      obtain ⟨u, v, rfl, hu, hv, -⟩ := exists_append_of_dropStops (a := []) h
      obtain ⟨w, z, rfl, hw, hz, -⟩ := exists_append_of_dropStops (a := []) hv
      obtain ⟨j, rfl⟩ := dropStops_eq_nil_iff.mp hu
      obtain ⟨k, rfl⟩ := dropStops_eq_nil_iff.mp hw
      exact (Gap.zero k (ih hz)).tabStops_append j
  · intro h
    simpa [dropStops] using h.dropStops_append []

/-- Nothing is left of a text exactly if it is a gap. -/
theorem plain_eq_nil_iff : plain t = [] ↔ ∃ n, Gap n t := by
  simp only [plain, dropStops_eq_nil_iff, dropStops_eq_tabStops_iff]

/-- A character of the plain text divides the body into what the two sides leave. -/
theorem exists_append_of_plain (h : plain t = a ++ c :: b) :
    ∃ u v, t = u ++ c :: v ∧ plain u = a ∧ plain v = b ∧
      ¬ tabStop '1' <+: c :: v ∧ ¬ tabStop '0' <+: c :: dropStops '1' v := by
  obtain ⟨x, y, hxy, hx, hy, hzero⟩ := exists_append_of_dropStops h
  obtain ⟨u, v, rfl, rfl, rfl, hone⟩ := exists_append_of_dropStops hxy
  exact ⟨u, v, rfl, hx, hy, hone, hzero⟩

/-- A gap between a `$` and a digit that is there until the pass that leaves out such stops has come
by: any gap for `$1`, and one with a `$0` for `$0`, since others go in the first pass. -/
inductive Separates : Char → Text → Prop
  | one {n z} : Gap n z → z ≠ [] → Separates '1' z
  | zero {n z} : Gap (n + 1) z → Separates '0' z

theorem Separates.ne_nil {z : Text} (h : Separates c z) : z ≠ [] := by
  cases h with
  | one _ hne => exact hne
  | zero hgap => cases hgap <;> simp

theorem Separates.exists_gap {z : Text} (h : Separates c z) :
    ∃ n, Gap n z ∧ (c = '0' → n ≠ 0) := by
  cases h with
  | one hgap _ => exact ⟨_, hgap, fun hdigit => absurd hdigit (by decide)⟩
  | zero hgap => exact ⟨_, hgap, fun _ => Nat.succ_ne_zero _⟩

/-- A `$` and a digit are left side by side. -/
theorem Separates.plain_append {z : Text} (h : Separates c z) (p q : Text) :
    plain (p ++ '$' :: (z ++ c :: q)) = plain p ++ '$' :: c :: plain q := by
  have hc : c ≠ '$' := by cases h <;> decide
  obtain ⟨n, hgap, hn⟩ := h.exists_gap
  have hone : ¬ tabStop '1' <+: '$' :: (z ++ c :: q) := by
    rw [tabStop_isPrefix_cons_iff]
    cases hgap with
    | nil => exact absurd rfl h.ne_nil
    | one _ => simp
    | zero k _ => simp
  have hzero : ¬ tabStop '0' <+: '$' :: (tabStops '0' n ++ c :: dropStops '1' q) := by
    rw [tabStop_isPrefix_cons_iff, isPrefix_tabStops_append_iff (by decide)]
    rintro ⟨-, hnone, rfl⟩
    exact hn rfl hnone
  calc plain (p ++ '$' :: (z ++ c :: q))
      = dropStops '0' (dropStops '1' p ++ '$' :: (tabStops '0' n ++ c :: dropStops '1' q)) := by
        rw [plain, dropStops_append_dollar (by decide), dropStops_cons hone,
          hgap.dropStops_append, dropStops_cons_of_ne hc]
    _ = plain p ++ '$' :: c :: plain q := by
        rw [dropStops_append_dollar (by decide), dropStops_cons hzero, dropStops_tabStops_append,
          dropStops_cons_of_ne hc]
        rfl

/-- A `$` and a digit come together when what is between them goes. -/
def Joins (c : Char) (body : Text) : Prop :=
  ∃ z, Separates c z ∧ '$' :: z ++ [c] <:+: body

/-- The plain text has a tab stop exactly where a `$` and a digit come together. -/
theorem isInfix_plain_iff (hc : c = '1' ∨ c = '0') : tabStop c <:+: plain t ↔ Joins c t := by
  constructor
  · rintro ⟨a, b, h⟩
    rw [List.append_assoc] at h
    obtain ⟨u, v, rfl, -, hv, hone, hzero⟩ := exists_append_of_plain h.symm
    obtain ⟨z, w, rfl, hz, -, -⟩ := exists_append_of_plain (a := []) hv
    obtain ⟨n, hgap⟩ := plain_eq_nil_iff.mp hz
    refine ⟨z, ?_, u, w, by simp⟩
    -- both passes kept the `$`, so the gap was there for either
    rcases hc with rfl | rfl
    · refine .one hgap ?_
      rintro rfl
      exact hone ⟨w, rfl⟩
    · cases n with
      | zero =>
        rw [hgap.dropStops_append, dropStops_cons_of_ne (by decide)] at hzero
        exact absurd ⟨_, rfl⟩ hzero
      | succ n => exact .zero hgap
  · rintro ⟨z, hz, p, q, rfl⟩
    exact ⟨plain p, plain q, by simpa [tabStop] using (hz.plain_append p q).symm⟩

example : plain "$$01".toList = "$1".toList := by decide

/-- No tab stop stands directly behind a `$`. -/
def StopsApart (body : Text) : Prop :=
  ∀ c, c = '1' ∨ c = '0' → ¬ '$' :: tabStop c <:+: body

theorem StopsApart.not_joins (h : StopsApart t) : ¬ Joins c t := by
  rintro ⟨z, hz, hjoined⟩
  obtain ⟨n, hgap, -⟩ := hz.exists_gap
  have hbehind : ∃ e, (e = '1' ∨ e = '0') ∧ '$' :: tabStop e <:+: '$' :: z ++ [c] := by
    cases hgap with
    | nil => exact absurd rfl hz.ne_nil
    | one _ => exact ⟨'1', .inl rfl, [], _, rfl⟩
    | zero k _ =>
      cases k with
      | zero => exact ⟨'0', .inr rfl, [], _, rfl⟩
      | succ k => exact ⟨'1', .inl rfl, ['$'], _, rfl⟩
  obtain ⟨e, he, hstop⟩ := hbehind
  exact h e he (hstop.trans hjoined)

end TwoPasses

section FirstStop

theorem beforeStop?_cons (h : ¬ tabStop d <+: c :: t) :
    beforeStop? d (c :: t) = (beforeStop? d t).map (c :: ·) := by
  rw [tabStop_isPrefix_cons_iff] at h
  cases t with
  | nil => simp [beforeStop?]
  | cons e t =>
    by_cases hc : c = '$'
    · subst hc
      rw [beforeStop?, if_neg fun he => h ⟨rfl, t, by rw [he]; rfl⟩]
    · simp [beforeStop?, hc]

theorem beforeStop?_eq (d : Char) (t : Text) :
    beforeStop? d t = (Text.splitOnce? (tabStop d) t).map Prod.fst := by
  induction t using stopInduction d with
  | nil => rfl
  | stop t ih => simp [beforeStop?, Text.splitOnce?, tabStop]
  | keep c t hc ih =>
    have hstart : ¬ (tabStop d).isPrefixOf (c :: t) = true := by rwa [List.isPrefixOf_iff_prefix]
    rw [beforeStop?_cons hc, ih, Text.splitOnce?, if_neg hstart, Option.map_map, Option.map_map]
    rfl

theorem beforeStop?_eq_some_iff :
    beforeStop? d t = some a ↔ ∃ b, Text.CutsAtFirst (tabStop d) t a b := by
  rw [beforeStop?_eq, Option.map_eq_some_iff]
  simp only [Prod.exists, exists_and_right, exists_eq_right]
  exact exists_congr fun b => Text.splitOnce?_eq_some_iff (tabStop_ne_nil d)

theorem beforeStop?_eq_none_iff : beforeStop? d t = none ↔ ¬ tabStop d <:+: t := by
  rw [beforeStop?_eq, Option.map_eq_none_iff, Text.splitOnce?_eq_none_iff (tabStop_ne_nil d)]

/-- The first tab stop of a body, between the parts in front of it and behind it: the first `$1`, or
the first `$0` where there is no `$1`. -/
structure IsFirstStop (body : Text) (d : Char) (before after : Text) : Prop where
  cuts : Text.CutsAtFirst (tabStop d) body before after
  digit : d = '1' ∨ d = '0' ∧ ¬ tabStop '1' <:+: body

theorem firstStop?_eq_some_iff {s : Snippet} {k : Nat} : s.firstStop? = some k ↔
    ∃ d before after, IsFirstStop s.body d before after ∧ (plain before).size = k := by
  rw [firstStop?, Option.map_eq_some_iff]
  constructor
  · rintro ⟨before, hbefore, rfl⟩
    rcases (Option.orElse_eq_some _ _ _).mp hbefore with hone | ⟨hone, hzero⟩
    · obtain ⟨after, hcuts⟩ := beforeStop?_eq_some_iff.mp hone
      exact ⟨'1', before, after, ⟨hcuts, .inl rfl⟩, rfl⟩
    · obtain ⟨after, hcuts⟩ := beforeStop?_eq_some_iff.mp hzero
      exact ⟨'0', before, after, ⟨hcuts, .inr ⟨rfl, beforeStop?_eq_none_iff.mp hone⟩⟩, rfl⟩
  · rintro ⟨d, before, after, ⟨hcuts, rfl | ⟨rfl, hone⟩⟩, rfl⟩
    · have hbefore := beforeStop?_eq_some_iff.mpr ⟨after, hcuts⟩
      exact ⟨before, (Option.orElse_eq_some _ _ _).mpr (.inl hbefore), rfl⟩
    · have hbefore := beforeStop?_eq_some_iff.mpr ⟨after, hcuts⟩
      have hnone := beforeStop?_eq_none_iff.mpr hone
      exact ⟨before, (Option.orElse_eq_some _ _ _).mpr (.inr ⟨hnone, hbefore⟩), rfl⟩

theorem firstStop?_eq_none_iff {s : Snippet} :
    s.firstStop? = none ↔ ¬ tabStop '1' <:+: s.body ∧ ¬ tabStop '0' <:+: s.body := by
  simp only [firstStop?, Option.map_eq_none_iff, Option.orElse_eq_none, beforeStop?_eq_none_iff]

/-- The first stop is a `$1` between a `$` and a `0`, with more of `$1` before the `0` perhaps: the
first pass makes a new `$0` of the two. -/
structure MakesStop (d : Char) (before after : Text) : Prop where
  digit : d = '1'
  dollar : ['$'] <:+ before
  zero : ∃ n rest, after = tabStops '1' n ++ '0' :: rest

theorem StopsApart.not_makesStop (h : StopsApart t) (hstop : IsFirstStop t d a b) :
    ¬ MakesStop d a b := by
  rintro ⟨rfl, ⟨init, rfl⟩, -⟩
  refine h '1' (.inl rfl) ⟨init, b, ?_⟩
  rw [hstop.cuts.text]
  simp

/-- The first pass finds nothing in front of the first stop. -/
theorem IsFirstStop.dropStops_before (h : IsFirstStop t d a b) : dropStops '1' a = a := by
  apply dropStops_of_not_isInfix
  rcases h.digit with rfl | ⟨-, hone⟩
  · exact h.cuts.not_isInfix (tabStop_ne_nil _)
  · rintro ⟨p, q, rfl⟩
    exact hone ⟨p, q ++ tabStop d ++ b, by rw [h.cuts.text]; simp⟩

theorem IsFirstStop.plain_of_one (h : IsFirstStop t '1' a b) :
    plain t = dropStops '0' (a ++ dropStops '1' b) := by
  rw [plain, h.cuts.text, dropStops_around_stop (by decide), h.dropStops_before]

theorem IsFirstStop.plain_eq_append (h : IsFirstStop t d a b) (hnew : ¬ MakesStop d a b) :
    plain t = plain a ++ plain b := by
  rw [plain.eq_def a, h.dropStops_before]
  rcases h.digit with rfl | ⟨rfl, hone⟩
  · rw [h.plain_of_one]
    apply dropStops_append
    rintro ⟨hdollar, hzero⟩
    exact hnew ⟨rfl, hdollar, (isPrefix_dropStops_iff (by decide)).mp hzero⟩
  · have hafter : ¬ tabStop '1' <:+: b := by
      rintro ⟨p, q, rfl⟩
      exact hone ⟨a ++ tabStop '0' ++ p, q, by rw [h.cuts.text]; simp⟩
    rw [plain, plain, dropStops_of_not_isInfix hone, dropStops_of_not_isInfix hafter, h.cuts.text,
      dropStops_around_stop (by decide)]

/-- The new stop goes in the second pass, with the `$` and the `0` that it is made of. -/
theorem IsFirstStop.exists_of_makesStop (h : IsFirstStop t d a b) (hnew : MakesStop d a b) :
    ∃ p q, plain a = p ++ ['$'] ∧ plain b = '0' :: q ∧ plain t = p ++ q := by
  obtain ⟨rfl, ⟨init, rfl⟩, n, rest, rfl⟩ := hnew
  have hlone : ¬ tabStop '0' <+: ['$'] := by simp [tabStop_isPrefix_cons_iff]
  have hrest : dropStops '1' (tabStops '1' n ++ '0' :: rest) = '0' :: dropStops '1' rest := by
    rw [dropStops_tabStops_append, dropStops_cons_of_ne (by decide)]
  refine ⟨dropStops '0' init, plain rest, ?_, ?_, ?_⟩
  · rw [plain, h.dropStops_before, dropStops_append_dollar (by decide), dropStops_cons hlone]
    rfl
  · rw [plain, hrest, dropStops_cons_of_ne (by decide)]
    rfl
  · rw [h.plain_of_one, hrest, List.append_assoc, List.singleton_append,
      dropStops_append_dollar (by decide), dropStops_stop]
    rfl

theorem IsFirstStop.plain_eq_append_iff (h : IsFirstStop t d a b) :
    plain t = plain a ++ plain b ↔ ¬ MakesStop d a b := by
  refine ⟨fun hplain hnew => ?_, h.plain_eq_append⟩
  obtain ⟨p, q, ha, hb, ht⟩ := h.exists_of_makesStop hnew
  have hlength := congrArg List.length (ht.symm.trans hplain)
  simp only [ha, hb, List.length_append, List.length_cons] at hlength
  omega

/-- The text in front of the first stop leaves no more than the body, unless the new stop takes its
last character and there is nothing behind that. -/
theorem IsFirstStop.size_le_iff (h : IsFirstStop t d a b) :
    (plain a).size ≤ (plain t).size ↔ (MakesStop d a b → plain b ≠ ['0']) := by
  by_cases hnew : MakesStop d a b
  · obtain ⟨p, q, ha, hb, ht⟩ := h.exists_of_makesStop hnew
    have hdollar : Text.size ['$'] = 1 := rfl
    rw [ha, hb, ht, Text.size_append, Text.size_append, Nat.add_le_add_iff_left, hdollar]
    cases q with
    | nil => simp [hnew]
    | cons e q =>
      have hpos := e.utf8Size_pos
      rw [Text.size_cons]
      exact iff_of_true (by omega) fun _ => by simp
  · simp [h.plain_eq_append hnew, hnew]

end FirstStop

end Snippet
end LogProbe
