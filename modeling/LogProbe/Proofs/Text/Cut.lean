import LogProbe.Text.Basic

/-! Boundaries of a text. A boundary is a split into two texts, and what lies behind a split
decides nothing about the boundaries before it. -/
namespace LogProbe

/-- The characters that end a line of a script. -/
def isLineBreak (c : Char) : Bool :=
  c == '\n' || c == '\r' || c == '\u2028' || c == '\u2029'

namespace Text

/-- Two splits of a text at one offset are the same split. -/
theorem append_inj_of_size {a b c d : Text} (h : a ++ b = c ++ d) (hs : size a = size c) :
    a = c ∧ b = d := by
  have hc := cut?_append a b
  rw [h, hs, cut?_append c d] at hc
  simp only [Option.some.injEq, Prod.mk.injEq] at hc
  exact ⟨hc.1.symm, hc.2.symm⟩

theorem isBoundary_iff {t : Text} {n : Nat} :
    isBoundary t n = true ↔ ∃ a b, t = a ++ b ∧ size a = n := by
  rw [isBoundary, Option.isSome_iff_exists]
  constructor
  · rintro ⟨⟨a, b⟩, h⟩
    exact ⟨a, b, cut?_eq_some_iff.mp h⟩
  · rintro ⟨a, b, h⟩
    exact ⟨(a, b), cut?_eq_some_iff.mpr h⟩

theorem isBoundary_size_append (a b : Text) : isBoundary (a ++ b) (size a) = true :=
  isBoundary_iff.mpr ⟨a, b, rfl, rfl⟩

@[simp] theorem isBoundary_zero (t : Text) : isBoundary t 0 = true :=
  isBoundary_size_append [] t

@[simp] theorem isBoundary_size (t : Text) : isBoundary t (size t) = true := by
  simpa using isBoundary_size_append t []

theorem le_size_of_isBoundary {t : Text} {n : Nat} (h : isBoundary t n = true) :
    n ≤ size t := by
  obtain ⟨a, b, rfl, rfl⟩ := isBoundary_iff.mp h
  rw [size_append]
  omega

theorem isBoundary_append {a b : Text} {n : Nat} (hn : n ≤ size a) :
    isBoundary (a ++ b) n = isBoundary a n := by
  apply Bool.eq_iff_iff.mpr
  rw [isBoundary_iff, isBoundary_iff]
  constructor
  · rintro ⟨c, d, h, rfl⟩
    rcases List.append_eq_append_iff.mp h with ⟨m, rfl, rfl⟩ | ⟨m, rfl, rfl⟩
    · have hm : m = [] := size_eq_zero (by rw [size_append] at hn; omega)
      subst hm
      exact ⟨a, [], by simp, by simp⟩
    · exact ⟨c, m, rfl, rfl⟩
  · rintro ⟨c, d, rfl, rfl⟩
    exact ⟨c, d ++ b, by simp, rfl⟩

theorem isBoundary_size_add (a b : Text) (n : Nat) :
    isBoundary (a ++ b) (size a + n) = isBoundary b n := by
  apply Bool.eq_iff_iff.mpr
  rw [isBoundary_iff, isBoundary_iff]
  constructor
  · rintro ⟨c, d, h, hs⟩
    rcases List.append_eq_append_iff.mp h with ⟨m, rfl, rfl⟩ | ⟨m, rfl, rfl⟩
    · exact ⟨m, d, rfl, by rw [size_append] at hs; omega⟩
    · rw [size_append] at hs
      exact ⟨[], b, rfl, by simp only [size_nil]; omega⟩
  · rintro ⟨c, d, rfl, rfl⟩
    exact ⟨a ++ c, d, by simp, by simp⟩

theorem size_replicate {c : Char} (hc : c.utf8Size = 1) (n : Nat) :
    size (List.replicate n c) = n := by
  induction n with
  | zero => rfl
  | succ n ih =>
    rw [List.replicate_succ, size_cons, ih, hc]
    exact Nat.add_comm 1 n

theorem cut?_replicate {c : Char} (hc : c.utf8Size = 1) {k n : Nat} (h : k ≤ n) :
    cut? (List.replicate n c) k = some (List.replicate k c, List.replicate (n - k) c) := by
  refine cut?_eq_some_iff.mpr ⟨?_, size_replicate hc k⟩
  rw [List.replicate_append_replicate, Nat.add_sub_cancel' h]

/-- There is no boundary within a character. -/
theorem isBoundary_within (a b : Text) {c : Char} {n : Nat} (hn : size a < n)
    (hc : n < size a + c.utf8Size) : isBoundary (a ++ c :: b) n = false := by
  rw [Bool.eq_false_iff, Ne, isBoundary_iff]
  rintro ⟨d, e, h, rfl⟩
  rcases List.append_eq_append_iff.mp h with ⟨m, rfl, hm⟩ | ⟨m, rfl, rfl⟩
  · cases m with
    | nil => simp at hn
    | cons c' m =>
      obtain ⟨rfl, rfl⟩ := List.cons.inj hm
      simp only [size_append, size_cons] at hc
      omega
  · rw [size_append] at hn
    omega

/-- A stretch of the same width in place of another one leaves the boundaries outside. -/
theorem isBoundary_replace {a m m' b : Text} {n : Nat} (hm : size m = size m')
    (hn : n ≤ size a ∨ size (a ++ m) ≤ n) :
    isBoundary (a ++ m ++ b) n = isBoundary (a ++ m' ++ b) n := by
  rcases hn with hn | hn
  · rw [List.append_assoc, List.append_assoc, isBoundary_append hn, isBoundary_append hn]
  · obtain ⟨k, rfl⟩ := Nat.exists_eq_add_of_le hn
    rw [isBoundary_size_add]
    rw [size_append, hm, ← size_append, isBoundary_size_add]

/-- Of two splits of a text the one with the shorter beginning ends within the other's. -/
theorem exists_append_of_size_le {a b c d : Text} (h : a ++ b = c ++ d) (hs : size a ≤ size c) :
    ∃ m, c = a ++ m ∧ b = m ++ d := by
  rcases List.append_eq_append_iff.mp h with ⟨m, hc, hb⟩ | ⟨m, rfl, rfl⟩
  · exact ⟨m, hc, hb⟩
  · have hm : m = [] := size_eq_zero (by rw [size_append] at hs; omega)
    subst hm
    exact ⟨[], by simp, by simp⟩

/-- Two boundaries in order split a text into three parts. -/
theorem exists_split {t : Text} {start stop : Nat} (h : start ≤ stop)
    (hs : isBoundary t start = true) (ht : isBoundary t stop = true) :
    ∃ a m b, t = a ++ m ++ b ∧ size a = start ∧ size (a ++ m) = stop := by
  obtain ⟨u, b, rfl, rfl⟩ := isBoundary_iff.mp ht
  rw [isBoundary_append h] at hs
  obtain ⟨a, m, rfl, rfl⟩ := isBoundary_iff.mp hs
  exact ⟨a, m, b, rfl, rfl, rfl⟩

theorem slice?_append (a m b : Text) : slice? (a ++ m ++ b) (size a) (size (a ++ m)) = some m :=
  slice?_eq_some_iff.mpr ⟨a, b, rfl, rfl, rfl⟩

theorem isSome_slice?_iff {t : Text} {start stop : Nat} :
    (slice? t start stop).isSome = true ↔
      start ≤ stop ∧ isBoundary t start = true ∧ isBoundary t stop = true := by
  rw [Option.isSome_iff_exists]
  constructor
  · rintro ⟨m, h⟩
    obtain ⟨a, b, rfl, rfl, rfl⟩ := slice?_eq_some_iff.mp h
    refine ⟨by rw [size_append]; omega, ?_, isBoundary_size_append _ _⟩
    rw [List.append_assoc]
    exact isBoundary_size_append _ _
  · rintro ⟨h, hs, ht⟩
    obtain ⟨a, m, b, rfl, rfl, rfl⟩ := exists_split h hs ht
    exact ⟨m, slice?_append a m b⟩

/-- A stretch that starts earlier holds what lies between the two starts as well. -/
theorem slice?_extend {above m rest k : Text} {stop : Nat}
    (h : slice? (above ++ m ++ rest) (size (above ++ m)) stop = some k) :
    slice? (above ++ m ++ rest) (size above) stop = some (m ++ k) := by
  obtain ⟨a, c, ht, ha, hk⟩ := slice?_eq_some_iff.mp h
  rw [List.append_assoc a] at ht
  obtain ⟨rfl, rfl⟩ := append_inj_of_size ht ha.symm
  exact slice?_eq_some_iff.mpr ⟨above, c, by simp, rfl, by simpa using hk⟩

theorem slice?_to_size (a b : Text) : slice? (a ++ b) (size a) (size (a ++ b)) = some b :=
  slice?_eq_some_iff.mpr ⟨a, [], by simp, rfl, rfl⟩

/-- Whether a line ends where the text begins. -/
def endsLine (t : Text) : Bool := t.head?.all isLineBreak

theorem endsLine_append {a : Text} (h : a ≠ []) (b : Text) :
    endsLine (a ++ b) = endsLine a := by
  cases a with
  | nil => cases h rfl
  | cons c a => rfl

end Text
end LogProbe
