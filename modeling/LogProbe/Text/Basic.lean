/-! Texts and their byte offsets. A text is the list of its characters; every position in it is
counted in bytes of the UTF-8 form, and `Text.cut?` is the one way to reach such a position. -/
namespace LogProbe

abbrev Text := List Char

namespace Text

/-- Number of bytes of the UTF-8 form. -/
def size : Text → Nat
  | [] => 0
  | c :: t => c.utf8Size + size t

@[simp] theorem size_nil : size [] = 0 := rfl

@[simp] theorem size_cons (c : Char) (t : Text) : size (c :: t) = c.utf8Size + size t := rfl

@[simp] theorem size_append (a b : Text) : size (a ++ b) = size a + size b := by
  induction a with
  | nil => simp
  | cons c a ih => simp only [List.cons_append, size_cons, ih]; omega

theorem size_eq_zero {t : Text} (h : size t = 0) : t = [] := by
  cases t with
  | nil => rfl
  | cons c t => have := c.utf8Size_pos; simp only [size_cons] at h; omega

/-- Cuts at a byte offset. There is no cut within a character nor past the end. -/
def cut? : Text → Nat → Option (Text × Text)
  | t, 0 => some ([], t)
  | [], _ + 1 => none
  | c :: t, n + 1 =>
    if c.utf8Size ≤ n + 1 then
      (cut? t (n + 1 - c.utf8Size)).map fun (a, b) => (c :: a, b)
    else none

@[simp] theorem cut?_zero (t : Text) : cut? t 0 = some ([], t) := by cases t <;> rfl

theorem cut?_append (a b : Text) : cut? (a ++ b) (size a) = some (a, b) := by
  induction a with
  | nil => simp
  | cons c a ih =>
    obtain ⟨n, hn⟩ : ∃ n, size (c :: a) = n + 1 :=
      ⟨size (c :: a) - 1, by have := c.utf8Size_pos; simp only [size_cons]; omega⟩
    have hc : c.utf8Size ≤ n + 1 := by rw [← hn, size_cons]; omega
    have hr : n + 1 - c.utf8Size = size a := by rw [← hn, size_cons]; omega
    rw [hn, List.cons_append, cut?, if_pos hc, hr, ih]
    rfl

theorem append_of_cut? {t a b : Text} {n : Nat} (h : cut? t n = some (a, b)) :
    t = a ++ b ∧ size a = n := by
  induction t generalizing n a b with
  | nil =>
    cases n with
    | zero => simp_all
    | succ n => simp [cut?] at h
  | cons c t ih =>
    cases n with
    | zero => simp_all
    | succ n =>
      by_cases hc : c.utf8Size ≤ n + 1
      · rw [cut?, if_pos hc, Option.map_eq_some_iff] at h
        obtain ⟨⟨a', b'⟩, h', he⟩ := h
        obtain ⟨ht, hs⟩ := ih h'
        cases he
        exact ⟨by rw [ht, List.cons_append], by rw [size_cons, hs]; omega⟩
      · simp [cut?, hc] at h

/-- A cut at `n` bytes is a split into two texts, the first of `n` bytes. -/
theorem cut?_eq_some_iff {t a b : Text} {n : Nat} :
    cut? t n = some (a, b) ↔ t = a ++ b ∧ size a = n :=
  ⟨append_of_cut?, fun ⟨ht, hn⟩ => ht ▸ hn ▸ cut?_append a b⟩

def isBoundary (t : Text) (n : Nat) : Bool := (cut? t n).isSome

/-- The stretch from `start` to `stop`, or nothing unless both are boundaries in this order. -/
def slice? (t : Text) (start stop : Nat) : Option Text := do
  let (upper, _) ← cut? t stop
  let (_, middle) ← cut? upper start
  return middle

theorem slice?_eq_some_iff {t m : Text} {start stop : Nat} :
    slice? t start stop = some m ↔
      ∃ a c, t = a ++ m ++ c ∧ size a = start ∧ size (a ++ m) = stop := by
  constructor
  · intro h
    simp only [slice?, Option.bind_eq_bind, Option.bind_eq_some_iff] at h
    obtain ⟨⟨u, c⟩, hu, ⟨a, m'⟩, ha, he⟩ := h
    cases he
    obtain ⟨rfl, hs⟩ := append_of_cut? hu
    obtain ⟨rfl, hs'⟩ := append_of_cut? ha
    exact ⟨a, c, rfl, hs', hs⟩
  · rintro ⟨a, c, rfl, hs, ht⟩
    simp only [slice?, Option.bind_eq_bind, ← ht, cut?_append, Option.bind_some, ← hs,
      Option.pure_def]

/-- The longest beginning of at most `n` bytes. -/
def upTo : Text → Nat → Text
  | [], _ => []
  | c :: t, n => if c.utf8Size ≤ n then c :: upTo t (n - c.utf8Size) else []

theorem upTo_append (a b : Text) : upTo (a ++ b) (size a) = a := by
  induction a with
  | nil =>
    cases b with
    | nil => rfl
    | cons c b => have := c.utf8Size_pos; simp [upTo]; omega
  | cons c a ih =>
    simp only [List.cons_append, upTo, size_cons]
    rw [if_pos (by omega), Nat.add_sub_cancel_left, ih]

def startsWith (t : Text) (c : Char) : Bool := t.head? == some c

def endsWith (t : Text) (c : Char) : Bool := t.getLast? == some c

/-- Drops the characters of a class from the end. -/
def dropEndWhile (p : Char → Bool) (t : Text) : Text := (t.reverse.dropWhile p).reverse

/-- Keeps the longest ending that lies in a class. -/
def takeEndWhile (p : Char → Bool) (t : Text) : Text := (t.reverse.takeWhile p).reverse

theorem dropEndWhile_append_takeEndWhile (p : Char → Bool) (t : Text) :
    dropEndWhile p t ++ takeEndWhile p t = t := by
  rw [dropEndWhile, takeEndWhile, ← List.reverse_append, List.takeWhile_append_dropWhile,
    List.reverse_reverse]

/-- Splits at every occurrence of a character, into the first piece and the pieces after it. -/
def split (separator : Char) : Text → Text × List Text
  | [] => ([], [])
  | c :: t =>
    let (first, rest) := split separator t
    if c = separator then ([], first :: rest) else (c :: first, rest)

def join (separator : Char) (first : Text) (rest : List Text) : Text :=
  first ++ rest.flatMap (separator :: ·)

theorem join_split (separator : Char) (t : Text) :
    join separator (split separator t).1 (split separator t).2 = t := by
  induction t with
  | nil => rfl
  | cons c t ih =>
    simp only [join] at ih
    by_cases h : c = separator <;> simp [split, join, h, ih]

/-- Splits at the first occurrence of a separator that is not empty. -/
def splitOnce? (separator : Text) : Text → Option (Text × Text)
  | [] => none
  | c :: t =>
    if separator.isPrefixOf (c :: t) then some ([], (c :: t).drop separator.length)
    else (splitOnce? separator t).map fun (a, b) => (c :: a, b)

/-- No text is longer than this many bytes. -/
def maxSize : Nat := 9223372036854775807

/-- A text written `k` times in a row, if the result can exist. -/
def repeat? (t : Text) (k : Nat) : Option Text :=
  if k * size t ≤ maxSize then some (List.replicate k t).flatten else none

end Text
end LogProbe
