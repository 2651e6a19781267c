import LogProbe.Syntax.Parse
import Mathlib.Data.List.TakeDrop
import Mathlib.Data.List.TakeWhile

/-! The rows of a table and the tree that is made of them. A table has a tree only if its rows are
those of the tree in preorder; the tree of statements and expressions keeps some of these rows. -/
namespace LogProbe

def Token.isStructural (t : Token) : Bool := t.named && t.kind != "comment"

/-- The rows that a tree of statements and expressions keeps: that of the root, and below a row that
it keeps those of the named nodes that are no comments. -/
inductive Row.Kept (table : List Row) : Nat → Prop
  | root {i : Nat} {row : Row} (get : table[i]? = some row) (top : row.parent = none) :
      Kept table i
  | inner {i p : Nat} {row : Row} (get : table[i]? = some row) (parent : row.parent = some p)
      (structural : row.token.isStructural = true) (above : Kept table p) : Kept table i

namespace ParseNode

mutual
/-- Number of nodes, comments and punctuation included. -/
def size : ParseNode → Nat
  | .node _ cs => 1 + sizeAll cs

def sizeAll : List ParseNode → Nat
  | [] => 0
  | c :: cs => c.size + sizeAll cs
end

theorem size_pos (n : ParseNode) : 0 < n.size := by
  cases n
  rw [size]
  omega

mutual
/-- The rows of a node and of all nodes below it in preorder, from row `i` on. -/
def rows (parent : Option Nat) (i : Nat) : ParseNode → List Row
  | .node t cs => ⟨parent, t⟩ :: rowsAll (some i) (i + 1) cs

def rowsAll (parent : Option Nat) (i : Nat) : List ParseNode → List Row
  | [] => []
  | c :: cs => c.rows parent i ++ rowsAll parent (i + c.size) cs
end

mutual
/-- Those of these rows that are reached through named nodes that are no comments. -/
def keptRows (i : Nat) : ParseNode → List Nat
  | .node _ cs => i :: keptRowsAll (i + 1) cs

def keptRowsAll (i : Nat) : List ParseNode → List Nat
  | [] => []
  | c :: cs => (if c.isStructural then c.keptRows i else []) ++ keptRowsAll (i + c.size) cs
end

mutual

theorem length_rows (parent : Option Nat) (i : Nat) :
    ∀ n : ParseNode, (n.rows parent i).length = n.size
  | .node t cs => by
    rw [rows, size, List.length_cons, length_rowsAll (some i) (i + 1) cs, Nat.add_comm]

theorem length_rowsAll (parent : Option Nat) (i : Nat) :
    ∀ cs : List ParseNode, (rowsAll parent i cs).length = sizeAll cs
  | [] => rfl
  | c :: cs => by
    rw [rowsAll, sizeAll, List.length_append, length_rows parent i c,
      length_rowsAll parent (i + c.size) cs]

end

mutual

theorem mem_keptRows {i j : Nat} : ∀ {n : ParseNode}, j ∈ n.keptRows i → i ≤ j ∧ j < i + n.size
  | .node t cs, hj => by
    rw [keptRows, List.mem_cons] at hj
    rw [size]
    rcases hj with rfl | hj
    · omega
    · have hrange := mem_keptRowsAll hj
      omega

theorem mem_keptRowsAll {i j : Nat} :
    ∀ {cs : List ParseNode}, j ∈ keptRowsAll i cs → i ≤ j ∧ j < i + sizeAll cs
  | [], hj => by simp [keptRowsAll] at hj
  | c :: cs, hj => by
    rw [keptRowsAll, List.mem_append] at hj
    rw [sizeAll]
    rcases hj with hj | hj
    · split at hj
      · have hrange := mem_keptRows hj
        omega
      · cases hj
    · have hrange := mem_keptRowsAll hj
      omega

end

mutual

theorem pairwise_keptRows {i : Nat} : ∀ n : ParseNode, (n.keptRows i).Pairwise (· < ·)
  | .node t cs => by
    rw [keptRows]
    refine List.pairwise_cons.mpr ⟨fun j hj => ?_, pairwise_keptRowsAll cs⟩
    have hrange := mem_keptRowsAll hj
    omega

theorem pairwise_keptRowsAll {i : Nat} :
    ∀ cs : List ParseNode, (keptRowsAll i cs).Pairwise (· < ·)
  | [] => .nil
  | c :: cs => by
    rw [keptRowsAll]
    refine List.pairwise_append.mpr ⟨?_, pairwise_keptRowsAll cs, fun j hj k hk => ?_⟩
    · split
      · exact pairwise_keptRows c
      · exact .nil
    · split at hj
      · have hfirst := mem_keptRows hj
        have hrest := mem_keptRowsAll hk
        omega
      · cases hj

end

end ParseNode

namespace Row
open ParseNode

/-- The rows of trees that follow each other, from row `i` on. -/
def ofForest (i : Nat) : List (Option Nat × ParseNode) → List Row
  | [] => []
  | (parent, n) :: rest => n.rows parent i ++ ofForest (i + n.size) rest

/-- The trees that name one parent are its children. -/
theorem ofForest_append {i : Nat} {parent : Option Nat} {own rest : List (Option Nat × ParseNode)}
    (hown : ∀ entry ∈ own, entry.1 = parent) :
    ofForest i (own ++ rest) =
      rowsAll parent i (own.map (·.2)) ++ ofForest (i + sizeAll (own.map (·.2))) rest := by
  induction own generalizing i with
  | nil => rfl
  | cons entry own ih =>
    obtain ⟨p, n⟩ := entry
    obtain rfl : p = parent := hown _ List.mem_cons_self
    rw [List.cons_append, ofForest,
      ih fun entry hentry => hown entry (List.mem_cons_of_mem _ hentry), List.map_cons,
      rowsAll, sizeAll, List.append_assoc, Nat.add_assoc]

/-- No row is lost where trees are grafted. -/
theorem ofForest_forest (table : List Row) (i : Nat) : ofForest i (forest i table) = table := by
  induction table generalizing i with
  | nil => rfl
  | cons row rest ih =>
    rw [forest, graft, List.span_eq_takeWhile_dropWhile]
    have hown : ∀ entry ∈ (forest (i + 1) rest).takeWhile (·.1 == some i), entry.1 = some i := by
      intro entry hentry
      have hnames := List.mem_takeWhile_imp hentry
      exact beq_iff_eq.mp hnames
    have hforest : ofForest (i + 1) ((forest (i + 1) rest).takeWhile (·.1 == some i) ++
        (forest (i + 1) rest).dropWhile (·.1 == some i)) = _ := ofForest_append hown
    rw [List.takeWhile_append_dropWhile, ih] at hforest
    rw [ofForest, rows, size, List.cons_append, ← Nat.add_assoc, ← hforest]

/-- The rows from `next` on stand in preorder below those of a path, the innermost first: each names
a row of the path as its parent, and with that starts the path of the rows after it. -/
def isPreorderBelow (next : Nat) (path : List Nat) : List Row → Bool
  | [] => true
  | row :: rows =>
    match row.parent with
    | none => false
    | some p =>
      path.contains p && isPreorderBelow (next + 1) (next :: path.dropWhile (· != p)) rows

/-- The first row is that of the root, and the rows after it are in preorder below it. -/
def isPreorder : List Row → Bool
  | [] => false
  | root :: rows => root.parent.isNone && isPreorderBelow 1 [0] rows

/-- The trees name rows of a path as their parents, the innermost first. -/
inductive Along : List Nat → List (Option Nat × ParseNode) → Prop
  | nil (path : List Nat) : Along path []
  | own {p : Nat} {path : List Nat} {entry : Option Nat × ParseNode}
      {rest : List (Option Nat × ParseNode)} (names : entry.1 = some p)
      (after : Along (p :: path) rest) : Along (p :: path) (entry :: rest)
  | up {p : Nat} {path : List Nat} {entries : List (Option Nat × ParseNode)}
      (above : Along path entries) : Along (p :: path) entries

theorem Along.names {path : List Nat} {entry : Option Nat × ParseNode}
    {rest : List (Option Nat × ParseNode)} (h : Along path (entry :: rest)) :
    ∃ p ∈ path, entry.1 = some p := by
  induction path with
  | nil => cases h
  | cons q path ih =>
    cases h with
    | own names => exact ⟨q, List.mem_cons_self, names⟩
    | up above =>
      obtain ⟨p, hp, hnames⟩ := ih above
      exact ⟨p, List.mem_cons_of_mem _ hp, hnames⟩

theorem Along.dropWhile {i : Nat} {path : List Nat} {entries : List (Option Nat × ParseNode)}
    (h : Along (i :: path) entries) (hfresh : i ∉ path) :
    Along path (entries.dropWhile (·.1 == some i)) := by
  induction entries with
  | nil => exact .nil path
  | cons entry rest ih =>
    cases h with
    | own names after =>
      rw [List.dropWhile_cons_of_pos (by simp [names])]
      exact ih after
    | up above =>
      obtain ⟨p, hp, hnames⟩ := above.names
      have hne : p ≠ i := fun h => hfresh (h ▸ hp)
      rw [List.dropWhile_cons_of_neg (by simp [hnames, hne])]
      exact above

theorem Along.of_dropWhile {f : Nat → Bool} {path : List Nat}
    {entries : List (Option Nat × ParseNode)} (h : Along (path.dropWhile f) entries) :
    Along path entries := by
  induction path with
  | nil => exact h
  | cons p path ih =>
    rw [List.dropWhile_cons] at h
    split at h
    · exact .up (ih h)
    · exact h

theorem exists_dropWhile_of_mem {p : Nat} {path : List Nat} (hp : p ∈ path) :
    ∃ outer, path.dropWhile (· != p) = p :: outer := by
  induction path with
  | nil => cases hp
  | cons q path ih =>
    by_cases hq : q = p
    · exact ⟨path, by rw [List.dropWhile_cons_of_neg (by simp [hq]), hq]⟩
    · obtain ⟨outer, houter⟩ := ih (List.mem_of_ne_of_mem (Ne.symm hq) hp)
      exact ⟨outer, by rw [List.dropWhile_cons_of_pos (by simp [hq]), houter]⟩

theorem along_forest {next : Nat} {path : List Nat} {rows : List Row}
    (h : isPreorderBelow next path rows = true) (hpath : ∀ p ∈ path, p < next) :
    Along path (forest next rows) := by
  induction rows generalizing next path with
  | nil => exact .nil path
  | cons row rows ih =>
    rw [isPreorderBelow] at h
    cases hparent : row.parent with
    | none => simp [hparent] at h
    | some p =>
      simp only [hparent, Bool.and_eq_true, List.contains_iff_mem] at h
      obtain ⟨hp, hrows⟩ := h
      have hup : ∀ q ∈ path.dropWhile (· != p), q < next := fun q hq =>
        hpath q (List.dropWhile_subset _ hq)
      have hbelow := ih hrows fun q hq => by
        rcases List.mem_cons.mp hq with rfl | hq
        · exact Nat.lt_succ_self q
        · exact Nat.lt_succ_of_lt (hup q hq)
      have hothers := hbelow.dropWhile fun hnext => Nat.lt_irrefl next (hup next hnext)
      rw [forest, graft, List.span_eq_takeWhile_dropWhile]
      refine .of_dropWhile (f := (· != p)) ?_
      obtain ⟨outer, houter⟩ := exists_dropWhile_of_mem hp
      rw [houter] at hothers ⊢
      exact .own hparent hothers

/-- A table in preorder has a tree. -/
theorem exists_tree? {table : List Row} (h : isPreorder table = true) :
    ∃ root, tree? table = some root := by
  cases table with
  | nil => cases h
  | cons root rows =>
    rw [isPreorder, Bool.and_eq_true, Option.isNone_iff_eq_none] at h
    have hbelow := (along_forest h.2 (by simp)).dropWhile List.not_mem_nil
    have hothers : (forest 1 rows).dropWhile (·.1 == some 0) = [] := by
      generalize (forest 1 rows).dropWhile (·.1 == some 0) = others at hbelow
      cases hbelow
      rfl
    rw [tree?, forest, graft, List.span_eq_takeWhile_dropWhile, hothers, h.1]
    exact ⟨_, rfl⟩

/-- The rows of a table with a tree are those of the tree. -/
theorem rows_of_tree? {table : List Row} {root : ParseNode} (h : tree? table = some root) :
    table = root.rows none 0 := by
  rw [tree?] at h
  split at h
  · rename_i hforest
    cases h
    have hrows := ofForest_forest table 0
    rw [hforest, ofForest, ofForest, List.append_nil] at hrows
    exact hrows.symm
  · cases h

/-- What is at the start of a part of a list, and the rest of the part. -/
theorem cons_isPrefix_drop {α : Type} {l part : List α} {a : α} {i : Nat}
    (h : a :: part <+: l.drop i) : l[i]? = some a ∧ part <+: l.drop (i + 1) := by
  obtain ⟨rest, hrest⟩ := h
  constructor
  · rw [← Nat.add_zero i, ← List.getElem?_drop, ← hrest]
    rfl
  · refine ⟨rest, ?_⟩
    rw [← List.drop_drop, ← hrest]
    rfl

theorem append_isPrefix_drop {α : Type} {l a b : List α} {i : Nat} (h : a ++ b <+: l.drop i) :
    a <+: l.drop i ∧ b <+: l.drop (i + a.length) := by
  obtain ⟨rest, hrest⟩ := h
  rw [List.append_assoc] at hrest
  refine ⟨⟨b ++ rest, hrest⟩, rest, ?_⟩
  rw [← List.drop_drop, ← hrest, List.drop_left]

/-- The first of the rows of a node is its own. -/
theorem rows_isPrefix_drop {table : List Row} {parent : Option Nat} {i : Nat} {n : ParseNode}
    (h : n.rows parent i <+: table.drop i) : table[i]? = some ⟨parent, n.token⟩ := by
  cases n
  rw [rows] at h
  exact (cons_isPrefix_drop h).1

theorem kept_iff_of_get {table : List Row} {i : Nat} {row : Row} (h : table[i]? = some row) :
    Kept table i ↔
      row.parent = none ∨ ∃ p, row.parent = some p ∧ row.token.isStructural = true ∧
        Kept table p := by
  constructor
  · intro hkept
    cases hkept with
    | root get top =>
      obtain rfl := Option.some.inj (h.symm.trans get)
      exact .inl top
    | inner get parent structural above =>
      obtain rfl := Option.some.inj (h.symm.trans get)
      exact .inr ⟨_, parent, structural, above⟩
  · rintro (htop | ⟨p, hparent, hstructural, hkept⟩)
    · exact .root h htop
    · exact .inner h hparent hstructural hkept

mutual

/-- Below a row that is kept the kept rows are those that are reached from it. -/
theorem kept_iff_mem_keptRows {table : List Row} {parent : Option Nat} {i j : Nat} :
    ∀ {n : ParseNode}, n.rows parent i <+: table.drop i → i ≤ j → j < i + n.size →
      (Kept table j ↔ Kept table i ∧ j ∈ n.keptRows i)
  | .node t cs, h, hlow, hhigh => by
    rw [rows] at h
    rw [size] at hhigh
    rw [keptRows, List.mem_cons]
    by_cases hj : j = i
    · subst hj
      simp
    · have hcs := kept_iff_mem_keptRowsAll (cons_isPrefix_drop h).2 (by omega : i + 1 ≤ j)
        (by omega)
      rw [hcs]
      simp [hj]

theorem kept_iff_mem_keptRowsAll {table : List Row} {p i j : Nat} :
    ∀ {cs : List ParseNode}, rowsAll (some p) i cs <+: table.drop i → i ≤ j →
      j < i + sizeAll cs → (Kept table j ↔ Kept table p ∧ j ∈ keptRowsAll i cs)
  | [], _, hlow, hhigh => by
    rw [sizeAll] at hhigh
    omega
  | c :: cs, h, hlow, hhigh => by
    rw [rowsAll] at h
    rw [sizeAll] at hhigh
    obtain ⟨hc, hcs⟩ := append_isPrefix_drop h
    rw [length_rows] at hcs
    rw [keptRowsAll, List.mem_append]
    by_cases hj : j < i + c.size
    · have hnot : ¬ j ∈ keptRowsAll (i + c.size) cs := fun hmem => by
        have hrange := mem_keptRowsAll hmem
        omega
      -- the row of the child is kept with that of its parent, if it is structural
      have hhead : Kept table i ↔ c.isStructural = true ∧ Kept table p := by
        rw [kept_iff_of_get (rows_isPrefix_drop hc)]
        simp [Token.isStructural, ParseNode.isStructural, ParseNode.isComment, bne]
      rw [kept_iff_mem_keptRows hc hlow hj, hhead]
      cases c.isStructural <;> simp [hnot]
    · have hnot : ¬ j ∈ (if c.isStructural then c.keptRows i else []) := by
        split
        · intro hmem
          exact hj (mem_keptRows hmem).2
        · exact List.not_mem_nil
      rw [kept_iff_mem_keptRowsAll hcs (by omega) (by omega)]
      simp [hnot]

end

/-- A tree keeps the rows that are reached from the first one. -/
theorem mem_keptRows_iff {root : ParseNode} {j : Nat} :
    j ∈ root.keptRows 0 ↔ Kept (root.rows none 0) j := by
  have hfirst : Kept (root.rows none 0) 0 := by
    cases root
    exact .root rfl rfl
  constructor
  · intro hj
    have hrange := mem_keptRows hj
    exact (kept_iff_mem_keptRows List.prefix_rfl hrange.1 hrange.2).mpr ⟨hfirst, hj⟩
  · intro hkept
    have hget : ∃ row, (root.rows none 0)[j]? = some row := by
      cases hkept with
      | root get => exact ⟨_, get⟩
      | inner get => exact ⟨_, get⟩
    obtain ⟨row, hrow⟩ := hget
    have hlt := (List.getElem?_eq_some_iff.mp hrow).1
    rw [length_rows] at hlt
    exact ((kept_iff_mem_keptRows List.prefix_rfl (Nat.zero_le j) (by omega)).mp hkept).2

end Row
end LogProbe
