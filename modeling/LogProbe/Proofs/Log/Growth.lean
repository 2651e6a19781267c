import LogProbe.Log.Target
import LogProbe.Proofs.Syntax.Place

/-! How growing a target ends. A round of growing stops, climbs to the parent or goes down into the
parentheses of a condition. The round after a step down must stop, since a climb would undo it; it
stops for every kind but those at which growing passes on. -/
namespace LogProbe

/-- The kinds at which growing stops inside the parentheses of a condition. -/
def Kind.standsAlone (k : Kind) : Bool :=
  k.isExpression || k.isStatement || k == .variableDeclarator

/-- The kinds below which no rule of growing looks at the parent. -/
def Kind.isNeutral : Kind → Bool
  | .parenthesizedExpression | .variableDeclarator | .returnStatement => true
  | _ => false

namespace Target

/-- The parentheses around a condition, with the first node inside them. -/
def Encloses (p inner : Place) : Prop :=
  p.kind = .parenthesizedExpression ∧
    (∃ parent, p.parent? = some parent ∧ parent.kind.hasParenthesizedCondition = true) ∧
    p.children.head? = some inner

/-- From `here` the loop returns `target` in its round number `n`. -/
inductive Grows : Place → Option Place → Nat → Prop
  | halt {here target} (stops : step here = .halt target) : Grows here target 1
  | climb {here parent target n} (goes : step here = .climb) (up : here.parent? = some parent)
      (tail : Grows parent target n) : Grows here target (n + 1)
  | descend {here inner target n} (goes : step here = .descend inner)
      (tail : Grows inner target n) : Grows here target (n + 1)

theorem parent?_of_encloses {p inner : Place} (h : Encloses p inner) : inner.parent? = some p := by
  obtain ⟨-, -, hhead⟩ := h
  obtain ⟨child, -, rfl⟩ := List.mem_map.mp (List.mem_of_mem_head? hhead)
  rfl

theorem Encloses.isNeutral {p inner : Place} (h : Encloses p inner) : p.kind.isNeutral = true := by
  rw [h.1]
  rfl

theorem step_of_parent?_none {here : Place} (h : here.parent? = none) : step here = .halt none := by
  rw [step, h]

theorem settle_ne_descend (here parent inner : Place) : settle here parent ≠ .descend inner := by
  unfold settle
  repeat' split
  all_goals simp

/-- Growing goes down exactly at the parentheses of a condition. -/
theorem step_eq_descend_iff {here inner : Place} :
    step here = .descend inner ↔ Encloses here inner := by
  constructor
  · intro h
    unfold step at h
    split at h
    · cases h
    · rename_i parent hparent
      split at h
      · cases h
      · split at h
        · cases h
        · split at h
          · cases h
          · split at h
            · rename_i inner' hcondition
              cases h
              unfold condition? at hcondition
              split at hcondition
              · rename_i hk
                simp only [Bool.and_eq_true, beq_iff_eq] at hk
                exact ⟨hk.1, ⟨parent, hparent, hk.2⟩, hcondition⟩
              · cases hcondition
            · exact absurd h (settle_ne_descend here parent inner)
  · rintro ⟨hk, ⟨parent, hparent, howner⟩, hhead⟩
    simp [step, hparent, hk, Kind.isFunctionDeclaration, Kind.isLiteral, condition?, howner, hhead]

theorem standsAlone_of_isFunctionDeclaration {k : Kind} (h : k.isFunctionDeclaration = true) :
    k.standsAlone = true := by
  cases k <;> first | rfl | cases h

theorem isFunctionDeclaration_of_isExpression {k : Kind} (h : k.isExpression = true) :
    k.isFunctionDeclaration = false := by
  cases k <;> first | rfl | cases h

theorem isStatement_of_isDeclarationList {k : Kind} (h : k.isDeclarationList = true) :
    k.isStatement = true := by
  cases k <;> first | rfl | cases h

theorem isNeutral_iff {k : Kind} : k.isNeutral = true ↔
    k = .parenthesizedExpression ∨ k = .variableDeclarator ∨ k = .returnStatement := by
  cases k <;> simp [Kind.isNeutral]

/-- Below a neutral parent the rules for names, indices, conditions, parts and parameters do not
apply. -/
theorem rules_of_isNeutral {here parent : Place} (hparent : here.parent? = some parent)
    (hk : parent.kind.isNeutral = true) :
    parent.kind.isFunctionDeclaration = false ∧ (parent.kind == .subscriptExpression) = false ∧
      condition? here parent = none ∧ isPartOf here parent = false ∧ here.isParameter = false := by
  rcases isNeutral_iff.mp hk with hk | hk | hk
  all_goals
    simp [hk, Kind.isFunctionDeclaration, condition?, Kind.hasParenthesizedCondition, isPartOf,
      Place.isParameter, Place.parentKind?, hparent]

theorem step_eq_settle {here parent : Place} (hparent : here.parent? = some parent)
    (hk : parent.kind.isNeutral = true) (hf : here.kind.isFunctionDeclaration = false) :
    step here = settle here parent := by
  obtain ⟨howner, hindex, hcondition, -, -⟩ := rules_of_isNeutral hparent hk
  simp [step, hparent, howner, hindex, hcondition, hf]

/-- Below a neutral parent growing stops at an expression. -/
theorem step_of_isExpression {here parent : Place} (hparent : here.parent? = some parent)
    (hk : parent.kind.isNeutral = true) (hexpression : here.kind.isExpression = true) :
    step here = .halt (some here) := by
  have hf := isFunctionDeclaration_of_isExpression hexpression
  obtain ⟨-, -, -, hpart, -⟩ := rules_of_isNeutral hparent hk
  rw [step_eq_settle hparent hk hf, settle, hpart, if_pos hexpression]
  rfl

/-- Below a neutral parent growing stops at a node that stands alone and climbs back from every
other. -/
theorem step_below_neutral {here parent : Place} (hparent : here.parent? = some parent)
    (hk : parent.kind.isNeutral = true) :
    if here.kind.standsAlone then ∃ target, step here = .halt target else step here = .climb := by
  by_cases hf : here.kind.isFunctionDeclaration = true
  · rw [if_pos (standsAlone_of_isFunctionDeclaration hf), step, hparent]
    have hname : (here.kind == .identifier) = false := by
      rw [beq_eq_false_iff_ne]
      intro hk
      rw [hk] at hf
      cases hf
    simp [hname, hf]
  by_cases hexpression : here.kind.isExpression = true
  · rw [if_pos (by simp [Kind.standsAlone, hexpression])]
    exact ⟨_, step_of_isExpression hparent hk hexpression⟩
  obtain ⟨-, -, -, -, hparameter⟩ := rules_of_isNeutral hparent hk
  rw [step_eq_settle hparent hk (by simpa using hf), settle, hparameter, if_neg hexpression]
  simp only [Bool.false_eq_true, if_false]
  by_cases hdeclarator : (here.kind == .variableDeclarator) = true
  · rw [if_pos (by simp [Kind.standsAlone, hdeclarator]), if_pos hdeclarator]
    exact ⟨_, rfl⟩
  rw [if_neg hdeclarator]
  by_cases hstatement : here.kind.isStatement = true
  · rw [if_pos (by simp [Kind.standsAlone, hstatement]), if_pos hstatement]
    split
    · exact ⟨_, rfl⟩
    · split <;> exact ⟨_, rfl⟩
  · have hlist : ¬ here.kind.isDeclarationList = true :=
      mt isStatement_of_isDeclarationList hstatement
    have hreturn : ¬ (here.kind == .returnStatement) = true := by
      rw [beq_iff_eq]
      intro hkind
      rw [hkind] at hstatement
      exact hstatement rfl
    rw [if_neg (by simp [Kind.standsAlone, hexpression, hstatement, hdeclarator]), if_neg hlist,
      if_neg hreturn, if_neg hstatement]

/-- A step down is undone exactly if the node inside the parentheses does not stand alone. -/
theorem climb_after_descend_iff {p inner : Place} (h : step p = .descend inner) :
    step inner = .climb ↔ inner.kind.standsAlone = false := by
  have hin := step_eq_descend_iff.mp h
  have hstep := step_below_neutral (parent?_of_encloses hin) hin.isNeutral
  cases hkind : inner.kind.standsAlone with
  | true =>
    rw [if_pos hkind] at hstep
    obtain ⟨target, hhalt⟩ := hstep
    simp [hhalt]
  | false =>
    rw [if_neg (by simp [hkind])] at hstep
    simp [hstep]

/-- A step down that the next round undoes is never left. -/
theorem not_grows_of_cycle {p inner : Place} (hdown : step p = .descend inner)
    (hup : step inner = .climb) (hparent : inner.parent? = some p) (target : Option Place)
    (n : Nat) : ¬ Grows p target n := by
  have hboth : ∀ here, Grows here target n → here ≠ p ∧ here ≠ inner := by
    intro here h
    induction h with
    | halt stops =>
      constructor <;> rintro rfl
      · rw [hdown] at stops
        cases stops
      · rw [hup] at stops
        cases stops
    | climb goes up tail ih =>
      constructor <;> rintro rfl
      · rw [hdown] at goes
        cases goes
      · rw [hparent] at up
        exact ih.1 (Option.some.inj up).symm
    | descend goes tail ih =>
      constructor <;> rintro rfl
      · rw [hdown] at goes
        cases goes
        exact ih.2 rfl
      · rw [hup] at goes
        cases goes
  exact fun h => (hboth p h).1 rfl

theorem Grows.unique {here : Place} {target target' : Option Place} {n n' : Nat}
    (h : Grows here target n) (h' : Grows here target' n') : target = target' ∧ n = n' := by
  induction h generalizing target' n' with
  | halt stops =>
    cases h' with
    | halt stops' => exact ⟨Step.halt.inj (stops.symm.trans stops'), rfl⟩
    | climb goes' => exact nomatch stops.symm.trans goes'
    | descend goes' => exact nomatch stops.symm.trans goes'
  | climb goes up _ ih =>
    cases h' with
    | halt stops' => exact nomatch goes.symm.trans stops'
    | climb _ up' tail' =>
      obtain rfl := Option.some.inj (up.symm.trans up')
      obtain ⟨rfl, rfl⟩ := ih tail'
      exact ⟨rfl, rfl⟩
    | descend goes' => exact nomatch goes.symm.trans goes'
  | descend goes _ ih =>
    cases h' with
    | halt stops' => exact nomatch goes.symm.trans stops'
    | climb goes' => exact nomatch goes.symm.trans goes'
    | descend goes' tail' =>
      obtain rfl := Step.descend.inj (goes.symm.trans goes')
      obtain ⟨rfl, rfl⟩ := ih tail'
      exact ⟨rfl, rfl⟩

/-- The places that growing climbs to before its first step down. -/
inductive Climbs : Place → Place → Prop
  | refl (p : Place) : Climbs p p
  | up {p parent q : Place} (goes : step p = .climb) (above : p.parent? = some parent)
      (tail : Climbs parent q) : Climbs p q

theorem Grows.along {p q : Place} {target : Option Place} {n : Nat} (hq : Climbs p q)
    (h : Grows p target n) : ∃ m, Grows q target m := by
  induction hq generalizing n with
  | refl => exact ⟨n, h⟩
  | up goes above _ ih =>
    cases h with
    | halt stops => exact nomatch goes.symm.trans stops
    | climb _ above' tail =>
      obtain rfl := Option.some.inj (above.symm.trans above')
      exact ih tail
    | descend goes' => exact nomatch goes.symm.trans goes'

/-- Parentheses reached on the way up let growing end only if the node inside stands alone. -/
theorem Grows.standsAlone {p q inner : Place} {target : Option Place} {n : Nat}
    (h : Grows p target n) (hq : Climbs p q) (hin : Encloses q inner) :
    inner.kind.standsAlone = true := by
  obtain ⟨m, hm⟩ := h.along hq
  have hdown := step_eq_descend_iff.mpr hin
  cases hkind : inner.kind.standsAlone with
  | true => rfl
  | false =>
    have hup := (climb_after_descend_iff hdown).mpr hkind
    exact absurd hm (not_grows_of_cycle hdown hup (parent?_of_encloses hin) target m)

/-- Either growing returns within one round more than there are nodes above, or it climbs to
parentheses that it does not get out of. -/
theorem expandFrom_spec (n : Node) (above : List Node) :
    match expandFrom n above with
    | .ok target => ∃ rounds ≤ above.length + 1, Grows ⟨n, above⟩ target rounds
    | .error _ => ∃ q inner, Climbs ⟨n, above⟩ q ∧ Encloses q inner ∧
        inner.kind.standsAlone = false := by
  induction above generalizing n with
  | nil => exact ⟨1, Nat.le_refl 1, .halt (step_of_parent?_none rfl)⟩
  | cons parent above ih =>
    have hparent : (⟨n, parent :: above⟩ : Place).parent? = some ⟨parent, above⟩ := rfl
    rw [expandFrom]
    cases hstep : step ⟨n, parent :: above⟩ with
    | halt target => exact ⟨1, by simp, .halt hstep⟩
    | climb =>
      have htail := ih parent
      cases hrest : expandFrom parent above with
      | ok target =>
        rw [hrest] at htail
        obtain ⟨rounds, hle, hgrows⟩ := htail
        exact ⟨rounds + 1, by simpa using hle, .climb hstep hparent hgrows⟩
      | error e =>
        rw [hrest] at htail
        obtain ⟨q, inner, hq, hin⟩ := htail
        exact ⟨q, inner, .up hstep hparent hq, hin⟩
    | descend inner =>
      have hin := step_eq_descend_iff.mp hstep
      have hinner := step_below_neutral (parent?_of_encloses hin) hin.isNeutral
      by_cases hkind : inner.kind.standsAlone = true
      · rw [if_pos hkind] at hinner
        obtain ⟨target, hhalt⟩ := hinner
        simp only [hhalt]
        exact ⟨2, by simp, .descend hstep (.halt hhalt)⟩
      · rw [if_neg hkind] at hinner
        simp only [hinner]
        exact ⟨_, inner, .refl _, hin, by simpa using hkind⟩

/-- `expand` computes what the loop returns. -/
theorem expand_eq_ok_iff {p : Place} {target : Option Place} :
    p.expand = .ok target ↔ ∃ rounds, Grows p target rounds := by
  have hspec := expandFrom_spec p.node p.above
  rw [Place.expand]
  constructor
  · intro h
    rw [h] at hspec
    obtain ⟨rounds, -, hgrows⟩ := hspec
    exact ⟨rounds, hgrows⟩
  · rintro ⟨rounds, hgrows⟩
    cases hexpand : expandFrom p.node p.above with
    | ok target' =>
      rw [hexpand] at hspec
      obtain ⟨rounds', -, hgrows'⟩ := hspec
      rw [(hgrows.unique hgrows').1]
    | error e =>
      rw [hexpand] at hspec
      obtain ⟨q, inner, hq, hin, hkind⟩ := hspec
      have hstands := hgrows.standsAlone hq hin
      rw [hkind] at hstands
      cases hstands

/-- The loop returns from a place exactly if the parentheses that it climbs to hold a node that
stands alone; it then takes at most one round more than there are nodes above. -/
theorem grows_iff {p : Place} :
    (∃ target, ∃ rounds ≤ p.above.length + 1, Grows p target rounds) ↔
      ∀ q inner, Climbs p q → Encloses q inner → inner.kind.standsAlone = true := by
  constructor
  · rintro ⟨target, rounds, -, hgrows⟩ q inner hq hin
    exact hgrows.standsAlone hq hin
  · intro h
    have hspec := expandFrom_spec p.node p.above
    cases hexpand : expandFrom p.node p.above with
    | ok target =>
      rw [hexpand] at hspec
      exact ⟨target, hspec⟩
    | error e =>
      rw [hexpand] at hspec
      obtain ⟨q, inner, hq, hin, hkind⟩ := hspec
      rw [h q inner hq hin] at hkind
      cases hkind

theorem Climbs.mem_places {tree : Tree} {p q : Place} (h : Climbs p q) (hp : p ∈ tree.places) :
    q ∈ tree.places := by
  induction h with
  | refl => exact hp
  | up _ above _ ih => exact ih (tree.closed_places.parent hp above)

/-- Growing ends for all places of a tree exactly if all parentheses around a condition hold a node
that stands alone. -/
theorem growing_ends_iff (tree : Tree) :
    (∀ p target, p.expand = .ok target ↔ ∃ rounds, Grows p target rounds) ∧
    (∀ p inner, step p = .descend inner →
      (step inner = .climb ↔ inner.kind.standsAlone = false)) ∧
    (∀ p : Place, (∃ target, ∃ rounds ≤ p.above.length + 1, Grows p target rounds) ↔
      ∀ q inner, Climbs p q → Encloses q inner → inner.kind.standsAlone = true) ∧
    ((∀ p ∈ tree.places, ∃ target rounds, Grows p target rounds) ↔
      ∀ p ∈ tree.places, ∀ inner, Encloses p inner → inner.kind.standsAlone = true) := by
  refine ⟨fun p target => expand_eq_ok_iff, fun p inner => climb_after_descend_iff,
    fun p => grows_iff, ?_, ?_⟩
  · intro h p hp inner hin
    obtain ⟨target, rounds, hgrows⟩ := h p hp
    exact hgrows.standsAlone (.refl p) hin
  · intro h p hp
    obtain ⟨target, rounds, -, hgrows⟩ :=
      grows_iff.mpr fun q inner hq hin => h q (hq.mem_places hp) inner hin
    exact ⟨target, rounds, hgrows⟩

/-- A condition that is a namespace, which the grammar takes for an expression. -/
def namespaceCondition : ParseTable where
  grammar := .typescript
  text := "if (namespace A \x7b\x7d) b();\n".toList
  hasErrors := false
  rows := [
    ⟨none, "program", true, none, 0, 25, none⟩,
    ⟨some 0, "if_statement", true, none, 0, 24, none⟩,
    ⟨some 1, "if", false, none, 0, 2, none⟩,
    ⟨some 1, "parenthesized_expression", true, some "condition", 3, 19, none⟩,
    ⟨some 3, "(", false, none, 3, 4, none⟩,
    ⟨some 3, "internal_module", true, none, 4, 18, none⟩,
    ⟨some 5, "namespace", false, none, 4, 13, none⟩,
    ⟨some 5, "identifier", true, some "name", 14, 15, none⟩,
    ⟨some 5, "statement_block", true, some "body", 16, 18, none⟩,
    ⟨some 8, "\x7b", false, none, 16, 17, none⟩,
    ⟨some 8, "\x7d", false, none, 17, 18, none⟩,
    ⟨some 3, ")", false, none, 18, 19, none⟩,
    ⟨some 1, "expression_statement", true, some "consequence", 20, 24, none⟩,
    ⟨some 12, "call_expression", true, none, 20, 23, none⟩,
    ⟨some 13, "identifier", true, some "function", 20, 21, none⟩,
    ⟨some 13, "arguments", true, some "arguments", 21, 23, none⟩,
    ⟨some 15, "(", false, none, 21, 22, none⟩,
    ⟨some 15, ")", false, none, 22, 23, none⟩,
    ⟨some 12, ";", false, none, 23, 24, none⟩]

theorem namespaceCondition_diverges :
    ∃ tree place,
      (Parser.ofTables [namespaceCondition]).document? "typescript" namespaceCondition.text
        = .ok (some tree) ∧
      tree.locate? 4 4 = some place ∧ place ∈ tree.places ∧
      ¬ ∃ target rounds, Grows place target rounds := by
  refine ⟨_, _, rfl, rfl, List.mem_of_getElem? (rfl : _[3]? = _), ?_⟩
  rintro ⟨target, hgrows⟩
  -- `expand` finds the cycle, so by its specification no number of rounds is enough
  have hexpand := expand_eq_ok_iff.mpr hgrows
  cases hexpand

end Target
end LogProbe
