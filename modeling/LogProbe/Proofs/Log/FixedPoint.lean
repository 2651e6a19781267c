import LogProbe.Proofs.Log.Footprint

/-! Growing again from a target. Growing stops at the target itself, or at the declarator or `return`
above it, which stands for its name or its value. A name or value that is no expression climbs back
to the node above and is found from there again, so every target grows to itself. -/
namespace LogProbe

/-- What can be a name or a value: neither a statement nor a declarator. -/
def Kind.isTerm (k : Kind) : Bool := !k.isStatement && k != .variableDeclarator

/-- Declarators are named by terms, and terms are what functions return. -/
structure Tree.NamesTerms (tree : Tree) : Prop where
  named : ∀ p ∈ tree.places, p.kind = .variableDeclarator →
    ∀ c ∈ p.child? .name, c.kind.isTerm = true
  returned : ∀ p ∈ tree.places, p.kind = .returnStatement →
    ∀ c ∈ p.children.head?, c.kind.isTerm = true

namespace Target

/-- Growing ends at `owner` with a node below it: the name of a declarator or a returned value. -/
structure StandsFor (owner target : Place) : Prop where
  stops : step owner = .halt (some target)
  below : owner.kind = .variableDeclarator ∧ owner.child? .name = some target ∨
    owner.kind = .returnStatement ∧ owner.children.head? = some target

theorem StandsFor.parent? {owner target : Place} (h : StandsFor owner target) :
    target.parent? = some owner := by
  rcases h.below with ⟨-, hname⟩ | ⟨-, hhead⟩
  · exact (Place.of_child? hname).2
  · obtain ⟨c, -, rfl⟩ := List.mem_map.mp (List.mem_of_mem_head? hhead)
    rfl

theorem StandsFor.isNeutral {owner target : Place} (h : StandsFor owner target) :
    owner.kind.isNeutral = true := by
  rcases h.below with ⟨hk, -⟩ | ⟨hk, -⟩ <;> simp [hk, Kind.isNeutral]

theorem isDeclarationList_iff {k : Kind} : k.isDeclarationList = true ↔
    k = .lexicalDeclaration ∨ k = .variableDeclaration := by
  cases k <;> simp [Kind.isDeclarationList]

/-- A declarator in a declaration stands for its name. -/
theorem step_of_declarator {here list : Place} (hlist : here.parent? = some list)
    (hdeclares : list.kind.isDeclarationList = true) (hk : here.kind = .variableDeclarator) :
    step here = .halt (declaredName? here) := by
  have hparameter : here.isParameter = false := by
    rcases isDeclarationList_iff.mp hdeclares with hkind | hkind
    all_goals simp [Place.isParameter, Place.parentKind?, hlist, hkind]
  simp [step, hlist, hk, settle, hparameter, condition?, Kind.isFunctionDeclaration, Kind.isLiteral,
    Kind.isExpression, Kind.isCompound]

/-- Growing ends with the node that it stands at, or with the one that a node stands for. -/
theorem eq_or_standsFor_of_settle {here parent target : Place}
    (hstep : step here = settle here parent) (h : settle here parent = .halt (some target)) :
    target = here ∨ ∃ owner, StandsFor owner target := by
  have hstops : step here = .halt (some target) := by
    rw [hstep, h]
  unfold settle at h
  split at h
  · split at h <;> cases h
    exact .inl rfl
  · split at h
    · cases h
      exact .inl rfl
    · split at h
      · rename_i hk
        right
        exact ⟨here, hstops, .inl ⟨beq_iff_eq.mp hk, Step.halt.inj h⟩⟩
      · split at h
        · -- the first declarator of a declaration stands for its name
          rename_i hdeclares
          obtain ⟨d, hd, hname⟩ := Option.bind_eq_some_iff.mp (Step.halt.inj h)
          obtain ⟨c, -, rfl⟩ := List.mem_map.mp (List.mem_of_find?_eq_some hd)
          have hk := List.find?_some hd
          have hstep' := step_of_declarator (here.parent?_below c) hdeclares (beq_iff_eq.mp hk)
          rw [hname] at hstep'
          right
          exact ⟨here.below c, hstep', .inl ⟨beq_iff_eq.mp hk, hname⟩⟩
        · split at h
          · rename_i hk
            right
            exact ⟨here, hstops, .inr ⟨beq_iff_eq.mp hk, Step.halt.inj h⟩⟩
          · split at h
            · split at h <;> cases h
              exact .inl rfl
            · cases h

theorem eq_or_standsFor {here target : Place} (h : step here = .halt (some target)) :
    target = here ∨ ∃ owner, StandsFor owner target := by
  have hstops := h
  unfold step at h
  split at h
  · cases h
  · rename_i parent hparent
    split at h
    · cases h
    · split at h
      · cases h
        exact .inl rfl
      · split at h
        · cases h
        · split at h
          · cases h
          · apply eq_or_standsFor_of_settle _ h
            rw [hstops, h]

theorem Grows.exists_last {here target : Place} {rounds : Nat}
    (h : Grows here (some target) rounds) : ∃ last, step last = .halt (some target) := by
  generalize hsome : some target = found at h
  induction h with
  | halt stops =>
    subst hsome
    exact ⟨_, stops⟩
  | climb _ _ _ ih => exact ih hsome
  | descend _ _ ih => exact ih hsome

/-- What a node stands for is found again from itself, by way of that node if it is no
expression. -/
theorem StandsFor.grows {owner target : Place} (h : StandsFor owner target)
    (hterm : target.kind.isTerm = true) :
    if target.kind.isExpression then step target = .halt (some target)
    else Grows target (some target) 2 := by
  by_cases hexpression : target.kind.isExpression = true
  · rw [if_pos hexpression]
    exact step_of_isExpression h.parent? h.isNeutral hexpression
  · rw [if_neg hexpression]
    have halone : target.kind.standsAlone = false := by
      simp only [Kind.isTerm, Bool.and_eq_true, Bool.not_eq_true', bne_iff_ne] at hterm
      simp [Kind.standsAlone, hexpression, hterm.1, hterm.2]
    have hback := step_below_neutral h.parent? h.isNeutral
    rw [halone, if_neg Bool.false_ne_true] at hback
    exact .climb hback h.parent? (.halt h.stops)

/-- An expression at which growing stops is no part of a larger one. -/
theorem whole_of_step {target parent : Place} (hparent : target.parent? = some parent)
    (hexpression : target.kind.isExpression = true) (h : step target = .halt (some target)) :
    isPartOf target parent = false ∧ (target.kind.isLiteral = true →
      parent.kind = .subscriptExpression → target.field ≠ some .index) := by
  have hf := isFunctionDeclaration_of_isExpression hexpression
  constructor
  · by_contra hpart
    rw [Bool.not_eq_false] at hpart
    simp only [step, hparent, settle, hexpression, hpart, hf, Bool.false_eq_true, if_true,
      if_false] at h
    repeat' split at h
    all_goals cases h
  · intro hliteral hsubscript hindex
    simp [step, hparent, hsubscript, hliteral, hindex, hf] at h

/-- A target grows to itself, within two rounds, and an expression that is a target is neither the
property of an access, nor what is called, nor a literal index. -/
theorem target_grows_to_itself (tree : Tree) (h : tree.NamesTerms) {p target : Place}
    (hp : p ∈ tree.places) (htarget : p.expand = .ok (some target)) :
    target.expand = .ok (some target) ∧ (∃ rounds ≤ 2, Grows target (some target) rounds) ∧
    (target.kind.isExpression = true → ∀ parent, target.parent? = some parent →
      (parent.kind = .memberExpression → target.field ≠ some .property) ∧
      (parent.kind = .callExpression → target.field ≠ some .function) ∧
      (parent.kind = .newExpression → target.field ≠ some .constructor) ∧
      (parent.kind = .subscriptExpression → target.field = some .index →
        target.kind.isLiteral = false)) := by
  obtain ⟨rounds, hgrows⟩ := expand_eq_ok_iff.mp htarget
  have hmem : target ∈ tree.places := hgrows.closed tree.closed_places hp
  obtain ⟨last, hlast⟩ := hgrows.exists_last
  have hself : (∃ n ≤ 2, Grows target (some target) n) ∧
      (target.kind.isExpression = true → step target = .halt (some target)) := by
    rcases eq_or_standsFor hlast with rfl | ⟨owner, howner⟩
    · exact ⟨⟨1, by omega, .halt hlast⟩, fun _ => hlast⟩
    · have hup : owner ∈ tree.places := tree.closed_places.parent hmem howner.parent?
      have hterm : target.kind.isTerm = true := by
        rcases howner.below with ⟨hk, hname⟩ | ⟨hk, hhead⟩
        · exact h.named owner hup hk target hname
        · exact h.returned owner hup hk target hhead
      have hgrows := howner.grows hterm
      by_cases hexpression : target.kind.isExpression = true
      · rw [if_pos hexpression] at hgrows
        exact ⟨⟨1, by omega, .halt hgrows⟩, fun _ => hgrows⟩
      · rw [if_neg hexpression] at hgrows
        exact ⟨⟨2, by omega, hgrows⟩, fun hterm => absurd hterm hexpression⟩
  obtain ⟨⟨n, hn, hagain⟩, hstep⟩ := hself
  refine ⟨expand_eq_ok_iff.mpr ⟨n, hagain⟩, ⟨n, hn, hagain⟩, ?_⟩
  intro hexpression parent hparent
  obtain ⟨hpart, hindex⟩ := whole_of_step hparent hexpression (hstep hexpression)
  simp only [isPartOf, Bool.or_eq_false_iff, Bool.and_eq_false_imp, beq_iff_eq,
    beq_eq_false_iff_ne] at hpart
  obtain ⟨⟨hmember, hcall⟩, hnew⟩ := hpart
  refine ⟨hmember, hcall, hnew, ?_⟩
  intro hsubscript hfield
  by_contra hliteral
  exact hindex (by simpa using hliteral) hsubscript hfield

/-- A declaration that takes a value apart. -/
def takenApart : ParseTable where
  grammar := .javascript
  text := "let \x7ba\x7d = b;\n".toList
  hasErrors := false
  rows := [
    ⟨none, "program", true, none, 0, 13, none⟩,
    ⟨some 0, "lexical_declaration", true, none, 0, 12, none⟩,
    ⟨some 1, "let", false, none, 0, 3, none⟩,
    ⟨some 1, "variable_declarator", true, none, 4, 11, none⟩,
    ⟨some 3, "object_pattern", true, some "name", 4, 7, none⟩,
    ⟨some 4, "\x7b", false, none, 4, 5, none⟩,
    ⟨some 4, "shorthand_property_identifier_pattern", true, none, 5, 6, none⟩,
    ⟨some 4, "\x7d", false, none, 6, 7, none⟩,
    ⟨some 3, "=", false, none, 8, 9, none⟩,
    ⟨some 3, "identifier", true, some "value", 10, 11, none⟩,
    ⟨some 1, ";", false, none, 11, 12, none⟩]

/-- The pattern is no expression; it is the target of the declaration and its own. -/
theorem takenApart_target :
    ∃ tree declaration pattern,
      (Parser.ofTables [takenApart]).document? "javascript" takenApart.text = .ok (some tree) ∧
      tree.NamesTerms ∧ tree.locate? 1 1 = some declaration ∧ declaration ∈ tree.places ∧
      declaration.expand = .ok (some pattern) ∧ pattern.kind = .other ∧
      pattern.expand = .ok (some pattern) := by
  obtain ⟨tree, htree, hterms⟩ : ∃ tree,
      (Parser.ofTables [takenApart]).document? "javascript" takenApart.text = .ok (some tree) ∧
      tree.NamesTerms := ⟨_, rfl, ⟨by decide, by decide⟩⟩
  cases htree
  refine ⟨_, _, _, rfl, hterms, rfl, List.mem_of_getElem? (rfl : _[1]? = _), rfl, rfl, ?_⟩
  exact (target_grows_to_itself _ hterms (List.mem_of_getElem? (rfl : _[1]? = _)) rfl).1

end Target
end LogProbe
