import LogProbe.Proofs.Log.Footprint
import LogProbe.Proofs.Syntax.Function
import Mathlib.Data.Option.Basic

/-! Where the search for a place ends. From the body of a function and from its parameters no rule
leads out of the function, and at their roots there is a rule that ends the search. -/
namespace LogProbe
namespace Placement
open Place
variable {S : Place → Prop}

theorem place_of_ofLoopBody? {loop : Place} {r : Placement} (hr : ofLoopBody? loop = some r) :
    loop.child? .body = some r.place := by
  obtain ⟨body, hbody, rfl⟩ := Option.map_eq_some_iff.mp hr
  rw [hbody]
  split <;> rfl

theorem place_of_ofControl? {here parent : Place} {r : Placement}
    (hr : ofControl? here parent = some r) :
    r.place = parent ∨ parent.child? .body = some r.place := by
  unfold ofControl? at hr
  split at hr
  · split at hr
    · cases hr
      exact .inl rfl
    · cases hr
  all_goals first | exact .inr (place_of_ofLoopBody? hr) | skip
  · split at hr
    · exact .inr (place_of_ofLoopBody? hr)
    · cases hr
      exact .inl rfl
    · cases hr
  · cases hr

theorem place_of_ofParameter? {here : Place} {r : Placement} (hr : ofParameter? here = some r) :
    ∃ owner, here.parameterOwner? = some owner ∧ owner.child? .body = some r.place := by
  unfold ofParameter? at hr
  split at hr
  · obtain ⟨owner, howner, hr⟩ := Option.bind_eq_some_iff.mp hr
    obtain ⟨body, hbody, hr⟩ := Option.bind_eq_some_iff.mp hr
    refine ⟨owner, howner, ?_⟩
    cases hr
    rw [hbody]
    split <;> rfl
  · cases hr

/-- One step of the search stays within a set of places that holds with a place what is below it. -/
theorem mem_of_rule? (hdown : ∀ {p : Place} {c : Node}, S p → c ∈ p.node.children → S (p.below c))
    {here parent : Place} {r : Placement} (hhere : S here) (hlift : S (liftExport here))
    (hcontrol : ∀ r, ofControl? here parent = some r → S r.place)
    (howner : ∀ owner body, here.parameterOwner? = some owner → owner.child? .body = some body →
      S body)
    (hr : rule? here parent = some r) : S r.place := by
  rcases eq_some_of_orElse hr with hr | hr
  · unfold ofFunction? at hr
    split at hr
    · obtain ⟨body, hbody, rfl⟩ := Option.map_eq_some_iff.mp hr
      obtain ⟨c, hc, rfl⟩ := Option.map_eq_some_iff.mp hbody
      exact hdown hhere (List.mem_of_find?_eq_some hc)
    · cases hr
  rcases eq_some_of_orElse hr with hr | hr
  · unfold ofArrowValue? at hr
    split at hr
    · cases hr
      exact hhere
    · cases hr
  rcases eq_some_of_orElse hr with hr | hr
  · obtain ⟨owner, howned, hbody⟩ := place_of_ofParameter? hr
    exact howner owner _ howned hbody
  rcases eq_some_of_orElse hr with hr | hr
  · exact hcontrol r hr
  · unfold ofStatement? at hr
    split at hr
    · cases hr
      exact hhere
    · split at hr
      · cases hr
        exact hlift
      · cases hr

/-- The search from a place ends within a set, and so does whatever a search from below it may look
up at the place. -/
structure Shelters (S : Place → Prop) (p : Place) : Prop where
  here : S p
  lifted : S (liftExport p)
  /-- The owner of the members, where the place is a list of parameters. -/
  owner : ∀ g body, p.parent? = some g → g.kind.isFunctionLike = true →
    g.child? .body = some body → S body
  placed : ∃ r, ofTarget? p = some r ∧ S r.place

theorem mem_of_child? (hdown : ∀ {p : Place} {c : Node}, S p → c ∈ p.node.children → S (p.below c))
    {p q : Place} {field : Field} (h : S p) (hq : p.child? field = some q) : S q := by
  obtain ⟨c, hc, rfl⟩ := Option.map_eq_some_iff.mp hq
  exact hdown h (List.mem_of_find?_eq_some hc)

theorem parameterOwner?_below {p owner : Place} {c : Node}
    (h : (p.below c).parameterOwner? = some owner) :
    owner.kind.isFunctionLike = true ∧
      (owner = p ∨ p.kind = .formalParameters ∧ p.parent? = some owner) := by
  simp only [parameterOwner?, parent?_below, Option.bind_eq_bind, Option.bind_some] at h
  split at h
  · rename_i hlist
    obtain ⟨g, hg, h⟩ := Option.bind_eq_some_iff.mp h
    split at h
    · rename_i hkind
      cases h
      exact ⟨hkind, .inr ⟨beq_iff_eq.mp hlist, hg⟩⟩
    · cases h
  · split at h
    · rename_i hkind
      cases h
      exact ⟨hkind, .inl rfl⟩
    · cases h

theorem Shelters.below
    (hdown : ∀ {p : Place} {c : Node}, S p → c ∈ p.node.children → S (p.below c))
    {p : Place} {c : Node} (h : Shelters S p) (hc : c ∈ p.node.children) :
    Shelters S (p.below c) := by
  have hhere := hdown h.here hc
  have hlifted : S (liftExport (p.below c)) := by
    change S (if p.node.kind == .exportStatement then liftFrom p.node p.above else p.below c)
    split
    · exact h.lifted
    · exact hhere
  refine ⟨hhere, hlifted, fun g body hg _ hbody => ?_, ?_⟩
  · cases hg
    exact mem_of_child? hdown h.here hbody
  · change ∃ r, (rule? (p.below c) p <|> ofTarget? p) = some r ∧ S r.place
    cases hr : rule? (p.below c) p with
    | none => exact h.placed
    | some r =>
      refine ⟨r, rfl,
        mem_of_rule? hdown hhere hlifted (fun r hr => ?_) (fun g body hg hbody => ?_) hr⟩
      · rcases place_of_ofControl? hr with hplace | hplace
        · rw [hplace]
          exact h.here
        · exact mem_of_child? hdown h.here hplace
      · obtain ⟨hkind, rfl | ⟨-, hup⟩⟩ := parameterOwner?_below hg
        · exact mem_of_child? hdown h.here hbody
        · exact h.owner g body hup hkind hbody

/-- A place shelters if its own step finds a place for the log. -/
theorem Shelters.of_rule?
    (hdown : ∀ {p : Place} {c : Node}, S p → c ∈ p.node.children → S (p.below c))
    {parent : Place} {m : Node} (hhere : S (parent.below m))
    (hlifted : S (liftExport (parent.below m)))
    (hcontrol : ∀ r, ofControl? (parent.below m) parent = some r → S r.place)
    (howner : ∀ owner body, (parent.below m).parameterOwner? = some owner →
      owner.child? .body = some body → S body)
    (habove : parent.kind.isFunctionLike = true → ∀ body, parent.child? .body = some body → S body)
    (hfires : rule? (parent.below m) parent ≠ none) : Shelters S (parent.below m) := by
  obtain ⟨r, hr⟩ := Option.ne_none_iff_exists'.mp hfires
  refine ⟨hhere, hlifted, fun g body hg hkind hbody => ?_, r, ?_,
    mem_of_rule? hdown hhere hlifted hcontrol howner hr⟩
  · cases hg
    exact habove hkind body hbody
  · change (rule? (parent.below m) parent <|> ofTarget? parent) = some r
    rw [hr]
    rfl

/-- From everywhere below a root that shelters, the search ends within the set. -/
theorem Shelters.of_mem_preorder
    (hdown : ∀ {p : Place} {c : Node}, S p → c ∈ p.node.children → S (p.below c))
    {root p : Place} (h : Shelters S root) (hp : p ∈ preorder root.above root.node) :
    Shelters S p :=
  forall_mem_preorder (Shelters.below hdown) h hp

/-- The edit of a log replaces nothing but its node and the blanks before that. -/
theorem exists_render?_within {source : Text} {r : Placement} (h : r.place.label.Sound source)
    (hlow : r.place.label.start ≤ r.place.label.firstTokenEnd)
    (hhigh : r.place.label.firstTokenEnd ≤ r.place.label.stop) (log : Text) :
    ∃ e, r.render? source log = some e ∧ r.place.label.fullStart ≤ e.start ∧ e.start ≤ e.stop ∧
      e.stop ≤ r.place.label.stop := by
  obtain ⟨e, he, hfits⟩ := exists_render? h log
  refine ⟨e, he, ?_⟩
  have hstart := h.fullStart_le
  have hstop := h.start_le
  have hframe : r.place.label.fullStart ≤ (r.frame log).full ∧
      (r.frame log).stop ≤ r.place.label.stop := by
    cases r with
    | inside p => exact ⟨Nat.le_trans hstart hlow, hhigh⟩
    | before p lead =>
      rw [frame]
      split
      · exact ⟨hstart, hstop⟩
      · exact ⟨Nat.le_refl _, Nat.le_refl _⟩
    | after p =>
      rw [frame]
      split
      · exact ⟨Nat.le_trans hstart hstop, Nat.le_refl _⟩
      · exact ⟨Nat.le_refl _, Nat.le_refl _⟩
  rw [render?_eq_edit? h] at he
  obtain ⟨kept, -, rfl⟩ := Option.map_eq_some_iff.mp he
  exact ⟨hframe.1, hfits.forward, hframe.2⟩

theorem rule?_eq_none_iff {here parent : Place} : rule? here parent = none ↔
    ofFunction? here = none ∧ ofArrowValue? here parent = none ∧ ofParameter? here = none ∧
      ofControl? here parent = none ∧ ofStatement? here = none := by
  simp only [rule?, Option.orElse_eq_none]

theorem liftExport_below {p : Place} {c : Node} (h : p.kind ≠ .exportStatement) :
    liftExport (p.below c) = p.below c := by
  change (if p.kind == .exportStatement then _ else p.below c) = p.below c
  rw [if_neg (by simpa using h)]

theorem not_isExport_of_isFunctionLike {k : Kind} (h : k.isFunctionLike = true) :
    k ≠ .exportStatement := by
  rintro rfl
  cases h

theorem ofControl?_of_isFunctionLike {here parent : Place}
    (h : parent.kind.isFunctionLike = true) : ofControl? here parent = none := by
  unfold ofControl?
  cases hkind : parent.kind <;> rw [hkind] at h <;> first | rfl | cases h

theorem exists_below_of_parent? {p q : Place} (h : p.parent? = some q) : ∃ c, p = q.below c := by
  obtain ⟨n, above⟩ := p
  cases above with
  | nil => cases h
  | cons parent above =>
    cases h
    exact ⟨n, rfl⟩

theorem exists_ofParameter? {p owner body : Place} (hparameter : p.isParameter = true)
    (howner : p.parameterOwner? = some owner) (hbody : owner.child? .body = some body) :
    ∃ r, ofParameter? p = some r ∧ r.place = body := by
  simp only [ofParameter?, hparameter, if_true, howner, hbody, Option.bind_eq_bind,
    Option.bind_some]
  exact ⟨_, rfl, by split <;> rfl⟩

section Function
variable {source : Text} {parse : Parse} {n : ParseNode} {f body : Place}
  (h : IsFunction n f body) (hnested : parse.root.nested source = true)
  (hplain : parse.root.plainSiblings = true) (hmade : parse.Makes source n f)
include h hnested hplain hmade

/-- At the body of a function there is a rule for a log. -/
theorem shelters_body : Shelters f.EnclosedBy body := by
  have hhere := h.enclosed_body hnested hplain hmade
  obtain ⟨m, -, hfield, rfl⟩ := h.exists_eq_below
  have hlifted : f.EnclosedBy (liftExport (f.below m)) := by
    rw [liftExport_below (not_isExport_of_isFunctionLike h.kind)]
    exact hhere
  have howner : ∀ q, f.child? .body = some q → f.EnclosedBy q := fun q hq => by
    obtain rfl := Option.some.inj (h.hasBody.symm.trans hq)
    exact hhere
  refine .of_rule? (h.enclosed_below hnested hplain hmade) hhere hlifted ?_ ?_ ?_ fun hnone => ?_
  · rintro r hr
    rw [ofControl?_of_isFunctionLike h.kind] at hr
    cases hr
  · intro g q hg hq
    obtain ⟨-, rfl | ⟨hlist, -⟩⟩ := parameterOwner?_below hg
    · exact howner q hq
    · have hkind := h.kind
      rw [hlist] at hkind
      cases hkind
  · exact fun _ => howner
  · obtain ⟨-, harrowValue, -, -, hstatement⟩ := rule?_eq_none_iff.mp hnone
    rcases h.bodyKind with hblock | ⟨harrow, hvalue⟩
    · rw [ofStatement?, hblock] at hstatement
      cases hstatement
    · have hnot : (f.below m).kind ≠ .statementBlock := fun hblock => by
        rw [hblock] at hvalue
        cases hvalue
      have hfield : (f.below m).field = some .body := hfield
      simp [ofArrowValue?, harrow, hfield, hnot] at harrowValue

/-- At a member of the list of parameters there is a rule for a log, in the body. -/
theorem shelters_member {m c : Node} (hm : m ∈ f.node.children)
    (hkind : m.kind = .formalParameters) (hc : c ∈ m.children) :
    Shelters f.EnclosedBy ((f.below m).below c) := by
  have hhere := h.enclosed_member hnested hplain hmade hm hkind hc
  have hlist : (f.below m).kind = .formalParameters := hkind
  have hlifted : f.EnclosedBy (liftExport ((f.below m).below c)) := by
    rw [liftExport_below (by rw [hlist]; decide)]
    exact hhere
  have hmember : ((f.below m).below c).isParameter = true := by
    simp [isParameter, parentKind?, hlist]
  have howner : ((f.below m).below c).parameterOwner? = some f := by
    simp [parameterOwner?, hlist, h.kind]
  refine .of_rule? (h.enclosed_below hnested hplain hmade) hhere hlifted ?_ ?_ ?_ fun hnone => ?_
  · intro r hr
    rw [ofControl?, hlist] at hr
    cases hr
  · intro g q hg hq
    obtain rfl := Option.some.inj (howner.symm.trans hg)
    obtain rfl := Option.some.inj (h.hasBody.symm.trans hq)
    exact h.enclosed_body hnested hplain hmade
  · intro hfunction
    rw [hlist] at hfunction
    cases hfunction
  · obtain ⟨-, -, hparameter, -, -⟩ := rule?_eq_none_iff.mp hnone
    obtain ⟨r, hr, -⟩ := exists_ofParameter? hmember howner h.hasBody
    rw [hparameter] at hr
    cases hr

omit hnested hplain hmade in
/-- The log for the bare parameter of an arrow function goes to the body. -/
theorem ofTarget?_bare {m : Node} (hm : m ∈ f.node.children) (harrow : f.kind = .arrowFunction)
    (hfield : m.field = some .parameter) :
    ∃ r, ofTarget? (f.below m) = some r ∧ r.place = body := by
  have hleaf : m.children = [] := h.bare harrow m hm hfield
  have hplace : (f.below m).field = some .parameter := hfield
  have hfunction : ofFunction? (f.below m) = none := by
    have hbody : (f.below m).child? .body = none := by
      simp [child?, Node.child?, below, hleaf]
    rw [ofFunction?, hbody]
    split <;> rfl
  have hvalue : ofArrowValue? (f.below m) f = none := by
    simp [ofArrowValue?, hplace]
  have hmember : (f.below m).isParameter = true := by
    simp [isParameter, parentKind?, harrow, hplace]
  have howner : (f.below m).parameterOwner? = some f := by
    simp [parameterOwner?, harrow, Kind.isFunctionLike]
  obtain ⟨r, hr, hrbody⟩ := exists_ofParameter? hmember howner h.hasBody
  refine ⟨r, ?_, hrbody⟩
  change (rule? (f.below m) f <|> ofTarget? f) = some r
  rw [rule?, hfunction, hvalue, hr]
  rfl

/-- A parameter of a function is a member of its list or a bare name. -/
theorem exists_place_of_parameter {q t : Place} (hq : q ∈ (Tree.ofParse source parse).places)
    (hparameter : q.isParameter = true) (howner : q.parameterOwner? = some f)
    (ht : t ∈ preorder q.above q.node) :
    ∃ r, ofTarget? t = some r ∧ f.EnclosedBy r.place := by
  obtain ⟨g, hg⟩ : ∃ g, q.parent? = some g := by
    cases hg : q.parent? with
    | none => simp [isParameter, parentKind?, hg] at hparameter
    | some g => exact ⟨g, rfl⟩
  have hchild := Tree.mem_children_of_parent? hq hg
  obtain ⟨c, rfl⟩ := exists_below_of_parent? hg
  obtain ⟨-, rfl | ⟨hlist, hup⟩⟩ := parameterOwner?_below howner
  · -- a name alone: nothing is below it
    have hbare : f.kind = .arrowFunction ∧ c.field = some .parameter := by
      have hkind := h.kind
      simp only [isParameter, parentKind?, parent?_below, Option.map_some, Bool.or_eq_true,
        Bool.and_eq_true, beq_iff_eq, Option.some.injEq] at hparameter
      rcases hparameter with hlist | hbare
      · rw [hlist] at hkind
        cases hkind
      · exact hbare
    have hleaf : c.children = [] := h.bare hbare.1 c hchild hbare.2
    obtain rfl : t = f.below c := by
      cases c with
      | node l cs =>
        obtain rfl : cs = [] := hleaf
        simpa [below, preorder, preorderAll] using ht
    obtain ⟨r, hr, hplace⟩ := ofTarget?_bare h hchild hbare.1 hbare.2
    exact ⟨r, hr, hplace ▸ h.enclosed_body hnested hplain hmade⟩
  · have hlistPlace := (Tree.closed_places _).parent hq hg
    have hm := Tree.mem_children_of_parent? hlistPlace hup
    obtain ⟨m, rfl⟩ := exists_below_of_parent? hup
    exact (Shelters.of_mem_preorder (h.enclosed_below hnested hplain hmade)
      (shelters_member h hnested hplain hmade hm hlist hchild) ht).placed

end Function

/-- A log never leaves the function that it is asked for. -/
theorem log_stays_in_function (source : Text) (parse : Parse)
    (hnested : parse.root.nested source = true) (hplain : parse.root.plainSiblings = true)
    {n : ParseNode} {f body t : Place} (hmade : parse.Makes source n f)
    (h : IsFunction n f body)
    (ht : t ∈ preorder body.above body.node ∨
      ∃ q ∈ (Tree.ofParse source parse).places, q.isParameter = true ∧
        q.parameterOwner? = some f ∧ t ∈ preorder q.above q.node) :
    ∃ r, ofTarget? t = some r ∧ ∀ log, ∃ e, r.render? source log = some e ∧
      f.label.start ≤ e.start ∧ e.start ≤ e.stop ∧ e.stop ≤ f.label.stop := by
  obtain ⟨r, hr, henclosed⟩ : ∃ r, ofTarget? t = some r ∧ f.EnclosedBy r.place := by
    rcases ht with ht | ⟨q, hq, hparameter, howner, ht⟩
    · exact (Shelters.of_mem_preorder (h.enclosed_below hnested hplain hmade)
        (shelters_body h hnested hplain hmade) ht).placed
    · exact exists_place_of_parameter h hnested hplain hmade hq hparameter howner ht
  refine ⟨r, hr, fun log => ?_⟩
  have hplace := hmade.below_mem_places henclosed.below
  obtain ⟨c, hc⟩ := Parse.exists_makes hnested hplain hplace
  have horigin := hc.origin hnested hplain
  obtain ⟨e, he, hstart, hforward, hstop⟩ := exists_render?_within
    (Tree.labelsSound_ofParse hnested _ hplace) horigin.le_firstTokenEnd horigin.firstTokenEnd_le
    log
  exact ⟨e, he, Nat.le_trans henclosed.start_le hstart, hforward,
    Nat.le_trans hstop henclosed.le_stop⟩

/-- The list of one parameter `a`. -/
def oneParameter : ParseNode :=
  .node ⟨"formal_parameters", true, some "parameters", 0, 3, none⟩ [
    .node ⟨"(", false, none, 0, 1, none⟩ [],
    .node ⟨"identifier", true, none, 1, 2, none⟩ [],
    .node ⟨")", false, none, 2, 3, none⟩ []]

/-- A function whose value is its parameter, as the one statement of a script. -/
def identityArrow : ParseNode :=
  .node ⟨"arrow_function", true, none, 0, 8, none⟩ [
    oneParameter,
    .node ⟨"=>", false, none, 4, 6, none⟩ [],
    .node ⟨"identifier", true, some "body", 7, 8, none⟩ []]

def identityText : Text := "(a) => a\n".toList

def identityParse : Parse where
  root := .node ⟨"program", true, none, 0, 9, none⟩ [
    .node ⟨"expression_statement", true, none, 0, 8, none⟩ [identityArrow]]
  hasErrors := false

def identityPlace : Place :=
  ((Tree.ofParse identityText identityParse).rootPlace.below
    (Node.ofParse 1 0 none (.node ⟨"expression_statement", true, none, 0, 8, none⟩
      [identityArrow]))).below (Node.ofParse 2 0 none identityArrow)

def identityParameter : Place :=
  (identityPlace.below (Node.ofParse 3 0 none oneParameter)).below
    (Node.ofParse 4 0 (some 1) (.node ⟨"identifier", true, none, 1, 2, none⟩ []))

theorem identityPlace_isFunction : ∃ body, IsFunction identityArrow identityPlace body := by
  refine ⟨_, rfl, rfl, .inr ⟨rfl, rfl⟩, ?_, ?_, ?_, ?_⟩
  · rintro c ⟨⟩ -
    decide
  · intro c hc hkind d hd
    change c ∈ [_, _, _] at hc
    simp only [List.mem_cons, List.not_mem_nil, or_false] at hc
    rcases hc with rfl | rfl | rfl
    · cases hd
      rfl
    · cases hd
    · cases hd
  · intro _ c hc hfield
    change c ∈ [_, _] at hc
    simp only [List.mem_cons, List.not_mem_nil, or_false] at hc
    rcases hc with rfl | rfl
    · cases hfield
    · rfl
  · decide

/-- The log for the parameter goes to a new block in place of the value. -/
theorem identityParameter_log :
    ∃ body r, identityParse.Makes identityText identityArrow identityPlace ∧
      IsFunction identityArrow identityPlace body ∧
      identityParameter.parameterOwner? = some identityPlace ∧
      ofTarget? identityParameter = some r ∧
      (∀ log, ∃ e, r.render? identityText log = some e ∧ identityPlace.label.start ≤ e.start ∧
        e.start ≤ e.stop ∧ e.stop ≤ identityPlace.label.stop) ∧
      r.render? identityText "1".toList =
        some ⟨6, 8, " \x7b\n1\nreturn a\n\x7d".toList⟩ := by
  have hmade : identityParse.Makes identityText identityArrow identityPlace :=
    .child (.child .root (List.mem_of_getElem? (i := 0) rfl)) (List.mem_of_getElem? (i := 0) rfl)
  obtain ⟨body, hfunction⟩ := identityPlace_isFunction
  have hmem : identityParameter ∈ (Tree.ofParse identityText identityParse).places :=
    List.mem_of_getElem? (i := 4) rfl
  obtain ⟨r, hr, hlog⟩ := log_stays_in_function identityText identityParse (by decide) (by decide)
    hmade hfunction (.inr ⟨identityParameter, hmem, rfl, rfl, self_mem_preorder _ _⟩)
  refine ⟨body, r, hmade, hfunction, rfl, hr, hlog, ?_⟩
  cases hr
  rfl

end Placement
end LogProbe
