import LogProbe.Proofs.Log.Enclosure

/-! Arrow functions keep their values. Two rules put a log ahead of a value, and both return it from
the new block; in a tree whose functions have bodies no other rule comes to a value. -/
namespace LogProbe

/-- The expression that an arrow function gives in place of a block. -/
def Place.IsArrowValue (p : Place) : Prop :=
  p.field = some .body ∧ p.parentKind? = some .arrowFunction ∧ p.kind ≠ .statementBlock

/-- Functions have blocks for bodies; that of an arrow function may instead be what is no
statement. -/
structure Tree.HasBodies (tree : Tree) : Prop where
  block : ∀ p ∈ tree.places, p.field = some .body → ∀ k ∈ p.parentKind?,
    k.isFunctionLike = true → k ≠ .arrowFunction → p.kind = .statementBlock
  value : ∀ p ∈ tree.places, p.field = some .body → p.parentKind? = some .arrowFunction →
    p.kind.isStatement = true → p.kind = .statementBlock

theorem Place.isFunctionLike_of_parameterOwner? {p owner : Place}
    (h : p.parameterOwner? = some owner) : owner.kind.isFunctionLike = true := by
  cases hparent : p.parent? with
  | none => simp [parameterOwner?, hparent] at h
  | some parent =>
    obtain ⟨c, rfl⟩ := Placement.exists_below_of_parent? hparent
    exact (Placement.parameterOwner?_below h).1

namespace Tree.HasBodies
variable {tree : Tree} (h : tree.HasBodies)
include h

theorem not_isArrowValue {p : Place} (hp : p ∈ tree.places) (hk : p.kind.isStatement = true) :
    ¬ p.IsArrowValue := by
  rintro ⟨hfield, hparent, hblock⟩
  exact hblock (h.value p hp hfield hparent hk)

/-- The body of a function is a block or the value of an arrow function. -/
theorem isArrowValue_of_body {f body : Place} (hf : f ∈ tree.places)
    (hk : f.kind.isFunctionLike = true) (hbody : f.child? .body = some body)
    (hblock : body.kind ≠ .statementBlock) : body.IsArrowValue := by
  obtain ⟨hfield, hparent⟩ := Place.of_child? hbody
  have hkind : body.parentKind? = some f.kind := by rw [Place.parentKind?, hparent, Option.map_some]
  refine ⟨hfield, ?_, hblock⟩
  by_contra harrow
  rw [hkind, Option.some.injEq] at harrow
  have hmem : body ∈ tree.places := tree.closed_places.child hf hbody
  exact hblock (h.block body hmem hfield f.kind hkind hk harrow)

end Tree.HasBodies

namespace Placement

/-- A log is put ahead of a value just where the value is returned again. -/
def KeepsValue (r : Placement) : Prop := r.place.IsArrowValue ↔ r = .before r.place returnLead

theorem before_nil_ne (p q : Place) : before p [] ≠ before q returnLead := by
  intro h
  injection h with _ hlead
  exact absurd hlead (by decide)

theorem keepsValue_of_body {f body : Place} {r : Placement} (hbody : f.child? .body = some body)
    (hk : f.kind ≠ .arrowFunction) (hplace : r.place = body)
    (hlead : r ≠ .before r.place returnLead) : r.KeepsValue := by
  refine iff_of_false ?_ hlead
  rintro ⟨-, hparent, -⟩
  rw [hplace, Place.parentKind?, (Place.of_child? hbody).2, Option.map_some,
    Option.some.injEq] at hparent
  exact hk hparent

theorem keepsValue_of_ofFunction? {here : Place} {r : Placement}
    (hr : ofFunction? here = some r) : r.KeepsValue := by
  unfold ofFunction? at hr
  split at hr
  · rename_i hkind
    obtain ⟨body, hbody, rfl⟩ := Option.map_eq_some_iff.mp hr
    apply keepsValue_of_body hbody _ rfl (by simp [place])
    intro harrow
    rw [harrow] at hkind
    cases hkind
  · cases hr

theorem keepsValue_of_ofArrowValue? {here parent : Place} {r : Placement}
    (hparent : here.parent? = some parent) (hr : ofArrowValue? here parent = some r) :
    r.KeepsValue := by
  unfold ofArrowValue? at hr
  split at hr
  · rename_i hvalue
    cases hr
    simp only [Bool.and_eq_true, beq_iff_eq, bne_iff_ne] at hvalue
    obtain ⟨⟨harrow, hfield⟩, hblock⟩ := hvalue
    apply iff_of_true _ rfl
    exact ⟨hfield, by simp [place, Place.parentKind?, hparent, harrow], hblock⟩
  · cases hr

theorem keepsValue_of_ofLoopBody? {loop : Place} {r : Placement}
    (hk : loop.kind ≠ .arrowFunction) (hr : ofLoopBody? loop = some r) : r.KeepsValue := by
  apply keepsValue_of_body (place_of_ofLoopBody? hr) hk rfl
  obtain ⟨body, -, rfl⟩ := Option.map_eq_some_iff.mp hr
  split
  · simp
  · exact before_nil_ne _ _

section Tree
variable {tree : Tree} (h : tree.HasBodies)
include h

theorem keepsValue_of_ofParameter? {here : Place} {r : Placement} (hhere : here ∈ tree.places)
    (hr : ofParameter? here = some r) : r.KeepsValue := by
  unfold ofParameter? at hr
  split at hr
  · obtain ⟨owner, howner, hr⟩ := Option.bind_eq_some_iff.mp hr
    obtain ⟨body, hbody, hr⟩ := Option.bind_eq_some_iff.mp hr
    cases hr
    split
    · rename_i hblock
      apply iff_of_false _ (by simp)
      rintro ⟨-, -, hvalue⟩
      exact hvalue (beq_iff_eq.mp hblock)
    · rename_i hvalue
      apply iff_of_true _ rfl
      have hmem : owner ∈ tree.places := tree.closed_places.parameterOwner hhere howner
      exact h.isArrowValue_of_body hmem (Place.isFunctionLike_of_parameterOwner? howner) hbody
        (by simpa [place] using hvalue)
  · cases hr

/-- A log in front of a statement or behind it is not at a value. -/
theorem keepsValue_of_isStatement {r : Placement} (hr : r.place ∈ tree.places)
    (hk : r.place.kind.isStatement = true) (hlead : r ≠ .before r.place returnLead) :
    r.KeepsValue :=
  iff_of_false (h.not_isArrowValue hr hk) hlead

theorem keepsValue_of_ofControl? {here parent : Place} {r : Placement}
    (hparent : parent ∈ tree.places) (hr : ofControl? here parent = some r) : r.KeepsValue := by
  have hstatement (hk : parent.kind.isStatement = true) : (before parent []).KeepsValue :=
    keepsValue_of_isStatement h hparent hk (before_nil_ne _ _)
  have hloop (hk : parent.kind ≠ .arrowFunction) (hr : ofLoopBody? parent = some r) :
      r.KeepsValue := keepsValue_of_ofLoopBody? hk hr
  unfold ofControl? at hr
  cases hkind : parent.kind <;> rw [hkind] at hr hstatement hloop <;> dsimp only at hr
  case ifStatement =>
    split at hr
    · cases hr
      exact hstatement rfl
    · cases hr
  case whileStatement | doStatement | forStatement => exact hloop (by decide) hr
  case forInStatement =>
    split at hr
    · exact hloop (by decide) hr
    · cases hr
      exact hstatement rfl
    · cases hr
  all_goals cases hr

omit h in
theorem isStatement_liftFrom {above : List Node} : ∀ {n : Node}, n.kind.isStatement = true →
    (liftFrom n above).kind.isStatement = true := by
  induction above with
  | nil => exact id
  | cons parent above ih =>
    intro n hn
    rw [liftFrom]
    split
    · rename_i hexport
      apply ih
      rw [beq_iff_eq.mp hexport]
      rfl
    · exact hn

theorem keepsValue_of_ofStatement? {here : Place} {r : Placement} (hhere : here ∈ tree.places)
    (hr : ofStatement? here = some r) : r.KeepsValue := by
  unfold ofStatement? at hr
  split at hr
  · rename_i hreturn
    cases hr
    have hk : here.kind.isStatement = true := by
      rw [beq_iff_eq.mp hreturn]
      rfl
    exact keepsValue_of_isStatement h (r := before here []) hhere hk (before_nil_ne _ _)
  · split at hr
    · rename_i hstatement
      cases hr
      have hlift : liftExport here ∈ tree.places := closed_liftFrom tree.closed_places hhere
      exact keepsValue_of_isStatement h hlift (isStatement_liftFrom hstatement) (by simp)
    · cases hr

theorem keepsValue_of_rule? {here parent : Place} {r : Placement} (hhere : here ∈ tree.places)
    (hparent : here.parent? = some parent) (hr : rule? here parent = some r) : r.KeepsValue := by
  have hup : parent ∈ tree.places := tree.closed_places.parent hhere hparent
  rcases eq_some_of_orElse hr with hr | hr
  · exact keepsValue_of_ofFunction? hr
  rcases eq_some_of_orElse hr with hr | hr
  · exact keepsValue_of_ofArrowValue? hparent hr
  rcases eq_some_of_orElse hr with hr | hr
  · exact keepsValue_of_ofParameter? h hhere hr
  rcases eq_some_of_orElse hr with hr | hr
  · exact keepsValue_of_ofControl? h hup hr
  · exact keepsValue_of_ofStatement? h hhere hr

/-- On the whole way up the search comes to no value but by the two rules that return it. -/
theorem keepsValue_of_searchFrom? {above : List Node} {r : Placement} : ∀ {n : Node},
    ⟨n, above⟩ ∈ tree.places → searchFrom? n above = some r → r.KeepsValue := by
  induction above with
  | nil =>
    intro n _ hr
    cases hr
  | cons parent above ih =>
    intro n hn hr
    rw [searchFrom?] at hr
    rcases eq_some_of_orElse hr with hr | hr
    · exact keepsValue_of_rule? h hn rfl hr
    · exact ih (tree.closed_places.parent hn rfl) hr

end Tree

/-- A block that logs and then returns a value. -/
def returnBlock (log value : Text) : Text :=
  " \x7b\n".toList ++ log ++ "\nreturn ".toList ++ value ++ "\n\x7d".toList

section Value
variable {source : Text} {p : Place} (h : p.IsArrowValue)
include h

/-- No value stands in a list of statements. -/
theorem standsInBlock_of_isArrowValue : standsInBlock p = false := by
  simp [standsInBlock, h.2.1, Kind.isBlockLike]

/-- So a block takes the place of the value and of the blanks before it. -/
theorem render?_of_isArrowValue (log : Text) :
    (before p returnLead).render? source log = (p.text? source).map fun value =>
      ⟨p.label.fullStart, p.label.stop, returnBlock log value⟩ := by
  have hlead : "\nreturn ".toList = ['\n'] ++ returnLead := by decide
  rw [render?, standsInBlock_of_isArrowValue h]
  delta returnBlock
  simp only [Bool.false_eq_true, if_false, block, hlead, List.append_assoc]

/-- The text around the value stays, and the value itself is there again behind its `return`. -/
theorem applyAll_of_isArrowValue (hsound : p.label.Sound source) (log : Text) :
    ∃ above blanks value below, source = above ++ blanks ++ value ++ below ∧
      above.size = p.label.fullStart ∧ (above ++ blanks ++ value).size = p.label.stop ∧
      p.text? source = some value ∧
      Edit.applyAll source [⟨p.label.fullStart, p.label.stop, returnBlock log value⟩] =
        .ok (above ++ returnBlock log value ++ below) := by
  have hframe : ((before p returnLead).frame log).Sound source := frame_sound hsound log
  obtain ⟨above, blanks, value, below, hsplits⟩ := hframe.splits
  simp only [frame, standsInBlock_of_isArrowValue h, Bool.false_eq_true, if_false] at hsplits
  obtain ⟨htext, hfull, hstart, hstop⟩ := hsplits
  dsimp only at hfull hstart hstop
  have hvalue : p.text? source = some value := by
    have hslice := Text.slice?_append (above ++ blanks) value below
    rw [hstart, hstop, ← htext] at hslice
    exact hslice
  refine ⟨above, blanks, value, below, htext, hfull, hstop, hvalue, ?_⟩
  rw [List.append_assoc above] at htext hstop
  rw [htext]
  exact Edit.applyAll_one above (blanks ++ value) below hfull hstop

end Value

/-- A log is put ahead of the value of an arrow function exactly with a `return`, and in no other
way to the value; the function then has a block in place of the value, which ends by returning the
text of the value. -/
theorem arrow_keeps_value {tree : Tree} (h : tree.HasBodies) {target : Place}
    (htarget : target ∈ tree.places) {r : Placement} (hr : ofTarget? target = some r) :
    (r = .before r.place returnLead ↔ r.place.IsArrowValue) ∧
    (r.place.IsArrowValue → ∀ log,
      (r.render? tree.source log = (r.place.text? tree.source).map fun value =>
        ⟨r.place.label.fullStart, r.place.label.stop, returnBlock log value⟩) ∧
      (tree.LabelsSound → ∃ above blanks value below e,
        tree.source = above ++ blanks ++ value ++ below ∧
        above.size = r.place.label.fullStart ∧
        (above ++ blanks ++ value).size = r.place.label.stop ∧
        r.place.text? tree.source = some value ∧ r.render? tree.source log = some e ∧
        Edit.applyAll tree.source [e] = .ok (above ++ returnBlock log value ++ below))) := by
  have hkeeps : r.KeepsValue := keepsValue_of_searchFrom? h htarget hr
  refine ⟨hkeeps.symm, ?_⟩
  intro hvalue log
  have hlead : r = .before r.place returnLead := hkeeps.mp hvalue
  have hrender : r.render? tree.source log = (r.place.text? tree.source).map fun value =>
      ⟨r.place.label.fullStart, r.place.label.stop, returnBlock log value⟩ := by
    rw [hlead]
    exact render?_of_isArrowValue hvalue log
  refine ⟨hrender, ?_⟩
  intro hlabels
  have hplace : r.place ∈ tree.places := closed_ofTarget? tree.closed_places htarget hr
  obtain ⟨above, blanks, value, below, htext, hfull, hstop, hslice, happly⟩ :=
    applyAll_of_isArrowValue hvalue (hlabels _ hplace) log
  rw [hslice, Option.map_some] at hrender
  exact ⟨above, blanks, value, below, _, htext, hfull, hstop, hslice, hrender, happly⟩

/-- The parameter of a function that gives it back is logged ahead of the value. -/
theorem identityArrow_keeps_value :
    ∃ r, (Tree.ofParse identityText identityParse).HasBodies ∧
      ofTarget? identityParameter = some r ∧ r.place.IsArrowValue ∧
      r = .before r.place returnLead ∧
      r.render? identityText "1".toList = some ⟨6, 8, returnBlock "1".toList "a".toList⟩ := by
  have hbodies : (Tree.ofParse identityText identityParse).HasBodies :=
    ⟨by decide, by decide⟩
  have hmem : identityParameter ∈ (Tree.ofParse identityText identityParse).places :=
    List.mem_of_getElem? (i := 4) rfl
  have hvalue : (identityPlace.below (Node.ofParse 5 6 none
      (.node ⟨"identifier", true, some "body", 7, 8, none⟩ []))).IsArrowValue :=
    ⟨rfl, rfl, by decide⟩
  obtain ⟨hlead, hblock⟩ := arrow_keeps_value hbodies hmem rfl
  exact ⟨_, hbodies, rfl, hvalue, hlead.mpr hvalue, (hblock hvalue "1".toList).1⟩

end Placement
end LogProbe
