import LogProbe.Log.Plan
import LogProbe.Proofs.Log.Echo
import LogProbe.Proofs.Log.Frame
import LogProbe.Proofs.Log.Growth
import Mathlib.Data.List.Forall2

/-! The footprints of a plan. In a tree of sound nodes every proposal fits into the text, and a plan
takes no two that conflict; planning comes to an end exactly if growing does for every selection. -/
namespace LogProbe
variable {source : Text}

namespace Target
variable {S : Place → Prop}

theorem closed_settle (hS : Place.Closed S) {here parent q : Place} (h : S here)
    (hq : settle here parent = .halt (some q)) : S q := by
  unfold settle at hq
  split at hq
  · split at hq
    · cases hq
    · cases hq
      exact h
  · split at hq
    · cases hq
      exact h
    · split at hq
      · exact hS.child h (Step.halt.inj hq)
      · split at hq
        · obtain ⟨declarator, hdeclarator, hname⟩ := Option.bind_eq_some_iff.mp (Step.halt.inj hq)
          exact hS.child (hS.of_mem_children h (List.mem_of_find?_eq_some hdeclarator)) hname
        · split at hq
          · exact hS.of_mem_children h (List.mem_of_mem_head? (Step.halt.inj hq))
          · split at hq
            · split at hq
              · cases hq
                exact h
              · cases hq
            · cases hq

theorem closed_step (hS : Place.Closed S) {here q : Place} (h : S here)
    (hq : step here = .halt (some q)) : S q := by
  unfold step at hq
  split at hq
  · cases hq
  · split at hq
    · cases hq
    · split at hq
      · cases hq
        exact h
      · split at hq
        · cases hq
        · split at hq
          · cases hq
          · exact closed_settle hS h hq

/-- Growing stays within a closed set of places. -/
theorem Grows.closed (hS : Place.Closed S) {here q : Place} {rounds : Nat}
    (h : Grows here (some q) rounds) (hhere : S here) : S q := by
  generalize htarget : some q = target at h
  induction h with
  | halt stops =>
    subst htarget
    exact closed_step hS hhere stops
  | climb _ up _ ih => exact ih (hS.parent hhere up) htarget
  | descend goes _ ih =>
    obtain ⟨-, -, hhead⟩ := step_eq_descend_iff.mp goes
    exact ih (hS.of_mem_children hhere (List.mem_of_mem_head? hhead)) htarget

end Target

namespace Placement
variable {S : Place → Prop}

theorem closed_liftFrom (hS : Place.Closed S) {above : List Node} :
    ∀ {n : Node}, S ⟨n, above⟩ → S (liftFrom n above) := by
  induction above with
  | nil => exact id
  | cons parent above ih =>
    intro n h
    rw [liftFrom]
    split
    · exact ih (hS.parent h rfl)
    · exact h

theorem closed_ofFunction? (hS : Place.Closed S) {here : Place} {r : Placement} (h : S here)
    (hr : ofFunction? here = some r) : S r.place := by
  unfold ofFunction? at hr
  split at hr
  · obtain ⟨body, hbody, rfl⟩ := Option.map_eq_some_iff.mp hr
    exact hS.child h hbody
  · cases hr

theorem closed_ofParameter? (hS : Place.Closed S) {here : Place} {r : Placement} (h : S here)
    (hr : ofParameter? here = some r) : S r.place := by
  unfold ofParameter? at hr
  split at hr
  · obtain ⟨owner, howner, hr⟩ := Option.bind_eq_some_iff.mp hr
    obtain ⟨body, hbody, hr⟩ := Option.bind_eq_some_iff.mp hr
    have hbody := hS.child (hS.parameterOwner h howner) hbody
    cases hr
    split <;> exact hbody
  · cases hr

theorem closed_ofLoopBody? (hS : Place.Closed S) {loop : Place} {r : Placement} (h : S loop)
    (hr : ofLoopBody? loop = some r) : S r.place := by
  obtain ⟨body, hbody, rfl⟩ := Option.map_eq_some_iff.mp hr
  have hbody := hS.child h hbody
  split <;> exact hbody

theorem closed_ofControl? (hS : Place.Closed S) {here parent : Place} {r : Placement}
    (h : S parent) (hr : ofControl? here parent = some r) : S r.place := by
  unfold ofControl? at hr
  split at hr
  · split at hr
    · cases hr
      exact h
    · cases hr
  all_goals first | exact closed_ofLoopBody? hS h hr | skip
  · split at hr
    · exact closed_ofLoopBody? hS h hr
    · cases hr
      exact h
    · cases hr
  · cases hr

theorem closed_ofStatement? (hS : Place.Closed S) {here : Place} {r : Placement} (h : S here)
    (hr : ofStatement? here = some r) : S r.place := by
  unfold ofStatement? at hr
  split at hr
  · cases hr
    exact h
  · split at hr
    · cases hr
      exact closed_liftFrom hS h
    · cases hr

theorem eq_some_of_orElse {a b : Option Placement} {r : Placement} (h : (a <|> b) = some r) :
    a = some r ∨ b = some r := by
  cases a with
  | none => exact .inr h
  | some a => exact .inl h

/-- Every rule gives a place at the node, its parent, or the body of one of them. -/
theorem closed_rule? (hS : Place.Closed S) {here parent : Place} {r : Placement} (h : S here)
    (hparent : S parent) (hr : rule? here parent = some r) : S r.place := by
  rcases eq_some_of_orElse hr with hr | hr
  · exact closed_ofFunction? hS h hr
  rcases eq_some_of_orElse hr with hr | hr
  · unfold ofArrowValue? at hr
    split at hr
    · cases hr
      exact h
    · cases hr
  rcases eq_some_of_orElse hr with hr | hr
  · exact closed_ofParameter? hS h hr
  rcases eq_some_of_orElse hr with hr | hr
  · exact closed_ofControl? hS hparent hr
  · exact closed_ofStatement? hS h hr

theorem closed_searchFrom? (hS : Place.Closed S) {above : List Node} {r : Placement} :
    ∀ {n : Node}, S ⟨n, above⟩ → searchFrom? n above = some r → S r.place := by
  induction above with
  | nil => exact fun _ hr => by simp [searchFrom?] at hr
  | cons parent above ih =>
    intro n h hr
    have hparent : S ⟨parent, above⟩ := hS.parent h rfl
    rw [searchFrom?] at hr
    rcases eq_some_of_orElse hr with hr | hr
    · exact closed_rule? hS h hparent hr
    · exact ih hparent hr

/-- A log is placed within a closed set of places. -/
theorem closed_ofTarget? (hS : Place.Closed S) {target : Place} {r : Placement} (h : S target)
    (hr : ofTarget? target = some r) : S r.place :=
  closed_searchFrom? hS h hr

end Placement

/-- Both ends of a selection are boundaries of the text. -/
def Selection.LiesIn (source : Text) (s : Selection) : Prop :=
  source.isBoundary s.anchor = true ∧ source.isBoundary s.active = true

instance (source : Text) (s : Selection) : Decidable (s.LiesIn source) :=
  inferInstanceAs (Decidable (_ ∧ _))

namespace Insertion
open Edit

/-- The search for the target of a selection ends. -/
def SearchEnds (tree : Tree) (s : Selection) : Prop :=
  (tree.siteOf s).kind.isBlockLike = true ∨
    ∃ target rounds, Target.Grows (tree.siteOf s) target rounds

theorem fits_snippet {s : Selection} (h : s.LiesIn source) (x : Snippet) :
    (snippet s x).footprint.Fits source := by
  have hstart : source.isBoundary s.start = true := by
    rcases Nat.le_total s.anchor s.active with hle | hle
    · rw [Selection.start, Nat.min_eq_left hle, h.1]
    · rw [Selection.start, Nat.min_eq_right hle, h.2]
  have hstop : source.isBoundary s.stop = true := by
    rcases Nat.le_total s.anchor s.active with hle | hle
    · rw [Selection.stop, Nat.max_eq_right hle, h.2]
    · rw [Selection.stop, Nat.max_eq_left hle, h.1]
  exact ⟨s.start_le_stop, Text.le_size_of_isBoundary hstop, hstart, hstop⟩

/-- How the log for a selection comes about: the selection stands in no list of statements, grows to
a target, and the target has a place for a log and something to say. -/
structure LogFor (tree : Tree) (s : Selection) (target : Place) (r : Placement) (echo : Echo) :
    Prop where
  site : (tree.siteOf s).kind.isBlockLike = false
  grows : (tree.siteOf s).expand = .ok (some target)
  placed : Placement.ofTarget? target = some r
  echoed : Echo.ofTarget? tree.source target = some echo

/-- What becomes of a selection. -/
inductive Proposes (tree : Tree) (s : Selection) : Except Failure (Option Insertion) → Prop
  | snippet (site : (tree.siteOf s).kind.isBlockLike = true) :
      Proposes tree s (.ok (some (snippet s logSnippet)))
  | log {target r echo e} (origin : LogFor tree s target r echo)
      (rendered : r.render? tree.source echo.statement = some e) :
      Proposes tree s (.ok (some (edit e)))
  | skipped {target} (site : (tree.siteOf s).kind.isBlockLike = false)
      (grows : (tree.siteOf s).expand = .ok target)
      (placeless : target.bind Placement.ofTarget? = none) : Proposes tree s (.ok none)
  | endless {failure} (site : (tree.siteOf s).kind.isBlockLike = false)
      (grows : (tree.siteOf s).expand = .error failure) : Proposes tree s (.error failure)
  | unread {target r} (site : (tree.siteOf s).kind.isBlockLike = false)
      (grows : (tree.siteOf s).expand = .ok (some target))
      (placed : Placement.ofTarget? target = some r)
      (unread : ((Echo.ofTarget? tree.source target).bind fun echo =>
        r.render? tree.source echo.statement) = none) : Proposes tree s (.error .badCut)

theorem proposes (tree : Tree) (s : Selection) : Proposes tree s (propose? tree s) := by
  have hpropose : propose? tree s = if (tree.siteOf s).kind.isBlockLike then
      .ok (some (snippet s logSnippet)) else (tree.siteOf s).expand >>= _ := rfl
  cases hsite : (tree.siteOf s).kind.isBlockLike with
  | true =>
    rw [hpropose, if_pos hsite]
    exact .snippet hsite
  | false =>
    rw [hpropose, if_neg (by simp [hsite])]
    cases hgrows : (tree.siteOf s).expand with
    | error failure => exact .endless hsite hgrows
    | ok target =>
      cases target with
      | none => exact .skipped hsite hgrows rfl
      | some target =>
        cases hplaced : Placement.ofTarget? target with
        | none =>
          simp only [bind, Except.bind, hplaced]
          exact .skipped hsite hgrows hplaced
        | some r =>
          cases hecho : Echo.ofTarget? tree.source target with
          | none =>
            simp only [bind, Except.bind, hplaced, hecho, orBadCut]
            exact .unread hsite hgrows hplaced (by rw [hecho]; rfl)
          | some echo =>
            cases hrendered : r.render? tree.source echo.statement with
            | none =>
              simp only [bind, Except.bind, hplaced, hecho, hrendered, orBadCut]
              exact .unread hsite hgrows hplaced (by rw [hecho]; exact hrendered)
            | some e =>
              simp only [bind, Except.bind, hplaced, hecho, hrendered, orBadCut]
              exact .log ⟨hsite, hgrows, hplaced, hecho⟩ hrendered

theorem LogFor.target_mem_places {tree : Tree} {s : Selection} {target : Place} {r : Placement}
    {echo : Echo} (h : LogFor tree s target r echo) : target ∈ tree.places := by
  obtain ⟨rounds, hgrows⟩ := Target.expand_eq_ok_iff.mp h.grows
  exact hgrows.closed tree.closed_places (tree.siteOf_mem_places s)

theorem LogFor.place_mem_places {tree : Tree} {s : Selection} {target : Place} {r : Placement}
    {echo : Echo} (h : LogFor tree s target r echo) : r.place ∈ tree.places :=
  Placement.closed_ofTarget? tree.closed_places h.target_mem_places h.placed

/-- The target of a selection, if a log for it has a place, can be read back from the source. -/
def EchoKnown (tree : Tree) (s : Selection) : Prop :=
  (tree.siteOf s).kind.isBlockLike = true ∨
    ∀ target r, (tree.siteOf s).expand = .ok (some target) →
      Placement.ofTarget? target = some r → ∃ echo, Echo.ofTarget? tree.source target = some echo

/-- What is proposed fits into the text. -/
theorem fits_of_propose? {tree : Tree} {s : Selection} {x : Insertion} (h : tree.LabelsSound)
    (hs : s.LiesIn tree.source) (hx : propose? tree s = .ok (some x)) :
    x.footprint.Fits tree.source := by
  have hproposes := proposes tree s
  rw [hx] at hproposes
  cases hproposes with
  | snippet site => exact fits_snippet hs logSnippet
  | log origin rendered => exact Placement.fits_of_render? (h _ origin.place_mem_places) rendered

/-- A proposal is made, or there is none, exactly if the search ends and the target can be read. -/
theorem exists_propose?_iff {tree : Tree} {s : Selection} (h : tree.LabelsSound) :
    (∃ proposal, propose? tree s = .ok proposal) ↔ SearchEnds tree s ∧ EchoKnown tree s := by
  have hproposes := proposes tree s
  constructor
  · rintro ⟨proposal, hproposal⟩
    rw [hproposal] at hproposes
    cases hproposes with
    | snippet site => exact ⟨.inl site, .inl site⟩
    | log origin rendered =>
      refine ⟨.inr ⟨_, Target.expand_eq_ok_iff.mp origin.grows⟩, .inr fun target r hgrows _ => ?_⟩
      obtain rfl := Option.some.inj (Except.ok.inj (origin.grows.symm.trans hgrows))
      exact ⟨_, origin.echoed⟩
    | skipped site grows placeless =>
      refine ⟨.inr ⟨_, Target.expand_eq_ok_iff.mp grows⟩, .inr fun target r hgrows hplaced => ?_⟩
      obtain rfl := Except.ok.inj (grows.symm.trans hgrows)
      cases hplaced.symm.trans placeless
  · rintro ⟨hends, hecho⟩
    generalize hproposal : propose? tree s = proposal at hproposes
    cases hproposes with
    | snippet | log | skipped => exact ⟨_, rfl⟩
    | endless site grows =>
      rcases hends with hblock | ⟨target, hgrows⟩
      · cases hblock.symm.trans site
      · cases grows.symm.trans (Target.expand_eq_ok_iff.mpr hgrows)
    | @unread target r site grows placed unread =>
      rcases hecho with hblock | hecho
      · cases hblock.symm.trans site
      · obtain ⟨echo, hecho⟩ := hecho _ _ grows placed
        have htarget : target ∈ tree.places := by
          obtain ⟨rounds, hgrows⟩ := Target.expand_eq_ok_iff.mp grows
          exact hgrows.closed tree.closed_places (tree.siteOf_mem_places s)
        have hplace := Placement.closed_ofTarget? tree.closed_places htarget placed
        obtain ⟨e, he, -⟩ := Placement.exists_render? (h _ hplace) echo.statement
        rw [hecho, Option.bind_some, he] at unread
        cases unread

/-- Where the parser keeps what it promises, every target can be read. -/
theorem echoKnown_of_sound {tree : Tree} (h : tree.root.Sound tree.source) (s : Selection) :
    EchoKnown tree s := by
  refine .inr fun target r hgrows _ => Echo.exists_ofTarget? (tree.sound_of_mem_places h ?_)
  obtain ⟨rounds, hgrows⟩ := Target.expand_eq_ok_iff.mp hgrows
  exact hgrows.closed tree.closed_places (tree.siteOf_mem_places s)

/-- The insertions of a plan fit into the text, and no two of them conflict. -/
structure Sound (source : Text) (plan : List Insertion) : Prop where
  fits : ∀ x ∈ plan, x.footprint.Fits source
  conflictFree : ConflictFree (plan.map footprint)

theorem Sound.append {plan : List Insertion} {x : Insertion} (h : Sound source plan)
    (hx : x.footprint.Fits source)
    (hfree : ∀ y ∈ plan, y.footprint.conflictsWith x.footprint = false) :
    Sound source (plan ++ [x]) where
  fits := by
    intro y hy
    rcases List.mem_append.mp hy with hy | hy
    · exact h.fits y hy
    · rw [List.mem_singleton.mp hy]
      exact hx
  conflictFree := by
    rw [ConflictFree, List.map_append, List.pairwise_append]
    refine ⟨h.conflictFree, by simp, ?_⟩
    intro a ha b hb
    obtain ⟨y, hy, rfl⟩ := List.mem_map.mp ha
    rw [List.map_singleton, List.mem_singleton] at hb
    subst hb
    exact hfree y hy

theorem Sound.nil : Sound source [] := ⟨by simp, .nil⟩

theorem exists_applyAll_of_sound {plan : List Insertion} (h : Sound source plan) :
    ∃ t, applyAll source (plan.map footprint) = .ok t := by
  refine isOk_applyAll_iff.mpr ⟨fun e he => ?_, h.conflictFree⟩
  obtain ⟨x, hx, rfl⟩ := List.mem_map.mp he
  exact h.fits x hx

/-- From the selections in turn, `done` grows to a plan. -/
inductive Fills (tree : Tree) : List Insertion → List Selection → List Insertion → Prop
  | nil {done} : Fills tree done [] done
  | skip {done s rest plan} (none : propose? tree s = .ok none) (tail : Fills tree done rest plan) :
      Fills tree done (s :: rest) plan
  | collide {done s x rest plan} (some : propose? tree s = .ok (some x))
      (conflict : ∃ y ∈ done, y.footprint.conflictsWith x.footprint = true)
      (tail : Fills tree done rest plan) : Fills tree done (s :: rest) plan
  | take {done s x rest plan} (some : propose? tree s = .ok (some x))
      (free : ∀ y ∈ done, y.footprint.conflictsWith x.footprint = false)
      (tail : Fills tree (done ++ [x]) rest plan) : Fills tree done (s :: rest) plan

theorem fills_of_foldlM {tree : Tree} {selections : List Selection} {done plan : List Insertion}
    (h : selections.foldlM (addProposal tree) done = .ok plan) :
    Fills tree done selections plan := by
  induction selections generalizing done with
  | nil =>
    cases h
    exact .nil
  | cons s selections ih =>
    rw [List.foldlM_cons, addProposal] at h
    cases hproposal : propose? tree s with
    | error failure =>
      rw [hproposal] at h
      cases h
    | ok proposal =>
      rw [hproposal] at h
      cases proposal with
      | none => exact .skip hproposal (ih h)
      | some x =>
        change selections.foldlM (addProposal tree) (add done x) = .ok plan at h
        rw [add] at h
        split at h
        · rename_i hany
          exact .collide hproposal (List.any_eq_true.mp hany) (ih h)
        · rename_i hfree
          simp only [List.any_eq_true, not_exists, not_and, Bool.not_eq_true] at hfree
          exact .take hproposal hfree (ih h)

theorem exists_foldlM_iff {tree : Tree} {selections : List Selection} {done : List Insertion} :
    (∃ plan, selections.foldlM (addProposal tree) done = .ok plan) ↔
      ∀ s ∈ selections, ∃ proposal, propose? tree s = .ok proposal := by
  induction selections generalizing done with
  | nil => exact ⟨by simp, fun _ => ⟨done, rfl⟩⟩
  | cons s selections ih =>
    rw [List.forall_mem_cons, List.foldlM_cons, addProposal]
    cases hproposal : propose? tree s with
    | error failure =>
      constructor
      · rintro ⟨plan, hplan⟩
        cases hplan
      · rintro ⟨⟨proposal, hproposal⟩, -⟩
        cases hproposal
    | ok proposal =>
      have hfirst : ∃ p, (Except.ok proposal : Except Failure (Option Insertion)) = .ok p :=
        ⟨proposal, rfl⟩
      cases proposal with
      | none => exact ih.trans (and_iff_right hfirst).symm
      | some x => exact ih.trans (and_iff_right hfirst).symm

/-- Selection by selection, the plan stays sound. -/
theorem Fills.sound {tree : Tree} {selections : List Selection} {done plan : List Insertion}
    (h : Fills tree done selections plan) (hlabels : tree.LabelsSound)
    (hin : ∀ s ∈ selections, s.LiesIn tree.source) (hdone : Sound tree.source done) :
    Sound tree.source plan := by
  induction h with
  | nil => exact hdone
  | skip _ _ ih => exact ih (fun s hs => hin s (by simp [hs])) hdone
  | collide _ _ _ ih => exact ih (fun s hs => hin s (by simp [hs])) hdone
  | take some free _ ih =>
    have hfits := fits_of_propose? hlabels (hin _ (by simp)) some
    exact ih (fun s hs => hin s (by simp [hs])) (hdone.append hfits free)

/-- Every insertion of a plan is what a selection of its own asks for. -/
theorem Fills.chosen {tree : Tree} {selections : List Selection} {done plan : List Insertion}
    (h : Fills tree done selections plan) :
    ∃ chosen added, plan = done ++ added ∧ chosen.Sublist selections ∧
      List.Forall₂ (fun s x => propose? tree s = .ok (some x)) chosen added := by
  induction h with
  | nil => exact ⟨[], [], by simp, .slnil, .nil⟩
  | skip _ _ ih | collide _ _ _ ih =>
    obtain ⟨chosen, added, hplan, hsub, hall⟩ := ih
    exact ⟨chosen, added, hplan, hsub.cons _, hall⟩
  | @take done s x rest plan some _ _ ih =>
    obtain ⟨chosen, added, hplan, hsub, hall⟩ := ih
    exact ⟨s :: chosen, x :: added, by simpa using hplan, hsub.cons_cons s, .cons some hall⟩

theorem mem_bottomFirst {selections : List Selection} {s : Selection} :
    s ∈ Selection.bottomFirst selections ↔ s ∈ selections :=
  (Selection.bottomFirst_perm selections).mem_iff

/-- No selection is planned for twice. -/
theorem length_plan_le {tree : Tree} {selections : List Selection} {plan : List Insertion}
    (h : Insertion.plan tree selections = .ok plan) : plan.length ≤ selections.length := by
  obtain ⟨chosen, added, hadded, hsub, hchosen⟩ := (fills_of_foldlM h).chosen
  obtain rfl : plan = added := hadded
  calc plan.length = chosen.length := hchosen.length_eq.symm
    _ ≤ (Selection.bottomFirst selections).length := hsub.length_le
    _ = selections.length := (Selection.bottomFirst_perm selections).length_eq

/-- Selections that are in order are planned for as they come. -/
theorem plan_of_pairwise {tree : Tree} {selections : List Selection}
    (h : selections.Pairwise fun a b => b.start ≤ a.start) :
    Insertion.plan tree selections = selections.foldlM (addProposal tree) [] := by
  rw [Insertion.plan, Selection.bottomFirst, List.mergeSort_of_pairwise (by simpa using h)]

theorem exists_plan_iff_of_labelsSound {tree : Tree} {selections : List Selection}
    (h : tree.LabelsSound) :
    (∃ plan, Insertion.plan tree selections = .ok plan) ↔
      ∀ s ∈ selections, SearchEnds tree s ∧ EchoKnown tree s := by
  rw [Insertion.plan, exists_foldlM_iff]
  simp only [mem_bottomFirst, exists_propose?_iff h]

/-- Planning returns exactly if the search for every selection ends. -/
theorem exists_plan_iff {tree : Tree} {selections : List Selection}
    (h : tree.root.Sound tree.source) :
    (∃ plan, Insertion.plan tree selections = .ok plan) ↔ ∀ s ∈ selections, SearchEnds tree s := by
  rw [exists_plan_iff_of_labelsSound (tree.labelsSound_of_sound h)]
  simp only [echoKnown_of_sound h, and_true]

/-- Everything planned is what a selection asks for. -/
theorem exists_propose?_of_mem_plan {tree : Tree} {selections : List Selection}
    {plan : List Insertion} {x : Insertion} (hplan : Insertion.plan tree selections = .ok plan)
    (hx : x ∈ plan) : ∃ s ∈ selections, propose? tree s = .ok (some x) := by
  obtain ⟨chosen, added, rfl, hsub, hchosen⟩ := (fills_of_foldlM hplan).chosen
  obtain ⟨i, hi, rfl⟩ := List.mem_iff_getElem.mp hx
  have hi' : i < chosen.length := hchosen.length_eq ▸ hi
  exact ⟨chosen[i], mem_bottomFirst.mp (hsub.subset (List.getElem_mem hi')), hchosen.get hi' hi⟩

theorem sound_of_plan {tree : Tree} {selections : List Selection} {plan : List Insertion}
    (h : tree.LabelsSound) (hin : ∀ s ∈ selections, s.LiesIn tree.source)
    (hplan : Insertion.plan tree selections = .ok plan) : Sound tree.source plan :=
  (fills_of_foldlM hplan).sound h (fun s hs => hin s (mem_bottomFirst.mp hs)) .nil

end Insertion
end LogProbe
