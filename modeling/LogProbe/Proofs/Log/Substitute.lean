import LogProbe.Proofs.Log.Removal

/-! Substitutes for logs that an operator takes for its operand: a log that is called, of which a
member or an index is read, or that is asserted not to be null. The substitute is `void 0`, and only
the reading of a member puts it into parentheses. -/
namespace LogProbe

/-- Whether a node of this kind applies a postfix operator to a child with this field. -/
def Kind.takesOperand (kind : Kind) (field : Option Field) : Bool :=
  match kind with
  | .callExpression => field == some .function
  | .memberExpression | .subscriptExpression => field == some .object
  | .nonNullExpression => true
  | _ => false

/-- An operator behind a node takes it for its operand. -/
def Place.isOperand (p : Place) : Bool := p.parent?.any (·.kind.takesOperand p.field)

theorem Kind.eq_of_takesOperand {kind : Kind} {field : Option Field}
    (h : kind.takesOperand field = true) :
    kind = .callExpression ∨ kind = .memberExpression ∧ field = some .object ∨
      kind = .subscriptExpression ∨ kind = .nonNullExpression := by
  unfold takesOperand at h
  split at h <;> simp_all

namespace Removal
open Edit

/-- Where an operand is removed, only the kind of its parent decides what takes its place. -/
theorem site_of_isOperand {call : Place} (h : call.isOperand = true) :
    site call =
      if call.parentKind? = some .memberExpression then .neutralObject else .neutral := by
  obtain ⟨parent, hparent, htakes⟩ := (Option.any_eq_true ..).mp h
  have hkind : call.parentKind? = some parent.kind := by
    rw [Place.parentKind?, hparent, Option.map_some]
  rw [site, hkind, hparent]
  rcases Kind.eq_of_takesOperand htakes with hk | ⟨hk, hfield⟩ | hk | hk
  · simp [hk]
  · simp [hk, hfield]
  · simp [hk]
  · simp [hk]

theorem edit?_of_isOperand (source : Text) {call : Place} (h : call.isOperand = true) :
    edit? source call = some ⟨call.label.start, call.label.stop, substitute call⟩ := by
  rw [edit?, substitute, site_of_isOperand h]
  by_cases hmember : call.parentKind? = some .memberExpression
  · rw [if_pos hmember]
  · rw [if_neg hmember]

/-- A plan has the edit of every log. -/
theorem exists_mem_of_plan? {tree : Tree} {edits : List Edit} (h : plan? tree = some edits)
    {call : Place} (hcall : call ∈ tree.logCalls) :
    ∃ e ∈ edits, edit? tree.source call = some e := by
  have hmem := (List.mergeSort_perm tree.logCalls fun a b =>
    b.label.fullStart ≤ a.label.fullStart).mem_iff.mpr hcall
  rw [plan?] at h
  generalize tree.logCalls.mergeSort _ = calls at h hmem
  induction calls generalizing edits with
  | nil => cases hmem
  | cons first calls ih =>
    rw [List.mapM_cons] at h
    obtain ⟨e, he, h⟩ := Option.bind_eq_some_iff.mp h
    obtain ⟨rest, hrest, h⟩ := Option.bind_eq_some_iff.mp h
    cases h
    rcases List.mem_cons.mp hmem with rfl | hmem
    · exact ⟨e, by simp, he⟩
    · obtain ⟨e', he', hedit⟩ := ih hrest hmem
      exact ⟨e', List.mem_cons_of_mem e he', hedit⟩

theorem mem_of_isOperand {tree : Tree} {edits : List Edit} (h : plan? tree = some edits)
    {call : Place} (hcall : call ∈ tree.logCalls) (hoperand : call.isOperand = true) :
    ⟨call.label.start, call.label.stop, substitute call⟩ ∈ edits := by
  obtain ⟨e, he, hedit⟩ := exists_mem_of_plan? h hcall
  exact Option.some.inj (hedit.symm.trans (edit?_of_isOperand _ hoperand)) ▸ he

/-- The removal of a log that is the only one, when something takes its place. -/
theorem exists_removed_one {t : Tree} (h : t.LogsApart) {e : Edit}
    (hcalls : t.logCalls.map bareEdit = [e]) (htext : e.text ≠ []) :
    ∃ result, plan? t = some [e] ∧ applyAll t.source [e] = .ok result ∧
      splice? t.source 0 [e] = some result := by
  obtain ⟨edits, result, hedits, hwidens, -, hresult, hsplice⟩ := exists_removed h
  rw [hcalls] at hwidens
  obtain ⟨wide, rest, hwide, hrest, hreverse⟩ := List.forall₂_cons_left_iff.mp hwidens
  obtain rfl : rest = [] := List.forall₂_nil_left_iff.mp hrest
  obtain rfl : wide = e := hwide.eq_of_text htext
  obtain rfl : edits = [wide] := List.reverse_eq_iff.mp hreverse
  exact ⟨result, hedits, hresult, hsplice⟩

/-- Where an operator takes a log for its operand, `void 0` takes the place of the log, to the
character, and parentheses go around it exactly if the operator reads a member. That is so in every
plan; and where the logs can be told apart there is a plan, it is accepted, and in its result the
substitute stands between what is left of the text on both sides. -/
theorem operand_substitute (tree : Tree) (call : Place) (hcall : call ∈ tree.logCalls)
    (hoperand : call.isOperand = true) :
    (substitute call =
      if call.parentKind? = some .memberExpression then "(void 0)".toList else "void 0".toList) ∧
    (∀ edits, plan? tree = some edits →
      ⟨call.label.start, call.label.stop, substitute call⟩ ∈ edits) ∧
    (tree.LogsApart → ∃ edits result upper lower above below, plan? tree = some edits ∧
      applyAll tree.source edits = .ok result ∧
      edits.reverse = upper ++ ⟨call.label.start, call.label.stop, substitute call⟩ :: lower ∧
      stretch? tree.source call.label.start 0 upper = some above ∧
      stretch? tree.source tree.source.size call.label.stop lower = some below ∧
      above ++ substitute call ++ below = result) := by
  refine ⟨?_, fun edits hedits => mem_of_isOperand hedits hcall hoperand, fun h => ?_⟩
  · rw [substitute, site_of_isOperand hoperand]
    by_cases hmember : call.parentKind? = some .memberExpression
    · rw [if_pos hmember, if_pos hmember]
    · rw [if_neg hmember, if_neg hmember]
  · obtain ⟨edits, result, hedits, -, -, hresult, hsplice⟩ := exists_removed h
    have hmem := mem_of_isOperand hedits hcall hoperand
    obtain ⟨upper, lower, horder⟩ := List.append_of_mem (List.mem_reverse.mpr hmem)
    rw [splice?_eq_stretch?, horder] at hsplice
    obtain ⟨above, below, habove, hbelow, htext⟩ := exists_stretch?_around hsplice
    exact ⟨edits, result, upper, lower, above, below, hedits, hresult, horder, habove, hbelow,
      htext⟩

/-- An operator of this kind behind a log. The rows are those of the operator. -/
def operatorTable (kind : String) (operator : Text) (rows : List Row) : ParseTable where
  grammar := .javascript
  text := "console.log(1)".toList ++ operator ++ ";\n".toList
  hasErrors := false
  rows :=
    let stop := 14 + operator.size
    [⟨none, "program", true, none, 0, stop + 2, none⟩,
      ⟨some 0, "expression_statement", true, none, 0, stop + 1, none⟩,
      ⟨some 1, kind, true, none, 0, stop, none⟩] ++
      logRows 3 2 0 (some "object") ++ rows ++ [⟨some 1, ";", false, none, stop, stop + 1, none⟩]

/-- A member of a log. -/
def memberLog : ParseTable := operatorTable "member_expression" ".x".toList [
  ⟨some 2, ".", false, none, 14, 15, none⟩,
  ⟨some 2, "property_identifier", true, some "property", 15, 16, none⟩]

/-- An index of a log. -/
def indexedLog : ParseTable := operatorTable "subscript_expression" "[0]".toList [
  ⟨some 2, "[", false, none, 14, 15, none⟩,
  ⟨some 2, "number", true, some "index", 15, 16, none⟩,
  ⟨some 2, "]", false, none, 16, 17, none⟩]

theorem memberLog_parse : ∃ parse, memberLog.parse? = some parse ∧
    (Tree.ofParse memberLog.text parse).LogsApart ∧
    (Tree.ofParse memberLog.text parse).logCalls.map bareEdit = [⟨0, 14, "(void 0)".toList⟩] ∧
    (Tree.ofParse memberLog.text parse).logCalls.all Place.isOperand = true := by
  refine ⟨_, rfl, Tree.logsApart_ofParse (by decide +kernel) (by decide +kernel) ?_ ?_,
    by decide +kernel, by decide +kernel⟩
  · unfold Tree.SingleExpressions
    decide +kernel
  · unfold Tree.LogsTrimmed
    decide +kernel

theorem memberLog_in_parentheses :
    ∃ parse call edits, memberLog.parse? = some parse ∧
      (Tree.ofParse memberLog.text parse).logCalls = [call] ∧
      plan? (.ofParse memberLog.text parse) = some edits ∧
      ⟨call.label.start, call.label.stop, "(void 0)".toList⟩ ∈ edits ∧
      applyAll memberLog.text edits = .ok "(void 0).x;\n".toList := by
  obtain ⟨parse, hparse, hapart, hbare, hoperand⟩ := memberLog_parse
  obtain ⟨call, hcall, hedit⟩ := List.map_eq_singleton_iff.mp hbare
  rw [hcall, List.all_cons, List.all_nil, Bool.and_true] at hoperand
  obtain ⟨result, hplan, hresult, hsplice⟩ := exists_removed_one hapart hbare (by simp)
  obtain rfl : "(void 0).x;\n".toList = result := Option.some.inj hsplice
  obtain ⟨-, hmem, -⟩ := operand_substitute _ call (hcall ▸ List.mem_singleton_self call) hoperand
  have htext : substitute call = "(void 0)".toList := congrArg Edit.text hedit
  have hmem := hmem _ hplan
  rw [htext] at hmem
  exact ⟨parse, call, _, hparse, hcall, hplan, hmem, hresult⟩

theorem indexedLog_parse : ∃ parse, indexedLog.parse? = some parse ∧
    (Tree.ofParse indexedLog.text parse).LogsApart ∧
    (Tree.ofParse indexedLog.text parse).logCalls.map bareEdit = [⟨0, 14, "void 0".toList⟩] ∧
    (Tree.ofParse indexedLog.text parse).logCalls.all Place.isOperand = true := by
  refine ⟨_, rfl, Tree.logsApart_ofParse (by decide +kernel) (by decide +kernel) ?_ ?_,
    by decide +kernel, by decide +kernel⟩
  · unfold Tree.SingleExpressions
    decide +kernel
  · unfold Tree.LogsTrimmed
    decide +kernel

/-- The index applies to the operand of `void`. -/
theorem indexedLog_not_in_parentheses :
    ∃ parse call edits, indexedLog.parse? = some parse ∧
      (Tree.ofParse indexedLog.text parse).logCalls = [call] ∧ call.isOperand = true ∧
      plan? (.ofParse indexedLog.text parse) = some edits ∧
      ⟨call.label.start, call.label.stop, "void 0".toList⟩ ∈ edits ∧
      applyAll indexedLog.text edits = .ok "void 0[0];\n".toList := by
  obtain ⟨parse, hparse, hapart, hbare, hoperand⟩ := indexedLog_parse
  obtain ⟨call, hcall, hedit⟩ := List.map_eq_singleton_iff.mp hbare
  rw [hcall, List.all_cons, List.all_nil, Bool.and_true] at hoperand
  obtain ⟨result, hplan, hresult, hsplice⟩ := exists_removed_one hapart hbare (by simp)
  obtain rfl : "void 0[0];\n".toList = result := Option.some.inj hsplice
  have hmem := mem_of_isOperand hplan (hcall ▸ List.mem_singleton_self call) hoperand
  have htext : substitute call = "void 0".toList := congrArg Edit.text hedit
  rw [htext] at hmem
  exact ⟨parse, call, _, hparse, hcall, hoperand, hplan, hmem, hresult⟩

end Removal
end LogProbe
