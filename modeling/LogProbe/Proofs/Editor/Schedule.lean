import LogProbe.Editor.Request
import LogProbe.Proofs.Edit.Rounds
import LogProbe.Proofs.Edit.Splice
import LogProbe.Proofs.Edit.TabStops
import LogProbe.Proofs.Log.Footprint

/-! The rounds in which a plan is carried out. A snippet is a round of its own; before it go the
pending edits that start at it or below, the others wait. The rounds are made of the footprints of
the plan, and whether they rise can be told from the plan. -/
namespace LogProbe
namespace Insertion
open Edit

/-- The rounds for a plan, with edits pending from before. -/
def rounds : List Edit → List Insertion → List (List Edit)
  | pending, [] => [pending]
  | pending, edit e :: rest => rounds (pending ++ [e]) rest
  | pending, snippet site s :: rest =>
    let (ready, waiting) := pending.partition (site.start ≤ ·.start)
    ready :: [(snippet site s).footprint] :: rounds waiting rest

/-- An insertion that is carried out after an earlier one of the plan stays above it: after a
snippet that is any insertion, after an edit a snippet that lets the edit go ahead. -/
def StaysAbove (x e : Insertion) : Prop :=
  x.isSnippet = true ∨ e.isSnippet = true ∧ e.footprint.start ≤ x.footprint.start →
    e.footprint.stop ≤ x.footprint.start

/-- All insertions of a plan stay above those carried out before them. -/
def InStep (plan : List Insertion) : Prop := plan.Pairwise StaysAbove

/-- The pending edits that go ahead of a snippet. -/
def ready (site : Selection) (pending : List Edit) : List Edit :=
  pending.filter (site.start ≤ ·.start)

/-- The pending edits that wait on. -/
def waiting (site : Selection) (pending : List Edit) : List Edit :=
  pending.filter fun e => !decide (site.start ≤ e.start)

/-- The kind of an insertion and the span that it takes. -/
def shape (x : Insertion) : Bool × (Nat × Nat) := (x.isSnippet, x.footprint.span)

theorem partition_pending (site : Selection) (pending : List Edit) :
    pending.partition (site.start ≤ ·.start) = (ready site pending, waiting site pending) := by
  rw [List.partition_eq_filter_filter]
  rfl

theorem mem_ready {site : Selection} {pending : List Edit} {e : Edit} :
    e ∈ ready site pending ↔ e ∈ pending ∧ site.start ≤ e.start := by
  simp [ready]

theorem mem_waiting {site : Selection} {pending : List Edit} {e : Edit} :
    e ∈ waiting site pending ↔ e ∈ pending ∧ e.start < site.start := by
  simp [waiting]

theorem rounds_snippet (pending : List Edit) (site : Selection) (s : Snippet)
    (rest : List Insertion) : rounds pending (snippet site s :: rest) =
      ready site pending :: [(snippet site s).footprint] :: rounds (waiting site pending) rest := by
  rw [rounds, partition_pending]

/-- The rounds of a plan are made of its footprints. -/
theorem flatten_rounds_perm (pending : List Edit) (plan : List Insertion) :
    (rounds pending plan).flatten.Perm (pending ++ plan.map footprint) := by
  induction plan generalizing pending with
  | nil => simp [rounds]
  | cons x rest ih =>
    cases x with
    | edit e => simpa [rounds, footprint] using ih (pending ++ [e])
    | snippet site s =>
      rw [rounds_snippet, List.flatten_cons, List.flatten_cons, List.map_cons,
        List.singleton_append]
      generalize (snippet site s).footprint = f
      have hparts : (ready site pending ++ waiting site pending).Perm pending :=
        List.filter_append_perm _ pending
      refine List.perm_middle.trans (.trans ?_ List.perm_middle.symm)
      refine ((ih _).append_left _).cons f |>.trans ?_
      rw [← List.append_assoc]
      exact (hparts.append_right _).cons f

theorem mem_flatten_rounds {pending : List Edit} {plan : List Insertion} {e : Edit} :
    e ∈ (rounds pending plan).flatten ↔ e ∈ pending ∨ ∃ x ∈ plan, x.footprint = e := by
  rw [(flatten_rounds_perm pending plan).mem_iff, List.mem_append, List.mem_map]

/-- Insertions at one offset are carried out in the order in which they are planned. -/
theorem filter_flatten_rounds (offset : Nat) (pending : List Edit) (plan : List Insertion) :
    (rounds pending plan).flatten.filter (insertsAt offset) =
      (pending ++ plan.map footprint).filter (insertsAt offset) := by
  induction plan generalizing pending with
  | nil => simp [rounds]
  | cons x rest ih =>
    cases x with
    | edit e => simpa [rounds, footprint] using ih (pending ++ [e])
    | snippet site s =>
      rw [rounds_snippet, List.flatten_cons, List.flatten_cons, List.map_cons, List.filter_append,
        List.filter_append, ih, List.filter_append, List.filter_append, ready, waiting,
        List.filter_filter, List.filter_filter]
      by_cases hle : site.start ≤ offset
      · have hready : ∀ e ∈ pending, (insertsAt offset e && decide (site.start ≤ e.start)) =
            insertsAt offset e := by
          intro e _
          simp only [insertsAt, Bool.and_eq_left_iff_imp, Bool.and_eq_true, beq_iff_eq,
            decide_eq_true_eq]
          omega
        have hwaiting : ∀ e ∈ pending, ¬ (insertsAt offset e && !decide (site.start ≤ e.start)) =
            true := by
          intro e _
          simp only [insertsAt, Bool.and_eq_true, beq_iff_eq, Bool.not_eq_true',
            decide_eq_false_iff_not]
          omega
        rw [List.filter_congr hready, List.filter_eq_nil_iff.mpr hwaiting, List.nil_append,
          ← List.filter_append]
        rfl
      · have hready : ∀ e ∈ pending, ¬ (insertsAt offset e && decide (site.start ≤ e.start)) =
            true := by
          intro e _
          simp only [insertsAt, Bool.and_eq_true, beq_iff_eq, decide_eq_true_eq]
          omega
        have hwaiting : ∀ e ∈ pending, (insertsAt offset e && !decide (site.start ≤ e.start)) =
            insertsAt offset e := by
          intro e _
          simp only [insertsAt, Bool.and_eq_left_iff_imp, Bool.and_eq_true, beq_iff_eq,
            Bool.not_eq_true', decide_eq_false_iff_not]
          omega
        have hsite : insertsAt offset (snippet site s).footprint = false := by
          simp only [insertsAt, footprint, Bool.and_eq_false_iff, beq_eq_false_iff_ne]
          omega
        rw [List.filter_congr hwaiting, List.filter_eq_nil_iff.mpr hready, List.nil_append]
        simp [hsite]

/-- Edits that do not conflict follow each other. -/
theorem stop_le_of_start_lt {x e : Edit} (hx : x.start ≤ x.stop) (he : e.start ≤ e.stop)
    (hfree : x.conflictsWith e = false) (hlt : e.start < x.start) : e.stop ≤ x.start :=
  (stop_le_start_iff hx he (appliesBefore_iff.mpr (.inl hlt))).mpr hfree

/-- Around a snippet the rounds rise exactly if it stays above the edits that go ahead of it, all
that is planned after it stays above it, and the rounds after it rise. -/
theorem rising_rounds_snippet_iff {pending : List Edit} {site : Selection} {s : Snippet}
    {rest : List Insertion}
    (hforward : ∀ e ∈ pending ++ (snippet site s :: rest).map footprint, e.start ≤ e.stop)
    (hfree : ConflictFree (pending ++ (snippet site s :: rest).map footprint)) :
    Rising (rounds pending (snippet site s :: rest)) ↔
      (∀ x ∈ pending, site.start ≤ x.start → site.stop ≤ x.start) ∧
      (∀ e ∈ rest, e.footprint.stop ≤ site.start) ∧
      Rising (rounds (waiting site pending) rest) := by
  rw [rounds_snippet, rising_cons, rising_cons, List.flatten_cons, List.forall_mem_singleton]
  constructor
  · rintro ⟨hready, hlater, hrest⟩
    refine ⟨fun x hx hle => ?_, fun e he => ?_, hrest⟩
    · exact hready x (mem_ready.mpr ⟨hx, hle⟩) (snippet site s).footprint (by simp)
    · exact hlater _ (mem_flatten_rounds.mpr (.inr ⟨e, he, rfl⟩))
  · rintro ⟨hahead, hrest, hrising⟩
    have hlater : ∀ e ∈ (rounds (waiting site pending) rest).flatten, e.stop ≤ site.start := by
      intro e he
      rcases mem_flatten_rounds.mp he with he | ⟨y, hy, rfl⟩
      · -- a waiting edit starts above the snippet and does not conflict with it
        obtain ⟨he, hlt⟩ := mem_waiting.mp he
        have hmem : (snippet site s).footprint ∈ (snippet site s :: rest).map footprint := by simp
        exact stop_le_of_start_lt (x := (snippet site s).footprint) site.start_le_stop
          (hforward e (by simp [he]))
          (by rw [conflictsWith_comm]; exact (List.pairwise_append.mp hfree).2.2 e he _ hmem) hlt
      · exact hrest y hy
    refine ⟨fun x hx e he => ?_, hlater, hrising⟩
    obtain ⟨hx, hle⟩ := mem_ready.mp hx
    rcases List.mem_append.mp he with he | he
    · rw [List.mem_singleton.mp he]
      exact hahead x hx hle
    · exact Nat.le_trans (hlater e he) hle

/-- The rounds of a plan rise exactly if the plan is in step and its snippets stay above the pending
edits that go ahead of them. -/
theorem rising_rounds_iff {pending : List Edit} {plan : List Insertion}
    (hforward : ∀ e ∈ pending ++ plan.map footprint, e.start ≤ e.stop)
    (hfree : ConflictFree (pending ++ plan.map footprint)) :
    Rising (rounds pending plan) ↔
      InStep plan ∧ ∀ x ∈ pending, ∀ e ∈ plan, StaysAbove (edit x) e := by
  induction plan generalizing pending with
  | nil => simp [rounds, Rising, InStep]
  | cons y rest ih =>
    cases y with
    | edit y =>
      have hpending : pending ++ (edit y :: rest).map footprint =
          (pending ++ [y]) ++ rest.map footprint := by simp [footprint]
      rw [hpending] at hforward hfree
      rw [rounds, ih hforward hfree, InStep, InStep, List.pairwise_cons]
      have hedit : ∀ x, StaysAbove (edit x) (edit y) := fun x => by simp [StaysAbove, isSnippet]
      simp only [List.mem_append, List.mem_singleton, List.forall_mem_cons, or_imp, forall_and,
        forall_eq, hedit, true_and]
      constructor
      · rintro ⟨hrest, hpending, hy⟩
        exact ⟨⟨hy, hrest⟩, hpending⟩
      · rintro ⟨⟨hy, hrest⟩, hpending⟩
        exact ⟨hrest, hpending, hy⟩
    | snippet site s =>
      have hsub : (waiting site pending ++ rest.map footprint).Sublist
          (pending ++ (snippet site s :: rest).map footprint) :=
        List.filter_sublist.append (List.sublist_cons_self _ _)
      rw [rising_rounds_snippet_iff hforward hfree,
        ih (fun e he => hforward e (hsub.mem he)) (hfree.sublist hsub), InStep, InStep,
        List.pairwise_cons]
      constructor
      · rintro ⟨hahead, hafter, hrest, hwaiting⟩
        refine ⟨⟨fun e he _ => hafter e he, hrest⟩, fun x hx => List.forall_mem_cons.mpr ⟨?_, ?_⟩⟩
        · rintro (hkind | ⟨-, hle⟩)
          · cases hkind
          · exact hahead x hx hle
        · intro e he
          by_cases hle : site.start ≤ x.start
          · exact fun _ => Nat.le_trans (hafter e he) hle
          · exact hwaiting x (mem_waiting.mpr ⟨hx, Nat.lt_of_not_le hle⟩) e he
      · rintro ⟨⟨hafter, hrest⟩, hpending⟩
        refine ⟨fun x hx hle => ?_, fun e he => hafter e he (.inl rfl), hrest, ?_⟩
        · exact hpending x hx (snippet site s) (by simp) (.inr ⟨rfl, hle⟩)
        · exact fun x hx e he => hpending x (mem_waiting.mp hx).1 e (by simp [he])

/-- A plan in step is carried out as one batch. -/
theorem applyRounds_of_inStep {source : Text} {plan : List Insertion} (h : Sound source plan)
    (hstep : InStep plan) :
    applyRounds source (rounds [] plan) = applyAll source (plan.map footprint) := by
  have hperm := flatten_rounds_perm [] plan
  rw [List.nil_append] at hperm
  have hfits : ∀ e ∈ plan.map footprint, e.Fits source := by
    intro e he
    obtain ⟨x, hx, rfl⟩ := List.mem_map.mp he
    exact h.fits x hx
  have hrising : Rising (rounds [] plan) :=
    (rising_rounds_iff (fun e he => (hfits e he).forward) h.conflictFree).mpr ⟨hstep, by simp⟩
  rw [applyRounds_of_rising hrising (fun e he => hfits e (hperm.mem_iff.mp he))
    (h.conflictFree.perm hperm.symm)]
  exact applyAll_of_perm hperm fun offset => filter_flatten_rounds offset [] plan

theorem inStep_congr {plan plan' : List Insertion} (h : plan'.map shape = plan.map shape) :
    InStep plan' ↔ InStep plan := by
  have hmap : ∀ l : List Insertion, InStep l ↔ (l.map shape).Pairwise fun k k' =>
      k.1 = true ∨ k'.1 = true ∧ k'.2.1 ≤ k.2.1 → k'.2.2 ≤ k.2.1 :=
    fun l => by rw [List.pairwise_map]; rfl
  rw [hmap, hmap, h]

/-- A plan of the same shape is sound in every text that has the boundaries. -/
theorem Sound.of_shape {source source' : Text} {plan plan' : List Insertion} (h : Sound source plan)
    (hshape : plan'.map shape = plan.map shape)
    (hsource : ∀ n, source.isBoundary n = true → source'.isBoundary n = true) :
    Sound source' plan' where
  fits := by
    intro x hx
    have hmem : x.shape ∈ plan.map shape := hshape ▸ List.mem_map_of_mem hx
    obtain ⟨y, hy, hxy⟩ := List.mem_map.mp hmem
    have hfits := h.fits y hy
    simp only [shape, span, Prod.mk.injEq] at hxy
    obtain ⟨-, hstart, hstop⟩ := hxy
    have hstopBoundary := hsource _ hfits.stopBoundary
    rw [hstop] at hstopBoundary
    exact ⟨hstart ▸ hstop ▸ hfits.forward, Text.le_size_of_isBoundary hstopBoundary,
      hstart ▸ hsource _ hfits.startBoundary, hstopBoundary⟩
  conflictFree := by
    have hmap : ∀ l : List Insertion, ConflictFree (l.map footprint) ↔
        (l.map shape).Pairwise fun k k' =>
          (⟨k.2.1, k.2.2, []⟩ : Edit).conflictsWith ⟨k'.2.1, k'.2.2, []⟩ = false :=
      fun l => by rw [ConflictFree, List.pairwise_map, List.pairwise_map]; rfl
    rw [hmap, hshape, ← hmap]
    exact h.conflictFree

/-- The same insertion with a text that depends on its span alone. -/
def refill (fill : Nat × Nat → Text) : Insertion → Insertion
  | edit e => edit (e.refill fill)
  | snippet site s => snippet site ⟨fill (snippet site s).footprint.span⟩

theorem shape_refill (fill : Nat × Nat → Text) (x : Insertion) :
    (x.refill fill).shape = x.shape := by
  cases x <;> rfl

theorem footprint_refill {fill : Nat × Nat → Text} (hfill : ∀ k, '$' ∉ fill k) (x : Insertion) :
    (x.refill fill).footprint = x.footprint.refill fill := by
  cases x with
  | edit e => rfl
  | snippet site s =>
    have hplain (k : Nat × Nat) : Snippet.plain (fill k) = fill k :=
      Snippet.plain_of_not_mem (hfill k)
    simp only [refill, footprint, Edit.refill, Snippet.plainText, hplain]

theorem rounds_refill {fill : Nat × Nat → Text} (hfill : ∀ k, '$' ∉ fill k) (pending : List Edit)
    (plan : List Insertion) :
    rounds (pending.map (Edit.refill fill)) (plan.map (refill fill)) =
      (rounds pending plan).map fun batch => batch.map (Edit.refill fill) := by
  induction plan generalizing pending with
  | nil => rfl
  | cons x rest ih =>
    cases x with
    | edit e => simpa [rounds, refill] using ih (pending ++ [e])
    | snippet site s =>
      have hready : ready site (pending.map (Edit.refill fill)) =
          (ready site pending).map (Edit.refill fill) := by
        rw [ready, List.filter_map]
        rfl
      have hwaiting : waiting site (pending.map (Edit.refill fill)) =
          (waiting site pending).map (Edit.refill fill) := by
        rw [waiting, List.filter_map]
        rfl
      have hsite := footprint_refill hfill (snippet site s)
      rw [List.map_cons, rounds_snippet]
      rw [refill] at hsite ⊢
      rw [rounds_snippet, hready, hwaiting, ih, hsite]
      rfl

/-- A plan out of step fails for some texts of its insertions, whatever the text they go into. -/
theorem exists_refill_of_not_inStep {source : Text} {plan : List Insertion} (h : Sound source plan)
    (hstep : ¬ InStep plan) :
    ∃ fill : Nat × Nat → Text, (∀ k, ∀ c ∈ fill k, c = ' ' ∨ c = 'é') ∧
      ∀ source' t, applyRounds source' (rounds [] (plan.map (refill fill))) ≠ .ok t := by
  have hperm := flatten_rounds_perm [] plan
  rw [List.nil_append] at hperm
  have hforward : ∀ e ∈ plan.map footprint, e.start ≤ e.stop := by
    intro e he
    obtain ⟨x, hx, rfl⟩ := List.mem_map.mp he
    exact (h.fits x hx).forward
  have hrising : ¬ Rising (rounds [] plan) := fun hrising =>
    hstep ((rising_rounds_iff hforward h.conflictFree).mp hrising).1
  obtain ⟨k, n, hfails⟩ := exists_refill_ne_ok hrising
    (fun e he => hforward e (hperm.mem_iff.mp he)) (h.conflictFree.perm hperm.symm)
  refine ⟨crossing k n, fun _ c hc => mem_crossing hc, fun source' t => ?_⟩
  have hfill : ∀ k', '$' ∉ crossing k n k' := by
    intro k' hmem
    rcases mem_crossing hmem with h | h <;> cases h
  have hrounds := rounds_refill hfill [] plan
  rw [List.map_nil] at hrounds
  rw [hrounds]
  exact hfails source' t

end Insertion
end LogProbe
