import LogProbe.Proofs.Edit.Order
import LogProbe.Proofs.Text.Cut

/-! Which batches are accepted. Applying a batch compares each edit with the one applied before it
alone; the batch is accepted exactly when all its edits fit into the text and no two of them
conflict. -/
namespace LogProbe
namespace Edit

/-- An edit fits into a text when its span runs forward between two boundaries of the text. -/
structure Fits (source : Text) (e : Edit) : Prop where
  forward : e.start ≤ e.stop
  inside : e.stop ≤ source.size
  startBoundary : source.isBoundary e.start = true
  stopBoundary : source.isBoundary e.stop = true

theorem defect?_eq_none_iff {source : Text} {e : Edit} :
    e.defect? source = none ↔ e.Fits source := by
  unfold defect?
  constructor
  · intro h
    split at h
    · cases h
    · rename_i hspan
      split at h
      · rename_i hb
        rw [Bool.and_eq_true] at hb
        exact ⟨by omega, by omega, hb.1, hb.2⟩
      · cases h
  · intro h
    have hforward := h.forward
    have hinside := h.inside
    rw [if_neg (by omega), if_pos (by simp [h.startBoundary, h.stopBoundary])]

/-- The edit splits the part of the text that it lies in. -/
theorem Fits.split {upper lower : Text} {e : Edit} (h : e.Fits (upper ++ lower))
    (hstop : e.stop ≤ upper.size) :
    ∃ above replaced between, upper = above ++ replaced ++ between ∧
      above.size = e.start ∧ (above ++ replaced).size = e.stop := by
  have hforward := h.forward
  apply Text.exists_split h.forward
  · rw [← Text.isBoundary_append (by omega)]
    exact h.startBoundary
  · rw [← Text.isBoundary_append hstop]
    exact h.stopBoundary

/-- One step of the application: the text above the edit waits for the edits above it. -/
theorem applyUpward_cons {source above replaced between done : Text} {e : Edit} {rest : List Edit}
    (hfits : e.Fits source) (hstart : above.size = e.start)
    (hstop : (above ++ replaced).size = e.stop) :
    applyUpward source (above ++ replaced ++ between) done (e :: rest) =
      applyUpward source above (e.text ++ between ++ done) rest := by
  rw [applyUpward, defect?_eq_none_iff.mpr hfits, ← hstop, Text.cut?_append, ← hstart]
  simp only [Text.upTo_append]

theorem applyAll_singleton (source : Text) (e : Edit) :
    applyAll source [e] = applyUpward source source [] [e] := by
  simp [applyAll]

/-- An edit alone replaces its stretch. -/
theorem applyAll_one (above replaced below : Text) {e : Edit} (hstart : above.size = e.start)
    (hstop : (above ++ replaced).size = e.stop) :
    applyAll (above ++ replaced ++ below) [e] = .ok (above ++ e.text ++ below) := by
  have hfits : e.Fits (above ++ replaced ++ below) := by
    refine ⟨?_, ?_, ?_, ?_⟩
    · rw [← hstart, ← hstop, Text.size_append]
      omega
    · rw [← hstop, Text.size_append (above ++ replaced)]
      omega
    · rw [← hstart, List.append_assoc]
      exact Text.isBoundary_size_append _ _
    · rw [← hstop]
      exact Text.isBoundary_size_append _ _
  rw [applyAll_singleton, applyUpward_cons hfits hstart hstop, applyUpward]
  simp

theorem applyUpward_of_defect {source upper done : Text} {e : Edit} {rest : List Edit}
    {failure : Failure} (h : e.defect? source = some failure) :
    applyUpward source upper done (e :: rest) = .error failure := by
  rw [applyUpward, h]

theorem applyUpward_of_floor {source upper done : Text} {e : Edit} {rest : List Edit}
    (hfits : e.Fits source) (h : upper.size < e.stop) :
    applyUpward source upper done (e :: rest) = .error (.overlap e.start) := by
  have hcut : upper.cut? e.stop = none := by
    rw [Option.eq_none_iff_forall_ne_some]
    rintro ⟨a, b⟩ hab
    obtain ⟨rfl, hs⟩ := Text.append_of_cut? hab
    rw [Text.size_append] at h
    omega
  rw [applyUpward, defect?_eq_none_iff.mpr hfits, hcut]

/-- Edits are accepted one after the other when each fits and ends where or before the edits below
it start. -/
theorem isOk_applyUpward_iff {source upper lower done : Text} {edits : List Edit}
    (hs : source = upper ++ lower) :
    (∃ t, applyUpward source upper done edits = .ok t) ↔
      (∀ e ∈ edits, e.Fits source ∧ e.stop ≤ upper.size) ∧
        edits.Pairwise fun x e => e.stop ≤ x.start := by
  induction edits generalizing upper lower done with
  | nil => simp [applyUpward]
  | cons e rest ih =>
    rw [List.forall_mem_cons, List.pairwise_cons]
    by_cases hfits : e.Fits source
    · by_cases hstop : e.stop ≤ upper.size
      · obtain ⟨above, replaced, between, rfl, habove, hreplaced⟩ := (hs ▸ hfits).split hstop
        have habove' : source = above ++ (replaced ++ (between ++ lower)) := by simp [hs]
        rw [applyUpward_cons hfits habove hreplaced, ih habove', habove]
        have hforward := hfits.forward
        constructor
        · rintro ⟨hrest, hchain⟩
          exact ⟨⟨⟨hfits, hstop⟩, fun x hx => ⟨(hrest x hx).1, by have := (hrest x hx).2; omega⟩⟩,
            fun x hx => (hrest x hx).2, hchain⟩
        · rintro ⟨⟨-, hrest⟩, hbelow, hchain⟩
          exact ⟨fun x hx => ⟨(hrest x hx).1, hbelow x hx⟩, hchain⟩
      · rw [applyUpward_of_floor hfits (by omega)]
        constructor
        · rintro ⟨t, ht⟩
          cases ht
        · rintro ⟨⟨⟨-, h⟩, -⟩, -⟩
          exact absurd h hstop
    · obtain ⟨failure, hfailure⟩ :=
        Option.ne_none_iff_exists'.mp (mt defect?_eq_none_iff.mp hfits)
      rw [applyUpward_of_defect hfailure]
      constructor
      · rintro ⟨t, ht⟩
        cases ht
      · rintro ⟨⟨⟨h, -⟩, -⟩, -⟩
        exact absurd h hfits

/-- Of two edits in the order of application, the later one reaches below the start of the other
exactly when they conflict. -/
theorem stop_le_start_iff {x e : Edit} (hx : x.start ≤ x.stop) (he : e.start ≤ e.stop)
    (h : x.appliesBefore e = true) : e.stop ≤ x.start ↔ x.conflictsWith e = false := by
  rw [appliesBefore_iff] at h
  unfold conflictsWith isInsertion
  by_cases hxi : x.start = x.stop <;> by_cases hei : e.start = e.stop <;> simp [hxi, hei] <;> omega

theorem pairwise_stop_le_start_iff {source : Text} {edits : List Edit}
    (hfits : ∀ e ∈ edits, e.Fits source)
    (hsorted : edits.Pairwise fun a b => a.appliesBefore b = true) :
    (edits.Pairwise fun x e => e.stop ≤ x.start) ↔
      edits.Pairwise fun x e => x.conflictsWith e = false := by
  constructor
  · intro h
    refine (h.and hsorted).imp_of_mem ?_
    rintro x e hx he ⟨hstop, hle⟩
    exact (stop_le_start_iff (hfits x hx).forward (hfits e he).forward hle).mp hstop
  · intro h
    refine (h.and hsorted).imp_of_mem ?_
    rintro x e hx he ⟨hfree, hle⟩
    exact (stop_le_start_iff (hfits x hx).forward (hfits e he).forward hle).mpr hfree

/-- No two edits of the list conflict. -/
def ConflictFree (edits : List Edit) : Prop :=
  edits.Pairwise fun a b => a.conflictsWith b = false

theorem ConflictFree.perm {l l' : List Edit} (h : ConflictFree l) (hp : l.Perm l') :
    ConflictFree l' := by
  refine hp.pairwise h ?_
  intro a b hab
  rwa [conflictsWith_comm]

theorem conflictFree_iff_getElem {edits : List Edit} :
    ConflictFree edits ↔ ∀ i j (hi : i < edits.length) (hj : j < edits.length), i ≠ j →
      edits[i].conflictsWith edits[j] = false := by
  rw [ConflictFree, List.pairwise_iff_getElem]
  constructor
  · intro h i j hi hj hij
    rcases Nat.lt_or_gt_of_ne hij with hlt | hlt
    · exact h i j hi hj hlt
    · rw [conflictsWith_comm]
      exact h j i hj hi hlt
  · intro h i j hi hj hij
    exact h i j hi hj (by omega)

theorem isOk_applyAll_iff {source : Text} {batch : List Edit} :
    (∃ t, applyAll source batch = .ok t) ↔
      (∀ e ∈ batch, e.Fits source) ∧ ConflictFree batch := by
  have hsource : source = source ++ [] := by simp
  rw [applyAll_eq, isOk_applyUpward_iff hsource]
  constructor
  · rintro ⟨hfits, hchain⟩
    have hfits' : ∀ e ∈ bottomUp batch, e.Fits source := fun e he => (hfits e he).1
    refine ⟨fun e he => hfits' e (mem_bottomUp.mpr he), ?_⟩
    have hfree := (pairwise_stop_le_start_iff hfits' (pairwise_bottomUp batch)).mp hchain
    exact ConflictFree.perm hfree (bottomUp_perm batch)
  · rintro ⟨hfits, hfree⟩
    have hfits' : ∀ e ∈ bottomUp batch, e.Fits source := fun e he => hfits e (mem_bottomUp.mp he)
    refine ⟨fun e he => ⟨hfits' e he, (hfits' e he).inside⟩, ?_⟩
    exact (pairwise_stop_le_start_iff hfits' (pairwise_bottomUp batch)).mpr
      (hfree.perm (bottomUp_perm batch).symm)

/-- An edit that is accepted alone splits the text and replaces its stretch. -/
theorem exists_split_of_applyAll_one {source t : Text} {e : Edit} (h : applyAll source [e] = .ok t) :
    ∃ above replaced below, source = above ++ replaced ++ below ∧ above.size = e.start ∧
      (above ++ replaced).size = e.stop ∧ t = above ++ e.text ++ below := by
  have hfits : e.Fits source := (isOk_applyAll_iff.mp ⟨t, h⟩).1 e (List.mem_singleton_self e)
  have hsource : e.Fits (source ++ []) := by rwa [List.append_nil]
  obtain ⟨above, replaced, below, rfl, hstart, hstop⟩ := hsource.split hfits.inside
  rw [applyAll_one above replaced below hstart hstop] at h
  exact ⟨above, replaced, below, rfl, hstart, hstop, (Except.ok.inj h).symm⟩

/-- A batch is accepted exactly when every edit of it lies forward within the text between two
boundaries and no two edits at different positions of the batch conflict. -/
theorem applyAll_accepts_iff (source : Text) (batch : List Edit) :
    (∃ t, applyAll source batch = .ok t) ↔
      (∀ e ∈ batch, e.start ≤ e.stop ∧ e.stop ≤ source.size ∧
        source.isBoundary e.start = true ∧ source.isBoundary e.stop = true) ∧
      ∀ i j (hi : i < batch.length) (hj : j < batch.length), i ≠ j →
        batch[i].conflictsWith batch[j] = false := by
  rw [isOk_applyAll_iff, conflictFree_iff_getElem]
  refine and_congr_left fun _ => forall₂_congr fun e _ => ?_
  constructor
  · intro h
    exact ⟨h.forward, h.inside, h.startBoundary, h.stopBoundary⟩
  · rintro ⟨hforward, hinside, hstart, hstop⟩
    exact ⟨hforward, hinside, hstart, hstop⟩

end Edit
end LogProbe
