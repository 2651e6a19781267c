import LogProbe.Log.Echo
import LogProbe.Proofs.Syntax.Place

/-! Every target has an echo. The default values of a sound pattern stand apart from each other
within the pattern, so what is around them can be copied. -/
namespace LogProbe
namespace Node
variable {source : Text}

/-- Two stretches that have no byte in common. -/
def Apart (a b : Nat × Nat) : Prop := a.2 ≤ b.1 ∨ b.2 ≤ a.1

/-- A stretch lies between two offsets and between boundaries of the text. -/
structure Within (source : Text) (start stop : Nat) (s : Nat × Nat) : Prop where
  start_le : start ≤ s.1
  forward : s.1 ≤ s.2
  le_stop : s.2 ≤ stop
  start_boundary : source.isBoundary s.1 = true
  stop_boundary : source.isBoundary s.2 = true

/-- Stretches within a node stand apart from each other; an empty node has none. -/
structure Spread (source : Text) (l : Label) (spans : List (Nat × Nat)) : Prop where
  within : ∀ s ∈ spans, Within source l.start l.stop s
  content : spans ≠ [] → l.start < l.stop
  apart : spans.Pairwise Apart

theorem Spread.nil (l : Label) : Spread source l [] := ⟨by simp, by simp, .nil⟩

/-- What is bound comes first, its default value behind it. -/
theorem Spread.cons_left {l c : Label} {spans : List (Nat × Nat)} (hl : l.Sound source)
    (hc : c.Sound source) (h : Spread source c spans) (hwidth : l.start < l.stop)
    (hstart : l.start ≤ c.start) (hstop : c.stop ≤ l.stop) :
    Spread source l ((c.stop, l.stop) :: spans) where
  within := by
    intro s hs
    rcases List.mem_cons.mp hs with rfl | hs
    · have hforward := hc.start_le
      exact ⟨by simp only; omega, hstop, Nat.le_refl _, hc.stop_boundary, hl.stop_boundary⟩
    · have hs := h.within s hs
      have hlow := hs.start_le
      have hhigh := hs.le_stop
      exact ⟨by omega, hs.forward, by omega, hs.start_boundary, hs.stop_boundary⟩
  content := fun _ => hwidth
  apart := List.pairwise_cons.mpr ⟨fun s hs => .inr (h.within s hs).le_stop, h.apart⟩

/-- The stretches of one child after the other. -/
theorem Spread.append {l c : Label} {spans rest : List (Nat × Nat)} (h : Spread source c spans)
    (hrest : Spread source l rest) (hstart : l.start ≤ c.start)
    (hstop : c.start < c.stop → c.stop ≤ l.stop) (hafter : ∀ s ∈ rest, c.stop ≤ s.1) :
    Spread source l (spans ++ rest) where
  within := by
    intro s hs
    rcases List.mem_append.mp hs with hs | hs
    · have hstop := hstop (h.content (List.ne_nil_of_mem hs))
      have hs := h.within s hs
      have hlow := hs.start_le
      have hhigh := hs.le_stop
      exact ⟨by omega, hs.forward, by omega, hs.start_boundary, hs.stop_boundary⟩
    · exact hrest.within s hs
  content := by
    intro hne
    by_cases hnil : spans = []
    · exact hrest.content (by simpa [hnil] using hne)
    · have hwidth := h.content hnil
      have hstop := hstop hwidth
      omega
  apart := by
    rw [List.pairwise_append]
    refine ⟨h.apart, hrest.apart, fun s hs s' hs' => .inl ?_⟩
    have hhigh := (h.within s hs).le_stop
    have hlow := hafter s' hs'
    omega

mutual

theorem spread_defaultSpans : ∀ {n : Node}, n.Sound source →
    Spread source n.label n.defaultSpans
  | .node l cs, h => by
    have hsound := h
    obtain ⟨hl, hbelow, hordered, hinside, hbound⟩ := h
    have hall : Spread source l (defaultSpansAll cs) :=
      spread_defaultSpansAll hbelow hordered hinside
    have hleft (hkind : l.kind.hasDefault = true) :
        Spread source l ((spansOfBound? l.stop cs).getD (defaultSpansAll cs)) := by
      obtain ⟨hwidth, hbound⟩ := hbound hkind
      cases hspans : spansOfBound? l.stop cs with
      | none => exact hall
      | some spans => exact spread_spansOfBound? hl hwidth hbelow hinside hbound hspans
    rw [defaultSpans]
    cases hkind : l.kind
    case assignmentPattern => exact hleft (by rw [hkind]; rfl)
    case objectAssignmentPattern => exact hleft (by rw [hkind]; rfl)
    all_goals exact hall

theorem spread_spansOfBound? {l : Label} (hl : l.Sound source) (hwidth : l.start < l.stop) :
    ∀ {cs : List Node} {spans : List (Nat × Nat)}, (∀ c ∈ cs, c.Sound source) →
      (∀ c ∈ cs, l.start ≤ c.label.start ∧ (c.label.start < c.label.stop → c.label.stop ≤ l.stop)) →
      (∀ c ∈ cs, c.field = some .left → c.label.stop ≤ l.stop) →
      spansOfBound? l.stop cs = some spans → Spread source l spans
  | [], _, _, _, _, h => by simp [spansOfBound?] at h
  | c :: cs, spans, hbelow, hinside, hbound, h => by
    rw [spansOfBound?] at h
    split at h
    · rename_i hfield
      cases h
      have hc := hbelow c (by simp)
      exact (spread_defaultSpans hc).cons_left hl hc.label_sound hwidth (hinside c (by simp)).1
        (hbound c (by simp) (by simpa using hfield))
    · exact spread_spansOfBound? hl hwidth (fun d hd => hbelow d (by simp [hd]))
        (fun d hd => hinside d (by simp [hd])) (fun d hd => hbound d (by simp [hd])) h

theorem spread_defaultSpansAll {l : Label} : ∀ {cs : List Node}, (∀ c ∈ cs, c.Sound source) →
    cs.Pairwise (fun a b => a.label.stop ≤ b.label.start) →
    (∀ c ∈ cs, l.start ≤ c.label.start ∧ (c.label.start < c.label.stop → c.label.stop ≤ l.stop)) →
      Spread source l (defaultSpansAll cs)
  | [], _, _, _ => by
    rw [defaultSpansAll]
    exact .nil l
  | c :: cs, hbelow, hordered, hinside => by
    obtain ⟨hafter, hordered⟩ := List.pairwise_cons.mp hordered
    have hrest := spread_defaultSpansAll (fun d hd => hbelow d (by simp [hd])) hordered
      (fun d hd => hinside d (by simp [hd]))
    obtain ⟨hstart, hstop⟩ := hinside c (by simp)
    rw [defaultSpansAll]
    refine (spread_defaultSpans (hbelow c (by simp))).append hrest hstart hstop ?_
    exact le_of_mem_defaultSpansAll (fun d hd => hbelow d (by simp [hd])) hafter

theorem le_of_mem_defaultSpansAll {floor : Nat} : ∀ {cs : List Node}, (∀ c ∈ cs, c.Sound source) →
    (∀ c ∈ cs, floor ≤ c.label.start) → ∀ s ∈ defaultSpansAll cs, floor ≤ s.1
  | [], _, _, s, hs => by simp [defaultSpansAll] at hs
  | c :: cs, hbelow, hfloor, s, hs => by
    rw [defaultSpansAll, List.mem_append] at hs
    rcases hs with hs | hs
    · have hlow := ((spread_defaultSpans (hbelow c (by simp))).within s hs).start_le
      have hfloor := hfloor c (by simp)
      omega
    · exact le_of_mem_defaultSpansAll (fun d hd => hbelow d (by simp [hd]))
        (fun d hd => hfloor d (by simp [hd])) s hs

end

theorem spanPrecedes_iff {a b : Nat × Nat} :
    spanPrecedes a b = true ↔ a.1 < b.1 ∨ a.1 = b.1 ∧ a.2 ≤ b.2 := by
  simp [spanPrecedes]

theorem spanPrecedes_trans (a b c : Nat × Nat) (hab : spanPrecedes a b = true)
    (hbc : spanPrecedes b c = true) : spanPrecedes a c = true := by
  rw [spanPrecedes_iff] at *
  omega

theorem spanPrecedes_total (a b : Nat × Nat) : (spanPrecedes a b || spanPrecedes b a) = true := by
  rw [Bool.or_eq_true, spanPrecedes_iff, spanPrecedes_iff]
  omega

/-- Stretches that stand apart follow each other once they are sorted. -/
theorem pairwise_sorted_spans {spans : List (Nat × Nat)} (hforward : ∀ s ∈ spans, s.1 ≤ s.2)
    (h : spans.Pairwise Apart) :
    (spans.mergeSort spanPrecedes).Pairwise fun a b => a.2 ≤ b.1 := by
  have hperm := List.mergeSort_perm spans spanPrecedes
  have hsorted := List.pairwise_mergeSort spanPrecedes_trans spanPrecedes_total spans
  have happart : (spans.mergeSort spanPrecedes).Pairwise Apart :=
    hperm.symm.pairwise h fun hab => hab.symm
  refine (hsorted.and happart).imp_of_mem ?_
  rintro a b ha hb ⟨hle, hab⟩
  have ha := hforward a (hperm.mem_iff.mp ha)
  have hb := hforward b (hperm.mem_iff.mp hb)
  rw [spanPrecedes_iff] at hle
  rcases hab with hab | hab <;> omega

/-- A text can be copied around stretches that follow each other. -/
theorem exists_copyAround? {start stop : Nat} {cuts : List (Nat × Nat)} (hforward : start ≤ stop)
    (hstart : source.isBoundary start = true) (hstop : source.isBoundary stop = true)
    (hwithin : ∀ cut ∈ cuts, Within source start stop cut)
    (hordered : cuts.Pairwise fun a b => a.2 ≤ b.1) :
    ∃ t, copyAround? source start stop cuts = some t := by
  induction cuts generalizing start with
  | nil =>
    rw [copyAround?]
    exact Option.isSome_iff_exists.mp (Text.isSome_slice?_iff.mpr ⟨hforward, hstart, hstop⟩)
  | cons cut cuts ih =>
    obtain ⟨hafter, hordered⟩ := List.pairwise_cons.mp hordered
    have hcut := hwithin cut (by simp)
    obtain ⟨kept, hkept⟩ := Option.isSome_iff_exists.mp
      (Text.isSome_slice?_iff.mpr ⟨hcut.start_le, hstart, hcut.start_boundary⟩)
    have hrest : ∀ c ∈ cuts, Within source cut.2 stop c := fun c hc =>
      { hwithin c (by simp [hc]) with start_le := hafter c hc }
    obtain ⟨rest, hrest⟩ := ih hcut.le_stop hcut.stop_boundary hrest hordered
    exact ⟨kept ++ rest, by simp [copyAround?, hkept, hrest]⟩

theorem Sound.withoutDefaults {n : Node} (h : n.Sound source) :
    ∃ t, n.withoutDefaults? source = some t := by
  have hl := h.label_sound
  have hspread := spread_defaultSpans h
  refine exists_copyAround? hl.start_le hl.start_boundary hl.stop_boundary ?_ ?_
  · intro s hs
    exact hspread.within s (List.mem_mergeSort.mp hs)
  · exact pairwise_sorted_spans (fun s hs => (hspread.within s hs).forward) hspread.apart

mutual

theorem Sound.binding : ∀ {n : Node}, n.Sound source → n.binding.Sound source
  | .node l cs, h => by
    have hamong (p : Node → Bool) : ∀ m, bindingAmong? p cs = some m → m.Sound source :=
      fun m hm => sound_of_bindingAmong? (fun c hc => h.of_mem hc) hm
    rw [Node.binding]
    cases l.kind
    case assignmentPattern =>
      cases hm : bindingAmong? (·.field == some Field.left) cs with
      | none => exact h
      | some m => exact hamong _ m hm
    case requiredParameter | optionalParameter =>
      cases hm : bindingAmong? (·.field == some Field.pattern) cs with
      | none =>
        cases hm : bindingAmong? (·.kind == Kind.identifier) cs with
        | none => exact h
        | some m => exact hamong _ m hm
      | some m => exact hamong _ m hm
    all_goals exact h

theorem sound_of_bindingAmong? {p : Node → Bool} {m : Node} : ∀ {cs : List Node},
    (∀ c ∈ cs, c.Sound source) → bindingAmong? p cs = some m → m.Sound source
  | [], _, hm => by simp [bindingAmong?] at hm
  | c :: cs, hcs, hm => by
    rw [bindingAmong?] at hm
    split at hm
    · cases hm
      exact (hcs c (by simp)).binding
    · exact sound_of_bindingAmong? (fun d hd => hcs d (by simp [hd])) hm

end

end Node

namespace Echo
variable {source : Text}

theorem exists_ofBinding? {n : Node} (h : n.Sound source) :
    ∃ e, ofBinding? source n = some e := by
  obtain ⟨text, htext⟩ := h.text
  obtain ⟨value, hvalue⟩ := h.withoutDefaults
  exact ⟨_, by simp only [ofBinding?, htext, hvalue, Option.bind_eq_bind, Option.bind_some]; rfl⟩

theorem sound_of_keyValue? {target : Place} {key value : Node} (h : target.Sound source)
    (hkv : keyValue? target = some (key, value)) : key.Sound source ∧ value.Sound source := by
  simp only [keyValue?, Option.bind_eq_bind, Option.bind_eq_some_iff] at hkv
  obtain ⟨parent, hparent, hkv⟩ := hkv
  split at hkv
  · cases hkv
  · obtain ⟨k, hk, hkv⟩ := Option.bind_eq_some_iff.mp hkv
    obtain ⟨v, hv, hkv⟩ := Option.bind_eq_some_iff.mp hkv
    split at hkv
    · cases hkv
    · cases hkv
      have hparent := (h.parent hparent).node
      exact ⟨hparent.of_mem (List.mem_of_find?_eq_some hk),
        hparent.of_mem (List.mem_of_find?_eq_some hv)⟩

/-- A sound target has an echo. -/
theorem exists_ofTarget? {target : Place} (h : target.Sound source) :
    ∃ e, ofTarget? source target = some e := by
  rw [ofTarget?]
  cases hname : functionName? target with
  | some name =>
    have hmem : name ∈ target.node.children := by
      rw [functionName?] at hname
      split at hname
      · exact List.mem_of_find?_eq_some hname
      · cases hname
    obtain ⟨text, htext⟩ := (h.node.of_mem hmem).text
    simp [htext]
  | none =>
    cases hkv : keyValue? target with
    | some kv =>
      obtain ⟨hkey, hvalue⟩ := sound_of_keyValue? h hkv
      obtain ⟨caption, hcaption⟩ := hkey.text
      obtain ⟨value, hvalue⟩ := hvalue.text
      simp [hcaption, hvalue]
    | none =>
      have hhead : (target.node.children.head?.getD target.node).Sound source := by
        cases hchildren : target.node.children.head? with
        | none => exact h.node
        | some c => exact h.node.of_mem (List.mem_of_mem_head? hchildren)
      obtain ⟨own, hown⟩ := h.node.text
      obtain ⟨first, hfirst⟩ := hhead.text
      simp only
      split
      · simp [hfirst]
      · split
        · exact exists_ofBinding? h.node
        · split
          · exact exists_ofBinding? h.node.binding
          · simp [Place.text?, hown]

end Echo
end LogProbe
