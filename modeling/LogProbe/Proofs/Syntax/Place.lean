import LogProbe.Edit.Selection
import LogProbe.Log.Target
import LogProbe.Proofs.Syntax.Spans

/-! The places of a tree. With a place of a tree the place of its parent and those of its children
are places of it too. Whatever is reached by going up and down alone stays within such a set, and so
within the places whose nodes are all sound. -/
namespace LogProbe
namespace Place

mutual

theorem parent_mem_preorder {above : List Node} {p q : Place} (hq : p.parent? = some q) :
    ∀ {n : Node}, p ∈ preorder above n → p = ⟨n, above⟩ ∨ q ∈ preorder above n
  | .node l cs, hp => by
    rw [preorder, List.mem_cons] at hp
    rcases hp with rfl | hp
    · exact .inl rfl
    · refine .inr ?_
      rw [preorder, List.mem_cons]
      exact parent_mem_preorderAll hq hp

theorem parent_mem_preorderAll {parent : Node} {above : List Node} {p q : Place}
    (hq : p.parent? = some q) : ∀ {cs : List Node}, p ∈ preorderAll (parent :: above) cs →
      q = ⟨parent, above⟩ ∨ q ∈ preorderAll (parent :: above) cs
  | [], hp => by simp [preorderAll] at hp
  | c :: cs, hp => by
    rw [preorderAll, List.mem_append] at hp ⊢
    rcases hp with hp | hp
    · rcases parent_mem_preorder hq hp with rfl | hmem
      · exact .inl (Option.some.inj hq).symm
      · exact .inr (.inl hmem)
    · rcases parent_mem_preorderAll hq hp with rfl | hmem
      · exact .inl rfl
      · exact .inr (.inr hmem)

end

theorem self_mem_preorder (above : List Node) (n : Node) : ⟨n, above⟩ ∈ preorder above n := by
  cases n
  simp [preorder]

theorem preorderAll_subset_preorder {above : List Node} {n : Node} :
    preorderAll (n :: above) n.children ⊆ preorder above n := by
  cases n
  rw [preorder]
  exact List.subset_cons_self _ _

theorem mem_preorderAll_iff {above cs : List Node} {p : Place} :
    p ∈ preorderAll above cs ↔ ∃ c ∈ cs, p ∈ preorder above c := by
  induction cs with
  | nil => simp [preorderAll]
  | cons d cs ih => simp [preorderAll, ih]

theorem mem_preorderAll_of_mem {above : List Node} {cs : List Node} {c : Node} (hc : c ∈ cs) :
    ⟨c, above⟩ ∈ preorderAll above cs :=
  mem_preorderAll_iff.mpr ⟨c, hc, self_mem_preorder above c⟩

mutual

theorem below_mem_preorder {above : List Node} {p : Place} {c : Node}
    (hc : c ∈ p.node.children) :
    ∀ {n : Node}, p ∈ preorder above n → p.below c ∈ preorder above n
  | .node l cs, hp => by
    rw [preorder, List.mem_cons] at hp ⊢
    rcases hp with rfl | hp
    · exact .inr (mem_preorderAll_of_mem hc)
    · exact .inr (below_mem_preorderAll hc hp)

theorem below_mem_preorderAll {above : List Node} {p : Place} {c : Node}
    (hc : c ∈ p.node.children) :
    ∀ {cs : List Node}, p ∈ preorderAll above cs → p.below c ∈ preorderAll above cs
  | [], hp => by simp [preorderAll] at hp
  | d :: cs, hp => by
    rw [preorderAll, List.mem_append] at hp ⊢
    rcases hp with hp | hp
    · exact .inl (below_mem_preorder hc hp)
    · exact .inr (below_mem_preorderAll hc hp)

end

mutual

/-- What goes from every place down to its children holds of all places below. -/
theorem forall_mem_preorder {S : Place → Prop}
    (hdown : ∀ {p : Place} {c : Node}, S p → c ∈ p.node.children → S (p.below c)) {p : Place}
    {above : List Node} : ∀ {n : Node}, S ⟨n, above⟩ → p ∈ preorder above n → S p
  | .node l cs, h, hp => by
    rw [preorder, List.mem_cons] at hp
    rcases hp with rfl | hp
    · exact h
    · exact forall_mem_preorderAll hdown (fun c hc => hdown h hc) hp

theorem forall_mem_preorderAll {S : Place → Prop}
    (hdown : ∀ {p : Place} {c : Node}, S p → c ∈ p.node.children → S (p.below c)) {p : Place}
    {above : List Node} :
    ∀ {cs : List Node}, (∀ c ∈ cs, S ⟨c, above⟩) → p ∈ preorderAll above cs → S p
  | [], _, hp => by simp [preorderAll] at hp
  | c :: cs, hcs, hp => by
    rw [preorderAll, List.mem_append] at hp
    rcases hp with hp | hp
    · exact forall_mem_preorder hdown (hcs c (by simp)) hp
    · exact forall_mem_preorderAll hdown (fun d hd => hcs d (by simp [hd])) hp

end

/-- What is above a node stays above the nodes below it. -/
theorem suffix_of_mem_preorderAll {above cs : List Node} {p : Place}
    (hp : p ∈ preorderAll above cs) : above <:+ p.above :=
  forall_mem_preorderAll (S := fun p => above <:+ p.above)
    (fun hS _ => hS.trans (List.suffix_cons _ _)) (fun _ _ => List.suffix_refl _) hp

theorem of_child? {p q : Place} {field : Field} (h : p.child? field = some q) :
    q.field = some field ∧ q.parent? = some p := by
  obtain ⟨c, hc, rfl⟩ := Option.map_eq_some_iff.mp h
  have hfield := List.find?_some hc
  exact ⟨beq_iff_eq.mp hfield, rfl⟩

/-- A set of places that holds with a place its parent and its children. -/
structure Closed (S : Place → Prop) : Prop where
  parent : ∀ {p q : Place}, S p → p.parent? = some q → S q
  below : ∀ {p : Place} {c : Node}, S p → c ∈ p.node.children → S (p.below c)

section Closed
variable {S : Place → Prop} (hS : Closed S)
include hS

theorem Closed.of_mem_children {p q : Place} (h : S p) (hq : q ∈ p.children) : S q := by
  obtain ⟨c, hc, rfl⟩ := List.mem_map.mp hq
  exact hS.below h hc

theorem Closed.child {p q : Place} {field : Field} (h : S p) (hq : p.child? field = some q) :
    S q := by
  obtain ⟨c, hc, rfl⟩ := Option.map_eq_some_iff.mp hq
  exact hS.below h (List.mem_of_find?_eq_some hc)

theorem Closed.parameterOwner {p q : Place} (h : S p) (hq : p.parameterOwner? = some q) :
    S q := by
  rw [parameterOwner?] at hq
  cases hparent : p.parent? with
  | none =>
    rw [hparent] at hq
    cases hq
  | some parent =>
    have hup := hS.parent h hparent
    simp only [hparent, Option.bind_eq_bind, Option.bind_some] at hq
    split at hq
    · obtain ⟨owner, howner, hq⟩ := Option.bind_eq_some_iff.mp hq
      split at hq
      · cases hq
        exact hS.parent hup howner
      · cases hq
    · split at hq
      · cases hq
        exact hup
      · cases hq

end Closed

mutual

theorem Closed.innermost? {S : Place → Prop} (hS : Closed S) {start stop : Nat}
    {above : List Node} {p : Place} :
    ∀ {n : Node}, S ⟨n, above⟩ → n.innermost? start stop above = some p → S p
  | .node l cs, h, hp => by
    rw [Node.innermost?] at hp
    exact hS.innermostAmong? (fun c hc => hS.below h hc) hp

theorem Closed.innermostAmong? {S : Place → Prop} (hS : Closed S) {start stop : Nat}
    {above : List Node} {p : Place} :
    ∀ {cs : List Node}, (∀ c ∈ cs, S ⟨c, above⟩) →
      Node.innermostAmong? start stop above cs = some p → S p
  | [], _, hp => by simp [Node.innermostAmong?] at hp
  | c :: cs, hcs, hp => by
    have hc := hcs c (by simp)
    rw [Node.innermostAmong?] at hp
    split at hp
    · cases hin : c.innermost? start stop above with
      | some q =>
        rw [hin] at hp
        cases hp
        exact hS.innermost? hc hin
      | none =>
        rw [hin] at hp
        cases hp
        exact hc
    · exact hS.innermostAmong? (fun d hd => hcs d (by simp [hd])) hp

end

/-- The node of a place and all nodes above it are sound. -/
structure Sound (source : Text) (p : Place) : Prop where
  node : p.node.Sound source
  above : ∀ n ∈ p.above, n.Sound source

theorem Sound.label {source : Text} {p : Place} (h : p.Sound source) : p.label.Sound source :=
  h.node.label_sound

theorem Sound.parent {source : Text} {p q : Place} (h : p.Sound source)
    (hq : p.parent? = some q) : q.Sound source := by
  obtain ⟨n, above⟩ := p
  cases above with
  | nil => cases hq
  | cons parent above =>
    cases hq
    exact ⟨h.above parent (by simp), fun n hn => h.above n (by simp_all)⟩

theorem closed_sound (source : Text) : Closed (Sound source) where
  parent := Sound.parent
  below {p c} h hc := by
    refine ⟨h.node.of_mem hc, fun n hn => ?_⟩
    rcases List.mem_cons.mp hn with rfl | hn
    · exact h.node
    · exact h.above n hn

end Place

namespace Tree

theorem closed_places (tree : Tree) : Place.Closed (· ∈ tree.places) where
  parent {p q} hp hq := by
    rcases Place.parent_mem_preorder hq hp with rfl | hmem
    · cases hq
    · exact hmem
  below hp hc := Place.below_mem_preorder hc hp

/-- The places of a tree are reached from the root by going down. -/
theorem forall_mem_places {S : Place → Prop} {tree : Tree}
    (hdown : ∀ {p : Place} {c : Node}, S p → c ∈ p.node.children → S (p.below c))
    (hroot : S tree.rootPlace) {p : Place} (hp : p ∈ tree.places) : S p :=
  Place.forall_mem_preorder hdown hroot hp

/-- With a place of a tree all that is below it belongs to the tree. -/
theorem preorder_subset_places {tree : Tree} {p : Place} (hp : p ∈ tree.places) :
    Place.preorder p.above p.node ⊆ tree.places := by
  refine forall_mem_places (S := fun p => Place.preorder p.above p.node ⊆ tree.places)
    (fun {p c} hS hc q hq => hS ?_) (List.Subset.refl _) hp
  exact Place.preorderAll_subset_preorder (Place.mem_preorderAll_iff.mpr ⟨c, hc, hq⟩)

theorem rootPlace_mem_places (tree : Tree) : tree.rootPlace ∈ tree.places :=
  Place.self_mem_preorder [] tree.root

/-- Where a selection stands: the innermost place around it, or the root. -/
def siteOf (tree : Tree) (s : Selection) : Place :=
  (tree.locate? s.start s.stop).getD tree.rootPlace

theorem closed_siteOf {S : Place → Prop} (hS : Place.Closed S) {tree : Tree}
    (h : S tree.rootPlace) (s : Selection) : S (tree.siteOf s) := by
  rw [siteOf]
  cases hp : tree.locate? s.start s.stop with
  | none => exact h
  | some p => exact hS.innermost? h hp

theorem siteOf_mem_places (tree : Tree) (s : Selection) : tree.siteOf s ∈ tree.places :=
  closed_siteOf tree.closed_places tree.rootPlace_mem_places s

theorem sound_of_mem_places {tree : Tree} (h : tree.root.Sound tree.source) {p : Place}
    (hp : p ∈ tree.places) : p.Sound tree.source :=
  forall_mem_places (Place.closed_sound tree.source).below ⟨h, by simp [rootPlace]⟩ hp

/-- The offsets of all places are sound. -/
def LabelsSound (tree : Tree) : Prop := ∀ p ∈ tree.places, p.label.Sound tree.source

theorem labelsSound_of_sound {tree : Tree} (h : tree.root.Sound tree.source) : tree.LabelsSound :=
  fun _ hp => (sound_of_mem_places h hp).label

end Tree
end LogProbe
