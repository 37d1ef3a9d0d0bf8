import Mathlib.Data.Finset.Card
import Mathlib.Data.Finset.Dedup
import Mathlib.Data.Finset.Image
import Transducer.Proofs.Automaton.WellFormed
import Transducer.Proofs.Weight.Sum
/-!
The arcs of a state as a set. The groups of a state refine a set of arcs in which the two zeros are
one weight: adding inserts an arc, removing filters by the target and renaming maps the labels, and
the listings of a state hold every arc of the set once.
-/

namespace Transducer

namespace Weight

variable {w v : Weight}

/-- What a weight counts for: the two zeros count the same. -/
def amount (w : Weight) : Weight := if w.isZero then .zero else w

@[simp] theorem isNaN_amount (w : Weight) : w.amount.isNaN = w.isNaN := by
  rw [amount]
  split
  · next zero => rw [isNaN_of_isZero zero]; decide
  · rfl

theorem amount_eq_of_numEq (h : w.numEq v = true) : w.amount = v.amount := by
  simp only [numEq, Bool.and_eq_true, Bool.or_eq_true, decide_eq_true_eq] at h
  rcases h.2 with rfl | zeros
  · rfl
  · rw [amount, if_pos zeros.1, amount, if_pos zeros.2]

/-- Numbers count for the same if and only if they are equal. -/
theorem numEq_iff (h : w.isNaN = false) : w.numEq v = true ↔ w.amount = v.amount := by
  refine ⟨amount_eq_of_numEq, fun same => ?_⟩
  have zero : Weight.zero.isZero = true := by decide
  simp only [numEq, h, Bool.not_false, Bool.true_and, Bool.or_eq_true, Bool.and_eq_true,
    decide_eq_true_eq]
  simp only [amount] at same
  split at same
  · next left =>
    split at same
    · next right => exact .inr ⟨left, right⟩
    · exact .inr ⟨left, same ▸ zero⟩
  · split at same
    · next right => exact .inr ⟨same ▸ zero, right⟩
    · exact .inl same

end Weight

namespace Arc

variable {a b : Arc} {old new : Label}

/-- The arc as an element of a set. -/
def plain (a : Arc) : Arc := { a with weight := a.weight.amount }

/-- The arc under the new label if it has the old one. -/
def renamed (old new : Label) (a : Arc) : Arc :=
  if a.label = old then { a with label := new } else a

theorem lighter_iff : a.lighter b = true ↔ a.weight.rank ≤ b.weight.rank := by
  rw [lighter, bne_iff_ne, ← Int.compare_ne_gt]
  rfl

theorem lighter_trans (a b c : Arc) (first : a.lighter b = true) (second : b.lighter c = true) :
    a.lighter c = true :=
  lighter_iff.mpr (Int.le_trans (lighter_iff.mp first) (lighter_iff.mp second))

theorem lighter_total (a b : Arc) : (a.lighter b || b.lighter a) = true := by
  rw [Bool.or_eq_true, lighter_iff, lighter_iff]
  exact Int.le_total ..

theorem plain_eq_of_sameAs (label : a.label = b.label) (h : a.sameAs b = true) :
    a.plain = b.plain := by
  simp only [sameAs, Bool.and_eq_true, decide_eq_true_eq] at h
  rw [plain, plain, label, h.1, Weight.amount_eq_of_numEq h.2]

/-- Arcs that are numbers are one element if and only if one would not be added behind the other. -/
theorem plain_eq_iff (numeric : a.weight.isNaN = false) :
    a.plain = b.plain ↔ a.label = b.label ∧ a.sameAs b = true := by
  simp only [plain, mk.injEq, sameAs, Bool.and_eq_true, decide_eq_true_eq,
    Weight.numEq_iff numeric]
  tauto

theorem plain_renamed (old new : Label) (a : Arc) :
    (a.renamed old new).plain = a.plain.renamed old new := by
  have label : a.plain.label = a.label := rfl
  rw [renamed, renamed, label]
  split <;> rfl

theorem weight_renamed (old new : Label) (a : Arc) : (a.renamed old new).weight = a.weight := by
  rw [renamed]
  split <;> rfl

end Arc

namespace State

variable {s : State} {arc other : Arc} {moved : List Arc} {old new l : Label}
  {set : Finset Arc} {count : Nat}

/-- Some arc of the state counts as this one. -/
def Has (s : State) (arc : Arc) : Prop := ∃ other ∈ s.arcs, other.plain = arc

theorem has_addArc_iff (h : s.Labelled) : (s.addArc arc).Has other ↔
    other = arc.plain ∨ s.Has other := by
  constructor
  · intro ⟨found, mem, same⟩
    rcases mem_addArc mem with rfl | before
    · exact .inl same.symm
    · exact .inr ⟨found, before, same⟩
  · intro either
    rcases either with rfl | ⟨found, mem, same⟩
    · obtain ⟨found, mem, rfl | ⟨label, same⟩⟩ := exists_mem_addArc h arc
      · exact ⟨_, mem, rfl⟩
      · exact ⟨found, mem, Arc.plain_eq_of_sameAs label same⟩
    · exact ⟨found, mem_addArc_of_mem mem arc, same⟩

theorem has_addArcs_iff (h : s.Labelled) (arcs : List Arc) : (s.addArcs arcs).Has other ↔
    (∃ arc ∈ arcs, arc.plain = other) ∨ s.Has other := by
  induction arcs generalizing s with
  | nil => simp [addArcs]
  | cons arc rest ih =>
    rw [addArcs, List.foldl_cons]
    refine (ih (h.addArc arc)).trans ?_
    rw [has_addArc_iff h, List.exists_mem_cons_iff, eq_comm (a := other)]
    exact or_left_comm.trans or_assoc.symm

/-- A group that is left without arcs had nothing to list. -/
theorem arcs_removeArcsTo (s : State) (targets : List StateId) :
    (s.removeArcsTo targets).arcs = s.arcs.filter fun a => !targets.contains a.target := by
  rw [removeArcsTo, arcs, arcs]
  dsimp only
  induction s.groups with
  | nil => rfl
  | cons g rest ih =>
    obtain ⟨l, group⟩ := g
    rw [List.map_cons, List.flatMap_cons, List.filter_append, ← ih]
    cases kept : group.filter fun a => !targets.contains a.target with
    | nil => rfl
    | cons arc more => rfl

/-- Arcs of one label are added in one go. -/
theorem addArcs_of_label (s : State) (some : moved ≠ []) (labelled : ∀ arc ∈ moved, arc.label = l) :
    s.addArcs moved = { s with
      groups := Ordered.alter l (fun found => moved.foldl Arc.join (found.getD [])) s.groups } := by
  induction moved generalizing s with
  | nil => exact absurd rfl some
  | cons arc rest ih =>
    obtain ⟨rfl, later⟩ := List.forall_mem_cons.mp labelled
    rw [addArcs, List.foldl_cons]
    cases rest with
    | nil => rfl
    | cons next rest =>
      refine (ih (s.addArc arc) (List.cons_ne_nil _ _) later).trans ?_
      rw [addArc, Ordered.alter_alter]
      rfl

/-- The arcs without those of one label. -/
def without (s : State) (l : Label) : State := { s with groups := s.groups.filter (·.1 ≠ l) }

theorem mem_arcs_without (h : s.Labelled) : arc ∈ (s.without l).arcs ↔
    arc ∈ s.arcs ∧ arc.label ≠ l := by
  simp only [mem_arcs, without, List.mem_filter, decide_eq_true_eq]
  constructor
  · intro ⟨g, ⟨there, apart⟩, mem⟩
    exact ⟨⟨g, there, mem⟩, h g there arc mem ▸ apart⟩
  · intro ⟨⟨g, there, mem⟩, apart⟩
    exact ⟨g, ⟨there, h g there arc mem ▸ apart⟩, mem⟩

theorem WellFormed.mem_of_lookup (h : s.WellFormed count) (found : s.groups.lookup l = some moved) :
    arc ∈ moved ↔ arc ∈ s.arcs ∧ arc.label = l := by
  have there := h.order.lookup_eq_some_iff.mp found
  constructor
  · intro mem
    exact ⟨mem_arcs.mpr ⟨_, there, mem⟩, (h.groups _ there).labelled arc mem⟩
  · intro ⟨mem, label⟩
    obtain ⟨⟨key, group⟩, here, mem⟩ := mem_arcs.mp mem
    obtain rfl : arc.label = key := (h.groups _ here).labelled arc mem
    subst label
    have same := h.order.lookup_eq_some_iff.mpr here
    rw [found] at same
    exact Option.some.inj same ▸ mem

theorem renameLabel_of_lookup (old new : Label) (found : s.groups.lookup old = some moved)
    (some : moved ≠ []) : s.renameLabel old new =
      (s.without old).addArcs (moved.map fun a => { a with label := new }) := by
  have labelled : ∀ arc ∈ moved.map fun a => { a with label := new }, arc.label = new := by
    simp
  rw [State.renameLabel, found, addArcs_of_label _ (mt List.map_eq_nil_iff.mp some) labelled]
  simp only [List.foldl_map]
  rfl

/-- Renaming changes every arc of the old label and no other. -/
theorem WellFormed.has_renameLabel_iff (h : s.WellFormed count) :
    (s.renameLabel old new).Has other ↔ ∃ arc ∈ s.arcs, (arc.renamed old new).plain = other := by
  cases found : s.groups.lookup old with
  | none =>
    -- no arc has the old label, so nothing moves
    have same : ∀ arc ∈ s.arcs, arc.renamed old new = arc := by
      intro arc mem
      refine if_neg fun label => ?_
      obtain ⟨g, there, mem⟩ := mem_arcs.mp mem
      have key : g.1 = old := ((h.groups g there).labelled arc mem).symm.trans label
      have none := List.lookup_eq_none_iff.mp found g there
      simp [key] at none
    have stays : s.renameLabel old new = s := by rw [State.renameLabel, found]
    rw [stays, Has]
    exact exists_congr fun arc => and_congr_right fun mem => by rw [same arc mem]
  | some moved =>
    have there := h.order.lookup_eq_some_iff.mp found
    have rest : (s.without old).Labelled := fun g mem =>
      h.labelled g (List.mem_filter.mp mem).1
    rw [renameLabel_of_lookup old new found (h.groups _ there).filled, has_addArcs_iff rest]
    constructor
    · rintro (⟨image, mem, same⟩ | ⟨arc, mem, same⟩)
      · obtain ⟨arc, before, rfl⟩ := List.mem_map.mp mem
        obtain ⟨mem, label⟩ := (h.mem_of_lookup found).mp before
        exact ⟨arc, mem, by rw [Arc.renamed, if_pos label, same]⟩
      · obtain ⟨mem, apart⟩ := (mem_arcs_without h.labelled).mp mem
        exact ⟨arc, mem, by rw [Arc.renamed, if_neg apart, same]⟩
    · rintro ⟨arc, mem, same⟩
      rw [Arc.renamed] at same
      split at same
      · next label =>
        have mem := (h.mem_of_lookup found).mpr ⟨mem, label⟩
        exact .inl ⟨_, List.mem_map_of_mem mem, same⟩
      · next apart => exact .inr ⟨arc, (mem_arcs_without h.labelled).mpr ⟨mem, apart⟩, same⟩

/-- A change to the arcs of a state. -/
inductive ArcEdit where
  | add (arc : Arc)
  | removeTo (targets : List StateId)
  | rename (old new : Label)
  deriving DecidableEq, Repr

namespace ArcEdit

def run (s : State) : ArcEdit → State
  | add arc => s.addArc arc
  | removeTo targets => s.removeArcsTo targets
  | rename old new => s.renameLabel old new

/-- What a change means for a set of arcs. -/
def onSet (set : Finset Arc) : ArcEdit → Finset Arc
  | add arc => insert arc.plain set
  | removeTo targets => set.filter fun arc => arc.target ∉ targets
  | rename old new => set.image (Arc.renamed old new)

/-- No weight is added that is not a number. -/
def Numeric : ArcEdit → Prop
  | add arc => arc.weight.isNaN = false
  | removeTo _ => True
  | rename _ _ => True

end ArcEdit

/-- The groups of a state hold the arcs of a set. -/
structure Holds (s : State) (set : Finset Arc) : Prop where
  formed : ∃ count, s.WellFormed count
  numeric : ∀ arc ∈ s.arcs, arc.weight.isNaN = false
  mem : ∀ arc, s.Has arc ↔ arc ∈ set

theorem holds_blank (name : Option String) : Holds { name } ∅ where
  formed := ⟨0, wellFormed_blank 0 name⟩
  numeric _ none := absurd none List.not_mem_nil
  mem arc := by simp [Has, arcs]

theorem Holds.addArc (h : s.Holds set) (numeric : arc.weight.isNaN = false) :
    (s.addArc arc).Holds (insert arc.plain set) where
  formed := by
    obtain ⟨count, formed⟩ := h.formed
    have room := formed.mono (Nat.le_max_left count (arc.target + 1))
    exact ⟨_, room.addArc (Nat.lt_of_lt_of_le (Nat.lt_succ_self _) (Nat.le_max_right ..))⟩
  numeric other mem := by
    rcases mem_addArc mem with rfl | before
    · exact numeric
    · exact h.numeric other before
  mem other := by
    obtain ⟨count, formed⟩ := h.formed
    rw [has_addArc_iff formed.labelled, h.mem, Finset.mem_insert]

theorem Holds.removeArcsTo (h : s.Holds set) (targets : List StateId) :
    (s.removeArcsTo targets).Holds (set.filter fun arc => arc.target ∉ targets) where
  formed := by
    obtain ⟨count, formed⟩ := h.formed
    exact ⟨count, formed.removeArcsTo targets⟩
  numeric arc mem := by
    rw [arcs_removeArcsTo] at mem
    exact h.numeric arc (List.mem_filter.mp mem).1
  mem other := by
    rw [Finset.mem_filter, ← h.mem, Has, Has, arcs_removeArcsTo]
    simp only [List.mem_filter, Bool.not_eq_true', List.contains_eq_mem, decide_eq_false_iff_not]
    constructor
    · rintro ⟨arc, ⟨mem, outside⟩, rfl⟩
      exact ⟨⟨arc, mem, rfl⟩, outside⟩
    · rintro ⟨⟨arc, mem, rfl⟩, outside⟩
      exact ⟨arc, ⟨mem, outside⟩, rfl⟩

theorem Holds.renameLabel (h : s.Holds set) (old new : Label) :
    (s.renameLabel old new).Holds (set.image (Arc.renamed old new)) := by
  obtain ⟨count, formed⟩ := h.formed
  refine ⟨⟨count, formed.renameLabel old new⟩, fun arc mem => ?_, fun other => ?_⟩
  · obtain ⟨before, mem, same⟩ := formed.has_renameLabel_iff.mp ⟨arc, mem, rfl⟩
    have weight : (before.renamed old new).weight.amount = arc.weight.amount :=
      congrArg Arc.weight same
    rw [Arc.weight_renamed] at weight
    rw [← Weight.isNaN_amount, ← weight, Weight.isNaN_amount]
    exact h.numeric before mem
  · rw [formed.has_renameLabel_iff, Finset.mem_image]
    constructor
    · rintro ⟨arc, mem, rfl⟩
      exact ⟨arc.plain, (h.mem _).mp ⟨arc, mem, rfl⟩, (Arc.plain_renamed old new arc).symm⟩
    · rintro ⟨element, mem, rfl⟩
      obtain ⟨arc, there, rfl⟩ := (h.mem element).mpr mem
      exact ⟨arc, there, Arc.plain_renamed old new arc⟩

theorem Holds.run (h : s.Holds set) {e : ArcEdit} (numeric : e.Numeric) :
    (e.run s).Holds (e.onSet set) := by
  cases e with
  | add arc => exact h.addArc numeric
  | removeTo targets => exact h.removeArcsTo targets
  | rename old new => exact h.renameLabel old new

theorem Holds.runAll (h : s.Holds set) {edits : List ArcEdit} (numeric : ∀ e ∈ edits, e.Numeric) :
    (edits.foldl ArcEdit.run s).Holds (edits.foldl ArcEdit.onSet set) := by
  induction edits generalizing s set with
  | nil => exact h
  | cons e rest ih =>
    obtain ⟨here, later⟩ := List.forall_mem_cons.mp numeric
    exact ih (h.run here) later

/-- The listings of a state are those of a set: each of its arcs stands there once, by label and by
label and weight, and a label is in use just when an arc has it. -/
structure Lists (s : State) (set : Finset Arc) : Prop where
  once : (s.arcs.map Arc.plain).Nodup
  mem : ∀ arc, arc ∈ s.arcs.map Arc.plain ↔ arc ∈ set
  byLabel : s.arcs.Pairwise fun a b => compare a.label b.label = .lt ∨ a.label = b.label
  sorted : s.sortedArcs.Perm s.arcs
  byWeight : s.sortedArcs.Pairwise fun a b =>
    compare a.label b.label = .lt ∨ a.label = b.label ∧ a.weight.rank ≤ b.weight.rank
  outDegree : s.outDegree = set.card
  labels : ∀ l, l ∈ s.groups.map Prod.fst ↔ ∃ arc ∈ set, arc.label = l

/-- Lists that go through the groups are ordered by label, and then as each group is listed. -/
theorem WellFormed.pairwise_flatMap (h : s.WellFormed count) {r : Arc → Arc → Prop}
    {f : Label × List Arc → List Arc} (sub : ∀ g ∈ s.groups, f g ⊆ g.2)
    (within : ∀ g ∈ s.groups, (f g).Pairwise r)
    (across : ∀ a b, compare a.label b.label = .lt → r a b) : (s.groups.flatMap f).Pairwise r := by
  refine List.pairwise_flatMap.mpr ⟨within, (List.pairwise_map.mp h.order).imp_of_mem ?_⟩
  intro g g' hg hg' less a ha b hb
  apply across
  rwa [(h.groups g hg).labelled a (sub g hg ha), (h.groups g' hg').labelled b (sub g' hg' hb)]

theorem WellFormed.nodup_plain (h : s.WellFormed count)
    (numeric : ∀ arc ∈ s.arcs, arc.weight.isNaN = false) : (s.arcs.map Arc.plain).Nodup := by
  refine List.pairwise_map.mpr (h.pairwise_flatMap (fun g _ => List.Subset.refl g.2) ?_ ?_)
  · intro g hg
    refine (h.groups g hg).distinct.imp_of_mem fun {a b} ha _ apart same => ?_
    have number := numeric a (mem_arcs.mpr ⟨g, hg, ha⟩)
    rw [((Arc.plain_eq_iff number).mp same).2] at apart
    exact absurd apart (by decide)
  · intro a b less same
    obtain ⟨label, -⟩ := (Arc.mk.injEq ..).mp same |>.2
    exact Ordered.ne_of_compare (by rw [less]; decide) label

theorem sortedArcs_perm (s : State) : s.sortedArcs.Perm s.arcs :=
  List.Perm.flatMap_left _ fun _ _ => List.mergeSort_perm ..

/-- Sorted arcs are ordered by label and, under one label, by weight. -/
theorem WellFormed.pairwise_sortedArcs (h : s.WellFormed count) :
    s.sortedArcs.Pairwise fun a b =>
      compare a.label b.label = .lt ∨ a.label = b.label ∧ a.weight.rank ≤ b.weight.rank := by
  refine h.pairwise_flatMap (fun g _ => (List.mergeSort_perm ..).subset) (fun g hg => ?_)
    fun a b less => .inl less
  have labelled := (h.groups g hg).labelled
  refine List.Pairwise.imp_of_mem ?_
    (List.pairwise_mergeSort Arc.lighter_trans Arc.lighter_total g.2)
  intro a b ha hb lighter
  have ha := (List.mergeSort_perm ..).subset ha
  have hb := (List.mergeSort_perm ..).subset hb
  exact .inr ⟨(labelled a ha).trans (labelled b hb).symm, Arc.lighter_iff.mp lighter⟩

theorem Holds.lists (h : s.Holds set) : s.Lists set := by
  obtain ⟨count, formed⟩ := h.formed
  have once := formed.nodup_plain h.numeric
  have mem : ∀ arc, arc ∈ s.arcs.map Arc.plain ↔ arc ∈ set := fun arc =>
    List.mem_map.trans (h.mem arc)
  refine ⟨once, mem, ?_, s.sortedArcs_perm, formed.pairwise_sortedArcs, ?_, fun l => ?_⟩
  · refine formed.pairwise_flatMap (fun g _ => List.Subset.refl g.2) (fun g hg => ?_)
      fun a b less => .inl less
    have labelled := (formed.groups g hg).labelled
    exact List.pairwise_of_forall_mem_list fun a ha b hb =>
      .inr ((labelled a ha).trans (labelled b hb).symm)
  · have same : (s.arcs.map Arc.plain).toFinset = set := by
      ext arc
      rw [List.mem_toFinset, mem]
    rw [← same, List.toFinset_card_of_nodup once, List.length_map]
    rfl
  · rw [List.mem_map]
    constructor
    · rintro ⟨g, hg, rfl⟩
      obtain ⟨arc, there⟩ := List.exists_mem_of_ne_nil _ (formed.groups g hg).filled
      exact ⟨arc.plain, (h.mem _).mp ⟨arc, mem_arcs.mpr ⟨g, hg, there⟩, rfl⟩,
        (formed.groups g hg).labelled arc there⟩
    · rintro ⟨element, there, rfl⟩
      obtain ⟨arc, listed, rfl⟩ := (h.mem element).mpr there
      obtain ⟨g, hg, inside⟩ := mem_arcs.mp listed
      exact ⟨g, hg, ((formed.groups g hg).labelled arc inside).symm⟩

/-- Whatever is added, removed and renamed, with weights that are numbers, a state lists the set to
which the same changes lead from the empty set: an arc added is one element more, unless it is
there; arcs into the targets go; and every arc of the old label gets the new one. -/
theorem lists_edited (name : Option String) (edits : List ArcEdit)
    (numeric : ∀ e ∈ edits, e.Numeric) :
    (edits.foldl ArcEdit.run { name }).Lists (edits.foldl ArcEdit.onSet ∅) :=
  ((holds_blank name).runAll numeric).lists

/-- The label of an arc becomes that of another arc, which costs the other zero. -/
theorem lists_edited_signed_zeros :
    let minus : Weight := ⟨0x8000000000000000⟩
    let edits : List ArcEdit := [.add ⟨1, .identity "a", .zero⟩, .add ⟨1, .identity "b", minus⟩,
      .add ⟨2, .identity "b", .zero⟩, .removeTo [2, 3], .rename (.identity "a") (.identity "b")]
    (∀ e ∈ edits, e.Numeric) ∧
      (edits.foldl ArcEdit.run {}).arcs = [⟨1, .identity "b", minus⟩] ∧
      (edits.foldl ArcEdit.run {}).Lists {⟨1, .identity "b", .zero⟩} := by
  intro minus edits
  have numeric : ∀ e ∈ edits, e.Numeric := by
    have number : minus.isNaN = false := by decide
    simp only [edits, List.forall_mem_cons]
    exact ⟨rfl, number, rfl, trivial, trivial, List.forall_mem_nil _⟩
  have set : edits.foldl ArcEdit.onSet ∅ = {⟨1, .identity "b", .zero⟩} := by decide +kernel
  exact ⟨numeric, by decide +kernel, set ▸ lists_edited none edits numeric⟩

end State

end Transducer
