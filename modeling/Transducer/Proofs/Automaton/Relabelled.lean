import Transducer.Automaton.Copy
import Transducer.Proofs.Automaton.WellFormed
import Transducer.Proofs.Route
import Transducer.Proofs.Weight.Sum
/-!
Copies of an automaton with other labels and weights. Arcs that become the same are one arc of the
copy, so several paths may have one image; but every path has an image with its labels and weights
changed, and the copy has no other paths.
-/

namespace Transducer

variable {label : Label → Weight → Label} {weight : Label → Weight → Weight}

namespace Arc

/-- The arc with its new label and weight. -/
def relabelled (label : Label → Weight → Label) (weight : Label → Weight → Weight) (arc : Arc) :
    Arc :=
  ⟨arc.target, label arc.label arc.weight, weight arc.label arc.weight⟩

@[simp] theorem weight_relabelled (arc : Arc) :
    (arc.relabelled label weight).weight = weight arc.label arc.weight := rfl

/-- Same target and label, and weights with the same effect. -/
structure Alike (arc other : Arc) : Prop where
  target : arc.target = other.target
  label : arc.label = other.label
  weight : arc.weight.Alike other.weight

variable {arc other : Arc}

theorem Alike.refl (arc : Arc) : arc.Alike arc := ⟨rfl, rfl, .inl rfl⟩

theorem alike_of_sameAs (h : arc.label = other.label) (same : arc.sameAs other = true) :
    arc.Alike other := by
  rw [sameAs, Bool.and_eq_true, decide_eq_true_eq] at same
  exact ⟨same.1, h, .inr same.2⟩

end Arc

namespace Leg

/-- The arcs of the second path are, one by one, those of the first with their new labels and
weights. -/
def Relabelled (label : Label → Weight → Label) (weight : Label → Weight → Weight) :
    List Leg → List Leg → Prop :=
  List.Forall₂ fun leg image => image.arc.Alike (leg.arc.relabelled label weight)

namespace Relabelled

variable {legs image : List Leg}

theorem labels_eq (h : Relabelled label weight legs image) :
    labels image = legs.map fun leg => label leg.arc.label leg.arc.weight := by
  induction h with
  | nil => rfl
  | cons alike _ ih => exact congrArg₂ List.cons alike.label ih

theorem ending_eq (h : Relabelled label weight legs image) (id : StateId) :
    ending id image = ending id legs := by
  induction h generalizing id with
  | nil => rfl
  | cons alike _ ih =>
    have target := alike.target
    simp only [ending, List.foldl_cons] at ih ⊢
    rw [target]
    exact ih _

theorem costFrom_eq (h : Relabelled label weight legs image) {c : Weight} (sum : c.IsSum) :
    costFrom c image = legs.foldl (fun c leg => c + weight leg.arc.label leg.arc.weight) c := by
  induction h generalizing c with
  | nil => rw [costFrom, List.foldl_nil, List.foldl_nil]
  | cons alike _ ih =>
    rw [costFrom_cons, sum.add_alike alike.weight, Arc.weight_relabelled, List.foldl_cons]
    exact ih (sum.add _)

end Relabelled

end Leg

namespace Automaton

variable {a : Automaton} {id last : StateId} {arc : Arc} {legs image : List Leg}

theorem state_mapArcs (a : Automaton) (label : Label → Weight → Label)
    (weight : Label → Weight → Weight) (id : StateId) : (a.mapArcs label weight).state id =
      State.addArcs { a.state id with groups := [] }
        ((a.state id).arcs.map (Arc.relabelled label weight)) :=
  state_mapStates rfl id

theorem finalWeight_mapArcs (id : StateId) :
    ((a.mapArcs label weight).state id).finalWeight = (a.state id).finalWeight := by
  rw [state_mapArcs, State.finalWeight_addArcs]

theorem isFinal_mapArcs (id : StateId) : (a.mapArcs label weight).isFinal id = a.isFinal id :=
  congrArg Weight.isFinite (finalWeight_mapArcs id)

theorem mem_arcs_mapArcs (h : arc ∈ ((a.mapArcs label weight).state id).arcs) :
    ∃ old ∈ (a.state id).arcs, old.relabelled label weight = arc := by
  rw [state_mapArcs] at h
  rcases State.mem_addArcs h with new | none
  · exact List.mem_map.mp new
  · exact absurd none List.not_mem_nil

theorem exists_mem_arcs_mapArcs (h : arc ∈ (a.state id).arcs) (label : Label → Weight → Label)
    (weight : Label → Weight → Weight) :
    ∃ new ∈ ((a.mapArcs label weight).state id).arcs,
      new.Alike (arc.relabelled label weight) := by
  have blank : State.Labelled { a.state id with groups := [] } :=
    fun _ none => absurd none List.not_mem_nil
  have listed : arc.relabelled label weight ∈
      (a.state id).arcs.map (Arc.relabelled label weight) := List.mem_map_of_mem h
  obtain ⟨new, mem, same⟩ := State.exists_mem_addArcs blank listed
  refine ⟨new, by rw [state_mapArcs]; exact mem, ?_⟩
  rcases same with rfl | ⟨label, same⟩
  · exact .refl _
  · exact Arc.alike_of_sameAs label same

/-- Every path has an image in the copy. -/
theorem Route.mapArcs (h : a.Route id legs last) (label : Label → Weight → Label)
    (weight : Label → Weight → Weight) :
    ∃ image, (a.mapArcs label weight).Route id image last ∧
      Leg.Relabelled label weight legs image := by
  induction h with
  | stop id => exact ⟨[], .stop id, .nil⟩
  | @go id last leg legs leaves _ ih =>
    obtain ⟨image, route, relabelled⟩ := ih
    have old : leg.arc ∈ (a.state id).arcs := arc_mem_of_mem_legsFrom leaves
    obtain ⟨new, mem, alike⟩ := exists_mem_arcs_mapArcs old label weight
    obtain ⟨first, leaves', rfl⟩ := exists_mem_legsFrom mem
    have target : first.arc.target = leg.arc.target := alike.target
    rw [← target] at route
    exact ⟨first :: image, .go leaves' route, .cons alike relabelled⟩

/-- Every path of the copy is the image of a path. -/
theorem Route.of_mapArcs (h : (a.mapArcs label weight).Route id image last) :
    ∃ legs, a.Route id legs last ∧ Leg.Relabelled label weight legs image := by
  induction h with
  | stop id => exact ⟨[], .stop id, .nil⟩
  | @go id last first image leaves _ ih =>
    obtain ⟨legs, route, relabelled⟩ := ih
    have new := arc_mem_of_mem_legsFrom leaves
    obtain ⟨old, mem, same⟩ := mem_arcs_mapArcs new
    obtain ⟨leg, leaves', rfl⟩ := exists_mem_legsFrom mem
    have target : first.arc.target = leg.arc.target := (congrArg Arc.target same).symm
    rw [target] at route
    exact ⟨leg :: legs, .go leaves' route, .cons (same ▸ .refl _) relabelled⟩

theorem Accepts.mapArcs (h : a.Accepts legs) (label : Label → Weight → Label)
    (weight : Label → Weight → Weight) :
    ∃ image, (a.mapArcs label weight).Accepts image ∧ Leg.Relabelled label weight legs image := by
  obtain ⟨last, route, final⟩ := h
  obtain ⟨image, route', relabelled⟩ := route.mapArcs label weight
  exact ⟨image, ⟨last, route', by rwa [isFinal_mapArcs]⟩, relabelled⟩

theorem Accepts.of_mapArcs (h : (a.mapArcs label weight).Accepts image) :
    ∃ legs, a.Accepts legs ∧ Leg.Relabelled label weight legs image := by
  obtain ⟨last, route, final⟩ := h
  obtain ⟨legs, route', relabelled⟩ := route.of_mapArcs
  rw [isFinal_mapArcs] at final
  exact ⟨legs, ⟨last, route', final⟩, relabelled⟩

/-- The cost of an image: the new weights, and the final weight of where the path ends. -/
theorem cost_mapArcs (h : Leg.Relabelled label weight legs image) :
    (a.mapArcs label weight).cost image =
      legs.foldl (fun c leg => c + weight leg.arc.label leg.arc.weight) .zero +
        (a.state (Leg.ending a.initial legs)).finalWeight := by
  have initial : (a.mapArcs label weight).initial = a.initial := rfl
  rw [cost, Leg.cost, h.costFrom_eq Weight.isCost_zero.isSum, initial, h.ending_eq,
    finalWeight_mapArcs]

end Automaton

end Transducer
