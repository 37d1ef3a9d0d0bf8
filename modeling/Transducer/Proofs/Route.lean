import Mathlib.Data.List.Perm.Subperm
import Transducer.Proofs.Automaton.Basic
import Transducer.Weight.Arithmetic
/-!
Paths through an automaton, as the arcs that they take. A state can hold one arc twice when its
weight is a NaN, so an arc that is taken comes with its place among the arcs of its state.
-/

namespace Transducer

/-- An arc that is taken, and its place among the arcs of the state that it leaves. -/
structure Leg where
  place : Nat
  arc : Arc
  deriving DecidableEq, Repr

namespace Leg

/-- Where legs lead that are taken from a state. -/
def ending (start : StateId) (legs : List Leg) : StateId :=
  legs.foldl (fun _ leg => leg.arc.target) start

/-- A cost with the weights added to it from left to right. -/
def costFrom (c : Weight) (legs : List Leg) : Weight :=
  legs.foldl (fun cost leg => cost + leg.arc.weight) c

/-- Zero, and the weights added to it from left to right. -/
def cost (legs : List Leg) : Weight := costFrom .zero legs

def labels (legs : List Leg) : List Label := legs.map fun leg => leg.arc.label

@[simp] theorem ending_snoc (start : StateId) (legs : List Leg) (leg : Leg) :
    ending start (legs ++ [leg]) = leg.arc.target := by
  simp [ending]

@[simp] theorem cost_snoc (legs : List Leg) (leg : Leg) :
    cost (legs ++ [leg]) = cost legs + leg.arc.weight := by
  simp [cost, costFrom]

theorem costFrom_cons (c : Weight) (leg : Leg) (legs : List Leg) :
    costFrom c (leg :: legs) = costFrom (c + leg.arc.weight) legs := rfl

theorem costFrom_append (c : Weight) (legs more : List Leg) :
    costFrom c (legs ++ more) = costFrom (costFrom c legs) more := List.foldl_append

@[simp] theorem labels_snoc (legs : List Leg) (leg : Leg) :
    labels (legs ++ [leg]) = labels legs ++ [leg.arc.label] := by
  simp [labels]

end Leg

namespace Automaton

variable {a : Automaton} {id mid last : StateId} {leg : Leg} {legs more : List Leg}

/-- The legs that leave a state, in the order of its arcs. -/
def legsFrom (a : Automaton) (id : StateId) : List Leg :=
  (a.state id).arcs.zipIdx.map fun (arc, place) => ⟨place, arc⟩

/-- Legs that follow one another from one state to another. -/
inductive Route (a : Automaton) : StateId → List Leg → StateId → Prop
  | stop (id : StateId) : Route a id [] id
  | go {id last : StateId} {leg : Leg} {legs : List Leg} : leg ∈ a.legsFrom id →
      Route a leg.arc.target legs last → Route a id (leg :: legs) last

/-- A path from the initial state to a final one. -/
def Accepts (a : Automaton) (legs : List Leg) : Prop :=
  ∃ last, a.Route a.initial legs last ∧ a.isFinal last

def endsFinal (a : Automaton) (legs : List Leg) : Bool := a.isFinal (Leg.ending a.initial legs)

/-- The cost of a path with that of stopping where it ends. -/
def cost (a : Automaton) (legs : List Leg) : Weight :=
  Leg.cost legs + (a.state (Leg.ending a.initial legs)).finalWeight

/-- A path leads from the initial state to one from which another path, not empty, leads back. -/
def HasCycle (a : Automaton) : Prop :=
  ∃ id before loop, a.Route a.initial before id ∧ loop ≠ [] ∧ a.Route id loop id

theorem mem_legsFrom : leg ∈ a.legsFrom id ↔ (a.state id).arcs[leg.place]? = some leg.arc := by
  rw [legsFrom, List.mem_map]
  constructor
  · intro ⟨⟨arc, place⟩, h, same⟩
    obtain rfl := same
    simpa [List.mem_zipIdx_iff_getElem?] using h
  · intro h
    exact ⟨(leg.arc, leg.place), by simpa [List.mem_zipIdx_iff_getElem?] using h, rfl⟩

theorem map_arc_legsFrom (a : Automaton) (id : StateId) :
    (a.legsFrom id).map Leg.arc = (a.state id).arcs := by
  rw [legsFrom, List.map_map]
  exact List.zipIdx_map_fst ..

theorem map_place_legsFrom (a : Automaton) (id : StateId) :
    (a.legsFrom id).map Leg.place = List.range (a.state id).arcs.length := by
  rw [legsFrom, List.map_map, List.range_eq_range']
  exact List.zipIdx_map_snd ..

/-- The legs of a state stand in the order of their places. -/
theorem legsFrom_pairwise (a : Automaton) (id : StateId) :
    (a.legsFrom id).Pairwise fun leg other => leg.place < other.place := by
  rw [← List.pairwise_map, map_place_legsFrom]
  exact List.pairwise_lt_range

theorem legsFrom_nodup (a : Automaton) (id : StateId) : (a.legsFrom id).Nodup :=
  (a.legsFrom_pairwise id).imp fun lt e => Nat.ne_of_lt lt (congrArg Leg.place e)

theorem arc_mem_of_mem_legsFrom (h : leg ∈ a.legsFrom id) : leg.arc ∈ (a.state id).arcs :=
  List.mem_of_getElem? (mem_legsFrom.mp h)

theorem exists_mem_legsFrom {arc : Arc} (h : arc ∈ (a.state id).arcs) :
    ∃ leg ∈ a.legsFrom id, leg.arc = arc := by
  rw [← map_arc_legsFrom] at h
  exact List.mem_map.mp h

theorem lt_size_of_mem_legsFrom (h : leg ∈ a.legsFrom id) : id < a.size :=
  lt_size_of_mem (arc_mem_of_mem_legsFrom h)

theorem not_mem_legsFrom (stuck : (a.state id).arcs = []) : leg ∉ a.legsFrom id := by
  rw [mem_legsFrom, stuck]
  simp

/-- A state with one arc has one leg. -/
theorem eq_of_mem_legsFrom {arc : Arc} (only : (a.state id).arcs = [arc])
    (h : leg ∈ a.legsFrom id) : leg = ⟨0, arc⟩ := by
  rw [legsFrom, only] at h
  exact List.mem_singleton.mp h

namespace Route

theorem ending_eq (h : a.Route id legs last) : Leg.ending id legs = last := by
  induction h with
  | stop => rfl
  | go _ _ ih => exact ih

theorem append (h : a.Route id legs mid) (h' : a.Route mid more last) :
    a.Route id (legs ++ more) last := by
  induction h with
  | stop => exact h'
  | go hl _ ih => exact .go hl (ih h')

theorem snoc (h : a.Route id legs last) (hl : leg ∈ a.legsFrom last) :
    a.Route id (legs ++ [leg]) leg.arc.target :=
  h.append (.go hl (.stop _))

theorem split (h : a.Route id (legs ++ more) last) :
    ∃ mid, a.Route id legs mid ∧ a.Route mid more last := by
  induction legs generalizing id with
  | nil => exact ⟨id, .stop id, h⟩
  | cons leg legs ih =>
    cases h with
    | go hl h =>
      obtain ⟨mid, first, second⟩ := ih h
      exact ⟨mid, .go hl first, second⟩

/-- The last leg of a path leaves the state to which the others lead. -/
theorem unsnoc (h : a.Route id (legs ++ [leg]) last) :
    a.Route id legs (Leg.ending id legs) ∧ leg ∈ a.legsFrom (Leg.ending id legs) := by
  obtain ⟨mid, first, second⟩ := h.split
  cases second with
  | go hl _ =>
    rw [first.ending_eq]
    exact ⟨first, hl⟩

end Route

theorem accepts_iff : a.Accepts legs ↔
    a.Route a.initial legs (Leg.ending a.initial legs) ∧ a.endsFinal legs := by
  constructor
  · intro ⟨last, route, final⟩
    have e := route.ending_eq
    subst e
    exact ⟨route, final⟩
  · intro ⟨route, final⟩
    exact ⟨_, route, final⟩

/-- The states that a path leaves, one for each leg. -/
def left (id : StateId) : List Leg → List StateId
  | [] => []
  | leg :: legs => id :: left leg.arc.target legs

theorem length_left (id : StateId) (legs : List Leg) : (left id legs).length = legs.length := by
  induction legs generalizing id with
  | nil => rfl
  | cons leg legs ih => simp [left, ih]

theorem left_lt_size (h : a.Route id legs last) : ∀ state ∈ left id legs, state < a.size := by
  induction h with
  | stop => simp [left]
  | go hl _ ih =>
    intro state hs
    rcases List.mem_cons.mp hs with rfl | hs
    · exact lt_size_of_mem_legsFrom hl
    · exact ih state hs

theorem Route.to_left (h : a.Route id legs last) (hs : mid ∈ left id legs) :
    ∃ before, a.Route id before mid ∧ before ⊆ legs := by
  induction h with
  | stop => simp [left] at hs
  | @go id _ leg _ hl _ ih =>
    rcases List.mem_cons.mp hs with rfl | hs
    · exact ⟨[], .stop _, List.nil_subset _⟩
    · obtain ⟨before, route, sub⟩ := ih hs
      exact ⟨leg :: before, .go hl route, List.cons_subset_cons leg sub⟩

/-- A path that leaves a state twice has gone round, by some of its legs. -/
theorem exists_loop_of_duplicate (h : a.Route id legs last) (hd : ¬ (left id legs).Nodup) :
    ∃ mid before loop, a.Route id before mid ∧ loop ≠ [] ∧ a.Route mid loop mid ∧
      loop ⊆ legs := by
  induction h with
  | stop => simp [left] at hd
  | @go id _ leg legs hl h ih =>
    by_cases back : id ∈ left leg.arc.target legs
    · obtain ⟨around, route, sub⟩ := h.to_left back
      exact ⟨id, [], leg :: around, .stop id, by simp, .go hl route, List.cons_subset_cons leg sub⟩
    · have rest : ¬ (left leg.arc.target legs).Nodup := by
        intro nodup
        exact hd (List.nodup_cons.mpr ⟨back, nodup⟩)
      obtain ⟨mid, before, loop, route, ne, around, sub⟩ := ih rest
      exact ⟨mid, leg :: before, loop, .go hl route, ne, around, List.subset_cons_of_subset leg sub⟩

/-- A path that leaves no state twice takes no more legs than there are states. -/
theorem Route.length_le_size_of_nodup (h : a.Route id legs last) (nodup : (left id legs).Nodup) :
    legs.length ≤ a.size := by
  have sub : left id legs ⊆ List.range a.size := fun state hs =>
    List.mem_range.mpr (left_lt_size h state hs)
  have short := (nodup.subperm sub).length_le
  rwa [length_left, List.length_range] at short

/-- Without a cycle no path takes more legs than there are states. -/
theorem length_le_size (acyclic : ¬ a.HasCycle) (h : a.Route a.initial legs last) :
    legs.length ≤ a.size := by
  apply h.length_le_size_of_nodup
  by_contra twice
  obtain ⟨mid, before, loop, route, ne, around, -⟩ := exists_loop_of_duplicate h twice
  exact acyclic ⟨mid, before, loop, route, ne, around⟩

/-- A cycle gives paths of every length. -/
theorem HasCycle.route_of_length (h : a.HasCycle) (n : Nat) :
    ∃ legs last, a.Route a.initial legs last ∧ legs.length = n := by
  obtain ⟨id, before, loop, route, ne, around⟩ := h
  have long (n : Nat) : ∃ legs, a.Route a.initial legs id ∧ n ≤ legs.length := by
    induction n with
    | zero => exact ⟨before, route, Nat.zero_le _⟩
    | succ n ih =>
      obtain ⟨legs, far, le⟩ := ih
      refine ⟨legs ++ loop, far.append around, ?_⟩
      have pos := List.length_pos_iff.mpr ne
      simp only [List.length_append]
      omega
  obtain ⟨legs, far, le⟩ := long n
  rw [← List.take_append_drop n legs] at far
  obtain ⟨mid, first, _⟩ := far.split
  exact ⟨legs.take n, mid, first, List.length_take_of_le le⟩

end Automaton

end Transducer
