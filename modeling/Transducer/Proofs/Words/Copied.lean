import Transducer.Proofs.Automaton.Relabelled
import Transducer.Proofs.Automaton.Renumbered
import Transducer.Proofs.Words.Shortlex
/-!
The words of copies. With other labels and weights a copy has the images of the words and no others,
also where different arcs became one. Restricted to some labels it has the words of these labels,
and its walk gives them out in the order of the walk through the original.
-/

namespace Transducer

variable {a : Automaton} {id : StateId} {legs more : List Leg} {w : Word}
  {label : Label → Weight → Label} {weight : Label → Weight → Weight} {keep : Label → Bool}
  {n k : Nat}

/-- What is filtered out has no part in a list put together from parts. -/
theorem flatMap_filter {α : Type} {β : Type} (keep : α → Bool) (items : List α)
    (f : α → List β) :
    (items.filter keep).flatMap f = items.flatMap fun item => if keep item then f item else [] := by
  induction items with
  | nil => rfl
  | cons item rest ih =>
    rw [List.flatMap_cons, ← ih, List.filter_cons]
    split <;> rfl

namespace Walk

/-- The words that the walk has given out after a number of steps. -/
def found (a : Automaton) (k : Nat) : List Word := (Move.run (step a) (start a) k).2.reverse

/-- The walk gives out the words of all accepted paths. -/
theorem mem_found_iff : (∃ k, w ∈ found a k) ↔ ∃ legs, a.Accepts legs ∧ a.word legs = w := by
  constructor
  · rintro ⟨k, mem⟩
    have front := run_prefix a k
    obtain ⟨legs, there, same⟩ := List.mem_map.mp (front.subset mem)
    exact ⟨legs, (Automaton.mem_acceptedUpTo.mp there).1, same⟩
  · rintro ⟨legs, accepts, rfl⟩
    have there : legs ∈ a.acceptedUpTo legs.length :=
      Automaton.mem_acceptedUpTo.mpr ⟨accepts, Nat.le_refl _⟩
    refine ⟨(a.pathsUpTo legs.length).length, ?_⟩
    rw [found, run_length_pathsUpTo]
    exact List.mem_map_of_mem there

end Walk

namespace Automaton

/-- Two automata that differ in nothing but their arcs. -/
structure SameStates (a copy : Automaton) : Prop where
  alphabet : copy.alphabet = a.alphabet
  initial : copy.initial = a.initial
  finals : copy.finals = a.finals
  size : copy.size = a.size
  name (id : StateId) : (copy.state id).name = (a.state id).name
  finalWeight (id : StateId) : (copy.state id).finalWeight = (a.state id).finalWeight

/-- A copy with new arcs from those of each state. -/
theorem sameStates_mapStates (a : Automaton) (arcs : State → List Arc) (blank : arcs {} = []) :
    SameStates a { a with
      states := a.states.map fun s => State.addArcs { s with groups := [] } (arcs s) } := by
  have missing : State.addArcs { ({} : State) with groups := [] } (arcs {}) = {} := by
    rw [blank]
    rfl
  refine ⟨rfl, rfl, rfl, Array.size_map, fun id => ?_, fun id => ?_⟩
  · rw [state_mapStates missing, State.name_addArcs]
  · rw [state_mapStates missing, State.finalWeight_addArcs]

section Relabelled

theorem sameStates_mapArcs (a : Automaton) (label : Label → Weight → Label)
    (weight : Label → Weight → Weight) : SameStates a (a.mapArcs label weight) :=
  a.sameStates_mapStates (fun s => s.arcs.map (Arc.relabelled label weight)) rfl

/-- The word of a path with its labels and weights changed. -/
def relabelledWord (a : Automaton) (label : Label → Weight → Label)
    (weight : Label → Weight → Weight) (legs : List Leg) : Word where
  cost := legs.foldl (fun c leg => c + weight leg.arc.label leg.arc.weight) .zero +
    (a.state (Leg.ending a.initial legs)).finalWeight
  labels := legs.map fun leg => label leg.arc.label leg.arc.weight

theorem word_mapArcs {image : List Leg} (h : Leg.Relabelled label weight legs image) :
    (a.mapArcs label weight).word image = a.relabelledWord label weight legs := by
  rw [word, relabelledWord, cost_mapArcs h, h.labels_eq]

/-- The words of the copy are the changed words of the automaton. -/
theorem exists_accepts_mapArcs_iff :
    (∃ image, (a.mapArcs label weight).Accepts image ∧
      (a.mapArcs label weight).word image = w) ↔
      ∃ legs, a.Accepts legs ∧ a.relabelledWord label weight legs = w := by
  constructor
  · rintro ⟨image, accepts, rfl⟩
    obtain ⟨legs, original, relabelled⟩ := accepts.of_mapArcs
    exact ⟨legs, original, (word_mapArcs relabelled).symm⟩
  · rintro ⟨legs, accepts, rfl⟩
    obtain ⟨image, copied, relabelled⟩ := accepts.mapArcs label weight
    exact ⟨image, copied, word_mapArcs relabelled⟩

/-- Giving arcs other labels and weights changes the words path by path: none is lost, and none is
added, whatever arcs become the same. -/
theorem mapArcs_language (a : Automaton) (label : Label → Weight → Label)
    (weight : Label → Weight → Weight) :
    SameStates a (a.mapArcs label weight) ∧
      (a.mapArcs label weight).word '' { image | (a.mapArcs label weight).Accepts image } =
        a.relabelledWord label weight '' { legs | a.Accepts legs } ∧
      ∀ w, (∃ k, w ∈ Walk.found (a.mapArcs label weight) k) ↔
        ∃ legs, a.Accepts legs ∧ a.relabelledWord label weight legs = w := by
  refine ⟨a.sameStates_mapArcs label weight, ?_, fun w => ?_⟩
  · ext w
    exact exists_accepts_mapArcs_iff
  · exact Walk.mem_found_iff.trans exists_accepts_mapArcs_iff

end Relabelled

end Automaton

/-- The arcs that a path takes. -/
def Leg.arcs (legs : List Leg) : List Arc := legs.map Leg.arc

namespace Arc

/-- Where arcs lead that are taken one after the other. -/
def ending (start : StateId) (path : List Arc) : StateId :=
  path.foldl (fun _ arc => arc.target) start

def allKept (keep : Label → Bool) (path : List Arc) : Bool := path.all fun arc => keep arc.label

theorem ending_arcs (start : StateId) (legs : List Leg) :
    ending start (Leg.arcs legs) = Leg.ending start legs := List.foldl_map

theorem allKept_snoc (keep : Label → Bool) (path : List Arc) (arc : Arc) :
    allKept keep (path ++ [arc]) = (allKept keep path && keep arc.label) := by
  simp [allKept]

end Arc

namespace State

variable {s : State} {count : Nat}

/-- Arcs are kept group by group. -/
theorem filter_arcs (h : s.Labelled) (keep : Label → Bool) :
    s.arcs.filter (fun arc => keep arc.label) =
      (s.groups.filter fun g => keep g.1).flatMap Prod.snd := by
  have one (g : Label × List Arc) (mem : g ∈ s.groups) :
      g.2.filter (fun arc => keep arc.label) = if keep g.1 then g.2 else [] := by
    have label : ∀ arc ∈ g.2, keep arc.label = keep g.1 :=
      fun arc here => congrArg keep (h g mem arc here)
    rw [List.filter_congr label]
    cases keep g.1 <;> simp
  rw [arcs, List.filter_flatMap, flatMap_filter]
  exact List.flatMap_congr one

/-- Adding what is kept of the arcs of a state gives back their groups. -/
theorem addArcs_filter_arcs (h : s.WellFormed count) (keep : Label → Bool) :
    State.addArcs { s with groups := [] } (s.arcs.filter fun arc => keep arc.label) =
      { s with groups := s.groups.filter fun g => keep g.1 } := by
  have order : Ordered.Increasing ((s.groups.filter fun g => keep g.1).map Prod.fst) :=
    h.order.sublist (List.filter_sublist.map Prod.fst)
  have sound : ∀ g ∈ s.groups.filter fun g => keep g.1, Sound count g :=
    fun g mem => h.groups g (List.mem_filter.mp mem).1
  rw [filter_arcs h.labelled]
  exact addArcs_groups s [] order sound

end State

namespace Automaton

section Filtered

theorem sameStates_filterArcs (a : Automaton) (keep : Label → Bool) :
    SameStates a (a.filterArcs keep) :=
  a.sameStates_mapStates (fun s => s.arcs.filter fun arc => keep arc.label) rfl

theorem WellFormed.arcs_filterArcs (ha : a.WellFormed) (keep : Label → Bool) (id : StateId) :
    ((a.filterArcs keep).state id).arcs = (a.state id).arcs.filter fun arc => keep arc.label := by
  have state : (a.filterArcs keep).state id =
      { a.state id with groups := (a.state id).groups.filter fun g => keep g.1 } :=
    (state_mapStates rfl id).trans (State.addArcs_filter_arcs (ha.states id) keep)
  rw [state, State.filter_arcs (ha.states id).labelled]
  rfl

/-- The arcs of the paths that take a number of legs. -/
def arcPaths (a : Automaton) (n : Nat) : List (List Arc) := (a.pathsOfLength n).map Leg.arcs

/-- The word of the path that takes certain arcs. -/
def wordAlong (a : Automaton) (path : List Arc) : Word where
  cost := path.foldl (fun c arc => c + arc.weight) .zero +
    (a.state (Arc.ending a.initial path)).finalWeight
  labels := path.map Arc.label

theorem wordAlong_arcs (a : Automaton) (legs : List Leg) :
    a.wordAlong (Leg.arcs legs) = a.word legs := by
  rw [wordAlong, Arc.ending_arcs, Leg.arcs, List.foldl_map, List.map_map]
  rfl

theorem arcPaths_succ (a : Automaton) (n : Nat) :
    a.arcPaths (n + 1) = (a.arcPaths n).flatMap fun path =>
      (a.state (Arc.ending a.initial path)).arcs.map fun arc => path ++ [arc] := by
  have one (legs : List Leg) : (a.extend legs).map Leg.arcs =
      (a.state (Arc.ending a.initial (Leg.arcs legs))).arcs.map
        fun arc => Leg.arcs legs ++ [arc] := by
    rw [extend, Arc.ending_arcs, ← map_arc_legsFrom, List.map_map, List.map_map]
    refine List.map_congr_left fun leg mem => ?_
    exact List.map_append
  rw [arcPaths, arcPaths, pathsOfLength, List.map_flatMap, List.flatMap_map]
  exact List.flatMap_congr fun legs mem => one legs

/-- The copy has the paths all of whose labels it keeps, in their order. -/
theorem WellFormed.arcPaths_filterArcs (ha : a.WellFormed) (keep : Label → Bool) (n : Nat) :
    (a.filterArcs keep).arcPaths n = (a.arcPaths n).filter (Arc.allKept keep) := by
  induction n with
  | zero => rfl
  | succ n ih =>
    have kept (path : List Arc) (arcs : List Arc) :
        (arcs.map fun arc => path ++ [arc]).filter (Arc.allKept keep) =
          if Arc.allKept keep path then
            (arcs.filter fun arc => keep arc.label).map fun arc => path ++ [arc]
          else [] := by
      rw [List.filter_map]
      by_cases all : Arc.allKept keep path
      · simp [all, Function.comp_def, Arc.allKept_snoc]
      · simp [all, Function.comp_def, Arc.allKept_snoc]
    rw [arcPaths_succ, arcPaths_succ, ih, List.filter_flatMap, flatMap_filter]
    refine List.flatMap_congr fun path mem => ?_
    rw [kept, ha.arcs_filterArcs]
    rfl

theorem map_arcs_acceptedUpTo (a : Automaton) (n : Nat) :
    (a.acceptedUpTo n).map Leg.arcs = ((List.range (n + 1)).flatMap a.arcPaths).filter
      fun path => a.isFinal (Arc.ending a.initial path) := by
  have final : a.endsFinal =
      (fun path => a.isFinal (Arc.ending a.initial path)) ∘ Leg.arcs := by
    funext legs
    rw [Function.comp_apply, Arc.ending_arcs]
    rfl
  rw [acceptedUpTo, final, ← List.filter_map, pathsUpTo, List.map_flatMap]
  rfl

theorem WellFormed.arcs_acceptedUpTo_filterArcs (ha : a.WellFormed) (keep : Label → Bool)
    (n : Nat) : ((a.filterArcs keep).acceptedUpTo n).map Leg.arcs =
      ((a.acceptedUpTo n).map Leg.arcs).filter (Arc.allKept keep) := by
  have same := a.sameStates_filterArcs keep
  have final (id : StateId) : (a.filterArcs keep).isFinal id = a.isFinal id :=
    congrArg Weight.isFinite (same.finalWeight id)
  have paths : (a.filterArcs keep).arcPaths =
      fun n => (a.arcPaths n).filter (Arc.allKept keep) :=
    funext (ha.arcPaths_filterArcs keep)
  rw [map_arcs_acceptedUpTo, map_arcs_acceptedUpTo, paths, ← List.filter_flatMap, List.filter_filter,
    List.filter_filter]
  simp only [final, same.initial, Bool.and_comm]

theorem map_word_eq (a : Automaton) (paths : List (List Leg)) :
    paths.map a.word = (paths.map Leg.arcs).map a.wordAlong := by
  rw [List.map_map]
  exact List.map_congr_left fun legs mem => (a.wordAlong_arcs legs).symm

theorem wordAlong_filterArcs (a : Automaton) (keep : Label → Bool) :
    (a.filterArcs keep).wordAlong = a.wordAlong := by
  have same := a.sameStates_filterArcs keep
  funext path
  rw [wordAlong, wordAlong, same.initial, same.finalWeight]

theorem WellFormed.words_acceptedUpTo_filterArcs (ha : a.WellFormed) (keep : Label → Bool)
    (n : Nat) : ((a.filterArcs keep).acceptedUpTo n).map (a.filterArcs keep).word =
      ((a.acceptedUpTo n).map a.word).filter (·.labels.all keep) := by
  have labels : (fun w : Word => w.labels.all keep) ∘ a.wordAlong = Arc.allKept keep := by
    funext path
    exact List.all_map
  calc ((a.filterArcs keep).acceptedUpTo n).map (a.filterArcs keep).word
    _ = (((a.acceptedUpTo n).map Leg.arcs).filter (Arc.allKept keep)).map a.wordAlong := by
      rw [map_word_eq, ha.arcs_acceptedUpTo_filterArcs, wordAlong_filterArcs]
    _ = (((a.acceptedUpTo n).map Leg.arcs).map a.wordAlong).filter (·.labels.all keep) := by
      rw [← labels, ← List.filter_map]
    _ = ((a.acceptedUpTo n).map a.word).filter (·.labels.all keep) := by rw [← map_word_eq]

/-- Restricting an automaton to some labels leaves the paths all of whose labels are kept, in their
order; the two walks give out the same words in the same order, apart from those left out. -/
theorem filterArcs_words (ha : a.WellFormed) (keep : Label → Bool) :
    SameStates a (a.filterArcs keep) ∧
      (∀ n, ((a.filterArcs keep).acceptedUpTo n).map Leg.arcs =
          ((a.acceptedUpTo n).map Leg.arcs).filter (Arc.allKept keep) ∧
        ((a.filterArcs keep).acceptedUpTo n).map (a.filterArcs keep).word =
          ((a.acceptedUpTo n).map a.word).filter (·.labels.all keep)) ∧
      (∀ k, ∃ m, Walk.found (a.filterArcs keep) k <+:
        (Walk.found a m).filter (·.labels.all keep)) ∧
      ∀ m, ∃ k, (Walk.found a m).filter (·.labels.all keep) <+:
        Walk.found (a.filterArcs keep) k := by
  refine ⟨a.sameStates_filterArcs keep, fun n => ⟨?_, ?_⟩, ?_, ?_⟩
  · exact ha.arcs_acceptedUpTo_filterArcs keep n
  · exact ha.words_acceptedUpTo_filterArcs keep n
  · intro k
    have front := Walk.run_prefix (a.filterArcs keep) k
    rw [ha.words_acceptedUpTo_filterArcs, ← Walk.run_length_pathsUpTo] at front
    exact ⟨_, front⟩
  · intro m
    have all := Walk.run_prefix a m
    have front := all.filter (·.labels.all keep)
    rw [← ha.words_acceptedUpTo_filterArcs, ← Walk.run_length_pathsUpTo] at front
    exact ⟨_, front⟩

/-- Without the label of a loop two of the words are left. -/
theorem filterArcs_words_loop :
    let a := ((((empty.addState none).setFinal 1 .zero).addArc 0 ⟨1, .identity "b", .zero⟩).addArc 0
      ⟨0, .identity "a", .zero⟩).addArc 0 ⟨1, .pair "a" "c", .zero⟩
    let keep := fun l : Label => !l.isIdentity || l.input == "b"
    a.WellFormed ∧ Walk.found (a.filterArcs keep) 3 =
        [⟨.zero, [.pair "a" "c"]⟩, ⟨.zero, [.identity "b"]⟩] ∧
      ∃ m, Walk.found (a.filterArcs keep) 3 <+:
        (Walk.found a m).filter (·.labels.all keep) := by
  intro a keep
  have final : ((empty.addState none).setFinal 1 .zero).WellFormed :=
    (wellFormed_empty.addState none).setFinal (by decide) .zero
  have ha : a.WellFormed := by
    refine ((final.addArc ?_ ?_).addArc ?_ ?_).addArc ?_ ?_
    all_goals decide
  obtain ⟨-, -, walked, -⟩ := filterArcs_words ha keep
  exact ⟨ha, by decide +kernel, walked 3⟩

end Filtered

end Automaton

end Transducer
