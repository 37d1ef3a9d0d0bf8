import Transducer.Proofs.Apply.Exact
import Transducer.Proofs.Automaton.Relabelled
/-!
The inverse of an automaton: the sides of every label are exchanged. What one direction makes of the
automaton, the opposite one makes of its inverse; the searches differ, since labels have another
order and arcs may have become the same, but the paths that they follow correspond.
-/

namespace Transducer

namespace Direction

/-- The direction that reads what this one writes. -/
def opposite : Direction → Direction
  | generate => analyze
  | analyze => generate

theorem consumed_opposite (d : Direction) : d.opposite.consumed = d.produced := by
  cases d <;> rfl

theorem produced_opposite (d : Direction) : d.opposite.produced = d.consumed := by
  cases d <;> rfl

end Direction

/-- The label that reads what this one writes, always as a pair. -/
def Label.inverse (l : Label) : Label := .pair l.output l.input

/-- The automaton with all labels inverted. -/
def Automaton.inverse (a : Automaton) : Automaton := a.mapArcs (fun l _ => l.inverse) fun _ w => w

namespace Direction

variable {d : Direction} {legs image : List Leg}

theorem consumed_inverse (d : Direction) (l : Label) :
    d.opposite.consumed l.inverse = d.consumed l := by
  cases d <;> rfl

theorem produced_inverse (d : Direction) (l : Label) :
    d.opposite.produced l.inverse = d.produced l := by
  cases d <;> rfl

theorem silent_inverse (d : Direction) (l : Label) :
    d.opposite.silent l.inverse = d.silent l := by
  rw [silent, consumed_inverse, silent]

theorem copies_inverse (d : Direction) (l : Label) (t? : Option Token) :
    d.opposite.copies l.inverse t? = d.copies l t? := by
  cases t? with
  | none => exact d.produced_inverse l
  | some t => rw [copies, copies, produced_inverse]

/-- The inverse path reads in the opposite direction what the path reads. -/
theorem reads_inverse (h : Leg.labels image = (Leg.labels legs).map Label.inverse) :
    d.opposite.reads image = d.reads legs := by
  have heard : ((Leg.labels legs).map Label.inverse).filter (fun l => !d.opposite.silent l) =
      ((Leg.labels legs).filter fun l => !d.silent l).map Label.inverse := by
    rw [List.filter_map]
    refine congrArg _ (List.filter_congr fun l _ => ?_)
    rw [Function.comp_apply, silent_inverse]
  rw [reads, h, heard, List.map_map, reads]
  exact List.map_congr_left fun l _ => d.consumed_inverse l

/-- The inverse path writes in the opposite direction what the path writes. -/
theorem writes_inverse (h : Leg.labels image = (Leg.labels legs).map Label.inverse)
    (tokens : List Token) : d.opposite.writes tokens image = d.writes tokens legs := by
  induction legs generalizing image tokens with
  | nil =>
    have none : image = [] := List.map_eq_nil_iff.mp h
    rw [none]
    rfl
  | cons leg legs ih =>
    cases image with
    | nil => cases h
    | cons first image =>
      have label : first.arc.label = leg.arc.label.inverse := (List.cons.inj h).1
      have rest : Leg.labels image = (Leg.labels legs).map Label.inverse := (List.cons.inj h).2
      rw [writes, writes, label, silent_inverse, produced_inverse, copies_inverse, ih rest, ih rest]

end Direction

namespace Automaton

variable {a : Automaton} {legs image : List Leg}

/-- The second path takes the arcs of the first with their labels inverted. -/
def Inverted : List Leg → List Leg → Prop := Leg.Relabelled (fun l _ => l.inverse) fun _ w => w

theorem Inverted.labels_eq (h : Inverted legs image) :
    Leg.labels image = (Leg.labels legs).map Label.inverse := by
  rw [Leg.Relabelled.labels_eq h, Leg.labels, List.map_map]
  rfl

theorem Inverted.cost_eq (h : Inverted legs image) (a : Automaton) :
    a.inverse.cost image = a.cost legs :=
  cost_mapArcs h

theorem Accepts.inverse (h : a.Accepts legs) :
    ∃ image, a.inverse.Accepts image ∧ Inverted legs image :=
  h.mapArcs (fun l _ => l.inverse) fun _ w => w

theorem Accepts.of_inverse (h : a.inverse.Accepts image) :
    ∃ legs, a.Accepts legs ∧ Inverted legs image := by
  rw [Automaton.inverse] at h
  exact h.of_mapArcs

theorem mentions_inverse (a : Automaton) : a.inverse.mentions ⊆ a.mentions := by
  intro s hs
  rw [mem_mentions_iff] at hs ⊢
  rcases hs with known | ⟨id, arc, mem, symbol⟩
  · exact .inl known
  · obtain ⟨old, there, same⟩ := mem_arcs_mapArcs mem
    have label : arc.label = old.label.inverse := congrArg Arc.label same.symm
    refine .inr ⟨id, old, there, ?_⟩
    rw [label, Label.inverse, Label.symbols, List.mem_pair] at symbol
    rcases symbol with rfl | rfl
    · exact Direction.generate.produced_mem old.label
    · exact Direction.analyze.produced_mem old.label

end Automaton

namespace Query

open Automaton

variable {q : Query} {word : String} {legs image : List Leg}

/-- The inverse automaton applied in the opposite direction. -/
def inverse (q : Query) : Query :=
  { q with automaton := q.automaton.inverse, direction := q.direction.opposite }

theorem output_inverse (h : Inverted legs image) :
    q.inverse.output word image = q.output word legs :=
  Direction.writes_inverse h.labels_eq (q.tokens word)

theorem result_inverse (h : Inverted legs image) :
    q.inverse.result word image = q.result word legs := by
  have options : q.inverse.options = q.options := rfl
  have cost : q.inverse.automaton.cost image = q.automaton.cost legs := h.cost_eq q.automaton
  rw [result, result, output_inverse h, options, cost]

/-- Inverse paths give results together, if both are paths to final states. -/
theorem yields_inverse_iff (h : Inverted legs image) (path : q.automaton.Accepts legs)
    (path' : q.inverse.automaton.Accepts image) :
    q.inverse.Yields word image ↔ q.Yields word legs := by
  have reads : q.inverse.direction.reads image = q.direction.reads legs :=
    Direction.reads_inverse h.labels_eq
  have tokens : q.inverse.tokens word = q.tokens word := rfl
  constructor
  · intro yields
    refine ⟨⟨path, ?_⟩, fun obey => ?_⟩
    · rw [← reads, ← tokens]
      exact yields.reads
    · rw [← output_inverse h]
      exact yields.agree obey
  · intro yields
    refine ⟨⟨path', ?_⟩, fun obey => ?_⟩
    · rw [reads, tokens]
      exact yields.reads
    · rw [output_inverse h]
      exact yields.agree obey

theorem exists_yields_inverse (yields : q.Yields word legs) :
    ∃ image, q.inverse.Yields word image ∧ q.inverse.result word image = q.result word legs := by
  obtain ⟨image, path, inverted⟩ := yields.path.inverse
  exact ⟨image, (yields_inverse_iff inverted yields.path path).mpr yields, result_inverse inverted⟩

theorem exists_yields_of_inverse (yields : q.inverse.Yields word image) :
    ∃ legs, q.Yields word legs ∧ q.result word legs = q.inverse.result word image := by
  obtain ⟨legs, path, inverted⟩ := Automaton.Accepts.of_inverse yields.path
  exact ⟨legs, (yields_inverse_iff inverted path yields.path).mp yields,
    (result_inverse inverted).symm⟩

end Query

namespace Search

/-- Searches in opposite directions through an automaton and its inverse find the same results, with
the same costs, once both have finished. -/
theorem run_inverse (q : Query) (word : String) (fit : Flag.Fit q.automaton.mentions) {k n : Nat}
    (ended : (Move.run (step q) (start q word) k).1 = none)
    (ended' : (Move.run (step q.inverse) (start q.inverse word) n).1 = none) (r : Applied) :
    r ∈ (Move.run (step q) (start q word) k).2 ↔
      r ∈ (Move.run (step q.inverse) (start q.inverse word) n).2 := by
  have fit' : Flag.Fit q.inverse.automaton.mentions := fit.mono q.automaton.mentions_inverse
  rw [mem_run_iff fit ended, mem_run_iff fit' ended']
  constructor
  · intro ⟨legs, yields, same⟩
    obtain ⟨image, yields', result⟩ := Query.exists_yields_inverse yields
    exact ⟨image, yields', result.trans same⟩
  · intro ⟨image, yields, same⟩
    obtain ⟨legs, yields', result⟩ := Query.exists_yields_of_inverse yields
    exact ⟨legs, yields', result.trans same⟩

/-- An identity and an equal pair, which are one arc of the inverse automaton. -/
theorem run_inverse_merged_arcs :
    let a : Automaton := ((Automaton.empty.addSymbols ["a"]).addState none).setFinal 1 .zero
      |>.addArc 0 ⟨1, .identity "a", .zero⟩ |>.addArc 0 ⟨1, .pair "a" "a", .zero⟩
    let q : Query := { automaton := a, direction := .analyze, options := { weights := true } }
    Flag.Fit q.automaton.mentions ∧ (Move.run (step q) (start q "a") 6).1 = none ∧
      (Move.run (step q.inverse) (start q.inverse "a") 4).1 = none ∧
      (⟨.text "a", some .zero⟩ ∈ (Move.run (step q) (start q "a") 6).2 ↔
        ⟨.text "a", some .zero⟩ ∈ (Move.run (step q.inverse) (start q.inverse "a") 4).2) := by
  intro a q
  have fit : Flag.Fit q.automaton.mentions := ⟨by decide +kernel, by decide +kernel⟩
  have ended : (Move.run (step q) (start q "a") 6).1 = none :=
    Option.isNone_iff_eq_none.mp (by decide +kernel)
  have ended' : (Move.run (step q.inverse) (start q.inverse "a") 4).1 = none :=
    Option.isNone_iff_eq_none.mp (by decide +kernel)
  exact ⟨fit, ended, ended', run_inverse q "a" fit ended ended' ⟨.text "a", some .zero⟩⟩

end Search

end Transducer
