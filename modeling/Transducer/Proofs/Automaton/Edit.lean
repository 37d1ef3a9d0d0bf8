import Transducer.Proofs.Automaton.WellFormed
/-!
What a change does, said once: it looks up the states that it names, and if one of them is missing
it stops with the error of the first such state and nothing written. What is written when none is
missing keeps the structural invariant.
-/

namespace Transducer

namespace Edit

/-- The states that a change names, in the order in which it looks them up, each with the error that
it stops with if the state is missing. -/
def needs : Edit → List (StateId × StateError)
  | addSymbols _ | setAlphabet _ | dropUnusedSymbols | addState _ => []
  | setInitial state => [(state, .missingInitial state)]
  | setName state _ | setFinal state _ | unsetFinal state => [(state, .missingState)]
  | addArc source arc => [(arc.target, .missingTarget arc.target), (source, .missingState)]
  | removeArcsTo source _ | renameLabel source _ _ => [(source, .missingState)]

/-- What a change writes when all states that it names are there. -/
def written (a : Automaton) : Edit → Automaton
  | addSymbols symbols => a.addSymbols symbols
  | setAlphabet symbols => { a with alphabet := .ofList symbols }
  | dropUnusedSymbols => a.dropUnusedSymbols
  | setInitial state => { a with initial := state }
  | addState name => a.addState name
  | setName state name => a.modify state fun s => { s with name }
  | setFinal state weight => a.setFinal state weight
  | unsetFinal state => a.unsetFinal state
  | addArc source arc => a.addArc source arc
  | removeArcsTo source targets => a.modify source (·.removeArcsTo targets)
  | renameLabel source old new => a.modify source (·.renameLabel old new)

/-- The first state that a change does not find, with its error. -/
def missing? (a : Automaton) (e : Edit) : Option (StateId × StateError) :=
  e.needs.find? fun (state, _) => !a.contains state

end Edit

namespace Change

variable (a : Automaton) (state : StateId)

theorem run_bind {ε α β : Type} (a : Automaton) (m : ExceptT ε (StateM Automaton) α)
    (next : α → ExceptT ε (StateM Automaton) β) : (m >>= next).run.run a =
      match m.run.run a with
      | (.ok x, b) => (next x).run.run b
      | (.error e, b) => (.error e, b) := by
  simp only [bind, ExceptT.bind, ExceptT.mk, ExceptT.run, StateT.bind, StateT.run,
    ExceptT.bindCont]
  cases m a with
  | mk result b => cases result <;> rfl

theorem run_require (error : StateError) : (require state error).run.run a =
    if a.contains state then (.ok (), a) else (.error error, a) := by
  have look : (get : Change Automaton).run.run a = (.ok a, a) := rfl
  rw [require, run_bind, look]
  cases h : a.contains state <;> simp only [h] <;> rfl

theorem run_write (change : State → State) : (write state change).run.run a =
    if a.contains state then (.ok (), a.modify state change) else (.error .missingState, a) := by
  rw [write, run_bind, run_require]
  cases a.contains state <;> rfl

theorem run_unsetFinal : (unsetFinal state).run.run a =
    if a.contains state then (.ok (), a.unsetFinal state) else (.error .missingState, a) := by
  rw [unsetFinal, run_bind, run_write]
  cases a.contains state <;> rfl

theorem run_setFinal (w : Weight) : (setFinal state w).run.run a =
    if a.contains state then (.ok (), a.setFinal state w) else (.error .missingState, a) := by
  rw [setFinal, Automaton.setFinal]
  cases w.isFinite with
  | false => exact run_unsetFinal a state
  | true =>
    rw [if_pos rfl, if_pos rfl, run_bind, run_write]
    cases a.contains state <;> rfl

theorem run_addArc (arc : Arc) : (addArc state arc).run.run a =
    if a.contains arc.target then
      if a.contains state then (.ok (), a.addArc state arc) else (.error .missingState, a)
    else (.error (.missingTarget arc.target), a) := by
  rw [addArc, run_bind, run_require]
  cases a.contains arc.target with
  | false => rfl
  | true => exact run_write a state _

end Change

namespace Edit

variable {a : Automaton} {e : Edit}

/-- Nothing is written before all states are found. -/
theorem run_eq (e : Edit) (a : Automaton) : e.run a =
    match e.missing? a with
    | none => (.ok (), e.written a)
    | some (_, error) => (.error error, a) := by
  have one (state : StateId) (error : StateError) (b : Automaton) :
      (if a.contains state then (.ok (), b) else (.error error, a)) =
        match [(state, error)].find? fun (state, _) => !a.contains state with
        | none => ((.ok () : Except StateError Unit), b)
        | some (_, error) => (.error error, a) := by
    cases h : a.contains state <;> simp [h]
  cases e with
  | addSymbols | setAlphabet | dropUnusedSymbols | addState => rfl
  | setInitial state =>
    rw [run, change, Change.run_bind, Change.run_require, missing?, needs, ← one]
    cases a.contains state <;> rfl
  | setName state name => exact (Change.run_write ..).trans (one ..)
  | setFinal state w => exact (Change.run_setFinal ..).trans (one ..)
  | unsetFinal state => exact (Change.run_unsetFinal ..).trans (one ..)
  | addArc source arc =>
    rw [run, change, Change.run_addArc, missing?, needs, List.find?_cons, one]
    cases h : a.contains arc.target <;> simp only [h] <;> rfl
  | removeArcsTo source targets => exact (Change.run_write ..).trans (one ..)
  | renameLabel source old new => exact (Change.run_write ..).trans (one ..)

theorem missing?_eq_none_iff : e.missing? a = none ↔ ∀ need ∈ e.needs, need.1 < a.size := by
  rw [missing?, List.find?_eq_none]
  refine forall₂_congr fun need _ => ?_
  simp [Automaton.contains]

theorem mem_of_missing? {need : StateId × StateError} (h : e.missing? a = some need) :
    need ∈ e.needs ∧ a.size ≤ need.1 := by
  refine ⟨List.mem_of_find?_eq_some h, ?_⟩
  have gone := List.find?_some h
  simpa [Automaton.contains] using gone

end Edit

theorem Automaton.WellFormed.run {a : Automaton} (h : a.WellFormed) (e : Edit) :
    (e.run a).2.WellFormed := by
  rw [Edit.run_eq]
  cases hm : e.missing? a with
  | some => exact h
  | none =>
    have there {need : StateId × StateError} (mem : need ∈ e.needs) : need.1 < a.size :=
      Edit.missing?_eq_none_iff.mp hm need mem
    cases e with
    | addSymbols symbols => exact h.addSymbols symbols
    | setAlphabet symbols => exact h.withAlphabet _
    | dropUnusedSymbols => exact h.dropUnusedSymbols
    | setInitial state => exact h.setInitial (there (List.mem_singleton_self _))
    | addState name => exact h.addState name
    | setName state name =>
      have old := h.states state
      exact h.modifyArcs (there (List.mem_singleton_self _)) ⟨old.order, old.groups, old.final⟩ rfl
    | setFinal state w => exact h.setFinal (there (List.mem_singleton_self _)) w
    | unsetFinal state => exact h.unsetFinal (there (List.mem_singleton_self _))
    | addArc source arc =>
      exact h.addArc (there (List.mem_cons_of_mem _ (List.mem_singleton_self _)))
        (there List.mem_cons_self)
    | removeArcsTo source targets =>
      exact h.modifyArcs (there (List.mem_singleton_self _))
        ((h.states source).removeArcsTo targets) rfl
    | renameLabel source old new =>
      exact h.modifyArcs (there (List.mem_singleton_self _))
        ((h.states source).renameLabel old new) (State.isFinal_renameLabel ..)

end Transducer
