import Transducer.Automaton.Basic
/-!
How edits change the states of an automaton.
-/

namespace Transducer.Automaton

variable {a : Automaton} {id source : StateId} {arc : Arc}

theorem state_eq (a : Automaton) (id : StateId) : a.state id = a.states[id]?.getD {} :=
  Array.getD_eq_getD_getElem?

/-- A state that is missing has no arcs and is not final. -/
theorem state_cases (a : Automaton) (id : StateId) : a.state id ∈ a.states ∨ a.state id = {} := by
  rw [state_eq]
  cases h : a.states[id]? with
  | none => exact .inr rfl
  | some s => exact .inl (Array.mem_of_getElem? h)

theorem state_empty (id : StateId) : empty.state id = {} := by
  rcases empty.state_cases id with there | missing
  · exact List.mem_singleton.mp (Array.mem_def.mp there)
  · exact missing

theorem state_of_size_le (h : a.size ≤ id) : a.state id = {} := by
  rw [state_eq, Array.getElem?_eq_none h]
  rfl

theorem lt_size_of_mem (h : arc ∈ (a.state id).arcs) : id < a.size := by
  apply Nat.lt_of_not_le
  intro missing
  rw [state_of_size_le missing] at h
  exact absurd h List.not_mem_nil

@[simp] theorem size_addState (a : Automaton) (name : Option String) :
    (a.addState name).size = a.size + 1 := Array.size_push ..

@[simp] theorem size_addArc (a : Automaton) (source : StateId) (arc : Arc) :
    (a.addArc source arc).size = a.size := Array.size_modify

theorem state_addState (a : Automaton) (name : Option String) (id : StateId) :
    (a.addState name).state id = if id = a.size then { name } else a.state id := by
  rw [state_eq, state_eq, addState, Array.getElem?_push, size]
  by_cases last : id = a.states.size
  · rw [if_pos last, if_pos last]
    rfl
  · rw [if_neg last, if_neg last]

theorem state_modify (h : source < a.size) (change : State → State) (id : StateId) :
    (a.modify source change).state id =
      if id = source then change (a.state source) else a.state id := by
  rw [state_eq, state_eq, state_eq, modify, Array.getElem?_modify]
  by_cases same : source = id
  · subst same
    have there : a.states[source]? = some a.states[source] := Array.getElem?_eq_getElem h
    simp [there]
  · simp [same, Ne.symm same]

/-- Changing all states changes each of them, if it leaves a missing state as it is. -/
theorem state_mapStates {change : State → State} (blank : change {} = {}) (id : StateId) :
    Automaton.state { a with states := a.states.map change } id = change (a.state id) := by
  rw [state_eq, state_eq, Array.getElem?_map]
  cases a.states[id]? with
  | none => exact blank.symm
  | some s => rfl

theorem state_addArc (h : source < a.size) (arc : Arc) (id : StateId) :
    (a.addArc source arc).state id =
      if id = source then (a.state source).addArc arc else a.state id :=
  state_modify h (·.addArc arc) id

@[simp] theorem size_setFinal (a : Automaton) (id : StateId) (w : Weight) :
    (a.setFinal id w).size = a.size := by
  rw [setFinal]
  split
  · exact Array.size_modify
  · exact Array.size_modify

@[simp] theorem initial_setFinal (a : Automaton) (id : StateId) (w : Weight) :
    (a.setFinal id w).initial = a.initial := by
  rw [setFinal]
  split <;> rfl

@[simp] theorem alphabet_setFinal (a : Automaton) (id : StateId) (w : Weight) :
    (a.setFinal id w).alphabet = a.alphabet := by
  rw [setFinal]
  split <;> rfl

/-- A weight that is not finite makes the final weight infinite. -/
theorem state_setFinal_cases (h : source < a.size) (w : Weight) (id : StateId) :
    (a.setFinal source w).state id =
      if id = source then { a.state source with finalWeight := if w.isFinite then w else .infinity }
      else a.state id := by
  rw [setFinal]
  split
  · exact state_modify h _ id
  · exact state_modify h _ id

theorem state_setFinal (h : source < a.size) {w : Weight} (finite : w.isFinite = true)
    (id : StateId) : (a.setFinal source w).state id =
      if id = source then { a.state source with finalWeight := w } else a.state id := by
  rw [state_setFinal_cases h, if_pos finite]

theorem isFinal_iff_of_finals {last : StateId} (finals : ∀ id, (a.state id).finalWeight =
    if id = last then .zero else .infinity) : a.isFinal id = true ↔ id = last := by
  rw [isFinal, State.isFinal, finals]
  split
  · next same => simp only [same, iff_true]; decide
  · next other => simp only [other, iff_false]; decide

end Transducer.Automaton
