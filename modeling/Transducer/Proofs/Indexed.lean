import Mathlib.Data.List.Basic
import Transducer.Indexed
import Transducer.Proofs.Automaton.WellFormed
/-!
Kept indices are always current. Each index that a state keeps is the one of its present arcs: a
change to the arcs drops both of them, and whatever leaves them in place leaves the arcs as they
are. So what is answered does not depend on what has been asked before, nor on which states are
copies.
-/

namespace Transducer

namespace State

variable {s : State} {arc : Arc} {arcs : List Arc} {l : Label}

/-- The groups are in order, and under each label stand arcs of that label. -/
def Tabled (s : State) : Prop := ∃ count, WellFormed count { groups := s.groups }

theorem tabled_blank (name : Option String) : Tabled { name } := ⟨0, wellFormed_blank 0 none⟩

theorem Tabled.addArc (h : s.Tabled) (arc : Arc) : (s.addArc arc).Tabled := by
  obtain ⟨count, formed⟩ := h
  have room := formed.mono (Nat.le_max_left count (arc.target + 1))
  have inside : arc.target < max count (arc.target + 1) :=
    Nat.lt_of_lt_of_le (Nat.lt_succ_self _) (Nat.le_max_right ..)
  exact ⟨_, room.addArc inside⟩

theorem Tabled.removeArcsTo (h : s.Tabled) (targets : List StateId) :
    (s.removeArcsTo targets).Tabled := by
  obtain ⟨count, formed⟩ := h
  exact ⟨count, formed.removeArcsTo targets⟩

theorem Tabled.renameLabel (h : s.Tabled) (old new : Label) : (s.renameLabel old new).Tabled := by
  obtain ⟨count, formed⟩ := h
  have groups : (State.renameLabel { groups := s.groups } old new).groups =
      (s.renameLabel old new).groups := by
    rw [State.renameLabel, State.renameLabel]
    cases s.groups.lookup old <;> rfl
  have renamed := formed.renameLabel old new
  refine ⟨count, groups ▸ renamed.order, groups ▸ renamed.groups, .inr rfl⟩

/-- The index gathers the arcs one by one. -/
theorem Tabled.indexBy_eq_group (h : s.Tabled) (side : Label → Symbol) :
    s.indexBy side = Ordered.group (fun arc => side arc.label) s.arcs := by
  obtain ⟨count, formed⟩ := h
  let gather (table : SymbolIndex) (arc : Arc) : SymbolIndex :=
    Ordered.alter (side arc.label) (fun found => found.getD [] ++ [arc]) table
  -- the arcs of one label come under one symbol, so they can be added in one go
  have one (g : Label × List Arc) (sound : Sound count g) (table : SymbolIndex) :
      Ordered.alter (side g.1) (fun found => found.getD [] ++ g.2) table =
        g.2.foldl gather table := by
    rw [← Ordered.foldl_alter_append sound.filled]
    refine List.foldl_ext _ _ _ fun table arc mem => ?_
    rw [← sound.labelled arc mem]
  rw [indexBy, Ordered.group, arcs, List.foldl_flatMap]
  exact List.foldl_ext _ _ _ fun table g mem => one g (formed.groups g mem) table

end State

/-- The first symbol of a label, or the last one. -/
def Side.of : Side → Label → Symbol
  | input => Label.input
  | output => Label.output

/-- The index lists arcs under the symbols of one side of their labels: the keys are in order, a
symbol is a key if and only if an arc has it, and under it stand just the arcs that have it, in
their order. -/
structure SymbolIndex.Lists (index : SymbolIndex) (side : Side) (arcs : List Arc) : Prop where
  order : Ordered.Increasing (index.map Prod.fst)
  keys : ∀ symbol, symbol ∈ index.map Prod.fst ↔ ∃ arc ∈ arcs, side.of arc.label = symbol
  entries : ∀ entry ∈ index, entry.2 = arcs.filter fun arc => side.of arc.label = entry.1

theorem State.Tabled.lists_arcsBy {s : State} (h : s.Tabled) (side : Side) :
    SymbolIndex.Lists (s.arcsBy side) side s.arcs := by
  have index : s.arcsBy side = s.indexBy side.of := by cases side <;> rfl
  rw [index, h.indexBy_eq_group]
  let key (arc : Arc) : Symbol := side.of arc.label
  have entry (symbol : Symbol) (found : List Arc) : (symbol, found) ∈ Ordered.group key s.arcs ↔
      found ≠ [] ∧ found = s.arcs.filter fun arc => key arc = symbol :=
    Ordered.mem_group_iff key
  refine ⟨Ordered.increasing_group key s.arcs, fun symbol => ?_, fun e mem => ?_⟩
  · constructor
    · intro mem
      obtain ⟨⟨_, found⟩, there, rfl⟩ := List.mem_map.mp mem
      obtain ⟨some, rfl⟩ := (entry _ found).mp there
      obtain ⟨arc, listed⟩ := List.exists_mem_of_ne_nil _ some
      obtain ⟨mem, same⟩ := List.mem_filter.mp listed
      exact ⟨arc, mem, of_decide_eq_true same⟩
    · rintro ⟨arc, mem, rfl⟩
      have listed : arc ∈ s.arcs.filter fun other => key other = key arc :=
        List.mem_filter.mpr ⟨mem, decide_eq_true rfl⟩
      exact List.mem_map.mpr ⟨_, (entry (key arc) _).mpr ⟨List.ne_nil_of_mem listed, rfl⟩, rfl⟩
  · exact ((entry e.1 e.2).mp mem).2

namespace IndexedState

variable {s : IndexedState} {side other : Side} {index : SymbolIndex}

/-- A change to a state. -/
inductive Write where
  | addArc (arc : Arc)
  | removeArcsTo (targets : List StateId)
  | renameLabel (old new : Label)
  | setName (name : Option String)
  | setFinalWeight (weight : Weight)
  deriving DecidableEq, Repr

namespace Write

def run (s : IndexedState) : Write → IndexedState
  | addArc arc => s.addArc arc
  | removeArcsTo targets => s.removeArcsTo targets
  | renameLabel old new => s.renameLabel old new
  | setName name => s.setName name
  | setFinalWeight weight => s.setFinalWeight weight

/-- The change to a state that keeps no indices. -/
def plain (s : State) : Write → State
  | addArc arc => s.addArc arc
  | removeArcsTo targets => s.removeArcsTo targets
  | renameLabel old new => s.renameLabel old new
  | setName name => { s with name }
  | setFinalWeight weight => { s with finalWeight := weight }

theorem state_run (w : Write) (s : IndexedState) : (w.run s).state = w.plain s.state := by
  cases w with
  | renameLabel old new =>
    rw [run, plain, IndexedState.renameLabel]
    cases found : s.state.groups.lookup old with
    | none => rw [State.renameLabel, found]
    | some moved => rfl
  | _ => rfl

end Write

/-- The indices that a state keeps are those of its arcs. -/
structure Coherent (s : IndexedState) : Prop where
  tabled : s.state.Tabled
  current : ∀ side, ∀ index ∈ s.kept? side, index = s.state.arcsBy side

/-- A state without indices. -/
theorem coherent_bare {s : State} (h : s.Tabled) : Coherent { state := s } :=
  ⟨h, fun side _ none => by cases side <;> cases none⟩

theorem kept?_keep (s : IndexedState) (index : SymbolIndex) (side other : Side) :
    (s.keep index side).kept? other = if other = side then some index else s.kept? other := by
  cases side <;> cases other <;> rfl

@[simp] theorem state_keep (s : IndexedState) (index : SymbolIndex) (side : Side) :
    (s.keep index side).state = s.state := by
  cases side <;> rfl

namespace Coherent

/-- What leaves the groups as they are need not touch the indices. -/
theorem withState (h : s.Coherent) {t : State} (same : t.groups = s.state.groups) :
    Coherent { s with state := t } := by
  obtain ⟨count, formed⟩ := h.tabled
  refine ⟨⟨count, same ▸ formed⟩, fun side index mem => ?_⟩
  have kept : kept? { s with state := t } side = s.kept? side := by cases side <;> rfl
  have index_same : t.arcsBy side = s.state.arcsBy side := by
    cases side <;> exact congrArg (fun groups => State.indexBy _ { groups }) same
  rw [index_same]
  exact h.current side index (kept ▸ mem)

theorem write (h : s.Coherent) (w : Write) : (w.run s).Coherent := by
  cases w with
  | addArc arc => exact coherent_bare (h.tabled.addArc arc)
  | removeArcsTo targets => exact coherent_bare (h.tabled.removeArcsTo targets)
  | renameLabel old new =>
    rw [Write.run, renameLabel]
    cases s.state.groups.lookup old with
    | none => exact h
    | some moved => exact coherent_bare (h.tabled.renameLabel old new)
  | setName name => exact h.withState rfl
  | setFinalWeight weight => exact h.withState rfl

/-- Asking gives the index of the present arcs, and keeps no other. -/
theorem ask (h : s.Coherent) (side : Side) :
    (s.index side).1 = s.state.arcsBy side ∧ (s.index side).2.state = s.state ∧
      (s.index side).2.Coherent := by
  rw [IndexedState.index]
  cases kept : s.kept? side with
  | some index => exact ⟨h.current side index kept, rfl, h⟩
  | none =>
    refine ⟨rfl, state_keep .., (state_keep ..).symm ▸ h.tabled, fun other index mem => ?_⟩
    rw [kept?_keep] at mem
    rw [state_keep]
    split at mem
    · next same =>
      rw [same]
      exact (Option.some.inj mem).symm
    · exact h.current other index mem

end Coherent

/-- A call on one of several states, which are told by their places: a new state, a change, a copy
behind all others, or a question. -/
inductive Call where
  | make (name : Option String)
  | write (place : Nat) (w : Write)
  | clone (place : Nat)
  | ask (place : Nat) (side : Side)
  deriving DecidableEq, Repr

namespace Call

/-- The states after a call, and the answer to a question. -/
def run (states : List IndexedState) : Call → List IndexedState × Option SymbolIndex
  | make name => (states ++ [{ state := { name } }], none)
  | write place w => (states.modify place (Write.run · w), none)
  | clone place => (states ++ states[place]?.toList, none)
  | ask place side =>
    match states[place]? with
    | none => (states, none)
    | some s =>
      let (index, s) := s.index side
      (states.set place s, some index)

/-- What a call does to states that keep no indices: nothing if it is a question. -/
def plain (states : List State) : Call → List State
  | make name => states ++ [{ name }]
  | write place w => states.modify place (Write.plain · w)
  | clone place => states ++ states[place]?.toList
  | ask _ _ => states

end Call

/-- The first states keep indices, all of them current, and are otherwise the second ones. -/
structure Follows (states : List IndexedState) (plain : List State) : Prop where
  same : states.map IndexedState.state = plain
  coherent : ∀ s ∈ states, s.Coherent

namespace Follows

variable {states : List IndexedState} {plain : List State}

theorem append (h : Follows states plain) {more : List IndexedState}
    (coherent : ∀ s ∈ more, s.Coherent) :
    Follows (states ++ more) (plain ++ more.map IndexedState.state) := by
  refine ⟨by rw [List.map_append, h.same], fun s mem => ?_⟩
  rcases List.mem_append.mp mem with old | new
  · exact h.coherent s old
  · exact coherent s new

theorem getElem? (h : Follows states plain) (place : Nat) :
    plain[place]? = states[place]?.map IndexedState.state := by
  rw [← h.same, List.getElem?_map]

theorem set (h : Follows states plain) (place : Nat) {s : IndexedState} (coherent : s.Coherent) :
    Follows (states.set place s) (plain.set place s.state) := by
  refine ⟨by rw [List.map_set, h.same], fun t mem => ?_⟩
  rcases List.mem_or_eq_of_mem_set mem with old | rfl
  · exact h.coherent t old
  · exact coherent

theorem run (h : Follows states plain) (c : Call) : Follows (c.run states).1 (c.plain plain) := by
  cases c with
  | make name =>
    exact h.append fun s mem => List.mem_singleton.mp mem ▸ coherent_bare (State.tabled_blank name)
  | write place w =>
    rw [Call.run, Call.plain, List.modify_eq_set_getElem?, List.modify_eq_set_getElem?, h.getElem?]
    cases found : states[place]? with
    | none => exact h
    | some s =>
      have written := (h.coherent s (List.mem_of_getElem? found)).write w
      have next := h.set place written
      rw [w.state_run s] at next
      exact next
  | clone place =>
    rw [Call.run, Call.plain, h.getElem?, Option.toList_map]
    refine h.append fun s mem => h.coherent s ?_
    exact List.mem_of_getElem? (Option.mem_toList.mp mem)
  | ask place side =>
    rw [Call.run, Call.plain]
    cases found : states[place]? with
    | none => exact h
    | some s =>
      obtain ⟨-, state, coherent⟩ := (h.coherent s (List.mem_of_getElem? found)).ask side
      have next := h.set place coherent
      have there := h.getElem? place
      rw [found] at there
      obtain ⟨lt, here⟩ := List.getElem?_eq_some_iff.mp there
      rw [state, ← here, List.set_getElem_self] at next
      exact next

theorem runAll (h : Follows states plain) (calls : List Call) :
    Follows (calls.foldl (fun states c => (c.run states).1) states)
      (calls.foldl Call.plain plain) := by
  induction calls generalizing states plain with
  | nil => exact h
  | cons c rest ih => exact ih (h.run c)

/-- A question is answered from the arcs that the state has now. -/
theorem ask (h : Follows states plain) (place : Nat) (side : Side) :
    Option.Rel (fun index s => SymbolIndex.Lists index side s.arcs)
      ((Call.ask place side).run states).2 plain[place]? := by
  rw [Call.run, h.getElem?]
  cases found : states[place]? with
  | none => exact .none
  | some s =>
    have coherent := h.coherent s (List.mem_of_getElem? found)
    have answer : (s.index side).1 = s.state.arcsBy side := (coherent.ask side).1
    have lists := coherent.tabled.lists_arcsBy side
    rw [← answer] at lists
    exact .some lists

end Follows

/-- Whatever states are made, changed, copied and asked for their indices, every answer is the index
of the arcs that the state has at that moment, and the states are those that keep no indices. -/
theorem index_current (calls : List Call) :
    let states := calls.foldl (fun states c => (c.run states).1) []
    let plain := calls.foldl Call.plain []
    states.map IndexedState.state = plain ∧ ∀ place side,
      Option.Rel (fun index s => SymbolIndex.Lists index side s.arcs)
        ((Call.ask place side).run states).2 plain[place]? := by
  intro states plain
  have start : Follows [] [] := ⟨rfl, fun s none => absurd none List.not_mem_nil⟩
  have follows : Follows states plain := start.runAll calls
  exact ⟨follows.same, follows.ask⟩

/-- A copy keeps the index that was asked for, the original drops it with its old label. -/
example :
    let a : Label := .identity "a"
    let states := [.make none, .write 0 (.addArc ⟨0, a, .zero⟩), .ask 0 .input, .clone 0,
      .write 0 (.renameLabel a (.identity "b"))].foldl (fun states c => (Call.run states c).1) []
    let keys (place : Nat) : Option (List Symbol) :=
      ((Call.ask place .input).run states).2.map fun index => index.map Prod.fst
    keys 0 = some ["b"] ∧ keys 1 = some ["a"] := by
  decide +kernel

end IndexedState

end Transducer
