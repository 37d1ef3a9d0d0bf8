import Transducer.Automaton.Copy
import Transducer.Proofs.Automaton.Renaming
/-!
The renumbered automaton. Its states are made one after the other in canonical order, each from a
blank one to which the arcs of the original are added again; none of them is lost or merged, because
the target of a reachable state has a number and different targets have different ones.
-/

namespace Transducer

namespace State

variable {s t : State} {f : StateId → StateId} {count more : Nat} {key : Label}

/-- Arcs of one label that are not the same are added behind those that stand there. -/
theorem addArcs_group {front : List (Label × List Arc)} {old new : List Arc}
    (smaller : ∀ g ∈ front, compare key g.1 = .gt) (labelled : ∀ arc ∈ new, arc.label = key)
    (distinct : (old ++ new).Pairwise fun arc other => arc.sameAs other = false) :
    State.addArcs { t with groups := front ++ [(key, old)] } new =
      { t with groups := front ++ [(key, old ++ new)] } := by
  induction new generalizing old with
  | nil => rw [List.append_nil]; rfl
  | cons arc rest ih =>
    have label : arc.label = key := labelled arc List.mem_cons_self
    have fresh : old.any (·.sameAs arc) = false := by
      rw [List.any_eq_false]
      intro other mem
      have apart := (List.pairwise_append.mp distinct).2.2 other mem arc List.mem_cons_self
      simp [apart]
    have step : State.addArc { t with groups := front ++ [(key, old)] } arc =
        { t with groups := front ++ [(key, old ++ [arc])] } := by
      have here : Ordered.alter key (fun found => Arc.join (found.getD []) arc) [(key, old)] =
          [(key, old ++ [arc])] := by
        simp [Ordered.alter, Std.ReflCmp.compare_self, Arc.join, fresh]
      rw [State.addArc, label, Ordered.alter_append smaller, here]
    rw [State.addArcs, List.foldl_cons, step]
    have rejoin : old ++ arc :: rest = old ++ [arc] ++ rest := by simp
    rw [rejoin] at distinct ⊢
    exact ih (fun arc mem => labelled arc (List.mem_cons_of_mem _ mem)) distinct

theorem addArcs_groups (t : State) (front : List (Label × List Arc))
    {back : List (Label × List Arc)}
    (order : Ordered.Increasing ((front ++ back).map Prod.fst))
    (sound : ∀ g ∈ back, Sound count g) :
    State.addArcs { t with groups := front } (back.flatMap Prod.snd) =
      { t with groups := front ++ back } := by
  induction back generalizing front with
  | nil => rw [List.append_nil]; rfl
  | cons g rest ih =>
    obtain ⟨key, arcs⟩ := g
    obtain ⟨here, later⟩ := List.forall_mem_cons.mp sound
    have smaller : ∀ g ∈ front, compare key g.1 = .gt := by
      intro g mem
      rw [List.map_append] at order
      have less := (List.pairwise_append.mp order).2.2 g.1 (List.mem_map_of_mem mem) key
        (List.mem_map_of_mem (f := Prod.fst) (a := (key, arcs)) List.mem_cons_self)
      exact Std.OrientedCmp.gt_of_lt less
    cases arcs with
    | nil => exact absurd rfl here.filled
    | cons arc more =>
      have label : arc.label = key := here.labelled arc List.mem_cons_self
      have begun : State.addArc { t with groups := front } arc =
          { t with groups := front ++ [(key, [arc])] } := by
        have all : Ordered.alter key (fun found => Arc.join (found.getD []) arc) (front ++ []) = _ :=
          Ordered.alter_append smaller []
        rw [List.append_nil] at all
        rw [State.addArc, label, all]
        rfl
      have grouped : State.addArcs { t with groups := front ++ [(key, [arc])] } more =
          { t with groups := front ++ [(key, [arc] ++ more)] } :=
        addArcs_group smaller (fun arc mem => here.labelled arc (List.mem_cons_of_mem _ mem))
          here.distinct
      have rejoin : front ++ (key, arc :: more) :: rest =
          front ++ [(key, arc :: more)] ++ rest := by simp
      rw [List.flatMap_cons, State.addArcs, List.foldl_append, List.foldl_cons, begun]
      rw [rejoin] at order ⊢
      exact (congrArg (State.addArcs · (rest.flatMap Prod.snd)) grouped).trans (ih _ order later)

theorem WellFormed.moved (h : s.WellFormed count)
    (inj : ∀ arc ∈ s.arcs, ∀ other ∈ s.arcs, f arc.target = f other.target →
      arc.target = other.target)
    (inside : ∀ arc ∈ s.arcs, f arc.target < more) (name : Option String) :
    State.WellFormed more { s with groups := s.movedGroups f, name } := by
  refine ⟨?_, fun g hg => ?_, h.final⟩
  · have keys : (s.movedGroups f).map Prod.fst = s.groups.map Prod.fst := by
      rw [movedGroups, List.map_map]
      rfl
    exact keys ▸ h.order
  · obtain ⟨⟨key, arcs⟩, there, rfl⟩ := List.mem_map.mp hg
    have sound := h.groups _ there
    have among {arc : Arc} (mem : arc ∈ arcs) : arc ∈ s.arcs := mem_arcs.mpr ⟨_, there, mem⟩
    refine ⟨mt List.map_eq_nil_iff.mp sound.filled, fun arc mem => ?_, fun arc mem => ?_, ?_⟩
    · obtain ⟨old, here, rfl⟩ := List.mem_map.mp mem
      exact sound.labelled old here
    · obtain ⟨old, here, rfl⟩ := List.mem_map.mp mem
      exact inside old (among here)
    · refine List.pairwise_map.mpr (sound.distinct.imp_of_mem fun hx hy apart => ?_)
      rw [Arc.sameAs_moved (inj _ (among hx) _ (among hy))]
      exact apart

end State

namespace Automaton

variable {a b copy : Automaton} {id other : StateId} {done rest : List StateId} {n : Nat}

theorem modify_modify (a : Automaton) (id : StateId) (first second : State → State) :
    (a.modify id first).modify id second = a.modify id fun s => second (first s) := by
  have states : (a.states.modify id first).modify id second =
      a.states.modify id fun s => second (first s) := by
    apply Array.ext_getElem?
    intro n
    rw [Array.getElem?_modify, Array.getElem?_modify, Array.getElem?_modify]
    split
    · rw [Option.map_map]
      rfl
    · rfl
  rw [modify, modify, modify, states]

theorem foldl_addArc (a : Automaton) (id : StateId) (arcs : List Arc) :
    arcs.foldl (fun a arc => a.addArc id arc) a = a.modify id (·.addArcs arcs) := by
  induction arcs generalizing a with
  | nil =>
    have states : a.states.modify id (·.addArcs []) = a.states := by
      apply Array.ext_getElem?
      intro n
      rw [Array.getElem?_modify]
      split
      · exact Option.map_id'
      · rfl
    rw [List.foldl_nil, modify, states]
  | cons arc rest ih =>
    rw [List.foldl_cons, ih, addArc, modify_modify]
    rfl

/-- A state is determined by what a well-formed automaton has of it. -/
theorem WellFormed.ext (ha : a.WellFormed) (hb : b.WellFormed) (alphabet : a.alphabet = b.alphabet)
    (initial : a.initial = b.initial) (size : a.size = b.size)
    (states : ∀ id < a.size, a.state id = b.state id) : a = b := by
  have all (id : StateId) : a.state id = b.state id := by
    by_cases lt : id < a.size
    · exact states id lt
    · have missing := Nat.le_of_not_lt lt
      rw [state_of_size_le missing, state_of_size_le (size ▸ missing)]
  have arrays : a.states = b.states := by
    refine Array.ext size fun id here there => ?_
    have same := all id
    rwa [state_eq, state_eq, Array.getElem?_eq_getElem here, Array.getElem?_eq_getElem there]
      at same
  have finals : a.finals = b.finals := ha.ascending.ext hb.ascending fun id => by
    rw [ha.finals, hb.finals, isFinal, isFinal, all]
  cases a
  cases b
  simp_all

/-- The copy of a state under its number. -/
def copiedState (a : Automaton) (id : StateId) (n : Nat) : State :=
  { a.state id with
    groups := (a.state id).movedGroups a.canonicalNumbering.of
    name := some (toString n) }

theorem WellFormed.copiedState (ha : a.WellFormed) (reached : a.Reachable id) (n : Nat) :
    (a.copiedState id n).WellFormed a.canonicalOrder.length :=
  (ha.states id).moved
    (fun _ mem _ there => ha.closed.number_inj (reached.target mem) (reached.target there))
    (fun _ mem => ha.closed.number_lt (reached.target mem)) _

/-- The copy when some states have been copied and the others are blank. -/
structure Copied (a : Automaton) (done : List StateId) (copy : Automaton) : Prop where
  wellFormed : copy.WellFormed
  alphabet : copy.alphabet = a.alphabet
  initial : copy.initial = 0
  size : copy.size = a.canonicalOrder.length
  states : ∀ n < copy.size, copy.state n =
    match done[n]? with
    | some id => a.copiedState id n
    | none => State.named (toString n)

/-- The copy of an automaton when the final weight of a state has been copied, and no arcs yet. -/
def copyFinal (a copy : Automaton) (id : StateId) (n : Nat) : Automaton :=
  if (a.state id).isFinal then copy.setFinal n (a.state id).finalWeight else copy

theorem size_copyFinal (a copy : Automaton) (id : StateId) (n : Nat) :
    (a.copyFinal copy id n).size = copy.size := by
  rw [copyFinal]
  split
  · exact size_setFinal ..
  · rfl

theorem initial_copyFinal (a copy : Automaton) (id : StateId) (n : Nat) :
    (a.copyFinal copy id n).initial = copy.initial := by
  rw [copyFinal]
  split
  · exact initial_setFinal ..
  · rfl

theorem alphabet_copyFinal (a copy : Automaton) (id : StateId) (n : Nat) :
    (a.copyFinal copy id n).alphabet = copy.alphabet := by
  rw [copyFinal]
  split
  · exact alphabet_setFinal ..
  · rfl

theorem WellFormed.copyFinal (h : copy.WellFormed) {n : Nat} (lt : n < copy.size) (a : Automaton)
    (id : StateId) : (a.copyFinal copy id n).WellFormed := by
  rw [Automaton.copyFinal]
  split
  · exact h.setFinal lt _
  · exact h

theorem state_copyFinal {n : Nat} (lt : n < copy.size) (a : Automaton) (id k : StateId) :
    (a.copyFinal copy id n).state k = if k = n
      then if (a.state id).isFinal
        then { copy.state n with finalWeight := (a.state id).finalWeight }
        else copy.state n
      else copy.state k := by
  rw [copyFinal]
  split
  · next final => exact state_setFinal lt final k
  · split
    · next same => rw [same]
    · rfl

theorem copyState_eq (ha : a.WellFormed) (reached : a.Reachable id) (copy : Automaton) (n : Nat) :
    a.copyState a.canonicalNumbering copy id n = (a.copyFinal copy id n).modify n
      (·.addArcs ((a.state id).arcs.map (Arc.moved a.canonicalNumbering.of))) := by
  rw [← foldl_addArc, List.foldl_map, copyState]
  refine List.foldl_ext _ _ _ fun copy arc mem => ?_
  rw [ha.closed.number?_eq (reached.target mem)]
  rfl

section Step

variable (ha : a.WellFormed) (h : Copied a done copy) (reached : a.Reachable id)
  (room : done.length < copy.size)
include ha h reached room

/-- The state that is copied to is blank. -/
theorem Copied.copied_eq :
    State.addArcs (if (a.state id).isFinal
        then { copy.state done.length with finalWeight := (a.state id).finalWeight }
        else copy.state done.length)
      ((a.state id).arcs.map (Arc.moved a.canonicalNumbering.of)) =
    a.copiedState id done.length := by
  have blank := h.states _ room
  rw [List.getElem?_eq_none (Nat.le_refl _)] at blank
  have sound := ha.copiedState reached done.length
  have final : (if (a.state id).isFinal
      then { copy.state done.length with finalWeight := (a.state id).finalWeight }
      else copy.state done.length) =
      { finalWeight := (a.state id).finalWeight, name := some (toString done.length) } := by
    rw [blank]
    split
    · rfl
    · next other =>
      rcases (ha.states id).final with finite | infinite
      · exact absurd finite other
      · rw [infinite]
        rfl
  have arcs : (a.state id).arcs.map (Arc.moved a.canonicalNumbering.of) =
      (a.copiedState id done.length).arcs := (State.arcs_eq_of_groups rfl).symm
  rw [final, arcs, State.arcs]
  exact State.addArcs_groups (a.copiedState id done.length) [] sound.order sound.groups

theorem Copied.step :
    Copied a (done ++ [id]) (a.copyState a.canonicalNumbering copy id done.length) := by
  have size := size_copyFinal a copy id done.length
  have place : done.length < (a.copyFinal copy id done.length).size := size ▸ room
  have here : State.addArcs ((a.copyFinal copy id done.length).state done.length)
      ((a.state id).arcs.map (Arc.moved a.canonicalNumbering.of)) =
      a.copiedState id done.length := by
    rw [state_copyFinal room, if_pos rfl]
    exact h.copied_eq ha reached room
  rw [copyState_eq ha reached]
  refine ⟨(h.wellFormed.copyFinal room a id).modifyArcs place ?_ ?_, ?_, ?_, ?_, fun n lt => ?_⟩
  · rw [here, size, h.size]
    exact ha.copiedState reached _
  · exact congrArg Weight.isFinite (State.finalWeight_addArcs ..)
  · exact (alphabet_copyFinal ..).trans h.alphabet
  · exact (initial_copyFinal ..).trans h.initial
  · exact (size_modify ..).trans (size.trans h.size)
  · rw [size_modify, size] at lt
    rw [state_modify place, here, state_copyFinal room]
    by_cases same : n = done.length
    · subst same
      simp
    · rw [if_neg same, if_neg same, getElem?_snoc_of_ne same]
      exact h.states n lt

end Step

theorem WellFormed.initial_mem (ha : a.WellFormed) : a.initial ∈ a.canonicalOrder :=
  ha.mem_canonicalOrder.mpr a.reachable_initial

theorem copied_start (ha : a.WellFormed) :
    Copied a [] { alphabet := a.alphabet
                  states := ((List.range a.canonicalOrder.length).map fun n =>
                    State.named (toString n)).toArray } := by
  let blank : Automaton := { alphabet := a.alphabet
                             states := ((List.range a.canonicalOrder.length).map fun n =>
                               State.named (toString n)).toArray }
  have size : blank.size = a.canonicalOrder.length := by simp [blank, Automaton.size]
  have some : 0 < blank.size := size ▸ List.length_pos_of_mem ha.initial_mem
  have states (n : Nat) (lt : n < blank.size) : blank.state n = State.named (toString n) := by
    rw [size] at lt
    simp [blank, state_eq, lt]
  refine ⟨wellFormed_of_blank some fun s mem => ?_, rfl, rfl, size, states⟩
  obtain ⟨n, -, rfl⟩ := List.mem_map.mp (List.mem_toArray.mp mem)
  exact ⟨_, rfl⟩

theorem Copied.all (ha : a.WellFormed) (h : Copied a done copy)
    (split : a.canonicalOrder = done ++ rest) :
    Copied a a.canonicalOrder ((rest.zipIdx done.length).foldl
      (fun copy (id, n) => a.copyState a.canonicalNumbering copy id n) copy) := by
  induction rest generalizing done copy with
  | nil =>
    rw [List.append_nil] at split
    exact split ▸ h
  | cons id rest ih =>
    have mem : id ∈ a.canonicalOrder := by
      rw [split]
      exact List.mem_append_right _ List.mem_cons_self
    have room : done.length < copy.size := by
      rw [h.size, split, List.length_append, List.length_cons]
      omega
    have step := h.step ha (ha.mem_canonicalOrder.mp mem) room
    have next := ih step (by rw [split, List.append_assoc]; rfl)
    rwa [List.length_append, List.length_singleton] at next

theorem copied_renumbered (ha : a.WellFormed) : Copied a a.canonicalOrder a.renumbered :=
  (copied_start ha).all ha (List.nil_append _).symm

section Renumbered

variable (ha : a.WellFormed)
include ha

theorem WellFormed.renumbered : a.renumbered.WellFormed := (copied_renumbered ha).wellFormed

theorem WellFormed.size_renumbered : a.renumbered.size = a.canonicalOrder.length :=
  (copied_renumbered ha).size

theorem WellFormed.state_renumbered {n : Nat} (h : a.canonicalOrder[n]? = some id) :
    a.renumbered.state n = a.copiedState id n := by
  have lt := (List.getElem?_eq_some_iff.mp h).1
  have state := (copied_renumbered ha).states n (ha.size_renumbered ▸ lt)
  rwa [h] at state

/-- The copy has the counterparts of all reachable states, under their numbers. -/
theorem WellFormed.renaming_renumbered : Renaming a a.renumbered a.canonicalNumbering.of := by
  have place {id : StateId} (reached : a.Reachable id) :
      a.canonicalOrder[a.canonicalNumbering.of id]? = some id := ha.closed.getElem?_number reached
  refine ⟨(copied_renumbered ha).alphabet, ?_, fun here there => ha.closed.number_inj here there,
    fun reached => ?_, fun reached => ?_⟩
  · obtain ⟨rest, start⟩ := a.swept_canonicalOrder.2
    rw [(copied_renumbered ha).initial, ha.closed.number_eq a.reachable_initial, ← start,
      ha.visit_initial]
    exact (List.idxOf_cons_self ..).symm
  · rw [ha.state_renumbered (place reached)]
    rfl
  · rw [ha.state_renumbered (place reached)]
    rfl

theorem WellFormed.canonicalOrder_renumbered :
    a.renumbered.canonicalOrder = List.range a.canonicalOrder.length := by
  rw [ha.renaming_renumbered.canonicalOrder ha.closed ha.renumbered.closed]
  refine List.ext_getElem (by simp) fun n here there => ?_
  have lt : n < a.canonicalOrder.length := by simpa using here
  rw [List.getElem_map, List.getElem_range]
  exact ha.closed.number_getElem lt

theorem WellFormed.renumbered_renumbered : a.renumbered.renumbered = a.renumbered := by
  have hr := ha.renumbered
  have order := ha.canonicalOrder_renumbered
  have size : a.renumbered.renumbered.size = a.renumbered.size := by
    rw [hr.size_renumbered, order, List.length_range, ha.size_renumbered]
  refine hr.renumbered.ext hr (copied_renumbered hr).alphabet ?_ size fun n lt => ?_
  · rw [(copied_renumbered hr).initial, (copied_renumbered ha).initial]
  · have small : n < a.canonicalOrder.length := by rwa [size, ha.size_renumbered] at lt
    have here : a.renumbered.canonicalOrder[n]? = some n := by
      rw [order, List.getElem?_range small]
    have there : a.canonicalOrder[n]? = some a.canonicalOrder[n] := List.getElem?_eq_getElem small
    have reached := hr.mem_canonicalOrder.mp (List.mem_of_getElem? here)
    -- numbers are places, and every state of the copy stands in its own
    have fixed (id : StateId) (reached : a.renumbered.Reachable id) :
        a.renumbered.canonicalNumbering.of id = id := by
      have mem := hr.mem_canonicalOrder.mpr reached
      rw [order, List.mem_range] at mem
      have own := List.nodup_range.idxOf_getElem id (by rwa [List.length_range])
      rw [List.getElem_range] at own
      rw [hr.closed.number_eq reached, order, own]
    have same : (a.renumbered.state n).movedGroups a.renumbered.canonicalNumbering.of =
        (a.renumbered.state n).groups :=
      State.movedGroups_eq_groups fun arc mem => fixed _ (reached.target mem)
    rw [hr.state_renumbered here, Automaton.copiedState, same, ha.state_renumbered there]
    rfl

end Renumbered

end Automaton

end Transducer
