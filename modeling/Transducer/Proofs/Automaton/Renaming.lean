import Transducer.Proofs.Automaton.Order
/-!
Automata that differ in the numbers of their states. Every reachable state has a counterpart with
the same arcs in the same order, into the counterparts of their targets; so the canonical orders
correspond place by place.
-/

namespace Transducer

namespace Arc

def moved (f : StateId → StateId) (arc : Arc) : Arc := { arc with target := f arc.target }

variable {f : StateId → StateId} {arc other : Arc}

@[simp] theorem target_moved (f : StateId → StateId) (arc : Arc) :
    (arc.moved f).target = f arc.target := rfl

@[simp] theorem label_moved (f : StateId → StateId) (arc : Arc) :
    (arc.moved f).label = arc.label := rfl

@[simp] theorem weight_moved (f : StateId → StateId) (arc : Arc) :
    (arc.moved f).weight = arc.weight := rfl

theorem sameAs_moved (inj : f arc.target = f other.target → arc.target = other.target) :
    (arc.moved f).sameAs (other.moved f) = arc.sameAs other := by
  have targets : f arc.target = f other.target ↔ arc.target = other.target :=
    ⟨inj, congrArg f⟩
  simp only [sameAs, target_moved, weight_moved, targets]

end Arc

namespace State

variable {s t : State} {f : StateId → StateId} {count more : Nat}

/-- The arcs under each label into the counterparts of their targets. -/
def movedGroups (f : StateId → StateId) (s : State) : List (Label × List Arc) :=
  s.groups.map fun g => (g.1, g.2.map (Arc.moved f))

theorem movedGroups_eq_groups (h : ∀ arc ∈ s.arcs, f arc.target = arc.target) :
    s.movedGroups f = s.groups := by
  refine (List.map_congr_left fun g hg => ?_).trans (List.map_id s.groups)
  have arcs : g.2.map (Arc.moved f) = g.2 := by
    refine (List.map_congr_left fun arc mem => ?_).trans (List.map_id g.2)
    rw [Arc.moved, h arc (mem_arcs.mpr ⟨g, hg, mem⟩)]
    rfl
  rw [arcs]
  rfl

theorem arcs_eq_of_groups (h : t.groups = s.movedGroups f) : t.arcs = s.arcs.map (Arc.moved f) := by
  rw [arcs, h, movedGroups, arcs, List.flatMap_map, List.map_flatMap]

theorem sortedArcs_eq_of_groups (h : t.groups = s.movedGroups f) :
    t.sortedArcs = s.sortedArcs.map (Arc.moved f) := by
  rw [sortedArcs, h, movedGroups, sortedArcs, List.flatMap_map, List.map_flatMap]
  refine List.flatMap_congr fun g _ => ?_
  have lighter : ∀ arc ∈ g.2, ∀ other ∈ g.2,
      arc.lighter other = (arc.moved f).lighter (other.moved f) := fun _ _ _ _ => rfl
  exact (List.map_mergeSort lighter).symm

end State

namespace Automaton

variable {a b : Automaton} {f : StateId → StateId} {id other : StateId} {arc : Arc}
  {order targets : List StateId} {count more k : Nat}

/-- The second automaton has a counterpart of every reachable state of the first. -/
structure Renaming (a b : Automaton) (f : StateId → StateId) : Prop where
  alphabet : b.alphabet = a.alphabet
  initial : b.initial = f a.initial
  injective {id other : StateId} : a.Reachable id → a.Reachable other → f id = f other → id = other
  groups {id : StateId} : a.Reachable id → (b.state (f id)).groups = (a.state id).movedGroups f
  finalWeight {id : StateId} : a.Reachable id →
    (b.state (f id)).finalWeight = (a.state id).finalWeight

namespace Renaming

section

variable (h : Renaming a b f)
include h

theorem arcs (reached : a.Reachable id) :
    (b.state (f id)).arcs = (a.state id).arcs.map (Arc.moved f) :=
  State.arcs_eq_of_groups (h.groups reached)

theorem sortedArcs (reached : a.Reachable id) :
    (b.state (f id)).sortedArcs = (a.state id).sortedArcs.map (Arc.moved f) :=
  State.sortedArcs_eq_of_groups (h.groups reached)

theorem isFinal (reached : a.Reachable id) : (b.state (f id)).isFinal = (a.state id).isFinal :=
  congrArg Weight.isFinite (h.finalWeight reached)

theorem reachable (reached : a.Reachable id) : b.Reachable (f id) := by
  refine reached.induct (P := fun id => b.Reachable (f id)) ?_ fun id arc reached there mem => ?_
  · exact h.initial ▸ b.reachable_initial
  · have image : arc.moved f ∈ (b.state (f id)).arcs := by
      rw [h.arcs reached]
      exact List.mem_map_of_mem mem
    exact there.target image

theorem sortedTargets (reached : a.Reachable id) :
    b.sortedTargets (f id) = (a.sortedTargets id).map f := by
  rw [Automaton.sortedTargets, h.sortedArcs reached, Automaton.sortedTargets, List.map_map,
    List.map_map]
  rfl

end

section

variable (h : Renaming a b f) (ha : a.Closed) (hb : b.Closed)
include h ha hb

theorem visit_map (all : ∀ id ∈ order, a.Reachable id) (reached : a.Reachable id) :
    visit b.size (order.map f) (f id) = (visit a.size order id).map f := by
  have lt := ha id reached
  have there := hb (f id) (h.reachable reached)
  have mem : f id ∈ order.map f ↔ id ∈ order := by
    refine ⟨fun image => ?_, List.mem_map_of_mem⟩
    obtain ⟨other, mem, same⟩ := List.mem_map.mp image
    exact h.injective (all other mem) reached same ▸ mem
  rw [visit, visit]
  by_cases old : id ∈ order
  · rw [if_neg fun new => new.2 (mem.mpr old), if_neg fun new => new.2 old]
  · rw [if_pos ⟨there, mt mem.mp old⟩, if_pos ⟨lt, old⟩, List.map_append, List.map_singleton]

theorem visitAll_map (all : ∀ id ∈ order, a.Reachable id)
    (reached : ∀ id ∈ targets, a.Reachable id) :
    (targets.map f).foldl (visit b.size) (order.map f) =
      (targets.foldl (visit a.size) order).map f := by
  induction targets generalizing order with
  | nil => rfl
  | cons id rest ih =>
    have here := reached id List.mem_cons_self
    rw [List.map_cons, List.foldl_cons, h.visit_map ha hb all here, List.foldl_cons]
    refine ih (fun x mem => ?_) fun x mem => reached x (List.mem_cons_of_mem id mem)
    rcases mem_visit.mp mem with old | ⟨rfl, -⟩
    · exact all x old
    · exact here

theorem orderFrom_map (swept : Swept a k order) (count : Nat) :
    b.orderFrom count k (order.map f) = (a.orderFrom count k order).map f := by
  induction count generalizing k order with
  | zero => rfl
  | succ count ih =>
    rw [orderFrom, orderFrom, List.getElem?_map]
    cases here : order[k]? with
    | none => rfl
    | some id =>
      have reached := swept.reached id (List.mem_of_getElem? here)
      have targets : ∀ n ∈ a.sortedTargets id, a.Reachable n := by
        intro n mem
        obtain ⟨arc, there, rfl⟩ := mem_sortedTargets.mp mem
        exact reached.target there
      simp only [Option.map_some]
      rw [h.sortedTargets reached, h.visitAll_map ha hb swept.reached targets]
      exact ih (swept.next here).1

end

end Renaming

/-- A sweep that has steps left has nothing left to read. -/
theorem Swept.orderFrom_add (h : Swept a k order) (enough : a.size ≤ k + count) (more : Nat) :
    a.orderFrom (count + more) k order = a.orderFrom count k order := by
  induction count generalizing k order with
  | zero =>
    have ended : order[k]? = none := List.getElem?_eq_none_iff.mpr (Nat.le_trans h.length_le enough)
    cases more with
    | zero => rfl
    | succ more => rw [Nat.zero_add, Automaton.orderFrom, Automaton.orderFrom, ended]
  | succ count ih =>
    rw [Nat.succ_add, Automaton.orderFrom, Automaton.orderFrom]
    cases here : order[k]? with
    | none => rfl
    | some id => exact ih (h.next here).1 (by omega)

namespace Renaming

variable (h : Renaming a b f) (ha : a.Closed) (hb : b.Closed)
include h ha hb

theorem canonicalOrder : b.canonicalOrder = a.canonicalOrder.map f := by
  have start : visit b.size [] b.initial = (visit a.size [] a.initial).map f := by
    rw [h.initial]
    have none : ∀ id ∈ ([] : List StateId), a.Reachable id := by simp
    exact h.visit_map ha hb none a.reachable_initial
  have here : a.orderFrom (a.size + b.size) 0 _ = a.orderFrom a.size 0 _ :=
    a.swept_start.orderFrom_add (Nat.le_add_left ..) b.size
  have there : b.orderFrom (b.size + a.size) 0 _ = b.orderFrom b.size 0 _ :=
    b.swept_start.orderFrom_add (Nat.le_add_left ..) a.size
  rw [canonicalOrder_eq, canonicalOrder_eq, ← here, ← there, start, Nat.add_comm b.size]
  exact h.orderFrom_map ha hb a.swept_start _

theorem number (reached : a.Reachable id) :
    b.canonicalNumbering.of (f id) = a.canonicalNumbering.of id := by
  have mem := ha.mem_canonicalOrder.mpr reached
  have image : f id ∈ b.canonicalOrder := by
    rw [h.canonicalOrder ha hb]
    exact List.mem_map_of_mem mem
  have place (order : List StateId) (all : ∀ id ∈ order, a.Reachable id) :
      (order.map f).idxOf (f id) = order.idxOf id := by
    induction order with
    | nil => rfl
    | cons first rest ih =>
      obtain ⟨here, later⟩ := List.forall_mem_cons.mp all
      rw [List.map_cons]
      by_cases same : first = id
      · rw [same, List.idxOf_cons_self, List.idxOf_cons_self]
      · have apart : f first ≠ f id := mt (h.injective here reached) same
        rw [List.idxOf_cons_ne _ apart, List.idxOf_cons_ne _ same, ih later]
  rw [Numbering.of, Numbering.of, number?_canonicalNumbering, number?_canonicalNumbering,
    if_pos mem, if_pos image, h.canonicalOrder ha hb,
    place _ fun id mem => ha.mem_canonicalOrder.mp mem]

end Renaming

end Automaton

end Transducer
