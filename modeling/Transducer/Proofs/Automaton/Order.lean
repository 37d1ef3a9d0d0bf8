import Mathlib.Data.List.Nodup
import Mathlib.Data.List.Perm.Subperm
import Transducer.Automaton.Order
import Transducer.Proofs.Automaton.WellFormed
import Transducer.Proofs.Distinct
import Transducer.Proofs.Route
/-!
The canonical order holds just the states that can be reached, each once. The marks of a sweep only
say which states it has found, so the sweep is one of lists: whatever stands in the order is
reached, and behind every state that has been swept stand its targets.
-/

namespace Transducer

variable {a : Automaton} {id last : StateId} {order targets : List StateId} {size n k : Nat}

/-- A sweep marks what it has found. -/
structure Sweep.Marks (size : Nat) (w : Sweep) : Prop where
  length : w.found.size = size
  marked : ∀ id < size, w.found[id]? = some (decide (id ∈ w.order.toList))

/-- Appends a state that an order of the first `size` states does not have. -/
def visit (size : Nat) (order : List StateId) (id : StateId) : List StateId :=
  if id < size ∧ id ∉ order then order ++ [id] else order

theorem prefix_visit (size : Nat) (order : List StateId) (id : StateId) :
    order <+: visit size order id := by
  rw [visit]
  split
  · exact List.prefix_append ..
  · exact List.prefix_rfl

theorem mem_visit : n ∈ visit size order id ↔ n ∈ order ∨ n = id ∧ id < size := by
  rw [visit]
  split
  · next new =>
    rw [List.mem_append, List.mem_singleton]
    simp [new.1]
  · next old =>
    refine ⟨.inl, fun h => ?_⟩
    rcases h with there | ⟨rfl, lt⟩
    · exact there
    · by_contra missing
      exact old ⟨lt, missing⟩

theorem nodup_visit (h : order.Nodup) (size : Nat) (id : StateId) :
    (visit size order id).Nodup := by
  rw [visit]
  split
  · next new =>
    refine List.nodup_append.mpr ⟨h, List.nodup_singleton id, fun x mem y last => ?_⟩
    rw [List.mem_singleton.mp last]
    exact fun same => new.2 (same ▸ mem)
  · exact h

theorem Sweep.marks_start (size : Nat) : (Sweep.start size).Marks size := by
  refine ⟨Array.size_replicate, fun id lt => ?_⟩
  simp [Sweep.start, lt]

theorem Sweep.Marks.find {w : Sweep} (h : w.Marks size) (id : StateId) :
    (w.find id).Marks size ∧ (w.find id).order.toList = visit size w.order.toList id := by
  rw [Sweep.find, visit]
  by_cases lt : id < size
  · rw [h.marked id lt]
    by_cases there : id ∈ w.order.toList
    · simp only [there, decide_true, Option.some.injEq, Bool.true_eq_false, if_false,
        not_true_eq_false, and_false]
      exact ⟨h, trivial⟩
    · simp only [there, decide_false, if_true, not_false_eq_true, and_true, lt]
      refine ⟨⟨?_, fun other small => ?_⟩, Array.toList_push⟩
      · rw [Array.size_setIfInBounds, h.length]
      · rw [Array.getElem?_setIfInBounds, Array.toList_push, h.length]
        by_cases same : id = other
        · simp [same, small]
        · simp [same, Ne.symm same, h.marked other small]
  · have missing : w.found[id]? = none := by
      rw [Array.getElem?_eq_none_iff, h.length]
      exact Nat.le_of_not_lt lt
    simp only [missing, lt, reduceCtorEq, if_false, false_and]
    exact ⟨h, trivial⟩

theorem Sweep.Marks.findAll {w : Sweep} (h : w.Marks size) (arcs : List Arc) :
    (arcs.foldl (fun w arc => w.find arc.target) w).Marks size ∧
      (arcs.foldl (fun w arc => w.find arc.target) w).order.toList =
        (arcs.map Arc.target).foldl (visit size) w.order.toList := by
  induction arcs generalizing w with
  | nil => exact ⟨h, rfl⟩
  | cons arc rest ih =>
    obtain ⟨marks, order⟩ := h.find arc.target
    rw [List.foldl_cons, List.map_cons, List.foldl_cons, ← order]
    exact ih marks

namespace Automaton

def sortedTargets (a : Automaton) (id : StateId) : List StateId :=
  (a.state id).sortedArcs.map Arc.target

/-- A sweep as one of lists. -/
def orderFrom (a : Automaton) : (count position : Nat) → List StateId → List StateId
  | 0, _, order => order
  | count + 1, position, order =>
    match order[position]? with
    | none => order
    | some id => a.orderFrom count (position + 1) ((a.sortedTargets id).foldl (visit a.size) order)

theorem order_sweep {w : Sweep} (h : w.Marks a.size) (count position : Nat) :
    (a.sweep count position w).order.toList = a.orderFrom count position w.order.toList := by
  induction count generalizing position w with
  | zero => rfl
  | succ count ih =>
    rw [sweep, orderFrom, Array.getElem?_toList]
    cases w.order[position]? with
    | none => rfl
    | some id =>
      obtain ⟨marks, order⟩ := h.findAll (a.state id).sortedArcs
      simp only [sortedTargets, ← order]
      exact ih marks (position + 1)

theorem canonicalOrder_eq (a : Automaton) :
    a.canonicalOrder = a.orderFrom a.size 0 (visit a.size [] a.initial) := by
  obtain ⟨marks, order⟩ := (Sweep.marks_start a.size).find a.initial
  rw [canonicalOrder, order_sweep marks, order]
  rfl

/-- A path leads from the initial state to the state. -/
def Reachable (a : Automaton) (id : StateId) : Prop := ∃ legs, a.Route a.initial legs id

theorem reachable_initial (a : Automaton) : a.Reachable a.initial := ⟨[], .stop _⟩

theorem mem_sortedArcs {s : State} {arc : Arc} : arc ∈ s.sortedArcs ↔ arc ∈ s.arcs := by
  simp [State.sortedArcs, State.arcs]

theorem Reachable.target {arc : Arc} (h : a.Reachable id) (mem : arc ∈ (a.state id).arcs) :
    a.Reachable arc.target := by
  obtain ⟨legs, route⟩ := h
  rw [← a.map_arc_legsFrom, List.mem_map] at mem
  obtain ⟨leg, leaves, rfl⟩ := mem
  exact ⟨legs ++ [leg], route.snoc leaves⟩

theorem mem_sortedTargets : n ∈ a.sortedTargets id ↔ ∃ arc ∈ (a.state id).arcs, arc.target = n := by
  simp [sortedTargets, mem_sortedArcs]

/-- An order that a sweep has read up to a position. -/
structure Swept (a : Automaton) (position : Nat) (order : List StateId) : Prop where
  nodup : order.Nodup
  bound : ∀ id ∈ order, id < a.size
  reached : ∀ id ∈ order, a.Reachable id
  read : position ≤ order.length
  closed : ∀ id ∈ order.take position, ∀ n ∈ a.sortedTargets id, n < a.size → n ∈ order

theorem Swept.length_le (h : Swept a n order) : order.length ≤ a.size := by
  have sub : order ⊆ List.range a.size := fun id mem => List.mem_range.mpr (h.bound id mem)
  simpa using (h.nodup.subperm sub).length_le

theorem swept_start (a : Automaton) : Swept a 0 (visit a.size [] a.initial) := by
  have only {id : StateId} (mem : id ∈ visit a.size [] a.initial) :
      id = a.initial ∧ a.initial < a.size := by simpa using mem_visit.mp mem
  refine ⟨nodup_visit .nil a.size a.initial, fun id mem => ?_, fun id mem => ?_, Nat.zero_le _,
    by simp⟩
  · exact (only mem).1 ▸ (only mem).2
  · exact (only mem).1 ▸ a.reachable_initial

theorem Swept.visit (h : Swept a k order) (reached : a.Reachable id) :
    Swept a k (visit a.size order id) := by
  obtain ⟨more, longer⟩ := prefix_visit a.size order id
  refine ⟨nodup_visit h.nodup a.size id, fun x mem => ?_, fun x mem => ?_, ?_, ?_⟩
  · rcases mem_visit.mp mem with old | ⟨rfl, lt⟩
    · exact h.bound x old
    · exact lt
  · rcases mem_visit.mp mem with old | ⟨rfl, -⟩
    · exact h.reached x old
    · exact reached
  · rw [← longer, List.length_append]
    exact Nat.le_add_right_of_le h.read
  · rw [← longer, List.take_append_of_le_length h.read]
    exact fun x mem n target lt => List.mem_append_left _ (h.closed x mem n target lt)

theorem Swept.visitAll (h : Swept a k order) (reached : ∀ id ∈ targets, a.Reachable id) :
    Swept a k (targets.foldl (Transducer.visit a.size) order) ∧
      order <+: targets.foldl (Transducer.visit a.size) order ∧
      ∀ id ∈ targets, id < a.size → id ∈ targets.foldl (Transducer.visit a.size) order := by
  induction targets generalizing order with
  | nil => exact ⟨h, List.prefix_rfl, by simp⟩
  | cons id rest ih =>
    obtain ⟨all, longer, found⟩ := ih (h.visit (reached id List.mem_cons_self))
      fun x mem => reached x (List.mem_cons_of_mem id mem)
    refine ⟨all, (prefix_visit a.size order id).trans longer, fun x mem lt => ?_⟩
    rcases List.mem_cons.mp mem with rfl | later
    · exact longer.subset (mem_visit.mpr (.inr ⟨rfl, lt⟩))
    · exact found x later lt

theorem Swept.next (h : Swept a k order) (here : order[k]? = some id) :
    Swept a (k + 1) ((a.sortedTargets id).foldl (Transducer.visit a.size) order) ∧
      order <+: (a.sortedTargets id).foldl (Transducer.visit a.size) order := by
  obtain ⟨lt, same⟩ := List.getElem?_eq_some_iff.mp here
  have reached := h.reached id (List.mem_of_getElem? here)
  have targets : ∀ n ∈ a.sortedTargets id, a.Reachable n := fun n mem => by
    obtain ⟨arc, there, rfl⟩ := mem_sortedTargets.mp mem
    exact reached.target there
  obtain ⟨all, longer, found⟩ := h.visitAll targets
  refine ⟨⟨all.nodup, all.bound, all.reached, Nat.lt_of_lt_of_le lt longer.length_le, ?_⟩, longer⟩
  obtain ⟨more, split⟩ := longer
  intro x mem n target small
  rw [← split, List.take_append_of_le_length (Nat.succ_le_of_lt lt), List.take_add_one, here] at mem
  rcases List.mem_append.mp mem with before | last
  · exact all.closed x (split ▸ by rwa [List.take_append_of_le_length h.read]) n target small
  · obtain rfl : x = id := by simpa using last
    exact found n target small

/-- With enough steps a sweep reads its order to the end; what every state that it reads keeps holds
then. -/
theorem Swept.orderFrom_induct {P : Nat → List StateId → Prop} (h : Swept a k order)
    (holds : P k order)
    (next : ∀ k order id, Swept a k order → P k order → order[k]? = some id →
      P (k + 1) ((a.sortedTargets id).foldl (Transducer.visit a.size) order))
    {count : Nat} (enough : a.size ≤ k + count) :
    P (a.orderFrom count k order).length (a.orderFrom count k order) := by
  induction count generalizing k order with
  | zero =>
    have all : order.length = k := by
      have few := h.length_le
      have read := h.read
      omega
    rw [Automaton.orderFrom, all]
    exact holds
  | succ count ih =>
    rw [Automaton.orderFrom]
    cases here : order[k]? with
    | none =>
      have past : order.length ≤ k := List.getElem?_eq_none_iff.mp here
      have all : order.length = k := Nat.le_antisymm past h.read
      simp only [all]
      exact holds
    | some id => exact ih (h.next here).1 (next k order id h holds here) (by omega)

theorem Swept.orderFrom (h : Swept a k order) {count : Nat} (enough : a.size ≤ k + count) :
    Swept a (a.orderFrom count k order).length (a.orderFrom count k order) ∧
      order <+: a.orderFrom count k order := by
  apply h.orderFrom_induct (P := fun k longer => Swept a k longer ∧ order <+: longer)
  · exact ⟨h, List.prefix_rfl⟩
  · intro k longer id swept holds here
    obtain ⟨next, more⟩ := swept.next here
    exact ⟨next, holds.2.trans more⟩
  · exact enough

theorem swept_canonicalOrder (a : Automaton) :
    Swept a a.canonicalOrder.length a.canonicalOrder ∧
      visit a.size [] a.initial <+: a.canonicalOrder := by
  rw [canonicalOrder_eq]
  exact a.swept_start.orderFrom (by omega)

theorem canonicalOrder_nodup (a : Automaton) : a.canonicalOrder.Nodup :=
  a.swept_canonicalOrder.1.nodup

theorem lt_size_of_mem_canonicalOrder (h : id ∈ a.canonicalOrder) : id < a.size :=
  a.swept_canonicalOrder.1.bound id h

/-- What holds of the initial state and of the targets of the states of which it holds. -/
theorem Reachable.induct {P : StateId → Prop} (initial : P a.initial)
    (target : ∀ id arc, a.Reachable id → P id → arc ∈ (a.state id).arcs → P arc.target)
    (h : a.Reachable id) : P id := by
  have along {first last : StateId} {legs : List Leg} (route : a.Route first legs last)
      (reached : a.Reachable first) (holds : P first) : P last := by
    induction route with
    | stop => exact holds
    | go leaves _ ih =>
      have mem := arc_mem_of_mem_legsFrom leaves
      exact ih (reached.target mem) (target _ _ reached holds mem)
  obtain ⟨legs, route⟩ := h
  exact along route a.reachable_initial initial

theorem Reachable.mem_canonicalOrder (h : a.Reachable id) (lt : id < a.size) :
    id ∈ a.canonicalOrder := by
  obtain ⟨swept, ⟨rest, start⟩⟩ := a.swept_canonicalOrder
  apply h.induct (P := fun id => id < a.size → id ∈ a.canonicalOrder)
  · intro lt
    rw [← start]
    exact List.mem_append_left _ (mem_visit.mpr (.inr ⟨rfl, lt⟩))
  · intro id arc _ before there lt
    apply swept.closed id
    · rw [List.take_length]
      exact before (lt_size_of_mem there)
    · exact mem_sortedTargets.mpr ⟨arc, there, rfl⟩
    · exact lt
  · exact lt

/-- Every state that can be reached is there. -/
def Closed (a : Automaton) : Prop := ∀ id, a.Reachable id → id < a.size

theorem Closed.mem_canonicalOrder (h : a.Closed) : id ∈ a.canonicalOrder ↔ a.Reachable id :=
  ⟨a.swept_canonicalOrder.1.reached id, fun reached => reached.mem_canonicalOrder (h id reached)⟩

theorem WellFormed.route_lt (h : a.WellFormed) {legs : List Leg} (route : a.Route id legs last)
    (lt : id < a.size) : last < a.size := by
  induction route with
  | stop => exact lt
  | go leaves _ ih => exact ih (h.target_lt (arc_mem_of_mem_legsFrom leaves))

theorem WellFormed.closed (h : a.WellFormed) : a.Closed := by
  intro id ⟨legs, route⟩
  exact h.route_lt route h.initial

theorem WellFormed.mem_canonicalOrder (h : a.WellFormed) :
    id ∈ a.canonicalOrder ↔ a.Reachable id :=
  h.closed.mem_canonicalOrder

theorem WellFormed.visit_initial (h : a.WellFormed) : visit a.size [] a.initial = [a.initial] := by
  have new : a.initial < a.size ∧ a.initial ∉ ([] : List StateId) := ⟨h.initial, List.not_mem_nil⟩
  rw [visit, if_pos new]
  rfl

theorem WellFormed.target_mem_canonicalOrder (h : a.WellFormed) (mem : id ∈ a.canonicalOrder)
    (target : n ∈ a.sortedTargets id) : n ∈ a.canonicalOrder := by
  obtain ⟨arc, there, rfl⟩ := mem_sortedTargets.mp target
  have reached := h.mem_canonicalOrder.mp mem
  exact h.mem_canonicalOrder.mpr (reached.target there)

theorem WellFormed.target_lt_size (h : a.WellFormed) (target : n ∈ a.sortedTargets id) :
    n < a.size := by
  obtain ⟨arc, there, rfl⟩ := mem_sortedTargets.mp target
  exact h.target_lt there

theorem completeOrder_eq (a : Automaton) :
    a.completeOrder = a.canonicalOrder ++ a.ids.filter (· ∉ a.canonicalOrder) := by
  have mark (id : StateId) (order : List StateId) (marks : Array Bool) (lt : id < marks.size) :
      (order.foldl (fun m id => m.setIfInBounds id true) marks).getD id false =
        (decide (id ∈ order) || marks.getD id false) := by
    induction order generalizing marks with
    | nil => rfl
    | cons first rest ih =>
      rw [List.foldl_cons, ih _ (by rwa [Array.size_setIfInBounds])]
      by_cases here : first = id
      · subst here
        simp [lt]
      · simp [here, Ne.symm here]
  rw [completeOrder]
  refine congrArg (a.canonicalOrder ++ ·) (List.filter_congr fun id mem => ?_)
  have lt : id < (Array.replicate a.size false).size := by
    rw [Array.size_replicate]
    exact List.mem_range.mp mem
  rw [mark id _ _ lt]
  simp [Array.getD, List.mem_range.mp mem]

theorem mem_completeOrder : id ∈ a.completeOrder ↔ id < a.size := by
  rw [completeOrder_eq, List.mem_append, List.mem_filter, decide_eq_true_eq, ids, List.mem_range]
  constructor
  · rintro (reached | ⟨lt, -⟩)
    · exact lt_size_of_mem_canonicalOrder reached
    · exact lt
  · intro lt
    by_cases reached : id ∈ a.canonicalOrder
    · exact .inl reached
    · exact .inr ⟨lt, reached⟩

theorem completeOrder_nodup (a : Automaton) : a.completeOrder.Nodup := by
  rw [completeOrder_eq]
  refine List.nodup_append.mpr ⟨a.canonicalOrder_nodup, List.nodup_range.filter _, ?_⟩
  rintro id reached other missing rfl
  exact of_decide_eq_true (List.mem_filter.mp missing).2 reached

end Automaton

/-- The table of an order: under each of its states the place. -/
theorem Numbering.number?_ofOrder (nodup : order.Nodup) (bound : ∀ id ∈ order, id < size)
    (id : StateId) : (Numbering.ofOrder size order).number? id =
      if id ∈ order then some (order.idxOf id) else none := by
  have fold (order : List StateId) (k : Nat) (table : Array (Option Nat)) (nodup : order.Nodup)
      (bound : ∀ id ∈ order, id < table.size) :
      ((order.zipIdx k).foldl (fun t p => t.setIfInBounds p.1 (some p.2)) table).getD id none =
        if id ∈ order then some (k + order.idxOf id) else table.getD id none := by
    induction order generalizing k table with
    | nil => rfl
    | cons first rest ih =>
      obtain ⟨new, nodup⟩ := List.nodup_cons.mp nodup
      have room : ∀ id ∈ rest, id < (table.setIfInBounds first (some k)).size := by
        intro id mem
        rw [Array.size_setIfInBounds]
        exact bound id (List.mem_cons_of_mem _ mem)
      rw [List.zipIdx_cons, List.foldl_cons, ih (k + 1) _ nodup room]
      by_cases here : id = first
      · subst here
        simp [new, bound]
      · by_cases mem : id ∈ rest
        · have place : (first :: rest).idxOf id = rest.idxOf id + 1 :=
            List.idxOf_cons_ne rest (Ne.symm here)
          rw [if_pos mem, if_pos (List.mem_cons_of_mem first mem), place, Nat.add_assoc,
            Nat.add_comm 1]
        · simp [here, Ne.symm here, mem]
  have all := fold order 0 (Array.replicate size none) nodup (by simpa using bound)
  rw [Nat.zero_add] at all
  have blank : (Array.replicate size (none : Option Nat)).getD id none = none := by
    by_cases lt : id < size <;> simp [Array.getD, lt]
  rw [blank] at all
  exact all

namespace Automaton

variable {other : StateId}

theorem number?_canonicalNumbering (a : Automaton) (id : StateId) :
    a.canonicalNumbering.number? id =
      if id ∈ a.canonicalOrder then some (a.canonicalOrder.idxOf id) else none :=
  Numbering.number?_ofOrder a.canonicalOrder_nodup
    (fun _ mem => lt_size_of_mem_canonicalOrder mem) id

section Numbers

variable (h : a.Closed) (reached : a.Reachable id)
include h reached

theorem Closed.number?_eq :
    a.canonicalNumbering.number? id = some (a.canonicalNumbering.of id) := by
  rw [Numbering.of, number?_canonicalNumbering, if_pos (h.mem_canonicalOrder.mpr reached)]
  rfl

theorem Closed.number_eq : a.canonicalNumbering.of id = a.canonicalOrder.idxOf id := by
  rw [Numbering.of, number?_canonicalNumbering, if_pos (h.mem_canonicalOrder.mpr reached)]
  rfl

theorem Closed.getElem?_number : a.canonicalOrder[a.canonicalNumbering.of id]? = some id := by
  rw [h.number_eq reached]
  exact List.getElem?_idxOf (h.mem_canonicalOrder.mpr reached)

theorem Closed.number_lt : a.canonicalNumbering.of id < a.canonicalOrder.length := by
  rw [h.number_eq reached]
  exact List.idxOf_lt_length_of_mem (h.mem_canonicalOrder.mpr reached)

theorem Closed.number_inj (there : a.Reachable other)
    (same : a.canonicalNumbering.of id = a.canonicalNumbering.of other) : id = other := by
  rw [h.number_eq reached, h.number_eq there] at same
  exact (List.idxOf_inj (h.mem_canonicalOrder.mpr reached)).mp same

end Numbers

/-- The number of a state is its place in the canonical order. -/
theorem Closed.number_getElem (h : a.Closed) (lt : n < a.canonicalOrder.length) :
    a.canonicalNumbering.of a.canonicalOrder[n] = n := by
  have reached := h.mem_canonicalOrder.mp (List.getElem_mem lt)
  rw [h.number_eq reached]
  exact a.canonicalOrder_nodup.idxOf_getElem n lt

theorem Closed.getElem?_canonicalOrder_iff (h : a.Closed) :
    a.canonicalOrder[n]? = some id ↔ a.Reachable id ∧ a.canonicalNumbering.of id = n := by
  constructor
  · intro here
    obtain ⟨lt, rfl⟩ := List.getElem?_eq_some_iff.mp here
    exact ⟨h.mem_canonicalOrder.mp (List.getElem_mem lt), h.number_getElem lt⟩
  · rintro ⟨reached, rfl⟩
    exact h.getElem?_number reached

theorem mem_zipIdx_order_iff : (id, n) ∈ a.canonicalNumbering.order.zipIdx ↔
    a.canonicalOrder[n]? = some id := List.mem_zipIdx_iff_getElem?

end Automaton

end Transducer
