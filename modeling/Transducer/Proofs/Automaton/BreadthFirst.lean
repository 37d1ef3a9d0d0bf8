import Mathlib.Order.Lattice.Nat
import Transducer.Proofs.Automaton.Renumbered
import Transducer.Proofs.Enumeration
/-!
The canonical order as a breadth-first enumeration. A queue gives its states out one by one and then
ends. They stand there by their distance from the initial state, each where the arcs of the states
before it first lead to it.
-/

namespace Transducer

variable {a : Automaton} {id last : StateId} {order targets done : List StateId} {arc : Arc}
  {legs : List Leg} {size n k : Nat}

section Queue

/-- The states that wait in a queue, and a mark for each that has ever joined it. -/
structure Frontier where
  queue : List StateId
  seen : Array Bool

namespace Frontier

variable {w : Sweep} {v : Frontier}

def start (a : Automaton) : Frontier :=
  ⟨[a.initial], (Array.replicate a.size false).setIfInBounds a.initial true⟩

def push (v : Frontier) (id : StateId) : Frontier :=
  if v.seen[id]? = some false then ⟨v.queue ++ [id], v.seen.setIfInBounds id true⟩ else v

/-- Gives out the first state of the queue; its targets join the queue. -/
def step (a : Automaton) (v : Frontier) : Move Frontier StateId :=
  match v.queue with
  | [] => .finished
  | id :: rest =>
    .found id ((a.state id).sortedArcs.foldl (fun v arc => v.push arc.target) ⟨rest, v.seen⟩)

/-- A queue holds what a sweep has found and not read yet. -/
structure Ahead (done : List StateId) (w : Sweep) (v : Frontier) : Prop where
  order : w.order.toList = done ++ v.queue
  seen : w.found = v.seen

theorem Ahead.push (h : Ahead done w v) (id : StateId) : Ahead done (w.find id) (v.push id) := by
  rw [Sweep.find, Frontier.push, h.seen]
  split
  · have longer : (w.order.push id).toList = done ++ (v.queue ++ [id]) := by
      rw [Array.toList_push, h.order, List.append_assoc]
    exact ⟨longer, rfl⟩
  · exact h

theorem Ahead.pushAll (h : Ahead done w v) (arcs : List Arc) :
    Ahead done (arcs.foldl (fun w arc => w.find arc.target) w)
      (arcs.foldl (fun v arc => v.push arc.target) v) := by
  induction arcs generalizing w v with
  | nil => exact h
  | cons arc rest ih =>
    rw [List.foldl_cons, List.foldl_cons]
    exact ih (h.push arc.target)

theorem run_of_empty (empty : v.queue = []) : Move.run (step a) v 1 = (none, []) := by
  have finished : step a v = .finished := by rw [step, empty]
  exact Move.run_of_finished finished

theorem Ahead.getElem?_order (h : Ahead done w v) : w.order[done.length]? = v.queue.head? := by
  rw [← Array.getElem?_toList, h.order, List.getElem?_append_right (Nat.le_refl _), Nat.sub_self,
    List.head?_eq_getElem?]

/-- A sweep that has enough steps finds what the queue gives out. -/
theorem Ahead.run (h : Ahead done w v) {count : Nat}
    (enough : (a.sweep count done.length w).order.toList.length ≤ done.length + count) :
    ∃ n ≤ count + 1, ∃ more, (a.sweep count done.length w).order.toList = done ++ more ∧
      Move.run (step a) v n = (none, more.reverse) := by
  induction count generalizing done w v with
  | zero =>
    rw [Automaton.sweep] at enough ⊢
    have empty : v.queue = [] := by
      rw [h.order, List.length_append] at enough
      exact List.length_eq_zero_iff.mp (by omega)
    exact ⟨1, Nat.le_refl 1, [], empty ▸ h.order, run_of_empty empty⟩
  | succ count ih =>
    have here := h.getElem?_order
    rw [Automaton.sweep] at enough ⊢
    cases waiting : v.queue with
    | nil =>
      rw [waiting] at here
      simp only [here, List.head?_nil]
      have one : 1 ≤ count + 1 + 1 := by omega
      exact ⟨1, one, [], waiting ▸ h.order, run_of_empty waiting⟩
    | cons id rest =>
      rw [waiting] at here
      simp only [here, List.head?_cons] at enough ⊢
      have taken : Ahead (done ++ [id]) w ⟨rest, v.seen⟩ := by
        refine ⟨?_, h.seen⟩
        rw [h.order, waiting, List.append_assoc]
        rfl
      have next := taken.pushAll (a.state id).sortedArcs
      have length : (done ++ [id]).length = done.length + 1 := List.length_append
      rw [← length] at enough ⊢
      obtain ⟨n, few, more, order, run⟩ := ih next (by omega)
      have found : step a v = .found id ((a.state id).sortedArcs.foldl
          (fun v arc => v.push arc.target) ⟨rest, v.seen⟩) := by
        rw [step, waiting]
      have all : Move.run (step a) v (n + 1) = (none, more.reverse ++ [id]) := by
        rw [Move.run_of_found found, run]
      refine ⟨n + 1, by omega, id :: more, ?_, ?_⟩
      · rw [order, List.append_assoc]
        rfl
      · rw [all, List.reverse_cons]

end Frontier

end Queue

namespace Automaton

/-- The queue gives out the canonical order, and then ends. -/
theorem WellFormed.run_frontier (h : a.WellFormed) : ∃ n ≤ a.size + 1,
    Move.run (Frontier.step a) (Frontier.start a) n = (none, a.canonicalOrder.reverse) := by
  have found : (Sweep.start a.size).found[a.initial]? = some false := by
    simp [Sweep.start, h.initial]
  have start : Frontier.Ahead [] ((Sweep.start a.size).find a.initial) (Frontier.start a) := by
    rw [Sweep.find, if_pos found]
    exact ⟨rfl, rfl⟩
  have enough : (a.sweep a.size 0 ((Sweep.start a.size).find a.initial)).order.toList.length ≤
      0 + a.size := by
    rw [Nat.zero_add]
    exact a.swept_canonicalOrder.1.length_le
  obtain ⟨n, few, more, order, run⟩ := start.run (a := a) enough
  have all : a.canonicalOrder = more := order
  exact ⟨n, few, by rw [run, all]⟩

/-- What holds when a sweep has found the initial state, and is kept when it reads a state, holds
of the canonical order. -/
theorem canonicalOrder_induct {P : Nat → List StateId → Prop}
    (start : P 0 (visit a.size [] a.initial))
    (next : ∀ k order id, Swept a k order → P k order → order[k]? = some id →
      P (k + 1) ((a.sortedTargets id).foldl (visit a.size) order)) :
    P a.canonicalOrder.length a.canonicalOrder := by
  rw [canonicalOrder_eq]
  exact a.swept_start.orderFrom_induct start next (by omega)

/-- What targets add to an order are those that it does not have. -/
theorem exists_foldl_visit (size : Nat) (targets order : List StateId) :
    ∃ new, targets.foldl (visit size) order = order ++ new ∧
      ∀ id ∈ new, id ∈ targets ∧ id ∉ order := by
  induction targets generalizing order with
  | nil => exact ⟨[], (List.append_nil order).symm, by simp⟩
  | cons target rest ih =>
    obtain ⟨new, all, added⟩ := ih (visit size order target)
    rw [List.foldl_cons, all, visit]
    split
    · next fresh =>
      refine ⟨target :: new, by rw [List.append_assoc]; rfl, fun id mem => ?_⟩
      rcases List.mem_cons.mp mem with rfl | later
      · exact ⟨List.mem_cons_self, fresh.2⟩
      · obtain ⟨target', missing⟩ := added id later
        have before : id ∉ order := fun old => missing (mem_visit.mpr (.inl old))
        exact ⟨List.mem_cons_of_mem _ target', before⟩
    · refine ⟨new, rfl, fun id mem => ?_⟩
      obtain ⟨target', missing⟩ := added id mem
      have before : id ∉ order := fun old => missing (mem_visit.mpr (.inl old))
      exact ⟨List.mem_cons_of_mem _ target', before⟩

section Distance

/-- How many arcs the shortest path from the initial state takes. -/
noncomputable def distance (a : Automaton) (id : StateId) : Nat :=
  sInf {n | ∃ legs, a.Route a.initial legs id ∧ legs.length = n}

theorem Route.distance_le (route : a.Route a.initial legs id) : a.distance id ≤ legs.length :=
  Nat.sInf_le ⟨legs, route, rfl⟩

theorem Reachable.exists_shortest (h : a.Reachable id) :
    ∃ legs, a.Route a.initial legs id ∧ legs.length = a.distance id := by
  obtain ⟨legs, route⟩ := h
  have filled : {n | ∃ legs, a.Route a.initial legs id ∧ legs.length = n}.Nonempty :=
    ⟨legs.length, legs, route, rfl⟩
  exact Nat.sInf_mem filled

theorem distance_initial (a : Automaton) : a.distance a.initial = 0 := by
  have le := (Route.stop (a := a) a.initial).distance_le
  exact Nat.le_zero.mp le

theorem Reachable.distance_target_le (h : a.Reachable id) (mem : arc ∈ (a.state id).arcs) :
    a.distance arc.target ≤ a.distance id + 1 := by
  obtain ⟨legs, route, short⟩ := h.exists_shortest
  obtain ⟨leg, leaves, rfl⟩ := exists_mem_legsFrom mem
  have longer := (route.snoc leaves).distance_le
  rwa [List.length_append, short] at longer

/-- A shortest path leads through a state one step nearer. -/
theorem Reachable.exists_nearer (h : a.Reachable id) (far : a.distance id = n + 1) :
    ∃ before arc, a.Reachable before ∧ a.distance before = n ∧ arc ∈ (a.state before).arcs ∧
      arc.target = id := by
  obtain ⟨legs, route, short⟩ := h.exists_shortest
  rcases legs.eq_nil_or_concat' with rfl | ⟨front, leg, rfl⟩
  · rw [far] at short
    cases short
  · obtain ⟨first, leaves⟩ := route.unsnoc
    have mem := arc_mem_of_mem_legsFrom leaves
    have reached : a.Reachable (Leg.ending a.initial front) := ⟨front, first⟩
    have target : leg.arc.target = id := by rw [← route.ending_eq, Leg.ending_snoc]
    have le := first.distance_le
    have ge := reached.distance_target_le mem
    rw [List.length_append, List.length_singleton] at short
    rw [target] at ge
    exact ⟨_, leg.arc, reached, by omega, mem, target⟩

/-- The states of an order stand by distance, and the farthest ones are at most one step farther
than the one at a position. -/
structure Layered (a : Automaton) (k : Nat) (order : List StateId) : Prop where
  first : order.head? = some a.initial
  sorted : order.Pairwise fun id other => a.distance id ≤ a.distance other
  span : ∀ id, order[k]? = some id → ∀ other ∈ order, a.distance other ≤ a.distance id + 1

/-- In an order by distance, what is nearer than a state stands before it. -/
theorem Layered.mem_take (h : Layered a k order) (here : order[k]? = some id) (mem : n ∈ order)
    (nearer : a.distance n < a.distance id) : n ∈ order.take k := by
  obtain ⟨lt, same⟩ := List.getElem?_eq_some_iff.mp here
  have split : order = order.take k ++ id :: order.drop (k + 1) := by
    rw [← same, List.getElem_cons_drop, List.take_append_drop]
  have sorted := h.sorted
  rw [split] at mem sorted
  rcases List.mem_append.mp mem with before | behind
  · exact before
  · rcases List.mem_cons.mp behind with rfl | later
    · exact absurd nearer (Nat.lt_irrefl _)
    · have behind := (List.pairwise_append.mp sorted).2.1
      have le := (List.pairwise_cons.mp behind).1 n later
      omega

/-- A sweep that has come to a state has found all states up to its distance. -/
theorem Layered.mem_of_nearer (h : Layered a k order) (ha : a.WellFormed) (swept : Swept a k order)
    (here : order[k]? = some id) (reached : a.Reachable last)
    (nearer : a.distance last ≤ a.distance id) : last ∈ order := by
  -- a shortest path comes through a state that is nearer than `id`, so it has been read
  induction far : a.distance last generalizing last with
  | zero =>
    obtain ⟨legs, route, short⟩ := reached.exists_shortest
    rw [far, List.length_eq_zero_iff] at short
    rw [short] at route
    cases route
    exact List.mem_of_mem_head? h.first
  | succ n ih =>
    obtain ⟨before, arc, reachedBefore, distance, mem, rfl⟩ := reached.exists_nearer far
    have found := ih reachedBefore (by omega) distance
    have read := h.mem_take here found (by omega)
    have target : arc.target ∈ a.sortedTargets before := mem_sortedTargets.mpr ⟨arc, mem, rfl⟩
    exact swept.closed before read arc.target target (ha.target_lt mem)

/-- New targets of a state are one step farther than the state. -/
theorem Layered.distance_new (h : Layered a k order) (ha : a.WellFormed) (swept : Swept a k order)
    (here : order[k]? = some id) (target : n ∈ a.sortedTargets id) (new : n ∉ order) :
    a.distance n = a.distance id + 1 := by
  have reached := swept.reached id (List.mem_of_getElem? here)
  obtain ⟨arc, mem, rfl⟩ := mem_sortedTargets.mp target
  have le := reached.distance_target_le mem
  have gt : a.distance id < a.distance arc.target := by
    by_contra nearer
    exact new (h.mem_of_nearer ha swept here (reached.target mem) (Nat.le_of_not_lt nearer))
  omega

theorem WellFormed.layered_start (ha : a.WellFormed) :
    Layered a 0 (visit a.size [] a.initial) := by
  rw [ha.visit_initial]
  refine ⟨rfl, List.pairwise_singleton .., fun id here other mem => ?_⟩
  rw [List.mem_singleton.mp mem, distance_initial]
  exact Nat.zero_le _

theorem Layered.next (h : Layered a k order) (ha : a.WellFormed) (swept : Swept a k order)
    (here : order[k]? = some id) :
    Layered a (k + 1) ((a.sortedTargets id).foldl (visit a.size) order) := by
  obtain ⟨new, all, added⟩ := exists_foldl_visit a.size (a.sortedTargets id) order
  have farther : ∀ n ∈ new, a.distance n = a.distance id + 1 := by
    intro n mem
    obtain ⟨target, missing⟩ := added n mem
    exact h.distance_new ha swept here target missing
  have sorted : (order ++ new).Pairwise fun id other => a.distance id ≤ a.distance other := by
    refine List.pairwise_append.mpr ⟨h.sorted, ?_, ?_⟩
    · refine List.pairwise_of_forall_mem_list fun n mem other there => ?_
      exact Nat.le_of_eq ((farther n mem).trans (farther other there).symm)
    · intro n mem other there
      rw [farther other there]
      exact h.span id here n mem
  rw [all]
  refine ⟨?_, sorted, fun next there other mem => ?_⟩
  · rw [List.head?_append, h.first]
    rfl
  · have le : a.distance other ≤ a.distance id + 1 := by
      rcases List.mem_append.mp mem with old | young
      · exact h.span id here other old
      · exact Nat.le_of_eq (farther other young)
    obtain ⟨lt, same⟩ := List.getElem?_eq_some_iff.mp there
    have before : (order ++ new)[k]? = some id := by
      rw [List.getElem?_append_left (List.getElem?_eq_some_iff.mp here).1, here]
    obtain ⟨_, same'⟩ := List.getElem?_eq_some_iff.mp before
    have step := List.pairwise_iff_getElem.mp sorted k (k + 1) (by omega) lt (Nat.lt_succ_self k)
    rw [same, same'] at step
    omega

end Distance

/-- Visiting states appends those that come for the first time. -/
theorem foldl_visit_eraseDups (known : ∀ id ∈ targets, id < size) (listed : List StateId) :
    targets.foldl (visit size) listed.eraseDups = (listed ++ targets).eraseDups := by
  induction targets generalizing listed with
  | nil => rw [List.append_nil, List.foldl_nil]
  | cons target rest ih =>
    obtain ⟨lt, later⟩ := List.forall_mem_cons.mp known
    have one : visit size listed.eraseDups target = (listed ++ [target]).eraseDups := by
      rw [visit, eraseDups_snoc]
      by_cases old : target ∈ listed
      · simp [old]
      · simp [old, lt]
    rw [List.foldl_cons, one, ih later, List.append_assoc]
    rfl

/-- An order of states that a breadth-first enumeration gives out. -/
structure BreadthFirst (a : Automaton) (order : List StateId) : Prop where
  nodup : order.Nodup
  first : order.head? = some a.initial
  reached : ∀ id, id ∈ order ↔ a.Reachable id
  layers : (order.map a.distance).Pairwise (· ≤ ·)
  places : order = (a.initial :: order.flatMap a.sortedTargets).eraseDups

theorem WellFormed.layered_canonicalOrder (ha : a.WellFormed) :
    Layered a a.canonicalOrder.length a.canonicalOrder := by
  refine canonicalOrder_induct ha.layered_start fun k order id swept layered here => ?_
  exact layered.next ha swept here

theorem WellFormed.canonicalOrder_places (ha : a.WellFormed) :
    a.canonicalOrder = (a.initial :: a.canonicalOrder.flatMap a.sortedTargets).eraseDups := by
  have all := canonicalOrder_induct (a := a)
    (P := fun k order => order = (a.initial :: (order.take k).flatMap a.sortedTargets).eraseDups)
    (by rw [ha.visit_initial]; rfl) ?_
  · rwa [List.take_length] at all
  · intro k order id swept places here
    have known : ∀ n ∈ a.sortedTargets id, n < a.size := fun n target => ha.target_lt_size target
    obtain ⟨lt, -⟩ := List.getElem?_eq_some_iff.mp here
    have taken : ((a.sortedTargets id).foldl (visit a.size) order).take (k + 1) =
        order.take k ++ [id] := by
      obtain ⟨new, longer, -⟩ := exists_foldl_visit a.size (a.sortedTargets id) order
      rw [longer, List.take_append_of_le_length (Nat.succ_le_of_lt lt), List.take_add_one, here]
      rfl
    calc (a.sortedTargets id).foldl (visit a.size) order
      _ = (a.sortedTargets id).foldl (visit a.size)
          (a.initial :: (order.take k).flatMap a.sortedTargets).eraseDups := by rw [← places]
      _ = (a.initial :: (order.take k ++ [id]).flatMap a.sortedTargets).eraseDups := by
        rw [foldl_visit_eraseDups known, List.flatMap_append, List.flatMap_singleton]
        rfl
      _ = _ := by rw [taken]

theorem WellFormed.breadthFirst (ha : a.WellFormed) : BreadthFirst a a.canonicalOrder where
  nodup := a.canonicalOrder_nodup
  first := ha.layered_canonicalOrder.first
  reached _ := ha.mem_canonicalOrder
  layers := List.pairwise_map.mpr ha.layered_canonicalOrder.sorted
  places := ha.canonicalOrder_places

/-- Targets of numbered states have numbers of their own, so none is given the number for others. -/
def Numbers (a : Automaton) (numbering : Numbering) : Prop :=
  ∀ id ∈ numbering.order, ∀ n ∈ id :: a.sortedTargets id,
    numbering.number? n = some (numbering.of n) ∧ numbering.order[numbering.of n]? = some n

theorem numbers_ofOrder (nodup : order.Nodup) (bound : ∀ id ∈ order, id < a.size)
    (closed : ∀ id ∈ order, ∀ n ∈ a.sortedTargets id, n ∈ order) :
    a.Numbers (.ofOrder a.size order) := by
  intro id mem n among
  have there : n ∈ order := by
    rcases List.mem_cons.mp among with rfl | target
    · exact mem
    · exact closed id mem n target
  have number := Numbering.number?_ofOrder nodup bound n
  rw [if_pos there] at number
  have place : (Numbering.ofOrder a.size order).of n = order.idxOf n := by
    rw [Numbering.of, number]
    rfl
  rw [place]
  exact ⟨number, List.getElem?_idxOf there⟩

theorem WellFormed.numbers_canonical (ha : a.WellFormed) : a.Numbers a.canonicalNumbering := by
  apply numbers_ofOrder a.canonicalOrder_nodup
  · intro id mem
    exact lt_size_of_mem_canonicalOrder mem
  · intro id mem n target
    exact ha.target_mem_canonicalOrder mem target

theorem WellFormed.numbers_complete (ha : a.WellFormed) : a.Numbers a.completeNumbering := by
  apply numbers_ofOrder a.completeOrder_nodup
  · intro id mem
    exact mem_completeOrder.mp mem
  · intro id mem n target
    exact mem_completeOrder.mpr (ha.target_lt_size target)

/-- The canonical order lists what can be reached, breadth first. It is closed under arcs, so
exports give every target its own number, and renumbering keeps all arcs. -/
theorem canonicalOrder_breadthFirst (ha : a.WellFormed) :
    (∃ n ≤ a.size + 1,
      Move.run (Frontier.step a) (Frontier.start a) n = (none, a.canonicalOrder.reverse)) ∧
      BreadthFirst a a.canonicalOrder ∧
      (∀ id ∈ a.canonicalOrder, ∀ n ∈ a.sortedTargets id, n ∈ a.canonicalOrder) ∧
      (∀ numbering ∈ [a.canonicalNumbering, a.completeNumbering], a.Numbers numbering) ∧
      ∀ n id, a.canonicalOrder[n]? = some id → (a.renumbered.state n).arcs =
        (a.state id).arcs.map (Arc.moved a.canonicalNumbering.of) := by
  refine ⟨ha.run_frontier, ha.breadthFirst, ?_, ?_, ?_⟩
  · intro id mem n target
    exact ha.target_mem_canonicalOrder mem target
  · intro numbering mem
    simp only [List.mem_cons, List.not_mem_nil, or_false] at mem
    rcases mem with rfl | rfl
    · exact ha.numbers_canonical
    · exact ha.numbers_complete
  · intro n id here
    have groups : (a.renumbered.state n).groups =
        (a.state id).movedGroups a.canonicalNumbering.of := by
      rw [ha.state_renumbered here, copiedState]
    exact State.arcs_eq_of_groups groups

/-- The nearer states come first, by their labels; one arc leads back. -/
theorem canonicalOrder_breadthFirst_cycle :
    let a := (((((empty.addState none).addState none).addState none).addArc 0
      ⟨1, .identity "b", .zero⟩).addArc 0 ⟨2, .identity "a", .zero⟩).addArc 2
      ⟨0, .identity "c", .zero⟩
    a.WellFormed ∧ a.canonicalOrder = [0, 2, 1] ∧ a.Reachable 1 ∧
      [0, 2, 1] = (0 :: [0, 2, 1].flatMap a.sortedTargets).eraseDups := by
  intro a
  have states : (((empty.addState none).addState none).addState none).WellFormed :=
    ((wellFormed_empty.addState none).addState none).addState none
  have ha : a.WellFormed := by
    refine ((states.addArc ?_ ?_).addArc ?_ ?_).addArc ?_ ?_
    all_goals decide
  have order : a.canonicalOrder = [0, 2, 1] := by decide +kernel
  obtain ⟨-, breadthFirst, -⟩ := canonicalOrder_breadthFirst ha
  refine ⟨ha, order, (breadthFirst.reached 1).mp ?_, ?_⟩
  · rw [order]
    decide
  · have places := breadthFirst.places
    rwa [order] at places

end Automaton

end Transducer
