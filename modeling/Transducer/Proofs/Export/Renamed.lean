import Transducer.Export.Network
import Transducer.Proofs.Apply.Renamed
import Transducer.Proofs.Automaton.Renumbered
import Transducer.Proofs.Export.Table
/-!
Exports number states canonically, so they do not tell apart automata that differ in the numbers of
their states. Neither do walks nor searches; so nothing is seen of a renumbering but the numbers.
-/

namespace Transducer

namespace Automaton

variable {a b : Automaton} {f : StateId → StateId} {id : StateId}

/-- The arcs of a state in the order of exports, into the numbers of their targets. -/
def numberedArcs (a : Automaton) (id : StateId) : List Arc :=
  (a.state id).sortedArcs.map (Arc.moved a.canonicalNumbering.of)

/-- Arcs are gathered by their labels, whatever numbers their targets have. -/
theorem group_numberedArcs {κ : Type} [Ord κ] (key : Label → κ) (a : Automaton) (id : StateId) :
    Ordered.group (fun arc => key arc.label) (a.numberedArcs id) =
      (Ordered.group (fun arc => key arc.label) (a.state id).sortedArcs).map
        (Prod.map (fun k => k) (List.map (Arc.moved a.canonicalNumbering.of))) :=
  Ordered.group_map (fun _ => rfl) _

theorem dictionaryRow_eq (a : Automaton) (id : StateId) :
    a.dictionaryRow a.canonicalNumbering id =
      (Ordered.group (fun arc => Dictionary.key arc.label) (a.numberedArcs id)).map
        fun (key, arcs) => (key, arcs.map Arc.target) := by
  rw [group_numberedArcs, List.map_map, dictionaryRow]
  refine List.map_congr_left fun ⟨key, arcs⟩ _ => ?_
  simp

theorem networkArcs_eq (a : Automaton) (id : StateId) :
    a.networkArcs a.canonicalNumbering id =
      (Ordered.group (fun arc => arc.label.input) (a.numberedArcs id)).map
        fun (input, arcs) => (input, arcs.map fun arc => (arc.target, arc.label.output)) := by
  rw [group_numberedArcs, List.map_map, networkArcs]
  refine List.map_congr_left fun ⟨key, arcs⟩ _ => ?_
  simp

namespace Renaming

variable (h : Renaming a b f) (ha : a.Closed) (hb : b.Closed)
include h ha hb

theorem order : b.canonicalNumbering.order = a.canonicalNumbering.order.map f :=
  h.canonicalOrder ha hb

theorem numberedArcs (reached : a.Reachable id) : b.numberedArcs (f id) = a.numberedArcs id := by
  rw [Automaton.numberedArcs, h.sortedArcs reached, List.map_map, Automaton.numberedArcs]
  refine List.map_congr_left fun arc mem => ?_
  have target := reached.target (mem_sortedArcs.mp mem)
  exact congrArg (fun n => { arc with target := n }) (h.number ha hb target)

theorem map_numbered {β : Type} {g g' : StateId × Nat → β}
    (same : ∀ id n, a.Reachable id → g' (f id, n) = g (id, n)) :
    b.canonicalNumbering.order.zipIdx.map g' = a.canonicalNumbering.order.zipIdx.map g := by
  rw [h.order ha hb, List.zipIdx_map, List.map_map]
  refine List.map_congr_left fun ⟨id, n⟩ mem => ?_
  exact same id n (ha.mem_canonicalOrder.mp (List.fst_mem_of_mem_zipIdx mem))

theorem finals {β : Type} (g : Nat → β) :
    (b.canonicalNumbering.order.zipIdx.filter fun (id, _) => b.isFinal id).map (fun (_, n) => g n) =
      (a.canonicalNumbering.order.zipIdx.filter fun (id, _) => a.isFinal id).map
        fun (_, n) => g n := by
  have final : ∀ x ∈ a.canonicalNumbering.order.zipIdx, b.isFinal (f x.1) = a.isFinal x.1 :=
    fun x mem => h.isFinal (ha.mem_canonicalOrder.mp (List.fst_mem_of_mem_zipIdx mem))
  rw [h.order ha hb, List.zipIdx_map, List.filter_map, List.map_map]
  exact congrArg (List.map fun x => g x.2) (List.filter_congr final)

theorem flatMap_order {β : Type} {g g' : StateId → List β}
    (same : ∀ id, a.Reachable id → g' (f id) = g id) :
    b.canonicalNumbering.order.flatMap g' = a.canonicalNumbering.order.flatMap g := by
  rw [h.order ha hb, List.flatMap_map]
  exact List.flatMap_congr fun id mem => same id (ha.mem_canonicalOrder.mp mem)

theorem dictionary : b.dictionary = a.dictionary := by
  have rows : b.canonicalNumbering.order.zipIdx.map
      (fun (id, n) => (n, b.dictionaryRow b.canonicalNumbering id)) =
      a.canonicalNumbering.order.zipIdx.map
        fun (id, n) => (n, a.dictionaryRow a.canonicalNumbering id) :=
    h.map_numbered ha hb fun id n reached => congrArg (Prod.mk n) <| by
      rw [dictionaryRow_eq, dictionaryRow_eq, h.numberedArcs ha hb reached]
  have symbols : b.canonicalNumbering.order.flatMap
      (fun id => (b.state id).sortedArcs.flatMap fun arc => arc.label.symbols) =
      a.canonicalNumbering.order.flatMap fun id =>
        (a.state id).sortedArcs.flatMap fun arc => arc.label.symbols :=
    h.flatMap_order ha hb fun id reached => by
      rw [h.sortedArcs reached, List.flatMap_map]
      rfl
  have marks := h.finals ha hb fun n => (n, 1)
  rw [Automaton.dictionary, Automaton.dictionary, rows, symbols, marks]

theorem network : b.network = a.network := by
  let listed (c : Automaton) (p : StateId × Nat) : List ((Nat × Symbol) × List (Nat × Symbol)) :=
    (c.networkArcs c.canonicalNumbering p.1).map fun row => ((p.2, row.1), row.2)
  have arcs : b.canonicalNumbering.order.zipIdx.flatMap (listed b) =
      a.canonicalNumbering.order.zipIdx.flatMap (listed a) := by
    rw [List.flatMap_def, List.flatMap_def]
    refine congrArg List.flatten (h.map_numbered ha hb fun id n reached => ?_)
    have row : b.networkArcs b.canonicalNumbering (f id) =
        a.networkArcs a.canonicalNumbering id := by
      rw [networkArcs_eq, networkArcs_eq, h.numberedArcs ha hb reached]
    simp only [listed, row]
  rw [Automaton.network, Automaton.network, h.dictionary ha hb]
  exact congrArg (Network.mk a.dictionary.alphabet _ a.dictionary.finals) arcs

section Table

variable {keepNames : Bool} (named : keepNames = true →
  ∀ id, a.Reachable id → (b.state (f id)).name = (a.state id).name)

include named

theorem tableName (reached : a.Reachable id) :
    b.tableName keepNames (f id) = a.tableName keepNames id := by
  rw [Automaton.tableName, h.number ha hb reached, Automaton.tableName]
  cases keepNames with
  | false => rfl
  | true =>
    have name := named rfl id reached
    simp only [if_true, name]

theorem tableRows (e : Symbol) (reached : a.Reachable id) :
    b.tableRows e keepNames (f id) = a.tableRows e keepNames id := by
  have here := h.tableName ha hb named reached
  have final : b.isFinal (f id) = a.isFinal id := h.isFinal reached
  rw [Automaton.tableRows, h.sortedArcs reached, final, h.finalWeight reached, here,
    List.map_map, Automaton.tableRows]
  refine congrArg (· ++ _) (List.map_congr_left fun arc mem => ?_)
  have there := h.tableName ha hb named (reached.target (mem_sortedArcs.mp mem))
  simp only [Function.comp_apply, Arc.target_moved, Arc.label_moved, Arc.weight_moved, there]

omit named in
theorem tableSymbols (e : Symbol) (side : Label → Symbol) :
    b.tableSymbols e side = a.tableSymbols e side := by
  apply h.flatMap_order ha hb
  intro id reached
  rw [h.sortedArcs reached, List.map_map]
  rfl

theorem table (e : Symbol) : b.table e keepNames = a.table e keepNames := by
  have names : b.canonicalOrder.map (b.tableName keepNames) =
      a.canonicalOrder.map (a.tableName keepNames) := by
    rw [h.canonicalOrder ha hb, List.map_map]
    apply List.map_congr_left
    intro id mem
    exact h.tableName ha hb named (ha.mem_canonicalOrder.mp mem)
  apply Table.ext
  · rw [hb.transitions_table, ha.transitions_table]
    exact congrArg Table.lines (h.flatMap_order ha hb fun id => h.tableRows ha hb named e)
  · rw [inputs_table, inputs_table, h.tableSymbols ha hb]
  · rw [outputs_table, outputs_table, h.tableSymbols ha hb]
  · rw [hb.names_table, ha.names_table, names]

end Table

end Renaming

/-- Renumbering changes the numbers of states and their names and nothing else. It keeps the states
that can be reached, those in the place `n` of the canonical order under the number and the name
`n`; walks and searches find the same, step by step; exports are the same, and a second renumbering
changes nothing. -/
theorem renumbered_equivalent (h : a.WellFormed) :
    (a.canonicalOrder.Nodup ∧ ∀ id, id ∈ a.canonicalOrder ↔ a.Reachable id) ∧
    (a.renumbered.size = a.canonicalOrder.length ∧
      (∀ n < a.renumbered.size, a.renumbered.Reachable n) ∧
      ∀ n id, a.canonicalOrder[n]? = some id → a.renumbered.state n =
        { a.state id with
          groups := (a.state id).movedGroups a.canonicalNumbering.of
          name := some (toString n) }) ∧
    (∀ k, (Move.run (Walk.step a.renumbered) (Walk.start a.renumbered) k).2 =
        (Move.run (Walk.step a) (Walk.start a) k).2 ∧
      (Move.run (Walk.step a.renumbered) (Walk.start a.renumbered) k).1.isSome =
        (Move.run (Walk.step a) (Walk.start a) k).1.isSome) ∧
    (∀ word d o k, let before : Query := ⟨a, d, o⟩
      let after : Query := ⟨a.renumbered, d, o⟩
      (Move.run (Search.step after) (Search.start after word) k).2 =
        (Move.run (Search.step before) (Search.start before word) k).2 ∧
      (Move.run (Search.step after) (Search.start after word) k).1.isSome =
        (Move.run (Search.step before) (Search.start before word) k).1.isSome) ∧
    ((∀ e, a.renumbered.table e false = a.table e false) ∧
      a.renumbered.dictionary = a.dictionary ∧
      ∀ name, a.renumbered.networkStatement name = a.networkStatement name) ∧
    a.renumbered.renumbered = a.renumbered := by
  have same := h.renaming_renumbered
  have after := h.renumbered
  have unnamed (e : Symbol) : a.renumbered.table e false = a.table e false :=
    same.table h.closed after.closed (fun keep => absurd keep (by decide)) e
  refine ⟨⟨a.canonicalOrder_nodup, fun id => h.mem_canonicalOrder⟩,
    ⟨h.size_renumbered, fun n lt => ?_, fun n id place => h.state_renumbered place⟩,
    Walk.run_renamed same, fun word d o k => Search.run_renamed (q := ⟨a, d, o⟩) same word k,
    ⟨unnamed, same.dictionary h.closed after.closed, fun name => ?_⟩, h.renumbered_renumbered⟩
  · rw [← after.mem_canonicalOrder, h.canonicalOrder_renumbered, List.mem_range,
      ← h.size_renumbered]
    exact lt
  · rw [networkStatement, networkStatement, same.network h.closed after.closed]

/-- Of three states one cannot be reached. -/
theorem renumbered_equivalent_unreachable :
    let a := ((empty.addState none).addState none).addArc 0 ⟨2, .pair "x" "y", .zero⟩
    a.WellFormed ∧ a.renumbered.size = a.canonicalOrder.length ∧ 2 ∈ a.canonicalOrder ∧
      1 ∉ a.canonicalOrder ∧ a.renumbered.dictionary = a.dictionary := by
  intro a
  have h : a.WellFormed :=
    ((wellFormed_empty.addState none).addState none).addArc (by decide) (by decide)
  obtain ⟨-, ⟨size, -⟩, -, -, ⟨-, dictionary, -⟩, -⟩ := renumbered_equivalent h
  exact ⟨h, size, by decide +kernel, by decide +kernel, dictionary⟩

end Automaton

end Transducer
