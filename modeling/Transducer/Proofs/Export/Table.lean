import Transducer.Export.Table
import Transducer.Proofs.Automaton.Order
/-!
The rows of a table. States are written under the names of their numbers, so a table is what the
reachable states in canonical order say, one after the other.
-/

namespace Transducer

attribute [ext] Table

namespace Automaton

variable {a : Automaton} {id : StateId} {e : Symbol} {keepNames : Bool}

/-- How a table writes a state: by its name if names are kept and it has one, else by its number. -/
def tableName (a : Automaton) (keepNames : Bool) (id : StateId) : String :=
  match if keepNames then (a.state id).name else none with
  | some name => name
  | none => toString (a.canonicalNumbering.of id)

/-- The rows of a state: those of its arcs, and one if it is final. -/
def tableRows (a : Automaton) (e : Symbol) (keepNames : Bool) (id : StateId) :
    List (List String) :=
  (a.state id).sortedArcs.map (fun arc =>
    [a.tableName keepNames id, a.tableName keepNames arc.target,
      Table.symbolField e arc.label.input, Table.symbolField e arc.label.output] ++
      Table.weightField arc.weight) ++
    if a.isFinal id then
      [a.tableName keepNames id :: Table.weightField (a.state id).finalWeight]
    else []

/-- The rows of a state under given names of states. -/
def writtenRows (a : Automaton) (e : Symbol) (nameOf : StateId → String) (id : StateId) :
    List (List String) :=
  (a.state id).sortedArcs.map (fun arc =>
    [nameOf id, nameOf arc.target, Table.symbolField e arc.label.input,
      Table.symbolField e arc.label.output] ++ Table.weightField arc.weight) ++
    if a.isFinal id then [nameOf id :: Table.weightField (a.state id).finalWeight] else []

/-- The symbols on one side of the arcs, as a table writes them. -/
def tableSymbols (a : Automaton) (e : Symbol) (side : Label → Symbol) : List Symbol :=
  a.canonicalOrder.flatMap fun id =>
    (a.state id).sortedArcs.map fun arc => Table.symbolField e (side arc.label)

theorem Closed.map_zipIdx (h : a.Closed) {β : Type} (g : StateId × Nat → β) :
    a.canonicalOrder.zipIdx.map g =
      a.canonicalOrder.map fun id => g (id, a.canonicalNumbering.of id) := by
  apply List.ext_getElem (by simp)
  intro n here there
  have lt : n < a.canonicalOrder.length := by simpa using there
  simp [h.number_getElem lt]

section Table

variable (h : a.Closed) (e : Symbol) (keepNames : Bool)
include h

theorem Closed.getD_names (reached : a.Reachable id) :
    (a.canonicalOrder.map (a.tableName keepNames)).toArray.getD (a.canonicalNumbering.of id) "" =
      a.tableName keepNames id := by
  simp [h.getElem?_number reached]

theorem Closed.transitions_table : (a.table e keepNames).transitions =
    Table.lines (a.canonicalOrder.flatMap (a.tableRows e keepNames)) := by
  rw [table]
  dsimp only
  generalize names : a.canonicalNumbering.order.zipIdx.map _ = listed
  obtain rfl : a.canonicalOrder.map (a.tableName keepNames) = listed :=
    (h.map_zipIdx _).symm.trans names
  refine congrArg Table.lines (List.flatMap_congr fun id mem => ?_)
  have reached := h.mem_canonicalOrder.mp mem
  have arcs : ∀ arc ∈ (a.state id).sortedArcs, a.Reachable arc.target := by
    intro arc there
    exact reached.target (mem_sortedArcs.mp there)
  rw [tableRows, h.getD_names keepNames reached]
  refine congrArg (· ++ _) (List.map_congr_left fun arc there => ?_)
  rw [h.getD_names keepNames (arcs arc there)]

omit h in
theorem labels_tableArcs (side : Label → Symbol) :
    ((a.tableArcs a.canonicalOrder).map fun (_, arc) => arc.label).map
      (fun l => Table.symbolField e (side l)) = a.tableSymbols e side := by
  simp only [tableArcs, tableSymbols, List.map_flatMap, List.map_map]
  rfl

omit h in
theorem inputs_table : (a.table e keepNames).inputs =
    Table.codeLines ((SymbolCodes.start e).addAll (a.tableSymbols e Label.input)).symbols.toList :=
  congrArg (fun symbols => Table.codeLines ((SymbolCodes.start e).addAll symbols).symbols.toList)
    (labels_tableArcs e Label.input)

omit h in
theorem outputs_table : (a.table e keepNames).outputs =
    Table.codeLines ((SymbolCodes.start e).addAll (a.tableSymbols e Label.output)).symbols.toList :=
  congrArg (fun symbols => Table.codeLines ((SymbolCodes.start e).addAll symbols).symbols.toList)
    (labels_tableArcs e Label.output)

theorem Closed.names_table : (a.table e keepNames).names = if keepNames then
    some (Table.codeLines (a.canonicalOrder.map (a.tableName keepNames))) else none := by
  rw [table]
  dsimp only
  generalize names : a.canonicalNumbering.order.zipIdx.map _ = listed
  obtain rfl : a.canonicalOrder.map (a.tableName keepNames) = listed :=
    (h.map_zipIdx _).symm.trans names
  rfl

end Table

end Automaton

end Transducer
