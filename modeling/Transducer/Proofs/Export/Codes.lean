import Mathlib.Data.List.Induction
import Transducer.Export.Dictionary
import Transducer.Proofs.Export.Names
/-!
Codes of symbols. A table counts its symbols from 0, the spelling of the empty symbol first, and a
dictionary counts them from 3; both give the next code to each symbol that they meet for the first
time. So no code is left out or given twice, and the codes follow the order of first appearance.
-/

namespace Transducer

namespace SymbolCodes

variable {t : SymbolCodes} {order : List Symbol} {s : Symbol} {n : Nat}

/-- A table lists symbols in an order, and has each under its name with its place there. -/
structure Lists (t : SymbolCodes) (order : List Symbol) : Prop where
  symbols : t.symbols.toList = order
  codes : ∀ (s : Symbol) (n : Nat), t.codes[s]? = some n ↔ order[n]? = some s

theorem lists_empty : Lists {} [] := ⟨rfl, fun _ _ => by simp⟩

namespace Lists

theorem mem_iff (h : t.Lists order) : s ∈ order ↔ ∃ n, t.codes[s]? = some n := by
  simp only [h.codes, List.mem_iff_getElem?]

theorem push (h : t.Lists order) (new : t.codes[s]? = none) :
    Lists ⟨t.symbols.push s, t.codes.insert s t.symbols.size⟩ (order ++ [s]) := by
  have size : t.symbols.size = order.length := by rw [← h.symbols, Array.length_toList]
  constructor
  · rw [Array.toList_push, h.symbols]
  · intro other n
    rw [getElem?_insert_eq_some_iff new, getElem?_snoc_eq_some_iff, h.codes, size]

/-- Asking for the code of a symbol lists it at the end, unless it is listed. The answer is the
place that it has then. -/
theorem code (h : t.Lists order) (s : Symbol) :
    (t.code s).2.Lists (if s ∈ order then order else order ++ [s]) ∧
      (t.code s).2.codes[s]? = some (t.code s).1 := by
  rw [SymbolCodes.code]
  cases hc : t.codes[s]? with
  | some n =>
    rw [if_pos (h.mem_iff.mpr ⟨n, hc⟩)]
    exact ⟨h, hc⟩
  | none =>
    rw [if_neg (by simp [h.mem_iff, hc])]
    exact ⟨h.push hc, Std.HashMap.getElem?_insert_self⟩

end Lists

/-- The table of a first symbol and all that are added lists each of them once, in their order. -/
theorem lists_addAll (e : Symbol) (symbols : List Symbol) :
    ((start e).addAll symbols).Lists (e :: symbols).eraseDups := by
  have fold (done : List Symbol) (t : SymbolCodes) (lists : t.Lists done.eraseDups) :
      (t.addAll symbols).Lists (done ++ symbols).eraseDups := by
    induction symbols generalizing done t with
    | nil =>
      rw [List.append_nil]
      exact lists
    | cons s rest ih =>
      have step : (t.code s).2.Lists (done ++ [s]).eraseDups := by
        rw [eraseDups_snoc]
        simpa only [List.mem_eraseDups] using (lists.code s).1
      have all := ih (done ++ [s]) (t.code s).2 step
      rwa [List.append_assoc] at all
  exact fold [e] (start e) (lists_empty.code e).1

end SymbolCodes

namespace Table

/-- A text of codes lists symbols, each once, with codes from 0 on: first `e`, then the fields of a
column as they first appear there. -/
structure Counts (text : String) (e : Symbol) (column symbols : List Symbol) : Prop where
  rows : rowsOf text = symbols.zipIdx.map fun (s, code) => [s, toString code]
  distinct : symbols.Nodup
  first : symbols.head? = some e
  mem : ∀ s, s ∈ symbols ↔ s = e ∨ s ∈ column
  order : symbols = (e :: column).eraseDups

theorem counts_codeLines {e : Symbol} {column : List Symbol} (he : Clean e)
    (clean : ∀ s ∈ column, Clean s) :
    Counts (codeLines (e :: column).eraseDups) e column (e :: column).eraseDups where
  rows := by
    rw [codeLines, rowsOf_lines]
    intro row mem
    obtain ⟨⟨s, code⟩, there, rfl⟩ := List.mem_map.mp mem
    have listed := List.mem_eraseDups.mp (List.fst_mem_of_mem_zipIdx there)
    have spelled : Clean s := by
      rcases List.mem_cons.mp listed with rfl | field
      · exact he
      · exact clean s field
    exact ⟨List.cons_ne_nil _ _, by simpa using ⟨spelled, clean_toString code⟩⟩
  distinct := nodup_eraseDups _
  first := by simp [List.eraseDups_cons]
  mem s := by rw [List.mem_eraseDups, List.mem_cons]
  order := rfl

/-- The fields of a column; of the rows of transitions, only those of arcs have more than two. -/
def column (rows : List (List String)) (place : Nat) : List String := rows.filterMap (·[place]?)

end Table

namespace Automaton

variable {a : Automaton} {e : Symbol} {keepNames : Bool}

/-- If names are kept, none of them holds such a character. -/
def CleanNames (a : Automaton) (keepNames : Bool) : Prop :=
  keepNames = true → ∀ id, ∀ name ∈ (a.state id).name, Table.Clean name

theorem CleanSymbols.mem_tableSymbols (clean : a.CleanSymbols) (he : Table.Clean e)
    {side : Label → Symbol} (symbol : ∀ l : Label, side l ∈ l.symbols) :
    ∀ s ∈ a.tableSymbols e side, Table.Clean s := by
  intro s mem
  obtain ⟨id, here, listed⟩ := List.mem_flatMap.mp mem
  obtain ⟨arc, there, rfl⟩ := List.mem_map.mp listed
  have reached := a.swept_canonicalOrder.1.reached id here
  exact Table.clean_symbolField he
    (clean id reached arc (mem_sortedArcs.mp there) _ (symbol arc.label))

theorem inputs_eq (a : Automaton) (e : Symbol) (keepNames : Bool) : (a.table e keepNames).inputs =
    Table.codeLines (e :: a.tableSymbols e Label.input).eraseDups := by
  rw [inputs_table, (SymbolCodes.lists_addAll ..).symbols]

theorem outputs_eq (a : Automaton) (e : Symbol) (keepNames : Bool) : (a.table e keepNames).outputs =
    Table.codeLines (e :: a.tableSymbols e Label.output).eraseDups := by
  rw [outputs_table, (SymbolCodes.lists_addAll ..).symbols]

/-- The rows of a table are those of its states, one after the other, under the names that it has
for them. If these hold no tab or line end, the rows can be read off the text. -/
theorem exists_rows_table (clean : a.CleanSymbols) (he : Table.Clean e) (keepNames : Bool) :
    ∃ nameOf : StateId → String,
      let rows := a.canonicalOrder.flatMap (a.writtenRows e nameOf)
      (a.table e keepNames).transitions = Table.lines rows ∧
        (a.CleanNames keepNames → Table.rowsOf (a.table e keepNames).transitions = rows) := by
  refine ⟨_, rfl, fun names => clean.rowsOf_lines he ?_⟩
  intro id
  generalize listed : a.canonicalNumbering.order.zipIdx.map _ = names'
  have all : ∀ name ∈ names', Table.Clean name := by
    rw [← listed]
    intro name mem
    obtain ⟨⟨id, n⟩, _, rfl⟩ := List.mem_map.mp mem
    dsimp only
    split
    · next name kept =>
      cases keepNames with
      | false => exact absurd kept (by simp)
      | true => exact names rfl id name kept
    · exact Table.clean_toString n
  rw [Array.getD_eq_getD_getElem?]
  cases found : names'.toArray[a.canonicalNumbering.of id]? with
  | none => exact (by decide : Table.Clean "")
  | some name => exact all name (List.mem_of_getElem? (by simpa using found))

/-- The third and the fourth column of the transitions hold the symbols of the arcs. -/
theorem column_writtenRows (a : Automaton) (e : Symbol) (nameOf : StateId → String) :
    let rows := a.canonicalOrder.flatMap (a.writtenRows e nameOf)
    Table.column rows 2 = a.tableSymbols e Label.input ∧
      Table.column rows 3 = a.tableSymbols e Label.output := by
  have final (w : Weight) (name : String) (k : Nat) (past : 2 ≤ k) :
      (name :: Table.weightField w)[k]? = none := by
    rw [Table.weightField]
    apply List.getElem?_eq_none
    split <;> simp <;> omega
  constructor
  all_goals
    rw [Table.column, List.filterMap_flatMap, tableSymbols]
    apply List.flatMap_congr
    intro id _
    rw [writtenRows, List.filterMap_append, List.filterMap_map]
    split <;> simp [final]

end Automaton

namespace Dictionary

/-- Symbols have codes from the first free one on, in the order of a list. -/
structure Counted (codes : List (Symbol × Nat)) (order : List Symbol) : Prop where
  keys : Ordered.Increasing (codes.map Prod.fst)
  mem : ∀ s n, (s, n) ∈ codes ↔ ∃ k, order[k]? = some s ∧ n = firstCode + k
  length : codes.length = order.length

namespace Counted

variable {codes : List (Symbol × Nat)} {order : List Symbol} {s : Symbol}

theorem mem_keys_iff (h : Counted codes order) : s ∈ codes.map Prod.fst ↔ s ∈ order := by
  constructor
  · intro mem
    obtain ⟨⟨_, n⟩, there, rfl⟩ := List.mem_map.mp mem
    obtain ⟨k, here, -⟩ := (h.mem _ n).mp there
    exact List.mem_of_getElem? here
  · intro mem
    obtain ⟨k, here⟩ := List.mem_iff_getElem?.mp mem
    exact List.mem_map.mpr ⟨_, (h.mem s _).mpr ⟨k, here, rfl⟩, rfl⟩

theorem isSome_lookup_iff (h : Counted codes order) : (codes.lookup s).isSome ↔ s ∈ order := by
  rw [← h.mem_keys_iff, Option.isSome_iff_exists, List.mem_map]
  simp [h.keys.lookup_eq_some_iff]

theorem put (h : Counted codes order) (new : s ∉ order) :
    Counted (Ordered.put s (firstCode + order.length) codes) (order ++ [s]) := by
  have added : (Ordered.put s (firstCode + order.length) codes).Perm
      ((s, firstCode + order.length) :: codes) :=
    Ordered.perm_alter_of_new (mt h.mem_keys_iff.mp new)
  refine ⟨Ordered.increasing_alter h.keys, ?_, ?_⟩
  · intro t n
    rw [added.mem_iff, List.mem_cons, h.mem, Prod.mk.injEq]
    simp only [getElem?_snoc_eq_some_iff]
    constructor
    · rintro (⟨rfl, rfl⟩ | ⟨k, here, rfl⟩)
      · exact ⟨order.length, .inr ⟨rfl, rfl⟩, rfl⟩
      · exact ⟨k, .inl here, rfl⟩
    · rintro ⟨k, here | ⟨rfl, rfl⟩, rfl⟩
      · exact .inr ⟨k, here, rfl⟩
      · exact .inl ⟨rfl, rfl⟩
  · rw [added.length_eq, List.length_cons, h.length, List.length_append]
    rfl

end Counted

/-- The symbols discovered so far, in an order, have codes, and their count tells the next one. -/
structure Discovery.Lists (d : Discovery) (order : List Symbol) : Prop where
  counted : Counted d.codes order
  discovered : d.discovered = order.length

/-- Only a symbol that is not empty and has no code is counted. -/
theorem Discovery.Lists.add {d : Discovery} {order : List Symbol} (h : d.Lists order) (s : Symbol) :
    (d.add s).Lists (if s = epsilon ∨ s ∈ order then order else order ++ [s]) := by
  have known := h.counted.isSome_lookup_iff (s := s)
  rw [Discovery.add]
  by_cases kept : s = epsilon ∨ s ∈ order
  · rw [if_pos kept, if_pos (by simpa [known] using kept)]
    exact h
  · rw [if_neg kept, if_neg (by simpa [known] using kept), h.discovered]
    refine ⟨h.counted.put fun old => kept (.inr old), ?_⟩
    rw [List.length_append, List.length_singleton]

theorem lists_foldl_add (symbols : List Symbol) :
    (symbols.foldl Discovery.add {}).Lists (symbols.filter (· ≠ epsilon)).eraseDups := by
  induction symbols using List.reverseRecOn with
  | nil => exact ⟨⟨.nil, by simp, rfl⟩, rfl⟩
  | append_singleton done s ih =>
    have step := ih.add s
    rw [List.foldl_concat, List.filter_append]
    by_cases empty : s = epsilon
    · simpa [empty] using step
    · have one : [s].filter (· ≠ epsilon) = [s] := by simp [empty]
      rw [one, eraseDups_snoc]
      simpa [empty] using step

theorem counted_codes (symbols : List Symbol) :
    Counted (codes symbols) (symbols.filter (· ≠ epsilon)).eraseDups :=
  (lists_foldl_add symbols).counted

end Dictionary

namespace Automaton

/-- The symbols on the arcs of the reachable states in canonical order, that which is read before
that which is written. -/
def symbolsInOrder (a : Automaton) : List Symbol :=
  a.canonicalOrder.flatMap fun id => (a.state id).sortedArcs.flatMap fun arc => arc.label.symbols

theorem mem_symbolsInOrder {a : Automaton} {s : Symbol} : s ∈ a.symbolsInOrder ↔
    ∃ id, a.Reachable id ∧ ∃ arc ∈ (a.state id).arcs, s ∈ arc.label.symbols := by
  simp only [symbolsInOrder, List.mem_flatMap, mem_sortedArcs]
  constructor
  · rintro ⟨id, here, arc, there, symbol⟩
    exact ⟨id, a.swept_canonicalOrder.1.reached id here, arc, there, symbol⟩
  · rintro ⟨id, reached, arc, there, symbol⟩
    exact ⟨id, reached.mem_canonicalOrder (lt_size_of_mem there), arc, there, symbol⟩

/-- Tables of inputs and outputs count from 0 the spelling of the empty symbol and the symbols in
the columns of the transitions as they are written, with or without the names of states; if no name
holds a tab or a line end, these are the columns that can be read. A dictionary counts from 3 the
symbols of the reachable arcs but the empty one. -/
theorem symbol_codes_dense (a : Automaton) :
    (∀ e, Table.Clean e → a.CleanSymbols → ∀ keepNames,
      let t := a.table e keepNames
      ∃ nameOf : StateId → String,
        let rows := a.canonicalOrder.flatMap (a.writtenRows e nameOf)
        t.transitions = Table.lines rows ∧
          (a.CleanNames keepNames → Table.rowsOf t.transitions = rows) ∧
          (∃ symbols, Table.Counts t.inputs e (Table.column rows 2) symbols) ∧
          ∃ symbols, Table.Counts t.outputs e (Table.column rows 3) symbols) ∧
    (∀ e, (a.table e true).inputs = (a.table e false).inputs ∧
      (a.table e true).outputs = (a.table e false).outputs) ∧
    ∃ order, Dictionary.Counted a.dictionary.alphabet order ∧ order.Nodup ∧
      order = (a.symbolsInOrder.filter (· ≠ epsilon)).eraseDups ∧
      ∀ s, s ∈ order ↔ s ≠ epsilon ∧
        ∃ id, a.Reachable id ∧ ∃ arc ∈ (a.state id).arcs, s ∈ arc.label.symbols := by
  refine ⟨?_, ?_, ?_⟩
  · intro e he clean keepNames t
    obtain ⟨nameOf, text, read⟩ := exists_rows_table clean he keepNames
    obtain ⟨inputs, outputs⟩ := a.column_writtenRows e nameOf
    have spelled := clean.mem_tableSymbols he (Direction.produced_mem .analyze)
    have written := clean.mem_tableSymbols he (Direction.produced_mem .generate)
    refine ⟨nameOf, text, read, ?_⟩
    rw [inputs, inputs_eq, outputs, outputs_eq]
    exact ⟨⟨_, Table.counts_codeLines he spelled⟩, ⟨_, Table.counts_codeLines he written⟩⟩
  · intro e
    simp only [inputs_eq, outputs_eq, and_self]
  · refine ⟨_, Dictionary.counted_codes a.symbolsInOrder, nodup_eraseDups _, rfl, ?_⟩
    intro s
    rw [List.mem_eraseDups, List.mem_filter, decide_eq_true_eq, mem_symbolsInOrder, and_comm]

/-- Identities, pairs, the empty symbol, a symbol that is spelled like it, a name with a tab, and an
unreachable state whose symbol has no code. -/
theorem symbol_codes_dense_spelled_epsilon :
    let arc (target : StateId) (l : Label) : Arc := ⟨target, l, .zero⟩
    let a : Automaton := { states := #[
      { groups := [(.identity "@0@", [arc 1 (.identity "@0@")]),
          (.pair "b" "", [arc 0 (.pair "b" "")])], name := some "fir\tst" },
      { groups := [(.identity "b", [arc 1 (.identity "b")]), (.pair "" "c", [arc 0 (.pair "" "c")])],
        finalWeight := .zero },
      { groups := [(.identity "d", [arc 0 (.identity "d")])] }], finals := [1] }
    let t := a.table "@0@" true
    Table.Clean "@0@" ∧ a.CleanSymbols ∧
      t.inputs = "@0@\t0\nb\t1\n" ∧ t.outputs = "@0@\t0\nb\t1\nc\t2\n" ∧
      a.dictionary.alphabet = [("@0@", 3), ("b", 4), ("c", 5)] ∧
      ∃ nameOf : StateId → String,
        let rows := a.canonicalOrder.flatMap (a.writtenRows "@0@" nameOf)
        t.transitions = Table.lines rows ∧
          (∃ symbols, Table.Counts t.inputs "@0@" (Table.column rows 2) symbols) ∧
          ∃ symbols, Table.Counts t.outputs "@0@" (Table.column rows 3) symbols := by
  intro arc a t
  have spelling : Table.Clean "@0@" := by decide +kernel
  have arcs : a.CleanArcs := cleanArcs_of_ids (by decide +kernel)
  have inputs : t.inputs = "@0@\t0\nb\t1\n" := by
    rw [a.inputs_eq]
    decide +kernel
  have outputs : t.outputs = "@0@\t0\nb\t1\nc\t2\n" := by
    rw [a.outputs_eq]
    decide +kernel
  obtain ⟨nameOf, text, -, counts⟩ := (symbol_codes_dense a).1 "@0@" spelling arcs.cleanSymbols true
  exact ⟨spelling, arcs.cleanSymbols, inputs, outputs, by decide +kernel, nameOf, text, counts⟩

end Automaton

end Transducer
