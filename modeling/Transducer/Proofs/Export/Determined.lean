import Mathlib.Data.List.Forall2
import Transducer.Proofs.Alphabet
import Transducer.Proofs.Automaton.Reached
import Transducer.Proofs.Export.Table
import Transducer.Proofs.Weight.Text
/-!
The table of arcs and final states tells what the arcs and final states are. Its rows are read back
from the text; a row of an arc has at least four fields and a row of a final state at most two, so
it cannot be one for the other wherever it stands, and with or without a weight.
-/

namespace Transducer

namespace Table

variable {rows : List (List String)} {row : List String} {e s t : Symbol} {w v : Weight}

/-- A text without the characters that end fields and lines. -/
def Clean (field : String) : Prop := '\t' ∉ field.toList ∧ '\n' ∉ field.toList

instance (field : String) : Decidable (Clean field) := inferInstanceAs (Decidable (_ ∧ _))

/-- The characters of a row up to the end of its line. -/
def chars (row : List String) : List Char := ['\t'].intercalate (row.map String.toList)

theorem toList_line (row : List String) : (line row).toList = chars row ++ ['\n'] := by
  rw [line, String.toList_append, String.toList_intercalate]
  rfl

/-- Lines are ended, not separated: behind the last one stands an empty text. -/
theorem toList_lines (rows : List (List String)) :
    (lines rows).toList = ['\n'].intercalate (rows.map chars ++ [[]]) := by
  rw [lines, toList_intercalate_empty, List.flatMap_map]
  induction rows with
  | nil => simp
  | cons row rest ih =>
    have more : rest.map chars ++ [[]] ≠ [] := by simp
    rw [List.flatMap_cons, ih, toList_line, List.map_cons, List.cons_append,
      List.intercalate_cons_of_ne_nil more]

/-- The fields of a row. -/
def fieldsOf (chars : List Char) : List String := (chars.splitOn '\t').map String.ofList

/-- The rows of a text of lines. -/
def rowsOf (text : String) : List (List String) :=
  (text.toList.splitOn '\n').dropLast.map fieldsOf

theorem fieldsOf_chars (clean : ∀ field ∈ row, Clean field) (some : row ≠ []) :
    fieldsOf (chars row) = row := by
  have free : ∀ part ∈ row.map String.toList, '\t' ∉ part := by
    intro part mem
    obtain ⟨field, here, rfl⟩ := List.mem_map.mp mem
    exact (clean field here).1
  rw [fieldsOf, chars, List.splitOn_intercalate '\t' free (by simpa using some), List.map_map]
  have same (field : String) : (String.ofList ∘ String.toList) field = field :=
    String.ofList_toList
  rw [List.map_congr_left fun field _ => same field, List.map_id']

theorem not_mem_chars (clean : ∀ field ∈ row, Clean field) : '\n' ∉ chars row := by
  rw [chars]
  induction row with
  | nil => simp
  | cons field rest ih =>
    obtain ⟨here, later⟩ := List.forall_mem_cons.mp clean
    cases rest with
    | nil => simpa using here.2
    | cons next rest =>
      rw [List.map_cons, List.map_cons, List.intercalate_cons_cons]
      intro mem
      rcases List.mem_append.mp mem with front | back
      · rcases List.mem_append.mp front with first | tab
        · exact here.2 first
        · exact absurd tab (by decide)
      · exact ih later back

/-- Rows of clean fields are read back from their lines. -/
theorem rowsOf_lines (clean : ∀ row ∈ rows, row ≠ [] ∧ ∀ field ∈ row, Clean field) :
    rowsOf (lines rows) = rows := by
  have free : ∀ part ∈ rows.map chars ++ [[]], '\n' ∉ part := by
    intro part mem
    rcases List.mem_append.mp mem with front | last
    · obtain ⟨row, here, rfl⟩ := List.mem_map.mp front
      exact not_mem_chars (clean row here).2
    · rw [List.mem_singleton.mp last]
      exact List.not_mem_nil
  rw [rowsOf, toList_lines, List.splitOn_intercalate '\n' free (by simp), List.dropLast_concat,
    List.map_map]
  have same : ∀ row ∈ rows, (fieldsOf ∘ chars) row = row := by
    intro row mem
    exact fieldsOf_chars (clean row mem).2 (clean row mem).1
  rw [List.map_congr_left same, List.map_id']

theorem number_eq_of_toString_eq {n m : Nat} (h : toString n = toString m) : n = m := by
  have digits := congrArg String.toList h
  rw [Nat.toString_eq_repr, Nat.toString_eq_repr, Nat.toList_repr, Nat.toList_repr] at digits
  calc n = Nat.ofDigitChars 10 (Nat.toDigits 10 n) 0 := Nat.ofDigitChars_ten_toDigits.symm
    _ = Nat.ofDigitChars 10 (Nat.toDigits 10 m) 0 := by rw [digits]
    _ = m := Nat.ofDigitChars_ten_toDigits

theorem clean_toString (n : Nat) : Clean (toString n) := by
  have digits {c : Char} (mem : c ∈ (toString n).toList) : c.isDigit := by
    rw [Nat.toString_eq_repr, Nat.toList_repr] at mem
    exact Nat.isDigit_of_mem_toDigits (by decide) (Nat.le_refl 10) mem
  refine ⟨fun mem => ?_, fun mem => ?_⟩
  · exact absurd (digits mem) (by decide)
  · exact absurd (digits mem) (by decide)

theorem clean_symbolField (he : Clean e) (hs : Clean s) : Clean (symbolField e s) := by
  rw [symbolField]
  split
  · exact he
  · exact hs

theorem clean_weightField (w : Weight) : ∀ field ∈ weightField w, Clean field := by
  intro field mem
  rw [weightField] at mem
  split at mem
  · exact absurd mem List.not_mem_nil
  · rw [List.mem_singleton.mp mem]
    exact w.text_free

theorem symbolField_injective (hs : s ≠ e) (ht : t ≠ e) (h : symbolField e s = symbolField e t) :
    s = t := by
  rw [symbolField, symbolField] at h
  split at h <;> split at h
  · next hs ht => rw [hs, ht]
  · exact absurd h.symm ht
  · exact absurd h hs
  · exact h

/-- A weight that is left out is zero, and one that is written is told by its text. -/
theorem same_of_weightField (h : weightField w = weightField v) : w.Same v := by
  rw [weightField, weightField] at h
  split at h <;> split at h
  · next zero zero' => exact Weight.same_of_isZero zero zero'
  · exact absurd h (by simp)
  · exact absurd h (by simp)
  · exact Weight.same_of_text_eq (List.singleton_inj.mp h)

end Table

/-- Items that are written in the same way, one by one, are related one by one. -/
theorem forall₂_of_map_eq {α β γ : Type} {R : α → β → Prop} {f : α → γ} {g : β → γ} {items : List α}
    {others : List β} (related : ∀ x ∈ items, ∀ y ∈ others, f x = g y → R x y)
    (same : items.map f = others.map g) : List.Forall₂ R items others := by
  induction items generalizing others with
  | nil =>
    rw [List.map_eq_nil_iff.mp same.symm]
    exact .nil
  | cons x rest ih =>
    cases others with
    | nil => exact absurd same (by simp)
    | cons y others =>
      obtain ⟨first, later⟩ := List.cons.inj same
      refine .cons (related x List.mem_cons_self y List.mem_cons_self first) (ih ?_ later)
      intro x hx y hy
      exact related x (List.mem_cons_of_mem _ hx) y (List.mem_cons_of_mem _ hy)

/-- One item for each of those that have a property. -/
theorem flatMap_singletons {α β : Type} (p : α → Bool) (f : α → β) (items : List α) :
    items.flatMap (fun x => if p x then [f x] else []) = (items.filter p).map f := by
  induction items with
  | nil => rfl
  | cons x rest ih => by_cases holds : p x <;> simp [holds, ih]

/-- An arc with the numbers of its states. -/
structure NumberedArc where
  source : Nat
  target : Nat
  input : Symbol
  output : Symbol
  weight : Weight

namespace NumberedArc

variable {x y : NumberedArc} {e : Symbol}

/-- The same but for weights that are equal as numbers or no numbers. -/
structure Same (x y : NumberedArc) : Prop where
  source : x.source = y.source
  target : x.target = y.target
  input : x.input = y.input
  output : x.output = y.output
  weight : x.weight.Same y.weight

/-- No symbol is the one that stands for the empty one, or separates fields or lines. -/
structure Legible (e : Symbol) (x : NumberedArc) : Prop where
  input : x.input ≠ e ∧ Table.Clean x.input
  output : x.output ≠ e ∧ Table.Clean x.output

def row (e : Symbol) (x : NumberedArc) : List String :=
  [toString x.source, toString x.target, Table.symbolField e x.input,
    Table.symbolField e x.output] ++ Table.weightField x.weight

theorem le_length_row (x : NumberedArc) (e : Symbol) : 4 ≤ (x.row e).length := by
  simp [row]

theorem same_of_row (hx : x.Legible e) (hy : y.Legible e) (h : x.row e = y.row e) : x.Same y := by
  obtain ⟨source, rest⟩ := List.cons.inj h
  obtain ⟨target, rest⟩ := List.cons.inj rest
  obtain ⟨input, rest⟩ := List.cons.inj rest
  obtain ⟨output, weight⟩ := List.cons.inj rest
  exact ⟨Table.number_eq_of_toString_eq source, Table.number_eq_of_toString_eq target,
    Table.symbolField_injective hx.input.1 hy.input.1 input,
    Table.symbolField_injective hx.output.1 hy.output.1 output, Table.same_of_weightField weight⟩

end NumberedArc

/-- A final state by its number, with its final weight. -/
structure NumberedFinal where
  state : Nat
  weight : Weight

namespace NumberedFinal

variable {x y : NumberedFinal}

structure Same (x y : NumberedFinal) : Prop where
  state : x.state = y.state
  weight : x.weight.Same y.weight

def row (x : NumberedFinal) : List String := toString x.state :: Table.weightField x.weight

theorem length_row_lt (x : NumberedFinal) : x.row.length < 4 := by
  rw [row, Table.weightField]
  split <;> simp

theorem same_of_row (h : x.row = y.row) : x.Same y := by
  obtain ⟨state, weight⟩ := List.cons.inj h
  exact ⟨Table.number_eq_of_toString_eq state, Table.same_of_weightField weight⟩

end NumberedFinal

namespace Automaton

variable {a b : Automaton} {e : Symbol} {id : StateId}

def numberedArc (a : Automaton) (id : StateId) (arc : Arc) : NumberedArc :=
  ⟨a.canonicalNumbering.of id, a.canonicalNumbering.of arc.target, arc.label.input,
    arc.label.output, arc.weight⟩

def numberedFinal (a : Automaton) (id : StateId) : NumberedFinal :=
  ⟨a.canonicalNumbering.of id, (a.state id).finalWeight⟩

/-- The arcs of the reachable states in canonical order, as the table lists them. -/
def arcsByNumber (a : Automaton) : List NumberedArc :=
  a.canonicalOrder.flatMap fun id => (a.state id).sortedArcs.map (a.numberedArc id)

/-- The reachable final states in canonical order. -/
def finalsByNumber (a : Automaton) : List NumberedFinal :=
  (a.canonicalOrder.filter a.isFinal).map a.numberedFinal

/-- No symbol on an arc of a reachable state holds a character that separates fields or lines. -/
def CleanSymbols (a : Automaton) : Prop :=
  ∀ id, a.Reachable id → ∀ arc ∈ (a.state id).arcs, ∀ s ∈ arc.label.symbols, Table.Clean s

/-- No symbol on any arc holds such a character. -/
def CleanArcs (a : Automaton) : Prop :=
  ∀ id, ∀ arc ∈ (a.state id).arcs, ∀ s ∈ arc.label.symbols, Table.Clean s

theorem cleanArcs_of_ids
    (h : ∀ id ∈ a.ids, ∀ arc ∈ (a.state id).arcs, ∀ s ∈ arc.label.symbols, Table.Clean s) :
    a.CleanArcs := by
  intro id arc mem
  exact h id (List.mem_range.mpr (lt_size_of_mem mem)) arc mem

theorem CleanArcs.cleanSymbols (clean : a.CleanArcs) : a.CleanSymbols := fun id _ => clean id

/-- Rows without such characters are read back from their lines. -/
theorem CleanSymbols.rowsOf_lines (clean : a.CleanSymbols) (he : Table.Clean e)
    {nameOf : StateId → String} (named : ∀ id, Table.Clean (nameOf id)) :
    Table.rowsOf (Table.lines (a.canonicalOrder.flatMap (a.writtenRows e nameOf))) =
      a.canonicalOrder.flatMap (a.writtenRows e nameOf) := by
  apply Table.rowsOf_lines
  intro row mem
  obtain ⟨id, here, listed⟩ := List.mem_flatMap.mp mem
  have reached := a.swept_canonicalOrder.1.reached id here
  rcases List.mem_append.mp listed with arcRow | finalRow
  · obtain ⟨arc, there, rfl⟩ := List.mem_map.mp arcRow
    have symbols := clean id reached arc (mem_sortedArcs.mp there)
    refine ⟨List.cons_ne_nil _ _, ?_⟩
    intro field fields
    rcases List.mem_append.mp fields with front | weight
    · simp only [List.mem_cons, List.not_mem_nil, or_false] at front
      rcases front with rfl | rfl | rfl | rfl
      · exact named id
      · exact named arc.target
      · exact Table.clean_symbolField he (symbols _ (Direction.produced_mem .analyze arc.label))
      · exact Table.clean_symbolField he (symbols _ (Direction.produced_mem .generate arc.label))
    · exact Table.clean_weightField _ field weight
  · split at finalRow
    · rw [List.mem_singleton.mp finalRow]
      refine ⟨List.cons_ne_nil _ _, List.forall_mem_cons.mpr ⟨named id, ?_⟩⟩
      exact Table.clean_weightField _
    · exact absurd finalRow List.not_mem_nil

/-- No symbol on an arc of a reachable state is the one that stands for the empty one, or separates
fields or lines. -/
def Legible (a : Automaton) (e : Symbol) : Prop :=
  ∀ id, a.Reachable id → ∀ arc ∈ (a.state id).arcs, ∀ s ∈ arc.label.symbols,
    s ≠ e ∧ Table.Clean s

theorem tableRows_eq (a : Automaton) (e : Symbol) (id : StateId) : a.tableRows e false id =
    (a.state id).sortedArcs.map (fun arc => (a.numberedArc id arc).row e) ++
      if a.isFinal id then [(a.numberedFinal id).row] else [] := rfl

/-- The rows of all states. -/
def rows (a : Automaton) (e : Symbol) : List (List String) :=
  a.canonicalOrder.flatMap (a.tableRows e false)

/-- The rows of arcs are those that have at least four fields. -/
theorem filter_rows_arcs (a : Automaton) (e : Symbol) :
    (a.rows e).filter (4 ≤ ·.length) = a.arcsByNumber.map (NumberedArc.row e) := by
  rw [rows, List.filter_flatMap, arcsByNumber, List.map_flatMap]
  apply List.flatMap_congr
  intro id _
  rw [tableRows_eq, List.filter_append, List.filter_eq_self.mpr, List.filter_eq_nil_iff.mpr,
    List.append_nil, List.map_map]
  · rfl
  · intro row mem
    split at mem
    · rw [List.mem_singleton.mp mem]
      simpa using (a.numberedFinal id).length_row_lt
    · exact absurd mem List.not_mem_nil
  · intro row mem
    obtain ⟨arc, _, rfl⟩ := List.mem_map.mp mem
    exact decide_eq_true ((a.numberedArc id arc).le_length_row e)

theorem filter_rows_finals (a : Automaton) (e : Symbol) :
    (a.rows e).filter (·.length < 4) = a.finalsByNumber.map NumberedFinal.row := by
  rw [rows, List.filter_flatMap, finalsByNumber, List.map_map, ← flatMap_singletons]
  apply List.flatMap_congr
  intro id _
  rw [tableRows_eq, List.filter_append, List.filter_eq_nil_iff.mpr, List.nil_append,
    List.filter_eq_self.mpr]
  · rfl
  · intro row mem
    split at mem
    · rw [List.mem_singleton.mp mem]
      exact decide_eq_true (a.numberedFinal id).length_row_lt
    · exact absurd mem List.not_mem_nil
  · intro row mem
    obtain ⟨arc, _, rfl⟩ := List.mem_map.mp mem
    simpa using (a.numberedArc id arc).le_length_row e

theorem CleanSymbols.rowsOf_table (clean : a.CleanSymbols) (closed : a.Closed)
    (he : Table.Clean e) : Table.rowsOf (a.table e false).transitions = a.rows e := by
  rw [closed.transitions_table]
  exact clean.rowsOf_lines he fun id => Table.clean_toString (a.canonicalNumbering.of id)

section Legible

variable (h : a.Legible e) (closed : a.Closed)
include h closed

theorem Legible.arcs : ∀ x ∈ a.arcsByNumber, x.Legible e := by
  intro x mem
  obtain ⟨id, here, listed⟩ := List.mem_flatMap.mp mem
  obtain ⟨arc, there, rfl⟩ := List.mem_map.mp listed
  have reached := closed.mem_canonicalOrder.mp here
  have legible := h id reached arc (mem_sortedArcs.mp there)
  exact ⟨legible _ (Direction.produced_mem .analyze arc.label),
    legible _ (Direction.produced_mem .generate arc.label)⟩

theorem Legible.rowsOf_transitions (he : Table.Clean e) :
    Table.rowsOf (a.table e false).transitions = a.rows e := by
  have clean : a.CleanSymbols := fun id reached arc mem s symbol => (h id reached arc mem s symbol).2
  exact clean.rowsOf_table closed he

end Legible

/-- Automata with the same table have the same arcs and the same final states, with canonical
numbers for states and with the same weights, if the symbols on arcs do not themselves hold tabs or
line ends and differ from what the empty symbol is written as. -/
theorem table_determines (ha : a.WellFormed) (hb : b.WellFormed) (he : Table.Clean e)
    (la : a.Legible e) (lb : b.Legible e)
    (same : (a.table e false).transitions = (b.table e false).transitions) :
    List.Forall₂ NumberedArc.Same a.arcsByNumber b.arcsByNumber ∧
      List.Forall₂ NumberedFinal.Same a.finalsByNumber b.finalsByNumber := by
  have rows : a.rows e = b.rows e := by
    rw [← la.rowsOf_transitions ha.closed he, same, lb.rowsOf_transitions hb.closed he]
  constructor
  · apply forall₂_of_map_eq (f := NumberedArc.row e) (g := NumberedArc.row e)
    · intro x hx y hy written
      exact NumberedArc.same_of_row (la.arcs ha.closed x hx) (lb.arcs hb.closed y hy) written
    · rw [← filter_rows_arcs, ← filter_rows_arcs, rows]
  · apply forall₂_of_map_eq (f := NumberedFinal.row) (g := NumberedFinal.row)
    · intro x _ y _ written
      exact NumberedFinal.same_of_row written
    · rw [← filter_rows_finals a e, ← filter_rows_finals b e, rows]

/-- Two ways to read and write a symbol, with zeros of different sign: the tables agree, and so do
the arcs and final states as numbered. -/
theorem table_determines_signed_zeros :
    let a := ofLabel (.identity "x") .zero
    let b := ofLabel (.pair "x" "x") ⟨0x8000000000000000⟩
    a ≠ b ∧ (a.table tableEpsilon false).transitions = (b.table tableEpsilon false).transitions ∧
      List.Forall₂ NumberedArc.Same a.arcsByNumber b.arcsByNumber ∧
      List.Forall₂ NumberedFinal.Same a.finalsByNumber b.finalsByNumber := by
  intro a b
  have wa : a.WellFormed := wellFormed_ofLabel _ _
  have wb : b.WellFormed := wellFormed_ofLabel _ _
  have clean : Table.Clean tableEpsilon := by decide
  have all {a : Automaton} (formed : a.WellFormed) (h : ∀ id < a.size, ∀ arc ∈ (a.state id).arcs,
      ∀ s ∈ arc.label.symbols, s ≠ tableEpsilon ∧ Table.Clean s) : a.Legible tableEpsilon :=
    fun id reached => h id (formed.closed id reached)
  have la : a.Legible tableEpsilon := all wa (by decide +kernel)
  have lb : b.Legible tableEpsilon := all wb (by decide +kernel)
  have same : (a.table tableEpsilon false).transitions =
      (b.table tableEpsilon false).transitions := by decide +kernel
  exact ⟨by decide +kernel, same, table_determines wa wb clean la lb same⟩

end Automaton

end Transducer
