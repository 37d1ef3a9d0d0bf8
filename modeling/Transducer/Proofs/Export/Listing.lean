import Mathlib.Data.Set.Function
import Transducer.Proofs.ArcSet
import Transducer.Proofs.Export.Determined
/-!
The listing against the table. The listing numbers all states, those that can be reached as the
table does, and puts the final states behind all arcs. So its rows of reachable states are the rows
of the table, each with the weight that the table leaves out.
-/

namespace Transducer

namespace Table

/-- A zero weight as it is written where none is left out. -/
def omitted (w : Weight) : List String := if w.isZero then [w.text] else []

theorem weightField_omitted (w : Weight) : weightField w ++ omitted w = [w.text] := by
  rw [weightField, omitted]
  split <;> rfl

def isArcRow (row : List String) : Bool := 4 ≤ row.length

/-- The first field is a number below a bound. -/
def startsBelow (bound : Nat) (row : List String) : Bool :=
  (List.range bound).any fun n => row.head? = some (toString n)

theorem startsBelow_cons (bound n : Nat) (fields : List String) :
    startsBelow bound (toString n :: fields) = decide (n < bound) := by
  rw [Bool.eq_iff_iff, startsBelow, List.any_eq_true, decide_eq_true_eq]
  constructor
  · rintro ⟨k, mem, same⟩
    have text : toString n = toString k := by simpa using same
    rw [number_eq_of_toString_eq text]
    exact List.mem_range.mp mem
  · intro lt
    exact ⟨n, List.mem_range.mpr lt, by simp⟩

end Table

namespace NumberedArc

/-- The row of an arc with its weight, whatever that is. -/
def fullRow (e : Symbol) (x : NumberedArc) : List String := x.row e ++ Table.omitted x.weight

theorem fullRow_eq (e : Symbol) (x : NumberedArc) : x.fullRow e =
    [toString x.source, toString x.target, Table.symbolField e x.input,
      Table.symbolField e x.output, x.weight.text] := by
  rw [fullRow, row, List.append_assoc, Table.weightField_omitted]
  rfl

end NumberedArc

namespace NumberedFinal

def fullRow (x : NumberedFinal) : List String := x.row ++ Table.omitted x.weight

theorem fullRow_eq (x : NumberedFinal) : x.fullRow = [toString x.state, x.weight.text] := by
  rw [fullRow, row, List.cons_append, Table.weightField_omitted]

end NumberedFinal

namespace Automaton

variable {a : Automaton} {id : StateId}

/-- The states that cannot be reached, in the order in which they were added. -/
def unreached (a : Automaton) : List StateId := a.ids.filter (· ∉ a.canonicalOrder)

theorem completeNumbering_of (lt : id < a.size) :
    a.completeNumbering.of id = a.completeOrder.idxOf id := by
  have bound : ∀ id ∈ a.completeOrder, id < a.size := fun _ => mem_completeOrder.mp
  have number := Numbering.number?_ofOrder a.completeOrder_nodup bound id
  rw [if_pos (mem_completeOrder.mpr lt)] at number
  rw [Numbering.of, completeNumbering, number]
  rfl

theorem completeOrder_perm (a : Automaton) : a.completeOrder.Perm a.ids := by
  apply (List.perm_ext_iff_of_nodup a.completeOrder_nodup List.nodup_range).mpr
  intro id
  rw [mem_completeOrder]
  exact List.mem_range.symm

/-- A state has a number if and only if it stands there in the order. -/
theorem getElem?_completeOrder_iff {n : Nat} : a.completeOrder[n]? = some id ↔
    id < a.size ∧ a.completeNumbering.of id = n := by
  constructor
  · intro here
    obtain ⟨lt, same⟩ := List.getElem?_eq_some_iff.mp here
    have there := mem_completeOrder.mp (List.mem_of_getElem? here)
    refine ⟨there, ?_⟩
    rw [completeNumbering_of there, ← same]
    exact a.completeOrder_nodup.idxOf_getElem n lt
  · rintro ⟨lt, rfl⟩
    rw [completeNumbering_of lt]
    exact List.getElem?_idxOf (mem_completeOrder.mpr lt)

/-- The numbers of a listing: all from 0 on are given, the canonical ones to the states that can be
reached, and those behind them to the other states in their order. -/
structure Completes (a : Automaton) : Prop where
  bijective : Set.BijOn a.completeNumbering.of {id | id < a.size} {n | n < a.size}
  reachable : ∀ id, a.Reachable id → a.completeNumbering.of id = a.canonicalNumbering.of id
  order : ∀ n id, (a.canonicalOrder ++ a.unreached)[n]? = some id ↔
    id < a.size ∧ a.completeNumbering.of id = n
  unreachable : a.unreached.Pairwise (· < ·) ∧
    ∀ id, id ∈ a.unreached ↔ id < a.size ∧ ¬a.Reachable id

theorem WellFormed.completes (h : a.WellFormed) : a.Completes where
  bijective := by
    have length : a.completeOrder.length = a.size := by
      rw [a.completeOrder_perm.length_eq]
      exact List.length_range
    refine ⟨?_, ?_, ?_⟩
    · intro id lt
      obtain ⟨small, -⟩ := List.getElem?_eq_some_iff.mp (getElem?_completeOrder_iff.mpr ⟨lt, rfl⟩)
      exact length ▸ small
    · intro id lt other there same
      have here := getElem?_completeOrder_iff.mpr ⟨lt, same⟩
      rw [getElem?_completeOrder_iff.mpr ⟨there, rfl⟩] at here
      exact (Option.some.inj here).symm
    · intro n lt
      have lt : n < a.completeOrder.length := length ▸ lt
      exact ⟨_, getElem?_completeOrder_iff.mp (List.getElem?_eq_getElem lt)⟩
  reachable id reached := by
    have mem := h.mem_canonicalOrder.mpr reached
    rw [completeNumbering_of (h.closed id reached), completeOrder_eq,
      List.idxOf_append_of_mem mem, h.closed.number_eq reached]
  order n id := by
    rw [unreached, ← completeOrder_eq]
    exact getElem?_completeOrder_iff
  unreachable := by
    refine ⟨List.pairwise_lt_range.filter _, ?_⟩
    intro id
    rw [unreached, List.mem_filter, decide_eq_true_eq, h.mem_canonicalOrder]
    exact and_congr_left' List.mem_range

/-- An arc with the numbers of a listing. -/
def listedArc (a : Automaton) (id : StateId) (arc : Arc) : NumberedArc :=
  ⟨a.completeNumbering.of id, a.completeNumbering.of arc.target, arc.label.input,
    arc.label.output, arc.weight⟩

def listedFinal (a : Automaton) (id : StateId) : NumberedFinal :=
  ⟨a.completeNumbering.of id, (a.state id).finalWeight⟩

def listedArcs (a : Automaton) (order : List StateId) : List NumberedArc :=
  order.flatMap fun id => (a.state id).sortedArcs.map (a.listedArc id)

def listedFinals (a : Automaton) (order : List StateId) : List NumberedFinal :=
  (order.filter a.isFinal).map a.listedFinal

/-- The rows of a listing: those of all arcs, then those of all final states. -/
def listedRows (a : Automaton) : List (List String) :=
  (a.listedArcs a.completeOrder).map (NumberedArc.fullRow tableEpsilon) ++
    (a.listedFinals a.completeOrder).map NumberedFinal.fullRow

theorem listing_eq (a : Automaton) : a.listing = Table.lines a.listedRows := by
  have arcs : (a.listedArcs a.completeOrder).map (NumberedArc.fullRow tableEpsilon) =
      (a.tableArcs a.completeOrder).map fun p =>
        (a.listedArc p.1 p.2).fullRow tableEpsilon := by
    simp only [listedArcs, tableArcs, List.map_flatMap, List.map_map]
    rfl
  rw [listedRows, arcs, listedFinals, List.map_map]
  simp only [NumberedArc.fullRow_eq, Function.comp_def, NumberedFinal.fullRow_eq]
  rfl

theorem CleanArcs.rowsOf_listing (clean : a.CleanArcs) : Table.rowsOf a.listing = a.listedRows := by
  rw [listing_eq]
  apply Table.rowsOf_lines
  intro row mem
  rcases List.mem_append.mp mem with arcRow | finalRow
  · obtain ⟨x, listed, rfl⟩ := List.mem_map.mp arcRow
    obtain ⟨id, _, here⟩ := List.mem_flatMap.mp listed
    obtain ⟨arc, there, rfl⟩ := List.mem_map.mp here
    have symbols := clean id arc (mem_sortedArcs.mp there)
    have input := symbols _ (Direction.produced_mem .analyze arc.label)
    have output := symbols _ (Direction.produced_mem .generate arc.label)
    have spelling : Table.Clean tableEpsilon := by decide
    rw [NumberedArc.fullRow_eq]
    refine ⟨List.cons_ne_nil _ _, ?_⟩
    simp only [List.forall_mem_cons]
    exact ⟨Table.clean_toString _, Table.clean_toString _, Table.clean_symbolField spelling input,
      Table.clean_symbolField spelling output, Weight.text_free _, List.forall_mem_nil _⟩
  · obtain ⟨x, _, rfl⟩ := List.mem_map.mp finalRow
    rw [NumberedFinal.fullRow_eq]
    refine ⟨List.cons_ne_nil _ _, ?_⟩
    simp only [List.forall_mem_cons]
    exact ⟨Table.clean_toString _, Weight.text_free _, List.forall_mem_nil _⟩

theorem isArcRow_fullRow (x : NumberedArc) (e : Symbol) : Table.isArcRow (x.fullRow e) = true := by
  rw [NumberedArc.fullRow_eq]
  rfl

theorem isArcRow_fullRow_final (x : NumberedFinal) : Table.isArcRow x.fullRow = false := by
  rw [NumberedFinal.fullRow_eq]
  rfl

/-- Only rows of arcs have more than two fields. -/
theorem filter_listedRows (a : Automaton) :
    a.listedRows.filter Table.isArcRow =
        (a.listedArcs a.completeOrder).map (NumberedArc.fullRow tableEpsilon) ∧
      a.listedRows.filter (!Table.isArcRow ·) =
        (a.listedFinals a.completeOrder).map NumberedFinal.fullRow := by
  constructor
  all_goals
    rw [listedRows, List.filter_append, List.filter_map, List.filter_map]
    simp [Function.comp_def, isArcRow_fullRow, isArcRow_fullRow_final]

theorem WellFormed.listedArcs_canonicalOrder (h : a.WellFormed) :
    a.listedArcs a.canonicalOrder = a.arcsByNumber := by
  apply List.flatMap_congr
  intro id mem
  apply List.map_congr_left
  intro arc there
  have reached := h.mem_canonicalOrder.mp mem
  have target := reached.target (mem_sortedArcs.mp there)
  rw [listedArc, h.completes.reachable id reached, h.completes.reachable _ target]
  rfl

theorem WellFormed.listedFinals_canonicalOrder (h : a.WellFormed) :
    a.listedFinals a.canonicalOrder = a.finalsByNumber := by
  apply List.map_congr_left
  intro id mem
  have reached := h.mem_canonicalOrder.mp (List.mem_filter.mp mem).1
  rw [listedFinal, h.completes.reachable id reached]
  rfl

/-- A number is canonical if it is below the number of states that can be reached. -/
theorem WellFormed.number_lt_iff (h : a.WellFormed) (lt : id < a.size) :
    a.completeNumbering.of id < a.canonicalOrder.length ↔ a.Reachable id := by
  constructor
  · intro small
    have here := (h.completes.order _ id).mpr ⟨lt, rfl⟩
    rw [List.getElem?_append_left small] at here
    exact h.mem_canonicalOrder.mp (List.mem_of_getElem? here)
  · intro reached
    rw [h.completes.reachable id reached]
    exact h.closed.number_lt reached

/-- The items that come from reachable states are those of the canonical order. -/
theorem WellFormed.filter_flatMap_completeOrder (h : a.WellFormed) {β : Type} {p : β → Bool}
    {f : StateId → List β}
    (numbers : ∀ id, ∀ x ∈ f id, p x = decide (a.completeNumbering.of id < a.canonicalOrder.length)) :
    (a.completeOrder.flatMap f).filter p = a.canonicalOrder.flatMap f := by
  rw [completeOrder_eq, List.flatMap_append, List.filter_append, List.filter_eq_self.mpr,
    List.filter_eq_nil_iff.mpr, List.append_nil]
  · intro x mem
    obtain ⟨id, here, there⟩ := List.mem_flatMap.mp mem
    obtain ⟨lt, unreached⟩ := (h.completes.unreachable.2 id).mp here
    rw [numbers id x there, decide_eq_true_eq, h.number_lt_iff lt]
    exact unreached
  · intro x mem
    obtain ⟨id, here, there⟩ := List.mem_flatMap.mp mem
    have reached := h.mem_canonicalOrder.mp here
    rw [numbers id x there, decide_eq_true_eq, h.number_lt_iff (h.closed id reached)]
    exact reached

theorem WellFormed.filter_listedArcs (h : a.WellFormed) :
    ((a.listedArcs a.completeOrder).map (NumberedArc.fullRow tableEpsilon)).filter
        (Table.startsBelow a.canonicalOrder.length) =
      a.arcsByNumber.map (NumberedArc.fullRow tableEpsilon) := by
  rw [← h.listedArcs_canonicalOrder, listedArcs, listedArcs, List.map_flatMap, List.map_flatMap]
  apply h.filter_flatMap_completeOrder
  intro id row mem
  obtain ⟨x, listed, rfl⟩ := List.mem_map.mp mem
  obtain ⟨arc, _, rfl⟩ := List.mem_map.mp listed
  rw [NumberedArc.fullRow_eq, Table.startsBelow_cons]
  rfl

theorem WellFormed.filter_listedFinals (h : a.WellFormed) :
    ((a.listedFinals a.completeOrder).map NumberedFinal.fullRow).filter
        (Table.startsBelow a.canonicalOrder.length) =
      a.finalsByNumber.map NumberedFinal.fullRow := by
  rw [← h.listedFinals_canonicalOrder, listedFinals, listedFinals, List.map_map, List.map_map,
    ← flatMap_singletons, ← flatMap_singletons]
  apply h.filter_flatMap_completeOrder
  intro id row mem
  split at mem
  · rw [List.mem_singleton.mp mem]
    show Table.startsBelow _ (a.listedFinal id).fullRow = _
    rw [NumberedFinal.fullRow_eq, Table.startsBelow_cons]
    rfl
  · exact absurd mem List.not_mem_nil

/-- What a listing and a table tell, row by row. All arcs stand in the listing, and behind them all
final states. What it says of reachable states is what the table says, in the same order, but that
the table leaves out weights of zero. -/
structure Agree (a : Automaton) (listing table : List (List String)) : Prop where
  split : listing = listing.filter Table.isArcRow ++ listing.filter (!Table.isArcRow ·)
  arcs : (listing.filter Table.isArcRow).Perm
    ((a.arcsFrom a.ids).map fun (id, arc) => (a.listedArc id arc).fullRow tableEpsilon)
  finals : (listing.filter (!Table.isArcRow ·)).Perm
    ((a.ids.filter a.isFinal).map fun id => (a.listedFinal id).fullRow)
  reachableArcs : (listing.filter Table.isArcRow).filter
    (Table.startsBelow a.canonicalOrder.length) =
      a.arcsByNumber.map fun x => x.row tableEpsilon ++ Table.omitted x.weight
  tableArcs : table.filter Table.isArcRow = a.arcsByNumber.map (NumberedArc.row tableEpsilon)
  reachableFinals : (listing.filter (!Table.isArcRow ·)).filter
    (Table.startsBelow a.canonicalOrder.length) =
      a.finalsByNumber.map fun x => x.row ++ Table.omitted x.weight
  tableFinals : table.filter (!Table.isArcRow ·) = a.finalsByNumber.map NumberedFinal.row

/-- The listing and the table describe the same graph. -/
theorem listing_agrees (h : a.WellFormed) (clean : a.CleanArcs) :
    a.Completes ∧ a.Agree (Table.rowsOf a.listing)
      (Table.rowsOf (a.table tableEpsilon false).transitions) := by
  have spelling : Table.Clean tableEpsilon := by decide
  have table := clean.cleanSymbols.rowsOf_table h.closed spelling
  obtain ⟨arcs, finals⟩ := a.filter_listedRows
  refine ⟨h.completes, ?_⟩
  rw [clean.rowsOf_listing, table]
  refine ⟨?_, ?_, ?_, ?_, a.filter_rows_arcs tableEpsilon, ?_, ?_⟩
  · rw [arcs, finals]
    rfl
  · have sorted : (a.listedArcs a.completeOrder).Perm
        ((a.arcsFrom a.ids).map fun (id, arc) => a.listedArc id arc) := by
      rw [arcsFrom, List.map_flatMap]
      refine (a.completeOrder_perm.flatMap_right _).trans ?_
      apply List.Perm.flatMap_left
      intro id _
      rw [List.map_map]
      exact (State.sortedArcs_perm _).map _
    rw [arcs]
    have rows := sorted.map (NumberedArc.fullRow tableEpsilon)
    rwa [List.map_map] at rows
  · rw [finals, listedFinals, List.map_map]
    exact (a.completeOrder_perm.filter _).map _
  · rw [arcs]
    exact h.filter_listedArcs
  · rw [finals]
    exact h.filter_listedFinals
  · rw [← filter_rows_finals a tableEpsilon]
    apply List.filter_congr
    intro row _
    rw [Table.isArcRow, ← decide_not]
    exact decide_eq_decide.mpr Nat.not_le

/-- The state between the other two cannot be reached; its arc leads to the first. The zero on the
other arc has a sign, which only the listing shows. -/
theorem listing_agrees_unreachable :
    let minus : Weight := ⟨0x8000000000000000⟩
    let a := (((((empty.addState none).addState none).addState none).addArc 0
      ⟨2, .pair "x" "", minus⟩).addArc 1 ⟨0, .identity "y", .zero⟩).setFinal 2 .zero
    let listing := Table.rowsOf a.listing
    let table := Table.rowsOf (a.table tableEpsilon false).transitions
    a.WellFormed ∧ a.CleanArcs ∧
      listing = [["0", "1", "x", "@0@", "-0.0"], ["2", "0", "y", "y", "0.0"], ["1", "0.0"]] ∧
      table = [["0", "1", "x", "@0@"], ["1"]] ∧ a.Completes ∧ a.Agree listing table := by
  intro minus a listing table
  have states : (((empty.addState none).addState none).addState none).WellFormed :=
    ((wellFormed_empty.addState none).addState none).addState none
  have formed : a.WellFormed := by
    apply WellFormed.setFinal
    refine (states.addArc ?_ ?_).addArc ?_ ?_
    all_goals decide
  have clean : a.CleanArcs := cleanArcs_of_ids (by decide +kernel)
  exact ⟨formed, clean, by decide +kernel, by decide +kernel, listing_agrees formed clean⟩

end Automaton

end Transducer
