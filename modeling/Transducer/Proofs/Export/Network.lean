import Transducer.Export.Network
import Transducer.Proofs.ArcSet
import Transducer.Proofs.Export.Codes
import Transducer.Proofs.Json.Field
import Transducer.Proofs.Json.Text
/-!
The network object is read back. A key of its table is a number, a bar and an input symbol; numbers
have no bars, so the first bar splits the key, whatever the symbol holds. What stands under the keys
is all that can be seen of the reachable states but the weights.
-/

namespace Transducer

theorem le_foldl_max {n init : Nat} {ns : List Nat} (h : n ≤ init ∨ n ∈ ns) :
    n ≤ ns.foldl max init := by
  induction ns generalizing init with
  | nil => simpa using h
  | cons m rest ih =>
    apply ih
    rcases h with old | mem
    · exact .inl (Nat.le_trans old (Nat.le_max_left init m))
    · rcases List.mem_cons.mp mem with rfl | later
      · exact .inl (Nat.le_max_right init n)
      · exact .inr later

namespace Json

/-- The number that digits write, without sign, point or power. -/
def digitsNumber? (digits : List Char) : Option Nat :=
  if digits ≠ [] ∧ digits.all Char.isDigit then some (Nat.ofDigitChars 10 digits 0) else none

@[simp] theorem digitsNumber?_toDigits (n : Nat) :
    digitsNumber? (Nat.toDigits 10 n) = some n := by
  have digits : (Nat.toDigits 10 n).all Char.isDigit = true := List.all_eq_true.mpr isDigit_toDigits
  rw [digitsNumber?, if_pos ⟨Nat.toDigits_ne_nil, digits⟩, Nat.ofDigitChars_ten_toDigits]

def natural? : Json → Option Nat
  | number ⟨false, digits, [], none⟩ => digitsNumber? digits
  | _ => none

@[simp] theorem natural?_ofNat (n : Nat) : (ofNat n).natural? = some n := digitsNumber?_toDigits n

/-- A name that is a number. -/
def numberName? (s : JsonString) : Option Nat := do digitsNumber? (← s.text?).toList

@[simp] theorem numberName?_ofText_toString (n : Nat) :
    numberName? (.ofText (toString n)) = some n := by
  simp [numberName?]

end Json

namespace Network

/-- A key at its first bar: the number before it and the symbol behind it. -/
def splitKey? (key : String) : Option (Nat × Symbol) :=
  match key.toList.span (· ≠ '|') with
  | (digits, _ :: symbol) => (Json.digitsNumber? digits).map fun n => (n, String.ofList symbol)
  | (_, []) => none

theorem toList_arcName (n : Nat) (s : Symbol) :
    (arcName n s).toList = Nat.toDigits 10 n ++ '|' :: s.toList := by
  simp [arcName]
  rfl

theorem splitKey?_arcName (n : Nat) (s : Symbol) : splitKey? (arcName n s) = some (n, s) := by
  have free : ∀ c ∈ Nat.toDigits 10 n, decide (c ≠ '|') = true := by
    intro c mem
    have digit := isDigit_toDigits c mem
    apply decide_eq_true
    rintro rfl
    exact absurd digit (by decide)
  have split : (arcName n s).toList.span (· ≠ '|') = (Nat.toDigits 10 n, '|' :: s.toList) := by
    rw [toList_arcName, List.span_eq_takeWhile_dropWhile, List.takeWhile_append_of_pos free,
      List.dropWhile_append_of_pos free]
    simp
  rw [splitKey?, split]
  simp

/-- A key tells its number and its symbol, because it can be split. -/
theorem arcName_injective : Function.Injective fun p : Nat × Symbol => arcName p.1 p.2 := by
  intro p q same
  have split := congrArg splitKey? same
  dsimp only at split
  rw [splitKey?_arcName, splitKey?_arcName] at split
  exact Option.some.inj split

/-- A network as its text has it: what stands under each key. -/
structure Literal where
  symbols : List (Symbol × Nat)
  longest : Nat
  finals : List (Nat × Nat)
  table : List (String × List (Nat × Symbol))
  deriving DecidableEq, Repr

namespace Literal

/-- An arc is an object with one field: its output under its target. -/
def arc? (j : Json) : Option (Nat × Symbol) := do
  match ← j.table? Json.numberName? Json.text? with
  | [arc] => some arc
  | _ => none

def ofJson? (j : Json) : Option Literal := do
  let [symbols, longest, finals, table] ← j.record? ["s", "maxlen", "f", "t"] | none
  return { symbols := ← (← symbols).table? JsonString.text? Json.natural?
           longest := ← (← longest).natural?
           finals := ← (← finals).table? Json.numberName? Json.natural?
           table := ← (← table).table? JsonString.text? (Json.list? arc?) }

/-- Reads the text of a network. -/
def ofText? (text : String) : Option Literal := do ofJson? (← Json.ofText? text)

end Literal

/-- The arcs of a table, each as source, input, target and output. -/
def Literal.arcs (l : Literal) : List (Nat × Symbol × Nat × Symbol) :=
  l.table.flatMap fun (key, arcs) =>
    match splitKey? key with
    | some (n, input) => arcs.map fun (target, output) => (n, input, target, output)
    | none => []

def literal (n : Network) : Literal :=
  { symbols := n.symbols, longest := n.longest, finals := n.finals
    table := n.arcs.map fun ((source, input), arcs) => (arcName source input, arcs) }

theorem arc?_ofFields (target : Nat) (output : Symbol) :
    Literal.arc? (.ofFields [(toString target, .ofText output)]) = some (target, output) := by
  have field : (Json.ofFields ([(target, output)].map fun (target, output) =>
      (toString target, .ofText output))).table? Json.numberName? Json.text? =
        some [(target, output)] := by
    apply Json.table?_ofFields_same toString
    · intro e _
      exact Json.numberName?_ofText_toString e.1
    · intro e _
      exact Json.text?_ofText e.2
  rw [List.map_singleton] at field
  rw [Literal.arc?, field]
  rfl

theorem ofJson?_toJson (n : Network) : Literal.ofJson? n.toJson = some n.literal := by
  have record : n.toJson.record? ["s", "maxlen", "f", "t"] = some [_, _, _, _] :=
    Json.record?_ofFields [("s", _), ("maxlen", _), ("f", _), ("t", _)] (by simp)
  have symbols : (Dictionary.namesToJson Json.ofNat n.symbols).table? JsonString.text?
      Json.natural? = some n.symbols := by
    apply Json.table?_ofFields_same id
    · intro e _
      exact JsonString.text?_ofText e.1
    · intro e _
      exact Json.natural?_ofNat e.2
  have finals : (Dictionary.numbersToJson Json.ofNat n.finals).table? Json.numberName?
      Json.natural? = some n.finals := by
    apply Json.table?_ofFields_same toString
    · intro e _
      exact Json.numberName?_ofText_toString e.1
    · intro e _
      exact Json.natural?_ofNat e.2
  have table : (Json.ofFields (n.arcs.map fun ((source, input), arcs) =>
      (arcName source input, .array (arcs.map fun (target, output) =>
        .ofFields [(toString target, .ofText output)])))).table? JsonString.text?
      (Json.list? Literal.arc?) = some n.literal.table := by
    apply Json.table?_ofFields
    · intro e _
      exact JsonString.text?_ofText _
    · intro e _
      exact Json.list?_array_same fun arc _ => arc?_ofFields arc.1 arc.2
  rw [Literal.ofJson?, record]
  simp only [Option.bind_eq_bind, Option.bind_some, symbols, Json.natural?_ofNat, finals, table]
  rfl

theorem legal_toJson (n : Network) : n.toJson.Legal := by
  have numbers {α : Type} (name : α → String) (value : α → Nat) (entries : List α) :
      (Json.ofFields (entries.map fun e => (name e, .ofNat (value e)))).Legal := by
    apply Json.legal_ofFields
    intro f mem
    obtain ⟨e, _, rfl⟩ := List.mem_map.mp mem
    exact Json.legal_ofNat (value e)
  apply Json.legal_ofFields
  intro f mem
  simp only [List.mem_cons, List.not_mem_nil, or_false] at mem
  rcases mem with rfl | rfl | rfl | rfl
  · exact numbers Prod.fst Prod.snd n.symbols
  · exact Json.legal_ofNat n.longest
  · exact numbers (fun e => toString e.1) Prod.snd n.finals
  · apply Json.legal_ofFields
    intro f mem
    obtain ⟨e, _, rfl⟩ := List.mem_map.mp mem
    apply Json.Legal.array
    intro j item
    obtain ⟨arc, _, rfl⟩ := List.mem_map.mp item
    apply Json.legal_ofFields
    intro f only
    rw [List.mem_singleton.mp only]
    exact Json.legal_ofText arc.2

theorem ofText?_text (n : Network) : Literal.ofText? n.toJson.text = some n.literal := by
  rw [Literal.ofText?, n.legal_toJson.ofText?_text]
  exact n.ofJson?_toJson

end Network

namespace Automaton

variable {a : Automaton} {id : StateId} {n : Nat} {input : Symbol} {arcs : List (Nat × Symbol)}

/-- The arcs that a state has for an input, as the network lists them. -/
def arcsReading (a : Automaton) (id : StateId) (input : Symbol) : List Arc :=
  (a.state id).sortedArcs.filter (·.label.input = input)

theorem mem_network_arcs_iff : ((n, input), arcs) ∈ a.network.arcs ↔
    ∃ id, a.canonicalOrder[n]? = some id ∧ a.arcsReading id input ≠ [] ∧
      arcs = (a.arcsReading id input).map fun arc =>
        (a.canonicalNumbering.of arc.target, arc.label.output) := by
  have gathered (id : StateId) :
      (a.state id).sortedArcs.filter (·.label.input == input) = a.arcsReading id input := rfl
  simp only [network, networkArcs, List.mem_flatMap, List.mem_map, Prod.exists, Prod.mk.injEq]
  constructor
  · rintro ⟨id, _, mem, _, _, ⟨_, found, there, rfl, rfl⟩, ⟨rfl, rfl⟩, rfl⟩
    obtain ⟨some, all⟩ := (Ordered.mem_group_iff _).mp there
    rw [gathered] at all
    exact ⟨id, mem_zipIdx_order_iff.mp mem, all ▸ some, by rw [all]⟩
  · rintro ⟨id, here, some, rfl⟩
    exact ⟨id, n, mem_zipIdx_order_iff.mpr here, input, _,
      ⟨input, _, (Ordered.mem_group_iff _).mpr ⟨some, rfl⟩, rfl, rfl⟩, ⟨rfl, rfl⟩, rfl⟩

theorem nodup_numbers (a : Automaton) :
    (a.canonicalNumbering.order.zipIdx.map Prod.snd).Nodup := by
  rw [List.zipIdx_map_snd]
  exact List.nodup_range'

theorem nodup_network_arcs (a : Automaton) : (a.network.arcs.map Prod.fst).Nodup := by
  simp only [network, List.map_flatMap, List.map_map]
  refine List.nodup_flatMap.mpr ⟨?_, ?_⟩
  · rintro ⟨id, n⟩ _
    have inputs : ((a.networkArcs a.canonicalNumbering id).map Prod.fst).Nodup := by
      rw [networkArcs, List.map_map]
      exact (Ordered.increasing_group (fun arc : Arc => arc.label.input) _).nodup
    have keys := inputs.map (Prod.mk_right_injective n)
    rwa [List.map_map] at keys
  · refine (List.pairwise_map.mp a.nodup_numbers).imp ?_
    intro one other apart key here there
    obtain ⟨_, _, rfl⟩ := List.mem_map.mp here
    obtain ⟨_, _, same⟩ := List.mem_map.mp there
    exact apart (Prod.mk.inj same).1.symm

theorem perm_network_arcs (h : a.WellFormed) :
    (a.network.arcs.flatMap fun ((n, input), arcs) => arcs.map fun (target, output) =>
      (n, input, target, output)).Perm
    ((a.arcsFrom a.canonicalOrder).map fun (id, arc) =>
      (a.canonicalNumbering.of id, arc.label.input, a.canonicalNumbering.of arc.target,
        arc.label.output)) := by
  -- the arcs of one state, gathered by input, are its arcs
  have row (id : StateId) : ((a.networkArcs a.canonicalNumbering id).flatMap
      fun row => row.2.map fun (target, output) =>
        (a.canonicalNumbering.of id, row.1, target, output)).Perm
      ((a.state id).arcs.map fun arc => (a.canonicalNumbering.of id, arc.label.input,
        a.canonicalNumbering.of arc.target, arc.label.output)) := by
    have gathered := Ordered.perm_flatMap_group (fun arc => arc.label.input) (a.state id).sortedArcs
    refine (List.Perm.of_eq ?_).trans ((gathered.trans (State.sortedArcs_perm _)).map _)
    rw [networkArcs, List.flatMap_map, List.map_flatMap]
    apply List.flatMap_congr
    rintro ⟨input, arcs⟩ mem
    obtain ⟨-, all⟩ := (Ordered.mem_group_iff _).mp mem
    dsimp only
    rw [List.map_map]
    apply List.map_congr_left
    intro arc there
    rw [all] at there
    obtain rfl : arc.label.input = input := eq_of_beq (List.mem_filter.mp there).2
    rfl
  have numbered : a.network.arcs = a.canonicalOrder.flatMap fun id =>
      (a.networkArcs a.canonicalNumbering id).map fun row =>
        ((a.canonicalNumbering.of id, row.1), row.2) := by
    have listed := h.closed.map_zipIdx fun p : StateId × Nat =>
      (a.networkArcs a.canonicalNumbering p.1).map fun row => ((p.2, row.1), row.2)
    rw [List.flatMap_def, ← listed]
    rfl
  rw [numbered, List.flatMap_assoc, arcsFrom, List.map_flatMap]
  apply List.Perm.flatMap_left
  intro id _
  rw [List.flatMap_map, List.map_map]
  exact row id

theorem mem_network_finals_iff {mark : Nat} : (n, mark) ∈ a.network.finals ↔
    mark = 1 ∧ ∃ id, a.canonicalOrder[n]? = some id ∧ a.isFinal id := by
  simp only [network, dictionary, List.mem_map, List.mem_filter, Prod.exists, Prod.mk.injEq]
  constructor
  · rintro ⟨id, _, ⟨mem, final⟩, rfl, rfl⟩
    exact ⟨rfl, id, mem_zipIdx_order_iff.mp mem, final⟩
  · rintro ⟨rfl, id, here, final⟩
    exact ⟨id, n, ⟨mem_zipIdx_order_iff.mpr here, final⟩, rfl, rfl⟩

theorem nodup_network_finals (a : Automaton) : (a.network.finals.map Prod.fst).Nodup := by
  rw [network, dictionary, List.map_map]
  exact (List.filter_sublist.map Prod.snd).nodup a.nodup_numbers

/-- The empty symbol has no length, and every other one on a reachable arc has a code. -/
theorem units16_le_longest {id : StateId} (reached : a.Reachable id) {arc : Arc}
    (there : arc ∈ (a.state id).arcs) {s : Symbol} (symbol : s ∈ arc.label.symbols) :
    Network.units16 s ≤ a.network.longest := by
  by_cases empty : s = epsilon
  · rw [empty]
    exact Nat.zero_le _
  · have listed : s ∈ (a.symbolsInOrder.filter (· ≠ epsilon)).eraseDups := by
      rw [List.mem_eraseDups, List.mem_filter, decide_eq_true_eq]
      exact ⟨mem_symbolsInOrder.mpr ⟨id, reached, arc, there, symbol⟩, empty⟩
    have coded := (Dictionary.counted_codes a.symbolsInOrder).mem_keys_iff.mpr listed
    obtain ⟨entry, mem, rfl⟩ := List.mem_map.mp coded
    apply le_foldl_max
    exact .inr (List.mem_map.mpr ⟨entry, mem, rfl⟩)

end Automaton

/-- What the object of a network tells about an automaton: the arcs and the final states that can be
reached, with their canonical numbers. -/
structure Network.Literal.Describes (l : Network.Literal) (a : Automaton) : Prop where
  distinct : (l.table.map Prod.fst).Nodup
  keys : ∀ e ∈ l.table, ∃ n input, splitKey? e.1 = some (n, input) ∧
    n < a.canonicalOrder.length ∧ ∀ m s, arcName m s = e.1 ↔ m = n ∧ s = input
  /-- Under a key stand the arcs of the state that read the symbol, by label, then by weight. -/
  entries : ∀ e ∈ l.table, ∀ n input, splitKey? e.1 = some (n, input) →
    ∃ (id : StateId) (arcs : List Arc), a.canonicalOrder[n]? = some id ∧
      arcs.Perm ((a.state id).arcs.filter (·.label.input = input)) ∧
      (arcs.Pairwise fun b c => compare b.label c.label = .lt ∨
        b.label = c.label ∧ b.weight.rank ≤ c.weight.rank) ∧
      e.2 = arcs.map fun arc => (a.canonicalNumbering.of arc.target, arc.label.output)
  arcs : l.arcs.Perm ((a.arcsFrom a.canonicalOrder).map fun (id, arc) =>
    (a.canonicalNumbering.of id, arc.label.input, a.canonicalNumbering.of arc.target,
      arc.label.output))
  finals : (l.finals.map Prod.fst).Nodup ∧ ∀ n mark, (n, mark) ∈ l.finals ↔
    mark = 1 ∧ ∃ id, a.canonicalOrder[n]? = some id ∧ a.isFinal id
  numbers : ∀ n id, a.canonicalOrder[n]? = some id ↔
    a.Reachable id ∧ a.canonicalNumbering.of id = n
  symbols : l.symbols = a.dictionary.alphabet
  longest : ∀ id, a.Reachable id → ∀ arc ∈ (a.state id).arcs, ∀ s ∈ arc.label.symbols,
    units16 s ≤ l.longest

namespace Automaton

variable {a : Automaton}

theorem WellFormed.describes (h : a.WellFormed) : a.network.literal.Describes a where
  distinct := by
    have keys := a.nodup_network_arcs.map Network.arcName_injective
    rw [List.map_map] at keys
    rw [Network.literal, List.map_map]
    exact keys
  keys := by
    intro e mem
    obtain ⟨⟨⟨n, input⟩, arcs⟩, there, rfl⟩ := List.mem_map.mp mem
    obtain ⟨id, here, -⟩ := mem_network_arcs_iff.mp there
    refine ⟨n, input, Network.splitKey?_arcName n input, ?_, ?_⟩
    · exact (List.getElem?_eq_some_iff.mp here).1
    · intro m s
      have same := Network.arcName_injective.eq_iff (a := (m, s)) (b := (n, input))
      rwa [Prod.mk.injEq] at same
  entries := by
    intro e mem n input split
    obtain ⟨⟨⟨_, _⟩, arcs⟩, there, rfl⟩ := List.mem_map.mp mem
    rw [Network.splitKey?_arcName] at split
    obtain ⟨rfl, rfl⟩ := Prod.mk.inj (Option.some.inj split)
    obtain ⟨id, here, -, rfl⟩ := mem_network_arcs_iff.mp there
    refine ⟨id, a.arcsReading id _, here, ?_, ?_, rfl⟩
    · exact (State.sortedArcs_perm _).filter _
    · exact ((h.states id).pairwise_sortedArcs).filter _
  arcs := by
    have flat : a.network.literal.arcs = a.network.arcs.flatMap fun ((n, input), arcs) =>
        arcs.map fun (target, output) => (n, input, target, output) := by
      rw [Network.Literal.arcs, Network.literal, List.flatMap_map]
      apply List.flatMap_congr
      intro e _
      dsimp only
      rw [Network.splitKey?_arcName]
    rw [flat]
    exact perm_network_arcs h
  finals := ⟨a.nodup_network_finals, fun _ _ => mem_network_finals_iff⟩
  numbers _ _ := h.closed.getElem?_canonicalOrder_iff
  symbols := rfl
  longest _ reached _ there _ symbol := units16_le_longest reached there symbol

/-- The object in a network statement is read back, and it tells the arcs and final states that can
be reached, but for the weights. -/
theorem network_lossless (h : a.WellFormed) : ∃ text l,
    (∀ name, a.networkStatement name = s!"var {name} = {text} ;") ∧
      Network.Literal.ofText? text = some l ∧ l.Describes a :=
  ⟨_, _, fun _ => rfl, a.network.ofText?_text, h.describes⟩

/-- Symbols with bars, and an arc that reads nothing. The last key splits before the bar that is its
symbol. -/
theorem network_lossless_bars :
    let a := ((((((empty.addState none).addState none).addArc 0
      ⟨1, .identity "a|b", .zero⟩).addArc 0 ⟨0, .pair "" "c", .zero⟩).addArc 1
      ⟨0, .pair "|" "", .zero⟩).addArc 1 ⟨1, .identity "2|3", .zero⟩).setFinal 1 .zero
    let table := [("0|", [(0, "c")]), ("0|a|b", [(1, "a|b")]), ("1|2|3", [(1, "2|3")]),
      ("1||", [(0, "")])]
    a.WellFormed ∧ a.network.literal.table = table ∧
      table.map (fun e => Network.splitKey? e.1) =
        [some (0, ""), some (0, "a|b"), some (1, "2|3"), some (1, "|")] ∧
      ∃ text l, (∀ name, a.networkStatement name = s!"var {name} = {text} ;") ∧
        Network.Literal.ofText? text = some l ∧ l.Describes a := by
  intro a table
  have formed : a.WellFormed := by
    have states : ((empty.addState none).addState none).WellFormed :=
      (wellFormed_empty.addState none).addState none
    apply WellFormed.setFinal
    refine (((states.addArc ?_ ?_).addArc ?_ ?_).addArc ?_ ?_).addArc ?_ ?_
    all_goals decide
  exact ⟨formed, by decide +kernel, by decide +kernel, network_lossless formed⟩

end Automaton

end Transducer
