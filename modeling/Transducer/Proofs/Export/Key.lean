import Transducer.Export.Dictionary
import Transducer.Proofs.Automaton.Order
import Transducer.Proofs.Ordered
/-!
Reading the keys of a dictionary. Bars inside symbols get a backslash, but backslashes get none. So
a backslash at the end of the first symbol hides the bar behind it, and the key reads as one symbol
that holds the bar. Every other key tells its label's two symbols.
-/

namespace Transducer

namespace Label

/-- The two symbols of a label. -/
def sides (l : Label) : Symbol × Symbol := (l.input, l.output)

/-- The first of two symbols ends in a backslash. -/
def HidesBar (l : Label) : Prop := l.input ≠ l.output ∧ l.input.toList.getLast? = some '\\'

instance (l : Label) : Decidable l.HidesBar := inferInstanceAs (Decidable (_ ∧ _))

/-- The symbol that a hidden bar makes of the two around it. -/
def joined (l : Label) : Symbol :=
  String.ofList (l.input.toList.dropLast ++ '|' :: l.output.toList)

/-- What is told about the symbols of a label by its key. -/
def told (l : Label) : Symbol × Symbol := if l.HidesBar then (l.joined, l.joined) else l.sides

theorem told_eq_sides_iff (l : Label) : l.told = l.sides ↔ ¬l.HidesBar := by
  rw [told]
  split
  · next hides =>
    refine ⟨fun same => ?_, fun shows => absurd hides shows⟩
    have input : l.joined = l.input := congrArg Prod.fst same
    have output : l.joined = l.output := congrArg Prod.snd same
    exact absurd (input.symm.trans output) hides.1
  · next shows => exact ⟨fun _ => shows, fun _ => rfl⟩

end Label

namespace Dictionary

/-- The symbol in front of the first bar without a backslash, and what is left from that bar on. -/
def readSymbol : List Char → List Char × List Char
  | [] => ([], [])
  | '|' :: rest => ([], '|' :: rest)
  | '\\' :: '|' :: rest => ('|' :: (readSymbol rest).1, (readSymbol rest).2)
  | c :: rest => (c :: (readSymbol rest).1, (readSymbol rest).2)

/-- The two symbols that a key reads as; without a bar between them, one symbol twice. -/
def readKey (key : String) : Symbol × Symbol :=
  let (input, rest) := readSymbol key.toList
  match rest with
  | [] => (String.ofList input, String.ofList input)
  | _ :: rest => (String.ofList input, String.ofList (readSymbol rest).1)

theorem readSymbol_cons {c : Char} {rest : List Char} (bar : c ≠ '|')
    (free : c = '\\' → rest.head? ≠ some '|') :
    readSymbol (c :: rest) = (c :: (readSymbol rest).1, (readSymbol rest).2) := by
  rw [readSymbol]
  · exact bar
  · rintro after rfl rfl
    exact free rfl rfl

/-- No symbol begins with a bar inside a key. -/
theorem head?_escaped (s tail : List Char) :
    (s.flatMap escapeBar ++ tail).head? = some '|' ↔ s = [] ∧ tail.head? = some '|' := by
  cases s with
  | nil => simp
  | cons c rest =>
    by_cases bar : c = '|'
    · simp [escapeBar, bar]
    · simp [escapeBar, bar]

/-- A symbol is read back unless it ends in a backslash with a bar behind it. -/
theorem readSymbol_escaped (s : List Char) {tail : List Char}
    (apart : s.getLast? = some '\\' → tail.head? ≠ some '|') :
    readSymbol (s.flatMap escapeBar ++ tail) = (s ++ (readSymbol tail).1, (readSymbol tail).2) := by
  induction s with
  | nil => rfl
  | cons c rest ih =>
    have later : readSymbol (rest.flatMap escapeBar ++ tail) =
        (rest ++ (readSymbol tail).1, (readSymbol tail).2) := by
      refine ih fun last => apart ?_
      rw [List.getLast?_cons, last]
      rfl
    rw [List.flatMap_cons, List.append_assoc]
    by_cases bar : c = '|'
    · rw [escapeBar, if_pos bar, List.cons_append, List.singleton_append, readSymbol, later, bar]
      rfl
    · have free : c = '\\' → (rest.flatMap escapeBar ++ tail).head? ≠ some '|' := by
        rintro rfl first
        obtain ⟨rfl, first⟩ := (head?_escaped rest tail).mp first
        exact apart rfl first
      rw [escapeBar, if_neg bar, List.singleton_append, readSymbol_cons bar free, later]
      rfl

theorem readSymbol_keySymbol (s : Symbol) : readSymbol (keySymbol s) = (s.toList, []) := by
  have whole : readSymbol (s.toList.flatMap escapeBar ++ []) = (s.toList ++ [], []) :=
    readSymbol_escaped s.toList fun _ => by simp
  simpa [keySymbol] using whole

theorem key_of_sides_eq {l : Label} (same : l.input = l.output) :
    key l = String.ofList (keySymbol l.input) := by
  rw [key, if_pos same]

theorem key_of_sides_ne {l : Label} (differ : l.input ≠ l.output) :
    key l = String.ofList (keySymbol l.input ++ '|' :: keySymbol l.output) := by
  rw [key, if_neg differ]

/-- The symbols of a label with a hidden bar stand in its key as one. -/
theorem key_of_hidesBar {l : Label} (hides : l.HidesBar) : key l = key (.identity l.joined) := by
  obtain ⟨front, last⟩ := List.getLast?_eq_some_iff.mp hides.2
  have together : keySymbol l.joined = keySymbol l.input ++ '|' :: keySymbol l.output := by
    simp [keySymbol, Label.joined, last, escapeBar]
  rw [key_of_sides_ne hides.1, key_of_sides_eq rfl, Label.input, together]

theorem readKey_one (s : Symbol) : readKey (String.ofList (keySymbol s)) = (s, s) := by
  simp [readKey, readSymbol_keySymbol]

theorem readKey_two {i o : Symbol} (shows : i.toList.getLast? ≠ some '\\') :
    readKey (String.ofList (keySymbol i ++ '|' :: keySymbol o)) = (i, o) := by
  have first : readSymbol (keySymbol i ++ '|' :: keySymbol o) = (i.toList, '|' :: keySymbol o) := by
    rw [keySymbol, readSymbol_escaped i.toList fun last => absurd last shows, readSymbol,
      List.append_nil]
  simp [readKey, first, readSymbol_keySymbol]

/-- What a label's key is read as. -/
theorem readKey_key (l : Label) : readKey (key l) = l.told := by
  rw [Label.told]
  split
  · next hides => rw [key_of_hidesBar hides, key_of_sides_eq rfl, readKey_one, Label.input]
  · next shows =>
    by_cases same : l.input = l.output
    · rw [key_of_sides_eq same, readKey_one, Label.sides, same]
    · rw [key_of_sides_ne same, readKey_two fun last => shows ⟨same, last⟩, Label.sides]

/-- A key depends on nothing but what it is read as. -/
theorem key_eq_between (l : Label) : key l = key (.between l.told.1 l.told.2) := by
  rw [Label.told]
  split
  · next hides => rw [key_of_hidesBar hides, Label.between, if_pos rfl]
  · rw [key, key, Label.input_between, Label.output_between, Label.sides]

/-- Two labels have one key if and only if their keys are read as the same symbols. -/
theorem key_eq_key_iff {l m : Label} : key l = key m ↔ l.told = m.told := by
  constructor
  · intro same
    rw [← readKey_key, same, readKey_key]
  · intro same
    rw [key_eq_between, same, ← key_eq_between]

end Dictionary

namespace Automaton

variable {a : Automaton}

/-- Arcs stand together if their keys are read as the same two symbols. -/
theorem mem_dictionaryRow_iff {numbering : Numbering} {id : StateId} {k : String}
    {targets : List Nat} : (k, targets) ∈ a.dictionaryRow numbering id ↔
      ∃ arc ∈ (a.state id).arcs, Dictionary.key arc.label = k ∧
        targets = ((a.state id).sortedArcs.filter (·.label.told = arc.label.told)).map
          fun other => numbering.of other.target := by
  have gathered (arc : Arc) :
      (a.state id).sortedArcs.filter (Dictionary.key ·.label == Dictionary.key arc.label) =
        (a.state id).sortedArcs.filter (·.label.told = arc.label.told) :=
    List.filter_congr fun other _ => by
      rw [Bool.eq_iff_iff, beq_iff_eq, decide_eq_true_eq, Dictionary.key_eq_key_iff]
  rw [dictionaryRow, List.mem_map]
  constructor
  · rintro ⟨⟨k', arcs⟩, mem, same⟩
    obtain ⟨rfl, rfl⟩ := Prod.mk.inj same
    obtain ⟨stands, all⟩ := (Ordered.mem_group_iff _).mp mem
    obtain ⟨arc, first⟩ := List.exists_mem_of_ne_nil _ stands
    obtain ⟨there, same⟩ := List.mem_filter.mp (all ▸ first)
    obtain rfl : Dictionary.key arc.label = k' := eq_of_beq same
    exact ⟨arc, mem_sortedArcs.mp there, rfl, by rw [all, gathered]⟩
  · rintro ⟨arc, there, rfl, all⟩
    have first : arc ∈ (a.state id).sortedArcs.filter (·.label.told = arc.label.told) := by
      simpa using mem_sortedArcs.mpr there
    exact ⟨(_, _), (Ordered.mem_group_iff _).mpr ⟨List.ne_nil_of_mem first, (gathered arc).symm⟩,
      by rw [all]⟩

/-- What stands in a dictionary under the number of a state and a key. -/
theorem mem_dictionary_iff {n : Nat} {k : String} {targets : List Nat} :
    (∃ row, (n, row) ∈ a.dictionary.transitions ∧ (k, targets) ∈ row) ↔
      ∃ id, a.canonicalOrder[n]? = some id ∧
        (k, targets) ∈ a.dictionaryRow a.canonicalNumbering id := by
  simp only [dictionary, List.mem_filter, List.mem_map, Prod.exists, Prod.mk.injEq]
  constructor
  · rintro ⟨row, ⟨⟨id, _, mem, rfl, rfl⟩, -⟩, entry⟩
    exact ⟨id, mem_zipIdx_order_iff.mp mem, entry⟩
  · rintro ⟨id, here, entry⟩
    refine ⟨_, ⟨⟨id, n, mem_zipIdx_order_iff.mpr here, rfl, rfl⟩, ?_⟩, entry⟩
    have stands : a.dictionaryRow a.canonicalNumbering id ≠ [] := List.ne_nil_of_mem entry
    simpa using stands

/-- A dictionary puts the arcs of a state together whose keys are read as the same two symbols.
These are the symbols of the labels, unless the first ends in a backslash and the second is another:
such a label shares its key with that of one symbol. -/
theorem dictionary_tells (a : Automaton) :
    (∀ l : Label, Dictionary.readKey (Dictionary.key l) = l.told) ∧
      (∀ l m : Label, Dictionary.key l = Dictionary.key m ↔ l.told = m.told) ∧
      (∀ l : Label, l.told = l.sides ↔ ¬l.HidesBar) ∧
      (∀ l : Label, l.HidesBar → (Label.identity l.joined).sides ≠ l.sides ∧
        Dictionary.key (.identity l.joined) = Dictionary.key l) ∧
      ∀ n k targets, (∃ row, (n, row) ∈ a.dictionary.transitions ∧ (k, targets) ∈ row) ↔
        ∃ id, ∃ arc ∈ (a.state id).arcs, a.canonicalOrder[n]? = some id ∧
          Dictionary.key arc.label = k ∧
          targets = ((a.state id).sortedArcs.filter (·.label.told = arc.label.told)).map
            fun other => a.canonicalNumbering.of other.target := by
  refine ⟨Dictionary.readKey_key, fun l m => Dictionary.key_eq_key_iff, Label.told_eq_sides_iff,
    fun l hides => ⟨fun same => ?_, (Dictionary.key_of_hidesBar hides).symm⟩, fun n k targets => ?_⟩
  · obtain ⟨input, output⟩ := Prod.mk.inj same
    exact hides.1 (input.symm.trans output)
  rw [mem_dictionary_iff]
  refine exists_congr fun id => ?_
  rw [mem_dictionaryRow_iff]
  constructor
  · rintro ⟨here, arc, mem, key, all⟩
    exact ⟨arc, mem, here, key, all⟩
  · rintro ⟨arc, mem, here, key, all⟩
    exact ⟨here, arc, mem, key, all⟩

/-- Both arcs of one state stand under one key. -/
theorem dictionary_conflates :
    let l : Label := .pair "a\\" "b"
    let m : Label := .identity "a|b"
    let a := ((((empty.addState none).addState none).addArc 0 ⟨1, l, .zero⟩).addArc 0 ⟨2, m, .zero⟩)
    l.sides ≠ m.sides ∧ Dictionary.key l = Dictionary.key m ∧
      a.dictionary.transitions = [(0, [(Dictionary.key l, [1, 2])])] := by
  decide +kernel

end Automaton

end Transducer
