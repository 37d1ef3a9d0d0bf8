import Transducer.Proofs.Apply.Renamed
import Transducer.Proofs.Automaton.Reached
import Transducer.Proofs.Grammar.Strings
/-!
The words of the automaton of a word list are its strings: one word for each sequence of symbols
that some of them spell.
-/

namespace Transducer

/-- The symbols on the labels of a word, without the empty ones. -/
def Word.symbols (w : Word) : List Symbol :=
  (w.labels.flatMap Label.symbols).filter (· ≠ epsilon)

/-- The word that reads and writes a string at no cost. -/
def Spelling.word (spelling : Spelling) (s : String) : Word :=
  ⟨.zero, (spelling.tokenize s).map .identity⟩

theorem Spelling.symbols_word (spelling : Spelling) (s : String) :
    (spelling.word s).symbols = spelling.spelled s := by
  have labels (symbols : List Symbol) :
      (symbols.map Label.identity).flatMap Label.symbols = symbols := by
    rw [List.flatMap_map]
    exact List.flatMap_singleton' symbols
  rw [Word.symbols, word, labels, spelled]

theorem Spelling.map_symbols_word (spelling : Spelling) (strings : List String) :
    (strings.map spelling.word).map Word.symbols = strings.map spelling.spelled := by
  rw [List.map_map]
  apply List.map_congr_left
  intro s _
  exact spelling.symbols_word s

namespace Automaton

variable {strings : List String} {spelling : Spelling} {legs : List Leg}

theorem word_of_accepts_listed (h : (listed strings spelling).Accepts legs) :
    ∃ s ∈ strings, (listed strings spelling).word legs = spelling.word s := by
  obtain ⟨s, mem, labels, free⟩ := exists_of_accepts_listed h
  refine ⟨s, mem, ?_⟩
  rw [word, labels, free, Spelling.word]

theorem exists_accepts_word (spelling : Spelling) {s : String} (h : s ∈ strings) :
    ∃ legs, (listed strings spelling).Accepts legs ∧
      (listed strings spelling).word legs = spelling.word s := by
  obtain ⟨legs, accepts, labels⟩ := exists_accepts_listed spelling h
  obtain ⟨t, _, same⟩ := word_of_accepts_listed accepts
  refine ⟨legs, accepts, ?_⟩
  have cost : (listed strings spelling).cost legs = .zero := congrArg Word.cost same
  rw [word, labels, cost, Spelling.word]

/-- The walk ends, and has given out the words of the strings, in some order. -/
theorem run_words_listed (nodup : (strings.map spelling.spelled).Nodup) : ∃ k found,
    Move.run (Walk.step (listed strings spelling)) (Walk.start (listed strings spelling)) k =
      (none, found) ∧ found.Perm (strings.map spelling.word) := by
  let a := listed strings spelling
  obtain ⟨k, finished⟩ := Walk.finished_of_not_hasCycle (not_hasCycle_listed strings spelling)
  obtain ⟨found, all⟩ := Walk.run_finished finished
  refine ⟨k, _, Prod.ext finished rfl, (List.reverse_perm _).symm.trans ?_⟩
  rw [found]
  have distinct : (strings.map spelling.word).Nodup := by
    apply List.Nodup.of_map Word.symbols
    rw [spelling.map_symbols_word]
    exact nodup
  have apart : ((a.acceptedUpTo k).map a.word).Nodup := by
    apply List.Nodup.map_on _ (a.acceptedUpTo_nodup k)
    intro legs here more there same
    exact (lists_listed (nodup_tokenize nodup)).unique legs more (mem_acceptedUpTo.mp here).1
      (mem_acceptedUpTo.mp there).1 (congrArg Word.labels same)
  apply (List.perm_ext_iff_of_nodup apart distinct).mpr
  intro w
  constructor
  · intro mem
    obtain ⟨legs, here, rfl⟩ := List.mem_map.mp mem
    obtain ⟨s, there, same⟩ := word_of_accepts_listed (mem_acceptedUpTo.mp here).1
    rw [same]
    exact List.mem_map_of_mem there
  · intro mem
    obtain ⟨s, there, rfl⟩ := List.mem_map.mp mem
    obtain ⟨legs, accepts, same⟩ := exists_accepts_word spelling there
    rw [← same]
    exact List.mem_map_of_mem (all legs accepts)

/-- A list of strings always compiles. The walk of what it compiles to ends, having given out one
word for each sequence of symbols that the strings spell, with no cost and the same symbols on both
sides, and no others; every state is named by its number, in canonical order. -/
theorem ofStrings_words (strings : List String) (multichar : List Symbol) :
    ∃ a, ofStrings strings multichar = .ok a ∧
      (∃ k found, Move.run (Walk.step a) (Walk.start a) k = (none, found) ∧
        (found.map Word.symbols).Nodup ∧
        (∀ symbols, symbols ∈ found.map Word.symbols ↔
          ∃ s ∈ strings, (Spelling.ofDeclared multichar).spelled s = symbols) ∧
        ∀ w ∈ found, w.cost = .zero ∧ ∀ l ∈ w.labels, l.isIdentity) ∧
      (∀ k < a.size, (a.state k).name = some (toString k)) ∧
      a.canonicalOrder = List.range a.size := by
  let spelling := Spelling.ofDeclared multichar
  let kept := distinctSpellings spelling strings
  have formed : (listed kept spelling).WellFormed :=
    wellFormed_ofGrammar (ofGrammar_ofStrings kept multichar)
  have order := formed.canonicalOrder_renumbered
  have size := formed.size_renumbered
  refine ⟨_, ofStrings_eq strings multichar, ?_, ?_, ?_⟩
  · obtain ⟨k, found, run, perm⟩ := run_words_listed (nodup_distinctSpellings spelling strings)
    have symbols : (found.map Word.symbols).Perm (kept.map spelling.spelled) := by
      rw [← spelling.map_symbols_word]
      exact perm.map Word.symbols
    refine ⟨k, found, ?_, ?_, ?_, ?_⟩
    · obtain ⟨items, going⟩ := Walk.run_renamed formed.renaming_renumbered k
      rw [run] at items going
      apply Prod.ext _ items
      exact Option.isNone_iff_eq_none.mp (Option.isSome_eq_false_iff.mp going)
    · exact symbols.nodup_iff.mpr (nodup_distinctSpellings spelling strings)
    · intro sequence
      rw [symbols.mem_iff, List.mem_map]
      constructor
      · intro ⟨s, mem, same⟩
        exact ⟨s, mem_distinctSpellings mem, same⟩
      · intro ⟨s, mem, same⟩
        obtain ⟨t, there, alike⟩ := exists_distinctSpellings spelling mem
        exact ⟨t, there, alike.trans same⟩
    · intro w mem
      obtain ⟨s, _, rfl⟩ := List.mem_map.mp (perm.mem_iff.mp mem)
      refine ⟨rfl, fun l there => ?_⟩
      obtain ⟨symbol, _, rfl⟩ := List.mem_map.mp there
      rfl
  · intro k lt
    rw [size] at lt
    rw [formed.state_renumbered (List.getElem?_eq_getElem lt)]
    rfl
  · rw [order, size]

end Automaton

end Transducer
