import Transducer.Proofs.Apply.Finite
import Transducer.Proofs.State
/-!
The automaton of one label. One path leads through it, which takes the label or, if that is empty,
nothing at all. So it turns one side of the label into the other and no other word into anything,
however the words are cut into tokens.
-/

namespace Transducer

namespace Alphabet

variable {a : Alphabet} {s : Symbol} {word : String}

/-- A word that is a symbol is one token, or none if it is empty. -/
theorem tokenize_symbol (known : s = epsilon ∨ s ∈ a) :
    a.tokenize s = [s].filter (· ≠ epsilon) := by
  refine (munched_cut _ _).unique ?_
  by_cases empty : s = epsilon
  · rw [List.filter_cons_of_neg (by simp [empty]), empty]
    exact .done
  · have some : s.toList ≠ [] := mt String.toList_eq_nil_iff.mp empty
    have listed : s.toList ∈ a.symbols.map String.toList :=
      List.mem_map_of_mem (known.resolve_left empty)
    have one : Munched (a.symbols.map String.toList) (s.toList ++ []) [String.ofList s.toList] :=
      .token some (.inl listed) (fun t _ fits => List.append_nil s.toList ▸ fits.length_le) .done
    rw [String.ofList_toList, List.append_nil] at one
    rw [List.filter_cons_of_pos (by simp [empty])]
    exact one

/-- No other word has the same tokens. -/
theorem tokenize_eq_symbol_iff (known : s = epsilon ∨ s ∈ a) :
    a.tokenize word = [s].filter (· ≠ epsilon) ↔ word = s := by
  constructor
  · intro same
    have spelled := a.flatMap_toList_tokenize word
    rw [same, flatMap_toList_filter, List.flatMap_singleton] at spelled
    exact (String.toList_inj.mp spelled).symm
  · rintro rfl
    exact tokenize_symbol known

end Alphabet

/-- The tokens of a word match a symbol that is no wildcard if the word is this symbol. -/
theorem Query.map_matching_eq_iff {q : Query} {word : String} {s : Symbol}
    (known : s = epsilon ∨ s ∈ q.automaton.alphabet) (plain : s ≠ wildcard) :
    (q.tokens word).map Token.matching = [s].filter (· ≠ epsilon) ↔ word = s := by
  constructor
  · intro same
    have none : wildcard ∉ (q.tokens word).map Token.matching := by
      rw [same]
      intro mem
      exact plain (List.mem_singleton.mp (List.mem_filter.mp mem).1).symm
    rw [map_matching_tokens (known_of_wildcard_not_mem none)] at same
    exact (Alphabet.tokenize_eq_symbol_iff known).mp same
  · rintro rfl
    have cut := Alphabet.tokenize_symbol known
    have all : ∀ t ∈ q.automaton.alphabet.tokenize word, t ∈ q.automaton.alphabet := by
      rw [cut]
      intro t mem
      obtain ⟨here, some⟩ := List.mem_filter.mp mem
      obtain rfl := List.mem_singleton.mp here
      exact known.resolve_left (of_decide_eq_true some)
    rw [map_matching_tokens all, cut]

namespace Automaton

variable {l : Label} {w : Weight} {id last : StateId} {legs : List Leg} {s : Symbol}

/-- The state in which the path of a label ends. -/
def lastOf (l : Label) : StateId := if l = .identity epsilon then 0 else 1

/-- The path of a label. -/
def pathOf (l : Label) : List Leg :=
  if l = .identity epsilon then [] else [⟨0, ⟨1, l, .zero⟩⟩]

theorem labels_pathOf (l : Label) :
    Leg.labels (pathOf l) = if l = .identity epsilon then [] else [l] := by
  rw [pathOf]
  split
  · rfl
  · rfl

theorem length_pathOf_le (l : Label) : (pathOf l).length ≤ 1 := by
  rw [pathOf]
  split
  · exact Nat.zero_le 1
  · exact Nat.le_refl 1

theorem initial_ofLabel (l : Label) (w : Weight) : (ofLabel l w).initial = 0 := by
  rw [ofLabel]
  split
  · exact initial_setFinal ..
  · exact initial_setFinal ..

theorem mem_alphabet_ofLabel :
    s ∈ (ofLabel l w).alphabet ↔ l ≠ .identity epsilon ∧ s ∈ l.symbols := by
  have none : s ∉ Alphabet.empty := List.not_mem_nil
  rw [ofLabel]
  split
  · next empty =>
    rw [alphabet_setFinal]
    exact iff_of_false none fun h => h.1 empty
  · next some =>
    have shown : (((empty.addSymbols l.symbols).addState Option.none).setFinal 1 w |>.addArc 0
        ⟨1, l, .zero⟩).alphabet = Alphabet.empty.insertAll l.symbols := alphabet_setFinal ..
    rw [shown, Alphabet.mem_insertAll, or_iff_right none, and_iff_right some]

/-- The arcs of the path leave the initial state, and a finite weight is on the last one. -/
theorem state_ofLabel (l : Label) (w : Weight) (id : StateId) :
    ((ofLabel l w).state id).arcs = (if id = 0 then (pathOf l).map Leg.arc else []) ∧
      ((ofLabel l w).state id).finalWeight =
        if id = lastOf l ∧ w.isFinite = true then w else .infinity := by
  rw [ofLabel, lastOf, pathOf]
  split
  · next empty =>
    rw [state_setFinal_cases Nat.zero_lt_one, state_empty, state_empty]
    by_cases start : id = 0
    · simp [start, State.arcs]
    · simp [start, State.arcs]
  · next some =>
    let frame := (empty.addSymbols l.symbols).addState none
    have blank (id : StateId) : frame.state id = {} := by
      rw [state_addState]
      exact (congrArg _ (state_empty id)).trans (ite_self _)
    have source : 0 < (frame.setFinal 1 w).size := by
      rw [size_setFinal]
      exact Nat.zero_lt_two
    have single : (({} : State).addArc ⟨1, l, .zero⟩).arcs = [⟨1, l, .zero⟩] := rfl
    rw [state_addArc source, state_setFinal_cases Nat.one_lt_two,
      state_setFinal_cases Nat.one_lt_two, blank, blank, blank, if_neg Nat.zero_ne_one]
    by_cases first : id = 0
    · simp [first, single]
    · by_cases second : id = 1
      · simp [second, State.arcs]
      · simp [first, second, State.arcs]

theorem legsFrom_ofLabel (l : Label) (w : Weight) (id : StateId) :
    (ofLabel l w).legsFrom id = if id = 0 then pathOf l else [] := by
  rw [legsFrom, (state_ofLabel l w id).1]
  split
  · rw [pathOf]
    split
    · rfl
    · rfl
  · rfl

theorem isFinal_ofLabel :
    (ofLabel l w).isFinal id = true ↔ id = lastOf l ∧ w.isFinite = true := by
  rw [isFinal, State.isFinal, (state_ofLabel l w id).2]
  split
  · next final => exact iff_of_true final.2 final
  · next other => exact iff_of_false (by decide) other

/-- A walk has not set out or has gone along the path. -/
theorem route_ofLabel_iff : (ofLabel l w).Route 0 legs last ↔
    legs = [] ∧ last = 0 ∨ legs = pathOf l ∧ last = lastOf l := by
  have first := legsFrom_ofLabel l w 0
  have second := legsFrom_ofLabel l w 1
  rw [if_pos rfl, pathOf] at first
  rw [if_neg Nat.one_ne_zero] at second
  rw [pathOf, lastOf]
  by_cases empty : l = .identity epsilon
  · rw [if_pos empty] at first
    rw [if_pos empty, if_pos empty, or_self]
    constructor
    · intro route
      cases route with
      | stop => exact ⟨rfl, rfl⟩
      | go leaves _ => exact absurd (first ▸ leaves) List.not_mem_nil
    · rintro ⟨rfl, rfl⟩
      exact .stop 0
  · rw [if_neg empty] at first
    rw [if_neg empty, if_neg empty]
    constructor
    · intro route
      cases route with
      | stop => exact .inl ⟨rfl, rfl⟩
      | go leaves route =>
        rw [first] at leaves
        obtain rfl := List.mem_singleton.mp leaves
        cases route with
        | stop => exact .inr ⟨rfl, rfl⟩
        | go leaves _ => exact absurd (second ▸ leaves) List.not_mem_nil
    · rintro (⟨rfl, rfl⟩ | ⟨rfl, rfl⟩)
      · exact .stop 0
      · exact .go (first ▸ List.mem_singleton_self _) (.stop 1)

/-- The path leads to a final state if the weight is finite. -/
theorem accepts_ofLabel_iff : (ofLabel l w).Accepts legs ↔ w.isFinite = true ∧ legs = pathOf l := by
  rw [Accepts, initial_ofLabel]
  constructor
  · rintro ⟨last, route, final⟩
    obtain ⟨rfl, finite⟩ := isFinal_ofLabel.mp final
    refine ⟨finite, ?_⟩
    rcases route_ofLabel_iff.mp route with ⟨rfl, start⟩ | ⟨path, -⟩
    · by_cases empty : l = .identity epsilon
      · exact (if_pos empty).symm
      · rw [lastOf, if_neg empty] at start
        exact absurd start Nat.one_ne_zero
    · exact path
  · rintro ⟨finite, rfl⟩
    exact ⟨_, route_ofLabel_iff.mpr (.inr ⟨rfl, rfl⟩), isFinal_ofLabel.mpr ⟨rfl, finite⟩⟩

theorem cost_pathOf (finite : w.isFinite = true) : (ofLabel l w).cost (pathOf l) = .zero + w := by
  have route : (ofLabel l w).Route 0 (pathOf l) (lastOf l) :=
    route_ofLabel_iff.mpr (.inr ⟨rfl, rfl⟩)
  have free : Leg.cost (pathOf l) = .zero := by
    rw [pathOf]
    split
    · rfl
    · exact Weight.zero_add_zero
  rw [cost, free, initial_ofLabel, route.ending_eq, (state_ofLabel l w _).2, if_pos ⟨rfl, finite⟩]

theorem mem_mentions_ofLabel (mentioned : s ∈ (ofLabel l w).mentions) : s ∈ l.symbols := by
  rcases mem_mentions_iff.mp mentioned with known | ⟨id, arc, there, symbol⟩
  · exact (mem_alphabet_ofLabel.mp known).2
  · rw [(state_ofLabel l w id).1] at there
    split at there
    · obtain ⟨leg, mem, rfl⟩ := List.mem_map.mp there
      have label : leg.arc.label ∈ Leg.labels (pathOf l) := List.mem_map_of_mem mem
      rw [labels_pathOf] at label
      split at label
      · exact absurd label List.not_mem_nil
      · exact List.mem_singleton.mp label ▸ symbol
    · exact absurd there List.not_mem_nil

section Query

variable (plain : ∀ s ∈ l.symbols, s ≠ wildcard ∧ isFlag s = false) (w : Weight) (d : Direction)
  (o : ApplyOptions) (word : String)
include plain

theorem reads_pathOf : d.reads (pathOf l) = [d.consumed l].filter (· ≠ epsilon) := by
  rw [Direction.reads_eq_visible, labels_pathOf]
  split
  · next empty =>
    rw [empty, Direction.consumed_identity]
    rfl
  · have unflagged : ∀ s ∈ [d.consumed l], isFlag s = false := fun s mem =>
      List.mem_singleton.mp mem ▸ (plain _ (d.consumed_mem l)).2
    rw [List.map_singleton, visible, withoutFlags_of_plain unflagged]

/-- Along its path a label is written as it is. -/
theorem output_pathOf : Query.output ⟨ofLabel l w, d, o⟩ word (pathOf l) =
    if l = .identity epsilon then [] else [d.produced l] := by
  rw [Query.output, Direction.writes_eq_map, labels_pathOf]
  · split
    · rfl
    · rfl
  · intro m mem
    rw [labels_pathOf] at mem
    split at mem
    · exact absurd mem List.not_mem_nil
    · obtain rfl := List.mem_singleton.mp mem
      exact (plain _ (d.produced_mem m)).1

theorem output_pathOf_plain :
    ∀ s ∈ Query.output ⟨ofLabel l w, d, o⟩ word (pathOf l), isFlag s = false := by
  rw [output_pathOf plain]
  intro s mem
  split at mem
  · exact absurd mem List.not_mem_nil
  · exact List.mem_singleton.mp mem ▸ (plain _ (d.produced_mem l)).2

theorem yields_ofLabel_iff : Query.Yields ⟨ofLabel l w, d, o⟩ word legs ↔
    (word = d.consumed l ∧ w.isFinite = true) ∧ legs = pathOf l := by
  have known : d.consumed l = epsilon ∨ d.consumed l ∈ (ofLabel l w).alphabet := by
    by_cases empty : l = .identity epsilon
    · rw [empty, Direction.consumed_identity]
      exact .inl rfl
    · exact .inr (mem_alphabet_ofLabel.mpr ⟨empty, d.consumed_mem l⟩)
  have reads : (Query.tokens ⟨ofLabel l w, d, o⟩ word).map Token.matching =
      [d.consumed l].filter (· ≠ epsilon) ↔ word = d.consumed l :=
    Query.map_matching_eq_iff known (plain _ (d.consumed_mem l)).1
  constructor
  · intro yields
    obtain ⟨finite, rfl⟩ := accepts_ofLabel_iff.mp yields.path
    have same := yields.reads
    rw [reads_pathOf plain] at same
    exact ⟨⟨reads.mp same.symm, finite⟩, rfl⟩
  · rintro ⟨⟨here, finite⟩, rfl⟩
    refine ⟨⟨accepts_ofLabel_iff.mpr ⟨finite, rfl⟩, ?_⟩, fun _ => ?_⟩
    · rw [reads_pathOf plain]
      exact (reads.mpr here).symm
    · exact Flag.agree_of_plain (output_pathOf_plain plain w d o word) _

theorem result_pathOf (finite : w.isFinite = true) :
    Query.result ⟨ofLabel l w, d, o⟩ word (pathOf l) =
      ⟨if o.tokenizeOutputs then .tokens (if l = .identity epsilon then [] else [d.produced l])
        else .text (d.produced l), if o.weights then some (.zero + w) else none⟩ := by
  have text : "".intercalate (if l = .identity epsilon then [] else [d.produced l]) =
      d.produced l := by
    split
    · next empty => rw [empty, Direction.produced_identity]; rfl
    · rfl
  rw [Query.result, withoutFlags_of_plain (output_pathOf_plain plain w d o word), ite_self,
    output_pathOf plain, text, cost_pathOf finite]

end Query

/-- The automaton of a label without flags and wildcards turns one side of the label into the other,
once, at the cost of its weight. It gives nothing for any other word, nor if the weight is not
finite. -/
theorem run_ofLabel (l : Label) (weight : Weight) (d : Direction) (options : ApplyOptions)
    (word : String) (plain : ∀ s ∈ l.symbols, s ≠ wildcard ∧ isFlag s = false) :
    let q : Query := ⟨ofLabel l weight, d, options⟩
    ∃ n, Move.run (Search.step q) (Search.start q word) n =
      (none, if word = d.consumed l ∧ weight.isFinite = true then
        [⟨if options.tokenizeOutputs then
            .tokens (if l = .identity epsilon then [] else [d.produced l])
          else .text (d.produced l), if options.weights then some (.zero + weight) else none⟩]
        else []) := by
  intro q
  have fit : Flag.Fit q.automaton.mentions :=
    Flag.fit_of_plain fun s mem => (plain s (mem_mentions_ofLabel mem)).2
  have bounded : Search.Bounded q word 1 := by
    intro legs last _ route
    rw [initial_ofLabel] at route
    rcases route_ofLabel_iff.mp route with ⟨rfl, -⟩ | ⟨rfl, -⟩
    · exact Nat.zero_le 1
    · exact length_pathOf_le l
  split
  · next taken =>
    rw [← result_pathOf plain weight d options word taken.2]
    refine bounded.run_unique fit fun more => ?_
    rw [yields_ofLabel_iff plain]
    exact and_iff_right taken
  · next refused =>
    refine bounded.run_empty fit fun legs yields => refused ?_
    exact ((yields_ofLabel_iff plain weight d options word).mp yields).1

/-- One side of a label can begin with the other. -/
theorem run_ofLabel_overlapping :
    let q : Query :=
      ⟨ofLabel (.pair "ab" "abc") ⟨0x3FF0000000000000⟩, .analyze, { weights := true }⟩
    (∀ s ∈ (Label.pair "ab" "abc").symbols, s ≠ wildcard ∧ isFlag s = false) ∧
      ∃ n, Move.run (Search.step q) (Search.start q "abc") n =
        (none, [⟨.text "ab", some ⟨0x3FF0000000000000⟩⟩]) := by
  intro q
  have plain : ∀ s ∈ (Label.pair "ab" "abc").symbols, s ≠ wildcard ∧ isFlag s = false := by
    decide +kernel
  have sum : Weight.zero + (⟨0x3FF0000000000000⟩ : Weight) = ⟨0x3FF0000000000000⟩ := by
    decide +kernel
  refine ⟨plain, ?_⟩
  obtain ⟨n, run⟩ :=
    run_ofLabel (.pair "ab" "abc") ⟨0x3FF0000000000000⟩ .analyze { weights := true } "abc" plain
  refine ⟨n, run.trans ?_⟩
  rw [if_pos (by decide +kernel), sum]
  rfl

end Automaton

end Transducer
