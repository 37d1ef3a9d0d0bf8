import Transducer.Proofs.Apply.Finite
import Transducer.Proofs.ArcSet
import Transducer.Proofs.Automaton.Reached
/-!
Which words an automaton for single characters accepts. It has one arc for each of some characters,
and an arc takes its own character, so the point takes what the alphabet does not know. For that
reason a range with the point in it makes the automaton accept more than the ranges list.
-/

namespace Transducer

namespace Alphabet

/-- The character that an arc has to have to take a character of a word. -/
def matching (a : Alphabet) (c : Char) : Char := if c.toString ∈ a then c else '.'

end Alphabet

/-- The result that gives a word back at no cost. -/
def Query.echo (q : Query) (word : String) : Applied where
  output := if q.options.tokenizeOutputs then .tokens [word] else .text word
  cost := if q.options.weights then some .zero else none

namespace Automaton

variable {a : Automaton} {taken : List Char} {c d first last : Char} {id mid : StateId}
  {leg other : Leg} {legs : List Leg} {arc : Arc}

theorem mem_charactersBetween : c ∈ charactersBetween first last ↔ first ≤ c ∧ c ≤ last := by
  have codes : c.toNat ∈ List.range' first.toNat (last.toNat + 1 - first.toNat) ↔
      first ≤ c ∧ c ≤ last := by
    rw [List.mem_range'_1, Char.le_def, Char.le_def, UInt32.le_iff_toNat_le,
      UInt32.le_iff_toNat_le]
    simp only [Char.toNat_val]
    omega
  rw [← codes, charactersBetween, List.mem_filterMap]
  constructor
  · rintro ⟨n, there, found⟩
    by_cases valid : n.isValidChar
    · rw [dif_pos valid] at found
      obtain rfl := Option.some.inj found
      exact there
    · rw [dif_neg valid] at found
      cases found
  · intro there
    exact ⟨c.toNat, there, dif_pos c.valid⟩

/-- The arc that takes one character. -/
def arcOf (c : Char) : Arc := ⟨1, .identity c.toString, .zero⟩

/-- One arc for each of some characters, from the initial state to the final one. -/
structure Choice (taken : List Char) (a : Automaton) : Prop where
  initial : a.initial = 0
  arcs : ∀ id arc, arc ∈ (a.state id).arcs ↔ id = 0 ∧ ∃ c ∈ taken, arc = arcOf c
  once : ∀ id, (a.state id).arcs.Nodup
  finals : ∀ id, (a.state id).finalWeight = if id = 1 then .zero else .infinity
  single : a.alphabet.Single

namespace Choice

theorem isFinal_iff (h : Choice taken a) : a.isFinal id = true ↔ id = 1 :=
  isFinal_iff_of_finals h.finals

theorem leaves (h : Choice taken a) (hl : leg ∈ a.legsFrom id) :
    id = 0 ∧ ∃ c ∈ taken, leg.arc = arcOf c :=
  (h.arcs id leg.arc).mp (arc_mem_of_mem_legsFrom hl)

theorem leg_unique (h : Choice taken a) (hl : leg ∈ a.legsFrom id) (ho : other ∈ a.legsFrom id)
    (same : leg.arc = other.arc) : leg = other := by
  have once := h.once id
  rw [← map_arc_legsFrom] at once
  exact List.inj_on_of_nodup_map once hl ho same

/-- A path does not move, or takes one arc. -/
theorem route_cases (h : Choice taken a) (route : a.Route 0 legs mid) :
    legs = [] ∧ mid = 0 ∨ mid = 1 ∧ ∃ leg ∈ a.legsFrom 0, legs = [leg] := by
  cases route with
  | stop => exact .inl ⟨rfl, rfl⟩
  | go first route =>
    obtain ⟨-, c, -, arc⟩ := h.leaves first
    rw [arc] at route
    cases route with
    | stop => exact .inr ⟨rfl, _, first, rfl⟩
    | go second _ => exact absurd (h.leaves second).1 Nat.one_ne_zero

theorem accepts_iff (h : Choice taken a) :
    a.Accepts legs ↔ ∃ leg ∈ a.legsFrom 0, legs = [leg] := by
  rw [Accepts, h.initial]
  constructor
  · rintro ⟨last, route, final⟩
    rcases h.route_cases route with ⟨-, start⟩ | ⟨-, one⟩
    · rw [h.isFinal_iff, start] at final
      exact absurd final Nat.zero_ne_one
    · exact one
  · rintro ⟨leg, first, rfl⟩
    obtain ⟨-, c, -, arc⟩ := h.leaves first
    refine ⟨1, .go first ?_, h.isFinal_iff.mpr rfl⟩
    rw [arc]
    exact .stop 1

section Query

variable {q : Query} (h : Choice taken q.automaton) (word : String)
include h

theorem bounded : Search.Bounded q word 1 := by
  intro legs last _ route
  rw [h.initial] at route
  rcases h.route_cases route with ⟨rfl, -⟩ | ⟨-, leg, -, rfl⟩
  · exact Nat.zero_le 1
  · exact Nat.le_refl 1

theorem fit : Flag.Fit q.automaton.mentions := by
  refine Flag.fit_of_plain fun s mem => ?_
  rcases mem_mentions_iff.mp mem with known | ⟨id, arc, there, symbol⟩
  · obtain ⟨c, rfl⟩ := h.single s known
    exact isFlag_single c
  · obtain ⟨-, c, -, rfl⟩ := (h.arcs id arc).mp there
    obtain rfl := List.mem_singleton.mp symbol
    exact isFlag_single c

theorem tokens_eq : q.tokens word =
    word.toList.map fun c => ⟨c.toString, q.automaton.alphabet.contains c.toString⟩ := by
  rw [Query.tokens, Search.tokens, h.single.tokenize_eq, List.map_map]
  rfl

theorem matching_eq : (q.tokens word).map Token.matching =
    word.toList.map fun c => (q.automaton.alphabet.matching c).toString := by
  rw [h.tokens_eq, List.map_map]
  refine List.map_congr_left fun c _ => ?_
  by_cases known : c.toString ∈ q.automaton.alphabet
  · have known' : q.automaton.alphabet.contains c.toString = true := decide_eq_true known
    rw [Function.comp_apply, Token.matching, Alphabet.matching, if_pos known', if_pos known]
  · have unknown : ¬q.automaton.alphabet.contains c.toString = true := by
      simpa [Alphabet.contains] using known
    rw [Function.comp_apply, Token.matching, Alphabet.matching, if_neg unknown, if_neg known]
    rfl

omit h in
theorem silent_eq_false (arc : leg.arc = arcOf c) :
    q.direction.silent leg.arc.label = false := by
  have letter : c.toString ≠ epsilon := by
    intro empty
    have none : [c] = [] := by simpa [epsilon] using congrArg String.toList empty
    exact absurd none (List.cons_ne_nil c [])
  have plain : isFlag c.toString = false := isFlag_single c
  rw [Direction.silent, arc, arcOf, Direction.consumed_identity, plain, decide_eq_false letter]
  rfl

/-- An arc that takes a character writes that character. -/
theorem output_eq (arc : leg.arc = arcOf (q.automaton.alphabet.matching d))
    (letter : word.toList = [d]) : q.output word [leg] = [d.toString] := by
  have copied : q.direction.copies leg.arc.label
      (some ⟨d.toString, q.automaton.alphabet.contains d.toString⟩) = d.toString := by
    rw [arc, arcOf, Direction.copies, Direction.produced_identity, Alphabet.matching,
      Alphabet.contains]
    by_cases known : d.toString ∈ q.automaton.alphabet
    · rw [if_pos known, ite_self]
    · rw [if_neg known, decide_eq_false known]
      have point : '.'.toString = wildcard := rfl
      exact if_pos (decide_eq_true point)
  rw [Query.output, h.tokens_eq, letter, Direction.writes, silent_eq_false arc]
  exact congrArg (fun s => [s]) copied

/-- A path reads a word if the word is one character that its arc takes. -/
theorem yields_iff (first : leg ∈ q.automaton.legsFrom 0) (arc : leg.arc = arcOf c) :
    q.Yields word [leg] ↔
      ∃ d, word.toList = [d] ∧ q.automaton.alphabet.matching d = c := by
  have reads : q.direction.reads [leg] = [c.toString] := by
    rw [Direction.reads_cons (silent_eq_false arc), arc, arcOf, Direction.consumed_identity]
    rfl
  constructor
  · intro yields
    have same := yields.reads
    rw [reads, h.matching_eq] at same
    obtain ⟨d, letter, fits⟩ := List.map_eq_singleton_iff.mp same.symm
    exact ⟨d, letter, toString_char_inj fits⟩
  · rintro ⟨d, letter, rfl⟩
    refine ⟨⟨h.accepts_iff.mpr ⟨leg, first, rfl⟩, ?_⟩, fun _ => ?_⟩
    · rw [reads, h.matching_eq, letter]
      rfl
    · rw [h.output_eq word arc letter]
      exact Flag.agree_of_plain (fun s mem => List.mem_singleton.mp mem ▸ isFlag_single d) _

theorem result_eq (arc : leg.arc = arcOf (q.automaton.alphabet.matching d))
    (letter : word.toList = [d]) : q.result word [leg] = q.echo word := by
  have spelled : d.toString = word := by
    rw [← String.toList_inj, letter]
    simp
  have shown : withoutFlags [d.toString] = [d.toString] :=
    withoutFlags_of_plain fun s mem => List.mem_singleton.mp mem ▸ isFlag_single d
  have free : q.automaton.cost [leg] = .zero := by
    rw [cost, Leg.cost, Leg.costFrom_cons, Leg.ending, List.foldl_cons, List.foldl_nil, h.finals,
      arc, arcOf, if_pos rfl, Weight.zero_add_zero]
    exact Weight.zero_add_zero
  have text : "".intercalate [d.toString] = word := spelled
  rw [Query.result, h.output_eq word arc letter, shown, ite_self, free, Query.echo, text, spelled]

/-- The search finds a word if it is one character that an arc takes. -/
theorem run_accepted (letter : word.toList = [d])
    (mem : q.automaton.alphabet.matching d ∈ taken) :
    ∃ n, Move.run (Search.step q) (Search.start q word) n = (none, [q.echo word]) := by
  obtain ⟨leg, first, arc⟩ := exists_mem_legsFrom ((h.arcs 0 _).mpr ⟨rfl, _, mem, rfl⟩)
  rw [← h.result_eq word arc letter]
  refine (h.bounded word).run_unique h.fit fun more => ⟨fun yields => ?_, fun same => ?_⟩
  · obtain ⟨other, first', rfl⟩ := h.accepts_iff.mp yields.path
    obtain ⟨-, c, -, arc'⟩ := h.leaves first'
    obtain ⟨d', letter', rfl⟩ := (h.yields_iff word first' arc').mp yields
    obtain rfl : d' = d := by simpa [letter'] using letter
    rw [h.leg_unique first' first (arc'.trans arc.symm)]
  · exact same ▸ (h.yields_iff word first arc).mpr ⟨d, letter, rfl⟩

/-- The search ends without a result for any other word. -/
theorem run_refused (other : ∀ d, word.toList = [d] → q.automaton.alphabet.matching d ∉ taken) :
    ∃ n, Move.run (Search.step q) (Search.start q word) n = (none, []) := by
  refine (h.bounded word).run_empty h.fit fun legs yields => ?_
  obtain ⟨leg, first, rfl⟩ := h.accepts_iff.mp yields.path
  obtain ⟨-, c, mem, arc⟩ := h.leaves first
  obtain ⟨d, letter, rfl⟩ := (h.yields_iff word first arc).mp yields
  exact other d letter mem

end Query

end Choice

/-- The characters in some of the ranges. -/
def charactersOf (ranges : List (Char × Char)) : List Char :=
  ranges.flatMap fun (first, last) => charactersBetween first last

/-- The characters on the arcs for some ranges. -/
def takenOf (ranges : List (Char × Char)) (complement : Bool) : List Char :=
  if complement then ['.'] else charactersOf ranges

variable {ranges : List (Char × Char)} {complement : Bool} {s : Symbol}

/-- The two states before there are arcs. -/
def frame : Automaton := (empty.addState none).setFinal 1 .zero

theorem state_frame (id : StateId) :
    frame.state id = if id = 1 then { finalWeight := .zero } else {} := by
  have blank (id : StateId) : (empty.addState none).state id = {} := by
    rw [state_addState, state_empty, ite_self]
  have two : 1 < (empty.addState none).size := by decide
  rw [frame, state_setFinal two (by decide), blank, blank]

/-- All arcs leave the initial state. -/
theorem ofRanges_eq (ranges : List (Char × Char)) (complement : Bool) :
    ofRanges ranges complement =
      { frame.modify 0 (·.addArcs ((takenOf ranges complement).map arcOf)) with
        alphabet := (Alphabet.ofList ((charactersOf ranges).map Char.toString)).insertAll
          (if complement then [wildcard] else []) } := by
  have gathered : (ranges.flatMap fun (first, last) =>
      (charactersBetween first last).map Char.toString) =
      (charactersOf ranges).map Char.toString := by
    rw [charactersOf, List.map_flatMap]
  rw [ofRanges, gathered, takenOf]
  split
  · rfl
  · have all := foldl_addArc (frame.addSymbols ((charactersOf ranges).map Char.toString)) 0
      ((charactersOf ranges).map arcOf)
    rw [List.foldl_map] at all ⊢
    exact all

theorem state_ofRanges (ranges : List (Char × Char)) (complement : Bool) (id : StateId) :
    (ofRanges ranges complement).state id =
      if id = 0 then ({} : State).addArcs ((takenOf ranges complement).map arcOf)
      else if id = 1 then { finalWeight := .zero } else {} := by
  have some : 0 < frame.size := by decide
  rw [ofRanges_eq, ← state_frame]
  refine (state_modify some _ id).trans ?_
  rw [state_frame, if_neg Nat.zero_ne_one]

theorem mem_alphabet_ofRanges : s ∈ (ofRanges ranges complement).alphabet ↔
    (∃ c ∈ charactersOf ranges, s = c.toString) ∨ complement = true ∧ s = wildcard := by
  have none : s ∉ Alphabet.empty := List.not_mem_nil
  rw [ofRanges_eq, Alphabet.mem_insertAll, Alphabet.ofList, Alphabet.mem_insertAll]
  refine or_congr ?_ ?_
  · simp [none, eq_comm]
  · split
    · next complement => simp [complement]
    · next plain => simp [plain]

theorem mem_arcs_addArcs : arc ∈ (({} : State).addArcs (taken.map arcOf)).arcs ↔
    ∃ c ∈ taken, arc = arcOf c := by
  have arcs {arc : Arc} (mem : arc ∈ (({} : State).addArcs (taken.map arcOf)).arcs) :
      ∃ c ∈ taken, arc = arcOf c := by
    rcases State.mem_addArcs mem with new | old
    · obtain ⟨c, there, rfl⟩ := List.mem_map.mp new
      exact ⟨c, there, rfl⟩
    · exact absurd old List.not_mem_nil
  refine ⟨arcs, ?_⟩
  rintro ⟨c, there, rfl⟩
  obtain ⟨other, mem, same⟩ :=
    State.exists_mem_addArcs (State.labelled_empty none) (List.mem_map_of_mem there)
  rcases same with rfl | ⟨label, -⟩
  · exact mem
  · obtain ⟨d, -, rfl⟩ := arcs mem
    rwa [toString_char_inj (Label.identity.inj label)] at mem

theorem choice_ofRanges (ranges : List (Char × Char)) (complement : Bool) :
    Choice (takenOf ranges complement) (ofRanges ranges complement) := by
  have arcs (id : StateId) (arc : Arc) : arc ∈ ((ofRanges ranges complement).state id).arcs ↔
      id = 0 ∧ ∃ c ∈ takenOf ranges complement, arc = arcOf c := by
    rw [state_ofRanges]
    split
    · next start => rw [mem_arcs_addArcs]; simp [start]
    · next later =>
      split
      · simp [later, State.arcs]
      · simp [later, State.arcs]
  refine ⟨?_, arcs, fun id => ?_, fun id => ?_, fun s mem => ?_⟩
  · rw [ofRanges_eq]
    rfl
  · refine List.Nodup.of_map Arc.plain (((wellFormed_ofRanges ..).states id).nodup_plain ?_)
    intro arc mem
    obtain ⟨-, c, -, rfl⟩ := (arcs id arc).mp mem
    have zero : Weight.zero.isNaN = false := by decide
    exact zero
  · rw [state_ofRanges]
    split
    · next start =>
      rw [State.finalWeight_addArcs, start]
      rfl
    · split
      · rfl
      · rfl
  · rcases mem_alphabet_ofRanges.mp mem with ⟨c, -, rfl⟩ | ⟨-, rfl⟩
    · exact ⟨c, rfl⟩
    · exact ⟨'.', rfl⟩

/-- A character lies in one of the ranges. -/
def inRanges (ranges : List (Char × Char)) (c : Char) : Bool :=
  ranges.any fun (first, last) => first ≤ c && c ≤ last

/-- The words that the ranges describe. -/
def describes (ranges : List (Char × Char)) (complement : Bool) (word : String) : Bool :=
  match word.toList with
  | [c] => inRanges ranges c != complement
  | _ => false

/-- The characters that are accepted: a point in the ranges stands for all characters, and the
wildcard of a complement takes a point, listed or not. -/
def takesCharacter (ranges : List (Char × Char)) (complement : Bool) (c : Char) : Bool :=
  if complement then !inRanges ranges c || c = '.' else inRanges ranges c || inRanges ranges '.'

/-- The words that are accepted. -/
def takes (ranges : List (Char × Char)) (complement : Bool) (word : String) : Bool :=
  match word.toList with
  | [c] => takesCharacter ranges complement c
  | _ => false

theorem takes_eq_true_iff {word : String} : takes ranges complement word = true ↔
    ∃ c, word.toList = [c] ∧ takesCharacter ranges complement c = true := by
  rw [takes]
  split
  · next c letter => simp [letter]
  · next many =>
    simp only [Bool.false_eq_true, false_iff]
    rintro ⟨c, letter, -⟩
    exact many c letter

theorem mem_charactersOf : c ∈ charactersOf ranges ↔ inRanges ranges c = true := by
  simp [charactersOf, inRanges, List.mem_flatMap, mem_charactersBetween]

theorem toString_mem_alphabet_ofRanges : c.toString ∈ (ofRanges ranges complement).alphabet ↔
    inRanges ranges c = true ∨ complement = true ∧ c = '.' := by
  rw [mem_alphabet_ofRanges, ← mem_charactersOf]
  refine or_congr ⟨?_, fun mem => ⟨c, mem, rfl⟩⟩ (and_congr_right fun _ => ⟨?_, ?_⟩)
  · rintro ⟨d, mem, same⟩
    rwa [toString_char_inj same]
  · exact fun point => toString_char_inj (d := '.') point
  · rintro rfl
    rfl

/-- Some arc takes a character just if the character is accepted. -/
theorem matching_mem_takenOf : (ofRanges ranges complement).alphabet.matching c ∈
    takenOf ranges complement ↔ takesCharacter ranges complement c = true := by
  rw [Alphabet.matching, takenOf, takesCharacter]
  simp only [toString_mem_alphabet_ofRanges]
  cases complement with
  | true =>
    by_cases point : c = '.'
    · simp [point]
    · by_cases listed : inRanges ranges c = true
      · simp [listed, point]
      · simp [listed, point]
  | false =>
    by_cases listed : inRanges ranges c = true
    · simp [listed, mem_charactersOf]
    · simp [listed, mem_charactersOf]

theorem takes_eq_describes (point : inRanges ranges '.' = false) (complement : Bool)
    (word : String) : takes ranges complement word = describes ranges complement word := by
  have same (c : Char) :
      takesCharacter ranges complement c = (inRanges ranges c != complement) := by
    rw [takesCharacter, point]
    cases complement with
    | false => simp
    | true =>
      by_cases here : c = '.'
      · simp [here, point]
      · simp [here]
  rw [takes, describes]
  split
  · next c letter => exact same c
  · rfl

/-- An automaton of ranges gives back a word that it takes, once and at no cost, and finds nothing
for any other word. It takes the words that the ranges describe, unless the point is in a range. -/
theorem run_ofRanges (ranges : List (Char × Char)) (complement : Bool) (d : Direction)
    (options : ApplyOptions) (word : String) :
    let q : Query := ⟨ofRanges ranges complement, d, options⟩
    (∃ n, Move.run (Search.step q) (Search.start q word) n =
      (none, if takes ranges complement word then [q.echo word] else [])) ∧
      (inRanges ranges '.' = false →
        takes ranges complement word = describes ranges complement word) := by
  intro q
  have h : Choice (takenOf ranges complement) q.automaton := choice_ofRanges ranges complement
  refine ⟨?_, fun point => takes_eq_describes point complement word⟩
  split
  · next accepted =>
    obtain ⟨c, letter, taken⟩ := takes_eq_true_iff.mp accepted
    exact h.run_accepted word letter (matching_mem_takenOf.mpr taken)
  · next refused =>
    refine h.run_refused word fun c letter mem => refused ?_
    exact takes_eq_true_iff.mpr ⟨c, letter, matching_mem_takenOf.mp mem⟩

/-- The complement of a range takes the point that the range holds, and the range takes any
character. -/
theorem results_point :
    describes [('.', '.')] true "." = false ∧ describes [('.', '.')] false "z" = false ∧
    Query.results ⟨ofRanges [('.', '.')] true, .generate, { weights := true }⟩ "." 10 5 =
        some [⟨.text ".", some .zero⟩] ∧
    Query.results ⟨ofRanges [('.', '.')] false, .generate, { weights := true }⟩ "z" 10 5 =
        some [⟨.text "z", some .zero⟩] := by
  decide +kernel

end Automaton

end Transducer
