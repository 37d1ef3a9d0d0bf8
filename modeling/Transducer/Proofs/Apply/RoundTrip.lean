import Transducer.Proofs.Apply.Finite
import Transducer.Proofs.Apply.Inverse
/-!
Going there and back. A path that gives a text for a word gives the word for the text in the
opposite direction, if it takes no wildcards, has its flags on both sides, and the text is cut into
the symbols that the path wrote.
-/

namespace Transducer

/-- What a path has to be like for its text to be read back along it. -/
structure Reversible (a : Automaton) (d : Direction) (legs : List Leg) (text : String) : Prop where
  /-- No side of an arc is the wildcard. -/
  tame : ∀ l ∈ Leg.labels legs, wildcard ∉ l.symbols
  /-- A flag on one side is on the other side too. -/
  flags : ∀ l ∈ Leg.labels legs, isFlag l.input = true ∨ isFlag l.output = true →
    l.input = l.output
  /-- The text is cut into the symbols that the path writes, as far as they show. -/
  cut : a.alphabet.tokenize text = visible ((Leg.labels legs).map d.produced)
  known : ∀ s ∈ visible ((Leg.labels legs).map d.produced), s ∈ a.alphabet

/-- The flags of labels that have them on both sides are the same on both. -/
theorem filter_isFlag_sides (d : Direction) {labels : List Label}
    (h : ∀ l ∈ labels, isFlag l.input = true ∨ isFlag l.output = true → l.input = l.output) :
    (labels.map d.consumed).filter isFlag = (labels.map d.produced).filter isFlag := by
  induction labels with
  | nil => rfl
  | cons l rest ih =>
    obtain ⟨here, later⟩ := List.forall_mem_cons.mp h
    rw [List.map_cons, List.map_cons, List.filter_cons, List.filter_cons, ih later]
    by_cases flag : isFlag l.input = true ∨ isFlag l.output = true
    · have same : d.consumed l = d.produced l := by
        cases d with
        | generate => exact here flag
        | analyze => exact (here flag).symm
      rw [same]
    · obtain ⟨input, output⟩ := not_or.mp flag
      have plain : isFlag (d.consumed l) ≠ true ∧ isFlag (d.produced l) ≠ true := by
        cases d with
        | generate => exact ⟨input, output⟩
        | analyze => exact ⟨output, input⟩
      rw [if_neg plain.1, if_neg plain.2]

namespace Query

variable {q : Query} {word text : String} {legs : List Leg}

/-- The same automaton applied in the opposite direction. -/
def back (q : Query) : Query := { q with direction := q.direction.opposite }

theorem result_eq_text (options : q.options = { weights := true }) (word : String)
    (legs : List Leg) : q.result word legs =
      ⟨.text ("".intercalate (withoutFlags (q.output word legs))),
        some (q.automaton.cost legs)⟩ := by
  rw [result, options]
  rfl

section

variable (h : Reversible q.automaton q.direction legs text)
include h

theorem output_of_reversible (word : String) :
    q.output word legs = (Leg.labels legs).map q.direction.produced := by
  apply Direction.writes_eq_map
  intro l hl wild
  exact h.tame l hl (wild ▸ q.direction.produced_mem l)

theorem output_back (text : String) :
    q.back.output text legs = (Leg.labels legs).map q.direction.consumed := by
  have sides : q.back.direction.produced = q.direction.consumed := q.direction.produced_opposite
  rw [← sides]
  apply Direction.writes_eq_map
  intro l hl wild
  exact h.tame l hl (wild ▸ q.back.direction.produced_mem l)

/-- In the opposite direction the path reads the tokens of its text. -/
theorem reads_back : q.back.direction.reads legs = (q.back.tokens text).map Token.matching := by
  have sides : q.back.direction.consumed = q.direction.produced := q.direction.consumed_opposite
  have cut : q.back.automaton.alphabet.tokenize text =
      visible ((Leg.labels legs).map q.back.direction.consumed) := sides ▸ h.cut
  have known : ∀ t ∈ q.back.automaton.alphabet.tokenize text, t ∈ q.back.automaton.alphabet := by
    intro t ht
    rw [cut, sides] at ht
    exact h.known t ht
  rw [map_matching_tokens known, cut, Direction.reads_eq_visible]

/-- Flags agree in both directions, since both sides show them in the same order. -/
theorem agree_back (agree : Flag.Agree (fun _ => .neutral) (q.output word legs)) :
    Flag.Agree (fun _ => .neutral) (q.back.output text legs) := by
  rw [output_of_reversible h, ← Flag.agree_filter] at agree
  rw [output_back h, ← Flag.agree_filter, filter_isFlag_sides q.direction h.flags]
  exact agree

/-- What the path writes in the opposite direction is the word that it reads. -/
theorem text_back (reads : q.direction.reads legs = (q.tokens word).map Token.matching) :
    "".intercalate (withoutFlags (q.back.output text legs)) = word := by
  have tame : wildcard ∉ q.direction.reads legs := by
    rw [Direction.reads_eq_visible]
    intro wild
    obtain ⟨l, hl, same⟩ := List.mem_map.mp (mem_visible wild)
    have side : q.direction.opposite.produced l ∈ l.symbols := Direction.produced_mem _ l
    rw [q.direction.produced_opposite, same] at side
    exact h.tame l hl side
  have tokens := map_matching_tokens (known_of_wildcard_not_mem (reads ▸ tame))
  rw [← String.toList_inj, output_back h, toList_intercalate_withoutFlags,
    ← Direction.reads_eq_visible, reads, tokens]
  exact q.automaton.alphabet.flatMap_toList_tokenize word

/-- A path among the results for a word is among those for its text in the opposite direction. -/
theorem Yields.back (yields : q.Yields word legs) : q.back.Yields text legs := by
  refine ⟨⟨yields.path, reads_back h⟩, fun obey => ?_⟩
  exact agree_back h (yields.agree obey)

end

end Query

namespace Search

/-- Analysis inverts generation, and generation analysis. If a path gives a text for a word at some
cost, it gives the word for the text at the same cost in the opposite direction, and a search that
has finished there has found it. -/
theorem run_back (q : Query) (options : q.options = { weights := true })
    (fit : Flag.Fit q.automaton.mentions) {word text : String} {cost : Weight} {legs : List Leg}
    (yields : q.Yields word legs) (gives : q.result word legs = ⟨.text text, some cost⟩)
    (h : Reversible q.automaton q.direction legs text) :
    q.back.Yields text legs ∧ q.back.result text legs = ⟨.text word, some cost⟩ ∧
      ∀ k, (Move.run (step q.back) (start q.back text) k).1 = none →
        ⟨.text word, some cost⟩ ∈ (Move.run (step q.back) (start q.back text) k).2 := by
  have there : q.back.Yields text legs := Query.Yields.back h yields
  have fit' : Flag.Fit q.back.automaton.mentions := fit
  have result : q.back.result text legs = ⟨.text word, some cost⟩ := by
    rw [Query.result_eq_text options, Applied.mk.injEq, Option.some.injEq] at gives
    have options' : q.back.options = { weights := true } := options
    rw [Query.result_eq_text options', Query.text_back h yields.reads, ← gives.2]
    rfl
  refine ⟨there, result, fun k ended => ?_⟩
  exact (mem_run_iff fit' ended).mpr ⟨legs, there, result⟩

/-- A path with a flag, and a symbol of two characters that becomes one of one character. -/
theorem run_back_with_flag :
    let a : Automaton := (((Automaton.empty.addSymbols ["ab", "c"]).addState none).addState none
      |>.setFinal 2 .zero).addArc 0 ⟨1, .identity "@P.F.V@", .zero⟩
      |>.addArc 1 ⟨2, .pair "ab" "c", .zero⟩
    let q : Query := { automaton := a, direction := .generate, options := { weights := true } }
    let legs : List Leg :=
      [⟨0, ⟨1, .identity "@P.F.V@", .zero⟩⟩, ⟨0, ⟨2, .pair "ab" "c", .zero⟩⟩]
    q.Yields "ab" legs ∧ q.result "ab" legs = ⟨.text "c", some .zero⟩ ∧
      Reversible a .generate legs "c" ∧ q.back.Yields "c" legs ∧
      ∃ k, (Move.run (step q.back) (start q.back "c") k).1 = none ∧
        ⟨.text "ab", some .zero⟩ ∈ (Move.run (step q.back) (start q.back "c") k).2 := by
  intro a q legs
  have fit : Flag.Fit q.automaton.mentions := ⟨by decide +kernel, by decide +kernel⟩
  have route : a.Route 0 legs 2 := by
    refine .go (Automaton.mem_legsFrom.mpr ?_) (.go (Automaton.mem_legsFrom.mpr ?_) (.stop 2))
    · decide +kernel
    · decide +kernel
  have agree : Flag.Agree (fun _ => .neutral) (q.output "ab" legs) := by
    have output : q.output "ab" legs = ["@P.F.V@", "c"] := by decide +kernel
    have flag : Flag.ofSymbol "@P.F.V@" = .ok ⟨.positive, "F", some "V"⟩ := by decide +kernel
    rw [output]
    exact .flag flag (.positive ..) (.plain (by decide +kernel) (.done _))
  have yields : q.Yields "ab" legs :=
    ⟨⟨⟨2, route, by decide +kernel⟩, by decide +kernel⟩, fun _ => agree⟩
  have reversible : Reversible a .generate legs "c" :=
    ⟨by decide +kernel, by decide +kernel, by decide +kernel, by decide +kernel⟩
  have gives : q.result "ab" legs = ⟨.text "c", some .zero⟩ := by decide +kernel
  have bounded : Bounded q.back "c" 2 := by
    intro taken last _ onward
    have first : (a.state 0).arcs = [⟨1, .identity "@P.F.V@", .zero⟩] := by decide +kernel
    have second : (a.state 1).arcs = [⟨2, .pair "ab" "c", .zero⟩] := by decide +kernel
    have third : (a.state 2).arcs = [] := by decide +kernel
    cases onward with
    | stop => exact Nat.zero_le 2
    | go leaves onward =>
      obtain rfl := Automaton.eq_of_mem_legsFrom first leaves
      cases onward with
      | stop => exact Nat.le_succ 1
      | go leaves onward =>
        obtain rfl := Automaton.eq_of_mem_legsFrom second leaves
        cases onward with
        | stop => exact Nat.le_refl 2
        | go leaves _ =>
          exact absurd (third ▸ Automaton.arc_mem_of_mem_legsFrom leaves) List.not_mem_nil
  obtain ⟨there, -, found⟩ := run_back q rfl fit yields gives reversible
  exact ⟨yields, gives, reversible, there, _, bounded.finishes, found _ bounded.finishes⟩

end Search

end Transducer
