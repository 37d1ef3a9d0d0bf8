import Mathlib.Logic.Equiv.Basic
import Transducer.Proofs.Apply.Translated
/-!
Unknown characters are interchangeable. A change of characters that leaves the symbols of an
automaton as they are cuts words in the same places and keeps unknown tokens unknown, so results
only change with the characters that the wildcard copies.
-/

namespace Transducer

variable {σ : Char → Char}

/-- A change of characters that leaves symbols as they are. -/
structure Spares (σ : Char → Char) (symbols : List Symbol) : Prop where
  injective : Function.Injective σ
  fixed : ∀ s ∈ symbols, s.map σ = s

theorem map_ofList (σ : Char → Char) (text : List Char) :
    (String.ofList text).map σ = String.ofList (text.map σ) := by
  rw [← String.toList_inj, String.toList_map, String.toList_ofList, String.toList_ofList]

theorem map_intercalate_empty (σ : Char → Char) (symbols : List Symbol) :
    ("".intercalate symbols).map σ = "".intercalate (symbols.map (String.map σ)) := by
  rw [← String.toList_inj, String.toList_map, toList_intercalate_empty, toList_intercalate_empty,
    List.map_flatMap, List.flatMap_map]
  simp only [String.toList_map]

/-- Characters that symbols do not hold may be swapped. -/
theorem spares_swap {symbols : List Symbol} {x y : Char}
    (fresh : ∀ s ∈ symbols, x ∉ s.toList ∧ y ∉ s.toList) : Spares (Equiv.swap x y) symbols := by
  refine ⟨(Equiv.swap x y).injective, fun s mem => ?_⟩
  obtain ⟨noX, noY⟩ := fresh s mem
  rw [← String.toList_inj, String.toList_map]
  refine (List.map_congr_left fun c there => ?_).trans (List.map_id _)
  have notX : c ≠ x := fun same => noX (same ▸ there)
  have notY : c ≠ y := fun same => noY (same ▸ there)
  exact Equiv.swap_apply_of_ne_of_ne notX notY

theorem Spares.alphabet {a : Automaton} (h : Spares σ a.mentions) : Spares σ a.alphabet.symbols :=
  ⟨h.injective, fun s mem => h.fixed s (List.mem_append_left _ mem)⟩

namespace Alphabet

variable {a : Alphabet}

/-- Changed characters are cut in the same places. -/
theorem Munched.map {symbols : List (List Char)} {text : List Char} {tokens : List Symbol}
    (h : Munched symbols text tokens) (injective : Function.Injective σ)
    (fixed : ∀ s ∈ symbols, s.map σ = s) :
    Munched symbols (text.map σ) (tokens.map (String.map σ)) := by
  induction h with
  | done => exact .done
  | @token t rest more some known longest _ ih =>
    rw [List.map_append, List.map_cons, map_ofList]
    refine .token (mt List.map_eq_nil_iff.mp some) ?_ (fun s mem fits => ?_) ih
    · rcases known with mem | single
      · exact .inl ((fixed t mem).symm ▸ mem)
      · exact .inr ((List.length_map σ).trans single)
    · rw [← fixed s mem, ← List.map_append, List.prefix_map_iff_of_injective injective] at fits
      rw [List.length_map]
      exact longest s mem fits

theorem tokenize_map (spares : Spares σ a.symbols) (word : String) :
    a.tokenize (word.map σ) = (a.tokenize word).map (String.map σ) := by
  have fixed : ∀ s ∈ a.symbols.map String.toList, s.map σ = s := by
    intro s mem
    obtain ⟨symbol, there, rfl⟩ := List.mem_map.mp mem
    rw [← String.toList_map, spares.fixed symbol there]
  have changed := (munched_cut (a.symbols.map String.toList) word.toList).map spares.injective fixed
  rw [tokenize, String.toList_map]
  exact (munched_cut _ _).unique changed

/-- What is known stays known, and what is unknown stays unknown. -/
theorem contains_map (spares : Spares σ a.symbols) (text : Symbol) :
    a.contains (text.map σ) = a.contains text := by
  have back (known : text.map σ ∈ a) : text.map σ = text := by
    have twice := congrArg String.toList (spares.fixed _ known)
    rw [String.toList_map, String.toList_map] at twice
    rw [← String.toList_inj, String.toList_map]
    exact List.map_injective_iff.mpr spares.injective twice
  rw [contains, contains, decide_eq_decide]
  constructor
  · exact fun known => back known ▸ known
  · exact fun known => (spares.fixed text known).symm ▸ known

end Alphabet

/-- The token with other characters. -/
def Token.map (σ : Char → Char) (t : Token) : Token := { t with text := t.text.map σ }

namespace Query

variable {q : Query} {word : String}

theorem map_of_known (spares : Spares σ q.automaton.alphabet.symbols) {t : Token}
    (mem : t ∈ q.tokens word) (known : t.known = true) : t.map σ = t := by
  obtain ⟨text, -, rfl⟩ := List.mem_map.mp mem
  have there : text ∈ q.automaton.alphabet := of_decide_eq_true known
  rw [Token.map, spares.fixed text there]

/-- Known tokens stay as they are, and unknown ones stay single characters. -/
theorem translation_of_spares (spares : Spares σ q.automaton.mentions) (word : String) :
    q.Translation word q.automaton.alphabet (word.map σ) (Token.map σ) (String.map σ) where
  tokens := by
    have alphabet := spares.alphabet
    have cut := Alphabet.tokenize_map alphabet word
    rw [tokens, tokens, Search.tokens, Search.tokens]
    simp only [against, cut, List.map_map]
    refine List.map_congr_left fun text _ => ?_
    simp only [Function.comp_apply, Token.map, Alphabet.contains_map alphabet]
  scanned _ := rfl
  fixed := spares.fixed
  matching t mem id arc _ := by
    cases status : t.known with
    | true => rw [map_of_known spares.alphabet mem status]
    | false => simp [Token.matching, Token.map, status]
  copies t mem id arc there := by
    have produced : (q.direction.produced arc.label).map σ = q.direction.produced arc.label :=
      spares.fixed _ (Automaton.mem_mentions_iff.mpr
        (.inr ⟨id, arc, there, q.direction.produced_mem arc.label⟩))
    rw [Direction.copies, Direction.copies, apply_ite (String.map σ), produced]
    rfl
  plain t mem unknown := by
    obtain ⟨text, cut, rfl⟩ := List.mem_map.mp mem
    rcases Alphabet.mem_tokenize cut with there | ⟨c, rfl⟩
    · exact absurd there (of_decide_eq_false unknown)
    · rw [map_ofList]
      exact isFlag_single (σ c)
  spells := map_intercalate_empty σ

theorem results_map (spares : Spares σ q.automaton.mentions) (word : String) (steps limit : Nat) :
    q.results (word.map σ) steps limit =
      (q.results word steps limit).map (List.map (Applied.map (String.map σ))) := by
  obtain ⟨items, ends⟩ := (Search.image_translated (translation_of_spares spares word)).run steps
  exact Move.take_of_run items ends limit

/-- Two characters that the symbols of an automaton do not hold may be swapped in a word: after the
same steps there are the same results, at the same costs, with the characters swapped in what they
write. -/
theorem results_swap (a : Automaton) {x y : Char}
    (fresh : ∀ s ∈ a.mentions, x ∉ s.toList ∧ y ∉ s.toList) (d : Direction) (o : ApplyOptions)
    (word : String) (steps limit : Nat) :
    let q : Query := ⟨a, d, o⟩
    let swap : String → String := String.map (Equiv.swap x y)
    q.results (swap word) steps limit =
      (q.results word steps limit).map (List.map (Applied.map swap)) :=
  results_map (spares_swap fresh) word steps limit

/-- The second token is unknown: one path copies it, the other writes something else for it. -/
theorem results_swap_copied :
    let one : Weight := ⟨0x3FF0000000000000⟩
    let frame := (Automaton.empty.addSymbols ["a", "z"]).setFinal 0 .zero
    let a := ((frame.addArc 0 ⟨0, .identity "a", .zero⟩).addArc 0
      ⟨0, .identity wildcard, .zero⟩).addArc 0 ⟨0, .pair wildcard "z", one⟩
    let q : Query := ⟨a, .generate, { weights := true }⟩
    let swap : String → String := String.map (Equiv.swap 'b' 'c')
    (∀ s ∈ a.mentions, 'b' ∉ s.toList ∧ 'c' ∉ s.toList) ∧
      q.results "ab" 8 2 = some [⟨.text "ab", some .zero⟩, ⟨.text "az", some one⟩] ∧
      q.results (swap "ab") 8 2 = some [⟨.text "ac", some .zero⟩, ⟨.text "az", some one⟩] := by
  intro one frame a q swap
  have fresh : ∀ s ∈ a.mentions, 'b' ∉ s.toList ∧ 'c' ∉ s.toList := by decide +kernel
  have results : q.results "ab" 8 2 = some [⟨.text "ab", some .zero⟩, ⟨.text "az", some one⟩] := by
    decide +kernel
  have swapped := results_swap a fresh .generate { weights := true } "ab" 8 2
  refine ⟨fresh, results, swapped.trans ?_⟩
  rw [results]
  decide +kernel

end Query

end Transducer
