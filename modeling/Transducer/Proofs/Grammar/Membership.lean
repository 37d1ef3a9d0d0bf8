import Transducer.Proofs.Apply.Finite
import Transducer.Proofs.Apply.Renamed
import Transducer.Proofs.Automaton.Reached
import Transducer.Proofs.Grammar.Strings
/-!
A word list decides membership. Its strings are cut by the declared symbols and words by the symbols
that the strings have, and both ways of cutting give a string of the list the same symbols.
-/

namespace Transducer

namespace Direction

variable {d : Direction} {legs : List Leg} {symbols : List Symbol} {s : Symbol}

theorem map_of_identities {side : Label → Symbol} (same : ∀ s, side (.identity s) = s)
    (spelled : Leg.labels legs = symbols.map .identity) : (Leg.labels legs).map side = symbols := by
  rw [spelled, List.map_map]
  exact (List.map_congr_left fun s _ => same s).trans (List.map_id _)

theorem reads_of_identities (spelled : Leg.labels legs = symbols.map .identity)
    (usual : ∀ s ∈ symbols, isFlag s = false) : d.reads legs = symbols.filter (· ≠ epsilon) := by
  rw [reads_eq_visible, map_of_identities d.consumed_identity spelled, visible,
    withoutFlags_of_plain usual]

/-- A path of identities writes its symbols whatever the tokens are, unless one is the wildcard. -/
theorem writes_of_identities (spelled : Leg.labels legs = symbols.map .identity)
    (usual : ∀ s ∈ symbols, s ≠ wildcard) (tokens : List Token) :
    d.writes tokens legs = symbols := by
  have sides := map_of_identities d.produced_identity spelled
  rw [writes_eq_map, sides]
  intro l hl
  have side : d.produced l ∈ (Leg.labels legs).map d.produced := List.mem_map_of_mem hl
  rw [sides] at side
  exact usual _ side

end Direction

/-- Strings that stand for themselves: no character has a meaning of its own, and no symbol does. -/
structure Readable (spelling : Spelling) (strings : List String) : Prop where
  sorted : spelling.Sorted
  plain : ∀ s ∈ strings, Spelling.Plain s.toList
  usual : ∀ s ∈ strings, ∀ t ∈ spelling.tokenize s, t ≠ wildcard ∧ isFlag t = false

namespace Readable

open Automaton

variable {spelling : Spelling} {strings : List String} {word s : String} {t : Symbol}
  {legs : List Leg} {d : Direction}

theorem usual_spelled (h : Readable spelling strings) (hs : s ∈ strings)
    (ht : t ∈ spelling.spelled s) : t ≠ wildcard ∧ isFlag t = false :=
  h.usual s hs t (List.mem_filter.mp ht).1

theorem sub {kept : List String} (h : Readable spelling strings) (sub : ∀ s ∈ kept, s ∈ strings) :
    Readable spelling kept :=
  ⟨h.sorted, fun s hs => h.plain s (sub s hs), fun s hs => h.usual s (sub s hs)⟩

theorem flatMap_tokenize (h : Readable spelling strings) (hs : s ∈ strings) :
    (spelling.tokenize s).flatMap String.toList = s.toList := by
  rw [← flatMap_toList_filter]
  exact (h.sorted.munched_spelled (h.plain s hs)).flatMap_toList

/-- Strings that spell the same are the same, so all of them are kept. -/
theorem mem_distinctSpellings_iff (h : Readable spelling strings) :
    word ∈ distinctSpellings spelling strings ↔ word ∈ strings := by
  refine ⟨mem_distinctSpellings, fun hw => ?_⟩
  obtain ⟨s, hs, same⟩ := exists_distinctSpellings spelling hw
  have text := (h.sorted.munched_spelled (h.plain word hw)).flatMap_toList
  have other := (h.sorted.munched_spelled
    (h.plain s (mem_distinctSpellings hs))).flatMap_toList
  rw [same, text] at other
  exact String.toList_inj.mp other ▸ hs

/-- The alphabet of the list cuts its strings as the declared symbols do. -/
theorem tokenize_eq (h : Readable spelling strings) (hs : s ∈ strings) :
    (listed strings spelling).alphabet.tokenize s = spelling.spelled s := by
  have munched := h.sorted.munched_spelled (h.plain s hs)
  -- the alphabet has these tokens, and of symbols with several characters only declared ones
  refine (Alphabet.munched_cut _ _).unique (munched.transfer (fun t ht => ?_) fun u mem long => ?_)
  · exact .inl (List.mem_map_of_mem (mem_alphabet_listed.mpr ⟨s, hs, ht⟩))
  · obtain ⟨t, ht, rfl⟩ := List.mem_map.mp mem
    obtain ⟨s', hs', token⟩ := mem_alphabet_listed.mp ht
    exact (h.sorted.munched_spelled (h.plain s' hs')).mem_of_long token long

/-- No other word is cut into the symbols of a string. -/
theorem eq_of_tokenize (h : Readable spelling strings) (hs : s ∈ strings)
    (same : (listed strings spelling).alphabet.tokenize word = spelling.spelled s) : word = s := by
  have cut := (listed strings spelling).alphabet.flatMap_toList_tokenize word
  have spelled := (h.sorted.munched_spelled (h.plain s hs)).flatMap_toList
  rw [← same] at spelled
  exact String.toList_inj.mp (cut.symm.trans spelled)

/-- A word matches the symbols of a string only if it is that string: an unknown token would match
the wildcard, which no string has. -/
theorem matching_iff {q : Query} (h : Readable spelling strings)
    (hq : q.automaton = listed strings spelling) (hs : s ∈ strings) :
    spelling.spelled s = (q.tokens word).map Token.matching ↔ word = s := by
  constructor
  · intro same
    have tame : wildcard ∉ (q.tokens word).map Token.matching := by
      rw [← same]
      exact fun wild => (h.usual_spelled hs wild).1 rfl
    rw [Query.map_matching_tokens (Query.known_of_wildcard_not_mem tame), hq] at same
    exact h.eq_of_tokenize hs same.symm
  · intro same
    have cut : q.automaton.alphabet.tokenize word = spelling.spelled s := by
      rw [hq, same, h.tokenize_eq hs]
    rw [Query.map_matching_tokens, cut]
    intro t ht
    rw [cut] at ht
    rw [hq]
    exact mem_alphabet_listed.mpr ⟨s, hs, ht⟩

theorem fit (h : Readable spelling strings) : Flag.Fit (listed strings spelling).mentions := by
  refine Flag.fit_of_plain fun t mem => ?_
  rcases mem_mentions_iff.mp mem with known | ⟨id, arc, there, symbol⟩
  · obtain ⟨s, hs, ht⟩ := mem_alphabet_listed.mp known
    exact (h.usual_spelled hs ht).2
  · obtain ⟨s, hs, u, hu, label⟩ := exists_label_listed there
    rw [label] at symbol
    exact List.mem_singleton.mp symbol ▸ (h.usual s hs u hu).2

section Path

variable {q : Query} (h : Readable spelling strings) (hq : q.automaton = listed strings spelling)
  (hs : s ∈ strings) (spelled : Leg.labels legs = (spelling.tokenize s).map .identity)
include h hs spelled

theorem output_eq (word : String) : q.output word legs = spelling.tokenize s :=
  Direction.writes_of_identities spelled (fun t ht => (h.usual s hs t ht).1) _

include hq

/-- The path of a string reads the string and no other word. -/
theorem yields_iff (accepts : q.automaton.Accepts legs) : q.Yields word legs ↔ word = s := by
  have usual : ∀ t ∈ spelling.tokenize s, isFlag t = false := fun t ht => (h.usual s hs t ht).2
  have reads : q.direction.reads legs = spelling.spelled s :=
    Direction.reads_of_identities spelled usual
  have matching : spelling.spelled s = (q.tokens word).map Token.matching ↔ word = s :=
    h.matching_iff hq hs
  constructor
  · intro yields
    exact matching.mp (reads.symm.trans yields.reads)
  · intro same
    refine ⟨⟨accepts, reads.trans (matching.mpr same)⟩, fun _ => ?_⟩
    rw [h.output_eq hs spelled]
    exact Flag.agree_of_plain usual _

end Path

theorem result_eq (h : Readable spelling strings) (hs : s ∈ strings)
    (spelled : Leg.labels legs = (spelling.tokenize s).map .identity)
    (free : (listed strings spelling).cost legs = .zero) (d : Direction) (word : String) :
    Query.result ⟨listed strings spelling, d, { weights := true }⟩ word legs =
      ⟨.text s, some .zero⟩ := by
  have plain : withoutFlags (spelling.tokenize s) = spelling.tokenize s :=
    withoutFlags_of_plain fun t ht => (h.usual s hs t ht).2
  have text : "".intercalate (spelling.tokenize s) = s := by
    rw [← String.toList_inj, toList_intercalate_empty, h.flatMap_tokenize hs]
  have written := h.output_eq (q := ⟨listed strings spelling, d, { weights := true }⟩)
    hs spelled word
  simp [Query.result, written, plain, text, free]

/-- A search finds the strings of the list and nothing else. -/
theorem run_listed (h : Readable spelling strings) (nodup : (strings.map spelling.tokenize).Nodup)
    (d : Direction) (word : String) :
    let q : Query := ⟨listed strings spelling, d, { weights := true }⟩
    ∃ n, Move.run (Search.step q) (Search.start q word) n =
      (none, if word ∈ strings then [⟨.text word, some .zero⟩] else []) := by
  intro q
  have lists := lists_listed nodup
  have bounded : Search.Bounded q word q.automaton.size :=
    Search.bounded_of_acyclic (not_hasCycle_listed strings spelling) word
  by_cases hw : word ∈ strings
  · rw [if_pos hw]
    obtain ⟨legs, accepts, spelled⟩ := lists.complete _ (List.mem_map_of_mem hw)
    obtain ⟨s, hs, spelled', free⟩ := exists_of_accepts_listed accepts
    rw [← h.result_eq hw spelled free d word]
    refine bounded.run_unique h.fit fun more => ⟨fun yields => ?_, fun same => ?_⟩
    · obtain ⟨s, hs, spelled', -⟩ := exists_of_accepts_listed yields.path
      obtain rfl := (h.yields_iff rfl hs spelled' yields.path).mp yields
      exact lists.unique _ _ yields.path accepts (spelled'.trans spelled.symm)
    · exact same ▸ (h.yields_iff rfl hw spelled accepts).mpr rfl
  · rw [if_neg hw]
    refine bounded.run_empty h.fit fun legs yields => ?_
    obtain ⟨s, hs, spelled, -⟩ := exists_of_accepts_listed yields.path
    exact hw ((h.yields_iff rfl hs spelled yields.path).mp yields ▸ hs)

end Readable

namespace Automaton

/-- Applied to a word, the automaton of a list of strings gives the word at no cost if it is one of
them, and nothing otherwise. -/
theorem ofStrings_decides (strings : List String) (multichar : List Symbol)
    (plain : ∀ s ∈ strings, Spelling.Plain s.toList)
    (usual : ∀ s ∈ strings, ∀ t ∈ (Spelling.ofDeclared multichar).tokenize s,
      t ≠ wildcard ∧ isFlag t = false) :
    ∃ a, ofStrings strings multichar = .ok a ∧ ∀ (d : Direction) (word : String),
      let q : Query := ⟨a, d, { weights := true }⟩
      ∃ n, Move.run (Search.step q) (Search.start q word) n =
        (none, if word ∈ strings then [⟨.text word, some .zero⟩] else []) := by
  let kept := distinctSpellings (.ofDeclared multichar) strings
  have readable : Readable (.ofDeclared multichar) strings :=
    ⟨Spelling.sorted_ofDeclared multichar, plain, usual⟩
  have formed := wellFormed_ofGrammar (ofGrammar_ofStrings kept multichar)
  refine ⟨_, ofStrings_eq strings multichar, fun d word => ?_⟩
  let q : Query := ⟨listed kept (.ofDeclared multichar), d, { weights := true }⟩
  obtain ⟨n, run⟩ := (readable.sub fun s => mem_distinctSpellings).run_listed
    (nodup_tokenize_distinctSpellings _ strings) d word
  obtain ⟨found, going⟩ := Search.run_renamed (q := q) formed.renaming_renumbered word n
  rw [run] at found going
  refine ⟨n, Prod.ext (Option.isNone_iff_eq_none.mp (Option.isSome_eq_false_iff.mp going)) ?_⟩
  exact found.trans (if_congr readable.mem_distinctSpellings_iff rfl rfl)

theorem ofStrings_decides_two_strings :
    ∃ a, ofStrings ["ab", "c"] ["ab"] = .ok a ∧
      ∃ n, Move.run (Search.step ⟨a, .generate, { weights := true }⟩)
        (Search.start ⟨a, .generate, { weights := true }⟩ "ab") n =
          (none, [⟨.text "ab", some .zero⟩]) := by
  have plain : ∀ s ∈ ["ab", "c"], Spelling.Plain s.toList := by decide
  have first : (Spelling.ofDeclared ["ab"]).tokenize "ab" = ["ab"] := by
    simp [Spelling.tokenize, Spelling.cut, Spelling.ofDeclared, Spelling.next]
  have second : (Spelling.ofDeclared ["ab"]).tokenize "c" = ["c"] := by
    simp [Spelling.tokenize, Spelling.cut, Spelling.ofDeclared, Spelling.next]
  have usual : ∀ s ∈ ["ab", "c"], ∀ t ∈ (Spelling.ofDeclared ["ab"]).tokenize s,
      t ≠ wildcard ∧ isFlag t = false := by
    simp only [List.forall_mem_cons, first, second]
    decide
  obtain ⟨a, built, decides⟩ := ofStrings_decides ["ab", "c"] ["ab"] plain usual
  exact ⟨a, built, decides .generate "ab"⟩

end Automaton

end Transducer
