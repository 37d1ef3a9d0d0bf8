import Transducer.Proofs.Apply.Options
import Transducer.Proofs.Apply.Translated
import Transducer.Words
/-!
Dropping unused symbols. A word whose tokens are all used, or single characters, is cut under the
smaller alphabet as it was, and a token that is now unknown could not be taken before, as no arc has
the wildcard. So the searches go hand in hand; their filters have read other symbols, but judge
alike.
-/

namespace Transducer

theorem Applied.map_id (r : Applied) : r.map id = r := by
  obtain ⟨output, cost⟩ := r
  cases output with
  | text t => rfl
  | tokens ts => exact congrArg (fun ts => Applied.mk (.tokens ts) cost) (List.map_id ts)

namespace Automaton

variable {a : Automaton} {s : Symbol} {legs : List Leg} {last : StateId}

theorem mem_usedSymbols_iff :
    s ∈ a.usedSymbols ↔ ∃ id, ∃ arc ∈ (a.state id).arcs, s ∈ arc.label.symbols := by
  rw [usedSymbols, Alphabet.ofList, Alphabet.mem_insertAll, mem_arcs_symbols_iff]
  exact or_iff_right List.not_mem_nil

/-- A path reads symbols that are used. -/
theorem Route.reads_subset (h : a.Route a.initial legs last) (d : Direction) :
    ∀ s ∈ d.reads legs, s ∈ a.usedSymbols := by
  intro s mem
  obtain ⟨l, listed, rfl⟩ := List.mem_map.mp mem
  obtain ⟨id, arc, there, rfl⟩ := h.exists_arc (List.mem_filter.mp listed).1
  exact mem_usedSymbols_iff.mpr ⟨id, arc, there, d.consumed_mem arc.label⟩

theorem dropUnusedSymbols_cases (a : Automaton) :
    a.dropUnusedSymbols = a ∨ wildcard ∉ a.usedSymbols ∧
      a.dropUnusedSymbols = { a with alphabet := a.alphabet.filter (· ∈ a.usedSymbols) } := by
  rw [dropUnusedSymbols]
  by_cases used : wildcard ∈ a.usedSymbols
  · exact .inl (if_pos used)
  · exact .inr ⟨used, if_neg used⟩

theorem of_mem_dropUnusedSymbols (noWildcard : wildcard ∉ a.usedSymbols)
    (h : s ∈ a.dropUnusedSymbols.alphabet) : s ∈ a.usedSymbols := by
  rw [dropUnusedSymbols, if_neg noWildcard] at h
  exact of_decide_eq_true (List.mem_filter.mp h).2

theorem mentions_filter_subset (a : Automaton) (p : Symbol → Bool) :
    ({ a with alphabet := a.alphabet.filter p } : Automaton).mentions ⊆ a.mentions := by
  intro s mem
  rw [mem_mentions_iff] at mem ⊢
  exact mem.imp_left fun kept => (List.mem_filter.mp kept).1

end Automaton

namespace Query

variable {q : Query} {word : String} {legs : List Leg}

/-- An automaton without wildcards only accepts words whose tokens are used. -/
theorem Accepts.tokens_used (h : q.Accepts word legs)
    (noWildcard : wildcard ∉ q.automaton.usedSymbols) :
    ∀ t ∈ q.automaton.alphabet.tokenize word, t ∈ q.automaton.usedSymbols := by
  obtain ⟨last, route, -⟩ := h.path
  have reads : ∀ s ∈ (q.tokens word).map Token.matching, s ∈ q.automaton.usedSymbols := by
    rw [← h.reads]
    exact route.reads_subset q.direction
  have known := known_of_wildcard_not_mem fun mem => noWildcard (reads wildcard mem)
  rwa [map_matching_tokens known] at reads

/-- The alphabet with the used symbols only. -/
def kept (q : Query) : Alphabet := q.automaton.alphabet.filter (· ∈ q.automaton.usedSymbols)

/-- A token is known as before, or it has become unknown because no arc uses it. -/
theorem kept_contains_cases {t : Token} (mem : t ∈ q.tokens word) :
    q.kept.contains t.text = t.known ∨
      q.kept.contains t.text = false ∧ t.known = true ∧ t.text ∉ q.automaton.usedSymbols := by
  obtain ⟨text, -, rfl⟩ := List.mem_map.mp mem
  have stays : text ∈ q.kept ↔ text ∈ q.automaton.alphabet ∧ text ∈ q.automaton.usedSymbols := by
    refine List.mem_filter.trans (and_congr_right fun _ => ?_)
    rw [decide_eq_true_eq]
  by_cases dropped : text ∈ q.automaton.alphabet ∧ text ∉ q.automaton.usedSymbols
  · have gone : text ∉ q.kept := fun there => dropped.2 (stays.mp there).2
    exact .inr ⟨decide_eq_false gone, decide_eq_true dropped.1, dropped.2⟩
  · have same : text ∈ q.kept ↔ text ∈ q.automaton.alphabet := by
      rw [stays, and_iff_left_iff_imp]
      exact fun known => of_not_not fun unused => dropped ⟨known, unused⟩
    exact .inl (decide_eq_decide.mpr same)

/-- A token that the smaller alphabet does not know any more was taken by no arc. -/
theorem translation_of_used (noWildcard : wildcard ∉ q.automaton.usedSymbols)
    (free : q.options.obeyFlags = false)
    (used : ∀ t ∈ q.automaton.alphabet.tokenize word,
      t ∈ q.automaton.usedSymbols ∨ t.toList.length = 1) :
    q.Translation word q.kept word (fun t => ⟨t.text, q.kept.contains t.text⟩) id where
  tokens := by
    have tokenize : q.kept.tokenize word = q.automaton.alphabet.tokenize word :=
      Alphabet.tokenize_filter fun t mem => (used t mem).imp_left decide_eq_true
    rw [tokens, tokens, Search.tokens, Search.tokens, List.map_map]
    simp only [against, tokenize]
    rfl
  scanned obey := by
    rw [free] at obey
    cases obey
  fixed _ _ := rfl
  matching t mem id arc there := by
    have consumed : q.direction.consumed arc.label ∈ q.automaton.usedSymbols :=
      Automaton.mem_usedSymbols_iff.mpr ⟨id, arc, there, q.direction.consumed_mem arc.label⟩
    rcases kept_contains_cases mem with same | ⟨now, before, unused⟩
    · simp only [Token.matching, same]
    · simp only [Token.matching, now, before, if_true, Bool.false_eq_true, if_false]
      constructor
      · exact fun same => absurd (same ▸ consumed) noWildcard
      · exact fun same => absurd (same ▸ consumed) unused
  copies t _ id arc there := by
    have produced : q.direction.produced arc.label ≠ wildcard := fun same =>
      noWildcard (Automaton.mem_usedSymbols_iff.mpr
        ⟨id, arc, there, same ▸ q.direction.produced_mem arc.label⟩)
    simp [Direction.copies, produced]
  plain t mem unknown := isFlag_unknown mem unknown
  spells symbols := by rw [List.map_id, id]

/-- A word with a result is accepted. -/
theorem exists_accepts_of_results (fit : Flag.Fit q.automaton.mentions) {steps limit : Nat}
    {r : Applied} {more : List Applied} (results : q.results word steps limit = some (r :: more)) :
    ∃ legs, q.Accepts word legs := by
  have found : r ∈ (Move.run (Search.step q) (Search.start q word) steps).2 :=
    Move.mem_run_of_take results List.mem_cons_self
  obtain ⟨legs, yields, -⟩ := Search.exists_yields_of_mem_run fit found
  exact ⟨legs, yields.toAccepts⟩

end Query

namespace Search

variable {q q' : Query} {word : String} {scanned : List Symbol} {k : Nat} {r : Applied}

/-- Whether a new filter keeps a result of a full search depends on the symbols of the result only,
not on what the filter has read. -/
theorem keeps_run_full (fit : Flag.Fit q.automaton.mentions) (hs : scanned ⊆ q.automaton.mentions)
    (mem : r ∈ (Move.run (step { q with options := .full })
      (start { q with options := .full } word) k).2) :
    q.options.keeps (FlagFilter.fresh scanned) r = true ↔
      (q.options.obeyFlags = true → Flag.Agree (fun _ => .neutral) r.output.symbols) := by
  obtain ⟨legs, yields, rfl⟩ := exists_yields_of_mem_run (q := { q with options := .full }) fit mem
  have reads : q.direction.reads legs = (q.tokens word).map Token.matching := yields.reads
  have fits : q.Fits word legs := by rw [Query.Fits, reads]
  have sound : (Trace.stopped legs).Sound q word := ⟨fits, yields.path⟩
  have entry := finish_entry { q with options := .full } word legs 0
  have symbols : (Query.result { q with options := .full } word legs).output.symbols =
      q.output word legs := rfl
  rw [symbols, ← entry]
  exact keeps_iff fit hs sound 0

/-- A search finds what it keeps of the results of the full search. -/
theorem run_eq_full (fit : Flag.Fit q.automaton.mentions) (word : String) (k : Nat) :
    (Move.run (step q) (start q word) k).2 =
        (Move.run (step { q with options := .full }) (start { q with options := .full } word)
          k).2.filterMap (image q q.automaton.alphabet.symbols) ∧
      (Move.run (step q) (start q word) k).1.isSome =
        (Move.run (step { q with options := .full }) (start { q with options := .full } word)
          k).1.isSome := by
  have scanned : q.automaton.alphabet.symbols ⊆ q.automaton.mentions :=
    List.subset_append_left ..
  obtain ⟨states, items⟩ := Move.run_mirrors (abreast_start scanned word)
    (fun s t h => h.mirrors fit scanned) k
  exact ⟨items, Move.isSome_eq_of_rel states⟩

/-- Two searches for a word find the same after every number of steps, and finish together. -/
def SameRuns (q q' : Query) (word : String) : Prop :=
  ∀ k, (Move.run (step q') (start q' word) k).2 = (Move.run (step q) (start q word) k).2 ∧
    (Move.run (step q') (start q' word) k).1.isSome = (Move.run (step q) (start q word) k).1.isSome

theorem SameRuns.results (h : SameRuns q q' word) (steps limit : Nat) :
    q'.results word steps limit = q.results word steps limit := by
  obtain ⟨items, ends⟩ := h steps
  have taken := Move.take_of_run (items.trans (List.map_id _).symm) ends limit
  rw [List.map_id_fun, Option.map_id] at taken
  exact taken

/-- If full searches find the same then so do searches with any options, although their filters have
read different alphabets. -/
theorem sameRuns_of_full {alphabet : Alphabet} (fit : Flag.Fit q.automaton.mentions)
    (sub : (q.against alphabet).automaton.mentions ⊆ q.automaton.mentions)
    (full : SameRuns { q with options := .full } { q.against alphabet with options := .full }
      word) : SameRuns q (q.against alphabet) word := by
  intro k
  obtain ⟨items, ends⟩ := full k
  have fit' : Flag.Fit (q.against alphabet).automaton.mentions := fit.mono sub
  obtain ⟨before, going⟩ := run_eq_full fit word k
  obtain ⟨after, going'⟩ := run_eq_full fit' word k
  rw [before, after, going, going', items]
  refine ⟨List.filterMap_congr fun r mem => ?_, ends⟩
  have judged := keeps_run_full fit (List.subset_append_left ..) mem
  rw [← items] at mem
  have judged' := keeps_run_full fit' (List.subset_append_left ..) mem
  have alike : q.options.keeps (FlagFilter.fresh alphabet.symbols) r =
      q.options.keeps (FlagFilter.fresh q.automaton.alphabet.symbols) r :=
    Bool.eq_iff_iff.mpr (judged'.trans judged.symm)
  exact congrArg (fun kept => if kept then some (q.options.reduce r) else none) alike

end Search

namespace Automaton

/-- Dropping unused symbols from an alphabet does not change a search for a word whose tokens are
used or single characters. -/
theorem sameRuns_dropUnusedSymbols {a : Automaton} (fit : Flag.Fit a.mentions) (d : Direction)
    (o : ApplyOptions) {word : String}
    (used : wildcard ∉ a.usedSymbols →
      ∀ t ∈ a.alphabet.tokenize word, t ∈ a.usedSymbols ∨ t.toList.length = 1) :
    Search.SameRuns ⟨a, d, o⟩ ⟨a.dropUnusedSymbols, d, o⟩ word := by
  rcases a.dropUnusedSymbols_cases with same | ⟨noWildcard, smaller⟩
  · rw [same]
    exact fun _ => ⟨rfl, rfl⟩
  · rw [smaller]
    refine Search.sameRuns_of_full (q := ⟨a, d, o⟩) fit (a.mentions_filter_subset _) fun k => ?_
    obtain ⟨items, ends⟩ := (Search.image_translated
      (Query.translation_of_used (q := ⟨a, d, .full⟩) noWildcard rfl (used noWildcard))).run k
    rw [funext Applied.map_id, List.map_id'] at items
    exact ⟨items, ends⟩

/-- Dropping unused symbols never loses or changes a result. If the automaton has a result for a
word when flags do not matter, or if no symbol of several characters is dropped, then after every
number of steps the results are the same for all options. The accepted paths stay the same in any
case. -/
theorem dropUnusedSymbols_results (a : Automaton) :
    (Flag.Fit a.mentions → ∀ (d : Direction) (word : String),
      ((∃ o : ApplyOptions, o.obeyFlags = false ∧ ∃ steps limit r more,
          (⟨a, d, o⟩ : Query).results word steps limit = some (r :: more)) ∨
        ∀ s ∈ a.alphabet, s ∉ a.dropUnusedSymbols.alphabet → s.length ≤ 1) →
      ∀ (o : ApplyOptions) (steps limit : Nat),
        (⟨a.dropUnusedSymbols, d, o⟩ : Query).results word steps limit =
          (⟨a, d, o⟩ : Query).results word steps limit) ∧
    ∀ steps limit, a.dropUnusedSymbols.words steps limit = a.words steps limit := by
  constructor
  · intro fit d word safe o steps limit
    refine (sameRuns_dropUnusedSymbols fit d o fun noWildcard t mem => ?_).results steps limit
    rcases safe with ⟨o', -, steps', limit', r, more, results⟩ | short
    · obtain ⟨legs, accepted⟩ := Query.exists_accepts_of_results fit results
      exact .inl (accepted.tokens_used noWildcard t mem)
    · rcases Alphabet.mem_tokenize mem with known | ⟨c, rfl⟩
      · by_cases needed : t ∈ a.usedSymbols
        · exact .inl needed
        · have dropped : t ∉ a.dropUnusedSymbols.alphabet := fun stays =>
            needed (of_mem_dropUnusedSymbols noWildcard stays)
          have some : t.toList ≠ [] := fun empty =>
            (Alphabet.munched_cut _ _).ne_empty t mem (String.toList_eq_nil_iff.mp empty)
          have single := short t known dropped
          rw [← String.length_toList] at single
          exact .inr (Nat.le_antisymm single (List.length_pos_iff.mpr some))
      · exact .inr (congrArg List.length String.toList_ofList)
  · intro steps limit
    rcases a.dropUnusedSymbols_cases with same | ⟨-, smaller⟩
    · rw [same]
    · rw [smaller]
      rfl

/-- The word `a` is accepted, so a dropped symbol of several characters does not matter to it. The
only unused symbol of the second automaton is one character, and no word sees that it is dropped. -/
theorem dropUnusedSymbols_results_two :
    let a : Automaton := (ofLabel (.pair "a" "x") .zero).addSymbols ["ab"]
    let b : Automaton := (ofLabel (.pair "a" "x") .zero).addSymbols ["b"]
    (Flag.Fit a.mentions ∧
      (⟨a, .generate, { obeyFlags := false }⟩ : Query).results "a" 3 1 = some [⟨.text "x", none⟩] ∧
      (⟨a.dropUnusedSymbols, .generate, {}⟩ : Query).results "a" 4 9 =
        (⟨a, .generate, {}⟩ : Query).results "a" 4 9) ∧
    (Flag.Fit b.mentions ∧
      (∀ s ∈ b.alphabet, s ∉ b.dropUnusedSymbols.alphabet → s.length ≤ 1) ∧
      (⟨b.dropUnusedSymbols, .generate, {}⟩ : Query).results "ab" 4 9 =
        (⟨b, .generate, {}⟩ : Query).results "ab" 4 9) := by
  intro a b
  have fit : Flag.Fit a.mentions := ⟨by decide +kernel, by decide +kernel⟩
  have found : (⟨a, .generate, { obeyFlags := false }⟩ : Query).results "a" 3 1 =
      some [⟨.text "x", none⟩] := by decide +kernel
  have fit' : Flag.Fit b.mentions := ⟨by decide +kernel, by decide +kernel⟩
  have short : ∀ s ∈ b.alphabet.symbols, s ∉ b.dropUnusedSymbols.alphabet → s.length ≤ 1 := by
    decide +kernel
  refine ⟨⟨fit, found, ?_⟩, fit', short, ?_⟩
  · exact (dropUnusedSymbols_results a).1 fit .generate "a"
      (.inl ⟨_, rfl, 3, 1, _, [], found⟩) {} 4 9
  · exact (dropUnusedSymbols_results b).1 fit' .generate "ab" (.inr short) {} 4 9

end Automaton

end Transducer
