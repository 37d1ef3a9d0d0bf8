import Transducer.Apply.Search
import Transducer.Proofs.Alphabet
import Transducer.Proofs.Flag.Agree
import Transducer.Proofs.Route
/-!
What the results for a word are, apart from how they are found: the paths to a final state that read
the whole word, with what they write and their cost.
-/

namespace Transducer

/-- The symbols that show in a text: neither empty nor flags. -/
def visible (symbols : List Symbol) : List Symbol := (withoutFlags symbols).filter (· ≠ epsilon)

theorem mem_visible {s : Symbol} {symbols : List Symbol} (h : s ∈ visible symbols) : s ∈ symbols :=
  (List.mem_filter.mp (List.mem_filter.mp h).1).1

theorem withoutFlags_of_plain {symbols : List Symbol} (h : ∀ s ∈ symbols, isFlag s = false) :
    withoutFlags symbols = symbols := by
  apply List.filter_eq_self.mpr
  intro s hs
  rw [h s hs]
  rfl

/-- Symbols without their flags spell the same as those that show. -/
theorem toList_intercalate_withoutFlags (symbols : List Symbol) :
    ("".intercalate (withoutFlags symbols)).toList = (visible symbols).flatMap String.toList := by
  rw [toList_intercalate_empty, visible, flatMap_toList_filter]

namespace Direction

variable {d : Direction} {l : Label} {leg : Leg} {legs more : List Leg} {tokens : List Token}
  {s : Symbol}

theorem consumed_identity (d : Direction) (s : Symbol) : d.consumed (.identity s) = s := by
  cases d <;> rfl

theorem produced_identity (d : Direction) (s : Symbol) : d.produced (.identity s) = s := by
  cases d <;> rfl

/-- An arc of this label takes no token. -/
def silent (d : Direction) (l : Label) : Bool := d.consumed l = epsilon || isFlag (d.consumed l)

/-- The symbols that a path has to find in a word. -/
def reads (d : Direction) (legs : List Leg) : List Symbol :=
  ((Leg.labels legs).filter fun l => !d.silent l).map d.consumed

/-- What an arc writes that takes a token, or none. -/
def copies (d : Direction) (l : Label) : Option Token → Symbol
  | none => d.produced l
  | some t => if !t.known && d.produced l = wildcard then t.text else d.produced l

/-- What a path writes that takes its tokens from a list. -/
def writes (d : Direction) : List Token → List Leg → List Symbol
  | _, [] => []
  | tokens, leg :: legs =>
    if d.silent leg.arc.label then d.produced leg.arc.label :: d.writes tokens legs
    else d.copies leg.arc.label tokens.head? :: d.writes tokens.tail legs

theorem reads_append (d : Direction) (legs more : List Leg) :
    d.reads (legs ++ more) = d.reads legs ++ d.reads more := by
  simp [reads, Leg.labels]

theorem reads_cons_silent (h : d.silent leg.arc.label = true) :
    d.reads (leg :: legs) = d.reads legs := by
  simp [reads, Leg.labels, h]

theorem reads_cons (h : d.silent leg.arc.label = false) :
    d.reads (leg :: legs) = d.consumed leg.arc.label :: d.reads legs := by
  simp [reads, Leg.labels, h]

theorem reads_snoc_silent (h : d.silent leg.arc.label = true) :
    d.reads (legs ++ [leg]) = d.reads legs := by
  rw [reads_append, reads_cons_silent h]
  exact List.append_nil _

theorem reads_snoc (h : d.silent leg.arc.label = false) :
    d.reads (legs ++ [leg]) = d.reads legs ++ [d.consumed leg.arc.label] := by
  rw [reads_append, reads_cons h]
  rfl

theorem writes_append (d : Direction) (tokens : List Token) (legs more : List Leg) :
    d.writes tokens (legs ++ more) =
      d.writes tokens legs ++ d.writes (tokens.drop (d.reads legs).length) more := by
  induction legs generalizing tokens with
  | nil => rfl
  | cons leg legs ih =>
    cases h : d.silent leg.arc.label with
    | true => simp [writes, h, ih, reads_cons_silent h]
    | false => simp [writes, h, ih, reads_cons h]

/-- A path reads the symbols that show on the side of its labels that it consumes. -/
theorem reads_eq_visible (d : Direction) (legs : List Leg) :
    d.reads legs = visible ((Leg.labels legs).map d.consumed) := by
  rw [visible, withoutFlags, List.filter_map, List.filter_map, List.filter_filter, reads]
  refine congrArg _ (List.filter_congr fun l _ => ?_)
  simp [silent]

/-- A path without wildcards writes the symbols of its labels, whatever the tokens are. -/
theorem writes_eq_map (h : ∀ l ∈ Leg.labels legs, d.produced l ≠ wildcard) :
    d.writes tokens legs = (Leg.labels legs).map d.produced := by
  induction legs generalizing tokens with
  | nil => rfl
  | cons leg legs ih =>
    obtain ⟨here, later⟩ := List.forall_mem_cons.mp h
    have here : d.produced leg.arc.label ≠ wildcard := here
    have copied : d.copies leg.arc.label tokens.head? = d.produced leg.arc.label := by
      cases tokens.head? with
      | none => rfl
      | some t => rw [copies, decide_eq_false here, Bool.and_false, if_neg (by decide)]
    rw [writes, copied, ih later, ih later, ite_self]
    rfl

theorem produced_mem (d : Direction) (l : Label) : d.produced l ∈ l.symbols := by
  cases d <;> cases l <;> simp [produced, Label.symbols, Label.input, Label.output]

theorem consumed_mem (d : Direction) (l : Label) : d.consumed l ∈ l.symbols := by
  cases d <;> cases l <;> simp [consumed, Label.symbols, Label.input, Label.output]

theorem copies_cases (d : Direction) (l : Label) (t? : Option Token) :
    d.copies l t? = d.produced l ∨ ∃ t ∈ t?, t.known = false ∧ d.copies l t? = t.text := by
  cases t? with
  | none => exact .inl rfl
  | some t =>
    rw [copies]
    split
    · next h =>
      rw [Bool.and_eq_true, Bool.not_eq_true'] at h
      exact .inr ⟨t, rfl, h.1, rfl⟩
    · exact .inl rfl

/-- A path writes symbols of its labels and texts of unknown tokens. -/
theorem mem_writes (h : s ∈ d.writes tokens legs) :
    (∃ l ∈ Leg.labels legs, s ∈ l.symbols) ∨ ∃ t ∈ tokens, t.known = false ∧ t.text = s := by
  induction legs generalizing tokens with
  | nil => simp [writes] at h
  | cons leg legs ih =>
    have here : leg.arc.label ∈ Leg.labels (leg :: legs) := List.mem_cons_self
    have later {tokens : List Token} (h : s ∈ d.writes tokens legs) :
        (∃ l ∈ Leg.labels (leg :: legs), s ∈ l.symbols) ∨
          ∃ t ∈ tokens, t.known = false ∧ t.text = s := by
      rcases ih h with ⟨l, hl, hs⟩ | unknown
      · exact .inl ⟨l, List.mem_cons_of_mem _ hl, hs⟩
      · exact .inr unknown
    rw [writes] at h
    split at h
    · rcases List.mem_cons.mp h with own | h
      · exact .inl ⟨_, here, own ▸ d.produced_mem _⟩
      · exact later h
    · rcases List.mem_cons.mp h with own | h
      · rcases copies_cases d leg.arc.label tokens.head? with same | ⟨t, ht, unknown, text⟩
        · rw [same] at own
          exact .inl ⟨_, here, own ▸ d.produced_mem _⟩
        · exact .inr ⟨t, List.mem_of_mem_head? ht, unknown, own ▸ text.symm⟩
      · rcases later h with label | ⟨t, ht, unknown⟩
        · exact .inl label
        · exact .inr ⟨t, List.mem_of_mem_tail ht, unknown⟩

end Direction

namespace Automaton

variable {a : Automaton} {id last : StateId} {legs : List Leg} {l : Label} {s : Symbol}

/-- The symbols of the alphabet and of all arcs. -/
def mentions (a : Automaton) : List Symbol :=
  a.alphabet.symbols ++ (a.arcsFrom a.ids).flatMap fun (_, arc) => arc.label.symbols

theorem mem_arcs_symbols_iff :
    s ∈ (a.arcsFrom a.ids).flatMap (fun (_, arc) => arc.label.symbols) ↔
      ∃ id, ∃ arc ∈ (a.state id).arcs, s ∈ arc.label.symbols := by
  rw [List.mem_flatMap]
  constructor
  · intro ⟨⟨id, arc⟩, sourced, symbol⟩
    obtain ⟨source, -, listed⟩ := List.mem_flatMap.mp sourced
    obtain ⟨arc, mem, same⟩ := List.mem_map.mp listed
    obtain ⟨rfl, rfl⟩ := Prod.mk.inj same
    exact ⟨source, arc, mem, symbol⟩
  · intro ⟨id, arc, mem, symbol⟩
    have source : id ∈ a.ids := List.mem_range.mpr (lt_size_of_mem mem)
    exact ⟨(id, arc), List.mem_flatMap.mpr ⟨id, source, List.mem_map_of_mem mem⟩, symbol⟩

theorem mem_mentions_iff : s ∈ a.mentions ↔
    s ∈ a.alphabet ∨ ∃ id, ∃ arc ∈ (a.state id).arcs, s ∈ arc.label.symbols := by
  rw [mentions, List.mem_append, mem_arcs_symbols_iff]
  rfl

theorem Route.exists_arc (h : a.Route id legs last) (hl : l ∈ Leg.labels legs) :
    ∃ id, ∃ arc ∈ (a.state id).arcs, arc.label = l := by
  induction h with
  | stop => simp [Leg.labels] at hl
  | @go id _ leg legs leaves _ ih =>
    rcases List.mem_cons.mp hl with rfl | hl
    · exact ⟨id, leg.arc, arc_mem_of_mem_legsFrom leaves, rfl⟩
    · exact ih hl

theorem Route.mem_mentions (h : a.Route id legs last) (hl : l ∈ Leg.labels legs)
    (hs : s ∈ l.symbols) : s ∈ a.mentions := by
  obtain ⟨id, arc, mem, rfl⟩ := h.exists_arc hl
  exact mem_mentions_iff.mpr (.inr ⟨id, arc, mem, hs⟩)

end Automaton

namespace Query

variable {q : Query} {word : String} {legs : List Leg} {last : StateId}

def tokens (q : Query) (word : String) : List Token := Search.tokens q.automaton word

/-- What a path writes for a word. -/
def output (q : Query) (word : String) (legs : List Leg) : List Symbol :=
  q.direction.writes (q.tokens word) legs

/-- A path to a final state reads the whole word. -/
structure Accepts (q : Query) (word : String) (legs : List Leg) : Prop where
  path : q.automaton.Accepts legs
  reads : q.direction.reads legs = (q.tokens word).map Token.matching

/-- A path is among the results: its flags agree, if they matter. -/
structure Yields (q : Query) (word : String) (legs : List Leg) : Prop extends
    q.Accepts word legs where
  agree : q.options.obeyFlags = true → Flag.Agree (fun _ => .neutral) (q.output word legs)

/-- The result that a path gives. -/
def result (q : Query) (word : String) (legs : List Leg) : Applied :=
  let written := q.output word legs
  let symbols := if q.options.printFlags then written else withoutFlags written
  { output := if q.options.tokenizeOutputs then .tokens symbols
      else .text ("".intercalate symbols)
    cost := if q.options.weights then some (q.automaton.cost legs) else none }

/-- A token that the alphabet does not know is a single character, so it is no flag. -/
theorem isFlag_unknown {t : Token} (ht : t ∈ q.tokens word) (unknown : t.known = false) :
    isFlag t.text = false := by
  obtain ⟨text, cut, same⟩ := List.mem_map.mp ht
  obtain rfl := same
  rcases Alphabet.mem_tokenize cut with known | ⟨c, single⟩
  · rw [Alphabet.contains, decide_eq_false_iff_not] at unknown
    exact absurd known unknown
  · rw [single]
    exact isFlag_single c

/-- Tokens that the alphabet knows match themselves. -/
theorem map_matching_tokens (known : ∀ t ∈ q.automaton.alphabet.tokenize word,
    t ∈ q.automaton.alphabet) :
    (q.tokens word).map Token.matching = q.automaton.alphabet.tokenize word := by
  rw [tokens, Search.tokens, List.map_map]
  refine (List.map_congr_left fun t ht => ?_).trans (List.map_id _)
  have there : q.automaton.alphabet.contains t = true := decide_eq_true (known t ht)
  rw [Function.comp_apply, Token.matching, there]
  rfl

/-- A token that the alphabet does not know matches the wildcard. -/
theorem known_of_wildcard_not_mem (h : wildcard ∉ (q.tokens word).map Token.matching) :
    ∀ t ∈ q.automaton.alphabet.tokenize word, t ∈ q.automaton.alphabet := by
  intro t ht
  by_contra unknown
  have absent : q.automaton.alphabet.contains t = false := decide_eq_false unknown
  apply h
  rw [tokens, Search.tokens, List.map_map, List.mem_map]
  refine ⟨t, ht, ?_⟩
  rw [Function.comp_apply, Token.matching, absent]
  rfl

/-- All flags that are written are flags of the automaton. -/
theorem known_output (route : q.automaton.Route q.automaton.initial legs last) :
    ∀ s ∈ q.output word legs, Flag.Known q.automaton.mentions s := by
  intro s hs
  rcases Direction.mem_writes hs with ⟨l, hl, symbol⟩ | ⟨t, ht, unknown, rfl⟩
  · exact Flag.known_of_mem (route.mem_mentions hl symbol)
  · exact Flag.known_of_not_isFlag (isFlag_unknown ht unknown)

end Query

end Transducer
