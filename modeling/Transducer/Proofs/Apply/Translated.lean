import Transducer.Proofs.Apply.Image
/-!
Searches for two words, under two alphabets, that go hand in hand: the tokens of one word stand for
those of the other, an arc takes both or neither of them, and what is written corresponds.
-/

namespace Transducer

/-- The output with its text, or each of its symbols, changed. -/
def Output.map (g : Symbol → Symbol) : Output → Output
  | text t => text (g t)
  | tokens ts => tokens (ts.map g)

def Applied.map (g : Symbol → Symbol) (r : Applied) : Applied := { r with output := r.output.map g }

/-- The path with other tokens ahead and other symbols behind. -/
def Path.translated (f : Token → Token) (g : Symbol → Symbol) (p : Path) : Path :=
  { p with rest := p.rest.map f, written := p.written.map g }

/-- A change of symbols makes nothing of this one that would matter to a filter. -/
def Flag.Keeps (g : Symbol → Symbol) (s : Symbol) : Prop :=
  g s = s ∨ isFlag s = false ∧ isFlag (g s) = false

variable {f : Token → Token} {g : Symbol → Symbol} {symbols : List Symbol}

theorem Flag.Keeps.isFlag_eq {s : Symbol} (h : Flag.Keeps g s) : isFlag (g s) = isFlag s := by
  rcases h with same | ⟨plain, plain'⟩
  · rw [same]
  · rw [plain, plain']

theorem withoutFlags_map (keeps : ∀ s ∈ symbols, Flag.Keeps g s) :
    withoutFlags (symbols.map g) = (withoutFlags symbols).map g := by
  rw [withoutFlags, List.filter_map]
  refine congrArg (List.map g) (List.filter_congr fun s mem => ?_)
  rw [Function.comp_apply, (keeps s mem).isFlag_eq]

namespace FlagFilter

theorem follow_map (keeps : ∀ s ∈ symbols, Flag.Keeps g s) (filter : FlagFilter)
    (settings : Settings) :
    filter.follow settings (symbols.map g) = filter.follow settings symbols := by
  induction symbols generalizing filter settings with
  | nil => rfl
  | cons s rest ih =>
    obtain ⟨here, later⟩ := List.forall_mem_cons.mp keeps
    rw [List.map_cons]
    rcases here with same | ⟨plain, plain'⟩
    · rw [same, follow, follow]
      simp only [ih later]
    · rw [follow_plain plain', follow_plain plain, ih later]

theorem accepts_map (keeps : ∀ s ∈ symbols, Flag.Keeps g s) (filter : FlagFilter) :
    filter.accepts (symbols.map g) = filter.accepts symbols := follow_map keeps filter _

end FlagFilter

/-- The query under another alphabet. -/
def Query.against (q : Query) (alphabet : Alphabet) : Query :=
  { q with automaton := { q.automaton with alphabet } }

/-- The tokens of another word under another alphabet are what `f` makes of those of the word. An
arc takes both or neither of two such tokens, and writes for the second one what `g` makes of what
it writes for the first. -/
structure Query.Translation (q : Query) (word : String) (alphabet : Alphabet) (other : String)
    (f : Token → Token) (g : Symbol → Symbol) : Prop where
  tokens : (q.against alphabet).tokens other = (q.tokens word).map f
  scanned : q.options.obeyFlags = true → alphabet = q.automaton.alphabet
  fixed : ∀ s ∈ q.automaton.mentions, g s = s
  matching : ∀ t ∈ q.tokens word, ∀ id, ∀ arc ∈ (q.automaton.state id).arcs,
    ((f t).matching = q.direction.consumed arc.label ↔ t.matching = q.direction.consumed arc.label)
  copies : ∀ t ∈ q.tokens word, ∀ id, ∀ arc ∈ (q.automaton.state id).arcs,
    q.direction.copies arc.label (some (f t)) = g (q.direction.copies arc.label (some t))
  plain : ∀ t ∈ q.tokens word, t.known = false → isFlag (g t.text) = false
  spells : ∀ symbols : List Symbol, g ("".intercalate symbols) = "".intercalate (symbols.map g)

namespace Search

variable {q : Query} {word other : String} {alphabet : Alphabet} {s t : Search} {p : Path}
  {legs : List Leg} {last : StateId}

theorem before_translated (f : Token → Token) (g : Symbol → Symbol) (p p' : Path) :
    (p.translated f g).before (p'.translated f g) = p.before p' := rfl

theorem push_translated (f : Token → Token) (g : Symbol → Symbol) (s : Search) (cost : Weight)
    (rest : List Token) (written : List Symbol) (state : Option StateId) :
    (s.mapped (Path.translated f g)).push cost (rest.map f) (written.map g) state =
      (s.push cost rest written state).mapped (Path.translated f g) :=
  push_mapped (before_translated f g) s rfl

theorem take?_translated (h : q.Translation word alphabet other f g) {rest : List Token}
    (ahead : rest ⊆ q.tokens word) (written : List Symbol) {id : StateId} {arc : Arc}
    (mem : arc ∈ (q.automaton.state id).arcs) :
    take? q.direction (rest.map f) (written.map g) arc.label =
      (take? q.direction rest written arc.label).map fun taken =>
        (taken.1.map f, taken.2.map g) := by
  have mentioned : q.direction.produced arc.label ∈ q.automaton.mentions :=
    Automaton.mem_mentions_iff.mpr (.inr ⟨id, arc, mem, q.direction.produced_mem arc.label⟩)
  cases silent : q.direction.silent arc.label with
  | true =>
    rw [Query.take?_silent silent, Query.take?_silent silent, Option.map_some, List.map_cons,
      h.fixed _ mentioned]
  | false =>
    cases rest with
    | nil => rw [List.map_nil, Query.take?_nil silent, Query.take?_nil silent, Option.map_none]
    | cons t rest =>
      have token : t ∈ q.tokens word := ahead List.mem_cons_self
      rw [List.map_cons, Query.take?_cons silent, Query.take?_cons silent]
      simp only [h.matching t token id arc mem, h.copies t token id arc mem]
      split <;> rfl

theorem expand_translated (h : q.Translation word alphabet other f g) (s : Search)
    (ahead : p.rest ⊆ q.tokens word) (id : StateId) :
    expand (q.against alphabet) (s.mapped (Path.translated f g)) (p.translated f g) id =
      (expand q s p id).mapped (Path.translated f g) := by
  refine expand_map (f := mapped (Path.translated f g)) (g := fun arc => arc)
    (List.map_id' _).symm ?_ ?_
  · have final : (q.against alphabet).automaton.isFinal id = q.automaton.isFinal id := rfl
    rw [halt, halt, final]
    split
    · exact push_translated f g s _ p.rest p.written none
    · rfl
  · intro arc mem s
    have same : take? q.direction (p.translated f g).rest (p.translated f g).written arc.label =
        (take? q.direction p.rest p.written arc.label).map fun taken =>
          (taken.1.map f, taken.2.map g) := take?_translated h ahead p.written mem
    rw [offer, offer, Query.against, same]
    cases take? q.direction p.rest p.written arc.label with
    | none => rfl
    | some taken => exact push_translated f g s _ taken.1 taken.2 (some arc.target)

/-- What a path writes is made of symbols that are kept and of unknown tokens. -/
theorem keeps_output (h : q.Translation word alphabet other f g)
    (route : q.automaton.Route q.automaton.initial legs last) :
    ∀ s ∈ q.output word legs, Flag.Keeps g s := by
  intro s mem
  rcases Direction.mem_writes mem with ⟨l, hl, symbol⟩ | ⟨t, token, unknown, rfl⟩
  · exact .inl (h.fixed s (route.mem_mentions hl symbol))
  · exact .inr ⟨Query.isFlag_unknown token unknown, h.plain t token unknown⟩

theorem accepts_translated (keeps : ∀ s ∈ p.written, Flag.Keeps g s) (s : Search) :
    (s.mapped (Path.translated f g)).accepts (p.translated f g) =
      ((s.accepts p).1, (s.accepts p).2.mapped (Path.translated f g)) := by
  have behind : ∀ s ∈ p.written.reverse, Flag.Keeps g s := fun s mem =>
    keeps s (List.mem_reverse.mp mem)
  obtain ⟨queue, discovered, filter⟩ := s
  rw [accepts, accepts, Path.translated, mapped, List.isEmpty_map, ← List.map_reverse]
  cases p.rest.isEmpty with
  | false => rfl
  | true =>
    cases filter with
    | none => rfl
    | some filter =>
      simp only [FlagFilter.accepts_map behind]
      rfl

theorem finish_translated (keeps : ∀ s ∈ p.written, Flag.Keeps g s)
    (spells : ∀ symbols : List Symbol, g ("".intercalate symbols) = "".intercalate (symbols.map g))
    (o : ApplyOptions) : finish o (p.translated f g) = (finish o p).map g := by
  have behind : ∀ s ∈ p.written.reverse, Flag.Keeps g s := fun s mem =>
    keeps s (List.mem_reverse.mp mem)
  have shown : (if o.printFlags then (p.written.map g).reverse
        else withoutFlags (p.written.map g).reverse) =
      (if o.printFlags then p.written.reverse else withoutFlags p.written.reverse).map g := by
    rw [← List.map_reverse, withoutFlags_map behind]
    split <;> rfl
  rw [finish, finish, Path.translated, Applied.map]
  simp only [shown, ← spells]
  split <;> rfl

theorem start_translated (h : q.Translation word alphabet other f g) :
    start (q.against alphabet) other = (start q word).mapped (Path.translated f g) := by
  have filter : (if q.options.obeyFlags then some (FlagFilter.ofSymbols alphabet.symbols)
        else none) =
      if q.options.obeyFlags then some (FlagFilter.ofSymbols q.automaton.alphabet.symbols)
        else none := by
    cases obey : q.options.obeyFlags with
    | false => rfl
    | true => rw [h.scanned obey]
  have tokens : Search.tokens (q.against alphabet).automaton other =
      (Search.tokens q.automaton word).map f := h.tokens
  rw [start, start, ← push_translated, ← tokens]
  exact congrArg (fun filter => Search.push { queue := .empty, discovered := 0, filter } .zero
    (Search.tokens (q.against alphabet).automaton other) [] (some q.automaton.initial)) filter

/-- Searches for words that stand for each other find results that stand for each other. -/
theorem image_translated (h : q.Translation word alphabet other f g) :
    Image q word (q.against alphabet) other (Path.translated f g) (Applied.map g) where
  before := before_translated f g
  start := start_translated h
  going legs seq _ := by
    have ahead : q.left word legs ⊆ q.tokens word := List.drop_subset ..
    exact ⟨_, rfl, fun s => expand_translated h s ahead _⟩
  stopped legs seq sound := by
    obtain ⟨-, last, route, -⟩ := sound
    have keeps : ∀ s ∈ ((Trace.stopped legs).entry q word seq).written, Flag.Keeps g s :=
      fun s mem => keeps_output h route s (List.mem_reverse.mp mem)
    exact ⟨rfl, finish_translated keeps h.spells q.options, accepts_translated keeps⟩

end Search

end Transducer
