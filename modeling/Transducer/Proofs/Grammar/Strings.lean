import Mathlib.Data.List.Nodup
import Mathlib.Tactic.Choose
import Transducer.Proofs.Grammar.Symbols
import Transducer.Proofs.Spelling
/-!
The automaton of a word list has one path for each string that is kept, spells it on that path at no
cost, and has no other paths and no cycles.
-/

namespace Transducer

/-- The rule of a string in a word list. -/
def Rule.ofString (s : String) : Rule := { input := s, target := finalLexicon }

theorem Label.align_self (symbols : List Symbol) :
    align symbols symbols = symbols.map .identity := by
  induction symbols with
  | nil => rfl
  | cons s rest ih => rw [align, ih, between, if_pos rfl, List.map_cons]

theorem Rule.labels_ofString (spelling : Spelling) (s : String) :
    (ofString s).labels spelling = (spelling.tokenize s).map .identity := by
  rw [← align_sides]
  exact Label.align_self _

namespace Grammar

variable {strings : List String} {rules : List Rule}

/-- The one set of a word list. -/
def ofStrings (strings : List String) : Grammar :=
  ⟨[(Automaton.stringsLexicon, strings.map .ofString)]⟩

theorem usedRules_ofStrings (strings : List String) : (ofStrings strings).usedRules =
    strings.map fun s => (Automaton.stringsLexicon, .ofString s) := by
  have used : (ofStrings strings).usedLexicons =
      [(Automaton.stringsLexicon, strings.map .ofString)] := rfl
  rw [usedRules, used, List.flatMap_singleton]
  exact List.map_map ..

theorem check_ofStrings (strings : List String) :
    (ofStrings strings).check Automaton.stringsLexicon = .ok () := by
  refine check_eq_ok_iff.mpr ⟨rfl, List.findSome?_eq_none_iff.mpr fun lexicon mem => ?_⟩
  obtain rfl := List.mem_singleton.mp mem
  refine List.findSome?_eq_none_iff.mpr fun (rule, index) numbered => ?_
  obtain ⟨s, -, rfl⟩ := List.mem_map.mp (List.fst_mem_of_mem_zipIdx numbered)
  rfl

theorem lists_ofStrings {name : String} {r : Rule} : (ofStrings strings).Lists name r ↔
    name = Automaton.stringsLexicon ∧ ∃ s ∈ strings, .ofString s = r := by
  simp [Lists, ofStrings]

theorem derives_ofStrings : (ofStrings strings).Derives Automaton.stringsLexicon rules ↔
    ∃ s ∈ strings, rules = [.ofString s] := by
  constructor
  · intro derives
    generalize first : Automaton.stringsLexicon = name at derives
    cases derives with
    | done => exact absurd first (by decide)
    | @rule _ r rest _ lists onward =>
      obtain ⟨-, s, mem, rfl⟩ := lists_ofStrings.mp lists
      cases onward with
      | done => exact ⟨s, mem, rfl⟩
      | rule ne => exact absurd rfl ne
  · intro ⟨s, mem, same⟩
    rw [same]
    exact .rule (by decide) (lists_ofStrings.mpr ⟨rfl, s, mem, rfl⟩) .done

end Grammar

/-- Tasks that need an item each, of a kind that serves one task only, leave no item to spare if
there are no more items than tasks. -/
theorem eq_of_serves {α β : Type} {items : List α} {tasks : List β} (serves : α → β → Prop)
    (nodup : tasks.Nodup) (few : items.length ≤ tasks.length)
    (all : ∀ b ∈ tasks, ∃ a ∈ items, serves a b)
    (one : ∀ {a b c}, serves a b → serves a c → b = c) {a a' : α} {b : β} (ha : a ∈ items)
    (ha' : a' ∈ items) (h : serves a b) (h' : serves a' b) : a = a' := by
  choose pick there served using all
  have distinct : (tasks.pmap pick fun _ mem => mem).Nodup :=
    List.Nodup.pmap (fun b mem c mem' same => one (same ▸ served b mem) (served c mem')) nodup
  have picked : (tasks.pmap pick fun _ mem => mem) ⊆ items := by
    intro a mem
    obtain ⟨b, hb, rfl⟩ := List.mem_pmap.mp mem
    exact there b hb
  have whole := (distinct.subperm picked).perm_of_length_le (by rwa [List.length_pmap])
  have chosen {a : α} (mem : a ∈ items) (ab : serves a b) : ∃ hb, pick b hb = a := by
    obtain ⟨c, hc, rfl⟩ := List.mem_pmap.mp (whole.mem_iff.mpr mem)
    obtain rfl := one (served c hc) ab
    exact ⟨hc, rfl⟩
  obtain ⟨-, rfl⟩ := chosen ha h
  obtain ⟨-, rfl⟩ := chosen ha' h'
  rfl

namespace Automaton

variable {strings : List String} {spelling : Spelling} {legs more : List Leg} {leg : Leg}
  {last : StateId} {s : Symbol} {word : String}

/-- The automaton has one path for each of some sequences of symbols, at no cost, and no others. -/
structure Lists (a : Automaton) (sequences : List (List Symbol)) : Prop where
  sound : ∀ legs, a.Accepts legs → ∃ symbols ∈ sequences,
    Leg.labels legs = symbols.map .identity ∧ a.cost legs = .zero
  complete : ∀ symbols ∈ sequences, ∃ legs, a.Accepts legs ∧
    Leg.labels legs = symbols.map .identity
  unique : ∀ legs more, a.Accepts legs → a.Accepts more → Leg.labels legs = Leg.labels more →
    legs = more

section Strings

variable (strings : List String) (spelling : Spelling)

/-- The automaton of a word list, as it is before its states are renumbered. -/
def listed : Automaton := build (.ofStrings strings) stringsLexicon spelling

theorem compiled_listed : Compiled [stringsLexicon, finalLexicon] spelling
    (Grammar.ofStrings strings).usedRules.reverse (listed strings spelling) :=
  compiled_build (.ofStrings strings) stringsLexicon spelling

theorem initial_listed : (listed strings spelling).initial = 0 :=
  (compiled_listed strings spelling).initial

theorem arcs_listed_final : ((listed strings spelling).state 1).arcs = [] :=
  (compiled_listed strings spelling).arcs_final (by decide)

theorem isFinal_listed_iff {id : StateId} :
    (listed strings spelling).isFinal id = true ↔ id = 1 :=
  (compiled_listed strings spelling).isFinal_iff id

end Strings

theorem thread_listed (h : leg ∈ (listed strings spelling).legsFrom 0) : ∃ s ∈ strings,
    Thread (listed strings spelling) 2 1 .zero leg.arc ((spelling.tokenize s).map .identity) := by
  have mem : leg.arc ∈ ((listed strings spelling).state 0).arcs :=
    arc_mem_of_mem_legsFrom h
  obtain ⟨r, used, thread⟩ :=
    (compiled_listed strings spelling).sound stringsLexicon (by decide) leg.arc mem
  rw [List.mem_reverse, Grammar.mem_usedRules, Grammar.lists_ofStrings] at used
  obtain ⟨-, -, s, there, rfl⟩ := used
  rw [Rule.labels_ofString] at thread
  exact ⟨s, there, thread⟩

theorem exists_listed_cons (h : (listed strings spelling).Accepts legs) : ∃ leg rest,
    legs = leg :: rest ∧ leg ∈ (listed strings spelling).legsFrom 0 ∧
      (listed strings spelling).Route leg.arc.target rest 1 := by
  obtain ⟨last, route, final⟩ := h
  obtain rfl := (isFinal_listed_iff strings spelling).mp final
  rw [initial_listed] at route
  cases route with
  | go hl route => exact ⟨_, _, rfl, hl, route⟩

/-- Beyond its first leg a path has no choice. -/
theorem eq_of_accepts_listed (h : (listed strings spelling).Accepts (leg :: legs))
    (h' : (listed strings spelling).Accepts (leg :: more)) : legs = more := by
  obtain ⟨leg, legs, same, hl, route⟩ := exists_listed_cons h
  obtain ⟨leg', more, same', -, route'⟩ := exists_listed_cons h'
  obtain ⟨rfl, rfl⟩ := List.cons.inj same
  obtain ⟨rfl, rfl⟩ := List.cons.inj same'
  obtain ⟨s, -, thread⟩ := thread_listed hl
  exact thread.legs_eq (arcs_listed_final strings spelling) Nat.one_lt_two route route'

theorem length_legsFrom_listed_le (strings : List String) (spelling : Spelling) :
    ((listed strings spelling).legsFrom 0).length ≤ strings.length := by
  have few : ((listed strings spelling).state 0).arcs.length ≤
      (Grammar.ofStrings strings).usedRules.length := length_arcs_build_le Nat.zero_lt_two
  rw [Grammar.usedRules_ofStrings, List.length_map, ← map_arc_legsFrom, List.length_map] at few
  exact few

theorem exists_of_accepts_listed (h : (listed strings spelling).Accepts legs) : ∃ s ∈ strings,
    Leg.labels legs = (spelling.tokenize s).map .identity ∧
      (listed strings spelling).cost legs = .zero := by
  have compiled := compiled_listed strings spelling
  obtain ⟨last, route, final⟩ := h
  obtain rfl := (isFinal_listed_iff strings spelling).mp final
  rw [initial_listed] at route
  have targets : ∀ p ∈ (Grammar.ofStrings strings).usedRules,
      p.2.target ∈ [stringsLexicon, finalLexicon] := by
    rw [Grammar.usedRules_ofStrings, List.forall_mem_map]
    exact fun s _ => List.mem_cons_of_mem _ List.mem_cons_self
  obtain ⟨rules, derives, spelled, cost⟩ :=
    compiled.derives_of_route (by decide) targets List.mem_cons_self route
  obtain ⟨s, mem, rfl⟩ := Grammar.derives_ofStrings.mp derives
  have free : Leg.cost legs = .zero :=
    cost .zero Weight.isCost_zero.isSum |>.trans Weight.zero_add_zero
  refine ⟨s, mem, ?_, ?_⟩
  · rw [← spelled, List.flatMap_singleton, Rule.labels_ofString]
  · rw [compiled.cost_eq (free ▸ Weight.isCost_zero.isSum), free]
    rw [initial_listed, route.ending_eq]
    rfl

theorem exists_accepts_listed (spelling : Spelling) (h : word ∈ strings) : ∃ legs,
    (listed strings spelling).Accepts legs ∧
      Leg.labels legs = (spelling.tokenize word).map .identity := by
  obtain ⟨legs, route, spelled, -⟩ := (compiled_listed strings spelling).route_of_derives
    (Grammar.derives_ofStrings.mpr ⟨word, h, rfl⟩)
  refine ⟨legs, ⟨1, initial_listed strings spelling ▸ route, ?_⟩, ?_⟩
  · exact (isFinal_listed_iff strings spelling).mpr rfl
  · rw [← spelled, List.flatMap_singleton, Rule.labels_ofString]

/-- If the strings spell different sequences, the first legs tell the paths apart. -/
theorem lists_listed (nodup : (strings.map spelling.tokenize).Nodup) :
    (listed strings spelling).Lists (strings.map spelling.tokenize) where
  sound legs accepts := by
    obtain ⟨s, mem, spelled⟩ := exists_of_accepts_listed accepts
    exact ⟨_, List.mem_map_of_mem mem, spelled⟩
  complete symbols mem := by
    obtain ⟨s, there, rfl⟩ := List.mem_map.mp mem
    exact exists_accepts_listed spelling there
  unique legs more accepts accepts' same := by
    obtain ⟨leg, legs, rfl, hl, -⟩ := exists_listed_cons accepts
    obtain ⟨leg', more, rfl, hl', -⟩ := exists_listed_cons accepts'
    let serves (leg : Leg) (symbols : List Symbol) : Prop := ∃ rest,
      (listed strings spelling).Accepts (leg :: rest) ∧
        Leg.labels (leg :: rest) = symbols.map .identity
    have identities : Function.Injective (List.map Label.identity) :=
      List.map_injective_iff.mpr fun s t same => Label.identity.inj same
    obtain ⟨s, -, spelled, -⟩ := exists_of_accepts_listed accepts
    -- a string needs a first leg of its own, and there are no more of them than strings
    obtain rfl : leg = leg' := by
      refine eq_of_serves serves nodup ?_ ?_ ?_ hl hl' ⟨legs, accepts, spelled⟩
        ⟨more, accepts', same ▸ spelled⟩
      · rw [List.length_map]
        exact length_legsFrom_listed_le strings spelling
      · intro symbols mem
        obtain ⟨s, there, rfl⟩ := List.mem_map.mp mem
        obtain ⟨legs, accepts, spelled⟩ := exists_accepts_listed spelling there
        obtain ⟨leg, rest, rfl, hl, -⟩ := exists_listed_cons accepts
        exact ⟨leg, hl, rest, accepts, spelled⟩
      · intro leg symbols others ⟨rest, accepts, spelled⟩ ⟨rest', accepts', spelled'⟩
        rw [eq_of_accepts_listed accepts accepts', spelled'] at spelled
        exact (identities spelled).symm
    rw [eq_of_accepts_listed accepts accepts']

theorem not_hasCycle_listed (strings : List String) (spelling : Spelling) :
    ¬ (listed strings spelling).HasCycle := by
  intro cycle
  -- a cycle gives a path that is longer than all strings together
  obtain ⟨legs, last, route, long⟩ :=
    cycle.route_of_length ((strings.map spelling.tokenize).flatten.length + 1)
  rw [initial_listed] at route
  cases route with
  | stop => exact absurd long (Nat.succ_ne_zero _).symm
  | go hl route =>
    obtain ⟨s, mem, thread⟩ := thread_listed hl
    have short := thread.length_lt (arcs_listed_final strings spelling) route
    have part : spelling.tokenize s ∈ strings.map spelling.tokenize := List.mem_map_of_mem mem
    have le := (List.sublist_flatten_of_mem part).length_le
    rw [List.length_map] at short
    rw [List.length_cons] at long
    omega

theorem mem_alphabet_listed :
    s ∈ (listed strings spelling).alphabet ↔ ∃ t ∈ strings, s ∈ spelling.spelled t := by
  rw [listed, mem_alphabet_build, Grammar.usedRules_ofStrings]
  constructor
  · intro ⟨filled, p, used, mem⟩
    obtain ⟨t, there, rfl⟩ := List.mem_map.mp used
    have token : s ∈ spelling.tokenize t := (List.mem_append.mp mem).elim id id
    exact ⟨t, there, List.mem_filter.mpr ⟨token, decide_eq_true filled⟩⟩
  · intro ⟨t, there, mem⟩
    obtain ⟨token, filled⟩ := List.mem_filter.mp mem
    exact ⟨of_decide_eq_true filled, _, List.mem_map_of_mem there, List.mem_append_left _ token⟩

theorem exists_label_listed {arc : Arc} {id : StateId}
    (h : arc ∈ ((listed strings spelling).state id).arcs) :
    ∃ t ∈ strings, ∃ s ∈ spelling.tokenize t, arc.label = .identity s := by
  obtain ⟨p, used, mem⟩ := mem_arcs_build h
  rw [Grammar.usedRules_ofStrings] at used
  obtain ⟨t, there, rfl⟩ := List.mem_map.mp used
  rw [Rule.labels_ofString] at mem
  obtain ⟨s, token, same⟩ := List.mem_map.mp mem
  exact ⟨t, there, s, token, same.symm⟩

section Kept

/-- Keeps a string unless its sequence has been seen. -/
def keep (spelling : Spelling) (found : List (List Symbol) × List String) (s : String) :
    List (List Symbol) × List String :=
  if found.1.contains (spelling.spelled s) then found
  else (spelling.spelled s :: found.1, s :: found.2)

/-- What is kept of some strings, latest first, and the sequences that have been seen. -/
structure Kept (spelling : Spelling) (strings : List String)
    (found : List (List Symbol) × List String) : Prop where
  seen : found.1 = found.2.map spelling.spelled
  nodup : found.1.Nodup
  sub : ∀ s ∈ found.2, s ∈ strings
  all : ∀ s ∈ strings, spelling.spelled s ∈ found.1

theorem Kept.step {found : List (List Symbol) × List String} (h : Kept spelling strings found)
    (s : String) : Kept spelling (strings ++ [s]) (keep spelling found s) := by
  have sub : ∀ t ∈ found.2, t ∈ strings ++ [s] := fun t mem => List.mem_append_left _ (h.sub t mem)
  rw [keep]
  split
  · next old =>
    refine ⟨h.seen, h.nodup, sub, fun t mem => ?_⟩
    rcases List.mem_append.mp mem with before | last
    · exact h.all t before
    · rw [List.mem_singleton.mp last]
      exact List.contains_iff_mem.mp old
  · next new =>
    have fresh : spelling.spelled s ∉ found.1 := mt List.contains_iff_mem.mpr new
    refine ⟨congrArg _ h.seen, List.nodup_cons.mpr ⟨fresh, h.nodup⟩,
      List.forall_mem_cons.mpr ⟨?_, sub⟩, fun t mem => ?_⟩
    · exact List.mem_append_right _ (List.mem_singleton_self s)
    · rcases List.mem_append.mp mem with before | last
      · exact List.mem_cons_of_mem _ (h.all t before)
      · rw [List.mem_singleton.mp last]
        exact List.mem_cons_self

theorem Kept.fold {found : List (List Symbol) × List String} (h : Kept spelling strings found)
    (more : List String) : Kept spelling (strings ++ more) (more.foldl (keep spelling) found) := by
  induction more generalizing strings found with
  | nil =>
    rw [List.append_nil]
    exact h
  | cons s rest ih =>
    have all := ih (h.step s)
    rw [List.append_assoc] at all
    exact all

theorem kept_distinctSpellings (spelling : Spelling) (strings : List String) :
    Kept spelling strings (strings.foldl (keep spelling) ([], [])) :=
  Kept.fold ⟨rfl, List.nodup_nil, fun _ empty => absurd empty List.not_mem_nil,
    fun _ empty => absurd empty List.not_mem_nil⟩ strings

theorem mem_distinctSpellings (h : word ∈ distinctSpellings spelling strings) : word ∈ strings :=
  (kept_distinctSpellings spelling strings).sub word (List.mem_reverse.mp h)

theorem nodup_distinctSpellings (spelling : Spelling) (strings : List String) :
    ((distinctSpellings spelling strings).map spelling.spelled).Nodup := by
  have kept := kept_distinctSpellings spelling strings
  have nodup := kept.nodup
  rw [kept.seen] at nodup
  rw [distinctSpellings, List.map_reverse, List.nodup_reverse]
  exact nodup

theorem nodup_tokenize (h : (strings.map spelling.spelled).Nodup) :
    (strings.map spelling.tokenize).Nodup := by
  have split : strings.map spelling.spelled =
      (strings.map spelling.tokenize).map fun symbols => symbols.filter (· ≠ epsilon) :=
    List.map_map.symm
  rw [split] at h
  exact h.of_map _

theorem nodup_tokenize_distinctSpellings (spelling : Spelling) (strings : List String) :
    ((distinctSpellings spelling strings).map spelling.tokenize).Nodup :=
  nodup_tokenize (nodup_distinctSpellings spelling strings)

theorem exists_distinctSpellings (spelling : Spelling) (h : word ∈ strings) :
    ∃ s ∈ distinctSpellings spelling strings, spelling.spelled s = spelling.spelled word := by
  have kept := kept_distinctSpellings spelling strings
  have seen := kept.all word h
  rw [kept.seen] at seen
  obtain ⟨s, mem, same⟩ := List.mem_map.mp seen
  exact ⟨s, List.mem_reverse.mpr mem, same⟩

end Kept

/-- The names of a word list are declared, so compiling it cannot fail. -/
theorem ofGrammar_ofStrings (strings : List String) (multichar : List Symbol) :
    ofGrammar (.ofStrings strings) stringsLexicon multichar =
      .ok (listed strings (.ofDeclared multichar)) :=
  ofGrammar_eq_ok_iff.mpr ⟨Grammar.check_ofStrings strings, rfl⟩

theorem ofStrings_eq (strings : List String) (multichar : List Symbol) :
    ofStrings strings multichar = .ok (listed (distinctSpellings (.ofDeclared multichar) strings)
      (.ofDeclared multichar)).renumbered := by
  have compiles := ofGrammar_ofStrings (distinctSpellings (.ofDeclared multichar) strings) multichar
  exact congrArg (· >>= fun a => pure a.renumbered) compiles

end Automaton

end Transducer
