import Transducer.Proofs.Grammar.Derivation
import Transducer.Proofs.Grammar.Thread
/-!
The automaton of a grammar accepts what the grammar derives. While rules are added, every arc of a
named state begins the thread of a rule added before, and every such rule has its thread.
-/

namespace Transducer

namespace Automaton

variable {a : Automaton} {names : List String} {spelling : Spelling}
  {used : List (String × Rule)} {name : String} {r : Rule}

/-- The automaton when the rules in `used` have been added. -/
structure Compiled (names : List String) (spelling : Spelling) (used : List (String × Rule))
    (a : Automaton) : Prop where
  size : names.length ≤ a.size
  initial : a.initial = 0
  finals : ∀ id, (a.state id).finalWeight =
    if id = names.idxOf finalLexicon then .zero else .infinity
  labelled : ∀ id, (a.state id).Labelled
  sound : ∀ name ∈ names, ∀ arc ∈ (a.state (names.idxOf name)).arcs, ∃ r, (name, r) ∈ used ∧
    Thread a names.length (names.idxOf r.target) r.weight arc (r.labels spelling)
  complete : ∀ p ∈ used, ∃ arc ∈ (a.state (names.idxOf p.1)).arcs, ∃ w, w.Alike p.2.weight ∧
    Thread a names.length (names.idxOf p.2.target) w arc (p.2.labels spelling)

theorem size_ofNames (names : List String) : (ofNames names).size = names.length := by
  rw [ofNames, size_setFinal]
  simp [size]

/-- Without rules no state has arcs, and the final set is final. -/
theorem state_ofNames (final : finalLexicon ∈ names) (id : StateId) :
    ((ofNames names).state id).groups = [] ∧ ((ofNames names).state id).finalWeight =
      if id = names.idxOf finalLexicon then .zero else .infinity := by
  let bare : Automaton := { states := (names.map State.named).toArray }
  have size : bare.size = names.length := by simp [bare, Automaton.size]
  have blank (id : StateId) :
      (bare.state id).groups = [] ∧ (bare.state id).finalWeight = .infinity := by
    rcases bare.state_cases id with there | missing
    · obtain ⟨name, -, same⟩ := List.mem_map.mp (List.mem_toArray.mp there)
      rw [← same]
      exact ⟨rfl, rfl⟩
    · rw [missing]
      exact ⟨rfl, rfl⟩
  have last : names.idxOf finalLexicon < bare.size := size ▸ List.idxOf_lt_length_of_mem final
  have zero : Weight.zero.isFinite = true := by decide
  have states : (ofNames names).state id = if id = names.idxOf finalLexicon then
      { bare.state (names.idxOf finalLexicon) with finalWeight := .zero } else bare.state id :=
    state_setFinal last zero id
  rw [states]
  split
  · exact ⟨(blank _).1, rfl⟩
  · exact blank id

theorem arcs_ofNames (final : finalLexicon ∈ names) (id : StateId) :
    ((ofNames names).state id).arcs = [] := by
  rw [State.arcs, (state_ofNames final id).1]
  rfl

theorem compiled_ofNames (final : finalLexicon ∈ names) (spelling : Spelling) :
    Compiled names spelling [] (ofNames names) := by
  refine ⟨Nat.le_of_eq (size_ofNames names).symm, initial_setFinal ..,
    fun id => (state_ofNames final id).2, fun id => ?_, fun name _ arc mem => ?_, fun p mem => ?_⟩
  · intro g hg
    rw [(state_ofNames final id).1] at hg
    exact absurd hg List.not_mem_nil
  · rw [arcs_ofNames final] at mem
    exact absurd mem List.not_mem_nil
  · exact absurd mem List.not_mem_nil

theorem exists_threaded_addRule (spelling : Spelling) {bound : Nat} {source : StateId}
    (hb : bound ≤ a.size) (hs : source < bound) (target : StateId) (r : Rule) : ∃ first,
      Threaded a (addRule spelling source target a r) bound source target r.weight
        (r.labels spelling) first := by
  let ready := a.addSymbols
    (((r.sides spelling).1 ++ (r.sides spelling).2).filter (· ≠ epsilon))
  have whole : addRule spelling source target a r =
      ready.addPath source target r.weight (r.labels spelling) :=
    congrArg (ready.addPath source target r.weight) (r.align_sides spelling)
  obtain ⟨first, h⟩ := exists_threaded_addPath (a := ready) hb (Nat.lt_of_lt_of_le hs hb) target
    r.weight (r.labels_ne_nil spelling)
  exact ⟨first, whole ▸ ⟨h.thread, h.begins, h.frame, h.finals, h.labelled, h.size, h.initial⟩⟩

section Step

variable {b : Automaton} {first : Arc} (h : Compiled names spelling used a) (hn : name ∈ names)
  (more : Threaded a b names.length (names.idxOf name) (names.idxOf r.target) r.weight
    (r.labels spelling) first)
include h hn more

theorem Compiled.sound_step : ∀ other ∈ names, ∀ arc ∈ (b.state (names.idxOf other)).arcs,
    ∃ r', (other, r') ∈ (name, r) :: used ∧
      Thread b names.length (names.idxOf r'.target) r'.weight arc (r'.labels spelling) := by
  intro other ho arc mem
  have source : names.idxOf name < names.length := List.idxOf_lt_length_of_mem hn
  have before (old : arc ∈ (a.state (names.idxOf other)).arcs) : ∃ r',
      (other, r') ∈ (name, r) :: used ∧
        Thread b names.length (names.idxOf r'.target) r'.weight arc (r'.labels spelling) := by
    obtain ⟨r', hr, thread⟩ := h.sound other ho arc old
    exact ⟨r', List.mem_cons_of_mem _ hr, more.mono source thread⟩
  by_cases same : other = name
  · rw [same, more.begins] at mem
    rcases State.mem_addArc mem with new | old
    · refine ⟨r, ?_, new ▸ more.thread⟩
      rw [same]
      exact List.mem_cons_self
    · exact before (same ▸ old)
  · have apart : names.idxOf other ≠ names.idxOf name := mt (List.idxOf_inj ho).mp same
    have old := Nat.lt_of_lt_of_le (List.idxOf_lt_length_of_mem ho) h.size
    rw [more.frame _ old apart] at mem
    exact before mem

theorem Compiled.complete_step : ∀ p ∈ (name, r) :: used,
    ∃ arc ∈ (b.state (names.idxOf p.1)).arcs, ∃ w, w.Alike p.2.weight ∧
      Thread b names.length (names.idxOf p.2.target) w arc (p.2.labels spelling) := by
  intro p hp
  have source : names.idxOf name < names.length := List.idxOf_lt_length_of_mem hn
  rcases List.mem_cons.mp hp with new | old
  · rw [new, more.begins]
    obtain ⟨arc, mem, same⟩ := State.exists_mem_addArc (h.labelled (names.idxOf name)) first
    rcases same with same | ⟨label, same⟩
    · exact ⟨arc, mem, r.weight, .inl rfl, same ▸ more.thread⟩
    · obtain ⟨w, alike, thread⟩ := more.thread.of_sameAs label same
      exact ⟨arc, mem, w, alike, thread⟩
  · obtain ⟨arc, mem, w, alike, thread⟩ := h.complete p old
    refine ⟨arc, ?_, w, alike, more.mono source thread⟩
    by_cases same : names.idxOf p.1 = names.idxOf name
    · rw [same, more.begins]
      exact State.mem_addArc_of_mem (same ▸ mem) first
    · rw [more.frame _ (lt_size_of_mem mem) same]
      exact mem

theorem Compiled.step : Compiled names spelling ((name, r) :: used) b where
  size := Nat.le_trans h.size more.size
  initial := more.initial.trans h.initial
  finals id := (more.finals id).trans (h.finals id)
  labelled := more.labelled h.labelled
  sound := h.sound_step hn more
  complete := h.complete_step hn more

end Step

/-- Adds rules between the sets of their names. -/
def addRules (names : List String) (spelling : Spelling) (a : Automaton)
    (rules : List (String × Rule)) : Automaton :=
  rules.foldl (fun a p => addRule spelling (names.idxOf p.1) (names.idxOf p.2.target) a p.2) a

theorem addRules_cons (a : Automaton) (p : String × Rule) (rest : List (String × Rule)) :
    a.addRules names spelling (p :: rest) = (addRule spelling (names.idxOf p.1)
      (names.idxOf p.2.target) a p.2).addRules names spelling rest := rfl

theorem Compiled.addRules (h : Compiled names spelling used a) (more : List (String × Rule))
    (hn : ∀ p ∈ more, p.1 ∈ names) :
    Compiled names spelling (more.reverse ++ used) (a.addRules names spelling more) := by
  induction more generalizing a used with
  | nil => exact h
  | cons p rest ih =>
    have here := hn p List.mem_cons_self
    obtain ⟨first, step⟩ := exists_threaded_addRule spelling h.size
      (List.idxOf_lt_length_of_mem here) (names.idxOf p.2.target) p.2
    have all := ih (h.step here step) fun p hp => hn p (List.mem_cons_of_mem _ hp)
    rw [List.reverse_cons, List.append_assoc]
    exact all

theorem build_eq (g : Grammar) (start : String) (spelling : Spelling) :
    build g start spelling =
      (ofNames (g.stateNames start)).addRules (g.stateNames start) spelling g.usedRules := by
  rw [build, addRules, Grammar.usedRules, List.foldl_flatMap]
  simp only [List.foldl_map]

theorem compiled_build (g : Grammar) (start : String) (spelling : Spelling) :
    Compiled (g.stateNames start) spelling g.usedRules.reverse (build g start spelling) := by
  have final := g.final_mem_stateNames start
  have all := (compiled_ofNames final spelling).addRules g.usedRules fun p hp =>
    (Grammar.mem_usedRules.mp hp).2.mem_stateNames start
  rw [List.append_nil] at all
  rw [build_eq]
  exact all

variable {g : Grammar} {legs : List Leg} {rules : List Rule}

/-- A path from a named state to the final one follows the threads of a derivation. -/
theorem Compiled.derives_of_route (h : Compiled names spelling g.usedRules.reverse a)
    (final : finalLexicon ∈ names) (targets : ∀ p ∈ g.usedRules, p.2.target ∈ names)
    (hn : name ∈ names)
    (route : a.Route (names.idxOf name) legs (names.idxOf finalLexicon)) :
    ∃ rules, g.Derives name rules ∧ rules.flatMap (Rule.labels spelling) = Leg.labels legs ∧
      ∀ c : Weight, c.IsSum →
        Leg.costFrom c legs = rules.foldl (fun cost r => cost + r.weight) c := by
  -- on the length: behind the thread of the first rule a shorter path is left
  induction hl : legs.length using Nat.strongRecOn generalizing name legs with
  | _ n ih =>
    cases legs with
    | nil =>
      have same : name = finalLexicon := (List.idxOf_inj hn).mp route.ending_eq
      exact ⟨[], same ▸ .done, rfl, fun _ _ => rfl⟩
    | cons leg legs =>
      cases route with
      | go leaves route =>
        have arc := arc_mem_of_mem_legsFrom leaves
        obtain ⟨r, listed, thread⟩ := h.sound name hn leg.arc arc
        have used := List.mem_reverse.mp listed
        obtain ⟨ne, lists⟩ := Grammar.mem_usedRules.mp used
        obtain ⟨front, more, rfl, route, spelled, cost⟩ :=
          thread.follow rfl route (List.idxOf_lt_length_of_mem final)
        have shorter : more.length < n := by
          simp only [List.length_cons, List.length_append] at hl
          omega
        obtain ⟨rest, derives, labels, total⟩ := ih more.length shorter (targets _ used) route rfl
        refine ⟨r :: rest, .rule ne lists derives, ?_, fun c sum => ?_⟩
        · rw [List.flatMap_cons, labels, ← spelled]
          simp [Leg.labels]
        · rw [← List.cons_append, Leg.costFrom_append, cost c sum, List.foldl_cons]
          exact total _ (sum.add r.weight)

theorem Compiled.route_of_derives (h : Compiled names spelling g.usedRules.reverse a)
    (derives : g.Derives name rules) : ∃ legs,
      a.Route (names.idxOf name) legs (names.idxOf finalLexicon) ∧
      rules.flatMap (Rule.labels spelling) = Leg.labels legs ∧
      ∀ c : Weight, c.IsSum →
        Leg.costFrom c legs = rules.foldl (fun cost r => cost + r.weight) c := by
  induction derives with
  | done => exact ⟨[], .stop _, rfl, fun _ _ => rfl⟩
  | @rule name r rest ne lists _ ih =>
    obtain ⟨more, after, labels, total⟩ := ih
    have used := List.mem_reverse.mpr (Grammar.mem_usedRules.mpr ⟨ne, lists⟩)
    obtain ⟨arc, mem, w, alike, thread⟩ := h.complete (name, r) used
    obtain ⟨leg, leaves, rfl⟩ := exists_mem_legsFrom mem
    obtain ⟨front, route, spelled, cost⟩ := thread.exists_route rfl
    refine ⟨leg :: (front ++ more), .go leaves (route.append after), ?_, fun c sum => ?_⟩
    · rw [List.flatMap_cons, labels, ← spelled]
      simp [Leg.labels]
    · rw [← List.cons_append, Leg.costFrom_append, cost c sum, sum.add_alike alike,
        List.foldl_cons]
      exact total _ (sum.add r.weight)

/-- No arc leaves the final state. -/
theorem Compiled.arcs_final (h : Compiled names spelling g.usedRules.reverse a)
    (final : finalLexicon ∈ names) : (a.state (names.idxOf finalLexicon)).arcs = [] := by
  refine List.eq_nil_iff_forall_not_mem.mpr fun arc mem => ?_
  obtain ⟨r, used, -⟩ := h.sound finalLexicon final arc mem
  exact (Grammar.mem_usedRules.mp (List.mem_reverse.mp used)).1 rfl

theorem Compiled.isFinal_iff (h : Compiled names spelling used a) (id : StateId) :
    a.isFinal id = true ↔ id = names.idxOf finalLexicon :=
  isFinal_iff_of_finals h.finals

theorem isSum_cost (rules : List Rule) : (Rule.cost rules).IsSum := by
  have fold (rules : List Rule) (c : Weight) (sum : c.IsSum) :
      (rules.foldl (fun cost r => cost + r.weight) c).IsSum := by
    induction rules generalizing c with
    | nil => exact sum
    | cons r rest ih => exact ih _ (sum.add r.weight)
  exact fold rules .zero Weight.isCost_zero.isSum

theorem ofGrammar_eq_ok_iff {start : String} {multichar : List Symbol} :
    ofGrammar g start multichar = .ok a ↔
      g.check start = .ok () ∧ build g start (.ofDeclared multichar) = a := by
  rw [ofGrammar]
  cases g.check start with
  | error e => simp [bind, Except.bind]
  | ok => simp [bind, Except.bind, pure, Except.pure]

/-- The cost of a path to the final state: its last weight is a zero. -/
theorem Compiled.cost_eq (h : Compiled names spelling used a) (sum : (Leg.cost legs).IsSum)
    (ending : Leg.ending a.initial legs = names.idxOf finalLexicon) :
    a.cost legs = Leg.cost legs := by
  have free : Weight.zero.isZero = true := by decide
  rw [Automaton.cost, h.finals, if_pos ending]
  exact sum.add_isZero free

/-- The labels and costs of the paths that a compiled grammar accepts are those of its
derivations. -/
theorem ofGrammar_language (start : String) (multichar : List Symbol)
    (h : ofGrammar g start multichar = .ok a) (labels : List Label) (cost : Weight) :
    (∃ legs, a.Accepts legs ∧ Leg.labels legs = labels ∧ a.cost legs = cost) ↔
      ∃ rules, g.Derives start rules ∧
        rules.flatMap (Rule.labels (.ofDeclared multichar)) = labels ∧
        Rule.cost rules = cost := by
  obtain ⟨checked, rfl⟩ := ofGrammar_eq_ok_iff.mp h
  have compiled := compiled_build g start (.ofDeclared multichar)
  have final := g.final_mem_stateNames start
  have named : start ∈ g.stateNames start := Grammar.mem_stateNames.mpr (.inl rfl)
  have targets : ∀ p ∈ g.usedRules, p.2.target ∈ g.stateNames start := fun p hp =>
    Grammar.mem_of_declares (Grammar.declares_target checked hp) start
  have first : (build g start (.ofDeclared multichar)).initial = (g.stateNames start).idxOf start :=
    compiled.initial.trans (g.idxOf_start start).symm
  have zero := Weight.isCost_zero.isSum
  constructor
  · intro ⟨legs, ⟨last, route, ends⟩, spelled, total⟩
    rw [compiled.isFinal_iff] at ends
    rw [first, ends] at route
    obtain ⟨rules, derives, labels, sum⟩ := compiled.derives_of_route final targets named route
    have same : Leg.cost legs = Rule.cost rules := sum .zero zero
    refine ⟨rules, derives, labels.trans spelled, ?_⟩
    rw [← total, compiled.cost_eq (same ▸ isSum_cost rules) (first ▸ route.ending_eq), same]
  · intro ⟨rules, derives, spelled, total⟩
    obtain ⟨legs, route, labels, sum⟩ := compiled.route_of_derives derives
    have same : Leg.cost legs = Rule.cost rules := sum .zero zero
    refine ⟨legs, ⟨_, first ▸ route, (compiled.isFinal_iff _).mpr rfl⟩, labels ▸ spelled, ?_⟩
    rw [← total, compiled.cost_eq (same ▸ isSum_cost rules) (first ▸ route.ending_eq), same]

/-- A rule that comes back to its set is listed twice and makes one arc; the rule that ends spells
two labels and has its weight on the second. The derivation takes the first rule twice. -/
theorem ofGrammar_language_loop :
    let half : Weight := ⟨0x3FE0000000000000⟩
    let one : Weight := ⟨0x3FF0000000000000⟩
    let two : Weight := ⟨0x4000000000000000⟩
    let again : Rule := { input := "a", target := "S", weight := half }
    let last : Rule := { input := "ab", output := some "c", target := "#", weight := one }
    let g : Grammar := ⟨[("S", [again, last, again])]⟩
    let a := build g "S" (.ofDeclared [])
    let labels : List Label := [.identity "a", .identity "a", .pair "a" "c", .pair "b" epsilon]
    ofGrammar g "S" [] = .ok a ∧ (a.state 0).arcs.length = 2 ∧
      g.Derives "S" [again, again, last] ∧
      [again, again, last].flatMap (Rule.labels (.ofDeclared [])) = labels ∧
      Rule.cost [again, again, last] = two ∧
      ∃ legs, a.Accepts legs ∧ Leg.labels legs = labels ∧ a.cost legs = two := by
  intro half one two again last g a labels
  have compiles : ofGrammar g "S" [] = .ok a := rfl
  have listed : g.Lists "S" again := ⟨_, List.mem_cons_self, by simp⟩
  have ending : g.Lists "S" last := ⟨_, List.mem_cons_self, by simp⟩
  have set : "S" ≠ finalLexicon := by decide
  have derives : g.Derives "S" [again, again, last] :=
    .rule set listed (.rule set listed (.rule set ending .done))
  have spelled : [again, again, last].flatMap (Rule.labels (.ofDeclared [])) = labels := by
    decide +kernel
  have total : Rule.cost [again, again, last] = two := by decide +kernel
  refine ⟨compiles, by decide +kernel, derives, spelled, total, ?_⟩
  exact (ofGrammar_language "S" [] compiles labels two).mpr ⟨_, derives, spelled, total⟩

end Automaton

end Transducer
