import Mathlib.Algebra.Ring.Nat
import Transducer.Proofs.Automaton.Degree
import Transducer.Proofs.Export.Names
import Transducer.Proofs.Grammar.Symbols
/-!
The shape of a compiled grammar. Its states are those of the sets, each under its name, and between
two symbols of one rule a state of its own, which one arc enters and one arc leaves. So the states
can be counted on the rules, also where arcs of equal rules fall together.
-/

namespace Transducer

namespace Label

variable {s i o : Symbol} {inputs outputs : List Symbol}

theorem mem_symbols_between : s ∈ (between i o).symbols ↔ s = i ∨ s = o := by
  rw [between]
  split
  · next same => simp [symbols, ← same]
  · simp [symbols]

/-- The symbols of aligned sides are those of the sides, but for what fills up the shorter one. -/
theorem exists_mem_align (filled : s ≠ epsilon) :
    (∃ l ∈ align inputs outputs, s ∈ l.symbols) ↔ s ∈ inputs ++ outputs := by
  fun_induction align inputs outputs with
  | case1 outputs => simp [mem_symbols_between, filled]
  | case2 inputs => simp [mem_symbols_between, filled]
  | case3 i inputs o outputs ih =>
    rw [List.exists_mem_cons_iff, ih, mem_symbols_between]
    simp only [List.cons_append, List.mem_cons, List.mem_append]
    tauto

theorem length_align (inputs outputs : List Symbol) :
    (align inputs outputs).length = max inputs.length outputs.length := by
  fun_induction align inputs outputs with
  | case1 outputs => simp
  | case2 inputs => simp
  | case3 i inputs o outputs ih =>
    simp only [List.length_cons, ih]
    omega

end Label

namespace Rule

/-- The number of symbols on the longer side. -/
def width (spelling : Spelling) (r : Rule) : Nat :=
  max (r.sides spelling).1.length (r.sides spelling).2.length

theorem length_labels (spelling : Spelling) (r : Rule) :
    (r.labels spelling).length = r.width spelling := by
  rw [← align_sides, Label.length_align, width]

end Rule

namespace Automaton

variable {a : Automaton} {bound : Nat} {tip target : StateId} {w : Weight} {labels : List Label}
  {names : List String} {spelling : Spelling} {g : Grammar} {start : String}
  {multichar : List Symbol} {arc : Arc} {s : Symbol}

/-- Behind the first `bound` states lie those of threads: one arc enters each and one leaves it, but
for a tip that no arc leaves yet. -/
structure Linked (bound : Nat) (tip : StateId) (a : Automaton) : Prop where
  size : bound ≤ a.size
  inside : ∀ id, ∀ arc ∈ (a.state id).arcs, arc.target < a.size
  enter : ∀ id, bound ≤ id → id < a.size → a.inDegree id = 1
  leave : ∀ id, bound ≤ id → id < a.size → (a.state id).outDegree = if id = tip then 0 else 1

namespace Linked

/-- It makes no difference which of the first states the tip is. -/
theorem move {other : StateId} (h : Linked bound tip a) (ht : tip < bound) (ho : other < bound) :
    Linked bound other a where
  size := h.size
  inside := h.inside
  enter := h.enter
  leave id le lt := by
    rw [h.leave id le lt, if_neg (Nat.ne_of_gt (Nat.lt_of_lt_of_le ht le)),
      if_neg (Nat.ne_of_gt (Nat.lt_of_lt_of_le ho le))]

/-- With an arc more at the tip, each state of a thread is left by one. -/
theorem leave_addArc (h : Linked bound tip a) (lt : tip < a.size) {id : StateId} (le : bound ≤ id)
    (there : id < a.size) : ((a.addArc tip arc).state id).outDegree = 1 := by
  rw [state_addArc lt]
  split
  · next same =>
    have blank := h.leave id le there
    rw [if_pos same, same] at blank
    exact State.outDegree_addArc_of_blank blank arc
  · next other => rw [h.leave id le there, if_neg other]

/-- The last arc of a thread leads to one of the first states. -/
theorem close (h : Linked bound tip a) (lt : tip < a.size) (ht : target < bound) (l : Label)
    (w : Weight) : Linked bound target (a.addArc tip ⟨target, l, w⟩) := by
  refine ⟨by simpa using h.size, fun id arc mem => ?_, fun id le there => ?_, fun id le there => ?_⟩
  · rw [size_addArc]
    rcases mem_arcs_addArc mem with rfl | old
    · exact Nat.lt_of_lt_of_le ht h.size
    · exact h.inside id arc old
  · rw [size_addArc] at there
    rw [inDegree_addArc_of_ne lt (Nat.ne_of_lt (Nat.lt_of_lt_of_le ht le))]
    exact h.enter id le there
  · rw [size_addArc] at there
    rw [h.leave_addArc lt le there, if_neg (Nat.ne_of_gt (Nat.lt_of_lt_of_le ht le))]

/-- Any other arc of a thread leads to a new state, which is the tip then. -/
theorem extend (h : Linked bound tip a) (lt : tip < a.size) (l : Label) :
    Linked bound a.size ((a.addState none).addArc tip ⟨a.size, l, .zero⟩) := by
  have grown : (a.addState none).size = a.size + 1 := size_addState ..
  have lt' : tip < (a.addState none).size := grown ▸ Nat.lt_succ_of_lt lt
  have blank : (a.addState none).inDegree a.size = 0 := by
    rw [inDegree_addState, inDegree_eq_zero_iff]
    exact fun source arc mem => Nat.ne_of_lt (h.inside source arc mem)
  have size : ((a.addState none).addArc tip ⟨a.size, l, .zero⟩).size = a.size + 1 := by
    rw [size_addArc, grown]
  refine ⟨?_, fun id arc mem => ?_, fun id le there => ?_, fun id le there => ?_⟩
  · rw [size]
    exact Nat.le_succ_of_le h.size
  · rw [size]
    rcases mem_arcs_addArc mem with rfl | old
    · exact Nat.lt_succ_self _
    · rw [state_addState] at old
      split at old
      · exact absurd old List.not_mem_nil
      · exact Nat.lt_succ_of_lt (h.inside id arc old)
  · rw [size] at there
    rcases Nat.lt_succ_iff_lt_or_eq.mp there with old | rfl
    · rw [inDegree_addArc_of_ne lt' (Nat.ne_of_gt old), inDegree_addState]
      exact h.enter id le old
    · exact inDegree_addArc_of_new lt' blank
  · rw [size] at there
    have states : ((a.addState none).addArc tip ⟨a.size, l, .zero⟩).state id =
        if id = a.size then { name := none } else (a.addArc tip ⟨a.size, l, .zero⟩).state id := by
      rw [state_addArc lt', state_addArc lt, state_addState, state_addState,
        if_neg (Nat.ne_of_lt lt)]
      by_cases new : id = a.size
      · rw [if_pos new, if_pos new, if_neg (new ▸ Nat.ne_of_gt lt)]
      · rw [if_neg new, if_neg new]
    rw [states]
    split
    · rfl
    · next old =>
      exact h.leave_addArc lt le (Nat.lt_of_le_of_ne (Nat.le_of_lt_succ there) old)

/-- A thread from the tip to one of the first states leaves no tip behind. -/
theorem addPath (h : Linked bound tip a) (lt : tip < a.size) (ht : target < bound)
    (ne : labels ≠ []) : Linked bound target (a.addPath tip target w labels) := by
  fun_induction Automaton.addPath a tip target w labels with
  | case1 => exact absurd rfl ne
  | case2 a tip l => exact h.close lt ht l w
  | case3 a tip l rest more next grown ih =>
    refine ih (h.extend lt l) ?_ more
    rw [size_addArc, size_addState]
    exact Nat.lt_succ_self _

theorem addRule (h : Linked bound tip a) (hs : tip < bound) (ht : target < bound)
    (spelling : Spelling) (r : Rule) : Linked bound tip (addRule spelling tip target a r) := by
  have ready (symbols : List Symbol) : Linked bound tip (a.addSymbols symbols) :=
    ⟨h.size, h.inside, h.enter, h.leave⟩
  rw [addRule_eq]
  exact ((ready _).addPath (Nat.lt_of_lt_of_le hs h.size) ht (r.labels_ne_nil spelling)).move ht hs

theorem addRules (h : Linked names.length tip a) (hs : tip < names.length)
    {rules : List (String × Rule)} (known : ∀ p ∈ rules, p.1 ∈ names ∧ p.2.target ∈ names) :
    Linked names.length tip (a.addRules names spelling rules) := by
  induction rules generalizing a with
  | nil => exact h
  | cons p rest ih =>
    obtain ⟨⟨source, target⟩, later⟩ := List.forall_mem_cons.mp known
    have source := List.idxOf_lt_length_of_mem source
    have step := (h.move hs source).addRule source (List.idxOf_lt_length_of_mem target) spelling p.2
    exact ih (step.move source hs) later

end Linked

theorem linked_ofNames (final : finalLexicon ∈ names) (tip : StateId) :
    Linked names.length tip (ofNames names) := by
  have size := size_ofNames names
  refine ⟨Nat.le_of_eq size.symm, fun id arc mem => ?_, fun id le lt => ?_, fun id le lt => ?_⟩
  · rw [arcs_ofNames final] at mem
    exact absurd mem List.not_mem_nil
  · exact absurd (size ▸ lt) (Nat.not_lt.mpr le)
  · exact absurd (size ▸ lt) (Nat.not_lt.mpr le)

theorem linked_build (checked : g.check start = .ok ()) (spelling : Spelling) :
    Linked (g.stateNames start).length 0 (build g start spelling) := by
  have final := g.final_mem_stateNames start
  rw [build_eq]
  refine (linked_ofNames final 0).addRules (List.length_pos_of_mem final) fun p used => ⟨?_, ?_⟩
  · exact (Grammar.mem_usedRules.mp used).2.mem_stateNames start
  · exact Grammar.mem_of_declares (Grammar.declares_target checked used) start

/-- The states without a name. -/
def nameless (a : Automaton) : List StateId := a.ids.filter fun id => (a.state id).name = none

theorem Named.name_idxOf (h : Named names a) {name : String} (mem : name ∈ names) :
    (a.state (names.idxOf name)).name = some name := by
  rw [h.name, List.getElem?_eq_getElem (List.idxOf_lt_length_of_mem mem), List.getElem_idxOf]

theorem Named.mem_nameless_iff (h : Named names a) {id : StateId} :
    id ∈ a.nameless ↔ names.length ≤ id ∧ id < a.size := by
  rw [nameless, List.mem_filter, decide_eq_true_eq, h.name, List.getElem?_eq_none_iff, ids,
    List.mem_range, and_comm]

theorem Named.length_nameless (h : Named names a) : a.nameless.length = a.size - names.length := by
  obtain ⟨more, size⟩ := Nat.exists_eq_add_of_le h.size
  have first : (List.range names.length).filter (fun id => (a.state id).name = none) = [] := by
    refine List.filter_eq_nil_iff.mpr fun id mem => ?_
    simpa [h.name] using mem
  have rest : ((List.range more).map (names.length + ·)).filter
      (fun id => (a.state id).name = none) = (List.range more).map (names.length + ·) := by
    refine List.filter_eq_self.mpr fun id mem => ?_
    obtain ⟨n, -, rfl⟩ := List.mem_map.mp mem
    simp [h.name]
  rw [nameless, ids, size, List.range_add, List.filter_append, first, rest]
  simp

theorem size_addPath (a : Automaton) (source target : StateId) (w : Weight) (labels : List Label) :
    (a.addPath source target w labels).size = a.size + (labels.length - 1) := by
  fun_induction addPath a source target w labels with
  | case1 => rfl
  | case2 => exact size_addArc ..
  | case3 a source l rest more next grown ih =>
    have some : 0 < rest.length := List.length_pos_iff.mpr more
    rw [ih, size_addArc, size_addState, List.length_cons]
    omega

theorem size_addRules (rules : List (String × Rule)) : (a.addRules names spelling rules).size =
    a.size + (rules.map fun p => p.2.width spelling - 1).sum := by
  induction rules generalizing a with
  | nil => rfl
  | cons p rest ih =>
    have grown : (addRule spelling (names.idxOf p.1) (names.idxOf p.2.target) a p.2).size =
        a.size + (p.2.width spelling - 1) := by
      rw [addRule_eq, size_addPath, Rule.length_labels]
      rfl
    rw [addRules_cons, ih, grown, List.map_cons, List.sum_cons, Nat.add_assoc]

/-- Every label of a thread stands on an arc. -/
theorem Thread.exists_arc {id : StateId} (h : Thread a bound target w arc labels)
    (mem : arc ∈ (a.state id).arcs) {l : Label} (hl : l ∈ labels) :
    ∃ source, ∃ other ∈ (a.state source).arcs, other.label = l := by
  induction h generalizing id with
  | last l' => exact ⟨id, _, mem, (List.mem_singleton.mp hl).symm⟩
  | @more arc next rest _ _ only _ ih =>
    rcases List.mem_cons.mp hl with rfl | later
    · exact ⟨id, arc, mem, rfl⟩
    · exact ih (by rw [only]; exact List.mem_singleton_self next) later

/-- The symbols on arcs are those of the rules, and the empty one. -/
theorem mem_alphabet_build_iff : s ∈ (build g start spelling).alphabet ↔ s ≠ epsilon ∧
    ∃ id, ∃ arc ∈ ((build g start spelling).state id).arcs, s ∈ arc.label.symbols := by
  rw [mem_alphabet_build]
  refine and_congr_right fun filled => ⟨fun ⟨p, used, mem⟩ => ?_, fun ⟨id, arc, mem, hs⟩ => ?_⟩
  · obtain ⟨l, hl, hs⟩ := (Label.exists_mem_align filled).mpr mem
    rw [Rule.align_sides] at hl
    obtain ⟨arc, begins, w, -, thread⟩ :=
      (compiled_build g start spelling).complete p (List.mem_reverse.mpr used)
    obtain ⟨id, other, there, same⟩ := thread.exists_arc begins hl
    exact ⟨id, other, there, same ▸ hs⟩
  · obtain ⟨p, used, hl⟩ := mem_arcs_build mem
    rw [← Rule.align_sides] at hl
    exact ⟨p, used, (Label.exists_mem_align filled).mp ⟨arc.label, hl, hs⟩⟩

/-- What the automaton of a grammar looks like. -/
structure Shape (g : Grammar) (start : String) (spelling : Spelling) (a : Automaton) : Prop where
  /-- The names of states are the start, the declared names and `#`. -/
  named : ∀ name, (∃ id < a.size, (a.state id).name = some name) ↔
    name = start ∨ name ∈ g.names ∨ name = finalLexicon
  distinct : ∀ id other name, (a.state id).name = some name → (a.state other).name = some name →
    id = other
  initial : a.initial < a.size ∧ (a.state a.initial).name = some start
  /-- One state is final, at no cost, and no arc leaves it. -/
  final : ∀ id, (a.state id).name = some finalLexicon → a.finals = [id] ∧
    (a.state id).finalWeight = .zero ∧ (a.state id).arcs = [] ∧
    ∀ other, other ≠ id → a.isFinal other = false
  /-- One arc enters and one leaves every state without a name. -/
  between : ∀ id ∈ a.nameless, a.inDegree id = 1 ∧ (a.state id).outDegree = 1
  count : a.nameless.length = (g.usedRules.map fun p => p.2.width spelling - 1).sum
  alphabet : ∀ s, s ∈ a.alphabet ↔
    s ≠ epsilon ∧ ∃ id, ∃ arc ∈ (a.state id).arcs, s ∈ arc.label.symbols

/-- The automaton of a grammar has a state for each name, of which the start is initial and `#`
alone is final. Its other states lie between the symbols of rules, on one way each. -/
theorem ofGrammar_shape (h : ofGrammar g start multichar = .ok a) :
    Shape g start (.ofDeclared multichar) a := by
  have formed := wellFormed_ofGrammar h
  have named := named_ofGrammar h
  have distinct : ∀ id other name, (a.state id).name = some name →
      (a.state other).name = some name → id = other := fun _ _ _ => named.inj (nodup_eraseDups _)
  obtain ⟨checked, rfl⟩ := ofGrammar_eq_ok_iff.mp h
  have compiled := compiled_build g start (.ofDeclared multichar)
  have first : start ∈ g.stateNames start := Grammar.mem_stateNames.mpr (.inl rfl)
  have last := g.final_mem_stateNames start
  refine ⟨fun name => ?_, distinct, ⟨formed.initial, ?_⟩, fun id name => ?_, fun id nameless => ?_,
    ?_, fun s => mem_alphabet_build_iff⟩
  · rw [← Grammar.mem_stateNames]
    constructor
    · intro ⟨id, _, same⟩
      rw [named.name] at same
      exact List.mem_of_getElem? same
    · intro mem
      have lt := Nat.lt_of_lt_of_le (List.idxOf_lt_length_of_mem mem) named.size
      exact ⟨_, lt, named.name_idxOf mem⟩
  · rw [compiled.initial, ← g.idxOf_start start]
    exact named.name_idxOf first
  · obtain rfl := distinct _ _ _ name (named.name_idxOf last)
    have isFinal := compiled.isFinal_iff
    refine ⟨?_, ?_, compiled.arcs_final last, fun other ne => ?_⟩
    · refine formed.ascending.ext (List.pairwise_singleton ..) fun id => ?_
      rw [formed.finals, isFinal, List.mem_singleton]
    · rw [compiled.finals, if_pos rfl]
    · rw [Bool.eq_false_iff]
      exact mt (isFinal other).mp ne
  · obtain ⟨le, lt⟩ := named.mem_nameless_iff.mp nameless
    have linked := linked_build checked (.ofDeclared multichar)
    refine ⟨linked.enter id le lt, (linked.leave id le lt).trans (if_neg ?_)⟩
    exact Nat.ne_of_gt (Nat.lt_of_lt_of_le (List.length_pos_of_mem last) le)
  · rw [named.length_nameless, build_eq, size_addRules, size_ofNames, Nat.add_sub_cancel_left]

/-- Rules that loop, rules that are listed twice, and a set with the name of the final one, whose
rules do not count. -/
theorem ofGrammar_shape_equal_rules :
    let word : Rule := { input := "abc", output := some "d", target := "S" }
    let ending : Rule := { input := "e", target := "#" }
    let g : Grammar := ⟨[("#", [word]), ("S", [word, ending, word, ending])]⟩
    ∃ a, ofGrammar g "S" [] = .ok a ∧ a.size = 6 ∧ a.arcCount = 7 ∧
      Shape g "S" (.ofDeclared []) a := by
  intro word ending g
  have compiles : ofGrammar g "S" [] = .ok (build g "S" (.ofDeclared [])) :=
    ofGrammar_eq_ok_iff.mpr ⟨rfl, rfl⟩
  refine ⟨_, compiles, ?_, ?_, ofGrammar_shape compiles⟩
  · decide +kernel
  · decide +kernel

end Automaton

end Transducer
