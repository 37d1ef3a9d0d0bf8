import Transducer.Grammar.Assembly
import Transducer.Proofs.Automaton.Reached
import Transducer.Proofs.Ordered
/-!
A grammar fails exactly on names that are not declared. Once its names have been checked, every step
of its assembly finds the states that it needs, and the steps leave the automaton that is built at
once, whose structural invariants hold.
-/

namespace Transducer

namespace Assembly

variable {a b : Automaton} {table : Table} {names done : List String} {name start : String}
  {id source target : StateId} {spelling : Spelling} {g : Grammar} {r : Rule}

theorem run_bind_ok {α β : Type} {m : Assembly α} {x : α} (h : m.run.run a = (.ok x, b))
    (next : α → Assembly β) : (m >>= next).run.run a = (next x).run.run b := by
  rw [Change.run_bind, h]

theorem run_get : (get : Assembly Automaton).run.run a = (.ok a, a) := rfl

/-- An edit goes through if the states that it names are there. -/
theorem run_edit {e : Edit} (there : ∀ need ∈ e.needs, need.1 < a.size) :
    (edit e).run.run a = (.ok (), e.written a) := by
  have through : e.change.run.run a = (.ok (), e.written a) := by
    have whole := Edit.run_eq e a
    rw [Edit.missing?_eq_none_iff.mpr there] at whole
    exact whole
  have adapted : (edit e).run.run a =
      ((e.change.run.run a).1.mapError .state, (e.change.run.run a).2) := rfl
  rw [adapted, through]
  rfl

theorem run_find (h : table.lookup name = some id) : (find table name).run.run a = (.ok id, a) := by
  rw [find, h]
  rfl

/-- The table knows the names of a list, each by its place there without repetitions. -/
structure Indexes (table : Table) (names : List String) : Prop where
  order : Ordered.Increasing (table.map Prod.fst)
  lookup : ∀ name, table.lookup name =
    if name ∈ names then some (names.eraseDups.idxOf name) else none

theorem Indexes.lookup_of_mem (h : Indexes table names) (mem : name ∈ names) :
    table.lookup name = some (names.eraseDups.idxOf name) := by
  rw [h.lookup, if_pos mem]

/-- The automaton of some names, without arcs or final states. -/
def bare (names : List String) : Automaton :=
  { states := (names.eraseDups.map State.named).toArray }

theorem size_bare (names : List String) : (bare names).size = names.eraseDups.length := by
  simp [bare, Automaton.size]

/-- A name that is new gets the next state. -/
theorem run_declare (h : Indexes table done) (name : String) :
    ∃ table', (declare table name).run.run (bare done) = (.ok table', bare (done ++ [name])) ∧
      Indexes table' (done ++ [name]) := by
  by_cases old : name ∈ done
  · have same : (done ++ [name]).eraseDups = done.eraseDups := by rw [eraseDups_snoc, if_pos old]
    have mem (other : String) : other ∈ done ++ [name] ↔ other ∈ done := by
      rw [List.mem_append, List.mem_singleton]
      exact or_iff_left_of_imp fun here => here ▸ old
    refine ⟨table, ?_, h.order, fun other => ?_⟩
    · rw [declare, h.lookup_of_mem old, bare, bare, same]
      rfl
    · simp only [h.lookup, mem, same]
  · have longer : (done ++ [name]).eraseDups = done.eraseDups ++ [name] := by
      rw [eraseDups_snoc, if_neg old]
    have missing : table.lookup name = none := by rw [h.lookup, if_neg old]
    refine ⟨Ordered.put name (bare done).size table, ?_, Ordered.increasing_alter h.order,
      fun other => ?_⟩
    · have added : (bare done).addState (some name) = bare (done ++ [name]) := by
        simp [bare, longer, Automaton.addState, State.named]
      rw [declare, missing]
      refine (run_bind_ok run_get _).trans ((run_bind_ok (run_edit ?_) _).trans ?_)
      · exact fun need none => absurd none List.not_mem_nil
      · rw [Edit.written, added]
        rfl
    · rw [Ordered.put, h.order.lookup_alter, h.lookup, longer, size_bare]
      by_cases here : other = name
      · have fresh : name ∉ done.eraseDups := mt List.mem_eraseDups.mp old
        simp [here, List.idxOf_append, fresh]
      · by_cases known : other ∈ done
        · have listed : other ∈ done.eraseDups := List.mem_eraseDups.mpr known
          simp [here, known, List.idxOf_append, listed]
        · simp [here, known]

theorem run_foldlM_declare (more : List String) (h : Indexes table done) :
    ∃ table', (more.foldlM declare table).run.run (bare done) = (.ok table', bare (done ++ more)) ∧
      Indexes table' (done ++ more) := by
  induction more generalizing table done with
  | nil => exact ⟨table, by rw [List.append_nil]; rfl, by rwa [List.append_nil]⟩
  | cons name rest ih =>
    obtain ⟨next, one, indexes⟩ := run_declare h name
    obtain ⟨last, all, indexes⟩ := ih indexes
    rw [List.append_assoc, List.singleton_append] at all indexes
    refine ⟨last, ?_, indexes⟩
    rw [List.foldlM_cons, run_bind_ok one]
    exact all

theorem run_path (hs : source < a.size) (ht : target < a.size) (w : Weight)
    (labels : List Label) :
    (path source target w labels).run.run a = (.ok (), a.addPath source target w labels) := by
  induction labels generalizing a source with
  | nil => rfl
  | cons l rest ih =>
    cases rest with
    | nil => exact run_edit (by simp [Edit.needs, hs, ht])
    | cons l' rest =>
      let grown := a.addState none
      have size : grown.size = a.size + 1 := Automaton.size_addState ..
      have size' : (grown.addArc source ⟨a.size, l, .zero⟩).size = a.size + 1 :=
        (Automaton.size_addArc ..).trans size
      have fresh : (edit (.addState none)).run.run a = (.ok (), grown) :=
        run_edit fun need none => absurd none List.not_mem_nil
      have arc : (edit (.addArc source ⟨a.size, l, .zero⟩)).run.run grown =
          (.ok (), grown.addArc source ⟨a.size, l, .zero⟩) := by
        refine run_edit ?_
        rw [Edit.needs, List.forall_mem_cons, List.forall_mem_singleton, size]
        exact ⟨Nat.lt_succ_self _, Nat.lt_succ_of_lt hs⟩
      have further := ih (Nat.lt_of_lt_of_eq (Nat.lt_succ_self a.size) size'.symm)
        (Nat.lt_of_lt_of_eq (Nat.lt_succ_of_lt ht) size'.symm)
      refine (run_bind_ok run_get _).trans ((run_bind_ok fresh _).trans ?_)
      exact (run_bind_ok arc _).trans further

/-- An automaton with the states of some names, on which the assembly can go on. -/
structure Ready (names : List String) (a : Automaton) : Prop where
  wellFormed : a.WellFormed
  room : names.eraseDups.length ≤ a.size

theorem run_rule (indexes : Indexes table names) (ready : Ready names a) (source : name ∈ names)
    (target : r.target ∈ names) (spelling : Spelling) :
    let after := Automaton.addRule spelling (names.eraseDups.idxOf name)
      (names.eraseDups.idxOf r.target) a r
    (rule spelling table name r).run.run a = (.ok (), after) ∧ Ready names after := by
  intro after
  have inside {name : String} (mem : name ∈ names) : names.eraseDups.idxOf name < a.size :=
    Nat.lt_of_lt_of_le (List.idxOf_lt_length_of_mem (List.mem_eraseDups.mpr mem)) ready.room
  let symbols := ((r.sides spelling).1 ++ (r.sides spelling).2).filter (· ≠ epsilon)
  let labels := Label.align (r.sides spelling).1 (r.sides spelling).2
  have spelled : (edit (.addSymbols symbols)).run.run a = (.ok (), a.addSymbols symbols) :=
    run_edit fun need none => absurd none List.not_mem_nil
  have added : (path (names.eraseDups.idxOf name) (names.eraseDups.idxOf r.target) r.weight
      labels).run.run (a.addSymbols symbols) = (.ok (), after) :=
    run_path (a := a.addSymbols symbols) (inside source) (inside target) r.weight labels
  obtain ⟨formed, larger⟩ := (ready.wellFormed.addSymbols symbols).addPath (inside source)
    (inside target) r.weight labels
  refine ⟨?_, formed, Nat.le_trans ready.room larger⟩
  rw [rule, run_bind_ok (run_find (indexes.lookup_of_mem source)),
    run_bind_ok (run_find (indexes.lookup_of_mem target))]
  exact (run_bind_ok spelled _).trans added

/-- Steps that all go through write one after the other. -/
theorem run_forM {ι : Type} {P : Automaton → Prop} (step : ι → Assembly Unit)
    (write : Automaton → ι → Automaton) {items : List ι} (each : ∀ i ∈ items, ∀ a, P a →
      (step i).run.run a = (.ok (), write a i) ∧ P (write a i)) (h : P a) :
    (items.forM step).run.run a = (.ok (), items.foldl write a) ∧ P (items.foldl write a) := by
  induction items generalizing a with
  | nil => exact ⟨rfl, h⟩
  | cons i rest ih =>
    obtain ⟨one, kept⟩ := each i List.mem_cons_self a h
    obtain ⟨all, last⟩ := ih (fun j mem => each j (List.mem_cons_of_mem i mem)) kept
    exact ⟨(run_bind_ok one _).trans all, last⟩

theorem run_audit (h : a.WellFormed) : audit.run.run a = (.ok (), a) := by
  rw [audit, run_bind_ok run_get, h.brokenInvariant?_eq_none]
  rfl

/-- The names of a grammar with its start, as the assembly meets them. -/
def metNames (g : Grammar) (start : String) : List String := start :: (g.names ++ [finalLexicon])

/-- The rules of a checked grammar go through, set by set. -/
theorem run_rules (checked : g.check start = .ok ()) (indexes : Indexes table (metNames g start))
    (spelling : Spelling) :
    (g.usedLexicons.forM fun p => p.2.forM (rule spelling table p.1)).run.run
        (Automaton.ofNames (g.stateNames start)) = (.ok (), Automaton.build g start spelling) ∧
      Ready (metNames g start) (Automaton.build g start spelling) := by
  have final : finalLexicon ∈ g.stateNames start := g.final_mem_stateNames start
  have ready : Ready (metNames g start) (Automaton.ofNames (g.stateNames start)) :=
    ⟨Automaton.wellFormed_ofNames final, (Automaton.compiled_ofNames final spelling).size⟩
  refine run_forM _ _ (fun p listed a ready => ?_) ready
  refine run_forM _ (fun a r => Automaton.addRule spelling ((g.stateNames start).idxOf p.1)
    ((g.stateNames start).idxOf r.target) a r) (fun r mem a ready => ?_) ready
  have used : (p.1, r) ∈ g.usedRules := List.mem_flatMap.mpr ⟨p, listed, List.mem_map_of_mem mem⟩
  have source := (Grammar.mem_usedRules.mp used).2.mem_stateNames start
  have target := Grammar.mem_of_declares (Grammar.declares_target checked used) start
  exact run_rule indexes ready (List.mem_eraseDups.mp source) (List.mem_eraseDups.mp target)
    spelling

/-- The assembly of a checked grammar goes through, and leaves what is built at once. -/
theorem run_grammar (checked : g.check start = .ok ()) (spelling : Spelling) :
    (grammar g start spelling).run.run .empty = (.ok (), Automaton.build g start spelling) := by
  have named : (edit (.setName 0 (some start))).run.run .empty = (.ok (), bare [start]) := by
    refine run_edit (List.forall_mem_singleton.mpr ?_)
    exact Nat.one_pos
  have first : Indexes [(start, 0)] [start] := by
    refine ⟨List.pairwise_singleton .., fun name => ?_⟩
    by_cases here : name = start
    · simp [here, List.eraseDups_cons]
    · simp [here, List.lookup_cons, beq_eq_false_iff_ne.mpr here]
  obtain ⟨table, declared, indexes⟩ := run_foldlM_declare (g.names ++ [finalLexicon]) first
  have final : finalLexicon ∈ metNames g start :=
    List.mem_cons_of_mem _ (List.mem_append_right _ (List.mem_singleton_self _))
  have marked : (edit (.setFinal ((g.stateNames start).idxOf finalLexicon) .zero)).run.run
      (bare (metNames g start)) = (.ok (), Automaton.ofNames (g.stateNames start)) := by
    refine run_edit (List.forall_mem_singleton.mpr ?_)
    rw [size_bare]
    exact List.idxOf_lt_length_of_mem (g.final_mem_stateNames start)
  obtain ⟨ruled, built⟩ := run_rules checked indexes spelling
  rw [grammar]
  refine (run_bind_ok run_get _).trans ((run_bind_ok named _).trans ?_)
  refine (run_bind_ok declared _).trans ?_
  refine (run_bind_ok (run_find (indexes.lookup_of_mem final)) _).trans ?_
  refine (run_bind_ok marked _).trans ((run_bind_ok ruled _).trans ?_)
  exact run_audit built.wellFormed

end Assembly

namespace Grammar

variable {g : Grammar} {start name : String} {multichar : List Symbol} {rules : List Rule}
  {e : GrammarError}

/-- Step by step or at once, a grammar is compiled to the same automaton or fails with the same
error, and there are no faults. -/
theorem assemble_eq (g : Grammar) (start : String) (multichar : List Symbol) :
    g.assemble start multichar = (Automaton.ofGrammar g start multichar).map .ok := by
  rw [assemble, Automaton.ofGrammar]
  cases checked : g.check start with
  | error e => rfl
  | ok _ =>
    have run := Assembly.run_grammar checked (.ofDeclared multichar)
    simp only [bind, Except.bind, run]
    rfl

/-- The name is that of a set, or of the final one. -/
def Declared (g : Grammar) (name : String) : Prop := name = finalLexicon ∨ name ∈ g.names

theorem declares_iff : g.declares name = true ↔ g.Declared name := by
  rw [declares, Bool.or_eq_true, decide_eq_true_eq, Declared, contains, rules?,
    List.lookup_isSome_iff, names, List.mem_map]
  refine or_congr Iff.rfl (exists_congr fun e => and_congr_right fun _ => ?_)
  rw [beq_iff_eq, eq_comm]

/-- The rule at an index of a set goes on with a name that is not declared, and is the first to do
so: no earlier rule of the set does, and no used rule of a set with a smaller name. -/
structure FirstUndeclared (g : Grammar) (name : String) (index : Nat) (target : String) : Prop where
  used : name ≠ finalLexicon
  undeclared : ¬ g.Declared target
  rule : ∃ before r after, (name, before ++ r :: after) ∈ g.lexicons ∧ r.target = target ∧
    before.length = index ∧ ∀ earlier ∈ before, g.Declared earlier.target
  smaller : ∀ other rules, (other, rules) ∈ g.lexicons → compare other name = .lt →
    other ≠ finalLexicon → ∀ r ∈ rules, g.Declared r.target

theorem undeclaredIn?_eq_none_iff :
    g.undeclaredIn? (name, rules) = none ↔ ∀ r ∈ rules, g.Declared r.target := by
  constructor
  · intro none r mem
    exact declares_iff.mp (declares_of_undeclaredIn? none mem)
  · intro all
    rw [undeclaredIn?, List.findSome?_eq_none_iff]
    intro entry mem
    obtain ⟨r, index⟩ := entry
    have there : r ∈ rules := List.mem_of_getElem? (List.mk_mem_zipIdx_iff_getElem?.mp mem)
    exact if_pos (declares_iff.mpr (all r there))

/-- The error of a set names its first rule that goes on with an undeclared name. -/
theorem exists_first_of_undeclaredIn? (h : g.undeclaredIn? (name, rules) = some e) :
    ∃ before r after, rules = before ++ r :: after ∧ ¬ g.Declared r.target ∧
      (∀ earlier ∈ before, g.Declared earlier.target) ∧
      e = .undefinedTarget name before.length r.target := by
  rw [undeclaredIn?, List.findSome?_eq_some_iff] at h
  obtain ⟨front, ⟨r, index⟩, back, split, bad, good⟩ := h
  have whole : rules = front.map Prod.fst ++ r :: back.map Prod.fst := by
    rw [← List.zipIdx_map_fst 0 rules, split, List.map_append, List.map_cons]
  have place : index = (front.map Prod.fst).length := by
    have here : (rules.zipIdx)[front.length]? = some (r, index) := by
      rw [split, List.getElem?_append_right (Nat.le_refl _), Nat.sub_self, List.getElem?_cons_zero]
    rw [List.getElem?_zipIdx] at here
    obtain ⟨r', -, same⟩ := Option.map_eq_some_iff.mp here
    rw [List.length_map, ← (Prod.mk.inj same).2, Nat.zero_add]
  have earlier : ∀ earlier ∈ front.map Prod.fst, g.Declared earlier.target := by
    intro earlier mem
    obtain ⟨entry, there, rfl⟩ := List.mem_map.mp mem
    by_contra undeclared
    have found := good entry there
    simp [mt declares_iff.mp undeclared] at found
  by_cases declared : g.declares r.target = true
  · simp [declared] at bad
  · simp only [if_neg declared] at bad
    refine ⟨_, r, _, whole, mt declares_iff.mpr declared, earlier, ?_⟩
    rw [← Option.some.inj bad, place]

/-- The error of a grammar is that of its first bad set in name order. -/
theorem firstUndeclared_of_findSome? (order : Ordered.Increasing g.names)
    (h : g.usedLexicons.findSome? g.undeclaredIn? = some e) :
    ∃ name index target, e = .undefinedTarget name index target ∧
      g.FirstUndeclared name index target := by
  obtain ⟨front, ⟨name, rules⟩, back, split, bad, good⟩ := List.findSome?_eq_some_iff.mp h
  obtain ⟨before, r, after, rfl, undeclared, earlier, rfl⟩ := exists_first_of_undeclaredIn? bad
  have used {entry : String × List Rule} (mem : entry ∈ g.usedLexicons) :
      entry ∈ g.lexicons ∧ entry.1 ≠ finalLexicon := by
    obtain ⟨listed, ne⟩ := List.mem_filter.mp mem
    exact ⟨listed, of_decide_eq_true ne⟩
  have here : (name, before ++ r :: after) ∈ g.usedLexicons := by
    rw [split]
    exact List.mem_append_right _ List.mem_cons_self
  have sorted : Ordered.Increasing (g.usedLexicons.map Prod.fst) :=
    order.sublist (List.filter_sublist.map Prod.fst)
  rw [split, List.map_append, List.map_cons] at sorted
  obtain ⟨larger, -⟩ := List.pairwise_cons.mp (List.pairwise_append.mp sorted).2.1
  refine ⟨name, before.length, r.target, rfl, (used here).2, undeclared,
    ⟨before, r, after, (used here).1, rfl, rfl, earlier⟩, fun other rules mem less ne => ?_⟩
  have listed : (other, rules) ∈ g.usedLexicons := List.mem_filter.mpr ⟨mem, decide_eq_true ne⟩
  rw [split] at listed
  refine undeclaredIn?_eq_none_iff.mp (good (other, rules) ?_)
  -- a set with a smaller name stands neither in this place nor behind it
  rcases List.mem_append.mp listed with ahead | behind
  · exact ahead
  · rcases List.mem_cons.mp behind with same | later
    · have self : compare name name = .eq := Std.ReflCmp.compare_self
      rw [(Prod.mk.inj same).1, self] at less
      exact absurd less (by decide)
    · have greater := larger other (List.mem_map_of_mem later)
      rw [Std.OrientedCmp.gt_of_lt less] at greater
      exact absurd greater (by decide)

/-- A rule that is used goes on with a name that is not declared. -/
def HasUndeclaredTarget (g : Grammar) : Prop :=
  ∃ name r, name ≠ finalLexicon ∧ g.Lists name r ∧ ¬ g.Declared r.target

theorem findSome?_eq_none_iff :
    g.usedLexicons.findSome? g.undeclaredIn? = none ↔ ¬ g.HasUndeclaredTarget := by
  rw [List.findSome?_eq_none_iff]
  constructor
  · intro none ⟨name, r, ne, ⟨rules, listed, mem⟩, undeclared⟩
    have used : (name, rules) ∈ g.usedLexicons := List.mem_filter.mpr ⟨listed, decide_eq_true ne⟩
    exact undeclared (undeclaredIn?_eq_none_iff.mp (none _ used) r mem)
  · intro none entry used
    obtain ⟨name, rules⟩ := entry
    obtain ⟨listed, ne⟩ := List.mem_filter.mp used
    refine undeclaredIn?_eq_none_iff.mpr fun r mem => ?_
    by_contra undeclared
    exact none ⟨name, r, of_decide_eq_true ne, ⟨rules, listed, mem⟩, undeclared⟩

end Grammar

namespace Automaton

variable {g : Grammar} {start : String} {multichar : List Symbol} {e : GrammarError}

theorem ofGrammar_of_check_error (h : g.check start = .error e) :
    ofGrammar g start multichar = .error e := by
  rw [ofGrammar, h]
  rfl

/-- The start is looked at before any rule. -/
theorem ofGrammar_of_undeclared (h : ¬ g.Declared start) :
    ofGrammar g start multichar = .error (.undefinedStart start) :=
  ofGrammar_of_check_error (if_neg (mt Grammar.declares_iff.mp h))

theorem ofGrammar_of_findSome? (h : g.Declared start)
    (bad : g.usedLexicons.findSome? g.undeclaredIn? = some e) :
    ofGrammar g start multichar = .error e := by
  refine ofGrammar_of_check_error ?_
  rw [Grammar.check, if_pos (Grammar.declares_iff.mpr h), bad]

/-- A grammar fails exactly on names that are not declared: first on its start, else on the first
rule in name order that goes on with such a name. In every other case it gives an automaton whose
structural invariants hold, and assembling that step by step meets no fault. -/
theorem ofGrammar_outcome (g : Grammar) (order : Ordered.Increasing g.names) (start : String)
    (multichar : List Symbol) :
    (∀ name, ofGrammar g start multichar = .error (.undefinedStart name) ↔
      name = start ∧ ¬ g.Declared start) ∧
    (g.Declared start →
      ((∃ name index target,
          ofGrammar g start multichar = .error (.undefinedTarget name index target)) ↔
        g.HasUndeclaredTarget)) ∧
    (∀ name index target,
      ofGrammar g start multichar = .error (.undefinedTarget name index target) →
        g.FirstUndeclared name index target) ∧
    (g.Declared start → ¬ g.HasUndeclaredTarget →
      ∃ a, ofGrammar g start multichar = .ok a ∧ a.WellFormed ∧ a.brokenInvariant? = none ∧
        g.assemble start multichar = .ok (.ok a)) := by
  by_cases declared : g.Declared start
  · cases bad : g.usedLexicons.findSome? g.undeclaredIn? with
    | some e =>
      obtain ⟨name, index, target, rfl, first⟩ := Grammar.firstUndeclared_of_findSome? order bad
      have some : g.HasUndeclaredTarget := by
        by_contra none
        rw [Grammar.findSome?_eq_none_iff.mpr none] at bad
        cases bad
      rw [ofGrammar_of_findSome? declared bad]
      refine ⟨fun other => ?_, fun _ => ?_, fun name' index' target' same => ?_, ?_⟩
      · simp [declared]
      · exact iff_of_true ⟨name, index, target, rfl⟩ some
      · cases same
        exact first
      · exact fun _ none => absurd some none
    | none =>
      have none := Grammar.findSome?_eq_none_iff.mp bad
      have checked := Grammar.check_eq_ok_iff.mpr ⟨Grammar.declares_iff.mpr declared, bad⟩
      have compiled : ofGrammar g start multichar = .ok (build g start (.ofDeclared multichar)) :=
        ofGrammar_eq_ok_iff.mpr ⟨checked, rfl⟩
      have formed := wellFormed_ofGrammar compiled
      have assembled := g.assemble_eq start multichar
      rw [compiled] at assembled ⊢
      refine ⟨fun other => ?_, fun _ => ?_, fun name index target same => ?_, fun _ _ => ?_⟩
      · simp [declared]
      · simp [none]
      · cases same
      · exact ⟨_, rfl, formed, formed.brokenInvariant?_eq_none, assembled⟩
  · rw [ofGrammar_of_undeclared declared]
    refine ⟨fun name => ?_, fun there => absurd there declared, fun name index target same => ?_,
      fun there => absurd there declared⟩
    · simp [declared, eq_comm]
    · cases same

/-- Two sets have bad rules, and a set with the name of the final one, whose rules do not count. -/
theorem ofGrammar_outcome_two_errors :
    let bad : Rule := { input := "a", target := "X" }
    let good : Rule := { input := "a", target := "#" }
    let g : Grammar :=
      ⟨[("#", [bad]), ("B", [good, { bad with target := "B" }, bad]), ("C", [bad])]⟩
    Ordered.Increasing g.names ∧ g.Declared "#" ∧
      ofGrammar g "#" [] = .error (.undefinedTarget "B" 2 "X") ∧ g.FirstUndeclared "B" 2 "X" := by
  intro bad good g
  have order : Ordered.Increasing g.names := by
    rw [Ordered.Increasing]
    decide
  have fails : ofGrammar g "#" [] = .error (.undefinedTarget "B" 2 "X") := by decide +kernel
  exact ⟨order, .inl rfl, fails, (ofGrammar_outcome g order "#" []).2.2.1 _ _ _ fails⟩

end Automaton

end Transducer
