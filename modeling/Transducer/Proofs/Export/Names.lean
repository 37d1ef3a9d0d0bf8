import Transducer.Proofs.Automaton.Reached
import Transducer.Proofs.Distinct
import Transducer.Proofs.Export.Determined
/-!
The names under which a table writes the states of a grammar. The sets of rules give their states
distinct names, and the states of rules have none and are written by number. So two states are
written alike just if a set is called like the number of a state without a name.
-/

namespace Transducer

namespace Automaton

variable {a : Automaton} {names : List String} {spelling : Spelling} {source target : StateId}
  {w : Weight} {labels : List Label} {g : Grammar} {start : String} {multichar : List Symbol}

/-- Changes that keep the name of a state keep all names. -/
theorem name_modify (source : StateId) (change : State → State)
    (keeps : ∀ s, (change s).name = s.name) (id : StateId) :
    ((a.modify source change).state id).name = (a.state id).name := by
  rw [state_eq, state_eq, modify, Array.getElem?_modify]
  split
  · cases a.states[id]? with
    | none => rfl
    | some s => exact keeps s
  · rfl

theorem name_setFinal (source id : StateId) :
    ((a.setFinal source w).state id).name = (a.state id).name := by
  rw [setFinal]
  split
  · exact name_modify source (fun s => { s with finalWeight := w }) (fun _ => rfl) id
  · exact name_modify source (fun s => { s with finalWeight := .infinity }) (fun _ => rfl) id

/-- The first states have the given names, and the states behind them have none. -/
structure Named (names : List String) (a : Automaton) : Prop where
  size : names.length ≤ a.size
  name : ∀ id, (a.state id).name = names[id]?

namespace Named

theorem addArc (h : Named names a) (source : StateId) (arc : Arc) :
    Named names (a.addArc source arc) where
  size := by simpa using h.size
  name id := (name_modify source (·.addArc arc) (fun _ => rfl) id).trans (h.name id)

theorem addState (h : Named names a) : Named names (a.addState none) := by
  refine ⟨Nat.le_trans h.size (by simp), fun id => ?_⟩
  rw [state_addState]
  split
  · next last =>
    rw [last, List.getElem?_eq_none h.size]
  · exact h.name id

theorem addPath (h : Named names a) (source target : StateId) (w : Weight) (labels : List Label) :
    Named names (a.addPath source target w labels) := by
  induction labels generalizing a source with
  | nil => exact h
  | cons l rest ih =>
    cases rest with
    | nil => exact h.addArc source _
    | cons _ _ => exact ih (h.addState.addArc source _) _

theorem addRule (h : Named names a) (source target : StateId) (r : Rule) :
    Named names (addRule spelling source target a r) := by
  have ready (symbols : List Symbol) : Named names (a.addSymbols symbols) := ⟨h.size, h.name⟩
  exact (ready _).addPath source target r.weight _

theorem addRules (h : Named names a) (rules : List (String × Rule)) :
    Named names (a.addRules names spelling rules) := by
  induction rules generalizing a with
  | nil => exact h
  | cons p rest ih => exact ih (h.addRule _ _ p.2)

/-- Distinct names belong to distinct states. -/
theorem inj (h : Named names a) (nodup : names.Nodup) {id other : StateId} {name : String}
    (here : (a.state id).name = some name) (there : (a.state other).name = some name) :
    id = other := by
  rw [h.name] at here there
  have lt : id < names.length := (List.getElem?_eq_some_iff.mp here).1
  exact (List.getElem?_inj lt nodup).mp (here.trans there.symm)

end Named

theorem named_ofNames (names : List String) : Named names (ofNames names) := by
  refine ⟨Nat.le_of_eq (size_ofNames names).symm, fun id => ?_⟩
  rw [ofNames, name_setFinal, state_eq, List.getElem?_toArray, List.getElem?_map]
  cases names[id]? with
  | none => rfl
  | some name => rfl

theorem named_ofGrammar (h : ofGrammar g start multichar = .ok a) :
    Named (g.stateNames start) a := by
  obtain ⟨-, rfl⟩ := ofGrammar_eq_ok_iff.mp h
  rw [build_eq]
  exact (named_ofNames _).addRules _

/-- The name of a state is the number of another one, which has no name. -/
def Clash (a : Automaton) : Prop := ∃ id other, a.Reachable id ∧ a.Reachable other ∧
  (a.state id).name = some (toString (a.canonicalNumbering.of other)) ∧ (a.state other).name = none

theorem tableName_of_name {id : StateId} {name : String} (h : (a.state id).name = some name) :
    a.tableName true id = name := by
  rw [tableName, if_pos rfl, h]

theorem tableName_of_nameless {id : StateId} (h : (a.state id).name = none) :
    a.tableName true id = toString (a.canonicalNumbering.of id) := by
  rw [tableName, if_pos rfl, h]

/-- Without a clash distinct names tell the states of a table apart. -/
theorem Closed.tableName_inj (h : a.Closed) (free : ¬a.Clash)
    (distinct : ∀ {id other name}, (a.state id).name = some name →
      (a.state other).name = some name → id = other) {id other : StateId}
    (reached : a.Reachable id) (there : a.Reachable other)
    (same : a.tableName true id = a.tableName true other) : id = other := by
  cases left : (a.state id).name with
  | some name =>
    rw [tableName_of_name left] at same
    cases right : (a.state other).name with
    | some name' =>
      rw [tableName_of_name right] at same
      exact distinct left (same ▸ right)
    | none =>
      rw [tableName_of_nameless right] at same
      exact absurd ⟨id, other, reached, there, same ▸ left, right⟩ free
  | none =>
    rw [tableName_of_nameless left] at same
    cases right : (a.state other).name with
    | some name' =>
      rw [tableName_of_name right] at same
      exact absurd ⟨other, id, there, reached, same ▸ right, left⟩ free
    | none =>
      rw [tableName_of_nameless right] at same
      exact h.number_inj reached there (Table.number_eq_of_toString_eq same)

theorem Clash.not_nodup (h : a.Closed) (clash : a.Clash) :
    ¬(a.canonicalOrder.map (a.tableName true)).Nodup := by
  obtain ⟨id, other, reached, there, name, nameless⟩ := clash
  intro nodup
  have same : a.tableName true id = a.tableName true other := by
    rw [tableName_of_name name, tableName_of_nameless nameless]
  have one : id = other := List.inj_on_of_nodup_map nodup (h.mem_canonicalOrder.mpr reached)
    (h.mem_canonicalOrder.mpr there) same
  rw [one, nameless] at name
  exact absurd name (by simp)

/-- A table with the names of a grammar's automaton has a line for each reachable state and writes
the state by the name there. The names are distinct, and tell states apart in all rows, unless a set
is called like the number of a state between two symbols. -/
theorem ofGrammar_table_names (h : ofGrammar g start multichar = .ok a) (e : Symbol) :
    (∀ id, (a.state id).name = (g.stateNames start)[id]?) ∧ (g.stateNames start).Nodup ∧
      (a.table e true).names =
        some (Table.codeLines (a.canonicalOrder.map (a.tableName true))) ∧
      (a.table e true).transitions = Table.lines (a.canonicalOrder.flatMap (a.tableRows e true)) ∧
      ((a.canonicalOrder.map (a.tableName true)).Nodup ↔ ¬a.Clash) ∧
      (¬a.Clash → ∀ id other, a.Reachable id → a.Reachable other →
        a.tableName true id = a.tableName true other → id = other) := by
  have closed := (wellFormed_ofGrammar h).closed
  have named := named_ofGrammar h
  have nodup : (g.stateNames start).Nodup := nodup_eraseDups _
  have tells (free : ¬a.Clash) : ∀ id other, a.Reachable id → a.Reachable other →
      a.tableName true id = a.tableName true other → id = other :=
    fun id other => closed.tableName_inj free (named.inj nodup)
  refine ⟨named.name, nodup, closed.names_table e true, closed.transitions_table e true,
    ⟨fun once clash => clash.not_nodup closed once, fun free => ?_⟩, tells⟩
  refine List.Nodup.map_on (fun id here other there => ?_) a.canonicalOrder_nodup
  exact tells free id other (closed.mem_canonicalOrder.mp here) (closed.mem_canonicalOrder.mp there)

theorem ofGrammar_table_names_one_rule : ∃ a,
    ofGrammar ⟨[("S", [{ input := "ab", target := "#" }])]⟩ "S" [] = .ok a ∧
      (a.table tableEpsilon true).names = some "S\t0\n1\t1\n#\t2\n" ∧ ¬a.Clash := by
  let g : Grammar := ⟨[("S", [{ input := "ab", target := "#" }])]⟩
  have compiles : ofGrammar g "S" [] = .ok (build g "S" (.ofDeclared [])) :=
    ofGrammar_eq_ok_iff.mpr ⟨rfl, rfl⟩
  obtain ⟨-, -, listed, -, nodup, -⟩ := ofGrammar_table_names compiles tableEpsilon
  refine ⟨_, compiles, listed.trans ?_, nodup.mp ?_⟩
  · decide +kernel
  · decide +kernel

/-- A set called `1` and the state between two symbols are written alike. -/
theorem table_names_clash :
    let g : Grammar := ⟨[("1", [{ input := "c", target := "#" }]),
      ("S", [{ input := "ab", target := "1" }])]⟩
    ∃ a, ofGrammar g "S" [] = .ok a ∧
      (a.table tableEpsilon true).names = some "S\t0\n1\t1\n1\t2\n#\t3\n" ∧
      (a.table tableEpsilon true).transitions =
        "S\t1\ta\ta\n1\t1\tb\tb\n1\t#\tc\tc\n#\n" := by
  intro g
  refine ⟨build g "S" (.ofDeclared []), ofGrammar_eq_ok_iff.mpr ⟨rfl, rfl⟩, ?_, ?_⟩
  · decide +kernel
  · decide +kernel

end Automaton

end Transducer
