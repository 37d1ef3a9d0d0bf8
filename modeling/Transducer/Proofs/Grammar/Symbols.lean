import Transducer.Proofs.Alphabet
import Transducer.Proofs.Grammar.Language
/-!
What a compiled grammar is made of: its arcs have labels of its rules, its alphabet is the symbols
of their sides, and no set has more arcs than there are rules.
-/

namespace Transducer

theorem State.length_arcs_addArc_le (s : State) (arc : Arc) :
    (s.addArc arc).arcs.length ≤ s.arcs.length + 1 := by
  rcases s.arcs_addArc_cases arc with added | ⟨same, -⟩
  · exact Nat.le_of_eq added.length_eq
  · rw [same]
    exact Nat.le_succ _

namespace Automaton

variable {a b : Automaton} {names : List String} {spelling : Spelling} {source target id : StateId}
  {w : Weight} {labels : List Label} {arc new : Arc} {s : Symbol} {r : Rule} {g : Grammar}
  {start : String} {more : List (String × Rule)}

theorem mem_arcs_addArc (h : arc ∈ ((a.addArc source new).state id).arcs) :
    arc = new ∨ arc ∈ (a.state id).arcs := by
  rw [state_eq, addArc, modify, Array.getElem?_modify] at h
  rw [state_eq]
  split at h
  · cases there : a.states[id]? with
    | none =>
      rw [there] at h
      exact absurd h List.not_mem_nil
    | some s =>
      rw [there] at h
      exact State.mem_addArc h
  · exact .inr h

theorem mem_arcs_addPath (h : arc ∈ ((a.addPath source target w labels).state id).arcs) :
    arc.label ∈ labels ∨ arc ∈ (a.state id).arcs := by
  induction labels generalizing a source with
  | nil => exact .inr h
  | cons l rest ih =>
    cases rest with
    | nil =>
      rcases mem_arcs_addArc h with rfl | old
      · exact .inl List.mem_cons_self
      · exact .inr old
    | cons _ _ =>
      rcases ih h with later | before
      · exact .inl (List.mem_cons_of_mem _ later)
      · rcases mem_arcs_addArc before with rfl | old
        · exact .inl List.mem_cons_self
        · rw [state_addState] at old
          split at old
          · exact absurd old List.not_mem_nil
          · exact .inr old

theorem alphabet_addPath (a : Automaton) (source target : StateId) (w : Weight)
    (labels : List Label) : (a.addPath source target w labels).alphabet = a.alphabet := by
  induction labels generalizing a source with
  | nil => rfl
  | cons l rest ih =>
    cases rest with
    | nil => rfl
    | cons _ _ => exact ih _ _

theorem addRule_eq (spelling : Spelling) (source target : StateId) (a : Automaton) (r : Rule) :
    addRule spelling source target a r =
      (a.addSymbols (((r.sides spelling).1 ++ (r.sides spelling).2).filter (· ≠ epsilon))).addPath
        source target r.weight (r.labels spelling) := by
  rw [← Rule.align_sides]
  rfl

theorem mem_arcs_addRule (h : arc ∈ ((addRule spelling source target a r).state id).arcs) :
    arc.label ∈ r.labels spelling ∨ arc ∈ (a.state id).arcs := by
  rw [addRule_eq] at h
  rcases mem_arcs_addPath h with label | old
  · exact .inl label
  · exact .inr old

theorem mem_alphabet_addRule : s ∈ (addRule spelling source target a r).alphabet ↔
    s ∈ a.alphabet ∨ s ≠ epsilon ∧ s ∈ (r.sides spelling).1 ++ (r.sides spelling).2 := by
  rw [addRule_eq, alphabet_addPath]
  refine Alphabet.mem_insertAll.trans (or_congr_right ?_)
  rw [List.mem_filter, decide_eq_true_eq, and_comm]

theorem mem_arcs_addRules (h : arc ∈ ((a.addRules names spelling more).state id).arcs) :
    (∃ p ∈ more, arc.label ∈ p.2.labels spelling) ∨ arc ∈ (a.state id).arcs := by
  induction more generalizing a with
  | nil => exact .inr h
  | cons p rest ih =>
    rcases ih h with ⟨p', mem, label⟩ | before
    · exact .inl ⟨p', List.mem_cons_of_mem _ mem, label⟩
    · rcases mem_arcs_addRule before with label | old
      · exact .inl ⟨p, List.mem_cons_self, label⟩
      · exact .inr old

theorem mem_alphabet_addRules : s ∈ (a.addRules names spelling more).alphabet ↔ s ∈ a.alphabet ∨
    s ≠ epsilon ∧ ∃ p ∈ more, s ∈ (p.2.sides spelling).1 ++ (p.2.sides spelling).2 := by
  induction more generalizing a with
  | nil => simp [addRules]
  | cons p rest ih =>
    rw [addRules_cons, ih, mem_alphabet_addRule, List.exists_mem_cons_iff]
    tauto

theorem length_arcs_addRules_le (room : names.length ≤ a.size) (known : ∀ p ∈ more, p.1 ∈ names)
    (hid : id < names.length) : ((a.addRules names spelling more).state id).arcs.length ≤
      (a.state id).arcs.length + more.length := by
  induction more generalizing a with
  | nil => exact Nat.le_refl _
  | cons p rest ih =>
    obtain ⟨here, later⟩ := List.forall_mem_cons.mp known
    obtain ⟨first, step⟩ := exists_threaded_addRule spelling room
      (List.idxOf_lt_length_of_mem here) (names.idxOf p.2.target) p.2
    have one : ((addRule spelling (names.idxOf p.1) (names.idxOf p.2.target) a p.2).state
        id).arcs.length ≤ (a.state id).arcs.length + 1 := by
      by_cases same : id = names.idxOf p.1
      · rw [same, step.begins]
        exact State.length_arcs_addArc_le _ _
      · rw [step.frame id (Nat.lt_of_lt_of_le hid room) same]
        exact Nat.le_succ _
    have all := ih (Nat.le_trans room step.size) later
    rw [addRules_cons, List.length_cons]
    omega

theorem mem_arcs_build (h : arc ∈ ((build g start spelling).state id).arcs) :
    ∃ p ∈ g.usedRules, arc.label ∈ p.2.labels spelling := by
  rw [build_eq] at h
  rcases mem_arcs_addRules h with found | old
  · exact found
  · rw [arcs_ofNames (g.final_mem_stateNames start)] at old
    exact absurd old List.not_mem_nil

theorem mem_alphabet_build : s ∈ (build g start spelling).alphabet ↔
    s ≠ epsilon ∧ ∃ p ∈ g.usedRules, s ∈ (p.2.sides spelling).1 ++ (p.2.sides spelling).2 := by
  have bare : (ofNames (g.stateNames start)).alphabet = {} := alphabet_setFinal ..
  rw [build_eq, mem_alphabet_addRules, bare]
  exact or_iff_right List.not_mem_nil

theorem length_arcs_build_le (hid : id < (g.stateNames start).length) :
    ((build g start spelling).state id).arcs.length ≤ g.usedRules.length := by
  have final := g.final_mem_stateNames start
  rw [build_eq]
  refine (length_arcs_addRules_le (compiled_ofNames final spelling).size (fun p hp => ?_) hid).trans
    ?_
  · exact (Grammar.mem_usedRules.mp hp).2.mem_stateNames start
  · rw [arcs_ofNames final, List.length_nil, Nat.zero_add]

end Automaton

end Transducer
