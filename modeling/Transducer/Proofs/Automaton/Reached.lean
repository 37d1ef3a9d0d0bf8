import Transducer.Proofs.Apply.Order
import Transducer.Proofs.Automaton.Edit
import Transducer.Proofs.Automaton.Renumbered
import Transducer.Proofs.Grammar.Language
import Transducer.Proofs.Words.Shortlex
/-!
Automata that are reached from a constructor by any operations. All of them keep the structural
invariant, so no lookup of a state, in a walk, a search or an export, misses the states there are.
-/

namespace Transducer

namespace Automaton

variable {a b : Automaton} {id source target : StateId} {labels : List Label} {g : Grammar}
  {names : List String}

theorem wellFormed_ofLabel (l : Label) (w : Weight) : (ofLabel l w).WellFormed := by
  rw [ofLabel]
  split
  · exact wellFormed_empty.setFinal (by decide) w
  · have two := (wellFormed_empty.addSymbols l.symbols).addState none
    refine (two.setFinal Nat.one_lt_two w).addArc ?_ ?_
    · rw [size_setFinal]
      exact Nat.zero_lt_two
    · rw [size_setFinal]
      exact Nat.one_lt_two

theorem wellFormed_ofRanges (ranges : List (Char × Char)) (complement : Bool) :
    (ofRanges ranges complement).WellFormed := by
  have frame (symbols : List Symbol) :
      (((empty.addState none).setFinal 1 .zero).addSymbols symbols).WellFormed ∧
        (((empty.addState none).setFinal 1 .zero).addSymbols symbols).size = 2 :=
    ⟨((wellFormed_empty.addState none).setFinal (by decide) _).addSymbols symbols, rfl⟩
  have addFirst {a : Automaton} (s : Symbol) (h : a.WellFormed) (two : a.size = 2) :
      (a.addArc 0 ⟨1, .identity s, .zero⟩).WellFormed :=
    h.addArc (Nat.lt_of_lt_of_eq Nat.zero_lt_two two.symm)
      (Nat.lt_of_lt_of_eq Nat.one_lt_two two.symm)
  have arcs (labels : List Symbol) (a : Automaton) (h : a.WellFormed) (two : a.size = 2) :
      (labels.foldl (fun a s => a.addArc 0 ⟨1, .identity s, .zero⟩) a).WellFormed := by
    induction labels generalizing a with
    | nil => exact h
    | cons s rest ih =>
      exact ih _ (addFirst s h two) ((size_addArc ..).trans two)
  obtain ⟨h, two⟩ := frame (ranges.flatMap fun range =>
    (charactersBetween range.1 range.2).map Char.toString)
  rw [ofRanges]
  split
  · exact (addFirst wildcard h two).addSymbols _
  · exact arcs _ _ h two

theorem WellFormed.addPath (h : a.WellFormed) (hs : source < a.size) (ht : target < a.size)
    (w : Weight) (labels : List Label) :
    (a.addPath source target w labels).WellFormed ∧
      a.size ≤ (a.addPath source target w labels).size := by
  induction labels generalizing a source with
  | nil => exact ⟨h, Nat.le_refl _⟩
  | cons l rest ih =>
    cases rest with
    | nil => exact ⟨h.addArc hs ht, Nat.le_of_eq (size_addArc ..).symm⟩
    | cons l' rest =>
      let grown := (a.addState none).addArc source ⟨a.size, l, .zero⟩
      have size : grown.size = a.size + 1 := (size_addArc ..).trans (size_addState ..)
      have one : grown.WellFormed := by
        refine (h.addState none).addArc ?_ ?_
        · rw [size_addState]
          exact Nat.lt_succ_of_lt hs
        · rw [size_addState]
          exact Nat.lt_succ_self _
      obtain ⟨all, le⟩ := ih one (Nat.lt_of_lt_of_eq (Nat.lt_succ_self _) size.symm)
        (Nat.lt_of_lt_of_eq (Nat.lt_succ_of_lt ht) size.symm)
      exact ⟨all, Nat.le_trans (size ▸ Nat.le_succ _) le⟩

theorem wellFormed_ofNames (final : finalLexicon ∈ names) : (ofNames names).WellFormed := by
  have size : Automaton.size { states := (names.map State.named).toArray } = names.length := by
    simp [Automaton.size]
  have last := List.idxOf_lt_length_of_mem final
  have blank : WellFormed { states := (names.map State.named).toArray } := by
    refine wellFormed_of_blank (Nat.lt_of_lt_of_eq (List.length_pos_of_mem final) size.symm) ?_
    intro s mem
    obtain ⟨name, -, rfl⟩ := List.mem_map.mp (List.mem_toArray.mp mem)
    exact ⟨_, rfl⟩
  exact blank.setFinal (Nat.lt_of_lt_of_eq last size.symm) .zero

theorem WellFormed.addRules {spelling : Spelling} {more : List (String × Rule)} (h : a.WellFormed)
    (room : names.length ≤ a.size) (known : ∀ p ∈ more, p.1 ∈ names ∧ p.2.target ∈ names) :
    (a.addRules names spelling more).WellFormed := by
  induction more generalizing a with
  | nil => exact h
  | cons p rest ih =>
    obtain ⟨⟨source, target⟩, later⟩ := List.forall_mem_cons.mp known
    have inside {name : String} (mem : name ∈ names) : names.idxOf name < a.size :=
      Nat.lt_of_lt_of_le (List.idxOf_lt_length_of_mem mem) room
    obtain ⟨step, le⟩ := (h.addSymbols _).addPath (inside source) (inside target) p.2.weight _
    exact ih step (Nat.le_trans room le) later

theorem wellFormed_ofGrammar {start : String} {multichar : List Symbol}
    (h : ofGrammar g start multichar = .ok a) : a.WellFormed := by
  obtain ⟨checked, rfl⟩ := ofGrammar_eq_ok_iff.mp h
  have final := g.final_mem_stateNames start
  rw [build_eq]
  refine (wellFormed_ofNames final).addRules
    (compiled_ofNames final (.ofDeclared multichar)).size fun p hp => ⟨?_, ?_⟩
  · exact (Grammar.mem_usedRules.mp hp).2.mem_stateNames start
  · exact Grammar.mem_of_declares (Grammar.declares_target checked hp) start

/-- The states of a numbering are there, and they and the targets of their arcs have numbers. -/
def Covers (a : Automaton) (numbering : Numbering) : Prop :=
  ∀ id ∈ numbering.order, id < a.size ∧
    ∀ n ∈ id :: a.sortedTargets id, ∃ k < numbering.order.length, numbering.number? n = some k

theorem covers_ofOrder {order : List StateId} (nodup : order.Nodup)
    (bound : ∀ id ∈ order, id < a.size)
    (closed : ∀ id ∈ order, ∀ n ∈ a.sortedTargets id, n ∈ order) :
    a.Covers (.ofOrder a.size order) := by
  intro id mem
  refine ⟨bound id mem, fun n hn => ⟨order.idxOf n, ?_⟩⟩
  have there : n ∈ order := by
    rcases List.mem_cons.mp hn with rfl | target
    · exact mem
    · exact closed id mem n target
  rw [Numbering.number?_ofOrder nodup bound, if_pos there]
  exact ⟨List.idxOf_lt_length_of_mem there, rfl⟩

/-- The states that walks and searches go through and exports list are there. -/
structure InBounds (a : Automaton) : Prop where
  walk (k : Nat) : ∀ w ∈ (Move.run (Walk.step a) (Walk.start a) k).1, ∀ p ∈ w.toList,
    p.state < a.size
  search (d : Direction) (o : ApplyOptions) (word : String) (k : Nat) :
    ∀ s ∈ (Move.run (Search.step ⟨a, d, o⟩) (Search.start ⟨a, d, o⟩ word) k).1,
      ∀ p ∈ s.queue.toList, ∀ id ∈ p.state, id < a.size
  finals : ∀ id ∈ a.finals, id < a.size
  canonical : a.Covers a.canonicalNumbering
  complete : a.Covers a.completeNumbering

theorem WellFormed.inBounds (h : a.WellFormed) : a.InBounds where
  walk k w hw p hp := by
    obtain ⟨taken, waiting, walked, -, queued⟩ := Walk.run_walked a k
    rw [Option.mem_def.mp hw] at queued
    rw [queued.2] at hp
    obtain ⟨legs, mem, rfl⟩ := List.mem_map.mp hp
    have path := walked.ahead.subset (List.mem_append_right _ mem)
    exact h.route_lt (mem_pathsUpTo.mp path).1 h.initial
  search d o word k s hs p hp id here := by
    rw [Search.run_step] at hs
    obtain ⟨-, standing⟩ := Move.run_keeps (Search.standing_start ⟨a, d, o⟩ word)
      (fun s _ kept => kept.keeps (Search.settles _ s)) (fun _ _ _ => trivial) k
    obtain ⟨trace, sound, entry⟩ := (standing s hs).queue p hp
    cases trace with
    | stopped legs =>
      rw [entry] at here
      cases here
    | going legs =>
      rw [entry] at here
      cases here
      obtain ⟨-, route⟩ := sound
      exact h.route_lt route h.initial
  finals id mem := lt_size_of_isFinal ((h.finals id).mp mem)
  canonical := covers_ofOrder a.canonicalOrder_nodup
    (fun _ mem => lt_size_of_mem_canonicalOrder mem)
    fun _ mem _ target => h.target_mem_canonicalOrder mem target
  complete := covers_ofOrder a.completeOrder_nodup (fun _ mem => mem_completeOrder.mp mem)
    fun _ _ _ target => mem_completeOrder.mpr (h.target_lt_size target)

/-- What the constructors make and operations leave, those that were refused among them. -/
inductive Reached : Automaton → Prop
  | empty : Reached empty
  | ofLabel (l : Label) (w : Weight) : Reached (ofLabel l w)
  | ofRanges (ranges : List (Char × Char)) (complement : Bool) :
      Reached (ofRanges ranges complement)
  | ofGrammar {g : Grammar} {start : String} {multichar : List Symbol} {a : Automaton} :
      ofGrammar g start multichar = .ok a → Reached a
  | ofStrings {strings : List String} {multichar : List Symbol} {a : Automaton} :
      ofStrings strings multichar = .ok a → Reached a
  | edited {a : Automaton} (e : Edit) : Reached a → Reached (e.run a).2
  | mapped {a : Automaton} (label : Label → Weight → Label) (weight : Label → Weight → Weight) :
      Reached a → Reached (a.mapArcs label weight)
  | filtered {a : Automaton} (keep : Label → Bool) : Reached a → Reached (a.filterArcs keep)
  | replacing {a b : Automaton} : Reached a → Reached b → Reached (a.replaceWith b).1
  | replaced {a b : Automaton} : Reached a → Reached b → Reached (a.replaceWith b).2
  | renumbered {a : Automaton} : Reached a → Reached a.renumbered

theorem wellFormed_ofStrings {strings : List String} {multichar : List Symbol}
    (h : ofStrings strings multichar = .ok a) : a.WellFormed := by
  rw [ofStrings] at h
  cases compiled : ofGrammar (.ofList [(stringsLexicon,
      (distinctSpellings (.ofDeclared multichar) strings).map
        fun s => ({ input := s, target := finalLexicon } : Rule))]) stringsLexicon multichar with
  | error e =>
    rw [compiled] at h
    cases h
  | ok b =>
    rw [compiled] at h
    cases h
    exact (wellFormed_ofGrammar compiled).renumbered

theorem Reached.wellFormed (h : Reached a) : a.WellFormed := by
  induction h with
  | empty => exact wellFormed_empty
  | ofLabel l w => exact wellFormed_ofLabel l w
  | ofRanges ranges complement => exact wellFormed_ofRanges ranges complement
  | ofGrammar compiles => exact wellFormed_ofGrammar compiles
  | ofStrings compiles => exact wellFormed_ofStrings compiles
  | edited e _ ih => exact ih.run e
  | mapped label weight _ ih => exact ih.mapArcs label weight
  | filtered keep _ ih => exact ih.filterArcs keep
  | replacing _ _ _ ih => exact ih
  | replaced _ _ ih _ => exact ih
  | renumbered _ ih => exact ih.renumbered

/-- Whatever operations lead to an automaton, its structural invariant holds: the checks find
nothing, nothing is looked up that is not there, and a further change goes through just when the
states that it names are there; otherwise it changes nothing. -/
theorem reached_invariant (h : Reached a) :
    a.WellFormed ∧ a.brokenInvariant? = none ∧ a.InBounds ∧ ∀ e : Edit,
      ((∀ need ∈ e.needs, need.1 < a.size) → e.run a = (.ok (), e.written a)) ∧
      ((∃ need ∈ e.needs, a.size ≤ need.1) →
        ∃ need ∈ e.needs, a.size ≤ need.1 ∧ e.run a = (.error need.2, a)) := by
  have wellFormed := h.wellFormed
  refine ⟨wellFormed, wellFormed.brokenInvariant?_eq_none, wellFormed.inBounds, fun e => ⟨?_, ?_⟩⟩
  · intro there
    rw [Edit.run_eq, Edit.missing?_eq_none_iff.mpr there]
  · intro ⟨need, mem, missing⟩
    cases first : e.missing? a with
    | none => exact absurd (Edit.missing?_eq_none_iff.mp first need mem) (Nat.not_lt.mpr missing)
    | some other =>
      obtain ⟨named, gone⟩ := Edit.mem_of_missing? first
      exact ⟨other, named, gone, by rw [Edit.run_eq, first]⟩

/-- A state with a weight that is no number, after an arc into a missing state has been refused. -/
theorem reached_invariant_refused :
    let a := (Edit.addArc 0 ⟨7, .identity "b", .zero⟩).run
      (ofLabel (.pair "a" "b") ⟨0x7FF8000000000000⟩)
    a = (.error (.missingTarget 7), ofLabel (.pair "a" "b") ⟨0x7FF8000000000000⟩) ∧
      Reached a.2.renumbered ∧ a.2.renumbered.WellFormed := by
  intro a
  have reached : Reached a.2.renumbered := .renumbered (.edited _ (.ofLabel _ _))
  exact ⟨by decide +kernel, reached, (reached_invariant reached).1⟩

end Automaton

end Transducer
