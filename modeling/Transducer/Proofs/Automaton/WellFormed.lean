import Transducer.Automaton.Copy
import Transducer.Automaton.Edit
import Transducer.Proofs.Automaton.Basic
import Transducer.Proofs.State
/-!
The structural invariant of automata, and that the operations on states and on automata keep it. The
final set repeats what the final weights say, and the labels of the groups what those of the arcs
say; each operation has to change both.
-/

namespace Transducer

namespace State

variable {s : State} {count more : Nat} {arc : Arc} {group moved : List Arc} {key l : Label}
  {g : Label × List Arc}

/-- Under a label stand arcs, all of this label and into the first `count` states, and no two of
them are the same. -/
structure Sound (count : Nat) (g : Label × List Arc) : Prop where
  filled : g.2 ≠ []
  labelled : ∀ arc ∈ g.2, arc.label = g.1
  inside : ∀ arc ∈ g.2, arc.target < count
  distinct : g.2.Pairwise fun arc other => arc.sameAs other = false

structure WellFormed (count : Nat) (s : State) : Prop where
  order : Ordered.Increasing (s.groups.map Prod.fst)
  groups : ∀ g ∈ s.groups, Sound count g
  final : s.isFinal = true ∨ s.finalWeight = .infinity

theorem Sound.mono (h : Sound count g) (le : count ≤ more) : Sound more g :=
  ⟨h.filled, h.labelled, fun arc mem => Nat.lt_of_lt_of_le (h.inside arc mem) le, h.distinct⟩

theorem WellFormed.mono (h : s.WellFormed count) (le : count ≤ more) : s.WellFormed more :=
  ⟨h.order, fun g hg => (h.groups g hg).mono le, h.final⟩

theorem wellFormed_blank (count : Nat) (name : Option String) :
    WellFormed count { name } :=
  ⟨.nil, fun _ none => absurd none List.not_mem_nil, .inr rfl⟩

theorem WellFormed.labelled (h : s.WellFormed count) : s.Labelled :=
  fun g hg => (h.groups g hg).labelled

theorem WellFormed.target_lt (h : s.WellFormed count) (mem : arc ∈ s.arcs) :
    arc.target < count := by
  obtain ⟨g, hg, there⟩ := mem_arcs.mp mem
  exact (h.groups g hg).inside arc there

theorem sound_join (h : group = [] ∨ Sound count (l, group)) (label : arc.label = l)
    (inside : arc.target < count) : Sound count (l, Arc.join group arc) := by
  have labels : ∀ other ∈ group, other.label = l := by
    rcases h with rfl | sound
    · simp
    · exact sound.labelled
  have targets : ∀ other ∈ group, other.target < count := by
    rcases h with rfl | sound
    · simp
    · exact sound.inside
  have apart : group.Pairwise fun arc other => arc.sameAs other = false := by
    rcases h with rfl | sound
    · exact .nil
    · exact sound.distinct
  refine ⟨Arc.join_ne_nil group arc, fun other mem => ?_, fun other mem => ?_, ?_⟩
  · rcases Arc.mem_join mem with new | old
    · exact new ▸ label
    · exact labels other old
  · rcases Arc.mem_join mem with new | old
    · exact new ▸ inside
    · exact targets other old
  · rw [Arc.join]
    split
    · exact apart
    · next fresh =>
      refine List.pairwise_append.mpr ⟨apart, List.pairwise_singleton .., fun other mem new hn => ?_⟩
      rw [List.mem_singleton.mp hn]
      cases same : other.sameAs arc with
      | false => rfl
      | true => exact absurd (List.any_eq_true.mpr ⟨other, mem, same⟩) fresh

/-- Arcs moved to another label join its group one by one. -/
theorem sound_foldl_join (h : group = [] ∨ Sound count (l, group)) (some : moved ≠ [])
    (inside : ∀ arc ∈ moved, arc.target < count) :
    Sound count (l, moved.foldl (fun group a => Arc.join group { a with label := l }) group) := by
  induction moved generalizing group with
  | nil => exact absurd rfl some
  | cons arc rest ih =>
    have first : Sound count (l, Arc.join group { arc with label := l }) :=
      sound_join h rfl (inside arc List.mem_cons_self)
    cases rest with
    | nil => exact first
    | cons next rest =>
      exact ih (.inr first) (List.cons_ne_nil next rest)
        fun arc mem => inside arc (List.mem_cons_of_mem _ mem)

theorem WellFormed.alter (h : s.WellFormed count) {change : Option (List Arc) → List Arc}
    (new : Sound count (key, change none))
    (old : ∀ group, (key, group) ∈ s.groups → Sound count (key, change (some group))) :
    WellFormed count { s with groups := Ordered.alter key change s.groups } := by
  refine ⟨Ordered.increasing_alter h.order, fun g hg => ?_, h.final⟩
  rcases Ordered.mem_alter_cases hg with before | rfl | ⟨group, there, rfl⟩
  · exact h.groups g before
  · exact new
  · exact old group there

theorem WellFormed.addArc (h : s.WellFormed count) (inside : arc.target < count) :
    (s.addArc arc).WellFormed count :=
  h.alter (sound_join (.inl rfl) rfl inside) fun _ there =>
    sound_join (.inr (h.groups _ there)) rfl inside

@[simp] theorem finalWeight_addArcs (s : State) (arcs : List Arc) :
    (s.addArcs arcs).finalWeight = s.finalWeight := by
  induction arcs generalizing s with
  | nil => rfl
  | cons arc rest ih => exact ih (s.addArc arc)

@[simp] theorem name_addArcs (s : State) (arcs : List Arc) : (s.addArcs arcs).name = s.name := by
  induction arcs generalizing s with
  | nil => rfl
  | cons arc rest ih => exact ih (s.addArc arc)

theorem WellFormed.addArcs (h : s.WellFormed count) {arcs : List Arc}
    (inside : ∀ arc ∈ arcs, arc.target < count) : (s.addArcs arcs).WellFormed count := by
  induction arcs generalizing s with
  | nil => exact h
  | cons arc rest ih =>
    exact ih (h.addArc (inside arc List.mem_cons_self))
      fun arc mem => inside arc (List.mem_cons_of_mem _ mem)

theorem WellFormed.clear (h : s.WellFormed count) : WellFormed count { s with groups := [] } :=
  ⟨.nil, fun _ none => absurd none List.not_mem_nil, h.final⟩

theorem WellFormed.removeArcsTo (h : s.WellFormed count) (targets : List StateId) :
    (s.removeArcsTo targets).WellFormed count := by
  refine ⟨?_, fun g hg => ?_, h.final⟩
  · refine h.order.sublist ?_
    have keys : (s.groups.map fun g =>
        (g.1, g.2.filter fun a => !targets.contains a.target)).map Prod.fst =
        s.groups.map Prod.fst := by
      rw [List.map_map]
      rfl
    rw [← keys]
    exact List.filter_sublist.map Prod.fst
  · obtain ⟨kept, filled⟩ := List.mem_filter.mp hg
    obtain ⟨⟨l, arcs⟩, there, rfl⟩ := List.mem_map.mp kept
    have sound := h.groups _ there
    refine ⟨fun empty => ?_, fun arc mem => ?_, fun arc mem => ?_, ?_⟩
    · have filled : (!(arcs.filter fun a => !targets.contains a.target).isEmpty) = true := filled
      rw [show (arcs.filter fun a => !targets.contains a.target) = [] from empty] at filled
      exact absurd filled (by decide)
    · exact sound.labelled arc (List.mem_filter.mp mem).1
    · exact sound.inside arc (List.mem_filter.mp mem).1
    · exact sound.distinct.filter _

theorem WellFormed.renameLabel (h : s.WellFormed count) (old new : Label) :
    (s.renameLabel old new).WellFormed count := by
  rw [State.renameLabel]
  cases found : s.groups.lookup old with
  | none => exact h
  | some moved =>
    have there : (old, moved) ∈ s.groups := by
      obtain ⟨front, back, split, -⟩ := List.lookup_eq_some_iff.mp found
      simp [split]
    have sound := h.groups _ there
    have rest : WellFormed count { s with groups := s.groups.filter (·.1 ≠ old) } := by
      refine ⟨h.order.sublist (List.filter_sublist.map Prod.fst), fun g hg => ?_, h.final⟩
      exact h.groups g (List.mem_filter.mp hg).1
    exact rest.alter (sound_foldl_join (.inl rfl) sound.filled sound.inside) fun _ there =>
      sound_foldl_join (.inr (rest.groups _ there)) sound.filled sound.inside

@[simp] theorem isFinal_renameLabel (s : State) (old new : Label) :
    (s.renameLabel old new).isFinal = s.isFinal := by
  rw [State.renameLabel]
  split <;> rfl

theorem isWellFormed_of_wellFormed (h : s.WellFormed count) : s.isWellFormed count = true := by
  rw [isWellFormed, Bool.and_eq_true, List.all_eq_true]
  constructor
  · intro g hg
    have sound := h.groups g hg
    have filled : g.2.isEmpty = false := by simpa using sound.filled
    simp only [filled, Bool.not_false, Bool.true_and, List.all_eq_true, Bool.and_eq_true,
      decide_eq_true_eq]
    exact fun arc mem => ⟨sound.labelled arc mem, sound.inside arc mem⟩
  · rcases h.final with finite | infinite
    · rw [isFinal] at finite
      rw [finite, Bool.true_or]
    · rw [infinite]
      decide

end State

namespace Automaton

variable {a : Automaton} {id source : StateId} {arc : Arc}

structure WellFormed (a : Automaton) : Prop where
  initial : a.initial < a.size
  finals : ∀ id, id ∈ a.finals ↔ a.isFinal id = true
  ascending : Ordered.Increasing a.finals
  states : ∀ id, (a.state id).WellFormed a.size

theorem lt_size_of_isFinal (h : a.isFinal id = true) : id < a.size := by
  apply Nat.lt_of_not_le
  intro missing
  rw [isFinal, state_of_size_le missing] at h
  exact absurd h (by decide)

theorem WellFormed.target_lt (h : a.WellFormed) (mem : arc ∈ (a.state id).arcs) :
    arc.target < a.size :=
  (h.states id).target_lt mem

theorem wellFormed_of_blank {alphabet : Alphabet} {states : Array State} (some : 0 < states.size)
    (blank : ∀ s ∈ states, ∃ name, s = { name }) : WellFormed { alphabet, states } := by
  let a : Automaton := { alphabet, states }
  have named (id : StateId) : ∃ name, a.state id = { name } := by
    rcases a.state_cases id with there | missing
    · exact blank _ there
    · exact ⟨none, missing⟩
  refine ⟨some, fun id => ?_, .nil, fun id => ?_⟩
  · obtain ⟨name, same⟩ := named id
    have final : a.isFinal id = false := by
      rw [isFinal, same]
      rfl
    exact iff_of_false List.not_mem_nil (Bool.eq_false_iff.mp final)
  · obtain ⟨name, same⟩ := named id
    exact same ▸ State.wellFormed_blank _ name

theorem wellFormed_empty : empty.WellFormed :=
  wellFormed_of_blank (by decide) fun s mem => ⟨none, by simpa using mem⟩

theorem WellFormed.withAlphabet (h : a.WellFormed) (alphabet : Alphabet) :
    WellFormed { a with alphabet } :=
  ⟨h.initial, h.finals, h.ascending, h.states⟩

theorem WellFormed.addSymbols (h : a.WellFormed) (symbols : List Symbol) :
    (a.addSymbols symbols).WellFormed :=
  h.withAlphabet _

theorem WellFormed.dropUnusedSymbols (h : a.WellFormed) : a.dropUnusedSymbols.WellFormed := by
  rw [Automaton.dropUnusedSymbols]
  split
  · exact h
  · exact h.withAlphabet _

theorem WellFormed.setInitial (h : a.WellFormed) (lt : id < a.size) :
    WellFormed { a with initial := id } :=
  ⟨lt, h.finals, h.ascending, h.states⟩

theorem WellFormed.addState (h : a.WellFormed) (name : Option String) :
    (a.addState name).WellFormed := by
  have final (id : StateId) : (a.addState name).isFinal id = a.isFinal id := by
    rw [isFinal, isFinal, state_addState]
    split
    · next last =>
      rw [last, state_of_size_le (Nat.le_refl _)]
      rfl
    · rfl
  refine ⟨?_, fun id => ?_, h.ascending, fun id => ?_⟩
  · rw [size_addState]
    exact Nat.lt_succ_of_lt h.initial
  · rw [final]
    exact h.finals id
  · rw [size_addState, state_addState]
    split
    · exact State.wellFormed_blank _ _
    · exact (h.states id).mono (Nat.le_succ _)

@[simp] theorem size_modify (a : Automaton) (id : StateId) (change : State → State) :
    (a.modify id change).size = a.size := Array.size_modify

/-- A write to a state has to keep whether the final set names it. -/
theorem WellFormed.modify (h : a.WellFormed) (lt : id < a.size) {change : State → State}
    {finals : List StateId} (new : (change (a.state id)).WellFormed a.size)
    (named : ∀ n, n ∈ finals ↔
      if n = id then (change (a.state id)).isFinal = true else n ∈ a.finals)
    (ascending : Ordered.Increasing finals) :
    WellFormed { a.modify id change with finals } := by
  have states (n : StateId) : Automaton.state { a.modify id change with finals } n =
      if n = id then change (a.state id) else a.state n := state_modify lt change n
  have size : Automaton.size { a.modify id change with finals } = a.size := size_modify a id change
  refine ⟨size ▸ h.initial, fun n => ?_, ascending, fun n => ?_⟩
  · rw [isFinal, states]
    refine (named n).trans ?_
    split
    · exact Iff.rfl
    · exact h.finals n
  · rw [states, size]
    split
    · exact new
    · exact h.states n

theorem WellFormed.modifyArcs (h : a.WellFormed) (lt : id < a.size) {change : State → State}
    (new : (change (a.state id)).WellFormed a.size)
    (same : (change (a.state id)).isFinal = (a.state id).isFinal) :
    (a.modify id change).WellFormed := by
  refine h.modify lt new (fun n => ?_) h.ascending
  split
  · next here =>
    rw [same, here]
    exact h.finals id
  · exact Iff.rfl

theorem WellFormed.addArc (h : a.WellFormed) (lt : source < a.size) (inside : arc.target < a.size) :
    (a.addArc source arc).WellFormed :=
  h.modifyArcs lt ((h.states source).addArc inside) rfl

theorem WellFormed.unsetFinal (h : a.WellFormed) (lt : id < a.size) :
    (a.unsetFinal id).WellFormed := by
  have new := h.states id
  refine h.modify lt ⟨new.order, new.groups, .inr rfl⟩ (fun n => ?_) (h.ascending.filter _)
  have none : State.isFinal { a.state id with finalWeight := .infinity } = false := rfl
  have same : (a.modify id fun s => { s with finalWeight := .infinity }).finals = a.finals := rfl
  rw [List.mem_filter, none, same]
  split
  · next here => simp [here]
  · next other => simp [other]

theorem WellFormed.setFinal (h : a.WellFormed) (lt : id < a.size) (w : Weight) :
    (a.setFinal id w).WellFormed := by
  rw [Automaton.setFinal]
  split
  · next finite =>
    have new := h.states id
    refine h.modify lt ⟨new.order, new.groups, .inl finite⟩ (fun n => ?_)
      (Ordered.increasing_insert h.ascending)
    have final : State.isFinal { a.state id with finalWeight := w } = true := finite
    have same : (a.modify id fun s => { s with finalWeight := w }).finals = a.finals := rfl
    rw [Ordered.mem_insert, final, same]
    split
    · next here => simp [here]
    · next other => simp [other]
  · exact h.unsetFinal lt

theorem WellFormed.mapStates (h : a.WellFormed) {change : State → State}
    (blank : change {} = {}) (final : ∀ s, (change s).finalWeight = s.finalWeight)
    (new : ∀ s, s.WellFormed a.size → (change s).WellFormed a.size) :
    WellFormed { a with states := a.states.map change } := by
  have size : Automaton.size { a with states := a.states.map change } = a.size := Array.size_map
  refine ⟨size ▸ h.initial, fun id => ?_, h.ascending, fun id => ?_⟩
  · rw [isFinal, State.isFinal, state_mapStates blank, final]
    exact h.finals id
  · rw [size, state_mapStates blank]
    exact new _ (h.states id)

theorem WellFormed.mapArcs (h : a.WellFormed) (label : Label → Weight → Label)
    (weight : Label → Weight → Weight) : (a.mapArcs label weight).WellFormed := by
  refine h.mapStates rfl (fun s => State.finalWeight_addArcs ..) fun s hs => hs.clear.addArcs ?_
  intro arc mem
  obtain ⟨old, there, rfl⟩ := List.mem_map.mp mem
  have inside : old.target < a.size := hs.target_lt there
  exact inside

theorem WellFormed.filterArcs (h : a.WellFormed) (keep : Label → Bool) :
    (a.filterArcs keep).WellFormed := by
  refine h.mapStates rfl (fun s => State.finalWeight_addArcs ..) fun s hs => hs.clear.addArcs ?_
  intro arc mem
  exact hs.target_lt (List.mem_filter.mp mem).1

theorem WellFormed.brokenInvariant?_eq_none (h : a.WellFormed) : a.brokenInvariant? = none := by
  have initial : a.contains a.initial = true := decide_eq_true h.initial
  have finals : (a.finals.all fun id => a.contains id && a.isFinal id) = true := by
    rw [List.all_eq_true]
    intro id mem
    have final := (h.finals id).mp mem
    rw [final, Bool.and_true]
    exact decide_eq_true (lt_size_of_isFinal final)
  have weights : (a.ids.all fun id => a.isFinal id = a.finals.contains id) = true := by
    rw [List.all_eq_true]
    intro id _
    rw [decide_eq_true_eq, Bool.eq_iff_iff, List.contains_iff_mem]
    exact (h.finals id).symm
  have tables : (a.states.all (·.isWellFormed a.size)) = true := by
    rw [Array.all_eq_true_iff_forall_mem]
    intro s mem
    obtain ⟨id, lt, rfl⟩ := Array.mem_iff_getElem.mp mem
    have there : a.state id = a.states[id] := by
      rw [state_eq, Array.getElem?_eq_getElem lt]
      rfl
    exact there ▸ State.isWellFormed_of_wellFormed (h.states id)
  rw [brokenInvariant?, initial, finals, weights, tables]
  rfl

end Automaton

end Transducer
