import Transducer.Proofs.Ordered
import Transducer.State
/-!
The order of labels is that of their lists of symbols, so it is total and tells labels apart. The
arcs that a state has after one is added are those it had, and that arc or one that is the same.
-/

namespace Transducer

namespace Label

theorem symbols_injective {l m : Label} (h : l.symbols = m.symbols) : l = m := by
  cases l <;> cases m <;> simp_all [symbols]

instance : Std.TransOrd Label where
  eq_swap {l m} := by
    rw [compare_eq_compare_symbols, compare_eq_compare_symbols m]
    exact Std.OrientedCmp.eq_swap
  isLE_trans {l m n} := by
    simp only [compare_eq_compare_symbols]
    exact Std.TransCmp.isLE_trans

instance : Std.LawfulEqOrd Label where
  compare_self {l} := by
    rw [compare_eq_compare_symbols]
    exact Std.ReflCmp.compare_self
  eq_of_compare {l m} h := by
    rw [compare_eq_compare_symbols] at h
    exact symbols_injective (Std.LawfulEqOrd.eq_of_compare h)

end Label

variable {s : State} {arc other : Arc} {group : List Arc}

namespace Arc

theorem mem_join (h : other ∈ join group arc) : other = arc ∨ other ∈ group := by
  rw [join] at h
  split at h
  · exact .inr h
  · rcases List.mem_append.mp h with old | new
    · exact .inr old
    · exact .inl (List.mem_singleton.mp new)

theorem subset_join (group : List Arc) (arc : Arc) : group ⊆ join group arc := by
  rw [join]
  split
  · exact List.Subset.refl group
  · exact List.subset_append_left group [arc]

theorem exists_mem_join (group : List Arc) (arc : Arc) :
    ∃ other ∈ join group arc, other = arc ∨ other.sameAs arc = true := by
  rw [join]
  split
  · next there =>
    obtain ⟨other, mem, same⟩ := List.any_eq_true.mp there
    exact ⟨other, mem, .inr same⟩
  · exact ⟨arc, by simp, .inl rfl⟩

theorem join_ne_nil (group : List Arc) (arc : Arc) : join group arc ≠ [] := by
  obtain ⟨other, mem, -⟩ := exists_mem_join group arc
  exact List.ne_nil_of_mem mem

end Arc

namespace State

/-- The arcs that stand under a label have it. -/
def Labelled (s : State) : Prop := ∀ g ∈ s.groups, ∀ arc ∈ g.2, arc.label = g.1

theorem mem_arcs : arc ∈ s.arcs ↔ ∃ g ∈ s.groups, arc ∈ g.2 := List.mem_flatMap

theorem labelled_empty (name : Option String) : Labelled { name } :=
  fun _ none => absurd none List.not_mem_nil

@[simp] theorem finalWeight_addArc (s : State) (arc : Arc) :
    (s.addArc arc).finalWeight = s.finalWeight := rfl

/-- The groups after an arc is added: its own has been joined, the others are as before. -/
theorem groups_addArc_cases {g : Label × List Arc} (h : g ∈ (s.addArc arc).groups) :
    g ∈ s.groups ∨ ∃ group, g = (arc.label, Arc.join group arc) ∧
      (group = [] ∨ (arc.label, group) ∈ s.groups) := by
  rcases Ordered.mem_alter_cases h with old | new | ⟨group, there, joined⟩
  · exact .inl old
  · exact .inr ⟨[], new, .inl rfl⟩
  · exact .inr ⟨group, joined, .inr there⟩

theorem mem_addArc (h : other ∈ (s.addArc arc).arcs) : other = arc ∨ other ∈ s.arcs := by
  obtain ⟨g, hg, mem⟩ := mem_arcs.mp h
  rcases groups_addArc_cases hg with old | ⟨group, rfl, before⟩
  · exact .inr (mem_arcs.mpr ⟨g, old, mem⟩)
  · rcases Arc.mem_join mem with new | old
    · exact .inl new
    · rcases before with rfl | there
      · exact absurd old List.not_mem_nil
      · exact .inr (mem_arcs.mpr ⟨_, there, old⟩)

theorem mem_addArc_of_mem (h : other ∈ s.arcs) (arc : Arc) : other ∈ (s.addArc arc).arcs := by
  obtain ⟨g, hg, mem⟩ := mem_arcs.mp h
  obtain ⟨front, back, -, found⟩ := Ordered.alter_split arc.label
    (fun found => Arc.join (found.getD []) arc) s.groups
  rw [mem_arcs, addArc]
  rcases found with ⟨group, old, new⟩ | ⟨-, old, new⟩
  · rw [old, List.mem_append, List.mem_cons] at hg
    simp only [new, List.mem_append, List.mem_cons]
    rcases hg with front | rfl | back
    · exact ⟨g, .inl front, mem⟩
    · exact ⟨_, .inr (.inl rfl), Arc.subset_join group arc mem⟩
    · exact ⟨g, .inr (.inr back), mem⟩
  · rw [old, List.mem_append] at hg
    simp only [new, List.mem_append, List.mem_cons]
    rcases hg with front | back
    · exact ⟨g, .inl front, mem⟩
    · exact ⟨g, .inr (.inr back), mem⟩

theorem exists_group_addArc (s : State) (arc : Arc) :
    ∃ group, (arc.label, Arc.join group arc) ∈ (s.addArc arc).groups := by
  obtain ⟨front, back, -, found⟩ := Ordered.alter_split arc.label
    (fun found => Arc.join (found.getD []) arc) s.groups
  rw [addArc]
  rcases found with ⟨group, -, new⟩ | ⟨-, -, new⟩
  · exact ⟨group, by simp [new]⟩
  · exact ⟨[], by simp [new]⟩

theorem Labelled.addArc (h : s.Labelled) (arc : Arc) : (s.addArc arc).Labelled := by
  intro g hg other mem
  rcases groups_addArc_cases hg with old | ⟨group, rfl, before⟩
  · exact h g old other mem
  · rcases Arc.mem_join mem with new | old
    · rw [new]
    · rcases before with rfl | there
      · exact absurd old List.not_mem_nil
      · exact h _ there other old

/-- After adding an arc the state has it, or one that is the same under its label. -/
theorem exists_mem_addArc (h : s.Labelled) (arc : Arc) : ∃ other ∈ (s.addArc arc).arcs,
    other = arc ∨ other.label = arc.label ∧ other.sameAs arc = true := by
  obtain ⟨group, there⟩ := s.exists_group_addArc arc
  obtain ⟨other, mem, same⟩ := Arc.exists_mem_join group arc
  have label : other.label = arc.label := h.addArc arc _ there other mem
  exact ⟨other, mem_arcs.mpr ⟨_, there, mem⟩, same.imp_right fun same => ⟨label, same⟩⟩

/-- The arc is added to those there are, unless one of them leads to its target already. -/
theorem arcs_addArc_cases (s : State) (arc : Arc) : (s.addArc arc).arcs.Perm (arc :: s.arcs) ∨
    (s.addArc arc).arcs = s.arcs ∧ ∃ other ∈ s.arcs, other.target = arc.target := by
  obtain ⟨front, back, -, found⟩ := Ordered.alter_split arc.label
    (fun found => Arc.join (found.getD []) arc) s.groups
  rw [addArc, arcs, arcs]
  rcases found with ⟨group, old, new⟩ | ⟨-, old, new⟩
  · rw [new, old, Option.getD_some, Arc.join]
    split
    · next there =>
      obtain ⟨other, mem, same⟩ := List.any_eq_true.mp there
      rw [Arc.sameAs, Bool.and_eq_true, decide_eq_true_eq] at same
      refine .inr ⟨rfl, other, ?_, same.1⟩
      rw [List.flatMap_append, List.flatMap_cons]
      exact List.mem_append_right _ (List.mem_append_left _ mem)
    · have moved : (front.flatMap Prod.snd ++ group ++ arc :: back.flatMap Prod.snd).Perm
          (arc :: (front.flatMap Prod.snd ++ group ++ back.flatMap Prod.snd)) := List.perm_middle
      exact .inl (by simpa using moved)
  · refine .inl ?_
    rw [new, old]
    simp only [List.flatMap_append, List.flatMap_cons]
    exact List.perm_middle

theorem outDegree_addArc_of_blank {s : State} (blank : s.outDegree = 0) (arc : Arc) :
    (s.addArc arc).outDegree = 1 := by
  have none : s.arcs = [] := List.length_eq_zero_iff.mp blank
  rcases s.arcs_addArc_cases arc with added | ⟨-, other, mem, -⟩
  · rw [outDegree, added.length_eq, none]
    rfl
  · rw [none] at mem
    exact absurd mem List.not_mem_nil

theorem mem_addArcs {arcs : List Arc} (h : other ∈ (s.addArcs arcs).arcs) :
    other ∈ arcs ∨ other ∈ s.arcs := by
  induction arcs generalizing s with
  | nil => exact .inr h
  | cons arc rest ih =>
    rcases ih h with later | before
    · exact .inl (List.mem_cons_of_mem arc later)
    · rcases mem_addArc before with rfl | old
      · exact .inl List.mem_cons_self
      · exact .inr old

theorem mem_addArcs_of_mem (h : other ∈ s.arcs) (arcs : List Arc) :
    other ∈ (s.addArcs arcs).arcs := by
  induction arcs generalizing s with
  | nil => exact h
  | cons arc rest ih => exact ih (mem_addArc_of_mem h arc)

/-- After adding arcs the state has each of them, or one that is the same under its label. -/
theorem exists_mem_addArcs {arcs : List Arc} (h : s.Labelled) (mem : arc ∈ arcs) :
    ∃ other ∈ (s.addArcs arcs).arcs,
      other = arc ∨ other.label = arc.label ∧ other.sameAs arc = true := by
  induction arcs generalizing s with
  | nil => exact absurd mem List.not_mem_nil
  | cons first rest ih =>
    rcases List.mem_cons.mp mem with rfl | later
    · obtain ⟨other, there, same⟩ := exists_mem_addArc h arc
      exact ⟨other, mem_addArcs_of_mem there rest, same⟩
    · exact ih (h.addArc first) later

end State

end Transducer
