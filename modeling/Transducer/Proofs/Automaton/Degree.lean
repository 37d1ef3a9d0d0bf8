import Mathlib.Data.List.Nodup
import Transducer.Proofs.Automaton.Basic
import Transducer.Proofs.State
/-!
How many arcs lead into a state. An arc that is added counts for its target alone, and it is sure to
be added if no arc has led to that target.
-/

namespace Transducer

/-- If one of many lists gets one element more, so does their concatenation. -/
theorem perm_flatMap_cons {α β : Type} {f g : α → List β} {items : List α} {i : α} {x : β}
    (nodup : items.Nodup) (mem : i ∈ items) (here : (g i).Perm (x :: f i))
    (elsewhere : ∀ j, j ≠ i → g j = f j) : (items.flatMap g).Perm (x :: items.flatMap f) := by
  obtain ⟨front, back, rfl⟩ := List.append_of_mem mem
  have out : i ∉ front ∧ i ∉ back := by
    simpa using (List.nodup_cons.mp (List.nodup_middle.mp nodup)).1
  have same {part : List α} (out : i ∉ part) : part.flatMap g = part.flatMap f :=
    List.flatMap_congr fun j hj => elsewhere j fun other => out (other ▸ hj)
  rw [List.flatMap_append, List.flatMap_append, List.flatMap_cons, List.flatMap_cons, same out.1,
    same out.2]
  exact ((here.append_right _).append_left _).trans List.perm_middle

namespace Automaton

variable {a : Automaton} {source id : StateId} {arc : Arc}

/-- The number of arcs into a state. -/
def inDegree (a : Automaton) (id : StateId) : Nat :=
  (a.arcsFrom a.ids).countP fun (_, arc) => arc.target = id

theorem inDegree_eq_zero_iff : a.inDegree id = 0 ↔
    ∀ source, ∀ arc ∈ (a.state source).arcs, arc.target ≠ id := by
  rw [inDegree, List.countP_eq_zero]
  constructor
  · intro none source arc mem into
    refine none (source, arc) (List.mem_flatMap.mpr ⟨source, ?_, List.mem_map_of_mem mem⟩) ?_
    · exact List.mem_range.mpr (lt_size_of_mem mem)
    · exact decide_eq_true into
  · intro none entry mem into
    obtain ⟨source, -, there⟩ := List.mem_flatMap.mp mem
    obtain ⟨arc, leaves, rfl⟩ := List.mem_map.mp there
    exact none source arc leaves (of_decide_eq_true into)

theorem arcsFrom_addState (a : Automaton) (name : Option String) :
    (a.addState name).arcsFrom (a.addState name).ids = a.arcsFrom a.ids := by
  have old : ∀ id ∈ a.ids, ((a.addState name).state id).arcs.map (id, ·) =
      (a.state id).arcs.map (id, ·) := fun id mem => by
    rw [state_addState, if_neg (Nat.ne_of_lt (List.mem_range.mp mem))]
  have new : ((a.addState name).state a.size).arcs = [] := by
    rw [state_addState, if_pos rfl]
    rfl
  rw [ids, size_addState, List.range_succ, arcsFrom, List.flatMap_append, List.flatMap_singleton,
    new, List.map_nil, List.append_nil]
  exact List.flatMap_congr old

@[simp] theorem inDegree_addState (a : Automaton) (name : Option String) (id : StateId) :
    (a.addState name).inDegree id = a.inDegree id := by
  rw [inDegree, arcsFrom_addState, inDegree]

/-- An arc is added to the arcs there are, unless one leads from its source to its target. -/
theorem arcsFrom_addArc_cases (h : source < a.size) (arc : Arc) :
    ((a.addArc source arc).arcsFrom (a.addArc source arc).ids).Perm
        ((source, arc) :: a.arcsFrom a.ids) ∨
      (a.addArc source arc).arcsFrom (a.addArc source arc).ids = a.arcsFrom a.ids ∧
        ∃ other ∈ (a.state source).arcs, other.target = arc.target := by
  have ids : (a.addArc source arc).ids = a.ids := by
    rw [Automaton.ids, size_addArc, Automaton.ids]
  have elsewhere (id : StateId) (other : id ≠ source) :
      ((a.addArc source arc).state id).arcs.map (id, ·) = (a.state id).arcs.map (id, ·) := by
    rw [state_addArc h, if_neg other]
  have here : (a.addArc source arc).state source = (a.state source).addArc arc := by
    rw [state_addArc h, if_pos rfl]
  rw [ids, arcsFrom, arcsFrom]
  rcases (a.state source).arcs_addArc_cases arc with added | ⟨same, there⟩
  · refine .inl (perm_flatMap_cons List.nodup_range (List.mem_range.mpr h) ?_ elsewhere)
    rw [here]
    exact added.map _
  · refine .inr ⟨List.flatMap_congr fun id _ => ?_, there⟩
    by_cases other : id = source
    · rw [other, here, same]
    · exact elsewhere id other

theorem inDegree_addArc_of_ne (h : source < a.size) (other : arc.target ≠ id) :
    (a.addArc source arc).inDegree id = a.inDegree id := by
  rw [inDegree, inDegree]
  rcases arcsFrom_addArc_cases h arc with added | ⟨same, -⟩
  · rw [added.countP_eq, List.countP_cons_of_neg (by simpa using other)]
  · rw [same]

theorem inDegree_addArc_of_new (h : source < a.size) (new : a.inDegree arc.target = 0) :
    (a.addArc source arc).inDegree arc.target = 1 := by
  rcases arcsFrom_addArc_cases h arc with added | ⟨-, other, mem, same⟩
  · rw [inDegree, added.countP_eq, List.countP_cons_of_pos (by simp)]
    exact congrArg (· + 1) new
  · exact absurd same (inDegree_eq_zero_iff.mp new source other mem)

end Automaton

end Transducer
