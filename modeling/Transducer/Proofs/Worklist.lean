import Mathlib.Data.List.Nodup
import Mathlib.Logic.Relation
/-!
Worklists over a tree. Nodes are taken off a list one at a time, in any order, and their children
are put on it. Whatever the order, the nodes taken and those waiting are the root and the children
of those taken; from that it follows that no node turns up twice and that none is lost.
-/

namespace Transducer

variable {α : Type} {children : α → List α} {root : α} {depth : α → Nat}

/-- The nodes in `taken` have been replaced by their children, those in `waiting` have not. -/
def Explored (children : α → List α) (root : α) (taken waiting : List α) : Prop :=
  (taken ++ waiting).Perm (root :: taken.flatMap children)

/-- A node from which another one descends, or that node itself. -/
def Above (children : α → List α) : α → α → Prop :=
  Relation.ReflTransGen fun x y => y ∈ children x

/-- Every node but the root has one parent, has one place among its children, and lies deeper. -/
structure Tree (children : α → List α) (root : α) (depth : α → Nat) : Prop where
  nodup (x : α) : (children x).Nodup
  parent {x y z : α} : z ∈ children x → z ∈ children y → x = y
  orphan (x : α) : root ∉ children x
  deeper {x y : α} : y ∈ children x → depth x < depth y

/-- The children of a list of nodes hold a node as often as the list holds its parent. -/
theorem Tree.count_flatMap [DecidableEq α] (tree : Tree children root depth) {p x : α}
    (h : x ∈ children p) (nodes : List α) :
    (nodes.flatMap children).count x = nodes.count p := by
  have only (y : α) : (children y).count x = if y = p then 1 else 0 := by
    split
    · next same => exact List.count_eq_one_of_mem (tree.nodup y) (same ▸ h)
    · next other => exact List.count_eq_zero.mpr fun hy => other (tree.parent hy h)
  induction nodes with
  | nil => rfl
  | cons y nodes ih =>
    rw [List.flatMap_cons, List.count_append, only, ih, List.count_cons]
    simp [Nat.add_comm]

theorem Tree.above_total (tree : Tree children root depth) {x y z : α}
    (hx : Above children x z) (hy : Above children y z) :
    Above children x y ∨ Above children y x := by
  induction hx with
  | refl => exact .inr hy
  | @tail p z hp hz ih =>
    rcases Relation.ReflTransGen.cases_tail hy with rfl | ⟨p', hp', hz'⟩
    · exact .inl (.tail hp hz)
    · exact ih (tree.parent hz' hz ▸ hp')

namespace Explored

variable {taken waiting rest : List α} {x y : α}

theorem start : Explored children root [] [root] := .refl _

theorem mem_iff (h : Explored children root taken waiting) :
    x ∈ taken ∨ x ∈ waiting ↔ x = root ∨ ∃ p ∈ taken, x ∈ children p := by
  rw [← List.mem_append, List.Perm.mem_iff h, List.mem_cons, List.mem_flatMap]

/-- A step of a worklist, whichever node it takes. -/
theorem take (h : Explored children root taken waiting) (hw : waiting.Perm (x :: rest)) :
    Explored children root (x :: taken) (children x ++ rest) := by
  have move : (taken ++ waiting).Perm (x :: (taken ++ rest)) :=
    (hw.append_left taken).trans List.perm_middle
  have swap : (x :: (taken ++ (children x ++ rest))).Perm (children x ++ (x :: (taken ++ rest))) :=
    (List.Perm.cons x (List.perm_append_comm_assoc ..)).trans List.perm_middle.symm
  have grown : (children x ++ (x :: (taken ++ rest))).Perm
      (root :: (children x ++ taken.flatMap children)) :=
    ((move.symm.trans h).append_left _).trans List.perm_middle
  exact swap.trans grown

/-- No node turns up twice: by depth, since two copies of a node need two copies of its parent
among the nodes taken. -/
theorem nodup (tree : Tree children root depth) (h : Explored children root taken waiting) :
    (taken ++ waiting).Nodup := by
  classical
  have once (d : Nat) : ∀ x, depth x = d → (taken ++ waiting).count x ≤ 1 := by
    induction d using Nat.strongRecOn with
    | _ d ih =>
      intro x hd
      rw [List.Perm.count_eq h x, List.count_cons]
      by_cases child : ∃ p, x ∈ children p
      · obtain ⟨p, hp⟩ := child
        have other : root ≠ x := by
          intro same
          exact tree.orphan p (same ▸ hp)
        have parents := ih (depth p) (hd ▸ tree.deeper hp) p rfl
        rw [List.count_append] at parents
        rw [tree.count_flatMap hp, if_neg (by simpa using other)]
        omega
      · have none : (taken.flatMap children).count x = 0 := by
          refine List.count_eq_zero.mpr fun hm => child ?_
          obtain ⟨p, -, hp⟩ := List.mem_flatMap.mp hm
          exact ⟨p, hp⟩
        rw [none]
        split <;> omega
  exact List.nodup_iff_count.mpr fun x => once _ x rfl

/-- All that a node met so far descends from has been taken. -/
theorem above_taken (tree : Tree children root depth) (h : Explored children root taken waiting)
    (hy : y ∈ taken ∨ y ∈ waiting) (hxy : Above children x y) : x = y ∨ x ∈ taken := by
  induction hxy with
  | refl => exact .inl rfl
  | @tail p y _ hp ih =>
    rcases h.mem_iff.mp hy with rfl | ⟨q, hq, hyq⟩
    · exact absurd hp (tree.orphan p)
    · have hpt : p ∈ taken := tree.parent hyq hp ▸ hq
      rcases ih (.inl hpt) with rfl | hx
      · exact .inr hpt
      · exact .inr hx

/-- No node is lost: one that has not been taken descends from one that waits. -/
theorem taken_or_above (h : Explored children root taken waiting) (hx : Above children root x) :
    x ∈ taken ∨ ∃ y ∈ waiting, Above children y x := by
  induction hx with
  | refl =>
    rcases h.mem_iff.mpr (.inl rfl) with ht | hw
    · exact .inl ht
    · exact .inr ⟨root, hw, .refl⟩
  | @tail p x _ hp ih =>
    rcases ih with ht | ⟨y, hy, hyp⟩
    · rcases h.mem_iff.mpr (.inr ⟨p, ht, hp⟩) with hxt | hxw
      · exact .inl hxt
      · exact .inr ⟨x, hxw, .refl⟩
    · exact .inr ⟨y, hy, hyp.tail hp⟩

/-- Nothing that waits lies above a node that has been taken. -/
theorem not_above_of_taken (tree : Tree children root depth)
    (h : Explored children root taken waiting) (hx : x ∈ taken) (hy : y ∈ waiting) :
    ¬ Above children y x := by
  intro above
  have apart := (List.nodup_append.mp (h.nodup tree)).2.2
  rcases h.above_taken tree (.inl hx) above with rfl | ht
  · exact apart y hx y hy rfl
  · exact apart y ht y hy rfl

/-- Only one of the waiting nodes lies above a node. -/
theorem above_unique (tree : Tree children root depth) (h : Explored children root taken waiting)
    {z : α} (hx : x ∈ waiting) (hy : y ∈ waiting) (hxz : Above children x z)
    (hyz : Above children y z) : x = y := by
  have apart := (List.nodup_append.mp (h.nodup tree)).2.2
  rcases tree.above_total hxz hyz with hxy | hyx
  · rcases h.above_taken tree (.inr hy) hxy with e | ht
    · exact e
    · exact absurd rfl (apart x ht x hx)
  · rcases h.above_taken tree (.inr hx) hyx with e | ht
    · exact e.symm
    · exact absurd rfl (apart y ht y hy)

end Explored

end Transducer
