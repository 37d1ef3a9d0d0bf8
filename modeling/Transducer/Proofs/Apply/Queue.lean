import Mathlib.Data.List.Perm.Basic
import Transducer.Apply.Search
/-!
The priority queue through the list of its entries: inserting adds one entry and popping removes
one, and in a queue that is ordered the one removed comes before all others.
-/

namespace Transducer.Heap

variable {α : Type} {before : α → α → Bool} {a b : α} {h g l r : Heap α} {n : Nat}
  {mergeRight : Heap α → Heap α}

/-- Every entry comes before those below it. -/
def Ordered (before : α → α → Bool) : Heap α → Prop
  | empty => True
  | node _ a l r => (∀ b ∈ l.toList ++ r.toList, before a b) ∧ Ordered before l ∧ Ordered before r

theorem toList_make (a : α) (l r : Heap α) :
    (make a l r).toList.Perm (a :: (l.toList ++ r.toList)) := by
  unfold make
  split
  · exact .refl _
  · exact List.perm_append_comm.cons a

theorem ordered_make (ha : ∀ b ∈ l.toList ++ r.toList, before a b) (hl : Ordered before l)
    (hr : Ordered before r) : Ordered before (make a l r) := by
  unfold make
  split
  · exact ⟨ha, hl, hr⟩
  · exact ⟨fun b hb => ha b (List.perm_append_comm.mem_iff.mp hb), hr, hl⟩

theorem toList_mergeNode (hm : ∀ h, (mergeRight h).toList.Perm (r.toList ++ h.toList))
    (h : Heap α) : (mergeNode before n a l r mergeRight h).toList.Perm
      (a :: (l.toList ++ r.toList) ++ h.toList) := by
  induction h with
  | empty => simp [mergeNode, toList]
  | node m b l' r' _ ih =>
    rw [mergeNode]
    split
    · refine (toList_make ..).trans (.cons a ?_)
      simpa using (hm (node m b l' r')).append_left l.toList
    · refine (toList_make ..).trans ?_
      refine .trans (.cons b ((ih.append_left _).trans ?_)) List.perm_middle.symm
      exact List.perm_append_comm_assoc ..

theorem toList_merge (before : α → α → Bool) (h g : Heap α) :
    (merge before h g).toList.Perm (h.toList ++ g.toList) := by
  induction h generalizing g with
  | empty => exact .refl _
  | node n a l r _ ih => exact toList_mergeNode ih g

theorem toList_insert (before : α → α → Bool) (a : α) (h : Heap α) :
    (h.insert before a).toList.Perm (a :: h.toList) :=
  toList_merge before (node 1 a empty empty) h

theorem toList_pop? (hp : h.pop? before = some (a, g)) : h.toList.Perm (a :: g.toList) := by
  cases h with
  | empty => simp [pop?] at hp
  | node n b l r =>
    simp only [pop?, Option.some.injEq, Prod.mk.injEq] at hp
    obtain ⟨rfl, rfl⟩ := hp
    exact (toList_merge before l r).symm.cons b

theorem pop?_eq_none_iff : h.pop? before = none ↔ h.toList = [] := by
  cases h <;> simp [pop?, toList]

section Order

variable (total : ∀ a b, before a b = false → before b a = true)
  (trans : ∀ a b c, before a b = true → before b c = true → before a c = true)
include total trans

theorem ordered_mergeNode (hm : ∀ h, (mergeRight h).toList.Perm (r.toList ++ h.toList))
    (om : ∀ h, Ordered before h → Ordered before (mergeRight h))
    (ho : Ordered before (node n a l r)) (h : Heap α) (hh : Ordered before h) :
    Ordered before (mergeNode before n a l r mergeRight h) := by
  induction h with
  | empty => exact ho
  | node m b l' r' _ ih =>
    obtain ⟨ha, hl, hr⟩ := ho
    obtain ⟨hb, hl', hr'⟩ := hh
    rw [mergeNode]
    split
    · next first =>
      refine ordered_make (fun c hc => ?_) hl (om _ ⟨hb, hl', hr'⟩)
      rw [List.mem_append, (hm _).mem_iff] at hc
      have below (hc : c ∈ l'.toList ++ r'.toList) : before a c := trans a b c first (hb c hc)
      simp only [List.mem_append, toList, List.mem_cons] at hc ha below
      rcases hc with hc | hc | rfl | hc
      · exact ha c (.inl hc)
      · exact ha c (.inr hc)
      · exact first
      · exact below hc
    · next later =>
      have first := total a b (by simpa using later)
      refine ordered_make (fun c hc => ?_) hl' (ih hr')
      rw [List.mem_append, (toList_mergeNode hm r').mem_iff] at hc
      have below (hc : c ∈ l.toList ++ r.toList) : before b c := trans b a c first (ha c hc)
      simp only [List.mem_append, List.mem_cons] at hc hb below
      rcases hc with hc | (rfl | hc) | hc
      · exact hb c (.inl hc)
      · exact first
      · exact below hc
      · exact hb c (.inr hc)

theorem ordered_merge (h g : Heap α) (hh : Ordered before h) (hg : Ordered before g) :
    Ordered before (merge before h g) := by
  induction h generalizing g with
  | empty => exact hg
  | node n a l r _ ih =>
    exact ordered_mergeNode total trans (toList_merge before r) (fun h => ih h hh.2.2) hh g hg

theorem ordered_insert (a : α) (hh : Ordered before h) : Ordered before (h.insert before a) :=
  ordered_merge total trans _ _ ⟨by simp [toList], trivial, trivial⟩ hh

/-- The entry that leaves an ordered queue comes before all that stay. -/
theorem ordered_pop? (hh : Ordered before h) (hp : h.pop? before = some (a, g)) :
    (∀ b ∈ g.toList, before a b) ∧ Ordered before g := by
  cases h with
  | empty => simp [pop?] at hp
  | node n b l r =>
    simp only [pop?, Option.some.injEq, Prod.mk.injEq] at hp
    obtain ⟨rfl, rfl⟩ := hp
    obtain ⟨hb, hl, hr⟩ := hh
    refine ⟨fun c hc => hb c ((toList_merge before l r).mem_iff.mp hc), ?_⟩
    exact ordered_merge total trans l r hl hr

end Order

end Transducer.Heap

namespace Transducer.Path

variable {p q r : Path}

/-- Lower cost, or the same cost and discovered earlier. -/
theorem before_iff : p.before q ↔
    p.cost.rank < q.cost.rank ∨ p.cost.rank = q.cost.rank ∧ p.seq ≤ q.seq := by
  have key : p.before q = ((compare p.cost.rank q.cost.rank).then (compare p.seq q.seq) != .gt) :=
    rfl
  rw [key, bne_iff_ne, ne_eq, Ordering.then_eq_gt, Int.compare_eq_gt, Int.compare_eq_eq,
    Nat.compare_eq_gt]
  omega

theorem before_total (p q : Path) (h : p.before q = false) : q.before p = true := by
  rw [before_iff]
  have not := mt before_iff.mpr (Bool.not_eq_true _ ▸ h)
  omega

theorem before_trans (p q r : Path) (h : p.before q = true) (h' : q.before r = true) :
    p.before r = true := by
  rw [before_iff] at h h' ⊢
  omega

end Transducer.Path
