import Mathlib.Data.List.Nodup
import Std.Data.HashMap.Lemmas
/-!
Lists that grow at the end, maps that grow with them, and lists without repetitions. An item that
comes again is left out, so those that are left stand in the order in which they came first; a limit
keeps the first of them.
-/

namespace Transducer

section Distinct

variable {α : Type}

theorem getElem?_snoc_of_ne {done : List α} {n : Nat} (h : n ≠ done.length) (last : α) :
    (done ++ [last])[n]? = done[n]? := by
  rcases Nat.lt_or_gt_of_ne h with before | behind
  · exact List.getElem?_append_left before
  · rw [List.getElem?_eq_none (Nat.le_of_lt behind), List.getElem?_eq_none]
    simp only [List.length_append, List.length_singleton]
    omega

theorem getElem?_snoc_eq_some_iff {done : List α} {last item : α} {n : Nat} :
    (done ++ [last])[n]? = some item ↔ done[n]? = some item ∨ n = done.length ∧ last = item := by
  by_cases place : n = done.length
  · simp [place]
  · rw [getElem?_snoc_of_ne place]
    simp [place]

/-- An item that is new to a map gets its number there, and no other item changes. -/
theorem getElem?_insert_eq_some_iff [BEq α] [LawfulBEq α] [Hashable α] {m : Std.HashMap α Nat}
    {item other : α} {n k : Nat} (new : m[item]? = none) :
    (m.insert item k)[other]? = some n ↔ m[other]? = some n ∨ n = k ∧ item = other := by
  rw [Std.HashMap.getElem?_insert]
  by_cases same : item = other
  · rw [if_pos (beq_iff_eq.mpr same), ← same, new]
    simp [eq_comm]
  · rw [if_neg (mt beq_iff_eq.mp same)]
    simp [same]

theorem eraseDups_snoc [DecidableEq α] (items : List α) (item : α) :
    (items ++ [item]).eraseDups =
      if item ∈ items then items.eraseDups else items.eraseDups ++ [item] := by
  rw [List.eraseDups_append]
  by_cases old : item ∈ items
  · simp [List.removeAll, old]
  · simp [List.removeAll, old, List.eraseDups_cons]

theorem nodup_eraseDups [BEq α] [LawfulBEq α] : (l : List α) → l.eraseDups.Nodup
  | [] => List.nodup_nil
  | a :: rest => by
    rw [List.eraseDups_cons]
    refine List.nodup_cons.mpr ⟨fun mem => ?_, nodup_eraseDups _⟩
    have other := (List.mem_filter.mp (List.mem_eraseDups.mp mem)).2
    simp at other
termination_by l => l.length
decreasing_by exact Nat.lt_succ_of_le (List.length_filter_le ..)

/-- The items that came first, each once, as many as the limit allows. -/
def firsts [BEq α] (limit : Nat) (items : List α) : List α := items.eraseDups.take limit

theorem length_firsts_le [BEq α] (limit : Nat) (items : List α) :
    (firsts limit items).length ≤ limit := by
  rw [firsts, List.length_take]
  exact Nat.min_le_left ..

/-- One more item is added if it has not come before and the limit is not reached. -/
theorem firsts_snoc [DecidableEq α] (limit : Nat) (items : List α) (item : α) :
    firsts limit (items ++ [item]) =
      if item ∈ firsts limit items ∨ limit ≤ (firsts limit items).length then firsts limit items
      else firsts limit items ++ [item] := by
  unfold firsts
  rw [eraseDups_snoc]
  rcases Nat.lt_or_ge items.eraseDups.length limit with room | full
  · have whole : items.eraseDups.take limit = items.eraseDups :=
      List.take_of_length_le (Nat.le_of_lt room)
    rw [whole]
    by_cases old : item ∈ items
    · rw [if_pos old, if_pos (Or.inl (List.mem_eraseDups.mpr old)), whole]
    · have longer : (items.eraseDups ++ [item]).length ≤ limit := by
        rw [List.length_append]
        exact room
      rw [if_neg old, if_neg (by simp [old, room]), List.take_of_length_le longer]
  · have reached : limit ≤ (items.eraseDups.take limit).length :=
      Nat.le_of_eq (List.length_take_of_le full).symm
    rw [if_pos (Or.inr reached)]
    split
    · rfl
    · exact List.take_append_of_le_length full

end Distinct

end Transducer
