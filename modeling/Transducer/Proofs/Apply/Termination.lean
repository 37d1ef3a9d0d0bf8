import Transducer.Proofs.Apply.Finite
/-!
Searches end where nothing goes round for free. Between two tokens a path takes silent arcs only,
and without a cycle of these no more of them than there are states; so the partial paths that fit a
word have bounded length.
-/

namespace Transducer

namespace Automaton

variable {a : Automaton} {d : Direction} {id mid last : StateId} {before legs more : List Leg}

/-- A path leads from the initial state to one from which another path, not empty and without taking
a token, leads back. -/
def HasSilentCycle (a : Automaton) (d : Direction) : Prop :=
  ∃ id before loop, a.Route a.initial before id ∧ loop ≠ [] ∧ a.Route id loop id ∧
    ∀ l ∈ Leg.labels loop, d.silent l = true

/-- Without a cycle of silent arcs, a path of such arcs is no longer than there are states. -/
theorem length_le_size_of_silent (free : ¬ a.HasSilentCycle d)
    (start : a.Route a.initial before id) (h : a.Route id legs last)
    (silent : ∀ l ∈ Leg.labels legs, d.silent l = true) : legs.length ≤ a.size := by
  apply h.length_le_size_of_nodup
  by_contra twice
  obtain ⟨mid, ahead, loop, route, ne, around, sub⟩ := exists_loop_of_duplicate h twice
  refine free ⟨mid, before ++ ahead, loop, start.append route, ne, around, fun l hl => ?_⟩
  exact silent l (List.map_subset _ sub hl)

/-- The arcs of a path are those that take a token and, before, between and behind them, silent
ones. The induction goes along the path with the silent arcs behind the last token in `legs`. -/
theorem length_add_le (free : ¬ a.HasSilentCycle d) (start : a.Route a.initial before id)
    (h : a.Route id legs mid) (silent : ∀ l ∈ Leg.labels legs, d.silent l = true)
    (onward : a.Route mid more last) :
    legs.length + more.length ≤ a.size + (d.reads more).length * (a.size + 1) := by
  induction more generalizing before id legs mid with
  | nil =>
    have short := length_le_size_of_silent free start h silent
    simpa using Nat.le_add_right_of_le short
  | cons leg more ih =>
    cases onward with
    | go leaves onward =>
      have longer : a.Route id (legs ++ [leg]) leg.arc.target := h.snoc leaves
      cases taken : d.silent leg.arc.label with
      | true =>
        have silent' : ∀ l ∈ Leg.labels (legs ++ [leg]), d.silent l = true := by
          intro l hl
          rw [Leg.labels_snoc, List.mem_append, List.mem_singleton] at hl
          rcases hl with old | rfl
          · exact silent l old
          · exact taken
        have all := ih start longer silent' onward
        rw [Direction.reads_cons_silent taken]
        simp only [List.length_append, List.length_cons, List.length_nil] at all ⊢
        omega
      | false =>
        have short := length_le_size_of_silent free start h silent
        have none : ∀ l ∈ Leg.labels [], d.silent l = true := by simp [Leg.labels]
        have rest := ih (start.append longer) (.stop _) none onward
        rw [Direction.reads_cons taken]
        simp only [List.length_nil, List.length_cons, Nat.succ_mul] at rest ⊢
        omega

end Automaton

namespace Search

variable {q : Query}

/-- The partial paths of a search have bounded length, by the number of tokens. -/
theorem bounded_of_not_hasSilentCycle (free : ¬ q.automaton.HasSilentCycle q.direction)
    (word : String) : Bounded q word (q.automaton.size +
      (q.tokens word).length * (q.automaton.size + 1)) := by
  intro legs last fits route
  have none : ∀ l ∈ Leg.labels [], q.direction.silent l = true := by simp [Leg.labels]
  have long := Automaton.length_add_le free (.stop _) (.stop _) none route
  have reads : (q.direction.reads legs).length ≤ (q.tokens word).length := by
    have ahead := fits.length_le
    rwa [List.length_map] at ahead
  have bound := Nat.mul_le_mul_right (q.automaton.size + 1) reads
  rw [List.length_nil] at long
  omega

/-- If no cycle that can be reached consists of arcs that take no token, a search empties its queue,
whatever the word, the weights and the options are. By then it has taken one node with every step,
and there are no others: the start and the children of those taken have all been taken. With the
next step it ends. -/
theorem run_ends (q : Query) (word : String)
    (free : ¬ q.automaton.HasSilentCycle q.direction) :
    ∃ k s taken, (Move.run (step q) (start q word) k).1 = some s ∧ s.queue.toList = [] ∧
      taken.length = k ∧ Frontier q word taken [] ∧
      ∀ m, k < m → (Move.run (step q) (start q word) m).1 = none :=
  exists_emptied (bounded_of_not_hasSilentCycle free word).finishes

/-- A final state with an arc to itself that takes a token, and whose weight is a NaN: three paths
and their stopped copies are taken, the last of which has read the word. -/
theorem run_ends_loop :
    let a := ((Automaton.empty.addSymbols ["a"]).setFinal 0 .zero).addArc 0
      ⟨0, .identity "a", Weight.invalid⟩
    let q : Query := { automaton := a, direction := .generate, options := { weights := true } }
    ¬ q.automaton.HasSilentCycle q.direction ∧
      (Move.run (step q) (start q "aa") 6).2 = [⟨.text "aa", some Weight.invalid⟩] ∧
      ∃ s taken, (Move.run (step q) (start q "aa") 6).1 = some s ∧ s.queue.toList = [] ∧
        taken.length = 6 ∧ Frontier q "aa" taken [] ∧
        ∀ m, 6 < m → (Move.run (step q) (start q "aa") m).1 = none := by
  intro a q
  have free : ¬ q.automaton.HasSilentCycle q.direction := by
    intro ⟨id, before, loop, _, ne, around, silent⟩
    cases around with
    | stop => exact ne rfl
    | @go _ _ leg legs leaves _ =>
      have first : id < 1 := Automaton.lt_size_of_mem_legsFrom leaves
      obtain rfl : id = 0 := Nat.lt_one_iff.mp first
      have only : (a.state 0).arcs = [⟨0, .identity "a", Weight.invalid⟩] := by decide +kernel
      obtain rfl := Automaton.eq_of_mem_legsFrom only leaves
      exact absurd (silent _ List.mem_cons_self) (by decide +kernel)
  have found : (Move.run (step q) (start q "aa") 6).2 = [⟨.text "aa", some Weight.invalid⟩] := by
    decide +kernel
  have going : (Move.run (step q) (start q "aa") 6).1.isSome = true := by decide +kernel
  have ended : (Move.run (step q) (start q "aa") 7).1.isNone = true := by decide +kernel
  clear_value q
  obtain ⟨k, s, taken, here, empty, length, frontier, stopped⟩ := run_ends q "aa" free
  obtain rfl : k = 6 := by
    apply Nat.le_antisymm
    · by_contra later
      have done := Move.run_add_of_ended (Option.isNone_iff_eq_none.mp ended) (k - 7)
      rw [Nat.add_sub_of_le (Nat.lt_of_not_le later)] at done
      rw [done, Option.isNone_iff_eq_none.mp ended] at here
      cases here
    · by_contra before
      rw [stopped 6 (Nat.lt_of_not_le before)] at going
      cases going
  exact ⟨free, found, s, taken, here, empty, length, frontier, stopped⟩

end Search

end Transducer
