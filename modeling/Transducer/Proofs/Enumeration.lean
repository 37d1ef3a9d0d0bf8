import Mathlib.Data.Option.Basic
import Transducer.Enumeration
/-!
Runs of lazy enumerations. What `take` gives out is what a run of the same number of steps has
found, as far as the limit goes; enumerations whose steps mirror one another find the same.
-/

namespace Transducer.Move

variable {σ τ : Type} {α : Type} {β : Type} {step : σ → Move σ α} {start next : σ} {item : α}
  {n : Nat}

/-- The same step with its item changed. -/
def map (f : α → β) : Move σ α → Move σ β
  | finished => finished
  | silent next => silent next
  | found item next => found (f item) next

/-- A move keeps what holds of a state and the items found so far. -/
def Keeps (P : σ → List α → Prop) (items : List α) : Move σ α → Prop
  | finished => True
  | silent next => P next items
  | found item next => P next (item :: items)

/-- What holds at the start and is kept by every step holds all along, and what follows from it for
the items holds when the run has finished. -/
theorem run_keeps {P : σ → List α → Prop} {Q : List α → Prop} (init : P start [])
    (keeps : ∀ s items, P s items → (step s).Keeps P items)
    (weaker : ∀ s items, P s items → Q items) (n : Nat) :
    Q (run step start n).2 ∧ ∀ s ∈ (run step start n).1, P s (run step start n).2 := by
  induction n with
  | zero =>
    refine ⟨weaker start [] init, fun s hs => ?_⟩
    obtain rfl := Option.some.inj hs
    exact init
  | succ n ih =>
    rw [run]
    rcases hr : run step start n with ⟨_ | s, items⟩
    · rw [hr] at ih
      exact ih
    · rw [hr] at ih
      have kept := keeps s items (ih.2 s rfl)
      rw [advance]
      cases hs : step s with
      | finished => exact ⟨ih.1, fun s none => absurd none (by simp)⟩
      | silent next =>
        rw [hs] at kept
        refine ⟨ih.1, fun s' same => ?_⟩
        obtain rfl := Option.some.inj same
        exact kept
      | found item next =>
        rw [hs] at kept
        refine ⟨weaker next _ kept, fun s' same => ?_⟩
        obtain rfl := Option.some.inj same
        exact kept

theorem run_of_finished (h : step start = finished) :
    run step start (n + 1) = (none, []) := by
  induction n with
  | zero => simp [run, advance, h]
  | succ n ih => rw [run, ih, advance]

theorem run_of_silent (h : step start = silent next) :
    run step start (n + 1) = run step next n := by
  induction n with
  | zero => simp [run, advance, h]
  | succ n ih => rw [run, ih, run]

theorem run_of_found (h : step start = found item next) :
    run step start (n + 1) = ((run step next n).1, (run step next n).2 ++ [item]) := by
  induction n with
  | zero => simp [run, advance, h]
  | succ n ih =>
    rw [run, ih, run]
    rcases run step next n with ⟨_ | s, items⟩
    · rfl
    · simp only [advance]
      cases step s <;> rfl

theorem run_map (f : α → β) (n : Nat) :
    run (fun s => (step s).map f) start n =
      ((run step start n).1, (run step start n).2.map f) := by
  induction n with
  | zero => rfl
  | succ n ih =>
    rw [run, ih, run]
    rcases run step start n with ⟨_ | s, items⟩
    · rfl
    · simp only [advance]
      cases step s <;> rfl

/-- What has been found stays found; later items come in front. -/
theorem run_suffix (step : σ → Move σ α) (start : σ) (n m : Nat) :
    (run step start n).2 <:+ (run step start (n + m)).2 := by
  induction m with
  | zero => exact List.suffix_rfl
  | succ m ih =>
    have grows : (run step start (n + m)).2 <:+ (run step start (n + m + 1)).2 := by
      rw [run]
      rcases run step start (n + m) with ⟨_ | s, items⟩
      · exact List.suffix_rfl
      · rw [advance]
        cases step s with
        | finished => exact List.suffix_rfl
        | silent next => exact List.suffix_rfl
        | found item next => exact List.suffix_cons item items
    exact ih.trans grows

/-- Where a move leads, unless it ends the enumeration. -/
def next? : Move σ α → Option σ
  | finished => none
  | silent next => some next
  | found _ next => some next

theorem next?_eq_none_iff {move : Move σ α} : move.next? = none ↔ move = finished := by
  cases move <;> simp [next?]

/-- A run goes where the move from its last state leads. -/
theorem run_succ_fst (step : σ → Move σ α) (start : σ) (n : Nat) :
    (run step start (n + 1)).1 = (run step start n).1.bind fun s => (step s).next? := by
  rw [run]
  rcases run step start n with ⟨_ | s, items⟩
  · rfl
  · rw [advance, Option.bind_some]
    cases step s <;> rfl

/-- A run that has finished has a last state, from which it finished. -/
theorem exists_last (ended : (run step start n).1 = none) :
    ∃ k s, (run step start k).1 = some s ∧ step s = finished := by
  induction n with
  | zero => cases ended
  | succ n ih =>
    cases hr : (run step start n).1 with
    | none => exact ih hr
    | some s =>
      rw [run_succ_fst, hr] at ended
      exact ⟨n, s, hr, next?_eq_none_iff.mp ended⟩

/-- A run that has finished goes no further. -/
theorem run_add_of_ended (ended : (run step start n).1 = none) (m : Nat) :
    run step start (n + m) = run step start n := by
  induction m with
  | zero => rfl
  | succ m ih =>
    rw [← Nat.add_assoc, run, ih]
    generalize run step start n = last at ended ⊢
    obtain ⟨s?, items⟩ := last
    obtain rfl : s? = none := ended
    rfl

theorem run_eq_of_ended {m : Nat} (ended : (run step start n).1 = none)
    (ended' : (run step start m).1 = none) : run step start n = run step start m := by
  rcases Nat.le_total n m with le | le
  · obtain ⟨more, rfl⟩ := Nat.exists_eq_add_of_le le
    exact (run_add_of_ended ended more).symm
  · obtain ⟨more, rfl⟩ := Nat.exists_eq_add_of_le le
    exact run_add_of_ended ended' more

/-- A bounded enumeration gives out what its run has found, as far as the limit goes; it gives
nothing if the run has neither finished nor found so much. -/
theorem take_eq_run (n limit : Nat) :
    take step n limit start =
      if limit ≤ (run step start n).2.length ∨ (run step start n).1 = none then
        some ((run step start n).2.reverse.take limit)
      else none := by
  induction n generalizing start limit with
  | zero => cases limit <;> simp [take, run]
  | succ n ih =>
    cases limit with
    | zero => simp [take]
    | succ limit =>
      rw [take]
      cases h : step start with
      | finished => simp [run_of_finished h]
      | silent next => simp only [run_of_silent h, ih]
      | found item next =>
        simp only [run_of_found h, ih, List.length_append, List.length_singleton,
          Nat.add_le_add_iff_right, List.reverse_append, List.reverse_singleton,
          List.singleton_append, List.take_succ_cons]
        split <;> rfl

theorem mem_run_of_take {limit : Nat} {items : List α} (h : take step n limit start = some items)
    (mem : item ∈ items) : item ∈ (run step start n).2 := by
  rw [take_eq_run] at h
  split at h
  · rw [← Option.some.inj h] at mem
    exact List.mem_reverse.mp (List.mem_of_mem_take mem)
  · cases h

/-- Moves of two enumerations that go hand in hand: the second finds what a function makes of the
items of the first, and passes over those of which it makes nothing. -/
inductive Mirrors (R : σ → τ → Prop) (f : α → Option β) : Move σ α → Move τ β → Prop
  | finished : Mirrors R f .finished .finished
  | silent {s : σ} {t : τ} : R s t → Mirrors R f (.silent s) (.silent t)
  | found {item : α} {image : β} {s : σ} {t : τ} : f item = some image → R s t →
      Mirrors R f (.found item s) (.found image t)
  | dropped {item : α} {s : σ} {t : τ} : f item = none → R s t →
      Mirrors R f (.found item s) (.silent t)

theorem run_mirrors {R : σ → τ → Prop} {f : α → Option β} {other : τ → Move τ β} {begin : τ}
    (init : R start begin) (steps : ∀ s t, R s t → Mirrors R f (step s) (other t)) (n : Nat) :
    Option.Rel R (run step start n).1 (run other begin n).1 ∧
      (run other begin n).2 = (run step start n).2.filterMap f := by
  induction n with
  | zero => exact ⟨.some init, rfl⟩
  | succ n ih =>
    rw [run, run]
    generalize run step start n = here at ih ⊢
    generalize run other begin n = there at ih ⊢
    obtain ⟨s?, found⟩ := here
    obtain ⟨t?, images⟩ := there
    obtain ⟨states, items⟩ := ih
    cases states with
    | none => exact ⟨.none, items⟩
    | @some s t related =>
      have moves := steps s t related
      simp only [advance]
      generalize step s = move at moves ⊢
      generalize other t = image at moves ⊢
      cases moves with
      | finished => exact ⟨.none, items⟩
      | silent next => exact ⟨.some next, items⟩
      | found kept next => exact ⟨.some next, by rw [List.filterMap_cons_some kept, ← items]⟩
      | dropped out next => exact ⟨.some next, by rw [List.filterMap_cons_none out, ← items]⟩

theorem isSome_eq_of_rel {R : σ → τ → Prop} {s? : Option σ} {t? : Option τ}
    (h : Option.Rel R s? t?) : t?.isSome = s?.isSome := by
  cases h <;> rfl

theorem run_mirrors_map {R : σ → τ → Prop} {f : α → β} {other : τ → Move τ β} {begin : τ}
    (init : R start begin)
    (steps : ∀ s t, R s t → Mirrors R (fun item => some (f item)) (step s) (other t)) (n : Nat) :
    (run other begin n).2 = (run step start n).2.map f ∧
      (run other begin n).1.isSome = (run step start n).1.isSome := by
  obtain ⟨states, items⟩ := run_mirrors init steps n
  exact ⟨by rw [items, List.filterMap_eq_map'], isSome_eq_of_rel states⟩

theorem run_mirrors_some {R : σ → τ → Prop} {other : τ → Move τ α} {begin : τ}
    (init : R start begin) (steps : ∀ s t, R s t → Mirrors R some (step s) (other t)) (n : Nat) :
    (run other begin n).2 = (run step start n).2 ∧
      (run other begin n).1.isSome = (run step start n).1.isSome := by
  obtain ⟨items, states⟩ := run_mirrors_map (f := id) init steps n
  exact ⟨items.trans (List.map_id _), states⟩

/-- Enumerations whose runs find the same and finish together give out the same. -/
theorem take_of_run {f : α → β} {other : τ → Move τ β} {begin : τ}
    (items : (run other begin n).2 = (run step start n).2.map f)
    (ends : (run other begin n).1.isSome = (run step start n).1.isSome) (limit : Nat) :
    take other n limit begin = (take step n limit start).map (List.map f) := by
  have finished : (run other begin n).1 = none ↔ (run step start n).1 = none := by
    rw [← Option.not_isSome_iff_eq_none, ends, Option.not_isSome_iff_eq_none]
  rw [take_eq_run, take_eq_run, items]
  simp only [finished, List.length_map, ← List.map_reverse, ← List.map_take]
  split <;> rfl

end Transducer.Move
