import Mathlib.Data.List.Infix
import Mathlib.Data.List.Lex
import Transducer.Proofs.Enumeration
import Transducer.Proofs.Route
import Transducer.Words
/-!
The walk lists the accepted paths in shortlex order. A path waits as long as no shorter one and no
earlier one of its length does: the paths taken from the queue and those waiting in it are the empty
path and the extensions of those taken, in that order.
-/

namespace Transducer

/-- Shorter, or of one length and earlier at the first leg that differs. -/
def Leg.Before (legs more : List Leg) : Prop :=
  legs.length < more.length ∨
    legs.length = more.length ∧ List.Lex (· < ·) (legs.map Leg.place) (more.map Leg.place)

namespace Automaton

variable {a : Automaton} {legs more : List Leg} {last : StateId} {n m k : Nat}

/-- The path with one leg more, in the order of the arcs. -/
def extend (a : Automaton) (legs : List Leg) : List (List Leg) :=
  (a.legsFrom (Leg.ending a.initial legs)).map fun leg => legs ++ [leg]

/-- The paths from the initial state that take a number of legs. -/
def pathsOfLength (a : Automaton) : Nat → List (List Leg)
  | 0 => [[]]
  | n + 1 => (a.pathsOfLength n).flatMap a.extend

def pathsUpTo (a : Automaton) (n : Nat) : List (List Leg) :=
  (List.range (n + 1)).flatMap a.pathsOfLength

/-- The accepted paths that take at most a number of legs. -/
def acceptedUpTo (a : Automaton) (n : Nat) : List (List Leg) := (a.pathsUpTo n).filter a.endsFinal

/-- What the walk gives out for a path. -/
def word (a : Automaton) (legs : List Leg) : Word := ⟨a.cost legs, Leg.labels legs⟩

theorem mem_extend : more ∈ a.extend legs ↔
    ∃ leg ∈ a.legsFrom (Leg.ending a.initial legs), legs ++ [leg] = more := List.mem_map

theorem mem_pathsOfLength : legs ∈ a.pathsOfLength n ↔
    a.Route a.initial legs (Leg.ending a.initial legs) ∧ legs.length = n := by
  induction n generalizing legs with
  | zero =>
    rw [pathsOfLength, List.mem_singleton, List.length_eq_zero_iff]
    refine ⟨fun empty => ?_, And.right⟩
    rw [empty]
    exact ⟨.stop _, rfl⟩
  | succ n ih =>
    rw [pathsOfLength, List.mem_flatMap]
    constructor
    · intro ⟨front, hf, he⟩
      obtain ⟨leg, hl, rfl⟩ := mem_extend.mp he
      obtain ⟨route, len⟩ := ih.mp hf
      refine ⟨?_, by simp [len]⟩
      rw [Leg.ending_snoc]
      exact route.snoc hl
    · intro ⟨route, len⟩
      have ne : legs ≠ [] := by
        intro empty
        rw [empty] at len
        exact absurd len (by simp)
      obtain ⟨front, leg, rfl⟩ := (List.eq_nil_or_concat' legs).resolve_left ne
      obtain ⟨first, hl⟩ := route.unsnoc
      refine ⟨front, ih.mpr ⟨first, by simpa using len⟩, mem_extend.mpr ⟨leg, hl, rfl⟩⟩

theorem mem_pathsUpTo : legs ∈ a.pathsUpTo n ↔
    a.Route a.initial legs (Leg.ending a.initial legs) ∧ legs.length ≤ n := by
  simp only [pathsUpTo, List.mem_flatMap, List.mem_range, mem_pathsOfLength]
  constructor
  · intro ⟨m, hm, route, len⟩
    exact ⟨route, by omega⟩
  · intro ⟨route, len⟩
    exact ⟨legs.length, by omega, route, rfl⟩

theorem mem_acceptedUpTo : legs ∈ a.acceptedUpTo n ↔ a.Accepts legs ∧ legs.length ≤ n := by
  rw [acceptedUpTo, List.mem_filter, mem_pathsUpTo, accepts_iff]
  tauto

theorem lex_append {places others : List Nat} (h : List.Lex (· < ·) places others)
    (len : places.length = others.length) (rest rest' : List Nat) :
    List.Lex (· < ·) (places ++ rest) (others ++ rest') := by
  induction h with
  | nil => simp at len
  | cons _ ih => exact .cons (ih (by simpa using len))
  | rel lt => exact .rel lt

theorem extend_pairwise (a : Automaton) (legs : List Leg) :
    (a.extend legs).Pairwise Leg.Before := by
  rw [extend, List.pairwise_map]
  refine (a.legsFrom_pairwise _).imp fun lt => .inr ⟨by simp, ?_⟩
  simp only [List.map_append]
  exact List.Lex.append_left _ (.rel lt) _

theorem pathsOfLength_pairwise (a : Automaton) (n : Nat) :
    (a.pathsOfLength n).Pairwise Leg.Before := by
  induction n with
  | zero => exact List.pairwise_singleton ..
  | succ n ih =>
    rw [pathsOfLength, List.pairwise_flatMap]
    refine ⟨fun legs _ => a.extend_pairwise legs, ih.imp_of_mem ?_⟩
    intro legs more hl hm before front hf back hb
    obtain ⟨leg, _, rfl⟩ := mem_extend.mp hf
    obtain ⟨other, _, rfl⟩ := mem_extend.mp hb
    have len : legs.length = more.length :=
      (mem_pathsOfLength.mp hl).2.trans (mem_pathsOfLength.mp hm).2.symm
    rcases before with lt | ⟨_, lex⟩
    · exact absurd len (Nat.ne_of_lt lt)
    · refine .inr ⟨by simp [len], ?_⟩
      simp only [List.map_append]
      exact lex_append lex (by simpa using len) _ _

theorem acceptedUpTo_pairwise (a : Automaton) (n : Nat) :
    (a.acceptedUpTo n).Pairwise Leg.Before := by
  refine List.Pairwise.filter _ (List.pairwise_flatMap.mpr ⟨?_, ?_⟩)
  · exact fun m _ => a.pathsOfLength_pairwise m
  · refine List.pairwise_lt_range.imp fun lt legs hl more hm => .inl ?_
    rw [(mem_pathsOfLength.mp hl).2, (mem_pathsOfLength.mp hm).2]
    exact lt

theorem not_before_self (legs : List Leg) : ¬ Leg.Before legs legs := by
  intro before
  rcases before with lt | ⟨_, lex⟩
  · exact Nat.lt_irrefl _ lt
  · exact List.lex_irrefl Nat.lt_irrefl _ lex

theorem acceptedUpTo_nodup (a : Automaton) (n : Nat) : (a.acceptedUpTo n).Nodup := by
  apply (a.acceptedUpTo_pairwise n).imp
  intro legs more before same
  rw [same] at before
  exact not_before_self more before

theorem pathsUpTo_succ (a : Automaton) (n : Nat) :
    a.pathsUpTo (n + 1) = a.pathsUpTo n ++ a.pathsOfLength (n + 1) := by
  rw [pathsUpTo, List.range_succ, List.flatMap_append, List.flatMap_singleton, pathsUpTo]

theorem pathsUpTo_mono (h : n ≤ m) : a.pathsUpTo n <+: a.pathsUpTo m := by
  induction h with
  | refl => exact List.prefix_rfl
  | step _ ih =>
    rw [pathsUpTo_succ]
    exact ih.trans (List.prefix_append ..)

/-- Beyond the empty path, paths are the extensions of shorter ones. -/
theorem pathsUpTo_eq (a : Automaton) (n : Nat) :
    a.pathsUpTo (n + 1) = [] :: (a.pathsUpTo n).flatMap a.extend := by
  induction n with
  | zero => simp [pathsUpTo, pathsOfLength, List.range_succ]
  | succ n ih =>
    rw [pathsUpTo_succ, pathsOfLength]
    nth_rewrite 1 [ih]
    rw [List.cons_append, ← List.flatMap_append, ← pathsUpTo_succ]

end Automaton

namespace Walk

open Automaton

variable {a : Automaton} {legs : List Leg} {taken waiting : List (List Leg)} {n k : Nat}

/-- A path as it waits. -/
def prospect (a : Automaton) (legs : List Leg) : Prospect :=
  ⟨Leg.ending a.initial legs, Leg.cost legs, (Leg.labels legs).reverse⟩

/-- The walk after `k` steps has taken the paths in `taken` and put those in `waiting` behind
them. -/
structure Walked (a : Automaton) (k : Nat) (taken waiting : List (List Leg)) : Prop where
  order : taken ++ waiting = [] :: taken.flatMap a.extend
  ahead : taken ++ waiting <+: a.pathsUpTo k

theorem walked_start (a : Automaton) : Walked a 0 [] [[]] := ⟨rfl, List.prefix_rfl⟩

theorem Walked.step (h : Walked a k taken (legs :: waiting)) :
    Walked a (k + 1) (taken ++ [legs]) (waiting ++ a.extend legs) := by
  have order : taken ++ [legs] ++ (waiting ++ a.extend legs) =
      [] :: (taken ++ [legs]).flatMap a.extend := by
    have e := congrArg (· ++ a.extend legs) h.order
    simpa using e
  have front : taken ++ [legs] <+: a.pathsUpTo k :=
    (List.prefix_append_right_inj taken |>.mpr (by simp)).trans h.ahead
  refine ⟨order, ?_⟩
  rw [order, pathsUpTo_eq, List.prefix_cons_inj]
  exact front.flatMap a.extend

theorem Walked.mono (h : Walked a k taken waiting) : Walked a (k + 1) taken waiting :=
  ⟨h.order, h.ahead.trans (pathsUpTo_mono (Nat.le_succ k))⟩

/-- The paths of a few lengths come first. -/
theorem Walked.prefix_or_prefix (h : Walked a k taken waiting) (n : Nat) :
    a.pathsUpTo n <+: taken ∨ taken <+: a.pathsUpTo n := by
  have begins : taken <+: a.pathsUpTo k := (List.prefix_append ..).trans h.ahead
  rcases Nat.le_total k n with le | le
  · exact .inr (begins.trans (pathsUpTo_mono le))
  · exact List.prefix_or_prefix_of_prefix (pathsUpTo_mono le) begins

theorem extensions_prospect (a : Automaton) (legs : List Leg) :
    extensions a (prospect a legs) = (a.extend legs).map (prospect a) := by
  rw [extensions, prospect, ← map_arc_legsFrom, extend, List.map_map, List.map_map]
  apply List.map_congr_left
  intro leg _
  simp [prospect]

theorem step_of_nil {w : Walk} (h : w.toList = []) : step a w = .finished := by
  rw [step, pop?_eq_none_iff.mpr h]

/-- Taking a path queues its extensions behind all others. -/
theorem step_of_cons {w : Walk} (h : w.toList = (legs :: waiting).map (prospect a)) :
    ∃ next : Walk, next.toList = (waiting ++ a.extend legs).map (prospect a) ∧
      step a w = if a.endsFinal legs then .found (a.word legs) next else .silent next := by
  have ne : w.pop? ≠ none := by
    rw [ne_eq, pop?_eq_none_iff, h]
    simp
  obtain ⟨⟨p, rest⟩, hp⟩ := Option.ne_none_iff_exists'.mp ne
  have list := toList_of_pop? hp
  rw [h, List.map_cons, List.cons.injEq] at list
  obtain ⟨rfl, hr⟩ := list
  refine ⟨rest.append (extensions a (prospect a legs)), ?_, ?_⟩
  · rw [toList_append, ← hr, extensions_prospect, List.map_append]
  · rw [step, hp]
    simp only [endsFinal, Automaton.isFinal, word, cost, prospect, List.reverse_reverse]
    rfl

/-- Where the walk stands after `k` steps. -/
theorem run_walked (a : Automaton) (k : Nat) : ∃ taken waiting, Walked a k taken waiting ∧
    (Move.run (step a) (start a) k).2.reverse = (taken.filter a.endsFinal).map a.word ∧
    match (Move.run (step a) (start a) k).1 with
    | some w => taken.length = k ∧ w.toList = waiting.map (prospect a)
    | none => waiting = [] ∧ taken.length ≤ k := by
  induction k with
  | zero => exact ⟨[], [[]], walked_start a, rfl, And.intro rfl rfl⟩
  | succ k ih =>
    obtain ⟨taken, waiting, walked, found, now⟩ := ih
    rw [Move.run]
    rcases hr : Move.run (step a) (start a) k with ⟨_ | w, items⟩
    · rw [hr] at found now
      exact ⟨taken, waiting, walked.mono, found, now.1, Nat.le_succ_of_le now.2⟩
    · rw [hr] at found now
      obtain ⟨len, list⟩ := now
      cases waiting with
      | nil =>
        refine ⟨taken, [], walked.mono, ?_⟩
        simp only [Move.advance, step_of_nil list]
        exact ⟨found, trivial, by omega⟩
      | cons legs waiting =>
        obtain ⟨next, hn, hs⟩ := step_of_cons list
        refine ⟨taken ++ [legs], waiting ++ a.extend legs, walked.step, ?_⟩
        simp only at found
        by_cases final : a.endsFinal legs
        · simp [Move.advance, hs, final, hn, len, found]
        · simp [Move.advance, hs, final, hn, len, found]

/-- A walk with nothing left has taken every path. -/
theorem Walked.all_taken (h : Walked a k taken []) (n : Nat) : a.pathsUpTo n <+: taken := by
  have closed : taken = [] :: taken.flatMap a.extend := by simpa using h.order
  induction n with
  | zero =>
    rw [closed]
    exact ⟨_, rfl⟩
  | succ n ih =>
    rw [pathsUpTo_eq, closed, List.prefix_cons_inj]
    exact ih.flatMap a.extend

/-- After as many steps as there are paths of so many legs, these are the paths taken. -/
theorem Walked.taken_eq (h : Walked a k taken waiting) (n : Nat)
    (now : taken.length = (a.pathsUpTo n).length ∨
      waiting = [] ∧ taken.length ≤ (a.pathsUpTo n).length) : taken = a.pathsUpTo n := by
  rcases now with len | ⟨rfl, le⟩
  · rcases h.prefix_or_prefix n with front | front
    · exact (front.eq_of_length len.symm).symm
    · exact front.eq_of_length len
  · exact ((h.all_taken n).eq_of_length_le le).symm

theorem run_length_pathsUpTo (a : Automaton) (n : Nat) :
    (Move.run (step a) (start a) (a.pathsUpTo n).length).2.reverse =
      (a.acceptedUpTo n).map a.word := by
  obtain ⟨taken, waiting, walked, found, now⟩ := run_walked a (a.pathsUpTo n).length
  have all : taken = a.pathsUpTo n := by
    apply walked.taken_eq
    cases hr : (Move.run (step a) (start a) (a.pathsUpTo n).length).1 with
    | none => exact .inr (by simpa [hr] using now)
    | some w =>
      rw [hr] at now
      exact .inl now.1
  rw [found, all, acceptedUpTo]

/-- What has been found after `k` steps begins the list of the accepted paths. -/
theorem run_prefix (a : Automaton) (k : Nat) :
    (Move.run (step a) (start a) k).2.reverse <+: (a.acceptedUpTo k).map a.word := by
  obtain ⟨taken, waiting, walked, found, _⟩ := run_walked a k
  rw [found]
  exact (((List.prefix_append ..).trans walked.ahead).filter a.endsFinal).map a.word

theorem length_run_le (a : Automaton) (k : Nat) :
    (Move.run (step a) (start a) k).2.length ≤ (a.acceptedUpTo k).length := by
  have front := run_prefix a k
  have le := front.length_le
  rwa [List.length_reverse, List.length_map] at le

/-- A walk that has finished has given out every accepted path. -/
theorem run_finished (h : (Move.run (step a) (start a) k).1 = none) :
    (Move.run (step a) (start a) k).2.reverse = (a.acceptedUpTo k).map a.word ∧
      ∀ legs, a.Accepts legs → legs ∈ a.acceptedUpTo k := by
  obtain ⟨taken, waiting, walked, found, now⟩ := run_walked a k
  rw [h] at now
  obtain ⟨rfl, _⟩ := now
  have all : taken = a.pathsUpTo k := by
    have begins : taken <+: a.pathsUpTo k := (List.prefix_append ..).trans walked.ahead
    exact begins.eq_of_length_le (walked.all_taken k).length_le
  rw [found, all, acceptedUpTo]
  refine ⟨rfl, fun legs accepts => ?_⟩
  have long := mem_pathsUpTo.mpr ⟨(accepts_iff.mp accepts).1, Nat.le_refl legs.length⟩
  have mem := (walked.all_taken legs.length).subset long
  rw [all] at mem
  exact List.mem_filter.mpr ⟨mem, (accepts_iff.mp accepts).2⟩

theorem not_hasCycle_of_finished (h : (Move.run (step a) (start a) k).1 = none) :
    ¬ a.HasCycle := by
  intro cyclic
  obtain ⟨taken, waiting, walked, _, now⟩ := run_walked a k
  rw [h] at now
  obtain ⟨rfl, _⟩ := now
  have many (n : Nat) : n < (a.pathsUpTo n).length := by
    induction n with
    | zero => exact Nat.one_pos
    | succ n ih =>
      obtain ⟨legs, last, route, len⟩ := cyclic.route_of_length (n + 1)
      have mem : legs ∈ a.pathsOfLength (n + 1) :=
        mem_pathsOfLength.mpr ⟨route.ending_eq ▸ route, len⟩
      have pos := List.length_pos_of_mem mem
      rw [pathsUpTo_succ, List.length_append]
      omega
  have le := (walked.all_taken taken.length).length_le
  have lt := many taken.length
  omega

/-- Without a cycle no path is longer than there are states, so the queue runs empty. -/
theorem finished_of_not_hasCycle (acyclic : ¬ a.HasCycle) :
    ∃ k, (Move.run (step a) (start a) k).1 = none := by
  have last : a.pathsUpTo (a.size + 1) = a.pathsUpTo a.size := by
    rw [pathsUpTo_succ, List.append_right_eq_self, List.eq_nil_iff_forall_not_mem]
    intro legs mem
    obtain ⟨route, len⟩ := mem_pathsOfLength.mp mem
    have le := length_le_size acyclic route
    omega
  let k := (a.pathsUpTo a.size).length
  obtain ⟨taken, waiting, walked, _, now⟩ := run_walked a k
  cases hr : (Move.run (step a) (start a) k).1 with
  | none => exact ⟨k, hr⟩
  | some w =>
    rw [hr] at now
    obtain ⟨len, list⟩ := now
    have all := walked.taken_eq a.size (.inl len)
    have empty : waiting = [] := by
      have order := walked.order
      rw [all, ← pathsUpTo_eq, last] at order
      exact List.append_right_eq_self.mp order
    rw [empty] at list
    refine ⟨k + 1, ?_⟩
    rw [Move.run]
    rcases hrun : Move.run (step a) (start a) k with ⟨_ | w', items⟩
    · rw [hrun] at hr
      exact absurd hr (by simp)
    · rw [hrun] at hr
      obtain rfl := Option.some.inj hr
      rw [Move.advance, step_of_nil list]

/-- The walk gives out the accepted paths, each once, shorter ones before longer ones and those of
one length by the places of their arcs; every one of them after finitely many steps. It ends if and
only if no cycle can be reached. -/
theorem walk_shortlex (a : Automaton) :
    (∀ n, (a.acceptedUpTo n).Pairwise Leg.Before ∧
      ∀ legs, legs ∈ a.acceptedUpTo n ↔ a.Accepts legs ∧ legs.length ≤ n) ∧
    (∀ n, ∃ k, (Move.run (step a) (start a) k).2.reverse = (a.acceptedUpTo n).map a.word) ∧
    (∀ k, (Move.run (step a) (start a) k).2.reverse <+: (a.acceptedUpTo k).map a.word) ∧
    ((∃ k, (Move.run (step a) (start a) k).1 = none) ↔ ¬ a.HasCycle) := by
  refine ⟨fun n => ⟨a.acceptedUpTo_pairwise n, fun _ => mem_acceptedUpTo⟩, ?_, run_prefix a, ?_⟩
  · exact fun n => ⟨_, run_length_pathsUpTo a n⟩
  · constructor
    · intro ⟨k, finished⟩
      exact not_hasCycle_of_finished finished
    · exact finished_of_not_hasCycle

end Walk

end Transducer
