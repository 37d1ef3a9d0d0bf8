import Mathlib.Algebra.Order.BigOperators.Group.List
import Mathlib.Algebra.Order.Group.Nat
import Transducer.Grammar.Compile
import Transducer.Proofs.Command.Report
import Transducer.Proofs.Words.Shortlex
/-!
The listing of accepted paths under a limit. The limit counts lines: it is reached if there are
that many accepted paths, and if there are fewer the walk has to run empty by itself, which it does
not do once a cycle can be reached.
-/

namespace Transducer

namespace Automaton

variable {a : Automaton} {limit n : Nat}

/-- The accepted paths that come first, as many as there are up to a limit. -/
structure First (a : Automaton) (limit : Nat) (paths : List (List Leg)) : Prop where
  ordered : paths.Pairwise Leg.Before
  accepted : ∀ legs ∈ paths, a.Accepts legs
  few : paths.length ≤ limit
  first : ∀ legs, a.Accepts legs →
    legs ∈ paths ∨ paths.length = limit ∧ ∀ other ∈ paths, Leg.Before other legs

/-- The paths of a few lengths begin with those that come first, if they are enough or all. -/
theorem first_take (h : limit ≤ (a.acceptedUpTo n).length ∨
    ∀ legs, a.Accepts legs → legs ∈ a.acceptedUpTo n) :
    a.First limit ((a.acceptedUpTo n).take limit) := by
  have ordered := a.acceptedUpTo_pairwise n
  refine ⟨ordered.sublist (List.take_sublist ..), ?_, List.length_take_le .., ?_⟩
  · intro legs mem
    exact (mem_acceptedUpTo.mp (List.mem_of_mem_take mem)).1
  · intro legs accepts
    by_cases among : legs ∈ a.acceptedUpTo n
    · rw [← List.take_append_drop limit (a.acceptedUpTo n)] at among ordered
      rcases List.mem_append.mp among with front | back
      · exact .inl front
      · have more := List.length_pos_of_mem back
        rw [List.length_drop] at more
        refine .inr ⟨List.length_take_of_le (by omega), fun other here => ?_⟩
        exact (List.pairwise_append.mp ordered).2.2 other here legs back
    · have enough : limit ≤ (a.acceptedUpTo n).length := h.resolve_right fun all =>
        among (all legs accepts)
      have long : n < legs.length := by
        by_contra short
        exact among (mem_acceptedUpTo.mpr ⟨accepts, Nat.le_of_not_lt short⟩)
      refine .inr ⟨List.length_take_of_le enough, fun other here => .inl ?_⟩
      have le := (mem_acceptedUpTo.mp (List.mem_of_mem_take here)).2
      omega

/-- There are so many accepted paths, or more. -/
def AcceptsAtLeast (a : Automaton) (count : Nat) : Prop :=
  ∃ paths : List (List Leg), paths.Nodup ∧ (∀ legs ∈ paths, a.Accepts legs) ∧ count ≤ paths.length

/-- So many of them are among those up to some length. -/
theorem acceptsAtLeast_iff : a.AcceptsAtLeast limit ↔ ∃ n, limit ≤ (a.acceptedUpTo n).length := by
  constructor
  · intro ⟨paths, nodup, accepted, enough⟩
    let total := (paths.map List.length).sum
    refine ⟨total, Nat.le_trans enough (nodup.subperm fun legs mem => ?_).length_le⟩
    exact mem_acceptedUpTo.mpr ⟨accepted legs mem, List.le_sum_of_mem (List.mem_map_of_mem mem)⟩
  · intro ⟨n, enough⟩
    exact ⟨_, a.acceptedUpTo_nodup n, fun legs mem => (mem_acceptedUpTo.mp mem).1, enough⟩

end Automaton

namespace Command

open Automaton

variable {a : Automaton} {walk next : Walk} {words : List Word} {limit steps : Nat} {sink : Sink}

/-- The lines of some words, one after the other. -/
def wordLines (words : List Word) : String := String.join (words.map wordLine)

namespace WordReport

theorem step_of_full : step a ⟨walk, some 0⟩ = .finished := if_pos rfl

theorem step_of_finished (h : Walk.step a walk = .finished) :
    step a ⟨walk, some (limit + 1)⟩ = .finished := by
  simp [step, h]

theorem step_of_silent (h : Walk.step a walk = .silent next) :
    step a ⟨walk, some (limit + 1)⟩ = .silent ⟨next, some (limit + 1)⟩ := by
  simp [step, h]

theorem step_of_found {w : Word} (h : Walk.step a walk = .found w next) :
    step a ⟨walk, some (limit + 1)⟩ = .found (wordLine w) ⟨next, some limit⟩ := by
  simp [step, h]

/-- The report has a line for each word that the walk gives out; that the limit is reached is seen
one step later. -/
theorem run_of_take (h : Move.take (Walk.step a) steps limit walk = some words) :
    Move.run (step a) ⟨walk, some limit⟩ (steps + 1) = (none, (words.map wordLine).reverse) := by
  induction steps generalizing limit walk words with
  | zero =>
    cases limit with
    | zero =>
      obtain rfl := Option.some.inj h
      exact Move.run_of_finished step_of_full
    | succ limit => cases h
  | succ steps ih =>
    cases limit with
    | zero =>
      obtain rfl := Option.some.inj h
      exact Move.run_of_finished step_of_full
    | succ limit =>
      rw [Move.take] at h
      cases hs : Walk.step a walk with
      | finished =>
        rw [hs] at h
        obtain rfl := Option.some.inj h
        exact Move.run_of_finished (step_of_finished hs)
      | silent next =>
        rw [hs] at h
        rw [Move.run_of_silent (step_of_silent hs), ih h]
      | found w next =>
        rw [hs] at h
        obtain ⟨rest, taken, rfl⟩ := Option.map_eq_some_iff.mp h
        rw [Move.run_of_found (step_of_found hs), ih taken, List.map_cons, List.reverse_cons]

theorem exists_take_of_ended
    (ended : (Move.run (step a) ⟨walk, some limit⟩ steps).1 = none) :
    ∃ words, Move.take (Walk.step a) steps limit walk = some words := by
  induction steps generalizing limit walk with
  | zero => cases ended
  | succ steps ih =>
    cases limit with
    | zero => exact ⟨[], rfl⟩
    | succ limit =>
      rw [Move.take]
      cases hs : Walk.step a walk with
      | finished => exact ⟨[], rfl⟩
      | silent next =>
        rw [Move.run_of_silent (step_of_silent hs)] at ended
        exact ih ended
      | found w next =>
        rw [Move.run_of_found (step_of_found hs)] at ended
        obtain ⟨rest, taken⟩ := ih ended
        exact ⟨w :: rest, congrArg (Option.map (w :: ·)) taken⟩

end WordReport

section Drain

variable (written : ByteArray)

theorem drain_of_take (h : Move.take (Walk.step a) steps limit walk = some words) :
    Sink.drain (WordReport.step a) (steps + 1) { written } ⟨walk, some limit⟩ =
      some { written := written ++ (wordLines words).toUTF8 } := by
  rw [Sink.drain_eq_run, WordReport.run_of_take h, if_pos rfl, List.reverse_reverse, wordLines]

theorem exists_take_of_drain
    (h : Sink.drain (WordReport.step a) steps { written } ⟨walk, some limit⟩ = some sink) :
    ∃ words, Move.take (Walk.step a) steps limit walk = some words ∧
      sink = { written := written ++ (wordLines words).toUTF8 } := by
  rw [Sink.drain_eq_run] at h
  split at h
  · next ended =>
    obtain ⟨words, taken⟩ := WordReport.exists_take_of_ended ended
    have report := WordReport.run_of_take taken
    rw [Move.run_eq_of_ended ended (congrArg Prod.fst report), report, List.reverse_reverse] at h
    exact ⟨words, taken, (Option.some.inj h).symm⟩
  · cases h

end Drain

/-- What is taken from the walk under a limit are the paths that come first. -/
theorem exists_first_of_take
    (h : Move.take (Walk.step a) steps limit (Walk.start a) = some words) :
    ∃ paths, a.First limit paths ∧ words = paths.map a.word := by
  rw [Move.take_eq_run] at h
  split at h
  · next stops =>
    obtain rfl := Option.some.inj h
    refine ⟨(a.acceptedUpTo steps).take limit, first_take ?_, ?_⟩
    · rcases stops with enough | finished
      · exact .inl (Nat.le_trans enough (Walk.length_run_le a steps))
      · exact .inr (Walk.run_finished finished).2
    · rw [List.map_take]
      rcases stops with enough | finished
      · obtain ⟨more, all⟩ := Walk.run_prefix a steps
        rw [← all, List.take_append_of_le_length (by rwa [List.length_reverse])]
      · rw [(Walk.run_finished finished).1]
  · exact absurd h (by simp)

/-- The walk gives out enough or ends if and only if there is enough or no cycle. -/
theorem exists_take_iff (a : Automaton) (limit : Nat) :
    (∃ steps words, Move.take (Walk.step a) steps limit (Walk.start a) = some words) ↔
      ¬ a.HasCycle ∨ a.AcceptsAtLeast limit := by
  simp only [Move.take_eq_run]
  constructor
  · intro ⟨steps, words, h⟩
    split at h
    · next stops =>
      rcases stops with enough | finished
      · right
        exact acceptsAtLeast_iff.mpr ⟨steps, Nat.le_trans enough (Walk.length_run_le a steps)⟩
      · exact .inl (Walk.not_hasCycle_of_finished finished)
    · exact absurd h (by simp)
  · intro ends
    rcases ends with acyclic | many
    · obtain ⟨k, finished⟩ := Walk.finished_of_not_hasCycle acyclic
      exact ⟨k, _, if_pos (.inr finished)⟩
    · obtain ⟨n, enough⟩ := acceptsAtLeast_iff.mp many
      have found := congrArg List.length (Walk.run_length_pathsUpTo a n)
      rw [List.length_reverse, List.length_map] at found
      exact ⟨(a.pathsUpTo n).length, _, if_pos (.inl (by omega))⟩

theorem exists_writeWords_iff (a : Automaton) (limit : Nat) (before : ByteArray) :
    (∃ steps, (writeWords { written := before } a (some limit) steps).isSome) ↔
      ¬ a.HasCycle ∨ a.AcceptsAtLeast limit := by
  rw [← exists_take_iff]
  constructor
  · intro ⟨steps, ends⟩
    obtain ⟨sink, h⟩ := Option.isSome_iff_exists.mp ends
    obtain ⟨words, taken, _⟩ := exists_take_of_drain before h
    exact ⟨steps, words, taken⟩
  · intro ⟨steps, words, taken⟩
    exact ⟨steps + 1, Option.isSome_iff_exists.mpr ⟨_, drain_of_take before taken⟩⟩

/-- Listing under a limit, to a sink without an end, comes to an end if and only if there are as
many accepted paths as the limit says or no cycle can be reached. Whenever it ends, the lines that
have been written are those of the paths that come first, up to the limit. -/
theorem writeWords_limited (a : Automaton) (limit : Nat) (before : ByteArray) :
    ((∃ steps, (writeWords { written := before } a (some limit) steps).isSome) ↔
      ¬ a.HasCycle ∨ a.AcceptsAtLeast limit) ∧
    ∀ steps, writeWords { written := before } a (some limit) steps = none ∨
      ∃ paths, a.First limit paths ∧
        writeWords { written := before } a (some limit) steps =
          some { written := before ++ (wordLines (paths.map a.word)).toUTF8 } := by
  refine ⟨exists_writeWords_iff a limit before, fun steps => ?_⟩
  cases h : writeWords { written := before } a (some limit) steps with
  | none => exact .inl rfl
  | some sink =>
    obtain ⟨words, taken, rfl⟩ := exists_take_of_drain before h
    obtain ⟨paths, first, rfl⟩ := exists_first_of_take taken
    exact .inr ⟨paths, first, rfl⟩

/-- A set whose one rule goes back to it accepts nothing, and the search for a first path goes
on for ever. -/
theorem writeWords_endless : ∃ a,
    ofGrammar ⟨[("S", [{ input := "a", target := "S" }])]⟩ "S" [] = .ok a ∧
      ∀ steps, writeWords {} a (some 1) steps = none := by
  let g : Grammar := ⟨[("S", [{ input := "a", target := "S" }])]⟩
  let a := build g "S" (.ofDeclared [])
  have checked : g.check "S" = .ok () := rfl
  have initial : a.initial = 0 := by decide +kernel
  have arcs : (a.state 0).arcs = [⟨0, .identity "a", .zero⟩] := by decide +kernel
  have leg : (⟨0, 0, .identity "a", .zero⟩ : Leg) ∈ a.legsFrom 0 := by
    rw [mem_legsFrom, arcs]
    rfl
  have stays {id last : StateId} {legs : List Leg} (route : a.Route id legs last)
      (here : id = 0) : last = 0 := by
    induction route with
    | stop => exact here
    | go hl _ ih =>
      subst here
      apply ih
      rw [eq_of_mem_legsFrom arcs hl]
  have cyclic : a.HasCycle := by
    refine ⟨0, [], [⟨0, 0, .identity "a", .zero⟩], initial ▸ .stop _, by simp, .go leg (.stop _)⟩
  have nothing (legs : List Leg) : ¬ a.Accepts legs := by
    intro ⟨last, route, final⟩
    rw [stays route initial] at final
    revert final
    decide +kernel
  refine ⟨a, by rw [ofGrammar, checked]; rfl, fun steps => ?_⟩
  by_contra ends
  rcases (exists_writeWords_iff a 1 .empty).mp ⟨steps, Option.isSome_iff_ne_none.mpr ends⟩ with
    acyclic | ⟨paths, _, accepted, enough⟩
  · exact acyclic cyclic
  · obtain ⟨legs, mem⟩ := List.exists_mem_of_length_pos enough
    exact nothing legs (accepted legs mem)

end Command

end Transducer
