/-!
Lazy enumerations. An enumeration is a state and a step: the step ends it, or moves on, perhaps with
an item. Nothing says that it ends, so every run is given a number of steps.
-/

namespace Transducer

/-- The outcome of one step of an enumeration. -/
inductive Move (σ : Type) (α : Type) where
  | finished
  | silent (next : σ)
  | found (item : α) (next : σ)

namespace Move

variable {σ : Type} {α : Type}

/-- Steps a run, keeping what it has found so far, latest first; a finished run stays. -/
def advance (step : σ → Move σ α) : Option σ × List α → Option σ × List α
  | (none, items) => (none, items)
  | (some s, items) =>
    match step s with
    | finished => (none, items)
    | silent next => (some next, items)
    | found item next => (some next, item :: items)

/-- The run after a number of steps: where it is, unless it has finished, and what it has found,
latest first. -/
def run (step : σ → Move σ α) (start : σ) : Nat → Option σ × List α
  | 0 => (some start, [])
  | steps + 1 => advance step (run step start steps)

/-- The first items, at most `limit` of them; nothing if that takes more than `steps` steps. -/
def take (step : σ → Move σ α) : (steps limit : Nat) → σ → Option (List α)
  | _, 0, _ => some []
  | 0, _ + 1, _ => none
  | steps + 1, limit + 1, s =>
    match step s with
    | finished => some []
    | silent next => take step steps (limit + 1) next
    | found item next => (take step steps limit next).map (item :: ·)

end Move

end Transducer
