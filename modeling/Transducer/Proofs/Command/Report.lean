import Transducer.Command.Report
import Transducer.Proofs.Enumeration
/-!
Reports written to a sink without an end. Once the report is over, the sink has all of its lines.
-/

namespace Transducer.Command

namespace Sink

variable {σ : Type}

/-- A sink without an end takes all that an enumeration finds before it finishes. -/
theorem drain_eq_run (step : σ → Move σ String) (n : Nat) (written : ByteArray) (s : σ) :
    drain step n { written } s =
      if (Move.run step s n).1 = none then
        some { written := written ++ (String.join (Move.run step s n).2.reverse).toUTF8 }
      else none := by
  induction n generalizing written s with
  | zero => rfl
  | succ n ih =>
    rw [drain]
    cases h : step s with
    | finished => simp [Move.run_of_finished h]
    | silent next => simp [Move.run_of_silent h, ih]
    | found text next =>
      have write : ({ written } : Sink).write text = { written := written ++ text.toUTF8 } := rfl
      simp only [Bool.false_eq_true, if_false, write, ih, Move.run_of_found h,
        List.reverse_append, List.reverse_singleton, List.singleton_append, String.join_cons,
        String.toUTF8_eq_toByteArray, String.toByteArray_append, ByteArray.append_assoc]

end Sink

/-- The items that a quota lets through. -/
def Quota.first {α : Type} (limit : Quota) (items : List α) : List α :=
  match limit with
  | none => items
  | some n => items.take n

variable {limit : Quota}

theorem Quota.first_nil {α : Type} (limit : Quota) : limit.first ([] : List α) = [] := by
  cases limit with
  | none => rfl
  | some n => exact List.take_nil

theorem Quota.first_zero {α : Type} (items : List α) : Quota.first (some 0) items = [] := rfl

theorem Quota.first_cons {α : Type} {limit : Quota} (more : limit ≠ some 0) (item : α)
    (items : List α) : limit.first (item :: items) = item :: first (limit.map (· - 1)) items := by
  match limit with
  | none => rfl
  | some 0 => exact absurd rfl more
  | some (n + 1) => rfl

theorem Quota.first_eq_nil_iff {α : Type} {items : List α} :
    limit.first items = [] ↔ items = [] ∨ limit = some 0 := by
  cases limit with
  | none => simp [Quota.first]
  | some n => simp [Quota.first, or_comm]

end Transducer.Command
