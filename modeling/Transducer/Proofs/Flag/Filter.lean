import Transducer.Flag.Filter
import Transducer.Proofs.Flag.Register
/-!
What a filter keeps. The settings grow in the middle of a sequence without a change to those that
are there. What is kept of a flag are the numbers that its names have in the register, and these
stay; so a flag that is found is the one that reading it again would give. A filter changes by
look-ups only, so what one of them keeps holds for as long as the filter lives.
-/

namespace Transducer

namespace Settings

variable {settings : Settings} {feature n : Nat} {x : Setting Nat}

/-- The setting of a feature; without a slot it is neutral. -/
def of (settings : Settings) (feature : Nat) : Setting Nat := settings[feature]?.getD .neutral

theorem of_neutral (count feature : Nat) : (neutral count).of feature = .neutral := by
  rw [of, neutral, Array.getElem?_replicate]
  split <;> rfl

/-- Slots that are added leave all settings as they are. -/
theorem of_reach (settings : Settings) (feature n : Nat) :
    (settings.reach feature).of n = settings.of n := by
  rw [reach]
  split
  · rfl
  · rcases Nat.lt_or_ge n settings.size with old | new
    · rw [of, Array.getElem?_append_left old, of]
    · rw [of, Array.getElem?_append_right new, ← of, of_neutral, of, Array.getElem?_eq_none new]
      rfl

theorem getElem_eq_of (h : feature < settings.size) : settings[feature] = settings.of feature := by
  rw [of, Array.getElem?_eq_getElem h, Option.getD_some]

theorem of_set (h : feature < settings.size) :
    of (settings.set feature x) n = if n = feature then x else settings.of n := by
  rw [of, Array.getElem?_set]
  by_cases same : n = feature
  · rw [if_pos same, if_pos same.symm]
    rfl
  · rw [if_neg same, if_neg (Ne.symm same), of]

end Settings

namespace FlagFilter

open Transducer.Flag Transducer.Register

variable {f : FlagFilter} {s : Symbol} {flag : Flag String} {number : Flag Nat}
  {settings : Settings}

/-- What can become of a flag that is looked up. -/
inductive Looks (f : FlagFilter) (s : Symbol) : Option (Flag Nat) × FlagFilter → Prop
  | kept {number : Flag Nat} : f.parsed[s]? = some number → Looks f s (some number, f)
  | refused {e : FlagError} {register : Register} : f.parsed[s]? = none →
      f.register.read s = (.error e, register) → Looks f s (none, ⟨register, f.parsed⟩)
  | read {number : Flag Nat} {register : Register} : f.parsed[s]? = none →
      f.register.read s = (.ok number, register) →
      Looks f s (some number, ⟨register, f.parsed.insert s number⟩)

theorem looks (f : FlagFilter) (s : Symbol) : f.Looks s (f.lookup s) := by
  rw [lookup]
  cases hk : f.parsed[s]? with
  | some number => exact .kept hk
  | none =>
    rcases hr : f.register.read s with ⟨_ | number, register⟩
    · exact .refused hk hr
    · exact .read hk hr

/-- What is kept of a flag are the numbers that its names have in the register. -/
def Coherent (f : FlagFilter) : Prop :=
  ∀ (s : Symbol) (number : Flag Nat), f.parsed[s]? = some number →
    ∃ flag, ofSymbol s = .ok flag ∧ f.register.Gives flag number

theorem coherent_empty : Coherent {} := by
  intro s number kept
  simp at kept

/-- The numbers that are kept stay right while the register grows. -/
theorem Coherent.grown (h : f.Coherent) {register : Register}
    (extend : f.register.Extends register) : Coherent ⟨register, f.parsed⟩ := by
  intro s number kept
  obtain ⟨flag, hf, gives⟩ := h s number kept
  exact ⟨flag, hf, gives.mono extend⟩

theorem Coherent.insert (h : f.Coherent) (hf : ofSymbol s = .ok flag)
    (gives : f.register.Gives flag number) :
    Coherent ⟨f.register, f.parsed.insert s number⟩ := by
  intro other m kept
  rw [Std.HashMap.getElem?_insert] at kept
  split at kept
  · next same =>
    obtain rfl := eq_of_beq same
    obtain rfl := Option.some.inj kept
    exact ⟨flag, hf, gives⟩
  · exact h other m kept

theorem Coherent.lookup (h : f.Coherent) (s : Symbol) : (f.lookup s).2.Coherent := by
  have extend := f.register.extends_read s
  have outcome := f.looks s
  generalize f.lookup s = found at outcome
  cases outcome with
  | kept _ => exact h
  | refused _ hr =>
    rw [hr] at extend
    exact h.grown extend
  | read _ hr =>
    obtain ⟨flag, hf, gives⟩ := gives_of_read hr
    rw [hr] at extend
    exact (h.grown extend).insert hf gives

/-- Looking up a flag gives what reading it gives, and numbers the same names. -/
theorem Coherent.lookup_eq (h : f.Coherent) (s : Symbol) :
    (f.lookup s).1 = (f.register.read s).1.toOption ∧
      (f.lookup s).2.register = (f.register.read s).2 := by
  have outcome := f.looks s
  generalize f.lookup s = found at outcome
  cases outcome with
  | kept kept =>
    obtain ⟨flag, hf, gives⟩ := h s _ kept
    rw [gives.read hf]
    exact ⟨rfl, rfl⟩
  | refused _ hr =>
    rw [hr]
    exact ⟨rfl, rfl⟩
  | read _ hr =>
    rw [hr]
    exact ⟨rfl, rfl⟩

theorem follow_plain {rest : List Symbol} (h : isFlag s = false) :
    f.follow settings (s :: rest) = f.follow settings rest := by
  rw [follow, h]
  rfl

/-- Following a flag that cannot be numbered. -/
theorem follow_refused {rest : List Symbol} {g : FlagFilter} (h : isFlag s = true)
    (hl : f.lookup s = (none, g)) :
    f.follow settings (s :: rest) = g.follow settings rest := by
  rw [follow, h, hl]
  rfl

/-- Following a flag that can be numbered, in slots that reach its feature. -/
theorem follow_flag {rest : List Symbol} {g : FlagFilter} (h : isFlag s = true)
    (hl : f.lookup s = (some number, g)) :
    f.follow settings (s :: rest) =
      match number.check (settings.of number.feature) with
      | .reject => (false, g)
      | .keep => g.follow (settings.reach number.feature) rest
      | .set next => g.follow ((settings.reach number.feature).set number.feature next
          (settings.lt_size_reach number.feature)) rest := by
  have inside := settings.lt_size_reach number.feature
  rw [← Settings.of_reach settings number.feature, ← Settings.getElem_eq_of inside, follow, h, hl]
  rfl

/-- The filter when it has judged sequences, one after the other. -/
def after (f : FlagFilter) (earlier : List (List Symbol)) : FlagFilter :=
  earlier.foldl (fun f symbols => (f.accepts symbols).2) f

section Keeps

variable {P : FlagFilter → Prop} {symbols : List Symbol} {earlier : List (List Symbol)}

theorem ofSymbols_keeps (init : P {}) (keeps : ∀ s ∈ symbols, ∀ f, P f → P (f.lookup s).2) :
    P (ofSymbols symbols) :=
  List.foldlRecOn _ _ init fun f h s mem => keeps s (List.mem_of_mem_filter mem) f h

/-- Following a sequence changes a filter by looking up its flags, as far as it is followed. -/
theorem follow_keeps (keeps : ∀ s ∈ symbols, ∀ f, P f → P (f.lookup s).2) (settings : Settings)
    (h : P f) : P (f.follow settings symbols).2 := by
  induction symbols generalizing f settings with
  | nil => exact h
  | cons s rest ih =>
    obtain ⟨here, others⟩ := List.forall_mem_cons.mp keeps
    cases flag : isFlag s with
    | false =>
      rw [follow_plain flag]
      exact ih others settings h
    | true =>
      have next := here f h
      rcases hl : f.lookup s with ⟨_ | number, g⟩
      · rw [hl] at next
        rw [follow_refused flag hl]
        exact ih others settings next
      · rw [hl] at next
        rw [follow_flag flag hl]
        split
        · exact next
        · exact ih others _ next
        · exact ih others _ next

theorem after_keeps (h : P f)
    (keeps : ∀ symbols ∈ earlier, ∀ s ∈ symbols, ∀ f, P f → P (f.lookup s).2) :
    P (f.after earlier) :=
  List.foldlRecOn _ _ h fun _ h symbols mem => follow_keeps (keeps symbols mem) _ h

end Keeps

end FlagFilter

end Transducer
