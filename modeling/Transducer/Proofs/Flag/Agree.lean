import Mathlib.Logic.Function.Basic
import Transducer.Alphabet
import Transducer.Proofs.Flag.Filter
/-!
What flags mean, by name, and that a filter decides it, whatever it has read before. A filter works
with numbers; as long as it has one for every name, its settings say the same as settings by name.
-/

namespace Transducer

/-- The setting that a verdict leaves. -/
def Verdict.after {ν : Type} (current : Setting ν) : Verdict ν → Option (Setting ν)
  | reject => none
  | keep => some current
  | set setting => some setting

namespace Flag

/-- A flag `f` or `f`, `v` lets a path through on which its feature has the first setting, and
leaves it the second one. -/
inductive Passes {ν : Type} : Flag ν → Setting ν → Setting ν → Prop
  | positive (f v : ν) (x : Setting ν) : Passes ⟨.positive, f, some v⟩ x (.positive v)
  | negative (f v : ν) (x : Setting ν) : Passes ⟨.negative, f, some v⟩ x (.negative v)
  | clear (f : ν) (v : Option ν) (x : Setting ν) : Passes ⟨.clear, f, v⟩ x .neutral
  | requireValue (f v : ν) : Passes ⟨.require, f, some v⟩ (.positive v) (.positive v)
  | requireSet (f : ν) {x : Setting ν} : x ≠ .neutral → Passes ⟨.require, f, none⟩ x x
  | disallowValue (f : ν) {v : ν} {x : Setting ν} : x ≠ .positive v →
      Passes ⟨.disallow, f, some v⟩ x x
  | disallowSet (f : ν) : Passes ⟨.disallow, f, none⟩ .neutral .neutral
  | unifyNeutral (f v : ν) : Passes ⟨.unify, f, some v⟩ .neutral (.positive v)
  | unifyPositive (f v : ν) : Passes ⟨.unify, f, some v⟩ (.positive v) (.positive v)
  | unifyNegative (f : ν) {v w : ν} : w ≠ v → Passes ⟨.unify, f, some v⟩ (.negative w) (.positive v)

/-- The flags among symbols, read from the left, all let a path through that starts with given
settings of the features. -/
inductive Agree : (String → Setting String) → List Symbol → Prop
  | done (settings : String → Setting String) : Agree settings []
  | plain {settings : String → Setting String} {s : Symbol} {rest : List Symbol} :
      isFlag s = false → Agree settings rest → Agree settings (s :: rest)
  | flag {settings : String → Setting String} {s : Symbol} {rest : List Symbol}
      {flag : Flag String} {next : Setting String} : ofSymbol s = .ok flag →
      Passes flag (settings flag.feature) next →
      Agree (Function.update settings flag.feature next) rest → Agree settings (s :: rest)

theorem agree_plain {settings : String → Setting String} {s : Symbol} {rest : List Symbol}
    (h : isFlag s = false) : Agree settings (s :: rest) ↔ Agree settings rest := by
  refine ⟨fun agree => ?_, .plain h⟩
  cases agree with
  | plain _ agree => exact agree
  | flag hf =>
    rw [isFlag_of_ofSymbol hf] at h
    exact absurd h (by decide)

theorem agree_of_plain {symbols : List Symbol} (h : ∀ s ∈ symbols, isFlag s = false)
    (settings : String → Setting String) : Agree settings symbols := by
  induction symbols with
  | nil => exact .done settings
  | cons s rest ih =>
    obtain ⟨here, later⟩ := List.forall_mem_cons.mp h
    exact .plain here (ih later)

theorem agree_flag {settings : String → Setting String} {s : Symbol} {rest : List Symbol}
    {flag : Flag String} (h : ofSymbol s = .ok flag) : Agree settings (s :: rest) ↔
      ∃ next, Passes flag (settings flag.feature) next ∧
        Agree (Function.update settings flag.feature next) rest := by
  constructor
  · intro agree
    cases agree with
    | plain none =>
      rw [isFlag_of_ofSymbol h] at none
      exact absurd none (by decide)
    | flag hf passes agree =>
      obtain rfl := Except.ok.inj (hf.symm.trans h)
      exact ⟨_, passes, agree⟩
  · intro ⟨next, passes, agree⟩
    exact .flag h passes agree

/-- Symbols that are no flags do not matter. -/
theorem agree_filter (settings : String → Setting String) (symbols : List Symbol) :
    Agree settings (symbols.filter isFlag) ↔ Agree settings symbols := by
  induction symbols generalizing settings with
  | nil => exact Iff.rfl
  | cons s rest ih =>
    cases h : isFlag s with
    | false =>
      rw [List.filter_cons_of_neg (by simp [h]), agree_plain h]
      exact ih settings
    | true =>
      obtain ⟨flag, hf⟩ := ofSymbol_of_isFlag h
      rw [List.filter_cons_of_pos h, agree_flag hf, agree_flag hf]
      exact exists_congr fun next => and_congr_right fun _ => ih _

variable {ν : Type} [DecidableEq ν] {flag : Flag ν} {setting next : Setting ν}

omit [DecidableEq ν] in
theorem after_passIf {condition : Bool} :
    (passIf condition).after setting = some next ↔ condition = true ∧ setting = next := by
  cases condition <;> simp [passIf, Verdict.after]

theorem passes_of_after (h : (flag.check setting).after setting = some next) :
    Passes flag setting next := by
  obtain ⟨op, feature, value⟩ := flag
  cases op with
  | positive =>
    cases value with
    | none => cases h
    | some v => cases h; exact .positive ..
  | negative =>
    cases value with
    | none => cases h
    | some v => cases h; exact .negative ..
  | clear =>
    cases h
    exact .clear ..
  | require =>
    cases value with
    | none =>
      obtain ⟨set, rfl⟩ := after_passIf.mp h
      exact .requireSet feature (of_decide_eq_true set)
    | some v =>
      obtain ⟨same, rfl⟩ := after_passIf.mp h
      rw [of_decide_eq_true same]
      exact .requireValue ..
  | disallow =>
    cases value with
    | none =>
      obtain ⟨unset, rfl⟩ := after_passIf.mp h
      rw [of_decide_eq_true unset]
      exact .disallowSet ..
    | some v =>
      obtain ⟨differs, rfl⟩ := after_passIf.mp h
      exact .disallowValue feature (of_decide_eq_true differs)
  | unify =>
    cases value with
    | none => cases h
    | some v =>
      cases setting with
      | neutral => cases h; exact .unifyNeutral ..
      | positive w =>
        obtain ⟨same, rfl⟩ := after_passIf.mp h
        rw [of_decide_eq_true same]
        exact .unifyPositive ..
      | negative w =>
        by_cases same : w = v
        · simp [check, same, Verdict.after] at h
        · simp only [check, if_neg same, Verdict.after, Option.some.injEq] at h
          rw [← h]
          exact .unifyNegative feature same

theorem passes_iff : Passes flag setting next ↔ (flag.check setting).after setting = some next := by
  refine ⟨fun h => ?_, passes_of_after⟩
  cases h <;> simp_all [check, passIf, Verdict.after]

section Decide

variable {settings : String → Setting String} {s : Symbol} {rest : List Symbol}
  {flag : Flag String} {next : Setting String}

theorem agree_of_error {e : FlagError} (h : ofSymbol s = .error e) :
    Agree settings (s :: rest) ↔ Agree settings rest := by
  apply agree_plain
  rw [isFlag, h]
  rfl

theorem not_agree_of_rejected (h : ofSymbol s = .ok flag)
    (rejected : (flag.check (settings flag.feature)).after (settings flag.feature) = none) :
    ¬ Agree settings (s :: rest) := by
  rw [agree_flag h]
  intro ⟨next, passes, _⟩
  rw [passes_iff, rejected] at passes
  cases passes

theorem agree_of_passed (h : ofSymbol s = .ok flag)
    (passed : (flag.check (settings flag.feature)).after (settings flag.feature) = some next) :
    Agree settings (s :: rest) ↔ Agree (Function.update settings flag.feature next) rest := by
  rw [agree_flag h]
  simp only [passes_iff, passed, Option.some.injEq, exists_eq_left']

instance decidableAgree : (settings : String → Setting String) → (symbols : List Symbol) →
    Decidable (Agree settings symbols)
  | settings, [] => isTrue (.done settings)
  | settings, s :: rest =>
    match hf : ofSymbol s with
    | .error _ => @decidable_of_iff' _ _ (agree_of_error hf) (decidableAgree settings rest)
    | .ok flag =>
      match hc : (flag.check (settings flag.feature)).after (settings flag.feature) with
      | none => isFalse (not_agree_of_rejected hf hc)
      | some next => @decidable_of_iff' _ _ (agree_of_passed hf hc)
          (decidableAgree (Function.update settings flag.feature next) rest)

end Decide

end Flag

/-- The second setting is the first with a number for its value. -/
inductive Setting.Numbered (t : Names) : Setting String → Setting Nat → Prop
  | neutral : Numbered t .neutral .neutral
  | positive {v : String} {n : Nat} : t.numbers[v]? = some n →
      Numbered t (.positive v) (.positive n)
  | negative {v : String} {n : Nat} : t.numbers[v]? = some n →
      Numbered t (.negative v) (.negative n)

namespace Setting.Numbered

variable {t u : Names} {x : Setting String} {y : Setting Nat} {v : String} {n : Nat}

theorem mono (h : Numbered t x y) (extend : t.Extends u) : Numbered u x y := by
  cases h with
  | neutral => exact .neutral
  | positive hv => exact .positive (extend _ _ hv)
  | negative hv => exact .negative (extend _ _ hv)

theorem eq_neutral_iff (h : Numbered t x y) : x = .neutral ↔ y = .neutral := by
  cases h <;> simp

theorem eq_positive_iff (ht : t.Numbered) (h : Numbered t x y) (hv : t.numbers[v]? = some n) :
    x = .positive v ↔ y = .positive n := by
  cases h with
  | neutral => simp
  | negative => simp
  | positive hw => rw [Setting.positive.injEq, Setting.positive.injEq, ht.eq_iff hw hv]

end Setting.Numbered

section Numbers

variable {r : Register} {flag : Flag String} {number : Flag Nat} {x : Setting String}
  {y : Setting Nat}

theorem rel_passIf {p q : Prop} [Decidable p] [Decidable q] (same : p ↔ q)
    (h : x.Numbered r.values y) : Option.Rel (Setting.Numbered r.values)
      ((Flag.passIf (decide p)).after x) ((Flag.passIf (decide q)).after y) := by
  by_cases hp : p
  · simp only [Flag.passIf, hp, same.mp hp, decide_true, if_true, Verdict.after]
    exact .some h
  · simp only [Flag.passIf, hp, mt same.mpr hp, decide_false, Bool.false_eq_true, if_false,
      Verdict.after]
    exact .none

/-- A flag and its numbered form judge alike. -/
theorem Register.Gives.check (values : r.values.Numbered) (gives : r.Gives flag number)
    (h : x.Numbered r.values y) : Option.Rel (Setting.Numbered r.values)
      ((flag.check x).after x) ((number.check y).after y) := by
  obtain ⟨op, f, value⟩ := flag
  obtain ⟨_, g, numberOfValue⟩ := number
  obtain ⟨rfl, -, hv⟩ := gives
  cases hv with
  | none =>
    cases op with
    | positive => exact .none
    | negative => exact .none
    | unify => exact .none
    | clear => exact .some .neutral
    | require => exact rel_passIf (not_congr h.eq_neutral_iff) h
    | disallow => exact rel_passIf h.eq_neutral_iff h
  | some hv =>
    have same := h.eq_positive_iff values hv
    cases op with
    | positive => exact .some (.positive hv)
    | negative => exact .some (.negative hv)
    | clear => exact .some .neutral
    | require => exact rel_passIf same h
    | disallow => exact rel_passIf (not_congr same) h
    | unify =>
      cases h with
      | neutral => exact .some (.positive hv)
      | positive hw => exact rel_passIf (values.eq_iff hw hv) (.positive hw)
      | negative hw =>
        simp only [Flag.check, values.eq_iff hw hv]
        split
        · exact .none
        · exact .some (.positive hv)

/-- A flag rejects, or leaves a setting and its number. -/
theorem Register.Gives.check_cases (values : r.values.Numbered) (gives : r.Gives flag number)
    (h : x.Numbered r.values y) :
    ((flag.check x).after x = none ∧ number.check y = .reject) ∨
      ∃ next set, (flag.check x).after x = some next ∧ next.Numbered r.values set ∧
        (number.check y = .keep ∧ set = y ∨ number.check y = .set set) := by
  have verdicts := gives.check values h
  cases hn : (flag.check x).after x with
  | none =>
    rw [hn] at verdicts
    cases hc : number.check y with
    | reject => exact .inl ⟨rfl, rfl⟩
    | keep => rw [hc] at verdicts; cases verdicts
    | set set => rw [hc] at verdicts; cases verdicts
  | some next =>
    rw [hn] at verdicts
    cases hc : number.check y with
    | reject => rw [hc] at verdicts; cases verdicts
    | keep =>
      rw [hc] at verdicts
      cases verdicts with
      | some same => exact .inr ⟨next, y, rfl, same, .inl ⟨rfl, rfl⟩⟩
    | set set =>
      rw [hc] at verdicts
      cases verdicts with
      | some same => exact .inr ⟨next, set, rfl, same, .inr rfl⟩

end Numbers

/-- Settings by number say what settings by name do. Names without a number are neutral, and so
are numbers without a name. -/
structure Settings.Means (r : Register) (settings : Settings)
    (byName : String → Setting String) : Prop where
  numbered : ∀ (name : String) (n : Nat), r.features.numbers[name]? = some n →
    (byName name).Numbered r.values (settings.of n)
  unread : ∀ name : String, r.features.numbers[name]? = none → byName name = .neutral
  unused : ∀ n, r.features.size ≤ n → settings.of n = .neutral

namespace Settings.Means

variable {r r' : Register} {settings : Settings} {byName : String → Setting String}

theorem start (r : Register) (count : Nat) : Means r (.neutral count) fun _ => .neutral := by
  refine ⟨fun _ n _ => ?_, fun _ _ => rfl, fun n _ => of_neutral count n⟩
  rw [of_neutral]
  exact .neutral

theorem congr {others : Settings} (h : Means r settings byName)
    (same : ∀ n, settings.of n = others.of n) : Means r others byName :=
  ⟨fun name n hn => same n ▸ h.numbered name n hn, h.unread, fun n le => same n ▸ h.unused n le⟩

theorem reach (h : Means r settings byName) (feature : Nat) :
    Means r (settings.reach feature) byName :=
  h.congr fun n => (of_reach settings feature n).symm

theorem mono (h : Means r settings byName) (features : r.features.Numbered)
    (features' : r'.features.Numbered) (extend : r.Extends r') : Means r' settings byName := by
  refine ⟨fun name n hn => ?_, fun name none => ?_, fun n le => ?_⟩
  · cases hr : r.features.numbers[name]? with
    | some m =>
      have e : m = n := Option.some.inj ((extend.features name m hr).symm.trans hn)
      exact (h.numbered name n (e ▸ hr)).mono extend.values
    | none =>
      have new : r.features.size ≤ n := by
        by_contra old
        obtain ⟨other, ho⟩ := features.onto n (Nat.lt_of_not_le old)
        have e := features'.injective name other n hn (extend.features other n ho)
        rw [e, ho] at hr
        exact absurd hr (by simp)
      rw [h.unread name hr, h.unused n new]
      exact .neutral
  · apply h.unread
    cases hr : r.features.numbers[name]? with
    | none => rfl
    | some m =>
      rw [extend.features name m hr] at none
      exact absurd none (by simp)
  · apply h.unused
    by_contra old
    obtain ⟨other, ho⟩ := features.onto n (Nat.lt_of_not_le old)
    have lt := features'.lt other n (extend.features other n ho)
    omega

theorem update (h : Means r settings byName) (features : r.features.Numbered) {name : String}
    {f : Nat} {x : Setting String} {y : Setting Nat} (hf : r.features.numbers[name]? = some f)
    (hx : x.Numbered r.values y) (inside : f < settings.size) :
    Means r (settings.set f y) (Function.update byName name x) := by
  refine ⟨fun other n hn => ?_, fun other none => ?_, fun n le => ?_⟩
  · rw [of_set inside, Function.update_apply]
    by_cases e : other = name
    · rw [if_pos e, if_pos ((features.eq_iff hn hf).mp e)]
      exact hx
    · rw [if_neg e, if_neg (mt (features.eq_iff hn hf).mpr e)]
      exact h.numbered other n hn
  · rw [Function.update_apply, if_neg]
    · exact h.unread other none
    · intro same
      rw [same, hf] at none
      exact absurd none (by simp)
  · have lt := features.lt name f hf
    rw [of_set inside, if_neg (by omega)]
    exact h.unused n le

/-- Setting a feature to what it is changes nothing. -/
theorem of_set_self {f : Nat} (inside : f < settings.size)
    (h : Means r (settings.set f (settings.of f)) byName) : Means r settings byName := by
  apply h.congr
  intro n
  rw [of_set inside]
  split
  · next here => rw [here]
  · rfl

end Settings.Means

namespace FlagFilter

open Transducer.Flag Transducer.Register

variable {known symbols : List Symbol} {settings : Settings} {byName : String → Setting String}
  {f : FlagFilter} {s : Symbol} {flag : Flag String}

/-- A filter that has numbered flags of known symbols only, and keeps their numbers. -/
structure Serves (known : List Symbol) (f : FlagFilter) : Prop where
  register : f.register.Serves known
  coherent : f.Coherent

theorem Serves.looked (serves : f.Serves known) (hs : Known known s) :
    (f.lookup s).2.Serves known := by
  refine ⟨?_, serves.coherent.lookup s⟩
  rw [(serves.coherent.lookup_eq s).2]
  exact serves.register.read hs

/-- Where the names fit, every flag that is looked up is found with its numbers. -/
theorem Serves.lookup (fit : Fit known) (serves : f.Serves known) (hs : Known known s)
    (hf : ofSymbol s = .ok flag) : ∃ number g, f.lookup s = (some number, g) ∧ g.Serves known ∧
      f.register.Extends g.register ∧ g.register.Gives flag number := by
  obtain ⟨number, hr, gives⟩ := read_spec fit serves.register hs hf
  obtain ⟨found, same⟩ := serves.coherent.lookup_eq s
  rw [hr] at found
  refine ⟨number, (f.lookup s).2, Prod.ext found rfl, serves.looked hs, ?_, ?_⟩
  · rw [same]
    exact f.register.extends_read s
  · rw [same]
    exact gives

/-- Whatever a filter has scanned and judged, however early the verdicts were reached and whether
there was room for all names or not, it has numbered flags of these symbols only, and what it keeps
are their numbers. -/
theorem serves_after {scanned : List Symbol} {earlier : List (List Symbol)} (scan : scanned ⊆ known)
    (past : ∀ symbols ∈ earlier, symbols ⊆ known) :
    ((ofSymbols scanned).after earlier).Serves known := by
  refine after_keeps (ofSymbols_keeps ⟨serves_empty known, coherent_empty⟩ ?_) ?_
  · exact fun s mem f serves => serves.looked (known_of_mem (scan mem))
  · intro symbols listed s mem f serves
    exact serves.looked (known_of_mem (past symbols listed mem))

theorem serves_ofSymbols (h : symbols ⊆ known) : (ofSymbols symbols).Serves known :=
  serves_after h (List.forall_mem_nil _)

/-- Following the flags of known symbols tells whether they agree. -/
theorem Serves.follow_iff (fit : Fit known) (serves : f.Serves known)
    (means : settings.Means f.register byName) (hs : ∀ s ∈ symbols, Known known s) :
    (f.follow settings symbols).1 = true ↔ Agree byName symbols := by
  induction symbols generalizing f settings byName with
  | nil => exact ⟨fun _ => .done _, fun _ => rfl⟩
  | cons s rest ih =>
    have others : ∀ s ∈ rest, Known known s := fun s h => hs s (List.mem_cons_of_mem _ h)
    cases h : isFlag s with
    | false =>
      rw [follow_plain h, agree_plain h]
      exact ih serves means others
    | true =>
      obtain ⟨flag, hf⟩ := ofSymbol_of_isFlag h
      obtain ⟨number, g, hl, serves', extend, gives⟩ :=
        serves.lookup fit (hs s List.mem_cons_self) hf
      have register := serves'.register
      have means' := means.mono serves.register.features register.features extend
      have room := means'.reach number.feature
      have inside := settings.lt_size_reach number.feature
      have before := room.numbered flag.feature number.feature gives.feature
      rw [follow_flag h hl, agree_flag hf, ← Settings.of_reach settings number.feature]
      simp only [passes_iff]
      rcases gives.check_cases register.values before with
        ⟨none, reject⟩ | ⟨next, set, some, same, kept⟩
      · simp [none, reject]
      · have updated := room.update register.features gives.feature same inside
        rcases kept with ⟨keep, rfl⟩ | changed
        · simpa [some, keep] using ih serves' (updated.of_set_self inside) others
        · simpa [some, changed] using ih serves' updated others

/-- A filter accepts the sequences in which flags agree, whatever it has read before, and goes on to
serve. -/
theorem accepts_spec (fit : Fit known) (serves : f.Serves known)
    (hs : ∀ s ∈ symbols, Known known s) :
    ((f.accepts symbols).1 = true ↔ Agree (fun _ => .neutral) symbols) ∧
      (f.accepts symbols).2.Serves known := by
  refine ⟨serves.follow_iff fit (.start f.register _) hs, ?_⟩
  exact follow_keeps (fun s mem f serves => serves.looked (hs s mem)) _ serves

/-- A filter that has scanned an alphabet in any order and judged any sequences since accepts just
those in which flags agree by name, if there are numbers for all the names among them. -/
theorem accepts_after_iff (alphabet : Alphabet) {scanned : List Symbol}
    (order : scanned.Perm alphabet.symbols) (earlier : List (List Symbol)) (symbols : List Symbol)
    (fit : Flag.Fit (alphabet.symbols ++ earlier.flatten ++ symbols)) :
    (((ofSymbols scanned).after earlier).accepts symbols).1 = true ↔
      Flag.Agree (fun _ => .neutral) symbols := by
  let known := alphabet.symbols ++ earlier.flatten ++ symbols
  have scan : scanned ⊆ known := by
    intro s hs
    apply List.mem_append_left
    apply List.mem_append_left
    exact order.subset hs
  have past : ∀ symbols ∈ earlier, symbols ⊆ known := by
    intro others ho s hs
    apply List.mem_append_left
    apply List.mem_append_right
    exact List.mem_flatten.mpr ⟨others, ho, hs⟩
  have present : ∀ s ∈ symbols, Flag.Known known s := by
    intro s hs
    exact Flag.known_of_mem (List.mem_append_right _ hs)
  exact (accepts_spec fit (serves_after scan past) present).1

/-- A filter that has scanned one flag. Of the sequences before, the first reads a flag twice, sets
a feature without a slot and is given up early; in the last two, new features come behind one that
has been set, and the setting is tested at the end. -/
theorem accepts_after_iff_new_features :
    let alphabet : Alphabet := .ofList ["a", "@R.F.V@"]
    let earlier := [["@P.G.V@", "@P.G.V@", "@N.H.W@", "@D.G@", "@P.F.W@"], ["@U.F.V@"]]
    let agreeing := ["@U.F.W@", "a", "@P.I.V@", "@R.F.W@", "@D.J@", "@U.G.W@", "@R.I.V@"]
    let other := ["@U.F.W@", "@P.I.V@", "@R.F.V@"]
    let known := alphabet.symbols ++ earlier.flatten
    ["a", "@R.F.V@"].Perm alphabet.symbols ∧ Flag.Fit (known ++ agreeing) ∧
      Flag.Fit (known ++ other) ∧
      (((ofSymbols ["a", "@R.F.V@"]).after earlier).accepts agreeing).1 = true ∧
      (((ofSymbols ["a", "@R.F.V@"]).after earlier).accepts other).1 = false := by
  intro alphabet earlier agreeing other known
  have order : ["a", "@R.F.V@"].Perm alphabet.symbols := by decide +kernel
  have fit : Flag.Fit (known ++ agreeing) := ⟨by decide +kernel, by decide +kernel⟩
  have fit' : Flag.Fit (known ++ other) := ⟨by decide +kernel, by decide +kernel⟩
  refine ⟨order, fit, fit', ?_, ?_⟩
  · exact (accepts_after_iff alphabet order earlier agreeing fit).mpr (by decide +kernel)
  · rw [← Bool.not_eq_true, accepts_after_iff alphabet order earlier other fit']
    decide +kernel

end FlagFilter

end Transducer
