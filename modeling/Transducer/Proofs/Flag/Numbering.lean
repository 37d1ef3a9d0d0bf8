import Mathlib.Data.List.Induction
import Transducer.Proofs.Distinct
import Transducer.Proofs.Flag.Scan
/-!
Numbers of flag names over a whole run. A table gives the names that it is asked for their places in
the order in which they first came, up to the last place that it has, and a name without a place
gets none later. So an answer can be read off the register at any later time, and two answers hold
the same number just if they hold it for the same name.
-/

namespace Transducer

namespace Names

variable {t u : Names} {name other : String} {names : List String} {n : Nat}

/-- The table when it has been asked for names, one after the other. -/
def internAll (t : Names) (names : List String) : Names :=
  names.foldl (fun t name => (t.intern name).2) t

/-- Names keep their numbers, and these go to no other name. -/
def Keeps (t u : Names) : Prop :=
  ∀ (name : String) (n : Nat), t.numbers[name]? = some n →
    ∀ other : String, u.numbers[other]? = some n ↔ other = name

/-- The names of the table are those listed, and their numbers are their places in the list. -/
structure Lists (t : Names) (names : List String) : Prop where
  size : t.size = names.length
  place : ∀ (name : String) (n : Nat), t.numbers[name]? = some n ↔ names[n]? = some name

theorem internAll_append (t : Names) (names more : List String) :
    t.internAll (names ++ more) = (t.internAll names).internAll more :=
  List.foldl_append

theorem snd_intern_of_full (full : capacity ≤ t.size) (name : String) : (t.intern name).2 = t := by
  have outcome := t.interns name
  generalize t.intern name = found at outcome
  cases outcome with
  | known _ => rfl
  | new _ room => exact absurd full (Nat.not_le_of_lt room)
  | full _ _ => rfl

theorem internAll_of_full (full : capacity ≤ t.size) (names : List String) :
    t.internAll names = t := by
  induction names with
  | nil => rfl
  | cons name rest ih =>
    rw [internAll, List.foldl_cons, snd_intern_of_full full]
    exact ih

theorem extends_internAll (t : Names) (names : List String) : t.Extends (t.internAll names) := by
  induction names generalizing t with
  | nil => exact fun _ _ h => h
  | cons name rest ih => exact fun other n h => ih _ other n (t.extends_intern name other n h)

/-- What a table says when it is asked for a name is what it says of it ever after. -/
theorem getElem?_internAll_intern (t : Names) (name : String) (later : List String) :
    ((t.intern name).2.internAll later).numbers[name]? = (t.intern name).1 := by
  have outcome := t.interns name
  generalize t.intern name = found at outcome
  cases outcome with
  | known here => exact extends_internAll t later name _ here
  | new _ _ => exact extends_internAll _ later name _ (getElem?_add_self t name)
  | full unknown full =>
    -- a table that refuses a name has no place left, so nothing that comes later changes it
    rw [internAll_of_full full]
    exact unknown

theorem Extends.keeps (h : t.Extends u) (hu : u.Numbered) : t.Keeps u := by
  intro name n given other
  have kept := h name n given
  constructor
  · intro again
    exact hu.injective other name n again kept
  · rintro rfl
    exact kept

theorem eq_of_rel {x : Option String} {i j : Option Nat}
    (h : Option.Rel (fun v n => t.numbers[v]? = some n) x i)
    (h' : Option.Rel (fun v n => t.numbers[v]? = some n) x j) : i = j := by
  cases h with
  | none =>
    cases h' with
    | none => rfl
  | some here =>
    cases h' with
    | some there => exact here.symm.trans there

theorem Numbered.rel_eq_iff {x y : Option String} {i j : Option Nat} (ht : t.Numbered)
    (h : Option.Rel (fun v n => t.numbers[v]? = some n) x i)
    (h' : Option.Rel (fun v n => t.numbers[v]? = some n) y j) : x = y ↔ i = j := by
  cases h with
  | none => cases h' <;> simp
  | some here =>
    cases h' with
    | none => simp
    | some there => rw [Option.some.injEq, Option.some.injEq, ht.eq_iff here there]

theorem lists_empty : Lists {} [] := ⟨rfl, fun _ _ => by simp⟩

namespace Lists

theorem mem_iff (h : t.Lists names) : name ∈ names ↔ t.numbers[name]? ≠ none := by
  rw [List.mem_iff_getElem?, Option.ne_none_iff_exists']
  simp only [h.place]

theorem numbered (h : t.Lists names) : t.Numbered where
  lt name n given := by
    rw [h.size]
    exact (List.getElem?_eq_some_iff.mp ((h.place name n).mp given)).1
  injective name other n given again :=
    Option.some.inj (((h.place name n).mp given).symm.trans ((h.place other n).mp again))
  onto n lt := by
    rw [h.size] at lt
    exact ⟨names[n], (h.place _ n).mpr (List.getElem?_eq_getElem lt)⟩

theorem add (h : t.Lists names) (new : t.numbers[name]? = none) :
    (t.add name).Lists (names ++ [name]) := by
  constructor
  · rw [size_add new, h.size, List.length_append]
    rfl
  · intro other n
    rw [getElem?_add_eq_some_iff new, getElem?_snoc_eq_some_iff, h.place, h.size]

/-- Asking for one more name lists it behind the others, if it is new and has a place. -/
theorem intern (h : t.Lists (firsts capacity names)) (name : String) :
    (t.intern name).2.Lists (firsts capacity (names ++ [name])) := by
  rw [firsts_snoc]
  have outcome := t.interns name
  generalize t.intern name = found at outcome
  cases outcome with
  | known here =>
    rw [if_pos (Or.inl (h.mem_iff.mpr (by simp [here])))]
    exact h
  | new new room =>
    rw [if_neg]
    · exact h.add new
    · rw [h.mem_iff, ← h.size]
      simp [new, room]
  | full _ full =>
    rw [if_pos (Or.inr (h.size ▸ full))]
    exact h

end Lists

/-- A new table lists the names that came first. -/
theorem lists_internAll (names : List String) :
    (({} : Names).internAll names).Lists (firsts capacity names) := by
  induction names using List.reverseRecOn with
  | nil => exact lists_empty
  | append_singleton names name ih =>
    rw [internAll_append]
    exact ih.intern name

/-- The names that were asked for first have the numbers from 0 on, one each and in their order, as
long as there were places. -/
structure Numbers (t : Names) (asked : List String) : Prop where
  numbered : t.Numbered
  bounded : t.size ≤ capacity
  inOrder : t.Lists (firsts capacity asked)

theorem numbers_internAll (asked : List String) : (({} : Names).internAll asked).Numbers asked where
  numbered := (lists_internAll asked).numbered
  bounded := (lists_internAll asked).size ▸ length_firsts_le capacity asked
  inOrder := lists_internAll asked

end Names

namespace Flag

variable {s : Symbol} {rest : List Symbol} {flag : Flag String}

/-- The flags among symbols, in their order. -/
def among (symbols : List Symbol) : List (Flag String) :=
  symbols.filterMap fun s => (ofSymbol s).toOption

/-- The values of those flags whose features have a number. -/
def valueNames (features : Names) (flags : List (Flag String)) : List String :=
  flags.filterMap fun flag =>
    if features.numbers.contains flag.feature then flag.value else none

theorem among_cons_of_error {e : FlagError} (h : ofSymbol s = .error e) :
    among (s :: rest) = among rest :=
  List.filterMap_cons_none (by rw [h]; rfl)

theorem among_cons_of_ok (h : ofSymbol s = .ok flag) : among (s :: rest) = flag :: among rest :=
  List.filterMap_cons_some (by rw [h]; rfl)

theorem valueNames_cons (features : Names) (flag : Flag String) (flags : List (Flag String)) :
    valueNames features (flag :: flags) = valueNames features [flag] ++ valueNames features flags :=
  List.filterMap_append (l := [flag])

end Flag

namespace Register

variable {r : Register} {s : Symbol} {symbols : List Symbol} {flag : Flag String}
  {number : Flag Nat}

theorem features_read (r : Register) (hf : Flag.ofSymbol s = .ok flag) :
    (r.read s).2.features = (r.features.intern flag.feature).2 := by
  have outcome := r.reads hf
  generalize r.read s = found at outcome
  cases outcome with
  | featureRefused hi => rw [hi]
  | bare hi _ => rw [hi]
  | valueRefused hi _ _ => rw [hi]
  | valued hi _ _ => rw [hi]

/-- A flag has its value numbered if its feature has a number, now or later. -/
theorem values_read (r : Register) (hf : Flag.ofSymbol s = .ok flag) {features : Names}
    (told : features.numbers[flag.feature]? = (r.features.intern flag.feature).1) :
    (r.read s).2.values = r.values.internAll (Flag.valueNames features [flag]) := by
  rw [Flag.valueNames, List.filterMap_cons, List.filterMap_nil,
    Std.HashMap.contains_eq_isSome_getElem?, told]
  have outcome := r.reads hf
  generalize r.read s = found at outcome
  cases outcome with
  | featureRefused hi => simp [hi, Names.internAll]
  | bare hi hv => simp [hi, hv, Names.internAll]
  | valueRefused hi hv hj => simp [hi, hv, hj, Names.internAll]
  | valued hi hv hj => simp [hi, hv, hj, Names.internAll]

theorem readAll_append (r : Register) (symbols more : List Symbol) :
    r.readAll (symbols ++ more) = (r.readAll symbols).readAll more :=
  List.foldl_append

/-- Features are numbered whatever the values are. -/
theorem features_readAll (r : Register) (symbols : List Symbol) :
    (r.readAll symbols).features =
      r.features.internAll ((Flag.among symbols).map Flag.feature) := by
  induction symbols generalizing r with
  | nil => rfl
  | cons s rest ih =>
    rw [readAll, List.foldl_cons, ← readAll, ih]
    cases hf : Flag.ofSymbol s with
    | error e => rw [read_of_error hf, Flag.among_cons_of_error hf]
    | ok flag =>
      rw [features_read r hf, Flag.among_cons_of_ok hf]
      rfl

theorem lookup_feature_readAll (r : Register) (hf : Flag.ofSymbol s = .ok flag)
    (symbols : List Symbol) : ((r.read s).2.readAll symbols).features.numbers[flag.feature]? =
      (r.features.intern flag.feature).1 := by
  rw [features_readAll, features_read r hf]
  exact Names.getElem?_internAll_intern ..

theorem numbers_features_readAll (symbols : List Symbol) :
    (empty.readAll symbols).features.Numbers ((Flag.among symbols).map Flag.feature) := by
  rw [features_readAll]
  exact Names.numbers_internAll _

/-- Values are numbered by themselves, those of flags whose features find no number left out. -/
theorem values_readAll (r : Register) (symbols : List Symbol) :
    (r.readAll symbols).values =
      r.values.internAll (Flag.valueNames (r.readAll symbols).features (Flag.among symbols)) := by
  induction symbols generalizing r with
  | nil => rfl
  | cons s rest ih =>
    rw [readAll, List.foldl_cons, ← readAll, ih]
    cases hf : Flag.ofSymbol s with
    | error e => rw [read_of_error hf, Flag.among_cons_of_error hf]
    | ok flag =>
      rw [values_read r hf (r.lookup_feature_readAll hf rest), Flag.among_cons_of_ok hf,
        Flag.valueNames_cons _ flag (Flag.among rest), Names.internAll_append]

theorem numbers_values_readAll (symbols : List Symbol) : (empty.readAll symbols).values.Numbers
    (Flag.valueNames (empty.readAll symbols).features (Flag.among symbols)) := by
  rw [values_readAll]
  exact Names.numbers_internAll _

theorem extends_readAll (r : Register) (symbols : List Symbol) :
    r.Extends (r.readAll symbols) where
  features := features_readAll r symbols ▸ Names.extends_internAll _ _
  values := values_readAll r symbols ▸ Names.extends_internAll _ _

section Answers

variable {one two : Flag String} {numberOne numberTwo : Flag Nat}

theorem Gives.unique (h : r.Gives flag numberOne) (h' : r.Gives flag numberTwo) :
    numberOne = numberTwo := by
  obtain ⟨op, feature, value⟩ := numberOne
  obtain ⟨op', feature', value'⟩ := numberTwo
  obtain rfl : op = op' := h.op.symm.trans h'.op
  obtain rfl : feature = feature' := Option.some.inj (h.feature.symm.trans h'.feature)
  obtain rfl : value = value' := Names.eq_of_rel h.value h'.value
  rfl

theorem Gives.exists_value {name : String} (h : r.Gives flag number) (hv : flag.value = some name) :
    ∃ n, r.values.numbers[name]? = some n := by
  obtain ⟨-, -, value⟩ := h
  rw [hv] at value
  generalize number.value = given at value
  cases value with
  | some here => exact ⟨_, here⟩

theorem Gives.feature_eq_iff (features : r.features.Numbered) (h : r.Gives one numberOne)
    (h' : r.Gives two numberTwo) :
    numberOne.feature = numberTwo.feature ↔ one.feature = two.feature :=
  (features.eq_iff h.feature h'.feature).symm

theorem Gives.value_eq_iff (values : r.values.Numbered) (h : r.Gives one numberOne)
    (h' : r.Gives two numberTwo) : numberOne.value = numberTwo.value ↔ one.value = two.value :=
  (values.rel_eq_iff h.value h'.value).symm

/-- A flag is answered with the numbers that its names have in the register, then or at any later
time. -/
theorem read_eq_ok_iff (r : Register) (hf : Flag.ofSymbol s = .ok flag) (symbols : List Symbol) :
    (r.read s).1 = .ok number ↔ ((r.read s).2.readAll symbols).Gives flag number := by
  have feature := r.lookup_feature_readAll hf symbols
  have value (name : String) (asked : (r.read s).2.values = (r.values.intern name).2) :
      ((r.read s).2.readAll symbols).values.numbers[name]? = (r.values.intern name).1 := by
    rw [values_readAll, asked]
    exact Names.getElem?_internAll_intern ..
  generalize (r.read s).2.readAll symbols = later at feature value
  -- an answer with numbers is the only one that the register can give, and an error means that one
  -- of the names has no number there
  have answered {answer : Flag Nat} (given : later.Gives flag answer) :
      (.ok answer : Except FlagError (Flag Nat)) = .ok number ↔ later.Gives flag number := by
    rw [Except.ok.injEq]
    exact ⟨fun same => same ▸ given, given.unique⟩
  have refused {e : FlagError} (ungiven : ¬ later.Gives flag number) :
      (.error e : Except FlagError (Flag Nat)) = .ok number ↔ later.Gives flag number :=
    ⟨fun same => (nomatch same), fun given => absurd given ungiven⟩
  have outcome := r.reads hf
  generalize r.read s = found at outcome value
  cases outcome with
  | featureRefused hi =>
    refine refused fun gives => ?_
    rw [hi, gives.feature] at feature
    cases feature
  | valueRefused hi hv hj =>
    refine refused fun gives => ?_
    have unknown := value _ (by rw [hj])
    obtain ⟨v, here⟩ := gives.exists_value hv
    rw [hj, here] at unknown
    cases unknown
  | bare hi hv =>
    rw [hi] at feature
    exact answered ⟨rfl, feature, hv ▸ .none⟩
  | valued hi hv hj =>
    have here := value _ (by rw [hj])
    rw [hi] at feature
    rw [hj] at here
    exact answered ⟨rfl, feature, hv ▸ .some here⟩

/-- Of symbols that are read in order from the start, one spells this flag and has this answer. -/
def Answered (symbols : List Symbol) (flag : Flag String)
    (answer : Except FlagError (Flag Nat)) : Prop :=
  ∃ before s after, symbols = before ++ s :: after ∧ Flag.Spells s flag ∧
    ((empty.readAll before).read s).1 = answer

/-- An answer can be told from the register at the end. -/
theorem Answered.eq_ok_iff {answer : Except FlagError (Flag Nat)}
    (h : Answered symbols flag answer) :
    answer = .ok number ↔ (empty.readAll symbols).Gives flag number := by
  obtain ⟨before, s, after, rfl, spelled, rfl⟩ := h
  rw [readAll_append]
  exact read_eq_ok_iff _ (Flag.ofSymbol_eq_ok_iff.mpr spelled) after

/-- At any moment each table has numbered the names that it was asked for in the order in which they
first came, apart from the other table; no name ever changes its number or shares it with another;
and flags that are answered have the same number for a feature, or for a value, just if it is the
same name. -/
theorem readAll_numbers (symbols : List Symbol) :
    let r := empty.readAll symbols
    let flags := Flag.among symbols
    r.features.Numbers (flags.map Flag.feature) ∧
      r.values.Numbers (Flag.valueNames r.features flags) ∧
      (∀ later, r.features.Keeps (empty.readAll (symbols ++ later)).features ∧
        r.values.Keeps (empty.readAll (symbols ++ later)).values) ∧
      (∀ flag answer, Answered symbols flag answer →
        ∀ number, answer = .ok number ↔ r.Gives flag number) ∧
      ∀ one two numberOne numberTwo, Answered symbols one (.ok numberOne) →
        Answered symbols two (.ok numberTwo) →
          (numberOne.feature = numberTwo.feature ↔ one.feature = two.feature) ∧
            (numberOne.value = numberTwo.value ↔ one.value = two.value) := by
  intro r flags
  have features := numbers_features_readAll symbols
  have values := numbers_values_readAll symbols
  refine ⟨features, values, fun later => ?_, fun flag answer h number => h.eq_ok_iff, ?_⟩
  · have kept : r.Extends (empty.readAll (symbols ++ later)) :=
      readAll_append empty symbols later ▸ extends_readAll r later
    exact ⟨kept.features.keeps (numbers_features_readAll (symbols ++ later)).numbered,
      kept.values.keeps (numbers_values_readAll (symbols ++ later)).numbered⟩
  · intro one two numberOne numberTwo h h'
    have gives := h.eq_ok_iff.mp rfl
    have gives' := h'.eq_ok_iff.mp rfl
    exact ⟨gives.feature_eq_iff features.numbered gives', gives.value_eq_iff values.numbered gives'⟩

/-- The name of a value becomes that of a feature, behind a symbol that lacks its value. -/
theorem readAll_numbers_name_shared :
    let symbols := ["@P.CASE.NOM@", "@P.NOM@", "@D.NOM.NOM@"]
    Answered symbols ⟨.positive, "CASE", some "NOM"⟩ (.ok ⟨.positive, 0, some 0⟩) ∧
      Answered symbols ⟨.disallow, "NOM", some "NOM"⟩ (.ok ⟨.disallow, 1, some 0⟩) ∧
      (0 = 1 ↔ "CASE" = "NOM") ∧ (some 0 = some 0 ↔ some "NOM" = some "NOM") := by
  intro symbols
  have first : Flag.ofSymbol "@P.CASE.NOM@" = .ok ⟨.positive, "CASE", some "NOM"⟩ := rfl
  have second : Flag.ofSymbol "@P.NOM@" = .error (.missingValue .positive "@P.NOM@") := rfl
  have third : Flag.ofSymbol "@D.NOM.NOM@" = .ok ⟨.disallow, "NOM", some "NOM"⟩ := rfl
  have one : Answered symbols ⟨.positive, "CASE", some "NOM"⟩ (.ok ⟨.positive, 0, some 0⟩) := by
    refine ⟨[], _, _, rfl, Flag.ofSymbol_eq_ok_iff.mp first, ?_⟩
    simp [readAll, read, first, empty, Names.intern, Names.size, Names.capacity]
  have two : Answered symbols ⟨.disallow, "NOM", some "NOM"⟩ (.ok ⟨.disallow, 1, some 0⟩) := by
    refine ⟨["@P.CASE.NOM@", "@P.NOM@"], _, [], rfl, Flag.ofSymbol_eq_ok_iff.mp third, ?_⟩
    simp [readAll, read, first, second, third, empty, Names.intern, Names.size, Names.capacity,
      Std.HashMap.size_insert]
  exact ⟨one, two, (readAll_numbers symbols).2.2.2.2 _ _ _ _ one two⟩

end Answers

end Register

end Transducer
