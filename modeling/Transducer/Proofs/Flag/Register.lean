import Mathlib.Data.Finset.Card
import Transducer.Flag.Register
import Transducer.Proofs.Distinct
/-!
Numbers of flag names. A table gives its names the numbers below its size, each to one name, and
never changes a number; it finds room for every name as long as the names it is asked for are not
more than it can hold.
-/

namespace Transducer

namespace Names

variable {t u : Names} {name other : String} {n : Nat} {found : Option Nat} {names : Finset String}

/-- The names of a table have the numbers below its size, each one of them. -/
structure Numbered (t : Names) : Prop where
  lt : ∀ (name : String) (n : Nat), t.numbers[name]? = some n → n < t.size
  injective : ∀ (name other : String) (n : Nat),
    t.numbers[name]? = some n → t.numbers[other]? = some n → name = other
  onto : ∀ n < t.size, ∃ name : String, t.numbers[name]? = some n

/-- Every name keeps its number. -/
def Extends (t u : Names) : Prop :=
  ∀ (name : String) (n : Nat), t.numbers[name]? = some n → u.numbers[name]? = some n

/-- All names of the table are among those given. -/
def Within (t : Names) (names : Finset String) : Prop :=
  ∀ (name : String) (n : Nat), t.numbers[name]? = some n → name ∈ names

theorem numbered_empty : Numbered {} := by
  refine ⟨fun _ _ h => ?_, fun _ _ _ h => ?_, fun _ h => ?_⟩
  · simp at h
  · simp at h
  · simp [size] at h

theorem within_empty (names : Finset String) : Within {} names := by
  intro name n h
  simp at h

theorem intern_of_some (h : t.numbers[name]? = some n) : t.intern name = (some n, t) := by
  simp [intern, h]

theorem intern_of_full (h : t.numbers[name]? = none) (full : capacity ≤ t.size) :
    t.intern name = (none, t) := by
  simp [intern, h, Nat.not_lt.mpr full]

/-- The table with one more name. -/
def add (t : Names) (name : String) : Names := ⟨t.numbers.insert name t.size⟩

theorem intern_of_none (h : t.numbers[name]? = none) (room : t.size < capacity) :
    t.intern name = (some t.size, t.add name) := by
  simp [intern, h, room, add]

/-- What can become of a name that is looked for. -/
inductive Interns (t : Names) (name : String) : Option Nat × Names → Prop
  | known {n : Nat} : t.numbers[name]? = some n → Interns t name (some n, t)
  | new : t.numbers[name]? = none → t.size < capacity → Interns t name (some t.size, t.add name)
  | full : t.numbers[name]? = none → capacity ≤ t.size → Interns t name (none, t)

theorem interns (t : Names) (name : String) : Interns t name (t.intern name) := by
  cases h : t.numbers[name]? with
  | some n =>
    rw [intern_of_some h]
    exact .known h
  | none =>
    rcases Nat.lt_or_ge t.size capacity with room | full
    · rw [intern_of_none h room]
      exact .new h room
    · rw [intern_of_full h full]
      exact .full h full

theorem size_add (h : t.numbers[name]? = none) : (t.add name).size = t.size + 1 := by
  have new : name ∉ t.numbers := by simp [Std.HashMap.mem_iff_isSome_getElem?, h]
  simp [size, add, Std.HashMap.size_insert, new]

theorem getElem?_add_self (t : Names) (name : String) :
    (t.add name).numbers[name]? = some t.size := by
  simp [add]

theorem getElem?_add_of_ne (h : name ≠ other) :
    (t.add name).numbers[other]? = t.numbers[other]? := by
  simp [add, Std.HashMap.getElem?_insert, h]

/-- A name that is new gets the next number, and no other name changes. -/
theorem getElem?_add_eq_some_iff (h : t.numbers[name]? = none) :
    (t.add name).numbers[other]? = some n ↔
      t.numbers[other]? = some n ∨ n = t.size ∧ name = other :=
  getElem?_insert_eq_some_iff h

theorem Numbered.eq_iff (ht : t.Numbered) {m : Nat} (hn : t.numbers[name]? = some n)
    (hm : t.numbers[other]? = some m) : name = other ↔ n = m := by
  constructor
  · intro same
    rw [same] at hn
    exact Option.some.inj (hn.symm.trans hm)
  · intro same
    rw [← same] at hm
    exact ht.injective name other n hn hm

theorem Numbered.add (ht : t.Numbered) (h : t.numbers[name]? = none) : (t.add name).Numbered := by
  constructor
  · intro other n hn
    rw [size_add h]
    rcases (getElem?_add_eq_some_iff h).mp hn with old | ⟨rfl, -⟩
    · exact Nat.lt_succ_of_lt (ht.lt other n old)
    · exact Nat.lt_succ_self _
  · intro one two n h1 h2
    rcases (getElem?_add_eq_some_iff h).mp h1 with old1 | ⟨rfl, rfl⟩
    · rcases (getElem?_add_eq_some_iff h).mp h2 with old2 | ⟨rfl, -⟩
      · exact ht.injective one two n old1 old2
      · exact absurd (ht.lt one _ old1) (Nat.lt_irrefl _)
    · rcases (getElem?_add_eq_some_iff h).mp h2 with old2 | ⟨-, same⟩
      · exact absurd (ht.lt two _ old2) (Nat.lt_irrefl _)
      · exact same
  · intro n hn
    rw [size_add h] at hn
    rcases Nat.lt_or_eq_of_le (Nat.le_of_lt_succ hn) with lt | rfl
    · obtain ⟨other, ho⟩ := ht.onto n lt
      exact ⟨other, (getElem?_add_eq_some_iff h).mpr (.inl ho)⟩
    · exact ⟨name, getElem?_add_self t name⟩

theorem extends_add (h : t.numbers[name]? = none) : t.Extends (t.add name) :=
  fun _ _ hn => (getElem?_add_eq_some_iff h).mpr (.inl hn)

theorem extends_intern (t : Names) (name : String) : t.Extends (t.intern name).2 := by
  have outcome := t.interns name
  generalize t.intern name = found at outcome
  cases outcome with
  | known _ => exact fun _ _ h => h
  | new new _ => exact extends_add new
  | full _ _ => exact fun _ _ h => h

/-- A table with names among those given, and one of them missing, is smaller than they are. -/
theorem Within.size_lt (ht : t.Within names) (h : t.numbers[name]? = none) (mem : name ∈ names) :
    t.size < names.card := by
  have sub : t.numbers.keys.toFinset ⊆ names.erase name := by
    intro key hk
    rw [List.mem_toFinset, Std.HashMap.mem_keys, Std.HashMap.mem_iff_isSome_getElem?,
      Option.isSome_iff_exists] at hk
    obtain ⟨n, hn⟩ := hk
    refine Finset.mem_erase.mpr ⟨?_, ht key n hn⟩
    intro same
    rw [same, h] at hn
    exact absurd hn (by simp)
  have card := Finset.card_le_card sub
  rw [List.toFinset_card_of_nodup Std.HashMap.nodup_keys, Std.HashMap.length_keys] at card
  have pos := Finset.card_pos.mpr ⟨name, mem⟩
  rw [Finset.card_erase_of_mem mem] at card
  unfold size
  omega

theorem extends_of_intern (h : t.intern name = (found, u)) : t.Extends u := by
  have extend := t.extends_intern name
  rwa [h] at extend

/-- The number that a table gives is the one that the name has from then on. -/
theorem getElem?_of_intern (h : t.intern name = (some n, u)) : u.numbers[name]? = some n := by
  have outcome := t.interns name
  rw [h] at outcome
  cases outcome with
  | known here => exact here
  | new _ _ => exact getElem?_add_self t name

theorem Numbered.intern (ht : t.Numbered) (h : t.intern name = (found, u)) : u.Numbered := by
  have outcome := t.interns name
  rw [h] at outcome
  cases outcome with
  | known _ => exact ht
  | new new _ => exact ht.add new
  | full _ _ => exact ht

theorem Within.intern (ht : t.Within names) (mem : name ∈ names)
    (h : t.intern name = (found, u)) : u.Within names := by
  have outcome := t.interns name
  rw [h] at outcome
  cases outcome with
  | known _ => exact ht
  | new new _ =>
    intro other n hn
    rcases (getElem?_add_eq_some_iff new).mp hn with old | ⟨-, rfl⟩
    · exact ht other n old
    · exact mem
  | full _ _ => exact ht

/-- Names that fit into the table all find a number. -/
theorem Within.intern_ne_none (ht : t.Within names) (fit : names.card ≤ capacity)
    (mem : name ∈ names) : t.intern name ≠ (none, u) := by
  intro refused
  have outcome := t.interns name
  rw [refused] at outcome
  cases outcome with
  | full unknown full =>
    have room : t.size < capacity := (ht.size_lt unknown mem).trans_le fit
    exact absurd room (Nat.not_lt_of_le full)

end Names

namespace Flag

variable {s : Symbol} {known : List Symbol}

/-- The names of features in the flags among symbols. -/
def features (symbols : List Symbol) : Finset String :=
  (symbols.filterMap fun s => (ofSymbol s).toOption.map Flag.feature).toFinset

/-- The names of values in the flags among symbols. -/
def values (symbols : List Symbol) : Finset String :=
  (symbols.filterMap fun s => (ofSymbol s).toOption.bind Flag.value).toFinset

/-- There is a number for each name in the flags among symbols. -/
structure Fit (symbols : List Symbol) : Prop where
  features : (features symbols).card ≤ Names.capacity
  values : (values symbols).card ≤ Names.capacity

/-- Where the names of flags fit, those of fewer flags do. -/
theorem Fit.mono {symbols : List Symbol} (h : Fit known) (sub : symbols ⊆ known) : Fit symbols := by
  have fewer (name : Symbol → Option String) :
      (symbols.filterMap name).toFinset ⊆ (known.filterMap name).toFinset := by
    intro v hv
    rw [List.mem_toFinset] at hv ⊢
    exact List.filterMap_subset name sub hv
  constructor
  · exact (Finset.card_le_card (fewer _)).trans h.features
  · exact (Finset.card_le_card (fewer _)).trans h.values

/-- A symbol that is no flag, or one with names from the flags among known symbols. -/
def Known (known : List Symbol) (s : Symbol) : Prop :=
  ∀ flag, ofSymbol s = .ok flag → flag.feature ∈ features known ∧ ∀ v ∈ flag.value, v ∈ values known

theorem known_of_mem (h : s ∈ known) : Known known s := by
  intro flag hf
  have read : (ofSymbol s).toOption = some flag := by rw [hf, Except.toOption]
  constructor
  · rw [features, List.mem_toFinset, List.mem_filterMap]
    exact ⟨s, h, by rw [read]; rfl⟩
  · intro v hv
    rw [values, List.mem_toFinset, List.mem_filterMap]
    exact ⟨s, h, by rw [read]; exact hv⟩

theorem ofSymbol_of_isFlag (h : isFlag s = true) : ∃ flag, ofSymbol s = .ok flag := by
  rw [isFlag] at h
  cases hs : ofSymbol s with
  | ok flag => exact ⟨flag, rfl⟩
  | error e => rw [hs] at h; exact absurd h (by simp [Except.isOk, Except.toBool])

theorem isFlag_of_ofSymbol {flag : Flag String} (h : ofSymbol s = .ok flag) : isFlag s = true := by
  rw [isFlag, h]
  rfl

theorem known_of_not_isFlag (h : isFlag s = false) : Known known s := by
  intro flag hf
  rw [isFlag_of_ofSymbol hf] at h
  exact absurd h (by decide)

/-- Symbols that are no flags need no numbers. -/
theorem fit_of_plain (h : ∀ s ∈ known, isFlag s = false) : Fit known := by
  have unread (s : Symbol) (mem : s ∈ known) : (ofSymbol s).toOption = none := by
    cases hs : ofSymbol s with
    | error e => rfl
    | ok flag => exact absurd (isFlag_of_ofSymbol hs) (Bool.eq_false_iff.mp (h s mem))
  have features : features known = ∅ := by
    rw [Flag.features, List.filterMap_eq_nil_iff.mpr fun s mem => by rw [unread s mem]; rfl]
    rfl
  have values : values known = ∅ := by
    rw [Flag.values, List.filterMap_eq_nil_iff.mpr fun s mem => by rw [unread s mem]; rfl]
    rfl
  exact ⟨features ▸ Nat.zero_le _, values ▸ Nat.zero_le _⟩

end Flag

namespace Register

variable {r r' : Register} {known : List Symbol} {s : Symbol} {flag : Flag String}
  {number : Flag Nat}

/-- Both tables are numbered, with names from the flags among known symbols. -/
structure Serves (known : List Symbol) (r : Register) : Prop where
  features : r.features.Numbered
  values : r.values.Numbered
  featuresWithin : r.features.Within (Flag.features known)
  valuesWithin : r.values.Within (Flag.values known)

/-- Every name keeps its number. -/
structure Extends (r r' : Register) : Prop where
  features : r.features.Extends r'.features
  values : r.values.Extends r'.values

/-- The second flag is the first with numbers for its names. -/
structure Gives (r : Register) (flag : Flag String) (number : Flag Nat) : Prop where
  op : flag.op = number.op
  feature : r.features.numbers[flag.feature]? = some number.feature
  value : Option.Rel (fun v n => r.values.numbers[v]? = some n) flag.value number.value

theorem serves_empty (known : List Symbol) : Serves known empty :=
  ⟨Names.numbered_empty, Names.numbered_empty, Names.within_empty _, Names.within_empty _⟩

theorem read_of_error {e : FlagError} (h : Flag.ofSymbol s = .error e) :
    r.read s = (.error e, r) := by
  simp [read, h]

/-- What can become of a flag that is read. -/
inductive Reads (r : Register) (flag : Flag String) : Except FlagError (Flag Nat) × Register → Prop
  | featureRefused {features : Names} : r.features.intern flag.feature = (none, features) →
      Reads r flag (.error (.tooManyNames flag.feature), ⟨features, r.values⟩)
  | bare {n : Nat} {features : Names} : r.features.intern flag.feature = (some n, features) →
      flag.value = none → Reads r flag (.ok ⟨flag.op, n, none⟩, ⟨features, r.values⟩)
  | valueRefused {n : Nat} {name : String} {features values : Names} :
      r.features.intern flag.feature = (some n, features) → flag.value = some name →
      r.values.intern name = (none, values) →
      Reads r flag (.error (.tooManyNames name), ⟨features, values⟩)
  | valued {n v : Nat} {name : String} {features values : Names} :
      r.features.intern flag.feature = (some n, features) → flag.value = some name →
      r.values.intern name = (some v, values) →
      Reads r flag (.ok ⟨flag.op, n, some v⟩, ⟨features, values⟩)

theorem reads (r : Register) (hf : Flag.ofSymbol s = .ok flag) : r.Reads flag (r.read s) := by
  obtain ⟨features, values⟩ := r
  rcases hi : features.intern flag.feature with ⟨_ | n, features'⟩
  · have outcome : read ⟨features, values⟩ s =
      (.error (.tooManyNames flag.feature), ⟨features', values⟩) := by simp [read, hf, hi]
    exact outcome ▸ .featureRefused hi
  · cases hv : flag.value with
    | none =>
      have outcome : read ⟨features, values⟩ s =
        (.ok ⟨flag.op, n, none⟩, ⟨features', values⟩) := by simp [read, hf, hi, hv]
      exact outcome ▸ .bare hi hv
    | some name =>
      rcases hj : values.intern name with ⟨_ | v, values'⟩
      · have outcome : read ⟨features, values⟩ s =
          (.error (.tooManyNames name), ⟨features', values'⟩) := by simp [read, hf, hi, hv, hj]
        exact outcome ▸ .valueRefused hi hv hj
      · have outcome : read ⟨features, values⟩ s =
          (.ok ⟨flag.op, n, some v⟩, ⟨features', values'⟩) := by simp [read, hf, hi, hv, hj]
        exact outcome ▸ .valued hi hv hj

theorem extends_read (r : Register) (s : Symbol) : r.Extends (r.read s).2 := by
  have same (t : Names) : t.Extends t := fun _ _ h => h
  cases hf : Flag.ofSymbol s with
  | error e =>
    rw [read_of_error hf]
    exact ⟨same _, same _⟩
  | ok flag =>
    have outcome := r.reads hf
    generalize r.read s = found at outcome
    cases outcome with
    | featureRefused hi => exact ⟨Names.extends_of_intern hi, same _⟩
    | bare hi _ => exact ⟨Names.extends_of_intern hi, same _⟩
    | valueRefused hi _ hj => exact ⟨Names.extends_of_intern hi, Names.extends_of_intern hj⟩
    | valued hi _ hj => exact ⟨Names.extends_of_intern hi, Names.extends_of_intern hj⟩

/-- A flag that has been read has its names numbered as the answer says. -/
theorem gives_of_read (hr : r.read s = (.ok number, r')) :
    ∃ flag, Flag.ofSymbol s = .ok flag ∧ r'.Gives flag number := by
  cases hf : Flag.ofSymbol s with
  | error e =>
    rw [read_of_error hf] at hr
    cases hr
  | ok flag =>
    have outcome := r.reads hf
    rw [hr] at outcome
    refine ⟨flag, rfl, ?_⟩
    cases outcome with
    | bare hi hv => exact ⟨rfl, Names.getElem?_of_intern hi, hv ▸ .none⟩
    | valued hi hv hj =>
      exact ⟨rfl, Names.getElem?_of_intern hi, hv ▸ .some (Names.getElem?_of_intern hj)⟩

namespace Gives

/-- Numbers that a flag has been given stay its numbers. -/
theorem mono (h : r.Gives flag number) (extend : r.Extends r') : r'.Gives flag number := by
  obtain ⟨_, _, value?⟩ := flag
  obtain ⟨_, _, v?⟩ := number
  obtain ⟨op, feature, value⟩ := h
  refine ⟨op, extend.features _ _ feature, ?_⟩
  cases value with
  | none => exact .none
  | some here => exact .some (extend.values _ _ here)

/-- A flag with numbered names is read without a change. -/
theorem read (h : r.Gives flag number) (hf : Flag.ofSymbol s = .ok flag) :
    r.read s = (.ok number, r) := by
  obtain ⟨features, values⟩ := r
  obtain ⟨op, name, value?⟩ := flag
  obtain ⟨_, n, v?⟩ := number
  obtain ⟨rfl, feature, value⟩ := h
  cases value with
  | none => simp [Register.read, hf, Names.intern_of_some feature]
  | some here =>
    simp [Register.read, hf, Names.intern_of_some feature, Names.intern_of_some here]

end Gives

/-- Reading known symbols numbers no other names. -/
theorem Serves.read (serves : r.Serves known) (hs : Flag.Known known s) :
    (r.read s).2.Serves known := by
  obtain ⟨features, values, featuresWithin, valuesWithin⟩ := serves
  cases hf : Flag.ofSymbol s with
  | error e =>
    rw [read_of_error hf]
    exact ⟨features, values, featuresWithin, valuesWithin⟩
  | ok flag =>
    obtain ⟨feature, value⟩ := hs flag hf
    have outcome := r.reads hf
    generalize r.read s = result at outcome
    cases outcome with
    | featureRefused hi =>
      exact ⟨features.intern hi, values, featuresWithin.intern feature hi, valuesWithin⟩
    | bare hi _ =>
      exact ⟨features.intern hi, values, featuresWithin.intern feature hi, valuesWithin⟩
    | valueRefused hi hv hj =>
      exact ⟨features.intern hi, values.intern hj, featuresWithin.intern feature hi,
        valuesWithin.intern (value _ hv) hj⟩
    | valued hi hv hj =>
      exact ⟨features.intern hi, values.intern hj, featuresWithin.intern feature hi,
        valuesWithin.intern (value _ hv) hj⟩

/-- Where the names fit, every flag finds its numbers. -/
theorem read_spec (fit : Flag.Fit known) (serves : r.Serves known) (hs : Flag.Known known s)
    (hf : Flag.ofSymbol s = .ok flag) :
    ∃ number, (r.read s).1 = .ok number ∧ (r.read s).2.Gives flag number := by
  have room : ∃ number, (r.read s).1 = .ok number := by
    obtain ⟨feature, value⟩ := hs flag hf
    have outcome := r.reads hf
    generalize r.read s = result at outcome
    cases outcome with
    | featureRefused hi =>
      exact absurd hi (serves.featuresWithin.intern_ne_none fit.features feature)
    | valueRefused _ hv hj =>
      exact absurd hj (serves.valuesWithin.intern_ne_none fit.values (value _ hv))
    | bare _ _ => exact ⟨_, rfl⟩
    | valued _ _ _ => exact ⟨_, rfl⟩
  obtain ⟨number, found⟩ := room
  obtain ⟨other, hf', gives⟩ := gives_of_read (Prod.ext found rfl)
  obtain rfl : flag = other := Except.ok.inj (hf.symm.trans hf')
  exact ⟨number, found, gives⟩

end Register

end Transducer
