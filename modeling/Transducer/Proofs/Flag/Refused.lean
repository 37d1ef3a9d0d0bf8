import Transducer.Proofs.Flag.Scan
/-!
Flags that a register refuses. A symbol that spells no flag leaves the register as it was, and so
does a feature without room; but a feature is numbered before its value, so a value without room
leaves a new feature behind.
-/

namespace Transducer

namespace Register

variable {r : Register} {s : Symbol} {flag : Flag String} {feature value : String} {n : Nat}

/-- The feature of a flag is new and finds room, the value is new and finds none. -/
structure LeavesFeature (r : Register) (flag : Flag String) : Prop where
  new : r.features.numbers[flag.feature]? = none
  room : r.features.size < Names.capacity
  refused : ∃ name, flag.value = some name ∧ r.values.numbers[name]? = none
  full : Names.capacity ≤ r.values.size

theorem LeavesFeature.read (h : r.LeavesFeature flag) (hf : Flag.ofSymbol s = .ok flag) :
    ∃ name, flag.value = some name ∧
      r.read s = (.error (.tooManyNames name), ⟨r.features.add flag.feature, r.values⟩) := by
  obtain ⟨features, values⟩ := r
  obtain ⟨new, room, ⟨name, hv, unknown⟩, full⟩ := h
  have feature := Names.intern_of_none new room
  have value := Names.intern_of_full unknown full
  exact ⟨name, hv, by simp [Register.read, hf, feature, hv, value]⟩

/-- Any other flag that is refused leaves nothing behind. -/
theorem read_of_refused {e : FlagError} (h : (r.read s).1 = .error e)
    (whole : ∀ flag, Flag.ofSymbol s = .ok flag → ¬ r.LeavesFeature flag) : (r.read s).2 = r := by
  cases hf : Flag.ofSymbol s with
  | error e => rw [read_of_error hf]
  | ok flag =>
    have outcome := r.reads hf
    generalize r.read s = found at h outcome
    cases outcome with
    | bare _ _ => cases h
    | valued _ _ _ => cases h
    | featureRefused hi =>
      have feature := r.features.interns flag.feature
      rw [hi] at feature
      cases feature with
      | full _ _ => rfl
    | @valueRefused n name _ _ hi hv hj =>
      have feature := r.features.interns flag.feature
      have value := r.values.interns name
      rw [hi] at feature
      rw [hj] at value
      cases value with
      | full unknown full =>
        cases feature with
        | known _ => rfl
        | new new room => exact absurd ⟨new, room, ⟨name, hv, unknown⟩, full⟩ (whole flag hf)

/-- A flag that is refused changes the register just if its feature is new and finds room while its
value finds none; then the feature has been numbered, and nothing else has changed. -/
theorem read_refused (r : Register) (s : Symbol) :
    ((∃ e, (r.read s).1 = .error e) ∧ (r.read s).2 ≠ r ↔
      ∃ flag, Flag.ofSymbol s = .ok flag ∧ r.LeavesFeature flag) ∧
    ∀ flag, Flag.ofSymbol s = .ok flag → r.LeavesFeature flag →
      (r.read s).2 = ⟨r.features.add flag.feature, r.values⟩ ∧
        (r.read s).2.features.size = r.features.size + 1 := by
  have left (flag : Flag String) (hf : Flag.ofSymbol s = .ok flag) (h : r.LeavesFeature flag) :
      (∃ e, (r.read s).1 = .error e) ∧
        (r.read s).2 = ⟨r.features.add flag.feature, r.values⟩ ∧
          (r.read s).2.features.size = r.features.size + 1 := by
    obtain ⟨name, -, read⟩ := h.read hf
    rw [read]
    exact ⟨⟨_, rfl⟩, rfl, Names.size_add h.new⟩
  refine ⟨⟨fun ⟨⟨e, refused⟩, changed⟩ => ?_, fun ⟨flag, hf, h⟩ => ?_⟩, fun flag hf h => ?_⟩
  · by_contra whole
    exact changed (read_of_refused refused fun flag hf h => whole ⟨flag, hf, h⟩)
  · obtain ⟨refused, -, size⟩ := left flag hf h
    refine ⟨refused, fun same => ?_⟩
    rw [same] at size
    exact absurd size (by omega)
  · exact (left flag hf h).2

section Full

/-- The flag that sets a feature to a value. -/
def setter (feature value : String) : Symbol :=
  s!"@{FlagOp.positive.letter}.{feature}.{value}@"

theorem read_setter (named : Flag.IsFeature feature) (given : Flag.IsValue value)
    (known : r.features.numbers[feature]? = some n) (new : r.values.numbers[value]? = none)
    (room : r.values.size < Names.capacity) :
    (r.read (setter feature value)).2 = ⟨r.features, r.values.add value⟩ := by
  have spelled : Flag.ofSymbol (setter feature value) = .ok ⟨.positive, feature, some value⟩ :=
    Flag.ofSymbol_eq_ok_iff.mpr (.valued .positive named given)
  obtain ⟨features, values⟩ := r
  have feature := Names.intern_of_some known
  have value := Names.intern_of_none new room
  simp [read, spelled, feature, value]

/-- Values that are all new fill the table, one place each. -/
theorem readAll_setters {names : List String} (named : Flag.IsFeature feature)
    (given : ∀ v ∈ names, Flag.IsValue v) (nodup : names.Nodup)
    (known : r.features.numbers[feature]? = some n)
    (new : ∀ v ∈ names, r.values.numbers[v]? = none)
    (room : r.values.size + names.length ≤ Names.capacity) :
    ∃ values, r.readAll (names.map (setter feature)) = ⟨r.features, values⟩ ∧
      values.size = r.values.size + names.length ∧
      ∀ v ∉ names, values.numbers[v]? = r.values.numbers[v]? := by
  induction names generalizing r with
  | nil => exact ⟨r.values, rfl, rfl, fun _ _ => rfl⟩
  | cons v rest ih =>
    obtain ⟨apart, nodup⟩ := List.nodup_cons.mp nodup
    obtain ⟨here, later⟩ := List.forall_mem_cons.mp given
    obtain ⟨first, others⟩ := List.forall_mem_cons.mp new
    rw [List.length_cons] at room
    have step := read_setter named here known first (by omega)
    have size := Names.size_add first
    have fresh : ∀ u ∈ rest, (r.values.add v).numbers[u]? = none := by
      intro u mem
      rw [Names.getElem?_add_of_ne fun (same : v = u) => apart (same ▸ mem)]
      exact others u mem
    obtain ⟨values, all, total, kept⟩ := ih (r := ⟨r.features, r.values.add v⟩) later nodup known
      fresh (by simp only [size]; omega)
    refine ⟨values, ?_, ?_, fun u absent => ?_⟩
    · rw [readAll, List.map_cons, List.foldl_cons, step]
      exact all
    · rw [total, size, List.length_cons]
      omega
    · obtain ⟨ne, absent⟩ := not_or.mp (mt List.mem_cons.mpr absent)
      rw [kept u absent, Names.getElem?_add_of_ne (Ne.symm ne)]

/-- As many values as there are places, all different. -/
def numerals : List String := (List.range Names.capacity).map toString

theorem length_numerals : numerals.length = Names.capacity := by
  rw [numerals, List.length_map, List.length_range]

theorem isDigit_of_mem_numerals (h : value ∈ numerals) :
    value ≠ "" ∧ ∀ c ∈ value.toList, c.isDigit = true := by
  obtain ⟨n, -, rfl⟩ := List.mem_map.mp h
  refine ⟨by simp, fun c mem => ?_⟩
  rw [Nat.toString_eq_repr, Nat.toList_repr] at mem
  exact Nat.isDigit_of_mem_toDigits (by decide) (Nat.le_refl 10) mem

theorem numerals_nodup : numerals.Nodup := by
  refine List.nodup_range.map fun n m same => ?_
  have digits : Nat.toDigits 10 n = Nat.toDigits 10 m := by
    simpa using congrArg String.toList same
  rw [← Nat.ofDigitChars_ten_toDigits (n := n), digits, Nat.ofDigitChars_ten_toDigits]

theorem read_new_feature {op : FlagOp} (hf : Flag.ofSymbol s = .ok ⟨op, feature, none⟩)
    (new : r.features.numbers[feature]? = none) (room : r.features.size < Names.capacity) :
    r.read s = (.ok ⟨op, r.features.size, none⟩, ⟨r.features.add feature, r.values⟩) := by
  obtain ⟨features, values⟩ := r
  have feature := Names.intern_of_none new room
  simp [read, hf, feature]

/-- A register with one feature and no room for a value. -/
theorem exists_readAll_full : ∃ values, values.size = Names.capacity ∧
    values.numbers["new"]? = none ∧
    empty.readAll ("@C.A@" :: numerals.map (setter "A")) = ⟨Names.add {} "A", values⟩ := by
  have first : (empty.read "@C.A@").2 = ⟨Names.add {} "A", {}⟩ := by
    have spelled : Flag.ofSymbol "@C.A@" = .ok ⟨.clear, "A", none⟩ := rfl
    rw [read_new_feature spelled (by simp [empty]) (by decide)]
    rfl
  have none (name : String) : (({} : Names).numbers)[name]? = none := by simp
  have given : ∀ v ∈ numerals, Flag.IsValue v := by
    intro v mem
    obtain ⟨filled, digits⟩ := isDigit_of_mem_numerals mem
    exact ⟨filled, fun mark => absurd (digits '@' mark) (by decide)⟩
  have other : "new" ∉ numerals := by
    intro mem
    exact absurd ((isDigit_of_mem_numerals mem).2 'n' (by decide)) (by decide)
  let start : Register := ⟨Names.add {} "A", {}⟩
  have total : start.values.size + numerals.length = Names.capacity := by
    rw [length_numerals]
    exact Nat.zero_add _
  obtain ⟨values, all, size, kept⟩ := readAll_setters (r := start)
    ⟨by decide, by decide, by decide⟩ given numerals_nodup (Names.getElem?_add_self {} "A")
    (fun v _ => none v) (Nat.le_of_eq total)
  refine ⟨values, size.trans total, (kept "new" other).trans (none "new"), ?_⟩
  rw [readAll, List.foldl_cons, first]
  exact all

/-- A value too many is refused, and its feature has got the next number: the flag that is read
behind it shows that. -/
theorem read_value_too_many :
    let r := empty.readAll ("@C.A@" :: numerals.map (setter "A"))
    (r.read "@P.B.new@").1 = .error (.tooManyNames "new") ∧
      r.features.size = 1 ∧ (r.read "@P.B.new@").2.features.size = 2 ∧
      (r.read "@C.C@").1 = .ok ⟨.clear, 1, none⟩ ∧
      ((r.read "@P.B.new@").2.read "@C.C@").1 = .ok ⟨.clear, 2, none⟩ := by
  intro r
  obtain ⟨values, full, unknown, same⟩ := exists_readAll_full
  have same : r = ⟨Names.add {} "A", values⟩ := same
  have one : (Names.add {} "A").size = 1 := Names.size_add (by simp)
  have new (name : String) (apart : "A" ≠ name) : (Names.add {} "A").numbers[name]? = none := by
    rw [Names.getElem?_add_of_ne apart]
    simp
  have newB := new "B" (by decide)
  have newC := new "C" (by decide)
  have two : ((Names.add {} "A").add "B").size = 2 := by rw [Names.size_add newB, one]
  have spelled : Flag.ofSymbol "@P.B.new@" = .ok ⟨.positive, "B", some "new"⟩ := rfl
  have clear : Flag.ofSymbol "@C.C@" = .ok ⟨.clear, "C", none⟩ := rfl
  have leaves : LeavesFeature ⟨Names.add {} "A", values⟩ ⟨.positive, "B", some "new"⟩ :=
    ⟨newB, by rw [one]; decide, ⟨"new", rfl, unknown⟩, Nat.le_of_eq full.symm⟩
  obtain ⟨name, named, refused⟩ := leaves.read spelled
  obtain rfl := Option.some.inj named
  have before := read_new_feature (r := ⟨Names.add {} "A", values⟩) clear newC
    (by rw [one]; decide)
  have behind := read_new_feature (r := ⟨(Names.add {} "A").add "B", values⟩) clear
    (by rw [Names.getElem?_add_of_ne (by decide), newC]) (by rw [two]; decide)
  rw [same, refused, before, behind]
  simp only [one, two, and_self]

end Full

end Register

end Transducer
