import Transducer.Flag.Scan
import Transducer.Proofs.Flag.Register
import Transducer.Proofs.Text.Bytes
/-!
The form of flags, and that all readers of symbols take the same ones: the scan of bytes, the
reading of characters and a register with room. A scan slices a symbol only next to its marks, which
are bytes of their own.
-/

namespace Transducer

namespace FlagOp

variable {c : Char} {op : FlagOp}

theorem ofLetter?_eq_some_iff : ofLetter? c = some op ↔ c = op.letter := by
  constructor
  · intro h
    unfold ofLetter? at h
    split at h
    all_goals cases h
    all_goals rfl
  · rintro rfl
    cases op <;> rfl

/-- The letter of an operation is one byte. -/
theorem exists_byte (op : FlagOp) : ∃ b < 128, Char.ofUInt8 b = op.letter :=
  ⟨op.letter.toUInt8, by cases op <;> decide, by cases op <;> decide⟩

theorem lt_of_ofByte? {b : UInt8} (h : ofByte? b = some op) : b < 128 := by
  have letter := ofLetter?_eq_some_iff.mp h
  have value := Text.toNat_ofUInt8 b
  rw [letter] at value
  rw [UInt8.lt_iff_toNat_lt, ← value]
  cases op <;> decide

end FlagOp

namespace Flag

variable {s : Symbol} {op : FlagOp} {flag : Flag String} {inner front back : List Char}

/-- The name of a feature ends at a point. -/
def IsFeature (name : String) : Prop := name ≠ "" ∧ '.' ∉ name.toList ∧ '@' ∉ name.toList

def IsValue (name : String) : Prop := name ≠ "" ∧ '@' ∉ name.toList

/-- The symbols of flags. Three operations can do without a value. -/
inductive Spells : Symbol → Flag String → Prop
  | bare {op : FlagOp} {feature : String} : op ∈ [FlagOp.require, .disallow, .clear] →
      IsFeature feature → Spells s!"@{op.letter}.{feature}@" ⟨op, feature, none⟩
  | valued (op : FlagOp) {feature value : String} : IsFeature feature → IsValue value →
      Spells s!"@{op.letter}.{feature}.{value}@" ⟨op, feature, some value⟩

/-- The marks, an operation and a point around the inner part of a flag. -/
def framed (op : FlagOp) (inner : List Char) : List Char :=
  '@' :: op.letter :: '.' :: (inner ++ ['@'])

theorem parts?_framed (h : s.toList = framed op inner) :
    parts? s = ofInner? op (String.ofList inner) := by
  have letter : FlagOp.ofLetter? op.letter = some op := FlagOp.ofLetter?_eq_some_iff.mpr rfl
  simp [parts?, h, framed, letter, ofInner?]

/-- A symbol of which the parts are looked at has a frame. -/
theorem exists_framed_of_parts? (h : (parts? s).isSome = true) :
    ∃ op inner, s.toList = framed op inner := by
  unfold parts? at h
  split at h
  · next letter rest text =>
    split at h
    · next op known last =>
      obtain ⟨some, same⟩ := List.getLast?_eq_some_iff.mp last
      refine ⟨op, some, ?_⟩
      rw [text, FlagOp.ofLetter?_eq_some_iff.mp known, same]
      rfl
    · cases h
  · cases h

section Bytes

theorem encode_mark : String.utf8EncodeChar '@' = ['@'.toUInt8] := by decide

theorem encode_point : String.utf8EncodeChar '.' = ['.'.toUInt8] := by decide

theorem bytes_framed {b : UInt8} (letter : Char.ofUInt8 b = op.letter) (small : b < 128)
    (h : s.toList = framed op inner) :
    Text.bytes s = '@'.toUInt8 :: b :: '.'.toUInt8 ::
      (Text.bytes (String.ofList inner) ++ ['@'.toUInt8]) := by
  have second : String.utf8EncodeChar op.letter = [b] := letter ▸ Text.encode_ofUInt8 small
  rw [Text.bytes_eq, Text.bytes_ofList, h, framed]
  simp [encode_mark, encode_point, second]

/-- Bytes with a mark at both ends, and an operation and a point behind the first one, frame an
inner part. -/
theorem exists_framed_of_bytes {b : UInt8} {rest : List UInt8} (known : FlagOp.ofByte? b = some op)
    (h : Text.bytes s = '@'.toUInt8 :: b :: '.'.toUInt8 :: (rest ++ ['@'.toUInt8])) :
    ∃ inner, s.toList = framed op inner := by
  rw [Text.bytes_eq] at h
  obtain ⟨operation, mark, fromLetter⟩ := Text.exists_cons_of_encode h (by decide)
  obtain ⟨more, letter, fromPoint⟩ :=
    Text.exists_cons_of_encode fromLetter (FlagOp.lt_of_ofByte? known)
  obtain ⟨others, point, behind⟩ := Text.exists_cons_of_encode fromPoint (by decide)
  obtain ⟨inner, last, -⟩ := Text.exists_snoc_of_encode behind (by decide)
  refine ⟨inner, ?_⟩
  rw [mark, letter, point, last, FlagOp.ofLetter?_eq_some_iff.mp known]
  rfl

theorem exists_rest_of_places {x y z last : UInt8} {bytes : List UInt8} (long : 5 ≤ bytes.length)
    (first : bytes[0]? = some x) (second : bytes[1]? = some y) (third : bytes[2]? = some z)
    (final : bytes[bytes.length - 1]? = some last) :
    ∃ rest, bytes = x :: y :: z :: (rest ++ [last]) := by
  match bytes with
  | one :: two :: three :: four :: more =>
    have tail : (four :: more).getLast? = some last := by
      rw [← List.getLast?_eq_getElem?] at final
      simpa using final
    obtain ⟨rest, same⟩ := List.getLast?_eq_some_iff.mp tail
    simp only [List.getElem?_cons_zero, List.getElem?_cons_succ, Option.some.injEq]
      at first second third
    exact ⟨rest, by rw [first, second, third, same]⟩

theorem slice_framed (h : s.toList = framed op inner) :
    Text.slice s 3 ((Text.bytes s).length - 1) = .ok (String.ofList inner) := by
  obtain ⟨b, small, letter⟩ := op.exists_byte
  have parts : s = String.ofList ['@', op.letter, '.'] ++ String.ofList inner ++ "@" := by
    rw [← String.toList_inj, h]
    simp [framed]
  have front : (String.ofList ['@', op.letter, '.']).utf8ByteSize = 3 := by
    cases op <;> decide
  have length : (Text.bytes s).length - 1 = 3 + (String.ofList inner).utf8ByteSize := by
    rw [bytes_framed letter small h, ← Text.length_bytes]
    simp only [List.length_cons, List.length_append, List.length_nil]
    omega
  have cut := Text.slice_append (String.ofList ['@', op.letter, '.']) (String.ofList inner) "@"
  rwa [front, ← parts, ← length] at cut

theorem scan_framed (h : s.toList = framed op inner) :
    scan s = .ok (ofInner? op (String.ofList inner)) := by
  obtain ⟨b, small, letter⟩ := op.exists_byte
  have bytes := bytes_framed letter small h
  have known : FlagOp.ofByte? b = some op := FlagOp.ofLetter?_eq_some_iff.mpr letter
  have first : (Text.bytes s)[0]? = some '@'.toUInt8 := by rw [bytes]; rfl
  have second : (Text.bytes s)[1]?.bind FlagOp.ofByte? = some op := by rw [bytes]; exact known
  have third : (Text.bytes s)[2]? = some '.'.toUInt8 := by rw [bytes]; rfl
  have last : (Text.bytes s)[(Text.bytes s).length - 1]? = some '@'.toUInt8 := by
    rw [bytes, ← List.getLast?_eq_getElem?, ← List.cons_append, ← List.cons_append,
      ← List.cons_append]
    exact List.getLast?_concat
  rw [scan]
  simp only [first, second, third, last, slice_framed h, bne_self_eq_false, Bool.or_false,
    decide_eq_true_eq]
  split
  · next short =>
    -- only a frame around nothing is so short
    have empty : inner = [] := by
      rw [bytes] at short
      simp only [List.length_cons, List.length_append, List.length_nil, Text.length_bytes] at short
      have none : (String.ofList inner).utf8ByteSize = 0 := by omega
      simpa using String.utf8ByteSize_eq_zero_iff.mp none
    rw [empty]
    simp [ofInner?, splitInner, isName]
  · rfl

theorem scan_of_not_framed (h : ∀ op inner, s.toList ≠ framed op inner) : scan s = .ok none := by
  rw [scan]
  split
  · rfl
  · next places =>
    simp only [Bool.or_eq_true, decide_eq_true_eq, bne_iff_ne, not_or, not_not, Nat.not_lt]
      at places
    obtain ⟨⟨⟨long, first⟩, third⟩, last⟩ := places
    cases second : (Text.bytes s)[1]?.bind FlagOp.ofByte? with
    | none => rfl
    | some op =>
      obtain ⟨b, there, known⟩ := Option.bind_eq_some_iff.mp second
      obtain ⟨rest, bytes⟩ := exists_rest_of_places long first there third last
      obtain ⟨inner, frame⟩ := exists_framed_of_bytes known bytes
      exact absurd frame (h op inner)

theorem scan_eq (s : Symbol) : scan s = .ok (parts? s) := by
  by_cases frame : ∃ op inner, s.toList = framed op inner
  · obtain ⟨op, inner, h⟩ := frame
    rw [scan_framed h, parts?_framed h]
  · have none : parts? s = none := by
      rw [← Option.not_isSome_iff_eq_none]
      exact fun some => frame (exists_framed_of_parts? some)
    rw [none]
    exact scan_of_not_framed fun op inner h => frame ⟨op, inner, h⟩

end Bytes

section Form

/-- What stands before the first point is passed over. -/
theorem span_append (h : '.' ∉ front) (back : List Char) :
    (front ++ back).span (· ≠ '.') =
      (front ++ back.takeWhile (· ≠ '.'), back.dropWhile (· ≠ '.')) := by
  have all : ∀ c ∈ front, decide (c ≠ '.') = true := by
    intro c mem
    rw [decide_eq_true_eq]
    rintro rfl
    exact h mem
  rw [List.span_eq_takeWhile_dropWhile, List.takeWhile_append_of_pos all,
    List.dropWhile_append_of_pos all]

theorem splitInner_of_not_mem (h : '.' ∉ front) : splitInner front = (front, none) := by
  have span := span_append h []
  rw [List.append_nil] at span
  rw [splitInner, span, List.takeWhile_nil, List.dropWhile_nil, List.append_nil]

theorem splitInner_append (h : '.' ∉ front) (back : List Char) :
    splitInner (front ++ '.' :: back) = (front, some back) := by
  rw [splitInner, span_append h]
  simp

/-- The inner part is a feature, or a feature and a value behind the first point. -/
theorem inner_cases (inner : List Char) :
    '.' ∉ inner ∨ ∃ front back, inner = front ++ '.' :: back ∧ '.' ∉ front := by
  by_cases point : '.' ∈ inner
  · obtain ⟨front, back, split, before⟩ := List.eq_append_cons_of_mem point
    exact .inr ⟨front, back, split, before⟩
  · exact .inl point

theorem isName_iff : isName inner = true ↔ String.ofList inner ≠ "" ∧ '@' ∉ inner := by
  rw [isName, Bool.and_eq_true, Bool.not_eq_true', Bool.not_eq_true', List.isEmpty_eq_false_iff,
    List.contains_eq_mem, decide_eq_false_iff_not, ne_eq, ne_eq, String.ofList_eq_empty_iff]

theorem toList_bare (op : FlagOp) (feature : String) :
    (s!"@{op.letter}.{feature}@" : String).toList = framed op feature.toList := by
  simp [framed, toString]

theorem toList_valued (op : FlagOp) (feature value : String) :
    (s!"@{op.letter}.{feature}.{value}@" : String).toList =
      framed op (feature.toList ++ '.' :: value.toList) := by
  simp [framed, toString]

theorem spells_of_ofInner? (frame : s.toList = framed op inner)
    (read : ofInner? op (String.ofList inner) = some flag)
    (complete : ¬ (flag.op.needsValue = true ∧ flag.value = none)) : Spells s flag := by
  rw [ofInner?, String.toList_ofList] at read
  rcases inner_cases inner with plain | ⟨front, back, rfl, before⟩
  · simp only [splitInner_of_not_mem plain] at read
    split at read
    · next named =>
      obtain rfl := Option.some.inj read
      obtain ⟨filled, noMark⟩ := isName_iff.mp (by simpa using named)
      have text : s = s!"@{op.letter}.{String.ofList inner}@" := by
        rw [← String.toList_inj, toList_bare, String.toList_ofList, frame]
      rw [text]
      refine .bare ?_ ⟨filled, by simpa using plain, by simpa using noMark⟩
      cases op <;> simp_all [FlagOp.needsValue]
    · cases read
  · simp only [splitInner_append before] at read
    split at read
    · next named =>
      obtain rfl := Option.some.inj read
      obtain ⟨name, given⟩ := Bool.and_eq_true_iff.mp named
      obtain ⟨filled, noMark⟩ := isName_iff.mp name
      obtain ⟨filled', noMark'⟩ := isName_iff.mp given
      have text : s = s!"@{op.letter}.{String.ofList front}.{String.ofList back}@" := by
        rw [← String.toList_inj, toList_valued, String.toList_ofList, String.toList_ofList, frame]
      rw [text]
      exact .valued op ⟨filled, by simpa using before, by simpa using noMark⟩
        ⟨filled', by simpa using noMark'⟩
    · cases read

theorem isName_toList {name : String} (filled : name ≠ "") (noMark : '@' ∉ name.toList) :
    isName name.toList = true := by
  rw [isName_iff, String.ofList_toList]
  exact ⟨filled, noMark⟩

theorem Spells.parts?_eq (h : Spells s flag) : parts? s = some flag := by
  cases h with
  | @bare op feature few named =>
    obtain ⟨filled, noPoint, noMark⟩ := named
    have name := isName_toList filled noMark
    rw [parts?_framed (toList_bare op feature), String.ofList_toList]
    simp [ofInner?, splitInner_of_not_mem noPoint, name]
  | @valued op feature value named given =>
    obtain ⟨filled, noPoint, noMark⟩ := named
    have name := isName_toList filled noMark
    have valueName := isName_toList given.1 given.2
    rw [parts?_framed (toList_valued op feature value)]
    simp [ofInner?, splitInner_append noPoint, name, valueName]

/-- Only operations that can do without a value are spelled without one. -/
theorem Spells.complete (h : Spells s flag) :
    ¬ (flag.op.needsValue = true ∧ flag.value = none) := by
  rintro ⟨needs, missing⟩
  cases h with
  | bare few _ =>
    simp only [List.mem_cons, List.not_mem_nil, or_false] at few
    rcases few with rfl | rfl | rfl
    all_goals cases needs
  | valued op _ _ => cases missing

/-- A symbol spells one flag at most, the one that is read from it. -/
theorem ofSymbol_eq_ok_iff : ofSymbol s = .ok flag ↔ Spells s flag := by
  constructor
  · intro h
    rw [ofSymbol] at h
    split at h
    · cases h
    · next parts found =>
      split at h
      · cases h
      · next complete =>
        obtain rfl := Except.ok.inj h
        obtain ⟨op, inner, frame⟩ := exists_framed_of_parts? (by rw [found]; rfl)
        rw [parts?_framed frame] at found
        apply spells_of_ofInner? frame found
        simpa using complete
  · intro h
    have complete := h.complete
    simp [ofSymbol, h.parts?_eq, complete]

/-- Symbols are found by their bytes to be flags if and only if they are read as flags. -/
theorem scansFlag_eq (s : Symbol) : scansFlag s = .ok (isFlag s) := by
  have complete : (parts? s).any isComplete = isFlag s := by
    rw [isFlag, ofSymbol]
    cases parts? s with
    | none => rfl
    | some flag =>
      cases value : flag.value
      all_goals cases needs : flag.op.needsValue
      all_goals simp [isComplete, value, needs, Except.isOk, Except.toBool]
  rw [scansFlag, scan_eq, Except.map, complete]

theorem isFlag_iff_spells : isFlag s = true ↔ ∃ flag, Spells s flag := by
  constructor
  · intro h
    obtain ⟨flag, read⟩ := ofSymbol_of_isFlag h
    exact ⟨flag, ofSymbol_eq_ok_iff.mp read⟩
  · rintro ⟨flag, spelled⟩
    exact isFlag_of_ofSymbol (ofSymbol_eq_ok_iff.mpr spelled)

end Form

end Flag

namespace Names

variable {t : Names} {name : String}

/-- The number of a name, or the next number. -/
def numberOf (t : Names) (name : String) : Nat := (t.numbers[name]?).getD t.size

/-- A table with room has a number for every name. -/
theorem intern_of_room (room : t.size < capacity) (name : String) :
    ∃ u, t.intern name = (some (t.numberOf name), u) ∧
      u.numbers[name]? = some (t.numberOf name) := by
  unfold numberOf
  cases h : t.numbers[name]? with
  | some n => exact ⟨t, intern_of_some h, h⟩
  | none =>
    refine ⟨_, intern_of_none h room, ?_⟩
    exact getElem?_add_self t name

end Names

namespace Register

variable {r : Register} {s : Symbol} {flag : Flag String}

/-- Tables with room for one more name. -/
structure Roomy (r : Register) : Prop where
  features : r.features.size < Names.capacity
  values : r.values.size < Names.capacity

/-- A flag with the numbers of its names. -/
def numbered (r : Register) (flag : Flag String) : Flag Nat :=
  ⟨flag.op, r.features.numberOf flag.feature, flag.value.map r.values.numberOf⟩

theorem Roomy.read (room : r.Roomy) (h : Flag.ofSymbol s = .ok flag) :
    ∃ after, r.read s = (.ok (r.numbered flag), after) ∧ after.Gives flag (r.numbered flag) := by
  obtain ⟨features, values⟩ := r
  obtain ⟨moreFeatures, readFeature, feature⟩ := Names.intern_of_room room.features flag.feature
  cases hv : flag.value with
  | none =>
    refine ⟨⟨moreFeatures, values⟩, ?_, rfl, feature, ?_⟩
    · simp [Register.read, h, readFeature, hv, numbered]
    · rw [numbered, hv]
      exact .none
  | some name =>
    obtain ⟨moreValues, readValue, value⟩ := Names.intern_of_room room.values name
    refine ⟨⟨moreFeatures, moreValues⟩, ?_, rfl, feature, ?_⟩
    · simp [Register.read, h, readFeature, hv, readValue, numbered]
    · rw [numbered, hv]
      exact .some value

theorem Roomy.read_ok_iff (room : r.Roomy) (s : Symbol) :
    (∃ number, (r.read s).1 = .ok number) ↔ isFlag s = true := by
  constructor
  · rintro ⟨number, read⟩
    cases h : Flag.ofSymbol s with
    | ok flag => exact Flag.isFlag_of_ofSymbol h
    | error e =>
      rw [read_of_error h] at read
      cases read
  · intro h
    obtain ⟨flag, spelled⟩ := Flag.ofSymbol_of_isFlag h
    obtain ⟨after, read, -⟩ := room.read spelled
    exact ⟨r.numbered flag, by rw [read]⟩

/-- All readers take the same symbols for flags, those of the one form, whatever their characters;
and a register with room reads each of them as its operation with the numbers of its names. -/
theorem read_flag (s : Symbol) :
    Flag.scan s = .ok (Flag.parts? s) ∧ Flag.scansFlag s = .ok (isFlag s) ∧
      (isFlag s = true ↔ ∃ flag, Flag.Spells s flag) ∧
      ∀ r : Register, r.Roomy → ((∃ number, (r.read s).1 = .ok number) ↔ isFlag s = true) ∧
        ∀ flag, Flag.Spells s flag → ∃ after,
          r.read s = (.ok (r.numbered flag), after) ∧ after.Gives flag (r.numbered flag) := by
  refine ⟨Flag.scan_eq s, Flag.scansFlag_eq s, Flag.isFlag_iff_spells, fun r room => ⟨?_, ?_⟩⟩
  · exact room.read_ok_iff s
  · intro flag spelled
    exact room.read (Flag.ofSymbol_eq_ok_iff.mpr spelled)

/-- A value with a point and a character of two bytes. -/
theorem read_flag_unify :
    let r : Register := ⟨⟨.ofList [("NUM", 0)]⟩, ⟨.ofList [("SG", 0), ("PL", 1)]⟩⟩
    r.Roomy ∧ ∃ after, r.read "@U.NUM.é.b@" = (.ok ⟨.unify, 0, some 2⟩, after) := by
  intro r
  have features : r.features.size = 1 := Std.HashMap.size_ofList (by simp)
  have values : r.values.size = 2 := Std.HashMap.size_ofList (by simp)
  have room : r.Roomy := ⟨by rw [features]; decide, by rw [values]; decide⟩
  have known : r.features.numberOf "NUM" = 0 := by
    simp [r, Names.numberOf]
  have next : r.values.numberOf "é.b" = 2 := by
    rw [Names.numberOf, values]
    simp [r]
  have spelled : Flag.Spells "@U.NUM.é.b@" ⟨.unify, "NUM", some "é.b"⟩ :=
    Flag.ofSymbol_eq_ok_iff.mp (by rfl)
  obtain ⟨-, -, -, reads⟩ := read_flag "@U.NUM.é.b@"
  obtain ⟨after, read, -⟩ := (reads r room).2 _ spelled
  refine ⟨room, after, ?_⟩
  rw [read, Register.numbered, known, Option.map_some, next]

end Register

end Transducer
