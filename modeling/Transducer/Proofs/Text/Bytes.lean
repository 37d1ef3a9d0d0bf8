import Mathlib.Data.List.Basic
import Transducer.Text.Bytes
/-!
Characters and their bytes. A byte below 128 is a character of its own, wherever it stands; so
places next to such bytes are between characters, and a text can be sliced there.
-/

namespace Transducer.Text

variable {b : UInt8} {cs : List Char} {rest : List UInt8}

theorem bytes_ofList (cs : List Char) :
    bytes (String.ofList cs) = cs.flatMap String.utf8EncodeChar := by
  rw [bytes, String.toUTF8_eq_toByteArray, String.toByteArray_ofList, List.utf8Encode]
  simp

theorem bytes_eq (s : String) : bytes s = s.toList.flatMap String.utf8EncodeChar := by
  rw [← bytes_ofList, String.ofList_toList]

theorem length_bytes (s : String) : (bytes s).length = s.utf8ByteSize := by
  simp [bytes]

theorem encode_ne_nil (c : Char) : String.utf8EncodeChar c ≠ [] := by
  rw [← List.length_pos_iff, String.length_utf8EncodeChar]
  exact c.utf8Size_pos

theorem toNat_ofUInt8 (b : UInt8) : (Char.ofUInt8 b).val.toNat = b.toNat := UInt8.toNat_toUInt32 b

/-- A character is one byte below 128, or all its bytes are from there on. -/
theorem encode_cases (c : Char) :
    (∃ b < 128, c = Char.ofUInt8 b ∧ String.utf8EncodeChar c = [b]) ∨
      ∀ b ∈ String.utf8EncodeChar c, 128 ≤ b := by
  have high (n : Nat) (le : 128 ≤ n % 256) : 128 ≤ UInt8.ofNat n := by
    rw [UInt8.le_iff_toNat_le, UInt8.toNat_ofNat']
    exact le
  simp only [String.utf8EncodeChar]
  split
  · next small =>
    refine .inl ⟨UInt8.ofNat c.val.toNat, ?_, ?_, rfl⟩
    · rw [UInt8.lt_iff_toNat_lt, UInt8.toNat_ofNat']
      have bound : (128 : UInt8).toNat = 128 := rfl
      omega
    · apply Char.ext
      rw [← UInt32.toNat_inj, toNat_ofUInt8, UInt8.toNat_ofNat']
      omega
  · refine .inr ?_
    split
    · simp only [List.forall_mem_cons]
      exact ⟨high _ (by omega), high _ (by omega), by simp⟩
    · split
      · simp only [List.forall_mem_cons]
        exact ⟨high _ (by omega), high _ (by omega), high _ (by omega), by simp⟩
      · simp only [List.forall_mem_cons]
        exact ⟨high _ (by omega), high _ (by omega), high _ (by omega), high _ (by omega), by simp⟩

theorem encode_of_mem {c : Char} (mem : b ∈ String.utf8EncodeChar c) (small : b < 128) :
    c = Char.ofUInt8 b ∧ String.utf8EncodeChar c = [b] := by
  rcases encode_cases c with ⟨own, -, same, one⟩ | high
  · rw [one, List.mem_singleton] at mem
    subst mem
    exact ⟨same, one⟩
  · have le := high b mem
    rw [UInt8.le_iff_toNat_le] at le
    rw [UInt8.lt_iff_toNat_lt] at small
    omega

theorem encode_ofUInt8 (small : b < 128) : String.utf8EncodeChar (Char.ofUInt8 b) = [b] := by
  rw [UInt8.lt_iff_toNat_lt] at small
  have bound : (128 : UInt8).toNat = 128 := rfl
  simp only [String.utf8EncodeChar, toNat_ofUInt8]
  rw [if_pos (by omega), UInt8.ofNat_toNat]

/-- A byte below 128 at the front is the first character. -/
theorem exists_cons_of_encode (h : cs.flatMap String.utf8EncodeChar = b :: rest)
    (small : b < 128) :
    ∃ more, cs = Char.ofUInt8 b :: more ∧ more.flatMap String.utf8EncodeChar = rest := by
  cases cs with
  | nil => cases h
  | cons c more =>
    rw [List.flatMap_cons] at h
    obtain ⟨first, others, split⟩ := List.exists_cons_of_ne_nil (encode_ne_nil c)
    rw [split, List.cons_append, List.cons.injEq] at h
    obtain ⟨rfl, behind⟩ := h
    obtain ⟨same, one⟩ := encode_of_mem (split ▸ List.mem_cons_self) small
    rw [one, List.cons.injEq] at split
    rw [← split.2, List.nil_append] at behind
    exact ⟨more, by rw [same], behind⟩

/-- A byte below 128 at the end is the last character. -/
theorem exists_snoc_of_encode (h : cs.flatMap String.utf8EncodeChar = rest ++ [b])
    (small : b < 128) :
    ∃ more, cs = more ++ [Char.ofUInt8 b] ∧ more.flatMap String.utf8EncodeChar = rest := by
  rcases List.eq_nil_or_concat' cs with rfl | ⟨more, c, rfl⟩
  · simp at h
  · rw [List.flatMap_append, List.flatMap_singleton] at h
    obtain ⟨others, last, split⟩ := (List.eq_nil_or_concat' _).resolve_left (encode_ne_nil c)
    rw [split, ← List.append_assoc] at h
    obtain ⟨front, same⟩ := List.append_inj' h rfl
    obtain rfl := List.singleton_inj.mp same
    obtain ⟨char, one⟩ := encode_of_mem (split ▸ List.mem_concat_self) small
    rw [one, ← List.nil_append [last]] at split
    obtain ⟨none, -⟩ := List.append_inj' split rfl
    rw [← none, List.append_nil] at front
    exact ⟨more, by rw [char], front⟩

/-- Places between the parts of a text are not inside a character. -/
theorem slice_append (front middle back : String) :
    slice (front ++ middle ++ back) front.utf8ByteSize
      (front.utf8ByteSize + middle.utf8ByteSize) = .ok middle := by
  have first : (⟨front.utf8ByteSize⟩ : String.Pos.Raw).IsValid (front ++ middle ++ back) := by
    rw [String.append_assoc]
    exact String.Pos.Raw.isValid_iff_exists_append.mpr ⟨front, middle ++ back, rfl, rfl⟩
  have last : (⟨front.utf8ByteSize + middle.utf8ByteSize⟩ : String.Pos.Raw).IsValid
      (front ++ middle ++ back) := by
    refine String.Pos.Raw.isValid_iff_exists_append.mpr ⟨front ++ middle, back, rfl, ?_⟩
    simp [String.Pos.Raw.ext_iff]
  have joined : (front.toByteArray ++ middle.toByteArray).extract front.toByteArray.size
      (front.toByteArray.size + middle.toByteArray.size) = middle.toByteArray :=
    ByteArray.extract_append_eq_right rfl rfl
  simp only [String.size_toByteArray] at joined
  rw [slice, dif_pos ⟨Nat.le_add_right .., first, last⟩, Except.ok.injEq, ← String.toByteArray_inj,
    String.toByteArray_extract, String.toByteArray_append, ByteArray.extract_append,
    String.toByteArray_append, joined]
  simp

end Transducer.Text
