import Transducer.Proofs.Alphabet
import Transducer.Spelling
/-!
The symbols that a side spells where no character has a meaning of its own: they are cut off like
the tokens of a word, with the declared symbols for an alphabet.
-/

namespace Transducer.Spelling

variable {spelling : Spelling} {c : Char} {rest text : List Char}

/-- No quote, backslash or space. -/
def Plain (text : List Char) : Prop := ∀ c ∈ text, c ≠ '\'' ∧ c ≠ '\\' ∧ c ≠ ' '

instance (text : List Char) : Decidable (Plain text) := List.decidableBAll _ text

/-- The symbols of a side that are not empty. -/
def spelled (spelling : Spelling) (side : String) : List Symbol :=
  (spelling.tokenize side).filter (· ≠ epsilon)

/-- The declared symbols have several characters each and stand longest first. -/
structure Sorted (spelling : Spelling) : Prop where
  long : ∀ s ∈ spelling.declared, 1 < s.length
  descending : spelling.declared.Pairwise fun s t => t.length ≤ s.length

theorem sorted_ofDeclared (symbols : List Symbol) : (ofDeclared symbols).Sorted where
  long s mem := by
    rw [ofDeclared, List.mem_mergeSort, List.mem_filter, decide_eq_true_eq] at mem
    exact mem.2
  descending := by
    refine (List.pairwise_mergeSort (fun s t u => ?_) (fun s t => ?_) _).imp of_decide_eq_true
    · simp only [decide_eq_true_eq]
      omega
    · simp only [Bool.or_eq_true, decide_eq_true_eq]
      omega

/-- A declared symbol that is found is one that the text begins with. -/
theorem fits_of_find? {s : List Char}
    (found : spelling.declared.find? (·.isPrefixOf text) = some s) :
    s ∈ spelling.declared ∧ s <+: text := by
  have ahead : s.isPrefixOf text = true := List.find?_some (a := s) found
  exact ⟨List.mem_of_find?_eq_some found, List.isPrefixOf_iff_prefix.mp ahead⟩

theorem Sorted.length_le_of_find? (h : spelling.Sorted) {s t : List Char}
    (found : spelling.declared.find? (·.isPrefixOf text) = some s) (mem : t ∈ spelling.declared)
    (fits : t <+: text) : t.length ≤ s.length := by
  obtain ⟨-, front, back, whole, before⟩ := List.find?_eq_some_iff_append.mp found
  have order := h.descending
  rw [whole] at mem order
  rcases List.mem_append.mp mem with early | late
  · have other := before t early
    rw [List.isPrefixOf_iff_prefix.mpr fits] at other
    cases other
  · rcases List.mem_cons.mp late with rfl | later
    · exact Nat.le_refl _
    · exact List.rel_of_pairwise_cons (List.pairwise_append.mp order).2.1 later

theorem next_eq (h : Plain (c :: rest)) : spelling.next c rest =
    match spelling.declared.find? (·.isPrefixOf (c :: rest)) with
    | some s => (s, rest.drop (s.length - 1))
    | none => ([c], rest) := by
  obtain ⟨quote, backslash, space⟩ := h c List.mem_cons_self
  rw [next.eq_def, if_neg quote]
  cases spelling.declared.find? (·.isPrefixOf (c :: rest)) with
  | some s => rfl
  | none =>
    dsimp only
    split
    · exact absurd rfl backslash
    · exact absurd rfl space
    · rfl

/-- The first symbol of a plain text is the longest that fits, and the rest is what follows it. -/
theorem Sorted.next_spec (h : spelling.Sorted) (plain : Plain (c :: rest)) :
    let step := spelling.next c rest
    step.1 ++ step.2 = c :: rest ∧ step.1 ≠ [] ∧
      (step.1 ∈ spelling.declared ∨ step.1.length = 1) ∧
      ∀ s ∈ spelling.declared, s <+: c :: rest → s.length ≤ step.1.length := by
  rw [next_eq plain]
  cases found : spelling.declared.find? (·.isPrefixOf (c :: rest)) with
  | none =>
    refine ⟨rfl, List.cons_ne_nil _ _, .inr rfl, fun s mem fits => ?_⟩
    have other := List.find?_eq_none.mp found s mem
    exact absurd (List.isPrefixOf_iff_prefix.mpr fits) other
  | some s =>
    obtain ⟨mem, fits⟩ := fits_of_find? found
    have long := h.long s mem
    refine ⟨?_, ?_, .inl mem, fun t there ahead => h.length_le_of_find? found there ahead⟩
    · have behind : rest.drop (s.length - 1) = (c :: rest).drop s.length := by
        have more : s.length = s.length - 1 + 1 := (Nat.sub_add_cancel (Nat.le_of_lt long)).symm
        rw [more, List.drop_succ_cons, Nat.add_sub_cancel]
      change s ++ rest.drop (s.length - 1) = c :: rest
      rw [behind]
      exact List.prefix_iff_eq_append.mp fits
    · exact List.ne_nil_of_length_pos (Nat.lt_trans Nat.zero_lt_one long)

theorem Sorted.munched_cut (h : spelling.Sorted) (plain : Plain text) :
    Alphabet.Munched spelling.declared text (spelling.cut text) := by
  fun_induction cut spelling text with
  | case1 => exact .done
  | case2 c rest step ih =>
    obtain ⟨whole, some, known, longest⟩ := h.next_spec plain
    have later : Plain step.2 := fun d mem => plain d (whole ▸ List.mem_append_right _ mem)
    have all := Alphabet.Munched.token some known (whole ▸ longest) (ih later)
    exact whole ▸ all

/-- The symbols of a plain side are its tokens, with the declared symbols for an alphabet. -/
theorem Sorted.munched_spelled (h : spelling.Sorted) {side : String} (plain : Plain side.toList) :
    Alphabet.Munched spelling.declared side.toList (spelling.spelled side) := by
  rw [spelled, tokenize]
  split
  · next empty =>
    rw [empty]
    exact .done
  · have munched := h.munched_cut plain
    have all : (spelling.cut side.toList).filter (· ≠ epsilon) = spelling.cut side.toList :=
      List.filter_eq_self.mpr fun s mem => decide_eq_true (munched.ne_empty s mem)
    exact all.symm ▸ munched

end Transducer.Spelling
