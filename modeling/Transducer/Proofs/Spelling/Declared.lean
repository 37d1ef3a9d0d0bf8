import Transducer.Proofs.Alphabet.Tokens
import Transducer.Proofs.Spelling
/-!
What a declaration of symbols does to the sides of rules. Plain text is cut at the longest declared
symbols, and of a declaration only the set of its symbols of several characters counts: two symbols
of one length that a text begins with are the same, so the order among them does not matter.
-/

namespace Transducer.Spelling

variable {spelling other : Spelling} {symbols : List Symbol} {text : List Char}

theorem mem_declared {t : List Char} : t ∈ (ofDeclared symbols).declared ↔
    String.ofList t ∈ symbols ∧ 1 < t.length := by
  rw [ofDeclared, List.mem_mergeSort, List.mem_filter, decide_eq_true_eq]
  refine and_congr_left' ⟨fun listed => ?_, fun mem => ?_⟩
  · obtain ⟨s, mem, rfl⟩ := List.mem_map.mp listed
    rwa [String.ofList_toList]
  · rw [← String.toList_ofList (l := t)]
    exact List.mem_map_of_mem mem

/-- Two spellings that declare the same symbols, in any order. -/
structure SameSymbols (spelling other : Spelling) : Prop where
  sorted : spelling.Sorted
  sorted' : other.Sorted
  mem_iff : ∀ s, s ∈ spelling.declared ↔ s ∈ other.declared

namespace SameSymbols

theorem symm (h : SameSymbols spelling other) : SameSymbols other spelling :=
  ⟨h.sorted', h.sorted, fun s => (h.mem_iff s).symm⟩

theorem of_find? (h : SameSymbols spelling other) {s : List Char}
    (found : spelling.declared.find? (·.isPrefixOf text) = some s) :
    other.declared.find? (·.isPrefixOf text) = some s := by
  obtain ⟨mem, fits⟩ := fits_of_find? found
  have there := (h.mem_iff s).mp mem
  cases found' : other.declared.find? (·.isPrefixOf text) with
  | none =>
    have missing := List.find?_eq_none.mp found' s there
    exact absurd (List.isPrefixOf_iff_prefix.mpr fits) missing
  | some t =>
    obtain ⟨mem', fits'⟩ := fits_of_find? found'
    have here := (h.mem_iff t).mpr mem'
    -- each of the two is a longest one, so neither is longer
    have le := h.sorted.length_le_of_find? found here fits'
    have ge := h.sorted'.length_le_of_find? found' there fits
    have part := List.prefix_of_prefix_length_le fits' fits le
    exact congrArg some (part.eq_of_length (Nat.le_antisymm le ge))

theorem find?_eq (h : SameSymbols spelling other) (text : List Char) :
    spelling.declared.find? (·.isPrefixOf text) = other.declared.find? (·.isPrefixOf text) := by
  cases found : spelling.declared.find? (·.isPrefixOf text) with
  | some s => exact (h.of_find? found).symm
  | none =>
    cases found' : other.declared.find? (·.isPrefixOf text) with
    | none => rfl
    | some t => exact absurd (h.symm.of_find? found') (by simp [found])

theorem next_eq (h : SameSymbols spelling other) (c : Char) (rest : List Char) :
    spelling.next c rest = other.next c rest := by
  rw [next.eq_def, next.eq_def, h.find?_eq]

theorem cut_eq (h : SameSymbols spelling other) (text : List Char) :
    spelling.cut text = other.cut text := by
  fun_induction cut spelling text with
  | case1 => rw [cut]
  | case2 c rest step ih =>
    have same : step = other.next c rest := h.next_eq c rest
    rw [cut, ih, same]

theorem tokenize_eq (h : SameSymbols spelling other) (side : String) :
    spelling.tokenize side = other.tokenize side := by
  rw [tokenize, tokenize, h.cut_eq]

end SameSymbols

theorem sameSymbols_ofDeclared {others : List Symbol}
    (same : ∀ s : Symbol, 1 < s.length → (s ∈ symbols ↔ s ∈ others)) :
    SameSymbols (ofDeclared symbols) (ofDeclared others) := by
  refine ⟨sorted_ofDeclared symbols, sorted_ofDeclared others, fun t => ?_⟩
  rw [mem_declared, mem_declared]
  exact and_congr_left fun long => same _ (by rwa [String.length_ofList])

/-- A plain side is cut into the longest declared symbols of several characters, and single
characters where none fits. Of a declaration only these symbols count, whatever their order and
however often they are listed. -/
theorem tokenize_declared (symbols : List Symbol) :
    (∀ side : String, side ≠ "" → Plain side.toList →
      Tokens (fun s => s ∈ symbols ∧ 1 < s.length) side.toList
        ((ofDeclared symbols).tokenize side)) ∧
    ∀ others : List Symbol, (∀ s : Symbol, 1 < s.length → (s ∈ symbols ↔ s ∈ others)) →
      ∀ side, (ofDeclared symbols).tokenize side = (ofDeclared others).tokenize side := by
  refine ⟨fun side some plain => ?_, fun others same => (sameSymbols_ofDeclared same).tokenize_eq⟩
  have listed (s : Symbol) : (s ∈ symbols ∧ 1 < s.length) ↔
      s.toList ∈ (ofDeclared symbols).declared ∧ s ≠ epsilon := by
    rw [mem_declared, String.ofList_toList, String.length_toList]
    refine (and_iff_left_of_imp fun ⟨_, long⟩ empty => ?_).symm
    exact absurd (empty ▸ long) (by decide)
  rw [tokenize, if_neg some]
  exact (munched_iff_tokens listed).mp ((sorted_ofDeclared symbols).munched_cut plain)

/-- Symbols that begin alike, a symbol listed twice and one of a single character. -/
theorem tokenize_declared_reordered :
    Tokens (fun s => s ∈ ["+N", "+Pl", "+PlX", "x"] ∧ 1 < s.length) "dog+N+PlX".toList
        ["d", "o", "g", "+N", "+PlX"] ∧
      (ofDeclared ["+N", "+Pl", "+PlX", "x"]).tokenize "'a+N'+Pl \\+N+PlX" =
        (ofDeclared ["+PlX", "+N", "+Pl", "+N"]).tokenize "'a+N'+Pl \\+N+PlX" := by
  obtain ⟨plain, set⟩ := tokenize_declared ["+N", "+Pl", "+PlX", "x"]
  have longestFirst : ofDeclared ["+N", "+Pl", "+PlX", "x"] =
      ⟨["+PlX".toList, "+Pl".toList, "+N".toList]⟩ := by
    simp [ofDeclared, List.mergeSort, List.MergeSort.Internal.splitInTwo]
  have cut : (ofDeclared ["+N", "+Pl", "+PlX", "x"]).tokenize "dog+N+PlX" =
      ["d", "o", "g", "+N", "+PlX"] := by
    rw [longestFirst]
    decide +kernel
  refine ⟨cut ▸ plain "dog+N+PlX" (by decide) (by decide), set _ (fun s long => ?_) _⟩
  have short : s ≠ "x" := fun same => absurd (same ▸ long) (by decide)
  simp only [List.mem_cons, List.not_mem_nil, or_false, short]
  tauto

end Transducer.Spelling
