import Transducer.Proofs.Alphabet
/-!
The tokens of a word, place by place: each is the longest symbol that the rest of the word begins
with, or its next character if it begins with none. No other list of tokens is like that, so it does
not matter how the symbols are looked for, as long as the longest of them is found.
-/

namespace Transducer

/-- The token at the start of a text: the longest known symbol that the text begins with, or its
first character if it begins with none. -/
inductive Leading (known : Symbol → Prop) : List Char → Symbol → Prop
  | symbol {text : List Char} {t : Symbol} : known t → t.toList <+: text →
      (∀ s, known s → s.toList <+: text → s.length ≤ t.length) → Leading known text t
  | character {c : Char} {rest : List Char} : (∀ s, known s → ¬ s.toList <+: c :: rest) →
      Leading known (c :: rest) c.toString

/-- The tokens of a text. None is empty, together they spell the text, and each leads what is left
of the text in its place. -/
structure Tokens (known : Symbol → Prop) (text : List Char) (tokens : List Symbol) : Prop where
  filled : ∀ t ∈ tokens, t ≠ epsilon
  whole : tokens.flatMap String.toList = text
  leading : ∀ before t after, tokens = before ++ t :: after →
    Leading known ((t :: after).flatMap String.toList) t

variable {known : Symbol → Prop} {symbols : List (List Char)} {text t rest : List Char}
  {tokens more : List Symbol} {first : Symbol}

theorem Tokens.tail (h : Tokens known text (first :: more)) :
    Tokens known (more.flatMap String.toList) more where
  filled t mem := h.filled t (List.mem_cons_of_mem first mem)
  whole := rfl
  leading before t after split := h.leading (first :: before) t after (by rw [split]; rfl)

/-- A longest symbol or single character leads the text. -/
theorem leading_ofList (same : ∀ s, known s ↔ s.toList ∈ symbols ∧ s ≠ epsilon) (some : t ≠ [])
    (fits : t ∈ symbols ∨ t.length = 1)
    (longest : ∀ s ∈ symbols, s <+: t ++ rest → s.length ≤ t.length) :
    Leading known (t ++ rest) (String.ofList t) := by
  have spelled : (String.ofList t).toList = t := String.toList_ofList
  by_cases mem : t ∈ symbols
  · have filled : String.ofList t ≠ epsilon := mt String.ofList_eq_empty_iff.mp some
    refine .symbol ((same _).mpr ⟨by rwa [spelled], filled⟩) ?_ fun s hs ahead => ?_
    · rw [spelled]
      exact List.prefix_append t rest
    · rw [← String.length_toList, ← String.length_toList, spelled]
      exact longest _ ((same s).mp hs).1 ahead
  · obtain ⟨c, rfl⟩ := List.length_eq_one_iff.mp (fits.resolve_left mem)
    refine .character fun s hs ahead => mem ?_
    -- a symbol that fits has one character, and that is the next one
    obtain ⟨listed, filled⟩ := (same s).mp hs
    have one : s.toList.length = 1 := by
      refine Nat.le_antisymm (longest _ listed ahead) (List.length_pos_iff.mpr fun empty => ?_)
      exact filled (String.toList_eq_nil_iff.mp empty)
    have next : s.toList = [c] := by
      have taken := List.prefix_iff_eq_take.mp ahead
      rwa [one] at taken
    exact next ▸ listed

/-- The symbol at the start of a text is a longest one that fits or a single character. -/
theorem Leading.fits (same : ∀ s, known s ↔ s.toList ∈ symbols ∧ s ≠ epsilon)
    (h : Leading known text first) : (first.toList ∈ symbols ∨ first.toList.length = 1) ∧
      ∀ s ∈ symbols, s <+: text → s.length ≤ first.toList.length := by
  have spells {s : List Char} (mem : s ∈ symbols) (some : s ≠ []) : known (String.ofList s) :=
    (same _).mpr ⟨by rwa [String.toList_ofList], mt String.ofList_eq_empty_iff.mp some⟩
  cases h with
  | symbol hk _ longest =>
    refine ⟨.inl ((same _).mp hk).1, fun s mem ahead => ?_⟩
    rcases List.eq_nil_or_concat s with rfl | ⟨_, _, rfl⟩
    · exact Nat.zero_le _
    · have le := longest _ (spells mem (by simp)) (by rwa [String.toList_ofList])
      rwa [String.length_ofList, ← String.length_toList] at le
  | @character c rest none =>
    refine ⟨.inr (by simp), fun s mem ahead => ?_⟩
    rcases List.eq_nil_or_concat s with rfl | ⟨_, _, rfl⟩
    · exact Nat.zero_le _
    · exact absurd (by rwa [String.toList_ofList]) (none _ (spells mem (by simp)))

/-- Cutting off a longest symbol or a single character at each place is the same as taking the
leading token at each place. -/
theorem munched_iff_tokens (same : ∀ s, known s ↔ s.toList ∈ symbols ∧ s ≠ epsilon) :
    Alphabet.Munched symbols text tokens ↔ Tokens known text tokens := by
  constructor
  · intro h
    induction h with
    | done =>
      refine ⟨by simp, rfl, fun before t after split => ?_⟩
      exact absurd split (by simp)
    | @token t rest more some fits longest munched ih =>
      refine ⟨(Alphabet.Munched.token some fits longest munched).ne_empty, ?_, ?_⟩
      · rw [List.flatMap_cons, String.toList_ofList, ih.whole]
      · intro before u after split
        cases before with
        | nil =>
          obtain ⟨rfl, rfl⟩ := List.cons.inj split
          rw [List.flatMap_cons, String.toList_ofList, ih.whole]
          exact leading_ofList same some fits longest
        | cons b before => exact ih.leading before u after (List.cons.inj split).2
  · intro h
    induction tokens generalizing text with
    | nil =>
      rw [← h.whole]
      exact .done
    | cons first more ih =>
      have some : first.toList ≠ [] := fun empty =>
        h.filled first List.mem_cons_self (String.toList_eq_nil_iff.mp empty)
      obtain ⟨fits, longest⟩ := (h.leading [] first more rfl).fits same
      rw [List.flatMap_cons] at longest
      have all := Alphabet.Munched.token some fits longest (ih h.tail)
      rwa [String.ofList_toList, ← List.flatMap_cons, h.whole] at all

namespace Alphabet

variable {a : Alphabet} {length other : Nat}

/-- The number of characters of the longest symbol. -/
def longest (a : Alphabet) : Nat := (a.symbols.map String.length).max?.getD 0

/-- Tries the first so many prefixes of a text, the shortest first, and keeps the length of the last
one that is a symbol, or 1. -/
def scan (a : Alphabet) (text : List Char) (count : Nat) : Nat :=
  (List.range count).foldl
    (fun length n => if String.ofList (text.take (n + 1)) ∈ a then n + 1 else length) 1

/-- Cuts a text by trying at each place the prefixes of up to `bound` characters. -/
def scanned (a : Alphabet) (bound : Nat) : List Char → List Symbol
  | [] => []
  | c :: rest =>
    let more := a.scan (c :: rest) (min bound (c :: rest).length) - 1
    String.ofList (c :: rest.take more) :: scanned a bound (rest.drop more)
termination_by text => text.length
decreasing_by simp only [List.length_drop, List.length_cons]; omega

/-- A length that is 1 or that of a symbol that fits, and no symbol that fits is longer. -/
structure Longest (symbols : List (List Char)) (text : List Char) (length : Nat) : Prop where
  some : 1 ≤ length
  found : length = 1 ∨ ∃ s ∈ symbols, s <+: text ∧ length = s.length
  most : ∀ s ∈ symbols, s <+: text → s.length ≤ length

namespace Longest

theorem le (h : Longest symbols text length) (h' : Longest symbols text other) :
    length ≤ other := by
  rcases h.found with one | ⟨s, mem, ahead, same⟩
  · exact one ▸ h'.some
  · exact same ▸ h'.most s mem ahead

theorem unique (h : Longest symbols text length) (h' : Longest symbols text other) :
    length = other :=
  Nat.le_antisymm (h.le h') (h'.le h)

end Longest

theorem longest_munch (text : List Char) (symbols : List (List Char)) :
    Longest symbols text (munch text symbols 1) where
  some := le_munch ..
  found := munch_cases ..
  most _ mem ahead := length_le_munch mem ahead 1

theorem length_le_longest {s : Symbol} (h : s ∈ a) : s.length ≤ a.longest :=
  List.le_max?_getD_of_mem (List.mem_map_of_mem h)

theorem scan_succ (a : Alphabet) (text : List Char) (count : Nat) : a.scan text (count + 1) =
    if String.ofList (text.take (count + 1)) ∈ a then count + 1 else a.scan text count := by
  rw [scan, List.range_succ, List.foldl_append]
  rfl

/-- Among the prefixes that are tried the scan finds the longest symbol. -/
theorem scan_spec (text : List Char) (count : Nat) : 1 ≤ a.scan text count ∧
    (a.scan text count = 1 ∨
      a.scan text count ≤ count ∧ String.ofList (text.take (a.scan text count)) ∈ a) ∧
    ∀ n < count, String.ofList (text.take (n + 1)) ∈ a → n + 1 ≤ a.scan text count := by
  induction count with
  | zero => exact ⟨Nat.le_refl 1, .inl rfl, fun n none => absurd none (Nat.not_lt_zero n)⟩
  | succ count ih =>
    obtain ⟨some, found, most⟩ := ih
    rw [scan_succ]
    split
    · next here => exact ⟨Nat.succ_pos count, .inr ⟨Nat.le_refl _, here⟩, fun n lt _ => lt⟩
    · next missing =>
      refine ⟨some, found.imp_right fun ⟨le, mem⟩ => ⟨Nat.le_succ_of_le le, mem⟩,
        fun n lt mem => ?_⟩
      rcases Nat.lt_succ_iff_lt_or_eq.mp lt with before | last
      · exact most n before mem
      · exact absurd (last ▸ mem) missing

/-- A bound that no symbol exceeds does not keep the scan from any symbol. -/
theorem longest_scan {bound : Nat} (enough : a.longest ≤ bound) (text : List Char) :
    Longest (a.symbols.map String.toList) text (a.scan text (min bound text.length)) := by
  obtain ⟨some, found, most⟩ := scan_spec (a := a) text (min bound text.length)
  refine ⟨some, ?_, fun s listed ahead => ?_⟩
  · rcases found with one | ⟨le, mem⟩
    · exact .inl one
    · refine .inr ⟨_, List.mem_map_of_mem mem, ?_, ?_⟩
      · rw [String.toList_ofList]
        exact List.take_prefix _ _
      · rw [String.toList_ofList, List.length_take]
        exact (Nat.min_eq_left (Nat.le_trans le (Nat.min_le_right ..))).symm
  · obtain ⟨symbol, mem, rfl⟩ := List.mem_map.mp listed
    have short : symbol.toList.length ≤ min bound text.length := by
      refine Nat.le_min.mpr ⟨?_, ahead.length_le⟩
      exact String.length_toList ▸ Nat.le_trans (length_le_longest mem) enough
    have taken : String.ofList (text.take symbol.toList.length) = symbol := by
      rw [← List.prefix_iff_eq_take.mp ahead, String.ofList_toList]
    cases size : symbol.toList.length with
    | zero => exact Nat.zero_le _
    | succ n =>
      rw [size] at short taken
      exact most n short (taken.symm ▸ mem)

theorem scanned_eq_cut {bound : Nat} (enough : a.longest ≤ bound) (text : List Char) :
    a.scanned bound text = cut (a.symbols.map String.toList) text := by
  fun_induction scanned a bound text with
  | case1 => rw [cut]
  | case2 c rest more ih =>
    have same := (longest_scan enough (c :: rest)).unique (longest_munch _ _)
    have less : more = munch (c :: rest) (a.symbols.map String.toList) 1 - 1 :=
      congrArg (· - 1) same
    rw [cut, ih, less]

/-- A word has one list of tokens, in which each is the longest symbol that is not empty and fits in
its place, or a single character where none fits. Scanning prefixes finds these tokens under any
bound that no symbol exceeds. -/
theorem tokens_of_word (a : Alphabet) (word : String) :
    (∀ tokens, Tokens (fun s => s ∈ a ∧ s ≠ epsilon) word.toList tokens ↔
      tokens = a.tokenize word) ∧
    ∀ slack, a.scanned (a.longest + slack) word.toList = a.tokenize word := by
  have same (s : Symbol) :
      (s ∈ a ∧ s ≠ epsilon) ↔ s.toList ∈ a.symbols.map String.toList ∧ s ≠ epsilon := by
    refine and_congr_left' ⟨List.mem_map_of_mem, fun listed => ?_⟩
    obtain ⟨t, mem, spelled⟩ := List.mem_map.mp listed
    exact String.toList_inj.mp spelled ▸ mem
  have munched := munched_cut (a.symbols.map String.toList) word.toList
  refine ⟨fun tokens => ?_, fun slack => scanned_eq_cut (Nat.le_add_right ..) _⟩
  rw [← munched_iff_tokens same]
  exact ⟨fun other => other.unique munched, fun here => here ▸ munched⟩

/-- The empty symbol never counts, and of symbols that overlap the longest is taken. -/
example : (ofList ["", "ab", "a", "bc", "+N"]).tokenize "abc+Né" = ["ab", "c", "+N", "é"] := by
  decide +kernel

end Alphabet

end Transducer
