import Transducer.Alphabet
import Transducer.Flag.Basic
import Transducer.Proofs.Ordered
/-!
The text that symbols spell, and the tokens that an alphabet cuts a word into: each is one of its
symbols or a single character, and no symbol that fits in its place is longer. There is one way only
to cut a text like that.
-/

namespace Transducer

theorem toList_intercalate_empty (symbols : List Symbol) :
    ("".intercalate symbols).toList = symbols.flatMap String.toList := by
  have join (parts : List (List Char)) : List.intercalate [] parts = parts.flatten := by
    induction parts with
    | nil => rfl
    | cons part parts ih =>
      cases parts with
      | nil => simp [List.intercalate]
      | cons next parts =>
        simp only [List.intercalate, List.intersperse_cons_cons, List.flatten_cons] at ih ⊢
        simp [ih]
  rw [String.toList_intercalate, String.toList_empty, join, List.flatMap_def]

theorem flatMap_toList_filter (symbols : List Symbol) :
    (symbols.filter (· ≠ epsilon)).flatMap String.toList = symbols.flatMap String.toList := by
  induction symbols with
  | nil => rfl
  | cons s rest ih =>
    by_cases empty : s = epsilon
    · rw [List.filter_cons_of_neg (by simp [empty]), ih, List.flatMap_cons, empty]
      rfl
    · rw [List.filter_cons_of_pos (by simp [empty]), List.flatMap_cons, List.flatMap_cons, ih]

theorem toString_char_inj {c d : Char} (h : c.toString = d.toString) : c = d := by
  have letters := congrArg String.toList h
  simpa using letters

namespace Alphabet

variable {a : Alphabet} {symbols : List (List Char)} {text : List Char} {longest : Nat}
  {token : Symbol} {word : String}

theorem mem_insertAll {more : List Symbol} :
    token ∈ a.insertAll more ↔ token ∈ a ∨ token ∈ more := by
  induction more generalizing a with
  | nil => exact (or_iff_left List.not_mem_nil).symm
  | cons s rest ih =>
    have one : token ∈ a.insert s ↔ token = s ∨ token ∈ a := Ordered.mem_insert
    rw [insertAll, List.foldl_cons]
    refine (ih (a := a.insert s)).trans ?_
    rw [one, List.mem_cons]
    tauto

/-- The length found is the one that was there before, or that of a symbol that fits. -/
theorem munch_cases (text : List Char) (symbols : List (List Char)) (longest : Nat) :
    munch text symbols longest = longest ∨
      ∃ s ∈ symbols, s <+: text ∧ munch text symbols longest = s.length := by
  induction symbols generalizing longest with
  | nil => exact .inl rfl
  | cons s rest ih =>
    rw [munch]
    by_cases fits : (longest < s.length && s.isPrefixOf text) = true
    · rw [if_pos fits]
      rw [Bool.and_eq_true] at fits
      have ahead : s <+: text := List.isPrefixOf_iff_prefix.mp fits.2
      rcases ih s.length with same | ⟨t, ht, found⟩
      · exact .inr ⟨s, List.mem_cons_self, ahead, same⟩
      · exact .inr ⟨t, List.mem_cons_of_mem s ht, found⟩
    · rw [if_neg fits]
      rcases ih longest with same | ⟨t, ht, found⟩
      · exact .inl same
      · exact .inr ⟨t, List.mem_cons_of_mem s ht, found⟩

theorem mem_cut (h : token ∈ cut symbols text) :
    token.toList ∈ symbols ∨ ∃ c, token = String.ofList [c] := by
  fun_induction cut symbols text with
  | case1 => simp at h
  | case2 c rest more ih =>
    rcases List.mem_cons.mp h with here | later
    · rcases munch_cases (c :: rest) symbols 1 with one | ⟨s, hs, ahead, len⟩
      · refine .inr ⟨c, ?_⟩
        simp [here, more, one]
      · cases s with
        | nil =>
          refine .inr ⟨c, ?_⟩
          simp [here, more, len]
        | cons d s =>
          obtain ⟨rfl, behind⟩ := List.cons_prefix_cons.mp ahead
          have taken : rest.take more = s := by
            simp only [more, len, List.length_cons, Nat.add_sub_cancel]
            exact (List.prefix_iff_eq_take.mp behind).symm
          refine .inl ?_
          rw [here, taken, String.toList_ofList]
          exact hs
    · exact ih later

/-- Texts with their tokens: none of the symbols that fit in the place of a token is longer. -/
inductive Munched (symbols : List (List Char)) : List Char → List Symbol → Prop
  | done : Munched symbols [] []
  | token {t rest : List Char} {more : List Symbol} : t ≠ [] → (t ∈ symbols ∨ t.length = 1) →
      (∀ s ∈ symbols, s <+: t ++ rest → s.length ≤ t.length) → Munched symbols rest more →
      Munched symbols (t ++ rest) (String.ofList t :: more)

theorem le_munch (text : List Char) (symbols : List (List Char)) (longest : Nat) :
    longest ≤ munch text symbols longest := by
  induction symbols generalizing longest with
  | nil => exact Nat.le_refl _
  | cons s rest ih =>
    rw [munch]
    split
    · next fits =>
      rw [Bool.and_eq_true, decide_eq_true_eq] at fits
      exact Nat.le_trans (Nat.le_of_lt fits.1) (ih s.length)
    · exact ih longest

theorem length_le_munch {s : List Char} (mem : s ∈ symbols) (fits : s <+: text) (longest : Nat) :
    s.length ≤ munch text symbols longest := by
  induction symbols generalizing longest with
  | nil => exact absurd mem List.not_mem_nil
  | cons first rest ih =>
    rw [munch]
    rcases List.mem_cons.mp mem with rfl | later
    · split
      · exact le_munch text rest s.length
      · next short =>
        rw [List.isPrefixOf_iff_prefix.mpr fits, Bool.and_true, decide_eq_true_eq] at short
        exact Nat.le_trans (Nat.le_of_not_lt short) (le_munch text rest longest)
    · exact ih later _

theorem munched_cut (symbols : List (List Char)) (text : List Char) :
    Munched symbols text (cut symbols text) := by
  fun_induction cut symbols text with
  | case1 => exact .done
  | case2 c rest more ih =>
    let length := munch (c :: rest) symbols 1
    have one : 1 ≤ length := le_munch ..
    have taken : c :: rest.take more = (c :: rest).take length := by
      have next : length = more + 1 := (Nat.sub_add_cancel one).symm
      rw [next, List.take_succ_cons]
    have split : c :: rest = (c :: rest.take more) ++ rest.drop more := by
      rw [List.cons_append, List.take_append_drop]
    have fits : (c :: rest.take more ∈ symbols ∨ (c :: rest.take more).length = 1) ∧
        (c :: rest.take more).length = length := by
      rw [taken]
      rcases munch_cases (c :: rest) symbols 1 with single | ⟨s, mem, ahead, len⟩
      · have single : length = 1 := single
        rw [single]
        exact ⟨.inr rfl, rfl⟩
      · have whole : s = (c :: rest).take length := by
          have len : length = s.length := len
          rw [len]
          exact List.prefix_iff_eq_take.mp ahead
        exact ⟨.inl (whole ▸ mem), by rw [← whole]; exact len.symm⟩
    have all : Munched symbols ((c :: rest.take more) ++ rest.drop more)
        (String.ofList (c :: rest.take more) :: cut symbols (rest.drop more)) := by
      refine .token (List.cons_ne_nil _ _) fits.1 (fun s mem ahead => ?_) ih
      rw [fits.2]
      exact length_le_munch mem (split ▸ ahead) 1
    exact split ▸ all

namespace Munched

variable {tokens more : List Symbol}

theorem flatMap_toList (h : Munched symbols text tokens) : tokens.flatMap String.toList = text := by
  induction h with
  | done => rfl
  | token _ _ _ _ ih => rw [List.flatMap_cons, String.toList_ofList, ih]

theorem ne_empty (h : Munched symbols text tokens) : ∀ t ∈ tokens, t ≠ "" := by
  induction h with
  | done => simp
  | token some _ _ _ ih =>
    exact List.forall_mem_cons.mpr ⟨mt String.ofList_eq_empty_iff.mp some, ih⟩

theorem mem_of_long (h : Munched symbols text tokens) (mem : token ∈ tokens)
    (long : 1 < token.toList.length) : token.toList ∈ symbols := by
  induction h with
  | done => exact absurd mem List.not_mem_nil
  | @token t rest more _ known _ _ ih =>
    rcases List.mem_cons.mp mem with rfl | later
    · rw [String.toList_ofList] at long ⊢
      exact known.resolve_right (Nat.ne_of_gt long)
    · exact ih later

/-- The tokens are also those for other symbols, if they are among these or single characters, and
these hold no longer ones. -/
theorem transfer {others : List (List Char)} (h : Munched symbols text tokens)
    (mem : ∀ t ∈ tokens, t.toList ∈ others ∨ t.toList.length = 1)
    (sub : ∀ s ∈ others, 1 < s.length → s ∈ symbols) : Munched others text tokens := by
  induction h with
  | done => exact .done
  | @token t rest more some _ longest _ ih =>
    obtain ⟨here, later⟩ := List.forall_mem_cons.mp mem
    rw [String.toList_ofList] at here
    refine .token some here (fun s there fits => ?_) (ih later)
    by_cases long : 1 < s.length
    · exact longest s (sub s there long) fits
    · exact Nat.le_trans (Nat.le_of_not_lt long) (List.length_pos_iff.mpr some)

/-- There is one way to cut a text. -/
theorem unique (h : Munched symbols text tokens) (h' : Munched symbols text more) :
    tokens = more := by
  induction h generalizing more with
  | done =>
    generalize empty : ([] : List Char) = text at h'
    cases h' with
    | done => rfl
    | token some => exact absurd (List.append_eq_nil_iff.mp empty.symm).1 some
  | @token t rest tokens some known longest _ ih =>
    generalize whole : t ++ rest = text at h'
    cases h' with
    | done => exact absurd (List.append_eq_nil_iff.mp whole).1 some
    | @token u others more some' known' longest' munched =>
      have fits {t u rest : List Char} (some : t ≠ []) (known : u ∈ symbols ∨ u.length = 1)
          (longest : ∀ s ∈ symbols, s <+: t ++ rest → s.length ≤ t.length)
          (ahead : u <+: t ++ rest) : u.length ≤ t.length := by
        rcases known with mem | single
        · exact longest u mem ahead
        · exact single ▸ List.length_pos_iff.mpr some
      have length : t.length = u.length := Nat.le_antisymm
        (fits some' known longest' (whole ▸ List.prefix_append ..))
        (fits some known' longest (whole ▸ List.prefix_append ..))
      obtain ⟨rfl, rfl⟩ := List.append_inj whole length
      rw [ih munched]

end Munched

/-- The tokens of a word spell it. -/
theorem flatMap_toList_tokenize (a : Alphabet) (word : String) :
    (a.tokenize word).flatMap String.toList = word.toList :=
  (munched_cut _ _).flatMap_toList

theorem mem_tokenize (h : token ∈ a.tokenize word) :
    token ∈ a ∨ ∃ c, token = String.ofList [c] := by
  rcases mem_cut h with known | single
  · obtain ⟨s, hs, same⟩ := List.mem_map.mp known
    rw [String.toList_inj] at same
    exact .inl (same ▸ hs)
  · exact .inr single

/-- Symbols that are left out do not change the tokens of a word, unless one of them is a token of
several characters. -/
theorem tokenize_filter {p : Symbol → Bool}
    (kept : ∀ t ∈ a.tokenize word, p t = true ∨ t.toList.length = 1) :
    (a.filter p).tokenize word = a.tokenize word := by
  have munched : Munched (a.symbols.map String.toList) word.toList (a.tokenize word) :=
    munched_cut _ _
  refine (munched_cut _ _).unique (munched.transfer (fun t mem => ?_) fun s there _ => ?_)
  · rcases mem_tokenize mem with known | ⟨c, rfl⟩
    · rcases kept t mem with stays | single
      · exact .inl (List.mem_map_of_mem (List.mem_filter.mpr ⟨known, stays⟩))
      · exact .inr single
    · exact .inr (congrArg List.length String.toList_ofList)
  · obtain ⟨symbol, mem, rfl⟩ := List.mem_map.mp there
    exact List.mem_map_of_mem (List.mem_filter.mp mem).1

/-- Every symbol is one character. -/
def Single (a : Alphabet) : Prop := ∀ s ∈ a, ∃ c : Char, s = c.toString

/-- Symbols of one character cut a word into its characters. -/
theorem Single.tokenize_eq (h : a.Single) (word : String) :
    a.tokenize word = word.toList.map Char.toString := by
  have short : ∀ s ∈ a.symbols.map String.toList, s.length ≤ 1 := by
    intro s mem
    obtain ⟨t, there, rfl⟩ := List.mem_map.mp mem
    obtain ⟨c, rfl⟩ := h t there
    simp
  have pieces (text : List Char) :
      Munched (a.symbols.map String.toList) text (text.map Char.toString) := by
    induction text with
    | nil => exact .done
    | cons c rest ih =>
      exact .token (t := [c]) (List.cons_ne_nil c []) (.inr rfl) (fun s mem _ => short s mem) ih
  exact (munched_cut _ _).unique (pieces _)

end Alphabet

theorem isFlag_single (c : Char) : isFlag (String.ofList [c]) = false := by
  have none : Flag.parts? (String.ofList [c]) = none := by
    simp [Flag.parts?]
  rw [isFlag, Flag.ofSymbol, none]
  rfl

end Transducer
