import Transducer.Label
/-!
How the sides of lexicon rules spell symbols. A quoted run is one symbol, a backslash takes the
next character literally, a space is the empty symbol, and declared symbols of several characters
need no quotes; every other character is a symbol of its own.
-/

namespace Transducer

/-- The declared symbols of two characters or more, longest first. -/
structure Spelling where
  declared : List (List Char) := []
  deriving DecidableEq, Repr, Inhabited

namespace Spelling

def ofDeclared (symbols : List Symbol) : Spelling :=
  ⟨((symbols.map String.toList).filter fun s => 1 < s.length).mergeSort
    fun s t => t.length ≤ s.length⟩

/-- The symbol up to the first quote that no backslash precedes, and what follows that quote. -/
def closedRun : List Char → Option (List Char × List Char)
  | [] => none
  | '\\' :: '\'' :: r => (closedRun r).map fun (s, rest) => ('\'' :: s, rest)
  | c :: r => if c = '\'' then some ([], r) else (closedRun r).map fun (s, rest) => (c :: s, rest)

/-- The symbol up to the last quote that a backslash precedes; that backslash is kept. -/
def openRun : List Char → Option (List Char × List Char)
  | [] => none
  | '\\' :: '\'' :: r =>
    match openRun r with
    | some (s, rest) => some ('\'' :: s, rest)
    | none => some (['\\'], r)
  | c :: r => (openRun r).map fun (s, rest) => (c :: s, rest)

/-- The quoted symbol whose opening quote stands before the text. Two more quotes spell the quote
itself; a run that is never closed ends at its last escaped quote, if it has one. -/
def quotedRun : List Char → Option (List Char × List Char)
  | '\'' :: '\'' :: r => some (['\''], r)
  | r => closedRun r <|> openRun r

theorem length_of_closedRun {text s rest : List Char} (h : closedRun text = some (s, rest)) :
    rest.length < text.length := by
  fun_induction closedRun text generalizing s rest with
  | case1 => simp at h
  | case2 r ih =>
    obtain ⟨⟨t, u⟩, ht, he⟩ := Option.map_eq_some_iff.1 h
    obtain ⟨-, rfl⟩ := Prod.mk.inj he
    have := ih ht
    simp only [List.length_cons]; omega
  | case3 r => obtain ⟨-, rfl⟩ := Prod.mk.inj (Option.some.inj h); simp
  | case4 c r _ _ ih =>
    obtain ⟨⟨t, u⟩, ht, he⟩ := Option.map_eq_some_iff.1 h
    obtain ⟨-, rfl⟩ := Prod.mk.inj he
    have := ih ht
    simp only [List.length_cons]; omega

theorem length_of_openRun {text s rest : List Char} (h : openRun text = some (s, rest)) :
    rest.length < text.length := by
  fun_induction openRun text generalizing s rest with
  | case1 => simp at h
  | case2 r t u ht ih =>
    obtain ⟨-, rfl⟩ := Prod.mk.inj (Option.some.inj h)
    have := ih ht
    simp only [List.length_cons]; omega
  | case3 r _ =>
    obtain ⟨-, rfl⟩ := Prod.mk.inj (Option.some.inj h)
    simp only [List.length_cons]; omega
  | case4 c r _ ih =>
    obtain ⟨⟨t, u⟩, ht, he⟩ := Option.map_eq_some_iff.1 h
    obtain ⟨-, rfl⟩ := Prod.mk.inj he
    have := ih ht
    simp only [List.length_cons]; omega

theorem length_of_quotedRun {text s rest : List Char} (h : quotedRun text = some (s, rest)) :
    rest.length < text.length := by
  unfold quotedRun at h
  split at h
  · obtain ⟨-, rfl⟩ := Prod.mk.inj (Option.some.inj h)
    simp only [List.length_cons]; omega
  · rcases hc : closedRun text with _ | ⟨t, u⟩
    · rw [hc] at h; exact length_of_openRun (by simpa using h)
    · rw [hc] at h
      have h := Option.some.inj h
      obtain ⟨-, rfl⟩ := Prod.mk.inj h
      exact length_of_closedRun hc

/-- The first symbol of the text that begins with `c`, and what follows it. -/
def next (spelling : Spelling) (c : Char) (rest : List Char) : List Char × List Char :=
  match if c = '\'' then quotedRun rest else none with
  | some run => run
  | none =>
    match spelling.declared.find? (·.isPrefixOf (c :: rest)) with
    | some s => (s, rest.drop (s.length - 1))
    | none =>
      match c, rest with
      | '\\', e :: rest => ([e], rest)
      | ' ', rest => ([], rest)
      | c, rest => ([c], rest)

theorem length_next (spelling : Spelling) (c : Char) (rest : List Char) :
    (next spelling c rest).2.length ≤ rest.length := by
  unfold next
  split
  · next run h =>
    split at h
    · exact Nat.le_of_lt (length_of_quotedRun (s := run.1) h)
    · cases h
  · split
    · simp
    · split <;> simp

/-- The symbols of a text, one after the other. -/
def cut (spelling : Spelling) : List Char → List Symbol
  | [] => []
  | c :: rest =>
    let step := next spelling c rest
    String.ofList step.1 :: cut spelling step.2
termination_by text => text.length
decreasing_by
  have := length_next spelling c rest
  simp only [List.length_cons]; omega

/-- The symbols of one side of a rule; the empty side is one empty symbol. -/
def tokenize (spelling : Spelling) (side : String) : List Symbol :=
  if side = "" then [epsilon] else cut spelling side.toList

end Spelling

end Transducer
