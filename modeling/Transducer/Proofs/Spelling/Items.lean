import Transducer.Proofs.Spelling.Declared
/-!
How to spell any sequence of symbols. A character stands behind a backslash, the empty symbol is a
space, and a symbol stands in quotes with a backslash before each quote in it. What is spelled one
after the other like that is read back symbol by symbol, whatever stands next to it.
-/

namespace Transducer.Spelling

variable {spelling : Spelling} {s rest : List Char}

/-- A symbol that can stand in quotes. One that ends in a backslash would hide the closing quote,
and two quotes next to each other may begin the spelling of a quote. -/
structure Quotable (s : Symbol) : Prop where
  filled : s ≠ epsilon
  ending : s.toList.getLast? ≠ some '\\'

/-- A symbol together with one of its spellings. -/
inductive Item where
  | character (c : Char)
  | filler
  | quoted (s : Symbol) (quotable : Quotable s)

/-- A text as it stands between quotes. -/
def escaped (text : List Char) : List Char :=
  text.flatMap fun c => if c = '\'' then ['\\', '\''] else [c]

namespace Item

def symbol : Item → Symbol
  | character c => c.toString
  | filler => epsilon
  | quoted s _ => s

def text : Item → List Char
  | character c => ['\\', c]
  | filler => [' ']
  | quoted s _ => '\'' :: (escaped s.toList ++ ['\''])

end Item

/-- No quote stands at the start of a text between quotes. -/
theorem head?_escaped (filled : s ≠ []) (rest : List Char) :
    (escaped s ++ rest).head? ≠ some '\'' := by
  cases s with
  | nil => exact absurd rfl filled
  | cons c s =>
    rw [escaped, List.flatMap_cons]
    split
    · simp
    · next other => simpa using other

/-- A character that is no quote belongs to the run, unless it is the backslash of a quote. -/
theorem closedRun_cons {c : Char} (other : c ≠ '\'') (plain : c = '\\' → rest.head? ≠ some '\'') :
    closedRun (c :: rest) = (closedRun rest).map fun (s, rest) => (c :: s, rest) := by
  rw [closedRun.eq_3, if_neg other]
  rintro r rfl rfl
  exact plain rfl rfl

/-- The run ends at the closing quote, and its backslashes before quotes are taken away again. -/
theorem closedRun_escaped (ending : s.getLast? ≠ some '\\') (rest : List Char) :
    closedRun (escaped s ++ '\'' :: rest) = some (s, rest) := by
  induction s with
  | nil => rw [escaped, List.flatMap_nil, List.nil_append, closedRun.eq_3 _ _ (by simp), if_pos rfl]
  | cons c s ih =>
    have later : s.getLast? ≠ some '\\' := by
      cases s with
      | nil => simp
      | cons d s => rwa [List.getLast?_cons_cons] at ending
    have run := ih later
    by_cases quote : c = '\''
    · have front : escaped (c :: s) = '\\' :: '\'' :: escaped s := by
        rw [escaped, List.flatMap_cons, if_pos quote]
        rfl
      rw [front, List.cons_append, List.cons_append, closedRun, run, quote]
      rfl
    · have front : escaped (c :: s) = c :: escaped s := by
        rw [escaped, List.flatMap_cons, if_neg quote]
        rfl
      rw [front, List.cons_append, closedRun_cons quote, run]
      · rfl
      · -- a backslash is not the last character, and what follows it does not begin with a quote
        rintro rfl
        refine head?_escaped (fun last => ending ?_) _
        rw [last]
        rfl

theorem quotedRun_escaped (filled : s ≠ []) (ending : s.getLast? ≠ some '\\') (rest : List Char) :
    quotedRun (escaped s ++ '\'' :: rest) = some (s, rest) := by
  have run := closedRun_escaped ending rest
  have start := head?_escaped filled ('\'' :: rest)
  rw [quotedRun.eq_2 _ fun r whole => start (by rw [whole]; rfl), run]
  rfl

/-- No declared symbol begins with a character that has a meaning of its own outside quotes. -/
def Clear (spelling : Spelling) : Prop :=
  ∀ s ∈ spelling.declared, s.head? ≠ some '\\' ∧ s.head? ≠ some ' '

theorem clear_ofDeclared {symbols : List Symbol}
    (h : ∀ s ∈ symbols, s.toList.head? ≠ some '\\' ∧ s.toList.head? ≠ some ' ') :
    (ofDeclared symbols).Clear := by
  intro s mem
  have clear := h _ (mem_declared.mp mem).1
  rwa [String.toList_ofList] at clear

/-- No declared symbol fits where another character stands than it begins with. -/
theorem find?_eq_none {c : Char} (long : ∀ s ∈ spelling.declared, s ≠ [])
    (other : ∀ s ∈ spelling.declared, s.head? ≠ some c) (rest : List Char) :
    spelling.declared.find? (·.isPrefixOf (c :: rest)) = none := by
  refine List.find?_eq_none.mpr fun s mem ahead => other s mem ?_
  have fits := List.isPrefixOf_iff_prefix.mp ahead
  cases s with
  | nil => exact absurd rfl (long _ mem)
  | cons d s => rw [(List.cons_prefix_cons.mp fits).1]; rfl

/-- An item is read as its symbol, and what follows it is read on its own. -/
theorem cut_item (sorted : spelling.Sorted) (clear : spelling.Clear) (item : Item)
    (rest : List Char) : spelling.cut (item.text ++ rest) = item.symbol :: spelling.cut rest := by
  have long : ∀ s ∈ spelling.declared, s ≠ [] := fun s mem =>
    List.ne_nil_of_length_pos (Nat.lt_trans Nat.zero_lt_one (sorted.long s mem))
  cases item with
  | character c =>
    have missing := find?_eq_none long (fun s mem => (clear s mem).1) (c :: rest)
    have next : spelling.next '\\' (c :: rest) = ([c], rest) := by
      rw [next.eq_def, if_neg (by decide), missing]
      rfl
    rw [Item.text, List.cons_append, List.cons_append, List.nil_append, cut, next]
    rfl
  | filler =>
    have missing := find?_eq_none long (fun s mem => (clear s mem).2) rest
    have next : spelling.next ' ' rest = ([], rest) := by
      rw [next.eq_def, if_neg (by decide), missing]
      rfl
    rw [Item.text, List.cons_append, List.nil_append, cut, next]
    rfl
  | quoted s quotable =>
    have run := quotedRun_escaped (mt String.toList_eq_nil_iff.mp quotable.filled) quotable.ending
      rest
    have next : spelling.next '\'' (escaped s.toList ++ '\'' :: rest) = (s.toList, rest) := by
      rw [next.eq_def, if_pos rfl, run]
    rw [Item.text, List.cons_append, List.append_assoc, List.cons_append, List.nil_append, cut,
      next, String.ofList_toList]
    rfl

theorem cut_items (sorted : spelling.Sorted) (clear : spelling.Clear) (items : List Item) :
    spelling.cut (items.flatMap Item.text) = items.map Item.symbol := by
  induction items with
  | nil => rw [List.flatMap_nil, cut, List.map_nil]
  | cons item items ih => rw [List.flatMap_cons, cut_item sorted clear, ih, List.map_cons]

theorem Item.text_ne_nil (item : Item) : item.text ≠ [] := by
  cases item <;> exact List.cons_ne_nil _ _

/-- Every sequence of items is read as the symbols that they stand for, if no declared symbol begins
with a backslash or a space. -/
theorem tokenize_items (items : List Item) (ne : items ≠ []) (symbols : List Symbol)
    (clear : ∀ s ∈ symbols, s.toList.head? ≠ some '\\' ∧ s.toList.head? ≠ some ' ') :
    (ofDeclared symbols).tokenize (String.ofList (items.flatMap Item.text)) =
      items.map Item.symbol := by
  have filled : String.ofList (items.flatMap Item.text) ≠ "" := by
    obtain ⟨item, rest, rfl⟩ := List.exists_cons_of_ne_nil ne
    intro empty
    have none := String.ofList_eq_empty_iff.mp empty
    exact item.text_ne_nil (List.append_eq_nil_iff.mp none).1
  rw [tokenize, if_neg filled, String.toList_ofList]
  exact cut_items (sorted_ofDeclared symbols) (clear_ofDeclared clear) items

/-- Quotes and backslashes inside and next to a quoted symbol, and a declared symbol that begins
with a quote. -/
theorem tokenize_items_quotes :
    let items : List Item := [.character '\'', .quoted "\\''a" ⟨by decide, by decide⟩, .filler,
      .quoted "+N" ⟨by decide, by decide⟩, .character '\\']
    let symbols : List Symbol := ["'a", "+N"]
    items ≠ [] ∧ (∀ s ∈ symbols, s.toList.head? ≠ some '\\' ∧ s.toList.head? ≠ some ' ') ∧
      String.ofList (items.flatMap Item.text) = "\\''\\\\'\\'a' '+N'\\\\" ∧
      (ofDeclared symbols).tokenize "\\''\\\\'\\'a' '+N'\\\\" = ["'", "\\''a", "", "+N", "\\"] := by
  intro items symbols
  have ne : items ≠ [] := List.cons_ne_nil _ _
  have clear : ∀ s ∈ symbols, s.toList.head? ≠ some '\\' ∧ s.toList.head? ≠ some ' ' := by decide
  exact ⟨ne, clear, rfl, tokenize_items items ne symbols clear⟩

end Transducer.Spelling
