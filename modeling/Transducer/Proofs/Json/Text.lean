import Transducer.Json.Reader
import Transducer.Proofs.Json.Lexemes
/-!
The text of a JSON value is read back as the value. The lexemes of a value, taken one by one, leave
the value where it belongs: with the items or fields of the innermost open bracket.
-/

namespace Transducer.Json

open Reading

variable {j : Json} {items : List Json} {fields : List (JsonString × Json)}

/-- A value is read from its lexemes, whatever brackets are open. -/
def Reads (j : Json) : Prop :=
  ∀ frames, j.lexemes.foldlM step ⟨frames, .value⟩ = place j frames

/-- A first item is read like any other. -/
theorem step_first {l : Lexeme} {done : List Json} {frames : List Frame} (other : l ≠ .endArray) :
    step ⟨.array done :: frames, .first⟩ l = step ⟨.array done :: frames, .value⟩ l := by
  cases l with
  | endArray => exact absurd rfl other
  | _ => rfl

theorem exists_itemLexemes_cons (j : Json) (items : List Json) :
    ∃ l ls, itemLexemes (j :: items) = l :: ls ∧ l ≠ .endArray := by
  have first : ∃ l ls, j.lexemes = l :: ls ∧ l ≠ .endArray := by
    cases j <;> exact ⟨_, _, rfl, Lexeme.noConfusion⟩
  obtain ⟨l, ls, whole, other⟩ := first
  cases items with
  | nil => exact ⟨l, ls, whole, other⟩
  | cons k items =>
    refine ⟨l, ls ++ .comma :: itemLexemes (k :: items), ?_, other⟩
    rw [itemLexemes, whole]
    · rfl
    · exact List.cons_ne_nil k items

theorem foldlM_items (frames : List Frame) (reads : ∀ j ∈ items, j.Reads) (filled : items ≠ [])
    (done : List Json) :
    (itemLexemes items).foldlM step ⟨.array done :: frames, .value⟩ =
      some ⟨.array (items.reverse ++ done) :: frames, .separator⟩ := by
  induction items generalizing done with
  | nil => exact absurd rfl filled
  | cons j more ih =>
    obtain ⟨first, others⟩ := List.forall_mem_cons.mp reads
    cases more with
    | nil => exact first _
    | cons k more =>
      have rest := ih others (List.cons_ne_nil k more) (j :: done)
      rw [itemLexemes, List.foldlM_append, first]
      · simpa [place, List.foldlM_cons, step] using rest
      · exact List.cons_ne_nil k more

theorem foldlM_field (frames : List Frame) (known : List (JsonString × Json)) (name : JsonString)
    (reads : j.Reads) {expected : Expected} (ready : expected = .first ∨ expected = .name) :
    (.value (.string name) :: .colon :: j.lexemes).foldlM step ⟨.object known :: frames, expected⟩ =
      some ⟨.object ((name, j) :: known) :: frames, .separator⟩ := by
  have placed := reads (.field known name :: frames)
  rcases ready with rfl | rfl
  · exact placed
  · exact placed

theorem foldlM_fields (frames : List Frame) (reads : ∀ f ∈ fields, f.2.Reads) (filled : fields ≠ [])
    (known : List (JsonString × Json)) {expected : Expected}
    (ready : expected = .first ∨ expected = .name) :
    (fieldLexemes fields).foldlM step ⟨.object known :: frames, expected⟩ =
      some ⟨.object (fields.reverse ++ known) :: frames, .separator⟩ := by
  induction fields generalizing known expected with
  | nil => exact absurd rfl filled
  | cons f more ih =>
    obtain ⟨name, value⟩ := f
    obtain ⟨first, others⟩ := List.forall_mem_cons.mp reads
    have field := foldlM_field frames known name first ready
    cases more with
    | nil => exact field
    | cons g more =>
      have rest := ih others (List.cons_ne_nil g more) ((name, value) :: known) (.inr rfl)
      rw [fieldLexemes, List.foldlM_append, field]
      · simpa [List.foldlM_cons, step] using rest
      · exact List.cons_ne_nil g more

theorem Legal.reads (h : j.Legal) : j.Reads := by
  induction h with
  | null =>
    intro frames
    simp [lexemes, step, takeValue]
  | bool value =>
    intro frames
    simp [lexemes, step, takeValue]
  | number _ =>
    intro frames
    simp [lexemes, step, takeValue]
  | string _ =>
    intro frames
    simp [lexemes, step, takeValue]
  | @array items _ reads =>
    intro frames
    cases items with
    | nil => simp [lexemes, itemLexemes, step, takeValue]
    | cons j items =>
      obtain ⟨l, ls, whole, other⟩ := exists_itemLexemes_cons j items
      have inside := foldlM_items frames reads (List.cons_ne_nil j items) []
      have first : (itemLexemes (j :: items)).foldlM step ⟨.array [] :: frames, .first⟩ =
          (itemLexemes (j :: items)).foldlM step ⟨.array [] :: frames, .value⟩ := by
        rw [whole, List.foldlM_cons, List.foldlM_cons, step_first other]
      rw [lexemes, List.cons_append, List.foldlM_cons]
      simp only [step, takeValue, Option.bind_eq_bind, Option.bind_some]
      rw [List.foldlM_append, first, inside]
      simp [step]
  | @object fields _ _ reads =>
    intro frames
    cases fields with
    | nil => simp [lexemes, fieldLexemes, step, takeValue]
    | cons f fields =>
      have inside := foldlM_fields frames reads (List.cons_ne_nil f fields) [] (.inl rfl)
      rw [lexemes, List.cons_append, List.foldlM_cons]
      simp only [step, takeValue, Option.bind_eq_bind, Option.bind_some]
      rw [List.foldlM_append, inside]
      simp [step]

/-- What is written is read back. -/
theorem Legal.ofText?_text (h : j.Legal) : ofText? j.text = some j := by
  have lexemes := h.ofChars_chars
  have read := h.reads []
  rw [ofText?, text, String.toList_ofList, lexemes]
  simp only [Option.bind_eq_bind, Option.bind_some, start, read, place, result?]

end Transducer.Json
