import Mathlib.Data.List.Nodup
import Transducer.Json.Field
import Transducer.Proofs.Json.Strings
/-!
Reading the parts of values that were written. A list is read item by item and a table entry by
entry; a record gives its fields back in the order in which they are known.
-/

namespace Transducer.Json

variable {α β : Type} {write : α → Json} {read : Json → Option β} {means : α → β}

@[simp] theorem text?_ofText (s : String) : (ofText s).text? = some s := JsonString.text?_ofText s

/-- If each item can be read, all of them can. -/
theorem mapM_map_eq_some {γ : Type} {write : α → γ} {read : γ → Option β} {items : List α}
    (each : ∀ a ∈ items, read (write a) = some (means a)) :
    (items.map write).mapM read = some (items.map means) := by
  induction items with
  | nil => rfl
  | cons a rest ih =>
    obtain ⟨first, others⟩ := List.forall_mem_cons.mp each
    rw [List.map_cons, List.mapM_cons, first, ih others]
    rfl

theorem list?_array {items : List α} (each : ∀ a ∈ items, read (write a) = some (means a)) :
    (array (items.map write)).list? read = some (items.map means) := mapM_map_eq_some each

/-- Items that are read back as they were. -/
theorem list?_array_same {items : List β} {write : β → Json}
    (each : ∀ b ∈ items, read (write b) = some b) :
    (array (items.map write)).list? read = some items := by
  have all : (array (items.map write)).list? read = some (items.map id) := list?_array each
  rwa [List.map_id] at all

theorem list?_ofTexts (texts : List String) : (ofTexts texts).list? text? = some texts :=
  list?_array_same fun s _ => text?_ofText s

theorem table?_ofFields {κ : Type} {entries : List α} {field : α → String × Json}
    {name? : JsonString → Option κ} {entry : α → κ × β}
    (names : ∀ a ∈ entries, name? (.ofText (field a).1) = some (entry a).1)
    (values : ∀ a ∈ entries, read (field a).2 = some (entry a).2) :
    (ofFields (entries.map field)).table? name? read = some (entries.map entry) := by
  rw [ofFields, table?, List.map_map]
  apply mapM_map_eq_some
  intro a mem
  simp [names a mem, values a mem]

/-- Entries that are read back as they were. -/
theorem table?_ofFields_same {κ : Type} {entries : List (κ × β)} (name : κ → String)
    {write : β → Json} {name? : JsonString → Option κ}
    (names : ∀ e ∈ entries, name? (.ofText (name e.1)) = some e.1)
    (values : ∀ e ∈ entries, read (write e.2) = some e.2) :
    (ofFields (entries.map fun (k, b) => (name k, write b))).table? name? read = some entries := by
  have all : (ofFields (entries.map fun (k, b) => (name k, write b))).table? name? read =
      some (entries.map id) := table?_ofFields names values
  rwa [List.map_id] at all

/-- The place of a field is where its name stands. -/
theorem assign?_known {front : List (String × Json)} (back : List (String × Json)) {name : String}
    (value : Json) (new : name ∉ front.map Prod.fst) :
    assign? (front.map Prod.fst ++ name :: back.map Prod.fst)
        (front.map (fun f => some f.2) ++ none :: back.map fun _ => none) name value =
      some (front.map (fun f => some f.2) ++ some value :: back.map fun _ => none) := by
  have place : (front.map Prod.fst ++ name :: back.map Prod.fst).findIdx? (· = name) =
      some front.length := by
    have before : (front.map Prod.fst).findIdx? (· = name) = none := by
      rw [List.findIdx?_eq_none_iff]
      intro known mem
      exact decide_eq_false fun same => new (same ▸ mem)
    simp [List.findIdx?_append, List.findIdx?_cons, before]
  rw [assign?, place]
  simp

theorem record?_ofFields (fields : List (String × Json))
    (distinct : (fields.map Prod.fst).Nodup) :
    (ofFields fields).record? (fields.map Prod.fst) = some (fields.map fun f => some f.2) := by
  have rest (front back : List (String × Json)) (whole : fields = front ++ back) :
      (back.map fun f => (JsonString.ofText f.1, f.2)).foldlM
          (fun found f => do assign? (fields.map Prod.fst) found (← f.1.text?) f.2)
          (front.map (fun f => some f.2) ++ back.map fun _ => none) =
        some (fields.map fun f => some f.2) := by
    induction back generalizing front with
    | nil => simp [whole]
    | cons f back ih =>
      have new : f.1 ∉ front.map Prod.fst := by
        rw [whole, List.map_append, List.map_cons] at distinct
        exact fun mem => (List.nodup_append.mp distinct).2.2 _ mem _ List.mem_cons_self rfl
      have names : fields.map Prod.fst = front.map Prod.fst ++ f.1 :: back.map Prod.fst := by
        rw [whole, List.map_append, List.map_cons]
      have placed := assign?_known back f.2 new
      rw [← names] at placed
      have later := ih (front ++ [f]) (by rw [whole, List.append_assoc]; rfl)
      rw [List.map_append, List.map_singleton, List.append_assoc, List.singleton_append] at later
      simp only [List.map_cons, List.foldlM_cons, JsonString.text?_ofText, Option.bind_eq_bind,
        Option.bind_some, placed]
      exact later
  have all := rest [] fields rfl
  simpa [record?, ofFields, Function.comp_def] using all

end Transducer.Json
