import Mathlib.Tactic.Tauto
import Transducer.Ordered
/-!
Laws of sets and tables in key order. Changing the entry of a key leaves all before it and behind it
where they are, whether the key was there or not.
-/

namespace Transducer.Ordered

variable {κ ν : Type} [Ord κ] {key k : κ} {keys : List κ} {change : Option ν → ν}
  {table : List (κ × ν)} {entry : κ × ν}

/-- Every key is smaller than those behind it. -/
def Increasing (keys : List κ) : Prop := keys.Pairwise fun k l => compare k l = .lt

/-- Entries of smaller keys are passed over. -/
theorem alter_append {front : List (κ × ν)} (smaller : ∀ e ∈ front, compare key e.1 = .gt)
    (back : List (κ × ν)) :
    alter key change (front ++ back) = front ++ alter key change back := by
  induction front with
  | nil => rfl
  | cons e rest ih =>
    obtain ⟨first, others⟩ := List.forall_mem_cons.mp smaller
    rw [List.cons_append, alter, first, List.cons_append, ih others]

section Map

variable {μ α β : Type} {f : ν → μ}

theorem alter_map {change' : Option μ → μ}
    (same : ∀ found, change' (found.map f) = f (change found)) (key : κ) (table : List (κ × ν)) :
    alter key change' (table.map (Prod.map id f)) =
      (alter key change table).map (Prod.map id f) := by
  induction table with
  | nil => exact congrArg (fun v => [(key, v)]) (same none)
  | cons e rest ih =>
    obtain ⟨k, v⟩ := e
    have first : change' none = f (change none) := same none
    have old : change' (some (f v)) = f (change (some v)) := same (some v)
    simp only [List.map_cons, Prod.map_apply, id_eq, alter]
    cases compare key k with
    | lt => simp [first]
    | eq => simp [old]
    | gt => simp [ih]

/-- Items are gathered by a key that a function on them leaves as it is. -/
theorem group_map {g : α → β} {key : α → κ} {key' : β → κ} (same : ∀ a, key' (g a) = key a)
    (items : List α) :
    group key' (items.map g) = (group key items).map (Prod.map id (List.map g)) := by
  have fold (table : List (κ × List α)) :
      (items.map g).foldl (fun table b => alter (key' b) (fun found => found.getD [] ++ [b]) table)
          (table.map (Prod.map id (List.map g))) =
        (items.foldl (fun table a => alter (key a) (fun found => found.getD [] ++ [a]) table)
          table).map (Prod.map id (List.map g)) := by
    induction items generalizing table with
    | nil => rfl
    | cons a rest ih =>
      have joined (found : Option (List α)) :
          (found.map (List.map g)).getD [] ++ [g a] = (found.getD [] ++ [a]).map g := by
        cases found <;> simp
      rw [List.map_cons, List.foldl_cons, List.foldl_cons, same, alter_map joined]
      exact ih _
  exact fold []

end Map

section Eq

variable [Std.LawfulEqOrd κ]

/-- Two changes of one entry are one change. -/
theorem alter_alter (key : κ) (first second : Option ν → ν) (table : List (κ × ν)) :
    alter key second (alter key first table) =
      alter key (fun found => second (some (first found))) table := by
  induction table with
  | nil => simp [alter, Std.ReflCmp.compare_self]
  | cons e rest ih =>
    obtain ⟨k, v⟩ := e
    rw [alter]
    cases h : compare key k with
    | lt => simp [alter, h, Std.ReflCmp.compare_self]
    | eq => simp [alter, h]
    | gt => simp [alter, h, ih]

/-- Items that are appended one by one under a key can be appended at once. -/
theorem foldl_alter_append {α : Type} {items : List α} (some : items ≠ []) (key : κ)
    (table : List (κ × List α)) :
    items.foldl (fun table a => alter key (fun found => found.getD [] ++ [a]) table) table =
      alter key (fun found => found.getD [] ++ items) table := by
  induction items generalizing table with
  | nil => exact absurd rfl some
  | cons a rest ih =>
    cases rest with
    | nil => rfl
    | cons next rest =>
      rw [List.foldl_cons, ih (List.cons_ne_nil next rest), alter_alter]
      simp

theorem ne_of_compare {k l : κ} (h : compare k l ≠ .eq) : k ≠ l :=
  fun same => h (Std.LawfulEqCmp.compare_eq_iff_eq.mpr same)

theorem Increasing.nodup (h : Increasing keys) : keys.Nodup :=
  h.imp fun less => ne_of_compare (by rw [less]; decide)

/-- Under distinct keys a lookup finds each entry. -/
theorem Increasing.lookup_eq_some_iff [BEq κ] [LawfulBEq κ] {v : ν}
    (h : Increasing (table.map Prod.fst)) : table.lookup key = some v ↔ (key, v) ∈ table := by
  have nodup := h.nodup
  clear h
  induction table with
  | nil => simp
  | cons e rest ih =>
    obtain ⟨k, w⟩ := e
    obtain ⟨new, nodup⟩ := List.nodup_cons.mp nodup
    rw [List.lookup_cons]
    by_cases here : key = k
    · subst here
      have only : (key, v) ∉ rest := fun mem => new (List.mem_map.mpr ⟨_, mem, rfl⟩)
      simp [only, eq_comm]
    · have apart : (key == k) = false := beq_eq_false_iff_ne.mpr here
      simp [apart, here, ih nodup]

theorem mem_insert : k ∈ insert key keys ↔ k = key ∨ k ∈ keys := by
  induction keys with
  | nil => simp [insert]
  | cons l rest ih =>
    rw [insert]
    cases h : compare key l with
    | lt => simp
    | eq =>
      have same : key = l := Std.LawfulEqOrd.eq_of_compare h
      simp [same]
    | gt =>
      simp only [List.mem_cons, ih]
      tauto

/-- Where the changed entry stands: in the place of the old one, or between smaller keys and larger
ones. -/
theorem alter_split (key : κ) (change : Option ν → ν) (table : List (κ × ν)) :
    ∃ front back, (∀ e ∈ front, compare key e.1 = .gt) ∧
      ((∃ v, table = front ++ (key, v) :: back ∧
          alter key change table = front ++ (key, change (some v)) :: back) ∨
        (∀ e ∈ back.head?, compare key e.1 = .lt) ∧ table = front ++ back ∧
          alter key change table = front ++ (key, change none) :: back) := by
  induction table with
  | nil => exact ⟨[], [], by simp, .inr ⟨by simp, rfl, rfl⟩⟩
  | cons e rest ih =>
    obtain ⟨l, v⟩ := e
    cases h : compare key l with
    | lt => exact ⟨[], (l, v) :: rest, by simp, .inr ⟨by simpa using h, rfl, by simp [alter, h]⟩⟩
    | eq =>
      obtain rfl : key = l := Std.LawfulEqOrd.eq_of_compare h
      exact ⟨[], rest, by simp, .inl ⟨v, rfl, by simp [alter]⟩⟩
    | gt =>
      obtain ⟨front, back, larger, found⟩ := ih
      refine ⟨(l, v) :: front, back, by simpa [h] using larger, ?_⟩
      rcases found with ⟨w, old, new⟩ | ⟨smaller, old, new⟩
      · exact .inl ⟨w, by rw [old]; rfl, by simp [alter, h, new]⟩
      · exact .inr ⟨smaller, by rw [old]; rfl, by simp [alter, h, new]⟩

/-- A key that was not there is one entry more. -/
theorem perm_alter_of_new (new : key ∉ table.map Prod.fst) :
    (alter key change table).Perm ((key, change none) :: table) := by
  obtain ⟨front, back, -, ⟨v, old, -⟩ | ⟨-, old, added⟩⟩ := alter_split key change table
  · rw [old] at new
    exact absurd (by simp) new
  · rw [added, old]
    exact List.perm_middle

/-- What is appended under a key is one item more under all of them. -/
theorem perm_flatMap_alter {α : Type} (key : κ) (a : α) (table : List (κ × List α)) :
    ((alter key (fun found => found.getD [] ++ [a]) table).flatMap Prod.snd).Perm
      (a :: table.flatMap Prod.snd) := by
  obtain ⟨front, back, -, ⟨old, before, after⟩ | ⟨-, before, after⟩⟩ :=
    alter_split key (fun found => found.getD [] ++ [a]) table
  · rw [after, before]
    simp only [List.flatMap_append, List.flatMap_cons, Option.getD_some, List.append_assoc,
      List.singleton_append]
    rw [← List.append_assoc, ← List.append_assoc]
    exact List.perm_middle
  · rw [after, before]
    simp only [List.flatMap_append, List.flatMap_cons, Option.getD_none, List.nil_append,
      List.singleton_append]
    exact List.perm_middle

theorem mem_alter_cases (h : entry ∈ alter key change table) : entry ∈ table ∨
    entry = (key, change none) ∨ ∃ v, (key, v) ∈ table ∧ entry = (key, change (some v)) := by
  obtain ⟨front, back, -, found⟩ := alter_split key change table
  rcases found with ⟨v, old, new⟩ | ⟨-, old, new⟩
  · rw [new, List.mem_append, List.mem_cons] at h
    rw [old]
    rcases h with front | here | back
    · exact .inl (by simp [front])
    · exact .inr (.inr ⟨v, by simp, here⟩)
    · exact .inl (by simp [back])
  · rw [new, List.mem_append, List.mem_cons] at h
    rw [old]
    rcases h with front | here | back
    · exact .inl (by simp [front])
    · exact .inr (.inl here)
    · exact .inl (by simp [back])

end Eq

section Order

variable [Std.TransOrd κ] [Std.LawfulEqOrd κ]

theorem Increasing.ext {more : List κ} (h : Increasing keys) (hm : Increasing more)
    (same : ∀ k, k ∈ keys ↔ k ∈ more) : keys = more := by
  refine List.Perm.eq_of_pairwise (fun k l _ _ less greater => ?_) h hm
    ((List.perm_ext_iff_of_nodup h.nodup hm.nodup).mpr same)
  have greater : compare l k = .lt := greater
  rw [Std.OrientedCmp.gt_of_lt less] at greater
  exact absurd greater (by decide)

theorem increasing_insert (h : Increasing keys) : Increasing (insert key keys) := by
  induction keys with
  | nil => exact List.pairwise_singleton ..
  | cons l rest ih =>
    obtain ⟨least, others⟩ := List.pairwise_cons.mp h
    rw [insert]
    cases hc : compare key l with
    | lt =>
      refine List.pairwise_cons.mpr ⟨fun k hk => ?_, h⟩
      rcases List.mem_cons.mp hk with here | later
      · exact here ▸ hc
      · exact Std.TransCmp.lt_trans hc (least k later)
    | eq => exact h
    | gt =>
      refine List.pairwise_cons.mpr ⟨fun k hk => ?_, ih others⟩
      rcases mem_insert.mp hk with here | later
      · rw [here]
        exact Std.OrientedCmp.lt_of_gt hc
      · exact least k later

theorem increasing_alter (h : Increasing (table.map Prod.fst)) :
    Increasing ((alter key change table).map Prod.fst) := by
  obtain ⟨front, back, larger, found⟩ := alter_split key change table
  rcases found with ⟨v, old, new⟩ | ⟨smaller, old, new⟩
  · rw [old] at h
    rw [new]
    simpa [Increasing] using h
  · rw [old, List.map_append] at h
    rw [new, List.map_append, List.map_cons]
    obtain ⟨first, second, apart⟩ := List.pairwise_append.mp h
    have behind : ∀ k ∈ back.map Prod.fst, compare key k = .lt := by
      cases back with
      | nil => simp
      | cons e rest =>
        have next : compare key e.1 = .lt := smaller e rfl
        intro k hk
        rcases List.mem_cons.mp hk with here | later
        · exact here ▸ next
        · exact Std.TransCmp.lt_trans next ((List.pairwise_cons.mp second).1 k later)
    refine List.pairwise_append.mpr ⟨first, List.pairwise_cons.mpr ⟨behind, second⟩, ?_⟩
    intro k hk l hl
    rcases List.mem_cons.mp hl with here | later
    · obtain ⟨e, he, rfl⟩ := List.mem_map.mp hk
      rw [here]
      exact Std.OrientedCmp.lt_of_gt (larger e he)
    · exact apart k hk l later

theorem Increasing.lookup_alter [BEq κ] [LawfulBEq κ] (h : Increasing (table.map Prod.fst))
    (key : κ) (change : Option ν → ν) (k : κ) : (alter key change table).lookup k =
      if k == key then some (change (table.lookup key)) else table.lookup k := by
  induction table with
  | nil =>
    rw [alter, List.lookup_cons]
    cases k == key <;> rfl
  | cons e rest ih =>
    obtain ⟨l, v⟩ := e
    obtain ⟨least, others⟩ := List.pairwise_cons.mp h
    rw [alter]
    cases hc : compare key l with
    | lt =>
      have missing : ((l, v) :: rest).lookup key = none := by
        refine List.lookup_eq_none_iff.mpr fun e mem => bne_iff_ne.mpr ?_
        have less : compare key e.1 = .lt := by
          rcases List.mem_cons.mp mem with rfl | later
          · exact hc
          · exact Std.TransCmp.lt_trans hc (least e.1 (List.mem_map_of_mem later))
        exact ne_of_compare (by rw [less]; decide)
      rw [missing, List.lookup_cons]
      cases k == key <;> rfl
    | eq =>
      obtain rfl : key = l := Std.LawfulEqOrd.eq_of_compare hc
      simp only [List.lookup_cons]
      cases k == key <;> simp
    | gt =>
      have apart : (key == l) = false :=
        beq_eq_false_iff_ne.mpr (ne_of_compare (by rw [hc]; decide))
      simp only [List.lookup_cons, ih others]
      by_cases here : k = key
      · subst here
        simp [apart]
      · have other : (k == key) = false := beq_eq_false_iff_ne.mpr here
        simp [other]

section Group

variable {α : Type} (keyOf : α → κ)

omit [Std.TransOrd κ] in
/-- Gathering keeps every item. -/
theorem perm_flatMap_group (items : List α) :
    ((group keyOf items).flatMap Prod.snd).Perm items := by
  have fold (table : List (κ × List α)) :
      ((items.foldl (fun table a =>
          alter (keyOf a) (fun found => found.getD [] ++ [a]) table) table).flatMap Prod.snd).Perm
        (table.flatMap Prod.snd ++ items) := by
    induction items generalizing table with
    | nil => rw [List.append_nil]; exact .refl _
    | cons a rest ih =>
      refine (ih _).trans ?_
      refine ((perm_flatMap_alter (keyOf a) a table).append_right rest).trans ?_
      exact List.perm_middle.symm
  exact fold []

theorem increasing_group (items : List α) : Increasing ((group keyOf items).map Prod.fst) := by
  have fold (table : List (κ × List α)) (h : Increasing (table.map Prod.fst)) :
      Increasing ((items.foldl (fun table a =>
        alter (keyOf a) (fun found => found.getD [] ++ [a]) table) table).map Prod.fst) := by
    induction items generalizing table with
    | nil => exact h
    | cons a rest ih => exact ih _ (increasing_alter h)
  exact fold [] .nil

/-- A key has its items, in their order, unless there are none. -/
theorem lookup_group [BEq κ] [LawfulBEq κ] (items : List α) (k : κ) :
    (group keyOf items).lookup k =
      if items.filter (keyOf · == k) = [] then none else some (items.filter (keyOf · == k)) := by
  have fold (table : List (κ × List α)) (h : Increasing (table.map Prod.fst)) :
      (items.foldl (fun table a =>
          alter (keyOf a) (fun found => found.getD [] ++ [a]) table) table).lookup k =
        if items.filter (keyOf · == k) = [] then table.lookup k
        else some ((table.lookup k).getD [] ++ items.filter (keyOf · == k)) := by
    induction items generalizing table with
    | nil => rfl
    | cons a rest ih =>
      rw [List.foldl_cons, ih _ (increasing_alter h), h.lookup_alter]
      by_cases here : k = keyOf a
      · subst here
        simp
      · have other : (k == keyOf a) = false := beq_eq_false_iff_ne.mpr here
        have skipped : (a :: rest).filter (keyOf · == k) = rest.filter (keyOf · == k) :=
          List.filter_cons_of_neg (by simpa using Ne.symm here)
        rw [other, skipped, if_neg Bool.false_ne_true]
  exact fold [] .nil

theorem mem_group_iff [BEq κ] [LawfulBEq κ] {items found : List α} :
    (k, found) ∈ group keyOf items ↔ found ≠ [] ∧ found = items.filter (keyOf · == k) := by
  rw [← (increasing_group keyOf items).lookup_eq_some_iff, lookup_group]
  split
  · next none =>
    rw [none]
    simp
  · next some =>
    rw [Option.some_inj]
    constructor
    · rintro rfl
      exact ⟨some, rfl⟩
    · rintro ⟨-, all⟩
      exact all.symm

end Group

end Order

end Transducer.Ordered
