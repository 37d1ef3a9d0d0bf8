import Mathlib.Tactic.ByContra
import Transducer.Grammar.Compile
import Transducer.Weight.Arithmetic
/-!
Derivations of a grammar, with the labels and the cost that they spell, and the names that a checked
grammar declares.
-/

namespace Transducer

namespace Label

theorem zipWith_fill_left (outputs : List Symbol) :
    List.zipWith between (List.replicate outputs.length epsilon) outputs =
      outputs.map (between epsilon) := by
  induction outputs with
  | nil => rfl
  | cons o outputs ih => simp [List.replicate_succ, ih]

theorem zipWith_fill_right (inputs : List Symbol) :
    List.zipWith between inputs (List.replicate inputs.length epsilon) =
      inputs.map (between · epsilon) := by
  induction inputs with
  | nil => rfl
  | cons i inputs ih => simp [List.replicate_succ, ih]

theorem align_eq (inputs outputs : List Symbol) : align inputs outputs =
    List.zipWith between (inputs.rightpad outputs.length epsilon)
      (outputs.rightpad inputs.length epsilon) := by
  induction inputs generalizing outputs with
  | nil =>
    rw [align, ← zipWith_fill_left]
    simp [List.rightpad]
  | cons i inputs ih =>
    cases outputs with
    | nil =>
      have only : align (i :: inputs) [] = (i :: inputs).map (between · epsilon) := rfl
      rw [only, ← zipWith_fill_right]
      simp [List.rightpad]
    | cons o outputs =>
      rw [align, ih]
      simp [List.rightpad]

end Label

namespace Rule

/-- The labels that a rule spells: its sides by position, the shorter one filled up with epsilon. -/
def labels (spelling : Spelling) (r : Rule) : List Label :=
  let (inputs, outputs) := r.sides spelling
  List.zipWith Label.between (inputs.rightpad outputs.length epsilon)
    (outputs.rightpad inputs.length epsilon)

/-- Zero, and the weights of rules added to it from left to right. -/
def cost (rules : List Rule) : Weight := rules.foldl (fun cost r => cost + r.weight) .zero

theorem tokenize_ne_nil (spelling : Spelling) (side : String) : spelling.tokenize side ≠ [] := by
  rw [Spelling.tokenize]
  split
  · simp
  · next some =>
    cases h : side.toList with
    | nil => exact absurd (String.toList_eq_nil_iff.mp h) some
    | cons c rest =>
      rw [Spelling.cut]
      exact List.cons_ne_nil _ _

theorem align_sides (spelling : Spelling) (r : Rule) :
    Label.align (r.sides spelling).1 (r.sides spelling).2 = r.labels spelling :=
  Label.align_eq ..

theorem labels_ne_nil (spelling : Spelling) (r : Rule) : r.labels spelling ≠ [] := by
  have some : (r.sides spelling).1 ≠ [] := tokenize_ne_nil spelling r.input
  rw [← align_sides]
  cases hi : (r.sides spelling).1 with
  | nil => exact absurd hi some
  | cons i inputs =>
    cases (r.sides spelling).2 with
    | nil => exact List.cons_ne_nil _ _
    | cons o outputs => exact List.cons_ne_nil _ _

end Rule

namespace Grammar

variable {g : Grammar} {name start : String} {r : Rule}

/-- The rule stands in a set of this name. -/
def Lists (g : Grammar) (name : String) (r : Rule) : Prop :=
  ∃ rules, (name, rules) ∈ g.lexicons ∧ r ∈ rules

/-- From a set each rule goes on with its target, until the final set is reached. -/
inductive Derives (g : Grammar) : String → List Rule → Prop
  | done : Derives g finalLexicon []
  | rule {name : String} {r : Rule} {rest : List Rule} : name ≠ finalLexicon → g.Lists name r →
      Derives g r.target rest → Derives g name (r :: rest)

/-- The rules that are compiled, each with the name of its set. -/
def usedRules (g : Grammar) : List (String × Rule) :=
  g.usedLexicons.flatMap fun (name, rules) => rules.map (name, ·)

theorem mem_usedRules : (name, r) ∈ g.usedRules ↔ name ≠ finalLexicon ∧ g.Lists name r := by
  rw [usedRules, List.mem_flatMap]
  constructor
  · intro ⟨⟨other, rules⟩, used, mem⟩
    obtain ⟨r', hr, same⟩ := List.mem_map.mp mem
    obtain ⟨rfl, rfl⟩ := Prod.mk.inj same
    obtain ⟨there, ne⟩ := List.mem_filter.mp used
    exact ⟨of_decide_eq_true ne, rules, there, hr⟩
  · intro ⟨ne, rules, there, hr⟩
    exact ⟨(name, rules), List.mem_filter.mpr ⟨there, decide_eq_true ne⟩, List.mem_map_of_mem hr⟩

theorem mem_stateNames : name ∈ g.stateNames start ↔
    name = start ∨ name ∈ g.names ∨ name = finalLexicon := by
  simp [stateNames, List.mem_eraseDups]

theorem final_mem_stateNames (g : Grammar) (start : String) :
    finalLexicon ∈ g.stateNames start := mem_stateNames.mpr (.inr (.inr rfl))

theorem idxOf_start (g : Grammar) (start : String) : (g.stateNames start).idxOf start = 0 := by
  rw [stateNames, List.eraseDups_cons, List.idxOf_cons_self]

theorem Lists.mem_stateNames (h : g.Lists name r) (start : String) : name ∈ g.stateNames start := by
  obtain ⟨rules, there, -⟩ := h
  exact Grammar.mem_stateNames.mpr (.inr (.inl (List.mem_map_of_mem there)))

theorem mem_of_declares (h : g.declares name = true) (start : String) :
    name ∈ g.stateNames start := by
  rw [declares, Bool.or_eq_true, decide_eq_true_eq] at h
  rcases h with final | there
  · exact mem_stateNames.mpr (.inr (.inr final))
  · obtain ⟨⟨other, rules⟩, mem, same⟩ := List.lookup_isSome_iff.mp there
    rw [beq_iff_eq] at same
    exact mem_stateNames.mpr (.inr (.inl (List.mem_map.mpr ⟨_, mem, same.symm⟩)))

theorem declares_of_undeclaredIn? {lexicon : String × List Rule}
    (h : g.undeclaredIn? lexicon = none) (hr : r ∈ lexicon.2) : g.declares r.target = true := by
  rw [undeclaredIn?, List.findSome?_eq_none_iff] at h
  obtain ⟨index, lt, same⟩ := List.getElem_of_mem hr
  have numbered : (r, index) ∈ lexicon.2.zipIdx := by
    rw [List.mem_zipIdx_iff_getElem?, List.getElem?_eq_getElem lt, same]
  by_contra undeclared
  have found := h _ numbered
  simp [undeclared] at found

theorem check_eq_ok_iff : g.check start = .ok () ↔
    g.declares start = true ∧ g.usedLexicons.findSome? g.undeclaredIn? = none := by
  rw [check]
  cases g.declares start with
  | false => simp
  | true => cases g.usedLexicons.findSome? g.undeclaredIn? <;> simp

/-- The rules that are compiled go on with declared sets. -/
theorem declares_target (h : g.check start = .ok ()) (used : (name, r) ∈ g.usedRules) :
    g.declares r.target = true := by
  obtain ⟨⟨other, rules⟩, there, mem⟩ := List.mem_flatMap.mp used
  obtain ⟨r', hr, same⟩ := List.mem_map.mp mem
  obtain ⟨rfl, rfl⟩ := Prod.mk.inj same
  exact declares_of_undeclaredIn? (List.findSome?_eq_none_iff.mp (check_eq_ok_iff.mp h).2 _ there) hr

end Grammar

end Transducer
