import Transducer.Proofs.ArcSet
import Transducer.Proofs.Json.Field
import Transducer.Proofs.Json.Text
import Transducer.Proofs.Weight.Json
/-!
Stored lexicons. A rule is told by its shape: a string or a list of two for its side, and one item
more if it has a weight. So a stored document is read back as it was, but that a weight of zero
loses its sign.
-/

namespace Transducer

open Ordered (Increasing)

namespace Rule

variable {r : Rule}

/-- Equal as a program compares rules: weights are compared as numbers. -/
structure Same (r s : Rule) : Prop where
  input : r.input = s.input
  output : r.output = s.output
  target : r.target = s.target
  weight : r.weight.numEq s.weight

/-- The rule as it is stored: a weight of zero loses its sign. -/
def stored (r : Rule) : Rule := { r with weight := r.weight.amount }

theorem side?_sideToJson (r : Rule) : side? r.sideToJson = some (r.input, r.output) := by
  rw [sideToJson]
  cases output : r.output with
  | none => simp [Json.ofText, side?]
  | some written => simp [Json.ofTexts, side?]

theorem ofJson?_toJson (h : Weight.ofJson? r.weight.toJson = some r.weight) :
    ofJson? r.toJson = some r.stored := by
  rw [toJson, stored, Weight.amount]
  cases zero : r.weight.isZero with
  | true => simp [ofJson?, side?_sideToJson]
  | false => simp [ofJson?, side?_sideToJson, h]

theorem legal_toJson (r : Rule) : r.toJson.Legal := by
  have side : r.sideToJson.Legal := by
    rw [sideToJson]
    split
    · exact Json.legal_ofText r.input
    · exact Json.legal_ofTexts _
  apply Json.Legal.array
  intro j mem
  rcases List.mem_append.mp mem with named | weighted
  · rcases List.mem_pair.mp named with rfl | rfl
    · exact side
    · exact Json.legal_ofText r.target
  · split at weighted
    · exact absurd weighted List.not_mem_nil
    · rw [List.mem_singleton.mp weighted]
      exact r.weight.legal_toJson

theorem same_stored (number : r.weight.isNaN = false) : r.stored.Same r := by
  have amount : r.weight.amount.amount = r.weight.amount := by
    unfold Weight.amount
    split <;> simp_all
  have stored : r.weight.amount.isNaN = false := by rw [Weight.isNaN_amount, number]
  exact ⟨rfl, rfl, rfl, (Weight.numEq_iff stored).mpr amount⟩

end Rule

namespace Grammar

variable {g : Grammar}

def weights (g : Grammar) : List Weight := g.lexicons.flatMap fun (_, rules) => rules.map Rule.weight

/-- The same sets with the same rules in the same order. -/
def Same (g h : Grammar) : Prop :=
  List.Forall₂ (fun (name, rules) (name', rules') => name = name' ∧ List.Forall₂ Rule.Same rules rules')
    g.lexicons h.lexicons

def stored (g : Grammar) : Grammar := ⟨g.lexicons.map (Prod.map id (List.map Rule.stored))⟩

/-- Sets that come in name order are put behind those that are there. -/
theorem foldl_put {front back : List (String × List Rule)}
    (order : Increasing ((front ++ back).map Prod.fst)) :
    back.foldl (fun g (name, rules) => g.put name rules) (⟨front⟩ : Grammar) = ⟨front ++ back⟩ := by
  induction back generalizing front with
  | nil => rw [List.append_nil]; rfl
  | cons e back ih =>
    obtain ⟨name, rules⟩ := e
    have smaller : ∀ e ∈ front, compare name e.1 = .gt := by
      intro e mem
      rw [List.map_append, List.map_cons] at order
      have less := (List.pairwise_append.mp order).2.2 e.1 (List.mem_map_of_mem mem) name
        List.mem_cons_self
      exact Std.OrientedCmp.gt_of_lt less
    have last : (⟨front⟩ : Grammar).put name rules = ⟨front ++ [(name, rules)]⟩ := by
      have behind : Ordered.put name rules (front ++ []) = front ++ [(name, rules)] :=
        Ordered.alter_append smaller []
      rw [List.append_nil] at behind
      rw [put, behind]
    rw [List.append_cons] at order ⊢
    rw [List.foldl_cons]
    dsimp only
    rw [last]
    exact ih order

theorem ofJson?_toJson (order : Increasing g.names)
    (read : ∀ w ∈ g.weights, Weight.ofJson? w.toJson = some w) :
    ofJson? g.toJson = some g.stored := by
  have table : g.toJson.table? JsonString.text? (Json.list? Rule.ofJson?) =
      some g.stored.lexicons := by
    apply Json.table?_ofFields
    · intro e _
      exact JsonString.text?_ofText e.1
    · intro e mem
      apply Json.list?_array
      intro r rule
      apply Rule.ofJson?_toJson
      exact read _ (List.mem_flatMap.mpr ⟨e, mem, List.mem_map_of_mem rule⟩)
  have names : Increasing (([] ++ g.stored.lexicons).map Prod.fst) := by
    rw [List.nil_append, stored, List.map_map]
    exact order
  rw [ofJson?, table]
  exact congrArg some (foldl_put names)

theorem legal_toJson (g : Grammar) : g.toJson.Legal := by
  apply Json.legal_ofFields
  intro f mem
  obtain ⟨⟨name, rules⟩, _, rfl⟩ := List.mem_map.mp mem
  apply Json.Legal.array
  intro j item
  obtain ⟨r, _, rfl⟩ := List.mem_map.mp item
  exact r.legal_toJson

theorem same_stored (numbers : ∀ w ∈ g.weights, w.isNaN = false) : g.stored.Same g := by
  rw [Same, stored, List.forall₂_map_left_iff, List.forall₂_same]
  intro e mem
  refine ⟨rfl, ?_⟩
  show List.Forall₂ Rule.Same (e.2.map Rule.stored) e.2
  rw [List.forall₂_map_left_iff, List.forall₂_same]
  intro r rule
  apply Rule.same_stored
  exact numbers _ (List.mem_flatMap.mpr ⟨e, mem, List.mem_map_of_mem rule⟩)

end Grammar

namespace Document

variable {d : Document}

/-- The same start, the same symbols and the same rules. -/
structure Same (d e : Document) : Prop where
  start : d.start = e.start
  multichar : d.multichar = e.multichar
  lexicons : d.lexicons.Same e.lexicons

def stored (d : Document) : Document := { d with lexicons := d.lexicons.stored }

theorem ofJson?_toJson (order : Increasing d.lexicons.names)
    (read : ∀ w ∈ d.lexicons.weights, Weight.ofJson? w.toJson = some w) :
    ofJson? d.toJson = some d.stored := by
  have fields : d.toJson.record? ["start", "multichar_symbols", "lexicons"] =
      some [some (.ofText d.start), some (.ofTexts d.multichar), some d.lexicons.toJson] :=
    Json.record?_ofFields [("start", _), ("multichar_symbols", _), ("lexicons", _)] (by simp)
  have lexicons := Grammar.ofJson?_toJson order read
  rw [ofJson?, fields]
  simp [Json.list?_ofTexts, lexicons, stored]

theorem legal_toJson (d : Document) : d.toJson.Legal := by
  apply Json.legal_ofFields
  intro f mem
  simp only [List.mem_cons, List.not_mem_nil, or_false] at mem
  rcases mem with rfl | rfl | rfl
  · exact Json.legal_ofText d.start
  · exact Json.legal_ofTexts d.multichar
  · exact d.lexicons.legal_toJson

/-- A lexicon with finite weights is read back from its text. Numbers that are not short are rounded
twice, so of them it is assumed that they are read as they were written. -/
theorem read_written (order : Increasing d.lexicons.names)
    (finite : ∀ w ∈ d.lexicons.weights, w.isFinite)
    (faithful : ∀ w ∈ d.lexicons.weights, ¬ w.Short → Weight.ofJson? w.toJson = some w) :
    ∃ read, ofText? d.toJson.text = some read ∧ read.Same d := by
  refine ⟨d.stored, ?_, rfl, rfl, ?_⟩
  · rw [ofText?, d.legal_toJson.ofText?_text]
    apply ofJson?_toJson order
    intro w mem
    by_cases short : w.Short
    · exact Weight.ofJson?_toJson_of_short (finite w mem) short
    · exact faithful w mem short
  · apply Grammar.same_stored
    intro w mem
    have small : w.magnitude < Weight.infinityMagnitude := of_decide_eq_true (finite w mem)
    exact decide_eq_false (Nat.lt_asymm small)

/-- Rules with and without output, and the weights `2.5`, `-0.0` and the sum of `0.1` and `0.2`,
which is not short. -/
theorem read_written_mixed_rules :
    let long : Weight := ⟨0x3FD3333333333334⟩
    let d : Document :=
      { start := "Root", multichar := ["+Pl", "\t\"\\"],
        lexicons := ⟨[("#", []),
          ("Root", [{ input := "é", target := "#", weight := ⟨0x4004000000000000⟩ },
            { input := "a", output := some "a", target := "#", weight := ⟨0x8000000000000000⟩ },
            { input := "", output := some "", target := "Root", weight := long }])]⟩ }
    Increasing d.lexicons.names ∧ (∀ w ∈ d.lexicons.weights, w.isFinite) ∧
      (∀ w ∈ d.lexicons.weights, ¬ w.Short → Weight.ofJson? w.toJson = some w) ∧
      long ∈ d.lexicons.weights ∧ ¬ long.Short ∧
      ∃ read, ofText? d.toJson.text = some read ∧ read.Same d := by
  intro long d
  have order : Increasing d.lexicons.names := by
    rw [Increasing]
    decide
  have finite : ∀ w ∈ d.lexicons.weights, w.isFinite := by decide +kernel
  have faithful : ∀ w ∈ d.lexicons.weights, ¬ w.Short → Weight.ofJson? w.toJson = some w := by
    decide +kernel
  have there : long ∈ d.lexicons.weights ∧ ¬ long.Short := by decide +kernel
  exact ⟨order, finite, faithful, there.1, there.2, read_written order finite faithful⟩

end Document

end Transducer
