import Transducer.Grammar.Compile
import Transducer.Proofs.Route
import Transducer.Proofs.State
import Transducer.Proofs.Weight.Sum
/-!
Threads, the paths by which a compiled rule goes from one named state to another. Only the first arc
of a thread leaves a named state, and its own states have one arc each, so a path that enters a
thread follows it to its end.
-/

namespace Transducer

namespace Automaton

variable {a b : Automaton} {bound : Nat} {source target id last : StateId} {w v : Weight}
  {arc other : Arc} {leg : Leg} {labels : List Label} {legs : List Leg}

/-- An arc begins a thread: it leads to the target with the weight, or at no cost into a state of
the thread's own whose only arc begins the rest. -/
inductive Thread (a : Automaton) (bound : Nat) (target : StateId) (w : Weight) :
    Arc → List Label → Prop
  | last (l : Label) : Thread a bound target w ⟨target, l, w⟩ [l]
  | more {arc next : Arc} {rest : List Label} : bound ≤ arc.target → arc.weight.isZero = true →
      (a.state arc.target).arcs = [next] → Thread a bound target w next rest →
      Thread a bound target w arc (arc.label :: rest)

namespace Thread

/-- A thread stays when its own states do. -/
theorem mono (h : Thread a bound target w arc labels)
    (frame : ∀ id < a.size, bound ≤ id → b.state id = a.state id) :
    Thread b bound target w arc labels := by
  induction h with
  | last l => exact .last l
  | @more arc next rest own free only _ ih =>
    have there : next ∈ (a.state arc.target).arcs := by simp [only]
    refine .more own free ?_ ih
    rw [frame arc.target (lt_size_of_mem there) own, only]

/-- The same arc begins the same thread, but for the sign of a zero weight. -/
theorem of_sameAs (h : Thread a bound target w arc labels) (hl : other.label = arc.label)
    (same : other.sameAs arc = true) : ∃ v, v.Alike w ∧ Thread a bound target v other labels := by
  obtain ⟨target', label', weight'⟩ := other
  simp only [Arc.sameAs, Bool.and_eq_true, decide_eq_true_eq] at same
  obtain ⟨ht, hw⟩ := same
  cases h with
  | last l =>
    obtain rfl := ht
    obtain rfl := hl
    exact ⟨weight', .inr hw, .last _⟩
  | more own free only rest =>
    obtain rfl := ht
    obtain rfl := hl
    exact ⟨w, .inl rfl, .more own (Weight.isZero_of_numEq hw free) only rest⟩

/-- A path that enters a thread and does not end inside follows it to its end. -/
theorem follow (h : Thread a bound target w arc labels) (hl : leg.arc = arc)
    (route : a.Route arc.target legs last) (outside : last < bound) :
    ∃ front rest, legs = front ++ rest ∧ a.Route target rest last ∧
      Leg.labels (leg :: front) = labels ∧
      ∀ c : Weight, c.IsSum → Leg.costFrom c (leg :: front) = c + w := by
  induction h generalizing leg legs with
  | last l =>
    refine ⟨[], legs, rfl, route, ?_, fun c _ => ?_⟩
    · simp [Leg.labels, hl]
    · rw [Leg.costFrom_cons, hl]
      rfl
  | @more arc next _ own free only _ ih =>
    cases route with
    | stop => exact absurd outside (Nat.not_lt.mpr own)
    | @go _ _ second legs hs route =>
      -- a state of the thread has one arc, so the path has no choice
      have same : second.arc = next := by
        have there := arc_mem_of_mem_legsFrom hs
        rw [only] at there
        exact List.mem_singleton.mp there
      obtain ⟨front, rest, split, route, spelled, cost⟩ := ih same (same ▸ route)
      refine ⟨second :: front, rest, by rw [split, List.cons_append], route, ?_, fun c sum => ?_⟩
      · rw [← spelled, ← hl]
        rfl
      · rw [Leg.costFrom_cons, hl, sum.add_isZero free]
        exact cost c sum

/-- A thread can be followed to its end. -/
theorem exists_route (h : Thread a bound target w arc labels) (hl : leg.arc = arc) :
    ∃ front, a.Route arc.target front target ∧ Leg.labels (leg :: front) = labels ∧
      ∀ c : Weight, c.IsSum → Leg.costFrom c (leg :: front) = c + w := by
  induction h generalizing leg with
  | last l =>
    refine ⟨[], .stop _, ?_, fun c _ => ?_⟩
    · simp [Leg.labels, hl]
    · rw [Leg.costFrom_cons, hl]
      rfl
  | @more arc next _ own free only _ ih =>
    obtain ⟨second, hs, same⟩ : ∃ second ∈ a.legsFrom arc.target, second.arc = next := by
      have there : next ∈ (a.legsFrom arc.target).map Leg.arc := by
        rw [map_arc_legsFrom, only]
        exact List.mem_singleton_self next
      exact List.mem_map.mp there
    obtain ⟨front, route, spelled, cost⟩ := ih same
    refine ⟨second :: front, .go hs (same ▸ route), ?_, fun c sum => ?_⟩
    · rw [← spelled, ← hl]
      rfl
    · rw [Leg.costFrom_cons, hl, sum.add_isZero free]
      exact cost c sum

/-- A path that enters a thread to a state without arcs is shorter than the thread. -/
theorem length_lt (h : Thread a bound target w arc labels) (stuck : (a.state target).arcs = [])
    (route : a.Route arc.target legs last) : legs.length < labels.length := by
  induction h generalizing legs with
  | last l =>
    cases route with
    | stop => exact Nat.one_pos
    | go hl _ => exact absurd hl (not_mem_legsFrom stuck)
  | more _ _ only _ ih =>
    cases route with
    | stop => exact Nat.succ_pos _
    | go hl route =>
      obtain rfl := eq_of_mem_legsFrom only hl
      exact Nat.succ_lt_succ (ih route)

/-- Paths that enter a thread to a state without arcs and do not end inside are the same. -/
theorem legs_eq {more : List Leg} (h : Thread a bound target w arc labels)
    (stuck : (a.state target).arcs = []) (outside : last < bound)
    (route : a.Route arc.target legs last) (route' : a.Route arc.target more last) :
    legs = more := by
  induction h generalizing legs more with
  | last l =>
    cases route with
    | go hl _ => exact absurd hl (not_mem_legsFrom stuck)
    | stop =>
      cases route' with
      | stop => rfl
      | go hl _ => exact absurd hl (not_mem_legsFrom stuck)
  | more own _ only _ ih =>
    cases route with
    | stop => exact absurd outside (Nat.not_lt.mpr own)
    | go hl route =>
      cases route' with
      | stop => exact absurd outside (Nat.not_lt.mpr own)
      | go hl' route' =>
        obtain rfl := eq_of_mem_legsFrom only hl
        obtain rfl := eq_of_mem_legsFrom only hl'
        rw [ih route route']

end Thread

/-- The second automaton is the first with a thread that begins at a state. -/
structure Threaded (a b : Automaton) (bound : Nat) (source target : StateId) (w : Weight)
    (labels : List Label) (first : Arc) : Prop where
  thread : Thread b bound target w first labels
  begins : b.state source = (a.state source).addArc first
  frame : ∀ id < a.size, id ≠ source → b.state id = a.state id
  finals : ∀ id, (b.state id).finalWeight = (a.state id).finalWeight
  labelled : (∀ id, (a.state id).Labelled) → ∀ id, (b.state id).Labelled
  size : a.size ≤ b.size
  initial : b.initial = a.initial

theorem Threaded.mono {first : Arc} {more : List Label} (h : Threaded a b bound source target w
    labels first) (hs : source < bound) (old : Thread a bound last v arc more) :
    Thread b bound last v arc more :=
  old.mono fun id lt le => h.frame id lt (Nat.ne_of_gt (Nat.lt_of_lt_of_le hs le))

theorem threaded_addArc (hs : source < a.size) (target : StateId) (l : Label) (w : Weight) :
    Threaded a (a.addArc source ⟨target, l, w⟩) bound source target w [l] ⟨target, l, w⟩ := by
  have states := state_addArc hs ⟨target, l, w⟩
  refine ⟨.last l, ?_, fun id _ other => ?_, fun id => ?_, fun labelled id => ?_, ?_, rfl⟩
  · rw [states, if_pos rfl]
  · rw [states, if_neg other]
  · rw [states]
    split
    · next same => rw [State.finalWeight_addArc, same]
    · rfl
  · rw [states]
    split
    · exact (labelled source).addArc _
    · exact labelled id
  · rw [size_addArc]

/-- Before the rest of a path, an arc into a new state. -/
theorem Threaded.cons {l l' : Label} {rest : List Label} {next : Arc} (hb : bound ≤ a.size)
    (hs : source < a.size)
    (h : Threaded ((a.addState none).addArc source ⟨a.size, l, .zero⟩) b bound a.size target w
      (l' :: rest) next) :
    Threaded a b bound source target w (l :: l' :: rest) ⟨a.size, l, .zero⟩ := by
  have grown : a.size < ((a.addState none).addArc source ⟨a.size, l, .zero⟩).size := by
    rw [size_addArc, size_addState]
    exact Nat.lt_succ_self _
  have there : source < (a.addState none).size := by
    rw [size_addState]
    exact Nat.lt_succ_of_lt hs
  have states (id : StateId) : ((a.addState none).addArc source ⟨a.size, l, .zero⟩).state id =
      if id = source then (a.state source).addArc ⟨a.size, l, .zero⟩
      else if id = a.size then { name := none } else a.state id := by
    rw [state_addArc there, state_addState, state_addState, if_neg (Nat.ne_of_lt hs)]
  have own := h.begins
  rw [states, if_neg (Nat.ne_of_gt hs), if_pos rfl] at own
  refine ⟨?_, ?_, fun id old other => ?_, fun id => ?_, fun labelled => h.labelled fun id => ?_,
    Nat.le_trans (Nat.le_of_lt grown) h.size, h.initial⟩
  · have free : Weight.zero.isZero = true := by decide
    refine .more hb free ?_ h.thread
    rw [own]
    rfl
  · rw [h.frame source (Nat.lt_trans hs grown) (Nat.ne_of_lt hs), states, if_pos rfl]
  · rw [h.frame id (Nat.lt_trans old grown) (Nat.ne_of_lt old), states, if_neg other,
      if_neg (Nat.ne_of_lt old)]
  · rw [h.finals, states]
    split
    · next same => rw [State.finalWeight_addArc, same]
    · split
      · next same => rw [same, state_of_size_le (Nat.le_refl _)]
      · rfl
  · rw [states]
    split
    · exact (labelled source).addArc _
    · split
      · exact State.labelled_empty none
      · exact labelled id

theorem exists_threaded_addPath (hb : bound ≤ a.size) (hs : source < a.size) (target : StateId)
    (w : Weight) (ne : labels ≠ []) :
    ∃ first, Threaded a (a.addPath source target w labels) bound source target w labels first := by
  induction labels generalizing a source with
  | nil => exact absurd rfl ne
  | cons l rest ih =>
    cases rest with
    | nil => exact ⟨_, threaded_addArc hs target l w⟩
    | cons l' rest =>
      have grown : a.size < ((a.addState none).addArc source ⟨a.size, l, .zero⟩).size := by
        rw [size_addArc, size_addState]
        exact Nat.lt_succ_self _
      have room := Nat.le_trans hb (Nat.le_of_lt grown)
      obtain ⟨next, h⟩ := ih room grown (List.cons_ne_nil l' rest)
      exact ⟨_, h.cons hb hs⟩

end Automaton

end Transducer
