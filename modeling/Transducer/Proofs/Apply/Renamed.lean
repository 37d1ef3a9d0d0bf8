import Transducer.Proofs.Apply.Image
import Transducer.Proofs.Automaton.Renaming
import Transducer.Proofs.Words.Shortlex
/-!
Walks and searches of automata that differ in the numbers of their states go hand in hand: what
waits in one is what waits in the other, with the states replaced by their counterparts. The order
in which it waits does not look at states.
-/

namespace Transducer

variable {a b : Automaton} {f : StateId → StateId} {id : StateId}

/-- The path to the counterpart of its last state. -/
def Prospect.moved (f : StateId → StateId) (p : Prospect) : Prospect :=
  { p with state := f p.state }

namespace Walk

variable {w rest : Walk} {p : Prospect}

def moved (f : StateId → StateId) (w : Walk) : Walk :=
  ⟨w.front.map (Prospect.moved f), w.back.map (Prospect.moved f)⟩

theorem pop?_moved (f : StateId → StateId) (w : Walk) :
    (w.moved f).pop? = w.pop?.map fun (p, rest) => (p.moved f, rest.moved f) := by
  obtain ⟨front, back⟩ := w
  cases front with
  | cons p front => rfl
  | nil =>
    simp only [pop?, moved, List.map_nil, ← List.map_reverse]
    cases back.reverse <;> rfl

theorem append_moved (f : StateId → StateId) (w : Walk) (paths : List Prospect) :
    (w.moved f).append (paths.map (Prospect.moved f)) = (w.append paths).moved f := by
  have fold (back : List Prospect) :
      (paths.map (Prospect.moved f)).foldl (fun back p => p :: back)
          (back.map (Prospect.moved f)) =
        (paths.foldl (fun back p => p :: back) back).map (Prospect.moved f) := by
    induction paths generalizing back with
    | nil => rfl
    | cons p paths ih => exact ih (p :: back)
  simp only [append, moved, fold]

/-- The same paths wait in the same order, all of them to reachable states. -/
structure Alongside (a : Automaton) (f : StateId → StateId) (w v : Walk) : Prop where
  same : v = w.moved f
  reached : ∀ p ∈ w.toList, a.Reachable p.state

theorem alongside_start (h : a.Renaming b f) : Alongside a f (start a) (start b) := by
  refine ⟨?_, fun p mem => ?_⟩
  · rw [start, h.initial]
    rfl
  · obtain rfl : p = ⟨a.initial, .zero, []⟩ := by simpa [start, toList] using mem
    exact a.reachable_initial

theorem Alongside.mirrors {v : Walk} (h : a.Renaming b f) (side : Alongside a f w v) :
    Move.Mirrors (Alongside a f) some (step a w) (step b v) := by
  obtain ⟨rfl, reached⟩ := side
  rw [step, step, pop?_moved]
  cases hp : w.pop? with
  | none => exact .finished
  | some popped =>
    obtain ⟨p, rest⟩ := popped
    have all := toList_of_pop? hp
    have here : a.Reachable p.state := reached p (all ▸ List.mem_cons_self)
    have longer : extensions b (p.moved f) = (extensions a p).map (Prospect.moved f) := by
      rw [extensions, Prospect.moved, h.arcs here, extensions, List.map_map, List.map_map]
      rfl
    have next : Alongside a f (rest.append (extensions a p))
        ((rest.moved f).append (extensions b (p.moved f))) := by
      refine ⟨by rw [longer, append_moved], fun n mem => ?_⟩
      rw [toList_append] at mem
      rcases List.mem_append.mp mem with old | new
      · exact reached n (all ▸ List.mem_cons_of_mem p old)
      · obtain ⟨arc, there, rfl⟩ := List.mem_map.mp new
        exact here.target there
    have final : (b.state (p.moved f).state).isFinal = (a.state p.state).isFinal := h.isFinal here
    have weight : (b.state (p.moved f).state).finalWeight = (a.state p.state).finalWeight :=
      h.finalWeight here
    simp only [Option.map_some, final, weight]
    split
    · exact .found rfl next
    · exact .silent next

/-- Walks of renamed automata find the same words, step by step. -/
theorem run_renamed (h : a.Renaming b f) (k : Nat) :
    (Move.run (step b) (start b) k).2 = (Move.run (step a) (start a) k).2 ∧
      (Move.run (step b) (start b) k).1.isSome = (Move.run (step a) (start a) k).1.isSome :=
  Move.run_mirrors_some (alongside_start h) (fun _ _ side => Alongside.mirrors h side) k

end Walk

/-- The path to the counterpart of its last state, or the stopped path. -/
def Path.moved (f : StateId → StateId) (p : Path) : Path := { p with state := p.state.map f }

namespace Search

variable {q : Query}

theorem before_moved (f : StateId → StateId) (p p' : Path) :
    (p.moved f).before (p'.moved f) = p.before p' := rfl

theorem push_moved (f : StateId → StateId) (s : Search) (cost : Weight) (rest : List Token)
    (written : List Symbol) (state : Option StateId) :
    (s.mapped (Path.moved f)).push cost rest written (state.map f) =
      (s.push cost rest written state).mapped (Path.moved f) :=
  push_mapped (before_moved f) s rfl

theorem expand_moved (h : q.automaton.Renaming b f) (reached : q.automaton.Reachable id)
    (s : Search) (p : Path) :
    expand { q with automaton := b } (s.mapped (Path.moved f)) (p.moved f) (f id) =
      (expand q s p id).mapped (Path.moved f) := by
  refine expand_map (f := mapped (Path.moved f)) (g := Arc.moved f) (h.arcs reached) ?_ ?_
  · have final : b.isFinal (f id) = q.automaton.isFinal id := h.isFinal reached
    rw [halt, halt, h.finalWeight reached, final]
    split
    · exact push_moved f s _ p.rest p.written none
    · rfl
  · intro arc _ s
    have same : take? q.direction (p.moved f).rest (p.moved f).written (arc.moved f).label =
      take? q.direction p.rest p.written arc.label := rfl
    rw [offer, offer, same]
    cases take? q.direction p.rest p.written arc.label with
    | none => rfl
    | some taken => exact push_moved f s _ taken.1 taken.2 (some arc.target)

theorem accepts_moved (f : StateId → StateId) (s : Search) (p : Path) :
    (s.mapped (Path.moved f)).accepts (p.moved f) =
      ((s.accepts p).1, (s.accepts p).2.mapped (Path.moved f)) := by
  obtain ⟨queue, discovered, filter⟩ := s
  rw [accepts, accepts, Path.moved, mapped]
  cases p.rest.isEmpty with
  | false => rfl
  | true => cases filter <;> rfl

theorem image_renamed (h : q.automaton.Renaming b f) (word : String) :
    Image q word { q with automaton := b } word (Path.moved f) fun r => r where
  before := before_moved f
  start := by
    rw [start, start, h.initial, tokens, tokens, h.alphabet, ← push_moved]
    rfl
  going legs seq sound := ⟨_, rfl, fun s => expand_moved h ⟨legs, sound.2⟩ s _⟩
  stopped legs seq sound := ⟨rfl, rfl, fun s => accepts_moved f s _⟩

/-- Searches in renamed automata find the same results, step by step. -/
theorem run_renamed (h : q.automaton.Renaming b f) (word : String) (k : Nat) :
    let other : Query := { q with automaton := b }
    (Move.run (step other) (start other word) k).2 = (Move.run (step q) (start q word) k).2 ∧
      (Move.run (step other) (start other word) k).1.isSome =
        (Move.run (step q) (start q word) k).1.isSome := by
  obtain ⟨items, ends⟩ := (image_renamed h word).run k
  exact ⟨items.trans (List.map_id' _), ends⟩

end Search

end Transducer
