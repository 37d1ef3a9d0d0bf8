import Transducer.Automaton.Basic
import Transducer.Enumeration
import Transducer.Weight.Arithmetic
/-!
The accepted paths of an automaton, breadth first: shorter paths before longer ones, and paths of
one length by the order of arcs.
-/

namespace Transducer

/-- An accepted path: its labels, and its cost with the final weight. -/
structure Word where
  cost : Weight
  labels : List Label
  deriving DecidableEq, Repr

namespace Word

def input (w : Word) : String := "".intercalate (w.labels.map Label.input)

def output (w : Word) : String := "".intercalate (w.labels.map Label.output)

end Word

/-- A path from the initial state, its labels latest first. -/
structure Prospect where
  state : StateId
  cost : Weight
  labels : List Label
  deriving DecidableEq, Repr

/-- The paths that wait to be extended: those in `front`, then those in `back` from its end. -/
structure Walk where
  front : List Prospect
  back : List Prospect
  deriving DecidableEq, Repr

namespace Walk

/-- The waiting paths in order. -/
def toList (w : Walk) : List Prospect := w.front ++ w.back.reverse

/-- Takes the first waiting path. -/
def pop? (w : Walk) : Option (Prospect × Walk) :=
  match w.front with
  | p :: front => some (p, ⟨front, w.back⟩)
  | [] =>
    match w.back.reverse with
    | [] => none
    | p :: front => some (p, ⟨front, []⟩)

/-- Appends paths behind those that wait. -/
def append (w : Walk) (paths : List Prospect) : Walk :=
  ⟨w.front, paths.foldl (fun back p => p :: back) w.back⟩

def start (a : Automaton) : Walk := ⟨[⟨a.initial, .zero, []⟩], []⟩

/-- The path extended by each arc of its last state. -/
def extensions (a : Automaton) (p : Prospect) : List Prospect :=
  (a.state p.state).arcs.map fun arc => ⟨arc.target, p.cost + arc.weight, arc.label :: p.labels⟩

/-- Takes a path, queues its extensions, and finds it if it ends in a final state. -/
def step (a : Automaton) (w : Walk) : Move Walk Word :=
  match w.pop? with
  | none => .finished
  | some (p, rest) =>
    let next := rest.append (extensions a p)
    let s := a.state p.state
    if s.isFinal then .found ⟨p.cost + s.finalWeight, p.labels.reverse⟩ next else .silent next

theorem toList_append (w : Walk) (paths : List Prospect) :
    (w.append paths).toList = w.toList ++ paths := by
  have h (paths back : List Prospect) :
      paths.foldl (fun back p => p :: back) back = paths.reverse ++ back := by
    induction paths generalizing back with
    | nil => rfl
    | cons p rest ih => simp [ih]
  simp [toList, append, h]

theorem pop?_eq_none_iff {w : Walk} : w.pop? = none ↔ w.toList = [] := by
  rcases w with ⟨_ | ⟨p, front⟩, back⟩
  · cases h : back.reverse <;> simp [pop?, toList, h]
  · simp [pop?, toList]

theorem toList_of_pop? {w rest : Walk} {p : Prospect} (h : w.pop? = some (p, rest)) :
    w.toList = p :: rest.toList := by
  rcases w with ⟨_ | ⟨q, front⟩, back⟩
  · cases hb : back.reverse <;> simp [pop?, hb] at h
    obtain ⟨rfl, rfl⟩ := h
    simp [toList, hb]
  · simp only [pop?, Option.some.injEq, Prod.mk.injEq] at h
    obtain ⟨rfl, rfl⟩ := h
    rfl

end Walk

/-- The first accepted paths, at most `limit` of them; nothing if that takes more than `steps`
steps. -/
def Automaton.words (a : Automaton) (steps limit : Nat) : Option (List Word) :=
  Move.take (Walk.step a) steps limit (Walk.start a)

end Transducer
