import Transducer.Proofs.Apply.Order
/-!
Searches that go hand in hand because the paths of one stand for those of another. The order in
which paths wait looks at their costs and numbers only, so a change of paths that leaves these as
they are changes nothing else.
-/

namespace Transducer

namespace Heap

variable {α β : Type} {f : α → β} {before : α → α → Bool} {before' : β → β → Bool}
  {h g l r : Heap α} {a : α} {n : Nat} {mergeRight : Heap α → Heap α}
  {mergeRight' : Heap β → Heap β}

def map (f : α → β) : Heap α → Heap β
  | empty => empty
  | node n a l r => node n (f a) (map f l) (map f r)

@[simp] theorem spine_map (f : α → β) (h : Heap α) : (h.map f).spine = h.spine := by
  cases h <;> rfl

theorem make_map (f : α → β) (a : α) (l r : Heap α) :
    make (f a) (l.map f) (r.map f) = (make a l r).map f := by
  rw [make, make, spine_map, spine_map]
  split <;> rfl

section Order

variable (same : ∀ a b, before' (f a) (f b) = before a b)
include same

theorem mergeNode_map (hm : ∀ h : Heap α, mergeRight' (h.map f) = (mergeRight h).map f)
    (h : Heap α) : mergeNode before' n (f a) (l.map f) (r.map f) mergeRight' (h.map f) =
      (mergeNode before n a l r mergeRight h).map f := by
  induction h with
  | empty => rfl
  | node m b l' r' _ ih =>
    rw [map, mergeNode, mergeNode, same]
    split
    · rw [← make_map, ← hm]
      rfl
    · rw [← make_map, ← ih]

theorem merge_map (h g : Heap α) :
    merge before' (h.map f) (g.map f) = (merge before h g).map f := by
  induction h generalizing g with
  | empty => rfl
  | node n a l r _ ih => exact mergeNode_map same ih g

theorem insert_map (a : α) (h : Heap α) :
    (h.map f).insert before' (f a) = (h.insert before a).map f :=
  merge_map same (node 1 a empty empty) h

theorem pop?_map (h : Heap α) :
    (h.map f).pop? before' = (h.pop? before).map fun (a, rest) => (f a, rest.map f) := by
  cases h with
  | empty => rfl
  | node n a l r => exact congrArg (fun rest => some (f a, rest)) (merge_map same l r)

end Order

end Heap

namespace Search

variable {q q' : Query} {word other : String} {m : Path → Path} {r : Applied → Applied}
  {s t : Search}

/-- The search with its paths changed. -/
def mapped (m : Path → Path) (s : Search) : Search := { s with queue := s.queue.map m }

theorem push_mapped (before : ∀ p p', (m p).before (m p') = p.before p') (s : Search)
    {cost : Weight} {rest rest' : List Token} {written written' : List Symbol}
    {state state' : Option StateId} (same : m ⟨cost, s.discovered, rest, written, state⟩ =
      ⟨cost, s.discovered, rest', written', state'⟩) :
    (s.mapped m).push cost rest' written' state' = (s.push cost rest written state).mapped m := by
  have queue := Heap.insert_map before ⟨cost, s.discovered, rest, written, state⟩ s.queue
  rw [push, push, mapped, mapped, ← queue, same]

/-- The changed paths of one search are those of another: the searches begin alike, a path expands
alike, and once it has stopped it is judged alike and makes a corresponding result. -/
structure Image (q : Query) (word : String) (q' : Query) (other : String) (m : Path → Path)
    (r : Applied → Applied) : Prop where
  before : ∀ p p', (m p).before (m p') = p.before p'
  start : start q' other = (start q word).mapped m
  going : ∀ (legs : List Leg) (seq : Nat), (Trace.going legs).Sound q word →
    let p := (Trace.going legs).entry q word seq
    ∃ id, (m p).state = some id ∧ ∀ s : Search, expand q' (s.mapped m) (m p) id =
      (expand q s p (Leg.ending q.automaton.initial legs)).mapped m
  stopped : ∀ (legs : List Leg) (seq : Nat), (Trace.stopped legs).Sound q word →
    let p := (Trace.stopped legs).entry q word seq
    (m p).state = none ∧ finish q'.options (m p) = r (finish q.options p) ∧
      ∀ s : Search, (s.mapped m).accepts (m p) = ((s.accepts p).1, (s.accepts p).2.mapped m)

/-- The changed paths wait in the same order. -/
structure Alongside (q : Query) (word : String) (m : Path → Path) (s t : Search) : Prop where
  same : t = s.mapped m
  standing : Standing q word s []

namespace Image

theorem mirrors (h : Image q word q' other m r) (side : Alongside q word m s t) :
    Move.Mirrors (Alongside q word m) (fun item => some (r item)) (step q s) (step q' t) := by
  obtain ⟨rfl, standing⟩ := side
  have popped : (s.mapped m).queue.pop? Path.before = (s.queue.pop? Path.before).map
      fun (p, rest) => (m p, rest.map m) := Heap.pop?_map h.before s.queue
  rw [step, step, popped]
  cases hp : s.queue.pop? Path.before with
  | none => exact .finished
  | some first =>
    obtain ⟨p, queue⟩ := first
    obtain ⟨others, trace, sound, entry⟩ := standing.pop hp
    cases trace with
    | going legs =>
      obtain ⟨id, state', expands⟩ := h.going legs p.seq sound
      have state : p.state = some (Leg.ending q.automaton.initial legs) := by rw [entry]; rfl
      rw [← entry] at state' expands
      simp only [Option.map_some, state, state']
      refine .silent ⟨expands { s with queue }, ?_⟩
      rw [entry]
      exact others.expand sound p.seq
    | stopped legs =>
      obtain ⟨state', result, judged⟩ := h.stopped legs p.seq sound
      have state : p.state = none := by rw [entry]; rfl
      rw [← entry] at state' result judged
      obtain ⟨filter, next⟩ := accepts_snd { s with queue } p
      have side : Alongside q word m (({ s with queue } : Search).accepts p).2
          ((({ s with queue } : Search).accepts p).2.mapped m) := by
        rw [next]
        exact ⟨rfl, ⟨others.queue, others.found⟩⟩
      have judged := judged { s with queue }
      rcases verdict : ({ s with queue } : Search).accepts p with ⟨answer, after⟩
      rw [verdict] at judged side
      have onward : ({ (s.mapped m) with queue := queue.map m } : Search).accepts (m p) =
          (answer, after.mapped m) := judged
      simp only [Option.map_some, state, state', verdict, onward]
      cases answer with
      | true => exact .found (congrArg some result.symm) side
      | false => exact .silent side

/-- The searches find corresponding results, step by step, and finish together. -/
theorem run (h : Image q word q' other m r) (k : Nat) :
    (Move.run (step q') (Search.start q' other) k).2 =
        (Move.run (step q) (Search.start q word) k).2.map r ∧
      (Move.run (step q') (Search.start q' other) k).1.isSome =
        (Move.run (step q) (Search.start q word) k).1.isSome :=
  Move.run_mirrors_map ⟨h.start, standing_start q word⟩ (fun _ _ side => h.mirrors side) k

end Image

end Search

end Transducer
