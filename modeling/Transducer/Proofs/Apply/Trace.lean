import Transducer.Proofs.Apply.Meaning
import Transducer.Proofs.Apply.Queue
import Transducer.Proofs.Worklist
/-!
The tree that a search explores. Its nodes are the partial paths that fit the word so far, each with
its stopped copy below it where it may stop; taking a queue entry queues the children of its node.
-/

namespace Transducer

/-- A path on its way, or one that has stopped. -/
inductive Trace where
  | going (legs : List Leg)
  | stopped (legs : List Leg)
  deriving DecidableEq, Repr

namespace Query

variable {q : Query} {word : String} {legs : List Leg}

/-- A path has read the word as far as it goes. -/
def Fits (q : Query) (word : String) (legs : List Leg) : Prop :=
  q.direction.reads legs <+: (q.tokens word).map Token.matching

instance (q : Query) (word : String) (legs : List Leg) : Decidable (q.Fits word legs) :=
  inferInstanceAs (Decidable (_ <+: _))

/-- The tokens that a path has left to read. -/
def left (q : Query) (word : String) (legs : List Leg) : List Token :=
  (q.tokens word).drop (q.direction.reads legs).length

theorem Fits.split (h : q.Fits word legs) :
    (q.tokens word).map Token.matching =
      q.direction.reads legs ++ (q.left word legs).map Token.matching := by
  rw [left, List.map_drop]
  exact (List.prefix_iff_eq_append.mp h).symm

theorem take?_silent {d : Direction} {l : Label} (h : d.silent l = true) (rest : List Token)
    (written : List Symbol) :
    Search.take? d rest written l = some (rest, d.produced l :: written) := if_pos h

theorem take?_nil {d : Direction} {l : Label} (h : d.silent l = false) (written : List Symbol) :
    Search.take? d [] written l = none := if_neg (Bool.not_eq_true _ ▸ h)

theorem take?_cons {d : Direction} {l : Label} (h : d.silent l = false) (t : Token)
    (rest : List Token) (written : List Symbol) :
    Search.take? d (t :: rest) written l =
      if t.matching = d.consumed l then some (rest, d.copies l (some t) :: written) else none :=
  if_neg (Bool.not_eq_true _ ▸ h)

section Snoc

variable {leg : Leg}

theorem fits_snoc_silent (hs : q.direction.silent leg.arc.label = true) :
    q.Fits word (legs ++ [leg]) ↔ q.Fits word legs := by
  rw [Fits, Direction.reads_snoc_silent hs, Fits]

theorem left_snoc_silent (hs : q.direction.silent leg.arc.label = true) :
    q.left word (legs ++ [leg]) = q.left word legs := by
  rw [left, Direction.reads_snoc_silent hs, left]

theorem output_snoc_silent (hs : q.direction.silent leg.arc.label = true) :
    q.output word (legs ++ [leg]) =
      q.output word legs ++ [q.direction.produced leg.arc.label] := by
  rw [output, Direction.writes_append, Direction.writes, if_pos hs]
  rfl

theorem fits_snoc_iff (h : q.Fits word legs) (hs : q.direction.silent leg.arc.label = false) :
    q.Fits word (legs ++ [leg]) ↔
      ∃ t ∈ (q.left word legs).head?, t.matching = q.direction.consumed leg.arc.label := by
  rw [Fits, h.split, Direction.reads_snoc hs, List.prefix_append_right_inj]
  cases q.left word legs with
  | nil => simp
  | cons t rest => simp [eq_comm]

theorem left_snoc (hs : q.direction.silent leg.arc.label = false) :
    q.left word (legs ++ [leg]) = (q.left word legs).tail := by
  rw [left, Direction.reads_snoc hs, List.length_append, ← List.drop_drop, List.length_singleton,
    List.drop_one, left]

theorem output_snoc (hs : q.direction.silent leg.arc.label = false) :
    q.output word (legs ++ [leg]) = q.output word legs ++
      [q.direction.copies leg.arc.label (q.left word legs).head?] := by
  rw [output, Direction.writes_append, Direction.writes, if_neg (Bool.not_eq_true _ ▸ hs)]
  rfl

end Snoc

/-- Taking an arc, for a path that fits. -/
theorem take?_eq (h : q.Fits word legs) (leg : Leg) :
    Search.take? q.direction (q.left word legs) (q.output word legs).reverse leg.arc.label =
      if q.Fits word (legs ++ [leg]) then
        some (q.left word (legs ++ [leg]), (q.output word (legs ++ [leg])).reverse)
      else none := by
  cases hs : q.direction.silent leg.arc.label with
  | true =>
    rw [take?_silent hs, if_pos ((fits_snoc_silent hs).mpr h), left_snoc_silent hs,
      output_snoc_silent hs, List.reverse_append]
    rfl
  | false =>
    have fits_iff := fits_snoc_iff h hs
    cases hl : q.left word legs with
    | nil =>
      have unfit : ¬ q.Fits word (legs ++ [leg]) := by
        rw [fits_iff, hl]
        simp
      rw [take?_nil hs, if_neg unfit]
    | cons t rest =>
      rw [take?_cons hs, left_snoc hs, output_snoc hs, hl, List.reverse_append]
      by_cases same : t.matching = q.direction.consumed leg.arc.label
      · have fits : q.Fits word (legs ++ [leg]) := fits_iff.mpr ⟨t, by simp [hl], same⟩
        rw [if_pos same, if_pos fits]
        rfl
      · have unfit : ¬ q.Fits word (legs ++ [leg]) := by
          rw [fits_iff, hl]
          simpa using same
        rw [if_neg same, if_neg unfit]

/-- The arcs by which a path goes on and still fits. -/
def onward (q : Query) (word : String) (legs : List Leg) : List Leg :=
  (q.automaton.legsFrom (Leg.ending q.automaton.initial legs)).filter fun leg =>
    q.Fits word (legs ++ [leg])

end Query

namespace Trace

variable {q : Query} {word : String} {legs front : List Leg} {t u : Trace}

/-- The nodes below a node. -/
def children (q : Query) (word : String) : Trace → List Trace
  | going legs => (if q.automaton.endsFinal legs then [stopped legs] else []) ++
      (q.onward word legs).map fun leg => going (legs ++ [leg])
  | stopped _ => []

/-- The queue entry of a node that was discovered after `seq` others. -/
def entry (q : Query) (word : String) (seq : Nat) : Trace → Path
  | going legs => ⟨Leg.cost legs, seq, q.left word legs, (q.output word legs).reverse,
      some (Leg.ending q.automaton.initial legs)⟩
  | stopped legs =>
      ⟨q.automaton.cost legs, seq, q.left word legs, (q.output word legs).reverse, none⟩

/-- The nodes of the tree. -/
def Sound (q : Query) (word : String) : Trace → Prop
  | going legs => q.Fits word legs ∧
      q.automaton.Route q.automaton.initial legs (Leg.ending q.automaton.initial legs)
  | stopped legs => q.Fits word legs ∧ q.automaton.Accepts legs

/-- A node that a path begins with or, once it has stopped, is. -/
def On (legs : List Leg) : Trace → Prop
  | going front => front <+: legs
  | stopped whole => whole = legs

def path : Trace → List Leg
  | going legs => legs
  | stopped legs => legs

/-- A node that gives a result. -/
def Yields (q : Query) (word : String) : Trace → Prop
  | going _ => False
  | stopped legs => q.Yields word legs

theorem mem_children_going : t ∈ children q word (going legs) ↔
    (q.automaton.endsFinal legs = true ∧ t = stopped legs) ∨
      ∃ leg ∈ q.onward word legs, t = going (legs ++ [leg]) := by
  rw [children, List.mem_append, List.mem_map]
  refine or_congr ?_ (exists_congr fun leg => and_congr_right fun _ => eq_comm)
  cases q.automaton.endsFinal legs <;> simp

theorem sound_start (q : Query) (word : String) : Sound q word (going []) :=
  ⟨List.nil_prefix, .stop _⟩

theorem Sound.children (h : Sound q word t) : ∀ u ∈ children q word t, Sound q word u := by
  intro u hu
  cases t with
  | stopped legs => simp [Trace.children] at hu
  | going legs =>
    obtain ⟨fits, route⟩ := h
    rcases mem_children_going.mp hu with ⟨final, same⟩ | ⟨leg, onward, same⟩
    · rw [same]
      exact ⟨fits, _, route, final⟩
    · rw [Query.onward, List.mem_filter, decide_eq_true_eq] at onward
      rw [same]
      refine ⟨onward.2, ?_⟩
      rw [Leg.ending_snoc]
      exact route.snoc onward.1

/-- Legs taken, and one more for stopping. -/
def depth : Trace → Nat
  | going legs => legs.length
  | stopped legs => legs.length + 1

theorem tree (q : Query) (word : String) : Tree (children q word) (going []) depth := by
  constructor
  · intro t
    cases t with
    | stopped => exact List.nodup_nil
    | going legs =>
      have onward : (q.onward word legs).Nodup := (q.automaton.legsFrom_nodup _).filter _
      have going : ((q.onward word legs).map fun leg => going (legs ++ [leg])).Nodup :=
        onward.map fun leg other same => by simpa using same
      refine List.nodup_append.mpr ⟨?_, going, ?_⟩
      · split <;> simp
      · intro t ht u hu same
        obtain ⟨leg, -, rfl⟩ := List.mem_map.mp hu
        rw [same] at ht
        split at ht <;> simp at ht
  · intro x y z hx hy
    cases x with
    | stopped => simp [children] at hx
    | going legs =>
      cases y with
      | stopped => simp [children] at hy
      | going more =>
        rcases mem_children_going.mp hx with ⟨-, same⟩ | ⟨leg, -, same⟩ <;>
          rcases mem_children_going.mp hy with ⟨-, same'⟩ | ⟨other, -, same'⟩
        · simpa [same] using same'
        · simp [same] at same'
        · simp [same] at same'
        · rw [same, going.injEq] at same'
          rw [(List.append_inj' same' rfl).1]
  · intro t h
    cases t with
    | stopped => simp [children] at h
    | going legs =>
      rcases mem_children_going.mp h with ⟨-, same⟩ | ⟨leg, -, same⟩ <;> simp at same
  · intro t u h
    cases t with
    | stopped => simp [children] at h
    | going legs =>
      rcases mem_children_going.mp h with ⟨-, rfl⟩ | ⟨leg, -, rfl⟩ <;> simp [depth]

theorem on_of_mem_children (h : u ∈ children q word t) (on : On legs u) : On legs t := by
  cases t with
  | stopped => simp [children] at h
  | going front =>
    rcases mem_children_going.mp h with ⟨-, same⟩ | ⟨leg, -, same⟩
    · rw [same] at on
      exact on ▸ List.prefix_rfl
    · rw [same] at on
      exact (List.prefix_append front [leg]).trans on

theorem on_of_above (h : Above (children q word) t (stopped legs)) : On legs t := by
  induction h using Relation.ReflTransGen.head_induction_on with
  | refl => rfl
  | head child _ ih => exact on_of_mem_children child ih

/-- A path that reads the word has all its beginnings in the tree. -/
theorem above_of_prefix (h : q.Accepts word (front ++ legs)) :
    Above (children q word) (going front) (stopped (front ++ legs)) := by
  induction legs generalizing front with
  | nil =>
    rw [List.append_nil] at h ⊢
    have final := (Automaton.accepts_iff.mp h.path).2
    exact .single (mem_children_going.mpr (.inl ⟨final, rfl⟩))
  | cons leg legs ih =>
    have e : front ++ leg :: legs = front ++ [leg] ++ legs := by simp
    obtain ⟨last, route, -⟩ := h.path
    rw [e] at route
    obtain ⟨mid, first, -⟩ := route.split
    have fits : q.Fits word (front ++ [leg]) := by
      rw [Query.Fits, ← h.reads, e, q.direction.reads_append (front ++ [leg])]
      exact List.prefix_append ..
    have onward : leg ∈ q.onward word front := by
      rw [Query.onward, List.mem_filter]
      exact ⟨first.unsnoc.2, decide_eq_true fits⟩
    rw [e] at h ⊢
    exact .head (mem_children_going.mpr (.inr ⟨leg, onward, rfl⟩)) (ih h)

theorem above_iff_on (h : q.Accepts word legs) :
    Above (children q word) t (stopped legs) ↔ On legs t := by
  refine ⟨on_of_above, fun on => ?_⟩
  cases t with
  | stopped whole => exact on ▸ .refl
  | going front =>
    obtain ⟨more, rfl⟩ := on
    exact above_of_prefix h

end Trace

namespace Search

variable {q : Query} {word : String} {legs : List Leg} {s : Search} {traces : List Trace}

/-- Queues a node that has just been discovered. -/
def discover (q : Query) (word : String) (s : Search) (t : Trace) : Search :=
  { s with
    queue := s.queue.insert Path.before (t.entry q word s.discovered)
    discovered := s.discovered + 1 }

theorem start_eq (q : Query) (word : String) : start q word =
    discover q word
      { queue := .empty
        discovered := 0
        filter := if q.options.obeyFlags then
          some (FlagFilter.ofSymbols q.automaton.alphabet.symbols) else none }
      (.going []) := rfl

/-- Queues the stopped copy of a path, if it may stop. -/
def halt (q : Query) (p : Path) (id : StateId) (s : Search) : Search :=
  if q.automaton.isFinal id then
    s.push (p.cost + (q.automaton.state id).finalWeight) p.rest p.written none
  else s

/-- Queues what an arc leads to, if the path can take it. -/
def offer (q : Query) (p : Path) (s : Search) (arc : Arc) : Search :=
  (take? q.direction p.rest p.written arc.label).elim s fun taken =>
    s.push (p.cost + arc.weight) taken.1 taken.2 (some arc.target)

/-- Expanding a path queues its stopped copy, then what each arc leads to. -/
theorem expand_eq (q : Query) (s : Search) (p : Path) (id : StateId) :
    expand q s p id = (q.automaton.state id).arcs.foldl (offer q p) (halt q p id s) := by
  rw [expand]
  refine congrArg (fun step => List.foldl step _ _) (funext₂ fun s arc => ?_)
  rw [offer]
  cases take? q.direction p.rest p.written arc.label <;> rfl

/-- What stopping keeps, and every arc, expanding keeps. -/
theorem expand_keeps {P : Search → Prop} {p : Path} {id : StateId} (stop : P (halt q p id s))
    (one : ∀ arc ∈ (q.automaton.state id).arcs, ∀ s, P s → P (offer q p s arc)) :
    P (expand q s p id) := by
  rw [expand_eq]
  exact List.foldlRecOn _ _ stop fun s h arc mem => one arc mem s h

/-- Where stopping corresponds, and every arc, expanding does. -/
theorem expand_map {q' : Query} {p p' : Path} {id id' : StateId} {f : Search → Search}
    {g : Arc → Arc} (arcs : (q'.automaton.state id').arcs = (q.automaton.state id).arcs.map g)
    (stop : halt q' p' id' (f s) = f (halt q p id s))
    (one : ∀ arc ∈ (q.automaton.state id).arcs, ∀ s,
      offer q' p' (f s) (g arc) = f (offer q p s arc)) :
    expand q' (f s) p' id' = f (expand q s p id) := by
  rw [expand_eq, expand_eq, arcs, stop, List.foldl_map]
  refine List.foldl_rel (r := fun t s => t = f s) rfl fun arc mem t s same => ?_
  rw [same, one arc mem]

/-- Expanding the entry of a path discovers the children of its node. -/
theorem expand_entry (fits : q.Fits word legs) (s : Search) (seq : Nat) :
    expand q s ((Trace.going legs).entry q word seq) (Leg.ending q.automaton.initial legs) =
      ((Trace.going legs).children q word).foldl (discover q word) s := by
  have arcs := q.automaton.map_arc_legsFrom (Leg.ending q.automaton.initial legs)
  have one (s : Search) (leg : Leg) : offer q ((Trace.going legs).entry q word seq) s leg.arc =
      if q.Fits word (legs ++ [leg]) then discover q word s (.going (legs ++ [leg])) else s := by
    rw [offer, Trace.entry, Query.take?_eq fits]
    by_cases more : q.Fits word (legs ++ [leg])
    · simp [more, discover, push, Trace.entry]
    · simp [more]
  have stop : halt q ((Trace.going legs).entry q word seq) (Leg.ending q.automaton.initial legs) s =
      (if q.automaton.endsFinal legs = true then [Trace.stopped legs] else []).foldl
        (discover q word) s := by
    rw [halt, ← Automaton.endsFinal]
    split <;> rfl
  rw [expand_eq, ← arcs, List.foldl_map, Trace.children, List.foldl_append, List.foldl_map,
    Query.onward, List.foldl_filter, stop]
  simp only [decide_eq_true_eq]
  exact congrArg (fun step => List.foldl step _ _) (funext₂ one)

end Search

end Transducer
