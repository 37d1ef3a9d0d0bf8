import Transducer.Proofs.Apply.Order
import Transducer.Proofs.Words.Shortlex
/-!
Searches that come to an end. Every step takes a node that has not been taken before, so a search
whose partial paths have bounded length takes them all and finishes; what it has found by then are
the results of all paths that yield one.
-/

namespace Transducer.Search

variable {q : Query} {word : String} {s s' : Search} {taken waiting rest : List (Trace × Nat)}
  {t : Trace × Nat} {p : Path} {queue : Heap Path} {legs : List Leg} {last : StateId} {n k : Nat}

/-- The nodes of the search that have been taken and those in its queue, whatever has become of the
former. -/
structure Underway (q : Query) (word : String) (s : Search) (taken waiting : List (Trace × Nat)) :
    Prop extends Frontier q word taken waiting where
  queue : s.queue.toList.Perm (waiting.map (entry q word))

theorem underway_start (q : Query) (word : String) :
    Underway q word (start q word) [] [(.going [], 0)] := ⟨.start q word, .refl _⟩

theorem Underway.popped (h : Underway q word s taken waiting)
    (hp : s.queue.pop? Path.before = some (p, queue)) : ∃ t rest, waiting.Perm (t :: rest) ∧
      entry q word t = p ∧ queue.toList.Perm (rest.map (entry q word)) ∧ t.1.Sound q word := by
  obtain ⟨t, rest, perm, same, queued⟩ :=
    perm_map_cons (h.queue.symm.trans (Heap.toList_pop? hp))
  exact ⟨t, rest, perm, same, queued, h.waits t (perm.mem_iff.mpr List.mem_cons_self)⟩

theorem Underway.stopped (h : Underway q word s taken waiting)
    (hp : s.queue.pop? Path.before = some (p, queue)) (hs : p.state = none)
    (filter : Option FlagFilter) :
    ∃ t waiting, Underway q word { s with queue, filter } (t :: taken) waiting := by
  obtain ⟨⟨trace, seq⟩, rest, perm, same, queued, -⟩ := h.popped hp
  cases trace with
  | stopped legs => exact ⟨_, _, h.take perm 0, queued⟩
  | going legs =>
    rw [← same] at hs
    cases hs

theorem Underway.expanded (h : Underway q word s taken waiting)
    (hp : s.queue.pop? Path.before = some (p, queue)) {id : StateId} (hs : p.state = some id) :
    ∃ t waiting, Underway q word (expand q { s with queue } p id) (t :: taken) waiting := by
  obtain ⟨⟨trace, seq⟩, rest, perm, same, queued, sound⟩ := h.popped hp
  cases trace with
  | stopped legs =>
    rw [← same] at hs
    cases hs
  | going legs =>
    have ending : Leg.ending q.automaton.initial legs = id := by
      rw [← same] at hs
      exact Option.some.inj hs
    have onward : expand q { s with queue } p id =
        ((Trace.going legs).children q word).foldl (discover q word) { s with queue } := by
      rw [← same, ← ending]
      exact expand_entry sound.1 _ seq
    rw [onward]
    refine ⟨_, _, h.take perm s.discovered, ?_⟩
    rw [List.map_append]
    exact (foldl_discover q word _ _).1.trans (queued.append_left _)

/-- A step that does not finish takes a node. -/
theorem Underway.step (h : Underway q word s taken waiting) (leads : (settle q s).next? = some s') :
    ∃ t waiting, Underway q word s' (t :: taken) waiting := by
  have outcome := settles q s
  generalize settle q s = move at outcome leads
  cases outcome with
  | finished none => cases leads
  | expanded hp hs =>
    obtain rfl := Option.some.inj leads
    exact h.expanded hp hs
  | dropped hp hs =>
    obtain rfl := Option.some.inj leads
    exact h.stopped hp hs _
  | found hp hs _ =>
    obtain rfl := Option.some.inj leads
    exact h.stopped hp hs _

/-- A search that has not finished has taken a node with every step. -/
theorem run_underway (q : Query) (word : String) (k : Nat) :
    ∀ s ∈ (Move.run (settle q) (start q word) k).1,
      ∃ taken waiting, taken.length = k ∧ Underway q word s taken waiting := by
  induction k with
  | zero =>
    intro s hs
    obtain rfl := Option.some.inj hs
    exact ⟨[], _, rfl, underway_start q word⟩
  | succ k ih =>
    intro next hn
    rw [Move.run_succ_fst] at hn
    obtain ⟨s, here, leads⟩ := Option.bind_eq_some_iff.mp hn
    obtain ⟨taken, waiting, length, underway⟩ := ih s here
    obtain ⟨t, waiting', underway'⟩ := underway.step leads
    exact ⟨t :: taken, waiting', congrArg (· + 1) length, underway'⟩

/-- The partial paths have bounded length. -/
def Bounded (q : Query) (word : String) (n : Nat) : Prop :=
  ∀ legs last, q.Fits word legs → q.automaton.Route q.automaton.initial legs last → legs.length ≤ n

theorem bounded_of_acyclic (h : ¬ q.automaton.HasCycle) (word : String) :
    Bounded q word q.automaton.size :=
  fun _ _ _ route => Automaton.length_le_size h route

def nodesUpTo (q : Query) (n : Nat) : List Trace :=
  (q.automaton.pathsUpTo n).flatMap fun legs => [.going legs, .stopped legs]

theorem Bounded.mem_nodesUpTo (h : Bounded q word n) {t : Trace} (sound : t.Sound q word) :
    t ∈ nodesUpTo q n := by
  have listed {legs : List Leg} {last : StateId} (fits : q.Fits word legs)
      (route : q.automaton.Route q.automaton.initial legs last) :
      legs ∈ q.automaton.pathsUpTo n :=
    Automaton.mem_pathsUpTo.mpr ⟨route.ending_eq ▸ route, h _ _ fits route⟩
  cases t with
  | going legs => exact List.mem_flatMap.mpr ⟨legs, listed sound.1 sound.2, by simp⟩
  | stopped legs =>
    obtain ⟨fits, last, route, -⟩ := sound
    exact List.mem_flatMap.mpr ⟨legs, listed fits route, by simp⟩

theorem Bounded.finishes (h : Bounded q word n) :
    (Move.run (step q) (start q word) ((nodesUpTo q n).length + 1)).1 = none := by
  rw [run_step]
  cases hr : (Move.run (settle q) (start q word) ((nodesUpTo q n).length + 1)).1 with
  | none => rfl
  | some s =>
    obtain ⟨taken, waiting, length, underway⟩ := run_underway q word _ s hr
    have nodup := (List.nodup_append.mp underway.nodup).1
    have listed : taken.map Prod.fst ⊆ nodesUpTo q n := by
      intro t mem
      obtain ⟨u, there, rfl⟩ := List.mem_map.mp mem
      exact h.mem_nodesUpTo (underway.sound u (List.mem_append_left _ there))
    have few := (nodup.subperm listed).length_le
    rw [List.length_map, length] at few
    omega

theorem queue_of_finished (last : settle q s = .finished) : s.queue.toList = [] := by
  have outcome := settles q s
  rw [last] at outcome
  cases outcome with
  | finished none => exact Heap.pop?_eq_none_iff.mp none

/-- A search that finishes does so on an empty queue: it has taken every node there is, one with
each step. -/
theorem exists_emptied (ended : (Move.run (step q) (start q word) n).1 = none) :
    ∃ k s taken, (Move.run (step q) (start q word) k).1 = some s ∧ s.queue.toList = [] ∧
      taken.length = k ∧ Frontier q word taken [] ∧
      ∀ m, k < m → (Move.run (step q) (start q word) m).1 = none := by
  have same (k : Nat) : (Move.run (step q) (start q word) k).1 =
      (Move.run (settle q) (start q word) k).1 := congrArg Prod.fst (run_step q word k)
  rw [same] at ended
  obtain ⟨k, s, here, last⟩ := Move.exists_last ended
  have empty := queue_of_finished last
  obtain ⟨taken, waiting, length, underway⟩ := run_underway q word k s here
  have queue := underway.queue
  rw [empty, List.nil_perm, List.map_eq_nil_iff] at queue
  have frontier : Frontier q word taken [] := queue ▸ underway.toFrontier
  refine ⟨k, s, taken, (same k).trans here, empty, length, frontier, fun m later => ?_⟩
  have done : (Move.run (settle q) (start q word) (k + 1)).1 = none := by
    rw [Move.run_succ_fst, here, Option.bind_some, last]
    rfl
  obtain ⟨more, rfl⟩ := Nat.exists_eq_add_of_le (Nat.succ_le_of_lt later)
  rw [same, Move.run_add_of_ended done]
  exact done

theorem Bounded.run_complete (h : Bounded q word n) (fit : Flag.Fit q.automaton.mentions) :
    ∃ (k : Nat) (paths : List (List Leg)),
      Move.run (step q) (start q word) k = (none, paths.map (q.result word)) ∧
      paths.Nodup ∧ ∀ legs, legs ∈ paths ↔ q.Yields word legs := by
  obtain ⟨paths, found, nodup, mem⟩ := run_finished fit h.finishes
  exact ⟨_, paths, Prod.ext h.finishes found, nodup, mem⟩

theorem Bounded.run_unique (h : Bounded q word n) (fit : Flag.Fit q.automaton.mentions)
    (only : ∀ more, q.Yields word more ↔ more = legs) :
    ∃ k, Move.run (step q) (start q word) k = (none, [q.result word legs]) := by
  obtain ⟨k, paths, run, nodup, mem⟩ := h.run_complete fit
  have one : paths = [legs] :=
    List.perm_singleton.mp ((List.perm_ext_iff_of_nodup nodup (List.nodup_singleton _)).mpr
      fun more => by rw [mem, only, List.mem_singleton])
  exact ⟨k, by rw [run, one]; rfl⟩

theorem Bounded.run_empty (h : Bounded q word n) (fit : Flag.Fit q.automaton.mentions)
    (none : ∀ legs, ¬ q.Yields word legs) :
    ∃ k, Move.run (step q) (start q word) k = (.none, []) := by
  obtain ⟨k, paths, run, -, mem⟩ := h.run_complete fit
  have empty : paths = [] := List.eq_nil_iff_forall_not_mem.mpr fun legs there =>
    none legs ((mem legs).mp there)
  exact ⟨k, by rw [run, empty]; rfl⟩

end Transducer.Search
