import Transducer.Proofs.Apply.Trace
import Transducer.Proofs.Enumeration
/-!
The results of a search are exact. Whatever the order of the queue, the nodes taken from it and
those waiting in it are explored as those of a tree, so each path that reads the word is found once
or descends from one entry that waits.
-/

namespace Transducer

namespace Search

variable {q : Query} {word : String} {legs : List Leg} {s next : Search} {t : Trace × Nat}
  {taken waiting yielded rest : List (Trace × Nat)} {n : Nat}

/-- A step that gives out the stopped path itself and not yet the result that it makes. -/
def settle (q : Query) (s : Search) : Move Search Path :=
  match s.queue.pop? Path.before with
  | none => .finished
  | some (p, queue) =>
    let s := { s with queue }
    match p.state with
    | some id => .silent (expand q s p id)
    | none =>
      match s.accepts p with
      | (true, s) => .found p s
      | (false, s) => .silent s

theorem step_eq_settle (q : Query) (s : Search) :
    step q s = (settle q s).map (finish q.options) := by
  rw [step, settle]
  cases s.queue.pop? Path.before with
  | none => rfl
  | some popped =>
    obtain ⟨p, queue⟩ := popped
    cases hp : p.state with
    | some id => simp only [hp, Move.map]
    | none =>
      simp only [hp]
      rcases accepts { s with queue } p with ⟨_ | _, s⟩ <;> rfl

theorem run_step (q : Query) (word : String) (k : Nat) :
    Move.run (step q) (start q word) k =
      ((Move.run (settle q) (start q word) k).1,
        (Move.run (settle q) (start q word) k).2.map (finish q.options)) := by
  rw [← Move.run_map]
  exact congrArg (fun step => Move.run step _ k) (funext (step_eq_settle q))

/-- The queue entry of a node that was discovered under a number. -/
def entry (q : Query) (word : String) (t : Trace × Nat) : Path := t.1.entry q word t.2

/-- The filter is there if flags matter, and has read flags of the automaton only. -/
def Judges (q : Query) (filter : Option FlagFilter) : Prop :=
  match filter with
  | none => q.options.obeyFlags = false
  | some f => q.options.obeyFlags = true ∧ f.Serves q.automaton.mentions

/-- The search has the waiting nodes in its queue. -/
structure Holds (q : Query) (word : String) (s : Search) (waiting : List (Trace × Nat)) :
    Prop where
  queue : s.queue.toList.Perm (waiting.map (entry q word))
  filter : Judges q s.filter

/-- The nodes in `taken` have been taken from the queue and those in `waiting` are in it: they are
the start and the children of those taken, and each is a path that fits the word so far. -/
structure Frontier (q : Query) (word : String) (taken waiting : List (Trace × Nat)) : Prop where
  explored : Explored (Trace.children q word) (.going []) (taken.map Prod.fst)
    (waiting.map Prod.fst)
  sound : ∀ t ∈ taken ++ waiting, t.1.Sound q word

/-- Of the nodes that have been taken, those in `yielded` have given results. -/
structure Reached (q : Query) (word : String) (taken waiting yielded : List (Trace × Nat)) : Prop
    extends Frontier q word taken waiting where
  sublist : yielded.Sublist taken
  yields : ∀ t ∈ taken, t ∈ yielded ↔ t.1.Yields q word

namespace Frontier

theorem start (q : Query) (word : String) : Frontier q word [] [(.going [], 0)] := by
  refine ⟨.start, fun t mem => ?_⟩
  rw [List.nil_append, List.mem_singleton] at mem
  exact mem ▸ Trace.sound_start q word

theorem waits (h : Frontier q word taken waiting) : ∀ t ∈ waiting, t.1.Sound q word :=
  fun t mem => h.sound t (List.mem_append_right _ mem)

/-- A node that is taken leaves its children waiting. -/
theorem take (h : Frontier q word taken waiting) (hw : waiting.Perm (t :: rest)) (n : Nat) :
    Frontier q word (t :: taken) ((t.1.children q word).zipIdx n ++ rest) := by
  have here : t.1.Sound q word := h.waits t (hw.mem_iff.mpr List.mem_cons_self)
  refine ⟨?_, fun u mem => ?_⟩
  · rw [List.map_cons, List.map_append, List.zipIdx_map_fst]
    exact h.explored.take (hw.map Prod.fst)
  · simp only [List.cons_append, List.mem_cons, List.mem_append] at mem
    rcases mem with rfl | old | child | other
    · exact here
    · exact h.sound u (List.mem_append_left _ old)
    · exact here.children _ (List.fst_mem_of_mem_zipIdx child)
    · exact h.waits u (hw.mem_iff.mpr (List.mem_cons_of_mem _ other))

theorem nodup (h : Frontier q word taken waiting) :
    (taken.map Prod.fst ++ waiting.map Prod.fst).Nodup := h.explored.nodup (Trace.tree q word)

end Frontier

/-- Discovered nodes join the queue under the next numbers. -/
theorem foldl_discover (q : Query) (word : String) (traces : List Trace) (s : Search) :
    (traces.foldl (discover q word) s).queue.toList.Perm
        ((traces.zipIdx s.discovered).map (entry q word) ++ s.queue.toList) ∧
      (traces.foldl (discover q word) s).filter = s.filter := by
  induction traces generalizing s with
  | nil => exact ⟨.refl _, rfl⟩
  | cons t rest ih =>
    obtain ⟨perm, filter⟩ := ih (discover q word s t)
    refine ⟨?_, filter⟩
    apply perm.trans
    have inserted := Heap.toList_insert Path.before (t.entry q word s.discovered) s.queue
    exact (inserted.append_left _).trans List.perm_middle

theorem Holds.discover (h : Holds q word s waiting) (traces : List Trace) :
    Holds q word (traces.foldl (discover q word) s) (traces.zipIdx s.discovered ++ waiting) := by
  obtain ⟨perm, filter⟩ := foldl_discover q word traces s
  refine ⟨?_, filter ▸ h.filter⟩
  rw [List.map_append]
  exact perm.trans (h.queue.append_left _)

/-- Taking a mapped entry off a list takes the entry itself. -/
theorem perm_map_cons {α β : Type} {f : α → β} {items : List α} {b : β} {l : List β}
    (h : (items.map f).Perm (b :: l)) :
    ∃ a others, items.Perm (a :: others) ∧ f a = b ∧ l.Perm (others.map f) := by
  obtain ⟨a, ha, rfl⟩ := List.mem_map.mp (h.mem_iff.mpr List.mem_cons_self)
  obtain ⟨front, back, rfl⟩ := List.append_of_mem ha
  have move : (front ++ a :: back).Perm (a :: (front ++ back)) := List.perm_middle
  exact ⟨a, front ++ back, move, rfl, (h.symm.trans (move.map f)).cons_inv⟩

theorem left_isEmpty_iff (fits : q.Fits word legs) : (q.left word legs).isEmpty = true ↔
    q.direction.reads legs = (q.tokens word).map Token.matching := by
  rw [fits.split, List.isEmpty_iff]
  constructor
  · intro none
    rw [none, List.map_nil, List.append_nil]
  · intro all
    have none := List.self_eq_append_right.mp all
    exact List.map_eq_nil_iff.mp none

/-- The judgement on a stopped path is that it gives a result. -/
theorem accepts_entry (fit : Flag.Fit q.automaton.mentions) (filter : Judges q s.filter)
    (sound : (Trace.stopped legs).Sound q word) (seq : Nat) :
    ∃ f, Judges q f ∧ (s.accepts ((Trace.stopped legs).entry q word seq)).2 =
        { s with filter := f } ∧
      ((s.accepts ((Trace.stopped legs).entry q word seq)).1 = true ↔ q.Yields word legs) := by
  obtain ⟨fits, last, route, final⟩ := sound
  have whole := left_isEmpty_iff fits
  obtain ⟨queue, discovered, f?⟩ := s
  by_cases empty : (q.left word legs).isEmpty = true
  · have accepted : q.Accepts word legs := ⟨⟨last, route, final⟩, whole.mp empty⟩
    cases f? with
    | none =>
      have free : q.options.obeyFlags = false := filter
      refine ⟨none, filter, ?_, ?_⟩
      · simp [accepts, Trace.entry, empty]
      · simp only [accepts, Trace.entry, empty, if_true, true_iff]
        exact ⟨accepted, fun obey => absurd obey (by simp [free])⟩
    | some f =>
      obtain ⟨obey, serves⟩ := filter
      obtain ⟨verdict, serves'⟩ := FlagFilter.accepts_spec fit serves (q.known_output route)
      refine ⟨some (f.accepts (q.output word legs)).2, ⟨obey, serves'⟩, ?_, ?_⟩
      · simp [accepts, Trace.entry, empty]
      · simp only [accepts, Trace.entry, empty, if_true, List.reverse_reverse, verdict]
        exact ⟨fun agree => ⟨accepted, fun _ => agree⟩, fun yields => yields.agree obey⟩
  · refine ⟨f?, filter, ?_, ?_⟩
    · simp [accepts, Trace.entry, empty]
    · simp only [accepts, Trace.entry, empty, Bool.false_eq_true, if_false, false_iff]
      exact fun yields => empty (whole.mpr yields.reads)

theorem settle_of_nil (h : Holds q word s []) : settle q s = .finished := by
  have empty : s.queue.toList = [] := List.perm_nil.mp h.queue
  rw [settle, Heap.pop?_eq_none_iff.mpr empty]

/-- A step takes a node that waits, discovers its children, and finds its path if that gives a
result. -/
theorem settle_of_cons (fit : Flag.Fit q.automaton.mentions) (h : Holds q word s waiting)
    (sound : ∀ t ∈ waiting, t.1.Sound q word) (ne : waiting ≠ []) :
    ∃ t rest next, waiting.Perm (t :: rest) ∧
      Holds q word next ((t.1.children q word).zipIdx s.discovered ++ rest) ∧
      (t.1.Yields q word ∧ settle q s = .found (entry q word t) next ∨
        ¬ t.1.Yields q word ∧ settle q s = .silent next) := by
  have waits : s.queue.pop? Path.before ≠ none := by
    rw [ne_eq, Heap.pop?_eq_none_iff]
    intro empty
    have perm := h.queue
    rw [empty] at perm
    exact ne (List.map_eq_nil_iff.mp (List.nil_perm.mp perm))
  obtain ⟨⟨p, queue⟩, hp⟩ := Option.ne_none_iff_exists'.mp waits
  obtain ⟨t, rest, perm, rfl, hq⟩ :=
    perm_map_cons (h.queue.symm.trans (Heap.toList_pop? hp))
  have ht := sound t (perm.mem_iff.mpr List.mem_cons_self)
  have held : Holds q word { s with queue } rest := ⟨hq, h.filter⟩
  obtain ⟨trace, seq⟩ := t
  cases trace with
  | going legs =>
    refine ⟨(.going legs, seq), rest, _, perm, held.discover _, .inr ⟨id, ?_⟩⟩
    rw [settle, hp]
    exact congrArg Move.silent (expand_entry ht.1 _ seq)
  | stopped legs =>
    obtain ⟨f, judges, next, verdict⟩ := accepts_entry (s := { s with queue }) fit h.filter ht seq
    refine ⟨(.stopped legs, seq), rest, { s with queue, filter := f }, perm, ⟨hq, judges⟩, ?_⟩
    have judged (answer : Bool) (h : ((({ s with queue } : Search).accepts
        ((Trace.stopped legs).entry q word seq)).1 = answer)) :
        ({ s with queue } : Search).accepts ((Trace.stopped legs).entry q word seq) =
          (answer, { s with queue, filter := f }) := Prod.ext h next
    have state : ((Trace.stopped legs).entry q word seq).state = none := rfl
    by_cases yields : q.Yields word legs
    · refine .inl ⟨yields, ?_⟩
      rw [settle, hp]
      simp only [entry, state, judged true (verdict.mpr yields)]
    · refine .inr ⟨yields, ?_⟩
      rw [settle, hp]
      simp only [entry, state, judged false (Bool.eq_false_iff.mpr (mt verdict.mp yields))]

theorem reached_start (q : Query) (word : String) : Reached q word [] [(.going [], 0)] [] :=
  ⟨.start q word, .slnil, fun _ none => absurd none List.not_mem_nil⟩

theorem holds_start (q : Query) (word : String) :
    Holds q word (start q word) [(.going [], 0)] := by
  refine ⟨.refl _, ?_⟩
  rw [start_eq]
  cases obey : q.options.obeyFlags with
  | false => exact obey
  | true => exact ⟨obey, FlagFilter.serves_ofSymbols (List.subset_append_left ..)⟩

namespace Reached

theorem found (h : Reached q word taken waiting yielded) (hw : waiting.Perm (t :: rest)) (n : Nat)
    (yields : t.1.Yields q word) :
    Reached q word (t :: taken) ((t.1.children q word).zipIdx n ++ rest) (t :: yielded) := by
  refine ⟨h.take hw n, h.sublist.cons_cons t, fun u hu => ?_⟩
  by_cases same : u = t
  · simp [same, yields]
  · have old := (List.mem_cons.mp hu).resolve_left same
    simpa [same] using h.yields u old

theorem silent (h : Reached q word taken waiting yielded) (hw : waiting.Perm (t :: rest)) (n : Nat)
    (unyielding : ¬ t.1.Yields q word) :
    Reached q word (t :: taken) ((t.1.children q word).zipIdx n ++ rest) yielded := by
  refine ⟨h.take hw n, h.sublist.cons t, fun u hu => ?_⟩
  rcases List.mem_cons.mp hu with same | old
  · rw [same]
    refine ⟨fun before => ?_, fun yields => absurd yields unyielding⟩
    exact (h.yields t (h.sublist.subset before)).mp before
  · exact h.yields u old

end Reached

/-- Where the search stands after `k` steps: each of them has taken one node, unless it has finished
before. -/
theorem run_reached (fit : Flag.Fit q.automaton.mentions) (word : String) (k : Nat) :
    ∃ taken waiting yielded, Reached q word taken waiting yielded ∧
      (Move.run (settle q) (start q word) k).2 = yielded.map (entry q word) ∧
      match (Move.run (settle q) (start q word) k).1 with
      | some s => taken.length = k ∧ Holds q word s waiting
      | none => taken.length < k ∧ waiting = [] := by
  induction k with
  | zero => exact ⟨[], _, [], reached_start q word, rfl, rfl, holds_start q word⟩
  | succ k ih =>
    obtain ⟨taken, waiting, yielded, reached, found, now⟩ := ih
    rw [Move.run]
    rcases hr : Move.run (settle q) (start q word) k with ⟨_ | s, items⟩
    · rw [hr] at found now
      exact ⟨taken, waiting, yielded, reached, found, Nat.lt_succ_of_lt now.1, now.2⟩
    · rw [hr] at found now
      obtain ⟨length, held⟩ := now
      have longer : taken.length + 1 = k + 1 := congrArg (· + 1) length
      by_cases done : waiting = []
      · refine ⟨taken, [], yielded, done ▸ reached, ?_⟩
        rw [Move.advance, settle_of_nil (done ▸ held)]
        exact ⟨found, Nat.lt_of_succ_le (Nat.le_of_eq longer), rfl⟩
      · obtain ⟨t, rest, next, perm, holds, step⟩ := settle_of_cons fit held reached.waits done
        rw [Move.advance]
        rcases step with ⟨yields, step⟩ | ⟨unyielding, step⟩
        · refine ⟨t :: taken, _, t :: yielded, reached.found perm s.discovered yields, ?_⟩
          rw [step, List.map_cons, ← found]
          exact ⟨rfl, longer, holds⟩
        · refine ⟨t :: taken, _, yielded, reached.silent perm s.discovered unyielding, ?_⟩
          rw [step]
          exact ⟨found, longer, holds⟩

theorem finish_entry (q : Query) (word : String) (legs : List Leg) (seq : Nat) :
    finish q.options ((Trace.stopped legs).entry q word seq) = q.result word legs := by
  simp [finish, Trace.entry, Query.result]

namespace Reached

theorem eq_stopped (h : Reached q word taken waiting yielded) (ht : t ∈ yielded) :
    t.1 = .stopped t.1.path ∧ q.Yields word t.1.path := by
  have yields := (h.yields t (h.sublist.subset ht)).mp ht
  obtain ⟨trace, seq⟩ := t
  cases trace with
  | going legs => exact absurd yields id
  | stopped legs => exact ⟨rfl, yields⟩

theorem map_result (h : Reached q word taken waiting yielded) :
    (yielded.map (entry q word)).map (finish q.options) =
      (yielded.map fun t => t.1.path).map (q.result word) := by
  rw [List.map_map, List.map_map]
  apply List.map_congr_left
  intro t ht
  rw [Function.comp_apply, entry, (h.eq_stopped ht).1]
  exact finish_entry q word t.1.path t.2

theorem nodup_paths (h : Reached q word taken waiting yielded) :
    (yielded.map fun t => t.1.path).Nodup := by
  have traces : (yielded.map Prod.fst).Nodup :=
    (h.sublist.map Prod.fst).nodup (List.nodup_append.mp h.nodup).1
  have paths : yielded.map (fun t => t.1.path) = (yielded.map Prod.fst).map Trace.path := by
    rw [List.map_map]
    rfl
  rw [paths]
  apply traces.map_on
  intro x hx y hy same
  obtain ⟨t, ht, rfl⟩ := List.mem_map.mp hx
  obtain ⟨u, hu, rfl⟩ := List.mem_map.mp hy
  rw [(h.eq_stopped ht).1, (h.eq_stopped hu).1, same]

theorem mem_paths_iff (h : Reached q word taken waiting yielded) (yields : q.Yields word legs) :
    legs ∈ yielded.map (fun t => t.1.path) ↔ Trace.stopped legs ∈ taken.map Prod.fst := by
  constructor
  · intro hl
    obtain ⟨t, ht, rfl⟩ := List.mem_map.mp hl
    rw [← (h.eq_stopped ht).1]
    exact List.mem_map_of_mem (h.sublist.subset ht)
  · intro hl
    obtain ⟨⟨trace, seq⟩, ht, rfl⟩ := List.mem_map.mp hl
    exact List.mem_map.mpr ⟨_, (h.yields _ ht).mpr yields, rfl⟩

theorem not_on (h : Reached q word taken waiting yielded) (yields : q.Yields word legs)
    (hl : Trace.stopped legs ∈ taken.map Prod.fst) (ht : t ∈ waiting) : ¬ t.1.On legs := by
  intro on
  have above := (Trace.above_iff_on yields.toAccepts).mpr on
  exact h.explored.not_above_of_taken (Trace.tree q word) hl (List.mem_map_of_mem ht) above

theorem exists_on (h : Reached q word taken waiting yielded) (yields : q.Yields word legs)
    (hl : Trace.stopped legs ∉ taken.map Prod.fst) : ∃! t, t ∈ waiting ∧ t.1.On legs := by
  have root : Above (Trace.children q word) (.going []) (.stopped legs) :=
    (Trace.above_iff_on yields.toAccepts).mpr List.nil_prefix
  obtain ⟨x, hx, above⟩ := (h.explored.taken_or_above root).resolve_left hl
  obtain ⟨t, ht, rfl⟩ := List.mem_map.mp hx
  refine ⟨t, ⟨ht, Trace.on_of_above above⟩, fun u hu => ?_⟩
  have other := (Trace.above_iff_on yields.toAccepts).mpr hu.2
  have same := h.explored.above_unique (Trace.tree q word) (List.mem_map_of_mem hu.1) hx other above
  exact List.inj_on_of_nodup_map (List.nodup_append.mp h.nodup).2.1 hu.1 ht same

/-- With nothing waiting, every path that yields a result has given it. -/
theorem mem_paths_of_done (h : Reached q word taken waiting yielded) (done : waiting = [])
    (yields : q.Yields word legs) : legs ∈ yielded.map fun t => t.1.path := by
  rw [h.mem_paths_iff yields]
  by_contra lost
  obtain ⟨t, ⟨there, -⟩, -⟩ := h.exists_on yields lost
  rw [done] at there
  exact absurd there List.not_mem_nil

end Reached

/-- Once it has finished, a search has found the results of all paths that yield one. -/
theorem run_finished (fit : Flag.Fit q.automaton.mentions) {k : Nat}
    (ended : (Move.run (step q) (start q word) k).1 = none) :
    ∃ paths : List (List Leg),
      (Move.run (step q) (start q word) k).2 = paths.map (q.result word) ∧
      paths.Nodup ∧ ∀ legs, legs ∈ paths ↔ q.Yields word legs := by
  rw [run_step] at ended ⊢
  obtain ⟨taken, waiting, yielded, reached, found, now⟩ := run_reached fit word k
  rw [ended] at now
  refine ⟨yielded.map fun t => t.1.path, ?_, reached.nodup_paths, fun legs => ⟨?_, ?_⟩⟩
  · rw [found, reached.map_result]
  · intro mem
    obtain ⟨t, ht, rfl⟩ := List.mem_map.mp mem
    exact (reached.eq_stopped ht).2
  · exact reached.mem_paths_of_done now.2

theorem mem_run_iff (fit : Flag.Fit q.automaton.mentions) {k : Nat}
    (ended : (Move.run (step q) (start q word) k).1 = none) {r : Applied} :
    r ∈ (Move.run (step q) (start q word) k).2 ↔
      ∃ legs, q.Yields word legs ∧ q.result word legs = r := by
  obtain ⟨paths, found, -, yields⟩ := run_finished fit ended
  rw [found, List.mem_map]
  exact exists_congr fun legs => and_congr_left fun _ => yields legs

/-- What a search has found belongs to paths that yield it. -/
theorem exists_yields_of_mem_run (fit : Flag.Fit q.automaton.mentions) {k : Nat} {r : Applied}
    (mem : r ∈ (Move.run (step q) (start q word) k).2) :
    ∃ legs, q.Yields word legs ∧ q.result word legs = r := by
  obtain ⟨taken, waiting, yielded, reached, found, -⟩ := run_reached fit word k
  rw [run_step, found, reached.map_result, List.mem_map] at mem
  obtain ⟨legs, listed, same⟩ := mem
  obtain ⟨t, there, rfl⟩ := List.mem_map.mp listed
  exact ⟨t.1.path, (reached.eq_stopped there).2, same⟩

/-- With every step the search takes one node from its queue, until it has finished. The nodes taken
and those in the queue are the start and the children of those taken, none of them twice. The
results are those of the nodes taken that are paths which read the word, with what these write and
their costs, latest first. A path that has not given a result descends from exactly one entry of the
queue, so when the queue is empty all have. -/
theorem run_exact (q : Query) (word : String) (fit : Flag.Fit q.automaton.mentions) (k : Nat) :
    let run := Move.run (step q) (start q word) k
    ∃ taken waiting yielded : List (Trace × Nat),
      let paths := yielded.map fun t => t.1.path
      Reached q word taken waiting yielded ∧
        (taken.map Prod.fst ++ waiting.map Prod.fst).Nodup ∧
        run.2 = paths.map (q.result word) ∧
        paths.Nodup ∧ (∀ legs ∈ paths, q.Yields word legs) ∧
        (∀ legs, q.Yields word legs →
          (legs ∈ paths → ∀ t ∈ waiting, ¬ t.1.On legs) ∧
          (legs ∉ paths → ∃! t, t ∈ waiting ∧ t.1.On legs)) ∧
        match run.1 with
        | some s => taken.length = k ∧ s.queue.toList.Perm (waiting.map (entry q word))
        | none => taken.length < k ∧ waiting = [] ∧ ∀ legs, q.Yields word legs → legs ∈ paths := by
  intro run
  obtain ⟨taken, waiting, yielded, reached, found, now⟩ := run_reached fit word k
  refine ⟨taken, waiting, yielded, reached, reached.nodup, ?_, reached.nodup_paths, ?_, ?_, ?_⟩
  · rw [← reached.map_result, ← found]
    exact congrArg Prod.snd (run_step q word k)
  · intro legs mem
    obtain ⟨t, there, rfl⟩ := List.mem_map.mp mem
    exact (reached.eq_stopped there).2
  · intro legs yields
    rw [reached.mem_paths_iff yields]
    exact ⟨fun mem t there => reached.not_on yields mem there, reached.exists_on yields⟩
  · have same : run.1 = (Move.run (settle q) (start q word) k).1 :=
      congrArg Prod.fst (run_step q word k)
    rw [same]
    cases hr : (Move.run (settle q) (start q word) k).1 with
    | some s =>
      rw [hr] at now
      exact ⟨now.1, now.2.queue⟩
    | none =>
      rw [hr] at now
      exact ⟨now.1, now.2, fun legs => reached.mem_paths_of_done now.2⟩

/-- Two paths read the word and copy its second token, one of them behind a flag, and each stops
once before that. After nine steps one has given its result and the other has one entry in the
queue; after two more the search has finished. -/
theorem run_exact_two_paths :
    let one : Weight := ⟨0x3FF0000000000000⟩
    let half : Weight := ⟨0x3FE0000000000000⟩
    let cost : Weight := ⟨0x3FF8000000000000⟩
    let frame := ((Automaton.empty.addSymbols ["@P.F.V@", "a", "b", "y"]).addState none).addState none
    let a := ((((frame.setFinal 1 .zero).addArc 0 ⟨1, .pair "a" "b", one⟩).addArc 0
      ⟨2, .pair "@P.F.V@" "y", .zero⟩).addArc 2 ⟨1, .identity "a", one⟩).addArc 1
      ⟨1, .identity ".", half⟩
    let q : Query := { automaton := a, direction := .generate, options := { weights := true } }
    Flag.Fit q.automaton.mentions ∧
      (∃ taken waiting yielded : List (Trace × Nat), Reached q "ax" taken waiting yielded ∧
        taken.length = 9 ∧ waiting.length = 1 ∧
        (yielded.map fun t => q.result "ax" t.1.path) = [⟨.text "bx", some cost⟩] ∧
        ∀ legs, q.Yields "ax" legs → legs ∉ yielded.map (fun t => t.1.path) →
          ∃! t, t ∈ waiting ∧ t.1.On legs) ∧
      ∃ paths : List (List Leg), paths.map (q.result "ax") =
          [⟨.text "yax", some cost⟩, ⟨.text "bx", some cost⟩] ∧ paths.Nodup ∧
        ∀ legs, q.Yields "ax" legs ↔ legs ∈ paths := by
  intro one half cost frame a q
  have fit : Flag.Fit q.automaton.mentions := ⟨by decide +kernel, by decide +kernel⟩
  have first : (Move.run (step q) (start q "ax") 9).2 = [⟨.text "bx", some cost⟩] := by
    decide +kernel
  have queued : (Move.run (step q) (start q "ax") 9).1.map (·.queue.toList.length) = some 1 := by
    decide +kernel
  have both : (Move.run (step q) (start q "ax") 11).2 =
      [⟨.text "yax", some cost⟩, ⟨.text "bx", some cost⟩] := by decide +kernel
  have ended : (Move.run (step q) (start q "ax") 11).1.isNone = true := by decide +kernel
  -- the runs are known now, so nothing has to compute them again
  clear_value q
  refine ⟨fit, ?_, ?_⟩
  · obtain ⟨taken, waiting, yielded, reached, -, found, -, -, descends, now⟩ :=
      run_exact q "ax" fit 9
    cases hr : (Move.run (step q) (start q "ax") 9).1 with
    | none =>
      rw [hr] at queued
      cases queued
    | some s =>
      rw [hr] at queued now
      have one : waiting.length = 1 := by
        rw [← List.length_map (entry q "ax"), ← now.2.length_eq]
        exact Option.some.inj queued
      refine ⟨taken, waiting, yielded, reached, now.1, one, ?_, fun legs yields => ?_⟩
      · rw [← first, found, List.map_map]
        rfl
      · exact (descends legs yields).2
  · obtain ⟨taken, waiting, yielded, -, -, found, nodup, sound, -, now⟩ := run_exact q "ax" fit 11
    rw [Option.isNone_iff_eq_none.mp ended] at now
    exact ⟨_, found ▸ both, nodup, fun legs => ⟨now.2.2 legs, sound legs⟩⟩

end Search

end Transducer
