import Transducer.Proofs.Apply.Exact
import Transducer.Proofs.Automaton.Basic
import Transducer.Proofs.Weight.Sum
/-!
Results come in order of cost. Where no weight is below zero a path costs no less than what it
begins with, so what a search has found comes before all that waits in its queue, and before all
that will ever be discovered from there.
-/

namespace Transducer

/-- No arc and no final state has a weight below zero, or one that is no number. -/
structure Automaton.Nonneg (a : Automaton) : Prop where
  arcs : ∀ s ∈ a.states, ∀ arc ∈ s.arcs, arc.weight.isNonneg = true
  finals : ∀ s ∈ a.states, s.isFinal = true → s.finalWeight.isNonneg = true

namespace Automaton

variable {a : Automaton} {id last : StateId} {legs front : List Leg} {c : Weight} {arc : Arc}

theorem Nonneg.weight (nonneg : a.Nonneg) (h : arc ∈ (a.state id).arcs) :
    arc.weight.isNonneg = true := by
  rcases a.state_cases id with there | missing
  · exact nonneg.arcs _ there arc h
  · rw [missing] at h
    exact absurd h List.not_mem_nil

theorem Nonneg.finalWeight (nonneg : a.Nonneg) (h : a.isFinal id = true) :
    (a.state id).finalWeight.isNonneg = true := by
  rcases a.state_cases id with there | missing
  · exact nonneg.finals _ there h
  · rw [isFinal, missing] at h
    exact absurd h (by decide)

theorem Nonneg.isCost_route (nonneg : a.Nonneg) (h : a.Route id legs last) (cost : c.IsCost) :
    (Leg.costFrom c legs).IsCost ∧ c.rank ≤ (Leg.costFrom c legs).rank := by
  induction h generalizing c with
  | stop => exact ⟨cost, Int.le_refl _⟩
  | @go id _ leg legs hl _ ih =>
    have arc : leg.arc ∈ (a.state id).arcs := arc_mem_of_mem_legsFrom hl
    obtain ⟨sum, le⟩ := cost.le_add (nonneg.weight arc)
    obtain ⟨total, le'⟩ := ih sum
    exact ⟨total, le.trans le'⟩

/-- A path to a final state costs no less than what it begins with. -/
theorem Nonneg.cost_le (nonneg : a.Nonneg) (h : a.Accepts legs) (hf : front <+: legs) :
    (Leg.cost front).rank ≤ (a.cost legs).rank := by
  obtain ⟨more, rfl⟩ := hf
  obtain ⟨last, route, final⟩ := h
  obtain ⟨mid, first, second⟩ := route.split
  rw [← route.ending_eq] at final
  have begun := (nonneg.isCost_route first Weight.isCost_zero).1
  obtain ⟨whole, le⟩ := nonneg.isCost_route second begun
  have total : Leg.cost (front ++ more) = Leg.costFrom (Leg.cost front) more :=
    Leg.costFrom_append ..
  rw [cost, total]
  exact le.trans (whole.le_add (nonneg.finalWeight final)).2

end Automaton

namespace Path

variable {p p' p'' : Path}

/-- Lower cost in the total order of weights, or the same cost and discovered earlier. -/
def Precedes (p p' : Path) : Prop :=
  (compare p.cost p'.cost).then (compare p.seq p'.seq) = .lt

theorem precedes_iff : p.Precedes p' ↔ p.cost.rank < p'.cost.rank ∨
    p.cost.rank = p'.cost.rank ∧ p.seq < p'.seq := by
  have key : p.Precedes p' ↔
      (compare p.cost.rank p'.cost.rank).then (compare p.seq p'.seq) = .lt := Iff.rfl
  rw [key, Ordering.then_eq_lt, Int.compare_eq_lt, Int.compare_eq_eq, Nat.compare_eq_lt]

theorem Precedes.trans (h : p.Precedes p') (h' : p'.Precedes p'') : p.Precedes p'' := by
  rw [precedes_iff] at h h' ⊢
  omega

theorem Precedes.rank_le (h : p.Precedes p') : p.cost.rank ≤ p'.cost.rank := by
  rw [precedes_iff] at h
  omega

theorem precedes_of_before (h : p.before p' = true) (ne : p.seq ≠ p'.seq) : p.Precedes p' := by
  rw [before_iff] at h
  rw [precedes_iff]
  omega

end Path

namespace Search

variable {q : Query} {word : String} {legs : List Leg} {s next : Search} {p : Path}
  {found : List Path} {queue : Heap Path} {c : Weight} {move : Move Search Path}

/-- What has been found, latest first, is in order and comes before all that waits. -/
structure Sorted (s : Search) (found : List Path) : Prop where
  order : found.Pairwise fun later earlier => earlier.Precedes later
  ahead : ∀ f ∈ found, ∀ p ∈ s.queue.toList, f.Precedes p
  heap : s.queue.Ordered Path.before
  seqs : (s.queue.toList.map Path.seq).Nodup
  fresh : ∀ p ∈ s.queue.toList, p.seq < s.discovered
  costs : ∀ p ∈ s.queue.toList, p.cost.IsCost

/-- The path that is taken comes after all that has been found and before all that still waits. -/
theorem Sorted.pop (h : Sorted s found) (hp : s.queue.pop? Path.before = some (p, queue)) :
    Sorted { s with queue } found ∧ (∀ f ∈ found, f.Precedes p) ∧
      (∀ p' ∈ queue.toList, p.Precedes p') ∧ p.seq < s.discovered ∧ p.cost.IsCost := by
  have perm := Heap.toList_pop? hp
  obtain ⟨least, heap⟩ := Heap.ordered_pop? Path.before_total Path.before_trans h.heap hp
  have here : p ∈ s.queue.toList := perm.mem_iff.mpr List.mem_cons_self
  have stays : ∀ p' ∈ queue.toList, p' ∈ s.queue.toList := fun p' hp' =>
    perm.mem_iff.mpr (List.mem_cons_of_mem p hp')
  have seqs := (perm.map Path.seq).nodup_iff.mp h.seqs
  rw [List.map_cons, List.nodup_cons] at seqs
  refine ⟨⟨h.order, ?_, heap, seqs.2, ?_, ?_⟩, ?_, ?_, h.fresh p here, h.costs p here⟩
  · exact fun f hf p' hp' => h.ahead f hf p' (stays p' hp')
  · exact fun p' hp' => h.fresh p' (stays p' hp')
  · exact fun p' hp' => h.costs p' (stays p' hp')
  · exact fun f hf => h.ahead f hf p here
  · intro p' hp'
    refine Path.precedes_of_before (least p' hp') fun same => seqs.1 ?_
    rw [same]
    exact List.mem_map_of_mem hp'

/-- A path that costs no less than one taken after all that has been found may be queued. -/
theorem Sorted.push (h : Sorted s found) (after : ∀ f ∈ found, f.Precedes p)
    (early : p.seq < s.discovered) (cost : c.IsCost) (le : p.cost.rank ≤ c.rank)
    (rest : List Token) (written : List Symbol) (state : Option StateId) :
    Sorted (s.push c rest written state) found := by
  have perm := Heap.toList_insert Path.before ⟨c, s.discovered, rest, written, state⟩ s.queue
  have mem {x : Path} (hx : x ∈ (s.push c rest written state).queue.toList) :
      x = ⟨c, s.discovered, rest, written, state⟩ ∨ x ∈ s.queue.toList :=
    List.mem_cons.mp (perm.mem_iff.mp hx)
  have below : p.Precedes ⟨c, s.discovered, rest, written, state⟩ := by
    rw [Path.precedes_iff]
    simp only
    omega
  refine ⟨h.order, ?_, ?_, ?_, ?_, ?_⟩
  · intro f hf x hx
    rcases mem hx with new | old
    · rw [new]
      exact (after f hf).trans below
    · exact h.ahead f hf x old
  · exact Heap.ordered_insert Path.before_total Path.before_trans _ h.heap
  · refine (perm.map Path.seq).nodup_iff.mpr (List.nodup_cons.mpr ⟨fun twice => ?_, h.seqs⟩)
    obtain ⟨x, hx, same⟩ := List.mem_map.mp twice
    exact absurd same (Nat.ne_of_lt (h.fresh x hx))
  · intro x hx
    rcases mem hx with new | old
    · rw [new]
      exact Nat.lt_succ_self _
    · exact Nat.lt_succ_of_lt (h.fresh x old)
  · intro x hx
    rcases mem hx with new | old
    · rw [new]
      exact cost
    · exact h.costs x old

/-- Nothing that a path discovers costs less than the path. -/
theorem Sorted.expand (nonneg : q.automaton.Nonneg) (h : Sorted s found)
    (after : ∀ f ∈ found, f.Precedes p) (early : p.seq < s.discovered) (cost : p.cost.IsCost)
    (id : StateId) : Sorted (expand q s p id) found := by
  have longer (s : Search) (h : Sorted s found ∧ p.seq < s.discovered) {weight : Weight}
      (ok : weight.isNonneg = true) (rest : List Token) (written : List Symbol)
      (state : Option StateId) :
      let next := s.push (p.cost + weight) rest written state
      Sorted next found ∧ p.seq < next.discovered := by
    obtain ⟨sum, le⟩ := cost.le_add ok
    exact ⟨h.1.push after h.2 sum le rest written state, Nat.lt_succ_of_lt h.2⟩
  refine (expand_keeps (P := fun s => Sorted s found ∧ p.seq < s.discovered) ?_ ?_).1
  · rw [halt]
    split
    · next final => exact longer s ⟨h, early⟩ (nonneg.finalWeight final) _ _ _
    · exact ⟨h, early⟩
  · intro arc mem s h
    rw [offer]
    cases take? q.direction p.rest p.written arc.label with
    | none => exact h
    | some taken => exact longer s h (nonneg.weight mem) _ _ _

theorem accepts_snd (s : Search) (p : Path) : ∃ filter, (s.accepts p).2 = { s with filter } := by
  rw [accepts]
  split
  · split
    · exact ⟨s.filter, rfl⟩
    · exact ⟨_, rfl⟩
  · exact ⟨s.filter, rfl⟩

theorem accepts_rest (h : (s.accepts p).1 = true) : p.rest.isEmpty = true := by
  rw [accepts] at h
  split at h
  · assumption
  · exact absurd h Bool.false_ne_true

/-- What a step can do with the path that it takes from the queue. -/
inductive Settles (q : Query) (s : Search) : Move Search Path → Prop
  | finished : s.queue.pop? Path.before = none → Settles q s .finished
  | expanded {p : Path} {queue : Heap Path} {id : StateId} :
      s.queue.pop? Path.before = some (p, queue) → p.state = some id →
      Settles q s (.silent (expand q { s with queue } p id))
  | dropped {p : Path} {queue : Heap Path} {filter : Option FlagFilter} :
      s.queue.pop? Path.before = some (p, queue) → p.state = none →
      Settles q s (.silent { s with queue, filter })
  | found {p : Path} {queue : Heap Path} {filter : Option FlagFilter} :
      s.queue.pop? Path.before = some (p, queue) → p.state = none → p.rest.isEmpty = true →
      Settles q s (.found p { s with queue, filter })

theorem settles (q : Query) (s : Search) : Settles q s (settle q s) := by
  rw [settle]
  cases hp : s.queue.pop? Path.before with
  | none => exact .finished hp
  | some popped =>
    obtain ⟨p, queue⟩ := popped
    cases hs : p.state with
    | some id =>
      simp only [hs]
      exact .expanded hp hs
    | none =>
      obtain ⟨filter, same⟩ := accepts_snd { s with queue } p
      simp only [hs]
      rcases ha : accepts { s with queue } p with ⟨_ | _, next⟩
      · rw [ha] at same
        obtain rfl := same
        exact .dropped hp hs
      · rw [ha] at same
        obtain rfl := same
        exact .found hp hs (accepts_rest (congrArg Prod.fst ha))

/-- What one step preserves. -/
theorem Sorted.keeps (nonneg : q.automaton.Nonneg) (h : Sorted s found)
    (settles : Settles q s move) : move.Keeps Sorted found := by
  cases settles with
  | finished => trivial
  | expanded hp _ =>
    obtain ⟨popped, after, -, early, cost⟩ := h.pop hp
    exact popped.expand nonneg after early cost _
  | dropped hp _ =>
    obtain ⟨popped, -⟩ := h.pop hp
    exact ⟨h.order, popped.ahead, popped.heap, popped.seqs, popped.fresh, popped.costs⟩
  | @found p queue filter hp _ _ =>
    obtain ⟨popped, after, least, -⟩ := h.pop hp
    refine ⟨List.pairwise_cons.mpr ⟨after, h.order⟩, ?_, popped.heap, popped.seqs,
      popped.fresh, popped.costs⟩
    intro f hf p' hp'
    rcases List.mem_cons.mp hf with new | old
    · rw [new]
      exact least p' hp'
    · exact popped.ahead f old p' hp'

theorem sorted_start (q : Query) (word : String) : Sorted (start q word) [] := by
  have only : (start q word).queue.toList = [(Trace.going []).entry q word 0] := rfl
  refine ⟨.nil, ?_, ⟨by simp [Heap.toList], trivial, trivial⟩, ?_, ?_, ?_⟩
  · simp
  · rw [only]
    exact List.nodup_singleton _
  · intro p hp
    rw [only, List.mem_singleton] at hp
    rw [hp]
    exact Nat.one_pos
  · intro p hp
    rw [only, List.mem_singleton] at hp
    rw [hp]
    exact Weight.isCost_zero

theorem run_sorted (nonneg : q.automaton.Nonneg) (word : String) (k : Nat) :
    (Move.run (settle q) (start q word) k).2.Pairwise
        (fun later earlier => earlier.Precedes later) ∧
      ∀ s ∈ (Move.run (settle q) (start q word) k).1,
        Sorted s (Move.run (settle q) (start q word) k).2 :=
  Move.run_keeps (sorted_start q word) (fun s _ h => h.keeps nonneg (settles q s))
    (fun _ _ h => h.order) k

/-- The stopped path has read the whole word. -/
def Whole (q : Query) (word : String) (p : Path) : Prop :=
  ∃ legs, q.Accepts word legs ∧ p = (Trace.stopped legs).entry q word p.seq

/-- Every entry of the queue stands for a path that fits the word, and all that has been found has
read the whole of it. -/
structure Standing (q : Query) (word : String) (s : Search) (found : List Path) : Prop where
  queue : ∀ p ∈ s.queue.toList, ∃ t : Trace, t.Sound q word ∧ p = t.entry q word p.seq
  found : ∀ p ∈ found, Whole q word p

theorem standing_start (q : Query) (word : String) : Standing q word (start q word) [] := by
  refine ⟨fun p hp => ?_, fun p none => absurd none List.not_mem_nil⟩
  have only : (start q word).queue.toList = [(Trace.going []).entry q word 0] := rfl
  rw [only, List.mem_singleton] at hp
  exact ⟨.going [], Trace.sound_start q word, by rw [hp]; rfl⟩

theorem Standing.expand (h : Standing q word s found) (sound : (Trace.going legs).Sound q word)
    (seq : Nat) : Standing q word (Search.expand q s ((Trace.going legs).entry q word seq)
      (Leg.ending q.automaton.initial legs)) found := by
  rw [expand_entry sound.1]
  refine ⟨fun p hp => ?_, h.found⟩
  have perm := (foldl_discover q word ((Trace.going legs).children q word) s).1
  rcases List.mem_append.mp (perm.mem_iff.mp hp) with new | old
  · obtain ⟨⟨t, n⟩, ht, rfl⟩ := List.mem_map.mp new
    have child : t ∈ (Trace.going legs).children q word := by
      rw [← List.zipIdx_map_fst s.discovered ((Trace.going legs).children q word)]
      exact List.mem_map_of_mem ht
    refine ⟨t, sound.children t child, ?_⟩
    cases t <;> rfl
  · exact h.queue p old

/-- The path that is taken stands for a path that fits the word. -/
theorem Standing.pop (h : Standing q word s found)
    (hp : s.queue.pop? Path.before = some (p, queue)) :
    Standing q word { s with queue } found ∧
      ∃ t : Trace, t.Sound q word ∧ p = t.entry q word p.seq := by
  have perm := Heap.toList_pop? hp
  refine ⟨⟨fun p' hp' => ?_, h.found⟩, h.queue p (perm.mem_iff.mpr List.mem_cons_self)⟩
  exact h.queue p' (perm.mem_iff.mpr (List.mem_cons_of_mem p hp'))

theorem Standing.keeps (h : Standing q word s found) (settles : Settles q s move) :
    move.Keeps (Standing q word) found := by
  cases settles with
  | finished => trivial
  | @expanded p queue id hp hs =>
    obtain ⟨others, t, sound, same⟩ := h.pop hp
    rw [same] at hs
    cases t with
    | stopped legs => exact absurd hs (by simp [Trace.entry])
    | going legs =>
      obtain rfl := Option.some.inj hs
      rw [same]
      exact others.expand sound p.seq
  | dropped hp _ =>
    obtain ⟨others, -⟩ := h.pop hp
    exact ⟨others.queue, others.found⟩
  | @found p queue filter hp hs empty =>
    obtain ⟨others, t, sound, same⟩ := h.pop hp
    rw [same] at hs empty
    cases t with
    | going legs => exact absurd hs (by simp [Trace.entry])
    | stopped legs =>
      have whole : Whole q word p :=
        ⟨legs, ⟨sound.2, (left_isEmpty_iff sound.1).mp empty⟩, same⟩
      refine ⟨others.queue, fun p' hp' => ?_⟩
      rcases List.mem_cons.mp hp' with new | old
      · rw [new]
        exact whole
      · exact h.found p' old

theorem run_whole (q : Query) (word : String) (k : Nat) :
    ∀ p ∈ (Move.run (settle q) (start q word) k).2, Whole q word p :=
  (Move.run_keeps (standing_start q word) (fun s _ h => h.keeps (settles q s))
    (fun _ _ h => h.found) k).1

/-- An entry from which a path can still come: it stands for a beginning of the path, or for the
whole path stopped. -/
def Leads (q : Query) (word : String) (p : Path) (legs : List Leg) : Prop :=
  ∃ t : Trace, t.On legs ∧ p = t.entry q word p.seq

theorem Leads.rank_le (nonneg : q.automaton.Nonneg) (h : q.Accepts word legs)
    (leads : Leads q word p legs) : p.cost.rank ≤ (q.automaton.cost legs).rank := by
  obtain ⟨t, on, same⟩ := leads
  rw [same]
  cases t with
  | going front => exact nonneg.cost_le h.path on
  | stopped whole => exact on ▸ Int.le_refl _

/-- Where no weight is below zero, the results, each from a path that reads the word, come in order
of cost, and those of one cost in order of discovery. Nothing that comes later costs less than what
has been found, nor does any path that can still come from an entry of the queue. -/
theorem run_best_first (q : Query) (word : String) (nonneg : q.automaton.Nonneg) (k : Nat) :
    Move.run (step q) (start q word) k =
      ((Move.run (settle q) (start q word) k).1,
        (Move.run (settle q) (start q word) k).2.map (finish q.options)) ∧
    (Move.run (settle q) (start q word) k).2.reverse.Pairwise Path.Precedes ∧
    ∀ p ∈ (Move.run (settle q) (start q word) k).2,
      (∃ legs, q.Accepts word legs ∧ p = (Trace.stopped legs).entry q word p.seq) ∧
      (∀ m, ∀ p' ∈ (Move.run (settle q) (start q word) (k + m)).2,
        p' ∈ (Move.run (settle q) (start q word) k).2 ∨ p.Precedes p') ∧
      ∀ s ∈ (Move.run (settle q) (start q word) k).1, ∀ p' ∈ s.queue.toList, p.Precedes p' ∧
        ∀ legs, q.Accepts word legs → Leads q word p' legs →
          p.cost.rank ≤ (q.automaton.cost legs).rank := by
  obtain ⟨order, sorted⟩ := run_sorted nonneg word k
  refine ⟨run_step q word k, List.pairwise_reverse.mpr order, fun p hp => ?_⟩
  refine ⟨run_whole q word k p hp, ?_, ?_⟩
  · intro m p' hp'
    obtain ⟨later, all⟩ := Move.run_suffix (settle q) (start q word) k m
    have total := (run_sorted nonneg word (k + m)).1
    rw [← all] at hp' total
    rcases List.mem_append.mp hp' with new | old
    · exact .inr ((List.pairwise_append.mp total).2.2 p' new p hp)
    · exact .inl old
  · intro s hs p' hp'
    have ahead := (sorted s hs).ahead p hp p' hp'
    exact ⟨ahead, fun legs h leads => ahead.rank_le.trans (leads.rank_le nonneg h)⟩

/-- A path that stops costs as much as the one that goes on from it, which waits while the stopped
copy is found; the copy was discovered first, so it comes first. A third path costs more, although
it was discovered before the copies. -/
theorem run_best_first_ties :
    let one : Weight := ⟨0x3FF0000000000000⟩
    let two : Weight := ⟨0x4000000000000000⟩
    let three : Weight := ⟨0x4008000000000000⟩
    let frame := (((Automaton.empty.addSymbols ["a", "b", "c", "d"]).addState none).addState
      none).addState none
    let a := (((((frame.setFinal 1 one).setFinal 2 .zero).setFinal 3 .zero).addArc 0
      ⟨1, .pair "a" "b", one⟩).addArc 1 ⟨2, .pair "" "c", one⟩).addArc 0 ⟨3, .pair "a" "d", three⟩
    let q : Query := { automaton := a, direction := .generate, options := { weights := true } }
    let run := Move.run (settle q) (start q "a")
    let key (p : Path) := (p.cost, p.seq)
    q.automaton.Nonneg ∧
      (Move.run (step q) (start q "a") 7).2.reverse =
        [⟨.text "b", some two⟩, ⟨.text "bc", some two⟩, ⟨.text "d", some three⟩] ∧
      (run 7).2.reverse.map key = [(two, 3), (two, 5), (three, 6)] ∧
      (run 7).2.reverse.Pairwise Path.Precedes ∧
      (run 3).2.map key = [(two, 3)] ∧
      (run 3).1.map (fun s => s.queue.toList.map key) = some [(two, 4), (three, 2)] ∧
      ∀ p ∈ (run 3).2,
        (∃ legs, q.Accepts "a" legs ∧ p = (Trace.stopped legs).entry q "a" p.seq) ∧
        (∀ p' ∈ (run 7).2, p' ∈ (run 3).2 ∨ p.Precedes p') ∧
        ∀ s ∈ (run 3).1, ∀ p' ∈ s.queue.toList, p.Precedes p' ∧
          ∀ legs, q.Accepts "a" legs → Leads q "a" p' legs →
            p.cost.rank ≤ (q.automaton.cost legs).rank := by
  intro one two three frame a q run key
  have nonneg : q.automaton.Nonneg := ⟨by decide +kernel, by decide +kernel⟩
  have finished : (run 7).2.reverse.map (finish q.options) =
      [⟨.text "b", some two⟩, ⟨.text "bc", some two⟩, ⟨.text "d", some three⟩] := by decide +kernel
  have keys : (run 7).2.reverse.map key = [(two, 3), (two, 5), (three, 6)] := by decide +kernel
  have first : (run 3).2.map key = [(two, 3)] := by decide +kernel
  have queued : (run 3).1.map (fun s => s.queue.toList.map key) = some [(two, 4), (three, 2)] := by
    decide +kernel
  clear_value q
  obtain ⟨results, order, -⟩ := run_best_first q "a" nonneg 7
  obtain ⟨-, -, best⟩ := run_best_first q "a" nonneg 3
  refine ⟨nonneg, ?_, keys, order, first, queued, fun p hp => ?_⟩
  · rw [results, ← List.map_reverse]
    exact finished
  · obtain ⟨whole, later, ahead⟩ := best p hp
    exact ⟨whole, later 4, ahead⟩

end Search

end Transducer
