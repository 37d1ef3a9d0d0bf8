import Transducer.Proofs.Apply.Order
/-!
What the options of a search do. They change what becomes of a finished path and nothing else: a
search with some options goes hand in hand with one that gives out every path, with its cost, its
symbols and its flags.
-/

namespace Transducer

/-- The symbols of a result; a text is one. -/
def Output.symbols : Output → List Symbol
  | text t => [t]
  | tokens ts => ts

namespace ApplyOptions

/-- No path is dropped and all of it is shown. -/
def full : ApplyOptions :=
  { weights := true, tokenizeOutputs := true, obeyFlags := false, printFlags := true }

/-- Whether a result stays, given how the flags of its symbols are judged. -/
def keeps (o : ApplyOptions) (judge : List Symbol → Bool) (r : Applied) : Bool :=
  !o.obeyFlags || judge r.output.symbols

/-- What stays of a result. -/
def reduce (o : ApplyOptions) (r : Applied) : Applied :=
  let symbols := if o.printFlags then r.output.symbols else withoutFlags r.output.symbols
  { output := if o.tokenizeOutputs then .tokens symbols else .text ("".intercalate symbols)
    cost := if o.weights then r.cost else none }

end ApplyOptions

namespace FlagFilter

/-- The verdict of a new filter that has read flags in some order. -/
def fresh (scanned : List Symbol) (symbols : List Symbol) : Bool :=
  ((ofSymbols scanned).accepts symbols).1

/-- A new filter judges by the names in flags, if there are numbers for all of them. -/
theorem fresh_eq_decide {known scanned symbols : List Symbol} (fit : Flag.Fit known)
    (sub : scanned ⊆ known) (hs : ∀ s ∈ symbols, Flag.Known known s) :
    fresh scanned symbols = decide (Flag.Agree (fun _ => .neutral) symbols) := by
  rw [Bool.eq_iff_iff, decide_eq_true_iff]
  exact (accepts_spec fit (serves_ofSymbols sub) hs).1

end FlagFilter

namespace Search

variable {q : Query} {word : String} {s t : Search} {p : Path} {id : StateId}
  {scanned : List Symbol}

/-- The search before its first step, its filter having read the alphabet in some order. -/
def startAfter (scanned : List Symbol) (q : Query) (word : String) : Search :=
  { start q word with
    filter := if q.options.obeyFlags then some (FlagFilter.ofSymbols scanned) else none }

/-- Searches with the same queue, the first without a filter and the second with one that judges
flags of the automaton. -/
structure Abreast (q : Query) (word : String) (s t : Search) : Prop where
  same : s = { t with filter := none }
  judges : Judges q t.filter
  standing : Standing q word t []

theorem expand_filter (q : Query) (s : Search) (p : Path) (id : StateId)
    (filter : Option FlagFilter) :
    expand q { s with filter } p id = { expand q s p id with filter } := by
  refine expand_map (f := fun s => { s with filter }) (g := fun arc => arc)
    (List.map_id' _).symm ?_ ?_
  · rw [halt, halt]
    split <;> rfl
  · intro arc _ s
    rw [offer, offer]
    cases take? q.direction p.rest p.written arc.label <;> rfl

theorem accepts_without_filter (s : Search) (p : Path) :
    accepts { s with filter := none } p = (p.rest.isEmpty, { s with filter := none }) := by
  rw [accepts]
  cases p.rest.isEmpty <;> rfl

theorem keeps_iff (fit : Flag.Fit q.automaton.mentions) (hs : scanned ⊆ q.automaton.mentions)
    {legs : List Leg} (sound : (Trace.stopped legs).Sound q word) (seq : Nat) :
    q.options.keeps (FlagFilter.fresh scanned)
        (finish .full ((Trace.stopped legs).entry q word seq)) = true ↔
      (q.options.obeyFlags = true → Flag.Agree (fun _ => .neutral) (q.output word legs)) := by
  obtain ⟨-, last, route, -⟩ := sound
  have known : ∀ s ∈ q.output word legs, Flag.Known q.automaton.mentions s :=
    q.known_output route
  have symbols : (finish .full ((Trace.stopped legs).entry q word seq)).output.symbols =
      q.output word legs := List.reverse_reverse _
  rw [ApplyOptions.keeps, symbols, FlagFilter.fresh_eq_decide fit hs known]
  cases q.options.obeyFlags <;> simp

def image (q : Query) (scanned : List Symbol) (r : Applied) : Option Applied :=
  if q.options.keeps (FlagFilter.fresh scanned) r then some (q.options.reduce r) else none

/-- What becomes of a path that has stopped. -/
def judged (o : ApplyOptions) (s : Search) (p : Path) : Move Search Applied :=
  match s.accepts p with
  | (true, s) => .found (finish o p) s
  | (false, s) => .silent s

/-- A path that has stopped is found by both searches, by the full one only, or by none: the first
if it reads the word and its flags agree, the second if they do not. -/
theorem Abreast.judged (fit : Flag.Fit q.automaton.mentions) (hs : scanned ⊆ q.automaton.mentions)
    (h : Abreast q word s t) {legs : List Leg} (sound : (Trace.stopped legs).Sound q word)
    (seq : Nat) : Move.Mirrors (Abreast q word) (image q scanned)
      (judged .full s ((Trace.stopped legs).entry q word seq))
      (judged q.options t ((Trace.stopped legs).entry q word seq)) := by
  obtain ⟨rfl, judges, standing⟩ := h
  obtain ⟨f, judges', next, verdict⟩ := accepts_entry fit judges sound seq
  have stays := keeps_iff fit hs sound seq
  have whole := left_isEmpty_iff sound.1
  have after : Abreast q word { t with filter := none } { t with filter := f } :=
    ⟨rfl, judges', ⟨standing.queue, standing.found⟩⟩
  have rest : ((Trace.stopped legs).entry q word seq).rest = q.left word legs := rfl
  generalize (Trace.stopped legs).entry q word seq = p at next verdict stays rest ⊢
  have answer {verdict : Bool} (same : (t.accepts p).1 = verdict) :
      t.accepts p = (verdict, { t with filter := f }) := Prod.ext same next
  rw [Search.judged, Search.judged, accepts_without_filter]
  by_cases yields : q.Yields word legs
  · have empty : p.rest.isEmpty = true := rest ▸ whole.mpr yields.reads
    rw [empty, answer (verdict.mpr yields)]
    exact .found (if_pos (stays.mpr yields.agree)) after
  · rw [answer (Bool.eq_false_iff.mpr (mt verdict.mp yields))]
    cases empty : p.rest.isEmpty with
    | false => exact .silent after
    | true =>
      have read := whole.mp (rest ▸ empty)
      have out : ¬ q.options.keeps (FlagFilter.fresh scanned) (finish .full p) = true :=
        fun kept => yields ⟨⟨sound.2, read⟩, stays.mp kept⟩
      exact .dropped (if_neg out) after

theorem Abreast.mirrors (fit : Flag.Fit q.automaton.mentions) (hs : scanned ⊆ q.automaton.mentions)
    (h : Abreast q word s t) : Move.Mirrors (Abreast q word) (image q scanned)
      (step { q with options := .full } s) (step q t) := by
  obtain ⟨rfl, judges, standing⟩ := h
  rw [step, step]
  cases hp : t.queue.pop? Path.before with
  | none => exact .finished
  | some popped =>
    obtain ⟨p, queue⟩ := popped
    obtain ⟨others, trace, sound, entry⟩ := standing.pop hp
    cases trace with
    | going legs =>
      have state : p.state = some (Leg.ending q.automaton.initial legs) := by rw [entry]; rfl
      have onward : expand q { t with queue } p (Leg.ending q.automaton.initial legs) =
          ((Trace.going legs).children q word).foldl (discover q word) { t with queue } := by
        rw [entry, expand_entry sound.1]
      simp only [state]
      refine .silent ⟨expand_filter q { t with queue } p _ none, ?_, ?_⟩
      · rw [onward, (foldl_discover q word _ _).2]
        exact judges
      · rw [entry]
        exact others.expand sound p.seq
    | stopped legs =>
      have state : p.state = none := by rw [entry]; rfl
      have side : Abreast q word { t with queue, filter := none } { t with queue } :=
        ⟨rfl, judges, ⟨others.queue, others.found⟩⟩
      have moves := side.judged fit hs sound p.seq
      rw [← entry] at moves
      simp only [state]
      exact moves

theorem abreast_start (hs : scanned ⊆ q.automaton.mentions) (word : String) :
    Abreast q word (start { q with options := .full } word) (startAfter scanned q word) := by
  refine ⟨rfl, ?_, ⟨(standing_start q word).queue, fun p none => absurd none List.not_mem_nil⟩⟩
  rw [startAfter]
  cases obey : q.options.obeyFlags with
  | false => exact obey
  | true => exact ⟨obey, FlagFilter.serves_ofSymbols hs⟩

theorem filterMap_image (q : Query) (scanned : List Symbol) (results : List Applied) :
    results.filterMap (image q scanned) =
      (results.filter (q.options.keeps (FlagFilter.fresh scanned))).map q.options.reduce := by
  induction results with
  | nil => rfl
  | cons r rest ih =>
    rw [List.filterMap_cons, image, List.filter_cons, ih]
    cases q.options.keeps (FlagFilter.fresh scanned) r <;> rfl

/-- Options only change what becomes of results. After every number of steps the search has in its
queue what the full search has, and it has found what the full search has, without the results whose
flags a new filter rejects and with the others reduced to what is asked for. The orders in which
filters have read the alphabet do not matter. -/
theorem run_options (q : Query) (word : String) (fit : Flag.Fit q.automaton.mentions)
    {scanned other : List Symbol} (hs : scanned.Perm q.automaton.alphabet.symbols)
    (ho : other.Perm q.automaton.alphabet.symbols) (k : Nat) :
    let all : Query := { q with options := .full }
    let run := Move.run (step q) (startAfter scanned q word) k
    let full := Move.run (step all) (start all word) k
    run.2.reverse =
        (full.2.reverse.filter (q.options.keeps (FlagFilter.fresh other))).map q.options.reduce ∧
      run.1.map (fun s => (s.queue, s.discovered)) =
        full.1.map (fun s => (s.queue, s.discovered)) := by
  intro all run full
  have known {symbols : List Symbol} (h : symbols.Perm q.automaton.alphabet.symbols) :
      symbols ⊆ q.automaton.mentions := fun s mem => List.mem_append_left _ (h.subset mem)
  obtain ⟨states, items⟩ := Move.run_mirrors (abreast_start (known hs) word)
    (fun s t h => h.mirrors fit (known ho)) k
  constructor
  · rw [← filterMap_image, List.filterMap_reverse, ← items]
  · have hand : Option.Rel (Abreast q word) full.1 run.1 := states
    generalize full.1 = s? at hand ⊢
    generalize run.1 = t? at hand ⊢
    cases hand with
    | none => rfl
    | some abreast =>
      rw [abreast.same]
      rfl

/-- The best path sets a feature that the alphabet does not know, asks for a value that it does not
have, and is dropped. Of the two paths that are found after it, one sets and tests a feature, the
other asks that the first feature is not set. A path without flags still waits. -/
theorem run_options_flags_dropped :
    let one : Weight := ⟨0x3FF0000000000000⟩
    let two : Weight := ⟨0x4000000000000000⟩
    let three : Weight := ⟨0x4008000000000000⟩
    let grow (a : Automaton) := a.addState none
    let frame := grow (grow (grow (grow (grow (.addSymbols .empty ["a", "@U.F.V@", "@R.F.V@"])))))
    let dropped := (frame.addArc 0 ⟨1, .pair "a" "@P.G.V@", .zero⟩).addArc 1
      ⟨5, .pair "" "@R.G.W@", .zero⟩
    let agreeing := ((dropped.addArc 0 ⟨2, .pair "a" "@U.F.V@", one⟩).addArc 2
      ⟨3, .pair "" "b", .zero⟩).addArc 3 ⟨5, .pair "" "@R.F.V@", .zero⟩
    let unset := (agreeing.addArc 0 ⟨4, .pair "a" "c", two⟩).addArc 4 ⟨5, .pair "" "@D.G@", .zero⟩
    let a := (unset.addArc 0 ⟨5, .pair "a" "d", three⟩).setFinal 5 .zero
    let options : ApplyOptions := { weights := true, tokenizeOutputs := true }
    let q : Query := { automaton := a, direction := .generate, options }
    let all : Query := { q with options := .full }
    let run := Move.run (step q) (startAfter ["@U.F.V@", "a", "@R.F.V@"] q "a") 11
    let full := Move.run (step all) (start all "a") 11
    Flag.Fit q.automaton.mentions ∧
      ["@U.F.V@", "a", "@R.F.V@"].Perm q.automaton.alphabet.symbols ∧
      ["a", "@R.F.V@", "@U.F.V@"].Perm q.automaton.alphabet.symbols ∧
      full.2.reverse = [⟨.tokens ["@P.G.V@", "@R.G.W@"], some .zero⟩,
        ⟨.tokens ["@U.F.V@", "b", "@R.F.V@"], some one⟩, ⟨.tokens ["c", "@D.G@"], some two⟩] ∧
      run.2.reverse = [⟨.tokens ["b"], some one⟩, ⟨.tokens ["c"], some two⟩] ∧
      run.1.map (fun s => (s.queue, s.discovered)) =
        full.1.map (fun s => (s.queue, s.discovered)) ∧
      full.1.map (fun s => s.queue.toList.map Path.cost) = some [three] := by
  intro one two three grow frame dropped agreeing unset a options q all run full
  have fit : Flag.Fit q.automaton.mentions := ⟨by decide +kernel, by decide +kernel⟩
  have scanned : ["@U.F.V@", "a", "@R.F.V@"].Perm q.automaton.alphabet.symbols := by decide +kernel
  have other : ["a", "@R.F.V@", "@U.F.V@"].Perm q.automaton.alphabet.symbols := by decide +kernel
  have results : full.2.reverse = [⟨.tokens ["@P.G.V@", "@R.G.W@"], some .zero⟩,
      ⟨.tokens ["@U.F.V@", "b", "@R.F.V@"], some one⟩, ⟨.tokens ["c", "@D.G@"], some two⟩] := by
    decide +kernel
  have queued : full.1.map (fun s => s.queue.toList.map Path.cost) = some [three] := by
    decide +kernel
  have mentioned : ∀ r ∈ full.2.reverse, ∀ s ∈ r.output.symbols, s ∈ q.automaton.mentions := by
    rw [results]
    decide +kernel
  have judged : ∀ r ∈ full.2.reverse,
      q.options.keeps (FlagFilter.fresh ["a", "@R.F.V@", "@U.F.V@"]) r =
        q.options.keeps (fun symbols => decide (Flag.Agree (fun _ => .neutral) symbols)) r := by
    intro r mem
    have known : ∀ s ∈ r.output.symbols, Flag.Known q.automaton.mentions s :=
      fun s hs => Flag.known_of_mem (mentioned r mem s hs)
    have scan : ["a", "@R.F.V@", "@U.F.V@"] ⊆ q.automaton.mentions :=
      fun s hs => List.mem_append_left _ (other.subset hs)
    rw [ApplyOptions.keeps, FlagFilter.fresh_eq_decide fit scan known]
    rfl
  obtain ⟨items, queues⟩ := run_options q "a" fit scanned other 11
  refine ⟨fit, scanned, other, results, ?_, queues, queued⟩
  rw [items, List.filter_congr judged, results]
  decide +kernel

end Search

end Transducer
