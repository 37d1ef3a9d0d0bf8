import Transducer.Proofs.Apply.Exact
import Transducer.Proofs.Command.Report
/-!
The lines for the results of a word. A search that comes to an end has a line for each of its
results up to the limit, or else the line of a miss. That line stands where no other line does: if
there are no results, but also if the limit is zero.
-/

namespace Transducer.Command

variable {q : Query} {word : String} {limit : Quota} {s : Search} {k : Nat} {report : ResultReport}

/-- The lines for results, or that of a miss if nothing has been found before them. -/
def resultLines (word : String) (missed : Bool) (results : List Applied) : List String :=
  if missed && results.isEmpty then [missLine word] else results.map (resultLine word)

namespace ResultReport

/-- A report that closes has two steps left, at most. -/
theorem run_of_close (h : step q word report = report.close word) :
    Move.run (step q word) report (k + 2) = (none, resultLines word report.missed []) := by
  cases missed : report.missed with
  | false =>
    have finishes : step q word report = .finished := by rw [h, close, missed]; rfl
    exact Move.run_of_finished finishes
  | true =>
    have miss : step q word report =
        .found (missLine word) { report with search := none, missed := false } := by
      rw [h, close, missed]
      rfl
    rw [Move.run_of_found miss, Move.run_of_finished rfl]
    rfl

/-- The report of a search that finishes is over one step later. -/
theorem run_report (word : String) (limit : Quota) (missed : Bool)
    (ended : (Move.run (Search.step q) s k).1 = none) :
    Move.run (step q word) ⟨some s, limit, missed⟩ (k + 1) =
      (none, (resultLines word missed
        (limit.first (Move.run (Search.step q) s k).2.reverse)).reverse) := by
  induction k generalizing s limit missed with
  | zero => cases ended
  | succ k ih =>
    have turned : (resultLines word missed []).reverse = resultLines word missed [] := by
      cases missed <;> rfl
    by_cases full : limit = some 0
    · have closes : step q word ⟨some s, limit, missed⟩ = close word ⟨some s, limit, missed⟩ := by
        simp only [step, if_pos full]
      rw [run_of_close closes, full, Quota.first_zero, turned]
    · cases h : Search.step q s with
      | finished =>
        have closes : step q word ⟨some s, limit, missed⟩ = close word ⟨some s, limit, missed⟩ := by
          simp only [step, if_neg full, h]
        rw [run_of_close closes, Move.run_of_finished h, List.reverse_nil, Quota.first_nil, turned]
      | silent next =>
        have moves : step q word ⟨some s, limit, missed⟩ =
            .silent ⟨some next, limit, missed⟩ := by
          simp only [step, if_neg full, h]
        rw [Move.run_of_silent h] at ended ⊢
        rw [Move.run_of_silent moves, ih limit missed ended]
      | found result next =>
        have moves : step q word ⟨some s, limit, missed⟩ =
            .found (resultLine word result) ⟨some next, limit.map (· - 1), false⟩ := by
          simp only [step, if_neg full, h]
        rw [Move.run_of_found h] at ended ⊢
        rw [Move.run_of_found moves, ih (limit.map (· - 1)) false ended, List.reverse_append,
          List.reverse_singleton, List.singleton_append, Quota.first_cons full]
        simp [resultLines]

end ResultReport

/-- What is found keeps to the options. Its line has the word, what is written, with spaces where
that stays in symbols, and the cost where weights are asked for. -/
theorem exists_resultLine_eq {r : Applied}
    (found : r ∈ (Move.run (Search.step q) (Search.start q word) k).2) :
    ∃ symbols cost,
      r = ⟨if q.options.tokenizeOutputs then .tokens symbols else .text ("".intercalate symbols),
        if q.options.weights then some cost else none⟩ ∧
      resultLine word r = word ++ "\t" ++
        (if q.options.tokenizeOutputs then " " else "").intercalate symbols ++
        (if q.options.weights then "\t" ++ cost.text else "") ++ "\n" := by
  rw [Search.run_step] at found
  obtain ⟨p, -, rfl⟩ := List.mem_map.mp found
  refine ⟨_, p.cost, rfl, ?_⟩
  rw [resultLine, Search.finish]
  cases q.options.weights with
  | false => cases q.options.tokenizeOutputs <;> simp [lineOf, outputField, String.append_assoc]
  | true => cases q.options.tokenizeOutputs <;> simp [lineOf, outputField, String.append_assoc]

theorem writeResults_eq (ended : (Move.run (Search.step q) (Search.start q word) k).1 = none)
    (limit : Quota) (before : ByteArray) (steps : Nat) :
    writeResults { written := before } q word limit steps = none ∨
      writeResults { written := before } q word limit steps =
        some { written := before ++ (String.join (resultLines word true
          (limit.first (Move.run (Search.step q) (Search.start q word) k).2.reverse))).toUTF8 } := by
  have report := ResultReport.run_report word limit true ended
  rw [writeResults, ResultReport.start, Sink.drain_eq_run]
  by_cases closed : (Move.run (ResultReport.step q word) ⟨some (Search.start q word), limit, true⟩
      steps).1 = none
  · right
    rw [if_pos closed, Move.run_eq_of_ended closed (congrArg Prod.fst report), report,
      List.reverse_reverse]
  · exact .inl (if_neg closed)

/-- When the search for a word comes to an end, so does its report, whatever the limit is: it has
written the lines of the results up to the limit, or that of a miss if there are no such lines,
which is so if there are no results or the limit is zero. -/
theorem writeResults_ended (q : Query) (word : String)
    (ended : (Move.run (Search.step q) (Search.start q word) k).1 = none) (limit : Quota)
    (before : ByteArray) :
    let results := (Move.run (Search.step q) (Search.start q word) k).2.reverse
    let shown := limit.first results
    let lines := if shown = [] then [missLine word] else shown.map (resultLine word)
    (∃ steps, (writeResults { written := before } q word limit steps).isSome) ∧
      (∀ steps, writeResults { written := before } q word limit steps = none ∨
        writeResults { written := before } q word limit steps =
          some { written := before ++ (String.join lines).toUTF8 }) ∧
      (shown = [] ↔ results = [] ∨ limit = some 0) ∧
      ∀ r ∈ results, ∃ symbols cost,
        r = ⟨if q.options.tokenizeOutputs then .tokens symbols else .text ("".intercalate symbols),
          if q.options.weights then some cost else none⟩ ∧
        resultLine word r = word ++ "\t" ++
          (if q.options.tokenizeOutputs then " " else "").intercalate symbols ++
          (if q.options.weights then "\t" ++ cost.text else "") ++ "\n" := by
  intro results shown lines
  have form : resultLines word true shown = lines := by
    simp [resultLines, lines]
  have report := ResultReport.run_report word limit true ended
  refine ⟨⟨k + 1, ?_⟩, fun steps => ?_, Quota.first_eq_nil_iff, fun r mem => ?_⟩
  · rw [writeResults, ResultReport.start, Sink.drain_eq_run, report, if_pos rfl]
    rfl
  · rw [← form]
    exact writeResults_eq ended limit before steps
  · exact exists_resultLine_eq (List.mem_reverse.mp mem)

/-- Of three results the two that are wanted are written, behind what is written already. -/
theorem writeResults_ended_weighted :
    let one : Weight := ⟨0x3FF0000000000000⟩
    let two : Weight := ⟨0x4000000000000000⟩
    let a := ((Automaton.ofLabel (.pair "a" "b") .zero).addArc 0 ⟨1, .pair "a" "c", two⟩).addArc 0
      ⟨1, .pair "a" "d", one⟩
    let q : Query := ⟨a, .generate, { weights := true, tokenizeOutputs := true }⟩
    (Move.run (Search.step q) (Search.start q "a") 8).1 = none ∧
      (Move.run (Search.step q) (Search.start q "a") 8).2.length = 3 ∧
      ∃ steps, writeResults { written := "x\n".toUTF8 } q "a" (some 2) steps =
        some { written := "x\n".toUTF8 ++ "a\tb\t0.0\na\td\t1.0\n".toUTF8 } := by
  intro one two a q
  have ended : (Move.run (Search.step q) (Search.start q "a") 8).1 = none :=
    Option.isNone_iff_eq_none.mp (by decide +kernel)
  refine ⟨ended, by decide +kernel, ?_⟩
  obtain ⟨⟨steps, closed⟩, same, -⟩ := writeResults_ended q "a" ended (some 2) "x\n".toUTF8
  refine ⟨steps, ?_⟩
  rcases same steps with waits | written
  · rw [waits] at closed
    cases closed
  · rw [written]
    refine congrArg (fun lines : String =>
      some ({ written := "x\n".toUTF8 ++ lines.toUTF8 } : Sink)) ?_
    decide +kernel

/-- The one result is found, but none is wanted: the line says that there is none. -/
theorem writeResults_none_wanted :
    let q : Query := { automaton := .ofLabel (.identity "a") .zero, direction := .generate }
    q.results "a" 5 2 = some [⟨.text "a", none⟩] ∧
      (writeResults {} q "a" (some 0) 5).map Sink.written = some "a\t+?\n".toUTF8 := by
  decide +kernel

end Transducer.Command
