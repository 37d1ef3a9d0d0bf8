import Transducer.Command.Options
/-!
Options of argument lists that follow one another. An argument is read in the same way whatever has
been read before, so what a list says is added to what the list in front of it says.
-/

namespace Transducer.Command.Options

variable {o p : Options} {front back : List String}

/-- Options with those that are given behind them: words follow words, a value that is given again
counts, and a switch stays as it was turned. -/
def and (o more : Options) : Options where
  lexicon := more.lexicon.or o.lexicon
  start := more.start.or o.start
  apply :=
    { weights := o.apply.weights || more.apply.weights
      tokenizeOutputs := o.apply.tokenizeOutputs || more.apply.tokenizeOutputs
      obeyFlags := o.apply.obeyFlags && more.apply.obeyFlags
      printFlags := o.apply.printFlags || more.apply.printFlags }
  limit := more.limit.or o.limit
  format := more.format.or o.format
  words := o.words ++ more.words

theorem and_default (o : Options) : o.and {} = o := by
  simp [and]

/-- A value is set among the options that come last. -/
theorem set_and (o p : Options) (option : Valued) (value : String) :
    (o.and p).set option value = (p.set option value).map o.and := by
  cases option with
  | lexicon => rfl
  | start => rfl
  | format => rfl
  | limit =>
    rw [set, set]
    cases readLimit? value with
    | none => rfl
    | some n => rfl

/-- A switch is turned, and a word added, among the options that come last. -/
theorem single_and (o p : Options) (argument : String) :
    (o.and p).single argument = (p.single argument).map o.and := by
  fun_cases single p argument with
  | case1 | case2 | case3 | case4 | case5 | case6 => simp [single, and, Except.map]
  | case7 | case8 => rfl
  | case9 argument => simp_all [single, Except.map]
  | case10 argument => simp_all [single, and, Except.map]

theorem readFrom_joined {argument value : String} {option : Valued} {rest : List String}
    (joined : joined? argument = some (option, value)) (o : Options) :
    readFrom o (argument :: rest) = o.set option value >>= (readFrom · rest) := by
  rw [readFrom.eq_def]
  simp only [joined]

theorem readFrom_valued {argument value : String} {option : Valued} {rest : List String}
    (apart : joined? argument = none) (named : ofName? argument = some option) (o : Options) :
    readFrom o (argument :: value :: rest) = o.set option value >>= (readFrom · rest) := by
  rw [readFrom.eq_def]
  simp only [apart, named]

theorem readFrom_missing {argument : String} {option : Valued} (apart : joined? argument = none)
    (named : ofName? argument = some option) (o : Options) :
    readFrom o [argument] = .error (.missingValue argument) := by
  rw [readFrom.eq_def]
  simp only [apart, named]

theorem readFrom_single {argument : String} {rest : List String} (apart : joined? argument = none)
    (plain : ofName? argument = none) (o : Options) :
    readFrom o (argument :: rest) = o.single argument >>= (readFrom · rest) := by
  rw [readFrom.eq_def]
  simp only [apart, plain]

/-- What has been read before does not change how arguments are read. -/
theorem readFrom_and (o p : Options) (arguments : List String) :
    readFrom (o.and p) arguments = (readFrom p arguments).map o.and := by
  have onward {first : Except OptionError Options} {rest : List String}
      (ih : ∀ next, readFrom (o.and next) rest = (readFrom next rest).map o.and) :
      (first.map o.and >>= (readFrom · rest)) = (first >>= (readFrom · rest)).map o.and := by
    cases first with
    | error e => rfl
    | ok next => exact ih next
  fun_induction readFrom p arguments with
  | case1 p => rfl
  | case2 p argument rest option value joined ih =>
    rw [readFrom_joined joined, set_and]
    exact onward ih
  | case3 p argument apart option value rest named ih =>
    rw [readFrom_valued apart named, set_and]
    exact onward ih
  | case4 p argument apart option named => exact readFrom_missing apart named _
  | case5 p argument apart rest plain ih =>
    rw [readFrom_single apart plain, single_and]
    exact onward ih

/-- Arguments that are read to the end are read before those behind them. -/
theorem readFrom_append (h : readFrom o front = .ok p) (back : List String) :
    readFrom o (front ++ back) = readFrom p back := by
  have onward {first : Except OptionError Options} {rest : List String}
      (ih : ∀ next, readFrom next rest = .ok p → readFrom next (rest ++ back) = readFrom p back)
      (h : (first >>= (readFrom · rest)) = .ok p) :
      (first >>= (readFrom · (rest ++ back))) = readFrom p back := by
    cases first with
    | error e => cases h
    | ok next => exact ih next h
  fun_induction readFrom o front with
  | case1 o =>
    obtain rfl := Except.ok.inj h
    rfl
  | case2 o argument rest option value joined ih =>
    rw [List.cons_append, readFrom_joined joined]
    exact onward ih h
  | case3 o argument apart option value rest named ih =>
    rw [List.cons_append, List.cons_append, readFrom_valued apart named]
    exact onward ih h
  | case4 o argument apart option named => cases h
  | case5 o argument apart rest plain ih =>
    rw [List.cons_append, readFrom_single apart plain]
    exact onward ih h

/-- Once a list of arguments can be read, a list behind it fails as it does alone, and gives the
options of both if it does not. -/
theorem read_append (h : read front = .ok o) (back : List String) :
    read (front ++ back) = (read back).map o.and := by
  rw [read, readFrom_append h back]
  have alone := readFrom_and o {} back
  rwa [and_default] at alone

/-- The first list ends with the value of an option, and the second one has it for a value. -/
theorem read_append_dashed :
    read ["-w", "cat", "-n", "+3", "-s", "-l"] =
        .ok { apply := { weights := true }, limit := some 3, start := some "-l", words := ["cat"] } ∧
      read ["--no-flags", "--limit=7", "-f", "-w", "-"] =
        .ok { apply := { obeyFlags := false }, limit := some 7, format := some "-w", words := ["-"] } ∧
      read (["-w", "cat", "-n", "+3", "-s", "-l"] ++ ["--no-flags", "--limit=7", "-f", "-w", "-"]) =
        .ok { apply := { weights := true, obeyFlags := false }, limit := some 7, start := some "-l",
              format := some "-w", words := ["cat", "-"] } := by
  have front : read ["-w", "cat", "-n", "+3", "-s", "-l"] =
      .ok { apply := { weights := true }, limit := some 3, start := some "-l",
            words := ["cat"] } := by rfl
  have back : read ["--no-flags", "--limit=7", "-f", "-w", "-"] =
      .ok { apply := { obeyFlags := false }, limit := some 7, format := some "-w",
            words := ["-"] } := by rfl
  refine ⟨front, back, ?_⟩
  rw [read_append front, back]
  rfl

end Transducer.Command.Options
