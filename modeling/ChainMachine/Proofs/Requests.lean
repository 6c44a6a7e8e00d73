import ChainMachine.CommandLine.Arguments
import ChainMachine.CommandLine.Folder
import ChainMachine.CommandLine.Report
import ChainMachine.Proofs.Ending

/-!
# Requests for a run

What the program prints is what the run prints that the arguments ask for, and a failure is
reported behind it.

* `Settings.exists_report`: what is reported on a script;
* `Request.IsVerbose`, `Request.Ordinary`: the arguments that ask for a script to be run, in
  whatever order they stand (`Request.Ordinary.perm`);
* `Request.ReadsOrdinary`: parsers that read them so;
* `Request.report_ordinary`: what the program answers to them;
* `Request.ofRest_append`, `Request.readsOrdinary_ofArguments`: a parser that takes in options one
  after another.
-/

namespace ChainMachine

variable {ε : Type} {e : Envelope ε} {load : List UInt8 → Except String Source}

namespace Settings

/-- A script that cannot be opened is reported with nothing printed. -/
theorem report_of_closed (he : e.Faithful) {settings : Settings} {cause : String}
    (h : load settings.path = .error cause) :
    settings.report e load = .ok
      { status := 1, stdout := []
        stderr := "Error: Can't open file " ++ Utf8.decode settings.path ++ "\n" } := by
  have hexecute : settings.execute e load =
      .ok (.error (e.wrap (.cannotOpen settings.path cause)), []) := by
    rw [execute, h]
    rfl
  rw [report, hexecute, Checked.ok_bind]
  dsimp only
  rw [Report.ofResult_wrap he]
  rfl

/-- A script that is run is reported with what the run printed and came to. -/
theorem report_of_run {settings : Settings} {source : Source} {o : Outcome Int32}
    (h : load settings.path = .ok source)
    (hrun : (Machine.fresh { initialMode := settings.initialMode } .builtin).run source {} =
      .ok o) :
    settings.report e load =
      .ok (.ofResult e o.sink.written.toList (o.result.mapError e.wrap)) := by
  have hexecute : settings.execute e load =
      .ok (o.result.mapError e.wrap, o.sink.written.toList) := by
    rw [execute, h]
    dsimp only
    rw [hrun]
    rfl
  rw [report, hexecute]
  rfl

/-- There is a report on every script.  If it cannot be opened, then nothing else is reported; if it
can, then what the run printed and came to. -/
theorem exists_report (he : e.Faithful) (load : List UInt8 → Except String Source)
    (settings : Settings) :
    ∃ report, settings.report e load = .ok report ∧
      (∀ cause, load settings.path = .error cause →
        report = { status := 1, stdout := []
                   stderr := "Error: Can't open file " ++ Utf8.decode settings.path ++ "\n" }) ∧
      ∀ source, load settings.path = .ok source →
        ∃ o, (Machine.fresh { initialMode := settings.initialMode } .builtin).run source {} =
            .ok o ∧
          report.stdout = o.sink.written.toList ∧
          (∀ code, o.result = .ok code → report.status = 0 ∧ report.stderr = "") ∧
          ∀ diagnostic, o.result = .error diagnostic →
            report.status = 1 ∧ report.stderr = diagnostic.message ++ "\n" := by
  cases hload : load settings.path with
  | error cause =>
    refine ⟨_, report_of_closed he hload, fun _ _ => rfl, ?_⟩
    rintro source ⟨⟩
  | ok source =>
    obtain ⟨os, o, -, hrun, -⟩ := Machine.exists_run_builtin
      (.fresh { initialMode := settings.initialMode } .builtin) source {}
    refine ⟨_, report_of_run hload hrun, by simp, ?_⟩
    rintro _ ⟨⟩
    refine ⟨o, hrun, ?_⟩
    cases hresult : o.result with
    | error diagnostic =>
      have hfailed : Report.ofResult e o.sink.written.toList
          ((Except.error diagnostic : Except Diagnostic Int32).mapError e.wrap) =
            { status := 1, stdout := o.sink.written.toList
              stderr := diagnostic.message ++ "\n" } :=
        Report.ofResult_wrap he _ diagnostic
      rw [hfailed]
      refine ⟨rfl, by simp, ?_⟩
      rintro _ ⟨⟩
      exact ⟨rfl, rfl⟩
    | ok code =>
      refine ⟨rfl, ?_, by simp⟩
      rintro _ ⟨⟩
      exact ⟨Machine.exitCode_eq_zero hrun hresult, rfl⟩

end Settings

namespace Request

/-- The option that asks for the queue mode. -/
def queueOption : List UInt8 := Utf8.encode "--queue"

/-- An option that asks for more to be logged: the long one, or one letter `v` or more of them
behind a `-`. -/
def IsVerbose (argument : List UInt8) : Prop :=
  argument = Utf8.encode "--verbose" ∨ ∃ more, argument = 0x2D :: 0x76 :: List.replicate more 0x76

/-- Arguments that ask for a script to be run.  Besides its path, which is not taken for an option,
there are options only, and not two of them ask for the queue mode. -/
structure Ordinary (path : List UInt8) (arguments : List (List UInt8)) : Prop where
  nonempty : path ≠ []
  unsigned : path.head? ≠ some 0x2D
  arranged : ∃ before after, arguments = before ++ path :: after ∧
    ∀ option ∈ before ++ after, option = queueOption ∨ IsVerbose option
  queue_once : arguments.count queueOption ≤ 1

/-- The order of the arguments makes no difference. -/
theorem Ordinary.perm {path : List UInt8} {arguments others : List (List UInt8)}
    (h : Ordinary path arguments) (hperm : others.Perm arguments) : Ordinary path others := by
  obtain ⟨hne, hsign, ⟨before, after, rfl, hoptions⟩, honce⟩ := h
  obtain ⟨earlier, later, rfl⟩ := List.append_of_mem (hperm.mem_iff.2 (by simp : path ∈ _))
  have hrest : (earlier ++ later).Perm (before ++ after) :=
    (List.perm_middle.symm.trans (hperm.trans List.perm_middle)).cons_inv
  refine ⟨hne, hsign, ⟨earlier, later, rfl, fun option hoption => ?_⟩, ?_⟩
  · exact hoptions option (hrest.mem_iff.1 hoption)
  · rw [hperm.count_eq]
    exact honce

/-- Such arguments are read as a request for the script with their path to be run, in the queue mode
exactly when its option is among them. -/
def ReadsOrdinary (parse : List (List UInt8) → Request) : Prop :=
  ∀ (path : List UInt8) (arguments : List (List UInt8)), Ordinary path arguments →
    ∃ verbosity, parse arguments = .run { path, queue := queueOption ∈ arguments, verbosity }

/-! ### A parser that takes in one argument after another -/

section

variable {options : Options} {path : Option (List UInt8)} {argument : List UInt8}
  {rest : List (List UInt8)}

theorem ofRest_queue (h : options.queue = false) :
    ofRest options path (queueOption :: rest) =
      ofRest { options with queue := true } path rest := by
  conv => lhs; unfold ofRest
  rw [if_neg (by decide), if_pos queueOption.eq_def, h, if_neg Bool.false_ne_true]

theorem ofLetters_replicate (options : Options) (next : Options → Request) (more : Nat) :
    ∃ verbosity,
      ofLetters options next (List.replicate more 0x76) = next { options with verbosity } := by
  induction more generalizing options with
  | zero => exact ⟨options.verbosity, rfl⟩
  | succ more ih =>
    rw [List.replicate_succ, ofLetters, if_pos rfl]
    exact ih { options with verbosity := options.verbosity + 1 }

theorem ofRest_verbose (h : IsVerbose argument) :
    ∃ verbosity, ofRest options path (argument :: rest) =
      ofRest { options with verbosity } path rest := by
  rcases h with rfl | ⟨more, rfl⟩
  · refine ⟨options.verbosity + 1, ?_⟩
    conv => lhs; unfold ofRest
    rw [if_neg (by decide), if_neg (by decide), if_pos rfl]
  · have hne {long : String} (hlong : (Utf8.encode long)[1]? = some 0x2D) :
        (0x2D :: 0x76 :: List.replicate more 0x76) ≠ Utf8.encode long := by
      intro heq
      rw [← heq] at hlong
      cases hlong
    obtain ⟨verbosity, hletters⟩ :=
      ofLetters_replicate options (fun options => ofRest options path rest) (more + 1)
    refine ⟨verbosity, ?_⟩
    conv => lhs; unfold ofRest
    rw [if_neg (hne (by decide)), if_neg (hne (by decide)), if_neg (hne (by decide)),
      if_neg (hne (by decide)), if_neg (hne (by decide))]
    exact hletters

/-- An argument that is not taken for an option is the path, unless there has been one. -/
theorem ofRest_path (hne : argument ≠ []) (hsign : argument.head? ≠ some 0x2D) :
    ofRest options none (argument :: rest) = ofRest options (some argument) rest := by
  have hlong {long : String} (hhead : (Utf8.encode long).head? = some 0x2D) :
      argument ≠ Utf8.encode long := by
    rintro rfl
    exact hsign hhead
  conv => lhs; unfold ofRest
  rw [if_neg (hlong (by decide)), if_neg (hlong (by decide)), if_neg (hlong (by decide)),
    if_neg (hlong (by decide)), if_neg (hlong (by decide))]
  split
  · exact absurd rfl hne
  · exact absurd rfl hsign
  · exact absurd rfl hsign
  · rfl

/-- Options that come first are taken in one after another. -/
theorem ofRest_append {given : List (List UInt8)}
    (hgiven : ∀ option ∈ given, option = queueOption ∨ IsVerbose option)
    (honce : given.count queueOption + (if options.queue then 1 else 0) ≤ 1) :
    ∃ verbosity, ofRest options path (given ++ rest) =
      ofRest { queue := options.queue || given.contains queueOption, verbosity } path rest := by
  induction given generalizing options with
  | nil => exact ⟨options.verbosity, by simp⟩
  | cons option given ih =>
    rw [List.forall_mem_cons] at hgiven
    rw [List.cons_append]
    by_cases hqueue : option = queueOption
    · subst hqueue
      rw [List.count_cons_self] at honce
      have hfirst : options.queue = false := by
        cases hfirst : options.queue <;> simp_all
      obtain ⟨verbosity, hih⟩ := @ih { options with queue := true } hgiven.2
        (by simp only [if_true]; omega)
      exact ⟨verbosity, by rw [ofRest_queue hfirst, hih]; simp⟩
    · rw [List.count_cons_of_ne hqueue] at honce
      obtain ⟨count, hcount⟩ :=
        @ofRest_verbose options path option (given ++ rest) (hgiven.1.resolve_left hqueue)
      obtain ⟨verbosity, hih⟩ := @ih { options with verbosity := count } hgiven.2 honce
      exact ⟨verbosity, by rw [hcount, hih]; simp [Ne.symm hqueue]⟩

end

/-- The options before the path are taken in, then the path, then the options after it. -/
theorem readsOrdinary_ofArguments : ReadsOrdinary ofArguments := by
  intro path arguments h
  obtain ⟨hne, hsign, ⟨before, after, rfl, hoptions⟩, honce⟩ := h
  have hpath : path ≠ queueOption := by
    rintro rfl
    exact hsign (by decide)
  rw [List.forall_mem_append] at hoptions
  rw [List.count_append, List.count_cons_of_ne hpath] at honce
  have hmore : after.count queueOption + (if before.contains queueOption then 1 else 0) ≤ 1 := by
    split
    · next hmem =>
      have hpos := List.count_pos_iff.2 (List.contains_iff_mem.1 hmem)
      omega
    · omega
  obtain ⟨count, hbefore⟩ := @ofRest_append {} none (path :: after) before hoptions.1
    (by simp only [Bool.false_eq_true, if_false]; omega)
  obtain ⟨verbosity, hafter⟩ := @ofRest_append
    { queue := before.contains queueOption, verbosity := count } (some path) [] after hoptions.2
    hmore
  rw [List.append_nil] at hafter
  refine ⟨verbosity, ?_⟩
  rw [ofArguments, hbefore, Bool.false_or, ofRest_path hne hsign, hafter]
  simp [ofRest, ofOperands, ofOptions, hpath.symm]

/-! ### The answer -/

/-- How much is to be logged makes no difference to the report. -/
theorem report_eq_of_ordinary {parse : List (List UInt8) → Request} (hparse : ReadsOrdinary parse)
    {path : List UInt8} {arguments : List (List UInt8)} (h : Ordinary path arguments) :
    (parse arguments).report e load =
      Settings.report { path, queue := queueOption ∈ arguments, verbosity := 0 } e load := by
  obtain ⟨verbosity, harguments⟩ := hparse path arguments h
  rw [harguments]
  rfl

/-- The program answers every list of arguments that asks for a script to be run, whatever parser
reads such a list so, and whatever keeps a diagnostic on its way through the program.  If the script
cannot be opened, then it prints nothing and says so.  If it can, then it prints what a run of the
built-in handlers prints, which starts in the queue mode exactly when its option is there; it
succeeds when the run does, without another word, and when the run fails it reports the diagnostic.
It answers alike to the same arguments in another order, and to all such lists that have the path in
common and agree on the option, however much is to be logged. -/
theorem report_ordinary {parse : List (List UInt8) → Request} (hparse : ReadsOrdinary parse)
    {ε : Type} {e : Envelope ε} (he : e.Faithful) (load : List UInt8 → Except String Source)
    {path : List UInt8} {arguments : List (List UInt8)} (h : Ordinary path arguments) :
    ∃ report, (parse arguments).report e load = .ok report ∧
      (∀ cause, load path = .error cause →
        report = { status := 1, stdout := []
                   stderr := "Error: Can't open file " ++ Utf8.decode path ++ "\n" }) ∧
      (∀ source, load path = .ok source →
        ∃ o, (Machine.fresh
            { initialMode := if queueOption ∈ arguments then .queue else .stack } .builtin).run
              source {} = .ok o ∧
          report.stdout = o.sink.written.toList ∧
          (∀ code, o.result = .ok code → report.status = 0 ∧ report.stderr = "") ∧
          ∀ diagnostic, o.result = .error diagnostic →
            report.status = 1 ∧ report.stderr = diagnostic.message ++ "\n") ∧
      (∀ others, others.Perm arguments → (parse others).report e load = .ok report) ∧
      ∀ others, Ordinary path others → (queueOption ∈ others ↔ queueOption ∈ arguments) →
        (parse others).report e load = .ok report := by
  obtain ⟨report, hreport, hclosed, hopened⟩ := Settings.exists_report he load
    { path, queue := queueOption ∈ arguments, verbosity := 0 }
  have hothers (others : List (List UInt8)) (h' : Ordinary path others)
      (hsame : queueOption ∈ others ↔ queueOption ∈ arguments) :
      (parse others).report e load = .ok report := by
    rw [report_eq_of_ordinary hparse h', ← hreport]
    simp only [hsame]
  refine ⟨report, hothers arguments h Iff.rfl, hclosed, fun source hsource => ?_, ?_, hothers⟩
  · obtain ⟨o, hrun, hreported⟩ := hopened source hsource
    rw [Settings.initialMode] at hrun
    simp only [decide_eq_true_eq] at hrun
    exact ⟨o, hrun, hreported⟩
  · intro others hperm
    exact hothers others (h.perm hperm) hperm.mem_iff

/-- Two letters and a long option ask for more to be logged, on either side of the path.  In the
queue mode both values printed are the same, and a third `pop` finds nothing; what has been printed
by then stays.  With the option alone before the path the answer is the same. -/
theorem report_ordinary_of_queue :
    ∃ (folder : Folder) (report : Report),
      folder = .ofFiles
        [(Utf8.encode "a.m", Utf8.encode "push 1\npush 2\npint\npop\npint\npop\npop\n")] ∧
      ReadsOrdinary ofArguments ∧ Failure.envelope.Faithful ∧
      Ordinary (Utf8.encode "a.m") (["-vv", "a.m", "--queue", "--verbose"].map Utf8.encode) ∧
      (ofArguments (["-vv", "a.m", "--queue", "--verbose"].map Utf8.encode)).report
        Failure.envelope folder.source? = .ok report ∧
      report = { status := 1, stdout := Utf8.encode "2\n2\n"
                 stderr := "L7: can't pop an empty stack\n" } ∧
      (ofArguments (["--queue", "a.m"].map Utf8.encode)).report Failure.envelope folder.source? =
        .ok report := by
  let folder : Folder := .ofFiles
    [(Utf8.encode "a.m", Utf8.encode "push 1\npush 2\npint\npop\npint\npop\npop\n")]
  have hletters : IsVerbose (Utf8.encode "-vv") := .inr ⟨1, by decide⟩
  have hlong : IsVerbose (Utf8.encode "--verbose") := .inl rfl
  have hordinary : Ordinary (Utf8.encode "a.m")
      (["-vv", "a.m", "--queue", "--verbose"].map Utf8.encode) :=
    ⟨by decide, by decide,
      ⟨[Utf8.encode "-vv"], [queueOption, Utf8.encode "--verbose"], rfl, by simp [hletters, hlong]⟩,
      by decide⟩
  have hshort : Ordinary (Utf8.encode "a.m") (["--queue", "a.m"].map Utf8.encode) :=
    ⟨by decide, by decide, ⟨[queueOption], [], rfl, by simp⟩, by decide⟩
  have hload : folder.source? (Utf8.encode "a.m") = .ok
      { bytes := Utf8.encode "push 1\npush 2\npint\npop\npint\npop\npop\n" } := by
    decide +kernel
  obtain ⟨report, hreport, -, hrun, -, hothers⟩ := report_ordinary readsOrdinary_ofArguments
    Failure.faithful_envelope folder.source? hordinary
  obtain ⟨o, ho, hstdout, -, herror⟩ := hrun _ hload
  have heval : ((Machine.fresh { initialMode := .queue } .builtin).run
      { bytes := Utf8.encode "push 1\npush 2\npint\npop\npint\npop\npop\n" } {}).map
        (fun o => (o.result, o.sink.written.toList)) =
          .ok (.error (.underflow 7 "pop" 1), Utf8.encode "2\n2\n") := by
    decide +kernel
  rw [if_pos (by decide)] at ho
  rw [ho, Checked.map_ok, Except.ok.injEq, Prod.mk.injEq] at heval
  obtain ⟨hstatus, hstderr⟩ := herror _ heval.1
  refine ⟨folder, report, rfl, readsOrdinary_ofArguments, Failure.faithful_envelope, hordinary,
    hreport, ?_, hothers _ hshort (by decide)⟩
  obtain ⟨status, stdout, stderr⟩ := report
  simp only at hstdout hstatus hstderr
  rw [hstdout, hstatus, hstderr, heval.2]
  rfl

end Request

end ChainMachine
