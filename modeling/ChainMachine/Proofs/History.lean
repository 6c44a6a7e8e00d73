import ChainMachine.Proofs.Stepping

/-!
# What the lines of a run come to

Where lines are executed one after another, each of them comes to an outcome, which says where
the next one begins.  Only the last can be other than to proceed.

* `Machine.History`: lines, and what each of them comes to that is executed;
* `Machine.reached`: what they come to together;
* `Machine.stepThrough_eq_ok_iff`: stepping through lines has a history, and comes to what the
  history reaches;
* `Machine.History.induct`: what every line preserves holds after every line;
* `Machine.History.exists_last`, `Machine.History.reached_eq_of_mem`: the line that did not proceed,
  if there is one, is the last;
* `Machine.History.exists_line_of_append`: where each of the lines starts from;
* `Machine.History.of_take_eq`: the lines after it might as well have been others;
* `Machine.History.length_eq_of_proceed`: where no line stops, every line is executed;
* `Machine.History.take`: the first lines come to the first outcomes.
-/

namespace ChainMachine

namespace Machine

/-- Numbered lines, and what each of them comes to, up to the first that fails or asks for the
end. -/
inductive History : Machine → Sink → List (Nat × String) → List (Outcome Flow) → Prop
  | nil {m : Machine} {sink : Sink} : History m sink [] []
  | stop {m : Machine} {sink : Sink} {number : Nat} {text : String} {lines : List (Nat × String)}
    {o : Outcome Flow} (executed : m.executeLine number text sink = .ok o)
    (stops : o.result ≠ .ok .proceed) : History m sink ((number, text) :: lines) [o]
  | step {m : Machine} {sink : Sink} {number : Nat} {text : String} {lines : List (Nat × String)}
    {o : Outcome Flow} {os : List (Outcome Flow)}
    (executed : m.executeLine number text sink = .ok o) (proceeds : o.result = .ok .proceed)
    (rest : History o.machine o.sink lines os) : History m sink ((number, text) :: lines) (o :: os)

/-- What lines with these outcomes come to together, the machine and the sink being these before
the first. -/
def reached (m : Machine) (sink : Sink) (os : List (Outcome Flow)) : Outcome Flow :=
  os.getLastD { result := .ok .proceed, machine := m, sink }

variable {m : Machine} {sink : Sink} {lines : List (Nat × String)} {o p : Outcome Flow}
  {os : List (Outcome Flow)}

@[simp] theorem reached_nil (m : Machine) (sink : Sink) :
    m.reached sink [] = { result := .ok .proceed, machine := m, sink } := rfl

@[simp] theorem reached_concat (m : Machine) (sink : Sink) (os : List (Outcome Flow))
    (o : Outcome Flow) : m.reached sink (os ++ [o]) = o := by
  simp [reached, List.getLastD_eq_getLast?]

@[simp] theorem reached_singleton (m : Machine) (sink : Sink) (o : Outcome Flow) :
    m.reached sink [o] = o := rfl

theorem reached_cons (h : o.result = .ok .proceed) (m : Machine) (sink : Sink)
    (os : List (Outcome Flow)) : m.reached sink (o :: os) = o.machine.reached o.sink os := by
  obtain ⟨result, machine, sink'⟩ := o
  obtain rfl : result = .ok .proceed := h
  rw [reached, reached, List.getLastD_cons]

theorem eq_nil_or_mem_of_reached (m : Machine) (sink : Sink) (os : List (Outcome Flow)) :
    os = [] ∨ m.reached sink os ∈ os := by
  rcases List.eq_nil_or_concat os with rfl | ⟨os, o, rfl⟩
  · exact .inl rfl
  · rw [List.concat_eq_append, reached_concat]
    exact .inr (by simp)

/-- Stepping through lines has a history, and comes to what the history reaches. -/
theorem stepThrough_eq_ok_iff :
    m.stepThrough sink lines = .ok p ↔ ∃ os, m.History sink lines os ∧ m.reached sink os = p := by
  constructor
  · intro h
    induction lines generalizing m sink with
    | nil =>
      cases h
      exact ⟨[], .nil, rfl⟩
    | cons line lines ih =>
      obtain ⟨number, text⟩ := line
      obtain ⟨o, ho, h⟩ := Checked.bind_eq_ok_iff.1 h
      by_cases hproceed : o.result = .ok .proceed
      · rw [Outcome.andThen_of_proceed hproceed] at h
        obtain ⟨os, hos, rfl⟩ := ih h
        exact ⟨o :: os, .step ho hproceed hos, reached_cons hproceed m sink os⟩
      · rw [Outcome.andThen_of_ne hproceed] at h
        obtain rfl := Except.ok.inj h
        exact ⟨[o], .stop ho hproceed, rfl⟩
  · rintro ⟨os, hos, rfl⟩
    induction hos with
    | nil => rfl
    | stop executed stops =>
      rw [stepThrough, executed, Checked.ok_bind, Outcome.andThen_of_ne stops, reached_singleton]
    | step executed proceeds rest ih =>
      rw [stepThrough, executed, Checked.ok_bind, Outcome.andThen_of_proceed proceeds, ih,
        reached_cons proceeds]

namespace History

/-- What every line preserves holds after every line. -/
theorem induct (h : m.History sink lines os) {P : Machine → Sink → Prop}
    (hstep : ∀ (m : Machine) (sink : Sink) (number : Nat) (text : String) (o : Outcome Flow),
      P m sink → m.executeLine number text sink = .ok o → P o.machine o.sink)
    (hstart : P m sink) : ∀ o ∈ os, P o.machine o.sink := by
  induction h with
  | nil => simp
  | stop executed stops =>
    simpa using hstep _ _ _ _ _ hstart executed
  | step executed proceeds rest ih =>
    have hnext := hstep _ _ _ _ _ hstart executed
    simpa using ⟨hnext, ih hnext⟩

/-- Lines are executed up to one that does not proceed, which is what they come to. -/
theorem exists_last (h : m.History sink lines os)
    (hne : (m.reached sink os).result ≠ .ok .proceed) :
    ∃ earlier line later before, lines = earlier ++ line :: later ∧
      os = before ++ [m.reached sink os] ∧ before.length = earlier.length ∧
      (∀ p ∈ before, p.result = .ok .proceed) ∧ m.History sink earlier before ∧
      (m.reached sink before).machine.executeLine line.1 line.2 (m.reached sink before).sink =
        .ok (m.reached sink os) := by
  induction h with
  | nil => exact absurd rfl hne
  | stop executed stops => exact ⟨[], _, _, [], rfl, rfl, rfl, by simp, .nil, executed⟩
  | @step m sink number text lines o os executed proceeds rest ih =>
    rw [reached_cons proceeds] at hne ⊢
    obtain ⟨earlier, line, later, before, hlines, hos, hlength, hbefore, hhistory, hlast⟩ := ih hne
    refine ⟨(number, text) :: earlier, line, later, o :: before, ?_, ?_, ?_, ?_, ?_, ?_⟩
    · rw [hlines, List.cons_append]
    · rw [List.cons_append, ← hos]
    · rw [List.length_cons, List.length_cons, hlength]
    · simpa using ⟨proceeds, hbefore⟩
    · exact .step executed proceeds hhistory
    · rw [reached_cons proceeds]
      exact hlast

/-- What any of the lines starts from is what those before it come to. -/
theorem exists_line_of_append {earlier later : List (Outcome Flow)}
    (h : m.History sink lines (earlier ++ p :: later)) :
    ∃ number text,
      (m.reached sink earlier).machine.executeLine number text (m.reached sink earlier).sink =
        .ok p := by
  induction earlier generalizing m sink lines with
  | nil =>
    cases h with
    | stop executed stops => exact ⟨_, _, executed⟩
    | step executed proceeds rest => exact ⟨_, _, executed⟩
  | cons first earlier ih =>
    generalize hos : first :: earlier ++ p :: later = os at h
    cases h with
    | nil => cases hos
    | stop executed stops => simp at hos
    | step executed proceeds rest =>
      rw [List.cons_append, List.cons.injEq] at hos
      obtain ⟨rfl, rfl⟩ := hos
      rw [reached_cons proceeds]
      exact ih rest

/-- Lines after one that did not proceed might as well be others, or none. -/
theorem of_take_eq (h : m.History sink lines os)
    (hne : (m.reached sink os).result ≠ .ok .proceed) {others : List (Nat × String)}
    (htake : others.take os.length = lines.take os.length) : m.History sink others os := by
  induction h generalizing others with
  | nil => exact absurd rfl hne
  | stop executed stops =>
    cases others with
    | nil => simp at htake
    | cons other others =>
      obtain rfl : other = _ := by simpa using htake
      exact .stop executed stops
  | step executed proceeds rest ih =>
    cases others with
    | nil => simp at htake
    | cons other others =>
      rw [List.length_cons, List.take_succ_cons, List.take_succ_cons, List.cons.injEq] at htake
      rw [reached_cons proceeds] at hne
      rw [htake.1]
      exact .step executed proceeds (ih hne htake.2)

/-- Where all that is come to is to proceed, every line has been executed. -/
theorem length_eq_of_proceed (h : m.History sink lines os)
    (hproceed : (m.reached sink os).result = .ok .proceed) : os.length = lines.length := by
  induction h with
  | nil => rfl
  | stop executed stops =>
    rw [reached_singleton] at hproceed
    exact absurd hproceed stops
  | step executed proceeds rest ih =>
    rw [reached_cons proceeds] at hproceed
    rw [List.length_cons, List.length_cons, ih hproceed]

/-- The first lines come to the first outcomes. -/
theorem take (h : m.History sink lines os) (count : Nat) :
    m.History sink (lines.take count) (os.take count) := by
  induction h generalizing count with
  | nil => simpa using .nil
  | stop executed stops =>
    cases count with
    | zero => exact .nil
    | succ count =>
      rw [List.take_succ_cons, List.take_succ_cons, List.take_nil]
      exact .stop executed stops
  | step executed proceeds rest ih =>
    cases count with
    | zero => exact .nil
    | succ count => exact .step executed proceeds (ih count)

end History

end Machine

end ChainMachine
