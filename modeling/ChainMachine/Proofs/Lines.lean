import ChainMachine.Machine

/-!
# The lines of a script

A script cut into its lines all at once, and a run as a walk through them.

* `Source.cut`: the pieces of a script, each with its newline;
* `Source.induction_lines`: bytes taken line by line;
* `Source.lines`: those that a reader delivers before it ends or fails;
* `Source.readLine_cases`: reading a line takes off the first of them;
* `Machine.follow`: the effect of given lines, one after another;
* `Machine.runFrom_eq_follow`: executing a source is executing its lines.
-/

namespace ChainMachine

namespace Source

/-- Bytes cut after every newline.  Only the last piece can do without one. -/
def cut : List UInt8 → List (List UInt8)
  | [] => []
  | b :: bytes =>
    if b = newline then [b] :: cut bytes
    else
      match cut bytes with
      | [] => [[b]]
      | piece :: pieces => (b :: piece) :: pieces

/-- The lines that can be read.  A reader that fails loses the one it has not finished. -/
def lines (s : Source) : List (List UInt8) :=
  match s.failure with
  | none => cut s.bytes
  | some _ => (cut s.bytes).filter fun piece => piece.getLast? = some newline

theorem cut_append {line : List UInt8} (h : newline ∉ line) (rest : List UInt8) :
    cut (line ++ newline :: rest) = (line ++ [newline]) :: cut rest := by
  induction line with
  | nil => simp [cut]
  | cons b line ih =>
    rw [List.mem_cons, not_or] at h
    rw [List.cons_append, cut, if_neg (Ne.symm h.1), ih h.2]
    rfl

theorem cut_of_notMem {line : List UInt8} (h : newline ∉ line) (hne : line ≠ []) :
    cut line = [line] := by
  induction line with
  | nil => exact absurd rfl hne
  | cons b line ih =>
    rw [List.mem_cons, not_or] at h
    rw [cut, if_neg (Ne.symm h.1)]
    by_cases hline : line = []
    · rw [hline]
      rfl
    · rw [ih h.2 hline]

/-- Bytes are taken line by line: the last line, and a line before others. -/
@[elab_as_elim]
theorem induction_lines {P : List UInt8 → Prop} (last : ∀ line, newline ∉ line → P line)
    (step : ∀ line rest, newline ∉ line → P rest → P (line ++ newline :: rest))
    (script : List UInt8) : P script := by
  induction hn : script.length using Nat.strongRecOn generalizing script with
  | ind n ih =>
    by_cases hmem : newline ∈ script
    · obtain ⟨line, rest, rfl, hline⟩ := List.eq_append_cons_of_mem hmem
      rw [List.length_append, List.length_cons] at hn
      exact step line rest hline (ih rest.length (by omega) rest rfl)
    · exact last script hmem

theorem cut_ne_nil (b : UInt8) (bytes : List UInt8) : cut (b :: bytes) ≠ [] := by
  unfold cut
  split
  · exact List.cons_ne_nil _ _
  · split <;> exact List.cons_ne_nil _ _

/-- There are no more pieces than bytes. -/
theorem length_cut_le (bytes : List UInt8) : (cut bytes).length ≤ bytes.length := by
  induction bytes with
  | nil => exact Nat.le_refl 0
  | cons b bytes ih =>
    unfold cut
    split
    · exact Nat.succ_le_succ ih
    · split
      · exact Nat.succ_le_succ (Nat.zero_le _)
      · next hcut =>
        rw [hcut] at ih
        exact Nat.le_succ_of_le ih

theorem length_lines_le (s : Source) : s.lines.length ≤ s.bytes.length := by
  unfold lines
  split
  · exact length_cut_le s.bytes
  · exact Nat.le_trans (List.length_filter_le _ _) (length_cut_le s.bytes)

/-- Reading takes off the first line and leaves the others, or there is none and the source ends
in its own way. -/
theorem readLine_cases (s : Source) :
    (∃ line rest, s.readLine = .line line rest ∧ s.lines = line :: rest.lines ∧
      rest.failure = s.failure) ∨
    (s.lines = [] ∧ s.readLine = match s.failure with
      | none => .done
      | some text => .failed text) := by
  obtain ⟨bytes, failure⟩ := s
  by_cases hmem : newline ∈ bytes
  · obtain ⟨line, rest, rfl, hline⟩ := List.eq_append_cons_of_mem hmem
    refine .inl ⟨_, _, readLine_append hline rest failure, ?_, rfl⟩
    cases failure with
    | none => exact cut_append hline rest
    | some text => simp [lines, cut_append hline]
  · cases failure with
    | some text =>
      refine .inr ⟨?_, readLine_of_failure hmem text⟩
      by_cases hne : bytes = []
      · rw [hne]
        rfl
      · have hlast : bytes.getLast? ≠ some newline := by
          intro h
          exact hmem (List.mem_of_getLast? h)
        simp [lines, cut_of_notMem hmem hne, hlast]
    | none =>
      by_cases hne : bytes = []
      · rw [hne]
        exact .inr ⟨rfl, rfl⟩
      · exact .inl ⟨_, _, readLine_last hmem hne, cut_of_notMem hmem hne, rfl⟩

end Source

namespace Machine

/-- Execute lines, the first of which has the given number, until one fails or ends the run.  After
the last the reader fails with the given text, if there is one. -/
def follow (failure : Option String) (m : Machine) (number : Nat) (sink : Sink) :
    List (List UInt8) → Checked (Outcome Int32)
  | [] =>
    match failure with
    | none => .ok { result := .ok 0, machine := m, sink }
    | some text => .ok { result := .error (.transfer text), machine := m, sink }
  | line :: lines => do
    let o ← m.executeLine number (Utf8.decode line) sink
    afterLine o fun m sink => m.follow failure (number + 1) sink lines

/-- Executing a source is executing its lines. -/
theorem runFrom_eq_follow (m : Machine) (number : Nat) (source : Source) (sink : Sink) :
    m.runFrom number source sink = m.follow source.failure number sink source.lines := by
  -- every line leaves fewer lines to be read
  induction hn : source.lines generalizing m number source sink with
  | nil =>
    rcases source.readLine_cases with ⟨line, rest, -, hlines, -⟩ | ⟨-, hread⟩
    · rw [hlines] at hn
      cases hn
    · cases hfailure : source.failure with
      | none =>
        rw [hfailure] at hread
        exact runFrom_of_done hread m number sink
      | some text =>
        rw [hfailure] at hread
        exact runFrom_of_failed hread m number sink
  | cons line lines ih =>
    rcases source.readLine_cases with ⟨line', rest, hread, hlines, hfailure⟩ | ⟨hlines, -⟩
    · rw [hlines] at hn
      cases hn
      rw [runFrom_of_line hread, follow, ← hfailure]
      congr 1
      funext o
      congr 1
      funext m sink
      exact ih m (number + 1) rest sink rfl
    · rw [hlines] at hn
      cases hn

end Machine

end ChainMachine
