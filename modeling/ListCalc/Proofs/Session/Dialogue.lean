import ListCalc.Command
import ListCalc.Proofs.Eval.Lines
import ListCalc.Proofs.Session.Lists

/-!
# Proofs — the dialogue reads every line once

A dialogue is a chain of rounds (`Rounds`): in each, a line is taken at the prompt and answered in
the world that the round before it left, and the next round begins in the world after that, whatever
went wrong.  Running a source can take more lines (`runLines`), and the next prompt reads behind
them.

`turn_cases` is the step lemma: a turn is a round, or it is the end, at a line that ends the
dialogue (`Ending`).  Every round takes a line, so the turns that the dialogue has are enough
(`turns_eq_rounds`), and `dialogue_reads_each_line_once` puts together what the rounds take and
print.
-/

namespace ListCalc

/-! ### Runs -/

/-- The lines that a run takes from the input: none if the source is rejected. -/
def runLines (w : World) (source : String) : List (List UInt8) :=
  match readSource w.env.arity? source with
  | .ok trees => batchLines trees w
  | .error _  => []

/-- A run takes its lines from the front of the input. -/
theorem run_takes (w : World) (source : String) :
    byteLines w.input.rest = runLines w source ++ byteLines (run w source).world.input.rest := by
  rw [run_world, runLines]
  cases readSource w.env.arity? source with
  | error errors => rfl
  | ok trees => exact interpret_takes trees w

/-- Trees one after the other only add to the outputs. -/
theorem interpret_touches (es : List Expr) : Touches (fun _ => True) true (interpret es) := by
  induction es with
  | nil => exact touches_pure ()
  | cons e es ih =>
    rw [interpret]
    refine (evaluate_touches e ⟨fun _ _ => trivial, fun _ => rfl⟩).bind fun v => ?_
    exact (touches_printLine e.token v).bind fun _ => ih

/-- A run only adds to the output. -/
theorem run_extends (w : World) (source : String) : w.out.Extends (run w source).world.out := by
  rw [run_world]
  cases readSource w.env.arity? source with
  | error errors => exact .refl _
  | ok trees => exact (interpret_touches trees w).out

/-! ### Rounds -/

/-- The line without the blanks at its ends. -/
def trimmed (line : String) : String := String.ofList (trimBlanks line.toList)

/-- The world with the prompt printed and a line taken. -/
def World.prompted (w : World) : World := { w.say "> " with input := w.input.skipLine }

/-- The world after a run, with its error reported if it has one. -/
def Outcome.reported : Outcome → World
  | ⟨none, w⟩       => w
  | ⟨some error, w⟩ => w.complain error

/-- A round of the dialogue: the line that is taken at the prompt, the lines that are taken while it
is run, and what is printed after the prompt. -/
structure Round where
  line : List UInt8
  inner : List (List UInt8)
  printed : String

/-- All lines that a round takes, the one at the prompt first. -/
def Round.lines (r : Round) : List (List UInt8) := r.line :: r.inner

/-- The round that is made of the next line, and the world after it. -/
inductive Answers (w : World) : Round → World → Prop where
  | blank {line : String} : w.input.line = .ok line → trimmed line = "" →
      Answers w ⟨w.input.lineBytes, [], ""⟩ w.prompted
  | env {line : String} : w.input.line = .ok line → trimmed line = ":env" →
      Answers w ⟨w.input.lineBytes, [], w.env.shown w.heap ++ "\n"⟩
        (w.prompted.say (w.env.shown w.heap ++ "\n"))
  | source {line printed : String} : w.input.line = .ok line → trimmed line ≠ "" →
      trimmed line ≠ ":env" →
      (run w.prompted (trimmed line)).world.out.text = w.prompted.out.text ++ printed →
      Answers w ⟨w.input.lineBytes, runLines w.prompted (trimmed line), printed⟩
        (run w.prompted (trimmed line)).reported

/-- What the prompt finds where the dialogue ends, with the exit status. -/
inductive Ending (i : Input) : Nat → Prop where
  | endOfInput : i.rest = [] → Ending i 0
  | exit {line : String} : i.line = .ok line → trimmed line = "exit" → Ending i 0
  | notText : i.line = .error .notUtf8 → Ending i 1

/-- The rounds come one after the other, and the dialogue does not end before any of them. -/
inductive Rounds : World → List Round → World → Prop where
  | nil {w : World} : Rounds w [] w
  | cons {w w₁ w₂ : World} {r : Round} {rs : List Round} : (∀ status, ¬ Ending w.input status) →
      Answers w r w₁ → Rounds w₁ rs w₂ → Rounds w (r :: rs) w₂

/-- What is printed in the rounds, each behind its prompt. -/
def transcript : List Round → String
  | []      => ""
  | r :: rs => "> " ++ r.printed ++ transcript rs

section

variable {w w' : World} {r : Round}

@[simp] theorem Outcome.input_reported (o : Outcome) : o.reported.input = o.world.input := by
  obtain ⟨_ | error, w⟩ := o <;> rfl

@[simp] theorem Outcome.out_reported (o : Outcome) : o.reported.out = o.world.out := by
  obtain ⟨_ | error, w⟩ := o <;> rfl

/-- A round takes its own lines and no others. -/
theorem Answers.byteLines (h : Answers w r w') (hrest : w.input.rest ≠ []) :
    byteLines w.input.rest = r.lines ++ ListCalc.byteLines w'.input.rest := by
  have hline : ListCalc.byteLines w.input.rest =
      w.input.lineBytes :: ListCalc.byteLines w.prompted.input.rest := by
    rw [w.input.byteLines_rest, Input.taken, if_neg hrest]
    rfl
  cases h with
  | blank => exact hline
  | env => exact hline
  | source =>
    rw [hline, run_takes w.prompted, Outcome.input_reported]
    rfl

/-- A round adds the prompt and what it prints. -/
theorem Answers.out (h : Answers w r w') : w'.out.text = w.out.text ++ ("> " ++ r.printed) := by
  rw [← String.append_assoc]
  cases h with
  | blank => exact (String.append_empty).symm
  | env => rfl
  | source _ _ _ hprinted =>
    rw [Outcome.out_reported]
    exact hprinted

end

/-- Rounds one after the other take their lines in order. -/
theorem Rounds.byteLines {w w' : World} {rounds : List Round} (h : Rounds w rounds w') :
    byteLines w.input.rest = rounds.flatMap Round.lines ++ ListCalc.byteLines w'.input.rest := by
  induction h with
  | nil => rfl
  | cons hgoes hanswer _ ih =>
    have hrest := fun hnil => hgoes 0 (.endOfInput hnil)
    rw [hanswer.byteLines hrest, ih, List.flatMap_cons, List.append_assoc]

/-- Rounds one after the other add what each of them prints. -/
theorem Rounds.out {w w' : World} {rounds : List Round} (h : Rounds w rounds w') :
    w'.out.text = w.out.text ++ transcript rounds := by
  induction h with
  | nil => exact (String.append_empty).symm
  | cons _ hanswer _ ih => rw [ih, hanswer.out, transcript, String.append_assoc]

/-! ### Turns -/

theorem Input.line_of_nil {i : Input} (h : i.rest = []) : i.line = .ok "" := by
  have hbytes : i.lineBytes = [] := by simp [Input.lineBytes, h]
  rw [Input.line, hbytes]
  rfl

/-- A line that is text is its bytes. -/
theorem Input.toByteArray_line {i : Input} {line : String} (h : i.line = .ok line) :
    line.toByteArray = ⟨i.lineBytes.toArray⟩ := by
  unfold Input.line String.fromUTF8? at h
  split at h
  · rename_i hsome
    split at hsome
    · cases hsome
      cases h
      rfl
    · cases hsome
  · cases h

/-- Only the end of the input is an empty line. -/
theorem Input.line_ne_empty {i : Input} {line : String} (h : i.line = .ok line)
    (hrest : i.rest ≠ []) : line ≠ "" := by
  rintro rfl
  have hbytes : i.lineBytes = [] := by
    have harray := congrArg (·.data.toList) (Input.toByteArray_line h)
    exact harray.symm
  rw [Input.lineBytes, List.take_eq_nil_iff] at hbytes
  rcases hbytes with hzero | hnil
  · exact absurd hzero (Nat.succ_ne_zero _)
  · exact hrest hnil

theorem Input.line_error {i : Input} {fault : StreamFault} (h : i.line = .error fault) :
    fault = .notUtf8 := by
  unfold Input.line at h
  split at h
  · cases h
  · cases h
    rfl

/-- A line that is text and not `exit` does not end the dialogue. -/
theorem not_ending {i : Input} {line : String} (h : i.line = .ok line) (hrest : i.rest ≠ [])
    (hexit : trimmed line ≠ "exit") (status : Nat) : ¬ Ending i status := by
  rintro (hnil | ⟨hline, heq⟩ | herror)
  · exact hrest hnil
  · rw [h] at hline
    cases hline
    exact hexit heq
  · cases h.symm.trans herror

/-- A turn by the line that it finds. -/
theorem turn_eq (w : World) : turn w = match w.input.line with
    | .error _ => .stop 1 w.prompted
    | .ok ""   => .stop 0 w.prompted
    | .ok line =>
      match (Request.ofLine line).answer w.prompted with
      | some w' => .next w'
      | none    => .stop 0 w.prompted := by
  unfold World.prompted
  rfl

/-- A turn that takes a line answers it. -/
theorem turn_of_line {w : World} {line : String} (h : w.input.line = .ok line) (hne : line ≠ "") :
    turn w = match (Request.ofLine line).answer w.prompted with
      | some w' => .next w'
      | none    => .stop 0 w.prompted := by
  rw [turn_eq, h]
  split
  · rename_i heq
    cases heq
  · rename_i heq
    cases heq
    exact absurd rfl hne
  · rename_i heq
    cases heq
    rfl

/-- What the trimmed line asks for. -/
theorem Request.ofLine_cases (line : String) :
    trimmed line = "" ∧ Request.ofLine line = .nothing ∨
      trimmed line = "exit" ∧ Request.ofLine line = .exit ∨
      trimmed line = ":env" ∧ Request.ofLine line = .showEnv ∨
      (trimmed line ≠ "" ∧ trimmed line ≠ "exit" ∧ trimmed line ≠ ":env") ∧
        Request.ofLine line = .source (trimmed line) := by
  rw [Request.ofLine, ← trimmed]
  split
  · exact .inl ⟨‹_›, rfl⟩
  · exact .inr (.inl ⟨‹_›, rfl⟩)
  · exact .inr (.inr (.inl ⟨‹_›, rfl⟩))
  · exact .inr (.inr (.inr ⟨⟨‹_›, ‹_›, ‹_›⟩, rfl⟩))

/-- A source is run, and its error reported. -/
theorem answer_source (w : World) (text : String) :
    (Request.source text).answer w = some (run w text).reported := by
  rw [Request.answer]
  rcases run w text with ⟨_ | error, w'⟩ <;> rfl

/-- A turn ends the dialogue, or it is a round. -/
theorem turn_cases (w : World) :
    (∃ status, Ending w.input status ∧ turn w = .stop status w.prompted) ∨
      (∀ status, ¬ Ending w.input status) ∧ ∃ r w', Answers w r w' ∧ turn w = .next w' := by
  by_cases hrest : w.input.rest = []
  · refine .inl ⟨0, .endOfInput hrest, ?_⟩
    rw [turn_eq, Input.line_of_nil hrest]
    rfl
  cases hline : w.input.line with
  | error fault =>
    rw [Input.line_error hline] at hline
    exact .inl ⟨1, .notText hline, by rw [turn_eq, hline]⟩
  | ok line =>
    have hturn := turn_of_line hline (Input.line_ne_empty hline hrest)
    have hgoes := not_ending hline hrest
    rcases Request.ofLine_cases line with ⟨htext, hrequest⟩ | ⟨htext, hrequest⟩ |
        ⟨htext, hrequest⟩ | ⟨⟨hblank, hexit, henv⟩, hrequest⟩ <;> rw [hrequest] at hturn
    · exact .inr ⟨hgoes (by simp [htext]), _, _, .blank hline htext, hturn⟩
    · exact .inl ⟨0, .exit hline htext, hturn⟩
    · exact .inr ⟨hgoes (by simp [htext]), _, _, .env hline htext, hturn⟩
    · obtain ⟨printed, hprinted⟩ := run_extends w.prompted (trimmed line)
      rw [answer_source] at hturn
      exact .inr ⟨hgoes hexit, _, _,
        .source hline hblank henv (congrArg Output.text hprinted), hturn⟩

/-- With a turn for every line and one more, the turns are rounds and an ending. -/
theorem turns_eq_rounds {n : Nat} {w : World} (h : (byteLines w.input.rest).length < n) :
    ∃ rounds w' status, Rounds w rounds w' ∧ Ending w'.input status ∧
      turns n w = (status, w'.prompted) := by
  induction n generalizing w with
  | zero => exact absurd h (Nat.not_lt_zero _)
  | succ n ih =>
    rcases turn_cases w with ⟨status, hending, hturn⟩ | ⟨hgoes, r, w₁, hanswer, hturn⟩
    · exact ⟨[], w, status, .nil, hending, by rw [turns, hturn]⟩
    · have hlines := hanswer.byteLines fun hnil => hgoes 0 (.endOfInput hnil)
      have hlength : (byteLines w₁.input.rest).length < n := by
        rw [hlines, List.length_append, Round.lines, List.length_cons] at h
        omega
      obtain ⟨rounds, w', status, hrounds, hending, hturns⟩ := ih hlength
      exact ⟨r :: rounds, w', status, .cons hgoes hanswer hrounds, hending,
        by rw [turns, hturn, ← hturns]⟩

/-- **Every line is read once, and the dialogue goes on until it should end.**  On any input the
dialogue is a chain of rounds up to the first prompt that finds the end of the input, a line that is
`exit`, or one that is no text.  The lines of the input are those of the rounds, in order, then the
line that ended the dialogue, if there was one, and those that are left.  What is printed are the
prompts, each with the answer to its line. -/
theorem dialogue_reads_each_line_once (file? : Option (List UInt8)) (stdin : List UInt8)
    (clock : Clock) : ∃ rounds w status,
      Rounds (Command.freshWorld stdin clock) rounds w ∧ Ending w.input status ∧
      dialogue (Command.freshWorld stdin clock) = (status, w.prompted) ∧
      byteLines stdin =
        rounds.flatMap Round.lines ++ w.input.taken ++ byteLines w.prompted.input.rest ∧
      (Command.perform file? stdin clock .dialogue).status = status ∧
      (Command.perform file? stdin clock .dialogue).out = transcript rounds ++ "> " := by
  have hfuel : (byteLines stdin).length < stdin.length + 1 :=
    Nat.lt_succ_of_le (length_byteLines_le stdin)
  obtain ⟨rounds, w, status, hrounds, hending, hturns⟩ :=
    @turns_eq_rounds _ (Command.freshWorld stdin clock) hfuel
  have hdialogue : dialogue (Command.freshWorld stdin clock) = (status, w.prompted) := hturns
  have hlines : byteLines stdin = _ := hrounds.byteLines
  have hout : w.out.text = "" ++ transcript rounds := hrounds.out
  have hreport : Command.perform file? stdin clock .dialogue = .ofWorld w.prompted status := by
    rw [Command.perform, hdialogue]
  refine ⟨rounds, w, status, hrounds, hending, hdialogue, ?_, by rw [hreport]; rfl, ?_⟩
  · rw [hlines, w.input.byteLines_rest, List.append_assoc]
    rfl
  · rw [hreport]
    show w.out.text ++ "> " = _
    rw [hout, String.empty_append]

end ListCalc
