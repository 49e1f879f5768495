import ListCalc.Session
import ListCalc.Text.Blank

/-!
# Prompt

The dialogue: a prompt is printed, a line of the input is taken, and what it asks for is done in
the one session.  The dialogue ends at the end of the input, at the line `exit`, or at a line that
is no text; an error in a line does not end it.

Sources that read lines themselves take them from the same input, so a turn takes at least one line
and the dialogue has at most as many turns as the input has bytes, and a last one that finds
nothing (`dialogue`).
-/

namespace ListCalc

/-- What a line at the prompt asks for. -/
inductive Request where
  | nothing
  | exit
  | showEnv
  | source (text : String)
deriving DecidableEq

/-- Blanks around a request do not count, and the two commands are matched exactly. -/
def Request.ofLine (line : String) : Request :=
  match String.ofList (trimBlanks line.toList) with
  | ""     => nothing
  | "exit" => exit
  | ":env" => showEnv
  | text   => source text

namespace World

/-- Adds to the text of the output. -/
def say (w : World) (s : String) : World :=
  { w with out := { w.out with text := w.out.text ++ s } }

/-- Adds an error's text to the error output. -/
def complain (w : World) (error : RunError) : World :=
  { w with err := { w.err with text := w.err.text ++ error.text ++ "\n" } }

end World

/-- Does what a request asks for; `none` ends the dialogue. -/
def Request.answer (w : World) : Request → Option World
  | nothing     => some w
  | exit        => none
  | showEnv     => some (w.say (w.env.shown w.heap ++ "\n"))
  | source text =>
    match run w text with
    | ⟨none, w⟩       => some w
    | ⟨some error, w⟩ => some (w.complain error)

/-- What a turn of the dialogue leads to. -/
inductive Turn where
  | next (w : World)
  | stop (status : Nat) (w : World)

/-- One turn: the prompt, a line, and the answer to it. -/
def turn (w : World) : Turn :=
  let w := w.say "> "
  let input := w.input
  let w := { w with input := input.skipLine }
  match input.line with
  | .error _ => .stop 1 w
  | .ok ""   => .stop 0 w
  | .ok line =>
    match (Request.ofLine line).answer w with
    | some w => .next w
    | none   => .stop 0 w

/-- At most `n` turns; gives the exit status and the world at the end. -/
def turns : Nat → World → Nat × World
  | 0,     w => (0, w)
  | n + 1, w =>
    match turn w with
    | .next w        => turns n w
    | .stop status w => (status, w)

/-- The turns until the input or the dialogue ends. -/
def dialogue (w : World) : Nat × World :=
  turns (w.input.rest.length + 1) w

end ListCalc
