import ListCalc.Env

/-!
# World

All that evaluation reads and changes, as one value: the heap of lists, the environment, the three
streams, the clock, and the number that the next operator to be registered is known by.

`Eval` is the type of computations over a world.  A failing computation keeps the world as it was
left at the failure.
-/

namespace ListCalc

/-! ### Streams -/

/-- The input that is left, and the number of bytes taken from it. -/
structure Input where
  rest : List UInt8
  consumed : Nat
  /-- Whether a line was asked for when none was left. -/
  exhausted : Bool
deriving DecidableEq, Inhabited

namespace Input

/-- An input of which nothing has been taken. -/
def ofBytes (bytes : List UInt8) : Input := ⟨bytes, 0, false⟩

/-- The bytes of the next line with the newline that ends it; the last line may have none. -/
def lineBytes (i : Input) : List UInt8 :=
  let line := i.rest.takeWhile (· ≠ 10)
  i.rest.take (line.length + 1)

/-- The input after its next line. -/
def skipLine (i : Input) : Input :=
  let n := i.lineBytes.length
  ⟨i.rest.drop n, i.consumed + n, i.exhausted || n == 0⟩

/-- The next line; it is empty only at the end of the input. -/
def line (i : Input) : Except StreamFault String :=
  match String.fromUTF8? ⟨i.lineBytes.toArray⟩ with
  | some s => .ok s
  | none   => .error .notUtf8

end Input

/-- What an output does when it is written to. -/
inductive Manner where
  | accepts
  | refusesWrites
  /-- Takes what is written, but fails when it is flushed. -/
  | refusesFlushes
deriving DecidableEq, Inhabited

/-- The text written to an output. -/
structure Output where
  text : String
  manner : Manner
deriving DecidableEq, Inhabited

namespace Output

/-- An output that nothing has been written to. -/
def fresh (manner : Manner) : Output := ⟨"", manner⟩

/-- Adds to the text of the output, unless the output refuses. -/
def write (o : Output) (s : String) : Except StreamFault Output :=
  match o.manner with
  | .refusesWrites => .error .writeRefused
  | _              => .ok { o with text := o.text ++ s }

/-- Flushes the output, unless it refuses. -/
def flush (o : Output) : Except StreamFault Unit :=
  match o.manner with
  | .refusesFlushes => .error .flushRefused
  | _               => .ok ()

end Output

/-- A clock shows seconds since the start of 1970: now, and at each later reading in turn.  After
the last of these it stands still. -/
structure Clock where
  now : Nat
  later : List Nat
deriving DecidableEq, Inhabited

/-- The clock at its next reading. -/
def Clock.tick (c : Clock) : Clock :=
  match c.later with
  | []      => c
  | t :: ts => ⟨t, ts⟩

/-! ### The world -/

/-- All that evaluation reads and changes. -/
structure World where
  heap : Heap
  env : Env
  input : Input
  out : Output
  err : Output
  clock : Clock
  /-- The identity of the operator that is registered next. -/
  nextIdent : Nat
deriving DecidableEq, Inhabited

/-- A computation over a world; where it fails, the world stays as it is then. -/
abbrev Eval := EStateM RuntimeError World

namespace World

/-- A world with an empty heap and the given bindings and streams. -/
def start (env : Env) (input : Input) (out err : Output) (clock : Clock) : World :=
  ⟨.empty, env, input, out, err, clock, builtins.length⟩

/-- Registers a new operator under `name`. -/
def register (w : World) (name : String) (action : Action) : World :=
  { w with env := w.env.register ⟨w.nextIdent, name, action⟩, nextIdent := w.nextIdent + 1 }

/-- The text that a value is shown as in this world. -/
def shown (w : World) (v : Value) : String := v.shown w.heap

end World

end ListCalc
