import ListCalc.Prompt

/-!
# Command line

`Command.ofArgs?` reads the arguments, `Command.perform` does the work and gives what is printed
and the exit status.

The arguments are a subcommand with its operand.  The option `--log` with a filter may stand before
and after the subcommand, once each; it does not change what is printed.  `--` ends the options.  An
argument that begins with `-` is an option, unless it is `-` itself.
-/

namespace ListCalc

/-- What the program is asked to do. -/
inductive Command where
  /-- List the tokens of a file. -/
  | tokenize (path : String)
  /-- Print the trees of a file. -/
  | parse (path : String)
  /-- Evaluate a file and print each value. -/
  | run (path : String)
  /-- Evaluate a source given as an argument. -/
  | eval (source : String)
  | dialogue
  | version
deriving DecidableEq

namespace Command

/-! ### Arguments -/

/-- Whether an argument is an option by its form. -/
def isOption (arg : String) : Bool :=
  "-".isPrefixOf arg && arg != "-"

/-- The filter of an option `--log=filter`. -/
def attachedFilter? (arg : String) : Option String :=
  let head := "--log=".toList
  if head.isPrefixOf arg.toList then some (String.ofList (arg.toList.drop head.length)) else none

/-- The operands among the arguments of a subcommand; `logged` if the option was given. -/
def operands? (logged : Bool) : List String → Option (List String)
  | []               => some []
  | "--" :: rest     => some rest
  | ["--log"]        => none
  | "--log" :: filter :: rest =>
    if logged || isOption filter then none else operands? true rest
  | arg :: rest      =>
    if (attachedFilter? arg).isSome then
      if logged then none else operands? true rest
    else if isOption arg then none
    else (operands? logged rest).map (arg :: ·)

/-- The command that a subcommand's name and operands stand for; a path is not empty. -/
def ofName? : String → List String → Option Command
  | "tokenize", [path]   => if path = "" then none else some (tokenize path)
  | "parse",    [path]   => if path = "" then none else some (parse path)
  | "run",      [path]   => if path = "" then none else some (run path)
  | "eval",     [source] => some (eval source)
  | "repl",     []       => some dialogue
  | _,          _        => none

/-- The command of arguments that come after `--log` if `logged`. -/
def ofArgsAfter? (logged : Bool) : List String → Option Command
  | []           => some dialogue
  | ["--"]       => some dialogue
  | "--" :: _    => none
  | ["--log"]    => none
  | "--log" :: filter :: rest =>
    if logged || isOption filter then none else ofArgsAfter? true rest
  | arg :: rest  =>
    if (attachedFilter? arg).isSome then
      if logged then none else ofArgsAfter? true rest
    else if arg = "--version" || "-V".isPrefixOf arg then some version
    else if isOption arg then none
    else (operands? false rest).bind (ofName? arg)

/-- The command of the arguments, if they are well formed. -/
def ofArgs? (args : List String) : Option Command := ofArgsAfter? false args

/-! ### Work -/

/-- What a program leaves behind: its two outputs, its exit status, and whether it asked for more
input than it was given. -/
structure Report where
  out : String
  err : String
  status : Nat
  starved : Bool

/-- The report of a program that reads no input. -/
def Report.done (out err : String) (status : Nat) : Report := ⟨out, err, status, false⟩

/-- The report of a program that has worked on a world. -/
def Report.ofWorld (w : World) (status : Nat) : Report :=
  ⟨w.out.text, w.err.text, status, w.input.exhausted⟩

/-- Lines of text, each ended by a newline. -/
def unlines (lines : List String) : String := String.join (lines.map (· ++ "\n"))

/-- The world of a program with the given input. -/
def freshWorld (stdin : List UInt8) (clock : Clock) : World :=
  .start .initial (.ofBytes stdin) (.fresh .accepts) (.fresh .accepts) clock

/-- Runs one source in a session of its own. -/
def runBatch (w : World) (source : String) : Report :=
  match ListCalc.run w source with
  | ⟨none, w⟩       => .ofWorld w 0
  | ⟨some error, w⟩ => .ofWorld (w.complain error) error.exitCode

/-- Works on the text of a file; a file that is missing or no text is an error. -/
def withFile (file? : Option (List UInt8)) (path : String) (work : String → Report) : Report :=
  match file?.bind fun bytes => String.fromUTF8? ⟨bytes.toArray⟩ with
  | some source => work source
  | none        => .done "" ("reading '" ++ path ++ "' failed\n") 1

/-- The listing of the tokens of a source; faults are reported, and are no failure. -/
def tokenReport (source : String) : Report :=
  let scanned := scan source
  .done (unlines (scanned.tokens.map Token.listing))
    (unlines (scanned.faults.map SyntaxError.text)) 0

/-- The trees of a source; faults of the scan are reported, and only one of the parse is
a failure. -/
def treeReport (source : String) : Report :=
  let scanned := scan source
  let faults := unlines (scanned.faults.map SyntaxError.text)
  match Expr.parse Env.initial.arity? scanned.tokens with
  | .ok trees => .done (unlines (trees.map Expr.written)) faults 0
  | .error e  => .done "" (faults ++ e.text ++ "\n") 0

/-- The file that a command works on. -/
def path? : Command → Option String
  | tokenize path | parse path | run path => some path
  | _                                     => none

/-- The program's name and version. -/
def versionText : String := "xp 0.1.0\n"

/-- Performs a command, given the contents of the file it names, if there is one, and the standard
input. -/
def perform (file? : Option (List UInt8)) (stdin : List UInt8) (clock : Clock) : Command → Report
  | tokenize path => withFile file? path tokenReport
  | parse path    => withFile file? path treeReport
  | run path      => withFile file? path (runBatch (freshWorld stdin clock))
  | eval source   => runBatch (freshWorld stdin clock) source
  | dialogue      =>
    let (status, w) := ListCalc.dialogue (freshWorld stdin clock)
    .ofWorld w status
  | version       => .done versionText "" 0

/-- The exit status for arguments that are not well formed. -/
def usageStatus : Nat := 2

end Command

end ListCalc
