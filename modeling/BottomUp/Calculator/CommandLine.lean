import BottomUp.Automaton.Drawing
import BottomUp.Calculator.Arithmetic

/-!
# The command line of the calculator

The arguments are one expression and three options, in any order.

* `-a` or `--algorithm`, with a value: how the table is made, `slr` or `lr1`.  A value
  follows as an argument of its own, after an equals sign, or right after `-a`.
* `--dot`: write the automaton as a drawing first.
* `-h` or `--help`: write how the calculator is used, and do nothing else.  Later arguments
  are not read, and neither is what follows the short form in its argument.

The first two are given at most once.  An argument that begins with a dash is an option,
unless it is a mere dash or stands after `--`.

The exit status is 0 with a value or with help, 1 if the text is not an expression, 2 if the
arguments are wrong and 101 on an overflow.  Arguments are read from left to right, so a wrong
one counts if it stands before the question for help, and else the help does.
-/

namespace BottomUp.Calculator

/-- The arguments as they are read so far. -/
structure Arguments where
  /-- The method, if it is given. -/
  method? : Option Method := none
  /-- Is the automaton drawn? -/
  dot : Bool := false
  /-- The expression, if it is given. -/
  expression? : Option String := none
deriving DecidableEq

/-- Why arguments are not read to their end. -/
inductive Refusal where
  /-- Help is asked for. -/
  | help
  /-- An argument is wrong. -/
  | wrong
deriving DecidableEq, Repr

/-- What a run of the calculator shows. -/
structure Response where
  /-- The exit status. -/
  exit : Nat
  /-- What it writes. -/
  output : String := ""
  /-- What it complains. -/
  complaint : String := ""
deriving DecidableEq

/-! ## Reading arguments -/

namespace Arguments

/-- The method of a name. -/
def methodOf? : String → Option Method
  | "slr" => some .slr
  | "lr1" => some .lr1
  | _ => none

/-- Set the method, unless it is set or the name is not one of a method. -/
def setMethod (a : Arguments) (name : String) : Except Refusal Arguments :=
  match a.method?, methodOf? name with
  | none, some method => .ok { a with method? := some method }
  | _, _ => .error .wrong

/-- Ask for the drawing, unless that is done. -/
def setDot (a : Arguments) : Except Refusal Arguments :=
  if a.dot then .error .wrong else .ok { a with dot := true }

/-- Set the expression, unless it is set. -/
def setExpression (a : Arguments) (text : String) : Except Refusal Arguments :=
  match a.expression? with
  | none => .ok { a with expression? := some text }
  | some _ => .error .wrong

/-- The value that an argument gives to the option `-a` or `--algorithm` with an equals sign
or, for the short form, right behind it. -/
def attachedMethod? (arg : String) : Option String :=
  match arg.toList with
  | '-' :: 'a' :: '=' :: name => some (String.ofList name)
  | '-' :: 'a' :: name => if name.isEmpty then none else some (String.ofList name)
  | cs =>
      let long := "--algorithm=".toList
      if long.isPrefixOf cs then some (String.ofList (cs.drop long.length)) else none

/-- Does an argument read as an option, with a dash in front of something? -/
def looksLikeOption (arg : String) : Bool :=
  match arg.toList with
  | '-' :: _ :: _ => true
  | _ => false

/-- Does an argument ask for help? -/
def asksForHelp (arg : String) : Bool :=
  arg == "--help" || "-h".toList.isPrefixOf arg.toList

/-- Read an argument that needs no other. -/
def readOne (a : Arguments) (arg : String) : Except Refusal Arguments :=
  if arg = "--dot" then a.setDot
  else if asksForHelp arg then .error .help
  else
    match attachedMethod? arg with
    | some name => a.setMethod name
    | none => if looksLikeOption arg then .error .wrong else a.setExpression arg

/-- Read arguments after those that are read. -/
def read (a : Arguments) : List String → Except Refusal Arguments
  | [] => .ok a
  | "--" :: rest => rest.foldlM setExpression a
  | [arg] => a.readOne arg
  | arg :: next :: rest =>
      if arg = "-a" ∨ arg = "--algorithm" then (a.setMethod next).bind fun a => a.read rest
      else (a.readOne arg).bind fun a => a.read (next :: rest)

end Arguments

/-! ## The response -/

/-- How the calculator is used. -/
def help : String :=
  "Evaluate an arithmetic expression\n\n" ++
  "Usage: lrkit [OPTIONS] <EXPR>\n\n" ++
  "Arguments:\n" ++
  "  <EXPR>  The expression to evaluate\n\n" ++
  "Options:\n" ++
  "  -a, --algorithm <ALGORITHM>  Table construction algorithm [default: lr1] " ++
    "[possible values: slr, lr1]\n" ++
  "      --dot                    Print the automaton in graphviz format before evaluating\n" ++
  "  -h, --help                   Print help\n"

/-- The automaton of a method as a drawing. -/
def drawing (method : Method) : String :=
  match grammar.validate "S", method with
  | .ok p, .slr => (Machine.ofStart (.lr0 grammar) p).drawing grammar
  | .ok p, .lr1 => (Machine.ofStart (.lr1 grammar) p).drawing grammar
  | .error _, _ => ""

/-- A lookahead as it is named in a complaint. -/
def nameOf (ahead : Lookahead String) : String := ahead.getD "end of input"

/-- The response to a result, after what is written already. -/
def Result.respond (written : String) : Result → Response
  | .value i => { exit := 0, output := written ++ toString i ++ "\n" }
  | .badCharacter c offset =>
      { exit := 1
        output := written
        complaint := "Error: unexpected character " ++ quote c ++ " at offset " ++
          toString offset ++ "\n" }
  | .badExpression fault expected =>
      { exit := 1
        output := written
        complaint := "Error: " ++ fault.message ++ " (expected one of " ++
          quote (expected.map nameOf) ++ ")\n" }
  | .overflow => { exit := 101, output := written }

/-- What the calculator answers to its arguments. -/
def respond (args : List String) : Response :=
  match Arguments.read {} args with
  | .ok ⟨method?, dot, some expression⟩ =>
      let method := method?.getD .lr1
      let written := if dot then drawing method else ""
      match evaluate method expression with
      | some result => result.respond written
      | none => { exit := 101, output := written }
  | .error .help => { exit := 0, output := help }
  | _ => { exit := 2 }

end BottomUp.Calculator
