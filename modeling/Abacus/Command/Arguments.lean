import Abacus.Command.Binding
import Abacus.Expression

set_option autoImplicit false

/-!
# The command line

The command takes options with a value (`-p`/`--param`, which may be repeated,
`--strategy` and `--max-depth`), flags (`--print-ast`, `--print-bytecode`,
`--no-optimize`), a request for help, and at most one expression.  A value is attached to
its option by an equals sign, or directly to `-p`, or is the next argument, unless that
begins with a hyphen.  Behind `--` every argument is an expression.

An option that waits for its value, or has got it from a separate argument, is not checked
before something else is taken.  So an unknown option, a second expression or a value
attached to a flag is reported ahead of a fault in an option before it, but everything
else behind it.
-/

namespace Abacus

/-- Why a command line is rejected; a request for help counts as one of the reasons. -/
inductive Rejection where
  /-- An option that does not exist, or a second expression. -/
  | unknownArgument
  /-- A value that is missing, or none of the strategies. -/
  | invalidValue
  /-- A value that cannot be read. -/
  | valueValidation
  /-- An option, other than a binding, given twice. -/
  | argumentConflict
  /-- A value attached to a flag. -/
  | tooManyValues
  | displayHelp
  deriving DecidableEq, Repr, Inhabited

namespace Rejection

/-- The name of a reason. -/
def name : Rejection → String
  | unknownArgument => "UnknownArgument"
  | invalidValue => "InvalidValue"
  | valueValidation => "ValueValidation"
  | argumentConflict => "ArgumentConflict"
  | tooManyValues => "TooManyValues"
  | displayHelp => "DisplayHelp"

/-- A reason in words. -/
def message : Rejection → String
  | unknownArgument => "unexpected argument"
  | invalidValue => "a value is missing or is none of the possible values"
  | valueValidation => "a value cannot be read"
  | argumentConflict => "an option is given twice"
  | tooManyValues => "a flag takes no value"
  | displayHelp => "help was asked for"

/-- The exit status of the command. -/
def exitStatus : Rejection → Nat
  | displayHelp => 0
  | _ => 2

end Rejection

/-- The strategies that an expression is evaluated by. -/
inductive Selection where
  | one (strategy : Strategy)
  | all
  deriving DecidableEq, Repr

namespace Selection

/-- The strategy whose outcome counts. -/
def first : Selection → Strategy
  | one strategy => strategy
  | all => .tree

/-- The strategies that have to agree with the first one. -/
def others : Selection → List Strategy
  | one _ => []
  | all => [.optimized, .bytecode]

/-- All selected strategies. -/
def strategies (s : Selection) : List Strategy := s.first :: s.others

/-- The selection of a name. -/
def ofName? (name : String) : Option Selection :=
  if name = "all" then some .all
  else (Strategy.all.find? fun strategy => strategy.name == name).map .one

end Selection

/-- What the command line asks for. -/
structure Settings where
  bindings : List Binding
  selection : Selection
  printAst : Bool
  printBytecode : Bool
  noOptimize : Bool
  maxDepth : Nat
  expression : Option String
  deriving DecidableEq, Repr

/-- How the command is used. -/
def Settings.usage : String :=
  "Evaluate integer expressions\n\n"
    ++ "Usage: abacus [OPTIONS] [EXPRESSION]\n\n"
    ++ "Arguments:\n"
    ++ "  [EXPRESSION]               the expression; without it, one per line of the input\n\n"
    ++ "Options:\n"
    ++ "  -p, --param <NAME=VALUE>   bind a parameter (repeatable; order defines positions)\n"
    ++ "      --strategy <STRATEGY>  tree, optimized, bytecode or all [default: all]\n"
    ++ "      --print-ast            print the parsed and optimized trees\n"
    ++ "      --print-bytecode       print the bytecode listing\n"
    ++ "      --no-optimize          skip the optimizer\n"
    ++ "      --max-depth <DEPTH>    maximum parenthesis nesting [default: 500]\n"
    ++ "  -h, --help                 print help"

namespace Arguments

/-- The options that take a value. -/
inductive Key where
  | param
  | strategy
  | maxDepth
  deriving DecidableEq, Repr

/-- The options without a value. -/
inductive Flag where
  | printAst
  | printBytecode
  | noOptimize
  deriving DecidableEq, Repr

/-- What an argument looks like by itself. -/
inductive Shape where
  /-- The end of the options. -/
  | separator
  | help
  | flag (flag : Flag)
  /-- An option with the value that is attached to it, if any. -/
  | option (key : Key) (attached : Option String)
  /-- Something that is never accepted. -/
  | rejected (reason : Rejection)
  /-- A value or an expression. -/
  | plain (text : String)
  deriving DecidableEq, Repr

/-- A flag, which takes no value. -/
def flagShape (flag : Flag) : Option String → Shape
  | none => .flag flag
  | some _ => .rejected .tooManyValues

/-- The option of a long name with what is attached to it. -/
def longShape (name : String) (attached : Option String) : Shape :=
  match name with
  | "param" => .option .param attached
  | "strategy" => .option .strategy attached
  | "max-depth" => .option .maxDepth attached
  | "print-ast" => flagShape .printAst attached
  | "print-bytecode" => flagShape .printBytecode attached
  | "no-optimize" => flagShape .noOptimize attached
  | "help" => if attached.isSome then .rejected .tooManyValues else .help
  | _ => .rejected .unknownArgument

/-- The shape of an argument in front of the end of the options. -/
def shape (argument : String) : Shape :=
  match argument.toList with
  | ['-', '-'] => .separator
  | '-' :: '-' :: long =>
    match splitAtEquals? long with
    | none => longShape (String.ofList long) none
    | some (name, value) => longShape (String.ofList name) (some (String.ofList value))
  | ['-', 'p'] => .option .param none
  | '-' :: 'p' :: '=' :: value => .option .param (some (String.ofList value))
  | '-' :: 'p' :: value => .option .param (some (String.ofList value))
  | '-' :: 'h' :: _ => .help
  | '-' :: _ :: _ => .rejected .unknownArgument
  | _ => .plain argument

/-- What has been taken so far. -/
structure State where
  bindings : List Binding
  selection : Option Selection
  maxDepth : Option Nat
  flags : List Flag
  expression : Option String
  /-- The last option whose value is not attached, with its value once that is there. -/
  waiting : Option (Key × Option String)
  /-- Whether the options have ended. -/
  ended : Bool
  deriving DecidableEq, Repr

/-- The state before the first argument. -/
def State.empty : State := ⟨[], none, none, [], none, none, false⟩

/-- The number that a limit names: decimal digits, perhaps behind a plus sign, below `2 ^
64`. -/
def readLimit? (text : String) : Option Nat :=
  let digits := match text.toList with
    | '+' :: cs => cs
    | cs => cs
  (Text.readDigits? digits).bind fun n => if n < UInt64.size then some n else none

/-- Gives an option its value. -/
def assign (state : State) (key : Key) (value : String) : Except Rejection State :=
  match key with
  | .param =>
    match Binding.parse value with
    | .ok binding => .ok { state with bindings := state.bindings ++ [binding] }
    | .error _ => .error .valueValidation
  | .strategy =>
    if state.selection.isSome then .error .argumentConflict
    else match Selection.ofName? value with
      | some selection => .ok { state with selection := some selection }
      | none => .error .invalidValue
  | .maxDepth =>
    if state.maxDepth.isSome then .error .argumentConflict
    else match readLimit? value with
      | some limit => .ok { state with maxDepth := some limit }
      | none => .error .valueValidation

/-- Checks the option that waits, before anything else is taken. -/
def settle (state : State) : Except Rejection State :=
  match state.waiting with
  | none => .ok state
  | some (_, none) => .error .invalidValue
  | some (key, some value) => assign { state with waiting := none } key value

/-- Takes an argument as the expression. -/
def takeExpression (state : State) (text : String) : Except Rejection State :=
  if state.expression.isSome then .error .unknownArgument
  else (settle state).map fun state => { state with expression := some text }

/-- Takes one argument. -/
def step (state : State) (argument : String) : Except Rejection State :=
  if state.ended then takeExpression state argument
  else match shape argument with
    | .separator => .ok { state with ended := true }
    | .rejected reason => .error reason
    | .help => do
      let _ ← settle state
      throw .displayHelp
    | .flag flag => do
      let state ← settle state
      if flag ∈ state.flags then throw .argumentConflict
      return { state with flags := flag :: state.flags }
    | .option key (some value) => do
      let state ← settle state
      assign state key value
    | .option key none => do
      let state ← settle state
      return { state with waiting := some (key, none) }
    | .plain text =>
      match state.waiting with
      | some (key, none) => .ok { state with waiting := some (key, some text) }
      | _ => takeExpression state text

/-- The settings after the last argument. -/
def finish (state : State) : Except Rejection Settings :=
  (settle state).map fun state =>
    { bindings := state.bindings
      selection := state.selection.getD .all
      printAst := .printAst ∈ state.flags
      printBytecode := .printBytecode ∈ state.flags
      noOptimize := .noOptimize ∈ state.flags
      maxDepth := state.maxDepth.getD defaultMaxDepth
      expression := state.expression }

end Arguments

/-- Reads the arguments of the command. -/
def Settings.parse (arguments : List String) : Except Rejection Settings := do
  let state ← arguments.foldlM Arguments.step Arguments.State.empty
  Arguments.finish state

end Abacus
