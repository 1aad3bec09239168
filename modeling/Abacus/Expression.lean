import Abacus.Arena.Evaluate
import Abacus.Arena.Simplify
import Abacus.Arena.Text
import Abacus.Failure
import Abacus.Program.Compile
import Abacus.Program.Listing
import Abacus.Program.Run
import Abacus.Tree.Parse

set_option autoImplicit false

/-!
# Compiled expressions

This is the library's front door.  `Expression.compile` reads an expression once and keeps
every form of it: the arena as read, the arena in simple form and the program.
`Expression.run` evaluates it by any of three strategies, as often as wanted.

Strategies differ in the form that they evaluate.  Simplifying may drop a division by
zero, so the strategy that walks the arena as read may fail where the other two have a
value.
-/

namespace Abacus

/-- Reads an expression into an arena. -/
def Arena.parse (source : String) (names : List String) (maxDepth : Nat) :
    Except ParseError Arena :=
  (Tree.parse source names maxDepth).map (Arena.ofTree · names.length)

/-- How an expression is evaluated. -/
inductive Strategy where
  /-- Walk the arena as read. -/
  | tree
  /-- Walk the arena in simple form. -/
  | optimized
  /-- Run the program. -/
  | bytecode
  deriving DecidableEq, Repr

namespace Strategy

/-- Every strategy, in the order in which results are compared. -/
def all : List Strategy := [tree, optimized, bytecode]

/-- The name of a strategy. -/
def name : Strategy → String
  | tree => "tree"
  | optimized => "optimized"
  | bytecode => "bytecode"

instance : Inhabited Strategy := ⟨bytecode⟩

end Strategy

/-- How an expression is compiled. -/
structure Options where
  /-- Whether the expression is simplified before it is compiled. -/
  optimize : Bool := true
  /-- The greatest number of parentheses that may be open at a time. -/
  maxDepth : Nat := defaultMaxDepth
  deriving DecidableEq, Repr

/-- An expression in every form that an evaluation needs. -/
structure Expression where
  source : String
  /-- The names of the parameters, in the order of the arguments. -/
  names : List String
  /-- The arena as read. -/
  arena : Arena
  /-- The arena that the program was compiled from. -/
  optimized : Arena
  program : Program
  deriving DecidableEq, Repr

namespace Expression

/-- Reads an expression, simplifies it if asked to, and compiles it. -/
def compile (source : String) (names : List String) (options : Options) :
    Except Failure Expression :=
  match Arena.parse source names options.maxDepth with
  | .error e => .error (.ofParseError e)
  | .ok arena =>
    let optimized := if options.optimize then arena.simplify else arena
    .ok ⟨source, names, arena, optimized, optimized.compile⟩

/-- The outcome of a strategy, before errors are described to the caller. -/
def evaluate (e : Expression) (args : List Int64) : Strategy → Except ExecutionError Int64
  | .tree => e.arena.evaluate args
  | .optimized => e.optimized.evaluate args
  | .bytecode => e.program.run args

/-- The value of an expression for a list of arguments, one for each parameter. -/
def run (e : Expression) (args : List Int64) (strategy : Strategy) :
    Except Failure Int64 :=
  if args.length ≠ e.names.length then
    .error (.api ("Argument count mismatch: expected " ++ Text.decimal e.names.length ++
      ", got " ++ Text.decimal args.length))
  else
    (e.evaluate args strategy).mapError fun error =>
      (Failure.ofExecutionError error).withSource e.source

/-- The written form of the expression as read. -/
def arenaText (e : Expression) : String := e.arena.text e.names

/-- The written form of the expression that was compiled. -/
def optimizedText (e : Expression) : String := e.optimized.text e.names

/-- The listing of the program. -/
def programText (e : Expression) : String := e.program.listing e.names

end Expression

end Abacus
