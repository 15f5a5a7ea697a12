import Lossless.Schema.Basic

/-!
# Commands

A command reads one file, or none, and shows something about it: the tokens of a
program, its syntax tree or its concrete tree, the syntax tree inside that
concrete tree, the outcome of the round-trip checks, or the label table of a
schema. Nothing below this namespace reads or prints: what a command shows is
worked out from the content of its file.
-/

namespace Lossless

/-- A bundled strategy, as command lines name it. -/
inductive StrategyName where
  | virtual
  | labels
  deriving DecidableEq, Repr

namespace StrategyName

def ofName? : String → Option StrategyName
  | "virtual" => some .virtual
  | "labels" => some .labels
  | _ => none

def strategy : StrategyName → Strategy
  | virtual => .virtualNodes
  | labels => .extendedLabels

def all : List StrategyName := [virtual, labels]

/-- The schema of the strategy and the bundled grammar. -/
def schema (n : StrategyName) : Except CstError Schema :=
  Schema.make .functions n.strategy

end StrategyName

/-- What a command line asks for. -/
inductive Command where
  | tokens (path : String)
  | ast (path : String)
  | cst (path : String) (strategy : StrategyName)
  | project (path : String) (strategy : StrategyName)
  /-- Without a strategy, all are checked and compared. -/
  | check (path : String) (strategy : Option StrategyName)
  /-- Without a path, the grammar is the bundled one. -/
  | schema (strategy : StrategyName) (grammar : Option String)
  deriving DecidableEq, Repr

namespace Command

/-- The file that a command reads, if it reads one. -/
def input? : Command → Option String
  | tokens path | ast path | cst path _ | project path _
  | check path _ => some path
  | schema _ grammar => grammar

end Command

end Lossless
