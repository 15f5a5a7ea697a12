import Lossless.Command.Basic

/-!
# Command lines

The arguments of a command are paths and options, in any order.
`Command.ofArguments` is the command that a command line asks for; a command
line that is not well formed asks for none.
-/

namespace Lossless

namespace Command

/-- The arguments of a command, taken apart. -/
structure Arguments where
  positional : List String
  options : List (String × String)

namespace Arguments

/-- Whether an argument can be a value: it is a lone hyphen or
starts with none. -/
def isValue (argument : String) : Bool :=
  argument == "-" || argument.toList.head? != some '-'

def addOption (name value : String) (a : Arguments) : Arguments :=
  { a with options := (name, value) :: a.options }

/-- Takes arguments apart. An option has its value behind an equals sign or as
the next argument. Behind two hyphens nothing is an option. -/
def read (known : List String) : List String → Option Arguments
  | [] => some ⟨[], []⟩
  | "--" :: arguments => some ⟨arguments, []⟩
  | argument :: arguments =>
    if isValue argument then do
      let a ← read known arguments
      some { a with positional := argument :: a.positional }
    else
      let name := String.ofList (argument.toList.takeWhile (· ≠ '='))
      if name ∉ known then none
      else
        match argument.toList.dropWhile (· ≠ '=') with
        | _ :: value =>
          (read known arguments).map (addOption name (String.ofList value))
        | [] =>
          match arguments with
          | value :: arguments =>
            if isValue value
              then (read known arguments).map (addOption name value) else none
          | [] => none

/-- The value of an option that may stand once: no value if it is missing. -/
def option? (a : Arguments) (name : String) : Option (Option String) :=
  match a.options.filter (·.1 = name) with
  | [] => some none
  | [(_, value)] => some (some value)
  | _ => none

/-- The strategy that is named, if any is. -/
def strategy? (a : Arguments) : Option (Option StrategyName) := do
  match ← a.option? "--strategy" with
  | none => some none
  | some name => (StrategyName.ofName? name).map some

/-- The one positional argument. -/
def path? (a : Arguments) : Option String :=
  match a.positional with
  | [path] => some path
  | _ => none

end Arguments

/-- The command of a command line, if it is well formed. -/
def ofArguments : List String → Option Command
  | "tokens" :: arguments => do
    let a ← Arguments.read [] arguments
    some (.tokens (← a.path?))
  | "ast" :: arguments => do
    let a ← Arguments.read [] arguments
    some (.ast (← a.path?))
  | "cst" :: arguments => do
    let a ← Arguments.read ["--strategy"] arguments
    some (.cst (← a.path?) ((← a.strategy?).getD .virtual))
  | "project" :: arguments => do
    let a ← Arguments.read ["--strategy"] arguments
    some (.project (← a.path?) ((← a.strategy?).getD .virtual))
  | "check" :: arguments => do
    let a ← Arguments.read ["--strategy"] arguments
    some (.check (← a.path?) (← a.strategy?))
  | "schema" :: arguments => do
    let a ← Arguments.read ["--strategy", "--grammar"] arguments
    if a.positional.isEmpty then
      some (.schema ((← a.strategy?).getD .virtual) (← a.option? "--grammar"))
    else none
  | _ => none

end Command

end Lossless
