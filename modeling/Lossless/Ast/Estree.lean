import Lossless.Ast.Basic

/-!
# The nodes of programs

The node types of ESTree that a program of function declarations, calls and
literals is made of.
-/

namespace Lossless.Ast

def program (body : List Ast) : Ast := .node "Program" [("body", .list body)]

def functionDeclaration (id : Ast) (params : List Ast) (body : Ast) : Ast :=
  .node "FunctionDeclaration" [("id", .node id), ("params", .list params),
    ("body", .node body)]

def blockStatement (body : List Ast) : Ast :=
  .node "BlockStatement" [("body", .list body)]

/-- A return with or without an argument. -/
def returnStatement (argument : Option Ast) : Ast :=
  .node "ReturnStatement" [("argument",
    match argument with | some a => .node a | none => .absent)]

def expressionStatement (expression : Ast) : Ast :=
  .node "ExpressionStatement" [("expression", .node expression)]

def emptyStatement : Ast := .node "EmptyStatement" []

def callExpression (callee : Ast) (arguments : List Ast) : Ast :=
  .node "CallExpression" [("callee", .node callee),
    ("arguments", .list arguments)]

def identifier (name : String) : Ast :=
  .node "Identifier" [("name", .scalar (.string name))]

/-- A literal with its value and its spelling. -/
def literal (value : Scalar) (raw : String) : Ast :=
  .node "Literal" [("value", .scalar value), ("raw", .scalar (.string raw))]

end Lossless.Ast
