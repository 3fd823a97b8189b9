import MetaMonkey.Frontend.MetaTags

/-!
The trees that the visualizer is given, of the node types in `asttraverse.js`. A
field of a node that is neither visited nor told by a text is left out.
-/

namespace MetaMonkey.Visualizer

open Js
open Frontend (UnaryOp UpdateOp BinaryOp AssignOp VarDeclKind isLineEnd)

/-- The text between the slashes of a regular expression; a slash in a class does not
end it. -/
def isRegExpBody : Bool → JSString → Bool
  | inClass, [] => !inClass
  | _, [92] => false
  | inClass, 92 :: c :: s => !isLineEnd c && isRegExpBody inClass s
  | _, 91 :: s => isRegExpBody true s
  | _, 93 :: s => isRegExpBody false s
  | inClass, c :: s => !isLineEnd c && (inClass || c ≠ 47) && isRegExpBody inClass s

/-- An object with the text of a literal, as every regular expression has it: with
`/*` begins a comment, and `//` is one. -/
structure RegExp where
  source : JSString
  flags : JSString
  source_body : isRegExpBody false source = true
  source_head : ∃ c s, source = c :: s ∧ c ≠ 42
  flags_known : ∀ c ∈ flags, c ∈ js "gimy"

def RegExp.toString (r : RegExp) : JSString := js "/" ++ r.source ++ js "/" ++ r.flags

inductive LiteralValue where
  | string (s : JSString)
  | boolean (b : Bool)
  | null
  | number (n : JSNumber)
  | regexp (r : RegExp)

inductive PropertyKey where
  | literal (value : LiteralValue)
  | identifier (name : JSString)

inductive PropertyKind where
  | init
  | get
  | set
  deriving DecidableEq

mutual

/-- A name that is declared is a `JSString`. An element of an array that is `none` is a
hole. -/
inductive Expr where
  | literal (value : LiteralValue)
  | identifier (name : JSString)
  | thisExpr
  | array (elements : List (Option Expr))
  | object (properties : List Property)
  | function (f : FunctionNode)
  | sequence (expressions : List Expr)
  | unary (op : UnaryOp) (before : Bool) (argument : Expr)
  | binary (op : BinaryOp) (left right : Expr)
  | assign (op : AssignOp) (left right : Expr)
  | update (op : UpdateOp) (before : Bool) (argument : Expr)
  | cond (test consequent alternate : Expr)
  | newExpr (callee : Expr) (arguments : List Expr)
  | call (callee : Expr) (arguments : List Expr)
  | member (object : Expr) (property : JSString)
  | index (object property : Expr)
  | metaQuazi (body : List Stmt)
  | metaExec (body : Stmt)

inductive Property where
  | mk (kind : PropertyKind) (key : PropertyKey) (value : Expr)

inductive FunctionNode where
  | mk (id : Option JSString) (params : List JSString) (defaults : List Expr)
      (rest : Option JSString) (body : FunctionBody)

inductive FunctionBody where
  | block (body : List Stmt)
  | expression (body : Expr)

inductive Declarator where
  | mk (id : JSString) (init : Option Expr)

/-- The first part of the head of a `for`. -/
inductive ForHead where
  | declaration (kind : VarDeclKind) (declarations : List Declarator)
  | expression (e : Expr)

inductive Stmt where
  | empty
  | block (body : List Stmt)
  | expression (e : Expr)
  | ifStmt (test : Expr) (consequent : Stmt) (alternate : Option Stmt)
  | labeled (label : JSString) (body : Stmt)
  | breakStmt (label : Option JSString)
  | continueStmt (label : Option JSString)
  | switchStmt (discriminant : Expr) (cases : List SwitchCase)
  | returnStmt (argument : Option Expr)
  | throwStmt (argument : Expr)
  | tryStmt (block : List Stmt) (guardedHandlers : List CatchClause)
      (handler : Option CatchClause) (finalizer : Option (List Stmt))
  | whileStmt (test : Expr) (body : Stmt)
  | doWhile (test : Expr) (body : Stmt)
  | forStmt (init : Option ForHead) (test update : Option Expr) (body : Stmt)
  | forIn (each : Bool) (left : ForHead) (right : Expr) (body : Stmt)
  | debugger
  | function (f : FunctionNode)
  | declaration (kind : VarDeclKind) (declarations : List Declarator)

/-- The default case has no test. -/
inductive SwitchCase where
  | mk (test : Option Expr) (consequent : List Stmt)

inductive CatchClause where
  | mk (param : JSString) (guard : Option Expr) (body : List Stmt)

end

end MetaMonkey.Visualizer
