import MetaMonkey.Visualizer.Ast

/-!
`asttreestringify.js`: the text of a node from the texts of its parts.
-/

namespace MetaMonkey.Visualizer

open Js

/-- What a handler returns: `null`, or a string. -/
abbrev Shown := Option JSString

/-- Whether a test of the source lets it pass. -/
def Shown.truthy : Shown → Bool
  | none => false
  | some s => s ≠ []

def join (separator : String) (parts : List Shown) : JSString :=
  (js separator).intercalate (parts.map fun part => part.getD [])

inductive FormatArg where
  | shown (s : Shown)
  | num (n : ℕ)

/-- The entry `%s` of `formats`; an argument may be missing. -/
def formatString : Option FormatArg → JSString
  | some (.shown (some s)) => s
  | _ => []

/-- The entry `%tb` of `formats`. -/
def formatTabs : Option FormatArg → JSString
  | some (.num n) => List.replicate n 9
  | _ => []

/-- The places of the template that `/(%s)|(%tb)/g` matches take the arguments in their
order. -/
def fill : JSString → List FormatArg → JSString
  | 37 :: 115 :: rest, args => formatString args.head? ++ fill rest args.tail
  | 37 :: 116 :: 98 :: rest, args => formatTabs args.head? ++ fill rest args.tail
  | c :: rest, args => c :: fill rest args
  | [], _ => []

/-- `String.prototype.format` -/
def format (template : String) (args : List FormatArg) : Shown := some (fill (js template) args)

/-- For a string, `quoteString` tells whether it is put in quotes. -/
def stringifyValue (quoteString : Bool) : LiteralValue → Shown
  | .string s => some (if quoteString then js "'" ++ s ++ js "'" else s)
  | .boolean b => some (if b then js "true" else js "false")
  | .null => none
  | .number n => some n.toString
  | .regexp r => some r.toString

def handlerFunction (id : Shown) (params : List Shown) (body : Shown) : Shown :=
  let id := if id.truthy then id.map (js " " ++ ·) else id
  format "function%s(%s) %s" [.shown id, .shown (join "," params), .shown body]

def handlerLiteral (val : LiteralValue) : Shown := stringifyValue true val

def handlerProperty (key value : Shown) : Shown := format "%s: %s" [.shown key, .shown value]

def handlerIdentifier (val : JSString) : Shown := stringifyValue false (.string val)

def handlerPattern (val : JSString) : Shown := stringifyValue false (.string val)

def handlerVariableDeclarator (id init : Shown) : Shown :=
  let str := if init.truthy then "%s = %s" else "%s"
  format str [.shown id, .shown init]

/-- The guard is handed over and not used. -/
def handlerCatchClause (pattern _guard block : Shown) : Shown :=
  format "catch(%s) %s" [.shown pattern, .shown block]

def handlerSwitchCase (tabs : ℕ) (test : Shown) (consequent : List Shown) : Shown :=
  let test := if test.truthy then test else some (js "default")
  format "%tb%s: %s\n" [.num tabs, .shown test, .shown (join "" consequent)]

/-! ### Expressions -/

def handlerGenExprUnaryExpr (space : Bool) (before : Bool) (op : String) (arg : Shown) : Shown :=
  let spaceStr := if space then js " " else []
  if before then format "%s%s%s" [.shown (some (js op)), .shown (some spaceStr), .shown arg]
  else format "%s%s%s" [.shown arg, .shown (some spaceStr), .shown (some (js op))]

def handlerExprThis : Shown := some (js "this")

def handlerExprArray : Option (List Shown) → Shown
  | some elements => format "[ %s ]" [.shown (some (join ", " elements))]
  | none => some (js "[]")

/-- The properties are an array in any case, which a test lets pass. -/
def handlerExprObject (properties : List Shown) : Shown :=
  format "\x7b %s \x7d" [.shown (some (join ", " properties))]

def handlerExprFunction (id : Shown) (params : List Shown) (body : Shown) : Shown :=
  handlerFunction id params body

def handlerExprSequence (expressions : List Shown) : Shown := some (join ", " expressions)

def handlerExprUnary (before : Bool) (op : String) (arg : Shown) : Shown :=
  handlerGenExprUnaryExpr true before op arg

def handlerExprBinaryLeftRight (operator : String) (left right : Shown) : Shown :=
  format "(%s %s %s)" [.shown left, .shown (some (js operator)), .shown right]

def handlerExprAssignment (operator : String) (left right : Shown) : Shown :=
  handlerExprBinaryLeftRight operator left right

def handlerExprUpdate (before : Bool) (op : String) (arg : Shown) : Shown :=
  handlerGenExprUnaryExpr false before op arg

/-- `handlerExprLogical` is the same. -/
def handlerExprBinary (operator : String) (left right : Shown) : Shown :=
  handlerExprBinaryLeftRight operator left right

/-- The alternate comes before the consequent, as the traversal hands them over. -/
def handlerExprConditional (test alternate consequent : Shown) : Shown :=
  format "%s ? %s : %s" [.shown test, .shown alternate, .shown consequent]

def handlerExprNew (callee : Shown) (args : List Shown) : Shown :=
  format "new %s(%s)" [.shown callee, .shown (some (join "," args))]

def handlerExprCall (callee : Shown) (args : List Shown) : Shown :=
  format "%s(%s)" [.shown callee, .shown (some (join "," args))]

def handlerExprMember (computed : Bool) (obj prop : Shown) : Shown :=
  if computed then format "%s[%s]" [.shown obj, .shown prop]
  else format "%s.%s" [.shown obj, .shown prop]

def handlerExprMetaQuazi (stmts : List Shown) : Shown :=
  format ".< %s >." [.shown (some (join "" stmts))]

def handlerExprMetaExec (stmt : Shown) : Shown := format ".& \x7b %s \x7d" [.shown stmt]

/-! ### Statements -/

/-- The tail of `whiteSpacesWrap`: the statement `str` on a line of its own. -/
def whiteSpacesWrap (tabs : ℕ) (str : Shown) : Shown :=
  format "%tb%s;\n" [.num tabs, .shown str]

def whiteSpacesNotSemiWrap (tabs : ℕ) (str : Shown) : Shown :=
  format "%tb%s\n" [.num tabs, .shown str]

def handlerStmtEmpty : Shown := some []

def handlerStmtBlock (tabs : ℕ) (stmtsRet : List Shown) : Shown :=
  format "\x7b\n%s%tb\x7d" [.shown (some (join "" stmtsRet)), .num tabs]

def handlerStmtExpr (expr : Shown) : Shown := expr

def handlerStmtIf (testRet consRet altRet : Shown) : Shown :=
  let ifStr := if altRet.truthy then "if(%s) %selse %s" else "if(%s) %s"
  format ifStr [.shown testRet, .shown consRet, .shown altRet]

def handlerStmtLabeled (ident bodyRet : Shown) : Shown :=
  format "%s: \n%s" [.shown ident, .shown bodyRet]

/-- The label is handed over and not used. -/
def handlerGenStmtUnaryIdent (name : String) (_ident : Shown) : Shown := some (js name)

def handlerStmtBreak (ident : Shown) : Shown := handlerGenStmtUnaryIdent "break" ident

def handlerStmtContinue (ident : Shown) : Shown := handlerGenStmtUnaryIdent "continue" ident

def handlerStmtSwitch (tabs : ℕ) (discr : Shown) (cases : List Shown) : Shown :=
  format "switch(%s) \x7b\n%s%tb\x7d" [.shown discr, .shown (some (join "" cases)), .num tabs]

def handlerStmtReturn (argRet : Shown) : Shown := format "return %s" [.shown argRet]

def handlerStmtThrow (argRet : Shown) : Shown := format "throw %s" [.shown argRet]

/-- The template has no place for the finalizer. -/
def handlerStmtTry (block handler finalizer : Shown) : Shown :=
  let finalizer := if finalizer.truthy then format "finally %s" [.shown finalizer] else finalizer
  format "try %s %s" [.shown block, .shown handler, .shown finalizer]

def handlerStmtWhile (test body : Shown) : Shown :=
  format "while(%s) %s" [.shown test, .shown body]

def handlerStmtDoWhile (_test _body : Shown) : Shown := some (js "Do While")

def handlerStmtFor (init test update body : Shown) : Shown :=
  format "for(%s;%s;%s) %s" [.shown init, .shown test, .shown update, .shown body]

def handlerStmtForIn (left right body : Shown) : Shown :=
  format "for(%s in %s) %s" [.shown left, .shown right, .shown body]

def handlerStmtDebugger : Shown := some (js "debugger")

def handlerStmtDeclFunction (id : Shown) (params : List Shown) (body : Shown) : Shown :=
  handlerFunction id params body

def handlerStmtDeclVariable (declarations : List Shown) : Shown :=
  format "var %s" [.shown (some (join ", " declarations))]

def handlerProgram (stmts : List Shown) : Shown := some (join "" stmts)

end MetaMonkey.Visualizer
