import MetaMonkey.Js.Value

/-!
`AstObjMng`: the recognisers of staging nodes and the access to the statements
of a Program. A recogniser that finds nothing gives the null pointer.
-/

namespace MetaMonkey.Staging

open ObjectGraph Js

variable (h : JSHeap)

namespace AstObjMng

/-- The operator and the argument of a unary expression; nothing also when it
has no argument object. -/
def getUnaryExpr (node : Value) : Except Fault (Option (JSString × Value)) := do
  let typeStr ← getPropertyToString h node "type"
  if equals typeStr "UnaryExpression" then
    let op ← getPropertyToString h node "operator"
    let body ← getPropertyToObj h node "argument"
    return if body = null then none else some (op, body)
  return none

/-- The child object `key` of a node whose type is `type`. -/
def getOfType (type key : String) (node : Value) : Except Fault Value := do
  let typeStr ← getPropertyToString h node "type"
  if equals typeStr type then getPropertyToObj h node key else return null

def getExprStmt (node : Value) : Except Fault Value :=
  getOfType h "ExpressionStatement" "expression" node

def getMetaExecStmt (node : Value) : Except Fault Value :=
  getOfType h "MetaExecStatement" "body" node

def getMetaQuaziStmt (node : Value) : Except Fault Value :=
  getOfType h "MetaQuaziStatement" "body" node

def getUnaryExprStmt (node : Value) : Except Fault (Option (JSString × Value)) := do
  let expr ← getExprStmt h node
  if expr = null then return none else getUnaryExpr h expr

def getMetaExecExprStmt (node : Value) : Except Fault Value := do
  let expr ← getExprStmt h node
  if expr = null then return null else getMetaExecStmt h expr

/-- The expression of a statement; `null` when the statement has none. -/
def wrapStmt (stmtVal : Value) : Except Fault Value :=
  getPropertyToObj h (valueToObject stmtVal) "expression"

/-- The statements of a Program. -/
def getBodyFromProgram (astObj : Value) : Except Fault (List Value) := do
  if astObj = null then throw .jsFalse
  let astTypeStr ← getPropertyToString h astObj "type"
  if !equals astTypeStr "Program" then throw .jsFalse
  let bodyObj ← getPropertyToObj h astObj "body"
  if bodyObj = null then throw .crash
  match arrayElems? h bodyObj with
  | some stmts => return stmts
  | none => throw .jsFalse

/-- The statements of a Program, or their expressions, pushed onto an array
that nothing else refers to yet. -/
def getStmtsFromAstObj (fromStmt : Bool) (astObj : Value) (vp : List Value) :
    Except Fault (List Value) := do
  let stmts ← getBodyFromProgram h astObj
  let elems ← stmts.mapM fun stmtVal =>
    if fromStmt then return stmtVal else wrapStmt h stmtVal
  return vp ++ elems

end AstObjMng

end MetaMonkey.Staging
