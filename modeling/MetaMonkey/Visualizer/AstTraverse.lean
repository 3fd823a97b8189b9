import MetaMonkey.Visualizer.AstTreeStringify

/-!
`asttraverse.js` with the visitor of `asttreestringify.js`. The state is the number of
tabs, which an exception leaves as it is.
-/

namespace MetaMonkey.Visualizer

open Js

abbrev Visit := OptionT (StateM ℕ)

/-- An exception -/
def throwException {α : Type} : Visit α := failure

def raiseTabs : Visit ℕ := do
  modify (· + 1)
  get

def decrTabs : Visit ℕ := do
  guard (0 < (← get))
  modify (· - 1)
  get

def tabs : Visit ℕ := get

def trvsLiteral (lit : LiteralValue) : Visit Shown := return handlerLiteral lit

def trvsIdentifier (name : JSString) : Visit Shown := return handlerIdentifier name

def trvsPattern (name : JSString) : Visit Shown := return handlerPattern name

def trvsPatterns (patts : List JSString) : Visit (List Shown) := patts.mapM trvsPattern

/-- Where the source visits an identifier unless it is empty. -/
def trvsOptionalIdentifier : Option JSString → Visit Shown
  | none => return none
  | some name => trvsIdentifier name

def trvsPropertyKey : PropertyKey → Visit Shown
  | .literal value => trvsLiteral value
  | .identifier name => trvsIdentifier name

/-- `whiteSpacesWrap` around a handler that has run. -/
def wrapped (str : Shown) : Visit Shown := return whiteSpacesWrap (← tabs) str

def notSemiWrapped (str : Shown) : Visit Shown := return whiteSpacesNotSemiWrap (← tabs) str

/-- `trvsStmtBlock`, where `stmts` visits the body. -/
def trvsStmtBlockOf (stmts : Visit (List Shown)) : Visit Shown := do
  let _ ← raiseTabs
  let stmtsRet ← stmts
  return handlerStmtBlock (← decrTabs) stmtsRet

mutual

/-- The functions of `exprsMap` are the branches. Lean packs the functions of the block
under the name of the first. -/
def trvsCallExpr : Expr → Visit Shown
  | .literal value => trvsLiteral value
  | .identifier name => trvsIdentifier name
  | .thisExpr => return handlerExprThis
  | .array elements => do
      if elements.isEmpty then return handlerExprArray none
      else return handlerExprArray (some (← trvsElements elements))
  | .object properties => return handlerExprObject (← trvsProperties properties)
  | .function f => do
      let (id, params, body) ← trvsFunction f
      return handlerExprFunction id params body
  | .sequence expressions => return handlerExprSequence (← trvsExprs expressions)
  | .unary op before argument => do
      return handlerExprUnary before op.text (← trvsCallExpr argument)
  | .binary op left right => do
      let left ← trvsCallExpr left
      let right ← trvsCallExpr right
      return handlerExprBinary op.text left right
  | .assign op left right => do
      let left ← trvsCallExpr left
      let right ← trvsCallExpr right
      return handlerExprAssignment op.text left right
  | .update op before argument => do
      return handlerExprUpdate before op.text (← trvsCallExpr argument)
  | .cond test consequent alternate => do
      let test ← trvsCallExpr test
      let alternate ← trvsCallExpr alternate
      let consequent ← trvsCallExpr consequent
      return handlerExprConditional test alternate consequent
  | .newExpr callee args => do
      let callee ← trvsCallExpr callee
      return handlerExprNew callee (← trvsExprs args)
  | .call callee args => do
      let callee ← trvsCallExpr callee
      return handlerExprCall callee (← trvsExprs args)
  | .member object property => do
      let obj ← trvsCallExpr object
      return handlerExprMember false obj (← trvsIdentifier property)
  | .index object property => do
      -- an identifier is visited as one in either way
      let obj ← trvsCallExpr object
      return handlerExprMember true obj (← trvsCallExpr property)
  | .metaQuazi body => return handlerExprMetaQuazi (← trvsStmts body)
  | .metaExec body => return handlerExprMetaExec (← trvsCallStmt body)

def trvsExprs : List Expr → Visit (List Shown)
  | [] => return []
  | e :: es => do
      let shown ← trvsCallExpr e
      return shown :: (← trvsExprs es)

/-- `trvsExprs` of the elements of an array: a hole has no `type`. -/
def trvsElements : List (Option Expr) → Visit (List Shown)
  | [] => return []
  | none :: _ => throwException
  | some e :: es => do
      let shown ← trvsCallExpr e
      return shown :: (← trvsElements es)

/-- Where the source visits an expression unless it is empty. -/
def trvsOptionalExpr : Option Expr → Visit Shown
  | none => return none
  | some e => trvsCallExpr e

def trvsProperty : Property → Visit Shown
  | .mk _ key value => do
      let key ← trvsPropertyKey key
      return handlerProperty key (← trvsCallExpr value)

def trvsProperties : List Property → Visit (List Shown)
  | [] => return []
  | x :: xs => do
      let shown ← trvsProperty x
      return shown :: (← trvsProperties xs)

/-- The parts, which the handlers of both kinds of functions are given. The defaults and
the rest are not visited. -/
def trvsFunction : FunctionNode → Visit (Shown × List Shown × Shown)
  | .mk id params _ _ body => do
      let id ← trvsOptionalIdentifier id
      let params ← trvsPatterns params
      return (id, params, ← trvsFunctionBody body)

/-- Any body is tried as a block first. Of the expressions only a quasi is one; two more
have a body, and its statements are asked for after the tabs are raised. -/
def trvsFunctionBody : FunctionBody → Visit Shown
  | .block body => trvsStmtBlockOf (trvsStmts body)
  | .expression (.metaQuazi body) =>
      trvsStmtBlockOf (trvsStmts body) <|> (return handlerExprMetaQuazi (← trvsStmts body))
  | .expression (.metaExec body) =>
      trvsStmtBlockOf throwException <|> (return handlerExprMetaExec (← trvsCallStmt body))
  | .expression (.function f) =>
      trvsStmtBlockOf throwException <|> do
        let (id, params, body) ← trvsFunction f
        return handlerExprFunction id params body
  | .expression e => trvsCallExpr e

def trvsVariableDeclarator : Declarator → Visit Shown
  | .mk id init => do
      let id ← trvsPattern id
      return handlerVariableDeclarator id (← trvsOptionalExpr init)

def trvsVariableDeclarators : List Declarator → Visit (List Shown)
  | [] => return []
  | d :: ds => do
      let shown ← trvsVariableDeclarator d
      return shown :: (← trvsVariableDeclarators ds)

/-- The declaration that a `for` begins with is a statement of its own. -/
def trvsForHead : ForHead → Visit Shown
  | .declaration _ ds => do wrapped (handlerStmtDeclVariable (← trvsVariableDeclarators ds))
  | .expression e => trvsCallExpr e

def trvsOptionalForHead : Option ForHead → Visit Shown
  | none => return none
  | some h => trvsForHead h

/-- The functions of `stmtsMap` are the branches. -/
def trvsCallStmt : Stmt → Visit Shown
  | .empty => wrapped handlerStmtEmpty
  | .block body => trvsStmtBlockOf (trvsStmts body)
  | .expression e => do wrapped (handlerStmtExpr (← trvsCallExpr e))
  | .ifStmt test consequent alternate => do
      let testRet ← trvsCallExpr test
      let consRet ← trvsCallStmt consequent
      notSemiWrapped (handlerStmtIf testRet consRet (← trvsOptionalStmt alternate))
  | .labeled label body => do
      let ident ← trvsIdentifier label
      return handlerStmtLabeled ident (← trvsCallStmt body)
  | .breakStmt label => do wrapped (handlerStmtBreak (← trvsOptionalIdentifier label))
  | .continueStmt label => do wrapped (handlerStmtContinue (← trvsOptionalIdentifier label))
  | .switchStmt discriminant cases => do
      let _ ← raiseTabs
      let discr ← trvsCallExpr discriminant
      let cases ← trvsSwitchCases cases
      wrapped (handlerStmtSwitch (← decrTabs) discr cases)
  | .returnStmt argument => do wrapped (handlerStmtReturn (← trvsOptionalExpr argument))
  | .throwStmt argument => do wrapped (handlerStmtThrow (← trvsCallExpr argument))
  | .tryStmt block _ handler finalizer => do
      let block ← trvsStmtBlockOf (trvsStmts block)
      let handler ← trvsOptionalCatchClause handler
      wrapped (handlerStmtTry block handler (← trvsOptionalBlock finalizer))
  | .whileStmt test body => do
      let test ← trvsCallExpr test
      wrapped (handlerStmtWhile test (← trvsCallStmt body))
  | .doWhile test body => do
      let test ← trvsCallExpr test
      return handlerStmtDoWhile test (← trvsCallStmt body)
  | .forStmt init test update body => do
      let init ← trvsOptionalForHead init
      let test ← trvsOptionalExpr test
      let update ← trvsOptionalExpr update
      wrapped (handlerStmtFor init test update (← trvsCallStmt body))
  | .forIn _ left right body => do
      let left ← trvsForHead left
      let right ← trvsCallExpr right
      wrapped (handlerStmtForIn left right (← trvsCallStmt body))
  | .debugger => wrapped handlerStmtDebugger
  | .function f => do
      let (id, params, body) ← trvsFunction f
      wrapped (handlerStmtDeclFunction id params body)
  | .declaration _ ds => do
      wrapped (handlerStmtDeclVariable (← trvsVariableDeclarators ds))

def trvsStmts : List Stmt → Visit (List Shown)
  | [] => return []
  | s :: ss => do
      let shown ← trvsCallStmt s
      return shown :: (← trvsStmts ss)

def trvsOptionalStmt : Option Stmt → Visit Shown
  | none => return none
  | some s => trvsCallStmt s

def trvsOptionalBlock : Option (List Stmt) → Visit Shown
  | none => return none
  | some body => trvsStmtBlockOf (trvsStmts body)

def trvsSwitchCase : SwitchCase → Visit Shown
  | .mk test consequent => do
      let test ← trvsOptionalExpr test
      let consequent ← trvsStmts consequent
      return handlerSwitchCase (← tabs) test consequent

def trvsSwitchCases : List SwitchCase → Visit (List Shown)
  | [] => return []
  | c :: cs => do
      let shown ← trvsSwitchCase c
      return shown :: (← trvsSwitchCases cs)

/-- No clause has a field `test`, by which a guard would be told. -/
def trvsCatchClause : CatchClause → Visit Shown
  | .mk param _ body => do
      let pattern ← trvsPattern param
      return handlerCatchClause pattern none (← trvsStmtBlockOf (trvsStmts body))

def trvsOptionalCatchClause : Option CatchClause → Visit Shown
  | none => return none
  | some c => trvsCatchClause c

end

section

-- the equations are made here, once for all the proofs that unfold
attribute [local simp] trvsCallExpr trvsExprs trvsElements trvsOptionalExpr trvsProperty
  trvsProperties trvsFunction trvsFunctionBody trvsVariableDeclarator trvsVariableDeclarators
  trvsForHead trvsOptionalForHead trvsCallStmt trvsStmts trvsOptionalStmt trvsOptionalBlock
  trvsSwitchCase trvsSwitchCases trvsCatchClause trvsOptionalCatchClause

end

/-- `trvsProgram` -/
def trvsProgram (body : List Stmt) : Visit Shown := return handlerProgram (← trvsStmts body)

/-- The text of a program, by a visitor of its own. An exception leaves no text. -/
def stringify (body : List Stmt) : Option Shown := (trvsProgram body 0).1

end MetaMonkey.Visualizer
