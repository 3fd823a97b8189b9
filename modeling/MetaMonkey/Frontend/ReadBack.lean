import MetaMonkey.Frontend.Statements
import MetaMonkey.Frontend.Layout

/-!
What the parser makes of the text of a tree. The text of some trees is read as
another tree, or not at all: `readBack` is the tree that is read.
-/

namespace MetaMonkey.Frontend

open Js

/-- The precedence of an expression: it is put in parentheses where the context has
at least this one. -/
def Expr.level : Expr → ℕ
  | yieldExpr _ => 1
  | sequence _ => 2
  | assign _ _ _ | letExpr _ _ | function _ _ _ | closure _ _ _ => 3
  | cond _ _ _ => 4
  | binary op _ _ => Layout.precedence op
  | unary _ _ | update _ _ _ => 15
  | newExpr _ _ => 17
  | call _ _ | member _ _ | index _ _ => 18
  | identifier _ | thisExpr | elision | array _ | object _ => 19

/-- Whether the text without `noIn` has an `in` outside all brackets, where the head of
a `for` would be read. -/
def Expr.bareIn : Expr → Bool
  | binary op left right =>
      op = .in || (Layout.precedence op ≤ left.level && left.bareIn) ||
        (Layout.precedence op < right.level && right.bareIn)
  | assign _ _ right => 2 < right.level && right.bareIn
  | cond test _ alternate =>
      (4 < test.level && test.bareIn) || (3 < alternate.level && alternate.bareIn)
  | _ => false

/-- Whether the first part of the head of a `for` ends before its own end: the operand
of a `yield` is printed without `noIn`. -/
def Expr.splitsHead : Expr → Bool
  | yieldExpr (some argument) => 2 < argument.level && argument.bareIn
  | _ => false

mutual

def Expr.readBack : Expr → Option Expr
  | .identifier name => some (.identifier name)
  | .thisExpr => some .thisExpr
  | .elision => some .elision
  | .array elements => do return .array (← readBackExprs elements)
  | .object properties => do return .object (← readBackProperties properties)
  | .unary op argument => do return .unary op (← argument.readBack)
  | .update op before argument => do return .update op before (← argument.readBack)
  | .binary op left right => do return .binary op (← left.readBack) (← right.readBack)
  | .assign op left right => do return .assign op (← left.readBack) (← right.readBack)
  | .cond test consequent alternate =>
      -- the comma of a sequence ends the consequent
      if consequent.isSequence then none
      else do
        return .cond (← test.readBack) (← consequent.readBack) (← alternate.readBack)
  | .call callee arguments => do return .call (← callee.readBack) (← readBackExprs arguments)
  | .newExpr callee arguments => do
      return .newExpr (← callee.readBack) (← readBackExprs arguments)
  | .member object property => do return .member (← object.readBack) property
  | .index object property => do return .index (← object.readBack) (← property.readBack)
  | .sequence expressions => do return .sequence (← readBackExprs expressions)
  | .yieldExpr argument => do return .yieldExpr (← readBackOptional argument)
  | .letExpr _ _ => none
  | .function id params body => do return .function id params (← body.readBack)
  | .closure id params body => do return .closure id params (← body.readBack)

def readBackExprs : List Expr → Option (List Expr)
  | [] => some []
  | e :: es => do return (← e.readBack) :: (← readBackExprs es)

def readBackOptional : Option Expr → Option (Option Expr)
  | none => some none
  | some e => do return some (← e.readBack)

def Property.readBack : Property → Option Property
  | .init key value => do return .init key (← value.readBack)

def readBackProperties : List Property → Option (List Property)
  | [] => some []
  | x :: xs => do return (← x.readBack) :: (← readBackProperties xs)

def Declarator.readBack : Declarator → Option Declarator
  | .mk id init => do return .mk id (← readBackOptional init)

def readBackDeclarators : List Declarator → Option (List Declarator)
  | [] => some []
  | d :: ds => do return (← d.readBack) :: (← readBackDeclarators ds)

def Stmt.readBack : Stmt → Option Stmt
  | .block body => do return .block (← readBackStmts body)
  | .declaration kind declarations => do
      return .declaration kind (← readBackDeclarators declarations)
  | .empty => some .empty
  | .expression e => do return .expression (← e.readBack)
  | .letStmt _ _ => none
  | .ifStmt test consequent none => do
      return .ifStmt (← test.readBack) (← consequent.readBack) none
  | .ifStmt test consequent (some alternate) => do
      let test ← test.readBack
      let consequent ← consequent.readBack
      let alternate ← alternate.readBack
      if consequent.openIf then return .ifStmt test (consequent.attach alternate) none
      else return .ifStmt test consequent (some alternate)
  | .whileStmt test body => do return .whileStmt (← test.readBack) (← body.readBack)
  | .doWhile body test => do return .doWhile (← body.readBack) (← test.readBack)
  | .forStmt init test update body =>
      if init.any Expr.splitsHead then none
      else do
        let init ← readBackOptional init
        let test ← readBackOptional test
        let update ← readBackOptional update
        return .forStmt init test update (← body.readBack)
  | .forDecl kind declarations test update body => do
      let declarations ← readBackDeclarators declarations
      let test ← readBackOptional test
      let update ← readBackOptional update
      return .forDecl kind declarations test update (← body.readBack)
  | .forIn each left right body => do
      return .forIn each (← left.readBack) (← right.readBack) (← body.readBack)
  | .forInDecl each kind d right body => do
      return .forInDecl each kind (← d.readBack) (← right.readBack) (← body.readBack)
  | .forOf _ _ _ => none
  | .forOfDecl _ _ _ _ => none
  | .breakStmt label => some (.breakStmt label)
  | .continueStmt label => some (.continueStmt label)
  | .returnStmt argument => do return .returnStmt (← readBackOptional argument)
  | .withStmt _ _ => none
  | .labeled label body => do return .labeled label (← body.readBack)
  | .switchStmt discriminant cases => do
      return .switchStmt (← discriminant.readBack) (← readBackCases cases)
  | .throwStmt argument => do return .throwStmt (← argument.readBack)
  | .tryStmt block _ handler finalizer => do
      let block ← block.readBack
      let handler ← readBackHandler handler
      let finalizer ← readBackFinalizer finalizer
      -- a `try` needs a clause, and the handlers with a guard are not printed
      if handler.isNone && finalizer.isNone then none
      else return .tryStmt block [] handler finalizer
  | .debugger => some .debugger

def readBackStmts : List Stmt → Option (List Stmt)
  | [] => some []
  | s :: ss => do return (← s.readBack) :: (← readBackStmts ss)

def SwitchCase.readBack : SwitchCase → Option SwitchCase
  | .mk test consequent => do
      return .mk (← readBackOptional test) (← readBackStmts consequent)

def readBackCases : List SwitchCase → Option (List SwitchCase)
  | [] => some []
  | c :: cs => do return (← c.readBack) :: (← readBackCases cs)

def CatchClause.readBack : CatchClause → Option CatchClause
  | .mk param _ body => do return .mk param none (← body.readBack)

def readBackHandler : Option CatchClause → Option (Option CatchClause)
  | none => some none
  | some c => do return some (← c.readBack)

def readBackFinalizer : Option Block → Option (Option Block)
  | none => some none
  | some b => do return some (← b.readBack)

def Block.readBack : Block → Option Block
  | .mk body => do return .mk (← readBackStmts body)

end

section

-- the equations are made here, once for all the proofs that unfold
attribute [local simp] Expr.readBack readBackExprs readBackOptional Property.readBack
  readBackProperties Declarator.readBack readBackDeclarators Stmt.readBack readBackStmts
  SwitchCase.readBack readBackCases CatchClause.readBack readBackHandler readBackFinalizer
  Block.readBack

end

end MetaMonkey.Frontend
