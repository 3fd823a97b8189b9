import MetaMonkey.Visualizer.Holes
import MetaMonkey.Visualizer.ShowsProgram

/-!
What no text tells of a program. The handlers are not given it, or do not use it, so that
programs that differ in no more have one text.
-/

namespace MetaMonkey.Visualizer

open Js

variable {L : Letters}

mutual

/-- The tree without what no text tells: the kinds of properties and declarations, the
defaults and the rest of a function, the labels of jumps, the guards of a `try`, and
`each`. -/
def Expr.told : Expr → Expr
  | .literal value => .literal value
  | .identifier name => .identifier name
  | .thisExpr => .thisExpr
  | .array elements => .array (toldElements elements)
  | .object properties => .object (toldProperties properties)
  | .function f => .function f.told
  | .sequence expressions => .sequence (toldExprs expressions)
  | .unary op before argument => .unary op before argument.told
  | .binary op left right => .binary op left.told right.told
  | .assign op left right => .assign op left.told right.told
  | .update op before argument => .update op before argument.told
  | .cond test consequent alternate => .cond test.told consequent.told alternate.told
  | .newExpr callee args => .newExpr callee.told (toldExprs args)
  | .call callee args => .call callee.told (toldExprs args)
  | .member object property => .member object.told property
  | .index object property => .index object.told property.told
  | .metaQuazi body => .metaQuazi (toldStmts body)
  | .metaExec body => .metaExec body.told

def toldExprs : List Expr → List Expr
  | [] => []
  | e :: es => e.told :: toldExprs es

def toldElements : List (Option Expr) → List (Option Expr)
  | [] => []
  | none :: es => none :: toldElements es
  | some e :: es => some e.told :: toldElements es

def toldOptionalExpr : Option Expr → Option Expr
  | none => none
  | some e => some e.told

def Property.told : Property → Property
  | .mk _ key value => .mk .init key value.told

def toldProperties : List Property → List Property
  | [] => []
  | x :: xs => x.told :: toldProperties xs

def FunctionNode.told : FunctionNode → FunctionNode
  | .mk id params _ _ body => .mk id params [] none body.told

def FunctionBody.told : FunctionBody → FunctionBody
  | .block body => .block (toldStmts body)
  | .expression body => .expression body.told

def Declarator.told : Declarator → Declarator
  | .mk id init => .mk id (toldOptionalExpr init)

def toldDeclarators : List Declarator → List Declarator
  | [] => []
  | d :: ds => d.told :: toldDeclarators ds

def ForHead.told : ForHead → ForHead
  | .declaration _ ds => .declaration .var (toldDeclarators ds)
  | .expression e => .expression e.told

def toldOptionalForHead : Option ForHead → Option ForHead
  | none => none
  | some h => some h.told

def Stmt.told : Stmt → Stmt
  | .empty => .empty
  | .block body => .block (toldStmts body)
  | .expression e => .expression e.told
  | .ifStmt test consequent alternate =>
      .ifStmt test.told consequent.told (toldOptionalStmt alternate)
  | .labeled label body => .labeled label body.told
  | .breakStmt _ => .breakStmt none
  | .continueStmt _ => .continueStmt none
  | .switchStmt discriminant cases => .switchStmt discriminant.told (toldSwitchCases cases)
  | .returnStmt argument => .returnStmt (toldOptionalExpr argument)
  | .throwStmt argument => .throwStmt argument.told
  | .tryStmt block _ handler finalizer =>
      .tryStmt (toldStmts block) [] (toldOptionalCatchClause handler) (toldOptionalBlock finalizer)
  | .whileStmt test body => .whileStmt test.told body.told
  | .doWhile test body => .doWhile test.told body.told
  | .forStmt init test update body =>
      .forStmt (toldOptionalForHead init) (toldOptionalExpr test) (toldOptionalExpr update)
        body.told
  | .forIn _ left right body => .forIn false left.told right.told body.told
  | .debugger => .debugger
  | .function f => .function f.told
  | .declaration _ ds => .declaration .var (toldDeclarators ds)

def toldStmts : List Stmt → List Stmt
  | [] => []
  | s :: ss => s.told :: toldStmts ss

def toldOptionalStmt : Option Stmt → Option Stmt
  | none => none
  | some s => some s.told

def toldOptionalBlock : Option (List Stmt) → Option (List Stmt)
  | none => none
  | some body => some (toldStmts body)

def SwitchCase.told : SwitchCase → SwitchCase
  | .mk test consequent => .mk (toldOptionalExpr test) (toldStmts consequent)

def toldSwitchCases : List SwitchCase → List SwitchCase
  | [] => []
  | c :: cs => c.told :: toldSwitchCases cs

def CatchClause.told : CatchClause → CatchClause
  | .mk param _ body => .mk param none (toldStmts body)

def toldOptionalCatchClause : Option CatchClause → Option CatchClause
  | none => none
  | some c => some c.told

end

mutual

theorem trvsCallExpr_told : ∀ e : Expr, trvsCallExpr e.told = trvsCallExpr e
  | .literal _ => by simp only [Expr.told]
  | .identifier _ => by simp only [Expr.told]
  | .thisExpr => by simp only [Expr.told]
  | .array es => by
      have hempty : (toldElements es).isEmpty = es.isEmpty := by
        match es with
        | [] | none :: _ | some _ :: _ => simp [toldElements]
      simp only [Expr.told, trvsCallExpr, hempty, trvsElements_told es]
  | .object xs => by simp only [Expr.told, trvsCallExpr, trvsProperties_told xs]
  | .function f => by simp only [Expr.told, trvsCallExpr, trvsFunction_told f]
  | .sequence es => by simp only [Expr.told, trvsCallExpr, trvsExprs_told es]
  | .unary _ _ e => by simp only [Expr.told, trvsCallExpr, trvsCallExpr_told e]
  | .binary _ e e' => by
      simp only [Expr.told, trvsCallExpr, trvsCallExpr_told e, trvsCallExpr_told e']
  | .assign _ e e' => by
      simp only [Expr.told, trvsCallExpr, trvsCallExpr_told e, trvsCallExpr_told e']
  | .update _ _ e => by simp only [Expr.told, trvsCallExpr, trvsCallExpr_told e]
  | .cond test consequent alternate => by
      simp only [Expr.told, trvsCallExpr, trvsCallExpr_told test, trvsCallExpr_told consequent,
        trvsCallExpr_told alternate]
  | .newExpr e es => by
      simp only [Expr.told, trvsCallExpr, trvsCallExpr_told e, trvsExprs_told es]
  | .call e es => by
      simp only [Expr.told, trvsCallExpr, trvsCallExpr_told e, trvsExprs_told es]
  | .member e _ => by simp only [Expr.told, trvsCallExpr, trvsCallExpr_told e]
  | .index e e' => by
      simp only [Expr.told, trvsCallExpr, trvsCallExpr_told e, trvsCallExpr_told e']
  | .metaQuazi ss => by simp only [Expr.told, trvsCallExpr, trvsStmts_told ss]
  | .metaExec s => by simp only [Expr.told, trvsCallExpr, trvsCallStmt_told s]

theorem trvsExprs_told : ∀ es : List Expr, trvsExprs (toldExprs es) = trvsExprs es
  | [] => by simp only [toldExprs]
  | e :: es => by simp only [toldExprs, trvsExprs, trvsCallExpr_told e, trvsExprs_told es]

theorem trvsElements_told : ∀ es : List (Option Expr),
    trvsElements (toldElements es) = trvsElements es
  | [] => by simp only [toldElements]
  | none :: _ => by simp only [toldElements, trvsElements]
  | some e :: es => by
      simp only [toldElements, trvsElements, trvsCallExpr_told e, trvsElements_told es]

theorem trvsOptionalExpr_told : ∀ e : Option Expr,
    trvsOptionalExpr (toldOptionalExpr e) = trvsOptionalExpr e
  | none => by simp only [toldOptionalExpr]
  | some e => by simp only [toldOptionalExpr, trvsOptionalExpr, trvsCallExpr_told e]

theorem trvsProperty_told : ∀ x : Property, trvsProperty x.told = trvsProperty x
  | .mk _ _ e => by simp only [Property.told, trvsProperty, trvsCallExpr_told e]

theorem trvsProperties_told : ∀ xs : List Property,
    trvsProperties (toldProperties xs) = trvsProperties xs
  | [] => by simp only [toldProperties]
  | x :: xs => by
      simp only [toldProperties, trvsProperties, trvsProperty_told x, trvsProperties_told xs]

theorem trvsFunction_told : ∀ f : FunctionNode, trvsFunction f.told = trvsFunction f
  | .mk _ _ _ _ body => by
      simp only [FunctionNode.told, trvsFunction, trvsFunctionBody_told body]

theorem trvsFunctionBody_told : ∀ b : FunctionBody, trvsFunctionBody b.told = trvsFunctionBody b
  | .block ss => by simp only [FunctionBody.told, trvsFunctionBody, trvsStmts_told ss]
  | .expression e => by
      have he := trvsCallExpr_told e
      cases e with
      | metaQuazi ss =>
          simp only [FunctionBody.told, Expr.told, trvsFunctionBody, trvsStmts_told ss]
      | metaExec s =>
          simp only [FunctionBody.told, Expr.told, trvsFunctionBody, trvsCallStmt_told s]
      | function f =>
          simp only [FunctionBody.told, Expr.told, trvsFunctionBody, trvsFunction_told f]
      | literal _ | identifier _ | thisExpr => simp only [FunctionBody.told, Expr.told]
      | _ =>
          simp only [FunctionBody.told, Expr.told, trvsFunctionBody] at he ⊢
          exact he

theorem trvsVariableDeclarator_told : ∀ d : Declarator,
    trvsVariableDeclarator d.told = trvsVariableDeclarator d
  | .mk _ init => by
      simp only [Declarator.told, trvsVariableDeclarator, trvsOptionalExpr_told init]

theorem trvsVariableDeclarators_told : ∀ ds : List Declarator,
    trvsVariableDeclarators (toldDeclarators ds) = trvsVariableDeclarators ds
  | [] => by simp only [toldDeclarators]
  | d :: ds => by
      simp only [toldDeclarators, trvsVariableDeclarators, trvsVariableDeclarator_told d,
        trvsVariableDeclarators_told ds]

theorem trvsForHead_told : ∀ h : ForHead, trvsForHead h.told = trvsForHead h
  | .declaration _ ds => by
      simp only [ForHead.told, trvsForHead, trvsVariableDeclarators_told ds]
  | .expression e => by simp only [ForHead.told, trvsForHead, trvsCallExpr_told e]

theorem trvsOptionalForHead_told : ∀ h : Option ForHead,
    trvsOptionalForHead (toldOptionalForHead h) = trvsOptionalForHead h
  | none => by simp only [toldOptionalForHead]
  | some h => by simp only [toldOptionalForHead, trvsOptionalForHead, trvsForHead_told h]

theorem trvsCallStmt_told : ∀ s : Stmt, trvsCallStmt s.told = trvsCallStmt s
  | .empty => by simp only [Stmt.told]
  | .block ss => by simp only [Stmt.told, trvsCallStmt, trvsStmts_told ss]
  | .expression e => by simp only [Stmt.told, trvsCallStmt, trvsCallExpr_told e]
  | .ifStmt test consequent alternate => by
      simp only [Stmt.told, trvsCallStmt, trvsCallExpr_told test, trvsCallStmt_told consequent,
        trvsOptionalStmt_told alternate]
  | .labeled _ s => by simp only [Stmt.told, trvsCallStmt, trvsCallStmt_told s]
  | .breakStmt none | .continueStmt none => by simp only [Stmt.told]
  | .breakStmt (some _) | .continueStmt (some _) => by
      simp only [Stmt.told, trvsCallStmt]
      rfl
  | .switchStmt e cs => by
      simp only [Stmt.told, trvsCallStmt, trvsCallExpr_told e, trvsSwitchCases_told cs]
  | .returnStmt e => by simp only [Stmt.told, trvsCallStmt, trvsOptionalExpr_told e]
  | .throwStmt e => by simp only [Stmt.told, trvsCallStmt, trvsCallExpr_told e]
  | .tryStmt ss _ handler finalizer => by
      simp only [Stmt.told, trvsCallStmt, trvsStmts_told ss, trvsOptionalCatchClause_told handler,
        trvsOptionalBlock_told finalizer]
  | .whileStmt e s => by
      simp only [Stmt.told, trvsCallStmt, trvsCallExpr_told e, trvsCallStmt_told s]
  | .doWhile e s => by
      simp only [Stmt.told, trvsCallStmt, trvsCallExpr_told e, trvsCallStmt_told s]
  | .forStmt init test update s => by
      simp only [Stmt.told, trvsCallStmt, trvsOptionalForHead_told init,
        trvsOptionalExpr_told test, trvsOptionalExpr_told update, trvsCallStmt_told s]
  | .forIn _ left right s => by
      simp only [Stmt.told, trvsCallStmt, trvsForHead_told left, trvsCallExpr_told right,
        trvsCallStmt_told s]
  | .debugger => by simp only [Stmt.told]
  | .function f => by simp only [Stmt.told, trvsCallStmt, trvsFunction_told f]
  | .declaration _ ds => by
      simp only [Stmt.told, trvsCallStmt, trvsVariableDeclarators_told ds]

theorem trvsStmts_told : ∀ ss : List Stmt, trvsStmts (toldStmts ss) = trvsStmts ss
  | [] => by simp only [toldStmts]
  | s :: ss => by simp only [toldStmts, trvsStmts, trvsCallStmt_told s, trvsStmts_told ss]

theorem trvsOptionalStmt_told : ∀ s : Option Stmt,
    trvsOptionalStmt (toldOptionalStmt s) = trvsOptionalStmt s
  | none => by simp only [toldOptionalStmt]
  | some s => by simp only [toldOptionalStmt, trvsOptionalStmt, trvsCallStmt_told s]

theorem trvsOptionalBlock_told : ∀ ss : Option (List Stmt),
    trvsOptionalBlock (toldOptionalBlock ss) = trvsOptionalBlock ss
  | none => by simp only [toldOptionalBlock]
  | some ss => by simp only [toldOptionalBlock, trvsOptionalBlock, trvsStmts_told ss]

theorem trvsSwitchCase_told : ∀ c : SwitchCase, trvsSwitchCase c.told = trvsSwitchCase c
  | .mk test ss => by
      simp only [SwitchCase.told, trvsSwitchCase, trvsOptionalExpr_told test, trvsStmts_told ss]

theorem trvsSwitchCases_told : ∀ cs : List SwitchCase,
    trvsSwitchCases (toldSwitchCases cs) = trvsSwitchCases cs
  | [] => by simp only [toldSwitchCases]
  | c :: cs => by
      simp only [toldSwitchCases, trvsSwitchCases, trvsSwitchCase_told c, trvsSwitchCases_told cs]

theorem trvsCatchClause_told : ∀ c : CatchClause, trvsCatchClause c.told = trvsCatchClause c
  | .mk _ _ ss => by simp only [CatchClause.told, trvsCatchClause, trvsStmts_told ss]

theorem trvsOptionalCatchClause_told : ∀ c : Option CatchClause,
    trvsOptionalCatchClause (toldOptionalCatchClause c) = trvsOptionalCatchClause c
  | none => by simp only [toldOptionalCatchClause]
  | some c => by
      simp only [toldOptionalCatchClause, trvsOptionalCatchClause, trvsCatchClause_told c]

end

/-! ### Lost programs -/

/-- `do ; while (a);` -/
def doWhileProgram : List Stmt := [.doWhile (.identifier (js "a")) .empty]

/-- A parenthesis among the tokens is in the text. -/
theorem Lexes.paren_mem {newline : Bool} {s : JSString} {ts : List Token}
    (h : Lexes L newline s ts) (hp : Token.punct .lp ∈ ts) : 40 ∈ s := by
  induction h with
  | eof newline => cases hp
  | blank hc hs ih => exact List.mem_cons_of_mem _ (ih hp)
  | word hw hend hs ih =>
      exact List.mem_append_right _ (ih (by simpa using hp))
  | jump hend hline hs ih =>
      exact List.mem_append_right _ (ih (by simpa using hp))
  | @punct newline p s ts hpunct hdot hs ih =>
      rcases List.mem_cons.mp hp with heq | hp
      · obtain rfl : Frontend.Punct.lp = p := by simpa using heq
        exact List.mem_append_left _ (by decide)
      · exact List.mem_append_right _ (ih hp)
  | suffix hpunct hs ih =>
      exact List.mem_append_right _ (ih (by simpa using hp))
  | string hquote hbody hs ih =>
      have hmem := ih (by simpa using hp)
      simp [hmem]
  | number hw hn hend hs ih =>
      exact List.mem_append_right _ (ih (by simpa using hp))
  | regexp hend hs ih =>
      exact List.mem_append_right _ (ih (by simpa using hp))

end MetaMonkey.Visualizer
