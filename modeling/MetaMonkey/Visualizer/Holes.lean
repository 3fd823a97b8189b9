import MetaMonkey.Visualizer.Visiting

/-!
Which programs have a text: a visit ends with an exception at a hole, and nowhere else.
-/

namespace MetaMonkey.Visualizer

open Js

mutual

/-- No hole is visited. -/
def Expr.holeFree : Expr → Bool
  | .literal _ | .identifier _ | .thisExpr => true
  | .array elements => holeFreeElements elements
  | .object properties => holeFreeProperties properties
  | .function f => f.holeFree
  | .sequence expressions => holeFreeExprs expressions
  | .unary _ _ argument => argument.holeFree
  | .binary _ left right => left.holeFree && right.holeFree
  | .assign _ left right => left.holeFree && right.holeFree
  | .update _ _ argument => argument.holeFree
  | .cond test consequent alternate =>
      test.holeFree && (alternate.holeFree && consequent.holeFree)
  | .newExpr callee args => callee.holeFree && holeFreeExprs args
  | .call callee args => callee.holeFree && holeFreeExprs args
  | .member object _ => object.holeFree
  | .index object property => object.holeFree && property.holeFree
  | .metaQuazi body => holeFreeStmts body
  | .metaExec body => body.holeFree

def holeFreeExprs : List Expr → Bool
  | [] => true
  | e :: es => e.holeFree && holeFreeExprs es

def holeFreeElements : List (Option Expr) → Bool
  | [] => true
  | none :: _ => false
  | some e :: es => e.holeFree && holeFreeElements es

def holeFreeOptionalExpr : Option Expr → Bool
  | none => true
  | some e => e.holeFree

def Property.holeFree : Property → Bool
  | .mk _ _ value => value.holeFree

def holeFreeProperties : List Property → Bool
  | [] => true
  | x :: xs => x.holeFree && holeFreeProperties xs

def FunctionNode.holeFree : FunctionNode → Bool
  | .mk _ _ _ _ body => body.holeFree

def FunctionBody.holeFree : FunctionBody → Bool
  | .block body => holeFreeStmts body
  | .expression body => body.holeFree

def Declarator.holeFree : Declarator → Bool
  | .mk _ init => holeFreeOptionalExpr init

def holeFreeDeclarators : List Declarator → Bool
  | [] => true
  | d :: ds => d.holeFree && holeFreeDeclarators ds

def ForHead.holeFree : ForHead → Bool
  | .declaration _ ds => holeFreeDeclarators ds
  | .expression e => e.holeFree

def holeFreeOptionalForHead : Option ForHead → Bool
  | none => true
  | some h => h.holeFree

def Stmt.holeFree : Stmt → Bool
  | .empty | .breakStmt _ | .continueStmt _ | .debugger => true
  | .block body => holeFreeStmts body
  | .expression e => e.holeFree
  | .ifStmt test consequent alternate =>
      test.holeFree && (consequent.holeFree && holeFreeOptionalStmt alternate)
  | .labeled _ body => body.holeFree
  | .switchStmt discriminant cases => discriminant.holeFree && holeFreeSwitchCases cases
  | .returnStmt argument => holeFreeOptionalExpr argument
  | .throwStmt argument => argument.holeFree
  | .tryStmt block _ handler finalizer =>
      holeFreeStmts block &&
        (holeFreeOptionalCatchClause handler && holeFreeOptionalBlock finalizer)
  | .whileStmt test body => test.holeFree && body.holeFree
  | .doWhile test body => test.holeFree && body.holeFree
  | .forStmt init test update body =>
      holeFreeOptionalForHead init &&
        (holeFreeOptionalExpr test && (holeFreeOptionalExpr update && body.holeFree))
  | .forIn _ left right body => left.holeFree && (right.holeFree && body.holeFree)
  | .function f => f.holeFree
  | .declaration _ ds => holeFreeDeclarators ds

def holeFreeStmts : List Stmt → Bool
  | [] => true
  | s :: ss => s.holeFree && holeFreeStmts ss

def holeFreeOptionalStmt : Option Stmt → Bool
  | none => true
  | some s => s.holeFree

def holeFreeOptionalBlock : Option (List Stmt) → Bool
  | none => true
  | some body => holeFreeStmts body

def SwitchCase.holeFree : SwitchCase → Bool
  | .mk test consequent => holeFreeOptionalExpr test && holeFreeStmts consequent

def holeFreeSwitchCases : List SwitchCase → Bool
  | [] => true
  | c :: cs => c.holeFree && holeFreeSwitchCases cs

def CatchClause.holeFree : CatchClause → Bool
  | .mk _ _ body => holeFreeStmts body

def holeFreeOptionalCatchClause : Option CatchClause → Bool
  | none => true
  | some c => c.holeFree

end

section

variable {α β : Type} {m m' : Visit α} {f : α → Visit β} {b b' : Bool}

/-- The visit returns if and only if `b`. -/
def Ends (b : Bool) (m : Visit α) : Prop :=
  ∀ k : ℕ, ∃ r k', m k = (r, k') ∧ k ≤ k' ∧ r.isSome = b

theorem ends_pure (a : α) : Ends true (pure a) := fun k => ⟨some a, k, rfl, le_rfl, rfl⟩

theorem ends_wrapped (str : Shown) : Ends true (wrapped str) :=
  fun k => ⟨_, k, rfl, le_rfl, rfl⟩

theorem ends_notSemiWrapped (str : Shown) : Ends true (notSemiWrapped str) :=
  fun k => ⟨_, k, rfl, le_rfl, rfl⟩

theorem ends_tabs : Ends true tabs := fun k => ⟨some k, k, rfl, le_rfl, rfl⟩

theorem ends_throw : Ends false (throwException : Visit α) :=
  fun k => ⟨none, k, rfl, le_rfl, rfl⟩

theorem visit_bind_none {k k' : ℕ} (h : m k = (none, k')) : (m >>= f) k = (none, k') := by
  simp only [Bind.bind, OptionT.bind, OptionT.mk, StateT.bind, h]
  rfl

theorem visit_orElse_some {k k' : ℕ} {a : α} (h : m k = (some a, k')) :
    (m <|> m') k = (some a, k') := by
  show OptionT.orElse m (fun _ => m') k = _
  simp only [OptionT.orElse, OptionT.mk, Bind.bind, StateT.bind, h]
  rfl

theorem Ends.bind (h : Ends b m) (hf : ∀ a, Ends b' (f a)) : Ends (b && b') (m >>= f) := by
  intro k
  obtain ⟨r, k₁, hm, hle, hr⟩ := h k
  cases r with
  | none =>
      obtain rfl : b = false := hr.symm
      exact ⟨none, k₁, visit_bind_none hm, hle, rfl⟩
  | some a =>
      obtain rfl : b = true := hr.symm
      obtain ⟨r', k₂, hfa, hle', hr'⟩ := hf a k₁
      exact ⟨r', k₂, (visit_bind hm).trans hfa, Nat.le_trans hle hle', by simpa using hr'⟩

/-- What is done with the result can not fail. -/
theorem Ends.map (h : Ends b m) (hf : ∀ a, Ends true (f a)) : Ends b (m >>= f) := by
  simpa using h.bind hf

theorem Ends.orElse (h : Ends b m) (h' : Ends b' m') : Ends (b || b') (m <|> m') := by
  intro k
  obtain ⟨r, k₁, hm, hle, hr⟩ := h k
  cases r with
  | none =>
      obtain rfl : b = false := hr.symm
      obtain ⟨r', k₂, hm', hle', hr'⟩ := h' k₁
      exact ⟨r', k₂, (visit_orElse_none hm).trans hm', Nat.le_trans hle hle', by simpa using hr'⟩
  | some a =>
      obtain rfl : b = true := hr.symm
      exact ⟨some a, k₁, visit_orElse_some hm, hle, by simp⟩

/-- The tabs that are raised are lowered again, and can be: no visit leaves them below what
they were. -/
theorem Ends.raised {g : α → ℕ → Visit β} (h : Ends b m) (hg : ∀ a n, Ends true (g a n)) :
    Ends b (raiseTabs >>= fun _ => m >>= fun a => decrTabs >>= fun n => g a n) := by
  intro k
  have hraise : raiseTabs k = (some (k + 1), k + 1) := rfl
  obtain ⟨r, k', hm, hle, hr⟩ := h (k + 1)
  cases r with
  | none => exact ⟨none, k', (visit_bind hraise).trans (visit_bind_none hm), by omega, hr⟩
  | some a =>
      have hdecr : decrTabs k' = (some (k' - 1), k' - 1) := by
        have hguard : (guard (0 < k') : Visit Unit) = pure () := if_pos (by omega)
        have hget : (get : Visit ℕ) k' = (some k', k') := rfl
        rw [decrTabs, visit_bind hget, hguard]
        rfl
      obtain ⟨r', k'', hga, hle', hr'⟩ := hg a (k' - 1) (k' - 1)
      refine ⟨r', k'', ?_, by omega, hr'.trans hr⟩
      rw [visit_bind hraise, visit_bind hm, visit_bind hdecr, hga]

theorem Ends.block {stmts : Visit (List Shown)} (h : Ends b stmts) :
    Ends b (trvsStmtBlockOf stmts) :=
  h.raised fun _ _ => ends_pure _

end

theorem ends_optionalIdentifier (id : Option JSString) :
    Ends true (trvsOptionalIdentifier id) := by
  cases id <;> exact ends_pure _

theorem ends_propertyKey (key : PropertyKey) : Ends true (trvsPropertyKey key) := by
  cases key <;> exact ends_pure _

theorem ends_patterns (ws : List JSString) : Ends true (trvsPatterns ws) := by
  induction ws with
  | nil => exact ends_pure _
  | cons w ws ih =>
      rw [trvsPatterns, List.mapM_cons]
      exact (ends_pure _).map fun _ => ih.map fun _ => ends_pure _

mutual

theorem ends_expr : ∀ e : Expr, Ends e.holeFree (trvsCallExpr e)
  | .literal _ => by
      simp only [Expr.holeFree, trvsCallExpr]
      exact ends_pure _
  | .identifier _ => by
      simp only [Expr.holeFree, trvsCallExpr]
      exact ends_pure _
  | .thisExpr => by
      simp only [Expr.holeFree, trvsCallExpr]
      exact ends_pure _
  | .array [] => by
      simp only [Expr.holeFree, holeFreeElements, trvsCallExpr]
      exact ends_pure _
  | .array (e :: es) => by
      simp only [Expr.holeFree, trvsCallExpr]
      exact (ends_elements (e :: es)).map fun _ => ends_pure _
  | .object xs => by
      simp only [Expr.holeFree, trvsCallExpr]
      exact (ends_properties xs).map fun _ => ends_pure _
  | .function f => by
      simp only [Expr.holeFree, trvsCallExpr]
      exact (ends_function f).map fun _ => ends_pure _
  | .sequence es => by
      simp only [Expr.holeFree, trvsCallExpr]
      exact (ends_exprs es).map fun _ => ends_pure _
  | .unary _ _ e => by
      simp only [Expr.holeFree, trvsCallExpr]
      exact (ends_expr e).map fun _ => ends_pure _
  | .binary _ e e' => by
      simp only [Expr.holeFree, trvsCallExpr]
      exact (ends_expr e).bind fun _ => (ends_expr e').map fun _ => ends_pure _
  | .assign _ e e' => by
      simp only [Expr.holeFree, trvsCallExpr]
      exact (ends_expr e).bind fun _ => (ends_expr e').map fun _ => ends_pure _
  | .update _ _ e => by
      simp only [Expr.holeFree, trvsCallExpr]
      exact (ends_expr e).map fun _ => ends_pure _
  | .cond test consequent alternate => by
      simp only [Expr.holeFree, trvsCallExpr]
      exact (ends_expr test).bind fun _ => (ends_expr alternate).bind fun _ =>
        (ends_expr consequent).map fun _ => ends_pure _
  | .newExpr e es => by
      simp only [Expr.holeFree, trvsCallExpr]
      exact (ends_expr e).bind fun _ => (ends_exprs es).map fun _ => ends_pure _
  | .call e es => by
      simp only [Expr.holeFree, trvsCallExpr]
      exact (ends_expr e).bind fun _ => (ends_exprs es).map fun _ => ends_pure _
  | .member e _ => by
      simp only [Expr.holeFree, trvsCallExpr]
      exact (ends_expr e).map fun _ => ends_pure _
  | .index e e' => by
      simp only [Expr.holeFree, trvsCallExpr]
      exact (ends_expr e).bind fun _ => (ends_expr e').map fun _ => ends_pure _
  | .metaQuazi ss => by
      simp only [Expr.holeFree, trvsCallExpr]
      exact (ends_stmts ss).map fun _ => ends_pure _
  | .metaExec s => by
      simp only [Expr.holeFree, trvsCallExpr]
      exact (ends_stmt s).map fun _ => ends_pure _

theorem ends_exprs : ∀ es : List Expr, Ends (holeFreeExprs es) (trvsExprs es)
  | [] => by
      simp only [holeFreeExprs, trvsExprs]
      exact ends_pure _
  | e :: es => by
      simp only [holeFreeExprs, trvsExprs]
      exact (ends_expr e).bind fun _ => (ends_exprs es).map fun _ => ends_pure _

theorem ends_elements : ∀ es : List (Option Expr), Ends (holeFreeElements es) (trvsElements es)
  | [] => by
      simp only [holeFreeElements, trvsElements]
      exact ends_pure _
  | none :: _ => by
      simp only [holeFreeElements, trvsElements]
      exact ends_throw
  | some e :: es => by
      simp only [holeFreeElements, trvsElements]
      exact (ends_expr e).bind fun _ => (ends_elements es).map fun _ => ends_pure _

theorem ends_optionalExpr : ∀ e : Option Expr,
    Ends (holeFreeOptionalExpr e) (trvsOptionalExpr e)
  | none => by
      simp only [holeFreeOptionalExpr, trvsOptionalExpr]
      exact ends_pure _
  | some e => by
      simp only [holeFreeOptionalExpr, trvsOptionalExpr]
      exact ends_expr e

theorem ends_property : ∀ x : Property, Ends x.holeFree (trvsProperty x)
  | .mk _ key e => by
      simp only [Property.holeFree, trvsProperty]
      exact (ends_propertyKey key).bind fun _ => (ends_expr e).map fun _ => ends_pure _

theorem ends_properties : ∀ xs : List Property,
    Ends (holeFreeProperties xs) (trvsProperties xs)
  | [] => by
      simp only [holeFreeProperties, trvsProperties]
      exact ends_pure _
  | x :: xs => by
      simp only [holeFreeProperties, trvsProperties]
      exact (ends_property x).bind fun _ => (ends_properties xs).map fun _ => ends_pure _

theorem ends_function : ∀ f : FunctionNode, Ends f.holeFree (trvsFunction f)
  | .mk id params _ _ body => by
      simp only [FunctionNode.holeFree, trvsFunction]
      exact (ends_optionalIdentifier id).bind fun _ => (ends_patterns params).bind fun _ =>
        (ends_functionBody body).map fun _ => ends_pure _

/-- What is tried after the block is given up at the same holes. -/
theorem ends_functionBody : ∀ b : FunctionBody, Ends b.holeFree (trvsFunctionBody b)
  | .block ss => by
      simp only [FunctionBody.holeFree, trvsFunctionBody]
      exact (ends_stmts ss).block
  | .expression e => by
      have he := ends_expr e
      simp only [FunctionBody.holeFree]
      cases e with
      | metaQuazi ss =>
          simp only [Expr.holeFree, trvsCallExpr] at he ⊢
          simp only [trvsFunctionBody]
          have hbody := (ends_stmts ss).block.orElse he
          rwa [Bool.or_self] at hbody
      | metaExec s =>
          simp only [trvsCallExpr] at he
          simp only [trvsFunctionBody]
          exact ends_throw.block.orElse he
      | function f =>
          simp only [trvsCallExpr] at he
          simp only [trvsFunctionBody]
          exact ends_throw.block.orElse he
      | _ =>
          simp only [trvsFunctionBody]
          exact he

theorem ends_declarator : ∀ d : Declarator, Ends d.holeFree (trvsVariableDeclarator d)
  | .mk _ init => by
      simp only [Declarator.holeFree, trvsVariableDeclarator]
      exact (ends_pure _).bind fun _ => (ends_optionalExpr init).map fun _ => ends_pure _

theorem ends_declarators : ∀ ds : List Declarator,
    Ends (holeFreeDeclarators ds) (trvsVariableDeclarators ds)
  | [] => by
      simp only [holeFreeDeclarators, trvsVariableDeclarators]
      exact ends_pure _
  | d :: ds => by
      simp only [holeFreeDeclarators, trvsVariableDeclarators]
      exact (ends_declarator d).bind fun _ => (ends_declarators ds).map fun _ => ends_pure _

theorem ends_forHead : ∀ h : ForHead, Ends h.holeFree (trvsForHead h)
  | .declaration _ ds => by
      simp only [ForHead.holeFree, trvsForHead]
      exact (ends_declarators ds).map fun _ => ends_wrapped _
  | .expression e => by
      simp only [ForHead.holeFree, trvsForHead]
      exact ends_expr e

theorem ends_optionalForHead : ∀ h : Option ForHead,
    Ends (holeFreeOptionalForHead h) (trvsOptionalForHead h)
  | none => by
      simp only [holeFreeOptionalForHead, trvsOptionalForHead]
      exact ends_pure _
  | some h => by
      simp only [holeFreeOptionalForHead, trvsOptionalForHead]
      exact ends_forHead h

theorem ends_stmt : ∀ s : Stmt, Ends s.holeFree (trvsCallStmt s)
  | .empty => by
      simp only [Stmt.holeFree, trvsCallStmt]
      exact ends_wrapped _
  | .block ss => by
      simp only [Stmt.holeFree, trvsCallStmt]
      exact (ends_stmts ss).block
  | .expression e => by
      simp only [Stmt.holeFree, trvsCallStmt]
      exact (ends_expr e).map fun _ => ends_wrapped _
  | .ifStmt test consequent alternate => by
      simp only [Stmt.holeFree, trvsCallStmt]
      exact (ends_expr test).bind fun _ => (ends_stmt consequent).bind fun _ =>
        (ends_optionalStmt alternate).map fun _ => ends_notSemiWrapped _
  | .labeled _ s => by
      simp only [Stmt.holeFree, trvsCallStmt]
      exact (ends_pure _).bind fun _ => (ends_stmt s).map fun _ => ends_pure _
  | .breakStmt label => by
      simp only [Stmt.holeFree, trvsCallStmt]
      exact (ends_optionalIdentifier label).map fun _ => ends_wrapped _
  | .continueStmt label => by
      simp only [Stmt.holeFree, trvsCallStmt]
      exact (ends_optionalIdentifier label).map fun _ => ends_wrapped _
  | .switchStmt e cs => by
      have hparts : Ends (e.holeFree && holeFreeSwitchCases cs)
          (trvsCallExpr e >>= fun discr => trvsSwitchCases cs >>= fun cases =>
            pure (discr, cases)) :=
        (ends_expr e).bind fun _ => (ends_switchCases cs).map fun _ => ends_pure _
      have hswitch := hparts.raised (g := fun parts n =>
        wrapped (handlerStmtSwitch n parts.1 parts.2)) fun _ _ => ends_wrapped _
      simpa only [Stmt.holeFree, trvsCallStmt, bind_assoc, pure_bind] using hswitch
  | .returnStmt e => by
      simp only [Stmt.holeFree, trvsCallStmt]
      exact (ends_optionalExpr e).map fun _ => ends_wrapped _
  | .throwStmt e => by
      simp only [Stmt.holeFree, trvsCallStmt]
      exact (ends_expr e).map fun _ => ends_wrapped _
  | .tryStmt ss _ handler finalizer => by
      simp only [Stmt.holeFree, trvsCallStmt]
      exact (ends_stmts ss).block.bind fun _ => (ends_optionalCatchClause handler).bind fun _ =>
        (ends_optionalBlock finalizer).map fun _ => ends_wrapped _
  | .whileStmt e s => by
      simp only [Stmt.holeFree, trvsCallStmt]
      exact (ends_expr e).bind fun _ => (ends_stmt s).map fun _ => ends_wrapped _
  | .doWhile e s => by
      simp only [Stmt.holeFree, trvsCallStmt]
      exact (ends_expr e).bind fun _ => (ends_stmt s).map fun _ => ends_pure _
  | .forStmt init test update s => by
      simp only [Stmt.holeFree, trvsCallStmt]
      exact (ends_optionalForHead init).bind fun _ => (ends_optionalExpr test).bind fun _ =>
        (ends_optionalExpr update).bind fun _ => (ends_stmt s).map fun _ => ends_wrapped _
  | .forIn _ left right s => by
      simp only [Stmt.holeFree, trvsCallStmt]
      exact (ends_forHead left).bind fun _ => (ends_expr right).bind fun _ =>
        (ends_stmt s).map fun _ => ends_wrapped _
  | .debugger => by
      simp only [Stmt.holeFree, trvsCallStmt]
      exact ends_wrapped _
  | .function f => by
      simp only [Stmt.holeFree, trvsCallStmt]
      exact (ends_function f).map fun _ => ends_wrapped _
  | .declaration _ ds => by
      simp only [Stmt.holeFree, trvsCallStmt]
      exact (ends_declarators ds).map fun _ => ends_wrapped _

theorem ends_stmts : ∀ ss : List Stmt, Ends (holeFreeStmts ss) (trvsStmts ss)
  | [] => by
      simp only [holeFreeStmts, trvsStmts]
      exact ends_pure _
  | s :: ss => by
      simp only [holeFreeStmts, trvsStmts]
      exact (ends_stmt s).bind fun _ => (ends_stmts ss).map fun _ => ends_pure _

theorem ends_optionalStmt : ∀ s : Option Stmt,
    Ends (holeFreeOptionalStmt s) (trvsOptionalStmt s)
  | none => by
      simp only [holeFreeOptionalStmt, trvsOptionalStmt]
      exact ends_pure _
  | some s => by
      simp only [holeFreeOptionalStmt, trvsOptionalStmt]
      exact ends_stmt s

theorem ends_optionalBlock : ∀ ss : Option (List Stmt),
    Ends (holeFreeOptionalBlock ss) (trvsOptionalBlock ss)
  | none => by
      simp only [holeFreeOptionalBlock, trvsOptionalBlock]
      exact ends_pure _
  | some ss => by
      simp only [holeFreeOptionalBlock, trvsOptionalBlock]
      exact (ends_stmts ss).block

theorem ends_switchCase : ∀ c : SwitchCase, Ends c.holeFree (trvsSwitchCase c)
  | .mk test ss => by
      simp only [SwitchCase.holeFree, trvsSwitchCase]
      exact (ends_optionalExpr test).bind fun _ => (ends_stmts ss).map fun _ =>
        ends_tabs.map fun _ => ends_pure _

theorem ends_switchCases : ∀ cs : List SwitchCase,
    Ends (holeFreeSwitchCases cs) (trvsSwitchCases cs)
  | [] => by
      simp only [holeFreeSwitchCases, trvsSwitchCases]
      exact ends_pure _
  | c :: cs => by
      simp only [holeFreeSwitchCases, trvsSwitchCases]
      exact (ends_switchCase c).bind fun _ => (ends_switchCases cs).map fun _ => ends_pure _

theorem ends_catchClause : ∀ c : CatchClause, Ends c.holeFree (trvsCatchClause c)
  | .mk _ _ ss => by
      simp only [CatchClause.holeFree, trvsCatchClause]
      exact (ends_pure _).bind fun _ => (ends_stmts ss).block.map fun _ => ends_pure _

theorem ends_optionalCatchClause : ∀ c : Option CatchClause,
    Ends (holeFreeOptionalCatchClause c) (trvsOptionalCatchClause c)
  | none => by
      simp only [holeFreeOptionalCatchClause, trvsOptionalCatchClause]
      exact ends_pure _
  | some c => by
      simp only [holeFreeOptionalCatchClause, trvsOptionalCatchClause]
      exact ends_catchClause c

end

/-- A program has a text if and only if no hole is visited. -/
theorem stringify_isSome_iff (body : List Stmt) :
    (∃ text, stringify body = some (some text)) ↔ holeFreeStmts body = true := by
  obtain ⟨r, k, hrun, -, hr⟩ := ends_stmts body 0
  rw [stringify, trvsProgram]
  cases r with
  | none =>
      rw [visit_bind_none hrun, ← hr]
      simp
  | some rs =>
      rw [visit_bind hrun, ← hr]
      exact ⟨fun _ => rfl, fun _ => ⟨_, rfl⟩⟩

end MetaMonkey.Visualizer
