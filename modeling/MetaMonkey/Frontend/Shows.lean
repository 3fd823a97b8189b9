import MetaMonkey.Frontend.Syntax
import MetaMonkey.Js.Value

/-!
The objects that `ASTSerializer` makes of syntax trees: which object is the node of
a tree, by the properties that `NodeBuilder` gives it. What is missing is `null`.
-/

namespace MetaMonkey.Frontend

open Js

section

variable (h : JSHeap) (v : Value)

def HasType (type : String) : Prop := getProperty h v "type" = .ok (string (js type))

def Has (name : String) (P : Value → Prop) : Prop := ∃ w, getProperty h v name = .ok w ∧ P w

def HasArray (name : String) (P : List Value → Prop) : Prop :=
  Has h v name fun w => ∃ ws, arrayElems? h w = some ws ∧ P ws

def ShowsName (name : JSString) : Prop :=
  HasType h v "Identifier" ∧ getProperty h v "name" = .ok (string name)

def ShowsLabel (label : Option JSString) : Prop :=
  match label with
  | none => v = null
  | some name => ShowsName h v name

end

def BinaryOp.type (op : BinaryOp) : String :=
  if op.logical then "LogicalExpression" else "BinaryExpression"

variable (h : JSHeap)

def showsNames : List JSString → List Value → Prop
  | [], vs => vs = []
  | name :: names, vs => ∃ w ws, vs = w :: ws ∧ ShowsName h w name ∧ showsNames names ws

/-- The parts of a function that come before its body. -/
def ShowsHead (v : Value) (id : Option JSString) (params : List JSString) (closure : Bool) :
    Prop :=
  HasType h v "FunctionExpression" ∧ Has h v "id" (fun w => ShowsLabel h w id) ∧
    HasArray h v "params" (showsNames h params) ∧
    getProperty h v "expression" = .ok (boolean closure)

mutual

def Expr.Shows : Expr → Value → Prop
  | .identifier name, v => ShowsName h v name
  | .thisExpr, v => HasType h v "ThisExpression"
  | .elision, v => v = null
  | .array elements, v =>
      HasType h v "ArrayExpression" ∧ HasArray h v "elements" fun ws => showsExprs elements ws
  | .object properties, v =>
      HasType h v "ObjectExpression" ∧
        HasArray h v "properties" fun ws => showsProperties properties ws
  | .unary op argument, v =>
      HasType h v "UnaryExpression" ∧ getProperty h v "operator" = .ok (string (js op.text)) ∧
        getProperty h v "prefix" = .ok (boolean true) ∧
        Has h v "argument" fun w => argument.Shows w
  | .update op before argument, v =>
      HasType h v "UpdateExpression" ∧ getProperty h v "operator" = .ok (string (js op.text)) ∧
        getProperty h v "prefix" = .ok (boolean before) ∧
        Has h v "argument" fun w => argument.Shows w
  | .binary op left right, v =>
      HasType h v op.type ∧ getProperty h v "operator" = .ok (string (js op.text)) ∧
        (Has h v "left" fun w => left.Shows w) ∧ Has h v "right" fun w => right.Shows w
  | .assign op left right, v =>
      HasType h v "AssignmentExpression" ∧
        getProperty h v "operator" = .ok (string (js op.text)) ∧
        (Has h v "left" fun w => left.Shows w) ∧ Has h v "right" fun w => right.Shows w
  | .cond test consequent alternate, v =>
      HasType h v "ConditionalExpression" ∧ (Has h v "test" fun w => test.Shows w) ∧
        (Has h v "consequent" fun w => consequent.Shows w) ∧
        Has h v "alternate" fun w => alternate.Shows w
  | .call callee arguments, v =>
      HasType h v "CallExpression" ∧ (Has h v "callee" fun w => callee.Shows w) ∧
        HasArray h v "arguments" fun ws => showsExprs arguments ws
  | .newExpr callee arguments, v =>
      HasType h v "NewExpression" ∧ (Has h v "callee" fun w => callee.Shows w) ∧
        HasArray h v "arguments" fun ws => showsExprs arguments ws
  | .member object property, v =>
      HasType h v "MemberExpression" ∧ (Has h v "object" fun w => object.Shows w) ∧
        (Has h v "property" fun w => ShowsName h w property) ∧
        getProperty h v "computed" = .ok (boolean false)
  | .index object property, v =>
      HasType h v "MemberExpression" ∧ (Has h v "object" fun w => object.Shows w) ∧
        (Has h v "property" fun w => property.Shows w) ∧
        getProperty h v "computed" = .ok (boolean true)
  | .sequence expressions, v =>
      HasType h v "SequenceExpression" ∧
        HasArray h v "expressions" fun ws => showsExprs expressions ws
  | .yieldExpr argument, v =>
      HasType h v "YieldExpression" ∧ Has h v "argument" fun w => showsOptional argument w
  | .letExpr head body, v =>
      HasType h v "LetExpression" ∧ (HasArray h v "head" fun ws => showsDeclarators head ws) ∧
        Has h v "body" fun w => body.Shows w
  | .function id params body, v =>
      ShowsHead h v id params false ∧ Has h v "body" fun w => body.Shows w
  | .closure id params body, v =>
      ShowsHead h v id params true ∧ Has h v "body" fun w => body.Shows w

def showsExprs : List Expr → List Value → Prop
  | [], vs => vs = []
  | e :: es, vs => ∃ w ws, vs = w :: ws ∧ e.Shows w ∧ showsExprs es ws

def showsOptional : Option Expr → Value → Prop
  | none, v => v = null
  | some e, v => e.Shows v

def Property.Shows : Property → Value → Prop
  | .init key value, v =>
      HasType h v "Property" ∧ getProperty h v "kind" = .ok (string (js "init")) ∧
        (Has h v "key" fun w => ShowsName h w key) ∧ Has h v "value" fun w => value.Shows w

def showsProperties : List Property → List Value → Prop
  | [], vs => vs = []
  | x :: xs, vs => ∃ w ws, vs = w :: ws ∧ x.Shows w ∧ showsProperties xs ws

def Declarator.Shows : Declarator → Value → Prop
  | .mk id init, v =>
      HasType h v "VariableDeclarator" ∧ (Has h v "id" fun w => ShowsName h w id) ∧
        Has h v "init" fun w => showsOptional init w

def showsDeclarators : List Declarator → List Value → Prop
  | [], vs => vs = []
  | d :: ds, vs => ∃ w ws, vs = w :: ws ∧ d.Shows w ∧ showsDeclarators ds ws

def Stmt.Shows : Stmt → Value → Prop
  | .block body, v =>
      HasType h v "BlockStatement" ∧ HasArray h v "body" fun ws => showsStmts body ws
  | .declaration kind declarations, v =>
      HasType h v "VariableDeclaration" ∧ getProperty h v "kind" = .ok (string (js kind.text)) ∧
        HasArray h v "declarations" fun ws => showsDeclarators declarations ws
  | .empty, v => HasType h v "EmptyStatement"
  | .expression e, v =>
      HasType h v "ExpressionStatement" ∧ Has h v "expression" fun w => e.Shows w
  | .letStmt head body, v =>
      HasType h v "LetStatement" ∧ (HasArray h v "head" fun ws => showsDeclarators head ws) ∧
        Has h v "body" fun w => body.Shows w
  | .ifStmt test consequent none, v =>
      HasType h v "IfStatement" ∧ (Has h v "test" fun w => test.Shows w) ∧
        (Has h v "consequent" fun w => consequent.Shows w) ∧
        getProperty h v "alternate" = .ok null
  | .ifStmt test consequent (some alternate), v =>
      HasType h v "IfStatement" ∧ (Has h v "test" fun w => test.Shows w) ∧
        (Has h v "consequent" fun w => consequent.Shows w) ∧
        Has h v "alternate" fun w => alternate.Shows w
  | .whileStmt test body, v =>
      HasType h v "WhileStatement" ∧ (Has h v "test" fun w => test.Shows w) ∧
        Has h v "body" fun w => body.Shows w
  | .doWhile body test, v =>
      HasType h v "DoWhileStatement" ∧ (Has h v "body" fun w => body.Shows w) ∧
        Has h v "test" fun w => test.Shows w
  | .forStmt init test update body, v =>
      HasType h v "ForStatement" ∧ (Has h v "init" fun w => showsOptional init w) ∧
        (Has h v "test" fun w => showsOptional test w) ∧
        (Has h v "update" fun w => showsOptional update w) ∧ Has h v "body" fun w => body.Shows w
  | .forDecl kind declarations test update body, v =>
      HasType h v "ForStatement" ∧
        (Has h v "init" fun w =>
          HasType h w "VariableDeclaration" ∧
            getProperty h w "kind" = .ok (string (js kind.text)) ∧
            HasArray h w "declarations" fun ws => showsDeclarators declarations ws) ∧
        (Has h v "test" fun w => showsOptional test w) ∧
        (Has h v "update" fun w => showsOptional update w) ∧ Has h v "body" fun w => body.Shows w
  | .forIn each left right body, v =>
      HasType h v "ForInStatement" ∧ getProperty h v "each" = .ok (boolean each) ∧
        (Has h v "left" fun w => left.Shows w) ∧ (Has h v "right" fun w => right.Shows w) ∧
        Has h v "body" fun w => body.Shows w
  | .forInDecl each kind d right body, v =>
      HasType h v "ForInStatement" ∧ getProperty h v "each" = .ok (boolean each) ∧
        (Has h v "left" fun w =>
          HasType h w "VariableDeclaration" ∧
            getProperty h w "kind" = .ok (string (js kind.text)) ∧
            HasArray h w "declarations" fun ws => ∃ x, ws = [x] ∧ d.Shows x) ∧
        (Has h v "right" fun w => right.Shows w) ∧ Has h v "body" fun w => body.Shows w
  | .forOf left right body, v =>
      HasType h v "ForOfStatement" ∧ (Has h v "left" fun w => left.Shows w) ∧
        (Has h v "right" fun w => right.Shows w) ∧ Has h v "body" fun w => body.Shows w
  | .forOfDecl kind d right body, v =>
      HasType h v "ForOfStatement" ∧
        (Has h v "left" fun w =>
          HasType h w "VariableDeclaration" ∧
            getProperty h w "kind" = .ok (string (js kind.text)) ∧
            HasArray h w "declarations" fun ws => ∃ x, ws = [x] ∧ d.Shows x) ∧
        (Has h v "right" fun w => right.Shows w) ∧ Has h v "body" fun w => body.Shows w
  | .breakStmt label, v =>
      HasType h v "BreakStatement" ∧ Has h v "label" fun w => ShowsLabel h w label
  | .continueStmt label, v =>
      HasType h v "ContinueStatement" ∧ Has h v "label" fun w => ShowsLabel h w label
  | .returnStmt argument, v =>
      HasType h v "ReturnStatement" ∧ Has h v "argument" fun w => showsOptional argument w
  | .withStmt object body, v =>
      HasType h v "WithStatement" ∧ (Has h v "object" fun w => object.Shows w) ∧
        Has h v "body" fun w => body.Shows w
  | .labeled label body, v =>
      HasType h v "LabeledStatement" ∧ (Has h v "label" fun w => ShowsName h w label) ∧
        Has h v "body" fun w => body.Shows w
  | .switchStmt discriminant cases, v =>
      HasType h v "SwitchStatement" ∧ (Has h v "discriminant" fun w => discriminant.Shows w) ∧
        HasArray h v "cases" fun ws => showsCases cases ws
  | .throwStmt argument, v =>
      HasType h v "ThrowStatement" ∧ Has h v "argument" fun w => argument.Shows w
  | .tryStmt block guarded handler finalizer, v =>
      HasType h v "TryStatement" ∧ (Has h v "block" fun w => block.Shows w) ∧
        (HasArray h v "guardedHandlers" fun ws => showsHandlers guarded ws) ∧
        (Has h v "handler" fun w => showsHandler handler w) ∧
        (Has h v "finalizer" fun w => showsFinalizer finalizer w) ∧
        -- only a clause has a guard
        getProperty h v "guard" = .ok undefined
  | .debugger, v => HasType h v "DebuggerStatement"

def showsStmts : List Stmt → List Value → Prop
  | [], vs => vs = []
  | s :: ss, vs => ∃ w ws, vs = w :: ws ∧ s.Shows w ∧ showsStmts ss ws

def SwitchCase.Shows : SwitchCase → Value → Prop
  | .mk test consequent, v =>
      HasType h v "SwitchCase" ∧ (Has h v "test" fun w => showsOptional test w) ∧
        HasArray h v "consequent" fun ws => showsStmts consequent ws

def showsCases : List SwitchCase → List Value → Prop
  | [], vs => vs = []
  | c :: cs, vs => ∃ w ws, vs = w :: ws ∧ c.Shows w ∧ showsCases cs ws

def CatchClause.Shows : CatchClause → Value → Prop
  | .mk param guard body, v =>
      HasType h v "CatchClause" ∧ (Has h v "param" fun w => ShowsName h w param) ∧
        (Has h v "guard" fun w => showsOptional guard w) ∧ Has h v "body" fun w => body.Shows w

def showsHandlers : List CatchClause → List Value → Prop
  | [], vs => vs = []
  | c :: cs, vs => ∃ w ws, vs = w :: ws ∧ c.Shows w ∧ showsHandlers cs ws

def showsHandler : Option CatchClause → Value → Prop
  | none, v => v = null
  | some c, v => c.Shows v

def showsFinalizer : Option Block → Value → Prop
  | none, v => v = null
  | some b, v => b.Shows v

def Block.Shows : Block → Value → Prop
  | .mk body, v =>
      HasType h v "BlockStatement" ∧ HasArray h v "body" fun ws => showsStmts body ws

end

/-- The node of a program. -/
def ShowsProgram (body : List Stmt) (v : Value) : Prop :=
  HasType h v "Program" ∧ HasArray h v "body" fun ws => showsStmts h body ws

/-! ### Lists -/

section

variable {h : JSHeap} {vs : List Value}

theorem showsNames_forall₂ {names : List JSString} (hs : showsNames h names vs) :
    List.Forall₂ (fun name v => ShowsName h v name) names vs := by
  induction names generalizing vs with
  | nil => simpa [showsNames] using hs
  | cons name names ih =>
      obtain ⟨w, ws, rfl, hw, hws⟩ := hs
      exact .cons hw (ih hws)

theorem showsExprs_forall₂ {es : List Expr} (hs : showsExprs h es vs) :
    List.Forall₂ (Expr.Shows h) es vs := by
  induction es generalizing vs with
  | nil => simpa [showsExprs] using hs
  | cons e es ih =>
      obtain ⟨w, ws, rfl, hw, hws⟩ := hs
      exact .cons hw (ih hws)

theorem showsProperties_forall₂ {xs : List Property} (hs : showsProperties h xs vs) :
    List.Forall₂ (Property.Shows h) xs vs := by
  induction xs generalizing vs with
  | nil => simpa [showsProperties] using hs
  | cons x xs ih =>
      obtain ⟨w, ws, rfl, hw, hws⟩ := hs
      exact .cons hw (ih hws)

theorem showsDeclarators_forall₂ {ds : List Declarator} (hs : showsDeclarators h ds vs) :
    List.Forall₂ (Declarator.Shows h) ds vs := by
  induction ds generalizing vs with
  | nil => simpa [showsDeclarators] using hs
  | cons d ds ih =>
      obtain ⟨w, ws, rfl, hw, hws⟩ := hs
      exact .cons hw (ih hws)

theorem showsStmts_forall₂ {ss : List Stmt} (hs : showsStmts h ss vs) :
    List.Forall₂ (Stmt.Shows h) ss vs := by
  induction ss generalizing vs with
  | nil => simpa [showsStmts] using hs
  | cons s ss ih =>
      obtain ⟨w, ws, rfl, hw, hws⟩ := hs
      exact .cons hw (ih hws)

theorem showsCases_forall₂ {cs : List SwitchCase} (hs : showsCases h cs vs) :
    List.Forall₂ (SwitchCase.Shows h) cs vs := by
  induction cs generalizing vs with
  | nil => simpa [showsCases] using hs
  | cons c cs ih =>
      obtain ⟨w, ws, rfl, hw, hws⟩ := hs
      exact .cons hw (ih hws)

end

end MetaMonkey.Frontend
