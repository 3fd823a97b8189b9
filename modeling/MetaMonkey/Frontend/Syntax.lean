import MetaMonkey.Js.Number

/-!
The syntax trees of the language, as `ASTSerializer` builds them from the
parse nodes. Flattened operators are shown as the nested nodes that
`leftAssociate` makes of them.
-/

namespace MetaMonkey.Frontend

open Js

/-- The operators of `unopNames` that are no staging operators. -/
inductive UnaryOp where
  | delete
  | neg
  | pos
  | not
  | bitnot
  | typeof
  | void
  deriving DecidableEq

inductive UpdateOp where
  | inc
  | dec
  deriving DecidableEq

/-- The binary and logical operators, in the order of `PrecedenceTable`. -/
inductive BinaryOp where
  | or
  | and
  | bitor
  | bitxor
  | bitand
  | strictEq
  | eq
  | strictNe
  | ne
  | lt
  | le
  | gt
  | ge
  | instanceof
  | in
  | lsh
  | rsh
  | ursh
  | add
  | sub
  | star
  | div
  | mod
  deriving DecidableEq

/-- The operators of `aopNames`. -/
inductive AssignOp where
  | assign
  | add
  | sub
  | star
  | div
  | mod
  | lsh
  | rsh
  | ursh
  | bitor
  | bitxor
  | bitand
  deriving DecidableEq

inductive VarDeclKind where
  | var
  | const
  | let
  deriving DecidableEq

def UnaryOp.text : UnaryOp → String
  | delete => "delete"
  | neg => "-"
  | pos => "+"
  | not => "!"
  | bitnot => "~"
  | typeof => "typeof"
  | void => "void"

def UpdateOp.text : UpdateOp → String
  | inc => "++"
  | dec => "--"

def BinaryOp.text : BinaryOp → String
  | or => "||"
  | and => "&&"
  | bitor => "|"
  | bitxor => "^"
  | bitand => "&"
  | strictEq => "==="
  | eq => "=="
  | strictNe => "!=="
  | ne => "!="
  | lt => "<"
  | le => "<="
  | gt => ">"
  | ge => ">="
  | instanceof => "instanceof"
  | «in» => "in"
  | lsh => "<<"
  | rsh => ">>"
  | ursh => ">>>"
  | add => "+"
  | sub => "-"
  | star => "*"
  | div => "/"
  | mod => "%"

/-- The two operators of a `LogicalExpression`. -/
def BinaryOp.logical : BinaryOp → Bool
  | or => true
  | and => true
  | _ => false

def AssignOp.text : AssignOp → String
  | assign => "="
  | add => "+="
  | sub => "-="
  | star => "*="
  | div => "/="
  | mod => "%="
  | lsh => "<<="
  | rsh => ">>="
  | ursh => ">>>="
  | bitor => "|="
  | bitxor => "^="
  | bitand => "&="

def VarDeclKind.text : VarDeclKind → String
  | var => "var"
  | const => "const"
  | «let» => "let"

mutual

/-- `elision` is a hole of an array, which is `null` in the array of the elements. -/
inductive Expr where
  | identifier (name : JSString)
  | thisExpr
  | elision
  | array (elements : List Expr)
  | object (properties : List Property)
  | unary (op : UnaryOp) (argument : Expr)
  | update (op : UpdateOp) (before : Bool) (argument : Expr)
  | binary (op : BinaryOp) (left right : Expr)
  | assign (op : AssignOp) (left right : Expr)
  | cond (test consequent alternate : Expr)
  | call (callee : Expr) (arguments : List Expr)
  | newExpr (callee : Expr) (arguments : List Expr)
  | member (object : Expr) (property : JSString)
  | index (object property : Expr)
  | sequence (expressions : List Expr)
  | yieldExpr (argument : Option Expr)
  | letExpr (head : List Declarator) (body : Expr)
  | function (id : Option JSString) (params : List JSString) (body : Block)
  | closure (id : Option JSString) (params : List JSString) (body : Expr)

inductive Property where
  | init (key : JSString) (value : Expr)

inductive Declarator where
  | mk (id : JSString) (init : Option Expr)

/-- A `for` with a declaration has a constructor of its own, as has a `for` over
the properties or the values of an object. -/
inductive Stmt where
  | block (body : List Stmt)
  | declaration (kind : VarDeclKind) (declarations : List Declarator)
  | empty
  | expression (expression : Expr)
  | letStmt (head : List Declarator) (body : Stmt)
  | ifStmt (test : Expr) (consequent : Stmt) (alternate : Option Stmt)
  | whileStmt (test : Expr) (body : Stmt)
  | doWhile (body : Stmt) (test : Expr)
  | forStmt (init test update : Option Expr) (body : Stmt)
  | forDecl (kind : VarDeclKind) (declarations : List Declarator) (test update : Option Expr)
      (body : Stmt)
  | forIn (each : Bool) (left right : Expr) (body : Stmt)
  | forInDecl (each : Bool) (kind : VarDeclKind) (declaration : Declarator) (right : Expr)
      (body : Stmt)
  | forOf (left right : Expr) (body : Stmt)
  | forOfDecl (kind : VarDeclKind) (declaration : Declarator) (right : Expr) (body : Stmt)
  | breakStmt (label : Option JSString)
  | continueStmt (label : Option JSString)
  | returnStmt (argument : Option Expr)
  | withStmt (object : Expr) (body : Stmt)
  | labeled (label : JSString) (body : Stmt)
  | switchStmt (discriminant : Expr) (cases : List SwitchCase)
  | throwStmt (argument : Expr)
  | tryStmt (block : Block) (guardedHandlers : List CatchClause)
      (handler : Option CatchClause) (finalizer : Option Block)
  | debugger

/-- The default case has no test. -/
inductive SwitchCase where
  | mk (test : Option Expr) (consequent : List Stmt)

inductive CatchClause where
  | mk (param : JSString) (guard : Option Expr) (body : Block)

/-- A `BlockStatement` where the grammar has no other statement. -/
inductive Block where
  | mk (body : List Stmt)

end

/-- What makes predicates hold of all trees, by induction over all kinds of them
together. -/
structure Inductive (P : Expr → Prop) (Q : Stmt → Prop) (V : Property → Prop)
    (D : Declarator → Prop) (C : SwitchCase → Prop) (H : CatchClause → Prop)
    (B : Block → Prop) : Prop where
  identifier : ∀ name, P (.identifier name)
  thisExpr : P .thisExpr
  elision : P .elision
  array : ∀ elements, (∀ e ∈ elements, P e) → P (.array elements)
  object : ∀ properties, (∀ x ∈ properties, V x) → P (.object properties)
  unary : ∀ op argument, P argument → P (.unary op argument)
  update : ∀ op before argument, P argument → P (.update op before argument)
  binary : ∀ op left right, P left → P right → P (.binary op left right)
  assign : ∀ op left right, P left → P right → P (.assign op left right)
  cond : ∀ test consequent alternate, P test → P consequent → P alternate →
    P (.cond test consequent alternate)
  call : ∀ callee args, P callee → (∀ e ∈ args, P e) → P (.call callee args)
  newExpr : ∀ callee args, P callee → (∀ e ∈ args, P e) → P (.newExpr callee args)
  member : ∀ object property, P object → P (.member object property)
  index : ∀ object property, P object → P property → P (.index object property)
  sequence : ∀ expressions, (∀ e ∈ expressions, P e) → P (.sequence expressions)
  yieldExpr : ∀ argument, (∀ e ∈ argument, P e) → P (.yieldExpr argument)
  letExpr : ∀ head body, (∀ d ∈ head, D d) → P body → P (.letExpr head body)
  function : ∀ id params body, B body → P (.function id params body)
  closure : ∀ id params body, P body → P (.closure id params body)
  property : ∀ key value, P value → V (.init key value)
  declarator : ∀ id init, (∀ e ∈ init, P e) → D (.mk id init)
  block : ∀ body, (∀ s ∈ body, Q s) → Q (.block body)
  declaration : ∀ kind ds, (∀ d ∈ ds, D d) → Q (.declaration kind ds)
  empty : Q .empty
  expression : ∀ e, P e → Q (.expression e)
  letStmt : ∀ head body, (∀ d ∈ head, D d) → Q body → Q (.letStmt head body)
  ifStmt : ∀ test consequent alternate, P test → Q consequent → (∀ s ∈ alternate, Q s) →
    Q (.ifStmt test consequent alternate)
  whileStmt : ∀ test body, P test → Q body → Q (.whileStmt test body)
  doWhile : ∀ body test, Q body → P test → Q (.doWhile body test)
  forStmt : ∀ init test update body, (∀ e ∈ init, P e) → (∀ e ∈ test, P e) →
    (∀ e ∈ update, P e) → Q body → Q (.forStmt init test update body)
  forDecl : ∀ kind ds test update body, (∀ d ∈ ds, D d) → (∀ e ∈ test, P e) →
    (∀ e ∈ update, P e) → Q body → Q (.forDecl kind ds test update body)
  forIn : ∀ each left right body, P left → P right → Q body → Q (.forIn each left right body)
  forInDecl : ∀ each kind d right body, D d → P right → Q body →
    Q (.forInDecl each kind d right body)
  forOf : ∀ left right body, P left → P right → Q body → Q (.forOf left right body)
  forOfDecl : ∀ kind d right body, D d → P right → Q body → Q (.forOfDecl kind d right body)
  breakStmt : ∀ label, Q (.breakStmt label)
  continueStmt : ∀ label, Q (.continueStmt label)
  returnStmt : ∀ argument, (∀ e ∈ argument, P e) → Q (.returnStmt argument)
  withStmt : ∀ object body, P object → Q body → Q (.withStmt object body)
  labeled : ∀ label body, Q body → Q (.labeled label body)
  switchStmt : ∀ discriminant cases, P discriminant → (∀ c ∈ cases, C c) →
    Q (.switchStmt discriminant cases)
  throwStmt : ∀ argument, P argument → Q (.throwStmt argument)
  tryStmt : ∀ block guarded handler finalizer, B block → (∀ c ∈ guarded, H c) →
    (∀ c ∈ handler, H c) → (∀ b ∈ finalizer, B b) →
    Q (.tryStmt block guarded handler finalizer)
  debugger : Q .debugger
  switchCase : ∀ test consequent, (∀ e ∈ test, P e) → (∀ s ∈ consequent, Q s) →
    C (.mk test consequent)
  catchClause : ∀ param guard body, (∀ e ∈ guard, P e) → B body → H (.mk param guard body)
  body : ∀ body, (∀ s ∈ body, Q s) → B (.mk body)

section

variable {P : Expr → Prop} {Q : Stmt → Prop} {V : Property → Prop} {D : Declarator → Prop}
  {C : SwitchCase → Prop} {H : CatchClause → Prop} {B : Block → Prop}

mutual

theorem Inductive.expr (h : Inductive P Q V D C H B) : ∀ e, P e
  | .identifier name => h.identifier name
  | .thisExpr => h.thisExpr
  | .elision => h.elision
  | .array elements => h.array elements fun e _ => h.expr e
  | .object properties => h.object properties fun x _ => h.ofProperty x
  | .unary op argument => h.unary op argument (h.expr argument)
  | .update op before argument => h.update op before argument (h.expr argument)
  | .binary op left right => h.binary op left right (h.expr left) (h.expr right)
  | .assign op left right => h.assign op left right (h.expr left) (h.expr right)
  | .cond test consequent alternate =>
      h.cond test consequent alternate (h.expr test) (h.expr consequent) (h.expr alternate)
  | .call callee args => h.call callee args (h.expr callee) fun e _ => h.expr e
  | .newExpr callee args => h.newExpr callee args (h.expr callee) fun e _ => h.expr e
  | .member object property => h.member object property (h.expr object)
  | .index object property => h.index object property (h.expr object) (h.expr property)
  | .sequence expressions => h.sequence expressions fun e _ => h.expr e
  | .yieldExpr argument => h.yieldExpr argument fun e _ => h.expr e
  | .letExpr head body => h.letExpr head body (fun d _ => h.ofDeclarator d) (h.expr body)
  | .function id params body => h.function id params body (h.ofBlock body)
  | .closure id params body => h.closure id params body (h.expr body)
termination_by e => sizeOf e

theorem Inductive.stmt (h : Inductive P Q V D C H B) : ∀ s, Q s
  | .block body => h.block body fun s _ => h.stmt s
  | .declaration kind ds => h.declaration kind ds fun d _ => h.ofDeclarator d
  | .empty => h.empty
  | .expression e => h.expression e (h.expr e)
  | .letStmt head body => h.letStmt head body (fun d _ => h.ofDeclarator d) (h.stmt body)
  | .ifStmt test consequent alternate =>
      h.ifStmt test consequent alternate (h.expr test) (h.stmt consequent) fun s _ => h.stmt s
  | .whileStmt test body => h.whileStmt test body (h.expr test) (h.stmt body)
  | .doWhile body test => h.doWhile body test (h.stmt body) (h.expr test)
  | .forStmt init test update body =>
      h.forStmt init test update body (fun e _ => h.expr e) (fun e _ => h.expr e)
        (fun e _ => h.expr e) (h.stmt body)
  | .forDecl kind ds test update body =>
      h.forDecl kind ds test update body (fun d _ => h.ofDeclarator d) (fun e _ => h.expr e)
        (fun e _ => h.expr e) (h.stmt body)
  | .forIn each left right body =>
      h.forIn each left right body (h.expr left) (h.expr right) (h.stmt body)
  | .forInDecl each kind d right body =>
      h.forInDecl each kind d right body (h.ofDeclarator d) (h.expr right) (h.stmt body)
  | .forOf left right body => h.forOf left right body (h.expr left) (h.expr right) (h.stmt body)
  | .forOfDecl kind d right body =>
      h.forOfDecl kind d right body (h.ofDeclarator d) (h.expr right) (h.stmt body)
  | .breakStmt label => h.breakStmt label
  | .continueStmt label => h.continueStmt label
  | .returnStmt argument => h.returnStmt argument fun e _ => h.expr e
  | .withStmt object body => h.withStmt object body (h.expr object) (h.stmt body)
  | .labeled label body => h.labeled label body (h.stmt body)
  | .switchStmt discriminant cases =>
      h.switchStmt discriminant cases (h.expr discriminant) fun c _ => h.ofSwitchCase c
  | .throwStmt argument => h.throwStmt argument (h.expr argument)
  | .tryStmt block guarded handler finalizer =>
      h.tryStmt block guarded handler finalizer (h.ofBlock block) (fun c _ => h.ofCatchClause c)
        (fun c _ => h.ofCatchClause c) fun b _ => h.ofBlock b
  | .debugger => h.debugger
termination_by s => sizeOf s

theorem Inductive.ofProperty (h : Inductive P Q V D C H B) : ∀ x, V x
  | .init key value => h.property key value (h.expr value)
termination_by x => sizeOf x

theorem Inductive.ofDeclarator (h : Inductive P Q V D C H B) : ∀ d, D d
  | .mk id init => h.declarator id init fun e _ => h.expr e
termination_by d => sizeOf d

theorem Inductive.ofSwitchCase (h : Inductive P Q V D C H B) : ∀ c, C c
  | .mk test consequent => h.switchCase test consequent (fun e _ => h.expr e) fun s _ => h.stmt s
termination_by c => sizeOf c

theorem Inductive.ofCatchClause (h : Inductive P Q V D C H B) : ∀ c, H c
  | .mk param guard body =>
      h.catchClause param guard body (fun e _ => h.expr e) (h.ofBlock body)
termination_by c => sizeOf c

theorem Inductive.ofBlock (h : Inductive P Q V D C H B) : ∀ b, B b
  | .mk body => h.body body fun s _ => h.stmt s
termination_by b => sizeOf b

end

end

mutual

/-- `p` and `q` hold of all the expressions and statements of a tree. -/
def Expr.All (p : Expr → Prop) (q : Stmt → Prop) : Expr → Prop
  | .identifier name => p (.identifier name)
  | .thisExpr => p .thisExpr
  | .elision => p .elision
  | .array elements => p (.array elements) ∧ ∀ e ∈ elements, e.All p q
  | .object properties => p (.object properties) ∧ ∀ x ∈ properties, x.All p q
  | .unary op argument => p (.unary op argument) ∧ argument.All p q
  | .update op before argument => p (.update op before argument) ∧ argument.All p q
  | .binary op left right => p (.binary op left right) ∧ left.All p q ∧ right.All p q
  | .assign op left right => p (.assign op left right) ∧ left.All p q ∧ right.All p q
  | .cond test consequent alternate =>
      p (.cond test consequent alternate) ∧ test.All p q ∧ consequent.All p q ∧
        alternate.All p q
  | .call callee args => p (.call callee args) ∧ callee.All p q ∧ ∀ e ∈ args, e.All p q
  | .newExpr callee args => p (.newExpr callee args) ∧ callee.All p q ∧ ∀ e ∈ args, e.All p q
  | .member object property => p (.member object property) ∧ object.All p q
  | .index object property => p (.index object property) ∧ object.All p q ∧ property.All p q
  | .sequence expressions => p (.sequence expressions) ∧ ∀ e ∈ expressions, e.All p q
  | .yieldExpr argument => p (.yieldExpr argument) ∧ ∀ e ∈ argument, e.All p q
  | .letExpr head body => p (.letExpr head body) ∧ (∀ d ∈ head, d.All p q) ∧ body.All p q
  | .function id params body => p (.function id params body) ∧ body.All p q
  | .closure id params body => p (.closure id params body) ∧ body.All p q
termination_by e => sizeOf e

def Property.All (p : Expr → Prop) (q : Stmt → Prop) : Property → Prop
  | .init _ value => value.All p q
termination_by x => sizeOf x

def Declarator.All (p : Expr → Prop) (q : Stmt → Prop) : Declarator → Prop
  | .mk _ init => ∀ e ∈ init, e.All p q
termination_by d => sizeOf d

def Stmt.All (p : Expr → Prop) (q : Stmt → Prop) : Stmt → Prop
  | .block body => q (.block body) ∧ ∀ s ∈ body, s.All p q
  | .declaration kind ds => q (.declaration kind ds) ∧ ∀ d ∈ ds, d.All p q
  | .empty => q .empty
  | .expression e => q (.expression e) ∧ e.All p q
  | .letStmt head body => q (.letStmt head body) ∧ (∀ d ∈ head, d.All p q) ∧ body.All p q
  | .ifStmt test consequent alternate =>
      q (.ifStmt test consequent alternate) ∧ test.All p q ∧ consequent.All p q ∧
        ∀ s ∈ alternate, s.All p q
  | .whileStmt test body => q (.whileStmt test body) ∧ test.All p q ∧ body.All p q
  | .doWhile body test => q (.doWhile body test) ∧ body.All p q ∧ test.All p q
  | .forStmt init test update body =>
      q (.forStmt init test update body) ∧ (∀ e ∈ init, e.All p q) ∧ (∀ e ∈ test, e.All p q) ∧
        (∀ e ∈ update, e.All p q) ∧ body.All p q
  | .forDecl kind ds test update body =>
      q (.forDecl kind ds test update body) ∧ (∀ d ∈ ds, d.All p q) ∧
        (∀ e ∈ test, e.All p q) ∧ (∀ e ∈ update, e.All p q) ∧ body.All p q
  | .forIn each left right body =>
      q (.forIn each left right body) ∧ left.All p q ∧ right.All p q ∧ body.All p q
  | .forInDecl each kind d right body =>
      q (.forInDecl each kind d right body) ∧ d.All p q ∧ right.All p q ∧ body.All p q
  | .forOf left right body =>
      q (.forOf left right body) ∧ left.All p q ∧ right.All p q ∧ body.All p q
  | .forOfDecl kind d right body =>
      q (.forOfDecl kind d right body) ∧ d.All p q ∧ right.All p q ∧ body.All p q
  | .breakStmt label => q (.breakStmt label)
  | .continueStmt label => q (.continueStmt label)
  | .returnStmt argument => q (.returnStmt argument) ∧ ∀ e ∈ argument, e.All p q
  | .withStmt object body => q (.withStmt object body) ∧ object.All p q ∧ body.All p q
  | .labeled label body => q (.labeled label body) ∧ body.All p q
  | .switchStmt discriminant cases =>
      q (.switchStmt discriminant cases) ∧ discriminant.All p q ∧ ∀ c ∈ cases, c.All p q
  | .throwStmt argument => q (.throwStmt argument) ∧ argument.All p q
  | .tryStmt block guarded handler finalizer =>
      q (.tryStmt block guarded handler finalizer) ∧ block.All p q ∧
        (∀ c ∈ guarded, c.All p q) ∧ (∀ c ∈ handler, c.All p q) ∧ ∀ b ∈ finalizer, b.All p q
  | .debugger => q .debugger
termination_by s => sizeOf s

def SwitchCase.All (p : Expr → Prop) (q : Stmt → Prop) : SwitchCase → Prop
  | .mk test consequent => (∀ e ∈ test, e.All p q) ∧ ∀ s ∈ consequent, s.All p q
termination_by c => sizeOf c

def CatchClause.All (p : Expr → Prop) (q : Stmt → Prop) : CatchClause → Prop
  | .mk _ guard body => (∀ e ∈ guard, e.All p q) ∧ body.All p q
termination_by c => sizeOf c

def Block.All (p : Expr → Prop) (q : Stmt → Prop) : Block → Prop
  | .mk body => ∀ s ∈ body, s.All p q
termination_by b => sizeOf b

end

section

-- the equations are made here, once for all the proofs that unfold
attribute [local simp] Expr.All Property.All Declarator.All Stmt.All SwitchCase.All
  CatchClause.All Block.All

end

theorem Expr.All.self {p : Expr → Prop} {q : Stmt → Prop} {e : Expr} (h : e.All p q) : p e := by
  cases e with
  | identifier name => rwa [Expr.All] at h
  | thisExpr => rwa [Expr.All] at h
  | elision => rwa [Expr.All] at h
  | _ => rw [Expr.All] at h; exact h.1

theorem Stmt.All.self {p : Expr → Prop} {q : Stmt → Prop} {s : Stmt} (h : s.All p q) : q s := by
  cases s with
  | empty => rwa [Stmt.All] at h
  | breakStmt label => rwa [Stmt.All] at h
  | continueStmt label => rwa [Stmt.All] at h
  | debugger => rwa [Stmt.All] at h
  | _ => rw [Stmt.All] at h; exact h.1

section

variable {p p' : Expr → Prop} {q q' : Stmt → Prop}

theorem all_imp (hp : ∀ e, p e → p' e) (hq : ∀ s, q s → q' s) :
    Inductive (fun e => e.All p q → e.All p' q') (fun s => s.All p q → s.All p' q')
      (fun x => x.All p q → x.All p' q') (fun d => d.All p q → d.All p' q')
      (fun c => c.All p q → c.All p' q') (fun c => c.All p q → c.All p' q')
      (fun b => b.All p q → b.All p' q') := by
  constructor <;> intros <;>
    simp only [Expr.All, Stmt.All, Property.All, Declarator.All, SwitchCase.All, CatchClause.All,
      Block.All] at * <;> grind

theorem Expr.All.imp {e : Expr} (h : e.All p q) (hp : ∀ e, p e → p' e) (hq : ∀ s, q s → q' s) :
    e.All p' q' :=
  (all_imp hp hq).expr e h

theorem Stmt.All.imp {s : Stmt} (h : s.All p q) (hp : ∀ e, p e → p' e) (hq : ∀ s, q s → q' s) :
    s.All p' q' :=
  (all_imp hp hq).stmt s h

theorem all_of_forall (hp : ∀ e, p e) (hq : ∀ s, q s) :
    Inductive (fun e => e.All p q) (fun s => s.All p q) (fun x => x.All p q)
      (fun d => d.All p q) (fun c => c.All p q) (fun c => c.All p q) (fun b => b.All p q) := by
  constructor <;> intros <;>
    simp only [Expr.All, Stmt.All, Property.All, Declarator.All, SwitchCase.All, CatchClause.All,
      Block.All] at * <;> grind

theorem all_and (p p' : Expr → Prop) (q q' : Stmt → Prop) :
    Inductive (fun e => e.All (fun x => p x ∧ p' x) (fun x => q x ∧ q' x) ↔ e.All p q ∧ e.All p' q')
      (fun s => s.All (fun x => p x ∧ p' x) (fun x => q x ∧ q' x) ↔ s.All p q ∧ s.All p' q')
      (fun x => x.All (fun x => p x ∧ p' x) (fun x => q x ∧ q' x) ↔ x.All p q ∧ x.All p' q')
      (fun d => d.All (fun x => p x ∧ p' x) (fun x => q x ∧ q' x) ↔ d.All p q ∧ d.All p' q')
      (fun c => c.All (fun x => p x ∧ p' x) (fun x => q x ∧ q' x) ↔ c.All p q ∧ c.All p' q')
      (fun c => c.All (fun x => p x ∧ p' x) (fun x => q x ∧ q' x) ↔ c.All p q ∧ c.All p' q')
      (fun b => b.All (fun x => p x ∧ p' x) (fun x => q x ∧ q' x) ↔ b.All p q ∧ b.All p' q') := by
  constructor <;> intros <;>
    simp only [Expr.All, Stmt.All, Property.All, Declarator.All, SwitchCase.All, CatchClause.All,
      Block.All] <;> grind

theorem Expr.all_and {e : Expr} : e.All (fun x => p x ∧ p' x) (fun x => q x ∧ q' x) ↔
    e.All p q ∧ e.All p' q' :=
  (Frontend.all_and p p' q q').expr e

theorem Stmt.all_and {s : Stmt} : s.All (fun x => p x ∧ p' x) (fun x => q x ∧ q' x) ↔
    s.All p q ∧ s.All p' q' :=
  (Frontend.all_and p p' q q').stmt s

/-- What holds of all nodes of a tree holds so of each of its parts. -/
theorem all_all (p : Expr → Prop) (q : Stmt → Prop) :
    Inductive (fun e => e.All p q → e.All (fun x => x.All p q) (fun x => x.All p q))
      (fun s => s.All p q → s.All (fun x => x.All p q) (fun x => x.All p q))
      (fun x => x.All p q → x.All (fun x => x.All p q) (fun x => x.All p q))
      (fun d => d.All p q → d.All (fun x => x.All p q) (fun x => x.All p q))
      (fun c => c.All p q → c.All (fun x => x.All p q) (fun x => x.All p q))
      (fun c => c.All p q → c.All (fun x => x.All p q) (fun x => x.All p q))
      (fun b => b.All p q → b.All (fun x => x.All p q) (fun x => x.All p q)) := by
  constructor <;> intros <;>
    simp only [Expr.All, Stmt.All, Property.All, Declarator.All, SwitchCase.All, CatchClause.All,
      Block.All] at * <;> grind

theorem Expr.All.all {e : Expr} (h : e.All p q) :
    e.All (fun x => x.All p q) (fun x => x.All p q) :=
  (all_all p q).expr e h

theorem Stmt.All.all {s : Stmt} (h : s.All p q) :
    s.All (fun x => x.All p q) (fun x => x.All p q) :=
  (all_all p q).stmt s h

end

end MetaMonkey.Frontend
