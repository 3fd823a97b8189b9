import MetaMonkey.Frontend.Parser

/-!
What the trees have in common that the parser makes, as conditions on a node
and its children. `NaN` is no name here, since the printer takes it for the number.
-/

namespace MetaMonkey.Frontend

open Js

/-- A word that is printed as it is. -/
def isWord (w : JSString) : Bool :=
  match w with
  | [] => false
  | c :: cs => isIdentifierStart c && cs.all isIdentifierPart && w ≠ js "NaN"

/-- A word that is no keyword. -/
def isName (w : JSString) : Bool := isWord w && (keyword? w).isNone

def Expr.isElision : Expr → Bool
  | elision => true
  | _ => false

def Expr.isSequence : Expr → Bool
  | sequence _ => true
  | _ => false

/-- Whether an expression ends in the body of a function that has no braces. -/
def Expr.endsInBody : Expr → Bool
  | closure _ _ _ => true
  | assign _ _ right => right.endsInBody
  | _ => false

/-- A declaration that is in a block only. -/
def Stmt.isLet : Stmt → Bool
  | declaration .let _ => true
  | _ => false

def SwitchCase.isDefault : SwitchCase → Bool
  | mk test _ => test.isNone

def Property.Formed : Property → Prop
  | .init key value => isWord key = true ∧ value.isElision = false

def Declarator.Formed : Declarator → Prop
  | .mk id init => isName id = true ∧ ∀ e ∈ init, e.isElision = false

def Declarators.Formed (ds : List Declarator) : Prop := ds ≠ [] ∧ ∀ d ∈ ds, d.Formed

def Block.Formed : Block → Prop
  | .mk body => ∀ s ∈ body, s.isLet = false

def FunctionHead.Formed (id : Option JSString) (params : List JSString) : Prop :=
  (∀ w ∈ id, isName w = true) ∧ ∀ w ∈ params, isName w = true

/-- A hole is an element of an array only. -/
def Expr.Formed : Expr → Prop
  | .identifier name => isName name = true
  | .thisExpr => True
  | .elision => True
  | .array _ => True
  | .object properties => ∀ x ∈ properties, x.Formed
  | .unary _ argument => argument.isElision = false
  | .update _ _ argument => Parser.isReference argument = true
  | .binary _ left right => left.isElision = false ∧ right.isElision = false
  | .assign _ left right => Parser.isReference left = true ∧ right.isElision = false
  | .cond test consequent alternate =>
      test.isElision = false ∧ consequent.isElision = false ∧ alternate.isElision = false
  | .call callee arguments =>
      callee.isElision = false ∧ ∀ e ∈ arguments, e.isElision = false
  | .newExpr callee arguments =>
      callee.isElision = false ∧ ∀ e ∈ arguments, e.isElision = false
  | .member obj property => obj.isElision = false ∧ isWord property = true
  | .index obj property => obj.isElision = false ∧ property.isElision = false
  | .sequence expressions =>
      2 ≤ expressions.length ∧ ∀ e ∈ expressions, e.isElision = false
  | .yieldExpr argument => ∀ e ∈ argument, e.isElision = false
  | .letExpr head body => Declarators.Formed head ∧ body.isElision = false
  | .function id params body => FunctionHead.Formed id params ∧ body.Formed
  | .closure id params body => FunctionHead.Formed id params ∧ body.isElision = false

/-- A clause that has a guard is among the guarded ones. -/
def CatchClause.Formed (guarded : Bool) : CatchClause → Prop
  | .mk param guard _ =>
      isName param = true ∧ guard.isSome = guarded ∧ ∀ e ∈ guard, e.isElision = false

def Stmt.Formed : Stmt → Prop
  | .block _ => True
  | .declaration _ declarations => Declarators.Formed declarations
  | .empty => True
  | .expression e => e.isElision = false
  | .letStmt head body => Declarators.Formed head ∧ body.isLet = false
  | .ifStmt test consequent alternate =>
      test.isElision = false ∧ consequent.isLet = false ∧ ∀ s ∈ alternate, s.isLet = false
  | .whileStmt test body => test.isElision = false ∧ body.isLet = false
  | .doWhile body test => body.isLet = false ∧ test.isElision = false
  | .forStmt init test update body =>
      (∀ e ∈ init, e.isElision = false) ∧ (∀ e ∈ test, e.isElision = false) ∧
        (∀ e ∈ update, e.isElision = false) ∧ body.isLet = false
  | .forDecl kind declarations test update body =>
      kind ≠ .let ∧ Declarators.Formed declarations ∧ (∀ e ∈ test, e.isElision = false) ∧
        (∀ e ∈ update, e.isElision = false) ∧ body.isLet = false
  | .forIn _ left right body =>
      Parser.isReference left = true ∧ right.isElision = false ∧ body.isLet = false
  | .forInDecl _ kind d right body =>
      kind ≠ .const ∧ d.Formed ∧
        (∀ id e, d = .mk id (some e) → kind = .var ∧ e.endsInBody = false) ∧
        right.isElision = false ∧ body.isLet = false
  | .forOf left right body =>
      Parser.isReference left = true ∧ right.isElision = false ∧ body.isLet = false
  | .forOfDecl _ d right body => d.Formed ∧ right.isElision = false ∧ body.isLet = false
  | .breakStmt label => ∀ w ∈ label, isName w = true
  | .continueStmt label => ∀ w ∈ label, isName w = true
  | .returnStmt argument => ∀ e ∈ argument, e.isElision = false
  | .withStmt object body => object.isElision = false ∧ body.isLet = false
  | .labeled label body => isName label = true ∧ body.isLet = false
  | .switchStmt discriminant cases =>
      discriminant.isElision = false ∧ (cases.filter SwitchCase.isDefault).length ≤ 1 ∧
        ∀ c ∈ cases, ∀ e consequent, c = .mk (some e) consequent → e.isElision = false
  | .throwStmt argument => argument.isElision = false
  | .tryStmt _ guarded handler finalizer =>
      (guarded ≠ [] ∨ handler.isSome = true ∨ finalizer.isSome = true) ∧
        (∀ c ∈ guarded, c.Formed true) ∧ ∀ c ∈ handler, c.Formed false
  | .debugger => True

/-- The statements of a program. -/
def Program.Formed (body : List Stmt) : Prop :=
  ∀ s ∈ body, s.isLet = false ∧ s.All Expr.Formed Stmt.Formed

end MetaMonkey.Frontend
