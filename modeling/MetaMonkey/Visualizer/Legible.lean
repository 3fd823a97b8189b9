import MetaMonkey.Visualizer.Grammar

/-!
The trees whose texts show them. What is in none of the rules is shown as something
else, or as nothing that can be read.
-/

namespace MetaMonkey.Visualizer

open Js
open Frontend.Parser (precedence)

def FunctionNode.isClosure : FunctionNode → Bool
  | .mk _ _ _ _ (.block _) => false
  | .mk _ _ _ _ (.expression _) => true

/-- The level at which the text of an expression is read. A binary operator and an
assignment are in parentheses. -/
def Expr.level : Expr → ℕ
  | .sequence _ => 0
  | .cond _ _ _ => 2
  | .unary _ _ _ => 13
  | .update _ before _ => if before then 13 else 14
  | .call _ _ => 15
  | .newExpr _ _ => 16
  | .member obj _ => min 16 obj.level
  | .index obj _ => min 16 obj.level
  | _ => 17

def Expr.trails : Expr → Bool
  | .sequence _ => true
  | .cond _ _ alternate => alternate.trails
  | .unary _ _ argument => argument.trails
  | .function f => f.isClosure
  | _ => false

/-- The text does not end with an integer, of which a point would become a part. -/
def Expr.takesDot : Expr → Bool
  | .literal (.number n) => !isInteger n.toString
  | .sequence _ | .cond _ _ _ | .unary _ _ _ | .update _ _ _ => false
  | .function f => !f.isClosure
  | _ => true

inductive Opener where
  | brace
  | function
  | other
  deriving DecidableEq

def Expr.opener : Expr → Opener
  | .object _ => .brace
  | .function _ => .function
  | .sequence (e :: _) => e.opener
  | .cond test _ _ => test.opener
  | .update _ false argument => argument.opener
  | .call callee _ => callee.opener
  | .member obj _ => obj.opener
  | .index obj _ => obj.opener
  | _ => .other

def Expr.isQuazi : Expr → Bool
  | .metaQuazi _ => true
  | _ => false

/-- A string is put in quotes as it is, and a number must not begin with its sign. -/
def LiteralValue.legible : LiteralValue → Bool
  | .string s => s.all (isPlain 39)
  | .boolean _ => true
  | .null => false
  | .number n => n.unsigned
  | .regexp _ => true

def PropertyKey.legible (L : Letters) : PropertyKey → Bool
  | .identifier w => L.isWord w
  | .literal (.string s) => s.all (isPlain 39)
  | .literal (.number n) => n.unsigned
  | .literal _ => false

inductive Node where
  | expr (e : Expr)
  | property (x : Property)
  | function (f : FunctionNode)
  | declarator (d : Declarator)
  | stmt (s : Stmt)

/-- The rules. No loop, `switch` and `try` is in one, no function declaration with a block
for a body, no exec, hole, accessor, default, rest, label of a jump, or `null`. -/
inductive Legible (L : Letters) : Node → Prop
  | literal {v : LiteralValue} (hv : v.legible = true) : Legible L (.expr (.literal v))
  | identifier {w : JSString} (hw : L.isName w = true) : Legible L (.expr (.identifier w))
  | this : Legible L (.expr .thisExpr)
  | array {es : List Expr} (hes : ∀ e ∈ es, Legible L (.expr e))
      (hlevel : ∀ e ∈ es, 1 ≤ e.level) : Legible L (.expr (.array (es.map some)))
  | object {xs : List Property} (hxs : ∀ x ∈ xs, Legible L (.property x)) :
      Legible L (.expr (.object xs))
  | functionExpr {f : FunctionNode} (hf : Legible L (.function f)) :
      Legible L (.expr (.function f))
  | sequence {es : List Expr} (hes : ∀ e ∈ es, Legible L (.expr e))
      (hlevel : ∀ e ∈ es, 1 ≤ e.level) (hlen : 2 ≤ es.length) : Legible L (.expr (.sequence es))
  | unary {op : Frontend.UnaryOp} {e : Expr} (he : Legible L (.expr e)) (hlevel : 13 ≤ e.level) :
      Legible L (.expr (.unary op true e))
  | update {op : Frontend.UpdateOp} {before : Bool} {e : Expr} (he : Legible L (.expr e))
      (href : e.isReference = true) : Legible L (.expr (.update op before e))
  | binary {op : Frontend.BinaryOp} {e e' : Expr} (he : Legible L (.expr e))
      (he' : Legible L (.expr e')) (hlevel : 2 + precedence op ≤ e.level)
      (htrails : e.trails = false) (hlevel' : 3 + precedence op ≤ e'.level) :
      Legible L (.expr (.binary op e e'))
  | assign {op : Frontend.AssignOp} {e e' : Expr} (he : Legible L (.expr e))
      (he' : Legible L (.expr e')) (href : e.isReference = true) (hlevel' : 1 ≤ e'.level) :
      Legible L (.expr (.assign op e e'))
  /-- The branches change places. -/
  | cond {test e : Expr} (htest : Legible L (.expr test)) (he : Legible L (.expr e))
      (hlevel : 3 ≤ test.level) (htrails : test.trails = false) (hlevel' : 1 ≤ e.level) :
      Legible L (.expr (.cond test e e))
  | newExpr {e : Expr} {es : List Expr} (he : Legible L (.expr e))
      (hes : ∀ x ∈ es, Legible L (.expr x)) (hlevel : 16 ≤ e.level) (htrails : e.trails = false)
      (hlevels : ∀ x ∈ es, 1 ≤ x.level) : Legible L (.expr (.newExpr e es))
  | call {e : Expr} {es : List Expr} (he : Legible L (.expr e))
      (hes : ∀ x ∈ es, Legible L (.expr x)) (hlevel : 15 ≤ e.level) (htrails : e.trails = false)
      (hlevels : ∀ x ∈ es, 1 ≤ x.level) : Legible L (.expr (.call e es))
  | member {e : Expr} {w : JSString} (he : Legible L (.expr e)) (hw : L.isWord w = true)
      (hlevel : 15 ≤ e.level) (htrails : e.trails = false) (hdot : e.takesDot = true) :
      Legible L (.expr (.member e w))
  | index {e e' : Expr} (he : Legible L (.expr e)) (he' : Legible L (.expr e'))
      (hlevel : 15 ≤ e.level) (htrails : e.trails = false) : Legible L (.expr (.index e e'))
  | quazi {ss : List Stmt} (hss : ∀ s ∈ ss, Legible L (.stmt s)) :
      Legible L (.expr (.metaQuazi ss))
  | property {key : PropertyKey} {e : Expr} (hkey : key.legible L = true)
      (he : Legible L (.expr e)) (hlevel : 1 ≤ e.level) : Legible L (.property (.mk .init key e))
  | blockFunction {id : Option JSString} {params : List JSString} {ss : List Stmt}
      (hid : ∀ w ∈ id, L.isName w = true) (hparams : ∀ w ∈ params, L.isName w = true)
      (hss : ∀ s ∈ ss, Legible L (.stmt s)) :
      Legible L (.function (.mk id params [] none (.block ss)))
  /-- A quasi is shown as a block, and with a brace would begin one. -/
  | closure {id : Option JSString} {params : List JSString} {e : Expr}
      (hid : ∀ w ∈ id, L.isName w = true) (hparams : ∀ w ∈ params, L.isName w = true)
      (he : Legible L (.expr e)) (hlevel : 1 ≤ e.level) (hquazi : e.isQuazi = false)
      (hopener : e.opener ≠ .brace) :
      Legible L (.function (.mk id params [] none (.expression e)))
  | declarator {w : JSString} (hw : L.isName w = true) : Legible L (.declarator (.mk w none))
  | initDeclarator {w : JSString} {e : Expr} (hw : L.isName w = true) (he : Legible L (.expr e))
      (hlevel : 1 ≤ e.level) : Legible L (.declarator (.mk w (some e)))
  | empty : Legible L (.stmt .empty)
  | block {ss : List Stmt} (hss : ∀ s ∈ ss, Legible L (.stmt s)) : Legible L (.stmt (.block ss))
  | expression {e : Expr} (he : Legible L (.expr e)) (hopener : e.opener = .other) :
      Legible L (.stmt (.expression e))
  | ifStmt {test : Expr} {s : Stmt} (htest : Legible L (.expr test)) (hs : Legible L (.stmt s)) :
      Legible L (.stmt (.ifStmt test s none))
  | ifElse {test : Expr} {s s' : Stmt} (htest : Legible L (.expr test))
      (hs : Legible L (.stmt s)) (hs' : Legible L (.stmt s')) (hopen : s.openIf = false) :
      Legible L (.stmt (.ifStmt test s (some s')))
  | labeled {w : JSString} {s : Stmt} (hw : L.isName w = true) (hs : Legible L (.stmt s)) :
      Legible L (.stmt (.labeled w s))
  | breakStmt : Legible L (.stmt (.breakStmt none))
  | continueStmt : Legible L (.stmt (.continueStmt none))
  | returnNothing : Legible L (.stmt (.returnStmt none))
  | returnStmt {e : Expr} (he : Legible L (.expr e)) : Legible L (.stmt (.returnStmt (some e)))
  | throwStmt {e : Expr} (he : Legible L (.expr e)) : Legible L (.stmt (.throwStmt e))
  | debugger : Legible L (.stmt .debugger)
  /-- The semicolon that is shown after every declaration ends the body of a closure. -/
  | closureStmt {f : FunctionNode} (hf : Legible L (.function f)) (hid : f.id.isSome = true)
      (hclosure : f.isClosure = true) : Legible L (.stmt (.function f))
  | declaration {ds : List Declarator} (hds : ∀ d ∈ ds, Legible L (.declarator d))
      (hne : ds ≠ []) : Legible L (.stmt (.declaration .var ds))

end MetaMonkey.Visualizer
