import MetaMonkey.Visualizer.Tokens

/-!
Which tokens are the text of which tree. The productions are those of the parser.
Left out is what depends on the tree alone and so holds of a tree that is read
again (declared names, the targets of jumps), and a `new` without arguments.
-/

namespace MetaMonkey.Visualizer

open Js
open Frontend (Punct Keyword Lexeme VarDeclKind)
open Frontend.Parser (precedence)

/-- What the parser lets an assignment be made to. -/
def Expr.isReference : Expr → Bool
  | .identifier _ => true
  | .member _ _ => true
  | .index _ _ => true
  | .call _ _ => true
  | _ => false

/-- An `else` after the statement would be read as a part of it. -/
def Stmt.openIf : Stmt → Bool
  | .ifStmt _ _ none => true
  | .ifStmt _ _ (some alternate) => alternate.openIf
  | .labeled _ body => body.openIf
  | .whileStmt _ body => body.openIf
  | .forStmt _ _ _ body => body.openIf
  | .forIn _ _ _ body => body.openIf
  | _ => false

def FunctionNode.id : FunctionNode → Option JSString
  | .mk id _ _ _ _ => id

def SwitchCase.isDefault : SwitchCase → Bool
  | .mk none _ => true
  | .mk (some _) _ => false

def CatchClause.guard : CatchClause → Option Expr
  | .mk _ guard _ => guard

/-- The rest of a list after one of its parts. -/
def separated (ts : List Token) : List Token := if ts.isEmpty then [] else .punct .comma :: ts

/-- With an `in` outside all brackets, the head of a `for` would be read otherwise. -/
def bareIn : ℕ → List Token → Bool
  | _, [] => false
  | depth, .word w :: ts => (depth = 0 && w = js "in") || bareIn depth ts
  | depth, .punct p :: ts =>
      if p = .lp ∨ p = .lb ∨ p = .lc ∨ p = .metaLq then bareIn (depth + 1) ts
      else if p = .rp ∨ p = .rb ∨ p = .rc ∨ p = .metaRq ∨ p = .metaClose then
        bareIn (depth - 1) ts
      else bareIn depth ts
  | depth, _ :: ts => bareIn depth ts

/-- What the productions are for. The level of an expression is 0 for a sequence, 1 for
an assignment, 2 for a conditional, from 3 on for the binary operators, 13 for a unary
operator, 14 for an operand with `++` after it, 15 where calls and 16 where members may
be taken, and 17 for the rest. The body of a closure takes in all that follows: `trails`
allows for one at the end. -/
inductive Phrase where
  | expr (level : ℕ) (trails : Bool) (e : Expr)
  | exprs (es : List Expr)
  | elements (es : List (Option Expr))
  | key (key : PropertyKey)
  | property (x : Property)
  | properties (xs : List Property)
  | function (closure : Bool) (f : FunctionNode)
  | signature (closure : Bool) (f : FunctionNode)
  | formals (params : List JSString) (defaults : List Expr) (rest : Option JSString)
  | functionBody (closure : Bool) (b : FunctionBody)
  | declarator (d : Declarator)
  | declarators (ds : List Declarator)
  | forHead (h : ForHead)
  | forPart (e : Option Expr)
  | stmt (s : Stmt)
  | stmts (ss : List Stmt)
  | switchCases (cs : List SwitchCase)
  | catchClauses (cs : List CatchClause)
  | finalizer (b : Option (List Stmt))

/-- The productions. -/
inductive Reads (L : Letters) : Phrase → List Token → Prop
  | weaken {k k' : ℕ} {g g' : Bool} {e : Expr} {ts : List Token}
      (he : Reads L (.expr k g e) ts) (hk : k' ≤ k) (hg : g = true → g' = true) :
      Reads L (.expr k' g' e) ts
  | parens {e : Expr} {ts : List Token} (he : Reads L (.expr 0 true e) ts) :
      Reads L (.expr 17 false e) (.punct .lp :: ts ++ [.punct .rp])
  | identifier {w : JSString} (hw : L.isName w = true) :
      Reads L (.expr 17 false (.identifier w)) [.word w]
  | string (s : JSString) : Reads L (.expr 17 false (.literal (.string s))) [.string s]
  | boolean (b : Bool) : Reads L (.expr 17 false (.literal (.boolean b)))
      [.keyword (if b then .true else .false)]
  | null : Reads L (.expr 17 false (.literal .null)) [.keyword .null]
  | number (n : JSNumber) : Reads L (.expr 17 false (.literal (.number n))) [.number n]
  | regexp (r : RegExp) : Reads L (.expr 17 false (.literal (.regexp r))) [.regexp r]
  | this : Reads L (.expr 17 false .thisExpr) [.keyword .this]
  | array {es : List (Option Expr)} {ts : List Token} (hes : Reads L (.elements es) ts) :
      Reads L (.expr 17 false (.array es)) (.punct .lb :: ts ++ [.punct .rb])
  | object {xs : List Property} {ts : List Token} (hxs : Reads L (.properties xs) ts) :
      Reads L (.expr 17 false (.object xs)) (.punct .lc :: ts ++ [.punct .rc])
  | functionExpr {g : Bool} {f : FunctionNode} {ts : List Token}
      (hf : Reads L (.function g f) ts) : Reads L (.expr 17 g (.function f)) ts
  | quasi {p : Punct} {ss : List Stmt} {ts : List Token} (hp : p = .metaRq ∨ p = .metaClose)
      (hss : Reads L (.stmts ss) ts) :
      Reads L (.expr 17 false (.metaQuazi ss)) (.punct .metaLq :: ts ++ [.punct p])
  | exec {s : Stmt} {ts : List Token} (hs : Reads L (.stmt s) ts) :
      Reads L (.expr 17 false (.metaExec s)) (.punct .metaExec :: ts)
  | sequence {es : List Expr} {ts : List Token} (hes : Reads L (.exprs es) ts)
      (hlen : 2 ≤ es.length) : Reads L (.expr 0 true (.sequence es)) ts
  | unary {op : Frontend.UnaryOp} {g : Bool} {e : Expr} {ts : List Token}
      (he : Reads L (.expr 13 g e) ts) :
      Reads L (.expr 13 g (.unary op true e)) (tokens op.lexeme ++ ts)
  | prefixed {op : Frontend.UpdateOp} {e : Expr} {ts : List Token}
      (he : Reads L (.expr 15 false e) ts) (href : e.isReference = true) :
      Reads L (.expr 13 false (.update op true e)) (.punct op.punct :: ts)
  | suffixed {op : Frontend.UpdateOp} {e : Expr} {ts : List Token}
      (he : Reads L (.expr 15 false e) ts) (href : e.isReference = true) :
      Reads L (.expr 14 false (.update op false e)) (ts ++ [.suffix op])
  | binary {op : Frontend.BinaryOp} {g : Bool} {e e' : Expr} {ts ts' : List Token}
      (he : Reads L (.expr (2 + precedence op) false e) ts)
      (he' : Reads L (.expr (3 + precedence op) g e') ts') :
      Reads L (.expr (2 + precedence op) g (.binary op e e')) (ts ++ tokens op.lexeme ++ ts')
  | assign {op : Frontend.AssignOp} {g : Bool} {e e' : Expr} {ts ts' : List Token}
      (he : Reads L (.expr 15 false e) ts) (href : e.isReference = true)
      (he' : Reads L (.expr 1 g e') ts') :
      Reads L (.expr 1 g (.assign op e e')) (ts ++ .punct op.punct :: ts')
  | cond {g : Bool} {test consequent alternate : Expr} {ts ts₁ ts₂ : List Token}
      (htest : Reads L (.expr 3 false test) ts) (hcons : Reads L (.expr 1 true consequent) ts₁)
      (halt : Reads L (.expr 1 g alternate) ts₂) :
      Reads L (.expr 2 g (.cond test consequent alternate))
        (ts ++ .punct .hook :: ts₁ ++ .punct .colon :: ts₂)
  | newExpr {e : Expr} {es : List Expr} {ts ts' : List Token}
      (he : Reads L (.expr 16 false e) ts) (hes : Reads L (.exprs es) ts') :
      Reads L (.expr 16 false (.newExpr e es))
        (.keyword .new :: ts ++ .punct .lp :: ts' ++ [.punct .rp])
  | call {e : Expr} {es : List Expr} {ts ts' : List Token}
      (he : Reads L (.expr 15 false e) ts) (hes : Reads L (.exprs es) ts') :
      Reads L (.expr 15 false (.call e es)) (ts ++ .punct .lp :: ts' ++ [.punct .rp])
  | member {k : ℕ} {e : Expr} {w : JSString} {ts : List Token} (hk : k = 15 ∨ k = 16)
      (he : Reads L (.expr k false e) ts) (hw : L.isWord w = true) :
      Reads L (.expr k false (.member e w)) (ts ++ [.punct .dot, .word w])
  | index {k : ℕ} {e e' : Expr} {ts ts' : List Token} (hk : k = 15 ∨ k = 16)
      (he : Reads L (.expr k false e) ts) (he' : Reads L (.expr 0 true e') ts') :
      Reads L (.expr k false (.index e e')) (ts ++ .punct .lb :: ts' ++ [.punct .rb])
  | noExprs : Reads L (.exprs []) []
  | exprs {e : Expr} {es : List Expr} {ts ts' : List Token}
      (he : Reads L (.expr 1 true e) ts) (hes : Reads L (.exprs es) ts') :
      Reads L (.exprs (e :: es)) (ts ++ separated ts')
  | noElements : Reads L (.elements []) []
  | lastElement {e : Expr} {ts : List Token} (he : Reads L (.expr 1 true e) ts) :
      Reads L (.elements [some e]) ts
  | element {e : Expr} {es : List (Option Expr)} {ts ts' : List Token}
      (he : Reads L (.expr 1 true e) ts) (hes : Reads L (.elements es) ts') :
      Reads L (.elements (some e :: es)) (ts ++ .punct .comma :: ts')
  | elision {es : List (Option Expr)} {ts : List Token} (hes : Reads L (.elements es) ts) :
      Reads L (.elements (none :: es)) (.punct .comma :: ts)
  | keyName {w : JSString} (hw : L.isWord w = true) : Reads L (.key (.identifier w)) [.word w]
  | keyString (s : JSString) : Reads L (.key (.literal (.string s))) [.string s]
  | keyNumber (n : JSNumber) : Reads L (.key (.literal (.number n))) [.number n]
  | propertyInit {key : PropertyKey} {e : Expr} {ts ts' : List Token}
      (hkey : Reads L (.key key) ts) (he : Reads L (.expr 1 true e) ts') :
      Reads L (.property (.mk .init key e)) (ts ++ .punct .colon :: ts')
  | propertyGet {key : PropertyKey} {g : Bool} {f : FunctionNode} {ts ts' : List Token}
      (hkey : Reads L (.key key) ts) (hid : f.id = none) (hf : Reads L (.signature g f) ts') :
      Reads L (.property (.mk .get key (.function f))) (.word (js "get") :: ts ++ ts')
  | propertySet {key : PropertyKey} {g : Bool} {f : FunctionNode} {ts ts' : List Token}
      (hkey : Reads L (.key key) ts) (hid : f.id = none) (hf : Reads L (.signature g f) ts') :
      Reads L (.property (.mk .set key (.function f))) (.word (js "set") :: ts ++ ts')
  | noProperties : Reads L (.properties []) []
  | properties {x : Property} {xs : List Property} {ts ts' : List Token}
      (hx : Reads L (.property x) ts) (hxs : Reads L (.properties xs) ts') :
      Reads L (.properties (x :: xs)) (ts ++ separated ts')
  | function {g : Bool} {f : FunctionNode} {ts : List Token}
      (hid : ∀ w ∈ f.id, L.isName w = true) (hf : Reads L (.signature g f) ts) :
      Reads L (.function g f) (.keyword .function :: (f.id.map Token.word).toList ++ ts)
  | signature {g : Bool} {id rest : Option JSString} {params : List JSString}
      {defaults : List Expr} {body : FunctionBody} {ts ts' : List Token}
      (hformals : Reads L (.formals params defaults rest) ts)
      (hbody : Reads L (.functionBody g body) ts') :
      Reads L (.signature g (.mk id params defaults rest body))
        (.punct .lp :: ts ++ .punct .rp :: ts')
  | noFormals : Reads L (.formals [] [] none) []
  | restFormal {w : JSString} (hw : L.isName w = true) :
      Reads L (.formals [] [] (some w)) [.punct .tripleDot, .word w]
  | formal {w : JSString} {ws : List JSString} {ds : List Expr} {rest : Option JSString}
      {ts : List Token} (hw : L.isName w = true) (hlen : ds.length ≤ ws.length)
      (hws : Reads L (.formals ws ds rest) ts) :
      Reads L (.formals (w :: ws) ds rest) (.word w :: separated ts)
  | defaultFormal {w : JSString} {ws : List JSString} {e : Expr} {ds : List Expr}
      {rest : Option JSString} {ts ts' : List Token} (hw : L.isName w = true)
      (hlen : ds.length = ws.length) (he : Reads L (.expr 1 true e) ts)
      (hws : Reads L (.formals ws ds rest) ts') :
      Reads L (.formals (w :: ws) (e :: ds) rest)
        (.word w :: .punct .assign :: ts ++ separated ts')
  | blockBody {ss : List Stmt} {ts : List Token} (hss : Reads L (.stmts ss) ts) :
      Reads L (.functionBody false (.block ss)) (.punct .lc :: ts ++ [.punct .rc])
  | closureBody {e : Expr} {ts : List Token} (he : Reads L (.expr 1 true e) ts)
      (hhead : ts.head? ≠ some (.punct .lc)) :
      Reads L (.functionBody true (.expression e)) ts
  | declarator {w : JSString} (hw : L.isName w = true) :
      Reads L (.declarator (.mk w none)) [.word w]
  | initDeclarator {w : JSString} {e : Expr} {ts : List Token} (hw : L.isName w = true)
      (he : Reads L (.expr 1 true e) ts) :
      Reads L (.declarator (.mk w (some e))) (.word w :: .punct .assign :: ts)
  | noDeclarators : Reads L (.declarators []) []
  | declarators {d : Declarator} {ds : List Declarator} {ts ts' : List Token}
      (hd : Reads L (.declarator d) ts) (hds : Reads L (.declarators ds) ts') :
      Reads L (.declarators (d :: ds)) (ts ++ separated ts')
  | declarationHead {kind : VarDeclKind} {ds : List Declarator} {ts : List Token} (hne : ds ≠ [])
      (hds : Reads L (.declarators ds) ts) :
      Reads L (.forHead (.declaration kind ds)) (.keyword kind.keyword :: ts)
  | expressionHead {e : Expr} {ts : List Token} (he : Reads L (.expr 0 true e) ts) :
      Reads L (.forHead (.expression e)) ts
  | noForPart : Reads L (.forPart none) []
  | forPart {e : Expr} {ts : List Token} (he : Reads L (.expr 0 true e) ts) :
      Reads L (.forPart (some e)) ts
  | empty : Reads L (.stmt .empty) [.punct .semi]
  | block {ss : List Stmt} {ts : List Token} (hss : Reads L (.stmts ss) ts) :
      Reads L (.stmt (.block ss)) (.punct .lc :: ts ++ [.punct .rc])
  | expression {e : Expr} {ts : List Token} (he : Reads L (.expr 0 true e) ts)
      (hbrace : ts.head? ≠ some (.punct .lc)) (hfunction : ts.head? ≠ some (.keyword .function)) :
      Reads L (.stmt (.expression e)) (ts ++ [.punct .semi])
  | ifStmt {test : Expr} {s : Stmt} {ts ts' : List Token}
      (htest : Reads L (.expr 0 true test) ts) (hs : Reads L (.stmt s) ts') :
      Reads L (.stmt (.ifStmt test s none))
        (.keyword .if :: .punct .lp :: ts ++ .punct .rp :: ts')
  | ifElse {test : Expr} {s s' : Stmt} {ts ts₁ ts₂ : List Token}
      (htest : Reads L (.expr 0 true test) ts) (hs : Reads L (.stmt s) ts₁)
      (hopen : s.openIf = false) (hs' : Reads L (.stmt s') ts₂) :
      Reads L (.stmt (.ifStmt test s (some s')))
        (.keyword .if :: .punct .lp :: ts ++ .punct .rp :: ts₁ ++ .keyword .else :: ts₂)
  | labeled {w : JSString} {s : Stmt} {ts : List Token} (hw : L.isName w = true)
      (hs : Reads L (.stmt s) ts) :
      Reads L (.stmt (.labeled w s)) (.word w :: .punct .colon :: ts)
  | breakStmt {label : Option JSString} (hw : ∀ w ∈ label, L.isName w = true) :
      Reads L (.stmt (.breakStmt label))
        (.jump .break :: (label.map Token.word).toList ++ [.punct .semi])
  | continueStmt {label : Option JSString} (hw : ∀ w ∈ label, L.isName w = true) :
      Reads L (.stmt (.continueStmt label))
        (.jump .continue :: (label.map Token.word).toList ++ [.punct .semi])
  | switchStmt {e : Expr} {cs : List SwitchCase} {ts ts' : List Token}
      (he : Reads L (.expr 0 true e) ts) (hcs : Reads L (.switchCases cs) ts')
      (hdefault : cs.countP SwitchCase.isDefault ≤ 1) :
      Reads L (.stmt (.switchStmt e cs))
        (.keyword .switch :: .punct .lp :: ts ++ .punct .rp :: .punct .lc :: ts' ++ [.punct .rc])
  | returnStmt {e : Option Expr} {ts : List Token} (he : Reads L (.forPart e) ts) :
      Reads L (.stmt (.returnStmt e)) (.jump .return :: ts ++ [.punct .semi])
  | throwStmt {e : Expr} {ts : List Token} (he : Reads L (.expr 0 true e) ts) :
      Reads L (.stmt (.throwStmt e)) (.jump .throw :: ts ++ [.punct .semi])
  | tryStmt {ss : List Stmt} {cs : List CatchClause} {handler : Option CatchClause}
      {finalizer : Option (List Stmt)} {ts ts₁ ts₂ : List Token} (hss : Reads L (.stmts ss) ts)
      (hguard : ∀ c ∈ cs, c.guard.isSome = true) (hhandler : ∀ c ∈ handler, c.guard = none)
      (hcs : Reads L (.catchClauses (cs ++ handler.toList)) ts₁)
      (hfinal : Reads L (.finalizer finalizer) ts₂) (hne : ts₁ ++ ts₂ ≠ []) :
      Reads L (.stmt (.tryStmt ss cs handler finalizer))
        (.keyword .try :: .punct .lc :: ts ++ .punct .rc :: ts₁ ++ ts₂)
  | whileStmt {e : Expr} {s : Stmt} {ts ts' : List Token} (he : Reads L (.expr 0 true e) ts)
      (hs : Reads L (.stmt s) ts') :
      Reads L (.stmt (.whileStmt e s))
        (.keyword .while :: .punct .lp :: ts ++ .punct .rp :: ts')
  | doWhile {e : Expr} {s : Stmt} {ts ts' : List Token} (hs : Reads L (.stmt s) ts)
      (he : Reads L (.expr 0 true e) ts') :
      Reads L (.stmt (.doWhile e s))
        (.keyword .do :: ts ++ .keyword .while :: .punct .lp :: ts' ++ [.punct .rp, .punct .semi])
  | forStmt {test update : Option Expr} {s : Stmt} {ts₁ ts₂ ts₃ : List Token}
      (htest : Reads L (.forPart test) ts₁) (hupdate : Reads L (.forPart update) ts₂)
      (hs : Reads L (.stmt s) ts₃) :
      Reads L (.stmt (.forStmt none test update s))
        (.keyword .for :: .punct .lp :: .punct .semi :: ts₁ ++ .punct .semi :: ts₂ ++
          .punct .rp :: ts₃)
  | forInitStmt {init : ForHead} {test update : Option Expr} {s : Stmt}
      {ts ts₁ ts₂ ts₃ : List Token} (hinit : Reads L (.forHead init) ts)
      (hin : bareIn 0 ts = false) (htest : Reads L (.forPart test) ts₁)
      (hupdate : Reads L (.forPart update) ts₂) (hs : Reads L (.stmt s) ts₃) :
      Reads L (.stmt (.forStmt (some init) test update s))
        (.keyword .for :: .punct .lp :: ts ++ .punct .semi :: ts₁ ++ .punct .semi :: ts₂ ++
          .punct .rp :: ts₃)
  | forInDeclaration {each : Bool} {kind : VarDeclKind} {d : Declarator} {e : Expr} {s : Stmt}
      {ts ts₁ ts₂ : List Token} (hd : Reads L (.declarator d) ts) (hin : bareIn 0 ts = false)
      (he : Reads L (.expr 0 true e) ts₁) (hs : Reads L (.stmt s) ts₂) :
      Reads L (.stmt (.forIn each (.declaration kind [d]) e s))
        (.keyword .for :: (if each then [.word (js "each")] else []) ++
          .punct .lp :: .keyword kind.keyword :: ts ++ .keyword .in :: ts₁ ++ .punct .rp :: ts₂)
  | forIn {each : Bool} {e e' : Expr} {s : Stmt} {ts ts₁ ts₂ : List Token}
      (he : Reads L (.expr 15 false e) ts) (href : e.isReference = true)
      (he' : Reads L (.expr 0 true e') ts₁) (hs : Reads L (.stmt s) ts₂) :
      Reads L (.stmt (.forIn each (.expression e) e' s))
        (.keyword .for :: (if each then [.word (js "each")] else []) ++
          .punct .lp :: ts ++ .keyword .in :: ts₁ ++ .punct .rp :: ts₂)
  | debugger : Reads L (.stmt .debugger) [.keyword .debugger, .punct .semi]
  | functionStmt {f : FunctionNode} {ts : List Token} (hid : f.id.isSome = true)
      (hf : Reads L (.function false f) ts) : Reads L (.stmt (.function f)) ts
  | closureStmt {f : FunctionNode} {ts : List Token} (hid : f.id.isSome = true)
      (hf : Reads L (.function true f) ts) :
      Reads L (.stmt (.function f)) (ts ++ [.punct .semi])
  | declaration {kind : VarDeclKind} {ds : List Declarator} {ts : List Token} (hne : ds ≠ [])
      (hds : Reads L (.declarators ds) ts) :
      Reads L (.stmt (.declaration kind ds)) (.keyword kind.keyword :: ts ++ [.punct .semi])
  | noStmts : Reads L (.stmts []) []
  | stmts {s : Stmt} {ss : List Stmt} {ts ts' : List Token} (hs : Reads L (.stmt s) ts)
      (hss : Reads L (.stmts ss) ts') : Reads L (.stmts (s :: ss)) (ts ++ ts')
  | noCases : Reads L (.switchCases []) []
  | defaultCase {ss : List Stmt} {cs : List SwitchCase} {ts ts' : List Token}
      (hss : Reads L (.stmts ss) ts) (hcs : Reads L (.switchCases cs) ts') :
      Reads L (.switchCases (.mk none ss :: cs))
        (.keyword .default :: .punct .colon :: ts ++ ts')
  | switchCase {e : Expr} {ss : List Stmt} {cs : List SwitchCase} {ts ts₁ ts₂ : List Token}
      (he : Reads L (.expr 0 true e) ts) (hss : Reads L (.stmts ss) ts₁)
      (hcs : Reads L (.switchCases cs) ts₂) :
      Reads L (.switchCases (.mk (some e) ss :: cs))
        (.keyword .case :: ts ++ .punct .colon :: ts₁ ++ ts₂)
  | noClauses : Reads L (.catchClauses []) []
  | catchClause {w : JSString} {ss : List Stmt} {cs : List CatchClause} {ts ts' : List Token}
      (hw : L.isName w = true) (hss : Reads L (.stmts ss) ts)
      (hcs : Reads L (.catchClauses cs) ts') :
      Reads L (.catchClauses (.mk w none ss :: cs))
        (.keyword .catch :: .punct .lp :: .word w :: .punct .rp :: .punct .lc :: ts ++
          .punct .rc :: ts')
  | guardedClause {w : JSString} {e : Expr} {ss : List Stmt} {cs : List CatchClause}
      {ts ts₁ ts₂ : List Token} (hw : L.isName w = true) (he : Reads L (.expr 0 true e) ts)
      (hss : Reads L (.stmts ss) ts₁) (hcs : Reads L (.catchClauses cs) ts₂) :
      Reads L (.catchClauses (.mk w (some e) ss :: cs))
        (.keyword .catch :: .punct .lp :: .word w :: .keyword .if :: ts ++ .punct .rp ::
          .punct .lc :: ts₁ ++ .punct .rc :: ts₂)
  | noFinalizer : Reads L (.finalizer none) []
  | finalizer {ss : List Stmt} {ts : List Token} (hss : Reads L (.stmts ss) ts) :
      Reads L (.finalizer (some ss)) (.keyword .finally :: .punct .lc :: ts ++ [.punct .rc])

/-- A text reads back as a program. -/
def ReadsBack (L : Letters) (text : JSString) (body : List Stmt) : Prop :=
  ∃ ts, Lexes L true text ts ∧ Reads L (.stmts body) ts

end MetaMonkey.Visualizer
