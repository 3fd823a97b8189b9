import MetaMonkey.Frontend.Formed

/-!
The texts `unparse` makes of syntax trees, piece by piece: the lexemes that are
meant, and the blanks between them. Indentations are counted in blanks.
-/

namespace MetaMonkey.Frontend

open Js

inductive Piece where
  | space
  | lexeme (l : Lexeme)
  deriving DecidableEq

def Lexeme.text : Lexeme → JSString
  | word w => w
  | punct p => js p.text
  | eol => js "\n"

def Piece.text : Piece → JSString
  | space => js " "
  | lexeme l => l.text

def render (ps : List Piece) : JSString := ps.flatMap Piece.text

def Piece.lexeme? : Piece → Option Lexeme
  | space => none
  | lexeme l => some l

/-- The lexemes among the pieces. -/
def meant (ps : List Piece) : List Lexeme := ps.filterMap Piece.lexeme?

def UnaryOp.lexeme : UnaryOp → Lexeme
  | delete => .keyword .delete
  | neg => .punct .minus
  | pos => .punct .plus
  | not => .punct .not
  | bitnot => .punct .bitnot
  | typeof => .keyword .typeof
  | void => .keyword .void

def UpdateOp.punct : UpdateOp → Punct
  | inc => .inc
  | dec => .dec

def BinaryOp.lexeme : BinaryOp → Lexeme
  | or => .punct .or
  | and => .punct .and
  | bitor => .punct .bitor
  | bitxor => .punct .bitxor
  | bitand => .punct .bitand
  | strictEq => .punct .strictEq
  | eq => .punct .eq
  | strictNe => .punct .strictNe
  | ne => .punct .ne
  | lt => .punct .lt
  | le => .punct .le
  | gt => .punct .gt
  | ge => .punct .ge
  | instanceof => .keyword .instanceof
  | «in» => .keyword .in
  | lsh => .punct .lsh
  | rsh => .punct .rsh
  | ursh => .punct .ursh
  | add => .punct .plus
  | sub => .punct .minus
  | star => .punct .star
  | div => .punct .div
  | mod => .punct .mod

def AssignOp.punct : AssignOp → Punct
  | assign => .assign
  | add => .addAssign
  | sub => .subAssign
  | star => .mulAssign
  | div => .divAssign
  | mod => .modAssign
  | lsh => .lshAssign
  | rsh => .rshAssign
  | ursh => .urshAssign
  | bitor => .bitorAssign
  | bitxor => .bitxorAssign
  | bitand => .bitandAssign

theorem UnaryOp.lexeme_text (op : UnaryOp) : op.lexeme.text = js op.text := by
  cases op <;> rfl

theorem UpdateOp.punct_text (op : UpdateOp) : op.punct.text = op.text := by
  cases op <;> rfl

theorem BinaryOp.lexeme_text (op : BinaryOp) : op.lexeme.text = js op.text := by
  cases op <;> rfl

theorem AssignOp.punct_text (op : AssignOp) : op.punct.text = op.text := by
  cases op <;> rfl

def VarDeclKind.keyword : VarDeclKind → Keyword
  | var => .var
  | const => .const
  | «let» => .let

namespace Layout

def punct (p : Punct) : Piece := .lexeme (.punct p)

def word (w : JSString) : Piece := .lexeme (.word w)

def keyword (k : Keyword) : Piece := .lexeme (.keyword k)

def eol : Piece := .lexeme .eol

def spaces (k : ℕ) : List Piece := List.replicate k .space

def parens (ps : List Piece) : List Piece := punct .lp :: ps ++ [punct .rp]

def wrapIf (cond : Bool) (ps : List Piece) : List Piece := if cond then parens ps else ps

def separate (sep : List Piece) (pss : List (List Piece)) : List Piece := List.intercalate sep pss

/-- The elements of an array, where a hole is no layout. -/
def arrayElements (first : Bool) : List (Option (List Piece)) → List Piece
  | [] => []
  | [none] => [punct .comma]
  | [some ps] => (if first then [] else [.space]) ++ ps
  | none :: rest => punct .comma :: arrayElements false rest
  | some ps :: rest =>
      (if first then [] else [.space]) ++ ps ++ punct .comma :: arrayElements false rest

def functionHead (id : Option JSString) (params : List JSString) : List Piece :=
  [keyword .function, .space] ++ (id.map word).toList ++
    parens (separate [punct .comma, .space] (params.map fun w => [word w]))

/-- The precedence that `unparse` gives an operator. -/
def precedence : BinaryOp → ℕ
  | .or => 5
  | .and => 6
  | .bitor => 7
  | .bitxor => 8
  | .bitand => 9
  | .strictEq | .eq | .strictNe | .ne => 10
  | .lt | .le | .gt | .ge | .instanceof | .in => 11
  | .lsh | .rsh | .ursh => 12
  | .add | .sub => 13
  | .star | .div | .mod => 14

/-- The blank after an operator that is a word. -/
def unaryGap : UnaryOp → List Piece
  | .delete | .typeof | .void => [.space]
  | _ => []

/-- Whether an operator is put in parentheses. -/
def wrapsOp (op : BinaryOp) (cprec : ℕ) (noIn : Bool) : Bool :=
  (op = .in && noIn) || precedence op ≤ cprec

/-- The first pieces of the statements that `stmt_expression` finds by their texts. -/
def startsLikeStmt : List Piece → Bool
  | .lexeme (.word w) :: .space :: _ => w = js Keyword.function.text || w = js Keyword.var.text
  | .lexeme (.punct .lc) :: _ => true
  | _ => false

def startsLikeBlock : List Piece → Bool
  | .lexeme (.punct .lc) :: _ => true
  | _ => false

/-- A jump with its label. -/
def jump (k : Keyword) (label : Option JSString) : List Piece :=
  keyword k :: (match label with
    | some w => [.space, word w]
    | none => []) ++ [punct .semi, eol]

end Layout

open Layout

mutual

/-- `unparse_expr` -/
def Expr.layout (k cprec : ℕ) (noIn : Bool) : Expr → List Piece
  | .identifier name => [word name]
  | .thisExpr => [keyword .this]
  | .elision => []
  | .array elements =>
      punct .lb :: arrayElements true (elements.map fun e =>
        if e.isElision then none else some (e.layout k 2 false)) ++ [punct .rb]
  | .object properties =>
      punct .lc :: separate [punct .comma] (properties.map fun x => x.layout k) ++ [punct .rc]
  | .unary op argument =>
      wrapIf (15 ≤ cprec) (.lexeme op.lexeme :: unaryGap op ++ argument.layout k 15 false)
  | .update op before argument =>
      wrapIf (15 ≤ cprec)
        (if before then punct op.punct :: argument.layout k 15 false
        else argument.layout k 15 false ++ [punct op.punct])
  | .binary op left right =>
      let noIn' := noIn && !wrapsOp op cprec noIn
      wrapIf (wrapsOp op cprec noIn)
        (left.layout k (precedence op - 1) (noIn' && precedence op - 1 ≤ 11) ++
          [.space, .lexeme op.lexeme, .space] ++
          right.layout k (precedence op) (noIn' && precedence op ≤ 11))
  | .assign op left right =>
      wrapIf (3 ≤ cprec)
        (left.layout k 3 noIn ++ [.space, punct op.punct, .space] ++ right.layout k 2 noIn)
  | .cond test consequent alternate =>
      wrapIf (4 ≤ cprec)
        (test.layout k 4 noIn ++ punct .hook :: consequent.layout k 0 noIn ++
          punct .colon :: alternate.layout k 3 noIn)
  | .call callee arguments =>
      wrapIf (18 ≤ cprec)
        (callee.layout k 17 false ++
          parens (separate [punct .comma, .space] (arguments.map fun e => e.layout 0 2 false)))
  | .newExpr callee arguments =>
      wrapIf (17 ≤ cprec)
        ([keyword .new, .space] ++ callee.layout k 18 false ++
          if arguments.isEmpty then []
          else
            parens (separate [punct .comma, .space] (arguments.map fun e => e.layout 0 2 false)))
  | .member object property =>
      wrapIf (18 ≤ cprec) (object.layout k 17 false ++ [punct .dot, word property])
  | .index object property =>
      wrapIf (18 ≤ cprec)
        (object.layout k 17 false ++ punct .lb :: property.layout k 0 false ++ [punct .rb])
  | .sequence expressions =>
      wrapIf (2 ≤ cprec)
        (separate [punct .comma] (expressions.map fun e => e.layout k 2 noIn))
  | .yieldExpr argument =>
      wrapIf (1 ≤ cprec) (keyword .yield :: optionalLayout [] k 2 false argument)
  | .letExpr head body =>
      wrapIf (3 ≤ cprec)
        ([keyword .var, .space] ++
          parens (separate [punct .comma, .space] (head.map fun d => d.layout false)) ++
          .space :: body.layout k 2 false)
  | .function id params body =>
      wrapIf (3 ≤ cprec) (functionHead id params ++ .space :: body.layout k ++ [eol])
  | .closure id params body =>
      wrapIf (3 ≤ cprec)
        (functionHead id params ++
          .space :: wrapIf (startsLikeBlock (body.layout k 2 false)) (body.layout k 2 false))
termination_by e => (sizeOf e, 0)

/-- An expression that may be missing. -/
def optionalLayout (lead : List Piece) (k cprec : ℕ) (noIn : Bool) : Option Expr → List Piece
  | none => []
  | some e => lead ++ e.layout k cprec noIn
termination_by e => (sizeOf e, 0)

/-- A property of `expr_obj`. -/
def Property.layout (k : ℕ) : Property → List Piece
  | .init key value => [word key, punct .colon, .space] ++ value.layout k 2 false
termination_by x => (sizeOf x, 0)

/-- `declValueApplier` -/
def Declarator.layout (noIn : Bool) : Declarator → List Piece
  | .mk id none => [word id]
  | .mk id (some init) =>
      [word id, .space, punct .assign, .space] ++ init.layout 0 2 noIn
termination_by d => (sizeOf d, 0)

/-- `unparse_sourceElement` -/
def Stmt.layout (k : ℕ) : Stmt → List Piece
  | .block body =>
      spaces k ++ [punct .lc, eol] ++ (body.map fun s => s.layout 4).flatten ++ spaces k ++
        [punct .rc, eol]
  | .declaration kind declarations =>
      spaces k ++ [keyword kind.keyword, .space] ++
        separate [punct .comma, .space] (declarations.map fun d => d.layout false) ++
        [punct .semi, eol]
  | .empty => spaces k ++ [punct .semi, eol]
  | .expression e =>
      spaces k ++ wrapIf (startsLikeStmt (e.layout k 0 false)) (e.layout k 0 false) ++
        [punct .semi, eol]
  | .letStmt head body =>
      spaces k ++ [keyword .var, .space] ++
        parens (separate [punct .comma, .space] (head.map fun d => d.layout false)) ++
        body.substmt k false
  | .ifStmt test consequent none =>
      spaces k ++ [keyword .if, .space] ++ parens (test.layout k 0 false) ++
        consequent.substmt k false
  | .ifStmt test consequent (some alternate) =>
      spaces k ++ [keyword .if, .space] ++ parens (test.layout k 0 false) ++
        consequent.substmt k true ++ keyword .else :: alternate.substmt k false
  | .whileStmt test body =>
      spaces k ++ [keyword .while, .space] ++ parens (test.layout k 0 false) ++
        body.substmt k false ++ spaces k
  | .doWhile body test =>
      spaces k ++ keyword .do :: body.substmt k true ++ [keyword .while, .space] ++
        parens (test.layout k 0 false) ++ [punct .semi, eol]
  | .forStmt init test update body =>
      [keyword .for, .space, punct .lp] ++
        optionalLayout [] k 0 true init ++ [punct .semi] ++
        optionalLayout [.space] k 0 false test ++ [punct .semi] ++
        optionalLayout [.space] k 0 false update ++ [punct .rp] ++
        body.substmt k false
  | .forDecl kind declarations test update body =>
      [keyword .for, .space, punct .lp, keyword kind.keyword, .space] ++
        separate [punct .comma, .space] (declarations.map fun d => d.layout true) ++
        [punct .semi] ++
        optionalLayout [.space] k 0 false test ++ [punct .semi] ++
        optionalLayout [.space] k 0 false update ++ [punct .rp] ++
        body.substmt k false
  | .forIn each left right body =>
      spaces k ++ [keyword .for, .space] ++ (if each then [word (js "each")] else []) ++
        parens (left.layout k 0 false ++ [.space, keyword .in, .space] ++
          right.layout k 0 false) ++ body.substmt k false
  | .forInDecl each kind declaration right body =>
      spaces k ++ [keyword .for, .space] ++ (if each then [word (js "each")] else []) ++
        parens ([keyword kind.keyword, .space] ++ declaration.layout true ++
          [.space, keyword .in, .space] ++ right.layout k 0 false) ++ body.substmt k false
  -- `unparse_sourceElement` has no handler for these, so there is no text
  | .forOf _ _ _ => [punct .rp]
  | .forOfDecl _ _ _ _ => [punct .rp]
  | .breakStmt label => spaces k ++ jump .break label
  | .continueStmt label => spaces k ++ jump .continue label
  | .returnStmt argument =>
      spaces k ++ keyword .return ::
        optionalLayout [.space] k 17 false argument ++ [punct .semi, eol]
  | .withStmt _ body =>
      spaces k ++ [keyword .with, .space, punct .lp, punct .rp] ++ body.substmt k false
  | .labeled label body => [word label, punct .colon, .space] ++ body.layout k
  | .switchStmt discriminant cases =>
      spaces k ++ [keyword .switch, .space] ++ parens (discriminant.layout k 0 false) ++
        [.space, punct .lc, eol] ++ (cases.map fun c => c.layout k).flatten ++ spaces k ++
        [punct .rc, eol]
  | .throwStmt argument =>
      spaces k ++ [keyword .throw, .space] ++ argument.layout k 0 false ++ [punct .semi, eol]
  | .tryStmt block _ handler finalizer =>
      spaces k ++ [keyword .try, .space] ++ block.layout k ++ .space ::
        handlerLayout k finalizer.isSome handler ++ finalizerLayout k finalizer
  | .debugger => spaces k ++ [keyword .debugger, punct .semi]
termination_by s => (sizeOf s, 0)

/-- `substmt` -/
def Stmt.substmt (k : ℕ) (more : Bool) : Stmt → List Piece
  | .block body =>
      [.space, punct .lc, eol] ++ (body.map fun s => s.layout 4).flatten ++ spaces k ++
        [punct .rc, if more then .space else eol]
  | s => eol :: s.layout (k + 4) ++ if more then spaces (k + 4) else []
termination_by s => (sizeOf s, 1)

/-- A case of `stmt_switch`. -/
def SwitchCase.layout (k : ℕ) : SwitchCase → List Piece
  | .mk none consequent =>
      spaces k ++ [keyword .default, punct .colon, eol] ++
        (consequent.map fun s => s.layout (k + 4)).flatten
  | .mk (some test) consequent =>
      spaces k ++ [keyword .case, .space] ++ test.layout k 0 false ++ [punct .colon, eol] ++
        (consequent.map fun s => s.layout (k + 4)).flatten
termination_by c => (sizeOf c, 0)

/-- A handler of `stmt_try`, whose guard is left out. -/
def CatchClause.layout (k : ℕ) (more : Bool) : CatchClause → List Piece
  | .mk param _ body =>
      [keyword .catch, .space] ++ parens [word param] ++ .space :: body.layout k ++
        [if more then .space else eol]
termination_by c => (sizeOf c, 0)

def handlerLayout (k : ℕ) (more : Bool) : Option CatchClause → List Piece
  | none => []
  | some c => c.layout k more
termination_by c => (sizeOf c, 0)

def finalizerLayout (k : ℕ) : Option Block → List Piece
  | none => []
  | some b => [keyword .finally, .space] ++ b.layout k ++ [eol]
termination_by b => (sizeOf b, 0)

/-- A block after its indentation, without the line break after it. -/
def Block.layout (k : ℕ) : Block → List Piece
  | .mk body =>
      [punct .lc, eol] ++ (body.map fun s => s.layout 4).flatten ++ spaces k ++ [punct .rc]
termination_by b => (sizeOf b, 0)

end

section

-- the equations are made here, once for all the proofs that unfold
attribute [local simp] Expr.layout Property.layout Declarator.layout Stmt.layout Stmt.substmt
  SwitchCase.layout CatchClause.layout Block.layout

end

end MetaMonkey.Frontend
