import MetaMonkey.Frontend.TokenStream

/-!
`Parser`, together with `ASTSerializer`: from tokens to trees. The productions
are those of the source. Left out is what depends on the tree alone and so
holds of a tree that is read again: declared names, the targets of jumps, and
whether a `return` or a `yield` is in a function. What has no tree here (a
staging operator, a literal, a pattern, a comprehension, an accessor, an arrow,
a function declaration) is not read.
-/

namespace MetaMonkey.Frontend

open Js

/-- A token as the productions tell it. `eol` is what `peekTokenSameLine` says
instead of a token on another line. -/
inductive Token where
  | eof
  | eol
  | name (w : JSString)
  | kw (k : Keyword)
  | punct (p : Punct)
  deriving DecidableEq

def wordToken (w : JSString) : Token :=
  match keyword? w with
  | some k => .kw k
  | none => .name w

def firstToken : List Lexeme → Token
  | [] => .eof
  | .eol :: s => firstToken s
  | .word w :: _ => wordToken w
  | .punct p :: _ => .punct p

def afterToken : List Lexeme → List Lexeme
  | [] => []
  | .eol :: s => afterToken s
  | .word _ :: s => s
  | .punct _ :: s => s

abbrev Parse := StateT (List Lexeme) Option

namespace Parser

/-- A report of an error. -/
def fail {α : Type} : Parse α := fun _ => none

def getToken : Parse Token := fun s => some (firstToken s, afterToken s)

def peekToken : Parse Token := fun s => some (firstToken s, s)

/-- The token after the next one. -/
def peekSecondToken : Parse Token := fun s => some (firstToken (afterToken s), s)

def peekTokenSameLine : Parse Token := fun s =>
  some (if s.head? = some .eol then .eol else firstToken s, s)

def matchToken (t : Token) : Parse Bool := fun s =>
  if firstToken s = t then some (true, afterToken s) else some (false, s)

/-- `MUST_MATCH_TOKEN` -/
def mustMatchToken (t : Token) : Parse Unit := fun s =>
  if firstToken s = t then some ((), afterToken s) else none

def require (cond : Bool) : Parse Unit := if cond then pure () else fail

/-- `getToken(TSF_KEYWORD_IS_NAME)`, put back unless it is a word. -/
def matchWord : Parse (Option JSString) := fun s =>
  match s.dropWhile (· = .eol) with
  | .word w :: s' => some (some w, s')
  | _ => some (none, s)

/-- A name that is no keyword. -/
def getName : Parse JSString := do
  match ← getToken with
  | .name w => return w
  | _ => fail

def matchOrInsertSemicolon : Parse Unit := do
  match ← peekTokenSameLine with
  | .eof | .eol | .punct .semi | .punct .rc =>
      let _ ← matchToken (.punct .semi)
  | _ => fail

def unaryOp? : Token → Option UnaryOp
  | .kw .delete => some .delete
  | .punct .minus => some .neg
  | .punct .plus => some .pos
  | .punct .not => some .not
  | .punct .bitnot => some .bitnot
  | .kw .typeof => some .typeof
  | .kw .void => some .void
  | _ => none

def updateOp? : Token → Option UpdateOp
  | .punct .inc => some .inc
  | .punct .dec => some .dec
  | _ => none

/-- `IsBinaryOpToken` and `BinaryOpTokenKindToParseNodeKind` -/
def binaryOp? (parsingForInit : Bool) : Token → Option BinaryOp
  | .punct .or => some .or
  | .punct .and => some .and
  | .punct .bitor => some .bitor
  | .punct .bitxor => some .bitxor
  | .punct .bitand => some .bitand
  | .punct .strictEq => some .strictEq
  | .punct .eq => some .eq
  | .punct .strictNe => some .strictNe
  | .punct .ne => some .ne
  | .punct .lt => some .lt
  | .punct .le => some .le
  | .punct .gt => some .gt
  | .punct .ge => some .ge
  | .kw .instanceof => some .instanceof
  | .kw .in => if parsingForInit then none else some .in
  | .punct .lsh => some .lsh
  | .punct .rsh => some .rsh
  | .punct .ursh => some .ursh
  | .punct .plus => some .add
  | .punct .minus => some .sub
  | .punct .star => some .star
  | .punct .div => some .div
  | .punct .mod => some .mod
  | _ => none

def assignOp? : Token → Option AssignOp
  | .punct .assign => some .assign
  | .punct .addAssign => some .add
  | .punct .subAssign => some .sub
  | .punct .bitorAssign => some .bitor
  | .punct .bitxorAssign => some .bitxor
  | .punct .bitandAssign => some .bitand
  | .punct .lshAssign => some .lsh
  | .punct .rshAssign => some .rsh
  | .punct .urshAssign => some .ursh
  | .punct .mulAssign => some .star
  | .punct .divAssign => some .div
  | .punct .modAssign => some .mod
  | _ => none

/-- `PrecedenceTable` -/
def precedence : BinaryOp → ℕ
  | .or => 1
  | .and => 2
  | .bitor => 3
  | .bitxor => 4
  | .bitand => 5
  | .strictEq | .eq | .strictNe | .ne => 6
  | .lt | .le | .gt | .ge | .instanceof | .in => 7
  | .lsh | .rsh | .ursh => 8
  | .add | .sub => 9
  | .star | .div | .mod => 10

/-- The operators of the stack that bind as tight as the next one take their right
operand. -/
def reduce (next : ℕ) : List (Expr × BinaryOp) → Expr → Expr × List (Expr × BinaryOp)
  | (lhs, op) :: stack, pn =>
      if next ≤ precedence op then reduce next stack (.binary op lhs pn)
      else (pn, (lhs, op) :: stack)
  | [], pn => (pn, [])

/-- What `setAssignmentLhsOps`, `setLvalKid` and `isValidForStatementLHS` let pass,
patterns aside. -/
def isReference : Expr → Bool
  | .identifier _ => true
  | .member _ _ => true
  | .index _ _ => true
  | .call _ _ => true
  | _ => false

/-- The statement that a statement is directly in. -/
inductive Scope where
  | body
  | block
  | other
  deriving DecidableEq

/-- The first part of the head of a `for`. -/
inductive ForInit where
  | none
  | expression (e : Expr)
  | declaration (kind : VarDeclKind) (declarations : List Declarator)

/-- `matchInOrOf` -/
def matchInOrOf : Parse (Option Bool) := do
  match ← peekToken with
  | .kw .in =>
      let _ ← getToken
      return some false
  | .name w =>
      if w = js "of" then
        let _ ← getToken
        return some true
      else return none
  | _ => return none

/-- Whether a head goes on with `in` or `of`. -/
def isForInOrOf : ForInit → Parse (Option Bool)
  | .none => pure none
  | _ => matchInOrOf

/-- A `for` over the properties or the values of an object. -/
def forEachResult (isForEach isForOf : Bool) (pn1 : ForInit) (pn3 : Expr) (body : Stmt) :
    Parse Stmt :=
  match pn1 with
  | .declaration kind [.mk id init] => do
      require (kind ≠ .const && (init.isNone || kind = .var))
      if isForOf then return .forOfDecl kind (.mk id init) pn3 body
      else return .forInDecl isForEach kind (.mk id init) pn3 body
  | .expression pn2 => do
      require (isReference pn2)
      if isForOf then return .forOf pn2 pn3 body else return .forIn isForEach pn2 pn3 body
  | _ => fail

/-- A `for` with three parts. -/
def forResult (pn1 : ForInit) (pn2 pn3 : Option Expr) (body : Stmt) : Stmt :=
  match pn1 with
  | .none => .forStmt none pn2 pn3 body
  | .expression init => .forStmt (some init) pn2 pn3 body
  | .declaration .let vars => .letStmt vars (.forStmt none pn2 pn3 body)
  | .declaration kind vars => .forDecl kind vars pn2 pn3 body

/-- The label of a jump. -/
def matchLabel : Parse (Option JSString) := do
  match ← peekTokenSameLine with
  | .name w =>
      let _ ← getToken
      return some w
  | _ => return none

/-- The names up to the closing parenthesis. -/
def _formals : Parse (List JSString) := do
  let w ← getName
  if ← matchToken (.punct .comma) then
    return w :: (← _formals)
  else
    mustMatchToken (.punct .rp)
    return [w]
partial_fixpoint

/-- `functionArguments` -/
def functionArguments : Parse (List JSString) := do
  mustMatchToken (.punct .lp)
  if ← matchToken (.punct .rp) then return [] else _formals

mutual

/-- The loop of `argumentList`. Lean packs the functions of the block under the name of
the first. -/
def _argumentNodes : Parse (List Expr) := do
  let argNode ← assignExpr false
  if ← matchToken (.punct .comma) then
    return argNode :: (← _argumentNodes)
  else
    mustMatchToken (.punct .rp)
    return [argNode]
partial_fixpoint

def expr (parsingForInit : Bool) : Parse Expr := do
  let pn ← assignExpr parsingForInit
  if ← matchToken (.punct .comma) then
    return .sequence (pn :: (← commaOperands parsingForInit))
  else return pn
partial_fixpoint

def commaOperands (parsingForInit : Bool) : Parse (List Expr) := do
  let pn ← assignExpr parsingForInit
  if ← matchToken (.punct .comma) then
    return pn :: (← commaOperands parsingForInit)
  else return [pn]
partial_fixpoint

def assignExpr (parsingForInit : Bool) : Parse Expr := do
  if ← matchToken (.kw .yield) then
    yieldExpression parsingForInit
  else
    let lhs ← condExpr1 parsingForInit
    let tt ← peekToken
    match assignOp? tt with
    | some op =>
        let _ ← getToken
        require (isReference lhs)
        let rhs ← assignExpr parsingForInit
        return .assign op lhs rhs
    | none =>
        require (tt ≠ .punct .arrow)
        return lhs
partial_fixpoint

/-- `returnStatementOrYieldExpression` of a `yield`. -/
def yieldExpression (parsingForInit : Bool) : Parse Expr := do
  match ← peekTokenSameLine with
  | .eof | .eol | .punct .semi | .punct .rc | .kw .yield | .punct .rb | .punct .rp
  | .punct .colon | .punct .comma => return .yieldExpr none
  | _ => return .yieldExpr (some (← assignExpr parsingForInit))
partial_fixpoint

def condExpr1 (parsingForInit : Bool) : Parse Expr := do
  let condition ← orExpr1 parsingForInit []
  if ← matchToken (.punct .hook) then
    let thenExpr ← assignExpr false
    mustMatchToken (.punct .colon)
    let elseExpr ← assignExpr parsingForInit
    return .cond condition thenExpr elseExpr
  else return condition
partial_fixpoint

/-- The loop of `orExpr1`, whose operands are always read with the operator `in`. -/
def orExpr1 (parsingForInit : Bool) (stack : List (Expr × BinaryOp)) : Parse Expr := do
  let pn ← unaryExpr
  match binaryOp? parsingForInit (← peekToken) with
  | some op =>
      let _ ← getToken
      let (lhs, stack) := reduce (precedence op) stack pn
      orExpr1 parsingForInit ((lhs, op) :: stack)
  | none => return (reduce 0 stack pn).1
partial_fixpoint

def unaryExpr : Parse Expr := do
  let tt ← getToken
  match unaryOp? tt, updateOp? tt with
  | some op, _ => return .unary op (← unaryExpr)
  | none, some op =>
      let pn ← memberExpr (← getToken) true
      require (isReference pn)
      return .update op true pn
  | none, none =>
      let pn ← memberExpr tt true
      match updateOp? (← peekTokenSameLine) with
      | some op =>
          let _ ← getToken
          require (isReference pn)
          return .update op false pn
      | none => return pn
partial_fixpoint

def memberExpr (tt : Token) (allowCallSyntax : Bool) : Parse Expr := do
  if tt = .kw .new then
    let ctorExpr ← memberExpr (← getToken) false
    if ← matchToken (.punct .lp) then
      memberRest allowCallSyntax (.newExpr ctorExpr (← argumentList))
    else
      memberRest allowCallSyntax (.newExpr ctorExpr [])
  else
    memberRest allowCallSyntax (← primaryExpr tt)
partial_fixpoint

/-- The loop of `memberExpr`. -/
def memberRest (allowCallSyntax : Bool) (lhs : Expr) : Parse Expr := do
  match ← peekToken with
  | .punct .dot =>
      let _ ← getToken
      match ← matchWord with
      | some field => memberRest allowCallSyntax (.member lhs field)
      | none => fail
  | .punct .lb =>
      let _ ← getToken
      let propExpr ← expr false
      mustMatchToken (.punct .rb)
      memberRest allowCallSyntax (.index lhs propExpr)
  | .punct .lp =>
      if allowCallSyntax then
        let _ ← getToken
        memberRest allowCallSyntax (.call lhs (← argumentList))
      else return lhs
  | _ => return lhs
partial_fixpoint

def argumentList : Parse (List Expr) := do
  if ← matchToken (.punct .rp) then return [] else _argumentNodes
partial_fixpoint

def primaryExpr (tt : Token) : Parse Expr := do
  match tt with
  | .kw .function => functionExpr
  | .punct .lb => return .array (← arrayElements)
  | .punct .lc => return .object (← objectProperties)
  | .kw .let => letExpression false
  | .punct .lp =>
      let pn ← expr false
      mustMatchToken (.punct .rp)
      return pn
  | .name w => return .identifier w
  | .kw .this => return .thisExpr
  | _ => fail
partial_fixpoint

/-- The elements up to the closing bracket. -/
def arrayElements : Parse (List Expr) := do
  match ← peekToken with
  | .punct .rb =>
      let _ ← getToken
      return []
  | .punct .comma =>
      let _ ← getToken
      return .elision :: (← arrayElements)
  | _ =>
      let pn2 ← assignExpr false
      if ← matchToken (.punct .comma) then
        return pn2 :: (← arrayElements)
      else
        mustMatchToken (.punct .rb)
        return [pn2]
partial_fixpoint

/-- The properties up to the closing brace. -/
def objectProperties : Parse (List Property) := do
  match ← matchWord with
  | some key =>
      mustMatchToken (.punct .colon)
      let pnval ← assignExpr false
      if ← matchToken (.punct .comma) then
        return .init key pnval :: (← objectProperties)
      else
        mustMatchToken (.punct .rc)
        return [.init key pnval]
  | none =>
      mustMatchToken (.punct .rc)
      return []
partial_fixpoint

/-- `functionExpr` and `functionArgsAndBodyGeneric` -/
def functionExpr : Parse Expr := do
  let name ← matchWord
  let params ← functionArguments
  if ← matchToken (.punct .lc) then
    let body ← statements .body
    mustMatchToken (.punct .rc)
    return .function name params (.mk body)
  else
    return .closure name params (← assignExpr false)
partial_fixpoint

/-- `variables` -/
def variableList (parsingForInit : Bool) : Parse (List Declarator) := do
  let name ← getName
  let init ←
    if ← matchToken (.punct .assign) then
      let init ← assignExpr parsingForInit
      pure (some init)
    else pure none
  if ← matchToken (.punct .comma) then
    return .mk name init :: (← variableList parsingForInit)
  else return [.mk name init]
partial_fixpoint

/-- The head of a `letBlock`. -/
def letHead (parsingForInit : Bool) : Parse (List Declarator) := do
  mustMatchToken (.punct .lp)
  let vars ← variableList parsingForInit
  mustMatchToken (.punct .rp)
  return vars
partial_fixpoint

/-- `letBlock(LetExpresion)` -/
def letExpression (parsingForInit : Bool) : Parse Expr := do
  let vars ← letHead parsingForInit
  return .letExpr vars (← assignExpr parsingForInit)
partial_fixpoint

def statements (scope : Scope) : Parse (List Stmt) := do
  match ← peekToken with
  | .eof | .punct .rc => return []
  | _ =>
      let next ← statement scope
      return next :: (← statements scope)
partial_fixpoint

/-- The statements of a block, from the opening brace to the closing one. -/
def block : Parse (List Stmt) := do
  mustMatchToken (.punct .lc)
  let list ← statements .block
  mustMatchToken (.punct .rc)
  return list
partial_fixpoint

def condition : Parse Expr := do
  mustMatchToken (.punct .lp)
  let pn ← expr false
  mustMatchToken (.punct .rp)
  return pn
partial_fixpoint

def letStatement (scope : Scope) : Parse Stmt := do
  if (← peekToken) = .punct .lp then
    let vars ← letHead false
    if (← peekToken) = .punct .lc then
      return .letStmt vars (.block (← block))
    else
      -- a let expression in the guise of a statement
      let body ← assignExpr false
      matchOrInsertSemicolon
      return .expression (.letExpr vars body)
  else
    require (scope ≠ .other)
    let vars ← variableList false
    matchOrInsertSemicolon
    return .declaration (if scope = .body then .var else .let) vars
partial_fixpoint

def expressionStatement : Parse Stmt := do
  let pnexpr ← expr false
  matchOrInsertSemicolon
  return .expression pnexpr
partial_fixpoint

def ifStatement : Parse Stmt := do
  let cond ← condition
  let thenBranch ← statement .other
  if ← matchToken (.kw .else) then
    return .ifStmt cond thenBranch (some (← statement .other))
  else
    return .ifStmt cond thenBranch none
partial_fixpoint

def doWhileStatement : Parse Stmt := do
  let body ← statement .other
  mustMatchToken (.kw .while)
  let cond ← condition
  let _ ← matchToken (.punct .semi)
  return .doWhile body cond
partial_fixpoint

/-- The first part of the head of a `for`, in which `in` is no operator. -/
def forInit : Parse ForInit := do
  match ← peekToken with
  | .punct .semi => return .none
  | .kw .var =>
      let _ ← getToken
      return .declaration .var (← variableList true)
  | .kw .const =>
      let _ ← getToken
      return .declaration .const (← variableList true)
  | .kw .let =>
      let _ ← getToken
      if (← peekToken) = .punct .lp then
        return .expression (← letExpression true)
      else
        return .declaration .let (← variableList true)
  | _ => return .expression (← expr true)
partial_fixpoint

/-- An expression of the head of a `for`, which may be missing. -/
def forPart (stop : Token) : Parse (Option Expr) := do
  if (← peekToken) = stop then return none else return some (← expr false)
partial_fixpoint

def forStatement : Parse Stmt := do
  let isForEach ← matchToken (.name (js "each"))
  mustMatchToken (.punct .lp)
  let pn1 ← forInit
  match ← isForInOrOf pn1 with
  | some isForOf =>
      require (!(isForOf && isForEach))
      let pn3 ← expr false
      mustMatchToken (.punct .rp)
      let body ← statement .other
      forEachResult isForEach isForOf pn1 pn3 body
  | none =>
      require (!isForEach)
      mustMatchToken (.punct .semi)
      let pn2 ← forPart (.punct .semi)
      mustMatchToken (.punct .semi)
      let pn3 ← forPart (.punct .rp)
      mustMatchToken (.punct .rp)
      return forResult pn1 pn2 pn3 (← statement .other)
partial_fixpoint

/-- The statements of a case. -/
def caseBody : Parse (List Stmt) := do
  match ← peekToken with
  | .punct .rc | .kw .case | .kw .default => return []
  | _ =>
      let stmt ← statement .block
      return stmt :: (← caseBody)
partial_fixpoint

/-- The cases up to the closing brace. -/
def switchCases (seenDefault : Bool) : Parse (List SwitchCase) := do
  match ← getToken with
  | .punct .rc => return []
  | .kw .default =>
      require (!seenDefault)
      mustMatchToken (.punct .colon)
      let body ← caseBody
      return .mk none body :: (← switchCases true)
  | .kw .case =>
      let caseExpr ← expr false
      mustMatchToken (.punct .colon)
      let body ← caseBody
      return .mk (some caseExpr) body :: (← switchCases seenDefault)
  | _ => fail
partial_fixpoint

def switchStatement : Parse Stmt := do
  let discriminant ← condition
  mustMatchToken (.punct .lc)
  return .switchStmt discriminant (← switchCases false)
partial_fixpoint

def returnStatement : Parse Stmt := do
  let exprNode ← match ← peekTokenSameLine with
    | .eof | .eol | .punct .semi | .punct .rc => pure none
    | _ => do
        let exprNode ← expr false
        pure (some exprNode)
  matchOrInsertSemicolon
  return .returnStmt exprNode
partial_fixpoint

def throwStatement : Parse Stmt := do
  match ← peekTokenSameLine with
  | .eof | .eol | .punct .semi | .punct .rc => fail
  | _ =>
      let throwExpr ← expr false
      matchOrInsertSemicolon
      return .throwStmt throwExpr
partial_fixpoint

/-- The handlers that follow, those with a guard first. After one without a guard
there is no other. -/
def catchList : Parse (List CatchClause × Option CatchClause) := do
  if ← matchToken (.kw .catch) then
    mustMatchToken (.punct .lp)
    let catchName ← getName
    if ← matchToken (.kw .if) then
      let catchGuard ← expr false
      mustMatchToken (.punct .rp)
      let catchBody ← block
      let (guarded, handler) ← catchList
      return (.mk catchName (some catchGuard) (.mk catchBody) :: guarded, handler)
    else
      mustMatchToken (.punct .rp)
      let catchBody ← block
      require ((← peekToken) ≠ .kw .catch)
      return ([], some (.mk catchName none (.mk catchBody)))
  else return ([], none)
partial_fixpoint

def tryStatement : Parse Stmt := do
  let innerBlock ← block
  let (guarded, handler) ← catchList
  if ← matchToken (.kw .finally) then
    let finallyBlock ← block
    return .tryStmt (.mk innerBlock) guarded handler (some (.mk finallyBlock))
  else
    require (!guarded.isEmpty || handler.isSome)
    return .tryStmt (.mk innerBlock) guarded handler none
partial_fixpoint

def statement (scope : Scope) : Parse Stmt := do
  match ← peekToken with
  | .punct .lc => return .block (← block)
  | .kw .var =>
      let _ ← getToken
      let pn ← variableList false
      matchOrInsertSemicolon
      return .declaration .var pn
  | .kw .const =>
      let _ ← getToken
      let pn ← variableList false
      matchOrInsertSemicolon
      return .declaration .const pn
  | .kw .let =>
      let _ ← getToken
      letStatement scope
  | .punct .semi =>
      let _ ← getToken
      return .empty
  | .kw .if =>
      let _ ← getToken
      ifStatement
  | .kw .do =>
      let _ ← getToken
      doWhileStatement
  | .kw .while =>
      let _ ← getToken
      let cond ← condition
      return .whileStmt cond (← statement .other)
  | .kw .for =>
      let _ ← getToken
      forStatement
  | .kw .switch =>
      let _ ← getToken
      switchStatement
  | .kw .continue =>
      let _ ← getToken
      let label ← matchLabel
      matchOrInsertSemicolon
      return .continueStmt label
  | .kw .break =>
      let _ ← getToken
      let label ← matchLabel
      matchOrInsertSemicolon
      return .breakStmt label
  | .kw .return =>
      let _ ← getToken
      returnStatement
  | .kw .with =>
      let _ ← getToken
      let objectExpr ← condition
      return .withStmt objectExpr (← statement .other)
  | .kw .throw =>
      let _ ← getToken
      throwStatement
  | .kw .try =>
      let _ ← getToken
      tryStatement
  | .kw .debugger =>
      let _ ← getToken
      matchOrInsertSemicolon
      return .debugger
  | .name label =>
      if (← peekSecondToken) = .punct .colon then
        let _ ← getToken
        let _ ← getToken
        return .labeled label (← statement .other)
      else expressionStatement
  | .kw .function => fail
  | _ => expressionStatement
partial_fixpoint

end

section

-- the equations are made here, once for all the proofs that unfold
attribute [local simp] expr commaOperands assignExpr yieldExpression condExpr1 orExpr1 unaryExpr
  memberExpr memberRest argumentList _argumentNodes primaryExpr arrayElements objectProperties
  functionExpr variableList letHead letExpression statements block condition letStatement
  expressionStatement ifStatement doWhileStatement forInit forPart forStatement caseBody
  switchCases switchStatement returnStatement throwStatement catchList tryStatement statement

end

end Parser

/-- The statements of a text, read to its end. -/
def parseProgram (text : JSString) : Option (List Stmt) := do
  let (stmts, rest) ← Parser.statements .body (← lexemes text)
  if firstToken rest = .eof then some stmts else none

/-- The expression that a text is, as the parser reads it in the place of an
`Expression`. -/
def parseExpression (text : JSString) : Option Expr := do
  let (e, rest) ← Parser.expr false (← lexemes text)
  if firstToken rest = .eof then some e else none

end MetaMonkey.Frontend
