import MetaMonkey.Frontend.TokenStream

/-!
The operand of `.&` is a statement, but `primaryExpr` reads it: the productions of
expressions that called it go on after the statement has ended. They are embedded from
`memberExpr` up to `statements`; the productions they call for other operands are
parameters.
-/

namespace MetaMonkey.Frontend.ExecStatement

/-- A token, with the name or the value that it stands for. -/
structure Token (α : Type) where
  kind : TokenKind
  atom : Option α
  deriving DecidableEq

/-- What is left of a source. What a slash is depends on whether an operand may stand
there (`TSF_OPERAND`), and with it what comes after. `eol` tells of a line break before. -/
inductive Source (α : Type) where
  | done
  | token (eol : Bool) (t : Token α) (rest : Source α)
  | slash (eol equals : Bool) (regexp : Option α) (afterRegexp afterOperator : Source α)
  deriving DecidableEq

mutual

inductive Node (α : Type) where
  | metaExec (body : Statement α)
  | member (lhs : Node α) (field : Option α)
  | index (lhs property : Node α)
  | call (lhs : Node α) (arguments : List (Node α))
  | update (op : TokenKind) (kid : Node α)
  | binary (op : TokenKind) (left right : Node α)
  | cond (condition thenExpr elseExpr : Node α)
  | assign (op : TokenKind) (lhs rhs : Node α)
  | comma (list : List (Node α))
  | other (a : α)

inductive Statement (α : Type) where
  | empty
  | expression (pn : Node α)
  | other (a : α)

end

variable {α : Type}

namespace Source

/-- The operator that begins with a slash. -/
def slashOperator (equals : Bool) : Token α := ⟨if equals then .divAssign else .div, none⟩

def getToken (operand : Bool) : Source α → Token α × Source α
  | done => (⟨.eof, none⟩, done)
  | token _ t rest => (t, rest)
  | slash _ equals regexp afterRegexp afterOperator =>
      if operand then (⟨.regexp, regexp⟩, afterRegexp) else (slashOperator equals, afterOperator)

/-- A token that was read and put back (`ungetToken`) is not scanned again. -/
def scanned (operand : Bool) : Source α → Source α
  | slash eol equals regexp afterRegexp afterOperator =>
      if operand then token eol ⟨.regexp, regexp⟩ afterRegexp
      else token eol (slashOperator equals) afterOperator
  | s => s

def startsLine : Source α → Bool
  | done => true
  | token eol _ _ => eol
  | slash eol _ _ _ _ => eol

def kind (operand : Bool) (s : Source α) : TokenKind := (s.getToken operand).1.kind

def rest (operand : Bool) (s : Source α) : Source α := (s.getToken operand).2

def peekTokenSameLine (operand : Bool) : Source α → TokenKind
  | done => .eof
  | s => if s.startsLine then .eol else s.kind operand

def mustMatchToken (t : TokenKind) (s : Source α) : Option (Source α) :=
  if s.kind false = t then some (s.rest false) else none

end Source

/-- The tokens from `TOK_BINOP_FIRST` to `TOK_BINOP_LAST`, with `PrecedenceTable`. -/
def precedence? : TokenKind → Option ℕ
  | .or => some 1
  | .and => some 2
  | .bitor => some 3
  | .bitxor => some 4
  | .bitand => some 5
  | .strictEq | .eq | .strictNe | .ne => some 6
  | .lt | .le | .gt | .ge | .instanceof | .in => some 7
  | .lsh | .rsh | .ursh => some 8
  | .plus | .minus => some 9
  | .star | .div | .mod => some 10
  | _ => none

def isAssignment : TokenKind → Bool
  | .assign | .addAssign | .subAssign | .bitorAssign | .bitxorAssign | .bitandAssign
  | .lshAssign | .rshAssign | .urshAssign | .mulAssign | .divAssign | .modAssign => true
  | _ => false

/-- The productions below. -/
structure Productions (α : Type) where
  /-- `statement`, where no `.&` and no semicolon begins it. -/
  statement : Source α → Option (Statement α × Source α)
  expr : Source α → Option (Node α × Source α)
  assignExpr : Source α → Option (Node α × Source α)
  unaryExpr : Source α → Option (Node α × Source α)
  argumentList : Source α → Option (List (Node α) × Source α)
  /-- The operands behind a comma. -/
  commaOperands : Source α → Option (List (Node α) × Source α)
  /-- `functionDef` of an arrow function, from the start of the expression. -/
  arrow : Source α → Option (α × Source α)
  /-- The token is a name if keywords are names (`TSF_KEYWORD_IS_NAME`). -/
  isName : Token α → Bool
  /-- What `setAssignmentLhsOps` and `setLvalKid` say of the other nodes. -/
  isReference : α → Bool

section

variable (P : Productions α)

/-- `setAssignmentLhsOps`, `setLvalKid` -/
def isReference : Node α → Bool
  | .member _ _ | .index _ _ | .call _ _ => true
  | .other a => P.isReference a
  | _ => false

/-- The loop of `memberExpr` -/
def _memberRest (lhs : Node α) (s : Source α) : Option (Node α × Source α) :=
  match s.kind false with
  | .dot =>
      let name := (s.rest false).getToken false
      if P.isName name.1 then _memberRest (.member lhs name.1.atom) name.2 else none
  | .lb => do
      let (propExpr, s) ← P.expr (s.rest false)
      let s ← s.mustMatchToken .rb
      _memberRest (.index lhs propExpr) s
  | .lp => do
      let (arguments, s) ← P.argumentList (s.rest false)
      _memberRest (.call lhs arguments) s
  | .error => none
  | _ => some (lhs, s.scanned false)
partial_fixpoint

/-- `unaryExpr` behind its operand -/
def unaryRest (pn : Node α) (s : Source α) : Option (Node α × Source α) :=
  let tt := s.peekTokenSameLine false
  if tt = .inc ∨ tt = .dec then
    if isReference P pn then some (.update tt pn, s.rest false) else none
  else some (pn, s.scanned false)

/-- The operators of the stack that bind as tight as the next one take their right
operand. -/
def reduce (next : ℕ) : List (Node α × TokenKind) → Node α → Node α × List (Node α × TokenKind)
  | (lhs, op) :: stack, pn =>
      if next ≤ (precedence? op).getD 0 then reduce next stack (.binary op lhs pn)
      else (pn, (lhs, op) :: stack)
  | [], pn => (pn, [])

/-- The loop of `orExpr1` behind an operand -/
def _orRest (stack : List (Node α × TokenKind)) (pn : Node α) (s : Source α) :
    Option (Node α × Source α) :=
  match precedence? (s.kind false) with
  | some next => do
      let (lhs, stack) := reduce next stack pn
      let (pn, rest) ← P.unaryExpr (s.rest false)
      _orRest ((lhs, s.kind false) :: stack) pn rest
  | none => some ((reduce 0 stack pn).1, s.scanned false)
partial_fixpoint

/-- `condExpr1` behind the condition -/
def condRest (condition : Node α) (s : Source α) : Option (Node α × Source α) :=
  if s.kind false = .hook then do
    let (thenExpr, s) ← P.assignExpr (s.rest false)
    let s ← s.mustMatchToken .colon
    let (elseExpr, s) ← P.assignExpr s
    return (.cond condition thenExpr elseExpr, s)
  else some (condition, s.scanned false)

/-- `assignExpr` behind its left side, for an expression that begins at `start` -/
def assignRest (start : Source α) (lhs : Node α) (s : Source α) :
    Option (Node α × Source α) :=
  if isAssignment (s.kind false) then
    if isReference P lhs then do
      let (rhs, rest) ← P.assignExpr (s.rest false)
      return (.assign (s.kind false) lhs rhs, rest)
    else none
  else if s.kind false = .arrow then do
    let (a, s) ← P.arrow start
    return (.other a, s)
  else some (lhs, s.scanned false)

/-- `expr` behind its first operand -/
def exprRest (pn : Node α) (s : Source α) : Option (Node α × Source α) :=
  if s.kind false = .comma then do
    let (list, s) ← P.commaOperands (s.rest false)
    return (.comma (pn :: list), s)
  else some (pn, s.scanned false)

/-- `expr` behind the operand of a `.&` that begins at `start` -/
def execRest (start : Source α) (body : Statement α) (s : Source α) :
    Option (Node α × Source α) := do
  let (pn, s) ← _memberRest P (.metaExec body) s
  let (pn, s) ← unaryRest P pn s
  let (pn, s) ← _orRest P [] pn s
  let (pn, s) ← condRest P pn s
  let (pn, s) ← assignRest P start pn s
  exprRest P pn s

/-- `MatchOrInsertSemicolon` -/
def matchOrInsertSemicolon (s : Source α) : Option (Source α) :=
  match s.peekTokenSameLine true with
  | .eof | .eol | .semi | .rc =>
      let s := s.scanned true
      some (if s.kind false = .semi then s.rest false else s)
  | _ => none

def _statement (s : Source α) : Option (Statement α × Source α) :=
  match s.kind true with
  | .metaExec => do
      let (body, rest) ← _statement (s.rest true)
      let (pn, rest) ← execRest P s body rest
      let rest ← matchOrInsertSemicolon rest
      return (.expression pn, rest)
  | .semi => some (.empty, s.rest true)
  | _ => P.statement s
partial_fixpoint

def _statements (s : Source α) : Option (List (Statement α) × Source α) :=
  match s.kind true with
  | .eof | .rc => some ([], s.scanned true)
  | _ => do
      let (next, rest) ← _statement P (s.scanned true)
      let (list, rest) ← _statements rest
      return (next :: list, rest)
partial_fixpoint

end

/-! ### Where the expression goes on -/

/-- The tokens that one of the productions takes, though a line break is before them. -/
def continues (t : TokenKind) : Bool :=
  t = .dot || t = .lb || t = .lp || t = .error || (precedence? t).isSome || t = .hook ||
    isAssignment t || t = .arrow || t = .comma

namespace Source

@[simp] theorem kind_scanned (operand : Bool) (s : Source α) :
    (s.scanned operand).kind operand = s.kind operand := by
  cases s with
  | slash eol equals regexp afterRegexp afterOperator => cases operand <;> rfl
  | _ => rfl

@[simp] theorem rest_scanned (operand : Bool) (s : Source α) :
    (s.scanned operand).rest operand = s.rest operand := by
  cases s with
  | slash eol equals regexp afterRegexp afterOperator => cases operand <;> rfl
  | _ => rfl

@[simp] theorem scanned_scanned (operand : Bool) (s : Source α) :
    (s.scanned operand).scanned operand = s.scanned operand := by
  cases s with
  | slash eol equals regexp afterRegexp afterOperator => cases operand <;> rfl
  | _ => rfl

@[simp] theorem startsLine_scanned (operand : Bool) (s : Source α) :
    (s.scanned operand).startsLine = s.startsLine := by
  cases s with
  | slash eol equals regexp afterRegexp afterOperator => cases operand <;> rfl
  | _ => rfl

/-- A slash is always an operator that goes on. -/
theorem scanned_of_not_continues {s : Source α} (h : continues (s.kind false) = false)
    (operand : Bool) : s.scanned operand = s := by
  cases s with
  | slash eol equals regexp afterRegexp afterOperator =>
      cases equals <;> simp [continues, kind, getToken, slashOperator, precedence?, isAssignment]
        at h
  | _ => rfl

theorem peekTokenSameLine_of_startsLine {s : Source α} (h : s.startsLine = true)
    (operand : Bool) :
    s.peekTokenSameLine operand = .eof ∨ s.peekTokenSameLine operand = .eol := by
  cases s with
  | done => exact Or.inl rfl
  | token eol t rest => exact Or.inr (if_pos h)
  | slash eol equals regexp afterRegexp afterOperator => exact Or.inr (if_pos h)

end Source

def Node.isExec : Node α → Bool
  | .metaExec _ => true
  | _ => false

section

variable {P : Productions α} {R s s' : Source α} {pn pn' : Node α} {body : Statement α}

/-- Where the loop of `memberExpr` ends with a `.&`, it has not gone on. -/
theorem memberRest_exec (h : _memberRest P pn s = some (pn', s')) (hexec : pn'.isExec = true) :
    pn' = pn ∧ s' = s.scanned false ∧
      (s.kind false ≠ .dot ∧ s.kind false ≠ .lb ∧ s.kind false ≠ .lp ∧ s.kind false ≠ .error) := by
  refine _memberRest.partial_correctness P (fun lhs s r => r.1.isExec = true →
    r.1 = lhs ∧ r.2 = s.scanned false ∧
      (s.kind false ≠ .dot ∧ s.kind false ≠ .lb ∧ s.kind false ≠ .lp ∧ s.kind false ≠ .error))
    ?_ pn s (pn', s') h hexec
  intro rec ih lhs s r hr hexec
  -- a node that the loop has built is none
  have hbuilt : ∀ lhs' t, rec lhs' t = some r → lhs'.isExec = true := fun lhs' t ht => by
    rw [← (ih lhs' t r ht hexec).1]
    exact hexec
  split at hr
  · dsimp only at hr
    split at hr
    · exact absurd (hbuilt _ _ hr) Bool.false_ne_true
    · cases hr
  · simp only [bind, Option.bind_eq_some_iff] at hr
    obtain ⟨p, -, t, -, hr⟩ := hr
    exact absurd (hbuilt _ _ hr) Bool.false_ne_true
  · simp only [bind, Option.bind_eq_some_iff] at hr
    obtain ⟨p, -, hr⟩ := hr
    exact absurd (hbuilt _ _ hr) Bool.false_ne_true
  · cases hr
  · next hdot hlb hlp herror =>
      cases hr
      exact ⟨rfl, rfl, hdot, hlb, hlp, herror⟩

theorem unaryRest_exec (hline : s.startsLine = true) :
    unaryRest P pn s = some (pn, s.scanned false) := by
  obtain h | h := Source.peekTokenSameLine_of_startsLine hline false <;> simp [unaryRest, h]

/-- The operators of a stack make an operator of what they are put before. -/
theorem reduce_exec {stack : List (Node α × TokenKind)}
    (hexec : (reduce 0 stack pn).1.isExec = true) : stack = [] ∧ pn.isExec = true := by
  induction stack generalizing pn with
  | nil => exact ⟨rfl, hexec⟩
  | cons top stack ih =>
      obtain ⟨lhs, op⟩ := top
      rw [reduce, if_pos (Nat.zero_le _)] at hexec
      exact absurd (ih hexec).2 Bool.false_ne_true

theorem orRest_exec {stack : List (Node α × TokenKind)}
    (h : _orRest P stack pn s = some (pn', s')) (hexec : pn'.isExec = true) :
    stack = [] ∧ precedence? (s.kind false) = none ∧ pn' = (reduce 0 stack pn).1 ∧
      s' = s.scanned false := by
  refine _orRest.partial_correctness P (fun stack pn s r => r.1.isExec = true →
    stack = [] ∧ precedence? (s.kind false) = none ∧ r.1 = (reduce 0 stack pn).1 ∧
      r.2 = s.scanned false) ?_ stack pn s (pn', s') h hexec
  intro rec ih stack pn s r hr hexec
  split at hr
  · simp only [bind, Option.bind_eq_some_iff] at hr
    obtain ⟨p, -, hr⟩ := hr
    exact absurd (ih _ _ _ r hr hexec).1 (List.cons_ne_nil _ _)
  · next hnone =>
      cases hr
      exact ⟨(reduce_exec hexec).1, hnone, rfl, rfl⟩

/-- Only where no token is taken is the operand of the statement the `.&` itself. -/
theorem execRest_exec {start : Source α} (hline : R.startsLine = true)
    (h : execRest P start body R = some (pn', s')) (hexec : pn'.isExec = true) :
    continues (R.kind false) = false := by
  simp only [execRest, bind, Option.bind_eq_some_iff] at h
  obtain ⟨⟨pn₁, s₁⟩, hmember, ⟨pn₂, s₂⟩, hunary, ⟨pn₃, s₃⟩, hor, ⟨pn₄, s₄⟩, hcond, ⟨pn₅, s₅⟩,
    hassign, hexpr⟩ := h
  dsimp only at hunary hor hcond hassign hexpr
  -- from the outermost production inwards
  have hcomma : s₅.kind false ≠ .comma ∧ pn' = pn₅ := by
    rw [exprRest] at hexpr
    split at hexpr
    · simp only [bind, Option.bind_eq_some_iff] at hexpr
      obtain ⟨p, -, hexpr⟩ := hexpr
      cases hexpr
      exact absurd hexec Bool.false_ne_true
    · next hcomma =>
        cases hexpr
        exact ⟨hcomma, rfl⟩
  obtain ⟨hcomma, rfl⟩ := hcomma
  have hassign : isAssignment (s₄.kind false) = false ∧ s₄.kind false ≠ .arrow ∧
      pn' = pn₄ ∧ s₅ = s₄.scanned false := by
    rw [assignRest] at hassign
    split at hassign
    · split at hassign
      · simp only [bind, Option.bind_eq_some_iff] at hassign
        obtain ⟨p, -, hassign⟩ := hassign
        cases hassign
        exact absurd hexec Bool.false_ne_true
      · cases hassign
    · next hno =>
        split at hassign
        · simp only [bind, Option.bind_eq_some_iff] at hassign
          obtain ⟨p, -, hassign⟩ := hassign
          cases hassign
          exact absurd hexec Bool.false_ne_true
        · next harrow =>
            cases hassign
            exact ⟨by simpa using hno, harrow, rfl, rfl⟩
  obtain ⟨hno, harrow, rfl, rfl⟩ := hassign
  have hcond : s₃.kind false ≠ .hook ∧ pn' = pn₃ ∧ s₄ = s₃.scanned false := by
    rw [condRest] at hcond
    split at hcond
    · simp only [bind, Option.bind_eq_some_iff] at hcond
      obtain ⟨p, -, t, -, q, -, hcond⟩ := hcond
      cases hcond
      exact absurd hexec Bool.false_ne_true
    · next hhook =>
        cases hcond
        exact ⟨hhook, rfl, rfl⟩
  obtain ⟨hhook, rfl, rfl⟩ := hcond
  obtain ⟨-, hop, hsame, rfl⟩ := orRest_exec hor hexec
  rw [reduce] at hsame
  subst hsame
  have hunary' : pn' = pn₁ ∧ (s₁.startsLine = true → s₂ = s₁.scanned false) := by
    constructor
    · rw [unaryRest] at hunary
      split at hunary
      · split at hunary
        · cases hunary
          exact absurd hexec Bool.false_ne_true
        · cases hunary
      · cases hunary
        rfl
    · intro hline
      rw [unaryRest_exec hline] at hunary
      cases hunary
      rfl
  obtain ⟨rfl, hs₂⟩ := hunary'
  obtain ⟨-, rfl, hdot, hlb, hlp, herror⟩ := memberRest_exec hmember hexec
  obtain rfl := hs₂ (by simpa using hline)
  simp only [Source.kind_scanned, Source.scanned_scanned] at hop hhook hno harrow hcomma
  simp [continues, *]

/-- Where no production takes its first token, the next statement is left alone. -/
theorem execRest_of_not_continues {start : Source α} (hline : R.startsLine = true)
    (h : continues (R.kind false) = false) :
    execRest P start body R = some (.metaExec body, R) := by
  have hscanned : R.scanned false = R := Source.scanned_of_not_continues h false
  have hmember : _memberRest P (.metaExec body) R = some (.metaExec body, R) := by
    rw [_memberRest]
    split <;> simp_all [continues]
  have hunary : unaryRest P (.metaExec body) R = some (.metaExec body, R) := by
    rw [unaryRest_exec hline, hscanned]
  simp only [continues, Bool.or_eq_false_iff, decide_eq_false_iff_not,
    Option.isSome_eq_false_iff, Option.isNone_iff_eq_none] at h
  obtain ⟨⟨⟨⟨⟨_, hop⟩, hhook⟩, hassign⟩, harrow⟩, hcomma⟩ := h
  have hor : _orRest P [] (.metaExec body) R = some (.metaExec body, R) := by
    rw [_orRest, hop, hscanned]
    rfl
  simp [execRest, hmember, hunary, hor, condRest, hhook, assignRest, hassign, harrow, exprRest,
    hcomma, hscanned]

theorem matchOrInsertSemicolon_of_startsLine (hline : R.startsLine = true)
    (h : continues (R.kind false) = false) :
    matchOrInsertSemicolon R = some (if R.kind false = .semi then R.rest false else R) := by
  have hscanned : R.scanned true = R := Source.scanned_of_not_continues h true
  obtain heof | heol := Source.peekTokenSameLine_of_startsLine hline true <;>
    simp [matchOrInsertSemicolon, *]

theorem startsWith_metaExec (h : s.kind true = .metaExec) : s.scanned true = s := by
  cases s with
  | slash eol equals regexp afterRegexp afterOperator => cases h
  | _ => rfl

theorem statements_done : _statements P .done = some ([], .done) := by
  rw [_statements]
  rfl

theorem statements_single {next : Statement α} (heof : s.kind true ≠ .eof)
    (hrc : s.kind true ≠ .rc) (h : _statement P (s.scanned true) = some (next, .done)) :
    _statements P s = some ([next], .done) := by
  rw [_statements]
  simp only [bind, h, Option.bind_some, statements_done]
  rfl

theorem statements_metaExec (h : s.kind true = .metaExec) :
    _statements P s = (_statement P s).bind fun p =>
      (_statements P p.2).bind fun q => some (p.1 :: q.1, q.2) := by
  rw [_statements]
  simp only [h, startsWith_metaExec h]
  rfl

theorem statement_metaExec {S : Statement α} (h : s.kind true = .metaExec)
    (hS : _statement P (s.rest true) = some (S, R)) :
    _statement P s = (execRest P s S R).bind fun p =>
      (matchOrInsertSemicolon p.2).bind fun rest => some (.expression p.1, rest) := by
  rw [_statement]
  simp only [h, hS]
  rfl

theorem statements_semi {ss : List (Statement α)} {stop : Source α}
    (h : R.kind true = .semi) (hR : _statements P R = some (ss, stop)) :
    ∃ list, _statements P (R.rest true) = some (list, stop) ∧ ss = .empty :: list := by
  rw [_statements] at hR
  simp only [h, bind, Option.bind_eq_some_iff] at hR
  obtain ⟨⟨next, rest⟩, hnext, ⟨list, stop'⟩, hlist, hR⟩ := hR
  cases hR
  rw [_statement] at hnext
  simp only [Source.kind_scanned, h, Source.rest_scanned] at hnext
  cases hnext
  exact ⟨list, hlist, rfl⟩

/-- The statements behind `.& S`, that has ended and whose next token starts a line, are
parsed as they are on their own if and only if no production takes that token. -/
theorem metaExec_ends_iff (P : Productions α) {s R stop : Source α} {S : Statement α}
    {ss : List (Statement α)} (h : s.kind true = .metaExec)
    (hS : _statement P (s.rest true) = some (S, R)) (hline : R.startsLine = true)
    (hR : _statements P R = some (ss, stop)) :
    _statements P s = some (.expression (.metaExec S) :: ss, stop) ↔
      continues (R.kind false) = false ∧ R.kind false ≠ .semi := by
  rw [statements_metaExec h, statement_metaExec h hS]
  constructor
  · intro hs
    simp only [Option.bind_eq_some_iff] at hs
    obtain ⟨⟨next, rest⟩, ⟨⟨pn, rest'⟩, hexec, rest'', hmatch, hnext⟩, ⟨list, stop'⟩, hlist, hs⟩ :=
      hs
    cases hnext
    cases hs
    have hgoes : continues (R.kind false) = false := execRest_exec hline hexec rfl
    refine ⟨hgoes, fun hsemi => ?_⟩
    -- the semicolon is an empty statement of `R`, and it is skipped
    rw [execRest_of_not_continues hline hgoes] at hexec
    cases hexec
    rw [matchOrInsertSemicolon_of_startsLine hline hgoes, if_pos hsemi] at hmatch
    cases hmatch
    have hscanned : R.scanned true = R := Source.scanned_of_not_continues hgoes true
    have hsame : R.rest true = R.rest false ∧ R.kind true = R.kind false := by
      cases R with
      | slash eol equals regexp afterRegexp afterOperator => cases hscanned
      | _ => exact ⟨rfl, rfl⟩
    obtain ⟨list', hlist', hss⟩ := statements_semi (hsame.2.trans hsemi) hR
    rw [hsame.1, hlist] at hlist'
    cases hlist'
    exact absurd hss (List.ne_cons_self)
  · rintro ⟨hgoes, hsemi⟩
    simp [execRest_of_not_continues hline hgoes, matchOrInsertSemicolon_of_startsLine hline hgoes,
      hsemi, hR]

end

/-! ### Empty blocks and calls -/

/-- The productions of a language of `{}`, `f;` and `(f)();`. -/
def blocksAndCalls : Productions String where
  statement
    | .token _ ⟨.lc, _⟩ (.token _ ⟨.rc, _⟩ rest) => some (.other "\x7b\x7d", rest)
    | .token _ ⟨.name, some f⟩ (.token _ ⟨.semi, _⟩ rest) => some (.expression (.other f), rest)
    | .token _ ⟨.lp, _⟩ (.token _ ⟨.name, some f⟩ (.token _ ⟨.rp, _⟩ (.token _ ⟨.lp, _⟩
        (.token _ ⟨.rp, _⟩ (.token _ ⟨.semi, _⟩ rest))))) =>
        some (.expression (.call (.other f) []), rest)
    | _ => none
  argumentList
    | .token _ ⟨.rp, _⟩ rest => some ([], rest)
    | .token _ ⟨.name, some f⟩ (.token _ ⟨.rp, _⟩ rest) => some ([.other f], rest)
    | _ => none
  expr _ := none
  assignExpr _ := none
  unaryExpr _ := none
  commaOperands _ := none
  arrow _ := none
  isName t := t.kind = .name
  isReference _ := true

/-- `f;` on a line of its own -/
def nameLine : Source String :=
  .token true ⟨.name, some "f"⟩ (.token false ⟨.semi, none⟩ .done)

/-- `(f)();` on a line of its own -/
def callLine : Source String :=
  .token true ⟨.lp, none⟩ (.token false ⟨.name, some "f"⟩ (.token false ⟨.rp, none⟩
    (.token false ⟨.lp, none⟩ (.token false ⟨.rp, none⟩ (.token false ⟨.semi, none⟩ .done)))))

/-- `.& {}` before the line `R` -/
def execBlock (R : Source String) : Source String :=
  .token true ⟨.metaExec, none⟩ (.token false ⟨.lc, none⟩ (.token false ⟨.rc, none⟩ R))

theorem execBlock_body (R : Source String) :
    _statement blocksAndCalls ((execBlock R).rest true) = some (.other "\x7b\x7d", R) := by
  rw [_statement]
  rfl

theorem nameLine_statements :
    _statements blocksAndCalls nameLine = some ([.expression (.other "f")], .done) := by
  refine statements_single (by decide) (by decide) ?_
  rw [_statement]
  rfl

theorem callLine_statements :
    _statements blocksAndCalls callLine =
      some ([.expression (.call (.other "f") [])], .done) := by
  refine statements_single (by decide) (by decide) ?_
  rw [_statement]
  rfl

theorem metaExec_ends_nameLine :
    (continues (nameLine.kind false) = false ∧ nameLine.kind false ≠ .semi) ∧
      _statements blocksAndCalls (execBlock nameLine) =
        some ([.expression (.metaExec (.other "\x7b\x7d")), .expression (.other "f")],
          .done) := by
  have hgoes : continues (nameLine.kind false) = false ∧ nameLine.kind false ≠ .semi := by decide
  exact ⟨hgoes, (metaExec_ends_iff blocksAndCalls rfl (execBlock_body nameLine) rfl
    nameLine_statements).mpr hgoes⟩

theorem execBlock_callLine :
    _statements blocksAndCalls (execBlock callLine) =
      some ([.expression (.call (.call (.metaExec (.other "\x7b\x7d")) [.other "f"]) [])],
        .done) := by
  -- the two argument lists are taken, and the semicolon is left
  have hmember : _memberRest blocksAndCalls (.metaExec (.other "\x7b\x7d")) callLine =
      some (.call (.call (.metaExec (.other "\x7b\x7d")) [.other "f"]) [],
        .token false ⟨.semi, none⟩ .done) := by
    rw [_memberRest.eq_def]
    change _memberRest _ _ _ = _
    rw [_memberRest.eq_def]
    change _memberRest _ _ _ = _
    rw [_memberRest.eq_def]
    rfl
  refine statements_single (by decide) (by decide) ?_
  change _statement blocksAndCalls (execBlock callLine) = _
  rw [statement_metaExec rfl (execBlock_body callLine), execRest, hmember]
  change Option.bind ((_orRest blocksAndCalls [] _ _).bind _) _ = _
  rw [_orRest.eq_def]
  rfl

/-- `.& {}` on a line before `(f)();` is called with `f`. -/
theorem metaExec_calls :
    _statements blocksAndCalls callLine =
        some ([.expression (.call (.other "f") [])], .done) ∧
      _statements blocksAndCalls (execBlock callLine) ≠
        some ([.expression (.metaExec (.other "\x7b\x7d")),
          .expression (.call (.other "f") [])], .done) := by
  refine ⟨callLine_statements, fun h => ?_⟩
  rw [execBlock_callLine] at h
  cases h

end MetaMonkey.Frontend.ExecStatement
