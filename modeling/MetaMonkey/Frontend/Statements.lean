import MetaMonkey.Frontend.Productions

/-!
One rule for each statement. A statement that ends in an `if` takes an `else`
that follows: `resume` is how the parser goes on after its text.
-/

namespace MetaMonkey.Frontend

open Js

/-- Whether an `else` after a statement would belong to it. -/
def Stmt.openIf : Stmt → Bool
  | ifStmt _ _ none => true
  | ifStmt _ _ (some alternate) => alternate.openIf
  | letStmt _ body => body.openIf
  | whileStmt _ body => body.openIf
  | forStmt _ _ _ body => body.openIf
  | forDecl _ _ _ _ body => body.openIf
  | forIn _ _ _ body => body.openIf
  | forInDecl _ _ _ _ body => body.openIf
  | forOf _ _ body => body.openIf
  | forOfDecl _ _ _ body => body.openIf
  | withStmt _ body => body.openIf
  | labeled _ body => body.openIf
  | _ => false

/-- A statement with an `else` after it, which is that of the last `if` without one. -/
def Stmt.attach : Stmt → Stmt → Stmt
  | ifStmt test consequent none, s =>
      if consequent.openIf then ifStmt test (consequent.attach s) none
      else ifStmt test consequent (some s)
  | ifStmt test consequent (some alternate), s =>
      ifStmt test consequent (some (alternate.attach s))
  | letStmt head body, s => letStmt head (body.attach s)
  | whileStmt test body, s => whileStmt test (body.attach s)
  | forStmt init test update body, s => forStmt init test update (body.attach s)
  | forDecl kind ds test update body, s => forDecl kind ds test update (body.attach s)
  | forIn each left right body, s => forIn each left right (body.attach s)
  | forInDecl each kind d right body, s => forInDecl each kind d right (body.attach s)
  | forOf left right body, s => forOf left right (body.attach s)
  | forOfDecl kind d right body, s => forOfDecl kind d right (body.attach s)
  | withStmt object body, s => withStmt object (body.attach s)
  | labeled label body, s => labeled label (body.attach s)
  | closed, _ => closed

namespace Parser

/-! ### Line breaks before a statement -/

section

variable (s : List Lexeme)

theorem unaryExpr_eol : unaryExpr (.eol :: s) = unaryExpr s := by
  rw [unaryExpr]
  simp only [bind_apply, getToken_apply, firstToken_eol, afterToken_eol]

theorem orExpr1_eol (fi : Bool) (stack : List (Expr × BinaryOp)) :
    orExpr1 fi stack (.eol :: s) = orExpr1 fi stack s := by
  rw [orExpr1_eq, bind_apply, bind_apply, unaryExpr_eol]

theorem assignExpr_eol (fi : Bool) : assignExpr fi (.eol :: s) = assignExpr fi s := by
  have hcond : condExpr1 fi (.eol :: s) = condExpr1 fi s := by
    rw [condExpr1, bind_apply, bind_apply, orExpr1_eol]
  rw [assignExpr]
  simp only [bind_apply, matchToken_apply, firstToken_eol, afterToken_eol]
  by_cases hyield : firstToken s = .kw .yield
  · simp only [hyield, if_true]
  · simp only [hyield, if_false, Option.bind_some, Bool.false_eq_true, bind_apply, hcond]

theorem expr_eol (fi : Bool) : expr fi (.eol :: s) = expr fi s := by
  rw [Parser.expr, bind_apply, bind_apply, assignExpr_eol]

theorem block_eol : block (.eol :: s) = block s := by
  rw [block]
  simp only [bind_apply, mustMatchToken_apply, firstToken_eol, afterToken_eol]
  rfl

theorem statement_eol (scope : Scope) : statement scope (.eol :: s) = statement scope s := by
  have hexpr : expressionStatement (.eol :: s) = expressionStatement s := by
    rw [expressionStatement, bind_apply, bind_apply, expr_eol]
  rw [statement]
  simp only [bind_apply, peekToken_apply, firstToken_eol, Option.bind_some]
  generalize firstToken s = t
  split <;> simp only [bind_apply, getToken_apply, afterToken_eol, peekSecondToken, block_eol,
    hexpr, Option.bind_some, fail_apply]
  split <;> simp only [bind_apply, getToken_apply, firstToken_eol, afterToken_eol, hexpr]

theorem statement_eols (scope : Scope) (n : ℕ) :
    statement scope (eols n ++ s) = statement scope s := by
  induction n with
  | zero => rfl
  | succ n ih => exact (statement_eol _ scope).trans ih

end

/-! ### What an `else` belongs to -/

/-- How the parser goes on after the text of a statement. -/
def resume : Stmt → Parse Stmt
  | .ifStmt test consequent none => do
      let consequent ← resume consequent
      if ← matchToken (.kw .else) then
        return .ifStmt test consequent (some (← statement .other))
      else return .ifStmt test consequent none
  | .ifStmt test consequent (some alternate) => do
      return .ifStmt test consequent (some (← resume alternate))
  | .letStmt head body => do return .letStmt head (← resume body)
  | .whileStmt test body => do return .whileStmt test (← resume body)
  | .forStmt init test update body => do return .forStmt init test update (← resume body)
  | .forDecl kind ds test update body => do
      return .forDecl kind ds test update (← resume body)
  | .forIn each left right body => do return .forIn each left right (← resume body)
  | .forInDecl each kind d right body => do
      return .forInDecl each kind d right (← resume body)
  | .forOf left right body => do return .forOf left right (← resume body)
  | .forOfDecl kind d right body => do return .forOfDecl kind d right (← resume body)
  | .withStmt object body => do return .withStmt object (← resume body)
  | .labeled label body => do return .labeled label (← resume body)
  | closed => pure closed

/-- Without an `else` after it a statement is at its end. -/
theorem resume_end {rest : List Lexeme} (h : firstToken rest ≠ .kw .else) (s : Stmt) :
    resume s rest = some (s, rest) := by
  fun_induction resume s <;> simp_all [bind_apply, matchToken_apply]

/-- A statement that does not end in an `if` without alternate takes no `else`. -/
theorem resume_closed {s : Stmt} (h : s.openIf = false) (rest : List Lexeme) :
    resume s rest = some (s, rest) := by
  fun_induction resume s <;> simp_all [Stmt.openIf, bind_apply]

/-- An `else` after a statement that ends in an `if`. -/
theorem resume_else {s : Stmt} (h : s.openIf = true) {ts rest : List Lexeme} {r : Option Stmt}
    (hread : statement .other ts = r.bind fun alternate => resume alternate rest) (n : ℕ) :
    resume s (eols n ++ .keyword .else :: ts) =
      r.bind fun alternate => resume (s.attach alternate) rest := by
  fun_induction resume s
  case case1 test consequent ih =>
    cases hopen : consequent.openIf with
    | true =>
        simp only [bind_apply, ih hopen, Stmt.attach, hopen, if_true]
        cases r with
        | none => rfl
        | some alternate => simp only [Option.bind_some, resume, bind_apply]
    | false =>
        simp only [bind_apply, resume_closed hopen, Option.bind_some, matchToken_apply,
          firstToken_eols, firstToken_keyword, if_true, afterToken_eols, afterToken_keyword,
          hread, Stmt.attach, hopen, Bool.false_eq_true, if_false]
        cases r with
        | none => rfl
        | some alternate => simp only [Option.bind_some, resume, bind_apply]
  all_goals
    simp only [Stmt.openIf, Bool.false_eq_true] at h
  all_goals
    rename_i ih
    simp only [bind_apply, ih h, Stmt.attach]
    cases r with
    | none => rfl
    | some alternate => simp only [Option.bind_some, resume, bind_apply]

/-! ### The rules -/

/-- After a statement there is no clause of a `try`. -/
def Follows (rest : List Lexeme) : Prop :=
  firstToken rest ≠ .kw .catch ∧ firstToken rest ≠ .kw .finally

/-- A list that is read as a statement, which an `else` that follows may go on with. -/
def StmtReads (scope : Scope) (ts : List Lexeme) (r : Option Stmt) : Prop :=
  ∃ n, ∀ rest, Follows rest →
    statement scope (ts ++ rest) = r.bind fun s => resume s (eols n ++ rest)

section

variable {scope : Scope} {ts te tb tc : List Lexeme} {r rb rc : Option Stmt} {re : Option Expr}

theorem StmtReads.eol_before (h : StmtReads scope ts r) : StmtReads scope (.eol :: ts) r := by
  obtain ⟨n, hn⟩ := h
  exact ⟨n, fun rest hrest => (statement_eol _ scope).trans (hn rest hrest)⟩

theorem StmtReads.eol_after (h : StmtReads scope ts r) : StmtReads scope (ts ++ [.eol]) r := by
  obtain ⟨n, hn⟩ := h
  refine ⟨n + 1, fun rest hrest => ?_⟩
  have hread := hn (.eol :: rest) hrest
  have heols : eols n ++ .eol :: rest = eols (n + 1) ++ rest := eols_add n 1 rest
  rw [heols] at hread
  rw [List.append_assoc]
  exact hread

/-- A statement that takes no `else`, from what it is read as. -/
theorem StmtReads.closed (hclosed : ∀ s ∈ r, s.openIf = false)
    (h : ∀ rest, Follows rest → statement scope (ts ++ rest) = r.map fun s => (s, rest)) :
    StmtReads scope ts r := by
  refine ⟨0, fun rest hrest => ?_⟩
  rw [h rest hrest]
  cases r with
  | none => rfl
  | some s => exact (resume_closed (hclosed s rfl) rest).symm

/-- Before what is no `else` a statement is at its end. -/
theorem StmtReads.apply_end (h : StmtReads scope ts r) :
    ∃ n, ∀ rest, Follows rest → firstToken rest ≠ .kw .else →
      statement scope (ts ++ rest) = r.map fun s => (s, eols n ++ rest) := by
  obtain ⟨n, hn⟩ := h
  refine ⟨n, fun rest hrest helse => ?_⟩
  rw [hn rest hrest]
  cases r with
  | none => rfl
  | some s => exact resume_end (by rwa [firstToken_eols]) s

theorem condition_reads (h : ExprReads false te re) (rest : List Lexeme) :
    condition (.punct .lp :: (te ++ .punct .rp :: rest)) = re.map fun e => (e, rest) := by
  obtain ⟨n, hn⟩ := h
  rw [condition]
  simp only [bind_apply, mustMatchToken_apply, firstToken_punct, if_true, Option.bind_some,
    afterToken_punct, hn (.punct .rp :: rest) (by simp [Stops, rank])]
  cases re with
  | none => rfl
  | some e => simp [firstToken_eols, afterToken_eols]

theorem matchOrInsertSemicolon_semi (n : ℕ) (rest : List Lexeme) :
    matchOrInsertSemicolon (eols n ++ .punct .semi :: rest) = some ((), rest) := by
  have hmatch : matchToken (.punct .semi) (eols n ++ .punct .semi :: rest) =
      some (true, rest) := by
    simp only [matchToken_apply, firstToken_eols, firstToken_punct, if_true, afterToken_eols,
      afterToken_punct]
  have hsame : (peekTokenSameLine (eols n ++ .punct .semi :: rest) : Option _) =
        some (.eol, eols n ++ .punct .semi :: rest) ∨
      peekTokenSameLine (eols n ++ .punct .semi :: rest) =
        some (.punct .semi, eols n ++ .punct .semi :: rest) := by
    cases n with
    | zero => exact Or.inr rfl
    | succ n => exact Or.inl rfl
  rw [matchOrInsertSemicolon]
  obtain h | h := hsame <;>
    simp only [bind_apply, h, Option.bind_some, hmatch, pure_apply]

theorem block_reads {rs : Option (List Stmt)} (h : StatementsRead .block tb rs)
    (rest : List Lexeme) :
    block (.punct .lc :: (tb ++ .punct .rc :: rest)) = rs.map fun ss => (ss, rest) := by
  obtain ⟨n, hn⟩ := h
  rw [block]
  simp only [bind_apply, mustMatchToken_apply, firstToken_punct, if_true, Option.bind_some,
    afterToken_punct, hn (.punct .rc :: rest) (by simp)]
  cases rs with
  | none => rfl
  | some ss => simp [firstToken_eols, afterToken_eols]

theorem StmtReads.block {rs : Option (List Stmt)} (h : StatementsRead .block tb rs) :
    StmtReads scope (.punct .lc :: (tb ++ [.punct .rc])) (do return .block (← rs)) := by
  apply StmtReads.closed
  · cases rs <;> simp [Stmt.openIf]
  · intro rest _
    have hread := block_reads h rest
    rw [statement]
    simp only [List.cons_append, List.append_assoc, List.nil_append, bind_apply,
      peekToken_apply, Option.bind_some, firstToken_punct, hread]
    cases rs <;> rfl

variable (scope) in
theorem StmtReads.empty : StmtReads scope [.punct .semi] (some .empty) := by
  apply StmtReads.closed
  · simp [Stmt.openIf]
  · intro rest _
    rw [statement]
    simp [bind_apply, map_apply]

/-- The tokens that begin an expression and no other statement. -/
def startsExpression : Token → Bool
  | .name _ | .kw .this | .kw .new | .kw .delete | .kw .typeof | .kw .void | .kw .yield
  | .punct .lb | .punct .lp | .punct .minus | .punct .plus | .punct .not | .punct .bitnot
  | .punct .inc | .punct .dec => true
  | _ => false

theorem expressionStatement_reads (h : ExprReads false te re) (rest : List Lexeme) :
    expressionStatement (te ++ .punct .semi :: rest) =
      re.map fun e => (.expression e, rest) := by
  obtain ⟨n, hn⟩ := h
  rw [expressionStatement]
  simp only [bind_apply, hn (.punct .semi :: rest) (by simp [Stops, rank])]
  cases re with
  | none => rfl
  | some e => simp [matchOrInsertSemicolon_semi]

theorem StmtReads.expression (h : ExprReads false te re)
    (hstart : startsExpression (firstToken te) = true)
    (hlabel : ∀ rest, (∃ w, firstToken te = .name w) →
      firstToken (afterToken (te ++ .punct .semi :: rest)) ≠ .punct .colon) :
    StmtReads scope (te ++ [.punct .semi]) (do return .expression (← re)) := by
  apply StmtReads.closed
  · cases re <;> simp [Stmt.openIf]
  · intro rest _
    have hread := expressionStatement_reads h rest
    have heof : firstToken te ≠ .eof := fun heq => by simp [heq, startsExpression] at hstart
    have hmap : (re.map fun e => (Stmt.expression e, rest)) =
        (do return Stmt.expression (← re) : Option Stmt).map fun s => (s, rest) := by
      cases re <;> rfl
    rw [← hmap, ← hread, List.append_assoc, statement]
    simp only [List.cons_append, List.nil_append, bind_apply, peekToken_apply, Option.bind_some,
      firstToken_append heof]
    have hsecond := hlabel rest
    revert hstart hsecond
    fun_cases startsExpression (firstToken te) <;> simp_all [bind_apply, peekSecondToken]

variable (scope) in
theorem StmtReads.ifThen (h : ExprReads false te re) (hc : StmtReads .other tc rc) :
    StmtReads scope (.keyword .if :: .punct .lp :: (te ++ .punct .rp :: tc))
      (do return .ifStmt (← re) (← rc) none) := by
  obtain ⟨n, hn⟩ := hc
  refine ⟨n, fun rest hrest => ?_⟩
  have hcond := condition_reads h (tc ++ rest)
  rw [statement]
  simp only [List.cons_append, List.append_assoc, bind_apply, peekToken_apply, Option.bind_some,
    firstToken_keyword, getToken_apply, afterToken_keyword]
  rw [ifStatement]
  simp only [bind_apply, hcond]
  cases re with
  | none => rfl
  | some e =>
      simp only [Option.map_some, Option.bind_some, hn rest hrest]
      cases rc with
      | none => rfl
      | some s => rfl

variable (scope) in
/-- An alternate goes to the consequent where that ends in an `if`. -/
theorem StmtReads.ifElse {ta : List Lexeme} {ra : Option Stmt} (h : ExprReads false te re)
    (hc : StmtReads .other tc rc) (ha : StmtReads .other ta ra) :
    StmtReads scope
      (.keyword .if :: .punct .lp :: (te ++ .punct .rp :: (tc ++ .keyword .else :: ta)))
      (do
        let test ← re
        let consequent ← rc
        let alternate ← ra
        if consequent.openIf then return .ifStmt test (consequent.attach alternate) none
        else return .ifStmt test consequent (some alternate)) := by
  obtain ⟨m, hm⟩ := hc
  obtain ⟨n, hn⟩ := ha
  refine ⟨n, fun rest hrest => ?_⟩
  have hcond := condition_reads h (tc ++ .keyword .else :: (ta ++ rest))
  have hconsequent := hm (.keyword .else :: (ta ++ rest)) (by simp [Follows])
  have halternate := hn rest hrest
  rw [statement]
  simp only [List.cons_append, List.append_assoc, bind_apply, peekToken_apply, Option.bind_some,
    firstToken_keyword, getToken_apply, afterToken_keyword]
  rw [ifStatement]
  simp only [bind_apply, hcond]
  cases re with
  | none => rfl
  | some e =>
      simp only [Option.map_some, Option.bind_some, hconsequent]
      cases rc with
      | none => rfl
      | some c =>
          cases hopen : c.openIf with
          | true =>
              simp only [Option.bind_some, resume_else hopen halternate]
              cases ra with
              | none => rfl
              | some a => simp [hopen, resume, bind_apply]
          | false =>
              simp only [Option.bind_some, resume_closed hopen, matchToken_apply,
                firstToken_eols, firstToken_keyword, if_true, afterToken_eols,
                afterToken_keyword, bind_apply, halternate]
              cases ra with
              | none => rfl
              | some a => simp [hopen, resume, bind_apply]

variable (scope) in
theorem StmtReads.while (h : ExprReads false te re) (hb : StmtReads .other tb rb) :
    StmtReads scope (.keyword .while :: .punct .lp :: (te ++ .punct .rp :: tb))
      (do return .whileStmt (← re) (← rb)) := by
  obtain ⟨n, hn⟩ := hb
  refine ⟨n, fun rest hrest => ?_⟩
  have hcond := condition_reads h (tb ++ rest)
  rw [statement]
  simp only [List.cons_append, List.append_assoc, bind_apply, peekToken_apply, Option.bind_some,
    firstToken_keyword, getToken_apply, afterToken_keyword, hcond]
  cases re with
  | none => rfl
  | some e =>
      simp only [Option.map_some, Option.bind_some, hn rest hrest]
      cases rb <;> rfl

variable (scope) in
theorem StmtReads.doWhile (hb : StmtReads .other tb rb) (h : ExprReads false te re) :
    StmtReads scope (.keyword .do :: (tb ++ .keyword .while :: .punct .lp ::
        (te ++ [.punct .rp, .punct .semi])))
      (do return .doWhile (← rb) (← re)) := by
  obtain ⟨n, hn⟩ := hb.apply_end
  apply StmtReads.closed
  · cases rb <;> cases re <;> simp [Stmt.openIf]
  · intro rest _
    have hbody := hn (.keyword .while :: .punct .lp :: (te ++ .punct .rp :: .punct .semi :: rest))
      (by simp [Follows]) (by simp)
    have hcond := condition_reads h (.punct .semi :: rest)
    rw [statement]
    simp only [List.cons_append, List.append_assoc, List.nil_append, bind_apply, peekToken_apply,
      Option.bind_some, firstToken_keyword, getToken_apply, afterToken_keyword]
    rw [doWhileStatement]
    simp only [bind_apply, hbody]
    cases rb with
    | none => rfl
    | some b =>
        simp only [Option.map_some, Option.bind_some, mustMatchToken_apply, firstToken_eols,
          firstToken_keyword, if_true, afterToken_eols, afterToken_keyword, hcond]
        cases re with
        | none => rfl
        | some e => simp [matchToken_apply]

/-- No expression begins with a closing parenthesis. -/
theorem expr_rp (fi : Bool) (s : List Lexeme) : expr fi (.punct .rp :: s) = none := by
  have hunary : unaryExpr (.punct .rp :: s) = none := by
    rw [unaryExpr]
    simp only [bind_apply, getToken_apply, firstToken_punct, Option.bind_some, unaryOp?,
      updateOp?]
    rw [memberExpr, primaryExpr]
    · simp [bind_apply]
    all_goals simp
  rw [Parser.expr]
  simp only [bind_apply]
  rw [assignExpr]
  simp only [bind_apply, matchToken_apply, firstToken_punct, reduceCtorEq, if_false,
    Option.bind_some, Bool.false_eq_true]
  rw [condExpr1]
  simp only [bind_apply, orExpr1_eq, hunary, Option.bind_none]

/-- A `with` whose object is left out is no statement. -/
theorem StmtReads.with (tb : List Lexeme) :
    StmtReads scope (.keyword .with :: .punct .lp :: .punct .rp :: tb) none := by
  refine ⟨0, fun rest _ => ?_⟩
  rw [statement]
  simp only [List.cons_append, bind_apply, peekToken_apply, Option.bind_some,
    firstToken_keyword, getToken_apply, afterToken_keyword]
  rw [condition]
  simp [bind_apply, mustMatchToken_apply, expr_rp]

theorem StmtReads.rp (s : List Lexeme) : StmtReads scope (.punct .rp :: s) none := by
  refine ⟨0, fun rest _ => ?_⟩
  rw [statement]
  · simp only [List.cons_append, bind_apply, peekToken_apply, Option.bind_some,
      firstToken_punct]
    rw [expressionStatement]
    simp [bind_apply, expr_rp]

variable (scope) in
theorem StmtReads.labeled {w : JSString} (hw : keyword? w = none)
    (hb : StmtReads .other tb rb) :
    StmtReads scope (.word w :: .punct .colon :: tb) (do return .labeled w (← rb)) := by
  obtain ⟨n, hn⟩ := hb
  refine ⟨n, fun rest hrest => ?_⟩
  rw [statement]
  simp only [List.cons_append, bind_apply, peekToken_apply, Option.bind_some, firstToken_word hw,
    peekSecondToken, afterToken_word, firstToken_punct, if_true, getToken_apply,
    afterToken_punct, hn rest hrest]
  cases rb <;> rfl

/-! ### Statements that end with a semicolon -/

/-- The label of a jump. -/
def labelLexemes (label : Option JSString) : List Lexeme := (label.map Lexeme.word).toList

theorem matchLabel_reads {label : Option JSString} (h : ∀ w ∈ label, keyword? w = none)
    (rest : List Lexeme) :
    matchLabel (labelLexemes label ++ .punct .semi :: rest) =
      some (label, .punct .semi :: rest) := by
  cases label with
  | none => simp [matchLabel, labelLexemes, bind_apply, peekTokenSameLine_apply]
  | some w =>
      have hw := h w rfl
      simp [matchLabel, labelLexemes, bind_apply, map_apply, peekTokenSameLine_apply,
        firstToken_word hw]

theorem StmtReads.break {label : Option JSString} (h : ∀ w ∈ label, keyword? w = none) :
    StmtReads scope (.keyword .break :: (labelLexemes label ++ [.punct .semi]))
      (some (.breakStmt label)) := by
  apply StmtReads.closed
  · simp [Stmt.openIf]
  · intro rest _
    have hsemi := matchOrInsertSemicolon_semi 0 rest
    rw [statement]
    simp only [List.cons_append, List.append_assoc, List.nil_append, bind_apply,
      peekToken_apply, Option.bind_some, firstToken_keyword, getToken_apply, afterToken_keyword,
      matchLabel_reads h]
    simp only [eols, List.replicate_zero, List.nil_append] at hsemi
    simp [hsemi]

theorem StmtReads.continue {label : Option JSString} (h : ∀ w ∈ label, keyword? w = none) :
    StmtReads scope (.keyword .continue :: (labelLexemes label ++ [.punct .semi]))
      (some (.continueStmt label)) := by
  apply StmtReads.closed
  · simp [Stmt.openIf]
  · intro rest _
    have hsemi := matchOrInsertSemicolon_semi 0 rest
    rw [statement]
    simp only [List.cons_append, List.append_assoc, List.nil_append, bind_apply,
      peekToken_apply, Option.bind_some, firstToken_keyword, getToken_apply, afterToken_keyword,
      matchLabel_reads h]
    simp only [eols, List.replicate_zero, List.nil_append] at hsemi
    simp [hsemi]

variable (scope) in
theorem StmtReads.debugger :
    StmtReads scope [.keyword .debugger, .punct .semi] (some .debugger) := by
  apply StmtReads.closed
  · simp [Stmt.openIf]
  · intro rest _
    have hsemi := matchOrInsertSemicolon_semi 0 rest
    simp only [eols, List.replicate_zero, List.nil_append] at hsemi
    rw [statement]
    simp [bind_apply, map_apply, hsemi]

/-- The tokens at which a `return` has no argument. -/
def endsReturn : Token → Bool
  | .eof | .eol | .punct .semi | .punct .rc => true
  | _ => false

/-- A token of the same line. -/
theorem peekTokenSameLine_append (heol : ts.head? ≠ some .eol) (heof : firstToken ts ≠ .eof)
    (rest : List Lexeme) :
    peekTokenSameLine (ts ++ rest) = some (firstToken ts, ts ++ rest) := by
  cases ts with
  | nil => exact absurd rfl heof
  | cons l s =>
      have hl : l ≠ .eol := by simpa using heol
      rw [peekTokenSameLine_apply, firstToken_append heof]
      simp [hl]

variable (scope) in
theorem StmtReads.returnNone :
    StmtReads scope [.keyword .return, .punct .semi] (some (.returnStmt none)) := by
  apply StmtReads.closed
  · simp [Stmt.openIf]
  · intro rest _
    have hsemi := matchOrInsertSemicolon_semi 0 rest
    simp only [eols, List.replicate_zero, List.nil_append] at hsemi
    rw [statement]
    simp [bind_apply, map_apply, returnStatement, peekTokenSameLine_apply, hsemi]

variable (scope) in
theorem StmtReads.return (h : ExprReads false te re) (heol : te.head? ≠ some .eol)
    (hstart : endsReturn (firstToken te) = false) :
    StmtReads scope (.keyword .return :: (te ++ [.punct .semi]))
      (do return .returnStmt (some (← re))) := by
  obtain ⟨n, hn⟩ := h
  apply StmtReads.closed
  · cases re <;> simp [Stmt.openIf]
  · intro rest _
    have heof : firstToken te ≠ .eof := fun heq => by simp [heq, endsReturn] at hstart
    have hread := hn (.punct .semi :: rest) (by simp [Stops, rank])
    rw [statement]
    simp only [List.cons_append, List.append_assoc, List.nil_append, bind_apply,
      peekToken_apply, Option.bind_some, firstToken_keyword, getToken_apply, afterToken_keyword]
    rw [returnStatement]
    simp only [bind_apply, peekTokenSameLine_append heol heof, Option.bind_some]
    revert hstart
    fun_cases endsReturn (firstToken te) <;> simp_all [bind_apply]
    cases re with
    | none => rfl
    | some e => simp [map_apply, matchOrInsertSemicolon_semi]

variable (scope) in
theorem StmtReads.throw (h : ExprReads false te re) (heol : te.head? ≠ some .eol)
    (hstart : endsReturn (firstToken te) = false) :
    StmtReads scope (.keyword .throw :: (te ++ [.punct .semi]))
      (do return .throwStmt (← re)) := by
  obtain ⟨n, hn⟩ := h
  apply StmtReads.closed
  · cases re <;> simp [Stmt.openIf]
  · intro rest _
    have heof : firstToken te ≠ .eof := fun heq => by simp [heq, endsReturn] at hstart
    have hread := hn (.punct .semi :: rest) (by simp [Stops, rank])
    rw [statement]
    simp only [List.cons_append, List.append_assoc, List.nil_append, bind_apply,
      peekToken_apply, Option.bind_some, firstToken_keyword, getToken_apply, afterToken_keyword]
    rw [throwStatement]
    simp only [bind_apply, peekTokenSameLine_append heol heof, Option.bind_some]
    revert hstart
    fun_cases endsReturn (firstToken te) <;> simp_all [bind_apply]
    cases re with
    | none => rfl
    | some e => simp [map_apply, matchOrInsertSemicolon_semi]

/-! ### Declarations -/

/-- What a declarator is read as, where its initialiser is read with `fi`. -/
inductive DeclaratorReads (fi fj : Bool) : List Lexeme → Option Declarator → Prop
  | name {w : JSString} (hw : keyword? w = none) :
      DeclaratorReads fi fj [.word w] (some (.mk w none))
  | init {w : JSString} {ti : List Lexeme} {ri : Option Expr} (hw : keyword? w = none)
      (hi : AssignReads fi fj 2 ti ri) :
      DeclaratorReads fi fj (.word w :: .punct .assign :: ti) (do return .mk w (some (← ri)))

/-- The loop of `variables` after a declarator. -/
def variableRest (fi : Bool) (d : Declarator) : Parse (List Declarator) := do
  if ← matchToken (.punct .comma) then return d :: (← variableList fi) else return [d]

theorem DeclaratorReads.first {fi fj : Bool} {rd : Option Declarator}
    (h : DeclaratorReads fi fj ts rd) :
    ∃ n, ∀ rest, Stops fj 2 rest →
      variableList fi (ts ++ rest) = rd.bind fun d => variableRest fi d (eols n ++ rest) := by
  cases h with
  | @name w hw =>
      refine ⟨0, fun rest hrest => ?_⟩
      have hassign : firstToken rest ≠ .punct .assign := fun heq => by
        simp [Stops, heq, rank, assignOp?] at hrest
      rw [variableList]
      simp [bind_apply, getName, firstToken_word hw, matchToken_apply, hassign, variableRest,
        eols]
  | @init w ti ri hw hi =>
      obtain ⟨n, hn⟩ := hi
      refine ⟨n, fun rest hrest => ?_⟩
      rw [variableList]
      simp only [List.cons_append, bind_apply, getName, getToken_apply, Option.bind_some,
        firstToken_word hw, afterToken_word, pure_apply, matchToken_apply, firstToken_punct,
        if_true, afterToken_punct, hn rest hrest]
      cases ri <;> rfl

theorem DeclaratorReads.startsName {fi fj : Bool} {rd : Option Declarator}
    (h : DeclaratorReads fi fj ts rd) (rest : List Lexeme) :
    ∃ w, firstToken (ts ++ rest) = .name w := by
  cases h with
  | name hw => exact ⟨_, firstToken_word hw _⟩
  | init hw hi => exact ⟨_, firstToken_word hw _⟩

/-- A list that is read as the declarators of a declaration. -/
structure DeclaratorsRead (fi fj : Bool) (ts : List Lexeme) (rds : Option (List Declarator)) :
    Prop where
  reads : ∃ n, ∀ rest, Stops fj 1 rest →
    variableList fi (ts ++ rest) = rds.map fun ds => (ds, eols n ++ rest)
  startsName : ∀ rest, ∃ w, firstToken (ts ++ rest) = .name w

theorem declarators_read {fi fj : Bool} {α : Type} {f : α → List Lexeme}
    {g : α → Option Declarator} {x : α} (xs : List α)
    (h : ∀ y ∈ x :: xs, DeclaratorReads fi fj (f y) (g y)) :
    DeclaratorsRead fi fj (commas ((x :: xs).map f)) ((x :: xs).mapM g) := by
  induction xs generalizing x with
  | nil =>
      obtain ⟨n, hn⟩ := (h x (by simp)).first
      refine ⟨⟨n, fun rest hrest => ?_⟩, (h x (by simp)).startsName⟩
      rw [List.mapM_cons, List.map_cons, List.map_nil, commas, hn rest (hrest.mono (by omega))]
      cases g x with
      | none => rfl
      | some d =>
          simp [variableRest, bind_apply, matchToken_apply, firstToken_eols, comma_ne hrest]
  | cons y ys ih =>
      obtain ⟨m, hm⟩ := (h x (by simp)).first
      obtain ⟨n, hn⟩ := (ih fun z hz => h z (List.mem_cons_of_mem x hz)).reads
      refine ⟨⟨n, fun rest hrest => ?_⟩, fun rest => ?_⟩
      · rw [List.mapM_cons, List.map_cons, List.map_cons, commas_cons_cons,
          ← List.map_cons (f := f), List.append_assoc, List.cons_append,
          hm (.punct .comma :: (commas ((y :: ys).map f) ++ rest)) (by simp [Stops, rank])]
        cases g x with
        | none => rfl
        | some d =>
            simp only [variableRest, Option.bind_some, bind_apply, matchToken_apply,
              firstToken_eols, firstToken_punct, if_true, afterToken_eols, afterToken_punct,
              hn rest hrest]
            cases (y :: ys).mapM g <;> rfl
      · rw [List.map_cons, List.map_cons, commas_cons_cons, List.append_assoc]
        exact (h x (by simp)).startsName _

theorem StmtReads.declaration {kind : VarDeclKind} {td : List Lexeme} {k : Keyword}
    {rds : Option (List Declarator)} (h : DeclaratorsRead false false td rds)
    (hkind : k = .var ∧ kind = .var ∨ k = .const ∧ kind = .const ∨
      k = .let ∧ kind = .let ∧ scope = .block) :
    StmtReads scope (.keyword k :: (td ++ [.punct .semi]))
      (do return .declaration kind (← rds)) := by
  obtain ⟨n, hn⟩ := h.reads
  apply StmtReads.closed
  · cases rds <;> simp [Stmt.openIf]
  · intro rest _
    have hread := hn (.punct .semi :: rest) (by simp [Stops, rank])
    have hsemi := matchOrInsertSemicolon_semi n rest
    obtain ⟨w, hw⟩ := h.startsName (.punct .semi :: rest)
    rw [statement]
    simp only [List.cons_append, List.append_assoc, List.nil_append, bind_apply,
      peekToken_apply, Option.bind_some, firstToken_keyword]
    obtain ⟨rfl, rfl⟩ | ⟨rfl, rfl⟩ | ⟨rfl, rfl, rfl⟩ := hkind
    · simp only [bind_apply, getToken_apply, Option.bind_some, afterToken_keyword, hread]
      cases rds <;> simp [hsemi]
    · simp only [bind_apply, getToken_apply, Option.bind_some, afterToken_keyword, hread]
      cases rds <;> simp [hsemi]
    · simp only [bind_apply, getToken_apply, Option.bind_some, afterToken_keyword]
      rw [letStatement]
      simp only [bind_apply, peekToken_apply, Option.bind_some, hw, reduceCtorEq, if_false,
        decide_not, decide_false, Bool.not_false, require_true, pure_apply, hread]
      cases rds <;> simp [hsemi]

/-- No declaration begins with a parenthesis. -/
theorem StmtReads.varParen (s : List Lexeme) :
    StmtReads scope (.keyword .var :: .punct .lp :: s) none := by
  refine ⟨0, fun rest _ => ?_⟩
  rw [statement]
  simp only [List.cons_append, bind_apply, peekToken_apply, Option.bind_some, firstToken_keyword,
    getToken_apply, afterToken_keyword]
  rw [variableList]
  simp [bind_apply, getName]

/-! ### Loops with a head -/

/-- An expression of the head of a `for`, which may be missing. -/
inductive OptionalReads : List Lexeme → Option (Option Expr) → Prop
  | missing : OptionalReads [] (some none)
  | given {s : List Lexeme} {x : Option Expr} (h : ExprReads false s x)
      (heof : firstToken s ≠ .eof) (hsemi : firstToken s ≠ .punct .semi)
      (hrp : firstToken s ≠ .punct .rp) : OptionalReads s (do return some (← x))

theorem OptionalReads.forPart {ro : Option (Option Expr)} (h : OptionalReads te ro) {p : Punct}
    (hp : p = .semi ∨ p = .rp) (rest : List Lexeme) :
    ∃ n, forPart (.punct p) (te ++ .punct p :: rest) =
      ro.map fun o => (o, eols n ++ .punct p :: rest) := by
  cases h with
  | missing => exact ⟨0, by simp [Parser.forPart, bind_apply, eols]⟩
  | @given _ re h heof hsemi hrp =>
      obtain ⟨n, hn⟩ := h
      have hread := hn (.punct p :: rest) (by obtain rfl | rfl := hp <;> simp [Stops, rank])
      have hne : firstToken te ≠ .punct p := by obtain rfl | rfl := hp <;> assumption
      refine ⟨n, ?_⟩
      rw [Parser.forPart]
      simp only [bind_apply, peekToken_apply, Option.bind_some, firstToken_append heof, hne,
        if_false, hread]
      cases re <;> rfl

/-- What the first part of the head of a `for` is read as, before a token. -/
def ForInitReads (t : Token) (ts : List Lexeme) (ri : Option ForInit) : Prop :=
  ∃ n, ∀ rest, firstToken rest = t →
    forInit (ts ++ rest) = ri.map fun i => (i, eols n ++ rest)

/-- The tokens at which `forInit` reads an expression. -/
def startsForInit : Token → Bool
  | .eof | .punct .semi | .kw .var | .kw .const | .kw .let => false
  | _ => true

theorem ForInitReads.missing : ForInitReads (.punct .semi) [] (some .none) := by
  refine ⟨0, fun rest hrest => ?_⟩
  rw [forInit]
  simp [bind_apply, hrest, eols]

theorem ForInitReads.expression {t : Token}
    (h : ∃ n, ∀ rest, firstToken rest = t →
      expr true (te ++ rest) = re.map fun e => (e, eols n ++ rest))
    (hstart : startsForInit (firstToken te) = true) :
    ForInitReads t te (do return .expression (← re)) := by
  obtain ⟨n, hn⟩ := h
  refine ⟨n, fun rest hrest => ?_⟩
  have heof : firstToken te ≠ .eof := fun heq => by simp [heq, startsForInit] at hstart
  have hread := hn rest hrest
  rw [forInit]
  simp only [bind_apply, peekToken_apply, Option.bind_some, firstToken_append heof]
  revert hstart
  fun_cases startsForInit (firstToken te) <;> simp_all [bind_apply]
  cases re <;> rfl

theorem ForInitReads.declaration {t : Token} {k : Keyword} {kind : VarDeclKind}
    {td : List Lexeme} {rds : Option (List Declarator)} {fj : Bool}
    (h : DeclaratorsRead true fj td rds) (ht : rank fj t ≤ 1)
    (hkind : k = .var ∧ kind = .var ∨ k = .const ∧ kind = .const ∨ k = .let ∧ kind = .let) :
    ForInitReads t (.keyword k :: td) (do return .declaration kind (← rds)) := by
  obtain ⟨n, hn⟩ := h.reads
  refine ⟨n, fun rest hrest => ?_⟩
  have hread := hn rest (by rwa [Stops, hrest])
  obtain ⟨w, hw⟩ := h.startsName rest
  rw [forInit]
  simp only [List.cons_append, bind_apply, peekToken_apply, Option.bind_some, firstToken_keyword]
  obtain ⟨rfl, rfl⟩ | ⟨rfl, rfl⟩ | ⟨rfl, rfl⟩ := hkind
  · simp only [bind_apply, getToken_apply, Option.bind_some, afterToken_keyword, hread]
    cases rds <;> rfl
  · simp only [bind_apply, getToken_apply, Option.bind_some, afterToken_keyword, hread]
    cases rds <;> rfl
  · simp only [bind_apply, getToken_apply, Option.bind_some, afterToken_keyword, peekToken_apply,
      hw, reduceCtorEq, if_false, hread]
    cases rds <;> rfl

theorem ForInitReads.varParen (t : Token) (s : List Lexeme) :
    ForInitReads t (.keyword .var :: .punct .lp :: s) none := by
  refine ⟨0, fun rest _ => ?_⟩
  rw [forInit]
  simp only [List.cons_append, bind_apply, peekToken_apply, Option.bind_some, firstToken_keyword,
    getToken_apply, afterToken_keyword]
  rw [variableList]
  simp [bind_apply, getName]

theorem resume_forResult (i : ForInit) (t u : Option Expr) (b : Stmt) (s : List Lexeme) :
    resume (forResult i t u b) s = (resume b s).bind fun p => some (forResult i t u p.1, p.2) := by
  cases i with
  | none => rfl
  | expression e => rfl
  | declaration kind vars =>
      cases kind with
      | var => rfl
      | const => rfl
      | «let» => cases h : resume b s <;> simp [forResult, resume, bind_apply, map_apply, h]

variable (scope) in
theorem StmtReads.for {ti tt tu : List Lexeme} {ri : Option ForInit}
    {rt ru : Option (Option Expr)} (hi : ForInitReads (.punct .semi) ti ri)
    (ht : OptionalReads tt rt) (hu : OptionalReads tu ru) (hb : StmtReads .other tb rb) :
    StmtReads scope (.keyword .for :: .punct .lp :: (ti ++ .punct .semi :: (tt ++
        .punct .semi :: (tu ++ .punct .rp :: tb))))
      (do return forResult (← ri) (← rt) (← ru) (← rb)) := by
  obtain ⟨l, hl⟩ := hi
  obtain ⟨o, ho⟩ := hb
  refine ⟨o, fun rest hrest => ?_⟩
  have hinit := hl (.punct .semi :: (tt ++ .punct .semi :: (tu ++ .punct .rp :: (tb ++ rest)))) rfl
  obtain ⟨m, htest⟩ := ht.forPart (.inl rfl) (tu ++ .punct .rp :: (tb ++ rest))
  obtain ⟨n, hupdate⟩ := hu.forPart (.inr rfl) (tb ++ rest)
  rw [statement]
  simp only [List.cons_append, List.append_assoc, bind_apply, peekToken_apply, Option.bind_some,
    firstToken_keyword, getToken_apply, afterToken_keyword]
  rw [forStatement]
  simp only [bind_apply, matchToken_apply, mustMatchToken_apply, firstToken_punct, reduceCtorEq,
    if_false, if_true, Option.bind_some, afterToken_punct, hinit]
  cases ri with
  | none => rfl
  | some i =>
      have hin : isForInOrOf i (eols l ++ .punct .semi ::
            (tt ++ .punct .semi :: (tu ++ .punct .rp :: (tb ++ rest)))) =
          some (none, eols l ++ .punct .semi ::
            (tt ++ .punct .semi :: (tu ++ .punct .rp :: (tb ++ rest)))) := by
        cases i <;> simp [isForInOrOf, matchInOrOf, bind_apply, firstToken_eols]
      simp only [Option.map_some, Option.bind_some, hin, Bool.not_false, require_true,
        pure_apply, mustMatchToken_eols, htest, bind_apply]
      cases rt with
      | none => rfl
      | some t =>
          simp only [Option.map_some, Option.bind_some, mustMatchToken_eols, hupdate]
          cases ru with
          | none => rfl
          | some u =>
              simp only [Option.map_some, Option.bind_some, mustMatchToken_eols, ho rest hrest]
              cases rb with
              | none => rfl
              | some b => exact (resume_forResult i t u b _).symm

/-- The word of a `for each`. -/
def eachLexemes (each : Bool) : List Lexeme := if each then [.word (js "each")] else []

variable (scope) in
/-- A `for` whose head has the keyword `in`. -/
theorem statement_forIn (each : Bool) {ti : List Lexeme} {ri : Option ForInit}
    (hi : ForInitReads (.kw .in) ti ri) (hsome : ∀ i ∈ ri, i ≠ .none) (h : ExprReads false te re)
    (rest : List Lexeme) :
    statement scope (.keyword .for :: (eachLexemes each ++ .punct .lp :: (ti ++
        .keyword .in :: (te ++ .punct .rp :: rest)))) =
      ri.bind fun i => re.bind fun e => (statement .other rest).bind fun p =>
        forEachResult each false i e p.1 p.2 := by
  obtain ⟨l, hl⟩ := hi
  obtain ⟨m, hm⟩ := h
  have hinit := hl (.keyword .in :: (te ++ .punct .rp :: rest)) (firstToken_keyword _ _)
  have hright := hm (.punct .rp :: rest) (by simp [Stops, rank])
  have heach : ∀ s, matchToken (.name (js "each")) (eachLexemes each ++ .punct .lp :: s) =
      some (each, .punct .lp :: s) := by
    intro s
    cases each with
    | false => simp [eachLexemes, matchToken_apply]
    | true =>
        have hword : keyword? (js "each") = none := by decide
        simp [eachLexemes, matchToken_apply, firstToken_word hword]
  rw [statement]
  simp only [bind_apply, peekToken_apply, Option.bind_some, firstToken_keyword, getToken_apply,
    afterToken_keyword]
  rw [forStatement]
  simp only [bind_apply, heach, mustMatchToken_apply, firstToken_punct, if_true,
    Option.bind_some, afterToken_punct, hinit]
  cases ri with
  | none => rfl
  | some i =>
      have hin : ∀ s, isForInOrOf i (eols l ++ .keyword .in :: s) = some (some false, s) := by
        intro s
        have hi := hsome i rfl
        cases i <;> simp_all [isForInOrOf, matchInOrOf, bind_apply, map_apply, firstToken_eols,
          afterToken_eols]
      simp only [Option.map_some, Option.bind_some, hin, Bool.false_and, Bool.not_false,
        require_true, pure_apply, bind_apply, hright]
      cases re with
      | none => rfl
      | some e =>
          simp only [Option.map_some, Option.bind_some, mustMatchToken_eols]

variable (scope) in
theorem StmtReads.forIn (each : Bool) {tl : List Lexeme} {rl : Option Expr}
    (hl : ForInitReads (.kw .in) tl (do return .expression (← rl)))
    (href : ∀ e ∈ rl, isReference e = true) (h : ExprReads false te re)
    (hb : StmtReads .other tb rb) :
    StmtReads scope (.keyword .for :: (eachLexemes each ++ .punct .lp :: (tl ++
        .keyword .in :: (te ++ .punct .rp :: tb))))
      (do return .forIn each (← rl) (← re) (← rb)) := by
  obtain ⟨n, hn⟩ := hb
  refine ⟨n, fun rest hrest => ?_⟩
  have hread := statement_forIn scope each hl
    (by cases rl <;> simp) h (tb ++ rest)
  simp only [List.cons_append, List.append_assoc]
  rw [hread, hn rest hrest]
  cases rl with
  | none => rfl
  | some l =>
      cases re with
      | none => rfl
      | some e => cases rb <;> simp [forEachResult, href l rfl, resume, bind_apply]

variable (scope) in
theorem StmtReads.forInDecl (each : Bool) {kind : VarDeclKind} {td : List Lexeme}
    {rd : Option Declarator} (hd : ForInitReads (.kw .in) td (do return .declaration kind [← rd]))
    (hkind : kind ≠ .const) (hinit : ∀ id e, .mk id (some e) ∈ rd → kind = .var)
    (h : ExprReads false te re) (hb : StmtReads .other tb rb) :
    StmtReads scope (.keyword .for :: (eachLexemes each ++ .punct .lp :: (td ++
        .keyword .in :: (te ++ .punct .rp :: tb))))
      (do return .forInDecl each kind (← rd) (← re) (← rb)) := by
  obtain ⟨n, hn⟩ := hb
  refine ⟨n, fun rest hrest => ?_⟩
  have hread := statement_forIn scope each hd
    (by cases rd <;> simp) h (tb ++ rest)
  simp only [List.cons_append, List.append_assoc]
  rw [hread, hn rest hrest]
  cases rd with
  | none => rfl
  | some d =>
      obtain ⟨id, init⟩ := d
      have hrequire : (kind ≠ .const && (init.isNone || kind = .var)) = true := by
        cases init with
        | none => simpa using hkind
        | some e => simp [hinit id e rfl]
      cases re with
      | none => rfl
      | some e =>
          cases rb with
          | none => rfl
          | some b =>
              have hresult : ∀ b s,
                  forEachResult each false (.declaration kind [.mk id init]) e b s =
                  some (.forInDecl each kind (.mk id init) e b, s) := by
                intro b s
                simp only [forEachResult, hrequire, require_true]
                rfl
              simp [hresult, resume, bind_apply]

/-! ### Lists of statements -/

/-- The tokens that a statement may begin with. -/
def startsStatement : Token → Bool
  | .eof | .punct .rc | .kw .else | .kw .catch | .kw .finally | .kw .case | .kw .default => false
  | _ => true

theorem startsStatement_append (h : startsStatement (firstToken ts) = true)
    (rest : List Lexeme) : startsStatement (firstToken (ts ++ rest)) = true := by
  have heof : firstToken ts ≠ .eof := fun heq => by simp [heq, startsStatement] at h
  rwa [firstToken_append heof]

/-- What ends a list of statements begins none, and no clause either. -/
def EndsStatements (rest : List Lexeme) : Prop :=
  firstToken rest = .eof ∨ firstToken rest = .punct .rc ∨ firstToken rest = .kw .case ∨
    firstToken rest = .kw .default

theorem follows_of {rest : List Lexeme}
    (h : startsStatement (firstToken rest) = true ∨ EndsStatements rest) :
    Follows rest ∧ firstToken rest ≠ .kw .else := by
  refine ⟨⟨?_, ?_⟩, ?_⟩ <;> intro heq <;> simp [EndsStatements, heq, startsStatement] at h

section

variable {α : Type} {f : α → List Lexeme} {g : α → Option Stmt} {xs : List α}

theorem starts_flatten (h : ∀ x ∈ xs, startsStatement (firstToken (f x)) = true)
    {rest : List Lexeme} (hrest : EndsStatements rest) :
    startsStatement (firstToken ((xs.map f).flatten ++ rest)) = true ∨
      EndsStatements ((xs.map f).flatten ++ rest) := by
  cases xs with
  | nil => exact Or.inr hrest
  | cons x xs =>
      left
      rw [List.map_cons, List.flatten_cons, List.append_assoc]
      exact startsStatement_append (h x (by simp)) _

/-- A statement of a list is read up to the next one. -/
theorem statements_cons {x : α} (h : StmtReads scope (f x) (g x)) :
    ∃ n, ∀ m rest, startsStatement (firstToken rest) = true ∨ EndsStatements rest →
      statement scope (eols m ++ (f x ++ rest)) = (g x).map fun s => (s, eols n ++ rest) := by
  obtain ⟨n, hn⟩ := h.apply_end
  refine ⟨n, fun m rest hrest => ?_⟩
  obtain ⟨hfollows, helse⟩ := follows_of hrest
  rw [statement_eols, hn rest hfollows helse]

theorem statements_eols_read (h : ∀ x ∈ xs, StmtReads scope (f x) (g x))
    (hstart : ∀ x ∈ xs, startsStatement (firstToken (f x)) = true) (m : ℕ) :
    ∃ n, ∀ rest, firstToken rest = .eof ∨ firstToken rest = .punct .rc →
      statements scope (eols m ++ ((xs.map f).flatten ++ rest)) =
        (xs.mapM g).map fun ss => (ss, eols n ++ rest) := by
  induction xs generalizing m with
  | nil =>
      refine ⟨m, fun rest hrest => ?_⟩
      rw [statements]
      obtain hrest | hrest := hrest <;> simp [bind_apply, firstToken_eols, hrest]
  | cons x xs ih =>
      obtain ⟨k, hk⟩ := statements_cons (h x (by simp))
      obtain ⟨n, hn⟩ := ih (fun y hy => h y (List.mem_cons_of_mem x hy))
        (fun y hy => hstart y (List.mem_cons_of_mem x hy)) k
      refine ⟨n, fun rest hrest => ?_⟩
      have hends : EndsStatements rest := by
        obtain hrest | hrest := hrest <;> simp [EndsStatements, hrest]
      have hfirst := hk m _
        (starts_flatten (fun y hy => hstart y (List.mem_cons_of_mem x hy)) hends)
      have hx := startsStatement_append (hstart x (by simp)) ((xs.map f).flatten ++ rest)
      rw [List.map_cons, List.flatten_cons, List.append_assoc, List.mapM_cons, statements]
      simp only [bind_apply, peekToken_apply, Option.bind_some, firstToken_eols]
      revert hx
      fun_cases startsStatement (firstToken (f x ++ ((xs.map f).flatten ++ rest))) <;>
        simp_all [bind_apply, map_apply]
      cases g x with
      | none => rfl
      | some s =>
          simp only [Option.map_some, Option.bind_some, hn rest hrest]
          cases xs.mapM g <;> rfl

theorem statements_read (h : ∀ x ∈ xs, StmtReads scope (f x) (g x))
    (hstart : ∀ x ∈ xs, startsStatement (firstToken (f x)) = true) :
    StatementsRead scope (xs.map f).flatten (xs.mapM g) :=
  statements_eols_read h hstart 0

/-- The statements of a block, after a line break. -/
theorem statements_eol_read (h : ∀ x ∈ xs, StmtReads scope (f x) (g x))
    (hstart : ∀ x ∈ xs, startsStatement (firstToken (f x)) = true) :
    StatementsRead scope (.eol :: (xs.map f).flatten) (xs.mapM g) :=
  statements_eols_read h hstart 1

/-- The statements of a case, up to the next one or to the end. -/
def CaseBodyReads (ts : List Lexeme) (r : Option (List Stmt)) : Prop :=
  ∃ n, ∀ rest, firstToken rest = .punct .rc ∨ firstToken rest = .kw .case ∨
      firstToken rest = .kw .default →
    caseBody (ts ++ rest) = r.map fun ss => (ss, eols n ++ rest)

theorem caseBody_eols_read (h : ∀ x ∈ xs, StmtReads .block (f x) (g x))
    (hstart : ∀ x ∈ xs, startsStatement (firstToken (f x)) = true) (m : ℕ) :
    ∃ n, ∀ rest, firstToken rest = .punct .rc ∨ firstToken rest = .kw .case ∨
        firstToken rest = .kw .default →
      caseBody (eols m ++ ((xs.map f).flatten ++ rest)) =
        (xs.mapM g).map fun ss => (ss, eols n ++ rest) := by
  induction xs generalizing m with
  | nil =>
      refine ⟨m, fun rest hrest => ?_⟩
      rw [caseBody]
      obtain hrest | hrest | hrest := hrest <;> simp [bind_apply, firstToken_eols, hrest]
  | cons x xs ih =>
      obtain ⟨k, hk⟩ := statements_cons (h x (by simp))
      obtain ⟨n, hn⟩ := ih (fun y hy => h y (List.mem_cons_of_mem x hy))
        (fun y hy => hstart y (List.mem_cons_of_mem x hy)) k
      refine ⟨n, fun rest hrest => ?_⟩
      have hends : EndsStatements rest := Or.inr hrest
      have hfirst := hk m _
        (starts_flatten (fun y hy => hstart y (List.mem_cons_of_mem x hy)) hends)
      have hx := startsStatement_append (hstart x (by simp)) ((xs.map f).flatten ++ rest)
      rw [List.map_cons, List.flatten_cons, List.append_assoc, List.mapM_cons, caseBody]
      simp only [bind_apply, peekToken_apply, Option.bind_some, firstToken_eols]
      revert hx
      fun_cases startsStatement (firstToken (f x ++ ((xs.map f).flatten ++ rest))) <;>
        simp_all [bind_apply, map_apply]
      cases g x with
      | none => rfl
      | some s =>
          simp only [Option.map_some, Option.bind_some, hn rest hrest]
          cases xs.mapM g <;> rfl

end

/-! ### Cases and clauses -/

/-- What a case is read as; the flag tells the default case. -/
inductive CaseReads : Bool → List Lexeme → Option SwitchCase → Prop
  | default {s : List Lexeme} {x : Option (List Stmt)} (h : CaseBodyReads s x) :
      CaseReads true (.keyword .default :: .punct .colon :: s) (do return .mk none (← x))
  | case {t s : List Lexeme} {e : Option Expr} {x : Option (List Stmt)} (ht : ExprReads false t e)
      (h : CaseBodyReads s x) :
      CaseReads false (.keyword .case :: (t ++ .punct .colon :: s))
        (do return .mk (some (← e)) (← x))

theorem CaseReads.starts {d : Bool} {rc : Option SwitchCase} (h : CaseReads d ts rc)
    (rest : List Lexeme) :
    firstToken (ts ++ rest) = .kw .case ∨ firstToken (ts ++ rest) = .kw .default := by
  cases h with
  | default h => exact Or.inr (firstToken_keyword _ _)
  | case ht h => exact Or.inl (firstToken_keyword _ _)

section

variable {α : Type} {d : α → Bool} {f : α → List Lexeme} {g : α → Option SwitchCase}
  {xs : List α}

theorem cases_end (h : ∀ x ∈ xs, CaseReads (d x) (f x) (g x)) (rest : List Lexeme) :
    firstToken ((xs.map f).flatten ++ .punct .rc :: rest) = .punct .rc ∨
      firstToken ((xs.map f).flatten ++ .punct .rc :: rest) = .kw .case ∨
      firstToken ((xs.map f).flatten ++ .punct .rc :: rest) = .kw .default := by
  cases xs with
  | nil => exact Or.inl rfl
  | cons x xs =>
      right
      rw [List.map_cons, List.flatten_cons, List.append_assoc]
      exact (h x (by simp)).starts _

theorem switchCases_read (h : ∀ x ∈ xs, CaseReads (d x) (f x) (g x)) (seenDefault : Bool)
    (hdefault : (xs.filter d).length ≤ if seenDefault then 0 else 1) (m : ℕ)
    (rest : List Lexeme) :
    switchCases seenDefault (eols m ++ ((xs.map f).flatten ++ .punct .rc :: rest)) =
      (xs.mapM g).map fun cs => (cs, rest) := by
  induction xs generalizing seenDefault m with
  | nil =>
      rw [switchCases]
      simp [bind_apply, firstToken_eols, afterToken_eols]
  | cons x xs ih =>
      have hxs : ∀ y ∈ xs, CaseReads (d y) (f y) (g y) :=
        fun y hy => h y (List.mem_cons_of_mem x hy)
      have hend := cases_end hxs rest
      rw [List.map_cons, List.flatten_cons, List.append_assoc, List.mapM_cons, switchCases]
      generalize hd : d x = dx
      have hx := h x (by simp)
      rw [hd] at hx
      revert hx
      generalize f x = ts
      generalize g x = rc
      intro hx
      cases hx with
      | @default s ss hbody =>
          obtain ⟨n, hn⟩ := hbody
          have hseen : seenDefault = false := by
            cases seenDefault with
            | false => rfl
            | true => simp [hd] at hdefault
          subst hseen
          have hmore := ih hxs true (by simpa [hd] using hdefault) n
          simp only [List.cons_append, bind_apply, getToken_apply, Option.bind_some,
            firstToken_eols, afterToken_eols, firstToken_keyword, afterToken_keyword,
            Bool.not_false, require_true, pure_apply, mustMatchToken_apply, firstToken_punct,
            if_true, afterToken_punct, hn _ hend]
          cases ss with
          | none => rfl
          | some ss =>
              simp only [Option.map_some, Option.bind_some, hmore]
              cases xs.mapM g <;> rfl
      | @case t s e ss ht hbody =>
          obtain ⟨n, hn⟩ := hbody
          obtain ⟨k, hk⟩ := ht
          have hmore := ih hxs seenDefault (by simpa [hd] using hdefault) n
          have htest := hk (.punct .colon :: (s ++ ((xs.map f).flatten ++ .punct .rc :: rest)))
            (by simp [Stops, rank])
          simp only [List.cons_append, List.append_assoc, bind_apply, getToken_apply,
            Option.bind_some, firstToken_eols, afterToken_eols, firstToken_keyword,
            afterToken_keyword, htest]
          cases e with
          | none => rfl
          | some e =>
              simp only [Option.map_some, Option.bind_some, mustMatchToken_eols, hn _ hend]
              cases ss with
              | none => rfl
              | some ss =>
                  simp only [Option.map_some, Option.bind_some, hmore]
                  cases xs.mapM g <;> rfl

variable (scope) in
theorem StmtReads.switch (ht : ExprReads false te re)
    (h : ∀ x ∈ xs, CaseReads (d x) (f x) (g x)) (hdefault : (xs.filter d).length ≤ 1) :
    StmtReads scope (.keyword .switch :: .punct .lp :: (te ++ .punct .rp :: .punct .lc ::
        .eol :: ((xs.map f).flatten ++ [.punct .rc])))
      (do return .switchStmt (← re) (← xs.mapM g)) := by
  apply StmtReads.closed
  · cases re <;> cases xs.mapM g <;> simp [Stmt.openIf]
  · intro rest _
    have hcases := switchCases_read h false (by simpa using hdefault) 1 rest
    have hcond := condition_reads ht
      (.punct .lc :: .eol :: ((xs.map f).flatten ++ .punct .rc :: rest))
    rw [statement]
    simp only [List.cons_append, List.append_assoc, List.nil_append, bind_apply,
      peekToken_apply, Option.bind_some, firstToken_keyword, getToken_apply, afterToken_keyword]
    rw [switchStatement]
    simp only [bind_apply, hcond]
    cases re with
    | none => rfl
    | some e =>
        simp only [eols, List.replicate_one, List.cons_append, List.nil_append] at hcases
        simp only [Option.map_some, Option.bind_some, mustMatchToken_apply, firstToken_punct,
          if_true, afterToken_punct, hcases]
        cases xs.mapM g <;> rfl

end

/-- The handler of a `try`, which may be missing. -/
inductive HandlerReads : List Lexeme → Option (Option CatchClause) → Prop
  | missing : HandlerReads [] (some none)
  | given {w : JSString} {s : List Lexeme} {x : Option (List Stmt)} (hw : keyword? w = none)
      (h : StatementsRead .block s x) :
      HandlerReads (.keyword .catch :: .punct .lp :: .word w :: .punct .rp :: .punct .lc ::
        (s ++ [.punct .rc])) (do return some (.mk w none (.mk (← x))))

inductive FinalizerReads : List Lexeme → Option (Option Block) → Prop
  | missing : FinalizerReads [] (some none)
  | given {s : List Lexeme} {x : Option (List Stmt)} (h : StatementsRead .block s x) :
      FinalizerReads (.keyword .finally :: .punct .lc :: (s ++ [.punct .rc]))
        (do return some (.mk (← x)))

theorem HandlerReads.catchList {rh : Option (Option CatchClause)} (h : HandlerReads ts rh)
    {rest : List Lexeme} (hrest : firstToken rest ≠ .kw .catch) :
    catchList (ts ++ rest) = rh.map fun c => (([], c), rest) := by
  cases h with
  | missing =>
      rw [Parser.catchList]
      simp [bind_apply, matchToken_apply, hrest]
  | @given w s x hw h =>
      have hbody := block_reads h rest
      rw [Parser.catchList]
      simp only [List.cons_append, List.append_assoc, List.nil_append, bind_apply,
        matchToken_apply, mustMatchToken_apply, firstToken_keyword, if_true, Option.bind_some,
        afterToken_keyword, firstToken_punct, afterToken_punct, getName, getToken_apply,
        firstToken_word hw, afterToken_word, pure_apply, reduceCtorEq, if_false, hbody,
        Bool.false_eq_true]
      cases x with
      | none => rfl
      | some ss => simp [hrest]

variable (scope) in
theorem StmtReads.try {rs : Option (List Stmt)} {th tf : List Lexeme}
    {rh : Option (Option CatchClause)} {rf : Option (Option Block)}
    (hb : StatementsRead .block tb rs) (hh : HandlerReads th rh) (hf : FinalizerReads tf rf) :
    StmtReads scope (.keyword .try :: .punct .lc :: (tb ++ .punct .rc :: (th ++ tf)))
      (do
        let block ← rs
        let handler ← rh
        let finalizer ← rf
        if handler.isNone && finalizer.isNone then none
        else return .tryStmt (.mk block) [] handler finalizer) := by
  apply StmtReads.closed
  · cases rs <;> cases rh <;> cases rf <;> simp [Stmt.openIf]
  · intro rest hrest
    have hblock := block_reads hb (th ++ (tf ++ rest))
    have hcatch : firstToken (tf ++ rest) ≠ .kw .catch := by
      cases hf with
      | missing => exact hrest.1
      | given h => simp
    rw [statement]
    simp only [List.cons_append, List.append_assoc, bind_apply, peekToken_apply,
      Option.bind_some, firstToken_keyword, getToken_apply, afterToken_keyword]
    rw [tryStatement]
    simp only [bind_apply, hblock]
    cases rs with
    | none => rfl
    | some ss =>
        simp only [Option.map_some, Option.bind_some, hh.catchList hcatch]
        cases rh with
        | none => rfl
        | some handler =>
            cases hf with
            | missing =>
                cases handler <;>
                  simp [map_apply, matchToken_apply, hrest.2]
            | @given s x h =>
                have hfinally := block_reads h rest
                simp only [Option.map_some, Option.bind_some, List.cons_append,
                  List.append_assoc, List.nil_append, matchToken_apply, firstToken_keyword,
                  if_true, afterToken_keyword, bind_apply, hfinally]
                cases x <;> simp

end

end Parser

end MetaMonkey.Frontend
