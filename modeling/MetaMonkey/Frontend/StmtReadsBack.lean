import MetaMonkey.Frontend.HeadSplits

/-!
The statements: how the parser reads the lexemes of their layouts, and with them
those of whole programs.
-/

namespace MetaMonkey.Frontend

open Js Layout MetaMonkey.Frontend.Parser

def Declarator.init? : Declarator → Option Expr
  | .mk _ init => init

def Declarator.Reads (d : Declarator) : Prop :=
  d.All Expr.Formed Stmt.Formed → d.Formed → ∀ fi fj n, (fi = true → n = true) →
    (fj = true → fi = true ∧ ∀ e ∈ d.init?, e.endsInBody = false) →
    DeclaratorReads fi fj (meant (d.layout n)) d.readBack

/-- A statement, on lines of its own or as the body of another. -/
def Stmt.Reads (s : Stmt) : Prop :=
  s.All Expr.Formed Stmt.Formed →
    (∀ k scope, (s.isLet = true → scope = .block) →
      StmtReads scope (meant (s.layout k)) s.readBack) ∧
    ∀ k more, s.isLet = false → StmtReads .other (meant (s.substmt k more)) s.readBack

def SwitchCase.Reads (c : SwitchCase) : Prop :=
  c.All Expr.Formed Stmt.Formed →
    (∀ e consequent, c = .mk (some e) consequent → e.isElision = false) →
    ∀ k, CaseReads c.isDefault (meant (c.layout k)) c.readBack

def CatchClause.Reads (c : CatchClause) : Prop :=
  c.All Expr.Formed Stmt.Formed → c.Formed false →
    ∃ (w : JSString) (ts : List Lexeme) (rs : Option (List Stmt)), keyword? w = none ∧
      StatementsRead .block ts rs ∧ c.readBack = (do return .mk w none (.mk (← rs))) ∧
      ∀ k more, meant (c.layout k more) = .keyword .catch :: .punct .lp :: .word w ::
        .punct .rp :: .punct .lc :: (ts ++ .punct .rc :: if more then [] else [.eol])

theorem Declarator.reads (id : JSString) (init : Option Expr) (h : ∀ e ∈ init, e.Reads) :
    (Declarator.mk id init).Reads := by
  intro hall hformed fi fj n hn hb
  rw [Declarator.All] at hall
  have hid := keyword?_of_isName hformed.1
  cases init with
  | none =>
      rw [Declarator.layout, Declarator.readBack]
      exact .name hid
  | some e =>
      have hguard : Guarded fi n 2 e := guarded_child le_rfl fun hfi => Or.inl (hn hfi)
      have hbound : Bounded fi fj 2 e := fun hfj =>
        ⟨(hb hfj).1, le_rfl, Or.inr ((hb hfj).2 e rfl)⟩
      have hread := (h e rfl (hall e rfl) (hformed.2 e rfl) 0 2 n fi fj hguard hbound).assign
        (.inl le_rfl)
      rw [Declarator.layout, Declarator.readBack, readBackOptional]
      have hinit := DeclaratorReads.init hid hread
      cases hback : e.readBack <;> simp [hback] at hinit ⊢ <;> exact hinit

/-- The declarators of a declaration. -/
theorem declarators_layout {ds : List Declarator} (h : ∀ d ∈ ds, d.Reads)
    (hall : ∀ d ∈ ds, d.All Expr.Formed Stmt.Formed) (hformed : Declarators.Formed ds)
    (fi fj n : Bool) (hn : fi = true → n = true)
    (hb : fj = true → fi = true ∧ ∀ d ∈ ds, ∀ e ∈ d.init?, e.endsInBody = false) :
    DeclaratorsRead fi fj
      (meant (separate [punct .comma, .space] (ds.map fun d => d.layout n)))
      (readBackDeclarators ds) := by
  rw [meant_separate rfl, List.map_map, readBackDeclarators_eq]
  match ds, hformed.1 with
  | d :: ds, _ =>
      exact declarators_read ds fun x hx => h x hx (hall x hx) (hformed.2 x hx) fi fj n hn
        fun hfj => ⟨(hb hfj).1, (hb hfj).2 x hx⟩

section

variable {s : Stmt} {k : ℕ} {more : Bool}

theorem substmt_eq (h : ∀ body, s ≠ .block body) :
    s.substmt k more = eol :: s.layout (k + 4) ++ if more then spaces (k + 4) else [] := by
  cases s with
  | block body => exact absurd rfl (h body)
  | _ =>
      rw [Stmt.substmt]
      simp

/-- A statement other than a block is on a line of its own also as a body. -/
theorem Stmt.Reads.of_layout (hblock : ∀ body, s ≠ .block body)
    (h : s.All Expr.Formed Stmt.Formed → ∀ k scope, (s.isLet = true → scope = .block) →
      StmtReads scope (meant (s.layout k)) s.readBack) : s.Reads := by
  refine fun hall => ⟨h hall, fun k more hlet => ?_⟩
  have hmore : meant (if more then spaces (k + 4) else []) = [] := by
    cases more <;> simp
  rw [substmt_eq hblock]
  simp only [List.cons_append, meant_eol, meant_append, hmore, List.append_nil]
  exact (h hall (k + 4) .other (by simp [hlet])).eol_before

/-- What begins a statement. -/
theorem Stmt.layout_starts (hall : s.All Expr.Formed Stmt.Formed) :
    startsStatement (firstToken (meant (s.layout k))) = true := by
  cases s with
  | expression e =>
      rw [Stmt.All] at hall
      have hbegins := e.layout_begins k 0 false hall.2 hall.1
      rw [Stmt.layout]
      simp only [meant_append, meant_spaces, List.nil_append, meant_wrapIf]
      cases startsLikeStmt (e.layout k 0 false) with
      | true => rfl
      | false =>
          have hstart := hbegins.startToken
          simp only [Bool.false_eq_true, if_false]
          rw [firstToken_append hbegins.not_eof]
          revert hstart
          fun_cases startsStatement (firstToken (meant (e.layout k 0 false))) <;>
            simp [startToken, *]
  | labeled label body =>
      rw [Stmt.All] at hall
      rw [Stmt.layout]
      simp [firstToken_word (keyword?_of_isName hall.1.1), startsStatement]
  | ifStmt test consequent alternate =>
      cases alternate <;> rw [Stmt.layout] <;> simp [startsStatement]
  | declaration kind ds =>
      rw [Stmt.layout]
      cases kind <;> simp [VarDeclKind.keyword, startsStatement]
  | _ => rw [Stmt.layout]; simp [startsStatement, jump, parens]

end

/-- The statements of a block, from the line break after the brace. -/
theorem stmts_layout {ss : List Stmt} (h : ∀ s ∈ ss, s.Reads)
    (hall : ∀ s ∈ ss, s.All Expr.Formed Stmt.Formed) {scope : Scope}
    (hlet : scope = .block ∨ ∀ s ∈ ss, s.isLet = false) (k : ℕ) :
    StatementsRead scope (.eol :: meant (ss.map fun s => s.layout k).flatten)
      (readBackStmts ss) := by
  rw [meant_flatten, List.map_map, readBackStmts_eq]
  refine statements_eol_read (fun s hs => ?_) fun s hs => Stmt.layout_starts (hall s hs)
  refine (h s hs (hall s hs)).1 k scope fun hs' => ?_
  obtain hscope | hlet := hlet
  · exact hscope
  · simp [hlet s hs] at hs'

theorem Stmt.reads_block (body : List Stmt) (h : ∀ s ∈ body, s.Reads) :
    (Stmt.block body).Reads := by
  intro hall
  rw [Stmt.All] at hall
  have hread : ∀ scope, StmtReads scope (.punct .lc :: (.eol ::
      meant (body.map fun s => s.layout 4).flatten ++ [.punct .rc]))
        (Stmt.block body).readBack := by
    intro scope
    exact .block (stmts_layout h hall.2 (.inl rfl) 4)
  refine ⟨fun k scope _ => ?_, fun k more _ => ?_⟩
  · rw [Stmt.layout]
    have hlayout := (hread scope).eol_after
    simpa using hlayout
  · rw [Stmt.substmt]
    cases more with
    | true => simpa using hread .other
    | false => simpa using (hread .other).eol_after

theorem Block.reads (body : List Stmt) (h : ∀ s ∈ body, s.Reads) : (Block.mk body).Reads := by
  intro hall scope hscope
  rw [Block.All] at hall
  refine ⟨_, _, stmts_layout h hall hscope 4, rfl, fun k => ?_⟩
  rw [Block.layout]
  simp

theorem Stmt.reads_declaration (kind : VarDeclKind) (ds : List Declarator)
    (h : ∀ d ∈ ds, d.Reads) : (Stmt.declaration kind ds).Reads := by
  refine .of_layout (by simp) fun hall k scope hlet => ?_
  rw [Stmt.All] at hall
  rw [Stmt.layout, Stmt.readBack]
  have hread := declarators_layout h hall.2 hall.1 false false false
    (by simp) (by simp)
  have hkind : kind.keyword = .var ∧ kind = .var ∨ kind.keyword = .const ∧ kind = .const ∨
      kind.keyword = .let ∧ kind = .let ∧ scope = .block := by
    cases kind with
    | var => exact Or.inl ⟨rfl, rfl⟩
    | const => exact Or.inr (Or.inl ⟨rfl, rfl⟩)
    | «let» => exact Or.inr (Or.inr ⟨rfl, rfl, hlet rfl⟩)
  have hstmt := (StmtReads.declaration hread hkind).eol_after
  simpa using hstmt

theorem Stmt.reads_empty : Stmt.empty.Reads := by
  refine .of_layout (by simp) fun _ k scope _ => ?_
  rw [Stmt.layout, Stmt.readBack]
  have hstmt := (StmtReads.empty scope).eol_after
  simpa using hstmt

/-- A text that begins like no other statement begins with a token of an expression. -/
theorem Begins.startsExpression {c : ℕ} {ps : List Piece} (h : Begins c ps)
    (hstmt : startsLikeStmt ps = false) : startsExpression (firstToken (meant ps)) = true := by
  cases h with
  | name hw hps => simp [firstToken_word (keyword?_of_isName hw), Parser.startsExpression]
  | this ps => simp [Parser.startsExpression]
  | bracket hp ps =>
      obtain rfl | rfl | rfl := hp
      · simp [Parser.startsExpression]
      · simp [Parser.startsExpression]
      · simp [startsLikeStmt, punct] at hstmt
  | new ps => simp [Parser.startsExpression]
  | function hc ps => simp [startsLikeStmt, keyword, Lexeme.keyword] at hstmt
  | letHead hc ps => simp [startsLikeStmt, keyword, Lexeme.keyword] at hstmt
  | unary hc op ps => cases op <;> simp [UnaryOp.lexeme, Parser.startsExpression]
  | update hc op ps => cases op <;> simp [UpdateOp.punct, Parser.startsExpression]
  | yield hc ps => simp [Parser.startsExpression]

theorem Stmt.reads_expression (e : Expr) (h : e.Reads) : (Stmt.expression e).Reads := by
  refine .of_layout (by simp) fun hall k scope _ => ?_
  rw [Stmt.All] at hall
  rw [Stmt.layout, Stmt.readBack]
  have hexpr := (h.outside hall.2 hall.1 k 0 false).expr
  have hbegins := e.layout_begins k 0 false hall.2 hall.1
  have hread : StmtReads scope
      (meant (wrapIf (startsLikeStmt (e.layout k 0 false)) (e.layout k 0 false)) ++
        [.punct .semi]) (do return .expression (← e.readBack)) := by
    rw [meant_wrapIf]
    cases hstmt : startsLikeStmt (e.layout k 0 false) with
    | true =>
        have hparens : ReadsAt false false 0 true
            (.punct .lp :: meant (e.layout k 0 false) ++ [.punct .rp]) e.readBack :=
          .parens hexpr (by simp)
        refine .expression hparens.expr rfl fun rest hname => ?_
        obtain ⟨w, hw⟩ := hname
        simp at hw
    | false =>
        refine .expression hexpr (hbegins.startsExpression hstmt) fun rest hname => ?_
        obtain ⟨w, hw⟩ := hname
        exact hbegins.second_ne_colon hw (by simp)
  have hstmt := hread.eol_after
  simpa using hstmt

theorem Stmt.reads_let (head : List Declarator) (body : Stmt) :
    (Stmt.letStmt head body).Reads := by
  refine .of_layout (by simp) fun _ k scope _ => ?_
  rw [Stmt.layout, Stmt.readBack]
  simp only [meant_append, meant_spaces, List.nil_append, List.cons_append, meant_keyword,
    meant_space, meant_parens]
  exact .varParen _

theorem Stmt.reads_if (test : Expr) (consequent : Stmt) (alternate : Option Stmt)
    (ht : test.Reads) (hc : consequent.Reads) (ha : ∀ s ∈ alternate, s.Reads) :
    (Stmt.ifStmt test consequent alternate).Reads := by
  refine .of_layout (by simp) fun hall k scope _ => ?_
  rw [Stmt.All] at hall
  obtain ⟨⟨htest, hconsequent, halternate⟩, hallTest, hallConsequent, hallAlternate⟩ := hall
  have hcond := (ht.outside hallTest htest k 0 false).expr
  have hthen := (hc hallConsequent).2 k
  cases alternate with
  | none =>
      rw [Stmt.layout, Stmt.readBack]
      have hstmt := StmtReads.ifThen scope hcond (hthen false hconsequent)
      simpa using hstmt
  | some alternate =>
      have helse := (ha alternate rfl (hallAlternate alternate rfl)).2 k false
        (halternate alternate rfl)
      rw [Stmt.layout, Stmt.readBack]
      have hstmt := StmtReads.ifElse scope hcond (hthen true hconsequent) helse
      simpa using hstmt

theorem Stmt.reads_while (test : Expr) (body : Stmt) (ht : test.Reads) (hb : body.Reads) :
    (Stmt.whileStmt test body).Reads := by
  refine .of_layout (by simp) fun hall k scope _ => ?_
  rw [Stmt.All] at hall
  obtain ⟨⟨htest, hbody⟩, hallTest, hallBody⟩ := hall
  rw [Stmt.layout, Stmt.readBack]
  have hstmt := StmtReads.while scope (ht.outside hallTest htest k 0 false).expr
    ((hb hallBody).2 k false hbody)
  simpa using hstmt

theorem Stmt.reads_doWhile (body : Stmt) (test : Expr) (hb : body.Reads) (ht : test.Reads) :
    (Stmt.doWhile body test).Reads := by
  refine .of_layout (by simp) fun hall k scope _ => ?_
  rw [Stmt.All] at hall
  obtain ⟨⟨hbody, htest⟩, hallBody, hallTest⟩ := hall
  rw [Stmt.layout, Stmt.readBack]
  have hstmt := (StmtReads.doWhile scope ((hb hallBody).2 k true hbody)
    (ht.outside hallTest htest k 0 false).expr).eol_after
  simpa using hstmt

/-- An expression of the head of a `for`. -/
theorem optional_layout {o : Option Expr} (h : ∀ e ∈ o, e.Reads)
    (hall : ∀ e ∈ o, e.All Expr.Formed Stmt.Formed) (he : ∀ e ∈ o, e.isElision = false)
    (lead : List Piece) (hlead : meant lead = []) (k : ℕ) :
    OptionalReads (meant (optionalLayout lead k 0 false o)) (readBackOptional o) := by
  cases o with
  | none =>
      rw [optionalLayout]
      exact .missing
  | some e =>
      have hbegins := e.layout_begins k 0 false (hall e rfl) (he e rfl)
      rw [optionalLayout, meant_append, hlead]
      exact .given ((h e rfl).outside (hall e rfl) (he e rfl) k 0 false).expr hbegins.not_eof
        (hbegins.not_closing (by simp)) (hbegins.not_closing (by simp))

theorem Stmt.reads_return (argument : Option Expr) (h : ∀ e ∈ argument, e.Reads) :
    (Stmt.returnStmt argument).Reads := by
  refine .of_layout (by simp) fun hall k scope _ => ?_
  rw [Stmt.All] at hall
  rw [Stmt.layout, Stmt.readBack]
  cases argument with
  | none =>
      rw [optionalLayout, readBackOptional]
      have hstmt := (StmtReads.returnNone scope).eol_after
      simpa using hstmt
  | some e =>
      have hbegins := e.layout_begins k 17 false (hall.2 e rfl) (hall.1 e rfl)
      rw [optionalLayout, readBackOptional]
      have hstmt := (StmtReads.return scope
        ((h e rfl).outside (hall.2 e rfl) (hall.1 e rfl) k 17 false).expr hbegins.head_ne_eol
        hbegins.endsReturn).eol_after
      simpa [Option.bind_assoc] using hstmt

theorem Stmt.reads_throw (argument : Expr) (h : argument.Reads) :
    (Stmt.throwStmt argument).Reads := by
  refine .of_layout (by simp) fun hall k scope _ => ?_
  rw [Stmt.All] at hall
  have hbegins := argument.layout_begins k 0 false hall.2 hall.1
  rw [Stmt.layout, Stmt.readBack]
  have hstmt := (StmtReads.throw scope (h.outside hall.2 hall.1 k 0 false).expr
    hbegins.head_ne_eol hbegins.endsReturn).eol_after
  simpa using hstmt

theorem meant_jump (k : Keyword) (label : Option JSString) :
    meant (jump k label) = .keyword k :: (labelLexemes label ++ [.punct .semi]) ++ [.eol] := by
  cases label <;> rfl

theorem Stmt.reads_break (label : Option JSString) : (Stmt.breakStmt label).Reads := by
  refine .of_layout (by simp) fun hall k scope _ => ?_
  rw [Stmt.All] at hall
  rw [Stmt.layout, Stmt.readBack, meant_append, meant_spaces, meant_jump]
  exact (StmtReads.break fun w hw => keyword?_of_isName (hall w hw)).eol_after

theorem Stmt.reads_continue (label : Option JSString) : (Stmt.continueStmt label).Reads := by
  refine .of_layout (by simp) fun hall k scope _ => ?_
  rw [Stmt.All] at hall
  rw [Stmt.layout, Stmt.readBack, meant_append, meant_spaces, meant_jump]
  exact (StmtReads.continue fun w hw => keyword?_of_isName (hall w hw)).eol_after

theorem Stmt.reads_debugger : Stmt.debugger.Reads := by
  refine .of_layout (by simp) fun _ k scope _ => ?_
  rw [Stmt.layout, Stmt.readBack]
  have hstmt := StmtReads.debugger scope
  simpa using hstmt

theorem Stmt.reads_with (obj : Expr) (body : Stmt) : (Stmt.withStmt obj body).Reads := by
  refine .of_layout (by simp) fun _ k scope _ => ?_
  rw [Stmt.layout, Stmt.readBack]
  simp only [meant_append, meant_spaces, List.nil_append, List.cons_append, meant_keyword,
    meant_space, meant_punct]
  exact .with _

theorem Stmt.reads_forOf (left right : Expr) (body : Stmt) :
    (Stmt.forOf left right body).Reads := by
  refine .of_layout (by simp) fun _ k scope _ => ?_
  rw [Stmt.layout, Stmt.readBack]
  exact .rp _

theorem Stmt.reads_forOfDecl (kind : VarDeclKind) (d : Declarator) (right : Expr) (body : Stmt) :
    (Stmt.forOfDecl kind d right body).Reads := by
  refine .of_layout (by simp) fun _ k scope _ => ?_
  rw [Stmt.layout, Stmt.readBack]
  exact .rp _

theorem Stmt.reads_labeled (label : JSString) (body : Stmt) (hb : body.Reads) :
    (Stmt.labeled label body).Reads := by
  refine .of_layout (by simp) fun hall k scope _ => ?_
  rw [Stmt.All] at hall
  obtain ⟨⟨hlabel, hbody⟩, hallBody⟩ := hall
  rw [Stmt.layout, Stmt.readBack]
  have hstmt := StmtReads.labeled scope (keyword?_of_isName hlabel)
    ((hb hallBody).1 k .other (by simp [hbody]))
  simpa using hstmt

theorem SwitchCase.reads (test : Option Expr) (consequent : List Stmt) (ht : ∀ e ∈ test, e.Reads)
    (hs : ∀ s ∈ consequent, s.Reads) : (SwitchCase.mk test consequent).Reads := by
  intro hall helision k
  rw [SwitchCase.All] at hall
  have hbody : CaseBodyReads (.eol :: meant (consequent.map fun s => s.layout (k + 4)).flatten)
      (readBackStmts consequent) := by
    rw [meant_flatten, List.map_map, readBackStmts_eq]
    exact caseBody_eols_read (fun s hs' => (hs s hs' (hall.2 s hs')).1 (k + 4) .block (by simp))
      (fun s hs' => Stmt.layout_starts (hall.2 s hs')) 1
  cases test with
  | none =>
      rw [SwitchCase.layout, SwitchCase.readBack, readBackOptional]
      have hcase := CaseReads.default hbody
      simpa [SwitchCase.isDefault] using hcase
  | some e =>
      rw [SwitchCase.layout, SwitchCase.readBack, readBackOptional]
      have hcase := CaseReads.case
        ((ht e rfl).outside (hall.1 e rfl) (helision e consequent rfl) k 0 false).expr hbody
      simpa [SwitchCase.isDefault, Option.bind_assoc] using hcase

theorem Stmt.reads_switch (discriminant : Expr) (cases : List SwitchCase)
    (hd : discriminant.Reads) (hc : ∀ c ∈ cases, c.Reads) :
    (Stmt.switchStmt discriminant cases).Reads := by
  refine .of_layout (by simp) fun hall k scope _ => ?_
  rw [Stmt.All] at hall
  obtain ⟨⟨hdiscriminant, hdefault, htests⟩, hallDiscriminant, hallCases⟩ := hall
  rw [Stmt.layout, Stmt.readBack, readBackCases_eq]
  have hstmt := (StmtReads.switch scope
    (hd.outside hallDiscriminant hdiscriminant k 0 false).expr
    (fun c hmem => hc c hmem (hallCases c hmem) (htests c hmem) k) hdefault).eol_after
  simpa [meant_flatten, Function.comp_def] using hstmt

theorem Begins.startsForInit {c : ℕ} {ps : List Piece} (h : Begins c ps)
    (hvar : firstToken (meant ps) ≠ .kw .var) :
    startsForInit (firstToken (meant ps)) = true := by
  have hstart := h.startToken
  revert hstart hvar
  generalize firstToken (meant ps) = t
  fun_cases Parser.startsForInit t <;> simp [Frontend.startToken]

/-- A declaration as the first part of a head with three parts. -/
theorem forInit_declaration {kind : VarDeclKind} {ds : List Declarator} (hd : ∀ d ∈ ds, d.Reads)
    (hall : ∀ d ∈ ds, d.All Expr.Formed Stmt.Formed) (hds : Declarators.Formed ds)
    (hkind : kind ≠ .let) :
    ForInitReads (.punct .semi) (.keyword kind.keyword ::
      meant (separate [punct .comma, .space] (ds.map fun d => d.layout true)))
      (do return .declaration kind (← readBackDeclarators ds)) := by
  have hdecls := declarators_layout hd hall hds true false true (by simp) (by simp)
  refine .declaration hdecls (by simp [rank]) ?_
  cases kind with
  | var => exact Or.inl ⟨rfl, rfl⟩
  | const => exact Or.inr (Or.inl ⟨rfl, rfl⟩)
  | «let» => exact absurd rfl hkind

theorem Stmt.reads_forDecl (kind : VarDeclKind) (ds : List Declarator) (test update : Option Expr)
    (body : Stmt) (hd : ∀ d ∈ ds, d.Reads) (ht : ∀ e ∈ test, e.Reads)
    (hu : ∀ e ∈ update, e.Reads) (hb : body.Reads) :
    (Stmt.forDecl kind ds test update body).Reads := by
  refine .of_layout (by simp) fun hall k scope _ => ?_
  rw [Stmt.All] at hall
  obtain ⟨⟨hkind, hds, htest, hupdate, hbody⟩, hallDs, hallTest, hallUpdate, hallBody⟩ := hall
  have hinit := forInit_declaration hd hallDs hds hkind
  have hstmt := StmtReads.for scope hinit
    (optional_layout ht hallTest htest [.space] rfl k)
    (optional_layout hu hallUpdate hupdate [.space] rfl k)
    ((hb hallBody).2 k false hbody)
  have hresult : ∀ ds' t u b, forResult (.declaration kind ds') t u b =
      .forDecl kind ds' t u b := by
    intro ds' t u b
    cases kind with
    | «let» => exact absurd rfl hkind
    | _ => rfl
  rw [Stmt.layout, Stmt.readBack]
  simpa [Option.bind_assoc, hresult] using hstmt

/-- What may be assigned to ends before an `in`. -/
theorem forInit_reference {e : Expr} (h : e.Reads) (hall : e.All Expr.Formed Stmt.Formed)
    (href : isReference e = true) (k : ℕ) :
    ForInitReads (.kw .in) (meant (e.layout k 0 false)) (do return .expression (← e.readBack)) := by
  have hmember := h.reference (c := 0) (n := false) (k := k) href hall (by omega)
  have hstart := layout_startsOperand (c := 0) (n := false) (k := k) hall href (by omega)
  have hbegins := e.layout_begins k 0 false hall (isElision_of_reference href)
  obtain ⟨n, hn⟩ := (((hmember.unary hstart true).or 4).assign (by omega) hstart.not_eof
    hstart.not_yield)
  refine .expression ⟨n, fun rest hrest => ?_⟩ (hbegins.startsForInit ?_)
  · have hstop : Stops true 0 rest := by simp [Stops, hrest, rank]
    have hcomma := comma_ne (hstop.mono (Nat.zero_le 1))
    rw [Parser.expr, Parser.bind_apply, hn rest (hstop.mono (Nat.zero_le 2))]
    cases e.readBack with
    | none => rfl
    | some e' => simp [Parser.bind_apply, matchToken_apply, firstToken_eols, hcomma]
  · have hoperand := e.layout_begins k 17 false hall (isElision_of_reference href)
    rw [layout_reference href (by omega)]
    intro heq
    simpa [heq, startToken] using hoperand.startToken

theorem Stmt.reads_forIn (each : Bool) (left right : Expr) (body : Stmt) (hl : left.Reads)
    (hr : right.Reads) (hb : body.Reads) : (Stmt.forIn each left right body).Reads := by
  refine .of_layout (by simp) fun hall k scope _ => ?_
  rw [Stmt.All] at hall
  obtain ⟨⟨href, hright, hbody⟩, hallLeft, hallRight, hallBody⟩ := hall
  have hstmt := StmtReads.forIn scope each
    (forInit_reference hl hallLeft href k) (readBack_reference href)
    (hr.outside hallRight hright k 0 false).expr ((hb hallBody).2 k false hbody)
  rw [Stmt.layout, Stmt.readBack]
  cases each <;> simpa [eachLexemes] using hstmt

theorem Stmt.reads_forInDecl (each : Bool) (kind : VarDeclKind) (d : Declarator) (right : Expr)
    (body : Stmt) (hd : d.Reads) (hr : right.Reads) (hb : body.Reads) :
    (Stmt.forInDecl each kind d right body).Reads := by
  refine .of_layout (by simp) fun hall k scope _ => ?_
  rw [Stmt.All] at hall
  obtain ⟨⟨hkind, hformed, hinit, hright, hbody⟩, hallD, hallRight, hallBody⟩ := hall
  -- the initialiser of the declaration ends before the `in`
  have hends : ∀ e ∈ d.init?, e.endsInBody = false := by
    obtain ⟨w, init⟩ := d
    intro e he
    obtain rfl : init = some e := he
    exact (hinit w e rfl).2
  have hdecl := hd hallD hformed true true true (by simp) fun _ => ⟨rfl, hends⟩
  have hkinds : kind.keyword = .var ∧ kind = .var ∨ kind.keyword = .const ∧ kind = .const ∨
      kind.keyword = .let ∧ kind = .let := by
    cases kind <;> simp [VarDeclKind.keyword]
  have hread : ForInitReads (.kw .in) (.keyword kind.keyword :: meant (d.layout true))
      (do return .declaration kind [← d.readBack]) := by
    have hdecls : DeclaratorsRead true true (meant (d.layout true))
        ([d].mapM Declarator.readBack) :=
      declarators_read (x := d) [] (f := fun d => meant (d.layout true))
        (by simpa using hdecl)
    have hforInit := ForInitReads.declaration (t := .kw .in) hdecls (by simp [rank]) hkinds
    cases hback : d.readBack <;> simp [hback] at hforInit ⊢ <;> exact hforInit
  have hvar : ∀ id e, .mk id (some e) ∈ d.readBack → kind = .var := by
    intro id e hback
    obtain ⟨w, init⟩ := d
    cases init with
    | none => simp [Declarator.readBack, readBackOptional] at hback
    | some e' => exact (hinit w e' rfl).1
  have hstmt := StmtReads.forInDecl scope each hread hkind hvar
    (hr.outside hallRight hright k 0 false).expr ((hb hallBody).2 k false hbody)
  rw [Stmt.layout, Stmt.readBack]
  cases each <;> simpa [eachLexemes] using hstmt

theorem Begins.letHead_of_var {c : ℕ} {ps : List Piece} (h : Begins c ps)
    (hvar : firstToken (meant ps) = .kw .var) :
    ∃ ts, meant ps = .keyword .var :: .punct .lp :: ts := by
  cases h with
  | letHead hc ps => exact ⟨_, rfl⟩
  | name hw hps => simp [firstToken_word (keyword?_of_isName hw)] at hvar
  | unary hc op ps => cases op <;> simp [UnaryOp.lexeme] at hvar
  | _ => simp at hvar

/-- The first part of the head of a `for` with three parts. -/
theorem forInit_layout {init : Option Expr} (h : ∀ e ∈ init, e.Reads)
    (hall : ∀ e ∈ init, e.All Expr.Formed Stmt.Formed) (he : ∀ e ∈ init, e.isElision = false)
    (hsplits : ∀ e ∈ init, e.splitsHead = false) (k : ℕ) :
    ForInitReads (.punct .semi) (meant (optionalLayout [] k 0 true init))
      (do
        match ← readBackOptional init with
        | none => return .none
        | some e => return .expression e) := by
  cases init with
  | none =>
      rw [optionalLayout]
      exact .missing
  | some e =>
      have hbegins := e.layout_begins k 0 true (hall e rfl) (he e rfl)
      have hread := h e rfl (hall e rfl) (he e rfl) k 0 true true false
        (fun _ => ⟨.inl rfl, .inr (hsplits e rfl), .inl rfl⟩) (bounded_false _ _ _)
      obtain ⟨n, hn⟩ := hread.expr
      rw [optionalLayout, List.nil_append]
      by_cases hvar : firstToken (meant (e.layout k 0 true)) = .kw .var
      · -- the text of a `let` is taken for a declaration, which has no parenthesis
        obtain ⟨ts, hts⟩ := hbegins.letHead_of_var hvar
        have hnone : e.readBack = none := by
          have hlet : ExprReads true (meant (e.layout k 0 true)) none := by
            rw [hts]
            exact (readsAt_var (fun h : false = true => absurd h (by simp)) 0 _).expr
          obtain ⟨m, hm⟩ := hlet
          have hend : Stops false 0 [Lexeme.punct .semi] := by simp [Stops, rank]
          have heq := (hn _ hend).symm.trans (hm _ hend)
          simpa using heq
        rw [hts, readBackOptional, hnone]
        exact .varParen _ _
      · have hinit := ForInitReads.expression (t := .punct .semi)
          ⟨n, fun rest hrest => hn rest (by simp [Stops, hrest, rank])⟩ (hbegins.startsForInit hvar)
        rw [readBackOptional]
        cases hback : e.readBack <;> simpa [hback] using hinit

theorem Stmt.reads_forStmt (init test update : Option Expr) (body : Stmt)
    (hi : ∀ e ∈ init, e.All Expr.Reads Stmt.Reads) (ht : ∀ e ∈ test, e.Reads)
    (hu : ∀ e ∈ update, e.Reads) (hb : body.Reads) :
    (Stmt.forStmt init test update body).Reads := by
  refine .of_layout (by simp) fun hall k scope _ => ?_
  rw [Stmt.All] at hall
  obtain ⟨⟨hinit, htest, hupdate, hbody⟩, hallInit, hallTest, hallUpdate, hallBody⟩ := hall
  by_cases hsplits : ∃ e ∈ init, e.splitsHead = true
  · obtain ⟨e, rfl, hsplits⟩ := hsplits
    have hnone := statement_splits (hallInit e rfl) (hi e rfl) hsplits (k := k) scope
    refine ⟨0, fun rest _ => ?_⟩
    rw [Stmt.layout, Stmt.readBack, optionalLayout]
    simp [hnone, hsplits]
  · have hread := forInit_layout (fun e he => (hi e he).self) hallInit hinit
      (by simpa using hsplits) k
    have hstmt := StmtReads.for scope hread
      (optional_layout ht hallTest htest [.space] rfl k)
      (optional_layout hu hallUpdate hupdate [.space] rfl k)
      ((hb hallBody).2 k false hbody)
    have hwhole : (init.any Expr.splitsHead) = false := by
      cases init with
      | none => rfl
      | some e => simpa using hsplits
    rw [Stmt.layout, Stmt.readBack, hwhole]
    simp at hstmt ⊢
    cases hback : readBackOptional init with
    | none => simpa [hback] using hstmt
    | some o => cases o <;> simpa [hback, forResult] using hstmt

theorem CatchClause.reads (param : JSString) (guard : Option Expr) (body : Block)
    (hb : body.Reads) : (CatchClause.mk param guard body).Reads := by
  intro hall hformed
  rw [CatchClause.All] at hall
  obtain ⟨ts, rs, hread, hback, hlayout⟩ := hb hall.2 .block (.inl rfl)
  refine ⟨param, ts, rs, keyword?_of_isName hformed.1, hread, ?_, fun k more => ?_⟩
  · rw [CatchClause.readBack, hback]
    cases rs <;> rfl
  · rw [CatchClause.layout]
    cases more <;> simp [hlayout]

theorem Stmt.reads_try (block : Block) (guarded : List CatchClause) (handler : Option CatchClause)
    (finalizer : Option Block) (hb : block.Reads) (hh : ∀ c ∈ handler, c.Reads)
    (hf : ∀ b ∈ finalizer, b.Reads) :
    (Stmt.tryStmt block guarded handler finalizer).Reads := by
  refine .of_layout (by simp) fun hall k scope _ => ?_
  rw [Stmt.All] at hall
  obtain ⟨⟨-, -, hformed⟩, hallBlock, -, hallHandler, hallFinalizer⟩ := hall
  obtain ⟨tb, rb, hread, hback, hlayout⟩ := hb hallBlock .block (.inl rfl)
  have hhandler : ∃ th, HandlerReads th (readBackHandler handler) ∧
      meant (handlerLayout k finalizer.isSome handler) =
        th ++ if handler.isSome && !finalizer.isSome then [.eol] else [] := by
    cases handler with
    | none => exact ⟨[], .missing, by rw [handlerLayout]; rfl⟩
    | some c =>
        obtain ⟨w, ts, rs, hw, hts, hcback, hclayout⟩ := hh c rfl (hallHandler c rfl)
          (hformed c rfl)
        refine ⟨.keyword .catch :: .punct .lp :: .word w :: .punct .rp :: .punct .lc ::
          (ts ++ [.punct .rc]), ?_, ?_⟩
        · have hgiven := HandlerReads.given hw hts
          rw [readBackHandler, hcback]
          cases rs <;> simpa using hgiven
        · rw [handlerLayout, hclayout]
          cases finalizer <;> simp
  have hfinalizer : ∃ tf, FinalizerReads tf (readBackFinalizer finalizer) ∧
      meant (finalizerLayout k finalizer) = tf ++ (if finalizer.isSome then [.eol] else []) ∧
        (finalizer = none → tf = []) := by
    cases finalizer with
    | none => exact ⟨[], .missing, by rw [finalizerLayout]; rfl, fun _ => rfl⟩
    | some b =>
        obtain ⟨ts, rs, hts, hbback, hblayout⟩ := hf b rfl (hallFinalizer b rfl) .block (.inl rfl)
        refine ⟨.keyword .finally :: .punct .lc :: (ts ++ [.punct .rc]), ?_, ?_, by simp⟩
        · have hgiven := FinalizerReads.given hts
          rw [readBackFinalizer, hbback]
          cases rs <;> simpa using hgiven
        · rw [finalizerLayout]
          simp [hblayout]
  obtain ⟨th, hth, hthLayout⟩ := hhandler
  obtain ⟨tf, htf, htfLayout, hmissing⟩ := hfinalizer
  have htry := StmtReads.try scope hread hth htf
  have hstmt : StmtReads scope
      (.keyword .try :: .punct .lc :: (tb ++ .punct .rc :: (meant (handlerLayout k
        finalizer.isSome handler) ++ meant (finalizerLayout k finalizer))))
      (do
        let block ← rb
        let handler ← readBackHandler handler
        let finalizer ← readBackFinalizer finalizer
        if handler.isNone && finalizer.isNone then none
        else return .tryStmt (.mk block) [] handler finalizer) := by
    rw [hthLayout, htfLayout]
    -- the last clause ends the line
    cases finalizer with
    | some b => simpa using htry.eol_after
    | none =>
        obtain rfl := hmissing rfl
        cases handler with
        | some c => simpa using htry.eol_after
        | none => simpa using htry
  rw [Stmt.layout, Stmt.readBack, hback]
  simpa [hlayout, Option.bind_assoc] using hstmt

section

variable {q : Stmt → Prop}

theorem Declarator.reads_of_all {d : Declarator} (h : d.All Expr.Reads q) : d.Reads := by
  obtain ⟨id, init⟩ := d
  rw [Declarator.All] at h
  exact Declarator.reads id init fun e he => (h e he).self

theorem Block.reads_of_all {b : Block} (h : b.All Expr.Reads Stmt.Reads) : b.Reads := by
  obtain ⟨body⟩ := b
  rw [Block.All] at h
  exact Block.reads body fun s hs => (h s hs).self

theorem SwitchCase.reads_of_all {c : SwitchCase} (h : c.All Expr.Reads Stmt.Reads) : c.Reads := by
  obtain ⟨test, consequent⟩ := c
  rw [SwitchCase.All] at h
  exact SwitchCase.reads test consequent (fun e he => (h.1 e he).self) fun s hs => (h.2 s hs).self

theorem CatchClause.reads_of_all {c : CatchClause} (h : c.All Expr.Reads Stmt.Reads) :
    c.Reads := by
  obtain ⟨param, guard, body⟩ := c
  rw [CatchClause.All] at h
  exact CatchClause.reads param guard body (Block.reads_of_all h.2)

end

/-- The rules above are an instance of the induction over trees. -/
theorem reads_inductive :
    Inductive (fun e => e.All Expr.Reads Stmt.Reads) (fun s => s.All Expr.Reads Stmt.Reads)
      (fun x => x.All Expr.Reads Stmt.Reads) (fun d => d.All Expr.Reads Stmt.Reads)
      (fun c => c.All Expr.Reads Stmt.Reads) (fun c => c.All Expr.Reads Stmt.Reads)
      (fun b => b.All Expr.Reads Stmt.Reads) where
  identifier name := by rw [Expr.All]; exact Expr.reads_identifier name
  thisExpr := by rw [Expr.All]; exact Expr.reads_this
  elision := by rw [Expr.All]; exact Expr.reads_elision
  array es h := by rw [Expr.All]; exact ⟨Expr.reads_array es fun e he => (h e he).self, h⟩
  object xs h := by
    rw [Expr.All]
    refine ⟨Expr.reads_object xs fun x hx => ?_, h⟩
    have hvalue := h x hx
    obtain ⟨key, value⟩ := x
    rw [Property.All] at hvalue
    exact hvalue.self
  unary op e h := by rw [Expr.All]; exact ⟨Expr.reads_unary op e h.self, h⟩
  update op before e h := by rw [Expr.All]; exact ⟨Expr.reads_update op before e h.self, h⟩
  binary op l r hl hr := by rw [Expr.All]; exact ⟨Expr.reads_binary op l r hl.self hr.self, hl, hr⟩
  assign op l r hl hr := by rw [Expr.All]; exact ⟨Expr.reads_assign op l r hl.self hr.self, hl, hr⟩
  cond t c a ht hc ha := by
    rw [Expr.All]
    refine ⟨Expr.reads_cond t c a ht.self hc.self ha.self ?_, ht, hc, ha⟩
    rintro es rfl e he
    rw [Expr.All] at hc
    exact (hc.2 e he).self
  call f args hf ha := by
    rw [Expr.All]
    exact ⟨Expr.reads_call f args hf.self fun e he => (ha e he).self, hf, ha⟩
  newExpr f args hf ha := by
    rw [Expr.All]
    exact ⟨Expr.reads_new f args hf.self fun e he => (ha e he).self, hf, ha⟩
  member o w ho := by rw [Expr.All]; exact ⟨Expr.reads_member o w ho.self, ho⟩
  index o x ho hx := by rw [Expr.All]; exact ⟨Expr.reads_index o x ho.self hx.self, ho, hx⟩
  sequence es h := by rw [Expr.All]; exact ⟨Expr.reads_sequence es fun e he => (h e he).self, h⟩
  yieldExpr o h := by rw [Expr.All]; exact ⟨Expr.reads_yield o fun e he => (h e he).self, h⟩
  letExpr ds e hd he := by rw [Expr.All]; exact ⟨Expr.reads_let ds e, hd, he⟩
  function id params b h := by
    rw [Expr.All]
    exact ⟨Expr.reads_function id params b (Block.reads_of_all h), h⟩
  closure id params e h := by rw [Expr.All]; exact ⟨Expr.reads_closure id params e h.self, h⟩
  property key e h := by rw [Property.All]; exact h
  declarator id init h := by rw [Declarator.All]; exact h
  block ss h := by rw [Stmt.All]; exact ⟨Stmt.reads_block ss fun s hs => (h s hs).self, h⟩
  declaration kind ds h := by
    rw [Stmt.All]
    exact ⟨Stmt.reads_declaration kind ds fun d hd => Declarator.reads_of_all (h d hd), h⟩
  empty := by rw [Stmt.All]; exact Stmt.reads_empty
  expression e h := by rw [Stmt.All]; exact ⟨Stmt.reads_expression e h.self, h⟩
  letStmt ds s hd hs := by rw [Stmt.All]; exact ⟨Stmt.reads_let ds s, hd, hs⟩
  ifStmt t c a ht hc ha := by
    rw [Stmt.All]
    exact ⟨Stmt.reads_if t c a ht.self hc.self fun s hs => (ha s hs).self, ht, hc, ha⟩
  whileStmt t b ht hb := by rw [Stmt.All]; exact ⟨Stmt.reads_while t b ht.self hb.self, ht, hb⟩
  doWhile b t hb ht := by rw [Stmt.All]; exact ⟨Stmt.reads_doWhile b t hb.self ht.self, hb, ht⟩
  forStmt i t u b hi ht hu hb := by
    rw [Stmt.All]
    exact ⟨Stmt.reads_forStmt i t u b hi (fun e he => (ht e he).self) (fun e he => (hu e he).self)
      hb.self, hi, ht, hu, hb⟩
  forDecl kind ds t u b hd ht hu hb := by
    rw [Stmt.All]
    exact ⟨Stmt.reads_forDecl kind ds t u b (fun d h => Declarator.reads_of_all (hd d h))
      (fun e he => (ht e he).self) (fun e he => (hu e he).self) hb.self, hd, ht, hu, hb⟩
  forIn each l r b hl hr hb := by
    rw [Stmt.All]
    exact ⟨Stmt.reads_forIn each l r b hl.self hr.self hb.self, hl, hr, hb⟩
  forInDecl each kind d r b hd hr hb := by
    rw [Stmt.All]
    exact ⟨Stmt.reads_forInDecl each kind d r b (Declarator.reads_of_all hd) hr.self hb.self,
      hd, hr, hb⟩
  forOf l r b hl hr hb := by rw [Stmt.All]; exact ⟨Stmt.reads_forOf l r b, hl, hr, hb⟩
  forOfDecl kind d r b hd hr hb := by
    rw [Stmt.All]
    exact ⟨Stmt.reads_forOfDecl kind d r b, hd, hr, hb⟩
  breakStmt label := by rw [Stmt.All]; exact Stmt.reads_break label
  continueStmt label := by rw [Stmt.All]; exact Stmt.reads_continue label
  returnStmt o h := by rw [Stmt.All]; exact ⟨Stmt.reads_return o fun e he => (h e he).self, h⟩
  withStmt o b ho hb := by rw [Stmt.All]; exact ⟨Stmt.reads_with o b, ho, hb⟩
  labeled label b h := by rw [Stmt.All]; exact ⟨Stmt.reads_labeled label b h.self, h⟩
  switchStmt d cs hd hc := by
    rw [Stmt.All]
    exact ⟨Stmt.reads_switch d cs hd.self fun c h => SwitchCase.reads_of_all (hc c h), hd, hc⟩
  throwStmt e h := by rw [Stmt.All]; exact ⟨Stmt.reads_throw e h.self, h⟩
  tryStmt b gs h f hb hg hh hf := by
    rw [Stmt.All]
    exact ⟨Stmt.reads_try b gs h f (Block.reads_of_all hb)
      (fun c hc => CatchClause.reads_of_all (hh c hc)) fun b hb => Block.reads_of_all (hf b hb),
      hb, hg, hh, hf⟩
  debugger := by rw [Stmt.All]; exact Stmt.reads_debugger
  switchCase test ss ht hs := by rw [SwitchCase.All]; exact ⟨ht, hs⟩
  catchClause param guard b hg hb := by rw [CatchClause.All]; exact ⟨hg, hb⟩
  body ss h := by rw [Block.All]; exact h

theorem Expr.reads (e : Expr) : e.Reads := (reads_inductive.expr e).self

theorem Stmt.reads (s : Stmt) : s.Reads := (reads_inductive.stmt s).self

end MetaMonkey.Frontend
