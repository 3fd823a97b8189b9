import MetaMonkey.Frontend.ReadsBack

/-!
An `in` outside all brackets where the head of a `for` is read: the parser takes
it for the keyword of a `for` over properties. The printer leaves one there where
the first part is a `yield`.
-/

namespace MetaMonkey.Frontend

open Js Layout MetaMonkey.Frontend.Parser

/-- A production that returns does so before an `in`. -/
def StopsAtIn (x : Option (Expr × List Lexeme)) : Prop :=
  ∀ e s, x = some (e, s) → firstToken s = .kw .in

variable {k : ℕ} {q : Stmt → Prop}

theorem wrapIf_below {L c : ℕ} {ps : List Piece} (h : c < L) :
    wrapIf (decide (L ≤ c)) ps = ps := by
  simp [wrapIf, Nat.not_le.mpr h]

/-- The operators up to the first bare `in`. -/
theorem orExpr1_splits : ∀ (e : Expr) (c : ℕ), e.All Expr.Formed Stmt.Formed →
    e.All Expr.Reads q → 4 ≤ c → c < e.level → e.bareIn = true →
    ∀ stack rest, (∀ x ∈ stack.head?, Parser.precedence x.2 + 4 ≤ c) →
      StopsAtIn (orExpr1 true stack (meant (e.layout k c false) ++ rest))
  | .binary op left right, c, hall, hreads, hc, hlevel, hbare, stack, rest, hstack => by
      have hprec := layout_precedence op
      have hpos := precedence_pos op
      have hbound : Parser.precedence op ≤ 10 := by cases op <;> simp [Parser.precedence]
      simp only [Expr.level] at hlevel
      obtain ⟨t, hop, hfirst, hafter⟩ := binaryOp_token op
      rw [Expr.All] at hall hreads
      obtain ⟨⟨hleft, hright⟩, hallLeft, hallRight⟩ := hall
      obtain ⟨-, hreadsLeft, hreadsRight⟩ := hreads
      have hwraps : wrapsOp op c false = false := by
        simp [wrapsOp]
        omega
      rw [Expr.layout, hwraps]
      simp only [wrapIf, Bool.false_and, Bool.false_eq_true, if_false, meant_append, meant_space,
        meant_lexeme, List.append_assoc, List.cons_append, List.nil_append]
      by_cases hl : Layout.precedence op - 1 < left.level ∧ left.bareIn = true
      · exact orExpr1_splits left (Layout.precedence op - 1) hallLeft hreadsLeft
          (by omega) hl.1 hl.2
          stack _ fun x hx => by have := hstack x hx; omega
      · have hguard : Guarded true false (Layout.precedence op - 1) left :=
          guarded_child (by omega) fun _ => by
            by_cases hlt : Layout.precedence op - 1 < left.level
            · exact Or.inr (Or.inr (by simpa [hlt] using hl))
            · exact Or.inr (Or.inl hlt)
        obtain ⟨m, hm⟩ := (hreadsLeft.self hallLeft hleft k _ false true false hguard
          (bounded_false _ _ _)).or (by omega)
        have hrank : Stops true (Layout.precedence op)
            (op.lexeme :: (meant (right.layout k (Layout.precedence op) false) ++ rest)) := by
          simp only [Stops, hfirst]
          by_cases hin : op = .in
          · subst hin
            have ht : t = .kw .in := by rw [← hfirst []]; exact firstToken_keyword _ _
            simp [ht, rank]
          · rw [rank_binaryOp (hop true fun _ => hin)]
            omega
        have hread := hm stack _ (fun x hx => by have := hstack x hx; omega)
          (hrank.mono (by omega)) (hrank.mono (by omega))
        rw [hread]
        cases hx : left.readBack with
        | none => simp [StopsAtIn]
        | some x =>
            rw [Option.bind_some]
            by_cases hin : op = .in
            · subst hin
              have ht : t = .kw .in := by rw [← hfirst []]; exact firstToken_keyword _ _
              intro e s hes
              rw [orRest, Parser.bind_apply] at hes
              simp only [peekToken_apply, Option.bind_some, firstToken_eols, hfirst, ht,
                binaryOp?, if_true, Parser.pure_apply, Option.some.injEq, Prod.mk.injEq] at hes
              rw [← hes.2, firstToken_eols, hfirst, ht]
            · have hr : Layout.precedence op < right.level ∧ right.bareIn = true := by
                simp only [Expr.bareIn, Bool.or_eq_true, Bool.and_eq_true, decide_eq_true_eq]
                  at hbare
                obtain (hbare | hbare) | hbare := hbare
                · exact absurd hbare hin
                · exact absurd ⟨by omega, hbare.2⟩ hl
                · exact hbare
              have hpush : orRest true stack x (eols m ++ (op.lexeme ::
                    (meant (right.layout k (Layout.precedence op) false) ++ rest))) =
                  orExpr1 true ((x, op) :: stack)
                    (meant (right.layout k (Layout.precedence op) false) ++ rest) := by
                rw [orRest_push op (by rw [firstToken_eols, hfirst, hop true fun _ => hin])
                  (fun y hy => by have := hstack y hy; omega), afterToken_eols, hafter]
              rw [hpush]
              exact orExpr1_splits right (Layout.precedence op) hallRight hreadsRight
                (by omega) hr.1 hr.2
                _ _ (by simp; omega)
  | .assign _ _ _, c, _, _, hc, hlevel, _, _, _, _ => by simp [Expr.level] at hlevel; omega
  | .cond _ _ _, c, _, _, hc, hlevel, _, _, _, _ => by simp [Expr.level] at hlevel; omega

/-- The productions above the operators stop where the operators do. -/
theorem condExpr1_splits {ts : List Lexeme} (h : StopsAtIn (orExpr1 true [] ts)) :
    StopsAtIn (condExpr1 true ts) := by
  intro e s hes
  rw [condExpr1, Parser.bind_apply] at hes
  cases hor : orExpr1 true [] ts with
  | none => simp [hor] at hes
  | some p =>
      obtain ⟨x, u⟩ := p
      have hu := h x u hor
      simp only [hor, Option.bind_some, Parser.bind_apply, matchToken_apply, hu, reduceCtorEq,
        if_false,
        Bool.false_eq_true, Parser.pure_apply, Option.some.injEq, Prod.mk.injEq] at hes
      rwa [← hes.2]

theorem assignExpr_of_condExpr1 {ts : List Lexeme} (hstart : StartsOr ts) {rest : List Lexeme}
    (h : StopsAtIn (condExpr1 true (ts ++ rest))) : StopsAtIn (assignExpr true (ts ++ rest)) := by
  intro e s hes
  rw [assignExpr, Parser.bind_apply, matchToken_apply, firstToken_append hstart.not_eof] at hes
  simp only [hstart.not_yield, if_false, Option.bind_some, Bool.false_eq_true, Parser.bind_apply]
    at hes
  cases hcond : condExpr1 true (ts ++ rest) with
  | none => simp [hcond] at hes
  | some p =>
      obtain ⟨x, u⟩ := p
      have hu := h x u hcond
      simp [hcond, hu, assignOp?] at hes
      rw [← hes.2, hu]

/-- The consequent of a conditional, which is followed by a colon. -/
theorem consequent_reads {consequent : Expr} {n : Bool} (hreads : consequent.All Expr.Reads q)
    (hall : consequent.All Expr.Formed Stmt.Formed) (he : consequent.isElision = false)
    (rest : List Lexeme) :
    ∃ (x : Option Expr) (s : List Lexeme),
      assignExpr false (meant (consequent.layout k 0 n) ++ .punct .colon :: rest) =
          x.map (fun e => (e, s)) ∧
        (firstToken s = .punct .comma ∨ ∃ j, s = eols j ++ .punct .colon :: rest) := by
  cases hsequence : consequent.isSequence with
  | true =>
      obtain ⟨es, rfl⟩ : ∃ es, consequent = .sequence es := by
        cases consequent <;> simp_all [Expr.isSequence]
      rw [Expr.All] at hall hreads
      obtain ⟨⟨hlength, helision⟩, hallEs⟩ := hall
      obtain ⟨-, hreadsEs⟩ := hreads
      obtain ⟨e, e', es', rfl⟩ : ∃ e e' es', es = e :: e' :: es' := by
        rcases es with _ | ⟨e, _ | ⟨e', es'⟩⟩
        · simp at hlength
        · simp at hlength
        · exact ⟨e, e', es', rfl⟩
      obtain ⟨x, s, hx, hs⟩ := assignExpr_sequence e' es' (hreadsEs e (by simp)).self
        (hallEs e (by simp)) (helision e (by simp)) k n (.punct .colon :: rest)
      exact ⟨x, s, hx, Or.inl hs⟩
  | false =>
      obtain ⟨j, hj⟩ := (hreads.self.outside hall he k 0 n).assign
        (.inr (by simp [hsequence]))
      exact ⟨_, _, hj _ (by simp [Stops, rank]), Or.inr ⟨j, rfl⟩⟩

theorem assignExpr_splits : ∀ (e : Expr) (c : ℕ), e.All Expr.Formed Stmt.Formed →
    e.All Expr.Reads q → 2 ≤ c → c < e.level → e.bareIn = true →
    ∀ rest, StopsAtIn (assignExpr true (meant (e.layout k c false) ++ rest))
  | .binary op left right, c, hall, hreads, hc, hlevel, hbare, rest => by
      have hprec := layout_precedence op
      have hpos := precedence_pos op
      have hall' := hall
      rw [Expr.All] at hall'
      have hstart := ((Expr.binary op left right).layout_begins k (max c 4) false hall rfl).startsOr
        (by omega)
      simp only [Expr.level] at hlevel
      -- the context makes no difference below the precedence of the operator
      have hlayout : (Expr.binary op left right).layout k c false =
          (Expr.binary op left right).layout k (max c 4) false := by
        have hwraps : ∀ d, d < Layout.precedence op → wrapsOp op d false = false := by
          intro d hd
          simp [wrapsOp]
          omega
        rw [Expr.layout, Expr.layout, hwraps c hlevel, hwraps (max c 4) (by omega)]
      rw [hlayout]
      exact assignExpr_of_condExpr1 hstart (condExpr1_splits (orExpr1_splits _ (max c 4) hall hreads
        (le_max_right c 4) (by simp only [Expr.level]; omega) hbare [] rest (by simp)))
  | .assign op left right, c, hall, hreads, hc, hlevel, hbare, rest => by
      simp only [Expr.level] at hlevel
      simp only [Expr.bareIn, Bool.and_eq_true, decide_eq_true_eq] at hbare
      rw [Expr.All] at hall hreads
      obtain ⟨⟨href, hright⟩, hallLeft, hallRight⟩ := hall
      obtain ⟨-, hreadsLeft, hreadsRight⟩ := hreads
      have hmember := hreadsLeft.self.reference (c := 3) (n := false) (k := k) href hallLeft
        (by omega)
      have hstart := layout_startsOperand (c := 3) (n := false) (k := k) hallLeft href (by omega)
      have hmore := assignExpr_splits right 2 hallRight hreadsRight le_rfl hbare.1 hbare.2 rest
      have hop := assignOp_punct op
      have hrank : Stops true 3 (.punct op.punct :: (meant (right.layout k 2 false) ++ rest)) :=
        le_of_eq (rank_assignOp hop)
      have hleft := orExpr1_operand hmember hstart (hrank.mono (by omega))
      have hhook : Token.punct op.punct ≠ .punct .hook := hook_ne hrank
      intro e s hes
      rw [Expr.layout, wrapIf_below hlevel] at hes
      simp only [meant_append, meant_space, meant_punct, List.append_assoc, List.cons_append,
        List.nil_append] at hes
      rw [assignExpr, Parser.bind_apply, matchToken_apply, firstToken_append hstart.not_eof] at hes
      simp only [hstart.not_yield, if_false, Option.bind_some, Bool.false_eq_true,
        Parser.bind_apply] at hes
      rw [condExpr1, Parser.bind_apply, hleft] at hes
      cases hx : left.readBack with
      | none => simp [hx] at hes
      | some x =>
          simp only [hx, Option.map_some, Option.bind_some, Parser.bind_apply, matchToken_apply,
            firstToken_punct, hhook, if_false, Bool.false_eq_true, Parser.pure_apply,
              peekToken_apply,
            hop, getToken_apply, afterToken_punct, readBack_reference href x hx, require_true]
              at hes
          cases hright : assignExpr true (meant (right.layout k 2 false) ++ rest) with
          | none => simp [hright] at hes
          | some p =>
              obtain ⟨y, u⟩ := p
              simp only [hright, Option.bind_some, Option.some.injEq, Prod.mk.injEq] at hes
              rw [← hes.2]
              exact hmore y u hright
  | .cond test consequent alternate, c, hall, hreads, hc, hlevel, hbare, rest => by
      simp only [Expr.level] at hlevel
      rw [Expr.All] at hall hreads
      obtain ⟨⟨htest, hconsequent, halternate⟩, hallTest, hallConsequent, hallAlternate⟩ := hall
      obtain ⟨-, hreadsTest, hreadsConsequent, hreadsAlternate⟩ := hreads
      have hstart := (test.layout_begins k 4 false hallTest htest).startsOr (by omega)
      rw [Expr.layout, wrapIf_below hlevel]
      simp only [meant_append, meant_punct, List.append_assoc, List.cons_append]
      apply assignExpr_of_condExpr1 hstart
      by_cases ht : 4 < test.level ∧ test.bareIn = true
      · exact condExpr1_splits (orExpr1_splits test 4 hallTest hreadsTest le_rfl ht.1 ht.2 [] _
          (by simp))
      · have ha : 3 < alternate.level ∧ alternate.bareIn = true := by
          simp only [Expr.bareIn, Bool.or_eq_true, Bool.and_eq_true, decide_eq_true_eq] at hbare
          obtain hbare | hbare := hbare
          · exact absurd hbare ht
          · exact hbare
        have hmore := assignExpr_splits alternate 3 hallAlternate hreadsAlternate
          (by omega) ha.1 ha.2 rest
        have hguard : Guarded true false 4 test := guarded_child (by omega) fun _ => by
          by_cases hlt : 4 < test.level
          · exact Or.inr (Or.inr (by simpa [hlt] using ht))
          · exact Or.inr (Or.inl hlt)
        obtain ⟨m, hm⟩ := (hreadsTest.self hallTest htest k 4 false true false hguard
          (bounded_false _ _ _)).or le_rfl
        have hread := hm [] (.punct .hook :: (meant (consequent.layout k 0 false) ++
          .punct .colon :: (meant (alternate.layout k 3 false) ++ rest))) (by simp)
          (by simp [Stops, rank]) (by simp [Stops, rank])
        intro e s hes
        rw [condExpr1, Parser.bind_apply, hread] at hes
        cases hx : test.readBack with
        | none => simp [hx] at hes
        | some x =>
            have hor : orRest true [] x (eols m ++ .punct .hook ::
                  (meant (consequent.layout k 0 false) ++
                    .punct .colon :: (meant (alternate.layout k 3 false) ++ rest))) =
                some (x, eols m ++ .punct .hook :: (meant (consequent.layout k 0 false) ++
                  .punct .colon :: (meant (alternate.layout k 3 false) ++ rest))) :=
              orRest_stop ((stops_eols m).mpr (by simp [Stops, rank])) [] x
            simp only [hx, Option.bind_some, hor, Parser.bind_apply, matchToken_apply,
              firstToken_eols,
              firstToken_punct, if_true, afterToken_eols, afterToken_punct] at hes
            obtain ⟨y, u, hthen⟩ := consequent_reads (k := k)
              (n := false) hreadsConsequent hallConsequent
              hconsequent (meant (alternate.layout k 3 false) ++ rest)
            obtain ⟨hthen, hcolon⟩ := hthen
            rw [hthen] at hes
            cases y with
            | none => simp at hes
            | some y =>
                obtain hcolon | hcolon := hcolon
                · simp [mustMatchToken_apply, hcolon] at hes
                · obtain ⟨j, rfl⟩ := hcolon
                  simp only [Option.map_some, Option.bind_some, mustMatchToken_eols] at hes
                  cases halt : assignExpr true (meant (alternate.layout k 3 false) ++ rest) with
                  | none => simp [halt] at hes
                  | some p =>
                      obtain ⟨z, v⟩ := p
                      simp only [halt, Option.bind_some, Parser.pure_apply, Option.some.injEq,
                        Prod.mk.injEq] at hes
                      rw [← hes.2]
                      exact hmore z v halt
  | .sequence _, c, _, _, _, _, hbare, _ => by simp [Expr.bareIn] at hbare

/-- The argument of a `yield` is read like that of its text alone. -/
theorem yieldExpression_begins {c : ℕ} {ps : List Piece} (h : Begins c ps) (hc : 1 ≤ c)
    (rest : List Lexeme) : yieldExpression true (meant ps ++ rest) =
      (assignExpr true (meant ps ++ rest)).map fun x => (.yieldExpr (some x.1), x.2) := by
  have hends := h.endsYield hc
  have hsame : ((meant ps ++ rest).head? = some .eol) = False := by
    have heol := h.head_ne_eol
    have heof := h.not_eof
    cases hps : meant ps with
    | nil => exact absurd (by rw [hps]; rfl) heof
    | cons l s => simpa [hps] using heol
  rw [yieldExpression]
  simp only [Parser.bind_apply, peekTokenSameLine_apply, hsame, if_false, Option.bind_some,
    firstToken_append h.not_eof]
  revert hends
  fun_cases endsYield (firstToken (meant ps)) <;> simp_all [Parser.bind_apply]
  cases assignExpr true (meant ps ++ rest) <;> rfl

/-- Such a `yield` is taken for what is before the keyword of a `for` over properties. -/
theorem forInit_splits {argument : Expr} (hall : argument.All Expr.Formed Stmt.Formed)
    (he : argument.isElision = false) (hreads : argument.All Expr.Reads q)
    (hsplits : (Expr.yieldExpr (some argument)).splitsHead = true) (rest : List Lexeme)
    {i : ForInit} {s : List Lexeme}
    (h : forInit (meant ((Expr.yieldExpr (some argument)).layout k 0 true) ++ rest) =
      some (i, s)) : firstToken s = .kw .in ∧ ∃ x, i = .expression (.yieldExpr x) := by
  simp only [Expr.splitsHead, Bool.and_eq_true, decide_eq_true_eq] at hsplits
  have hbegins := argument.layout_begins k 2 false hall he
  have hargument : StopsAtIn (assignExpr true (meant (argument.layout k 2 false) ++ rest)) :=
    assignExpr_splits argument 2 hall hreads le_rfl hsplits.1 hsplits.2 rest
  rw [Expr.layout, wrapIf_below (by omega), optionalLayout] at h
  simp only [List.cons_append, List.nil_append, meant_keyword] at h
  rw [forInit] at h
  simp only [Parser.bind_apply, peekToken_apply, Option.bind_some, firstToken_keyword] at h
  rw [Parser.expr, Parser.bind_apply, assignExpr] at h
  simp only [Parser.bind_apply, matchToken_apply, firstToken_keyword, if_true, Option.bind_some,
    afterToken_keyword, yieldExpression_begins hbegins (by omega)] at h
  cases hread : assignExpr true (meant (argument.layout k 2 false) ++ rest) with
  | none => simp [hread] at h
  | some x =>
      have hin := hargument x.1 x.2 hread
      simp [hread, hin] at h
      exact ⟨by rw [← h.2, hin], _, h.1.symm⟩

theorem statement_splits {e : Expr} (hall : e.All Expr.Formed Stmt.Formed)
    (hreads : e.All Expr.Reads q) (hsplits : e.splitsHead = true) (scope : Scope)
    (rest : List Lexeme) :
    statement scope (.keyword .for :: .punct .lp :: (meant (e.layout k 0 true) ++ rest)) =
      none := by
  obtain ⟨argument, rfl⟩ : ∃ argument, e = .yieldExpr (some argument) := by
    match e, hsplits with
    | .yieldExpr (some argument), _ => exact ⟨argument, rfl⟩
  rw [Expr.All] at hall hreads
  rw [statement]
  simp only [Parser.bind_apply, peekToken_apply, Option.bind_some, firstToken_keyword,
    getToken_apply,
    afterToken_keyword]
  rw [forStatement]
  simp only [Parser.bind_apply, matchToken_apply, firstToken_punct, reduceCtorEq, if_false,
    Option.bind_some, mustMatchToken_apply, if_true, afterToken_punct]
  cases hinit : forInit (meant ((Expr.yieldExpr (some argument)).layout k 0 true) ++ rest) with
  | none => rfl
  | some p =>
      obtain ⟨i, s⟩ := p
      obtain ⟨hin, x, rfl⟩ := forInit_splits (hall.2 argument rfl) (hall.1 argument rfl)
        (hreads.2 argument rfl)
        hsplits rest hinit
      -- a `yield` may not be assigned to
      have hfails : ∀ (r : Expr) (b : Stmt) (u : List Lexeme),
          forEachResult false false (.expression (.yieldExpr x)) r b u = none := fun r b u => rfl
      have hmatch : isForInOrOf (.expression (.yieldExpr x)) s =
          some (some false, afterToken s) := by
        simp only [isForInOrOf, matchInOrOf, Parser.bind_apply, peekToken_apply, Option.bind_some,
          hin]
        rfl
      simp only [Option.bind_some, Parser.bind_apply, hmatch]
      simp [hfails]

end MetaMonkey.Frontend
