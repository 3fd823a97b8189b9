import MetaMonkey.Frontend.ReadBack

/-!
The lexemes of the layouts, and the pieces an expression begins with.
-/

namespace MetaMonkey.Frontend

open Js Layout MetaMonkey.Frontend.Parser

/-! ### Lexemes of pieces -/

section

variable (ps qs : List Piece)

@[simp] theorem meant_nil : meant [] = [] := rfl

@[simp] theorem meant_space : meant (.space :: ps) = meant ps := rfl

@[simp] theorem meant_lexeme (l : Lexeme) : meant (.lexeme l :: ps) = l :: meant ps := rfl

@[simp] theorem meant_punct (p : Punct) : meant (punct p :: ps) = .punct p :: meant ps := rfl

@[simp] theorem meant_word (w : JSString) : meant (word w :: ps) = .word w :: meant ps := rfl

@[simp] theorem meant_keyword (k : Keyword) : meant (keyword k :: ps) = .keyword k :: meant ps :=
  rfl

@[simp] theorem meant_eol : meant (eol :: ps) = .eol :: meant ps := rfl

@[simp] theorem meant_append : meant (ps ++ qs) = meant ps ++ meant qs :=
  List.filterMap_append

@[simp] theorem meant_spaces (k : ℕ) : meant (spaces k) = [] := by
  simp [meant, spaces, Piece.lexeme?]

@[simp] theorem meant_parens :
    meant (parens ps) = .punct .lp :: (meant ps ++ [.punct .rp]) := by
  simp [parens]

theorem meant_wrapIf (b : Bool) :
    meant (wrapIf b ps) = if b then .punct .lp :: meant ps ++ [.punct .rp] else meant ps := by
  cases b <;> simp [wrapIf]

theorem meant_flatten (pss : List (List Piece)) :
    meant pss.flatten = (pss.map meant).flatten := by
  induction pss with
  | nil => rfl
  | cons ps pss ih => simp [ih]

theorem meant_separate {sep : List Piece} (h : meant sep = [.punct .comma])
    (pss : List (List Piece)) : meant (separate sep pss) = commas (pss.map meant) := by
  induction pss with
  | nil => rfl
  | cons ps pss ih =>
      cases pss with
      | nil => simp [separate, List.intercalate_singleton, commas]
      | cons qs pss =>
          rw [separate, List.intercalate_cons_cons, meant_append, meant_append, h]
          simp only [separate] at ih
          rw [ih, List.append_assoc]
          rfl

theorem meant_arrayElements (first : Bool) (xs : List (Option (List Piece))) :
    meant (arrayElements first xs) = arrayLexemes (xs.map (Option.map meant)) := by
  have hfirst : ∀ b : Bool, meant (if b then [] else [.space]) = [] := by
    intro b
    cases b <;> rfl
  fun_induction arrayElements first xs with
  | case1 => rfl
  | case2 => rfl
  | case3 first ps => simp [hfirst, arrayLexemes]
  | case4 first rest hne ih => simp [arrayLexemes, ih]
  | case5 first ps rest hne ih =>
      cases rest with
      | nil => exact absurd rfl hne
      | cons x rest => simp [hfirst, arrayLexemes, ih]

theorem meant_functionHead (id : Option JSString) (params : List JSString) :
    meant (functionHead id params) = .keyword .function :: headLexemes id params := by
  have hparams : meant (separate [punct .comma, .space] (params.map fun w => [word w])) =
      commas (params.map fun w => [.word w]) := by
    rw [meant_separate rfl, List.map_map]
    rfl
  cases id <;> simp [functionHead, headLexemes, hparams]

end

/-! ### The beginning of an expression -/

def headIsWord : List Piece → Bool
  | .lexeme (.word _) :: _ => true
  | _ => false

theorem headIsWord_append {ps qs : List Piece} (h : ps ≠ []) :
    headIsWord (ps ++ qs) = headIsWord ps := by
  cases ps with
  | nil => exact absurd rfl h
  | cons b ps =>
      match b with
      | .space => rfl
      | .lexeme .eol => rfl
      | .lexeme (.punct _) => rfl
      | .lexeme (.word _) => rfl

/-- How the text of an expression begins in a context. -/
inductive Begins (c : ℕ) : List Piece → Prop
  | name {w : JSString} {ps : List Piece} (hw : isName w = true)
      (hps : firstToken (meant ps) ≠ .punct .colon) (hword : headIsWord ps = false) :
      Begins c (word w :: ps)
  | this (ps : List Piece) : Begins c (keyword .this :: ps)
  | bracket {p : Punct} (hp : p = .lp ∨ p = .lb ∨ p = .lc) (ps : List Piece) :
      Begins c (punct p :: ps)
  | new (ps : List Piece) : Begins c (keyword .new :: ps)
  | function (hc : c ≤ 2) (ps : List Piece) : Begins c (keyword .function :: .space :: ps)
  | letHead (hc : c ≤ 2) (ps : List Piece) :
      Begins c (keyword .var :: .space :: punct .lp :: ps)
  | unary (hc : c ≤ 14) (op : UnaryOp) (ps : List Piece) : Begins c (.lexeme op.lexeme :: ps)
  | update (hc : c ≤ 14) (op : UpdateOp) (ps : List Piece) : Begins c (punct op.punct :: ps)
  | yield (hc : c = 0) (ps : List Piece) : Begins c (keyword .yield :: ps)

theorem Begins.append {c c' : ℕ} {ps qs : List Piece} (h : Begins c ps)
    (hqs : firstToken (meant qs) ≠ .punct .colon) (hword : headIsWord qs = false) (hc : c' ≤ c) :
    Begins c' (ps ++ qs) := by
  cases h with
  | @name w ps hw hps hword' =>
      refine .name hw ?_ ?_
      · show firstToken (meant (ps ++ qs)) ≠ _
        rw [meant_append]
        exact firstToken_append_ne hps hqs
      · cases ps with
        | nil => exact hword
        | cons b ps => exact (headIsWord_append (by simp)).trans hword'
  | this ps => exact .this _
  | bracket hp ps => exact .bracket hp _
  | new ps => exact .new _
  | function hc' ps => exact .function (le_trans hc hc') _
  | letHead hc' ps => exact .letHead (le_trans hc hc') _
  | unary hc' op ps => exact .unary (le_trans hc hc') op _
  | update hc' op ps => exact .update (le_trans hc hc') op _
  | yield hc' ps => exact .yield (by omega) _

theorem Begins.wrapIf {c : ℕ} {ps : List Piece} {b : Bool} (h : b = false → Begins c ps) :
    Begins c (wrapIf b ps) := by
  cases b with
  | false => exact h rfl
  | true => exact .bracket (.inl rfl) _

/-- The tokens that an expression begins with in a context. -/
def startToken (c : ℕ) : Token → Bool
  | .name _ | .kw .this | .kw .new | .punct .lp | .punct .lb | .punct .lc => true
  | .kw .function | .kw .var => c ≤ 2
  | .kw .delete | .kw .typeof | .kw .void | .punct .minus | .punct .plus | .punct .not
  | .punct .bitnot | .punct .inc | .punct .dec => c ≤ 14
  | .kw .yield => c = 0
  | _ => false

theorem keyword?_of_isName {w : JSString} (h : isName w = true) : keyword? w = none := by
  simp only [isName, Bool.and_eq_true, Option.isNone_iff_eq_none] at h
  exact h.2

section

variable {c : ℕ} {ps : List Piece}

theorem Begins.startToken (h : Begins c ps) : startToken c (firstToken (meant ps)) = true := by
  cases h with
  | name hw hps hword =>
      rw [meant_word, firstToken_word (keyword?_of_isName hw)]
      rfl
  | this ps => simp [Frontend.startToken]
  | bracket hp ps => obtain rfl | rfl | rfl := hp <;> rfl
  | new ps => simp [Frontend.startToken]
  | function hc ps => simp [Frontend.startToken, hc]
  | letHead hc ps => simp [Frontend.startToken, hc]
  | unary hc op ps => cases op <;> simp [UnaryOp.lexeme, Frontend.startToken, hc]
  | update hc op ps => cases op <;> simp [UpdateOp.punct, Frontend.startToken, hc]
  | yield hc ps => simp [Frontend.startToken, hc]

theorem Begins.not_eof (h : Begins c ps) : firstToken (meant ps) ≠ .eof := by
  intro heq
  simpa [heq, Frontend.startToken] using h.startToken

theorem Begins.not_closing (h : Begins c ps) {p : Punct}
    (hp : p = .rp ∨ p = .rb ∨ p = .comma ∨ p = .semi) : firstToken (meant ps) ≠ .punct p := by
  intro heq
  have hstart := h.startToken
  rw [heq] at hstart
  obtain rfl | rfl | rfl | rfl := hp <;> simp [Frontend.startToken] at hstart

theorem Begins.startsOr (h : Begins c ps) (hc : 1 ≤ c) : StartsOr (meant ps) where
  not_yield heq := by
    have hstart := h.startToken
    simp only [heq, Frontend.startToken, decide_eq_true_eq] at hstart
    omega
  not_eof := h.not_eof

theorem Begins.startsOperand (h : Begins c ps) (hc : 15 ≤ c) : StartsOperand (meant ps) := by
  have hstart := h.startToken
  refine ⟨?_, ?_, (h.startsOr (by omega)).not_yield, h.not_eof⟩
  · revert hstart
    fun_cases unaryOp? (firstToken (meant ps)) <;> simp [Frontend.startToken, *]
    all_goals omega
  · revert hstart
    fun_cases updateOp? (firstToken (meant ps)) <;> simp [Frontend.startToken, *]
    all_goals omega

theorem Begins.endsReturn (h : Begins c ps) : endsReturn (firstToken (meant ps)) = false := by
  have hstart := h.startToken
  revert hstart
  fun_cases Parser.endsReturn (firstToken (meant ps)) <;> simp [Frontend.startToken, *]

theorem Begins.endsYield (h : Begins c ps) (hc : 1 ≤ c) :
    endsYield (firstToken (meant ps)) = false := by
  have hstart := h.startToken
  revert hstart
  fun_cases Parser.endsYield (firstToken (meant ps)) <;> simp [Frontend.startToken, *]
  omega

theorem Begins.head_ne_eol (h : Begins c ps) : (meant ps).head? ≠ some .eol := by
  cases h with
  | unary hc op ps => cases op <;> simp [UnaryOp.lexeme, Lexeme.keyword]
  | _ => simp [Lexeme.keyword]

theorem Begins.not_lc (h : Begins c ps) (hblock : startsLikeBlock ps = false) :
    firstToken (meant ps) ≠ .punct .lc := by
  cases h with
  | name hw hps hword => simp [firstToken_word (keyword?_of_isName hw)]
  | this ps => simp
  | bracket hp ps =>
      obtain rfl | rfl | rfl := hp
      · simp
      · simp
      · simp [startsLikeBlock, punct] at hblock
  | new ps => simp
  | function hc ps => simp
  | letHead hc ps => simp
  | unary hc op ps => cases op <;> simp [UnaryOp.lexeme]
  | update hc op ps => cases op <;> simp [UpdateOp.punct]
  | yield hc ps => simp

/-- A name is not followed by a colon, as it is in a label. -/
theorem Begins.second_ne_colon (h : Begins c ps) {w : JSString}
    (hw : firstToken (meant ps) = .name w) {rest : List Lexeme}
    (hrest : firstToken rest ≠ .punct .colon) :
    firstToken (afterToken (meant ps ++ rest)) ≠ .punct .colon := by
  cases h with
  | @name v qs hv hps hword =>
      rw [meant_word, List.cons_append, afterToken_word]
      exact firstToken_append_ne hps hrest
  | this ps => simp at hw
  | bracket hp ps => simp at hw
  | new ps => simp at hw
  | function hc ps => simp at hw
  | letHead hc ps => simp at hw
  | unary hc op ps => cases op <;> simp [UnaryOp.lexeme] at hw
  | update hc op ps => simp at hw
  | yield hc ps => simp at hw

end

theorem isElision_of_reference {e : Expr} (h : isReference e = true) : e.isElision = false := by
  cases e <;> simp_all [isReference, Expr.isElision]

theorem Expr.layout_begins (k : ℕ) : ∀ (e : Expr) (c : ℕ) (n : Bool),
    e.All Expr.Formed Stmt.Formed → e.isElision = false → Begins c (e.layout k c n)
  | .identifier name, c, n, h, _ => by
      rw [Expr.All] at h
      rw [Expr.layout]
      exact .name h (by simp [firstToken]) rfl
  | .thisExpr, c, n, _, _ => by
      rw [Expr.layout]
      exact .this []
  | .elision, c, n, _, he => by simp [isElision] at he
  | .array elements, c, n, _, _ => by
      rw [Expr.layout]
      exact .bracket (.inr (.inl rfl)) _
  | .object properties, c, n, _, _ => by
      rw [Expr.layout]
      exact .bracket (.inr (.inr rfl)) _
  | .unary op argument, c, n, _, _ => by
      rw [Expr.layout]
      exact .wrapIf fun hb => .unary (by simp at hb; omega) op _
  | .update op before argument, c, n, h, _ => by
      rw [Expr.All] at h
      rw [Expr.layout]
      refine .wrapIf fun hb => ?_
      have hc : c ≤ 14 := by simp at hb; omega
      cases before with
      | true => exact .update hc op _
      | false =>
          have harg := argument.layout_begins k 15 false h.2 (isElision_of_reference h.1)
          exact harg.append (by cases op <;> simp [UpdateOp.punct]) rfl (by omega)
  | .binary op left right, c, n, h, _ => by
      rw [Expr.All] at h
      rw [Expr.layout]
      refine .wrapIf fun hb => ?_
      have hc : c ≤ Layout.precedence op - 1 := by
        simp [wrapsOp] at hb
        omega
      rw [List.append_assoc]
      exact (left.layout_begins k _ _ h.2.1 h.1.1).append (by cases op <;> simp [BinaryOp.lexeme])
        rfl hc
  | .assign op left right, c, n, h, _ => by
      rw [Expr.All] at h
      rw [Expr.layout]
      refine .wrapIf fun hb => ?_
      have hc : c ≤ 3 := by simp at hb; omega
      rw [List.append_assoc]
      exact (left.layout_begins k 3 n h.2.1 (isElision_of_reference h.1.1)).append
        (by cases op <;> simp [AssignOp.punct]) rfl hc
  | .cond test consequent alternate, c, n, h, _ => by
      rw [Expr.All] at h
      rw [Expr.layout]
      refine .wrapIf fun hb => ?_
      have hc : c ≤ 4 := by simp at hb; omega
      rw [List.append_assoc]
      exact (test.layout_begins k 4 n h.2.1 h.1.1).append (by simp) rfl hc
  | .call callee args, c, n, h, _ => by
      rw [Expr.All] at h
      rw [Expr.layout]
      refine .wrapIf fun hb => ?_
      have hc : c ≤ 17 := by simp at hb; omega
      exact (callee.layout_begins k 17 false h.2.1 h.1.1).append (by simp) rfl hc
  | .newExpr callee args, c, n, _, _ => by
      rw [Expr.layout]
      exact .wrapIf fun _ => .new _
  | .member obj property, c, n, h, _ => by
      rw [Expr.All] at h
      rw [Expr.layout]
      refine .wrapIf fun hb => ?_
      have hc : c ≤ 17 := by simp at hb; omega
      exact (obj.layout_begins k 17 false h.2 h.1.1).append (by simp) rfl hc
  | .index obj property, c, n, h, _ => by
      rw [Expr.All] at h
      rw [Expr.layout]
      refine .wrapIf fun hb => ?_
      have hc : c ≤ 17 := by simp at hb; omega
      rw [List.append_assoc]
      exact (obj.layout_begins k 17 false h.2.1 h.1.1).append (by simp) rfl hc
  | .sequence [], c, n, h, _ => by
      rw [Expr.All] at h
      simp [Expr.Formed] at h
  | .sequence [e], c, n, h, _ => by
      rw [Expr.All] at h
      simp [Expr.Formed] at h
  | .sequence (e :: e' :: es), c, n, h, _ => by
      rw [Expr.All] at h
      rw [Expr.layout]
      refine .wrapIf fun hb => ?_
      have hc : c ≤ 2 := by simp at hb; omega
      rw [List.map_cons, List.map_cons, separate, List.intercalate_cons_cons, List.append_assoc]
      exact (e.layout_begins k 2 n (h.2 e (by simp)) (h.1.2 e (by simp))).append
        (by simp) rfl hc
  | .yieldExpr argument, c, n, _, _ => by
      rw [Expr.layout]
      exact .wrapIf fun hb => .yield (by simp at hb; omega) _
  | .letExpr head body, c, n, _, _ => by
      rw [Expr.layout]
      exact .wrapIf fun hb => .letHead (by simp at hb; omega) _
  | .function id params body, c, n, _, _ => by
      rw [Expr.layout]
      exact .wrapIf fun hb => .function (by simp at hb; omega) _
  | .closure id params body, c, n, _, _ => by
      rw [Expr.layout]
      exact .wrapIf fun hb => .function (by simp at hb; omega) _

end MetaMonkey.Frontend
