import MetaMonkey.Frontend.Reading

/-!
One rule for each production of an expression: how lists that are read as the
parts make a list that is read as the whole.
-/

namespace MetaMonkey.Frontend

namespace Parser

variable {fi fj : Bool} {c : ℕ} {ts tl tr : List Lexeme} {r rl rr : Option Expr}

/-- A list that begins like an expression, other than a `yield`. -/
structure StartsOr (ts : List Lexeme) : Prop where
  not_yield : firstToken ts ≠ .kw .yield
  not_eof : firstToken ts ≠ .eof

/-- An operator, between operands that bind tighter. -/
theorem OrReads.binary {op : BinaryOp} {t : Token} {l : Lexeme} (hop : binaryOp? fi t = some op)
    (hfirst : ∀ s, firstToken (l :: s) = t) (hafter : ∀ s, afterToken (l :: s) = s)
    (hl : OrReads fi (precedence op + 3) tl rl) (hr : OrReads fi (precedence op + 4) tr rr)
    (hc : c < precedence op + 4) :
    OrReads fi c (tl ++ l :: tr) (do return .binary op (← rl) (← rr)) := by
  obtain ⟨m, hm⟩ := hl
  obtain ⟨n, hn⟩ := hr
  refine ⟨n, fun stack rest hstack hrest hrest' => ?_⟩
  have hbound : precedence op ≤ 10 := by cases op <;> simp [precedence]
  have hrank : Stops fi (precedence op + 4) (l :: (tr ++ rest)) := by
    simp only [Stops, hfirst, rank_binaryOp hop, le_refl]
  have hleft := hm stack (l :: (tr ++ rest)) (fun x hx => by have := hstack x hx; omega) hrank
    (hrank.mono (by omega))
  rw [List.append_assoc, List.cons_append, hleft]
  cases rl with
  | none => rfl
  | some x =>
      have hpush : orRest fi stack x (eols m ++ (l :: (tr ++ rest))) =
          orExpr1 fi ((x, op) :: stack) (tr ++ rest) := by
        rw [orRest_push op (by rw [firstToken_eols, hfirst, hop])
          (fun y hy => by have := hstack y hy; omega), afterToken_eols, hafter]
      have hright := hn ((x, op) :: stack) rest (by simp) (hrest.mono (by omega)) hrest'
      rw [Option.bind_some, hpush, hright]
      cases rr with
      | none => rfl
      | some y =>
          -- nothing that binds tighter follows
          exact orRest_reduce ((stops_eols n).mpr (hrest.mono (by omega))) stack x y

/-- Up to the operators, what a production reads of an operand. -/
theorem orExpr1_operand (h : MemberReads true ts r) (hstart : StartsOperand ts)
    {rest : List Lexeme} (hrest : Stops fi 4 rest) :
    orExpr1 fi [] (ts ++ rest) = r.map fun e => (e, rest) := by
  have hunary : unaryExpr (ts ++ rest) = r.map fun e => (e, rest) := by
    apply unaryExpr_operand hstart ?_ (updateOp?_none (hrest.mono (by omega)))
    rw [h rest]
    cases r with
    | none => rfl
    | some e => exact memberRest_stop (hrest.mono (by omega)) e
  rw [orExpr1_eq, bind_apply, hunary]
  cases r with
  | none => rfl
  | some e => exact orRest_stop hrest [] e

theorem AssignReads.assignment {op : AssignOp} {p : Punct} (hop : assignOp? (.punct p) = some op)
    (hl : MemberReads true tl rl) (hstart : StartsOperand tl)
    (href : ∀ e ∈ rl, isReference e = true) (hr : AssignReads fi fj 2 tr rr) :
    AssignReads fi fj 2 (tl ++ .punct p :: tr) (do return .assign op (← rl) (← rr)) := by
  obtain ⟨n, hn⟩ := hr
  refine ⟨n, fun rest hrest => ?_⟩
  have hrank : Stops fi 3 (.punct p :: (tr ++ rest)) := le_of_eq (rank_assignOp hop)
  have hleft := orExpr1_operand hl hstart (hrank.mono (by omega))
  have hhook : Token.punct p ≠ .punct .hook := hook_ne hrank
  rw [assignExpr, List.append_assoc, List.cons_append]
  simp only [bind_apply, matchToken_apply, firstToken_append hstart.not_eof, hstart.not_yield,
    if_false, Option.bind_some, Bool.false_eq_true]
  rw [condExpr1]
  simp only [bind_apply, hleft]
  cases rl with
  | none => rfl
  | some x =>
      have hx := href x rfl
      simp only [Option.map_some, Option.bind_some, matchToken_apply, hhook, if_false,
        Bool.false_eq_true, pure_apply, peekToken_apply, firstToken_punct, hop, getToken_apply,
        afterToken_punct, bind_apply, hx, require_true, hn rest hrest]
      cases rr <;> rfl

/-- A conditional, whose consequent may be any expression without a comma. -/
theorem AssignReads.cond {tt tc ta : List Lexeme} {rt rc ra : Option Expr}
    (ht : OrReads fi 4 tt rt) (hstart : StartsOr tt) (hc : AssignReads false false 0 tc rc)
    (ha : AssignReads fi fj 2 ta ra) :
    AssignReads fi fj 2 (tt ++ .punct .hook :: (tc ++ .punct .colon :: ta))
      (do return .cond (← rt) (← rc) (← ra)) := by
  obtain ⟨l, hl⟩ := ht
  obtain ⟨m, hm⟩ := hc
  obtain ⟨n, hn⟩ := ha
  refine ⟨n, fun rest hrest => ?_⟩
  have htest := hl [] (.punct .hook :: (tc ++ .punct .colon :: (ta ++ rest))) (by simp)
    (by simp [Stops, rank]) (by simp [Stops, rank])
  have hthen := hm (.punct .colon :: (ta ++ rest)) (by simp [Stops, rank])
  have helse := hn rest hrest
  rw [assignExpr]
  simp only [List.append_assoc, List.cons_append, bind_apply, matchToken_apply,
    firstToken_append hstart.not_eof, hstart.not_yield, if_false, Option.bind_some,
    Bool.false_eq_true]
  rw [condExpr1]
  simp only [bind_apply, htest]
  cases rt with
  | none => rfl
  | some t =>
      have hor : orRest fi [] t (eols l ++ .punct .hook :: (tc ++ .punct .colon :: (ta ++ rest))) =
          some (t, eols l ++ .punct .hook :: (tc ++ .punct .colon :: (ta ++ rest))) :=
        orRest_stop ((stops_eols l).mpr (by simp [Stops, rank])) [] t
      simp only [Option.bind_some, hor, matchToken_apply, firstToken_eols, firstToken_punct,
        if_true, afterToken_eols, afterToken_punct, bind_apply, hthen]
      cases rc with
      | none => rfl
      | some x =>
          simp only [Option.map_some, Option.bind_some, mustMatchToken_apply, firstToken_eols,
            firstToken_punct, if_true, afterToken_eols, afterToken_punct, helse]
          cases ra with
          | none => rfl
          | some y =>
              have hstop : Stops fj 2 (eols n ++ rest) := (stops_eols n).mpr hrest
              simp [assignOp?_none hstop, arrow_ne hstop]

/-- The consequent of a conditional ends at a comma. -/
theorem AssignReads.cond_comma {tt tc ta : List Lexeme} {rt : Option Expr}
    (ht : OrReads fi 4 tt rt) (hstart : StartsOr tt)
    (hc : ∀ rest, ∃ (x : Option Expr) (s : List Lexeme),
      assignExpr false (tc ++ rest) = x.map (fun e => (e, s)) ∧ firstToken s = .punct .comma) :
    AssignReads fi fj 2 (tt ++ .punct .hook :: (tc ++ .punct .colon :: ta)) none := by
  obtain ⟨l, hl⟩ := ht
  refine ⟨0, fun rest hrest => ?_⟩
  have htest := hl [] (.punct .hook :: (tc ++ .punct .colon :: (ta ++ rest))) (by simp)
    (by simp [Stops, rank]) (by simp [Stops, rank])
  obtain ⟨x, s, hthen, hs⟩ := hc (.punct .colon :: (ta ++ rest))
  rw [assignExpr]
  simp only [List.append_assoc, List.cons_append, bind_apply, matchToken_apply,
    firstToken_append hstart.not_eof, hstart.not_yield, if_false, Option.bind_some,
    Bool.false_eq_true]
  rw [condExpr1]
  simp only [bind_apply, htest]
  cases rt with
  | none => rfl
  | some t =>
      have hor : orRest fi [] t (eols l ++ .punct .hook :: (tc ++ .punct .colon :: (ta ++ rest))) =
          some (t, eols l ++ .punct .hook :: (tc ++ .punct .colon :: (ta ++ rest))) :=
        orRest_stop ((stops_eols l).mpr (by simp [Stops, rank])) [] t
      simp only [Option.bind_some, hor, matchToken_apply, firstToken_eols, firstToken_punct,
        if_true, afterToken_eols, afterToken_punct, bind_apply, hthen]
      cases x with
      | none => rfl
      | some x => simp [mustMatchToken_apply, hs]

/-! ### Lists of expressions -/

/-- Lists with a comma between them. -/
def commas : List (List Lexeme) → List Lexeme
  | [] => []
  | [ts] => ts
  | ts :: tss => ts ++ .punct .comma :: commas tss

theorem commas_cons_cons (ts ts' : List Lexeme) (tss : List (List Lexeme)) :
    commas (ts :: ts' :: tss) = ts ++ .punct .comma :: commas (ts' :: tss) := rfl

section

variable {α : Type} {f : α → List Lexeme} {g : α → Option Expr}

theorem commaOperands_reads {x : α} {xs : List α}
    (h : ∀ y ∈ x :: xs, AssignReads fi fj 2 (f y) (g y)) :
    ∃ n, ∀ rest, Stops fj 1 rest → commaOperands fi (commas ((x :: xs).map f) ++ rest) =
      ((x :: xs).mapM g).map fun es => (es, eols n ++ rest) := by
  induction xs generalizing x with
  | nil =>
      obtain ⟨n, hn⟩ := h x (by simp)
      refine ⟨n, fun rest hrest => ?_⟩
      rw [commaOperands]
      simp only [List.map_cons, List.map_nil, commas, bind_apply, hn rest (hrest.mono (by omega)),
        List.mapM_cons, List.mapM_nil]
      cases g x with
      | none => rfl
      | some e => simp [matchToken_apply, firstToken_eols, comma_ne hrest]
  | cons y ys ih =>
      obtain ⟨m, hm⟩ := h x (by simp)
      obtain ⟨n, hn⟩ := ih fun z hz => h z (List.mem_cons_of_mem x hz)
      refine ⟨n, fun rest hrest => ?_⟩
      have hfirst := hm (.punct .comma :: (commas ((y :: ys).map f) ++ rest))
        (by simp [Stops, rank])
      rw [commaOperands, List.mapM_cons]
      simp only [List.map_cons, commas, List.append_assoc, List.cons_append, bind_apply]
        at hn hfirst ⊢
      rw [hfirst]
      cases g x with
      | none => rfl
      | some e =>
          simp only [Option.map_some, Option.bind_some, matchToken_apply, firstToken_eols,
            firstToken_punct, if_true, afterToken_eols, afterToken_punct, bind_apply,
            hn rest hrest]
          cases (y :: ys).mapM g <;> rfl

theorem argumentNodes_reads {x : α} {xs : List α}
    (h : ∀ y ∈ x :: xs, AssignReads false false 2 (f y) (g y)) (rest : List Lexeme) :
    _argumentNodes (commas ((x :: xs).map f) ++ .punct .rp :: rest) =
      ((x :: xs).mapM g).map fun es => (es, rest) := by
  induction xs generalizing x with
  | nil =>
      obtain ⟨n, hn⟩ := h x (by simp)
      rw [_argumentNodes]
      simp only [List.map_cons, List.map_nil, commas, bind_apply, List.mapM_cons, List.mapM_nil,
        hn (.punct .rp :: rest) (by simp [Stops, rank])]
      cases g x with
      | none => rfl
      | some e =>
          simp [map_apply, matchToken_apply, mustMatchToken_apply, firstToken_eols,
            afterToken_eols]
  | cons y ys ih =>
      obtain ⟨m, hm⟩ := h x (by simp)
      have hmore := ih fun z hz => h z (List.mem_cons_of_mem x hz)
      have hfirst := hm (.punct .comma :: (commas ((y :: ys).map f) ++ .punct .rp :: rest))
        (by simp [Stops, rank])
      rw [_argumentNodes, List.mapM_cons]
      simp only [List.map_cons, commas, List.append_assoc, List.cons_append, bind_apply]
        at hmore hfirst ⊢
      rw [hfirst]
      cases g x with
      | none => rfl
      | some e =>
          simp only [Option.map_some, Option.bind_some, matchToken_apply, firstToken_eols,
            firstToken_punct, if_true, afterToken_eols, afterToken_punct, bind_apply, hmore]
          cases (y :: ys).mapM g <;> rfl

/-- The arguments of a call, after the opening parenthesis. -/
theorem argumentList_reads {xs : List α}
    (h : ∀ y ∈ xs, AssignReads false false 2 (f y) (g y))
    (hstart : ∀ y ∈ xs, firstToken (f y) ≠ .punct .rp ∧ firstToken (f y) ≠ .eof)
    (rest : List Lexeme) :
    argumentList (commas (xs.map f) ++ .punct .rp :: rest) =
      (xs.mapM g).map fun es => (es, rest) := by
  cases xs with
  | nil =>
      rw [argumentList]
      simp [commas, bind_apply, matchToken_apply]
  | cons x xs =>
      obtain ⟨hrp, heof⟩ := hstart x (by simp)
      have hfirst : firstToken (commas ((x :: xs).map f) ++ .punct .rp :: rest) ≠ .punct .rp := by
        cases xs with
        | nil => simpa [commas, firstToken_append heof] using hrp
        | cons y ys => simpa [commas, firstToken_append heof] using hrp
      rw [argumentList]
      simp only [bind_apply, matchToken_apply, hfirst, if_false, Option.bind_some,
        Bool.false_eq_true]
      exact argumentNodes_reads h rest

/-- Two expressions or more, with commas between them. -/
theorem ExprReads.sequence {x y : α} {xs : List α}
    (h : ∀ z ∈ x :: y :: xs, AssignReads fi fj 2 (f z) (g z)) :
    ExprReads fi (commas ((x :: y :: xs).map f))
      (do return .sequence (← (x :: y :: xs).mapM g)) := by
  obtain ⟨m, hm⟩ := h x (by simp)
  obtain ⟨n, hn⟩ := commaOperands_reads fun z hz => h z (List.mem_cons_of_mem x hz)
  refine ⟨n, fun rest hrest => ?_⟩
  have hfirst := hm (.punct .comma :: (commas ((y :: xs).map f) ++ rest)) (by simp [Stops, rank])
  rw [Parser.expr, List.mapM_cons]
  simp only [List.map_cons, commas, List.append_assoc, List.cons_append, bind_apply]
    at hn hfirst ⊢
  rw [hfirst]
  cases g x with
  | none => rfl
  | some e =>
      simp only [Option.map_some, Option.bind_some, matchToken_apply, firstToken_eols,
        firstToken_punct, if_true, afterToken_eols, afterToken_punct, bind_apply,
        hn rest ((hrest.of_false fj).mono (by omega))]
      cases (y :: xs).mapM g <;> rfl

end

/-! ### Accesses and calls -/

theorem MemberReads.member {w : Js.JSString} (h : MemberReads true ts r) :
    MemberReads true (ts ++ [.punct .dot, .word w]) (do return .member (← r) w) := by
  intro rest
  rw [List.append_assoc, h]
  cases r with
  | none => rfl
  | some e =>
      show memberRest true e ([.punct .dot, .word w] ++ rest) = memberRest true (.member e w) rest
      rw [memberRest]
      simp [bind_apply, matchWord]

theorem MemberReads.index (h : MemberReads true tl rl) (hr : ExprReads false tr rr) :
    MemberReads true (tl ++ .punct .lb :: (tr ++ [.punct .rb]))
      (do return .index (← rl) (← rr)) := by
  obtain ⟨n, hn⟩ := hr
  intro rest
  have hinner := hn (.punct .rb :: rest) (by simp [Stops, rank])
  rw [List.append_assoc, h]
  cases rl with
  | none => rfl
  | some e =>
      show memberRest true e (.punct .lb :: (tr ++ [.punct .rb]) ++ rest) = _
      rw [memberRest]
      simp only [List.cons_append, List.append_assoc, List.nil_append, bind_apply,
        peekToken_apply, Option.bind_some, firstToken_punct, getToken_apply, afterToken_punct,
        hinner]
      cases rr with
      | none => rfl
      | some x => simp [mustMatchToken_apply, firstToken_eols, afterToken_eols]

/-- A list in parentheses that is read as the arguments of a call. -/
def ArgumentsRead (ts : List Lexeme) (rs : Option (List Expr)) : Prop :=
  ∀ rest, argumentList (ts ++ .punct .rp :: rest) = rs.map fun es => (es, rest)

theorem MemberReads.call {rs : Option (List Expr)} (h : MemberReads true tl rl)
    (ha : ArgumentsRead ts rs) :
    MemberReads true (tl ++ .punct .lp :: (ts ++ [.punct .rp]))
      (do return .call (← rl) (← rs)) := by
  intro rest
  rw [List.append_assoc, h]
  cases rl with
  | none => rfl
  | some e =>
      show memberRest true e (.punct .lp :: (ts ++ [.punct .rp]) ++ rest) = _
      rw [memberRest]
      simp only [List.cons_append, List.append_assoc, List.nil_append, bind_apply,
        peekToken_apply, Option.bind_some, firstToken_punct, if_true, getToken_apply,
        afterToken_punct, ha rest]
      cases rs <;> rfl

/-- A constructor is read without calls, so what it is called with is its own. -/
theorem MemberReads.newCall {rs : Option (List Expr)} (h : MemberReads false tl rl)
    (heof : firstToken tl ≠ .eof) (ha : ArgumentsRead ts rs) (ac : Bool) :
    MemberReads ac (.keyword .new :: (tl ++ .punct .lp :: (ts ++ [.punct .rp])))
      (do return .newExpr (← rl) (← rs)) := by
  intro rest
  have hctor := h (.punct .lp :: (ts ++ .punct .rp :: rest))
  simp only [memberFrom, bind_apply, getToken_apply, Option.bind_some,
    firstToken_append heof] at hctor
  simp only [memberFrom, bind_apply, getToken_apply, Option.bind_some, List.cons_append,
    firstToken_keyword, afterToken_keyword, List.append_assoc, List.nil_append]
  rw [memberExpr]
  simp only [if_true, bind_apply, getToken_apply, Option.bind_some, firstToken_append heof, hctor]
  cases rl with
  | none => rfl
  | some e =>
      have hstop : memberRest false e (.punct .lp :: (ts ++ .punct .rp :: rest)) =
          some (e, .punct .lp :: (ts ++ .punct .rp :: rest)) := by
        rw [memberRest]
        rfl
      simp only [Option.bind_some, hstop, matchToken_apply, firstToken_punct, if_true,
        afterToken_punct, bind_apply, ha rest]
      cases rs <;> rfl

theorem UnaryReads.new (h : MemberReads false tl rl) (heof : firstToken tl ≠ .eof) :
    UnaryReads fi 14 (.keyword .new :: tl) (do return .newExpr (← rl) []) := by
  refine ⟨0, fun rest hrest => ?_⟩
  have hstart : StartsOperand (.keyword .new :: tl) := ⟨by simp [unaryOp?], by simp [updateOp?],
    by simp, by simp⟩
  apply unaryExpr_operand hstart ?_ (updateOp?_none hrest)
  have hctor := h rest
  simp only [memberFrom, bind_apply, getToken_apply, Option.bind_some,
    firstToken_append heof] at hctor
  simp only [memberFrom, bind_apply, getToken_apply, Option.bind_some, List.cons_append,
    firstToken_keyword, afterToken_keyword]
  rw [memberExpr]
  simp only [if_true, bind_apply, getToken_apply, Option.bind_some, firstToken_append heof, hctor]
  cases rl with
  | none => rfl
  | some e =>
      have hlp : firstToken rest ≠ .punct .lp := fun heq => by simp [Stops, heq, rank] at hrest
      have hstop : ∀ ac x, memberRest ac x rest = some (x, rest) :=
        fun ac x => memberRest_stop (hrest.mono (by omega)) x
      simp [hstop, matchToken_apply, hlp]

/-! ### Unary operators -/

theorem UnaryReads.unary {op : UnaryOp} {t : Token} {l : Lexeme} (hop : unaryOp? t = some op)
    (hfirst : ∀ s, firstToken (l :: s) = t) (hafter : ∀ s, afterToken (l :: s) = s)
    (h : UnaryReads fi 14 ts r) :
    UnaryReads fi 14 (l :: ts) (do return .unary op (← r)) := by
  obtain ⟨n, hn⟩ := h
  refine ⟨n, fun rest hrest => ?_⟩
  rw [unaryExpr]
  simp only [List.cons_append, bind_apply, getToken_apply, Option.bind_some, hfirst, hafter, hop,
    hn rest hrest]
  cases r <;> rfl

theorem UnaryReads.before {op : UpdateOp} {p : Punct} (hop : updateOp? (.punct p) = some op)
    (h : MemberReads true ts r) (heof : firstToken ts ≠ .eof)
    (href : ∀ e ∈ r, isReference e = true) :
    UnaryReads fi 14 (.punct p :: ts) (do return .update op true (← r)) := by
  refine ⟨0, fun rest hrest => ?_⟩
  have hunary : unaryOp? (.punct p) = none := by
    revert hop
    fun_cases updateOp? (.punct p) <;> simp [unaryOp?]
  have hmember := h rest
  simp only [memberFrom, bind_apply, getToken_apply, Option.bind_some,
    firstToken_append heof] at hmember
  rw [unaryExpr]
  simp only [List.cons_append, bind_apply, getToken_apply, Option.bind_some, firstToken_punct,
    afterToken_punct, hop, hunary, firstToken_append heof, hmember]
  cases r with
  | none => rfl
  | some e =>
      simp [memberRest_stop (hrest.mono (by omega)), href e rfl, eols]

theorem UnaryReads.after {op : UpdateOp} {p : Punct} (hop : updateOp? (.punct p) = some op)
    (h : MemberReads true ts r) (hstart : StartsOperand ts)
    (href : ∀ e ∈ r, isReference e = true) :
    UnaryReads fi 14 (ts ++ [.punct p]) (do return .update op false (← r)) := by
  refine ⟨0, fun rest hrest => ?_⟩
  have hrank : Stops fi 16 (.punct p :: rest) := le_of_eq (rank_updateOp hop)
  have hmember := h (.punct p :: rest)
  simp only [memberFrom, bind_apply, getToken_apply, Option.bind_some,
    firstToken_append hstart.not_eof] at hmember
  rw [unaryExpr]
  simp only [List.append_assoc, List.cons_append, List.nil_append, bind_apply, getToken_apply,
    Option.bind_some, firstToken_append hstart.not_eof, hstart.unaryOp, hstart.updateOp, hmember]
  cases r with
  | none => rfl
  | some e =>
      simp [memberRest_stop hrank, href e rfl, eols, peekTokenSameLine_apply, hop, map_apply]

/-! ### Primary expressions -/

theorem MemberReads.primary {e : Expr} {l : Lexeme} {t : Token} (hnew : t ≠ .kw .new)
    (hfirst : ∀ s, firstToken (l :: s) = t) (hafter : ∀ s, afterToken (l :: s) = s)
    (h : ∀ s, primaryExpr t s = some (e, s)) (ac : Bool) : MemberReads ac [l] (some e) := by
  intro rest
  simp only [memberFrom, bind_apply, getToken_apply, Option.bind_some, List.cons_append,
    List.nil_append, hfirst, hafter]
  rw [memberExpr]
  simp only [hnew, if_false, bind_apply, h, Option.bind_some]

theorem memberReads_identifier {w : Js.JSString} (hw : keyword? w = none) (ac : Bool) :
    MemberReads ac [.word w] (some (.identifier w)) :=
  .primary (by simp) (firstToken_word hw) (afterToken_word w)
    (fun s => by rw [primaryExpr]; rfl) ac

theorem memberReads_this (ac : Bool) : MemberReads ac [.keyword .this] (some .thisExpr) :=
  .primary (by simp) (firstToken_keyword .this) (afterToken_keyword .this)
    (fun s => by rw [primaryExpr]; rfl) ac

/-- No expression begins with the keyword of a declaration. -/
theorem memberReads_var (s : List Lexeme) (ac : Bool) :
    MemberReads ac (.keyword .var :: s) none := by
  intro rest
  simp only [memberFrom, bind_apply, getToken_apply, Option.bind_some, List.cons_append,
    firstToken_keyword, afterToken_keyword]
  rw [memberExpr, primaryExpr]
  · rfl
  all_goals simp

/-- The elements of an array, where a hole is no list. -/
def arrayLexemes : List (Option (List Lexeme)) → List Lexeme
  | [] => []
  | none :: tss => .punct .comma :: arrayLexemes tss
  | [some ts] => ts
  | some ts :: tss => ts ++ .punct .comma :: arrayLexemes tss

/-- What an element of an array is read as. -/
structure ElementReads (ts : Option (List Lexeme)) (r : Option Expr) : Prop where
  hole : ts = none → r = some .elision
  reads : ∀ s ∈ ts, AssignReads false false 2 s r
  starts : ∀ s ∈ ts, firstToken s ≠ .eof ∧ firstToken s ≠ .punct .rb ∧
    firstToken s ≠ .punct .comma

/-- An element before what follows it. -/
theorem ElementReads.some_apply {s rest : List Lexeme} (h : ElementReads (some s) r) :
    arrayElements (s ++ rest) = (do
      let pn2 ← assignExpr false
      if ← matchToken (.punct .comma) then return pn2 :: (← arrayElements)
      else
        mustMatchToken (.punct .rb)
        return [pn2]) (s ++ rest) := by
  obtain ⟨heof, hrb, hcomma⟩ := h.starts s rfl
  conv_lhs => rw [arrayElements]
  simp only [bind_apply, peekToken_apply, Option.bind_some, firstToken_append heof]

section

variable {α : Type} {f : α → Option (List Lexeme)} {g : α → Option Expr}

theorem arrayElements_reads {xs : List α} (h : ∀ x ∈ xs, ElementReads (f x) (g x))
    (rest : List Lexeme) :
    arrayElements (arrayLexemes (xs.map f) ++ .punct .rb :: rest) =
      (xs.mapM g).map fun es => (es, rest) := by
  induction xs with
  | nil =>
      rw [List.map_nil, arrayLexemes, arrayElements]
      rfl
  | cons x xs ih =>
      have hx := h x (by simp)
      have hxs := ih fun y hy => h y (List.mem_cons_of_mem x hy)
      rw [List.mapM_cons, List.map_cons]
      cases hf : f x with
      | none =>
          rw [hx.hole hf, arrayLexemes, arrayElements]
          simp only [List.cons_append, bind_apply, peekToken_apply, Option.bind_some,
            firstToken_punct, getToken_apply, afterToken_punct, hxs]
          cases xs.mapM g <;> rfl
      | some ts =>
          rw [hf] at hx
          obtain ⟨n, hn⟩ := hx.reads ts rfl
          cases xs with
          | nil =>
              rw [List.map_nil, arrayLexemes, hx.some_apply, bind_apply,
                hn (.punct .rb :: rest) (by simp [Stops, rank])]
              cases g x with
              | none => rfl
              | some e =>
                  simp [bind_apply, map_apply, matchToken_apply, mustMatchToken_apply,
                    firstToken_eols, afterToken_eols]
          | cons y ys =>
              have hcons : arrayLexemes (some ts :: (y :: ys).map f) ++ .punct .rb :: rest =
                  ts ++ (.punct .comma :: (arrayLexemes ((y :: ys).map f) ++
                    .punct .rb :: rest)) := by
                simp [arrayLexemes]
              rw [hcons, hx.some_apply, bind_apply, hn _ (by simp [Stops, rank])]
              cases g x with
              | none => rfl
              | some e =>
                  simp only [Option.map_some, Option.bind_some, bind_apply, matchToken_apply,
                    firstToken_eols, firstToken_punct, if_true, afterToken_eols,
                    afterToken_punct, hxs]
                  cases (y :: ys).mapM g <;> rfl

theorem MemberReads.array {xs : List α} (h : ∀ x ∈ xs, ElementReads (f x) (g x)) (ac : Bool) :
    MemberReads ac (.punct .lb :: (arrayLexemes (xs.map f) ++ [.punct .rb]))
      (do return .array (← xs.mapM g)) := by
  intro rest
  have helements := arrayElements_reads h rest
  simp only [memberFrom, bind_apply, getToken_apply, Option.bind_some, List.cons_append,
    firstToken_punct, afterToken_punct, List.append_assoc, List.nil_append]
  rw [memberExpr, primaryExpr]
  simp only [bind_apply, reduceCtorEq, if_false, helements]
  cases xs.mapM g <;> rfl

end

section

variable {α : Type} {key : α → Js.JSString} {f : α → List Lexeme} {g : α → Option Expr}

/-- A property before what follows it. -/
theorem objectProperties_apply (w : Js.JSString) (s : List Lexeme) :
    objectProperties (.word w :: .punct .colon :: s) = (do
      let pnval ← assignExpr false
      if ← matchToken (.punct .comma) then
        return Property.init w pnval :: (← objectProperties)
      else
        mustMatchToken (.punct .rc)
        return [Property.init w pnval]) s := by
  conv_lhs => rw [objectProperties]
  simp [bind_apply, matchWord, mustMatchToken_apply]

variable (key) in
theorem objectProperties_reads {xs : List α}
    (h : ∀ x ∈ xs, AssignReads false false 2 (f x) (g x)) (rest : List Lexeme) :
    objectProperties (commas (xs.map fun x => .word (key x) :: .punct .colon :: f x) ++
        .punct .rc :: rest) =
      (xs.mapM fun x => do return Property.init (key x) (← g x)).map fun ps => (ps, rest) := by
  induction xs with
  | nil =>
      rw [List.map_nil, commas, objectProperties]
      simp [bind_apply, map_apply, matchWord, mustMatchToken_apply]
  | cons x xs ih =>
      obtain ⟨n, hn⟩ := h x (by simp)
      have hxs := ih fun y hy => h y (List.mem_cons_of_mem x hy)
      rw [List.mapM_cons]
      cases xs with
      | nil =>
          rw [List.map_cons, List.map_nil, commas, List.cons_append, List.cons_append,
            objectProperties_apply, bind_apply, hn (.punct .rc :: rest) (by simp [Stops, rank])]
          cases g x with
          | none => rfl
          | some e =>
              simp [bind_apply, map_apply, matchToken_apply, mustMatchToken_apply,
                firstToken_eols, afterToken_eols]
      | cons y ys =>
          rw [List.map_cons, List.map_cons, commas_cons_cons, ← List.map_cons
            (f := fun x => Lexeme.word (key x) :: .punct .colon :: f x)]
          simp only [List.cons_append, List.append_assoc]
          rw [objectProperties_apply, bind_apply, hn _ (by simp [Stops, rank])]
          cases g x with
          | none => rfl
          | some e =>
              simp only [Option.map_some, Option.bind_some, bind_apply, matchToken_apply,
                firstToken_eols, firstToken_punct, if_true, afterToken_eols,
                afterToken_punct, hxs]
              cases ((y :: ys).mapM fun x => do return Property.init (key x) (← g x)) <;> rfl

variable (key) in
theorem MemberReads.object {xs : List α}
    (h : ∀ x ∈ xs, AssignReads false false 2 (f x) (g x)) (ac : Bool) :
    MemberReads ac (.punct .lc :: (commas (xs.map fun x => .word (key x) :: .punct .colon :: f x)
        ++ [.punct .rc]))
      (do return .object (← xs.mapM fun x => do return Property.init (key x) (← g x))) := by
  intro rest
  have hproperties := objectProperties_reads key h rest
  simp only [memberFrom, bind_apply, getToken_apply, Option.bind_some, List.cons_append,
    firstToken_punct, afterToken_punct, List.append_assoc, List.nil_append]
  rw [memberExpr, primaryExpr]
  simp only [bind_apply, reduceCtorEq, if_false, hproperties]
  cases (xs.mapM fun x => do return Property.init (key x) (← g x)) <;> rfl

end

/-! ### Functions and yields -/

theorem formals_reads {w : Js.JSString} {ws : List Js.JSString}
    (h : ∀ v ∈ w :: ws, keyword? v = none) (rest : List Lexeme) :
    _formals (commas ((w :: ws).map fun v => [.word v]) ++ .punct .rp :: rest) =
      some (w :: ws, rest) := by
  induction ws generalizing w with
  | nil =>
      have hw := h w (by simp)
      rw [_formals]
      simp [commas, bind_apply, map_apply, getName, firstToken_word hw, matchToken_apply,
        mustMatchToken_apply]
  | cons v vs ih =>
      have hw := h w (by simp)
      have hmore := ih fun u hu => h u (List.mem_cons_of_mem w hu)
      rw [_formals]
      simp only [List.map_cons] at hmore
      simp [commas, bind_apply, map_apply, getName, firstToken_word hw, matchToken_apply, hmore]

theorem functionArguments_reads {ws : List Js.JSString} (h : ∀ v ∈ ws, keyword? v = none)
    (rest : List Lexeme) :
    functionArguments (.punct .lp :: (commas (ws.map fun v => [.word v]) ++
      .punct .rp :: rest)) = some (ws, rest) := by
  cases ws with
  | nil => simp [functionArguments, commas, bind_apply, mustMatchToken_apply, matchToken_apply]
  | cons w ws =>
      have hfirst : firstToken (commas ((w :: ws).map fun v => [.word v]) ++
          .punct .rp :: rest) = .name w := by
        cases ws <;> exact firstToken_word (h w (by simp)) _
      simp [functionArguments, bind_apply, mustMatchToken_apply, matchToken_apply, hfirst,
        -List.map_cons, formals_reads h rest]

/-- The head of a function, from the name to the parameters. -/
def headLexemes (id : Option Js.JSString) (params : List Js.JSString) : List Lexeme :=
  (id.map Lexeme.word).toList ++
    .punct .lp :: (commas (params.map fun v => [.word v]) ++ [.punct .rp])

theorem functionExpr_head {id : Option Js.JSString} {params : List Js.JSString}
    (h : ∀ v ∈ params, keyword? v = none) (s : List Lexeme) :
    functionExpr (headLexemes id params ++ s) = (do
      if ← matchToken (.punct .lc) then
        let body ← statements .body
        mustMatchToken (.punct .rc)
        return Expr.function id params (.mk body)
      else return Expr.closure id params (← assignExpr false)) s := by
  have hargs := functionArguments_reads h s
  rw [functionExpr]
  cases id <;> simp [headLexemes, bind_apply, matchWord, hargs]

/-- Statements up to the end of a block or of the text. -/
def StatementsRead (scope : Scope) (ts : List Lexeme) (r : Option (List Stmt)) : Prop :=
  ∃ n, ∀ rest, firstToken rest = .eof ∨ firstToken rest = .punct .rc →
    statements scope (ts ++ rest) = r.map fun ss => (ss, eols n ++ rest)

theorem MemberReads.function {id : Option Js.JSString} {params : List Js.JSString}
    (hparams : ∀ v ∈ params, keyword? v = none) {rs : Option (List Stmt)}
    (h : StatementsRead .body ts rs) (ac : Bool) :
    MemberReads ac (.keyword .function :: (headLexemes id params ++
        .punct .lc :: (ts ++ [.punct .rc])))
      (do return .function id params (.mk (← rs))) := by
  obtain ⟨n, hn⟩ := h
  intro rest
  have hbody := hn (.punct .rc :: rest) (by simp)
  simp only [memberFrom, bind_apply, getToken_apply, Option.bind_some, List.cons_append,
    firstToken_keyword, afterToken_keyword, List.append_assoc, List.nil_append]
  rw [memberExpr, primaryExpr]
  simp only [bind_apply, reduceCtorEq, Token.kw.injEq, if_false, functionExpr_head hparams,
    matchToken_apply, firstToken_punct, if_true, Option.bind_some, afterToken_punct, hbody]
  cases rs with
  | none => rfl
  | some ss => simp [mustMatchToken_apply, firstToken_eols, afterToken_eols]

/-- The body of a closure ends with an expression, so it has no delimiter. -/
theorem UnaryReads.closure {id : Option Js.JSString} {params : List Js.JSString}
    (hparams : ∀ v ∈ params, keyword? v = none) (h : AssignReads false false 2 ts r)
    (heof : firstToken ts ≠ .eof) (hlc : firstToken ts ≠ .punct .lc) :
    UnaryReads false 2 (.keyword .function :: (headLexemes id params ++ ts))
      (do return .closure id params (← r)) := by
  obtain ⟨n, hn⟩ := h
  refine ⟨n, fun rest hrest => ?_⟩
  have hstop : Stops false 2 (eols n ++ rest) := (stops_eols n).mpr hrest
  have hstart : StartsOperand (.keyword .function :: (headLexemes id params ++ ts)) :=
    ⟨by simp [unaryOp?], by simp [updateOp?], by simp, by simp⟩
  apply unaryExpr_operand hstart ?_ (updateOp?_none (hstop.mono (by omega)))
  simp only [memberFrom, bind_apply, getToken_apply, Option.bind_some, List.cons_append,
    firstToken_keyword, afterToken_keyword, List.append_assoc]
  rw [memberExpr, primaryExpr]
  simp only [bind_apply, reduceCtorEq, Token.kw.injEq, if_false, functionExpr_head hparams,
    matchToken_apply, firstToken_append heof, hlc, Option.bind_some, Bool.false_eq_true,
    hn rest hrest]
  cases r with
  | none => rfl
  | some e => simp [memberRest_stop (hstop.mono (by omega))]

/-- The tokens at which a `yield` has no argument. -/
def endsYield : Token → Bool
  | .eof | .eol | .punct .semi | .punct .rc | .kw .yield | .punct .rb | .punct .rp
  | .punct .colon | .punct .comma => true
  | _ => false

theorem yieldExpression_none {s : List Lexeme} (h : Stops false 0 s) :
    yieldExpression fi s = some (.yieldExpr none, s) := by
  have hends : ∀ t, rank false t = 0 → endsYield t = true := by
    intro t
    fun_cases rank false t <;> simp_all [endsYield]
  have hsame : endsYield (if s.head? = some .eol then .eol else firstToken s) = true := by
    split
    · rfl
    · exact hends _ (Nat.le_zero.mp h)
  rw [yieldExpression]
  simp only [bind_apply, peekTokenSameLine_apply, Option.bind_some]
  revert hsame
  generalize (if s.head? = some .eol then .eol else firstToken s) = t
  fun_cases endsYield t <;> simp

theorem AssignReads.yield_none :
    AssignReads fi false 0 [.keyword .yield] (some (.yieldExpr none)) := by
  refine ⟨0, fun rest hrest => ?_⟩
  rw [assignExpr]
  simp [bind_apply, matchToken_apply, yieldExpression_none hrest, eols]

theorem AssignReads.yield (h : AssignReads fi fj 2 ts r)
    (hstart : endsYield (firstToken ts) = false) (heol : ts.head? ≠ some .eol) :
    AssignReads fi fj 0 (.keyword .yield :: ts) (do return .yieldExpr (some (← r))) := by
  obtain ⟨n, hn⟩ := h
  refine ⟨n, fun rest hrest => ?_⟩
  have heof : firstToken ts ≠ .eof := fun heq => by simp [heq, endsYield] at hstart
  have hsame : ((ts ++ rest).head? = some .eol) = False := by
    cases ts with
    | nil => exact absurd rfl heof
    | cons l s => simpa using heol
  have hread := hn rest (hrest.mono (by omega))
  rw [assignExpr]
  simp only [List.cons_append, bind_apply, matchToken_apply, firstToken_keyword, if_true,
    Option.bind_some, afterToken_keyword]
  rw [yieldExpression]
  simp only [bind_apply, peekTokenSameLine_apply, hsame, if_false, Option.bind_some,
    firstToken_append heof]
  revert hstart
  fun_cases endsYield (firstToken ts) <;> simp_all [bind_apply]
  cases r <;> rfl

end Parser

end MetaMonkey.Frontend
