import MetaMonkey.Frontend.Parser

/-!
How the productions of the parser read a list of lexemes that stands for one
expression, whatever comes after it. A list that is read as an operand of a
member expression is read by every production above, as long as the next token
does not go on with the expression.
-/

namespace MetaMonkey.Frontend

namespace Parser

variable {α β : Type}

theorem bind_apply (x : Parse α) (f : α → Parse β) (s : List Lexeme) :
    (x >>= f) s = (x s).bind fun p => f p.1 p.2 := rfl

theorem map_apply (f : α → β) (x : Parse α) (s : List Lexeme) :
    (f <$> x) s = (x s).map fun p => (f p.1, p.2) := by
  cases h : x s <;> simp [Functor.map, StateT.map, h]

@[simp] theorem pure_apply (a : α) (s : List Lexeme) : (pure a : Parse α) s = some (a, s) := rfl

@[simp] theorem fail_apply (s : List Lexeme) : (fail : Parse α) s = none := rfl

@[simp] theorem getToken_apply (s : List Lexeme) :
    getToken s = some (firstToken s, afterToken s) := rfl

@[simp] theorem peekToken_apply (s : List Lexeme) : peekToken s = some (firstToken s, s) := rfl

theorem matchToken_apply (t : Token) (s : List Lexeme) :
    matchToken t s = if firstToken s = t then some (true, afterToken s) else some (false, s) := rfl

theorem mustMatchToken_apply (t : Token) (s : List Lexeme) :
    mustMatchToken t s = if firstToken s = t then some ((), afterToken s) else none := rfl

@[simp] theorem require_true : require true = pure () := rfl

@[simp] theorem require_false : require false = fail := rfl

theorem peekTokenSameLine_apply (s : List Lexeme) :
    peekTokenSameLine s = some (if s.head? = some .eol then .eol else firstToken s, s) := rfl

@[simp] theorem firstToken_punct (p : Punct) (s : List Lexeme) :
    firstToken (.punct p :: s) = .punct p := rfl

@[simp] theorem afterToken_punct (p : Punct) (s : List Lexeme) :
    afterToken (.punct p :: s) = s := rfl

@[simp] theorem firstToken_keyword (k : Keyword) (s : List Lexeme) :
    firstToken (.keyword k :: s) = .kw k := by
  simp [Lexeme.keyword, firstToken, wordToken, keyword?_text]

@[simp] theorem afterToken_keyword (k : Keyword) (s : List Lexeme) :
    afterToken (.keyword k :: s) = s := rfl

@[simp] theorem firstToken_eol (s : List Lexeme) : firstToken (.eol :: s) = firstToken s := rfl

@[simp] theorem afterToken_eol (s : List Lexeme) : afterToken (.eol :: s) = afterToken s := rfl

@[simp] theorem afterToken_word (w : Js.JSString) (s : List Lexeme) :
    afterToken (.word w :: s) = s := rfl

theorem firstToken_word {w : Js.JSString} (hw : keyword? w = none) (s : List Lexeme) :
    firstToken (.word w :: s) = .name w := by
  simp [firstToken, wordToken, hw]

theorem firstToken_append {s : List Lexeme} (hs : firstToken s ≠ .eof) (rest : List Lexeme) :
    firstToken (s ++ rest) = firstToken s := by
  induction s with
  | nil => exact absurd rfl hs
  | cons l s ih =>
      cases l with
      | eol => exact ih hs
      | word w => rfl
      | punct p => rfl

theorem firstToken_append_of_eof {s : List Lexeme} (hs : firstToken s = .eof)
    (rest : List Lexeme) : firstToken (s ++ rest) = firstToken rest := by
  induction s with
  | nil => rfl
  | cons l s ih =>
      cases l with
      | eol => exact ih hs
      | word w =>
          simp only [firstToken, wordToken] at hs
          split at hs <;> simp at hs
      | punct p => simp at hs

theorem firstToken_append_ne {s rest : List Lexeme} {t : Token} (hs : firstToken s ≠ t)
    (hrest : firstToken rest ≠ t) : firstToken (s ++ rest) ≠ t := by
  by_cases heof : firstToken s = .eof
  · rwa [firstToken_append_of_eof heof]
  · rwa [firstToken_append heof]

/-- Line breaks. -/
def eols (n : ℕ) : List Lexeme := List.replicate n .eol

theorem firstToken_eols (n : ℕ) (s : List Lexeme) : firstToken (eols n ++ s) = firstToken s := by
  induction n with
  | zero => rfl
  | succ n ih => exact ih

theorem afterToken_eols (n : ℕ) (s : List Lexeme) : afterToken (eols n ++ s) = afterToken s := by
  induction n with
  | zero => rfl
  | succ n ih => exact ih

theorem mustMatchToken_eols (n : ℕ) (p : Punct) (s : List Lexeme) :
    mustMatchToken (.punct p) (eols n ++ .punct p :: s) = some ((), s) := by
  simp only [mustMatchToken_apply, firstToken_eols, firstToken_punct, if_true, afterToken_eols,
    afterToken_punct]

theorem eols_add (m n : ℕ) (s : List Lexeme) : eols m ++ (eols n ++ s) = eols (m + n) ++ s := by
  rw [← List.append_assoc, eols, eols, List.replicate_append_replicate, eols]

/-! ### Where an expression ends -/

/-- The precedence up to which a token goes on with an expression before it, in the
terms of the printer. A token that no expression can be followed by has the
greatest. -/
def rank (fi : Bool) : Token → ℕ
  | .eof | .punct .semi | .punct .rc | .punct .rb | .punct .rp | .punct .colon => 0
  | .punct .comma => 2
  | .punct .hook => 4
  | .kw .in => if fi then 0 else 11
  | .punct .inc | .punct .dec => 16
  | .punct .dot | .punct .lb | .punct .lp => 17
  | t =>
      if (assignOp? t).isSome then 3
      else
        match binaryOp? false t with
        | some op => precedence op + 4
        | none => 19

/-- What follows goes on at most with operators of the precedence. -/
def Stops (fi : Bool) (c : ℕ) (rest : List Lexeme) : Prop := rank fi (firstToken rest) ≤ c

section

variable {fi : Bool} {c : ℕ} {rest : List Lexeme}

theorem Stops.mono {c' : ℕ} (h : Stops fi c rest) (hc : c ≤ c') : Stops fi c' rest :=
  le_trans h hc

theorem stops_eols (n : ℕ) : Stops fi c (eols n ++ rest) ↔ Stops fi c rest := by
  simp only [Stops, firstToken_eols]

/-- In the head of a `for` the operator `in` goes on with no expression. -/
theorem Stops.of_false (h : Stops false c rest) (fi : Bool) : Stops fi c rest := by
  cases fi with
  | false => exact h
  | true =>
      have hrank : rank true (firstToken rest) ≤ rank false (firstToken rest) := by
        unfold rank
        split <;> simp
      exact le_trans hrank h

end

/-- An operator that follows has the rank of its precedence. -/
theorem rank_binaryOp {fi : Bool} {t : Token} {op : BinaryOp} (h : binaryOp? fi t = some op) :
    rank fi t = precedence op + 4 := by
  revert h
  fun_cases binaryOp? fi t <;> simp +decide <;> rintro rfl <;> simp_all [rank] <;> rfl

theorem precedence_pos (op : BinaryOp) : 1 ≤ precedence op := by
  cases op <;> simp [precedence]

theorem binaryOp?_none {fi : Bool} {t : Token} (h : rank fi t ≤ 4) : binaryOp? fi t = none := by
  cases hop : binaryOp? fi t with
  | none => rfl
  | some op =>
      have hrank := rank_binaryOp hop
      have hpos := precedence_pos op
      omega

theorem rank_assignOp {fi : Bool} {t : Token} {op : AssignOp} (h : assignOp? t = some op) :
    rank fi t = 3 := by
  revert h
  fun_cases assignOp? t <;> simp [rank, assignOp?]

theorem assignOp?_none {fi : Bool} {t : Token} (h : rank fi t ≤ 2) : assignOp? t = none := by
  revert h
  fun_cases assignOp? t <;> simp [rank, assignOp?]

theorem rank_updateOp {fi : Bool} {t : Token} {op : UpdateOp} (h : updateOp? t = some op) :
    rank fi t = 16 := by
  revert h
  fun_cases updateOp? t <;> simp [rank]

theorem updateOp?_none {fi : Bool} {t : Token} (h : rank fi t ≤ 14) : updateOp? t = none := by
  revert h
  fun_cases updateOp? t <;> simp [rank]

theorem hook_ne {fi : Bool} {rest : List Lexeme} (h : Stops fi 3 rest) :
    firstToken rest ≠ .punct .hook := by
  intro heq
  simp [Stops, heq, rank] at h

theorem arrow_ne {fi : Bool} {rest : List Lexeme} (h : Stops fi 2 rest) :
    firstToken rest ≠ .punct .arrow := by
  intro heq
  simp [Stops, heq, rank, assignOp?, binaryOp?] at h

theorem comma_ne {fi : Bool} {rest : List Lexeme} (h : Stops fi 1 rest) :
    firstToken rest ≠ .punct .comma := by
  intro heq
  simp [Stops, heq, rank] at h

/-! ### Lists that are read as one expression -/

/-- `memberExpr` from the token it starts with. -/
def memberFrom (allowCallSyntax : Bool) : Parse Expr := do
  memberExpr (← getToken) allowCallSyntax

/-- The loop of `orExpr1` after an operand. -/
def orRest (fi : Bool) (stack : List (Expr × BinaryOp)) (pn : Expr) : Parse Expr := do
  match binaryOp? fi (← peekToken) with
  | some op =>
      let _ ← getToken
      let (lhs, stack) := reduce (precedence op) stack pn
      orExpr1 fi ((lhs, op) :: stack)
  | none => return (reduce 0 stack pn).1

theorem orExpr1_eq (fi : Bool) (stack : List (Expr × BinaryOp)) :
    orExpr1 fi stack = unaryExpr >>= orRest fi stack := by
  rw [orExpr1]
  rfl

/-- At the end the operators of the stack take their operands. -/
theorem orRest_stop {fi : Bool} {rest : List Lexeme} (h : Stops fi 4 rest)
    (stack : List (Expr × BinaryOp)) (e : Expr) :
    orRest fi stack e rest = some ((reduce 0 stack e).1, rest) := by
  simp [orRest, bind_apply, binaryOp?_none h]

/-- An operator that binds tighter than those on the stack is put on it. -/
theorem orRest_push {fi : Bool} {rest : List Lexeme} (op : BinaryOp)
    (hop : binaryOp? fi (firstToken rest) = some op) {stack : List (Expr × BinaryOp)}
    (htop : ∀ x ∈ stack.head?, precedence x.2 < precedence op) (e : Expr) :
    orRest fi stack e rest = orExpr1 fi ((e, op) :: stack) (afterToken rest) := by
  have hreduce : reduce (precedence op) stack e = (e, stack) := by
    cases stack with
    | nil => rfl
    | cons x stack =>
        have hx := htop x rfl
        simp [reduce, Nat.not_le.mpr hx]
  simp [orRest, bind_apply, hop, hreduce]

/-- Before an operator that binds no tighter, the topmost one takes its operand. -/
theorem orRest_reduce {fi : Bool} {rest : List Lexeme} {op : BinaryOp}
    (h : Stops fi (precedence op + 4) rest) (stack : List (Expr × BinaryOp)) (l r : Expr) :
    orRest fi ((l, op) :: stack) r rest = orRest fi stack (.binary op l r) rest := by
  cases hop : binaryOp? fi (firstToken rest) with
  | none => simp [orRest, bind_apply, hop, reduce]
  | some next =>
      have hle : precedence next ≤ precedence op := by
        have hrank := rank_binaryOp hop
        unfold Stops at h
        omega
      simp [orRest, bind_apply, hop, reduce, hle]

/-- The first token is one that an operand of a member expression starts with. -/
structure StartsOperand (ts : List Lexeme) : Prop where
  unaryOp : unaryOp? (firstToken ts) = none
  updateOp : updateOp? (firstToken ts) = none
  not_yield : firstToken ts ≠ .kw .yield
  not_eof : firstToken ts ≠ .eof

/-- What begins like an operand goes on like one. -/
theorem StartsOperand.append {ts : List Lexeme} (h : StartsOperand ts) (rest : List Lexeme) :
    StartsOperand (ts ++ rest) := by
  refine ⟨?_, ?_, ?_, ?_⟩ <;> rw [firstToken_append h.not_eof]
  · exact h.unaryOp
  · exact h.updateOp
  · exact h.not_yield
  · exact h.not_eof

/-- As the head of a member expression, whatever the accesses that follow. -/
def MemberReads (allowCallSyntax : Bool) (ts : List Lexeme) (r : Option Expr) : Prop :=
  ∀ rest, memberFrom allowCallSyntax (ts ++ rest) =
    r.bind fun e => memberRest allowCallSyntax e rest

/-- Line breaks at the end are left over. -/
def UnaryReads (fi : Bool) (c : ℕ) (ts : List Lexeme) (r : Option Expr) : Prop :=
  ∃ n, ∀ rest, Stops fi c rest → unaryExpr (ts ++ rest) = r.map fun e => (e, eols n ++ rest)

/-- As an operand in a context of the printer, whose operator is on the stack. -/
def OrReads (fi : Bool) (c : ℕ) (ts : List Lexeme) (r : Option Expr) : Prop :=
  ∃ n, ∀ stack rest, (∀ x ∈ stack.head?, precedence x.2 + 4 ≤ c) → Stops fi (c + 1) rest →
    Stops fi 14 rest →
    orExpr1 fi stack (ts ++ rest) = r.bind fun e => orRest fi stack e (eols n ++ rest)

/-- What follows may be of the head of a `for` only if the text does not end in a
body of a function, which is read outside it. -/
def AssignReads (fi fj : Bool) (c : ℕ) (ts : List Lexeme) (r : Option Expr) : Prop :=
  ∃ n, ∀ rest, Stops fj c rest →
    assignExpr fi (ts ++ rest) = r.map fun e => (e, eols n ++ rest)

def ExprReads (fi : Bool) (ts : List Lexeme) (r : Option Expr) : Prop :=
  ∃ n, ∀ rest, Stops false 0 rest → expr fi (ts ++ rest) = r.map fun e => (e, eols n ++ rest)

variable {ts : List Lexeme} {r : Option Expr}

/-- What the loop of `memberExpr` goes on with. -/
theorem memberRest_stop {fi ac : Bool} {rest : List Lexeme} (h : Stops fi 16 rest) (e : Expr) :
    memberRest ac e rest = some (e, rest) := by
  have hdot : firstToken rest ≠ .punct .dot := fun heq => by simp [Stops, heq, rank] at h
  have hlb : firstToken rest ≠ .punct .lb := fun heq => by simp [Stops, heq, rank] at h
  have hlp : firstToken rest ≠ .punct .lp := fun heq => by simp [Stops, heq, rank] at h
  rw [memberRest]
  simp only [bind_apply, peekToken_apply, Option.bind_some]
  rfl

/-- What `unaryExpr` does with an operand without a prefix, in terms of the token
after it. -/
theorem unaryExpr_operand {rest : List Lexeme} (hstart : StartsOperand ts) {e : Option Expr}
    {rest' : List Lexeme} (hmember : memberFrom true (ts ++ rest) = e.map fun e => (e, rest'))
    (hupdate : updateOp? (firstToken rest') = none) :
    unaryExpr (ts ++ rest) = e.map fun e => (e, rest') := by
  simp only [memberFrom, bind_apply, getToken_apply, Option.bind_some,
    firstToken_append hstart.not_eof] at hmember
  rw [unaryExpr]
  simp only [bind_apply, getToken_apply, Option.bind_some, firstToken_append hstart.not_eof,
    hstart.unaryOp, hstart.updateOp, hmember]
  cases e with
  | none => rfl
  | some e =>
      have hnone : updateOp? (if rest'.head? = some .eol then .eol else firstToken rest') =
          none := by
        split
        · rfl
        · exact hupdate
      simp [peekTokenSameLine_apply, hnone]

theorem MemberReads.unary (h : MemberReads true ts r) (hstart : StartsOperand ts) (fi : Bool) :
    UnaryReads fi 14 ts r := by
  refine ⟨0, fun rest hrest => ?_⟩
  apply unaryExpr_operand hstart ?_ (updateOp?_none hrest)
  rw [h rest]
  cases r with
  | none => rfl
  | some e => exact memberRest_stop (hrest.mono (by omega)) e

theorem UnaryReads.or {fi : Bool} (h : UnaryReads fi 14 ts r) (c : ℕ) : OrReads fi c ts r := by
  obtain ⟨n, hn⟩ := h
  refine ⟨n, fun stack rest _ _ hrest => ?_⟩
  rw [orExpr1_eq, bind_apply, hn rest hrest]
  cases r <;> rfl

/-- The productions above the operators add nothing where nothing of theirs follows. -/
theorem assignExpr_of_or {fi : Bool} {rest rest' : List Lexeme} (heof : firstToken ts ≠ .eof)
    (hyield : firstToken ts ≠ .kw .yield) (hrest : Stops fi 2 rest')
    (hor : orExpr1 fi [] (ts ++ rest) = r.bind fun e => orRest fi [] e rest') :
    assignExpr fi (ts ++ rest) = r.map fun e => (e, rest') := by
  rw [assignExpr]
  simp only [bind_apply, matchToken_apply, firstToken_append heof, hyield, if_false,
    Option.bind_some, Bool.false_eq_true]
  rw [condExpr1]
  simp only [bind_apply, hor]
  cases r with
  | none => rfl
  | some e =>
      simp [orRest_stop (hrest.mono (by omega)), reduce, matchToken_apply,
        hook_ne (hrest.mono (by omega)), assignOp?_none hrest, arrow_ne hrest]

theorem OrReads.assign {fi : Bool} {c : ℕ} (h : OrReads fi c ts r) (hc : 1 ≤ c)
    (heof : firstToken ts ≠ .eof) (hyield : firstToken ts ≠ .kw .yield) :
    AssignReads fi fi 2 ts r := by
  obtain ⟨n, hn⟩ := h
  refine ⟨n, fun rest hrest => ?_⟩
  exact assignExpr_of_or heof hyield ((stops_eols n).mpr hrest)
    (hn [] rest (by simp) (hrest.mono (by omega)) (hrest.mono (by omega)))

/-- A function, which is followed by none of the operators. -/
theorem UnaryReads.assign {fj : Bool} (h : UnaryReads fj 2 ts r) (heof : firstToken ts ≠ .eof)
    (hyield : firstToken ts ≠ .kw .yield) {fi : Bool} (hfj : fj = true → fi = true) :
    AssignReads fi fj 2 ts r := by
  obtain ⟨n, hn⟩ := h
  refine ⟨n, fun rest hrest => ?_⟩
  have hstop : Stops fi 2 (eols n ++ rest) := by
    rw [stops_eols]
    cases fj with
    | false => exact hrest.of_false fi
    | true => rwa [hfj rfl]
  apply assignExpr_of_or heof hyield hstop
  rw [orExpr1_eq, bind_apply, hn rest hrest]
  cases r <;> rfl

theorem AssignReads.mono {fi fj : Bool} {c c' : ℕ} (h : AssignReads fi fj c ts r)
    (hc : c' ≤ c) : AssignReads fi fj c' ts r := by
  obtain ⟨n, hn⟩ := h
  exact ⟨n, fun rest hrest => hn rest (hrest.mono hc)⟩

theorem AssignReads.of_le {fi fj fj' : Bool} {c : ℕ} (h : AssignReads fi fj c ts r)
    (hfj : fj' = true → fj = true) : AssignReads fi fj' c ts r := by
  obtain ⟨n, hn⟩ := h
  refine ⟨n, fun rest hrest => hn rest ?_⟩
  cases fj' with
  | false => exact hrest.of_false fj
  | true => rwa [hfj rfl]

/-- A line break at the end is left over. -/
theorem AssignReads.eol_after {fi fj : Bool} {c : ℕ} (h : AssignReads fi fj c ts r) :
    AssignReads fi fj c (ts ++ [.eol]) r := by
  obtain ⟨n, hn⟩ := h
  refine ⟨n + 1, fun rest hrest => ?_⟩
  have hread := hn (.eol :: rest) hrest
  have heols : eols n ++ .eol :: rest = eols (n + 1) ++ rest := eols_add n 1 rest
  rw [heols] at hread
  rw [List.append_assoc]
  exact hread

theorem AssignReads.expr {fi fj : Bool} {c : ℕ} (h : AssignReads fi fj c ts r) :
    ExprReads fi ts r := by
  obtain ⟨n, hn⟩ := h
  refine ⟨n, fun rest hrest => ?_⟩
  rw [Parser.expr]
  simp only [bind_apply, hn rest ((hrest.of_false fj).mono (Nat.zero_le c))]
  cases r with
  | none => rfl
  | some e =>
      have hcomma := comma_ne (hrest.mono (Nat.zero_le 1))
      simp [matchToken_apply, firstToken_eols, hcomma]

theorem startsOperand_punct {p : Punct} (h : p = .lp ∨ p = .lb ∨ p = .lc) (s : List Lexeme) :
    StartsOperand (.punct p :: s) := by
  obtain rfl | rfl | rfl := h <;> exact ⟨rfl, rfl, by simp, by simp⟩

/-- An expression in parentheses is an operand. -/
theorem ExprReads.parens (h : ExprReads false ts r) (ac : Bool) :
    MemberReads ac (.punct .lp :: ts ++ [.punct .rp]) r := by
  obtain ⟨n, hn⟩ := h
  intro rest
  have hinner := hn (.punct .rp :: rest) (by simp [Stops, rank])
  simp only [memberFrom, bind_apply, getToken_apply, Option.bind_some, List.cons_append,
    firstToken_punct, afterToken_punct, List.append_assoc]
  rw [memberExpr, primaryExpr]
  simp only [bind_apply, reduceCtorEq, if_false, List.nil_append, hinner]
  cases r with
  | none => rfl
  | some e => simp [mustMatchToken_apply, firstToken_eols, afterToken_eols]

/-! ### The contexts of the printer -/

/-- What a context asks of a text: the tighter it is, the more productions read the
text. One that is not `single` has a comma at its top. -/
structure ReadsAt (fi fj : Bool) (c : ℕ) (single : Bool) (ts : List Lexeme)
    (r : Option Expr) : Prop where
  expr : ExprReads fi ts r
  assign : 2 ≤ c ∨ single = true → AssignReads fi fj (min c 2) ts r
  or : 4 ≤ c → OrReads fi c ts r
  unary : 14 ≤ c → UnaryReads true 14 ts r
  member : 17 ≤ c → MemberReads true ts r
  callee : 18 ≤ c → MemberReads false ts r

section

variable {fi fj single : Bool} {c : ℕ}

theorem ReadsAt.of_assign (h : AssignReads fi fj 2 ts r) (hc : c ≤ 3) :
    ReadsAt fi fj c single ts r where
  expr := h.expr
  assign _ := h.mono (min_le_right c 2)
  or := by omega
  unary := by omega
  member := by omega
  callee := by omega

theorem ReadsAt.of_or (h : ∀ d ≤ max c 4, OrReads fi d ts r) (heof : firstToken ts ≠ .eof)
    (hyield : firstToken ts ≠ .kw .yield) (hfj : fj = true → fi = true) (hc : c ≤ 13) :
    ReadsAt fi fj c single ts r := by
  have hassign := (h 4 (le_max_right c 4)).assign (by omega) heof hyield
  exact
    { expr := hassign.expr
      assign := fun _ => (hassign.of_le hfj).mono (min_le_right c 2)
      or := fun _ => h c (le_max_left c 4)
      unary := by omega
      member := by omega
      callee := by omega }

theorem UnaryReads.of_true (h : UnaryReads true c ts r) (fi : Bool) : UnaryReads fi c ts r := by
  obtain ⟨n, hn⟩ := h
  refine ⟨n, fun rest hrest => hn rest ?_⟩
  cases fi with
  | false => exact hrest.of_false true
  | true => exact hrest

theorem ReadsAt.of_unary (h : UnaryReads true 14 ts r) (heof : firstToken ts ≠ .eof)
    (hyield : firstToken ts ≠ .kw .yield) (hfj : fj = true → fi = true)
    (hmember : 17 ≤ c → MemberReads true ts r) (hcallee : 18 ≤ c → MemberReads false ts r) :
    ReadsAt fi fj c single ts r := by
  have hor := (h.of_true fi).or
  have hassign := (hor 4).assign (by omega) heof hyield
  exact
    { expr := hassign.expr
      assign := fun _ => (hassign.of_le hfj).mono (min_le_right c 2)
      or := fun _ => hor c
      unary := fun _ => h
      member := hmember
      callee := hcallee }

theorem ReadsAt.of_member (h : MemberReads true ts r) (hstart : StartsOperand ts)
    (hfj : fj = true → fi = true) (hcallee : 18 ≤ c → MemberReads false ts r) :
    ReadsAt fi fj c single ts r :=
  .of_unary (h.unary hstart true) hstart.not_eof hstart.not_yield hfj (fun _ => h) hcallee

/-- Parentheses make an operand of any expression. -/
theorem ReadsAt.parens (h : ExprReads false ts r) (hfj : fj = true → fi = true) :
    ReadsAt fi fj c single (.punct .lp :: ts ++ [.punct .rp]) r :=
  .of_member (h.parens true) (startsOperand_punct (by simp) _) hfj fun _ => h.parens false

/-- What a sequence at the top of a text is read as. -/
theorem ReadsAt.of_sequence {fi fj : Bool} {c : ℕ} {ts : List Lexeme} {r : Option Expr}
    (h : ExprReads fi ts r) (hc : c < 2) : ReadsAt fi fj c false ts r where
  expr := h
  assign hc' := by
    obtain hc' | hc' := hc'
    · omega
    · simp at hc'
  or := by omega
  unary := by omega
  member := by omega
  callee := by omega

end

end Parser

end MetaMonkey.Frontend
