import Mathlib.Data.List.DropRight
import MetaMonkey.Frontend.TokenStream

/-!
The function statement, whose name may be an escape. The parser of the operand is
`unaryExpr`; what the grammar of the tag wants in the parentheses is an `expr`. A function
that has become strict by its body is parsed again, from behind the keyword `function`.
-/

namespace MetaMonkey.Frontend

inductive FunctionError where
  | unnamedFunctionStmt
  | operand
  | strictFunctionStatement
  | parenBeforeFormal
  | argsAndBody
  deriving DecidableEq

/-- How a parameter list and a body end. A body that is not strict may ask to be parsed as
strict. -/
inductive ArgsAndBody (τ : Type) where
  | node (rest : List τ)
  | becameStrict
  | failed (error : FunctionError)
  deriving DecidableEq

/-- The productions that a function statement is made of. Each returns what it has read and
the tokens that are left. -/
structure FunctionParts (τ ε : Type) where
  kind : τ → TokenKind
  unaryExpr : List τ → Option (ε × List τ)
  expr : List τ → Option (ε × List τ)
  /-- Parameters and body, of strict code or not, where the parameter list starts with `(`. -/
  argsAndBody (strict : Bool) : List τ → ArgsAndBody τ
  unaryExpr_suffix : ∀ {ts e rest}, unaryExpr ts = some (e, rest) → rest <:+ ts
  expr_suffix : ∀ {ts e rest}, expr ts = some (e, rest) → rest <:+ ts
  /-- No expression ends with the keyword of a function. -/
  unaryExpr_end : ∀ {u t ts e}, unaryExpr (u ++ t :: ts) = some (e, ts) → kind t ≠ .function
  /-- An expression begins with its first unary expression. -/
  expr_beyond : ∀ {ts e e' rest rest'}, unaryExpr ts = some (e, rest) →
    expr ts = some (e', rest') → rest' <:+ rest
  /-- Where `)` follows, no operator makes more of a unary expression. -/
  expr_of_unaryExpr : ∀ {ts e t rest}, unaryExpr ts = some (e, t :: rest) → kind t = .rp →
    expr ts = some (e, t :: rest)

inductive FunctionName (τ ε : Type) where
  | name (t : τ)
  | escape (e : ε)
  deriving DecidableEq

/-- The name, the tokens from the parameter list that was read on, and those behind the
function. -/
structure FunctionNode (τ ε : Type) where
  name : FunctionName τ ε
  params : List τ
  rest : List τ
  deriving DecidableEq

structure FunctionContext where
  strict : Bool
  atBodyLevel : Bool

section

variable {τ ε : Type} (P : FunctionParts τ ε)

/-- The type of the next token; at the end of the tokens there is always another `TOK_EOF`. -/
def nextKind (ts : List τ) : TokenKind := (ts.head?.map P.kind).getD .eof

/-- `!tt == other`, in which the negation is a number. -/
def negatedEquals (tt other : TokenKind) : Bool :=
  (if tt.value = 0 then 1 else 0) = other.value

def escapedName (ts : List τ) : Except FunctionError (ε × List τ) :=
  if negatedEquals (nextKind P ts) .lp then .error .unnamedFunctionStmt
  else
    match P.unaryExpr ts.tail with
    | none => .error .operand
    | some (escpn, ts) =>
        if negatedEquals (nextKind P ts) .rp then .error .unnamedFunctionStmt
        else .ok (escpn, ts.tail)

def functionName : List τ → Except FunctionError (FunctionName τ ε × List τ)
  | [] => .error .unnamedFunctionStmt
  | t :: ts =>
      if P.kind t = .name then .ok (.name t, ts)
      else if P.kind t = .metaEsc then
        (escapedName P ts).map fun (escpn, ts) => (.escape escpn, ts)
      else .error .unnamedFunctionStmt

/-- The tokens behind the last keyword `function` that has been read: the one of the statement
or one in its name. Of the tokens `ts` behind the former `rest` are left. -/
def positionAfterLastFunctionKeyword (ts rest : List τ) : List τ :=
  ((ts.take (ts.length - rest.length)).rtakeWhile fun t => P.kind t ≠ .function) ++ rest

/-- `functionArgsAndBody`, as far as the `(` in `functionArguments` -/
def functionArgsAndBody (strict : Bool) (ts : List τ) : ArgsAndBody τ :=
  if nextKind P ts = .lp then P.argsAndBody strict ts else .failed .parenBeforeFormal

/-- `functionDef` of a function with a name: the tokens from the parameter list on, and those
behind the function. -/
def functionDef (start : List τ) (initiallyStrict : Bool) (ts : List τ) :
    Except FunctionError (List τ × List τ) :=
  match functionArgsAndBody P initiallyStrict ts with
  | .node rest => .ok (ts, rest)
  | .failed error => .error error
  | .becameStrict =>
      if initiallyStrict then .error .argsAndBody
      else
        -- back to the name, of which one token is skipped
        match functionArgsAndBody P true start.tail with
        | .node rest => .ok (start.tail, rest)
        | .failed error => .error error
        | .becameStrict => .error .argsAndBody

def functionStmtDef (pc : FunctionContext) (start ts : List τ) :
    Except FunctionError (List τ × List τ) :=
  if !pc.atBodyLevel && pc.strict then .error .strictFunctionStatement
  else functionDef P start pc.strict ts

/-- `functionStmt`, behind its keyword. -/
def functionStmt (pc : FunctionContext) (ts : List τ) :
    Except FunctionError (FunctionNode τ ε) := do
  let (name, left) ← functionName P ts
  let start := positionAfterLastFunctionKeyword P ts left
  let (params, rest) ← functionStmtDef P pc start left
  return ⟨name, params, rest⟩

/-! ### The intended grammar -/

/-- `( e )` and a function, which starts with its parameter list even if it is read again. -/
inductive EscapedFunction (pc : FunctionContext) : List τ → ε → List τ → List τ → Prop
  | intro {t₁ t₂ : τ} {body params rest : List τ} {e : ε} (hopen : P.kind t₁ = .lp)
      (hexpr : P.expr body = some (e, t₂ :: params)) (hclose : P.kind t₂ = .rp)
      (hdef : functionStmtDef P pc (t₂ :: params) params = .ok (params, rest)) :
      EscapedFunction pc (t₁ :: body) e params rest

/-- The tokens `u` are what a production reads of what follows, as `e`. -/
def Consumes (production : List τ → Option (ε × List τ)) (u : List τ) (e : ε) (rest : List τ) :
    Prop :=
  production (u ++ rest) = some (e, rest)

/-- The three ways in which the tokens behind `.~` may go wrong do not occur. -/
structure NameIntended (pc : FunctionContext) (tag : τ) (ts : List τ) : Prop where
  /-- A unary expression with one token before it and one behind it, and then a function, has
  these two as its parentheses. -/
  parens : ∀ {t t' u e params r}, ts = t :: (u ++ t' :: params) →
    Consumes P.unaryExpr u e (t' :: params) →
      functionStmtDef P pc (positionAfterLastFunctionKeyword P (tag :: ts) params) params =
        .ok r → P.kind t = .lp ∧ P.kind t' = .rp
  /-- An expression in parentheses before a function is a unary expression. -/
  unary : ∀ {t t' u e params r}, ts = t :: (u ++ t' :: params) → P.kind t = .lp →
    P.kind t' = .rp → Consumes P.expr u e (t' :: params) →
      functionStmtDef P pc (t' :: params) params = .ok r →
        ∃ e', Consumes P.unaryExpr u e' (t' :: params)
  /-- A function that its body makes strict is no strict function, neither from its parameter
  list on nor from the second token behind the keyword. -/
  sloppy : ∀ {t t' u e params}, ts = t :: (u ++ t' :: params) → P.kind t = .lp →
    P.kind t' = .rp → Consumes P.unaryExpr u e (t' :: params) → pc.strict = false →
      functionArgsAndBody P false params = .becameStrict → ∀ rest,
        functionArgsAndBody P true params ≠ .node rest ∧
          functionArgsAndBody P true
            (positionAfterLastFunctionKeyword P (tag :: ts) params).tail ≠ .node rest

/-! ### What is accepted -/

theorem not_negatedEquals {tt other : TokenKind} (h : 1 < other.value) :
    negatedEquals tt other = false := by
  unfold negatedEquals
  split <;> simp <;> omega

variable {P} {pc : FunctionContext}

theorem escapedName_eq (ts : List τ) :
    escapedName P ts =
      match P.unaryExpr ts.tail with
      | none => .error .operand
      | some (escpn, ts) => .ok (escpn, ts.tail) := by
  have hlp : 1 < TokenKind.lp.value := by decide
  have hrp : 1 < TokenKind.rp.value := by decide
  simp [escapedName, not_negatedEquals hlp, not_negatedEquals hrp]

theorem nextKind_eq_lp {ts : List τ} (h : nextKind P ts = .lp) :
    ∃ t rest, ts = t :: rest ∧ P.kind t = .lp := by
  cases ts with
  | nil => cases h
  | cons t rest => exact ⟨t, rest, rfl, h⟩

theorem functionArgsAndBody_lp {strict : Bool} {ts : List τ}
    (h : functionArgsAndBody P strict ts = .becameStrict) :
    ∃ t rest, ts = t :: rest ∧ P.kind t = .lp := by
  by_cases hlp : nextKind P ts = .lp
  · exact nextKind_eq_lp hlp
  · rw [functionArgsAndBody, if_neg hlp] at h
    cases h

/-- A function is read from where its parameter list is, or again from the start. -/
theorem functionDef_eq_ok {start ts place rest : List τ} {strict : Bool} :
    functionDef P start strict ts = .ok (place, rest) ↔
      functionArgsAndBody P strict ts = .node rest ∧ place = ts ∨
        strict = false ∧ functionArgsAndBody P false ts = .becameStrict ∧
          functionArgsAndBody P true start.tail = .node rest ∧ place = start.tail := by
  rw [functionDef]
  cases hfirst : functionArgsAndBody P strict ts with
  | node left =>
      cases strict <;> simp [hfirst, eq_comm, and_comm]
  | failed error => cases strict <;> simp [hfirst]
  | becameStrict =>
      cases strict with
      | true => simp
      | false =>
          cases functionArgsAndBody P true start.tail <;> simp [hfirst, eq_comm, and_comm]

theorem functionStmtDef_eq_ok {start ts : List τ} {r : List τ × List τ} :
    functionStmtDef P pc start ts = .ok r ↔
      (pc.strict = true → pc.atBodyLevel = true) ∧ functionDef P start pc.strict ts = .ok r := by
  rw [functionStmtDef]
  cases hlevel : pc.atBodyLevel <;> cases hstrict : pc.strict <;> simp

theorem functionStmtDef_own {t : τ} {params : List τ} {r : List τ × List τ}
    (h : functionStmtDef P pc (t :: params) params = .ok r) : ∃ rest, r = (params, rest) := by
  obtain ⟨-, hdef⟩ := functionStmtDef_eq_ok.mp h
  obtain ⟨-, hplace⟩ | ⟨-, -, -, hplace⟩ := functionDef_eq_ok.mp hdef <;>
    exact ⟨r.2, Prod.ext hplace rfl⟩

theorem functionStmtDef_nil {start : List τ} {r : List τ × List τ} :
    functionStmtDef P pc start [] ≠ .ok r := by
  rw [Ne, functionStmtDef_eq_ok, not_and]
  intro _ h
  cases h

theorem take_read (pre params : List τ) (t : τ) :
    (pre ++ t :: params).take ((pre ++ t :: params).length - params.length) = pre ++ [t] := by
  rw [List.append_cons]
  refine List.take_left' ?_
  simp only [List.length_append, List.length_singleton]
  omega

/-- The tokens behind the last keyword, if it is not the last of those that have been read. -/
theorem positionAfterLastFunctionKeyword_append (pre params : List τ) {t : τ}
    (ht : P.kind t ≠ .function) :
    positionAfterLastFunctionKeyword P (pre ++ t :: params) params =
      pre.rtakeWhile (fun t => P.kind t ≠ .function) ++ t :: params := by
  rw [positionAfterLastFunctionKeyword, take_read,
    List.rtakeWhile_concat_pos _ _ t (decide_eq_true ht), List.append_assoc, List.singleton_append]

theorem positionAfterLastFunctionKeyword_function {pre params : List τ} {t : τ}
    (ht : P.kind t = .function) :
    positionAfterLastFunctionKeyword P (pre ++ t :: params) params = params := by
  rw [positionAfterLastFunctionKeyword, take_read,
    List.rtakeWhile_concat_neg _ _ t (by simp [ht]), List.nil_append]

/-- Behind a name in parentheses the second parse starts before the parameter list. -/
theorem length_lt_start (tag : τ) {t t' : τ} {u params : List τ} {e : ε} (hopen : P.kind t = .lp)
    (hclose : P.kind t' = .rp) (hreads : Consumes P.unaryExpr u e (t' :: params)) :
    params.length <
      (positionAfterLastFunctionKeyword P
        (tag :: t :: (u ++ t' :: params)) params).tail.length := by
  have ht' : P.kind t' ≠ .function := by
    rw [hclose]
    decide
  have hlast : ((tag :: t :: u).rtakeWhile fun t => P.kind t ≠ .function) ≠ [] := by
    rcases List.eq_nil_or_concat' u with rfl | ⟨u, last, rfl⟩
    · rw [show [tag, t] = [tag] ++ [t] from rfl,
        List.rtakeWhile_concat_pos _ _ t (by simp [hopen])]
      simp
    · have hkind : P.kind last ≠ .function := by
        rw [Consumes, List.append_assoc, List.singleton_append] at hreads
        exact P.unaryExpr_end hreads
      rw [show tag :: t :: (u ++ [last]) = (tag :: t :: u) ++ [last] from rfl,
        List.rtakeWhile_concat_pos _ _ last (decide_eq_true hkind)]
      simp
  have hstart := positionAfterLastFunctionKeyword_append (tag :: t :: u) params ht'
  rw [List.cons_append, List.cons_append] at hstart
  rw [hstart, List.tail_append_of_ne_nil hlast, List.length_append, List.length_cons]
  omega

theorem functionStmt_escape_iff {t : τ} (ht : P.kind t = .metaEsc) {ts place rest : List τ}
    {e : ε} :
    functionStmt P pc (t :: ts) = .ok ⟨.escape e, place, rest⟩ ↔
      ∃ t' params, P.unaryExpr ts.tail = some (e, t' :: params) ∧
        functionStmtDef P pc (positionAfterLastFunctionKeyword P (t :: ts) params) params =
          .ok (place, rest) := by
  have hname : functionName P (t :: ts) =
      (escapedName P ts).map fun (escpn, ts) => (.escape escpn, ts) := by
    simp [functionName, ht]
  rw [functionStmt, hname, escapedName_eq]
  cases hunary : P.unaryExpr ts.tail with
  | none => simp [Except.map, bind, Except.bind]
  | some r =>
      obtain ⟨e', left⟩ := r
      cases left with
      | nil =>
          simp only [Except.map, bind, Except.bind, List.tail_nil]
          cases hdef : functionStmtDef P pc (positionAfterLastFunctionKeyword P (t :: ts) []) []
            with
          | ok r => exact absurd hdef functionStmtDef_nil
          | error e => simp
      | cons t' params =>
          simp only [Except.map, bind, Except.bind, List.tail_cons]
          cases hdef : functionStmtDef P pc
            (positionAfterLastFunctionKeyword P (t :: ts) params) params with
          | ok r => simp [hdef, pure, Except.pure, Prod.ext_iff]
          | error e => simp [hdef]

theorem eq_of_suffix {body rest : List τ} {t t' : τ} (h : t :: rest <:+ body)
    (h' : t' :: rest <:+ body) : t = t' := by
  obtain ⟨pre, hpre⟩ := h
  obtain ⟨pre', hpre'⟩ := h'
  have heq : pre ++ [t] = pre' ++ [t'] :=
    List.append_cancel_right (show pre ++ [t] ++ rest = pre' ++ [t'] ++ rest by simp [hpre, hpre'])
  exact (List.append_inj' heq rfl).2 |> List.singleton_inj.mp

/-- A parameter list behind a `)` in what follows the name is the one behind the name, also if
it is read again. -/
theorem eq_of_closed {tag t' t₂ : τ} (pre : List τ) {params place rest : List τ}
    (hclose : P.kind t₂ = .rp) (hbeyond : t₂ :: place <:+ t' :: params)
    (hdef : functionStmtDef P pc
      (positionAfterLastFunctionKeyword P (tag :: (pre ++ t' :: params)) params) params =
        .ok (place, rest)) : t₂ = t' ∧ place = params := by
  obtain ⟨-, hdef⟩ := functionStmtDef_eq_ok.mp hdef
  obtain ⟨-, rfl⟩ | ⟨-, hbecame, -, hplace⟩ := functionDef_eq_ok.mp hdef
  · exact ⟨eq_of_suffix hbeyond List.suffix_rfl, rfl⟩
  · rw [← List.cons_append] at hplace
    by_cases ht' : P.kind t' = .function
    · -- then the second parse skips the `(`
      rw [positionAfterLastFunctionKeyword_function ht'] at hplace
      obtain ⟨t₃, rest', rfl, ht₃⟩ := functionArgsAndBody_lp hbecame
      rw [hplace, List.tail_cons] at hbeyond
      have heq := eq_of_suffix hbeyond (List.suffix_cons t' _)
      rw [heq, ht₃] at hclose
      cases hclose
    · rw [positionAfterLastFunctionKeyword_append _ _ ht'] at hplace
      have hlength := hbeyond.length_le
      rcases hback : (tag :: pre).rtakeWhile fun t => P.kind t ≠ .function with _ | ⟨x, back⟩
      · rw [hback] at hplace
        exact ⟨eq_of_suffix (hplace ▸ hbeyond) List.suffix_rfl, hplace⟩
      · rw [hback, List.cons_append, List.tail_cons] at hplace
        rw [hplace] at hlength
        simp at hlength
        omega

theorem EscapedFunction.accepted {t : τ} {body params rest : List τ} {e : ε}
    (h : EscapedFunction P pc (t :: body) e params rest) :
    ∃ t₂, P.kind t = .lp ∧ P.kind t₂ = .rp ∧ P.expr body = some (e, t₂ :: params) ∧
      functionStmtDef P pc (t₂ :: params) params = .ok (params, rest) := by
  cases h with
  | intro hopen hexpr hclose hdef => exact ⟨_, hopen, hclose, hexpr, hdef⟩

theorem exists_consumes {production : List τ → Option (ε × List τ)} {body rest : List τ} {e : ε}
    (hsuffix : rest <:+ body) (h : production body = some (e, rest)) :
    ∃ u, body = u ++ rest ∧ Consumes production u e rest := by
  obtain ⟨u, rfl⟩ := hsuffix
  exact ⟨u, rfl, h⟩

/-- An escaped name and the function behind it are read as the grammar intends it exactly if
the tokens around the operand are its parentheses, the operand is a unary expression, and the
function is not parsed again. -/
theorem functionStmt_escape_intended_iff (P : FunctionParts τ ε) (pc : FunctionContext) (t : τ)
    (ts : List τ) (ht : P.kind t = .metaEsc) :
    (∀ e params rest, functionStmt P pc (t :: ts) = .ok ⟨.escape e, params, rest⟩ ↔
        EscapedFunction P pc ts e params rest) ↔
      NameIntended P pc t ts := by
  simp only [functionStmt_escape_iff ht]
  constructor
  · intro h
    exact {
      parens := fun {t₁ t' u e params r} hts hreads hdef => by
        subst hts
        obtain ⟨place, rest⟩ := r
        obtain ⟨t₂, hopen, hclose, hexpr, -⟩ :=
          ((h e place rest).mp ⟨t', params, hreads, hdef⟩).accepted
        obtain ⟨rfl, -⟩ := eq_of_closed (t₁ :: u) hclose (P.expr_beyond hreads hexpr) hdef
        exact ⟨hopen, hclose⟩
      unary := fun {t₁ t' u e params r} hts hopen hclose hreads hdef => by
        subst hts
        obtain ⟨rest, rfl⟩ := functionStmtDef_own hdef
        obtain ⟨t'', left, hunary, hleft⟩ :=
          (h e params rest).mpr (.intro hopen hreads hclose hdef)
        obtain ⟨u', hu', hreads'⟩ := exists_consumes (P.unaryExpr_suffix hunary) hunary
        rw [List.tail_cons] at hu'
        rw [hu'] at hleft
        obtain ⟨rfl, rfl⟩ :=
          eq_of_closed (t₁ :: u') hclose (P.expr_beyond hunary hreads) hleft
        exact ⟨e, hunary⟩
      sloppy := fun {t₁ t' u e params} hts hopen hclose hreads hstrict hbecame rest => by
        subst hts
        have hallowed : pc.strict = true → pc.atBodyLevel = true := fun h =>
          absurd (hstrict.symm.trans h) Bool.false_ne_true
        have hlength := length_lt_start t hopen hclose hreads
        have hexpr := P.expr_of_unaryExpr hreads hclose
        constructor
        · intro hown
          have hdef : functionStmtDef P pc (t' :: params) params = .ok (params, rest) :=
            functionStmtDef_eq_ok.mpr ⟨hallowed, functionDef_eq_ok.mpr
              (Or.inr ⟨hstrict, hbecame, hown, rfl⟩)⟩
          obtain ⟨t'', left, hunary, hleft⟩ :=
            (h e params rest).mpr (.intro hopen hexpr hclose hdef)
          cases hunary.symm.trans hreads
          obtain ⟨-, hleft⟩ := functionStmtDef_eq_ok.mp hleft
          rw [hstrict] at hleft
          obtain ⟨hnode, -⟩ | ⟨-, -, -, hplace⟩ := functionDef_eq_ok.mp hleft
          · rw [hbecame] at hnode
            cases hnode
          · exact hlength.ne (congrArg List.length hplace)
        · intro hback
          have hdef := functionStmtDef_eq_ok.mpr ⟨hallowed, functionDef_eq_ok.mpr
            (Or.inr ⟨hstrict, hbecame, hback, rfl⟩)⟩
          obtain ⟨t₂, -, -, hexpr', -⟩ := ((h e _ rest).mp ⟨t', params, hreads, hdef⟩).accepted
          obtain ⟨-, heq⟩ := Prod.mk.inj (Option.some_inj.mp (hexpr.symm.trans hexpr'))
          exact hlength.ne (congrArg List.length (List.cons.inj heq).2) }
  · rintro ⟨hparens, hunary, hsloppy⟩ e place rest
    constructor
    · rintro ⟨t', params, hread, hdef⟩
      cases ts with
      | nil => exact absurd (P.unaryExpr_suffix hread).length_le (by simp)
      | cons t₁ body =>
          obtain ⟨u, rfl, hreads⟩ := exists_consumes (P.unaryExpr_suffix hread) hread
          obtain ⟨hopen, hclose⟩ := hparens rfl hreads hdef
          obtain ⟨hallowed, hdef⟩ := functionStmtDef_eq_ok.mp hdef
          obtain ⟨hnode, rfl⟩ | ⟨hstrict, hbecame, hback, -⟩ := functionDef_eq_ok.mp hdef
          · exact .intro hopen (P.expr_of_unaryExpr hreads hclose) hclose
              (functionStmtDef_eq_ok.mpr ⟨hallowed, functionDef_eq_ok.mpr (Or.inl ⟨hnode, rfl⟩)⟩)
          · exact absurd hback (hsloppy rfl hopen hclose hreads hstrict hbecame rest).2
    · rintro ⟨hopen, hexpr, hclose, hdef⟩
      obtain ⟨u, rfl, hreads⟩ := exists_consumes (P.expr_suffix hexpr) hexpr
      obtain ⟨e', hreads'⟩ := hunary rfl hopen hclose hreads hdef
      cases hexpr.symm.trans (P.expr_of_unaryExpr hreads' hclose)
      obtain ⟨hallowed, hdef⟩ := functionStmtDef_eq_ok.mp hdef
      obtain ⟨hnode, -⟩ | ⟨hstrict, hbecame, hown, -⟩ := functionDef_eq_ok.mp hdef
      · exact ⟨_, _, hreads', functionStmtDef_eq_ok.mpr
          ⟨hallowed, functionDef_eq_ok.mpr (Or.inl ⟨hnode, rfl⟩)⟩⟩
      · exact absurd hown (hsloppy rfl hopen hclose hreads' hstrict hbecame rest).1

end

/-! ### Names and sums -/

/-- The productions for a name and for the sum of two names, and for functions without a
parameter or with one, whose body is empty or is a directive; a name in parentheses is a
body as well, of a closure at the end of the tokens. -/
def sums : FunctionParts TokenKind Unit where
  kind t := t
  unaryExpr
    | .name :: ts => some ((), ts)
    | _ => none
  expr
    | .name :: .plus :: .name :: ts => some ((), ts)
    | .name :: ts => some ((), ts)
    | _ => none
  argsAndBody strict
    | .lp :: .rp :: .lc :: .rc :: ts => .node ts
    | .lp :: .name :: .rp :: .lc :: .rc :: ts => .node ts
    | .lp :: .name :: .rp :: .lc :: .string :: .rc :: ts =>
        if strict then .node ts else .becameStrict
    | [.lp, .name, .rp, .lp, .name, .rp] => .node []
    | _ => .failed .argsAndBody
  unaryExpr_suffix {ts e rest} h := by
    split at h <;> cases h
    exact List.suffix_cons _ _
  expr_suffix {ts e rest} h := by
    split at h <;> cases h
    · exact ⟨[.name, .plus, .name], rfl⟩
    · exact List.suffix_cons _ _
  unaryExpr_end {u t ts e} h := by
    split at h
    · next rest heq =>
        cases h
        cases u with
        | nil => cases heq; decide
        | cons x u =>
            have hlength := congrArg List.length (List.cons.inj heq).2
            simp at hlength
            omega
    · cases h
  expr_beyond {ts e e' rest rest'} h h' := by
    split at h <;> cases h
    split at h' <;> cases h'
    · next heq =>
        cases heq
        exact ⟨[.plus, .name], rfl⟩
    · next heq =>
        cases heq
        exact List.suffix_rfl
  expr_of_unaryExpr {ts e t rest} h ht := by
    split at h <;> cases h
    subst ht
    rfl

def sloppyCode : FunctionContext := ⟨false, true⟩

/-- `function .~(a)(){}` -/
theorem functionStmt_escape_intended_name :
    functionStmt sums sloppyCode [.metaEsc, .lp, .name, .rp, .lp, .rp, .lc, .rc] =
        .ok ⟨.escape (), [.lp, .rp, .lc, .rc], []⟩ ∧
      EscapedFunction sums sloppyCode [.lp, .name, .rp, .lp, .rp, .lc, .rc] ()
        [.lp, .rp, .lc, .rc] [] := by
  have hintended : NameIntended sums sloppyCode .metaEsc [.lp, .name, .rp, .lp, .rp, .lc, .rc] := {
    parens := fun hts hreads _ => by
      obtain ⟨rfl, hbody⟩ := List.cons.inj hts
      rw [Consumes, ← hbody] at hreads
      cases hreads
      exact ⟨rfl, rfl⟩
    unary := fun hts _ _ hreads _ => by
      obtain ⟨-, hbody⟩ := List.cons.inj hts
      rw [Consumes, ← hbody] at hreads
      cases hreads
      exact ⟨(), by rw [Consumes, ← hbody]; rfl⟩
    sloppy := fun hts _ _ hreads _ hbecame => by
      obtain ⟨-, hbody⟩ := List.cons.inj hts
      rw [Consumes, ← hbody] at hreads
      cases hreads
      cases hbecame }
  have haccepted : functionStmt sums sloppyCode [.metaEsc, .lp, .name, .rp, .lp, .rp, .lc, .rc] =
      .ok ⟨.escape (), [.lp, .rp, .lc, .rc], []⟩ := by decide +kernel
  exact ⟨haccepted, ((functionStmt_escape_intended_iff sums sloppyCode .metaEsc
    [.lp, .name, .rp, .lp, .rp, .lc, .rc] rfl).mpr hintended _ _ _).mp haccepted⟩

/-- `function .~[a](){}` is accepted. Not accepted are `function .~(a + b)(){}` and, where the
body is a directive, `function .~(a)(b){"use strict"}`, of which `(a)` is read as the parameter
list in the end. -/
theorem functionStmt_escape_unintended :
    (functionStmt sums sloppyCode [.metaEsc, .lb, .name, .rb, .lp, .rp, .lc, .rc] =
        .ok ⟨.escape (), [.lp, .rp, .lc, .rc], []⟩ ∧
      ¬ EscapedFunction sums sloppyCode [.lb, .name, .rb, .lp, .rp, .lc, .rc] ()
        [.lp, .rp, .lc, .rc] []) ∧
    (functionStmt sums sloppyCode
        [.metaEsc, .lp, .name, .plus, .name, .rp, .lp, .rp, .lc, .rc] =
          .error .parenBeforeFormal ∧
      EscapedFunction sums sloppyCode [.lp, .name, .plus, .name, .rp, .lp, .rp, .lc, .rc] ()
        [.lp, .rp, .lc, .rc] []) ∧
    (functionStmt sums sloppyCode
        [.metaEsc, .lp, .name, .rp, .lp, .name, .rp, .lc, .string, .rc] = .error .argsAndBody ∧
      EscapedFunction sums sloppyCode [.lp, .name, .rp, .lp, .name, .rp, .lc, .string, .rc] ()
        [.lp, .name, .rp, .lc, .string, .rc] []) := by
  refine ⟨⟨rfl, ?_⟩, ⟨rfl, .intro rfl rfl rfl rfl⟩, rfl, .intro rfl rfl rfl rfl⟩
  intro h
  cases h with
  | intro hopen _ _ _ => cases hopen

end MetaMonkey.Frontend
