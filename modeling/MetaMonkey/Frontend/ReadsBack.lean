import MetaMonkey.Frontend.LayoutTokens

/-!
The parser reads the lexemes of a layout as `readBack` says, in each context in
which the printer puts the text. By induction over the trees: the rules of the
parser are applied to the layouts of the parts.
-/

namespace MetaMonkey.Frontend

open Js Layout MetaMonkey.Frontend.Parser

/-! ### Lists -/

section

theorem readBackExprs_eq (es : List Expr) : readBackExprs es = es.mapM Expr.readBack := by
  induction es with
  | nil => rfl
  | cons e es ih => rw [readBackExprs, ih, List.mapM_cons]

theorem readBackProperties_eq (xs : List Property) :
    readBackProperties xs = xs.mapM Property.readBack := by
  induction xs with
  | nil => rfl
  | cons x xs ih => rw [readBackProperties, ih, List.mapM_cons]

theorem readBackDeclarators_eq (ds : List Declarator) :
    readBackDeclarators ds = ds.mapM Declarator.readBack := by
  induction ds with
  | nil => rfl
  | cons d ds ih => rw [readBackDeclarators, ih, List.mapM_cons]

theorem readBackStmts_eq (ss : List Stmt) : readBackStmts ss = ss.mapM Stmt.readBack := by
  induction ss with
  | nil => rfl
  | cons s ss ih => rw [readBackStmts, ih, List.mapM_cons]

theorem readBackCases_eq (cs : List SwitchCase) :
    readBackCases cs = cs.mapM SwitchCase.readBack := by
  induction cs with
  | nil => rfl
  | cons c cs ih => rw [readBackCases, ih, List.mapM_cons]

end

/-! ### Expressions -/

/-- Where the head of a `for` is read, no `in` of the text is outside brackets. -/
def Guarded (fi n : Bool) (c : ℕ) (e : Expr) : Prop :=
  fi = true → (n = true ∨ 2 ≤ c) ∧ (1 ≤ c ∨ e.splitsHead = false) ∧
    (n = true ∨ 11 ≤ c ∨ e.level ≤ c ∨ e.bareIn = false)

/-- Where an `in` may follow, the text does not end in a body that would take it. -/
def Bounded (fi fj : Bool) (c : ℕ) (e : Expr) : Prop :=
  fj = true → fi = true ∧ 2 ≤ c ∧ (3 ≤ c ∨ e.endsInBody = false)

theorem guarded_false (n : Bool) (c : ℕ) (e : Expr) : Guarded false n c e := by
  simp [Guarded]

theorem bounded_false (fi : Bool) (c : ℕ) (e : Expr) : Bounded fi false c e := by
  simp [Bounded]

/-- Below its precedence an expression hands on what keeps an `in` in brackets. -/
theorem Guarded.inner {fi n : Bool} {c : ℕ} {e : Expr} (h : Guarded fi n c e) (hc : c < e.level)
    (hlevel : e.level ≤ 11) (hfi : fi = true) : n = true ∨ e.bareIn = false := by
  obtain hn | h11 | hle | hbare := (h hfi).2.2
  · exact Or.inl hn
  · omega
  · omega
  · exact Or.inr hbare

theorem guarded_child {fi n : Bool} {c : ℕ} {e : Expr} (hc : 2 ≤ c)
    (h : fi = true → n = true ∨ ¬ c < e.level ∨ e.bareIn = false) : Guarded fi n c e := by
  intro hfi
  refine ⟨Or.inr hc, Or.inl (by omega), ?_⟩
  obtain hn | hle | hbare := h hfi
  · exact Or.inl hn
  · exact Or.inr (Or.inr (Or.inl (by omega)))
  · exact Or.inr (Or.inr (Or.inr hbare))

def Expr.Reads (e : Expr) : Prop :=
  e.All Expr.Formed Stmt.Formed → e.isElision = false → ∀ k c n fi fj, Guarded fi n c e →
    Bounded fi fj c e → ReadsAt fi fj c (!e.isSequence) (meant (e.layout k c n)) e.readBack

section

variable {e : Expr} {fi fj n single : Bool} {k c L : ℕ} {ps : List Piece} {r : Option Expr}

/-- A text is in parentheses, or the context is below its precedence. -/
theorem reads_wrapIf (hb : Bounded fi fj c e)
    (hin : c < L → ReadsAt fi fj c single (meant ps) r) (hwrap : ExprReads false (meant ps) r) :
    ReadsAt fi fj c single (meant (wrapIf (L ≤ c) ps)) r := by
  rw [meant_wrapIf]
  by_cases hc : L ≤ c
  · simp only [hc, decide_true, if_true]
    exact .parens hwrap fun hfj => (hb hfj).1
  · simp only [hc, decide_false, Bool.false_eq_true, if_false]
    exact hin (by omega)

/-- Outside the head of a `for` nothing is asked of the text. -/
theorem Expr.Reads.outside (h : e.Reads) (hall : e.All Expr.Formed Stmt.Formed)
    (he : e.isElision = false) (k c : ℕ) (n : Bool) :
    ReadsAt false false c (!e.isSequence) (meant (e.layout k c n)) e.readBack :=
  h hall he k c n false false (guarded_false n c e) (bounded_false false c e)

theorem layout_reference (h : isReference e = true) (hc : c ≤ 17) :
    e.layout k c n = e.layout k 17 false := by
  have hc : ¬ 18 ≤ c := by omega
  cases e with
  | identifier name => rw [Expr.layout, Expr.layout]
  | member obj property =>
      rw [Expr.layout, Expr.layout]
      simp [hc]
  | index obj property =>
      rw [Expr.layout, Expr.layout]
      simp [hc]
  | call callee args =>
      rw [Expr.layout, Expr.layout]
      simp [hc]
  | _ => simp [isReference] at h

/-- What may be assigned to is read as an operand in every context but the tightest. -/
theorem Expr.Reads.reference (h : e.Reads) (href : isReference e = true)
    (hall : e.All Expr.Formed Stmt.Formed) (hc : c ≤ 17) :
    MemberReads true (meant (e.layout k c n)) e.readBack := by
  rw [layout_reference href hc]
  exact (h.outside hall (isElision_of_reference href) k 17 false).member le_rfl

theorem readBack_reference (href : isReference e = true) :
    ∀ e' ∈ e.readBack, isReference e' = true := by
  cases e <;> simp_all [isReference, Expr.readBack, Option.bind_eq_some_iff]
  all_goals
    intros
    subst_vars
    simp

theorem layout_startsOperand (hall : e.All Expr.Formed Stmt.Formed)
    (href : isReference e = true) (hc : c ≤ 17) : StartsOperand (meant (e.layout k c n)) := by
  rw [layout_reference href hc]
  exact (e.layout_begins k 17 false hall (isElision_of_reference href)).startsOperand (by omega)

end

theorem Expr.reads_identifier (name : JSString) : (Expr.identifier name).Reads := by
  intro hall _ k c n fi fj _ hb
  rw [Expr.All] at hall
  rw [Expr.layout, Expr.readBack]
  have hname := keyword?_of_isName hall
  refine .of_member (memberReads_identifier hname true) ?_ (fun hfj => (hb hfj).1)
    fun _ => memberReads_identifier hname false
  have hfirst := firstToken_word hname []
  exact ⟨by rw [meant_word, meant_nil, hfirst]; rfl, by rw [meant_word, meant_nil, hfirst]; rfl,
    by rw [meant_word, meant_nil, hfirst]; simp, by rw [meant_word, meant_nil, hfirst]; simp⟩

theorem Expr.reads_this : Expr.thisExpr.Reads := by
  intro _ _ k c n fi fj _ hb
  rw [Expr.layout, Expr.readBack]
  exact .of_member (memberReads_this true)
    ⟨by simp [unaryOp?], by simp [updateOp?], by simp, by simp⟩ (fun hfj => (hb hfj).1)
    fun _ => memberReads_this false

theorem Expr.reads_elision : Expr.elision.Reads := by
  intro _ h
  simp [isElision] at h

theorem Expr.reads_array (elements : List Expr) (h : ∀ e ∈ elements, e.Reads) :
    (Expr.array elements).Reads := by
  intro hall _ k c n fi fj _ hb
  rw [Expr.All] at hall
  rw [Expr.layout, Expr.readBack, readBackExprs_eq]
  have hread : ∀ e ∈ elements, ElementReads
      (if e.isElision then none else some (meant (e.layout k 2 false))) e.readBack := by
    intro e he
    have hall := hall.2 e he
    cases hel : e.isElision with
    | true =>
        cases e <;> simp [isElision] at hel
        exact ⟨fun _ => rfl, by simp, by simp⟩
    | false =>
        have hbegins := e.layout_begins k 2 false hall hel
        refine ⟨by simp, ?_, ?_⟩
        · intro s hs
          simp only [Bool.false_eq_true, if_false, Option.mem_def, Option.some.injEq] at hs
          subst hs
          exact ((h e he).outside hall hel k 2 false).assign (.inl le_rfl)
        · intro s hs
          simp only [Bool.false_eq_true, if_false, Option.mem_def, Option.some.injEq] at hs
          subst hs
          exact ⟨hbegins.not_eof, hbegins.not_closing (by simp), hbegins.not_closing (by simp)⟩
  have hmeant : meant (punct .lb :: arrayElements true (elements.map fun e =>
        if e.isElision then none else some (e.layout k 2 false)) ++ [punct .rb]) =
      .punct .lb :: (arrayLexemes (elements.map fun e =>
        if e.isElision then none else some (meant (e.layout k 2 false))) ++ [.punct .rb]) := by
    simp only [List.cons_append, meant_punct, meant_append, meant_arrayElements, List.map_map,
      meant_nil]
    congr 4
    funext e
    cases h : e.isElision <;> simp [h]
  rw [hmeant]
  exact .of_member (MemberReads.array hread true) (startsOperand_punct (by simp) _)
    (fun hfj => (hb hfj).1) fun _ => MemberReads.array hread false

def Property.key : Property → JSString
  | .init key _ => key

def Property.value : Property → Expr
  | .init _ value => value

theorem Expr.reads_object (properties : List Property)
    (h : ∀ x ∈ properties, x.value.Reads) : (Expr.object properties).Reads := by
  intro hall _ k c n fi fj _ hb
  rw [Expr.All] at hall
  rw [Expr.layout, Expr.readBack, readBackProperties_eq]
  have hread : ∀ x ∈ properties, AssignReads false false 2 (meant (x.value.layout k 2 false))
      x.value.readBack := by
    intro x hx
    have hformed := hall.1 x hx
    have hall := hall.2 x hx
    obtain ⟨key, value⟩ := x
    rw [Property.All] at hall
    exact ((h _ hx).outside hall hformed.2 k 2 false).assign (.inl le_rfl)
  have hmeant : meant (punct .lc :: separate [punct .comma] (properties.map fun x => x.layout k)
        ++ [punct .rc]) =
      .punct .lc :: (commas (properties.map fun x =>
        .word x.key :: .punct .colon :: meant (x.value.layout k 2 false)) ++ [.punct .rc]) := by
    simp only [List.cons_append, meant_punct, meant_append, meant_nil]
    rw [meant_separate rfl, List.map_map]
    congr 4
    funext x
    obtain ⟨key, value⟩ := x
    rw [Function.comp_apply, Property.layout]
    rfl
  have hback : (fun x : Property => (do return Property.init x.key (← x.value.readBack))) =
      Property.readBack := by
    funext x
    obtain ⟨key, value⟩ := x
    rfl
  have hobject := fun ac => MemberReads.object Property.key hread ac
  rw [hback] at hobject
  rw [hmeant]
  exact .of_member (hobject true) (startsOperand_punct (by simp) _) (fun hfj => (hb hfj).1)
    fun _ => hobject false

theorem unaryOp_token (op : UnaryOp) : ∃ t, unaryOp? t = some op ∧
    (∀ s, firstToken (op.lexeme :: s) = t) ∧ ∀ s, afterToken (op.lexeme :: s) = s := by
  cases op
  case delete => exact ⟨.kw .delete, rfl, firstToken_keyword _, afterToken_keyword _⟩
  case typeof => exact ⟨.kw .typeof, rfl, firstToken_keyword _, afterToken_keyword _⟩
  case void => exact ⟨.kw .void, rfl, firstToken_keyword _, afterToken_keyword _⟩
  all_goals exact ⟨_, rfl, firstToken_punct _, afterToken_punct _⟩

theorem meant_unaryGap (op : UnaryOp) : meant (unaryGap op) = [] := by
  cases op <;> rfl

theorem Expr.reads_unary (op : UnaryOp) (argument : Expr) (h : argument.Reads) :
    (Expr.unary op argument).Reads := by
  intro hall _ k c n fi fj _ hb
  rw [Expr.All] at hall
  rw [Expr.layout, Expr.readBack]
  obtain ⟨t, hop, hfirst, hafter⟩ := unaryOp_token op
  have harg := (h.outside hall.2 hall.1 k 15 false).unary (by omega)
  have hmeant : meant (.lexeme op.lexeme :: unaryGap op ++ argument.layout k 15 false) =
      op.lexeme :: meant (argument.layout k 15 false) := by
    simp [meant_unaryGap]
  have hunary := UnaryReads.unary hop hfirst hafter harg
  have heof : firstToken (op.lexeme :: meant (argument.layout k 15 false)) ≠ .eof := by
    rw [hfirst]
    rintro rfl
    simp [unaryOp?] at hop
  have hyield : firstToken (op.lexeme :: meant (argument.layout k 15 false)) ≠ .kw .yield := by
    rw [hfirst]
    rintro rfl
    simp [unaryOp?] at hop
  have hat : ∀ fi fj d, d < 15 → (fj = true → fi = true) → ReadsAt fi fj d
      (!(Expr.unary op argument).isSequence)
      (meant (.lexeme op.lexeme :: unaryGap op ++ argument.layout k 15 false)) _ :=
    fun fi fj d hd hfj => by
      rw [hmeant]
      exact .of_unary hunary heof hyield hfj (by omega) (by omega)
  exact reads_wrapIf hb (fun hc => hat fi fj c hc fun hfj => (hb hfj).1)
    (hat false false 0 (by omega) (by simp)).expr

theorem updateOp_punct (op : UpdateOp) : updateOp? (.punct op.punct) = some op := by
  cases op <;> rfl

theorem Expr.reads_update (op : UpdateOp) (before : Bool) (argument : Expr) (h : argument.Reads) :
    (Expr.update op before argument).Reads := by
  intro hall _ k c n fi fj _ hb
  rw [Expr.All] at hall
  have href : isReference argument = true := hall.1
  rw [Expr.layout, Expr.readBack]
  have hmember := h.reference (c := 15) (n := false) (k := k) href hall.2 (by omega)
  have hstart := layout_startsOperand (c := 15) (n := false) (k := k) hall.2 href (by omega)
  have hback := readBack_reference href
  have hat : ∀ fi fj d, d < 15 → (fj = true → fi = true) → ReadsAt fi fj d
      (!(Expr.update op before argument).isSequence)
      (meant (if before then punct op.punct :: argument.layout k 15 false
        else argument.layout k 15 false ++ [punct op.punct]))
      (do return .update op before (← argument.readBack)) := by
    intro fi fj d hd hfj
    cases before with
    | true =>
        exact .of_unary (.before (updateOp_punct op) hmember hstart.not_eof hback) (by simp)
          (by simp) hfj (by omega) (by omega)
    | false =>
        simp only [Bool.false_eq_true, if_false, meant_append, meant_punct, meant_nil]
        exact .of_unary (.after (updateOp_punct op) hmember hstart hback)
          (by rw [firstToken_append hstart.not_eof]; exact hstart.not_eof)
          (by rw [firstToken_append hstart.not_eof]; exact hstart.not_yield) hfj (by omega)
          (by omega)
  exact reads_wrapIf hb (fun hc => hat fi fj c hc fun hfj => (hb hfj).1)
    (hat false false 0 (by omega) (by simp)).expr

theorem layout_precedence (op : BinaryOp) :
    Layout.precedence op = Parser.precedence op + 4 := by
  cases op <;> rfl

theorem binaryOp_token (op : BinaryOp) : ∃ t, (∀ fi, (fi = true → op ≠ .in) →
    binaryOp? fi t = some op) ∧ (∀ s, firstToken (op.lexeme :: s) = t) ∧
      ∀ s, afterToken (op.lexeme :: s) = s := by
  cases op
  case instanceof =>
    exact ⟨.kw .instanceof, fun _ _ => rfl, firstToken_keyword _, afterToken_keyword _⟩
  case «in» =>
    refine ⟨.kw .in, fun fi hfi => ?_, firstToken_keyword _, afterToken_keyword _⟩
    cases fi with
    | false => rfl
    | true => exact absurd rfl (hfi rfl)
  all_goals exact ⟨_, fun _ _ => rfl, firstToken_punct _, afterToken_punct _⟩

/-- An operator between its operands, without parentheses. -/
theorem orReads_binary {op : BinaryOp} {left right : Expr} (hl : left.Reads) (hr : right.Reads)
    (hall : (Expr.binary op left right).All Expr.Formed Stmt.Formed) {k d : ℕ} {n fi : Bool}
    (hd : d < Layout.precedence op)
    (hfi : fi = true → op ≠ .in ∧
      (n = true ∨ 11 < Layout.precedence op ∨ (Expr.binary op left right).bareIn = false)) :
    OrReads fi d
      (meant (left.layout k (Layout.precedence op - 1) (n && Layout.precedence op - 1 ≤ 11) ++
        [.space, .lexeme op.lexeme, .space] ++
        right.layout k (Layout.precedence op) (n && Layout.precedence op ≤ 11)))
      (Expr.binary op left right).readBack := by
  rw [Expr.All] at hall
  obtain ⟨⟨hleft, hright⟩, hallLeft, hallRight⟩ := hall
  obtain ⟨t, hop, hfirst, hafter⟩ := binaryOp_token op
  have hprec := layout_precedence op
  have hpos := precedence_pos op
  have hguardLeft : Guarded fi (n && decide (Layout.precedence op - 1 ≤ 11))
      (Layout.precedence op - 1) left := by
    intro h
    refine ⟨by omega, by omega, ?_⟩
    by_cases h11 : Layout.precedence op ≤ 12
    · obtain hn | hn | hn := (hfi h).2
      · simp [hn, h11]
      · exact Or.inr (Or.inl (by omega))
      · simp only [Expr.bareIn, Bool.or_eq_false_iff, Bool.and_eq_false_iff,
          decide_eq_false_iff_not] at hn
        obtain hlevel | hbare := hn.1.2
        · exact Or.inr (Or.inr (Or.inl (by omega)))
        · exact Or.inr (Or.inr (Or.inr hbare))
    · exact Or.inr (Or.inl (by omega))
  have hguardRight : Guarded fi (n && decide (Layout.precedence op ≤ 11))
      (Layout.precedence op) right := by
    intro h
    refine ⟨by omega, by omega, ?_⟩
    by_cases h11 : Layout.precedence op ≤ 11
    · obtain hn | hn | hn := (hfi h).2
      · simp [hn, h11]
      · exact Or.inr (Or.inl (by omega))
      · simp only [Expr.bareIn, Bool.or_eq_false_iff, Bool.and_eq_false_iff,
          decide_eq_false_iff_not] at hn
        obtain hlevel | hbare := hn.2
        · exact Or.inr (Or.inr (Or.inl (by omega)))
        · exact Or.inr (Or.inr (Or.inr hbare))
    · exact Or.inr (Or.inl (by omega))
  have hreadLeft := (hl hallLeft hleft k _ _ fi false hguardLeft (bounded_false fi _ _)).or
    (by omega)
  have hreadRight := (hr hallRight hright k _ _ fi false hguardRight (bounded_false fi _ _)).or
    (by omega)
  rw [Expr.readBack]
  simp only [meant_append, meant_space, meant_lexeme, List.append_assoc, List.cons_append,
    List.nil_append]
  have hd' : d < Parser.precedence op + 4 := by omega
  have hcontext : Layout.precedence op - 1 = Parser.precedence op + 3 := by omega
  rw [hcontext, hprec] at *
  exact OrReads.binary (hop fi fun h => (hfi h).1) hfirst hafter hreadLeft hreadRight hd'

theorem Expr.reads_binary (op : BinaryOp) (left right : Expr) (hl : left.Reads)
    (hr : right.Reads) : (Expr.binary op left right).Reads := by
  intro hall _ k c n fi fj hg hb
  have hprec := layout_precedence op
  have hpos := precedence_pos op
  have hbound : Parser.precedence op ≤ 10 := by cases op <;> simp [Parser.precedence]
  have hinner : ∀ m : Bool, StartsOr
      (meant (left.layout k (Layout.precedence op - 1) (m && Layout.precedence op - 1 ≤ 11) ++
        [.space, .lexeme op.lexeme, .space] ++
        right.layout k (Layout.precedence op) (m && Layout.precedence op ≤ 11))) := by
    intro m
    rw [Expr.All] at hall
    have hbegins := left.layout_begins k (Layout.precedence op - 1)
      (m && Layout.precedence op - 1 ≤ 11) hall.2.1 hall.1.1
    have hstart := hbegins.startsOr (by omega)
    rw [List.append_assoc, meant_append]
    exact ⟨by rw [firstToken_append hstart.not_eof]; exact hstart.not_yield,
      by rw [firstToken_append hstart.not_eof]; exact hstart.not_eof⟩
  rw [Expr.layout, meant_wrapIf]
  cases hwraps : wrapsOp op c n with
  | true =>
      have hor := fun d hd => orReads_binary (k := k) (d := d) (n := n && !true)
        hl hr hall hd fun (h : false = true) => absurd h (by simp)
      have hstart := hinner (n && !true)
      simp only [if_true]
      exact .parens ((hor 4 (by omega)).assign (by omega) hstart.not_eof hstart.not_yield).expr
        fun hfj => (hb hfj).1
  | false =>
      simp only [wrapsOp, Bool.or_eq_false_iff, Bool.and_eq_false_iff, decide_eq_false_iff_not]
        at hwraps
      have hstart := hinner (n && !false)
      have hin : op = .in → Layout.precedence op = 11 := by
        rintro rfl
        rfl
      have hfi : fi = true → op ≠ .in ∧ ((n && !false) = true ∨ 11 < Layout.precedence op ∨
          (Expr.binary op left right).bareIn = false) := by
        intro h
        obtain hn | h11 | hlevel | hbare := (hg h).2.2
        · exact ⟨fun heq => by simp [heq, hn] at hwraps, Or.inl (by simp [hn])⟩
        · exact ⟨fun heq => by have := hin heq; omega, Or.inr (Or.inl (by omega))⟩
        · exact absurd hlevel hwraps.2
        · refine ⟨fun heq => ?_, Or.inr (Or.inr hbare)⟩
          simp [Expr.bareIn, heq] at hbare
      have hor := fun d hd => orReads_binary (k := k) (d := d) hl hr hall hd hfi
      simp only [Bool.false_eq_true, if_false]
      exact .of_or (fun d hd => hor d (by omega)) hstart.not_eof hstart.not_yield
        (fun hfj => (hb hfj).1) (by omega)

theorem assignOp_punct (op : AssignOp) : assignOp? (.punct op.punct) = some op := by
  cases op <;> rfl

theorem Expr.reads_assign (op : AssignOp) (left right : Expr) (hl : left.Reads)
    (hr : right.Reads) : (Expr.assign op left right).Reads := by
  intro hall _ k c n fi fj hg hb
  rw [Expr.All] at hall
  obtain ⟨⟨href, hright⟩, hallLeft, hallRight⟩ := hall
  rw [Expr.layout, Expr.readBack]
  have hmember := hl.reference (c := 3) (n := n) (k := k) href hallLeft (by omega)
  have hstart := layout_startsOperand (c := 3) (n := n) (k := k) hallLeft href (by omega)
  have hat : ∀ fi fj d, d < 3 → Guarded fi n 2 right → Bounded fi fj 2 right →
      ReadsAt fi fj d (!(Expr.assign op left right).isSequence)
        (meant (left.layout k 3 n ++ [.space, punct op.punct, .space] ++ right.layout k 2 n))
        (do return .assign op (← left.readBack) (← right.readBack)) := by
    intro fi fj d hd hg hb
    have hread := (hr hallRight hright k 2 n fi fj hg hb).assign (.inl le_rfl)
    simp only [meant_append, meant_space, meant_punct, List.append_assoc, List.cons_append,
      List.nil_append]
    exact .of_assign (.assignment (assignOp_punct op) hmember hstart (readBack_reference href)
      hread) (by omega)
  refine reads_wrapIf hb (fun hc => hat fi fj c hc (guarded_child (by omega) fun h => ?_) ?_)
    (hat false false 0 (by omega) (guarded_false _ _ _) (bounded_false _ _ _)).expr
  · have hinner := hg.inner hc (by simp [Expr.level]) h
    simpa only [Expr.bareIn, Bool.and_eq_false_iff, decide_eq_false_iff_not] using hinner
  · intro h
    obtain ⟨hfi, hc2, hbody⟩ := hb h
    refine ⟨hfi, le_rfl, ?_⟩
    obtain hbody | hbody := hbody
    · omega
    · exact Or.inr hbody

/-- The elements of a sequence, up to the first comma. -/
theorem assignExpr_sequence {e : Expr} (e' : Expr) (es : List Expr) (h : e.Reads)
    (hall : e.All Expr.Formed Stmt.Formed) (he : e.isElision = false) (k : ℕ) (n : Bool)
    (rest : List Lexeme) :
    ∃ (x : Option Expr) (s : List Lexeme),
      assignExpr false (meant ((Expr.sequence (e :: e' :: es)).layout k 0 n) ++ rest) =
        x.map (fun e => (e, s)) ∧ firstToken s = .punct .comma := by
  obtain ⟨m, hm⟩ := (h.outside hall he k 2 n).assign (.inl le_rfl)
  have hmeant : meant ((Expr.sequence (e :: e' :: es)).layout k 0 n) ++ rest =
      meant (e.layout k 2 n) ++ .punct .comma ::
        (commas ((e' :: es).map fun e => meant (e.layout k 2 n)) ++ rest) := by
    rw [Expr.layout, meant_wrapIf, meant_separate rfl, List.map_map]
    show meant (e.layout k 2 n) ++ .punct .comma ::
      commas (((e' :: es).map (meant ∘ fun e => e.layout k 2 n))) ++ rest = _
    rw [List.append_assoc]
    rfl
  refine ⟨e.readBack, eols m ++ .punct .comma ::
      (commas ((e' :: es).map fun e => meant (e.layout k 2 n)) ++ rest), ?_, ?_⟩
  · rw [hmeant, hm _ (by simp [Stops, rank])]
  · rw [firstToken_eols, firstToken_punct]

theorem Expr.reads_cond (test consequent alternate : Expr) (ht : test.Reads)
    (hc : consequent.Reads) (ha : alternate.Reads)
    (hseq : ∀ es, consequent = .sequence es → ∀ e ∈ es, e.Reads) :
    (Expr.cond test consequent alternate).Reads := by
  intro hall _ k c n fi fj hg hb
  rw [Expr.All] at hall
  obtain ⟨⟨htest, hconsequent, halternate⟩, hallTest, hallConsequent, hallAlternate⟩ := hall
  rw [Expr.layout]
  have hstart := (test.layout_begins k 4 n hallTest htest).startsOr (by omega)
  have hat : ∀ fi fj d, d < 4 → Guarded fi n 4 test → Guarded fi n 3 alternate →
      Bounded fi fj 3 alternate →
      ReadsAt fi fj d (!(Expr.cond test consequent alternate).isSequence)
        (meant (test.layout k 4 n ++ punct .hook :: consequent.layout k 0 n ++
          punct .colon :: alternate.layout k 3 n))
        (Expr.cond test consequent alternate).readBack := by
    intro fi fj d hd hgt hga hba
    have hreadTest := (ht hallTest htest k 4 n fi false hgt (bounded_false _ _ _)).or le_rfl
    have hreadAlternate := (ha hallAlternate halternate k 3 n fi fj hga hba).assign
      (.inl (by omega))
    simp only [meant_append, meant_punct, List.append_assoc, List.cons_append]
    rw [Expr.readBack]
    cases hsequence : consequent.isSequence with
    | true =>
        -- the first comma of the consequent stands where the colon must be
        obtain ⟨es, rfl⟩ : ∃ es, consequent = .sequence es := by
          cases consequent <;> simp_all [isSequence]
        have hformed := hallConsequent
        rw [Expr.All] at hformed
        obtain ⟨⟨hlength, helision⟩, hallEs⟩ := hformed
        match es, hseq es rfl with
        | [], _ => simp at hlength
        | [e], _ => simp at hlength
        | e :: e' :: es, hes =>
            exact .of_assign (.cond_comma hreadTest hstart (assignExpr_sequence _ _
              (hes e (by simp))
              (hallEs e (by simp)) (helision e (by simp)) k n)) (by omega)
    | false =>
        have hreadConsequent := (hc.outside hallConsequent hconsequent k 0 n).assign
          (.inr (by simp [hsequence]))
        exact .of_assign (.cond hreadTest hstart hreadConsequent hreadAlternate) (by omega)
  have hinner : fi = true → c < 4 →
      (n = true ∨ (Expr.cond test consequent alternate).bareIn = false) :=
    fun h hlt => hg.inner hlt (by simp [Expr.level]) h
  refine reads_wrapIf hb (fun hlt => hat fi fj c hlt (guarded_child (by omega) fun h => ?_)
      (guarded_child (by omega) fun h => ?_) ?_)
    (hat false false 0 (by omega) (guarded_false _ _ _) (guarded_false _ _ _)
      (bounded_false _ _ _)).expr
  · have hbare := hinner h hlt
    simp only [Expr.bareIn, Bool.or_eq_false_iff, Bool.and_eq_false_iff,
      decide_eq_false_iff_not] at hbare
    exact hbare.imp_right And.left
  · have hbare := hinner h hlt
    simp only [Expr.bareIn, Bool.or_eq_false_iff, Bool.and_eq_false_iff,
      decide_eq_false_iff_not] at hbare
    exact hbare.imp_right And.right
  · exact fun h => ⟨(hb h).1, by omega, Or.inl le_rfl⟩

/-- The arguments of a call. -/
theorem arguments_read {args : List Expr} (h : ∀ e ∈ args, e.Reads)
    (hall : ∀ e ∈ args, e.All Expr.Formed Stmt.Formed) (he : ∀ e ∈ args, e.isElision = false) :
    ArgumentsRead (meant (separate [punct .comma, .space]
      (args.map fun e => e.layout 0 2 false))) (readBackExprs args) := by
  intro rest
  rw [meant_separate rfl, List.map_map, readBackExprs_eq]
  apply argumentList_reads
  · exact fun e hmem => ((h e hmem).outside (hall e hmem) (he e hmem) 0 2 false).assign
      (.inl le_rfl)
  · intro e hmem
    have hbegins := e.layout_begins 0 2 false (hall e hmem) (he e hmem)
    exact ⟨hbegins.not_closing (by simp), hbegins.not_eof⟩

theorem Expr.reads_call (callee : Expr) (args : List Expr) (hc : callee.Reads)
    (ha : ∀ e ∈ args, e.Reads) : (Expr.call callee args).Reads := by
  intro hall _ k c n fi fj _ hb
  rw [Expr.All] at hall
  obtain ⟨⟨hcallee, hargs⟩, hallCallee, hallArgs⟩ := hall
  rw [Expr.layout, Expr.readBack]
  have hmember := (hc.outside hallCallee hcallee k 17 false).member le_rfl
  have hstart := (callee.layout_begins k 17 false hallCallee hcallee).startsOperand (by omega)
  have hread := MemberReads.call hmember (arguments_read ha hallArgs hargs)
  have hat : ∀ fi fj d, d < 18 → (fj = true → fi = true) → ReadsAt fi fj d
      (!(Expr.call callee args).isSequence)
      (meant (callee.layout k 17 false ++ parens (separate [punct .comma, .space]
        (args.map fun e => e.layout 0 2 false))))
      (do return .call (← callee.readBack) (← readBackExprs args)) := by
    intro fi fj d hd hfj
    rw [meant_append, meant_parens]
    exact .of_member hread (hstart.append _) hfj (by omega)
  exact reads_wrapIf hb (fun hlt => hat fi fj c hlt fun hfj => (hb hfj).1)
    (hat false false 0 (by omega) (by simp)).expr

theorem Expr.reads_new (callee : Expr) (args : List Expr) (hc : callee.Reads)
    (ha : ∀ e ∈ args, e.Reads) : (Expr.newExpr callee args).Reads := by
  intro hall _ k c n fi fj _ hb
  rw [Expr.All] at hall
  obtain ⟨⟨hcallee, hargs⟩, hallCallee, hallArgs⟩ := hall
  rw [Expr.layout, Expr.readBack]
  have hctor := (hc.outside hallCallee hcallee k 18 false).callee le_rfl
  have hbegins := callee.layout_begins k 18 false hallCallee hcallee
  have hat : ∀ fi fj d, d < 17 → (fj = true → fi = true) → ReadsAt fi fj d
      (!(Expr.newExpr callee args).isSequence)
      (meant ([keyword .new, .space] ++ callee.layout k 18 false ++
        if args.isEmpty then [] else parens (separate [punct .comma, .space]
          (args.map fun e => e.layout 0 2 false))))
      (do return .newExpr (← callee.readBack) (← readBackExprs args)) := by
    intro fi fj d hd hfj
    cases args with
    | nil =>
        simp only [List.isEmpty_nil, if_true, List.append_nil, List.cons_append, List.nil_append,
          meant_keyword, meant_space]
        exact .of_unary (.new hctor hbegins.not_eof) (by simp) (by simp) hfj (by omega) (by omega)
    | cons arg args =>
        simp only [List.isEmpty_cons, Bool.false_eq_true, if_false, List.cons_append,
          List.nil_append, meant_keyword, meant_space, meant_append, meant_parens]
        have hread := MemberReads.newCall hctor hbegins.not_eof
          (arguments_read ha hallArgs hargs) true
        exact .of_member hread ⟨by simp [unaryOp?], by simp [updateOp?], by simp, by simp⟩ hfj
          (by omega)
  exact reads_wrapIf hb (fun hlt => hat fi fj c hlt fun hfj => (hb hfj).1)
    (hat false false 0 (by omega) (by simp)).expr

theorem Expr.reads_member (obj : Expr) (property : JSString) (ho : obj.Reads) :
    (Expr.member obj property).Reads := by
  intro hall _ k c n fi fj _ hb
  rw [Expr.All] at hall
  rw [Expr.layout, Expr.readBack]
  have hmember := (ho.outside hall.2 hall.1.1 k 17 false).member le_rfl
  have hstart := (obj.layout_begins k 17 false hall.2 hall.1.1).startsOperand (by omega)
  have hat : ∀ fi fj d, d < 18 → (fj = true → fi = true) → ReadsAt fi fj d
      (!(Expr.member obj property).isSequence)
      (meant (obj.layout k 17 false ++ [punct .dot, word property]))
      (do return .member (← obj.readBack) property) := by
    intro fi fj d hd hfj
    rw [meant_append]
    exact .of_member hmember.member (hstart.append _) hfj (by omega)
  exact reads_wrapIf hb (fun hlt => hat fi fj c hlt fun hfj => (hb hfj).1)
    (hat false false 0 (by omega) (by simp)).expr

theorem Expr.reads_index (obj property : Expr) (ho : obj.Reads) (hp : property.Reads) :
    (Expr.index obj property).Reads := by
  intro hall _ k c n fi fj _ hb
  rw [Expr.All] at hall
  obtain ⟨⟨hobj, hproperty⟩, hallObj, hallProperty⟩ := hall
  rw [Expr.layout, Expr.readBack]
  have hmember := (ho.outside hallObj hobj k 17 false).member le_rfl
  have hstart := (obj.layout_begins k 17 false hallObj hobj).startsOperand (by omega)
  have hinner := (hp.outside hallProperty hproperty k 0 false).expr
  have hat : ∀ fi fj d, d < 18 → (fj = true → fi = true) → ReadsAt fi fj d
      (!(Expr.index obj property).isSequence)
      (meant (obj.layout k 17 false ++ punct .lb :: property.layout k 0 false ++ [punct .rb]))
      (do return .index (← obj.readBack) (← property.readBack)) := by
    intro fi fj d hd hfj
    simp only [List.append_assoc, List.cons_append, meant_append, meant_punct, meant_nil]
    exact .of_member (hmember.index hinner) (hstart.append _) hfj (by omega)
  exact reads_wrapIf hb (fun hlt => hat fi fj c hlt fun hfj => (hb hfj).1)
    (hat false false 0 (by omega) (by simp)).expr

theorem Expr.reads_sequence (expressions : List Expr) (h : ∀ e ∈ expressions, e.Reads) :
    (Expr.sequence expressions).Reads := by
  intro hall _ k c n fi fj hg hb
  rw [Expr.All] at hall
  obtain ⟨⟨hlength, helision⟩, hallEs⟩ := hall
  rw [Expr.layout, Expr.readBack, readBackExprs_eq]
  have hat : ∀ fi, (fi = true → n = true) → ExprReads fi
      (meant (separate [punct .comma] (expressions.map fun e => e.layout k 2 n)))
      (do return .sequence (← expressions.mapM Expr.readBack)) := by
    intro fi hfi
    rw [meant_separate rfl, List.map_map]
    match expressions, hlength with
    | e :: e' :: es, _ =>
        exact ExprReads.sequence fun x hx =>
          (h x hx (hallEs x hx) (helision x hx) k 2 n fi false
            (guarded_child (by omega) fun hfi' => Or.inl (hfi hfi')) (bounded_false _ _ _)).assign
              (.inl le_rfl)
  exact reads_wrapIf hb (fun hlt => .of_sequence (hat fi fun h => by
      obtain hn | hc := (hg h).1
      · exact hn
      · omega) hlt) (hat false (by simp))

theorem Expr.reads_yield (argument : Option Expr) (h : ∀ e ∈ argument, e.Reads) :
    (Expr.yieldExpr argument).Reads := by
  intro hall _ k c n fi fj hg hb
  rw [Expr.All] at hall
  rw [Expr.layout, Expr.readBack]
  have hat : ∀ fi, (fi = true → (Expr.yieldExpr argument).splitsHead = false) →
      AssignReads fi false 0 (meant (keyword .yield :: optionalLayout [] k 2 false argument))
        (do return .yieldExpr (← readBackOptional argument)) := by
    intro fi hfi
    rw [meant_keyword]
    cases argument with
    | none =>
        rw [optionalLayout]
        exact .yield_none
    | some e =>
        have hallArg := hall.2 e rfl
        have helision := hall.1 e rfl
        have hbegins := e.layout_begins k 2 false hallArg helision
        have hguard : Guarded fi false 2 e := guarded_child le_rfl fun hfi' => by
          have hbare := hfi hfi'
          simp only [Expr.splitsHead, Bool.and_eq_false_iff, decide_eq_false_iff_not] at hbare
          exact Or.inr hbare
        have hread := (h e rfl hallArg helision k 2 false fi false hguard
          (bounded_false _ _ _)).assign (.inl le_rfl)
        have hyield := AssignReads.yield hread (hbegins.endsYield (by omega)) hbegins.head_ne_eol
        rw [optionalLayout, readBackOptional]
        cases he : e.readBack <;> simp [he] at hyield ⊢ <;> exact hyield
  refine reads_wrapIf hb (fun hlt => ?_) (hat false (by simp)).expr
  have hfj : fj = false := by
    cases hfj : fj with
    | false => rfl
    | true =>
        have hbound := hb hfj
        omega
  subst hfj
  have hread := hat fi fun h => by
    obtain hc | hsplits := (hg h).2.1
    · omega
    · exact hsplits
  have hc : c = 0 := by omega
  subst hc
  exact
    { expr := hread.expr
      assign := fun _ => hread
      or := by omega
      unary := by omega
      member := by omega
      callee := by omega }

/-- No expression begins with `var`. -/
theorem readsAt_var {fi fj : Bool} (hfj : fj = true → fi = true) (d : ℕ) (ts : List Lexeme) :
    ReadsAt fi fj d true (.keyword .var :: ts) none :=
  .of_member (memberReads_var _ true)
    ⟨by simp [unaryOp?], by simp [updateOp?], by simp, by simp⟩ hfj
    fun _ => memberReads_var _ false

theorem Expr.reads_let (head : List Declarator) (body : Expr) :
    (Expr.letExpr head body).Reads := by
  intro _ _ k c n fi fj _ hb
  rw [Expr.layout, Expr.readBack]
  have hat : ∀ fi fj d, (fj = true → fi = true) → ReadsAt fi fj d true
      (meant ([keyword .var, .space] ++
        parens (separate [punct .comma, .space] (head.map fun d => d.layout false)) ++
          .space :: body.layout k 2 false)) none := by
    intro fi fj d hfj
    simp only [List.cons_append, List.nil_append, meant_keyword]
    exact readsAt_var hfj d _
  exact reads_wrapIf hb (fun _ => hat fi fj c fun hfj => (hb hfj).1)
    (hat false false 0 (by simp)).expr

/-- What the statements of a block are read as, where the block is in a scope. -/
def Block.Reads (b : Block) : Prop :=
  b.All Expr.Formed Stmt.Formed → ∀ scope, scope = .block ∨ b.Formed →
    ∃ (ts : List Lexeme) (rs : Option (List Stmt)), StatementsRead scope ts rs ∧
      b.readBack = (do return .mk (← rs)) ∧
      ∀ k, meant (b.layout k) = .punct .lc :: (ts ++ [.punct .rc])

theorem head_names {id : Option JSString} {params : List JSString}
    (h : FunctionHead.Formed id params) : ∀ w ∈ params, keyword? w = none :=
  fun w hw => keyword?_of_isName (h.2 w hw)

theorem Expr.reads_function (id : Option JSString) (params : List JSString) (body : Block)
    (h : body.Reads) : (Expr.function id params body).Reads := by
  intro hall _ k c n fi fj _ hb
  rw [Expr.All] at hall
  obtain ⟨⟨hhead, hbody⟩, hallBody⟩ := hall
  obtain ⟨ts, rs, hread, hback, hlayout⟩ := h hallBody .body (.inr hbody)
  rw [Expr.layout, Expr.readBack, hback]
  have hmeant : meant (functionHead id params ++ .space :: body.layout k ++ [eol]) =
      .keyword .function :: (headLexemes id params ++ .punct .lc :: (ts ++ [.punct .rc])) ++
        [.eol] := by
    simp [meant_functionHead, hlayout]
  have hresult : (do return Expr.function id params (← (do return Block.mk (← rs)))) =
      (do return Expr.function id params (.mk (← rs)) : Option Expr) := by
    cases rs <;> rfl
  have hat : ∀ fi fj d, d < 3 → (fj = true → fi = true) → ReadsAt fi fj d true
      (meant (functionHead id params ++ .space :: body.layout k ++ [eol]))
      (do return .function id params (.mk (← rs))) := by
    intro fi fj d hd hfj
    have hmember : MemberReads true (.keyword .function :: (headLexemes id params ++
        .punct .lc :: (ts ++ [.punct .rc]))) (do return .function id params (.mk (← rs))) :=
      .function (head_names hhead) hread true
    have hassign := (((hmember.unary ⟨by simp [unaryOp?], by simp [updateOp?], by simp, by simp⟩
      fi).or 4).assign (by omega) (by simp) (by simp)).of_le hfj
    rw [hmeant]
    exact .of_assign hassign.eol_after (by omega)
  rw [hresult]
  exact reads_wrapIf hb (fun hlt => hat fi fj c hlt fun hfj => (hb hfj).1)
    (hat false false 0 (by omega) (by simp)).expr

theorem Expr.reads_closure (id : Option JSString) (params : List JSString) (body : Expr)
    (h : body.Reads) : (Expr.closure id params body).Reads := by
  intro hall _ k c n fi fj _ hb
  rw [Expr.All] at hall
  obtain ⟨⟨hhead, hbody⟩, hallBody⟩ := hall
  rw [Expr.layout, Expr.readBack]
  have hbegins := body.layout_begins k 2 false hallBody hbody
  have hread := h.outside hallBody hbody k 2 false
  -- a body that begins like a block is in parentheses
  have hbody : ∃ tb, meant (wrapIf (startsLikeBlock (body.layout k 2 false))
        (body.layout k 2 false)) = tb ∧ AssignReads false false 2 tb body.readBack ∧
      firstToken tb ≠ .eof ∧ firstToken tb ≠ .punct .lc := by
    refine ⟨_, rfl, ?_⟩
    rw [meant_wrapIf]
    cases hblock : startsLikeBlock (body.layout k 2 false) with
    | true =>
        have hparens : ReadsAt false false 2 true
            (.punct .lp :: meant (body.layout k 2 false) ++ [.punct .rp]) body.readBack :=
          .parens hread.expr (by simp)
        exact ⟨hparens.assign (.inl le_rfl), by simp, by simp⟩
    | false =>
        refine ⟨hread.assign (.inl le_rfl), hbegins.not_eof, hbegins.not_lc hblock⟩
  obtain ⟨tb, hmeant, hassign, heof, hlc⟩ := hbody
  have hunary : UnaryReads false 2 (.keyword .function :: (headLexemes id params ++ tb))
      (do return .closure id params (← body.readBack)) :=
    .closure (head_names hhead) hassign heof hlc
  have hat : ∀ fi d, d < 3 → ReadsAt fi false d true
      (meant (functionHead id params ++ .space ::
        wrapIf (startsLikeBlock (body.layout k 2 false)) (body.layout k 2 false)))
      (do return .closure id params (← body.readBack)) := by
    intro fi d hd
    rw [meant_append, meant_space, meant_functionHead, hmeant]
    exact .of_assign (hunary.assign (by simp) (by simp) (by simp)) (by omega)
  refine reads_wrapIf hb (fun hlt => ?_) (hat false 0 (by omega)).expr
  have hfj : fj = false := by
    cases hfj : fj with
    | false => rfl
    | true =>
        obtain ⟨-, -, hc | hends⟩ := hb hfj
        · omega
        · simp [Expr.endsInBody] at hends
  subst hfj
  exact hat fi c hlt

end MetaMonkey.Frontend
