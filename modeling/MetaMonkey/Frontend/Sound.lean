import MetaMonkey.Frontend.StmtReadsBack

/-!
The trees that are read back from their texts, by a condition on each node.
-/

namespace MetaMonkey.Frontend

open Js

/-- An expression whose text is read as itself, apart from its parts. -/
def Expr.sound : Expr → Bool
  | cond _ consequent _ => !consequent.isSequence
  | letExpr _ _ => false
  | _ => true

/-- A statement whose text is read as itself, apart from its parts. -/
def Stmt.sound : Stmt → Bool
  | letStmt _ _ | withStmt _ _ | forOf _ _ _ | forOfDecl _ _ _ _ => false
  | ifStmt _ consequent (some _) => !consequent.openIf
  | forStmt init _ _ _ => !init.any Expr.splitsHead
  | tryStmt _ guarded _ _ => guarded.isEmpty
  | _ => true

def Expr.Sound (e : Expr) : Prop := e.sound = true

def Stmt.Sound (s : Stmt) : Prop := s.sound = true

theorem mapM_eq_some_self {α : Type} {f : α → Option α} {P : α → Prop} {xs : List α}
    (h : ∀ x ∈ xs, f x = some x ↔ P x) : xs.mapM f = some xs ↔ ∀ x ∈ xs, P x := by
  induction xs with
  | nil => simp
  | cons x xs ih =>
      have hx := h x (by simp)
      have hxs := ih fun y hy => h y (by simp [hy])
      rw [List.mapM_cons]
      simp only [bind, Option.bind_eq_some_iff, pure, Option.some.injEq, List.cons.injEq,
        List.mem_cons, forall_eq_or_imp, ← hx, ← hxs]
      constructor
      · rintro ⟨a, ha, b, hb, rfl, rfl⟩
        exact ⟨ha, hb⟩
      · rintro ⟨ha, hb⟩
        exact ⟨x, ha, xs, hb, rfl, rfl⟩

theorem readBackOptional_eq_self {o : Option Expr} {P : Expr → Prop}
    (h : ∀ e ∈ o, e.readBack = some e ↔ P e) : readBackOptional o = some o ↔ ∀ e ∈ o, P e := by
  cases o with
  | none => simp [readBackOptional]
  | some e => simp [Option.bind_eq_some_iff, readBackOptional, h e rfl]

section

attribute [local simp] Option.bind_eq_some_iff Expr.readBack Stmt.readBack Property.readBack
  Declarator.readBack SwitchCase.readBack CatchClause.readBack Block.readBack readBackExprs_eq
  readBackProperties_eq readBackDeclarators_eq readBackStmts_eq readBackCases_eq Expr.Sound
  Expr.sound Stmt.Sound Stmt.sound

/-- An `else` that is taken by the consequent leaves none. -/
theorem readBack_ifElse {test : Expr} {consequent alternate : Stmt} :
    (Stmt.ifStmt test consequent (some alternate)).readBack =
        some (.ifStmt test consequent (some alternate)) ↔
      consequent.openIf = false ∧ test.readBack = some test ∧
        consequent.readBack = some consequent ∧ alternate.readBack = some alternate := by
  constructor
  · intro hback
    simp only [Stmt.readBack, bind, Option.bind_eq_some_iff, pure] at hback
    obtain ⟨t, ht, c, hc, a, ha, hback⟩ := hback
    cases hopen : c.openIf with
    | true => simp [hopen] at hback
    | false =>
        simp only [hopen, Bool.false_eq_true, if_false, Option.some.injEq,
          Stmt.ifStmt.injEq] at hback
        obtain ⟨rfl, rfl, rfl⟩ := hback
        exact ⟨hopen, ht, hc, ha⟩
  · rintro ⟨hopen, ht, hc, ha⟩
    simp [ht, hc, ha, hopen]

/-- The handlers with a guard are lost. -/
theorem readBack_try {block : Block} {guarded : List CatchClause} {handler : Option CatchClause}
    {finalizer : Option Block}
    (hclause : guarded ≠ [] ∨ handler.isSome = true ∨ finalizer.isSome = true) :
    (Stmt.tryStmt block guarded handler finalizer).readBack =
        some (.tryStmt block guarded handler finalizer) ↔
      guarded = [] ∧ block.readBack = some block ∧ readBackHandler handler = some handler ∧
        readBackFinalizer finalizer = some finalizer := by
  simp only [Stmt.readBack, bind, Option.bind_eq_some_iff, pure]
  constructor
  · rintro ⟨b, hb, h, hh, f, hf, hback⟩
    split at hback
    · cases hback
    · simp only [Option.some.injEq, Stmt.tryStmt.injEq] at hback
      obtain ⟨rfl, rfl, rfl, rfl⟩ := hback
      exact ⟨rfl, hb, hh, hf⟩
  · rintro ⟨rfl, hb, hh, hf⟩
    refine ⟨block, hb, handler, hh, finalizer, hf, ?_⟩
    have hsome : (handler.isNone && finalizer.isNone) = false := by
      cases handler <;> cases finalizer <;> simp_all
    simp [hsome]

theorem readBackHandler_eq_self {handler : Option CatchClause} {P : CatchClause → Prop}
    (h : ∀ c ∈ handler, c.readBack = some c ↔ P c) :
    readBackHandler handler = some handler ↔ ∀ c ∈ handler, P c := by
  cases handler with
  | none => simp [readBackHandler]
  | some c => simp [readBackHandler, h c rfl]

theorem readBackFinalizer_eq_self {finalizer : Option Block} {P : Block → Prop}
    (h : ∀ b ∈ finalizer, b.readBack = some b ↔ P b) :
    readBackFinalizer finalizer = some finalizer ↔ ∀ b ∈ finalizer, P b := by
  cases finalizer with
  | none => simp [readBackFinalizer]
  | some b => simp [readBackFinalizer, h b rfl]

/-- What holds of the trees that are read back. -/
theorem readBack_inductive : Inductive
    (fun e => e.All Expr.Formed Stmt.Formed → (e.readBack = some e ↔ e.All Expr.Sound Stmt.Sound))
    (fun s => s.All Expr.Formed Stmt.Formed → (s.readBack = some s ↔ s.All Expr.Sound Stmt.Sound))
    (fun x => x.All Expr.Formed Stmt.Formed → (x.readBack = some x ↔ x.All Expr.Sound Stmt.Sound))
    (fun d => d.All Expr.Formed Stmt.Formed → (d.readBack = some d ↔ d.All Expr.Sound Stmt.Sound))
    (fun c => c.All Expr.Formed Stmt.Formed → (c.readBack = some c ↔ c.All Expr.Sound Stmt.Sound))
    (fun c => c.All Expr.Formed Stmt.Formed → c.Formed false →
      (c.readBack = some c ↔ c.All Expr.Sound Stmt.Sound))
    (fun b => b.All Expr.Formed Stmt.Formed → (b.readBack = some b ↔ b.All Expr.Sound Stmt.Sound))
    where
  identifier name _ := by simp [Expr.All]
  thisExpr _ := by simp [Expr.All]
  elision _ := by simp [Expr.All]
  array es h hall := by
    rw [Expr.All] at hall
    have hes := mapM_eq_some_self fun e he => h e he (hall.2 e he)
    simp [hes, Expr.All]
  object xs h hall := by
    rw [Expr.All] at hall
    have hxs := mapM_eq_some_self fun x hx => h x hx (hall.2 x hx)
    simp [hxs, Expr.All]
  unary op e h hall := by
    rw [Expr.All] at hall
    simp [h hall.2, Expr.All]
  update op before e h hall := by
    rw [Expr.All] at hall
    simp [h hall.2, Expr.All]
  binary op l r hl hr hall := by
    rw [Expr.All] at hall
    rw [Expr.All, ← hl hall.2.1, ← hr hall.2.2]
    simp
  assign op l r hl hr hall := by
    rw [Expr.All] at hall
    rw [Expr.All, ← hl hall.2.1, ← hr hall.2.2]
    simp
  cond t c a ht hc ha hall := by
    rw [Expr.All] at hall
    rw [Expr.All, ← ht hall.2.1, ← hc hall.2.2.1, ← ha hall.2.2.2]
    cases hseq : c.isSequence <;> simp [hseq]
  call f args hf ha hall := by
    rw [Expr.All] at hall
    have hargs := mapM_eq_some_self fun e he => ha e he (hall.2.2 e he)
    rw [Expr.All, ← hf hall.2.1, ← hargs]
    simp
  newExpr f args hf ha hall := by
    rw [Expr.All] at hall
    have hargs := mapM_eq_some_self fun e he => ha e he (hall.2.2 e he)
    rw [Expr.All, ← hf hall.2.1, ← hargs]
    simp
  member o w ho hall := by
    rw [Expr.All] at hall
    simp [ho hall.2, Expr.All]
  index o x ho hx hall := by
    rw [Expr.All] at hall
    rw [Expr.All, ← ho hall.2.1, ← hx hall.2.2]
    simp
  sequence es h hall := by
    rw [Expr.All] at hall
    have hes := mapM_eq_some_self fun e he => h e he (hall.2 e he)
    simp [hes, Expr.All]
  yieldExpr o h hall := by
    rw [Expr.All] at hall
    have ho := readBackOptional_eq_self fun e he => h e he (hall.2 e he)
    simp [ho, Expr.All]
  letExpr ds e _ _ _ := by simp [Expr.All]
  function id params b h hall := by
    rw [Expr.All] at hall
    simp [h hall.2, Expr.All]
  closure id params e h hall := by
    rw [Expr.All] at hall
    simp [h hall.2, Expr.All]
  property key e h hall := by
    rw [Property.All] at hall
    simp [h hall, Property.All]
  declarator id init h hall := by
    rw [Declarator.All] at hall
    have hinit := readBackOptional_eq_self fun e he => h e he (hall e he)
    simp [hinit, Declarator.All]
  block ss h hall := by
    rw [Stmt.All] at hall
    have hss := mapM_eq_some_self fun s hs => h s hs (hall.2 s hs)
    simp [hss, Stmt.All]
  declaration kind ds h hall := by
    rw [Stmt.All] at hall
    have hds := mapM_eq_some_self fun d hd => h d hd (hall.2 d hd)
    simp [hds, Stmt.All]
  empty _ := by simp [Stmt.All]
  expression e h hall := by
    rw [Stmt.All] at hall
    simp [h hall.2, Stmt.All]
  letStmt ds b _ _ _ := by simp [Stmt.All]
  ifStmt t c a ht hc ha hall := by
    rw [Stmt.All] at hall
    rw [Stmt.All, ← ht hall.2.1, ← hc hall.2.2.1]
    cases a with
    | none => simp
    | some a =>
        have ha := ha a rfl (hall.2.2.2 a rfl)
        rw [readBack_ifElse]
        simp [← ha]
  whileStmt t b ht hb hall := by
    rw [Stmt.All] at hall
    rw [Stmt.All, ← ht hall.2.1, ← hb hall.2.2]
    simp
  doWhile b t hb ht hall := by
    rw [Stmt.All] at hall
    rw [Stmt.All, ← hb hall.2.1, ← ht hall.2.2]
    simp
  forStmt i t u b hi ht hu hb hall := by
    rw [Stmt.All] at hall
    obtain ⟨-, hallInit, hallTest, hallUpdate, hallBody⟩ := hall
    rw [Stmt.All, ← readBackOptional_eq_self fun e he => hi e he (hallInit e he),
      ← readBackOptional_eq_self fun e he => ht e he (hallTest e he),
      ← readBackOptional_eq_self fun e he => hu e he (hallUpdate e he), ← hb hallBody]
    cases hsplits : i.any Expr.splitsHead <;>
      simp [hsplits]
  forDecl kind ds t u b hd ht hu hb hall := by
    rw [Stmt.All] at hall
    obtain ⟨-, hallDs, hallTest, hallUpdate, hallBody⟩ := hall
    rw [Stmt.All, ← mapM_eq_some_self fun d hmem => hd d hmem (hallDs d hmem),
      ← readBackOptional_eq_self fun e he => ht e he (hallTest e he),
      ← readBackOptional_eq_self fun e he => hu e he (hallUpdate e he), ← hb hallBody]
    simp
  forIn each l r b hl hr hb hall := by
    rw [Stmt.All] at hall
    rw [Stmt.All, ← hl hall.2.1, ← hr hall.2.2.1, ← hb hall.2.2.2]
    simp
  forInDecl each kind d r b hd hr hb hall := by
    rw [Stmt.All] at hall
    rw [Stmt.All, ← hd hall.2.1, ← hr hall.2.2.1, ← hb hall.2.2.2]
    simp
  forOf l r b _ _ _ _ := by simp [Stmt.All]
  forOfDecl kind d r b _ _ _ _ := by simp [Stmt.All]
  breakStmt label _ := by simp [Stmt.All]
  continueStmt label _ := by simp [Stmt.All]
  returnStmt o h hall := by
    rw [Stmt.All] at hall
    rw [Stmt.All, ← readBackOptional_eq_self fun e he => h e he (hall.2 e he)]
    simp
  withStmt obj b _ _ _ := by simp [Stmt.All]
  labeled label b h hall := by
    rw [Stmt.All] at hall
    simp [h hall.2, Stmt.All]
  switchStmt d cs hd hc hall := by
    rw [Stmt.All] at hall
    rw [Stmt.All, ← hd hall.2.1, ← mapM_eq_some_self fun c hmem => hc c hmem (hall.2.2 c hmem)]
    simp
  throwStmt e h hall := by
    rw [Stmt.All] at hall
    simp [h hall.2, Stmt.All]
  tryStmt b gs h f hb _ hh hf hall := by
    rw [Stmt.All] at hall
    obtain ⟨⟨hclause, -, hformed⟩, hallBlock, -, hallHandler, hallFinalizer⟩ := hall
    rw [Stmt.All, readBack_try hclause, ← hb hallBlock,
      ← readBackHandler_eq_self fun c hc => hh c hc (hallHandler c hc) (hformed c hc),
      ← readBackFinalizer_eq_self fun b hmem => hf b hmem (hallFinalizer b hmem)]
    constructor
    · rintro ⟨rfl, hb, hh, hf⟩
      exact ⟨rfl, hb, by simp, hh, hf⟩
    · rintro ⟨hguarded, hb, -, hh, hf⟩
      exact ⟨by simpa using hguarded, hb, hh, hf⟩
  debugger _ := by simp [Stmt.All]
  switchCase t ss ht hs hall := by
    rw [SwitchCase.All] at hall
    rw [SwitchCase.All, ← readBackOptional_eq_self fun e he => ht e he (hall.1 e he),
      ← mapM_eq_some_self fun s hmem => hs s hmem (hall.2 s hmem)]
    simp
  catchClause param guard b _ hb hall hformed := by
    rw [CatchClause.All] at hall
    have hguard : guard = none := by simpa using hformed.2.1
    subst hguard
    simp [hb hall.2, CatchClause.All]
  body ss h hall := by
    rw [Block.All] at hall
    have hss := mapM_eq_some_self fun s hs => h s hs (hall s hs)
    simp [hss, Block.All]

end

end MetaMonkey.Frontend
