import MetaMonkey.Frontend.PiecesFit

/-!
In the layouts of trees all pieces fit, but for the operand of a `yield` that begins
with a word: no blank is before it.
-/

namespace MetaMonkey.Frontend

open Js Layout

/-- Whether the text of an expression begins with a word in a context. -/
def Expr.startsWord (c : ℕ) : Expr → Bool
  | identifier _ | thisExpr => true
  | elision | array _ | object _ => false
  | unary op _ => c < 15 && (op = .delete || op = .typeof || op = .void)
  | update _ before argument => c < 15 && !before && argument.startsWord 15
  | binary op left _ => c < Layout.precedence op && left.startsWord (Layout.precedence op - 1)
  | assign _ left _ => c < 3 && left.startsWord 3
  | cond test _ _ => c < 4 && test.startsWord 4
  | call callee _ => c < 18 && callee.startsWord 17
  | newExpr _ _ => c < 17
  | member obj _ | index obj _ => c < 18 && obj.startsWord 17
  | sequence (e :: _) => c < 2 && e.startsWord 2
  | sequence [] => false
  | yieldExpr _ => c < 1
  | letExpr _ _ | function _ _ _ | closure _ _ _ => c < 3

/-- A `yield` whose operand does not begin with a word. -/
def Expr.apart : Expr → Bool
  | yieldExpr (some argument) => !argument.startsWord 2
  | _ => true

/-- A statement that is printed with all its parts. -/
def Stmt.whole : Stmt → Bool
  | withStmt _ _ | forOf _ _ _ | forOfDecl _ _ _ _ => false
  | tryStmt _ guarded _ _ => guarded.isEmpty
  | _ => true

theorem Begins.ne_nil {c : ℕ} {ps : List Piece} (h : Begins c ps) : ps ≠ [] := by
  cases h <;> simp

theorem headIsWord_wrapFrom {L c : ℕ} {ps : List Piece} :
    headIsWord (wrapIf (L ≤ c) ps) = (decide (c < L) && headIsWord ps) := by
  by_cases h : L ≤ c
  · simp [wrapIf, h, Nat.not_lt.mpr h, parens, headIsWord, punct]
  · simp [wrapIf, h, Nat.lt_of_not_le h]

theorem Expr.layout_headIsWord (k : ℕ) : ∀ (e : Expr) (c : ℕ) (n : Bool),
    e.All Expr.Formed Stmt.Formed → e.isElision = false → n = false →
    headIsWord (e.layout k c n) = e.startsWord c
  | .identifier name, c, n, _, _, _ => by rw [Expr.layout]; rfl
  | .thisExpr, c, n, _, _, _ => by rw [Expr.layout]; rfl
  | .elision, c, n, _, he, _ => by simp [isElision] at he
  | .array elements, c, n, _, _, _ => by rw [Expr.layout]; rfl
  | .object properties, c, n, _, _, _ => by rw [Expr.layout]; rfl
  | .unary op argument, c, n, _, _, _ => by
      rw [Expr.layout, headIsWord_wrapFrom, startsWord]
      cases op <;> simp [headIsWord, UnaryOp.lexeme, Lexeme.keyword]
  | .update op before argument, c, n, h, _, _ => by
      rw [Expr.All] at h
      have helision := isElision_of_reference h.1
      have hne := (argument.layout_begins k 15 false h.2 helision).ne_nil
      have harg := argument.layout_headIsWord k 15 false h.2 helision rfl
      rw [Expr.layout, headIsWord_wrapFrom, startsWord]
      cases before with
      | true => simp [headIsWord, punct]
      | false => simp [headIsWord_append hne, harg]
  | .binary op left right, c, n, h, _, hn => by
      subst hn
      rw [Expr.All] at h
      have hne := (left.layout_begins k (Layout.precedence op - 1) false h.2.1 h.1.1).ne_nil
      have hleft := left.layout_headIsWord k (Layout.precedence op - 1) false h.2.1 h.1.1 rfl
      have hwraps : wrapsOp op c false = decide (Layout.precedence op ≤ c) := by simp [wrapsOp]
      rw [Expr.layout, hwraps, headIsWord_wrapFrom, startsWord]
      simp [headIsWord_append hne, hleft]
  | .assign op left right, c, n, h, _, hn => by
      subst hn
      rw [Expr.All] at h
      have helision := isElision_of_reference h.1.1
      have hne := (left.layout_begins k 3 false h.2.1 helision).ne_nil
      have hleft := left.layout_headIsWord k 3 false h.2.1 helision rfl
      rw [Expr.layout, headIsWord_wrapFrom, startsWord]
      simp [headIsWord_append hne, hleft]
  | .cond test consequent alternate, c, n, h, _, hn => by
      subst hn
      rw [Expr.All] at h
      have hne := (test.layout_begins k 4 false h.2.1 h.1.1).ne_nil
      have htest := test.layout_headIsWord k 4 false h.2.1 h.1.1 rfl
      rw [Expr.layout, headIsWord_wrapFrom, startsWord]
      simp [headIsWord_append hne, htest]
  | .call callee args, c, n, h, _, _ => by
      rw [Expr.All] at h
      have hne := (callee.layout_begins k 17 false h.2.1 h.1.1).ne_nil
      have hcallee := callee.layout_headIsWord k 17 false h.2.1 h.1.1 rfl
      rw [Expr.layout, headIsWord_wrapFrom, startsWord]
      simp [headIsWord_append hne, hcallee]
  | .newExpr callee args, c, n, _, _, _ => by
      rw [Expr.layout, headIsWord_wrapFrom, startsWord]
      simp [headIsWord, keyword, Lexeme.keyword]
  | .member obj property, c, n, h, _, _ => by
      rw [Expr.All] at h
      have hne := (obj.layout_begins k 17 false h.2 h.1.1).ne_nil
      have hobj := obj.layout_headIsWord k 17 false h.2 h.1.1 rfl
      rw [Expr.layout, headIsWord_wrapFrom, startsWord]
      simp [headIsWord_append hne, hobj]
  | .index obj property, c, n, h, _, _ => by
      rw [Expr.All] at h
      have hne := (obj.layout_begins k 17 false h.2.1 h.1.1).ne_nil
      have hobj := obj.layout_headIsWord k 17 false h.2.1 h.1.1 rfl
      rw [Expr.layout, headIsWord_wrapFrom, startsWord]
      simp [headIsWord_append hne, hobj]
  | .sequence [], c, n, h, _, _ => by
      rw [Expr.All] at h
      simp [Expr.Formed] at h
  | .sequence [e], c, n, h, _, _ => by
      rw [Expr.All] at h
      simp [Expr.Formed] at h
  | .sequence (e :: e' :: es), c, n, h, _, hn => by
      subst hn
      rw [Expr.All] at h
      have hne := (e.layout_begins k 2 false (h.2 e (by simp)) (h.1.2 e (by simp))).ne_nil
      have hhead := e.layout_headIsWord k 2 false (h.2 e (by simp)) (h.1.2 e (by simp)) rfl
      rw [Expr.layout, headIsWord_wrapFrom, startsWord, List.map_cons, List.map_cons, separate,
        List.intercalate_cons_cons, List.append_assoc, headIsWord_append hne, hhead]
  | .yieldExpr argument, c, n, _, _, _ => by
      rw [Expr.layout, headIsWord_wrapFrom, startsWord]
      simp [headIsWord, keyword, Lexeme.keyword]
  | .letExpr head body, c, n, _, _, _ => by
      rw [Expr.layout, headIsWord_wrapFrom, startsWord]
      simp [headIsWord, keyword, Lexeme.keyword]
  | .function id params body, c, n, _, _, _ => by
      rw [Expr.layout, headIsWord_wrapFrom, startsWord]
      simp [functionHead, headIsWord, keyword, Lexeme.keyword]
  | .closure id params body, c, n, _, _, _ => by
      rw [Expr.layout, headIsWord_wrapFrom, startsWord]
      simp [functionHead, headIsWord, keyword, Lexeme.keyword]

/-- A word may meet a word where `g` says so. -/
def Apart (g : Prop) (e : Expr) : Prop := e.apart = false → g

/-- What is left out of the text has no words that would meet. -/
def Stmt.Whole (s : Stmt) : Prop :=
  s.Formed ∧ (s.whole = false → s.All (Apart False) fun _ => True)

theorem Expr.whole_of_apart {e : Expr} (hformed : e.All Expr.Formed Stmt.Formed)
    (h : e.All (Apart False) fun _ => True) : e.All Expr.Formed Stmt.Whole :=
  (Expr.all_and.mpr ⟨hformed, h.all⟩).imp (fun _ he => he.1) fun _ hs => ⟨hs.1, fun _ => hs.2⟩

theorem Stmt.whole_of_apart {s : Stmt} (hformed : s.All Expr.Formed Stmt.Formed)
    (h : s.All (Apart False) fun _ => True) : s.All Expr.Formed Stmt.Whole :=
  (Stmt.all_and.mpr ⟨hformed, h.all⟩).imp (fun _ he => he.1) fun _ hs => ⟨hs.1, fun _ => hs.2⟩

section

variable {g : Prop}

def Expr.Fitting (g : Prop) (e : Expr) : Prop :=
  e.All Expr.Formed Stmt.Whole → e.isElision = false → ∀ k c n,
    Laid g c (e.layout k c n) (e.All (Apart g) fun _ => True)

def Property.Fitting (g : Prop) (x : Property) : Prop :=
  x.All Expr.Formed Stmt.Whole → x.Formed → ∀ k,
    Laid g 2 (x.layout k) (x.All (Apart g) fun _ => True)

def Declarator.Fitting (g : Prop) (d : Declarator) : Prop :=
  d.All Expr.Formed Stmt.Whole → d.Formed → ∀ n,
    Laid g 2 (d.layout n) (d.All (Apart g) fun _ => True)

/-- A statement on lines of its own, and as the body of another. -/
def Stmt.Fitting (g : Prop) (s : Stmt) : Prop :=
  s.All Expr.Formed Stmt.Whole →
    (∀ k, Lines g (s.layout k) (s.All (Apart g) fun _ => True)) ∧
    ∀ k more a, (Follow g a (s.substmt k more) ↔ s.All (Apart g) fun _ => True) ∧
      (lastPiece a (s.substmt k more)).free = true

def Block.Fitting (g : Prop) (b : Block) : Prop :=
  b.All Expr.Formed Stmt.Whole → ∀ k, Lines g (b.layout k) (b.All (Apart g) fun _ => True)

def SwitchCase.Fitting (g : Prop) (c : SwitchCase) : Prop :=
  c.All Expr.Formed Stmt.Whole →
    (∀ e consequent, c = .mk (some e) consequent → e.isElision = false) → ∀ k,
    Lines g (c.layout k) (c.All (Apart g) fun _ => True)

def CatchClause.Fitting (g : Prop) (c : CatchClause) : Prop :=
  c.All Expr.Formed Stmt.Whole → c.Formed false → ∀ k more,
    Lines g (c.layout k more) (c.All (Apart g) fun _ => True)

theorem Expr.fitting_identifier (name : JSString) : (Expr.identifier name).Fitting g := by
  intro hall _ k c n a ha
  rw [Expr.All] at hall
  rw [Expr.layout, Expr.All]
  simp only [follow_cons, ha.fits_word, isWordText_of_isName hall, follow_nil, lastPiece]
  exact ⟨by simp [Apart, Expr.apart], ends_word name⟩

theorem Expr.fitting_this : Expr.thisExpr.Fitting g := by
  intro _ _ k c n a ha
  rw [Expr.layout, Expr.All]
  have hfits : Fits g a (keyword .this) := ha.fits_word.mpr (isWordText_keyword .this)
  simp only [follow_cons, hfits, follow_nil, lastPiece]
  exact ⟨by simp [Apart, Expr.apart], ends_word _⟩

theorem Expr.fitting_elision : Expr.elision.Fitting g := by
  intro _ h
  simp [Expr.isElision] at h

theorem Expr.fitting_array (elements : List Expr) (h : ∀ e ∈ elements, e.Fitting g) :
    (Expr.array elements).Fitting g := by
  intro hall _ k c n a ha
  rw [Expr.All] at hall
  have helements := laid_arrayElements (g := g) (c := 2) elements
    (f := fun e => if e.isElision then none else some (e.layout k 2 false))
    (P := fun e => e.All (Apart g) fun _ => True)
    (fun e he ps hps => by
      cases hel : e.isElision with
      | true => simp [hel] at hps
      | false =>
          obtain rfl : e.layout k 2 false = ps := by simpa [hel] using hps
          exact h e he (hall.2 e he) hel k 2 false)
    (fun e he hnone => by
      cases e with
      | elision => rw [Expr.All]; simp [Apart, Expr.apart]
      | _ => simp [Expr.isElision] at hnone) true
  rw [Expr.layout, Expr.All]
  have hlb : Fits g a (punct .lb) := ha.fits_bracket (.inr (.inl rfl))
  simp [hlb, helements.after_free, helements.closed]
  exact ⟨by simp [Apart, Expr.apart], ends_of_free rfl⟩

theorem Expr.fitting_object (properties : List Property) (h : ∀ x ∈ properties, x.Fitting g) :
    (Expr.object properties).Fitting g := by
  intro hall _ k c n a ha
  rw [Expr.All] at hall
  have hproperties : Laid g 0 (separate [punct .comma] (properties.map fun x => x.layout k))
      (∀ x ∈ properties, x.All (Apart g) fun _ => True) :=
    laid_separate (.inr rfl) fun x hx => h x hx (hall.2 x hx) (hall.1 x hx) k
  rw [Expr.layout, Expr.All]
  have hlc : Fits g a (punct .lc) := ha.fits_bracket (.inr (.inr rfl))
  simp [hlc, hproperties.after_free, hproperties.closed]
  exact ⟨by simp [Apart, Expr.apart], ends_of_free rfl⟩

theorem Expr.fitting_unary (op : UnaryOp) (argument : Expr) (h : argument.Fitting g) :
    (Expr.unary op argument).Fitting g := by
  intro hall _ k c n
  rw [Expr.All] at hall
  rw [Expr.layout, Expr.All]
  refine .wrapFrom (by omega) fun c hc a ha => ?_
  have hfree := ha.free (by omega)
  have harg := h hall.2 hall.1 k 15 false
  have hop : Fits g a (.lexeme op.lexeme) := by
    refine (fits_of_free hfree).mpr ?_
    cases op <;> first | exact sound_keyword _ | trivial
  have hgap : Follow g (.lexeme op.lexeme) (unaryGap op) ∧
      LeadsTo 15 (lastPiece (.lexeme op.lexeme) (unaryGap op)) := by
    cases op
    case delete => exact ⟨by simp [unaryGap], .of_free rfl 15⟩
    case typeof => exact ⟨by simp [unaryGap], .of_free rfl 15⟩
    case void => exact ⟨by simp [unaryGap], .of_free rfl 15⟩
    all_goals exact ⟨follow_nil, Or.inr ⟨le_rfl, _, rfl, rfl⟩⟩
  simp only [List.cons_append, follow_cons, follow_append, hop, hgap.1, (harg _ hgap.2).1,
    true_and, lastPiece,
    lastPiece_append]
  exact ⟨by simp [Apart, Expr.apart], (harg _ hgap.2).2⟩

theorem Expr.fitting_update (op : UpdateOp) (before : Bool) (argument : Expr)
    (h : argument.Fitting g) : (Expr.update op before argument).Fitting g := by
  intro hall _ k c n
  rw [Expr.All] at hall
  rw [Expr.layout, Expr.All]
  refine .wrapFrom (by omega) fun c hc a ha => ?_
  have hfree := ha.free (by omega)
  have harg := h hall.2 (isElision_of_reference hall.1) k 15 false
  have hupdate : Apart g (.update op before argument) := by simp [Apart, Expr.apart]
  cases before with
  | true =>
      have hlead : LeadsTo 15 (punct op.punct) :=
        Or.inr ⟨le_rfl, _, by cases op <;> rfl, rfl⟩
      have hop : Fits g a (punct op.punct) := (fits_of_free hfree).mpr trivial
      simp only [if_true, follow_cons, hop, (harg _ hlead).1, true_and, lastPiece]
      exact ⟨by simp [hupdate], (harg _ hlead).2⟩
  | false =>
      have hcloses : (punct op.punct).closes = true := by cases op <;> rfl
      simp only [Bool.false_eq_true, if_false, follow_append, harg.after_free hfree, follow_cons,
        harg.closed hfree hcloses, follow_nil, lastPiece_append, lastPiece]
      exact ⟨by simp [hupdate], ends_update op⟩

theorem Expr.fitting_binary (op : BinaryOp) (left right : Expr) (hl : left.Fitting g)
    (hr : right.Fitting g) : (Expr.binary op left right).Fitting g := by
  intro hall _ k c n
  rw [Expr.All] at hall
  obtain ⟨⟨hleft, hright⟩, hallLeft, hallRight⟩ := hall
  have hpos : 0 < Layout.precedence op := by cases op <;> decide
  have hlow : Layout.precedence op ≤ 14 := by cases op <;> decide
  have hop : (Piece.lexeme op.lexeme).Sound := by
    cases op <;> first | exact sound_keyword _ | trivial
  rw [Expr.layout, Expr.All]
  have hlaid : ∀ m m' : Bool, Laid g 0
      (left.layout k (Layout.precedence op - 1) m ++ [.space, .lexeme op.lexeme, .space] ++
        right.layout k (Layout.precedence op) m')
      (Apart g (.binary op left right) ∧ (left.All (Apart g) fun _ => True) ∧
        right.All (Apart g) fun _ => True) := by
    intro m m' a ha
    have hfree := ha.free (Nat.zero_le 14)
    have hleft := hl hallLeft hleft k (Layout.precedence op - 1) m
    have hright := hr hallRight hright k (Layout.precedence op) m'
    simp [hleft.after_free hfree, hright.after_free, hop, Apart, Expr.apart, hright.last]
  refine .wrapIf (fun hb a ha => ?_) (hlaid _ _)
  have hc : c < Layout.precedence op := by
    simp [wrapsOp] at hb
    omega
  exact hlaid _ _ a (.of_free (ha.free (by omega)) 0)

theorem Expr.fitting_assign (op : AssignOp) (left right : Expr) (hl : left.Fitting g)
    (hr : right.Fitting g) : (Expr.assign op left right).Fitting g := by
  intro hall _ k c n
  rw [Expr.All] at hall
  obtain ⟨⟨href, hright⟩, hallLeft, hallRight⟩ := hall
  rw [Expr.layout, Expr.All]
  refine .wrapFrom (by omega) fun c hc a ha => ?_
  have hfree := ha.free (by omega)
  have hleft := hl hallLeft (isElision_of_reference href) k 3 n
  have hright := hr hallRight hright k 2 n
  simp [hleft.after_free hfree, hright.after_free, Apart, Expr.apart, hright.last]

theorem Expr.fitting_cond (test consequent alternate : Expr) (ht : test.Fitting g)
    (hc : consequent.Fitting g) (ha : alternate.Fitting g) :
    (Expr.cond test consequent alternate).Fitting g := by
  intro hall _ k c n
  rw [Expr.All] at hall
  obtain ⟨⟨htest, hconsequent, halternate⟩, hallTest, hallConsequent, hallAlternate⟩ := hall
  rw [Expr.layout, Expr.All]
  refine .wrapFrom (by omega) fun c hcprec a hlead => ?_
  have hfree := hlead.free (by omega)
  have htest := ht hallTest htest k 4 n
  have hconsequent := hc hallConsequent hconsequent k 0 n
  have halternate := ha hallAlternate halternate k 3 n
  simp [htest.after_free hfree, htest.closed hfree, hconsequent.after_free, hconsequent.closed,
    halternate.after_free, Apart, Expr.apart, halternate.last]

theorem laid_arguments {args : List Expr} (h : ∀ e ∈ args, e.Fitting g)
    (hall : ∀ e ∈ args, e.All Expr.Formed Stmt.Whole) (he : ∀ e ∈ args, e.isElision = false) :
    Laid g 0 (separate [punct .comma, .space] (args.map fun e => e.layout 0 2 false))
      (∀ e ∈ args, e.All (Apart g) fun _ => True) :=
  laid_separate (.inl rfl) fun e hmem => h e hmem (hall e hmem) (he e hmem) 0 2 false

theorem Expr.fitting_call (callee : Expr) (args : List Expr) (hc : callee.Fitting g)
    (ha : ∀ e ∈ args, e.Fitting g) : (Expr.call callee args).Fitting g := by
  intro hall _ k c n
  rw [Expr.All] at hall
  obtain ⟨⟨hcallee, hargs⟩, hallCallee, hallArgs⟩ := hall
  rw [Expr.layout, Expr.All]
  refine .wrapFrom (by omega) fun c hcprec a hlead => ?_
  have hcallee := hc hallCallee hcallee k 17 false a (hlead.mono (by omega))
  have hargs := laid_arguments ha hallArgs hargs
  simp [hcallee.1, hcallee.2.fits, hargs.follow_parens, Apart, Expr.apart, ends_of_free]

theorem Expr.fitting_new (callee : Expr) (args : List Expr) (hc : callee.Fitting g)
    (ha : ∀ e ∈ args, e.Fitting g) : (Expr.newExpr callee args).Fitting g := by
  intro hall _ k c n
  rw [Expr.All] at hall
  obtain ⟨⟨hcallee, hargs⟩, hallCallee, hallArgs⟩ := hall
  rw [Expr.layout, Expr.All]
  refine .wrapFrom (by omega) fun c hcprec a hlead => ?_
  have hnew : Fits g a (keyword .new) := hlead.fits_word.mpr (isWordText_keyword .new)
  have hcallee := hc hallCallee hcallee k 18 false
  have hargs := laid_arguments ha hallArgs hargs
  cases args with
  | nil => simp [hnew, hcallee.after_free, Apart, Expr.apart, hcallee.last]
  | cons e es =>
      generalize separate [punct .comma, .space]
        ((e :: es).map fun e => e.layout 0 2 false) = ps at hargs ⊢
      simp [hnew, hcallee.after_free, hcallee.closed, hargs.follow_parens, Apart, Expr.apart,
        ends_of_free]

theorem Expr.fitting_member (obj : Expr) (property : JSString) (ho : obj.Fitting g) :
    (Expr.member obj property).Fitting g := by
  intro hall _ k c n
  rw [Expr.All] at hall
  obtain ⟨⟨hobj, hproperty⟩, hallObj⟩ := hall
  rw [Expr.layout, Expr.All]
  refine .wrapFrom (by omega) fun c hcprec a hlead => ?_
  have hobj := ho hallObj hobj k 17 false a (hlead.mono (by omega))
  have hword : Fits g (punct .dot) (word property) :=
    fits_punct_word.mpr (isWordText_of_isWord hproperty)
  simp [hobj.1, hobj.2.fits, hword, Apart, Expr.apart, ends_word]

theorem Expr.fitting_index (obj property : Expr) (ho : obj.Fitting g) (hp : property.Fitting g) :
    (Expr.index obj property).Fitting g := by
  intro hall _ k c n
  rw [Expr.All] at hall
  obtain ⟨⟨hobj, hproperty⟩, hallObj, hallProperty⟩ := hall
  rw [Expr.layout, Expr.All]
  refine .wrapFrom (by omega) fun c hcprec a hlead => ?_
  have hobj := ho hallObj hobj k 17 false a (hlead.mono (by omega))
  have hproperty := hp hallProperty hproperty k 0 false
  simp [hobj.1, hobj.2.fits, hproperty.after_free, hproperty.closed, Apart, Expr.apart,
    ends_of_free]

theorem Expr.fitting_sequence (expressions : List Expr) (h : ∀ e ∈ expressions, e.Fitting g) :
    (Expr.sequence expressions).Fitting g := by
  intro hall _ k c n
  rw [Expr.All] at hall
  rw [Expr.layout, Expr.All]
  have hlaid : Laid g 0 (separate [punct .comma] (expressions.map fun e => e.layout k 2 n))
      (∀ e ∈ expressions, e.All (Apart g) fun _ => True) :=
    laid_separate (.inr rfl) fun e he => h e he (hall.2 e he) (hall.1.2 e he) k 2 n
  refine .wrapFrom (by omega) fun c hcprec a hlead => ?_
  have hfree := hlead.free (by omega)
  simp [hlaid.after_free hfree, Apart, Expr.apart, hlaid.last hfree]

theorem Expr.fitting_yield (argument : Option Expr) (h : ∀ e ∈ argument, e.Fitting g) :
    (Expr.yieldExpr argument).Fitting g := by
  intro hall _ k c n
  rw [Expr.All] at hall
  rw [Expr.layout, Expr.All]
  refine .wrapFrom (by omega) fun c hcprec a hlead => ?_
  have hfree := hlead.free (by omega)
  have hyield : Fits g a (keyword .yield) := hlead.fits_word.mpr (isWordText_keyword .yield)
  cases argument with
  | none =>
      rw [optionalLayout]
      simp [hyield, Apart, Expr.apart]
      exact ends_word _
  | some e =>
      have he := h e rfl (hall.2 e rfl) (hall.1 e rfl) k 2 false
      have hhead := e.layout_headIsWord k 2 false
        ((hall.2 e rfl).imp (fun _ => id) fun _ => And.left) (hall.1 e rfl) rfl
      have hfollow : Follow g (keyword .yield) (e.layout k 2 false) ↔
          (Apart g (.yieldExpr (some e)) ∧ e.All (Apart g) fun _ => True) := by
        rw [keyword, Lexeme.keyword, ← word, follow_word, hhead, he.after_free rfl]
        simp [Apart, Expr.apart]
      have hlast : lastPiece (keyword .yield) (e.layout k 2 false) =
          lastPiece .space (e.layout k 2 false) := by
        have hbegins := e.layout_begins k 2 false
          ((hall.2 e rfl).imp (fun _ => id) fun _ => And.left) (hall.1 e rfl)
        cases hps : e.layout k 2 false with
        | nil => exact absurd hps hbegins.ne_nil
        | cons b ps => rfl
      rw [optionalLayout]
      simp [hyield, hfollow, hlast, he.last]

theorem Expr.fitting_let (head : List Declarator) (body : Expr) (hd : ∀ d ∈ head, d.Fitting g)
    (hb : body.Fitting g) : (Expr.letExpr head body).Fitting g := by
  intro hall _ k c n
  rw [Expr.All] at hall
  obtain ⟨⟨hhead, hbody⟩, hallHead, hallBody⟩ := hall
  rw [Expr.layout, Expr.All]
  refine .wrapFrom (by omega) fun c hcprec a hlead => ?_
  have hvar : Fits g a (keyword .var) := hlead.fits_word.mpr (isWordText_keyword .var)
  have hhead : Laid g 0 (separate [punct .comma, .space] (head.map fun d => d.layout false))
      (∀ d ∈ head, d.All (Apart g) fun _ => True) :=
    laid_separate (.inl rfl) fun d hmem => hd d hmem (hallHead d hmem) (hhead.2 d hmem) false
  have hbody := hb hallBody hbody k 2 false
  simp [hvar, hhead.follow_parens, hbody.after_free, Apart, Expr.apart, hbody.last]

theorem follow_functionHead {id : Option JSString} {params : List JSString}
    (h : FunctionHead.Formed id params) {a : Piece} (ha : a.free = true) :
    Follow g a (functionHead id params) ∧ lastPiece a (functionHead id params) = punct .rp := by
  have hparams : Laid g 0 (separate [punct .comma, .space] (params.map fun w => [word w]))
      (∀ w ∈ params, True) := by
    refine laid_separate (c := 0) (.inl rfl) fun w hw a ha => ?_
    simp [ha.fits_word, isWordText_of_isName (h.2 w hw), ends_word]
  cases id with
  | none => simp [functionHead, fits_of_free ha, hparams.follow_parens]
  | some w =>
      simp [functionHead, fits_of_free ha, hparams.follow_parens,
        isWordText_of_isName (h.1 w rfl)]

theorem Expr.fitting_function (id : Option JSString) (params : List JSString) (body : Block)
    (h : body.Fitting g) : (Expr.function id params body).Fitting g := by
  intro hall _ k c n
  rw [Expr.All] at hall
  rw [Expr.layout, Expr.All]
  refine .wrapFrom (by omega) fun c hcprec a hlead => ?_
  have hhead := follow_functionHead (g := g) hall.1.1 (hlead.free (by omega))
  have hbody := h hall.2 k
  simp [hhead, hbody.after, Apart, Expr.apart]
  exact ends_of_free rfl

theorem Expr.fitting_closure (id : Option JSString) (params : List JSString) (body : Expr)
    (h : body.Fitting g) : (Expr.closure id params body).Fitting g := by
  intro hall _ k c n
  rw [Expr.All] at hall
  rw [Expr.layout, Expr.All]
  refine .wrapFrom (by omega) fun c hcprec a hlead => ?_
  have hhead := follow_functionHead (g := g) hall.1.1 (hlead.free (by omega))
  have hbody := h hall.2 hall.1.2 k 2 false
  have hwrapped := Laid.wrapIf (w := startsLikeBlock (body.layout k 2 false)) (fun _ => hbody)
    hbody.zero
  simp [hhead, hwrapped.after_free, Apart, Expr.apart, hwrapped.last]

theorem Property.fitting (key : JSString) (value : Expr) (h : value.Fitting g) :
    (Property.init key value).Fitting g := by
  intro hall hformed k a ha
  rw [Property.All] at hall
  rw [Property.layout, Property.All]
  have hkey : Fits g a (word key) := ha.fits_word.mpr (isWordText_of_isWord hformed.1)
  have hvalue := h hall hformed.2 k 2 false
  simp [hkey, hvalue.after_free, hvalue.last]

theorem Declarator.fitting (id : JSString) (init : Option Expr) (h : ∀ e ∈ init, e.Fitting g) :
    (Declarator.mk id init).Fitting g := by
  intro hall hformed n a ha
  rw [Declarator.All] at hall
  have hid : Fits g a (word id) := ha.fits_word.mpr (isWordText_of_isName hformed.1)
  cases init with
  | none =>
      rw [Declarator.layout, Declarator.All]
      simp [hid, ends_word]
  | some e =>
      have hinit := h e rfl (hall e rfl) (hformed.2 e rfl) 0 2 n
      rw [Declarator.layout, Declarator.All]
      simp [hid, hinit.after_free, hinit.last]

theorem laid_declarators {ds : List Declarator} (h : ∀ d ∈ ds, d.Fitting g)
    (hall : ∀ d ∈ ds, d.All Expr.Formed Stmt.Whole) (hformed : Declarators.Formed ds) (n : Bool) :
    Laid g 0 (separate [punct .comma, .space] (ds.map fun d => d.layout n))
      (∀ d ∈ ds, d.All (Apart g) fun _ => True) :=
  laid_separate (.inl rfl) fun d hd => h d hd (hall d hd) (hformed.2 d hd) n

theorem lines_stmts {ss : List Stmt} (h : ∀ s ∈ ss, s.Fitting g)
    (hall : ∀ s ∈ ss, s.All Expr.Formed Stmt.Whole) (k : ℕ) :
    Lines g (ss.map fun s => s.layout k).flatten (∀ s ∈ ss, s.All (Apart g) fun _ => True) :=
  lines_flatten fun s hs => (h s hs (hall s hs)).1 k

/-- A statement other than a block is on a line of its own also as a body. -/
theorem Stmt.Fitting.of_layout {s : Stmt} (hblock : ∀ body, s ≠ .block body)
    (h : s.All Expr.Formed Stmt.Whole → ∀ k,
      Lines g (s.layout k) (s.All (Apart g) fun _ => True)) : s.Fitting g := by
  refine fun hall => ⟨h hall, fun k more a => ?_⟩
  have hlines := h hall (k + 4)
  have hmore : ∀ b : Piece, Follow g b (if more then spaces (k + 4) else []) := by
    intro b
    cases more <;> simp
  have hlast : ∀ b : Piece, b.free = true →
      (lastPiece b (if more then spaces (k + 4) else [])).free = true := by
    intro b hb
    cases more with
    | false => exact hb
    | true => exact free_spaces hb
  have hsubstmt : s.substmt k more =
      eol :: s.layout (k + 4) ++ if more then spaces (k + 4) else [] := by
    cases s with
    | block body => exact absurd rfl (hblock body)
    | _ =>
        rw [Stmt.substmt]
        simp
  rw [hsubstmt]
  simp [hlines.after, hmore, hlast, hlines.last]

theorem Stmt.fitting_block (body : List Stmt) (h : ∀ s ∈ body, s.Fitting g) :
    (Stmt.block body).Fitting g := by
  intro hall
  rw [Stmt.All] at hall
  have hbody := lines_stmts h hall.2 4
  refine ⟨fun k a ha => ?_, fun k more a => ?_⟩
  · have hspaces := free_spaces (k := k) ha
    have hinner := free_spaces (k := k) (hbody.last (a := eol) rfl)
    rw [Stmt.layout, Stmt.All]
    simp [fits_of_free hspaces, hbody.after, fits_of_free hinner]
  · have hinner := free_spaces (k := k) (hbody.last (a := eol) rfl)
    rw [Stmt.substmt, Stmt.All]
    cases more <;> simp [hbody.after, fits_of_free hinner]

theorem Block.fitting (body : List Stmt) (h : ∀ s ∈ body, s.Fitting g) :
    (Block.mk body).Fitting g := by
  intro hall k a ha
  rw [Block.All] at hall
  have hbody := lines_stmts h hall 4
  have hinner := free_spaces (k := k) (hbody.last (a := eol) rfl)
  rw [Block.layout, Block.All]
  simp [fits_of_free ha, hbody.after, fits_of_free hinner]

theorem Stmt.fitting_declaration (kind : VarDeclKind) (ds : List Declarator)
    (h : ∀ d ∈ ds, d.Fitting g) : (Stmt.declaration kind ds).Fitting g := by
  refine .of_layout (by simp) fun hall k a ha => ?_
  rw [Stmt.All] at hall
  have hspaces := free_spaces (k := k) ha
  have hds := laid_declarators h hall.2 hall.1.1 false
  rw [Stmt.layout, Stmt.All]
  simp [fits_of_free hspaces, hds.after_free, hds.closed]

theorem Stmt.fitting_empty : Stmt.empty.Fitting g := by
  refine .of_layout (by simp) fun _ k a ha => ?_
  rw [Stmt.layout, Stmt.All]
  simp [fits_of_free (free_spaces ha)]

theorem Stmt.fitting_expression (e : Expr) (h : e.Fitting g) : (Stmt.expression e).Fitting g := by
  refine .of_layout (by simp) fun hall k a ha => ?_
  rw [Stmt.All] at hall
  have hspaces := free_spaces (k := k) ha
  have he := h hall.2 hall.1.1 k 0 false
  have hwrapped := Laid.wrapIf (w := startsLikeStmt (e.layout k 0 false)) (fun _ => he) he
  rw [Stmt.layout, Stmt.All]
  simp [hwrapped.after_free hspaces, hwrapped.closed hspaces]

theorem Stmt.fitting_let (head : List Declarator) (body : Stmt) (hd : ∀ d ∈ head, d.Fitting g)
    (hb : body.Fitting g) : (Stmt.letStmt head body).Fitting g := by
  refine .of_layout (by simp) fun hall k a ha => ?_
  rw [Stmt.All] at hall
  have hspaces := free_spaces (k := k) ha
  have hhead := laid_declarators hd hall.2.1 hall.1.1.1 false
  have hbody := (hb hall.2.2).2 k false
  rw [Stmt.layout, Stmt.All]
  simp [fits_of_free hspaces, hhead.follow_parens, hbody]

theorem Stmt.fitting_if (test : Expr) (consequent : Stmt) (alternate : Option Stmt)
    (ht : test.Fitting g) (hc : consequent.Fitting g) (ha : ∀ s ∈ alternate, s.Fitting g) :
    (Stmt.ifStmt test consequent alternate).Fitting g := by
  refine .of_layout (by simp) fun hall k a hfree => ?_
  rw [Stmt.All] at hall
  obtain ⟨⟨⟨htest, -⟩, -⟩, hallTest, hallConsequent, hallAlternate⟩ := hall
  have hspaces := free_spaces (k := k) hfree
  have htest := ht hallTest htest k 0 false
  have hthen := (hc hallConsequent).2 k
  cases alternate with
  | none =>
      rw [Stmt.layout, Stmt.All]
      simp [fits_of_free hspaces, htest.follow_parens, hthen]
  | some alternate =>
      have helse := (ha alternate rfl (hallAlternate alternate rfl)).2 k false
      rw [Stmt.layout, Stmt.All]
      simp [fits_of_free hspaces, htest.follow_parens, hthen, fits_of_free (hthen true _).2, helse]

theorem Stmt.fitting_while (test : Expr) (body : Stmt) (ht : test.Fitting g)
    (hb : body.Fitting g) : (Stmt.whileStmt test body).Fitting g := by
  refine .of_layout (by simp) fun hall k a ha => ?_
  rw [Stmt.All] at hall
  obtain ⟨⟨⟨htest, -⟩, -⟩, hallTest, hallBody⟩ := hall
  have hspaces := free_spaces (k := k) ha
  have htest := ht hallTest htest k 0 false
  have hbody := (hb hallBody).2 k false
  rw [Stmt.layout, Stmt.All]
  simp [fits_of_free hspaces, htest.follow_parens, hbody, free_spaces]

theorem Stmt.fitting_doWhile (body : Stmt) (test : Expr) (hb : body.Fitting g)
    (ht : test.Fitting g) : (Stmt.doWhile body test).Fitting g := by
  refine .of_layout (by simp) fun hall k a ha => ?_
  rw [Stmt.All] at hall
  obtain ⟨⟨⟨-, htest⟩, -⟩, hallBody, hallTest⟩ := hall
  have hspaces := free_spaces (k := k) ha
  have htest := ht hallTest htest k 0 false
  have hbody := (hb hallBody).2 k true
  rw [Stmt.layout, Stmt.All]
  simp [fits_of_free hspaces, htest.follow_parens, hbody, fits_of_free (hbody _).2]

/-- An expression of the head of a `for`. -/
theorem laid_optional {o : Option Expr} (h : ∀ e ∈ o, e.Fitting g)
    (hall : ∀ e ∈ o, e.All Expr.Formed Stmt.Whole) (he : ∀ e ∈ o, e.isElision = false)
    {lead : List Piece} (hlead : lead = [] ∨ lead = [.space]) (k c : ℕ) (n : Bool) :
    Laid g 0 (optionalLayout lead k c n o) (∀ e ∈ o, e.All (Apart g) fun _ => True) := by
  intro a ha
  have hfree := ha.free (Nat.zero_le 14)
  cases o with
  | none =>
      rw [optionalLayout]
      simp [ends_of_free hfree]
  | some e =>
      have hlaid := h e rfl (hall e rfl) (he e rfl) k c n
      rw [optionalLayout]
      obtain rfl | rfl := hlead
      · simp [hlaid.after_free hfree, hlaid.last hfree]
      · simp [hlaid.after_free, hlaid.last]

theorem Stmt.fitting_for (init test update : Option Expr) (body : Stmt)
    (hi : ∀ e ∈ init, e.Fitting g) (ht : ∀ e ∈ test, e.Fitting g)
    (hu : ∀ e ∈ update, e.Fitting g) (hb : body.Fitting g) :
    (Stmt.forStmt init test update body).Fitting g := by
  refine .of_layout (by simp) fun hall k a ha => ?_
  rw [Stmt.All] at hall
  obtain ⟨⟨⟨hinit, htest, hupdate, -⟩, -⟩, hallInit, hallTest, hallUpdate, hallBody⟩ := hall
  have hinit := laid_optional hi hallInit hinit (.inl rfl) k 0 true
  have htest := laid_optional ht hallTest htest (.inr rfl) k 0 false
  have hupdate := laid_optional hu hallUpdate hupdate (.inr rfl) k 0 false
  have hbody := (hb hallBody).2 k false
  rw [Stmt.layout, Stmt.All]
  simp [fits_of_free ha, hinit.after_free, hinit.closed, htest.after_free, htest.closed,
    hupdate.after_free, hupdate.closed, hbody]

theorem Stmt.fitting_forDecl (kind : VarDeclKind) (ds : List Declarator)
    (test update : Option Expr) (body : Stmt) (hd : ∀ d ∈ ds, d.Fitting g)
    (ht : ∀ e ∈ test, e.Fitting g) (hu : ∀ e ∈ update, e.Fitting g) (hb : body.Fitting g) :
    (Stmt.forDecl kind ds test update body).Fitting g := by
  refine .of_layout (by simp) fun hall k a ha => ?_
  rw [Stmt.All] at hall
  obtain ⟨⟨⟨-, hds, htest, hupdate, -⟩, -⟩, hallDs, hallTest, hallUpdate, hallBody⟩ := hall
  have hds := laid_declarators hd hallDs hds true
  have htest := laid_optional ht hallTest htest (.inr rfl) k 0 false
  have hupdate := laid_optional hu hallUpdate hupdate (.inr rfl) k 0 false
  have hbody := (hb hallBody).2 k false
  rw [Stmt.layout, Stmt.All]
  simp [fits_of_free ha, hds.after_free, hds.closed, htest.after_free, htest.closed,
    hupdate.after_free, hupdate.closed, hbody]

theorem Stmt.fitting_forIn (each : Bool) (left right : Expr) (body : Stmt)
    (hl : left.Fitting g) (hr : right.Fitting g) (hb : body.Fitting g) :
    (Stmt.forIn each left right body).Fitting g := by
  refine .of_layout (by simp) fun hall k a ha => ?_
  rw [Stmt.All] at hall
  obtain ⟨⟨⟨href, hright, -⟩, -⟩, hallLeft, hallRight, hallBody⟩ := hall
  have hspaces := free_spaces (k := k) ha
  have hleft := hl hallLeft (isElision_of_reference href) k 0 false
  have hright := hr hallRight hright k 0 false
  have hbody := (hb hallBody).2 k false
  have heach : isWordText (js "each") = true := by decide
  rw [Stmt.layout, Stmt.All]
  cases each <;>
    simp [fits_of_free hspaces, parens, hleft.after_free, hright.after_free, hright.closed, hbody,
      heach]

theorem Stmt.fitting_forInDecl (each : Bool) (kind : VarDeclKind) (d : Declarator) (right : Expr)
    (body : Stmt) (hd : d.Fitting g) (hr : right.Fitting g) (hb : body.Fitting g) :
    (Stmt.forInDecl each kind d right body).Fitting g := by
  refine .of_layout (by simp) fun hall k a ha => ?_
  rw [Stmt.All] at hall
  obtain ⟨⟨⟨-, hformed, -, hright, -⟩, -⟩, hallD, hallRight, hallBody⟩ := hall
  have hspaces := free_spaces (k := k) ha
  have hdecl := hd hallD hformed true
  have hright := hr hallRight hright k 0 false
  have hbody := (hb hallBody).2 k false
  have heach : isWordText (js "each") = true := by decide
  rw [Stmt.layout, Stmt.All]
  cases each <;>
    simp [fits_of_free hspaces, parens, hdecl.after_free, hright.after_free, hright.closed, hbody,
      heach]

/-- A statement that is not whole has no words that meet. -/
theorem Stmt.Whole.apart {s : Stmt} (h : s.Whole) (hwhole : s.whole = false) :
    s.All (Apart g) fun _ => True :=
  (h.2 hwhole).imp (fun _ he hapart => (he hapart).elim) fun _ _ => trivial

theorem Stmt.fitting_missing {s : Stmt} (hblock : ∀ body, s ≠ .block body)
    (hwhole : s.whole = false) (hlayout : ∀ k, s.layout k = [punct .rp]) : s.Fitting g := by
  refine .of_layout hblock fun hall k a ha => ?_
  have hrp : Follow g a [punct .rp] := by simp [fits_of_free ha]
  rw [hlayout]
  exact ⟨iff_of_true hrp (hall.self.apart hwhole), rfl⟩

theorem Stmt.fitting_with (obj : Expr) (body : Stmt) (hb : body.Fitting g) :
    (Stmt.withStmt obj body).Fitting g := by
  refine .of_layout (by simp) fun hall k a ha => ?_
  have hapart := hall.self.apart (g := g) rfl
  rw [Stmt.All] at hall hapart
  have hspaces := free_spaces (k := k) ha
  have hbody := (hb hall.2.2).2 k false
  rw [Stmt.layout, Stmt.All]
  simp [fits_of_free hspaces, hbody, hapart]

theorem follow_jump {k : Keyword} {label : Option JSString} (h : ∀ w ∈ label, isName w = true)
    {a : Piece} (ha : a.free = true) :
    Follow g a (jump k label) ∧ lastPiece a (jump k label) = eol := by
  cases label with
  | none => simp [jump, fits_of_free ha]
  | some w => simp [jump, fits_of_free ha, isWordText_of_isName (h w rfl)]

theorem Stmt.fitting_break (label : Option JSString) : (Stmt.breakStmt label).Fitting g := by
  refine .of_layout (by simp) fun hall k a ha => ?_
  rw [Stmt.All] at hall
  have hjump := follow_jump (g := g) (k := .break) hall.1 (free_spaces (k := k) ha)
  rw [Stmt.layout, Stmt.All]
  simp [hjump]

theorem Stmt.fitting_continue (label : Option JSString) :
    (Stmt.continueStmt label).Fitting g := by
  refine .of_layout (by simp) fun hall k a ha => ?_
  rw [Stmt.All] at hall
  have hjump := follow_jump (g := g) (k := .continue) hall.1 (free_spaces (k := k) ha)
  rw [Stmt.layout, Stmt.All]
  simp [hjump]

theorem Stmt.fitting_return (argument : Option Expr) (h : ∀ e ∈ argument, e.Fitting g) :
    (Stmt.returnStmt argument).Fitting g := by
  refine .of_layout (by simp) fun hall k a ha => ?_
  rw [Stmt.All] at hall
  have hspaces := free_spaces (k := k) ha
  rw [Stmt.layout, Stmt.All]
  cases argument with
  | none =>
      rw [optionalLayout]
      simp [fits_of_free hspaces]
  | some e =>
      have he := h e rfl (hall.2 e rfl) (hall.1.1 e rfl) k 17 false
      rw [optionalLayout]
      simp [fits_of_free hspaces, he.after_free, he.closed]

theorem Stmt.fitting_labeled (label : JSString) (body : Stmt) (hb : body.Fitting g) :
    (Stmt.labeled label body).Fitting g := by
  refine .of_layout (by simp) fun hall k a ha => ?_
  rw [Stmt.All] at hall
  have hbody := (hb hall.2).1 k
  rw [Stmt.layout, Stmt.All]
  simp [fits_of_free ha, isWordText_of_isName hall.1.1.1, hbody.after, hbody.last]

theorem SwitchCase.fitting (test : Option Expr) (consequent : List Stmt)
    (ht : ∀ e ∈ test, e.Fitting g) (hs : ∀ s ∈ consequent, s.Fitting g) :
    (SwitchCase.mk test consequent).Fitting g := by
  intro hall helision k a ha
  rw [SwitchCase.All] at hall
  have hspaces := free_spaces (k := k) ha
  have hbody := lines_stmts hs hall.2 (k + 4)
  cases test with
  | none =>
      rw [SwitchCase.layout, SwitchCase.All]
      simp [fits_of_free hspaces, hbody.after, hbody.last]
  | some e =>
      have he := ht e rfl (hall.1 e rfl) (helision e consequent rfl) k 0 false
      rw [SwitchCase.layout, SwitchCase.All]
      simp [fits_of_free hspaces, he.after_free, he.closed, hbody.after, hbody.last]

theorem Stmt.fitting_switch (discriminant : Expr) (cases : List SwitchCase)
    (hd : discriminant.Fitting g) (hc : ∀ c ∈ cases, c.Fitting g) :
    (Stmt.switchStmt discriminant cases).Fitting g := by
  refine .of_layout (by simp) fun hall k a ha => ?_
  rw [Stmt.All] at hall
  obtain ⟨⟨⟨hdiscriminant, -, htests⟩, -⟩, hallDiscriminant, hallCases⟩ := hall
  have hspaces := free_spaces (k := k) ha
  have hdiscriminant := hd hallDiscriminant hdiscriminant k 0 false
  have hcases : Lines g (cases.map fun c => c.layout k).flatten
      (∀ c ∈ cases, c.All (Apart g) fun _ => True) :=
    lines_flatten fun c hmem => hc c hmem (hallCases c hmem) (htests c hmem) k
  have hinner := free_spaces (k := k) (hcases.last (a := eol) rfl)
  rw [Stmt.layout, Stmt.All]
  simp [fits_of_free hspaces, hdiscriminant.follow_parens, hcases.after, fits_of_free hinner]

theorem Stmt.fitting_throw (argument : Expr) (h : argument.Fitting g) :
    (Stmt.throwStmt argument).Fitting g := by
  refine .of_layout (by simp) fun hall k a ha => ?_
  rw [Stmt.All] at hall
  have hspaces := free_spaces (k := k) ha
  have he := h hall.2 hall.1.1 k 0 false
  rw [Stmt.layout, Stmt.All]
  simp [fits_of_free hspaces, he.after_free, he.closed]

theorem CatchClause.fitting (param : JSString) (guard : Option Expr) (body : Block)
    (hb : body.Fitting g) : (CatchClause.mk param guard body).Fitting g := by
  intro hall hformed k more a ha
  rw [CatchClause.All] at hall
  have hbody := hb hall.2 k
  have hguard : guard = none := by simpa using hformed.2.1
  subst hguard
  rw [CatchClause.layout, CatchClause.All]
  cases more <;>
    simp [fits_of_free ha, parens, isWordText_of_isName hformed.1, hbody.after]

theorem Stmt.fitting_try (block : Block) (guarded : List CatchClause)
    (handler : Option CatchClause) (finalizer : Option Block) (hb : block.Fitting g)
    (hh : ∀ c ∈ handler, c.Fitting g) (hf : ∀ b ∈ finalizer, b.Fitting g) :
    (Stmt.tryStmt block guarded handler finalizer).Fitting g := by
  refine .of_layout (by simp) fun hall k a ha => ?_
  rw [Stmt.All] at hall
  obtain ⟨hwhole, hallBlock, -, hallHandler, hallFinalizer⟩ := hall
  have hformed := hwhole.1.2.2
  -- the guarded handlers are left out
  have hguarded : ∀ c ∈ guarded, c.All (Apart g) fun _ => True := by
    cases guarded with
    | nil => simp
    | cons c cs =>
        have hapart := hwhole.apart (g := g) rfl
        rw [Stmt.All] at hapart
        exact hapart.2.2.1
  have hspaces := free_spaces (k := k) ha
  have hblock := hb hallBlock k
  have hhandler : Lines g (handlerLayout k finalizer.isSome handler)
      (∀ c ∈ handler, c.All (Apart g) fun _ => True) := by
    intro b hfree
    cases handler with
    | none =>
        rw [handlerLayout]
        simp [hfree]
    | some c =>
        rw [handlerLayout]
        simpa using hh c rfl (hallHandler c rfl) (hformed c rfl) k finalizer.isSome b hfree
  have hfinalizer : Lines g (finalizerLayout k finalizer)
      (∀ b ∈ finalizer, b.All (Apart g) fun _ => True) := by
    intro b hfree
    cases finalizer with
    | none =>
        rw [finalizerLayout]
        simp [hfree]
    | some f =>
        have hbody := hf f rfl (hallFinalizer f rfl) k
        rw [finalizerLayout]
        simp [fits_of_free hfree, hbody.after]
  rw [Stmt.layout, Stmt.All]
  simp [fits_of_free hspaces, hblock.after, hhandler.after, hhandler.last, hfinalizer.after,
    hfinalizer.last, and_iff_right hguarded]

theorem Stmt.fitting_debugger : Stmt.debugger.Fitting g := by
  refine .of_layout (by simp) fun _ k a ha => ?_
  rw [Stmt.layout, Stmt.All]
  simp [fits_of_free (free_spaces ha)]

theorem fitting_inductive (g : Prop) : Inductive (Expr.Fitting g) (Stmt.Fitting g)
    (Property.Fitting g) (Declarator.Fitting g) (SwitchCase.Fitting g) (CatchClause.Fitting g)
    (Block.Fitting g) where
  identifier := Expr.fitting_identifier
  thisExpr := Expr.fitting_this
  elision := Expr.fitting_elision
  array := Expr.fitting_array
  object := Expr.fitting_object
  unary := Expr.fitting_unary
  update := Expr.fitting_update
  binary := Expr.fitting_binary
  assign := Expr.fitting_assign
  cond := Expr.fitting_cond
  call := Expr.fitting_call
  newExpr := Expr.fitting_new
  member := Expr.fitting_member
  index := Expr.fitting_index
  sequence := Expr.fitting_sequence
  yieldExpr := Expr.fitting_yield
  letExpr := Expr.fitting_let
  function := Expr.fitting_function
  closure := Expr.fitting_closure
  property := Property.fitting
  declarator := Declarator.fitting
  block := Stmt.fitting_block
  declaration := Stmt.fitting_declaration
  empty := Stmt.fitting_empty
  expression := Stmt.fitting_expression
  letStmt := Stmt.fitting_let
  ifStmt := Stmt.fitting_if
  whileStmt := Stmt.fitting_while
  doWhile := Stmt.fitting_doWhile
  forStmt := Stmt.fitting_for
  forDecl := Stmt.fitting_forDecl
  forIn := Stmt.fitting_forIn
  forInDecl := Stmt.fitting_forInDecl
  forOf _ _ _ _ _ _ := Stmt.fitting_missing (by simp) rfl fun _ => by rw [Stmt.layout]
  forOfDecl _ _ _ _ _ _ _ := Stmt.fitting_missing (by simp) rfl fun _ => by rw [Stmt.layout]
  breakStmt := Stmt.fitting_break
  continueStmt := Stmt.fitting_continue
  returnStmt := Stmt.fitting_return
  withStmt obj body _ hb := Stmt.fitting_with obj body hb
  labeled := Stmt.fitting_labeled
  switchStmt := Stmt.fitting_switch
  throwStmt := Stmt.fitting_throw
  tryStmt block guarded handler finalizer hb _ hh hf :=
    Stmt.fitting_try block guarded handler finalizer hb hh hf
  debugger := Stmt.fitting_debugger
  switchCase := SwitchCase.fitting
  catchClause param guard body _ hb := CatchClause.fitting param guard body hb
  body := Block.fitting

end

end MetaMonkey.Frontend
