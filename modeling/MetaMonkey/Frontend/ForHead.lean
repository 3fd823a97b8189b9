import MetaMonkey.Frontend.RoundTrip

/-!
The first part of the head of a `for`, in which the parser takes no `in` for an
operator: what it is built from, its text, and what is read from it.
-/

namespace MetaMonkey.Frontend

open Js Layout Staging MetaMonkey.Frontend.Parser

/-- The first part of the head of a loop with three parts. -/
def Stmt.forInit? : Stmt → Option ForInit
  | .forStmt none _ _ _ => some .none
  | .forStmt (some e) _ _ _ => some (.expression e)
  | .forDecl kind declarations _ _ _ => some (.declaration kind declarations)
  | _ => none

namespace Parser.ForInit

def layout (k : ℕ) : ForInit → List Piece
  | .none => []
  | .expression e => e.layout k 0 true
  | .declaration kind declarations =>
      [keyword kind.keyword, .space] ++
        separate [punct .comma, .space] (declarations.map fun d => d.layout true)

/-- `p` and `q` hold of all the expressions and statements. -/
def All (p : Expr → Prop) (q : Stmt → Prop) : ForInit → Prop
  | .none => True
  | .expression e => e.All p q
  | .declaration _ declarations => ∀ d ∈ declarations, d.All p q

def Formed : ForInit → Prop
  | .none => True
  | .expression e => e.isElision = false
  | .declaration kind declarations => kind ≠ .let ∧ Declarators.Formed declarations

/-- What is printed before the first part, with it, and after it. -/
def headLayout (k : ℕ) (i : ForInit) : List Piece :=
  [keyword .for, .space, punct .lp] ++ i.layout k ++ [punct .semi]

end Parser.ForInit

/-- The nodes that may be in the first part. -/
def Expr.isForInitPart : Expr → Bool
  | identifier _ | elision | array _ | unary _ _ | binary _ _ _ | assign _ _ _ | cond _ _ _
  | call _ _ | index _ _ | function _ _ _ | closure _ _ _ => true
  | _ => false

theorem Expr.sound_of_isForInitPart {e : Expr} {q : Stmt → Prop}
    (h : e.All (fun x => x.isForInitPart = true) q) : Apart False e ∧ e.Sound := by
  cases e with
  | cond test consequent alternate =>
      rw [Expr.All] at h
      have hconsequent := h.2.2.1.self
      refine ⟨by simp [Apart, Expr.apart], ?_⟩
      cases consequent <;> simp_all [isForInitPart, Expr.Sound, Expr.sound, isSequence]
  | _ => simp_all [Expr.All, isForInitPart, Apart, Expr.apart, Expr.Sound, Expr.sound]

section

variable {i : ForInit}

theorem Parser.ForInit.sound_of_built
    (h : i.All (fun x => x.isForInitPart = true) Stmt.Sound) :
    i.All (fun x => Apart False x ∧ x.Sound) Stmt.Sound := by
  have hexpr : ∀ e : Expr, e.All (fun x => x.isForInitPart = true) Stmt.Sound →
      e.All (fun x => Apart False x ∧ x.Sound) Stmt.Sound := fun e he =>
    he.all.imp (fun _ hx => Expr.sound_of_isForInitPart hx) fun _ hs => hs.self
  cases i with
  | none => trivial
  | expression e => exact hexpr e h
  | declaration kind ds =>
      intro d hd
      have hinit := h d hd
      obtain ⟨id, init⟩ := d
      rw [Declarator.All] at hinit ⊢
      exact fun e he => hexpr e (hinit e he)

/-- The parser reads the first part up to the semicolon after it. -/
theorem Parser.ForInit.reads (hbuilt : i.All (fun x => x.isForInitPart = true) Stmt.Sound)
    (hformed : i.Formed) (hall : i.All Expr.Formed Stmt.Formed) (k : ℕ) :
    ForInitReads (.punct .semi) (meant (i.layout k)) (some i) := by
  have hsound := ForInit.sound_of_built hbuilt
  cases i with
  | none => exact .missing
  | expression e =>
      have hback : e.readBack = some e :=
        (readBack_inductive.expr e hall).mpr (hsound.imp (fun _ hx => hx.2) fun _ hs => hs)
      -- no `yield` ends the part at an `in` of its operand
      have hsplits : e.splitsHead = false := by
        have hself := hbuilt.self
        cases e <;> simp_all [Expr.isForInitPart, Expr.splitsHead]
      have hreads : ∀ x ∈ some e, x.Reads := fun x _ => x.reads
      have hread := forInit_layout hreads (by rintro _ ⟨⟩; exact hall)
        (by rintro _ ⟨⟩; exact hformed) (by rintro _ ⟨⟩; exact hsplits) k
      rw [optionalLayout, List.nil_append, readBackOptional, hback] at hread
      exact hread
  | declaration kind ds =>
      have hback : readBackDeclarators ds = some ds := by
        rw [readBackDeclarators_eq]
        refine (mapM_eq_some_self fun d hd =>
          readBack_inductive.ofDeclarator d (hall d hd)).mpr fun d hd => ?_
        have hinit := hsound d hd
        obtain ⟨id, init⟩ := d
        rw [Declarator.All] at hinit ⊢
        exact fun e he => (hinit e he).imp (fun _ hx => hx.2) fun _ hs => hs
      have hdecls : ∀ d ∈ ds, d.Reads := fun d _ => by
        obtain ⟨id, init⟩ := d
        exact Declarator.reads id init fun e _ => e.reads
      have hread := forInit_declaration hdecls hall hformed.2 hformed.1
      rw [hback] at hread
      simpa [ForInit.layout] using hread

/-- The head of a `for` up to the semicolon has the lexemes that are meant, whatever
comes after it. -/
theorem Parser.ForInit.lexemes_head (hbuilt : i.All (fun x => x.isForInitPart = true) Stmt.Sound)
    (hformed : i.Formed) (hall : i.All Expr.Formed Stmt.Formed) (k : ℕ) (tail : JSString) :
    lexemes (render (i.headLayout k) ++ tail) =
      (lexemes tail).map (meant (i.headLayout k) ++ ·) := by
  have hsound := ForInit.sound_of_built hbuilt
  have hapart : i.All (Apart False) fun _ => True := by
    cases i with
    | none => trivial
    | expression e => exact hsound.imp (fun _ hx => hx.1) fun _ _ => trivial
    | declaration kind ds =>
        intro d hd
        have hinit := hsound d hd
        obtain ⟨id, init⟩ := d
        rw [Declarator.All] at hinit ⊢
        exact fun e he => (hinit e he).imp (fun _ hx => hx.1) fun _ _ => trivial
  have hlaid : ∃ P : Prop, P ∧ Laid False 0 (i.layout k) P := by
    cases i with
    | none => exact ⟨True, trivial, fun a ha => ⟨by simp [ForInit.layout],
        ends_of_free (ha.free (Nat.zero_le 14))⟩⟩
    | expression e =>
        exact ⟨_, hapart, (fitting_inductive False).expr e (Expr.whole_of_apart hall hapart)
          hformed k 0 true⟩
    | declaration kind ds =>
        have hwhole : ∀ d ∈ ds, d.All Expr.Formed Stmt.Whole := by
          intro d hd
          have hinit := hapart d hd
          have hallInit := hall d hd
          obtain ⟨id, init⟩ := d
          rw [Declarator.All] at hinit hallInit ⊢
          exact fun e he => Expr.whole_of_apart (hallInit e he) (hinit e he)
        have hds := laid_declarators (fun d _ => (fitting_inductive False).ofDeclarator d) hwhole
          hformed.2 true
        refine ⟨∀ d ∈ ds, d.All (Apart False) fun _ => True, hapart, fun a ha => ?_⟩
        have hfree := ha.free (Nat.zero_le 14)
        simp [ForInit.layout, fits_of_free hfree, hds.after_free, hds.last]
  obtain ⟨P, hP, hlaid⟩ := hlaid
  refine lexemes_render_append (a := .space) ?_ (Piece.before_of_free ?_ tail)
  · simp [headLayout, hlaid.after_free, hlaid.closed, hP]
  · simp [headLayout]

end

/-! ### The head that is printed -/

def StmtUnparses (h : JSHeap) (v : Value) (k : ℕ) (text : JSString) : Prop :=
  ∃ m, ∀ fuel, m ≤ fuel →
    (unparse fuel).sourceElement v (indentation k) (h, false) = .ok (some text) (h, false)

/-- What `forStatement` reads before it tells the kinds of heads apart. -/
def headStart : Parse (ForInit × Option Bool) := do
  let pn1 ← forInit
  return (pn1, ← isForInOrOf pn1)

/-- A text begins with the head of a `for` whose first part is read up to the first
semicolon, without an `in` or an `of` after it, whatever comes then. -/
def BeginsForHead (i : ForInit) (text : JSString) : Prop :=
  ∃ (init rest : JSString) (ts : List Lexeme) (n : ℕ),
    text = js "for (" ++ init ++ js ";" ++ rest ∧
    (∀ tail, lexemes (js "for (" ++ init ++ js ";" ++ tail) =
      (lexemes tail).map fun ls => .keyword .for :: .punct .lp :: (ts ++ .punct .semi :: ls)) ∧
    ∀ tail, headStart (ts ++ .punct .semi :: tail) =
      some ((i, none), eols n ++ .punct .semi :: tail)

theorem Stmt.layout_forInit {s : Stmt} {i : ForInit} (hi : s.forInit? = some i) (k : ℕ) :
    ∃ rest, s.layout k = i.headLayout k ++ rest := by
  cases s with
  | forStmt init test update body =>
      rw [Stmt.layout]
      cases init with
      | none =>
          obtain rfl : ForInit.none = i := Option.some.inj hi
          exact ⟨_, by rw [optionalLayout]; simp [ForInit.headLayout, ForInit.layout]; rfl⟩
      | some e =>
          obtain rfl : ForInit.expression e = i := Option.some.inj hi
          exact ⟨_, by rw [optionalLayout]; simp [ForInit.headLayout, ForInit.layout]; rfl⟩
  | forDecl kind ds test update body =>
      obtain rfl : ForInit.declaration kind ds = i := Option.some.inj hi
      rw [Stmt.layout]
      exact ⟨_, by simp [ForInit.headLayout, ForInit.layout]; rfl⟩
  | _ => simp [forInit?] at hi

theorem Stmt.formed_forInit {s : Stmt} {i : ForInit} (hi : s.forInit? = some i)
    (hformed : s.All Expr.Formed Stmt.Formed) : i.Formed ∧ i.All Expr.Formed Stmt.Formed := by
  cases s with
  | forStmt init test update body =>
      rw [Stmt.All] at hformed
      cases init with
      | none =>
          obtain rfl : ForInit.none = i := Option.some.inj hi
          exact ⟨trivial, trivial⟩
      | some e =>
          obtain rfl : ForInit.expression e = i := Option.some.inj hi
          exact ⟨hformed.1.1 e rfl, hformed.2.1 e rfl⟩
  | forDecl kind ds test update body =>
      obtain rfl : ForInit.declaration kind ds = i := Option.some.inj hi
      rw [Stmt.All] at hformed
      exact ⟨⟨hformed.1.1, hformed.1.2.1⟩, hformed.2.1⟩
  | _ => simp [forInit?] at hi

/-- A loop whose first part is built from these nodes is printed with a head that is read
as one of three parts, the first of them its own: no `in` of it is taken for the one of
a loop over properties. -/
theorem forInit_survives {h : JSHeap} {v : Value} {s : Stmt} {i : ForInit}
    (hi : s.forInit? = some i) (hbuilt : i.All (fun e => e.isForInitPart = true) Stmt.Sound)
    (hformed : s.All Expr.Formed Stmt.Formed) (hv : s.Shows h v) (k : ℕ) :
    (s.All (fun _ => True) Stmt.Printable → ∃ text, StmtUnparses h v k text) ∧
    ∀ text, StmtUnparses h v k text → BeginsForHead i text := by
  have hprints := fun fuel => prints_inductive.stmt s hformed fuel h v k hv
  refine ⟨fun hprintable => ⟨_, sizeOf s, fun fuel hfuel => (hprints fuel).1
    ⟨hprintable, hfuel⟩⟩, ?_⟩
  rintro text ⟨m, hm⟩
  obtain ⟨hinit, hall⟩ := Stmt.formed_forInit hi hformed
  obtain ⟨rest, hrest⟩ := Stmt.layout_forInit hi k
  obtain ⟨n, hn⟩ := i.reads hbuilt hinit hall k
  have htext : text = render (i.headLayout k) ++ render rest := by
    rw [← render_append, ← hrest]
    exact Option.some_inj.mp ((hprints m).2 _ _ (hm m le_rfl)).1
  have hhead : render (i.headLayout k) = js "for (" ++ render (i.layout k) ++ js ";" := by
    simp only [ForInit.headLayout, render_append]
    rfl
  refine ⟨render (i.layout k), render rest, meant (i.layout k), n, by rw [htext, hhead],
    fun tail => ?_, fun tail => ?_⟩
  · rw [← hhead, ForInit.lexemes_head hbuilt hinit hall k tail]
    simp [ForInit.headLayout]
  · rw [headStart, Parser.bind_apply, hn (.punct .semi :: tail) rfl]
    cases i <;> simp [isForInOrOf, matchInOrOf, Parser.bind_apply, firstToken_eols]

/-- The statement `for (a = (b in c) ? d : e; ;) ;` and its node. -/
def inTest : Stmt :=
  .forStmt (some (.assign .assign (.identifier (js "a"))
    (.cond (.binary .in (.identifier (js "b")) (.identifier (js "c"))) (.identifier (js "d"))
      (.identifier (js "e"))))) none none .empty

def inTestNode : Ast :=
  node 0 "ForStatement" [("init", node 1 "AssignmentExpression" [
      ("operator", .leaf (string (js "="))), ("left", identifier 2 "a"),
      ("right", node 3 "ConditionalExpression" [
        ("test", node 4 "BinaryExpression" [("operator", .leaf (string (js "in"))),
          ("left", identifier 5 "b"), ("right", identifier 6 "c")]),
        ("consequent", identifier 7 "d"), ("alternate", identifier 8 "e")])]),
    ("test", .leaf null), ("update", .leaf null), ("body", node 9 "EmptyStatement" [])]

theorem forInit_survives_inTest :
    ∃ text, StmtUnparses (.ofTrees [inTestNode]) inTestNode.val 0 text ∧
      BeginsForHead (.expression (.assign .assign (.identifier (js "a"))
        (.cond (.binary .in (.identifier (js "b")) (.identifier (js "c"))) (.identifier (js "d"))
          (.identifier (js "e"))))) text := by
  have hnames : isName (js "a") = true ∧ isName (js "b") = true ∧ isName (js "c") = true ∧
      isName (js "d") = true ∧ isName (js "e") = true := by decide
  have hsurvives := forInit_survives (s := inTest) (h := .ofTrees [inTestNode])
    (v := inTestNode.val) rfl (by simp [ForInit.All, Expr.All, Expr.isForInitPart])
    (by simp [inTest, Stmt.All, Expr.All, Expr.Formed, Stmt.Formed, Expr.isElision, Stmt.isLet,
      isReference, hnames])
    ⟨rfl, ⟨_, rfl, rfl, rfl, ⟨_, rfl, rfl, rfl⟩, _, rfl, rfl, ⟨_, rfl, rfl, rfl, ⟨_, rfl, rfl, rfl⟩,
      _, rfl, rfl, rfl⟩, ⟨_, rfl, rfl, rfl⟩, _, rfl, rfl, rfl⟩, ⟨_, rfl, rfl⟩, ⟨_, rfl, rfl⟩, _,
      rfl, rfl⟩ 0
  obtain ⟨text, htext⟩ := hsurvives.1 (by simp [inTest, Stmt.All, Expr.All, Stmt.Printable])
  exact ⟨text, htext, hsurvives.2 text htext⟩

end MetaMonkey.Frontend
