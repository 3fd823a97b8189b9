import MetaMonkey.Frontend.LayoutsFit
import MetaMonkey.Frontend.PrintsStmt
import MetaMonkey.Frontend.Sound
import MetaMonkey.Staging.Tags

/-!
From trees to texts and back: the text of a tree is read as what `readBack` says, if
it has the lexemes that are meant, and it has them if the operand of each `yield`
is apart.
-/

namespace MetaMonkey.Frontend

open Js Layout Staging MetaMonkey.Frontend.Parser

theorem firstToken_of_eols (n : ℕ) : firstToken (eols n) = .eof := by
  rw [← List.append_nil (eols n), firstToken_eols]
  rfl

section

variable {e : Expr} {body : List Stmt} {text : JSString}

/-- A text with the lexemes of a tree is read as the tree, as far as it is read back. -/
theorem parseExpression_layout (hformed : e.All Expr.Formed Stmt.Formed)
    (he : e.isElision = false) {k c : ℕ} {n : Bool}
    (htext : lexemes text = some (meant (e.layout k c n))) :
    parseExpression text = e.readBack := by
  obtain ⟨m, hm⟩ := (e.reads.outside hformed he k c n).expr
  have hread := hm [] (by simp [Stops, rank, firstToken])
  rw [List.append_nil] at hread
  rw [parseExpression, htext]
  simp only [Option.bind_eq_bind, Option.bind_some, hread]
  cases e.readBack with
  | none => rfl
  | some e' => simp [firstToken_of_eols]

theorem parseProgram_layout (hformed : Program.Formed body)
    (htext : lexemes text = some (meant (programLayout body))) :
    parseProgram text = readBackStmts body := by
  have hread : StatementsRead .body (meant (programLayout body)) (readBackStmts body) := by
    rw [programLayout, meant_flatten, List.map_map, readBackStmts_eq]
    refine statements_read (fun s hs => ?_) fun s hs => Stmt.layout_starts (hformed s hs).2
    exact (s.reads (hformed s hs).2).1 0 .body (by simp [(hformed s hs).1])
  obtain ⟨m, hm⟩ := hread
  have hread := hm [] (by simp [firstToken])
  rw [List.append_nil] at hread
  rw [parseProgram, htext]
  simp only [Option.bind_eq_bind, Option.bind_some, hread]
  cases readBackStmts body with
  | none => rfl
  | some ss => simp [firstToken_of_eols]

end

/-! ### The lexemes of a text -/

theorem Expr.all_apart_true (e : Expr) : e.All (Apart True) fun _ => True :=
  (all_of_forall (fun _ _ => trivial) fun _ => trivial).expr e

theorem Stmt.all_apart_true (s : Stmt) : s.All (Apart True) fun _ => True :=
  (all_of_forall (fun _ _ => trivial) fun _ => trivial).stmt s

theorem Expr.lexemes_layout_iff {e : Expr} (hwhole : e.All Expr.Formed Stmt.Whole)
    (he : e.isElision = false) (k c : ℕ) (n : Bool) :
    lexemes (render (e.layout k c n)) = some (meant (e.layout k c n)) ↔
      e.All (Apart False) fun _ => True := by
  have hlaid := fun g => (fitting_inductive g).expr e hwhole he k c n
  have hfollow : Follow True .space (e.layout k c n) :=
    ((hlaid True).after_free rfl).mpr e.all_apart_true
  rw [lexemes_render_iff (by simp) hfollow, (hlaid False).after_free rfl]

theorem lexemes_program_iff {body : List Stmt}
    (hwhole : ∀ s ∈ body, s.All Expr.Formed Stmt.Whole) :
    lexemes (render (programLayout body)) = some (meant (programLayout body)) ↔
      ∀ s ∈ body, s.All (Apart False) fun _ => True := by
  have hlines := fun g => lines_stmts (fun s _ => (fitting_inductive g).stmt s) hwhole 0
  have hfollow : Follow True .space (programLayout body) :=
    ((hlines True).after rfl).mpr fun s _ => s.all_apart_true
  rw [lexemes_render_iff (by simp) hfollow]
  exact (hlines False).after rfl

/-! ### The trees that are read from their texts -/

theorem Stmt.Sound.whole {s : Stmt} (h : s.Sound) : s.whole = true := by
  cases s with
  | tryStmt block guarded handler finalizer => exact h
  | letStmt head body => exact absurd h Bool.false_ne_true
  | withStmt obj body => exact absurd h Bool.false_ne_true
  | forOf left right body => exact absurd h Bool.false_ne_true
  | forOfDecl kind d right body => exact absurd h Bool.false_ne_true
  | _ => rfl

theorem Expr.whole_of_sound {e : Expr} (hformed : e.All Expr.Formed Stmt.Formed)
    (h : e.All Expr.Sound Stmt.Sound) : e.All Expr.Formed Stmt.Whole :=
  (Expr.all_and.mpr ⟨hformed, h⟩).imp (fun _ he => he.1) fun _ hs =>
    ⟨hs.1, fun hwhole => absurd hs.2.whole (by simp [hwhole])⟩

theorem Stmt.whole_of_sound {s : Stmt} (hformed : s.All Expr.Formed Stmt.Formed)
    (h : s.All Expr.Sound Stmt.Sound) : s.All Expr.Formed Stmt.Whole :=
  (Stmt.all_and.mpr ⟨hformed, h⟩).imp (fun _ he => he.1) fun _ hs =>
    ⟨hs.1, fun hwhole => absurd hs.2.whole (by simp [hwhole])⟩

/-- The text of an expression has the lexemes that are meant, and is read as it. -/
theorem Expr.restored_iff {e : Expr} (hformed : e.All Expr.Formed Stmt.Formed)
    (he : e.isElision = false) (k c : ℕ) (n : Bool) :
    lexemes (render (e.layout k c n)) = some (meant (e.layout k c n)) ∧
        parseExpression (render (e.layout k c n)) = some e ↔
      e.All (fun x => Apart False x ∧ x.Sound) Stmt.Sound := by
  have hsound := readBack_inductive.expr e hformed
  have hall : e.All (fun x => Apart False x ∧ x.Sound) Stmt.Sound ↔
      (e.All (Apart False) fun _ => True) ∧ e.All Expr.Sound Stmt.Sound := by
    rw [← Expr.all_and]
    simp
  rw [hall]
  constructor
  · rintro ⟨hlexemes, hparse⟩
    rw [parseExpression_layout hformed he hlexemes, hsound] at hparse
    exact ⟨(Expr.lexemes_layout_iff (Expr.whole_of_sound hformed hparse) he k c n).mp hlexemes,
      hparse⟩
  · rintro ⟨hapart, hread⟩
    have hlexemes :=
      (Expr.lexemes_layout_iff (Expr.whole_of_sound hformed hread) he k c n).mpr hapart
    exact ⟨hlexemes, (parseExpression_layout hformed he hlexemes).trans (hsound.mpr hread)⟩

theorem readBackStmts_eq_self {body : List Stmt} (hformed : Program.Formed body) :
    readBackStmts body = some body ↔ ∀ s ∈ body, s.All Expr.Sound Stmt.Sound := by
  rw [readBackStmts_eq]
  exact mapM_eq_some_self fun s hs => readBack_inductive.stmt s (hformed s hs).2

/-- The text of a program has the lexemes that are meant, and is read as it. -/
theorem program_restored_iff {body : List Stmt} (hformed : Program.Formed body) :
    lexemes (render (programLayout body)) = some (meant (programLayout body)) ∧
        parseProgram (render (programLayout body)) = some body ↔
      ∀ s ∈ body, s.All (fun x => Apart False x ∧ x.Sound) Stmt.Sound := by
  have hsound := readBackStmts_eq_self hformed
  have hall : (∀ s ∈ body, s.All (fun x => Apart False x ∧ x.Sound) Stmt.Sound) ↔
      (∀ s ∈ body, s.All (Apart False) fun _ => True) ∧
        ∀ s ∈ body, s.All Expr.Sound Stmt.Sound := by
    rw [← forall₂_and]
    refine forall₂_congr fun s _ => ?_
    rw [← Stmt.all_and]
    simp
  have hwhole : (∀ s ∈ body, s.All Expr.Sound Stmt.Sound) →
      ∀ s ∈ body, s.All Expr.Formed Stmt.Whole := fun h s hs =>
    Stmt.whole_of_sound (hformed s hs).2 (h s hs)
  rw [hall]
  constructor
  · rintro ⟨hlexemes, hparse⟩
    rw [parseProgram_layout hformed hlexemes, hsound] at hparse
    exact ⟨(lexemes_program_iff (hwhole hparse)).mp hlexemes, hparse⟩
  · rintro ⟨hapart, hread⟩
    have hlexemes := (lexemes_program_iff (hwhole hread)).mpr hapart
    exact ⟨hlexemes, (parseProgram_layout hformed hlexemes).trans (hsound.mpr hread)⟩

/-! ### The printer -/

/-- With a stack that is deep enough the printer writes the text. -/
def ExprUnparses (h : JSHeap) (v : Value) (k c : ℕ) (n : Bool) (text : JSString) : Prop :=
  ∃ m, ∀ fuel, m ≤ fuel →
    (unparse fuel).expr v (indentation k) c n (h, false) = .ok (some text) (h, false)

def Unparses (h : JSHeap) (v : Value) (text : JSString) : Prop :=
  ∃ m, ∀ fuel, m ≤ fuel → unParseStart fuel v (h, false) = .ok text (h, false)

section

variable {h : JSHeap} {v : Value} {e : Expr} {body : List Stmt} {text : JSString} {k c : ℕ}
  {n : Bool}

theorem exprUnparses_layout (hformed : e.All Expr.Formed Stmt.Formed) (he : e.isElision = false)
    (hv : e.Shows h v) (hprintable : e.All (fun _ => True) Stmt.Printable) :
    ExprUnparses h v k c n (render (e.layout k c n)) :=
  ⟨sizeOf e, fun fuel hfuel =>
    (prints_inductive.expr e hformed he fuel h v k c n hv).1 ⟨hprintable, hfuel⟩⟩

theorem ExprUnparses.eq_layout (hformed : e.All Expr.Formed Stmt.Formed)
    (he : e.isElision = false) (hv : e.Shows h v) (ht : ExprUnparses h v k c n text) :
    text = render (e.layout k c n) := by
  obtain ⟨m, hm⟩ := ht
  have hprints := prints_inductive.expr e hformed he m h v k c n hv
  exact Option.some_inj.mp (hprints.2 _ _ (hm m le_rfl)).1

theorem unparses_layout (hformed : Program.Formed body) (hv : ShowsProgram h body v)
    (hprintable : ∀ s ∈ body, s.All (fun _ => True) Stmt.Printable) :
    Unparses h v (render (programLayout body)) := by
  refine ⟨sizeOf body, fun fuel hfuel => (yields_unParseStart hv hformed).1 fun s hs => ?_⟩
  exact ⟨hprintable s hs, (List.sizeOf_lt_of_mem hs).le.trans hfuel⟩

theorem Unparses.eq_layout (hformed : Program.Formed body) (hv : ShowsProgram h body v)
    (ht : Unparses h v text) : text = render (programLayout body) := by
  obtain ⟨m, hm⟩ := ht
  exact ((yields_unParseStart hv hformed).2 _ _ (hm m le_rfl)).1

end

theorem Stmt.Sound.printable {s : Stmt} (h : s.Sound) : s.Printable := by
  cases s with
  | forOf left right body => exact absurd h Bool.false_ne_true
  | forOfDecl kind d right body => exact absurd h Bool.false_ne_true
  | _ => trivial

/-! ### Expressions -/

/-- The nodes of operators, calls and members. -/
def Expr.isOperator : Expr → Bool
  | identifier _ | unary _ _ | update _ _ _ | binary _ _ _ | assign _ _ _ | call _ _
  | newExpr _ _ | member _ _ | index _ _ => true
  | _ => false

theorem Expr.sound_of_isOperator {e : Expr} (h : e.isOperator = true) :
    Apart False e ∧ e.Sound := by
  cases e <;> simp_all [isOperator, Apart, Expr.apart, Expr.Sound, Expr.sound]

/-- Trees of operators are printed in every context so that no operator runs into an
operand, and read as they are. -/
theorem operators_survive {h : JSHeap} {v : Value} {e : Expr}
    (hbuilt : e.All (fun x => x.isOperator = true) fun _ => False)
    (hformed : e.All Expr.Formed Stmt.Formed) (hv : e.Shows h v) (k c : ℕ) :
    ∃ text, ExprUnparses h v k c false text ∧
      lexemes text = some (meant (e.layout k c false)) ∧ parseExpression text = some e := by
  have he : e.isElision = false := by
    cases e with
    | elision => exact absurd hbuilt.self Bool.false_ne_true
    | _ => rfl
  have hsound : e.All (fun x => Apart False x ∧ x.Sound) Stmt.Sound :=
    hbuilt.imp (fun _ => Expr.sound_of_isOperator) fun _ => False.elim
  have hprintable : e.All (fun _ => True) Stmt.Printable :=
    hbuilt.imp (fun _ _ => trivial) fun _ => False.elim
  exact ⟨_, exprUnparses_layout hformed he hv hprintable,
    (Expr.restored_iff hformed he k c false).mpr hsound⟩

/-- The tree of `new (f()) - -x`, and its node. -/
def newOfCall : Expr :=
  .binary .sub (.newExpr (.call (.identifier (js "f")) []) []) (.unary .neg (.identifier (js "x")))

def newOfCallNode : Ast :=
  node 0 "BinaryExpression" [("operator", .leaf (string (js "-"))),
    ("left", node 1 "NewExpression" [
      ("callee", node 2 "CallExpression" [("callee", identifier 3 "f"),
        ("arguments", .array 4 [])]),
      ("arguments", .array 5 [])]),
    ("right", node 6 "UnaryExpression" [("operator", .leaf (string (js "-"))),
      ("prefix", .leaf (boolean true)), ("argument", identifier 7 "x")])]

theorem operators_survive_newOfCall :
    ∃ text, ExprUnparses (.ofTrees [newOfCallNode]) newOfCallNode.val 0 14 false text ∧
      lexemes text = some (meant (newOfCall.layout 0 14 false)) ∧
      parseExpression text = some newOfCall := by
  refine operators_survive ?_ ?_ ?_ 0 14
  · simp [newOfCall, Expr.All, Expr.isOperator]
  · have hnames : isName (js "f") = true ∧ isName (js "x") = true := by decide
    simp [newOfCall, Expr.All, Expr.Formed, Expr.isElision, hnames]
  · exact ⟨rfl, rfl, ⟨_, rfl, rfl, ⟨_, rfl, rfl, ⟨_, rfl, rfl, rfl⟩, _, rfl, _, rfl, rfl⟩, _, rfl,
      _, rfl, rfl⟩, _, rfl, rfl, rfl, rfl, _, rfl, rfl, rfl⟩

/-- An expression is printed so that its text is read as it exactly when no consequent of
a conditional is a sequence, no operand of a `yield` begins with a word, there is no
`let` expression, and its functions have none of the statements that are lost. -/
theorem expression_survives_iff {h : JSHeap} {v : Value} {e : Expr}
    (hformed : e.All Expr.Formed Stmt.Formed) (he : e.isElision = false) (hv : e.Shows h v)
    (k c : ℕ) (n : Bool) :
    (∃ text, ExprUnparses h v k c n text ∧ lexemes text = some (meant (e.layout k c n)) ∧
        parseExpression text = some e) ↔
      e.All (fun x => Apart False x ∧ x.Sound) Stmt.Sound := by
  rw [← Expr.restored_iff hformed he k c n]
  constructor
  · rintro ⟨text, htext, hread⟩
    rwa [htext.eq_layout hformed he hv] at hread
  · intro hread
    have hsound := (Expr.restored_iff hformed he k c n).mp hread
    have hprintable : e.All (fun _ => True) Stmt.Printable :=
      hsound.imp (fun _ _ => trivial) fun _ => Stmt.Sound.printable
    exact ⟨_, exprUnparses_layout hformed he hv hprintable, hread⟩

/-- The node of `yield []`. -/
def yieldArrayNode : Ast :=
  node 0 "YieldExpression" [("argument", node 1 "ArrayExpression" [("elements", .array 2 [])])]

theorem expression_survives_yieldArray :
    ∃ text, ExprUnparses (.ofTrees [yieldArrayNode]) yieldArrayNode.val 0 0 false text ∧
      lexemes text = some (meant ((Expr.yieldExpr (some (.array []))).layout 0 0 false)) ∧
      parseExpression text = some (.yieldExpr (some (.array []))) := by
  refine (expression_survives_iff ?_ rfl ?_ 0 0 false).mpr ?_
  · simp [Expr.All, Expr.Formed, Expr.isElision]
  · exact ⟨rfl, _, rfl, rfl, _, rfl, _, rfl, rfl⟩
  · simp [Expr.All, Apart, Expr.apart, Expr.startsWord, Expr.Sound, Expr.sound]

/-- The tree of `a ? (b, c) : d`, and its node. -/
def commaConsequent : Expr :=
  .cond (.identifier (js "a")) (.sequence [.identifier (js "b"), .identifier (js "c")])
    (.identifier (js "d"))

def commaConsequentNode : Ast :=
  node 0 "ConditionalExpression" [("test", identifier 1 "a"),
    ("consequent", node 2 "SequenceExpression"
      [("expressions", .array 3 [identifier 4 "b", identifier 5 "c"])]),
    ("alternate", identifier 6 "d")]

/-- The node of `yield x`. -/
def yieldNameNode : Ast := node 0 "YieldExpression" [("argument", identifier 1 "x")]

/-- The comma of a consequent ends it, and the operand of a `yield` makes one word with it. -/
theorem expression_lost :
    (∃ text, ExprUnparses (.ofTrees [commaConsequentNode]) commaConsequentNode.val 0 0 false text ∧
      text = js "a?b,c:d" ∧ parseExpression text = none) ∧
    ∃ text, ExprUnparses (.ofTrees [yieldNameNode]) yieldNameNode.val 0 0 false text ∧
      text = js "yieldx" ∧ parseExpression text = some (.identifier (js "yieldx")) := by
  have hnames : isName (js "a") = true ∧ isName (js "b") = true ∧ isName (js "c") = true ∧
      isName (js "d") = true ∧ isName (js "x") = true ∧ isName (js "yieldx") = true := by decide
  obtain ⟨ha, hb, hc, hd, hx, hyield⟩ := hnames
  constructor
  · have hformed : commaConsequent.All Expr.Formed Stmt.Formed := by
      simp [commaConsequent, Expr.All, Expr.Formed, Expr.isElision, ha, hb, hc, hd]
    have hshows : commaConsequent.Shows (.ofTrees [commaConsequentNode])
        commaConsequentNode.val :=
      ⟨rfl, ⟨_, rfl, rfl, rfl⟩, ⟨_, rfl, rfl, _, rfl, _, rfl, _, _, rfl, ⟨rfl, rfl⟩, _, _, rfl,
        ⟨rfl, rfl⟩, rfl⟩, _, rfl, rfl, rfl⟩
    have hwhole : commaConsequent.All Expr.Formed Stmt.Whole :=
      Expr.whole_of_apart hformed (by simp [commaConsequent, Expr.All, Apart, Expr.apart])
    have hlexemes := (Expr.lexemes_layout_iff hwhole rfl 0 0 false).mpr
      (by simp [commaConsequent, Expr.All, Apart, Expr.apart])
    refine ⟨_, exprUnparses_layout hformed rfl hshows ?_, ?_, ?_⟩
    · simp [commaConsequent, Expr.All]
    · simp [commaConsequent, Expr.layout, separate, wrapIf]
      decide
    · exact (parseExpression_layout hformed rfl hlexemes).trans rfl
  · have hformed : (Expr.yieldExpr (some (.identifier (js "x")))).All Expr.Formed Stmt.Formed := by
      simp [Expr.All, Expr.Formed, Expr.isElision, hx]
    have hshows : (Expr.yieldExpr (some (.identifier (js "x")))).Shows (.ofTrees [yieldNameNode])
        yieldNameNode.val := ⟨rfl, _, rfl, rfl, rfl⟩
    have hread : (Expr.identifier (js "yieldx")).All Expr.Formed Stmt.Whole := by
      simp [Expr.All, Expr.Formed, hyield]
    have hlexemes := (Expr.lexemes_layout_iff hread rfl 0 0 false).mpr
      (by simp [Expr.All, Apart, Expr.apart])
    have htext : render ((Expr.yieldExpr (some (.identifier (js "x")))).layout 0 0 false) =
        render ((Expr.identifier (js "yieldx")).layout 0 0 false) := by
      simp [Expr.layout, optionalLayout, wrapIf]
      decide
    refine ⟨_, exprUnparses_layout hformed rfl hshows ?_, ?_, ?_⟩
    · simp [Expr.All]
    · rw [htext]
      simp [Expr.layout]
    · rw [htext]
      have hformed : (Expr.identifier (js "yieldx")).All Expr.Formed Stmt.Formed := by
        simp [Expr.All, Expr.Formed, hyield]
      exact (parseExpression_layout hformed rfl hlexemes).trans rfl

/-! ### Statements -/

def Expr.isIdentifier : Expr → Bool
  | identifier _ => true
  | _ => false

theorem Expr.sound_of_isIdentifier {e : Expr} (h : e.isIdentifier = true) :
    Apart False e ∧ e.Sound := by
  cases e <;> simp_all [isIdentifier, Apart, Expr.apart, Expr.Sound, Expr.sound]

/-- A program whose expressions are identifiers is printed, and read from its text, exactly
when it has no `let` statement, no `with`, no loop over values and no handler with a
guard, and no `else` follows an `if` that has none. -/
theorem statements_survive_iff {h : JSHeap} {v : Value} {body : List Stmt}
    (hids : ∀ s ∈ body, s.All (fun e => e.isIdentifier = true) fun _ => True)
    (hformed : Program.Formed body) (hv : ShowsProgram h body v) :
    (∃ text, Unparses h v text ∧ parseProgram text = some body) ↔
      ∀ s ∈ body, s.All (fun _ => True) Stmt.Sound := by
  have hapart : ∀ s ∈ body, s.All (Apart False) fun _ => True := fun s hs =>
    (hids s hs).imp (fun _ he => (Expr.sound_of_isIdentifier he).1) fun _ _ => trivial
  have hlexemes := (lexemes_program_iff fun s hs =>
    Stmt.whole_of_apart (hformed s hs).2 (hapart s hs)).mpr hapart
  have hsound : (∀ s ∈ body, s.All (fun _ => True) Stmt.Sound) ↔
      ∀ s ∈ body, s.All Expr.Sound Stmt.Sound := by
    constructor
    · intro hall s hs
      exact (Stmt.all_and.mpr ⟨hids s hs, hall s hs⟩).imp
        (fun _ he => (Expr.sound_of_isIdentifier he.1).2) fun _ ht => ht.2
    · intro hall s hs
      exact (hall s hs).imp (fun _ _ => trivial) fun _ ht => ht
  rw [hsound, ← readBackStmts_eq_self hformed, ← parseProgram_layout hformed hlexemes]
  constructor
  · rintro ⟨text, htext, hparse⟩
    rwa [htext.eq_layout hformed hv] at hparse
  · intro hparse
    refine ⟨_, unparses_layout hformed hv fun s hs => ?_, hparse⟩
    rw [parseProgram_layout hformed hlexemes, readBackStmts_eq_self hformed] at hparse
    exact (hparse s hs).imp (fun _ _ => trivial) fun _ => Stmt.Sound.printable

/-- The program `while (x) break;` and its node. -/
def whileBreak : List Stmt := [.whileStmt (.identifier (js "x")) (.breakStmt none)]

def whileBreakNode : Ast :=
  program 0 1 [node 2 "WhileStatement" [("test", identifier 3 "x"),
    ("body", node 4 "BreakStatement" [("label", .leaf null)])]]

theorem formed_whileBreak : Program.Formed whileBreak := by
  have hx : isName (js "x") = true := by decide
  simp [whileBreak, Program.Formed, Stmt.All, Expr.All, Expr.Formed, Stmt.Formed,
    Expr.isElision, Stmt.isLet, hx]

theorem statements_survive_whileBreak :
    ∃ text, Unparses (.ofTrees [whileBreakNode]) whileBreakNode.val text ∧
      parseProgram text = some whileBreak := by
  refine (statements_survive_iff ?_ formed_whileBreak ?_).mpr ?_
  · simp [whileBreak, Stmt.All, Expr.All, Expr.isIdentifier]
  · exact ⟨rfl, _, rfl, _, rfl, _, _, rfl, ⟨rfl, ⟨_, rfl, rfl, rfl⟩, _, rfl, rfl, _, rfl, rfl⟩, rfl⟩
  · simp [whileBreak, Stmt.All, Expr.All, Stmt.Sound, Stmt.sound]

/-- The program `with (x) ;` and its node. -/
def withEmpty : List Stmt := [.withStmt (.identifier (js "x")) .empty]

def withEmptyNode : Ast :=
  program 0 1 [node 2 "WithStatement" [("object", identifier 3 "x"),
    ("body", node 4 "EmptyStatement" [])]]

/-- The object of a `with` is left out of the text. -/
theorem with_lost :
    ∃ text, Unparses (.ofTrees [withEmptyNode]) withEmptyNode.val text ∧
      text = js "with ()\n    ;\n" ∧ parseProgram text = none := by
  have hx : isName (js "x") = true := by decide
  have hformed : Program.Formed withEmpty := by
    simp [withEmpty, Program.Formed, Stmt.All, Expr.All, Expr.Formed, Stmt.Formed,
      Expr.isElision, Stmt.isLet, hx]
  have hshows : ShowsProgram (.ofTrees [withEmptyNode]) withEmpty withEmptyNode.val :=
    ⟨rfl, _, rfl, _, rfl, _, _, rfl, ⟨rfl, ⟨_, rfl, rfl, rfl⟩, _, rfl, rfl⟩, rfl⟩
  have hapart : ∀ s ∈ withEmpty, s.All (Apart False) fun _ => True := by
    simp [withEmpty, Stmt.All, Expr.All, Apart, Expr.apart]
  have hlexemes := (lexemes_program_iff fun s hs =>
    Stmt.whole_of_apart (hformed s hs).2 (hapart s hs)).mpr hapart
  refine ⟨_, unparses_layout hformed hshows ?_, ?_, ?_⟩
  · simp [withEmpty, Stmt.All, Expr.All, Stmt.Printable]
  · simp [withEmpty, programLayout, Stmt.layout, substmt_eq]
    decide
  · exact (parseProgram_layout hformed hlexemes).trans rfl

/-- Every `else` is read with the `if` whose alternate it is, and everything else as it is,
exactly when no consequent of an `if` with an alternate ends in an `if` without one,
and the tree has nothing else that its text loses. -/
theorem elses_survive_iff {h : JSHeap} {v : Value} {body : List Stmt}
    (hformed : Program.Formed body) (hv : ShowsProgram h body v) :
    (∃ text, Unparses h v text ∧ lexemes text = some (meant (programLayout body)) ∧
        parseProgram text = some body) ↔
      ∀ s ∈ body, s.All (fun e => Apart False e ∧ e.Sound) Stmt.Sound := by
  rw [← program_restored_iff hformed]
  constructor
  · rintro ⟨text, htext, hread⟩
    rwa [htext.eq_layout hformed hv] at hread
  · intro hread
    have hsound := (program_restored_iff hformed).mp hread
    refine ⟨_, unparses_layout hformed hv fun s hs => ?_, hread⟩
    exact (hsound s hs).imp (fun _ _ => trivial) fun _ => Stmt.Sound.printable

/-- The program `if (x) while (y) ; else ;` and its node. -/
def elseOfWhile : List Stmt :=
  [.ifStmt (.identifier (js "x")) (.whileStmt (.identifier (js "y")) .empty) (some .empty)]

def elseOfWhileNode : Ast :=
  program 0 1 [node 2 "IfStatement" [("test", identifier 3 "x"),
    ("consequent", node 4 "WhileStatement" [("test", identifier 5 "y"),
      ("body", node 6 "EmptyStatement" [])]),
    ("alternate", node 7 "EmptyStatement" [])]]

theorem elses_survive_elseOfWhile :
    ∃ text, Unparses (.ofTrees [elseOfWhileNode]) elseOfWhileNode.val text ∧
      lexemes text = some (meant (programLayout elseOfWhile)) ∧
      parseProgram text = some elseOfWhile := by
  have hnames : isName (js "x") = true ∧ isName (js "y") = true := by decide
  refine (elses_survive_iff ?_ ?_).mpr ?_
  · simp [elseOfWhile, Program.Formed, Stmt.All, Expr.All, Expr.Formed, Stmt.Formed,
      Expr.isElision, Stmt.isLet, hnames]
  · exact ⟨rfl, _, rfl, _, rfl, _, _, rfl, ⟨rfl, ⟨_, rfl, rfl, rfl⟩,
      ⟨_, rfl, rfl, ⟨_, rfl, rfl, rfl⟩, _, rfl, rfl⟩, _, rfl, rfl⟩, rfl⟩
  · simp [elseOfWhile, Stmt.All, Expr.All, Stmt.Sound, Stmt.sound, Stmt.openIf, Apart,
      Expr.apart, Expr.Sound, Expr.sound]

/-- The program in which `if (y) ;` was merged into the consequent of `if (x) … else ;`,
and its node. -/
def mergedConsequent : List Stmt :=
  [.ifStmt (.identifier (js "x")) (.ifStmt (.identifier (js "y")) .empty none) (some .empty)]

def mergedConsequentNode : Ast :=
  program 0 1 [node 2 "IfStatement" [("test", identifier 3 "x"),
    ("consequent", node 4 "IfStatement" [("test", identifier 5 "y"),
      ("consequent", node 6 "EmptyStatement" []), ("alternate", .leaf null)]),
    ("alternate", node 7 "EmptyStatement" [])]]

/-- The `else` is read with the inner `if`. -/
theorem else_moved :
    ∃ text, Unparses (.ofTrees [mergedConsequentNode]) mergedConsequentNode.val text ∧
      parseProgram text = some [.ifStmt (.identifier (js "x"))
        (.ifStmt (.identifier (js "y")) .empty (some .empty)) none] := by
  have hnames : isName (js "x") = true ∧ isName (js "y") = true := by decide
  have hformed : Program.Formed mergedConsequent := by
    simp [mergedConsequent, Program.Formed, Stmt.All, Expr.All, Expr.Formed, Stmt.Formed,
      Expr.isElision, Stmt.isLet, hnames]
  have hshows : ShowsProgram (.ofTrees [mergedConsequentNode]) mergedConsequent
      mergedConsequentNode.val :=
    ⟨rfl, _, rfl, _, rfl, _, _, rfl, ⟨rfl, ⟨_, rfl, rfl, rfl⟩,
      ⟨_, rfl, rfl, ⟨_, rfl, rfl, rfl⟩, ⟨_, rfl, rfl⟩, rfl⟩, _, rfl, rfl⟩, rfl⟩
  have hapart : ∀ s ∈ mergedConsequent, s.All (Apart False) fun _ => True := by
    simp [mergedConsequent, Stmt.All, Expr.All, Apart, Expr.apart]
  have hlexemes := (lexemes_program_iff fun s hs =>
    Stmt.whole_of_apart (hformed s hs).2 (hapart s hs)).mpr hapart
  refine ⟨_, unparses_layout hformed hshows ?_, ?_⟩
  · simp [mergedConsequent, Stmt.All, Expr.All, Stmt.Printable]
  · rw [parseProgram_layout hformed hlexemes]
    rfl

end MetaMonkey.Frontend
