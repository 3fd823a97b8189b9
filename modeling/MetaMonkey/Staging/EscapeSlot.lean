import MetaMonkey.Staging.WellFormed
import MetaMonkey.Staging.ArrayPartition

/-!
An escape in a property. `meta_escape` gives one node for it when the value has one statement,
an array when it has none or several, and the expression of a statement also when there is
none. The quasi then has in the property whatever came.
-/

namespace MetaMonkey.Staging

open ObjectGraph Js Unparse

/-- The property of the quasi's value is given what the call of `meta_escape` returns. -/
def storeEscape (h : JSHeap) (obj : Value) (propKey : String) (escapeStmt : Value)
    (fromStmt : Bool) : Except Fault JSHeap := do
  match ← metaEscapeNode h escapeStmt fromStmt with
  | .inl node => setProperty h obj propKey node
  | .inr nodes => setProperty (h.alloc (.array nodes)) obj propKey (.ref h.next)

/-- A property of the quasi, not an array, with an escape in it. -/
structure EscapeSlot (h : JSHeap) (quasi obj : Value) (p : String × Place)
    (fromStmt : Bool) : Prop where
  reached : Reached h quasi obj
  place : p ∈ placesOf h obj
  single : p.2.isArray = false
  escape : ∃ node, getProperty h obj p.1 = .ok node ∧ IsEscape h node fromStmt

/-- A Program as the parser builds it: of the statements, only an expression statement has a
node in a property `expression`. -/
structure ProgramValue (h : JSHeap) (ast : Value) : Prop where
  wellFormed : WellFormed h ast
  expression : ∀ stmt ∈ statementsOf h ast, isExprStatement h stmt = false →
    nodeType h (valueToObject (rawExpression h stmt)) = none

/-- The escape fails, or it puts one node in the property, of a kind that belongs there, and
the value of the quasi is a well-formed AST. -/
def EscapesToNode (h : JSHeap) (quasi obj : Value) (p : String × Place) (ast : Value)
    (fromStmt : Bool) : Prop :=
  match storeEscape h obj p.1 ast fromStmt with
  | .ok h' => (∃ node, metaEscapeNode h ast fromStmt = .ok (.inl node) ∧ node ≠ null ∧
      fills h p.2 node = true) ∧ WellFormed h' quasi
  | .error e => e = .jsFalse

/-- The value has a single statement, and for the property of an expression that is an
expression statement. -/
def SingleNode (h : JSHeap) (ast : Value) (fromStmt : Bool) : Prop :=
  ∃ stmt, statementsOf h ast = [stmt] ∧ (fromStmt = true ∨ isExprStatement h stmt = true)

/-- The heaps that the evaluation of a quasi goes through while every escape has a single node
for its property. -/
inductive Filled (quasi : Value) (h : JSHeap) : JSHeap → Prop
  | refl : Filled quasi h h
  | escape {h₁ h₂ : JSHeap} {obj ast : Value} {p : String × Place} {fromStmt : Bool}
      (hfilled : Filled quasi h h₁) (hslot : EscapeSlot h₁ quasi obj p fromStmt)
      (hast : ProgramValue h₁ ast) (hsingle : SingleNode h₁ ast fromStmt)
      (hstore : storeEscape h₁ obj p.1 ast fromStmt = .ok h₂) : Filled quasi h h₂

section

variable {h : JSHeap} {quasi obj node ast : Value} {p : String × Place} {fromStmt : Bool}

theorem IsEscape.standsAs (hescape : IsEscape h node fromStmt) {typeStr : JSString}
    (hnode : nodeType h node = some typeStr) : StandsAs h node (!fromStmt) := by
  obtain ⟨escapeNode, b, hrun⟩ := hescape
  rw [objectContainEscape] at hrun
  obtain ⟨t, s, htype, hrun⟩ := bind_eq_ok.mp hrun
  obtain ⟨htype, -⟩ := reads_eq_ok.mp htype
  cases hstmt : equals t "ExpressionStatement" with
  | true =>
      rw [hstmt, if_pos rfl] at hrun
      obtain ⟨expr, s₁, -, hrun⟩ := bind_eq_ok.mp hrun
      obtain ⟨t₁, s₂, -, hrun⟩ := bind_eq_ok.mp hrun
      obtain ⟨found, s₃, -, hrun⟩ := bind_eq_ok.mp hrun
      cases hrun
      exact nodeType_of_equals hnode htype hstmt
  | false =>
      rw [hstmt, if_neg Bool.false_ne_true] at hrun
      obtain ⟨found, s₁, hfound, hrun⟩ := bind_eq_ok.mp hrun
      cases hrun
      rw [objectContainEscapeExpr] at hfound
      cases hunary : equals t "UnaryExpression" with
      | true => exact Or.inl (nodeType_of_equals hnode htype hunary)
      | false =>
          rw [hunary, if_neg Bool.false_ne_true] at hfound
          cases hfound

theorem ProgramValue.ne_null (hast : ProgramValue h ast) : ast ≠ null := by
  rintro rfl
  cases hast.wellFormed.program

theorem ProgramValue.getStmts (hast : ProgramValue h ast) :
    AstObjMng.getStmtsFromAstObj h fromStmt ast [] = .ok (inserted h (!fromStmt) ast) := by
  have hstmts := getStmtsFromAstObj_eq ⟨hast.wellFormed, fun _ => hast.wellFormed⟩ hast.ne_null
    (!fromStmt)
  rwa [Bool.not_not] at hstmts

theorem metaEscapeNode_single (hast : ProgramValue h ast) {w : Value}
    (hw : inserted h (!fromStmt) ast = [w]) : metaEscapeNode h ast fromStmt = .ok (.inl w) := by
  rw [metaEscapeNode, hast.getStmts, ok_bind, hw]
  rfl

theorem metaEscapeNode_array (hast : ProgramValue h ast)
    (hnodes : ∀ w, inserted h (!fromStmt) ast ≠ [w]) :
    metaEscapeNode h ast fromStmt = .ok (.inr (inserted h (!fromStmt) ast)) := by
  rw [metaEscapeNode, hast.getStmts, ok_bind]
  split
  · next w hw => exact absurd hw (hnodes w)
  · rfl

/-- An expression is inserted for an expression statement, null or nothing like a node for
any other. -/
theorem ProgramValue.expression_of_fills (hast : ProgramValue h ast) {stmt : Value}
    (hstmt : stmt ∈ statementsOf h ast) {place : Place}
    (hfills : fills h place (valueToObject (rawExpression h stmt)) = true)
    (hne : valueToObject (rawExpression h stmt) ≠ null) : isExprStatement h stmt = true := by
  by_contra hother
  have htype := hast.expression stmt hstmt (Bool.eq_false_of_not_eq_true hother)
  rw [fills, htype, Bool.or_eq_true, Bool.and_eq_true, decide_eq_true_eq] at hfills
  obtain ⟨-, hnull⟩ | hnode := hfills
  · exact hne hnull
  · cases hnode

/-- One escape: the property gets a node, and the quasi's value stays an AST, exactly if the
value of the escape is a single node for the property. -/
theorem escapesToNode_iff (hquasi : WellFormed h quasi) (hast : ProgramValue h ast)
    (hslot : EscapeSlot h quasi obj p fromStmt) :
    EscapesToNode h quasi obj p ast fromStmt ↔ SingleNode h ast fromStmt := by
  have hwf : WellFormedPair h quasi ast := ⟨hquasi, fun _ => hast.wellFormed⟩
  have hne := hast.ne_null
  obtain ⟨node, hget, hescape⟩ := hslot.escape
  obtain ⟨hstands, hnode⟩ : StandsAs h node (!fromStmt) ∧ IsNode h node := by
    obtain ⟨values, hheld, hvalues⟩ := hquasi.held hslot.reached hslot.place
    rw [held, hget] at hheld
    obtain rfl : [node] = values := by
      simpa [Except.toOption, hslot.single] using hheld
    obtain rfl | ⟨typeStr, htype⟩ := hquasi.typed (hvalues node (List.mem_singleton_self _)).2
    · obtain ⟨escapeNode, b, hrun⟩ := hescape
      cases hrun
    · exact ⟨hescape.standsAs htype, (nodeType_eq_some htype).1⟩
  have hobj := isNode_of_place hslot.place
  have hplaces := fun q hq hkey =>
    hquasi.place_of_standsAs (p := q) hslot.reached hget hstands hnode hq hkey
  have hlength : (inserted h (!fromStmt) ast).length = (statementsOf h ast).length :=
    length_inserted hne
  by_cases hone : ∃ w, inserted h (!fromStmt) ast = [w]
  · obtain ⟨w, hw⟩ := hone
    obtain ⟨h', hset⟩ := hobj.setProperty p.1 w
    obtain ⟨stmt, hstmts⟩ := List.length_eq_one_iff.mp (hlength.symm.trans (congrArg _ hw))
    have hstore : storeEscape h obj p.1 ast fromStmt = .ok h' := by
      rw [storeEscape, metaEscapeNode_single hast hw, ok_bind]
      exact hset
    rw [EscapesToNode, hstore, metaEscapeNode_single hast hw]
    dsimp only
    constructor
    · rintro ⟨⟨w', hw', hnull, hfills⟩, -⟩
      cases hw'
      refine ⟨stmt, hstmts, ?_⟩
      cases fromStmt with
      | true => exact Or.inl rfl
      | false =>
          refine Or.inr ?_
          rw [inserted, if_neg hne, contribution, hstmts] at hw
          obtain rfl : valueToObject (rawExpression h stmt) = w := List.singleton_inj.mp hw
          exact hast.expression_of_fills (by rw [hstmts]; exact List.mem_singleton_self _)
            hfills hnull
    · rintro ⟨stmt', hstmts', hexpr⟩
      have hexprs : (!fromStmt) = true → ast ≠ null →
          (statementsOf h ast).all (isExprStatement h) = true := by
        intro hflag _
        obtain hstmt | hexpr := hexpr
        · rw [hstmt] at hflag
          cases hflag
        · rw [hstmts', List.all_cons, hexpr, List.all_nil]
          rfl
      refine ⟨⟨w, rfl, ?_, ?_⟩, hwf.setProperty (fun _ => False) hobj hset
        (key_ne_type hslot.place) (fun _ hv => hv.elim) fun q hq hkey => ?_⟩
      · rintro rfl
        have hsub : (if !fromStmt then exprTypes else stmtTypes) ⊆
            (Place.one p.2.kind).kind.types := (hplaces p hslot.place rfl).2
        exact absurd (hwf.inserted hsub hexprs null (hw ▸ List.mem_singleton_self null)).1
          Bool.false_ne_true
      · exact (hwf.inserted (hplaces p hslot.place rfl).2 hexprs w
          (hw ▸ List.mem_singleton_self w)).1
      · obtain ⟨harray, hsub⟩ := hplaces q hq hkey
        obtain ⟨hfills, hknown⟩ := hwf.inserted hsub hexprs w (hw ▸ List.mem_singleton_self w)
        exact ⟨harray, hfills, Or.inl hknown⟩
  · -- no node, or several of them: an array
    have hmeta := metaEscapeNode_array hast fun w hw => hone ⟨w, hw⟩
    refine iff_of_false (fun hkeeps => ?_) ?_
    · obtain ⟨h', hset⟩ : ∃ h', setProperty (h.alloc (.array (inserted h (!fromStmt) ast))) obj
          p.1 (.ref h.next) = .ok h' := by
        refine IsNode.setProperty ?_ _ _
        obtain ⟨a, cls, fields, distinct, rfl, hcell⟩ := hobj
        exact ⟨a, cls, fields, distinct, rfl, Heap.alloc_cell_of_some _ hcell⟩
      have hstore : storeEscape h obj p.1 ast fromStmt = .ok h' := by
        rw [storeEscape, hmeta, ok_bind]
        exact hset
      rw [EscapesToNode, hstore] at hkeeps
      obtain ⟨⟨w, hw, -⟩, -⟩ := hkeeps
      rw [hmeta] at hw
      cases hw
    · rintro ⟨stmt, hstmts, -⟩
      refine hone (List.length_eq_one_iff.mp ?_)
      rw [hlength, hstmts]
      rfl

end

/-- An escape in a property leaves one node there, and the quasi's value an AST, exactly if its
own value is a single node for the property; and an AST is what the quasi evaluates to when all
its escapes have such values. -/
theorem quasi_wellFormed_iff (h : JSHeap) (quasi : Value) (hquasi : WellFormed h quasi) :
    (∀ obj p ast fromStmt, ProgramValue h ast → EscapeSlot h quasi obj p fromStmt →
      (EscapesToNode h quasi obj p ast fromStmt ↔ SingleNode h ast fromStmt)) ∧
      ∀ h', Filled quasi h h' → WellFormed h' quasi := by
  refine ⟨fun obj p ast fromStmt hast hslot => escapesToNode_iff hquasi hast hslot, ?_⟩
  intro h' hfilled
  induction hfilled with
  | refl => exact hquasi
  | escape _ hslot hast hsingle hstore ih =>
      have hkeeps := (escapesToNode_iff ih hast hslot).mpr hsingle
      rw [EscapesToNode, hstore] at hkeeps
      exact hkeeps.2

/-! ### A throw in a quasi -/

/-- The AST of `throw .~x;`. -/
def throwEscape : Ast :=
  program 0 1 [node 2 "ThrowStatement" [("argument", node 3 "UnaryExpression"
    [("operator", .leaf (string (js ".~"))), ("argument", identifier 4 "x"),
      ("prefix", .leaf (boolean true))])]]

def twoStatements : Ast :=
  program 9 10 [exprStatement 11 (identifier 12 "y"), exprStatement 13 (identifier 14 "z")]

def quasiHeap : JSHeap := .ofTrees [throwEscape, expressionValue, twoStatements]

theorem wellFormed_throwEscape : WellFormed quasiHeap throwEscape.val :=
  .of_list [.ref 0, .ref 2, .ref 3, .ref 4] (by decide) (by decide) (by decide)

theorem escapeSlot_throwEscape :
    EscapeSlot quasiHeap throwEscape.val (.ref 2) ("argument", .one .expr) false :=
  ⟨.child .root (by decide), by decide, rfl, .ref 3, by decide, .ref 3, false, rfl⟩

theorem quasi_wellFormed_throw :
    EscapesToNode quasiHeap throwEscape.val (.ref 2) ("argument", .one .expr)
      expressionValue.val false := by
  have hast : ProgramValue quasiHeap expressionValue.val :=
    ⟨.of_list [.ref 5, .ref 7, .ref 8] (by decide) (by decide) (by decide), by decide⟩
  exact ((quasi_wellFormed_iff _ _ wellFormed_throwEscape).1 _ _ _ _ hast
    escapeSlot_throwEscape).mpr ⟨.ref 7, by decide, Or.inr (by decide)⟩

/-- Two statements are put in the property as an array. -/
theorem quasi_illFormed_throw :
    WellFormed quasiHeap throwEscape.val ∧ ProgramValue quasiHeap twoStatements.val ∧
      EscapeSlot quasiHeap throwEscape.val (.ref 2) ("argument", .one .expr) false ∧
      metaEscapeNode quasiHeap twoStatements.val false = .ok (.inr [.ref 12, .ref 14]) ∧
      ¬ EscapesToNode quasiHeap throwEscape.val (.ref 2) ("argument", .one .expr)
        twoStatements.val false := by
  have hast : ProgramValue quasiHeap twoStatements.val :=
    ⟨.of_list [.ref 9, .ref 11, .ref 12, .ref 13, .ref 14] (by decide) (by decide) (by decide),
      by decide⟩
  refine ⟨wellFormed_throwEscape, hast, escapeSlot_throwEscape, rfl, fun hkeeps => ?_⟩
  obtain ⟨stmt, hstmts, -⟩ :=
    (escapesToNode_iff wellFormed_throwEscape hast escapeSlot_throwEscape).mp hkeeps
  have hlength : (statementsOf quasiHeap twoStatements.val).length = 1 :=
    congrArg List.length hstmts
  exact absurd hlength (by decide)

end MetaMonkey.Staging
