import MetaMonkey.Staging.EscapeOrder
import MetaMonkey.Staging.Stage
import MetaMonkey.Staging.NodeBuilder
import MetaMonkey.Staging.UnparseHeap

/-!
Which nodes may stand where. A well-formed AST has in every property, and in every element
of a list, a node of a kind that belongs there, and null only where it may be left out.
`MergeNodeToAst` is given the place of a tag and puts there what the value has.
-/

namespace MetaMonkey.Staging

open ObjectGraph Js AstNode

/-! ### Places -/

def exprTypes : List String :=
  ["ThisExpression", "ArrayExpression", "ObjectExpression", "FunctionExpression",
    "ArrowExpression", "SequenceExpression", "UnaryExpression", "BinaryExpression",
    "AssignmentExpression", "UpdateExpression", "LogicalExpression", "ConditionalExpression",
    "NewExpression", "CallExpression", "MemberExpression", "YieldExpression",
    "ComprehensionExpression", "GeneratorExpression", "LetExpression", "SpreadExpression",
    "Identifier", "Literal", "MetaQuaziStatement", "MetaExecStatement"]

def stmtTypes : List String :=
  ["EmptyStatement", "BlockStatement", "ExpressionStatement", "IfStatement",
    "LabeledStatement", "BreakStatement", "ContinueStatement", "WithStatement",
    "SwitchStatement", "ReturnStatement", "ThrowStatement", "TryStatement", "WhileStatement",
    "DoWhileStatement", "ForStatement", "ForInStatement", "ForOfStatement", "LetStatement",
    "DebuggerStatement", "VariableDeclaration", "FunctionDeclaration", "ModuleDeclaration"]

/-- The nodes that a place is for. -/
inductive NodeKind where
  | expr
  /-- What a value can be bound or assigned to. -/
  | target
  /-- The head of a `for`. -/
  | head
  /-- The body of a function. -/
  | body
  | stmt
  | block
  | declarator
  | property
  | case
  | handler
  | comprehension
  deriving DecidableEq

def NodeKind.types : NodeKind → List String
  | .expr => exprTypes
  | .target => exprTypes ++ ["ArrayPattern", "ObjectPattern"]
  | .head => exprTypes ++ ["ArrayPattern", "ObjectPattern", "VariableDeclaration"]
  | .body => exprTypes ++ ["BlockStatement"]
  | .stmt => stmtTypes
  | .block => ["BlockStatement"]
  | .declarator => ["VariableDeclarator"]
  | .property => ["Property"]
  | .case => ["SwitchCase"]
  | .handler => ["CatchClause"]
  | .comprehension => ["ComprehensionBlock"]

/-- One node, a node or null, or an array of them. -/
inductive Place where
  | one (kind : NodeKind)
  | optional (kind : NodeKind)
  | list (kind : NodeKind)
  | optionals (kind : NodeKind)
  deriving DecidableEq

namespace Place

def kind : Place → NodeKind
  | one k | optional k | list k | optionals k => k

def isOptional : Place → Bool
  | one _ | list _ => false
  | optional _ | optionals _ => true

def isArray : Place → Bool
  | one _ | optional _ => false
  | list _ | optionals _ => true

end Place

def functionPlaces : List (String × Place) :=
  [("id", .optional .expr), ("params", .list .target), ("defaults", .optionals .expr),
    ("body", .one .body), ("rest", .optional .target)]

/-- The places of the nodes of each type. -/
def places : List (String × List (String × Place)) :=
  [("Program", [("body", .list .stmt)]), ("BlockStatement", [("body", .list .stmt)]),
    ("MetaQuaziStatement", [("body", .list .stmt)]), ("MetaExecStatement", [("body", .one .stmt)]),
    ("ExpressionStatement", [("expression", .one .expr)]),
    ("IfStatement",
      [("test", .one .expr), ("consequent", .one .stmt), ("alternate", .optional .stmt)]),
    ("BreakStatement", [("label", .optional .expr)]),
    ("ContinueStatement", [("label", .optional .expr)]),
    ("LabeledStatement", [("label", .one .expr), ("body", .one .stmt)]),
    ("ThrowStatement", [("argument", .one .expr)]),
    ("ReturnStatement", [("argument", .optional .expr)]),
    ("ForStatement", [("init", .optional .head), ("test", .optional .expr),
      ("update", .optional .expr), ("body", .one .stmt)]),
    ("ForInStatement", [("left", .one .head), ("right", .one .expr), ("body", .one .stmt)]),
    ("ForOfStatement", [("left", .one .head), ("right", .one .expr), ("body", .one .stmt)]),
    ("WithStatement", [("object", .one .expr), ("body", .one .stmt)]),
    ("WhileStatement", [("test", .one .expr), ("body", .one .stmt)]),
    ("DoWhileStatement", [("body", .one .stmt), ("test", .one .expr)]),
    ("SwitchStatement", [("discriminant", .one .expr), ("cases", .list .case)]),
    ("TryStatement", [("block", .one .block), ("guardedHandlers", .list .handler),
      ("handler", .optional .handler), ("finalizer", .optional .block)]),
    ("BinaryExpression", [("left", .one .expr), ("right", .one .expr)]),
    ("UnaryExpression", [("argument", .one .expr)]),
    ("AssignmentExpression", [("left", .one .target), ("right", .one .expr)]),
    ("UpdateExpression", [("argument", .one .expr)]),
    ("LogicalExpression", [("left", .one .expr), ("right", .one .expr)]),
    ("ConditionalExpression",
      [("test", .one .expr), ("consequent", .one .expr), ("alternate", .one .expr)]),
    ("SequenceExpression", [("expressions", .list .expr)]),
    ("CallExpression", [("callee", .one .expr), ("arguments", .list .expr)]),
    ("NewExpression", [("callee", .one .expr), ("arguments", .list .expr)]),
    ("MemberExpression", [("object", .one .expr), ("property", .one .expr)]),
    ("ArrayExpression", [("elements", .optionals .expr)]),
    ("SpreadExpression", [("expression", .one .expr)]),
    ("Property", [("key", .one .expr), ("value", .one .target)]),
    ("ObjectExpression", [("properties", .list .property)]),
    ("YieldExpression", [("argument", .optional .expr)]),
    ("ComprehensionBlock", [("left", .one .target), ("right", .one .expr)]),
    ("ComprehensionExpression", [("body", .one .expr), ("blocks", .list .comprehension),
      ("filter", .optional .expr)]),
    ("GeneratorExpression", [("body", .one .expr), ("blocks", .list .comprehension),
      ("filter", .optional .expr)]),
    ("LetExpression", [("head", .list .declarator), ("body", .one .expr)]),
    ("LetStatement", [("head", .list .declarator), ("body", .one .stmt)]),
    ("VariableDeclaration", [("declarations", .list .declarator)]),
    ("VariableDeclarator", [("id", .one .target), ("init", .optional .expr)]),
    ("SwitchCase", [("test", .optional .expr), ("consequent", .list .stmt)]),
    ("CatchClause",
      [("param", .one .target), ("guard", .optional .expr), ("body", .one .block)]),
    ("ObjectPattern", [("properties", .list .property)]),
    ("ArrayPattern", [("elements", .optionals .target)]),
    ("ModuleDeclaration", [("body", .one .block)]),
    ("FunctionDeclaration", functionPlaces), ("FunctionExpression", functionPlaces),
    ("ArrowExpression", functionPlaces)]

/-! ### Well-formed trees -/

section

variable (h : JSHeap)

def nodeType (v : Value) : Option JSString :=
  match getProperty h v "type" with
  | .ok (string typeStr) => some typeStr
  | _ => none

def isOneOf (types : List String) (typeStr : JSString) : Bool := types.any (equals typeStr)

/-- A node of the kind, or null where the place may be empty. -/
def fills (place : Place) (v : Value) : Bool :=
  (place.isOptional && v = null) || (nodeType h v).any (isOneOf place.kind.types)

def placesOf (v : Value) : List (String × Place) :=
  ((nodeType h v).bind fun typeStr =>
    (places.find? fun e => equals typeStr e.1).map Prod.snd).getD []

/-- The values in a place of a node. -/
def held (v : Value) (p : String × Place) : Option (List Value) :=
  (getProperty h v p.1).toOption.bind fun x =>
    if p.2.isArray then arrayElems? h x else some [x]

def nodeOk (v : Value) : Bool :=
  (placesOf h v).all fun p => (held h v p).any fun values => values.all (fills h p.2)

def children (v : Value) : List Value := (placesOf h v).flatMap fun p => (held h v p).getD []

/-- What the AST consists of. -/
inductive Reached (root : Value) : Value → Prop where
  | root : Reached root root
  | child {v w : Value} (hv : Reached root v) (hw : w ∈ children h v) : Reached root w

/-- The root is a Program, and every place below it is filled as it has to be. -/
structure WellFormed (root : Value) : Prop where
  program : nodeType h root = some (js "Program")
  nodes : ∀ v, Reached h root v → nodeOk h v = true

end

/-! ### Tags in their places -/

section

variable (h : JSHeap)

/-- The traversal takes the node for a tag. -/
def IsTag (slotOf : Option Value) (node : Value) (isExpr : Bool) : Prop :=
  ∃ body, StagedNodeIterator.findTag h slotOf node = .ok (.inline isExpr body) ∨
    StagedNodeIterator.findTag h slotOf node = .ok (.exec isExpr body)

/-- The node is what a tag or an escape can be: a unary expression, or for a statement one of
an expression. -/
def StandsAs (node : Value) : Bool → Prop
  | true => nodeType h node = some (js "UnaryExpression") ∨
      nodeType h node = some (js "MetaExecStatement")
  | false => nodeType h node = some (js "ExpressionStatement")

/-- A place of the AST that the traversal can queue. -/
inductive Queued (root : Value) : NodeInfo → Prop where
  | slot {parent node : Value} {p : String × Place} {isExpr : Bool}
      (hparent : Reached h root parent) (hp : p ∈ placesOf h parent)
      (harray : p.2.isArray = false) (hnode : getProperty h parent p.1 = .ok node)
      (htag : IsTag h (some parent) node isExpr) : Queued root ⟨isExpr, parent, .inr p.1⟩
  | element {owner arr node : Value} {p : String × Place} {elems : List Value} {isExpr : Bool}
      (howner : Reached h root owner) (hp : p ∈ placesOf h owner)
      (harray : p.2.isArray = true) (harr : getProperty h owner p.1 = .ok arr)
      (helems : arrayElems? h arr = some elems) (hnode : node ∈ elems)
      (htag : IsTag h none node isExpr) : Queued root ⟨isExpr, arr, .inl node⟩

/-- The statements of a Program. -/
def statementsOf (ast : Value) : List Value := (held h ast ("body", .list .stmt)).getD []

def isExprStatement (stmt : Value) : Bool :=
  nodeType h stmt = some (js "ExpressionStatement")

/-- What the merge has to do: fail and leave the heap as it was, or give a well-formed AST,
and only put expressions in the place of an expression. -/
def KeepsWellFormed {σ : Type} (root : Value) (info : NodeInfo) (ast : Value) (x : σ) : Prop :=
  match mergeNodeToAst info ast (h, x) with
  | .ok _ s' => WellFormed s'.1 root ∧
      (info.isExpr = true → ast ≠ null → (statementsOf h ast).all (isExprStatement h) = true)
  | .error e s' => e = .jsFalse ∧ s'.1 = h

/-- The place is for a statement; or the value has nothing but expressions; or it has not
just one statement for a property; or the tag without a value is an element, or in a
property that may be null. -/
def Mergeable (info : NodeInfo) (ast : Value) : Prop :=
  info.isExpr = true →
    if ast = null then
      ∀ key, info.value = .inr key → ∀ p ∈ placesOf h info.parent, p.1 = key →
        p.2.isOptional = true
    else
      (statementsOf h ast).all (isExprStatement h) = true ∨
        info.value.isRight = true ∧ (statementsOf h ast).length ≠ 1

end

section

variable {h h' : JSHeap} {v w root : Value} {p : String × Place} {place : Place}

/-! ### Types of nodes -/

theorem nodeType_eq_some {typeStr : JSString} (hv : nodeType h v = some typeStr) :
    IsNode h v ∧ getProperty h v "type" = .ok (string typeStr) := by
  rw [nodeType] at hv
  split at hv
  · next t hget =>
      cases hv
      refine ⟨?_, hget⟩
      cases v with
      | leaf x => cases x <;> cases hget
      | ref a =>
          cases hcell : h.cell a with
          | none => simp [getProperty, hcell] at hget
          | some c =>
              cases c with
              | record cls fields distinct => exact ⟨a, cls, fields, distinct, rfl, hcell⟩
              | array elems => simp [getProperty, hcell] at hget
  · cases hv

theorem isExprStatement_iff :
    isExprStatement h v = true ↔ nodeType h v = some (js "ExpressionStatement") :=
  decide_eq_true_iff

/-- A node whose type is compared with a text. -/
theorem nodeType_of_equals {typeStr t : JSString} {text : String}
    (hv : nodeType h v = some typeStr) (hget : getPropertyToString h v "type" = .ok t)
    (heq : equals t text = true) : nodeType h v = some (js text) := by
  rw [getPropertyToString, (nodeType_eq_some hv).2] at hget
  cases hget
  rw [hv]
  exact congrArg some (of_decide_eq_true heq)

section

variable {typeStr : JSString}

/-- A property of a node of a certain type was read, and the node has that type. -/
theorem nodeType_of_getOfType {type key : String} {body : Value}
    (hv : nodeType h v = some typeStr) (hget : AstObjMng.getOfType h type key v = .ok body)
    (hbody : body ≠ null) : nodeType h v = some (js type) := by
  rw [AstObjMng.getOfType] at hget
  cases htype : getPropertyToString h v "type" with
  | error e =>
      rw [htype] at hget
      cases hget
  | ok t =>
      rw [htype, ok_bind] at hget
      cases heq : equals t type with
      | true => exact nodeType_of_equals hv htype heq
      | false =>
          rw [heq] at hget
          exact absurd (Except.ok.inj hget).symm hbody

theorem nodeType_of_getUnaryExpr {unary : JSString × Value} (hv : nodeType h v = some typeStr)
    (hget : AstObjMng.getUnaryExpr h v = .ok (some unary)) :
    nodeType h v = some (js "UnaryExpression") := by
  rw [AstObjMng.getUnaryExpr] at hget
  cases htype : getPropertyToString h v "type" with
  | error e =>
      rw [htype] at hget
      cases hget
  | ok t =>
      rw [htype, ok_bind] at hget
      cases heq : equals t "UnaryExpression" with
      | true => exact nodeType_of_equals hv htype heq
      | false =>
          rw [heq] at hget
          cases hget

theorem exprStmt_of_getUnaryExprStmt {unary : JSString × Value}
    (hv : nodeType h v = some typeStr)
    (hget : AstObjMng.getUnaryExprStmt h v = .ok (some unary)) : isExprStatement h v = true := by
  rw [AstObjMng.getUnaryExprStmt] at hget
  cases hexpr : AstObjMng.getExprStmt h v with
  | error e =>
      rw [hexpr] at hget
      cases hget
  | ok expr =>
      rw [hexpr, ok_bind] at hget
      by_cases hnull : expr = null
      · rw [if_pos hnull] at hget
        cases hget
      · exact decide_eq_true (nodeType_of_getOfType hv hexpr hnull)

theorem exprStmt_of_getMetaExecExprStmt {body : Value} (hv : nodeType h v = some typeStr)
    (hget : AstObjMng.getMetaExecExprStmt h v = .ok body) (hbody : body ≠ null) :
    isExprStatement h v = true := by
  rw [AstObjMng.getMetaExecExprStmt] at hget
  cases hexpr : AstObjMng.getExprStmt h v with
  | error e =>
      rw [hexpr] at hget
      cases hget
  | ok expr =>
      rw [hexpr, ok_bind] at hget
      by_cases hnull : expr = null
      · rw [if_pos hnull] at hget
        exact absurd (Except.ok.inj hget).symm hbody
      · exact decide_eq_true (nodeType_of_getOfType hv hexpr hnull)

theorem inlineArg_eq_some {unary : Option (JSString × Value)} {body : Value}
    (harg : StagedNodeIterator.inlineArg unary = some body) : ∃ u, unary = some u := by
  cases unary with
  | none => cases harg
  | some u => exact ⟨u, rfl⟩

/-- What a tag in an expression is, and what a tag that is a statement is. -/
theorem IsTag.standsAs {slotOf : Option Value} {node : Value} {isExpr : Bool}
    (htag : IsTag h slotOf node isExpr) (hnode : nodeType h node = some typeStr) :
    StandsAs h node isExpr := by
  obtain ⟨body, htag⟩ := htag
  rw [StagedNodeIterator.findTag] at htag
  cases hunary : AstObjMng.getUnaryExpr h node with
  | error e => simp [hunary] at htag
  | ok unary =>
    simp only [hunary, ok_bind] at htag
    cases harg : StagedNodeIterator.inlineArg unary with
    | some inlineNode =>
        obtain ⟨u, rfl⟩ := inlineArg_eq_some harg
        simp only [harg] at htag
        cases hskip : StagedNodeIterator.skipped h slotOf node with
        | error e => simp [hskip] at htag
        | ok skip =>
            cases skip <;> simp [hskip] at htag
            obtain ⟨rfl, -⟩ := htag
            exact Or.inl (nodeType_of_getUnaryExpr hnode hunary)
    | none =>
        simp only [harg] at htag
        cases hstmt : AstObjMng.getUnaryExprStmt h node with
        | error e => simp [hstmt] at htag
        | ok unary' =>
          simp only [hstmt, ok_bind] at htag
          cases harg' : StagedNodeIterator.inlineArg unary' with
          | some inlineNode =>
              obtain ⟨u, rfl⟩ := inlineArg_eq_some harg'
              simp [harg'] at htag
              obtain ⟨rfl, -⟩ := htag
              exact isExprStatement_iff.mp (exprStmt_of_getUnaryExprStmt hnode hstmt)
          | none =>
              simp only [harg'] at htag
              cases hexec : AstObjMng.getMetaExecStmt h node with
              | error e => simp [hexec] at htag
              | ok execNode =>
                simp only [hexec, ok_bind] at htag
                by_cases hnull : execNode = null
                · rw [if_neg (not_not_intro hnull)] at htag
                  cases hexec' : AstObjMng.getMetaExecExprStmt h node with
                  | error e => simp [hexec'] at htag
                  | ok execNode' =>
                    simp only [hexec', ok_bind] at htag
                    by_cases hnull' : execNode' = null
                    · simp [hnull'] at htag
                    · simp [hnull'] at htag
                      obtain ⟨rfl, -⟩ := htag
                      exact isExprStatement_iff.mp
                        (exprStmt_of_getMetaExecExprStmt hnode hexec' hnull')
                · rw [if_pos hnull] at htag
                  cases hskip : StagedNodeIterator.skipped h slotOf node with
                  | error e => simp [hskip] at htag
                  | ok skip =>
                      cases skip <;> simp [hskip] at htag
                      obtain ⟨rfl, -⟩ := htag
                      exact Or.inr (nodeType_of_getOfType hnode hexec hnull)

end

/-! ### Kinds of nodes -/

theorem isOneOf_mono {types types' : List String} {typeStr : JSString} (hsub : types ⊆ types')
    (h : isOneOf types typeStr = true) : isOneOf types' typeStr = true := by
  obtain ⟨t, ht, heq⟩ := List.any_eq_true.mp h
  exact List.any_eq_true.mpr ⟨t, hsub ht, heq⟩

/-- A place for the tag of an expression is a place for every expression. -/
theorem NodeKind.exprTypes_subset {kind : NodeKind}
    (h : isOneOf kind.types (js "UnaryExpression") = true ∨
      isOneOf kind.types (js "MetaExecStatement") = true) : exprTypes ⊆ kind.types := by
  cases kind with
  | expr => exact fun _ ht => ht
  | target | head | body => exact List.subset_append_left _ _
  | stmt | block | declarator | property | case | handler | comprehension =>
      exact absurd h (by decide)

theorem NodeKind.stmtTypes_subset {kind : NodeKind}
    (h : isOneOf kind.types (js "ExpressionStatement") = true) : stmtTypes ⊆ kind.types := by
  cases kind with
  | stmt => exact fun _ ht => ht
  | expr | target | head | body | block | declarator | property | case | handler
  | comprehension => exact absurd h (by decide)

theorem fills_of_type {typeStr : JSString} (hv : nodeType h v = some typeStr) :
    fills h place v = isOneOf place.kind.types typeStr := by
  obtain ⟨⟨a, -, -, -, rfl, -⟩, -⟩ := nodeType_eq_some hv
  simp [fills, hv]

/-! ### Closed sets of nodes -/

theorem held_of_nodeOk (hv : nodeOk h v = true) (hp : p ∈ placesOf h v) :
    ∃ values, held h v p = some values ∧ ∀ w ∈ values, fills h p.2 w = true := by
  have hall := List.all_eq_true.mp hv p hp
  cases hheld : held h v p with
  | none =>
      rw [hheld] at hall
      cases hall
  | some values =>
      rw [hheld] at hall
      exact ⟨values, rfl, List.all_eq_true.mp hall⟩

theorem mem_children (hp : p ∈ placesOf h v) {values : List Value}
    (hheld : held h v p = some values) (hw : w ∈ values) : w ∈ children h v :=
  List.mem_flatMap.mpr ⟨p, hp, by rwa [hheld]⟩

theorem WellFormed.held (hwf : WellFormed h root) (hv : Reached h root v)
    (hp : p ∈ placesOf h v) :
    ∃ values, held h v p = some values ∧
      ∀ w ∈ values, fills h p.2 w = true ∧ Reached h root w := by
  obtain ⟨values, hheld, hfills⟩ := held_of_nodeOk (hwf.nodes v hv) hp
  exact ⟨values, hheld, fun w hw => ⟨hfills w hw, .child hv (mem_children hp hheld hw)⟩⟩

/-- Whatever fills a place is null or has a type. -/
theorem WellFormed.typed (hwf : WellFormed h root) (hv : Reached h root v) :
    v = null ∨ ∃ typeStr, nodeType h v = some typeStr := by
  cases hv with
  | root => exact Or.inr ⟨_, hwf.program⟩
  | child hv hw =>
      obtain ⟨p, hp, hw⟩ := List.mem_flatMap.mp hw
      obtain ⟨values, hheld, hvalues⟩ := hwf.held hv hp
      rw [hheld] at hw
      have hfills := (hvalues v hw).1
      rw [fills, Bool.or_eq_true] at hfills
      obtain hnull | htype := hfills
      · exact Or.inl (by simpa using (Bool.and_eq_true_iff.mp hnull).2)
      · cases hnode : nodeType h v with
        | none =>
            rw [hnode] at htype
            cases htype
        | some typeStr => exact Or.inr ⟨typeStr, rfl⟩

/-- The principle behind all the merges: a set of values with the root whose places hold
values of the set, each of a kind that belongs there. -/
theorem WellFormed.of_closed (R : Value → Prop) (hprogram : nodeType h root = some (js "Program"))
    (hroot : R root)
    (hclosed : ∀ v, R v → ∀ p ∈ placesOf h v, ∃ values, Staging.held h v p = some values ∧
      ∀ w ∈ values, fills h p.2 w = true ∧ R w) : WellFormed h root := by
  have hreached : ∀ v, Reached h root v → R v := by
    intro v hv
    induction hv with
    | root => exact hroot
    | child hv hw ih =>
        obtain ⟨p, hp, hw⟩ := List.mem_flatMap.mp hw
        obtain ⟨values, hheld, hvalues⟩ := hclosed _ ih p hp
        rw [hheld] at hw
        exact (hvalues _ hw).2
  refine ⟨hprogram, fun v hv => List.all_eq_true.mpr fun p hp => ?_⟩
  obtain ⟨values, hheld, hvalues⟩ := hclosed v (hreached v hv) p hp
  rw [hheld]
  exact List.all_eq_true.mpr fun w hw => (hvalues w hw).1

/-! ### Changes of the heap -/

/-- The nodes of a heap have kept their types. -/
def KeepsTypes (h h' : JSHeap) : Prop :=
  ∀ v typeStr, nodeType h v = some typeStr → nodeType h' v = some typeStr

theorem KeepsTypes.placesOf (hkeeps : KeepsTypes h h')
    (hv : v = null ∨ ∃ typeStr, nodeType h v = some typeStr) :
    Staging.placesOf h' v = Staging.placesOf h v := by
  obtain rfl | ⟨typeStr, hv⟩ := hv
  · rfl
  · rw [Staging.placesOf, Staging.placesOf, hv, hkeeps v typeStr hv]

theorem KeepsTypes.fills (hkeeps : KeepsTypes h h') (hv : Staging.fills h place v = true) :
    Staging.fills h' place v = true := by
  rw [Staging.fills, Bool.or_eq_true] at hv ⊢
  refine hv.imp_right fun hv => ?_
  cases hnode : nodeType h v with
  | none =>
      rw [hnode] at hv
      cases hv
  | some typeStr =>
      rw [hkeeps v typeStr hnode, ← hnode]
      exact hv

/-- What is in the AST, and in the value if there is one. -/
def Known (h : JSHeap) (root ast v : Value) : Prop :=
  Reached h root v ∨ ast ≠ null ∧ Reached h ast v

/-- The AST and the value are well-formed. -/
structure WellFormedPair (h : JSHeap) (root ast : Value) : Prop where
  root : WellFormed h root
  ast : ast ≠ null → WellFormed h ast

theorem WellFormedPair.typed {ast : Value} (hwf : WellFormedPair h root ast)
    (hv : Known h root ast v) : v = null ∨ ∃ typeStr, nodeType h v = some typeStr := by
  obtain hv | ⟨hne, hv⟩ := hv
  · exact hwf.root.typed hv
  · exact (hwf.ast hne).typed hv

theorem WellFormedPair.held {ast : Value} (hwf : WellFormedPair h root ast)
    (hv : Known h root ast v) (hp : p ∈ placesOf h v) :
    ∃ values, Staging.held h v p = some values ∧
      ∀ w ∈ values, fills h p.2 w = true ∧ Known h root ast w := by
  obtain hv | ⟨hne, hv⟩ := hv
  · obtain ⟨values, hheld, hvalues⟩ := hwf.root.held hv hp
    exact ⟨values, hheld, fun w hw => ⟨(hvalues w hw).1, Or.inl (hvalues w hw).2⟩⟩
  · obtain ⟨values, hheld, hvalues⟩ := (hwf.ast hne).held hv hp
    exact ⟨values, hheld, fun w hw => ⟨(hvalues w hw).1, Or.inr ⟨hne, (hvalues w hw).2⟩⟩⟩

/-- What a place holds after the change was there or belongs there, and what is new has no
places: then the AST is still well-formed. -/
theorem WellFormedPair.of_change {ast : Value} (N : Value → Prop)
    (hwf : WellFormedPair h root ast) (hkeeps : KeepsTypes h h')
    (hN : ∀ v, N v → placesOf h' v = [])
    (hnew : ∀ v, Known h root ast v → ∀ p ∈ placesOf h v, ∀ values,
      Staging.held h v p = some values → (∀ w ∈ values, fills h p.2 w = true) →
        ∃ values', Staging.held h' v p = some values' ∧ ∀ w ∈ values',
          w ∈ values ∨ fills h' p.2 w = true ∧ (Known h root ast w ∨ N w)) :
    WellFormed h' root := by
  refine .of_closed (fun v => Known h root ast v ∨ N v) (hkeeps _ _ hwf.root.program)
    (Or.inl (Or.inl .root)) fun v hv p hp => ?_
  obtain hv | hv := hv
  · rw [hkeeps.placesOf (hwf.typed hv)] at hp
    obtain ⟨values, hheld, hvalues⟩ := hwf.held hv hp
    obtain ⟨values', hheld', hvalues'⟩ :=
      hnew v hv p hp values hheld fun w hw => (hvalues w hw).1
    refine ⟨values', hheld', fun w hw => ?_⟩
    obtain hw | ⟨hfills, hw⟩ := hvalues' w hw
    · exact ⟨hkeeps.fills (hvalues w hw).1, Or.inl (hvalues w hw).2⟩
    · exact ⟨hfills, hw⟩
  · rw [hN v hv] at hp
    cases hp

/-! ### The statements of a value -/

theorem placesOf_program (hv : nodeType h v = some (js "Program")) :
    placesOf h v = [("body", .list .stmt)] := by
  rw [placesOf, hv]
  rfl

theorem placesOf_exprStatement (hv : isExprStatement h v = true) :
    placesOf h v = [("expression", .one .expr)] := by
  rw [placesOf, isExprStatement_iff.mp hv]
  rfl

/-- The statements of a value belong where statements do. -/
theorem WellFormed.statementsOf (hwf : WellFormed h v) :
    Staging.held h v ("body", .list .stmt) = some (statementsOf h v) ∧
      ∀ w ∈ statementsOf h v, fills h (.list .stmt) w = true ∧ Reached h v w := by
  obtain ⟨values, hheld, hvalues⟩ := hwf.held .root
    (p := ("body", .list .stmt))
      (by rw [placesOf_program hwf.program]; exact List.mem_singleton_self _)
  rw [Staging.statementsOf, hheld]
  exact ⟨rfl, hvalues⟩

theorem WellFormed.isProgram (hwf : WellFormed h v) :
    IsProgram h v (Staging.statementsOf h v) := by
  obtain ⟨hheld, hstmts⟩ := hwf.statementsOf
  refine ⟨(nodeType_eq_some hwf.program).2, ?_, fun w hw => ?_⟩
  · rw [Staging.held] at hheld
    cases hbody : getProperty h v "body" with
    | error e =>
        rw [hbody] at hheld
        cases hheld
    | ok body =>
        simp only [hbody, Except.toOption, Option.bind_some, Place.isArray, if_true] at hheld
        cases body with
        | leaf x => cases hheld
        | ref b => exact ⟨b, rfl, hheld⟩
  · obtain hnull | ⟨typeStr, hw⟩ := hwf.typed (hstmts w hw).2
    · subst hnull
      exact absurd (hstmts _ hw).1 Bool.false_ne_true
    · exact (nodeType_eq_some hw).1

/-- The expression of an expression statement belongs where expressions do. -/
theorem WellFormed.rawExpression (hwf : WellFormed h v) (hw : Reached h v w)
    (hstmt : isExprStatement h w = true) :
    ∃ typeStr, nodeType h (valueToObject (rawExpression h w)) = some typeStr ∧
      isOneOf exprTypes typeStr = true ∧ Reached h v (valueToObject (rawExpression h w)) := by
  obtain ⟨values, hheld, hvalues⟩ := hwf.held hw
    (p := ("expression", .one .expr)) (by
      rw [placesOf_exprStatement hstmt]
      exact List.mem_singleton_self _)
  have hnode : IsNode h w := (nodeType_eq_some (isExprStatement_iff.mp hstmt)).1
  rw [Staging.held, getProperty_expression hnode] at hheld
  obtain rfl : [Staging.rawExpression h w] = values := Option.some.inj hheld
  obtain ⟨hfills, hreached⟩ := hvalues _ (List.mem_singleton_self _)
  obtain hnull | ⟨typeStr, htype⟩ := hwf.typed hreached
  · rw [hnull] at hfills
    exact absurd hfills Bool.false_ne_true
  · rw [valueToObject_of_isObject (nodeType_eq_some htype).1.isObject]
    exact ⟨typeStr, htype, (fills_of_type htype).symm.trans hfills, hreached⟩

/-! ### What is put in the place of a tag -/

section

variable {ast node : Value} {slotOf : Option Value} {isExpr : Bool}

theorem IsTag.ne_null (htag : IsTag h slotOf node isExpr) : node ≠ null := by
  rintro rfl
  obtain ⟨body, htag⟩ := htag
  obtain htag | htag := htag <;> cases htag

/-- The place of such a node is for all the nodes of its kind. -/
theorem StandsAs.types_subset (hstands : StandsAs h node isExpr)
    (hnode : fills h place node = true) :
    (if isExpr then exprTypes else stmtTypes) ⊆ place.kind.types := by
  cases isExpr with
  | true =>
      refine NodeKind.exprTypes_subset (Or.imp (fun htype => ?_) (fun htype => ?_) hstands) <;>
        exact (fills_of_type htype).symm.trans hnode
  | false => exact NodeKind.stmtTypes_subset ((fills_of_type hstands).symm.trans hnode)

/-- The nodes that replace a tag. -/
def inserted (h : JSHeap) (isExpr : Bool) (ast : Value) : List Value :=
  if ast = null then [] else contribution h (!isExpr) (statementsOf h ast)

theorem WellFormedPair.inserted (hwf : WellFormedPair h root ast)
    (hplace : (if isExpr then exprTypes else stmtTypes) ⊆ place.kind.types)
    (hexprs : isExpr = true → ast ≠ null → (statementsOf h ast).all (isExprStatement h) = true) :
    ∀ w ∈ Staging.inserted h isExpr ast, fills h place w = true ∧ Known h root ast w := by
  intro w hw
  by_cases hnull : ast = null
  · rw [Staging.inserted, if_pos hnull] at hw
    cases hw
  · have hast := hwf.ast hnull
    rw [Staging.inserted, if_neg hnull, contribution] at hw
    cases isExpr with
    | true =>
        obtain ⟨stmt, hstmt, rfl⟩ := List.mem_map.mp hw
        obtain ⟨typeStr, htype, hone, hreached⟩ := hast.rawExpression
          (hast.statementsOf.2 stmt hstmt).2 (List.all_eq_true.mp (hexprs rfl hnull) stmt hstmt)
        exact ⟨(fills_of_type htype).trans (isOneOf_mono hplace hone), Or.inr ⟨hnull, hreached⟩⟩
    | false =>
        obtain ⟨hfills, hreached⟩ := hast.statementsOf.2 w hw
        obtain rfl | ⟨typeStr, htype⟩ := hast.typed hreached
        · exact absurd hfills Bool.false_ne_true
        · rw [fills_of_type htype] at hfills ⊢
          exact ⟨isOneOf_mono hplace hfills, Or.inr ⟨hnull, hreached⟩⟩

theorem getStmtsFromAstObj_eq (hwf : WellFormedPair h root ast) (hne : ast ≠ null)
    (isExpr : Bool) :
    AstObjMng.getStmtsFromAstObj h (!isExpr) ast [] = .ok (inserted h isExpr ast) := by
  rw [(hwf.ast hne).isProgram.getStmts, inserted, if_neg hne, List.nil_append]

theorem length_inserted (hne : ast ≠ null) :
    (inserted h isExpr ast).length = (statementsOf h ast).length := by
  rw [inserted, if_neg hne, contribution]
  cases isExpr <;> simp

end

/-! ### Writing an array -/

theorem arrayElems_eq_some {arr : Value} {elems : List Value}
    (harr : arrayElems? h arr = some elems) :
    ∃ b, arr = .ref b ∧ h.cell b = some (.array elems) := by
  cases arr with
  | leaf x => cases harr
  | ref b =>
      rw [arrayElems?] at harr
      cases hcell : h.cell b with
      | none => simp [hcell] at harr
      | some c =>
          cases c with
          | record cls fields distinct => simp [hcell] at harr
          | array elems' =>
              simp [hcell] at harr
              exact ⟨b, rfl, hcell.trans (by rw [harr])⟩

section

variable {b : ℕ} {old new : List Value}

theorem getProperty_write_array (hb : h.cell b = some (.array old)) (name : String) :
    getProperty (h.write b (.array new)) v name = getProperty h v name := by
  cases v with
  | leaf x => cases x <;> rfl
  | ref a =>
      by_cases hab : a = b
      · subst hab
        simp [getProperty, Heap.write_cell_self _ hb, hb]
      · simp [getProperty, Heap.write_cell_of_ne h _ hab]

theorem keepsTypes_write_array (hb : h.cell b = some (.array old)) :
    KeepsTypes h (h.write b (.array new)) := by
  intro v typeStr hv
  rw [nodeType, getProperty_write_array hb]
  exact hv

theorem arrayElems_write_array (hb : h.cell b = some (.array old)) (arr : Value) :
    arrayElems? (h.write b (.array new)) arr =
      if arr = .ref b then some new else arrayElems? h arr := by
  cases arr with
  | leaf x => rfl
  | ref a =>
      by_cases hab : a = b
      · subst hab
        simp [arrayElems?, Heap.write_cell_self _ hb]
      · simp [arrayElems?, Heap.write_cell_of_ne h _ hab, hab]

/-- An array of the AST is written, and only with elements that belong there. -/
theorem WellFormedPair.write_array {ast : Value} (hwf : WellFormedPair h root ast)
    (hb : h.cell b = some (.array old))
    (hnew : ∀ place, (∀ w ∈ old, fills h place w = true) →
      ∀ w ∈ new, w ∈ old ∨ fills h place w = true ∧ Known h root ast w) :
    WellFormed (h.write b (.array new)) root := by
  have hkeeps : KeepsTypes h (h.write b (.array new)) := keepsTypes_write_array hb
  refine hwf.of_change (fun _ => False) hkeeps (fun _ hv => hv.elim) ?_
  intro v _ p _ values hheld hfills
  rw [Staging.held] at hheld ⊢
  rw [getProperty_write_array hb]
  cases hget : getProperty h v p.1 with
  | error e =>
      rw [hget] at hheld
      cases hheld
  | ok x =>
      simp only [hget, Except.toOption, Option.bind_some] at hheld ⊢
      cases harray : p.2.isArray with
      | false =>
          simp only [harray, Bool.false_eq_true, if_false] at hheld ⊢
          exact ⟨[x], rfl, fun w hw => Or.inl (Option.some.inj hheld ▸ hw)⟩
      | true =>
          simp only [harray, if_true] at hheld ⊢
          rw [arrayElems_write_array hb]
          by_cases hx : x = .ref b
          · rw [if_pos hx]
            have hold : old = values := by
              rw [hx, arrayElems?, hb] at hheld
              exact Option.some.inj hheld
            subst hold
            refine ⟨new, rfl, fun w hw => (hnew p.2 hfills w hw).imp_right fun hw => ?_⟩
            exact ⟨hkeeps.fills hw.1, Or.inl hw.2⟩
          · rw [if_neg hx]
            exact ⟨values, hheld, fun w hw => Or.inl hw⟩

end

/-! ### Writing a property -/

section

variable {parent x : Value} {key : String}

theorem IsNode.setProperty (hparent : IsNode h parent) (key : String) (x : Value) :
    ∃ h', Js.setProperty h parent key x = .ok h' := by
  obtain ⟨a, cls, fields, distinct, rfl, hcell⟩ := hparent
  exact ⟨_, setProperty_record hcell key x⟩

theorem getProperty_setProperty (hparent : IsNode h parent)
    (hset : Js.setProperty h parent key x = .ok h') (v : Value) (name : String) :
    getProperty h' v name = if v = parent ∧ name = key then .ok x else getProperty h v name := by
  obtain ⟨a, cls, fields, distinct, rfl, hcell⟩ := hparent
  rw [setProperty_record hcell key x] at hset
  cases hset
  cases v with
  | leaf y => cases y <;> simp [getProperty]
  | ref b =>
      by_cases hb : b = a
      · subst hb
        by_cases hname : name = key
        · subst hname
          simp [getProperty, Heap.write_cell_self _ hcell]
        · simp [getProperty, Heap.write_cell_self _ hcell, hcell,
            lookup_setField_of_ne fields x hname, hname]
      · simp [getProperty, Heap.write_cell_of_ne h _ hb, hb]

theorem arrayElems_setProperty (hparent : IsNode h parent)
    (hset : Js.setProperty h parent key x = .ok h') (arr : Value) :
    arrayElems? h' arr = arrayElems? h arr := by
  obtain ⟨a, cls, fields, distinct, rfl, hcell⟩ := hparent
  rw [setProperty_record hcell key x] at hset
  cases hset
  cases arr with
  | leaf y => rfl
  | ref b =>
      by_cases hb : b = a
      · subst hb
        simp [arrayElems?, Heap.write_cell_self _ hcell, hcell]
      · simp [arrayElems?, Heap.write_cell_of_ne h _ hb]

theorem nodeType_setProperty (hparent : IsNode h parent)
    (hset : Js.setProperty h parent key x = .ok h') (hkey : key ≠ "type") (v : Value) :
    nodeType h' v = nodeType h v := by
  rw [nodeType, nodeType, getProperty_setProperty hparent hset, if_neg fun hv => hkey hv.2.symm]

/-- A property of the AST is written, and with a value that belongs there. -/
theorem WellFormedPair.setProperty {ast : Value} (N : Value → Prop)
    (hwf : WellFormedPair h root ast) (hparent : IsNode h parent)
    (hset : Js.setProperty h parent key x = .ok h') (hkey : key ≠ "type")
    (hN : ∀ v, N v → placesOf h v = [])
    (hnew : ∀ p ∈ placesOf h parent, p.1 = key → p.2.isArray = false ∧
      fills h p.2 x = true ∧ (Known h root ast x ∨ N x)) :
    WellFormed h' root := by
  have htypes := nodeType_setProperty hparent hset hkey
  have hkeeps : KeepsTypes h h' := fun v typeStr hv => (htypes v).trans hv
  refine hwf.of_change N hkeeps (fun v hv => ?_) ?_
  · rw [placesOf, htypes v]
    exact hN v hv
  · intro v _ p hp values hheld _
    rw [Staging.held] at hheld ⊢
    rw [getProperty_setProperty hparent hset]
    by_cases hv : v = parent ∧ p.1 = key
    · obtain ⟨rfl, hpkey⟩ := hv
      obtain ⟨harray, hfills, hx⟩ := hnew p hp hpkey
      rw [if_pos ⟨rfl, hpkey⟩]
      refine ⟨[x], by simp [Except.toOption, harray], fun w hw => ?_⟩
      obtain rfl := List.mem_singleton.mp hw
      exact Or.inr ⟨hkeeps.fills hfills, hx⟩
    · rw [if_neg hv]
      refine ⟨values, ?_, fun w hw => Or.inl hw⟩
      simpa only [arrayElems_setProperty hparent hset] using hheld

end

/-! ### A new object -/

section

variable {c : Obj}

theorem getProperty_alloc {name : String} {x : Value} (hget : getProperty h v name = .ok x) :
    getProperty (h.alloc c) v name = .ok x := by
  cases v with
  | leaf y => cases y <;> exact hget
  | ref a =>
      cases hcell : h.cell a with
      | none => simp [getProperty, hcell] at hget
      | some c' =>
          rw [getProperty, hcell] at hget
          rw [getProperty, Heap.alloc_cell_of_some c hcell]
          exact hget

theorem arrayElems_alloc {arr : Value} {elems : List Value}
    (harr : arrayElems? h arr = some elems) : arrayElems? (h.alloc c) arr = some elems := by
  obtain ⟨b, rfl, hcell⟩ := arrayElems_eq_some harr
  rw [arrayElems?, Heap.alloc_cell_of_some c hcell]

theorem keepsTypes_alloc : KeepsTypes h (h.alloc c) := by
  intro v typeStr hv
  rw [nodeType, getProperty_alloc (nodeType_eq_some hv).2]

theorem held_alloc {values : List Value} (hheld : held h v p = some values) :
    held (h.alloc c) v p = some values := by
  rw [held] at hheld ⊢
  cases hget : getProperty h v p.1 with
  | error e =>
      rw [hget] at hheld
      cases hheld
  | ok x =>
      rw [getProperty_alloc hget]
      simp only [hget, Except.toOption, Option.bind_some] at hheld ⊢
      cases harray : p.2.isArray with
      | true =>
          rw [harray] at hheld
          exact arrayElems_alloc hheld
      | false =>
          rw [harray] at hheld
          exact hheld

theorem WellFormed.alloc (hwf : WellFormed h root) : WellFormed (h.alloc c) root := by
  have hpair : WellFormedPair h root null := ⟨hwf, fun hne => absurd rfl hne⟩
  refine hpair.of_change (fun _ => False) keepsTypes_alloc (fun _ hv => hv.elim) ?_
  exact fun v _ p _ values hheld _ => ⟨values, held_alloc hheld, fun w hw => Or.inl hw⟩

end

/-! ### The merge -/

section

variable {σ : Type} {ast node parent : Value} {isExpr : Bool} {key : String} (x : σ)

theorem mergeNodeToAst_element {b : ℕ} {elems : List Value} (hwf : WellFormedPair h root ast)
    (hb : h.cell b = some (.array elems)) (hnode : node ∈ elems) :
    mergeNodeToAst ⟨isExpr, .ref b, .inl node⟩ ast (h, x) =
      .ok () (h.write b (.array (elems.take (elems.idxOf node) ++ inserted h isExpr ast ++
        elems.drop (elems.idxOf node + 1))), x) := by
  have hindex : arrayIndexOf h (.ref b) node = .ok (some (elems.idxOf node)) := by
    simp [arrayIndexOf, arrayElems?, hb, hnode]
  have hsplice : splice h (.ref b) (elems.idxOf node) (inserted h isExpr ast) =
      .ok (h.write b (.array (elems.take (elems.idxOf node) ++ inserted h isExpr ast ++
        elems.drop (elems.idxOf node + 1)))) := by
    simp [splice, hb]
  rw [mergeNodeToAst]
  dsimp only
  rw [bind_ok (reads_ok hindex)]
  dsimp only
  by_cases hnull : ast = null
  · rw [if_neg (not_not_intro hnull), bind_ok (pure_apply [] (h, x))]
    rw [inserted, if_pos hnull] at hsplice ⊢
    exact writes_ok hsplice
  · rw [if_pos hnull, bind_ok (reads_ok (getStmtsFromAstObj_eq hwf hnull isExpr))]
    exact writes_ok hsplice

theorem mergeNodeToAst_value (hwf : WellFormedPair h root ast) (hne : ast ≠ null) :
    mergeNodeToAst ⟨isExpr, parent, .inr key⟩ ast (h, x) =
      (match inserted h isExpr ast with
      | [w] => writes fun h => setProperty h parent key w
      | _ => throw .jsFalse : JsM σ Unit) (h, x) := by
  have hread : (reads fun h => AstObjMng.getStmtsFromAstObj h (!isExpr) ast [] :
      JsM σ (List Js.Value)) (h, x) = .ok (inserted h isExpr ast) (h, x) :=
    reads_ok (getStmtsFromAstObj_eq hwf hne isExpr)
  rw [mergeNodeToAst]
  dsimp only
  rw [if_pos hne]
  exact bind_ok hread _

/-- The null pointer is put in the place of an expression. -/
theorem mergeNodeToAst_cut_expr :
    mergeNodeToAst ⟨true, parent, .inr key⟩ null (h, x) =
      (writes fun h => setProperty h parent key null : JsM σ Unit) (h, x) := rfl

def emptyStatement : Obj :=
  .record .plain [("type", string (js "EmptyStatement")), ("loc", null)] (by decide)

theorem mergeNodeToAst_cut_stmt :
    mergeNodeToAst ⟨false, parent, .inr key⟩ null (h, x) =
      (writes fun h' => setProperty h' parent key (.ref h.next) : JsM σ Unit)
        (h.alloc emptyStatement, x) := rfl

end

/-- The keys of places are none that tell the type. -/
theorem key_ne_type (hp : p ∈ placesOf h v) : p.1 ≠ "type" := by
  rw [placesOf] at hp
  cases htype : nodeType h v with
  | none =>
      rw [htype] at hp
      cases hp
  | some typeStr =>
      rw [htype, Option.bind_some] at hp
      cases hfind : places.find? fun e => equals typeStr e.1 with
      | none =>
          rw [hfind] at hp
          cases hp
      | some e =>
          rw [hfind] at hp
          have hkeys : ∀ e ∈ places, ∀ q ∈ e.2, q.1 ≠ "type" := by decide
          exact hkeys e (List.mem_of_find?_eq_some hfind) p hp

/-- What has places is a node. -/
theorem isNode_of_place (hp : p ∈ placesOf h v) : IsNode h v := by
  rw [placesOf] at hp
  cases htype : nodeType h v with
  | none =>
      rw [htype] at hp
      cases hp
  | some typeStr => exact (nodeType_eq_some htype).1

/-- A tag in a place is a node, of its kind. -/
theorem IsTag.isNode {node : Value} {slotOf : Option Value} {isExpr : Bool}
    (htag : IsTag h slotOf node isExpr) (hfills : fills h place node = true) :
    IsNode h node ∧ StandsAs h node isExpr := by
  rw [fills, Bool.or_eq_true, Bool.and_eq_true, decide_eq_true_eq] at hfills
  obtain ⟨-, hnull⟩ | htype := hfills
  · exact absurd hnull htag.ne_null
  · cases hnode : nodeType h node with
    | none =>
        rw [hnode] at htype
        cases htype
    | some typeStr => exact ⟨(nodeType_eq_some hnode).1, htag.standsAs hnode⟩

/-- What a property with a tag or an escape in it is for. -/
theorem WellFormed.place_of_standsAs {node : Value} {isExpr : Bool} {key : String}
    (hwf : WellFormed h root) (hv : Reached h root v) (hget : getProperty h v key = .ok node)
    (hstands : StandsAs h node isExpr) (hnode : IsNode h node) (hp : p ∈ placesOf h v)
    (hkey : p.1 = key) :
    p.2.isArray = false ∧ (if isExpr then exprTypes else stmtTypes) ⊆ p.2.kind.types := by
  obtain ⟨values, hheld, hvalues⟩ := hwf.held hv hp
  rw [Staging.held, hkey, hget] at hheld
  cases harray : p.2.isArray with
  | false =>
      obtain rfl : [node] = values := by simpa [Except.toOption, harray] using hheld
      exact ⟨rfl, hstands.types_subset (hvalues node (List.mem_singleton_self _)).1⟩
  | true =>
      have helems : arrayElems? h node = some values := by
        simpa [Except.toOption, harray] using hheld
      obtain ⟨b, rfl, hcell⟩ := arrayElems_eq_some helems
      obtain ⟨_, _, _, _, heq, hrecord⟩ := hnode
      cases heq
      rw [hcell] at hrecord
      cases hrecord

/-- The parent of the tag is still reached when its property is written. -/
theorem Reached.parent {parent w : Value} {key : String} (hparent : IsNode h parent)
    (hset : setProperty h parent key w = .ok h') (hkey : key ≠ "type")
    (hv : Reached h root v) : Reached h' root v ∨ Reached h' root parent := by
  induction hv with
  | root => exact Or.inl .root
  | child hv hw ih =>
      rename_i v w
      obtain hv' | hv' := ih
      · by_cases hvp : v = parent
        · exact Or.inr (hvp ▸ hv')
        · refine Or.inl (.child hv' ?_)
          have hheld : ∀ q, Staging.held h' v q = Staging.held h v q := by
            intro q
            rw [Staging.held, Staging.held, getProperty_setProperty hparent hset,
              if_neg fun hv => hvp hv.1]
            simp only [arrayElems_setProperty hparent hset]
          rw [children, placesOf, nodeType_setProperty hparent hset hkey]
          simp only [hheld]
          exact hw
      · exact Or.inr hv'

theorem fills_null {place : Place} (hfills : fills h place null = true) :
    place.isOptional = true := by
  simpa [fills, nodeType, getProperty] using hfills

/-- An empty place in a property that must not be empty. -/
theorem WellFormed.optional_of_null {parent : Value} {key : String} (hparent : IsNode h parent)
    (hset : setProperty h parent key null = .ok h') (hwf : WellFormed h' root)
    (hv : Reached h root parent) (hp : p ∈ placesOf h parent) (hkey : p.1 = key)
    (harray : p.2.isArray = false) : p.2.isOptional = true := by
  have hne : key ≠ "type" := hkey ▸ key_ne_type hp
  have hreached : Reached h' root parent := by
    obtain hv | hv := hv.parent hparent hset hne <;> exact hv
  have hp' : p ∈ placesOf h' parent := by
    rw [placesOf, nodeType_setProperty hparent hset hne]
    exact hp
  obtain ⟨values, hheld, hvalues⟩ := hwf.held hreached hp'
  rw [Staging.held, getProperty_setProperty hparent hset, if_pos ⟨rfl, hkey⟩] at hheld
  obtain rfl : [null] = values := by simpa [Except.toOption, harray] using hheld
  exact fills_null (hvalues null (List.mem_singleton_self _)).1

section

variable {σ : Type} {ast node parent : Value} {isExpr : Bool} {key : String} {x : σ}

/-- An array stays one of nodes that belong there. -/
theorem keepsWellFormed_element_iff {arr : Value} {elems : List Value}
    {slotOf : Option Value} (hwf : WellFormedPair h root ast)
    (harr : arrayElems? h arr = some elems)
    (hnode : node ∈ elems) (htag : IsTag h slotOf node isExpr) :
    KeepsWellFormed h root ⟨isExpr, arr, .inl node⟩ ast x ↔
      Mergeable h ⟨isExpr, arr, .inl node⟩ ast := by
  obtain ⟨b, rfl, hb⟩ := arrayElems_eq_some harr
  rw [KeepsWellFormed, mergeNodeToAst_element x hwf hb hnode, Mergeable]
  dsimp only
  constructor
  · rintro ⟨-, hexprs⟩ hexpr
    by_cases hnull : ast = null
    · rw [if_pos hnull]
      rintro key ⟨⟩
    · rw [if_neg hnull]
      exact Or.inl (hexprs hexpr hnull)
  · intro hmerge
    have hexprs : isExpr = true → ast ≠ null →
        (statementsOf h ast).all (isExprStatement h) = true := by
      intro hexpr hnull
      have hmerge := hmerge hexpr
      rw [if_neg hnull] at hmerge
      exact hmerge.resolve_right fun hright => Bool.false_ne_true hright.1
    refine ⟨hwf.write_array hb fun place hplace w hw => ?_, hexprs⟩
    rw [List.append_assoc, List.mem_append, List.mem_append] at hw
    obtain hw | hw | hw := hw
    · exact Or.inl (List.mem_of_mem_take hw)
    · exact Or.inr (hwf.inserted
        ((htag.isNode (hplace node hnode)).2.types_subset (hplace node hnode)) hexprs w hw)
    · exact Or.inl (List.mem_of_mem_drop hw)

/-- A value for a property: it needs just one statement, and an expression in it. -/
theorem keepsWellFormed_value_iff (hwf : WellFormedPair h root ast)
    (hne : ast ≠ null) (hparent : Reached h root parent) (hp : p ∈ placesOf h parent)
    (hget : getProperty h parent p.1 = .ok node) (hnode : IsNode h node)
    (hstands : StandsAs h node isExpr) :
    KeepsWellFormed h root ⟨isExpr, parent, .inr p.1⟩ ast x ↔
      Mergeable h ⟨isExpr, parent, .inr p.1⟩ ast := by
  rw [KeepsWellFormed, mergeNodeToAst_value x hwf hne, Mergeable]
  have hlength : (inserted h isExpr ast).length = (statementsOf h ast).length :=
    length_inserted hne
  have hparent' := isNode_of_place hp
  -- only a single node is put in the property
  by_cases hone : ∃ w, inserted h isExpr ast = [w]
  · obtain ⟨w, hw⟩ := hone
    obtain ⟨h', hset⟩ := hparent'.setProperty p.1 w
    rw [hw] at hlength ⊢
    dsimp only
    rw [writes_ok hset, if_neg hne]
    dsimp only
    constructor
    · rintro ⟨-, hexprs⟩ hexpr
      exact Or.inl (hexprs hexpr hne)
    · intro hmerge
      have hexprs : isExpr = true → ast ≠ null →
          (statementsOf h ast).all (isExprStatement h) = true := fun hexpr _ =>
        (hmerge hexpr).resolve_right fun hright => hright.2 hlength.symm
      refine ⟨hwf.setProperty (fun _ => False) hparent' hset (key_ne_type hp)
        (fun _ hv => hv.elim) fun q hq hkey => ?_, hexprs⟩
      obtain ⟨harray, hsub⟩ := hwf.root.place_of_standsAs hparent hget hstands hnode hq hkey
      obtain ⟨hfills, hknown⟩ := hwf.inserted hsub hexprs w (hw ▸ List.mem_singleton_self w)
      exact ⟨harray, hfills, Or.inl hknown⟩
  · have hthrow : (match inserted h isExpr ast with
        | [w] => writes fun h => setProperty h parent p.1 w
        | _ => throw .jsFalse : JsM σ Unit) = throw .jsFalse := by
      split
      · next w hw => exact absurd ⟨w, hw⟩ hone
      · rfl
    rw [hthrow]
    refine iff_of_true ⟨rfl, rfl⟩ fun _ => ?_
    rw [if_neg hne]
    refine Or.inr ⟨rfl, fun hsingle => hone (List.length_eq_one_iff.mp ?_)⟩
    rw [hlength, hsingle]

/-- Nothing for a property: an empty statement, or null where the property may be null. -/
theorem keepsWellFormed_cut_iff (hwf : WellFormed h root)
    (hparent : Reached h root parent) (hp : p ∈ placesOf h parent)
    (hget : getProperty h parent p.1 = .ok node) (hnode : IsNode h node)
    (hstands : StandsAs h node isExpr) :
    KeepsWellFormed h root ⟨isExpr, parent, .inr p.1⟩ null x ↔
      Mergeable h ⟨isExpr, parent, .inr p.1⟩ null := by
  have hparent' := isNode_of_place hp
  have hne := key_ne_type hp
  have hplaces := fun q hq hkey =>
    hwf.place_of_standsAs (p := q) hparent hget hstands hnode hq hkey
  rw [KeepsWellFormed, Mergeable]
  cases isExpr with
  | true =>
      obtain ⟨h', hset⟩ := hparent'.setProperty p.1 null
      rw [mergeNodeToAst_cut_expr, writes_ok hset]
      dsimp only
      rw [if_pos rfl]
      constructor
      · rintro ⟨hwf', -⟩ - key ⟨⟩ q hq hkey
        exact hwf'.optional_of_null hparent' hset hparent hq hkey (hplaces q hq hkey).1
      · intro hmerge
        have hpair : WellFormedPair h root null := ⟨hwf, fun hne => absurd rfl hne⟩
        refine ⟨hpair.setProperty (fun v => v = null) hparent' hset hne ?_ fun q hq hkey =>
          ⟨(hplaces q hq hkey).1, ?_, Or.inr rfl⟩, fun _ hnull => absurd rfl hnull⟩
        · rintro v rfl
          rfl
        · rw [fills, hmerge rfl p.1 rfl q hq hkey]
          rfl
  | false =>
      have hpair : WellFormedPair (h.alloc emptyStatement) root null :=
        ⟨hwf.alloc, fun hne => absurd rfl hne⟩
      have htype : nodeType (h.alloc emptyStatement) (.ref h.next) =
          some (js "EmptyStatement") := by
        simp [nodeType, getProperty, emptyStatement]
      have hparent₁ : IsNode (h.alloc emptyStatement) parent := by
        obtain ⟨a, cls, fields, distinct, rfl, hcell⟩ := hparent'
        exact ⟨a, cls, fields, distinct, rfl, Heap.alloc_cell_of_some _ hcell⟩
      obtain ⟨h', hset⟩ := hparent₁.setProperty p.1 (.ref h.next)
      rw [mergeNodeToAst_cut_stmt, writes_ok hset]
      refine iff_of_true ⟨?_, fun hexpr => absurd hexpr Bool.false_ne_true⟩
        fun hexpr => absurd hexpr Bool.false_ne_true
      refine hpair.setProperty (fun v => v = .ref h.next) hparent₁ hset hne ?_ ?_
      · rintro v rfl
        rw [placesOf, htype]
        rfl
      · intro q hq hkey
        rw [keepsTypes_alloc.placesOf (hwf.typed hparent)] at hq
        obtain ⟨harray, hsub⟩ := hplaces q hq hkey
        refine ⟨harray, (fills_of_type htype).trans (isOneOf_mono hsub (by decide)), Or.inr rfl⟩

end

/-- A merge in the place of a tag keeps the AST well-formed, or fails and changes nothing,
exactly if the value goes with the place. -/
theorem mergeNodeToAst_keeps_iff {σ : Type} (h : JSHeap) (root ast : Value) (info : NodeInfo)
    (x : σ) (hroot : WellFormed h root) (hast : ast ≠ null → WellFormed h ast)
    (hinfo : Queued h root info) :
    KeepsWellFormed h root info ast x ↔ Mergeable h info ast := by
  have hwf : WellFormedPair h root ast := ⟨hroot, hast⟩
  cases hinfo with
  | slot hparent hp harray hget htag =>
      obtain ⟨values, hheld, hvalues⟩ := hroot.held hparent hp
      rw [held, hget] at hheld
      obtain rfl := by simpa [Except.toOption, harray] using hheld
      obtain ⟨hnode, hstands⟩ := htag.isNode (hvalues _ (List.mem_singleton_self _)).1
      by_cases hnull : ast = null
      · subst hnull
        exact keepsWellFormed_cut_iff hroot hparent hp hget hnode hstands
      · exact keepsWellFormed_value_iff hwf hnull hparent hp hget hnode hstands
  | element _ _ _ _ helems hnode htag =>
      exact keepsWellFormed_element_iff hwf helems hnode htag

end

/-! ### A throw -/

/-- The nodes of a finite tree can be listed. -/
theorem WellFormed.of_list {h : JSHeap} {root : Value} (nodes : List Value)
    (hprogram : nodeType h root = some (js "Program")) (hroot : root ∈ nodes)
    (hnodes : ∀ v ∈ nodes, nodeOk h v = true ∧ ∀ w ∈ children h v, w ∈ nodes) :
    WellFormed h root := by
  refine .of_closed (· ∈ nodes) hprogram hroot fun v hv p hp => ?_
  obtain ⟨values, hheld, hvalues⟩ := held_of_nodeOk (hnodes v hv).1 hp
  exact ⟨values, hheld, fun w hw => ⟨hvalues w hw, (hnodes v hv).2 w (mem_children hp hheld hw)⟩⟩

/-- The AST of `throw .!x;`. -/
def throwTag : Ast :=
  program 0 1
    [node 2 "ThrowStatement" [("argument", inlineTag 3 (identifier 4 "x"))]]

/-- The value `y;`. -/
def expressionValue : Ast :=
  program 5 6 [exprStatement 7 (identifier 8 "y")]

/-- The value `;`. -/
def statementValue : Ast := program 5 6 [node 7 "EmptyStatement" []]

def throwHeap (value : Ast) : JSHeap := .ofTrees [throwTag, value]

def throwInfo : NodeInfo := ⟨true, .ref 2, .inr "argument"⟩

theorem wellFormed_throwTag {value : Ast}
    (hvalue : value = expressionValue ∨ value = statementValue) :
    WellFormed (throwHeap value) throwTag.val := by
  obtain rfl | rfl := hvalue <;>
    exact .of_list [.ref 0, .ref 2, .ref 3, .ref 4] (by decide) (by decide) (by decide)

theorem queued_throwTag {value : Ast}
    (hvalue : value = expressionValue ∨ value = statementValue) :
    Queued (throwHeap value) throwTag.val throwInfo := by
  have hreached : Reached (throwHeap value) throwTag.val (.ref 2) := by
    obtain rfl | rfl := hvalue <;> exact .child .root (by decide)
  obtain rfl | rfl := hvalue <;>
    exact .slot (p := ("argument", .one .expr)) hreached (by decide) rfl (by decide)
      (⟨.ref 4, Or.inl (by decide)⟩ : IsTag _ _ (.ref 3) true)

theorem mergeNodeToAst_keeps_throw :
    Mergeable (throwHeap expressionValue) throwInfo expressionValue.val ∧
      KeepsWellFormed (throwHeap expressionValue) throwTag.val throwInfo
        expressionValue.val () := by
  have hmergeable : Mergeable (throwHeap expressionValue) throwInfo expressionValue.val := by
    intro _
    rw [if_neg (by decide)]
    exact Or.inl (by decide)
  exact ⟨hmergeable, (mergeNodeToAst_keeps_iff _ _ _ _ _ (wellFormed_throwTag (Or.inl rfl))
    (fun _ => .of_list [.ref 5, .ref 7, .ref 8] (by decide) (by decide) (by decide))
    (queued_throwTag (Or.inl rfl))).mpr hmergeable⟩

/-- A statement in the place of the expression leaves null there. -/
theorem mergeNodeToAst_breaks_throw :
    WellFormed (throwHeap statementValue) throwTag.val ∧
      WellFormed (throwHeap statementValue) statementValue.val ∧
      Queued (throwHeap statementValue) throwTag.val throwInfo ∧
      ¬ KeepsWellFormed (throwHeap statementValue) throwTag.val throwInfo
        statementValue.val () := by
  have hroot : WellFormed (throwHeap statementValue) throwTag.val := wellFormed_throwTag
    (Or.inr rfl)
  have hvalue : WellFormed (throwHeap statementValue) statementValue.val :=
    .of_list [.ref 5, .ref 7] (by decide) (by decide) (by decide)
  have hqueued : Queued (throwHeap statementValue) throwTag.val throwInfo :=
    queued_throwTag (Or.inr rfl)
  refine ⟨hroot, hvalue, hqueued, fun hkeeps => ?_⟩
  have hstands : StandsAs (throwHeap statementValue) (.ref 3) true := Or.inl (by decide)
  have hmerge : KeepsWellFormed (throwHeap statementValue) throwTag.val throwInfo
      statementValue.val () ↔ Mergeable (throwHeap statementValue) throwInfo statementValue.val :=
    keepsWellFormed_value_iff (p := ("argument", .one .expr)) ⟨hroot, fun _ => hvalue⟩
      (by decide) (.child .root (by decide)) (by decide) (by decide)
      ⟨3, _, _, _, rfl, rfl⟩ hstands
  obtain hexprs | hlength := hmerge.mp hkeeps rfl
  · exact absurd hexprs (by decide)
  · exact hlength.2 (by decide)

end MetaMonkey.Staging
