import MetaMonkey.Staging.StagedNodeIterator

/-!
The staged tags of an AST that is a tree. What a node is can be read off the
tree; the tags not inside a quasi are listed with the tags around them.
-/

namespace MetaMonkey.Staging

open ObjectGraph Js AstObjMng StagedNodeIterator

/-! ### Reading nodes of a tree -/

namespace AstNode

/-- A property of a node; other objects have none. -/
def child (t : Ast) (key : String) : Option Ast :=
  match t with
  | .record _ _ fields => fields.lookup key
  | _ => none

/-- A property as an object, if it is one. -/
def objChild (t : Ast) (key : String) : Option Ast :=
  match child t key with
  | none => none
  | some (.leaf v) => if valueToObject v = null then none else some (.leaf (valueToObject v))
  | some s => some s

/-- A property as a text. -/
def text (t : Ast) (key : String) : JSString :=
  match child t key with
  | some (.leaf (.leaf (.prim p))) => p.toJSString
  | some (.leaf (.leaf (.wrapper p))) => p.toJSString
  | _ => js "undefined"

def ofType (type key : String) (t : Ast) : Option Ast :=
  if equals (text t "type") type then objChild t key else none

def exprStmt : Ast → Option Ast := ofType "ExpressionStatement" "expression"

def metaExecStmt : Ast → Option Ast := ofType "MetaExecStatement" "body"

def metaQuaziStmt : Ast → Option Ast := ofType "MetaQuaziStatement" "body"

/-- The argument of a `.!` expression. -/
def metaInline (t : Ast) : Option Ast :=
  if equals (text t "operator") ".!" then ofType "UnaryExpression" "argument" t else none

/-- What an unquoted node is; `wrapped` says that it is the expression of the
statement around it. -/
def found (wrapped : Bool) (t : Ast) : Found :=
  match metaInline t with
  | some arg => if wrapped then .nothing else .inline true arg.val
  | none =>
      match (exprStmt t).bind metaInline with
      | some arg => .inline false arg.val
      | none =>
          match metaExecStmt t with
          | some body => if wrapped then .nothing else .exec true body.val
          | none =>
              match (exprStmt t).bind metaExecStmt with
              | some body => .exec false body.val
              | none => .nothing

end AstNode

open AstNode

/-- A node as the builder makes it, its location left out. -/
def node (a : ℕ) (type : String) (props : List (String × Ast)) : Ast :=
  .record a .plain (("loc", .leaf null) :: ("type", .leaf (string (js type))) :: props)

def identifier (a : ℕ) (name : String) : Ast :=
  node a "Identifier" [("name", .leaf (string (js name)))]

def exprStatement (a : ℕ) (expression : Ast) : Ast :=
  node a "ExpressionStatement" [("expression", expression)]

/-- The tag `.!`. -/
def inlineTag (a : ℕ) (argument : Ast) : Ast :=
  node a "UnaryExpression" [("operator", .leaf (string (js ".!"))), ("argument", argument),
    ("prefix", .leaf (boolean true))]

/-- The tag `.&`. -/
def execTag (a : ℕ) (body : Ast) : Ast := node a "MetaExecStatement" [("body", body)]

def program (a b : ℕ) (stmts : List Ast) : Ast := node a "Program" [("body", .array b stmts)]

/-! ### The tags of a tree -/

/-- What a visitor is told about a tag. -/
structure Report where
  isExec : Bool
  info : NodeInfo
  body : Value
  depth : ℕ
  deriving DecidableEq

/-- A tag with its node and the kinds of the unquoted tags around it, `true`
for `.&`. -/
structure Tag where
  isExec : Bool
  node : Value
  info : NodeInfo
  body : Value
  above : List Bool
  deriving DecidableEq

/-- The tag itself and the unquoted tags around it. -/
def Tag.depth (tag : Tag) : ℕ := tag.above.length + 1

def Tag.report (tag : Tag) : Report := ⟨tag.isExec, tag.info, tag.body, tag.depth⟩

/-- A `.&` tag below a `.!` tag. -/
def Tag.Misplaced (tag : Tag) : Prop := tag.isExec = true ∧ false ∈ tag.above

instance (tag : Tag) : Decidable tag.Misplaced := inferInstanceAs (Decidable (_ ∧ _))

/-- The properties of a node in the order of their definition or, with `rev`,
in that of the walk. -/
def inWalk {β : Type} (rev : Bool) (l : List (List β)) : List β :=
  (if rev then l.reverse else l).flatten

mutual

/-- The unquoted tags of a node that stands at `info`, with those below it. -/
def tagsAt (rev : Bool) (above : List Bool) (wrapped : Bool) (info : Bool → NodeInfo) :
    Ast → List Tag
  | .leaf _ => []
  | .array a elems => tagsElems rev above (.ref a) elems
  | .record a cls fields =>
      let t : Ast := .record a cls fields
      let isStmt := equals (text t "type") "ExpressionStatement"
      if (metaQuaziStmt t).isSome then []
      else
        match found wrapped t with
        | .nothing => inWalk rev (tagsFields rev above (.ref a) isStmt fields)
        | .inline isExpr arg =>
            ⟨false, .ref a, info isExpr, arg, above⟩ ::
              inWalk rev (tagsFields rev (false :: above) (.ref a) isStmt fields)
        | .exec isExpr body =>
            ⟨true, .ref a, info isExpr, body, above⟩ ::
              inWalk rev (tagsFields rev (true :: above) (.ref a) isStmt fields)

/-- The tags below each property of a node. -/
def tagsFields (rev : Bool) (above : List Bool) (parent : Value) (isStmt : Bool) :
    List (String × Ast) → List (List Tag)
  | [] => []
  | (key, t) :: rest =>
      tagsAt rev above (isStmt && key = "expression")
        (fun isExpr => ⟨isExpr, parent, .inr key⟩) t ::
        tagsFields rev above parent isStmt rest

def tagsElems (rev : Bool) (above : List Bool) (array : Value) : List Ast → List Tag
  | [] => []
  | t :: rest =>
      tagsAt rev above false (fun isExpr => ⟨isExpr, array, .inl t.val⟩) t ++
        tagsElems rev above array rest

end

/-- The unquoted tags below the root of an AST. -/
def tagsBelow (rev : Bool) : Ast → List Tag
  | .record a cls fields =>
      let t : Ast := .record a cls fields
      inWalk rev (tagsFields rev [] (.ref a) (equals (text t "type") "ExpressionStatement") fields)
  | _ => []

/-- Each unquoted tag once. -/
def tagsOf (t : Ast) : List Tag := tagsBelow false t

theorem tagsFields_eq (rev : Bool) (above : List Bool) (parent : Value) (isStmt : Bool)
    (fields : List (String × Ast)) :
    tagsFields rev above parent isStmt fields = fields.map fun f =>
      tagsAt rev above (isStmt && f.1 = "expression")
        (fun isExpr => ⟨isExpr, parent, .inr f.1⟩) f.2 := by
  induction fields with
  | nil => rfl
  | cons f fields ih => rw [tagsFields, ih]; rfl

theorem tagsElems_eq (rev : Bool) (above : List Bool) (array : Value) (elems : List Ast) :
    tagsElems rev above array elems = elems.flatMap fun t =>
      tagsAt rev above false (fun isExpr => ⟨isExpr, array, .inl t.val⟩) t := by
  induction elems with
  | nil => rfl
  | cons t elems ih => rw [tagsElems, ih]; rfl

theorem inWalk_perm {β : Type} (l : List (List β)) : (inWalk true l).Perm (inWalk false l) :=
  List.Perm.flatten (List.reverse_perm l)

/-! ### Trees the walk is made for -/

def textual : Option Ast → Bool
  | none => true
  | some (.leaf (.leaf _)) => true
  | _ => false

/-- The elements of an array are objects other than arrays. -/
def elemsRegular : Ast → Bool
  | .array _ elems => elems.all fun e => match e with
      | .leaf v => valueToObject v ≠ null
      | .record .. => true
      | .array .. => false
  | _ => true

/-- The types and operators of nodes are texts. -/
def Textual (t : Ast) : Prop :=
  ∀ s ∈ t.subtrees, textual (child s "type") = true ∧ textual (child s "operator") = true

instance (t : Ast) : Decidable (Textual t) :=
  inferInstanceAs (Decidable (∀ s ∈ t.subtrees, _))

/-- The types and operators of nodes are texts, and no array holds a null or
another array. -/
def Regular (t : Ast) : Prop :=
  ∀ s ∈ t.subtrees, textual (child s "type") = true ∧ textual (child s "operator") = true ∧
    elemsRegular s = true

instance (t : Ast) : Decidable (Regular t) :=
  inferInstanceAs (Decidable (∀ s ∈ t.subtrees, _))

end MetaMonkey.Staging
