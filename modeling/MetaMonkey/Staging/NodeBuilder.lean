import MetaMonkey.Staging.Tags

/-!
`NodeBuilder`: the nodes that the parser builds. Every builder function
defines the location, the type and then its own properties, in a fixed order.
-/

namespace MetaMonkey.Staging

open ObjectGraph Js AstNode

namespace NodeBuilder

/-- The types of nodes with the properties their builder functions define. -/
def nodeProps : List (String × List String) :=
  [("Program", ["body"]), ("BlockStatement", ["body"]), ("MetaQuaziStatement", ["body"]),
    ("MetaExecStatement", ["body"]), ("ExpressionStatement", ["expression"]),
    ("EmptyStatement", []), ("IfStatement", ["test", "consequent", "alternate"]),
    ("BreakStatement", ["label"]), ("ContinueStatement", ["label"]),
    ("LabeledStatement", ["label", "body"]), ("ThrowStatement", ["argument"]),
    ("ReturnStatement", ["argument"]), ("ForStatement", ["init", "test", "update", "body"]),
    ("ForInStatement", ["left", "right", "body", "each"]),
    ("ForOfStatement", ["left", "right", "body"]), ("WithStatement", ["object", "body"]),
    ("WhileStatement", ["test", "body"]), ("DoWhileStatement", ["body", "test"]),
    ("SwitchStatement", ["discriminant", "cases", "lexical"]),
    ("TryStatement", ["block", "guardedHandlers", "handler", "finalizer"]),
    ("DebuggerStatement", []), ("BinaryExpression", ["operator", "left", "right"]),
    ("UnaryExpression", ["operator", "argument", "prefix"]),
    ("AssignmentExpression", ["operator", "left", "right"]),
    ("UpdateExpression", ["operator", "argument", "prefix"]),
    ("LogicalExpression", ["operator", "left", "right"]),
    ("ConditionalExpression", ["test", "consequent", "alternate"]),
    ("SequenceExpression", ["expressions"]), ("CallExpression", ["callee", "arguments"]),
    ("NewExpression", ["callee", "arguments"]),
    ("MemberExpression", ["object", "property", "computed"]),
    ("ArrayExpression", ["elements"]), ("SpreadExpression", ["expression"]),
    ("Property", ["key", "value", "kind"]), ("ObjectExpression", ["properties"]),
    ("ThisExpression", []), ("YieldExpression", ["argument"]),
    ("ComprehensionBlock", ["left", "right", "each", "of"]),
    ("ComprehensionExpression", ["body", "blocks", "filter"]),
    ("GeneratorExpression", ["body", "blocks", "filter"]), ("LetExpression", ["head", "body"]),
    ("LetStatement", ["head", "body"]), ("VariableDeclaration", ["kind", "declarations"]),
    ("VariableDeclarator", ["id", "init"]), ("SwitchCase", ["test", "consequent"]),
    ("CatchClause", ["param", "guard", "body"]), ("Literal", ["value"]), ("Identifier", ["name"]),
    ("ObjectPattern", ["properties"]), ("ArrayPattern", ["elements"]),
    ("ModuleDeclaration", ["name", "body"]),
    ("FunctionDeclaration",
      ["id", "params", "defaults", "body", "rest", "generator", "expression"]),
    ("FunctionExpression",
      ["id", "params", "defaults", "body", "rest", "generator", "expression"]),
    ("ArrowExpression",
      ["id", "params", "defaults", "body", "rest", "generator", "expression"])]

/-- The names of the properties of a node. -/
def keys : Ast → List String
  | .record _ _ fields => fields.map Prod.fst
  | _ => []

/-- A node of a type, made by its builder function. -/
def Builds (e : String × List String) (t : Ast) : Prop :=
  keys t = "loc" :: "type" :: e.2 ∧ text t "type" = js e.1

instance (e : String × List String) (t : Ast) : Decidable (Builds e t) :=
  inferInstanceAs (Decidable (_ ∧ _))

end NodeBuilder

end MetaMonkey.Staging
