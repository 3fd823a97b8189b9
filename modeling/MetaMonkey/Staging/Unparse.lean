import MetaMonkey.Js.Access
import Mathlib.Data.List.Range

/-!
`unparse`: the printer of ASTs. Its state is the flag `ignorecprec`. A string
pointer may be null, and an indentation may be a pointer that was never set.
The fuel of a printer is the depth of the native stack.
-/

namespace MetaMonkey.Staging

open ObjectGraph Js

abbrev Print := JsM Bool

/-- A `JSString *`. -/
abbrev Text := Option JSString

/-- The texts of `standarJsSrcNames` and others. -/
def lit (s : String) : Text := some (js s)

namespace Unparse

/-! ### Strings -/

/-- `JS_JoinStrings` skips null pointers. -/
def joinStrings (strs : List Text) : Text := some (strs.flatMap fun s => s.getD [])

/-- `JS_JoinStringVector`, whose steps follow the pointers. -/
def joinStringVector (strs : List Text) (sep prf suf : Text) : Print Text :=
  match strs with
  | [] => pure none
  | [str] => pure (joinStrings [prf, str, suf])
  | _ =>
      match strs.mapM id with
      | some texts => pure (joinStrings [prf, some (List.intercalate (sep.getD []) texts), suf])
      | none => throw .crash

def joinVector (strs : List Text) : Print Text := joinStringVector strs none none none

/-- A pointer that is followed. -/
def deref (s : Text) : Print JSString :=
  match s with
  | some s => pure s
  | none => throw .crash

def wrapExpr (s : Text) (cprec xprec : ℕ) : Print Text := do
  if xprec ≤ cprec ∧ (← get).2 = false then
    return joinStrings [lit "(", s, lit ")"]
  else
    return s

/-! ### Reading the AST -/

def toObj (val : Value) (name : String) : Print Value :=
  reads fun h => getPropertyToObj h val name

def toStr (val : Value) (name : String) : Print JSString :=
  reads fun h => getPropertyToString h val name

def prop (val : Value) (name : String) : Print Value :=
  reads fun h => getProperty h val name

def arrayLength (arr : Value) : Print ℕ := reads fun h => getArrayLength h arr

def elementToObj (arr : Value) (i : ℕ) : Print Value :=
  reads fun h => getArrayElementToObj h arr i

/-- A test after which the call gives up. -/
def require (cond : Bool) : Print Unit := if cond then pure () else throw .jsFalse

/-- The object whose escape a node is: `.~`, alone or as a statement. -/
structure Escape where
  fromStmt : Bool
  node : Option Value

/-- `objectContainEscapeExpr` -/
def objectContainEscapeExpr (typeStr : JSString) (exprObj : Value) : Print (Option Value) := do
  if equals typeStr "UnaryExpression" then
    let opStr ← toStr exprObj "operator"
    return if equals opStr ".~" then some exprObj else none
  return none

def objectContainEscape (obj : Value) : Print Escape := do
  let typeStr ← toStr obj "type"
  if equals typeStr "ExpressionStatement" then
    let node ← toObj obj "expression"
    let typeStr ← toStr node "type"
    return ⟨true, ← objectContainEscapeExpr typeStr node⟩
  else
    return ⟨false, ← objectContainEscapeExpr typeStr obj⟩

def objectContainEscapejsvalue (obj : Value) : Print (Option Value) := do
  let typeExprStr ← toStr obj "type"
  if equals typeExprStr "UnaryExpression" then
    let opStr ← toStr obj "operator"
    if equals opStr ".@" then
      return some (← toObj obj "argument")
  return none

def isIdentifierStart (c : UInt8) : Bool :=
  c = 95 || c = 36 || (65 ≤ c && c ≤ 90) || (97 ≤ c && c ≤ 122)

def isIdentifierPart (c : UInt8) : Bool := isIdentifierStart c || (48 ≤ c && c ≤ 57)

def isBadIdentifier (val : Value) : Print Bool := do
  let typeStr ← toStr val "type"
  if equals typeStr "Identifier" then
    let nameStr ← toStr val "name"
    match encodeString nameStr with
    | [] => return true
    | c :: cs => return !(isIdentifierStart c && cs.all isIdentifierPart)
  else
    return false

def precedence : List (String × ℕ) :=
  [("||", 5), ("&&", 6), ("|", 7), ("^", 8), ("&", 9), ("==", 10), ("!=", 10), ("===", 10),
    ("!==", 10), ("<", 11), ("<=", 11), (">", 11), (">=", 11), ("in", 11), ("instanceof", 11),
    ("<<", 12), (">>", 12), (">>>", 12), ("+", 13), ("-", 13), ("*", 14), ("/", 14), ("%", 14)]

/-- Zero for an operator without precedence. -/
def getPrecedence (key : JSString) : ℕ :=
  ((precedence.find? fun e => equalsChars key e.1).map Prod.snd).getD 0

/-! ### The recursive calls -/

/-- `unparse_expr`, `unparse_sourceElement` and `stringifyObject`, as far as
the stack reaches. -/
structure Printer where
  expr (exprVal : Value) (indent : Text) (cprec : ℕ) (noIn : Bool) : Print Text
  sourceElement (val : Value) (indent : Text) : Print Text
  stringify (obj : Value) : Print Text

/-- The printer without stack. -/
def Printer.exhausted : Printer where
  expr _ _ _ _ := throw .crash
  sourceElement _ _ := throw .crash
  stringify _ := throw .crash

variable (p : Printer)

/-! ### Helpers -/

/-- `unparse_values`: the loop over an array of nodes. -/
def unparseValues (obj : Value) (apply : Value → Print Text) : Print (List Text) := do
  let isArray ← reads fun h => isArrayObject h obj
  require isArray
  let lengthp ← arrayLength obj
  (List.range lengthp).mapM fun i => do
    let nodeObj ← elementToObj obj i
    require (nodeObj ≠ null)
    apply nodeObj

/-- `declValueApplier`. The indentation of the pattern is `fourHash`, which is
never set. -/
def declValue (noIn : Bool) (nodeObj : Value) : Print Text := do
  let typeStr ← toStr nodeObj "type"
  require (equals typeStr "VariableDeclarator")
  let idObj ← toObj nodeObj "id"
  let pattStr ← p.expr idObj none 3 false
  let initObj ← toObj nodeObj "init"
  if initObj ≠ null then
    let rvalStr ← p.expr initObj (lit "") 2 noIn
    return joinStrings [pattStr, lit " ", lit "=", lit " ", rvalStr]
  else
    require pattStr.isSome
    return pattStr

def declarators (decls : Value) (noIn : Bool) : Print Text := do
  let children ← unparseValues decls (declValue p noIn)
  joinStringVector children (lit ", ") none none

def substmt (obj : Value) (indent : Text) (more : Bool) : Print Text := do
  let typeStr ← toStr obj "type"
  if equals typeStr "BlockStatement" then
    let body ← deref (← p.sourceElement obj indent)
    let indent ← deref indent
    let s := body.drop indent.length
    if more then
      return joinStrings [lit " ", some s.dropLast, lit " "]
    else
      return joinStrings [lit " ", some s]
  else
    let indent := joinStrings [some (← deref indent), lit "    "]
    let body ← p.sourceElement obj indent
    return if more then joinStrings [lit "\n", body, indent] else joinStrings [lit "\n", body]

def args (values : Value) : Print Text := do
  let children ← unparseValues values fun nodeObj => p.expr nodeObj (lit "") 2 false
  if children.length > 0 then
    joinStringVector children (lit ", ") (lit "(") (lit ")")
  else
    return joinStrings [lit "(", lit ")"]

def params (values : Value) : Print Text := do
  let children ← unparseValues values fun nodeObj => p.expr nodeObj (lit "####") 0 false
  if children.isEmpty then
    joinVector [lit "(", lit ")"]
  else
    joinStringVector children (lit ", ") (lit "(") (lit ")")

def unexpected (node : Value) : Print Text := do
  let _typeStr ← toStr node "type"
  let locObj ← toObj node "loc"
  let locStartObj ← toObj locObj "start"
  let sourceStr ← toStr locObj "source"
  let _startLineStr ← toStr locStartObj "line"
  joinVector [lit " at ", some sourceStr, lit ":", lit "Unexpected parse node type: "]

/-- A string that a failed call leaves unset, and that is then followed. -/
def orUnset (x : Print Text) : Print Text := fun s =>
  match x s with
  | .error .jsFalse s' => .error .crash s'
  | r => r

def forHead (val : Value) (indent : Text) : Print Text := do
  let leftObj ← toObj val "left"
  let typeStr ← toStr leftObj "type"
  let lhs ←
    if equals typeStr "VariableDeclaration" then do
      let kindStr ← toStr leftObj "kind"
      let declarObj ← toObj leftObj "declarations"
      let declarStr ← declarators p declarObj true
      pure [some kindStr, lit " ", declarStr]
    else do
      let expressionStr ← p.expr leftObj indent 0 false
      pure [expressionStr]
  let lhsStr ← joinVector lhs
  let eachVal ← prop val "each"
  let each := if toBoolean eachVal then [lit "each"] else []
  let rightObj ← toObj val "right"
  let rightStr ← p.expr rightObj indent 0 false
  joinVector ([lit "for", lit " "] ++ each ++
    [lit "(", lhsStr, lit " ", lit "in", lit " ", rightStr, lit ")"])

def comprehension (val : Value) (indent : Text) : Print Text := do
  let bodyObj ← toObj val "body"
  let bodyStr ← p.expr bodyObj indent 2 false
  let blocksObj ← toObj val "blocks"
  let blocksLen ← arrayLength blocksObj
  let blocks ← (List.range blocksLen).mapM fun i => do
    let blocksNodeObj ← elementToObj blocksObj i
    let forHeadStr ← forHead p blocksNodeObj indent
    return [lit " ", forHeadStr]
  let filterVal ← prop val "filter"
  let filter ←
    if isObject filterVal then do
      let filterStr ← p.expr (valueToObject filterVal) indent 0 false
      pure [lit "if (", filterStr, lit ")"]
    else pure []
  joinVector ([bodyStr] ++ blocks.flatten ++ filter)

def setIgnorecprec (b : Bool) : Print Unit := modify fun s => (s.1, b)

def functionDeclaration (funcInitStr : Text) (id val : Value) (indent : Text) : Print Text := do
  let funcNameStr ←
    if isNullOrUndefined id then pure []
    else do
      let name ← p.expr (valueToObject id) (lit "####") 18 false
      pure (if name.isSome then [name] else [])
  let exprProp ← prop val "expression"
  let bodyObj ← toObj val "body"
  let bodyStr ←
    if isNullOrUndefined exprProp || exprProp = boolean false then
      substmt p bodyObj indent false
    else do
      let bodyStr ← deref (← p.expr bodyObj indent 2 false)
      -- the character at position zero of an empty string is a NUL
      if bodyStr.head? = some 123 then
        pure (joinStrings [lit " ", lit "(", some bodyStr, lit ")"])
      else
        pure (joinStrings [lit " ", some bodyStr])
  let paramsObj ← toObj val "params"
  setIgnorecprec true
  let paramsStr ← params p paramsObj
  setIgnorecprec false
  joinVector ([funcInitStr, lit " "] ++ funcNameStr ++ [paramsStr, bodyStr])

/-! ### Expressions -/

def exprArray (val : Value) (indent : Text) (_cprec : ℕ) (_noIn : Bool) : Print Text := do
  let arrayObj ← toObj val "elements"
  let arrayLen ← arrayLength arrayObj
  let children ← (List.range arrayLen).mapM fun i => do
    let nodeObj ← elementToObj arrayObj i
    let comma := if i ≠ arrayLen - 1 ∨ nodeObj = null then [lit ","] else []
    if nodeObj ≠ null then
      let nodeStr ← p.expr nodeObj indent 2 false
      return (if i ≠ 0 then [lit " "] else []) ++ [nodeStr] ++ comma
    else
      return comma
  joinVector ([lit "["] ++ children.flatten ++ [lit "]"])

/-- A property of an object literal. -/
def propertyText (val propObj : Value) (indent : Text) : Print (List Text) := do
  let kindStr ← toStr propObj "kind"
  if equals kindStr "init" then
    let keyObj ← toObj propObj "key"
    let valueObj ← toObj propObj "value"
    let initKeyStr ← p.expr keyObj indent 18 false
    let initValueStr ← p.expr valueObj indent 2 false
    return [initKeyStr, lit ": ", initValueStr]
  else if equals kindStr "get" || equals kindStr "set" then
    let keyVal ← prop propObj "key"
    let valueObj ← toObj propObj "value"
    let functionStr ← functionDeclaration p (some kindStr) keyVal valueObj indent
    return [functionStr]
  else
    let unexpectedStr ← orUnset (unexpected val)
    return [unexpectedStr]

def exprObj (val : Value) (indent : Text) (_cprec : ℕ) (_noIn : Bool) : Print Text := do
  let propertiesObj ← toObj val "properties"
  let propertiesLen ← arrayLength propertiesObj
  let children ← (List.range propertiesLen).mapM fun i => do
    let propObj ← elementToObj propertiesObj i
    let texts ← propertyText p val propObj indent
    return texts ++ (if i ≠ propertiesLen - 1 then [lit ","] else [])
  joinVector ([lit "\x7b"] ++ children.flatten ++ [lit "\x7d"])

def exprGraph (val : Value) (indent : Text) (_cprec : ℕ) (_noIn : Bool) : Print Text := do
  let indexStr ← toStr val "index"
  let expressionObj ← toObj val "expression"
  let expressionStr ← p.expr expressionObj indent 18 false
  return joinStrings [lit "#", some indexStr, lit "=", expressionStr]

def exprGraphIndx (val : Value) (_indent : Text) (_cprec : ℕ) (_noIn : Bool) : Print Text := do
  let indexStr ← toStr val "index"
  return joinStrings [lit "#", some indexStr, lit "#"]

def exprLet (val : Value) (indent : Text) (cprec : ℕ) (_noIn : Bool) : Print Text := do
  let headObj ← toObj val "head"
  let bodyObj ← toObj val "body"
  let headStr ← declarators p headObj false
  let expressionStr ← p.expr bodyObj indent 2 false
  wrapExpr (joinStrings [lit "var (", headStr, lit ")", lit " ", expressionStr]) cprec 3

def exprGen (val : Value) (indent : Text) (_cprec : ℕ) (_noIn : Bool) : Print Text := do
  let compreStr ← comprehension p val indent
  return joinStrings [lit "(", compreStr, lit ")"]

def exprComprehen (val : Value) (indent : Text) (_cprec : ℕ) (_noIn : Bool) : Print Text := do
  let compreStr ← comprehension p val indent
  return joinStrings [lit "[", compreStr, lit "]"]

def exprYield (val : Value) (indent : Text) (cprec : ℕ) (_noIn : Bool) : Print Text := do
  let argumentVal ← prop val "argument"
  let argument ←
    if isObject argumentVal then do
      let argumentStr ← p.expr (valueToObject argumentVal) indent 2 false
      pure [argumentStr]
    else pure []
  wrapExpr (← joinVector ([lit "yield"] ++ argument)) cprec 1

def exprSequence (val : Value) (indent : Text) (cprec : ℕ) (noIn : Bool) : Print Text := do
  let expressionsObj ← toObj val "expressions"
  let expressionsLen ← arrayLength expressionsObj
  let children ← (List.range expressionsLen).mapM fun i => do
    let propObj ← elementToObj expressionsObj i
    let exprStr ← p.expr propObj indent 2 noIn
    return [exprStr] ++ (if i ≠ expressionsLen - 1 then [lit ","] else [])
  wrapExpr (← joinVector children.flatten) cprec 2

def exprCond (val : Value) (indent : Text) (cprec : ℕ) (noIn : Bool) : Print Text := do
  let testObj ← toObj val "test"
  let testStr ← p.expr testObj indent 4 noIn
  let consequentObj ← toObj val "consequent"
  let consequentStr ← p.expr consequentObj indent 0 noIn
  let alternateObj ← toObj val "alternate"
  let alternateStr ← p.expr alternateObj indent 3 noIn
  wrapExpr (joinStrings [testStr, lit "?", consequentStr, lit ":", alternateStr]) cprec 4

def exprIndent (val : Value) (_indent : Text) (cprec : ℕ) (_noIn : Bool) : Print Text := do
  let indentifier ← toStr val "name"
  if equals indentifier "NaN" then
    wrapExpr (lit "0 / 0") cprec 14
  else
    return some indentifier

/-- No value is an object of the class of `RegExpStatics`, so regular
expressions go to `JSON.stringify` with the others. -/
def exprLiteral (val : Value) (_indent : Text) (cprec : ℕ) (_noIn : Bool) : Print Text := do
  let value ← prop val "value"
  let liter ← reads fun h => valueToString h value
  if equals liter "Infinity" then
    wrapExpr (lit "1e999") cprec 19
  else if equals liter "-Infinity" then
    wrapExpr (lit "-1e999") cprec 15
  else
    let liter ← reads fun h => jsonStringify h value
    match value with
    | number _ =>
        if cprec = 17 then return joinStrings [lit "(", some liter, lit ")"]
        else return some liter
    | _ => return some liter

def exprCall (val : Value) (indent : Text) (cprec : ℕ) (_noIn : Bool) : Print Text := do
  let calleeObj ← toObj val "callee"
  let exprStr ← p.expr calleeObj indent 17 false
  let argsObj ← toObj val "arguments"
  let argsStr ← args p argsObj
  wrapExpr (joinStrings [exprStr, argsStr]) cprec 18

def exprNew (val : Value) (indent : Text) (cprec : ℕ) (_noIn : Bool) : Print Text := do
  let argsObj ← toObj val "arguments"
  let argsLen ← arrayLength argsObj
  let calleeObj ← toObj val "callee"
  let exprStr ← p.expr calleeObj indent 18 false
  if argsLen = 0 then
    wrapExpr (joinStrings [lit "new", lit " ", exprStr]) cprec 17
  else
    let argsStr ← args p argsObj
    wrapExpr (joinStrings [lit "new", lit " ", exprStr, argsStr]) cprec 17

def exprThis (_val : Value) (_indent : Text) (_cprec : ℕ) (_noIn : Bool) : Print Text :=
  return lit "this"

def exprMember (val : Value) (indent : Text) (cprec : ℕ) (noIn : Bool) : Print Text := do
  let objectObj ← toObj val "object"
  let objectStr ← p.expr objectObj indent 17 false
  let propertyObj ← toObj val "property"
  let computedVal ← prop val "computed"
  let access ←
    if toBoolean computedVal then do
      let propertyStr ← p.expr propertyObj indent 0 false
      pure [lit "[", propertyStr, lit "]"]
    else do
      let isBad ← isBadIdentifier propertyObj
      if isBad then
        let nameStr ← exprIndent propertyObj indent cprec noIn
        pure [lit "[", lit "\"", nameStr, lit "\"", lit "]"]
      else
        let propertyStr ← p.expr propertyObj indent 18 false
        pure [lit ".", propertyStr]
  wrapExpr (← joinVector ([objectStr] ++ access)) cprec 18

/-- `expr_metaQuazi`: the type is put back only when all went well. -/
def exprMetaQuazi (val : Value) (_indent : Text) (_cprec : ℕ) (_noIn : Bool) : Print Text := do
  let quzaiTypeStr ← toStr val "type"
  writes fun h => setProperty h val "type" (string (js "Program"))
  let child ← p.stringify val
  writes fun h => setProperty h val "type" (string quzaiTypeStr)
  return child

def exprMetaExec (val : Value) (indent : Text) (_cprec : ℕ) (_noIn : Bool) : Print Text := do
  let bodyObj ← toObj val "body"
  let bodySubStmtStr ← substmt p bodyObj indent false
  return joinStrings [lit ".&", bodySubStmtStr]

def exprUnary (val : Value) (indent : Text) (cprec : ℕ) (_noIn : Bool) : Print Text := do
  let argumentObj ← toObj val "argument"
  let operatorStr ← toStr val "operator"
  let opStr :=
    if equals operatorStr "typeof" || equals operatorStr "void" || equals operatorStr "delete" then
      joinStrings [some operatorStr, lit " "]
    else some operatorStr
  let argumentStr ← p.expr argumentObj indent 15 false
  let prefixVal ← prop val "prefix"
  let child :=
    if toBoolean prefixVal then joinStrings [opStr, argumentStr]
    else joinStrings [argumentStr, opStr]
  wrapExpr child cprec 15

/-- The loop down the left operands compares the type of the node with
itself, so it ends at once. -/
def exprLogic (val : Value) (indent : Text) (cprec : ℕ) (noIn : Bool) : Print Text := do
  let opStr ← toStr val "operator"
  let prec := getPrecedence opStr
  require (prec ≠ 0)
  let parens := (equals opStr "in" && noIn) || prec ≤ cprec
  let noIn := noIn && !parens
  let rightObj ← toObj val "right"
  require (rightObj ≠ null)
  let firstExprStr ← p.expr rightObj indent prec (noIn && prec ≤ 11)
  let lChildObj ← toObj val "left"
  let lastPrec := prec - 1
  let lastExprStr ← p.expr lChildObj indent lastPrec (noIn && lastPrec ≤ 11)
  let child ← joinStringVector [lastExprStr, some opStr, firstExprStr] (lit " ") none none
  return if parens then joinStrings [lit "(", child, lit ")"] else child

def exprAssign (val : Value) (indent : Text) (cprec : ℕ) (noIn : Bool) : Print Text := do
  let leftObj ← toObj val "left"
  let leftStr ← p.expr leftObj indent 3 noIn
  let rightObj ← toObj val "right"
  let rightStr ← p.expr rightObj indent 2 noIn
  let opStr ← toStr val "operator"
  wrapExpr (joinStrings [leftStr, lit " ", some opStr, lit " ", rightStr]) cprec 3

def exprFunc (val : Value) (indent : Text) (cprec : ℕ) (_noIn : Bool) : Print Text := do
  let idVal ← prop val "id"
  let functionStr ← functionDeclaration p (lit "function") idVal val indent
  let expressionObj ← toObj val "expression"
  wrapExpr functionStr cprec (if expressionObj ≠ null then 3 else 19)

def exprObjpattern (val : Value) (indent : Text) (_cprec : ℕ) (_noIn : Bool) : Print Text := do
  let propertiesObj ← toObj val "properties"
  let propertiesLen ← arrayLength propertiesObj
  let children ← (List.range propertiesLen).mapM fun i => do
    let propObj ← elementToObj propertiesObj i
    let keyObj ← toObj propObj "key"
    let valueObj ← toObj propObj "value"
    let keyStr ← p.expr keyObj (lit "####") 18 false
    let valueStr ← p.expr valueObj indent 2 false
    return [keyStr, lit ": ", valueStr] ++ (if i ≠ propertiesLen - 1 then [lit ", "] else [])
  joinVector ([lit "\x7b"] ++ children.flatten ++ [lit "\x7d"])

/-- `stringifyExprHandlerMapInst` -/
def exprHandlers : List (String × (Value → Text → ℕ → Bool → Print Text)) :=
  [("ArrayExpression", exprArray p), ("ArrayPattern", exprArray p),
    ("ObjectExpression", exprObj p), ("GraphExpression", exprGraph p),
    ("GraphIndexExpression", exprGraphIndx), ("LetExpression", exprLet p),
    ("GeneratorExpression", exprGen p), ("ComprehensionExpression", exprComprehen p),
    ("YieldExpression", exprYield p), ("SequenceExpression", exprSequence p),
    ("ConditionalExpression", exprCond p), ("Identifier", exprIndent),
    ("Literal", exprLiteral), ("CallExpression", exprCall p), ("NewExpression", exprNew p),
    ("ThisExpression", exprThis), ("MemberExpression", exprMember p),
    ("MetaQuaziStatement", exprMetaQuazi p), ("MetaExecStatement", exprMetaExec p),
    ("UnaryExpression", exprUnary p), ("UpdateExpression", exprUnary p),
    ("LogicalExpression", exprLogic p), ("BinaryExpression", exprLogic p),
    ("AssignmentExpression", exprAssign p), ("FunctionExpression", exprFunc p),
    ("ObjectPattern", exprObjpattern p)]

/-- `unparse_expr` -/
def unparseExpr (exprVal : Value) (indent : Text) (cprec : ℕ) (noIn : Bool) : Print Text := do
  let typeStr ← toStr exprVal "type"
  match (exprHandlers p).find? fun e => equalsChars typeStr e.1 with
  | some (_, handler) => handler exprVal indent cprec noIn
  | none => throw .jsFalse

/-! ### Statements -/

def stmtBlock (val : Value) (indent : Text) : Print Text := do
  let bodyObj ← toObj val "body"
  let stmts ← unparseValues bodyObj fun nodeObj => p.sourceElement nodeObj (lit "    ")
  let stmtsStr ← joinVector stmts
  let indent ← deref indent
  return joinStrings [some indent, lit "\x7b", lit "\n", stmtsStr, some indent, lit "\x7d",
    lit "\n"]

def stmtVariableDeclaration (val : Value) (indent : Text) : Print Text := do
  let kindStr ← toStr val "kind"
  let declObj ← toObj val "declarations"
  let declStr ← declarators p declObj false
  return joinStrings [some (← deref indent), some kindStr, lit " ", declStr, lit ";\n"]

def stmtEmpty (_val : Value) (indent : Text) : Print Text := do
  return joinStrings [some (← deref indent), lit ";", lit "\n"]

/-- The texts that `regx` finds at the start of a statement. -/
def startsLikeStmt (chars : List UInt8) : Bool :=
  (encodeString (js "function ")).isPrefixOf chars || (encodeString (js "var ")).isPrefixOf chars ||
    (encodeString (js "\x7b")).isPrefixOf chars

def stmtExpression (val : Value) (indent : Text) : Print Text := do
  let exprObj ← toObj val "expression"
  let exprStr ← deref (← p.expr exprObj indent 0 false)
  let indent ← deref indent
  if startsLikeStmt (encodeString exprStr) then
    joinVector [some indent, lit "(", some exprStr, lit ")", lit ";\n"]
  else
    joinVector [some indent, some exprStr, lit ";\n"]

def stmtLet (val : Value) (indent : Text) : Print Text := do
  let headObj ← toObj val "head"
  let bodyObj ← toObj val "body"
  let headStr ← declarators p headObj false
  let bodyStr ← substmt p bodyObj indent false
  joinVector [some (← deref indent), lit "var (", headStr, lit ")", bodyStr]

def stmtIf (val : Value) (indent : Text) : Print Text := do
  let alternateVal ← prop val "alternate"
  let gotElse := alternateVal ≠ null
  require (!gotElse || isObject alternateVal)
  let testObj ← toObj val "test"
  let ifCondStr ← p.expr testObj indent 0 false
  let consequentObj ← toObj val "consequent"
  let ifSubStmtStr ← substmt p consequentObj indent gotElse
  let elseStrs ←
    if gotElse then do
      let alternateObj ← toObj val "alternate"
      let elseSubStmtStr ← substmt p alternateObj indent false
      pure [lit "else", elseSubStmtStr]
    else pure []
  joinVector ([some (← deref indent), lit "if (", ifCondStr, lit ")", ifSubStmtStr] ++ elseStrs)

def stmtWhile (val : Value) (indent : Text) : Print Text := do
  let testObj ← toObj val "test"
  let bodyObj ← toObj val "body"
  let whileCondStr ← p.expr testObj indent 0 false
  let bodySubStmtStr ← substmt p bodyObj indent false
  let indent ← deref indent
  return joinStrings [some indent, lit "while (", whileCondStr, lit ")", bodySubStmtStr,
    some indent]

/-- The test or the update of a `for`. -/
def forPart (val : Value) (name : String) (indent : Text) : Print (List Text) := do
  let partVal ← prop val name
  if isObject partVal then
    let exprStr ← p.expr (valueToObject partVal) indent 0 false
    return [lit " ", exprStr]
  else
    return []

def stmtFor (val : Value) (indent : Text) : Print Text := do
  let initVal ← prop val "init"
  let init ←
    if isObject initVal then do
      let initObj := valueToObject initVal
      let initTypeStr ← toStr initObj "type"
      if equals initTypeStr "VariableDeclaration" then
        let initKindStr ← toStr initObj "kind"
        let declObj ← toObj initObj "declarations"
        let declStr ← declarators p declObj true
        pure [some initKindStr, lit " ", declStr]
      else
        let initExprStr ← p.expr initObj indent 0 true
        pure [initExprStr]
    else pure []
  let test ← forPart p val "test" indent
  let update ← forPart p val "update" indent
  let bodyObj ← toObj val "body"
  let forBodyStr ← substmt p bodyObj indent false
  joinVector ([lit "for ("] ++ init ++ [lit ";"] ++ test ++ [lit ";"] ++ update ++
    [lit ")", forBodyStr])

def stmtForin (val : Value) (indent : Text) : Print Text := do
  let forHeadStr ← forHead p val indent
  let bodyObj ← toObj val "body"
  let bodyStr ← substmt p bodyObj indent false
  return joinStrings [some (← deref indent), forHeadStr, bodyStr]

def stmtDowhile (val : Value) (indent : Text) : Print Text := do
  let bodyObj ← toObj val "body"
  let bodyStr ← substmt p bodyObj indent true
  let testObj ← toObj val "test"
  let testStr ← p.expr testObj indent 0 false
  return joinStrings [some (← deref indent), lit "do", bodyStr, lit "while (", testStr, lit ")",
    lit ";\n"]

/-- `stmt_continue` and `stmt_break`, which have the same body. -/
def stmtJump (keyword : String) (val : Value) (indent : Text) : Print Text := do
  let labelVal ← prop val "label"
  let label ←
    if isObject labelVal then do
      let nameStr ← toStr (valueToObject labelVal) "name"
      pure [lit " ", some nameStr]
    else pure []
  joinVector ([some (← deref indent), lit keyword] ++ label ++ [lit ";\n"])

def stmtContinue : Value → Text → Print Text := stmtJump "continue"

def stmtBreak : Value → Text → Print Text := stmtJump "break"

def stmtReturn (val : Value) (indent : Text) : Print Text := do
  let argVal ← prop val "argument"
  let arg ←
    if isObject argVal then do
      let exprStr ← p.expr (valueToObject argVal) indent 17 false
      pure [lit " ", exprStr]
    else pure []
  joinVector ([some (← deref indent), lit "return"] ++ arg ++ [lit ";\n"])

/-- The object is printed and then left out. -/
def stmtWith (val : Value) (indent : Text) : Print Text := do
  let objectObj ← toObj val "object"
  let _objectStr ← p.expr objectObj indent 0 false
  let bodyObj ← toObj val "body"
  let bodyStr ← substmt p bodyObj indent false
  return joinStrings [some (← deref indent), lit "with (", lit ")", bodyStr]

def stmtLabeled (val : Value) (indent : Text) : Print Text := do
  let labelObj ← toObj val "label"
  let nameStr ← toStr labelObj "name"
  let bodyObj ← toObj val "body"
  let bodyStr ← p.sourceElement bodyObj indent
  return joinStrings [some nameStr, lit ": ", bodyStr]

/-- A case of a `switch`. -/
def switchCase (caseObj : Value) (indent : Text) (deeperStr : Text) : Print (List Text) := do
  let testVal ← prop caseObj "test"
  let label ←
    if isObject testVal then do
      let testStr ← p.expr (valueToObject testVal) indent 0 false
      pure [lit "case", lit " ", testStr]
    else pure [lit "default"]
  let stmtsObj ← toObj caseObj "consequent"
  let stmtsLen ← arrayLength stmtsObj
  let stmts ← (List.range stmtsLen).mapM fun j => do
    let stmtObj ← elementToObj stmtsObj j
    p.sourceElement stmtObj deeperStr
  return [indent] ++ label ++ [lit ":", lit "\n"] ++ stmts

def stmtSwitch (val : Value) (indent : Text) : Print Text := do
  let discriminantObj ← toObj val "discriminant"
  let discriminantStr ← p.expr discriminantObj indent 0 false
  let indent := some (← deref indent)
  let deeperStr := joinStrings [indent, lit "    "]
  let casesObj ← toObj val "cases"
  let casesLen ← arrayLength casesObj
  let cases ← (List.range casesLen).mapM fun i => do
    let caseObj ← elementToObj casesObj i
    switchCase p caseObj indent deeperStr
  joinVector ([indent, lit "switch", lit " ", lit "(", discriminantStr, lit ")", lit " ",
    lit "\x7b", lit "\n"] ++ cases.flatten ++ [indent, lit "\x7d", lit "\n"])

def stmtThrow (val : Value) (indent : Text) : Print Text := do
  let argumentObj ← toObj val "argument"
  let argumentStr ← p.expr argumentObj indent 0 false
  return joinStrings [some (← deref indent), lit "throw ", argumentStr, lit ";\n"]

/-- The guard is looked for in the statement, not in its handler. -/
def stmtTry (val : Value) (indent : Text) : Print Text := do
  let blockObj ← toObj val "block"
  let blockStr ← substmt p blockObj indent true
  let handlerObj ← toObj val "handler"
  let handler ←
    if handlerObj ≠ null then do
      let paramObj ← toObj handlerObj "param"
      let paramStr ← p.expr paramObj (lit "####") 0 false
      let guardObj ← toObj val "guard"
      let guard ←
        if guardObj ≠ null then do
          let guardStr ← p.expr guardObj indent 0 false
          pure [lit "if (", guardStr]
        else pure []
      let finalizerVal ← prop val "finalizer"
      let bodyObj ← toObj handlerObj "body"
      let bodyStr ← substmt p bodyObj indent (isObject finalizerVal)
      pure ([lit "catch", lit " ", lit "(", paramStr] ++ guard ++ [lit ")", bodyStr])
    else pure []
  let finalizerVal ← prop val "finalizer"
  let finalizer ←
    if isObject finalizerVal then do
      let finalizerStr ← substmt p (valueToObject finalizerVal) indent false
      pure [lit "finally", finalizerStr]
    else pure []
  joinVector ([some (← deref indent), lit "try", blockStr] ++ handler ++ finalizer)

def stmtDebugger (_val : Value) (indent : Text) : Print Text := do
  return joinStrings [some (← deref indent), lit "debugger;"]

def stmtFunctiondeclaration (val : Value) (indent : Text) : Print Text := do
  let idVal ← prop val "id"
  let funcDeclStr ← functionDeclaration p (lit "function") idVal val indent
  let exprPropVal ← prop val "expression"
  return joinStrings [some (← deref indent), funcDeclStr,
    lit (if isNullOrUndefined exprPropVal then ";\n" else "\n")]

/-- `stringifyStmtHandlerMapInst` -/
def stmtHandlers : List (String × (Value → Text → Print Text)) :=
  [("BlockStatement", stmtBlock p), ("VariableDeclaration", stmtVariableDeclaration p),
    ("EmptyStatement", stmtEmpty), ("ExpressionStatement", stmtExpression p),
    ("LetStatement", stmtLet p), ("IfStatement", stmtIf p), ("WhileStatement", stmtWhile p),
    ("ForStatement", stmtFor p), ("ForInStatement", stmtForin p),
    ("DoWhileStatement", stmtDowhile p), ("ContinueStatement", stmtContinue),
    ("BreakStatement", stmtBreak), ("ReturnStatement", stmtReturn p),
    ("WithStatement", stmtWith p), ("LabeledStatement", stmtLabeled p),
    ("SwitchStatement", stmtSwitch p), ("ThrowStatement", stmtThrow p),
    ("TryStatement", stmtTry p), ("DebuggerStatement", stmtDebugger),
    ("FunctionDeclaration", stmtFunctiondeclaration p)]

/-- `unparse_sourceElement` -/
def unparseSourceElement (val : Value) (indent : Text) : Print Text := do
  let typeStr ← toStr val "type"
  match (stmtHandlers p).find? fun e => equalsChars typeStr e.1 with
  | some (_, handler) => handler val indent
  | none => throw .jsFalse

/-! ### Objects -/

/-- What an element of an array gives for the arguments of `meta_escape`. -/
inductive ElementText where
  | normal (s : Text)
  | escape (s : Text) (fromStmt : Bool)

def elementText (i : ℕ) (nodeObj : Value) : Escape → Print ElementText
  | ⟨fromStmt, some escapeNode⟩ => do
      let argObj ← toObj escapeNode "argument"
      let argStr ← p.expr argObj (lit "    ") 15 false
      return .escape (joinStrings [lit "\x7b", lit "index", lit ":", some (natToString i),
        lit ",", lit "expr", lit ":", argStr, lit "\x7d"]) fromStmt
  | ⟨_, none⟩ => do return .normal (← p.stringify nodeObj)

/-- The loop over an array of nodes. -/
def stringifyElements (obj : Value) (arrayLen : ℕ) : Print (List ElementText) :=
  (List.range arrayLen).mapM fun i => do
    let nodeObj ← elementToObj obj i
    elementText p i nodeObj (← objectContainEscape nodeObj)

def ElementText.normal? : ElementText → Option Text
  | .normal s => some s
  | .escape _ _ => none

def ElementText.escape? : ElementText → Option (Text × Bool)
  | .normal _ => none
  | .escape s fromStmt => some (s, fromStmt)

def boolText (b : Bool) : Text := lit (if b then "true" else "false")

def brackets (strs : List Text) : Print Text :=
  if strs.isEmpty then return joinStrings [lit "[", lit "]"]
  else joinStringVector strs (lit ",") (lit "[") (lit "]")

/-- The text of an array; the last escape decides on its statements. -/
def arrayText (elements : List ElementText) : Print (List Text) := do
  let arrayElements := elements.filterMap ElementText.normal?
  let escapeElements := elements.filterMap ElementText.escape?
  let retArray ← brackets arrayElements
  if escapeElements.isEmpty then return [retArray]
  let retEscape ← brackets (escapeElements.map Prod.fst)
  let fromStmtDepth := (escapeElements.getLast?.map Prod.snd).getD false
  return [lit "meta_escape( ", boolText true, lit ",", retArray, lit ",", retEscape, lit ",",
    boolText fromStmtDepth, lit ")"]

def stringifyArray (obj : Value) : Print (List Text) := do
  let arrayLen ← arrayLength obj
  arrayText (← stringifyElements p obj arrayLen)

def singleText (obj : Value) : Escape → Print (List Text)
  | ⟨fromStmt, some escapeNode⟩ => do
      let argObj ← toObj escapeNode "argument"
      let argStr ← p.expr argObj (lit "    ") 15 false
      return [lit "meta_escape( ", boolText false, lit ",", argStr, lit ",", boolText fromStmt,
        lit ")"]
  | ⟨_, none⟩ => do return [← p.stringify obj]

/-- `v.isObject() && v.toObject().is<JSFunction>()` -/
def isFunction (h : JSHeap) : Value → Bool
  | .ref a =>
      match h.cell a with
      | some (.record .function _ _) => true
      | _ => false
  | .leaf _ => false

/-- The text of a value, in parts. -/
def valueText : Value → Print (List Text)
  | .leaf (.prim .null) => return [lit "null"]
  | .leaf (.prim .undefined) => return [lit "null"]
  | .leaf (.prim (.string s)) => return [lit "\"", some s, lit "\""]
  | .leaf (.prim (.number n)) => return [some n.toString]
  | .leaf (.prim (.boolean b)) => return [boolText b]
  | v => do
      if isFunction (← get).1 v then throw .jsFalse
      if (arrayElems? (← get).1 v).isSome then
        stringifyArray p v
      else
        singleText p v (← objectContainEscape v)

def stringifyObjectValue (v : Value) : Print Text := do
  joinVector (← valueText p v)

/-- The properties that an object has slots for, in the order of their
definition; an array has `length`, which has none. -/
def slots (h : JSHeap) : Value → Except Fault (List (String × Value))
  | .leaf (.prim _) => .error .crash
  | .leaf (.wrapper (.string _)) => .error .outside
  | .leaf (.wrapper _) => .ok []
  | .ref a =>
      match h.cell a with
      | some (.record _ fields _) => .ok fields
      | some (.array _) => .error .jsFalse
      | none => .error .crash

def propertiesText (props : List (String × Value)) : Print Text := do
  let children ← props.mapM fun (propKey, v) => do
    let propVal ← stringifyObjectValue p v
    return [some (js propKey), lit ":", propVal]
  joinVector ([lit "\x7b"] ++ List.intercalate [lit ", "] children ++ [lit "\x7d"])

def objectText (obj : Value) : Option Value → Print Text
  | some escapeArgObj => do
      let escapeArgStr ← p.expr escapeArgObj (lit "    ") 15 false
      return joinStrings [lit "meta_escapejsvalue( ", escapeArgStr, lit ")"]
  | none => do propertiesText p (← reads fun h => slots h obj)

def stringifyObject (obj : Value) : Print Text := do
  objectText p obj (← objectContainEscapejsvalue obj)

end Unparse

open Unparse

/-- The printer with a stack of the given depth. -/
def unparse : ℕ → Printer
  | 0 => .exhausted
  | n + 1 =>
      { expr := unparseExpr (unparse n)
        sourceElement := unparseSourceElement (unparse n)
        stringify := stringifyObject (unparse n) }

/-- `unParse_start` -/
def unParseStart (fuel : ℕ) (obj : Value) : Print JSString := do
  let objTypeStr ← toStr obj "type"
  require (equals objTypeStr "Program")
  let bodyObj ← toObj obj "body"
  let children ← unparseValues bodyObj fun nodeObj => (unparse fuel).sourceElement nodeObj (lit "")
  return (← joinVector children).getD []

end MetaMonkey.Staging
