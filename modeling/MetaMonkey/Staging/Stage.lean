import MetaMonkey.Staging.Unparse
import MetaMonkey.Staging.StagedNodeIterator

/-!
`MergeNodeToAst`, `Stage` and `StagingProcess`: a stage collects the code of
the tags of one depth and the places they stand at; every `inline` of the
running code replaces one of them. The evaluated code is seen as what it does
to the heap up to each of its calls of `inline`. Files, reports and the
`stagedDBInfo` debugger are left out.
-/

namespace MetaMonkey.Staging

open ObjectGraph Js AstObjMng Unparse

variable {σ : Type}

/-! ### Merging -/

/-- `JS_ArrayIndexOf`: nothing for `-1`. -/
def arrayIndexOf (h : JSHeap) (arr targetElem : Value) : Except Fault (Option ℕ) :=
  match arrayElems? h arr with
  | some elems => .ok (if targetElem ∈ elems then some (elems.idxOf targetElem) else none)
  | none => .error .outside

/-- `splice` with one element to delete. -/
def splice (h : JSHeap) (arr : Value) (idx : ℕ) (elems : List Value) : Except Fault JSHeap :=
  match arr with
  | .ref a =>
      match h.cell a with
      | some (.array old) => .ok (h.write a (.array (old.take idx ++ elems ++ old.drop (idx + 1))))
      | _ => .error .outside
  | .leaf _ => .error .outside

/-- `JS_NewObject`, with the properties it is then given. -/
def newObject (fields : List (String × Value)) (distinct : (fields.map Prod.fst).Nodup) :
    JsM σ Value := fun s =>
  .ok (.ref s.1.next) (s.1.alloc (.record .plain fields distinct), s.2)

/-- The value put in place of a tag without a value: the null pointer for an
expression, an `EmptyStatement` for a statement. -/
def cutValue (isExpr : Bool) : JsM σ Value :=
  if isExpr then return null
  else newObject [("type", string (js "EmptyStatement")), ("loc", null)] (by decide)

/-- `MergeNodeToAst`. A tag is cut when `ast` is the null pointer. -/
def mergeNodeToAst (nodeinfo : NodeInfo) (ast : Value) : JsM σ Unit :=
  match nodeinfo.value with
  | .inl node => do
      match ← reads fun h => arrayIndexOf h nodeinfo.parent node with
      | none => throw .jsFalse
      | some nodeIdx =>
          let arrayNodes ←
            if ast ≠ null then reads fun h => getStmtsFromAstObj h (!nodeinfo.isExpr) ast []
            else pure []
          writes fun h => splice h nodeinfo.parent nodeIdx arrayNodes
  | .inr key => do
      if ast ≠ null then
        let arrayNodes ← reads fun h => getStmtsFromAstObj h (!nodeinfo.isExpr) ast []
        match arrayNodes with
        | [node] => writes fun h => setProperty h nodeinfo.parent key node
        | _ => throw .jsFalse
      else
        let node ← cutValue nodeinfo.isExpr
        writes fun h => setProperty h nodeinfo.parent key node

/-! ### A stage -/

structure Stage where
  ast : Value
  code : JSString
  depth : ℕ
  inlineNodesInfo : List NodeInfo
  execNodesInfo : List NodeInfo
  deriving DecidableEq

/-- A new printer is used, whatever the state of the others. -/
def freshUnparse {α : Type} (x : Print α) : JsM σ α := fun s =>
  match x (s.1, false) with
  | .ok a s' => .ok a (s'.1, s.2)
  | .error e s' => .error e (s'.1, s.2)

namespace Stage

variable (fuel : ℕ)

def update (f : Stage → Stage) : JsM Stage Unit := modify fun s => (s.1, f s.2)

def init (ast : Value) (depth : ℕ) : JsM Stage Unit :=
  update fun _ => ⟨ast, [], depth, [], []⟩

/-- The text of the argument of an `inline`. -/
def inlineText (expr : Value) : Print Text := (unparse fuel).expr expr (lit "    ") 15 false

/-- The text of a statement to execute. -/
def execText (stmt : Value) : Print Text := substmt (unparse fuel) stmt (lit "") false

def appendCode (fragment : JSString) (stage : Stage) : Stage :=
  { stage with code := stage.code ++ fragment }

def inlineFragment (text : Text) : JSString := js "inline( " ++ text.getD [] ++ js " );"

def execFragment (text : Text) : JSString := text.getD []

/-- The place is queued before the argument is printed. -/
def pushInline (nodeInfo : NodeInfo) (expr : Value) : JsM Stage Unit := do
  update fun stage => { stage with inlineNodesInfo := stage.inlineNodesInfo ++ [nodeInfo] }
  let inlineExprStr ← freshUnparse (inlineText fuel expr)
  update (appendCode (inlineFragment inlineExprStr))

def pushExec (nodeInfo : NodeInfo) (stmt : Value) : JsM Stage Unit := do
  update fun stage => { stage with execNodesInfo := stage.execNodesInfo ++ [nodeInfo] }
  let execStmtStr ← freshUnparse (execText fuel stmt)
  update (appendCode (execFragment execStmtStr))

/-- Taking from an empty queue follows a pointer past its end. -/
def dequeueInline : JsM Stage NodeInfo := do
  match (← get).2.inlineNodesInfo with
  | [] => throw .crash
  | inlineInfo :: rest =>
      update fun stage => { stage with inlineNodesInfo := rest }
      return inlineInfo

/-- The loop of `cutExecs`, the last exec first. -/
def cutFromBack : List NodeInfo → JsM Stage Unit
  | [] => pure ()
  | execNodeInfo :: rest => do
      update fun stage => { stage with execNodesInfo := rest.reverse }
      mergeNodeToAst execNodeInfo null
      cutFromBack rest

def cutExecs : JsM Stage Unit := do
  cutFromBack (← get).2.execNodesInfo.reverse

end Stage

/-! ### Visitors -/

/-- `StageDepthFinder` -/
def stageDepthFinder : StagedNodeVisitor ℕ where
  inlineNodeEnter _ _ depth := modify fun s => (s.1, max s.2 depth)
  execNodeEnter _ _ depth := modify fun s => (s.1, max s.2 depth)

/-- `ExtractStagingTags`. The results of the pushes are dropped. -/
def extractStagingTags (fuel targetDepth : ℕ) : StagedNodeVisitor Stage where
  inlineNodeEnter nodeInfo expr depth :=
    if depth = targetDepth then ignoreResult (Stage.pushInline fuel nodeInfo expr) else pure ()
  execNodeEnter nodeInfo stmt depth :=
    if depth = targetDepth then ignoreResult (Stage.pushExec fuel nodeInfo stmt) else pure ()

/-! ### The staging process -/

/-- What evaluating a script does: the calls of `inline`, each with what leads
up to it and its argument, and the rest. -/
structure Script where
  calls : List (JSHeap → Except Fault (JSHeap × Value))
  rest : JSHeap → Except Fault JSHeap

/-- The stage, and the flag of the one printer that is kept. -/
structure StagingProcess where
  stage : Stage
  ignorecprec : Bool
  deriving DecidableEq

namespace StagingProcess

variable (fuel : ℕ) (engine : JSString → Script)

def onStage {α : Type} (x : JsM Stage α) : JsM StagingProcess α := fun s =>
  match x (s.1, s.2.stage) with
  | .ok a s' => .ok a (s'.1, { s.2 with stage := s'.2 })
  | .error e s' => .error e (s'.1, { s.2 with stage := s'.2 })

def onUnparse {α : Type} (x : Print α) : JsM StagingProcess α := fun s =>
  match x (s.1, s.2.ignorecprec) with
  | .ok a s' => .ok a (s'.1, { s.2 with ignorecprec := s'.2 })
  | .error e s' => .error e (s'.1, { s.2 with ignorecprec := s'.2 })

/-- `getDeapestStage` -/
def getDeapestStage (obj : Value) : JsM StagingProcess ℕ := fun s =>
  match iterateStagedNodes stageDepthFinder fuel obj s.1 0 with
  | .ok _ (h, _, maxdepth) => .ok maxdepth (h, s.2)
  | .error e (h, _, _) => .error e (h, s.2)

def collectStage (obj : Value) : JsM Stage Unit := fun s =>
  match iterateStagedNodes (extractStagingTags fuel s.2.depth) fuel obj s.1 s.2 with
  | .ok _ (h, _, stage) => .ok () (h, stage)
  | .error e (h, _, stage) => .error e (h, stage)

def unparseAst : JsM StagingProcess JSString := do
  let ast := (← get).2.stage.ast
  onUnparse (unParseStart fuel ast)

/-- The depth, and the code unless the depth is zero. -/
def nextStage (ast : Value) : JsM StagingProcess (ℕ × JSString) := do
  let depth ← getDeapestStage fuel ast
  if depth ≠ 0 then
    onStage (Stage.init ast depth)
    onStage (collectStage fuel ast)
    return (depth, (← get).2.stage.code)
  else
    return (depth, [])

def executeInline (inlnArg : Value) : JsM Stage Unit := do
  let inlineNodeInfo ← Stage.dequeueInline
  mergeNodeToAst inlineNodeInfo inlnArg

/-- The calls of `inline` of a script. -/
def evaluateCalls : List (JSHeap → Except Fault (JSHeap × Value)) → JsM Stage Unit
  | [] => pure ()
  | step :: calls => do
      let (h, inlnArg) ← reads step
      modify fun s => (h, s.2)
      executeInline inlnArg
      evaluateCalls calls

/-- `Stage::exec` without a debugger. -/
def exec : JsM Stage Unit := do
  let script := engine (← get).2.code
  evaluateCalls script.calls
  writes script.rest
  Stage.cutExecs

def staging (obj : Value) (depth : ℕ) : JsM StagingProcess Unit := do
  onStage (Stage.init obj depth)
  onStage (collectStage fuel obj)
  onStage (exec engine)
  let _srcCode ← unparseAst fuel

/-- The loop of `unParse`, for a number of rounds: whether it has ended. -/
def unParseLoop (obj : Value) : ℕ → JsM StagingProcess Bool
  | 0 => return false
  | rounds + 1 => do
      let depth ← getDeapestStage fuel obj
      if depth = 0 then
        return true
      else
        staging fuel engine obj depth
        unParseLoop obj rounds

end StagingProcess

end MetaMonkey.Staging
