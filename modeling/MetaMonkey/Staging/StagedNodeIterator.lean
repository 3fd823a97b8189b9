import MetaMonkey.Staging.AstMng
import MetaMonkey.Staging.AstIterator

/-!
`StagedNodeIterator`: the callbacks that find the staged tags of an AST and
hand them to a visitor, with the depth of each.
-/

namespace MetaMonkey.Staging

open ObjectGraph Js AstObjMng

/-- Where a tag is to be replaced: in an array, by the node itself, or in a
property of its parent. -/
structure NodeInfo where
  isExpr : Bool
  parent : Value
  value : Value ⊕ String
  deriving DecidableEq

variable {ν : Type}

/-- The two methods of a visitor. Their results are dropped. -/
structure StagedNodeVisitor (ν : Type) where
  inlineNodeEnter (nodeInfo : NodeInfo) (expr : Value) (depth : ℕ) : JsM ν Unit
  execNodeEnter (nodeInfo : NodeInfo) (stmt : Value) (depth : ℕ) : JsM ν Unit

/-- The fields of the iterator. The tops of the stacks are the heads. -/
structure Counters where
  inlines : ℕ
  execs : ℕ
  quazis : ℕ
  inlineNodes : List Value
  execNodes : List Value
  deriving DecidableEq

namespace StagedNodeIterator

def start : Counters := ⟨0, 0, 0, [], []⟩

/-- What an unquoted node is: nothing that counts here, a `.!` tag or a `.&`
tag, each with its argument or statement. -/
inductive Found where
  | nothing
  | inline (isExpr : Bool) (inlineNode : Value)
  | exec (isExpr : Bool) (execNode : Value)
  deriving DecidableEq

/-- The test `op->equals(".!")` on a unary expression that was found. -/
def inlineArg (unary : Option (JSString × Value)) : Option Value :=
  unary.bind fun (op, inlineNode) => if equals op ".!" then some inlineNode else none

/-- In a slot a tag that is the expression of its parent statement is skipped:
the statement was found before it. -/
def skipped (h : JSHeap) (slotOf : Option Value) (node : Value) : Except Fault Bool :=
  match slotOf with
  | some parentNode => do return node = (← getExprStmt h parentNode)
  | none => return false

/-- The tests made on an unquoted node, in a property of the object `slotOf`
or in an array. -/
def findTag (h : JSHeap) (slotOf : Option Value) (node : Value) : Except Fault Found := do
  match inlineArg (← getUnaryExpr h node) with
  | some inlineNode =>
      if ← skipped h slotOf node then return .nothing else return .inline true inlineNode
  | none =>
      match inlineArg (← getUnaryExprStmt h node) with
      | some inlineNode => return .inline false inlineNode
      | none =>
          let execNode ← getMetaExecStmt h node
          if execNode ≠ null then
            if ← skipped h slotOf node then return .nothing else return .exec true execNode
          else
            let execNode ← getMetaExecExprStmt h node
            if execNode ≠ null then return .exec false execNode else return .nothing

/-- A call of a visitor's method, which sees the heap and its own state only. -/
def call (x : JsM ν Unit) : JsM (Counters × ν) Unit := ignoreResult fun s =>
  match x (s.1, s.2.2) with
  | .ok _ s' => .ok () (s'.1, s.2.1, s'.2)
  | .error e s' => .error e (s'.1, s.2.1, s'.2)

def update (f : Counters → Counters) : JsM (Counters × ν) Unit :=
  modify fun s => (s.1, f s.2.1, s.2.2)

/-- The common part of `singleObjEnter` and `arrayLoopIdxEnter`. -/
def enter (visitor : StagedNodeVisitor ν) (slotOf : Option Value)
    (nodeInfo : Bool → NodeInfo) (node : Value) : JsM (Counters × ν) Unit := do
  let body ← reads fun h => getMetaQuaziStmt h node
  if body ≠ null then
    update fun c => { c with quazis := c.quazis + 1 }
  else if (← get).2.1.quazis = 0 then
    match ← reads fun h => findTag h slotOf node with
    | .nothing => pure ()
    | .inline isExpr inlineNode =>
        update fun c => { c with
          inlines := c.inlines + 1, inlineNodes := node :: c.inlineNodes }
        let c := (← get).2.1
        call (visitor.inlineNodeEnter (nodeInfo isExpr) inlineNode (c.inlines + c.execs))
    | .exec isExpr execNode =>
        if (← get).2.1.inlines > 0 then throw .jsFalse
        update fun c => { c with execs := c.execs + 1, execNodes := node :: c.execNodes }
        let c := (← get).2.1
        call (visitor.execNodeEnter (nodeInfo isExpr) execNode (c.inlines + c.execs))

def singleObjEnter (visitor : StagedNodeVisitor ν) (propKey : String)
    (node parentNode : Value) : JsM (Counters × ν) Unit :=
  enter visitor (some parentNode) (fun isExpr => ⟨isExpr, parentNode, .inr propKey⟩) node

def arrayLoopIdxEnter (visitor : StagedNodeVisitor ν) (node _parentNode : Value) (_idx : ℕ)
    (elem : Value) : JsM (Counters × ν) Unit :=
  enter visitor none (fun isExpr => ⟨isExpr, node, .inl elem⟩) elem

/-- What leaving a node that is no quasi does to the counters. -/
def leave (node : Value) (c : Counters) : Counters :=
  if c.inlineNodes.head? = some node then
    { c with inlines := c.inlines - 1, inlineNodes := c.inlineNodes.tail }
  else if c.execNodes.head? = some node then
    { c with execs := c.execs - 1, execNodes := c.execNodes.tail }
  else c

def singleObjExit (_propKey : String) (node _parentNode : Value) :
    JsM (Counters × ν) Unit := do
  let body ← reads fun h => getMetaQuaziStmt h node
  if body ≠ null then
    update fun c => { c with quazis := c.quazis - 1 }
  else
    update (leave node)

def arrayLoopIdxExit (_node parentNode : Value) (_idx : ℕ) (elem : Value) :
    JsM (Counters × ν) Unit :=
  singleObjExit "" elem parentNode

def applier (visitor : StagedNodeVisitor ν) : Applier (Counters × ν) where
  arrayLoopStart _ _ _ := pure ()
  arrayLoopIdxEnter := arrayLoopIdxEnter visitor
  arrayLoopIdxExit := arrayLoopIdxExit
  arrayLoopEnd _ _ := pure ()
  singleObjEnter := singleObjEnter visitor
  singleObjExit := singleObjExit

end StagedNodeIterator

/-- A full run of the iterator over the graph below `obj`. -/
def iterateStagedNodes (visitor : StagedNodeVisitor ν) (fuel : ℕ) (obj : Value)
    (h : JSHeap) (v : ν) : EStateM.Result Fault (JSHeap × Counters × ν) Unit :=
  iterateObject (StagedNodeIterator.applier visitor) fuel obj
    (h, StagedNodeIterator.start, v)

end MetaMonkey.Staging
