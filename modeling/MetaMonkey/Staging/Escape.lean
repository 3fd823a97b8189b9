import MetaMonkey.Staging.AstMng

/-!
`meta_escape`: putting the values of escapes back into the object graph of a
quasi, as the engine does it and as the page of the staged debugger does it.
-/

namespace MetaMonkey.Staging

open ObjectGraph Js AstObjMng

/-- The record of one escape of an array: its place in the array and the value
its expression had. Places are printed as decimal literals below `2 ^ 31`, so
that the engine reads them back unchanged by `toInt32`. -/
structure EscapeRecord where
  index : ℕ
  expr : Value

variable (h : JSHeap)

/-! ### The engine -/

structure MergeLoop where
  naIdx : ℕ
  eaIdx : ℕ
  escapeObjArray : List Value

/-- The first half of a turn: the current escape is merged when the output has
reached its index. -/
def mergeEscape (escapeArray : List EscapeRecord) (fromStmt : Bool) (s : MergeLoop) :
    Except Fault MergeLoop :=
  match escapeArray[s.eaIdx]? with
  | some escNode =>
      let finLen := s.escapeObjArray.length
      if escNode.index ≤ finLen then do
        let out ← getStmtsFromAstObj h fromStmt (valueToObject escNode.expr)
          s.escapeObjArray
        return { s with eaIdx := s.eaIdx + 1, escapeObjArray := out }
      else return s
  | none => return s

def pushNormal (normalArray : List Value) (s : MergeLoop) : MergeLoop :=
  match normalArray[s.naIdx]? with
  | some normalNode =>
      { s with naIdx := s.naIdx + 1, escapeObjArray := s.escapeObjArray ++ [normalNode] }
  | none => s

/-- The loop, run for at most `fuel` turns; `none` when it has not ended. -/
def mergeLoop (normalArray : List Value) (escapeArray : List EscapeRecord)
    (fromStmt : Bool) : ℕ → MergeLoop → Option (Except Fault (List Value))
  | fuel, s =>
      if s.naIdx < normalArray.length ∨ s.eaIdx < escapeArray.length then
        match fuel with
        | 0 => none
        | fuel + 1 =>
            match mergeEscape h escapeArray fromStmt s with
            | .ok s' => mergeLoop normalArray escapeArray fromStmt fuel (pushNormal normalArray s')
            | .error e => some (.error e)
      else some (.ok s.escapeObjArray)

def metaEscape (fuel : ℕ) (normalArray : List Value) (escapeArray : List EscapeRecord)
    (fromStmt : Bool) : Option (Except Fault (List Value)) :=
  mergeLoop h normalArray escapeArray fromStmt fuel ⟨0, 0, []⟩

def metaEscapeNode (escapeStmt : Value) (fromStmt : Bool) :
    Except Fault (Value ⊕ List Value) := do
  match ← getStmtsFromAstObj h fromStmt escapeStmt [] with
  | [node] => return .inl node
  | nodes => return .inr nodes

/-! ### The page of the debugger -/

namespace Stagedlib

def isAstObj (astObj : Value) : Except Fault Bool :=
  match astObj with
  | .leaf (.prim _) => return false
  | _ => return (← getProperty h astObj "type") = string (js "Program")

/-- The member access `stmt.expression`. -/
def expressionOf : Value → Except Fault Value
  | undefined => throw .jsFalse
  | null => throw .jsFalse
  | .leaf _ => return undefined
  | .ref a => getProperty h (.ref a) "expression"

/-- The statements of a Program; it throws where `mngGetBody` gives
`undefined`, as both its callers do. -/
def mngGetBody (node : Value) (fromStmt : Bool) : Except Fault (List Value) := do
  if !(← isAstObj h node) then throw .jsFalse
  let body ← getProperty h node "body"
  match arrayElems? h body with
  | some stmts => if fromStmt then return stmts else stmts.mapM (expressionOf h)
  | none => if body = undefined ∨ body = null then throw .jsFalse else throw .outside

/-- `Array.prototype.splice` without deletion; the start is clamped to the
length. -/
def spliceIn (normalNodes : List Value) (start : ℕ) (body : List Value) : List Value :=
  normalNodes.take start ++ body ++ normalNodes.drop start

/-- The escapes from number `idxOffset` on. -/
def mEscapeFrom (fromStmt : Bool) : ℕ → List Value → List EscapeRecord →
    Except Fault (List Value)
  | _, normalNodes, [] => return normalNodes
  | idxOffset, normalNodes, pair :: pairs => do
      let body ← mngGetBody h pair.expr fromStmt
      mEscapeFrom fromStmt (idxOffset + 1)
        (spliceIn normalNodes (pair.index + idxOffset) body) pairs

def mEscapeArray (normalNodes : List Value) (escapeNodes : List EscapeRecord)
    (fromStmt : Bool) : Except Fault (List Value) :=
  mEscapeFrom h fromStmt 0 normalNodes escapeNodes

end Stagedlib

end MetaMonkey.Staging
