import MetaMonkey.Js.Machine

/-!
`AstObjIterator`: the walk over an object graph. The fuel is the depth of the
native stack. The walk follows the chain of property shapes, which leads from
the property defined last to the one defined first.
-/

namespace MetaMonkey.Staging

open ObjectGraph Js

variable {σ : Type}

/-- The callbacks of the template parameter `IterateObjectApplier`. -/
structure Applier (σ : Type) where
  arrayLoopStart (node parentNode : Value) (arrayLen : ℕ) : JsM σ Unit
  arrayLoopIdxEnter (node parentNode : Value) (idx : ℕ) (elem : Value) : JsM σ Unit
  arrayLoopIdxExit (node parentNode : Value) (idx : ℕ) (elem : Value) : JsM σ Unit
  arrayLoopEnd (node parentNode : Value) : JsM σ Unit
  singleObjEnter (propKey : String) (node parentNode : Value) : JsM σ Unit
  singleObjExit (propKey : String) (node parentNode : Value) : JsM σ Unit

namespace AstObjIterator

variable (applier : Applier σ) (iterateObject : Value → JsM σ Unit)

/-- The loop over the elements of an array from index `i` on. -/
def iterateElems (obj parentObj : Value) : ℕ → List Value → JsM σ Unit
  | _, [] => pure ()
  | i, node :: nodes => do
      let nodeObj := valueToObject node
      applier.arrayLoopIdxEnter obj parentObj i nodeObj
      iterateObject nodeObj
      applier.arrayLoopIdxExit obj parentObj i nodeObj
      iterateElems obj parentObj (i + 1) nodes

/-- `parentObj` is the object whose property is visited, the top of the stack
of objects being iterated. -/
def iterateObjectValue (parentObj : Value) (propKey : String) (v : Value) : JsM σ Unit := do
  if isObject v then
    match arrayElems? (← get).1 v with
    | some elems =>
        applier.arrayLoopStart v parentObj elems.length
        iterateElems applier iterateObject v parentObj 0 elems
        applier.arrayLoopEnd v parentObj
    | none =>
        applier.singleObjEnter propKey v parentObj
        iterateObject v
        applier.singleObjExit propKey v parentObj

/-- The loop over properties. -/
def iterateProps (obj : Value) : List (String × Value) → JsM σ Unit
  | [] => pure ()
  | (propKey, v) :: props => do
      iterateObjectValue applier iterateObject obj propKey v
      iterateProps obj props

end AstObjIterator

open AstObjIterator in
/-- An array is no node: its `length` is a property without a slot. -/
def iterateObject (applier : Applier σ) : ℕ → Value → JsM σ Unit
  | 0, _ => throw .crash
  | fuel + 1, obj => do
      match obj with
      | .leaf (.prim _) => throw .crash
      | .leaf (.wrapper _) => pure ()
      | .ref a =>
          match (← get).1.cell a with
          | none => throw .crash
          | some (.array _) => throw .jsFalse
          | some (.record _ fields _) =>
              iterateProps applier (iterateObject applier fuel) obj fields.reverse

end MetaMonkey.Staging
