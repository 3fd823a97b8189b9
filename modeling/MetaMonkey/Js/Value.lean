import MetaMonkey.ObjectGraph.Tree
import MetaMonkey.Js.Number

/-!
Values and objects of the engine, as far as the staging code reads and writes
them. Objects live in a heap of records and arrays. An object pointer is a
value as well: the null pointer is `null`, which is what `OBJECT_TO_JSVAL`
makes of it.
-/

namespace MetaMonkey.Js

open ObjectGraph

inductive Prim where
  | undefined
  | null
  | boolean (b : Bool)
  | number (n : JSNumber)
  | string (s : JSString)
  deriving DecidableEq

/-- What a value is when it is not a reference to a heap cell: a primitive, or
the wrapper object that `JS_ValueToObject` makes of one. A wrapper has no
children, and no two are ever compared. -/
inductive Leaf where
  | prim (p : Prim)
  | wrapper (p : Prim)
  deriving DecidableEq

/-- The classes of record objects the printer tells apart. -/
inductive ObjClass where
  | plain
  | regexp (source flags : JSString)
  | function
  deriving DecidableEq

abbrev Value := Val Leaf
abbrev Obj := Cell String Leaf ObjClass
abbrev JSHeap := Heap String Leaf ObjClass
abbrev Ast := Tree String Leaf ObjClass

@[match_pattern] abbrev undefined : Value := .leaf (.prim .undefined)
@[match_pattern] abbrev null : Value := .leaf (.prim .null)
@[match_pattern] abbrev boolean (b : Bool) : Value := .leaf (.prim (.boolean b))
@[match_pattern] abbrev number (n : JSNumber) : Value := .leaf (.prim (.number n))
@[match_pattern] abbrev string (s : JSString) : Value := .leaf (.prim (.string s))

/-- How a call ends other than by returning: it reports an error
(`JS_FALSE`), the engine dies (a null pointer is followed, or the native stack
is exhausted), or it leaves what is modelled here by a conversion that runs
code of an object. -/
inductive Fault where
  | jsFalse
  | crash
  | outside
  deriving DecidableEq

@[simp] theorem ok_bind {ε α β : Type} (a : α) (f : α → Except ε β) :
    ((.ok a : Except ε α) >>= f) = f a := rfl

@[simp] theorem error_bind {ε α β : Type} (e : ε) (f : α → Except ε β) :
    ((.error e : Except ε α) >>= f) = .error e := rfl

@[simp] theorem pure_eq_ok {ε α : Type} (a : α) : (pure a : Except ε α) = .ok a := rfl

@[simp] theorem throw_eq_error {ε α : Type} (e : ε) :
    (throw e : Except ε α) = .error e := rfl

/-- `Value::isObject` -/
def isObject : Value → Bool
  | .ref _ => true
  | .leaf (.wrapper _) => true
  | .leaf (.prim _) => false

/-- `JS_ValueToObject`: a null pointer for `null` and `undefined`, a wrapper
for any other primitive. -/
def valueToObject : Value → Value
  | undefined => null
  | null => null
  | .leaf (.prim p) => .leaf (.wrapper p)
  | v => v

def Prim.toJSString : Prim → JSString
  | .undefined => js "undefined"
  | .null => js "null"
  | .boolean b => if b then js "true" else js "false"
  | .number n => n.toString
  | .string s => s

variable (h : JSHeap)

/-- `JS_ValueToString`. An array or a function would run its own `toString`. -/
def valueToString : Value → Except Fault JSString
  | .leaf (.prim p) => .ok p.toJSString
  | .leaf (.wrapper p) => .ok p.toJSString
  | .ref a =>
      match h.cell a with
      | some (.record .plain _ _) => .ok (js "[object Object]")
      | some (.record (.regexp source flags) _ _) =>
          .ok (js "/" ++ source ++ js "/" ++ flags)
      | some (.record .function _ _) => .error .outside
      | some (.array _) => .error .outside
      | none => .error .crash

/-- `JS_GetProperty` for the property names of AST nodes, none of which a
prototype has. -/
def getProperty (obj : Value) (name : String) : Except Fault Value :=
  match obj with
  | .leaf (.prim _) => .error .crash
  | .leaf (.wrapper _) => .ok undefined
  | .ref a =>
      match h.cell a with
      | some (.record _ fields _) => .ok ((fields.lookup name).getD undefined)
      | some (.array _) => .ok undefined
      | none => .error .crash

/-- `JS_GetPropertyToString` -/
def getPropertyToString (obj : Value) (name : String) : Except Fault JSString := do
  valueToString h (← getProperty h obj name)

/-- `JS_GetPropertyToObj` -/
def getPropertyToObj (obj : Value) (name : String) : Except Fault Value := do
  return valueToObject (← getProperty h obj name)

/-- `JS_IsArrayObject`, with the elements the array then gives access to. -/
def arrayElems? : Value → Option (List Value)
  | .ref a =>
      match h.cell a with
      | some (.array elems) => some elems
      | _ => none
  | .leaf _ => none

/-- `JSString::equals` with a text of the engine's source. -/
def equals (s : JSString) (text : String) : Bool := s = js text

end MetaMonkey.Js
