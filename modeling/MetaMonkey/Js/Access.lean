import MetaMonkey.Js.Machine

/-!
Further calls of the engine's interface: arrays, conversions, assignment to a
property and the texts `JSON.stringify` makes of primitive values.
-/

namespace MetaMonkey.Js

open ObjectGraph

variable (h : JSHeap)

/-- `JS_IsArrayObject` -/
def isArrayObject : Value → Except Fault Bool
  | .leaf (.prim _) => .error .crash
  | v => .ok (arrayElems? h v).isSome

/-- `JS_GetArrayLength`. An object that is no array is asked for a property
`length`. -/
def getArrayLength : Value → Except Fault ℕ
  | .leaf (.prim _) => .error .crash
  | .leaf (.wrapper (.string _)) => .error .outside
  | .leaf (.wrapper _) => .ok 0
  | .ref a =>
      match h.cell a with
      | some (.array elems) => .ok elems.length
      | some (.record .function _ _) => .error .outside
      | some (.record _ fields _) =>
          if (fields.lookup "length").isSome then .error .outside else .ok 0
      | none => .error .crash

/-- `JS_GetElement` of an array. -/
def getElement (arr : Value) (i : ℕ) : Except Fault Value :=
  match arrayElems? h arr with
  | some elems => .ok (elems[i]?.getD undefined)
  | none => .error .outside

/-- `JS_GetArrayElementToObj` -/
def getArrayElementToObj (arr : Value) (i : ℕ) : Except Fault Value := do
  return valueToObject (← getElement h arr i)

/-- `JS_SetProperty` -/
def setProperty (obj : Value) (name : String) (v : Value) : Except Fault JSHeap :=
  match obj with
  | .leaf (.prim _) => .error .crash
  | .leaf (.wrapper _) => .error .outside
  | .ref a =>
      match h.cell a with
      | some (.record cls fields distinct) =>
          .ok (h.write a (.record cls (setField fields name v) (setField_distinct name v distinct)))
      | some (.array _) => .error .outside
      | none => .error .crash

/-- `ToBoolean` -/
def toBoolean : Value → Bool
  | undefined => false
  | null => false
  | boolean b => b
  | number .nan => false
  | number (.zero _) => false
  | number _ => true
  | string s => s ≠ []
  | .leaf (.wrapper _) => true
  | .ref _ => true

/-- `isNullOrUndefined` -/
def isNullOrUndefined (v : Value) : Bool := v = null ∨ v = undefined

/-- `JS_EncodeString`: the low bytes of the code units, as a C string. -/
def encodeString (s : JSString) : List UInt8 := (s.map UInt16.toUInt8).takeWhile (· ≠ 0)

/-- A text that is compared as a C string. -/
def equalsChars (s : JSString) (text : String) : Bool := encodeString s = encodeString (js text)

def hexDigit (n : ℕ) : UInt16 := UInt16.ofNat (if n < 10 then 48 + n else 87 + n)

/-- A code unit in the quoted form of `JSON.stringify`. -/
def jsonUnit (c : UInt16) : JSString :=
  if c = 34 then js "\\\""
  else if c = 92 then js "\\\\"
  else if c = 8 then js "\\b"
  else if c = 9 then js "\\t"
  else if c = 10 then js "\\n"
  else if c = 12 then js "\\f"
  else if c = 13 then js "\\r"
  else if c < 32 then js "\\u00" ++ [hexDigit (c.toNat / 16), hexDigit (c.toNat % 16)]
  else [c]

def Prim.toJson : Prim → JSString
  | .undefined => js "undefined"
  | .null => js "null"
  | .boolean b => if b then js "true" else js "false"
  | .number .nan => js "null"
  | .number (.infinity _) => js "null"
  | .number n => n.toString
  | .string s => js "\"" ++ s.flatMap jsonUnit ++ js "\""

/-- `JSON.stringify`, converted to a string. The properties of a regular
expression are not enumerable. -/
def jsonStringify : Value → Except Fault JSString
  | .leaf (.prim p) => .ok p.toJson
  | .leaf (.wrapper p) => .ok p.toJson
  | .ref a =>
      match h.cell a with
      | some (.record (.regexp _ _) _ _) => .ok (js "\x7b\x7d")
      | some _ => .error .outside
      | none => .error .crash

variable {σ : Type}

/-- A call that replaces the heap. -/
def writes (f : JSHeap → Except Fault JSHeap) : JsM σ Unit := fun s =>
  match f s.1 with
  | .ok h => .ok () (h, s.2)
  | .error e => .error e s

theorem writes_ok {f : JSHeap → Except Fault JSHeap} {s : JSHeap × σ} {h : JSHeap}
    (hf : f s.1 = .ok h) : (writes f : JsM σ Unit) s = .ok () (h, s.2) := by
  rw [writes, hf]

theorem writes_eq_ok {f : JSHeap → Except Fault JSHeap} {s s' : JSHeap × σ} {u : Unit} :
    (writes f : JsM σ Unit) s = .ok u s' ↔ ∃ h, f s.1 = .ok h ∧ s' = (h, s.2) := by
  rw [writes]
  cases f s.1 with
  | ok h => simp [eq_comm]
  | error e => simp

end MetaMonkey.Js
