import MetaMonkey.Js.Json
import MetaMonkey.Js.Utf8
import MetaMonkey.Staging.Debugger

/-!
The request of the route `execInline`. The page of the debugger sends the value of an
inline as JSON in UTF-8. The handler inflates the bytes, but has as many units parsed as
there were bytes.
-/

namespace MetaMonkey.Staging

open ObjectGraph Js Unparse

namespace RemoteStagedDbg

/-- The units in the memory from `bodyStr` on, where a zero and then whatever is there
follow the string. -/
def unitsFrom (bodyStr : JSString) (memory : ℕ → UInt16) (length : ℕ) : JSString :=
  (List.range length).map fun i =>
    (bodyStr[i]?).getD (if i = bodyStr.length then 0 else memory i)

/-- The text that is given to `JS_ParseJSON`. Its length is `conn->content_len`, as an
`uint32_t`; `bodyLen` is not used. -/
def jsonText (memory : ℕ → UInt16) (content : List UInt8) : Option JSString :=
  (inflateUTF8String content).map fun bodyStr =>
    unitsFrom bodyStr memory (content.length % 2 ^ 32)

/-- `toObjectOrNull`, which only an object or null may be asked for. -/
def toObjectOrNull : Value → Except Fault Value
  | .leaf (.prim .null) => .ok null
  | .leaf (.prim _) => .error .outside
  | v => .ok v

variable (engine : JSONParser.Engine)

def parseJSON (chars : JSString) (h : JSHeap) : Except Fault (JSHeap × Value) := do
  match JSONParser.parse engine chars h with
  | some (h, jsonVal) => return (h, ← toObjectOrNull jsonVal)
  | none => throw .jsFalse

/-- What the handler makes of the body. Without `bodyStr` there is nothing to parse. -/
def inlineArg (memory : ℕ → UInt16) (content : List UInt8) (h : JSHeap) :
    Except Fault (JSHeap × Value) :=
  match jsonText memory content with
  | some chars => parseJSON engine chars h
  | none => if content.length % 2 ^ 32 = 0 then .error .jsFalse else .error .crash

variable (fuel : ℕ)

def execInline (memory : ℕ → UInt16) (content : List UInt8) : JsM StagingProcess Unit :=
  execInlineWith fuel (inlineArg engine memory content)

end RemoteStagedDbg

open RemoteStagedDbg

/-- The handler parses the text that was sent, and merges what the text denotes. It fails
just when the text does not denote an object or the merge fails. -/
def ArrivesUnchanged (engine : JSONParser.Engine) (fuel : ℕ) (memory : ℕ → UInt16)
    (astStr : JSString) : Prop :=
  jsonText memory (utf8 astStr) = some astStr ∧
    ∀ s, execInline engine fuel memory (utf8 astStr) s =
      execInlineWith fuel (parseJSON engine astStr) s

/-- The text has as many bytes as units, and no lone surrogate. -/
def SameLength (astStr : JSString) : Prop :=
  (utf8 astStr).length % 2 ^ 32 = astStr.length ∧ toWellFormed astStr = astStr

variable {engine : JSONParser.Engine} {memory : ℕ → UInt16} {astStr : JSString}

theorem length_unitsFrom (bodyStr : JSString) (memory : ℕ → UInt16) (n : ℕ) :
    (unitsFrom bodyStr memory n).length = n := by
  rw [unitsFrom, List.length_map, List.length_range]

theorem unitsFrom_self (bodyStr : JSString) (memory : ℕ → UInt16) :
    unitsFrom bodyStr memory bodyStr.length = bodyStr := by
  refine List.ext_getElem (length_unitsFrom _ _ _) fun i hi hi' => ?_
  simp [unitsFrom, hi']

theorem zero_mem_unitsFrom {bodyStr : JSString} {n : ℕ} (h : bodyStr.length < n) :
    0 ∈ unitsFrom bodyStr memory n :=
  List.mem_map.mpr ⟨bodyStr.length, List.mem_range.mpr h, by simp⟩

theorem jsonText_utf8 : jsonText memory (utf8 astStr) =
    some (unitsFrom (toWellFormed astStr) memory ((utf8 astStr).length % 2 ^ 32)) := by
  rw [jsonText, inflateUTF8String_utf8, Option.map_some]

theorem jsonText_eq_iff : jsonText memory (utf8 astStr) = some astStr ↔ SameLength astStr := by
  rw [jsonText_utf8, Option.some_inj]
  constructor
  · intro heq
    have hlength := congrArg List.length heq
    rw [length_unitsFrom] at hlength
    refine ⟨hlength, ?_⟩
    rw [hlength, ← length_toWellFormed, unitsFrom_self] at heq
    exact heq
  · rintro ⟨hlength, hformed⟩
    rw [hformed, hlength, unitsFrom_self]

theorem inlineArg_of_sameLength (h : SameLength astStr) :
    inlineArg engine memory (utf8 astStr) = parseJSON engine astStr := by
  funext heap
  rw [inlineArg, jsonText_eq_iff.mpr h]

/-- The value of an inline arrives unchanged exactly if its text has the same length in
bytes and in units. -/
theorem arrivesUnchanged_iff (engine : JSONParser.Engine) (fuel : ℕ) (memory : ℕ → UInt16)
    (astStr : JSString) :
    (ArrivesUnchanged engine fuel memory astStr ↔ SameLength astStr) ∧
      ((utf8 astStr).length < 2 ^ 32 → (SameLength astStr ↔ ∀ c ∈ astStr, c < 128)) := by
  refine ⟨⟨fun h => jsonText_eq_iff.mp h.1, fun h => ?_⟩, fun hlt => ?_⟩
  · refine ⟨jsonText_eq_iff.mpr h, fun s => ?_⟩
    rw [execInline, inlineArg_of_sameLength h]
  · rw [SameLength, Nat.mod_eq_of_lt hlt]
    exact length_utf8_eq_iff

/-- Any other text is not parsed: the units go on beyond the zero at its end. -/
theorem inlineArg_rejects (hlt : (utf8 astStr).length < 2 ^ 32)
    (hascii : ¬ ∀ c ∈ astStr, c < 128) (h : JSHeap) :
    inlineArg engine memory (utf8 astStr) h = .error .jsFalse := by
  have hlonger : (toWellFormed astStr).length < (utf8 astStr).length := by
    rw [length_toWellFormed]
    exact (ascii_or_longer astStr).resolve_left hascii
  have hparse : JSONParser.parse engine
      (unitsFrom (toWellFormed astStr) memory ((utf8 astStr).length % 2 ^ 32)) h = none := by
    refine JSONParser.parse_eq_none engine (zero_mem_unitsFrom ?_) h
    rw [Nat.mod_eq_of_lt hlt]
    exact hlonger
  rw [inlineArg, jsonText_utf8]
  dsimp only
  rw [parseJSON, hparse]
  rfl

/-! ### A request that is rejected -/

def literalProgram : JSString :=
  js "\x7b\"type\":\"Program\",\"body\":[\x7b\"type\":\"ExpressionStatement\",\"expression\":" ++
    js "\x7b\"type\":\"Literal\",\"value\":\"é\"\x7d\x7d]\x7d"

def wordEngine : JSONParser.Engine :=
  ⟨fun _ => .nan, fun name => String.ofList (name.map fun c => Char.ofNat c.toNat)⟩

/-- The text is JSON, but the two bytes of its one letter have a zero parsed with it. -/
theorem literalProgram_rejected :
    (parseJSON wordEngine literalProgram (.ofTrees [])).toOption.isSome = true ∧
      inlineArg wordEngine (fun _ => 0) (utf8 literalProgram) (.ofTrees []) = .error .jsFalse ∧
      ¬ ArrivesUnchanged wordEngine 0 (fun _ => 0) literalProgram := by
  have hascii : ¬ ∀ c ∈ literalProgram, c < 128 := by decide +kernel
  have hlt : (utf8 literalProgram).length < 2 ^ 32 := by
    have hlength : (utf8 literalProgram).length = 103 := by decide +kernel
    rw [hlength]
    decide
  refine ⟨by decide +kernel, inlineArg_rejects hlt hascii _, fun harrives => hascii ?_⟩
  rw [← length_utf8_eq_iff, ← Nat.mod_eq_of_lt hlt]
  exact jsonText_eq_iff.mp harrives.1

end MetaMonkey.Staging
