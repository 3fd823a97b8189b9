import MetaMonkey.Js.StrEscape
import MetaMonkey.Staging.InlineRequest

/-!
`RemoteStagedDbg` and `HttpHandler`: the server that the two pages of the debugger talk to.
The requests are handled one after the other, in the one thread of the engine.
-/

namespace MetaMonkey.Debugger

open ObjectGraph Js Staging
open Staging.RemoteStagedDbg (inlineArg)

/-- The body of a reply, in bytes. -/
abbrev Body := List UInt8

/-- A text of the source as a C string. -/
def chars (s : String) : Body := (js s).map UInt16.toUInt8

/-- What `%u` prints. -/
def unsignedChars (n : ℕ) : Body := (natToString n).map UInt16.toUInt8

/-- `ast` is the program, and `inspectedAst` a C string, or the null pointer. -/
structure RemoteStagedDbg where
  heap : JSHeap
  stagingProcess : StagingProcess
  ast : Value
  inspectedAst : Option Body
  stageHasChange : Bool
  inlineHasChange : Bool
  isServerRunning : Bool
  errorOccurred : Bool

/-- What a handler does for a request: the body that is sent, if one is, and whether it
returns `JS_TRUE`. -/
structure Handled where
  server : RemoteStagedDbg
  body : Option Body
  success : Bool

namespace RemoteStagedDbg

/-- The stage before there has been one. -/
def noStage (ast : Value) : Stage := ⟨ast, [], 0, [], []⟩

/-- The state in which `start` begins to poll. -/
def start (heap : JSHeap) (ast : Value) : RemoteStagedDbg where
  heap := heap
  stagingProcess := ⟨noStage ast, false⟩
  ast := ast
  inspectedAst := none
  stageHasChange := false
  inlineHasChange := false
  isServerRunning := true
  errorOccurred := false

def stage (s : RemoteStagedDbg) : Stage := s.stagingProcess.stage

/-- `getRemainingInlines` of the stage -/
def remainingInlines (s : RemoteStagedDbg) : ℕ := s.stage.inlineNodesInfo.length

def withProcess (s : RemoteStagedDbg) (p : JSHeap × StagingProcess) : RemoteStagedDbg :=
  { s with heap := p.1, stagingProcess := p.2 }

/-- `HttpHandler::stop` -/
def stop (s : RemoteStagedDbg) (errorOccurred : Bool) : RemoteStagedDbg :=
  { s with isServerRunning := false, errorOccurred := errorOccurred }

/-! ### Replies -/

def debuggerSourceStmt : JSString := js "debugger;\n"

/-- `JS_EscapedString`, encoded. -/
def escapedChars (srcCode : JSString) : Body := encodeString (strEscape srcCode)

def respHasNextStage (depth : ℕ) (srcCode : Body) (inlines : ℕ) : Body :=
  chars "\x7b \"msg\": \x7b \"depth\": " ++ unsignedChars depth ++ chars ", \"srcCode\": \"" ++
    srcCode ++ chars "\", \"inlines\": " ++ unsignedChars inlines ++ chars " \x7d \x7d"

def respNoNextStage : Body := chars "\x7b \"msg\": \x7b \"depth\": 0 \x7d \x7d"

def respInline (inlines : ℕ) : Body :=
  chars "\x7b \"msg\": \x7b \"inlines\": " ++ unsignedChars inlines ++ chars " \x7d \x7d"

def respCloseSession : Body := chars "\x7b \"msg\": \"closed\" \x7d"

def respSuccess : Body := chars "\x7b \"msg\": true \x7d"

def respFail : Body := chars "\x7b \"msg\": false \x7d"

/-! ### Routes -/

variable (engine : JSONParser.Engine) (fuel : ℕ) (memory : ℕ → UInt16)

/-- An engine that has died handles nothing. -/
def nextStage (s : RemoteStagedDbg) : Option Handled :=
  let that := { s with inlineHasChange := true, stageHasChange := true }
  match StagingProcess.nextStage fuel that.ast (that.heap, that.stagingProcess) with
  | .ok (depth, srcCode) p =>
      let that := that.withProcess p
      let body :=
        if depth = 0 then respNoNextStage
        else
          respHasNextStage depth (escapedChars (debuggerSourceStmt ++ srcCode))
            that.remainingInlines
      some ⟨that, some body, true⟩
  | .error .jsFalse p => some ⟨that.withProcess p, none, false⟩
  | .error _ _ => none

def inspectAst (content : Body) (s : RemoteStagedDbg) : Handled :=
  ⟨{ s with inspectedAst := some (encodeString (inflateString content)) }, some respSuccess, true⟩

/-- The part of `execInline` before its reply. -/
def executeInline (content : Body) : JsM StagingProcess Unit := do
  let (h, inlnArg) ← reads (inlineArg engine memory content)
  modify fun s => (h, s.2)
  StagingProcess.onStage (StagingProcess.executeInline inlnArg)
  if (← get).2.stage.inlineNodesInfo = [] then
    StagingProcess.onStage Stage.cutExecs

/-- The reply is sent before the AST is printed for the report. -/
def execInline (content : Body) (s : RemoteStagedDbg) : Option Handled :=
  let that := { s with inlineHasChange := true }
  if that.remainingInlines = 0 then
    some ⟨that, some respFail, true⟩
  else
    match executeInline engine memory content (that.heap, that.stagingProcess) with
    | .ok _ p =>
        let body := respInline (that.withProcess p).remainingInlines
        match StagingProcess.unparseAst fuel p with
        | .ok _ p => some ⟨that.withProcess p, some body, true⟩
        | .error .jsFalse p => some ⟨that.withProcess p, some body, false⟩
        | .error _ _ => none
    | .error .jsFalse p => some ⟨that.withProcess p, none, false⟩
    | .error _ _ => none

def closeSession (s : RemoteStagedDbg) : Handled := ⟨s.stop false, some respCloseSession, true⟩

/-- The parts of the reply of `syncDbgInfo`, each after what was there before. -/
def syncInlines (s : RemoteStagedDbg) (resp : Body) : Body :=
  if s.inlineHasChange then
    resp ++ chars " \"inlines\": " ++ unsignedChars s.remainingInlines
  else resp

def syncStage (s : RemoteStagedDbg) (resp : Body) : Body :=
  if s.stageHasChange then
    let comma := if s.inlineHasChange then chars "," else []
    resp ++ chars " " ++ comma ++ chars " \"stage\": \x7b \"depth\": " ++
      unsignedChars s.stage.depth ++ chars ", \"srcCode\": \"" ++ escapedChars s.stage.code ++
      chars "\" \x7d"
  else resp

def syncInspectedAst (s : RemoteStagedDbg) (resp : Body) : Body :=
  match s.inspectedAst with
  | some inspectedAst =>
      let comma := if s.inlineHasChange || s.stageHasChange then chars "," else []
      resp ++ chars " " ++ comma ++ chars " \"inspectAst\": " ++ inspectedAst
  | none => resp

/-- The text of the reply of `syncDbgInfo`. -/
def syncText (s : RemoteStagedDbg) : Body :=
  syncInspectedAst s (syncStage s (syncInlines s (chars "\x7b \"msg\": \x7b "))) ++
    chars " \x7d \x7d"

def clearChanges (s : RemoteStagedDbg) : RemoteStagedDbg :=
  { s with stageHasChange := false, inlineHasChange := false, inspectedAst := none }

def syncDbgInfo (s : RemoteStagedDbg) : Handled := ⟨s.clearChanges, some s.syncText, true⟩

/-! ### Requests -/

/-- A request as the handler of events sees it. -/
structure Request where
  method : String
  uri : String
  contentType : Option String
  content : Body

inductive Route where
  | nextStage
  | execInline
  | inspectAst
  | closeSession
  | syncDbgInfo
  deriving DecidableEq

/-- The routes in the order in which `start` installs them. -/
def reqHandlersInf : List (String × Route) :=
  [("/nextstage", .nextStage), ("/execinline", .execInline), ("/inspectast", .inspectAst),
    ("/closesession", .closeSession), ("/syncdbg", .syncDbgInfo)]

/-- `strstr`, as whether there is an occurrence. -/
def strstr (pattern : List Char) : List Char → Bool
  | [] => pattern.isEmpty
  | c :: text => pattern.isPrefixOf (c :: text) || strstr pattern text

/-- `MatchRequestRoute`: all routes have the same type of content and the same method. -/
def matchesContent (r : Request) : Bool :=
  (match r.contentType with
    | some contentType => strstr "application/json".toList contentType.toList
    | none => true) && r.method = "POST"

/-- `find_if` over the routes. -/
def route (r : Request) : Option Route :=
  if matchesContent r then reqHandlersInf.lookup r.uri else none

def handle (content : Body) (s : RemoteStagedDbg) : Route → Option Handled
  | .nextStage => nextStage fuel s
  | .execInline => execInline engine fuel memory content s
  | .inspectAst => some (inspectAst content s)
  | .closeSession => some (closeSession s)
  | .syncDbgInfo => some (syncDbgInfo s)

/-- `HttpHandler::EventHandler` for a request: the server afterwards, and the body of the
reply. A file that is served instead, or an error, is no reply. -/
def eventHandler (r : Request) (s : RemoteStagedDbg) : Option (RemoteStagedDbg × Option Body) :=
  if r.method = "OPTIONS" then
    some (s, some (chars "Allow: CONVERT"))
  else
    match route r with
    | none => some (s, none)
    | some requestHandler =>
        (handle engine fuel memory r.content s requestHandler).map fun handled =>
          (if handled.success then handled.server else handled.server.stop true, handled.body)

end RemoteStagedDbg

end MetaMonkey.Debugger
