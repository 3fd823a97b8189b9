import MetaMonkey.Debugger.Answers
import MetaMonkey.Debugger.Page

/-!
`stagedlib.js`: the page of the evaluator, which asks for the next stage, evaluates its code
and sends the value of every `inline` to the server. Whatever else is asked of the server in
between, it runs the session of the staging process.
-/

namespace MetaMonkey.Debugger

open ObjectGraph Js Staging
open Js.Json (str)
open RemoteStagedDbg (Request route eventHandler)

/-- What the page does: `startDebugging`, or the calls of `inline` that are left of the code
that it evaluates, each with its argument. -/
inductive Doing where
  | starts
  | evaluates (calls : List Json)
  | finished
  | failed
  | thrown

structure Evaluator where
  doing : Doing
  executionFail : Bool

/-- `polling` holds while the loop of `HttpHandler::start` runs, and `answered` from a reply
to the page until the poll in which it is sent returns. -/
structure Evaluation where
  server : RemoteStagedDbg
  polling : Bool
  answered : Bool
  page : Evaluator

def isAstObj (ast : Json) : Prop := ast.get "type" = .string (js "Program")

/-- `msg.depth === 0` -/
def isZero (depth : Json) : Prop := ∃ neg, depth = .number (.zero neg)

namespace Evaluation

def start (heap : JSHeap) (ast : Value) : Evaluation :=
  ⟨.start heap ast, true, false, ⟨.starts, false⟩⟩

def nextStageRequest : Request := ⟨"POST", "/nextstage", some "application/json", []⟩

def inlineRequest (ast : Json) : Request :=
  ⟨"POST", "/execinline", some "application/json", utf8 (str ast)⟩

variable (engine : JSONParser.Engine) (fuel : ℕ) (memory : ℕ → UInt16)

/-- A request of the page: the data of the reply that it succeeds with. -/
inductive Asked (c : Evaluation) (r : Request) : Option Json → Evaluation → Prop
  | success {server : RemoteStagedDbg} {body : Body} {resp : Json} (hpolling : c.polling = true)
      (hanswered : c.answered = false)
      (hhandler : eventHandler engine fuel memory r c.server = some (server, some body))
      (htells : Tells engine body resp) :
      Asked c r (some resp) { c with server := server, answered := true }
  | unreadable {server : RemoteStagedDbg} {body : Body} (hpolling : c.polling = true)
      (hanswered : c.answered = false)
      (hhandler : eventHandler engine fuel memory r c.server = some (server, some body))
      (htells : ∀ resp, ¬ Tells engine body resp) :
      Asked c r none { c with server := server, answered := true }
  | noReply {server : RemoteStagedDbg} (hpolling : c.polling = true)
      (hanswered : c.answered = false)
      (hhandler : eventHandler engine fuel memory r c.server = some (server, none)) :
      Asked c r none { c with server := server, answered := true }
  | refused (hpolling : c.polling = false) : Asked c r none c

def withPage (c : Evaluation) (page : Evaluator) : Evaluation := { c with page := page }

-- what the evaluation of code calls `inline` with
variable (evaluate : JSString → List Json)

inductive Step : Evaluation → Evaluation → Prop
  | other {c : Evaluation} {r : Request} {server : RemoteStagedDbg} {body : Option Body}
      (hpolling : c.polling = true) (hnextStage : route r ≠ some .nextStage)
      (hexecInline : route r ≠ some .execInline)
      (hhandler : eventHandler engine fuel memory r c.server = some (server, body)) :
      Step c { c with server := server }
  | dies {c : Evaluation} {r : Request} (hpolling : c.polling = true)
      (hhandler : eventHandler engine fuel memory r c.server = none) :
      Step c { c with polling := false }
  | turns {c : Evaluation} (hpolling : c.polling = true) :
      Step c { c with polling := c.server.isServerRunning, answered := false }
  | nextStage {c c' : Evaluation} {resp : Json} {srcCode : JSString}
      (hdoing : c.page.doing = .starts)
      (hasked : Asked engine fuel memory c nextStageRequest (some resp) c')
      (hdepth : ¬ isZero ((resp.get "msg").get "depth"))
      (hsrcCode : (resp.get "msg").get "srcCode" = .string srcCode) :
      Step c (c'.withPage { c.page with doing := .evaluates (evaluate (strUnescape srcCode)) })
  | finishes {c c' : Evaluation} {resp : Json} (hdoing : c.page.doing = .starts)
      (hasked : Asked engine fuel memory c nextStageRequest (some resp) c')
      (hdepth : isZero ((resp.get "msg").get "depth")) :
      Step c (c'.withPage { c.page with doing := .finished })
  | nextStageFails {c c' : Evaluation} (hdoing : c.page.doing = .starts)
      (hasked : Asked engine fuel memory c nextStageRequest none c') :
      Step c (c'.withPage ⟨.failed, true⟩)
  | inline {c c' : Evaluation} {ast : Json} {calls : List Json} {resp : Json}
      (hdoing : c.page.doing = .evaluates (ast :: calls)) (hfail : c.page.executionFail = false)
      (hast : isAstObj ast)
      (hasked : Asked engine fuel memory c (inlineRequest ast) (some resp) c') :
      Step c (c'.withPage { c.page with doing := .evaluates calls })
  | inlineFails {c c' : Evaluation} {ast : Json} {calls : List Json}
      (hdoing : c.page.doing = .evaluates (ast :: calls)) (hfail : c.page.executionFail = false)
      (hast : isAstObj ast) (hasked : Asked engine fuel memory c (inlineRequest ast) none c') :
      Step c (c'.withPage ⟨.evaluates calls, true⟩)
  | throws {c : Evaluation} {ast : Json} {calls : List Json}
      (hdoing : c.page.doing = .evaluates (ast :: calls)) (hfail : c.page.executionFail = false)
      (hast : ¬ isAstObj ast) : Step c (c.withPage { c.page with doing := .thrown })
  | skips {c : Evaluation} {ast : Json} {calls : List Json}
      (hdoing : c.page.doing = .evaluates (ast :: calls)) (hfail : c.page.executionFail = true) :
      Step c (c.withPage { c.page with doing := .evaluates calls })
  | evaluated {c : Evaluation} (hdoing : c.page.doing = .evaluates []) :
      Step c (c.withPage { c.page with doing := .starts })

end Evaluation

/-! ### The session that the page runs -/

section

variable (engine : JSONParser.Engine) (fuel : ℕ) (memory : ℕ → UInt16)
  (evaluate : JSString → List Json)

/-- The call of `inline` as the server sees it. -/
def remoteCall (ast : Json) : JSHeap → Except Fault (JSHeap × Value) :=
  Staging.RemoteStagedDbg.inlineArg engine memory (utf8 (str ast))

/-- The server makes a copy of a value of ASCII and leaves the heap that it had; it rejects any
other. -/
theorem remoteCall_copies {engine : JSONParser.Engine} {memory : ℕ → UInt16} {ast : Json}
    (hast : isAstObj ast) (hread : Json.Readable engine ast)
    (hlength : (utf8 (str ast)).length < 2 ^ 32) (h : JSHeap) :
    (Ascii (str ast) → ∃ h' v, remoteCall engine memory ast h = .ok (h', v) ∧ h.Extends h' ∧
      Json.Stored h' ast.kept v) ∧
      (¬ Ascii (str ast) → remoteCall engine memory ast h = .error .jsFalse) := by
  refine ⟨fun hascii => ?_, fun hascii => inlineArg_rejects hlength hascii h⟩
  cases ast with
  | object properties =>
      obtain ⟨h', v, hdenotes, hextends, hstored⟩ := Json.comesBack hread rfl h
      have hparse := (JSONParser.denotes_iff_parse engine).mp hdenotes
      have hsame : SameLength (str (.object properties)) := by
        rw [SameLength, Nat.mod_eq_of_lt hlength]
        exact length_utf8_eq_iff.mpr hascii
      refine ⟨h', v, ?_, hextends, hstored⟩
      obtain ⟨a, fields, distinct, rfl, -⟩ := hstored
      rw [remoteCall, Staging.RemoteStagedDbg.inlineArg, jsonText_eq_iff.mpr hsame]
      dsimp only
      rw [Staging.RemoteStagedDbg.parseJSON, hparse]
      rfl
  | _ => cases hast

theorem isAstObj_emptyProgram : isAstObj emptyProgram := rfl

/-- The empty program is copied. -/
theorem remoteCall_emptyProgram : ∃ h' v,
    remoteCall wordEngine (fun _ => 0) emptyProgram Heap.empty = .ok (h', v) ∧
      Json.Stored h' emptyProgram v := by
  have hascii : Ascii (str emptyProgram) := by decide +kernel
  have hlength : (utf8 (str emptyProgram)).length < 2 ^ 32 := by decide +kernel
  obtain ⟨h', v, hcall, -, hstored⟩ :=
    (remoteCall_copies isAstObj_emptyProgram sent_emptyProgram.readable hlength Heap.empty).1 hascii
  exact ⟨h', v, hcall, hstored⟩

/-- The server sends the code of a stage with `debugger;` before it. -/
def evaluateSent (srcCode : JSString) : List Json :=
  evaluate (RemoteStagedDbg.debuggerSourceStmt ++ srcCode)

/-- The numbers that `%u` prints come back with zero for zero only. -/
def CountsFromZero : Prop := ∀ n, isZero (unsigned engine n) ↔ n = 0

/-- What the page has left to do, in a number of rounds. -/
def remaining (obj : Value) (rounds : ℕ) : Doing → JsM StagingProcess Bool
  | .starts =>
      Staging.RemoteStagedDbg.session engine fuel memory (evaluateSent evaluate) obj rounds
  | .evaluates calls => do
      Staging.RemoteStagedDbg.execInlines engine fuel memory calls
      Staging.RemoteStagedDbg.session engine fuel memory (evaluateSent evaluate) obj rounds
  | .finished => pure true
  | .failed | .thrown => throw .jsFalse

end

namespace Evaluation

variable {engine : JSONParser.Engine} {fuel : ℕ} {memory : ℕ → UInt16}
  {evaluate : JSString → List Json} {c c' final : Evaluation} {resp : Json}

/-- The data of the reply for a stage. -/
def nextStageData (engine : JSONParser.Engine) (depth : ℕ) (srcCode : JSString) (inlines : ℕ) :
    Json :=
  if depth = 0 then .object [("msg", .object [("depth", unsigned engine 0)])]
  else stageData engine depth (RemoteStagedDbg.debuggerSourceStmt ++ srcCode) inlines

theorem tells_nextStageReply (hnames : KnowsNames engine) (depth : ℕ) (srcCode : JSString)
    (inlines : ℕ) : Tells engine (RemoteStagedDbg.nextStageReply depth srcCode inlines)
      (nextStageData engine depth srcCode inlines) := by
  rw [RemoteStagedDbg.nextStageReply, nextStageData]
  split_ifs
  · exact tells_respNoNextStage hnames
  · exact tells_respHasNextStage hnames depth _ inlines

theorem nextStageData_depth (depth : ℕ) (srcCode : JSString) (inlines : ℕ) :
    ((nextStageData engine depth srcCode inlines).get "msg").get "depth" =
      unsigned engine depth := by
  rw [nextStageData]
  split_ifs with hzero
  · rw [hzero]
    rfl
  · rfl

theorem route_nextStageRequest : route nextStageRequest = some .nextStage := by decide +kernel

theorem route_inlineRequest (ast : Json) : route (inlineRequest ast) = some .execInline := by
  have hroute : route (inlineRequest .null) = some .execInline := by decide +kernel
  exact hroute

theorem Asked.can_ask {r : Request} (h : Asked engine fuel memory c r (some resp) c') :
    c.polling = true ∧ c.answered = false ∧ c' = { c with server := c'.server, answered := true } ∧
      ∃ body, eventHandler engine fuel memory r c.server = some (c'.server, some body) ∧
        Tells engine body resp := by
  cases h with
  | success hpolling hanswered hhandler htells =>
      exact ⟨hpolling, hanswered, rfl, _, hhandler, htells⟩

/-- A reply to `nextStage` tells of the stage that the process has come to. -/
theorem Asked.nextStage (hnames : KnowsNames engine)
    (h : Asked engine fuel memory c nextStageRequest (some resp) c') :
    c'.server.ast = c.server.ast ∧ ∃ depth srcCode,
      StagingProcess.nextStage fuel c.server.ast c.server.process =
          .ok (depth, srcCode) c'.server.process ∧
        resp = nextStageData engine depth srcCode c'.server.remainingInlines := by
  obtain ⟨-, -, -, body, hhandler, htells⟩ := h.can_ask
  obtain ⟨hast, depth, srcCode, hrun, rfl⟩ :=
    RemoteStagedDbg.eventHandler_nextStage_body route_nextStageRequest hhandler
  exact ⟨hast, depth, srcCode, hrun, htells.unique (tells_nextStageReply hnames _ _ _)⟩

/-- From here the page can come to its end without a failure, and `final` is that end. -/
structure Completes (engine : JSONParser.Engine) (fuel : ℕ) (memory : ℕ → UInt16)
    (evaluate : JSString → List Json) (final c : Evaluation) : Prop where
  fail : c.page.executionFail = false
  polling : c.page.doing ≠ .finished → c.polling = true
  running : c.page.doing ≠ .finished → c.answered = true → c.server.isServerRunning = true
  ast : c.server.ast = final.server.ast
  runs : ∃ rounds, remaining engine fuel memory evaluate c.server.ast rounds c.page.doing
    c.server.process = .ok true final.server.process

/-- A page that has come to its end by a step could come to it before. -/
theorem Step.completes (hnames : KnowsNames engine) (hzero : CountsFromZero engine)
    (h : Step engine fuel memory evaluate c c')
    (hc : Completes engine fuel memory evaluate final c') :
    Completes engine fuel memory evaluate final c := by
  obtain ⟨hfail', hpolling', hrunning', hast', rounds, hruns⟩ := hc
  cases h with
  | other hpolling hnextStage hexecInline hhandler =>
      obtain ⟨hprocess, hast, hrunning⟩ :=
        RemoteStagedDbg.eventHandler_other hnextStage hexecInline hhandler
      refine ⟨hfail', hpolling', fun hdoing hanswered => hrunning (hrunning' hdoing hanswered),
        hast.symm.trans hast', rounds, ?_⟩
      rw [← hprocess, ← hast]
      exact hruns
  | dies hpolling hhandler =>
      refine ⟨hfail', fun _ => hpolling, fun hdoing => ?_, hast', rounds, hruns⟩
      exact absurd (hpolling' hdoing) Bool.false_ne_true
  | turns hpolling =>
      exact ⟨hfail', fun _ => hpolling, fun hdoing _ => hpolling' hdoing, hast', rounds, hruns⟩
  | @nextStage c'' resp srcCode hdoing hasked hdepth hsrcCode =>
      obtain ⟨hpolling, hanswered, -, -⟩ := hasked.can_ask
      obtain ⟨hast, depth, code, hrun, rfl⟩ := hasked.nextStage hnames
      rw [nextStageData_depth, hzero] at hdepth
      rw [nextStageData, if_neg hdepth] at hsrcCode
      cases hsrcCode
      rw [strUnescape_strEscape] at hruns
      refine ⟨hfail', fun _ => hpolling, fun _ hreply => ?_, hast.symm.trans hast', rounds + 1, ?_⟩
      · rw [hanswered] at hreply
        cases hreply
      · rw [hdoing]
        change Staging.RemoteStagedDbg.session _ _ _ _ _ (rounds + 1) _ = _
        rw [Staging.RemoteStagedDbg.session, bind_ok hrun]
        dsimp only
        rw [if_neg hdepth, ← hast]
        exact hruns
  | @finishes c'' resp hdoing hasked hdepth =>
      obtain ⟨hpolling, hanswered, -, -⟩ := hasked.can_ask
      obtain ⟨hast, depth, code, hrun, rfl⟩ := hasked.nextStage hnames
      rw [nextStageData_depth, hzero] at hdepth
      refine ⟨hfail', fun _ => hpolling, fun _ hreply => ?_, hast.symm.trans hast', 1, ?_⟩
      · rw [hanswered] at hreply
        cases hreply
      · rw [hdoing]
        change Staging.RemoteStagedDbg.session _ _ _ _ _ 1 _ = _
        rw [Staging.RemoteStagedDbg.session, bind_ok hrun]
        dsimp only
        rw [if_pos hdepth]
        exact hruns
  | nextStageFails hdoing hasked => cases hfail'
  | @inline c'' ast calls resp hdoing hfail hast hasked =>
      obtain ⟨hpolling, hanswered, hafter, body, hhandler, -⟩ := hasked.can_ask
      obtain ⟨hkept, hrunning, hmerged⟩ :=
        RemoteStagedDbg.eventHandler_execInline_body (route_inlineRequest ast) hhandler
      have hreplied : c''.answered = true := by rw [hafter]
      have hruns' := hrunning' Doing.noConfusion hreplied
      have hcall : Staging.RemoteStagedDbg.execInline engine fuel memory (utf8 (str ast))
          c.server.process = .ok () c''.server.process := hmerged hruns'
      refine ⟨hfail', fun _ => hpolling, fun _ _ => hrunning hruns', hkept.symm.trans hast',
        rounds, ?_⟩
      rw [hdoing]
      change (Staging.RemoteStagedDbg.execInlines engine fuel memory (ast :: calls) >>= _) _ = _
      rw [Staging.RemoteStagedDbg.execInlines, bind_assoc, bind_ok hcall, ← hkept]
      exact hruns
  | inlineFails hdoing hfail hast hasked => cases hfail'
  | throws hdoing hfail hast => cases hruns
  | skips hdoing hfail =>
      have hboth : true = false := hfail.symm.trans hfail'
      cases hboth
  | evaluated hdoing =>
      refine ⟨hfail', fun _ => hpolling' Doing.noConfusion, fun _ => hrunning' Doing.noConfusion,
        hast', rounds, ?_⟩
      rw [hdoing]
      exact hruns

/-- The rule for runs, from the end on. -/
theorem completes_run (hnames : KnowsNames engine) (hzero : CountsFromZero engine)
    (hrun : Relation.ReflTransGen (Step engine fuel memory evaluate) c final)
    (hpage : final.page = ⟨.finished, false⟩) :
    Completes engine fuel memory evaluate final c := by
  induction hrun using Relation.ReflTransGen.head_induction_on with
  | refl =>
      have hfinished : final.page.doing = .finished := by rw [hpage]
      refine ⟨by rw [hpage], fun hdoing => absurd hfinished hdoing,
        fun hdoing => absurd hfinished hdoing, rfl, 0, ?_⟩
      rw [hfinished]
      rfl
  | head hstep _ ih => exact hstep.completes hnames hzero ih

/-! ### A session that comes to its end -/

variable {obj : Value} {p p' : JSHeap × StagingProcess}

/-- The page can ask, and has no failure behind it. -/
structure Ready (c : Evaluation) (obj : Value) (p : JSHeap × StagingProcess) : Prop where
  polling : c.polling = true
  answered : c.answered = false
  running : c.server.isServerRunning = true
  fail : c.page.executionFail = false
  ast : c.server.ast = obj
  process : c.server.process = p

/-- A reply has come, and the poll has returned. -/
theorem Ready.replied (hc : c.Ready obj p) {r : Request} {server : RemoteStagedDbg} {body : Body}
    (hhandler : eventHandler engine fuel memory r c.server = some (server, some body))
    (htells : Tells engine body resp) (hast : server.ast = c.server.ast)
    (hrunning : server.isServerRunning = c.server.isServerRunning) {doing : Doing}
    (hstep : ∀ c', Asked engine fuel memory c r (some resp) c' →
      Step engine fuel memory evaluate c (c'.withPage { c.page with doing := doing })) :
    ∃ c', Relation.ReflTransGen (Step engine fuel memory evaluate) c c' ∧
      c'.Ready obj server.process ∧ c'.page.doing = doing := by
  have hasked : Asked engine fuel memory c r (some resp)
      { c with server := server, answered := true } :=
    .success hc.polling hc.answered hhandler htells
  refine ⟨⟨server, server.isServerRunning, false, { c.page with doing := doing }⟩,
    .tail (.single (hstep _ hasked)) (.turns hc.polling), ?_, rfl⟩
  exact ⟨hrunning.trans hc.running, rfl, hrunning.trans hc.running, hc.fail, hast.trans hc.ast, rfl⟩

/-- The page gets through the calls that the process gets through. -/
theorem Ready.evaluates (hnames : KnowsNames engine) {calls : List Json}
    (hasts : ∀ ast ∈ calls, isAstObj ast)
    (hruns : Staging.RemoteStagedDbg.execInlines engine fuel memory calls p = .ok () p')
      (hc : c.Ready obj p) (hdoing : c.page.doing = .evaluates calls) :
    ∃ c', Relation.ReflTransGen (Step engine fuel memory evaluate) c c' ∧ c'.Ready obj p' ∧
      c'.page.doing = .evaluates [] := by
  induction calls generalizing c p with
  | nil =>
      cases hruns
      exact ⟨c, .refl, hc, hdoing⟩
  | cons ast calls ih =>
      obtain ⟨_, p₁, hcall, hrest⟩ := bind_eq_ok.mp hruns
      rw [← hc.process] at hcall
      obtain ⟨server, body, hhandler, hbody, rfl, hast, hrunning⟩ :=
        RemoteStagedDbg.eventHandler_execInline_ok (route_inlineRequest ast) hcall
      have htells : ∃ resp, Tells engine body resp := by
        obtain rfl | ⟨inlines, rfl⟩ := hbody
        · exact ⟨_, tells_respFail hnames⟩
        · exact ⟨_, tells_respInline hnames inlines⟩
      obtain ⟨resp, htells⟩ := htells
      obtain ⟨c₁, hreach, hc₁, hdoing₁⟩ := hc.replied hhandler htells hast hrunning
        fun c' hasked => .inline hdoing hc.fail (hasts ast List.mem_cons_self) hasked
      obtain ⟨c₂, hreach', hc₂, hdoing₂⟩ :=
        ih (fun a ha => hasts a (List.mem_cons_of_mem _ ha)) hrest hc₁ hdoing₁
      exact ⟨c₂, hreach.trans hreach', hc₂, hdoing₂⟩

theorem Ready.session (hnames : KnowsNames engine) (hzero : CountsFromZero engine)
    (hasts : ∀ srcCode, ∀ ast ∈ evaluate srcCode, isAstObj ast) {rounds : ℕ}
    (hruns : Staging.RemoteStagedDbg.session engine fuel memory (evaluateSent evaluate) obj
      rounds p = .ok true p') (hc : c.Ready obj p) (hdoing : c.page.doing = .starts) :
    ∃ c', Relation.ReflTransGen (Step engine fuel memory evaluate) c c' ∧ c'.Ready obj p' ∧
      c'.page.doing = .finished := by
  induction rounds generalizing c p with
  | zero => cases hruns
  | succ rounds ih =>
      obtain ⟨⟨depth, srcCode⟩, p₁, hnext, hrest⟩ := bind_eq_ok.mp hruns
      rw [← hc.ast, ← hc.process] at hnext
      obtain ⟨server, hhandler, rfl, hast, hrunning⟩ :=
        RemoteStagedDbg.eventHandler_nextStage_ok route_nextStageRequest hnext
      have htells := tells_nextStageReply hnames depth srcCode server.remainingInlines
      have hshown : isZero (((nextStageData engine depth srcCode server.remainingInlines).get
          "msg").get "depth") ↔ depth = 0 := by
        rw [nextStageData_depth]
        exact hzero depth
      dsimp only at hrest
      split_ifs at hrest with hdepth
      · cases hrest
        exact hc.replied hhandler htells hast hrunning fun c' hasked =>
          .finishes hdoing hasked (hshown.mpr hdepth)
      · obtain ⟨_, p₂, hcalls, hrounds⟩ := bind_eq_ok.mp hrest
        have hsrcCode : ((nextStageData engine depth srcCode server.remainingInlines).get
            "msg").get "srcCode" =
              .string (strEscape (RemoteStagedDbg.debuggerSourceStmt ++ srcCode)) := by
          rw [nextStageData, if_neg hdepth]
          rfl
        obtain ⟨c₁, hreach₁, hc₁, hdoing₁⟩ := hc.replied hhandler htells hast hrunning
          fun c' hasked => .nextStage hdoing hasked (mt hshown.mp hdepth) hsrcCode
        rw [strUnescape_strEscape] at hdoing₁
        obtain ⟨c₂, hreach₂, hc₂, hdoing₂⟩ := hc₁.evaluates hnames (hasts _) hcalls hdoing₁
        have hc₃ : (c₂.withPage { c₂.page with doing := .starts }).Ready obj p₂ :=
          ⟨hc₂.polling, hc₂.answered, hc₂.running, hc₂.fail, hc₂.ast, hc₂.process⟩
        obtain ⟨c₄, hreach₄, hc₄, hdoing₄⟩ := ih hrounds hc₃ rfl
        exact ⟨c₄, ((hreach₁.trans hreach₂).tail (.evaluated hdoing₂)).trans hreach₄, hc₄, hdoing₄⟩

end Evaluation

/-- Where the code inlines Programs only, the page of the evaluator can come to its end with a
state of the staging process, whatever is asked of the other routes in between, just when the
session does. -/
theorem evaluator_runs_session {engine : JSONParser.Engine} {fuel : ℕ} {memory : ℕ → UInt16}
    {evaluate : JSString → List Json} (hnames : KnowsNames engine)
    (hzero : CountsFromZero engine)
    (hasts : ∀ srcCode, ∀ ast ∈ evaluate srcCode, isAstObj ast) (heap : JSHeap) (ast : Value)
    (p : JSHeap × StagingProcess) :
    (∃ c, Relation.ReflTransGen (Evaluation.Step engine fuel memory evaluate)
        (Evaluation.start heap ast) c ∧ c.page = ⟨.finished, false⟩ ∧ c.server.process = p) ↔
      ∃ rounds, Staging.RemoteStagedDbg.session engine fuel memory (evaluateSent evaluate) ast
        rounds (RemoteStagedDbg.start heap ast).process = .ok true p := by
  constructor
  · rintro ⟨c, hrun, hpage, rfl⟩
    exact (Evaluation.completes_run hnames hzero hrun hpage).runs
  · rintro ⟨rounds, hsession⟩
    have hready : (Evaluation.start heap ast).Ready ast (RemoteStagedDbg.start heap ast).process :=
      ⟨rfl, rfl, rfl, rfl, rfl, rfl⟩
    obtain ⟨c, hrun, hc, hdoing⟩ := hready.session hnames hzero hasts hsession rfl
    refine ⟨c, hrun, ?_, hc.process⟩
    exact congrArg₂ Evaluator.mk hdoing hc.fail

/-! ### A session with one inline -/

/-- An engine that reads the number zero. -/
def countEngine : JSONParser.Engine :=
  ⟨fun s => if s = js "0" then .zero false else .nan, wordEngine.atomToId⟩

theorem countsFromZero_countEngine : CountsFromZero countEngine := by
  intro n
  rw [isZero, unsigned, countEngine]
  dsimp only
  split_ifs with hdigits
  · exact ⟨fun _ => natToString_injective hdigits, fun _ => ⟨false, rfl⟩⟩
  · constructor
    · rintro ⟨neg, heq⟩
      cases heq
    · exact fun hzero => absurd (hzero ▸ rfl) hdigits

/-- The page evaluates `debugger;` and `inline( f );` for `.!f;`, with the empty program as the
value of `f`. -/
theorem evaluator_runs_oneInline : ∃ c,
    Relation.ReflTransGen (Evaluation.Step countEngine 30 (fun _ => 0) fun _ => [emptyProgram])
      (Evaluation.start (.ofTrees [oneInline]) oneInline.val) c ∧
        c.page = ⟨.finished, false⟩ := by
  have hended : (ended (Staging.RemoteStagedDbg.session countEngine 30 (fun _ => 0)
      (evaluateSent fun _ => [emptyProgram]) oneInline.val 2
        (RemoteStagedDbg.start (.ofTrees [oneInline]) oneInline.val).process)).map Prod.fst =
      some true := by decide +kernel
  obtain ⟨b, p, hsession, rfl⟩ := exists_of_ended hended
  have hnames : KnowsNames countEngine := knowsNames_wordEngine
  have hasts : ∀ srcCode : JSString, ∀ ast ∈ (fun _ : JSString => [emptyProgram]) srcCode,
      isAstObj ast := by
    intro _ ast hmem
    rw [List.mem_singleton.mp hmem]
    exact isAstObj_emptyProgram
  obtain ⟨c, hrun, hpage, -⟩ := (evaluator_runs_session hnames countsFromZero_countEngine hasts
    (.ofTrees [oneInline]) oneInline.val p).mpr ⟨2, hsession⟩
  exact ⟨c, hrun, hpage⟩

end MetaMonkey.Debugger
