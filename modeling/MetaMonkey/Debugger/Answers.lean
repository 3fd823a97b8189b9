import MetaMonkey.Debugger.Handlers
import MetaMonkey.Debugger.Replies

/-!
Every reply of the server, the one for `OPTIONS` aside, is JSON with a property `msg`.
-/

namespace MetaMonkey.Debugger

open ObjectGraph Js Staging
open Js.Json (ComesBack MembersComeBack str)
open Js.JSONParser (Blank quote objectText Member)

variable {engine : JSONParser.Engine}

theorem tells_respHasNextStage (hnames : KnowsNames engine) (depth : ℕ) (srcCode : JSString)
    (inlines : ℕ) :
    Tells engine (RemoteStagedDbg.respHasNextStage depth
      (RemoteStagedDbg.escapedChars srcCode) inlines)
      (stageData engine depth srcCode inlines) := by
  obtain ⟨htext, hformed⟩ := respHasNextStage_eq depth srcCode inlines
  rw [htext]
  exact tells_of_text hformed (comesBack_stageText hnames depth srcCode inlines)

/-- A text of ASCII with the data of `msg` in it. -/
theorem tells_msg {text : JSString} {msg : Json} (hnames : KnowsNames engine)
    (hascii : Ascii text) (hmsg : ComesBack engine text msg) :
    Tells engine ((js "\x7b \"msg\": " ++ text ++ js " \x7d").map UInt16.toUInt8)
      (.object [("msg", msg)]) := by
  have hall : Ascii (js "\x7b \"msg\": " ++ text ++ js " \x7d") := by
    refine .append (.append ?_ hascii) ?_ <;> decide
  rw [← utf8_ascii hall]
  exact tells_of_text (toWellFormed_ascii hall) (comesBack_msg hnames hmsg)

/-- An object with one property that is a number. -/
theorem comesBack_count {name : String} (hname : engine.atomToId (js name) = name)
    {after : JSString} (hafter : Blank after) (n : ℕ) :
    ComesBack engine (objectText [⟨[32], js name, [32] ++ natToString n ++ after⟩])
      (.object [(name, unsigned engine n)]) :=
  .object (MembersComeBack.part (by decide) hafter hname (Json.comesBack_natToString n) .nil)
    (by simp)

theorem tells_respNoNextStage (hnames : KnowsNames engine) :
    Tells engine RemoteStagedDbg.respNoNextStage
      (.object [("msg", .object [("depth", unsigned engine 0)])]) := by
  have hmsg := comesBack_count (hnames "depth" (by decide)) (show Blank [32] by decide) 0
  have hascii : Ascii (objectText [⟨[32], js "depth", [32] ++ natToString 0 ++ [32]⟩]) := by
    decide +kernel
  have htext : RemoteStagedDbg.respNoNextStage = (js "\x7b \"msg\": " ++
      objectText [⟨[32], js "depth", [32] ++ natToString 0 ++ [32]⟩] ++ js " \x7d").map
        UInt16.toUInt8 := by decide +kernel
  rw [htext]
  exact tells_msg hnames hascii hmsg

theorem tells_respInline (hnames : KnowsNames engine) (inlines : ℕ) :
    Tells engine (RemoteStagedDbg.respInline inlines)
      (.object [("msg", .object [("inlines", unsigned engine inlines)])]) := by
  have hmsg := comesBack_count (hnames "inlines" (by decide)) (show Blank [32] by decide) inlines
  have htext : objectText [⟨[32], js "inlines", [32] ++ natToString inlines ++ [32]⟩] =
      js "\x7b \"inlines\": " ++ natToString inlines ++ js " \x7d" := by
    simp only [objectText, Member.toText, List.flatMap_nil, List.cons_append, List.nil_append,
      List.append_assoc]
    rfl
  rw [htext] at hmsg
  have hascii : Ascii (js "\x7b \"inlines\": " ++ natToString inlines ++ js " \x7d") := by
    refine .append (.append ?_ (ascii_natToString _)) ?_ <;> decide
  have htells := tells_msg hnames hascii hmsg
  simp only [List.map_append] at htells
  rw [RemoteStagedDbg.respInline, chars, chars, unsignedChars]
  simpa [js, List.append_assoc] using htells

/-- A reply that is the same for all requests. -/
theorem tells_constant {resp : Body} {msg : Json} (hnames : KnowsNames engine)
    (hread : Json.Readable engine msg) (hpresent : msg.isFiltered = false)
    (hkept : msg.kept = msg) (hascii : Ascii (str msg))
    (htext : resp = (js "\x7b \"msg\": " ++ str msg ++ js " \x7d").map UInt16.toUInt8) :
    Tells engine resp (.object [("msg", msg)]) := by
  rw [htext]
  have hmsg := Json.comesBack hread hpresent
  rw [hkept] at hmsg
  exact tells_msg hnames hascii hmsg

theorem tells_respCloseSession (hnames : KnowsNames engine) :
    Tells engine RemoteStagedDbg.respCloseSession (.object [("msg", .string (js "closed"))]) :=
  tells_constant hnames trivial rfl rfl (by decide) (by decide +kernel)

theorem tells_respSuccess (hnames : KnowsNames engine) :
    Tells engine RemoteStagedDbg.respSuccess (.object [("msg", .boolean true)]) :=
  tells_constant hnames trivial rfl rfl (by decide) (by decide +kernel)

theorem tells_respFail (hnames : KnowsNames engine) :
    Tells engine RemoteStagedDbg.respFail (.object [("msg", .boolean false)]) :=
  tells_constant hnames trivial rfl rfl (by decide) (by decide +kernel)

/-! ### What the replies say -/

/-- The `msg` of a reply to a request, by the server before and after it. -/
inductive Answer (engine : JSONParser.Engine) (s s' : RemoteStagedDbg) :
    RemoteStagedDbg.Route → Json → Prop
  | noNextStage : Answer engine s s' .nextStage (.object [("depth", unsigned engine 0)])
  | hasNextStage {srcCode : JSString} (hdepth : s'.stage.depth ≠ 0)
      (hcode : strUnescape srcCode = RemoteStagedDbg.debuggerSourceStmt ++ s'.stage.code) :
      Answer engine s s' .nextStage (.object [("depth", unsigned engine s'.stage.depth),
        ("srcCode", .string srcCode), ("inlines", unsigned engine s'.remainingInlines)])
  | noInline (hnone : s.remainingInlines = 0) : Answer engine s s' .execInline (.boolean false)
  | inline (hone : s.remainingInlines = s'.remainingInlines + 1) :
      Answer engine s s' .execInline (.object [("inlines", unsigned engine s'.remainingInlines)])
  | inspectAst : Answer engine s s' .inspectAst (.boolean true)
  | closeSession : Answer engine s s' .closeSession (.string (js "closed"))
  | syncDbgInfo {ast : Option Json} (hast : s.inspectedAst = ast.map fun ast => utf8 (str ast)) :
      Answer engine s s' .syncDbgInfo (.object (syncProperties engine s (ast.map Json.kept)))

variable {fuel : ℕ} {memory : ℕ → UInt16} {s : RemoteStagedDbg} {handled : Handled} {body : Body}

theorem nextStage_answers (hnames : KnowsNames engine)
    (h : RemoteStagedDbg.nextStage fuel s = some handled) (hbody : body ∈ handled.body) :
    ∃ msg, Tells engine body (.object [("msg", msg)]) ∧
      Answer engine s handled.server .nextStage msg := by
  obtain ⟨-, -, -, -, -, -, hreply⟩ := RemoteStagedDbg.nextStage_spec h
  obtain ⟨depth, srcCode, hrun, rfl⟩ := hreply body hbody
  rw [RemoteStagedDbg.nextStageReply]
  split_ifs with hzero
  · exact ⟨_, tells_respNoNextStage hnames, .noNextStage⟩
  · have htold := RemoteStagedDbg.nextStage_stage hrun hzero
    have hdepth : handled.server.stage.depth = depth := congrArg Prod.fst htold
    have hcode : handled.server.stage.code = srcCode := congrArg Prod.snd htold
    refine ⟨_, tells_respHasNextStage hnames depth _ _, ?_⟩
    rw [← hdepth] at hzero ⊢
    refine .hasNextStage hzero ?_
    rw [hcode, strUnescape_strEscape]

theorem execInline_answers (hnames : KnowsNames engine) {content : Body}
    (h : RemoteStagedDbg.execInline engine fuel memory content s = some handled)
    (hbody : body ∈ handled.body) :
    ∃ msg, Tells engine body (.object [("msg", msg)]) ∧
      Answer engine s handled.server .execInline msg := by
  obtain ⟨-, -, -, -, -, -, hreply, -, -⟩ := RemoteStagedDbg.execInline_spec h
  obtain ⟨hempty, -, rfl⟩ | ⟨⟨info, hqueue⟩, rfl⟩ := hreply body hbody
  · exact ⟨_, tells_respFail hnames, .noInline (List.length_eq_zero_iff.mpr hempty)⟩
  · refine ⟨_, tells_respInline hnames _, .inline ?_⟩
    rw [RemoteStagedDbg.remainingInlines, hqueue, List.length_cons]
    rfl

/-- Every reply is JSON with an answer to its request in `msg`, whatever has come before;
the source code is escaped so that the page has it back, and every merged inline counts down
by one. A request without a reply has failed. -/
theorem handle_answers (hnames : KnowsNames engine) {content : Body}
    {requestHandler : RemoteStagedDbg.Route} {ast : Option Json}
    (hast : s.inspectedAst = ast.map fun ast => utf8 (str ast))
    (hsent : ∀ a ∈ ast, Sent engine a)
    (h : RemoteStagedDbg.handle engine fuel memory content s requestHandler = some handled) :
    (∀ body ∈ handled.body, ∃ msg, Tells engine body (.object [("msg", msg)]) ∧
      Answer engine s handled.server requestHandler msg) ∧
      (handled.body = none → handled.success = false) := by
  cases requestHandler with
  | nextStage =>
      obtain ⟨-, -, -, -, -, hsuccess, -⟩ := RemoteStagedDbg.nextStage_spec h
      refine ⟨fun body hbody => nextStage_answers hnames h hbody, fun hnone => ?_⟩
      rw [hsuccess, hnone]
      rfl
  | execInline =>
      obtain ⟨-, -, -, -, -, -, -, hnone, -⟩ := RemoteStagedDbg.execInline_spec h
      exact ⟨fun body hbody => execInline_answers hnames h hbody, hnone⟩
  | inspectAst =>
      cases h
      refine ⟨fun body hbody => ?_, nofun⟩
      obtain rfl := Option.mem_some.mp hbody
      exact ⟨_, tells_respSuccess hnames, .inspectAst⟩
  | closeSession =>
      cases h
      refine ⟨fun body hbody => ?_, nofun⟩
      obtain rfl := Option.mem_some.mp hbody
      exact ⟨_, tells_respCloseSession hnames, .closeSession⟩
  | syncDbgInfo =>
      cases h
      refine ⟨fun body hbody => ?_, nofun⟩
      obtain rfl := Option.mem_some.mp hbody
      exact ⟨_, tells_syncText hnames s hast hsent, .syncDbgInfo hast⟩

/-- A server on which the empty program has been inspected. -/
def inspectedServer : RemoteStagedDbg :=
  (RemoteStagedDbg.inspectAst (utf8 (str emptyProgram)) (.start Heap.empty Js.null)).server

theorem handle_answers_inspected :
    RemoteStagedDbg.handle wordEngine 0 (fun _ => 0) [] inspectedServer .syncDbgInfo =
        some ⟨inspectedServer.clearChanges, some inspectedServer.syncText, true⟩ ∧
      ∃ msg, Tells wordEngine inspectedServer.syncText (.object [("msg", msg)]) ∧
        Answer wordEngine inspectedServer inspectedServer.clearChanges .syncDbgInfo msg := by
  have hast : inspectedServer.inspectedAst =
      (some emptyProgram).map fun ast => utf8 (str ast) := congrArg some sent_emptyProgram.stored
  have hhandle : RemoteStagedDbg.handle wordEngine 0 (fun _ => 0) [] inspectedServer .syncDbgInfo =
      some ⟨inspectedServer.clearChanges, some inspectedServer.syncText, true⟩ := rfl
  have hanswers := handle_answers knowsNames_wordEngine hast
    (fun ast hmem => Option.mem_some.mp hmem ▸ sent_emptyProgram) hhandle
  exact ⟨hhandle, hanswers.1 _ rfl⟩

end MetaMonkey.Debugger
