import MetaMonkey.Debugger.Server
import MetaMonkey.Staging.Kept

/-!
What each of the handlers does to the server, whether it returns `JS_TRUE` or not.
-/

namespace MetaMonkey.Debugger.RemoteStagedDbg

open ObjectGraph Js Staging

variable {engine : JSONParser.Engine} {fuel : ℕ} {memory : ℕ → UInt16} {s : RemoteStagedDbg}
  {handled : Handled}

/-- The heap and the staging process, which the polls and the inspections do not touch. -/
def process (s : RemoteStagedDbg) : JSHeap × StagingProcess := (s.heap, s.stagingProcess)

/-! ### The next stage -/

def nextStageReply (depth : ℕ) (srcCode : JSString) (inlines : ℕ) : Body :=
  if depth = 0 then respNoNextStage
  else respHasNextStage depth (escapedChars (debuggerSourceStmt ++ srcCode)) inlines

/-- All of the stage is new to the page, and the handler has replied just when it returns
`JS_TRUE`. -/
theorem nextStage_spec (h : nextStage fuel s = some handled) :
    handled.server.stageHasChange = true ∧ handled.server.inlineHasChange = true ∧
      handled.server.inspectedAst = s.inspectedAst ∧ handled.server.ast = s.ast ∧
      handled.server.isServerRunning = s.isServerRunning ∧ handled.success = handled.body.isSome ∧
      ∀ body ∈ handled.body, ∃ depth srcCode,
        StagingProcess.nextStage fuel s.ast s.process =
          .ok (depth, srcCode) handled.server.process ∧
          body = nextStageReply depth srcCode handled.server.remainingInlines := by
  rw [nextStage] at h
  dsimp only at h
  split at h
  · next depth srcCode p hrun =>
      cases h
      refine ⟨rfl, rfl, rfl, rfl, rfl, rfl, fun body hbody => ⟨depth, srcCode, hrun, ?_⟩⟩
      exact (Option.mem_some.mp hbody).symm
  · cases h
    exact ⟨rfl, rfl, rfl, rfl, rfl, rfl, nofun⟩
  · cases h

theorem nextStage_stage {ast : Value} {p p' : JSHeap × StagingProcess} {depth : ℕ}
    {srcCode : JSString} (h : StagingProcess.nextStage fuel ast p = .ok (depth, srcCode) p')
    (hdepth : depth ≠ 0) : p'.2.stage.told = (depth, srcCode) := by
  obtain ⟨depth', p₁, -, hrest⟩ := bind_eq_ok.mp h
  split_ifs at hrest with hzero
  · obtain ⟨_, p₂, hinit, hrest⟩ := bind_eq_ok.mp hrest
    obtain ⟨_, p₃, hcollect, hrest⟩ := bind_eq_ok.mp hrest
    cases hrest
    have hkept : p'.2.stage.depth = p₂.2.stage.depth :=
      (keeps_onStage (keeps_collectStage fuel ast)).of_ok hcollect
    have hset : p₂.2.stage.depth = depth := by
      rw [StagingProcess.onStage] at hinit
      cases hinit
      rfl
    exact Prod.ext (hkept.trans hset) rfl
  · cases hrest
    exact absurd hdepth hzero

/-! ### An inline -/

theorem keeps_executeInline (content : Body) :
    Keeps StagingProcess.told (executeInline engine memory content) := by
  refine .bind (.reads _) fun arg => .bind (.modify fun _ => rfl) fun _ =>
    .bind (keeps_onStage (Staging.keeps_executeInline _)) fun _ => .bind .get fun s => ?_
  split_ifs
  · exact keeps_onStage (keeps_cutExecs fun _ _ => rfl)
  · exact .pure ()

/-- An inline that has been merged has taken the first place of the queue. -/
theorem executeInline_queue {content : Body} {p p' : JSHeap × StagingProcess}
    (h : executeInline engine memory content p = .ok () p') :
    ∃ info, p.2.stage.inlineNodesInfo = info :: p'.2.stage.inlineNodesInfo := by
  obtain ⟨arg, p₁, hread, hcall⟩ := bind_eq_ok.mp h
  obtain ⟨_, p₂, hmodify, hmerge⟩ := bind_eq_ok.mp hcall
  obtain ⟨_, p₃, hinline, hcut⟩ := bind_eq_ok.mp hmerge
  obtain ⟨-, rfl⟩ := reads_eq_ok.mp hread
  cases hmodify
  obtain ⟨info, hqueue⟩ := Staging.executeInline_queue (onStage_eq_ok.mp hinline).1
  change p₁.2.stage.inlineNodesInfo = info :: p₃.2.stage.inlineNodesInfo at hqueue
  refine ⟨info, ?_⟩
  rw [hqueue]
  rw [bind_ok (get_apply p₃)] at hcut
  split_ifs at hcut
  · have hkept : p'.2.stage.inlineNodesInfo = p₃.2.stage.inlineNodesInfo :=
      (keeps_onStage (keeps_cutExecs fun _ _ => rfl)).of_ok hcut
    rw [hkept]
  · cases hcut
    rfl

theorem execInline_eq {content : Body} {p : JSHeap × StagingProcess}
    (hqueue : p.2.stage.inlineNodesInfo ≠ []) :
    Staging.RemoteStagedDbg.execInline engine fuel memory content p =
      (do
        executeInline engine memory content
        let _srcCode ← StagingProcess.unparseAst fuel
        pure () : JsM StagingProcess Unit) p := by
  have hite : ∀ {c : Prop} [Decidable c] (x y : JsM StagingProcess Unit)
      (f : Unit → JsM StagingProcess Unit),
      (if c then x else y) >>= f = if c then x >>= f else y >>= f := by
    intro c _ x y f
    split_ifs <;> rfl
  rw [Staging.RemoteStagedDbg.execInline, Staging.RemoteStagedDbg.execInlineWith,
    bind_ok (get_apply p), if_neg hqueue]
  simp only [executeInline, Staging.RemoteStagedDbg.executed, bind_assoc, hite, pure_bind]

/-- The stage that the page has been told of is the stage still. An inline with a reply has
taken a place of the queue, unless none was left. -/
theorem execInline_spec {content : Body}
    (h : execInline engine fuel memory content s = some handled) :
    handled.server.inlineHasChange = true ∧
      handled.server.stageHasChange = s.stageHasChange ∧
      handled.server.inspectedAst = s.inspectedAst ∧ handled.server.ast = s.ast ∧
      handled.server.isServerRunning = s.isServerRunning ∧
      handled.server.stage.told = s.stage.told ∧
      (∀ body ∈ handled.body,
        s.stage.inlineNodesInfo = [] ∧ handled.server.process = s.process ∧ body = respFail ∨
          (∃ info, s.stage.inlineNodesInfo = info :: handled.server.stage.inlineNodesInfo) ∧
            body = respInline handled.server.remainingInlines) ∧
      (handled.body = none → handled.success = false) ∧
      (handled.success = true ↔ Staging.RemoteStagedDbg.execInline engine fuel memory content
        s.process =
          .ok () handled.server.process) := by
  rw [execInline] at h
  dsimp only at h
  split_ifs at h with hempty
  · cases h
    have hqueue : s.process.2.stage.inlineNodesInfo = [] := List.length_eq_zero_iff.mp hempty
    refine ⟨rfl, rfl, rfl, rfl, rfl, rfl, fun body hbody => Or.inl ⟨hqueue, rfl, ?_⟩,
      fun hnone => (Option.some_ne_none _ hnone).elim, ?_⟩
    · exact (Option.mem_some.mp hbody).symm
    · rw [Staging.RemoteStagedDbg.execInline, Staging.RemoteStagedDbg.execInlineWith,
        bind_ok (get_apply _), if_pos hqueue]
      exact ⟨fun _ => rfl, fun _ => rfl⟩
  · have hqueue : s.process.2.stage.inlineNodesInfo ≠ [] := fun heq =>
      hempty (List.length_eq_zero_iff.mpr heq)
    have hinline : Keeps StagingProcess.told (executeInline engine memory content) :=
      keeps_executeInline content
    rw [execInline_eq hqueue]
    split at h
    · next u p hrun =>
        have htold := hinline.of_ok hrun
        obtain ⟨info, hinfo⟩ := executeInline_queue hrun
        rw [bind_ok (show executeInline engine memory content s.process = .ok u p from hrun)]
        split at h
        · next text p' hunparse =>
            have hstage := (keeps_unparseAst fuel).of_ok hunparse
            cases h
            refine ⟨rfl, rfl, rfl, rfl, rfl, (congrArg Stage.told hstage).trans htold,
              fun body hbody => Or.inr ⟨⟨info, ?_⟩, ?_⟩,
              fun hnone => (Option.some_ne_none _ hnone).elim, ?_⟩
            · exact hinfo.trans
                (congrArg (fun stage => info :: Stage.inlineNodesInfo stage) hstage.symm)
            · rw [← Option.mem_some.mp hbody]
              exact congrArg
                (fun stage => respInline (Stage.inlineNodesInfo stage).length) hstage.symm
            · rw [bind_ok hunparse]
              exact ⟨fun _ => rfl, fun _ => rfl⟩
        · next p' hunparse =>
            have hstage := (keeps_unparseAst fuel).of_error hunparse
            cases h
            refine ⟨rfl, rfl, rfl, rfl, rfl, (congrArg Stage.told hstage).trans htold,
              fun body hbody => Or.inr ⟨⟨info, ?_⟩, ?_⟩,
              fun hnone => (Option.some_ne_none _ hnone).elim, ?_⟩
            · exact hinfo.trans
                (congrArg (fun stage => info :: Stage.inlineNodesInfo stage) hstage.symm)
            · rw [← Option.mem_some.mp hbody]
              exact congrArg
                (fun stage => respInline (Stage.inlineNodesInfo stage).length) hstage.symm
            · rw [bind_error hunparse]
              exact iff_of_false Bool.false_ne_true fun hok => by cases hok
        · cases h
    · next p hrun =>
        have htold := hinline.of_error hrun
        cases h
        rw [bind_error (show executeInline engine memory content s.process = .error .jsFalse p
          from hrun)]
        exact ⟨rfl, rfl, rfl, rfl, rfl, htold, fun _ hbody => (Option.not_mem_none _ hbody).elim,
          fun _ => rfl, iff_of_false Bool.false_ne_true fun hok => by cases hok⟩
    · cases h

/-! ### Requests -/

variable {r : Request} {s' : RemoteStagedDbg} {requestHandler : Route} {reply : Option Body}
  {body : Body}

theorem post_of_route (hroute : route r = some requestHandler) : r.method = "POST" := by
  rw [route] at hroute
  split_ifs at hroute with hmatches
  rw [matchesContent, Bool.and_eq_true] at hmatches
  exact of_decide_eq_true hmatches.2

theorem eventHandler_route (hroute : route r = some requestHandler)
    (h : eventHandler engine fuel memory r s = some (s', reply)) :
    ∃ handled, handle engine fuel memory r.content s requestHandler = some handled ∧
      s' = (if handled.success then handled.server else handled.server.stop true) ∧
      reply = handled.body := by
  rw [eventHandler, if_neg (by rw [post_of_route hroute]; decide), hroute] at h
  obtain ⟨handled, hhandled, heq⟩ := Option.map_eq_some_iff.mp h
  cases heq
  exact ⟨handled, hhandled, rfl, rfl⟩

theorem eventHandler_noRoute (hroute : route r = none)
    (h : eventHandler engine fuel memory r s = some (s', reply)) : s' = s := by
  rw [eventHandler, hroute] at h
  split_ifs at h <;> cases h <;> rfl

/-- Only the evaluator's requests reach the staging process. -/
theorem eventHandler_other (hnextStage : route r ≠ some .nextStage)
    (hexecInline : route r ≠ some .execInline)
    (h : eventHandler engine fuel memory r s = some (s', reply)) :
    s'.process = s.process ∧ s'.ast = s.ast ∧
      (s'.isServerRunning = true → s.isServerRunning = true) := by
  cases hroute : route r with
  | none =>
      obtain rfl := eventHandler_noRoute hroute h
      exact ⟨rfl, rfl, id⟩
  | some requestHandler =>
      obtain ⟨handled, hhandled, rfl, -⟩ := eventHandler_route hroute h
      cases requestHandler with
      | nextStage => exact absurd hroute hnextStage
      | execInline => exact absurd hroute hexecInline
      | inspectAst | syncDbgInfo =>
          cases hhandled
          exact ⟨rfl, rfl, id⟩
      | closeSession =>
          cases hhandled
          exact ⟨rfl, rfl, nofun⟩

theorem eventHandler_nextStage_body (hroute : route r = some .nextStage)
    (h : eventHandler engine fuel memory r s = some (s', some body)) :
    s'.ast = s.ast ∧ ∃ depth srcCode,
      StagingProcess.nextStage fuel s.ast s.process = .ok (depth, srcCode) s'.process ∧
        body = nextStageReply depth srcCode s'.remainingInlines := by
  obtain ⟨handled, hhandled, rfl, hbody⟩ := eventHandler_route hroute h
  obtain ⟨-, -, -, hast, -, hsuccess, hreply⟩ := nextStage_spec hhandled
  have hreturns : handled.success = true := by rw [hsuccess, ← hbody]; rfl
  rw [if_pos hreturns]
  exact ⟨hast, hreply body hbody.symm⟩

/-- As long as the server runs on, the process has come through the inline. -/
theorem eventHandler_execInline_body (hroute : route r = some .execInline)
    (h : eventHandler engine fuel memory r s = some (s', some body)) :
    s'.ast = s.ast ∧ (s'.isServerRunning = true → s.isServerRunning = true) ∧
      (s'.isServerRunning = true → Staging.RemoteStagedDbg.execInline engine fuel memory
        r.content s.process =
          .ok () s'.process) := by
  obtain ⟨handled, hhandled, rfl, hbody⟩ := eventHandler_route hroute h
  obtain ⟨-, -, -, hast, hrunning, -, -, -, hsuccess⟩ := execInline_spec hhandled
  split_ifs with hreturns
  · exact ⟨hast, fun hruns => hrunning ▸ hruns, fun _ => hsuccess.mp hreturns⟩
  · exact ⟨hast, nofun, nofun⟩

/-- A stage that the process comes to is replied. -/
theorem eventHandler_nextStage_ok {p' : JSHeap × StagingProcess} {depth : ℕ} {srcCode : JSString}
    (hroute : route r = some .nextStage)
    (h : StagingProcess.nextStage fuel s.ast s.process = .ok (depth, srcCode) p') :
    ∃ s', eventHandler engine fuel memory r s =
        some (s', some (nextStageReply depth srcCode s'.remainingInlines)) ∧
      s'.process = p' ∧ s'.ast = s.ast ∧ s'.isServerRunning = s.isServerRunning := by
  have hrun : nextStage fuel s =
      some ⟨({ s with inlineHasChange := true, stageHasChange := true }).withProcess p',
        some (nextStageReply depth srcCode p'.2.stage.inlineNodesInfo.length), true⟩ := by
    rw [nextStage]
    change StagingProcess.nextStage fuel s.ast (s.heap, s.stagingProcess) = _ at h
    dsimp only
    rw [h]
    rfl
  refine ⟨({ s with inlineHasChange := true, stageHasChange := true }).withProcess p', ?_,
    rfl, rfl, rfl⟩
  rw [eventHandler, if_neg (by rw [post_of_route hroute]; decide), hroute]
  change Option.map _ (nextStage fuel s) = _
  rw [hrun]
  rfl

theorem eventHandler_execInline_ok {p' : JSHeap × StagingProcess}
    (hroute : route r = some .execInline)
    (h : Staging.RemoteStagedDbg.execInline engine fuel memory
      r.content s.process = .ok () p') :
    ∃ s' body, eventHandler engine fuel memory r s = some (s', some body) ∧
      (body = respFail ∨ ∃ inlines, body = respInline inlines) ∧
      s'.process = p' ∧ s'.ast = s.ast ∧ s'.isServerRunning = s.isServerRunning := by
  have hrun : ∃ body, execInline engine fuel memory r.content s =
      some ⟨({ s with inlineHasChange := true }).withProcess p', some body, true⟩ ∧
        (body = respFail ∨ ∃ inlines, body = respInline inlines) := by
    rw [execInline]
    dsimp only
    by_cases hqueue : s.process.2.stage.inlineNodesInfo = []
    · rw [Staging.RemoteStagedDbg.execInline, Staging.RemoteStagedDbg.execInlineWith,
        bind_ok (get_apply _), if_pos hqueue] at h
      cases h
      exact ⟨respFail, if_pos (List.length_eq_zero_iff.mpr hqueue), Or.inl rfl⟩
    · rw [execInline_eq hqueue] at h
      obtain ⟨_, p₁, hinline, hprint⟩ := bind_eq_ok.mp h
      obtain ⟨text, p₂, hunparse, hend⟩ := bind_eq_ok.mp hprint
      cases hend
      change executeInline engine memory r.content (s.heap, s.stagingProcess) = _ at hinline
      have hleft : ({ s with inlineHasChange := true } : RemoteStagedDbg).remainingInlines ≠ 0 :=
        fun hempty => hqueue (List.length_eq_zero_iff.mp hempty)
      refine ⟨respInline p₁.2.stage.inlineNodesInfo.length, ?_, Or.inr ⟨_, rfl⟩⟩
      rw [if_neg hleft, hinline]
      dsimp only
      rw [hunparse]
      rfl
  obtain ⟨body, hrun, hbody⟩ := hrun
  refine ⟨({ s with inlineHasChange := true }).withProcess p', body, ?_, hbody, rfl, rfl, rfl⟩
  rw [eventHandler, if_neg (by rw [post_of_route hroute]; decide), hroute]
  change Option.map _ (execInline engine fuel memory r.content s) = _
  rw [hrun]
  rfl

end MetaMonkey.Debugger.RemoteStagedDbg
