import MetaMonkey.Debugger.Handlers
import MetaMonkey.Debugger.Page
import MetaMonkey.Polling.Feed

/-!
A session of the debugger: the server, the page of the visualizer that polls it, and
whatever else sends requests. The page is brought up to date by every reply that comes in,
and no change is lost in between.
-/

namespace MetaMonkey.Debugger

open ObjectGraph Js Staging
open Js.Json (str)
open RemoteStagedDbg (Request route eventHandler eventHandler_route eventHandler_noRoute)

/-! ### Events -/

/-- The requests that a page is told of, and the polls. -/
inductive Event where
  | nextStage
  | execInline
  | inspectAst (ast : Json)
  | syncDbgInfo

namespace Event

/-- An inspection comes before the next poll. -/
def inspectsFirst : List Event → Bool
  | [] => false
  | .inspectAst _ :: _ => true
  | .syncDbgInfo :: _ => false
  | .nextStage :: history | .execInline :: history => inspectsFirst history

/-- The inspections that a page gets to see. The server keeps only the last one for it. -/
def inspected : List Event → List Json
  | [] => []
  | .inspectAst ast :: history =>
      if inspectsFirst history then inspected history else ast :: inspected history
  | .syncDbgInfo :: history | .nextStage :: history | .execInline :: history => inspected history

/-- The inspections that have been polled, and the one that has not. -/
def pendingStep : List Json × Option Json → Event → List Json × Option Json
  | (polled, _), .inspectAst ast => (polled, some ast)
  | (polled, pending), .syncDbgInfo => (polled ++ pending.toList, none)
  | seen, .nextStage | seen, .execInline => seen

def pending (history : List Event) : List Json × Option Json :=
  history.foldl pendingStep ([], none)

theorem pending_concat (history : List Event) (e : Event) :
    pending (history ++ [e]) = pendingStep (pending history) e := by
  rw [pending, List.foldl_append]
  rfl

theorem foldl_pendingStep (history : List Event) (polled : List Json) (ast : Option Json) :
    (history.foldl pendingStep (polled, ast)).1 ++
        (history.foldl pendingStep (polled, ast)).2.toList =
      polled ++ (if inspectsFirst history then [] else ast.toList) ++ inspected history := by
  induction history generalizing polled ast with
  | nil => simp [inspectsFirst, inspected]
  | cons e history ih =>
      cases e with
      | nextStage | execInline => exact ih polled ast
      | syncDbgInfo =>
          rw [List.foldl_cons, pendingStep, ih]
          simp [inspectsFirst, inspected]
      | inspectAst ast' =>
          rw [List.foldl_cons, pendingStep, ih]
          cases hfirst : inspectsFirst history <;> simp [inspectsFirst, inspected, hfirst]

/-- Each of the inspections that a page gets to see is polled, or is still there to be. -/
theorem pending_inspected (history : List Event) :
    (pending history).1 ++ (pending history).2.toList = inspected history := by
  have hseen := foldl_pendingStep history [] none
  simpa [pending] using hseen

end Event

/-! ### The session -/

/-- What a request is to the page. The body of an inspection is an AST as JSON. -/
inductive Asks (engine : JSONParser.Engine) (r : Request) : List Event → Prop
  | nextStage (h : route r = some .nextStage) : Asks engine r [.nextStage]
  | execInline (h : route r = some .execInline) : Asks engine r [.execInline]
  | inspectAst {ast : Json} (h : route r = some .inspectAst) (hsent : Sent engine ast)
      (hcontent : r.content = utf8 (str ast)) : Asks engine r [.inspectAst ast]
  | closeSession (h : route r = some .closeSession) : Asks engine r []
  | none (h : route r = none) : Asks engine r []

/-- The one request that the mutex of the page lets be under way. -/
inductive Wire where
  | idle
  | requested
  | replied (body : Body)

/-- `polling` holds while the loop of `HttpHandler::start` runs. -/
structure Session where
  server : RemoteStagedDbg
  polling : Bool
  page : Page
  wire : Wire
  history : List Event

namespace Session

def start (heap : JSHeap) (ast : Value) : Session :=
  ⟨.start heap ast, true, .initial, .idle, []⟩

/-- The request of the page. -/
def syncRequest : Request := ⟨"POST", "/syncdbg", some "application/json", []⟩

variable (engine : JSONParser.Engine) (fuel : ℕ) (memory : ℕ → UInt16)

/-- The requests come in any order, and in any number between two polls. -/
inductive Step : Session → Session → Prop
  | request {c : Session} {r : Request} {events : List Event} {server : RemoteStagedDbg}
      {body : Option Body} (hpolling : c.polling = true) (hasks : Asks engine r events)
      (hhandler : eventHandler engine fuel memory r c.server = some (server, body)) :
      Step c { c with server := server, history := c.history ++ events }
  | dies {c : Session} {r : Request} (hpolling : c.polling = true)
      (hhandler : eventHandler engine fuel memory r c.server = none) :
      Step c { c with polling := false }
  | stops {c : Session} (hstop : c.server.isServerRunning = false) :
      Step c { c with polling := false }
  | tick {c : Session} (hidle : c.page.isSyncing = false) :
      Step c { c with page := c.page.serverSync, wire := .requested }
  | serve {c : Session} {server : RemoteStagedDbg} {body : Body} (hpolling : c.polling = true)
      (hwire : c.wire = .requested)
      (hhandler : eventHandler engine fuel memory syncRequest c.server = some (server, some body)) :
      Step c { c with server := server, wire := .replied body,
                      history := c.history ++ [.syncDbgInfo] }
  | success {c : Session} {body : Body} {resp : Json} (hwire : c.wire = .replied body)
      (htells : Tells engine body resp) :
      Step c { c with page := c.page.onServerSyncSuccess (resp.get "msg"), wire := .idle }
  | refused {c : Session} (hpolling : c.polling = false) (hwire : c.wire = .requested) :
      Step c { c with page := c.page.onServerSyncFail, wire := .idle }
  | unreadable {c : Session} {body : Body} (hwire : c.wire = .replied body)
      (htells : ∀ resp, ¬ Tells engine body resp) :
      Step c { c with page := c.page.onServerSyncFail, wire := .idle }

end Session

/-! ### The changes as a feed -/

/-- The server, and what has happened to it. -/
structure Source where
  server : RemoteStagedDbg
  history : List Event

/-- The page shows the stage, what is left of it, and the inspections. -/
structure UpToDate (engine : JSONParser.Engine) (c : Source) (v : View) : Prop where
  depth : .nextStage ∈ c.history → v.depth = unsigned engine c.server.stage.depth
  srcCode : .nextStage ∈ c.history → v.srcCode = .string (strEscape c.server.stage.code)
  inlines : .nextStage ∈ c.history ∨ .execInline ∈ c.history →
    v.inlines = unsigned engine c.server.remainingInlines
  asts : v.asts = (Event.inspected c.history).map Json.kept

/-- The `msg` of the next reply of `syncDbgInfo`. -/
def Source.msg (engine : JSONParser.Engine) (c : Source) : Json :=
  .object (syncProperties engine c.server ((Event.pending c.history).2.map Json.kept))

/-- What the page makes of the reply. -/
theorem told_msg (engine : JSONParser.Engine) (c : Source) (v : View) :
    v.told (c.msg engine) =
      { depth := if c.server.stageHasChange then unsigned engine c.server.stage.depth else v.depth
        inlines := if c.server.inlineHasChange then unsigned engine c.server.remainingInlines
          else v.inlines
        srcCode := if c.server.stageHasChange then .string (strEscape c.server.stage.code)
          else v.srcCode
        asts := v.asts ++ ((Event.pending c.history).2.map Json.kept).toList } := by
  rw [Source.msg, syncProperties]
  cases (Event.pending c.history).2 <;> cases c.server.stageHasChange <;>
    cases c.server.inlineHasChange <;>
    simp [View.told, View.setInlines, View.setStage, View.addAst, Json.has, Json.get,
      List.lookup_cons]

variable (engine : JSONParser.Engine) (fuel : ℕ) (memory : ℕ → UInt16)

theorem upToDate_poll {c : Source} {v : View}
    (h : UpToDate engine c (v.told (c.msg engine))) :
    UpToDate engine ⟨c.server.clearChanges, c.history ++ [.syncDbgInfo]⟩
      ((v.told (c.msg engine)).told
        (Source.msg engine ⟨c.server.clearChanges, c.history ++ [.syncDbgInfo]⟩)) := by
  have hpending : (Event.pending (c.history ++ [.syncDbgInfo])).2 = none := by
    rw [Event.pending_concat]
    rfl
  have hinspected : Event.inspected (c.history ++ [.syncDbgInfo]) = Event.inspected c.history := by
    rw [← Event.pending_inspected, ← Event.pending_inspected, Event.pending_concat]
    simp [Event.pendingStep]
  have htold : ∀ w : View,
      w.told (Source.msg engine ⟨c.server.clearChanges, c.history ++ [.syncDbgInfo]⟩) = w := by
    intro w
    rw [told_msg]
    simp [hpending, RemoteStagedDbg.clearChanges]
  rw [htold]
  refine ⟨fun hstage => h.depth ?_, fun hstage => h.srcCode ?_, fun hinline => h.inlines ?_, ?_⟩
  · simpa using hstage
  · simpa using hstage
  · simpa using hinline
  · rw [hinspected]
    exact h.asts

/-- The server as what the page polls. -/
def changes : Polling.Feed Source Json View where
  report c := c.msg engine
  clear c := ⟨c.server.clearChanges, c.history ++ [.syncDbgInfo]⟩
  apply := View.told
  Agrees := UpToDate engine
  agrees_clear := upToDate_poll engine

/-- A request of another than the page. -/
def Source.Change (c c' : Source) : Prop :=
  ∃ r events body, Asks engine r events ∧
    eventHandler engine fuel memory r c.server = some (c'.server, body) ∧
    c'.history = c.history ++ events

section

variable {engine fuel memory} {r : Request} {s s' : RemoteStagedDbg} {body : Option Body}

/-- What the page is told of a server is the same, the inspected AST aside. -/
structure SameToPage (s s' : RemoteStagedDbg) : Prop where
  stageHasChange : s'.stageHasChange = s.stageHasChange
  inlineHasChange : s'.inlineHasChange = s.inlineHasChange
  stage : s'.stage = s.stage

theorem eventHandler_nextStage (hroute : route r = some .nextStage)
    (h : eventHandler engine fuel memory r s = some (s', body)) :
    s'.stageHasChange = true ∧ s'.inlineHasChange = true ∧ s'.inspectedAst = s.inspectedAst := by
  obtain ⟨handled, hhandled, rfl, -⟩ := eventHandler_route hroute h
  obtain ⟨hstage, hinline, hinspected, -⟩ := RemoteStagedDbg.nextStage_spec hhandled
  split_ifs <;> exact ⟨hstage, hinline, hinspected⟩

theorem eventHandler_execInline (hroute : route r = some .execInline)
    (h : eventHandler engine fuel memory r s = some (s', body)) :
    s'.inlineHasChange = true ∧ s'.stageHasChange = s.stageHasChange ∧
      s'.inspectedAst = s.inspectedAst ∧ s'.stage.told = s.stage.told := by
  obtain ⟨handled, hhandled, rfl, -⟩ := eventHandler_route hroute h
  obtain ⟨hinline, hstage, hinspected, -, -, htold, -⟩ := RemoteStagedDbg.execInline_spec hhandled
  split_ifs <;> exact ⟨hinline, hstage, hinspected, htold⟩

theorem eventHandler_inspectAst (hroute : route r = some .inspectAst)
    (h : eventHandler engine fuel memory r s = some (s', body)) :
    SameToPage s s' ∧ s'.inspectedAst = some (encodeString (inflateString r.content)) := by
  obtain ⟨handled, hhandled, rfl, -⟩ := eventHandler_route hroute h
  cases hhandled
  exact ⟨⟨rfl, rfl, rfl⟩, rfl⟩

theorem eventHandler_closeSession (hroute : route r = some .closeSession)
    (h : eventHandler engine fuel memory r s = some (s', body)) :
    SameToPage s s' ∧ s'.inspectedAst = s.inspectedAst := by
  obtain ⟨handled, hhandled, rfl, -⟩ := eventHandler_route hroute h
  cases hhandled
  exact ⟨⟨rfl, rfl, rfl⟩, rfl⟩

/-- The inspections up to the next reply are shown with it if those before it are. -/
theorem told_asts_iff {c : Source} {v : View} :
    (v.told (c.msg engine)).asts = (Event.inspected c.history).map Json.kept ↔
      v.asts = (Event.pending c.history).1.map Json.kept := by
  rw [told_msg, ← Event.pending_inspected, List.map_append, ← Option.toList_map]
  exact List.append_left_inj _

/-- A request that changes neither the stage nor what is known of it. -/
theorem upToDate_same {c c' : Source} {v : View} (hsame : SameToPage c.server c'.server)
    (hevents : ∀ e, (e = .nextStage ∨ e = .execInline) → (e ∈ c'.history ↔ e ∈ c.history))
    (hpolled : (Event.pending c'.history).1 = (Event.pending c.history).1)
    (h : UpToDate engine c (v.told (c.msg engine))) :
    UpToDate engine c' (v.told (c'.msg engine)) := by
  have hdepth := h.depth
  have hsrcCode := h.srcCode
  have hinlines := h.inlines
  have hasts := told_asts_iff.mp h.asts
  rw [told_msg] at hdepth hsrcCode hinlines
  refine ⟨fun hmem => ?_, fun hmem => ?_, fun hmem => ?_, told_asts_iff.mpr (hpolled ▸ hasts)⟩
  · rw [told_msg]
    dsimp only
    rw [hsame.stageHasChange, hsame.stage]
    exact hdepth ((hevents _ (Or.inl rfl)).mp hmem)
  · rw [told_msg]
    dsimp only
    rw [hsame.stageHasChange, hsame.stage]
    exact hsrcCode ((hevents _ (Or.inl rfl)).mp hmem)
  · rw [told_msg]
    dsimp only
    rw [hsame.inlineHasChange, RemoteStagedDbg.remainingInlines, hsame.stage]
    exact hinlines (hmem.imp (hevents _ (Or.inl rfl)).mp (hevents _ (Or.inr rfl)).mp)

/-- Every change is in the next reply. -/
theorem reported : (changes engine).Reported (Source.Change engine fuel memory) := by
  rintro c c' v ⟨r, events, body, hasks, hhandler, hhistory⟩ h
  have hpending : ∀ e, events = [e] → Event.pending c'.history =
      Event.pendingStep (Event.pending c.history) e := by
    rintro e rfl
    rw [hhistory, Event.pending_concat]
  cases hasks with
  | nextStage hroute =>
      obtain ⟨hstage, hinline, -⟩ := eventHandler_nextStage hroute hhandler
      have hpolled := congrArg Prod.fst (hpending _ rfl)
      refine ⟨fun _ => ?_, fun _ => ?_, fun _ => ?_,
        told_asts_iff.mpr (hpolled ▸ told_asts_iff.mp h.asts)⟩
      · exact (congrArg View.depth (told_msg engine c' v)).trans (if_pos hstage)
      · exact (congrArg View.srcCode (told_msg engine c' v)).trans (if_pos hstage)
      · exact (congrArg View.inlines (told_msg engine c' v)).trans (if_pos hinline)
  | execInline hroute =>
      obtain ⟨hinline, hstage, -, htold⟩ := eventHandler_execInline hroute hhandler
      have hpolled := congrArg Prod.fst (hpending _ rfl)
      have hmem : Event.nextStage ∈ c'.history → Event.nextStage ∈ c.history := by
        rw [hhistory]
        simp
      have hdepth : c'.server.stage.depth = c.server.stage.depth := congrArg Prod.fst htold
      have hcode : c'.server.stage.code = c.server.stage.code := congrArg Prod.snd htold
      have hshown := h.depth
      have hsource := h.srcCode
      change Event.nextStage ∈ c.history → View.depth (v.told (c.msg engine)) = _ at hshown
      change Event.nextStage ∈ c.history → View.srcCode (v.told (c.msg engine)) = _ at hsource
      rw [told_msg] at hshown hsource
      refine ⟨fun hnext => ?_, fun hnext => ?_, fun _ => ?_,
        told_asts_iff.mpr (hpolled ▸ told_asts_iff.mp h.asts)⟩
      · refine (congrArg View.depth (told_msg engine c' v)).trans ?_
        dsimp only
        rw [hstage, hdepth]
        exact hshown (hmem hnext)
      · refine (congrArg View.srcCode (told_msg engine c' v)).trans ?_
        dsimp only
        rw [hstage, hcode]
        exact hsource (hmem hnext)
      · exact (congrArg View.inlines (told_msg engine c' v)).trans (if_pos hinline)
  | inspectAst hroute hsent hcontent =>
      have hpolled := congrArg Prod.fst (hpending _ rfl)
      refine upToDate_same (eventHandler_inspectAst hroute hhandler).1 ?_ hpolled h
      rintro e (rfl | rfl) <;> simp [hhistory]
  | closeSession hroute =>
      rw [List.append_nil] at hhistory
      refine upToDate_same (eventHandler_closeSession hroute hhandler).1 ?_ (by rw [hhistory]) h
      intro e _
      rw [hhistory]
  | none hroute =>
      rw [List.append_nil] at hhistory
      obtain heq := eventHandler_noRoute hroute hhandler
      refine upToDate_same ⟨by rw [heq], by rw [heq], by rw [heq]⟩ ?_ (by rw [hhistory]) h
      intro e _
      rw [hhistory]

/-! ### Runs -/

open Polling

namespace Session

def source (c : Session) : Source := ⟨c.server, c.history⟩

end Session

/-- The reply on the wire, and whether the page waits for one. -/
inductive Carries (engine : JSONParser.Engine) : Wire → Bool → List Json → Prop
  | idle : Carries engine .idle false []
  | requested : Carries engine .requested true []
  | replied {body : Body} {msg : Json} (htells : Tells engine body (.object [("msg", msg)])) :
      Carries engine (.replied body) true [msg]

section

variable {engine : JSONParser.Engine} {wire : Wire} {isSyncing : Bool} {msgs : List Json}

theorem Carries.of_waits (h : Carries engine wire false msgs) : msgs = [] := by
  cases h
  rfl

theorem Carries.of_idle (h : Carries engine .idle isSyncing msgs) : msgs = [] := by
  cases h
  rfl

theorem Carries.of_requested (h : Carries engine .requested isSyncing msgs) :
    isSyncing = true ∧ msgs = [] := by
  cases h
  exact ⟨rfl, rfl⟩

theorem Carries.of_replied {body : Body} (h : Carries engine (.replied body) isSyncing msgs) :
    isSyncing = true ∧ ∃ msg, msgs = [msg] ∧ Tells engine body (.object [("msg", msg)]) := by
  cases h with
  | replied htells => exact ⟨rfl, _, rfl, htells⟩

theorem Carries.syncing_iff (h : Carries engine wire isSyncing msgs) :
    isSyncing = false ↔ wire = .idle := by
  cases h <;> simp

end

/-- The inspections that a page has stay. -/
theorem prefix_told (msg : Json) (v : View) : v.asts <+: (v.told msg).asts := by
  have hkept : ((v.setInlines msg).setStage msg).asts = v.asts := by
    rw [View.setStage, View.setInlines]
    split_ifs <;> rfl
  rw [View.told, View.addAst]
  split_ifs
  · exact ⟨_, by rw [hkept]⟩
  · exact ⟨[], by rw [hkept, List.append_nil]⟩

theorem prefix_foldl_told (msgs : List Json) (v : View) :
    v.asts <+: (msgs.foldl View.told v).asts := by
  induction msgs generalizing v with
  | nil => exact List.prefix_refl _
  | cons msg msgs ih => exact (prefix_told msg v).trans (ih _)

/-- The session as a channel of the feed. The inspected AST is the text that was sent. -/
structure Simulates (engine : JSONParser.Engine) (c : Session)
    (channel : Channel Source Json View) : Prop where
  source : channel.source = c.source
  view : channel.view = c.page.view
  wire : Carries engine c.wire c.page.isSyncing channel.wire
  text : c.server.inspectedAst = (Event.pending c.history).2.map fun ast => utf8 (str ast)
  sent : ∀ ast ∈ (Event.pending c.history).2, Sent engine ast

theorem eventHandler_sync (s : RemoteStagedDbg) :
    eventHandler engine fuel memory Session.syncRequest s =
      some (s.clearChanges, some s.syncText) := by
  have hroute : route Session.syncRequest = some .syncDbgInfo := by decide +kernel
  rw [eventHandler, if_neg (by decide), hroute]
  rfl

/-- The inspected AST after a request of another than the page. -/
theorem inspectedAst_of_asks {c : Session} {events : List Event} (hasks : Asks engine r events)
    (h : eventHandler engine fuel memory r c.server = some (s', body))
    (htext : c.server.inspectedAst = (Event.pending c.history).2.map fun ast => utf8 (str ast))
    (hsent : ∀ ast ∈ (Event.pending c.history).2, Sent engine ast) :
    s'.inspectedAst = (Event.pending (c.history ++ events)).2.map (fun ast => utf8 (str ast)) ∧
      ∀ ast ∈ (Event.pending (c.history ++ events)).2, Sent engine ast := by
  cases hasks with
  | nextStage hroute =>
      rw [Event.pending_concat, (eventHandler_nextStage hroute h).2.2]
      exact ⟨htext, hsent⟩
  | execInline hroute =>
      rw [Event.pending_concat, (eventHandler_execInline hroute h).2.2.1]
      exact ⟨htext, hsent⟩
  | inspectAst hroute hnew hcontent =>
      rw [Event.pending_concat, (eventHandler_inspectAst hroute h).2, hcontent, hnew.stored]
      refine ⟨rfl, fun ast hast => ?_⟩
      cases hast
      exact hnew
  | closeSession hroute =>
      rw [List.append_nil, (eventHandler_closeSession hroute h).2]
      exact ⟨htext, hsent⟩
  | none hroute =>
      rw [List.append_nil, eventHandler_noRoute hroute h]
      exact ⟨htext, hsent⟩

/-- Each step of the session is one of the channel, or none. -/
theorem Session.Step.simulates (hnames : KnowsNames engine) {c c' : Session}
    {channel : Channel Source Json View} (h : Session.Step engine fuel memory c c')
    (hc : Simulates engine c channel) :
    ∃ channel', Relation.ReflTransGen ((changes engine).Step (Source.Change engine fuel memory))
      channel channel' ∧ Simulates engine c' channel' := by
  obtain ⟨source, wire, view⟩ := channel
  obtain ⟨rfl, rfl, hwire, htext, hsent⟩ := hc
  dsimp only at hwire
  cases h with
  | @request r events server body hpolling hasks hhandler =>
      obtain ⟨htext', hsent'⟩ := inspectedAst_of_asks hasks hhandler htext hsent
      have hchange : Source.Change engine fuel memory c.source ⟨server, c.history ++ events⟩ :=
        ⟨_, _, _, hasks, hhandler, rfl⟩
      exact ⟨_, .single (.change hchange), rfl, rfl, hwire, htext', hsent'⟩
  | dies hpolling hhandler => exact ⟨_, .refl, rfl, rfl, hwire, htext, hsent⟩
  | stops hstop => exact ⟨_, .refl, rfl, rfl, hwire, htext, hsent⟩
  | tick hidle =>
      rw [hidle] at hwire
      obtain rfl := hwire.of_waits
      exact ⟨_, .refl, rfl, rfl, .requested, htext, hsent⟩
  | @serve server body hpolling hrequested hhandler =>
      rw [hrequested] at hwire
      obtain ⟨hsyncing, rfl⟩ := hwire.of_requested
      rw [eventHandler_sync] at hhandler
      cases hhandler
      have htells := tells_syncText hnames c.server htext hsent
      have hpending : Event.pending (c.history ++ [.syncDbgInfo]) =
          Event.pendingStep (Event.pending c.history) .syncDbgInfo := Event.pending_concat _ _
      refine ⟨_, .single .poll, rfl, rfl, ?_, ?_, ?_⟩
      · rw [hsyncing]
        exact .replied htells
      · rw [hpending]
        rfl
      · rw [hpending]
        exact nofun
  | @success body resp hreplied htells =>
      rw [hreplied] at hwire
      obtain ⟨-, msg, rfl, hsays⟩ := hwire.of_replied
      obtain rfl := htells.unique hsays
      exact ⟨_, .single .deliver, rfl, rfl, .idle, htext, hsent⟩
  | refused hpolling hrequested =>
      rw [hrequested] at hwire
      obtain ⟨-, rfl⟩ := hwire.of_requested
      exact ⟨_, .refl, rfl, rfl, .idle, htext, hsent⟩
  | @unreadable body hreplied htells =>
      rw [hreplied] at hwire
      obtain ⟨-, msg, rfl, hsays⟩ := hwire.of_replied
      exact absurd hsays (htells _)

theorem simulates_start (heap : JSHeap) (ast : Value) :
    Simulates engine (Session.start heap ast) ⟨(Session.start heap ast).source, [], .default⟩ :=
  ⟨rfl, rfl, .idle, rfl, nofun⟩

/-- The rule for runs: a session stays in step with a channel that is up to date. -/
theorem run_simulates (hnames : KnowsNames engine) {heap : JSHeap} {ast : Value} {c : Session}
    (hrun : Relation.ReflTransGen (Session.Step engine fuel memory) (Session.start heap ast) c) :
    ∃ channel, Simulates engine c channel ∧ (changes engine).Current channel := by
  have hchannel : ∃ channel, Simulates engine c channel ∧
      Relation.ReflTransGen ((changes engine).Step (Source.Change engine fuel memory))
        ⟨(Session.start heap ast).source, [], .default⟩ channel := by
    induction hrun with
    | refl => exact ⟨_, simulates_start heap ast, .refl⟩
    | tail _ hstep ih =>
        obtain ⟨channel, hsimulates, hrun⟩ := ih
        obtain ⟨channel', hrun', hsimulates'⟩ := hstep.simulates hnames hsimulates
        exact ⟨channel', hsimulates', hrun.trans hrun'⟩
  obtain ⟨channel, hsimulates, hrun'⟩ := hchannel
  refine ⟨channel, hsimulates, Feed.current_run reported hrun' ?_⟩
  exact ⟨nofun, nofun, fun hmem => hmem.elim nofun nofun, rfl⟩

/-- Nothing is on its way to the page, and nothing has changed since it last was. -/
def Session.Quiet (c : Session) : Prop :=
  c.wire = .idle ∧ c.server.stageHasChange = false ∧ c.server.inlineHasChange = false ∧
    c.server.inspectedAst = none

/-- What the page has told of the server in any session: every reply can be read, one
request at most is under way, the inspections are shown in their order, the next reply
brings an idle page up to date, and a quiet page is up to date. -/
theorem visualizer_upToDate (hnames : KnowsNames engine) {heap : JSHeap} {ast : Value}
    {c : Session}
    (hrun : Relation.ReflTransGen (Session.Step engine fuel memory) (Session.start heap ast) c) :
    (∀ body, c.wire = .replied body → ∃ resp, Tells engine body resp) ∧
      (c.page.isSyncing = false ↔ c.wire = .idle) ∧
      c.page.view.asts <+: (Event.inspected c.history).map Json.kept ∧
      (c.wire = .idle → UpToDate engine c.source (c.page.view.told (c.source.msg engine))) ∧
      (c.Quiet → UpToDate engine c.source c.page.view) := by
  obtain ⟨⟨source, wire, view⟩, ⟨rfl, rfl, hwire, htext, hsent⟩, hcurrent⟩ :=
    run_simulates hnames hrun
  dsimp only at hwire
  have hidle : c.wire = .idle → wire = [] := by
    intro heq
    rw [heq] at hwire
    exact hwire.of_idle
  have hnext : c.wire = .idle → UpToDate engine c.source (c.page.view.told (c.source.msg engine)) :=
    fun heq => hcurrent.after_poll (hidle heq)
  refine ⟨?_, hwire.syncing_iff, ?_, hnext, ?_⟩
  · intro body hreplied
    rw [hreplied] at hwire
    obtain ⟨-, msg, -, hsays⟩ := hwire.of_replied
    exact ⟨_, hsays⟩
  · have hasts : ((wire.foldl View.told c.page.view).told (c.source.msg engine)).asts =
        (Event.inspected c.history).map Json.kept := hcurrent.asts
    rw [← hasts]
    exact (prefix_foldl_told wire c.page.view).trans (prefix_told _ _)
  · rintro ⟨heq, hstage, hinline, hinspected⟩
    have hsame : c.page.view.told (c.source.msg engine) = c.page.view := by
      have hpending : (Event.pending c.history).2 = none := by
        rw [hinspected] at htext
        exact Option.map_eq_none_iff.mp htext.symm
      rw [told_msg]
      simp [Session.source, hstage, hinline, hpending]
    exact hsame ▸ hnext heq

/-- The request that inspects the empty program. -/
def inspectRequest : Request :=
  ⟨"POST", "/inspectast", some "application/json", utf8 (str emptyProgram)⟩

/-- A session in which a program is inspected and polled. -/
theorem visualizer_shows_emptyProgram : ∃ c,
    Relation.ReflTransGen (Session.Step wordEngine 0 fun _ => 0) (.start Heap.empty Js.null) c ∧
      c.page.view.asts = [emptyProgram] := by
  have hnames := knowsNames_wordEngine
  have hroute : route inspectRequest = some .inspectAst := by decide +kernel
  let c₀ := Session.start Heap.empty Js.null
  let server := (RemoteStagedDbg.inspectAst inspectRequest.content c₀.server).server
  let c₁ : Session := { c₀ with server := server, history := [.inspectAst emptyProgram] }
  have hhandler : eventHandler wordEngine 0 (fun _ => 0) inspectRequest c₀.server =
      some (server, some RemoteStagedDbg.respSuccess) := by
    rw [eventHandler, if_neg (by decide), hroute]
    rfl
  have hinspect : Session.Step wordEngine 0 (fun _ => 0) c₀ c₁ :=
    .request rfl (.inspectAst hroute sent_emptyProgram rfl) hhandler
  let c₂ : Session := { c₁ with page := c₁.page.serverSync, wire := .requested }
  let c₃ : Session :=
    { c₂ with server := server.clearChanges, wire := .replied server.syncText,
              history := c₂.history ++ [.syncDbgInfo] }
  have hserve : Session.Step wordEngine 0 (fun _ => 0) c₂ c₃ :=
    .serve rfl rfl (eventHandler_sync server)
  have hast : server.inspectedAst = (some emptyProgram).map fun ast => utf8 (str ast) :=
    congrArg some sent_emptyProgram.stored
  have htells : Tells wordEngine server.syncText
      (syncData wordEngine server (some emptyProgram.kept)) :=
    tells_syncText hnames server hast fun ast hmem => Option.mem_some.mp hmem ▸ sent_emptyProgram
  let c₄ : Session :=
    { c₃ with page := c₃.page.onServerSyncSuccess
                ((syncData wordEngine server (some emptyProgram.kept)).get "msg"), wire := .idle }
  have hrun : Relation.ReflTransGen (Session.Step wordEngine 0 fun _ => 0) c₀ c₄ :=
    .tail (.tail (.tail (.single hinspect) (.tick rfl)) hserve) (.success rfl htells)
  refine ⟨c₄, hrun, ?_⟩
  exact ((visualizer_upToDate hnames hrun).2.2.2.2 ⟨rfl, rfl, rfl, rfl⟩).asts

end

end MetaMonkey.Debugger
