import MetaMonkey.Js.Stringify
import MetaMonkey.Staging.InlineRequest

/-!
The session of the debugger: the page asks for the next stage, evaluates its code, and sends
one request for every call of `inline`, until depth 0 is reported. Its runs are compared with
those of the loop of `unParse`.
-/

namespace MetaMonkey.Staging

open ObjectGraph Js Unparse
open Js.Json (str)

variable (engine : JSONParser.Engine) (fuel : ℕ) (memory : ℕ → UInt16)

namespace RemoteStagedDbg

open StagingProcess

/-- A request for each of the values, with its JSON as the body. -/
def execInlines : List Json → JsM StagingProcess Unit
  | [] => pure ()
  | ast :: values => do
      execInline engine fuel memory (utf8 (str ast))
      execInlines values

/-- The requests of a session, for a number of calls of `nextStage`: whether one of them
has reported depth 0. `evaluate` is what the page's evaluation of code calls `inline` with. -/
def session (evaluate : JSString → List Json) (obj : Value) : ℕ → JsM StagingProcess Bool
  | 0 => return false
  | rounds + 1 => do
      let (depth, srcCode) ← nextStage fuel obj
      if depth = 0 then
        return true
      else
        execInlines engine fuel memory (evaluate srcCode)
        session evaluate obj rounds

end RemoteStagedDbg

/-! ### What the debugger relies on -/

/-- A value as an object of the heap, the one that `JSON.parse` builds of its text. -/
def valueOf (ast : Json) : JSHeap → Except Fault (JSHeap × Value) :=
  RemoteStagedDbg.parseJSON engine (str ast)

/-- The script that hands these values to its calls of `inline` and does nothing else. -/
def assigned (evaluate : JSString → List Json) (srcCode : JSString) : Script where
  calls := (evaluate srcCode).map (valueOf engine)
  rest h := .ok h

/-- The AST can be printed after each of the calls, after the last one without the execs. -/
def PrintsAlong : List (JSHeap → Except Fault (JSHeap × Value)) → JSHeap × Stage → Prop
  | [], s => ∀ s', Stage.cutExecs s = .ok () s' → Prints fuel s'.2.ast s'.1
  | call :: calls, s =>
      ∀ h inlnArg s', call s.1 = .ok (h, inlnArg) →
        StagingProcess.executeInline inlnArg (h, s.2) = .ok () s' →
          (calls ≠ [] → Prints fuel s'.2.ast s'.1) ∧ PrintsAlong calls s'

/-- The stage has an inline tag, the text of each value has as many bytes as units, and the
AST can be printed between the inlines. -/
structure Debuggable (values : List Json) (s : JSHeap × Stage) : Prop where
  inlines : s.2.inlineNodesInfo ≠ []
  ascii : ∀ ast ∈ values, SameLength (str ast)
  prints : PrintsAlong fuel (values.map (valueOf engine)) s

/-- A condition on every stage that the loop of `unParse` runs, once its tags are collected:
on the values of its inlines, and the state. -/
def EachStage (evaluate : JSString → List Json) (obj : Value)
    (P : List Json → JSHeap × Stage → Prop) : ℕ → JSHeap × StagingProcess → Prop
  | 0, _ => True
  | rounds + 1, s => ∀ depth s₁, StagingProcess.getDeapestStage fuel obj s = .ok depth s₁ →
      depth ≠ 0 →
        (∀ s₂, collect fuel obj depth (s₁.1, s₁.2.stage) = .ok () s₂ →
          P (evaluate s₂.2.code) s₂) ∧
        ∀ s₂, StagingProcess.staging fuel (assigned engine evaluate) obj depth s₁ = .ok () s₂ →
          EachStage evaluate obj P rounds s₂

/-- Each of the inline tags has a value. -/
def Assigns (values : List Json) (s : JSHeap × Stage) : Prop :=
  values.length = s.2.inlineNodesInfo.length

section

variable {engine fuel memory} {obj : Value} {s t s' t' : JSHeap × StagingProcess}

/-- The AST can be printed at the end of the stage. -/
theorem PrintsAlong.last {calls : List (JSHeap → Except Fault (JSHeap × Value))}
    {r r₁ r₂ : JSHeap × Stage} (h : PrintsAlong fuel calls r)
    (hcalls : StagingProcess.evaluateCalls calls r = .ok () r₁)
    (hcut : Stage.cutExecs r₁ = .ok () r₂) : Prints fuel r₂.2.ast r₂.1 := by
  induction calls generalizing r with
  | nil =>
      cases hcalls
      exact h r₂ hcut
  | cons call calls ih =>
      obtain ⟨g, inlnArg, r', hcall, hexec, hcalls⟩ := evaluateCalls_cons hcalls
      exact ih (h g inlnArg r' hcall hexec).2 hcalls

/-- The requests of a stage do what its script and the end of `exec` do. -/
theorem execInlines_alike {values : List Json} {t : JSHeap × StagingProcess}
    {r r' : JSHeap × Stage} (memory : ℕ → UInt16) (hne : values ≠ [])
    (hlength : values.length = t.2.stage.inlineNodesInfo.length)
    (hsame : ∀ ast ∈ values, SameLength (str ast))
    (hprints : PrintsAlong fuel (values.map (valueOf engine)) (t.1, t.2.stage))
    (hcalls : StagingProcess.evaluateCalls (values.map (valueOf engine)) (t.1, t.2.stage) =
      .ok () r)
    (hcut : Stage.cutExecs r = .ok () r') :
    ∃ t', RemoteStagedDbg.execInlines engine fuel memory values t = .ok () t' ∧
      (t'.1, t'.2.stage) = r' := by
  induction values generalizing t with
  | nil => exact absurd rfl hne
  | cons ast values ih =>
      obtain ⟨h, inlnArg, s₃, hcall, hexec, hcalls⟩ := evaluateCalls_cons hcalls
      obtain ⟨info, hqueue⟩ := executeInline_queue hexec
      have ht : t.2.stage.inlineNodesInfo ≠ [] := by
        rw [show t.2.stage.inlineNodesInfo = _ from hqueue]
        exact List.cons_ne_nil _ _
      have hrest : values.length = s₃.2.inlineNodesInfo.length := by
        rw [show t.2.stage.inlineNodesInfo = _ from hqueue] at hlength
        simpa using hlength
      obtain ⟨hbetween, hprints⟩ := hprints h inlnArg s₃ hcall hexec
      -- the request makes the value that the call of `inline` is given
      have hone : RemoteStagedDbg.execInline engine fuel memory (utf8 (str ast)) =
          RemoteStagedDbg.execInlineWith fuel (valueOf engine ast) := by
        rw [RemoteStagedDbg.execInline, inlineArg_of_sameLength (hsame ast List.mem_cons_self),
          valueOf]
      rw [RemoteStagedDbg.execInlines, hone]
      cases values with
      | nil =>
          cases hcalls
          obtain ⟨t', hlast, heq⟩ := executed_last ht hcall hexec
            (List.eq_nil_of_length_eq_zero hrest.symm) hcut (hprints r' hcut)
          exact ⟨t', by rw [bind_ok hlast]; rfl, heq⟩
      | cons next values =>
          have hmore : s₃.2.inlineNodesInfo ≠ [] := by
            intro hnil
            simp [hnil] at hrest
          obtain ⟨t₁, hmerged, rfl⟩ := executed_alike ht hcall hexec hmore
            (hbetween (List.cons_ne_nil _ _))
          obtain ⟨t', hrun, heq⟩ := ih (List.cons_ne_nil _ _) hrest
            (fun ast hast => hsame ast (List.mem_cons_of_mem _ hast)) hprints hcalls
          exact ⟨t', by rw [bind_ok hmerged, hrun], heq⟩

/-! ### Runs -/

/-- In a run whose stages all have an inline tag and whose values are of ASCII, the session of
the debugger reaches depth 0 with as many calls of `nextStage` as `unParse` takes rounds, and
leaves the same AST. -/
theorem session_agrees {evaluate : JSString → List Json} {rounds : ℕ} {ended : Bool}
    (hrun : StagingProcess.unParseLoop fuel (assigned engine evaluate) obj rounds s =
      .ok ended s')
    (hassigns : EachStage engine fuel evaluate obj Assigns rounds s)
    (hdebuggable : EachStage engine fuel evaluate obj (Debuggable engine fuel) rounds s)
    (hst : Alike s t) :
    ∃ t', RemoteStagedDbg.session engine fuel memory evaluate obj rounds t = .ok ended t' ∧
      Alike s' t' := by
  induction rounds generalizing s t with
  | zero =>
      cases hrun
      exact ⟨t, rfl, hst⟩
  | succ rounds ih =>
      obtain ⟨depth, s₁, hdepth, hrun⟩ := bind_eq_ok.mp hrun
      obtain ⟨t₁, htdepth, hst₁⟩ := hst.getDeapestStage hdepth
      rw [RemoteStagedDbg.session]
      by_cases hzero : depth = 0
      · subst hzero
        cases hrun
        have hnext : StagingProcess.nextStage fuel obj t = .ok (0, []) t₁ := by
          rw [StagingProcess.nextStage, bind_ok htdepth]
          rfl
        exact ⟨t₁, bind_ok hnext _, hst₁⟩
      · rw [if_neg hzero] at hrun
        obtain ⟨⟨⟩, s₂, hstaging, hrun⟩ := bind_eq_ok.mp hrun
        obtain ⟨hassigned, hassigns⟩ := hassigns depth s₁ hdepth hzero
        obtain ⟨hdebug, hdebuggable⟩ := hdebuggable depth s₁ hdepth hzero
        specialize hassigns s₂ hstaging
        specialize hdebuggable s₂ hstaging
        -- the queues are the same in both
        obtain ⟨⟨⟩, a, hinit, hstaging⟩ := bind_eq_ok.mp hstaging
        obtain ⟨⟨⟩, b, hcollect, hstaging⟩ := bind_eq_ok.mp hstaging
        obtain ⟨⟨⟩, c, hexec, hstaging⟩ := bind_eq_ok.mp hstaging
        obtain ⟨text, d, hprint, hdone⟩ := bind_eq_ok.mp hstaging
        cases hdone
        obtain ⟨a', hinit', hst₂⟩ := hst₁.onStage hinit
        obtain ⟨b', hcollect', hst₃⟩ := hst₂.onStage hcollect
        have hcollected : collect fuel obj depth (s₁.1, s₁.2.stage) = .ok () (b.1, b.2.stage) := by
          rw [collect, bind_ok (onStage_eq_ok.mp hinit).1]
          exact (onStage_eq_ok.mp hcollect).1
        have hassigned := hassigned _ hcollected
        have hdebug := hdebug _ hcollected
        -- and the script and the requests
        obtain ⟨hexec, -⟩ := onStage_eq_ok.mp hexec
        rw [StagingProcess.exec, bind_ok (get_apply _)] at hexec
        obtain ⟨⟨⟩, r, hcalls, hexec⟩ := bind_eq_ok.mp hexec
        rw [bind_ok (writes_ok (show (assigned engine evaluate b.2.stage.code).rest r.1 =
          .ok r.1 from rfl))] at hexec
        have hne : evaluate b.2.stage.code ≠ [] := by
          intro hnil
          have hlength : (evaluate b.2.stage.code).length = _ := hassigned
          rw [hnil] at hlength
          exact hdebug.inlines (List.eq_nil_of_length_eq_zero hlength.symm)
        have hbb : (b.1, b.2.stage) = (b'.1, b'.2.stage) := Prod.ext hst₃.1 hst₃.2
        have hprints : PrintsAlong fuel ((evaluate b.2.stage.code).map (valueOf engine))
            (b'.1, b'.2.stage) := by
          rw [← hbb]
          exact hdebug.prints
        obtain ⟨t₂, hrequests, hsame⟩ := execInlines_alike memory hne
          (hst₃.2 ▸ hassigned) hdebug.ascii hprints (hbb ▸ hcalls) hexec
        obtain ⟨text', d', hprint', hcd⟩ :=
          unparseAst_alike c (hdebug.prints.last hcalls hexec)
        obtain ⟨-, rfl⟩ : text = text' ∧ s₂ = d' := by
          cases hprint.symm.trans hprint'
          exact ⟨rfl, rfl⟩
        have hdt : Alike s₂ t₂ := by
          obtain ⟨hheap, hstage⟩ := Prod.mk.inj hsame
          exact ⟨hcd.1.symm.trans hheap.symm, hcd.2.symm.trans hstage.symm⟩
        obtain ⟨t', hsession, hst'⟩ := ih hrun hassigns hdebuggable hdt
        refine ⟨t', ?_, hst'⟩
        have hnext : StagingProcess.nextStage fuel obj t = .ok (depth, b'.2.stage.code) b' := by
          rw [StagingProcess.nextStage, bind_ok htdepth, if_pos hzero, bind_ok hinit',
            bind_ok hcollect', bind_ok (get_apply _)]
          rfl
        rw [bind_ok hnext]
        dsimp only
        rw [if_neg hzero, ← hst₃.2, bind_ok hrequests, hsession]

end

/-! ### One tag -/

/-- The AST of `.!f;`. -/
def oneInline : Ast := program 0 1 [exprStatement 2 (inlineTag 3 (identifier 4 "f"))]

def atStart (t : Ast) : JSHeap × StagingProcess := (.ofTrees [t], ⟨emptyStage, false⟩)

/-- The empty program, as data. -/
def emptyProgram : Json :=
  .object [("type", .string (js "Program")), ("body", .array [])]

/-- The script calls `inline` once, with that program. -/
def inlineEmpty (_code : JSString) : List Json := [emptyProgram]

def collectedInline : Stage :=
  ⟨oneInline.val, js "inline( f );", 1, [⟨false, .ref 1, .inl (.ref 2)⟩], []⟩

theorem depth_oneInline : StagingProcess.getDeapestStage 30 oneInline.val (atStart oneInline) =
    .ok 1 (atStart oneInline) := rfl

theorem collect_oneInline :
    collect 30 oneInline.val 1 (.ofTrees [oneInline], emptyStage) =
      .ok () (.ofTrees [oneInline], collectedInline) := rfl

theorem programFields_nodup :
    ([("type", string (js "Program")), ("body", Val.ref 5)].map Prod.fst).Nodup := by
  decide

/-- The Program is in the heap. -/
def loaded : JSHeap := ((Heap.ofTrees [oneInline]).alloc (.array [])).alloc
  (.record .plain [("type", string (js "Program")), ("body", .ref 5)] programFields_nodup)

theorem valueOf_emptyProgram :
    valueOf wordEngine emptyProgram (.ofTrees [oneInline]) = .ok (loaded, .ref 6) := by
  have hcells : (valueOf wordEngine emptyProgram (.ofTrees [oneInline])).toOption.map
      (fun r => (r.2, r.1.next, (List.range 7).map r.1.cell)) =
        some (.ref 6, 7, (List.range 7).map loaded.cell) := by decide +kernel
  obtain ⟨⟨h, v⟩, hvalue, heq⟩ := Option.map_eq_some_iff.mp hcells
  obtain ⟨hv, hnext, hmap⟩ : v = .ref 6 ∧ h.next = 7 ∧
      (List.range 7).map h.cell = (List.range 7).map loaded.cell := by simpa using heq
  have hheap : h = loaded := Heap.eq_of_cells hnext fun a ha => by
    rw [hnext] at ha
    exact List.map_inj_left.mp hmap a (List.mem_range.mpr ha)
  rw [← hheap, ← hv]
  cases hresult : valueOf wordEngine emptyProgram (.ofTrees [oneInline]) with
  | ok r =>
      rw [hresult] at hvalue
      exact congrArg Except.ok (Option.some_inj.mp hvalue)
  | error e =>
      rw [hresult] at hvalue
      cases hvalue

/-- The tag is replaced by nothing. -/
def inlined : JSHeap := loaded.write 1 (.array [])

def inlinedStage : Stage := { collectedInline with inlineNodesInfo := [] }

theorem executeInline_oneInline :
    StagingProcess.executeInline (.ref 6) (loaded, collectedInline) =
      .ok () (inlined, inlinedStage) := rfl

theorem cutExecs_inlined :
    Stage.cutExecs (inlined, inlinedStage) = .ok () (inlined, inlinedStage) := rfl

theorem prints_inlined : Prints 30 oneInline.val inlined := fun _ => ⟨[], _, rfl⟩

theorem evaluateCalls_singleton {call : JSHeap → Except Fault (JSHeap × Value)} {h : JSHeap}
    {inlnArg : Value} {r r' : JSHeap × Stage} (hcall : call r.1 = .ok (h, inlnArg))
    (hrun : StagingProcess.executeInline inlnArg (h, r.2) = .ok () r') :
    StagingProcess.evaluateCalls [call] r = .ok () r' := by
  rw [StagingProcess.evaluateCalls, bind_ok (reads_ok hcall)]
  exact bind_ok hrun _

theorem evaluateCalls_oneInline :
    StagingProcess.evaluateCalls [valueOf wordEngine emptyProgram]
      (.ofTrees [oneInline], collectedInline) = .ok () (inlined, inlinedStage) :=
  evaluateCalls_singleton valueOf_emptyProgram executeInline_oneInline

theorem exec_oneInline : StagingProcess.exec (assigned wordEngine inlineEmpty)
    (.ofTrees [oneInline], collectedInline) = .ok () (inlined, inlinedStage) := by
  have hcalls : ∀ code, (assigned wordEngine inlineEmpty code).calls =
      [valueOf wordEngine emptyProgram] := fun _ => rfl
  rw [StagingProcess.exec, bind_ok (get_apply _)]
  dsimp only
  rw [hcalls, bind_ok evaluateCalls_oneInline]
  rfl

theorem staging_oneInline :
    StagingProcess.staging 30 (assigned wordEngine inlineEmpty) oneInline.val 1
      (atStart oneInline) = .ok () (inlined, ⟨inlinedStage, false⟩) := by
  have hinit : StagingProcess.onStage (Stage.init oneInline.val 1) (atStart oneInline) =
      .ok () (.ofTrees [oneInline], ⟨⟨oneInline.val, [], 1, [], []⟩, false⟩) := rfl
  have hcollect : StagingProcess.onStage (StagingProcess.collectStage 30 oneInline.val)
      (.ofTrees [oneInline], ⟨⟨oneInline.val, [], 1, [], []⟩, false⟩) =
        .ok () (.ofTrees [oneInline], ⟨collectedInline, false⟩) := rfl
  have hexec : StagingProcess.onStage (StagingProcess.exec (assigned wordEngine inlineEmpty))
      (.ofTrees [oneInline], ⟨collectedInline, false⟩) =
        .ok () (inlined, ⟨inlinedStage, false⟩) := onStage_eq_ok.mpr ⟨exec_oneInline, rfl⟩
  have hprint : StagingProcess.unparseAst 30 (inlined, ⟨inlinedStage, false⟩) =
      .ok [] (inlined, ⟨inlinedStage, false⟩) := rfl
  rw [StagingProcess.staging, bind_ok hinit, bind_ok hcollect, bind_ok hexec, bind_ok hprint]
  rfl

theorem depth_inlined :
    StagingProcess.getDeapestStage 30 oneInline.val (inlined, ⟨inlinedStage, false⟩) =
      .ok 0 (inlined, ⟨inlinedStage, false⟩) := rfl

/-- Both of the run's stages: the one of the tag, and the end. -/
theorem eachStage_oneInline {P : List Json → JSHeap × Stage → Prop}
    (h : P [emptyProgram] (.ofTrees [oneInline], collectedInline)) :
    EachStage wordEngine 30 inlineEmpty oneInline.val P 2 (atStart oneInline) := by
  intro depth s₁ hdepth _
  cases depth_oneInline.symm.trans hdepth
  constructor
  · intro s₂ hcollect
    cases collect_oneInline.symm.trans hcollect
    exact h
  · intro s₂ hstaging
    cases staging_oneInline.symm.trans hstaging
    intro depth s₃ hdepth hne
    cases depth_inlined.symm.trans hdepth
    exact absurd rfl hne

theorem sameLength_emptyProgram : SameLength (str emptyProgram) :=
  ⟨by decide +kernel, by decide +kernel⟩

theorem session_agrees_oneInline :
    ∃ t', RemoteStagedDbg.session wordEngine 30 (fun _ => 0) inlineEmpty oneInline.val 2
      (atStart oneInline) = .ok true t' ∧ Alike (inlined, ⟨inlinedStage, false⟩) t' := by
  have hrun : StagingProcess.unParseLoop 30 (assigned wordEngine inlineEmpty) oneInline.val 2
      (atStart oneInline) = .ok true (inlined, ⟨inlinedStage, false⟩) := by
    rw [StagingProcess.unParseLoop, bind_ok depth_oneInline, if_neg one_ne_zero,
      bind_ok staging_oneInline, StagingProcess.unParseLoop, bind_ok depth_inlined]
    rfl
  refine session_agrees hrun (eachStage_oneInline rfl) (eachStage_oneInline ⟨?_, ?_, ?_⟩)
    ⟨rfl, rfl⟩
  · simp [collectedInline]
  · intro ast hast
    rw [List.mem_singleton.mp hast]
    exact sameLength_emptyProgram
  · intro h inlnArg s' hcall hexec
    cases valueOf_emptyProgram.symm.trans hcall
    cases executeInline_oneInline.symm.trans hexec
    refine ⟨fun hne => absurd rfl hne, fun s' hcut => ?_⟩
    cases cutExecs_inlined.symm.trans hcut
    exact prints_inlined

/-- The AST of `.&;`. -/
def oneExec : Ast := program 0 1 [exprStatement 2 (execTag 3 (node 4 "EmptyStatement" []))]

def noInline (_code : JSString) : List Json := []

def collectedExec : Stage :=
  ⟨oneExec.val, js "\n    ;\n", 1, [], [⟨false, .ref 1, .inl (.ref 2)⟩]⟩

/-- Nothing is cut, and so the next call of `nextStage` finds the same stage. -/
theorem nextStage_oneExec (p : StagingProcess) :
    StagingProcess.nextStage 30 oneExec.val (.ofTrees [oneExec], p) =
      .ok (1, collectedExec.code) (.ofTrees [oneExec], { p with stage := collectedExec }) := rfl

/-- `exec` has cut the tag. -/
def cutExec : JSHeap := (Heap.ofTrees [oneExec]).write 1 (.array [])

def cutStage : Stage := { collectedExec with execNodesInfo := [] }

theorem depth_oneExec : StagingProcess.getDeapestStage 30 oneExec.val (atStart oneExec) =
    .ok 1 (atStart oneExec) := rfl

theorem staging_oneExec :
    StagingProcess.staging 30 (assigned wordEngine noInline) oneExec.val 1 (atStart oneExec) =
      .ok () (cutExec, ⟨cutStage, false⟩) := rfl

theorem depth_cutExec :
    StagingProcess.getDeapestStage 30 oneExec.val (cutExec, ⟨cutStage, false⟩) =
      .ok 0 (cutExec, ⟨cutStage, false⟩) := rfl

theorem session_oneExec (rounds : ℕ) (p : StagingProcess) :
    ∃ t', RemoteStagedDbg.session wordEngine 30 (fun _ => 0) noInline oneExec.val rounds
      (.ofTrees [oneExec], p) = .ok false t' := by
  induction rounds generalizing p with
  | zero => exact ⟨_, rfl⟩
  | succ rounds ih =>
      obtain ⟨t', hsession⟩ := ih { p with stage := collectedExec }
      refine ⟨t', ?_⟩
      rw [RemoteStagedDbg.session, bind_ok (nextStage_oneExec p)]
      exact hsession

/-- `unParse` cuts `.&;` in its first round, and a session goes on with it for ever. -/
theorem session_disagrees :
    (∃ s', StagingProcess.unParseLoop 30 (assigned wordEngine noInline) oneExec.val 2
        (atStart oneExec) = .ok true s') ∧
      ∀ rounds, ∃ t', RemoteStagedDbg.session wordEngine 30 (fun _ => 0) noInline oneExec.val
        rounds (atStart oneExec) = .ok false t' := by
  constructor
  · refine ⟨(cutExec, ⟨cutStage, false⟩), ?_⟩
    rw [StagingProcess.unParseLoop, bind_ok depth_oneExec, if_neg one_ne_zero,
      bind_ok staging_oneExec, StagingProcess.unParseLoop, bind_ok depth_cutExec]
    rfl
  · exact fun rounds => session_oneExec rounds _

end MetaMonkey.Staging
