import MetaMonkey.Staging.InStep

/-!
`RemoteStagedDbg`: the second driver of the staging process. Its requests share the queue
with `staging`, which `unParse` calls, and cut the execs at another time. Here is what both
drivers do with a stage and with an inline.
-/

namespace MetaMonkey.Staging

open ObjectGraph Js Unparse

variable (fuel : ℕ)

namespace RemoteStagedDbg

open StagingProcess

/-- `executeInline`, and what the handler does after it: the execs are cut with the last
of the inlines, and the AST is printed for the report. -/
def executed (inlnArg : Value) : JsM StagingProcess Unit := do
  onStage (executeInline inlnArg)
  if (← get).2.stage.inlineNodesInfo = [] then
    onStage Stage.cutExecs
  let _srcCode ← unparseAst fuel

/-- The handler of the route `execInline`, given what it makes of the body. -/
def execInlineWith (arg : JSHeap → Except Fault (JSHeap × Value)) : JsM StagingProcess Unit := do
  if (← get).2.stage.inlineNodesInfo = [] then
    pure ()
  else
    let (h, inlnArg) ← reads arg
    modify fun s => (h, s.2)
    executed fuel inlnArg

end RemoteStagedDbg

/-! ### What the debugger relies on -/

/-- The printer takes the AST, whatever its flag, and leaves the heap as it was. -/
def Prints (obj : Value) (h : JSHeap) : Prop :=
  ∀ flag, ∃ text flag', unParseStart fuel obj (h, flag) = .ok text (h, flag')

/-! ### The steps that both drivers take -/

section

variable {fuel} {α σ : Type} {obj : Value} {s t s' t' : JSHeap × StagingProcess}

/-- The states of two drivers, which may have left the printer's flag different. -/
def Alike (s t : JSHeap × StagingProcess) : Prop := s.1 = t.1 ∧ s.2.stage = t.2.stage

theorem onStage_eq_ok {x : JsM Stage α} {a : α} :
    StagingProcess.onStage x s = .ok a s' ↔
      x (s.1, s.2.stage) = .ok a (s'.1, s'.2.stage) ∧ s'.2.ignorecprec = s.2.ignorecprec := by
  obtain ⟨h, stage, flag⟩ := s
  obtain ⟨h', stage', flag'⟩ := s'
  rw [StagingProcess.onStage]
  cases hx : x (h, stage) with
  | ok b r =>
      obtain ⟨hr, sr⟩ := r
      constructor
      · intro heq
        cases heq
        exact ⟨rfl, rfl⟩
      · rintro ⟨heq, hflag⟩
        cases heq
        cases hflag
        rfl
  | error e r =>
      constructor
      · intro heq
        cases heq
      · rintro ⟨heq, -⟩
        cases heq

/-- What is done on the stage does not see the flag. -/
theorem Alike.onStage (h : Alike s t) {x : JsM Stage α} {a : α}
    (hx : StagingProcess.onStage x s = .ok a s') :
    ∃ t', StagingProcess.onStage x t = .ok a t' ∧ Alike s' t' := by
  obtain ⟨hrun, -⟩ := onStage_eq_ok.mp hx
  refine ⟨(s'.1, { t.2 with stage := s'.2.stage }), onStage_eq_ok.mpr ⟨?_, rfl⟩, rfl, rfl⟩
  rw [← h.1, ← h.2]
  exact hrun

theorem Alike.getDeapestStage (h : Alike s t) {depth : ℕ}
    (hs : StagingProcess.getDeapestStage fuel obj s = .ok depth s') :
    ∃ t', StagingProcess.getDeapestStage fuel obj t = .ok depth t' ∧ Alike s' t' := by
  rw [StagingProcess.getDeapestStage] at hs ⊢
  rw [← h.1]
  split at hs
  · next hiter =>
      cases hs
      exact ⟨_, rfl, rfl, h.2⟩
  · cases hs

theorem unparseAst_alike (t : JSHeap × StagingProcess) (h : Prints fuel t.2.stage.ast t.1) :
    ∃ text t', StagingProcess.unparseAst fuel t = .ok text t' ∧ Alike t t' := by
  obtain ⟨text, flag', hprint⟩ := h t.2.ignorecprec
  refine ⟨text, (t.1, { t.2 with ignorecprec := flag' }), ?_, rfl, rfl⟩
  rw [StagingProcess.unparseAst, bind_ok (get_apply t), StagingProcess.onUnparse, hprint]

/-- A call that returns has not touched the state beside the heap. -/
def KeepsState (x : JsM σ α) : Prop := ∀ s a s', x s = .ok a s' → s'.2 = s.2

theorem keepsState_bind {β : Type} {x : JsM σ α} {f : α → JsM σ β} (hx : KeepsState x)
    (hf : ∀ a, KeepsState (f a)) : KeepsState (x >>= f) := by
  intro s b s' hrun
  obtain ⟨a, s₁, hxs, hfs⟩ := bind_eq_ok.mp hrun
  exact (hf a s₁ b s' hfs).trans (hx s a s₁ hxs)

theorem keepsState_pure (a : α) : KeepsState (pure a : JsM σ α) := by
  intro s b s' hrun
  cases hrun
  rfl

theorem keepsState_throw (e : Fault) : KeepsState (throw e : JsM σ α) := by
  intro s b s' hrun
  cases hrun

theorem keepsState_reads (f : JSHeap → Except Fault α) : KeepsState (reads f : JsM σ α) := by
  intro s b s' hrun
  rw [reads] at hrun
  split at hrun
  · cases hrun
    rfl
  · cases hrun

theorem keepsState_writes (f : JSHeap → Except Fault JSHeap) :
    KeepsState (writes f : JsM σ Unit) := by
  intro s b s' hrun
  rw [writes] at hrun
  split at hrun
  · cases hrun
    rfl
  · cases hrun

theorem keepsState_cutValue (isExpr : Bool) : KeepsState (cutValue isExpr : JsM σ Value) := by
  intro s b s' hrun
  cases isExpr <;> cases hrun <;> rfl

/-- A merge changes the AST only. -/
theorem keepsState_mergeNodeToAst (nodeinfo : NodeInfo) (ast : Value) :
    KeepsState (mergeNodeToAst nodeinfo ast : JsM σ Unit) := by
  rw [mergeNodeToAst]
  split
  · refine keepsState_bind (keepsState_reads _) fun idx => ?_
    split
    · exact keepsState_throw _
    · dsimp only
      split
      · exact keepsState_bind (keepsState_reads _) fun nodes => keepsState_writes _
      · exact keepsState_bind (keepsState_pure _) fun nodes => keepsState_writes _
  · split
    · refine keepsState_bind (keepsState_reads _) fun nodes => ?_
      split
      · exact keepsState_writes _
      · exact keepsState_throw _
    · exact keepsState_bind (keepsState_cutValue _) fun node => keepsState_writes _

/-- An inline takes the first place of the queue. -/
theorem executeInline_queue {inlnArg : Value} {s s' : JSHeap × Stage}
    (h : StagingProcess.executeInline inlnArg s = .ok () s') :
    ∃ info, s.2.inlineNodesInfo = info :: s'.2.inlineNodesInfo := by
  obtain ⟨info, s₁, hdequeue, hmerge⟩ := bind_eq_ok.mp h
  rw [Stage.dequeueInline, bind_ok (get_apply s)] at hdequeue
  cases hqueue : s.2.inlineNodesInfo with
  | nil =>
      rw [hqueue] at hdequeue
      cases hdequeue
  | cons info' rest =>
      rw [hqueue] at hdequeue
      cases hdequeue
      exact ⟨info, by rw [keepsState_mergeNodeToAst _ _ _ _ _ hmerge]⟩

/-! ### A stage in both drivers -/

theorem evaluateCalls_cons {call : JSHeap → Except Fault (JSHeap × Value)}
    {calls : List (JSHeap → Except Fault (JSHeap × Value))} {r r' : JSHeap × Stage}
    (hrun : StagingProcess.evaluateCalls (call :: calls) r = .ok () r') :
    ∃ h inlnArg r₁, call r.1 = .ok (h, inlnArg) ∧
      StagingProcess.executeInline inlnArg (h, r.2) = .ok () r₁ ∧
      StagingProcess.evaluateCalls calls r₁ = .ok () r' := by
  obtain ⟨⟨h, inlnArg⟩, s₁, hread, hrun⟩ := bind_eq_ok.mp hrun
  obtain ⟨⟨⟩, s₂, hset, hmerge⟩ := bind_eq_ok.mp hrun
  cases hset
  obtain ⟨⟨⟩, s₃, hexec, hcalls⟩ := bind_eq_ok.mp hmerge
  rw [reads] at hread
  split at hread
  · next hcall =>
      cases hread
      exact ⟨h, inlnArg, s₃, hcall, hexec, hcalls⟩
  · cases hread

/-- One request does what one call of `inline` does. -/
theorem executed_alike {call : JSHeap → Except Fault (JSHeap × Value)} {h : JSHeap}
    {inlnArg : Value} {r : JSHeap × Stage} (ht : t.2.stage.inlineNodesInfo ≠ [])
    (hcall : call t.1 = .ok (h, inlnArg))
    (hrun : StagingProcess.executeInline inlnArg (h, t.2.stage) = .ok () r)
    (hrest : r.2.inlineNodesInfo ≠ []) (hprint : Prints fuel r.2.ast r.1) :
    ∃ t', RemoteStagedDbg.execInlineWith fuel call t = .ok () t' ∧ (t'.1, t'.2.stage) = r := by
  have honStage : StagingProcess.onStage (StagingProcess.executeInline inlnArg) (h, t.2) =
      .ok () (r.1, { t.2 with stage := r.2 }) := onStage_eq_ok.mpr ⟨hrun, rfl⟩
  obtain ⟨text, t', hprinted, hsame⟩ := unparseAst_alike
    (r.1, { t.2 with stage := r.2 }) hprint
  refine ⟨t', ?_, Prod.ext hsame.1.symm hsame.2.symm⟩
  rw [RemoteStagedDbg.execInlineWith, bind_ok (get_apply t), if_neg ht,
    bind_ok (reads_ok hcall)]
  change RemoteStagedDbg.executed fuel inlnArg (h, t.2) = _
  rw [RemoteStagedDbg.executed, bind_ok honStage, bind_ok (get_apply _), if_neg hrest]
  change (StagingProcess.unparseAst fuel >>= fun _ => pure ()) _ = _
  rw [bind_ok hprinted]
  rfl

/-- The last request also cuts the execs. -/
theorem executed_last {call : JSHeap → Except Fault (JSHeap × Value)} {h : JSHeap}
    {inlnArg : Value} {r r' : JSHeap × Stage} (ht : t.2.stage.inlineNodesInfo ≠ [])
    (hcall : call t.1 = .ok (h, inlnArg))
    (hrun : StagingProcess.executeInline inlnArg (h, t.2.stage) = .ok () r)
    (hrest : r.2.inlineNodesInfo = []) (hcut : Stage.cutExecs r = .ok () r')
    (hprint : Prints fuel r'.2.ast r'.1) :
    ∃ t', RemoteStagedDbg.execInlineWith fuel call t = .ok () t' ∧ (t'.1, t'.2.stage) = r' := by
  have honStage : StagingProcess.onStage (StagingProcess.executeInline inlnArg) (h, t.2) =
      .ok () (r.1, { t.2 with stage := r.2 }) := onStage_eq_ok.mpr ⟨hrun, rfl⟩
  have honCut : StagingProcess.onStage Stage.cutExecs (r.1, { t.2 with stage := r.2 }) =
      .ok () (r'.1, { t.2 with stage := r'.2 }) := onStage_eq_ok.mpr ⟨hcut, rfl⟩
  obtain ⟨text, t', hprinted, hsame⟩ := unparseAst_alike
    (r'.1, { t.2 with stage := r'.2 }) hprint
  refine ⟨t', ?_, Prod.ext hsame.1.symm hsame.2.symm⟩
  rw [RemoteStagedDbg.execInlineWith, bind_ok (get_apply t), if_neg ht,
    bind_ok (reads_ok hcall)]
  change RemoteStagedDbg.executed fuel inlnArg (h, t.2) = _
  rw [RemoteStagedDbg.executed, bind_ok honStage, bind_ok (get_apply _), if_pos hrest]
  change (StagingProcess.onStage Stage.cutExecs >>= fun _ => _) _ = _
  rw [bind_ok honCut, bind_ok hprinted]
  rfl

end

end MetaMonkey.Staging
