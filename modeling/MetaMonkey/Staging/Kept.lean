import MetaMonkey.Js.Keeps
import MetaMonkey.Staging.Stage

/-!
What the calls on a stage leave as it is. A walk keeps what its callbacks keep.
-/

namespace MetaMonkey.Staging

open ObjectGraph Js

variable {α γ σ ν : Type}

/-! ### Walks -/

section

variable {part : σ → γ}

structure Applier.Keeps (part : σ → γ) (applier : Applier σ) : Prop where
  arrayLoopStart : ∀ node parentNode arrayLen,
    Js.Keeps part (applier.arrayLoopStart node parentNode arrayLen)
  arrayLoopIdxEnter : ∀ node parentNode idx elem,
    Js.Keeps part (applier.arrayLoopIdxEnter node parentNode idx elem)
  arrayLoopIdxExit : ∀ node parentNode idx elem,
    Js.Keeps part (applier.arrayLoopIdxExit node parentNode idx elem)
  arrayLoopEnd : ∀ node parentNode, Js.Keeps part (applier.arrayLoopEnd node parentNode)
  singleObjEnter : ∀ propKey node parentNode,
    Js.Keeps part (applier.singleObjEnter propKey node parentNode)
  singleObjExit : ∀ propKey node parentNode,
    Js.Keeps part (applier.singleObjExit propKey node parentNode)

variable {applier : Applier σ} {walk : Value → JsM σ Unit}

theorem keeps_iterateElems (happlier : applier.Keeps part) (hwalk : ∀ v, Keeps part (walk v))
    (obj parentObj : Value) (i : ℕ) (nodes : List Value) :
    Keeps part (AstObjIterator.iterateElems applier walk obj parentObj i nodes) := by
  induction nodes generalizing i with
  | nil => exact .pure ()
  | cons node nodes ih =>
      exact .bind (happlier.arrayLoopIdxEnter _ _ _ _) fun _ => .bind (hwalk _) fun _ =>
        .bind (happlier.arrayLoopIdxExit _ _ _ _) fun _ => ih (i + 1)

theorem keeps_iterateObjectValue (happlier : applier.Keeps part)
    (hwalk : ∀ v, Keeps part (walk v)) (parentObj : Value) (propKey : String) (v : Value) :
    Keeps part (AstObjIterator.iterateObjectValue applier walk parentObj propKey v) := by
  rw [AstObjIterator.iterateObjectValue]
  split_ifs
  · refine .bind .get fun s => ?_
    split
    · exact .bind (happlier.arrayLoopStart _ _ _) fun _ =>
        .bind (keeps_iterateElems happlier hwalk _ _ _ _) fun _ => happlier.arrayLoopEnd _ _
    · exact .bind (happlier.singleObjEnter _ _ _) fun _ => .bind (hwalk _) fun _ =>
        happlier.singleObjExit _ _ _
  · exact .pure ()

theorem keeps_iterateProps (happlier : applier.Keeps part) (hwalk : ∀ v, Keeps part (walk v))
    (obj : Value) (props : List (String × Value)) :
    Keeps part (AstObjIterator.iterateProps applier walk obj props) := by
  induction props with
  | nil => exact .pure ()
  | cons prop props ih =>
      exact .bind (keeps_iterateObjectValue happlier hwalk _ _ _) fun _ => ih

/-- The walk keeps what each of the callbacks keeps. -/
theorem keeps_iterateObject (happlier : applier.Keeps part) (fuel : ℕ) (obj : Value) :
    Keeps part (iterateObject applier fuel obj) := by
  induction fuel generalizing obj with
  | zero => exact .throw .crash
  | succ fuel ih =>
      cases obj with
      | leaf l =>
          cases l with
          | prim p => exact .throw .crash
          | wrapper l => exact .pure ()
      | ref a =>
        refine .bind .get fun s => ?_
        split
        · exact .throw .crash
        · exact .throw .jsFalse
        · exact keeps_iterateProps happlier ih _ _

end

/-! ### Visitors -/

section

variable {part : ν → γ} {visitor : StagedNodeVisitor ν}

structure StagedNodeVisitor.Keeps (part : ν → γ) (visitor : StagedNodeVisitor ν) : Prop where
  inlineNodeEnter : ∀ nodeInfo expr depth,
    Js.Keeps part (visitor.inlineNodeEnter nodeInfo expr depth)
  execNodeEnter : ∀ nodeInfo stmt depth,
    Js.Keeps part (visitor.execNodeEnter nodeInfo stmt depth)

/-- The part of the visitor's state, beside the counters. -/
def besideCounters (part : ν → γ) (s : Counters × ν) : γ := part s.2

theorem keeps_call {x : JsM ν Unit} (hx : Keeps part x) :
    Keeps (besideCounters part) (StagedNodeIterator.call x) := by
  refine .ignoreResult fun s => ?_
  cases hr : x (s.1, s.2.2) with
  | ok a s' =>
      simp only
      exact hx.of_ok hr
  | error e s' =>
      simp only
      exact hx.of_error hr

theorem keeps_update (f : Counters → Counters) :
    Keeps (besideCounters part) (StagedNodeIterator.update f) := .modify fun _ => rfl

theorem keeps_enter (hvisitor : visitor.Keeps part) (slotOf : Option Value)
    (nodeInfo : Bool → NodeInfo) (node : Value) :
    Keeps (besideCounters part) (StagedNodeIterator.enter visitor slotOf nodeInfo node) := by
  refine .bind (.reads _) fun body => ?_
  split_ifs
  · exact keeps_update _
  · refine .bind .get fun s => ?_
    split_ifs
    · refine .bind (.reads _) fun found => ?_
      split
      · exact .pure ()
      · exact .bind (keeps_update _) fun _ => .bind .get fun s =>
          keeps_call (hvisitor.inlineNodeEnter _ _ _)
      · refine .bind .get fun s => ?_
        split_ifs
        · exact .throw_bind .jsFalse _
        · exact .bind (keeps_update _) fun _ => .bind .get fun s =>
            keeps_call (hvisitor.execNodeEnter _ _ _)
    · exact .pure ()

theorem keeps_exit (node : Value) :
    Keeps (besideCounters part) (StagedNodeIterator.singleObjExit "" node node) := by
  refine .bind (.reads _) fun body => ?_
  split_ifs <;> exact keeps_update _

theorem keeps_iterateStagedNodes (hvisitor : visitor.Keeps part) (fuel : ℕ) (obj : Value)
    (s : JSHeap × Counters × ν) :
    part (finalState (iterateObject (StagedNodeIterator.applier visitor) fuel obj s)).2.2 =
      part s.2.2 := by
  have happlier : (StagedNodeIterator.applier visitor).Keeps (besideCounters part) :=
    ⟨fun _ _ _ => .pure (), fun _ _ _ _ => keeps_enter hvisitor _ _ _,
      fun _ _ _ _ => keeps_exit _, fun _ _ => .pure (), fun _ _ _ => keeps_enter hvisitor _ _ _,
      fun _ _ _ => keeps_exit _⟩
  exact keeps_iterateObject happlier fuel obj s

end

/-! ### Merging -/

section

variable {part : σ → γ}

theorem keeps_cutValue (isExpr : Bool) : Keeps part (cutValue isExpr : JsM σ Value) := by
  intro s
  cases isExpr <;> rfl

/-- A merge changes the heap only. -/
theorem keeps_mergeNodeToAst (nodeinfo : NodeInfo) (ast : Value) :
    Keeps part (mergeNodeToAst nodeinfo ast : JsM σ Unit) := by
  rw [mergeNodeToAst]
  split
  · refine .bind (.reads _) fun idx => ?_
    split
    · exact .throw _
    · dsimp only
      split
      · exact .bind (.reads _) fun nodes => .writes _
      · exact .bind (.pure _) fun nodes => .writes _
  · split
    · refine .bind (.reads _) fun nodes => ?_
      split
      · exact .writes _
      · exact .throw _
    · exact .bind (keeps_cutValue _) fun node => .writes _

end

theorem keeps_freshUnparse {part : σ → γ} (x : Print α) :
    Keeps part (freshUnparse x : JsM σ α) := by
  intro s
  rw [freshUnparse]
  cases x (s.1, false) <;> rfl

/-! ### A stage -/

/-- What a page is told of a stage. -/
def Stage.told (stage : Stage) : ℕ × JSString := (stage.depth, stage.code)

theorem keeps_pushInline (fuel : ℕ) (nodeInfo : NodeInfo) (expr : Value) :
    Keeps Stage.depth (Stage.pushInline fuel nodeInfo expr) :=
  .bind (.modify fun _ => rfl) fun _ => .bind (keeps_freshUnparse _) fun _ => .modify fun _ => rfl

theorem keeps_pushExec (fuel : ℕ) (nodeInfo : NodeInfo) (stmt : Value) :
    Keeps Stage.depth (Stage.pushExec fuel nodeInfo stmt) :=
  .bind (.modify fun _ => rfl) fun _ => .bind (keeps_freshUnparse _) fun _ => .modify fun _ => rfl

theorem keeps_extractStagingTags (fuel targetDepth : ℕ) :
    (extractStagingTags fuel targetDepth).Keeps Stage.depth where
  inlineNodeEnter nodeInfo expr depth := by
    dsimp only [extractStagingTags]
    split_ifs
    · exact .ignoreResult (keeps_pushInline _ _ _)
    · exact .pure ()
  execNodeEnter nodeInfo stmt depth := by
    dsimp only [extractStagingTags]
    split_ifs
    · exact .ignoreResult (keeps_pushExec _ _ _)
    · exact .pure ()

/-- The tags are collected for a stage of the same depth. -/
theorem keeps_collectStage (fuel : ℕ) (obj : Value) :
    Keeps Stage.depth (StagingProcess.collectStage fuel obj) := by
  intro s
  have hs := keeps_iterateStagedNodes (keeps_extractStagingTags fuel s.2.depth) fuel obj
    (s.1, StagedNodeIterator.start, s.2)
  rw [StagingProcess.collectStage, iterateStagedNodes]
  revert hs
  cases iterateObject (StagedNodeIterator.applier (extractStagingTags fuel s.2.depth)) fuel obj
    (s.1, StagedNodeIterator.start, s.2) <;> exact id

theorem keeps_dequeueInline : Keeps Stage.told Stage.dequeueInline := by
  refine .bind .get fun s => ?_
  split
  · exact .throw _
  · exact .bind (.modify fun _ => rfl) fun _ => .pure _

/-- An inline takes a place from the queue, and nothing else of the stage changes. -/
theorem keeps_executeInline (inlnArg : Value) :
    Keeps Stage.told (StagingProcess.executeInline inlnArg) :=
  .bind keeps_dequeueInline fun inlineNodeInfo => keeps_mergeNodeToAst inlineNodeInfo inlnArg

/-- The last cuts take places from the queue of the execs. -/
theorem keeps_cutFromBack {part : Stage → γ}
    (hpart : ∀ stage queue, part { stage with execNodesInfo := queue } = part stage)
    (execNodesInfo : List NodeInfo) : Keeps part (Stage.cutFromBack execNodesInfo) := by
  induction execNodesInfo with
  | nil => exact .pure ()
  | cons execNodeInfo rest ih =>
      exact .bind (.modify fun s => hpart s.2 _) fun _ =>
        .bind (keeps_mergeNodeToAst _ _) fun _ => ih

theorem keeps_cutExecs {part : Stage → γ}
    (hpart : ∀ stage queue, part { stage with execNodesInfo := queue } = part stage) :
    Keeps part Stage.cutExecs :=
  .bind .get fun s => keeps_cutFromBack hpart s.2.execNodesInfo.reverse

/-! ### The staging process -/

/-- What a page is told of the stage of the process. -/
def StagingProcess.told (p : StagingProcess) : ℕ × JSString := p.stage.told

theorem keeps_onStage {part : Stage → γ} {x : JsM Stage α} (hx : Keeps part x) :
    Keeps (fun p : StagingProcess => part p.stage) (StagingProcess.onStage x) := by
  intro s
  rw [StagingProcess.onStage]
  cases hr : x (s.1, s.2.stage) with
  | ok a s₁ => exact hx.of_ok hr
  | error e s₁ => exact hx.of_error hr

/-- The printer has no part in the stage. -/
theorem keeps_onUnparse (x : Print α) :
    Keeps StagingProcess.stage (StagingProcess.onUnparse x) := by
  intro s
  rw [StagingProcess.onUnparse]
  cases x (s.1, s.2.ignorecprec) <;> rfl

theorem keeps_unparseAst (fuel : ℕ) :
    Keeps StagingProcess.stage (StagingProcess.unparseAst fuel) :=
  .bind .get fun _ => keeps_onUnparse _

end MetaMonkey.Staging
