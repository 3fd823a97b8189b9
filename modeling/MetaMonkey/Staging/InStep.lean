import MetaMonkey.Staging.Stage
import MetaMonkey.Staging.UnparseHeap
import MetaMonkey.Staging.Visitor

/-!
The code of a stage and its queues. Both are filled from the same reports, but
a place is queued even when its argument cannot be printed, and then its
fragment is missing.
-/

namespace MetaMonkey.Staging

open ObjectGraph Js StagedNodeIterator Unparse

variable (fuel : ℕ)

/-! ### What is printed for a tag -/

def Report.text (r : Report) : Print Text :=
  if r.isExec then Stage.execText fuel r.body else Stage.inlineText fuel r.body

/-- The text of a tag in a heap, if it can be printed. -/
def Report.text? (h : JSHeap) (r : Report) : Option Text :=
  match r.text fuel (h, false) with
  | .ok text _ => some text
  | .error _ _ => none

def Report.Printable (h : JSHeap) (r : Report) : Prop := (r.text? fuel h).isSome

instance (h : JSHeap) (r : Report) : Decidable (r.Printable fuel h) :=
  inferInstanceAs (Decidable (_ = true))

def Report.fragment (r : Report) (text : Text) : JSString :=
  if r.isExec then Stage.execFragment text else Stage.inlineFragment text

/-- The reports of one depth. -/
def atDepth (depth : ℕ) (reports : List Report) : List Report :=
  reports.filter fun r => r.depth = depth

/-- The places of the `.!` tags, or of the `.&` tags. -/
def infosOf (isExec : Bool) (reports : List Report) : List NodeInfo :=
  (reports.filter fun r => r.isExec = isExec).map Report.info

/-- The code has one fragment for each tag of the depth, in the order in which
the tags are queued. -/
structure InStep (h : JSHeap) (depth : ℕ) (reports : List Report) (stage : Stage) : Prop where
  inlines : stage.inlineNodesInfo = infosOf false (atDepth depth reports)
  execs : stage.execNodesInfo = infosOf true (atDepth depth reports)
  code : ∃ texts : List Text,
    List.Forall₂ (fun r text => r.text? fuel h = some text) (atDepth depth reports) texts ∧
      stage.code = (List.zipWith Report.fragment (atDepth depth reports) texts).flatten

/-! ### Collecting -/

/-- `stage.init(ast, depth) && collectStage(ast)` -/
def collect (ast : Value) (depth : ℕ) : JsM Stage Unit := do
  Stage.init ast depth
  StagingProcess.collectStage fuel ast

/-- What a tag that can be printed does to the stage. -/
def pushed (h : JSHeap) (depth : ℕ) (stage : Stage) (r : Report) : Stage :=
  if r.depth = depth then
    { stage with
      code := stage.code ++ r.fragment ((r.text? fuel h).getD none)
      inlineNodesInfo := stage.inlineNodesInfo ++ (if r.isExec then [] else [r.info])
      execNodesInfo := stage.execNodesInfo ++ (if r.isExec then [r.info] else []) }
  else stage

variable {fuel} {h : JSHeap} {depth : ℕ}

theorem freshUnparse_ok (hh : NoBoxedTypes h) {x : Print Text}
    [hx : Satisfies Everywhere KeepsHeap x] {text : Text} {s : JSHeap × Bool}
    (hrun : x (h, false) = .ok text s) (stage : Stage) :
    freshUnparse x (h, stage) = .ok text (h, stage) := by
  have hheap := hx.holds _ _ _ hh hrun
  simp only [freshUnparse, hrun]
  rw [hheap]

instance keepsHeap_text (r : Report) : Satisfies Everywhere KeepsHeap (r.text fuel) := by
  unfold Report.text Stage.execText Stage.inlineText
  infer_instance

/-- On a tag that can be printed, `ExtractStagingTags` takes a pure step. -/
theorem extractStagingTags_folds (hh : NoBoxedTypes h) :
    Folds h (extractStagingTags fuel depth) (fun r => r.depth = depth → r.Printable fuel h)
      (pushed fuel h depth) := by
  intro r hr stage
  by_cases hdepth : r.depth = depth
  · obtain ⟨text, htext⟩ := Option.isSome_iff_exists.mp (hr hdepth)
    have hrun : ∃ s, r.text fuel (h, false) = .ok text s := by
      rw [Report.text?] at htext
      split at htext
      · rename_i s heq
        cases htext
        exact ⟨s, heq⟩
      · cases htext
    obtain ⟨s, hrun⟩ := hrun
    have hfresh := freshUnparse_ok hh hrun
    rw [pushed, if_pos hdepth, htext]
    obtain ⟨isExec, info, body, d⟩ := r
    cases isExec with
    | false =>
        have hprint : ∀ stage, freshUnparse (Stage.inlineText fuel body) (h, stage) =
            .ok text (h, stage) := hfresh
        simp only at hdepth
        simp [StagedNodeVisitor.act, extractStagingTags, hdepth, ignoreResult, Stage.pushInline,
          Stage.update, Stage.appendCode, bind_apply, modify_apply, hprint, Report.fragment]
    | true =>
        have hprint : ∀ stage, freshUnparse (Stage.execText fuel body) (h, stage) =
            .ok text (h, stage) := hfresh
        simp only at hdepth
        simp [StagedNodeVisitor.act, extractStagingTags, hdepth, ignoreResult, Stage.pushExec,
          Stage.update, Stage.appendCode, bind_apply, modify_apply, hprint, Report.fragment]
  · rw [pushed, if_neg hdepth]
    obtain ⟨isExec, info, body, d⟩ := r
    simp only at hdepth
    cases isExec <;> simp [StagedNodeVisitor.act, extractStagingTags, hdepth, ignoreResult]

/-- What the tags of a depth do to the stage, one after another. -/
theorem foldl_pushed (reports : List Report) (stage : Stage) :
    reports.foldl (pushed fuel h depth) stage =
      { stage with
        code := stage.code ++ (atDepth depth reports).flatMap
          fun r => r.fragment ((r.text? fuel h).getD none)
        inlineNodesInfo := stage.inlineNodesInfo ++ infosOf false (atDepth depth reports)
        execNodesInfo := stage.execNodesInfo ++ infosOf true (atDepth depth reports) } := by
  induction reports generalizing stage with
  | nil => simp [atDepth, infosOf]
  | cons r reports ih =>
      rw [List.foldl_cons, ih, pushed]
      by_cases hdepth : r.depth = depth
      · have hcons : atDepth depth (r :: reports) = r :: atDepth depth reports := by
          simp [atDepth, hdepth]
        rw [if_pos hdepth, hcons]
        cases hexec : r.isExec <;> simp [infosOf, hexec]
      · have hskip : atDepth depth (r :: reports) = atDepth depth reports := by
          simp [atDepth, hdepth]
        rw [if_neg hdepth, hskip]

/-- Where all tags of the depth can be printed, collecting changes nothing in
the heap and pushes each of them. -/
theorem collect_eq (hh : NoBoxedTypes h) {ast : Value}
    (hprint : ∀ r ∈ reportsOf fuel ast h, r.depth = depth → r.Printable fuel h) (stage : Stage) :
    ∃ e c, iterateStagedNodes recorder fuel ast h [] =
        outcome e (h, c, reportsOf fuel ast h) ∧
      collect fuel ast depth (h, stage) = outcome e (h, (reportsOf fuel ast h).foldl
        (pushed fuel h depth) ⟨ast, [], depth, [], []⟩) := by
  obtain ⟨e, c, hrec, hfold⟩ :=
    iterateStagedNodes_fold (extractStagingTags_folds hh) fuel ast hprint
  refine ⟨e, c, hrec, ?_⟩
  have hinit : Stage.init ast depth (h, stage) = .ok () (h, ⟨ast, [], depth, [], []⟩) := rfl
  rw [collect, bind_ok hinit, StagingProcess.collectStage]
  simp only [hfold]
  cases e <;> rfl

theorem exists_of_forall₂ {α β : Type} {R : α → β → Prop} {l : List α} {l' : List β}
    (hl : List.Forall₂ R l l') : ∀ a ∈ l, ∃ b, R a b := by
  induction hl with
  | nil => simp
  | cons hab _ ih => exact List.forall_mem_cons.mpr ⟨⟨_, hab⟩, ih⟩

theorem InStep.printable {reports : List Report} {stage : Stage}
    (hstep : InStep fuel h depth reports stage) {r : Report} (hr : r ∈ reports)
    (hdepth : r.depth = depth) : r.Printable fuel h := by
  obtain ⟨texts, htexts, -⟩ := hstep.code
  obtain ⟨text, htext⟩ := exists_of_forall₂ htexts r
    (List.mem_filter.mpr ⟨hr, decide_eq_true hdepth⟩)
  exact Option.isSome_iff_exists.mpr ⟨text, htext⟩

/-- After a stage has been collected, its code and its queues are in step
exactly when every tag of its depth can be printed. -/
theorem collect_inStep_iff (hh : NoBoxedTypes h) {ast : Value} {stage stage' : Stage}
    {h' : JSHeap} (hrun : collect fuel ast depth (h, stage) = .ok () (h', stage')) :
    InStep fuel h depth (reportsOf fuel ast h) stage' ↔
      ∀ r ∈ reportsOf fuel ast h, r.depth = depth → r.Printable fuel h := by
  constructor
  · exact fun hstep r hr hdepth => hstep.printable hr hdepth
  · intro hprint
    obtain ⟨e, c, -, hcollect⟩ := collect_eq hh hprint stage
    rw [hrun] at hcollect
    cases e with
    | some e => cases hcollect
    | none =>
        simp only [outcome, EStateM.Result.ok.injEq, Prod.mk.injEq, true_and] at hcollect
        obtain ⟨-, rfl⟩ := hcollect
        rw [foldl_pushed]
        refine ⟨rfl, rfl, (atDepth depth (reportsOf fuel ast h)).map
          fun r => (r.text? fuel h).getD none, ?_, ?_⟩
        · rw [List.forall₂_map_right_iff]
          refine List.forall₂_same.mpr fun r hr => ?_
          obtain ⟨hmem, hdepth⟩ := List.mem_filter.mp hr
          obtain ⟨text, htext⟩ :=
            Option.isSome_iff_exists.mp (hprint r hmem (of_decide_eq_true hdepth))
          simp [htext]
        · simp [List.flatMap_def, List.zipWith_map_right]

/-! ### Two programs -/

/-- No node of the tree has a boxed type. -/
def boxedType (t : Ast) : Bool :=
  match AstNode.child t "type" with
  | some (.leaf (.leaf (.wrapper _))) => true
  | _ => false

theorem noBoxedTypes_ofTrees {ts : List Ast}
    (hts : ∀ s ∈ ts.flatMap Tree.subtrees, boxedType s = false) : NoBoxedTypes (.ofTrees ts) := by
  intro a cls fields distinct hc p hp
  obtain ⟨s, hs, hroot⟩ := Option.bind_eq_some_iff.mp hc
  have hboxed := hts s (List.mem_of_find?_eq_some hs)
  cases s with
  | leaf v => cases hroot
  | array b elems => cases hroot
  | record b tag children =>
      rw [Heap.rootCell] at hroot
      split at hroot
      · simp only [Option.some.injEq, Cell.record.injEq] at hroot
        obtain ⟨-, rfl⟩ := hroot
        rw [lookup_map_val, Option.map_eq_some_iff] at hp
        obtain ⟨t, ht, hval⟩ := hp
        cases t with
        | leaf v =>
            rw [Tree.val_leaf] at hval
            subst hval
            simp [boxedType, AstNode.child, ht] at hboxed
        | record c cls' fields' => cases hval
        | array c elems => cases hval
      · cases hroot

def emptyStage : Stage := ⟨null, [], 0, [], []⟩

/-- The AST of `x => x`, which the printer does not know. -/
def arrow (a b c d e : ℕ) : Ast :=
  node a "ArrowExpression" [("id", .leaf null), ("params", .array b [identifier c "x"]),
    ("defaults", .array d []), ("body", identifier e "x"), ("rest", .leaf null),
    ("generator", .leaf (boolean false)), ("expression", .leaf (boolean true))]

/-- The AST of `.!(x => x);`. -/
def arrowTag : Ast := program 0 1 [exprStatement 2 (inlineTag 3 (arrow 4 5 6 7 8))]

/-- The tag of `.!(x => x);` is queued without code, and nothing fails. -/
theorem collect_arrowTag :
    ∃ s, collect 30 arrowTag.val 1 (.ofTrees [arrowTag], emptyStage) = .ok () s ∧
      s.2.code = [] ∧ s.2.inlineNodesInfo.length = 1 ∧
      ¬ InStep 30 (.ofTrees [arrowTag]) 1 (reportsOf 30 arrowTag.val (.ofTrees [arrowTag]))
        s.2 := by
  obtain ⟨_, s, hrun, hstage⟩ := exists_of_ended
    (r := collect 30 arrowTag.val 1 (.ofTrees [arrowTag], emptyStage))
    (f := fun x => (x.2.code, x.2.inlineNodesInfo.length)) (b := ([], 1)) (by decide)
  have hreport : ∃ r ∈ reportsOf 30 arrowTag.val (.ofTrees [arrowTag]),
      r.depth = 1 ∧ ¬ r.Printable 30 (.ofTrees [arrowTag]) := by decide
  obtain ⟨r, hr, hdepth, hnot⟩ := hreport
  obtain ⟨hcode, hlength⟩ := Prod.mk.inj hstage
  exact ⟨s, hrun, hcode, hlength, fun hstep => hnot (hstep.printable hr hdepth)⟩

/-- The AST of `.!f; .&;`. -/
def printableTags : Ast :=
  program 0 1 [exprStatement 2 (inlineTag 3 (identifier 4 "f")),
    exprStatement 5 (execTag 6 (node 7 "EmptyStatement" []))]

/-- The two tags of `.!f; .&;` are in step. -/
theorem collect_printableTags :
    ∃ s, collect 30 printableTags.val 1 (.ofTrees [printableTags], emptyStage) = .ok () s ∧
      s.2.code = js "inline( f );\n    ;\n" ∧
      InStep 30 (.ofTrees [printableTags]) 1
        (reportsOf 30 printableTags.val (.ofTrees [printableTags])) s.2 := by
  obtain ⟨_, s, hrun, hcode⟩ := exists_of_ended
    (r := collect 30 printableTags.val 1 (.ofTrees [printableTags], emptyStage))
    (f := fun x => x.2.code) (b := js "inline( f );\n    ;\n") (by decide)
  exact ⟨s, hrun, hcode, (collect_inStep_iff (noBoxedTypes_ofTrees (by decide)) hrun).mpr
    (by decide)⟩

end MetaMonkey.Staging
