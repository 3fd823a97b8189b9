import MetaMonkey.Staging.Substitution

/-!
A stage whose calls of `inline` are given Programs that are there already. A tag that cannot be
printed is queued but has no call, so that the calls after it fill the places of others.
-/

namespace MetaMonkey.Staging

open ObjectGraph Js AstNode

variable {σ : Type} {h h' : JSHeap} {t : Ast} {fuel depth : ℕ}

/-- The calls of `inline` with these values, in the order of the code, and `cutExecs`. -/
def runInlines : List Value → JsM Stage Unit
  | [] => Stage.cutExecs
  | inlnArg :: inlnArgs => do
      StagingProcess.executeInline inlnArg
      runInlines inlnArgs

/-- The `.!` tags of a depth that the code of the stage has a call for. -/
def calledTags (fuel : ℕ) (h : JSHeap) (t : Ast) (depth : ℕ) : List Tag :=
  (queued t depth false).filter fun tag => tag.report.Printable fuel h

/-- The code of a stage that does nothing but call `inline` with these values. -/
def scriptOf (inlnArgs : List Value) : Script :=
  ⟨inlnArgs.map fun inlnArg h => .ok (h, inlnArg), fun h => .ok h⟩

theorem exec_scriptOf (inlnArgs : List Value) :
    StagingProcess.exec (fun _ => scriptOf inlnArgs) = runInlines inlnArgs := by
  suffices hcalls : (StagingProcess.evaluateCalls (scriptOf inlnArgs).calls >>= fun _ =>
      Stage.cutExecs) = runInlines inlnArgs by
    rw [← hcalls]
    rfl
  induction inlnArgs with
  | nil => rfl
  | cons inlnArg inlnArgs ih =>
      rw [runInlines, ← ih]
      funext s
      simp only [scriptOf, List.map_cons, StagingProcess.evaluateCalls, bind_assoc]
      rfl

/-- The merge of a value writes to the object that the tag stands in. -/
theorem mergeNodeToAst_frame {info : NodeInfo} {v : Value} (hv : v ≠ null) {x x' : σ}
    (hrun : mergeNodeToAst info v (h, x) = .ok () (h', x')) :
    x' = x ∧ ∀ b, info.parent ≠ .ref b → h'.cell b = h.cell b := by
  obtain ⟨isExpr, parent, place⟩ := info
  rw [mergeNodeToAst] at hrun
  cases place with
  | inl node =>
      dsimp only at hrun
      obtain ⟨idx, s, hidx, hrun⟩ := bind_eq_ok.mp hrun
      obtain ⟨-, rfl⟩ := reads_eq_ok.mp hidx
      cases idx with
      | none => cases hrun
      | some nodeIdx =>
          dsimp only at hrun
          rw [if_pos hv] at hrun
          obtain ⟨nodes, s, hread, hwrite⟩ := bind_eq_ok.mp hrun
          obtain ⟨-, rfl⟩ := reads_eq_ok.mp hread
          obtain ⟨h₁, hsplice, heq⟩ := writes_eq_ok.mp hwrite
          cases heq
          refine ⟨rfl, fun b hb => ?_⟩
          cases parent with
          | leaf y => cases hsplice
          | ref a =>
              rw [splice] at hsplice
              split at hsplice
              · cases hsplice
                exact Heap.write_cell_of_ne h _ fun heq => hb (heq ▸ rfl)
              · cases hsplice
  | inr key =>
      dsimp only at hrun
      rw [if_pos hv] at hrun
      obtain ⟨nodes, s, hread, hwrite⟩ := bind_eq_ok.mp hrun
      obtain ⟨-, rfl⟩ := reads_eq_ok.mp hread
      split at hwrite
      · obtain ⟨h₁, hset, heq⟩ := writes_eq_ok.mp hwrite
        cases heq
        refine ⟨rfl, fun b hb => ?_⟩
        cases parent with
        | leaf y => cases y <;> cases hset
        | ref a =>
            rw [setProperty] at hset
            split at hset <;> cases hset
            exact Heap.write_cell_of_ne h _ fun heq => hb (heq ▸ rfl)
      · cases hwrite

/-- The places in the queue are in the AST. -/
def QueueIn (t : Ast) (queue : List NodeInfo) : Prop :=
  ∀ info ∈ queue, ∃ a ∈ t.labels, info.parent = .ref a

/-- Programs that share nothing with the AST are still there when their turn comes. -/
theorem supplies_scriptOf {ps : List Ast} :
    ∀ {given : List Ast} {s : JSHeap × Stage}, QueueIn t s.2.inlineNodesInfo →
      (∀ p ∈ ps, ReadableAst s.1 p) → (∀ p ∈ ps, List.Disjoint p.labels t.labels) →
      Supplies t (scriptOf (ps.map Tree.val)).rest (scriptOf (ps.map Tree.val)).calls given ps
        s := by
  induction ps with
  | nil =>
      intro given s _ _ _
      refine ⟨rfl, fun h hrest => ?_⟩
      cases hrest
      exact fun _ _ => rfl
  | cons p ps ih =>
      intro given s hqueue hread hdisjoint h v hcall
      cases hcall
      rw [List.forall_mem_cons] at hread hdisjoint
      refine ⟨rfl, hread.1, hdisjoint.1, fun _ _ => rfl, fun s' hexec => ?_⟩
      obtain ⟨info, queue, hinfo, hmerge⟩ := executeInline_merge hexec
      obtain ⟨hstage, hframe⟩ := mergeNodeToAst_frame hread.1.val_ne_null hmerge
      rw [QueueIn, hinfo, List.forall_mem_cons] at hqueue
      obtain ⟨⟨a, ha, hparent⟩, hqueue⟩ := hqueue
      refine ih ?_ (fun q hq => ⟨?_, (hread.2 q hq).texts, (hread.2 q hq).closed,
        (hread.2 q hq).object⟩) hdisjoint.2
      · rw [hstage]
        exact hqueue
      · refine (hread.2 q hq).holds.frame fun b hb => hframe b fun heq => ?_
        rw [hparent] at heq
        cases heq
        exact hdisjoint.2 q hq hb ha

theorem queueIn_queued (isExec : Bool) :
    QueueIn t ((queued t depth isExec).map Tag.info) := by
  intro info hinfo
  obtain ⟨tag, htag, rfl⟩ := List.mem_map.mp hinfo
  obtain ⟨e, he, hat⟩ := exists_at (mem_queued.mp htag).1
  exact ⟨e.parent, Tree.parent_mem_labels he.1, hat.parent⟩

/-- The values of the calls of the code: Programs that share nothing with the AST. -/
structure InlineValues (fuel : ℕ) (h : JSHeap) (t : Ast) (depth : ℕ) (ps : List Ast) : Prop where
  length : ps.length = (calledTags fuel h t depth).length
  program : ∀ p ∈ ps, ReadableAst h p ∧ text p "type" = js "Program"
  disjoint : ∀ p ∈ ps, List.Disjoint p.labels t.labels

/-- Every tag of the depth is replaced, each `.!` tag by what its own value has for it. -/
def Replaced (t : Ast) (depth : ℕ) (ps : List Ast) (h : JSHeap) : Prop :=
  ∃ put, Filling t depth ps put ∧ h.Holds (t.substitute put)

/-- A stage that has been collected and whose calls return is one simultaneous substitution if
all tags of its depth can be printed, and is none if one of its `.!` tags cannot. -/
theorem stage_replaces (ht : Walkable h t) (hprogram : text t "type" = js "Program")
    (hboxed : NoBoxedTypes h) {stage : Stage} {s s' : JSHeap × Stage}
    (hcollect : collect fuel t.val depth (h, stage) = .ok () s) {ps : List Ast}
    (hps : InlineValues fuel h t depth ps)
    (hrun : runInlines (ps.map Tree.val) s = .ok () s') :
    ((∀ tag ∈ tagsOf t, tag.depth = depth → tag.report.Printable fuel h) →
        Replaced t depth ps s'.1) ∧
      (Replaced t depth ps s'.1 →
        ∀ tag ∈ tagsOf t, tag.depth = depth → tag.isExec = false →
          tag.report.Printable fuel h) := by
  constructor
  · intro hprint
    obtain ⟨hheap, hinlines, -⟩ := collect_queued ht hprogram hboxed hprint hcollect
    have hall : calledTags fuel h t depth = queued t depth false :=
      List.filter_eq_self.mpr fun tag htag => decide_eq_true
        (hprint tag (mem_queued.mp htag).1 (mem_queued.mp htag).2.1)
    have hsup : Supplies t (scriptOf (ps.map Tree.val)).rest (scriptOf (ps.map Tree.val)).calls
        [] ps s :=
      supplies_scriptOf (hinlines ▸ queueIn_queued false)
        (fun p hp => hheap ▸ (hps.program p hp).1) hps.disjoint
    rw [← exec_scriptOf] at hrun
    obtain ⟨put, hfilling, hholds, -⟩ := stage_substitutes ht hprogram hboxed hprint hcollect
      (hall ▸ hps.length) hsup hrun
    exact ⟨put, hfilling, hholds⟩
  · rintro ⟨put, hfilling, -⟩ tag htag hdepth hexec
    have hlength : (calledTags fuel h t depth).length = (queued t depth false).length :=
      hps.length.symm.trans hfilling.inlines.length_eq.symm
    have hall := List.length_filter_eq_length_iff.mp hlength
    exact of_decide_eq_true (hall tag (mem_queued.mpr ⟨htag, hdepth, hexec⟩))

/-! ### Two stages -/

/-- A stage that is collected and run, and what is left in the body of the AST. -/
def runStage (t : Ast) (inlnArgs : List Value) (body : ℕ) : JsM Stage (Option (List Value)) := do
  collect 30 t.val 1
  runInlines inlnArgs
  reads fun h => .ok (arrayElems? h (.ref body))

theorem runStage_eq_ok {inlnArgs : List Value} {body : ℕ} {s₀ s' : JSHeap × Stage}
    {elems : Option (List Value)} (hrun : runStage t inlnArgs body s₀ = .ok elems s') :
    ∃ s, collect 30 t.val 1 s₀ = .ok () s ∧ runInlines inlnArgs s = .ok () s' ∧
      arrayElems? s'.1 (.ref body) = elems := by
  obtain ⟨_, s, hcollect, hrun⟩ := bind_eq_ok.mp hrun
  obtain ⟨_, s₂, hinlines, hread⟩ := bind_eq_ok.mp hrun
  obtain ⟨helems, rfl⟩ := reads_eq_ok.mp hread
  exact ⟨s, hcollect, hinlines, Except.ok.inj helems⟩

/-- The AST of `.!f; .&; .!g;`. -/
def threeTags : Ast :=
  program 0 1 [exprStatement 2 (inlineTag 3 (identifier 4 "f")),
    exprStatement 5 (execTag 6 (node 7 "EmptyStatement" [])),
    exprStatement 8 (inlineTag 9 (identifier 10 "g"))]

/-- The Program `y; ;`. -/
def manyStatements : Ast :=
  program 11 12 [exprStatement 13 (identifier 14 "y"), node 15 "EmptyStatement" []]

/-- The Program without statements. -/
def noStatements : Ast := program 16 17 []

def threeTagsHeap : JSHeap := .ofTrees [threeTags, manyStatements, noStatements]

/-- The first call is given `y; ;` and the second nothing. -/
theorem stage_replaces_threeTags :
    ∃ s s', collect 30 threeTags.val 1 (threeTagsHeap, emptyStage) = .ok () s ∧
      runInlines [manyStatements.val, noStatements.val] s = .ok () s' ∧
      (∀ tag ∈ tagsOf threeTags, tag.depth = 1 → tag.report.Printable 30 threeTagsHeap) ∧
      Replaced threeTags 1 [manyStatements, noStatements] s'.1 ∧
      arrayElems? s'.1 (.ref 1) = some [.ref 13, .ref 15] := by
  have ht : Walkable threeTagsHeap threeTags :=
    ⟨by decide, by decide, by decide, by decide, by decide⟩
  have hps : InlineValues 30 threeTagsHeap threeTags 1 [manyStatements, noStatements] := by
    have hdisjoint : ∀ p ∈ [manyStatements, noStatements], ∀ a ∈ p.labels,
        a ∉ threeTags.labels := by decide
    refine ⟨by decide, ?_, fun p hp a => hdisjoint p hp a⟩
    rw [List.forall_mem_cons, List.forall_mem_singleton]
    exact ⟨⟨⟨by decide, by decide, by decide, rfl⟩, rfl⟩,
      ⟨by decide, by decide, by decide, rfl⟩, rfl⟩
  have hprint : ∀ tag ∈ tagsOf threeTags, tag.depth = 1 →
      tag.report.Printable 30 threeTagsHeap := by decide
  obtain ⟨_, s', hrun, hbody⟩ := exists_of_ended
    (r := runStage threeTags [manyStatements.val, noStatements.val] 1
      (threeTagsHeap, emptyStage))
    (f := Prod.fst) (b := some [.ref 13, .ref 15]) (by decide +kernel)
  obtain ⟨s, hcollect, hinlines, helems⟩ := runStage_eq_ok hrun
  exact ⟨s, s', hcollect, hinlines, hprint,
    (stage_replaces ht rfl (noBoxedTypes_ofTrees (by decide)) hcollect hps hinlines).1 hprint,
    helems.trans hbody⟩

/-- The AST of `.!(x => x); .!f;`. -/
def arrowThenName : Ast :=
  program 0 1 [exprStatement 2 (inlineTag 3 (arrow 4 5 6 7 8)),
    exprStatement 9 (inlineTag 10 (identifier 11 "f"))]

/-- The Program `y;`. -/
def oneStatement : Ast := program 12 13 [exprStatement 14 (identifier 15 "y")]

def arrowThenNameHeap : JSHeap := .ofTrees [arrowThenName, oneStatement]

/-- The one call, of the second tag, fills the place of the first, and the second stays. -/
theorem stage_misplaces_value :
    ∃ s s', collect 30 arrowThenName.val 1 (arrowThenNameHeap, emptyStage) = .ok () s ∧
      InlineValues 30 arrowThenNameHeap arrowThenName 1 [oneStatement] ∧
      runInlines [oneStatement.val] s = .ok () s' ∧
      arrayElems? s'.1 (.ref 1) = some [.ref 14, .ref 9] ∧
      ¬ Replaced arrowThenName 1 [oneStatement] s'.1 := by
  have hps : InlineValues 30 arrowThenNameHeap arrowThenName 1 [oneStatement] := by
    have hdisjoint : ∀ a ∈ oneStatement.labels, a ∉ arrowThenName.labels := by decide
    refine ⟨by decide, ?_, ?_⟩
    · rw [List.forall_mem_singleton]
      exact ⟨⟨by decide, by decide, by decide, rfl⟩, rfl⟩
    · rw [List.forall_mem_singleton]
      exact fun a => hdisjoint a
  obtain ⟨_, s', hrun, hbody⟩ := exists_of_ended
    (r := runStage arrowThenName [oneStatement.val] 1 (arrowThenNameHeap, emptyStage))
    (f := Prod.fst) (b := some [.ref 14, .ref 9]) (by decide +kernel)
  obtain ⟨s, hcollect, hinlines, helems⟩ := runStage_eq_ok hrun
  refine ⟨s, s', hcollect, hps, hinlines, helems.trans hbody, ?_⟩
  rintro ⟨put, hfilling, -⟩
  exact absurd hfilling.inlines.length_eq (by decide)

end MetaMonkey.Staging
