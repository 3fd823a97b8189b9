import MetaMonkey.Staging.SourceOrder

/-!
Runs of the traversal that return. With a deeper stack they are the same, so that they report
the tags of an AST that is a tree, however deep it is; the deepest stage is the largest depth.
-/

namespace MetaMonkey.Staging

open ObjectGraph Js AstNode AstObjMng StagedNodeIterator

variable {σ ν α β : Type} {h : JSHeap} {t : Ast}

/-! ### The depth of the stack -/

/-- Where `x` returns, `y` returns the same. -/
def Refines (x y : JsM σ α) : Prop := ∀ s a s', x s = .ok a s' → y s = .ok a s'

theorem Refines.refl (x : JsM σ α) : Refines x x := fun _ _ _ hx => hx

theorem Refines.bind {x y : JsM σ α} {f g : α → JsM σ β} (hxy : Refines x y)
    (hfg : ∀ a, Refines (f a) (g a)) : Refines (x >>= f) (y >>= g) := by
  intro s b s' hrun
  obtain ⟨a, s₁, hx, hf⟩ := bind_eq_ok.mp hrun
  exact bind_eq_ok.mpr ⟨a, s₁, hxy s a s₁ hx, hfg a s₁ b s' hf⟩

section

variable {applier : Applier σ} {iterate iterate' : Value → JsM σ Unit}
  (hiterate : ∀ v, Refines (iterate v) (iterate' v))
include hiterate

theorem refines_elems (obj parentObj : Value) (nodes : List Value) : ∀ i,
    Refines (AstObjIterator.iterateElems applier iterate obj parentObj i nodes)
      (AstObjIterator.iterateElems applier iterate' obj parentObj i nodes) := by
  induction nodes with
  | nil => exact fun _ => .refl _
  | cons node nodes ih =>
      exact fun i => .bind (.refl _) fun _ => .bind (hiterate _) fun _ =>
        .bind (.refl _) fun _ => ih _

theorem refines_value (parentObj : Value) (key : String) (v : Value) :
    Refines (AstObjIterator.iterateObjectValue applier iterate parentObj key v)
      (AstObjIterator.iterateObjectValue applier iterate' parentObj key v) := by
  unfold AstObjIterator.iterateObjectValue
  split
  · refine .bind (.refl _) fun s => ?_
    split
    · exact .bind (.refl _) fun _ => .bind (refines_elems hiterate _ _ _ _) fun _ => .refl _
    · exact .bind (.refl _) fun _ => .bind (hiterate _) fun _ => .refl _
  · exact .refl _

theorem refines_props (obj : Value) (props : List (String × Value)) :
    Refines (AstObjIterator.iterateProps applier iterate obj props)
      (AstObjIterator.iterateProps applier iterate' obj props) := by
  induction props with
  | nil => exact .refl _
  | cons f props ih => exact .bind (refines_value hiterate _ _ _) fun _ => ih

end

/-- A walk that returns is the same with a deeper stack. -/
theorem refines_iterateObject (applier : Applier σ) {fuel fuel' : ℕ} (hle : fuel ≤ fuel') :
    ∀ v, Refines (iterateObject applier fuel v) (iterateObject applier fuel' v) := by
  induction fuel generalizing fuel' with
  | zero =>
      intro v s a s' hrun
      cases hrun
  | succ n ih =>
      obtain ⟨m, rfl⟩ := Nat.exists_eq_succ_of_ne_zero (Nat.ne_zero_of_lt hle)
      intro v
      unfold iterateObject
      split
      · exact .refl _
      · exact .refl _
      · refine .bind (.refl _) fun s => ?_
        split
        · exact .refl _
        · exact .refl _
        · exact refines_props (ih (Nat.le_of_succ_le_succ hle)) _ _

/-! ### The reports of a run -/

theorem reportsIn_eventsOf (t : Ast) :
    reportsIn (eventsOf t) = (tagsBelow true t).map Tag.report := by
  rw [reportsIn, tag?_eventsOf]

theorem report_mem {fuel : ℕ} (ht : Walkable h t) (hprogram : text t "type" = js "Program")
    (hfuel : t.height < fuel) {r : Report} (hr : r ∈ reportsOf fuel t.val h) :
    r ∈ (tagsOf t).map Tag.report := by
  have hwalk := iterateStagedNodes_events ht hprogram hfuel
  rw [reportsIn_eventsOf] at hwalk
  refine ((tagsBelow_perm t).map _).mem_iff.mp ?_
  split at hwalk
  · obtain ⟨s, hs, hsub⟩ := hwalk
    rw [reportsOf, hs] at hr
    exact hsub hr
  · rwa [reportsOf, hwalk] at hr

/-- A run that returns goes over the tags, whatever the depth of the stack. -/
theorem fold_of_run {visitor : StagedNodeVisitor ν} {good : Report → Prop} {step : ν → Report → ν}
    (hf : Folds h visitor good step) (ht : Walkable h t)
    (hprogram : text t "type" = js "Program") (hgood : ∀ tag ∈ tagsOf t, good tag.report)
    {fuel : ℕ} {v : ν} {s : JSHeap × Counters × ν}
    (hrun : iterateStagedNodes visitor fuel t.val h v = .ok () s) :
    s.1 = h ∧ s.2.2 = ((tagsBelow true t).map Tag.report).foldl step v := by
  obtain ⟨deep, hle, hheight⟩ : ∃ deep, fuel ≤ deep ∧ t.height < deep :=
    ⟨max fuel (t.height + 1), Nat.le_max_left _ _, Nat.le_max_right _ _⟩
  have hdeep : iterateStagedNodes visitor deep t.val h v = .ok () s :=
    refines_iterateObject (applier visitor) hle _ _ _ _ hrun
  have hreports : ∀ r ∈ reportsOf deep t.val h, good r := by
    intro r hr
    obtain ⟨tag, htag, rfl⟩ := List.mem_map.mp (report_mem ht hprogram hheight hr)
    exact hgood tag htag
  obtain ⟨e, c, hrec, hfold⟩ := iterateStagedNodes_fold hf deep t.val hreports
  rw [hfold v] at hdeep
  cases e with
  | some e => cases hdeep
  | none =>
      have hwalk := iterateStagedNodes_events ht hprogram hheight
      rw [reportsIn_eventsOf] at hwalk
      split at hwalk
      · obtain ⟨s', hs', -⟩ := hwalk
        cases hrec.symm.trans hs'
      · have hall : reportsOf deep t.val h = (tagsBelow true t).map Tag.report := by
          rw [reportsOf, hwalk]
        cases hdeep
        exact ⟨rfl, by rw [hall]⟩

/-! ### The deepest stage -/

/-- `StageDepthFinder` takes the larger depth. -/
theorem stageDepthFinder_folds :
    Folds h stageDepthFinder (fun _ => True) fun depth r => max depth r.depth := by
  intro r _ depth
  obtain ⟨isExec, info, body, d⟩ := r
  cases isExec <;> rfl

/-- The largest depth of a tag outside quasis. -/
def deepest (t : Ast) : ℕ := ((tagsOf t).map Tag.depth).foldr max 0

theorem foldl_max (l : List ℕ) (n : ℕ) : l.foldl max n = max n (l.foldr max 0) := by
  induction l generalizing n with
  | nil => exact (Nat.max_zero n).symm
  | cons m l ih => rw [List.foldl_cons, ih, List.foldr_cons, Nat.max_assoc]

theorem getDeapestStage_eq (ht : IsAst h t) (hprogram : text t "type" = js "Program")
    (hdistinct : t.labels.Nodup) {fuel depth : ℕ} {process : StagingProcess}
    {s : JSHeap × StagingProcess}
    (hrun : StagingProcess.getDeapestStage fuel t.val (h, process) = .ok depth s) :
    depth = deepest t ∧ s = (h, process) := by
  rw [StagingProcess.getDeapestStage] at hrun
  split at hrun
  · next hiter =>
      obtain ⟨rfl, hdepth⟩ := fold_of_run stageDepthFinder_folds (walkable_of_ast ht hdistinct)
        hprogram (fun _ _ => trivial) hiter
      cases hrun
      refine ⟨hdepth.trans ?_, rfl⟩
      calc ((tagsBelow true t).map Tag.report).foldl (fun depth r => max depth r.depth) 0 =
            ((tagsBelow true t).map Tag.depth).foldl max 0 := by
              rw [List.foldl_map, List.foldl_map]
              rfl
        _ = ((tagsOf t).map Tag.depth).foldl max 0 := ((tagsBelow_perm t).map _).foldl_eq 0
        _ = deepest t := by rw [foldl_max, Nat.zero_max, deepest]
  · cases hrun

theorem le_foldr_max {l : List ℕ} {n : ℕ} (hn : n ∈ l) : n ≤ l.foldr max 0 := by
  induction l with
  | nil => cases hn
  | cons m l ih =>
      rcases List.mem_cons.mp hn with rfl | hn
      · exact Nat.le_max_left _ _
      · exact (ih hn).trans (Nat.le_max_right _ _)

theorem depth_le_deepest {tag : Tag} (htag : tag ∈ tagsOf t) : tag.depth ≤ deepest t :=
  le_foldr_max (List.mem_map_of_mem htag)

theorem deepest_lt {n : ℕ} (hn : 0 < n) (hlt : ∀ tag ∈ tagsOf t, tag.depth < n) :
    deepest t < n := by
  suffices h : ∀ l : List ℕ, (∀ m ∈ l, m < n) → l.foldr max 0 < n from
    h _ fun m hm => by
      obtain ⟨tag, htag, rfl⟩ := List.mem_map.mp hm
      exact hlt tag htag
  intro l hl
  induction l with
  | nil => exact hn
  | cons m l ih =>
      exact max_lt (hl m List.mem_cons_self) (ih fun k hk => hl k (List.mem_cons_of_mem _ hk))

end MetaMonkey.Staging
