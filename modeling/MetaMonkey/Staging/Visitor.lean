import MetaMonkey.Staging.Traversal

/-!
Any visitor against the one that writes down what it is told. As long as what
a visitor does with a report is a pure step on its own state, a run with it is
the run of the recorder followed by a fold. Nothing is assumed of the AST.
-/

namespace MetaMonkey.Staging

open ObjectGraph Js AstObjMng StagedNodeIterator

variable {h : JSHeap} {ν : Type}

/-- What the visitor does when it is told about a tag. -/
def StagedNodeVisitor.act (visitor : StagedNodeVisitor ν) (r : Report) : JsM ν Unit :=
  if r.isExec then visitor.execNodeEnter r.info r.body r.depth
  else visitor.inlineNodeEnter r.info r.body r.depth

/-- A call that returned, or that ended with an error. -/
def outcome {σ : Type} (e : Option Fault) (s : JSHeap × σ) :
    EStateM.Result Fault (JSHeap × σ) Unit :=
  match e with
  | none => .ok () s
  | some e => .error e s

/-- On this heap, and for these reports, the visitor takes a pure step. -/
def Folds (h : JSHeap) (visitor : StagedNodeVisitor ν) (good : Report → Prop)
    (step : ν → Report → ν) : Prop :=
  ∀ r, good r → ∀ v, ignoreResult (visitor.act r) (h, v) = .ok () (h, step v r)

/-- The two calls do the same to the counters, and `x` does to its state what
the reports of `y` say. -/
def Mirrors (h : JSHeap) (good : Report → Prop) (step : ν → Report → ν)
    (x : JsM (Counters × ν) Unit) (y : JsM (Counters × List Report) Unit) : Prop :=
  ∀ c acc, ∃ e c' reports, y (h, c, acc) = outcome e (h, c', acc ++ reports) ∧
    ((∀ r ∈ reports, good r) → ∀ v, x (h, c, v) = outcome e (h, c', reports.foldl step v))

variable {good : Report → Prop} {step : ν → Report → ν}

theorem Mirrors.pure : Mirrors h good step (pure ()) (pure ()) :=
  fun c acc => ⟨none, c, [], by simp [outcome], fun _ _ => rfl⟩

theorem Mirrors.throw (e : Fault) : Mirrors h good step (throw e) (throw e) :=
  fun c acc => ⟨some e, c, [], by simp [outcome], fun _ _ => rfl⟩

theorem Mirrors.bind {x x' : JsM (Counters × ν) Unit} {y y' : JsM (Counters × List Report) Unit}
    (hx : Mirrors h good step x y) (hx' : Mirrors h good step x' y') :
    Mirrors h good step (x >>= fun _ => x') (y >>= fun _ => y') := by
  intro c acc
  obtain ⟨e, c₁, reports, hy, hxy⟩ := hx c acc
  cases e with
  | some e =>
      exact ⟨some e, c₁, reports, bind_error hy _,
        fun hgood v => bind_error (hxy hgood v) _⟩
  | none =>
      obtain ⟨e', c₂, reports', hy', hxy'⟩ := hx' c₁ (acc ++ reports)
      refine ⟨e', c₂, reports ++ reports', ?_, fun hgood v => ?_⟩
      · rw [bind_ok hy, hy', List.append_assoc]
      · rw [bind_ok (hxy (fun r hr => hgood r (List.mem_append_left _ hr)) v),
          hxy' (fun r hr => hgood r (List.mem_append_right _ hr)), List.foldl_append]

/-- The same reading of the heap on both sides. -/
theorem Mirrors.reads_bind {α : Type} (f : JSHeap → Except Fault α)
    {x : α → JsM (Counters × ν) Unit} {y : α → JsM (Counters × List Report) Unit}
    (hxy : ∀ a, Mirrors h good step (x a) (y a)) :
    Mirrors h good step (reads f >>= x) (reads f >>= y) := by
  intro c acc
  cases hf : f h with
  | error e =>
      refine ⟨some e, c, [], ?_, fun _ v => ?_⟩ <;>
        exact bind_error (by simp [reads, hf]) _
  | ok a =>
      obtain ⟨e, c', reports, hy, hx⟩ := hxy a c acc
      exact ⟨e, c', reports, (bind_ok (reads_ok hf) _).trans hy,
        fun hgood v => (bind_ok (reads_ok hf) _).trans (hx hgood v)⟩

/-- The same reading of the counters on both sides. -/
theorem Mirrors.counters_bind {x : Counters → JsM (Counters × ν) Unit}
    {y : Counters → JsM (Counters × List Report) Unit}
    (hxy : ∀ c, Mirrors h good step (x c) (y c)) :
    Mirrors h good step (get >>= fun s => x s.2.1) (get >>= fun s => y s.2.1) :=
  fun c acc => hxy c c acc

theorem Mirrors.update (f : Counters → Counters) :
    Mirrors h good step (update f) (update f) :=
  fun c acc => ⟨none, f c, [], by simp [StagedNodeIterator.update, outcome, modify_apply],
    fun _ _ => rfl⟩

theorem call_recorder (r : Report) (c : Counters) (acc : List Report) :
    call (recorder.act r) (h, c, acc) = .ok () (h, c, acc ++ [r]) := by
  obtain ⟨isExec, info, body, depth⟩ := r
  cases isExec <;> rfl

theorem call_of_folds {visitor : StagedNodeVisitor ν} (hf : Folds h visitor good step)
    {r : Report} (hr : good r) (c : Counters) (v : ν) :
    call (visitor.act r) (h, c, v) = .ok () (h, c, step v r) := by
  have hact := hf r hr v
  rw [ignoreResult] at hact
  cases hrun : visitor.act r (h, v) with
  | ok a s =>
      rw [hrun] at hact
      simp only [EStateM.Result.ok.injEq, true_and] at hact
      simp [call, ignoreResult, hrun, hact]
  | error e s =>
      rw [hrun] at hact
      cases e with
      | jsFalse =>
          simp only [EStateM.Result.ok.injEq, true_and] at hact
          simp [call, ignoreResult, hrun, hact]
      | crash => cases hact
      | outside => cases hact

theorem Mirrors.call {visitor : StagedNodeVisitor ν} (hf : Folds h visitor good step)
    (r : Report) : Mirrors h good step (call (visitor.act r)) (call (recorder.act r)) :=
  fun c acc => ⟨none, c, [r], call_recorder r c acc,
    fun hgood v => call_of_folds hf (hgood r List.mem_cons_self) c v⟩

section Callbacks

variable {visitor : StagedNodeVisitor ν} (hf : Folds h visitor good step)
include hf

/-- The counters are updated and the visitor is told about a tag. -/
theorem Mirrors.report (f : Counters → Counters) (isExec : Bool) (info : NodeInfo)
    (body : Value) {x : ℕ → JsM (Counters × ν) Unit}
    {y : ℕ → JsM (Counters × List Report) Unit}
    (hx : ∀ depth, x depth = StagedNodeIterator.call (visitor.act ⟨isExec, info, body, depth⟩))
    (hy : ∀ depth, y depth = StagedNodeIterator.call (recorder.act ⟨isExec, info, body, depth⟩)) :
    Mirrors h good step
      (StagedNodeIterator.update f >>= fun _ => get >>= fun s => x (s.2.1.inlines + s.2.1.execs))
      (StagedNodeIterator.update f >>= fun _ => get >>= fun s =>
        y (s.2.1.inlines + s.2.1.execs)) :=
  (Mirrors.update f).bind (.counters_bind (x := fun c => x (c.inlines + c.execs))
    (y := fun c => y (c.inlines + c.execs)) fun c => by
      rw [hx, hy]
      exact .call hf _)

theorem Mirrors.enter (slotOf : Option Value) (nodeInfo : Bool → NodeInfo) (node : Value) :
    Mirrors h good step (enter visitor slotOf nodeInfo node)
      (enter recorder slotOf nodeInfo node) := by
  refine .reads_bind _ fun body => ?_
  by_cases hbody : body ≠ null
  · simp only [if_pos hbody]
    exact .update _
  · simp only [if_neg hbody]
    refine .counters_bind (fun c => ?_)
      (x := fun c => if c.quazis = 0 then _ else _) (y := fun c => if c.quazis = 0 then _ else _)
    by_cases hquazis : c.quazis = 0
    · simp only [if_pos hquazis]
      refine .reads_bind _ fun found => ?_
      cases found with
      | nothing => exact .pure
      | inline isExpr inlineNode =>
          exact .report hf _ false _ inlineNode (fun _ => rfl) (fun _ => rfl)
      | exec isExpr execNode =>
          refine .counters_bind (fun c => ?_)
            (x := fun c => if c.inlines > 0 then _ else _)
            (y := fun c => if c.inlines > 0 then _ else _)
          by_cases hinlines : c.inlines > 0
          · simp only [if_pos hinlines]
            exact .bind (.throw _) (.report hf _ true _ execNode (fun _ => rfl) (fun _ => rfl))
          · simp only [if_neg hinlines]
            exact .report hf _ true _ execNode (fun _ => rfl) (fun _ => rfl)
    · simp only [if_neg hquazis]
      exact .pure

omit hf in
theorem Mirrors.singleObjExit (key : String) (node parent : Value) :
    Mirrors h good step (singleObjExit key node parent) (singleObjExit key node parent) := by
  refine .reads_bind _ fun body => ?_
  by_cases hbody : body ≠ null
  · simp only [if_pos hbody]
    exact .update _
  · simp only [if_neg hbody]
    exact .update _

variable {iterate : Value → JsM (Counters × ν) Unit}
  {iterate' : Value → JsM (Counters × List Report) Unit}
  (hiterate : ∀ v, Mirrors h good step (iterate v) (iterate' v))
include hiterate

theorem Mirrors.iterateElems (obj parent : Value) (l : List Value) : ∀ i,
    Mirrors h good step (AstObjIterator.iterateElems (applier visitor) iterate obj parent i l)
      (AstObjIterator.iterateElems (applier recorder) iterate' obj parent i l) := by
  induction l with
  | nil => exact fun _ => .pure
  | cons v l ih =>
      intro i
      exact .bind (.enter hf _ _ _) (.bind (hiterate _) (.bind (.singleObjExit "" _ parent) (ih _)))

theorem Mirrors.iterateObjectValue (parent : Value) (key : String) (v : Value) :
    Mirrors h good step
      (AstObjIterator.iterateObjectValue (applier visitor) iterate parent key v)
      (AstObjIterator.iterateObjectValue (applier recorder) iterate' parent key v) := by
  unfold AstObjIterator.iterateObjectValue
  cases hobj : isObject v with
  | false => exact .pure
  | true =>
      intro c acc
      cases harr : arrayElems? h v with
      | some elems =>
          obtain ⟨e, c', reports, hy, hx⟩ := (Mirrors.bind .pure (.bind
            (.iterateElems hf hiterate v parent elems 0) .pure) :
              Mirrors h good step _ _) c acc
          refine ⟨e, c', reports, ?_, fun hgood v' => ?_⟩
          · rw [← hy]
            simp only [if_true, bind_apply, get_apply, harr]
            rfl
          · rw [← hx hgood v']
            simp only [if_true, bind_apply, get_apply, harr]
            rfl
      | none =>
          obtain ⟨e, c', reports, hy, hx⟩ := (Mirrors.bind
            (.enter hf (some parent) (fun isExpr => ⟨isExpr, parent, .inr key⟩) v) (.bind
            (hiterate v) (.singleObjExit key v parent))) c acc
          refine ⟨e, c', reports, ?_, fun hgood v' => ?_⟩
          · rw [← hy]
            simp only [if_true, bind_apply, get_apply, harr]
            rfl
          · rw [← hx hgood v']
            simp only [if_true, bind_apply, get_apply, harr]
            rfl

theorem Mirrors.iterateProps (obj : Value) (props : List (String × Value)) :
    Mirrors h good step (AstObjIterator.iterateProps (applier visitor) iterate obj props)
      (AstObjIterator.iterateProps (applier recorder) iterate' obj props) := by
  induction props with
  | nil => exact .pure
  | cons f props ih => exact .bind (.iterateObjectValue hf hiterate _ _ _) ih

end Callbacks

theorem Mirrors.iterateObject {visitor : StagedNodeVisitor ν}
    (hf : Folds h visitor good step) (fuel : ℕ) : ∀ v,
    Mirrors h good step (iterateObject (applier visitor) fuel v)
      (iterateObject (applier recorder) fuel v) := by
  induction fuel with
  | zero => exact fun _ => .throw _
  | succ n ih =>
      intro v
      match v with
      | .leaf (.prim p) => exact .throw _
      | .leaf (.wrapper p) => exact .pure
      | .ref a =>
          intro c acc
          cases hc : h.cell a with
          | none =>
              refine ⟨some .crash, c, [], ?_, fun _ v => ?_⟩ <;>
                simp [Staging.iterateObject, bind_apply, hc, outcome]
          | some cell =>
              cases cell with
              | array elems =>
                  refine ⟨some .jsFalse, c, [], ?_, fun _ v => ?_⟩ <;>
                    simp [Staging.iterateObject, bind_apply, hc, outcome]
              | record cls fields distinct =>
                  obtain ⟨e, c', reports, hy, hx⟩ :=
                    Mirrors.iterateProps hf ih (.ref a) fields.reverse c acc
                  refine ⟨e, c', reports, ?_, fun hgood v' => ?_⟩
                  · rw [← hy]
                    simp [Staging.iterateObject, bind_apply, hc]
                  · rw [← hx hgood v']
                    simp [Staging.iterateObject, bind_apply, hc]

/-- What the recorder has written down when its run ends. -/
def reportsOf (fuel : ℕ) (obj : Value) (h : JSHeap) : List Report :=
  match iterateStagedNodes recorder fuel obj h [] with
  | .ok _ s => s.2.2
  | .error _ s => s.2.2

/-- A run with any visitor is the run of the recorder, folded. -/
theorem iterateStagedNodes_fold {visitor : StagedNodeVisitor ν}
    (hf : Folds h visitor good step) (fuel : ℕ) (obj : Value)
    (hgood : ∀ r ∈ reportsOf fuel obj h, good r) :
    ∃ e c, iterateStagedNodes recorder fuel obj h [] =
        outcome e (h, c, reportsOf fuel obj h) ∧
      ∀ v, iterateStagedNodes visitor fuel obj h v =
        outcome e (h, c, (reportsOf fuel obj h).foldl step v) := by
  obtain ⟨e, c, reports, hy, hx⟩ := Mirrors.iterateObject hf fuel obj start []
  have hreports : reportsOf fuel obj h = reports := by
    rw [reportsOf, iterateStagedNodes, hy]
    cases e <;> rfl
  rw [hreports] at hgood ⊢
  exact ⟨e, c, hy, fun v => hx hgood v⟩

/-! ### What a run that ends says of the AST -/

/-- If the call returns on this heap, the heap is the same and `P` is true. -/
def Leaves (h : JSHeap) (x : JsM (Counters × List Report) Unit) (P : Prop) : Prop :=
  ∀ c acc s, x (h, c, acc) = .ok () s → s.1 = h ∧ P

theorem folds_recorder : Folds h recorder (fun _ => True) fun acc r => acc ++ [r] := by
  intro r _ acc
  obtain ⟨isExec, info, body, depth⟩ := r
  cases isExec <;> rfl

theorem Mirrors.leaves {x : JsM (Counters × ν) Unit} {y : JsM (Counters × List Report) Unit}
    (hxy : Mirrors h good step x y) : Leaves h y True := by
  intro c acc s hs
  obtain ⟨e, c', reports, hy, -⟩ := hxy c acc
  rw [hy] at hs
  cases e with
  | some e => cases hs
  | none =>
      cases hs
      exact ⟨rfl, trivial⟩

theorem Leaves.bind {x y : JsM (Counters × List Report) Unit} {P Q : Prop} (hx : Leaves h x P)
    (hy : Leaves h y Q) : Leaves h (x >>= fun _ => y) (P ∧ Q) := by
  intro c acc s hs
  obtain ⟨_, ⟨h₁, c₁, acc₁⟩, hx₁, hy₁⟩ := bind_eq_ok.mp hs
  obtain ⟨rfl, hP⟩ := hx c acc _ hx₁
  obtain ⟨hheap, hQ⟩ := hy c₁ acc₁ s hy₁
  exact ⟨hheap, hP, hQ⟩

theorem Leaves.mono {x : JsM (Counters × List Report) Unit} {P Q : Prop} (hx : Leaves h x P)
    (hPQ : P → Q) : Leaves h x Q :=
  fun c acc s hs => (hx c acc s hs).imp_right hPQ

theorem Leaves.of_true {x : JsM (Counters × List Report) Unit} {P : Prop}
    (hx : Leaves h x True) (hP : P) : Leaves h x P :=
  hx.mono fun _ => hP

/-- A null pointer cannot be entered. -/
theorem leaves_enter (slotOf : Option Value) (nodeInfo : Bool → NodeInfo) (node : Value) :
    Leaves h (enter recorder slotOf nodeInfo node) (node ≠ null) := by
  by_cases hnode : node = null
  · subst hnode
    intro c acc s hs
    have hcrash : enter recorder slotOf nodeInfo null (h, c, acc) =
        .error .crash (h, c, acc) := by
      have hread : getMetaQuaziStmt h null = .error .crash := rfl
      exact bind_error (by simp [reads, hread]) _
    rw [hcrash] at hs
    cases hs
  · exact (Mirrors.enter folds_recorder slotOf nodeInfo node).leaves.of_true hnode

theorem leaves_pure {P : Prop} (hP : P) : Leaves h (pure ()) P := by
  intro c acc s hs
  cases hs
  exact ⟨rfl, hP⟩

theorem leaves_exit (key : String) (node parent : Value) :
    Leaves h (singleObjExit key node parent) True :=
  (Mirrors.singleObjExit key node parent :
    Mirrors h (fun _ => True) (fun (acc : List Report) r => acc ++ [r]) _ _).leaves

/-- What is shown of each object of a tree by induction. -/
def RegularBelow (t : Ast) : Prop :=
  (∀ a elems, t ≠ .array a elems) ∧ ∀ s ∈ t.subtrees, elemsRegular s = true

theorem leaves_iterateElems {fuel : ℕ} (obj parent : Value) {elems : List Ast} (i : ℕ)
    (helems : ∀ e ∈ elems, Leaves h (iterateObject (applier recorder) fuel (valueToObject e.val))
      (RegularBelow e)) :
    Leaves h (AstObjIterator.iterateElems (applier recorder)
        (iterateObject (applier recorder) fuel) obj parent i (elems.map Tree.val))
      (∀ e ∈ elems, valueToObject e.val ≠ null ∧ RegularBelow e) := by
  induction elems generalizing i with
  | nil => exact leaves_pure (by simp)
  | cons e elems ih =>
      rw [List.forall_mem_cons] at helems
      refine ((leaves_enter none _ _).bind (helems.1.bind ((leaves_exit "" _ parent).bind
        (ih (i + 1) helems.2)))).mono ?_
      rintro ⟨hne, hreg, -, hrest⟩
      exact List.forall_mem_cons.mpr ⟨⟨hne, hreg⟩, hrest⟩

theorem elemsRegular_array {a : ℕ} {elems : List Ast}
    (hall : ∀ e ∈ elems, valueToObject e.val ≠ null ∧ RegularBelow e) :
    ∀ s ∈ (Tree.array a elems : Ast).subtrees, elemsRegular s = true := by
  intro s hs
  rcases List.mem_cons.mp (Tree.subtrees_array a elems ▸ hs) with rfl | hs
  · refine List.all_eq_true.mpr fun e he => ?_
    obtain ⟨hne, hreg⟩ := hall e he
    cases e with
    | leaf v => exact decide_eq_true hne
    | record b cls fields => rfl
    | array b elems' => exact absurd rfl (hreg.1 b elems')
  · obtain ⟨e, he, hs⟩ := List.mem_flatMap.mp hs
    exact (hall e he).2.2 s hs

/-- What is shown of each subtree by induction. -/
def LeavesBelow (h : JSHeap) (t : Ast) : Prop :=
  h.Holds t → t.Closed → ∀ fuel,
    Leaves h (iterateObject (applier recorder) fuel (valueToObject t.val)) (RegularBelow t) ∧
      ∀ parent key, Leaves h (AstObjIterator.iterateObjectValue (applier recorder)
        (iterateObject (applier recorder) fuel) parent key t.val)
          (∀ s ∈ t.subtrees, elemsRegular s = true)

theorem leaves_object {fuel : ℕ} {parent : Value} {key : String} {t : Ast}
    (hobj : isObject t.val = true) (harr : arrayElems? h t.val = none)
    (hnode : Leaves h (iterateObject (applier recorder) fuel t.val) (RegularBelow t)) :
    Leaves h (AstObjIterator.iterateObjectValue (applier recorder)
        (iterateObject (applier recorder) fuel) parent key t.val)
      (∀ s ∈ t.subtrees, elemsRegular s = true) := by
  intro c acc s hs
  rw [iterateObjectValue_object hobj harr] at hs
  exact (((leaves_enter (some parent) _ t.val).bind (hnode.bind (leaves_exit key _ parent))).mono
    fun ⟨_, hreg, _⟩ => hreg.2) c acc s hs

theorem leavesBelow_leaf (v : Value) : LeavesBelow h (.leaf v) := by
  intro hholds hclosed fuel
  have hreg : RegularBelow (.leaf v) := ⟨by simp, by simp [elemsRegular]⟩
  have hiterate : Leaves h (iterateObject (applier recorder) fuel (valueToObject v))
      (RegularBelow (.leaf v)) :=
    (Mirrors.iterateObject folds_recorder fuel _).leaves.of_true hreg
  refine ⟨hiterate, fun parent key => ?_⟩
  match v with
  | .ref a => exact absurd rfl (hclosed _ (Tree.self_mem_subtrees _) a)
  | .leaf (.prim p) => exact leaves_pure hreg.2
  | .leaf (.wrapper p) => exact leaves_object rfl rfl hiterate

theorem leavesBelow_record {a : ℕ} {cls : ObjClass} {fields : List (String × Ast)}
    (ih : ∀ f ∈ fields, LeavesBelow h f.2) : LeavesBelow h (.record a cls fields) := by
  intro hholds hclosed fuel
  obtain ⟨_, hc⟩ := hholds.shows
  have hprops : ∀ (fuel : ℕ) (l : List (String × Ast)), l ⊆ fields →
      Leaves h (AstObjIterator.iterateProps (applier recorder)
        (iterateObject (applier recorder) fuel) (.ref a) (l.map fun f => (f.1, f.2.val)))
          (∀ f ∈ l, ∀ s ∈ f.2.subtrees, elemsRegular s = true) := by
    intro fuel l hl
    induction l with
    | nil => exact leaves_pure (by simp)
    | cons f l ihl =>
        rw [List.cons_subset] at hl
        have hf := (ih f hl.1 (hholds.field hl.1) (hclosed.subtree
          (Tree.subtrees_of_field hl.1 f.2.self_mem_subtrees)) fuel).2 (.ref a) f.1
        exact (hf.bind (ihl hl.2)).mono fun hall => List.forall_mem_cons.mpr hall
  have hiterate : Leaves h (iterateObject (applier recorder) fuel (.ref a))
      (RegularBelow (.record a cls fields)) := by
    intro c acc s hs
    cases fuel with
    | zero => cases hs
    | succ n =>
        have hrun : iterateObject (applier recorder) (n + 1) (.ref a) (h, c, acc) =
            AstObjIterator.iterateProps (applier recorder) (iterateObject (applier recorder) n)
              (.ref a) (fields.reverse.map fun f => (f.1, f.2.val)) (h, c, acc) := by
          simp [iterateObject, bind_apply, hc, List.map_reverse]
        refine (hprops n fields.reverse (by simp) c acc s (hrun ▸ hs)).imp_right
          fun hall => ⟨by simp, fun s hs => ?_⟩
        rcases List.mem_cons.mp (Tree.subtrees_record a cls fields ▸ hs) with rfl | hs
        · rfl
        · obtain ⟨f, hf, hs⟩ := List.mem_flatMap.mp hs
          exact hall f (List.mem_reverse.mpr hf) s hs
  exact ⟨hiterate, fun parent key => leaves_object rfl (by simp [arrayElems?, hc]) hiterate⟩

theorem leavesBelow_array {a : ℕ} {elems : List Ast} (ih : ∀ e ∈ elems, LeavesBelow h e) :
    LeavesBelow h (.array a elems) := by
  intro hholds hclosed fuel
  have hc : h.cell a = some (.array (elems.map Tree.val)) := hholds.shows
  refine ⟨fun c acc s hs => ?_, fun parent key c acc s hs => ?_⟩
  · cases fuel with
    | zero => cases hs
    | succ n =>
        have hfail : iterateObject (applier recorder) (n + 1) (.ref a) (h, c, acc) =
            .error .jsFalse (h, c, acc) := by
          simp [iterateObject, bind_apply, hc]
        cases hfail.symm.trans hs
  · have hloop := leaves_iterateElems (.ref a) parent 0 fun e he =>
      (ih e he (hholds.elem he) (hclosed.subtree
        (Tree.subtrees_of_elem he e.self_mem_subtrees)) fuel).1
    rw [Tree.val_array, iterateObjectValue_array hc] at hs
    exact (hloop c acc s hs).imp_right elemsRegular_array

theorem leavesBelow (t : Ast) : LeavesBelow h t := by
  induction t using Tree.induct with
  | leaf v => exact leavesBelow_leaf v
  | record a cls fields ih => exact leavesBelow_record ih
  | array a elems ih => exact leavesBelow_array ih

/-- A run that returns has met no null in an array. -/
theorem isAst_of_run {t : Ast} (hholds : h.Holds t) (hclosed : t.Closed) (htextual : Textual t)
    (hobject : isObject t.val = true) {fuel : ℕ} {acc : List Report} {s}
    (hrun : iterateStagedNodes recorder fuel t.val h acc = .ok () s) : IsAst h t := by
  have hval : valueToObject t.val = t.val := by
    cases t with
    | leaf v =>
        match v with
        | .ref a => rfl
        | .leaf (.wrapper p) => rfl
        | .leaf (.prim p) => cases hobject
    | record a cls fields => rfl
    | array a elems => rfl
  have hreg := ((leavesBelow t hholds hclosed fuel).1 _ _ _ (hval.symm ▸ hrun)).2.2
  exact ⟨hholds, fun r hr => ⟨(htextual r hr).1, (htextual r hr).2, hreg r hr⟩, hclosed, hobject⟩

end MetaMonkey.Staging
