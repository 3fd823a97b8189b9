import MetaMonkey.Staging.Tags
import MetaMonkey.ObjectGraph.Reach
import Mathlib.Data.Bool.Count
import Mathlib.Data.List.Perm.Basic

/-!
The walk over an AST that is a tree: the recognisers read the heap as the tree
shows it, and a run of the iterator hands the visitor the unquoted tags.
-/

namespace MetaMonkey.Staging

open ObjectGraph Js AstObjMng AstNode StagedNodeIterator

variable {h : JSHeap}

/-! ### The recognisers on a tree -/

/-- An object of an AST that the heap holds. -/
structure ReadableAst (h : JSHeap) (t : Ast) : Prop where
  holds : h.Holds t
  texts : Textual t
  closed : t.Closed
  object : isObject t.val = true

/-- One without holes in its arrays. -/
structure IsAst (h : JSHeap) (t : Ast) : Prop where
  holds : h.Holds t
  regular : Regular t
  closed : t.Closed
  object : isObject t.val = true

theorem IsAst.node {t : Ast} (ht : IsAst h t) : ReadableAst h t :=
  ⟨ht.holds, fun s hs => ⟨(ht.regular s hs).1, (ht.regular s hs).2.1⟩, ht.closed, ht.object⟩

def valOr (v : Value) (t : Option Ast) : Value := (t.map Tree.val).getD v

@[simp] theorem valOr_none (v : Value) : valOr v none = v := rfl

@[simp] theorem valOr_some (v : Value) (t : Ast) : valOr v (some t) = t.val := rfl

theorem lookup_map_val (fields : List (String × Ast)) (key : String) :
    (fields.map fun f => (f.1, f.2.val)).lookup key = (fields.lookup key).map Tree.val := by
  induction fields with
  | nil => rfl
  | cons f fields ih =>
      obtain ⟨k, t⟩ := f
      simp only [List.map_cons, List.lookup_cons]
      cases key == k with
      | true => rfl
      | false => exact ih

theorem child_mem_subtrees {t s : Ast} {key : String} (hs : child t key = some s) :
    s ∈ t.subtrees := by
  cases t with
  | record a cls fields =>
      exact Tree.subtrees_of_field (mem_of_lookup hs) s.self_mem_subtrees
  | leaf v => cases hs
  | array a elems => cases hs

theorem ReadableAst.getProperty {t : Ast} (ht : ReadableAst h t) (key : String) :
    getProperty h t.val key = .ok (valOr undefined (child t key)) := by
  cases t with
  | record a cls fields =>
      obtain ⟨_, hc⟩ := ht.holds.shows
      simp only [Tree.val_record, Js.getProperty, hc, lookup_map_val]
      rfl
  | array a elems =>
      have hc : h.cell a = _ := ht.holds.shows
      simp only [Tree.val_array, Js.getProperty, hc]
      rfl
  | leaf v =>
      cases v with
      | ref a => exact absurd rfl (ht.closed _ (Tree.self_mem_subtrees _) a)
      | leaf x =>
          cases x with
          | wrapper p => rfl
          | prim p => cases ht.object

theorem ReadableAst.getPropertyToObj {t : Ast} (ht : ReadableAst h t) (key : String) :
    getPropertyToObj h t.val key = .ok (valOr null (objChild t key)) := by
  rw [Js.getPropertyToObj, ht.getProperty, ok_bind, objChild]
  cases hc : child t key with
  | none => rfl
  | some s =>
      cases s with
      | leaf v =>
          by_cases hv : valueToObject v = null
          · simp [hv]
          · simp [hv]
      | record a cls fields => rfl
      | array a elems => rfl

theorem ReadableAst.getPropertyToString {t : Ast} (ht : ReadableAst h t) {key : String}
    (hkey : key = "type" ∨ key = "operator") :
    getPropertyToString h t.val key = .ok (text t key) := by
  rw [Js.getPropertyToString, ht.getProperty, ok_bind, text]
  cases hc : child t key with
  | none => rfl
  | some s =>
      have htext : textual (some s) = true := by
        have htext := ht.texts t t.self_mem_subtrees
        rcases hkey with rfl | rfl
        · exact hc ▸ htext.1
        · exact hc ▸ htext.2
      match s with
      | .leaf (.leaf (.prim p)) => rfl
      | .leaf (.leaf (.wrapper p)) => rfl
      | .leaf (.ref a) => cases htext
      | .record .. => cases htext
      | .array .. => cases htext

theorem ReadableAst.objChild {t s : Ast} {key : String} (ht : ReadableAst h t)
    (hs : objChild t key = some s) : ReadableAst h s := by
  rw [AstNode.objChild] at hs
  cases hc : child t key with
  | none => simp [hc] at hs
  | some r =>
      have hmem := child_mem_subtrees hc
      cases r with
      | leaf v =>
          simp only [hc] at hs
          split at hs
          · cases hs
          · rename_i hv
            cases hs
            refine ⟨?_, ?_, ?_, ?_⟩
            · intro s hs
              rw [Tree.subtrees_leaf, List.mem_singleton] at hs
              rw [hs]
              trivial
            · intro s hs
              rw [Tree.subtrees_leaf, List.mem_singleton] at hs
              rw [hs]
              exact ⟨rfl, rfl⟩
            · intro s hs a hsa
              rw [Tree.subtrees_leaf, List.mem_singleton] at hs
              match v with
              | .ref b => exact ht.closed _ hmem b rfl
              | .leaf (.wrapper p) => simp [hsa, valueToObject] at hs
              | .leaf (.prim p) => cases p <;> simp [hsa, valueToObject] at hs
            · match v with
              | .ref b => rfl
              | .leaf (.wrapper p) => rfl
              | .leaf (.prim p) => cases p <;> simp_all [valueToObject, isObject]
      | record a cls fields =>
          simp only [hc, Option.some.injEq] at hs
          subst hs
          exact ⟨ht.holds.subtree hmem, fun r hr => ht.texts r (Tree.subtrees_trans hr hmem),
            ht.closed.subtree hmem, rfl⟩
      | array a elems =>
          simp only [hc, Option.some.injEq] at hs
          subst hs
          exact ⟨ht.holds.subtree hmem, fun r hr => ht.texts r (Tree.subtrees_trans hr hmem),
            ht.closed.subtree hmem, rfl⟩

theorem ReadableAst.ofType {t s : Ast} {type key : String} (ht : ReadableAst h t)
    (hs : ofType type key t = some s) : ReadableAst h s := by
  rw [AstNode.ofType] at hs
  split at hs
  · exact ht.objChild hs
  · cases hs

theorem ReadableAst.val_ne_null {t : Ast} (ht : ReadableAst h t) : t.val ≠ null := by
  intro hv
  have hobj := ht.object
  rw [hv] at hobj
  cases hobj

theorem ReadableAst.getOfType {t : Ast} (ht : ReadableAst h t) (type key : String) :
    getOfType h type key t.val = .ok (valOr null (AstNode.ofType type key t)) := by
  rw [AstObjMng.getOfType, ht.getPropertyToString (Or.inl rfl), ok_bind, AstNode.ofType]
  split
  · rw [ht.getPropertyToObj]
  · rfl

theorem ReadableAst.getExprStmt {t : Ast} (ht : ReadableAst h t) :
    getExprStmt h t.val = .ok (valOr null (exprStmt t)) :=
  ht.getOfType _ _

theorem ReadableAst.getMetaExecStmt {t : Ast} (ht : ReadableAst h t) :
    getMetaExecStmt h t.val = .ok (valOr null (metaExecStmt t)) :=
  ht.getOfType _ _

theorem ReadableAst.getMetaQuaziStmt {t : Ast} (ht : ReadableAst h t) :
    getMetaQuaziStmt h t.val = .ok (valOr null (metaQuaziStmt t)) :=
  ht.getOfType _ _

theorem ReadableAst.getUnaryExpr {t : Ast} (ht : ReadableAst h t) :
    getUnaryExpr h t.val = .ok ((AstNode.ofType "UnaryExpression" "argument" t).map
      fun arg => (text t "operator", arg.val)) := by
  rw [AstObjMng.getUnaryExpr, ht.getPropertyToString (Or.inl rfl), ok_bind]
  by_cases htype : equals (text t "type") "UnaryExpression" = true
  · have harg : AstNode.ofType "UnaryExpression" "argument" t =
        AstNode.objChild t "argument" := by
      rw [AstNode.ofType, if_pos htype]
    rw [if_pos htype, ht.getPropertyToString (Or.inr rfl), ok_bind, ht.getPropertyToObj,
      ok_bind, harg]
    cases ho : AstNode.objChild t "argument" with
    | none => rfl
    | some arg => simp [(ht.objChild ho).val_ne_null]
  · rw [if_neg htype, AstNode.ofType, if_neg htype]
    rfl

theorem ReadableAst.getUnaryExprStmt {t : Ast} (ht : ReadableAst h t) :
    getUnaryExprStmt h t.val = .ok ((exprStmt t).bind fun e =>
      (AstNode.ofType "UnaryExpression" "argument" e).map
        fun arg => (text e "operator", arg.val)) := by
  rw [AstObjMng.getUnaryExprStmt, ht.getExprStmt, ok_bind]
  cases he : exprStmt t with
  | none => rfl
  | some e =>
      have hast := ht.ofType he
      rw [valOr_some, if_neg hast.val_ne_null, hast.getUnaryExpr]
      rfl

theorem ReadableAst.getMetaExecExprStmt {t : Ast} (ht : ReadableAst h t) :
    getMetaExecExprStmt h t.val = .ok (valOr null ((exprStmt t).bind metaExecStmt)) := by
  rw [AstObjMng.getMetaExecExprStmt, ht.getExprStmt, ok_bind]
  cases he : exprStmt t with
  | none => rfl
  | some e =>
      have hast := ht.ofType he
      rw [valOr_some, if_neg hast.val_ne_null, hast.getMetaExecStmt]
      rfl

theorem inlineArg_eq (t : Ast) :
    inlineArg ((AstNode.ofType "UnaryExpression" "argument" t).map
      fun arg => (text t "operator", arg.val)) = (metaInline t).map Tree.val := by
  rw [metaInline, inlineArg]
  cases AstNode.ofType "UnaryExpression" "argument" t with
  | none => simp
  | some arg => by_cases hop : equals (text t "operator") ".!" <;> simp [hop]

theorem inlineArg_bind_eq (e : Option Ast) :
    inlineArg (e.bind fun t => (AstNode.ofType "UnaryExpression" "argument" t).map
      fun arg => (text t "operator", arg.val)) = (e.bind metaInline).map Tree.val := by
  cases e with
  | none => rfl
  | some t => exact inlineArg_eq t

/-- `wrapped` tells whether the node is the expression of its parent; only of
a tag need it be known. -/
theorem ReadableAst.findTag {t : Ast} (ht : ReadableAst h t) {slotOf : Option Value}
    {wrapped : Bool}
    (hw : (AstNode.metaInline t).isSome ∨ (metaExecStmt t).isSome →
      skipped h slotOf t.val = .ok wrapped) :
    findTag h slotOf t.val = .ok (found wrapped t) := by
  rw [StagedNodeIterator.findTag, ht.getUnaryExpr, ok_bind, inlineArg_eq, found]
  cases hi : AstNode.metaInline t with
  | some arg =>
      rw [hi] at hw
      simp only [Option.map_some, hw (Or.inl rfl), ok_bind]
      cases wrapped <;> rfl
  | none =>
      simp only [Option.map_none, ht.getUnaryExprStmt, ok_bind, inlineArg_bind_eq]
      cases hs : (exprStmt t).bind AstNode.metaInline with
      | some arg => rfl
      | none =>
          simp only [Option.map_none, ht.getMetaExecStmt, ok_bind]
          cases he : metaExecStmt t with
          | some body =>
              rw [he] at hw
              have hbody := (ht.ofType he).val_ne_null
              simp only [valOr_some, ne_eq, hbody, not_false_eq_true, if_true,
                hw (Or.inr rfl), ok_bind]
              cases wrapped <;> rfl
          | none =>
              simp only [valOr_none, ne_eq, not_true_eq_false, if_false,
                ht.getMetaExecExprStmt, ok_bind]
              cases hb : (exprStmt t).bind metaExecStmt with
              | none => rfl
              | some body =>
                  obtain ⟨e, hes, hbs⟩ := Option.bind_eq_some_iff.mp hb
                  have hbody := ((ht.ofType hes).ofType hbs).val_ne_null
                  simp only [valOr_some, hbody, not_false_eq_true, if_true, pure_eq_ok]

/-! ### Runs of the recording visitor -/

/-- The visitor that writes down what it is told. -/
def recorder : StagedNodeVisitor (List Report) where
  inlineNodeEnter info expr depth :=
    modify fun s => (s.1, s.2 ++ [⟨false, info, expr, depth⟩])
  execNodeEnter info stmt depth :=
    modify fun s => (s.1, s.2 ++ [⟨true, info, stmt, depth⟩])

/-- What the walk comes to: an unquoted tag, or an element of an array that is null. -/
inductive WalkEvent where
  | tag (t : Tag)
  | hole

/-- What the walk stops with: an error that is reported, or a null pointer that is followed. -/
def WalkEvent.fault : WalkEvent → Option Fault
  | .tag t => if t.Misplaced then some .jsFalse else none
  | .hole => some .crash

def WalkEvent.tag? : WalkEvent → Option Tag
  | .tag t => some t
  | .hole => none

/-- The first event that the walk does not get past. -/
def firstFault (events : List WalkEvent) : Option Fault := events.findSome? WalkEvent.fault

def reportsIn (events : List WalkEvent) : List Report :=
  (events.filterMap WalkEvent.tag?).map Tag.report

theorem firstFault_append (es es' : List WalkEvent) :
    firstFault (es ++ es') = (firstFault es).or (firstFault es') :=
  List.findSome?_append

theorem reportsIn_append (es es' : List WalkEvent) :
    reportsIn (es ++ es') = reportsIn es ++ reportsIn es' := by
  simp [reportsIn]

/-- The call fails after it has reported some of the tags. -/
def Fails (h : JSHeap) (x : JsM (Counters × List Report) Unit) (c : Counters)
    (acc : List Report) (events : List WalkEvent) (e : Fault) : Prop :=
  ∃ s l, x (h, c, acc) = .error e s ∧ s.2.2 = acc ++ l ∧ l ⊆ reportsIn events

/-- From counters `c` the call reports the tags and ends with counters `c'`; it fails
instead at the first event that it does not get past. -/
def Runs (h : JSHeap) (x : JsM (Counters × List Report) Unit) (c c' : Counters)
    (events : List WalkEvent) : Prop :=
  ∀ acc, match firstFault events with
    | some e => Fails h x c acc events e
    | none => x (h, c, acc) = .ok () (h, c', acc ++ reportsIn events)

theorem runs_of_ok {x : JsM (Counters × List Report) Unit} {c c' : Counters}
    (hx : ∀ acc, x (h, c, acc) = .ok () (h, c', acc)) : Runs h x c c' [] := by
  intro acc
  rw [show firstFault [] = none from rfl]
  simpa [reportsIn] using hx acc

theorem runs_pure (c : Counters) : Runs h (pure ()) c c [] := runs_of_ok fun _ => rfl

theorem Runs.bind {x y : JsM (Counters × List Report) Unit} {c₁ c₂ c₃ : Counters}
    {es es' : List WalkEvent} (hx : Runs h x c₁ c₂ es) (hy : Runs h y c₂ c₃ es') :
    Runs h (x >>= fun _ => y) c₁ c₃ (es ++ es') := by
  intro acc
  have hx' := hx acc
  have hy' := hy (acc ++ reportsIn es)
  rw [firstFault_append]
  cases hes : firstFault es with
  | some e =>
      rw [hes] at hx'
      obtain ⟨s, l, hs, hl, hsub⟩ := hx'
      refine ⟨s, l, bind_error hs _, hl, fun r hr => ?_⟩
      rw [reportsIn_append]
      exact List.mem_append_left _ (hsub hr)
  | none =>
      rw [hes] at hx'
      cases hes' : firstFault es' with
      | some e =>
          rw [hes'] at hy'
          obtain ⟨s, l, hs, hl, hsub⟩ := hy'
          refine ⟨s, reportsIn es ++ l, (bind_ok hx' _).trans hs,
            hl.trans (List.append_assoc _ _ _), ?_⟩
          rw [reportsIn_append]
          exact List.append_subset.mpr ⟨List.subset_append_left _ _,
            fun r hr => List.mem_append_right _ (hsub hr)⟩
      | none =>
          rw [hes'] at hy'
          simp only [Option.or_none]
          rw [bind_ok hx', hy', reportsIn_append, List.append_assoc]

/-- The counters while the unquoted tags `above` are being visited. -/
structure Unquoted (c : Counters) (above : List Bool) : Prop where
  quazis : c.quazis = 0
  inlines : c.inlines = above.count false
  execs : c.execs = above.count true

def Counters.pushInline (c : Counters) (node : Value) : Counters :=
  { c with inlines := c.inlines + 1, inlineNodes := node :: c.inlineNodes }

def Counters.pushExec (c : Counters) (node : Value) : Counters :=
  { c with execs := c.execs + 1, execNodes := node :: c.execNodes }

def Counters.quote (c : Counters) : Counters := { c with quazis := c.quazis + 1 }

/-- The counters with which the children of a node are visited. -/
def Counters.inside (c : Counters) (node : Value) : Found → Counters
  | .nothing => c
  | .inline _ _ => c.pushInline node
  | .exec _ _ => c.pushExec node

/-- The tag that a node is. -/
def ownTag (node : Value) (info : Bool → NodeInfo) (above : List Bool) : Found → List Tag
  | .nothing => []
  | .inline isExpr arg => [⟨false, node, info isExpr, arg, above⟩]
  | .exec isExpr body => [⟨true, node, info isExpr, body, above⟩]

/-- The tags around the children of a node. -/
def aboveInside (above : List Bool) : Found → List Bool
  | .nothing => above
  | .inline _ _ => false :: above
  | .exec _ _ => true :: above

theorem Unquoted.inside {c : Counters} {above : List Bool} (hc : Unquoted c above)
    (node : Value) (f : Found) : Unquoted (c.inside node f) (aboveInside above f) := by
  cases f with
  | nothing => exact hc
  | inline isExpr arg =>
      exact ⟨hc.quazis, by simp [Counters.inside, Counters.pushInline, aboveInside, hc.inlines],
        by simp [Counters.inside, Counters.pushInline, aboveInside, hc.execs]⟩
  | exec isExpr body =>
      exact ⟨hc.quazis, by simp [Counters.inside, Counters.pushExec, aboveInside, hc.inlines],
        by simp [Counters.inside, Counters.pushExec, aboveInside, hc.execs]⟩

/-- Entering a quasi. -/
theorem ReadableAst.enter_quazi {t : Ast} (ht : ReadableAst h t) {slotOf : Option Value}
    {info : Bool → NodeInfo} {c : Counters} (hq : (metaQuaziStmt t).isSome = true) :
    Runs h (enter recorder slotOf info t.val) c c.quote [] := by
  obtain ⟨body, hbody⟩ := Option.isSome_iff_exists.mp hq
  refine runs_of_ok fun acc => ?_
  have hread : (reads (fun h => AstObjMng.getMetaQuaziStmt h t.val) :
      JsM (Counters × List Report) Value) (h, c, acc) = .ok body.val (h, c, acc) :=
    reads_ok (by rw [ht.getMetaQuaziStmt, hbody, valOr_some])
  rw [enter, bind_ok hread, if_pos (ht.ofType hbody).val_ne_null]
  simp [update, Counters.quote, modify_apply]

theorem ReadableAst.reads_quazi_none {t : Ast} (ht : ReadableAst h t) (hq : metaQuaziStmt t = none)
    (c : Counters) (acc : List Report) :
    (reads (fun h => AstObjMng.getMetaQuaziStmt h t.val) :
      JsM (Counters × List Report) Value) (h, c, acc) = .ok null (h, c, acc) :=
  reads_ok (by rw [ht.getMetaQuaziStmt, hq, valOr_none])

/-- Entering a node inside a quasi. -/
theorem ReadableAst.enter_quoted {t : Ast} (ht : ReadableAst h t) {slotOf : Option Value}
    {info : Bool → NodeInfo} {c : Counters} (hq : metaQuaziStmt t = none)
    (hc : c.quazis ≠ 0) : Runs h (enter recorder slotOf info t.val) c c [] := by
  refine runs_of_ok fun acc => ?_
  rw [enter, bind_ok (ht.reads_quazi_none hq c acc)]
  simp [hc, bind_apply]

/-- Entering an unquoted node. -/
theorem ReadableAst.enter_unquoted {t : Ast} (ht : ReadableAst h t) {slotOf : Option Value}
    (info : Bool → NodeInfo) {wrapped : Bool} {c : Counters} {above : List Bool}
    (hq : metaQuaziStmt t = none) (hc : Unquoted c above)
    (hw : (AstNode.metaInline t).isSome ∨ (metaExecStmt t).isSome →
      skipped h slotOf t.val = .ok wrapped) :
    Runs h (enter recorder slotOf info t.val) c (c.inside t.val (found wrapped t))
      ((ownTag t.val info above (found wrapped t)).map .tag) := by
  intro acc
  have hfind : (reads (fun h => StagedNodeIterator.findTag h slotOf t.val) :
      JsM (Counters × List Report) Found) (h, c, acc) = .ok (found wrapped t) (h, c, acc) :=
    reads_ok (ht.findTag hw)
  have hdepth : above.count false + above.count true = above.length :=
    List.count_false_add_count_true above
  rw [enter, bind_ok (ht.reads_quazi_none hq c acc)]
  cases hf : found wrapped t with
  | nothing =>
      simp [hc.quazis, bind_apply, hfind, hf, ownTag, Counters.inside, firstFault, reportsIn]
  | inline isExpr arg =>
      have hreport : c.inlines + 1 + c.execs = above.length + 1 := by
        rw [hc.inlines, hc.execs]
        omega
      simp [hc.quazis, bind_apply, hfind, hf, ownTag, Counters.inside, Counters.pushInline,
        firstFault, WalkEvent.fault, reportsIn, WalkEvent.tag?, Tag.Misplaced, Tag.report,
          Tag.depth,
        update, call, ignoreResult, recorder, modify_apply, hreport]
  | exec isExpr body =>
      have hown : firstFault ((ownTag t.val info above (.exec isExpr body)).map .tag) =
          if false ∈ above then some .jsFalse else none := by
        simp [firstFault, ownTag, WalkEvent.fault, Tag.Misplaced]
      rw [hown]
      by_cases hin : false ∈ above
      · have hpos : 0 < c.inlines := hc.inlines ▸ List.count_pos_iff.mpr hin
        rw [if_pos hin]
        refine ⟨(h, c, acc), [], ?_, by simp, List.nil_subset _⟩
        rw [bind_ok (ht.reads_quazi_none hq c acc)]
        simp [hc.quazis, bind_apply, hfind, hf, hpos]
      · have hzero : c.inlines = 0 := hc.inlines ▸ List.count_eq_zero.mpr hin
        have hreport : c.execs + 1 = above.length + 1 := by
          rw [hc.execs, ← hdepth, ← hc.inlines, hzero, Nat.zero_add]
        rw [if_neg hin]
        simp [hc.quazis, bind_apply, hfind, hf, ownTag, Counters.inside, Counters.pushExec,
          reportsIn, WalkEvent.tag?, Tag.report, Tag.depth, update, call, ignoreResult, recorder,
          modify_apply, hreport, hzero]

/-- A hole is no node that can be entered. -/
theorem enter_hole (slotOf : Option Value) (info : Bool → NodeInfo) (c c' : Counters)
    (f : JsM (Counters × List Report) Unit) :
    Runs h (enter recorder slotOf info null >>= fun _ => f) c c' [.hole] :=
  fun acc => ⟨(h, c, acc), [], rfl, by simp, List.nil_subset _⟩

/-! ### Leaving a node -/

/-- The stacks hold cells, none of which is among the labels. -/
structure Clear (c : Counters) (labels : List ℕ) : Prop where
  refs : ∀ v, v ∈ c.inlineNodes ∨ v ∈ c.execNodes → ∃ a, v = .ref a
  inlineNodes : ∀ a ∈ labels, Val.ref a ∉ c.inlineNodes
  execNodes : ∀ a ∈ labels, Val.ref a ∉ c.execNodes

theorem Clear.mono {c : Counters} {labels labels' : List ℕ} (hc : Clear c labels)
    (hsub : labels' ⊆ labels) : Clear c labels' :=
  ⟨hc.refs, fun a ha => hc.inlineNodes a (hsub ha), fun a ha => hc.execNodes a (hsub ha)⟩

theorem Clear.quote {c : Counters} {labels : List ℕ} (hc : Clear c labels) :
    Clear c.quote labels :=
  ⟨hc.refs, hc.inlineNodes, hc.execNodes⟩

theorem Clear.inside {c : Counters} {labels : List ℕ} (hc : Clear c labels) {a : ℕ}
    (ha : a ∉ labels) (f : Found) : Clear (c.inside (.ref a) f) labels := by
  have hne : ∀ b ∈ labels, Val.ref b ≠ (Val.ref a : Value) := by
    intro b hb heq
    cases heq
    exact ha hb
  cases f with
  | nothing => exact hc
  | inline isExpr arg =>
      refine ⟨?_, ?_, hc.execNodes⟩
      · rintro v (hv | hv)
        · rcases List.mem_cons.mp hv with rfl | hv
          · exact ⟨a, rfl⟩
          · exact hc.refs v (Or.inl hv)
        · exact hc.refs v (Or.inr hv)
      · intro b hb hmem
        rcases List.mem_cons.mp hmem with heq | hmem
        · exact hne b hb heq
        · exact hc.inlineNodes b hb hmem
  | exec isExpr body =>
      refine ⟨?_, hc.inlineNodes, ?_⟩
      · rintro v (hv | hv)
        · exact hc.refs v (Or.inl hv)
        · rcases List.mem_cons.mp hv with rfl | hv
          · exact ⟨a, rfl⟩
          · exact hc.refs v (Or.inr hv)
      · intro b hb hmem
        rcases List.mem_cons.mp hmem with heq | hmem
        · exact hne b hb heq
        · exact hc.execNodes b hb hmem

theorem ReadableAst.exit_quazi {t : Ast} (ht : ReadableAst h t) {key : String} {parent : Value}
    {c : Counters} (hq : (metaQuaziStmt t).isSome = true) :
    Runs h (singleObjExit key t.val parent) c.quote c [] := by
  obtain ⟨body, hbody⟩ := Option.isSome_iff_exists.mp hq
  refine runs_of_ok fun acc => ?_
  have hread : (reads (fun h => AstObjMng.getMetaQuaziStmt h t.val) :
      JsM (Counters × List Report) Value) (h, c.quote, acc) =
        .ok body.val (h, c.quote, acc) :=
    reads_ok (by rw [ht.getMetaQuaziStmt, hbody, valOr_some])
  rw [singleObjExit, bind_ok hread, if_pos (ht.ofType hbody).val_ne_null]
  simp [update, Counters.quote, modify_apply]

theorem ReadableAst.exit_node {t : Ast} (ht : ReadableAst h t) (key : String) (parent : Value)
    (c : Counters) (hq : metaQuaziStmt t = none) :
    Runs h (singleObjExit key t.val parent) c (leave t.val c) [] := by
  refine runs_of_ok fun acc => ?_
  rw [singleObjExit, bind_ok (ht.reads_quazi_none hq c acc)]
  simp [update, modify_apply]

/-- Leaving a node undoes what entering it did. -/
theorem leave_inside {c : Counters} {node : Value} (hi : node ∉ c.inlineNodes)
    (he : node ∉ c.execNodes) (f : Found) : leave node (c.inside node f) = c := by
  have hihead : c.inlineNodes.head? ≠ some node := fun hh =>
    hi (List.mem_of_head? hh)
  have hehead : c.execNodes.head? ≠ some node := fun hh =>
    he (List.mem_of_head? hh)
  cases f with
  | nothing => simp [Counters.inside, leave, hihead, hehead]
  | inline isExpr arg => simp [Counters.inside, Counters.pushInline, leave]
  | exec isExpr body => simp [Counters.inside, Counters.pushExec, leave, hihead]

/-! ### The walk over a tree -/

/-- A node is entered, walked over and left. -/
def visitNode (fuel : ℕ) (slotOf : Option Value) (info : Bool → NodeInfo) (key : String)
    (parent node : Value) : JsM (Counters × List Report) Unit := do
  enter recorder slotOf info node
  iterateObject (applier recorder) fuel node
  singleObjExit key node parent

/-- Comes to the given events, those without tags around them being of a quasi. -/
def Visits (h : JSHeap) (x : JsM (Counters × List Report) Unit) (labels : List ℕ)
    (events : Option (List Bool) → List WalkEvent) : Prop :=
  ∀ c, Clear c labels → (c.quazis ≠ 0 → Runs h x c c (events none)) ∧
    ∀ above, Unquoted c above → Runs h x c c (events (some above))

theorem Visits.pure (labels : List ℕ) : Visits h (pure ()) labels fun _ => [] :=
  fun c _ => ⟨fun _ => runs_pure c, fun _ _ => runs_pure c⟩

theorem Visits.bind {x y : JsM (Counters × List Report) Unit} {labels labels' : List ℕ}
    {events events' : Option (List Bool) → List WalkEvent} (hx : Visits h x labels events)
    (hy : Visits h y labels' events') :
    Visits h (x >>= fun _ => y) (labels ++ labels')
      fun above => events above ++ events' above := by
  intro c hc
  have hcx := hx c (hc.mono (List.subset_append_left _ _))
  have hcy := hy c (hc.mono (List.subset_append_right _ _))
  exact ⟨fun hq => (hcx.1 hq).bind (hcy.1 hq),
    fun above habove => (hcx.2 above habove).bind (hcy.2 above habove)⟩

/-- The events of a node from those below it. -/
def nodeEvents (wrapped : Bool) (info : Bool → NodeInfo) (t : Ast)
    (below : Option (List Bool) → List WalkEvent) : Option (List Bool) → List WalkEvent
  | none => below none
  | some above =>
      if (metaQuaziStmt t).isSome then below none
      else (ownTag t.val info above (found wrapped t)).map .tag ++
        below (some (aboveInside above (found wrapped t)))

/-- Visiting a node, given the walk over its children. -/
theorem ReadableAst.visits_node {t : Ast} (ht : ReadableAst h t) {fuel : ℕ} {slotOf : Option Value}
    (info : Bool → NodeInfo) (key : String) (parent : Value) (wrapped : Bool)
    {labels : List ℕ} {below : Option (List Bool) → List WalkEvent}
    (hown : ∀ c, Clear c t.labels → t.val ∉ c.inlineNodes ∧ t.val ∉ c.execNodes)
    (hinside : ∀ c, Clear c t.labels → Clear c labels ∧
      Clear (c.inside t.val (found wrapped t)) labels)
    (hw : (AstNode.metaInline t).isSome ∨ (metaExecStmt t).isSome →
      skipped h slotOf t.val = .ok wrapped)
    (hbody : Visits h (iterateObject (applier recorder) fuel t.val) labels below) :
    Visits h (visitNode fuel slotOf info key parent t.val) t.labels
      (nodeEvents wrapped info t below) := by
  intro c hc
  obtain ⟨hclear, hclearIn⟩ := hinside c hc
  obtain ⟨hi, he⟩ := hown c hc
  cases hq : metaQuaziStmt t with
  | some body =>
      have hsome : (metaQuaziStmt t).isSome = true := by rw [hq]; rfl
      have hquoted : Runs h (visitNode fuel slotOf info key parent t.val) c c (below none) := by
        have hin := (hbody c.quote hclear.quote).1 (Nat.succ_ne_zero _)
        have hrun : Runs h (visitNode fuel slotOf info key parent t.val) c c
            ([] ++ (below none ++ [])) :=
          (ht.enter_quazi hsome).bind (hin.bind (ht.exit_quazi hsome))
        rwa [List.nil_append, List.append_nil] at hrun
      refine ⟨fun _ => hquoted, fun above _ => ?_⟩
      rw [show nodeEvents wrapped info t below (some above) = below none from if_pos hsome]
      exact hquoted
  | none =>
      have hnone : ¬ (metaQuaziStmt t).isSome = true := by simp [hq]
      refine ⟨fun hquoted => ?_, fun above habove => ?_⟩
      · have hexit := ht.exit_node key parent c hq
        rw [show leave t.val c = c from leave_inside hi he .nothing] at hexit
        have hrun : Runs h (visitNode fuel slotOf info key parent t.val) c c
            ([] ++ (below none ++ [])) :=
          (ht.enter_quoted hq hquoted).bind (((hbody c hclear).1 hquoted).bind hexit)
        rwa [List.nil_append, List.append_nil] at hrun
      · have hin := (hbody _ hclearIn).2 _
          (habove.inside t.val (found wrapped t))
        have hexit := ht.exit_node key parent (c.inside t.val (found wrapped t)) hq
        rw [leave_inside hi he] at hexit
        have hrun := (ht.enter_unquoted info hq habove hw).bind (hin.bind hexit)
        rw [List.append_nil] at hrun
        rw [show nodeEvents wrapped info t below (some above) = _ from if_neg hnone]
        exact hrun

/-- Only states with this heap matter. -/
theorem Visits.congr {x y : JsM (Counters × List Report) Unit} {labels : List ℕ}
    {events : Option (List Bool) → List WalkEvent} (hxy : ∀ s, x (h, s) = y (h, s))
    (hy : Visits h y labels events) : Visits h x labels events := by
  intro c hc
  have hruns : ∀ {es}, Runs h y c c es → Runs h x c c es := by
    intro es hr acc
    have hacc := hr acc
    unfold Fails at hacc ⊢
    rwa [hxy]
  exact ⟨fun hq => hruns ((hy c hc).1 hq), fun above habove => hruns ((hy c hc).2 above habove)⟩

theorem Visits.events_congr {x : JsM (Counters × List Report) Unit} {labels : List ℕ}
    {events events' : Option (List Bool) → List WalkEvent}
    (hevents : ∀ above, events above = events' above)
    (hx : Visits h x labels events) : Visits h x labels events' := by
  rwa [← funext hevents]

theorem Visits.mono {x : JsM (Counters × List Report) Unit} {labels labels' : List ℕ}
    {events : Option (List Bool) → List WalkEvent} (hsub : labels ⊆ labels')
    (hx : Visits h x labels events) : Visits h x labels' events :=
  fun c hc => hx c (hc.mono hsub)

/-- The loop over properties. -/
theorem visits_props {iterate : Value → JsM (Counters × List Report) Unit} {obj : Value}
    (events : String × Ast → Option (List Bool) → List WalkEvent) {l : List (String × Ast)}
    (hl : ∀ f ∈ l, Visits h
      (AstObjIterator.iterateObjectValue (applier recorder) iterate obj f.1 f.2.val)
      f.2.labels (events f)) :
    Visits h (AstObjIterator.iterateProps (applier recorder) iterate obj
        (l.map fun f => (f.1, f.2.val)))
      (l.flatMap fun f => f.2.labels) fun above => (l.map fun f => events f above).flatten := by
  induction l with
  | nil => exact Visits.pure _
  | cons f l ih =>
      rw [List.forall_mem_cons] at hl
      exact hl.1.bind (ih hl.2)

/-- The loop over elements. -/
theorem visits_elems {fuel : ℕ} {obj parent : Value}
    (events : Ast → Option (List Bool) → List WalkEvent) {l : List Ast} (i : ℕ)
    (hl : ∀ e ∈ l, Visits h (visitNode fuel none
        (fun isExpr => ⟨isExpr, obj, .inl (valueToObject e.val)⟩) "" parent
          (valueToObject e.val)) e.labels (events e)) :
    Visits h (AstObjIterator.iterateElems (applier recorder)
        (iterateObject (applier recorder) fuel) obj parent i (l.map Tree.val))
      (l.flatMap Tree.labels) fun above => (l.map fun e => events e above).flatten := by
  induction l generalizing i with
  | nil => exact Visits.pure _
  | cons e l ih =>
      rw [List.forall_mem_cons] at hl
      have hrun := hl.1.bind (ih (i + 1) hl.2)
      refine Visits.congr (fun s => ?_) hrun
      simp only [visitNode, bind_assoc]
      rfl

/-- A hole is not got past. -/
theorem visits_hole (fuel : ℕ) (slotOf : Option Value) (info : Bool → NodeInfo) (key : String)
    (parent : Value) (labels : List ℕ) :
    Visits h (visitNode fuel slotOf info key parent null) labels fun _ => [.hole] :=
  fun c _ => ⟨fun _ => enter_hole slotOf info c c _, fun _ _ => enter_hole slotOf info c c _⟩

/-- Only nodes are tags. -/
theorem not_tag {t : Ast} (ht : ∀ a cls fields, t ≠ .record a cls fields) :
    ¬ ((AstNode.metaInline t).isSome ∨ (metaExecStmt t).isSome) := by
  have hof : ∀ type key, AstNode.ofType type key t = none := by
    intro type key
    cases t with
    | record a cls fields => exact absurd rfl (ht a cls fields)
    | leaf v => simp [AstNode.ofType, AstNode.objChild, child]
    | array a elems => simp [AstNode.ofType, AstNode.objChild, child]
  simp [AstNode.metaInline, metaExecStmt, hof]

theorem isAst_leaf {v : Value} (hv : isObject v = true) (hclosed : ∀ a, v ≠ .ref a) :
    ReadableAst h (.leaf v) := by
  refine ⟨?_, ?_, ?_, hv⟩
  · intro s hs
    rw [Tree.subtrees_leaf, List.mem_singleton] at hs
    rw [hs]
    trivial
  · intro s hs
    rw [Tree.subtrees_leaf, List.mem_singleton] at hs
    rw [hs]
    exact ⟨rfl, rfl⟩
  · intro s hs a hsa
    rw [Tree.subtrees_leaf, List.mem_singleton] at hs
    rw [hs, Tree.leaf.injEq] at hsa
    exact hclosed a hsa

/-- A wrapper object has no tags. -/
theorem visits_wrapper {fuel : ℕ} (hfuel : 0 < fuel) (slotOf : Option Value)
    (info : Bool → NodeInfo) (key : String) (parent : Value) (p : Prim) :
    Visits h (visitNode fuel slotOf info key parent (.leaf (.wrapper p))) []
      fun _ => [] := by
  have hast : ReadableAst h (.leaf (.leaf (.wrapper p))) := isAst_leaf rfl fun a => by simp
  have hbody : Visits h (iterateObject (applier recorder) fuel (.leaf (.wrapper p))) []
      fun _ => [] := by
    obtain ⟨n, rfl⟩ := Nat.exists_eq_succ_of_ne_zero (Nat.ne_of_gt hfuel)
    exact Visits.pure _
  refine hast.visits_node info key parent false ?_ ?_ ?_ hbody
  · intro c hc
    constructor <;>
      · intro hmem
        obtain ⟨a, ha⟩ := hc.refs _ (by tauto)
        cases ha
  · exact fun c hc => ⟨hc, hc⟩
  · exact fun hw => absurd hw (not_tag (by simp))

theorem disjoint_labels {l : List (String × Ast)}
    (hl : (l.flatMap fun f => f.2.labels).Nodup) {f g : String × Ast} (hf : f ∈ l) (hg : g ∈ l)
    (hne : f ≠ g) : List.Disjoint f.2.labels g.2.labels := by
  have hpair := (List.nodup_flatMap.mp hl).2
  have : Std.Symm (Function.onFun List.Disjoint fun f : String × Ast => f.2.labels) :=
    ⟨fun _ _ hd => List.disjoint_symm hd⟩
  exact hpair.forall hf hg hne

theorem lookup_of_mem {β : Type} {fields : List (String × β)}
    (hkeys : (fields.map Prod.fst).Nodup) {f : String × β} (hf : f ∈ fields) :
    fields.lookup f.1 = some f.2 := by
  induction fields with
  | nil => cases hf
  | cons g fields ih =>
      rw [List.map_cons, List.nodup_cons] at hkeys
      obtain ⟨k, x⟩ := g
      rcases List.mem_cons.mp hf with rfl | hf
      · simp
      · have hmem : f.1 ∈ fields.map Prod.fst := List.mem_map_of_mem hf
        have hne : f.1 ≠ k := fun heq => hkeys.1 (heq ▸ hmem)
        rw [List.lookup_cons, beq_false_of_ne hne]
        exact ih hkeys.2 hf

theorem ReadableAst.keys_nodup {a : ℕ} {cls : ObjClass} {fields : List (String × Ast)}
    (ht : ReadableAst h (.record a cls fields)) : (fields.map Prod.fst).Nodup := by
  obtain ⟨hkeys, _⟩ := ht.holds.shows
  rw [List.map_map] at hkeys
  exact hkeys

/-- Of the properties of a statement only `expression` holds its expression. -/
theorem ReadableAst.skipped_field {a : ℕ} {cls : ObjClass} {fields : List (String × Ast)}
    (ht : ReadableAst h (.record a cls fields))
    (hdistinct : (fields.flatMap fun f => f.2.labels).Nodup)
    {f : String × Ast} (hf : f ∈ fields) {b : ℕ} {cls' : ObjClass}
    {fields' : List (String × Ast)} (hrec : f.2 = .record b cls' fields') :
    skipped h (some (.ref a)) f.2.val =
      .ok (equals (text (.record a cls fields) "type") "ExpressionStatement" &&
        f.1 = "expression") := by
  have hval : f.2.val = .ref b := by rw [hrec, Tree.val_record]
  have hb : b ∈ f.2.labels := by simp [hrec]
  have hexpr := ht.getExprStmt
  rw [Tree.val_record] at hexpr
  rw [skipped, hexpr, ok_bind, pure_eq_ok, exprStmt, AstNode.ofType, hval]
  by_cases htype :
      equals (text (.record a cls fields) "type") "ExpressionStatement" = true
  · rw [if_pos htype, htype, Bool.true_and, AstNode.objChild, AstNode.child]
    by_cases hkey : f.1 = "expression"
    · have hlook : fields.lookup "expression" = some (.record b cls' fields') := by
        rw [← hkey, lookup_of_mem ht.keys_nodup hf, hrec]
      simp [hlook, hkey]
    · simp only [hkey, decide_false]
      cases hlook : fields.lookup "expression" with
      | none => simp
      | some e =>
          have hmem := mem_of_lookup hlook
          have hdisj := disjoint_labels hdistinct hf hmem fun heq => hkey (by rw [heq])
          cases e with
          | leaf v =>
              have hclosed := ht.closed _ (Tree.subtrees_of_field hmem
                (Tree.self_mem_subtrees _))
              cases v with
              | ref c => exact absurd rfl (hclosed c)
              | leaf x =>
                  cases x with
                  | wrapper p => simp [valueToObject]
                  | prim p => cases p <;> simp [valueToObject]
          | record c cls'' fields'' =>
              have hne : b ≠ c := fun heq => hdisj hb (by simp [heq])
              simp [hne]
          | array c elems =>
              have hne : b ≠ c := fun heq => hdisj hb (by simp [heq])
              simp [hne]
  · rw [if_neg htype, Bool.eq_false_iff.mpr htype]
    simp

/-! ### The events of a tree -/

mutual

/-- The events of a node that stands at `info`, in the order of the walk. -/
def eventsAt (wrapped : Bool) (info : Bool → NodeInfo) :
    Ast → Option (List Bool) → List WalkEvent
  | .leaf _, _ => []
  | .array a elems, above => eventsElems (.ref a) elems above
  | .record a cls fields, above =>
      let t : Ast := .record a cls fields
      nodeEvents wrapped info t
        (fun above => inWalk true (eventsFields (.ref a)
          (equals (text t "type") "ExpressionStatement") fields above)) above

def eventsFields (parent : Value) (isStmt : Bool) :
    List (String × Ast) → Option (List Bool) → List (List WalkEvent)
  | [], _ => []
  | (key, t) :: rest, above =>
      eventsAt (isStmt && key = "expression") (fun isExpr => ⟨isExpr, parent, .inr key⟩) t above ::
        eventsFields parent isStmt rest above

def eventsElems (array : Value) : List Ast → Option (List Bool) → List WalkEvent
  | [], _ => []
  | t :: rest, above =>
      (if valueToObject t.val = null then [.hole]
        else eventsAt false (fun isExpr => ⟨isExpr, array, .inl t.val⟩) t above) ++
          eventsElems array rest above

end

theorem eventsFields_eq (parent : Value) (isStmt : Bool) (fields : List (String × Ast))
    (above : Option (List Bool)) :
    eventsFields parent isStmt fields above = fields.map fun f =>
      eventsAt (isStmt && f.1 = "expression") (fun isExpr => ⟨isExpr, parent, .inr f.1⟩) f.2
        above := by
  induction fields with
  | nil => rfl
  | cons f fields ih => rw [eventsFields, ih]; rfl

/-- The events of an element of an array. -/
def elemEvents (array : Value) (t : Ast) (above : Option (List Bool)) : List WalkEvent :=
  if valueToObject t.val = null then [.hole]
  else eventsAt false (fun isExpr => ⟨isExpr, array, .inl t.val⟩) t above

theorem eventsElems_eq (array : Value) (elems : List Ast) (above : Option (List Bool)) :
    eventsElems array elems above = elems.flatMap fun t => elemEvents array t above := by
  induction elems with
  | nil => rfl
  | cons t elems ih => rw [eventsElems, ih]; rfl

/-- The events below the properties of a node. -/
def fieldEvents (a : ℕ) (cls : ObjClass) (fields : List (String × Ast))
    (above : Option (List Bool)) : List WalkEvent :=
  inWalk true (fields.map fun f => eventsAt
    (equals (text (.record a cls fields) "type") "ExpressionStatement" &&
      f.1 = "expression") (fun isExpr => ⟨isExpr, .ref a, .inr f.1⟩) f.2 above)

theorem eventsAt_record (wrapped : Bool) (info : Bool → NodeInfo) (a : ℕ) (cls : ObjClass)
    (fields : List (String × Ast)) (above : Option (List Bool)) :
    eventsAt wrapped info (.record a cls fields) above =
      nodeEvents wrapped info (.record a cls fields) (fieldEvents a cls fields) above := by
  have hbelow : (fun above => inWalk true (eventsFields (.ref a)
      (equals (text (.record a cls fields) "type") "ExpressionStatement") fields above)) =
        fieldEvents a cls fields := by
    funext above
    rw [eventsFields_eq, fieldEvents]
  rw [eventsAt, hbelow]

/-- The events below the root of an AST. -/
def eventsOf : Ast → List WalkEvent
  | .record a cls fields => fieldEvents a cls fields (some [])
  | _ => []

/-- The tags of a node from the tags below it. -/
def nodeTags (wrapped : Bool) (info : Bool → NodeInfo) (t : Ast)
    (below : List Bool → List Tag) (above : List Bool) : List Tag :=
  if (metaQuaziStmt t).isSome then []
  else ownTag t.val info above (found wrapped t) ++ below (aboveInside above (found wrapped t))

theorem tagsAt_record (rev : Bool) (above : List Bool) (wrapped : Bool)
    (info : Bool → NodeInfo) (a : ℕ) (cls : ObjClass) (fields : List (String × Ast)) :
    tagsAt rev above wrapped info (.record a cls fields) =
      nodeTags wrapped info (.record a cls fields)
        (fun above => inWalk rev (fields.map fun f => tagsAt rev above
          (equals (text (.record a cls fields) "type") "ExpressionStatement" &&
            f.1 = "expression") (fun isExpr => ⟨isExpr, .ref a, .inr f.1⟩) f.2)) above := by
  rw [tagsAt, nodeTags]
  split
  · rfl
  · cases found wrapped (.record a cls fields) <;> simp [ownTag, aboveInside, tagsFields_eq]

/-- The walk over the properties of a node. -/
theorem ReadableAst.iterateObject_record {a : ℕ} {cls : ObjClass} {fields : List (String × Ast)}
    (ht : ReadableAst h (.record a cls fields)) (fuel : ℕ) (s : Counters × List Report) :
    iterateObject (applier recorder) (fuel + 1) (.ref a) (h, s) =
      AstObjIterator.iterateProps (applier recorder) (iterateObject (applier recorder) fuel)
        (.ref a) (fields.reverse.map fun f => (f.1, f.2.val)) (h, s) := by
  obtain ⟨_, hc⟩ := ht.holds.shows
  simp [iterateObject, bind_apply, hc, List.map_reverse]

theorem iterateObjectValue_object {fuel : ℕ} {parent v : Value} {key : String}
    (hv : isObject v = true) (harr : arrayElems? h v = none) (s : Counters × List Report) :
    AstObjIterator.iterateObjectValue (applier recorder)
        (iterateObject (applier recorder) fuel) parent key v (h, s) =
      visitNode fuel (some parent) (fun isExpr => ⟨isExpr, parent, .inr key⟩) key parent v
        (h, s) := by
  simp only [AstObjIterator.iterateObjectValue, visitNode, hv, if_true, bind_apply, get_apply,
    harr]
  rfl

/-- A property that holds an array is walked element by element. -/
theorem iterateObjectValue_array {fuel : ℕ} {parent : Value} {key : String} {a : ℕ}
    {elems : List Value} (hc : h.cell a = some (.array elems)) (s : Counters × List Report) :
    AstObjIterator.iterateObjectValue (applier recorder)
        (iterateObject (applier recorder) fuel) parent key (.ref a) (h, s) =
      AstObjIterator.iterateElems (applier recorder)
        (iterateObject (applier recorder) fuel) (.ref a) parent 0 elems (h, s) := by
  have hobj : isObject (.ref a) = true := rfl
  have harr : arrayElems? h (.ref a) = some elems := by simp [arrayElems?, hc]
  have hstart : ∀ n, (applier recorder).arrayLoopStart (.ref a) parent n = pure () :=
    fun _ => rfl
  have hend : (applier recorder).arrayLoopEnd (.ref a) parent = pure () := rfl
  simp only [AstObjIterator.iterateObjectValue, hobj, if_true, bind_apply, get_apply, harr,
    hstart, hend, pure_apply]
  cases AstObjIterator.iterateElems _ _ _ _ _ _ _ <;> rfl

/-- The elements of an array are no arrays. -/
def elemsFlat : Ast → Bool
  | .array _ elems => elems.all fun e => match e with
      | .array .. => false
      | _ => true
  | _ => true

/-- An AST that may have holes in its arrays. -/
structure Walkable (h : JSHeap) (t : Ast) : Prop where
  holds : h.Holds t
  texts : Textual t
  flat : ∀ s ∈ t.subtrees, elemsFlat s = true
  closed : t.Closed
  distinct : t.labels.Nodup

theorem Walkable.node {t : Ast} (ht : Walkable h t) (hobject : isObject t.val = true) :
    ReadableAst h t :=
  ⟨ht.holds, ht.texts, ht.closed, hobject⟩

theorem Walkable.field {a : ℕ} {cls : ObjClass} {fields : List (String × Ast)}
    (ht : Walkable h (.record a cls fields)) {f : String × Ast} (hf : f ∈ fields) :
    Walkable h f.2 := by
  have hmem : f.2 ∈ (Tree.record a cls fields : Ast).subtrees :=
    Tree.subtrees_of_field hf f.2.self_mem_subtrees
  have hdistinct := ht.distinct
  rw [Tree.labels_record, List.nodup_cons] at hdistinct
  exact ⟨ht.holds.field hf, fun r hr => ht.texts r (Tree.subtrees_trans hr hmem),
    fun r hr => ht.flat r (Tree.subtrees_trans hr hmem), ht.closed.subtree hmem,
    (List.nodup_flatMap.mp hdistinct.2).1 f hf⟩

theorem Walkable.elem {a : ℕ} {elems : List Ast} (ht : Walkable h (.array a elems)) {e : Ast}
    (he : e ∈ elems) : Walkable h e := by
  have hmem : e ∈ (Tree.array a elems : Ast).subtrees :=
    Tree.subtrees_of_elem he e.self_mem_subtrees
  have hdistinct := ht.distinct
  rw [Tree.labels_array, List.nodup_cons] at hdistinct
  exact ⟨ht.holds.elem he, fun r hr => ht.texts r (Tree.subtrees_trans hr hmem),
    fun r hr => ht.flat r (Tree.subtrees_trans hr hmem), ht.closed.subtree hmem,
    (List.nodup_flatMap.mp hdistinct.2).1 e he⟩

/-- What is shown about every subtree by induction: as a node, in an array or
in a property, and as the value of a property. -/
def WalkedOver (h : JSHeap) (t : Ast) : Prop :=
  Walkable h t →
    (∀ a cls fields, t = .record a cls fields →
      ∀ fuel slotOf info key parent wrapped, t.height < fuel →
        ((AstNode.metaInline t).isSome ∨ (metaExecStmt t).isSome →
          skipped h slotOf t.val = .ok wrapped) →
        Visits h (visitNode fuel slotOf info key parent t.val) t.labels
          (eventsAt wrapped info t)) ∧
    ∀ fuel key parent wrapped, t.height < fuel →
      ((AstNode.metaInline t).isSome ∨ (metaExecStmt t).isSome →
        skipped h (some parent) t.val = .ok wrapped) →
      Visits h (AstObjIterator.iterateObjectValue (applier recorder)
          (iterateObject (applier recorder) fuel) parent key t.val) t.labels
        (eventsAt wrapped (fun isExpr => ⟨isExpr, parent, .inr key⟩) t)

theorem walkedOver_leaf (v : Value) : WalkedOver h (.leaf v) := by
  intro ht
  refine ⟨fun _ _ _ heq => (by cases heq), fun fuel key parent wrapped hfuel _ => ?_⟩
  match v with
  | .ref a => exact absurd rfl (ht.closed _ (Tree.self_mem_subtrees _) a)
  | .leaf (.prim p) => exact Visits.pure _
  | .leaf (.wrapper p) =>
      refine Visits.congr (fun s => iterateObjectValue_object rfl rfl s) ?_
      exact visits_wrapper (Nat.pos_of_ne_zero (by omega)) _ _ _ _ p

theorem visits_fields {a : ℕ} {cls : ObjClass} {fields : List (String × Ast)}
    (ih : ∀ f ∈ fields, WalkedOver h f.2) (ht : Walkable h (.record a cls fields)) {n : ℕ}
    (hn : (Tree.record a cls fields).height ≤ n) :
    Visits h (iterateObject (applier recorder) (n + 1) (.ref a))
      (fields.flatMap fun f => f.2.labels) (fieldEvents a cls fields) := by
  have hdistinct := ht.distinct
  rw [Tree.labels_record, List.nodup_cons] at hdistinct
  refine Visits.congr (fun s => (ht.node rfl).iterateObject_record n s) ?_
  refine Visits.events_congr (fun above => ?_) (Visits.mono ?_ (visits_props
    (fun f => eventsAt (equals (text (.record a cls fields) "type") "ExpressionStatement" &&
        f.1 = "expression") (fun isExpr => ⟨isExpr, .ref a, .inr f.1⟩) f.2) ?_))
  · simp only [fieldEvents, inWalk, if_true, ← List.map_reverse]
  · intro b hb
    obtain ⟨f, hf, hbf⟩ := List.mem_flatMap.mp hb
    exact List.mem_flatMap.mpr ⟨f, List.mem_reverse.mp hf, hbf⟩
  · intro f hf
    rw [List.mem_reverse] at hf
    have hlt : f.2.height < (Tree.record a cls fields).height := Tree.height_field_lt hf
    refine (ih f hf (ht.field hf)).2 n f.1 (.ref a) _ (by omega) ?_
    intro htag
    cases hrec : f.2 with
    | record b cls' fields' =>
        rw [← hrec]
        exact (ht.node rfl).skipped_field hdistinct.2 hf hrec
    | leaf v => exact absurd htag (not_tag (by simp [hrec]))
    | array b elems => exact absurd htag (not_tag (by simp [hrec]))

theorem walkedOver_record {a : ℕ} {cls : ObjClass} {fields : List (String × Ast)}
    (ih : ∀ f ∈ fields, WalkedOver h f.2) : WalkedOver h (.record a cls fields) := by
  intro ht
  have hnodup := ht.distinct
  rw [Tree.labels_record, List.nodup_cons] at hnodup
  obtain ⟨ha, -⟩ := hnodup
  have hsub : (fields.flatMap fun f => f.2.labels) ⊆ (Tree.record a cls fields).labels := by
    simp
  have hnode : ∀ fuel slotOf info key parent wrapped, (Tree.record a cls fields).height < fuel →
      ((AstNode.metaInline (.record a cls fields)).isSome ∨
          (metaExecStmt (.record a cls fields)).isSome →
        skipped h slotOf (.ref a) = .ok wrapped) →
      Visits h (visitNode fuel slotOf info key parent (.ref a))
        (Tree.record a cls fields).labels (eventsAt wrapped info (.record a cls fields)) := by
    intro fuel slotOf info key parent wrapped hfuel hw
    obtain ⟨n, rfl⟩ := Nat.exists_eq_succ_of_ne_zero (Nat.ne_of_gt (Nat.zero_lt_of_lt hfuel))
    refine Visits.events_congr
      (fun above => (eventsAt_record wrapped info a cls fields above).symm) ?_
    refine (ht.node rfl).visits_node info key parent wrapped ?_ ?_ hw
      (visits_fields ih ht (Nat.le_of_lt_succ hfuel))
    · intro c hc
      exact ⟨hc.inlineNodes a (by simp), hc.execNodes a (by simp)⟩
    · intro c hc
      exact ⟨hc.mono hsub, (hc.mono hsub).inside ha _⟩
  refine ⟨?_, ?_⟩
  · intro _ _ _ _ fuel slotOf info key parent wrapped hfuel hw
    exact hnode fuel slotOf info key parent wrapped hfuel hw
  · intro fuel key parent wrapped hfuel hw
    obtain ⟨_, hc⟩ := ht.holds.shows
    refine Visits.congr (fun s => iterateObjectValue_object rfl ?_ s)
      (hnode fuel _ _ key parent wrapped hfuel hw)
    simp [arrayElems?, hc]

/-- An element: a hole, a wrapper object or a node. -/
theorem visits_elem {a : ℕ} {elems : List Ast} (ht : Walkable h (.array a elems)) {e : Ast}
    (he : e ∈ elems) (ih : WalkedOver h e) {fuel : ℕ} (hfuel : e.height < fuel)
    (parent : Value) :
    Visits h (visitNode fuel none (fun isExpr => ⟨isExpr, .ref a, .inl (valueToObject e.val)⟩) ""
      parent (valueToObject e.val)) e.labels (elemEvents (.ref a) e) := by
  cases e with
  | leaf v =>
      by_cases hnull : valueToObject v = null
      · rw [Tree.val_leaf, hnull]
        refine Visits.events_congr (fun above => ?_) (visits_hole fuel none _ _ _ _)
        rw [elemEvents, Tree.val_leaf, if_pos hnull]
      · have hwrap : ∃ p, valueToObject v = .leaf (.wrapper p) := by
          match v with
          | .ref b =>
              exact absurd rfl (ht.closed _ (Tree.subtrees_of_elem he (Tree.self_mem_subtrees _)) b)
          | .leaf (.wrapper p) => exact ⟨p, rfl⟩
          | .leaf (.prim p) => cases p <;> simp_all [valueToObject]
        obtain ⟨p, hp⟩ := hwrap
        refine Visits.events_congr (fun above => ?_)
          (hp ▸ visits_wrapper (Nat.zero_lt_of_lt hfuel) none _ _ _ p)
        rw [elemEvents, Tree.val_leaf, if_neg hnull]
        rfl
  | record b cls fields =>
      refine Visits.events_congr (fun above => ?_)
        ((ih (ht.elem he)).1 b cls fields rfl fuel none _ _ _ false hfuel fun _ => rfl)
      rfl
  | array b elems' =>
      have hflat := List.all_eq_true.mp (ht.flat _ (Tree.self_mem_subtrees _)) _ he
      cases hflat

theorem walkedOver_array {a : ℕ} {elems : List Ast} (ih : ∀ e ∈ elems, WalkedOver h e) :
    WalkedOver h (.array a elems) := by
  intro ht
  refine ⟨fun _ _ _ heq => (by cases heq), fun fuel key parent wrapped hfuel _ => ?_⟩
  have hc : h.cell a = some (.array (elems.map Tree.val)) := ht.holds.shows
  refine Visits.congr (iterateObjectValue_array hc) (Visits.events_congr (fun above => ?_)
    (Visits.mono ?_ (visits_elems (elemEvents (.ref a)) 0 fun e he => ?_)))
  · rw [eventsAt, eventsElems_eq]
    rfl
  · simp
  · have hlt : e.height < (Tree.array a elems : Ast).height := Tree.height_elem_lt he
    exact visits_elem ht he (ih e he) (by omega) parent

/-- Every subtree is walked over as `eventsAt` says. -/
theorem walkedOver (t : Ast) : WalkedOver h t := by
  induction t using Tree.induct with
  | leaf v => exact walkedOver_leaf v
  | record a cls fields ih => exact walkedOver_record ih
  | array a elems ih => exact walkedOver_array ih

/-! ### Trees without holes -/

/-- The walk over the properties of a node, as the tags below them. -/
def fieldTags (rev : Bool) (a : ℕ) (cls : ObjClass) (fields : List (String × Ast))
    (above : List Bool) : List Tag :=
  inWalk rev (fields.map fun f => tagsAt rev above
    (equals (text (.record a cls fields) "type") "ExpressionStatement" &&
      f.1 = "expression") (fun isExpr => ⟨isExpr, .ref a, .inr f.1⟩) f.2)

theorem filterMap_inWalk {β γ δ : Type} {f : δ → List β} {g : δ → List γ} {k : β → Option γ}
    {l : List δ} (hfg : ∀ x ∈ l, (f x).filterMap k = g x) :
    (inWalk true (l.map f)).filterMap k = inWalk true (l.map g) := by
  have hmap : (l.map f).map (List.filterMap k) = l.map g := by
    rw [List.map_map]
    exact List.map_congr_left hfg
  rw [inWalk, inWalk, if_pos rfl, if_pos rfl, List.filterMap_flatten, List.map_reverse, hmap]

/-- Without its holes the walk comes to the tags that are not in a quasi. -/
def TagsOnly (t : Ast) : Prop :=
  ∀ wrapped info above, (eventsAt wrapped info t above).filterMap WalkEvent.tag? =
    above.elim [] fun above => tagsAt true above wrapped info t

theorem fieldEvents_tags {a : ℕ} {cls : ObjClass} {fields : List (String × Ast)}
    (ih : ∀ f ∈ fields, TagsOnly f.2) (above : Option (List Bool)) :
    (fieldEvents a cls fields above).filterMap WalkEvent.tag? =
      above.elim [] (fieldTags true a cls fields) := by
  rw [fieldEvents, filterMap_inWalk fun f hf => ih f hf _ _ above]
  cases above with
  | none =>
      rw [Option.elim_none, inWalk, if_pos rfl]
      refine List.flatten_eq_nil_iff.mpr fun l hl => ?_
      obtain ⟨f, -, rfl⟩ := List.mem_map.mp (List.mem_reverse.mp hl)
      rfl
  | some above => rfl

theorem filterMap_tags (tags : List Tag) :
    (tags.map WalkEvent.tag).filterMap WalkEvent.tag? = tags := by
  rw [List.filterMap_map]
  exact List.filterMap_some

theorem tagsOnly_record {a : ℕ} {cls : ObjClass} {fields : List (String × Ast)}
    (ih : ∀ f ∈ fields, TagsOnly f.2) : TagsOnly (.record a cls fields) := by
  intro wrapped info above
  rw [eventsAt_record]
  cases above with
  | none => exact fieldEvents_tags ih none
  | some above =>
      rw [Option.elim_some, tagsAt_record, nodeEvents, nodeTags]
      split
      · exact fieldEvents_tags ih none
      · rw [List.filterMap_append, filterMap_tags, fieldEvents_tags ih]
        rfl

theorem tagsOnly_array {a : ℕ} {elems : List Ast} (ih : ∀ e ∈ elems, TagsOnly e) :
    TagsOnly (.array a elems) := by
  intro wrapped info above
  have helem : ∀ e ∈ elems, (elemEvents (.ref a) e above).filterMap WalkEvent.tag? =
      above.elim [] fun above =>
        tagsAt true above false (fun isExpr => ⟨isExpr, .ref a, .inl e.val⟩) e := by
    intro e he
    rw [elemEvents]
    split
    · rename_i hnull
      cases e with
      | leaf v => cases above <;> rfl
      | record b cls fields => cases hnull
      | array b elems' => cases hnull
    · exact ih e he _ _ above
  rw [eventsAt, eventsElems_eq, List.filterMap_flatMap, List.flatMap_congr helem]
  cases above with
  | none => simp
  | some above => rw [Option.elim_some, tagsAt, tagsElems_eq]; rfl

theorem tagsOnly (t : Ast) : TagsOnly t := by
  induction t using Tree.induct with
  | leaf v => exact fun _ _ above => by cases above <;> rfl
  | record a cls fields ih => exact tagsOnly_record ih
  | array a elems ih => exact tagsOnly_array ih

/-- An array of the AST has a hole. -/
def HasHole (t : Ast) : Prop :=
  ∃ a elems, (.array a elems : Ast) ∈ t.subtrees ∧ ∃ e ∈ elems, valueToObject e.val = null

theorem HasHole.of_subtree {s t : Ast} (hs : s ∈ t.subtrees) (hhole : HasHole s) : HasHole t := by
  obtain ⟨a, elems, harray, he⟩ := hhole
  exact ⟨a, elems, Tree.subtrees_trans harray hs, he⟩

theorem mem_inWalk {β : Type} {x : β} {l : List (List β)} (hx : x ∈ inWalk true l) :
    ∃ m ∈ l, x ∈ m := by
  rw [inWalk, if_pos rfl] at hx
  obtain ⟨m, hm, hxm⟩ := List.mem_flatten.mp hx
  exact ⟨m, List.mem_reverse.mp hm, hxm⟩

theorem hole_fieldEvents {a : ℕ} {cls : ObjClass} {fields : List (String × Ast)}
    (ih : ∀ f ∈ fields, ∀ wrapped info above, .hole ∈ eventsAt wrapped info f.2 above → HasHole f.2)
    {above : Option (List Bool)} (hhole : .hole ∈ fieldEvents a cls fields above) :
    HasHole (.record a cls fields) := by
  obtain ⟨m, hm, hhole⟩ := mem_inWalk hhole
  obtain ⟨f, hf, rfl⟩ := List.mem_map.mp hm
  exact .of_subtree (Tree.subtrees_of_field hf f.2.self_mem_subtrees) (ih f hf _ _ _ hhole)

/-- The holes that the walk comes to are holes. -/
theorem hole_eventsAt (t : Ast) : ∀ wrapped info above,
    .hole ∈ eventsAt wrapped info t above → HasHole t := by
  induction t using Tree.induct with
  | leaf v => exact fun _ _ _ hhole => by simp [eventsAt] at hhole
  | record a cls fields ih =>
      intro wrapped info above hhole
      rw [eventsAt_record] at hhole
      cases above with
      | none => exact hole_fieldEvents ih hhole
      | some above =>
          rw [nodeEvents] at hhole
          split at hhole
          · exact hole_fieldEvents ih hhole
          · rcases List.mem_append.mp hhole with hhole | hhole
            · obtain ⟨tag, -, htag⟩ := List.mem_map.mp hhole
              cases htag
            · exact hole_fieldEvents ih hhole
  | array a elems ih =>
      intro wrapped info above hhole
      rw [eventsAt, eventsElems_eq] at hhole
      obtain ⟨e, he, hhole⟩ := List.mem_flatMap.mp hhole
      rw [elemEvents] at hhole
      split at hhole
      · rename_i hnull
        exact ⟨a, elems, Tree.self_mem_subtrees _, e, he, hnull⟩
      · exact .of_subtree (Tree.subtrees_of_elem he e.self_mem_subtrees) (ih e he _ _ _ hhole)

/-! ### The order of the walk aside -/

theorem fieldTags_false (a : ℕ) (cls : ObjClass) (fields : List (String × Ast))
    (above : List Bool) :
    fieldTags false a cls fields above = fields.flatMap fun f => tagsAt false above
      (equals (text (.record a cls fields) "type") "ExpressionStatement" &&
        f.1 = "expression") (fun isExpr => ⟨isExpr, .ref a, .inr f.1⟩) f.2 := by
  rw [fieldTags, inWalk, List.flatMap_def]
  rfl

theorem fieldTags_perm {a : ℕ} {cls : ObjClass} {fields : List (String × Ast)}
    (ih : ∀ f ∈ fields, ∀ above wrapped info,
      (tagsAt true above wrapped info f.2).Perm (tagsAt false above wrapped info f.2))
    (above : List Bool) :
    (fieldTags true a cls fields above).Perm (fieldTags false a cls fields above) := by
  rw [fieldTags_false, fieldTags]
  refine (inWalk_perm _).trans ?_
  rw [inWalk]
  simp only [Bool.false_eq_true, if_false]
  rw [← List.flatMap_def]
  exact List.Perm.flatMap_left _ fun f hf => ih f hf _ _ _

/-- The walk changes the order of the tags only. -/
theorem tagsAt_perm (t : Ast) : ∀ above wrapped info,
    (tagsAt true above wrapped info t).Perm (tagsAt false above wrapped info t) := by
  induction t using Tree.induct with
  | leaf v => exact fun _ _ _ => List.Perm.refl _
  | record a cls fields ih =>
      intro above wrapped info
      rw [tagsAt_record, tagsAt_record, nodeTags, nodeTags]
      split
      · exact List.Perm.refl _
      · exact (fieldTags_perm ih _).append_left _
  | array a elems ih =>
      intro above wrapped info
      rw [tagsAt, tagsAt, tagsElems_eq, tagsElems_eq]
      exact List.Perm.flatMap_left _ fun e he => ih e he _ _ _

theorem sublist_flatMap {α β : Type} {f g : α → List β} {l : List α}
    (hfg : ∀ x ∈ l, (f x).Sublist (g x)) : (l.flatMap f).Sublist (l.flatMap g) := by
  induction l with
  | nil => exact List.Sublist.refl _
  | cons x l ih =>
      rw [List.forall_mem_cons] at hfg
      exact hfg.1.append (ih hfg.2)

/-- The tags are found at different cells of the tree. -/
theorem tagsAt_nodes (t : Ast) : ∀ above wrapped info,
    ((tagsAt false above wrapped info t).map Tag.node).Sublist (t.labels.map Val.ref) := by
  induction t using Tree.induct with
  | leaf v => exact fun _ _ _ => List.Sublist.refl _
  | record a cls fields ih =>
      intro above wrapped info
      have hfields : ∀ above, ((fieldTags false a cls fields above).map Tag.node).Sublist
          ((fields.flatMap fun f => f.2.labels).map Val.ref) := by
        intro above
        rw [fieldTags_false, List.map_flatMap, List.map_flatMap]
        exact sublist_flatMap fun f hf => ih f hf _ _ _
      rw [tagsAt_record, nodeTags, Tree.labels_record, List.map_cons]
      split
      · exact List.nil_sublist _
      · cases found wrapped (.record a cls fields) with
        | nothing => exact (hfields above).cons _
        | inline isExpr arg => exact (hfields (false :: above)).cons_cons _
        | exec isExpr body => exact (hfields (true :: above)).cons_cons _
  | array a elems ih =>
      intro above wrapped info
      rw [tagsAt, tagsElems_eq, List.map_flatMap, Tree.labels_array, List.map_cons,
        List.map_flatMap]
      exact (sublist_flatMap fun e he => ih e he _ _ _).cons _

theorem tagsBelow_record (rev : Bool) (a : ℕ) (cls : ObjClass) (fields : List (String × Ast)) :
    tagsBelow rev (.record a cls fields) = fieldTags rev a cls fields [] := by
  rw [tagsBelow, tagsFields_eq]
  rfl

theorem tagsBelow_perm (t : Ast) : (tagsBelow true t).Perm (tagsOf t) := by
  cases t with
  | leaf v => exact List.Perm.refl _
  | array a elems => exact List.Perm.refl _
  | record a cls fields =>
      rw [tagsOf, tagsBelow_record, tagsBelow_record]
      exact fieldTags_perm (fun f _ => tagsAt_perm f.2) []

theorem tagsOf_nodes (t : Ast) : ((tagsOf t).map Tag.node).Sublist (t.labels.map Val.ref) := by
  cases t with
  | leaf v => exact List.Sublist.refl _
  | array a elems => exact List.nil_sublist _
  | record a cls fields =>
      rw [tagsOf, tagsBelow_record, fieldTags_false, List.map_flatMap, Tree.labels_record,
        List.map_cons,
        List.map_flatMap]
      exact (sublist_flatMap fun f _ => tagsAt_nodes f.2 _ _ _).cons _

/-! ### A full run -/

theorem clear_start (labels : List ℕ) : Clear start labels :=
  ⟨fun _ hv => absurd hv (by simp [start]), fun _ _ => by simp [start],
    fun _ _ => by simp [start]⟩

theorem unquoted_start : Unquoted start [] := ⟨rfl, rfl, rfl⟩

/-- A run over an AST that may have holes reports the tags in the order of the walk, and
fails at the first event that it does not get past. -/
theorem iterateStagedNodes_events {t : Ast} (ht : Walkable h t)
    (hprogram : text t "type" = js "Program") {fuel : ℕ} (hfuel : t.height < fuel) :
    match firstFault (eventsOf t) with
    | some e => ∃ s, iterateStagedNodes recorder fuel t.val h [] = .error e s ∧
        s.2.2 ⊆ reportsIn (eventsOf t)
    | none => iterateStagedNodes recorder fuel t.val h [] =
        .ok () (h, start, reportsIn (eventsOf t)) := by
  cases t with
  | leaf v => cases hprogram
  | array a elems => cases hprogram
  | record a cls fields =>
      obtain ⟨n, rfl⟩ := Nat.exists_eq_succ_of_ne_zero (Nat.ne_of_gt (Nat.zero_lt_of_lt hfuel))
      have hrun := (visits_fields (fun f _ => walkedOver f.2) ht
        (Nat.le_of_lt_succ hfuel) start (clear_start _)).2 [] unquoted_start []
      rw [List.nil_append] at hrun
      rw [eventsOf]
      cases hfault : firstFault (fieldEvents a cls fields (some [])) with
      | some e =>
          rw [hfault] at hrun
          obtain ⟨s, l, hs, hl, hsub⟩ := hrun
          rw [List.nil_append] at hl
          exact ⟨s, hs, hl ▸ hsub⟩
      | none =>
          rw [hfault] at hrun
          exact hrun

theorem walkable_of_ast {t : Ast} (ht : IsAst h t) (hdistinct : t.labels.Nodup) :
    Walkable h t := by
  refine ⟨ht.holds, ht.node.texts, fun s hs => ?_, ht.closed, hdistinct⟩
  have helems := (ht.regular s hs).2.2
  cases s with
  | leaf v => rfl
  | record a cls fields => rfl
  | array a elems =>
      refine List.all_eq_true.mpr fun e he => ?_
      have helem := List.all_eq_true.mp helems e he
      cases e with
      | leaf v => rfl
      | record b cls fields => rfl
      | array b elems' => cases helem

theorem not_hasHole_of_regular {t : Ast} (hreg : Regular t) : ¬ HasHole t := by
  rintro ⟨a, elems, harray, e, he, hnull⟩
  have helem := List.all_eq_true.mp (hreg _ harray).2.2 e he
  cases e with
  | leaf v => exact of_decide_eq_true helem hnull
  | record b cls fields => cases hnull
  | array b elems' => cases hnull

theorem tag?_eventsOf (t : Ast) :
    (eventsOf t).filterMap WalkEvent.tag? = tagsBelow true t := by
  cases t with
  | leaf v => rfl
  | array a elems => rfl
  | record a cls fields =>
      rw [eventsOf, tagsBelow_record]
      exact fieldEvents_tags (fun f _ => tagsOnly f.2) (some [])

theorem hole_eventsOf {t : Ast} (hhole : .hole ∈ eventsOf t) : HasHole t := by
  cases t with
  | leaf v => cases hhole
  | array a elems => cases hhole
  | record a cls fields => exact hole_fieldEvents (fun f _ => hole_eventsAt f.2) hhole

theorem map_tag_of_not_hole {events : List WalkEvent} (hhole : .hole ∉ events) :
    (events.filterMap WalkEvent.tag?).map .tag = events := by
  induction events with
  | nil => rfl
  | cons e events ih =>
      rw [List.mem_cons, not_or] at hhole
      cases e with
      | tag t =>
          rw [List.filterMap_cons]
          exact congrArg _ (ih hhole.2)
      | hole => exact absurd rfl hhole.1

theorem eventsOf_tags {t : Ast} (hreg : Regular t) :
    eventsOf t = (tagsBelow true t).map .tag := by
  rw [← tag?_eventsOf]
  exact (map_tag_of_not_hole fun hhole => not_hasHole_of_regular hreg (hole_eventsOf hhole)).symm

theorem firstFault_tags (tags : List Tag) :
    firstFault (tags.map .tag) =
      if ∃ tag ∈ tags, tag.Misplaced then some .jsFalse else none := by
  induction tags with
  | nil => simp [firstFault]
  | cons tag tags ih =>
      rw [firstFault] at ih
      by_cases htag : tag.Misplaced
      · simp [firstFault, WalkEvent.fault, htag]
      · simp [firstFault, WalkEvent.fault, htag, ih]

theorem reportsIn_tags (tags : List Tag) : reportsIn (tags.map .tag) = tags.map Tag.report := by
  rw [reportsIn, filterMap_tags]

/-- The reports of a run come in the order of the walk. -/
theorem iterateStagedNodes_run {t : Ast} (ht : IsAst h t)
    (hprogram : text t "type" = js "Program") (hdistinct : t.labels.Nodup) {fuel : ℕ}
    (hfuel : t.height < fuel) :
    if ∃ tag ∈ tagsOf t, tag.Misplaced then
      ∃ s, iterateStagedNodes recorder fuel t.val h [] = .error .jsFalse s ∧
        s.2.2 ⊆ (tagsOf t).map Tag.report
    else
      iterateStagedNodes recorder fuel t.val h [] =
        .ok () (h, start, (tagsBelow true t).map Tag.report) := by
  have hrun := iterateStagedNodes_events (walkable_of_ast ht hdistinct) hprogram hfuel
  have hperm := tagsBelow_perm t
  simp only [eventsOf_tags ht.regular, firstFault_tags, reportsIn_tags, hperm.mem_iff] at hrun
  split
  · rename_i hbad
    rw [if_pos hbad] at hrun
    obtain ⟨s, hs, hsub⟩ := hrun
    exact ⟨s, hs, fun r hr => ((hperm.map _).mem_iff).mp (hsub hr)⟩
  · rename_i hgood
    rw [if_neg hgood] at hrun
    exact hrun

theorem tagsOf_nodup {t : Ast} (hdistinct : t.labels.Nodup) :
    ((tagsOf t).map Tag.node).Nodup :=
  (tagsOf_nodes t).nodup (hdistinct.map fun a b hab => by cases hab; rfl)

/-- A run over a tree reports every unquoted tag once, with the number of
unquoted tags from it outwards as its depth, and leaves all counters at zero;
it fails exactly when a `.&` tag is below a `.!` tag. -/
theorem iterateStagedNodes_reports {t : Ast} (ht : IsAst h t)
    (hprogram : text t "type" = js "Program") (hdistinct : t.labels.Nodup) {fuel : ℕ}
    (hfuel : t.height < fuel) :
    ((∃ s, iterateStagedNodes recorder fuel t.val h [] = .error .jsFalse s) ↔
      ∃ tag ∈ tagsOf t, tag.Misplaced) ∧
    ((¬ ∃ tag ∈ tagsOf t, tag.Misplaced) →
      ∃ reports, iterateStagedNodes recorder fuel t.val h [] = .ok () (h, start, reports) ∧
        reports.Perm ((tagsOf t).map Tag.report)) ∧
    ((tagsOf t).map Tag.node).Nodup := by
  have hrun := iterateStagedNodes_run ht hprogram hdistinct hfuel
  by_cases hbad : ∃ tag ∈ tagsOf t, tag.Misplaced
  · rw [if_pos hbad] at hrun
    obtain ⟨s, hs, -⟩ := hrun
    exact ⟨⟨fun _ => hbad, fun _ => ⟨s, hs⟩⟩, fun hgood => absurd hbad hgood,
      tagsOf_nodup hdistinct⟩
  · rw [if_neg hbad] at hrun
    refine ⟨⟨fun ⟨s, hs⟩ => ?_, fun hb => absurd hb hbad⟩,
      fun _ => ⟨_, hrun, (tagsBelow_perm t).map _⟩, tagsOf_nodup hdistinct⟩
    have hclash := hs.symm.trans hrun
    cases hclash

/-- The AST of `.!x; .& .&y;`. -/
def nestedTags : Ast :=
  program 0 1 [exprStatement 2 (inlineTag 3 (identifier 4 "x")),
    exprStatement 5 (execTag 6 (exprStatement 7 (execTag 8 (exprStatement 9
      (identifier 10 "y")))))]

/-- Its three tags are reported, the inner `.&` with depth two. -/
theorem iterateStagedNodes_nestedTags :
    (tagsOf nestedTags).map Tag.depth = [1, 1, 2] ∧
      ∃ reports, iterateStagedNodes recorder 20 nestedTags.val (.ofTrees [nestedTags]) [] =
          .ok () (.ofTrees [nestedTags], start, reports) ∧
        reports.Perm ((tagsOf nestedTags).map Tag.report) :=
  ⟨by decide, (iterateStagedNodes_reports
    ⟨by decide, by decide, by decide, by decide⟩ (by decide) (by decide) (by decide)).2.1
    (by decide)⟩

end MetaMonkey.Staging
