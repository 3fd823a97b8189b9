import MetaMonkey.ObjectGraph.Substitute
import MetaMonkey.Staging.SourceOrder
import MetaMonkey.Staging.WellFormed

/-!
The merges of a stage. They go through places that were saved before the first of them, and
search arrays that others have moved elements of; on an AST that is a tree each of them is
an edit of a place that the others leave where it is.
-/

namespace MetaMonkey.Staging

open ObjectGraph Js AstNode StagedNodeIterator

variable {h h₀ h' : JSHeap} {t p : Ast} {σ : Type}

/-! ### The places of tags -/

/-- The tag stands at the edge. -/
structure Tag.At (tag : Tag) (e : Tree.Edge String Leaf ObjClass) : Prop where
  parent : tag.info.parent = .ref e.parent
  place : tag.info.value = e.place
  child : e.child.val = tag.node

/-- A tag is the node itself, or is in a place below it. -/
theorem at_of_mem_tagsAt (rev : Bool) (s : Ast) : ∀ above wrapped info,
    ∀ tag ∈ tagsAt rev above wrapped info s,
      (∃ isExpr, tag.info = info isExpr ∧ tag.node = s.val) ∨ ∃ e ∈ s.edges, tag.At e := by
  induction s using Tree.induct with
  | leaf v => exact fun _ _ _ _ htag => absurd htag (by simp [tagsAt])
  | record a cls fields ih =>
      intro above wrapped info tag htag
      rcases mem_tagsAt_record htag with htag | htag
      · left
        cases hf : found wrapped (.record a cls fields) with
        | nothing =>
            rw [hf] at htag
            cases htag
        | inline isExpr arg =>
            rw [hf, ownTag, List.mem_singleton] at htag
            exact ⟨isExpr, by rw [htag], by rw [htag, Tree.val_record]⟩
        | exec isExpr body =>
            rw [hf, ownTag, List.mem_singleton] at htag
            exact ⟨isExpr, by rw [htag], by rw [htag, Tree.val_record]⟩
      · right
        obtain ⟨f, hf, htag⟩ := mem_fieldTags.mp htag
        have hsub : f.2 ∈ (Tree.record a cls fields).subtrees :=
          Tree.subtrees_of_field hf f.2.self_mem_subtrees
        rcases ih f hf _ _ _ tag htag with ⟨isExpr, hinfo, hnode⟩ | ⟨e, he, hat⟩
        · refine ⟨⟨a, .inr f.1, f.2⟩, ?_, ?_⟩
          · rw [Tree.edges_record]
            exact List.mem_append_left _ (List.mem_map_of_mem hf)
          · exact ⟨by rw [hinfo], by rw [hinfo], hnode.symm⟩
        · exact ⟨e, Tree.edges_subtree hsub he, hat⟩
  | array a elems ih =>
      intro above wrapped info tag htag
      right
      obtain ⟨c, hc, htag⟩ := mem_tagsAt_array.mp htag
      have hsub : c ∈ (Tree.array a elems : Ast).subtrees :=
        Tree.subtrees_of_elem hc c.self_mem_subtrees
      rcases ih c hc _ _ _ tag htag with ⟨isExpr, hinfo, hnode⟩ | ⟨e, he, hat⟩
      · refine ⟨⟨a, .inl c.val, c⟩, ?_, ?_⟩
        · rw [Tree.edges_array]
          exact List.mem_append_left _ (List.mem_map_of_mem hc)
        · exact ⟨by rw [hinfo], by rw [hinfo], hnode.symm⟩
      · exact ⟨e, Tree.edges_subtree hsub he, hat⟩

theorem exists_at {tag : Tag} (htag : tag ∈ tagsOf t) : ∃ e, NodeEdge t e ∧ tag.At e := by
  cases t with
  | leaf v => cases htag
  | array a elems => cases htag
  | record a cls fields =>
      rw [tagsOf, tagsBelow_record] at htag
      obtain ⟨f, hf, htag⟩ := mem_fieldTags.mp htag
      obtain ⟨⟨b, -, hnode⟩, -⟩ := place_of_mem_tagsAt _ _ _ _ _ tag htag
      have hsub : f.2 ∈ (Tree.record a cls fields).subtrees :=
        Tree.subtrees_of_field hf f.2.self_mem_subtrees
      rcases at_of_mem_tagsAt _ _ _ _ _ tag htag with ⟨isExpr, hinfo, hval⟩ | ⟨e, he, hat⟩
      · refine ⟨⟨a, .inr f.1, f.2⟩, ⟨?_, b, hval.symm.trans hnode⟩, ?_⟩
        · rw [Tree.edges_record]
          exact List.mem_append_left _ (List.mem_map_of_mem hf)
        · exact ⟨by rw [hinfo], by rw [hinfo], hval.symm⟩
      · exact ⟨e, ⟨Tree.edges_subtree hsub he, b, hat.child.trans hnode⟩, hat⟩

/-! ### What a value has for a tag -/

/-- The statements of a Program. -/
def statements (p : Ast) : List Ast :=
  match objChild p "body" with
  | some (.array _ stmts) => stmts
  | _ => []

/-- What is put in the place of a tag: the statements, or for an expression what the
statements have for one. -/
def spliced (isExpr : Bool) (p : Ast) : List Ast :=
  if isExpr then (statements p).map fun stmt => (objChild stmt "expression").getD (.leaf null)
  else statements p

theorem mem_subtrees_of_objChild {s : Ast} {key : String} (hs : objChild t key = some s) :
    s ∈ t.subtrees ∨ ∃ v, s = .leaf (valueToObject v) ∧ Tree.leaf v ∈ t.subtrees := by
  rw [objChild] at hs
  cases hc : child t key with
  | none => simp [hc] at hs
  | some r =>
      have hmem := child_mem_subtrees hc
      cases r with
      | leaf v =>
          simp only [hc] at hs
          split_ifs at hs
          cases hs
          exact Or.inr ⟨v, rfl, hmem⟩
      | record a cls fields =>
          simp only [hc, Option.some.injEq] at hs
          exact Or.inl (hs ▸ hmem)
      | array a elems =>
          simp only [hc, Option.some.injEq] at hs
          exact Or.inl (hs ▸ hmem)

theorem statements_eq {b : ℕ} {stmts : List Ast}
    (hbody : objChild p "body" = some (.array b stmts)) : statements p = stmts := by
  rw [statements, hbody]

theorem array_mem_subtrees {b : ℕ} {stmts : List Ast}
    (hbody : objChild p "body" = some (.array b stmts)) : Tree.array b stmts ∈ p.subtrees := by
  rcases mem_subtrees_of_objChild hbody with hmem | ⟨v, heq, -⟩
  · exact hmem
  · cases heq

/-- The body of a Program whose statements were read. -/
theorem ReadableAst.getBodyFromProgram (hp : ReadableAst h p) {vs : List Value}
    (hread : AstObjMng.getBodyFromProgram h p.val = .ok vs) :
    ∃ b stmts, AstNode.objChild p "body" = some (.array b stmts) ∧ vs = stmts.map Tree.val := by
  rw [AstObjMng.getBodyFromProgram, if_neg hp.val_ne_null, hp.getPropertyToString (Or.inl rfl)]
    at hread
  simp only [ok_bind] at hread
  cases htype : equals (text p "type") "Program" with
  | false =>
      rw [htype] at hread
      cases hread
  | true =>
      simp only [htype, hp.getPropertyToObj, ok_bind] at hread
      cases hbody : AstNode.objChild p "body" with
      | none =>
          rw [hbody] at hread
          cases hread
      | some s =>
          have hs := hp.objChild hbody
          simp only [hbody, valOr_some, if_neg hs.val_ne_null, pure_eq_ok] at hread
          cases s with
          | leaf v =>
              cases v with
              | ref a => exact absurd rfl (hs.closed _ (Tree.self_mem_subtrees _) a)
              | leaf x => cases hread
          | record a cls fields =>
              obtain ⟨_, hc⟩ := hs.holds.shows
              simp only [Tree.val_record, arrayElems?, hc] at hread
              cases hread
          | array a stmts =>
              have hc : h.cell a = some (.array (stmts.map Tree.val)) := hs.holds.shows
              simp only [Tree.val_array, arrayElems?, hc] at hread
              cases hread
              exact ⟨a, stmts, rfl, rfl⟩

/-- The expression of an element of the body. -/
theorem ReadableAst.wrapStmt (hp : ReadableAst h p) {stmt : Ast} (hstmt : stmt ∈ p.subtrees)
    {v : Value} (hread : AstObjMng.wrapStmt h stmt.val = .ok v) :
    v = valOr null (AstNode.objChild stmt "expression") := by
  rw [AstObjMng.wrapStmt] at hread
  cases stmt with
  | leaf w =>
      cases w with
      | ref b => exact absurd rfl (hp.closed _ hstmt b)
      | leaf x =>
          cases x with
          | wrapper q =>
              cases hread
              rfl
          | prim q => cases q <;> cases hread <;> rfl
  | record b cls fields =>
      have hnode : ReadableAst h (.record b cls fields) := ⟨hp.holds.subtree hstmt,
        fun r hr => hp.texts r (Tree.subtrees_trans hr hstmt), hp.closed.subtree hstmt, rfl⟩
      exact (Except.ok.inj ((hnode.getPropertyToObj _).symm.trans hread)).symm
  | array b elems =>
      have hc : h.cell b = some (.array (elems.map Tree.val)) :=
        (hp.holds.subtree hstmt).shows
      have hprop : Js.getProperty h (.ref b) "expression" = .ok undefined := by
        simp [Js.getProperty, hc]
      change Js.getPropertyToObj h (.ref b) "expression" = _ at hread
      rw [Js.getPropertyToObj, hprop] at hread
      cases hread
      rfl

theorem except_bind_eq_ok {α β : Type} {x : Except Fault α} {f : α → Except Fault β} {b : β}
    (hrun : x >>= f = .ok b) : ∃ a, x = .ok a ∧ f a = .ok b := by
  cases x with
  | error e => cases hrun
  | ok a => exact ⟨a, rfl, hrun⟩

theorem map_of_mapM_ok {α β : Type} {f : α → Except Fault β} {g : α → β} {l : List α}
    {bs : List β} (hf : ∀ x ∈ l, ∀ b, f x = .ok b → b = g x) (hrun : l.mapM f = .ok bs) :
    bs = l.map g := by
  induction l generalizing bs with
  | nil =>
      cases hrun
      rfl
  | cons x l ih =>
      rw [List.forall_mem_cons] at hf
      rw [List.mapM_cons] at hrun
      obtain ⟨b, hb, hrun⟩ := except_bind_eq_ok hrun
      obtain ⟨bs', hbs, hrun⟩ := except_bind_eq_ok hrun
      cases hrun
      rw [List.map_cons, hf.1 b hb, ih hf.2 hbs]

/-- The values that are merged for a Program. -/
theorem ReadableAst.getStmtsFromAstObj (hp : ReadableAst h p) {isExpr : Bool} {vs : List Value}
    (hread : AstObjMng.getStmtsFromAstObj h (!isExpr) p.val [] = .ok vs) :
    vs = (spliced isExpr p).map Tree.val := by
  rw [AstObjMng.getStmtsFromAstObj] at hread
  obtain ⟨stmtVals, hprogram, hread⟩ := except_bind_eq_ok hread
  obtain ⟨b, stmts, hbody, rfl⟩ := hp.getBodyFromProgram hprogram
  obtain ⟨elems, helems, heq⟩ := except_bind_eq_ok hread
  rw [pure_eq_ok, List.nil_append, Except.ok.injEq] at heq
  subst heq
  rw [spliced, statements_eq hbody]
  rw [List.mapM_map] at helems
  have hmem : ∀ stmt ∈ stmts, stmt ∈ p.subtrees := fun stmt hstmt =>
    Tree.subtrees_trans (Tree.subtrees_of_elem hstmt stmt.self_mem_subtrees)
      (array_mem_subtrees hbody)
  cases isExpr with
  | false =>
      rw [if_neg Bool.false_ne_true]
      refine map_of_mapM_ok (fun stmt _ v hv => ?_) helems
      cases hv
      rfl
  | true =>
      rw [if_pos rfl, List.map_map]
      refine map_of_mapM_ok (fun stmt hstmt v hv => ?_) helems
      refine (hp.wrapStmt (hmem stmt hstmt) hv).trans ?_
      cases hexpr : AstNode.objChild stmt "expression" <;> simp [hexpr]

/-- What is merged comes from the Program, or is null. -/
theorem subtree_of_mem_spliced {isExpr : Bool} {q : Ast} (hq : q ∈ spliced isExpr p) :
    q ∈ p.subtrees ∨ ∃ v, q = .leaf (valueToObject v) ∧ (v = null ∨ Tree.leaf v ∈ p.subtrees) := by
  cases hbody : objChild p "body" with
  | none =>
      cases isExpr <;> simp [spliced, statements, hbody] at hq
  | some s =>
      cases s with
      | leaf v => cases isExpr <;> simp [spliced, statements, hbody] at hq
      | record a cls fields => cases isExpr <;> simp [spliced, statements, hbody] at hq
      | array b stmts =>
          have hmem := array_mem_subtrees hbody
          rw [spliced, statements_eq hbody] at hq
          cases isExpr with
          | false =>
              rw [if_neg Bool.false_ne_true] at hq
              exact Or.inl (Tree.subtrees_trans
                (Tree.subtrees_of_elem hq q.self_mem_subtrees) hmem)
          | true =>
              rw [if_pos rfl] at hq
              obtain ⟨stmt, hstmt, rfl⟩ := List.mem_map.mp hq
              have hsub : stmt ∈ p.subtrees :=
                Tree.subtrees_trans (Tree.subtrees_of_elem hstmt stmt.self_mem_subtrees) hmem
              cases hexpr : objChild stmt "expression" with
              | none => exact Or.inr ⟨null, rfl, Or.inl rfl⟩
              | some e =>
                  rcases mem_subtrees_of_objChild hexpr with he | ⟨v, rfl, hv⟩
                  · exact Or.inl (Tree.subtrees_trans he hsub)
                  · exact Or.inr ⟨v, rfl, Or.inr (Tree.subtrees_trans hv hsub)⟩

theorem labels_sublist {s : Ast} (hs : s ∈ t.subtrees) : s.labels.Sublist t.labels :=
  (Tree.subtrees_sublist hs).filterMap _

theorem labels_objChild {key : String} :
    ((objChild t key).getD (.leaf null)).labels.Sublist t.labels := by
  cases hs : objChild t key with
  | none => exact List.nil_sublist _
  | some s =>
      rcases mem_subtrees_of_objChild hs with hmem | ⟨v, rfl, -⟩
      · exact labels_sublist hmem
      · exact List.nil_sublist _

theorem labels_spliced (isExpr : Bool) (p : Ast) :
    ((spliced isExpr p).flatMap Tree.labels).Sublist p.labels := by
  have hstmts : ((statements p).flatMap Tree.labels).Sublist p.labels := by
    rw [statements]
    split
    · next b stmts hbody =>
        have harray := labels_sublist (array_mem_subtrees hbody)
        rw [Tree.labels_array] at harray
        exact (List.sublist_cons_self _ _).trans harray
    · exact List.nil_sublist _
  rw [spliced]
  split_ifs
  · rw [List.flatMap_map]
    exact (sublist_flatMap fun stmt _ => labels_objChild).trans hstmts
  · exact hstmts

/-- Whatever is merged is a part of the Program, or no node. -/
theorem spliced_cases (hclosed : p.Closed) {isExpr : Bool} {q : Ast} (hq : q ∈ spliced isExpr p) :
    q ∈ p.subtrees ∨ ∃ x, q = .leaf (.leaf x) := by
  have hleaf : ∀ x : Leaf, ∃ y, valueToObject (.leaf x) = .leaf y := by
    rintro (x | x)
    · cases x <;> exact ⟨_, rfl⟩
    · exact ⟨_, rfl⟩
  rcases subtree_of_mem_spliced hq with hmem | ⟨v, rfl, rfl | hv⟩
  · exact Or.inl hmem
  · exact Or.inr ⟨_, rfl⟩
  · cases v with
    | ref a => exact absurd rfl (hclosed _ hv a)
    | leaf x =>
        obtain ⟨y, hy⟩ := hleaf x
        exact Or.inr ⟨y, by rw [hy]⟩

/-! ### One merge -/

theorem holds_leaf (v : Value) : h.Holds (.leaf v) := by
  intro s hs
  rw [Tree.subtrees_leaf, List.mem_singleton] at hs
  rw [hs]
  trivial

section

variable {a : ℕ} {place : Value ⊕ String} {isExpr : Bool} {x x' : σ}

theorem arrayIndexOf_eq {v : Value} {elems : List Value} (hc : h.cell a = some (.array elems))
    (hv : elems.count v = 1) : arrayIndexOf h (.ref a) v = .ok (some (elems.idxOf v)) := by
  have hmem : v ∈ elems := List.count_pos_iff.mp (by omega)
  simp [arrayIndexOf, arrayElems?, hc, hmem]

theorem splice_edited {v : Value} {nodes elems : List Value} (hc : h.cell a = some (.array elems))
    (hv : elems.count v = 1) (hsplice : splice h (.ref a) (elems.idxOf v) nodes = .ok h') :
    h.Edited h' (fun _ => True) [⟨a, .inl v, nodes⟩] ∧ ∀ b, b ≠ a → h'.cell b = h.cell b := by
  simp only [splice, hc, Except.ok.injEq] at hsplice
  subst hsplice
  exact ⟨Heap.edited_splice hc hv, fun b hb => Heap.write_cell_of_ne h _ hb⟩

theorem setProperty_edited {key : String} {node : Value}
    (hplace : h.Place a (.inr key : Value ⊕ String))
    (hset : setProperty h (.ref a) key node = .ok h') :
    h.Edited h' (fun _ => True) [⟨a, .inr key, [node]⟩] ∧
      ∀ b, b ≠ a → h'.cell b = h.cell b := by
  obtain ⟨cls, fields, distinct, hc, hkey⟩ := hplace
  rw [setProperty_record hc] at hset
  cases hset
  exact ⟨Heap.edited_setField hc hkey, fun b hb => Heap.write_cell_of_ne h _ hb⟩

/-- The merge of a value, where it returns, is an edit of the place. -/
theorem mergeNodeToAst_edited (hplace : h.Place a place) {v : Value} (hv : v ≠ null)
    (hrun : mergeNodeToAst ⟨isExpr, .ref a, place⟩ v (h, x) = .ok () (h', x')) :
    ∃ nodes, AstObjMng.getStmtsFromAstObj h (!isExpr) v [] = .ok nodes ∧ x' = x ∧
      (∀ key, place = .inr key → ∃ node, nodes = [node]) ∧
      h.Edited h' (fun _ => True) [⟨a, place, nodes⟩] ∧ ∀ b, b ≠ a → h'.cell b = h.cell b := by
  cases place with
  | inl node =>
      obtain ⟨elems, hc, hcount⟩ := hplace
      rw [mergeNodeToAst] at hrun
      dsimp only at hrun
      rw [bind_ok (reads_ok (arrayIndexOf_eq hc hcount))] at hrun
      dsimp only at hrun
      rw [if_pos hv] at hrun
      obtain ⟨nodes, s, hread, hwrite⟩ := bind_eq_ok.mp hrun
      obtain ⟨hstmts, rfl⟩ := reads_eq_ok.mp hread
      obtain ⟨_, hsplice, heq⟩ := writes_eq_ok.mp hwrite
      cases heq
      exact ⟨nodes, hstmts, rfl, fun key hkey => (Sum.inl_ne_inr hkey).elim,
        splice_edited hc hcount hsplice⟩
  | inr key =>
      rw [mergeNodeToAst] at hrun
      dsimp only at hrun
      rw [if_pos hv] at hrun
      obtain ⟨nodes, s, hread, hwrite⟩ := bind_eq_ok.mp hrun
      obtain ⟨hstmts, rfl⟩ := reads_eq_ok.mp hread
      cases nodes with
      | nil => cases hwrite
      | cons node nodes =>
          cases nodes with
          | cons node' nodes => cases hwrite
          | nil =>
              obtain ⟨_, hset, heq⟩ := writes_eq_ok.mp hwrite
              cases heq
              exact ⟨[node], hstmts, rfl, fun _ _ => ⟨node, rfl⟩, setProperty_edited hplace hset⟩

/-- The `EmptyStatement` that takes the place of an exec. -/
def emptyStatementAt (a : ℕ) : Ast :=
  .record a .plain [("type", .leaf (string (js "EmptyStatement"))), ("loc", .leaf null)]

@[simp] theorem labels_emptyStatementAt (a : ℕ) : (emptyStatementAt a).labels = [a] := rfl

theorem holds_emptyStatementAt (hc : h.cell a = some emptyStatement) :
    h.Holds (emptyStatementAt a) := by
  intro s hs
  simp only [emptyStatementAt, Tree.subtrees_record, List.flatMap_cons, List.flatMap_nil,
    Tree.subtrees_leaf, List.append_nil, List.cons_append, List.nil_append, List.mem_cons,
    List.not_mem_nil, or_false] at hs
  rcases hs with rfl | rfl | rfl
  · exact ⟨_, hc⟩
  · trivial
  · trivial

/-- What takes the place of an exec: nothing in an array, and in a property null or an
`EmptyStatement`. -/
inductive Cut : NodeInfo → List Ast → Prop where
  | element (isExpr : Bool) (parent node : Value) : Cut ⟨isExpr, parent, .inl node⟩ []
  | expression (parent : Value) (key : String) : Cut ⟨true, parent, .inr key⟩ [.leaf null]
  | statement (parent : Value) (key : String) (a : ℕ) :
      Cut ⟨false, parent, .inr key⟩ [emptyStatementAt a]

/-- The merge of no value is an edit of the place, and may make one object. -/
theorem mergeNodeToAst_cut (hplace : h.Place a place)
    (hrun : mergeNodeToAst ⟨isExpr, .ref a, place⟩ null (h, x) = .ok () (h', x')) :
    ∃ cut, Cut ⟨isExpr, .ref a, place⟩ cut ∧ x' = x ∧
      h.Edited h' (fun _ => True) [⟨a, place, cut.map Tree.val⟩] ∧
      (∀ b c, b ≠ a → h.cell b = some c → h'.cell b = some c) ∧
      ∀ q ∈ cut, h'.Holds q ∧ ∀ b ∈ q.labels, h.cell b = none := by
  cases place with
  | inl node =>
      obtain ⟨elems, hc, hcount⟩ := hplace
      rw [mergeNodeToAst] at hrun
      dsimp only at hrun
      rw [bind_ok (reads_ok (arrayIndexOf_eq hc hcount))] at hrun
      dsimp only at hrun
      rw [if_neg (not_not_intro rfl), bind_ok (pure_apply [] (h, x))] at hrun
      obtain ⟨_, hsplice, heq⟩ := writes_eq_ok.mp hrun
      cases heq
      obtain ⟨hedited, hframe⟩ := splice_edited hc hcount hsplice
      exact ⟨[], .element _ _ _, rfl, hedited, fun b c hb hcell => (hframe b hb).trans hcell,
        fun q hq => absurd hq List.not_mem_nil⟩
  | inr key =>
      cases isExpr with
      | true =>
          rw [mergeNodeToAst_cut_expr] at hrun
          obtain ⟨_, hset, heq⟩ := writes_eq_ok.mp hrun
          cases heq
          obtain ⟨hedited, hframe⟩ := setProperty_edited hplace hset
          refine ⟨[.leaf null], .expression _ _, rfl, hedited,
            fun b c hb hcell => (hframe b hb).trans hcell, fun q hq => ?_⟩
          rw [List.mem_singleton.mp hq]
          exact ⟨holds_leaf null, fun b hb => absurd hb List.not_mem_nil⟩
      | false =>
          rw [mergeNodeToAst_cut_stmt] at hrun
          obtain ⟨_, hset, heq⟩ := writes_eq_ok.mp hrun
          cases heq
          obtain ⟨cls, fields, distinct, hc, hkey⟩ := hplace
          have hplace' : (h.alloc emptyStatement).Place a (.inr key : Value ⊕ String) :=
            ⟨cls, fields, distinct, Heap.alloc_cell_of_some _ hc, hkey⟩
          obtain ⟨hedited, hframe⟩ := setProperty_edited hplace' hset
          have hfresh : h.cell h.next = none := h.fresh _ (Nat.le_refl _)
          have hne : h.next ≠ a := by
            rintro rfl
            rw [hfresh] at hc
            cases hc
          refine ⟨[emptyStatementAt h.next], .statement _ _ _, rfl,
            fun b c _ hcell => hedited b c trivial (Heap.alloc_cell_of_some _ hcell),
            fun b c hb hcell => (hframe b hb).trans (Heap.alloc_cell_of_some _ hcell),
            fun q hq => ?_⟩
          rw [List.mem_singleton.mp hq]
          refine ⟨?_, fun b hb => ?_⟩
          · exact holds_emptyStatementAt ((hframe _ hne).trans (Heap.alloc_cell_self h _))
          · rw [labels_emptyStatementAt, List.mem_singleton] at hb
            rw [hb, hfresh]

end

/-! ### Several merges -/

abbrev AstEdge := Tree.Edge String Leaf ObjClass

/-- The heap has been edited at some places of the AST, where it has got trees out of those
that were given, which share nothing with the AST. -/
structure Merged (h₀ h : JSHeap) (t : Ast) (given : List Ast) (rs : List (AstEdge × List Ast)) :
    Prop where
  edges : ∀ r ∈ rs, NodeEdge t r.1
  edited : h₀.Edited h (· ∈ t.labels) (editsAt rs)
  holds : ∀ p ∈ given, h.Holds p
  closed : ∀ p ∈ given, p.Closed
  disjoint : ∀ p ∈ given, List.Disjoint p.labels t.labels
  inserted : ∀ r ∈ rs, ∀ q ∈ r.2, (∃ p ∈ given, q ∈ p.subtrees) ∨ ∃ x, q = .leaf (.leaf x)
  labels : (rs.flatMap fun r => r.2.flatMap Tree.labels).Sublist (given.flatMap Tree.labels)
  single : ∀ r ∈ rs, ∀ key, r.1.place = .inr key → ∃ q, r.2 = [q]

theorem Merged.nil : Merged h₀ h₀ t [] [] where
  edges _ hr := absurd hr List.not_mem_nil
  edited := Heap.edited_nil fun _ _ => rfl
  holds _ hp := absurd hp List.not_mem_nil
  closed _ hp := absurd hp List.not_mem_nil
  disjoint _ hp := absurd hp List.not_mem_nil
  inserted _ hr := absurd hr List.not_mem_nil
  labels := List.Sublist.refl _
  single _ hr := absurd hr List.not_mem_nil

section

variable {given : List Ast} {rs : List (AstEdge × List Ast)} {e : AstEdge}

/-- The AST and the trees that were given are left alone. -/
def LeavesAlone (t : Ast) (given : List Ast) (h h' : JSHeap) : Prop :=
  ∀ a, a ∈ t.labels ∨ a ∈ given.flatMap Tree.labels → h'.cell a = h.cell a

theorem Merged.leavesAlone (hm : Merged h₀ h t given rs) (hsame : LeavesAlone t given h h') :
    Merged h₀ h' t given rs where
  edges := hm.edges
  edited a c ha hc := (hsame a (Or.inl ha)).trans (hm.edited a c ha hc)
  holds p hp := (hm.holds p hp).frame fun a ha =>
    hsame a (Or.inr (List.mem_flatMap.mpr ⟨p, hp, ha⟩))
  closed := hm.closed
  disjoint := hm.disjoint
  inserted := hm.inserted
  labels := hm.labels
  single := hm.single

/-- What was merged is no node of the AST. -/
theorem Merged.val_ne (hm : Merged h₀ h t given rs) (ht : t.Proper)
    {r : AstEdge × List Ast} (hr : r ∈ rs) {q : Ast} (hq : q ∈ r.2) (he : NodeEdge t e) :
    q.val ≠ e.child.val := by
  obtain ⟨hmem, b, hb⟩ := he
  have hlabel := ht.closed.label? (Tree.child_mem_subtrees hmem) hb
  have hbt : b ∈ t.labels := List.mem_filterMap.mpr ⟨_, Tree.child_mem_subtrees hmem, hlabel⟩
  rw [hb]
  intro hval
  rcases hm.inserted r hr q hq with ⟨p, hp, hqp⟩ | ⟨x, rfl⟩
  · have hbp : b ∈ p.labels :=
      List.mem_filterMap.mpr ⟨q, hqp, (hm.closed p hp).label? hqp hval⟩
    exact hm.disjoint p hp hbp hbt
  · cases hval

theorem Merged.apart (hm : Merged h₀ h t given rs) (ht : t.Proper) (he : NodeEdge t e)
    (hne : ∀ r ∈ rs, r.1.child.val ≠ e.child.val) (qs : List Ast) :
    Edit.Apart (editsAt rs) (editsAt [(e, qs)]) := by
  refine apart_editsAt ht hm.edges (fun r hr => ?_) (fun r hr r' hr' => ?_)
    fun r hr q hq e' he' => hm.val_ne ht hr hq he'
  · rw [List.mem_singleton.mp hr]
    exact he
  · rw [List.mem_singleton.mp hr']
    exact hne r hr

/-- The place of a tag is still there after the merges of others. -/
theorem Merged.place (hm : Merged h₀ h t given rs) (hholds : h₀.Holds t) (ht : t.Proper)
    (he : NodeEdge t e) (hne : ∀ r ∈ rs, r.1.child.val ≠ e.child.val) :
    h.Place e.parent e.place :=
  Heap.Place.edited (e := ⟨e.parent, e.place, []⟩) (hholds.place ht he) hm.edited
    (Tree.parent_mem_labels he.1) (hm.apart ht he hne [])

/-- One more merge. -/
theorem Merged.step (hm : Merged h₀ h t given rs) (ht : t.Proper) (he : NodeEdge t e)
    (hne : ∀ r ∈ rs, r.1.child.val ≠ e.child.val) {qs new : List Ast}
    (hedited : h.Edited h' (fun _ => True) [⟨e.parent, e.place, qs.map Tree.val⟩])
    (hkeeps : ∀ b c, b ≠ e.parent → h.cell b = some c → h'.cell b = some c)
    (hholds : ∀ p ∈ new, h'.Holds p) (hclosed : ∀ p ∈ new, p.Closed)
    (hdisjoint : ∀ p ∈ new, List.Disjoint p.labels t.labels)
    (hinserted : ∀ q ∈ qs, (∃ p ∈ new, q ∈ p.subtrees) ∨ ∃ x, q = .leaf (.leaf x))
    (hlabels : (qs.flatMap Tree.labels).Sublist (new.flatMap Tree.labels))
    (hsingle : ∀ key, e.place = .inr key → ∃ q, qs = [q]) :
    Merged h₀ h' t (given ++ new) (rs ++ [(e, qs)]) where
  edges r hr := by
    rcases List.mem_append.mp hr with hr | hr
    · exact hm.edges r hr
    · rw [List.mem_singleton.mp hr]
      exact he
  edited := by
    have happend : editsAt (rs ++ [(e, qs)]) =
        editsAt rs ++ [⟨e.parent, e.place, qs.map Tree.val⟩] := by
      simp [editsAt]
    rw [happend]
    exact hm.edited.trans (hedited.mono fun _ _ => trivial) (hm.apart ht he hne qs)
  holds p hp := by
    rcases List.mem_append.mp hp with hp | hp
    · have hparent : e.parent ∉ p.labels := fun hmem =>
        hm.disjoint p hp hmem (Tree.parent_mem_labels he.1)
      intro s hs
      have hshows := hm.holds p hp s hs
      have hlabel : ∀ a, s.label? = some a → a ≠ e.parent := fun a ha heq =>
        hparent (heq ▸ List.mem_filterMap.mpr ⟨s, hs, ha⟩)
      cases s with
      | leaf v => trivial
      | record a cls fields =>
          obtain ⟨distinct, hc⟩ := hshows
          exact ⟨distinct, hkeeps _ _ (hlabel a rfl) hc⟩
      | array a elems => exact hkeeps _ _ (hlabel a rfl) hshows
    · exact hholds p hp
  closed p hp := (List.mem_append.mp hp).elim (hm.closed p) (hclosed p)
  disjoint p hp := (List.mem_append.mp hp).elim (hm.disjoint p) (hdisjoint p)
  inserted r hr q hq := by
    rcases List.mem_append.mp hr with hr | hr
    · exact (hm.inserted r hr q hq).imp_left <| Exists.imp fun p hp =>
        ⟨List.mem_append_left _ hp.1, hp.2⟩
    · rw [List.mem_singleton.mp hr] at hq
      exact (hinserted q hq).imp_left <| Exists.imp fun p hp =>
        ⟨List.mem_append_right _ hp.1, hp.2⟩
  labels := by
    rw [List.flatMap_append, List.flatMap_append]
    refine hm.labels.append ?_
    simpa using hlabels
  single r hr := by
    rcases List.mem_append.mp hr with hr | hr
    · exact hm.single r hr
    · rw [List.mem_singleton.mp hr]
      exact hsingle

/-- The merge of a Program. -/
theorem Merged.inline (hm : Merged h₀ h t given rs) (hholds : h₀.Holds t) (ht : t.Proper)
    (he : NodeEdge t e) (hne : ∀ r ∈ rs, r.1.child.val ≠ e.child.val) (hp : ReadableAst h p)
    (hdisjoint : List.Disjoint p.labels t.labels) {isExpr : Bool} {x x' : σ}
    (hrun : mergeNodeToAst ⟨isExpr, .ref e.parent, e.place⟩ p.val (h, x) = .ok () (h', x')) :
    x' = x ∧ Merged h₀ h' t (given ++ [p]) (rs ++ [(e, spliced isExpr p)]) := by
  obtain ⟨nodes, hread, rfl, hsingle, hedited, hframe⟩ :=
    mergeNodeToAst_edited (hm.place hholds ht he hne) hp.val_ne_null hrun
  rw [hp.getStmtsFromAstObj hread] at hedited hsingle
  have hparent : e.parent ∉ p.labels := fun hmem =>
    hdisjoint hmem (Tree.parent_mem_labels he.1)
  refine ⟨rfl, hm.step ht he hne hedited (fun b c hb hc => (hframe b hb).trans hc)
    ?_ ?_ ?_ ?_ ?_ ?_⟩
  · rw [List.forall_mem_singleton]
    exact hp.holds.frame fun a ha => hframe a fun heq => hparent (heq ▸ ha)
  · rw [List.forall_mem_singleton]
    exact hp.closed
  · rw [List.forall_mem_singleton]
    exact hdisjoint
  · exact fun q hq => (spliced_cases hp.closed hq).imp_left
      fun hmem => ⟨p, List.mem_singleton_self p, hmem⟩
  · rw [List.flatMap_singleton]
    exact labels_spliced isExpr p
  · intro key hkey
    obtain ⟨node, hnode⟩ := hsingle key hkey
    obtain ⟨q, hq, -⟩ := List.map_eq_singleton_iff.mp hnode
    exact ⟨q, hq⟩

theorem cell_of_holds (hp : h.Holds p) {a : ℕ} (ha : a ∈ p.labels) : h.cell a ≠ none := by
  obtain ⟨s, hs, hsa⟩ := List.mem_filterMap.mp ha
  have hshows := hp s hs
  cases s with
  | leaf v => cases hsa
  | record b cls fields =>
      cases hsa
      obtain ⟨distinct, hc⟩ := hshows
      rw [hc]
      exact Option.some_ne_none _
  | array b elems =>
      cases hsa
      rw [show h.cell a = _ from hshows]
      exact Option.some_ne_none _

theorem Merged.cell_ne (hm : Merged h₀ h t given rs) (hholds : h₀.Holds t) {a : ℕ}
    (ha : a ∈ t.labels) : h.cell a ≠ none := by
  obtain ⟨c, hc⟩ := Option.ne_none_iff_exists'.mp (cell_of_holds hholds ha)
  rw [hm.edited a c ha hc]
  exact Option.some_ne_none _

/-- What takes the place of an exec has no part but itself. -/
theorem Cut.proper {info : NodeInfo} {cut : List Ast} (hcut : Cut info cut) :
    (cut.flatMap Tree.labels).Nodup ∧ ∀ q ∈ cut, q.Closed := by
  cases hcut with
  | element isExpr parent node => exact ⟨List.nodup_nil, fun q hq => absurd hq List.not_mem_nil⟩
  | expression parent key =>
      refine ⟨List.nodup_nil, fun q hq => ?_⟩
      rw [List.mem_singleton.mp hq]
      decide
  | statement parent key a =>
      refine ⟨List.nodup_singleton a, fun q hq s hs b => ?_⟩
      rw [List.mem_singleton.mp hq] at hs
      simp only [emptyStatementAt, Tree.subtrees_record, List.flatMap_cons, List.flatMap_nil,
        Tree.subtrees_leaf, List.append_nil, List.cons_append, List.nil_append, List.mem_cons,
        List.not_mem_nil, or_false] at hs
      rcases hs with rfl | rfl | rfl <;> simp

theorem Cut.single {info : NodeInfo} {cut : List Ast} (hcut : Cut info cut) {key : String}
    (hkey : info.value = .inr key) : ∃ q, cut = [q] := by
  cases hcut with
  | element isExpr parent node => cases hkey
  | expression parent key' => exact ⟨_, rfl⟩
  | statement parent key' a => exact ⟨_, rfl⟩

/-- The merge of no value. -/
theorem Merged.cut (hm : Merged h₀ h t given rs) (hholds : h₀.Holds t) (ht : t.Proper)
    (he : NodeEdge t e) (hne : ∀ r ∈ rs, r.1.child.val ≠ e.child.val) {isExpr : Bool} {x x' : σ}
    (hrun : mergeNodeToAst ⟨isExpr, .ref e.parent, e.place⟩ null (h, x) = .ok () (h', x')) :
    ∃ cut, Cut ⟨isExpr, .ref e.parent, e.place⟩ cut ∧ x' = x ∧
      Merged h₀ h' t (given ++ cut) (rs ++ [(e, cut)]) ∧
      ((given.flatMap Tree.labels).Nodup → ((given ++ cut).flatMap Tree.labels).Nodup) := by
  obtain ⟨cut, hcut, rfl, hedited, hkeeps, hnew⟩ :=
    mergeNodeToAst_cut (hm.place hholds ht he hne) hrun
  obtain ⟨hnodup, hclosed⟩ := hcut.proper
  refine ⟨cut, hcut, rfl, hm.step ht he hne hedited hkeeps (fun q hq => (hnew q hq).1) hclosed
    (fun q hq a ha hat => ?_) (fun q hq => Or.inl ⟨q, hq, q.self_mem_subtrees⟩)
    (List.Sublist.refl _) fun key hkey => hcut.single hkey, fun hgiven => ?_⟩
  · exact hm.cell_ne hholds hat ((hnew q hq).2 a ha)
  · rw [List.flatMap_append]
    refine hgiven.append hnodup fun a hag hac => ?_
    obtain ⟨p, hp, hap⟩ := List.mem_flatMap.mp hag
    obtain ⟨q, hq, haq⟩ := List.mem_flatMap.mp hac
    exact cell_of_holds (hm.holds p hp) hap ((hnew q hq).2 a haq)

end

end MetaMonkey.Staging
