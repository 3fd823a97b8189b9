import MetaMonkey.Staging.Untagged

/-!
The loop of `unParse`. When the values of a stage hold no tags, the deepest stage of the AST
that it leaves is less deep, so that the loop ends.
-/

namespace MetaMonkey.Staging

open ObjectGraph Js AstNode StagedNodeIterator

variable {h h' : JSHeap} {t p : Ast} {put : Value → Option (List Ast)}

/-! ### Programs without tags -/

/-- A Program that a tag can be replaced by without a new tag: one of expressions where the
tag is an expression. -/
structure Suitable (isExpr : Bool) (p : Ast) : Prop where
  regular : Regular p
  noTags : tagsOf p = []
  exprs : isExpr = true → ∀ stmt ∈ statements p, text stmt "type" = js "ExpressionStatement" ∧
    ∃ a cls fields, AstNode.objChild stmt "expression" = some (.record a cls fields)

theorem child_of_objChild_array {s : Ast} {key : String} {b : ℕ} {elems : List Ast}
    (hs : AstNode.objChild s key = some (.array b elems)) :
    child s key = some (.array b elems) := by
  rw [objChild_eq] at hs
  cases hc : child s key with
  | none =>
      rw [hc] at hs
      cases hs
  | some r =>
      rw [hc, Option.bind_some] at hs
      cases r with
      | leaf v =>
          obtain ⟨w, hw⟩ := asObject_leaf hs
          cases hw
      | record a cls fields => cases hs
      | array a elems' => exact hs

theorem child_of_objChild_record {s : Ast} {key : String} {a : ℕ} {cls : ObjClass}
    {fields : List (String × Ast)} (hs : AstNode.objChild s key = some (.record a cls fields)) :
    child s key = some (.record a cls fields) := by
  rw [objChild_eq] at hs
  cases hc : child s key with
  | none =>
      rw [hc] at hs
      cases hs
  | some r =>
      rw [hc, Option.bind_some] at hs
      cases r with
      | leaf v =>
          obtain ⟨w, hw⟩ := asObject_leaf hs
          cases hw
      | record b cls' fields' => exact hs
      | array b elems => cases hs

theorem exists_body {stmt : Ast} (hstmt : stmt ∈ statements p) :
    ∃ b stmts, child p "body" = some (.array b stmts) ∧ stmt ∈ stmts := by
  rw [statements] at hstmt
  split at hstmt
  · next b stmts hbody => exact ⟨b, stmts, child_of_objChild_array hbody, hstmt⟩
  · cases hstmt

theorem untagged_of_statement (hp : tagsOf p = []) {stmt : Ast} (hstmt : stmt ∈ statements p) :
    Untagged stmt := by
  obtain ⟨b, stmts, hbody, hmem⟩ := exists_body hstmt
  cases p with
  | leaf v => cases hbody
  | array a elems => cases hbody
  | record a cls fields =>
      rw [tagsOf, tagsBelow_record, fieldTags_false, List.flatMap_eq_nil_iff] at hp
      have hnil := hp _ (mem_of_lookup hbody)
      rw [tagsAt, tagsElems_eq, List.flatMap_eq_nil_iff] at hnil
      exact untagged_of_eq_nil (hnil stmt hmem)

/-- The expression of a statement without tags. -/
theorem Untagged.expression {stmt : Ast} (hstmt : Untagged stmt)
    (htype : text stmt "type" = js "ExpressionStatement") {a : ℕ} {cls : ObjClass}
    {fields : List (String × Ast)}
    (hexpr : AstNode.objChild stmt "expression" = some (.record a cls fields)) :
    Untagged (.record a cls fields) := by
  have hsome : exprStmt stmt = some (.record a cls fields) := by
    rw [exprStmt, ofType, htype, hexpr]
    rfl
  have hchild := child_of_objChild_record hexpr
  cases stmt with
  | leaf v => cases hchild
  | array b elems => cases hchild
  | record b cls' fields' =>
      have hquazi : metaQuaziStmt (.record b cls' fields') = none :=
        ofType_eq_none (Option.isSome_of_mem hsome) (by decide)
      have hnil := hstmt [] false fun isExpr => ⟨isExpr, null, .inr ""⟩
      rw [tagsAt_eq_of_quazi_none (by rw [hquazi]; exact Bool.false_ne_true),
        List.append_eq_nil_iff, ownTag_eq_nil] at hnil
      obtain ⟨hfound, hfields⟩ := hnil
      obtain ⟨-, hinline, -, hexec⟩ := found_eq_nothing.mp hfound
      rw [hsome, Option.bind_some] at hinline hexec
      rw [hfound, fieldTags_false, List.flatMap_eq_nil_iff] at hfields
      have hwrapped : tagsAt false [] true (fun isExpr => ⟨isExpr, null, .inr ""⟩)
          (.record a cls fields) = [] :=
        tagsAt_eq_nil _ (fun _ => rfl) (hfields _ (mem_of_lookup hchild))
      rw [← tagsAt_unwrapped hinline hexec] at hwrapped
      exact untagged_of_eq_nil hwrapped

theorem Suitable.untagged {isExpr : Bool} (hp : Suitable isExpr p) {q : Ast}
    (hq : q ∈ spliced isExpr p) : Untagged q := by
  rw [spliced] at hq
  split at hq
  · next hexpr =>
      obtain ⟨stmt, hstmt, rfl⟩ := List.mem_map.mp hq
      obtain ⟨htype, a, cls, fields, he⟩ := hp.exprs hexpr stmt hstmt
      rw [he, Option.getD_some]
      exact (untagged_of_statement hp.noTags hstmt).expression htype he
  · exact untagged_of_statement hp.noTags hq

theorem Cut.untagged {info : NodeInfo} {cut : List Ast} (hcut : Cut info cut) {q : Ast}
    (hq : q ∈ cut) : Untagged q := by
  cases hcut with
  | element isExpr parent node => cases hq
  | expression parent key =>
      rw [List.mem_singleton.mp hq]
      exact untagged_leaf null
  | statement parent key a =>
      rw [List.mem_singleton.mp hq]
      have hnil : tagsAt false [] false (fun isExpr => ⟨isExpr, null, .inr ""⟩)
          (emptyStatementAt a) = [] := rfl
      exact untagged_of_eq_nil hnil

theorem Cut.eq_nil {info : NodeInfo} {cut : List Ast} (hcut : Cut info cut) {v : Value}
    (hplace : info.value = .inl v) : cut = [] := by
  cases hcut with
  | element isExpr parent node => rfl
  | expression parent key => cases hplace
  | statement parent key a => cases hplace

/-! ### The substituted AST -/

/-- What an array of the AST may have for an element. -/
def isElement : Ast → Bool
  | .leaf v => valueToObject v ≠ null
  | .record .. => true
  | .array .. => false

theorem elemsRegular_eq (a : ℕ) (elems : List Ast) :
    elemsRegular (.array a elems) = elems.all isElement :=
  rfl

theorem isElement_of_statement (hp : Regular p) {stmt : Ast} (hstmt : stmt ∈ statements p) :
    isElement stmt = true := by
  obtain ⟨b, stmts, hbody, hmem⟩ := exists_body hstmt
  have hreg := (hp _ (child_mem_subtrees hbody)).2.2
  rw [elemsRegular_eq, List.all_eq_true] at hreg
  exact hreg stmt hmem

theorem Suitable.isElement {isExpr : Bool} (hp : Suitable isExpr p) {q : Ast}
    (hq : q ∈ spliced isExpr p) : isElement q = true := by
  rw [spliced] at hq
  split at hq
  · next hexpr =>
      obtain ⟨stmt, hstmt, rfl⟩ := List.mem_map.mp hq
      obtain ⟨-, a, cls, fields, he⟩ := hp.exprs hexpr stmt hstmt
      rw [he]
      rfl
  · exact isElement_of_statement hp.regular hq

theorem regular_leaf (v : Value) : Regular (.leaf v) := by
  intro s hs
  rw [Tree.subtrees_leaf, List.mem_singleton] at hs
  rw [hs]
  exact ⟨rfl, rfl, rfl⟩

theorem Regular.subtree {s : Ast} (ht : Regular t) (hs : s ∈ t.subtrees) : Regular s :=
  fun r hr => ht r (Tree.subtrees_trans hr hs)

theorem Suitable.regular_spliced {isExpr : Bool} (hp : Suitable isExpr p) {q : Ast}
    (hq : q ∈ spliced isExpr p) : Regular q := by
  rcases subtree_of_mem_spliced hq with hmem | ⟨v, rfl, -⟩
  · exact hp.regular.subtree hmem
  · exact regular_leaf _

theorem Cut.regular {info : NodeInfo} {cut : List Ast} (hcut : Cut info cut) {q : Ast}
    (hq : q ∈ cut) : Regular q := by
  cases hcut with
  | element isExpr parent node => cases hq
  | expression parent key =>
      rw [List.mem_singleton.mp hq]
      exact regular_leaf null
  | statement parent key a =>
      rw [List.mem_singleton.mp hq]
      intro s hs
      simp only [emptyStatementAt, Tree.subtrees_record, List.flatMap_cons, List.flatMap_nil,
        Tree.subtrees_leaf, List.append_nil, List.cons_append, List.nil_append, List.mem_cons,
        List.not_mem_nil, or_false] at hs
      rcases hs with rfl | rfl | rfl <;> exact ⟨rfl, rfl, rfl⟩

theorem OnlyNodes.textual (hput : OnlyNodes put) {s : Ast} {key : String}
    (htext : textual (child s key) = true) : textual (child (s.substitute put) key) = true := by
  rw [child_substitute]
  cases hc : child s key with
  | none => rfl
  | some r =>
      rw [hc] at htext
      cases r with
      | record a cls fields => cases htext
      | array a elems => cases htext
      | leaf v =>
          cases v with
          | ref a => cases htext
          | leaf x =>
              rw [Option.map_some, hput.fieldSubstitute_leaf]
              rfl

/-- The AST is one that the traversal is made for, if that is so of what is put there. -/
theorem Regular.substitute (ht : Regular t) (hput : OnlyNodes put)
    (hinserted : ∀ q, Tree.Inserted put t q → Regular q)
    (helems : ∀ a elems, Tree.array a elems ∈ t.subtrees → ∀ e ∈ elems, ∀ qs,
      put e.val = some qs → ∀ q ∈ qs, isElement q = true) : Regular (t.substitute put) := by
  intro r hr
  rcases Tree.subtrees_substitute t hr with ⟨s, hs, rfl⟩ | ⟨q, hq, hrq⟩
  · obtain ⟨htype, hop, hreg⟩ := ht s hs
    refine ⟨hput.textual htype, hput.textual hop, ?_⟩
    cases s with
    | leaf v =>
        rw [Tree.substitute_leaf]
        rfl
    | record a cls fields =>
        rw [Tree.substitute_record]
        rfl
    | array a elems =>
        rw [elemsRegular_eq, List.all_eq_true] at hreg
        rw [Tree.substitute_array, elemsRegular_eq, List.all_eq_true]
        intro c hc
        obtain ⟨e, he, hc⟩ := List.mem_flatMap.mp hc
        rcases Tree.elemSubstitute_cases hc with rfl | ⟨qs, hqs, hmem⟩
        · have helem := hreg e he
          cases e with
          | leaf v => rwa [Tree.substitute_leaf]
          | record b cls fields =>
              rw [Tree.substitute_record]
              rfl
          | array b elems' => cases helem
        · exact helems a elems hs e he qs hqs c hmem
  · exact hinserted q hq r hrq

/-! ### What a stage puts in the AST -/

section

variable {depth : ℕ} {ps : List Ast} (hf : Filling t depth ps put)
  (hps : List.Forall₂ (fun tag p => Suitable tag.info.isExpr p) (queued t depth false) ps)
include hf hps

/-- What is put in the place of a node: what a Program has for the tag there, or the cut. -/
theorem Filling.exists_tag {v : Value} {qs : List Ast} (hput : put v = some qs) :
    ∃ tag ∈ tagsOf t, tag.depth = depth ∧ tag.node = v ∧
      ((∃ p, Suitable tag.info.isExpr p ∧ qs = spliced tag.info.isExpr p) ∨ Cut tag.info qs) := by
  obtain ⟨tag, htag, hdepth, hnode⟩ : ∃ tag ∈ tagsOf t, tag.depth = depth ∧ tag.node = v := by
    by_contra hnone
    have hv := hf.others v fun tag htag hdepth hnode => hnone ⟨tag, htag, hdepth, hnode⟩
    rw [hput] at hv
    cases hv
  refine ⟨tag, htag, hdepth, hnode, ?_⟩
  subst hnode
  cases hkind : tag.isExec with
  | false =>
      obtain ⟨hlength, hinlines⟩ := List.forall₂_iff_zip.mp hf.inlines
      obtain ⟨p, hp⟩ := exists_mem_zip hlength (mem_queued.mpr ⟨htag, hdepth, hkind⟩)
      have heq := hput.symm.trans (hinlines hp)
      exact Or.inl ⟨p, (List.forall₂_iff_zip.mp hps).2 hp, Option.some.inj heq⟩
  | true =>
      obtain ⟨cut, hcut, hcut'⟩ := hf.execs tag (mem_queued.mpr ⟨htag, hdepth, hkind⟩)
      exact Or.inr (Option.some.inj (hcut'.symm.trans hput) ▸ hcut)

theorem Filling.regular {v : Value} {qs : List Ast} (hput : put v = some qs) {q : Ast}
    (hq : q ∈ qs) : Regular q := by
  obtain ⟨tag, -, -, -, ⟨p, hp, rfl⟩ | hcut⟩ := hf.exists_tag hps hput
  · exact hp.regular_spliced hq
  · exact hcut.regular hq

/-- The elements that are put in an array. -/
theorem Filling.isElement (ht : t.Proper) {a : ℕ} {elems : List Ast}
    (hmem : Tree.array a elems ∈ t.subtrees) {e : Ast} (he : e ∈ elems) {qs : List Ast}
    (hput : put e.val = some qs) {q : Ast} (hq : q ∈ qs) : isElement q = true := by
  obtain ⟨tag, htag, -, hnode, ⟨p, hp, rfl⟩ | hcut⟩ := hf.exists_tag hps hput
  · exact hp.isElement hq
  · obtain ⟨e', ⟨he', b, hb⟩, hat⟩ := exists_at htag
    have hedge : (⟨a, .inl e.val, e⟩ : AstEdge) ∈ t.edges :=
      Tree.mem_edges.mpr ⟨_, hmem, List.mem_map_of_mem he⟩
    have hval : e.val = .ref b := hnode.symm.trans (hat.child.symm.trans hb)
    have hplace : tag.info.value = .inl e.val := by
      rw [hat.place, ht.edge_eq he' hedge hb hval]
    rw [hcut.eq_nil hplace] at hq
    cases hq

theorem Filling.resolves (hdistinct : t.labels.Nodup)
    (hdepth : ∀ tag ∈ tagsOf t, tag.depth ≤ depth) : Resolves t depth put where
  deepest := hdepth
  filled tag htag hdeep hnone := by
    cases hkind : tag.isExec with
    | false =>
        obtain ⟨hlength, hinlines⟩ := List.forall₂_iff_zip.mp hf.inlines
        obtain ⟨p, hp⟩ := exists_mem_zip hlength (mem_queued.mpr ⟨htag, hdeep, hkind⟩)
        cases hnone.symm.trans (hinlines hp)
    | true =>
        obtain ⟨cut, -, hcut⟩ := hf.execs tag (mem_queued.mpr ⟨htag, hdeep, hkind⟩)
        cases hnone.symm.trans hcut
  only v hv := by
    obtain ⟨qs, hqs⟩ := Option.ne_none_iff_exists'.mp hv
    obtain ⟨tag, htag, -, hnode, -⟩ := hf.exists_tag hps hqs
    exact ⟨tag, htag, hnode⟩
  slots tag htag qs hqs key hkey := by
    obtain ⟨tag', htag', hdeep, hnode, -⟩ := hf.exists_tag hps hqs
    obtain rfl := List.inj_on_of_nodup_map (tagsOf_nodup hdistinct) htag' htag hnode
    obtain ⟨q, hq⟩ := hf.slots tag' htag hdeep key hkey
    exact ⟨q, Option.some.inj (hqs.symm.trans hq)⟩
  untagged v qs hqs q hq := by
    obtain ⟨tag, -, -, -, ⟨p, hp, rfl⟩ | hcut⟩ := hf.exists_tag hps hqs
    · exact hp.untagged hq
    · exact hcut.untagged hq

end

/-! ### A stage -/

/-- What the loop relies on at a stage of the AST: the tags of its depth can be printed, and
its script gives each of its inlines a Program without tags, which shares nothing with the
AST and with the others. -/
structure Resolvable (fuel : ℕ) (engine : JSString → Script) (t : Ast) (depth : ℕ)
    (s : JSHeap × Stage) : Prop where
  printable : ∀ tag ∈ tagsOf t, tag.depth = depth → tag.report.Printable fuel s.1
  inlines : ∀ s', collect fuel t.val depth s = .ok () s' → ∃ ps,
    Supplies t (engine s'.2.code).rest (engine s'.2.code).calls [] ps s' ∧
      List.Forall₂ (fun tag p => Suitable tag.info.isExpr p) (queued t depth false) ps ∧
      (ps.flatMap Tree.labels).Nodup
  boxed : ∀ s' s'', collect fuel t.val depth s = .ok () s' →
    StagingProcess.exec engine s' = .ok () s'' → NoBoxedTypes s''.1

/-- An AST on which the loop can take another stage. -/
structure Stageable (h : JSHeap) (t : Ast) : Prop where
  ast : IsAst h t
  program : text t "type" = js "Program"
  distinct : t.labels.Nodup
  boxed : NoBoxedTypes h

theorem Stageable.exec {fuel depth : ℕ} {engine : JSString → Script} (ht : Stageable h t)
    {stage : Stage} (hres : Resolvable fuel engine t depth (h, stage))
    (hdepth : ∀ tag ∈ tagsOf t, tag.depth ≤ depth) (hpos : 0 < depth) {s s' : JSHeap × Stage}
    (hcollect : collect fuel t.val depth (h, stage) = .ok () s)
    (hexec : StagingProcess.exec engine s = .ok () s') :
    ∃ t', t'.val = t.val ∧ Stageable s'.1 t' ∧ deepest t' < depth := by
  obtain ⟨ps, hsup, hsuitable, hapart⟩ := hres.inlines s hcollect
  have hboxed := hres.boxed s s' hcollect hexec
  obtain ⟨h₁, stage₁⟩ := s
  obtain ⟨rfl, hinlines, hexecs⟩ :=
    collect_queued (walkable_of_ast ht.ast ht.distinct) ht.program ht.boxed hres.printable hcollect
  have hproper := ht.ast.holds.proper ht.ast.closed ht.distinct
  obtain ⟨given, rs, hm, hfilling, hnodup⟩ := exec_merged ht.ast.holds hproper hinlines hexecs
    hsuitable.length_eq.symm hsup hexec
  obtain ⟨hholds, hsubst⟩ := hm.substitute ht.ast.holds hproper
  have hproper' := hsubst (hnodup hapart)
  have hresolves := hfilling.resolves hsuitable ht.distinct hdepth
  have hregular : Regular (t.substitute (putAt rs)) := by
    refine ht.ast.regular.substitute hresolves.onlyNodes ?_ ?_
    · rintro q ⟨u, hu, qs, hput, hq⟩
      exact hfilling.regular hsuitable hput hq
    · intro a elems hmem e he qs hput q hq
      exact hfilling.isElement hsuitable hproper hmem he hput hq
  refine ⟨t.substitute (putAt rs), Tree.substitute_val _ t, ⟨?_, ?_, hproper'.labels, hboxed⟩, ?_⟩
  · exact ⟨hholds, hregular, hproper'.closed, (Tree.substitute_val _ t).symm ▸ ht.ast.object⟩
  · rw [hresolves.onlyNodes.text_eq (ht.ast.regular t t.self_mem_subtrees).1]
    exact ht.program
  · exact deepest_lt hpos fun tag htag =>
      hresolves.depth_lt ht.ast.regular hproper htag

instance keepsHeap_unParseStart (fuel : ℕ) (obj : Value) :
    Satisfies Everywhere KeepsHeap (unParseStart fuel obj) := by
  unfold unParseStart
  infer_instance

/-- The print for the report leaves the heap as it was. -/
theorem unparseAst_heap {fuel : ℕ} {s s' : JSHeap × StagingProcess} {text : JSString}
    (hboxed : NoBoxedTypes s.1) (hrun : StagingProcess.unparseAst fuel s = .ok text s') :
    s'.1 = s.1 := by
  rw [StagingProcess.unparseAst, bind_ok (get_apply s), StagingProcess.onUnparse] at hrun
  split at hrun
  · next hprint =>
      cases hrun
      exact (keepsHeap_unParseStart fuel s.2.stage.ast).holds _ _ _ hboxed hprint
  · cases hrun

theorem Stageable.staging {fuel : ℕ} {engine : JSString → Script}
    {s s' : JSHeap × StagingProcess} (ht : Stageable s.1 t)
    (hres : Resolvable fuel engine t (deepest t) (s.1, s.2.stage)) (hpos : deepest t ≠ 0)
    (hrun : StagingProcess.staging fuel engine t.val (deepest t) s = .ok () s') :
    ∃ t', t'.val = t.val ∧ Stageable s'.1 t' ∧ deepest t' < deepest t := by
  obtain ⟨⟨⟩, a, hinit, hrun⟩ := bind_eq_ok.mp hrun
  obtain ⟨⟨⟩, b, hcollect, hrun⟩ := bind_eq_ok.mp hrun
  obtain ⟨⟨⟩, c, hexec, hrun⟩ := bind_eq_ok.mp hrun
  obtain ⟨text, d, hprint, hdone⟩ := bind_eq_ok.mp hrun
  cases hdone
  have hcollected : collect fuel t.val (deepest t) (s.1, s.2.stage) = .ok () (b.1, b.2.stage) := by
    rw [collect, bind_ok (onStage_eq_ok.mp hinit).1]
    exact (onStage_eq_ok.mp hcollect).1
  obtain ⟨t', hroot, ht', hlt⟩ := ht.exec hres (fun tag => depth_le_deepest)
    (Nat.pos_of_ne_zero hpos) hcollected (onStage_eq_ok.mp hexec).1
  exact ⟨t', hroot, (unparseAst_heap ht'.boxed hprint).symm ▸ ht', hlt⟩

/-! ### The loop -/

/-- Each stage that the loop comes to is one that it can rely on. -/
def EachResolvable (fuel : ℕ) (engine : JSString → Script) :
    ℕ → Ast → JSHeap × StagingProcess → Prop
  | 0, _, _ => True
  | rounds + 1, t, s => deepest t ≠ 0 →
      Resolvable fuel engine t (deepest t) (s.1, s.2.stage) ∧
        ∀ s', StagingProcess.staging fuel engine t.val (deepest t) s = .ok () s' →
          ∀ t', t'.val = t.val → Stageable s'.1 t' → EachResolvable fuel engine rounds t' s'

theorem tagsOf_eq_nil_of_deepest (hdeep : deepest t = 0) : tagsOf t = [] := by
  refine List.eq_nil_iff_forall_not_mem.mpr fun tag htag => ?_
  have hle := depth_le_deepest htag
  rw [hdeep] at hle
  exact absurd hle (Nat.not_succ_le_zero _)

theorem Stageable.unParseLoop {fuel rounds : ℕ} {engine : JSString → Script}
    {s s' : JSHeap × StagingProcess} {ended : Bool} (ht : Stageable s.1 t)
    (hstages : EachResolvable fuel engine rounds t s) (hrounds : deepest t < rounds)
    (hrun : StagingProcess.unParseLoop fuel engine t.val rounds s = .ok ended s') :
    ended = true ∧ ∃ t', t'.val = t.val ∧ Stageable s'.1 t' ∧ tagsOf t' = [] := by
  induction rounds generalizing t s with
  | zero => exact absurd hrounds (Nat.not_lt_zero _)
  | succ rounds ih =>
      obtain ⟨depth, s₁, hdepth, hrun⟩ := bind_eq_ok.mp hrun
      obtain ⟨rfl, rfl⟩ := getDeapestStage_eq ht.ast ht.program ht.distinct hdepth
      by_cases hzero : deepest t = 0
      · rw [if_pos hzero] at hrun
        cases hrun
        exact ⟨rfl, t, rfl, ht, tagsOf_eq_nil_of_deepest hzero⟩
      · rw [if_neg hzero] at hrun
        obtain ⟨⟨⟩, s₂, hstaging, hrun⟩ := bind_eq_ok.mp hrun
        obtain ⟨hres, hstages⟩ := hstages hzero
        obtain ⟨t', hroot, ht', hlt⟩ := ht.staging hres hzero hstaging
        rw [← hroot] at hrun
        obtain ⟨hended, t'', hroot', ht'', hnone⟩ :=
          ih ht' (hstages s₂ hstaging t' hroot ht') (by omega) hrun
        exact ⟨hended, t'', hroot'.trans hroot, ht'', hnone⟩

/-- Where each stage is one that can be relied on (its tags can be printed, its script inlines
Programs without tags and leaves alone the AST and what it has handed over, and it leaves no
boxed type), a stage that returns leaves an AST whose deepest stage is less deep, and a run of
the loop of `unParse` that returns has ended after as many stages as the deepest is deep at
most, with no tag left. -/
theorem unParseLoop_ends {fuel rounds : ℕ} {engine : JSString → Script}
    {s : JSHeap × StagingProcess} (ht : Stageable s.1 t)
    (hstages : EachResolvable fuel engine rounds t s) (hrounds : deepest t < rounds) :
    (deepest t ≠ 0 → ∀ s₁,
      StagingProcess.staging fuel engine t.val (deepest t) s = .ok () s₁ →
        ∃ t', t'.val = t.val ∧ Stageable s₁.1 t' ∧ deepest t' < deepest t) ∧
    ∀ ended s', StagingProcess.unParseLoop fuel engine t.val rounds s = .ok ended s' →
      ended = true ∧ ∃ t', t'.val = t.val ∧ Stageable s'.1 t' ∧ tagsOf t' = [] := by
  obtain ⟨rounds, rfl⟩ := Nat.exists_eq_succ_of_ne_zero (Nat.ne_zero_of_lt hrounds)
  refine ⟨fun hpos s₁ hstaging => ht.staging (hstages hpos).1 hpos hstaging,
    fun ended s' hrun => ?_⟩
  exact ht.unParseLoop hstages hrounds hrun

/-- No cell of the heap has a boxed type. -/
def unboxed (h : JSHeap) : Bool :=
  (List.range h.next).all fun a => match h.cell a with
    | some (.record _ fields _) => match fields.lookup "type" with
      | some (.leaf (.wrapper _)) => false
      | _ => true
    | _ => true

theorem noBoxedTypes_of_unboxed (hh : unboxed h = true) : NoBoxedTypes h := by
  intro a cls fields distinct hc p hp
  have hlt : a < h.next := by
    by_contra hle
    rw [h.fresh a (Nat.le_of_not_lt hle)] at hc
    cases hc
  have hcell := List.all_eq_true.mp hh a (List.mem_range.mpr hlt)
  simp [hc, hp] at hcell

theorem resolvable_printableTags :
    Resolvable 30 inlineTwoValues printableTags 1 (tagsAndValues, emptyStage) where
  printable := by decide
  inlines s hcollect := by
    have ht : IsAst tagsAndValues printableTags := ⟨by decide, by decide, by decide, rfl⟩
    obtain ⟨hheap, -⟩ := collect_queued (walkable_of_ast ht (by decide)) rfl
      (noBoxedTypes_ofTrees (by decide)) (by decide) hcollect
    exact ⟨[twoValues], supplies_inlineTwoValues hheap,
      .cons ⟨by decide, by decide, fun h => by cases h⟩ .nil, by decide⟩
  boxed s s' hcollect hexec := by
    obtain ⟨b, s'', hrun, hboxed⟩ := exists_of_ended (f := fun x => x.1) (b := true)
      (r := (collect 30 printableTags.val 1 >>= fun _ =>
        StagingProcess.exec inlineTwoValues >>= fun _ => reads fun h => .ok (unboxed h))
          (tagsAndValues, emptyStage)) (by decide +kernel)
    rw [bind_ok hcollect, bind_ok hexec] at hrun
    obtain ⟨hb, -⟩ := reads_eq_ok.mp hrun
    cases hb
    exact noBoxedTypes_of_unboxed hboxed

/-- One stage is enough for `.!f; .&;`, and it leaves no tag. -/
theorem unParseLoop_ends_printableTags :
    (∀ s₁, StagingProcess.staging 30 inlineTwoValues printableTags.val 1
        (tagsAndValues, ⟨emptyStage, false⟩) = .ok () s₁ →
      ∃ t', t'.val = printableTags.val ∧ Stageable s₁.1 t' ∧ deepest t' < 1) ∧
    ∃ s', StagingProcess.unParseLoop 30 inlineTwoValues printableTags.val 2
        (tagsAndValues, ⟨emptyStage, false⟩) = .ok true s' ∧
      ∃ t', t'.val = printableTags.val ∧ Stageable s'.1 t' ∧ tagsOf t' = [] := by
  have ht : Stageable tagsAndValues printableTags :=
    ⟨⟨by decide, by decide, by decide, rfl⟩, rfl, by decide, noBoxedTypes_ofTrees (by decide)⟩
  obtain ⟨ended, s', hrun, -⟩ := exists_of_ended (f := fun _ => ()) (b := ())
    (r := StagingProcess.unParseLoop 30 inlineTwoValues printableTags.val 2
      (tagsAndValues, ⟨emptyStage, false⟩)) (by decide +kernel)
  have hstages : EachResolvable 30 inlineTwoValues 2 printableTags
      (tagsAndValues, ⟨emptyStage, false⟩) := by
    refine fun _ => ⟨resolvable_printableTags, fun s₁ hstaging t' hroot ht' hdeep => ?_⟩
    obtain ⟨depth, s₂, hrun, rfl⟩ := exists_of_ended (f := fun x => x.1) (b := 0)
      (r := (StagingProcess.staging 30 inlineTwoValues printableTags.val 1 >>= fun _ =>
        StagingProcess.getDeapestStage 30 printableTags.val)
          (tagsAndValues, ⟨emptyStage, false⟩)) (by decide +kernel)
    have hone : deepest printableTags = 1 := by decide
    rw [hone] at hstaging
    rw [bind_ok hstaging, ← hroot] at hrun
    obtain ⟨hdepth, -⟩ := getDeapestStage_eq ht'.ast ht'.program ht'.distinct hrun
    exact absurd hdepth.symm hdeep
  obtain ⟨hstage, hloop⟩ := unParseLoop_ends ht hstages (by decide)
  obtain ⟨rfl, hend⟩ := hloop _ _ hrun
  exact ⟨hstage (by decide), s', hrun, hend⟩

end MetaMonkey.Staging
