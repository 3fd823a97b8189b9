import MetaMonkey.Staging.Debugger
import MetaMonkey.Staging.Merges
import MetaMonkey.Staging.Reports

/-!
A stage as one substitution: on an AST that is a tree, the code of a stage and the cuts
after it do what the simultaneous substitution of the tags does to the tree.
-/

namespace MetaMonkey.Staging

open ObjectGraph Js AstNode StagedNodeIterator

variable {h h₀ h' : JSHeap} {t : Ast}

/-! ### The merges of a run -/

/-- The calls of `inline` in a script. -/
abbrev Calls := List (JSHeap → Except Fault (JSHeap × Value))

/-- Call by call, the script hands over the Programs of a list, which share nothing with the
AST; it leaves alone the AST and what it has handed over before. -/
def Supplies (t : Ast) (rest : JSHeap → Except Fault JSHeap) :
    Calls → List Ast → List Ast → JSHeap × Stage → Prop
  | [], given, ps, s => ps = [] ∧ ∀ h, rest s.1 = .ok h → LeavesAlone t given s.1 h
  | _ :: _, _, [], _ => False
  | call :: calls, given, p :: ps, s => ∀ h v, call s.1 = .ok (h, v) →
      v = p.val ∧ ReadableAst h p ∧ List.Disjoint p.labels t.labels ∧ LeavesAlone t given s.1 h ∧
        ∀ s', StagingProcess.executeInline v (h, s.2) = .ok () s' →
          Supplies t rest calls (given ++ [p]) ps s'

theorem executeInline_merge {v : Value} {stage : Stage} {s' : JSHeap × Stage}
    (hrun : StagingProcess.executeInline v (h, stage) = .ok () s') :
    ∃ info queue, stage.inlineNodesInfo = info :: queue ∧
      mergeNodeToAst info v (h, { stage with inlineNodesInfo := queue }) = .ok () s' := by
  obtain ⟨info, s₁, hdequeue, hmerge⟩ := bind_eq_ok.mp hrun
  rw [Stage.dequeueInline, bind_ok (get_apply _)] at hdequeue
  cases hqueue : stage.inlineNodesInfo with
  | nil =>
      simp only [hqueue] at hdequeue
      cases hdequeue
  | cons info' queue =>
      simp only [hqueue] at hdequeue
      cases hdequeue
      exact ⟨info, queue, rfl, hmerge⟩

theorem Tag.At.info_eq {tag : Tag} {e : AstEdge} (hat : tag.At e) :
    tag.info = ⟨tag.info.isExpr, .ref e.parent, e.place⟩ := by
  rw [← hat.parent, ← hat.place]

section

variable {given ps : List Ast} {rs : List (AstEdge × List Ast)} {tags : List Tag}
  {edge : Tag → AstEdge} {rest : JSHeap → Except Fault JSHeap}

/-- The tags stand at edges of the AST, each at another. -/
structure Standing (t : Ast) (edge : Tag → AstEdge) (tags : List Tag) : Prop where
  edges : ∀ tag ∈ tags, NodeEdge t (edge tag)
  places : ∀ tag ∈ tags, tag.At (edge tag)
  nodup : (tags.map Tag.node).Nodup

theorem Standing.tail {tag : Tag} (h : Standing t edge (tag :: tags)) : Standing t edge tags where
  edges tag' htag := h.edges tag' (List.mem_cons_of_mem _ htag)
  places tag' htag := h.places tag' (List.mem_cons_of_mem _ htag)
  nodup := (List.nodup_cons.mp h.nodup).2

/-- Nothing has been merged at the tags. -/
def Untouched (rs : List (AstEdge × List Ast)) (tags : List Tag) : Prop :=
  ∀ r ∈ rs, ∀ tag ∈ tags, r.1.child.val ≠ tag.node

theorem Untouched.step {tag : Tag} (h : Untouched rs (tag :: tags))
    (hs : Standing t edge (tag :: tags)) (qs : List Ast) :
    Untouched (rs ++ [(edge tag, qs)]) tags := by
  intro r hr tag' htag'
  rcases List.mem_append.mp hr with hr | hr
  · exact h r hr tag' (List.mem_cons_of_mem _ htag')
  · rw [List.mem_singleton.mp hr, (hs.places tag List.mem_cons_self).child]
    intro heq
    exact (List.nodup_cons.mp hs.nodup).1 (heq ▸ List.mem_map_of_mem htag')

theorem Untouched.head {tag : Tag} (h : Untouched rs (tag :: tags))
    (hs : Standing t edge (tag :: tags)) : ∀ r ∈ rs, r.1.child.val ≠ (edge tag).child.val := by
  intro r hr
  rw [(hs.places tag List.mem_cons_self).child]
  exact h r hr tag List.mem_cons_self

/-- Each tag with what is put there, at the edge of the tag. -/
def atEdges {β : Type} (edge : Tag → AstEdge) (f : Tag → β → List Ast) (tags : List Tag)
    (l : List β) : List (AstEdge × List Ast) :=
  (tags.zip l).map fun x => (edge x.1, f x.1 x.2)

theorem mem_atEdges {β : Type} {edge : Tag → AstEdge} {f : Tag → β → List Ast} {tags : List Tag}
    {l : List β} {r : AstEdge × List Ast} :
    r ∈ atEdges edge f tags l ↔ ∃ x ∈ tags.zip l, (edge x.1, f x.1 x.2) = r :=
  List.mem_map

/-- What the inlines of a script merge, in the order of the queue. -/
theorem Merged.evaluateCalls (hholds : h₀.Holds t) (ht : t.Proper) {calls : Calls} :
    ∀ {given ps : List Ast} {rs : List (AstEdge × List Ast)} {tags : List Tag}
      {s s' : JSHeap × Stage}, Merged h₀ s.1 t given rs → Standing t edge tags →
      Untouched rs tags → s.2.inlineNodesInfo = tags.map Tag.info →
      Supplies t rest calls given ps s → StagingProcess.evaluateCalls calls s = .ok () s' →
      Merged h₀ s'.1 t (given ++ ps)
          (rs ++ atEdges edge (fun tag p => spliced tag.info.isExpr p) tags ps) ∧
        s'.2.execNodesInfo = s.2.execNodesInfo ∧
        ∀ h, rest s'.1 = .ok h → LeavesAlone t (given ++ ps) s'.1 h := by
  induction calls with
  | nil =>
      intro given ps rs tags s s' hm _ _ _ hsup hrun
      obtain ⟨rfl, hrest⟩ := hsup
      cases hrun
      simp only [atEdges, List.zip_nil_right, List.map_nil, List.append_nil]
      exact ⟨hm, trivial, hrest⟩
  | cons call calls ih =>
      intro given ps rs tags s s' hm hs huntouched hqueue hsup hrun
      cases ps with
      | nil => exact hsup.elim
      | cons p ps =>
          obtain ⟨h, v, ⟨h₁, stage₁⟩, hcall, hexec, hcalls⟩ := evaluateCalls_cons hrun
          obtain ⟨rfl, hp, hdisjoint, halone, hnext⟩ := hsup h v hcall
          obtain ⟨info, queue, hinfo, hmerge⟩ := executeInline_merge hexec
          cases tags with
          | nil =>
              rw [hqueue] at hinfo
              cases hinfo
          | cons tag tags =>
              rw [hqueue, List.map_cons, List.cons.injEq] at hinfo
              obtain ⟨rfl, rfl⟩ := hinfo
              rw [(hs.places tag List.mem_cons_self).info_eq] at hmerge
              obtain ⟨hstage, hm'⟩ := (hm.leavesAlone halone).inline hholds ht
                (hs.edges tag List.mem_cons_self) (huntouched.head hs) hp hdisjoint
                hmerge
              obtain ⟨hmerged, hexecs, hrest⟩ := ih hm' hs.tail (huntouched.step hs _)
                (congrArg Stage.inlineNodesInfo hstage) (hnext _ hexec) hcalls
              rw [List.append_assoc, List.singleton_append] at hmerged hrest
              refine ⟨?_, ?_, hrest⟩
              · rw [List.append_assoc, List.singleton_append] at hmerged
                exact hmerged
              · rw [hexecs, hstage]

/-- What cutting the execs merges. -/
theorem Merged.cutFromBack (hholds : h₀.Holds t) (ht : t.Proper) {tags : List Tag} :
    ∀ {given : List Ast} {rs : List (AstEdge × List Ast)} {s s' : JSHeap × Stage},
      Merged h₀ s.1 t given rs → Standing t edge tags → Untouched rs tags →
      Stage.cutFromBack (tags.map Tag.info) s = .ok () s' →
      ∃ cuts, List.Forall₂ (fun tag cut => Cut tag.info cut) tags cuts ∧
        Merged h₀ s'.1 t (given ++ cuts.flatten)
          (rs ++ atEdges edge (fun _ cut => cut) tags cuts) ∧
        ((given.flatMap Tree.labels).Nodup →
          ((given ++ cuts.flatten).flatMap Tree.labels).Nodup) := by
  induction tags with
  | nil =>
      intro given rs s s' hm _ _ hrun
      cases hrun
      refine ⟨[], .nil, ?_, fun hgiven => ?_⟩
      · simpa [atEdges] using hm
      · simpa using hgiven
  | cons tag tags ih =>
      intro given rs s s' hm hs huntouched hrun
      rw [List.map_cons, Stage.cutFromBack] at hrun
      obtain ⟨⟨⟩, s₁, hupdate, hcut⟩ := bind_eq_ok.mp hrun
      cases hupdate
      obtain ⟨⟨⟩, ⟨h₂, stage₂⟩, hmerge, hcuts⟩ := bind_eq_ok.mp hcut
      rw [(hs.places tag List.mem_cons_self).info_eq] at hmerge
      obtain ⟨cut, hplaced, -, hm', hnodup⟩ := hm.cut hholds ht (hs.edges tag List.mem_cons_self)
        (huntouched.head hs) hmerge
      rw [← (hs.places tag List.mem_cons_self).info_eq] at hplaced
      obtain ⟨cuts, hall, hmerged, hrest⟩ := ih hm' hs.tail (huntouched.step hs _) hcuts
      refine ⟨cut :: cuts, .cons hplaced hall, ?_, fun hgiven => ?_⟩
      · simpa [atEdges] using hmerged
      · simpa using hrest (hnodup hgiven)

end

/-! ### A stage -/

/-- The tags of one depth and one kind, in the order in which they are queued. -/
def queued (t : Ast) (depth : ℕ) (isExec : Bool) : List Tag :=
  (tagsBelow true t).filter fun tag => tag.depth = depth ∧ tag.isExec = isExec

theorem mem_queued {depth : ℕ} {isExec : Bool} {tag : Tag} :
    tag ∈ queued t depth isExec ↔ tag ∈ tagsOf t ∧ tag.depth = depth ∧ tag.isExec = isExec := by
  simp [queued, (tagsBelow_perm t).mem_iff]

theorem infosOf_queued (depth : ℕ) (isExec : Bool) :
    infosOf isExec (atDepth depth ((tagsBelow true t).map Tag.report)) =
      (queued t depth isExec).map Tag.info := by
  rw [infosOf, atDepth, queued, List.filter_map, List.filter_map, List.filter_filter, List.map_map]
  refine congrArg _ (List.filter_congr fun tag _ => ?_)
  rw [Bool.decide_and, Bool.and_comm]
  rfl

/-- What a stage puts in the place of the tags of its depth. -/
structure Filling (t : Ast) (depth : ℕ) (ps : List Ast) (put : Value → Option (List Ast)) :
    Prop where
  inlines : List.Forall₂ (fun tag p => put tag.node = some (spliced tag.info.isExpr p))
    (queued t depth false) ps
  execs : ∀ tag ∈ queued t depth true, ∃ cut, Cut tag.info cut ∧ put tag.node = some cut
  slots : ∀ tag ∈ tagsOf t, tag.depth = depth → ∀ key, tag.info.value = .inr key →
    ∃ q, put tag.node = some [q]
  others : ∀ v, (∀ tag ∈ tagsOf t, tag.depth = depth → tag.node ≠ v) → put v = none

theorem exists_standing (hdistinct : t.labels.Nodup) :
    ∃ edge, ∀ tags : List Tag, tags ⊆ tagsOf t → tags.Nodup → Standing t edge tags := by
  have hnonempty : Nonempty AstEdge := ⟨⟨0, .inr "", .leaf null⟩⟩
  choose! edge hedges hplaces using fun tag (htag : tag ∈ tagsOf t) => exists_at htag
  refine ⟨edge, fun tags hsub hnodup => ⟨fun tag htag => hedges tag (hsub htag),
    fun tag htag => hplaces tag (hsub htag), ?_⟩⟩
  refine (List.nodup_map_iff_inj_on hnodup).mpr fun tag htag tag' htag' heq => ?_
  exact List.inj_on_of_nodup_map (tagsOf_nodup hdistinct) (hsub htag) (hsub htag') heq

section

variable {β : Type} {tags : List Tag} {edge : Tag → AstEdge} {l : List β} {depth : ℕ}
  {ps : List Ast} {cuts : List (List Ast)}

theorem node_of_mem_atEdges {f : Tag → β → List Ast} (hs : Standing t edge tags)
    {r : AstEdge × List Ast} (hr : r ∈ atEdges edge f tags l) :
    ∃ tag ∈ tags, r.1.child.val = tag.node := by
  obtain ⟨x, hx, rfl⟩ := mem_atEdges.mp hr
  have hmem := (List.of_mem_zip hx).1
  exact ⟨x.1, hmem, (hs.places _ hmem).child⟩

theorem nodes_atEdges {f : Tag → β → List Ast} (hs : Standing t edge tags)
    (hlength : tags.length = l.length) :
    (atEdges edge f tags l).map (fun r => r.1.child.val) = tags.map Tag.node := by
  have hfst : (tags.zip l).map Prod.fst = tags := List.map_fst_zip (Nat.le_of_eq hlength)
  rw [atEdges, List.map_map]
  calc (tags.zip l).map _ = (tags.zip l).map fun x => x.1.node :=
        List.map_congr_left fun x hx => (hs.places _ (List.of_mem_zip hx).1).child
    _ = ((tags.zip l).map Prod.fst).map Tag.node := (List.map_map).symm
    _ = tags.map Tag.node := by rw [hfst]

theorem exists_mem_zip (hlength : tags.length = l.length) {tag : Tag} (htag : tag ∈ tags) :
    ∃ b, (tag, b) ∈ tags.zip l := by
  have hfst : (tags.zip l).map Prod.fst = tags := List.map_fst_zip (Nat.le_of_eq hlength)
  rw [← hfst] at htag
  obtain ⟨x, hx, rfl⟩ := List.mem_map.mp htag
  exact ⟨x.2, hx⟩

/-- The tags of both kinds with what is put in their place. -/
theorem filling_putAt (hs : Standing t edge (queued t depth false))
    (hs' : Standing t edge (queued t depth true).reverse)
    (hnodes : ∀ tag ∈ queued t depth false, ∀ tag' ∈ queued t depth true, tag.node ≠ tag'.node)
    (hlength : (queued t depth false).length = ps.length)
    (hcuts : List.Forall₂ (fun tag cut => Cut tag.info cut) (queued t depth true).reverse cuts)
    (hsingle : ∀ r ∈ atEdges edge (fun tag p => spliced tag.info.isExpr p) (queued t depth false)
      ps ++ atEdges edge (fun _ cut => cut) (queued t depth true).reverse cuts,
        ∀ key, r.1.place = .inr key → ∃ q, r.2 = [q]) :
    Filling t depth ps (putAt
      (atEdges edge (fun tag p => spliced tag.info.isExpr p) (queued t depth false) ps ++
        atEdges edge (fun _ cut => cut) (queued t depth true).reverse cuts)) := by
  obtain ⟨hlength', hcut⟩ := List.forall₂_iff_zip.mp hcuts
  have hkeys : ((atEdges edge (fun tag p => spliced tag.info.isExpr p) (queued t depth false) ps ++
      atEdges edge (fun _ cut => cut) (queued t depth true).reverse cuts).map
        fun r => r.1.child.val).Nodup := by
    rw [List.map_append, nodes_atEdges hs hlength, nodes_atEdges hs' hlength']
    refine hs.nodup.append hs'.nodup fun v hv hv' => ?_
    obtain ⟨tag, htag, rfl⟩ := List.mem_map.mp hv
    obtain ⟨tag', htag', heq⟩ := List.mem_map.mp hv'
    exact hnodes tag htag tag' (List.mem_reverse.mp htag') heq.symm
  refine ⟨List.forall₂_iff_zip.mpr ⟨hlength, fun {tag p} hmem => ?_⟩, fun tag htag => ?_,
    fun tag htag hdepth key hkey => ?_, fun v hv => ?_⟩
  · rw [← (hs.places tag (List.of_mem_zip hmem).1).child]
    exact putAt_of_mem hkeys (List.mem_append_left _ (mem_atEdges.mpr ⟨(tag, p), hmem, rfl⟩))
  · obtain ⟨cut, hmem⟩ := exists_mem_zip hlength' (List.mem_reverse.mpr htag)
    refine ⟨cut, hcut hmem, ?_⟩
    rw [← (hs'.places tag (List.of_mem_zip hmem).1).child]
    exact putAt_of_mem hkeys (List.mem_append_right _ (mem_atEdges.mpr ⟨(tag, cut), hmem, rfl⟩))
  · have hslot : ∀ r ∈ atEdges edge (fun tag p => spliced tag.info.isExpr p) (queued t depth false)
        ps ++ atEdges edge (fun _ cut => cut) (queued t depth true).reverse cuts,
        r.1.child.val = tag.node → r.1.place = tag.info.value →
          ∃ q, putAt (atEdges edge (fun tag p => spliced tag.info.isExpr p) (queued t depth false)
            ps ++ atEdges edge (fun _ cut => cut) (queued t depth true).reverse cuts) tag.node =
              some [q] := by
      intro r hr hnode hplace
      obtain ⟨q, hq⟩ := hsingle r hr key (hplace.trans hkey)
      exact ⟨q, by rw [← hnode, putAt_of_mem hkeys hr, hq]⟩
    cases hkind : tag.isExec with
    | false =>
        have hmem := mem_queued.mpr ⟨htag, hdepth, hkind⟩
        obtain ⟨p, hp⟩ := exists_mem_zip hlength hmem
        exact hslot _ (List.mem_append_left _ (mem_atEdges.mpr ⟨(tag, p), hp, rfl⟩))
          (hs.places tag hmem).child (hs.places tag hmem).place.symm
    | true =>
        have hmem := List.mem_reverse.mpr (mem_queued.mpr ⟨htag, hdepth, hkind⟩)
        obtain ⟨cut, hcut⟩ := exists_mem_zip hlength' hmem
        exact hslot _ (List.mem_append_right _ (mem_atEdges.mpr ⟨(tag, cut), hcut, rfl⟩))
          (hs'.places tag hmem).child (hs'.places tag hmem).place.symm
  · cases hput : putAt _ v with
    | none => rfl
    | some qs =>
        obtain ⟨r, hr, rfl, -⟩ := mem_of_putAt hput
        rcases List.mem_append.mp hr with hr | hr
        · obtain ⟨tag, htag, hnode⟩ := node_of_mem_atEdges hs hr
          obtain ⟨hmem, hdepth, -⟩ := mem_queued.mp htag
          exact absurd hnode.symm (hv tag hmem hdepth)
        · obtain ⟨tag, htag, hnode⟩ := node_of_mem_atEdges hs' hr
          obtain ⟨hmem, hdepth, -⟩ := mem_queued.mp (List.mem_reverse.mp htag)
          exact absurd hnode.symm (hv tag hmem hdepth)

end

/-- The run of the code of a stage. -/
theorem exec_merged (hholds : h.Holds t) (ht : t.Proper) {engine : JSString → Script}
    {stage : Stage} {depth : ℕ}
    (hinlines : stage.inlineNodesInfo = (queued t depth false).map Tag.info)
    (hexecs : stage.execNodesInfo = (queued t depth true).map Tag.info) {ps : List Ast}
    (hcalls : ps.length = (queued t depth false).length)
    (hsup : Supplies t (engine stage.code).rest (engine stage.code).calls [] ps (h, stage))
    {s : JSHeap × Stage} (hrun : StagingProcess.exec engine (h, stage) = .ok () s) :
    ∃ given rs, Merged h s.1 t (ps ++ given) rs ∧ Filling t depth ps (putAt rs) ∧
      ((ps.flatMap Tree.labels).Nodup → ((ps ++ given).flatMap Tree.labels).Nodup) := by
  have hqueued : ∀ isExec, queued t depth isExec ⊆ tagsOf t ∧ (queued t depth isExec).Nodup := by
    refine fun isExec => ⟨fun tag htag => (mem_queued.mp htag).1, ?_⟩
    have hnodup := (tagsBelow_perm t).nodup_iff.mpr (tagsOf_nodup ht.labels).of_map
    exact hnodup.filter _
  obtain ⟨edge, hstanding⟩ := exists_standing ht.labels
  have hs := hstanding _ (hqueued false).1 (hqueued false).2
  have hs' : Standing t edge (queued t depth true).reverse :=
    hstanding _ (fun tag htag => (hqueued true).1 (List.mem_reverse.mp htag))
      (List.nodup_reverse.mpr (hqueued true).2)
  have hnodes : ∀ tag ∈ queued t depth false, ∀ tag' ∈ queued t depth true,
      tag.node ≠ tag'.node := by
    intro tag htag tag' htag' heq
    have hsame := List.inj_on_of_nodup_map (tagsOf_nodup ht.labels) (mem_queued.mp htag).1
      (mem_queued.mp htag').1 heq
    have hclash := (mem_queued.mp htag).2.2
    rw [hsame, (mem_queued.mp htag').2.2] at hclash
    cases hclash
  rw [StagingProcess.exec, bind_ok (get_apply _)] at hrun
  dsimp only at hrun
  obtain ⟨⟨⟩, s₁, hinlined, hrun⟩ := bind_eq_ok.mp hrun
  obtain ⟨⟨⟩, s₂, hwrite, hcut⟩ := bind_eq_ok.mp hrun
  obtain ⟨g, hrest, rfl⟩ := writes_eq_ok.mp hwrite
  obtain ⟨hm, hqueue, halone⟩ := Merged.nil.evaluateCalls hholds ht hs
    (fun r hr => absurd hr List.not_mem_nil) hinlines hsup hinlined
  rw [List.nil_append, List.nil_append] at hm
  have hm' := hm.leavesAlone (halone g hrest)
  rw [Stage.cutExecs, bind_ok (get_apply _)] at hcut
  dsimp only at hcut
  rw [hqueue, hexecs, ← List.map_reverse] at hcut
  have huntouched : Untouched (atEdges edge (fun tag p => spliced tag.info.isExpr p)
      (queued t depth false) ps) (queued t depth true).reverse := by
    intro r hr tag htag
    obtain ⟨tag', htag', hnode⟩ := node_of_mem_atEdges hs hr
    rw [hnode]
    exact hnodes _ htag' _ (List.mem_reverse.mp htag)
  obtain ⟨cuts, hcuts, hmerged, hnodup⟩ := hm'.cutFromBack hholds ht hs' huntouched hcut
  refine ⟨cuts.flatten, _, hmerged, ?_, hnodup⟩
  exact filling_putAt hs hs' hnodes hcalls.symm hcuts hmerged.single

/-- A stage that has been collected has the places of the tags of its depth in its queues. -/
theorem collect_queued {fuel : ℕ} (ht : Walkable h t) (hprogram : text t "type" = js "Program")
    (hboxed : NoBoxedTypes h) {depth : ℕ} {stage : Stage}
    (hprint : ∀ tag ∈ tagsOf t, tag.depth = depth → tag.report.Printable fuel h)
    {s : JSHeap × Stage} (hcollect : collect fuel t.val depth (h, stage) = .ok () s) :
    s.1 = h ∧ s.2.inlineNodesInfo = (queued t depth false).map Tag.info ∧
      s.2.execNodesInfo = (queued t depth true).map Tag.info := by
  have hinit : Stage.init t.val depth (h, stage) = .ok () (h, ⟨t.val, [], depth, [], []⟩) := rfl
  rw [collect, bind_ok hinit, StagingProcess.collectStage] at hcollect
  split at hcollect
  · next hiter =>
      cases hcollect
      obtain ⟨rfl, hstage⟩ := fold_of_run (extractStagingTags_folds hboxed) ht hprogram
        hprint hiter
      dsimp only at hstage
      rw [hstage, foldl_pushed]
      exact ⟨rfl, infosOf_queued depth false, infosOf_queued depth true⟩
  · cases hcollect

/-- The merges of a stage are a substitution. -/
theorem Merged.substitute {given : List Ast} {rs : List (AstEdge × List Ast)}
    (hm : Merged h h' t given rs) (hholds : h.Holds t) (ht : t.Proper) :
    h'.Holds (t.substitute (putAt rs)) ∧
      ((given.flatMap Tree.labels).Nodup → (t.substitute (putAt rs)).Proper) := by
  have hinserted : ∀ p, Tree.Inserted (putAt rs) t p →
      h'.Holds p ∧ p.Closed ∧ p.labels.Sublist (given.flatMap Tree.labels) := by
    rintro p ⟨u, hu, qs, hput, hp⟩
    obtain ⟨r, hr, -, rfl⟩ := mem_of_putAt hput
    rcases hm.inserted r hr p hp with ⟨q, hq, hpq⟩ | ⟨x, rfl⟩
    · exact ⟨(hm.holds q hq).subtree hpq, (hm.closed q hq).subtree hpq,
        (labels_sublist hpq).trans (Tree.sublist_flatMap_of_mem hq Tree.labels)⟩
    · refine ⟨holds_leaf _, fun v hv b => ?_, List.nil_sublist _⟩
      rw [Tree.subtrees_leaf, List.mem_singleton] at hv
      simp [hv]
  refine ⟨hholds.substitute ht hm.edges hm.edited fun p hp => (hinserted p hp).1,
    fun hgiven => ?_⟩
  have hdisjoint : ∀ r ∈ rs, List.Disjoint (r.2.flatMap Tree.labels) t.labels := by
    intro r hr b hb hbt
    have hmem := hm.labels.subset (List.mem_flatMap.mpr ⟨r, hr, hb⟩)
    obtain ⟨p, hp, hbp⟩ := List.mem_flatMap.mp hmem
    exact hm.disjoint p hp hbp hbt
  refine ht.substitute (fresh_putAt hm.edges (hgiven.sublist hm.labels) hdisjoint)
    fun p hp => ?_
  obtain ⟨hholds, hclosed, hsub⟩ := hinserted p hp
  exact hholds.proper hclosed (hgiven.sublist hsub)

/-- A stage whose tags can all be printed, and which returns, substitutes the Programs for the
tags, all at once, and cuts its execs. What is relied on: no type is a boxed primitive, and the
script gives each inline a Program that shares nothing with the AST and leaves alone the AST and
the Programs that it has handed over. If these share nothing with one another, the AST is a tree
again. -/
theorem stage_substitutes {fuel : ℕ} {engine : JSString → Script} (ht : Walkable h t)
    (hprogram : text t "type" = js "Program") (hboxed : NoBoxedTypes h) {depth : ℕ}
    {stage : Stage} (hprint : ∀ tag ∈ tagsOf t, tag.depth = depth → tag.report.Printable fuel h)
    {s s' : JSHeap × Stage} (hcollect : collect fuel t.val depth (h, stage) = .ok () s)
    {ps : List Ast} (hcalls : ps.length = (queued t depth false).length)
    (hsup : Supplies t (engine s.2.code).rest (engine s.2.code).calls [] ps s)
    (hexec : StagingProcess.exec engine s = .ok () s') :
    ∃ put, Filling t depth ps put ∧ s'.1.Holds (t.substitute put) ∧
      ((ps.flatMap Tree.labels).Nodup → (t.substitute put).Proper) := by
  obtain ⟨h₁, stage₁⟩ := s
  obtain ⟨rfl, hinlines, hexecs⟩ := collect_queued ht hprogram hboxed hprint hcollect
  have hproper := ht.holds.proper ht.closed ht.distinct
  obtain ⟨given, rs, hm, hfilling, hnodup⟩ :=
    exec_merged ht.holds hproper hinlines hexecs hcalls hsup hexec
  obtain ⟨hholds, hsubst⟩ := hm.substitute ht.holds hproper
  exact ⟨putAt rs, hfilling, hholds, fun hps => hsubst (hnodup hps)⟩

/-- The Program `y; ;`. -/
def twoValues : Ast :=
  program 10 11 [exprStatement 12 (identifier 13 "y"), node 14 "EmptyStatement" []]

/-- The heap of `.!f; .&;` and of the Program. -/
def tagsAndValues : JSHeap := .ofTrees [printableTags, twoValues]

/-- A script that inlines the Program. -/
def inlineTwoValues (_ : JSString) : Script := ⟨[fun h => .ok (h, twoValues.val)], fun h => .ok h⟩

theorem supplies_inlineTwoValues {s : JSHeap × Stage} (hs : s.1 = tagsAndValues) :
    Supplies printableTags (inlineTwoValues s.2.code).rest (inlineTwoValues s.2.code).calls []
      [twoValues] s := by
  have hp : IsAst tagsAndValues twoValues := ⟨by decide, by decide, by decide, rfl⟩
  have hdisjoint : ∀ a ∈ Tree.labels twoValues, a ∉ Tree.labels printableTags := by decide
  intro h v hcall
  cases hcall
  refine ⟨rfl, hs ▸ hp.node, hdisjoint, fun _ _ => rfl, fun s' _ => ⟨rfl, fun h hrest _ _ => ?_⟩⟩
  cases hrest
  rfl

theorem stage_substitutes_printableTags :
    ∃ s s', collect 30 printableTags.val 1 (tagsAndValues, emptyStage) = .ok () s ∧
      StagingProcess.exec inlineTwoValues s = .ok () s' ∧
      ∃ put, Filling printableTags 1 [twoValues] put ∧
        s'.1.Holds (printableTags.substitute put) := by
  have ht : Walkable tagsAndValues printableTags :=
    ⟨by decide, by decide, by decide, by decide, by decide⟩
  have hboxed : NoBoxedTypes tagsAndValues := noBoxedTypes_ofTrees (by decide)
  have hprint : ∀ tag ∈ tagsOf printableTags, tag.depth = 1 →
      tag.report.Printable 30 tagsAndValues := by decide
  obtain ⟨_, ⟨h, stage⟩, hcollect, hstage⟩ := exists_of_ended
    (r := collect 30 printableTags.val 1 (tagsAndValues, emptyStage)) (f := fun x => x.2)
    (b := ⟨.ref 0, js "inline( f );\n    ;\n", 1, [⟨false, .ref 1, .inl (.ref 2)⟩],
      [⟨false, .ref 1, .inl (.ref 5)⟩]⟩) (by decide)
  obtain ⟨rfl, -⟩ := collect_queued ht rfl hboxed hprint hcollect
  dsimp only at hstage
  subst hstage
  obtain ⟨_, s', hexec, -⟩ := exists_of_ended (f := fun _ => ()) (b := ())
    (r := StagingProcess.exec inlineTwoValues (tagsAndValues, ⟨.ref 0,
      js "inline( f );\n    ;\n", 1, [⟨false, .ref 1, .inl (.ref 2)⟩],
      [⟨false, .ref 1, .inl (.ref 5)⟩]⟩)) (by decide)
  obtain ⟨put, hfilling, hholds, -⟩ := stage_substitutes ht rfl hboxed
    hprint hcollect (by decide) (supplies_inlineTwoValues rfl) hexec
  exact ⟨_, s', hcollect, hexec, put, hfilling, hholds⟩

end MetaMonkey.Staging
