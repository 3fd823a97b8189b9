import MetaMonkey.Staging.Substitution

/-!
The tags of the tree that a stage leaves. What was put into it has none, and the tags that
are still there are no deeper than they were.
-/

namespace MetaMonkey.Staging

open ObjectGraph Js AstNode StagedNodeIterator

variable {t : Ast} {put : Value → Option (List Ast)}

/-! ### Parts without tags -/

theorem tagsAt_eq_nil_of_quazi {rev : Bool} {above : List Bool} {wrapped : Bool}
    {info : Bool → NodeInfo} {a : ℕ} {cls : ObjClass} {fields : List (String × Ast)}
    (hquazi : (metaQuaziStmt (.record a cls fields)).isSome) :
    tagsAt rev above wrapped info (.record a cls fields) = [] := by
  rw [tagsAt_record, nodeTags, if_pos hquazi]

theorem tagsAt_eq_of_quazi_none {rev : Bool} {above : List Bool} {wrapped : Bool}
    {info : Bool → NodeInfo} {a : ℕ} {cls : ObjClass} {fields : List (String × Ast)}
    (hquazi : ¬ (metaQuaziStmt (.record a cls fields)).isSome) :
    tagsAt rev above wrapped info (.record a cls fields) =
      ownTag (.ref a) info above (found wrapped (.record a cls fields)) ++
        fieldTags rev a cls fields (aboveInside above (found wrapped (.record a cls fields))) := by
  rw [tagsAt_record, nodeTags, if_neg hquazi]
  rfl

theorem ownTag_eq_nil {node : Value} {info : Bool → NodeInfo} {above : List Bool} {f : Found} :
    ownTag node info above f = [] ↔ f = .nothing := by
  cases f <;> simp [ownTag]

/-- A node that is nothing is nothing in a statement. -/
theorem found_wrapped {wrapped wrapped' : Bool} (hle : wrapped = true → wrapped' = true)
    (hfound : found wrapped t = .nothing) : found wrapped' t = .nothing := by
  cases wrapped' with
  | false =>
      cases wrapped with
      | false => exact hfound
      | true => cases hle rfl
  | true =>
      by_contra hne
      cases wrapped with
      | true => exact hne hfound
      | false => exact found_ne_nothing hne hfound

/-- Whether a subtree has tags does not depend on what is around it. -/
theorem tagsAt_eq_nil (s : Ast) : ∀ {above above' wrapped wrapped' info info'},
    (wrapped = true → wrapped' = true) → tagsAt false above wrapped info s = [] →
      tagsAt false above' wrapped' info' s = [] := by
  induction s using Tree.induct with
  | leaf v => exact fun _ _ => rfl
  | record a cls fields ih =>
      intro above above' wrapped wrapped' info info' hle hnil
      by_cases hquazi : (metaQuaziStmt (.record a cls fields)).isSome
      · exact tagsAt_eq_nil_of_quazi hquazi
      · rw [tagsAt_eq_of_quazi_none hquazi, List.append_eq_nil_iff, ownTag_eq_nil] at hnil ⊢
        obtain ⟨hfound, hfields⟩ := hnil
        refine ⟨found_wrapped hle hfound, ?_⟩
        rw [fieldTags_false, List.flatMap_eq_nil_iff] at hfields ⊢
        exact fun f hf => ih f hf id (hfields f hf)
  | array a elems ih =>
      intro above above' wrapped wrapped' info info' hle hnil
      rw [tagsAt, tagsElems_eq, List.flatMap_eq_nil_iff] at hnil ⊢
      exact fun e he => ih e he id (hnil e he)

/-- The subtree has no tag, wherever it stands. -/
def Untagged (s : Ast) : Prop :=
  ∀ above wrapped info, tagsAt false above wrapped info s = []

theorem untagged_of_eq_nil {s : Ast} {above : List Bool} {info : Bool → NodeInfo}
    (hnil : tagsAt false above false info s = []) : Untagged s :=
  fun _ _ _ => tagsAt_eq_nil s (fun h => by cases h) hnil

theorem untagged_leaf (v : Value) : Untagged (.leaf v) := fun _ _ _ => rfl

/-- An expression that is no tag itself has the same tags in a statement and elsewhere. -/
theorem tagsAt_unwrapped {above : List Bool} {info : Bool → NodeInfo} {a : ℕ} {cls : ObjClass}
    {fields : List (String × Ast)} (hinline : metaInline (.record a cls fields) = none)
    (hexec : metaExecStmt (.record a cls fields) = none) :
    tagsAt false above false info (.record a cls fields) =
      tagsAt false above true info (.record a cls fields) := by
  have hfound : found false (.record a cls fields) = found true (.record a cls fields) := by
    simp [found, hinline, hexec]
  rw [tagsAt_record, tagsAt_record, nodeTags, nodeTags, hfound]

/-- A node has one type. -/
theorem ofType_eq_none {s : Ast} {type type' key key' : String}
    (hsome : (ofType type key s).isSome) (hne : equals (js type) type' = false) :
    ofType type' key' s = none := by
  rw [ofType] at hsome ⊢
  split at hsome
  · next htype =>
      rw [of_decide_eq_true htype, hne]
      rfl
  · cases hsome

theorem metaInline_eq_none {s : Ast} {type key : String} (hsome : (ofType type key s).isSome)
    (hne : equals (js type) "UnaryExpression" = false) : metaInline s = none := by
  rw [metaInline, ofType_eq_none hsome hne, ite_self]

theorem found_eq_nothing {s : Ast} : found false s = .nothing ↔
    metaInline s = none ∧ (exprStmt s).bind metaInline = none ∧ metaExecStmt s = none ∧
      (exprStmt s).bind metaExecStmt = none := by
  cases hi : metaInline s with
  | some arg => simp [found, hi]
  | none =>
      cases hs : (exprStmt s).bind metaInline with
      | some arg => simp [found, hi, hs]
      | none =>
          cases he : metaExecStmt s with
          | some body => simp [found, hi, hs, he]
          | none => cases hb : (exprStmt s).bind metaExecStmt <;> simp [found, hi, hs, he, hb]

/-- In a statement only a statement is a tag. -/
theorem exprStmt_of_found {s : Ast} (hfound : found true s ≠ .nothing) : (exprStmt s).isSome := by
  by_contra hnone
  rw [Option.not_isSome_iff_eq_none] at hnone
  refine hfound ?_
  cases hi : metaInline s with
  | some arg => simp [found, hi]
  | none => cases he : metaExecStmt s <;> simp [found, hi, hnone, he]

theorem found_of_exprStmt {s : Ast} (hs : (exprStmt s).isSome) : found true s = found false s := by
  have hinline : metaInline s = none := metaInline_eq_none hs (by decide)
  have hexec : metaExecStmt s = none := ofType_eq_none hs (by decide)
  simp [found, hinline, hexec]

/-- A node without tags is no tag. -/
theorem Untagged.not_tag {s : Ast} (hs : Untagged s) :
    metaInline s = none ∧ metaExecStmt s = none := by
  cases s with
  | leaf v => exact ⟨rfl, rfl⟩
  | array a elems => exact ⟨rfl, rfl⟩
  | record a cls fields =>
      by_cases hquazi : (metaQuaziStmt (.record a cls fields)).isSome
      · exact ⟨metaInline_eq_none hquazi (by decide), ofType_eq_none hquazi (by decide)⟩
      · have hnil := hs [] false fun isExpr => ⟨isExpr, null, .inr ""⟩
        rw [tagsAt_eq_of_quazi_none hquazi, List.append_eq_nil_iff, ownTag_eq_nil] at hnil
        obtain ⟨hinline, -, hexec, -⟩ := found_eq_nothing.mp hnil.1
        exact ⟨hinline, hexec⟩

/-! ### Nodes of the substituted tree -/

/-- A property as an object. -/
def asObject (s : Ast) : Option Ast :=
  match s with
  | .leaf v => if valueToObject v = null then none else some (.leaf (valueToObject v))
  | s => some s

theorem asObject_leaf {v : Value} {r : Ast} (hr : asObject (.leaf v) = some r) :
    ∃ w, r = .leaf w := by
  rw [asObject] at hr
  split at hr
  · cases hr
  · exact ⟨_, (Option.some.inj hr).symm⟩

theorem Untagged.asObject {q r : Ast} (hq : Untagged q) (hr : asObject q = some r) :
    Untagged r := by
  cases q with
  | leaf v =>
      obtain ⟨w, rfl⟩ := asObject_leaf hr
      exact untagged_leaf w
  | record a cls fields => exact Option.some.inj hr ▸ hq
  | array a elems => exact Option.some.inj hr ▸ hq

theorem objChild_eq (s : Ast) (key : String) : objChild s key = (child s key).bind asObject := by
  rw [objChild]
  cases child s key with
  | none => rfl
  | some r => cases r <;> rfl

theorem child_substitute (s : Ast) (key : String) :
    child (s.substitute put) key = (child s key).map (Tree.fieldSubstitute put) := by
  cases s with
  | leaf v => rw [Tree.substitute_leaf]; rfl
  | array a elems => rw [Tree.substitute_array]; rfl
  | record a cls fields =>
      rw [Tree.substitute_record, child, child]
      induction fields with
      | nil => rfl
      | cons f fields ih =>
          obtain ⟨k, r⟩ := f
          rw [List.map_cons, List.lookup_cons, List.lookup_cons]
          cases key == k with
          | true => rfl
          | false => exact ih

/-- Only nodes are replaced. -/
def OnlyNodes (put : Value → Option (List Ast)) : Prop := ∀ x, put (.leaf x) = none

theorem OnlyNodes.fieldSubstitute_leaf (hput : OnlyNodes put) (x : Leaf) :
    Tree.fieldSubstitute put (.leaf (.leaf x) : Ast) = .leaf (.leaf x) := by
  rw [Tree.fieldSubstitute, Tree.val_leaf, hput x, Tree.substitute_leaf]
  rfl

theorem OnlyNodes.text_eq (hput : OnlyNodes put) {s : Ast} {key : String}
    (htext : textual (child s key) = true) : text (s.substitute put) key = text s key := by
  rw [text, text, child_substitute]
  cases hc : child s key with
  | none => rfl
  | some r =>
      rw [hc] at htext
      cases r with
      | record a cls fields => cases htext
      | array a elems => cases htext
      | leaf v =>
          cases v with
          | ref a => cases htext
          | leaf x => rw [Option.map_some, hput.fieldSubstitute_leaf]

/-- An object in a property afterwards: an object that was there, or what has replaced it. -/
theorem OnlyNodes.objChild_cases (hput : OnlyNodes put) {s : Ast} (hs : s.Closed) {key : String}
    {r : Ast} (hr : objChild (s.substitute put) key = some r) :
    ∃ r₀, objChild s key = some r₀ ∧ (r = r₀.substitute put ∨
      ∃ qs, put r₀.val = some qs ∧ ∃ q ∈ qs, asObject q = some r) := by
  rw [objChild_eq, child_substitute] at hr
  rw [objChild_eq]
  cases hc : child s key with
  | none =>
      rw [hc] at hr
      cases hr
  | some r₀ =>
      rw [hc, Option.map_some, Option.bind_some] at hr
      cases r₀ with
      | leaf v =>
          cases v with
          | ref a => exact absurd rfl (hs _ (child_mem_subtrees hc) a)
          | leaf x =>
              rw [hput.fieldSubstitute_leaf] at hr
              refine ⟨r, hr, Or.inl ?_⟩
              obtain ⟨y, rfl⟩ := asObject_leaf hr
              rw [Tree.substitute_leaf]
      | record a cls fields =>
          refine ⟨_, rfl, ?_⟩
          rcases Tree.fieldSubstitute_cases put (.record a cls fields) with heq | ⟨qs, hqs, hmem⟩
          · left
            rw [heq, Tree.substitute_record] at hr
            rw [Tree.substitute_record]
            exact (Option.some.inj hr).symm
          · exact Or.inr ⟨qs, hqs, _, hmem, hr⟩
      | array a elems =>
          refine ⟨_, rfl, ?_⟩
          rcases Tree.fieldSubstitute_cases put (.array a elems) with heq | ⟨qs, hqs, hmem⟩
          · left
            rw [heq, Tree.substitute_array] at hr
            rw [Tree.substitute_array]
            exact (Option.some.inj hr).symm
          · exact Or.inr ⟨qs, hqs, _, hmem, hr⟩

section

variable (hput : OnlyNodes put) (huntagged : ∀ v qs, put v = some qs → ∀ q ∈ qs, Untagged q)
include hput

theorem ofType_substitute {s : Ast} (hreg : Regular s) (hclosed : s.Closed) {type key : String}
    {r : Ast} (hr : ofType type key (s.substitute put) = some r) :
    ∃ r₀, ofType type key s = some r₀ ∧ (r = r₀.substitute put ∨
      ∃ qs, put r₀.val = some qs ∧ ∃ q ∈ qs, asObject q = some r) := by
  rw [ofType, hput.text_eq (hreg s s.self_mem_subtrees).1] at hr
  rw [ofType]
  split at hr
  · next htype =>
      rw [if_pos htype]
      exact hput.objChild_cases hclosed hr
  · cases hr

theorem ofType_substitute_none {s : Ast} (hreg : Regular s) (hclosed : s.Closed)
    {type key : String} (hnone : ofType type key s = none) :
    ofType type key (s.substitute put) = none := by
  cases hr : ofType type key (s.substitute put) with
  | none => rfl
  | some r =>
      obtain ⟨r₀, hr₀, -⟩ := ofType_substitute hput hreg hclosed hr
      rw [hnone] at hr₀
      cases hr₀

theorem metaInline_substitute_none {s : Ast} (hreg : Regular s) (hclosed : s.Closed)
    (hnone : metaInline s = none) : metaInline (s.substitute put) = none := by
  rw [metaInline, hput.text_eq (hreg s s.self_mem_subtrees).2.1]
  rw [metaInline] at hnone
  split at hnone
  · next hop =>
      rw [if_pos hop]
      exact ofType_substitute_none hput hreg hclosed hnone
  · next hop => rw [if_neg hop]

include huntagged

/-- The expression of a statement becomes a tag of neither kind. -/
theorem exprStmt_substitute_none {f : Ast → Option Ast} (hleaf : ∀ v, f (.leaf v) = none)
    (hf : ∀ r, Regular r → r.Closed → f r = none → f (r.substitute put) = none)
    (hq : ∀ q, Untagged q → f q = none) {s : Ast} (hreg : Regular s) (hclosed : s.Closed)
    (hnone : (exprStmt s).bind f = none) : (exprStmt (s.substitute put)).bind f = none := by
  cases hr : exprStmt (s.substitute put) with
  | none => rfl
  | some r =>
      obtain ⟨r₀, hr₀, rfl | ⟨qs, hqs, q, hmem, hqr⟩⟩ := ofType_substitute hput hreg hclosed hr
      · rw [exprStmt, hr₀, Option.bind_some] at hnone
        rw [Option.bind_some]
        have hobj : objChild s "expression" = some r₀ := by
          rw [ofType] at hr₀
          split at hr₀
          · exact hr₀
          · cases hr₀
        rcases mem_subtrees_of_objChild hobj with hsub | ⟨v, rfl, -⟩
        · exact hf r₀ (fun r hr => hreg r (Tree.subtrees_trans hr hsub)) (hclosed.subtree hsub)
            hnone
        · rw [Tree.substitute_leaf]
          exact hleaf _
      · exact hq r ((huntagged _ _ hqs q hmem).asObject hqr)

theorem found_substitute_false {s : Ast} (hreg : Regular s) (hclosed : s.Closed)
    (hfound : found false s = .nothing) : found false (s.substitute put) = .nothing := by
  obtain ⟨hinline, hstmt, hexec, hstmt'⟩ := found_eq_nothing.mp hfound
  refine found_eq_nothing.mpr ⟨metaInline_substitute_none hput hreg hclosed hinline, ?_,
    ofType_substitute_none hput hreg hclosed hexec, ?_⟩
  · exact exprStmt_substitute_none (f := metaInline) hput huntagged (fun _ => rfl)
      (fun r hr hc => metaInline_substitute_none hput hr hc) (fun q hq => hq.not_tag.1) hreg
      hclosed hstmt
  · exact exprStmt_substitute_none (f := metaExecStmt) hput huntagged (fun _ => rfl)
      (fun r hr hc => ofType_substitute_none hput hr hc) (fun q hq => hq.not_tag.2) hreg
      hclosed hstmt'

/-- What was no tag becomes none. -/
theorem found_substitute {s : Ast} (hreg : Regular s) (hclosed : s.Closed) (wrapped : Bool)
    (hfound : found wrapped s = .nothing) : found wrapped (s.substitute put) = .nothing := by
  cases wrapped with
  | false => exact found_substitute_false hput huntagged hreg hclosed hfound
  | true =>
      by_contra hne
      obtain ⟨r, hr⟩ := Option.isSome_iff_exists.mp (exprStmt_of_found hne)
      obtain ⟨r₀, hr₀, -⟩ := ofType_substitute hput hreg hclosed hr
      have hsome : (exprStmt s).isSome := by
        rw [exprStmt, hr₀]
        rfl
      rw [found_of_exprStmt hsome] at hfound
      have hfalse := found_substitute_false hput huntagged hreg hclosed hfound
      exact hne (found_wrapped (fun _ => rfl) hfalse)

end

/-! ### The tags that are left -/

/-- All tags of the largest depth are replaced, by parts without tags, and nothing else is. -/
structure Resolves (t : Ast) (depth : ℕ) (put : Value → Option (List Ast)) : Prop where
  deepest : ∀ tag ∈ tagsOf t, tag.depth ≤ depth
  filled : ∀ tag ∈ tagsOf t, tag.depth = depth → put tag.node ≠ none
  only : ∀ v, put v ≠ none → ∃ tag ∈ tagsOf t, tag.node = v
  slots : ∀ tag ∈ tagsOf t, ∀ qs, put tag.node = some qs → ∀ key, tag.info.value = .inr key →
    ∃ q, qs = [q]
  untagged : ∀ v qs, put v = some qs → ∀ q ∈ qs, Untagged q

theorem node_of_mem_tagsOf {tag : Tag} (htag : tag ∈ tagsOf t) : ∃ a, tag.node = .ref a := by
  obtain ⟨e, ⟨-, b, hb⟩, hat⟩ := exists_at htag
  exact ⟨b, hat.child.symm.trans hb⟩

theorem Resolves.onlyNodes {depth : ℕ} (hres : Resolves t depth put) : OnlyNodes put := by
  intro x
  by_contra hne
  obtain ⟨tag, htag, hnode⟩ := hres.only _ hne
  obtain ⟨a, ha⟩ := node_of_mem_tagsOf htag
  cases hnode.symm.trans ha

/-- The tag is a node of the subtree. -/
def Tag.In (tag : Tag) (s : Ast) : Prop := ∃ a ∈ s.labels, tag.node = .ref a

theorem Tag.Below.isIn {tag : Tag} {s : Ast} (htag : tag.Below s) : tag.In s := by
  obtain ⟨a, ha, hnode⟩ := htag
  exact ⟨a, tagPlaces_subset_labels s ha, hnode⟩

theorem Tag.In.not_disjoint {tag : Tag} {s s' : Ast} (hs : tag.In s) (hs' : tag.In s') :
    ¬ List.Disjoint s.labels s'.labels := by
  obtain ⟨a, ha, hnode⟩ := hs
  obtain ⟨b, hb, hnode'⟩ := hs'
  have hab : (Val.ref a : Value) = .ref b := hnode.symm.trans hnode'
  cases hab
  exact fun hd => hd ha hb

/-- A list has the tags of the AST among those of some subtrees. -/
structure Lists (t : Ast) (parts : List Ast) (tags : List Tag) : Prop where
  sub : tags ⊆ tagsOf t
  all : ∀ tag ∈ tagsOf t, ∀ s ∈ parts, tag.In s → tag ∈ tags

/-- The parts of a subtree have the tags of the AST that are listed for them. -/
theorem Lists.part {β : Type} {l : List β} {part : β → Ast} {below : β → List Tag}
    (hlists : Lists t (l.map part) (l.flatMap below)) (hbelow : ∀ x ∈ l, ∀ tag ∈ below x,
      tag.In (part x)) (hdistinct : (l.flatMap fun x => (part x).labels).Nodup) {x : β}
    (hx : x ∈ l) : Lists t [part x] (below x) where
  sub tag htag := hlists.sub (List.mem_flatMap.mpr ⟨x, hx, htag⟩)
  all tag htag s hs hin := by
    rw [List.mem_singleton] at hs
    subst hs
    obtain ⟨y, hy, hmem⟩ := List.mem_flatMap.mp
      (hlists.all tag htag _ (List.mem_map_of_mem hx) hin)
    by_cases heq : x = y
    · exact heq ▸ hmem
    · have hsymm : Std.Symm (Function.onFun List.Disjoint fun x => (part x).labels) :=
        ⟨fun _ _ hd => List.disjoint_symm hd⟩
      exact absurd ((List.nodup_flatMap.mp hdistinct).2.forall hx hy heq)
        (hin.not_disjoint (hbelow y hy tag hmem))

theorem exists_ownTag (node : Value) (info : Bool → NodeInfo) (above : List Bool) {f : Found}
    (hf : f ≠ .nothing) :
    ∃ tag ∈ ownTag node info above f, tag.node = node ∧ tag.depth = above.length + 1 := by
  cases f with
  | nothing => exact absurd rfl hf
  | inline isExpr arg => exact ⟨_, List.mem_singleton_self _, rfl, rfl⟩
  | exec isExpr body => exact ⟨_, List.mem_singleton_self _, rfl, rfl⟩

theorem ownTag_spec {node : Value} {info : Bool → NodeInfo} {above : List Bool} {f : Found}
    {tag : Tag} (htag : tag ∈ ownTag node info above f) :
    tag.node = node ∧ tag.depth = above.length + 1 := by
  cases f with
  | nothing => cases htag
  | inline isExpr arg =>
      rw [ownTag, List.mem_singleton] at htag
      exact htag ▸ ⟨rfl, rfl⟩
  | exec isExpr body =>
      rw [ownTag, List.mem_singleton] at htag
      exact htag ▸ ⟨rfl, rfl⟩

theorem length_aboveInside_le (above : List Bool) (f : Found) :
    (aboveInside above f).length ≤ above.length + 1 := by
  cases f <;> simp [aboveInside]

/-- The tags below a node are those of its properties. -/
theorem Lists.fields {a : ℕ} {cls : ObjClass} {fields : List (String × Ast)}
    {info : Bool → NodeInfo} {above : List Bool} {f : Found} {tags : List Tag}
    (hlists : Lists t [.record a cls fields] (ownTag (.ref a) info above f ++ tags))
    (hdistinct : (Tree.record a cls fields : Ast).labels.Nodup) :
    Lists t (fields.map Prod.snd) tags where
  sub tag htag := hlists.sub (List.mem_append_right _ htag)
  all tag htag s hs hin := by
    rw [Tree.labels_record, List.nodup_cons] at hdistinct
    obtain ⟨g, hg, rfl⟩ := List.mem_map.mp hs
    obtain ⟨b, hb, hnode⟩ := hin
    have hmem : b ∈ fields.flatMap fun g => g.2.labels := List.mem_flatMap.mpr ⟨g, hg, hb⟩
    have hin : tag.In (.record a cls fields) :=
      ⟨b, by rw [Tree.labels_record]; exact List.mem_cons_of_mem _ hmem, hnode⟩
    rcases List.mem_append.mp (hlists.all tag htag _ (List.mem_singleton_self _) hin) with
      hown | htags
    · have hab : (Val.ref b : Value) = .ref a := hnode.symm.trans (ownTag_spec hown).1
      cases hab
      exact absurd hmem hdistinct.1
    · exact htags

theorem Lists.elems {a : ℕ} {elems : List Ast} {tags : List Tag}
    (hlists : Lists t [.array a elems] tags) : Lists t (elems.map id) tags where
  sub := hlists.sub
  all tag htag s hs hin := by
    rw [List.map_id] at hs
    obtain ⟨b, hb, hnode⟩ := hin
    refine hlists.all tag htag _ (List.mem_singleton_self _) ⟨b, ?_, hnode⟩
    rw [Tree.labels_array]
    exact List.mem_cons_of_mem _ (List.mem_flatMap.mpr ⟨s, hs, hb⟩)

section

variable {depth : ℕ} (hres : Resolves t depth put) (hreg : Regular t) (ht : t.Proper)
include hres ht

/-- What is put in a property is one part. -/
theorem Resolves.slot {a : ℕ} {cls : ObjClass} {fields : List (String × Ast)}
    (hmem : Tree.record a cls fields ∈ t.subtrees) {f : String × Ast} (hf : f ∈ fields)
    {qs : List Ast} (hqs : put f.2.val = some qs) : Untagged (Tree.fieldSubstitute put f.2) := by
  obtain ⟨tag, htag, hnode⟩ := hres.only f.2.val (by rw [hqs]; exact Option.some_ne_none _)
  obtain ⟨e, ⟨he, b, hb⟩, hat⟩ := exists_at htag
  have hedge : (⟨a, .inr f.1, f.2⟩ : AstEdge) ∈ t.edges :=
    Tree.mem_edges.mpr ⟨_, hmem, List.mem_map_of_mem hf⟩
  have hval : f.2.val = .ref b := hnode.symm.trans (hat.child.symm.trans hb)
  have hplace : tag.info.value = .inr f.1 := by
    rw [hat.place, ht.edge_eq he hedge hb hval]
  obtain ⟨q, rfl⟩ := hres.slots tag htag qs (hnode ▸ hqs) f.1 hplace
  have hq : Tree.fieldSubstitute put f.2 = q := by
    rw [Tree.fieldSubstitute, hqs]
    rfl
  exact hq ▸ hres.untagged _ _ hqs q (List.mem_singleton_self q)

include hreg

/-- A quasi is still one, as there are no tags in it. -/
theorem Resolves.quazi {s : Ast} (hs : s ∈ t.subtrees) (hquazi : (metaQuaziStmt s).isSome)
    (hlists : Lists t [s] []) : (metaQuaziStmt (s.substitute put)).isSome := by
  have hnone : ∀ r ∈ s.subtrees, put r.val = none := by
    intro r hr
    by_contra hne
    obtain ⟨tag, htag, hnode⟩ := hres.only _ hne
    obtain ⟨a, ha⟩ := node_of_mem_tagsOf htag
    have hlabel := (ht.subtree hs).closed.label? hr (hnode.symm.trans ha)
    have hin : tag.In s := ⟨a, List.mem_filterMap.mpr ⟨r, hr, hlabel⟩, ha⟩
    exact absurd (hlists.all tag htag s (List.mem_singleton_self s) hin) List.not_mem_nil
  rw [metaQuaziStmt, ofType] at hquazi
  rw [metaQuaziStmt, ofType, hres.onlyNodes.text_eq (hreg s hs).1]
  split at hquazi
  · next htype =>
      rw [if_pos htype, objChild_eq, child_substitute]
      rw [objChild_eq] at hquazi
      cases hc : child s "body" with
      | none =>
          rw [hc] at hquazi
          cases hquazi
      | some r =>
          have hsame : Tree.fieldSubstitute put r = r.substitute put := by
            rw [Tree.fieldSubstitute, hnone r (child_mem_subtrees hc)]
            rfl
          rw [hc, Option.bind_some] at hquazi
          rw [Option.map_some, Option.bind_some, hsame]
          cases r with
          | leaf v =>
              rw [Tree.substitute_leaf]
              exact hquazi
          | record b cls fields =>
              rw [Tree.substitute_record]
              rfl
          | array b elems =>
              rw [Tree.substitute_array]
              rfl
  · cases hquazi

/-- The tags of a subtree that is still there. -/
def Shallow (t : Ast) (depth : ℕ) (put : Value → Option (List Ast)) (s : Ast) : Prop :=
  ∀ above above' wrapped info info', above'.length ≤ above.length →
    Lists t [s] (tagsAt false above wrapped info s) → put s.val = none →
      ∀ tag ∈ tagsAt false above' wrapped info' (s.substitute put), tag.depth < depth

theorem Resolves.shallow_fields {a : ℕ} {cls : ObjClass} {fields : List (String × Ast)}
    (hmem : Tree.record a cls fields ∈ t.subtrees)
    (ih : ∀ f ∈ fields, Shallow t depth put f.2) {above above' : List Bool}
    (hle : above'.length ≤ above.length)
    (hlists : Lists t (fields.map Prod.snd) (fieldTags false a cls fields above)) :
    ∀ tag ∈ fieldTags false a cls
        (fields.map fun f => (f.1, Tree.fieldSubstitute put f.2)) above', tag.depth < depth := by
  intro tag htag
  have hdistinct := (ht.subtree hmem).labels
  rw [Tree.labels_record, List.nodup_cons] at hdistinct
  have htype := hres.onlyNodes.text_eq (hreg _ hmem).1
  rw [Tree.substitute_record] at htype
  obtain ⟨g, hg, htag⟩ := mem_fieldTags.mp htag
  rw [htype] at htag
  obtain ⟨f, hf, rfl⟩ := List.mem_map.mp hg
  dsimp only at htag
  cases hput : put f.2.val with
  | some qs =>
      rw [hres.slot ht hmem hf hput] at htag
      cases htag
  | none =>
      have hsame : Tree.fieldSubstitute put f.2 = f.2.substitute put := by
        rw [Tree.fieldSubstitute, hput]
        rfl
      rw [hsame] at htag
      rw [fieldTags_false] at hlists
      refine ih f hf _ _ _ _ _ hle (hlists.part (fun g hg tag htag => ?_) hdistinct.2 hf) hput
        tag htag
      exact (place_of_mem_tagsAt _ _ _ _ _ tag htag).1.isIn

theorem Resolves.shallow (s : Ast) (hs : s ∈ t.subtrees) : Shallow t depth put s := by
  induction s using Tree.induct with
  | leaf v =>
      intro above above' wrapped info info' _ _ _ tag htag
      rw [Tree.substitute_leaf] at htag
      cases htag
  | record a cls fields ih =>
      intro above above' wrapped info info' hle hlists hnone tag htag
      have ih' : ∀ f ∈ fields, Shallow t depth put f.2 := fun f hf =>
        ih f hf (Tree.subtrees_trans (Tree.subtrees_of_field hf f.2.self_mem_subtrees) hs)
      by_cases hquazi : (metaQuaziStmt (.record a cls fields)).isSome
      · rw [tagsAt_eq_nil_of_quazi hquazi] at hlists
        have hquazi' := hres.quazi hreg ht hs hquazi hlists
        rw [Tree.substitute_record] at hquazi' htag
        rw [tagsAt_eq_nil_of_quazi hquazi'] at htag
        cases htag
      · rw [tagsAt_eq_of_quazi_none hquazi] at hlists
        rw [Tree.substitute_record] at htag
        -- a tag was one before, at a depth that is not the largest
        have hfound := found_substitute hres.onlyNodes hres.untagged
          (fun r hr => hreg r (Tree.subtrees_trans hr hs)) (ht.subtree hs).closed wrapped
        rw [Tree.substitute_record] at hfound
        have hown : found wrapped (.record a cls fields) ≠ .nothing →
            above.length + 1 < depth := by
          intro hne
          obtain ⟨own, hmem, hnode, habove⟩ := exists_ownTag (Val.ref a) info above hne
          have htag' := hlists.sub (List.mem_append_left _ hmem)
          refine lt_of_le_of_ne (habove ▸ hres.deepest own htag') fun heq => ?_
          exact hres.filled own htag' (habove.trans heq) (hnode ▸ hnone)
        rcases mem_tagsAt_record htag with htag | htag
        · have hne : found wrapped (.record a cls fields) ≠ .nothing := by
            intro heq
            rw [hfound heq] at htag
            cases htag
          rw [(ownTag_spec htag).2]
          exact lt_of_le_of_lt (Nat.succ_le_succ hle) (hown hne)
        · refine hres.shallow_fields hreg ht hs ih' ?_ (hlists.fields (ht.subtree hs).labels)
            tag htag
          cases hf : found wrapped (.record a cls fields) with
          | nothing =>
              rw [hfound hf]
              exact hle
          | inline isExpr arg => exact (length_aboveInside_le _ _).trans (Nat.succ_le_succ hle)
          | exec isExpr body => exact (length_aboveInside_le _ _).trans (Nat.succ_le_succ hle)
  | array a elems ih =>
      intro above above' wrapped info info' hle hlists hnone tag htag
      have hdistinct := (ht.subtree hs).labels
      rw [Tree.labels_array, List.nodup_cons] at hdistinct
      rw [Tree.substitute_array] at htag
      obtain ⟨c, hc, htag⟩ := mem_tagsAt_array.mp htag
      obtain ⟨e, he, hc⟩ := List.mem_flatMap.mp hc
      rw [Tree.elemSubstitute] at hc
      cases hput : put e.val with
      | some qs =>
          rw [hput] at hc
          rw [hres.untagged _ _ hput c hc] at htag
          cases htag
      | none =>
          rw [hput, Option.getD_none, List.mem_singleton] at hc
          subst hc
          rw [tagsAt, tagsElems_eq] at hlists
          refine ih e he (Tree.subtrees_trans (Tree.subtrees_of_elem he e.self_mem_subtrees) hs)
            _ _ _ _ _ hle (hlists.elems.part (fun e he tag htag => ?_) hdistinct.2 he) hput tag htag
          exact (place_of_mem_tagsAt _ _ _ _ _ tag htag).1.isIn

/-- The tags of the tree that is left are less deep than those that were replaced. -/
theorem Resolves.depth_lt {tag : Tag} (htag : tag ∈ tagsOf (t.substitute put)) :
    tag.depth < depth := by
  cases t with
  | leaf v =>
      rw [Tree.substitute_leaf] at htag
      cases htag
  | array a elems =>
      rw [Tree.substitute_array] at htag
      cases htag
  | record a cls fields =>
      have hself : Tree.record a cls fields ∈ (Tree.record a cls fields : Ast).subtrees :=
        Tree.self_mem_subtrees _
      rw [Tree.substitute_record, tagsOf, tagsBelow_record] at htag
      refine hres.shallow_fields hreg ht hself (fun f hf => hres.shallow hreg ht f.2
        (Tree.subtrees_of_field hf f.2.self_mem_subtrees)) le_rfl ⟨?_, ?_⟩ tag htag
      · rw [tagsOf, tagsBelow_record]
        exact List.Subset.refl _
      · intro tag htag _ _ _
        rw [tagsOf, tagsBelow_record] at htag
        exact htag

end

end MetaMonkey.Staging
