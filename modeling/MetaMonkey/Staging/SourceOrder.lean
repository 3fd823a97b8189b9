import MetaMonkey.Staging.InStep
import MetaMonkey.Staging.NodeBuilder

/-!
The order of the walk against the order of the source. The walk takes the
properties of a node from the last to the first, the elements of an array from
the first to the last.
-/

namespace MetaMonkey.Staging

open ObjectGraph Js AstNode StagedNodeIterator NodeBuilder

/-! ### Source positions -/

/-- The properties of a node in the order of the source, as the grammar has it.
Parameters and their defaults are mixed; other properties hold no nodes with
tags. -/
def sourceGroups : List (String × List (List String)) :=
  [("Program", [["body"]]), ("BlockStatement", [["body"]]), ("MetaQuaziStatement", [["body"]]),
    ("MetaExecStatement", [["body"]]), ("ExpressionStatement", [["expression"]]),
    ("IfStatement", [["test"], ["consequent"], ["alternate"]]),
    ("LabeledStatement", [["label"], ["body"]]), ("ThrowStatement", [["argument"]]),
    ("ReturnStatement", [["argument"]]),
    ("ForStatement", [["init"], ["test"], ["update"], ["body"]]),
    ("ForInStatement", [["left"], ["right"], ["body"]]),
    ("ForOfStatement", [["left"], ["right"], ["body"]]), ("WithStatement", [["object"], ["body"]]),
    ("WhileStatement", [["test"], ["body"]]), ("DoWhileStatement", [["body"], ["test"]]),
    ("SwitchStatement", [["discriminant"], ["cases"]]),
    ("TryStatement", [["block"], ["guardedHandlers"], ["handler"], ["finalizer"]]),
    ("BinaryExpression", [["left"], ["right"]]), ("UnaryExpression", [["argument"]]),
    ("AssignmentExpression", [["left"], ["right"]]), ("UpdateExpression", [["argument"]]),
    ("LogicalExpression", [["left"], ["right"]]),
    ("ConditionalExpression", [["test"], ["consequent"], ["alternate"]]),
    ("SequenceExpression", [["expressions"]]), ("CallExpression", [["callee"], ["arguments"]]),
    ("NewExpression", [["callee"], ["arguments"]]),
    ("MemberExpression", [["object"], ["property"]]), ("ArrayExpression", [["elements"]]),
    ("SpreadExpression", [["expression"]]), ("Property", [["key"], ["value"]]),
    ("ObjectExpression", [["properties"]]), ("YieldExpression", [["argument"]]),
    ("ComprehensionBlock", [["left"], ["right"]]),
    ("ComprehensionExpression", [["body"], ["blocks"], ["filter"]]),
    ("GeneratorExpression", [["body"], ["blocks"], ["filter"]]),
    ("LetExpression", [["head"], ["body"]]), ("LetStatement", [["head"], ["body"]]),
    ("VariableDeclaration", [["declarations"]]), ("VariableDeclarator", [["id"], ["init"]]),
    ("SwitchCase", [["test"], ["consequent"]]), ("CatchClause", [["param"], ["guard"], ["body"]]),
    ("ObjectPattern", [["properties"]]), ("ArrayPattern", [["elements"]]),
    ("ModuleDeclaration", [["body"]]),
    ("FunctionDeclaration", [["id"], ["params", "defaults"], ["body"]]),
    ("FunctionExpression", [["id"], ["params", "defaults"], ["body"]]),
    ("ArrowExpression", [["id"], ["params", "defaults"], ["body"]])]

/-- The place of a property among the groups of its node. -/
def sourceGroup (type key : String) : Option ℕ :=
  (sourceGroups.lookup type).bind fun groups => groups.findIdx? fun group => key ∈ group

/-- Every builder function defines its properties in the order of the source,
the defaults of a function aside. -/
theorem nodeProps_sourceGroup : ∀ e ∈ nodeProps, ("loc" :: "type" :: e.2).Pairwise fun k l =>
    ∀ i ∈ sourceGroup e.1 k, ∀ j ∈ sourceGroup e.1 l,
      i < j ∨ k = "params" ∧ l = "defaults" := by
  decide

/-- The cells at which a tag may be found, inside a quasi or not. -/
def tagPlaces (t : Ast) : List ℕ :=
  (t.subtrees.filter fun s => found false s ≠ .nothing).filterMap Tree.label?

/-- The tags of the node are below properties of the grammar, where those of
one group are written before those of the next. -/
def Written (begin : ℕ → ℕ) (type : String) (fields : List (String × Ast)) : Prop :=
  (∀ f ∈ fields, tagPlaces f.2 ≠ [] → (sourceGroup type f.1).isSome) ∧
    ∀ f ∈ fields, ∀ g ∈ fields, ∀ i ∈ sourceGroup type f.1, ∀ j ∈ sourceGroup type g.1,
      i < j → ∀ p ∈ tagPlaces f.2, ∀ q ∈ tagPlaces g.2, begin p < begin q

instance (begin : ℕ → ℕ) (type : String) (fields : List (String × Ast)) :
    Decidable (Written begin type fields) :=
  inferInstanceAs (Decidable (_ ∧ _))

/-- What the parser guarantees of a node or an array, `begin` being the
positions at which the tags start. -/
def ParsedNode (begin : ℕ → ℕ) : Ast → Prop
  | .leaf _ => True
  | .record a cls fields => (∃ f ∈ fields, tagPlaces f.2 ≠ []) →
      ∃ e ∈ nodeProps, Builds e (.record a cls fields) ∧ Written begin e.1 fields
  | .array _ elems => elems.Pairwise fun e e' =>
      ∀ p ∈ tagPlaces e, ∀ q ∈ tagPlaces e', begin p < begin q

instance (begin : ℕ → ℕ) (t : Ast) : Decidable (ParsedNode begin t) :=
  match t with
  | .leaf _ => inferInstanceAs (Decidable True)
  | .record _ _ _ => inferInstanceAs (Decidable (_ → _))
  | .array _ _ => inferInstanceAs (Decidable (List.Pairwise _ _))

def Parsed (begin : ℕ → ℕ) (t : Ast) : Prop := ∀ s ∈ t.subtrees, ParsedNode begin s

instance (begin : ℕ → ℕ) (t : Ast) : Decidable (Parsed begin t) :=
  inferInstanceAs (Decidable (∀ s ∈ t.subtrees, ParsedNode begin s))

variable (begin : ℕ → ℕ)

/-- The place of a tag in the source. -/
def Tag.position (tag : Tag) : ℕ :=
  match tag.node with
  | .ref a => begin a
  | .leaf _ => 0

/-- The tag stands at one of the places of the subtree. -/
def Tag.Below (tag : Tag) (s : Ast) : Prop := ∃ a ∈ tagPlaces s, tag.node = .ref a

/-- Tags below two properties of one node come in the order opposite to that
of the properties. -/
def Opposite (tags : List Tag) (t : Ast) : Prop :=
  ∀ a cls fields, Tree.record a cls fields ∈ t.subtrees → fields.Pairwise fun f g =>
    ∀ x ∈ tags, ∀ y ∈ tags, x.Below f.2 → y.Below g.2 → y.position begin < x.position begin

/-- No node has some of the tags below two of its properties, other than the
parameters and the defaults of a function, whose defaults then come first. -/
def OneProperty (tags : List Tag) (t : Ast) : Prop :=
  ∀ a cls fields, Tree.record a cls fields ∈ t.subtrees → fields.Pairwise fun f g =>
    ∀ x ∈ tags, ∀ y ∈ tags, x.Below f.2 → y.Below g.2 →
      f.1 = "params" ∧ g.1 = "defaults" ∧ y.position begin < x.position begin

/-- The tags of one depth. -/
def ofDepth (depth : ℕ) (tags : List Tag) : List Tag := tags.filter fun tag => tag.depth = depth

/-- The tags come in the order of the source. -/
def InSourceOrder (tags : List Tag) : Prop :=
  tags.Pairwise fun x y => x.position begin < y.position begin

/-! ### The tags of a subtree -/

variable {begin}

theorem found_ne_nothing {wrapped : Bool} {t : Ast} (ht : found wrapped t ≠ .nothing) :
    found false t ≠ .nothing := by
  cases hi : metaInline t with
  | some arg => simp [found, hi]
  | none =>
      cases hs : (exprStmt t).bind metaInline with
      | some arg => simp [found, hi, hs]
      | none =>
          cases he : metaExecStmt t with
          | some body => simp [found, hi, hs, he]
          | none => simpa [found, hi, hs, he] using ht

theorem tagPlaces_of_subtree {s t : Ast} (hs : s ∈ t.subtrees) : tagPlaces s ⊆ tagPlaces t := by
  intro a ha
  obtain ⟨r, hr, hra⟩ := List.mem_filterMap.mp ha
  obtain ⟨hmem, hfound⟩ := List.mem_filter.mp hr
  exact List.mem_filterMap.mpr
    ⟨r, List.mem_filter.mpr ⟨Tree.subtrees_trans hmem hs, hfound⟩, hra⟩

theorem tagPlaces_subset_labels (t : Ast) : tagPlaces t ⊆ t.labels := by
  intro a ha
  obtain ⟨r, hr, hra⟩ := List.mem_filterMap.mp ha
  exact List.mem_filterMap.mpr ⟨r, (List.mem_filter.mp hr).1, hra⟩

theorem mem_tagsAt_record {rev : Bool} {above : List Bool} {wrapped : Bool}
    {info : Bool → NodeInfo} {a : ℕ} {cls : ObjClass} {fields : List (String × Ast)} {tag : Tag}
    (htag : tag ∈ tagsAt rev above wrapped info (.record a cls fields)) :
    (tag ∈ ownTag (.ref a) info above (found wrapped (.record a cls fields))) ∨
      tag ∈ fieldTags rev a cls fields
        (aboveInside above (found wrapped (.record a cls fields))) := by
  rw [tagsAt_record, nodeTags] at htag
  split at htag
  · cases htag
  · exact List.mem_append.mp htag

theorem mem_fieldTags {rev : Bool} {a : ℕ} {cls : ObjClass} {fields : List (String × Ast)}
    {above : List Bool} {tag : Tag} :
    tag ∈ fieldTags rev a cls fields above ↔ ∃ f ∈ fields, tag ∈ tagsAt rev above
      (equals (text (.record a cls fields) "type") "ExpressionStatement" && f.1 = "expression")
      (fun isExpr => ⟨isExpr, .ref a, .inr f.1⟩) f.2 := by
  rw [fieldTags, inWalk]
  cases rev <;> simp

theorem mem_tagsAt_array {rev : Bool} {above : List Bool} {wrapped : Bool}
    {info : Bool → NodeInfo} {a : ℕ} {elems : List Ast} {tag : Tag} :
    tag ∈ tagsAt rev above wrapped info (.array a elems) ↔ ∃ e ∈ elems, tag ∈ tagsAt rev above
      false (fun isExpr => ⟨isExpr, .ref a, .inl e.val⟩) e := by
  rw [tagsAt, tagsElems_eq, List.mem_flatMap]

/-- A tag is found at one of the places of the subtree, deeper than what is
around it. -/
theorem place_of_mem_tagsAt (rev : Bool) (t : Ast) : ∀ above wrapped info,
    ∀ tag ∈ tagsAt rev above wrapped info t,
      tag.Below t ∧ above.length < tag.depth := by
  induction t using Tree.induct with
  | leaf v => exact fun _ _ _ _ htag => absurd htag (by simp [tagsAt])
  | record a cls fields ih =>
      intro above wrapped info tag htag
      rcases mem_tagsAt_record htag with htag | htag
      · have hplace : found wrapped (.record a cls fields) ≠ .nothing →
            a ∈ tagPlaces (.record a cls fields) := fun hf =>
          List.mem_filterMap.mpr ⟨_, List.mem_filter.mpr
            ⟨Tree.self_mem_subtrees _, decide_eq_true (found_ne_nothing hf)⟩, rfl⟩
        cases hf : found wrapped (.record a cls fields) with
        | nothing =>
            rw [hf] at htag
            cases htag
        | inline isExpr arg =>
            rw [hf, ownTag, List.mem_singleton] at htag
            subst htag
            exact ⟨⟨a, hplace (by simp [hf]), rfl⟩, Nat.lt_succ_self _⟩
        | exec isExpr body =>
            rw [hf, ownTag, List.mem_singleton] at htag
            subst htag
            exact ⟨⟨a, hplace (by simp [hf]), rfl⟩, Nat.lt_succ_self _⟩
      · obtain ⟨f, hf, htag⟩ := mem_fieldTags.mp htag
        obtain ⟨⟨b, hb, hnode⟩, hdepth⟩ := ih f hf _ _ _ tag htag
        refine ⟨⟨b, tagPlaces_of_subtree (Tree.subtrees_of_field hf f.2.self_mem_subtrees) hb,
          hnode⟩, Nat.lt_of_le_of_lt ?_ hdepth⟩
        cases found wrapped (.record a cls fields) <;> simp [aboveInside]
  | array a elems ih =>
      intro above wrapped info tag htag
      obtain ⟨e, he, htag⟩ := mem_tagsAt_array.mp htag
      obtain ⟨⟨b, hb, hnode⟩, hdepth⟩ := ih e he _ _ _ tag htag
      exact ⟨⟨b, tagPlaces_of_subtree (Tree.subtrees_of_elem he e.self_mem_subtrees) hb, hnode⟩,
        hdepth⟩

theorem Tag.Below.mono {tag : Tag} {s t : Ast} (htag : tag.Below s) (hs : s ∈ t.subtrees) :
    tag.Below t := by
  obtain ⟨a, ha, hnode⟩ := htag
  exact ⟨a, tagPlaces_of_subtree hs ha, hnode⟩

/-- Subtrees with different cells have different tags. -/
theorem not_below_of_disjoint {tag : Tag} {s t : Ast} (hst : List.Disjoint s.labels t.labels)
    (hs : tag.Below s) : ¬ tag.Below t := by
  rintro ⟨b, hb, hb'⟩
  obtain ⟨a, ha, ha'⟩ := hs
  have hab : (Val.ref a : Value) = .ref b := ha'.symm.trans hb'
  cases hab
  exact hst (tagPlaces_subset_labels s ha) (tagPlaces_subset_labels t hb)

theorem Parsed.subtree {s t : Ast} (ht : Parsed begin t) (hs : s ∈ t.subtrees) :
    Parsed begin s :=
  fun r hr => ht r (Tree.subtrees_trans hr hs)

/-! ### The order of the walk -/

theorem mem_ofDepth {depth : ℕ} {tags : List Tag} {x : Tag} :
    x ∈ ofDepth depth tags ↔ x ∈ tags ∧ x.depth = depth := by
  simp [ofDepth]

theorem opposite_congr {tags tags' : List Tag} {t : Ast}
    (htags : ∀ x : Tag, x.Below t → (x ∈ tags ↔ x ∈ tags')) :
    Opposite begin tags t ↔ Opposite begin tags' t := by
  refine forall₃_congr fun a cls fields => forall_congr' fun hmem => ?_
  refine ⟨fun hp => hp.imp_of_mem ?_, fun hp => hp.imp_of_mem ?_⟩ <;>
  · intro f g hf hg hfg x hx y hy hxf hyg
    have hxt := hxf.mono (Tree.subtrees_trans (Tree.subtrees_of_field hf
      f.2.self_mem_subtrees) hmem)
    have hyt := hyg.mono (Tree.subtrees_trans (Tree.subtrees_of_field hg
      g.2.self_mem_subtrees) hmem)
    first
      | exact hfg x ((htags x hxt).mpr hx) y ((htags y hyt).mpr hy) hxf hyg
      | exact hfg x ((htags x hxt).mp hx) y ((htags y hyt).mp hy) hxf hyg

/-- At a node the tags below each property are opposite among themselves, and
those below two properties come in the opposite order. -/
theorem opposite_record {tags : List Tag} {a : ℕ} {cls : ObjClass}
    {fields : List (String × Ast)} {below : String × Ast → List Tag}
    (hbelow : ∀ f ∈ fields, ∀ x ∈ below f, x.Below f.2)
    (htags : ∀ f ∈ fields, ∀ x : Tag, x.Below f.2 → (x ∈ tags ↔ x ∈ below f)) :
    Opposite begin tags (.record a cls fields) ↔
      (fields.Pairwise fun f g => ∀ x ∈ below f, ∀ y ∈ below g,
        y.position begin < x.position begin) ∧
      ∀ f ∈ fields, Opposite begin (below f) f.2 := by
  have hroot : (fields.Pairwise fun f g => ∀ x ∈ tags, ∀ y ∈ tags, x.Below f.2 → y.Below g.2 →
        y.position begin < x.position begin) ↔
      fields.Pairwise fun f g => ∀ x ∈ below f, ∀ y ∈ below g,
        y.position begin < x.position begin := by
    refine List.Pairwise.iff_of_mem fun {f g} hf hg => ⟨?_, ?_⟩
    · intro hfg x hx y hy
      exact hfg x ((htags f hf x (hbelow f hf x hx)).mpr hx) y
        ((htags g hg y (hbelow g hg y hy)).mpr hy) (hbelow f hf x hx) (hbelow g hg y hy)
    · intro hfg x hx y hy hxf hyg
      exact hfg x ((htags f hf x hxf).mp hx) y ((htags g hg y hyg).mp hy)
  have hfields : ∀ f ∈ fields, (Opposite begin tags f.2 ↔ Opposite begin (below f) f.2) :=
    fun f hf => opposite_congr (htags f hf)
  constructor
  · intro hopp
    exact ⟨hroot.mp (hopp a cls fields (Tree.self_mem_subtrees _)), fun f hf =>
      (hfields f hf).mp fun b cls' fields' hmem =>
        hopp b cls' fields' (Tree.subtrees_of_field hf hmem)⟩
  · rintro ⟨hpair, hopp⟩ b cls' fields' hmem
    rcases List.mem_cons.mp (Tree.subtrees_record a cls fields ▸ hmem) with heq | hmem
    · cases heq
      exact hroot.mpr hpair
    · obtain ⟨f, hf, hmem⟩ := List.mem_flatMap.mp hmem
      exact (hfields f hf).mpr (hopp f hf) b cls' fields' hmem

/-- The walk takes the properties from the last to the first. -/
theorem inSourceOrder_fields {fields : List (String × Ast)} {below : String × Ast → List Tag} :
    InSourceOrder begin (fields.map below).reverse.flatten ↔
      (fields.Pairwise fun f g => ∀ x ∈ below f, ∀ y ∈ below g,
        y.position begin < x.position begin) ∧
      ∀ f ∈ fields, InSourceOrder begin (below f) := by
  rw [InSourceOrder, List.pairwise_flatten, List.pairwise_reverse, List.pairwise_map, and_comm]
  refine and_congr (List.Pairwise.iff_of_mem fun {f g} _ _ => ?_) ?_
  · exact ⟨fun hfg x hx y hy => hfg y hy x hx, fun hfg y hy x hx => hfg x hx y hy⟩
  · simp only [List.mem_reverse, List.forall_mem_map]
    exact Iff.rfl

theorem ofDepth_flatten (depth : ℕ) (l : List (List Tag)) :
    ofDepth depth l.flatten = (l.map (ofDepth depth)).flatten := by
  rw [ofDepth, List.filter_flatten]
  rfl

theorem ofDepth_fieldTags (depth a : ℕ) (cls : ObjClass) (fields : List (String × Ast))
    (above : List Bool) :
    ofDepth depth (fieldTags true a cls fields above) =
      (fields.map fun f => ofDepth depth (tagsAt true above
        (equals (text (.record a cls fields) "type") "ExpressionStatement" && f.1 = "expression")
        (fun isExpr => ⟨isExpr, .ref a, .inr f.1⟩) f.2)).reverse.flatten := by
  rw [fieldTags, inWalk, if_pos rfl, ofDepth_flatten, List.map_reverse, List.map_map]
  rfl

/-- What is shown of every subtree by induction. -/
def Ordered (begin : ℕ → ℕ) (depth : ℕ) (t : Ast) : Prop :=
  t.labels.Nodup → Parsed begin t → ∀ above wrapped info,
    (InSourceOrder begin (ofDepth depth (tagsAt true above wrapped info t)) ↔
      Opposite begin (ofDepth depth (tagsAt true above wrapped info t)) t)

/-- The tags below the properties of a node. -/
theorem ordered_fields {depth a : ℕ} {cls : ObjClass} {fields : List (String × Ast)}
    (ih : ∀ f ∈ fields, Ordered begin depth f.2)
    (hdistinct : (fields.flatMap fun f => f.2.labels).Nodup)
    (hparsed : Parsed begin (.record a cls fields)) (above : List Bool) :
    InSourceOrder begin (ofDepth depth (fieldTags true a cls fields above)) ↔
      Opposite begin (ofDepth depth (fieldTags true a cls fields above))
        (.record a cls fields) := by
  set below : String × Ast → List Tag := fun f => ofDepth depth (tagsAt true above
    (equals (text (.record a cls fields) "type") "ExpressionStatement" && f.1 = "expression")
    (fun isExpr => ⟨isExpr, .ref a, .inr f.1⟩) f.2) with hdef
  have hbelow : ∀ f ∈ fields, ∀ x ∈ below f, x.Below f.2 := fun f _ x hx =>
    (place_of_mem_tagsAt true f.2 _ _ _ x (mem_ofDepth.mp hx).1).1
  have htags : ∀ f ∈ fields, ∀ x : Tag, x.Below f.2 →
      (x ∈ ofDepth depth (fieldTags true a cls fields above) ↔ x ∈ below f) := by
    intro f hf x hxf
    rw [ofDepth_fieldTags]
    simp only [List.mem_flatten, List.mem_reverse, List.mem_map]
    constructor
    · rintro ⟨_, ⟨g, hg, rfl⟩, hx⟩
      by_cases hfg : g = f
      · exact hfg ▸ hx
      · exact absurd hxf (not_below_of_disjoint (disjoint_labels hdistinct hg hf hfg)
          (hbelow g hg x hx))
    · exact fun hx => ⟨_, ⟨f, hf, rfl⟩, hx⟩
  rw [opposite_record hbelow htags, ofDepth_fieldTags, inSourceOrder_fields]
  refine and_congr_right fun _ => forall₂_congr fun f hf => ?_
  exact ih f hf ((List.nodup_flatMap.mp hdistinct).1 f hf)
    (hparsed.subtree (Tree.subtrees_of_field hf f.2.self_mem_subtrees)) _ _ _

theorem opposite_nil (t : Ast) : Opposite begin [] t :=
  fun _ _ _ _ => List.pairwise_of_forall fun _ _ _ hx => absurd hx List.not_mem_nil

/-- A tag in front of deeper ones. -/
theorem ordered_cons {depth a : ℕ} {cls : ObjClass} {fields : List (String × Ast)}
    {own : Tag} {rest : List Tag} (hnode : own.node = .ref a)
    (hfields : a ∉ fields.flatMap fun f => f.2.labels) (hrest : ∀ x ∈ rest, own.depth < x.depth)
    (hiff : InSourceOrder begin (ofDepth depth rest) ↔
      Opposite begin (ofDepth depth rest) (.record a cls fields)) :
    InSourceOrder begin (ofDepth depth (own :: rest)) ↔
      Opposite begin (ofDepth depth (own :: rest)) (.record a cls fields) := by
  by_cases hdepth : own.depth = depth
  · have hempty : ofDepth depth rest = [] := by
      rw [ofDepth, List.filter_eq_nil_iff]
      intro x hx
      have hlt := hrest x hx
      simp only [decide_eq_true_eq]
      omega
    have hown : ofDepth depth (own :: rest) = [own] := by
      rw [ofDepth, List.filter_cons_of_pos (by simpa using hdepth)]
      exact congrArg _ hempty
    have hnot : ∀ f ∈ fields, ¬ own.Below f.2 := by
      rintro f hf ⟨b, hb, hb'⟩
      cases hnode.symm.trans hb'
      exact hfields (List.mem_flatMap.mpr ⟨f, hf, tagPlaces_subset_labels _ hb⟩)
    have hnone : ∀ f ∈ fields, ∀ x ∈ (fun _ : String × Ast => ([] : List Tag)) f, x.Below f.2 :=
      fun _ _ _ hx => absurd hx List.not_mem_nil
    have hown_iff : ∀ f ∈ fields, ∀ x : Tag, x.Below f.2 → (x ∈ [own] ↔ x ∈ ([] : List Tag)) := by
      intro f hf x hxf
      refine iff_of_false (fun hx => ?_) List.not_mem_nil
      rw [List.mem_singleton.mp hx] at hxf
      exact hnot f hf hxf
    rw [hown, opposite_record hnone hown_iff]
    refine iff_of_true (List.pairwise_singleton _ _) ⟨?_, fun f _ => opposite_nil _⟩
    exact List.pairwise_of_forall fun _ _ _ hx => absurd hx List.not_mem_nil
  · have hskip : ofDepth depth (own :: rest) = ofDepth depth rest := by
      rw [ofDepth, List.filter_cons_of_neg (by simpa using hdepth)]
      rfl
    rwa [hskip]

theorem ordered_record {depth a : ℕ} {cls : ObjClass} {fields : List (String × Ast)}
    (ih : ∀ f ∈ fields, Ordered begin depth f.2) :
    Ordered begin depth (.record a cls fields) := by
  intro hdistinct hparsed above wrapped info
  rw [Tree.labels_record, List.nodup_cons] at hdistinct
  have hfields := ordered_fields ih hdistinct.2 hparsed
  have hdeep : ∀ k, ∀ x ∈ fieldTags true a cls fields (k :: above),
      above.length + 1 < x.depth := by
    intro k x hx
    obtain ⟨f, _, hx⟩ := mem_fieldTags.mp hx
    exact (place_of_mem_tagsAt true f.2 _ _ _ x hx).2
  rw [tagsAt_record, nodeTags]
  split
  · exact ⟨fun _ => opposite_nil _, fun _ => List.Pairwise.nil⟩
  · cases found wrapped (.record a cls fields) with
    | nothing => exact hfields above
    | inline isExpr arg => exact ordered_cons rfl hdistinct.1 (hdeep false) (hfields _)
    | exec isExpr body => exact ordered_cons rfl hdistinct.1 (hdeep true) (hfields _)

theorem ordered_array {depth a : ℕ} {elems : List Ast} (ih : ∀ e ∈ elems, Ordered begin depth e) :
    Ordered begin depth (.array a elems) := by
  intro hdistinct hparsed above wrapped info
  rw [Tree.labels_array, List.nodup_cons, List.nodup_flatMap] at hdistinct
  set tags : Ast → List Tag := fun e => tagsAt true above false
    (fun isExpr => ⟨isExpr, .ref a, .inl e.val⟩) e with hdef
  have htagsAt : tagsAt true above wrapped info (.array a elems) = elems.flatMap tags := by
    rw [tagsAt, tagsElems_eq]
  have hbelow : ∀ e ∈ elems, ∀ x ∈ tags e, x.Below e := fun e _ x hx =>
    (place_of_mem_tagsAt true e _ _ _ x hx).1
  have hdisj : ∀ e ∈ elems, ∀ e' ∈ elems, e ≠ e' → List.Disjoint e.labels e'.labels := by
    have : Std.Symm (Function.onFun List.Disjoint fun e : Ast => e.labels) :=
      ⟨fun _ _ hd => List.disjoint_symm hd⟩
    exact fun e he e' he' hne => hdistinct.2.2.forall he he' hne
  have hopp : Opposite begin (ofDepth depth (elems.flatMap tags)) (.array a elems) ↔
      ∀ e ∈ elems, Opposite begin (ofDepth depth (tags e)) e := by
    have hcongr : ∀ e ∈ elems, (Opposite begin (ofDepth depth (elems.flatMap tags)) e ↔
        Opposite begin (ofDepth depth (tags e)) e) := by
      refine fun e he => opposite_congr fun x hxe => ?_
      simp only [mem_ofDepth, List.mem_flatMap]
      refine and_congr_left fun _ => ⟨?_, fun hx => ⟨e, he, hx⟩⟩
      rintro ⟨e', he', hx⟩
      by_cases heq : e' = e
      · exact heq ▸ hx
      · exact absurd hxe (not_below_of_disjoint (hdisj e' he' e he heq) (hbelow e' he' x hx))
    constructor
    · exact fun hall e he => (hcongr e he).mp fun b cls fields hmem =>
        hall b cls fields (Tree.subtrees_of_elem he hmem)
    · intro hall b cls fields hmem
      rcases List.mem_cons.mp (Tree.subtrees_array a elems ▸ hmem) with heq | hmem
      · cases heq
      · obtain ⟨e, he, hmem⟩ := List.mem_flatMap.mp hmem
        exact (hcongr e he).mpr (hall e he) b cls fields hmem
  rw [htagsAt, hopp, InSourceOrder, ofDepth, List.filter_flatMap, List.pairwise_flatMap]
  have hpair : elems.Pairwise fun e e' => ∀ x ∈ ofDepth depth (tags e),
      ∀ y ∈ ofDepth depth (tags e'), x.position begin < y.position begin := by
    refine (hparsed (.array a elems) (Tree.self_mem_subtrees _)).imp_of_mem ?_
    intro e e' he he' hlt x hx y hy
    obtain ⟨p, hp, hpx⟩ := hbelow e he x (mem_ofDepth.mp hx).1
    obtain ⟨q, hq, hqy⟩ := hbelow e' he' y (mem_ofDepth.mp hy).1
    simpa [Tag.position, hpx, hqy] using hlt p hp q hq
  refine (and_iff_left hpair).trans (forall₂_congr fun e he => ?_)
  exact ih e he (hdistinct.2.1 e he)
    (hparsed.subtree (Tree.subtrees_of_elem he e.self_mem_subtrees)) _ _ _

theorem ordered (depth : ℕ) (t : Ast) : Ordered begin depth t := by
  induction t using Tree.induct with
  | leaf v => exact fun _ _ _ _ _ =>
      ⟨fun _ a cls fields hmem => absurd hmem (by simp), fun _ => List.Pairwise.nil⟩
  | record a cls fields ih => exact ordered_record ih
  | array a elems ih => exact ordered_array ih

/-- Of the properties of a parsed node only the defaults of a function are
defined after what they precede in the source. -/
theorem opposite_iff {t : Ast} (ht : Parsed begin t) (tags : List Tag) :
    Opposite begin tags t ↔ OneProperty begin tags t := by
  refine forall₃_congr fun a cls fields => forall_congr' fun hmem => ?_
  constructor
  · intro hopp
    by_cases hplaces : ∃ f ∈ fields, tagPlaces f.2 ≠ []
    · obtain ⟨e, he, ⟨hkeys, -⟩, hsome, hwritten⟩ := ht _ hmem hplaces
      have hgroups : fields.Pairwise fun f g => ∀ i ∈ sourceGroup e.1 f.1,
          ∀ j ∈ sourceGroup e.1 g.1, i < j ∨ f.1 = "params" ∧ g.1 = "defaults" := by
        have hnames := nodeProps_sourceGroup e he
        rw [← hkeys] at hnames
        exact List.pairwise_map.mp hnames
      refine (hopp.and hgroups).imp_of_mem ?_
      rintro f g hf hg ⟨hfg, hgroup⟩ x hx y hy ⟨p, hp, hpx⟩ ⟨q, hq, hqy⟩
      have hlt := hfg x hx y hy ⟨p, hp, hpx⟩ ⟨q, hq, hqy⟩
      obtain ⟨i, hi⟩ := Option.isSome_iff_exists.mp
        (hsome f hf (List.ne_nil_of_mem hp))
      obtain ⟨j, hj⟩ := Option.isSome_iff_exists.mp
        (hsome g hg (List.ne_nil_of_mem hq))
      rcases hgroup i hi j hj with hij | ⟨hparams, hdefaults⟩
      · have hlt' := hwritten f hf g hg i hi j hj hij p hp q hq
        simp only [Tag.position, hpx, hqy] at hlt
        omega
      · exact ⟨hparams, hdefaults, hlt⟩
    · refine List.Pairwise.imp_of_mem ?_ hopp
      rintro f g hf - - x - y - ⟨p, hp, -⟩
      exact absurd ⟨f, hf, List.ne_nil_of_mem hp⟩ hplaces
  · exact fun hone => hone.imp fun hfg x hx y hy hxf hyg => (hfg x hx y hy hxf hyg).2.2

theorem oneProperty_perm {tags tags' : List Tag} (hperm : tags.Perm tags') {t : Ast} :
    OneProperty begin tags t ↔ OneProperty begin tags' t := by
  simp only [OneProperty, hperm.mem_iff]

/-- The tags of one depth come in the order of the source exactly when no node
has several of them below different properties. -/
theorem inSourceOrder_iff {t : Ast} (hprogram : text t "type" = js "Program")
    (hdistinct : t.labels.Nodup) (hparsed : Parsed begin t) (depth : ℕ) :
    InSourceOrder begin (ofDepth depth (tagsBelow true t)) ↔
      OneProperty begin (ofDepth depth (tagsOf t)) t := by
  cases t with
  | leaf v => cases hprogram
  | array a elems => cases hprogram
  | record a cls fields =>
      have hperm : (ofDepth depth (tagsBelow true (.record a cls fields))).Perm
          (ofDepth depth (tagsOf (.record a cls fields))) := (tagsBelow_perm _).filter _
      rw [Tree.labels_record, List.nodup_cons] at hdistinct
      rw [← oneProperty_perm hperm, ← opposite_iff hparsed]
      simp only [tagsBelow_record]
      exact ordered_fields (fun f _ => ordered depth f.2) hdistinct.2 hparsed []

/-! ### The code of a stage -/

variable (begin)

/-- The code of a stage is one fragment for each tag of its depth, in the order
of the source. -/
structure FollowsSource (fuel : ℕ) (h : JSHeap) (depth : ℕ) (t : Ast) (stage : Stage) :
    Prop where
  reports : reportsOf fuel t.val h = (tagsBelow true t).map Tag.report
  inStep : InStep fuel h depth (reportsOf fuel t.val h) stage
  order : InSourceOrder begin (ofDepth depth (tagsBelow true t))

variable {begin} {h : JSHeap}

/-- After a stage has been collected its code follows the source exactly when
every tag of its depth can be printed and no node has several of them below
different properties. -/
theorem collect_followsSource_iff {t : Ast} {fuel depth : ℕ} (hh : NoBoxedTypes h)
    (hholds : h.Holds t) (hclosed : t.Closed) (htextual : Textual t)
    (hprogram : text t "type" = js "Program") (hdistinct : t.labels.Nodup)
    (hparsed : Parsed begin t) (hfuel : t.height < fuel) {stage stage' : Stage} {h' : JSHeap}
    (hrun : collect fuel t.val depth (h, stage) = .ok () (h', stage')) :
    FollowsSource begin fuel h depth t stage' ↔
      (∀ r ∈ reportsOf fuel t.val h, r.depth = depth → r.Printable fuel h) ∧
        OneProperty begin (ofDepth depth (tagsOf t)) t := by
  rw [← inSourceOrder_iff hprogram hdistinct hparsed, ← collect_inStep_iff hh hrun]
  refine ⟨fun hf => ⟨hf.inStep, hf.order⟩, fun ⟨hstep, horder⟩ => ⟨?_, hstep, horder⟩⟩
  have hprint := (collect_inStep_iff hh hrun).mp hstep
  obtain ⟨e, c, hrec, hcollect⟩ := collect_eq hh hprint stage
  rw [hrun] at hcollect
  cases e with
  | some e => cases hcollect
  | none =>
      have hobject : isObject t.val = true := by
        cases t with
        | leaf v => cases hprogram
        | record a cls fields => rfl
        | array a elems => rfl
      have ht := isAst_of_run hholds hclosed htextual hobject hrec
      have hwalk := iterateStagedNodes_run ht hprogram hdistinct hfuel
      split at hwalk
      · obtain ⟨s, hs, -⟩ := hwalk
        cases hrec.symm.trans hs
      · rw [reportsOf, hwalk]

/-- The AST of `.!f + .!g;`, its cells numbered in the order of the source. -/
def sumOfTags : Ast :=
  program 0 1 [exprStatement 2 (node 3 "BinaryExpression" [("operator", .leaf (string (js "+"))),
    ("left", inlineTag 4 (identifier 5 "f")), ("right", inlineTag 6 (identifier 7 "g"))])]

/-- The code of `.!f + .!g;` inlines the right operand first. -/
theorem collect_sumOfTags :
    Parsed id sumOfTags ∧
      ∃ s, collect 30 sumOfTags.val 1 (.ofTrees [sumOfTags], emptyStage) = .ok () s ∧
        s.2.code = js "inline( g );inline( f );" ∧
        ¬ FollowsSource id 30 (.ofTrees [sumOfTags]) 1 sumOfTags s.2 := by
  refine ⟨by decide, ?_⟩
  obtain ⟨_, s, hrun, hcode⟩ := exists_of_ended
    (r := collect 30 sumOfTags.val 1 (.ofTrees [sumOfTags], emptyStage))
    (f := fun x => x.2.code) (b := js "inline( g );inline( f );") (by decide)
  have hnot : ¬ InSourceOrder id (ofDepth 1 (tagsBelow true sumOfTags)) := by
    unfold InSourceOrder
    decide
  exact ⟨s, hrun, hcode, fun hfollows => hnot hfollows.order⟩

/-- The code of `.!f; .&;` follows the source. -/
theorem collect_followsSource_printableTags :
    ∃ s, collect 30 printableTags.val 1 (.ofTrees [printableTags], emptyStage) = .ok () s ∧
      FollowsSource id 30 (.ofTrees [printableTags]) 1 printableTags s.2 := by
  obtain ⟨_, s, hrun, -⟩ := exists_of_ended
    (r := collect 30 printableTags.val 1 (.ofTrees [printableTags], emptyStage))
    (f := fun _ => ()) (b := ()) (by decide)
  have horder : InSourceOrder id (ofDepth 1 (tagsBelow true printableTags)) := by
    unfold InSourceOrder
    decide
  exact ⟨s, hrun, (collect_followsSource_iff (noBoxedTypes_ofTrees (by decide)) (by decide)
    (by decide) (by decide) (by decide) (by decide) (by decide) (by decide) hrun).mpr
    ⟨by decide, (inSourceOrder_iff (by decide) (by decide) (by decide) 1).mp horder⟩⟩

end MetaMonkey.Staging
