import MetaMonkey.Frontend.QuasiText
import MetaMonkey.Staging.UnparseHeap

/-!
The evaluation of the text that is printed for a quasi. It makes a copy of the quasi with the
type of a program, unless a string does not stand for itself between quotes, a regular expression
is printed as an object, or the stringifier comes to a hole.
-/

namespace MetaMonkey.Frontend

open ObjectGraph Js Staging Unparse AstNode ObjectLiteral StringLiteral

variable {engine : JSONParser.Engine} {h h' : JSHeap} {t : Ast}

/-! ### Reading the text -/

def isPlain : Ast → Bool
  | .record _ cls _ => cls = .plain
  | _ => true

def isRawLeaf : Ast → Bool
  | .leaf (string s) => s.all fun c => c ≠ 34 && c ≠ 92 && !isRawEOLChar c
  | _ => true

theorem isRawLeaf_string {s : JSString} : isRawLeaf (.leaf (string s)) = true ↔ IsRaw s := by
  rw [isRawLeaf, List.all_eq_true]
  refine forall₂_congr fun c _ => ?_
  simp only [Bool.and_eq_true, decide_eq_true_eq, Bool.not_eq_true', and_assoc]

/-- The engine reads the numbers and names of the tree as it prints them. -/
def isReadBy (engine : JSONParser.Engine) : Ast → Bool
  | .leaf (number n) => !n.unsigned || engine.toDouble n.toString = n
  | .record _ _ fields => fields.all fun f => engine.atomToId (js f.1) = f.1
  | _ => true

/-- No regular expression is below. -/
def NoRegExps (t : Ast) : Prop := ∀ s ∈ t.subtrees, isPlain s = true

/-- The strings below are such that can stand between quotes as they are. -/
def RawStrings (t : Ast) : Prop := ∀ s ∈ t.subtrees, isRawLeaf s = true

def ReadBy (engine : JSONParser.Engine) (t : Ast) : Prop :=
  ∀ s ∈ t.subtrees, isReadBy engine s = true

instance (t : Ast) : Decidable (NoRegExps t) := inferInstanceAs (Decidable (∀ s ∈ t.subtrees, _))
instance (t : Ast) : Decidable (RawStrings t) := inferInstanceAs (Decidable (∀ s ∈ t.subtrees, _))
instance (t : Ast) : Decidable (ReadBy engine t) :=
  inferInstanceAs (Decidable (∀ s ∈ t.subtrees, _))

theorem readsAs_leafLiteral {v : Value} (hparsed : isParsed (.leaf v) = true)
    (hne : v ≠ undefined) (hraw : isRawLeaf (.leaf v) = true)
    (hread : isReadBy engine (.leaf v) = true) :
    ReadsAs engine (leafLiteral v) (.leaf v) := by
  match v with
  | string s => exact readsAs_string (isRawLeaf_string.mp hraw)
  | number n =>
      simp only [isParsed, isReadBy, Bool.or_eq_true, Bool.not_eq_true', decide_eq_true_eq]
        at hparsed hread
      by_cases hn : n.unsigned = true
      · exact readsAs_number hn (hread.resolve_left (by simp [hn]))
      · obtain rfl : n = .infinity false := hparsed.resolve_left hn
        exact readsAs_constant (p := .number (.infinity false)) (by decide) (by decide)
          ⟨73, js "nfinity", by decide, by decide⟩
  | boolean b =>
      cases b with
      | true =>
          exact readsAs_constant (by decide) (by decide) ⟨116, js "rue", by decide, by decide⟩
      | false =>
          exact readsAs_constant (by decide) (by decide) ⟨102, js "alse", by decide, by decide⟩
  | null =>
      exact readsAs_constant (by decide) (by decide) ⟨110, js "ull", by decide, by decide⟩
  | undefined => exact absurd rfl hne
  | .leaf (.wrapper q) => cases hparsed
  | .ref a => cases hparsed

/-- Where its strings are raw and it has no regular expression, the text of a quasi is that of a
copy of it. -/
theorem readsAs_literalText (ht : Quoted h t) (hne : t.val ≠ undefined) (hregular : Regular t)
    (hplain : NoRegExps t) (hraw : RawStrings t) (hread : ReadBy engine t) :
    ReadsAs engine (literalText t) t := by
  have hself := t.self_mem_subtrees
  have hparsed := ht.parsed t hself
  induction t using Tree.induct with
  | leaf v => exact readsAs_leafLiteral hparsed hne (hraw _ hself) (hread _ hself)
  | record a cls fields ih =>
      obtain rfl : cls = .plain := of_decide_eq_true (hplain _ hself)
      obtain ⟨distinct, -⟩ := ht.holds.shows
      rw [List.map_map] at distinct
      have hnames := hread _ hself
      rw [isReadBy, List.all_eq_true] at hnames
      rw [isParsed] at hparsed
      simp only [Bool.and_eq_true, List.all_eq_true, decide_eq_true_eq] at hparsed
      obtain ⟨⟨-, hfields⟩, -⟩ := hparsed
      rw [literalText, literalProperties_eq]
      refine readsAs_object ?_ distinct
      rw [List.forall₂_map_left_iff, List.forall₂_same]
      intro f hf
      have hmem : f.2 ∈ (Tree.record a ObjClass.plain fields).subtrees :=
        Tree.subtrees_of_field hf f.2.self_mem_subtrees
      have hpart := ht.subtree hmem
      refine ⟨(hfields f hf).1, of_decide_eq_true (hnames f hf), literalText f.2, by simp [js], ?_⟩
      exact ih f hf hpart (hfields f hf).2
        (fun s hs => hregular s (Tree.subtrees_trans hs hmem))
        (fun s hs => hplain s (Tree.subtrees_trans hs hmem))
        (fun s hs => hraw s (Tree.subtrees_trans hs hmem))
        (fun s hs => hread s (Tree.subtrees_trans hs hmem)) f.2.self_mem_subtrees
        (hpart.parsed _ f.2.self_mem_subtrees)
  | array a elems ih =>
      have helems := (regular_array_iff ht).mp hregular
      rw [literalText, literalElements_eq]
      refine readsAs_array ?_
      rw [List.forall₂_map_left_iff, List.forall₂_same]
      intro e he
      have hmem : e ∈ (Tree.array a elems : Ast).subtrees :=
        Tree.subtrees_of_elem he e.self_mem_subtrees
      have hpart := ht.subtree hmem
      have hne : e.val ≠ undefined := by
        intro hval
        have hobject := isObject_of_isRecord (helems e he).1
        rw [hval] at hobject
        cases hobject
      exact ih e he hpart hne (helems e he).2
        (fun s hs => hplain s (Tree.subtrees_trans hs hmem))
        (fun s hs => hraw s (Tree.subtrees_trans hs hmem))
        (fun s hs => hread s (Tree.subtrees_trans hs hmem)) e.self_mem_subtrees
        (hpart.parsed _ e.self_mem_subtrees)

/-- What literals make is no copy of a regular expression. -/
theorem noRegExps_of_copies {v : Value} (hv : Copies h t v) (hmade : MadeOfLiterals h v) :
    NoRegExps t := by
  induction t using Tree.induct generalizing v with
  | leaf x =>
      intro s hs
      rw [Tree.subtrees_leaf, List.mem_singleton] at hs
      rw [hs]
      rfl
  | record a cls fields ih =>
      obtain ⟨b, copied, distinct, rfl, hc, hcopied⟩ := hv
      cases hmade with
      | array hc' => cases hc.symm.trans hc'
      | object hc' hfields =>
          cases hc.symm.trans hc'
          intro s hs
          rcases List.mem_cons.mp (Tree.subtrees_record a _ fields ▸ hs) with rfl | hs
          · rfl
          · obtain ⟨f, hf, hs⟩ := List.mem_flatMap.mp hs
            obtain ⟨w, hmem, hw⟩ := hcopied.exists_mem f hf
            exact ih f hf hw (hfields _ hmem) s hs
  | array a elems ih =>
      obtain ⟨b, vs, rfl, hc, hcopied⟩ := hv
      cases hmade with
      | object hc' => cases hc.symm.trans hc'
      | array hc' hvs =>
          cases hc.symm.trans hc'
          intro s hs
          rcases List.mem_cons.mp (Tree.subtrees_array a elems ▸ hs) with rfl | hs
          · rfl
          · obtain ⟨e, he, hs⟩ := List.mem_flatMap.mp hs
            obtain ⟨w, hmem, hw⟩ := hcopied.exists_mem e he
            exact ih e he hw (hvs w hmem) s hs

/-- A property of a copy is a copy of the property. -/
theorem copies_getProperty {v : Value} (hv : Copies h t v) (key : String) {s : Ast}
    (hs : child t key = some s) : ∃ w, getProperty h v key = .ok w ∧ Copies h s w := by
  cases t with
  | leaf x => cases hs
  | array a elems => cases hs
  | record a cls fields =>
      obtain ⟨b, copied, distinct, rfl, hc, hcopied⟩ := hv
      obtain ⟨w, hw, hcopy⟩ := hcopied.lookup hs
      exact ⟨w, by simp [getProperty, hc, hw], hcopy⟩

theorem copies_getElement {a : ℕ} {e : Ast} {elems : List Ast} {v : Value}
    (hv : Copies h (.array a (e :: elems)) v) :
    ∃ w, getElement h v 0 = .ok w ∧ Copies h e w := by
  obtain ⟨b, vs, rfl, hc, w, rest, rfl, hw, -⟩ := hv
  exact ⟨w, by simp [getElement, arrayElems?, hc], hw⟩

/-! ### The quasi as a program -/

/-- A quasi without escapes, as a parser makes it. -/
structure EscapeFree (h : JSHeap) (t : Ast) : Prop extends Quoted h t where
  type : child t "type" = some (.leaf (string (js "MetaQuaziStatement")))
  nodup : t.labels.Nodup

def asProgram : Ast → Ast
  | .record a cls fields =>
      .record a cls (setField fields "type" (.leaf (string (js "Program"))))
  | t => t

theorem EscapeFree.record (ht : EscapeFree h t) : ∃ a cls fields, t = .record a cls fields ∧
    (fields.map Prod.fst).Nodup ∧
    fields.lookup "type" = some (.leaf (string (js "MetaQuaziStatement"))) := by
  have htype := ht.type
  cases t with
  | record a cls fields =>
      obtain ⟨distinct, -⟩ := ht.holds.shows
      rw [List.map_map] at distinct
      exact ⟨a, cls, fields, rfl, distinct, htype⟩
  | leaf v => cases htype
  | array a elems => cases htype

theorem forall_setField {β : Type} {fields : List (String × β)} {k : String} {v w : β}
    {P : β → Prop} (hdistinct : (fields.map Prod.fst).Nodup) (hk : fields.lookup k = some v)
    (hv : P v) (hw : P w) :
    (∀ f ∈ setField fields k w, P f.2) ↔ ∀ f ∈ fields, P f.2 := by
  have hmem : k ∈ fields.map Prod.fst := List.mem_map_of_mem (mem_of_lookup hk)
  rw [setField_of_mem w hmem, List.forall_mem_map]
  refine forall₂_congr fun f hf => ?_
  by_cases hfk : f.1 = k
  · have hfv : f.2 = v := by
      have hlookup := lookup_of_mem hdistinct hf
      rw [hfk, hk] at hlookup
      exact (Option.some.inj hlookup).symm
    rw [if_pos hfk, hfv]
    exact iff_of_true hw hv
  · rw [if_neg hfk]

theorem forall_keys_setField {β : Type} {fields : List (String × β)} {k : String} {v w : β}
    {P : String → Prop} (hk : fields.lookup k = some v) :
    (∀ f ∈ setField fields k w, P f.1) ↔ ∀ f ∈ fields, P f.1 := by
  rw [setField_of_mem w (List.mem_map_of_mem (mem_of_lookup hk)), List.forall_mem_map]
  refine forall₂_congr fun f _ => ?_
  by_cases hf : f.1 = k
  · rw [if_pos hf, hf]
  · rw [if_neg hf]

/-- What holds of the parts of a quasi holds of those of the program, up to the roots. -/
theorem EscapeFree.forall_asProgram (ht : EscapeFree h t) {P : Ast → Prop}
    (hroot : P (asProgram t) ↔ P t) (hold : P (.leaf (string (js "MetaQuaziStatement"))))
    (hnew : P (.leaf (string (js "Program")))) :
    (∀ s ∈ (asProgram t).subtrees, P s) ↔ ∀ s ∈ t.subtrees, P s := by
  obtain ⟨a, cls, fields, rfl, hdistinct, htype⟩ := ht.record
  have hleaf : ∀ v : Value, P (.leaf v) → ∀ s ∈ (Tree.leaf v : Ast).subtrees, P s := by
    intro v hv s hs
    rw [Tree.subtrees_leaf, List.mem_singleton] at hs
    exact hs ▸ hv
  have hfields := forall_setField (P := fun e : Ast => ∀ s ∈ e.subtrees, P s) hdistinct htype
    (hleaf _ hold) (hleaf _ hnew)
  rw [asProgram] at hroot ⊢
  simp only [Tree.subtrees_record, List.forall_mem_cons, List.forall_mem_flatMap]
  rw [hroot, hfields]

theorem EscapeFree.child_asProgram (ht : EscapeFree h t) (key : String) :
    child (asProgram t) key =
      if key = "type" then some (.leaf (string (js "Program"))) else child t key := by
  obtain ⟨a, cls, fields, rfl, -, -⟩ := ht.record
  rw [asProgram, child, child]
  split_ifs with hkey
  · rw [hkey, lookup_setField_self]
  · rw [lookup_setField_of_ne fields _ hkey]

theorem EscapeFree.regular_asProgram (ht : EscapeFree h t) :
    Regular (asProgram t) ↔ Regular t := by
  refine ht.forall_asProgram ?_ (by decide) (by decide)
  rw [ht.child_asProgram, ht.child_asProgram, ht.type]
  obtain ⟨a, cls, fields, rfl, -, -⟩ := ht.record
  rfl

theorem EscapeFree.textual_asProgram (ht : EscapeFree h t) : Textual (asProgram t) := by
  refine (ht.forall_asProgram ?_ (by decide) (by decide)).mpr ht.texts
  rw [ht.child_asProgram, ht.child_asProgram, ht.type]
  rfl

theorem EscapeFree.noRegExps_asProgram (ht : EscapeFree h t) :
    NoRegExps (asProgram t) ↔ NoRegExps t := by
  refine ht.forall_asProgram ?_ rfl rfl
  obtain ⟨a, cls, fields, rfl, -, -⟩ := ht.record
  rfl

theorem EscapeFree.rawStrings_asProgram (ht : EscapeFree h t) :
    RawStrings (asProgram t) ↔ RawStrings t := by
  refine ht.forall_asProgram ?_ (by decide) (by decide)
  obtain ⟨a, cls, fields, rfl, -, -⟩ := ht.record
  rfl

theorem EscapeFree.readBy_asProgram (ht : EscapeFree h t) (hread : ReadBy engine t) :
    ReadBy engine (asProgram t) := by
  refine (ht.forall_asProgram (P := fun s => isReadBy engine s = true) ?_ rfl rfl).mpr hread
  obtain ⟨a, cls, fields, rfl, -, -⟩ := ht.record
  rw [asProgram, isReadBy, isReadBy, List.all_eq_true, List.all_eq_true]
  exact forall_keys_setField (P := fun k => decide (engine.atomToId (js k) = k) = true) ht.type

theorem EscapeFree.height_asProgram (ht : EscapeFree h t) :
    (asProgram t).height ≤ t.height := by
  obtain ⟨a, cls, fields, rfl, hdistinct, htype⟩ := ht.record
  rw [asProgram]
  have hleaf : ∀ v : Value, (Tree.leaf v : Ast).height ≤ Tree.heightFields fields := fun v => by
    rw [ObjectGraph.Tree.height]
    exact Nat.zero_le _
  refine Nat.succ_le_succ (Tree.heightFields_le ?_)
  exact (forall_setField (P := fun e : Ast => e.height ≤ Tree.heightFields fields) hdistinct htype
    (hleaf _) (hleaf _)).mpr fun f hf => Tree.height_le_heightFields hf

theorem setField_map_val {fields : List (String × Ast)} {k : String}
    (hk : k ∈ fields.map Prod.fst) (v : Value) :
    (setField fields k (.leaf v)).map (fun f => (f.1, f.2.val)) =
      setField (fields.map fun f => (f.1, f.2.val)) k v := by
  have hkeys : (fields.map fun f => (f.1, f.2.val)).map Prod.fst = fields.map Prod.fst := by
    rw [List.map_map]
    rfl
  rw [setField_of_mem _ hk, setField_of_mem _ (hkeys ▸ hk), List.map_map, List.map_map]
  refine List.map_congr_left fun f _ => ?_
  by_cases hf : f.1 = k <;> simp [hf]

theorem holds_record {a : ℕ} {cls : ObjClass} {fields : List (String × Ast)}
    (hshows : h.Shows (.record a cls fields)) (hfields : ∀ f ∈ fields, h.Holds f.2) :
    h.Holds (.record a cls fields) := by
  intro s hs
  rcases List.mem_cons.mp (Tree.subtrees_record a cls fields ▸ hs) with rfl | hs
  · exact hshows
  · obtain ⟨f, hf, hs⟩ := List.mem_flatMap.mp hs
    exact hfields f hf s hs

/-- The quasi while its type is changed. -/
theorem EscapeFree.setProgram (ht : EscapeFree h t) :
    ∃ h₁, setProperty h t.val "type" (string (js "Program")) = .ok h₁ ∧
      h₁.Holds (asProgram t) := by
  obtain ⟨a, cls, fields, rfl, hdistinct, htype⟩ := ht.record
  obtain ⟨distinct, hc⟩ := ht.holds.shows
  have hnodup := ht.nodup
  rw [Tree.labels_record, List.nodup_cons, List.mem_flatMap] at hnodup
  have hmem : "type" ∈ fields.map Prod.fst := List.mem_map_of_mem (mem_of_lookup htype)
  refine ⟨_, setProperty_record hc _ _, holds_record ?_ ?_⟩
  · have hvals := setField_map_val hmem (string (js "Program"))
    refine ⟨hvals ▸ setField_distinct _ _ distinct, ?_⟩
    rw [Heap.write_cell_self _ hc]
    simp only [hvals]
  · refine (forall_setField (P := fun e => Heap.Holds _ e) hdistinct htype ?_ ?_).mpr
      fun f hf => (ht.holds.field hf).frame fun b hb => Heap.write_cell_of_ne _ _ ?_
    · intro s hs
      rw [Tree.subtrees_leaf, List.mem_singleton] at hs
      rw [hs]
      trivial
    · intro s hs
      rw [Tree.subtrees_leaf, List.mem_singleton] at hs
      rw [hs]
      trivial
    · rintro rfl
      exact hnodup.1 ⟨f, hf, hb⟩

theorem text_of_child {key : String} {s : JSString}
    (hs : child t key = some (.leaf (string s))) : text t key = s := by
  rw [text, hs]
  rfl

theorem EscapeFree.quoted_asProgram {h₁ : JSHeap} (ht : EscapeFree h t)
    (hholds : h₁.Holds (asProgram t)) : Quoted h₁ (asProgram t) where
  holds := hholds
  texts := ht.textual_asProgram
  closed := by
    refine (ht.forall_asProgram (P := fun s => ∀ a, s ≠ .leaf (.ref a)) ?_ nofun nofun).mpr
      ht.closed
    obtain ⟨a, cls, fields, rfl, -, -⟩ := ht.record
    exact iff_of_true nofun nofun
  parsed := by
    refine (ht.forall_asProgram (P := fun s => isParsed s = true) ?_ rfl rfl).mpr ht.parsed
    have hold : equals (text t "type") "ExpressionStatement" = false := by
      rw [text_of_child ht.type]
      decide
    have hnew : equals (text (asProgram t) "type") "ExpressionStatement" = false := by
      rw [text_of_child (ht.child_asProgram "type")]
      decide
    obtain ⟨a, cls, fields, rfl, hdistinct, htype⟩ := ht.record
    rw [asProgram] at hnew ⊢
    simp only [isParsed, hold, hnew, Bool.and_eq_true, List.all_eq_true, decide_eq_true_eq,
      forall_and, Bool.not_false, Bool.true_or, and_true]
    rw [forall_keys_setField (P := fun k => isPropertyName (js k) = true) htype,
      forall_setField (P := fun e : Ast => e.val ≠ undefined) hdistinct htype (by simp) (by simp)]
  noEscapes := by
    refine (ht.forall_asProgram ?_ (by decide) (by decide)).mpr ht.noEscapes
    have hold : equals (text t "type") "UnaryExpression" = false := by
      rw [text_of_child ht.type]
      decide
    have hnew : equals (text (asProgram t) "type") "UnaryExpression" = false := by
      rw [text_of_child (ht.child_asProgram "type")]
      decide
    rw [isEscape, isEscape, hold, hnew]
    rfl

/-! ### Printing a quasi -/

theorem unparse_quazi {fuel : ℕ} {val : Value} {indent : Text} {cprec : ℕ} {noIn : Bool}
    {s : JSHeap × Bool}
    (htype : getPropertyToString s.1 val "type" = .ok (js "MetaQuaziStatement")) :
    (unparse (fuel + 1)).expr val indent cprec noIn s =
      exprMetaQuazi (unparse fuel) val indent cprec noIn s := by
  have hread : toStr val "type" s = .ok (js "MetaQuaziStatement") s := reads_ok htype
  have hhandler : (exprHandlers (unparse fuel)).find?
      (fun e => equalsChars (js "MetaQuaziStatement") e.1) =
        some ("MetaQuaziStatement", exprMetaQuazi (unparse fuel)) := by
    simp +decide [exprHandlers]
  change unparseExpr (unparse fuel) val indent cprec noIn s = _
  rw [unparseExpr, bind_ok hread, hhandler]

/-- A quasi is printed as the initialiser of its copy, where no array has a hole. -/
theorem EscapeFree.prints (ht : EscapeFree h t) {fuel : ℕ} (hfuel : t.height < fuel)
    (indent : Text) (cprec : ℕ) (noIn flag : Bool) :
    (Regular t → ∃ s, (unparse fuel).expr t.val indent cprec noIn (h, flag) =
      .ok (some (literalText (asProgram t))) s) ∧
    (¬ Regular t → ∃ e s, (unparse fuel).expr t.val indent cprec noIn (h, flag) = .error e s) := by
  obtain ⟨n, rfl⟩ := Nat.exists_eq_succ_of_ne_zero (Nat.ne_zero_of_lt hfuel)
  obtain ⟨h₁, hset, hholds⟩ := ht.setProgram
  have hprogram := ht.quoted_asProgram hholds
  obtain ⟨a, cls, fields, rfl, hdistinct, htype⟩ := ht.record
  have hread : getPropertyToString h (.ref a) "type" = .ok (js "MetaQuaziStatement") := by
    rw [← Tree.val_record a cls fields, (ht.toQuoted.readable rfl).getPropertyToString (Or.inl rfl),
      text_of_child ht.type]
  have hstack := ht.height_asProgram.trans (Nat.le_of_lt_succ hfuel)
  have hstringify : PrintsObject h₁ (unparse n) (asProgram (.record a cls fields)) :=
    printsObject hprogram rfl hstack
  obtain ⟨hok, herror⟩ := hstringify flag
  have hval : (asProgram (.record a cls fields)).val = .ref a := rfl
  rw [ht.regular_asProgram, hval] at hok herror
  rw [Tree.val_record, Nat.succ_eq_add_one, unparse_quazi hread, exprMetaQuazi_eq _ hread hset]
  refine ⟨fun hregular => ?_, fun hhole => ?_⟩
  · obtain ⟨distinct, hc⟩ := hholds.shows
    have hback := setProperty_record hc "type" (string (js "MetaQuaziStatement"))
    have hwrite : (writes fun h => setProperty h (.ref a) "type"
        (string (js "MetaQuaziStatement"))) (h₁, flag) = .ok () (_, flag) := writes_ok hback
    exact ⟨_, by rw [bind_ok (hok hregular), bind_ok hwrite]; rfl⟩
  · obtain ⟨e, s, hrun⟩ := herror hhole
    exact ⟨e, s, bind_error hrun _⟩

/-! ### Lossless quasis -/

/-- Wherever the text of the quasi is evaluated, it makes a copy of the quasi as a program. -/
def Lossless (engine : JSONParser.Engine) (fuel : ℕ) (h : JSHeap) (t : Ast) : Prop :=
  ∀ indent cprec noIn flag, ∃ text s,
    (unparse fuel).expr t.val indent cprec noIn (h, flag) = .ok (some text) s ∧
      ∀ h₀, ∃ h' v, evaluate engine text h₀ = some (h', v) ∧ h₀.Extends h' ∧
        Copies h' (asProgram t) v

/-- The text of each string of the quasi evaluates to the string. -/
def StringsKept (engine : JSONParser.Engine) (fuel : ℕ) (h : JSHeap) (t : Ast) : Prop :=
  ∀ s, .leaf (string s) ∈ t.subtrees → ∀ flag, ∃ text r,
    stringifyObjectValue (unparse fuel) (string s) (h, flag) = .ok (some text) r ∧
      ∀ h₀, ∃ h', evaluate engine text h₀ = some (h', string s)

theorem stringsKept_iff {fuel : ℕ} : StringsKept engine fuel h t ↔ RawStrings t := by
  have hraw : RawStrings t ↔ ∀ s, .leaf (string s) ∈ t.subtrees → IsRaw s := by
    constructor
    · exact fun hraw s hs => isRawLeaf_string.mp (hraw _ hs)
    · intro hraw s hs
      match s with
      | .leaf (string s) => exact isRawLeaf_string.mpr (hraw s hs)
      | .leaf (number n) => rfl
      | .leaf (boolean b) => rfl
      | .leaf null => rfl
      | .leaf undefined => rfl
      | .leaf (.leaf (.wrapper p)) => rfl
      | .leaf (.ref a) => rfl
      | .record .. => rfl
      | .array .. => rfl
  rw [hraw]
  refine forall₂_congr fun s _ => ?_
  have hprints : ∀ flag, stringifyObjectValue (unparse fuel) (string s) (h, flag) =
      .ok (some (js "\"" ++ s ++ js "\"")) (h, flag) := by
    intro flag
    change joinVector [lit "\"", some s, lit "\""] (h, flag) = _
    rw [joinVector_run (by simp) (by simp)]
    simp
  constructor
  · intro hkept
    obtain ⟨text, r, hrun, heval⟩ := hkept false
    cases (hprints false).symm.trans hrun
    exact evaluate_string_iff.mp (heval h)
  · exact fun hs flag => ⟨_, _, hprints flag, fun h₀ => evaluate_string_iff.mpr hs⟩

/-- What is printed for a quasi without escapes evaluates to a copy of it, if it has no array
with a hole, no regular expression and no string with a quote, a backslash or the end of a line.
With such a string, the text of the string alone does not evaluate to it. -/
theorem quasi_lossless_iff (ht : EscapeFree h t) (hread : ReadBy engine t) {fuel : ℕ}
    (hfuel : t.height < fuel) :
    (Lossless engine fuel h t ∧ StringsKept engine fuel h t ↔
      Regular t ∧ NoRegExps t ∧ RawStrings t) ∧
    (Lossless engine fuel h t → Regular t ∧ NoRegExps t) := by
  have hnecessary : Lossless engine fuel h t → Regular t ∧ NoRegExps t := by
    intro hlossless
    obtain ⟨text, s, hrun, heval⟩ := hlossless (lit "") 0 false false
    obtain ⟨-, herror⟩ := ht.prints hfuel (lit "") 0 false false
    refine ⟨?_, ?_⟩
    · by_contra hhole
      obtain ⟨e, s', herr⟩ := herror hhole
      cases hrun.symm.trans herr
    · obtain ⟨h', v, hev, -, hv⟩ := heval h
      exact ht.noRegExps_asProgram.mp (noRegExps_of_copies hv (evaluate_madeOfLiterals hev))
  refine ⟨⟨fun ⟨hlossless, hkept⟩ => ?_, fun ⟨hregular, hplain, hraw⟩ => ?_⟩, hnecessary⟩
  · exact ⟨(hnecessary hlossless).1, (hnecessary hlossless).2, stringsKept_iff.mp hkept⟩
  · refine ⟨fun indent cprec noIn flag => ?_, stringsKept_iff.mpr hraw⟩
    obtain ⟨s, hrun⟩ := (ht.prints hfuel indent cprec noIn flag).1 hregular
    obtain ⟨h₁, -, hholds⟩ := ht.setProgram
    have hne : (asProgram t).val ≠ undefined := by
      obtain ⟨a, cls, fields, rfl, -, -⟩ := ht.record
      exact nofun
    have hreads := readsAs_literalText (ht.quoted_asProgram hholds) hne
      (ht.regular_asProgram.mpr hregular) (ht.noRegExps_asProgram.mpr hplain)
      (ht.rawStrings_asProgram.mpr hraw) (ht.readBy_asProgram hread)
    exact ⟨_, s, hrun, fun h₀ => hreads.evaluate h₀⟩

/-- The AST of `.< x = "it's"; 7; >.`, with the place of the number. -/
def rawQuasi : Ast :=
  quasiOf 0 1 [
    exprStatement 2 (node 3 "AssignmentExpression" [("operator", .leaf (string (js "="))),
      ("left", identifier 4 "x"),
      ("right", node 5 "Literal" [("value", .leaf (string (js "it's")))])]),
    exprStatement 6 (.record 7 .plain [
      ("loc", .record 8 .plain [
        ("start", .record 9 .plain [("line", .leaf (number (.ofDigit 1))),
          ("column", .leaf (number (.ofDigit 8)))]),
        ("source", .leaf (string (js "a.js")))]),
      ("type", .leaf (string (js "Literal"))), ("value", .leaf (number (.ofDigit 7)))])]

theorem quasi_lossless_rawQuasi :
    Lossless Json.digitEngine 9 (.ofTrees [rawQuasi]) rawQuasi ∧
      StringsKept Json.digitEngine 9 (.ofTrees [rawQuasi]) rawQuasi :=
  have hquasi : EscapeFree (.ofTrees [rawQuasi]) rawQuasi :=
    ⟨⟨by decide, by decide, by decide, by decide, by decide⟩, rfl, by decide⟩
  (quasi_lossless_iff hquasi (by decide) (by decide)).1.mpr ⟨by decide, by decide, by decide⟩

/-- The AST of `.< 'C:\\new'; >.`. -/
def pathQuasi : Ast :=
  quasiOf 0 1 [exprStatement 2 (node 3 "Literal" [("value", .leaf (string (js "C:\\new")))])]

/-- The value of the literal that is the first statement. -/
def literalValue (h : JSHeap) (quasi : Value) : Except Fault Value := do
  let stmt ← getElement h (← getProperty h quasi "body") 0
  getProperty h (← getProperty h stmt "expression") "value"

/-- The backslash and the letter are read as the end of a line. -/
theorem pathQuasi_lost :
    EscapeFree (.ofTrees [pathQuasi]) pathQuasi ∧ ReadBy Json.digitEngine pathQuasi ∧
      (evaluate Json.digitEngine (literalText (asProgram pathQuasi)) Heap.empty).map
        (fun r => literalValue r.1 r.2) = some (.ok (string (js "C:\new"))) ∧
      ¬ Lossless Json.digitEngine 9 (.ofTrees [pathQuasi]) pathQuasi := by
  have hquasi : EscapeFree (.ofTrees [pathQuasi]) pathQuasi :=
    ⟨⟨by decide, by decide, by decide, by decide, by decide⟩, rfl, by decide⟩
  have hvalue : (evaluate Json.digitEngine (literalText (asProgram pathQuasi)) Heap.empty).map
      (fun r => literalValue r.1 r.2) = some (.ok (string (js "C:\new"))) := by
    decide +kernel
  refine ⟨hquasi, by decide, hvalue, fun hlossless => ?_⟩
  obtain ⟨text, s, hrun, heval⟩ := hlossless (lit "") 0 false false
  have hheight : pathQuasi.height < 9 := by decide
  obtain ⟨s', hprints⟩ := (hquasi.prints hheight (lit "") 0 false false).1 (by decide)
  cases hprints.symm.trans hrun
  obtain ⟨h', v, hev, -, hv⟩ := heval Heap.empty
  rw [hev, Option.map_some, Option.some.injEq] at hvalue
  obtain ⟨body, hbody, hcopy⟩ := copies_getProperty hv "body" rfl
  obtain ⟨stmt, hstmt, hcopy⟩ := copies_getElement hcopy
  obtain ⟨expr, hexpr, hcopy⟩ := copies_getProperty hcopy "expression" rfl
  obtain ⟨w, hw, rfl⟩ := copies_getProperty hcopy "value" rfl
  rw [literalValue, hbody, ok_bind, hstmt, ok_bind, hexpr, ok_bind, hw] at hvalue
  exact absurd hvalue (by decide)

end MetaMonkey.Frontend
