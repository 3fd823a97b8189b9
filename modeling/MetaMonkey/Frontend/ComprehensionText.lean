import Mathlib.Order.Filter.AtTopBot.Basic
import MetaMonkey.Frontend.Comprehension
import MetaMonkey.Frontend.RoundTrip

/-!
The printer writes the texts of comprehensions and generator expressions, and the
parser reads them from these texts, but for the blocks over values.
-/

namespace MetaMonkey.Frontend

open Js Layout Staging Staging.Unparse

/-! ### What is printed -/

section

variable (h : JSHeap)

def IsNode (v : Value) : Prop := ∃ type, HasType h v type

/-- The types that the serializer gives to the left side of a block. -/
def patternTypes : List String := ["Identifier", "ArrayPattern", "ObjectPattern"]

/-- The object is a block with these nodes. -/
def ShowsBlock (b : ComprehensionBlock Value) (v : Value) : Prop :=
  HasType h v "ComprehensionBlock" ∧
    (getProperty h v "left" = .ok b.left ∧ ∃ type ∈ patternTypes, HasType h b.left type) ∧
    (getProperty h v "right" = .ok b.right ∧ IsNode h b.right) ∧
    getProperty h v "each" = .ok (boolean (b.kind = .forEach)) ∧
    getProperty h v "of" = .ok (boolean (b.kind = .forOf))

def ShowsFilter (filter : Option Value) (v : Value) : Prop :=
  match filter with
  | none => v = null
  | some w => v = w ∧ IsNode h w

/-- The object is a comprehension, or a generator expression, with these nodes. -/
def ShowsComprehension (generator : Bool) (c : Comprehension Value) (v : Value) : Prop :=
  HasType h v (if generator then "GeneratorExpression" else "ComprehensionExpression") ∧
    (getProperty h v "body" = .ok c.body ∧ IsNode h c.body) ∧
    HasArray h v "blocks" (List.Forall₂ (ShowsBlock h) c.blocks) ∧
    Has h v "filter" (ShowsFilter h c.filter)

end

/-- The precedence of the context that the printer gives to a part. -/
def Role.cprec : Role → ℕ
  | .body => 2
  | _ => 0

def PrintsPart (h : JSHeap) (k fuel : ℕ) (r : Role) (w : Value) (t : JSString) : Prop :=
  (unparse fuel).expr w (indentation k) r.cprec false (h, false) = .ok (some t) (h, false)

theorem forall₂_eventually {κ ν : Type} {r : ℕ → κ → ν → Prop} {xs : List κ} {ys : List ν}
    (h : List.Forall₂ (fun x y => ∀ᶠ n in Filter.atTop, r n x y) xs ys) :
    ∀ᶠ n in Filter.atTop, List.Forall₂ (r n) xs ys := by
  induction h with
  | nil => exact .of_forall fun _ => .nil
  | cons hd _ ih => exact (hd.and ih).mono fun _ hn => .cons hn.1 hn.2

/-- A stack that is deep enough for each part is so for all. -/
theorem Comprehension.Rel.eventually {α β : Type} {R : ℕ → Role → α → β → Prop}
    {c : Comprehension α} {c' : Comprehension β}
    (hc : c.Rel (fun r a b => ∀ᶠ n in Filter.atTop, R n r a b) c') :
    ∀ᶠ n in Filter.atTop, c.Rel (R n) c' := by
  have hblock : ∀ {b : ComprehensionBlock α} {b' : ComprehensionBlock β},
      b.Rel (fun r a b => ∀ᶠ n in Filter.atTop, R n r a b) b' →
      ∀ᶠ n in Filter.atTop, b.Rel (R n) b' := fun hb =>
    (hb.left.and hb.right).mono fun _ hn => ⟨hb.kind, hn.1, hn.2⟩
  have hmore := forall₂_eventually (hc.more.imp fun _ _ => hblock)
  have hfilter : ∀ᶠ n in Filter.atTop, Option.Rel (R n .filter) c.filter c'.filter := by
    obtain ⟨hf, hf'⟩ | ⟨f, f', hf, hf', hrel⟩ := optionRel_cases hc.filter
    · rw [hf, hf']
      exact .of_forall fun _ => .none
    · rw [hf, hf']
      exact hrel.mono fun _ hn => .some hn
  filter_upwards [hc.body, hblock hc.first, hmore, hfilter] with n hbody hfirst hmore hfilter
  exact ⟨hbody, hfirst, hmore, hfilter⟩

section

variable {h : JSHeap} {k m : ℕ}

theorem IsNode.valueToObject {w : Value} (hw : IsNode h w) : valueToObject w = w :=
  hw.elim fun _ ht => ht.valueToObject

theorem yields_part {r : Role} {w : Value} {t : JSString} (hw : IsNode h w)
    (ht : PrintsPart h k m r w t) :
    Yields True ((unparse m).expr (valueToObject w) (indentation k) r.cprec false) (h, false)
      (some t) (h, false) := by
  rw [hw.valueToObject]
  exact .of_ok ht

theorem yields_block {b : ComprehensionBlock Value} {t : ComprehensionBlock JSString} {v : Value}
    (hv : ShowsBlock h b v) (ht : b.Rel (PrintsPart h k m) t) :
    Yields True (forHead (unparse m) v (indentation k)) (h, false) (some t.text) (h, false) := by
  obtain ⟨-, ⟨hleft, type, hmem, htype⟩, ⟨hright, hnode⟩, heach, -⟩ := hv
  have hother : ∀ t ∈ patternTypes, equals (js t) "VariableDeclaration" = false := by decide
  have htypeStr := htype
  rw [HasType, ← htype.valueToObject] at htypeStr
  refine .toObj hleft (.toStr htypeStr ?_)
  simp only [hother type hmem, Bool.false_eq_true, if_false]
  refine .bind (yields_part ⟨_, htype⟩ ht.left) (.bind (.pure _)
    (.bind (yields_joinVector (by simp) (by simp)) (.prop heach (.toObj hright
      (.bind (yields_part hnode ht.right) ?_)))))
  have htext : textOf ([lit "for", lit " "] ++
      (if toBoolean (boolean (b.kind = .forEach)) then [lit "each"] else []) ++
      [lit "(", some (textOf [some t.left]), lit " ", lit "in", lit " ", some t.right, lit ")"]) =
      t.text := by
    rw [ht.kind]
    cases hkind : t.kind <;> simp [ComprehensionBlock.text, BlockKind.text, hkind, toBoolean] <;>
      rfl
  rw [← htext]
  refine yields_joinVector (by simp) ?_
  by_cases hkind : b.kind = .forEach <;> simp [hkind, toBoolean]

theorem forall₂_over {κ μ ν : Type} {r : κ → ν → Prop} {q : κ → μ → Prop} {xs : List κ}
    {ys : List μ} {zs : List ν} (hr : List.Forall₂ r xs zs) (hq : List.Forall₂ q xs ys) :
    List.Forall₂ (fun y z => ∃ x, r x z ∧ q x y) ys zs := by
  induction hr generalizing ys with
  | nil =>
      cases hq
      exact .nil
  | cons hd _ ih =>
      cases hq with
      | cons hd' htl => exact .cons ⟨_, hd, hd'⟩ (ih htl)

theorem yields_comprehensionEnd (t : Comprehension JSString) {filter : List Text}
    (hfilter : textOf filter = filterText t.filter) (hsolid : Solid filter) :
    Yields True (joinVector ([some t.body] ++
        (t.blocks.mapIdx fun _ u => [lit " ", some u.text]).flatten ++ filter)) (h, false)
      (some t.text) (h, false) := by
  have htext : textOf ([some t.body] ++
      (t.blocks.mapIdx fun _ u => [lit " ", some u.text]).flatten ++ filter) = t.text := by
    simp [Comprehension.text, hfilter, textOf_flatten, mapIdx_const, List.flatMap_def,
      Function.comp_def]
  rw [← htext]
  exact yields_joinVector (by simp) (by simp [hsolid, solid_mapIdx])

theorem yields_comprehension {generator : Bool} {c : Comprehension Value}
    {t : Comprehension JSString} {v : Value} (hv : ShowsComprehension h generator c v)
    (ht : c.Rel (PrintsPart h k m) t) :
    Yields True (comprehension (unparse m) v (indentation k)) (h, false) (some t.text)
      (h, false) := by
  obtain ⟨-, ⟨hbody, hnode⟩, ⟨arr, harr, ws, hws, hblocks⟩, f, hfilter, hf⟩ := hv
  have hrel : List.Forall₂ (fun (u : ComprehensionBlock JSString) w => ∃ b, ShowsBlock h b w ∧
      b.Rel (PrintsPart h k m) u) t.blocks ws :=
    forall₂_over hblocks (.cons ht.first ht.more)
  have hloop := yields_elements (P := True) (i := false) hws hrel
    (F := fun _ w => do
      let forHeadStr ← forHead (unparse m) w (indentation k)
      return [lit " ", forHeadStr])
    (G := fun _ u => [lit " ", some u.text]) (by
      rintro _ u _ w ⟨b, hb, hu⟩
      rw [hb.1.valueToObject]
      exact .bind (yields_block hb hu) (.pure _))
  obtain ⟨a, rfl, -⟩ := arrayElems?_ref hws
  refine .toObj hbody (.bind (yields_part hnode ht.body) (.toObj harr
    (.arrayLength hws (.bind hloop (.prop hfilter ?_)))))
  obtain ⟨hc, htf⟩ | ⟨w, u, hc, htf, hpart⟩ := optionRel_cases ht.filter
  · rw [hc] at hf
    obtain rfl : f = null := hf
    exact .bind (.pure []) (yields_comprehensionEnd t (by rw [htf]; rfl) (by simp))
  · rw [hc] at hf
    obtain ⟨rfl, type, htype⟩ : f = w ∧ IsNode h w := hf
    simp only [htype.isObject, if_true]
    refine .bind (yields_part ⟨type, htype⟩ hpart) (.bind (.pure _) ?_)
    exact yields_comprehensionEnd t (by simp [htf, filterText]) (by simp)

end

/-! ### From the node to its text and back -/

theorem ExprUnparses.unique {h : JSHeap} {v : Value} {k c : ℕ} {n : Bool} {t t' : JSString}
    (ht : ExprUnparses h v k c n t) (ht' : ExprUnparses h v k c n t') : t = t' := by
  obtain ⟨m, hm⟩ := ht
  obtain ⟨m', hm'⟩ := ht'
  have hrun := (hm (max m m') (le_max_left m m')).symm.trans (hm' _ (le_max_right m m'))
  cases hrun
  rfl

section

variable {h : JSHeap} {v : Value} {k c : ℕ} {n generator : Bool}

theorem exprUnparses_comprehension {nodes : Comprehension Value} {t : Comprehension JSString}
    (hv : ShowsComprehension h generator nodes v)
    (ht : nodes.Rel (fun r w t => ExprUnparses h w k r.cprec false t) t) :
    ExprUnparses h v k c n (t.primaryText generator) := by
  obtain ⟨m, hm⟩ := Filter.eventually_atTop.mp
    (Comprehension.Rel.eventually (R := PrintsPart h k) (ht.imp fun _ _ _ hu =>
      Filter.eventually_atTop.mpr hu))
  refine ⟨m + 1, fun fuel hfuel => ?_⟩
  cases generator with
  | true =>
      refine (yields_expr (P := True) (f := exprGen) (fun p => by simp [exprHandlers]) hv.1
        (fun _ => by omega) fun f hf => ?_).1 trivial
      exact .bind (yields_comprehension hv (hm f (by omega))) (.pure _)
  | false =>
      refine (yields_expr (P := True) (f := exprComprehen) (fun p => by simp [exprHandlers]) hv.1
        (fun _ => by omega) fun f hf => ?_).1 trivial
      exact .bind (yields_comprehension hv (hm f (by omega))) (.pure _)

/-- A part is printed, and read from its text in its place. -/
def PartReader.KeepsPart {α : Type} (p : PartReader α) (h : JSHeap) (k : ℕ) (generator : Bool)
    (r : Role) (w : Value) (e : α) : Prop :=
  ∃ t, ExprUnparses h w k r.cprec false t ∧ p.ReadsPart generator r t e

end

/-- A part that is a name in ASCII, with the name as its tree. -/
def readName : TextReader JSString := do
  match ← NameTables.getToken ⟨fun _ => false, fun _ => false⟩ with
  | .name w => return w
  | _ => failure

theorem readName_starts {s s' : JSString} {t : Token}
    (ht : NameTables.getToken ⟨fun _ => false, fun _ => false⟩ s = some (t, s'))
    (hends : endsElement t = true) : readName s = none := by
  have hname : ∀ w, t ≠ .name w := by
    rintro w rfl
    cases hends
  simp only [readName, TextReader.run_bind, ht, Option.bind_some]
  cases t with
  | name w => exact absurd rfl (hname w)
  | _ => rfl

def nameReader : PartReader JSString where
  start _ := false
  part _ := false
  assignExpr := readName
  expr := do return (← readName, false)
  destructuringExpr _ := failure
  newBindingNode w := w
  generatorExpr c := c.body
  assignExpr_starts _ _ _ := readName_starts

theorem exprUnparses_name {h : JSHeap} {v : Value} {k c : ℕ} {n : Bool} {name : JSString}
    (hv : ShowsName h v name) (hname : isWord name = true) : ExprUnparses h v k c n name :=
  ⟨1, fun _ hfuel => (yields_name (P := True) (indentation k) hv hname fun _ => hfuel).1 trivial⟩

def blockNode (a : ℕ) (left right : Ast) (each of : Bool) : Ast :=
  node a "ComprehensionBlock" [("left", left), ("right", right), ("each", .leaf (boolean each)),
    ("of", .leaf (boolean of))]

/-- The node of `(x for each (x in y) for (z in x) if (z))`. -/
def nestedGeneratorNode : Ast :=
  node 0 "GeneratorExpression" [("body", identifier 1 "x"),
    ("blocks", .array 2 [blockNode 3 (identifier 4 "x") (identifier 5 "y") true false,
      blockNode 6 (identifier 7 "z") (identifier 8 "x") false false]),
    ("filter", identifier 9 "z")]

def nestedGeneratorParts : Comprehension Value :=
  ⟨.ref 1, ⟨.forEach, .ref 4, .ref 5⟩, [⟨.forIn, .ref 7, .ref 8⟩], some (.ref 9)⟩

def nestedGenerator : Comprehension JSString :=
  ⟨js "x", ⟨.forEach, js "x", js "y"⟩, [⟨.forIn, js "z", js "x"⟩], some (js "z")⟩

/-- The node of `[x for (x of y)]`. -/
def forOfComprehensionNode : Ast :=
  node 0 "ComprehensionExpression" [("body", identifier 1 "x"),
    ("blocks", .array 2 [blockNode 3 (identifier 4 "x") (identifier 5 "y") false true]),
    ("filter", .leaf null)]

/-- The same comprehension with the kind of its block, as its nodes and as its names. -/
def namesParts (kind : BlockKind) : Comprehension Value :=
  ⟨.ref 1, ⟨kind, .ref 4, .ref 5⟩, [], none⟩

def namesComprehension (kind : BlockKind) : Comprehension JSString :=
  ⟨js "x", ⟨kind, js "x", js "y"⟩, [], none⟩

end MetaMonkey.Frontend
