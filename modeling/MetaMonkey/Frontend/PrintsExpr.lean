import MetaMonkey.Staging.Yields
import MetaMonkey.Frontend.TextStarts

/-!
The printer writes the layouts: the expressions.
-/

namespace MetaMonkey.Frontend

open Js Layout MetaMonkey.Staging MetaMonkey.Staging.Unparse

/-! ### Texts -/

def textOf (strs : List Text) : JSString := strs.flatMap fun s => s.getD []

section

variable {P : Prop} {s : JSHeap × Bool}

theorem joinStrings_eq (strs : List Text) : joinStrings strs = some (textOf strs) := rfl

@[simp] theorem textOf_nil : textOf [] = [] := rfl

@[simp] theorem textOf_cons (t : JSString) (strs : List Text) :
    textOf (some t :: strs) = t ++ textOf strs := rfl

@[simp] theorem textOf_lit (t : String) (strs : List Text) :
    textOf (lit t :: strs) = js t ++ textOf strs := rfl

@[simp] theorem textOf_append (xs ys : List Text) : textOf (xs ++ ys) = textOf xs ++ textOf ys :=
  List.flatMap_append

theorem textOf_flatten (xss : List (List Text)) :
    textOf xss.flatten = (xss.map textOf).flatten := by
  induction xss with
  | nil => rfl
  | cons xs xss ih => simp [ih]

theorem intercalate_nil {α : Type} (xss : List (List α)) :
    List.intercalate [] xss = xss.flatten := by
  induction xss with
  | nil => rfl
  | cons xs xss ih =>
      cases xss with
      | nil => simp [List.intercalate_singleton]
      | cons ys xss => simp [List.intercalate_cons_cons, ih]

/-- No text of a list is a null pointer. -/
def Solid (strs : List Text) : Prop := ∀ t ∈ strs, t ≠ none

@[simp] theorem solid_nil : Solid [] := fun _ ht => by simp at ht

@[simp] theorem solid_cons (t : JSString) (strs : List Text) :
    Solid (some t :: strs) ↔ Solid strs := by
  simp [Solid]

@[simp] theorem solid_lit (t : String) (strs : List Text) : Solid (lit t :: strs) ↔ Solid strs :=
  solid_cons _ _

@[simp] theorem solid_append (xs ys : List Text) : Solid (xs ++ ys) ↔ Solid xs ∧ Solid ys := by
  simp [Solid, or_imp, forall_and]

theorem solid_mapIdx {α : Type} {f : ℕ → α → List Text} (h : ∀ i x, Solid (f i x))
    (xs : List α) : Solid (xs.mapIdx f).flatten := by
  intro t ht
  simp only [List.mem_flatten, List.mem_mapIdx] at ht
  obtain ⟨ts, ⟨i, hi, rfl⟩, ht⟩ := ht
  exact h _ _ t ht

theorem mapIdx_map {α β γ : Type} (f : α → β) (g : ℕ → β → γ) (xs : List α) :
    (xs.map f).mapIdx g = xs.mapIdx fun i x => g i (f x) := by
  apply List.ext_getElem <;> simp

theorem mapM_id_eq {strs : List Text} (h : Solid strs) :
    strs.mapM id = some (strs.map fun t => t.getD []) := by
  induction strs with
  | nil => rfl
  | cons t strs ih =>
      obtain ⟨u, rfl⟩ := Option.ne_none_iff_exists'.mp (h t (by simp))
      simp [ih fun t ht => h t (by simp [ht])]

theorem yields_joinStringVector {strs : List Text} (sep prf suf : Text) (hne : strs ≠ [])
    (h : Solid strs) :
    Yields P (joinStringVector strs sep prf suf) s (some (prf.getD [] ++
      List.intercalate (sep.getD []) (strs.map fun t => t.getD []) ++ suf.getD [])) s := by
  match strs, hne with
  | [t], _ =>
      refine .of_ok ?_
      simp [joinStringVector, joinStrings, List.intercalate_singleton]
  | t :: u :: strs, _ =>
      refine .of_ok ?_
      have hall := mapM_id_eq h
      simp only [List.map_cons] at hall
      simp [joinStringVector, hall, joinStrings]

theorem yields_joinVector {strs : List Text} (hne : strs ≠ []) (h : Solid strs) :
    Yields P (joinVector strs) s (some (textOf strs)) s := by
  have hjoin := yields_joinStringVector (P := P) (s := s) none none none hne h
  simpa [joinVector, intercalate_nil, textOf, List.flatMap_def] using hjoin

/-- The commas between the texts of a loop. -/
theorem textOf_commas {α : Type} (t : α → List Text) (xs : List α) :
    textOf (xs.mapIdx fun i x => t x ++ if i ≠ xs.length - 1 then [lit ","] else []).flatten =
      List.intercalate (js ",") (xs.map fun x => textOf (t x)) := by
  induction xs with
  | nil => rfl
  | cons x xs ih =>
      cases xs with
      | nil => simp [List.intercalate_singleton]
      | cons y ys =>
          have hshift : ((y :: ys).mapIdx fun i z =>
              t z ++ if i + 1 ≠ (x :: y :: ys).length - 1 then [lit ","] else []) =
              (y :: ys).mapIdx fun i z =>
                t z ++ if i ≠ (y :: ys).length - 1 then [lit ","] else [] := by
            rw [List.mapIdx_eq_mapIdx_iff]
            intro i hi
            simp only [List.length_cons] at hi ⊢
            congr 1
            exact if_congr (by omega) rfl rfl
          have hfirst : ¬ 0 = (x :: y :: ys).length - 1 := by simp
          rw [List.mapIdx_cons, List.flatten_cons, textOf_append]
          simp only [hshift, ih, ne_eq, hfirst, not_false_eq_true, if_true]
          simp [List.intercalate_cons_cons]

theorem render_separate (sep : List Piece) (pss : List (List Piece)) :
    render (separate sep pss) = List.intercalate (render sep) (pss.map render) := by
  induction pss with
  | nil => rfl
  | cons ps pss ih =>
      cases pss with
      | nil => simp [separate, List.intercalate_singleton]
      | cons qs pss =>
          simp only [separate] at ih
          simp [separate, List.intercalate_cons_cons, render_append, ih]

/-- The text of an element of an array, with the blank before it and the comma after it. -/
def elementTexts (first : Bool) (length i : ℕ) : Option (List Piece) → List Text
  | none => [lit ","]
  | some ps =>
      (if first ∧ i = 0 then [] else [lit " "]) ++ [some (render ps)] ++
        if i ≠ length - 1 then [lit ","] else []

theorem textOf_elements (first : Bool) (os : List (Option (List Piece))) :
    textOf (os.mapIdx fun i o => elementTexts first os.length i o).flatten =
      render (arrayElements first os) := by
  induction os generalizing first with
  | nil => rfl
  | cons o os ih =>
      have hgap : textOf (if first then [] else [lit " "]) =
          render (if first then [] else [.space]) := by
        cases first <;> rfl
      cases os with
      | nil =>
          cases o with
          | none => rfl
          | some ps => simp [arrayElements, elementTexts, hgap, render_append]
      | cons o' os =>
          have hshift : ((o' :: os).mapIdx fun i x =>
              elementTexts first (o :: o' :: os).length (i + 1) x) =
              (o' :: os).mapIdx fun i x => elementTexts false (o' :: os).length i x := by
            rw [List.mapIdx_eq_mapIdx_iff]
            intro i hi
            simp only [List.length_cons] at hi ⊢
            cases (o' :: os)[i] with
            | none => rfl
            | some ps =>
                have hcomma : i + 1 ≠ (os.length + 1 + 1) - 1 ↔ i ≠ (os.length + 1) - 1 := by
                  omega
                simp only [elementTexts, Nat.succ_ne_zero, and_false, if_false,
                  Bool.false_eq_true, false_and, hcomma]
          have hrest := ih false
          rw [List.mapIdx_cons, List.flatten_cons, textOf_append]
          simp only [hshift, hrest]
          cases o with
          | none =>
              simp only [elementTexts, arrayElements]
              rfl
          | some ps =>
              simp [elementTexts, arrayElements, hgap, render_append, render_cons]
              rfl

end

/-! ### Nodes -/

section

variable {h : JSHeap} {v : Value} {type : String}

theorem getProperty_string {name : String} {t : JSString}
    (hv : getProperty h v name = .ok (string t)) : ∃ a, v = .ref a := by
  match v with
  | .ref a => exact ⟨a, rfl⟩
  | .leaf (.prim _) => cases hv
  | .leaf (.wrapper _) => cases hv

theorem HasType.ref (hv : HasType h v type) : ∃ a, v = .ref a := getProperty_string hv

theorem HasType.valueToObject (hv : HasType h v type) : valueToObject v = v := by
  obtain ⟨a, rfl⟩ := hv.ref
  rfl

theorem HasType.isObject (hv : HasType h v type) : isObject v = true := by
  obtain ⟨a, rfl⟩ := hv.ref
  rfl

theorem HasType.ne_null (hv : HasType h v type) : v ≠ null := by
  obtain ⟨a, rfl⟩ := hv.ref
  exact nofun

/-- The node of an expression has a type. -/
theorem Expr.Shows.hasType {e : Expr} (he : e.isElision = false) (hv : e.Shows h v) :
    ∃ type, HasType h v type := by
  cases e with
  | elision => simp [Expr.isElision] at he
  | identifier name => exact ⟨_, hv.1⟩
  | thisExpr => exact ⟨_, hv⟩
  | function id params body => exact ⟨_, hv.1.1⟩
  | closure id params body => exact ⟨_, hv.1.1⟩
  | _ => exact ⟨_, hv.1⟩

end

/-- Handlers are found by the names of the types, which are distinct. -/
theorem find?_of_mem {β : Type} {l : List (String × β)} {name : String} {x : β}
    (hnodup : (l.map fun e => encodeString (js e.1)).Nodup) (hmem : (name, x) ∈ l) :
    l.find? (fun e => equalsChars (js name) e.1) = some (name, x) := by
  induction l with
  | nil => simp at hmem
  | cons e l ih =>
      rw [List.map_cons, List.nodup_cons] at hnodup
      rw [List.find?_cons]
      by_cases he : e = (name, x)
      · simp [he, equalsChars]
      · have hmem' : (name, x) ∈ l := by simpa [Ne.symm he] using hmem
        have hne : equalsChars (js name) e.1 = false := by
          have hnot := hnodup.1
          simp only [List.mem_map, not_exists, not_and] at hnot
          simpa [equalsChars] using hnot (name, x) hmem'
        rw [hne]
        exact ih hnodup.2 hmem'

theorem exprHandlers_nodup (p : Printer) :
    ((exprHandlers p).map fun e => encodeString (js e.1)).Nodup := by
  simp only [exprHandlers, List.map_cons, List.map_nil]
  decide

/-- The stack of the printer, and the handler of a type. -/
theorem yields_expr {P : Prop} {h : JSHeap} {b : Bool} {v : Value} {type : String} {indent : Text}
    {c fuel : ℕ} {n : Bool} {t : Text} {s : JSHeap × Bool}
    (f : Printer → Value → Text → ℕ → Bool → Print Text)
    (hmem : ∀ p, (type, f p) ∈ exprHandlers p) (hv : HasType h v type) (hfuel : P → 0 < fuel)
    (hf : ∀ m, fuel = m + 1 → Yields P (f (unparse m) v indent c n) (h, b) t s) :
    Yields P ((unparse fuel).expr v indent c n) (h, b) t s := by
  cases fuel with
  | zero =>
      exact .of_error (show _ = EStateM.Result.error Fault.crash (h, b) from rfl)
        fun hP => absurd (hfuel hP) (by simp)
  | succ m =>
      refine .toStr hv ?_
      rw [find?_of_mem (exprHandlers_nodup _) (hmem _)]
      exact hf m rfl

/-! ### Layouts -/

section

variable (ps : List Piece)

@[simp] theorem render_nil : render [] = [] := rfl

@[simp] theorem render_space : render (.space :: ps) = js " " ++ render ps := rfl

@[simp] theorem render_lexeme (l : Lexeme) : render (.lexeme l :: ps) = l.text ++ render ps := rfl

@[simp] theorem render_punct (p : Punct) : render (punct p :: ps) = js p.text ++ render ps := rfl

@[simp] theorem render_word (w : JSString) : render (word w :: ps) = w ++ render ps := rfl

@[simp] theorem render_keyword (k : Keyword) : render (keyword k :: ps) = js k.text ++ render ps :=
  rfl

@[simp] theorem render_eol : render (eol :: ps) = js "\n" ++ render ps := rfl

@[simp] theorem render_parens : render (parens ps) = js "(" ++ render ps ++ js ")" := by
  simp [parens, render_append, Punct.text]

end

attribute [simp] render_append

section

variable {P : Prop} {h : JSHeap} {t : JSString} {ps : List Piece} {c L : ℕ}

theorem yields_wrapExpr (ht : t = render ps) :
    Yields P (wrapExpr (some t) c L) (h, false) (some (render (wrapIf (L ≤ c) ps))) (h, false) := by
  have hwrap := Yields.wrapExpr (P := P) (h := h) (t := t) c L
  by_cases hc : L ≤ c <;> simpa [wrapIf, hc, ht] using hwrap

end

/-- A call that joins texts and puts them in parentheses. -/
theorem yields_wrapJoin {P : Prop} {h : JSHeap} {strs : List Text} {ps : List Piece} {c L : ℕ}
    (ht : textOf strs = render ps) : Yields P (wrapExpr (joinStrings strs) c L) (h, false)
      (some (render (wrapIf (L ≤ c) ps))) (h, false) :=
  yields_wrapExpr ht

/-- A statement that the printer has a handler for. -/
def Stmt.Printable : Stmt → Prop
  | .forOf _ _ _ | .forOfDecl _ _ _ _ => False
  | _ => True

def indentation (k : ℕ) : Text := some (render (spaces k))

/-- A tree that is printed with a stack. -/
def Expr.Printable (fuel : ℕ) (e : Expr) : Prop :=
  e.All (fun _ => True) Stmt.Printable ∧ sizeOf e ≤ fuel

/-- The printer, with a stack that is deep enough, writes the layout. Whatever it writes,
with a stack of any depth, is the layout. -/
def Expr.Prints (e : Expr) : Prop :=
  e.All Expr.Formed Stmt.Formed → e.isElision = false → ∀ fuel h v k c n, e.Shows h v →
    Yields (e.Printable fuel)
      ((unparse fuel).expr v (indentation k) c n) (h, false)
      (some (render (e.layout k c n))) (h, false)

theorem Expr.Printable.fuel {e : Expr} {fuel : ℕ} (h : e.Printable fuel) : 0 < fuel := by
  have hpos : 0 < sizeOf e := Nat.pos_of_ne_zero (by cases e <;> simp)
  have hsize := h.2
  omega

/-- A call that prints a child. -/
theorem Expr.Prints.step {α : Type} {P : Prop} {e : Expr} {h : JSHeap} {b : Bool} {w : Value}
    {k c fuel : ℕ} {n : Bool} {f : Text → Print α} {a : α} (he : e.Prints)
    (hall : e.All Expr.Formed Stmt.Formed) (helision : e.isElision = false) (hw : e.Shows h w)
    (hP : P → e.Printable fuel)
    (hf : Yields P (f (some (render (e.layout k c n)))) (h, false) a (h, b)) :
    Yields P ((unparse fuel).expr (valueToObject w) (indentation k) c n >>= f) (h, false) a
      (h, b) := by
  obtain ⟨type, htype⟩ := hw.hasType helision
  rw [htype.valueToObject]
  exact .bind ((he hall helision fuel h w k c n hw).mono hP) hf

/-- A name is written as it is. -/
theorem yields_name {P : Prop} {h : JSHeap} {b : Bool} {v : Value} {c fuel : ℕ} {n : Bool}
    {name : JSString} (indent : Text) (hv : ShowsName h v name) (hname : isWord name = true)
    (hfuel : P → 0 < fuel) :
    Yields P ((unparse fuel).expr v indent c n) (h, b) (some name) (h, b) := by
  refine yields_expr (f := fun _ => exprIndent) (fun p => by simp [exprHandlers]) hv.1 hfuel
    fun m hm => .toStr hv.2 ?_
  have hnan : equals name "NaN" = false := by
    cases name with
    | nil => simp [isWord] at hname
    | cons c cs =>
        simp only [isWord, Bool.and_eq_true, decide_eq_true_eq] at hname
        simpa [equals] using hname.2
  rw [hnan]
  exact .pure _

theorem Expr.prints_identifier (name : JSString) : (Expr.identifier name).Prints := by
  intro hall _ fuel h v k c n hv
  rw [Expr.All] at hall
  rw [Expr.layout]
  have hname : isWord name = true := by
    have hformed : isName name = true := hall
    simp only [isName, Bool.and_eq_true] at hformed
    exact hformed.1
  have hrun := yields_name (P := (Expr.identifier name).Printable fuel) (b := false)
    (c := c) (n := n) (indentation k) hv hname Expr.Printable.fuel
  simpa using hrun

theorem Expr.prints_this : Expr.thisExpr.Prints := by
  intro _ _ fuel h v k c n hv
  rw [Expr.layout]
  refine yields_expr (f := fun _ => exprThis) (fun p => by simp [exprHandlers]) hv
    Expr.Printable.fuel fun m hm => ?_
  exact .pure _

theorem Expr.prints_unary (op : UnaryOp) (argument : Expr) (h : argument.Prints) :
    (Expr.unary op argument).Prints := by
  intro hall _ fuel heap v k c n hv
  rw [Expr.All] at hall
  obtain ⟨htype, hop, hprefix, w, hw, hshows⟩ := hv
  obtain ⟨type, hwtype⟩ := hshows.hasType hall.1
  refine yields_expr (f := exprUnary) (fun p => by simp [exprHandlers]) htype
    Expr.Printable.fuel fun m hm => ?_
  refine .toObj hw (.toStr hop ?_)
  subst hm
  have hP : (Expr.unary op argument).Printable (m + 1) → argument.Printable m := by
    rintro ⟨hprintable, hsize⟩
    rw [Expr.All] at hprintable
    simp at hsize
    exact ⟨hprintable.2, by omega⟩
  rw [hwtype.valueToObject]
  refine .bind ((h hall.2 hall.1 m heap w k 15 false hshows).mono hP) (.prop hprefix ?_)
  · have hopText : (if equals (js op.text) "typeof" || equals (js op.text) "void" ||
        equals (js op.text) "delete" then joinStrings [some (js op.text), lit " "]
        else some (js op.text)) = some (render (.lexeme op.lexeme :: unaryGap op)) := by
      cases op <;> rfl
    rw [Expr.layout, hopText]
    exact yields_wrapJoin (by simp)

theorem Expr.prints_update (op : UpdateOp) (before : Bool) (argument : Expr)
    (h : argument.Prints) : (Expr.update op before argument).Prints := by
  intro hall _ fuel heap v k c n hv
  rw [Expr.All] at hall
  obtain ⟨htype, hop, hprefix, w, hw, hshows⟩ := hv
  have helision := isElision_of_reference hall.1
  obtain ⟨type, hwtype⟩ := hshows.hasType helision
  refine yields_expr (f := exprUnary) (fun p => by simp [exprHandlers]) htype
    Expr.Printable.fuel fun m hm => ?_
  refine .toObj hw (.toStr hop ?_)
  subst hm
  have hP : (Expr.update op before argument).Printable (m + 1) → argument.Printable m := by
    rintro ⟨hprintable, hsize⟩
    rw [Expr.All] at hprintable
    simp at hsize
    exact ⟨hprintable.2, by omega⟩
  rw [hwtype.valueToObject]
  refine .bind ((h hall.2 helision m heap w k 15 false hshows).mono hP) (.prop hprefix ?_)
  · have hopText : (if equals (js op.text) "typeof" || equals (js op.text) "void" ||
        equals (js op.text) "delete" then joinStrings [some (js op.text), lit " "]
        else some (js op.text)) = some (js op.punct.text) := by
      cases op <;> rfl
    rw [Expr.layout, hopText]
    cases before with
    | true => exact yields_wrapJoin (by simp)
    | false => exact yields_wrapJoin (by simp)

theorem elementTexts_solid (first : Bool) (length i : ℕ) (o : Option (List Piece)) :
    Solid (elementTexts first length i o) := by
  cases o with
  | none => simp [elementTexts]
  | some ps => simp only [elementTexts]; split <;> split <;> simp

theorem Expr.prints_array (elements : List Expr) (h : ∀ e ∈ elements, e.Prints) :
    (Expr.array elements).Prints := by
  intro hall _ fuel heap v k c n hv
  rw [Expr.All] at hall
  obtain ⟨htype, w, hw, ws, hws, hshows⟩ := hv
  have hforall := showsExprs_forall₂ hshows
  have hlen := hforall.length_eq
  refine yields_expr (f := exprArray) (fun p => by simp [exprHandlers]) htype
    Expr.Printable.fuel fun m hm => ?_
  subst hm
  have hP : (Expr.array elements).Printable (m + 1) → ∀ e ∈ elements, e.Printable m := by
    rintro ⟨hprintable, hsize⟩ e he
    rw [Expr.All] at hprintable
    have hlt := List.sizeOf_lt_of_mem he
    simp at hsize
    exact ⟨hprintable.2 e he, by omega⟩
  obtain ⟨a, rfl, -⟩ := arrayElems?_ref hws
  have hchildren := yields_elements (P := (Expr.array elements).Printable (m + 1)) (i := false)
    hws hforall
    (F := fun i nodeObj => do
      let comma := if i ≠ ws.length - 1 ∨ nodeObj = null then [lit ","] else []
      if nodeObj ≠ null then
        let nodeStr ← (unparse m).expr nodeObj (indentation k) 2 false
        return (if i ≠ 0 then [lit " "] else []) ++ [nodeStr] ++ comma
      else
        return comma)
    (G := fun i e => elementTexts true elements.length i
      (if e.isElision then none else some (e.layout k 2 false)))
    fun i e he x hx => by
      cases hel : e.isElision with
      | true =>
          obtain rfl : e = .elision := by cases e <;> simp_all [Expr.isElision]
          obtain rfl : x = null := hx
          simp [elementTexts, valueToObject]
          exact .pure _
      | false =>
          obtain ⟨type, hxtype⟩ := hx.hasType hel
          simp only [hxtype.valueToObject, hxtype.ne_null, ne_eq, not_false_eq_true, if_true]
          refine .bind ((h e he (hall.2 e he) hel m heap x k 2 false hx).mono
            fun hp => hP hp e he) ?_
          simp only [elementTexts, hlen]
          by_cases hi : i = 0 <;> simp [hi] <;> exact .pure _
  refine .toObj hw (.arrayLength hws (.bind hchildren ?_))
  have helements := textOf_elements true
    (elements.map fun e => if e.isElision then none else some (e.layout k 2 false))
  rw [mapIdx_map, List.length_map] at helements
  have hsolid : Solid (elements.mapIdx fun i e => elementTexts true elements.length i
      (if e.isElision then none else some (e.layout k 2 false))).flatten :=
    solid_mapIdx (fun _ _ => elementTexts_solid _ _ _ _) elements
  have hjoin := yields_joinVector (P := (Expr.array elements).Printable (m + 1))
    (s := (heap, false)) (show [lit "["] ++ (elements.mapIdx fun i e =>
      elementTexts true elements.length i
        (if e.isElision then none else some (e.layout k 2 false))).flatten ++
          [lit "]"] ≠ [] by simp)
    (by simp [hsolid])
  rw [textOf_append, textOf_append, helements] at hjoin
  rw [Expr.layout]
  simpa [Punct.text] using hjoin

def Property.Printable (fuel : ℕ) (x : Property) : Prop :=
  x.All (fun _ => True) Stmt.Printable ∧ sizeOf x ≤ fuel

/-- The texts of a property. -/
def Property.texts (k : ℕ) : Property → List Text
  | .init key value => [some key, lit ": ", some (render (value.layout k 2 false))]

def Property.Prints (x : Property) : Prop :=
  x.All Expr.Formed Stmt.Formed → x.Formed → ∀ fuel h v k val, x.Shows h v →
    Yields (x.Printable fuel) (propertyText (unparse fuel) val v (indentation k)) (h, false)
      (x.texts k) (h, false)

theorem Property.textOf_texts (x : Property) (k : ℕ) :
    textOf (x.texts k) = render (x.layout k) := by
  obtain ⟨key, value⟩ := x
  have hcolon : js ": " = js ":" ++ js " " := rfl
  rw [Property.layout, Property.texts]
  simp [Punct.text, hcolon]

theorem Property.prints (key : JSString) (value : Expr) (h : value.Prints) :
    (Property.init key value).Prints := by
  intro hall hformed fuel heap v k val hv
  rw [Property.All] at hall
  obtain ⟨htype, hkind, ⟨kw, hkw, hkey⟩, w, hw, hshows⟩ := hv
  obtain ⟨type, hwtype⟩ := hshows.hasType hformed.2
  have hP : (Property.init key value).Printable fuel → 0 < fuel ∧ value.Printable fuel := by
    rintro ⟨hprintable, hsize⟩
    rw [Property.All] at hprintable
    simp at hsize
    exact ⟨by omega, hprintable, by omega⟩
  have hinit : equals (js "init") "init" = true := by simp [equals]
  refine .toStr hkind ?_
  rw [hinit]
  refine .toObj hkw (.toObj hw ?_)
  rw [hkey.1.valueToObject, hwtype.valueToObject]
  exact .bind (yields_name _ hkey hformed.1 fun hp => (hP hp).1)
    (.bind ((h hall hformed.2 fuel heap w k 2 false hshows).mono fun hp => (hP hp).2) (.pure _))

theorem Expr.prints_object (properties : List Property) (h : ∀ x ∈ properties, x.Prints) :
    (Expr.object properties).Prints := by
  intro hall _ fuel heap v k c n hv
  rw [Expr.All] at hall
  obtain ⟨htype, w, hw, ws, hws, hshows⟩ := hv
  have hforall := showsProperties_forall₂ hshows
  have hlen := hforall.length_eq
  refine yields_expr (f := exprObj) (fun p => by simp [exprHandlers]) htype
    Expr.Printable.fuel fun m hm => ?_
  subst hm
  have hP : (Expr.object properties).Printable (m + 1) →
      ∀ x ∈ properties, x.Printable m := by
    rintro ⟨hprintable, hsize⟩ x hx
    rw [Expr.All] at hprintable
    have hlt := List.sizeOf_lt_of_mem hx
    simp at hsize
    exact ⟨hprintable.2 x hx, by omega⟩
  obtain ⟨a, rfl, -⟩ := arrayElems?_ref hws
  have hchildren := yields_elements (P := (Expr.object properties).Printable (m + 1)) (i := false)
    hws hforall
    (F := fun i propObj => do
      let texts ← propertyText (unparse m) v propObj (indentation k)
      return texts ++ (if i ≠ ws.length - 1 then [lit ","] else []))
    (G := fun i x => x.texts k ++ if i ≠ properties.length - 1 then [lit ","] else [])
    fun i x hx y hy => by
      obtain ⟨key, value⟩ := x
      have hytype := hy.1
      rw [hytype.valueToObject, hlen]
      exact .bind ((h _ hx (hall.2 _ hx) (hall.1 _ hx) m heap y k v hy).mono fun hp => hP hp _ hx)
        (.pure _)
  refine .toObj hw (.arrayLength hws (.bind hchildren ?_))
  have hsolid : Solid (properties.mapIdx fun i x =>
      x.texts k ++ if i ≠ properties.length - 1 then [lit ","] else []).flatten := by
    refine solid_mapIdx (fun i x => ?_) properties
    obtain ⟨key, value⟩ := x
    split <;> simp [Property.texts]
  have hjoin := yields_joinVector (P := (Expr.object properties).Printable (m + 1))
    (s := (heap, false)) (show [lit "\x7b"] ++ (properties.mapIdx fun i x =>
      x.texts k ++ if i ≠ properties.length - 1 then [lit ","] else []).flatten ++ [lit "\x7d"] ≠ []
      by simp) ((solid_append _ _).mpr
      ⟨(solid_append _ _).mpr ⟨by simp only [solid_lit, solid_nil], hsolid⟩,
        by simp only [solid_lit, solid_nil]⟩)
  rw [textOf_append, textOf_append, textOf_commas] at hjoin
  simp only [Property.textOf_texts] at hjoin
  rw [Expr.layout]
  simpa [Punct.text, render_separate, Function.comp_def] using hjoin

theorem Expr.prints_sequence (expressions : List Expr) (h : ∀ e ∈ expressions, e.Prints) :
    (Expr.sequence expressions).Prints := by
  intro hall _ fuel heap v k c n hv
  rw [Expr.All] at hall
  obtain ⟨htype, w, hw, ws, hws, hshows⟩ := hv
  have hforall := showsExprs_forall₂ hshows
  have hlen := hforall.length_eq
  refine yields_expr (f := exprSequence) (fun p => by simp [exprHandlers]) htype
    Expr.Printable.fuel fun m hm => ?_
  subst hm
  have hP : (Expr.sequence expressions).Printable (m + 1) →
      ∀ e ∈ expressions, e.Printable m := by
    rintro ⟨hprintable, hsize⟩ e he
    rw [Expr.All] at hprintable
    have hlt := List.sizeOf_lt_of_mem he
    simp at hsize
    exact ⟨hprintable.2 e he, by omega⟩
  obtain ⟨a, rfl, -⟩ := arrayElems?_ref hws
  have hchildren := yields_elements (P := (Expr.sequence expressions).Printable (m + 1))
    (i := false) hws hforall
    (F := fun i propObj => do
      let exprStr ← (unparse m).expr propObj (indentation k) 2 n
      return [exprStr] ++ (if i ≠ ws.length - 1 then [lit ","] else []))
    (G := fun i e => [some (render (e.layout k 2 n))] ++
      if i ≠ expressions.length - 1 then [lit ","] else [])
    fun i e he x hx => by
      obtain ⟨type, hxtype⟩ := hx.hasType (hall.1.2 e he)
      rw [hxtype.valueToObject, hlen]
      exact .bind ((h e he (hall.2 e he) (hall.1.2 e he) m heap x k 2 n hx).mono
        fun hp => hP hp e he) (.pure _)
  refine .toObj hw (.arrayLength hws (.bind hchildren ?_))
  have hsolid : Solid (expressions.mapIdx fun i e => [some (render (e.layout k 2 n))] ++
      if i ≠ expressions.length - 1 then [lit ","] else []).flatten := by
    refine solid_mapIdx (fun i e => ?_) expressions
    split <;> simp
  have hne : (expressions.mapIdx fun i e => [some (render (e.layout k 2 n))] ++
      if i ≠ expressions.length - 1 then [lit ","] else []).flatten ≠ [] := by
    obtain ⟨e, es, rfl⟩ : ∃ e es, expressions = e :: es := by
      cases expressions with
      | nil => simp [Expr.Formed] at hall
      | cons e es => exact ⟨e, es, rfl⟩
    rw [List.mapIdx_cons]
    simp
  refine .bind (yields_joinVector hne hsolid) ?_
  rw [Expr.layout]
  refine yields_wrapExpr ?_
  rw [textOf_commas]
  simp [render_separate, Punct.text, Function.comp_def]

/-! ### Operators -/

theorem getPrecedence_text (op : BinaryOp) : getPrecedence (js op.text) = precedence op := by
  cases op <;> decide

theorem BinaryOp.equals_in (op : BinaryOp) : equals (js op.text) "in" = decide (op = .in) := by
  cases op <;> decide

theorem yields_handler_binary {P : Prop} {h : JSHeap} {v : Value} {op : BinaryOp} {indent : Text}
    {c fuel : ℕ} {n : Bool} {t : Text} (hv : HasType h v op.type) (hfuel : P → 0 < fuel)
    (hf : ∀ m, fuel = m + 1 → Yields P (exprLogic (unparse m) v indent c n) (h, false) t
      (h, false)) : Yields P ((unparse fuel).expr v indent c n) (h, false) t (h, false) := by
  by_cases hop : op.logical = true
  · rw [BinaryOp.type, if_pos hop] at hv
    exact yields_expr (f := exprLogic) (fun p => by simp [exprHandlers]) hv hfuel hf
  · rw [BinaryOp.type, if_neg hop] at hv
    exact yields_expr (f := exprLogic) (fun p => by simp [exprHandlers]) hv hfuel hf

theorem Expr.prints_binary (op : BinaryOp) (left right : Expr) (hleft : left.Prints)
    (hright : right.Prints) : (Expr.binary op left right).Prints := by
  intro hall _ fuel heap v k c n hv
  rw [Expr.All] at hall
  obtain ⟨htype, hop, ⟨w₁, hw₁, hshows₁⟩, w₂, hw₂, hshows₂⟩ := hv
  refine yields_handler_binary htype Expr.Printable.fuel fun m hm => ?_
  subst hm
  have hP : (Expr.binary op left right).Printable (m + 1) →
      left.Printable m ∧ right.Printable m := by
    rintro ⟨hprintable, hsize⟩
    rw [Expr.All] at hprintable
    simp at hsize
    exact ⟨⟨hprintable.2.1, by omega⟩, hprintable.2.2, by omega⟩
  obtain ⟨type, hwtype⟩ := hshows₂.hasType hall.1.2
  have hprec : precedence op ≠ 0 := by cases op <;> decide
  refine .toStr hop ?_
  rw [getPrecedence_text]
  refine .require (by simpa using hprec) (.toObj hw₂ (.require ?_ ?_))
  · simpa [hwtype.valueToObject] using hwtype.ne_null
  · refine hright.step hall.2.2 hall.1.2 hshows₂ (fun hp => (hP hp).2) (.toObj hw₁ ?_)
    refine hleft.step hall.2.1 hall.1.1 hshows₁ (fun hp => (hP hp).1) ?_
    refine .bind (yields_joinStringVector _ _ _ (by simp) (by simp)) ?_
    rw [Expr.layout]
    have hwraps : (equals (js op.text) "in" && n || decide (precedence op ≤ c)) =
        wrapsOp op c n := by
      rw [op.equals_in, wrapsOp]
    simp only [hwraps]
    cases wrapsOp op c n with
    | true =>
        simp [wrapIf, List.intercalate_cons_cons, List.intercalate_singleton, lit,
          BinaryOp.lexeme_text, joinStrings]
        exact .pure _
    | false =>
        simp [wrapIf, List.intercalate_cons_cons, List.intercalate_singleton, lit,
          BinaryOp.lexeme_text]
        exact .pure _

theorem Expr.prints_assign (op : AssignOp) (left right : Expr) (hleft : left.Prints)
    (hright : right.Prints) : (Expr.assign op left right).Prints := by
  intro hall _ fuel heap v k c n hv
  rw [Expr.All] at hall
  obtain ⟨htype, hop, ⟨w₁, hw₁, hshows₁⟩, w₂, hw₂, hshows₂⟩ := hv
  refine yields_expr (f := exprAssign) (fun p => by simp [exprHandlers]) htype
    Expr.Printable.fuel fun m hm => ?_
  subst hm
  have hP : (Expr.assign op left right).Printable (m + 1) →
      left.Printable m ∧ right.Printable m := by
    rintro ⟨hprintable, hsize⟩
    rw [Expr.All] at hprintable
    simp at hsize
    exact ⟨⟨hprintable.2.1, by omega⟩, hprintable.2.2, by omega⟩
  refine .toObj hw₁ (hleft.step hall.2.1 (isElision_of_reference hall.1.1) hshows₁
    (fun hp => (hP hp).1) (.toObj hw₂ ?_))
  refine hright.step hall.2.2 hall.1.2 hshows₂ (fun hp => (hP hp).2) (.toStr hop ?_)
  rw [Expr.layout]
  exact yields_wrapJoin (by simp [AssignOp.punct_text])

theorem Expr.prints_cond (test consequent alternate : Expr) (htest : test.Prints)
    (hconsequent : consequent.Prints) (halternate : alternate.Prints) :
    (Expr.cond test consequent alternate).Prints := by
  intro hall _ fuel heap v k c n hv
  rw [Expr.All] at hall
  obtain ⟨htype, ⟨w₁, hw₁, hshows₁⟩, ⟨w₂, hw₂, hshows₂⟩, w₃, hw₃, hshows₃⟩ := hv
  refine yields_expr (f := exprCond) (fun p => by simp [exprHandlers]) htype
    Expr.Printable.fuel fun m hm => ?_
  subst hm
  have hP : (Expr.cond test consequent alternate).Printable (m + 1) →
      test.Printable m ∧ consequent.Printable m ∧ alternate.Printable m := by
    rintro ⟨hprintable, hsize⟩
    rw [Expr.All] at hprintable
    simp at hsize
    exact ⟨⟨hprintable.2.1, by omega⟩, ⟨hprintable.2.2.1, by omega⟩, hprintable.2.2.2, by omega⟩
  refine .toObj hw₁ (htest.step hall.2.1 hall.1.1 hshows₁ (fun hp => (hP hp).1) (.toObj hw₂ ?_))
  refine hconsequent.step hall.2.2.1 hall.1.2.1 hshows₂ (fun hp => (hP hp).2.1) (.toObj hw₃ ?_)
  refine halternate.step hall.2.2.2 hall.1.2.2 hshows₃ (fun hp => (hP hp).2.2) ?_
  rw [Expr.layout]
  exact yields_wrapJoin (by simp [Punct.text])

/-! ### Calls and members -/

section

variable {P : Prop} {h : JSHeap} {arr : Value} {ws : List Value} {m : ℕ}

theorem yields_commas {s : JSHeap × Bool} (pss : List (List Piece)) (prf suf : Text)
    (hne : pss ≠ []) :
    Yields P (joinStringVector (pss.map fun ps => some (render ps)) (lit ", ") prf suf) s
      (some (prf.getD [] ++ render (separate [punct .comma, .space] pss) ++ suf.getD [])) s := by
  have hsolid : Solid (pss.map fun ps => some (render ps)) := fun t ht => by
    obtain ⟨ps, -, rfl⟩ := List.mem_map.mp ht
    exact nofun
  have hjoin := yields_joinStringVector (P := P) (s := s) (lit ", ") prf suf (by simpa using hne)
    hsolid
  rw [List.map_map] at hjoin
  rw [render_separate]
  exact hjoin

/-- Children between parentheses. -/
theorem yields_list {s : JSHeap × Bool} {pss : List (List Piece)} {x : Print Text}
    (hempty : pss = [] → x = pure (some (js "(" ++ js ")")))
    (hne : pss ≠ [] → x = joinStringVector (pss.map fun ps => some (render ps)) (lit ", ")
      (lit "(") (lit ")")) :
    Yields P x s (some (render (parens (separate [punct .comma, .space] pss)))) s := by
  by_cases hpss : pss = []
  · rw [hempty hpss, hpss]
    exact .pure _
  · rw [hne hpss, render_parens]
    exact yields_commas pss _ _ hpss

theorem yields_args {es : List Expr} (hws : arrayElems? h arr = some ws)
    (hshows : showsExprs h es ws) (hprints : ∀ e ∈ es, e.Prints)
    (hall : ∀ e ∈ es, e.All Expr.Formed Stmt.Formed) (helision : ∀ e ∈ es, e.isElision = false)
    (hP : P → ∀ e ∈ es, e.Printable m) :
    Yields P (args (unparse m) arr) (h, false) (some (render (parens
      (separate [punct .comma, .space] (es.map fun e => e.layout 0 2 false))))) (h, false) := by
  have hchildren := yields_values (P := P) (i := false) (F := fun nodeObj =>
      (unparse m).expr nodeObj (lit "") 2 false) (t := fun e => some (render (e.layout 0 2 false)))
    hws (showsExprs_forall₂ hshows) fun e he w hw => by
      obtain ⟨type, htype⟩ := hw.hasType (helision e he)
      exact ⟨htype.ref, (hprints e he (hall e he) (helision e he) m h w 0 2 false hw).mono
        fun hp => hP hp e he⟩
  refine .bind hchildren (yields_list ?_ ?_)
  · intro hes
    rw [List.map_eq_nil_iff] at hes
    simp [hes, joinStrings, lit]
  · intro hes
    have hpos : 0 < es.length := List.length_pos_iff.mpr (by simpa using hes)
    simp [hpos, Function.comp_def]

end

theorem Expr.prints_call (callee : Expr) (args : List Expr) (hcallee : callee.Prints)
    (hargs : ∀ e ∈ args, e.Prints) : (Expr.call callee args).Prints := by
  intro hall _ fuel heap v k c n hv
  rw [Expr.All] at hall
  obtain ⟨htype, ⟨w₁, hw₁, hshows₁⟩, w₂, hw₂, ws, hws, hshows₂⟩ := hv
  refine yields_expr (f := exprCall) (fun p => by simp [exprHandlers]) htype
    Expr.Printable.fuel fun m hm => ?_
  subst hm
  have hP : (Expr.call callee args).Printable (m + 1) →
      callee.Printable m ∧ ∀ e ∈ args, e.Printable m := by
    rintro ⟨hprintable, hsize⟩
    rw [Expr.All] at hprintable
    simp at hsize
    refine ⟨⟨hprintable.2.1, by omega⟩, fun e he => ⟨hprintable.2.2 e he, ?_⟩⟩
    have hlt := List.sizeOf_lt_of_mem he
    omega
  obtain ⟨a, rfl, -⟩ := arrayElems?_ref hws
  refine .toObj hw₁ (hcallee.step hall.2.1 hall.1.1 hshows₁ (fun hp => (hP hp).1) (.toObj hw₂ ?_))
  refine .bind (yields_args hws hshows₂ hargs hall.2.2 hall.1.2 fun hp => (hP hp).2) ?_
  rw [Expr.layout]
  exact yields_wrapJoin (by simp)

theorem Expr.prints_new (callee : Expr) (args : List Expr) (hcallee : callee.Prints)
    (hargs : ∀ e ∈ args, e.Prints) : (Expr.newExpr callee args).Prints := by
  intro hall _ fuel heap v k c n hv
  rw [Expr.All] at hall
  obtain ⟨htype, ⟨w₁, hw₁, hshows₁⟩, w₂, hw₂, ws, hws, hshows₂⟩ := hv
  refine yields_expr (f := exprNew) (fun p => by simp [exprHandlers]) htype
    Expr.Printable.fuel fun m hm => ?_
  subst hm
  have hP : (Expr.newExpr callee args).Printable (m + 1) →
      callee.Printable m ∧ ∀ e ∈ args, e.Printable m := by
    rintro ⟨hprintable, hsize⟩
    rw [Expr.All] at hprintable
    simp at hsize
    refine ⟨⟨hprintable.2.1, by omega⟩, fun e he => ⟨hprintable.2.2 e he, ?_⟩⟩
    have hlt := List.sizeOf_lt_of_mem he
    omega
  obtain ⟨a, rfl, -⟩ := arrayElems?_ref hws
  refine .toObj hw₂ (.arrayLength hws (.toObj hw₁ ?_))
  refine hcallee.step hall.2.1 hall.1.1 hshows₁ (fun hp => (hP hp).1) ?_
  have hlen := (showsExprs_forall₂ hshows₂).length_eq
  rw [Expr.layout]
  cases args with
  | nil =>
      rw [List.length_nil] at hlen
      simp only [← hlen, if_true]
      exact yields_wrapJoin (by simp [Keyword.text])
  | cons e es =>
      rw [List.length_cons] at hlen
      simp only [← hlen, Nat.succ_ne_zero, if_false]
      refine .bind (yields_args hws hshows₂ hargs hall.2.2 hall.1.2 fun hp => (hP hp).2) ?_
      exact yields_wrapJoin (by simp [Keyword.text])

theorem Expr.prints_member (obj : Expr) (property : JSString) (hobj : obj.Prints) :
    (Expr.member obj property).Prints := by
  intro hall _ fuel heap v k c n hv
  rw [Expr.All] at hall
  obtain ⟨htype, ⟨w₁, hw₁, hshows₁⟩, ⟨w₂, hw₂, hshows₂⟩, hcomputed⟩ := hv
  refine yields_expr (f := exprMember) (fun p => by simp [exprHandlers]) htype
    Expr.Printable.fuel fun m hm => ?_
  subst hm
  have hP : (Expr.member obj property).Printable (m + 1) → 0 < m ∧ obj.Printable m := by
    rintro ⟨hprintable, hsize⟩
    rw [Expr.All] at hprintable
    simp at hsize
    have hpos := Expr.Printable.fuel ⟨hprintable.2, le_refl (sizeOf obj)⟩
    exact ⟨by omega, hprintable.2, by omega⟩
  refine .toObj hw₁ (hobj.step hall.2 hall.1.1 hshows₁ (fun hp => (hP hp).2) ?_)
  refine .toObj hw₂ (.prop hcomputed ?_)
  rw [hshows₂.1.valueToObject]
  -- the property is an identifier that can be written after a dot
  obtain ⟨b, bs, hbytes, hb, hbs⟩ := start_and_parts (isWordText_of_isWord hall.1.2)
  have hgood : Yields ((Expr.member obj property).Printable (m + 1)) (isBadIdentifier w₂)
      (heap, false) false (heap, false) := by
    refine .toStr hshows₂.1 (.toStr hshows₂.2 ?_)
    rw [hbytes]
    simp only [hb, hbs, Bool.and_self, Bool.not_true]
    exact .pure _
  refine .bind hgood (.bind (yields_name _ hshows₂ hall.1.2 fun hp => (hP hp).1) ?_)
  refine .bind (.pure _) (.bind (yields_joinVector (by simp) (by simp)) ?_)
  rw [Expr.layout]
  exact yields_wrapExpr (by simp [Punct.text])

theorem Expr.prints_index (obj property : Expr) (hobj : obj.Prints) (hproperty : property.Prints) :
    (Expr.index obj property).Prints := by
  intro hall _ fuel heap v k c n hv
  rw [Expr.All] at hall
  obtain ⟨htype, ⟨w₁, hw₁, hshows₁⟩, ⟨w₂, hw₂, hshows₂⟩, hcomputed⟩ := hv
  refine yields_expr (f := exprMember) (fun p => by simp [exprHandlers]) htype
    Expr.Printable.fuel fun m hm => ?_
  subst hm
  have hP : (Expr.index obj property).Printable (m + 1) →
      obj.Printable m ∧ property.Printable m := by
    rintro ⟨hprintable, hsize⟩
    rw [Expr.All] at hprintable
    simp at hsize
    exact ⟨⟨hprintable.2.1, by omega⟩, hprintable.2.2, by omega⟩
  refine .toObj hw₁ (hobj.step hall.2.1 hall.1.1 hshows₁ (fun hp => (hP hp).1) ?_)
  refine .toObj hw₂ (.prop hcomputed ?_)
  refine hproperty.step hall.2.2 hall.1.2 hshows₂ (fun hp => (hP hp).2) ?_
  refine .bind (.pure _) (.bind (yields_joinVector (by simp) (by simp)) ?_)
  rw [Expr.layout]
  exact yields_wrapExpr (by simp [Punct.text])

end MetaMonkey.Frontend
