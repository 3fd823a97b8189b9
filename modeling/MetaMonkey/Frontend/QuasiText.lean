import MetaMonkey.Frontend.ObjectLiteral
import MetaMonkey.Frontend.PrintsExpr
import MetaMonkey.Staging.QuasiParts
import MetaMonkey.Staging.Traversal

/-!
The text that the stringifier prints for a quasi without escapes: the initialiser of an
object. It has one where no array has a hole.
-/

namespace MetaMonkey.Frontend

open ObjectGraph Js Staging Unparse AstNode ObjectLiteral

variable {α β : Type}

/-! ### The text -/

def leafLiteral : Value → JSString
  | boolean b => js (if b then "true" else "false")
  | number n => n.toString
  | string s => js "\"" ++ s ++ js "\""
  | _ => js "null"

mutual

def literalText : Ast → JSString
  | .leaf v => leafLiteral v
  | .record _ _ fields =>
      js "\x7b" ++ List.intercalate (js ", ") (literalProperties fields) ++ js "\x7d"
  | .array _ elems => js "[" ++ List.intercalate (js ",") (literalElements elems) ++ js "]"

def literalProperties : List (String × Ast) → List JSString
  | [] => []
  | (k, t) :: fields => (js k ++ js ":" ++ literalText t) :: literalProperties fields

def literalElements : List Ast → List JSString
  | [] => []
  | t :: elems => literalText t :: literalElements elems

end

theorem literalProperties_eq (fields : List (String × Ast)) :
    literalProperties fields = fields.map fun f => js f.1 ++ js ":" ++ literalText f.2 := by
  induction fields with
  | nil => rfl
  | cons f fields ih => rw [literalProperties, ih, List.map_cons]

theorem literalElements_eq (elems : List Ast) :
    literalElements elems = elems.map literalText := by
  induction elems with
  | nil => rfl
  | cons e elems ih => rw [literalElements, ih, List.map_cons]

/-! ### What the parser makes of a quasi -/

/-- A node that the stringifier takes for an escape. -/
def isEscape (t : Ast) : Bool :=
  equals (text t "type") "UnaryExpression" &&
    (equals (text t "operator") ".~" || equals (text t "operator") ".@")

def isRecord : Ast → Bool
  | .record .. => true
  | _ => false

/-- A part of the AST of a parser: its numbers are those of literals, its properties have names
for keys, and in its arrays are objects or holes. -/
def isParsed : Ast → Bool
  | .leaf (.leaf (.prim (.number n))) => n.unsigned || n = .infinity false
  | .leaf (.leaf (.prim _)) => true
  | .leaf _ => false
  | .record a cls fields =>
      cls ≠ .function && fields.all (fun f => isPropertyName (js f.1) && f.2.val ≠ undefined) &&
        (!equals (text (.record a cls fields) "type") "ExpressionStatement" ||
          (child (.record a cls fields) "expression").any isRecord)
  | .array _ elems => elems.all fun e => isRecord e || valueToObject e.val = null

/-- A part of a quasi without escapes, as a parser makes it. -/
structure Quoted (h : JSHeap) (t : Ast) : Prop where
  holds : h.Holds t
  texts : Textual t
  closed : t.Closed
  parsed : ∀ s ∈ t.subtrees, isParsed s = true
  noEscapes : ∀ s ∈ t.subtrees, isEscape s = false

/-! ### The run of the stringifier -/

variable {h : JSHeap} {P Q : Prop} {a : α} {b : β} {x : Print α} {f : α → Print β}

/-- On this heap the call returns the value where the condition holds, and else it fails. -/
def PrintsIf (h : JSHeap) (P : Prop) (x : Print α) (a : α) : Prop :=
  ∀ flag, (P → x (h, flag) = .ok a (h, flag)) ∧ (¬ P → ∃ e s, x (h, flag) = .error e s)

theorem PrintsIf.of_ok (hx : ∀ flag, x (h, flag) = .ok a (h, flag)) (hP : P) :
    PrintsIf h P x a :=
  fun flag => ⟨fun _ => hx flag, fun hnot => absurd hP hnot⟩

theorem PrintsIf.of_error (hx : ∀ flag, ∃ e s, x (h, flag) = .error e s) (hP : ¬ P) :
    PrintsIf h P x a :=
  fun flag => ⟨fun hp => absurd hp hP, fun _ => hx flag⟩

theorem PrintsIf.congr (hx : PrintsIf h P x a) (hPQ : P ↔ Q) : PrintsIf h Q x a :=
  propext hPQ ▸ hx

theorem PrintsIf.bind (hx : PrintsIf h P x a) (hf : PrintsIf h Q (f a) b) :
    PrintsIf h (P ∧ Q) (x >>= f) b := by
  intro flag
  obtain ⟨hok, herror⟩ := hx flag
  by_cases hP : P
  · rw [bind_ok (hok hP)]
    refine ⟨fun hPQ => (hf flag).1 hPQ.2, fun hnot => (hf flag).2 fun hQ => hnot ⟨hP, hQ⟩⟩
  · obtain ⟨e, s, hrun⟩ := herror hP
    exact ⟨fun hPQ => absurd hPQ.1 hP, fun _ => ⟨e, s, bind_error hrun f⟩⟩

/-- A call that returns, before another. -/
theorem PrintsIf.after (hx : ∀ flag, x (h, flag) = .ok a (h, flag)) (hf : PrintsIf h P (f a) b) :
    PrintsIf h P (x >>= f) b := by
  intro flag
  rw [bind_ok (hx flag)]
  exact hf flag

/-- A call after which the rest returns. -/
theorem PrintsIf.andThen (hx : PrintsIf h P x a)
    (hf : ∀ flag, f a (h, flag) = .ok b (h, flag)) : PrintsIf h P (x >>= f) b :=
  (hx.bind (.of_ok hf trivial)).congr (.of_eq (and_true P))

theorem PrintsIf.map (hx : PrintsIf h P x a) (f : α → β) :
    PrintsIf h P (do return f (← x)) (f a) :=
  hx.andThen fun _ => rfl

theorem PrintsIf.of_eq {y : Print α} (hxy : ∀ flag, x (h, flag) = y (h, flag))
    (hy : PrintsIf h P y a) : PrintsIf h P x a := by
  intro flag
  rw [hxy flag]
  exact hy flag

theorem PrintsIf.mapM {γ : Type} {f : γ → Print β} {g : γ → β} {P : γ → Prop} {l : List γ}
    (hf : ∀ c ∈ l, PrintsIf h (P c) (f c) (g c)) :
    PrintsIf h (∀ c ∈ l, P c) (l.mapM f) (l.map g) := by
  induction l with
  | nil => exact .of_ok (fun _ => rfl) (List.forall_mem_nil _)
  | cons c l ih =>
      rw [List.forall_mem_cons] at hf
      rw [List.mapM_cons, List.map_cons]
      have hrest : PrintsIf h (∀ c ∈ l, P c) (do return g c :: (← l.mapM f))
          (g c :: l.map g) := (ih hf.2).map (g c :: ·)
      exact (hf.1.bind hrest).congr List.forall_mem_cons.symm

section

variable {s t : Ast}

theorem Quoted.subtree (ht : Quoted h t) (hs : s ∈ t.subtrees) : Quoted h s where
  holds := ht.holds.subtree hs
  texts r hr := ht.texts r (Tree.subtrees_trans hr hs)
  closed := ht.closed.subtree hs
  parsed r hr := ht.parsed r (Tree.subtrees_trans hr hs)
  noEscapes r hr := ht.noEscapes r (Tree.subtrees_trans hr hs)

theorem Quoted.readable (ht : Quoted h t) (hobject : isObject t.val = true) : ReadableAst h t :=
  ⟨ht.holds, ht.texts, ht.closed, hobject⟩

theorem isObject_of_isRecord (ht : isRecord t = true) : isObject t.val = true := by
  cases t with
  | record a cls fields => rfl
  | leaf v => cases ht
  | array a elems => cases ht

theorem Quoted.operator_ne (ht : Quoted h t) (htype : equals (text t "type") "UnaryExpression") :
    equals (text t "operator") ".~" = false ∧ equals (text t "operator") ".@" = false := by
  have hescape := ht.noEscapes t t.self_mem_subtrees
  simpa [isEscape, htype] using hescape

theorem toStr_text (ht : ReadableAst h t) {key : String} (hkey : key = "type" ∨ key = "operator")
    (flag : Bool) : toStr t.val key (h, flag) = .ok (text t key) (h, flag) :=
  reads_ok (ht.getPropertyToString hkey)

theorem Quoted.escapeExpr (ht : Quoted h t) (hrecord : isRecord t = true) (flag : Bool) :
    objectContainEscapeExpr (text t "type") t.val (h, flag) = .ok none (h, flag) := by
  have hread := ht.readable (isObject_of_isRecord hrecord)
  rw [objectContainEscapeExpr]
  by_cases htype : equals (text t "type") "UnaryExpression" = true
  · rw [if_pos htype, bind_ok (toStr_text hread (Or.inr rfl) flag), (ht.operator_ne htype).1]
    rfl
  · rw [if_neg htype]
    rfl

theorem Quoted.escape (ht : Quoted h t) (hrecord : isRecord t = true) :
    ∃ fromStmt, ∀ flag, objectContainEscape t.val (h, flag) = .ok ⟨fromStmt, none⟩ (h, flag) := by
  have hread := ht.readable (isObject_of_isRecord hrecord)
  refine ⟨equals (text t "type") "ExpressionStatement", fun flag => ?_⟩
  rw [objectContainEscape, bind_ok (toStr_text hread (Or.inl rfl) flag)]
  by_cases htype : equals (text t "type") "ExpressionStatement" = true
  · obtain ⟨e, he, herecord⟩ : ∃ e, child t "expression" = some e ∧ isRecord e = true := by
      have hparsed := ht.parsed t t.self_mem_subtrees
      cases t with
      | leaf v => cases hrecord
      | array a elems => cases hrecord
      | record a cls fields =>
          rw [isParsed, htype, Bool.and_eq_true] at hparsed
          simpa [Option.any_eq_true] using hparsed.2
    have hexpr := ht.subtree (child_mem_subtrees he)
    have hchild : objChild t "expression" = some e := by
      rw [objChild, he]
      cases e with
      | record a cls fields => rfl
      | leaf v => cases herecord
      | array a elems => cases herecord
    have hobj : toObj t.val "expression" (h, flag) = .ok e.val (h, flag) :=
      reads_ok (by rw [hread.getPropertyToObj, hchild, valOr_some])
    rw [if_pos htype, bind_ok hobj, bind_ok (toStr_text (hexpr.readable
      (isObject_of_isRecord herecord)) (Or.inl rfl) flag),
      bind_ok (hexpr.escapeExpr herecord flag), htype]
    rfl
  · rw [if_neg htype, bind_ok (ht.escapeExpr hrecord flag), Bool.eq_false_of_not_eq_true htype]
    rfl

theorem Quoted.escapejsvalue (ht : Quoted h t) (hrecord : isRecord t = true) (flag : Bool) :
    objectContainEscapejsvalue t.val (h, flag) = .ok none (h, flag) := by
  have hread := ht.readable (isObject_of_isRecord hrecord)
  rw [objectContainEscapejsvalue, bind_ok (toStr_text hread (Or.inl rfl) flag)]
  by_cases htype : equals (text t "type") "UnaryExpression" = true
  · rw [if_pos htype, bind_ok (toStr_text hread (Or.inr rfl) flag), (ht.operator_ne htype).2]
    rfl
  · rw [if_neg htype]
    rfl

end

/-! ### Printing -/

section

variable {p : Printer}

theorem joinVector_run {strs : List Text} (hne : strs ≠ []) (hstrs : Solid strs)
    (s : JSHeap × Bool) : joinVector strs s = .ok (some (textOf strs)) s :=
  (yields_joinVector hne hstrs).1 trivial

theorem joinVector_single (text : JSString) (s : JSHeap × Bool) :
    joinVector [some text] s = .ok (some text) s := by
  simp [joinVector, joinStringVector, joinStrings]

theorem solid_map_some (texts : List JSString) : Solid (texts.map some) := by
  simp [Solid]

theorem brackets_some (texts : List JSString) (s : JSHeap × Bool) :
    brackets (texts.map some) s =
      .ok (some (js "[" ++ List.intercalate (js ",") texts ++ js "]")) s := by
  rw [brackets]
  split
  · next hempty =>
      obtain rfl : texts = [] := by simpa using hempty
      rfl
  · next hempty =>
      have hjoin := (yields_joinStringVector (P := True) (s := s) (lit ",") (lit "[") (lit "]")
        (by simpa using hempty) (solid_map_some texts)).1 trivial
      simpa [lit, Function.comp_def] using hjoin

theorem arrayText_normal (texts : List JSString) (s : JSHeap × Bool) :
    arrayText (texts.map fun text => .normal (some text)) s =
      .ok [some (js "[" ++ List.intercalate (js ",") texts ++ js "]")] s := by
  have hnormal : (texts.map fun text => ElementText.normal (some text)).filterMap
      ElementText.normal? = texts.map some := by
    rw [List.filterMap_map, ← List.filterMap_eq_map]
    rfl
  have hescape : (texts.map fun text => ElementText.normal (some text)).filterMap
      ElementText.escape? = [] := by
    simp [List.filterMap_map, ElementText.escape?]
  rw [arrayText, hnormal, hescape, bind_ok (brackets_some texts s)]
  rfl

theorem regular_record_iff {a : ℕ} {cls : ObjClass} {fields : List (String × Ast)}
    (ht : Quoted h (.record a cls fields)) :
    Regular (.record a cls fields) ↔ ∀ f ∈ fields, Regular f.2 := by
  constructor
  · intro hreg f hf s hs
    exact hreg s (Tree.subtrees_of_field hf hs)
  · intro hfields s hs
    rcases List.mem_cons.mp (Tree.subtrees_record a cls fields ▸ hs) with rfl | hs
    · obtain ⟨htype, hop⟩ := ht.texts _ (Tree.self_mem_subtrees _)
      exact ⟨htype, hop, rfl⟩
    · obtain ⟨f, hf, hs⟩ := List.mem_flatMap.mp hs
      exact hfields f hf s hs

theorem regular_array_iff {a : ℕ} {elems : List Ast} (ht : Quoted h (.array a elems)) :
    Regular (.array a elems) ↔ ∀ e ∈ elems, isRecord e = true ∧ Regular e := by
  have hparsed : ∀ e ∈ elems, isRecord e = true ∨ valueToObject e.val = null := by
    have hall := ht.parsed _ (Tree.self_mem_subtrees _)
    rw [isParsed, List.all_eq_true] at hall
    intro e he
    simpa using hall e he
  constructor
  · intro hreg e he
    refine ⟨?_, fun s hs => hreg s (Tree.subtrees_of_elem he hs)⟩
    have helem := (hreg _ (Tree.self_mem_subtrees _)).2.2
    rw [elemsRegular, List.all_eq_true] at helem
    have hthis := helem e he
    cases e with
    | record b cls fields => rfl
    | array b elems' => cases hthis
    | leaf v =>
        rcases hparsed _ he with hrec | hnull
        · cases hrec
        · exact absurd hnull (of_decide_eq_true hthis)
  · intro helems s hs
    rcases List.mem_cons.mp (Tree.subtrees_array a elems ▸ hs) with rfl | hs
    · refine ⟨rfl, rfl, ?_⟩
      rw [elemsRegular, List.all_eq_true]
      intro e he
      cases e with
      | record b cls fields => rfl
      | array b elems' => cases (helems _ he).1
      | leaf v => cases (helems _ he).1
    · obtain ⟨e, he, hs⟩ := List.mem_flatMap.mp hs
      exact (helems e he).2 s hs

/-- An object, for a printer of objects. -/
def PrintsObject (h : JSHeap) (p : Printer) (t : Ast) : Prop :=
  PrintsIf h (Regular t) (p.stringify t.val) (some (literalText t))

theorem printsIf_element {a : ℕ} {elems : List Ast} (ht : Quoted h (.array a elems)) {i : ℕ}
    {e : Ast} (he : elems[i]? = some e) (hprints : isRecord e = true → PrintsObject h p e) :
    PrintsIf h (isRecord e = true ∧ Regular e) (do
        let nodeObj ← elementToObj (.ref a) i
        elementText p i nodeObj (← objectContainEscape nodeObj))
      (.normal (some (literalText e))) := by
  have hmem : e ∈ elems := List.mem_of_getElem? he
  have hc : h.cell a = some (.array (elems.map Tree.val)) := ht.holds.shows
  have hread : ∀ flag, elementToObj (.ref a) i (h, flag) =
      .ok (valueToObject e.val) (h, flag) := fun flag =>
    reads_ok (by simp [getArrayElementToObj, getElement, arrayElems?, hc, he])
  refine .after hread ?_
  by_cases hrecord : isRecord e = true
  · have hval : valueToObject e.val = e.val := by
      cases e with
      | record b cls fields => rfl
      | leaf v => cases hrecord
      | array b elems' => cases hrecord
    obtain ⟨fromStmt, hescape⟩ := (ht.subtree (Tree.subtrees_of_elem hmem
      e.self_mem_subtrees)).escape hrecord
    rw [hval]
    refine .after hescape ?_
    exact ((hprints hrecord).map ElementText.normal).congr ⟨fun hreg => ⟨hrecord, hreg⟩, And.right⟩
  · have hnull : valueToObject e.val = null := by
      have hall := ht.parsed _ (Tree.self_mem_subtrees _)
      rw [isParsed, List.all_eq_true] at hall
      simpa [hrecord] using hall e hmem
    rw [hnull]
    refine .of_error (fun flag => ⟨.crash, (h, flag), ?_⟩) fun hreg => hrecord hreg.1
    exact bind_error (bind_error (reads_error rfl) _) _

theorem printsIf_elements {a : ℕ} {elems : List Ast} (ht : Quoted h (.array a elems))
    (helems : ∀ e ∈ elems, isRecord e = true → PrintsObject h p e) :
    PrintsIf h (Regular (.array a elems)) (stringifyElements p (.ref a) elems.length)
      (elems.map fun e => .normal (some (literalText e))) := by
  have htexts : (elems.map fun e => ElementText.normal (some (literalText e))) =
      (List.range elems.length).map fun i =>
        ElementText.normal (some ((elems[i]?.map literalText).getD [])) := by
    refine List.ext_getElem (by simp) fun i hi _ => ?_
    simp only [List.length_map] at hi
    simp [List.getElem?_eq_getElem hi]
  rw [htexts, stringifyElements]
  refine (PrintsIf.mapM (P := fun i => ∀ e, elems[i]? = some e → isRecord e = true ∧ Regular e)
    fun i hi => ?_).congr ?_
  · have hlt : i < elems.length := List.mem_range.mp hi
    have he : elems[i]? = some elems[i] := List.getElem?_eq_getElem hlt
    have hprints := printsIf_element ht he (helems _ (List.getElem_mem hlt))
    rw [he, Option.map_some, Option.getD_some]
    exact hprints.congr (by simp)
  · rw [regular_array_iff ht]
    constructor
    · intro hall e he
      obtain ⟨i, hi⟩ := List.mem_iff_getElem?.mp he
      exact hall i (List.mem_range.mpr (List.getElem?_eq_some_iff.mp hi).1) e hi
    · intro hall i _ e he
      exact hall e (List.mem_of_getElem? he)

/-- The value of a property, or of an element. -/
theorem printsIf_value {t : Ast} (ht : Quoted h t)
    (hrecord : isRecord t = true → PrintsObject h p t)
    (helems : ∀ a elems, t = .array a elems → ∀ e ∈ elems, isRecord e = true →
      PrintsObject h p e) :
    PrintsIf h (Regular t) (stringifyObjectValue p t.val) (some (literalText t)) := by
  have hparsed := ht.parsed t t.self_mem_subtrees
  cases t with
  | leaf v =>
      have hregular : Regular (.leaf v) := fun s hs => by
        rw [Tree.subtrees_leaf, List.mem_singleton] at hs
        subst hs
        exact ⟨rfl, rfl, rfl⟩
      refine .of_ok (fun flag => ?_) hregular
      match v with
      | string text =>
          change joinVector [lit "\"", some text, lit "\""] (h, flag) = _
          rw [joinVector_run (by simp) (by simp)]
          simp [literalText, leafLiteral]
      | number n => exact joinVector_single n.toString _
      | boolean b => exact joinVector_single (js (if b then "true" else "false")) _
      | null => exact joinVector_single (js "null") _
      | undefined => exact joinVector_single (js "null") _
      | .leaf (.wrapper q) => cases hparsed
      | .ref a => cases hparsed
  | array a elems =>
      have hc : h.cell a = some (.array (elems.map Tree.val)) := ht.holds.shows
      have hrun : ∀ flag, valueText p (.ref a) (h, flag) = stringifyArray p (.ref a) (h, flag) := by
        intro flag
        rw [valueText_object p rfl flag, if_neg (by simp [isFunction, hc]),
          if_pos (by simp [arrayElems?, hc])]
      have hlength : ∀ flag, arrayLength (.ref a) (h, flag) = .ok elems.length (h, flag) :=
        fun flag => reads_ok (by simp [getArrayLength, hc])
      have helements := printsIf_elements ht fun e he => helems a elems rfl e he
      have hvalue : PrintsIf h (Regular (.array a elems)) (valueText p (.ref a))
          [some (literalText (.array a elems))] := by
        refine .of_eq hrun (.after hlength (helements.andThen fun flag => ?_))
        have hnormal := arrayText_normal (elems.map literalText) (h, flag)
        rw [List.map_map] at hnormal
        rw [literalText, literalElements_eq]
        exact hnormal
      exact hvalue.andThen fun flag => joinVector_single _ _
  | record a cls fields =>
      obtain ⟨distinct, hc⟩ := ht.holds.shows
      have hclass : cls ≠ .function := by
        rw [isParsed] at hparsed
        simp only [Bool.and_eq_true, decide_eq_true_eq] at hparsed
        exact hparsed.1.1
      have hrun : ∀ flag, valueText p (.ref a) (h, flag) =
          (objectContainEscape (.ref a) >>= singleText p (.ref a)) (h, flag) := by
        intro flag
        rw [valueText_object p rfl flag, if_neg (by simp [isFunction, hc, hclass]),
          if_neg (by simp [arrayElems?, hc])]
      obtain ⟨fromStmt, hescape⟩ := ht.escape rfl
      have hvalue : PrintsIf h (Regular (.record a cls fields)) (valueText p (.ref a))
          [some (literalText (.record a cls fields))] :=
        .of_eq hrun (.after hescape ((hrecord rfl).map fun text => [text]))
      exact hvalue.andThen fun flag => joinVector_single _ _

end

theorem textOf_intercalate (sep : List Text) (xss : List (List Text)) :
    textOf (List.intercalate sep xss) = List.intercalate (textOf sep) (xss.map textOf) := by
  induction xss with
  | nil => rfl
  | cons xs xss ih =>
      cases xss with
      | nil => simp [List.intercalate_singleton]
      | cons ys xss => simp [List.intercalate_cons_cons, ih]

theorem solid_intercalate {sep : List Text} {xss : List (List Text)} (hsep : Solid sep)
    (hxss : ∀ xs ∈ xss, Solid xs) : Solid (List.intercalate sep xss) := by
  intro t ht
  rcases mem_intercalate ht with ht | ⟨xs, hxs, ht⟩
  · exact hsep t ht
  · exact hxss xs hxs t ht

theorem printsIf_properties {p : Printer} {fields : List (String × Ast)}
    (hfields : ∀ f ∈ fields,
      PrintsIf h (Regular f.2) (stringifyObjectValue p f.2.val) (some (literalText f.2))) :
    PrintsIf h (∀ f ∈ fields, Regular f.2)
      (propertiesText p (fields.map fun f => (f.1, f.2.val)))
      (some (js "\x7b" ++ List.intercalate (js ", ") (literalProperties fields) ++
        js "\x7d")) := by
  rw [propertiesText, List.mapM_map]
  refine (PrintsIf.mapM (g := fun f => [some (js f.1), lit ":", some (literalText f.2)])
    fun f hf => (hfields f hf).map fun text => [some (js f.1), lit ":", text]).andThen
      fun flag => ?_
  rw [joinVector_run (by simp) (by
    simp only [solid_append, solid_lit, solid_nil, and_true, true_and]
    refine solid_intercalate (by simp) fun xs hxs => ?_
    obtain ⟨f, -, rfl⟩ := List.mem_map.mp hxs
    simp)]
  simp [textOf_intercalate, literalProperties_eq, Function.comp_def]

/-- The stringifier prints the initialiser of an object where no array has a hole. -/
theorem printsObject {t : Ast} (ht : Quoted h t) (hrecord : isRecord t = true) {stack : ℕ}
    (hstack : t.height ≤ stack) : PrintsObject h (unparse stack) t := by
  induction stack generalizing t with
  | zero =>
      cases t with
      | leaf v => cases hrecord
      | array a elems => cases hrecord
      | record a cls fields =>
          exact absurd hstack (by simp [ObjectGraph.Tree.height])
  | succ stack ih =>
      cases t with
      | leaf v => cases hrecord
      | array a elems => cases hrecord
      | record a cls fields =>
          obtain ⟨distinct, hc⟩ := ht.holds.shows
          have hslots : ∀ flag : Bool, reads (fun h => Unparse.slots h (.ref a)) (h, flag) =
              .ok (fields.map fun f => (f.1, f.2.val)) (h, flag) :=
            fun flag => reads_ok (by simp [Unparse.slots, hc])
          have hfield : ∀ f ∈ fields, f.2.height ≤ stack := fun f hf =>
            Nat.le_of_lt_succ (Nat.lt_of_lt_of_le (Tree.height_field_lt hf) hstack)
          have hfields : ∀ f ∈ fields, PrintsIf h (Regular f.2)
              (stringifyObjectValue (unparse stack) f.2.val) (some (literalText f.2)) := by
            intro f hf
            have hpart := ht.subtree (Tree.subtrees_of_field hf f.2.self_mem_subtrees)
            refine printsIf_value hpart (fun hrec => ih hpart hrec (hfield f hf)) ?_
            intro b elems heq e he hrec
            have hmem : e ∈ f.2.subtrees := by
              rw [heq]
              exact Tree.subtrees_of_elem he e.self_mem_subtrees
            have hlt : e.height < f.2.height := by
              rw [heq]
              exact Tree.height_elem_lt he
            exact ih (hpart.subtree hmem) hrec (hlt.le.trans (hfield f hf))
          have hobject : PrintsIf h (Regular (.record a cls fields))
              (stringifyObject (unparse stack) (.ref a))
              (some (literalText (.record a cls fields))) := by
            rw [stringifyObject]
            refine .after (ht.escapejsvalue rfl) (.after hslots ?_)
            exact (printsIf_properties hfields).congr (regular_record_iff ht).symm
          exact hobject

end MetaMonkey.Frontend
