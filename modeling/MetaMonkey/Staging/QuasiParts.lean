import MetaMonkey.Staging.UnparseHeap
import MetaMonkey.Staging.Tags

/-!
What the stringifier of quasis comes upon, in its order: escapes, whose arguments it has
printed, and what it cannot go on from. A hole of an array is a null pointer that it follows;
a function and an array in an array are reported as errors.
-/

namespace MetaMonkey.Staging

open ObjectGraph Js Unparse

variable {α β : Type}

/-! ### The parts of a quoted value -/

/-- The pointer to the text of an argument is followed unless the escape is in an array. -/
inductive Part where
  | fault (e : Fault)
  | argument (stack : ℕ) (arg : Value) (followed : Bool)
  deriving DecidableEq

def partsOf (x : Except Fault α) (f : α → List Part) : List Part :=
  match x with
  | .ok a => f a
  | .error e => [.fault e]

section

variable (h : JSHeap)

/-- The escape `.~` that an expression is. -/
def escapeExprNode (typeStr : JSString) (exprObj : Value) : Except Fault (Option Value) := do
  if equals typeStr "UnaryExpression" then
    let opStr ← getPropertyToString h exprObj "operator"
    return if equals opStr ".~" then some exprObj else none
  return none

/-- The escape `.~` that a node is, alone or as a statement. -/
def escapeNode (obj : Value) : Except Fault (Option Value) := do
  let typeStr ← getPropertyToString h obj "type"
  if equals typeStr "ExpressionStatement" then
    let node ← getPropertyToObj h obj "expression"
    escapeExprNode h (← getPropertyToString h node "type") node
  else
    escapeExprNode h typeStr obj

/-- The argument of the escape `.@` that a node is. -/
def escapedValue (obj : Value) : Except Fault (Option Value) := do
  let typeExprStr ← getPropertyToString h obj "type"
  if equals typeExprStr "UnaryExpression" then
    let opStr ← getPropertyToString h obj "operator"
    if equals opStr ".@" then
      return some (← getPropertyToObj h obj "argument")
  return none

variable (stack : ℕ) (below : Value → List Part)

/-- A node that may be an escape. -/
def nodeParts (followed : Bool) (node : Value) : List Part :=
  partsOf (escapeNode h node) fun escape =>
    match escape with
    | some escapeNode =>
        partsOf (getPropertyToObj h escapeNode "argument") fun arg =>
          [.argument stack arg followed]
    | none => below node

def valueParts : Value → List Part
  | .leaf (.prim _) => []
  | v =>
      if isFunction h v then [.fault .jsFalse]
      else
        match arrayElems? h v with
        | some elems => elems.flatMap fun e => nodeParts h stack below false (valueToObject e)
        | none => nodeParts h stack below true v

/-- The parts of an object, with this much stack. -/
def objectParts : ℕ → Value → List Part
  | 0, _ => [.fault .crash]
  | stack + 1, obj =>
      partsOf (escapedValue h obj) fun escaped =>
        match escaped with
        | some arg => [.argument stack arg false]
        | none => partsOf (slots h obj) fun fields =>
            fields.flatMap fun f => valueParts h stack (objectParts stack) f.2

/-- The arguments are printed in order; a fault ends this. What remains is the flag. -/
def runParts : Bool → List Part → Except Fault Bool
  | flag, [] => .ok flag
  | _, .fault e :: _ => .error e
  | flag, .argument stack arg followed :: parts =>
      match (unparse stack).expr arg (lit "    ") 15 false (h, flag) with
      | .ok text s => if followed && text.isNone then .error .crash else runParts s.2 parts
      | .error e _ => .error e

end

variable {h : JSHeap} {P : α → Prop} {Q : β → Prop} {ps qs : List Part}

theorem runParts_append (flag : Bool) (ps qs : List Part) :
    runParts h flag (ps ++ qs) = runParts h flag ps >>= fun flag => runParts h flag qs := by
  induction ps generalizing flag with
  | nil => rfl
  | cons part ps ih =>
      cases part with
      | fault e => rfl
      | argument stack arg followed =>
          simp only [List.cons_append, runParts]
          split
          · split
            · rfl
            · exact ih _
          · rfl

/-! ### Calls that come upon the parts -/

/-- On this heap the call returns a value with `P`, or it fails, as the parts say. -/
def ComesUpon (h : JSHeap) (x : Print α) (parts : List Part) (P : α → Prop) : Prop :=
  ∀ flag, match runParts h flag parts with
    | .ok flag' => ∃ a, x (h, flag) = .ok a (h, flag') ∧ P a
    | .error e => ∃ s, x (h, flag) = .error e s

theorem comesUpon_pure {a : α} (ha : P a) : ComesUpon h (pure a) [] P := fun _ => ⟨a, rfl, ha⟩

theorem comesUpon_throw (e : Fault) : ComesUpon h (throw e) [.fault e] P := fun _ => ⟨_, rfl⟩

theorem ComesUpon.bind {x : Print α} {f : α → Print β} (hx : ComesUpon h x ps P)
    (hf : ∀ a, P a → ComesUpon h (f a) qs Q) : ComesUpon h (x >>= f) (ps ++ qs) Q := by
  intro flag
  have hxs := hx flag
  rw [runParts_append]
  cases hps : runParts h flag ps with
  | ok flag' =>
      rw [hps] at hxs
      obtain ⟨a, hrun, ha⟩ := hxs
      have hfs := hf a ha flag'
      rw [ok_bind, bind_ok hrun]
      exact hfs
  | error e =>
      rw [hps] at hxs
      obtain ⟨s, hrun⟩ := hxs
      exact ⟨s, bind_error hrun f⟩

/-- A call goes on without coming upon more. -/
theorem ComesUpon.andThen {x : Print α} {f : α → Print β} (hx : ComesUpon h x ps P)
    (hf : ∀ a, P a → ComesUpon h (f a) [] Q) : ComesUpon h (x >>= f) ps Q := by
  have hbind := hx.bind hf
  rwa [List.append_nil] at hbind

theorem ComesUpon.map {x : Print α} {f : α → β} (hx : ComesUpon h x ps P)
    (hf : ∀ a, P a → Q (f a)) : ComesUpon h (do return f (← x)) ps Q :=
  hx.andThen fun a ha => comesUpon_pure (hf a ha)

theorem comesUpon_reads_bind {f : JSHeap → Except Fault α} {g : α → Print β}
    {parts : α → List Part} (hg : ∀ a, f h = .ok a → ComesUpon h (g a) (parts a) Q) :
    ComesUpon h (reads f >>= g) (partsOf (f h) parts) Q := by
  intro flag
  cases hread : f h with
  | ok a =>
      have hgs := hg a hread flag
      rw [bind_ok (reads_ok hread)]
      exact hgs
  | error e => exact ⟨_, bind_error (reads_error hread) g⟩

theorem ComesUpon.mapM {γ : Type} {f : γ → Print α} {parts : γ → List Part} {l : List γ}
    (hf : ∀ c ∈ l, ComesUpon h (f c) (parts c) P) :
    ComesUpon h (l.mapM f) (l.flatMap parts) fun as => ∀ a ∈ as, P a := by
  induction l with
  | nil => exact comesUpon_pure (by simp)
  | cons c l ih =>
      rw [List.forall_mem_cons] at hf
      rw [List.mapM_cons, List.flatMap_cons]
      refine hf.1.bind fun a ha => (ih hf.2).map fun as has => ?_
      exact List.forall_mem_cons.mpr ⟨ha, has⟩

/-- An argument that is printed. -/
theorem comesUpon_argument (hh : NoBoxedTypes h) {stack : ℕ} {arg : Value} {followed : Bool}
    {f : Text → Print β} (hsome : ∀ text, ComesUpon h (f (some text)) [] Q)
    (hnone : ComesUpon h (f none) (if followed then [.fault .crash] else []) Q) :
    ComesUpon h ((unparse stack).expr arg (lit "    ") 15 false >>= f)
      [.argument stack arg followed] Q := by
  intro flag
  rw [runParts]
  cases hrun : (unparse stack).expr arg (lit "    ") 15 false (h, flag) with
  | error e s => exact ⟨s, bind_error hrun f⟩
  | ok text s =>
      obtain ⟨h', flag'⟩ := s
      obtain rfl : h' = h :=
        ((keepsHeap_unparse stack).expr arg (lit "    ") 15 false).holds _ _ _ hh hrun
      rw [bind_ok hrun]
      cases text with
      | some text => simpa using hsome text flag'
      | none =>
          have hns := hnone flag'
          cases followed <;> exact hns

/-! ### Texts that are joined -/

/-- The pointer to the text is not null. -/
def HasText (text : Text) : Prop := text.isSome = true

theorem mapM_id_of_hasText {strs : List Text} (hstrs : ∀ s ∈ strs, HasText s) :
    ∃ texts, strs.mapM id = some texts := by
  induction strs with
  | nil => exact ⟨[], rfl⟩
  | cons s strs ih =>
      rw [List.forall_mem_cons] at hstrs
      obtain ⟨text, rfl⟩ := Option.isSome_iff_exists.mp hstrs.1
      obtain ⟨texts, htexts⟩ := ih hstrs.2
      exact ⟨text :: texts, by simp [htexts]⟩

theorem comesUpon_joinStringVector {strs : List Text} {sep prf suf : Text} (hne : strs ≠ [])
    (hstrs : ∀ s ∈ strs, HasText s) :
    ComesUpon h (joinStringVector strs sep prf suf) [] HasText := by
  unfold joinStringVector
  split
  · exact absurd rfl hne
  · exact comesUpon_pure rfl
  · obtain ⟨texts, htexts⟩ := mapM_id_of_hasText hstrs
    rw [htexts]
    exact comesUpon_pure rfl

theorem comesUpon_joinVector {strs : List Text} (hne : strs ≠ []) (hstrs : ∀ s ∈ strs, HasText s) :
    ComesUpon h (joinVector strs) [] HasText :=
  comesUpon_joinStringVector hne hstrs

theorem comesUpon_brackets {strs : List Text} (hstrs : ∀ s ∈ strs, HasText s) :
    ComesUpon h (brackets strs) [] HasText := by
  unfold brackets
  split
  · exact comesUpon_pure rfl
  · rename_i hne
    exact comesUpon_joinStringVector (by simpa using hne) hstrs

theorem mem_intercalate {γ : Type} {sep : List γ} {ls : List (List γ)} {x : γ}
    (hx : x ∈ List.intercalate sep ls) : x ∈ sep ∨ ∃ l ∈ ls, x ∈ l := by
  induction ls with
  | nil => cases hx
  | cons a ls ih =>
      cases ls with
      | nil =>
          rw [List.intercalate_singleton] at hx
          exact .inr ⟨a, List.mem_singleton_self a, hx⟩
      | cons b ls =>
          rw [List.intercalate_cons_cons, List.mem_append, List.mem_append] at hx
          rcases hx with (hx | hx) | hx
          · exact .inr ⟨a, List.mem_cons_self, hx⟩
          · exact .inl hx
          · exact (ih hx).imp_right fun ⟨m, hm, hxm⟩ => ⟨m, List.mem_cons_of_mem _ hm, hxm⟩

/-! ### The stringifier -/

@[simp] theorem partsOf_pure (a : α) (f : α → List Part) : partsOf (pure a) f = f a := rfl

theorem partsOf_bind (x : Except Fault α) (g : α → Except Fault β) (f : β → List Part) :
    partsOf (x >>= g) f = partsOf x fun a => partsOf (g a) f := by
  cases x <;> rfl

theorem comesUpon_escapeExprNode {typeStr : JSString} {obj : Value} {f : Option Value → Print β}
    {parts : Option Value → List Part} (hf : ∀ node, ComesUpon h (f node) (parts node) Q) :
    ComesUpon h (objectContainEscapeExpr typeStr obj >>= f)
      (partsOf (escapeExprNode h typeStr obj) parts) Q := by
  unfold objectContainEscapeExpr escapeExprNode
  split
  · rw [bind_assoc, partsOf_bind]
    refine comesUpon_reads_bind fun opStr _ => ?_
    rw [pure_bind, partsOf_pure]
    exact hf _
  · rw [pure_bind, partsOf_pure]
    exact hf _

theorem comesUpon_escapeNode {obj : Value} {f : Escape → Print β}
    {parts : Option Value → List Part} (hf : ∀ b node, ComesUpon h (f ⟨b, node⟩) (parts node) Q) :
    ComesUpon h (objectContainEscape obj >>= f) (partsOf (escapeNode h obj) parts) Q := by
  unfold objectContainEscape escapeNode
  rw [bind_assoc, partsOf_bind]
  refine comesUpon_reads_bind fun typeStr _ => ?_
  split
  · simp only [bind_assoc, partsOf_bind, pure_bind]
    refine comesUpon_reads_bind fun node _ => comesUpon_reads_bind fun typeStr _ => ?_
    exact comesUpon_escapeExprNode fun node => hf true node
  · simp only [bind_assoc, pure_bind]
    exact comesUpon_escapeExprNode fun node => hf false node

theorem comesUpon_escapedValue {obj : Value} {f : Option Value → Print β}
    {parts : Option Value → List Part} (hf : ∀ arg, ComesUpon h (f arg) (parts arg) Q) :
    ComesUpon h (objectContainEscapejsvalue obj >>= f) (partsOf (escapedValue h obj) parts) Q := by
  unfold objectContainEscapejsvalue escapedValue
  rw [bind_assoc, partsOf_bind]
  refine comesUpon_reads_bind fun typeStr _ => ?_
  simp only
  split
  · rw [bind_assoc, partsOf_bind]
    refine comesUpon_reads_bind fun opStr _ => ?_
    split
    · simp only [bind_assoc, partsOf_bind, pure_bind]
      exact comesUpon_reads_bind fun arg _ => hf (some arg)
    · rw [pure_bind]
      exact hf none
  · rw [pure_bind]
    exact hf none

/-- What is known of the texts of an element. -/
def Unparse.ElementText.HasText : ElementText → Prop
  | .normal s => Staging.HasText s
  | .escape s _ => Staging.HasText s

theorem comesUpon_arrayText {elements : List ElementText} (helements : ∀ e ∈ elements, e.HasText) :
    ComesUpon h (arrayText elements) [] fun l => l ≠ [] ∧ ∀ s ∈ l, HasText s := by
  have hnormal : ∀ s ∈ elements.filterMap ElementText.normal?, HasText s := by
    intro s hs
    obtain ⟨e, he, hes⟩ := List.mem_filterMap.mp hs
    cases e with
    | normal s' =>
        cases hes
        exact helements _ he
    | escape s' b => cases hes
  have hescape : ∀ s ∈ (elements.filterMap ElementText.escape?).map Prod.fst, HasText s := by
    intro s hs
    obtain ⟨⟨s', b⟩, hs', rfl⟩ := List.mem_map.mp hs
    obtain ⟨e, he, hes⟩ := List.mem_filterMap.mp hs'
    cases e with
    | normal s'' => cases hes
    | escape s'' b' =>
        cases hes
        exact helements _ he
  unfold arrayText
  refine (comesUpon_brackets hnormal).andThen fun retArray hretArray => ?_
  simp only
  split
  · exact comesUpon_pure (by simpa using hretArray)
  · refine (comesUpon_brackets hescape).map fun retEscape hretEscape => ?_
    simp_all [lit, boolText, HasText]

section

variable (hh : NoBoxedTypes h) {stack : ℕ} {below : Value → List Part}
  (hbelow : ∀ v, ComesUpon h ((unparse stack).stringify v) (below v) HasText)
include hh hbelow

theorem comesUpon_elementText (i : ℕ) (node : Value) :
    ComesUpon h (objectContainEscape node >>= elementText (unparse stack) i node)
      (nodeParts h stack below false node) ElementText.HasText := by
  refine comesUpon_escapeNode fun b escape => ?_
  cases escape with
  | none => exact (hbelow node).map fun s hs => hs
  | some escapeNode =>
      refine comesUpon_reads_bind fun arg _ => comesUpon_argument hh (fun text => ?_) ?_ <;>
        exact comesUpon_pure rfl

theorem comesUpon_stringifyElements {arr : Value} {elems : List Value}
    (harr : arrayElems? h arr = some elems) :
    ComesUpon h (stringifyElements (unparse stack) arr elems.length)
      (elems.flatMap fun e => nodeParts h stack below false (valueToObject e))
      fun elements => ∀ e ∈ elements, e.HasText := by
  have helems : elems = (List.range elems.length).map fun i => elems[i]?.getD undefined := by
    refine List.ext_getElem (by simp) fun i hi _ => ?_
    simp [List.getElem?_eq_getElem hi]
  conv in elems.flatMap _ => rw [helems, List.flatMap_map]
  refine .mapM fun i _ => ?_
  have hread : ∀ f : Value → Print ElementText, ∀ flag, (elementToObj arr i >>= f) (h, flag) =
      f (valueToObject (elems[i]?.getD undefined)) (h, flag) := fun f flag =>
    bind_ok (reads_ok (by simp [getArrayElementToObj, getElement, harr])) f
  intro flag
  rw [hread]
  exact comesUpon_elementText hh hbelow i _ flag

theorem comesUpon_stringifyArray {arr : Value} {elems : List Value}
    (harr : arrayElems? h arr = some elems) :
    ComesUpon h (stringifyArray (unparse stack) arr)
      (elems.flatMap fun e => nodeParts h stack below false (valueToObject e))
      fun l => l ≠ [] ∧ ∀ s ∈ l, HasText s := by
  intro flag
  have hlength : arrayLength arr (h, flag) = .ok elems.length (h, flag) := by
    refine reads_ok ?_
    unfold arrayElems? at harr
    split at harr
    · split at harr
      · rename_i hc
        cases harr
        simp [getArrayLength, hc]
      · cases harr
    · cases harr
  rw [stringifyArray, bind_ok hlength]
  exact ((comesUpon_stringifyElements hh hbelow harr).andThen fun elements helements =>
    comesUpon_arrayText helements) flag

/-- The text of a value that is no array. -/
theorem comesUpon_singleText (v : Value) :
    ComesUpon h (objectContainEscape v >>= fun e => singleText (unparse stack) v e >>= joinVector)
      (nodeParts h stack below true v) HasText := by
  refine comesUpon_escapeNode fun b escape => ?_
  cases escape with
  | none =>
      rw [singleText, bind_assoc]
      refine (hbelow v).andThen fun s hs => ?_
      rw [pure_bind]
      exact comesUpon_joinVector (by simp) (by simpa using hs)
  | some escapeNode =>
      rw [singleText, bind_assoc]
      refine comesUpon_reads_bind fun arg _ => ?_
      rw [bind_assoc]
      refine comesUpon_argument hh (fun text => ?_) ?_
      · rw [pure_bind]
        exact comesUpon_joinVector (by simp) (by simp [lit, boolText, HasText])
      · rw [pure_bind]
        exact comesUpon_throw _

omit hh hbelow in
theorem valueText_object (p : Printer) {v : Value} (hv : isObject v = true) (flag : Bool) :
    valueText p v (h, flag) =
      if isFunction h v then .error .jsFalse (h, flag)
      else if (arrayElems? h v).isSome then stringifyArray p v (h, flag)
      else (objectContainEscape v >>= singleText p v) (h, flag) := by
  have hrun : valueText p v (h, flag) =
      (if isFunction h v then throw .jsFalse
        else get >>= fun s => if (arrayElems? s.1 v).isSome then stringifyArray p v
          else objectContainEscape v >>= singleText p v : Print (List Text)) (h, flag) := by
    unfold valueText
    split <;> first | cases hv | skip
    cases hfunction : isFunction h v <;> simp [bind_apply, hfunction]
  rw [hrun]
  split
  · rfl
  · rw [bind_ok (get_apply _)]
    split <;> rfl

theorem comesUpon_object {v : Value} (hv : isObject v = true) :
    ComesUpon h (stringifyObjectValue (unparse stack) v) (valueParts h stack below v) HasText := by
  intro flag
  have hparts : valueParts h stack below v =
      if isFunction h v then [.fault .jsFalse]
      else
        match arrayElems? h v with
        | some elems => elems.flatMap fun e => nodeParts h stack below false (valueToObject e)
        | none => nodeParts h stack below true v := by
    unfold valueParts
    split
    · cases hv
    · rfl
  rw [hparts, stringifyObjectValue, bind_apply, valueText_object _ hv]
  by_cases hfunction : isFunction h v = true
  · simp only [if_pos hfunction]
    exact ⟨_, rfl⟩
  · simp only [if_neg hfunction]
    cases harr : arrayElems? h v with
    | some elems =>
        have hrun := ((comesUpon_stringifyArray hh hbelow harr).andThen fun l hl =>
          comesUpon_joinVector hl.1 hl.2) flag
        rw [bind_apply] at hrun
        exact hrun
    | none =>
        have hrun := comesUpon_singleText hh hbelow v flag
        rw [← bind_assoc, bind_apply] at hrun
        exact hrun

theorem comesUpon_stringifyObjectValue (v : Value) :
    ComesUpon h (stringifyObjectValue (unparse stack) v) (valueParts h stack below v) HasText := by
  have hjoin : ∀ strs : List Text, strs ≠ [] → (∀ s ∈ strs, HasText s) →
      ComesUpon h (pure strs >>= joinVector) [] HasText := by
    intro strs hne hstrs
    rw [pure_bind]
    exact comesUpon_joinVector hne hstrs
  match v with
  | .ref a => exact comesUpon_object hh hbelow rfl
  | .leaf (.wrapper p) => exact comesUpon_object hh hbelow rfl
  | null => exact hjoin [lit "null"] (by simp) (by simp [lit, HasText])
  | undefined => exact hjoin [lit "null"] (by simp) (by simp [lit, HasText])
  | boolean b => exact hjoin [boolText b] (by simp) (by simp [boolText, lit, HasText])
  | number n => exact hjoin [some n.toString] (by simp) (by simp [HasText])
  | string s => exact hjoin [lit "\"", some s, lit "\""] (by simp) (by simp [lit, HasText])

end

theorem comesUpon_propertiesText (hh : NoBoxedTypes h) {stack : ℕ} {below : Value → List Part}
    (hbelow : ∀ v, ComesUpon h ((unparse stack).stringify v) (below v) HasText)
    (props : List (String × Value)) :
    ComesUpon h (propertiesText (unparse stack) props)
      (props.flatMap fun f => valueParts h stack below f.2) HasText := by
  unfold propertiesText
  refine ComesUpon.andThen (P := fun children => ∀ l ∈ children, ∀ s ∈ l, HasText s)
    (.mapM fun f _ => ?_) fun children hchildren => comesUpon_joinVector (by simp) ?_
  · refine (comesUpon_stringifyObjectValue hh hbelow f.2).map fun text htext => ?_
    simpa [lit, HasText] using htext
  · intro s hs
    rcases List.mem_append.mp hs with hs | hs
    · rcases List.mem_append.mp hs with hs | hs
      · rw [List.mem_singleton.mp hs]
        rfl
      · rcases mem_intercalate hs with hs | ⟨l, hl, hs⟩
        · rw [List.mem_singleton.mp hs]
          rfl
        · exact hchildren l hl s hs
    · rw [List.mem_singleton.mp hs]
      rfl

/-- The stringifier comes upon the parts of the object, and nothing else stops it. -/
theorem comesUpon_stringify (hh : NoBoxedTypes h) (stack : ℕ) (obj : Value) :
    ComesUpon h ((unparse stack).stringify obj) (objectParts h stack obj) HasText := by
  induction stack generalizing obj with
  | zero => exact comesUpon_throw _
  | succ n ih =>
      show ComesUpon h (stringifyObject (unparse n) obj) _ _
      unfold stringifyObject objectParts
      refine comesUpon_escapedValue fun escaped => ?_
      cases escaped with
      | some arg =>
          exact comesUpon_argument hh (fun text => comesUpon_pure rfl) (comesUpon_pure rfl)
      | none => exact comesUpon_reads_bind fun fields _ => comesUpon_propertiesText hh ih fields

def quasiOf (a b : ℕ) (stmts : List Ast) : Ast :=
  node a "MetaQuaziStatement" [("body", .array b stmts)]

end MetaMonkey.Staging
