import MetaMonkey.Staging.Unparse
import MetaMonkey.ObjectGraph.Reach

/-!
What every call of the printer has when its steps have it. The parts of the
printer are gone through once, for any property of calls that is closed under
the steps they are made of and any set of cells that no reference leads out of,
in which the printer then stays. The parts that write, functions and quasis, are
left to the property.
-/

namespace MetaMonkey.Staging

open ObjectGraph Js Unparse

variable {α β : Type} {R : ℕ → Prop}

/-! ### Values in a set of cells -/

class Within (R : ℕ → Prop) (v : Value) : Prop where
  within : v.Within R

/-- The values that the printer is given. -/
abbrev Inside (R : ℕ → Prop) := {v : Value // Within R v}

/-- The set of all cells. -/
def Everywhere : ℕ → Prop := fun _ => True

instance within_inside (v : Inside R) : Within R v.val := v.property

theorem closedUnder_everywhere (h : JSHeap) : h.ClosedUnder Everywhere := fun _ _ _ _ => trivial

instance within_everywhere (v : Value) : Within Everywhere v := ⟨fun _ _ => trivial⟩

theorem within_leaf (x : Leaf) : Within R (.leaf x) := ⟨Val.within_leaf x R⟩

instance within_valueToObject (v : Value) [hv : Within R v] : Within R (valueToObject v) := by
  cases v with
  | ref a => exact hv
  | leaf x =>
      cases x with
      | wrapper p => exact within_leaf _
      | prim p => cases p <;> exact within_leaf _

/-- What is read in the set is good. -/
def Fetches (R : ℕ → Prop) (good : α → Prop) (f : JSHeap → Except Fault α) : Prop :=
  ∀ h : JSHeap, h.ClosedUnder R → ∀ a, f h = .ok a → good a

theorem Fetches.map {good : α → Prop} {good' : β → Prop} {f : JSHeap → Except Fault α} {g : α → β}
    (hf : Fetches R good f) (hg : ∀ a, good a → good' (g a)) :
    Fetches R good' fun h => do return g (← f h) := by
  intro h hR b hread
  simp only at hread
  cases hfh : f h with
  | error e =>
      rw [hfh] at hread
      cases hread
  | ok a =>
      rw [hfh] at hread
      cases hread
      exact hg a (hf h hR a hfh)

theorem fetches_getProperty (val : Value) [hv : Within R val] (name : String) :
    Fetches R (Within R) fun h => getProperty h val name := by
  intro h hR v hread
  simp only [getProperty] at hread
  split at hread
  · cases hread
  · cases hread
    exact within_leaf _
  · split at hread
    · rename_i hc
      cases hread
      cases hl : List.lookup name _ with
      | none => exact within_leaf _
      | some w => exact ⟨hR.field (hv.within _ rfl) hc (mem_of_lookup hl)⟩
    · cases hread
      exact within_leaf _
    · cases hread

theorem fetches_getPropertyToObj (val : Value) [Within R val] (name : String) :
    Fetches R (Within R) fun h => getPropertyToObj h val name :=
  (fetches_getProperty val name).map fun v _ => within_valueToObject v

theorem fetches_getElement (arr : Value) [hv : Within R arr] (i : ℕ) :
    Fetches R (Within R) fun h => getElement h arr i := by
  intro h hR v hread
  simp only [getElement] at hread
  split at hread
  · rename_i elems helems
    cases hread
    unfold arrayElems? at helems
    split at helems
    · split at helems
      · rename_i hc
        cases helems
        cases hget : elems[i]? with
        | none => exact within_leaf _
        | some e => exact ⟨hR.elem (hv.within _ rfl) hc (List.mem_of_getElem? hget)⟩
      · cases helems
    · cases helems
  · cases hread

theorem fetches_getArrayElementToObj (arr : Value) [Within R arr] (i : ℕ) :
    Fetches R (Within R) fun h => getArrayElementToObj h arr i :=
  (fetches_getElement arr i).map fun v _ => within_valueToObject v

theorem fetches_slots (obj : Value) [hv : Within R obj] :
    Fetches R (fun fields => ∀ f ∈ fields, Within R f.2) fun h => slots h obj := by
  intro h hR fields hread f hf
  simp only [slots] at hread
  split at hread
  · cases hread
  · cases hread
  · cases hread
    cases hf
  · split at hread
    · rename_i hc
      cases hread
      exact ⟨hR.field (hv.within _ rfl) hc hf⟩
    · cases hread
    · cases hread

/-! ### Steps -/

/-- A property of calls that passes from the steps to what is made of them. -/
class StepClosed (R : ℕ → Prop) (P : ∀ α : Type, Print α → Prop) : Prop where
  pure : ∀ {α : Type} (a : α), P α (pure a)
  throw : ∀ {α : Type} (e : Fault), P α (throw e)
  reads : ∀ {α : Type} (f : JSHeap → Except Fault α), P α (reads f)
  get : P _ get
  bind : ∀ {α β : Type} (x : Print α) (f : α → Print β), P α x → (∀ a, P β (f a)) →
    P β (x >>= f)
  fetch : ∀ {α β : Type} {good : α → Prop} {g : JSHeap → Except Fault α} (f : α → Print β),
    Fetches R good g → (∀ a, good a → P β (f a)) → P β (Js.reads g >>= f)
  orUnset : ∀ x : Print Text, P Text x → P Text (orUnset x)

class Satisfies (R : ℕ → Prop) (P : ∀ α : Type, Print α → Prop) (x : Print α) : Prop where
  holds : P α x

/-- Results that are no values of the engine. -/
class Plain (α : Type) : Prop

instance : Plain Unit := ⟨⟩
instance : Plain Bool := ⟨⟩
instance : Plain ℕ := ⟨⟩
instance : Plain JSString := ⟨⟩
instance : Plain Text := ⟨⟩
instance : Plain ElementText := ⟨⟩
instance : Plain (JSHeap × Bool) := ⟨⟩
instance [Plain α] : Plain (List α) := ⟨⟩

variable (R) (P : ∀ α : Type, Print α → Prop) [hP : StepClosed R P]

instance satisfies_pure (a : α) : Satisfies R P (pure a : Print α) := ⟨hP.pure a⟩

instance satisfies_throw (e : Fault) : Satisfies R P (throw e : Print α) := ⟨hP.throw e⟩

instance satisfies_reads (f : JSHeap → Except Fault α) : Satisfies R P (reads f : Print α) :=
  ⟨hP.reads f⟩

instance satisfies_get : Satisfies R P (get : Print (JSHeap × Bool)) := ⟨hP.get⟩

instance satisfies_bind [Plain α] (x : Print α) (f : α → Print β) [hx : Satisfies R P x]
    [hf : ∀ a, Satisfies R P (f a)] : Satisfies R P (x >>= f) :=
  ⟨hP.bind x f hx.holds fun a => (hf a).holds⟩

instance satisfies_orUnset (x : Print Text) [hx : Satisfies R P x] : Satisfies R P (orUnset x) :=
  ⟨hP.orUnset x hx.holds⟩

instance satisfies_ite (c : Prop) [Decidable c] (x y : Print α) [hx : Satisfies R P x]
    [hy : Satisfies R P y] : Satisfies R P (if c then x else y) := by
  split
  · exact hx
  · exact hy

theorem satisfies_mapM_mem [Plain α] {f : β → Print α} {l : List β}
    (hf : ∀ b ∈ l, Satisfies R P (f b)) : Satisfies R P (l.mapM f) := by
  induction l with
  | nil => exact satisfies_pure R P []
  | cons b l ih =>
      rw [List.forall_mem_cons] at hf
      rw [List.mapM_cons]
      have := hf.1
      have := ih hf.2
      infer_instance

instance satisfies_mapM [Plain α] (f : β → Print α) [hf : ∀ b, Satisfies R P (f b)]
    (l : List β) : Satisfies R P (l.mapM f) :=
  satisfies_mapM_mem R P fun b _ => hf b

/-! ### Reading the AST -/

instance satisfies_toObj (val : Value) [Within R val] (name : String) (f : Value → Print β)
    [hf : ∀ v : Inside R, Satisfies R P (f v.val)] : Satisfies R P (toObj val name >>= f) :=
  ⟨hP.fetch f (fetches_getPropertyToObj val name) fun v hv => (hf ⟨v, hv⟩).holds⟩

instance satisfies_prop (val : Value) [Within R val] (name : String) (f : Value → Print β)
    [hf : ∀ v : Inside R, Satisfies R P (f v.val)] : Satisfies R P (prop val name >>= f) :=
  ⟨hP.fetch f (fetches_getProperty val name) fun v hv => (hf ⟨v, hv⟩).holds⟩

instance satisfies_elementToObj (arr : Value) [Within R arr] (i : ℕ) (f : Value → Print β)
    [hf : ∀ v : Inside R, Satisfies R P (f v.val)] : Satisfies R P (elementToObj arr i >>= f) :=
  ⟨hP.fetch f (fetches_getArrayElementToObj arr i) fun v hv => (hf ⟨v, hv⟩).holds⟩

instance satisfies_toStr (val : Value) (name : String) : Satisfies R P (toStr val name) :=
  satisfies_reads R P _

instance satisfies_arrayLength (arr : Value) : Satisfies R P (arrayLength arr) :=
  satisfies_reads R P _

/-! ### Helpers -/

instance satisfies_deref (s : Text) : Satisfies R P (deref s) := by
  cases s <;> unfold deref <;> infer_instance

instance satisfies_require (cond : Bool) : Satisfies R P (require cond) := by
  unfold require
  infer_instance

instance satisfies_wrapExpr (s : Text) (cprec xprec : ℕ) :
    Satisfies R P (wrapExpr s cprec xprec) := by
  unfold wrapExpr
  infer_instance

instance satisfies_joinStringVector (strs : List Text) (sep prf suf : Text) :
    Satisfies R P (joinStringVector strs sep prf suf) := by
  unfold joinStringVector
  split
  · infer_instance
  · infer_instance
  · split <;> infer_instance

instance satisfies_joinVector (strs : List Text) : Satisfies R P (joinVector strs) :=
  satisfies_joinStringVector R P _ _ _ _

instance satisfies_isBadIdentifier (val : Value) : Satisfies R P (isBadIdentifier val) := by
  have hmatch : ∀ nameStr : JSString, Satisfies R P (match encodeString nameStr with
      | [] => (pure true : Print Bool)
      | c :: cs => pure (!(isIdentifierStart c && cs.all isIdentifierPart))) := by
    intro nameStr
    split <;> infer_instance
  unfold isBadIdentifier
  infer_instance

/-! ### The printer -/

/-- What the recursive calls of a printer are assumed to have. -/
class SatisfiesCalls (p : Printer) : Prop where
  expr : ∀ exprVal [Within R exprVal] indent cprec noIn,
    Satisfies R P (p.expr exprVal indent cprec noIn)
  sourceElement : ∀ val [Within R val] indent, Satisfies R P (p.sourceElement val indent)
  stringify : ∀ obj [Within R obj], Satisfies R P (p.stringify obj)

def functionName (p : Printer) (id : Value) : Print (List Text) :=
  if isNullOrUndefined id then pure []
  else do
    let name ← p.expr (valueToObject id) (lit "####") 18 false
    pure (if name.isSome then [name] else [])

def functionBody (p : Printer) (val : Value) (indent : Text) : Print Text := do
  let exprProp ← prop val "expression"
  let bodyObj ← toObj val "body"
  if isNullOrUndefined exprProp || exprProp = boolean false then
    substmt p bodyObj indent false
  else do
    let bodyStr ← deref (← p.expr bodyObj indent 2 false)
    if bodyStr.head? = some 123 then
      pure (joinStrings [lit " ", lit "(", some bodyStr, lit ")"])
    else
      pure (joinStrings [lit " ", some bodyStr])

/-- The parameters of a function, with the flag set meanwhile. -/
def paramsText (p : Printer) (val : Value) : Print Text := do
  let paramsObj ← toObj val "params"
  setIgnorecprec true
  let paramsStr ← params p paramsObj
  setIgnorecprec false
  return paramsStr

theorem functionDeclaration_eq (p : Printer) (funcInitStr : Text) (id val : Value) (indent : Text) :
    functionDeclaration p funcInitStr id val indent = (do
      let funcNameStr ← functionName p id
      let bodyStr ← functionBody p val indent
      let paramsStr ← paramsText p val
      joinVector ([funcInitStr, lit " "] ++ funcNameStr ++ [paramsStr, bodyStr])) := by
  have hite : ∀ {α β : Type} (c : Prop) [Decidable c] (x y : Print α) (f : α → Print β),
      (if c then x else y) >>= f = if c then x >>= f else y >>= f :=
    fun c _ x y f => apply_ite (· >>= f) c x y
  simp only [functionDeclaration, functionName, functionBody, paramsText, bind_assoc, pure_bind,
    hite]

class SatisfiesFunctions (p : Printer) : Prop where
  functionDeclaration : ∀ funcInitStr id [Within R id] val [Within R val] indent,
    Satisfies R P (functionDeclaration p funcInitStr id val indent)

attribute [instance] SatisfiesCalls.expr SatisfiesCalls.sourceElement SatisfiesCalls.stringify
  SatisfiesFunctions.functionDeclaration

instance satisfies_unparseValues (obj : Value) [Within R obj] (apply : Value → Print Text)
    [ha : ∀ v : Inside R, Satisfies R P (apply v.val)] :
    Satisfies R P (unparseValues obj apply) := by
  unfold unparseValues
  infer_instance

/-- `unparse_expr` fails at once, or it prints a quasi, or it calls a handler that does not
write to the heap. -/
theorem unparseExpr_cases (p : Printer) (exprVal : Value) (indent : Text) (cprec : ℕ)
    (noIn : Bool) (s : JSHeap × Bool) :
    (∃ e, unparseExpr p exprVal indent cprec noIn s = .error e s) ∨
      (∃ typeStr, getPropertyToString s.1 exprVal "type" = .ok typeStr ∧
        equalsChars typeStr "MetaQuaziStatement" = true ∧
        unparseExpr p exprVal indent cprec noIn s = exprMetaQuazi p exprVal indent cprec noIn s) ∨
      ∃ e ∈ exprHandlers p, e.1 ≠ "MetaQuaziStatement" ∧
        unparseExpr p exprVal indent cprec noIn s = e.2 exprVal indent cprec noIn s := by
  cases hread : getPropertyToString s.1 exprVal "type" with
  | error e => exact .inl ⟨e, bind_error (reads_error hread) _⟩
  | ok typeStr =>
      have htype : toStr exprVal "type" s = .ok typeStr s := reads_ok hread
      rw [unparseExpr, bind_ok htype]
      cases heq : (exprHandlers p).find? fun e => equalsChars typeStr e.1 with
      | none => exact .inl ⟨.jsFalse, rfl⟩
      | some e =>
          obtain ⟨name, handler⟩ := e
          have hmem := List.mem_of_find?_eq_some heq
          have hname : equalsChars typeStr name = true := by simpa using List.find?_some heq
          by_cases hquazi : name = "MetaQuaziStatement"
          · subst hquazi
            obtain rfl : handler = exprMetaQuazi p := by simpa [exprHandlers] using hmem
            exact .inr (.inl ⟨typeStr, rfl, hname, rfl⟩)
          · exact .inr (.inr ⟨_, hmem, hquazi, rfl⟩)

section Handlers

set_option synthInstance.maxSize 2000

variable (p : Printer) [SatisfiesCalls R P p] (val : Value) [Within R val] (indent : Text)
  (cprec : ℕ) (noIn : Bool)

instance satisfies_declValue : Satisfies R P (declValue p noIn val) := by
  unfold declValue
  infer_instance

instance satisfies_declarators : Satisfies R P (declarators p val noIn) := by
  unfold declarators
  infer_instance

instance satisfies_substmt (more : Bool) : Satisfies R P (substmt p val indent more) := by
  unfold substmt
  infer_instance

instance satisfies_args : Satisfies R P (args p val) := by
  unfold args
  infer_instance

instance satisfies_params : Satisfies R P (params p val) := by
  unfold params
  infer_instance

instance satisfies_unexpected : Satisfies R P (unexpected val) := by
  unfold unexpected
  infer_instance

instance satisfies_forHead : Satisfies R P (forHead p val indent) := by
  simp only [forHead]
  infer_instance

instance satisfies_comprehension : Satisfies R P (comprehension p val indent) := by
  simp only [comprehension]
  infer_instance

omit [Within R val] in
instance satisfies_functionName (id : Value) [Within R id] :
    Satisfies R P (functionName p id) := by
  unfold functionName
  infer_instance

instance satisfies_functionBody : Satisfies R P (functionBody p val indent) := by
  simp only [functionBody]
  infer_instance

variable [SatisfiesFunctions R P p]

instance satisfies_propertyText (propObj : Value) [Within R propObj] :
    Satisfies R P (propertyText p val propObj indent) := by
  unfold propertyText
  infer_instance

instance satisfies_exprIndent : Satisfies R P (exprIndent val indent cprec noIn) := by
  unfold exprIndent
  infer_instance

instance satisfies_exprLiteral : Satisfies R P (exprLiteral val indent cprec noIn) := by
  have hmatch : ∀ (value : Value) (liter : JSString), Satisfies R P (match value with
      | number _ =>
          if cprec = 17 then (pure (joinStrings [lit "(", some liter, lit ")"]) : Print Text)
          else pure (some liter)
      | _ => pure (some liter)) := by
    intro value liter
    split <;> infer_instance
  unfold exprLiteral
  infer_instance

/-- All handlers of expressions but the one that writes to the heap. -/
theorem satisfies_exprHandlers : ∀ e ∈ exprHandlers p, e.1 ≠ "MetaQuaziStatement" →
    Satisfies R P (e.2 val indent cprec noIn) := by
  simp only [exprHandlers, List.forall_mem_cons, ne_eq, not_true_eq_false, false_implies,
    true_and, List.not_mem_nil, implies_true, and_true]
  refine ⟨?_, ?_, ?_, ?_, ?_, ?_, ?_, ?_, ?_, ?_, ?_, ?_, ?_, ?_, ?_, ?_, ?_, ?_, ?_, ?_, ?_, ?_,
    ?_, ?_, ?_⟩ <;> intro _
  all_goals
    try simp only [exprArray, exprObj, exprGraph, exprGraphIndx, exprLet, exprGen, exprComprehen,
      exprYield, exprSequence, exprCond, exprCall, exprNew, exprThis, exprMember, exprMetaExec,
      exprUnary, exprLogic, exprAssign, exprFunc, exprObjpattern]
    infer_instance

instance satisfies_forPart (name : String) : Satisfies R P (forPart p val name indent) := by
  unfold forPart
  infer_instance

instance satisfies_switchCase (deeperStr : Text) :
    Satisfies R P (switchCase p val indent deeperStr) := by
  unfold switchCase
  infer_instance

instance satisfies_stmtTry : Satisfies R P (stmtTry p val indent) := by
  have hfinalizer : ∀ (blockStr : Text) (handler : List Text), Satisfies R P (do
      let finalizerVal ← prop val "finalizer"
      let finalizer ←
        if isObject finalizerVal then do
          let finalizerStr ← substmt p (valueToObject finalizerVal) indent false
          pure [lit "finally", finalizerStr]
        else pure []
      joinVector ([some (← deref indent), lit "try", blockStr] ++ handler ++ finalizer)) := by
    intro blockStr handler
    simp only
    infer_instance
  simp only [stmtTry]
  infer_instance

theorem satisfies_stmtHandlers : ∀ e ∈ stmtHandlers p, Satisfies R P (e.2 val indent) := by
  simp only [stmtHandlers, List.forall_mem_cons, List.not_mem_nil, false_implies, implies_true,
    and_true]
  refine ⟨?_, ?_, ?_, ?_, ?_, ?_, ?_, ?_, ?_, ?_, ?_, ?_, ?_, ?_, ?_, ?_, ?_, ?_, ?_, ?_⟩
  all_goals
    try simp only [stmtBlock, stmtVariableDeclaration, stmtEmpty, stmtExpression, stmtLet, stmtIf,
      stmtWhile, stmtFor, stmtForin, stmtDowhile, stmtContinue, stmtBreak, stmtJump, stmtReturn,
      stmtWith, stmtLabeled, stmtSwitch, stmtThrow, stmtDebugger, stmtFunctiondeclaration]
    infer_instance

instance satisfies_unparseSourceElement : Satisfies R P (unparseSourceElement p val indent) := by
  have hhandler : ∀ typeStr : JSString, Satisfies R P
      (match (stmtHandlers p).find? fun e => equalsChars typeStr e.1 with
        | some (_, handler) => handler val indent
        | none => throw .jsFalse) := by
    intro typeStr
    split
    · rename_i e heq
      exact satisfies_stmtHandlers R P p val indent _ (List.mem_of_find?_eq_some heq)
    · infer_instance
  unfold unparseSourceElement
  infer_instance

end Handlers

/-! ### Objects -/

instance satisfies_objectContainEscapeExpr (typeStr : JSString) (exprObj : Value)
    [hobj : Within R exprObj] (f : Option Value → Print β) [hnone : Satisfies R P (f none)]
    [hsome : ∀ v : Inside R, Satisfies R P (f (some v.val))] :
    Satisfies R P (objectContainEscapeExpr typeStr exprObj >>= f) := by
  have hite : ∀ c : Bool, Satisfies R P (f (if c then some exprObj else none)) := by
    intro c
    split
    · exact hsome ⟨exprObj, hobj⟩
    · exact hnone
  unfold objectContainEscapeExpr
  split
  · simp only [bind_assoc, pure_bind]
    infer_instance
  · rw [pure_bind]
    exact hnone

instance satisfies_objectContainEscape (obj : Value) [Within R obj] (f : Escape → Print β)
    [hnone : ∀ b, Satisfies R P (f ⟨b, none⟩)]
    [hsome : ∀ b (v : Inside R), Satisfies R P (f ⟨b, some v.val⟩)] :
    Satisfies R P (objectContainEscape obj >>= f) := by
  unfold objectContainEscape
  rw [bind_assoc]
  have hite : ∀ typeStr : JSString, Satisfies R P
      ((if equals typeStr "ExpressionStatement" then do
          let node ← toObj obj "expression"
          let typeStr ← toStr node "type"
          return ⟨true, ← objectContainEscapeExpr typeStr node⟩
        else
          return ⟨false, ← objectContainEscapeExpr typeStr obj⟩ : Print Escape) >>= f) := by
    intro typeStr
    split <;> simp only [bind_assoc, pure_bind] <;> infer_instance
  infer_instance

instance satisfies_objectContainEscapejsvalue (obj : Value) [Within R obj]
    (f : Option Value → Print β) [hnone : Satisfies R P (f none)]
    [hsome : ∀ v : Inside R, Satisfies R P (f (some v.val))] :
    Satisfies R P (objectContainEscapejsvalue obj >>= f) := by
  unfold objectContainEscapejsvalue
  rw [bind_assoc]
  have htype : ∀ typeStr : JSString, Satisfies R P
      ((do
        if equals typeStr "UnaryExpression" then
          let opStr ← toStr obj "operator"
          if equals opStr ".@" then
            return some (← toObj obj "argument")
        return none : Print (Option Value)) >>= f) := by
    intro typeStr
    simp only
    split
    · rw [bind_assoc]
      have hop : ∀ opStr : JSString, Satisfies R P
          ((do
            if equals opStr ".@" then
              return some (← toObj obj "argument")
            return none : Print (Option Value)) >>= f) := by
        intro opStr
        split
        · simp only [bind_assoc, pure_bind]
          infer_instance
        · rw [pure_bind]
          exact hnone
      infer_instance
    · rw [pure_bind]
      exact hnone
  infer_instance

section Objects

variable (p : Printer) [SatisfiesCalls R P p] (val : Value) [Within R val]

instance satisfies_elementText (i : ℕ) (b : Bool) :
    Satisfies R P (elementText p i val ⟨b, none⟩) := by
  unfold elementText
  infer_instance

instance satisfies_elementText_escape (i : ℕ) (b : Bool) (node : Value) [Within R node] :
    Satisfies R P (elementText p i val ⟨b, some node⟩) := by
  unfold elementText
  infer_instance

instance satisfies_stringifyElements (arrayLen : ℕ) :
    Satisfies R P (stringifyElements p val arrayLen) := by
  unfold stringifyElements
  infer_instance

omit [Within R val] in
instance satisfies_brackets (strs : List Text) : Satisfies R P (brackets strs) := by
  unfold brackets
  infer_instance

instance satisfies_arrayText (elements : List ElementText) :
    Satisfies R P (arrayText elements) := by
  simp only [arrayText]
  infer_instance

instance satisfies_stringifyArray : Satisfies R P (stringifyArray p val) := by
  unfold stringifyArray
  infer_instance

instance satisfies_singleText (b : Bool) : Satisfies R P (singleText p val ⟨b, none⟩) := by
  unfold singleText
  infer_instance

instance satisfies_singleText_escape (b : Bool) (node : Value) [Within R node] :
    Satisfies R P (singleText p val ⟨b, some node⟩) := by
  unfold singleText
  infer_instance

instance satisfies_valueText : Satisfies R P (valueText p val) := by
  have hsingle : Satisfies R P (objectContainEscape val >>= singleText p val) := inferInstance
  unfold valueText
  split <;> (try simp only) <;> infer_instance

instance satisfies_stringifyObjectValue : Satisfies R P (stringifyObjectValue p val) := by
  unfold stringifyObjectValue
  infer_instance

theorem satisfies_propertiesText {props : List (String × Value)}
    (hprops : ∀ f ∈ props, Within R f.2) : Satisfies R P (propertiesText p props) := by
  have hmapM : Satisfies R P (props.mapM fun f => do
      let propVal ← stringifyObjectValue p f.2
      return [some (js f.1), lit ":", propVal]) := by
    refine satisfies_mapM_mem R P fun f hf => ?_
    have := hprops f hf
    infer_instance
  unfold propertiesText
  infer_instance

instance satisfies_stringifyObject : Satisfies R P (stringifyObject p val) := by
  have hnone : Satisfies R P (objectText p val none) := by
    refine ⟨hP.fetch _ (fetches_slots val) fun fields hfields => ?_⟩
    exact (satisfies_propertiesText R P p hfields).holds
  have hsome : ∀ v : Inside R, Satisfies R P (objectText p val (some v.val)) := by
    intro v
    unfold objectText
    infer_instance
  unfold stringifyObject
  infer_instance

end Objects

end MetaMonkey.Staging
