import MetaMonkey.Staging.InStep
import MetaMonkey.Lists.Interleave

/-!
The array case of `stringifyObjectValue` with its loop variables. The nodes
and the escapes of an array go to two lists, and one flag stands for the
positions of all escapes; together they tell the array.
-/

namespace MetaMonkey.Staging

open ObjectGraph Js Unparse MetaMonkey.Lists

/-! ### The loop -/

/-- The loop variables of the array case. -/
structure ElementLoop where
  arrayElements : List Text
  escapeElements : List Text
  fromStmtDepth : Bool

/-- The record of an escape, as an object literal. -/
def escapeRecordText (i : ℕ) (argStr : Text) : Text :=
  joinStrings [lit "\x7b", lit "index", lit ":", some (natToString i), lit ",", lit "expr",
    lit ":", argStr, lit "\x7d"]

/-- One turn. `objectContainEscape` overwrites the flag, which gets its old
value back for a node. -/
def emitElement (p : Printer) (obj : Value) (s : ElementLoop) (i : ℕ) : Print ElementLoop := do
  let nodeObj ← elementToObj obj i
  let tmpfromStmtDepth := s.fromStmtDepth
  let escape ← objectContainEscape nodeObj
  let s := { s with fromStmtDepth := escape.fromStmt }
  match escape.node with
  | some escapeNode => do
      let argObj ← toObj escapeNode "argument"
      let argStr ← p.expr argObj (lit "    ") 15 false
      return { s with escapeElements := s.escapeElements ++ [escapeRecordText i argStr] }
  | none => do
      let s := { s with fromStmtDepth := tmpfromStmtDepth }
      let objStr ← p.stringify nodeObj
      return { s with arrayElements := s.arrayElements ++ [objStr] }

def emitElements (p : Printer) (obj : Value) (arrayLen : ℕ) : Print ElementLoop :=
  (List.range arrayLen).foldlM (emitElement p obj) ⟨[], [], false⟩

/-- The body that is appended after the loop. -/
def ElementLoop.text (s : ElementLoop) : Print (List Text) :=
  if s.escapeElements.isEmpty && s.arrayElements.isEmpty then
    return [joinStrings [lit "[", lit "]"]]
  else if s.escapeElements.isEmpty then do
    return [← joinStringVector s.arrayElements (lit ",") (lit "[") (lit "]")]
  else do
    let retArray ←
      if !s.arrayElements.isEmpty then
        joinStringVector s.arrayElements (lit ",") (lit "[") (lit "]")
      else pure (joinStrings [lit "[", lit "]"])
    let retEscape ← joinStringVector s.escapeElements (lit ",") (lit "[") (lit "]")
    return [lit "meta_escape( ", boolText true, lit ",", retArray, lit ",", retEscape, lit ",",
      boolText s.fromStmtDepth, lit ")"]

/-! ### The loop and the texts of the elements -/

/-- What the text of one element does to the loop variables. -/
def ElementLoop.push (s : ElementLoop) : ElementText → ElementLoop
  | .normal text => { s with arrayElements := s.arrayElements ++ [text] }
  | .escape text fromStmt =>
      { s with escapeElements := s.escapeElements ++ [text], fromStmtDepth := fromStmt }

theorem emitElement_eq (p : Printer) (obj : Value) (s : ElementLoop) (i : ℕ) :
    emitElement p obj s i = (do
      let nodeObj ← elementToObj obj i
      let text ← elementText p i nodeObj (← objectContainEscape nodeObj)
      return s.push text) := by
  simp only [emitElement]
  congr 1
  funext nodeObj
  congr 1
  funext escape
  obtain ⟨fromStmt, escapeNode⟩ := escape
  cases escapeNode with
  | none => simp only [elementText, bind_assoc, pure_bind, ElementLoop.push]
  | some escapeNode =>
      simp only [elementText, bind_assoc, pure_bind, ElementLoop.push, escapeRecordText]

theorem foldlM_push {f : ℕ → Print ElementText} (is : List ℕ) (s : ElementLoop) :
    is.foldlM (fun s i => do return s.push (← f i)) s =
      (do return (← is.mapM f).foldl ElementLoop.push s) := by
  induction is generalizing s with
  | nil => rfl
  | cons i is ih =>
      simp only [List.foldlM_cons, List.mapM_cons, bind_assoc, pure_bind, List.foldl_cons, ih]

theorem emitElements_eq (p : Printer) (obj : Value) (arrayLen : ℕ) :
    emitElements p obj arrayLen =
      (do return (← stringifyElements p obj arrayLen).foldl ElementLoop.push ⟨[], [], false⟩) := by
  have hturn : emitElement p obj = fun s i => do
      return s.push (← (do
        let nodeObj ← elementToObj obj i
        elementText p i nodeObj (← objectContainEscape nodeObj))) := by
    funext s i
    rw [emitElement_eq]
    simp only [bind_assoc]
  rw [emitElements, hturn, foldlM_push, stringifyElements]

theorem foldl_push (elements : List ElementText) (s : ElementLoop) :
    elements.foldl ElementLoop.push s =
      ⟨s.arrayElements ++ elements.filterMap ElementText.normal?,
        s.escapeElements ++ (elements.filterMap ElementText.escape?).map Prod.fst,
        ((elements.filterMap ElementText.escape?).getLast?.map Prod.snd).getD
          s.fromStmtDepth⟩ := by
  induction elements generalizing s with
  | nil => simp
  | cons e elements ih =>
      rw [List.foldl_cons, ih]
      cases e with
      | normal text =>
          simp only [ElementLoop.push, List.filterMap_cons, ElementText.normal?,
            ElementText.escape?, List.append_assoc, List.singleton_append]
      | escape text fromStmt =>
          simp only [ElementLoop.push, List.filterMap_cons, ElementText.normal?,
            ElementText.escape?, List.map_cons, List.append_assoc, List.singleton_append,
            List.getLast?_cons, Option.map_some, Option.getD_some]
          cases (elements.filterMap ElementText.escape?).getLast? <;> rfl

/-- The flag of the last escape is the one that the loop leaves. -/
theorem text_push (elements : List ElementText) :
    (elements.foldl ElementLoop.push ⟨[], [], false⟩).text = arrayText elements := by
  rw [foldl_push, arrayText, ElementLoop.text]
  simp only [List.nil_append, brackets, List.isEmpty_map]
  cases elements.filterMap ElementText.escape? with
  | nil =>
      cases elements.filterMap ElementText.normal? with
      | nil => simp
      | cons text texts => simp
  | cons e escapes =>
      cases elements.filterMap ElementText.normal? with
      | nil => simp
      | cons text texts => simp

/-- The array case of `stringifyObjectValue` is the loop followed by its body. -/
theorem stringifyArray_eq (p : Printer) (obj : Value) :
    stringifyArray p obj = (do
      let arrayLen ← arrayLength obj
      let s ← emitElements p obj arrayLen
      s.text) := by
  simp only [stringifyArray, emitElements_eq, bind_assoc, pure_bind, text_push]

/-! ### What the loop emits for a node -/

/-- The node is an escape, and stands as a statement or as an expression. -/
def IsEscape (h : JSHeap) (node : Value) (fromStmt : Bool) : Prop :=
  ∃ escapeNode b, objectContainEscape node (h, b) = .ok ⟨fromStmt, some escapeNode⟩ (h, b)

/-- The node is no escape. -/
def IsPlain (h : JSHeap) (node : Value) : Prop :=
  ∃ fromStmt b, objectContainEscape node (h, b) = .ok ⟨fromStmt, none⟩ (h, b)

/-- A node is emitted by its own text, an escape by that of its argument. -/
inductive Emitted (p : Printer) (h : JSHeap) (node : Value) : Text ⊕ JSString → Prop
  | plain {b b' : Bool} {text : Text} (hnode : IsPlain h node)
      (htext : p.stringify node (h, b) = .ok text (h, b')) : Emitted p h node (.inl text)
  | escape {fromStmt b b' : Bool} {escapeNode argObj : Value} {argStr : Text}
      (hnode : objectContainEscape node (h, b) = .ok ⟨fromStmt, some escapeNode⟩ (h, b))
      (harg : getPropertyToObj h escapeNode "argument" = .ok argObj)
      (htext : p.expr argObj (lit "    ") 15 false (h, b) = .ok argStr (h, b')) :
      Emitted p h node (.inr (argStr.getD []))

/-- All escapes among the nodes stand in the same position. -/
def SamePosition (h : JSHeap) (nodes : List Value) (fromStmt : Bool) : Prop :=
  ∀ node ∈ nodes, ∀ b, IsEscape h node b → b = fromStmt

/-- The texts `l` of the nodes are those the loop has put into its lists. -/
structure Partitions (h : JSHeap) (nodes : List Value) (l : List (Text ⊕ JSString))
    (s : ElementLoop) : Prop where
  plain : s.arrayElements = nodesOf l
  escapes : s.escapeElements = (gapsOf 0 l).map fun g => escapeRecordText g.1 (some g.2)
  flag : ∀ fromStmt, SamePosition h nodes fromStmt → gapsOf 0 l ≠ [] →
    s.fromStmtDepth = fromStmt

theorem escapeRecordText_getD (i : ℕ) (argStr : Text) :
    escapeRecordText i argStr = escapeRecordText i (some (argStr.getD [])) := by
  simp [escapeRecordText, joinStrings]

/-! ### One turn -/

/-- A call that only reads the heap. -/
def OnlyReads {α : Type} (x : Print α) : Prop := ∃ f, x = reads f

theorem onlyReads_pure {α : Type} (a : α) : OnlyReads (pure a : Print α) :=
  ⟨fun _ => .ok a, rfl⟩

theorem OnlyReads.bind {α β : Type} {x : Print α} {f : α → Print β} (hx : OnlyReads x)
    (hf : ∀ a, OnlyReads (f a)) : OnlyReads (x >>= f) := by
  obtain ⟨g, rfl⟩ := hx
  choose k hk using hf
  refine ⟨fun h => g h >>= fun a => k a h, ?_⟩
  funext s
  cases hg : g s.1 with
  | ok a => rw [bind_ok (reads_ok hg), hk, reads, reads, hg, ok_bind]
  | error e => rw [bind_error (reads_error hg), reads, hg, error_bind]

theorem onlyReads_objectContainEscape (obj : Value) : OnlyReads (objectContainEscape obj) := by
  have hexpr : ∀ typeStr obj, OnlyReads (objectContainEscapeExpr typeStr obj) := by
    intro typeStr obj
    unfold objectContainEscapeExpr
    split
    · exact .bind ⟨_, rfl⟩ fun opStr => onlyReads_pure _
    · exact onlyReads_pure _
  unfold objectContainEscape
  refine .bind ⟨_, rfl⟩ fun typeStr => ?_
  split
  · exact .bind ⟨_, rfl⟩ fun node => .bind ⟨_, rfl⟩ fun typeStr =>
      .bind (hexpr _ _) fun escapeNode => onlyReads_pure _
  · exact .bind (hexpr _ _) fun escapeNode => onlyReads_pure _

theorem OnlyReads.run {α : Type} {x : Print α} (hx : OnlyReads x) {s s' : JSHeap × Bool} {a : α}
    (hrun : x s = .ok a s') : s' = s ∧ ∀ b, x (s.1, b) = .ok a (s.1, b) := by
  obtain ⟨f, rfl⟩ := hx
  rw [reads] at hrun
  cases hf : f s.1 with
  | ok a' =>
      rw [hf] at hrun
      cases hrun
      exact ⟨rfl, fun b => reads_ok hf⟩
  | error e =>
      rw [hf] at hrun
      cases hrun

section Turns

variable {h : JSHeap} {fuel : ℕ} {nodes : List Value} {l : List (Text ⊕ JSString)}
  {s s' : ElementLoop} {node : Value}

theorem partitions_plain (hs : Partitions h nodes l s) (text : Text) :
    Partitions h (nodes ++ [node]) (l ++ [.inl text])
      { s with arrayElements := s.arrayElements ++ [text] } where
  plain := by rw [hs.plain, nodesOf_append, nodesOf, nodesOf]
  escapes := by rw [hs.escapes, gapsOf_append, gapsOf, gapsOf, List.append_nil]
  flag fromStmt hsame hgaps := by
    rw [gapsOf_append, gapsOf, gapsOf, List.append_nil] at hgaps
    exact hs.flag fromStmt (fun n hn => hsame n (List.mem_append_left _ hn)) hgaps

theorem partitions_escape (hs : Partitions h nodes l s) {fromStmt : Bool} {argStr : Text}
    (hnode : IsEscape h node fromStmt) :
    Partitions h (nodes ++ [node]) (l ++ [.inr (argStr.getD [])])
      { s with
        escapeElements := s.escapeElements ++ [escapeRecordText l.length argStr]
        fromStmtDepth := fromStmt } where
  plain := by rw [hs.plain, nodesOf_append, nodesOf, nodesOf, List.append_nil]
  escapes := by
    rw [hs.escapes, gapsOf_append, gapsOf, gapsOf, List.map_append, Nat.zero_add,
      escapeRecordText_getD]
    rfl
  flag b hsame _ := hsame node (List.mem_append_right _ List.mem_cons_self) fromStmt hnode

theorem elementToObj_ok {a k : ℕ} {elems : List Value} (harr : h.cell a = some (.array elems))
    (hk : k < elems.length) (b : Bool) :
    elementToObj (.ref a) k (h, b) = .ok (valueToObject elems[k]) (h, b) :=
  reads_ok (by simp [getArrayElementToObj, getElement, arrayElems?, harr, hk])

/-- One turn puts the text of its node into one of the lists. -/
theorem emitElement_partitions (hh : NoBoxedTypes h) {a : ℕ} {elems : List Value}
    (harr : h.cell a = some (.array elems)) (hl : l.length < elems.length)
    (hs : Partitions h nodes l s) {b : Bool} {t : JSHeap × Bool}
    (hrun : emitElement (unparse fuel) (.ref a) s l.length (h, b) = .ok s' t) :
    t.1 = h ∧ ∃ x, Emitted (unparse fuel) h (valueToObject elems[l.length]) x ∧
      Partitions h (nodes ++ [valueToObject elems[l.length]]) (l ++ [x]) s' := by
  rw [emitElement, bind_ok (elementToObj_ok harr hl b)] at hrun
  obtain ⟨⟨fromStmt, escapeNode⟩, s₁, hcontain, hturn⟩ := bind_eq_ok.mp hrun
  obtain ⟨rfl, hescape⟩ := (onlyReads_objectContainEscape _).run hcontain
  clear hrun hcontain
  cases escapeNode with
  | none =>
      obtain ⟨objStr, s₂, htext, hend⟩ := bind_eq_ok.mp hturn
      cases hend
      have hheap := ((keepsHeap_unparse fuel).stringify _).holds _ _ _ hh htext
      obtain ⟨h₂, b₂⟩ := t
      obtain rfl : h₂ = h := hheap
      exact ⟨rfl, .inl objStr, .plain ⟨fromStmt, b, hescape b⟩ htext, partitions_plain hs objStr⟩
  | some escapeNode =>
      obtain ⟨argObj, s₂, harg, hrest⟩ := bind_eq_ok.mp hturn
      obtain ⟨hread, rfl⟩ := reads_eq_ok.mp harg
      obtain ⟨argStr, s₃, htext, hend⟩ := bind_eq_ok.mp hrest
      cases hend
      have hheap := ((keepsHeap_unparse fuel).expr _ _ _ _).holds _ _ _ hh htext
      obtain ⟨h₂, b₂⟩ := t
      obtain rfl : h₂ = h := hheap
      exact ⟨rfl, .inr (argStr.getD []), .escape (hescape b) hread htext,
        partitions_escape hs ⟨escapeNode, b, hescape b⟩⟩

/-- The turns up to any index. -/
theorem emitElements_partitions (hh : NoBoxedTypes h) {a : ℕ} {elems : List Value}
    (harr : h.cell a = some (.array elems)) {b : Bool} {n : ℕ} (hn : n ≤ elems.length)
    {t : JSHeap × Bool} (hrun : emitElements (unparse fuel) (.ref a) n (h, b) = .ok s t) :
    t.1 = h ∧ ∃ l, List.Forall₂ (Emitted (unparse fuel) h) ((elems.take n).map valueToObject) l ∧
      Partitions h ((elems.take n).map valueToObject) l s := by
  induction n generalizing s t with
  | zero =>
      cases hrun
      exact ⟨rfl, [], .nil, rfl, rfl, fun _ _ hgaps => absurd rfl hgaps⟩
  | succ n ih =>
      simp only [emitElements, List.range_succ, List.foldlM_append, List.foldlM_cons,
        List.foldlM_nil, bind_pure] at hrun
      obtain ⟨s₁, ⟨h₁, b₁⟩, hbefore, hturn⟩ := bind_eq_ok.mp hrun
      clear hrun
      obtain ⟨hheap₁, l, hl, hs⟩ := ih (by omega) hbefore
      obtain rfl : h₁ = h := hheap₁
      have hlength : l.length = n := by
        rw [← hl.length_eq, List.length_map, List.length_take]
        omega
      subst hlength
      obtain ⟨hheap, x, hx, hs'⟩ := emitElement_partitions hh harr (by omega) hs hturn
      have htake : (elems.take (l.length + 1)).map valueToObject =
          (elems.take l.length).map valueToObject ++
            [valueToObject (elems.get ⟨l.length, by omega⟩)] := by
        rw [List.take_add_one, List.getElem?_eq_getElem (by omega), Option.toList_some,
          List.map_append]
        rfl
      rw [htake]
      exact ⟨hheap, l ++ [x], List.rel_append hl (.cons hx .nil), hs'⟩

/-! ### The array from what is emitted -/

/-- Two texts that agree up to the first comma. -/
theorem eq_of_append_comma {α : Type} {x : α} {l l' r r' : List α} (hl : x ∉ l) (hl' : x ∉ l')
    (heq : l ++ x :: r = l' ++ x :: r') : l = l' ∧ r = r' := by
  induction l generalizing l' with
  | nil =>
      cases l' with
      | nil => exact ⟨rfl, (List.cons.inj heq).2⟩
      | cons y l' => exact absurd ((List.cons.inj heq).1 ▸ List.mem_cons_self) hl'
  | cons y l ih =>
      cases l' with
      | nil => exact absurd ((List.cons.inj heq).1 ▸ List.mem_cons_self) hl
      | cons z l' =>
          obtain ⟨rfl, htail⟩ := List.cons.inj heq
          obtain ⟨rfl, hr⟩ := ih (fun h => hl (List.mem_cons_of_mem _ h))
            (fun h => hl' (List.mem_cons_of_mem _ h)) htail
          exact ⟨rfl, hr⟩

/-- The record of an escape tells its index and the text of its argument. -/
theorem escapeRecordText_injective {i j : ℕ} {argStr argStr' : JSString}
    (heq : escapeRecordText i (some argStr) = escapeRecordText j (some argStr')) :
    i = j ∧ argStr = argStr' := by
  have hcomma : ∀ n, (44 : UInt16) ∉ natToString n := fun n hn => by
    have hdigit := natToString_digits hn
    exact absurd hdigit.1 (by decide)
  have hrest : ∀ n (s : JSString), escapeRecordText n (some s) =
      some (js "\x7bindex:" ++ (natToString n ++ 44 :: (js "expr:" ++ s ++ js "\x7d"))) := by
    intro n s
    simp [escapeRecordText, joinStrings, lit, js]
  rw [hrest, hrest, Option.some.injEq, List.append_cancel_left_eq] at heq
  obtain ⟨hindex, hargs⟩ := eq_of_append_comma (hcomma i) (hcomma j) heq
  rw [List.append_cancel_right_eq, List.append_cancel_left_eq] at hargs
  exact ⟨natToString_injective hindex, hargs⟩

theorem eq_of_map_escapeRecordText {gs gs' : List (ℕ × JSString)}
    (heq : gs.map (fun g => escapeRecordText g.1 (some g.2)) =
      gs'.map fun g => escapeRecordText g.1 (some g.2)) : gs = gs' := by
  refine List.map_injective_iff.mpr (fun g g' hg => ?_) heq
  obtain ⟨hindex, hargs⟩ := escapeRecordText_injective hg
  exact Prod.ext hindex hargs

/-- What the loop emits for an array tells the array: the indices of the
escapes increase and lie in range, each element is in one of the lists, no
other array gives the same lists, and the flag is the position of the escapes
when they share one. -/
theorem stringifyArray_partitions (hh : NoBoxedTypes h) {a : ℕ} {elems : List Value}
    (harr : h.cell a = some (.array elems)) {b : Bool} {texts : List Text} {t : JSHeap × Bool}
    (hrun : stringifyArray (unparse fuel) (.ref a) (h, b) = .ok texts t) :
    ∃ s l t', emitElements (unparse fuel) (.ref a) elems.length (h, b) = .ok s t' ∧
      s.text t' = .ok texts t ∧
      List.Forall₂ (Emitted (unparse fuel) h) (elems.map valueToObject) l ∧
      Partitions h (elems.map valueToObject) l s ∧
      ((gapsOf 0 l).map Prod.fst).Pairwise (· < ·) ∧
      (∀ g ∈ gapsOf 0 l, g.1 < elems.length) ∧
      ∀ l' : List (Text ⊕ JSString), nodesOf l' = s.arrayElements →
        ((gapsOf 0 l').map fun g => escapeRecordText g.1 (some g.2)) = s.escapeElements →
        l' = l := by
  have hlength : arrayLength (.ref a) (h, b) = .ok elems.length (h, b) :=
    reads_ok (by simp [getArrayLength, harr])
  rw [stringifyArray_eq, bind_ok hlength] at hrun
  obtain ⟨s, t', hloop, htext⟩ := bind_eq_ok.mp hrun
  obtain ⟨-, l, hl, hs⟩ := emitElements_partitions hh harr le_rfl hloop
  rw [List.take_length] at hl hs
  refine ⟨s, l, t', hloop, htext, hl, hs, gapsOf_ascending 0 l, fun g hg => ?_, ?_⟩
  · have hbounds := (gapsOf_bounds hg).2
    rw [← hl.length_eq, List.length_map] at hbounds
    omega
  · intro l' hplain hescapes
    rw [hs.escapes] at hescapes
    exact eq_of_nodesOf_gapsOf (hplain.trans hs.plain) (eq_of_map_escapeRecordText hescapes)

end Turns

/-- The array of the quoted statements `;`, `.~x;` and `;`. -/
def quotedList : Ast :=
  .array 0 [node 1 "EmptyStatement" [], exprStatement 2 (node 3 "UnaryExpression"
    [("operator", .leaf (string (js ".~"))), ("argument", identifier 4 "x"),
      ("prefix", .leaf (boolean true))]), node 5 "EmptyStatement" []]

/-- Its three texts go to the lists as the theorem says. -/
theorem stringifyArray_partitions_quotedList :
    ∃ s l t, emitElements (unparse 10) (.ref 0) 3 (.ofTrees [quotedList], false) = .ok s t ∧
      Partitions (.ofTrees [quotedList]) [.ref 1, .ref 2, .ref 5] l s ∧
      ((gapsOf 0 l).map Prod.fst).Pairwise (· < ·) ∧ ∀ g ∈ gapsOf 0 l, g.1 < 3 := by
  obtain ⟨texts, t, hrun, -⟩ := exists_of_ended
    (r := stringifyArray (unparse 10) (.ref 0) (.ofTrees [quotedList], false))
    (f := fun x => x.1.length) (b := 9) (by decide)
  have harr : (Heap.ofTrees [quotedList]).cell 0 = some (.array [.ref 1, .ref 2, .ref 5]) := by
    decide
  obtain ⟨s, l, t', hloop, -, -, hs, hascending, hrange, -⟩ :=
    stringifyArray_partitions (noBoxedTypes_ofTrees (by decide)) harr hrun
  exact ⟨s, l, t', hloop, hs, hascending, hrange⟩

end MetaMonkey.Staging
