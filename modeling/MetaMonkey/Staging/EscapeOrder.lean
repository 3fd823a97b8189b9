import MetaMonkey.Lists.Interleave
import MetaMonkey.Staging.Escape

/-!
What `meta_escape` does with the nodes of an array. The array is given with a
gap for every escape, filled by the value of the escape; from it come the two
lists that the printed quasi passes to the call.
-/

namespace MetaMonkey.Staging

open ObjectGraph Js MetaMonkey.Lists AstObjMng

variable {h : JSHeap}

/-! ### Programs -/

/-- A node is a record object. -/
def IsNode (h : JSHeap) (v : Value) : Prop :=
  ∃ a tag fields distinct, v = .ref a ∧ h.cell a = some (.record tag fields distinct)

/-- A Program with its list of statement nodes. -/
structure IsProgram (h : JSHeap) (v : Value) (stmts : List Value) : Prop where
  type : getProperty h v "type" = .ok (string (js "Program"))
  body : ∃ b, getProperty h v "body" = .ok (.ref b) ∧ arrayElems? h (.ref b) = some stmts
  nodes : ∀ s ∈ stmts, IsNode h s

/-- The `expression` property of a statement. -/
def rawExpression (h : JSHeap) (s : Value) : Value :=
  match getProperty h s "expression" with
  | .ok v => v
  | .error _ => undefined

theorem getProperty_of_isNode {v : Value} (hv : IsNode h v) (name : String) :
    ∃ w, getProperty h v name = .ok w := by
  obtain ⟨a, tag, fields, _, rfl, hc⟩ := hv
  simp [getProperty, hc]

theorem IsNode.isObject {v : Value} (hv : IsNode h v) : isObject v = true := by
  obtain ⟨a, _, _, _, rfl, _⟩ := hv
  rfl

theorem valueToObject_of_isObject {v : Value} (hv : isObject v = true) :
    valueToObject v = v := by
  match v with
  | .ref _ => rfl
  | .leaf (.wrapper _) => rfl
  | .leaf (.prim _) => cases hv

@[simp] theorem valueToObject_idem (v : Value) :
    valueToObject (valueToObject v) = valueToObject v := by
  match v with
  | .ref _ => rfl
  | .leaf (.wrapper _) => rfl
  | .leaf (.prim p) => cases p <;> rfl

theorem getProperty_expression {s : Value} (hs : IsNode h s) :
    getProperty h s "expression" = .ok (rawExpression h s) := by
  obtain ⟨w, hw⟩ := getProperty_of_isNode hs "expression"
  simp [rawExpression, hw]

theorem wrapStmt_of_isNode {s : Value} (hs : IsNode h s) :
    wrapStmt h s = .ok (valueToObject (rawExpression h s)) := by
  rw [wrapStmt, valueToObject_of_isObject hs.isObject, getPropertyToObj,
    getProperty_expression hs]
  rfl

theorem expressionOf_of_isNode {s : Value} (hs : IsNode h s) :
    Stagedlib.expressionOf h s = .ok (rawExpression h s) := by
  have hraw := getProperty_expression hs
  obtain ⟨a, _, _, _, rfl, _⟩ := hs
  exact hraw

theorem IsProgram.isRef {v : Value} {stmts : List Value} (hv : IsProgram h v stmts) :
    ∃ a, v = .ref a := by
  have htype := hv.type
  match v with
  | .ref a => exact ⟨a, rfl⟩
  | .leaf (.prim _) => cases htype
  | .leaf (.wrapper _) => cases htype

theorem IsProgram.getBody {v : Value} {stmts : List Value} (hv : IsProgram h v stmts) :
    getBodyFromProgram h v = .ok stmts := by
  obtain ⟨b, hb, helems⟩ := hv.body
  obtain ⟨a, rfl⟩ := hv.isRef
  have htype : getPropertyToString h (.ref a) "type" = .ok (js "Program") := by
    rw [getPropertyToString, hv.type, ok_bind]
    rfl
  have hbody : getPropertyToObj h (.ref a) "body" = .ok (.ref b) := by
    rw [getPropertyToObj, hb, ok_bind]
    rfl
  simp [getBodyFromProgram, htype, hbody, equals, helems]

/-- What the value of an escape contributes: its statements or the
expressions of these. -/
def contribution (h : JSHeap) (fromStmt : Bool) (stmts : List Value) : List Value :=
  if fromStmt then stmts else stmts.map fun s => valueToObject (rawExpression h s)

theorem mapM_ok {α β : Type} {f : α → Except Fault β} {g : α → β} {l : List α}
    (hf : ∀ x ∈ l, f x = .ok (g x)) : l.mapM f = .ok (l.map g) := by
  induction l with
  | nil => rfl
  | cons x l ih =>
      rw [List.forall_mem_cons] at hf
      rw [List.mapM_cons, hf.1, ih hf.2]
      rfl

theorem IsProgram.getStmts {v : Value} {stmts : List Value} (hv : IsProgram h v stmts)
    (fromStmt : Bool) (vp : List Value) :
    getStmtsFromAstObj h fromStmt v vp = .ok (vp ++ contribution h fromStmt stmts) := by
  rw [getStmtsFromAstObj, hv.getBody, ok_bind]
  cases fromStmt with
  | true =>
      have helems : stmts.mapM (fun s => (.ok s : Except Fault Value)) = .ok stmts :=
        (mapM_ok fun _ _ => rfl).trans (congrArg _ (List.map_id stmts))
      simp [helems, contribution]
  | false =>
      have helems := mapM_ok fun s hs => wrapStmt_of_isNode (hv.nodes s hs)
      simp [helems, contribution]

/-! ### Arrays with escapes -/

def bodyOf (h : JSHeap) (v : Value) : List Value :=
  match getBodyFromProgram h v with
  | .ok stmts => stmts
  | .error _ => []

/-- Every escape of the array has a Program as its value. -/
def EscapesPrograms (h : JSHeap) (items : List (Value ⊕ Value)) : Prop :=
  ∀ v, .inr v ∈ items → IsProgram h v (bodyOf h v)

/-- The second list passed to the call, as the printer emits it. -/
def escapeRecords (items : List (Value ⊕ Value)) : List EscapeRecord :=
  (gapsOf 0 items).map fun g => ⟨g.1, g.2⟩

/-- The array with the contribution of each value in place of the value. -/
def expanded (h : JSHeap) (fromStmt : Bool) (items : List (Value ⊕ Value)) :
    List (Value ⊕ List Value) :=
  items.map (Sum.map id fun v => contribution h fromStmt (bodyOf h v))

theorem nodesOf_map {α β γ : Type} (f : β → γ) (l : List (α ⊕ β)) :
    nodesOf (l.map (Sum.map id f)) = nodesOf l := by
  induction l with
  | nil => rfl
  | cons a l ih =>
      cases a with
      | inl x => exact congrArg _ ih
      | inr b => exact ih

theorem gapsOf_map {α β γ : Type} (f : β → γ) (i : ℕ) (l : List (α ⊕ β)) :
    gapsOf i (l.map (Sum.map id f)) = (gapsOf i l).map fun g => (g.1, f g.2) := by
  induction l generalizing i with
  | nil => rfl
  | cons a l ih =>
      cases a with
      | inl x => exact ih _
      | inr b => exact congrArg _ (ih _)

theorem mem_gapsOf {α β : Type} {i : ℕ} {l : List (α ⊕ β)} {g : ℕ × β}
    (hg : g ∈ gapsOf i l) : .inr g.2 ∈ l := by
  induction l generalizing i with
  | nil => cases hg
  | cons a l ih =>
      cases a with
      | inl x => exact List.mem_cons_of_mem _ (ih hg)
      | inr b =>
          rcases List.mem_cons.mp hg with rfl | hg
          · exact List.mem_cons_self
          · exact List.mem_cons_of_mem _ (ih hg)

theorem exists_mem_gapsOf {α β : Type} (i : ℕ) {l : List (α ⊕ β)} {b : β}
    (hb : .inr b ∈ l) : ∃ j, (j, b) ∈ gapsOf i l := by
  induction l generalizing i with
  | nil => cases hb
  | cons a l ih =>
      rcases List.mem_cons.mp hb with rfl | hb
      · exact ⟨i, List.mem_cons_self⟩
      · obtain ⟨j, hj⟩ := ih (i + 1) hb
        cases a with
        | inl x => exact ⟨j, hj⟩
        | inr b' => exact ⟨j, List.mem_cons_of_mem _ hj⟩

@[simp] theorem nodesOf_expanded (fromStmt : Bool) (items : List (Value ⊕ Value)) :
    nodesOf (expanded h fromStmt items) = nodesOf items :=
  nodesOf_map _ _

/-- The block of nodes an escape record stands for. -/
def EscapeRecord.block (h : JSHeap) (fromStmt : Bool) (r : EscapeRecord) : ℕ × List Value :=
  (r.index, contribution h fromStmt (bodyOf h r.expr))

theorem map_block_escapeRecords (fromStmt : Bool) (items : List (Value ⊕ Value)) :
    (escapeRecords items).map (EscapeRecord.block h fromStmt) =
      gapsOf 0 (expanded h fromStmt items) := by
  rw [expanded, gapsOf_map, escapeRecords, List.map_map]
  rfl

theorem isProgram_of_mem_escapeRecords {items : List (Value ⊕ Value)}
    (hprog : EscapesPrograms h items) {r : EscapeRecord} (hr : r ∈ escapeRecords items) :
    IsProgram h r.expr (bodyOf h r.expr) := by
  obtain ⟨g, hg, rfl⟩ := List.mem_map.mp hr
  exact hprog _ (mem_gapsOf hg)

/-! ### The loop of the engine -/

section Loop

variable {normals : List Value} {escapes : List EscapeRecord} {fromStmt : Bool}

theorem pushNormal_spec (normals : List Value) (s : MergeLoop) :
    normals.drop (pushNormal normals s).naIdx = (normals.drop s.naIdx).tail ∧
      (pushNormal normals s).eaIdx = s.eaIdx ∧
      (pushNormal normals s).escapeObjArray =
        s.escapeObjArray ++ (normals.drop s.naIdx).take 1 := by
  have hhead := List.head?_drop (l := normals) (i := s.naIdx)
  rw [pushNormal, List.tail_drop]
  cases hdrop : normals.drop s.naIdx with
  | nil =>
      have hlen := List.drop_eq_nil_iff.mp hdrop
      rw [hdrop] at hhead
      rw [← hhead]
      refine ⟨?_, rfl, by simp⟩
      rw [List.drop_of_length_le (Nat.le_succ_of_le hlen)]
      exact hdrop
  | cons n rest =>
      rw [hdrop] at hhead
      rw [← hhead]
      exact ⟨rfl, rfl, rfl⟩

theorem mergeEscape_done {s : MergeLoop} (hs : escapes.drop s.eaIdx = []) :
    mergeEscape h escapes fromStmt s = .ok s := by
  rw [mergeEscape, ← List.head?_drop, hs]
  rfl

theorem mergeEscape_waits {s : MergeLoop} {r : EscapeRecord} {rest : List EscapeRecord}
    (hs : escapes.drop s.eaIdx = r :: rest) (hr : ¬ r.index ≤ s.escapeObjArray.length) :
    mergeEscape h escapes fromStmt s = .ok s := by
  rw [mergeEscape, ← List.head?_drop, hs]
  simp [hr]

theorem mergeEscape_merges {s : MergeLoop} {r : EscapeRecord} {rest : List EscapeRecord}
    (hs : escapes.drop s.eaIdx = r :: rest) (hr : r.index ≤ s.escapeObjArray.length)
    (hprog : IsProgram h r.expr (bodyOf h r.expr)) :
    mergeEscape h escapes fromStmt s = .ok { s with
      eaIdx := s.eaIdx + 1
      escapeObjArray := s.escapeObjArray ++ (r.block h fromStmt).2 } := by
  obtain ⟨a, ha⟩ := hprog.isRef
  have hobj : valueToObject r.expr = r.expr := by rw [ha]; rfl
  rw [mergeEscape, ← List.head?_drop, hs]
  simp [hr, hobj, hprog.getStmts, EscapeRecord.block]

theorem mergeLoop_eq (hprog : ∀ r ∈ escapes, IsProgram h r.expr (bodyOf h r.expr))
    (fuel : ℕ) (s : MergeLoop) :
    mergeLoop h normals escapes fromStmt fuel s =
      (interleave fuel (normals.drop s.naIdx)
        ((escapes.drop s.eaIdx).map (EscapeRecord.block h fromStmt)) s.escapeObjArray).map
        Except.ok := by
  induction fuel generalizing s with
  | zero =>
      rw [mergeLoop]
      cases hn : normals.drop s.naIdx with
      | nil =>
          cases he : escapes.drop s.eaIdx with
          | nil =>
              rw [if_neg (by simp only [List.drop_eq_nil_iff] at hn he; omega)]
              simp [interleave]
          | cons r rest =>
              have hlt := List.length_pos_of_ne_nil (he ▸ List.cons_ne_nil r rest)
              rw [if_pos (by rw [List.length_drop] at hlt; omega)]
              rfl
      | cons n ns =>
          have hlt := List.length_pos_of_ne_nil (hn ▸ List.cons_ne_nil n ns)
          rw [if_pos (by rw [List.length_drop] at hlt; omega)]
          rfl
  | succ fuel ih =>
      rw [mergeLoop]
      cases he : escapes.drop s.eaIdx with
      | nil =>
          cases hn : normals.drop s.naIdx with
          | nil =>
              rw [if_neg (by simp only [List.drop_eq_nil_iff] at hn he; omega)]
              simp [interleave]
          | cons n ns =>
              have hlt := List.length_pos_of_ne_nil (hn ▸ List.cons_ne_nil n ns)
              obtain ⟨hna, hea, hout⟩ := pushNormal_spec normals s
              rw [if_pos (by rw [List.length_drop] at hlt; omega), mergeEscape_done he]
              simp only [ih, hna, hea, hout, hn, he, List.map_nil, interleave]
      | cons r rest =>
          have hlt := List.length_pos_of_ne_nil (he ▸ List.cons_ne_nil r rest)
          rw [if_pos (by rw [List.length_drop] at hlt; omega)]
          have hr : r ∈ escapes := List.mem_of_mem_drop (he ▸ List.mem_cons_self)
          have hblock : r.block h fromStmt = (r.index, (r.block h fromStmt).2) := rfl
          rw [List.map_cons, hblock, interleave]
          by_cases hidx : r.index ≤ s.escapeObjArray.length
          · rw [mergeEscape_merges he hidx (hprog r hr), if_pos hidx]
            obtain ⟨hna, hea, hout⟩ := pushNormal_spec normals
              { s with
                eaIdx := s.eaIdx + 1
                escapeObjArray := s.escapeObjArray ++ (r.block h fromStmt).2 }
            have hrest : escapes.drop (s.eaIdx + 1) = rest := by
              rw [← List.tail_drop, he, List.tail_cons]
            refine (ih _).trans ?_
            rw [hna, hea, hout, hrest]
          · rw [mergeEscape_waits he hidx, if_neg hidx]
            obtain ⟨hna, hea, hout⟩ := pushNormal_spec normals s
            refine (ih _).trans ?_
            rw [hna, hea, hout, he]
            rfl

end Loop

/-- The call on the lists that come from an array. -/
theorem metaEscape_eq {items : List (Value ⊕ Value)} (hprog : EscapesPrograms h items)
    (fuel : ℕ) (fromStmt : Bool) :
    metaEscape h fuel (nodesOf items) (escapeRecords items) fromStmt =
      (interleave fuel (nodesOf items) (gapsOf 0 (expanded h fromStmt items)) []).map
        Except.ok := by
  rw [metaEscape, mergeLoop_eq (fun r hr => isProgram_of_mem_escapeRecords hprog hr),
    List.drop_zero, List.drop_zero, map_block_escapeRecords]

/-- The number of nodes, and for every escape its place and the number of
nodes it contributes. -/
def escapeSizes (h : JSHeap) (items : List (Value ⊕ Value)) : List (ℕ × ℕ) :=
  (gapsOf 0 items).map fun g => (g.1, (bodyOf h g.2).length)

theorem sizes_gapsOf_expanded (fromStmt : Bool) (items : List (Value ⊕ Value)) :
    sizes (gapsOf 0 (expanded h fromStmt items)) = escapeSizes h items := by
  rw [expanded, gapsOf_map, sizes, escapeSizes, List.map_map]
  apply List.map_congr_left
  intro g _
  cases fromStmt <;> simp [contribution]

theorem metaEscape_eq_some {items : List (Value ⊕ Value)} (hprog : EscapesPrograms h items)
    {fuel : ℕ} {fromStmt : Bool} {out : List Value}
    (hrun : metaEscape h fuel (nodesOf items) (escapeRecords items) fromStmt =
      some (.ok out)) :
    Reached (nodesOf items).length 0 (escapeSizes h items) ∧
      out = weave 0 (nodesOf items) (turns (nodesOf items).length 0 0
        (gapsOf 0 (expanded h fromStmt items))) := by
  rw [metaEscape_eq hprog, Option.map_eq_some_iff] at hrun
  obtain ⟨r, hr, hout⟩ := hrun
  obtain rfl : r = out := Except.ok.inj hout
  rw [← sizes_gapsOf_expanded fromStmt]
  exact interleave_eq_some hr

theorem metaEscape_returns {items : List (Value ⊕ Value)} (hprog : EscapesPrograms h items)
    (fromStmt : Bool)
    (hreach : Reached (nodesOf items).length 0 (escapeSizes h items)) :
    ∃ fuel, metaEscape h fuel (nodesOf items) (escapeRecords items) fromStmt =
      some (.ok (weave 0 (nodesOf items) (turns (nodesOf items).length 0 0
        (gapsOf 0 (expanded h fromStmt items))))) := by
  rw [← sizes_gapsOf_expanded fromStmt] at hreach
  obtain ⟨fuel, hfuel⟩ := interleave_returns (c := 0) (nodesOf items) []
    (gapsOf 0 (expanded h fromStmt items)) (by simp) rfl hreach
  exact ⟨fuel, by rw [metaEscape_eq hprog, hfuel]; rfl⟩

/-- The array form fills every gap in place exactly when it either never ends
or merges every nonempty value after as many normal nodes as precede its
escape. That this is necessary supposes that the normal nodes are not also
part of the values. -/
theorem metaEscape_fills_iff (items : List (Value ⊕ Value)) (fromStmt : Bool)
    (hprog : EscapesPrograms h items) :
    ((Ends (nodesOf items).length (escapeSizes h items) →
        KeepsOrder (nodesOf items).length (escapeSizes h items)) →
      ∀ fuel out, metaEscape h fuel (nodesOf items) (escapeRecords items) fromStmt =
        some (.ok out) → out = fill (expanded h fromStmt items)) ∧
    ((∀ v, .inr v ∈ items → ∀ x ∈ contribution h fromStmt (bodyOf h v),
        x ∉ nodesOf items) →
      (∀ fuel out, metaEscape h fuel (nodesOf items) (escapeRecords items) fromStmt =
        some (.ok out) → out = fill (expanded h fromStmt items)) →
      Ends (nodesOf items).length (escapeSizes h items) →
        KeepsOrder (nodesOf items).length (escapeSizes h items)) := by
  have hnodes := nodesOf_expanded (h := h) fromStmt items
  constructor
  · intro hkeeps fuel out hrun
    obtain ⟨hreach, rfl⟩ := metaEscape_eq_some hprog hrun
    have hin := (keepsOrder_iff hreach).mp (hkeeps (ends_iff.mpr hreach))
    rw [← sizes_gapsOf_expanded fromStmt, ← hnodes] at hin hreach
    rw [← hnodes]
    exact weave_turns_eq_fill hreach hin
  · intro hfresh hfill hends
    have hreach := ends_iff.mp hends
    obtain ⟨fuel, hrun⟩ := metaEscape_returns hprog fromStmt hreach
    have heq := hfill fuel _ hrun
    rw [keepsOrder_iff hreach]
    rw [← sizes_gapsOf_expanded fromStmt, ← hnodes] at hreach ⊢
    rw [← hnodes] at heq
    refine inPlace_of_weave_turns_eq_fill hreach ?_ heq
    intro b hb x hx
    rw [expanded, gapsOf_map] at hb
    obtain ⟨g, hg, rfl⟩ := List.mem_map.mp hb
    rw [hnodes]
    exact hfresh _ (mem_gapsOf hg) x hx

/-- Two one-statement Programs at 0 and 3 and two further statements. -/
def escapeHeap : JSHeap := .ofCells [
  .record .plain [("type", string (js "Program")), ("body", .ref 1)] (by decide),
  .array [.ref 2],
  .record .plain [("type", string (js "EmptyStatement"))] (by decide),
  .record .plain [("type", string (js "Program")), ("body", .ref 4)] (by decide),
  .array [.ref 5],
  .record .plain [("type", string (js "EmptyStatement"))] (by decide),
  .record .plain [("type", string (js "EmptyStatement"))] (by decide),
  .record .plain [("type", string (js "EmptyStatement"))] (by decide)]

/-- Two escapes side by side. -/
def adjacentEscapes : List (Value ⊕ Value) := [.inr (.ref 0), .inr (.ref 3), .inl (.ref 6)]

/-- Two escapes, each before a node. -/
def isolatedEscapes : List (Value ⊕ Value) :=
  [.inr (.ref 0), .inl (.ref 6), .inr (.ref 3), .inl (.ref 7)]

theorem isProgram_escapeHeap_zero :
    IsProgram escapeHeap (.ref 0) (bodyOf escapeHeap (.ref 0)) where
  type := by decide
  body := ⟨1, by decide, by decide⟩
  nodes s hs := by
    obtain rfl : s = .ref 2 := List.mem_singleton.mp hs
    exact ⟨2, .plain, [("type", string (js "EmptyStatement"))], by decide, rfl, rfl⟩

theorem isProgram_escapeHeap_three :
    IsProgram escapeHeap (.ref 3) (bodyOf escapeHeap (.ref 3)) where
  type := by decide
  body := ⟨4, by decide, by decide⟩
  nodes s hs := by
    obtain rfl : s = .ref 5 := List.mem_singleton.mp hs
    exact ⟨5, .plain, [("type", string (js "EmptyStatement"))], by decide, rfl, rfl⟩

theorem escapesPrograms_adjacentEscapes : EscapesPrograms escapeHeap adjacentEscapes := by
  intro v hv
  simp only [adjacentEscapes, List.mem_cons, Sum.inr.injEq, reduceCtorEq, List.not_mem_nil,
    or_false] at hv
  rcases hv with rfl | rfl
  · exact isProgram_escapeHeap_zero
  · exact isProgram_escapeHeap_three

theorem escapesPrograms_isolatedEscapes : EscapesPrograms escapeHeap isolatedEscapes := by
  intro v hv
  simp only [isolatedEscapes, List.mem_cons, Sum.inr.injEq, reduceCtorEq, List.not_mem_nil,
    false_or, or_false] at hv
  rcases hv with rfl | rfl
  · exact isProgram_escapeHeap_zero
  · exact isProgram_escapeHeap_three

/-- The condition holds of isolated escapes, which the call fills in place. -/
theorem metaEscape_fills_isolated :
    KeepsOrder 2 (escapeSizes escapeHeap isolatedEscapes) ∧
      [.ref 2, .ref 6, .ref 5, .ref 7] = fill (expanded escapeHeap true isolatedEscapes) :=
  ⟨by decide, (metaEscape_fills_iff isolatedEscapes true
    escapesPrograms_isolatedEscapes).1 (by decide) 5 _ (by decide)⟩

/-- Of two adjacent escapes the second value ends up after the node that
follows it. -/
theorem metaEscape_reorders_adjacent :
    ¬ ∀ (h : JSHeap) (items : List (Value ⊕ Value)) (fromStmt : Bool),
      EscapesPrograms h items → ∀ fuel out,
        metaEscape h fuel (nodesOf items) (escapeRecords items) fromStmt = some (.ok out) →
        out = fill (expanded h fromStmt items) := by
  intro hclaim
  have hout : [.ref 2, .ref 6, .ref 5] = fill (expanded escapeHeap true adjacentEscapes) :=
    hclaim escapeHeap adjacentEscapes true escapesPrograms_adjacentEscapes 5 _ (by decide)
  exact absurd hout (by decide)

/-! ### Termination of the loop -/

/-- An escape whose place is beyond all normal nodes and all values before it
keeps the loop from ending. -/
theorem metaEscape_stalls {items : List (Value ⊕ Value)} (hprog : EscapesPrograms h items)
    (fromStmt : Bool)
    (hstall : ¬ Reached (nodesOf items).length 0 (escapeSizes h items)) (fuel : ℕ) :
    metaEscape h fuel (nodesOf items) (escapeRecords items) fromStmt = none := by
  rw [← sizes_gapsOf_expanded fromStmt] at hstall
  rw [metaEscape_eq hprog, interleave_stalls (c := 0) (S := 0) (by simp) rfl hstall]
  rfl

/-- The array form ends exactly when the place of every escape is reached by the
normal nodes and the values of the escapes before it. -/
theorem metaEscape_ends_iff (items : List (Value ⊕ Value)) (fromStmt : Bool)
    (hprog : EscapesPrograms h items) :
    (∃ fuel out, metaEscape h fuel (nodesOf items) (escapeRecords items) fromStmt = some out) ↔
      Ends (nodesOf items).length (escapeSizes h items) := by
  rw [ends_iff]
  constructor
  · rintro ⟨fuel, out, hrun⟩
    by_contra hstall
    rw [metaEscape_stalls hprog fromStmt hstall fuel] at hrun
    cases hrun
  · intro hreach
    obtain ⟨fuel, hrun⟩ := metaEscape_returns hprog fromStmt hreach
    exact ⟨fuel, _, hrun⟩

theorem metaEscape_ends_isolated :
    Ends 2 (escapeSizes escapeHeap isolatedEscapes) ∧
      ∃ fuel out, metaEscape escapeHeap fuel (nodesOf isolatedEscapes)
        (escapeRecords isolatedEscapes) true = some out :=
  ⟨by decide, (metaEscape_ends_iff isolatedEscapes true
    escapesPrograms_isolatedEscapes).mpr (by decide)⟩

/-- A Program without statements. -/
def emptyHeap : JSHeap := .ofCells [
  .record .plain [("type", string (js "Program")), ("body", .ref 1)] (by decide),
  .array []]

/-- Two escapes with nothing between them. -/
def emptyEscapes : List (Value ⊕ Value) := [.inr (.ref 0), .inr (.ref 0)]

theorem escapesPrograms_emptyEscapes : EscapesPrograms emptyHeap emptyEscapes := by
  intro v hv
  obtain rfl : v = .ref 0 := by simpa [emptyEscapes] using hv
  exact {
    type := by decide
    body := ⟨1, by decide, by decide⟩
    nodes := fun s hs => by
      have hnone : bodyOf emptyHeap (.ref 0) = [] := by decide
      rw [hnone] at hs
      cases hs }

/-- Once the first of them has been replaced by nothing, the place of the
second is never reached. -/
theorem metaEscape_stalls_empty :
    ¬ ∀ (h : JSHeap) (items : List (Value ⊕ Value)) (fromStmt : Bool),
      EscapesPrograms h items → ∃ fuel out,
        metaEscape h fuel (nodesOf items) (escapeRecords items) fromStmt = some out := by
  intro hclaim
  obtain ⟨fuel, out, hrun⟩ := hclaim emptyHeap emptyEscapes true escapesPrograms_emptyEscapes
  have hstall : ¬ Reached 0 0 (escapeSizes emptyHeap emptyEscapes) := by
    rw [← ends_iff]
    decide
  rw [metaEscape_stalls escapesPrograms_emptyEscapes true hstall fuel] at hrun
  cases hrun

/-! ### The page of the debugger -/

namespace Stagedlib

/-- The expressions of statements as the page reads them. -/
def contribution (h : JSHeap) (fromStmt : Bool) (stmts : List Value) : List Value :=
  if fromStmt then stmts else stmts.map (rawExpression h)

theorem mngGetBody_of_isProgram {v : Value} {stmts : List Value} (hv : IsProgram h v stmts)
    (fromStmt : Bool) : mngGetBody h v fromStmt = .ok (contribution h fromStmt stmts) := by
  obtain ⟨b, hb, helems⟩ := hv.body
  obtain ⟨a, rfl⟩ := hv.isRef
  have hast : isAstObj h (.ref a) = .ok true := by
    simp [isAstObj, hv.type]
  have hexprs := mapM_ok fun s hs => expressionOf_of_isNode (hv.nodes s hs)
  cases fromStmt <;> simp [mngGetBody, hast, hb, helems, hexprs, contribution]

/-- The splices of the page insert the values one after the other. -/
theorem mEscapeFrom_eq {fromStmt : Bool} {escapes : List EscapeRecord}
    (hprog : ∀ r ∈ escapes, IsProgram h r.expr (bodyOf h r.expr)) (j : ℕ)
    (normals : List Value) :
    mEscapeFrom h fromStmt j normals escapes =
      .ok (insertAll normals (shifted j (escapes.map fun r =>
        (r.index, contribution h fromStmt (bodyOf h r.expr))))) := by
  induction escapes generalizing j normals with
  | nil => rfl
  | cons r escapes ih =>
      rw [List.forall_mem_cons] at hprog
      rw [mEscapeFrom, mngGetBody_of_isProgram hprog.1, ok_bind, ih hprog.2]
      rfl

/-- The array with the contribution of each value as the page computes it. -/
def expanded (h : JSHeap) (fromStmt : Bool) (items : List (Value ⊕ Value)) :
    List (Value ⊕ List Value) :=
  items.map (Sum.map id fun v => contribution h fromStmt (bodyOf h v))

theorem mEscapeArray_eq {items : List (Value ⊕ Value)} (hprog : EscapesPrograms h items)
    (fromStmt : Bool) :
    mEscapeArray h (nodesOf items) (escapeRecords items) fromStmt =
      .ok (insertAll (nodesOf items) (shifted 0 (gapsOf 0 (expanded h fromStmt items)))) := by
  rw [mEscapeArray, mEscapeFrom_eq fun r hr => isProgram_of_mem_escapeRecords hprog hr,
    expanded, gapsOf_map, escapeRecords, List.map_map]
  rfl

/-- The `expression` of a statement is an object or null. -/
def HasExpression (h : JSHeap) (s : Value) : Prop :=
  valueToObject (rawExpression h s) = rawExpression h s

theorem expanded_eq {items : List (Value ⊕ Value)} {fromStmt : Bool}
    (h_expr : fromStmt = true ∨
      ∀ v, .inr v ∈ items → ∀ s ∈ bodyOf h v, HasExpression h s) :
    expanded h fromStmt items = Staging.expanded h fromStmt items := by
  apply List.map_congr_left
  intro item hitem
  cases item with
  | inl x => rfl
  | inr v =>
      rcases h_expr with rfl | hall
      · rfl
      · cases fromStmt with
        | true => rfl
        | false =>
            refine congrArg Sum.inr (List.map_congr_left fun s hs => ?_)
            exact (hall v hitem s hs).symm

/-- The page and the engine build the same array exactly when the loop of the
engine ends, puts every nonempty value where the splices of the page put it,
and no statement lacks the expression that is asked for. -/
theorem mEscapeArray_agrees_iff (items : List (Value ⊕ Value)) (fromStmt : Bool)
    (hprog : EscapesPrograms h items) (hnodes : ∀ x ∈ nodesOf items, isObject x = true) :
    (Ends (nodesOf items).length (escapeSizes h items) ∧
        MatchesInsertion (nodesOf items).length (escapeSizes h items) ∧
        (fromStmt = true ∨ ∀ v, .inr v ∈ items → ∀ s ∈ bodyOf h v, HasExpression h s) →
      ∀ out, (∃ fuel, metaEscape h fuel (nodesOf items) (escapeRecords items) fromStmt =
          some (.ok out)) ↔
        mEscapeArray h (nodesOf items) (escapeRecords items) fromStmt = .ok out) ∧
    ((∀ out, (∃ fuel, metaEscape h fuel (nodesOf items) (escapeRecords items) fromStmt =
          some (.ok out)) ↔
        mEscapeArray h (nodesOf items) (escapeRecords items) fromStmt = .ok out) →
      Ends (nodesOf items).length (escapeSizes h items) ∧
        (fromStmt = true ∨ ∀ v, .inr v ∈ items → ∀ s ∈ bodyOf h v, HasExpression h s) ∧
        ((nodesOf items ++ (gapsOf 0 (Staging.expanded h fromStmt items)).flatMap
            Prod.snd).Nodup →
          MatchesInsertion (nodesOf items).length (escapeSizes h items))) := by
  have hpage := mEscapeArray_eq hprog fromStmt
  constructor
  · rintro ⟨hends, hmatch, hexpr⟩ out
    have hreach := ends_iff.mp hends
    obtain ⟨fuel, hrun⟩ := metaEscape_returns hprog fromStmt hreach
    rw [matchesInsertion_iff hreach, ← sizes_gapsOf_expanded fromStmt] at hmatch
    have hreach' := hreach
    rw [← sizes_gapsOf_expanded fromStmt] at hreach'
    rw [hpage, expanded_eq hexpr, ← weave_turns_eq_shifted hreach' hmatch]
    constructor
    · rintro ⟨fuel', hrun'⟩
      rw [(metaEscape_eq_some hprog hrun').2]
    · intro hout
      exact ⟨fuel, hrun.trans (congrArg some hout)⟩
  · intro hagree
    obtain ⟨fuel, hrun⟩ := (hagree _).mpr hpage
    obtain ⟨hreach, heq⟩ := metaEscape_eq_some hprog hrun
    have hreach' := hreach
    rw [← sizes_gapsOf_expanded fromStmt] at hreach'
    have hexpr : fromStmt = true ∨
        ∀ v, .inr v ∈ items → ∀ s ∈ bodyOf h v, HasExpression h s := by
      cases fromStmt with
      | true => exact Or.inl rfl
      | false =>
          refine Or.inr fun v hv s hs => ?_
          obtain ⟨i, hi⟩ := exists_mem_gapsOf 0 hv
          have hpageMem : rawExpression h s ∈ insertAll (nodesOf items)
              (shifted 0 (gapsOf 0 (expanded h false items))) := by
            rw [(insertAll_perm _ _).mem_iff, flatMap_shifted, expanded, gapsOf_map]
            exact List.mem_append_right _ (List.mem_flatMap.mpr
              ⟨_, List.mem_map_of_mem hi, List.mem_map_of_mem hs⟩)
          rw [heq, (weave_turns_perm hreach').mem_iff, List.mem_append] at hpageMem
          rcases hpageMem with hnode | hvalue
          · exact valueToObject_of_isObject (hnodes _ hnode)
          · rw [Staging.expanded, gapsOf_map] at hvalue
            obtain ⟨b, hb, hx⟩ := List.mem_flatMap.mp hvalue
            obtain ⟨g, _, rfl⟩ := List.mem_map.mp hb
            obtain ⟨s', _, hs'⟩ := List.mem_map.mp hx
            rw [HasExpression, ← hs', valueToObject_idem]
    refine ⟨ends_iff.mpr hreach, hexpr, fun hdistinct => ?_⟩
    rw [matchesInsertion_iff hreach, ← sizes_gapsOf_expanded fromStmt]
    rw [expanded_eq hexpr] at heq
    exact sameAsShifted_of_weave_turns_eq hreach' hdistinct heq.symm

/-- The Programs `;;` at 0 and `;` at 4, and three further statements. -/
def twoSizesHeap : JSHeap := .ofCells [
  .record .plain [("type", string (js "Program")), ("body", .ref 1)] (by decide),
  .array [.ref 2, .ref 3],
  .record .plain [("type", string (js "EmptyStatement"))] (by decide),
  .record .plain [("type", string (js "EmptyStatement"))] (by decide),
  .record .plain [("type", string (js "Program")), ("body", .ref 5)] (by decide),
  .array [.ref 6],
  .record .plain [("type", string (js "EmptyStatement"))] (by decide),
  .record .plain [("type", string (js "EmptyStatement"))] (by decide),
  .record .plain [("type", string (js "EmptyStatement"))] (by decide),
  .record .plain [("type", string (js "EmptyStatement"))] (by decide)]

/-- An escape with two statements and one with one, with nodes around them. -/
def twoSizes : List (Value ⊕ Value) :=
  [.inl (.ref 7), .inr (.ref 0), .inl (.ref 8), .inr (.ref 4), .inl (.ref 9)]

theorem escapesPrograms_twoSizes : EscapesPrograms twoSizesHeap twoSizes := by
  intro v hv
  simp only [twoSizes, List.mem_cons, Sum.inr.injEq, reduceCtorEq, List.not_mem_nil, false_or,
    or_false] at hv
  rcases hv with rfl | rfl
  · refine ⟨by decide, ⟨1, by decide, by decide⟩, fun s hs => ?_⟩
    have hmem : s = .ref 2 ∨ s = .ref 3 := by simpa using (show s ∈ [.ref 2, .ref 3] from hs)
    rcases hmem with rfl | rfl
    · exact ⟨2, .plain, [("type", string (js "EmptyStatement"))], by decide, rfl, rfl⟩
    · exact ⟨3, .plain, [("type", string (js "EmptyStatement"))], by decide, rfl, rfl⟩
  · refine ⟨by decide, ⟨5, by decide, by decide⟩, fun s hs => ?_⟩
    obtain rfl : s = .ref 6 := List.mem_singleton.mp hs
    exact ⟨6, .plain, [("type", string (js "EmptyStatement"))], by decide, rfl, rfl⟩

/-- Both put the two values between the nodes. -/
theorem mEscapeArray_agrees_twoSizes :
    (∃ fuel, metaEscape twoSizesHeap fuel (nodesOf twoSizes) (escapeRecords twoSizes) true =
      some (.ok [.ref 7, .ref 2, .ref 3, .ref 8, .ref 6, .ref 9])) ∧
    mEscapeArray twoSizesHeap (nodesOf twoSizes) (escapeRecords twoSizes) true =
      .ok [.ref 7, .ref 2, .ref 3, .ref 8, .ref 6, .ref 9] := by
  have hagree := (mEscapeArray_agrees_iff twoSizes true escapesPrograms_twoSizes (by decide)).1
    ⟨by decide, by decide, Or.inl rfl⟩ [.ref 7, .ref 2, .ref 3, .ref 8, .ref 6, .ref 9]
  have hpage : mEscapeArray twoSizesHeap (nodesOf twoSizes) (escapeRecords twoSizes) true =
      .ok [.ref 7, .ref 2, .ref 3, .ref 8, .ref 6, .ref 9] := by decide
  exact ⟨hagree.mpr hpage, hpage⟩

/-- With two escapes apart, the page puts the second value behind the node it
stood before. -/
theorem mEscapeArray_disagrees_isolated :
    ¬ ∀ (h : JSHeap) (items : List (Value ⊕ Value)) (fromStmt : Bool),
      EscapesPrograms h items → (∀ x ∈ nodesOf items, isObject x = true) →
        ∀ out, (∃ fuel, metaEscape h fuel (nodesOf items) (escapeRecords items) fromStmt =
            some (.ok out)) ↔
          mEscapeArray h (nodesOf items) (escapeRecords items) fromStmt = .ok out := by
  intro hclaim
  have hpage := (hclaim escapeHeap isolatedEscapes true escapesPrograms_isolatedEscapes
    (by decide) [.ref 2, .ref 6, .ref 5, .ref 7]).mp ⟨5, by decide⟩
  exact absurd hpage (by decide)

end Stagedlib

end MetaMonkey.Staging
