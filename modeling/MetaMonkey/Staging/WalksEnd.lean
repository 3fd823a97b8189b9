import MetaMonkey.Staging.InStep
import MetaMonkey.Staging.PrintFrame
import Mathlib.Order.Filter.AtTopBot.Basic

/-!
The two walks over what the parser gives: the traversal of the staged tags and the
stringifier of quasis. Both follow every element of an array, and for a hole the pointer
they follow is null. Neither gets to the holes behind the first error that it reports.
-/

namespace MetaMonkey.Staging

open ObjectGraph Js AstNode Unparse
open Filter (atTop)

variable {h : JSHeap} {t : Ast}

/-- What the parser gives for a program. -/
structure Serialized (h : JSHeap) (t : Ast) : Prop extends Walkable h t where
  program : text t "type" = js "Program"
  unboxed : NoBoxedTypes h

/-- Both walks come to their end on a stack that is deep enough. The traversal reports an
error only for a misplaced tag, and what is a hole stays one. -/
structure WalksEnd (h : JSHeap) (t : Ast) : Prop where
  traversal : ∀ {ν : Type} (visitor : StagedNodeVisitor ν) (step : ν → Report → ν),
    Folds h visitor (fun _ => True) step → ∀ᶠ fuel in atTop, ∀ v,
      (∃ s, iterateStagedNodes visitor fuel t.val h v = .ok () s) ∨
        (∃ tag ∈ tagsOf t, tag.Misplaced) ∧
          ∃ s, iterateStagedNodes visitor fuel t.val h v = .error .jsFalse s
  stringification : ∀ q ∈ t.subtrees, (metaQuaziStmt q).isSome = true → ∀ᶠ fuel in atTop,
    ∀ flag, (∃ text s, stringifyObjectValue (unparse fuel) q.val (h, flag) = .ok text s) ∨
      ∃ s, stringifyObjectValue (unparse fuel) q.val (h, flag) = .error .jsFalse s
  holes : ∀ q ∈ t.subtrees, (metaQuaziStmt q).isSome = true →
    ∀ a (elems : List Ast), .array a elems ∈ q.subtrees → ∀ fuel flag (texts : List ElementText) s,
      stringifyElements (unparse fuel) (.ref a) elems.length (h, flag) = .ok texts s →
        ∀ (i : ℕ) (e : Ast), elems[i]? = some e → valueToObject e.val = null →
          texts[i]? = some (.normal (some []))

/-- The first part of the quasi that ends the stringifier is one that it reports an error
for. -/
def HolesUnreached (h : JSHeap) (stack : ℕ) (q : Value) : Prop :=
  ∀ flag e, runParts h flag (valueParts h stack (objectParts h stack) q) = .error e → e = .jsFalse

/-! ### The traversal -/

theorem firstFault_cases {events : List WalkEvent} {e : Fault}
    (hfault : firstFault events = some e) :
    e = .crash ∨ e = .jsFalse ∧ ∃ tag, .tag tag ∈ events ∧ tag.Misplaced := by
  obtain ⟨event, hevent, he⟩ := List.exists_of_findSome?_eq_some hfault
  cases event with
  | hole =>
      cases he
      exact .inl rfl
  | tag tag =>
      rw [WalkEvent.fault] at he
      split at he
      · rename_i hbad
        cases he
        exact .inr ⟨rfl, tag, hevent, hbad⟩
      · cases he

theorem tag_mem_tagsOf {tag : Tag} (htag : .tag tag ∈ eventsOf t) : tag ∈ tagsOf t := by
  refine (tagsBelow_perm t).mem_iff.mp ?_
  rw [← tag?_eventsOf]
  exact List.mem_filterMap.mpr ⟨_, htag, rfl⟩

/-- The run of any visitor fails as the recorder does. -/
theorem traversal_outcome (ht : Serialized h t) {ν : Type} {visitor : StagedNodeVisitor ν}
    {step : ν → Report → ν} (hf : Folds h visitor (fun _ => True) step) {fuel : ℕ}
    (hfuel : t.height < fuel) (v : ν) :
    ∃ s, iterateStagedNodes visitor fuel t.val h v = outcome (firstFault (eventsOf t)) s := by
  obtain ⟨e, c, hrecorder, hvisitor⟩ :=
    iterateStagedNodes_fold hf fuel t.val fun _ _ => trivial
  have hrun := iterateStagedNodes_events ht.toWalkable ht.program hfuel
  have he : e = firstFault (eventsOf t) := by
    rw [hrecorder] at hrun
    cases hfault : firstFault (eventsOf t) with
    | none =>
        rw [hfault] at hrun
        cases e with
        | none => rfl
        | some e => cases hrun
    | some e' =>
        rw [hfault] at hrun
        obtain ⟨s, hs, -⟩ := hrun
        cases e with
        | none => cases hs
        | some e =>
            cases hs
            rfl
  exact ⟨_, he ▸ hvisitor v⟩

theorem traversal_ends (ht : Serialized h t) (hfault : firstFault (eventsOf t) ≠ some .crash)
    {ν : Type} {visitor : StagedNodeVisitor ν} {step : ν → Report → ν}
    (hf : Folds h visitor (fun _ => True) step) {fuel : ℕ} (hfuel : t.height < fuel) (v : ν) :
    (∃ s, iterateStagedNodes visitor fuel t.val h v = .ok () s) ∨
      (∃ tag ∈ tagsOf t, tag.Misplaced) ∧
        ∃ s, iterateStagedNodes visitor fuel t.val h v = .error .jsFalse s := by
  obtain ⟨s, hrun⟩ := traversal_outcome ht hf hfuel v
  rw [hrun]
  cases hevents : firstFault (eventsOf t) with
  | none => exact .inl ⟨s, rfl⟩
  | some e =>
      rcases firstFault_cases hevents with rfl | ⟨rfl, tag, htag, hbad⟩
      · exact absurd hevents hfault
      · exact .inr ⟨⟨tag, tag_mem_tagsOf htag, hbad⟩, s, rfl⟩

/-- A hole that the traversal comes to makes every visitor's run fail. -/
theorem traversal_crashes (ht : Serialized h t) (hfault : firstFault (eventsOf t) = some .crash)
    {fuel : ℕ} (hfuel : t.height < fuel) :
    ∃ s, iterateStagedNodes recorder fuel t.val h [] = .error .crash s := by
  obtain ⟨s, hrun⟩ := traversal_outcome ht folds_recorder hfuel []
  rw [hfault] at hrun
  exact ⟨s, hrun⟩

/-! ### The stringifier -/

theorem stringification_ends_iff (hh : NoBoxedTypes h) (fuel : ℕ) (q : Value) :
    (∀ flag, (∃ text s, stringifyObjectValue (unparse fuel) q (h, flag) = .ok text s) ∨
      ∃ s, stringifyObjectValue (unparse fuel) q (h, flag) = .error .jsFalse s) ↔
        HolesUnreached h fuel q := by
  refine forall_congr' fun flag => ?_
  have hparts := comesUpon_stringifyObjectValue hh (fun v => comesUpon_stringify hh fuel v) q flag
  cases hrun : runParts h flag (valueParts h fuel (objectParts h fuel) q) with
  | ok flag' =>
      rw [hrun] at hparts
      obtain ⟨text, hok, -⟩ := hparts
      exact ⟨fun _ _ he => (by cases he), fun _ => .inl ⟨text, _, hok⟩⟩
  | error e =>
      rw [hrun] at hparts
      obtain ⟨s, herror⟩ := hparts
      refine ⟨fun hends e' he => ?_, fun hall => ?_⟩
      · cases he
        rcases hends with ⟨text, s', hok⟩ | ⟨s', hjs⟩
        · cases herror.symm.trans hok
        · cases herror.symm.trans hjs
          rfl
      · obtain rfl := hall e rfl
        exact .inr ⟨s, herror⟩

theorem fault_not_mem_of_runParts {flag flag' : Bool} {parts : List Part} {e : Fault}
    (hrun : runParts h flag parts = .ok flag') : .fault e ∉ parts := by
  intro hmem
  obtain ⟨before, after, rfl⟩ := List.append_of_mem hmem
  rw [runParts_append] at hrun
  cases hbefore : runParts h flag before with
  | ok flag₁ =>
      rw [hbefore] at hrun
      cases hrun
  | error e' =>
      rw [hbefore] at hrun
      cases hrun

theorem nodeParts_null (stack : ℕ) (below : Value → List Part) :
    nodeParts h stack below false null = [.fault .crash] := rfl

/-- The elements of an array with a hole are not put together. -/
theorem stringifyElements_hole (hh : NoBoxedTypes h) {a : ℕ} {elems : List Ast}
    (harray : h.Holds (.array a elems)) {e : Ast} (he : e ∈ elems)
    (hnull : valueToObject e.val = null) {fuel : ℕ} {flag : Bool} {texts : List ElementText}
    {s : JSHeap × Bool} :
    stringifyElements (unparse fuel) (.ref a) elems.length (h, flag) ≠ .ok texts s := by
  intro hok
  have hc : h.cell a = some (.array (elems.map Tree.val)) := harray.shows
  have harr : arrayElems? h (.ref a) = some (elems.map Tree.val) := by simp [arrayElems?, hc]
  have hparts := comesUpon_stringifyElements hh (fun v => comesUpon_stringify hh fuel v) harr flag
  rw [List.length_map] at hparts
  split at hparts
  · rename_i flag' hrun
    refine fault_not_mem_of_runParts (e := .crash) hrun (List.mem_flatMap.mpr ⟨e.val,
      List.mem_map.mpr ⟨e, he, rfl⟩, ?_⟩)
    rw [hnull, nodeParts_null]
    exact List.mem_singleton_self _
  · obtain ⟨s', herror⟩ := hparts
    cases herror.symm.trans hok

/-! ### Both walks -/

/-- Both walks come to their end exactly if an error that they report comes before the first
null pointer: a misplaced tag before the first hole, and in a quasi what the stringifier or
the printer of an escape rejects. -/
theorem walksEnd_iff (ht : Serialized h t) :
    WalksEnd h t ↔ firstFault (eventsOf t) ≠ some .crash ∧
      ∀ q ∈ t.subtrees, (metaQuaziStmt q).isSome = true →
        ∀ᶠ fuel in atTop, HolesUnreached h fuel q.val := by
  constructor
  · refine fun hends => ⟨fun hfault => ?_, fun q hq hquasi => ?_⟩
    · obtain ⟨fuel, hfuel, hheight⟩ := ((hends.traversal recorder _ folds_recorder).and
        (Filter.eventually_gt_atTop t.height)).exists
      obtain ⟨s, hcrash⟩ := traversal_crashes ht hfault hheight
      rcases hfuel [] with ⟨s', hrun⟩ | ⟨-, s', hrun⟩
      · cases hcrash.symm.trans hrun
      · cases hcrash.symm.trans hrun
    · exact (hends.stringification q hq hquasi).mono fun fuel hfuel =>
        (stringification_ends_iff ht.unboxed fuel q.val).mp hfuel
  · rintro ⟨hfault, hquasis⟩
    refine ⟨fun visitor step hf => ?_, fun q hq hquasi => ?_, ?_⟩
    · filter_upwards [Filter.eventually_gt_atTop t.height] with fuel hfuel v
      exact traversal_ends ht hfault hf hfuel v
    · exact (hquasis q hq hquasi).mono fun fuel hfuel =>
        (stringification_ends_iff ht.unboxed fuel q.val).mpr hfuel
    · intro q hq _ a elems hs fuel flag texts s hrun i e he hnull
      have harray := ht.holds.subtree (Tree.subtrees_trans hs hq)
      exact absurd hrun
        (stringifyElements_hole ht.unboxed harray (List.mem_of_getElem? he) hnull)

/-! ### A quasi without holes and one with a hole -/

theorem serialized_escapeQuasi : Serialized escapeQuasiHeap escapeQuasi :=
  ⟨⟨by decide, by decide, by decide, by decide, by decide⟩, by decide,
    noBoxedTypes_ofTrees (by decide)⟩

theorem unparse_escapeIdentifier (n : ℕ) (flag : Bool) :
    (unparse (n + 1)).expr (.ref 7) (lit "    ") 15 false (escapeQuasiHeap, flag) =
      .ok (some (js "x")) (escapeQuasiHeap, flag) := by
  have hread : toStr (.ref 7) "type" (escapeQuasiHeap, flag) =
      .ok (js "Identifier") (escapeQuasiHeap, flag) := rfl
  have hhandler : (exprHandlers (unparse n)).find?
      (fun e => equalsChars (js "Identifier") e.1) = some ("Identifier", exprIndent) := by
    simp +decide [exprHandlers]
  show unparseExpr (unparse n) (.ref 7) (lit "    ") 15 false _ = _
  rw [unparseExpr, bind_ok hread, hhandler]
  rfl

theorem walksEnd_escapeQuasi : WalksEnd escapeQuasiHeap escapeQuasi := by
  refine (walksEnd_iff serialized_escapeQuasi).mpr ⟨by decide, fun q hq hquasi => ?_⟩
  have hval : ∀ q ∈ escapeQuasi.subtrees, (metaQuaziStmt q).isSome = true → q.val = .ref 3 := by
    decide
  rw [hval q hq hquasi]
  filter_upwards [Filter.eventually_gt_atTop 1] with fuel hfuel flag e hrun
  obtain ⟨n, rfl⟩ : ∃ n, fuel = n + 2 := ⟨fuel - 2, by omega⟩
  have hparts : valueParts escapeQuasiHeap (n + 2) (objectParts escapeQuasiHeap (n + 2)) (.ref 3) =
      [.argument (n + 1) (.ref 7) false] := rfl
  rw [hparts, runParts, unparse_escapeIdentifier] at hrun
  cases hrun

/-- The AST of `.< [x, , y]; >.;`. -/
def holeQuasi : Ast :=
  program 0 1 [exprStatement 2 (quasiOf 3 4 [exprStatement 5 (node 6 "ArrayExpression"
    [("elements", .array 7 [identifier 8 "x", .leaf undefined, identifier 9 "y"])])])]

def faultOf {α σ : Type} : EStateM.Result Fault σ α → Option Fault
  | .ok _ _ => none
  | .error e _ => some e

/-- Both walks follow the pointer of the hole. -/
theorem walks_crash_hole :
    Serialized (.ofTrees [holeQuasi]) holeQuasi ∧
      faultOf (iterateStagedNodes recorder 20 holeQuasi.val (.ofTrees [holeQuasi]) []) =
        some .crash ∧
      faultOf (stringifyObjectValue (unparse 20) (.ref 3) (.ofTrees [holeQuasi], false)) =
        some .crash ∧
      ¬ WalksEnd (.ofTrees [holeQuasi]) holeQuasi := by
  have hserialized : Serialized (.ofTrees [holeQuasi]) holeQuasi :=
    ⟨⟨by decide, by decide, by decide, by decide, by decide⟩, by decide,
      noBoxedTypes_ofTrees (by decide)⟩
  refine ⟨hserialized, by decide +kernel, by decide +kernel, fun hends => ?_⟩
  obtain ⟨fuel, hfuel, hheight⟩ := ((hends.traversal recorder _ folds_recorder).and
    (Filter.eventually_gt_atTop holeQuasi.height)).exists
  obtain ⟨s, hcrash⟩ := traversal_crashes hserialized (by decide) hheight
  rcases hfuel [] with ⟨s', hrun⟩ | ⟨-, s', hrun⟩
  · cases hcrash.symm.trans hrun
  · cases hcrash.symm.trans hrun

end MetaMonkey.Staging
