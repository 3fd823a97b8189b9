import MetaMonkey.Staging.UnparseFlag
import MetaMonkey.Staging.QuasiParts
import MetaMonkey.Staging.InStep

/-!
Printing and the AST. The type of a quasi is changed for as long as the quasi is
printed, and only a print that succeeds changes it back. So a call of the printer leaves
the AST as it was, whatever the outcome, unless a quasi is rejected below it.
-/

namespace MetaMonkey.Staging

open ObjectGraph Js Unparse

variable {α β : Type} {h : JSHeap}

/-- On this heap the call leaves every property as it is, whether it returns or fails. -/
def LeavesHeap (h : JSHeap) (α : Type) (x : Print α) : Prop :=
  ∀ flag, (∀ a s, x (h, flag) = .ok a s → s.1 = h) ∧
    ∀ s, x (h, flag) = .error .jsFalse s → s.1 = h

/-- Every call that prints the AST, or a part of it, leaves it as it is. -/
def PrintsUnchanged (h : JSHeap) (root : Value) : Prop :=
  ∀ fuel (call : PrintCall), call.object.Within (h.Reaches root) →
    LeavesHeap h Text (call.run fuel)

/-- The node is a quasi of which the stringifier reports an error: with the type changed it
comes upon a function, an array in an array or an escape whose argument is rejected, after
it has printed what is before that. -/
def QuasiRejected (h : JSHeap) (val : Value) : Prop :=
  ∃ typeStr h₁, getPropertyToString h val "type" = .ok typeStr ∧
    equalsChars typeStr "MetaQuaziStatement" = true ∧
    setProperty h val "type" (string (js "Program")) = .ok h₁ ∧
    ∃ stack flag, runParts h₁ flag (objectParts h₁ stack val) = .error .jsFalse

/-! ### Calls that leave the heap -/

theorem leavesHeap_bind (x : Print α) (f : α → Print β) (hx : LeavesHeap h α x)
    (hf : ∀ a, LeavesHeap h β (f a)) : LeavesHeap h β (x >>= f) := by
  intro flag
  rw [bind_apply]
  cases hrun : x (h, flag) with
  | ok a s =>
      obtain ⟨h', flag'⟩ := s
      obtain rfl : h' = h := (hx flag).1 a _ hrun
      exact hf a flag'
  | error e s =>
      refine ⟨nofun, fun s' hs' => ?_⟩
      cases hs'
      exact (hx flag).2 _ hrun

instance leavesHeap_closed (root : Value) : StepClosed (h.Reaches root) (LeavesHeap h) where
  pure a flag := by
    refine ⟨fun b s hx => ?_, nofun⟩
    cases hx
    rfl
  throw e flag := by
    refine ⟨nofun, fun s hx => ?_⟩
    cases hx
    rfl
  reads f flag := by
    rw [reads]
    cases f h with
    | ok a =>
        refine ⟨fun b s hx => ?_, nofun⟩
        cases hx
        rfl
    | error e =>
        refine ⟨nofun, fun s hx => ?_⟩
        cases hx
        rfl
  get flag := by
    refine ⟨fun b s hx => ?_, nofun⟩
    cases hx
    rfl
  bind := leavesHeap_bind
  fetch {_ _ _ g} f hg hf flag := by
    cases hread : g h with
    | ok a =>
        rw [bind_ok (reads_ok hread)]
        exact hf a (hg h (h.closedUnder_reaches root) a hread) flag
    | error e =>
        rw [bind_error (reads_error hread)]
        refine ⟨nofun, fun s hx => ?_⟩
        cases hx
        rfl
  orUnset x hx flag := by
    rw [orUnset]
    cases hrun : x (h, flag) with
    | ok a s =>
        refine ⟨fun b s' hs' => ?_, nofun⟩
        cases hs'
        exact (hx flag).1 a _ hrun
    | error e s => cases e <;> exact ⟨nofun, nofun⟩

instance leavesHeap_setIgnorecprec (root : Value) (b : Bool) :
    Satisfies (h.Reaches root) (LeavesHeap h) (setIgnorecprec b) where
  holds flag := by
    refine ⟨fun _ s hx => ?_, nofun⟩
    cases hx
    rfl

instance leavesHeap_functions (root : Value) (p : Printer)
    [SatisfiesCalls (h.Reaches root) (LeavesHeap h) p] :
    SatisfiesFunctions (h.Reaches root) (LeavesHeap h) p where
  functionDeclaration funcInitStr id _ val _ indent := by
    have hparams : Satisfies (h.Reaches root) (LeavesHeap h) (paramsText p val) := by
      unfold paramsText
      infer_instance
    rw [functionDeclaration_eq]
    infer_instance

/-! ### Quasis -/

theorem exprMetaQuazi_leavesHeap (hh : NoBoxedTypes h) {fuel : ℕ} {val : Value}
    (hquasi : ¬ QuasiRejected h val) {indent : Text} {cprec : ℕ} {noIn : Bool} {typeStr : JSString}
    (htype : getPropertyToString h val "type" = .ok typeStr)
    (hquazi : equalsChars typeStr "MetaQuaziStatement" = true) (flag : Bool) :
    (∀ a s, exprMetaQuazi (unparse fuel) val indent cprec noIn (h, flag) = .ok a s → s.1 = h) ∧
      ∀ s, exprMetaQuazi (unparse fuel) val indent cprec noIn (h, flag) = .error .jsFalse s →
        s.1 = h := by
  refine ⟨fun a s hrun => exprMetaQuazi_heap (unparse fuel) (s := (h, flag)) hh htype hquazi hrun,
    fun s hrun => absurd hrun ?_⟩
  obtain ⟨a, cls, fields, _, _, h₁, rfl, -, -, hh₁, hset, hc₁⟩ := setProgram hh htype hquazi
  rw [exprMetaQuazi_eq _ htype hset]
  cases hstr : (unparse fuel).stringify (.ref a) (h₁, flag) with
  | ok child s₂ =>
      -- the heap is the one before, so the type can be changed back
      have hheap : s₂.1 = h₁ :=
        ((keepsHeap_unparse fuel).stringify (.ref a)).holds _ _ _ hh₁ hstr
      have hwrite : (writes fun h => setProperty h (.ref a) "type" (string typeStr)) s₂ =
          .ok () (_, s₂.2) := writes_ok (setProperty_record (hheap ▸ hc₁) _ _)
      rw [bind_ok hstr, bind_ok hwrite]
      intro heq
      cases heq
  | error e s₂ =>
      rw [bind_error hstr]
      rintro ⟨⟩
      refine hquasi ⟨typeStr, h₁, htype, hquazi, hset, fuel, flag, ?_⟩
      have hparts := comesUpon_stringify hh₁ fuel (.ref a) flag
      cases hrun : runParts h₁ flag (objectParts h₁ fuel (.ref a)) with
      | ok flag' =>
          rw [hrun] at hparts
          obtain ⟨text, hok, -⟩ := hparts
          cases hstr.symm.trans hok
      | error e =>
          rw [hrun] at hparts
          obtain ⟨s, herror⟩ := hparts
          cases hstr.symm.trans herror
          rfl

/-- The printing of a rejected quasi fails, and leaves the quasi as a program. -/
theorem unparseExpr_rejected (hh : NoBoxedTypes h) {val : Value} (hrej : QuasiRejected h val) :
    ∃ fuel flag s, (unparse fuel).expr val (lit "") 0 false (h, flag) = .error .jsFalse s ∧
      s.1 ≠ h := by
  obtain ⟨typeStr, h₁, htype, hquazi, hset, fuel, flag, hrun⟩ := hrej
  obtain ⟨a, cls, fields, _, d₁, h₁', rfl, hc, hl, hh₁, hset', hc₁⟩ := setProgram hh htype hquazi
  obtain rfl : h₁ = h₁' := Except.ok.inj (hset.symm.trans hset')
  obtain ⟨s, hstr⟩ : ∃ s, (unparse fuel).stringify (.ref a) (h₁, flag) = .error .jsFalse s := by
    have hparts := comesUpon_stringify hh₁ fuel (.ref a) flag
    rwa [hrun] at hparts
  refine ⟨fuel + 1, flag, s, ?_, fun heq => ?_⟩
  · have hread : toStr (.ref a) "type" (h, flag) = .ok typeStr (h, flag) := reads_ok htype
    have hhandler : (exprHandlers (unparse fuel)).find?
        (fun e => equalsChars typeStr e.1) =
          some ("MetaQuaziStatement", exprMetaQuazi (unparse fuel)) := by
      simp +decide [exprHandlers, equalsChars, of_decide_eq_true hquazi]
    show unparseExpr (unparse fuel) (.ref a) (lit "") 0 false (h, flag) = _
    rw [unparseExpr, bind_ok hread, hhandler]
    show exprMetaQuazi (unparse fuel) (.ref a) (lit "") 0 false (h, flag) = _
    rw [exprMetaQuazi_eq _ htype hset]
    exact bind_error hstr _
  · have hkeeps : Satisfies Everywhere (KeepsFlag Everywhere) ((unparse fuel).stringify (.ref a)) :=
      inferInstance
    have hkept := hkeeps.holds (h₁, flag) (closedUnder_everywhere h₁)
    rw [hstr] at hkept
    obtain ⟨d', hc'⟩ := Retyped.program hkept.1 ⟨d₁, hc₁⟩
    rw [heq, hc] at hc'
    have hfields := (Cell.record.inj (Option.some.inj hc')).2
    rw [hfields, lookup_setField_self] at hl
    obtain rfl : js "Program" = typeStr := by simpa using hl
    exact absurd hquazi (by rw [program_not_quazi]; decide)

/-- No quasi of the AST is rejected. -/
def QuasisAccepted (h : JSHeap) (root : Value) : Prop :=
  ∀ a, h.Reaches root a → ¬ QuasiRejected h (.ref a)

variable {root : Value}

theorem leavesHeap_unparseExpr (hh : NoBoxedTypes h) (hquasis : QuasisAccepted h root)
    (fuel : ℕ) [SatisfiesCalls (h.Reaches root) (LeavesHeap h) (unparse fuel)] (exprVal : Value)
    [hval : Within (h.Reaches root) exprVal] (indent : Text) (cprec : ℕ) (noIn : Bool) :
    Satisfies (h.Reaches root) (LeavesHeap h)
      (unparseExpr (unparse fuel) exprVal indent cprec noIn) where
  holds flag := by
    rcases unparseExpr_cases (unparse fuel) exprVal indent cprec noIn (h, flag) with
      ⟨e, hfail⟩ | ⟨typeStr, htype, hquazi, heq⟩ | ⟨e, hmem, hname, heq⟩
    · rw [hfail]
      exact (satisfies_throw (h.Reaches root) (LeavesHeap h) (α := Text) e).holds flag
    · rw [heq]
      obtain ⟨a, -, -, -, -, -, rfl, -⟩ := setProgram hh htype hquazi
      exact exprMetaQuazi_leavesHeap hh (hquasis a (hval.within a rfl)) htype hquazi flag
    · rw [heq]
      exact (satisfies_exprHandlers (h.Reaches root) (LeavesHeap h) (unparse fuel) exprVal indent
        cprec noIn _ hmem hname).holds flag

theorem leavesHeap_unparse (hh : NoBoxedTypes h) (hquasis : QuasisAccepted h root) (fuel : ℕ) :
    SatisfiesCalls (h.Reaches root) (LeavesHeap h) (unparse fuel) := by
  induction fuel with
  | zero =>
      exact ⟨fun _ _ _ _ _ => satisfies_throw _ _ _, fun _ _ _ => satisfies_throw _ _ _,
        fun _ _ => satisfies_throw _ _ _⟩
  | succ n ih =>
      exact ⟨fun _ _ _ _ _ => leavesHeap_unparseExpr hh hquasis _ _ _ _ _,
        fun _ _ _ => satisfies_unparseSourceElement _ _ _ _ _,
        fun _ _ => satisfies_stringifyObject _ _ _ _⟩

/-! ### Calls from outside -/

/-- The AST of `.< .~x; >.;`. -/
def escapeQuasi : Ast :=
  program 0 1 [exprStatement 2 (quasiOf 3 4 [exprStatement 5 (node 6 "UnaryExpression"
    [("operator", .leaf (string (js ".~"))), ("argument", identifier 7 "x"),
      ("prefix", .leaf (boolean true))])])]

def escapeQuasiHeap : JSHeap := .ofTrees [escapeQuasi]

/-- The quasi comes upon one escape, whose argument is printed. -/
theorem quasisAccepted_escape : QuasisAccepted escapeQuasiHeap escapeQuasi.val := by
  rintro a - ⟨typeStr, h₁, htype, hquazi, hset, stack, flag, hrun⟩
  have hothers : ∀ b < 8, b ≠ 3 →
      ((getPropertyToString escapeQuasiHeap (.ref b) "type").toOption.all fun t =>
        !equalsChars t "MetaQuaziStatement") = true := by decide
  obtain rfl : a = 3 := by
    by_contra hne
    by_cases hlt : a < 8
    · have hother := hothers a hlt hne
      rw [htype] at hother
      simp [Except.toOption, hquazi] at hother
    · have hnone : escapeQuasiHeap.cell a = none := escapeQuasiHeap.fresh a (Nat.le_of_not_lt hlt)
      simp [getPropertyToString, Js.getProperty, hnone] at htype
  obtain ⟨h', hset', hparts, hidentifier⟩ : ∃ h',
      setProperty escapeQuasiHeap (.ref 3) "type" (string (js "Program")) = .ok h' ∧
        (∀ n, objectParts h' (n + 1) (.ref 3) = [.argument n (.ref 7) false]) ∧
          IsIdentifier h' 7 := ⟨_, rfl, fun _ => rfl, _, _, _, rfl, rfl⟩
  obtain rfl : h₁ = h' := Except.ok.inj (hset.symm.trans hset')
  cases stack with
  | zero => cases hrun
  | succ n =>
      have hnever := neverFails_identifier hidentifier n (lit "    ") 15 false flag
      rw [hparts, runParts] at hrun
      split at hrun
      · split at hrun
        · cases hrun
        · cases hrun
      · rename_i e s hfail
        rw [hfail] at hnever
        cases hrun
        exact hnever rfl

/-- The AST of `.< .~[...xs]; >.;`. The printer has no method for a spread. -/
def spreadEscape : Ast :=
  program 0 1 [exprStatement 2 (quasiOf 3 4 [exprStatement 5 (node 6 "UnaryExpression"
    [("operator", .leaf (string (js ".~"))), ("argument", node 7 "ArrayExpression"
        [("elements", .array 8 [node 9 "SpreadExpression" [("expression", identifier 10 "xs")]])]),
      ("prefix", .leaf (boolean true))])])]

def spreadHeap : JSHeap := .ofTrees [spreadEscape]

/-- The type of a node after a call that fails. -/
def typeAfterFailure (h : JSHeap) (fuel : ℕ) (call : PrintCall) (val : Value) : Option JSString :=
  match call.run fuel (h, false) with
  | .error .jsFalse s => (getPropertyToString s.1 val "type").toOption
  | _ => none

end MetaMonkey.Staging
