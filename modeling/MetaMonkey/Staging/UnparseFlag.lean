import MetaMonkey.Staging.UnparseHeap
import MetaMonkey.Staging.Tags

/-!
The flag `ignorecprec` over the calls of one printer. It is set while the
parameters of a function are printed, and stays set when one of them cannot be
printed; nothing else leaves it set.
-/

namespace MetaMonkey.Staging

open ObjectGraph Js Unparse

variable {α β : Type} {R : ℕ → Prop}

/-! ### Quasis under a changed type -/

/-- A quasi whose type is the text `s`. -/
def IsQuazi (h : JSHeap) (a : ℕ) (cls : ObjClass) (fields : List (String × Value))
    (s : JSString) : Prop :=
  (∃ distinct, h.cell a = some (.record cls fields distinct)) ∧
    (fields.lookup "type").bind leafText = some s ∧ equalsChars s "MetaQuaziStatement" = true

/-- The cell holds these fields, with another text for its type. -/
def HasType (h : JSHeap) (a : ℕ) (cls : ObjClass) (fields : List (String × Value))
    (s : JSString) : Prop :=
  ∃ distinct, h.cell a = some (.record cls (setField fields "type" (string s)) distinct)

/-- The heap but for the types of some quasis, which are now `Program` or have
been so for a while. -/
def Retyped (h h' : JSHeap) : Prop :=
  ∀ a, h'.cell a = h.cell a ∨ ∃ cls fields s, IsQuazi h a cls fields s ∧
    (HasType h' a cls fields (js "Program") ∨ HasType h' a cls fields s)

theorem Retyped.refl (h : JSHeap) : Retyped h h := fun _ => .inl rfl

theorem program_not_quazi : equalsChars (js "Program") "MetaQuaziStatement" = false := by
  decide

theorem Retyped.trans {h₁ h₂ h₃ : JSHeap} (h₁₂ : Retyped h₁ h₂) (h₂₃ : Retyped h₂ h₃) :
    Retyped h₁ h₃ := by
  intro a
  rcases h₂₃ a with heq | ⟨cls, fields, s, ⟨⟨d, hc⟩, hs, hquazi⟩, htype⟩
  · rw [heq]
    rcases h₁₂ a with heq' | ⟨cls, fields, s, hq, htype⟩
    · exact .inl heq'
    · refine .inr ⟨cls, fields, s, hq, htype.imp ?_ ?_⟩ <;>
      · rintro ⟨d, hd⟩
        exact ⟨d, heq.trans hd⟩
  · rcases h₁₂ a with heq' | ⟨cls', fields', s', hq, htype'⟩
    · exact .inr ⟨cls, fields, s, ⟨⟨d, heq' ▸ hc⟩, hs, hquazi⟩, htype⟩
    · have hset : ∀ t, HasType h₂ a cls' fields' t → equalsChars t "MetaQuaziStatement" = true ∧
          ∀ u, HasType h₃ a cls fields u → HasType h₃ a cls' fields' u := by
        rintro t ⟨d', hd'⟩
        cases hd'.symm.trans hc
        rw [lookup_setField_self] at hs
        obtain rfl : t = s := Option.some.inj hs
        refine ⟨hquazi, ?_⟩
        rintro u ⟨d'', hd''⟩
        simp only [setField_setField] at hd''
        exact ⟨_, hd''⟩
      rcases htype' with htype' | htype'
      · exact absurd (hset _ htype').1 (by rw [program_not_quazi]; decide)
      · obtain ⟨-, hmove⟩ := hset _ htype'
        have hs' : s' = s := by
          obtain ⟨d', hd'⟩ := htype'
          cases hd'.symm.trans hc
          rw [lookup_setField_self] at hs
          exact Option.some.inj hs
        subst hs'
        exact .inr ⟨cls', fields', s', hq, htype.imp (hmove _) (hmove _)⟩

/-- What is a program stays one. -/
theorem Retyped.program {h₁ h₂ : JSHeap} {a : ℕ} {cls : ObjClass} {fields : List (String × Value)}
    (hret : Retyped h₁ h₂) (htype : HasType h₁ a cls fields (js "Program")) :
    HasType h₂ a cls fields (js "Program") := by
  obtain ⟨d, hd⟩ := htype
  rcases hret a with heq | ⟨cls', fields', t, ⟨⟨d', hc'⟩, ht, ht'⟩, -⟩
  · exact ⟨d, heq.trans hd⟩
  · cases hd.symm.trans hc'
    rw [lookup_setField_self] at ht
    obtain rfl : js "Program" = t := Option.some.inj ht
    exact absurd ht' (by rw [program_not_quazi]; decide)

theorem mem_setField {β : Type} {fields : List (String × β)} {key : String} {v : β}
    {f : String × β} (hf : f ∈ setField fields key v) : f.2 = v ∨ f ∈ fields := by
  unfold setField at hf
  split at hf
  · obtain ⟨g, hg, rfl⟩ := List.mem_map.mp hf
    split
    · exact .inl rfl
    · exact .inr hg
  · rcases List.mem_append.mp hf with hf | hf
    · exact .inr hf
    · rw [List.mem_singleton.mp hf]
      exact .inl rfl

/-- The type of a quasi is no reference. -/
theorem Retyped.closedUnder {h h' : JSHeap} (hret : Retyped h h') (hR : h.ClosedUnder R) :
    h'.ClosedUnder R := by
  rintro a b ha ⟨c, hc, hb⟩
  rcases hret a with heq | ⟨cls, fields, s, ⟨⟨d, hcell⟩, -, -⟩, htype⟩
  · exact hR a b ha ⟨c, heq.symm.trans hc, hb⟩
  · have hset : ∀ t, HasType h' a cls fields t → R b := by
      rintro t ⟨d', hd'⟩
      cases hc.symm.trans hd'
      obtain ⟨f, hf, hfb⟩ := List.mem_map.mp hb
      rcases mem_setField hf with hv | hf
      · rw [hfb] at hv
        cases hv
      · exact hR a b ha ⟨_, hcell, hfb ▸ List.mem_map_of_mem hf⟩
    exact htype.elim (hset _) (hset _)

/-! ### Calls and the flag -/

/-- Of no function in the set are the parameters rejected when the body has been printed,
whatever the types of quasis are meanwhile. -/
def AcceptsParams (R : ℕ → Prop) (h : JSHeap) : Prop :=
  ∀ h', Retyped h h' → ∀ val : Value, val.Within R → ∀ fuel indent flag body s,
    functionBody (unparse fuel) val indent (h', flag) = .ok body s →
      ∀ s', paramsText (unparse fuel) val s ≠ .error .jsFalse s'

theorem AcceptsParams.retyped {h h' : JSHeap} (hh : AcceptsParams R h) (hret : Retyped h h') :
    AcceptsParams R h' :=
  fun _ hret' => hh _ (hret.trans hret')

/-- A call has changed the types of quasis at most. It has left a flag that is
not set as it was when it returned, and also when it failed if parameters are
accepted. -/
def FlagKept (R : ℕ → Prop) (s : JSHeap × Bool) : EStateM.Result Fault (JSHeap × Bool) α → Prop
  | .ok _ s' => Retyped s.1 s'.1 ∧ (s.2 = false → s'.2 = false)
  | .error .jsFalse s' => Retyped s.1 s'.1 ∧ (AcceptsParams R s.1 → s.2 = false → s'.2 = false)
  | .error _ _ => True

def KeepsFlag (R : ℕ → Prop) (α : Type) (x : Print α) : Prop :=
  ∀ s, s.1.ClosedUnder R → FlagKept R s (x s)

theorem flagKept_error {s : JSHeap × Bool} (e : Fault) :
    FlagKept R s (.error e s : EStateM.Result Fault (JSHeap × Bool) α) := by
  cases e with
  | jsFalse => exact ⟨.refl _, fun _ => id⟩
  | crash => trivial
  | outside => trivial

/-- A call that goes on from where another has returned. -/
theorem FlagKept.trans {s s₁ : JSHeap × Bool} {a : α} {r : EStateM.Result Fault (JSHeap × Bool) β}
    (hs : FlagKept R s (.ok a s₁ : EStateM.Result Fault (JSHeap × Bool) α))
    (hr : FlagKept R s₁ r) : FlagKept R s r := by
  cases r with
  | ok b s₂ => exact ⟨hs.1.trans hr.1, fun hflag => hr.2 (hs.2 hflag)⟩
  | error e s₂ =>
      cases e with
      | jsFalse =>
          exact ⟨hs.1.trans hr.1, fun hh hflag => hr.2 (hh.retyped hs.1) (hs.2 hflag)⟩
      | crash => trivial
      | outside => trivial

theorem keepsFlag_bind (x : Print α) (f : α → Print β) (hx : KeepsFlag R α x)
    (hf : ∀ a, KeepsFlag R β (f a)) : KeepsFlag R β (x >>= f) := by
  intro s hs
  have hxs := hx s hs
  rw [bind_apply]
  cases hrun : x s with
  | ok a s₁ =>
      rw [hrun] at hxs
      exact hxs.trans (hf a s₁ (hxs.1.closedUnder hs))
  | error e s₁ =>
      rw [hrun] at hxs
      cases e <;> exact hxs

instance keepsFlag_closed : StepClosed R (KeepsFlag R) where
  pure _ s _ := ⟨.refl _, id⟩
  throw e s _ := flagKept_error e
  reads f s _ := by
    rw [reads]
    cases f s.1 with
    | ok a => exact ⟨.refl _, id⟩
    | error e => exact flagKept_error e
  get s _ := ⟨.refl _, id⟩
  bind := keepsFlag_bind
  fetch {_ _ _ g} f hg hf s hs := by
    cases hread : g s.1 with
    | ok a =>
        rw [bind_ok (reads_ok hread)]
        exact hf a (hg _ hs a hread) s hs
    | error e =>
        rw [bind_error (reads_error hread)]
        exact flagKept_error e
  orUnset x hx s hs := by
    have hxs := hx s hs
    rw [orUnset]
    cases hrun : x s with
    | ok a s' =>
        rw [hrun] at hxs
        exact hxs
    | error e s' => cases e <;> trivial

/-! ### Functions -/

/-- The flag is set, the parameters are printed, and the flag is cleared; it stays set when
they are rejected. -/
theorem paramsText_flag (fuel : ℕ) [SatisfiesCalls R (KeepsFlag R) (unparse fuel)] (val : Value)
    [Within R val] {s : JSHeap × Bool} (hs : s.1.ClosedUnder R) :
    (∀ text s', paramsText (unparse fuel) val s = .ok text s' →
      Retyped s.1 s'.1 ∧ (s.2 = false → s'.2 = false)) ∧
    ∀ s', paramsText (unparse fuel) val s = .error .jsFalse s' → Retyped s.1 s'.1 := by
  cases hread : getPropertyToObj s.1 val "params" with
  | error e =>
      have hfail : paramsText (unparse fuel) val s = .error e s :=
        bind_error (reads_error hread) _
      rw [hfail]
      refine ⟨fun text s' hs' => (by cases hs'), fun s' hs' => ?_⟩
      cases hs'
      exact .refl _
  | ok values =>
      have hobj : toObj val "params" s = .ok values s := reads_ok hread
      have hset : setIgnorecprec true s = .ok () (s.1, true) := rfl
      have : Within R values := fetches_getPropertyToObj val "params" _ hs _ hread
      have hparams :=
        (satisfies_params R (KeepsFlag R) (unparse fuel) values).holds (s.1, true) hs
      rw [paramsText, bind_ok hobj, bind_ok hset, bind_apply]
      cases hrun : params (unparse fuel) values (s.1, true) with
      | ok text s₁ =>
          rw [hrun] at hparams
          refine ⟨fun text' s' hs' => ?_, fun s' hs' => by cases hs'⟩
          cases hs'
          exact ⟨hparams.1, fun _ => rfl⟩
      | error e s₁ =>
          rw [hrun] at hparams
          refine ⟨fun text s' hs' => (by cases hs'), fun s' hs' => ?_⟩
          cases hs'
          exact hparams.1

theorem keepsFlag_bodyParams (fuel : ℕ) [SatisfiesCalls R (KeepsFlag R) (unparse fuel)]
    (val : Value) [hval : Within R val] (indent : Text) {f : Text → Text → Print β}
    (hf : ∀ body text, KeepsFlag R β (f body text)) :
    KeepsFlag R β (do
      let bodyStr ← functionBody (unparse fuel) val indent
      let paramsStr ← paramsText (unparse fuel) val
      f bodyStr paramsStr) := by
  intro s hs
  have hbody := (satisfies_functionBody R (KeepsFlag R) (unparse fuel) val indent).holds s hs
  cases hrun : functionBody (unparse fuel) val indent s with
  | error e s₁ =>
      rw [hrun] at hbody
      rw [bind_error hrun]
      cases e <;> exact hbody
  | ok body s₁ =>
      rw [hrun] at hbody
      rw [bind_ok hrun]
      have hs₁ := hbody.1.closedUnder hs
      obtain ⟨hreturns, hfails⟩ := paramsText_flag fuel val hs₁
      cases hparams : paramsText (unparse fuel) val s₁ with
      | ok text s₂ =>
          rw [bind_ok hparams]
          obtain ⟨hret, hflag⟩ := hreturns text s₂ hparams
          have hkept : FlagKept R s₁ (.ok text s₂ : EStateM.Result Fault (JSHeap × Bool) Text) :=
            ⟨hret, hflag⟩
          exact hbody.trans (hkept.trans (hf body text s₂ (hret.closedUnder hs₁)))
      | error e s₂ =>
          rw [bind_error hparams]
          cases e with
          | jsFalse => exact ⟨hbody.1.trans (hfails s₂ hparams), fun hh => absurd hparams
              (hh s.1 (.refl _) val hval.within fuel indent s.2 body s₁ hrun s₂)⟩
          | crash => trivial
          | outside => trivial

instance keepsFlag_functions (fuel : ℕ) [SatisfiesCalls R (KeepsFlag R) (unparse fuel)] :
    SatisfiesFunctions R (KeepsFlag R) (unparse fuel) where
  functionDeclaration funcInitStr id _ val _ indent := by
    rw [functionDeclaration_eq]
    refine ⟨keepsFlag_bind _ _ (satisfies_functionName R (KeepsFlag R) (unparse fuel) id).holds
      fun funcNameStr => keepsFlag_bodyParams fuel val indent fun body text => ?_⟩
    exact (satisfies_joinVector R (KeepsFlag R) _).holds

theorem exprMetaQuazi_flag (p : Printer) [hp : SatisfiesCalls R (KeepsFlag R) p] {val : Value}
    [hval : Within R val] {indent : Text} {cprec : ℕ} {noIn : Bool} {s : JSHeap × Bool}
    (hs : s.1.ClosedUnder R) {typeStr : JSString}
    (htype : getPropertyToString s.1 val "type" = .ok typeStr)
    (hquazi : equalsChars typeStr "MetaQuaziStatement" = true) :
    FlagKept R s (exprMetaQuazi p val indent cprec noIn s) := by
  obtain ⟨a, cls, fields, distinct, v, rfl, hc, hl, hv⟩ := quazi_leaf htype hquazi
  have hisq : IsQuazi s.1 a cls fields typeStr := ⟨⟨_, hc⟩, by simp [hl, hv], hquazi⟩
  obtain ⟨h₁, hset₁, hcell₁, hother₁⟩ : ∃ h₁,
      setProperty s.1 (.ref a) "type" (string (js "Program")) = .ok h₁ ∧
      HasType h₁ a cls fields (js "Program") ∧ ∀ b ≠ a, h₁.cell b = s.1.cell b :=
    ⟨_, setProperty_record hc _ _, ⟨_, Heap.write_cell_self _ hc⟩,
      fun b hb => Heap.write_cell_of_ne _ _ hb⟩
  have hret₁ : Retyped s.1 h₁ := by
    intro b
    by_cases hb : b = a
    · exact .inr ⟨cls, fields, typeStr, hb ▸ hisq, .inl (hb ▸ hcell₁)⟩
    · exact .inl (hother₁ b hb)
  have hread : toStr (.ref a) "type" s = .ok typeStr s := reads_ok htype
  have hwrite₁ : (writes fun h => setProperty h (.ref a) "type" (string (js "Program"))) s =
      .ok () (h₁, s.2) := writes_ok hset₁
  rw [exprMetaQuazi, bind_ok hread, bind_ok hwrite₁, bind_apply]
  have hstr := (hp.stringify (.ref a)).holds (h₁, s.2) (hret₁.closedUnder hs)
  cases hrun : p.stringify (.ref a) (h₁, s.2) with
  | error e s₂ =>
      rw [hrun] at hstr
      cases e with
      | jsFalse => exact ⟨hret₁.trans hstr.1, fun hh hs => hstr.2 (hh.retyped hret₁) hs⟩
      | crash => trivial
      | outside => trivial
  | ok child s₂ =>
      rw [hrun] at hstr
      -- the quasi itself is no quasi while it is printed
      obtain ⟨d₂, hc₂⟩ : HasType s₂.1 a cls fields (js "Program") := hstr.1.program hcell₁
      obtain ⟨h₃, hset₃, hcell₃, hother₃⟩ : ∃ h₃,
          setProperty s₂.1 (.ref a) "type" (string typeStr) = .ok h₃ ∧
          HasType h₃ a cls fields typeStr ∧ ∀ b ≠ a, h₃.cell b = s₂.1.cell b := by
        refine ⟨_, setProperty_record hc₂ _ _, ⟨setField_distinct _ _ distinct, ?_⟩,
          fun b hb => Heap.write_cell_of_ne _ _ hb⟩
        rw [Heap.write_cell_self _ hc₂]
        simp only [setField_setField]
      have hwrite₃ : (writes fun h => setProperty h (.ref a) "type" (string typeStr)) s₂ =
          .ok () (h₃, s₂.2) := writes_ok hset₃
      simp only [bind_ok hwrite₃, pure_apply]
      refine ⟨fun b => ?_, hstr.2⟩
      by_cases hb : b = a
      · exact .inr ⟨cls, fields, typeStr, hb ▸ hisq, .inr (hb ▸ hcell₃)⟩
      · rcases (hret₁.trans hstr.1) b with heq | ⟨cls', fields', t, hq, ht⟩
        · exact .inl ((hother₃ b hb).trans heq)
        · refine .inr ⟨cls', fields', t, hq, ht.imp ?_ ?_⟩ <;>
          · rintro ⟨d, hd⟩
            exact ⟨d, (hother₃ b hb).trans hd⟩

instance keepsFlag_unparseExpr (p : Printer) [SatisfiesCalls R (KeepsFlag R) p]
    [SatisfiesFunctions R (KeepsFlag R) p] (exprVal : Value) [Within R exprVal] (indent : Text)
    (cprec : ℕ) (noIn : Bool) :
    Satisfies R (KeepsFlag R) (unparseExpr p exprVal indent cprec noIn) where
  holds s hs := by
    rcases unparseExpr_cases p exprVal indent cprec noIn s with
      ⟨e, hfail⟩ | ⟨typeStr, htype, hquazi, heq⟩ | ⟨e, hmem, hname, heq⟩
    · rw [hfail]
      exact flagKept_error e
    · rw [heq]
      exact exprMetaQuazi_flag p hs htype hquazi
    · rw [heq]
      exact (satisfies_exprHandlers R (KeepsFlag R) p exprVal indent cprec noIn _ hmem
        hname).holds s hs

instance keepsFlag_unparse (fuel : ℕ) : SatisfiesCalls R (KeepsFlag R) (unparse fuel) := by
  induction fuel with
  | zero =>
      exact ⟨fun _ _ _ _ _ => satisfies_throw _ _ _, fun _ _ _ => satisfies_throw _ _ _,
        fun _ _ => satisfies_throw _ _ _⟩
  | succ n ih =>
      exact ⟨fun _ _ _ _ _ => keepsFlag_unparseExpr _ _ _ _ _,
        fun _ _ _ => satisfies_unparseSourceElement _ _ _ _ _,
        fun _ _ => satisfies_stringifyObject _ _ _ _⟩

/-! ### Accepted parameters -/

/-- On this heap the call does not fail, and it leaves the heap as it is. -/
def NeverFails (h : JSHeap) (x : Print α) : Prop :=
  ∀ flag, match x (h, flag) with
    | .ok _ s => s.1 = h
    | .error e _ => e ≠ .jsFalse

variable {h : JSHeap}

theorem NeverFails.bind {x : Print α} {f : α → Print β} (hx : NeverFails h x)
    (hf : ∀ a, NeverFails h (f a)) : NeverFails h (x >>= f) := by
  intro flag
  have hxs := hx flag
  rw [bind_apply]
  cases hrun : x (h, flag) with
  | ok a s =>
      rw [hrun] at hxs
      obtain ⟨h', flag'⟩ := s
      cases hxs
      exact hf a flag'
  | error e s =>
      rw [hrun] at hxs
      exact hxs

theorem neverFails_pure (a : α) : NeverFails h (pure a : Print α) := fun _ => rfl

theorem neverFails_reads {f : JSHeap → Except Fault α} (hf : f h ≠ .error .jsFalse) :
    NeverFails h (reads f : Print α) := by
  intro flag
  simp only [reads]
  cases hread : f h with
  | ok a => rfl
  | error e => exact fun he => hf (hread.trans (congrArg _ he))

theorem neverFails_mapM {f : β → Print α} (l : List β) (hf : ∀ b ∈ l, NeverFails h (f b)) :
    NeverFails h (l.mapM f) := by
  induction l with
  | nil => exact neverFails_pure []
  | cons b l ih =>
      rw [List.forall_mem_cons] at hf
      rw [List.mapM_cons]
      exact hf.1.bind fun a => (ih hf.2).bind fun as => neverFails_pure _

theorem neverFails_throw {e : Fault} (he : e ≠ .jsFalse) : NeverFails h (throw e : Print α) :=
  fun _ => he

theorem neverFails_joinStringVector (strs : List Text) (sep prf suf : Text) :
    NeverFails h (joinStringVector strs sep prf suf) := by
  unfold joinStringVector
  split
  · exact neverFails_pure _
  · exact neverFails_pure _
  · split
    · exact neverFails_pure _
    · exact neverFails_throw (by decide)

theorem valueToString_ne_jsFalse (v : Value) : valueToString h v ≠ .error .jsFalse := by
  unfold valueToString
  split
  · simp
  · simp
  · split <;> simp

/-- The cell holds an identifier. -/
def IsIdentifier (h : JSHeap) (a : ℕ) : Prop :=
  ∃ cls fields distinct, h.cell a = some (.record cls fields distinct) ∧
    fields.lookup "type" = some (string (js "Identifier"))

theorem neverFails_identifier {a : ℕ} (ha : IsIdentifier h a) (fuel : ℕ) (indent : Text)
    (cprec : ℕ) (noIn : Bool) :
    NeverFails h ((unparse fuel).expr (.ref a) indent cprec noIn) := by
  obtain ⟨cls, fields, distinct, hc, htype⟩ := ha
  cases fuel with
  | zero => exact fun _ he => by cases he
  | succ n =>
      intro flag
      have hread : toStr (.ref a) "type" (h, flag) = .ok (js "Identifier") (h, flag) :=
        reads_ok (by simp [getPropertyToString, Js.getProperty, hc, htype, valueToString,
          Prim.toJSString])
      have hhandler : (exprHandlers (unparse n)).find?
          (fun e => equalsChars (js "Identifier") e.1) = some ("Identifier", exprIndent) := by
        simp +decide [exprHandlers]
      have hrun : (unparse (n + 1)).expr (.ref a) indent cprec noIn (h, flag) =
          exprIndent (.ref a) indent cprec noIn (h, flag) := by
        change unparseExpr (unparse n) (.ref a) indent cprec noIn (h, flag) = _
        rw [unparseExpr, bind_ok hread, hhandler]
      rw [hrun]
      refine (neverFails_reads ?_).bind (fun name => ?_) flag
      · simp only [getPropertyToString, Js.getProperty, hc, ok_bind]
        exact valueToString_ne_jsFalse _
      · split
        · intro flag'
          unfold wrapExpr
          cases flag' <;> by_cases hprec : 14 ≤ cprec <;> simp [bind_apply, hprec]
        · exact neverFails_pure _

theorem neverFails_params {b : ℕ} {elems : List Value} (hb : h.cell b = some (.array elems))
    (helems : ∀ e ∈ elems, ∃ c, e = .ref c ∧ IsIdentifier h c) (fuel : ℕ) :
    NeverFails h (params (unparse fuel) (.ref b)) := by
  have harr : arrayElems? h (.ref b) = some elems := by simp [arrayElems?, hb]
  have hvalues : NeverFails h (unparseValues (.ref b)
      fun nodeObj => (unparse fuel).expr nodeObj (lit "####") 0 false) := by
    intro flag
    have hisArray : (reads fun h => isArrayObject h (.ref b)) (h, flag) =
        .ok true (h, flag) := reads_ok (by simp [isArrayObject, harr])
    have hlength : arrayLength (.ref b) (h, flag) = .ok elems.length (h, flag) :=
      reads_ok (by simp [getArrayLength, hb])
    rw [unparseValues, bind_ok hisArray, require, if_pos rfl, pure_bind, bind_ok hlength]
    refine neverFails_mapM _ (fun i hi flag => ?_) flag
    rw [List.mem_range] at hi
    obtain ⟨c, hc, hid⟩ := helems _ (List.getElem_mem hi)
    have helem : elementToObj (.ref b) i (h, flag) = .ok (.ref c) (h, flag) := reads_ok (by
      simp [getArrayElementToObj, getElement, harr, List.getElem?_eq_getElem hi, hc, valueToObject])
    rw [bind_ok helem, require, if_pos (by simp), pure_bind]
    exact neverFails_identifier hid fuel _ _ _ flag
  refine hvalues.bind fun children => ?_
  split <;> exact neverFails_joinStringVector _ _ _ _

theorem getPropertyToObj_error {h : JSHeap} {v : Value} {key : String} {e : Fault}
    (hread : getPropertyToObj h v key = .error e) : e = .crash := by
  rw [getPropertyToObj] at hread
  cases hval : getProperty h v key with
  | ok w =>
      rw [hval] at hread
      cases hread
  | error e' =>
      rw [hval] at hread
      cases hread
      unfold getProperty at hval
      split at hval
      · cases hval
        rfl
      · cases hval
      · split at hval <;> cases hval
        rfl

/-- Parameters that are rejected are values in a property of the function. -/
theorem params_of_paramsText {p : Printer} {val : Value} {s s' : JSHeap × Bool}
    (hfail : paramsText p val s = .error .jsFalse s') :
    ∃ values, getPropertyToObj s.1 val "params" = .ok values ∧
      params p values (s.1, true) = .error .jsFalse s' := by
  cases hread : getPropertyToObj s.1 val "params" with
  | error e =>
      have hobj : toObj val "params" s = .error e s := reads_error hread
      rw [paramsText, bind_error hobj, getPropertyToObj_error hread] at hfail
      cases hfail
  | ok values =>
      have hobj : toObj val "params" s = .ok values s := reads_ok hread
      have hset : setIgnorecprec true s = .ok () (s.1, true) := rfl
      rw [paramsText, bind_ok hobj, bind_ok hset, bind_apply] at hfail
      refine ⟨values, rfl, ?_⟩
      cases hrun : params p values (s.1, true) with
      | ok text s₁ =>
          rw [hrun] at hfail
          cases hfail
      | error e s₁ =>
          rw [hrun] at hfail
          cases hfail
          rfl

/-- Identifiers are accepted as parameters. -/
theorem acceptsParams_of_identifiers
    (hparams : ∀ a cls fields distinct, R a → h.cell a = some (.record cls fields distinct) →
      ∀ v, fields.lookup "params" = some v → ∃ b elems, v = .ref b ∧
        h.cell b = some (.array elems) ∧ ∀ e ∈ elems, ∃ c, e = .ref c ∧ IsIdentifier h c) :
    AcceptsParams R h := by
  intro h₀ hret₀ v hv fuel indent flag body s₀ hbody s hfail
  obtain ⟨values, hread, hfail⟩ := params_of_paramsText hfail
  -- the heap that the body leaves
  obtain ⟨h', hs₀, hret⟩ : ∃ h', s₀.1 = h' ∧ Retyped h h' := by
    have hkept := (satisfies_functionBody Everywhere (KeepsFlag Everywhere) (unparse fuel) v
      indent).holds (h₀, flag) (closedUnder_everywhere h₀)
    rw [hbody] at hkept
    exact ⟨_, rfl, hret₀.trans hkept.1⟩
  rw [hs₀] at hread hfail
  have hnull : values ≠ null := by
    rintro rfl
    cases hfail
  -- the function, as the original heap has it
  obtain ⟨a, cls, fields, distinct, ha, hc, hl⟩ : ∃ a cls fields distinct, R a ∧
      h.cell a = some (.record cls fields distinct) ∧
        values = valueToObject ((fields.lookup "params").getD undefined) := by
    match v with
    | .leaf (.prim p) => cases hread
    | .leaf (.wrapper p) =>
        cases hread
        exact absurd rfl hnull
    | .ref a =>
        have ha : R a := hv a rfl
        rw [getPropertyToObj, Js.getProperty] at hread
        rcases hret a with heq | ⟨cls, fields, t, ⟨⟨d, hc⟩, -, -⟩, htype⟩
        · rw [heq] at hread
          cases hc : h.cell a with
          | none =>
              rw [hc] at hread
              cases hread
          | some c =>
              rw [hc] at hread
              cases c with
              | array elems =>
                  cases hread
                  exact absurd rfl hnull
              | record cls fields distinct =>
                  cases hread
                  exact ⟨a, cls, fields, distinct, ha, hc, rfl⟩
        · have hset : ∀ u, HasType h' a cls fields u →
              values = valueToObject ((fields.lookup "params").getD undefined) := by
            rintro u ⟨d', hd'⟩
            rw [hd'] at hread
            cases hread
            rw [lookup_setField_of_ne _ _ (by decide)]
          exact ⟨a, cls, fields, d, ha, hc, htype.elim (hset _) (hset _)⟩
  cases hlook : fields.lookup "params" with
  | none =>
      rw [hlook] at hl
      exact hnull hl
  | some w =>
      obtain ⟨b, elems, rfl, hb, helems⟩ := hparams a cls fields distinct ha hc w hlook
      rw [hlook] at hl
      subst hl
      have hb' : h'.cell b = some (.array elems) := by
        rcases hret b with heq | ⟨cls', fields', t, ⟨⟨d, hc'⟩, -, -⟩, -⟩
        · exact heq.trans hb
        · cases hb.symm.trans hc'
      have hidentifier : ∀ c, IsIdentifier h c → IsIdentifier h' c := by
        rintro c ⟨cls', fields', d, hc', htype⟩
        rcases hret c with heq | ⟨cls'', fields'', t, ⟨⟨d', hc''⟩, ht, hquazi⟩, -⟩
        · exact ⟨cls', fields', d, heq.trans hc', htype⟩
        · cases hc'.symm.trans hc''
          rw [htype] at ht
          cases ht
          exact absurd hquazi (by decide)
      have hsafe := neverFails_params hb'
        (fun e he => (helems e he).imp fun c hec => ⟨hec.1, hidentifier c hec.2⟩) fuel true
      rw [show valueToObject ((some (.ref b) : Option Value).getD undefined) = .ref b from rfl]
        at hfail
      rw [hfail] at hsafe
      exact hsafe rfl

/-! ### Sessions -/

/-- The calls made from outside. -/
inductive PrintCall where
  | unParseStart (obj : Value)
  | unparseExpr (exprVal : Value) (indent : Text) (cprec : ℕ) (noIn : Bool)
  | substmt (obj : Value) (indent : Text) (more : Bool)

def PrintCall.run (fuel : ℕ) : PrintCall → Print Text
  | .unParseStart obj => do return some (← Staging.unParseStart fuel obj)
  | .unparseExpr exprVal indent cprec noIn => (unparse fuel).expr exprVal indent cprec noIn
  | .substmt obj indent more => Unparse.substmt (unparse fuel) obj indent more

/-- The object that is printed. -/
def PrintCall.object : PrintCall → Value
  | .unParseStart obj => obj
  | .unparseExpr exprVal _ _ _ => exprVal
  | .substmt obj _ _ => obj

instance satisfies_run (P : ∀ α : Type, Print α → Prop) [StepClosed R P] (fuel : ℕ)
    [hp : SatisfiesCalls R P (unparse fuel)] (call : PrintCall) [hobj : Within R call.object] :
    Satisfies R P (call.run fuel) := by
  cases call with
  | unParseStart obj =>
      have : Within R obj := hobj
      unfold PrintCall.run Staging.unParseStart
      infer_instance
  | unparseExpr exprVal indent cprec noIn =>
      have : Within R exprVal := hobj
      exact hp.expr exprVal indent cprec noIn
  | substmt obj indent more =>
      have : Within R obj := hobj
      exact satisfies_substmt R P (unparse fuel) obj indent more

/-- The flag after calls that each find some heap, unless the engine dies. -/
def flagAfter (fuel : ℕ) (flag : Bool) : List (JSHeap × PrintCall) → Option Bool
  | [] => some flag
  | (h, call) :: calls =>
      match call.run fuel (h, flag) with
      | .ok _ s => flagAfter fuel s.2 calls
      | .error .jsFalse s => flagAfter fuel s.2 calls
      | .error _ _ => none

/-- A printer behaves like a new one after calls of which none reaches a function whose
parameters it rejects once it has printed the body. -/
theorem printer_memoryless {fuel : ℕ} {calls : List (JSHeap × PrintCall)}
    (hcalls : ∀ c ∈ calls, AcceptsParams (c.1.Reaches c.2.object) c.1) {flag : Bool}
    (hflag : flagAfter fuel false calls = some flag) :
    flag = false ∧ ∀ h (call : PrintCall), call.run fuel (h, flag) = call.run fuel (h, false) := by
  have hclear : flag = false := by
    induction calls with
    | nil => exact (Option.some.inj hflag).symm
    | cons c calls ih =>
        obtain ⟨h, call⟩ := c
        rw [List.forall_mem_cons] at hcalls
        have : Within (h.Reaches call.object) call.object := ⟨h.within_reaches _⟩
        have hkeeps : Satisfies (h.Reaches call.object) (KeepsFlag (h.Reaches call.object))
            (call.run fuel) := inferInstance
        have hstep := hkeeps.holds (h, false) (h.closedUnder_reaches _)
        rw [flagAfter] at hflag
        cases hrun : call.run fuel (h, false) with
        | ok text s =>
            rw [hrun] at hstep hflag
            simp only [hstep.2 rfl] at hflag
            exact ih hcalls.2 hflag
        | error e s =>
            rw [hrun] at hstep hflag
            cases e with
            | jsFalse =>
                simp only [hstep.2 hcalls.1 rfl] at hflag
                exact ih hcalls.2 hflag
            | crash => cases hflag
            | outside => cases hflag
  exact ⟨hclear, fun h call => by rw [hclear]⟩

/-- The AST of a function with a parameter that is no node of the language. -/
def rejectedParam : Ast :=
  node 0 "FunctionExpression" [("id", .leaf null), ("params", .array 1 [node 2 "Unknown" []]),
    ("body", node 3 "BlockStatement" [("body", .array 4 [])]),
    ("expression", .leaf (boolean false))]

/-- The AST of `f((a, b));`. -/
def sequenceArgument : Ast :=
  program 5 6 [exprStatement 7 (node 8 "CallExpression" [("callee", identifier 9 "f"),
    ("arguments", .array 10 [node 11 "SequenceExpression"
      [("expressions", .array 12 [identifier 13 "a", identifier 14 "b"])]])])]

/-- The call that fails leaves the flag set, and the next text lacks its
parentheses. -/
theorem printer_remembers :
    flagAfter 20 false [(.ofTrees [rejectedParam, sequenceArgument],
      .unparseExpr rejectedParam.val (lit "") 0 false)] = some true ∧
    (ended ((PrintCall.unParseStart sequenceArgument.val).run 20
      (.ofTrees [rejectedParam, sequenceArgument], true))).map Prod.fst =
        some (lit "f(a,b);\n") ∧
    (ended ((PrintCall.unParseStart sequenceArgument.val).run 20
      (.ofTrees [rejectedParam, sequenceArgument], false))).map Prod.fst =
        some (lit "f((a,b));\n") := by
  decide

/-- A function with the parameter `x` whose body is no node of the language. -/
def rejectedBody : JSHeap :=
  .ofCells [.record .plain [("type", string (js "FunctionExpression")), ("id", null),
      ("params", .ref 1), ("body", .ref 3), ("expression", boolean true)] (by decide),
    .array [.ref 2],
    .record .plain [("type", string (js "Identifier")), ("name", string (js "x"))] (by decide),
    .record .plain [("type", string (js "Unknown"))] (by decide)]

theorem acceptsParams_rejectedBody : AcceptsParams R rejectedBody := by
  apply acceptsParams_of_identifiers
  intro a cls fields distinct _ hc v hv
  match a with
  | 0 =>
      cases hc
      cases hv
      refine ⟨1, [.ref 2], rfl, rfl, fun e he => ⟨2, List.mem_singleton.mp he, ?_⟩⟩
      exact ⟨_, _, _, rfl, rfl⟩
  | 1 => cases hc
  | 2 =>
      cases hc
      cases hv
  | 3 =>
      cases hc
      cases hv
  | n + 4 => cases hc

/-- Printing it fails, and the printer then behaves like a new one. -/
theorem printer_memoryless_rejectedBody :
    ∃ flag, flagAfter 20 false
        [(rejectedBody, .unparseExpr (.ref 0) (lit "") 0 false)] = some flag ∧
      ∀ h (call : PrintCall), call.run 20 (h, flag) = call.run 20 (h, false) :=
  have hflag : flagAfter 20 false
      [(rejectedBody, .unparseExpr (.ref 0) (lit "") 0 false)] = some false := by decide
  ⟨false, hflag, (printer_memoryless (by simpa using acceptsParams_rejectedBody) hflag).2⟩

end MetaMonkey.Staging
