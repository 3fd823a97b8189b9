import MetaMonkey.Staging.PrinterLogic

/-!
Printing and the heap. A quasi is printed with its type changed for a while,
so a print that fails may leave a changed AST behind; one that succeeds leaves
the heap as it was.
-/

namespace MetaMonkey.Staging

open ObjectGraph Js Unparse

variable {α β : Type}

/-- No object has a boxed primitive for its type. -/
def NoBoxedTypes (h : JSHeap) : Prop :=
  ∀ a cls fields distinct, h.cell a = some (.record cls fields distinct) →
    ∀ p, fields.lookup "type" ≠ some (.leaf (.wrapper p))

/-- A call that returns leaves the heap as it was. -/
def KeepsHeap (α : Type) (x : Print α) : Prop :=
  ∀ s a s', NoBoxedTypes s.1 → x s = .ok a s' → s'.1 = s.1

theorem keepsHeap_bind {x : Print α} {f : α → Print β} (hx : KeepsHeap α x)
    (hf : ∀ a, KeepsHeap β (f a)) : KeepsHeap β (x >>= f) := by
  intro s b s' hs hxf
  obtain ⟨a, s₁, hxs, hfs⟩ := bind_eq_ok.mp hxf
  have hheap := hx s a s₁ hs hxs
  exact (hf a s₁ b s' (hheap ▸ hs) hfs).trans hheap

instance keepsHeap_closed : StepClosed Everywhere KeepsHeap where
  pure a s b s' _ hx := by
    cases hx
    rfl
  throw e s b s' _ hx := by cases hx
  reads f s b s' _ hx := by
    rw [reads] at hx
    split at hx
    · cases hx
      rfl
    · cases hx
  get s b s' _ hx := by
    cases hx
    rfl
  bind _ _ := keepsHeap_bind
  fetch f hg hf s b s' hs hrun := by
    obtain ⟨a, s₁, hread, hrun'⟩ := bind_eq_ok.mp hrun
    obtain ⟨ha, rfl⟩ := reads_eq_ok.mp hread
    exact hf a (hg _ (closedUnder_everywhere _) a ha) _ b s' hs hrun'
  orUnset x hx s a s' hs hrun := by
    rw [orUnset] at hrun
    split at hrun
    · cases hrun
    · exact hx s a s' hs hrun

instance keepsHeap_setIgnorecprec (b : Bool) :
    Satisfies Everywhere KeepsHeap (setIgnorecprec b) where
  holds s a s' _ hx := by
    cases hx
    rfl

/-! ### Quasis -/

/-- The first byte of a text. -/
def firstByte (s : JSString) : Option UInt8 := (encodeString s).head?

theorem firstByte_of_equalsChars {s : JSString} {text : String}
    (hs : equalsChars s text = true) : firstByte s = firstByte (js text) := by
  rw [firstByte, of_decide_eq_true hs, firstByte]

theorem firstByte_cons {c : UInt16} (s : JSString) (hc : c.toUInt8 ≠ 0) :
    firstByte (c :: s) = some c.toUInt8 := by
  simp [firstByte, encodeString, hc]

theorem firstByte_append {s t : JSString} {b : UInt8} (hs : firstByte s = some b) :
    firstByte (s ++ t) = some b := by
  cases s with
  | nil => cases hs
  | cons c s =>
      by_cases hc : c.toUInt8 = 0
      · simp [firstByte, encodeString, hc] at hs
      · rw [firstByte_cons s hc] at hs
        rw [List.cons_append, firstByte_cons _ hc, hs]

theorem digitUnit_firstByte (d : Fin 10) (s : JSString) :
    ∃ b, firstByte (digitUnit d :: s) = some b ∧ b ≠ 77 := by
  have hd : ∀ d : Fin 10, (digitUnit d).toUInt8 ≠ 0 ∧ (digitUnit d).toUInt8 ≠ 77 := by decide
  exact ⟨_, firstByte_cons s (hd d).1, (hd d).2⟩

/-- No decimal starts with an `M`. -/
theorem decimal_firstByte (m : Decimal) : ∃ b, firstByte m.toString = some b ∧ b ≠ 77 := by
  obtain ⟨d, ds, hds⟩ := List.exists_cons_of_ne_nil m.nonempty
  have happend : ∀ s t : JSString, (∃ b, firstByte s = some b ∧ b ≠ 77) →
      ∃ b, firstByte (s ++ t) = some b ∧ b ≠ 77 := by
    rintro s t ⟨b, hb, hne⟩
    exact ⟨b, firstByte_append hb, hne⟩
  have hdigit : ∀ s, ∃ b, firstByte (digitUnit d :: s) = some b ∧ b ≠ 77 :=
    digitUnit_firstByte d
  simp only [Decimal.toString, hds, List.map_cons]
  split
  · exact happend _ _ (hdigit _)
  · split
    · rename_i hpos
      obtain ⟨n, hn⟩ : ∃ n, m.point.toNat = n + 1 := ⟨m.point.toNat - 1, by omega⟩
      rw [hn, List.take_succ_cons]
      exact happend _ _ (happend _ _ (hdigit _))
    · split
      · exact happend _ _ (happend _ _ ⟨48, by decide, by decide⟩)
      · split
        · exact happend _ _ (hdigit _)
        · rw [List.take_succ_cons]
          exact happend _ _ (happend _ _ (happend _ _ (hdigit _)))

theorem number_firstByte (n : JSNumber) : ∃ b, firstByte n.toString = some b ∧ b ≠ 77 := by
  have hneg : ∀ s, ∃ b, firstByte (js "-" ++ s) = some b ∧ b ≠ 77 :=
    fun s => ⟨45, firstByte_append (by decide), by decide⟩
  cases n with
  | nan => exact ⟨78, by decide, by decide⟩
  | infinity neg =>
      cases neg with
      | true => exact hneg _
      | false => exact ⟨73, by decide, by decide⟩
  | zero neg =>
      have hzero : firstByte (js "0") = some 48 := by decide
      exact ⟨48, hzero, by decide⟩
  | finite neg m =>
      cases neg with
      | true => exact hneg _
      | false => exact decimal_firstByte m

/-- The text of a type that is no object. -/
def leafText : Value → Option JSString
  | .leaf (.prim p) => some p.toJSString
  | .leaf (.wrapper p) => some p.toJSString
  | .ref _ => none

theorem leafText_of_quazi {h : JSHeap} {v : Value} {s : JSString}
    (hread : valueToString h v = .ok s) (hbyte : firstByte s = some 77) : leafText v = some s := by
  cases v with
  | leaf x =>
      cases x with
      | prim p =>
          cases hread
          rfl
      | wrapper p =>
          cases hread
          rfl
  | ref b =>
      rw [valueToString] at hread
      split at hread
      · cases hread
        exact absurd hbyte (by decide)
      · cases hread
        exact absurd hbyte (by simp [firstByte, encodeString, js])
      · cases hread
      · cases hread
      · cases hread

/-- A node that is printed as a quasi has a type that is no object. -/
theorem quazi_leaf {h : JSHeap} {val : Value} {s : JSString}
    (htype : getPropertyToString h val "type" = .ok s)
    (hs : equalsChars s "MetaQuaziStatement" = true) :
    ∃ a cls fields distinct v, val = .ref a ∧
      h.cell a = some (.record cls fields distinct) ∧
      fields.lookup "type" = some v ∧ leafText v = some s := by
  have hbyte : firstByte s = some 77 := firstByte_of_equalsChars hs
  have hundef : firstByte (js "undefined") ≠ some 77 := by decide
  have hdead : ∀ {v : Value}, v = undefined → valueToString h v = .ok s → False := by
    rintro _ rfl hv
    cases hv
    exact hundef hbyte
  cases val with
  | leaf x =>
      cases x with
      | prim p => cases htype
      | wrapper p => exact absurd htype fun hv => hdead rfl hv
  | ref a =>
      rw [getPropertyToString, Js.getProperty] at htype
      cases hc : h.cell a with
      | none =>
          rw [hc] at htype
          cases htype
      | some c =>
          rw [hc] at htype
          cases c with
          | array elems => exact absurd htype fun hv => hdead rfl hv
          | record cls fields distinct =>
              rw [ok_bind] at htype
              cases hl : fields.lookup "type" with
              | none =>
                  rw [hl] at htype
                  exact absurd htype fun hv => hdead rfl hv
              | some v =>
                  rw [hl, Option.getD_some] at htype
                  exact ⟨a, cls, fields, distinct, v, rfl, hc, hl, leafText_of_quazi htype hbyte⟩

/-- Where no type is boxed it is a string. -/
theorem quazi_type {h : JSHeap} (hh : NoBoxedTypes h) {val : Value} {s : JSString}
    (htype : getPropertyToString h val "type" = .ok s)
    (hs : equalsChars s "MetaQuaziStatement" = true) :
    ∃ a cls fields distinct, val = .ref a ∧
      h.cell a = some (.record cls fields distinct) ∧
      fields.lookup "type" = some (string s) := by
  obtain ⟨a, cls, fields, distinct, v, rfl, hc, hl, hv⟩ := quazi_leaf htype hs
  have hbyte : firstByte s = some 77 := firstByte_of_equalsChars hs
  refine ⟨a, cls, fields, distinct, rfl, hc, hl.trans (congrArg _ ?_)⟩
  match v with
  | string t =>
      cases hv
      rfl
  | undefined =>
      cases hv
      exact absurd hbyte (by decide)
  | null =>
      cases hv
      exact absurd hbyte (by decide)
  | boolean b =>
      cases hv
      cases b
      · exact absurd hbyte (by decide)
      · exact absurd hbyte (by decide)
  | number n =>
      cases hv
      obtain ⟨b, hb, hne⟩ := number_firstByte n
      exact absurd (Option.some.inj (hb.symm.trans hbyte)) hne
  | .leaf (.wrapper p) => exact absurd hl (hh a cls fields distinct hc p)
  | .ref b => cases hv

theorem setProperty_record {h : JSHeap} {a : ℕ} {cls : ObjClass}
    {fields : List (String × Value)} {distinct : (fields.map Prod.fst).Nodup}
    (hc : h.cell a = some (.record cls fields distinct)) (name : String) (v : Value) :
    setProperty h (.ref a) name v = .ok (h.write a
      (.record cls (setField fields name v) (setField_distinct name v distinct))) := by
  simp only [setProperty, hc]

theorem noBoxedTypes_write {h : JSHeap} (hh : NoBoxedTypes h) (a : ℕ) (cls : ObjClass)
    {fields : List (String × Value)} (distinct : (fields.map Prod.fst).Nodup)
    (hf : ∀ p, fields.lookup "type" ≠ some (.leaf (.wrapper p))) :
    NoBoxedTypes (h.write a (.record cls fields distinct)) := by
  intro b cls' fields' distinct' hb
  by_cases hab : b = a ∧ a < h.next
  · simp only [Heap.write, if_pos hab, Option.some.injEq, Cell.record.injEq] at hb
    exact hb.2 ▸ hf
  · simp only [Heap.write, if_neg hab] at hb
    exact hh b cls' fields' distinct' hb

/-- Changing a property and back. -/
theorem setProperty_restore {h h₁ h₂ : JSHeap} {a : ℕ} {cls : ObjClass}
    {fields : List (String × Value)} {distinct : (fields.map Prod.fst).Nodup} {name : String}
    {v w : Value} (hc : h.cell a = some (.record cls fields distinct))
    (hv : fields.lookup name = some v) (h₁eq : setProperty h (.ref a) name w = .ok h₁)
    (h₂eq : setProperty h₁ (.ref a) name v = .ok h₂) : h₂ = h := by
  simp only [setProperty, hc, Except.ok.injEq] at h₁eq
  subst h₁eq
  simp only [setProperty, Heap.write_cell_self _ hc, Except.ok.injEq] at h₂eq
  subst h₂eq
  apply Heap.ext
  · intro b
    by_cases hb : b = a
    · subst hb
      rw [Heap.write_cell_self _ (Heap.write_cell_self _ hc), hc]
      simp only [setField_setField, setField_self distinct hv]
    · rw [Heap.write_cell_of_ne _ _ hb, Heap.write_cell_of_ne _ _ hb]
  · rfl

/-- A quasi under the type it has while it is printed. -/
theorem setProgram {h : JSHeap} {val : Value} {typeStr : JSString} (hh : NoBoxedTypes h)
    (htype : getPropertyToString h val "type" = .ok typeStr)
    (hquazi : equalsChars typeStr "MetaQuaziStatement" = true) :
    ∃ a cls fields distinct distinct₁ h₁, val = .ref a ∧
      h.cell a = some (.record cls fields distinct) ∧
      fields.lookup "type" = some (string typeStr) ∧ NoBoxedTypes h₁ ∧
      setProperty h val "type" (string (js "Program")) = .ok h₁ ∧
      h₁.cell a =
        some (.record cls (setField fields "type" (string (js "Program"))) distinct₁) := by
  obtain ⟨a, cls, fields, distinct, rfl, hc, hl⟩ := quazi_type hh htype hquazi
  refine ⟨a, cls, fields, distinct, _, _, rfl, hc, hl, ?_, setProperty_record hc _ _,
    Heap.write_cell_self _ hc⟩
  exact noBoxedTypes_write hh a cls _ fun p => by simp

/-- Printing a quasi, up to what the stringifier makes of it. -/
theorem exprMetaQuazi_eq (p : Printer) {h h₁ : JSHeap} {val : Value} {indent : Text} {cprec : ℕ}
    {noIn : Bool} {typeStr : JSString} {flag : Bool}
    (htype : getPropertyToString h val "type" = .ok typeStr)
    (hset : setProperty h val "type" (string (js "Program")) = .ok h₁) :
    exprMetaQuazi p val indent cprec noIn (h, flag) =
      (p.stringify val >>= fun child => do
        writes fun h => setProperty h val "type" (string typeStr)
        return child) (h₁, flag) := by
  have hread : toStr val "type" (h, flag) = .ok typeStr (h, flag) := reads_ok htype
  have hwrite : (writes fun h => setProperty h val "type" (string (js "Program"))) (h, flag) =
      .ok () (h₁, flag) := writes_ok hset
  rw [exprMetaQuazi, bind_ok hread, bind_ok hwrite]

/-- `expr_metaQuazi` puts the type back. -/
theorem exprMetaQuazi_heap (p : Printer) [hp : SatisfiesCalls Everywhere KeepsHeap p] {val : Value}
    {indent : Text} {cprec : ℕ} {noIn : Bool} {s s' : JSHeap × Bool} {a : Text}
    (hs : NoBoxedTypes s.1) {typeStr : JSString}
    (htype : getPropertyToString s.1 val "type" = .ok typeStr)
    (hquazi : equalsChars typeStr "MetaQuaziStatement" = true)
    (hrun : exprMetaQuazi p val indent cprec noIn s = .ok a s') : s'.1 = s.1 := by
  obtain ⟨h, flag⟩ := s
  obtain ⟨b, cls, fields, _, _, h₁, rfl, hc, hl, hh₁, hset, -⟩ := setProgram hs htype hquazi
  rw [exprMetaQuazi_eq p htype hset] at hrun
  obtain ⟨child, s₂, hstr, hrun⟩ := bind_eq_ok.mp hrun
  obtain ⟨_, s₃, hwrite, hrun⟩ := bind_eq_ok.mp hrun
  cases hrun
  have hheap : s₂.1 = h₁ := (hp.stringify _).holds _ _ _ hh₁ hstr
  obtain ⟨h₃, hset₃, rfl⟩ := writes_eq_ok.mp hwrite
  exact setProperty_restore hc hl hset (hheap ▸ hset₃)

instance keepsHeap_functions (p : Printer) [SatisfiesCalls Everywhere KeepsHeap p] :
    SatisfiesFunctions Everywhere KeepsHeap p where
  functionDeclaration funcInitStr id _ val _ indent := by
    have hparams : Satisfies Everywhere KeepsHeap (paramsText p val) := by
      unfold paramsText
      infer_instance
    rw [functionDeclaration_eq]
    infer_instance

instance keepsHeap_unparseExpr (p : Printer) [SatisfiesCalls Everywhere KeepsHeap p]
    (exprVal : Value)
    (indent : Text) (cprec : ℕ) (noIn : Bool) :
    Satisfies Everywhere KeepsHeap (unparseExpr p exprVal indent cprec noIn) where
  holds s a s' hs hrun := by
    rcases unparseExpr_cases p exprVal indent cprec noIn s with
      ⟨e, hfail⟩ | ⟨typeStr, htype, hquazi, heq⟩ | ⟨e, hmem, hname, heq⟩
    · cases hfail.symm.trans hrun
    · exact exprMetaQuazi_heap p hs htype hquazi (heq.symm.trans hrun)
    · exact (satisfies_exprHandlers Everywhere KeepsHeap p exprVal indent cprec noIn _ hmem
        hname).holds _ _ _ hs (heq.symm.trans hrun)

/-- A print that succeeds leaves the heap as it was. -/
instance keepsHeap_unparse (fuel : ℕ) :
    SatisfiesCalls Everywhere KeepsHeap (unparse fuel) := by
  induction fuel with
  | zero =>
      exact ⟨fun _ _ _ _ _ => satisfies_throw _ _ _, fun _ _ _ => satisfies_throw _ _ _,
        fun _ _ => satisfies_throw _ _ _⟩
  | succ n ih =>
      exact ⟨fun _ _ _ _ _ => keepsHeap_unparseExpr _ _ _ _ _,
        fun _ _ _ => satisfies_unparseSourceElement _ _ _ _ _,
        fun _ _ => satisfies_stringifyObject _ _ _ _⟩

end MetaMonkey.Staging
