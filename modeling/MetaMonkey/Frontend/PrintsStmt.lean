import MetaMonkey.Frontend.PrintsExpr

/-!
The printer writes the layouts: functions, statements and programs.
-/

namespace MetaMonkey.Frontend

open Js Layout MetaMonkey.Staging MetaMonkey.Staging.Unparse

/-! ### Expressions with declarations -/

theorem Expr.prints_yield (argument : Option Expr) (h : ∀ e ∈ argument, e.Prints) :
    (Expr.yieldExpr argument).Prints := by
  intro hall _ fuel heap v k c n hv
  rw [Expr.All] at hall
  obtain ⟨htype, w, hw, hshows⟩ := hv
  refine yields_expr (f := exprYield) (fun p => by simp [exprHandlers]) htype
    Expr.Printable.fuel fun m hm => ?_
  subst hm
  refine .prop hw ?_
  rw [Expr.layout]
  cases argument with
  | none =>
      obtain rfl : w = null := hshows
      refine .bind (.pure _) (.bind (yields_joinVector (by simp) (by simp)) ?_)
      exact yields_wrapExpr (by simp [optionalLayout, Keyword.text])
  | some e =>
      have hP : (Expr.yieldExpr (some e)).Printable (m + 1) → e.Printable m := by
        rintro ⟨hprintable, hsize⟩
        rw [Expr.All] at hprintable
        simp at hsize
        exact ⟨hprintable.2 e rfl, by omega⟩
      have hshows' : e.Shows heap w := hshows
      obtain ⟨type, hwtype⟩ := hshows'.hasType (hall.1 e rfl)
      rw [hwtype.isObject]
      refine (h e rfl).step (hall.2 e rfl) (hall.1 e rfl) hshows' hP ?_
      refine .bind (.pure _) (.bind (yields_joinVector (by simp) (by simp)) ?_)
      exact yields_wrapExpr (by simp [optionalLayout, Keyword.text])

def Declarator.Printable (fuel : ℕ) (d : Declarator) : Prop :=
  d.All (fun _ => True) Stmt.Printable ∧ sizeOf d ≤ fuel

def Declarator.Prints (d : Declarator) : Prop :=
  d.All Expr.Formed Stmt.Formed → d.Formed → ∀ fuel h v n, d.Shows h v →
    Yields (d.Printable fuel) (declValue (unparse fuel) n v) (h, false)
      (some (render (d.layout n))) (h, false)

theorem isWord_of_isName {w : JSString} (h : isName w = true) : isWord w = true := by
  simp only [isName, Bool.and_eq_true] at h
  exact h.1

theorem Declarator.prints (id : JSString) (init : Option Expr) (h : ∀ e ∈ init, e.Prints) :
    (Declarator.mk id init).Prints := by
  intro hall hformed fuel heap v n hv
  rw [Declarator.All] at hall
  obtain ⟨htype, ⟨w₁, hw₁, hshows₁⟩, w₂, hw₂, hshows₂⟩ := hv
  have hP : (Declarator.mk id init).Printable fuel →
      0 < fuel ∧ ∀ e ∈ init, e.Printable fuel := by
    rintro ⟨hprintable, hsize⟩
    rw [Declarator.All] at hprintable
    simp at hsize
    refine ⟨by omega, fun e he => ⟨hprintable e he, ?_⟩⟩
    obtain rfl : init = some e := he
    simp at hsize
    omega
  refine .toStr htype (.require (by simp [equals]) (.toObj hw₁ ?_))
  rw [hshows₁.1.valueToObject]
  refine .bind (yields_name _ hshows₁ (isWord_of_isName hformed.1) fun hp => (hP hp).1)
    (.toObj hw₂ ?_)
  rw [Declarator.layout.eq_def]
  cases init with
  | none =>
      obtain rfl : w₂ = null := hshows₂
      refine .require rfl ?_
      simp only [render_word, render_nil, List.append_nil]
      exact .pure _
  | some e =>
      have hshows : e.Shows heap w₂ := hshows₂
      obtain ⟨type, hwtype⟩ := hshows.hasType (hformed.2 e rfl)
      have hne : valueToObject w₂ ≠ null := by
        rw [hwtype.valueToObject]
        exact hwtype.ne_null
      simp only [ne_eq, hne, not_false_eq_true, if_true]
      refine (h e rfl).step (k := 0) (hall e rfl) (hformed.2 e rfl) hshows
        (fun hp => (hP hp).2 e rfl) ?_
      simp [joinStrings_eq, Punct.text]
      exact .pure _

theorem yields_declarators {P : Prop} {h : JSHeap} {arr : Value} {ws : List Value} {m : ℕ}
    {n : Bool} {ds : List Declarator} (hws : arrayElems? h arr = some ws)
    (hshows : showsDeclarators h ds ws) (hprints : ∀ d ∈ ds, d.Prints)
    (hall : ∀ d ∈ ds, d.All Expr.Formed Stmt.Formed) (hformed : Declarators.Formed ds)
    (hP : P → ∀ d ∈ ds, d.Printable m) :
    Yields P (declarators (unparse m) arr n) (h, false) (some (render
      (separate [punct .comma, .space] (ds.map fun d => d.layout n)))) (h, false) := by
  have hchildren := yields_values (P := P) (i := false) (F := declValue (unparse m) n)
    (t := fun d => some (render (d.layout n))) hws (showsDeclarators_forall₂ hshows)
    fun d hd w hw => by
      have hw' := hw
      obtain ⟨id, init⟩ := d
      exact ⟨hw'.1.ref, (hprints _ hd (hall _ hd) (hformed.2 _ hd) m h w n hw).mono
        fun hp => hP hp _ hd⟩
  refine .bind hchildren ?_
  have hjoin := yields_commas (P := P) (s := (h, false)) (ds.map fun d => d.layout n) none none
    (by simpa using hformed.1)
  simpa [Function.comp_def] using hjoin

theorem Expr.prints_let (head : List Declarator) (body : Expr) (hhead : ∀ d ∈ head, d.Prints)
    (hbody : body.Prints) : (Expr.letExpr head body).Prints := by
  intro hall _ fuel heap v k c n hv
  rw [Expr.All] at hall
  obtain ⟨htype, ⟨w₁, hw₁, ws, hws, hshows₁⟩, w₂, hw₂, hshows₂⟩ := hv
  refine yields_expr (f := exprLet) (fun p => by simp [exprHandlers]) htype
    Expr.Printable.fuel fun m hm => ?_
  subst hm
  have hP : (Expr.letExpr head body).Printable (m + 1) →
      (∀ d ∈ head, d.Printable m) ∧ body.Printable m := by
    rintro ⟨hprintable, hsize⟩
    rw [Expr.All] at hprintable
    simp at hsize
    refine ⟨fun d hd => ⟨hprintable.2.1 d hd, ?_⟩, hprintable.2.2, by omega⟩
    have hlt := List.sizeOf_lt_of_mem hd
    omega
  obtain ⟨a, rfl, -⟩ := arrayElems?_ref hws
  refine .toObj hw₁ (.toObj hw₂ (.bind (yields_declarators hws hshows₁ hhead hall.2.1 hall.1.1
    fun hp => (hP hp).1) ?_))
  refine hbody.step hall.2.2 hall.1.2 hshows₂ (fun hp => (hP hp).2) ?_
  have hvar : js "var (" = js "var" ++ js " " ++ js "(" := rfl
  rw [Expr.layout]
  exact yields_wrapJoin (by simp [hvar, Keyword.text])

/-! ### Functions -/

section

variable {P : Prop} {h : JSHeap} {v w : Value} {k m : ℕ} {t : JSString}
  {id : Option JSString} {names : List JSString}

theorem yields_params {b : Bool} {ws : List Value} (hws : arrayElems? h w = some ws)
    (hshows : showsNames h names ws) (hnames : ∀ name ∈ names, isName name = true)
    (hfuel : P → 0 < m) : Yields P (params (unparse m) w) (h, b) (some (render (parens
      (separate [punct .comma, .space] (names.map fun name => [word name]))))) (h, b) := by
  have hchildren := yields_values (P := P) (i := b) (F := fun nodeObj =>
      (unparse m).expr nodeObj (lit "####") 0 false) (t := fun name => some name)
    hws (showsNames_forall₂ hshows) fun name hname x hx =>
      ⟨hx.1.ref, yields_name _ hx (isWord_of_isName (hnames name hname)) hfuel⟩
  refine .bind hchildren (yields_list ?_ ?_)
  · intro hnil
    rw [List.map_eq_nil_iff] at hnil
    subst hnil
    rfl
  · intro hne
    obtain ⟨name, rest, rfl⟩ := List.exists_cons_of_ne_nil (by simpa using hne)
    simp [Function.comp_def]

theorem yields_setIgnorecprec {a b : Bool} {α : Type} {x : Print α} {y : α} {s : JSHeap × Bool}
    (hx : Yields P x (h, b) y s) : Yields P (setIgnorecprec b >>= fun _ => x) (h, a) y s :=
  .bind (.of_ok (show _ = EStateM.Result.ok () (h, b) from rfl)) hx

/-- The body of a function, by which the printer takes its kind. -/
def ShowsBody (P : Prop) (h : JSHeap) (m k : ℕ) (w : Value) (t : JSString) : Bool → Prop
  | false => Yields P (substmt (unparse m) (valueToObject w) (indentation k) false) (h, false)
      (some t) (h, false)
  | true => ∃ u, Yields P ((unparse m).expr (valueToObject w) (indentation k) 2 false) (h, false)
      (some u) (h, false) ∧ t = js " " ++ if u.head? = some 123 then js "(" ++ u ++ js ")" else u

/-- The flag is set for the parameters only. -/
theorem yields_functionDeclaration {closure : Bool} (hhead : ShowsHead h v id names closure)
    (hformed : FunctionHead.Formed id names) (hfuel : P → 0 < m)
    (hbody : Has h v "body" fun w => ShowsBody P h m k w t closure) :
    Yields P (do
      let idVal ← prop v "id"
      functionDeclaration (unparse m) (lit "function") idVal v (indentation k)) (h, false)
      (some (render (functionHead id names) ++ t)) (h, false) := by
  obtain ⟨htype, ⟨x, hx, hid⟩, ⟨y, hy, ws, hws, hnames⟩, hclosure⟩ := hhead
  obtain ⟨z, hz, hshows⟩ := hbody
  refine .prop hx ?_
  have hend : ∀ name : List Text, name = (id.map some).toList →
      Yields P (do
        let paramsObj ← toObj v "params"
        setIgnorecprec true
        let paramsStr ← params (unparse m) paramsObj
        setIgnorecprec false
        joinVector ([lit "function", lit " "] ++ name ++ [paramsStr, some t])) (h, false)
        (some (render (functionHead id names) ++ t)) (h, false) := by
    rintro name rfl
    obtain ⟨a, rfl, -⟩ := arrayElems?_ref hws
    refine .toObj hy (yields_setIgnorecprec (.bind
      (yields_params hws hnames hformed.2 hfuel) (yields_setIgnorecprec ?_)))
    have hsolid : Solid ([lit "function", lit " "] ++ (id.map some).toList ++
        [some (render (parens (separate [punct .comma, .space]
          (names.map fun name => [word name])))), some t]) := by
      cases id <;> simp
    have hjoin := yields_joinVector (P := P) (s := (h, false)) (by simp) hsolid
    have htext : textOf (id.map some).toList = render (id.map word).toList := by
      cases id <;> simp
    rw [textOf_append, textOf_append, htext] at hjoin
    simpa [functionHead, Keyword.text] using hjoin
  have hbodyEnd : ∀ name : List Text, name = (id.map some).toList →
      Yields P (do
        let exprProp ← prop v "expression"
        let bodyObj ← toObj v "body"
        let bodyStr ←
          if isNullOrUndefined exprProp || exprProp = boolean false then
            substmt (unparse m) bodyObj (indentation k) false
          else do
            let bodyStr ← deref (← (unparse m).expr bodyObj (indentation k) 2 false)
            if bodyStr.head? = some 123 then
              pure (joinStrings [lit " ", lit "(", some bodyStr, lit ")"])
            else
              pure (joinStrings [lit " ", some bodyStr])
        let paramsObj ← toObj v "params"
        setIgnorecprec true
        let paramsStr ← params (unparse m) paramsObj
        setIgnorecprec false
        joinVector ([lit "function", lit " "] ++ name ++ [paramsStr, bodyStr])) (h, false)
        (some (render (functionHead id names) ++ t)) (h, false) := by
    intro name hname
    refine .prop hclosure (.toObj hz ?_)
    cases closure with
    | false => exact .bind hshows (hend name hname)
    | true =>
        obtain ⟨u, hu, rfl⟩ := hshows
        refine .bind hu (.deref ?_)
        by_cases hbrace : u.head? = some 123
        · have hend' := hend name hname
          simp only [hbrace, if_true] at hend' ⊢
          exact .bind (.pure _) (by simpa [joinStrings, lit] using hend')
        · have hend' := hend name hname
          simp only [hbrace, if_false] at hend' ⊢
          exact .bind (.pure _) (by simpa [joinStrings, lit] using hend')
  cases id with
  | none =>
      obtain rfl : x = null := hid
      exact .bind (.pure _) (hbodyEnd [] rfl)
  | some name =>
      obtain ⟨a, rfl⟩ := hid.1.ref
      refine .bind (yields_name _ hid (isWord_of_isName (hformed.1 name rfl)) hfuel) ?_
      exact .bind (.pure _) (hbodyEnd [some name] rfl)

end

def Block.Printable (fuel : ℕ) (b : Block) : Prop :=
  b.All (fun _ => True) Stmt.Printable ∧ sizeOf b ≤ fuel

/-- A block is printed after a blank, and what follows it stands in its line or not. -/
def Block.Prints (b : Block) : Prop :=
  b.All Expr.Formed Stmt.Formed → ∀ fuel h v k more, b.Shows h v →
    Yields (b.Printable fuel) (substmt (unparse fuel) v (indentation k) more) (h, false)
      (some (render (.space :: b.layout k ++ [if more then .space else eol]))) (h, false)

theorem Block.Shows.hasType {b : Block} {h : JSHeap} {v : Value} (hv : b.Shows h v) :
    HasType h v "BlockStatement" := by
  obtain ⟨body⟩ := b
  exact hv.1

/-- Functions with both kinds of bodies are put in parentheses alike. -/
theorem yields_exprFunc {P : Prop} {h : JSHeap} {v : Value} {k m c : ℕ} {n : Bool}
    {id : Option JSString} {names : List JSString} {closure : Bool} {ps : List Piece}
    (hhead : ShowsHead h v id names closure) (hformed : FunctionHead.Formed id names)
    (hfuel : P → 0 < m) (hbody : Has h v "body" fun w => ShowsBody P h m k w (render ps) closure) :
    Yields P (exprFunc (unparse m) v (indentation k) c n) (h, false)
      (some (render (wrapIf (3 ≤ c) (functionHead id names ++ ps)))) (h, false) := by
  have hdeclaration := yields_functionDeclaration hhead hformed hfuel hbody
  obtain ⟨htype, ⟨x, hx, hid⟩, hparams, hclosure⟩ := hhead
  have hcall : Yields P (functionDeclaration (unparse m) (lit "function") x v (indentation k))
      (h, false) (some (render (functionHead id names) ++ render ps)) (h, false) := by
    have hprop : prop v "id" (h, false) = .ok x (h, false) := reads_ok hx
    refine ⟨fun hp => ?_, fun b s hb => hdeclaration.2 b s ?_⟩
    · have hok := hdeclaration.1 hp
      rwa [bind_ok hprop] at hok
    · rwa [bind_ok hprop]
  exact .prop hx (.bind hcall (.toObj hclosure (yields_wrapExpr (by rw [render_append]))))

theorem Expr.prints_function (id : Option JSString) (params : List JSString) (body : Block)
    (h : body.Prints) : (Expr.function id params body).Prints := by
  intro hall _ fuel heap v k c n hv
  rw [Expr.All] at hall
  obtain ⟨hhead, w, hw, hshows⟩ := hv
  refine yields_expr (f := exprFunc) (fun p => by simp [exprHandlers]) hhead.1
    Expr.Printable.fuel fun m hm => ?_
  subst hm
  have hP : (Expr.function id params body).Printable (m + 1) → 0 < m ∧ body.Printable m := by
    rintro ⟨hprintable, hsize⟩
    rw [Expr.All] at hprintable
    have hpos : 0 < sizeOf body := Nat.pos_of_ne_zero (by cases body; simp)
    simp at hsize
    exact ⟨by omega, hprintable.2, by omega⟩
  have hbody : ShowsBody ((Expr.function id params body).Printable (m + 1)) heap m k w
      (render (.space :: body.layout k ++ [eol])) false := by
    have hprints := h hall.2 m heap w k false hshows
    rw [← hshows.hasType.valueToObject] at hprints
    exact hprints.mono fun hp => (hP hp).2
  have hfunc := yields_exprFunc (n := n) (c := c) hhead hall.1.1 (fun hp => (hP hp).1)
    ⟨w, hw, hbody⟩
  rw [Expr.layout]
  simpa using hfunc

theorem Expr.prints_closure (id : Option JSString) (params : List JSString) (body : Expr)
    (h : body.Prints) : (Expr.closure id params body).Prints := by
  intro hall _ fuel heap v k c n hv
  rw [Expr.All] at hall
  obtain ⟨hhead, w, hw, hshows⟩ := hv
  refine yields_expr (f := exprFunc) (fun p => by simp [exprHandlers]) hhead.1
    Expr.Printable.fuel fun m hm => ?_
  subst hm
  have hP : (Expr.closure id params body).Printable (m + 1) → 0 < m ∧ body.Printable m := by
    rintro ⟨hprintable, hsize⟩
    rw [Expr.All] at hprintable
    simp at hsize
    have hpos := Expr.Printable.fuel ⟨hprintable.2, le_refl (sizeOf body)⟩
    exact ⟨by omega, hprintable.2, by omega⟩
  have hbody : ShowsBody ((Expr.closure id params body).Printable (m + 1)) heap m k w
      (render (.space :: wrapIf (startsLikeBlock (body.layout k 2 false)) (body.layout k 2 false)))
      true := by
    refine ⟨render (body.layout k 2 false), ?_, ?_⟩
    · obtain ⟨type, htype⟩ := hshows.hasType hall.1.2
      rw [htype.valueToObject]
      exact (h hall.2 hall.1.2 m heap w k 2 false hshows).mono fun hp => (hP hp).2
    · -- whether the text starts with a brace is seen from the pieces
      have hbrace := (body.layout_begins k 2 false hall.2 hall.1.2).startsLikeBlock
      rw [← hbrace]
      by_cases hhead : (render (body.layout k 2 false)).head? = some 123 <;>
        simp [wrapIf, parens, hhead, render_cons, render_append] <;> rfl
  have hfunc := yields_exprFunc (n := n) (c := c) hhead hall.1.1 (fun hp => (hP hp).1)
    ⟨w, hw, hbody⟩
  rw [Expr.layout]
  simpa using hfunc

/-! ### Statements -/

def Stmt.PrintableIn (fuel : ℕ) (s : Stmt) : Prop :=
  s.All (fun _ => True) Stmt.Printable ∧ sizeOf s ≤ fuel

def Stmt.Prints (s : Stmt) : Prop :=
  s.All Expr.Formed Stmt.Formed → ∀ fuel h v k, s.Shows h v →
    Yields (s.PrintableIn fuel) ((unparse fuel).sourceElement v (indentation k)) (h, false)
      (some (render (s.layout k))) (h, false)

theorem stmtHandlers_nodup (p : Printer) :
    ((stmtHandlers p).map fun e => encodeString (js e.1)).Nodup := by
  simp only [stmtHandlers, List.map_cons, List.map_nil]
  decide

theorem yields_stmt {P : Prop} {h : JSHeap} {b : Bool} {v : Value} {type : String} {indent : Text}
    {fuel : ℕ} {t : Text} {s : JSHeap × Bool} (f : Printer → Value → Text → Print Text)
    (hmem : ∀ p, (type, f p) ∈ stmtHandlers p) (hv : HasType h v type) (hfuel : P → 0 < fuel)
    (hf : ∀ m, fuel = m + 1 → Yields P (f (unparse m) v indent) (h, b) t s) :
    Yields P ((unparse fuel).sourceElement v indent) (h, b) t s := by
  cases fuel with
  | zero =>
      exact .of_error (show _ = EStateM.Result.error Fault.crash (h, b) from rfl)
        fun hP => absurd (hfuel hP) (by simp)
  | succ m =>
      refine .toStr hv ?_
      rw [find?_of_mem (stmtHandlers_nodup _) (hmem _)]
      exact hf m rfl

theorem Stmt.PrintableIn.fuel {s : Stmt} {fuel : ℕ} (h : s.PrintableIn fuel) : 0 < fuel := by
  have hpos : 0 < sizeOf s := Nat.pos_of_ne_zero (by cases s <;> simp)
  have hsize := h.2
  omega

def Stmt.isBlock : Stmt → Bool
  | block _ => true
  | _ => false

theorem Stmt.Shows.hasType {s : Stmt} {h : JSHeap} {v : Value} (hv : s.Shows h v) :
    ∃ type, HasType h v type ∧ equals (js type) "BlockStatement" = s.isBlock := by
  cases s with
  | empty => exact ⟨_, hv, rfl⟩
  | debugger => exact ⟨_, hv, rfl⟩
  | ifStmt test consequent alternate =>
      cases alternate <;> exact ⟨_, hv.1, rfl⟩
  | _ => exact ⟨_, hv.1, rfl⟩

theorem render_spaces_add (k n : ℕ) :
    render (spaces (k + n)) = render (spaces k) ++ render (spaces n) := by
  rw [spaces, List.replicate_add]
  exact render_append _ _

theorem lit_fourSpaces : lit "    " = indentation 4 := rfl

theorem lit_empty : lit "" = indentation 0 := rfl

theorem deeper (k : ℕ) :
    joinStrings [some (render (spaces k)), lit "    "] = indentation (k + 4) := by
  rw [indentation, render_spaces_add, lit_fourSpaces]
  simp [joinStrings, indentation]

theorem spaces_length (k : ℕ) : (render (spaces k)).length = k := by
  induction k with
  | zero => rfl
  | succ k ih =>
      rw [render_spaces_add, List.length_append, ih]
      rfl

/-- A block begins with its indentation and ends with a line break. -/
theorem Stmt.substmt_block (k : ℕ) (more : Bool) (body : List Stmt) :
    render ((Stmt.block body).substmt k more) =
      if more then js " " ++ ((render ((Stmt.block body).layout k)).drop k).dropLast ++ js " "
      else js " " ++ (render ((Stmt.block body).layout k)).drop k := by
  have hlayout : render ((Stmt.block body).layout k) = render (spaces k) ++
      (render ([punct .lc, eol] ++ (body.map fun s => s.layout 4).flatten ++ spaces k ++
        [punct .rc]) ++ js "\n") := by
    rw [Stmt.layout]
    simp [render_append]
  have hdrop : (render ((Stmt.block body).layout k)).drop k =
      render ([punct .lc, eol] ++ (body.map fun s => s.layout 4).flatten ++ spaces k ++
        [punct .rc]) ++ js "\n" := by
    rw [hlayout]
    exact List.drop_left' (spaces_length k)
  have hlast : ∀ t : JSString, (t ++ js "\n").dropLast = t := fun t => List.dropLast_concat
  rw [hdrop, hlast, Stmt.substmt]
  cases more <;> simp [render_append]

theorem Stmt.substmt_other {s : Stmt} (hs : s.isBlock = false) (k : ℕ) (more : Bool) :
    s.substmt k more = eol :: s.layout (k + 4) ++ if more then spaces (k + 4) else [] := by
  cases s with
  | block body => cases hs
  | _ =>
      rw [Stmt.substmt]
      simp

/-- A call that prints a statement behind its head. -/
theorem Stmt.Prints.substmt {P : Prop} {s : Stmt} {h : JSHeap} {w : Value} {k m : ℕ}
    (hs : s.Prints) (more : Bool) (hall : s.All Expr.Formed Stmt.Formed) (hw : s.Shows h w)
    (hP : P → s.PrintableIn m) :
    Yields P (Unparse.substmt (unparse m) (valueToObject w) (indentation k) more) (h, false)
      (some (render (s.substmt k more))) (h, false) := by
  obtain ⟨type, htype, hblock⟩ := hw.hasType
  rw [htype.valueToObject]
  refine .toStr htype ?_
  rw [hblock]
  cases hisBlock : s.isBlock with
  | true =>
      cases s with
      | block body =>
          refine .bind ((hs hall m h w k hw).mono hP) (.deref (.deref ?_))
          rw [Stmt.substmt_block, spaces_length]
          cases more
          · simp [joinStrings_eq]
            exact .pure _
          · simp [joinStrings_eq]
            exact .pure _
      | _ => cases hisBlock
  | false =>
      simp only [Bool.false_eq_true, if_false]
      refine .deref ?_
      rw [deeper, Stmt.substmt_other hisBlock]
      refine .bind ((hs hall m h w (k + 4) hw).mono hP) ?_
      cases more
      · simp [joinStrings_eq]
        exact .pure _
      · simp [joinStrings_eq, render_append, indentation]
        exact .pure _

section

variable {P : Prop} {s : JSHeap × Bool} {strs : List Text} {ps : List Piece}

/-- The end of a handler that joins a vector. -/
theorem yields_joinAs (hne : strs ≠ []) (hsolid : Solid strs) (ht : textOf strs = render ps) :
    Yields P (joinVector strs) s (some (render ps)) s :=
  ht ▸ yields_joinVector hne hsolid

/-- The end of a handler that joins its texts. -/
theorem yields_pureJoin (ht : textOf strs = render ps) :
    Yields P (pure (joinStrings strs)) s (some (render ps)) s :=
  ht ▸ .pure _

end

theorem js_endLine : js ";\n" = js ";" ++ js "\n" := rfl

theorem js_ifOpen : js "if (" = js "if" ++ js " " ++ js "(" := rfl

theorem js_whileOpen : js "while (" = js "while" ++ js " " ++ js "(" := rfl

theorem js_varOpen : js "var (" = js "var" ++ js " " ++ js "(" := rfl

theorem js_forOpen : js "for (" = js "for" ++ js " " ++ js "(" := rfl

theorem textOf_map_render {α : Type} (f : α → List Piece) (xs : List α) :
    textOf (xs.map fun x => some (render (f x))) = render (xs.map f).flatten := by
  induction xs with
  | nil => rfl
  | cons x xs ih => simp [ih, render_append]

theorem yields_stmts {P : Prop} {h : JSHeap} {arr : Value} {ws : List Value} {m : ℕ} {k : ℕ}
    {ss : List Stmt} (hws : arrayElems? h arr = some ws) (hshows : showsStmts h ss ws)
    (hprints : ∀ s ∈ ss, s.Prints) (hall : ∀ s ∈ ss, s.All Expr.Formed Stmt.Formed)
    (hP : P → ∀ s ∈ ss, s.PrintableIn m) :
    Yields P (unparseValues arr fun nodeObj => (unparse m).sourceElement nodeObj (indentation k))
      (h, false) (ss.map fun s => some (render (s.layout k))) (h, false) :=
  yields_values (t := fun s : Stmt => some (render (s.layout k))) hws
    (showsStmts_forall₂ hshows) fun s hs w hw => by
      obtain ⟨type, htype, -⟩ := hw.hasType
      exact ⟨htype.ref, (hprints s hs (hall s hs) m h w k hw).mono fun hp => hP hp s hs⟩

/-- The statements of a block, without a text where there are none. -/
def stmtsText (k : ℕ) (ss : List Stmt) : Text :=
  if ss.isEmpty then none else some (render (ss.map fun s => s.layout k).flatten)

theorem stmtsText_getD (k : ℕ) (ss : List Stmt) :
    (stmtsText k ss).getD [] = render (ss.map fun s => s.layout k).flatten := by
  cases ss <;> rfl

theorem yields_joinStmts {P : Prop} {s : JSHeap × Bool} (k : ℕ) (ss : List Stmt) :
    Yields P (joinVector (ss.map fun s => some (render (s.layout k)))) s (stmtsText k ss) s := by
  cases ss with
  | nil => exact .pure none
  | cons t ss =>
      have hjoin := yields_joinVector (P := P) (s := s)
        (show ((t :: ss).map fun s => some (render (s.layout k))) ≠ [] by simp)
        (by simp [Solid])
      rwa [textOf_map_render] at hjoin

theorem Stmt.prints_block (body : List Stmt) (h : ∀ s ∈ body, s.Prints) :
    (Stmt.block body).Prints := by
  intro hall fuel heap v k hv
  rw [Stmt.All] at hall
  obtain ⟨htype, w, hw, ws, hws, hshows⟩ := hv
  refine yields_stmt (f := stmtBlock) (fun p => by simp [stmtHandlers]) htype
    Stmt.PrintableIn.fuel fun m hm => ?_
  subst hm
  have hP : (Stmt.block body).PrintableIn (m + 1) → ∀ s ∈ body, s.PrintableIn m := by
    rintro ⟨hprintable, hsize⟩ s hs
    rw [Stmt.All] at hprintable
    have hlt := List.sizeOf_lt_of_mem hs
    simp at hsize
    exact ⟨hprintable.2 s hs, by omega⟩
  obtain ⟨a, rfl, -⟩ := arrayElems?_ref hws
  refine .toObj hw ?_
  rw [lit_fourSpaces]
  refine .bind (yields_stmts hws hshows h hall.2 hP)
    (.bind (yields_joinStmts 4 body) (.deref ?_))
  rw [Stmt.layout]
  have htext : joinStrings [some (render (spaces k)), lit "\x7b", lit "\n", stmtsText 4 body,
      some (render (spaces k)), lit "\x7d", lit "\n"] =
      some (render (spaces k ++ [punct .lc, eol] ++ (body.map fun s => s.layout 4).flatten ++
        spaces k ++ [punct .rc, eol])) := by
    simp [joinStrings, stmtsText_getD, render_append, lit, Punct.text]
  rw [htext]
  exact .pure _

theorem Block.prints (body : List Stmt) (h : ∀ s ∈ body, s.Prints) : (Block.mk body).Prints := by
  intro hall fuel heap v k more hv
  rw [Block.All] at hall
  have hshows : (Stmt.block body).Shows heap v := hv
  have hallBlock : (Stmt.block body).All Expr.Formed Stmt.Formed := by
    rw [Stmt.All]
    exact ⟨trivial, hall⟩
  have hsub := (Stmt.prints_block body h).substmt (P := (Block.mk body).Printable fuel) (k := k)
    (m := fuel) more hallBlock hshows fun ⟨hprintable, hsize⟩ => by
      rw [Block.All] at hprintable
      refine ⟨?_, by simpa using hsize⟩
      rw [Stmt.All]
      exact ⟨trivial, hprintable⟩
  rw [Stmt.substmt, hv.hasType.valueToObject] at hsub
  rw [Block.layout]
  cases more <;> simpa [render_append] using hsub

theorem Stmt.prints_declaration (kind : VarDeclKind) (ds : List Declarator)
    (h : ∀ d ∈ ds, d.Prints) : (Stmt.declaration kind ds).Prints := by
  intro hall fuel heap v k hv
  rw [Stmt.All] at hall
  obtain ⟨htype, hkind, w, hw, ws, hws, hshows⟩ := hv
  refine yields_stmt (f := stmtVariableDeclaration) (fun p => by simp [stmtHandlers]) htype
    Stmt.PrintableIn.fuel fun m hm => ?_
  subst hm
  have hP : (Stmt.declaration kind ds).PrintableIn (m + 1) → ∀ d ∈ ds, d.Printable m := by
    rintro ⟨hprintable, hsize⟩ d hd
    rw [Stmt.All] at hprintable
    have hlt := List.sizeOf_lt_of_mem hd
    simp at hsize
    exact ⟨hprintable.2 d hd, by omega⟩
  obtain ⟨a, rfl, -⟩ := arrayElems?_ref hws
  refine .toStr hkind (.toObj hw (.bind (yields_declarators hws hshows h hall.2 hall.1 hP)
    (.deref ?_)))
  rw [Stmt.layout]
  have hkeyword : kind.keyword.text = kind.text := by cases kind <;> rfl
  exact yields_pureJoin (by simp [js_endLine, hkeyword, render_append, Punct.text])

theorem Stmt.prints_empty : Stmt.empty.Prints := by
  intro _ fuel heap v k hv
  refine yields_stmt (f := fun _ => stmtEmpty) (fun p => by simp [stmtHandlers]) hv
    Stmt.PrintableIn.fuel fun m _ => .deref ?_
  rw [Stmt.layout]
  simp [joinStrings_eq, render_append, Punct.text]
  exact .pure _

theorem Stmt.prints_debugger : Stmt.debugger.Prints := by
  intro _ fuel heap v k hv
  refine yields_stmt (f := fun _ => stmtDebugger) (fun p => by simp [stmtHandlers]) hv
    Stmt.PrintableIn.fuel fun m _ => .deref ?_
  rw [Stmt.layout]
  have htext : js "debugger;" = js "debugger" ++ js ";" := rfl
  simp [joinStrings_eq, htext, render_append, Punct.text, Keyword.text]
  exact .pure _

theorem Stmt.prints_expression (e : Expr) (h : e.Prints) : (Stmt.expression e).Prints := by
  intro hall fuel heap v k hv
  rw [Stmt.All] at hall
  obtain ⟨htype, w, hw, hshows⟩ := hv
  refine yields_stmt (f := stmtExpression) (fun p => by simp [stmtHandlers]) htype
    Stmt.PrintableIn.fuel fun m hm => ?_
  subst hm
  have hP : (Stmt.expression e).PrintableIn (m + 1) → e.Printable m := by
    rintro ⟨hprintable, hsize⟩
    rw [Stmt.All] at hprintable
    simp at hsize
    exact ⟨hprintable.2, by omega⟩
  refine .toObj hw (h.step hall.2 hall.1 hshows hP (.deref (.deref ?_)))
  rw [(e.layout_begins k 0 false hall.2 hall.1).startsLikeStmt, Stmt.layout]
  cases startsLikeStmt (e.layout k 0 false) with
  | true =>
      exact yields_joinAs (by simp) (by simp)
        (by simp [wrapIf, js_endLine, render_append, Punct.text])
  | false =>
      exact yields_joinAs (by simp) (by simp)
        (by simp [wrapIf, js_endLine, render_append, Punct.text])

theorem Stmt.prints_letStmt (head : List Declarator) (body : Stmt) (hhead : ∀ d ∈ head, d.Prints)
    (hbody : body.Prints) : (Stmt.letStmt head body).Prints := by
  intro hall fuel heap v k hv
  rw [Stmt.All] at hall
  obtain ⟨htype, ⟨w₁, hw₁, ws, hws, hshows₁⟩, w₂, hw₂, hshows₂⟩ := hv
  refine yields_stmt (f := stmtLet) (fun p => by simp [stmtHandlers]) htype
    Stmt.PrintableIn.fuel fun m hm => ?_
  subst hm
  have hP : (Stmt.letStmt head body).PrintableIn (m + 1) →
      (∀ d ∈ head, d.Printable m) ∧ body.PrintableIn m := by
    rintro ⟨hprintable, hsize⟩
    rw [Stmt.All] at hprintable
    simp at hsize
    refine ⟨fun d hd => ⟨hprintable.2.1 d hd, ?_⟩, hprintable.2.2, by omega⟩
    have hlt := List.sizeOf_lt_of_mem hd
    omega
  obtain ⟨a, rfl, -⟩ := arrayElems?_ref hws
  refine .toObj hw₁ (.toObj hw₂ (.bind (yields_declarators hws hshows₁ hhead hall.2.1 hall.1.1
    fun hp => (hP hp).1) (.bind (hbody.substmt false hall.2.2 hshows₂ fun hp => (hP hp).2)
      (.deref ?_))))
  rw [Stmt.layout]
  exact yields_joinAs (by simp) (by simp)
    (by simp [js_varOpen, render_append, Keyword.text])

theorem Stmt.prints_if (test : Expr) (consequent : Stmt) (alternate : Option Stmt)
    (htest : test.Prints) (hconsequent : consequent.Prints)
    (halternate : ∀ s ∈ alternate, s.Prints) :
    (Stmt.ifStmt test consequent alternate).Prints := by
  intro hall fuel heap v k hv
  rw [Stmt.All] at hall
  have hP : ∀ m, (Stmt.ifStmt test consequent alternate).PrintableIn (m + 1) →
      test.Printable m ∧ consequent.PrintableIn m ∧ ∀ s ∈ alternate, s.PrintableIn m := by
    rintro m ⟨hprintable, hsize⟩
    rw [Stmt.All] at hprintable
    simp at hsize
    refine ⟨⟨hprintable.2.1, by omega⟩, ⟨hprintable.2.2.1, by omega⟩, fun s hs => ?_⟩
    refine ⟨hprintable.2.2.2 s hs, ?_⟩
    obtain rfl : alternate = some s := hs
    simp at hsize
    omega
  cases alternate with
  | none =>
      obtain ⟨htype, ⟨w₁, hw₁, hshows₁⟩, ⟨w₂, hw₂, hshows₂⟩, hnone⟩ := hv
      refine yields_stmt (f := stmtIf) (fun p => by simp [stmtHandlers]) htype
        Stmt.PrintableIn.fuel fun m hm => ?_
      subst hm
      refine .prop hnone (.require rfl (.toObj hw₁ (htest.step hall.2.1 hall.1.1 hshows₁
        (fun hp => (hP m hp).1) (.toObj hw₂ ?_))))
      refine .bind (hconsequent.substmt false hall.2.2.1 hshows₂ fun hp => (hP m hp).2.1)
        (.bind (.pure []) (.deref ?_))
      rw [Stmt.layout]
      exact yields_joinAs (by simp) (by simp) (by simp [js_ifOpen, render_append, Keyword.text])
  | some alternate =>
      obtain ⟨htype, ⟨w₁, hw₁, hshows₁⟩, ⟨w₂, hw₂, hshows₂⟩, w₃, hw₃, hshows₃⟩ := hv
      refine yields_stmt (f := stmtIf) (fun p => by simp [stmtHandlers]) htype
        Stmt.PrintableIn.fuel fun m hm => ?_
      subst hm
      obtain ⟨type, hwtype, -⟩ := hshows₃.hasType
      have hne : w₃ ≠ null := hwtype.ne_null
      refine .prop hw₃ ?_
      simp only [hne, ne_eq, not_false_eq_true, decide_true, if_true, Bool.not_true,
        Bool.false_or]
      refine .require hwtype.isObject (.toObj hw₁ (htest.step hall.2.1 hall.1.1 hshows₁
        (fun hp => (hP m hp).1) (.toObj hw₂ ?_)))
      refine .bind (hconsequent.substmt true hall.2.2.1 hshows₂ fun hp => (hP m hp).2.1)
        (.toObj hw₃ ?_)
      refine .bind ((halternate alternate rfl).substmt false (hall.2.2.2 alternate rfl)
        hshows₃ fun hp => (hP m hp).2.2 alternate rfl) (.bind (.pure _) (.deref ?_))
      rw [Stmt.layout]
      exact yields_joinAs (by simp) (by simp) (by simp [js_ifOpen, render_append, Keyword.text])

theorem Stmt.prints_while (test : Expr) (body : Stmt) (htest : test.Prints) (hbody : body.Prints) :
    (Stmt.whileStmt test body).Prints := by
  intro hall fuel heap v k hv
  rw [Stmt.All] at hall
  obtain ⟨htype, ⟨w₁, hw₁, hshows₁⟩, w₂, hw₂, hshows₂⟩ := hv
  refine yields_stmt (f := stmtWhile) (fun p => by simp [stmtHandlers]) htype
    Stmt.PrintableIn.fuel fun m hm => ?_
  subst hm
  have hP : (Stmt.whileStmt test body).PrintableIn (m + 1) →
      test.Printable m ∧ body.PrintableIn m := by
    rintro ⟨hprintable, hsize⟩
    rw [Stmt.All] at hprintable
    simp at hsize
    exact ⟨⟨hprintable.2.1, by omega⟩, hprintable.2.2, by omega⟩
  refine .toObj hw₁ (.toObj hw₂ (htest.step hall.2.1 hall.1.1 hshows₁ (fun hp => (hP hp).1) ?_))
  refine .bind (hbody.substmt false hall.2.2 hshows₂ fun hp => (hP hp).2) (.deref ?_)
  rw [Stmt.layout]
  exact yields_pureJoin (by simp [js_whileOpen, render_append, Keyword.text])

theorem Stmt.prints_doWhile (body : Stmt) (test : Expr) (hbody : body.Prints)
    (htest : test.Prints) : (Stmt.doWhile body test).Prints := by
  intro hall fuel heap v k hv
  rw [Stmt.All] at hall
  obtain ⟨htype, ⟨w₁, hw₁, hshows₁⟩, w₂, hw₂, hshows₂⟩ := hv
  refine yields_stmt (f := stmtDowhile) (fun p => by simp [stmtHandlers]) htype
    Stmt.PrintableIn.fuel fun m hm => ?_
  subst hm
  have hP : (Stmt.doWhile body test).PrintableIn (m + 1) →
      body.PrintableIn m ∧ test.Printable m := by
    rintro ⟨hprintable, hsize⟩
    rw [Stmt.All] at hprintable
    simp at hsize
    exact ⟨⟨hprintable.2.1, by omega⟩, hprintable.2.2, by omega⟩
  refine .toObj hw₁ (.bind (hbody.substmt true hall.2.1 hshows₁ fun hp => (hP hp).1)
    (.toObj hw₂ ?_))
  refine htest.step hall.2.2 hall.1.2 hshows₂ (fun hp => (hP hp).2) (.deref ?_)
  rw [Stmt.layout]
  exact yields_pureJoin (by simp [js_whileOpen, js_endLine, render_append, Keyword.text,
    Punct.text])

theorem Stmt.prints_with (object : Expr) (body : Stmt) (hobject : object.Prints)
    (hbody : body.Prints) : (Stmt.withStmt object body).Prints := by
  intro hall fuel heap v k hv
  rw [Stmt.All] at hall
  obtain ⟨htype, ⟨w₁, hw₁, hshows₁⟩, w₂, hw₂, hshows₂⟩ := hv
  refine yields_stmt (f := stmtWith) (fun p => by simp [stmtHandlers]) htype
    Stmt.PrintableIn.fuel fun m hm => ?_
  subst hm
  have hP : (Stmt.withStmt object body).PrintableIn (m + 1) →
      object.Printable m ∧ body.PrintableIn m := by
    rintro ⟨hprintable, hsize⟩
    rw [Stmt.All] at hprintable
    simp at hsize
    exact ⟨⟨hprintable.2.1, by omega⟩, hprintable.2.2, by omega⟩
  refine .toObj hw₁ (hobject.step hall.2.1 hall.1.1 hshows₁ (fun hp => (hP hp).1) (.toObj hw₂ ?_))
  refine .bind (hbody.substmt false hall.2.2 hshows₂ fun hp => (hP hp).2) (.deref ?_)
  rw [Stmt.layout]
  have htext : js "with (" = js "with" ++ js " " ++ js "(" := rfl
  exact yields_pureJoin (by simp [htext, render_append, Keyword.text, Punct.text])

theorem Stmt.prints_throw (argument : Expr) (h : argument.Prints) :
    (Stmt.throwStmt argument).Prints := by
  intro hall fuel heap v k hv
  rw [Stmt.All] at hall
  obtain ⟨htype, w, hw, hshows⟩ := hv
  refine yields_stmt (f := stmtThrow) (fun p => by simp [stmtHandlers]) htype
    Stmt.PrintableIn.fuel fun m hm => ?_
  subst hm
  have hP : (Stmt.throwStmt argument).PrintableIn (m + 1) → argument.Printable m := by
    rintro ⟨hprintable, hsize⟩
    rw [Stmt.All] at hprintable
    simp at hsize
    exact ⟨hprintable.2, by omega⟩
  refine .toObj hw (h.step hall.2 hall.1 hshows hP (.deref ?_))
  rw [Stmt.layout]
  have htext : js "throw " = js "throw" ++ js " " := rfl
  exact yields_pureJoin (by simp [htext, js_endLine, render_append, Keyword.text, Punct.text])

/-- An expression that may be missing, with its lead, and what follows it. -/
theorem yields_optional {α : Type} {P : Prop} {o : Option Expr} {h : JSHeap} {b : Bool} {w : Value}
    {k c m : ℕ} {n : Bool} (lead : List Piece) (leadStrs : List Text) {f : List Text → Print α}
    {a : α} (ho : ∀ e ∈ o, e.Prints) (hall : ∀ e ∈ o, e.All Expr.Formed Stmt.Formed)
    (helision : ∀ e ∈ o, e.isElision = false) (hw : showsOptional h o w)
    (hP : P → ∀ e ∈ o, e.Printable m) (hlead : textOf leadStrs = render lead)
    (hsolid : Solid leadStrs)
    (hf : ∀ strs, Solid strs → textOf strs = render (optionalLayout lead k c n o) →
      Yields P (f strs) (h, false) a (h, b)) :
    Yields P (if isObject w then do
        let exprStr ← (unparse m).expr (valueToObject w) (indentation k) c n
        let strs ← pure (leadStrs ++ [exprStr])
        f strs
      else do
        let strs ← pure []
        f strs) (h, false) a (h, b) := by
  cases o with
  | none =>
      obtain rfl : w = null := hw
      exact .bind (.pure []) (hf [] solid_nil (by rw [optionalLayout]; rfl))
  | some e =>
      obtain ⟨type, htype⟩ := Expr.Shows.hasType (helision e rfl) hw
      rw [htype.isObject]
      refine (ho e rfl).step (hall e rfl) (helision e rfl) hw (fun hp => hP hp e rfl) ?_
      refine .bind (.pure _) (hf _ (by simp [hsolid]) ?_)
      rw [optionalLayout]
      simp [hlead, render_append]

theorem Stmt.prints_return (argument : Option Expr) (h : ∀ e ∈ argument, e.Prints) :
    (Stmt.returnStmt argument).Prints := by
  intro hall fuel heap v k hv
  rw [Stmt.All] at hall
  obtain ⟨htype, w, hw, hshows⟩ := hv
  refine yields_stmt (f := stmtReturn) (fun p => by simp [stmtHandlers]) htype
    Stmt.PrintableIn.fuel fun m hm => ?_
  subst hm
  have hP : (Stmt.returnStmt argument).PrintableIn (m + 1) → ∀ e ∈ argument, e.Printable m := by
    rintro ⟨hprintable, hsize⟩ e rfl
    rw [Stmt.All] at hprintable
    simp at hsize
    exact ⟨hprintable.2 e rfl, by omega⟩
  refine .prop hw (yields_optional [.space] [lit " "] (f := fun arg => do
      let indent ← deref (indentation k)
      joinVector ([some indent, lit "return"] ++ arg ++ [lit ";\n"])) h hall.2 hall.1 hshows hP
    (by simp) (by simp) fun strs hsolid htext => .deref ?_)
  rw [Stmt.layout]
  exact yields_joinAs (by simp) (by simp [hsolid])
    (by simp [htext, js_endLine, render_append, Keyword.text, Punct.text])

theorem yields_forPart {P : Prop} {o : Option Expr} {h : JSHeap} {v : Value} {k m : ℕ}
    {name : String} (ho : ∀ e ∈ o, e.Prints) (hall : ∀ e ∈ o, e.All Expr.Formed Stmt.Formed)
    (helision : ∀ e ∈ o, e.isElision = false) (hw : Has h v name fun w => showsOptional h o w)
    (hP : P → ∀ e ∈ o, e.Printable m) :
    ∃ strs, Solid strs ∧ textOf strs = render (optionalLayout [.space] k 0 false o) ∧
      Yields P (forPart (unparse m) v name (indentation k)) (h, false) strs (h, false) := by
  obtain ⟨w, hprop, hshows⟩ := hw
  cases o with
  | none =>
      obtain rfl : w = null := hshows
      refine ⟨[], solid_nil, by rw [optionalLayout]; rfl, ?_⟩
      exact .prop hprop (.pure [])
  | some e =>
      have hshows' : e.Shows h w := hshows
      obtain ⟨type, htype⟩ := hshows'.hasType (helision e rfl)
      refine ⟨[lit " ", some (render (e.layout k 0 false))], by simp, ?_, .prop hprop ?_⟩
      · rw [optionalLayout]
        simp
      · rw [htype.isObject]
        exact (ho e rfl).step (hall e rfl) (helision e rfl) hshows' (fun hp => hP hp e rfl)
          (.pure _)

/-- The part of `stmt_for` behind the first semicolon. -/
theorem yields_forRest {P : Prop} {test update : Option Expr} {body : Stmt} {h : JSHeap}
    {v : Value} {k m : ℕ} {init : List Text} {ps : List Piece}
    (ht : ∀ e ∈ test, e.Prints) (hu : ∀ e ∈ update, e.Prints) (hb : body.Prints)
    (hallTest : ∀ e ∈ test, e.All Expr.Formed Stmt.Formed)
    (hallUpdate : ∀ e ∈ update, e.All Expr.Formed Stmt.Formed)
    (hallBody : body.All Expr.Formed Stmt.Formed)
    (htest : ∀ e ∈ test, e.isElision = false) (hupdate : ∀ e ∈ update, e.isElision = false)
    (hw₁ : Has h v "test" fun w => showsOptional h test w)
    (hw₂ : Has h v "update" fun w => showsOptional h update w)
    (hw₃ : Has h v "body" fun w => body.Shows h w)
    (hPtest : P → ∀ e ∈ test, e.Printable m) (hPupdate : P → ∀ e ∈ update, e.Printable m)
    (hPbody : P → body.PrintableIn m) (hinit : textOf init = render ps) (hsolid : Solid init) :
    Yields P (do
        let test ← forPart (unparse m) v "test" (indentation k)
        let update ← forPart (unparse m) v "update" (indentation k)
        let bodyObj ← toObj v "body"
        let forBodyStr ← substmt (unparse m) bodyObj (indentation k) false
        joinVector ([lit "for ("] ++ init ++ [lit ";"] ++ test ++ [lit ";"] ++ update ++
          [lit ")", forBodyStr])) (h, false)
      (some (render ([keyword .for, .space, punct .lp] ++ ps ++ [punct .semi] ++
        optionalLayout [.space] k 0 false test ++ [punct .semi] ++
        optionalLayout [.space] k 0 false update ++ [punct .rp] ++
        body.substmt k false))) (h, false) := by
  obtain ⟨tests, htests, htextTest, hyieldsTest⟩ :=
    yields_forPart (k := k) ht hallTest htest hw₁ hPtest
  obtain ⟨updates, hupdates, htextUpdate, hyieldsUpdate⟩ :=
    yields_forPart (k := k) hu hallUpdate hupdate hw₂ hPupdate
  obtain ⟨w, hw, hshows⟩ := hw₃
  refine .bind hyieldsTest (.bind hyieldsUpdate (.toObj hw
    (.bind (hb.substmt false hallBody hshows hPbody) ?_)))
  exact yields_joinAs (by simp) (by simp [hsolid, htests, hupdates])
    (by simp [js_forOpen, hinit, htextTest, htextUpdate, render_append, Keyword.text, Punct.text])

theorem Expr.Shows.notDeclaration {e : Expr} {h : JSHeap} {v : Value} (he : e.isElision = false)
    (hv : e.Shows h v) :
    ∃ type, HasType h v type ∧ equals (js type) "VariableDeclaration" = false := by
  cases e with
  | elision => simp [Expr.isElision] at he
  | identifier name => exact ⟨_, hv.1, rfl⟩
  | thisExpr => exact ⟨_, hv, rfl⟩
  | function id params body => exact ⟨_, hv.1.1, rfl⟩
  | closure id params body => exact ⟨_, hv.1.1, rfl⟩
  | binary op left right => exact ⟨_, hv.1, by cases op <;> rfl⟩
  | _ => exact ⟨_, hv.1, rfl⟩

theorem Stmt.prints_for (init test update : Option Expr) (body : Stmt)
    (hi : ∀ e ∈ init, e.Prints) (ht : ∀ e ∈ test, e.Prints) (hu : ∀ e ∈ update, e.Prints)
    (hb : body.Prints) : (Stmt.forStmt init test update body).Prints := by
  intro hall fuel heap v k hv
  rw [Stmt.All] at hall
  obtain ⟨⟨hinit, htest, hupdate, -⟩, hallInit, hallTest, hallUpdate, hallBody⟩ := hall
  obtain ⟨htype, ⟨w, hw, hshows⟩, hw₁, hw₂, hw₃⟩ := hv
  refine yields_stmt (f := stmtFor) (fun p => by simp [stmtHandlers]) htype
    Stmt.PrintableIn.fuel fun m hm => ?_
  subst hm
  have hP : (Stmt.forStmt init test update body).PrintableIn (m + 1) →
      ((∀ e ∈ init, e.Printable m) ∧ (∀ e ∈ test, e.Printable m) ∧
        ∀ e ∈ update, e.Printable m) ∧ body.PrintableIn m := by
    rintro ⟨hprintable, hsize⟩
    rw [Stmt.All] at hprintable
    simp at hsize
    refine ⟨⟨fun e he => ⟨hprintable.2.1 e he, ?_⟩, fun e he => ⟨hprintable.2.2.1 e he, ?_⟩,
      fun e he => ⟨hprintable.2.2.2.1 e he, ?_⟩⟩, hprintable.2.2.2.2, by omega⟩
    · obtain rfl : init = some e := he
      simp at hsize
      omega
    · obtain rfl : test = some e := he
      simp at hsize
      omega
    · obtain rfl : update = some e := he
      simp at hsize
      omega
  refine .prop hw ?_
  rw [Stmt.layout]
  cases init with
  | none =>
      obtain rfl : w = null := hshows
      refine .bind (.pure []) (yields_forRest ht hu hb hallTest hallUpdate hallBody htest hupdate
        hw₁ hw₂ hw₃ (fun hp => (hP hp).1.2.1) (fun hp => (hP hp).1.2.2) (fun hp => (hP hp).2) ?_
        solid_nil)
      rw [optionalLayout]
      rfl
  | some e =>
      have hshows' : e.Shows heap w := hshows
      obtain ⟨type, hwtype, hother⟩ := hshows'.notDeclaration (hinit e rfl)
      have htypeStr : getProperty heap (valueToObject w) "type" = .ok (string (js type)) := by
        rw [hwtype.valueToObject]
        exact hwtype
      rw [hwtype.isObject]
      refine .toStr htypeStr ?_
      simp only [hother, Bool.false_eq_true, if_false]
      refine (hi e rfl).step (hallInit e rfl) (hinit e rfl) hshows' (fun hp => (hP hp).1.1 e rfl)
        (.bind (.pure _) (yields_forRest ht hu hb hallTest hallUpdate hallBody htest hupdate
        hw₁ hw₂ hw₃ (fun hp => (hP hp).1.2.1) (fun hp => (hP hp).1.2.2) (fun hp => (hP hp).2) ?_
        (by simp)))
      rw [optionalLayout]
      simp

theorem Stmt.prints_forDecl (kind : VarDeclKind) (ds : List Declarator)
    (test update : Option Expr) (body : Stmt) (hd : ∀ d ∈ ds, d.Prints)
    (ht : ∀ e ∈ test, e.Prints) (hu : ∀ e ∈ update, e.Prints) (hb : body.Prints) :
    (Stmt.forDecl kind ds test update body).Prints := by
  intro hall fuel heap v k hv
  rw [Stmt.All] at hall
  obtain ⟨⟨-, hds, htest, hupdate, -⟩, hallDs, hallTest, hallUpdate, hallBody⟩ := hall
  obtain ⟨htype, ⟨w, hw, hwtype, hkind, x, hx, ws, hws, hshows⟩, hw₁, hw₂, hw₃⟩ := hv
  refine yields_stmt (f := stmtFor) (fun p => by simp [stmtHandlers]) htype
    Stmt.PrintableIn.fuel fun m hm => ?_
  subst hm
  have hP : (Stmt.forDecl kind ds test update body).PrintableIn (m + 1) →
      ((∀ d ∈ ds, d.Printable m) ∧ (∀ e ∈ test, e.Printable m) ∧
        ∀ e ∈ update, e.Printable m) ∧ body.PrintableIn m := by
    rintro ⟨hprintable, hsize⟩
    rw [Stmt.All] at hprintable
    simp at hsize
    refine ⟨⟨fun d hd => ⟨hprintable.2.1 d hd, ?_⟩, fun e he => ⟨hprintable.2.2.1 e he, ?_⟩,
      fun e he => ⟨hprintable.2.2.2.1 e he, ?_⟩⟩, hprintable.2.2.2.2, by omega⟩
    · have hlt := List.sizeOf_lt_of_mem hd
      omega
    · obtain rfl : test = some e := he
      simp at hsize
      omega
    · obtain rfl : update = some e := he
      simp at hsize
      omega
  refine .prop hw ?_
  rw [Stmt.layout]
  obtain ⟨a, rfl, -⟩ := arrayElems?_ref hws
  have hvalue := hwtype.valueToObject
  rw [hwtype.isObject]
  rw [← hvalue] at hkind hx hwtype
  refine .toStr hwtype (.toStr hkind (.toObj hx (.bind (yields_declarators hws hshows hd hallDs hds
    fun hp => (hP hp).1.1) (.bind (.pure _) ?_))))
  have hkeyword : kind.keyword.text = kind.text := by cases kind <;> rfl
  have hrest := yields_forRest (k := k) (P := (Stmt.forDecl kind ds test update body).PrintableIn
      (m + 1))
    ht hu hb hallTest hallUpdate hallBody htest hupdate hw₁ hw₂ hw₃ (fun hp => (hP hp).1.2.1)
    (fun hp => (hP hp).1.2.2) (fun hp => (hP hp).2)
    (show textOf [some (js kind.text), lit " ", some _] =
        render ([keyword kind.keyword, .space] ++ separate [punct .comma, .space]
          (ds.map fun d => d.layout true)) by
      simp [hkeyword]
      rfl) (by simp)
  simpa using hrest

/-- The head of a `for` over an object, behind its left side. -/
theorem yields_forHeadRest {P : Prop} {each : Bool} {right : Expr} {h : JSHeap} {v : Value}
    {k m : ℕ} {lhs : JSString} {ps : List Piece} (hr : right.Prints)
    (hall : right.All Expr.Formed Stmt.Formed) (hright : right.isElision = false)
    (heach : getProperty h v "each" = .ok (boolean each))
    (hw : Has h v "right" fun w => right.Shows h w) (hP : P → right.Printable m)
    (hlhs : lhs = render ps) :
    Yields P (do
        let eachVal ← prop v "each"
        let each := if toBoolean eachVal then [lit "each"] else []
        let rightObj ← toObj v "right"
        let rightStr ← (unparse m).expr rightObj (indentation k) 0 false
        joinVector ([lit "for", lit " "] ++ each ++
          [lit "(", some lhs, lit " ", lit "in", lit " ", rightStr, lit ")"])) (h, false)
      (some (render ([keyword .for, .space] ++ (if each then [word (js "each")] else []) ++
        parens (ps ++ [.space, keyword .in, .space] ++ right.layout k 0 false)))) (h, false) := by
  obtain ⟨w, hprop, hshows⟩ := hw
  refine .prop heach (.toObj hprop (hr.step hall hright hshows hP ?_))
  cases each <;>
    exact yields_joinAs (by simp [toBoolean]) (by simp [toBoolean])
      (by simp [toBoolean, hlhs, render_append, Keyword.text])

/-- The end of `stmt_forin` -/
theorem yields_forInEnd {P : Prop} {body : Stmt} {h : JSHeap} {v : Value} {k m : ℕ}
    {ps qs : List Piece} (hb : body.Prints) (hall : body.All Expr.Formed Stmt.Formed)
    (hw : Has h v "body" fun w => body.Shows h w) (hP : P → body.PrintableIn m)
    (hqs : qs = spaces k ++ ps ++ body.substmt k false) :
    Yields P (do
        let bodyObj ← toObj v "body"
        let bodyStr ← substmt (unparse m) bodyObj (indentation k) false
        let indent ← deref (indentation k)
        pure (joinStrings [some indent, some (render ps), bodyStr])) (h, false)
      (some (render qs)) (h, false) := by
  subst hqs
  obtain ⟨w, hprop, hshows⟩ := hw
  refine .toObj hprop (.bind (hb.substmt false hall hshows hP) (.deref ?_))
  exact yields_pureJoin (by simp [render_append])

theorem Stmt.prints_forIn (each : Bool) (left right : Expr) (body : Stmt) (hl : left.Prints)
    (hr : right.Prints) (hb : body.Prints) : (Stmt.forIn each left right body).Prints := by
  intro hall fuel heap v k hv
  rw [Stmt.All] at hall
  obtain ⟨⟨hleft, hright, -⟩, hallLeft, hallRight, hallBody⟩ := hall
  obtain ⟨htype, heach, ⟨w, hw, hshows⟩, hw₂, hw₃⟩ := hv
  refine yields_stmt (f := stmtForin) (fun p => by simp [stmtHandlers]) htype
    Stmt.PrintableIn.fuel fun m hm => ?_
  subst hm
  have hP : (Stmt.forIn each left right body).PrintableIn (m + 1) →
      left.Printable m ∧ right.Printable m ∧ body.PrintableIn m := by
    rintro ⟨hprintable, hsize⟩
    rw [Stmt.All] at hprintable
    simp at hsize
    exact ⟨⟨hprintable.2.1, by omega⟩, ⟨hprintable.2.2.1, by omega⟩, hprintable.2.2.2, by omega⟩
  have helision := isElision_of_reference hleft
  obtain ⟨type, hwtype, hother⟩ := hshows.notDeclaration helision
  have htypeStr : getProperty heap (valueToObject w) "type" = .ok (string (js type)) := by
    rw [hwtype.valueToObject]
    exact hwtype
  rw [Stmt.layout]
  have hhead : Yields ((Stmt.forIn each left right body).PrintableIn (m + 1))
      (forHead (unparse m) v (indentation k)) (heap, false)
      (some (render ([keyword .for, .space] ++ (if each then [word (js "each")] else []) ++
        parens (left.layout k 0 false ++ [.space, keyword .in, .space] ++
          right.layout k 0 false)))) (heap, false) := by
    refine .toObj hw (.toStr htypeStr ?_)
    simp only [hother, Bool.false_eq_true, if_false]
    refine hl.step hallLeft helision hshows (fun hp => (hP hp).1) (.bind (.pure _)
      (.bind (yields_joinVector (by simp) (by simp)) ?_))
    exact yields_forHeadRest hr hallRight hright heach hw₂ (fun hp => (hP hp).2.1) (by simp)
  exact .bind hhead (yields_forInEnd hb hallBody hw₃ (fun hp => (hP hp).2.2) (by simp))

theorem Stmt.prints_forInDecl (each : Bool) (kind : VarDeclKind) (d : Declarator) (right : Expr)
    (body : Stmt) (hd : d.Prints) (hr : right.Prints) (hb : body.Prints) :
    (Stmt.forInDecl each kind d right body).Prints := by
  intro hall fuel heap v k hv
  rw [Stmt.All] at hall
  obtain ⟨⟨-, hdFormed, -, hright, -⟩, hallD, hallRight, hallBody⟩ := hall
  obtain ⟨htype, heach, ⟨w, hw, hwtype, hkind, x, hx, ws, hws, y, rfl, hshows⟩, hw₂, hw₃⟩ := hv
  refine yields_stmt (f := stmtForin) (fun p => by simp [stmtHandlers]) htype
    Stmt.PrintableIn.fuel fun m hm => ?_
  subst hm
  have hP : (Stmt.forInDecl each kind d right body).PrintableIn (m + 1) →
      d.Printable m ∧ right.Printable m ∧ body.PrintableIn m := by
    rintro ⟨hprintable, hsize⟩
    rw [Stmt.All] at hprintable
    simp at hsize
    exact ⟨⟨hprintable.2.1, by omega⟩, ⟨hprintable.2.2.1, by omega⟩, hprintable.2.2.2, by omega⟩
  rw [Stmt.layout]
  obtain ⟨a, rfl, -⟩ := arrayElems?_ref hws
  have hvalue := hwtype.valueToObject
  rw [← hvalue] at hkind hx hwtype
  have hkeyword : kind.keyword.text = kind.text := by cases kind <;> rfl
  have hdecls := yields_declarators (P := (Stmt.forInDecl each kind d right body).PrintableIn
      (m + 1)) (m := m) (n := true) hws
    (show showsDeclarators heap [d] _ from ⟨y, [], rfl, hshows, rfl⟩) (by simpa using hd)
    (by simpa using hallD) ⟨by simp, by simpa using hdFormed⟩ fun hp => by
      simpa using (hP hp).1
  have hhead : Yields ((Stmt.forInDecl each kind d right body).PrintableIn (m + 1))
      (forHead (unparse m) v (indentation k)) (heap, false)
      (some (render ([keyword .for, .space] ++ (if each then [word (js "each")] else []) ++
        parens ([keyword kind.keyword, .space] ++ d.layout true ++
          [.space, keyword .in, .space] ++ right.layout k 0 false)))) (heap, false) := by
    refine .toObj hw (.toStr hwtype (.toStr hkind (.toObj hx (.bind hdecls (.bind (.pure _)
      (.bind (yields_joinVector (by simp) (by simp)) ?_))))))
    exact yields_forHeadRest hr hallRight hright heach hw₂ (fun hp => (hP hp).2.1)
      (by simp [hkeyword, separate, List.intercalate_singleton])
  exact .bind hhead (yields_forInEnd hb hallBody hw₃ (fun hp => (hP hp).2.2) (by simp))

/-- There is no handler for a loop over values. -/
theorem yields_forOf {P : Prop} {h : JSHeap} {v : Value} {indent t : Text} {fuel : ℕ}
    (hv : HasType h v "ForOfStatement") (hP : ¬ P) :
    Yields P ((unparse fuel).sourceElement v indent) (h, false) t (h, false) := by
  cases fuel with
  | zero =>
      exact .of_error (show _ = EStateM.Result.error Fault.crash (h, false) from rfl) hP
  | succ m =>
      refine .toStr hv ?_
      have hnone : (stmtHandlers (unparse m)).find?
          (fun e => equalsChars (js "ForOfStatement") e.1) = none := by
        rw [List.find?_eq_none]
        simp only [stmtHandlers, List.forall_mem_cons]
        simp only [List.not_mem_nil, false_imp_iff, implies_true, and_true]
        decide
      rw [hnone]
      exact .of_error (show _ = EStateM.Result.error Fault.jsFalse (h, false) from rfl) hP

theorem Stmt.prints_forOf (left right : Expr) (body : Stmt) :
    (Stmt.forOf left right body).Prints := by
  intro _ fuel heap v k hv
  refine yields_forOf hv.1 fun hprintable => ?_
  have hall := hprintable.1
  rw [Stmt.All] at hall
  exact hall.1

theorem Stmt.prints_forOfDecl (kind : VarDeclKind) (d : Declarator) (right : Expr) (body : Stmt) :
    (Stmt.forOfDecl kind d right body).Prints := by
  intro _ fuel heap v k hv
  refine yields_forOf hv.1 fun hprintable => ?_
  have hall := hprintable.1
  rw [Stmt.All] at hall
  exact hall.1

theorem yields_jump {P : Prop} {h : JSHeap} {v : Value} {k : ℕ} {label : Option JSString}
    (kw : Keyword) (hw : Has h v "label" fun w => ShowsLabel h w label) :
    Yields P (stmtJump kw.text v (indentation k)) (h, false)
      (some (render (spaces k ++ jump kw label))) (h, false) := by
  obtain ⟨w, hprop, hshows⟩ := hw
  refine .prop hprop ?_
  cases label with
  | none =>
      obtain rfl : w = null := hshows
      refine .bind (.pure []) (.deref (yields_joinAs (by simp) (by simp) ?_))
      simp [jump, js_endLine, render_append, Punct.text]
  | some name =>
      have hname : ShowsName h w name := hshows
      rw [hname.1.isObject]
      have hvalue := hname.1.valueToObject
      refine .toStr (by rw [hvalue]; exact hname.2) (.bind (.pure _) (.deref
        (yields_joinAs (by simp) (by simp) ?_)))
      simp [jump, js_endLine, render_append, Punct.text]

theorem Stmt.prints_break (label : Option JSString) : (Stmt.breakStmt label).Prints := by
  intro _ fuel heap v k hv
  refine yields_stmt (f := fun _ => stmtBreak) (fun p => by simp [stmtHandlers]) hv.1
    Stmt.PrintableIn.fuel fun m _ => ?_
  rw [Stmt.layout]
  exact yields_jump .break hv.2

theorem Stmt.prints_continue (label : Option JSString) : (Stmt.continueStmt label).Prints := by
  intro _ fuel heap v k hv
  refine yields_stmt (f := fun _ => stmtContinue) (fun p => by simp [stmtHandlers]) hv.1
    Stmt.PrintableIn.fuel fun m _ => ?_
  rw [Stmt.layout]
  exact yields_jump .continue hv.2

theorem Stmt.prints_labeled (label : JSString) (body : Stmt) (h : body.Prints) :
    (Stmt.labeled label body).Prints := by
  intro hall fuel heap v k hv
  rw [Stmt.All] at hall
  obtain ⟨htype, ⟨w₁, hw₁, hname⟩, w₂, hw₂, hshows⟩ := hv
  refine yields_stmt (f := stmtLabeled) (fun p => by simp [stmtHandlers]) htype
    Stmt.PrintableIn.fuel fun m hm => ?_
  subst hm
  have hP : (Stmt.labeled label body).PrintableIn (m + 1) → body.PrintableIn m := by
    rintro ⟨hprintable, hsize⟩
    rw [Stmt.All] at hprintable
    simp at hsize
    exact ⟨hprintable.2, by omega⟩
  obtain ⟨type, hbodyType, -⟩ := hshows.hasType
  refine .toObj hw₁ (.toStr (by rw [hname.1.valueToObject]; exact hname.2) (.toObj hw₂ ?_))
  rw [hbodyType.valueToObject]
  refine .bind ((h hall.2 m heap w₂ k hshows).mono hP) ?_
  rw [Stmt.layout]
  have htext : js ": " = js ":" ++ js " " := rfl
  exact yields_pureJoin (by simp [htext, Punct.text])

/-! ### Cases and handlers -/

def SwitchCase.Printable (fuel : ℕ) (c : SwitchCase) : Prop :=
  c.All (fun _ => True) Stmt.Printable ∧ sizeOf c ≤ fuel

/-- The texts that `stmt_switch` collects of a case. -/
def SwitchCase.texts (k : ℕ) : SwitchCase → List Text
  | .mk none consequent =>
      [indentation k, lit "default", lit ":", lit "\n"] ++
        consequent.map fun s => some (render (s.layout (k + 4)))
  | .mk (some e) consequent =>
      [indentation k, lit "case", lit " ", some (render (e.layout k 0 false)), lit ":",
        lit "\n"] ++ consequent.map fun s => some (render (s.layout (k + 4)))

theorem SwitchCase.texts_solid (k : ℕ) (c : SwitchCase) : Solid (c.texts k) := by
  obtain ⟨test, consequent⟩ := c
  cases test <;> simp [SwitchCase.texts, Solid, indentation, lit]

theorem SwitchCase.textOf_texts (k : ℕ) (c : SwitchCase) :
    textOf (c.texts k) = render (c.layout k) := by
  obtain ⟨test, consequent⟩ := c
  cases test <;> rw [SwitchCase.layout] <;>
    simp [SwitchCase.texts, textOf_map_render, indentation, render_append, Keyword.text, Punct.text]

def SwitchCase.Prints (c : SwitchCase) : Prop :=
  c.All Expr.Formed Stmt.Formed → (∀ e ss, c = .mk (some e) ss → e.isElision = false) →
    ∀ fuel h v k, c.Shows h v →
      Yields (c.Printable fuel)
        (switchCase (unparse fuel) v (indentation k) (indentation (k + 4))) (h, false)
        (c.texts k) (h, false)

theorem mapIdx_const {α β : Type} (f : α → β) (xs : List α) :
    (xs.mapIdx fun _ x => f x) = xs.map f := by
  apply List.ext_getElem <;> simp

theorem yields_consequent {P : Prop} {h : JSHeap} {arr : Value} {ws : List Value} {m k : ℕ}
    {ss : List Stmt} (hws : arrayElems? h arr = some ws) (hshows : showsStmts h ss ws)
    (hprints : ∀ s ∈ ss, s.Prints) (hall : ∀ s ∈ ss, s.All Expr.Formed Stmt.Formed)
    (hP : P → ∀ s ∈ ss, s.PrintableIn m) :
    Yields P ((List.range ws.length).mapM fun j => do
        let stmtObj ← elementToObj arr j
        (unparse m).sourceElement stmtObj (indentation k)) (h, false)
      (ss.map fun s => some (render (s.layout k))) (h, false) := by
  have hyields := yields_elements (P := P) (i := false)
    (F := fun _ w => (unparse m).sourceElement w (indentation k))
    (G := fun _ s => some (render (s.layout k))) hws (showsStmts_forall₂ hshows)
    fun _ s hs w hw => by
      obtain ⟨type, htype, -⟩ := hw.hasType
      rw [htype.valueToObject]
      exact (hprints s hs (hall s hs) m h w k hw).mono fun hp => hP hp s hs
  rwa [mapIdx_const] at hyields

theorem SwitchCase.prints (test : Option Expr) (consequent : List Stmt)
    (ht : ∀ e ∈ test, e.Prints) (hs : ∀ s ∈ consequent, s.Prints) :
    (SwitchCase.mk test consequent).Prints := by
  intro hall helision fuel heap v k hv
  rw [SwitchCase.All] at hall
  obtain ⟨-, ⟨w₁, hw₁, hshows₁⟩, w₂, hw₂, ws, hws, hshows₂⟩ := hv
  have hP : (SwitchCase.mk test consequent).Printable fuel →
      (∀ e ∈ test, e.Printable fuel) ∧ ∀ s ∈ consequent, s.PrintableIn fuel := by
    rintro ⟨hprintable, hsize⟩
    rw [SwitchCase.All] at hprintable
    simp at hsize
    refine ⟨fun e he => ⟨hprintable.1 e he, ?_⟩, fun s hs => ⟨hprintable.2 s hs, ?_⟩⟩
    · obtain rfl : test = some e := he
      simp at hsize
      omega
    · have hlt := List.sizeOf_lt_of_mem hs
      omega
  obtain ⟨a, rfl, -⟩ := arrayElems?_ref hws
  have hstmts := yields_consequent (k := k + 4) hws hshows₂ hs hall.2 fun hp => (hP hp).2
  refine .prop hw₁ ?_
  cases test with
  | none =>
      obtain rfl : w₁ = null := hshows₁
      exact .bind (.pure _) (.toObj hw₂ (.arrayLength hws (.bind hstmts (.pure _))))
  | some e =>
      have hshows : e.Shows heap w₁ := hshows₁
      obtain ⟨type, hwtype⟩ := hshows.hasType (helision e _ rfl)
      rw [hwtype.isObject]
      exact (ht e rfl).step (hall.1 e rfl) (helision e _ rfl) hshows (fun hp => (hP hp).1 e rfl)
        (.bind (.pure _) (.toObj hw₂ (.arrayLength hws (.bind hstmts (.pure _)))))

theorem SwitchCase.Shows.hasType {c : SwitchCase} {h : JSHeap} {v : Value} (hv : c.Shows h v) :
    HasType h v "SwitchCase" := by
  obtain ⟨test, consequent⟩ := c
  exact hv.1

theorem Stmt.prints_switch (discriminant : Expr) (cases : List SwitchCase)
    (hd : discriminant.Prints) (hc : ∀ c ∈ cases, c.Prints) :
    (Stmt.switchStmt discriminant cases).Prints := by
  intro hall fuel heap v k hv
  rw [Stmt.All] at hall
  obtain ⟨⟨hdiscriminant, -, htests⟩, hallDiscriminant, hallCases⟩ := hall
  obtain ⟨htype, ⟨w₁, hw₁, hshows₁⟩, w₂, hw₂, ws, hws, hshows₂⟩ := hv
  refine yields_stmt (f := stmtSwitch) (fun p => by simp [stmtHandlers]) htype
    Stmt.PrintableIn.fuel fun m hm => ?_
  subst hm
  have hP : (Stmt.switchStmt discriminant cases).PrintableIn (m + 1) →
      discriminant.Printable m ∧ ∀ c ∈ cases, c.Printable m := by
    rintro ⟨hprintable, hsize⟩
    rw [Stmt.All] at hprintable
    simp at hsize
    refine ⟨⟨hprintable.2.1, by omega⟩, fun c hc => ⟨hprintable.2.2 c hc, ?_⟩⟩
    have hlt := List.sizeOf_lt_of_mem hc
    omega
  obtain ⟨a, rfl, -⟩ := arrayElems?_ref hws
  have hcases := yields_elements (P := (Stmt.switchStmt discriminant cases).PrintableIn (m + 1))
    (i := false) (F := fun _ w => switchCase (unparse m) w (indentation k) (indentation (k + 4)))
    (G := fun _ c => c.texts k) hws (showsCases_forall₂ hshows₂) fun _ c hmem w hw => by
      rw [hw.hasType.valueToObject]
      exact (hc c hmem (hallCases c hmem) (htests c hmem) m heap w k hw).mono
        fun hp => (hP hp).2 c hmem
  rw [mapIdx_const] at hcases
  refine .toObj hw₁ (hd.step hallDiscriminant hdiscriminant hshows₁ (fun hp => (hP hp).1)
    (.deref ?_))
  dsimp only
  rw [deeper]
  refine .toObj hw₂ (.arrayLength hws (.bind hcases ?_))
  have hsolid : Solid (cases.map fun c => c.texts k).flatten := by
    intro t ht
    simp only [List.mem_flatten, List.mem_map] at ht
    obtain ⟨ts, ⟨c, -, rfl⟩, ht⟩ := ht
    exact c.texts_solid k t ht
  have htext : textOf (cases.map fun c => c.texts k).flatten =
      render (cases.map fun c => c.layout k).flatten := by
    rw [textOf_flatten, List.map_map]
    clear hP hcases hsolid hc htests hallCases hshows₂
    induction cases with
    | nil => rfl
    | cons c cases ih => simp [SwitchCase.textOf_texts, ih, render_append]
  rw [Stmt.layout]
  exact yields_joinAs (by simp) (by simp [hsolid])
    (by simp [htext, render_append, Keyword.text, Punct.text])

/-- Of a handler the printer needs its body only. -/
def CatchClause.Prints : CatchClause → Prop
  | .mk _ _ body => body.Prints

theorem Stmt.prints_try (block : Block) (guarded : List CatchClause)
    (handler : Option CatchClause) (finalizer : Option Block) (hb : block.Prints)
    (hh : ∀ c ∈ handler, c.Prints) (hf : ∀ b ∈ finalizer, b.Prints) :
    (Stmt.tryStmt block guarded handler finalizer).Prints := by
  intro hall fuel heap v k hv
  rw [Stmt.All] at hall
  obtain ⟨⟨-, -, hhandler⟩, hallBlock, -, hallHandler, hallFinalizer⟩ := hall
  obtain ⟨htype, ⟨w₁, hw₁, hshows₁⟩, -, ⟨w₂, hw₂, hshows₂⟩, ⟨w₃, hw₃, hshows₃⟩, hguard⟩ := hv
  refine yields_stmt (f := stmtTry) (fun p => by simp [stmtHandlers]) htype
    Stmt.PrintableIn.fuel fun m hm => ?_
  subst hm
  have hP : (Stmt.tryStmt block guarded handler finalizer).PrintableIn (m + 1) →
      block.Printable m ∧ (∀ param guard body, handler = some (.mk param guard body) →
        0 < m ∧ body.Printable m) ∧ ∀ b ∈ finalizer, b.Printable m := by
    rintro ⟨hprintable, hsize⟩
    rw [Stmt.All] at hprintable
    obtain ⟨-, hblock, -, hprintableHandler, hprintableFinalizer⟩ := hprintable
    simp at hsize
    refine ⟨⟨hblock, by omega⟩, ?_, fun b hb => ⟨hprintableFinalizer b hb, ?_⟩⟩
    · rintro param guard body rfl
      have hclause := hprintableHandler _ rfl
      rw [CatchClause.All] at hclause
      simp at hsize
      exact ⟨by omega, hclause.2, by omega⟩
    · obtain rfl : finalizer = some b := hb
      simp at hsize
      omega
  have hmore : isObject w₃ = finalizer.isSome := by
    cases finalizer with
    | none =>
        obtain rfl : w₃ = null := hshows₃
        rfl
    | some b =>
        have hshows : b.Shows heap w₃ := hshows₃
        exact hshows.hasType.isObject
  -- what follows the handler
  have hend : ∀ strs : List Text, Solid strs →
      textOf strs = render (handlerLayout k finalizer.isSome handler) →
      Yields ((Stmt.tryStmt block guarded handler finalizer).PrintableIn (m + 1)) (do
        let finalizerVal ← prop v "finalizer"
        let finalizer ←
          if isObject finalizerVal then do
            let finalizerStr ←
              Unparse.substmt (unparse m) (valueToObject finalizerVal) (indentation k) false
            pure [lit "finally", finalizerStr]
          else pure []
        joinVector ([some (← deref (indentation k)), lit "try",
          some (render (.space :: block.layout k ++ [.space]))] ++ strs ++ finalizer)) (heap, false)
        (some (render ((Stmt.tryStmt block guarded handler finalizer).layout k))) (heap, false) :=
          by
    intro strs hsolid htext
    rw [Stmt.layout]
    refine .prop hw₃ ?_
    rw [hmore]
    cases finalizer with
    | none =>
        refine .bind (.pure []) (.deref (yields_joinAs (by simp) (by simp [hsolid]) ?_))
        rw [finalizerLayout]
        simp [htext, render_append, Keyword.text]
    | some b =>
        have hshows : b.Shows heap w₃ := hshows₃
        rw [hshows.hasType.valueToObject]
        refine .bind ((hf b rfl (hallFinalizer b rfl) m heap w₃ k false hshows).mono
          fun hp => (hP hp).2.2 b rfl) (.bind (.pure _) (.deref
            (yields_joinAs (by simp) (by simp [hsolid]) ?_)))
        rw [finalizerLayout]
        simp [htext, render_append, Keyword.text]
  have hblock := hb hallBlock m heap w₁ k true hshows₁
  rw [← hshows₁.hasType.valueToObject] at hblock
  refine .toObj hw₁ (.bind (hblock.mono fun hp => (hP hp).1) (.toObj hw₂ ?_))
  cases handler with
  | none =>
      obtain rfl : w₂ = null := hshows₂
      refine .bind (.pure []) (hend [] solid_nil ?_)
      rw [handlerLayout]
      rfl
  | some c =>
      obtain ⟨param, guard, body⟩ := c
      obtain ⟨hctype, ⟨x, hx, hname⟩, -, y, hy, hbody⟩ := hshows₂
      obtain ⟨hparam, -, -⟩ := hhandler _ rfl
      have hallBody := hallHandler _ rfl
      rw [CatchClause.All] at hallBody
      rw [hctype.valueToObject]
      have hne : w₂ ≠ null := hctype.ne_null
      simp only [hne, ne_eq, not_false_eq_true, if_true]
      refine .toObj hx ?_
      rw [hname.1.valueToObject]
      refine .bind (yields_name _ hname (isWord_of_isName hparam)
        fun hp => ((hP hp).2.1 _ _ _ rfl).1) (.toObj hguard ?_)
      refine .bind (.pure []) (.prop hw₃ (.toObj hy ?_))
      rw [hmore, hbody.hasType.valueToObject]
      refine .bind ((hh _ rfl hallBody.2 m heap y k finalizer.isSome hbody).mono
        fun hp => ((hP hp).2.1 _ _ _ rfl).2) (.bind (.pure _) (hend _ (by simp) ?_))
      rw [handlerLayout, CatchClause.layout]
      cases finalizer <;> simp [render_append, Keyword.text]

/-! ### Programs -/

theorem prints_inductive : Inductive Expr.Prints Stmt.Prints Property.Prints Declarator.Prints
    SwitchCase.Prints CatchClause.Prints Block.Prints where
  identifier := Expr.prints_identifier
  thisExpr := Expr.prints_this
  elision := fun _ helision => by cases helision
  array := Expr.prints_array
  object := Expr.prints_object
  unary := Expr.prints_unary
  update := Expr.prints_update
  binary := Expr.prints_binary
  assign := Expr.prints_assign
  cond := Expr.prints_cond
  call := Expr.prints_call
  newExpr := Expr.prints_new
  member := Expr.prints_member
  index := Expr.prints_index
  sequence := Expr.prints_sequence
  yieldExpr := Expr.prints_yield
  letExpr := Expr.prints_let
  function := Expr.prints_function
  closure := Expr.prints_closure
  property := Property.prints
  declarator := Declarator.prints
  block := Stmt.prints_block
  declaration := Stmt.prints_declaration
  empty := Stmt.prints_empty
  expression := Stmt.prints_expression
  letStmt := Stmt.prints_letStmt
  ifStmt := Stmt.prints_if
  whileStmt := Stmt.prints_while
  doWhile := Stmt.prints_doWhile
  forStmt := Stmt.prints_for
  forDecl := Stmt.prints_forDecl
  forIn := Stmt.prints_forIn
  forInDecl := Stmt.prints_forInDecl
  forOf := fun left right body _ _ _ => Stmt.prints_forOf left right body
  forOfDecl := fun kind d right body _ _ _ => Stmt.prints_forOfDecl kind d right body
  breakStmt := Stmt.prints_break
  continueStmt := Stmt.prints_continue
  returnStmt := Stmt.prints_return
  withStmt := Stmt.prints_with
  labeled := Stmt.prints_labeled
  switchStmt := Stmt.prints_switch
  throwStmt := Stmt.prints_throw
  tryStmt := fun block guarded handler finalizer hb _ hh hf =>
    Stmt.prints_try block guarded handler finalizer hb hh hf
  debugger := Stmt.prints_debugger
  switchCase := SwitchCase.prints
  catchClause := fun _ _ _ _ hbody => hbody
  body := Block.prints

/-- The pieces of a program. -/
def programLayout (body : List Stmt) : List Piece := (body.map fun s => s.layout 0).flatten

theorem yields_unParseStart {h : JSHeap} {v : Value} {fuel : ℕ} {body : List Stmt}
    (hv : ShowsProgram h body v) (hformed : Program.Formed body) :
    Yields (∀ s ∈ body, s.PrintableIn fuel) (unParseStart fuel v) (h, false)
      (render (programLayout body)) (h, false) := by
  obtain ⟨htype, w, hw, ws, hws, hshows⟩ := hv
  refine .toStr htype (.require rfl (.toObj hw ?_))
  obtain ⟨a, rfl, -⟩ := arrayElems?_ref hws
  rw [lit_empty]
  refine .bind (yields_stmts hws hshows (fun s _ => prints_inductive.stmt s)
    (fun s hs => (hformed s hs).2) fun hp => hp) (.bind (yields_joinStmts 0 body) ?_)
  rw [stmtsText_getD]
  exact .pure _

end MetaMonkey.Frontend
