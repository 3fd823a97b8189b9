import MetaMonkey.Visualizer.StmtTexts

/-!
The text of a legible program reads back as the program.
-/

namespace MetaMonkey.Visualizer

open Js
open Frontend (Punct Keyword)

variable {L : Letters}

/-- What the visit of a node returns. -/
def Visited (L : Letters) : Node → Prop
  | .expr e => Gives (trvsCallExpr e) (Shows L e)
  | .property x => Gives (trvsProperty x) (Member L (Reads L (.property x)))
  | .function f =>
      Gives (do let (id, params, body) ← trvsFunction f; return handlerFunction id params body)
        (ShowsFunction L f)
  | .declarator d => Gives (trvsVariableDeclarator d) (Member L (Reads L (.declarator d)))
  | .stmt s => Gives (trvsCallStmt s) (ShowsStmt L s)

/-! ### Lists and bodies -/

theorem gives_exprs {es : List Expr} (h : ∀ e ∈ es, Visited L (.expr e)) :
    Gives (trvsExprs es) (List.Forall₂ (Shows L) es) :=
  gives_each (by simp only [trvsExprs]) (fun _ _ => by simp only [trvsExprs]) es h

theorem gives_elements {es : List Expr} (h : ∀ e ∈ es, Visited L (.expr e)) :
    Gives (trvsElements (es.map some)) (List.Forall₂ (Shows L) es) :=
  gives_each (g := fun es => trvsElements (es.map some)) (by simp only [List.map_nil, trvsElements])
    (fun _ _ => by simp only [List.map_cons, trvsElements]) es h

theorem gives_properties {xs : List Property} (h : ∀ x ∈ xs, Visited L (.property x)) :
    Gives (trvsProperties xs)
      (List.Forall₂ (fun x r => Member L (Reads L (.property x)) r) xs) :=
  gives_each (by simp only [trvsProperties]) (fun _ _ => by simp only [trvsProperties]) xs h

theorem gives_declarators {ds : List Declarator} (h : ∀ d ∈ ds, Visited L (.declarator d)) :
    Gives (trvsVariableDeclarators ds)
      (List.Forall₂ (fun d r => Member L (Reads L (.declarator d)) r) ds) :=
  gives_each (by simp only [trvsVariableDeclarators])
    (fun _ _ => by simp only [trvsVariableDeclarators]) ds h

theorem gives_stmts {ss : List Stmt} (h : ∀ s ∈ ss, Visited L (.stmt s)) :
    Gives (trvsStmts ss) (List.Forall₂ (ShowsStmt L) ss) :=
  gives_each (by simp only [trvsStmts]) (fun _ _ => by simp only [trvsStmts]) ss h

theorem gives_patterns (ws : List JSString) : Gives (trvsPatterns ws) (· = ws.map some) := by
  induction ws with
  | nil => exact gives_pure rfl
  | cons w ws ih =>
      rw [trvsPatterns, List.mapM_cons]
      refine .bind (P := (· = some w)) (gives_pure rfl) fun r hr => .bind ih fun rs hrs => ?_
      exact gives_pure (by rw [hr, hrs, List.map_cons])

theorem gives_optionalIdentifier (id : Option JSString) :
    Gives (trvsOptionalIdentifier id) (· = id) := by
  cases id <;> exact gives_pure rfl

/-- An expression that is no quasi is not taken for a block, whatever the tabs are then. -/
theorem gives_closureBody {e : Expr} {P : Shown → Prop} (hquazi : e.isQuazi = false)
    (h : Gives (trvsCallExpr e) P) : Gives (trvsFunctionBody (.expression e)) P := by
  cases e with
  | metaQuazi body => cases hquazi
  | metaExec body =>
      simp only [trvsFunctionBody]
      simp only [trvsCallExpr] at h
      exact fails_block.orElse h
  | function f =>
      simp only [trvsFunctionBody]
      simp only [trvsCallExpr] at h
      exact fails_block.orElse h
  | _ =>
      simp only [trvsFunctionBody]
      exact h

/-- The parts of a function are visited before its handler is called. -/
theorem gives_function {id : Option JSString} {params : List JSString} {body : FunctionBody}
    {P : Shown → Prop} {Q : Shown → Prop} (hbody : Gives (trvsFunctionBody body) P)
    (hQ : ∀ r, P r → Q (handlerFunction id (params.map some) r)) :
    Gives (do
      let (id, params, body) ← trvsFunction (.mk id params [] none body)
      return handlerFunction id params body) Q := by
  simp only [trvsFunction, bind_assoc, pure_bind]
  refine .bind (gives_optionalIdentifier id) fun _ hid => ?_
  subst hid
  refine .bind (gives_patterns params) fun _ hparams => ?_
  subst hparams
  exact .bind hbody fun r hr => gives_pure (hQ r hr)

/-- A statement on a line of its own. -/
theorem gives_wrappedOf {α : Type} {m : Visit α} {f : α → Shown} {P : α → Prop}
    {Q : Shown → Prop} (h : Gives m P) (hQ : ∀ a n, P a → Q (whiteSpacesWrap n (f a))) :
    Gives (do wrapped (f (← m))) Q := by
  refine .bind h fun r hr => (gives_wrapped _).imp fun _ hn => ?_
  obtain ⟨n, rfl⟩ := hn
  exact hQ r n hr

/-! ### All nodes -/

/-- Every legible node is visited to a text of it. -/
theorem Legible.visited {node : Node} (h : Legible L node) : Visited L node := by
  induction h with
  | literal hv =>
      simp only [Visited, trvsCallExpr]
      exact gives_pure (shows_literal hv)
  | identifier hw =>
      simp only [Visited, trvsCallExpr]
      exact gives_pure ⟨_, _, rfl, tells_identifier hw⟩
  | this =>
      simp only [Visited, trvsCallExpr]
      exact gives_pure ⟨_, _, rfl, tells_this⟩
  | @array es hes hlevel ih =>
      simp only [Visited, trvsCallExpr]
      cases es with
      | nil => exact gives_pure shows_emptyArray
      | cons e es =>
          exact .bind (gives_elements ih) fun rs hrs => gives_pure (shows_array hrs hlevel)
  | object hxs ih =>
      simp only [Visited, trvsCallExpr]
      exact .bind (gives_properties ih) fun rs hrs => gives_pure (shows_object hrs)
  | functionExpr hf ih =>
      simp only [Visited, trvsCallExpr]
      exact ih.imp fun r hr => hr.expr
  | sequence hes hlevel hlen ih =>
      simp only [Visited, trvsCallExpr]
      exact .bind (gives_exprs ih) fun rs hrs => gives_pure (shows_sequence hrs hlevel hlen)
  | @unary op e he hlevel ih =>
      simp only [Visited, trvsCallExpr]
      refine .bind ih fun r hr => gives_pure ?_
      obtain ⟨s, ts, rfl, htells⟩ := hr
      refine ⟨_, _, ?_, tells_unary op htells hlevel⟩
      show some (js op.text ++ (js " " ++ (s ++ []))) = _
      rw [List.append_nil]
  | @update op before e he href ih =>
      simp only [Visited, trvsCallExpr]
      refine .bind ih fun r hr => gives_pure ?_
      obtain ⟨s, ts, rfl, htells⟩ := hr
      obtain ⟨hlevel, htrails⟩ := reference_level href he
      cases before with
      | true =>
          refine ⟨_, _, ?_, tells_prefixed op htells href hlevel htrails⟩
          show some (js op.text ++ (s ++ [])) = _
          rw [List.append_nil]
      | false =>
          refine ⟨_, _, ?_, tells_suffixed op htells href hlevel htrails⟩
          show some (s ++ (js op.text ++ [])) = _
          rw [List.append_nil]
  | binary he he' hlevel htrails hlevel' ih ih' =>
      simp only [Visited, trvsCallExpr]
      refine .bind ih fun r hr => .bind ih' fun r' hr' => gives_pure ?_
      obtain ⟨s, ts, rfl, htells⟩ := hr
      obtain ⟨s', ts', rfl, htells'⟩ := hr'
      exact ⟨_, _, rfl, tells_binary _ htells htells' hlevel htrails hlevel'⟩
  | assign he he' href hlevel' ih ih' =>
      simp only [Visited, trvsCallExpr]
      refine .bind ih fun r hr => .bind ih' fun r' hr' => gives_pure ?_
      obtain ⟨s, ts, rfl, htells⟩ := hr
      obtain ⟨s', ts', rfl, htells'⟩ := hr'
      obtain ⟨hlevel, htrails⟩ := reference_level href he
      exact ⟨_, _, rfl, tells_assign _ htells htells' href hlevel htrails hlevel'⟩
  | cond htest he hlevel htrails hlevel' ihtest ih =>
      simp only [Visited, trvsCallExpr]
      refine .bind ihtest fun r₀ hr₀ => .bind ih fun r hr => .bind ih fun r' hr' => gives_pure ?_
      obtain ⟨s₀, ts₀, rfl, htells₀⟩ := hr₀
      obtain ⟨s, ts, rfl, htells⟩ := hr
      obtain ⟨s', ts', rfl, htells'⟩ := hr'
      refine ⟨_, _, ?_, tells_cond htells₀ htells htells' hlevel htrails hlevel'⟩
      show some (s₀ ++ (js " " ++ (js "?" ++ (js " " ++ (s ++ (js " " ++ (js ":" ++ (js " " ++
        (s' ++ []))))))))) = _
      rw [List.append_nil]
  | newExpr he hes hlevel htrails hlevels ih ihes =>
      simp only [Visited, trvsCallExpr]
      exact .bind ih fun r hr => .bind (gives_exprs ihes) fun rs hrs =>
        gives_pure (shows_newExpr hr hrs hlevel htrails hlevels)
  | call he hes hlevel htrails hlevels ih ihes =>
      simp only [Visited, trvsCallExpr]
      exact .bind ih fun r hr => .bind (gives_exprs ihes) fun rs hrs =>
        gives_pure (shows_call hr hrs hlevel htrails hlevels)
  | @member e w he hw hlevel htrails hdot ih =>
      simp only [Visited, trvsCallExpr]
      refine .bind ih fun r hr => .bind (P := (· = some w)) (gives_pure rfl) fun r' hr' =>
        gives_pure ?_
      obtain ⟨s, ts, rfl, htells⟩ := hr
      subst hr'
      refine ⟨_, _, ?_, tells_member htells hw hlevel htrails hdot⟩
      show some (s ++ (js "." ++ (w ++ []))) = _
      rw [List.append_nil]
  | index he he' hlevel htrails ih ih' =>
      simp only [Visited, trvsCallExpr]
      refine .bind ih fun r hr => .bind ih' fun r' hr' => gives_pure ?_
      obtain ⟨s, ts, rfl, htells⟩ := hr
      obtain ⟨s', ts', rfl, htells'⟩ := hr'
      exact ⟨_, _, rfl, tells_index htells htells' hlevel htrails⟩
  | quazi hss ih =>
      simp only [Visited, trvsCallExpr]
      exact .bind (gives_stmts ih) fun rs hrs => gives_pure (shows_quazi hrs)
  | property hkey he hlevel ih =>
      simp only [Visited, trvsProperty]
      obtain ⟨s, ts, hgives, hspells, hne, hreads⟩ := shows_key hkey
      refine .bind hgives fun r' hr' => .bind ih fun r hr => gives_pure ?_
      subst hr'
      exact member_property hspells hne hreads hr hlevel
  | @blockFunction id params ss hid hparams hss ih =>
      refine gives_function (P := fun r => ∃ n rs, r = handlerStmtBlock n rs ∧
        List.Forall₂ (ShowsStmt L) ss rs) ?_ fun r hr => ?_
      · simp only [trvsFunctionBody]
        exact (gives_stmts ih).block
      · obtain ⟨n, rs, rfl, hrs⟩ := hr
        obtain ⟨s, ts, htext, hspells, hreads⟩ := spells_block n hrs
        rw [htext]
        exact shows_function hid hparams rfl hspells hreads
  | closure hid hparams he hlevel hquazi hopener ih =>
      refine gives_function (gives_closureBody hquazi ih) fun r hr => ?_
      obtain ⟨s, ts, rfl, htells⟩ := hr
      refine shows_function hid hparams rfl htells.spells.weaken
        (.closureBody (htells.anywhere hlevel) fun hhead => ?_)
      obtain ⟨t, rest, rfl, hbrace, -⟩ := htells.opens
      exact hopener (hbrace (Option.some.inj hhead))
  | @declarator w hw =>
      simp only [Visited, trvsVariableDeclarator, trvsOptionalExpr]
      exact .bind (P := (· = some w)) (gives_pure rfl) fun r hr => gives_pure (by
        subst hr
        exact member_declarator hw)
  | @initDeclarator w e hw he hlevel ih =>
      simp only [Visited, trvsVariableDeclarator, trvsOptionalExpr]
      refine .bind (P := (· = some w)) (gives_pure rfl) fun r' hr' => .bind ih fun r hr =>
        gives_pure ?_
      subst hr'
      exact member_initDeclarator hw hr hlevel
  | empty =>
      simp only [Visited, trvsCallStmt]
      refine (gives_wrapped _).imp fun r hr => ?_
      obtain ⟨n, rfl⟩ := hr
      exact shows_empty n
  | block hss ih =>
      simp only [Visited, trvsCallStmt]
      refine (gives_stmts ih).block.imp fun r hr => ?_
      obtain ⟨n, rs, rfl, hrs⟩ := hr
      exact shows_block n hrs
  | expression he hopener ih =>
      simp only [Visited, trvsCallStmt]
      exact gives_wrappedOf ih fun r n hr => shows_expression n hr hopener
  | ifStmt htest hs ihtest ih =>
      simp only [Visited, trvsCallStmt, trvsOptionalStmt]
      refine .bind ihtest fun r hr => .bind ih fun r' hr' => ?_
      refine .bind (P := (· = none)) (gives_pure rfl) fun r'' hr'' => ?_
      subst hr''
      refine (gives_notSemiWrapped _).imp fun _ hn => ?_
      obtain ⟨n, rfl⟩ := hn
      exact shows_if n hr hr'
  | ifElse htest hs hs' hopen ihtest ih ih' =>
      simp only [Visited, trvsCallStmt, trvsOptionalStmt]
      refine .bind ihtest fun r hr => .bind ih fun r₁ hr₁ => .bind ih' fun r₂ hr₂ => ?_
      refine (gives_notSemiWrapped _).imp fun _ hn => ?_
      obtain ⟨n, rfl⟩ := hn
      exact shows_ifElse n hr hr₁ hr₂ hopen
  | @labeled w s hw hs ih =>
      simp only [Visited, trvsCallStmt]
      refine .bind (P := (· = some w)) (gives_pure rfl) fun r' hr' => .bind ih fun r hr =>
        gives_pure ?_
      subst hr'
      exact shows_labeled hw hr
  | breakStmt =>
      simp only [Visited, trvsCallStmt]
      exact gives_wrappedOf (gives_optionalIdentifier none) fun r n _ => shows_break n
  | continueStmt =>
      simp only [Visited, trvsCallStmt]
      exact gives_wrappedOf (gives_optionalIdentifier none) fun r n _ => shows_continue n
  | returnNothing =>
      simp only [Visited, trvsCallStmt, trvsOptionalExpr]
      exact gives_wrappedOf (P := (· = none)) (gives_pure rfl) fun r n hr => by
        subst hr
        exact shows_returnNothing n
  | returnStmt he ih =>
      simp only [Visited, trvsCallStmt, trvsOptionalExpr]
      exact gives_wrappedOf ih fun r n hr => shows_return n hr
  | throwStmt he ih =>
      simp only [Visited, trvsCallStmt]
      exact gives_wrappedOf ih fun r n hr => shows_throw n hr
  | debugger =>
      simp only [Visited, trvsCallStmt]
      refine (gives_wrapped _).imp fun r hr => ?_
      obtain ⟨n, rfl⟩ := hr
      exact shows_debugger n
  | closureStmt hf hid hclosure ih =>
      have hwrapped := gives_wrappedOf (f := id) ih
        fun r n hr => shows_closureStmt n hr hid hclosure
      simp only [id_eq, bind_assoc, pure_bind] at hwrapped
      simp only [Visited, trvsCallStmt]
      exact hwrapped
  | declaration hds hne ih =>
      simp only [Visited, trvsCallStmt]
      exact gives_wrappedOf (gives_declarators ih) fun r n hr => shows_declaration n hne hr

/-- A text reads back as the statements that the visits show. -/
theorem stringify_shows {body ss : List Stmt}
    (h : Gives (trvsStmts body) (List.Forall₂ (ShowsStmt L) ss)) :
    ∃ text, stringify body = some (some text) ∧ ReadsBack L text ss := by
  obtain ⟨rs, k, hrun, -, hrs⟩ := h 0
  obtain ⟨ts, hspells, hreads⟩ := lexes_stmts hrs
  refine ⟨join "" rs, ?_, ts, ?_, hreads⟩
  · rw [stringify, trvsProgram, visit_bind hrun]
    rfl
  · simpa using hspells (.eof true)

/-- The text of a legible program reads back as the program. -/
theorem stringify_readsBack {body : List Stmt} (h : ∀ s ∈ body, Legible L (.stmt s)) :
    ∃ text, stringify body = some (some text) ∧ ReadsBack L text body :=
  stringify_shows (gives_stmts fun s hs => (h s hs).visited)

/-- No letters but those of ASCII. -/
def asciiLetters : Letters where
  start _ := false
  part _ := false
  part_of_start _ h := h
  not_blank _ h := nomatch h

/-- `var y = f(x); if (y < true) throw 'low'; else { z = a[y]; }` -/
def sampleProgram : List Stmt :=
  [.declaration .var [.mk (js "y") (some (.call (.identifier (js "f")) [.identifier (js "x")]))],
    .ifStmt (.binary .lt (.identifier (js "y")) (.literal (.boolean true)))
      (.throwStmt (.literal (.string (js "low"))))
      (some (.block [.expression (.assign .assign (.identifier (js "z"))
        (.index (.identifier (js "a")) (.identifier (js "y"))))]))]

theorem sample_readsBack : ∃ text, stringify sampleProgram = some (some text) ∧
    ReadsBack asciiLetters text sampleProgram := by
  have hname (w : String) (h : asciiLetters.isName (js w) = true) :
      Legible asciiLetters (.expr (.identifier (js w))) := .identifier h
  refine stringify_readsBack fun s hs => ?_
  simp only [sampleProgram, List.mem_cons, List.not_mem_nil, or_false] at hs
  obtain rfl | rfl := hs
  · refine .declaration (fun d hd => ?_) (by simp)
    obtain rfl := List.mem_singleton.mp hd
    refine .initDeclarator (by decide) (.call (hname "f" (by decide)) (fun e he => ?_) (by decide)
      rfl fun e he => ?_) (by decide)
    · obtain rfl := List.mem_singleton.mp he
      exact hname "x" (by decide)
    · obtain rfl := List.mem_singleton.mp he
      decide
  · refine .ifElse (.binary (hname "y" (by decide)) (.literal rfl) (by decide) rfl (by decide))
      (.throwStmt (.literal (by decide))) (.block fun s hs => ?_) rfl
    obtain rfl := List.mem_singleton.mp hs
    exact .expression (.assign (hname "z" (by decide)) (.index (hname "a" (by decide))
      (hname "y" (by decide)) (by decide) rfl) rfl (by decide)) rfl

end MetaMonkey.Visualizer
