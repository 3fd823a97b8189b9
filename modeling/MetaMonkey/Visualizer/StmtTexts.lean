import MetaMonkey.Visualizer.ListTexts

/-!
The texts of expressions with lists, of functions and of statements.
-/

namespace MetaMonkey.Visualizer

open Js
open Frontend (Punct Keyword)

variable {L : Letters}

/-! ### Arrays, objects and calls -/

theorem shows_array {es : List Expr} {rs : List Shown} (h : List.Forall₂ (Shows L) es rs)
    (hlevel : ∀ e ∈ es, 1 ≤ e.level) :
    Shows L (.array (es.map some)) (handlerExprArray (some rs)) := by
  obtain ⟨tss, htss, hlexes⟩ := lexes_join isSeparator_commaSpace (members_of_shows h hlevel)
  refine ⟨js "[" ++ (js " " ++ (join ", " rs ++ (js " " ++ js "]"))), _, rfl,
    ⟨⟨91, _, rfl, rfl, by decide⟩, fun hfollows h => ?_⟩, .array (reads_elements htss),
    opensAs_punct (by decide) _ _⟩
  simp only [List.append_assoc, List.cons_append, List.nil_append]
  exact .delimiter (p := .lb) rfl (.space (hlexes nofun follows_space (.space
    (.delimiter (p := .rb) rfl h))))

theorem shows_emptyArray : Shows L (.array []) (handlerExprArray none) := by
  refine ⟨js "[" ++ js "]", _, rfl, ⟨⟨91, _, rfl, rfl, by decide⟩, fun hfollows h => ?_⟩,
    .array .noElements, opensAs_punct (by decide) _ _⟩
  exact .delimiter (p := .lb) rfl (.delimiter (p := .rb) rfl h)

theorem shows_object {xs : List Property} {rs : List Shown}
    (h : List.Forall₂ (fun x r => Member L (Reads L (.property x)) r) xs rs) :
    Shows L (.object xs) (handlerExprObject rs) := by
  obtain ⟨tss, htss, hlexes⟩ := lexes_join isSeparator_commaSpace h
  refine ⟨js "\x7b" ++ (js " " ++ (join ", " rs ++ (js " " ++ js "\x7d"))), _, rfl,
    ⟨⟨123, _, rfl, rfl, by decide⟩, fun hfollows h => ?_⟩, .object (reads_properties htss),
    _, _, rfl, fun _ => rfl, nofun⟩
  simp only [List.append_assoc, List.cons_append, List.nil_append]
  exact .delimiter (p := .lc) rfl (.space (hlexes nofun follows_space (.space
    (.delimiter (p := .rc) rfl h))))

theorem shows_newExpr {e : Expr} {es : List Expr} {r : Shown} {rs : List Shown}
    (he : Shows L e r) (hes : List.Forall₂ (Shows L) es rs) (hlevel : 16 ≤ e.level)
    (htrails : e.trails = false) (hlevels : ∀ x ∈ es, 1 ≤ x.level) :
    Shows L (.newExpr e es) (handlerExprNew r rs) := by
  obtain ⟨s, ts, rfl, htells⟩ := he
  obtain ⟨tss, htss, hlexes⟩ := lexes_join isSeparator_comma (members_of_shows hes hlevels)
  refine ⟨js "new" ++ (js " " ++ (s ++ (js "(" ++ (join "," rs ++ js ")")))), _, rfl,
    ⟨⟨110, _, rfl, rfl, by decide⟩, fun hfollows h => ?_⟩,
    .newExpr (htells.closed hlevel htrails) (reads_exprs htss), opensAs_word (by decide) _ _⟩
  simp only [List.append_assoc, List.cons_append, List.nil_append]
  exact .keyword (k := .new) head_space (.space (htells.spells.lexes (follows_punct (p := .lp) rfl)
    (.delimiter (p := .lp) rfl (hlexes nofun (follows_punct (p := .rp) rfl)
      (.delimiter (p := .rp) rfl h)))))

theorem shows_call {e : Expr} {es : List Expr} {r : Shown} {rs : List Shown}
    (he : Shows L e r) (hes : List.Forall₂ (Shows L) es rs) (hlevel : 15 ≤ e.level)
    (htrails : e.trails = false) (hlevels : ∀ x ∈ es, 1 ≤ x.level) :
    Shows L (.call e es) (handlerExprCall r rs) := by
  obtain ⟨s, ts, rfl, htells⟩ := he
  obtain ⟨tss, htss, hlexes⟩ := lexes_join isSeparator_comma (members_of_shows hes hlevels)
  refine ⟨s ++ (js "(" ++ (join "," rs ++ js ")")), _, rfl, ⟨?_, fun hfollows h => ?_⟩,
    .call (htells.closed hlevel htrails) (reads_exprs htss), ?_⟩
  · obtain ⟨c, cs, rfl, hc⟩ := htells.spells.head
    exact ⟨c, _, rfl, hc⟩
  · simp only [List.append_assoc, List.cons_append, List.nil_append]
    exact htells.spells.lexes (follows_punct (p := .lp) rfl)
      (.delimiter (p := .lp) rfl (hlexes nofun (follows_punct (p := .rp) rfl)
        (.delimiter (p := .rp) rfl h)))
  · rw [List.append_assoc]
    exact htells.opens.append _

theorem shows_sequence {es : List Expr} {rs : List Shown} (h : List.Forall₂ (Shows L) es rs)
    (hlevel : ∀ e ∈ es, 1 ≤ e.level) (hlen : 2 ≤ es.length) :
    Shows L (.sequence es) (handlerExprSequence rs) := by
  obtain ⟨tss, htss, hlexes⟩ := lexes_join isSeparator_commaSpace (members_of_shows h hlevel)
  cases h with
  | nil => exact absurd hlen (by decide)
  | @cons e r es rs he hes =>
      obtain ⟨s, ts, rfl, htells⟩ := he
      cases htss with
      | @cons _ ts' _ tss hts' htss' =>
          refine ⟨_, _, rfl, ⟨?_, fun hfollows h => hlexes
            (fun _ => List.cons_ne_nil _ _) hfollows h⟩,
            .sequence (reads_exprs (.cons hts' htss')) hlen, hts'.2.2.append _⟩
          obtain ⟨c, cs, rfl, hc⟩ := htells.spells.head
          cases rs with
          | nil => exact ⟨c, cs, join_singleton _ _, hc⟩
          | cons r rs => exact ⟨c, _, join_cons_cons _ _ _ _, hc⟩

/-! ### Blocks -/

/-- The visitor has returned a text of the statement. -/
def ShowsStmt (L : Letters) (s : Stmt) (r : Shown) : Prop :=
  ∃ t ts, r = some t ∧ t ≠ [] ∧ SpellsLines L t ts ∧ Reads L (.stmt s) ts

theorem join_empty_cons (s : JSString) (rs : List Shown) :
    join "" (some s :: rs) = s ++ join "" rs := by
  cases rs with
  | nil => simp [join]
  | cons r rs => rw [join_cons_cons]; rfl

theorem lexes_stmts {ss : List Stmt} {rs : List Shown} (h : List.Forall₂ (ShowsStmt L) ss rs) :
    ∃ ts, SpellsLines L (join "" rs) ts ∧ Reads L (.stmts ss) ts := by
  induction h with
  | nil => exact ⟨[], fun h => h.newLine, .noStmts⟩
  | cons hs _ ih =>
      obtain ⟨t, ts, rfl, -, hspells, hreads⟩ := hs
      obtain ⟨ts', hspells', hreads'⟩ := ih
      refine ⟨ts ++ ts', fun h => ?_, .stmts hreads hreads'⟩
      rw [join_empty_cons, List.append_assoc, List.append_assoc]
      exact hspells (hspells' h)

/-- The text of a block, with the tokens of its statements. Anything may follow its brace. -/
theorem lexes_block {ss : List Stmt} {rs : List Shown} (n : ℕ)
    (h : List.Forall₂ (ShowsStmt L) ss rs) :
    ∃ t ts, handlerStmtBlock n rs = some (js "\x7b" ++ t) ∧
      (∀ {newline : Bool} {r : JSString} {us : List Token}, Lexes L false r us →
        Lexes L newline (js "\x7b" ++ t ++ r) (.punct .lc :: ts ++ [.punct .rc] ++ us)) ∧
      Reads L (.stmts ss) ts := by
  obtain ⟨ts, hspells, hreads⟩ := lexes_stmts h
  refine ⟨js "\n" ++ (join "" rs ++ (List.replicate n 9 ++ js "\x7d")), ts, rfl, fun h => ?_,
    hreads⟩
  simp only [List.append_assoc, List.cons_append, List.nil_append]
  exact .delimiter (p := .lc) rfl (.eol (hspells (.tabs n (.delimiter (p := .rc) rfl h))))

theorem spells_block {ss : List Stmt} {rs : List Shown} (n : ℕ)
    (h : List.Forall₂ (ShowsStmt L) ss rs) :
    ∃ s ts, handlerStmtBlock n rs = some s ∧ Spells L true s ts ∧
      Reads L (.functionBody false (.block ss)) ts := by
  obtain ⟨t, ts, htext, hlexes, hreads⟩ := lexes_block n h
  exact ⟨_, _, htext, ⟨⟨123, _, rfl, rfl, by decide⟩, fun _ h => hlexes h⟩, .blockBody hreads⟩

theorem shows_block {ss : List Stmt} {rs : List Shown} (n : ℕ)
    (h : List.Forall₂ (ShowsStmt L) ss rs) : ShowsStmt L (.block ss) (handlerStmtBlock n rs) := by
  obtain ⟨t, ts, htext, hlexes, hreads⟩ := lexes_block n h
  exact ⟨_, _, htext, List.cons_ne_nil _ _, fun h => hlexes h.sameLine, .block hreads⟩

theorem shows_quazi {ss : List Stmt} {rs : List Shown} (h : List.Forall₂ (ShowsStmt L) ss rs) :
    Shows L (.metaQuazi ss) (handlerExprMetaQuazi rs) := by
  obtain ⟨ts, hspells, hreads⟩ := lexes_stmts h
  refine ⟨js ".<" ++ (js " " ++ (join "" rs ++ (js " " ++ js ">."))), _, rfl,
    ⟨⟨46, _, rfl, rfl, by decide⟩, fun hfollows h => ?_⟩, .quasi (Or.inr rfl) hreads,
    opensAs_punct (by decide) _ _⟩
  simp only [List.append_assoc, List.cons_append, List.nil_append]
  exact .spacedPunct (p := .metaLq) (hspells (.space (.delimiter (p := .metaClose) rfl h)))

/-! ### Properties and declarations -/

theorem shows_key {key : PropertyKey} (hkey : key.legible L = true) :
    ∃ s ts, Gives (trvsPropertyKey key) (· = some s) ∧ Spells L false s ts ∧ ts ≠ [] ∧
      Reads L (.key key) ts := by
  cases key with
  | identifier w =>
      exact ⟨w, _, gives_pure rfl, (spells_word hkey).weaken, List.cons_ne_nil _ _, .keyName hkey⟩
  | literal v =>
      cases v with
      | string s =>
          exact ⟨_, _, gives_pure rfl, (spells_string hkey).weaken, List.cons_ne_nil _ _,
            .keyString s⟩
      | number n =>
          exact ⟨_, _, gives_pure rfl, (spells_number hkey).weaken, List.cons_ne_nil _ _,
            .keyNumber n⟩
      | _ => cases hkey

theorem member_property {key : PropertyKey} {e : Expr} {s : JSString} {ts : List Token} {r : Shown}
    (hs : Spells L false s ts) (hne : ts ≠ []) (hkey : Reads L (.key key) ts) (he : Shows L e r)
    (hlevel : 1 ≤ e.level) :
    Member L (Reads L (.property (.mk .init key e))) (handlerProperty (some s) r) := by
  obtain ⟨s', ts', rfl, htells⟩ := he
  refine ⟨s ++ (js ":" ++ (js " " ++ (s' ++ []))), _, rfl, ⟨?_, fun hfollows h => ?_⟩, ?_,
    .propertyInit hkey (htells.anywhere hlevel)⟩
  · obtain ⟨c, cs, rfl, hc⟩ := hs.head
    exact ⟨c, _, rfl, hc⟩
  · rw [List.append_nil]
    simp only [List.append_assoc, List.cons_append]
    exact hs.lexes (follows_punct (p := .colon) rfl) (.spacedPunct (p := .colon)
      (htells.spells.weaken.lexes hfollows h))
  · simp [hne]

theorem member_declarator {w : JSString} (hw : L.isName w = true) :
    Member L (Reads L (.declarator (.mk w none))) (handlerVariableDeclarator (some w) none) := by
  have htext : handlerVariableDeclarator (some w) none = some (w ++ []) := rfl
  rw [htext, List.append_nil]
  exact ⟨w, _, rfl, (spells_word (isWord_of_isName hw)).weaken, List.cons_ne_nil _ _,
    .declarator hw⟩

theorem truthy_of_head {s : JSString} (h : ∃ c cs, s = c :: cs ∧ isBlank c = false ∧ c ≠ 62) :
    Shown.truthy (some s) = true := by
  obtain ⟨c, cs, rfl, -⟩ := h
  rfl

theorem member_initDeclarator {w : JSString} {e : Expr} {r : Shown} (hw : L.isName w = true)
    (he : Shows L e r) (hlevel : 1 ≤ e.level) :
    Member L (Reads L (.declarator (.mk w (some e)))) (handlerVariableDeclarator (some w) r) := by
  obtain ⟨s, ts, rfl, htells⟩ := he
  have hword := isWord_of_isName hw
  have htext : handlerVariableDeclarator (some w) (some s) =
      some (w ++ (js " " ++ (js "=" ++ (js " " ++ s)))) := by
    rw [handlerVariableDeclarator, truthy_of_head htells.spells.head]
    show some (w ++ (js " " ++ (js "=" ++ (js " " ++ (s ++ []))))) = _
    rw [List.append_nil]
  refine ⟨_, _, htext, ⟨?_, fun hfollows h => ?_⟩, ?_,
    .initDeclarator hw (htells.anywhere hlevel)⟩
  · obtain ⟨c, cs, rfl, hc⟩ := word_nonblank hword
    exact ⟨c, _, rfl, hc⟩
  · simp only [List.append_assoc, List.cons_append]
    exact .word hword head_space (.space (.spacedPunct (p := .assign)
      (htells.spells.weaken.lexes hfollows h)))
  · exact List.cons_ne_nil _ _

/-! ### Functions -/

/-- The visitor has returned a text of the function. -/
def ShowsFunction (L : Letters) (f : FunctionNode) (r : Shown) : Prop :=
  ∃ s ts, r = some s ∧ Spells L (!f.isClosure) s (.keyword .function :: ts) ∧
    Reads L (.function f.isClosure f) (.keyword .function :: ts)

theorem members_names {ws : List JSString} (hws : ∀ w ∈ ws, L.isName w = true) :
    List.Forall₂ (fun w r => Member L (fun ts => L.isName w = true ∧ ts = [.word w]) r) ws
      (ws.map some) := by
  induction ws with
  | nil => exact .nil
  | cons w ws ih =>
      rw [List.forall_mem_cons] at hws
      exact .cons ⟨w, [.word w], rfl, (spells_word (isWord_of_isName hws.1)).weaken,
        List.cons_ne_nil _ _, hws.1, rfl⟩ (ih hws.2)

theorem handlerFunction_none (rs : List Shown) (s : JSString) :
    handlerFunction none rs (some s) =
      some (js "function" ++ (js "(" ++ (join "," rs ++ (js ")" ++ (js " " ++ s))))) := by
  show some (js "function" ++ (js "(" ++ (join "," rs ++ (js ")" ++ (js " " ++ (s ++ [])))))) = _
  rw [List.append_nil]

theorem handlerFunction_some {w : JSString} (hw : L.isWord w = true) (rs : List Shown)
    (s : JSString) : handlerFunction (some w) rs (some s) =
      some (js "function" ++ (js " " ++ (w ++ (js "(" ++ (join "," rs ++
        (js ")" ++ (js " " ++ s))))))) := by
  rw [handlerFunction, truthy_of_head (word_nonblank hw)]
  show some (js "function" ++ ((js " " ++ w) ++ (js "(" ++ (join "," rs ++
    (js ")" ++ (js " " ++ (s ++ []))))))) = _
  rw [List.append_nil, List.append_assoc]

theorem shows_function {id : Option JSString} {params : List JSString} {body : FunctionBody}
    {g : Bool} {s : JSString} {ts : List Token} (hid : ∀ w ∈ id, L.isName w = true)
    (hparams : ∀ w ∈ params, L.isName w = true)
    (hg : (FunctionNode.mk id params [] none body).isClosure = g) (hs : Spells L (!g) s ts)
    (hbody : Reads L (.functionBody g body) ts) :
    ShowsFunction L (.mk id params [] none body)
      (handlerFunction id (params.map some) (some s)) := by
  obtain ⟨tss, htss, hlexes⟩ := lexes_join isSeparator_comma (members_names hparams)
  have hreads := Reads.function (f := .mk id params [] none body) hid
    (.signature (reads_formals htss) hbody)
  -- the text from the parenthesis on
  have hrest : ∀ {newline : Bool} {r : JSString} {rs : List Token}, Follows L (!g) r →
      Lexes L false r rs → Lexes L newline
        (js "(" ++ (join "," (params.map some) ++ (js ")" ++ (js " " ++ (s ++ r)))))
        (.punct .lp :: (commas tss ++ .punct .rp :: (ts ++ rs))) := fun hfollows h =>
    .delimiter (p := .lp) rfl (hlexes nofun (follows_punct (p := .rp) rfl)
      (.spacedPunct (p := .rp) (hs.lexes hfollows h)))
  rw [ShowsFunction, hg]
  cases id with
  | none =>
      refine ⟨_, .punct .lp :: (commas tss ++ .punct .rp :: ts), handlerFunction_none _ _,
        ⟨⟨102, _, rfl, rfl, by decide⟩, fun hfollows h => ?_⟩, hreads⟩
      simp only [List.append_assoc, List.cons_append]
      exact .keyword (k := .function) (head_punct (p := .lp) rfl)
        (hrest hfollows h)
  | some w =>
      have hword := isWord_of_isName (hid w rfl)
      refine ⟨_, .word w :: .punct .lp :: (commas tss ++ .punct .rp :: ts),
        handlerFunction_some hword _ _, ⟨⟨102, _, rfl, rfl, by decide⟩, fun hfollows h => ?_⟩,
        hreads⟩
      simp only [List.append_assoc, List.cons_append]
      exact .keyword (k := .function) head_space (.space (.word hword
        (head_punct (p := .lp) rfl) (hrest hfollows h)))

theorem ShowsFunction.expr {f : FunctionNode} {r : Shown} (h : ShowsFunction L f r) :
    Shows L (.function f) r := by
  obtain ⟨s, ts, rfl, hspells, hreads⟩ := h
  exact ⟨s, _, rfl, hspells, .functionExpr hreads, _, _, rfl, nofun, fun _ => rfl⟩

/-! ### Statements -/

/-- A statement on a line of its own, with its semicolon. -/
theorem shows_wrapped (n : ℕ) {s : Stmt} {str : JSString} {t : List Token}
    (hspells : ∀ {newline : Bool} {r : JSString} {rs : List Token},
      Lexes L true (js ";" ++ r) rs → Lexes L newline (str ++ (js ";" ++ r)) (t ++ rs))
    (hreads : Reads L (.stmt s) (t ++ [.punct .semi])) :
    ShowsStmt L s (whiteSpacesWrap n (some str)) := by
  refine ⟨List.replicate n 9 ++ (str ++ (js ";" ++ js "\n")), _, rfl, by simp [js],
    fun h => ?_, hreads⟩
  simp only [List.append_assoc, List.cons_append, List.nil_append]
  exact .tabs n (hspells (.delimiter (p := .semi) rfl h.eol))

theorem shows_notSemiWrapped (n : ℕ) {s : Stmt} {str : JSString} {ts : List Token}
    (hne : str ≠ []) (hspells : SpellsLines L str ts) (hreads : Reads L (.stmt s) ts) :
    ShowsStmt L s (whiteSpacesNotSemiWrap n (some str)) := by
  refine ⟨List.replicate n 9 ++ (str ++ js "\n"), _, rfl, by simp [hne], fun h => ?_, hreads⟩
  simp only [List.append_assoc]
  exact .tabs n (hspells h.eol)

theorem shows_empty (n : ℕ) : ShowsStmt L .empty (whiteSpacesWrap n handlerStmtEmpty) :=
  shows_wrapped n (t := []) (fun h => h.newLine) .empty

theorem shows_expression (n : ℕ) {e : Expr} {r : Shown} (h : Shows L e r)
    (hopener : e.opener = .other) : ShowsStmt L (.expression e) (whiteSpacesWrap n r) := by
  obtain ⟨s, ts, rfl, htells⟩ := h
  obtain ⟨t, rest, rfl, hbrace, hfunction⟩ := htells.opens
  refine shows_wrapped n (fun h => htells.spells.lexes (follows_punct (p := .semi) rfl) h.sameLine)
    (.expression (htells.anywhere (Nat.zero_le _)) (fun h => ?_) fun h => ?_)
  · rw [hbrace (Option.some.inj h)] at hopener
    cases hopener
  · rw [hfunction (Option.some.inj h)] at hopener
    cases hopener

theorem shows_if (n : ℕ) {test : Expr} {s : Stmt} {r r' : Shown} (htest : Shows L test r)
    (hs : ShowsStmt L s r') :
    ShowsStmt L (.ifStmt test s none) (whiteSpacesNotSemiWrap n (handlerStmtIf r r' none)) := by
  obtain ⟨t, ts, rfl, htells⟩ := htest
  obtain ⟨t', ts', rfl, -, hspells, hreads⟩ := hs
  have htext : handlerStmtIf (some t) (some t') none =
      some (js "if" ++ (js "(" ++ (t ++ (js ")" ++ (js " " ++ t'))))) := by
    rw [handlerStmtIf, Shown.truthy, if_neg Bool.false_ne_true]
    show some (js "if" ++ (js "(" ++ (t ++ (js ")" ++ (js " " ++ (t' ++ [])))))) = _
    rw [List.append_nil]
  rw [htext]
  refine shows_notSemiWrapped n (List.cons_ne_nil _ _) (fun h => ?_)
    (.ifStmt (htells.anywhere (Nat.zero_le _)) hreads)
  simp only [List.append_assoc, List.cons_append]
  exact .keyword (k := .if) (head_punct (p := .lp) rfl)
    (.delimiter (p := .lp) rfl (htells.spells.lexes (follows_punct (p := .rp) rfl)
      (.spacedPunct (p := .rp) (hspells h))))

theorem shows_ifElse (n : ℕ) {test : Expr} {s s' : Stmt} {r r₁ r₂ : Shown}
    (htest : Shows L test r) (hs : ShowsStmt L s r₁) (hs' : ShowsStmt L s' r₂)
    (hopen : s.openIf = false) :
    ShowsStmt L (.ifStmt test s (some s')) (whiteSpacesNotSemiWrap n (handlerStmtIf r r₁ r₂)) := by
  obtain ⟨t, ts, rfl, htells⟩ := htest
  obtain ⟨t₁, ts₁, rfl, -, hspells₁, hreads₁⟩ := hs
  obtain ⟨t₂, ts₂, rfl, hne₂, hspells₂, hreads₂⟩ := hs'
  have htruthy : Shown.truthy (some t₂) = true := by simpa [Shown.truthy] using hne₂
  have htext : handlerStmtIf (some t) (some t₁) (some t₂) =
      some (js "if" ++ (js "(" ++ (t ++ (js ")" ++ (js " " ++ (t₁ ++ (js "else" ++
        (js " " ++ t₂)))))))) := by
    rw [handlerStmtIf, htruthy]
    show some (js "if" ++ (js "(" ++ (t ++ (js ")" ++ (js " " ++ (t₁ ++ (js "else" ++
      (js " " ++ (t₂ ++ []))))))))) = _
    rw [List.append_nil]
  rw [htext]
  refine shows_notSemiWrapped n (List.cons_ne_nil _ _) (fun h => ?_)
    (.ifElse (htells.anywhere (Nat.zero_le _)) hreads₁ hopen hreads₂)
  simp only [List.append_assoc, List.cons_append]
  exact .keyword (k := .if) (head_punct (p := .lp) rfl)
    (.delimiter (p := .lp) rfl (htells.spells.lexes (follows_punct (p := .rp) rfl)
      (.spacedPunct (p := .rp) (hspells₁ (.keyword (k := .else) head_space
        (.space (hspells₂ h)))))))

theorem shows_labeled {w : JSString} {s : Stmt} {r : Shown} (hw : L.isName w = true)
    (hs : ShowsStmt L s r) : ShowsStmt L (.labeled w s) (handlerStmtLabeled (some w) r) := by
  obtain ⟨t, ts, rfl, -, hspells, hreads⟩ := hs
  have hword := isWord_of_isName hw
  have htext : handlerStmtLabeled (some w) (some t) =
      some (w ++ (js ":" ++ (js " " ++ (js "\n" ++ t)))) := by
    show some (w ++ (js ":" ++ (js " " ++ (js "\n" ++ (t ++ []))))) = _
    rw [List.append_nil]
  refine ⟨_, _, htext, by simp [js], fun h => ?_, .labeled hw hreads⟩
  simp only [List.append_assoc, List.cons_append]
  exact .word hword (head_punct (p := .colon) rfl)
    (.spacedPunct (p := .colon) (.eol (hspells h)))

/-- The keyword of a jump has the next token on its line. -/
theorem Lexes.jump_semi (k : Keyword) {newline : Bool} {r : JSString} {rs : List Token}
    (h : Lexes L true (js ";" ++ r) rs) :
    Lexes L newline (js k.text ++ (js ";" ++ r)) (.jump k :: rs) :=
  .jump (head_punct (p := .semi) rfl) rfl h.sameLine

theorem Lexes.jump_space (k : Keyword) {newline : Bool} {s : JSString} {rs : List Token}
    (hs : ∀ c ∈ s.head?, isBlank c = false) (h : Lexes L false s rs) :
    Lexes L newline (js k.text ++ (js " " ++ s)) (.jump k :: rs) := by
  refine .jump head_space ?_ h.space
  cases s with
  | nil => rfl
  | cons c cs =>
      have hblank : isBlank 32 = true := rfl
      have hline : Frontend.isLineEnd 32 = false := rfl
      show ((32 :: c :: cs).takeWhile isBlank).any Frontend.isLineEnd = false
      simp [hblank, hs c rfl, hline]

theorem shows_break (n : ℕ) :
    ShowsStmt L (.breakStmt none) (whiteSpacesWrap n (some (js "break"))) :=
  shows_wrapped n (fun h => .jump_semi .break h) (.breakStmt nofun)

theorem shows_continue (n : ℕ) :
    ShowsStmt L (.continueStmt none) (whiteSpacesWrap n (some (js "continue"))) :=
  shows_wrapped n (fun h => .jump_semi .continue h) (.continueStmt nofun)

theorem shows_debugger (n : ℕ) : ShowsStmt L .debugger (whiteSpacesWrap n handlerStmtDebugger) :=
  shows_wrapped n (t := [.keyword .debugger])
    (fun h => .keyword (k := .debugger) (head_punct (p := .semi) rfl) h.sameLine) .debugger

theorem shows_returnNothing (n : ℕ) :
    ShowsStmt L (.returnStmt none) (whiteSpacesWrap n (handlerStmtReturn none)) := by
  have htext : handlerStmtReturn none = some (js "return" ++ js " ") := rfl
  rw [htext]
  refine shows_wrapped n (fun h => ?_) (.returnStmt .noForPart)
  rw [List.append_assoc]
  refine .jump_space .return (fun c hc => ?_) h.sameLine
  obtain rfl : 59 = c := Option.some.inj hc
  rfl

/-- A `return` or a `throw` with an operand. -/
theorem shows_operand (n : ℕ) {e : Expr} {s : Stmt} {str : JSString} {ts : List Token} (k : Keyword)
    (htells : Tells L e str ts) (hreads : Reads L (.stmt s) (.jump k :: ts ++ [.punct .semi])) :
    ShowsStmt L s (whiteSpacesWrap n (some (js k.text ++ (js " " ++ str)))) := by
  refine shows_wrapped n (fun h => ?_) hreads
  simp only [List.append_assoc, List.cons_append]
  refine .jump_space k (fun c hc => ?_)
    (htells.spells.lexes (follows_punct (p := .semi) rfl) h.sameLine)
  obtain ⟨d, cs, rfl, hd, -⟩ := htells.spells.head
  rwa [← Option.some.inj hc]

theorem shows_return (n : ℕ) {e : Expr} {r : Shown} (he : Shows L e r) :
    ShowsStmt L (.returnStmt (some e)) (whiteSpacesWrap n (handlerStmtReturn r)) := by
  obtain ⟨s, ts, rfl, htells⟩ := he
  have htext : handlerStmtReturn (some s) = some (js "return" ++ (js " " ++ s)) := by
    show some (js "return" ++ (js " " ++ (s ++ []))) = _
    rw [List.append_nil]
  rw [htext]
  exact shows_operand n .return htells (.returnStmt (.forPart (htells.anywhere (Nat.zero_le _))))

theorem shows_throw (n : ℕ) {e : Expr} {r : Shown} (he : Shows L e r) :
    ShowsStmt L (.throwStmt e) (whiteSpacesWrap n (handlerStmtThrow r)) := by
  obtain ⟨s, ts, rfl, htells⟩ := he
  have htext : handlerStmtThrow (some s) = some (js "throw" ++ (js " " ++ s)) := by
    show some (js "throw" ++ (js " " ++ (s ++ []))) = _
    rw [List.append_nil]
  rw [htext]
  exact shows_operand n .throw htells (.throwStmt (htells.anywhere (Nat.zero_le _)))

theorem shows_closureStmt (n : ℕ) {f : FunctionNode} {r : Shown} (hf : ShowsFunction L f r)
    (hid : f.id.isSome = true) (hclosure : f.isClosure = true) :
    ShowsStmt L (.function f) (whiteSpacesWrap n r) := by
  obtain ⟨s, ts, rfl, hspells, hreads⟩ := hf
  rw [hclosure] at hreads
  exact shows_wrapped n
    (fun h => hspells.weaken.lexes (follows_punct (p := .semi) rfl) h.sameLine)
    (.closureStmt hid hreads)

theorem shows_declaration (n : ℕ) {ds : List Declarator} {rs : List Shown} (hne : ds ≠ [])
    (h : List.Forall₂ (fun d r => Member L (Reads L (.declarator d)) r) ds rs) :
    ShowsStmt L (.declaration .var ds) (whiteSpacesWrap n (handlerStmtDeclVariable rs)) := by
  obtain ⟨tss, htss, hlexes⟩ := lexes_join isSeparator_commaSpace h
  have htext : handlerStmtDeclVariable rs = some (js "var" ++ (js " " ++ join ", " rs)) := by
    show some (js "var" ++ (js " " ++ (join ", " rs ++ []))) = _
    rw [List.append_nil]
  rw [htext]
  refine shows_wrapped n (fun h => ?_) (.declaration hne (reads_declarators htss))
  simp only [List.append_assoc, List.cons_append]
  exact .keyword (k := .var) head_space (.space (hlexes nofun (follows_punct (p := .semi) rfl)
    h.sameLine))

end MetaMonkey.Visualizer
