import MetaMonkey.Visualizer.Legible
import MetaMonkey.Visualizer.Spelling
import MetaMonkey.Visualizer.Visiting

/-!
The texts of expressions: one lemma for each handler, from the tokens of the parts
to the tokens of the whole and the expression they are read as.
-/

namespace MetaMonkey.Visualizer

open Js
open Frontend (Punct Keyword)
open Frontend.Parser (precedence)

variable {L : Letters}

/-- The first of the tokens is a brace or `function` only where the tree says so. -/
def OpensAs (o : Opener) (ts : List Token) : Prop :=
  ∃ t rest, ts = t :: rest ∧ (t = .punct .lc → o = .brace) ∧
    (t = .keyword .function → o = .function)

/-- The text `s` of `e` has the tokens `ts`, and these are read as `e`. -/
structure Tells (L : Letters) (e : Expr) (s : JSString) (ts : List Token) : Prop where
  spells : Spells L e.takesDot s ts
  reads : Reads L (.expr e.level e.trails e) ts
  opens : OpensAs e.opener ts

/-- The visitor has returned a text of the expression. -/
def Shows (L : Letters) (e : Expr) (r : Shown) : Prop := ∃ s ts, r = some s ∧ Tells L e s ts

theorem OpensAs.append {o : Opener} {ts : List Token} (h : OpensAs o ts) (us : List Token) :
    OpensAs o (ts ++ us) := by
  obtain ⟨t, rest, rfl, hbrace, hfunction⟩ := h
  exact ⟨t, rest ++ us, rfl, hbrace, hfunction⟩

theorem OpensAs.ne_nil {o : Opener} {ts : List Token} (h : OpensAs o ts) : ts ≠ [] := by
  obtain ⟨t, rest, rfl, -⟩ := h
  exact List.cons_ne_nil _ _

theorem opensAs_punct {p : Punct} (hp : p ≠ .lc) (o : Opener) (ts : List Token) :
    OpensAs o (.punct p :: ts) :=
  ⟨_, _, rfl, fun h => absurd (Token.punct.inj h) hp, nofun⟩

theorem opensAs_word {w : JSString} (hw : w ≠ js "function") (o : Opener) (ts : List Token) :
    OpensAs o (.word w :: ts) :=
  ⟨_, _, rfl, nofun, fun h => absurd (Token.word.inj h) hw⟩

/-- A text is read in any place of a level that it has at least. -/
theorem Tells.at {e : Expr} {s : JSString} {ts : List Token} (h : Tells L e s ts) {k : ℕ}
    {g : Bool} (hk : k ≤ e.level) (hg : e.trails = true → g = true) :
    Reads L (.expr k g e) ts :=
  .weaken h.reads hk hg

theorem Tells.anywhere {e : Expr} {s : JSString} {ts : List Token} (h : Tells L e s ts) {k : ℕ}
    (hk : k ≤ e.level) : Reads L (.expr k true e) ts :=
  h.at hk fun _ => rfl

theorem Tells.closed {e : Expr} {s : JSString} {ts : List Token} (h : Tells L e s ts) {k : ℕ}
    (hk : k ≤ e.level) (hg : e.trails = false) : Reads L (.expr k false e) ts :=
  h.at hk fun hg' => by rw [hg] at hg'; exact hg'

/-! ### Operands without operators -/

theorem isName_ne_keyword {w : JSString} (hw : L.isName w = true) (k : Keyword) :
    w ≠ js k.text := by
  rintro rfl
  rw [Letters.isName, Frontend.keyword?_text] at hw
  simp at hw

theorem tells_identifier {w : JSString} (hw : L.isName w = true) :
    Tells L (.identifier w) w [.word w] :=
  ⟨spells_word (isWord_of_isName hw), .identifier hw, opensAs_word
    (isName_ne_keyword hw .function) _ _⟩

theorem tells_this : Tells L .thisExpr (js "this") [.keyword .this] :=
  ⟨spells_keyword .this, .this, opensAs_word (by decide) _ _⟩

theorem shows_literal {v : LiteralValue} (hv : v.legible = true) :
    Shows L (.literal v) (handlerLiteral v) := by
  cases v with
  | string s => exact ⟨_, _, rfl, spells_string hv, .string s, _, _, rfl, nofun, nofun⟩
  | boolean b =>
      cases b with
      | true =>
          exact ⟨_, _, rfl, spells_keyword .true, .boolean true,
            opensAs_word (by decide) _ _⟩
      | false =>
          exact ⟨_, _, rfl, spells_keyword .false, .boolean false,
            opensAs_word (by decide) _ _⟩
  | null => cases hv
  | number n => exact ⟨_, _, rfl, spells_number hv, .number n, _, _, rfl, nofun, nofun⟩
  | regexp r => exact ⟨_, _, rfl, spells_regexp r, .regexp r, _, _, rfl, nofun, nofun⟩

/-! ### Operators -/

section

variable {e e' : Expr} {s s' : JSString} {ts ts' : List Token}

theorem tells_unary (op : Frontend.UnaryOp) (he : Tells L e s ts) (hlevel : 13 ≤ e.level) :
    Tells L (.unary op true e) (js op.text ++ (js " " ++ s)) (tokens op.lexeme ++ ts) := by
  refine ⟨⟨?_, fun hfollows h => ?_⟩, .unary (he.at hlevel id), ?_⟩
  · cases op <;> exact ⟨_, _, rfl, rfl, by decide⟩
  · simp only [List.append_assoc]
    exact .unaryOp op (he.spells.weaken.lexes hfollows h)
  · cases op <;>
      first
      | exact opensAs_punct (by decide) _ _
      | exact opensAs_word (by decide) _ _

theorem reference_level (href : e.isReference = true) (hlevel : Legible L (.expr e)) :
    15 ≤ e.level ∧ e.trails = false := by
  cases hlevel with
  | identifier hw => exact ⟨Nat.le_of_ble_eq_true rfl, rfl⟩
  | call he hes hlevel => exact ⟨le_rfl, rfl⟩
  | member he hw hlevel => exact ⟨le_min (by decide) hlevel, rfl⟩
  | index he he' hlevel => exact ⟨le_min (by decide) hlevel, rfl⟩
  | _ => cases href

theorem tells_prefixed (op : Frontend.UpdateOp) (he : Tells L e s ts) (href : e.isReference = true)
    (hlevel : 15 ≤ e.level) (htrails : e.trails = false) :
    Tells L (.update op true e) (js op.text ++ s) (.punct op.punct :: ts) := by
  refine ⟨⟨?_, fun hfollows h => ?_⟩, .prefixed (he.closed hlevel htrails) href, ?_⟩
  · cases op <;> exact ⟨_, _, rfl, rfl, by decide⟩
  · rw [← op.punct_text, List.append_assoc]
    refine .prefixOp (fun c hc => ?_) (he.spells.weaken.lexes hfollows h)
    obtain ⟨d, cs, rfl, -, hd⟩ := he.spells.head
    rwa [← Option.some.inj hc]
  · cases op <;> exact opensAs_punct (by decide) _ _

theorem tells_suffixed (op : Frontend.UpdateOp) (he : Tells L e s ts) (href : e.isReference = true)
    (hlevel : 15 ≤ e.level) (htrails : e.trails = false) :
    Tells L (.update op false e) (s ++ js op.text) (ts ++ [.suffix op]) := by
  refine ⟨⟨?_, fun hfollows h => ?_⟩, .suffixed (he.closed hlevel htrails) href,
    he.opens.append _⟩
  · obtain ⟨c, cs, rfl, hc⟩ := he.spells.head
    exact ⟨c, _, rfl, hc⟩
  · rw [List.append_assoc, List.append_assoc]
    exact he.spells.lexes (follows_suffix op) (.suffixOp op hfollows h)

theorem tells_binary (op : Frontend.BinaryOp) (he : Tells L e s ts) (he' : Tells L e' s' ts')
    (hlevel : 2 + precedence op ≤ e.level) (htrails : e.trails = false)
    (hlevel' : 3 + precedence op ≤ e'.level) :
    Tells L (.binary op e e')
      (js "(" ++ (s ++ (js " " ++ (js op.text ++ (js " " ++ (s' ++ js ")"))))))
      (.punct .lp :: (ts ++ tokens op.lexeme ++ ts') ++ [.punct .rp]) := by
  refine ⟨⟨⟨40, _, rfl, rfl, by decide⟩, fun hfollows h => ?_⟩, .parens ?_,
    opensAs_punct (by decide) _ _⟩
  · simp only [List.append_assoc, List.cons_append, List.nil_append]
    exact .delimiter (p := .lp) rfl (he.spells.lexes follows_space (.space (.binaryOp op
      (he'.spells.lexes (follows_punct (p := .rp) rfl) (.delimiter (p := .rp) rfl h)))))
  · exact .weaken (.binary (he.closed hlevel htrails) (he'.anywhere hlevel')) (Nat.zero_le _) id

theorem tells_assign (op : Frontend.AssignOp) (he : Tells L e s ts) (he' : Tells L e' s' ts')
    (href : e.isReference = true) (hlevel : 15 ≤ e.level) (htrails : e.trails = false)
    (hlevel' : 1 ≤ e'.level) :
    Tells L (.assign op e e')
      (js "(" ++ (s ++ (js " " ++ (js op.text ++ (js " " ++ (s' ++ js ")"))))))
      (.punct .lp :: (ts ++ .punct op.punct :: ts') ++ [.punct .rp]) := by
  refine ⟨⟨⟨40, _, rfl, rfl, by decide⟩, fun hfollows h => ?_⟩, .parens ?_,
    opensAs_punct (by decide) _ _⟩
  · simp only [List.append_assoc, List.cons_append, List.nil_append]
    exact .delimiter (p := .lp) rfl (he.spells.lexes follows_space (.space (.assignOp op
      (he'.spells.lexes (follows_punct (p := .rp) rfl) (.delimiter (p := .rp) rfl h)))))
  · exact .weaken (.assign (he.closed hlevel htrails) href (he'.anywhere hlevel'))
      (Nat.zero_le _) id

/-- The two texts of the branch may differ in their tabs. -/
theorem tells_cond {test : Expr} {s₀ : JSString} {ts₀ : List Token} (htest : Tells L test s₀ ts₀)
    (he : Tells L e s ts) (he' : Tells L e s' ts') (hlevel : 3 ≤ test.level)
    (htrails : test.trails = false) (hlevel' : 1 ≤ e.level) :
    Tells L (.cond test e e)
      (s₀ ++ (js " " ++ (js "?" ++ (js " " ++ (s ++ (js " " ++ (js ":" ++ (js " " ++ s'))))))))
      (ts₀ ++ .punct .hook :: ts ++ .punct .colon :: ts') := by
  refine ⟨⟨?_, fun hfollows h => ?_⟩,
    .cond (htest.closed hlevel htrails) (he.anywhere hlevel') (he'.at hlevel' id), ?_⟩
  · obtain ⟨c, cs, rfl, hc⟩ := htest.spells.head
    exact ⟨c, _, rfl, hc⟩
  · simp only [List.append_assoc, List.cons_append]
    exact htest.spells.lexes follows_space (.space (.spacedPunct (p := .hook)
      (he.spells.lexes follows_space (.space (.spacedPunct (p := .colon)
        (he'.spells.weaken.lexes hfollows h))))))
  · rw [List.append_assoc]
    exact htest.opens.append _

theorem tells_member {w : JSString} (he : Tells L e s ts) (hw : L.isWord w = true)
    (hlevel : 15 ≤ e.level) (htrails : e.trails = false) (hdot : e.takesDot = true) :
    Tells L (.member e w) (s ++ (js "." ++ w)) (ts ++ [.punct .dot, .word w]) := by
  have hlexes := he.spells
  rw [hdot] at hlexes
  refine ⟨⟨?_, fun hfollows h => ?_⟩, ?_, he.opens.append _⟩
  · obtain ⟨c, cs, rfl, hc⟩ := he.spells.head
    exact ⟨c, _, rfl, hc⟩
  · simp only [List.append_assoc]
    exact hlexes.lexes follows_dot (.dotWord hw hfollows.part h)
  · obtain hlt | hge := Nat.lt_or_ge e.level 16
    · have h15 : min 16 e.level = 15 := by omega
      exact .weaken (.member (Or.inl rfl) (he.closed hlevel htrails) hw) h15.le id
    · have h16 : min 16 e.level = 16 := by omega
      exact .weaken (.member (Or.inr rfl) (he.closed hge htrails) hw) h16.le id

theorem tells_index (he : Tells L e s ts) (he' : Tells L e' s' ts') (hlevel : 15 ≤ e.level)
    (htrails : e.trails = false) :
    Tells L (.index e e') (s ++ (js "[" ++ (s' ++ js "]")))
      (ts ++ .punct .lb :: ts' ++ [.punct .rb]) := by
  refine ⟨⟨?_, fun hfollows h => ?_⟩, ?_, ?_⟩
  · obtain ⟨c, cs, rfl, hc⟩ := he.spells.head
    exact ⟨c, _, rfl, hc⟩
  · simp only [List.append_assoc, List.cons_append, List.nil_append]
    exact he.spells.lexes (follows_punct (p := .lb) rfl) (.delimiter (p := .lb) rfl
      (he'.spells.lexes (follows_punct (p := .rb) rfl) (.delimiter (p := .rb) rfl h)))
  · have he0 := he'.anywhere (Nat.zero_le _)
    obtain hlt | hge := Nat.lt_or_ge e.level 16
    · have h15 : min 16 e.level = 15 := by omega
      exact .weaken (.index (Or.inl rfl) (he.closed hlevel htrails) he0) h15.le id
    · have h16 : min 16 e.level = 16 := by omega
      exact .weaken (.index (Or.inr rfl) (he.closed hge htrails) he0) h16.le id
  · rw [List.append_assoc]
    exact he.opens.append _

end

end MetaMonkey.Visualizer
