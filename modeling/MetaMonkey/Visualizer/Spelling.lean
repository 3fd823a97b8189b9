import MetaMonkey.Visualizer.Grammar

/-!
How the tokens of a text are put together from the tokens of its parts.
-/

namespace MetaMonkey.Visualizer

open Js
open Frontend (Punct Keyword Lexeme UpdateOp keyword? punctuator? punctuator?_append followers
  isLineEnd isIdentifierStart isIdentifierPart isDecimalDigit)

variable {L : Letters} {newline : Bool} {s : JSString} {ts : List Token}

/-! ### Tokens of fixed texts -/

theorem Lexes.space (h : Lexes L newline s ts) : Lexes L newline (js " " ++ s) ts := by
  refine .blank (c := 32) rfl ?_
  have hline : isLineEnd 32 = false := rfl
  rwa [hline, Bool.or_false]

theorem Lexes.eol (h : Lexes L true s ts) : Lexes L newline (js "\n" ++ s) ts := by
  refine .blank (c := 10) rfl ?_
  have hline : isLineEnd 10 = true := rfl
  rwa [hline, Bool.or_true]

theorem Lexes.tabs (n : ℕ) (h : Lexes L newline s ts) :
    Lexes L newline (List.replicate n 9 ++ s) ts := by
  induction n with
  | zero => exact h
  | succ n ih =>
      refine .blank (c := 9) rfl ?_
      have hline : isLineEnd 9 = false := rfl
      rwa [hline, Bool.or_false]

theorem space_not_follower (p : Punct) : 32 ∉ followers p := by
  cases p <;> decide

/-- A punctuator that nothing makes longer. -/
theorem Lexes.delimiter {p : Punct} (hp : followers p = []) (h : Lexes L false s ts) :
    Lexes L newline (js p.text ++ s) (.punct p :: ts) := by
  refine .punct (punctuator?_append fun c _ => by simp [hp]) (fun hdot => ?_) h
  rw [hdot] at hp
  exact absurd hp (by decide)

theorem Lexes.spacedPunct {p : Punct} (h : Lexes L false s ts) :
    Lexes L newline (js p.text ++ (js " " ++ s)) (.punct p :: ts) := by
  refine .punct (punctuator?_append fun c hc => ?_) (fun _ c hc => ?_) h.space
  · obtain rfl : 32 = c := Option.some.inj hc
    exact space_not_follower p
  · obtain rfl : 32 = c := Option.some.inj hc
    rfl

theorem isWord_of_isName {w : JSString} (h : L.isName w = true) : L.isWord w = true := by
  simp only [Letters.isName, Bool.and_eq_true] at h
  exact h.1

theorem isWord_of_text {w : JSString} (h : Frontend.isWordText w = true) : L.isWord w = true := by
  cases w with
  | nil => simp [Frontend.isWordText] at h
  | cons c cs =>
      simp only [Frontend.isWordText, Bool.and_eq_true, List.all_eq_true] at h
      simp only [Letters.isWord, Letters.isStart, Letters.isPart, h.1, Bool.true_or, Bool.true_and,
        List.all_eq_true, Bool.or_eq_true]
      exact fun d hd => Or.inl (h.2 d hd)

theorem Lexes.keyword {k : Keyword} (hend : ∀ c ∈ s.head?, L.isPart c = false)
    (h : Lexes L false s ts) : Lexes L newline (js k.text ++ s) (.keyword k :: ts) :=
  .word (isWord_of_text (Frontend.isWordText_keyword k)) hend h

theorem head_space : ∀ c ∈ (js " " ++ s).head?, L.isPart c = false := by
  intro c hc
  obtain rfl : 32 = c := Option.some.inj hc
  exact Letters.isPart_ascii (by decide)

/-- An operator between blanks. -/
theorem Lexes.operator (l : Lexeme) (hl : l ≠ .eol)
    (hword : ∀ w, l = .word w → Frontend.isWordText w = true)
    (h : Lexes L false s ts) : Lexes L newline (l.text ++ (js " " ++ s)) (tokens l ++ ts) := by
  cases l with
  | word w => exact .word (isWord_of_text (hword w rfl)) head_space h.space
  | punct p => exact .spacedPunct h
  | eol => exact absurd rfl hl

theorem Lexes.binaryOp (op : Frontend.BinaryOp) (h : Lexes L false s ts) :
    Lexes L newline (js op.text ++ (js " " ++ s)) (tokens op.lexeme ++ ts) := by
  rw [← op.lexeme_text]
  refine .operator _ (by cases op <;> nofun) (fun w hw => ?_) h
  cases op <;> cases hw <;> exact Frontend.isWordText_keyword _

theorem Lexes.unaryOp (op : Frontend.UnaryOp) (h : Lexes L false s ts) :
    Lexes L newline (js op.text ++ (js " " ++ s)) (tokens op.lexeme ++ ts) := by
  rw [← op.lexeme_text]
  refine .operator _ (by cases op <;> nofun) (fun w hw => ?_) h
  cases op <;> cases hw <;> exact Frontend.isWordText_keyword _

theorem Lexes.assignOp (op : Frontend.AssignOp) (h : Lexes L false s ts) :
    Lexes L newline (js op.text ++ (js " " ++ s)) (.punct op.punct :: ts) := by
  rw [← op.punct_text]
  exact .spacedPunct h

/-! ### Texts of expressions -/

/-- What may come after the text of an expression; a point only if `dot` says so. -/
def Follows (L : Letters) (dot : Bool) (s : JSString) : Prop :=
  ∀ c ∈ s.head?, L.isPart c = false ∧ c ≠ 62 ∧ (dot = false → c ≠ 46)

/-- The text `s` of an expression has the tokens `ts` wherever it stands. -/
structure Spells (L : Letters) (dot : Bool) (s : JSString) (ts : List Token) : Prop where
  head : ∃ c cs, s = c :: cs ∧ isBlank c = false ∧ c ≠ 62
  lexes : ∀ {newline : Bool} {r : JSString} {rs : List Token}, Follows L dot r →
    Lexes L false r rs → Lexes L newline (s ++ r) (ts ++ rs)

/-- The text of a statement, after which anything may follow. -/
def SpellsLines (L : Letters) (s : JSString) (ts : List Token) : Prop :=
  ∀ {newline : Bool} {r : JSString} {rs : List Token}, Lexes L true r rs →
    Lexes L newline (s ++ r) (ts ++ rs)

section

variable {dot : Bool}

theorem follows_cons {c : UInt16} (hlt : c < 128) (hpart : isIdentifierPart c = false)
    (hgt : c ≠ 62) (hdot : c ≠ 46) : Follows L dot (c :: s) := by
  intro d hd
  obtain rfl : c = d := Option.some.inj hd
  exact ⟨by rw [Letters.isPart_ascii hlt, hpart], hgt, fun _ => hdot⟩

theorem follows_space : Follows L dot (js " " ++ s) :=
  follows_cons (c := 32) (by decide) rfl (by decide) (by decide)

/-- The punctuators that are put after an expression without a blank, but the point. -/
def closes : Punct → Bool
  | .rp | .rb | .lp | .lb | .comma | .semi | .colon => true
  | _ => false

theorem follows_punct {p : Punct} (hp : closes p = true) : Follows L dot (js p.text ++ s) := by
  cases p with
  | rp => exact follows_cons (c := 41) (by decide) rfl (by decide) (by decide)
  | rb => exact follows_cons (c := 93) (by decide) rfl (by decide) (by decide)
  | lp => exact follows_cons (c := 40) (by decide) rfl (by decide) (by decide)
  | lb => exact follows_cons (c := 91) (by decide) rfl (by decide) (by decide)
  | comma => exact follows_cons (c := 44) (by decide) rfl (by decide) (by decide)
  | semi => exact follows_cons (c := 59) (by decide) rfl (by decide) (by decide)
  | colon => exact follows_cons (c := 58) (by decide) rfl (by decide) (by decide)
  | _ => cases hp

theorem Follows.part (h : Follows L dot s) : ∀ c ∈ s.head?, L.isPart c = false :=
  fun c hc => (h c hc).1

theorem head_punct {p : Punct} (hp : closes p = true) :
    ∀ c ∈ (js p.text ++ s).head?, L.isPart c = false :=
  (follows_punct hp : Follows L true _).part

theorem Spells.weaken (h : Spells L dot s ts) : Spells L false s ts := by
  refine ⟨h.head, fun hfollows => h.lexes fun c hc => ?_⟩
  obtain ⟨hpart, hgt, hdot⟩ := hfollows c hc
  exact ⟨hpart, hgt, fun _ => hdot rfl⟩

/-! ### Tokens of an expression -/

theorem not_gt_of_isPart {c : UInt16} (h : L.isPart c = true) : c ≠ 62 := by
  rintro rfl
  rw [Letters.isPart_ascii (by decide)] at h
  exact absurd h (by decide)

theorem word_head {w : JSString} (hw : L.isWord w = true) :
    ∃ c cs, w = c :: cs ∧ L.isStart c = true := by
  cases w with
  | nil => simp [Letters.isWord] at hw
  | cons c cs =>
      simp only [Letters.isWord, Bool.and_eq_true] at hw
      exact ⟨c, cs, rfl, hw.1⟩

theorem word_nonblank {w : JSString} (hw : L.isWord w = true) :
    ∃ c cs, w = c :: cs ∧ isBlank c = false ∧ c ≠ 62 := by
  obtain ⟨c, cs, rfl, hc⟩ := word_head hw
  have hpart := Letters.isPart_of_isStart hc
  exact ⟨c, cs, rfl, Letters.not_blank_of_isPart hpart, not_gt_of_isPart hpart⟩

theorem spells_word {w : JSString} (hw : L.isWord w = true) : Spells L true w [.word w] :=
  ⟨word_nonblank hw, fun hfollows h => .word hw hfollows.part h⟩

theorem spells_keyword (k : Keyword) : Spells L true (js k.text) [.keyword k] :=
  spells_word (isWord_of_text (Frontend.isWordText_keyword k))

theorem spells_string {v : JSString} (hv : v.all (isPlain 39) = true) :
    Spells L true (js "'" ++ v ++ js "'") [.string v] := by
  refine ⟨⟨39, v ++ [39], rfl, rfl, by decide⟩, fun {newline r rs} _ h => ?_⟩
  have hquoted : js "'" ++ v ++ js "'" ++ r = 39 :: (v ++ 39 :: r) := by
    rw [List.append_assoc, List.append_assoc]
    rfl
  rw [hquoted]
  exact .string (Or.inl rfl) hv h

theorem digit_nonblank (d : Fin 10) : isBlank (digitUnit d) = false ∧ digitUnit d ≠ 62 := by
  revert d
  decide

theorem numeral_head {w : JSString} {v : ℚ} (h : Numeral w v) :
    ∃ d cs, w = digitUnit d :: cs := by
  cases h with
  | @mk whole fraction exponent e hwhole hzero he =>
      cases whole with
      | nil => exact absurd rfl hwhole
      | cons d ds => exact ⟨d, _, rfl⟩

theorem spells_number {n : JSNumber} (hn : n.unsigned = true) :
    Spells L (!isInteger n.toString) n.toString [.number n] := by
  obtain ⟨v, hnumeral, hvalue⟩ := JSNumber.numeral_toString hn
  refine ⟨?_, fun hfollows h => .number hnumeral hvalue (fun c hc => ?_) h⟩
  · obtain ⟨d, cs, hcs⟩ := numeral_head hnumeral
    exact ⟨_, cs, hcs, digit_nonblank d⟩
  · obtain ⟨hpart, -, hdot⟩ := hfollows c hc
    exact ⟨hpart, fun hint => hdot (by rw [hint]; rfl)⟩

/-- Nothing in a text begins with `>`, by which `--` would begin a comment. -/
theorem not_follower_update {op : UpdateOp} {c : UInt16} (hc : c ≠ 62) :
    c ∉ followers op.punct := by
  cases op with
  | inc => exact List.not_mem_nil
  | dec =>
      have hall : followers Frontend.UpdateOp.dec.punct = [62] := by decide
      rw [hall]
      simpa using hc

theorem Lexes.prefixOp {op : UpdateOp} (hs : ∀ c ∈ s.head?, c ≠ 62) (h : Lexes L false s ts) :
    Lexes L newline (js op.punct.text ++ s) (.punct op.punct :: ts) := by
  refine .punct (punctuator?_append fun c hc => not_follower_update (hs c hc)) (fun hdot => ?_) h
  cases op <;> cases hdot

theorem Lexes.suffixOp (op : UpdateOp) (hs : Follows L dot s) (h : Lexes L false s ts) :
    Lexes L false (js op.text ++ s) (.suffix op :: ts) := by
  rw [← op.punct_text]
  exact .suffix (punctuator?_append fun c hc => not_follower_update (hs c hc).2.1) h

theorem follows_suffix (op : UpdateOp) : Follows L dot (js op.text ++ s) := by
  cases op with
  | inc => exact follows_cons (c := 43) (by decide) rfl (by decide) (by decide)
  | dec => exact follows_cons (c := 45) (by decide) rfl (by decide) (by decide)

theorem follows_dot : Follows L true (js "." ++ s) := by
  intro c hc
  obtain rfl : 46 = c := Option.some.inj hc
  exact ⟨Letters.isPart_ascii (by decide), by decide, nofun⟩

theorem identifierStart_not_digit {c : UInt16} (hc : isIdentifierStart c = true) :
    isDecimalDigit c = false := by
  simp [isIdentifierStart, isDecimalDigit, UInt16.le_iff_toNat_le, ← UInt16.toNat_inj] at *
  omega

/-- A letter makes no punctuator longer, and a point before it begins no number. -/
theorem not_follower_of_isStart {c : UInt16} (hc : L.isStart c = true) (p : Punct) :
    c ∉ followers p ∧ isDecimalDigit c = false := by
  have hall : ((followers p).all fun c => !isIdentifierStart c && !decide (128 ≤ c)) = true := by
    cases p <;> decide
  simp only [Letters.isStart, Bool.or_eq_true, Bool.and_eq_true, decide_eq_true_eq] at hc
  constructor
  · intro hmem
    have hnot := List.all_eq_true.mp hall c hmem
    simp only [Bool.and_eq_true, Bool.not_eq_true', decide_eq_false_iff_not] at hnot
    obtain hascii | ⟨hle, -⟩ := hc
    · rw [hascii] at hnot
      exact absurd hnot.1 (by simp)
    · exact hnot.2 hle
  · obtain hascii | ⟨hle, -⟩ := hc
    · exact identifierStart_not_digit hascii
    · have hlt : ¬ c ≤ 57 := UInt16.not_le.mpr (UInt16.lt_of_lt_of_le (by decide) hle)
      simp [isDecimalDigit, hlt]

theorem Lexes.dotWord {w : JSString} (hw : L.isWord w = true)
    (hend : ∀ c ∈ s.head?, L.isPart c = false) (h : Lexes L false s ts) :
    Lexes L newline (js "." ++ (w ++ s)) (.punct .dot :: .word w :: ts) := by
  obtain ⟨c, cs, rfl, hc⟩ := word_head hw
  have hfollower := not_follower_of_isStart hc .dot
  refine .punct (p := .dot) (punctuator?_append fun d hd => ?_) (fun _ d hd => ?_) (.word hw hend h)
  · obtain rfl : c = d := Option.some.inj hd
    exact hfollower.1
  · obtain rfl : c = d := Option.some.inj hd
    exact hfollower.2

theorem spells_regexp (r : RegExp) : Spells L true r.toString [.regexp r] :=
  ⟨⟨47, _, rfl, rfl, by decide⟩, fun hfollows h => .regexp hfollows.part h⟩

end

end MetaMonkey.Visualizer
