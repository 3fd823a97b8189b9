import MetaMonkey.Visualizer.Ast
import MetaMonkey.Js.Numeral
import MetaMonkey.Frontend.LayoutText

/-!
From a text to its tokens, literals and quasis included. A slash may begin a
regular expression or be an operator, `++` may stand before or after an operand,
and a keyword may be a name: which one is meant the grammar decides, so that the
tokens of a text are a relation. A comment, an escape in a literal and a blank outside ASCII are not
read, and no semicolon is inserted.
-/

namespace MetaMonkey.Visualizer

open Js
open Frontend (Punct Keyword Lexeme UpdateOp keyword? punctuator? isLineEnd isSpace
  isIdentifierStart isIdentifierPart isDecimalDigit)

def isBlank (c : UInt16) : Bool := isSpace c || isLineEnd c

/-- The letters outside ASCII, which the engine has in tables. -/
structure Letters where
  start : UInt16 → Bool
  part : UInt16 → Bool
  part_of_start : ∀ c, start c = true → part c = true
  not_blank : ∀ c, part c = true → isBlank c = false

inductive Token where
  | word (w : JSString)
  | punct (p : Punct)
  /-- A keyword with the next token on its line. -/
  | jump (k : Keyword)
  /-- `++` or `--` after its operand. -/
  | suffix (op : UpdateOp)
  | string (s : JSString)
  | number (n : JSNumber)
  | regexp (r : RegExp)

def Token.keyword (k : Keyword) : Token := .word (js k.text)

/-- The end of a line is no token of its own. -/
def tokens : Lexeme → List Token
  | .word w => [.word w]
  | .punct p => [.punct p]
  | .eol => []

/-- The next token is on another line. -/
def breaksLine (s : JSString) : Bool := (s.takeWhile isBlank).any isLineEnd

/-- No decimal point and no exponent. -/
def isInteger (w : JSString) : Bool := w.all isDecimalDigit

/-- A character that stands for itself in a string with these quotes. -/
def isPlain (quote c : UInt16) : Bool := c ≠ quote && c ≠ 92 && !isLineEnd c

section

variable (L : Letters)

def Letters.isStart (c : UInt16) : Bool := isIdentifierStart c || (128 ≤ c && L.start c)

def Letters.isPart (c : UInt16) : Bool := isIdentifierPart c || (128 ≤ c && L.part c)

def Letters.isWord : JSString → Bool
  | [] => false
  | c :: cs => L.isStart c && cs.all L.isPart

/-- A word that is no keyword. -/
def Letters.isName (w : JSString) : Bool := L.isWord w && (keyword? w).isNone

/-- The tokens of a text, where `newline` tells whether a line has ended since the last
token. Each is the longest one that begins at its place. -/
inductive Lexes : Bool → JSString → List Token → Prop
  | eof (newline : Bool) : Lexes newline [] []
  | blank {newline : Bool} {c : UInt16} {s : JSString} {ts : List Token}
      (hc : isBlank c = true) (hs : Lexes (newline || isLineEnd c) s ts) :
      Lexes newline (c :: s) ts
  | word {newline : Bool} {w s : JSString} {ts : List Token} (hw : L.isWord w = true)
      (hend : ∀ c ∈ s.head?, L.isPart c = false) (hs : Lexes false s ts) :
      Lexes newline (w ++ s) (.word w :: ts)
  | jump {newline : Bool} {k : Keyword} {s : JSString} {ts : List Token}
      (hend : ∀ c ∈ s.head?, L.isPart c = false) (hline : breaksLine s = false)
      (hs : Lexes false s ts) : Lexes newline (js k.text ++ s) (.jump k :: ts)
  | punct {newline : Bool} {p : Punct} {s : JSString} {ts : List Token}
      (hp : punctuator? (js p.text ++ s) = some p)
      (hdot : p = .dot → ∀ c ∈ s.head?, isDecimalDigit c = false)
      (hs : Lexes false s ts) : Lexes newline (js p.text ++ s) (.punct p :: ts)
  | suffix {op : UpdateOp} {s : JSString} {ts : List Token}
      (hp : punctuator? (js op.punct.text ++ s) = some op.punct) (hs : Lexes false s ts) :
      Lexes false (js op.punct.text ++ s) (.suffix op :: ts)
  | string {newline : Bool} {quote : UInt16} {body s : JSString} {ts : List Token}
      (hquote : quote = 39 ∨ quote = 34) (hbody : body.all (isPlain quote) = true)
      (hs : Lexes false s ts) :
      Lexes newline (quote :: (body ++ quote :: s)) (.string body :: ts)
  | number {newline : Bool} {w s : JSString} {v : ℚ} {n : JSNumber} {ts : List Token}
      (hw : Numeral w v) (hn : n.HasValue v)
      (hend : ∀ c ∈ s.head?, L.isPart c = false ∧ (isInteger w = true → c ≠ 46))
      (hs : Lexes false s ts) : Lexes newline (w ++ s) (.number n :: ts)
  | regexp {newline : Bool} {r : RegExp} {s : JSString} {ts : List Token}
      (hend : ∀ c ∈ s.head?, L.isPart c = false) (hs : Lexes false s ts) :
      Lexes newline (r.toString ++ s) (.regexp r :: ts)

end

section

variable {L : Letters} {newline : Bool} {s : JSString} {ts : List Token}

theorem Letters.isPart_ascii {c : UInt16} (hlt : c < 128) : L.isPart c = isIdentifierPart c := by
  have hnot : ¬ 128 ≤ c := UInt16.not_le.mpr hlt
  simp [Letters.isPart, hnot]

theorem Letters.isPart_of_isStart {c : UInt16} (h : L.isStart c = true) : L.isPart c = true := by
  simp only [Letters.isStart, Bool.or_eq_true, Bool.and_eq_true] at h
  simp only [Letters.isPart, isIdentifierPart, Bool.or_eq_true, Bool.and_eq_true]
  obtain hascii | ⟨hle, hstart⟩ := h
  · exact Or.inl (Or.inl hascii)
  · exact Or.inr ⟨hle, L.part_of_start c hstart⟩

theorem Letters.not_blank_of_isPart {c : UInt16} (h : L.isPart c = true) : isBlank c = false := by
  simp only [Letters.isPart, Bool.or_eq_true, Bool.and_eq_true] at h
  obtain hascii | ⟨-, hpart⟩ := h
  · by_contra hblank
    simp only [Bool.not_eq_false, isBlank, isSpace, isLineEnd, Bool.or_eq_true,
      decide_eq_true_eq] at hblank
    obtain (((rfl | rfl) | rfl) | rfl) | (((rfl | rfl) | rfl) | rfl) := hblank <;>
      revert hascii <;> decide
  · exact L.not_blank c hpart

/-- No text needs the line to have ended. -/
theorem Lexes.anyLine (h : Lexes L newline s ts) : ∀ {newline' : Bool},
    (newline' = true → newline = true) → Lexes L newline' s ts := by
  induction h with
  | eof newline => exact fun _ => .eof _
  | blank hc hs ih =>
      intro newline' hle
      refine .blank hc (ih fun h => ?_)
      simp only [Bool.or_eq_true] at h ⊢
      exact h.imp_left hle
  | word hw hend hs ih => exact fun _ => .word hw hend hs
  | jump hend hline hs ih => exact fun _ => .jump hend hline hs
  | punct hp hdot hs ih => exact fun _ => .punct hp hdot hs
  | suffix hp hs ih =>
      intro newline' hle
      obtain rfl : newline' = false := by simpa using hle
      exact .suffix hp hs
  | string hquote hbody hs ih => exact fun _ => .string hquote hbody hs
  | number hw hn hend hs ih => exact fun _ => .number hw hn hend hs
  | regexp hend hs ih => exact fun _ => .regexp hend hs

theorem Lexes.newLine (h : Lexes L true s ts) : Lexes L newline s ts := h.anyLine fun _ => rfl

theorem Lexes.sameLine (h : Lexes L newline s ts) : Lexes L false s ts := h.anyLine nofun

end

end MetaMonkey.Visualizer
