import MetaMonkey.Frontend.Syntax

/-!
`TokenStream`: from a text to its tokens. The text of a word is kept, since
whether it is a keyword depends on where the parser meets it. A number, a
string, a regular expression, a comment and a character outside ASCII are not
read here: a text with one of them has no tokens.
-/

namespace MetaMonkey.Frontend

open Js

/-- The punctuators among the kinds of `TokenKind`. -/
inductive Punct where
  | semi
  | comma
  | hook
  | colon
  | inc
  | dec
  | dot
  | tripleDot
  | lb
  | rb
  | lc
  | rc
  | lp
  | rp
  | metaLq
  | metaRq
  | metaClose
  | metaEsc
  | metaInline
  | metaExec
  | metaDuck
  | metaHash
  | or
  | and
  | bitor
  | bitxor
  | bitand
  | strictEq
  | eq
  | strictNe
  | ne
  | lt
  | le
  | gt
  | ge
  | lsh
  | rsh
  | ursh
  | plus
  | minus
  | star
  | div
  | mod
  | not
  | bitnot
  | arrow
  | assign
  | addAssign
  | subAssign
  | bitorAssign
  | bitxorAssign
  | bitandAssign
  | lshAssign
  | rshAssign
  | urshAssign
  | mulAssign
  | divAssign
  | modAssign
  deriving DecidableEq

/-- `>.` closes a quasi as well as `.>` does. -/
def Punct.text : Punct → String
  | semi => ";"
  | comma => ","
  | hook => "?"
  | colon => ":"
  | inc => "++"
  | dec => "--"
  | dot => "."
  | tripleDot => "..."
  | lb => "["
  | rb => "]"
  | lc => "\x7b"
  | rc => "\x7d"
  | lp => "("
  | rp => ")"
  | metaLq => ".<"
  | metaRq => ".>"
  | metaClose => ">."
  | metaEsc => ".~"
  | metaInline => ".!"
  | metaExec => ".&"
  | metaDuck => ".@"
  | metaHash => ".#"
  | or => "||"
  | and => "&&"
  | bitor => "|"
  | bitxor => "^"
  | bitand => "&"
  | strictEq => "==="
  | eq => "=="
  | strictNe => "!=="
  | ne => "!="
  | lt => "<"
  | le => "<="
  | gt => ">"
  | ge => ">="
  | lsh => "<<"
  | rsh => ">>"
  | ursh => ">>>"
  | plus => "+"
  | minus => "-"
  | star => "*"
  | div => "/"
  | mod => "%"
  | not => "!"
  | bitnot => "~"
  | arrow => "=>"
  | assign => "="
  | addAssign => "+="
  | subAssign => "-="
  | bitorAssign => "|="
  | bitxorAssign => "^="
  | bitandAssign => "&="
  | lshAssign => "<<="
  | rshAssign => ">>="
  | urshAssign => ">>>="
  | mulAssign => "*="
  | divAssign => "/="
  | modAssign => "%="

/-- Every punctuator after those it is a beginning of, so that the first one that
fits is the longest. -/
def punctuators : List Punct :=
  [.urshAssign, .tripleDot, .strictEq, .strictNe, .ursh, .lshAssign, .rshAssign, .inc, .dec,
    .metaLq, .metaRq, .metaClose, .metaEsc, .metaInline, .metaExec, .metaDuck, .metaHash, .or,
    .and, .eq, .ne, .le, .ge, .lsh, .rsh, .arrow, .addAssign, .subAssign, .bitorAssign,
    .bitxorAssign, .bitandAssign, .mulAssign, .divAssign, .modAssign, .semi, .comma, .hook,
    .colon, .dot, .lb, .rb, .lc, .rc, .lp, .rp, .bitor, .bitxor, .bitand, .lt, .gt, .plus,
    .minus, .star, .div, .mod, .not, .bitnot, .assign]

/-- The texts at which a comment begins: of the `-->` only what is at the start of a
line does in the source. -/
def commentStarts : List JSString := [js "//", js "/*", js "<!--", js "-->"]

/-- The keywords, and one for the reserved words, which no production takes. -/
inductive Keyword where
  | false
  | true
  | null
  | break
  | case
  | catch
  | continue
  | debugger
  | default
  | delete
  | do
  | else
  | finally
  | for
  | function
  | if
  | in
  | instanceof
  | new
  | return
  | switch
  | this
  | throw
  | try
  | typeof
  | var
  | void
  | while
  | with
  | const
  | let
  | yield
  | reserved
  deriving DecidableEq

/-- One of the reserved words stands for all. -/
def Keyword.text : Keyword → String
  | false => "false"
  | true => "true"
  | null => "null"
  | «break» => "break"
  | case => "case"
  | «catch» => "catch"
  | «continue» => "continue"
  | debugger => "debugger"
  | default => "default"
  | delete => "delete"
  | «do» => "do"
  | «else» => "else"
  | «finally» => "finally"
  | «for» => "for"
  | function => "function"
  | «if» => "if"
  | «in» => "in"
  | instanceof => "instanceof"
  | new => "new"
  | «return» => "return"
  | switch => "switch"
  | this => "this"
  | throw => "throw"
  | «try» => "try"
  | typeof => "typeof"
  | var => "var"
  | void => "void"
  | «while» => "while"
  | «with» => "with"
  | const => "const"
  | «let» => "let"
  | yield => "yield"
  | reserved => "class"

/-- The table of `Keywords.h`, less the words that are reserved in strict code only. -/
def keywords : List (String × Keyword) :=
  [("false", .false), ("true", .true), ("null", .null), ("break", .break), ("case", .case),
    ("catch", .catch), ("continue", .continue), ("debugger", .debugger), ("default", .default),
    ("delete", .delete), ("do", .do), ("else", .else), ("finally", .finally), ("for", .for),
    ("function", .function), ("if", .if), ("in", .in), ("instanceof", .instanceof),
    ("new", .new), ("return", .return), ("switch", .switch), ("this", .this),
    ("throw", .throw), ("try", .try), ("typeof", .typeof), ("var", .var), ("void", .void),
    ("while", .while), ("with", .with), ("const", .const), ("let", .let), ("yield", .yield),
    ("class", .reserved), ("enum", .reserved), ("export", .reserved), ("extends", .reserved),
    ("import", .reserved), ("super", .reserved)]

/-- `checkForKeyword` -/
def keyword? (w : JSString) : Option Keyword :=
  (keywords.find? fun e => w = js e.1).map Prod.snd

/-- What the parser is handed. A line break is looked at in few places only. -/
inductive Lexeme where
  | word (w : JSString)
  | punct (p : Punct)
  | eol
  deriving DecidableEq

def Lexeme.keyword (k : Keyword) : Lexeme := .word (js k.text)

theorem keyword?_text (k : Keyword) : keyword? (js k.text) = some k := by
  cases k <;> decide

def isIdentifierStart (c : UInt16) : Bool :=
  c = 36 || c = 95 || (65 ≤ c && c ≤ 90) || (97 ≤ c && c ≤ 122)

def isIdentifierPart (c : UInt16) : Bool := isIdentifierStart c || (48 ≤ c && c ≤ 57)

def isSpace (c : UInt16) : Bool := c = 9 || c = 11 || c = 12 || c = 32

def isEol (c : UInt16) : Bool := c = 10 || c = 13

/-- The punctuator at the start of a text. -/
def punctuator? (s : JSString) : Option Punct :=
  if commentStarts.any fun t => t.isPrefixOf s then none
  else punctuators.find? fun p => (js p.text).isPrefixOf s

theorem Punct.text_length (p : Punct) : 0 < (js p.text).length := by
  cases p <;> decide

/-- `getToken`, to the end of the text. -/
def lexemes : JSString → Option (List Lexeme)
  | [] => some []
  | c :: cs =>
      if isSpace c then lexemes cs
      else if isEol c then (lexemes cs).map (.eol :: ·)
      else if isIdentifierStart c then
        (lexemes (cs.dropWhile isIdentifierPart)).map
          (.word (c :: cs.takeWhile isIdentifierPart) :: ·)
      else
        match punctuator? (c :: cs) with
        | some p => (lexemes ((c :: cs).drop (js p.text).length)).map (.punct p :: ·)
        | none => none
termination_by s => s.length
decreasing_by
  · simp
  · simp
  · have := (List.dropWhile_sublist isIdentifierPart (l := cs)).length_le
    simp
    omega
  · have := p.text_length
    simp
    omega

/-- `TokenKind` -/
inductive TokenKind where
  | error | eof | eol | semi | comma | hook | colon | inc | dec | dot | tripleDot | lb | rb
  | lc | rc | lp | rp | metaLq | metaRq | metaEsc | metaInline | metaExec | metaDuck | metaHash
  | name | number | string | regexp | true | false | null | this | function | «if» | «else»
  | switch | case | default | while | «do» | «for» | «break» | «continue» | var | const
  | «with» | «return» | new | delete | «try» | «catch» | «finally» | throw | debugger | yield
  | «let» | «export» | «import» | reserved | strictReserved | or | and | bitor | bitxor
  | bitand | strictEq | eq | strictNe | ne | lt | le | gt | ge | instanceof | «in» | lsh | rsh
  | ursh | plus | minus | star | div | mod | typeof | void | not | bitnot | arrow | assign
  | addAssign | subAssign | bitorAssign | bitxorAssign | bitandAssign | lshAssign | rshAssign
  | urshAssign | mulAssign | divAssign | modAssign
  deriving DecidableEq

/-- The enumeration starts at -1. -/
def TokenKind.value (tt : TokenKind) : ℤ := tt.ctorIdx - 1

end MetaMonkey.Frontend
