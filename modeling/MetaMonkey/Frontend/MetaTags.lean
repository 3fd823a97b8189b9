import MetaMonkey.Frontend.TokenStream

/-!
`getTokenInternal` with the tags and without them. The characters that the tags
begin and end with are scanned here; for the rest, which the tags do not touch,
both have the same functions.
-/

namespace MetaMonkey.Frontend

open Js

def Punct.isMeta : Punct → Bool
  | metaLq | metaRq | metaClose | metaEsc | metaInline | metaExec | metaDuck | metaHash => true
  | _ => false

/-- A name, a keyword, a number, a string or a regular expression is `other`. -/
inductive LexToken (τ : Type) where
  | punct (p : Punct)
  | other (t : τ)
  deriving DecidableEq

def LexToken.isMeta {τ : Type} : LexToken τ → Bool
  | punct p => p.isMeta
  | other _ => false

/-- The tokens that a tag may be taken for, and the tags. -/
def LexToken.touched {τ : Type} : LexToken τ → Bool
  | punct .dot => true
  | punct .gt => true
  | t => t.isMeta

/-- The end of a pass through `getTokenInternal`; a comment or a blank leads back to
its beginning. -/
inductive Scan (τ σ : Type) where
  | token (t : LexToken τ) (s : σ) (rest : JSString)
  | retry (s : σ) (rest : JSString)
  | error

/-- What the tags leave as it is. `μ` are the modes in which the parser asks for a token,
and `σ` are the flags about the line. -/
structure PlainLexer (τ σ μ : Type) where
  /-- The characters that are not scanned below. -/
  other : μ → σ → UInt16 → JSString → Scan τ σ
  /-- A number from its point on. -/
  decimal : σ → JSString → Scan τ σ
  dirtyLine : σ → σ
  inHtmlComment : σ → σ
  other_plain : ∀ m s c cs t s' rest, other m s c cs = .token t s' rest → t.touched = false
  decimal_plain : ∀ s cs t s' rest, decimal s cs = .token t s' rest → t.touched = false

/-! ### Tags -/

/-- The tag that a point makes with the character after it. The source has one kind of token
for `.>` and `>.`, which are told apart here by their texts. -/
def metaTag? (c : UInt16) : Option Punct :=
  if c = 60 then some .metaLq
  else if c = 62 then some .metaRq
  else if c = 126 then some .metaEsc
  else if c = 33 then some .metaInline
  else if c = 38 then some .metaExec
  else if c = 64 then some .metaDuck
  else if c = 35 then some .metaHash
  else none

def isDecimalDigit (c : UInt16) : Bool := 48 ≤ c && c ≤ 57

def isLineEnd (c : UInt16) : Bool := c = 10 || c = 13 || c = 0x2028 || c = 0x2029

section

variable {τ σ μ : Type} (L : PlainLexer τ σ μ)

def punctToken (s : σ) (p : Punct) (rest : JSString) : Scan τ σ :=
  .token (.punct p) (L.dirtyLine s) rest

/-- A pass after `.` -/
def scanDot (tags : Bool) (s : σ) : JSString → Scan τ σ
  | [] => punctToken L s .dot []
  | c :: cs =>
      match if tags then metaTag? c else none with
      | some p => punctToken L s p cs
      | none =>
          if isDecimalDigit c then L.decimal s (c :: cs)
          else if c = 46 ∧ cs.head? = some 46 then punctToken L s .tripleDot cs.tail
          else punctToken L s .dot (c :: cs)

/-- A pass after `>` -/
def scanGreater (tags : Bool) (s : σ) : JSString → Scan τ σ
  | 62 :: 62 :: 61 :: cs => punctToken L s .urshAssign cs
  | 62 :: 62 :: cs => punctToken L s .ursh cs
  | 62 :: 61 :: cs => punctToken L s .rshAssign cs
  | 62 :: cs => punctToken L s .rsh cs
  | 61 :: cs => punctToken L s .ge cs
  | 46 :: cs => if tags then punctToken L s .metaClose cs else punctToken L s .gt (46 :: cs)
  | cs => punctToken L s .gt cs

/-- A pass after `<`; `<!--` starts a comment that ends with the line. -/
def scanLess (s : σ) : JSString → Scan τ σ
  | 33 :: 45 :: 45 :: cs => .retry (L.inHtmlComment s) (cs.dropWhile fun c => !isLineEnd c)
  | 60 :: 61 :: cs => punctToken L s .lshAssign cs
  | 60 :: cs => punctToken L s .lsh cs
  | 61 :: cs => punctToken L s .le cs
  | cs => punctToken L s .lt cs

def scanNot (s : σ) : JSString → Scan τ σ
  | 61 :: 61 :: cs => punctToken L s .strictNe cs
  | 61 :: cs => punctToken L s .ne cs
  | cs => punctToken L s .not cs

def scanAnd (s : σ) : JSString → Scan τ σ
  | 38 :: cs => punctToken L s .and cs
  | 61 :: cs => punctToken L s .bitandAssign cs
  | cs => punctToken L s .bitand cs

/-- A pass through `getTokenInternal`, where `tags` tells whether it knows the tags. -/
def scan (tags : Bool) (m : μ) (s : σ) (c : UInt16) (cs : JSString) : Scan τ σ :=
  if c = 46 then scanDot L tags s cs
  else if c = 62 then scanGreater L tags s cs
  else if c = 60 then scanLess L s cs
  else if c = 33 then scanNot L s cs
  else if c = 38 then scanAnd L s cs
  else if c = 126 then punctToken L s .bitnot cs
  -- no token starts with these characters
  else if c = 64 ∨ c = 35 then .error
  else L.other m s c cs

/-- The next token of a text, if it has one. -/
inductive Next (tags : Bool) (m : μ) : σ → JSString → Option (LexToken τ × σ × JSString) → Prop
  | eof (s : σ) : Next tags m s [] none
  | token {s s' : σ} {c : UInt16} {cs rest : JSString} {t : LexToken τ}
      (h : scan L tags m s c cs = .token t s' rest) : Next tags m s (c :: cs) (some (t, s', rest))
  | retry {s s' : σ} {c : UInt16} {cs rest : JSString} {r : Option (LexToken τ × σ × JSString)}
      (h : scan L tags m s c cs = .retry s' rest) (hr : Next tags m s' rest r) :
      Next tags m s (c :: cs) r

/-- The tokens of a text, each with what is left after it. The parser asks for a token in a
mode that depends on the tokens before it. -/
inductive Tokens (tags : Bool) (mode : List (LexToken τ) → μ) :
    List (LexToken τ) → σ → JSString → List (LexToken τ × JSString) → Prop
  | eof {before : List (LexToken τ)} {s : σ} {text : JSString}
      (h : Next L tags (mode before) s text none) : Tokens tags mode before s text []
  | cons {before : List (LexToken τ)} {s s' : σ} {text rest : JSString} {t : LexToken τ}
      {ts : List (LexToken τ × JSString)}
      (h : Next L tags (mode before) s text (some (t, s', rest)))
      (hts : Tokens tags mode (before ++ [t]) s' rest ts) :
      Tokens tags mode before s text ((t, rest) :: ts)

end

/-- After a point the grammar has a name. -/
def NameAfterDot {τ : Type} (ts : List (LexToken τ)) : Prop :=
  ∀ xs ys, ts = xs ++ .punct .dot :: ys → ∃ t zs, ys = .other t :: zs

/-- No point of a number follows a `>` at once, and no comment follows a point at once. -/
def Unspoilt {τ : Type} (trace : List (LexToken τ × JSString)) : Prop :=
  ∀ x ∈ trace, (x.1 = .punct .gt → x.2.head? ≠ some 46) ∧
    (x.1 = .punct .dot → ¬ js "<!--" <+: x.2)

/-! ### One token -/

/-- A tag at the beginning of a text. -/
def Captured (c : UInt16) (cs : JSString) : Prop :=
  (c = 46 ∧ ∃ d ∈ cs.head?, (metaTag? d).isSome = true) ∨ (c = 62 ∧ cs.head? = some 46)

section

variable {τ σ μ : Type} {L : PlainLexer τ σ μ} {m : μ} {s s' : σ} {c : UInt16}
  {cs rest text : JSString} {t : LexToken τ}

theorem metaTag?_isMeta {p : Punct} (h : metaTag? c = some p) : p.isMeta = true := by
  unfold metaTag? at h
  repeat' split at h
  all_goals first | (cases h; rfl) | cases h

/-- Where no tag begins, both lexers do the same. -/
theorem scan_tags (h : ¬ Captured c cs) : scan L true m s c cs = scan L false m s c cs := by
  by_cases hdot : c = 46
  · subst hdot
    cases cs with
    | nil => rfl
    | cons d ds =>
        have hd : metaTag? d = none := by
          rw [← Option.not_isSome_iff_eq_none]
          exact fun hsome => h (.inl ⟨rfl, d, rfl, hsome⟩)
        simp [scan, scanDot, hd]
  · by_cases hgt : c = 62
    · subst hgt
      have hpoint : cs.head? ≠ some 46 := fun hpoint => h (.inr ⟨rfl, hpoint⟩)
      have hscan : scanGreater L true s cs = scanGreater L false s cs := by
        unfold scanGreater
        split <;> first | rfl | simp at hpoint
      simp [scan, hscan]
    · simp [scan, hdot, hgt]

theorem scan_captured (h : Captured c cs) : ∃ p s' rest,
    scan L true m s c cs = .token (.punct p) s' rest ∧ p.isMeta = true := by
  obtain ⟨rfl, d, hd, htag⟩ | ⟨rfl, hpoint⟩ := h
  · obtain ⟨ds, rfl⟩ := List.head?_eq_some_iff.mp hd
    obtain ⟨p, hp⟩ := Option.isSome_iff_exists.mp htag
    exact ⟨p, L.dirtyLine s, ds, by simp [scan, scanDot, hp, punctToken], metaTag?_isMeta hp⟩
  · obtain ⟨ds, rfl⟩ := List.head?_eq_some_iff.mp hpoint
    exact ⟨.metaClose, L.dirtyLine s, ds, by simp [scan, scanGreater, punctToken], rfl⟩

/-- The lexer without tags takes the point or the `>` alone. -/
theorem scan_plain_captured (h : Captured c cs) :
    (c = 46 ∧ scan L false m s c cs = punctToken L s .dot cs) ∨
      (c = 62 ∧ scan L false m s c cs = punctToken L s .gt cs) := by
  obtain ⟨rfl, d, hd, htag⟩ | ⟨rfl, hpoint⟩ := h
  · obtain ⟨ds, rfl⟩ := List.head?_eq_some_iff.mp hd
    refine .inl ⟨rfl, ?_⟩
    have hdigit : isDecimalDigit d = false ∧ d ≠ 46 := by
      unfold metaTag? at htag
      repeat' split at htag
      all_goals first | (subst_vars; decide) | cases htag
    simp [scan, scanDot, hdigit]
  · obtain ⟨ds, rfl⟩ := List.head?_eq_some_iff.mp hpoint
    exact .inr ⟨rfl, by simp [scan, scanGreater]⟩

/-- Without tags a point or a `>` that is a token of its own is the first character, and
no tag is a token. -/
theorem scan_plain_touched (h : scan L false m s c cs = .token t s' rest)
    (ht : t.touched = true) :
    rest = cs ∧ ((t = .punct .dot ∧ c = 46) ∨ (t = .punct .gt ∧ c = 62)) := by
  unfold scan at h
  repeat' split at h
  · rename_i hc
    cases cs with
    | nil =>
        cases h
        exact ⟨rfl, .inl ⟨rfl, hc⟩⟩
    | cons d ds =>
        simp only [scanDot, Bool.false_eq_true, if_false] at h
        repeat' split at h
        · rw [L.decimal_plain _ _ _ _ _ h] at ht
          cases ht
        · cases h
          cases ht
        · cases h
          exact ⟨rfl, .inl ⟨rfl, hc⟩⟩
  · rename_i hc
    unfold scanGreater at h
    split at h <;> cases h <;> first | exact ⟨rfl, .inr ⟨rfl, hc⟩⟩ | cases ht
  · unfold scanLess at h
    split at h <;> cases h <;> cases ht
  · unfold scanNot at h
    split at h <;> cases h <;> cases ht
  · unfold scanAnd at h
    split at h <;> cases h <;> cases ht
  · cases h
    cases ht
  · cases h
  · rw [L.other_plain _ _ _ _ _ _ _ h] at ht
    cases ht

/-! ### Runs -/

theorem Next.unique {tags : Bool} {r r' : Option (LexToken τ × σ × JSString)}
    (h : Next L tags m s text r) (h' : Next L tags m s text r') : r = r' := by
  induction h with
  | eof s =>
      cases h'
      rfl
  | token hscan =>
      cases h' with
      | token hscan' =>
          cases hscan.symm.trans hscan'
          rfl
      | retry hscan' _ => cases hscan.symm.trans hscan'
  | retry hscan _ ih =>
      cases h' with
      | token hscan' => cases hscan.symm.trans hscan'
      | retry hscan' hr' =>
          cases hscan.symm.trans hscan'
          exact ih hr'

theorem not_captured_of_retry (h : scan L false m s c cs = .retry s' rest) : ¬ Captured c cs := by
  intro hcap
  obtain ⟨-, hdot⟩ | ⟨-, hgt⟩ := scan_plain_captured (L := L) (m := m) (s := s) hcap
  · cases hdot.symm.trans h
  · cases hgt.symm.trans h

theorem next_eof (h : Next L false m s text none) : Next L true m s text none := by
  generalize hr : (none : Option (LexToken τ × σ × JSString)) = r at h
  induction h with
  | eof s => exact .eof s
  | token hscan => cases hr
  | retry hscan _ ih =>
      exact .retry ((scan_tags (not_captured_of_retry hscan)).trans hscan) (ih hr)

/-- Whether a token is the beginning of a tag. -/
def BeginsTag (t : LexToken τ) (rest : JSString) : Prop :=
  (t = .punct .dot ∧ ∃ d ∈ rest.head?, (metaTag? d).isSome = true) ∨
    (t = .punct .gt ∧ rest.head? = some 46)

theorem captured_iff (h : scan L false m s c cs = .token t s' rest) :
    Captured c cs ↔ BeginsTag t rest := by
  constructor
  · intro hcap
    obtain ⟨rfl, hdot⟩ | ⟨rfl, hgt⟩ := scan_plain_captured (L := L) (m := m) (s := s) hcap
    · cases hdot.symm.trans h
      exact hcap.imp (fun h => ⟨rfl, h.2⟩) (fun h => by simp at h)
    · cases hgt.symm.trans h
      exact hcap.imp (fun h => by simp at h) (fun h => ⟨rfl, h.2⟩)
  · intro htag
    have ht : t.touched = true := by
      obtain ⟨rfl, -⟩ | ⟨rfl, -⟩ := htag <;> rfl
    obtain ⟨rfl, hc⟩ := scan_plain_touched h ht
    obtain ⟨rfl, hd⟩ | ⟨rfl, hpoint⟩ := htag
    · obtain ⟨-, rfl⟩ | ⟨hne, -⟩ := hc
      · exact .inl ⟨rfl, hd⟩
      · cases hne
    · obtain ⟨hne, -⟩ | ⟨-, rfl⟩ := hc
      · cases hne
      · exact .inr ⟨rfl, hpoint⟩

theorem next_tags (h : Next L false m s text (some (t, s', rest))) (htag : ¬ BeginsTag t rest) :
    Next L true m s text (some (t, s', rest)) := by
  generalize hr : some (t, s', rest) = r at h
  induction h with
  | eof s => cases hr
  | token hscan =>
      cases hr
      exact .token ((scan_tags fun hcap => htag ((captured_iff hscan).mp hcap)).trans hscan)
  | retry hscan _ ih =>
      exact .retry ((scan_tags (not_captured_of_retry hscan)).trans hscan) (ih hr)

theorem next_captured (h : Next L false m s text (some (t, s', rest))) (htag : BeginsTag t rest) :
    ∃ p s'' r, Next L true m s text (some (.punct p, s'', r)) ∧ p.isMeta = true := by
  generalize hr : some (t, s', rest) = r at h
  induction h with
  | eof s => cases hr
  | token hscan =>
      cases hr
      obtain ⟨p, s'', r, hp, hmeta⟩ := scan_captured (L := L) (m := m)
        ((captured_iff hscan).mpr htag)
      exact ⟨p, s'', r, .token hp, hmeta⟩
  | retry hscan _ ih =>
      obtain ⟨p, s'', r, hp, hmeta⟩ := ih hr
      exact ⟨p, s'', r,
        .retry ((scan_tags (not_captured_of_retry hscan)).trans hscan) hp, hmeta⟩

theorem next_not_meta (h : Next L false m s text (some (t, s', rest))) : t.isMeta = false := by
  generalize hr : some (t, s', rest) = r at h
  induction h with
  | eof s => cases hr
  | token hscan =>
      cases hr
      by_contra hmeta
      have hmeta : t.isMeta = true := by simpa using hmeta
      have ht : t.touched = true := by
        unfold LexToken.touched
        split <;> first | rfl | exact hmeta
      obtain ⟨-, ⟨rfl, -⟩ | ⟨rfl, -⟩⟩ := scan_plain_touched hscan ht <;> cases hmeta
  | retry _ _ ih => exact ih hr

theorem metaTag?_isSome_iff :
    (metaTag? c).isSome = true ↔ c ∈ [60, 62, 126, 33, 38, 64, 35] := by
  unfold metaTag?
  repeat' split
  all_goals simp_all

/-- A character that makes a tag with a point begins a punctuator or a comment. -/
theorem scan_metaTag (hc : (metaTag? c).isSome = true) :
    js "<!--" <+: c :: cs ∨ scan L false m s c cs = .error ∨
      ∃ p, ∃ s' rest, scan L false m s c cs = .token (.punct p) s' rest := by
  rw [metaTag?_isSome_iff] at hc
  simp only [List.mem_cons, List.not_mem_nil, or_false] at hc
  obtain rfl | rfl | rfl | rfl | rfl | rfl | rfl := hc
  · have hscan : scan L false m s 60 cs = scanLess L s cs := rfl
    rw [hscan]
    unfold scanLess
    split
    · exact .inl ⟨_, rfl⟩
    all_goals exact .inr (.inr ⟨_, _, _, rfl⟩)
  · have hscan : scan L false m s 62 cs = scanGreater L false s cs := rfl
    rw [hscan]
    unfold scanGreater
    split <;> exact .inr (.inr ⟨_, _, _, rfl⟩)
  · exact .inr (.inr ⟨_, _, _, rfl⟩)
  · have hscan : scan L false m s 33 cs = scanNot L s cs := rfl
    rw [hscan]
    unfold scanNot
    split <;> exact .inr (.inr ⟨_, _, _, rfl⟩)
  · have hscan : scan L false m s 38 cs = scanAnd L s cs := rfl
    rw [hscan]
    unfold scanAnd
    split <;> exact .inr (.inr ⟨_, _, _, rfl⟩)
  · exact .inr (.inl rfl)
  · exact .inr (.inl rfl)

/-- So a name comes after it only behind a comment. -/
theorem comment_of_name {n : τ} (hc : (metaTag? c).isSome = true)
    (h : Next L false m s (c :: cs) (some (.other n, s', rest))) : js "<!--" <+: c :: cs := by
  obtain hcomment | herror | ⟨p, s₀, rest₀, hp⟩ := @scan_metaTag _ _ _ L m s _ cs hc
  · exact hcomment
  · cases h with
    | token hscan => cases herror.symm.trans hscan
    | retry hscan _ => cases herror.symm.trans hscan
  · cases h with
    | token hscan => cases hp.symm.trans hscan
    | retry hscan _ => cases hp.symm.trans hscan

/-! ### Whole texts -/

variable {mode : List (LexToken τ) → μ} {before : List (LexToken τ)}
  {trace : List (LexToken τ × JSString)}

/-- One token of a text that the grammar accepts begins a tag just where it spoils it. -/
theorem beginsTag_iff {ts : List (LexToken τ × JSString)}
    (hts : Tokens L false mode (before ++ [t]) s rest ts)
    (hname : NameAfterDot (before ++ t :: ts.map Prod.fst)) :
    BeginsTag t rest ↔ (t = .punct .gt ∧ rest.head? = some 46) ∨
      (t = .punct .dot ∧ js "<!--" <+: rest) := by
  constructor
  · rintro (⟨rfl, d, hd, htag⟩ | hgt)
    · obtain ⟨ds, rfl⟩ := List.head?_eq_some_iff.mp hd
      obtain ⟨n, zs, hn⟩ := hname before _ rfl
      refine .inr ⟨rfl, ?_⟩
      cases hts with
      | eof => cases hn
      | cons hnext _ =>
          cases hn
          exact comment_of_name htag hnext
    · exact .inl hgt
  · rintro (hgt | ⟨rfl, ⟨ds, rfl⟩⟩)
    · exact .inr hgt
    · exact .inl ⟨rfl, 60, rfl, rfl⟩

theorem tokens_tags (h : Tokens L false mode before s text trace)
    (hname : NameAfterDot (before ++ trace.map Prod.fst)) (hun : Unspoilt trace) :
    Tokens L true mode before s text trace := by
  induction h with
  | eof hnext => exact .eof (next_eof hnext)
  | @cons before s s' text rest t ts hnext hts ih =>
      have hhead := hun (t, rest) List.mem_cons_self
      refine .cons (next_tags hnext ?_) (ih (by simpa using hname) fun x hx =>
        hun x (List.mem_cons_of_mem _ hx))
      rw [beginsTag_iff hts (by simpa using hname)]
      rintro (⟨ht, hpoint⟩ | ⟨ht, hcomment⟩)
      · exact hhead.1 ht hpoint
      · exact hhead.2 ht hcomment

/-- The first tag spoils the sequence, whatever comes after it. -/
theorem unspoilt_of_tokens {trace' : List (LexToken τ × JSString)}
    (h : Tokens L false mode before s text trace)
    (hname : NameAfterDot (before ++ trace.map Prod.fst))
    (h' : Tokens L true mode before s text trace')
    (hmeta : ∀ x ∈ trace', x.1.isMeta = false)
    (hsame : trace'.map Prod.fst = trace.map Prod.fst) : Unspoilt trace := by
  induction h generalizing trace' with
  | eof => exact fun x hx => by cases hx
  | @cons before s s' text rest t ts hnext hts ih =>
      have hname' : NameAfterDot (before ++ t :: ts.map Prod.fst) := by simpa using hname
      cases h' with
      | eof => cases hsame
      | @cons _ _ s'' _ rest' t' ts' hnext' hts' =>
          have htag : ¬ BeginsTag t rest := by
            intro htag
            obtain ⟨p, s₁, r, hp, hpmeta⟩ := next_captured hnext htag
            cases hnext'.unique hp
            exact absurd (hmeta _ List.mem_cons_self) (by simp [LexToken.isMeta, hpmeta])
          cases hnext'.unique (next_tags hnext htag)
          have hrest : Unspoilt ts := ih (by simpa using hname) hts'
            (fun x hx => hmeta x (List.mem_cons_of_mem _ hx)) (by simpa using hsame)
          rw [beginsTag_iff hts hname'] at htag
          rintro x (_ | ⟨_, hx⟩)
          · exact ⟨fun ht hpoint => htag (.inl ⟨ht, hpoint⟩),
              fun ht hcomment => htag (.inr ⟨ht, hcomment⟩)⟩
          · exact hrest x hx

theorem tokens_not_meta (h : Tokens L false mode before s text trace)
    {x : LexToken τ × JSString} (hx : x ∈ trace) : x.1.isMeta = false := by
  induction h with
  | eof => cases hx
  | cons hnext _ ih =>
      cases hx with
      | head => exact next_not_meta hnext
      | tail _ hx => exact ih hx

/-- The lexer with tags reads a text of plain JavaScript as the lexer without them just where
no `>` has a point of a number at once after it, and no point a comment. -/
theorem lexer_conservative_iff (L : PlainLexer τ σ μ) (mode : List (LexToken τ) → μ)
    (accepts : List (LexToken τ) → Prop) (hname : ∀ ts, accepts ts → NameAfterDot ts)
    (s : σ) (text : JSString) (trace : List (LexToken τ × JSString))
    (h : Tokens L false mode [] s text trace) (haccepts : accepts (trace.map Prod.fst)) :
    (∃ trace', Tokens L true mode [] s text trace' ∧
      trace'.map Prod.fst = trace.map Prod.fst ∧ ∀ x ∈ trace', x.1.isMeta = false) ↔
      Unspoilt trace := by
  have hnamed := hname _ haccepts
  constructor
  · rintro ⟨trace', h', hsame, hmeta⟩
    exact unspoilt_of_tokens h hnamed h' hmeta hsame
  · intro hun
    exact ⟨trace, tokens_tags h hnamed hun, rfl, fun x hx => tokens_not_meta h hx⟩

end

/-- A lexer for names and numbers of one character. -/
def letters : PlainLexer UInt16 Unit Unit where
  other _ s c cs := if c = 32 then .retry s cs else .token (.other c) s cs
  decimal s
    | [] => .error
    | c :: cs => .token (.other c) s cs
  dirtyLine s := s
  inHtmlComment s := s
  other_plain m s c cs t s' rest h := by
    split at h <;> cases h
    rfl
  decimal_plain s cs t s' rest h := by
    split at h <;> cases h
    rfl

theorem nameAfterDot_cons {τ : Type} {t : LexToken τ} {ts : List (LexToken τ)}
    (h : t ≠ .punct .dot) (hts : NameAfterDot ts) : NameAfterDot (t :: ts) := by
  intro xs ys heq
  cases xs with
  | nil => exact absurd (List.cons.inj heq).1 h
  | cons x xs => exact hts xs ys (List.cons.inj heq).2

theorem nameAfterDot_dot {τ : Type} {n : τ} {ts : List (LexToken τ)} (hts : NameAfterDot ts) :
    NameAfterDot (.punct .dot :: .other n :: ts) := by
  intro xs ys heq
  cases xs with
  | nil => exact ⟨n, ts, (List.cons.inj heq).2.symm⟩
  | cons x xs =>
      exact nameAfterDot_cons (fun h => by cases h) hts xs ys (List.cons.inj heq).2

theorem nameAfterDot_nil {τ : Type} : NameAfterDot ([] : List (LexToken τ)) := by
  intro xs ys heq
  simp at heq

/-- `a.b> .5` -/
def spacedFraction : List (LexToken UInt16 × JSString) :=
  [(.other 97, js ".b> .5"), (.punct .dot, js "b> .5"), (.other 98, js "> .5"),
    (.punct .gt, js " .5"), (.other 53, [])]

theorem spacedFraction_tokens :
    Tokens letters false (fun _ => ()) [] () (js "a.b> .5") spacedFraction :=
  .cons (.token rfl) <| .cons (.token rfl) <| .cons (.token rfl) <| .cons (.token rfl) <|
    .cons (.retry rfl (.token rfl)) (.eof (.eof ()))

theorem lexer_conservative_spacedFraction :
    Unspoilt spacedFraction ∧
      ∃ trace', Tokens letters true (fun _ => ()) [] () (js "a.b> .5") trace' ∧
        trace'.map Prod.fst = spacedFraction.map Prod.fst ∧
          ∀ x ∈ trace', x.1.isMeta = false := by
  have hnamed : NameAfterDot (spacedFraction.map Prod.fst) :=
    nameAfterDot_cons (by decide) <| nameAfterDot_dot <| nameAfterDot_cons (by decide) <|
      nameAfterDot_cons (by decide) nameAfterDot_nil
  have hun : Unspoilt spacedFraction := by
    rw [Unspoilt]
    decide
  exact ⟨hun, (lexer_conservative_iff letters _ NameAfterDot (fun _ h => h) () _ _
    spacedFraction_tokens hnamed).mpr hun⟩

/-- `a>.5` -/
def closeFraction : List (LexToken UInt16 × JSString) :=
  [(.other 97, js ">.5"), (.punct .gt, js ".5"), (.other 53, [])]

/-- In `a>.5` the fraction's point becomes the end of a quasi-quote. -/
theorem lexer_captures_fraction :
    Tokens letters false (fun _ => ()) [] () (js "a>.5") closeFraction ∧
      NameAfterDot (closeFraction.map Prod.fst) ∧
      Tokens letters true (fun _ => ()) [] () (js "a>.5")
        [(.other 97, js ">.5"), (.punct .metaClose, js "5"), (.other 53, [])] ∧
      ¬ ∃ trace', Tokens letters true (fun _ => ()) [] () (js "a>.5") trace' ∧
        trace'.map Prod.fst = closeFraction.map Prod.fst ∧
          ∀ x ∈ trace', x.1.isMeta = false := by
  have hplain : Tokens letters false (fun _ => ()) [] () (js "a>.5") closeFraction :=
    .cons (.token rfl) <| .cons (.token rfl) <| .cons (.token rfl) (.eof (.eof ()))
  have hname : NameAfterDot (closeFraction.map Prod.fst) :=
    nameAfterDot_cons (by decide) <| nameAfterDot_cons (by decide) <|
      nameAfterDot_cons (by decide) nameAfterDot_nil
  refine ⟨hplain, hname,
    .cons (.token rfl) <| .cons (.token rfl) <| .cons (.token rfl) (.eof (.eof ())), ?_⟩
  rintro ⟨trace', h', hsame, hmeta⟩
  have hspoilt := unspoilt_of_tokens hplain hname h' hmeta hsame
  exact (hspoilt (.punct .gt, js ".5") (by simp [closeFraction])).1 rfl rfl

end MetaMonkey.Frontend
