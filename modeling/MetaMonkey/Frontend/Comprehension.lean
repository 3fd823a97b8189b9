import Mathlib.Data.List.Forall2
import MetaMonkey.Frontend.Parser

/-!
Comprehensions and generator expressions as the parser reads them from a text. The
productions of the parts are given: a part may be any expression, with its own tokens.
-/

namespace MetaMonkey.Frontend

open Js

/-- `JSITER_FOREACH` and `JSITER_FOR_OF`, of which a block has one at most. -/
inductive BlockKind where
  | forIn
  | forEach
  | forOf
  deriving DecidableEq

structure ComprehensionBlock (α : Type) where
  kind : BlockKind
  left : α
  right : α

structure Comprehension (α : Type) where
  body : α
  /-- There is one block at least. -/
  first : ComprehensionBlock α
  more : List (ComprehensionBlock α)
  filter : Option α

def Comprehension.blocks {α : Type} (c : Comprehension α) : List (ComprehensionBlock α) :=
  c.first :: c.more

inductive ArrayElement (α : Type) where
  | elision
  | spread (e : α)
  | expr (e : α)

/-- What begins with a bracket or with a parenthesis. -/
inductive Primary (α : Type) where
  | array (elements : List (ArrayElement α))
  | comprehension (c : Comprehension α)
  | inParens (e : α)
  | generator (c : Comprehension α)

/-- From a text to what is after the part that is read. -/
abbrev TextReader := StateT JSString Option

/-- The tables of the characters of names outside ASCII. -/
structure NameTables where
  start : UInt16 → Bool
  part : UInt16 → Bool

namespace NameTables

variable (l : NameTables)

def isIdentifierStart (c : UInt16) : Bool :=
  if c < 128 then Frontend.isIdentifierStart c else l.start c

def isIdentifierPart (c : UInt16) : Bool :=
  if c < 128 then Frontend.isIdentifierPart c else l.part c

/-- The first token, unless it is a number, a string or a regular expression. -/
def getToken : TextReader Token := fun s =>
  match s.dropWhile fun c => isSpace c || isEol c with
  | [] => some (.eof, [])
  | c :: cs =>
      if l.isIdentifierStart c then
        some (wordToken (c :: cs.takeWhile l.isIdentifierPart), cs.dropWhile l.isIdentifierPart)
      else if c = 46 ∧ cs.head?.any (fun d => 48 ≤ d && d ≤ 57) then none
      else (punctuator? (c :: cs)).map fun p => (.punct p, (c :: cs).drop (js p.text).length)

def peekToken : TextReader (Option Token) := fun s => some ((l.getToken s).map Prod.fst, s)

def matchToken (t : Token) : TextReader Bool := fun s =>
  match l.getToken s with
  | some (t', s') => if t' = t then some (true, s') else some (false, s)
  | none => some (false, s)

/-- `MUST_MATCH_TOKEN` -/
def mustMatchToken (t : Token) : TextReader Unit := do
  if ← l.matchToken t then return () else failure

/-- `matchInOrOf` -/
def matchInOrOf : TextReader (Option Bool) := do
  if ← l.matchToken (.kw .in) then return some false
  else if ← l.matchToken (.name (js "of")) then return some true
  else return none

end NameTables

/-- What no element of an array begins with. -/
def endsElement : Token → Bool
  | .punct .rb | .punct .comma | .punct .tripleDot => true
  | _ => false

/-- The productions of the parts. -/
structure PartReader (α : Type) extends NameTables where
  assignExpr : TextReader α
  /-- Whether there is a comma outside all parentheses is told too. -/
  expr : TextReader (α × Bool)
  /-- What follows the bracket or the brace of a pattern. -/
  destructuringExpr : Token → TextReader α
  newBindingNode : JSString → α
  generatorExpr : Comprehension α → α
  assignExpr_starts : ∀ s t s', toNameTables.getToken s = some (t, s') → endsElement t = true →
    assignExpr s = none

namespace PartReader

variable {α : Type} (p : PartReader α)

/-- The left side of a block. -/
def pattern : TextReader α := do
  match ← p.getToken with
  | .punct .lb => p.destructuringExpr (.punct .lb)
  | .punct .lc => p.destructuringExpr (.punct .lc)
  | .name w => return p.newBindingNode w
  | _ => failure

/-- What is inside the parentheses of a block. -/
def blockControl (isForEach : Bool) : TextReader (ComprehensionBlock α) := do
  let pn3 ← p.pattern
  match ← p.matchInOrOf with
  | none => failure
  | some isForOf =>
      if isForOf && isForEach then failure
      else
        let (pn4, _) ← p.expr
        p.mustMatchToken (.punct .rp)
        return ⟨if isForOf then .forOf else if isForEach then .forEach else .forIn, pn3, pn4⟩

/-- A pass of the loop of `comprehensionTail`, after the `for`. -/
def block : TextReader (ComprehensionBlock α) := do
  let isForEach ← p.matchToken (.name (js "each"))
  p.mustMatchToken (.punct .lp)
  p.blockControl isForEach

def _moreBlocks : TextReader (List (ComprehensionBlock α)) := do
  if ← p.matchToken (.kw .for) then
    let pn2 ← p.block
    return pn2 :: (← _moreBlocks)
  else return []
partial_fixpoint

mutual

/-- Lean packs the functions of the block under the name of the first. -/
def _condition : TextReader α := do
  p.mustMatchToken (.punct .lp)
  let pn ← parenExpr
  p.mustMatchToken (.punct .rp)
  return pn.elim id p.generatorExpr
partial_fixpoint

/-- What follows the `for` after the body. -/
def comprehensionTail (kid : α) : TextReader (Comprehension α) := do
  let first ← p.block
  let more ← p._moreBlocks
  if ← p.matchToken (.kw .if) then
    return ⟨kid, first, more, some (← _condition)⟩
  else return ⟨kid, first, more, none⟩
partial_fixpoint

def parenExpr : TextReader (α ⊕ Comprehension α) := do
  let (pn, comma) ← p.expr
  if ← p.matchToken (.kw .for) then
    if comma then failure else return .inr (← comprehensionTail pn)
  else return .inl pn
partial_fixpoint

end

/-- The elements of an array, and whether there is no comma after the last. -/
def _arrayElements : TextReader (List (ArrayElement α) × Bool) := do
  match ← p.peekToken with
  | some (.punct .rb) => return ([], false)
  | some (.punct .comma) =>
      let _ ← p.getToken
      let (pns, missingTrailingComma) ← _arrayElements
      return (.elision :: pns, missingTrailingComma)
  | some (.punct .tripleDot) =>
      let _ ← p.getToken
      let inner ← p.assignExpr
      if ← p.matchToken (.punct .comma) then
        let (pns, missingTrailingComma) ← _arrayElements
        return (.spread inner :: pns, missingTrailingComma)
      else return ([.spread inner], true)
  | _ =>
      let pn2 ← p.assignExpr
      if ← p.matchToken (.punct .comma) then
        let (pns, missingTrailingComma) ← _arrayElements
        return (.expr pn2 :: pns, missingTrailingComma)
      else return ([.expr pn2], true)
partial_fixpoint

/-- After the bracket: a `for` is looked for behind an only element. -/
def arrayInitialiser : TextReader (Primary α) := do
  if ← p.matchToken (.punct .rb) then return .array []
  else
    let pns ← p._arrayElements
    match pns with
    | ([.expr pn], true) =>
        if ← p.matchToken (.kw .for) then
          let c ← p.comprehensionTail pn
          p.mustMatchToken (.punct .rb)
          return .comprehension c
        else
          p.mustMatchToken (.punct .rb)
          return .array [.expr pn]
    | (pns, _) =>
        p.mustMatchToken (.punct .rb)
        return .array pns

/-- `primaryExpr` at a bracket and at a parenthesis. -/
def primaryExpr : TextReader (Primary α) := do
  match ← p.getToken with
  | .punct .lb => p.arrayInitialiser
  | .punct .lp =>
      let pn ← p.parenExpr
      p.mustMatchToken (.punct .rp)
      return pn.elim .inParens .generator
  | _ => failure

end PartReader

/-! ### The texts -/

/-- What a part of a comprehension is. -/
inductive Role where
  | body
  | left
  | right
  | filter

section

variable {α β γ : Type}

structure ComprehensionBlock.Rel (R : Role → α → β → Prop) (b : ComprehensionBlock α)
    (b' : ComprehensionBlock β) : Prop where
  kind : b.kind = b'.kind
  left : R .left b.left b'.left
  right : R .right b.right b'.right

/-- Two comprehensions of the same shape, whose parts are related one by one. -/
structure Comprehension.Rel (R : Role → α → β → Prop) (c : Comprehension α)
    (c' : Comprehension β) : Prop where
  body : R .body c.body c'.body
  first : c.first.Rel R c'.first
  more : List.Forall₂ (ComprehensionBlock.Rel R) c.more c'.more
  filter : Option.Rel (R .filter) c.filter c'.filter

section

variable {R : Role → α → γ → Prop} {P : Role → α → β → Prop} {Q : Role → β → γ → Prop}

theorem ComprehensionBlock.Rel.split (h : ∀ r a c, R r a c → ∃ b, P r a b ∧ Q r b c)
    {b : ComprehensionBlock α} {b' : ComprehensionBlock γ} (hb : b.Rel R b') :
    ∃ t : ComprehensionBlock β, b.Rel P t ∧ t.Rel Q b' := by
  obtain ⟨l, hl, hl'⟩ := h _ _ _ hb.left
  obtain ⟨r, hr, hr'⟩ := h _ _ _ hb.right
  exact ⟨⟨b.kind, l, r⟩, ⟨rfl, hl, hr⟩, ⟨hb.kind, hl', hr'⟩⟩

theorem optionRel_cases {κ μ : Type} {r : κ → μ → Prop} {x : Option κ} {y : Option μ}
    (h : Option.Rel r x y) : x = none ∧ y = none ∨ ∃ a b, x = some a ∧ y = some b ∧ r a b := by
  cases h with
  | none => exact .inl ⟨rfl, rfl⟩
  | some hr => exact .inr ⟨_, _, rfl, rfl, hr⟩

theorem Comprehension.Rel.imp {R' : Role → α → γ → Prop} {c : Comprehension α}
    {c' : Comprehension γ} (hc : c.Rel R c') (h : ∀ r a b, R r a b → R' r a b) : c.Rel R' c' := by
  have hblock : ∀ (b : ComprehensionBlock α) (b' : ComprehensionBlock γ), b.Rel R b' →
      b.Rel R' b' := fun _ _ hb => ⟨hb.kind, h _ _ _ hb.left, h _ _ _ hb.right⟩
  refine ⟨h _ _ _ hc.body, hblock _ _ hc.first, hc.more.imp hblock, ?_⟩
  obtain ⟨hf, hf'⟩ | ⟨f, f', hf, hf', hrel⟩ := optionRel_cases hc.filter
  · rw [hf, hf']
    exact .none
  · rw [hf, hf']
    exact .some (h _ _ _ hrel)

theorem forall₂_split {κ μ ν : Type} {r : κ → ν → Prop} {q : κ → μ → Prop} {q' : μ → ν → Prop}
    (h : ∀ a c, r a c → ∃ b, q a b ∧ q' b c) {xs : List κ} {zs : List ν}
    (hxs : List.Forall₂ r xs zs) : ∃ ys, List.Forall₂ q xs ys ∧ List.Forall₂ q' ys zs := by
  induction hxs with
  | nil => exact ⟨[], .nil, .nil⟩
  | cons hd _ ih =>
      obtain ⟨y, hy, hy'⟩ := h _ _ hd
      obtain ⟨ys, hys, hys'⟩ := ih
      exact ⟨y :: ys, .cons hy hys, .cons hy' hys'⟩

/-- Between related parts there are parts that are related to both. -/
theorem Comprehension.Rel.split (h : ∀ r a c, R r a c → ∃ b, P r a b ∧ Q r b c)
    {c : Comprehension α} {c' : Comprehension γ} (hc : c.Rel R c') :
    ∃ t : Comprehension β, c.Rel P t ∧ t.Rel Q c' := by
  obtain ⟨b, hb, hb'⟩ := h _ _ _ hc.body
  obtain ⟨t, ht, ht'⟩ := hc.first.split h
  obtain ⟨ts, hts, hts'⟩ := forall₂_split (fun _ _ hd => hd.split h) hc.more
  have hfilter : ∃ f, Option.Rel (P .filter) c.filter f ∧ Option.Rel (Q .filter) f c'.filter := by
    obtain ⟨hf, hf'⟩ | ⟨f, f', hf, hf', hrel⟩ := optionRel_cases hc.filter
    · rw [hf, hf']
      exact ⟨none, .none, .none⟩
    · obtain ⟨g, hg, hg'⟩ := h _ _ _ hrel
      rw [hf, hf']
      exact ⟨some g, .some hg, .some hg'⟩
  obtain ⟨f, hf, hf'⟩ := hfilter
  exact ⟨⟨b, t, ts, f⟩, ⟨hb, ht, hts, hf⟩, ⟨hb', ht', hts', hf'⟩⟩

end

end

def BlockKind.text : BlockKind → JSString
  | .forEach => js "for each("
  | _ => js "for ("

def ComprehensionBlock.text (b : ComprehensionBlock JSString) : JSString :=
  b.kind.text ++ b.left ++ js " in " ++ b.right ++ js ")"

def filterText : Option JSString → JSString
  | none => []
  | some t => js "if (" ++ t ++ js ")"

/-- What is between the brackets, or the parentheses of a generator expression. -/
def Comprehension.text (c : Comprehension JSString) : JSString :=
  c.body ++ c.blocks.flatMap (fun b => js " " ++ b.text) ++ filterText c.filter

def Comprehension.primaryText (generator : Bool) (c : Comprehension JSString) : JSString :=
  if generator then js "(" ++ c.text ++ js ")" else js "[" ++ c.text ++ js "]"

/-! ### What is read -/

/-- The kind that is read: there is an `in` in the text of each block. -/
def BlockKind.readBack : BlockKind → BlockKind
  | .forOf => .forIn
  | kind => kind

section

variable {α : Type}

def ComprehensionBlock.readBack (b : ComprehensionBlock α) : ComprehensionBlock α :=
  { b with kind := b.kind.readBack }

def Comprehension.readBack (c : Comprehension α) : Comprehension α :=
  { c with first := c.first.readBack, more := c.more.map ComprehensionBlock.readBack }

def Comprehension.primary (generator : Bool) (c : Comprehension α) : Primary α :=
  if generator then .generator c else .comprehension c

theorem ComprehensionBlock.readBack_eq_self {b : ComprehensionBlock α} :
    b.readBack = b ↔ b.kind ≠ .forOf := by
  obtain ⟨kind, l, r⟩ := b
  cases kind <;> simp [readBack, BlockKind.readBack]

theorem Comprehension.readBack_eq_self {c : Comprehension α} :
    c.readBack = c ↔ ∀ b ∈ c.blocks, b.kind ≠ .forOf := by
  have hmore : c.more.map ComprehensionBlock.readBack = c.more ↔
      ∀ b ∈ c.more, b.kind ≠ .forOf := by
    have hmap := List.map_inj_left (l := c.more) (f := ComprehensionBlock.readBack) (g := id)
    rw [List.map_id] at hmap
    exact hmap.trans (forall₂_congr fun b _ => ComprehensionBlock.readBack_eq_self)
  obtain ⟨body, first, more, filter⟩ := c
  simp only [readBack, mk.injEq, true_and, and_true, blocks, List.forall_mem_cons,
    ComprehensionBlock.readBack_eq_self, hmore]

theorem Comprehension.primary_injective {generator : Bool} {c c' : Comprehension α} :
    c.primary generator = c'.primary generator ↔ c = c' := by
  cases generator <;> simp [primary]

end

namespace TextReader

variable {β γ : Type}

theorem run_bind (x : TextReader β) (f : β → TextReader γ) (s : JSString) :
    (x >>= f) s = (x s).bind fun q => f q.1 q.2 := rfl

theorem run_map (f : β → γ) (x : TextReader β) (s : JSString) :
    (f <$> x) s = (x s).map fun q => (f q.1, q.2) := by
  cases h : x s <;> simp [Functor.map, StateT.map, h]

theorem run_pure (b : β) (s : JSString) : (pure b : TextReader β) s = some (b, s) := rfl

end TextReader

namespace NameTables

open TextReader

variable (l : NameTables) (s : JSString)

theorem matchToken_true {s s' : JSString} {t : Token} (h : l.getToken s = some (t, s')) :
    l.matchToken t s = some (true, s') := by
  simp [matchToken, h]

theorem matchToken_ne {s : JSString} {t : Token} (h : ∀ s', l.getToken s ≠ some (t, s')) :
    l.matchToken t s = some (false, s) := by
  rw [matchToken]
  split
  · rename_i t' s' ht
    have hne : t' ≠ t := fun heq => h s' (by rw [ht, heq])
    simp [hne]
  · rfl

theorem matchToken_false {s s' : JSString} {t t' : Token} (h : l.getToken s = some (t', s'))
    (ht : t' ≠ t) : l.matchToken t s = some (false, s) := by
  refine l.matchToken_ne fun s₁ hs₁ => ht ?_
  rw [h] at hs₁
  cases hs₁
  rfl

theorem mustMatchToken_eq {s s' : JSString} {t : Token} (h : l.getToken s = some (t, s')) :
    l.mustMatchToken t s = some ((), s') := by
  simp [mustMatchToken, run_bind, run_pure, l.matchToken_true h]

theorem getToken_lp : l.getToken (js "(" ++ s) = some (.punct .lp, s) := rfl

theorem getToken_rp : l.getToken (js ")" ++ s) = some (.punct .rp, s) := rfl

theorem getToken_lb : l.getToken (js "[" ++ s) = some (.punct .lb, s) := rfl

theorem getToken_rb : l.getToken (js "]" ++ s) = some (.punct .rb, s) := rfl

theorem getToken_in : l.getToken (js " in " ++ s) = some (.kw .in, js " " ++ s) := rfl

theorem getToken_if : l.getToken (js "if (" ++ s) = some (.kw .if, js " (" ++ s) := rfl

theorem getToken_for : l.getToken (js " for " ++ s) = some (.kw .for, js " " ++ s) := rfl

end NameTables

namespace PartReader

open TextReader NameTables

variable {α : Type} (p : PartReader α)

/-- The text of a part is read as it by the production of its place, before what the printer
writes after it. -/
def ReadsPart (generator : Bool) : Role → JSString → α → Prop
  | .body, t, e =>
      if generator then ∀ s, p.expr (t ++ (js " for " ++ s)) = some ((e, false), js " for " ++ s)
      else ∀ s, p.assignExpr (t ++ (js " for " ++ s)) = some (e, js " for " ++ s)
  | .left, t, e => ∀ s, p.pattern (t ++ (js " in " ++ s)) = some (e, js " in " ++ s)
  | .right, t, e =>
      ∀ s, ∃ comma, p.expr (js " " ++ (t ++ (js ")" ++ s))) = some ((e, comma), js ")" ++ s)
  | .filter, t, e => ∀ s, ∃ comma, p.expr (t ++ (js ")" ++ s)) = some ((e, comma), js ")" ++ s)

variable {p} {generator : Bool}

theorem blockControl_reads {left right : JSString} {pn3 pn4 : α}
    (hleft : p.ReadsPart generator .left left pn3)
    (hright : p.ReadsPart generator .right right pn4) (isForEach : Bool) (s : JSString) :
    p.blockControl isForEach (left ++ (js " in " ++ (right ++ (js ")" ++ s)))) =
      some (⟨if isForEach then .forEach else .forIn, pn3, pn4⟩, s) := by
  obtain ⟨comma, hexpr⟩ := hright s
  have hin := p.matchToken_true (p.getToken_in (right ++ (js ")" ++ s)))
  have hrp := p.mustMatchToken_eq (p.getToken_rp s)
  simp [blockControl, run_bind, run_map, run_pure, hleft (right ++ (js ")" ++ s)), matchInOrOf,
    hin, hexpr, hrp]

/-- The text of a block, and what is left of it behind the `for`. -/
theorem block_reads {t : ComprehensionBlock JSString} {b : ComprehensionBlock α}
    (h : t.Rel (p.ReadsPart generator) b) (s : JSString) :
    ∃ s', p.getToken (js " " ++ (t.text ++ s)) = some (.kw .for, s') ∧
      p.block s' = some (b.readBack, s) := by
  obtain ⟨kind, left, right⟩ := t
  obtain ⟨kind', pn3, pn4⟩ := b
  obtain rfl : kind = kind' := h.kind
  have hcontrol := fun isForEach => blockControl_reads h.left h.right isForEach s
  -- what is between the parentheses, and what comes after it
  obtain ⟨control, hs⟩ : ∃ control, control = left ++ (js " in " ++ (right ++ (js ")" ++ s))) :=
    ⟨_, rfl⟩
  have htext : js " " ++ ((ComprehensionBlock.mk kind left right).text ++ s) =
      js " " ++ (kind.text ++ control) := by
    simp [ComprehensionBlock.text, hs]
  rw [htext]
  simp only [← hs] at hcontrol
  cases kind with
  | forEach =>
      refine ⟨js " each(" ++ control, rfl, ?_⟩
      have heach : p.matchToken (.name (js "each")) (js " each(" ++ control) =
          some (true, js "(" ++ control) := p.matchToken_true rfl
      simp [block, run_bind, heach, p.mustMatchToken_eq (p.getToken_lp control), hcontrol,
        ComprehensionBlock.readBack, BlockKind.readBack]
  | _ =>
      refine ⟨js " (" ++ control, rfl, ?_⟩
      have hlp : p.getToken (js " (" ++ control) = some (.punct .lp, control) := rfl
      simp [block, run_bind, p.matchToken_false hlp, p.mustMatchToken_eq hlp, hcontrol,
        ComprehensionBlock.readBack, BlockKind.readBack]

/-- The texts of the blocks are read up to what is no `for`. -/
theorem moreBlocks_reads {ts : List (ComprehensionBlock JSString)}
    {bs : List (ComprehensionBlock α)}
    (h : List.Forall₂ (ComprehensionBlock.Rel (p.ReadsPart generator)) ts bs) {s : JSString}
    (hs : p.matchToken (.kw .for) s = some (false, s)) :
    p._moreBlocks (ts.flatMap (fun b => js " " ++ b.text) ++ s) =
      some (bs.map ComprehensionBlock.readBack, s) := by
  induction h with
  | nil =>
      rw [_moreBlocks]
      simp [run_bind, run_pure, hs]
  | @cons t b ts bs hb _ ih =>
      obtain ⟨s', hfor, hblock⟩ := block_reads hb (ts.flatMap (fun b => js " " ++ b.text) ++ s)
      rw [_moreBlocks]
      simp [run_bind, run_map, p.matchToken_true hfor, hblock, ih]

/-- A filter that is read, without the parentheses around it. -/
theorem condition_reads {t : JSString} {e : α} (h : p.ReadsPart generator .filter t e)
    (s : JSString) : p._condition (js " (" ++ (t ++ (js ")" ++ s))) = some (e, s) := by
  obtain ⟨comma, hexpr⟩ := h s
  have hrp := p.getToken_rp s
  have hparen : p.parenExpr (t ++ (js ")" ++ s)) = some (.inl e, js ")" ++ s) := by
    rw [parenExpr]
    simp [run_bind, run_pure, hexpr, p.matchToken_false hrp]
  have hlp : p.mustMatchToken (.punct .lp) (js " (" ++ (t ++ (js ")" ++ s))) =
      some ((), t ++ (js ")" ++ s)) := p.mustMatchToken_eq rfl
  rw [_condition]
  simp [run_bind, run_map, hlp, hparen, p.mustMatchToken_eq hrp]

/-- What comes after the body, before a token that ends the whole. -/
theorem comprehensionTail_reads {t : Comprehension JSString} {c : Comprehension α}
    (h : t.Rel (p.ReadsPart generator) c) {s s₁ : JSString} {q : Punct}
    (hs : p.getToken s = some (.punct q, s₁)) :
    ∃ s', p.getToken (t.blocks.flatMap (fun b => js " " ++ b.text) ++ (filterText t.filter ++ s)) =
        some (.kw .for, s') ∧ p.comprehensionTail c.body s' = some (c.readBack, s) := by
  obtain ⟨s', hfor, hblock⟩ := block_reads h.first
    (t.more.flatMap (fun b => js " " ++ b.text) ++ (filterText t.filter ++ s))
  refine ⟨s', by simpa [Comprehension.blocks] using hfor, ?_⟩
  rw [comprehensionTail]
  obtain ⟨ht, hc⟩ | ⟨f, e, ht, hc, hfilter⟩ := optionRel_cases h.filter
  · have hmore := moreBlocks_reads h.more (p.matchToken_false hs (by simp))
    simp only [ht, filterText, List.nil_append] at hblock
    simp [run_bind, run_pure, hblock, hmore, p.matchToken_false hs, Comprehension.readBack, hc]
  · have hif := p.getToken_if (f ++ (js ")" ++ s))
    have htext : filterText t.filter ++ s = js "if (" ++ (f ++ (js ")" ++ s)) := by
      simp [ht, filterText]
    have hmore := moreBlocks_reads h.more (p.matchToken_false hif (by simp))
    rw [htext] at hblock
    simp [run_bind, run_map, hblock, hmore, p.matchToken_true hif,
      condition_reads hfilter s, Comprehension.readBack, hc]

theorem blocks_start (t : Comprehension JSString) (s : JSString) :
    ∃ s', t.blocks.flatMap (fun b => js " " ++ b.text) ++ s = js " for " ++ s' := by
  obtain ⟨body, ⟨kind, left, right⟩, more, filter⟩ := t
  cases kind <;> simp only [Comprehension.blocks, List.flatMap_cons, ComprehensionBlock.text,
    BlockKind.text, List.append_assoc] <;> exact ⟨_, rfl⟩

theorem not_endsElement {e : α} {s s' s₁ : JSString} {t : Token}
    (h : p.assignExpr s = some (e, s')) (ht : p.getToken s = some (t, s₁)) :
    endsElement t = false := by
  by_contra hends
  rw [p.assignExpr_starts s t s₁ ht (by simpa using hends)] at h
  cases h

/-- An element without a comma behind it. -/
theorem arrayElements_single {e : α} {s s' : JSString} (h : p.assignExpr s = some (e, s'))
    (hcomma : p.matchToken (.punct .comma) s' = some (false, s')) :
    p._arrayElements s = some (([.expr e], true), s') := by
  have hpeek : ∀ t, (p.getToken s).map Prod.fst = some t → endsElement t = false := by
    intro t ht
    obtain ⟨⟨t', s₁⟩, hs₁, rfl⟩ := Option.map_eq_some_iff.mp ht
    exact not_endsElement h hs₁
  rw [_arrayElements]
  simp only [run_bind, peekToken, Option.bind_some]
  generalize (p.getToken s).map Prod.fst = first at hpeek
  split
  · exact absurd (hpeek _ rfl) (by simp [endsElement])
  · exact absurd (hpeek _ rfl) (by simp [endsElement])
  · exact absurd (hpeek _ rfl) (by simp [endsElement])
  · simp [run_bind, run_pure, h, hcomma]

/-- The text of a comprehension, with what is around it, is read as it, but for the kinds. -/
theorem primaryExpr_reads {t : Comprehension JSString} {c : Comprehension α}
    (h : t.Rel (p.ReadsPart generator) c) (s : JSString) :
    p.primaryExpr (t.primaryText generator ++ s) = some (c.readBack.primary generator, s) := by
  have hbody := h.body
  cases generator with
  | true =>
      have hrp := p.getToken_rp s
      obtain ⟨s', hfor, htail⟩ := comprehensionTail_reads h hrp
      obtain ⟨s₁, hs₁⟩ := blocks_start t (filterText t.filter ++ (js ")" ++ s))
      have hexpr : p.expr (t.body ++ (js " for " ++ s₁)) = _ := hbody s₁
      rw [← hs₁] at hexpr
      have hlp := p.getToken_lp (t.body ++ (t.blocks.flatMap (fun b => js " " ++ b.text) ++
        (filterText t.filter ++ (js ")" ++ s))))
      rw [primaryExpr]
      simp only [Comprehension.primaryText, Comprehension.text, if_true, List.append_assoc,
        run_bind, hlp, Option.bind_some]
      rw [parenExpr]
      simp [run_bind, run_map, run_pure, hexpr, p.matchToken_true hfor, htail,
        p.mustMatchToken_eq hrp, Comprehension.primary]
  | false =>
      have hrb := p.getToken_rb s
      obtain ⟨s', hfor, htail⟩ := comprehensionTail_reads h hrb
      obtain ⟨s₁, hs₁⟩ := blocks_start t (filterText t.filter ++ (js "]" ++ s))
      have hassign : p.assignExpr (t.body ++ (js " for " ++ s₁)) = _ := hbody s₁
      rw [← hs₁] at hassign
      have hlb := p.getToken_lb (t.body ++ (t.blocks.flatMap (fun b => js " " ++ b.text) ++
        (filterText t.filter ++ (js "]" ++ s))))
      have helements := arrayElements_single hassign (p.matchToken_false hfor (by simp))
      have hempty := p.matchToken_ne (t := .punct .rb) fun s₂ hs₂ =>
        absurd (not_endsElement hassign hs₂) (by simp [endsElement])
      rw [primaryExpr]
      simp only [Comprehension.primaryText, Comprehension.text, Bool.false_eq_true, if_false,
        List.append_assoc, run_bind, hlb, Option.bind_some]
      simp [arrayInitialiser, run_bind, run_map, hempty, helements, p.matchToken_true hfor, htail,
        p.mustMatchToken_eq hrb, Comprehension.primary]

end PartReader

end MetaMonkey.Frontend
