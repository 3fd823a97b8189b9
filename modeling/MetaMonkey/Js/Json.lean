import Mathlib.Data.List.TakeWhile
import MetaMonkey.Js.Value

/-!
`JSONParser`: the parser behind `JS_ParseJSON`. What it makes of the digits of a number and
of the name of a property is left to the engine.
-/

namespace MetaMonkey.Js

open ObjectGraph

/-- A number with its sign changed. -/
def JSNumber.negate : JSNumber → JSNumber
  | .nan => .nan
  | .infinity neg => .infinity !neg
  | .zero neg => .zero !neg
  | .finite neg m => .finite (!neg) m

namespace JSONParser

inductive Token where
  | string (s : JSString)
  | number (n : JSNumber)
  | true
  | false
  | null
  | arrayOpen
  | arrayClose
  | objectOpen
  | objectClose
  | colon
  | comma

/-! ### Characters -/

def isJSONWhitespace (c : UInt16) : Bool := c = 9 || c = 13 || c = 10 || c = 32

def isDec (c : UInt16) : Bool := 48 ≤ c && c ≤ 57

def isHex (c : UInt16) : Bool := isDec c || (97 ≤ c && c ≤ 102) || (65 ≤ c && c ≤ 70)

def unhex (c : UInt16) : ℕ :=
  if isDec c then c.toNat - 48 else if 97 ≤ c then c.toNat - 87 else c.toNat - 55

/-- The character that an escape of one letter stands for. -/
def escaped (c : UInt16) : Option UInt16 :=
  if c = 34 then some 34
  else if c = 47 then some 47
  else if c = 92 then some 92
  else if c = 98 then some 8
  else if c = 102 then some 12
  else if c = 110 then some 10
  else if c = 114 then some 13
  else if c = 116 then some 9
  else none

def skipWhitespace (current : JSString) : JSString := current.dropWhile isJSONWhitespace

/-! ### Tokens -/

/-- The rest of a string literal, from after a quote or an element of it. -/
def readString : JSString → Option (JSString × JSString)
  | [] => none
  | c :: current =>
      if c = 34 then some ([], current)
      else if c = 92 then
        match current with
        | [] => none
        | e :: current =>
            if e = 117 then
              match current with
              | d₀ :: d₁ :: d₂ :: d₃ :: current =>
                  if isHex d₀ && isHex d₁ && isHex d₂ && isHex d₃ then do
                    let unit := (unhex d₀ <<< 12) ||| (unhex d₁ <<< 8) ||| (unhex d₂ <<< 4) |||
                      unhex d₃
                    let (s, current) ← readString current
                    return (UInt16.ofNat unit :: s, current)
                  else none
              | _ => none
            else do
              let unit ← escaped e
              let (s, current) ← readString current
              return (unit :: s, current)
      else if c ≤ 0x1F then none
      else do
        let (s, current) ← readString current
        return (c :: s, current)

/-- The digits at the start, of which there is one at least. -/
def readDigits (current : JSString) : Option (JSString × JSString) :=
  if (current.head?.map isDec).getD Bool.false then
    some (current.takeWhile isDec, current.dropWhile isDec)
  else none

/-- `0|[1-9][0-9]+` -/
def readInteger : JSString → Option (JSString × JSString)
  | 48 :: current => some ([48], current)
  | current => readDigits current

/-- `(\.[0-9]+)?` -/
def readFraction : JSString → Option (JSString × JSString)
  | 46 :: current => do
      let (s, current) ← readDigits current
      return (46 :: s, current)
  | current => some ([], current)

def readSign : JSString → JSString × JSString
  | c :: current => if c = 43 || c = 45 then ([c], current) else ([], c :: current)
  | [] => ([], [])

/-- `([eE][\+\-]?[0-9]+)?` -/
def readExponent : JSString → Option (JSString × JSString)
  | c :: current =>
      if c = 101 || c = 69 then do
        let (sign, current) := readSign current
        let (s, current) ← readDigits current
        return (c :: sign ++ s, current)
      else some ([], c :: current)
  | [] => some ([], [])

/-- What the digits of a number stand for, by `ParseDecimalNumber`, `GetPrefixInteger` or
`js_strtod`; and the key of a property name, by `AtomToId`. -/
structure Engine where
  toDouble : JSString → JSNumber
  atomToId : JSString → String

variable (engine : Engine)

def readNumber (current : JSString) : Option (JSNumber × JSString) := do
  let negative := current.head? = some 45
  let (int, current) ← readInteger (if negative then current.tail else current)
  let (frac, current) ← readFraction current
  let (exp, current) ← readExponent current
  let d := engine.toDouble (int ++ frac ++ exp)
  return (if negative then d.negate else d, current)

def readKeyword (word : String) (token : Token) (current : JSString) :
    Option (Token × JSString) :=
  if (js word).isPrefixOf current then some (token, current.drop (js word).length) else none

def advance (current : JSString) : Option (Token × JSString) :=
  match skipWhitespace current with
  | [] => none
  | c :: current =>
      if c = 34 then do
        let (s, current) ← readString current
        return (.string s, current)
      else if c = 45 || isDec c then do
        let (n, current) ← readNumber engine (c :: current)
        return (.number n, current)
      else if c = 116 then readKeyword "true" .true (c :: current)
      else if c = 102 then readKeyword "false" .false (c :: current)
      else if c = 110 then readKeyword "null" .null (c :: current)
      else if c = 91 then some (.arrayOpen, current)
      else if c = 93 then some (.arrayClose, current)
      else if c = 123 then some (.objectOpen, current)
      else if c = 125 then some (.objectClose, current)
      else if c = 44 then some (.comma, current)
      else if c = 58 then some (.colon, current)
      else none

/-- One of some tokens of one character. -/
def advanceTo (tokens : List (UInt16 × Token)) (current : JSString) : Option (Token × JSString) :=
  match skipWhitespace current with
  | [] => none
  | c :: current => (tokens.lookup c).map fun token => (token, current)

def advancePropertyName (current : JSString) : Option (Token × JSString) :=
  match skipWhitespace current with
  | [] => none
  | c :: current =>
      if c = 34 then do
        let (s, current) ← readString current
        return (.string s, current)
      else none

def advanceAfterObjectOpen (current : JSString) : Option (Token × JSString) :=
  match skipWhitespace current with
  | [] => none
  | c :: current =>
      if c = 34 then do
        let (s, current) ← readString current
        return (.string s, current)
      else if c = 125 then some (.objectClose, current)
      else none

def advanceAfterArrayElement : JSString → Option (Token × JSString) :=
  advanceTo [(44, .comma), (93, .arrayClose)]

def advancePropertyColon : JSString → Option (Token × JSString) := advanceTo [(58, .colon)]

def advanceAfterProperty : JSString → Option (Token × JSString) :=
  advanceTo [(44, .comma), (125, .objectClose)]

/-! ### Values -/

/-- An array or object that has been started. The last property comes first; it has no value
yet while the value is being parsed. -/
inductive StackEntry where
  | elements (l : List Value)
  | properties (l : List (JSString × Value))

/-- The properties of an object. One that is defined again keeps its place. -/
def definedProperties (properties : List (JSString × Value)) : List (String × Value) :=
  properties.foldr (fun f fields => setField fields (engine.atomToId f.1) f.2) []

theorem definedProperties_distinct (properties : List (JSString × Value)) :
    ((definedProperties engine properties).map Prod.fst).Nodup := by
  induction properties with
  | nil => exact List.nodup_nil
  | cons f properties ih => exact setField_distinct _ _ ih

def createFinishedObject (properties : List (JSString × Value)) : Obj :=
  .record .plain (definedProperties engine properties)
    (definedProperties_distinct engine properties)

/-- Where `parse` is: at `JSONValueSwitch` or `JSONMember` with a token, or with a value at
the end of its `switch`. -/
inductive Label where
  | switch (token : Token)
  | member (token : Token)
  | finish (value : Value)

/-- The variables of `parse`. The objects are made in the heap as they are closed. -/
structure ParserState where
  label : Label
  heap : JSHeap
  stack : List StackEntry
  current : JSString

/-- The value, when no array or object is left. -/
def ParserState.value? : ParserState → Option Value
  | ⟨.finish value, _, [], _⟩ => some value
  | _ => none

/-- From one label to the next. -/
def step : ParserState → Option ParserState
  | ⟨.switch token, h, stack, current⟩ =>
      match token with
      | .string s => some ⟨.finish (Js.string s), h, stack, current⟩
      | .number n => some ⟨.finish (Js.number n), h, stack, current⟩
      | .true => some ⟨.finish (boolean Bool.true), h, stack, current⟩
      | .false => some ⟨.finish (boolean Bool.false), h, stack, current⟩
      | .null => some ⟨.finish Js.null, h, stack, current⟩
      | .arrayOpen => do
          match ← advance engine current with
          | (.arrayClose, current) =>
              return ⟨.finish (.ref h.next), h.alloc (.array []), stack, current⟩
          | (token, current) => return ⟨.switch token, h, .elements [] :: stack, current⟩
      | .objectOpen => do
          match ← advanceAfterObjectOpen current with
          | (.objectClose, current) =>
              return ⟨.finish (.ref h.next), h.alloc (createFinishedObject engine []), stack,
                current⟩
          | (token, current) => return ⟨.member token, h, .properties [] :: stack, current⟩
      | .arrayClose | .objectClose | .colon | .comma => none
  | ⟨.member (.string id), h, .properties l :: stack, current⟩ => do
      let (_, current) ← advancePropertyColon current
      let (token, current) ← advance engine current
      return ⟨.switch token, h, .properties ((id, undefined) :: l) :: stack, current⟩
  | ⟨.member _, _, _, _⟩ => none
  | ⟨.finish value, h, .elements l :: stack, current⟩ => do
      match ← advanceAfterArrayElement current with
      | (.comma, current) => do
          let (token, current) ← advance engine current
          return ⟨.switch token, h, .elements (l ++ [value]) :: stack, current⟩
      | (_, current) =>
          return ⟨.finish (.ref h.next), h.alloc (.array (l ++ [value])), stack, current⟩
  | ⟨.finish value, h, .properties ((id, _) :: l) :: stack, current⟩ => do
      match ← advanceAfterProperty current with
      | (.comma, current) => do
          let (token, current) ← advancePropertyName current
          return ⟨.member token, h, .properties ((id, value) :: l) :: stack, current⟩
      | (_, current) =>
          return ⟨.finish (.ref h.next), h.alloc (createFinishedObject engine ((id, value) :: l)),
            stack, current⟩
  | ⟨.finish _, _, _, _⟩ => none

/-- The loop of `parse`. -/
def parseLoop : ℕ → ParserState → Option (JSHeap × Value × JSString)
  | fuel, s =>
      match s.value? with
      | some value => some (s.heap, value, s.current)
      | none =>
          match fuel with
          | 0 => none
          | fuel + 1 => do parseLoop fuel (← step engine s)

/-- `parse`. The loop takes two steps for a character at most. -/
def parse (chars : JSString) (h : JSHeap) : Option (JSHeap × Value) := do
  let (token, current) ← advance engine chars
  let (h, value, current) ← parseLoop engine (2 * chars.length) ⟨.switch token, h, [], current⟩
  if (skipWhitespace current).isEmpty then some (h, value) else none

/-! ### What is read -/

/-- The characters before the rest, which have been read; none of them is zero. -/
def Skips (current rest : JSString) : Prop := ∃ read, current = read ++ rest ∧ 0 ∉ read

/-- One character has been read at least. -/
def Reads (current rest : JSString) : Prop := Skips current rest ∧ rest.length < current.length

section

variable {a b c current rest : JSString}

theorem Skips.refl (current : JSString) : Skips current current := ⟨[], rfl, by simp⟩

theorem Skips.cons {x : UInt16} (hx : x ≠ 0) (h : Skips current rest) :
    Skips (x :: current) rest := by
  obtain ⟨r, rfl, hr⟩ := h
  refine ⟨x :: r, rfl, ?_⟩
  rw [List.mem_cons]
  exact fun h => h.elim (fun h => hx h.symm) hr

theorem Skips.trans (hab : Skips a b) (hbc : Skips b c) : Skips a c := by
  obtain ⟨r, rfl, hr⟩ := hab
  obtain ⟨r', rfl, hr'⟩ := hbc
  refine ⟨r ++ r', (List.append_assoc _ _ _).symm, ?_⟩
  rw [List.mem_append]
  exact fun h => h.elim hr hr'

theorem Skips.length_le (h : Skips current rest) : rest.length ≤ current.length := by
  obtain ⟨r, rfl, -⟩ := h
  simp

theorem Skips.dropWhile {p : UInt16 → Bool} (hp : p 0 = false) (current : JSString) :
    Skips current (current.dropWhile p) := by
  refine ⟨current.takeWhile p, List.takeWhile_append_dropWhile.symm, fun hzero => ?_⟩
  rw [List.mem_takeWhile_imp hzero] at hp
  cases hp

theorem Reads.of_skips {x : UInt16} (hx : x ≠ 0) (h : Skips current rest) :
    Reads (x :: current) rest :=
  ⟨h.cons hx, Nat.lt_succ_of_le h.length_le⟩

theorem Skips.reads (hab : Skips a b) (hbc : Reads b c) : Reads a c :=
  ⟨hab.trans hbc.1, Nat.lt_of_lt_of_le hbc.2 hab.length_le⟩

theorem Reads.trans (hab : Reads a b) (hbc : Skips b c) : Reads a c :=
  ⟨hab.1.trans hbc, Nat.lt_of_le_of_lt hbc.length_le hab.2⟩

theorem skips_whitespace (current : JSString) : Skips current (skipWhitespace current) :=
  .dropWhile rfl current

end

/-- What comes back from a reader, if anything does, is what is left. -/
def Reader {α : Type} (P : JSString → JSString → Prop) (f : JSString → Option (α × JSString)) :
    Prop :=
  ∀ current x rest, f current = some (x, rest) → P current rest

theorem isHex_ne_zero {c : UInt16} (h : isHex c = true) : c ≠ 0 := by
  rintro rfl
  exact absurd h (by decide)

theorem escaped_ne_zero {e u : UInt16} (h : escaped e = some u) : e ≠ 0 := by
  rintro rfl
  cases h

theorem readString_skips : Reader Skips readString := by
  intro current
  induction current using readString.induct with
  | case1 =>
      intro s rest hread
      cases hread
  | case2 current =>
      intro s rest hread
      rw [readString.eq_def] at hread
      cases hread
      exact .cons (by decide) (.refl _)
  | case3 hne =>
      intro s rest hread
      cases hread
  | case4 d₀ d₁ d₂ d₃ current hhex hne ih =>
      intro s rest hread
      rw [readString.eq_def] at hread
      simp only [hne, hhex, if_true, if_false] at hread
      obtain ⟨⟨s', rest'⟩, hread', hreturn⟩ := Option.bind_eq_some_iff.mp hread
      cases hreturn
      simp only [Bool.and_eq_true] at hhex
      obtain ⟨⟨⟨h₀, h₁⟩, h₂⟩, h₃⟩ := hhex
      exact .cons (by decide) (.cons (by decide) (.cons (isHex_ne_zero h₀) (.cons
        (isHex_ne_zero h₁) (.cons (isHex_ne_zero h₂) (.cons (isHex_ne_zero h₃)
          (ih _ _ hread'))))))
  | case5 d₀ d₁ d₂ d₃ current hhex hne =>
      intro s rest hread
      rw [readString.eq_def] at hread
      simp only [hne, hhex, if_true, if_false] at hread
      cases hread
  | case6 current hshort hne =>
      intro s rest hread
      rw [readString.eq_def] at hread
      simp only [hne, if_true, if_false] at hread
      cases hread
  | case7 e current he hne ih =>
      intro s rest hread
      rw [readString.eq_def] at hread
      simp only [hne, he, if_true, if_false] at hread
      obtain ⟨unit, hunit, hread⟩ := Option.bind_eq_some_iff.mp hread
      obtain ⟨⟨s', rest'⟩, hread', hreturn⟩ := Option.bind_eq_some_iff.mp hread
      cases hreturn
      exact .cons (by decide) (.cons (escaped_ne_zero hunit) (ih _ _ hread'))
  | case8 c current hquote hescape hcontrol =>
      intro s rest hread
      rw [readString.eq_def] at hread
      simp only [hquote, hescape, hcontrol, if_true, if_false] at hread
      cases hread
  | case9 c current hquote hescape hcontrol ih =>
      intro s rest hread
      rw [readString.eq_def] at hread
      simp only [hquote, hescape, hcontrol, if_false] at hread
      obtain ⟨⟨s', rest'⟩, hread', hreturn⟩ := Option.bind_eq_some_iff.mp hread
      cases hreturn
      refine .cons ?_ (ih _ _ hread')
      rintro rfl
      exact hcontrol (by decide)

theorem readDigits_reads : Reader Reads readDigits := by
  intro current s rest hread
  rw [readDigits] at hread
  split at hread
  · next hhead =>
      cases hread
      cases current with
      | nil => cases hhead
      | cons c current =>
          have hc : isDec c = true := hhead
          rw [List.dropWhile_cons_of_pos hc]
          refine .of_skips ?_ (.dropWhile rfl current)
          rintro rfl
          exact absurd hc (by decide)
  · cases hread

theorem readInteger_reads : Reader Reads readInteger := by
  intro current s rest hread
  rw [readInteger.eq_def] at hread
  split at hread
  · cases hread
    exact .of_skips (by decide) (.refl _)
  · exact readDigits_reads _ _ _ hread

theorem readFraction_skips : Reader Skips readFraction := by
  intro current s rest hread
  rw [readFraction.eq_def] at hread
  split at hread
  · obtain ⟨⟨s', rest'⟩, hread', hreturn⟩ := Option.bind_eq_some_iff.mp hread
    cases hreturn
    exact (readDigits_reads _ _ _ hread').1.cons (by decide)
  · cases hread
    exact .refl _

theorem readSign_skips (current : JSString) : Skips current (readSign current).2 := by
  cases current with
  | nil => exact .refl _
  | cons c current =>
      rw [readSign]
      split
      · next hsign =>
          refine .cons ?_ (.refl _)
          rintro rfl
          exact absurd hsign (by decide)
      · exact .refl _

theorem readExponent_skips : Reader Skips readExponent := by
  intro current s rest hread
  cases current with
  | nil =>
      cases hread
      exact .refl _
  | cons c current =>
      rw [readExponent] at hread
      split at hread
      · next he =>
          obtain ⟨⟨s', rest'⟩, hread', hreturn⟩ := Option.bind_eq_some_iff.mp hread
          cases hreturn
          refine .cons ?_ ((readSign_skips current).trans (readDigits_reads _ _ _ hread').1)
          rintro rfl
          exact absurd he (by decide)
      · cases hread
        exact .refl _

theorem readNumber_reads : Reader Reads (readNumber engine) := by
  intro current n rest hread
  obtain ⟨⟨int, rest₁⟩, hint, hread⟩ := Option.bind_eq_some_iff.mp hread
  obtain ⟨⟨frac, rest₂⟩, hfrac, hread⟩ := Option.bind_eq_some_iff.mp hread
  obtain ⟨⟨exp, rest₃⟩, hexp, hreturn⟩ := Option.bind_eq_some_iff.mp hread
  cases hreturn
  have hrest : Reads (if current.head? = some 45 then current.tail else current) rest :=
    ((readInteger_reads _ _ _ hint).trans (readFraction_skips _ _ _ hfrac)).trans
      (readExponent_skips _ _ _ hexp)
  split at hrest
  · next hminus =>
      cases current with
      | nil => cases hminus
      | cons c current =>
          obtain rfl : c = 45 := Option.some.inj hminus
          exact .of_skips (by decide) hrest.1
  · exact hrest

theorem readKeyword_reads {word : String} (token : Token) (hword : 0 ∉ js word)
    (hne : js word ≠ []) : Reader Reads (readKeyword word token) := by
  intro current t rest hread
  rw [readKeyword] at hread
  split at hread
  · next hprefix =>
      cases hread
      obtain ⟨rest, rfl⟩ := List.isPrefixOf_iff_prefix.mp hprefix
      rw [List.drop_left]
      refine ⟨⟨js word, rfl, hword⟩, ?_⟩
      rw [List.length_append]
      have hlength := List.length_pos_of_ne_nil hne
      omega
  · cases hread

/-- A string literal after its quote. -/
theorem stringToken_reads {current rest : JSString} {t : Token}
    (hread : (do
      let (s, current) ← readString current
      return (.string s, current)) = some (t, rest)) : Reads (34 :: current) rest := by
  obtain ⟨⟨s, rest'⟩, hread', hreturn⟩ := Option.bind_eq_some_iff.mp hread
  cases hreturn
  exact .of_skips (by decide) (readString_skips _ _ _ hread')

theorem advance_reads : Reader Reads (advance engine) := by
  intro current t rest hread
  refine (skips_whitespace current).reads ?_
  rw [advance] at hread
  cases hskip : skipWhitespace current with
  | nil =>
      rw [hskip] at hread
      cases hread
  | cons c current =>
      rw [hskip] at hread
      dsimp only at hread
      have hkeyword : ∀ {word : String} {token : Token}, 0 ∉ js word → js word ≠ [] →
          readKeyword word token (c :: current) = some (t, rest) → Reads (c :: current) rest :=
        fun hword hne => readKeyword_reads _ hword hne _ _ _
      have hone : ∀ {x : UInt16} {token : Token}, x ≠ 0 → c = x →
          some (token, current) = some (t, rest) → Reads (c :: current) rest := by
        rintro x token hx rfl heq
        cases heq
        exact .of_skips hx (.refl _)
      by_cases h : c = 34
      · rw [if_pos h] at hread
        subst h
        exact stringToken_reads hread
      rw [if_neg h] at hread
      by_cases h : (c = 45 || isDec c) = true
      · rw [if_pos h] at hread
        obtain ⟨⟨n, rest'⟩, hread', hreturn⟩ := Option.bind_eq_some_iff.mp hread
        cases hreturn
        exact readNumber_reads engine _ _ _ hread'
      rw [if_neg h] at hread
      by_cases h : c = 116
      · rw [if_pos h] at hread
        exact hkeyword (by decide) (by decide) hread
      rw [if_neg h] at hread
      by_cases h : c = 102
      · rw [if_pos h] at hread
        exact hkeyword (by decide) (by decide) hread
      rw [if_neg h] at hread
      by_cases h : c = 110
      · rw [if_pos h] at hread
        exact hkeyword (by decide) (by decide) hread
      rw [if_neg h] at hread
      by_cases h : c = 91
      · rw [if_pos h] at hread
        exact hone (by decide) h hread
      rw [if_neg h] at hread
      by_cases h : c = 93
      · rw [if_pos h] at hread
        exact hone (by decide) h hread
      rw [if_neg h] at hread
      by_cases h : c = 123
      · rw [if_pos h] at hread
        exact hone (by decide) h hread
      rw [if_neg h] at hread
      by_cases h : c = 125
      · rw [if_pos h] at hread
        exact hone (by decide) h hread
      rw [if_neg h] at hread
      by_cases h : c = 44
      · rw [if_pos h] at hread
        exact hone (by decide) h hread
      rw [if_neg h] at hread
      by_cases h : c = 58
      · rw [if_pos h] at hread
        exact hone (by decide) h hread
      rw [if_neg h] at hread
      cases hread

theorem advanceTo_reads {tokens : List (UInt16 × Token)} (htokens : ∀ t ∈ tokens, t.1 ≠ 0) :
    Reader Reads (advanceTo tokens) := by
  intro current t rest hread
  refine (skips_whitespace current).reads ?_
  rw [advanceTo] at hread
  cases hskip : skipWhitespace current with
  | nil =>
      rw [hskip] at hread
      cases hread
  | cons c current =>
      rw [hskip] at hread
      obtain ⟨token, htoken, heq⟩ := Option.map_eq_some_iff.mp hread
      cases heq
      obtain ⟨before, after, rfl, -⟩ := List.lookup_eq_some_iff.mp htoken
      exact .of_skips (htokens (c, t) (by simp)) (.refl _)

theorem advancePropertyName_reads : Reader Reads advancePropertyName := by
  intro current t rest hread
  refine (skips_whitespace current).reads ?_
  rw [advancePropertyName] at hread
  cases hskip : skipWhitespace current with
  | nil =>
      rw [hskip] at hread
      cases hread
  | cons c current =>
      rw [hskip] at hread
      dsimp only at hread
      split_ifs at hread with h₁
      subst h₁
      exact stringToken_reads hread

theorem advanceAfterObjectOpen_reads : Reader Reads advanceAfterObjectOpen := by
  intro current t rest hread
  refine (skips_whitespace current).reads ?_
  rw [advanceAfterObjectOpen] at hread
  cases hskip : skipWhitespace current with
  | nil =>
      rw [hskip] at hread
      cases hread
  | cons c current =>
      rw [hskip] at hread
      dsimp only at hread
      split_ifs at hread with h₁ h₂
      · subst h₁
        exact stringToken_reads hread
      · subst h₂
        cases hread
        exact .of_skips (by decide) (.refl _)

theorem advanceAfterArrayElement_reads : Reader Reads advanceAfterArrayElement :=
  advanceTo_reads (by simp)

theorem advancePropertyColon_reads : Reader Reads advancePropertyColon :=
  advanceTo_reads (by simp)

theorem advanceAfterProperty_reads : Reader Reads advanceAfterProperty :=
  advanceTo_reads (by simp)

/-! ### The loop -/

def Label.rank : Label → ℕ
  | .finish _ => 0
  | _ => 1

/-- How many more steps the loop can take. -/
def ParserState.potential (s : ParserState) : ℕ := 2 * s.current.length + s.label.rank

theorem Label.rank_le (label : Label) : label.rank ≤ 1 := by
  cases label with
  | finish _ => exact Nat.zero_le _
  | switch _ | member _ => exact le_rfl

/-- A step reads characters, or hands a value over. -/
def Steps (s s' : ParserState) : Prop :=
  Skips s.current s'.current ∧ s'.potential < s.potential

/-- Where a character is read, any label may follow. -/
theorem steps_of_reads {s s' : ParserState} (h : Reads s.current s'.current) : Steps s s' := by
  have hle := s'.label.rank_le
  have hlength := h.2
  refine ⟨h.1, ?_⟩
  rw [ParserState.potential, ParserState.potential]
  omega

theorem step_spec {s s' : ParserState} (hstep : step engine s = some s') : Steps s s' := by
  obtain ⟨label, h, stack, current⟩ := s
  cases label with
  | switch token =>
      have hvalue : ∀ value, some ⟨.finish value, h, stack, current⟩ = some s' →
          Steps ⟨.switch token, h, stack, current⟩ s' := by
        rintro value heq
        cases heq
        exact ⟨.refl _, Nat.lt_succ_self _⟩
      cases token with
      | string s => exact hvalue _ hstep
      | number n => exact hvalue _ hstep
      | true => exact hvalue _ hstep
      | false => exact hvalue _ hstep
      | null => exact hvalue _ hstep
      | arrayOpen =>
          obtain ⟨⟨token, rest⟩, hread, hreturn⟩ := Option.bind_eq_some_iff.mp hstep
          have hreads := advance_reads engine _ _ _ hread
          cases token <;> cases hreturn <;> exact steps_of_reads hreads
      | objectOpen =>
          obtain ⟨⟨token, rest⟩, hread, hreturn⟩ := Option.bind_eq_some_iff.mp hstep
          have hreads := advanceAfterObjectOpen_reads _ _ _ hread
          cases token <;> cases hreturn <;> exact steps_of_reads hreads
      | arrayClose | objectClose | colon | comma => cases hstep
  | member token =>
      cases token with
      | string id =>
          match stack with
          | .properties l :: stack =>
              obtain ⟨⟨token, rest⟩, hcolon, hstep⟩ := Option.bind_eq_some_iff.mp hstep
              obtain ⟨⟨token, rest'⟩, hread, hreturn⟩ := Option.bind_eq_some_iff.mp hstep
              cases hreturn
              exact steps_of_reads ((advancePropertyColon_reads _ _ _ hcolon).trans
                (advance_reads engine _ _ _ hread).1)
          | .elements l :: stack => cases hstep
          | [] => cases hstep
      | number _ | true | false | null | arrayOpen | arrayClose | objectOpen | objectClose | colon
      | comma => cases hstep
  | finish value =>
      match stack with
      | [] => cases hstep
      | .elements l :: stack =>
          obtain ⟨⟨token, rest⟩, hread, hstep⟩ := Option.bind_eq_some_iff.mp hstep
          have hreads := advanceAfterArrayElement_reads _ _ _ hread
          cases token with
          | comma =>
              obtain ⟨⟨token, rest'⟩, hread', hreturn⟩ := Option.bind_eq_some_iff.mp hstep
              cases hreturn
              exact steps_of_reads (hreads.trans (advance_reads engine _ _ _ hread').1)
          | string _ | number _ | true | false | null | arrayOpen | arrayClose | objectOpen
          | objectClose | colon =>
              cases hstep
              exact steps_of_reads hreads
      | .properties [] :: stack => cases hstep
      | .properties ((id, _) :: l) :: stack =>
          obtain ⟨⟨token, rest⟩, hread, hstep⟩ := Option.bind_eq_some_iff.mp hstep
          have hreads := advanceAfterProperty_reads _ _ _ hread
          cases token with
          | comma =>
              obtain ⟨⟨token, rest'⟩, hread', hreturn⟩ := Option.bind_eq_some_iff.mp hstep
              cases hreturn
              exact steps_of_reads (hreads.trans (advancePropertyName_reads _ _ _ hread').1)
          | string _ | number _ | true | false | null | arrayOpen | arrayClose | objectOpen
          | objectClose | colon =>
              cases hstep
              exact steps_of_reads hreads

theorem parseLoop_skips {fuel : ℕ} {s : ParserState} {h : JSHeap} {v : Value} {rest : JSString}
    (hrun : parseLoop engine fuel s = some (h, v, rest)) : Skips s.current rest := by
  induction fuel generalizing s with
  | zero =>
      rw [parseLoop] at hrun
      split at hrun
      · cases hrun
        exact .refl _
      · cases hrun
  | succ fuel ih =>
      rw [parseLoop] at hrun
      split at hrun
      · cases hrun
        exact .refl _
      · obtain ⟨s', hstep, hrun⟩ := Option.bind_eq_some_iff.mp hrun
        exact (step_spec engine hstep).1.trans (ih hrun)

/-- More fuel than there are steps left changes nothing. -/
theorem parseLoop_fuel {fuel fuel' : ℕ} {s : ParserState} (hfuel : s.potential < fuel)
    (hle : fuel ≤ fuel') : parseLoop engine fuel' s = parseLoop engine fuel s := by
  induction fuel generalizing fuel' s with
  | zero => exact absurd hfuel (Nat.not_lt_zero _)
  | succ fuel ih =>
      obtain ⟨fuel', rfl⟩ : ∃ n, fuel' = n + 1 := ⟨fuel' - 1, by omega⟩
      rw [parseLoop, parseLoop]
      split
      · rfl
      · cases hstep : step engine s with
        | none => rfl
        | some s' =>
            have hlt := (step_spec engine hstep).2
            exact ih (by omega) (by omega)

/-- The fuel that `parse` gives is enough. -/
theorem parseLoop_enough {chars rest : JSString} {token : Token} {fuel : ℕ}
    (hread : advance engine chars = some (token, rest)) (hfuel : 2 * chars.length ≤ fuel)
    (h : JSHeap) : parseLoop engine fuel ⟨.switch token, h, [], rest⟩ =
      parseLoop engine (2 * chars.length) ⟨.switch token, h, [], rest⟩ := by
  have hlength := (advance_reads engine _ _ _ hread).2
  refine parseLoop_fuel engine ?_ hfuel
  rw [ParserState.potential]
  change 2 * rest.length + 1 < 2 * chars.length
  omega

/-- A text with a zero in it is no JSON. -/
theorem parse_eq_none {chars : JSString} (hzero : 0 ∈ chars) (h : JSHeap) :
    parse engine chars h = none := by
  by_contra hparse
  obtain ⟨⟨h', v⟩, hparse⟩ := Option.ne_none_iff_exists'.mp hparse
  obtain ⟨⟨token, rest⟩, hread, hparse⟩ := Option.bind_eq_some_iff.mp hparse
  obtain ⟨⟨h₁, v₁, rest₁⟩, hrun, hparse⟩ := Option.bind_eq_some_iff.mp hparse
  have hskips := (advance_reads engine _ _ _ hread).1.trans (parseLoop_skips engine hrun)
  dsimp only at hparse
  split at hparse
  · next hend =>
      obtain ⟨r, hr, hmem⟩ := hskips.trans (skips_whitespace rest₁)
      rw [List.isEmpty_iff.mp hend, List.append_nil] at hr
      exact hmem (hr ▸ hzero)
  · cases hparse

end JSONParser

end MetaMonkey.Js
