import MetaMonkey.Js.JsonText
import MetaMonkey.Staging.Tags
import MetaMonkey.Staging.Unparse

/-!
String literals: the part of `TokenStream::getTokenInternal` that looks for a string, and
what it makes of the text that `expr_literal` prints for one.
-/

namespace MetaMonkey.Frontend.StringLiteral

open ObjectGraph Js Staging Unparse
open Js.JSONParser (isDec isHex unhex quote)

/-! ### The scanner -/

def isRawEOLChar (c : UInt16) : Bool := c = 10 || c = 13 || c = 0x2028 || c = 0x2029

def isOct (c : UInt16) : Bool := 48 ≤ c && c < 56

def undec (c : UInt16) : ℕ := c.toNat - 48

/-- The digits of an octal escape after the first one, whose value is `val`. -/
def octalEscape (strictMode : Bool) (val : ℕ) (src : JSString) : Option (ℕ × JSString) :=
  if strictMode && (val ≠ 0 || (src.head?.map isDec).getD false) then none
  else
    match src with
    | [] => some (val, src)
    | c :: src₁ =>
        if isOct c then
          let val := 8 * val + undec c
          match src₁ with
          | [] => some (val, src₁)
          | d :: src₂ =>
              if isOct d && 8 * val + undec d ≤ 0xFF then some (8 * val + undec d, src₂)
              else some (val, src₁)
        else some (val, src)

/-- The letters of the short escapes. -/
def shortEscape (c : UInt16) : Option UInt16 :=
  if c = 98 then some 8
  else if c = 102 then some 12
  else if c = 110 then some 10
  else if c = 114 then some 13
  else if c = 116 then some 9
  else if c = 118 then some 11
  else none

def unicodeEscape : JSString → Option (Option UInt16 × JSString)
  | d₀ :: d₁ :: d₂ :: d₃ :: src =>
      if isHex d₀ && isHex d₁ && isHex d₂ && isHex d₃ then
        some (some (UInt16.ofNat ((((((unhex d₀ <<< 4) + unhex d₁) <<< 4) + unhex d₂) <<< 4) +
          unhex d₃)), src)
      else none
  | _ => none

def hexEscape : JSString → Option (Option UInt16 × JSString)
  | d₀ :: d₁ :: src =>
      if isHex d₀ && isHex d₁ then
        some (some (UInt16.ofNat ((unhex d₀ <<< 4) + unhex d₁)), src)
      else none
  | _ => none

/-- What follows a backslash: the character that it stands for, and no character for the end
of a line, which `getChar` takes as one. -/
def escape (strictMode : Bool) : JSString → Option (Option UInt16 × JSString)
  | [] => none
  | c :: src =>
      match shortEscape c with
      | some u => some (some u, src)
      | none =>
          if isOct c then
            (octalEscape strictMode (undec c) src).map fun r => (some (UInt16.ofNat r.1), r.2)
          else if c = 117 then unicodeEscape src
          else if c = 120 then hexEscape src
          else if c = 13 then some (none, if src.head? = some 10 then src.tail else src)
          else if isRawEOLChar c then some (none, src)
          else some (some c, src)

theorem octalEscape_length {strictMode : Bool} {val : ℕ} {src : JSString} {r : ℕ × JSString}
    (h : octalEscape strictMode val src = some r) : r.2.length ≤ src.length := by
  rw [octalEscape.eq_def] at h
  split_ifs at h
  split at h
  · cases h
    rfl
  · dsimp only at h
    split_ifs at h
    · split at h
      · cases h
        simp
      · split_ifs at h <;> cases h <;> grind
    · cases h
      rfl

/-- An escape takes a character at least. -/
theorem escape_length {strictMode : Bool} {src : JSString} {r : Option UInt16 × JSString}
    (h : escape strictMode src = some r) : r.2.length < src.length := by
  cases src with
  | nil => cases h
  | cons c src =>
      rw [escape.eq_def] at h
      dsimp only at h
      split at h
      · cases h
        exact Nat.lt_succ_self _
      · split_ifs at h with hoct hu hx hcr heol
        · obtain ⟨r', hoctal, rfl⟩ := Option.map_eq_some_iff.mp h
          exact Nat.lt_succ_of_le (octalEscape_length hoctal)
        · rw [unicodeEscape.eq_def] at h
          grind
        · rw [hexEscape.eq_def] at h
          grind
        all_goals
          cases h
          grind

/-- The loop over the characters of a string, after its quote `qc`. -/
def stringChars (strictMode : Bool) (qc : UInt16) : JSString → Option (JSString × JSString)
  | [] => none
  | c :: src =>
      if c = qc then some ([], src)
      else if c = 92 then
        match _h : escape strictMode src with
        | none => none
        | some r => (stringChars strictMode qc r.2).map fun s => (r.1.toList ++ s.1, s.2)
      else if isRawEOLChar c then none
      else (stringChars strictMode qc src).map fun s => (c :: s.1, s.2)
termination_by src => src.length
decreasing_by
  · exact Nat.lt_succ_of_lt (escape_length _h)
  · exact Nat.lt_succ_self _

/-- A string token, if the text begins with one. -/
def stringToken (strictMode : Bool) : JSString → Option (JSString × JSString)
  | [] => none
  | c :: src => if c = 34 || c = 39 then stringChars strictMode c src else none

/-! ### Quoted strings -/

section

variable {strictMode : Bool} {qc c : UInt16} {src src' tail : JSString} {unit : Option UInt16}

theorem stringChars_escape (hqc : 92 ≠ qc) (h : escape strictMode src = some (unit, src')) :
    stringChars strictMode qc (92 :: src) =
      (stringChars strictMode qc src').map fun s => (unit.toList ++ s.1, s.2) := by
  rw [stringChars, if_neg hqc, if_pos rfl]
  split
  · next hnone =>
      rw [h] at hnone
      cases hnone
  · next r hsome =>
      rw [h] at hsome
      cases hsome
      rfl

theorem stringChars_plain (hqc : c ≠ qc) (hslash : c ≠ 92) :
    stringChars strictMode qc (c :: tail) =
      if isRawEOLChar c then none
      else (stringChars strictMode qc tail).map fun s => (c :: s.1, s.2) := by
  rw [stringChars, if_neg hqc, if_neg hslash]

/-- A character that separates lines, and that `Quote` leaves as it is. -/
def isSeparator (c : UInt16) : Bool := c = 0x2028 || c = 0x2029

theorem isSeparator_iff : isSeparator c = true ↔ c = 0x2028 ∨ c = 0x2029 := by
  simp [isSeparator]

/-- An escape of one letter. -/
theorem stringChars_short {e u : UInt16}
    (he : escape strictMode (e :: tail) = some (some u, tail)) :
    stringChars strictMode 34 (92 :: e :: tail) =
      (stringChars strictMode 34 tail).map fun s => (u :: s.1, s.2) :=
  stringChars_escape (by decide) he

theorem stringChars_jsonUnit (c : UInt16) (tail : JSString) :
    stringChars strictMode 34 (jsonUnit c ++ tail) =
      if isSeparator c then none
      else (stringChars strictMode 34 tail).map fun s => (c :: s.1, s.2) := by
  by_cases hspecial : c < 32 ∨ c = 34 ∨ c = 92
  · have hnone : ¬ isSeparator c := by
      intro hc
      obtain rfl | rfl := isSeparator_iff.mp hc <;> exact absurd hspecial (by decide)
    rw [if_neg hnone, jsonUnit]
    split_ifs with h₁ h₂ h₃ h₄ h₅ h₆ h₇ h₈
    · subst h₁
      exact stringChars_short rfl
    · subst h₂
      exact stringChars_short rfl
    · subst h₃
      exact stringChars_short rfl
    · subst h₄
      exact stringChars_short rfl
    · subst h₅
      exact stringChars_short rfl
    · subst h₆
      exact stringChars_short rfl
    · subst h₇
      exact stringChars_short rfl
    · have hlt : c.toNat < 32 := UInt16.lt_iff_toNat_lt.mp h₈
      obtain ⟨hhex, hunhex⟩ := JSONParser.hexDigit_unhex (n := c.toNat / 16) (by omega)
      obtain ⟨hhex', hunhex'⟩ :=
        JSONParser.hexDigit_unhex (Nat.mod_lt c.toNat (by decide : 0 < 16))
      have hunit : UInt16.ofNat ((((((unhex 48 <<< 4) + unhex 48) <<< 4) + c.toNat / 16) <<< 4) +
          c.toNat % 16) = c := by
        have hall : ∀ n : Fin 32, (((((unhex 48 <<< 4) + unhex 48) <<< 4) + n.val / 16) <<< 4) +
            n.val % 16 = n.val := by decide
        rw [hall ⟨c.toNat, hlt⟩, UInt16.ofNat_toNat]
      have hescape : escape strictMode (117 :: 48 :: 48 :: hexDigit (c.toNat / 16) ::
          hexDigit (c.toNat % 16) :: tail) = some (some c, tail) := by
        change unicodeEscape (48 :: 48 :: hexDigit (c.toNat / 16) ::
          hexDigit (c.toNat % 16) :: tail) = _
        rw [unicodeEscape, hhex, hhex', hunhex, hunhex', hunit]
        rfl
      exact stringChars_escape (by decide) hescape
    · exact absurd hspecial (by tauto)
  · obtain ⟨hcontrol, hquote, hslash⟩ : ¬ c < 32 ∧ c ≠ 34 ∧ c ≠ 92 := by tauto
    have hunit : jsonUnit c = [c] := by
      have hne : ∀ d : UInt16, d < 32 → c ≠ d := fun d hd heq => hcontrol (heq ▸ hd)
      rw [jsonUnit, if_neg hquote, if_neg hslash, if_neg (hne 8 (by decide)),
        if_neg (hne 9 (by decide)), if_neg (hne 10 (by decide)), if_neg (hne 12 (by decide)),
        if_neg (hne 13 (by decide)), if_neg hcontrol]
    have hline : isRawEOLChar c = true ↔ isSeparator c := by
      have hten : c ≠ 10 := by
        rintro rfl
        exact hcontrol (by decide)
      have hthirteen : c ≠ 13 := by
        rintro rfl
        exact hcontrol (by decide)
      simp [isRawEOLChar, isSeparator, hten, hthirteen]
    rw [hunit, List.singleton_append, stringChars_plain hquote hslash]
    simp only [hline]

/-- What `Quote` makes of a string is read as the string, unless there is a separator in it. -/
theorem stringToken_quote (s rest : JSString) :
    stringToken strictMode (quote s ++ rest) =
      if s.any isSeparator then none else some (s, rest) := by
  have hchars : stringChars strictMode 34 (s.flatMap jsonUnit ++ 34 :: rest) =
      if s.any isSeparator then none else some (s, rest) := by
    induction s with
    | nil =>
        rw [List.any_nil, List.flatMap_nil, List.nil_append, stringChars, if_pos rfl,
          if_neg Bool.false_ne_true]
    | cons c s ih =>
        rw [List.flatMap_cons, List.append_assoc, stringChars_jsonUnit, ih, List.any_cons]
        cases isSeparator c
        · cases s.any isSeparator <;> rfl
        · rfl
  have hquote : quote s ++ rest = 34 :: (s.flatMap jsonUnit ++ 34 :: rest) := by simp [quote]
  rw [hquote, stringToken, if_pos (by decide), hchars]

end

/-! ### Literals -/

/-- What `wrapExpr` makes of a text. -/
def wrapped (text : JSString) (cprec xprec : ℕ) (ignorecprec : Bool) : JSString :=
  if xprec ≤ cprec ∧ ignorecprec = false then js "(" ++ text ++ js ")" else text

theorem wrapExpr_lit (text : String) (cprec xprec : ℕ) (h : JSHeap) (ignorecprec : Bool) :
    wrapExpr (lit text) cprec xprec (h, ignorecprec) =
      .ok (some (wrapped (js text) cprec xprec ignorecprec)) (h, ignorecprec) := by
  rw [wrapExpr, bind_ok (get_apply _), wrapped]
  split_ifs
  · simp [joinStrings, lit]
  · rfl

/-- What `expr_literal` prints for a string. The texts of two strings are taken for numbers. -/
def literalText (s : JSString) (cprec : ℕ) (ignorecprec : Bool) : JSString :=
  if s = js "Infinity" then wrapped (js "1e999") cprec 19 ignorecprec
  else if s = js "-Infinity" then wrapped (js "-1e999") cprec 15 ignorecprec
  else quote s

theorem exprLiteral_string {h : JSHeap} {val : Value} {s : JSString}
    (hvalue : getProperty h val "value" = .ok (string s)) (indent : Text) (cprec : ℕ)
    (noIn ignorecprec : Bool) :
    exprLiteral val indent cprec noIn (h, ignorecprec) =
      .ok (some (literalText s cprec ignorecprec)) (h, ignorecprec) := by
  have htext : (reads fun h => valueToString h (string s) : Print JSString) (h, ignorecprec) =
      .ok s (h, ignorecprec) := reads_ok rfl
  have hjson : (reads fun h => jsonStringify h (string s) : Print JSString) (h, ignorecprec) =
      .ok (quote s) (h, ignorecprec) := by
    refine reads_ok ?_
    change Except.ok (js "\"" ++ s.flatMap jsonUnit ++ js "\"") = _
    rfl
  rw [exprLiteral, prop, bind_ok (reads_ok hvalue), bind_ok htext, literalText]
  have hequals : ∀ t : String, equals s t = true ↔ s = js t := fun _ => decide_eq_true_iff
  by_cases hmax : s = js "Infinity"
  · rw [if_pos hmax]
    exact (congrFun (if_pos ((hequals _).mpr hmax)) _).trans (wrapExpr_lit _ _ _ _ _)
  · rw [if_neg hmax]
    refine (congrFun (if_neg (hmax ∘ (hequals _).mp)) _).trans ?_
    by_cases hmin : s = js "-Infinity"
    · rw [if_pos hmin]
      exact (congrFun (if_pos ((hequals _).mpr hmin)) _).trans (wrapExpr_lit _ _ _ _ _)
    · rw [if_neg hmin]
      refine (congrFun (if_neg (hmin ∘ (hequals _).mp)) _).trans ?_
      rw [bind_ok hjson]
      rfl

/-- The token of the text of a number is no string. -/
theorem stringToken_wrapped {text : JSString} {c : UInt16} {src : JSString}
    (htext : text = c :: src) (hc : c ≠ 34 ∧ c ≠ 39) (strictMode : Bool) (cprec xprec : ℕ)
    (ignorecprec : Bool) (rest : JSString) :
    stringToken strictMode (wrapped text cprec xprec ignorecprec ++ rest) = none := by
  rw [wrapped, htext]
  split_ifs
  · change stringToken strictMode (40 :: _) = _
    rw [stringToken, if_neg (by decide)]
  · rw [List.cons_append, stringToken, if_neg (by simpa using hc)]

/-- A string literal is printed, whatever it holds and wherever it stands, as a text that is
read as one token with the same string, exactly if the string is not the name of an infinity
and no line or paragraph separator is in it. -/
theorem stringLiteral_survives_iff {h : JSHeap} {val : Value} {s : JSString}
    (hvalue : getProperty h val "value" = .ok (string s)) (indent : Text) (cprec : ℕ)
    (noIn ignorecprec strictMode : Bool) :
    ∃ text,
      exprLiteral val indent cprec noIn (h, ignorecprec) = .ok (some text) (h, ignorecprec) ∧
      ((∀ rest, stringToken strictMode (text ++ rest) = some (s, rest)) ↔
        s ≠ js "Infinity" ∧ s ≠ js "-Infinity" ∧ 0x2028 ∉ s ∧ 0x2029 ∉ s) := by
  refine ⟨_, exprLiteral_string hvalue indent cprec noIn ignorecprec, ?_⟩
  rw [literalText]
  split_ifs with hmax hmin
  · refine iff_of_false (fun hread => ?_) fun hs => hs.1 hmax
    have hnumber : js "1e999" = 49 :: js "e999" := rfl
    have hnone := hread []
    rw [stringToken_wrapped hnumber (by decide)] at hnone
    cases hnone
  · refine iff_of_false (fun hread => ?_) fun hs => hs.2.1 hmin
    have hnumber : js "-1e999" = 45 :: js "1e999" := rfl
    have hnone := hread []
    rw [stringToken_wrapped hnumber (by decide)] at hnone
    cases hnone
  · simp only [stringToken_quote]
    have hseparator : s.any isSeparator = true ↔ 0x2028 ∈ s ∨ 0x2029 ∈ s := by
      simp only [List.any_eq_true, isSeparator_iff, and_or_left, exists_or, exists_eq_right]
    by_cases hfound : s.any isSeparator = true
    · simp only [if_pos hfound]
      refine iff_of_false (fun hread => ?_) fun hs => ?_
      · cases hread []
      · exact (hseparator.mp hfound).elim hs.2.2.1 hs.2.2.2
    · simp only [if_neg hfound]
      obtain ⟨hline, hparagraph⟩ := not_or.mp (mt hseparator.mpr hfound)
      exact ⟨fun _ => ⟨hmax, hmin, hline, hparagraph⟩, fun _ _ => trivial⟩

/-- The AST of `"say \"yes\"\nor \\"`. -/
def quotedLiteral : Ast :=
  node 0 "Literal" [("value", .leaf (string (js "say \"yes\"\nor \\")))]

theorem quotedLiteral_survives :
    ∃ text, exprLiteral (.ref 0) (some []) 17 false (.ofTrees [quotedLiteral], true) =
        .ok (some text) (.ofTrees [quotedLiteral], true) ∧
      ∀ rest, stringToken true (text ++ rest) = some (js "say \"yes\"\nor \\", rest) := by
  have hvalue : getProperty (.ofTrees [quotedLiteral]) (.ref 0) "value" =
      .ok (string (js "say \"yes\"\nor \\")) := by
    decide
  obtain ⟨text, hprint, hread⟩ :=
    stringLiteral_survives_iff hvalue (some []) 17 false true true
  exact ⟨text, hprint, hread.mpr (by decide)⟩

end MetaMonkey.Frontend.StringLiteral
