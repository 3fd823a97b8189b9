import Mathlib.Data.List.TakeWhile
import MetaMonkey.Staging.Unparse
import MetaMonkey.Frontend.LayoutText
import MetaMonkey.Frontend.LayoutTokens

/-!
What the printer looks for at the start of a text, and the pieces that are there.
-/

namespace MetaMonkey.Frontend

open Js Layout MetaMonkey.Staging

/-! ### Words as bytes -/

section

variable {c : UInt16}

theorem toUInt8_toNat (h : isIdentifierPart c = true) : c.toUInt8.toNat = c.toNat := by
  have hc : c.toNat < 128 := by
    simp only [isIdentifierPart, isIdentifierStart, Bool.or_eq_true, Bool.and_eq_true,
      decide_eq_true_eq] at h
    simp only [UInt16.le_iff_toNat_le] at h
    obtain (((rfl | rfl) | h) | h) | h := h
    · decide
    · decide
    · exact lt_of_le_of_lt h.2 (by decide)
    · exact lt_of_le_of_lt h.2 (by decide)
    · exact lt_of_le_of_lt h.2 (by decide)
  rw [UInt16.toNat_toUInt8]
  exact Nat.mod_eq_of_lt (by omega)

theorem toUInt8_start (h : isIdentifierPart c = true) :
    Unparse.isIdentifierStart c.toUInt8 = isIdentifierStart c := by
  have hnat := toUInt8_toNat h
  rw [Bool.eq_iff_iff]
  simp only [Unparse.isIdentifierStart, isIdentifierStart, Bool.or_eq_true, Bool.and_eq_true,
    decide_eq_true_eq, UInt8.le_iff_toNat_le, UInt16.le_iff_toNat_le, ← UInt8.toNat_inj,
    ← UInt16.toNat_inj, hnat]
  simp
  omega

theorem toUInt8_part (h : isIdentifierPart c = true) :
    Unparse.isIdentifierPart c.toUInt8 = true := by
  have hnat := toUInt8_toNat h
  have hstart := toUInt8_start h
  rw [Unparse.isIdentifierPart, hstart]
  simpa [isIdentifierPart, UInt8.le_iff_toNat_le, UInt16.le_iff_toNat_le, hnat] using h

theorem toUInt8_toUInt16 (h : isIdentifierPart c = true) : c.toUInt8.toUInt16 = c := by
  rw [← UInt16.toNat_inj, UInt8.toNat_toUInt16, toUInt8_toNat h]

end

theorem part_of_isWordText {w : JSString} (h : isWordText w = true) :
    ∀ c ∈ w, isIdentifierPart c = true := by
  cases w with
  | nil => simp [isWordText] at h
  | cons c cs =>
      simp only [isWordText, Bool.and_eq_true, List.all_eq_true] at h
      intro d hd
      obtain rfl | hd := List.mem_cons.mp hd
      · simp [isIdentifierPart, h.1]
      · exact h.2 d hd

/-- A word is known from its bytes. -/
theorem isWordText_injective {v w : JSString} (hv : isWordText v = true) (hw : isWordText w = true)
    (h : v.map UInt16.toUInt8 = w.map UInt16.toUInt8) : v = w := by
  have hback : ∀ {u : JSString}, isWordText u = true →
      (u.map UInt16.toUInt8).map UInt8.toUInt16 = u := by
    intro u hu
    rw [List.map_map]
    refine (List.map_congr_left fun c hc => ?_).trans (List.map_id u)
    exact toUInt8_toUInt16 (part_of_isWordText hu c hc)
  rw [← hback hv, h, hback hw]

theorem encodeString_word {w : JSString} (hw : isWordText w = true) :
    encodeString w = w.map UInt16.toUInt8 := by
  rw [encodeString, List.takeWhile_eq_self_iff]
  intro b hb
  obtain ⟨c, hc, rfl⟩ := List.mem_map.mp hb
  have hpart := toUInt8_part (part_of_isWordText hw c hc)
  rw [decide_eq_true_eq]
  intro hzero
  rw [hzero] at hpart
  exact absurd hpart (by decide)

/-- A word is no bad identifier. -/
theorem start_and_parts {w : JSString} (hw : isWordText w = true) :
    ∃ b bs, encodeString w = b :: bs ∧ Unparse.isIdentifierStart b = true ∧
      bs.all Unparse.isIdentifierPart = true := by
  have hbytes := encodeString_word hw
  have hpart := part_of_isWordText hw
  cases w with
  | nil => simp [isWordText] at hw
  | cons c cs =>
      simp only [isWordText, Bool.and_eq_true] at hw
      refine ⟨_, _, hbytes, ?_, ?_⟩
      · rw [toUInt8_start (hpart c (by simp)), hw.1]
      · simp only [List.all_map, List.all_eq_true]
        exact fun d hd => toUInt8_part (hpart d (by simp [hd]))

/-- The bytes of the word at the start of a text. -/
theorem takeWhile_encodeString {w s : JSString} (hw : isWordText w = true)
    (hs : ∀ c ∈ s.head?, Unparse.isIdentifierPart c.toUInt8 = false) :
    (encodeString (w ++ s)).takeWhile Unparse.isIdentifierPart = w.map UInt16.toUInt8 := by
  have hpart : ∀ b ∈ w.map UInt16.toUInt8, Unparse.isIdentifierPart b = true := by
    intro b hb
    obtain ⟨c, hc, rfl⟩ := List.mem_map.mp hb
    exact toUInt8_part (part_of_isWordText hw c hc)
  have hnonzero : ∀ b ∈ w.map UInt16.toUInt8, decide (b ≠ 0) = true := by
    intro b hb
    rw [decide_eq_true_eq]
    rintro rfl
    exact absurd (hpart 0 hb) (by decide)
  rw [encodeString, List.map_append, List.takeWhile_append_of_pos hnonzero,
    List.takeWhile_append_of_pos hpart]
  cases s with
  | nil => simp
  | cons c s =>
      by_cases hc : c.toUInt8 = 0
      · simp [hc]
      · simp [hc, hs c rfl]

theorem prefix_of_keyword {k : Keyword} {w s : JSString} (hw : isWordText w = true)
    (hs : ∀ c ∈ s.head?, Unparse.isIdentifierPart c.toUInt8 = false)
    (h : encodeString (js k.text) ++ [32] <+: encodeString (w ++ s)) : w = js k.text := by
  obtain ⟨r, hr⟩ := h
  refine isWordText_injective hw (isWordText_keyword k) ?_
  have hbytes : encodeString (js k.text) = (js k.text).map UInt16.toUInt8 := by
    cases k <;> decide
  have hletters : (encodeString (js k.text)).all Unparse.isIdentifierPart = true := by
    cases k <;> decide
  have hpart := List.all_eq_true.mp hletters
  have htake := takeWhile_encodeString hw hs
  rw [← hr, List.append_assoc, List.takeWhile_append_of_pos hpart] at htake
  have hblank : Unparse.isIdentifierPart 32 = false := by decide
  simpa [hblank, hbytes] using htake.symm

/-! ### Starts -/

/-- A piece that is no word starts with no part of a word. -/
theorem render_head {ps : List Piece} (h : headIsWord ps = false) :
    ∀ c ∈ (render ps).head?, Unparse.isIdentifierPart c.toUInt8 = false := by
  intro c hc
  match ps with
  | [] => cases hc
  | .space :: ps =>
      cases hc
      rfl
  | .lexeme .eol :: ps =>
      cases hc
      rfl
  | .lexeme (.punct p) :: ps =>
      cases p <;> cases hc <;> rfl
  | .lexeme (.word w) :: ps => cases h

section

variable {c : ℕ} {ps : List Piece}

theorem Begins.startsLikeBlock (h : Begins c ps) :
    decide ((render ps).head? = some 123) = startsLikeBlock ps := by
  cases h with
  | @name w ps hw hps hword =>
      have htext := isWordText_of_isName hw
      cases w with
      | nil => simp [isWordText] at htext
      | cons c cs =>
          simp only [isWordText, Bool.and_eq_true] at htext
          have hc : c ≠ 123 := by
            rintro rfl
            exact absurd htext.1 (by decide)
          simpa [Layout.startsLikeBlock, word, render_cons, Piece.text, Lexeme.text] using hc
  | this ps => rfl
  | bracket hp ps => obtain rfl | rfl | rfl := hp <;> rfl
  | new ps => rfl
  | function hc ps => rfl
  | letHead hc ps => rfl
  | unary hc op ps => cases op <;> rfl
  | update hc op ps => cases op <;> rfl
  | yield hc ps => rfl

theorem startsLikeStmt_word {w : JSString} (hfunction : w ≠ js Keyword.function.text)
    (hvar : w ≠ js Keyword.var.text) : Layout.startsLikeStmt (word w :: ps) = false := by
  match ps with
  | [] => rfl
  | .space :: ps => simp [Layout.startsLikeStmt, word, hfunction, hvar]
  | .lexeme l :: ps => rfl

theorem Begins.startsLikeStmt (h : Begins c ps) :
    Unparse.startsLikeStmt (encodeString (render ps)) = Layout.startsLikeStmt ps := by
  cases h with
  | @name w ps hw hps hword =>
      have htext := isWordText_of_isName hw
      have hkeyword : ∀ k, w ≠ js (Keyword.text k) := by
        rintro k rfl
        simpa [keyword?_text] using keyword?_of_isName hw
      have hno : ∀ k, (encodeString (js (Keyword.text k)) ++ [32]).isPrefixOf
          (encodeString (w ++ render ps)) = false := by
        intro k
        rw [Bool.eq_false_iff, ne_eq, List.isPrefixOf_iff_prefix]
        exact fun hk => hkeyword k (prefix_of_keyword htext (render_head hword) hk)
      have hblock : ([123] : List UInt8).isPrefixOf (encodeString (w ++ render ps)) = false := by
        cases w with
        | nil => simp [isWordText] at htext
        | cons c cs =>
            have hpart := toUInt8_part (part_of_isWordText htext c (by simp))
            have hzero : c.toUInt8 ≠ 0 := by
              intro hzero
              rw [hzero] at hpart
              exact absurd hpart (by decide)
            have hbrace : (123 : UInt8) ≠ c.toUInt8 := by
              intro hbrace
              rw [← hbrace] at hpart
              exact absurd hpart (by decide)
            simp [encodeString, hzero, List.isPrefixOf, hbrace]
      rw [startsLikeStmt_word (hkeyword _) (hkeyword _)]
      have hfunction := hno .function
      have hvar := hno .var
      exact Bool.or_eq_false_iff.mpr ⟨Bool.or_eq_false_iff.mpr ⟨hfunction, hvar⟩, hblock⟩
  | this ps => exact (startsLikeStmt_word (by decide) (by decide)).symm
  | bracket hp ps => obtain rfl | rfl | rfl := hp <;> rfl
  | new ps => exact (startsLikeStmt_word (by decide) (by decide)).symm
  | function hc ps => rfl
  | letHead hc ps => rfl
  | unary hc op ps =>
      -- an operator that is a word is no start of a statement
      cases op with
      | delete => exact (startsLikeStmt_word (by decide) (by decide)).symm
      | typeof => exact (startsLikeStmt_word (by decide) (by decide)).symm
      | void => exact (startsLikeStmt_word (by decide) (by decide)).symm
      | _ => rfl
  | update hc op ps => cases op <;> rfl
  | yield hc ps => exact (startsLikeStmt_word (by decide) (by decide)).symm

end

end MetaMonkey.Frontend
