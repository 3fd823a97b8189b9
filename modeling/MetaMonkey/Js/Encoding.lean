import Mathlib.Data.Nat.Bitwise
import MetaMonkey.Js.Number

/-!
How the engine widens bytes to a string, byte by byte or as UTF-8.
-/

namespace MetaMonkey.Js

/-- `InflateString` -/
def inflateString (bytes : List UInt8) : JSString := bytes.map UInt8.toUInt16

/-- How many bytes a character has that starts with `v`, by the leading ones of
`v`: `while (v & (0x80 >> n)) n++`. -/
def sequenceLength (v : UInt8) : ℕ :=
  1 + ((List.range' 1 7).takeWhile fun n => v.toNat &&& (0x80 >>> n) ≠ 0).length

def invalidUtf8 : ℕ := 0xFFFFFFFF

/-- The least character for which a sequence of this length is the shortest. -/
def minucs4 (utf8Length : ℕ) : ℕ :=
  if utf8Length = 2 then 0x80 else if utf8Length = 3 then 0x800 else 0x10000

/-- `Utf8ToOneUcs4Char`, for a character of more than one byte. -/
def utf8ToOneUcs4Char (v : UInt8) (src : List UInt8) : ℕ :=
  let utf8Length := src.length + 1
  let ucs4Char := src.foldl (fun u b => (u <<< 6) ||| (b.toNat &&& 0x3F))
    (v.toNat &&& ((1 <<< (7 - utf8Length)) - 1))
  if ucs4Char < minucs4 utf8Length ∨ 0xD800 ≤ ucs4Char ∧ ucs4Char ≤ 0xDFFF then invalidUtf8
  else ucs4Char

/-- One turn of `InflateUTF8StringToBuffer`, at the byte `v` with `src` after
it: the units of the character, and the bytes after them. -/
def inflateUTF8Char (v : UInt8) (src : List UInt8) : Option (JSString × List UInt8) :=
  if v &&& 0x80 = 0 then some ([v.toUInt16], src)
  else
    let n := sequenceLength v
    if src.length + 1 < n then none
    else if n = 1 ∨ 4 < n then none
    else if (src.take (n - 1)).any fun b => b &&& 0xC0 ≠ 0x80 then none
    else
      let ucs4Char := utf8ToOneUcs4Char v (src.take (n - 1))
      if ucs4Char < 0x10000 then some ([UInt16.ofNat ucs4Char], src.drop (n - 1))
      else
        let w := ucs4Char - 0x10000
        if 0xFFFFF < w then none
        else
          some ([UInt16.ofNat ((w >>> 10) + 0xD800), UInt16.ofNat ((w &&& 0x3FF) + 0xDC00)],
            src.drop (n - 1))

/-- The turns of `InflateUTF8StringToBuffer`. A turn takes a byte at least. -/
def inflateUTF8Chars : ℕ → List UInt8 → Option JSString
  | _, [] => some []
  | 0, _ :: _ => none
  | fuel + 1, v :: src => do
      let (units, rest) ← inflateUTF8Char v src
      return units ++ (← inflateUTF8Chars fuel rest)

/-- `InflateUTF8String`: the units, whose number it also returns, and none when
the bytes are not UTF-8. -/
def inflateUTF8String (bytes : List UInt8) : Option JSString :=
  inflateUTF8Chars bytes.length bytes

/-- Units of Latin-1 are widened from their low bytes. -/
theorem inflateString_narrow {s : JSString} (h : ∀ c ∈ s, c < 256) :
    inflateString (s.map UInt16.toUInt8) = s := by
  rw [inflateString, List.map_map]
  refine (List.map_congr_left fun c hc => ?_).trans (List.map_id s)
  have hlt : c.toNat < 2 ^ 8 := UInt16.lt_iff_toNat_lt.mp (h c hc)
  rw [Function.comp_apply, ← UInt16.toNat_inj, UInt8.toNat_toUInt16, UInt16.toNat_toUInt8,
    Nat.mod_eq_of_lt hlt]
  rfl

/-! ### The number of units -/

theorem foldl_ucs4_lt (src : List UInt8) (u : ℕ) :
    src.foldl (fun u b => (u <<< 6) ||| (b.toNat &&& 0x3F)) u < (u + 1) * 64 ^ src.length := by
  induction src generalizing u with
  | nil => simp
  | cons b src ih =>
      have hlow : b.toNat &&& 0x3F < 2 ^ 6 := Nat.and_lt_two_pow _ (by decide)
      have hstep : (u <<< 6 ||| (b.toNat &&& 0x3F)) + 1 ≤ (u + 1) * 64 := by
        rw [← Nat.shiftLeft_add_eq_or_of_lt hlow, Nat.shiftLeft_eq]
        omega
      calc (b :: src).foldl (fun u b => (u <<< 6) ||| (b.toNat &&& 0x3F)) u
          < ((u <<< 6 ||| (b.toNat &&& 0x3F)) + 1) * 64 ^ src.length := ih _
        _ ≤ (u + 1) * 64 * 64 ^ src.length := Nat.mul_le_mul_right _ hstep
        _ = (u + 1) * 64 ^ (b :: src).length := by
          rw [List.length_cons, Nat.pow_succ', Nat.mul_assoc]

/-- A character of less than four bytes is less than `0x10000`. -/
theorem utf8ToOneUcs4Char_lt {v : UInt8} {src : List UInt8} (h : src.length = 1 ∨ src.length = 2) :
    utf8ToOneUcs4Char v src < 0x10000 ∨ utf8ToOneUcs4Char v src = invalidUtf8 := by
  have hbound := foldl_ucs4_lt src (v.toNat &&& ((1 <<< (7 - (src.length + 1))) - 1))
  simp only [utf8ToOneUcs4Char]
  split
  · exact Or.inr rfl
  · refine Or.inl (lt_of_lt_of_le hbound ?_)
    obtain h | h := h
    · have hv : v.toNat &&& ((1 <<< (7 - (src.length + 1))) - 1) < 2 ^ 5 :=
        Nat.and_lt_two_pow _ (by rw [h]; decide)
      rw [h] at hv ⊢
      omega
    · have hv : v.toNat &&& ((1 <<< (7 - (src.length + 1))) - 1) < 2 ^ 4 :=
        Nat.and_lt_two_pow _ (by rw [h]; decide)
      rw [h] at hv ⊢
      omega

/-- A byte of a character of one byte. -/
theorem and_80_eq_zero_iff (v : UInt8) : v &&& 0x80 = 0 ↔ v < 128 := by
  have hv := v.toNat_lt
  have hbit : v.toNat &&& 2 ^ 7 = (v.toNat.testBit 7).toNat * 2 ^ 7 := Nat.and_two_pow _ _
  rw [Nat.testBit_eq_decide_div_mod_eq] at hbit
  rw [← UInt8.toNat_inj, UInt8.lt_iff_toNat_lt, UInt8.toNat_and]
  change v.toNat &&& 2 ^ 7 = 0 ↔ v.toNat < 128
  rw [hbit]
  by_cases hhigh : v.toNat / 2 ^ 7 % 2 = 1
  · simp only [hhigh, decide_true, Bool.toNat_true]
    omega
  · simp only [hhigh, decide_false, Bool.toNat_false]
    omega

/-- A character has no more units than bytes, and as many only when it is one
byte. -/
theorem inflateUTF8Char_length {v : UInt8} {src rest : List UInt8} {units : JSString}
    (h : inflateUTF8Char v src = some (units, rest)) :
    v < 128 ∧ units = [v.toUInt16] ∧ rest = src ∨
      units.length + rest.length < src.length + 1 := by
  rw [inflateUTF8Char] at h
  split at h
  · next hv =>
      obtain ⟨rfl, rfl⟩ := Prod.mk.inj (Option.some.inj h)
      exact Or.inl ⟨(and_80_eq_zero_iff v).mp hv, rfl, rfl⟩
  · refine Or.inr ?_
    simp only at h
    split_ifs at h with hlen hbad hrest hsmall hlarge
    · obtain ⟨rfl, rfl⟩ := Prod.mk.inj (Option.some.inj h)
      have hn : 1 ≤ sequenceLength v := Nat.le_add_right _ _
      rw [List.length_drop, List.length_singleton]
      omega
    · obtain ⟨rfl, rfl⟩ := Prod.mk.inj (Option.some.inj h)
      have hn : 1 ≤ sequenceLength v := Nat.le_add_right _ _
      -- two units need four bytes
      have hfour : sequenceLength v = 4 := by
        by_contra hfour
        have htake : (src.take (sequenceLength v - 1)).length = 1 ∨
            (src.take (sequenceLength v - 1)).length = 2 := by
          rw [List.length_take]
          omega
        obtain hlt | hinvalid := utf8ToOneUcs4Char_lt (v := v) htake
        · exact hsmall hlt
        · rw [hinvalid] at hlarge
          exact hlarge (by decide)
      rw [List.length_drop]
      simp only [List.length_cons, List.length_nil]
      omega

theorem inflateUTF8Chars_length {fuel : ℕ} {bytes : List UInt8} {units : JSString}
    (h : inflateUTF8Chars fuel bytes = some units) :
    (∀ b ∈ bytes, b < 128) ∧ units = inflateString bytes ∨ units.length < bytes.length := by
  induction fuel generalizing bytes units with
  | zero =>
      cases bytes with
      | nil =>
          obtain rfl := Option.some.inj h
          exact Or.inl ⟨by simp, rfl⟩
      | cons v src => exact absurd h (by simp [inflateUTF8Chars])
  | succ fuel ih =>
      cases bytes with
      | nil =>
          obtain rfl := Option.some.inj h
          exact Or.inl ⟨by simp, rfl⟩
      | cons v src =>
          obtain ⟨⟨us, rest⟩, hchar, hrest⟩ := Option.bind_eq_some_iff.mp h
          obtain ⟨more, hmore, hunits⟩ := Option.bind_eq_some_iff.mp hrest
          obtain rfl := Option.some.inj hunits
          obtain ⟨hv, rfl, rfl⟩ | hlt := inflateUTF8Char_length hchar
          · obtain ⟨hall, rfl⟩ | hlt := ih hmore
            · exact Or.inl ⟨by simpa using ⟨hv, hall⟩, rfl⟩
            · exact Or.inr (by simpa using hlt)
          · refine Or.inr ?_
            have hle : more.length ≤ rest.length := by
              obtain ⟨-, rfl⟩ | hlt := ih hmore
              · exact le_of_eq (List.length_map _)
              · exact Nat.le_of_lt hlt
            rw [List.length_append, List.length_cons]
            omega

/-- Bytes below 128 are read one by one. Any other text of UTF-8 has more bytes
than units. -/
theorem inflateUTF8String_length {bytes : List UInt8} {units : JSString}
    (h : inflateUTF8String bytes = some units) :
    (∀ b ∈ bytes, b < 128) ∧ units = inflateString bytes ∨ units.length < bytes.length :=
  inflateUTF8Chars_length h

theorem inflateUTF8Chars_ascii {fuel : ℕ} {bytes : List UInt8} (hfuel : bytes.length ≤ fuel)
    (h : ∀ b ∈ bytes, b < 128) : inflateUTF8Chars fuel bytes = some (inflateString bytes) := by
  induction bytes generalizing fuel with
  | nil => cases fuel <;> rfl
  | cons v src ih =>
      cases fuel with
      | zero => exact absurd hfuel (by simp)
      | succ fuel =>
          have hv : inflateUTF8Char v src = some ([v.toUInt16], src) :=
            if_pos ((and_80_eq_zero_iff v).mpr (h v (by simp)))
          have hsrc := @ih fuel (by simpa using hfuel) fun b hb => h b (by simp [hb])
          rw [inflateUTF8Chars, hv, Option.bind_eq_bind, Option.bind_some]
          simp only [hsrc]
          rfl

theorem inflateUTF8String_ascii {bytes : List UInt8} (h : ∀ b ∈ bytes, b < 128) :
    inflateUTF8String bytes = some (inflateString bytes) :=
  inflateUTF8Chars_ascii le_rfl h

end MetaMonkey.Js
