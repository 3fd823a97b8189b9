import MetaMonkey.Js.Json

/-!
The global functions `escape` and `unescape`, by which code is put in a reply and taken
out of it.
-/

namespace MetaMonkey.Js

open JSONParser (isHex unhex)

/-- The characters that `shouldPassThrough` has a one for. -/
def shouldPassThrough : JSString :=
  js "*+-./0123456789@ABCDEFGHIJKLMNOPQRSTUVWXYZ_abcdefghijklmnopqrstuvwxyz"

def digits : JSString := js "0123456789ABCDEF"

def digit (n : ℕ) : UInt16 := digits.getD n 0

/-- One turn of the loop of `str_escape`. -/
def escapeChar (ch : UInt16) : JSString :=
  if ch ∈ shouldPassThrough then [ch]
  else if ch < 256 then [37, digit (ch.toNat >>> 4), digit (ch.toNat &&& 0xF)]
  else
    [37, 117, digit (ch.toNat >>> 12), digit ((ch.toNat &&& 0xF00) >>> 8),
      digit ((ch.toNat &&& 0xF0) >>> 4), digit (ch.toNat &&& 0xF)]

/-- `str_escape` -/
def strEscape (s : JSString) : JSString := s.flatMap escapeChar

/-- `Unhex4` -/
def unhex4 (a b c d : UInt16) : Option UInt16 :=
  if isHex a && isHex b && isHex c && isHex d then
    some (UInt16.ofNat ((((((unhex a <<< 4) + unhex b) <<< 4) + unhex c) <<< 4) + unhex d))
  else none

/-- `Unhex2` -/
def unhex2 (a b : UInt16) : Option UInt16 :=
  if isHex a && isHex b then some (UInt16.ofNat ((unhex a <<< 4) + unhex b)) else none

/-- `str_unescape`. What is no escape stays as it is. -/
def strUnescape : JSString → JSString
  | [] => []
  | 37 :: 117 :: a :: b :: c :: d :: s =>
      match unhex4 a b c d with
      | some u => u :: strUnescape s
      | none => 37 :: strUnescape (117 :: a :: b :: c :: d :: s)
  | 37 :: a :: b :: s =>
      match unhex2 a b with
      | some u => u :: strUnescape s
      | none => 37 :: strUnescape (a :: b :: s)
  | c :: s => c :: strUnescape s

/-! ### One character -/

theorem digit_unhex {n : ℕ} (hn : n < 16) : isHex (digit n) = true ∧ unhex (digit n) = n := by
  have hall : ∀ n : Fin 16, isHex (digit n) = true ∧ unhex (digit n) = n := by decide
  exact hall ⟨n, hn⟩

/-- No digit is the `u` of a longer escape. -/
theorem digit_ne_u {n : ℕ} (hn : n < 16) : digit n ≠ 117 := by
  have hall : ∀ n : Fin 16, digit n ≠ 117 := by decide
  exact hall ⟨n, hn⟩

theorem unhex2_digits (ch : UInt16) (hlt : ch < 256) :
    unhex2 (digit (ch.toNat >>> 4)) (digit (ch.toNat &&& 0xF)) = some ch := by
  have hnat : ch.toNat < 256 := UInt16.lt_iff_toNat_lt.mp hlt
  have hhigh : ch.toNat >>> 4 < 16 := by
    rw [Nat.shiftRight_eq_div_pow]
    omega
  have hlow : ch.toNat &&& 0xF < 16 := Nat.lt_succ_of_le Nat.and_le_right
  have hvalue : ((ch.toNat >>> 4) <<< 4) + (ch.toNat &&& 0xF) = ch.toNat := by
    rw [Nat.shiftRight_eq_div_pow, Nat.shiftLeft_eq, Nat.and_two_pow_sub_one_eq_mod ch.toNat 4]
    omega
  obtain ⟨hhex, hunhex⟩ := digit_unhex hhigh
  obtain ⟨hhex', hunhex'⟩ := digit_unhex hlow
  rw [unhex2, hhex, hhex', hunhex, hunhex', hvalue, UInt16.ofNat_toNat]
  rfl

theorem unhex4_digits (ch : UInt16) :
    unhex4 (digit (ch.toNat >>> 12)) (digit ((ch.toNat &&& 0xF00) >>> 8))
      (digit ((ch.toNat &&& 0xF0) >>> 4)) (digit (ch.toNat &&& 0xF)) = some ch := by
  have hnat : ch.toNat < 65536 := ch.toNat_lt
  have h₃ : ch.toNat >>> 12 = ch.toNat / 4096 := Nat.shiftRight_eq_div_pow _ _
  have h₂ : (ch.toNat &&& 0xF00) >>> 8 = ch.toNat / 256 % 16 := by
    rw [Nat.shiftRight_and_distrib, Nat.shiftRight_eq_div_pow]
    exact Nat.and_two_pow_sub_one_eq_mod _ 4
  have h₁ : (ch.toNat &&& 0xF0) >>> 4 = ch.toNat / 16 % 16 := by
    rw [Nat.shiftRight_and_distrib, Nat.shiftRight_eq_div_pow]
    exact Nat.and_two_pow_sub_one_eq_mod _ 4
  have h₀ : ch.toNat &&& 0xF = ch.toNat % 16 := Nat.and_two_pow_sub_one_eq_mod _ 4
  have hvalue : (((((ch.toNat / 4096) <<< 4) + ch.toNat / 256 % 16) <<< 4) +
      ch.toNat / 16 % 16) <<< 4 + ch.toNat % 16 = ch.toNat := by
    simp only [Nat.shiftLeft_eq]
    omega
  obtain ⟨hhex₃, hunhex₃⟩ := digit_unhex (n := ch.toNat / 4096) (by omega)
  obtain ⟨hhex₂, hunhex₂⟩ := digit_unhex (Nat.mod_lt (ch.toNat / 256) (by decide : 0 < 16))
  obtain ⟨hhex₁, hunhex₁⟩ := digit_unhex (Nat.mod_lt (ch.toNat / 16) (by decide : 0 < 16))
  obtain ⟨hhex₀, hunhex₀⟩ := digit_unhex (Nat.mod_lt ch.toNat (by decide : 0 < 16))
  rw [h₃, h₂, h₁, h₀, unhex4, hhex₃, hhex₂, hhex₁, hhex₀, hunhex₃, hunhex₂, hunhex₁, hunhex₀,
    hvalue, UInt16.ofNat_toNat]
  rfl

/-- A character that is no percent sign stands for itself. -/
theorem strUnescape_plain {ch : UInt16} (hch : ch ≠ 37) (s : JSString) :
    strUnescape (ch :: s) = ch :: strUnescape s := by
  rw [strUnescape.eq_def]
  split
  · contradiction
  · next heq => exact absurd (List.cons.inj heq).1 hch
  · next heq => exact absurd (List.cons.inj heq).1 hch
  · next heq =>
      obtain ⟨rfl, rfl⟩ := List.cons.inj heq
      rfl

/-- The escape of a character is read as the character, whatever follows. -/
theorem strUnescape_escapeChar (ch : UInt16) (s : JSString) :
    strUnescape (escapeChar ch ++ s) = ch :: strUnescape s := by
  rw [escapeChar]
  split
  · next hpass =>
      refine strUnescape_plain ?_ s
      rintro rfl
      exact absurd hpass (by decide)
  · split
    · next hlt =>
        have hhigh : ch.toNat >>> 4 < 16 := by
          have hnat : ch.toNat < 256 := UInt16.lt_iff_toNat_lt.mp hlt
          rw [Nat.shiftRight_eq_div_pow]
          omega
        have hu : digit (ch.toNat >>> 4) ≠ 117 := digit_ne_u hhigh
        simp only [List.cons_append, List.nil_append]
        rw [strUnescape]
        · rw [unhex2_digits ch hlt]
        · intro b c d s' heq
          exact absurd heq hu
    · simp only [List.cons_append, List.nil_append]
      rw [strUnescape, unhex4_digits]

/-! ### Strings -/

theorem strUnescape_strEscape_append (s rest : JSString) :
    strUnescape (strEscape s ++ rest) = s ++ strUnescape rest := by
  induction s with
  | nil => rfl
  | cons ch s ih =>
      rw [strEscape, List.flatMap_cons, List.append_assoc, strUnescape_escapeChar,
        ← strEscape, ih, List.cons_append]

/-- What has been escaped is got back whole. -/
theorem strUnescape_strEscape (s : JSString) : strUnescape (strEscape s) = s := by
  have h := strUnescape_strEscape_append s []
  rwa [List.append_nil, strUnescape, List.append_nil] at h

/-- The characters of an escaped string. -/
def escapeChars : JSString := js "%u" ++ shouldPassThrough

theorem mem_escapeChars {s : JSString} {c : UInt16} (h : c ∈ strEscape s) : c ∈ escapeChars := by
  have hdigit : ∀ n, n < 16 → digit n ∈ escapeChars := by
    intro n hn
    have hall : ∀ n : Fin 16, digit n ∈ escapeChars := by decide
    exact hall ⟨n, hn⟩
  obtain ⟨ch, -, hc⟩ := List.mem_flatMap.mp h
  have hlow : ch.toNat &&& 0xF < 16 := Nat.lt_succ_of_le Nat.and_le_right
  have hnat : ch.toNat < 65536 := ch.toNat_lt
  rw [escapeChar] at hc
  split at hc
  · next hpass =>
      obtain rfl := List.mem_singleton.mp hc
      exact List.mem_append_right _ hpass
  · split at hc
    · next hlt =>
        have hlt' : ch.toNat < 256 := UInt16.lt_iff_toNat_lt.mp hlt
        simp only [List.mem_cons, List.not_mem_nil, or_false] at hc
        obtain rfl | rfl | rfl := hc
        · decide
        · refine hdigit _ ?_
          rw [Nat.shiftRight_eq_div_pow]
          omega
        · exact hdigit _ hlow
    · simp only [List.mem_cons, List.not_mem_nil, or_false] at hc
      obtain rfl | rfl | rfl | rfl | rfl | rfl := hc
      · decide
      · decide
      · refine hdigit _ ?_
        rw [Nat.shiftRight_eq_div_pow]
        omega
      · refine hdigit _ ?_
        rw [Nat.shiftRight_and_distrib]
        exact Nat.lt_succ_of_le Nat.and_le_right
      · refine hdigit _ ?_
        rw [Nat.shiftRight_and_distrib]
        exact Nat.lt_succ_of_le Nat.and_le_right
      · exact hdigit _ hlow

/-- Every string comes back from its escaped form, which has no character but the percent
sign and those that pass through. -/
theorem strEscape_comesBack (s : JSString) :
    strUnescape (strEscape s) = s ∧ ∀ c ∈ strEscape s, c ∈ escapeChars :=
  ⟨strUnescape_strEscape s, fun _ hc => mem_escapeChars hc⟩

end MetaMonkey.Js
