import MetaMonkey.Js.Encoding

/-!
UTF-8 as a browser sends it, and `InflateUTF8String` as its inverse. A string is sent
as its scalar values; a surrogate that has no partner is sent as U+FFFD.
-/

namespace MetaMonkey.Js

/-! ### Scalar values -/

def isHighSurrogate (c : UInt16) : Bool := 0xD800 ≤ c && c ≤ 0xDBFF

def isLowSurrogate (c : UInt16) : Bool := 0xDC00 ≤ c && c ≤ 0xDFFF

/-- The scalar value of a unit that is not part of a pair. -/
def loneScalar (c : UInt16) : Char :=
  if isHighSurrogate c || isLowSurrogate c then Char.ofNat 0xFFFD else Char.ofNat c.toNat

/-- The scalar value of a pair. -/
def pairScalar (c d : UInt16) : Char :=
  Char.ofNat (0x10000 + (c.toNat - 0xD800) * 0x400 + (d.toNat - 0xDC00))

def scalars : JSString → List Char
  | [] => []
  | [c] => [loneScalar c]
  | c :: d :: s =>
      if isHighSurrogate c && isLowSurrogate d then pairScalar c d :: scalars s
      else loneScalar c :: scalars (d :: s)

/-- The text as UTF-8. -/
def utf8 (s : JSString) : List UInt8 := (scalars s).flatMap String.utf8EncodeChar

/-- The units of a character, as `InflateUTF8StringToBuffer` writes them. -/
def unitsOf (v : ℕ) : JSString :=
  if v < 0x10000 then [UInt16.ofNat v]
  else
    [UInt16.ofNat (((v - 0x10000) >>> 10) + 0xD800),
      UInt16.ofNat (((v - 0x10000) &&& 0x3FF) + 0xDC00)]

/-- The text with U+FFFD for every lone surrogate. -/
def toWellFormed (s : JSString) : JSString := (scalars s).flatMap fun c => unitsOf c.toNat

/-! ### Units of scalar values -/

theorem toNat_ofNat_of_isValid {n : ℕ} (h : n.isValidChar) : (Char.ofNat n).toNat = n := by
  rw [Char.ofNat, dif_pos h]
  rfl

theorem unitsOf_loneScalar (c : UInt16) (h : isHighSurrogate c = false)
    (h' : isLowSurrogate c = false) : unitsOf (loneScalar c).toNat = [c] := by
  have hlt : c.toNat < 0x10000 := c.toNat_lt
  have hvalid : c.toNat.isValidChar := by
    simp only [isHighSurrogate, isLowSurrogate, Bool.and_eq_false_iff, decide_eq_false_iff_not,
      UInt16.le_iff_toNat_le] at h h'
    change ¬ 0xD800 ≤ c.toNat ∨ ¬ c.toNat ≤ 0xDBFF at h
    change ¬ 0xDC00 ≤ c.toNat ∨ ¬ c.toNat ≤ 0xDFFF at h'
    change c.toNat < 0xD800 ∨ 0xDFFF < c.toNat ∧ c.toNat < 0x110000
    omega
  rw [loneScalar, h, h', Bool.or_false, if_neg Bool.false_ne_true, toNat_ofNat_of_isValid hvalid,
    unitsOf, if_pos hlt, UInt16.ofNat_toNat]

theorem length_unitsOf_loneScalar (c : UInt16) : (unitsOf (loneScalar c).toNat).length = 1 := by
  by_cases h : (isHighSurrogate c || isLowSurrogate c) = true
  · rw [loneScalar, if_pos h]
    rfl
  · rw [Bool.not_eq_true, Bool.or_eq_false_iff] at h
    rw [unitsOf_loneScalar c h.1 h.2]
    rfl

theorem unitsOf_pairScalar {c d : UInt16} (hc : isHighSurrogate c = true)
    (hd : isLowSurrogate d = true) : unitsOf (pairScalar c d).toNat = [c, d] := by
  simp only [isHighSurrogate, isLowSurrogate, Bool.and_eq_true, decide_eq_true_eq,
    UInt16.le_iff_toNat_le] at hc hd
  obtain ⟨(hc : 0xD800 ≤ c.toNat), (hc' : c.toNat ≤ 0xDBFF)⟩ := hc
  obtain ⟨(hd : 0xDC00 ≤ d.toNat), (hd' : d.toNat ≤ 0xDFFF)⟩ := hd
  have hvalid : (0x10000 + (c.toNat - 0xD800) * 0x400 + (d.toNat - 0xDC00)).isValidChar :=
    Or.inr ⟨by omega, by omega⟩
  have hsub : 0x10000 + (c.toNat - 0xD800) * 0x400 + (d.toNat - 0xDC00) - 0x10000 =
      (c.toNat - 0xD800) * 2 ^ 10 + (d.toNat - 0xDC00) := by omega
  have hhigh : ((c.toNat - 0xD800) * 2 ^ 10 + (d.toNat - 0xDC00)) >>> 10 + 0xD800 = c.toNat := by
    rw [Nat.shiftRight_eq_div_pow]
    omega
  have hlow : (((c.toNat - 0xD800) * 2 ^ 10 + (d.toNat - 0xDC00)) &&& 0x3FF) + 0xDC00 =
      d.toNat := by
    have hmod := Nat.and_two_pow_sub_one_eq_mod
      ((c.toNat - 0xD800) * 2 ^ 10 + (d.toNat - 0xDC00)) 10
    rw [show (0x3FF : ℕ) = 2 ^ 10 - 1 from rfl, hmod]
    omega
  rw [pairScalar, toNat_ofNat_of_isValid hvalid, unitsOf, if_neg (by omega), hsub, hhigh, hlow,
    UInt16.ofNat_toNat, UInt16.ofNat_toNat]

theorem length_toWellFormed (s : JSString) : (toWellFormed s).length = s.length := by
  rw [toWellFormed]
  induction s using scalars.induct with
  | case1 => rfl
  | case2 c => simp [scalars, length_unitsOf_loneScalar]
  | case3 c d s hpair ih =>
      rw [scalars, if_pos hpair, List.flatMap_cons, List.length_append, ih]
      rw [Bool.and_eq_true] at hpair
      rw [unitsOf_pairScalar hpair.1 hpair.2]
      simp
      omega
  | case4 c d s hpair ih =>
      rw [scalars, if_neg hpair, List.flatMap_cons, List.length_append, ih,
        length_unitsOf_loneScalar]
      simp
      omega

/-- A text is changed only by a U+FFFD in it. -/
theorem toWellFormed_eq_self {s : JSString} (h : 0xFFFD ∉ toWellFormed s) :
    toWellFormed s = s := by
  have hlone : ∀ c : UInt16, 0xFFFD ∉ unitsOf (loneScalar c).toNat →
      unitsOf (loneScalar c).toNat = [c] := by
    intro c hc
    by_cases hsurrogate : (isHighSurrogate c || isLowSurrogate c) = true
    · rw [loneScalar, if_pos hsurrogate] at hc
      exact absurd (List.mem_singleton_self (0xFFFD : UInt16)) hc
    · rw [Bool.not_eq_true, Bool.or_eq_false_iff] at hsurrogate
      exact unitsOf_loneScalar c hsurrogate.1 hsurrogate.2
  rw [toWellFormed] at h ⊢
  induction s using scalars.induct with
  | case1 => rfl
  | case2 c =>
      rw [scalars, List.flatMap_singleton] at h ⊢
      exact hlone c h
  | case3 c d s hpair ih =>
      rw [scalars, if_pos hpair, List.flatMap_cons, List.mem_append, not_or] at h
      rw [scalars, if_pos hpair, List.flatMap_cons, ih h.2]
      rw [Bool.and_eq_true] at hpair
      rw [unitsOf_pairScalar hpair.1 hpair.2]
      rfl
  | case4 c d s hpair ih =>
      rw [scalars, if_neg hpair, List.flatMap_cons, List.mem_append, not_or] at h
      rw [scalars, if_neg hpair, List.flatMap_cons, ih h.2, hlone c h.1]
      rfl

/-! ### Reading what was sent -/

theorem toNat_byte {n : ℕ} (h : n < 256) : (UInt8.ofNat n).toNat = n := by
  rw [UInt8.toNat_ofNat']
  exact Nat.mod_eq_of_lt h

/-- The bytes after the first are recognised. -/
theorem tail_byte : ∀ b : Fin 64, UInt8.ofNat (b.val + 0x80) &&& 0xC0 = 0x80 := by decide

/-- The bytes that begin two, three and four. -/
theorem sequenceLength_two : ∀ a : Fin 32, sequenceLength (UInt8.ofNat (a.val + 0xC0)) = 2 := by
  decide

theorem sequenceLength_three :
    ∀ a : Fin 16, sequenceLength (UInt8.ofNat (a.val + 0xE0)) = 3 := by decide

theorem sequenceLength_four : ∀ a : Fin 8, sequenceLength (UInt8.ofNat (a.val + 0xF0)) = 4 := by
  decide

theorem ucs4_step (u : ℕ) {b : ℕ} (h : b < 64) :
    (u <<< 6) ||| ((UInt8.ofNat (b + 0x80)).toNat &&& 0x3F) = u * 64 + b := by
  have hlow : (UInt8.ofNat (b + 0x80)).toNat &&& 0x3F = b := by
    rw [toNat_byte (by omega), show (0x3F : ℕ) = 2 ^ 6 - 1 from rfl,
      Nat.and_two_pow_sub_one_eq_mod]
    omega
  rw [hlow, ← Nat.shiftLeft_add_eq_or_of_lt (i := 6) h, Nat.shiftLeft_eq]

/-- The lead byte has the high bits of the character. -/
theorem ucs4_lead {a n : ℕ} {k : ℕ} (hk : k = 7 - n) (ha : a < 2 ^ k) {lead : ℕ}
    (hlead : lead % 2 ^ k = 0) (hlt : a + lead < 256) :
    (UInt8.ofNat (a + lead)).toNat &&& ((1 <<< (7 - n)) - 1) = a := by
  rw [toNat_byte hlt, ← hk, Nat.one_shiftLeft, Nat.and_two_pow_sub_one_eq_mod, Nat.add_mod, hlead,
    Nat.add_zero, Nat.mod_mod, Nat.mod_eq_of_lt ha]

/-- A well-formed sequence is read as its character. -/
theorem inflateUTF8Char_sequence {v : UInt8} {tail : List UInt8} (rest : List UInt8) {ucs4 : ℕ}
    (hv : 128 ≤ v) (hn : sequenceLength v = tail.length + 1)
    (hlength : 1 ≤ tail.length ∧ tail.length ≤ 3) (htail : ∀ b ∈ tail, b &&& 0xC0 = 0x80)
    (hucs4 : utf8ToOneUcs4Char v tail = ucs4) (hlt : ucs4 < 0x110000) :
    inflateUTF8Char v (tail ++ rest) = some (unitsOf ucs4, rest) := by
  have hhigh : ¬ v &&& 0x80 = 0 := by
    rw [and_80_eq_zero_iff]
    exact UInt8.not_lt.mpr hv
  have htake : (tail ++ rest).take (sequenceLength v - 1) = tail := by
    rw [hn, Nat.add_sub_cancel, List.take_left]
  have hdrop : (tail ++ rest).drop (sequenceLength v - 1) = rest := by
    rw [hn, Nat.add_sub_cancel, List.drop_left]
  have hall : (tail.any fun b => b &&& 0xC0 ≠ 0x80) = false := by
    rw [List.any_eq_false]
    intro b hb
    simp [htail b hb]
  rw [inflateUTF8Char, if_neg hhigh]
  simp only [htake, hdrop, hucs4, hall]
  rw [if_neg (by rw [hn, List.length_append]; omega), if_neg (by omega),
    if_neg Bool.false_ne_true, unitsOf]
  by_cases hsmall : ucs4 < 0x10000
  · rw [if_pos hsmall, if_pos hsmall]
  · rw [if_neg hsmall, if_neg hsmall, if_neg (by omega)]

/-- A character that is not below the least one of its length, and no surrogate. -/
theorem utf8ToOneUcs4Char_eq {v : UInt8} {tail : List UInt8} {ucs4 : ℕ}
    (hfold : tail.foldl (fun u b => (u <<< 6) ||| (b.toNat &&& 0x3F))
      (v.toNat &&& ((1 <<< (7 - (tail.length + 1))) - 1)) = ucs4)
    (hmin : minucs4 (tail.length + 1) ≤ ucs4) (hvalid : ucs4.isValidChar) :
    utf8ToOneUcs4Char v tail = ucs4 := by
  have hsurrogate : ucs4 < 0xD800 ∨ 0xDFFF < ucs4 ∧ ucs4 < 0x110000 := hvalid
  rw [utf8ToOneUcs4Char]
  simp only [hfold]
  rw [if_neg (by omega)]

section

variable {v : ℕ} (rest : List UInt8)

theorem tail_byte_mod (n : ℕ) : UInt8.ofNat (n % 64 + 0x80) &&& 0xC0 = 0x80 :=
  tail_byte ⟨n % 64, Nat.mod_lt _ (by decide)⟩

theorem lead_byte_le {n : ℕ} (h : 128 ≤ n) (h' : n < 256) : 128 ≤ UInt8.ofNat n := by
  rw [UInt8.le_iff_toNat_le, toNat_byte h']
  exact h

theorem inflateUTF8Char_one (h : v ≤ 0x7f) :
    inflateUTF8Char (UInt8.ofNat v) ([] ++ rest) = some (unitsOf v, rest) := by
  have hbyte : UInt8.ofNat v < 128 := by
    rw [UInt8.lt_iff_toNat_lt, toNat_byte (by omega)]
    change v < 128
    omega
  rw [inflateUTF8Char, if_pos ((and_80_eq_zero_iff _).mpr hbyte), unitsOf,
    if_pos (by omega), List.nil_append]
  refine congrArg (fun u => some ([u], rest)) (UInt16.toNat_inj.mp ?_)
  rw [UInt8.toNat_toUInt16, toNat_byte (by omega), UInt16.toNat_ofNat']
  exact (Nat.mod_eq_of_lt (by omega)).symm

theorem inflateUTF8Char_two (h : 0x7f < v) (h' : v ≤ 0x7ff) :
    inflateUTF8Char (UInt8.ofNat (v / 64 % 0x20 + 0xc0)) ([UInt8.ofNat (v % 0x40 + 0x80)] ++ rest) =
      some (unitsOf v, rest) := by
  refine inflateUTF8Char_sequence rest (lead_byte_le (by omega) (by omega))
    (sequenceLength_two ⟨v / 64 % 0x20, by omega⟩) ⟨by simp, by simp⟩ ?_
    (utf8ToOneUcs4Char_eq ?_ (Nat.succ_le_of_lt h) (Or.inl (by omega))) (by omega)
  · rw [List.forall_mem_singleton]
    exact tail_byte_mod v
  · rw [List.foldl_cons, List.foldl_nil, ucs4_step _ (by omega), List.length_singleton,
      ucs4_lead (k := 5) rfl (by omega) rfl (by omega)]
    omega

theorem inflateUTF8Char_three (h : 0x7ff < v) (h' : v ≤ 0xffff) (hvalid : v.isValidChar) :
    inflateUTF8Char (UInt8.ofNat (v / 4096 % 0x10 + 0xe0))
        ([UInt8.ofNat (v / 64 % 0x40 + 0x80), UInt8.ofNat (v % 0x40 + 0x80)] ++ rest) =
      some (unitsOf v, rest) := by
  refine inflateUTF8Char_sequence rest (lead_byte_le (by omega) (by omega))
    (sequenceLength_three ⟨v / 4096 % 0x10, by omega⟩) ⟨by simp, by simp⟩ ?_
    (utf8ToOneUcs4Char_eq ?_ (Nat.succ_le_of_lt h) hvalid) (by omega)
  · simp only [List.forall_mem_cons, List.not_mem_nil, false_imp_iff, implies_true, and_true]
    exact ⟨tail_byte_mod _, tail_byte_mod _⟩
  · rw [List.foldl_cons, List.foldl_cons, List.foldl_nil, ucs4_step _ (by omega),
      ucs4_step _ (by omega)]
    rw [show [UInt8.ofNat (v / 64 % 0x40 + 0x80), UInt8.ofNat (v % 0x40 + 0x80)].length + 1 = 3
      from rfl, ucs4_lead (k := 4) rfl (by omega) rfl (by omega)]
    omega

theorem inflateUTF8Char_four (h : 0xffff < v) (h' : v < 0x110000) :
    inflateUTF8Char (UInt8.ofNat (v / 262144 % 0x08 + 0xf0))
        ([UInt8.ofNat (v / 4096 % 0x40 + 0x80), UInt8.ofNat (v / 64 % 0x40 + 0x80),
          UInt8.ofNat (v % 0x40 + 0x80)] ++ rest) =
      some (unitsOf v, rest) := by
  refine inflateUTF8Char_sequence rest (lead_byte_le (by omega) (by omega))
    (sequenceLength_four ⟨v / 262144 % 0x08, by omega⟩) ⟨by simp, by simp⟩ ?_
    (utf8ToOneUcs4Char_eq ?_ (Nat.succ_le_of_lt h) (Or.inr ⟨by omega, h'⟩)) h'
  · simp only [List.forall_mem_cons, List.not_mem_nil, false_imp_iff, implies_true, and_true]
    exact ⟨tail_byte_mod _, tail_byte_mod _, tail_byte_mod _⟩
  · rw [List.foldl_cons, List.foldl_cons, List.foldl_cons, List.foldl_nil,
      ucs4_step _ (by omega), ucs4_step _ (by omega), ucs4_step _ (by omega)]
    rw [show [UInt8.ofNat (v / 4096 % 0x40 + 0x80), UInt8.ofNat (v / 64 % 0x40 + 0x80),
      UInt8.ofNat (v % 0x40 + 0x80)].length + 1 = 4 from rfl,
      ucs4_lead (k := 3) rfl (by omega) rfl (by omega)]
    omega

end

/-- A character is read as what was sent. -/
theorem inflateUTF8Char_encodeChar (c : Char) (rest : List UInt8) :
    ∃ b tail, String.utf8EncodeChar c = b :: tail ∧
      inflateUTF8Char b (tail ++ rest) = some (unitsOf c.toNat, rest) := by
  have hvalid : c.val.toNat.isValidChar := c.valid
  have hlt : c.val.toNat < 0x110000 := by
    obtain h | h := hvalid
    · exact h.trans (by decide)
    · exact h.2
  simp only [String.utf8EncodeChar]
  split_ifs with h₁ h₂ h₃
  · exact ⟨_, _, rfl, inflateUTF8Char_one rest h₁⟩
  · exact ⟨_, _, rfl, inflateUTF8Char_two rest (Nat.lt_of_not_le h₁) h₂⟩
  · exact ⟨_, _, rfl, inflateUTF8Char_three rest (Nat.lt_of_not_le h₂) h₃ hvalid⟩
  · exact ⟨_, _, rfl, inflateUTF8Char_four rest (Nat.lt_of_not_le h₃) hlt⟩

theorem inflateUTF8Chars_encode (cs : List Char) {fuel : ℕ}
    (hfuel : (cs.flatMap String.utf8EncodeChar).length ≤ fuel) :
    inflateUTF8Chars fuel (cs.flatMap String.utf8EncodeChar) =
      some (cs.flatMap fun c => unitsOf c.toNat) := by
  induction cs generalizing fuel with
  | nil => cases fuel <;> rfl
  | cons c cs ih =>
      obtain ⟨b, tail, hencode, hchar⟩ :=
        inflateUTF8Char_encodeChar c (cs.flatMap String.utf8EncodeChar)
      rw [List.flatMap_cons, hencode] at hfuel ⊢
      rw [List.cons_append, List.length_cons, List.length_append] at hfuel
      obtain ⟨n, rfl⟩ : ∃ n, fuel = n + 1 := ⟨fuel - 1, by omega⟩
      have hrest := @ih n (by omega)
      rw [List.cons_append, inflateUTF8Chars, hchar, Option.bind_eq_bind, Option.bind_some]
      simp only [hrest]
      rfl

/-- What is sent is read back, but for lone surrogates. -/
theorem inflateUTF8String_utf8 (s : JSString) :
    inflateUTF8String (utf8 s) = some (toWellFormed s) :=
  inflateUTF8Chars_encode _ le_rfl

/-! ### ASCII -/

theorem scalars_ascii {s : JSString} (h : ∀ c ∈ s, c < 128) :
    scalars s = s.map fun c => Char.ofNat c.toNat := by
  have hlone : ∀ c : UInt16, c < 128 → isHighSurrogate c = false ∧ isLowSurrogate c = false := by
    intro c hc
    have hlt : c.toNat < 128 := UInt16.lt_iff_toNat_lt.mp hc
    simp only [isHighSurrogate, isLowSurrogate, Bool.and_eq_false_iff, decide_eq_false_iff_not,
      UInt16.le_iff_toNat_le]
    change (¬ 0xD800 ≤ c.toNat ∨ _) ∧ (¬ 0xDC00 ≤ c.toNat ∨ _)
    omega
  have hscalar : ∀ c : UInt16, c < 128 → loneScalar c = Char.ofNat c.toNat := by
    intro c hc
    rw [loneScalar, (hlone c hc).1, (hlone c hc).2, Bool.or_false, if_neg Bool.false_ne_true]
  induction s using scalars.induct with
  | case1 => rfl
  | case2 c => rw [scalars, hscalar c (h c (by simp)), List.map_singleton]
  | case3 c d s hpair ih =>
      rw [(hlone c (h c (by simp))).1] at hpair
      exact absurd hpair Bool.false_ne_true
  | case4 c d s hpair ih =>
      rw [scalars, if_neg hpair, hscalar c (h c (by simp)),
        ih fun e he => h e (List.mem_cons_of_mem _ he)]
      rfl

theorem utf8_ascii {s : JSString} (h : ∀ c ∈ s, c < 128) : utf8 s = s.map UInt16.toUInt8 := by
  rw [utf8, scalars_ascii h, List.flatMap_map, ← List.flatMap_singleton' (s.map UInt16.toUInt8),
    List.flatMap_map]
  refine List.flatMap_congr fun c hc => ?_
  have hlt : c.toNat < 128 := UInt16.lt_iff_toNat_lt.mp (h c hc)
  have hvalue : (Char.ofNat c.toNat).val.toNat = c.toNat :=
    toNat_ofNat_of_isValid (Or.inl (by omega))
  simp only [String.utf8EncodeChar, hvalue]
  rw [if_pos (by omega)]
  refine congrArg (fun b => [b]) (UInt8.toNat_inj.mp ?_)
  rw [toNat_byte (by omega), UInt16.toNat_toUInt8]
  exact (Nat.mod_eq_of_lt (by omega)).symm

/-- A text that is not ASCII has more bytes than units. -/
theorem ascii_or_longer (s : JSString) :
    (∀ c ∈ s, c < 128) ∨ s.length < (utf8 s).length := by
  obtain ⟨hascii, hunits⟩ | hlt := inflateUTF8String_length (inflateUTF8String_utf8 s)
  · refine Or.inl ?_
    have hsmall : ∀ c ∈ toWellFormed s, c < 128 := by
      rw [hunits]
      intro c hc
      obtain ⟨b, hb, rfl⟩ := List.mem_map.mp hc
      rw [UInt16.lt_iff_toNat_lt, UInt8.toNat_toUInt16]
      exact UInt8.lt_iff_toNat_lt.mp (hascii b hb)
    rwa [toWellFormed_eq_self fun hmem => absurd (hsmall _ hmem) (by decide)] at hsmall
  · rw [length_toWellFormed] at hlt
    exact Or.inr hlt

/-- A text has as many bytes as units only when it is ASCII. -/
theorem length_utf8_eq_iff {s : JSString} :
    ((utf8 s).length = s.length ∧ toWellFormed s = s) ↔ ∀ c ∈ s, c < 128 := by
  constructor
  · rintro ⟨hlength, -⟩
    exact (ascii_or_longer s).resolve_right fun hlt => absurd hlength (ne_of_gt hlt)
  · intro h
    have hbytes := utf8_ascii h
    have hascii : ∀ b ∈ utf8 s, b < 128 := by
      rw [hbytes]
      intro b hb
      obtain ⟨c, hc, rfl⟩ := List.mem_map.mp hb
      have hlt : c.toNat < 128 := UInt16.lt_iff_toNat_lt.mp (h c hc)
      rw [UInt8.lt_iff_toNat_lt, UInt16.toNat_toUInt8]
      exact (Nat.mod_le _ _).trans_lt hlt
    refine ⟨by rw [hbytes, List.length_map], ?_⟩
    have hread := (inflateUTF8String_utf8 s).symm.trans (inflateUTF8String_ascii hascii)
    rw [Option.some.inj hread, hbytes]
    exact inflateString_narrow fun c hc => UInt16.lt_trans (h c hc) (by decide)

/-! ### Texts put together -/

theorem scalars_cons {c : UInt16} (hc : isHighSurrogate c = false) (s : JSString) :
    scalars (c :: s) = loneScalar c :: scalars s := by
  cases s with
  | nil => rfl
  | cons d s => rw [scalars, hc, Bool.false_and, if_neg Bool.false_ne_true]

theorem ascii_not_surrogate {c : UInt16} (hc : c < 128) :
    isHighSurrogate c = false ∧ isLowSurrogate c = false := by
  have hlt : c.toNat < 128 := UInt16.lt_iff_toNat_lt.mp hc
  simp only [isHighSurrogate, isLowSurrogate, Bool.and_eq_false_iff, decide_eq_false_iff_not,
    UInt16.le_iff_toNat_le]
  change (¬ 0xD800 ≤ c.toNat ∨ _) ∧ (¬ 0xDC00 ≤ c.toNat ∨ _)
  omega

theorem scalars_ascii_append {a : JSString} (ha : ∀ c ∈ a, c < 128) (s : JSString) :
    scalars (a ++ s) = scalars a ++ scalars s := by
  induction a with
  | nil => rfl
  | cons c a ih =>
      have hc := (ascii_not_surrogate (ha c List.mem_cons_self)).1
      rw [List.cons_append, scalars_cons hc, scalars_cons hc,
        ih fun d hd => ha d (List.mem_cons_of_mem _ hd), List.cons_append]

theorem scalars_append_ascii (s : JSString) {a : JSString} (ha : ∀ c ∈ a, c < 128) :
    scalars (s ++ a) = scalars s ++ scalars a := by
  induction s using scalars.induct with
  | case1 => rfl
  | case2 c =>
      cases a with
      | nil => rfl
      | cons d a =>
          have hd := (ascii_not_surrogate (ha d List.mem_cons_self)).2
          show scalars (c :: d :: a) = loneScalar c :: scalars (d :: a)
          rw [scalars, hd, Bool.and_false, if_neg Bool.false_ne_true]
  | case3 c d s hpair ih =>
      rw [List.cons_append, List.cons_append, scalars, if_pos hpair, ih, scalars, if_pos hpair,
        List.cons_append]
  | case4 c d s hpair ih =>
      rw [List.cons_append, List.cons_append, scalars, if_neg hpair, ← List.cons_append, ih,
        scalars, if_neg hpair, List.cons_append]

/-- A text between two of ASCII is sent as it is. -/
theorem utf8_between {a b : JSString} (ha : ∀ c ∈ a, c < 128) (s : JSString)
    (hb : ∀ c ∈ b, c < 128) :
    utf8 (a ++ s ++ b) = a.map UInt16.toUInt8 ++ utf8 s ++ b.map UInt16.toUInt8 := by
  rw [← utf8_ascii ha, ← utf8_ascii hb]
  simp only [utf8, scalars_append_ascii _ hb, scalars_ascii_append ha, List.flatMap_append]

theorem toWellFormed_ascii {s : JSString} (h : ∀ c ∈ s, c < 128) : toWellFormed s = s :=
  (length_utf8_eq_iff.mpr h).2

theorem toWellFormed_between {a b : JSString} (ha : ∀ c ∈ a, c < 128) (s : JSString)
    (hb : ∀ c ∈ b, c < 128) : toWellFormed (a ++ s ++ b) = a ++ toWellFormed s ++ b := by
  conv_rhs => rw [← toWellFormed_ascii ha, ← toWellFormed_ascii hb]
  simp only [toWellFormed, scalars_append_ascii _ hb, scalars_ascii_append ha,
    List.flatMap_append]

/-! ### Zeros -/

theorem byte_ne_zero {n : ℕ} (h : 0 < n) (h' : n < 256) : UInt8.ofNat n ≠ 0 := by
  intro heq
  have hn := toNat_byte h'
  rw [heq] at hn
  exact absurd hn.symm h.ne'

/-- All bytes of a longer sequence have their first bit set. -/
theorem zero_mem_encodeChar {c : Char} (h : 0 ∈ String.utf8EncodeChar c) : c.toNat = 0 := by
  have hlt : c.val.toNat < 0x110000 := by
    obtain h | h := c.valid
    · exact h.trans (by decide)
    · exact h.2
  have hbyte : ∀ {n m : ℕ}, 0 < m → n + m < 256 → 0 ≠ UInt8.ofNat (n + m) :=
    fun hm hlt => (byte_ne_zero (by omega) hlt).symm
  simp only [String.utf8EncodeChar] at h
  split_ifs at h with h₁ h₂ h₃
  · by_contra hne
    have hle : c.toNat ≤ 0x7f := h₁
    exact byte_ne_zero (Nat.pos_of_ne_zero hne) (by omega) (List.mem_singleton.mp h).symm
  all_goals
    simp only [List.mem_cons, List.not_mem_nil, or_false] at h
    exact absurd h (by
      repeat refine not_or.mpr ⟨hbyte (by decide) (by omega), ?_⟩
      exact hbyte (by decide) (by omega))

/-- A C string that holds the bytes ends where the text has a zero. -/
theorem zero_mem_utf8 {s : JSString} (h : 0 ∈ utf8 s) : 0 ∈ toWellFormed s := by
  obtain ⟨c, hc, hzero⟩ := List.mem_flatMap.mp h
  refine List.mem_flatMap.mpr ⟨c, hc, ?_⟩
  rw [zero_mem_encodeChar hzero]
  exact List.mem_singleton_self _

end MetaMonkey.Js
