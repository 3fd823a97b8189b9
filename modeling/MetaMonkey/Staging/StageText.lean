import Mathlib.Data.List.TakeWhile
import MetaMonkey.Js.Access
import MetaMonkey.Js.Encoding

/-!
The text of a stage on its way to the evaluator, and through the files it is
saved in.
-/

namespace MetaMonkey.Staging

open Js

/-- What `Stage::exec` has evaluated. `JS_EvaluateScript`, and under a debug
file `JS_CompileScript`, are given `strlen(source)` bytes and widen each. -/
def execSource (code : JSString) : JSString := inflateString (encodeString code)

/-- What `AutoFile::OpenAndWriteAll` leaves in the file, by
`fprintf(fp_, "%s", content)`. -/
def openAndWriteAll (contentStr : JSString) : List UInt8 := encodeString contentStr

/-- `AutoFile::OpenAndReadAll`. It does not return the length, and its callers
take `js_strlen`. -/
def openAndReadAll (file : List UInt8) : Option JSString :=
  (inflateUTF8String file).map fun chars => chars.takeWhile (· ≠ 0)

variable {s : JSString}

theorem encodeString_eq_map (h : ∀ c ∈ s, c.toUInt8 ≠ 0) :
    encodeString s = s.map UInt16.toUInt8 := by
  rw [encodeString, List.takeWhile_eq_self_iff]
  intro b hb
  obtain ⟨c, hc, rfl⟩ := List.mem_map.mp hb
  exact decide_eq_true (h c hc)

theorem toUInt8_ne_zero {c : UInt16} (h : c ≠ 0 ∧ c < 256) : c.toUInt8 ≠ 0 := by
  intro hzero
  have hlow := congrArg UInt8.toNat hzero
  have hlt : c.toNat < 2 ^ 8 := UInt16.lt_iff_toNat_lt.mp h.2
  rw [UInt16.toNat_toUInt8, Nat.mod_eq_of_lt hlt] at hlow
  exact h.1 (UInt16.toNat_inj.mp hlow)

/-- A byte of a C string, as a unit. -/
theorem unit_of_byte {b : UInt8} (hb : b ∈ encodeString s) :
    b.toUInt16 ≠ 0 ∧ b.toUInt16 < 256 := by
  have hne : b ≠ 0 := by simpa using List.mem_takeWhile_imp hb
  constructor
  · intro hzero
    refine hne (UInt8.toNat_inj.mp ?_)
    rw [← UInt8.toNat_toUInt16, hzero]
    rfl
  · rw [UInt16.lt_iff_toNat_lt, UInt8.toNat_toUInt16]
    exact b.toNat_lt

theorem execSource_eq_iff : execSource s = s ↔ ∀ c ∈ s, c ≠ 0 ∧ c < 256 := by
  constructor
  · intro heq c hc
    rw [← heq] at hc
    obtain ⟨b, hb, rfl⟩ := List.mem_map.mp hc
    exact unit_of_byte hb
  · intro h
    rw [execSource, encodeString_eq_map fun c hc => toUInt8_ne_zero (h c hc)]
    exact inflateString_narrow fun c hc => (h c hc).2

theorem length_encodeString_le : (encodeString s).length ≤ s.length :=
  (List.takeWhile_prefix _).length_le.trans (List.length_map _).le

/-- A file is read back as the text that was written when every byte of it is
below 128: any other one has more bytes than units. -/
theorem openAndReadAll_eq_iff :
    openAndReadAll (openAndWriteAll s) = some s ↔ ∀ c ∈ s, c ≠ 0 ∧ c < 128 := by
  have hwide : ∀ c : UInt16, c < 128 → c < 256 := fun c hc => UInt16.lt_trans hc (by decide)
  constructor
  · intro hread
    obtain ⟨chars, hchars, hcut⟩ := Option.map_eq_some_iff.mp hread
    have hlength : s.length ≤ chars.length := by
      rw [← hcut]
      exact (List.takeWhile_prefix _).length_le
    obtain ⟨hascii, rfl⟩ | hlt := inflateUTF8String_length hchars
    · intro c hc
      rw [← hcut] at hc
      obtain ⟨b, hb, rfl⟩ := List.mem_map.mp ((List.takeWhile_prefix _).subset hc)
      refine ⟨(unit_of_byte hb).1, ?_⟩
      rw [UInt16.lt_iff_toNat_lt, UInt8.toNat_toUInt16]
      exact UInt8.lt_iff_toNat_lt.mp (hascii b hb)
    · exact absurd (hlength.trans_lt (hlt.trans_le length_encodeString_le)) (lt_irrefl _)
  · intro h
    have hbytes : openAndWriteAll s = s.map UInt16.toUInt8 :=
      encodeString_eq_map fun c hc => toUInt8_ne_zero ⟨(h c hc).1, hwide c (h c hc).2⟩
    have hascii : ∀ b ∈ s.map UInt16.toUInt8, b < 128 := by
      intro b hb
      obtain ⟨c, hc, rfl⟩ := List.mem_map.mp hb
      have hlt := UInt16.lt_iff_toNat_lt.mp (h c hc).2
      rw [UInt8.lt_iff_toNat_lt, UInt16.toNat_toUInt8]
      exact (Nat.mod_le _ _).trans_lt hlt
    rw [openAndReadAll, hbytes, inflateUTF8String_ascii hascii, Option.map_some,
      inflateString_narrow fun c hc => hwide c (h c hc).2]
    refine congrArg some (List.takeWhile_eq_self_iff.mpr fun c hc => ?_)
    exact decide_eq_true (h c hc).1

/-- The evaluator gets the code of a stage as it is when all its units are those
of Latin-1 and none is zero, and the file of a result is read back as it was
when they are those of ASCII. -/
theorem stageText_preserved_iff (code result : JSString) :
    (execSource code = code ↔ ∀ c ∈ code, c ≠ 0 ∧ c < 256) ∧
      (openAndReadAll (openAndWriteAll result) = some result ↔
        ∀ c ∈ result, c ≠ 0 ∧ c < 128) :=
  ⟨execSource_eq_iff, openAndReadAll_eq_iff⟩

/-- A euro sign is evaluated as the sign of not, and a file with an e acute is not
read. -/
theorem stageText_altered :
    execSource (js "x = \"€\";") = js "x = \"¬\";" ∧ js "x = \"¬\";" ≠ js "x = \"€\";" ∧
      openAndReadAll (openAndWriteAll (js "x = \"é\";")) = none := by
  decide

end MetaMonkey.Staging
