import Mathlib.Data.Int.Basic
import Mathlib.Data.List.Basic

/-!
Strings and numbers of the engine. A string is a list of UTF-16 code units. A
finite number is kept by its shortest decimal digits, the form from which the
engine prints it and to which a printed number is read back.
-/

namespace MetaMonkey.Js

abbrev JSString := List UInt16

/-- A text of the engine's source as a string of the engine. -/
def js (s : String) : JSString := s.toList.map fun c => c.val.toUInt16

/-- Decimal digits, most significant first, of an index or a length. -/
def natToString (n : ℕ) : JSString := js (toString n)

theorem toList_toString (n : ℕ) : (toString n).toList = Nat.toDigits 10 n := Nat.toList_repr

theorem unit_of_isDigit {c : Char} (hc : c.isDigit) :
    48 ≤ c.val.toUInt16 ∧ c.val.toUInt16 ≤ 57 ∧ Char.ofNat c.val.toUInt16.toNat = c := by
  simp only [Char.isDigit, Bool.and_eq_true, decide_eq_true_eq, ge_iff_le,
    UInt32.le_iff_toNat_le] at hc
  obtain ⟨(hlo : 48 ≤ c.val.toNat), (hhi : c.val.toNat ≤ 57)⟩ := hc
  have hnat : c.val.toUInt16.toNat = c.toNat := by
    rw [UInt32.toNat_toUInt16]
    exact Nat.mod_eq_of_lt (by omega)
  refine ⟨?_, ?_, by rw [hnat, Char.ofNat_toNat]⟩
  · rw [UInt16.le_iff_toNat_le, hnat]
    exact hlo
  · rw [UInt16.le_iff_toNat_le, hnat]
    exact hhi

theorem natToString_digits {n : ℕ} {u : UInt16} (hu : u ∈ natToString n) : 48 ≤ u ∧ u ≤ 57 := by
  rw [natToString, js, toList_toString] at hu
  obtain ⟨c, hc, rfl⟩ := List.mem_map.mp hu
  have hdigit := unit_of_isDigit (Nat.isDigit_of_mem_toDigits (by decide) (by decide) hc)
  exact ⟨hdigit.1, hdigit.2.1⟩

/-- The digits tell the number. -/
theorem natToString_injective : Function.Injective natToString := by
  have hback : ∀ n, (natToString n).map (fun u => Char.ofNat u.toNat) = Nat.toDigits 10 n := by
    intro n
    rw [natToString, js, toList_toString, List.map_map]
    refine (List.map_congr_left fun c hc => ?_).trans (List.map_id _)
    exact (unit_of_isDigit (Nat.isDigit_of_mem_toDigits (by decide) (by decide) hc)).2.2
  intro m n heq
  have hdigits : Nat.toDigits 10 m = Nat.toDigits 10 n := by rw [← hback m, heq, hback n]
  have hvalue := congrArg (fun l => Nat.ofDigitChars 10 l 0) hdigits
  simpa only [Nat.ofDigitChars_ten_toDigits] using hvalue

/-- The decimal `0.d₁d₂… · 10 ^ point`. -/
structure Decimal where
  digits : List (Fin 10)
  point : ℤ
  head_ne : ∀ d ∈ digits.head?, d ≠ 0
  last_ne : ∀ d ∈ digits.getLast?, d ≠ 0
  nonempty : digits ≠ []
  deriving DecidableEq

inductive JSNumber where
  | nan
  | infinity (neg : Bool)
  | zero (neg : Bool)
  | finite (neg : Bool) (m : Decimal)
  deriving DecidableEq

theorem ne_zero_of_mem_some {d : Fin 10} (h : d ≠ 0) : ∀ e ∈ some d, e ≠ 0 :=
  fun _ he => Option.mem_some.mp he ▸ h

/-- The number of one digit. -/
def JSNumber.ofDigit (d : ℕ) : JSNumber :=
  if h : Fin.ofNat 10 d = 0 then .zero false
  else .finite false ⟨[Fin.ofNat 10 d], 1, ne_zero_of_mem_some h, ne_zero_of_mem_some h,
    List.cons_ne_nil _ _⟩

/-- The code unit of a digit. -/
def digitUnit (d : Fin 10) : UInt16 := UInt16.ofNat (48 + d.val)

/-- `s`, the digits of the number, and `n`, the place of its point, in the
terms of Number-to-String conversion (ES5 9.8.1). -/
def Decimal.toString (m : Decimal) : JSString :=
  let k : ℤ := m.digits.length
  let n := m.point
  let s := m.digits.map digitUnit
  if k ≤ n ∧ n ≤ 21 then
    s ++ List.replicate (n - k).toNat 48
  else if 0 < n ∧ n ≤ 21 then
    s.take n.toNat ++ js "." ++ s.drop n.toNat
  else if -6 < n ∧ n ≤ 0 then
    js "0." ++ List.replicate (-n).toNat 48 ++ s
  else
    let e := (if n - 1 < 0 then js "e-" else js "e+") ++ natToString (n - 1).natAbs
    if k = 1 then s ++ e else s.take 1 ++ js "." ++ s.drop 1 ++ e

def JSNumber.toString : JSNumber → JSString
  | .nan => js "NaN"
  | .infinity neg => (if neg then js "-" else []) ++ js "Infinity"
  | .zero _ => js "0"
  | .finite neg m => (if neg then js "-" else []) ++ m.toString

end MetaMonkey.Js
