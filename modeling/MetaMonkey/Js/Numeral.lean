import MetaMonkey.Js.Number
import Mathlib.Data.Nat.Digits.Defs
import Mathlib.Data.Rat.Defs
import Mathlib.Algebra.Order.Ring.Unbundled.Rat
import Mathlib.Tactic.Ring
import Mathlib.Tactic.FieldSimp
import Mathlib.Tactic.NormNum

/-!
Decimal literals and their values. What is printed of a number is a literal of
its value.
-/

namespace MetaMonkey.Js

/-- Most significant digit first. -/
def digitsValue (ds : List (Fin 10)) : ℕ := Nat.ofDigits 10 (ds.reverse.map Fin.val)

@[simp] theorem digitsValue_nil : digitsValue [] = 0 := rfl

@[simp] theorem digitsValue_zero : digitsValue [0] = 0 := rfl

theorem digitsValue_append (ds es : List (Fin 10)) :
    digitsValue (ds ++ es) = digitsValue ds * 10 ^ es.length + digitsValue es := by
  rw [digitsValue, List.reverse_append, List.map_append, Nat.ofDigits_append]
  simp only [List.length_map, List.length_reverse, digitsValue]
  ring

@[simp] theorem digitsValue_zeros (k : ℕ) : digitsValue (List.replicate k 0) = 0 := by
  simp [digitsValue]

def Decimal.value (m : Decimal) : ℚ := digitsValue m.digits * 10 ^ (m.point - m.digits.length)

/-- The exponent of a literal, with its sign. -/
inductive ExponentPart : JSString → ℤ → Prop
  | none : ExponentPart [] 0
  | plus (k : ℕ) : ExponentPart (js "e+" ++ natToString k) k
  | minus (k : ℕ) : ExponentPart (js "e-" ++ natToString k) (-k)

/-- A literal with the value it has before it is rounded. One that begins with its point
is not among these, nor one with its point at the end. -/
inductive Numeral : JSString → ℚ → Prop
  | mk (whole fraction : List (Fin 10)) {exponent : JSString} {e : ℤ} (hwhole : whole ≠ [])
      (hzero : whole.head? = some 0 → whole = [0]) (he : ExponentPart exponent e) :
      Numeral (whole.map digitUnit ++
          (if fraction = [] then [] else js "." ++ fraction.map digitUnit) ++ exponent)
        (digitsValue (whole ++ fraction) * 10 ^ (e - fraction.length))

/-- A number has the value of a text if its shortest digits have. -/
def JSNumber.HasValue : JSNumber → ℚ → Prop
  | .zero false, v => v = 0
  | .finite false m, v => v = m.value
  | _, _ => False

/-- Neither the sign nor a name is printed before the digits. -/
def JSNumber.unsigned : JSNumber → Bool
  | .zero neg => !neg
  | .finite neg _ => !neg
  | _ => false

section

variable (m : Decimal)

theorem Decimal.head_digits (ds es : List (Fin 10)) (h : m.digits = ds ++ es) :
    ds.head? ≠ some 0 := by
  intro hzero
  refine m.head_ne 0 ?_ rfl
  cases ds with
  | nil => simp at hzero
  | cons d ds => simpa [h] using hzero

theorem unit_zeros (k : ℕ) : List.replicate k 48 = (List.replicate k 0).map digitUnit := by
  rw [List.map_replicate]
  rfl

theorem ten_zpow_natCast (k : ℕ) : (10 : ℚ) ^ (k : ℤ) = ((10 ^ k : ℕ) : ℚ) := by
  rw [zpow_natCast]
  norm_cast

theorem exponentPart_signed (e : ℤ) :
    ExponentPart ((if e < 0 then js "e-" else js "e+") ++ natToString e.natAbs) e := by
  split_ifs with hneg
  · have hpart := ExponentPart.minus e.natAbs
    rwa [Int.ofNat_natAbs_of_nonpos (by omega), neg_neg] at hpart
  · have hpart := ExponentPart.plus e.natAbs
    rwa [Int.natAbs_of_nonneg (by omega)] at hpart

/-- The digits with the point after the first ones. -/
theorem Decimal.numeral_take (k : ℕ) (hk : 0 < k) (hlen : k < m.digits.length)
    {exponent : JSString} {e : ℤ} (he : ExponentPart exponent e) (hpoint : m.point = k + e) :
    Numeral ((m.digits.map digitUnit).take k ++ js "." ++ (m.digits.map digitUnit).drop k ++
      exponent) m.value := by
  have hlength : (m.digits.drop k).length = m.digits.length - k := List.length_drop
  have hdrop : m.digits.drop k ≠ [] := by
    rw [← List.length_pos_iff]
    omega
  have htake : m.digits.take k ≠ [] := by
    rw [← List.length_pos_iff, List.length_take]
    omega
  have hhead := m.head_digits _ _ (List.take_append_drop k m.digits).symm
  have hnum := Numeral.mk _ (m.digits.drop k) htake (fun h => absurd h hhead) he
  have hexp : e - (m.digits.drop k).length = m.point - m.digits.length := by omega
  rw [List.take_append_drop, hexp, if_neg hdrop] at hnum
  simpa [Decimal.value] using hnum

/-- What is printed of the digits of a number is a literal of their value. -/
theorem Decimal.numeral_toString : Numeral m.toString m.value := by
  have hne := m.nonempty
  have hlen := List.length_pos_iff.mpr hne
  have hhead : m.digits.head? ≠ some 0 := m.head_digits _ [] (by simp)
  have hexponent := exponentPart_signed (m.point - 1)
  simp only [Decimal.toString]
  generalize (if m.point - 1 < 0 then js "e-" else js "e+") ++ natToString (m.point - 1).natAbs =
    exponent at hexponent ⊢
  split_ifs with hint hpoint hfraction hone
  · -- the zeros up to the point
    have hnum := Numeral.mk (m.digits ++ List.replicate (m.point - m.digits.length).toNat 0) []
      (by simp [hne]) (fun h => absurd h ?_) .none
    · have hexp : ((m.point - m.digits.length).toNat : ℤ) = m.point - m.digits.length :=
        Int.toNat_of_nonneg (by omega)
      rw [Decimal.value, ← hexp, ten_zpow_natCast, ← Nat.cast_mul]
      simpa [digitsValue_append, unit_zeros] using hnum
    · rwa [List.head?_append_of_ne_nil _ hne]
  · have hnum := m.numeral_take m.point.toNat (by omega) (by omega) .none (by omega)
    rwa [List.append_nil] at hnum
  · -- the zeros after the point
    have hnum := Numeral.mk [0] (List.replicate (-m.point).toNat 0 ++ m.digits) (by simp)
      (fun _ => rfl) .none
    have hexp : (0 : ℤ) - (List.replicate (-m.point).toNat 0 ++ m.digits).length =
        m.point - m.digits.length := by
      rw [List.length_append, List.length_replicate]
      omega
    rw [hexp, if_neg (by simp [hne])] at hnum
    have hzero : js "0." = [0].map digitUnit ++ js "." := rfl
    rw [hzero]
    rw [digitsValue_append, digitsValue_append] at hnum
    simpa [Decimal.value, unit_zeros] using hnum
  · have hnum := Numeral.mk _ [] hne (fun h => absurd h hhead) hexponent
    simpa [Decimal.value, hone] using hnum
  · exact m.numeral_take 1 (by omega) (by omega) hexponent (by omega)

/-- What is printed of a number without a sign is a literal of its value. -/
theorem JSNumber.numeral_toString {n : JSNumber} (h : n.unsigned = true) :
    ∃ v, Numeral n.toString v ∧ n.HasValue v := by
  cases n with
  | nan => cases h
  | infinity neg => cases h
  | zero neg =>
      cases neg with
      | true => cases h
      | false =>
          have hnum := Numeral.mk [0] [] (by simp) (fun _ => rfl) .none
          have hzero : js "0" = [0].map digitUnit := rfl
          exact ⟨0, by simpa [JSNumber.toString, hzero] using hnum, rfl⟩
  | finite neg m =>
      cases neg with
      | true => cases h
      | false => exact ⟨m.value, by simpa [JSNumber.toString] using m.numeral_toString, rfl⟩

end

end MetaMonkey.Js
