import Mathlib.Data.List.Induction
import Mathlib.Tactic.IntervalCases
import MetaMonkey.Js.JsonText
import MetaMonkey.Js.Numeral

/-!
`JSON.stringify` on the data of a program, and what the parser makes of its text.
-/

namespace MetaMonkey.Js

open ObjectGraph

/-- What `Str` is given of a value. A function counts as undefined, and a wrapper object as
the primitive in it. -/
inductive Json where
  | undefined
  | null
  | boolean (b : Bool)
  | number (n : JSNumber)
  | string (s : JSString)
  | array (elements : List Json)
  | object (properties : List (String × Json))

namespace Json

/-- Induction over data with the hypothesis for every element and property. -/
@[elab_as_elim]
theorem induct {P : Json → Prop} (undefined : P .undefined) (null : P .null)
    (boolean : ∀ b, P (.boolean b)) (number : ∀ n, P (.number n)) (string : ∀ s, P (.string s))
    (array : ∀ es, (∀ e ∈ es, P e) → P (.array es))
    (object : ∀ ps, (∀ p ∈ ps, P p.2) → P (.object ps)) (j : Json) : P j :=
  Json.rec (motive_1 := P) (motive_2 := fun es => ∀ e ∈ es, P e)
    (motive_3 := fun ps => ∀ p ∈ ps, P p.2) (motive_4 := fun p => P p.2)
    undefined null boolean number string array object (by simp)
    (fun _ _ he hes => List.forall_mem_cons.mpr ⟨he, hes⟩) (by simp)
    (fun _ _ hp hps => List.forall_mem_cons.mpr ⟨hp, hps⟩) (fun _ _ hj => hj) j

/-- `IsFilteredValue` -/
def isFiltered : Json → Bool
  | .undefined => true
  | _ => false

mutual

/-- `Str`, without a gap and a replacer. It is not called with a filtered value. -/
def str : Json → JSString
  | .undefined => js "undefined"
  | .null => js "null"
  | .boolean b => if b then js "true" else js "false"
  | .number n => (Prim.number n).toJson
  | .string s => JSONParser.quote s
  | .array elements => JSONParser.arrayText (ja elements)
  | .object properties => JSONParser.objectText (jo properties)

/-- The elements in `JA`. -/
def ja : List Json → List JSString
  | [] => []
  | e :: es => (if e.isFiltered then js "null" else e.str) :: ja es

/-- The members in `JO`. -/
def jo : List (String × Json) → List JSONParser.Member
  | [] => []
  | (k, e) :: ps => if e.isFiltered then jo ps else ⟨[], js k, e.str⟩ :: jo ps

end

mutual

/-- What is left of data in JSON: no number but the finite ones, and one zero. -/
def kept : Json → Json
  | .number .nan => .null
  | .number (.infinity _) => .null
  | .number (.zero _) => .number (.zero false)
  | .array elements => .array (keptElements elements)
  | .object properties => .object (keptProperties properties)
  | .undefined => .undefined
  | .null => .null
  | .boolean b => .boolean b
  | .number (.finite neg m) => .number (.finite neg m)
  | .string s => .string s

def keptElements : List Json → List Json
  | [] => []
  | e :: es => (if e.isFiltered then .null else e.kept) :: keptElements es

def keptProperties : List (String × Json) → List (String × Json)
  | [] => []
  | (k, e) :: ps => if e.isFiltered then keptProperties ps else (k, e.kept) :: keptProperties ps

end

mutual

/-- A value of the engine is this data. -/
def Stored (h : JSHeap) : Json → Value → Prop
  | .undefined, v => v = Js.undefined
  | .null, v => v = Js.null
  | .boolean b, v => v = Js.boolean b
  | .number n, v => v = Js.number n
  | .string s, v => v = Js.string s
  | .array es, v => ∃ a vs, v = .ref a ∧ h.cell a = some (.array vs) ∧ StoredElements h es vs
  | .object ps, v =>
      ∃ a fields distinct, v = .ref a ∧ h.cell a = some (.record .plain fields distinct) ∧
        StoredProperties h ps fields

def StoredElements (h : JSHeap) : List Json → List Value → Prop
  | [], vs => vs = []
  | e :: es, vs => ∃ v rest, vs = v :: rest ∧ Stored h e v ∧ StoredElements h es rest

def StoredProperties (h : JSHeap) : List (String × Json) → List (String × Value) → Prop
  | [], fields => fields = []
  | (k, e) :: ps, fields =>
      ∃ v rest, fields = (k, v) :: rest ∧ Stored h e v ∧ StoredProperties h ps rest

end

/-- The number without its sign. -/
def magnitude : JSNumber → JSNumber
  | .nan => .nan
  | .infinity _ => .infinity false
  | .zero _ => .zero false
  | .finite _ m => .finite false m

mutual

/-- The engine reads the digits of each of the numbers as the number, and the name of each
of the properties as the name; no object has two of the same. -/
def Readable (engine : JSONParser.Engine) : Json → Prop
  | .number n => engine.toDouble (magnitude n).toString = magnitude n
  | .array es => ReadableElements engine es
  | .object ps => (ps.map Prod.fst).Nodup ∧ ReadableProperties engine ps
  | .undefined | .null | .boolean _ | .string _ => True

def ReadableElements (engine : JSONParser.Engine) : List Json → Prop
  | [] => True
  | e :: es => Readable engine e ∧ ReadableElements engine es

def ReadableProperties (engine : JSONParser.Engine) : List (String × Json) → Prop
  | [] => True
  | (k, e) :: ps =>
      engine.atomToId (js k) = k ∧ Readable engine e ∧ ReadableProperties engine ps

end

/-! ### Data in a heap -/

section

variable {h h' : JSHeap}

theorem StoredElements.extends {es : List Json}
    (hes : ∀ e ∈ es, ∀ v, Stored h e v → Stored h' e v) :
    ∀ {vs : List Value}, StoredElements h es vs → StoredElements h' es vs := by
  induction es with
  | nil => exact id
  | cons e es ih =>
      intro vs hvs
      obtain ⟨v, rest, rfl, hv, hrest⟩ := hvs
      exact ⟨v, rest, rfl, hes e List.mem_cons_self v hv,
        ih (fun e he => hes e (List.mem_cons_of_mem _ he)) hrest⟩

theorem StoredProperties.extends {ps : List (String × Json)}
    (hps : ∀ p ∈ ps, ∀ v, Stored h p.2 v → Stored h' p.2 v) :
    ∀ {fields : List (String × Value)}, StoredProperties h ps fields →
      StoredProperties h' ps fields := by
  induction ps with
  | nil => exact id
  | cons p ps ih =>
      intro fields hfields
      obtain ⟨v, rest, rfl, hv, hrest⟩ := hfields
      exact ⟨v, rest, rfl, hps p List.mem_cons_self v hv,
        ih (fun p hp => hps p (List.mem_cons_of_mem _ hp)) hrest⟩

/-- Data stays what it is when the heap grows. -/
theorem Stored.extends (hh : h.Extends h') {j : Json} :
    ∀ {v : Value}, Stored h j v → Stored h' j v := by
  induction j using Json.induct with
  | undefined | null | boolean b | number n | string s => exact id
  | array es ih =>
      intro v hv
      obtain ⟨a, vs, rfl, hcell, hvs⟩ := hv
      exact ⟨a, vs, rfl, hh _ _ hcell, StoredElements.extends (fun e he v hv => ih e he hv) hvs⟩
  | object ps ih =>
      intro v hv
      obtain ⟨a, fields, distinct, rfl, hcell, hfields⟩ := hv
      exact ⟨a, fields, distinct, rfl, hh _ _ hcell,
        StoredProperties.extends (fun p hp v hv => ih p hp hv) hfields⟩

theorem StoredElements.unique {es es' : List Json}
    (hes : ∀ e ∈ es, ∀ e' v, Stored h e v → Stored h e' v → e = e') {vs : List Value}
    (hvs : StoredElements h es vs) (hvs' : StoredElements h es' vs) : es = es' := by
  induction es generalizing es' vs with
  | nil =>
      cases es' with
      | nil => rfl
      | cons e' es' =>
          obtain ⟨v, rest, rfl, -, -⟩ := hvs'
          cases hvs
  | cons e es ih =>
      obtain ⟨v, rest, rfl, hv, hrest⟩ := hvs
      cases es' with
      | nil => cases hvs'
      | cons e' es' =>
          obtain ⟨v', rest', heq, hv', hrest'⟩ := hvs'
          cases heq
          rw [hes e List.mem_cons_self e' v hv hv',
            ih (fun e he => hes e (List.mem_cons_of_mem _ he)) hrest hrest']

theorem StoredProperties.unique {ps ps' : List (String × Json)}
    (hps : ∀ p ∈ ps, ∀ e' v, Stored h p.2 v → Stored h e' v → p.2 = e')
    {fields : List (String × Value)} (hfields : StoredProperties h ps fields)
    (hfields' : StoredProperties h ps' fields) : ps = ps' := by
  induction ps generalizing ps' fields with
  | nil =>
      cases ps' with
      | nil => rfl
      | cons p' ps' =>
          obtain ⟨v, rest, rfl, -, -⟩ := hfields'
          cases hfields
  | cons p ps ih =>
      obtain ⟨k, e⟩ := p
      obtain ⟨v, rest, rfl, hv, hrest⟩ := hfields
      cases ps' with
      | nil => cases hfields'
      | cons p' ps' =>
          obtain ⟨k', e'⟩ := p'
          obtain ⟨v', rest', heq, hv', hrest'⟩ := hfields'
          cases heq
          have he : e = e' := hps (k, e) List.mem_cons_self e' v hv hv'
          rw [he, ih (fun p hp => hps p (List.mem_cons_of_mem _ hp)) hrest hrest']

/-- A value is no more than one piece of data. -/
theorem Stored.unique {j j' : Json} {v : Value} (hv : Stored h j v) (hv' : Stored h j' v) :
    j = j' := by
  induction j using Json.induct generalizing j' v with
  | undefined | null | boolean b | number n | string s =>
      obtain rfl := hv
      cases j' with
      | array es' =>
          obtain ⟨a, vs, heq, -⟩ := hv'
          cases heq
      | object ps' =>
          obtain ⟨a, fields, distinct, heq, -⟩ := hv'
          cases heq
      | _ => cases hv' <;> rfl
  | array es ih =>
      obtain ⟨a, vs, rfl, hcell, hvs⟩ := hv
      cases j' with
      | array es' =>
          obtain ⟨a', vs', heq, hcell', hvs'⟩ := hv'
          cases heq
          rw [hcell] at hcell'
          cases hcell'
          rw [StoredElements.unique (fun e he e' v hv hv' => ih e he hv hv') hvs hvs']
      | object ps' =>
          obtain ⟨a', fields, distinct, heq, hcell', -⟩ := hv'
          cases heq
          rw [hcell] at hcell'
          cases hcell'
      | _ => cases hv'
  | object ps ih =>
      obtain ⟨a, fields, distinct, rfl, hcell, hfields⟩ := hv
      cases j' with
      | array es' =>
          obtain ⟨a', vs', heq, hcell', -⟩ := hv'
          cases heq
          rw [hcell] at hcell'
          cases hcell'
      | object ps' =>
          obtain ⟨a', fields', distinct', heq, hcell', hfields'⟩ := hv'
          cases heq
          rw [hcell] at hcell'
          cases hcell'
          rw [StoredProperties.unique (fun p hp e' v hv hv' => ih p hp hv hv') hfields hfields']
      | _ => cases hv'

end

/-! ### What is read of the text -/

open JSONParser

section

variable {tail : JSString}

theorem readDigits_all {ds : JSString} (hne : ds ≠ []) (hds : ∀ c ∈ ds, isDec c = Bool.true)
    (htail : ∀ c ∈ tail.head?, isDec c = Bool.false) :
    readDigits (ds ++ tail) = some (ds, tail) := by
  have htake : (ds ++ tail).takeWhile isDec = ds := by
    rw [takeWhile_closed htail, List.takeWhile_eq_self_iff.mpr hds]
  have hdrop : (ds ++ tail).dropWhile isDec = tail := by
    rw [dropWhile_closed htail, List.dropWhile_eq_nil_iff.mpr hds, List.nil_append]
  rw [readDigits, htake, hdrop]
  cases ds with
  | nil => exact absurd rfl hne
  | cons c ds => simp [hds c List.mem_cons_self]

theorem isDec_digitUnit (d : Fin 10) : isDec (digitUnit d) = Bool.true := by
  revert d
  decide

theorem isDec_units {ds : List (Fin 10)} {c : UInt16} (hc : c ∈ ds.map digitUnit) :
    isDec c = Bool.true := by
  obtain ⟨d, -, rfl⟩ := List.mem_map.mp hc
  exact isDec_digitUnit d

theorem readDigits_natToString (k : ℕ) (htail : Closes tail) :
    readDigits (natToString k ++ tail) = some (natToString k, tail) := by
  refine readDigits_all ?_ (fun c hc => ?_) fun c hc => (htail c hc).1
  · rw [natToString, js, toList_toString]
    simp [Nat.toDigits_ne_nil]
  · obtain ⟨hlo, hhi⟩ := natToString_digits hc
    simp [isDec, hlo, hhi]

theorem readExponent_part {exponent : JSString} {e : ℤ} (he : ExponentPart exponent e)
    (htail : Closes tail) : readExponent (exponent ++ tail) = some (exponent, tail) := by
  cases he with
  | none =>
      cases tail with
      | nil => rfl
      | cons c tail =>
          obtain ⟨-, -, hlower, hupper⟩ := htail c rfl
          rw [List.nil_append, readExponent]
          simp [hlower, hupper]
  | plus k =>
      change readExponent (101 :: 43 :: (natToString k ++ tail)) = _
      rw [readExponent]
      change (readDigits (natToString k ++ tail)).bind (fun r => some ([101, 43] ++ r.1, r.2)) = _
      rw [readDigits_natToString k htail]
      rfl
  | minus k =>
      change readExponent (101 :: 45 :: (natToString k ++ tail)) = _
      rw [readExponent]
      change (readDigits (natToString k ++ tail)).bind (fun r => some ([101, 45] ++ r.1, r.2)) = _
      rw [readDigits_natToString k htail]
      rfl

/-- No digit comes after the digits before an exponent. -/
theorem exponent_head {exponent : JSString} {e : ℤ} (he : ExponentPart exponent e)
    (htail : Closes tail) : ∀ c ∈ (exponent ++ tail).head?, isDec c = Bool.false ∧ c ≠ 46 := by
  intro c hc
  cases he with
  | none => exact ⟨(htail c hc).1, (htail c hc).2.1⟩
  | plus k =>
      obtain rfl : 101 = c := by simpa [js] using hc
      decide
  | minus k =>
      obtain rfl : 101 = c := by simpa [js] using hc
      decide

theorem readFraction_part {fraction : List (Fin 10)} {rest : JSString}
    (hrest : ∀ c ∈ rest.head?, isDec c = Bool.false ∧ c ≠ 46) :
    readFraction ((if fraction = [] then [] else js "." ++ fraction.map digitUnit) ++ rest) =
      some (if fraction = [] then [] else js "." ++ fraction.map digitUnit, rest) := by
  split_ifs with hempty
  · rw [List.nil_append, readFraction]
    intro current heq
    exact (hrest 46 (by rw [heq]; rfl)).2 rfl
  · change readFraction (46 :: (fraction.map digitUnit ++ rest)) = _
    rw [readFraction, readDigits_all (by simpa using hempty) (fun c hc => isDec_units hc)
      fun c hc => (hrest c hc).1]
    rfl

theorem readInteger_part {whole : List (Fin 10)} (hne : whole ≠ [])
    (hzero : whole.head? = some 0 → whole = [0]) {rest : JSString}
    (hrest : ∀ c ∈ rest.head?, isDec c = Bool.false) :
    readInteger (whole.map digitUnit ++ rest) = some (whole.map digitUnit, rest) := by
  cases whole with
  | nil => exact absurd rfl hne
  | cons d whole =>
      by_cases hd : d = 0
      · subst hd
        obtain rfl : whole = [] := by simpa using hzero rfl
        rfl
      · have hunit : ∀ d : Fin 10, d ≠ 0 → digitUnit d ≠ 48 := by decide
        rw [readInteger.eq_def]
        split
        · next heq => exact absurd (List.cons.inj heq).1 (hunit d hd)
        · exact readDigits_all (by simp) (fun c hc => isDec_units hc) hrest

theorem toDigits_head {n : ℕ} (hn : 0 < n) : (Nat.toDigits 10 n).head? ≠ some '0' := by
  induction n using Nat.strong_induction_on with
  | _ n ih =>
      by_cases hlt : n < 10
      · rw [Nat.toDigits_of_lt_base hlt]
        interval_cases n <;> decide
      · rw [Nat.toDigits_of_base_le (by decide) (Nat.le_of_not_lt hlt),
          List.head?_append_of_ne_nil _ Nat.toDigits_ne_nil]
        exact ih (n / 10) (by omega) (by omega)

/-- The digits of a natural number begin with no zero but that of zero itself. -/
theorem readInteger_natToString (n : ℕ) (htail : Closes tail) :
    readInteger (natToString n ++ tail) = some (natToString n, tail) := by
  obtain rfl | hn := Nat.eq_zero_or_pos n
  · rfl
  · rw [readInteger.eq_def]
    split
    · next current heq =>
        have hchar : ∀ c ∈ Nat.toDigits 10 n, c.val.toUInt16 = 48 → c = '0' := by
          intro c hc hunit
          have hback := (unit_of_isDigit
            (Nat.isDigit_of_mem_toDigits (by decide) (by decide) hc)).2.2
          rw [hunit] at hback
          exact hback.symm
        have hhead := toDigits_head hn
        rw [natToString, js, toList_toString] at heq
        cases hdigits : Nat.toDigits 10 n with
        | nil => exact absurd hdigits Nat.toDigits_ne_nil
        | cons c cs =>
            rw [hdigits] at heq hhead
            have hc := hchar c (hdigits ▸ List.mem_cons_self) (List.cons.inj heq).1
            exact absurd (congrArg some hc) hhead
    · exact readDigits_natToString n htail

/-- A number from its parts, and with a sign before it. -/
theorem readNumber_parts (engine : Engine) {current int frac exp rest₁ rest₂ rest : JSString}
    (hsign : current.head? ≠ some 45) (hint : readInteger current = some (int, rest₁))
    (hfrac : readFraction rest₁ = some (frac, rest₂))
    (hexp : readExponent rest₂ = some (exp, rest)) :
    readNumber engine current = some (engine.toDouble (int ++ frac ++ exp), rest) ∧
      readNumber engine (45 :: current) =
        some ((engine.toDouble (int ++ frac ++ exp)).negate, rest) := by
  constructor
  · rw [readNumber]
    simp only [hsign, if_false]
    rw [hint]
    dsimp only [bind, Option.bind]
    rw [hfrac]
    dsimp only
    rw [hexp]
    rfl
  · rw [readNumber]
    simp only [List.head?_cons, if_true, List.tail_cons]
    rw [hint]
    dsimp only [bind, Option.bind]
    rw [hfrac]
    dsimp only
    rw [hexp]
    rfl

/-- The parser goes over a literal as a whole. -/
theorem readNumber_numeral (engine : Engine) {w : JSString} {v : ℚ} (hw : Numeral w v)
    (htail : Closes tail) :
    readNumber engine (w ++ tail) = some (engine.toDouble w, tail) ∧
      readNumber engine (45 :: (w ++ tail)) = some ((engine.toDouble w).negate, tail) := by
  obtain ⟨whole, fraction, hne, hzero, he⟩ := hw
  next exponent e =>
    have hexp := readExponent_part he htail
    have hfrac : readFraction
        ((if fraction = [] then [] else js "." ++ fraction.map digitUnit) ++ (exponent ++ tail)) =
        some (if fraction = [] then [] else js "." ++ fraction.map digitUnit, exponent ++ tail) :=
      readFraction_part (exponent_head he htail)
    have hint : readInteger (whole.map digitUnit ++
        ((if fraction = [] then [] else js "." ++ fraction.map digitUnit) ++ (exponent ++ tail))) =
        some (whole.map digitUnit,
          (if fraction = [] then [] else js "." ++ fraction.map digitUnit) ++
          (exponent ++ tail)) := by
      refine readInteger_part hne hzero fun c hc => ?_
      split_ifs at hc
      · exact (exponent_head he htail c hc).1
      · obtain rfl : 46 = c := by simpa [js] using hc
        decide
    have hsign : (whole.map digitUnit ++
        ((if fraction = [] then [] else js "." ++ fraction.map digitUnit) ++
          (exponent ++ tail))).head? ≠ some 45 := by
      cases whole with
      | nil => exact absurd rfl hne
      | cons d whole =>
          have hunit : ∀ d : Fin 10, digitUnit d ≠ 45 := by decide
          simpa using hunit d
    have hparts := readNumber_parts engine hsign hint hfrac hexp
    simpa only [List.append_assoc] using hparts

/-! ### The round trip -/

variable {engine : Engine}

theorem advance_readNumber {c : UInt16} {current rest : JSString} {n : JSNumber}
    (hc : c = 45 ∨ isDec c = Bool.true)
    (hread : readNumber engine (c :: current) = some (n, rest)) :
    advance engine (c :: current) = some (.number n, rest) := by
  have hblank : isJSONWhitespace c = Bool.false := by
    obtain rfl | hdec := hc
    · decide
    · by_contra hspace
      simp only [Bool.not_eq_false, isJSONWhitespace, Bool.or_eq_true, decide_eq_true_eq] at hspace
      obtain ((rfl | rfl) | rfl) | rfl := hspace <;> cases hdec
  have hquote : c ≠ 34 := by
    rintro rfl
    obtain heq | hdec := hc
    · cases heq
    · cases hdec
  have hnumber : (c = 45 || isDec c) = Bool.true := by simpa using hc
  have hskip : skipWhitespace (c :: current) = c :: current :=
    List.dropWhile_cons_of_neg (by simp [hblank])
  rw [advance, hskip]
  dsimp only
  rw [if_neg hquote, if_pos hnumber, hread]
  rfl

theorem numeral_head {w : JSString} {v : ℚ} (hw : Numeral w v) :
    ∃ c cs, w = c :: cs ∧ isDec c = Bool.true := by
  obtain ⟨whole, fraction, hne, -, -⟩ := hw
  cases whole with
  | nil => exact absurd rfl hne
  | cons d whole => exact ⟨digitUnit d, _, rfl, isDec_digitUnit d⟩

/-- A finite number comes back, its zero without a sign. -/
theorem denotes_finite {n : JSNumber} (hn : n.unsigned = Bool.true)
    (hread : engine.toDouble n.toString = n) (h : JSHeap) :
    Denotes engine n.toString h h (Js.number n) ∧
      Denotes engine (45 :: n.toString) h h (Js.number n.negate) := by
  obtain ⟨v, hnumeral, -⟩ := JSNumber.numeral_toString hn
  obtain ⟨c, cs, hcs, hc⟩ := numeral_head hnumeral
  constructor
  · refine denotes_token (.number n) (fun tail htail => ?_) fun _ _ => rfl
    have hnumber := (readNumber_numeral engine hnumeral htail).1
    rw [hread] at hnumber
    rw [hcs] at hnumber ⊢
    exact advance_readNumber (Or.inr hc) hnumber
  · refine denotes_token (.number n.negate) (fun tail htail => ?_) fun _ _ => rfl
    have hnumber := (readNumber_numeral engine hnumeral htail).2
    rw [hread] at hnumber
    exact advance_readNumber (Or.inl rfl) hnumber

theorem denotes_number {n : JSNumber} (hread : engine.toDouble (magnitude n).toString = magnitude n)
    (h : JSHeap) : ∃ v, Denotes engine (Prim.number n).toJson h h v ∧
      Stored h (kept (.number n)) v := by
  cases n with
  | nan => exact ⟨Js.null, denotes_null h, rfl⟩
  | infinity neg => exact ⟨Js.null, denotes_null h, rfl⟩
  | zero neg => exact ⟨Js.number (.zero false), (denotes_finite rfl hread h).1, rfl⟩
  | finite neg m =>
      cases neg with
      | false => exact ⟨Js.number (.finite false m), (denotes_finite rfl hread h).1, rfl⟩
      | true => exact ⟨Js.number (.finite true m), (denotes_finite rfl hread h).2, rfl⟩

/-- The properties as they come in, each with a name of its own. -/
theorem definedProperties_reverse {properties : List (JSString × Value)}
    (hnodup : (properties.map fun f => engine.atomToId f.1).Nodup) :
    definedProperties engine properties.reverse =
      properties.map fun f => (engine.atomToId f.1, f.2) := by
  induction properties using List.reverseRec with
  | nil => rfl
  | append_singleton properties f ih =>
      rw [List.map_append, List.nodup_append] at hnodup
      obtain ⟨hnodup, -, hnew⟩ := hnodup
      rw [List.reverse_append, List.reverse_singleton, List.singleton_append, definedProperties,
        List.foldr_cons, ← definedProperties, ih hnodup, setField, if_neg, List.map_append]
      · rfl
      · rw [List.map_map]
        intro hmem
        exact hnew _ hmem _ (List.mem_singleton_self _) rfl

/-- What comes back of a value, wherever its text stands. -/
def ComesBack (engine : Engine) (text : JSString) (j : Json) : Prop :=
  ∀ h : JSHeap, ∃ h' v, Denotes engine text h h' v ∧ h.Extends h' ∧ Stored h' j v

theorem comesBack_elements {es : List Json}
    (hes : ∀ e ∈ es, e.isFiltered = false → ComesBack engine e.str e.kept) (h : JSHeap) :
    ∃ h' vs, DenotesAll engine (ja es) h h' vs ∧ h.Extends h' ∧
      StoredElements h' (keptElements es) vs := by
  induction es generalizing h with
  | nil => exact ⟨h, [], .nil h, Heap.Extends.refl h, rfl⟩
  | cons e es ih =>
      have helement : ComesBack engine (if e.isFiltered then js "null" else e.str)
          (if e.isFiltered then .null else e.kept) := by
        cases hfiltered : e.isFiltered with
        | true => exact fun h => ⟨h, Js.null, denotes_null h, Heap.Extends.refl h, rfl⟩
        | false => exact hes e List.mem_cons_self hfiltered
      obtain ⟨h₁, v, hdenotes, hextends, hstored⟩ := helement h
      obtain ⟨h', vs, hall, hextends', hstored'⟩ :=
        ih (fun e he => hes e (List.mem_cons_of_mem _ he)) h₁
      rw [ja, keptElements]
      exact ⟨h', v :: vs, .cons hdenotes hall, hextends.trans hextends',
        ⟨v, vs, rfl, hstored.extends hextends', hstored'⟩⟩

/-- What comes back of the properties of an object. -/
def MembersComeBack (engine : Engine) (ms : List Member) (ps : List (String × Json)) : Prop :=
  ∀ h : JSHeap, ∃ h' properties, DenotesMembers engine ms h h' properties ∧ h.Extends h' ∧
    StoredProperties h' ps (properties.map fun f => (engine.atomToId f.1, f.2))

theorem MembersComeBack.nil : MembersComeBack engine [] [] :=
  fun h => ⟨h, [], .nil h, Heap.Extends.refl h, rfl⟩

theorem MembersComeBack.cons {m : Member} {ms : List Member} {k : String} {e : Json}
    {ps : List (String × Json)} (hblank : Blank m.blank) (hkey : engine.atomToId m.key = k)
    (he : ComesBack engine m.text e) (hps : MembersComeBack engine ms ps) :
    MembersComeBack engine (m :: ms) ((k, e) :: ps) := by
  intro h
  obtain ⟨h₁, v, hdenotes, hextends, hstored⟩ := he h
  obtain ⟨h', properties, hall, hextends', hstored'⟩ := hps h₁
  refine ⟨h', (m.key, v) :: properties, .cons hblank hdenotes hall, hextends.trans hextends', v, _,
    ?_, hstored.extends hextends', hstored'⟩
  rw [List.map_cons, hkey]

theorem membersComeBack_jo {ps : List (String × Json)} (hread : ReadableProperties engine ps)
    (hps : ∀ p ∈ ps, p.2.isFiltered = false → ComesBack engine p.2.str p.2.kept) :
    MembersComeBack engine (jo ps) (keptProperties ps) := by
  induction ps with
  | nil => exact .nil
  | cons p ps ih =>
      obtain ⟨k, e⟩ := p
      have hrest := ih hread.2.2 fun p hp => hps p (List.mem_cons_of_mem _ hp)
      rw [jo, keptProperties]
      split_ifs with hfiltered
      · exact hrest
      · exact .cons nofun hread.1 (hps (k, e) List.mem_cons_self (by simpa using hfiltered)) hrest

/-- The names that are left are among those there were. -/
theorem keptProperties_sublist (ps : List (String × Json)) :
    ((keptProperties ps).map Prod.fst).Sublist (ps.map Prod.fst) := by
  induction ps with
  | nil => exact .slnil
  | cons p ps ih =>
      rw [keptProperties]
      split_ifs
      · exact ih.cons _
      · exact ih.cons_cons _

theorem storedProperties_names {h : JSHeap} {ps : List (String × Json)}
    {fields : List (String × Value)} (hstored : StoredProperties h ps fields) :
    fields.map Prod.fst = ps.map Prod.fst := by
  induction ps generalizing fields with
  | nil =>
      obtain rfl : fields = [] := hstored
      rfl
  | cons p ps ih =>
      obtain ⟨v, rest, rfl, -, hrest⟩ := hstored
      rw [List.map_cons, List.map_cons, ih hrest]

theorem ComesBack.object {ms : List Member} {ps : List (String × Json)}
    (hms : MembersComeBack engine ms ps) (hnodup : (ps.map Prod.fst).Nodup) :
    ComesBack engine (objectText ms) (.object ps) := by
  intro h
  obtain ⟨h', properties, hdenotes, hextends, hstored⟩ := hms h
  have hnames := storedProperties_names hstored
  have hnodup' : (properties.map fun f => engine.atomToId f.1).Nodup := by
    rw [List.map_map] at hnames
    exact hnames ▸ hnodup
  have hgrown := Heap.extends_alloc h' (createFinishedObject engine properties.reverse)
  refine ⟨_, _, denotes_object hdenotes, hextends.trans hgrown, h'.next,
    definedProperties engine properties.reverse, definedProperties_distinct _ _, rfl,
    Heap.alloc_cell_self _ _, ?_⟩
  rw [definedProperties_reverse hnodup']
  exact StoredProperties.extends (fun p _ v hv => hv.extends hgrown) hstored

theorem ComesBack.blanks {text before after : JSString} {j : Json} (ht : ComesBack engine text j)
    (hbefore : Blank before) (hafter : Blank after) :
    ComesBack engine (before ++ text ++ after) j := by
  intro h
  obtain ⟨h', v, hdenotes, hextends, hstored⟩ := ht h
  exact ⟨h', v, (hdenotes.blank_before hbefore).blank_after hafter, hextends, hstored⟩

/-- A property with blanks around its value. -/
theorem MembersComeBack.part {before after text : JSString} {k : String} {e : Json}
    {ms : List Member} {ps : List (String × Json)} (hbefore : Blank before)
    (hafter : Blank after) (hkey : engine.atomToId (js k) = k) (he : ComesBack engine text e)
    (hps : MembersComeBack engine ms ps) :
    MembersComeBack engine (⟨before, js k, [32] ++ text ++ after⟩ :: ms) ((k, e) :: ps) :=
  .cons hbefore hkey (he.blanks (by decide) hafter) hps

/-- A property that may be left out. -/
theorem MembersComeBack.optional {b : Bool} {m : Member} {ms : List Member} {k : String}
    {e : Json} {ps : List (String × Json)} (hm : b = true → MembersComeBack engine ms ps →
      MembersComeBack engine (m :: ms) ((k, e) :: ps)) (hps : MembersComeBack engine ms ps) :
    MembersComeBack engine ((if b then [m] else []) ++ ms)
      ((if b then [(k, e)] else []) ++ ps) := by
  cases b with
  | true => exact hm rfl hps
  | false => exact hps

theorem readableElements_mem {es : List Json} (hread : ReadableElements engine es) :
    ∀ e ∈ es, Readable engine e := by
  induction es with
  | nil => simp
  | cons e es ih => exact List.forall_mem_cons.mpr ⟨hread.1, ih hread.2⟩

theorem readableProperties_mem {ps : List (String × Json)}
    (hread : ReadableProperties engine ps) : ∀ p ∈ ps, Readable engine p.2 := by
  induction ps with
  | nil => simp
  | cons p ps ih => exact List.forall_mem_cons.mpr ⟨hread.2.1, ih hread.2.2⟩

/-- The digits of a natural number come back as what the engine reads of them. -/
theorem comesBack_natToString (n : ℕ) :
    ComesBack engine (natToString n) (.number (engine.toDouble (natToString n))) := by
  intro h
  refine ⟨h, Js.number (engine.toDouble (natToString n)), ?_, Heap.Extends.refl h, rfl⟩
  refine denotes_token (.number _) (fun tail htail => ?_) fun _ _ => rfl
  have hint := readInteger_natToString n htail
  have hexp : readExponent tail = some ([], tail) := readExponent_part .none htail
  have hfrac : readFraction tail = some ([], tail) := by
    rw [readFraction]
    intro current heq
    exact (htail 46 (by rw [heq]; rfl)).2.1 rfl
  cases hn : natToString n with
  | nil => exact absurd hn (by simp [natToString, js, Nat.toDigits_ne_nil])
  | cons c cs =>
      obtain ⟨hlo, hhi⟩ := natToString_digits (hn ▸ List.mem_cons_self : c ∈ natToString n)
      have hdec : isDec c = Bool.true := by simp [isDec, hlo, hhi]
      have hsign : c ≠ 45 := by
        rintro rfl
        cases hdec
      rw [hn] at hint
      have hnumber := (readNumber_parts engine (by simpa using hsign) hint hfrac hexp).1
      rw [List.append_nil, List.append_nil] at hnumber
      exact advance_readNumber (Or.inr hdec) hnumber

/-- All data but undefined comes back. -/
theorem comesBack {j : Json} (hread : Readable engine j) (hfiltered : j.isFiltered = false) :
    ComesBack engine j.str j.kept := by
  induction j using Json.induct with
  | undefined => cases hfiltered
  | null => exact fun h => ⟨h, Js.null, denotes_null h, Heap.Extends.refl h, rfl⟩
  | boolean b =>
      intro h
      refine ⟨h, Js.boolean b, ?_, Heap.Extends.refl h, rfl⟩
      cases b with
      | true => exact denotes_true h
      | false => exact denotes_false h
  | number n =>
      intro h
      obtain ⟨v, hdenotes, hstored⟩ := denotes_number hread h
      exact ⟨h, v, hdenotes, Heap.Extends.refl h, hstored⟩
  | string s => exact fun h => ⟨h, Js.string s, denotes_quote s h, Heap.Extends.refl h, rfl⟩
  | array es ih =>
      intro h
      have hall := readableElements_mem hread
      obtain ⟨h', vs, hdenotes, hextends, hstored⟩ :=
        comesBack_elements (fun e he hfiltered => ih e he (hall e he) hfiltered) h
      have hgrown := Heap.extends_alloc h' (.array vs)
      exact ⟨_, _, denotes_array hdenotes, hextends.trans hgrown, h'.next, vs, rfl,
        Heap.alloc_cell_self _ _,
        StoredElements.extends (fun e _ v hv => hv.extends hgrown) hstored⟩
  | object ps ih =>
      obtain ⟨hnodup, hread⟩ := hread
      have hall := readableProperties_mem hread
      exact .object (membersComeBack_jo hread fun p hp hfiltered => ih p hp (hall p hp) hfiltered)
        (hnodup.sublist (keptProperties_sublist ps))

/-- `JSON.stringify` and the parser: data comes back as what JSON can tell of it, and nothing
that was in the heap has changed. -/
theorem parse_str {j : Json} (hread : Readable engine j) (hfiltered : j.isFiltered = false)
    (h : JSHeap) :
    ∃ h' v, parse engine j.str h = some (h', v) ∧ h.Extends h' ∧ Stored h' j.kept v := by
  obtain ⟨h', v, hdenotes, hextends, hstored⟩ := comesBack hread hfiltered h
  exact ⟨h', v, (denotes_iff_parse engine).mp hdenotes, hextends, hstored⟩

/-- An engine that knows the numbers of one digit and the names of one unit a letter. -/
def digitEngine : JSONParser.Engine where
  toDouble
    | [u] => if isDec u then .ofDigit (u.toNat - 48) else .nan
    | _ => .nan
  atomToId name := String.ofList (name.map fun c => Char.ofNat c.toNat)

/-- `{depth: 7, asts: [true, undefined, "\n"], ast: undefined}` -/
def stageData : Json :=
  .object [("depth", .number (.ofDigit 7)),
    ("asts", .array [.boolean Bool.true, .undefined, .string (js "\n")]), ("ast", .undefined)]

/-- An undefined element comes back as null, and an undefined property not at all. -/
theorem parse_str_stageData : ∃ h' v,
    parse digitEngine (str stageData) Heap.empty = some (h', v) ∧
      Heap.Extends Heap.empty h' ∧
      Stored h' (.object [("depth", .number (.ofDigit 7)),
        ("asts", .array [.boolean Bool.true, .null, .string (js "\n")])]) v := by
  have hread : Readable digitEngine stageData :=
    ⟨by decide, by decide, (by decide : digitEngine.toDouble _ = _), by decide,
      ⟨trivial, trivial, trivial, trivial⟩, by decide, trivial, trivial⟩
  exact parse_str hread rfl Heap.empty

end

end Json

end MetaMonkey.Js
