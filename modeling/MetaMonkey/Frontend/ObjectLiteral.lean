import MetaMonkey.Frontend.StringLiteral
import MetaMonkey.Js.Stringify

/-!
Expressions made of literals: the initialisers of objects and arrays, strings, numbers and the
names of constants, with what their evaluation makes in the heap. Other expressions are not read.
-/

namespace MetaMonkey.Frontend.ObjectLiteral

open ObjectGraph Js StringLiteral
open Js.JSONParser (Engine isDec readNumber createFinishedObject definedProperties Closes)

/-! ### Tokens -/

/-- The white space of ASCII, and the ends of lines. -/
def isSpace (c : UInt16) : Bool := c = 32 || c = 9 || c = 11 || c = 12 || isRawEOLChar c

def skipSpace (s : JSString) : JSString := s.dropWhile isSpace

/-- The letters of ASCII, the dollar sign and the underscore. -/
def isNameStart (c : UInt16) : Bool :=
  (97 ≤ c && c ≤ 122) || (65 ≤ c && c ≤ 90) || c = 36 || c = 95

def isNamePart (c : UInt16) : Bool := isNameStart c || isDec c

/-- The names that stand for a value. -/
def constant (name : JSString) : Option Prim :=
  if name = js "null" then some .null
  else if name = js "undefined" then some .undefined
  else if name = js "true" then some (.boolean true)
  else if name = js "false" then some (.boolean false)
  else if name = js "Infinity" then some (.number (.infinity false))
  else if name = js "NaN" then some (.number .nan)
  else none

def punct (p : UInt16) (s : JSString) : Option JSString :=
  match skipSpace s with
  | [] => none
  | c :: rest => if c = p then some rest else none

/-- What stands before the colon. An object whose prototype is given is not read. -/
def propertyName (s : JSString) : Option (JSString × JSString) :=
  match skipSpace s with
  | [] => none
  | c :: rest => do
      let (key, rest) ←
        if isNameStart c then some ((c :: rest).span isNamePart) else stringToken false (c :: rest)
      if key = js "__proto__" then none else return (key, rest)

variable (engine : Engine)

/-- A number in decimal, that no name and no point follows. -/
def numberToken (s : JSString) : Option (JSNumber × JSString) := do
  let (n, rest) ← readNumber engine s
  if (rest.head?.map fun c => isNamePart c || c = 46).getD false then none else return (n, rest)

/-! ### Evaluation -/

mutual

/-- What an expression gives, with the text behind it. -/
def value : ℕ → JSString → JSHeap → Option (JSHeap × Value × JSString)
  | 0, _, _ => none
  | fuel + 1, s, h =>
      match skipSpace s with
      | [] => none
      | c :: rest =>
          if c = 91 then do
            let (h, vs, rest) ← elements fuel rest h
            return (h.alloc (.array vs), .ref h.next, rest)
          else if c = 123 then do
            let (h, props, rest) ← properties fuel rest h
            return (h.alloc (createFinishedObject engine props.reverse), .ref h.next, rest)
          else if isDec c then do
            let (n, rest) ← numberToken engine (c :: rest)
            return (h, number n, rest)
          else if isNameStart c then do
            let (name, rest) := (c :: rest).span isNamePart
            return (h, .leaf (.prim (← constant name)), rest)
          else do
            let (s, rest) ← stringToken false (c :: rest)
            return (h, string s, rest)

/-- The elements up to the end of an array. -/
def elements : ℕ → JSString → JSHeap → Option (JSHeap × List Value × JSString)
  | 0, _, _ => none
  | fuel + 1, s, h =>
      match punct 93 s with
      | some rest => some (h, [], rest)
      | none => do
          let (h, v, rest) ← value fuel s h
          match punct 44 rest with
          | some rest => do
              let (h, vs, rest) ← elements fuel rest h
              return (h, v :: vs, rest)
          | none => do
              let rest ← punct 93 rest
              return (h, [v], rest)

/-- The properties up to the end of an object. -/
def properties : ℕ → JSString → JSHeap → Option (JSHeap × List (JSString × Value) × JSString)
  | 0, _, _ => none
  | fuel + 1, s, h =>
      match punct 125 s with
      | some rest => some (h, [], rest)
      | none => do
          let (key, rest) ← propertyName s
          let rest ← punct 58 rest
          let (h, v, rest) ← value fuel rest h
          match punct 44 rest with
          | some rest => do
              let (h, props, rest) ← properties fuel rest h
              return (h, (key, v) :: props, rest)
          | none => do
              let rest ← punct 125 rest
              return (h, [(key, v)], rest)

end

/-- The whole text as an expression. -/
def evaluate (text : JSString) (h : JSHeap) : Option (JSHeap × Value) := do
  let (h, v, rest) ← value engine (text.length + 1) text h
  if (skipSpace rest).isEmpty then return (h, v) else none

/-! ### What literals make -/

/-- Objects without a class of their own, arrays and primitives, as literals make them. -/
inductive MadeOfLiterals (h : JSHeap) : Value → Prop
  | prim (p : Prim) : MadeOfLiterals h (.leaf (.prim p))
  | array {a : ℕ} {vs : List Value} (hc : h.cell a = some (.array vs))
      (hvs : ∀ v ∈ vs, MadeOfLiterals h v) : MadeOfLiterals h (.ref a)
  | object {a : ℕ} {fields : List (String × Value)} {distinct : (fields.map Prod.fst).Nodup}
      (hc : h.cell a = some (.record .plain fields distinct))
      (hfields : ∀ f ∈ fields, MadeOfLiterals h f.2) : MadeOfLiterals h (.ref a)

variable {engine} {h h' : JSHeap}

theorem MadeOfLiterals.extends {v : Value} (hv : MadeOfLiterals h v) (hh : h.Extends h') :
    MadeOfLiterals h' v := by
  induction hv with
  | prim p => exact .prim p
  | array hc _ ih => exact .array (hh _ _ hc) ih
  | object hc _ ih => exact .object (hh _ _ hc) ih

theorem mem_definedProperties {props : List (JSString × Value)} {f : String × Value}
    (hf : f ∈ definedProperties engine props) : ∃ p ∈ props, p.2 = f.2 := by
  induction props generalizing f with
  | nil => cases hf
  | cons p props ih =>
      rw [definedProperties, List.foldr_cons, ← definedProperties, setField] at hf
      split at hf
      · obtain ⟨g, hg, rfl⟩ := List.mem_map.mp hf
        by_cases hkey : g.1 = engine.atomToId p.1
        · exact ⟨p, List.mem_cons_self, by rw [if_pos hkey]⟩
        · obtain ⟨q, hq, heq⟩ := ih hg
          exact ⟨q, List.mem_cons_of_mem _ hq, by rw [if_neg hkey, heq]⟩
      · rcases List.mem_append.mp hf with hf | hf
        · obtain ⟨q, hq, heq⟩ := ih hf
          exact ⟨q, List.mem_cons_of_mem _ hq, heq⟩
        · rw [List.mem_singleton.mp hf]
          exact ⟨p, List.mem_cons_self, rfl⟩

/-- What the three functions make of a text. -/
theorem madeOfLiterals (fuel : ℕ) :
    (∀ s h r, value engine fuel s h = some r →
      h.Extends r.1 ∧ MadeOfLiterals r.1 r.2.1) ∧
    (∀ s h r, elements engine fuel s h = some r →
      h.Extends r.1 ∧ ∀ v ∈ r.2.1, MadeOfLiterals r.1 v) ∧
    (∀ s h r, properties engine fuel s h = some r →
      h.Extends r.1 ∧ ∀ p ∈ r.2.1, MadeOfLiterals r.1 p.2) := by
  induction fuel with
  | zero => refine ⟨?_, ?_, ?_⟩ <;> exact fun s h r hrun => by cases hrun
  | succ fuel ih =>
      obtain ⟨ihValue, ihElements, ihProperties⟩ := ih
      refine ⟨fun s h r hrun => ?_, fun s h r hrun => ?_, fun s h r hrun => ?_⟩
      · rw [value] at hrun
        split at hrun
        · cases hrun
        · split_ifs at hrun
          · obtain ⟨⟨h₁, vs, rest⟩, helements, hdone⟩ := Option.bind_eq_some_iff.mp hrun
            cases hdone
            obtain ⟨hextends, hvs⟩ := ihElements _ _ _ helements
            refine ⟨hextends.trans (Heap.extends_alloc _ _), .array (Heap.alloc_cell_self _ _) ?_⟩
            exact fun v hv => (hvs v hv).extends (Heap.extends_alloc _ _)
          · obtain ⟨⟨h₁, props, rest⟩, hproperties, hdone⟩ := Option.bind_eq_some_iff.mp hrun
            cases hdone
            obtain ⟨hextends, hprops⟩ := ihProperties _ _ _ hproperties
            refine ⟨hextends.trans (Heap.extends_alloc _ _), .object (Heap.alloc_cell_self _ _) ?_⟩
            intro f hf
            obtain ⟨p, hp, heq⟩ := mem_definedProperties hf
            exact heq ▸ (hprops p (List.mem_reverse.mp hp)).extends (Heap.extends_alloc _ _)
          · obtain ⟨⟨n, rest⟩, -, hdone⟩ := Option.bind_eq_some_iff.mp hrun
            cases hdone
            exact ⟨Heap.Extends.refl _, .prim _⟩
          · obtain ⟨p, -, hdone⟩ := Option.bind_eq_some_iff.mp hrun
            cases hdone
            exact ⟨Heap.Extends.refl _, .prim _⟩
          · obtain ⟨⟨str, rest⟩, -, hdone⟩ := Option.bind_eq_some_iff.mp hrun
            cases hdone
            exact ⟨Heap.Extends.refl _, .prim _⟩
      · rw [elements] at hrun
        split at hrun
        · cases hrun
          exact ⟨Heap.Extends.refl _, by simp⟩
        · obtain ⟨⟨h₁, v, rest⟩, hvalue, hrun⟩ := Option.bind_eq_some_iff.mp hrun
          obtain ⟨hextends, hv⟩ := ihValue _ _ _ hvalue
          dsimp only at hrun
          split at hrun
          · obtain ⟨⟨h₂, vs, rest⟩, helements, hdone⟩ := Option.bind_eq_some_iff.mp hrun
            cases hdone
            obtain ⟨hextends', hvs⟩ := ihElements _ _ _ helements
            exact ⟨hextends.trans hextends', List.forall_mem_cons.mpr ⟨hv.extends hextends', hvs⟩⟩
          · obtain ⟨rest, -, hdone⟩ := Option.bind_eq_some_iff.mp hrun
            cases hdone
            exact ⟨hextends, by simpa using hv⟩
      · rw [properties] at hrun
        split at hrun
        · cases hrun
          exact ⟨Heap.Extends.refl _, by simp⟩
        · obtain ⟨⟨key, rest⟩, -, hrun⟩ := Option.bind_eq_some_iff.mp hrun
          obtain ⟨rest, -, hrun⟩ := Option.bind_eq_some_iff.mp hrun
          obtain ⟨⟨h₁, v, rest⟩, hvalue, hrun⟩ := Option.bind_eq_some_iff.mp hrun
          obtain ⟨hextends, hv⟩ := ihValue _ _ _ hvalue
          dsimp only at hrun
          split at hrun
          · obtain ⟨⟨h₂, props, rest⟩, hproperties, hdone⟩ := Option.bind_eq_some_iff.mp hrun
            cases hdone
            obtain ⟨hextends', hprops⟩ := ihProperties _ _ _ hproperties
            exact ⟨hextends.trans hextends',
              List.forall_mem_cons.mpr ⟨hv.extends hextends', hprops⟩⟩
          · obtain ⟨rest, -, hdone⟩ := Option.bind_eq_some_iff.mp hrun
            cases hdone
            exact ⟨hextends, by simpa using hv⟩

theorem evaluate_madeOfLiterals {text : JSString} {v : Value}
    (hrun : evaluate engine text h = some (h', v)) : MadeOfLiterals h' v := by
  obtain ⟨⟨h₁, w, rest⟩, hvalue, hdone⟩ := Option.bind_eq_some_iff.mp hrun
  dsimp only at hdone
  split at hdone
  · cases hdone
    exact ((madeOfLiterals _).1 _ _ _ hvalue).2
  · cases hdone

/-! ### Copies of a tree -/

mutual

/-- The value is the root of objects that are as the tree shows them, whatever their addresses. -/
def Copies (h : JSHeap) : Ast → Value → Prop
  | .leaf x, v => v = x
  | .record _ cls fields, v =>
      ∃ a copied distinct, v = .ref a ∧ h.cell a = some (.record cls copied distinct) ∧
        CopiesFields h fields copied
  | .array _ elems, v => ∃ a vs, v = .ref a ∧ h.cell a = some (.array vs) ∧ CopiesElems h elems vs

/-- The same names in the same order. -/
def CopiesFields (h : JSHeap) : List (String × Ast) → List (String × Value) → Prop
  | [], copied => copied = []
  | (k, t) :: fields, copied =>
      ∃ v rest, copied = (k, v) :: rest ∧ Copies h t v ∧ CopiesFields h fields rest

def CopiesElems (h : JSHeap) : List Ast → List Value → Prop
  | [], vs => vs = []
  | t :: elems, vs => ∃ v rest, vs = v :: rest ∧ Copies h t v ∧ CopiesElems h elems rest

end

theorem CopiesFields.extends {fields : List (String × Ast)}
    (hfields : ∀ f ∈ fields, ∀ v, Copies h f.2 v → Copies h' f.2 v) :
    ∀ {copied : List (String × Value)}, CopiesFields h fields copied →
      CopiesFields h' fields copied := by
  induction fields with
  | nil => exact id
  | cons f fields ih =>
      rintro copied ⟨v, rest, rfl, hv, hrest⟩
      exact ⟨v, rest, rfl, hfields f List.mem_cons_self v hv,
        ih (fun g hg => hfields g (List.mem_cons_of_mem _ hg)) hrest⟩

theorem CopiesElems.extends {elems : List Ast}
    (helems : ∀ e ∈ elems, ∀ v, Copies h e v → Copies h' e v) :
    ∀ {vs : List Value}, CopiesElems h elems vs → CopiesElems h' elems vs := by
  induction elems with
  | nil => exact id
  | cons e elems ih =>
      rintro vs ⟨v, rest, rfl, hv, hrest⟩
      exact ⟨v, rest, rfl, helems e List.mem_cons_self v hv,
        ih (fun g hg => helems g (List.mem_cons_of_mem _ hg)) hrest⟩

theorem CopiesFields.exists_mem {fields : List (String × Ast)} :
    ∀ {copied : List (String × Value)}, CopiesFields h fields copied → ∀ f ∈ fields,
      ∃ v, (f.1, v) ∈ copied ∧ Copies h f.2 v := by
  induction fields with
  | nil => exact fun _ => List.forall_mem_nil _
  | cons f fields ih =>
      rintro copied ⟨v, rest, rfl, hv, hrest⟩
      refine List.forall_mem_cons.mpr ⟨⟨v, List.mem_cons_self, hv⟩, fun g hg => ?_⟩
      obtain ⟨w, hmem, hw⟩ := ih hrest g hg
      exact ⟨w, List.mem_cons_of_mem _ hmem, hw⟩

theorem CopiesFields.lookup {fields : List (String × Ast)} {key : String} {t : Ast}
    (ht : fields.lookup key = some t) : ∀ {copied : List (String × Value)},
      CopiesFields h fields copied → ∃ v, copied.lookup key = some v ∧ Copies h t v := by
  induction fields with
  | nil => cases ht
  | cons f fields ih =>
      rintro copied ⟨v, rest, rfl, hv, hrest⟩
      rw [List.lookup_cons] at ht ⊢
      cases hkey : key == f.1 with
      | true =>
          rw [hkey] at ht
          cases ht
          exact ⟨v, rfl, hv⟩
      | false =>
          rw [hkey] at ht
          exact ih ht hrest

theorem CopiesElems.exists_mem {elems : List Ast} :
    ∀ {vs : List Value}, CopiesElems h elems vs → ∀ e ∈ elems, ∃ v ∈ vs, Copies h e v := by
  induction elems with
  | nil => exact fun _ => List.forall_mem_nil _
  | cons e elems ih =>
      rintro vs ⟨v, rest, rfl, hv, hrest⟩
      refine List.forall_mem_cons.mpr ⟨⟨v, List.mem_cons_self, hv⟩, fun e' he' => ?_⟩
      obtain ⟨w, hmem, hw⟩ := ih hrest e' he'
      exact ⟨w, List.mem_cons_of_mem _ hmem, hw⟩

theorem Copies.extends (hh : h.Extends h') {t : Ast} :
    ∀ {v : Value}, Copies h t v → Copies h' t v := by
  induction t using Tree.induct with
  | leaf x => exact id
  | record a cls fields ih =>
      rintro v ⟨b, copied, distinct, rfl, hc, hcopied⟩
      exact ⟨b, copied, distinct, rfl, hh _ _ hc,
        hcopied.extends fun f hf v hv => ih f hf hv⟩
  | array a elems ih =>
      rintro v ⟨b, vs, rfl, hc, hcopied⟩
      exact ⟨b, vs, rfl, hh _ _ hc, hcopied.extends fun e he v hv => ih e he hv⟩

/-! ### Reading tokens -/

/-- What may follow an expression in an initialiser. -/
def Ends (tail : JSString) : Prop := ∀ c ∈ tail.head?, c = 44 ∨ c = 93 ∨ c = 125

theorem Ends.closes {tail : JSString} (htail : Ends tail) : Closes tail := by
  intro c hc
  obtain rfl | rfl | rfl := htail c hc <;> decide

theorem Ends.isNamePart {tail : JSString} (htail : Ends tail) :
    ∀ c ∈ tail.head?, isNamePart c = false := by
  intro c hc
  obtain rfl | rfl | rfl := htail c hc <;> decide

/-- No white space, and no mark that an initialiser begins or ends with. -/
theorem apart_of {p : UInt16 → Bool}
    (hp : [32, 9, 11, 12, 10, 13, 0x2028, 0x2029, 91, 93, 123, 125].all (fun c => !p c) = true)
    {c : UInt16} (hc : p c = true) :
    isSpace c = false ∧ c ≠ 91 ∧ c ≠ 93 ∧ c ≠ 123 ∧ c ≠ 125 := by
  have hne : ∀ d ∈ [32, 9, 11, 12, 10, 13, 0x2028, 0x2029, 91, 93, 123, 125], c ≠ d := by
    rintro d hd rfl
    have hnot := List.all_eq_true.mp hp c hd
    rw [hc] at hnot
    cases hnot
  simp only [List.forall_mem_cons] at hne
  simp [isSpace, isRawEOLChar, hne]

theorem isNameStart_apart {c : UInt16} (hc : isNameStart c = true) :
    isSpace c = false ∧ c ≠ 91 ∧ c ≠ 93 ∧ c ≠ 123 ∧ c ≠ 125 :=
  apart_of (by decide) hc

theorem isDec_apart {c : UInt16} (hc : isDec c = true) :
    isSpace c = false ∧ c ≠ 91 ∧ c ≠ 93 ∧ c ≠ 123 ∧ c ≠ 125 :=
  apart_of (by decide) hc

theorem isDec_false {c : UInt16} (hc : isNameStart c = true) : isDec c = false := by
  grind [isNameStart, isDec]

theorem skipSpace_cons {c : UInt16} (hc : isSpace c = false) (s : JSString) :
    skipSpace (c :: s) = c :: s :=
  List.dropWhile_cons_of_neg (by simp [hc])

theorem punct_self {p : UInt16} {s rest : JSString} (hs : skipSpace s = p :: rest) :
    punct p s = some rest := by
  rw [punct, hs]
  exact if_pos rfl

theorem punct_ne {p c : UInt16} {s rest : JSString} (hs : skipSpace s = c :: rest) (hc : c ≠ p) :
    punct p s = none := by
  rw [punct, hs]
  exact if_neg hc

theorem span_name {w tail : JSString} (hw : ∀ c ∈ w, isNamePart c = true)
    (htail : ∀ c ∈ tail.head?, isNamePart c = false) :
    (w ++ tail).span isNamePart = (w, tail) := by
  rw [List.span_eq_takeWhile_dropWhile, JSONParser.takeWhile_closed htail,
    JSONParser.dropWhile_closed htail, List.takeWhile_eq_self_iff.mpr hw,
    List.dropWhile_eq_nil_iff.mpr hw]
  rfl

/-- A string that stands for itself between quotes. -/
def IsRaw (s : JSString) : Prop := ∀ c ∈ s, c ≠ 34 ∧ c ≠ 92 ∧ isRawEOLChar c = false

theorem stringChars_length {strictMode : Bool} {qc : UInt16} {src s rest : JSString}
    (hrun : stringChars strictMode qc src = some (s, rest)) :
    s.length + rest.length + 1 ≤ src.length := by
  fun_induction stringChars strictMode qc src generalizing s rest with
  | case1 => cases hrun
  | case2 src =>
      cases hrun
      simp
  | case3 src hqc hnone => cases hrun
  | case4 src r hescaped hqc ih =>
      obtain ⟨⟨chars, rest'⟩, hchars, heq⟩ := Option.map_eq_some_iff.mp hrun
      cases heq
      have hlength := ih hchars
      have hescape := escape_length hescaped
      have hunit : r.1.toList.length ≤ 1 := by cases r.1 <;> simp
      simp only [List.length_append, List.length_cons]
      omega
  | case5 c src hqc hslash heol => cases hrun
  | case6 c src hqc hslash heol ih =>
      obtain ⟨⟨chars, rest'⟩, hchars, heq⟩ := Option.map_eq_some_iff.mp hrun
      cases heq
      have hlength := ih hchars
      simp only [List.length_cons]
      omega

/-- Between quotes a string is read as itself just where it has no quote, no backslash and no
end of a line. -/
theorem stringChars_raw_iff {strictMode : Bool} {s rest : JSString} :
    stringChars strictMode 34 (s ++ 34 :: rest) = some (s, rest) ↔ IsRaw s := by
  induction s with
  | nil =>
      rw [List.nil_append, stringChars, if_pos rfl]
      exact ⟨fun _ => List.forall_mem_nil _, fun _ => rfl⟩
  | cons c s ih =>
      rw [IsRaw, List.forall_mem_cons, ← IsRaw, List.cons_append]
      by_cases hquote : c = 34
      · rw [stringChars, if_pos hquote]
        refine ⟨fun hrun => ?_, fun hc => absurd hquote hc.1.1⟩
        cases hrun
      · by_cases hslash : c = 92
        · refine ⟨fun hrun => ?_, fun hc => absurd hslash hc.1.2.1⟩
          subst hslash
          cases hescape : escape strictMode (s ++ 34 :: rest) with
          | none =>
              rw [stringChars, if_neg hquote, if_pos rfl] at hrun
              split at hrun
              · cases hrun
              · next hsome =>
                  rw [hescape] at hsome
                  cases hsome
          | some r =>
              rw [stringChars_escape (by decide) hescape] at hrun
              obtain ⟨⟨chars, rest'⟩, hchars, heq⟩ := Option.map_eq_some_iff.mp hrun
              have hlength := stringChars_length hchars
              have hshort := escape_length hescape
              have hunit : r.1.toList.length ≤ 1 := by cases r.1 <;> simp
              have hwhole := congrArg (fun p => p.1.length) heq
              have htail := congrArg (fun p => p.2.length) heq
              simp only [List.length_append, List.length_cons] at hlength hshort hwhole htail
              omega
        · rw [stringChars_plain hquote hslash]
          by_cases heol : isRawEOLChar c = true
          · rw [if_pos heol]
            refine ⟨fun hrun => ?_, fun hc => absurd heol (by simp [hc.1.2.2])⟩
            cases hrun
          · rw [if_neg heol, ← ih]
            constructor
            · intro hrun
              obtain ⟨⟨chars, rest'⟩, hchars, heq⟩ := Option.map_eq_some_iff.mp hrun
              cases heq
              exact ⟨⟨hquote, hslash, by simpa using heol⟩, hchars⟩
            · rintro ⟨-, hchars⟩
              rw [hchars]
              rfl

/-! ### Reading values -/

/-- In an initialiser, the text is one of a copy of the tree. -/
structure ReadsAs (engine : Engine) (text : JSString) (t : Ast) : Prop where
  starts : ∃ c cs, text = c :: cs ∧ isSpace c = false ∧ c ≠ 93
  reads : ∀ (fuel : ℕ) (tail : JSString) (h : JSHeap), text.length < fuel → Ends tail →
    ∃ h' v, value engine fuel (text ++ tail) h = some (h', v, tail) ∧ h.Extends h' ∧ Copies h' t v

theorem readsAs_leaf {text : JSString} {p : Prim}
    (hstarts : ∃ c cs, text = c :: cs ∧ isSpace c = false ∧ c ≠ 93)
    (hreads : ∀ (fuel : ℕ) (tail : JSString) (h : JSHeap), Ends tail →
      value engine (fuel + 1) (text ++ tail) h = some (h, .leaf (.prim p), tail)) :
    ReadsAs engine text (.leaf (.leaf (.prim p))) := by
  refine ⟨hstarts, fun fuel tail h hfuel htail => ?_⟩
  obtain ⟨fuel, rfl⟩ := Nat.exists_eq_succ_of_ne_zero (Nat.ne_zero_of_lt hfuel)
  exact ⟨h, _, hreads fuel tail h htail, Heap.Extends.refl h, rfl⟩

theorem value_string (fuel : ℕ) (src : JSString) (h : JSHeap) :
    value engine (fuel + 1) (34 :: src) h =
      (stringChars false 34 src).map fun r => (h, string r.1, r.2) := by
  have hdigit : isDec 34 = false ∧ isNameStart 34 = false := by decide
  have hmark : (34 : UInt16) ≠ 91 ∧ (34 : UInt16) ≠ 123 := by decide
  rw [value, skipSpace_cons rfl]
  simp only [if_neg hmark.1, if_neg hmark.2, hdigit, Bool.false_eq_true, if_false]
  exact Option.map_eq_bind.symm

theorem readsAs_string {s : JSString} (hs : IsRaw s) :
    ReadsAs engine (js "\"" ++ s ++ js "\"") (.leaf (string s)) := by
  refine readsAs_leaf ⟨34, s ++ js "\"", rfl, rfl, by decide⟩ fun fuel tail h _ => ?_
  have htext : js "\"" ++ s ++ js "\"" ++ tail = 34 :: (s ++ 34 :: tail) := by
    simp [js]
  rw [htext, value_string, stringChars_raw_iff.mpr hs]
  rfl

theorem readsAs_constant {name : JSString} {p : Prim} (hp : constant name = some p)
    (hname : name.all isNamePart = true)
    (hstart : ∃ c cs, name = c :: cs ∧ isNameStart c = true) :
    ReadsAs engine name (.leaf (.leaf (.prim p))) := by
  obtain ⟨c, cs, hcs, hc⟩ := hstart
  obtain ⟨hspace, hlb, hrb, hlc, -⟩ := isNameStart_apart hc
  refine readsAs_leaf ⟨c, cs, hcs, hspace, hrb⟩ fun fuel tail h htail => ?_
  have hspan := span_name (List.all_eq_true.mp hname) htail.isNamePart
  rw [hcs, List.cons_append] at hspan ⊢
  rw [value, skipSpace_cons hspace]
  simp only [if_neg hlb, if_neg hlc, isDec_false hc, hc, hspan, ← hcs, hp]
  rfl

theorem readsAs_number {n : JSNumber} (hn : n.unsigned = true)
    (hread : engine.toDouble n.toString = n) :
    ReadsAs engine n.toString (.leaf (number n)) := by
  obtain ⟨v, hnumeral, -⟩ := JSNumber.numeral_toString hn
  obtain ⟨c, cs, hcs, hc⟩ := Json.numeral_head hnumeral
  obtain ⟨hspace, hlb, hrb, hlc, -⟩ := isDec_apart hc
  refine readsAs_leaf ⟨c, cs, hcs, hspace, hrb⟩ fun fuel tail h htail => ?_
  have hnumber := (Json.readNumber_numeral engine hnumeral htail.closes).1
  have htoken : numberToken engine (n.toString ++ tail) = some (n, tail) := by
    have hend : (tail.head?.map fun c => isNamePart c || c = 46).getD false = false := by
      cases hhead : tail.head? with
      | none => rfl
      | some d =>
          obtain ⟨-, hpoint, -⟩ := htail.closes d hhead
          simp [htail.isNamePart d hhead, hpoint]
    rw [numberToken, hnumber, hread]
    simp [hend]
  rw [hcs, List.cons_append] at htoken ⊢
  rw [value, skipSpace_cons hspace]
  simp only [if_neg hlb, if_neg hlc, hc, htoken]
  rfl

/-! ### Arrays -/

theorem intercalate_cons (sep text : JSString) (texts : List JSString) :
    List.intercalate sep (text :: texts) = text ++ texts.flatMap (sep ++ ·) := by
  induction texts generalizing text with
  | nil => simp
  | cons text' texts ih =>
      rw [List.intercalate_cons_cons, ih]
      simp

theorem ends_list (sep : JSString) {tail : JSString} (hsep : sep.head? = some 44)
    (texts : List JSString) {c : UInt16} (hc : c = 93 ∨ c = 125) :
    Ends (texts.flatMap (sep ++ ·) ++ c :: tail) := by
  intro d hd
  cases texts with
  | nil =>
      obtain rfl : c = d := by simpa using hd
      exact Or.inr hc
  | cons text texts =>
      rw [List.flatMap_cons, List.append_assoc, List.append_assoc, List.head?_append, hsep,
        Option.some_or] at hd
      exact Or.inl (Option.some.inj hd).symm

section

variable {fuel : ℕ} {s rest tail : JSString} {h h₁ : JSHeap} {v : Value}

theorem elements_last (hs : punct 93 s = none)
    (hv : value engine fuel s h = some (h₁, v, 93 :: tail)) :
    elements engine (fuel + 1) s h = some (h₁, [v], tail) := by
  have hcomma : punct 44 (93 :: tail) = none := punct_ne (skipSpace_cons rfl tail) (by decide)
  have hclose : punct 93 (93 :: tail) = some tail := punct_self (skipSpace_cons rfl tail)
  rw [elements, hs]
  simp only [hv, hcomma, hclose, Option.bind_eq_bind, Option.bind_some]
  rfl

theorem elements_comma (hs : punct 93 s = none)
    (hv : value engine fuel s h = some (h₁, v, 44 :: rest)) :
    elements engine (fuel + 1) s h =
      (elements engine fuel rest h₁).map fun r => (r.1, v :: r.2.1, r.2.2) := by
  have hcomma : punct 44 (44 :: rest) = some rest := punct_self (skipSpace_cons rfl rest)
  rw [elements, hs]
  simp only [hv, hcomma, Option.bind_eq_bind, Option.bind_some]
  cases elements engine fuel rest h₁ <;> rfl

theorem properties_last {key rest' : JSString} (hs : punct 125 s = none)
    (hkey : propertyName s = some (key, rest)) (hcolon : punct 58 rest = some rest')
    (hv : value engine fuel rest' h = some (h₁, v, 125 :: tail)) :
    properties engine (fuel + 1) s h = some (h₁, [(key, v)], tail) := by
  have hcomma : punct 44 (125 :: tail) = none := punct_ne (skipSpace_cons rfl tail) (by decide)
  have hclose : punct 125 (125 :: tail) = some tail := punct_self (skipSpace_cons rfl tail)
  rw [properties, hs]
  simp only [hkey, hcolon, hv, hcomma, hclose, Option.bind_eq_bind, Option.bind_some]
  rfl

theorem properties_comma {key rest' more : JSString} (hs : punct 125 s = none)
    (hkey : propertyName s = some (key, rest)) (hcolon : punct 58 rest = some rest')
    (hv : value engine fuel rest' h = some (h₁, v, 44 :: more)) :
    properties engine (fuel + 1) s h =
      (properties engine fuel more h₁).map fun r => (r.1, (key, v) :: r.2.1, r.2.2) := by
  have hcomma : punct 44 (44 :: more) = some more := punct_self (skipSpace_cons rfl more)
  rw [properties, hs]
  simp only [hkey, hcolon, hv, hcomma, Option.bind_eq_bind, Option.bind_some]
  cases properties engine fuel more h₁ <;> rfl

end

theorem ReadsAs.punct_none {text : JSString} {t : Ast} (ht : ReadsAs engine text t)
    (tail : JSString) : punct 93 (text ++ tail) = none := by
  obtain ⟨c, cs, rfl, hspace, hrb⟩ := ht.starts
  exact punct_ne (skipSpace_cons hspace _) hrb

theorem elements_reads {texts : List JSString} {elems : List Ast}
    (hts : List.Forall₂ (ReadsAs engine) texts elems) :
    ∀ {text : JSString} {t : Ast} (fuel : ℕ) (tail : JSString) (h : JSHeap),
      ReadsAs engine text t →
      text.length + (texts.flatMap (js "," ++ ·)).length + 1 < fuel →
      ∃ h' vs, elements engine fuel (text ++ (texts.flatMap (js "," ++ ·) ++ 93 :: tail)) h =
          some (h', vs, tail) ∧ h.Extends h' ∧ CopiesElems h' (t :: elems) vs := by
  induction hts with
  | nil =>
      intro text t fuel tail h ht hfuel
      obtain ⟨fuel, rfl⟩ := Nat.exists_eq_succ_of_ne_zero (Nat.ne_zero_of_lt hfuel)
      obtain ⟨h', v, hread, hextends, hv⟩ :=
        ht.reads fuel (93 :: tail) h (by omega) (ends_list (js ",") rfl [] (Or.inl rfl))
      exact ⟨h', [v], elements_last (ht.punct_none _) hread, hextends, v, [], rfl, hv, rfl⟩
  | @cons text' t' texts elems ht' hts ih =>
      intro text t fuel tail h ht hfuel
      obtain ⟨fuel, rfl⟩ := Nat.exists_eq_succ_of_ne_zero (Nat.ne_zero_of_lt hfuel)
      have hlength : (js ",").length = 1 := rfl
      simp only [List.flatMap_cons, List.length_append, hlength] at hfuel
      obtain ⟨h₁, v, hread, hextends, hv⟩ := ht.reads fuel
        ((text' :: texts).flatMap (js "," ++ ·) ++ 93 :: tail) h (by omega)
        (ends_list (js ",") rfl _ (Or.inl rfl))
      obtain ⟨h', vs, hreads, hextends', hvs⟩ := ih fuel tail h₁ ht' (by omega)
      refine ⟨h', v :: vs, ?_, hextends.trans hextends', v, vs, rfl, hv.extends hextends', hvs⟩
      have hcomma : value engine fuel
          (text ++ ((text' :: texts).flatMap (js "," ++ ·) ++ 93 :: tail)) h =
            some (h₁, v, 44 :: (text' ++ (texts.flatMap (js "," ++ ·) ++ 93 :: tail))) :=
        hread.trans (by simp [js])
      rw [elements_comma (ht.punct_none _) hcomma, hreads]
      rfl

theorem readsAs_array {texts : List JSString} {a : ℕ} {elems : List Ast}
    (hts : List.Forall₂ (ReadsAs engine) texts elems) :
    ReadsAs engine (js "[" ++ List.intercalate (js ",") texts ++ js "]") (.array a elems) := by
  refine ⟨⟨91, List.intercalate (js ",") texts ++ js "]", rfl, rfl, by decide⟩,
    fun fuel tail h hfuel _ => ?_⟩
  obtain ⟨fuel, rfl⟩ := Nat.exists_eq_succ_of_ne_zero (Nat.ne_zero_of_lt hfuel)
  have hlength : (js "[").length = 1 ∧ (js "]").length = 1 := ⟨rfl, rfl⟩
  obtain ⟨h', vs, hreads, hextends, hvs⟩ : ∃ h' vs,
      elements engine fuel (List.intercalate (js ",") texts ++ 93 :: tail) h =
        some (h', vs, tail) ∧ h.Extends h' ∧ CopiesElems h' elems vs := by
    cases hts with
    | nil =>
        obtain ⟨fuel, rfl⟩ : ∃ n, fuel = n + 1 :=
          Nat.exists_eq_succ_of_ne_zero (by simp [hlength] at hfuel; omega)
        refine ⟨h, [], ?_, Heap.Extends.refl h, rfl⟩
        change elements engine (fuel + 1) (93 :: tail) h = _
        rw [elements, punct_self (skipSpace_cons rfl tail)]
    | @cons text t texts elems ht hts =>
        rw [intercalate_cons, List.append_assoc]
        refine elements_reads hts fuel tail h ht ?_
        rw [intercalate_cons] at hfuel
        simp only [List.length_append, hlength] at hfuel
        omega
  refine ⟨h'.alloc (.array vs), .ref h'.next, ?_, hextends.trans (Heap.extends_alloc _ _), h'.next,
    vs, rfl, Heap.alloc_cell_self _ _, ?_⟩
  · have htext : js "[" ++ List.intercalate (js ",") texts ++ js "]" ++ tail =
        91 :: (List.intercalate (js ",") texts ++ 93 :: tail) := by simp [js]
    rw [htext, value, skipSpace_cons rfl]
    simp only [if_pos, hreads]
    rfl
  · exact hvs.extends fun e _ v hv => hv.extends (Heap.extends_alloc _ _)

/-! ### Objects -/

/-- A name that a property can have without quotes. -/
def isPropertyName : JSString → Bool
  | [] => false
  | c :: cs => isNameStart c && cs.all isNamePart && c :: cs ≠ js "__proto__"

/-- The text of a property, with the name that the engine makes of its characters. -/
structure PropertyReads (engine : Engine) (text : JSString) (f : String × Ast) : Prop where
  name : isPropertyName (js f.1) = true
  named : engine.atomToId (js f.1) = f.1
  value : ∃ text', text = js f.1 ++ (58 :: text') ∧ ReadsAs engine text' f.2

theorem isPropertyName_iff {w : JSString} : isPropertyName w = true ↔
    (∃ c cs, w = c :: cs ∧ isNameStart c = true) ∧ (∀ c ∈ w, isNamePart c = true) ∧
      w ≠ js "__proto__" := by
  cases w with
  | nil => simp [isPropertyName]
  | cons c cs =>
      have hpart : isNameStart c = true → isNamePart c = true := fun hc => by simp [isNamePart, hc]
      simp only [isPropertyName, Bool.and_eq_true, List.all_eq_true, decide_eq_true_eq,
        List.forall_mem_cons]
      constructor
      · rintro ⟨⟨hc, hcs⟩, hne⟩
        exact ⟨⟨c, cs, rfl, hc⟩, ⟨hpart hc, hcs⟩, hne⟩
      · rintro ⟨⟨c', cs', heq, hc⟩, ⟨-, hcs⟩, hne⟩
        cases heq
        exact ⟨⟨hc, hcs⟩, hne⟩

/-- A name is read up to the colon. -/
theorem propertyName_of {w s rest : JSString} (hw : isPropertyName w = true)
    (hs : skipSpace s = w ++ 58 :: rest) : propertyName s = some (w, 58 :: rest) := by
  obtain ⟨⟨c, cs, hcs, hc⟩, hparts, hne⟩ := isPropertyName_iff.mp hw
  have hspan : (w ++ 58 :: rest).span isNamePart = (w, 58 :: rest) :=
    span_name hparts fun d hd => by
      obtain rfl : 58 = d := by simpa using hd
      decide
  rw [propertyName, hs]
  rw [hcs, List.cons_append] at hspan ⊢
  simp only [hc, if_true, hspan, Option.bind_eq_bind, Option.bind_some, if_neg (hcs ▸ hne)]
  rfl

theorem punct_name {w s rest : JSString} (hw : isPropertyName w = true)
    (hs : skipSpace s = w ++ rest) : punct 125 s = none := by
  obtain ⟨⟨c, cs, rfl, hc⟩, -, -⟩ := isPropertyName_iff.mp hw
  exact punct_ne hs (isNameStart_apart hc).2.2.2.2

theorem properties_reads {texts : List JSString} {fields : List (String × Ast)}
    (hts : List.Forall₂ (PropertyReads engine) texts fields) :
    ∀ {text : JSString} {f : String × Ast} (fuel : ℕ) (s tail : JSString) (h : JSHeap),
      PropertyReads engine text f →
      skipSpace s = text ++ (texts.flatMap (js ", " ++ ·) ++ 125 :: tail) →
      text.length + (texts.flatMap (js ", " ++ ·)).length + 1 < fuel →
      ∃ h' props, properties engine fuel s h = some (h', props, tail) ∧ h.Extends h' ∧
        CopiesFields h' (f :: fields) (props.map fun p => (engine.atomToId p.1, p.2)) := by
  induction hts with
  | nil =>
      intro text f fuel s tail h hf hs hfuel
      obtain ⟨fuel, rfl⟩ := Nat.exists_eq_succ_of_ne_zero (Nat.ne_zero_of_lt hfuel)
      obtain ⟨text', rfl, ht⟩ := hf.value
      rw [List.append_assoc, List.cons_append] at hs
      simp only [List.length_append, List.length_cons] at hfuel
      obtain ⟨h', v, hread, hextends, hv⟩ :=
        ht.reads fuel (125 :: tail) h (by omega) (ends_list (js ", ") rfl [] (Or.inr rfl))
      have hcolon : punct 58 (58 :: (text' ++ 125 :: tail)) = some (text' ++ 125 :: tail) :=
        punct_self (skipSpace_cons rfl _)
      refine ⟨h', [(js f.1, v)], properties_last (punct_name hf.name hs)
        (propertyName_of hf.name hs) hcolon hread, hextends, v, [], ?_, hv, rfl⟩
      rw [List.map_singleton, hf.named]
  | @cons text' g texts fields hg hts ih =>
      intro text f fuel s tail h hf hs hfuel
      obtain ⟨fuel, rfl⟩ := Nat.exists_eq_succ_of_ne_zero (Nat.ne_zero_of_lt hfuel)
      obtain ⟨text'', rfl, ht⟩ := hf.value
      rw [List.append_assoc, List.cons_append] at hs
      have hlength : (js ", ").length = 2 := rfl
      simp only [List.flatMap_cons, List.length_append, List.length_cons, hlength] at hfuel
      obtain ⟨h₁, v, hread, hextends, hv⟩ := ht.reads fuel
        ((text' :: texts).flatMap (js ", " ++ ·) ++ 125 :: tail) h (by omega)
        (ends_list (js ", ") rfl _ (Or.inr rfl))
      have hcolon : punct 58 (58 :: (text'' ++ ((text' :: texts).flatMap (js ", " ++ ·) ++
          125 :: tail))) = some (text'' ++ ((text' :: texts).flatMap (js ", " ++ ·) ++
          125 :: tail)) := punct_self (skipSpace_cons rfl _)
      have hnext : skipSpace (32 :: (text' ++ (texts.flatMap (js ", " ++ ·) ++ 125 :: tail))) =
          text' ++ (texts.flatMap (js ", " ++ ·) ++ 125 :: tail) := by
        obtain ⟨⟨c, cs, hcs, hc⟩, -, -⟩ := isPropertyName_iff.mp hg.name
        obtain ⟨text₁, rfl, -⟩ := hg.value
        rw [hcs]
        exact skipSpace_cons (isNameStart_apart hc).1 _
      obtain ⟨h', props, hreads, hextends', hprops⟩ := ih fuel _ tail h₁ hg hnext (by omega)
      refine ⟨h', (js f.1, v) :: props, ?_, hextends.trans hextends', v,
        props.map fun p => (engine.atomToId p.1, p.2), ?_, hv.extends hextends', hprops⟩
      · have hcomma : value engine fuel
            (text'' ++ ((text' :: texts).flatMap (js ", " ++ ·) ++ 125 :: tail)) h =
              some (h₁, v, 44 :: 32 :: (text' ++ (texts.flatMap (js ", " ++ ·) ++ 125 :: tail))) :=
          hread.trans (by simp [js])
        rw [properties_comma (punct_name hf.name hs) (propertyName_of hf.name hs) hcolon
          hcomma, hreads]
        rfl
      · rw [List.map_cons, hf.named]

theorem CopiesFields.names {fields : List (String × Ast)} :
    ∀ {copied : List (String × Value)}, CopiesFields h fields copied →
      copied.map Prod.fst = fields.map Prod.fst := by
  induction fields with
  | nil =>
      rintro copied rfl
      rfl
  | cons f fields ih =>
      rintro copied ⟨v, rest, rfl, -, hrest⟩
      rw [List.map_cons, List.map_cons, ih hrest]

theorem readsAs_object {texts : List JSString} {a : ℕ} {fields : List (String × Ast)}
    (hts : List.Forall₂ (PropertyReads engine) texts fields)
    (hdistinct : (fields.map Prod.fst).Nodup) :
    ReadsAs engine (js "\x7b" ++ List.intercalate (js ", ") texts ++ js "\x7d")
      (.record a .plain fields) := by
  refine ⟨⟨123, List.intercalate (js ", ") texts ++ js "\x7d", rfl, rfl, by decide⟩,
    fun fuel tail h hfuel _ => ?_⟩
  obtain ⟨fuel, rfl⟩ := Nat.exists_eq_succ_of_ne_zero (Nat.ne_zero_of_lt hfuel)
  have hlength : (js "\x7b").length = 1 ∧ (js "\x7d").length = 1 := ⟨rfl, rfl⟩
  obtain ⟨h', props, hreads, hextends, hprops⟩ : ∃ h' props,
      properties engine fuel (List.intercalate (js ", ") texts ++ 125 :: tail) h =
        some (h', props, tail) ∧ h.Extends h' ∧
        CopiesFields h' fields (props.map fun p => (engine.atomToId p.1, p.2)) := by
    cases hts with
    | nil =>
        obtain ⟨fuel, rfl⟩ : ∃ n, fuel = n + 1 :=
          Nat.exists_eq_succ_of_ne_zero (by simp [hlength] at hfuel; omega)
        refine ⟨h, [], ?_, Heap.Extends.refl h, rfl⟩
        change properties engine (fuel + 1) (125 :: tail) h = _
        rw [properties, punct_self (skipSpace_cons rfl tail)]
    | @cons text f texts fields hf hts =>
        rw [intercalate_cons, List.append_assoc]
        refine properties_reads hts fuel _ tail h hf ?_ ?_
        · obtain ⟨⟨c, cs, hcs, hc⟩, -, -⟩ := isPropertyName_iff.mp hf.name
          obtain ⟨text', rfl, -⟩ := hf.value
          rw [hcs]
          exact skipSpace_cons (isNameStart_apart hc).1 _
        · rw [intercalate_cons] at hfuel
          simp only [List.length_append, hlength] at hfuel
          omega
  have hnames : (props.map fun p => engine.atomToId p.1) = fields.map Prod.fst := by
    rw [← hprops.names, List.map_map]
    rfl
  have hdefined : definedProperties engine props.reverse =
      props.map fun p => (engine.atomToId p.1, p.2) :=
    Json.definedProperties_reverse (hnames ▸ hdistinct)
  refine ⟨h'.alloc (createFinishedObject engine props.reverse), .ref h'.next, ?_,
    hextends.trans (Heap.extends_alloc _ _), h'.next, definedProperties engine props.reverse, _,
    rfl, Heap.alloc_cell_self _ _, ?_⟩
  · have htext : js "\x7b" ++ List.intercalate (js ", ") texts ++ js "\x7d" ++ tail =
        123 :: (List.intercalate (js ", ") texts ++ 125 :: tail) := by simp [js]
    rw [htext, value, skipSpace_cons rfl]
    simp only [hreads]
    rfl
  · rw [hdefined]
    exact hprops.extends fun f _ v hv => hv.extends (Heap.extends_alloc _ _)

/-- A string evaluates to itself between quotes just where it stands for itself. -/
theorem evaluate_string_iff {s : JSString} :
    (∃ h', evaluate engine (js "\"" ++ s ++ js "\"") h = some (h', string s)) ↔ IsRaw s := by
  have htext : js "\"" ++ s ++ js "\"" = 34 :: (s ++ [34]) := by simp [js]
  rw [htext, evaluate, value_string]
  constructor
  · rintro ⟨h', hrun⟩
    obtain ⟨r, hread, hdone⟩ := Option.bind_eq_some_iff.mp hrun
    obtain ⟨⟨s', rest⟩, hchars, rfl⟩ := Option.map_eq_some_iff.mp hread
    dsimp only at hdone
    split at hdone
    · cases hdone
      have hlength := stringChars_length hchars
      obtain rfl : rest = [] := by
        rw [List.length_append, List.length_singleton] at hlength
        exact List.eq_nil_of_length_eq_zero (by omega)
      exact stringChars_raw_iff.mp hchars
    · cases hdone
  · intro hs
    rw [stringChars_raw_iff.mpr hs]
    exact ⟨h, rfl⟩

/-- A text that is read as a copy of a tree evaluates to one. -/
theorem ReadsAs.evaluate {text : JSString} {t : Ast} (ht : ReadsAs engine text t) (h : JSHeap) :
    ∃ h' v, evaluate engine text h = some (h', v) ∧ h.Extends h' ∧ Copies h' t v := by
  obtain ⟨h', v, hread, hextends, hv⟩ := ht.reads (text.length + 1) [] h (Nat.lt_succ_self _) nofun
  rw [List.append_nil] at hread
  refine ⟨h', v, ?_, hextends, hv⟩
  rw [ObjectLiteral.evaluate, hread]
  rfl

end MetaMonkey.Frontend.ObjectLiteral
