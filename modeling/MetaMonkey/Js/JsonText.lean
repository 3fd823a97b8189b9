import Mathlib.Logic.Relation
import MetaMonkey.Js.Access
import MetaMonkey.Js.Json

/-!
Texts as parts of other texts. A text that the parser takes on its own it takes in the
same way wherever a value may stand, so that the texts of objects are put together from
the texts of their properties.
-/

namespace MetaMonkey.Js.JSONParser

open ObjectGraph

/-- No number goes on into the text. -/
def Closes (tail : JSString) : Prop :=
  ∀ c ∈ tail.head?, isDec c = Bool.false ∧ c ≠ 46 ∧ c ≠ 101 ∧ c ≠ 69

/-- What a reader reads, it reads as well with a tail after it. -/
def Stable {α : Type} (f : JSString → Option (α × JSString)) : Prop :=
  ∀ current a rest tail, Closes tail → f current = some (a, rest) →
    f (current ++ tail) = some (a, rest ++ tail)

section

variable {p : UInt16 → Bool} {l tail : JSString}

theorem takeWhile_closed (htail : ∀ c ∈ tail.head?, p c = Bool.false) :
    (l ++ tail).takeWhile p = l.takeWhile p := by
  induction l with
  | nil =>
      cases tail with
      | nil => rfl
      | cons c tail => exact List.takeWhile_cons_of_neg (by simp [htail c rfl])
  | cons c l ih =>
      rw [List.cons_append, List.takeWhile_cons, List.takeWhile_cons, ih]

theorem dropWhile_closed (htail : ∀ c ∈ tail.head?, p c = Bool.false) :
    (l ++ tail).dropWhile p = l.dropWhile p ++ tail := by
  induction l with
  | nil =>
      cases tail with
      | nil => rfl
      | cons c tail => exact List.dropWhile_cons_of_neg (by simp [htail c rfl])
  | cons c l ih =>
      rw [List.cons_append, List.dropWhile_cons, List.dropWhile_cons, ih]
      split <;> rfl

theorem skipWhitespace_append {c : UInt16} {current rest : JSString}
    (h : skipWhitespace current = c :: rest) (tail : JSString) :
    skipWhitespace (current ++ tail) = c :: (rest ++ tail) := by
  rw [skipWhitespace] at h ⊢
  rw [List.dropWhile_append, h]
  rfl

end

/-! ### Readers -/

theorem readString_stable : Stable readString := by
  intro current
  induction current using readString.induct with
  | case1 =>
      intro s rest tail htail hread
      cases hread
  | case2 current =>
      intro s rest tail htail hread
      rw [readString.eq_def] at hread
      cases hread
      rw [List.cons_append, readString.eq_def]
      rfl
  | case3 hne =>
      intro s rest tail htail hread
      cases hread
  | case4 d₀ d₁ d₂ d₃ current hhex hne ih =>
      intro s rest tail htail hread
      rw [readString.eq_def] at hread
      simp only [List.cons_append]
      rw [readString.eq_def]
      simp only [hne, hhex, if_true, if_false] at hread ⊢
      obtain ⟨⟨s', rest'⟩, hread', hreturn⟩ := Option.bind_eq_some_iff.mp hread
      cases hreturn
      rw [ih _ _ _ htail hread']
      rfl
  | case5 d₀ d₁ d₂ d₃ current hhex hne =>
      intro s rest tail htail hread
      rw [readString.eq_def] at hread
      simp only [hne, hhex, if_true, if_false] at hread
      cases hread
  | case6 current hshort hne =>
      intro s rest tail htail hread
      rw [readString.eq_def] at hread
      simp only [hne, if_true, if_false] at hread
      cases hread
  | case7 e current he hne ih =>
      intro s rest tail htail hread
      rw [readString.eq_def] at hread
      simp only [List.cons_append]
      rw [readString.eq_def]
      simp only [hne, he, if_true, if_false] at hread ⊢
      obtain ⟨unit, hunit, hread⟩ := Option.bind_eq_some_iff.mp hread
      obtain ⟨⟨s', rest'⟩, hread', hreturn⟩ := Option.bind_eq_some_iff.mp hread
      cases hreturn
      rw [hunit, ih _ _ _ htail hread']
      rfl
  | case8 c current hquote hescape hcontrol =>
      intro s rest tail htail hread
      rw [readString.eq_def] at hread
      simp only [hquote, hescape, hcontrol, if_true, if_false] at hread
      cases hread
  | case9 c current hquote hescape hcontrol ih =>
      intro s rest tail htail hread
      rw [readString.eq_def] at hread
      rw [List.cons_append, readString.eq_def]
      simp only [hquote, hescape, hcontrol, if_false] at hread ⊢
      obtain ⟨⟨s', rest'⟩, hread', hreturn⟩ := Option.bind_eq_some_iff.mp hread
      cases hreturn
      rw [ih _ _ _ htail hread']
      rfl

theorem readDigits_stable : Stable readDigits := by
  intro current s rest tail htail hread
  have hstop : ∀ c ∈ tail.head?, isDec c = Bool.false := fun c hc => (htail c hc).1
  rw [readDigits] at hread
  split at hread
  · next hhead =>
      cases hread
      cases current with
      | nil => cases hhead
      | cons c current =>
          have hc : isDec c = true := hhead
          rw [readDigits, takeWhile_closed hstop, dropWhile_closed hstop]
          simp [hc]
  · cases hread

theorem readInteger_stable : Stable readInteger := by
  intro current s rest tail htail hread
  rw [readInteger.eq_def] at hread
  split at hread
  · cases hread
    rfl
  · next hne =>
      cases current with
      | nil => cases hread
      | cons c current =>
          have hc : c ≠ 48 := fun h => hne current (by rw [h])
          rw [List.cons_append, readInteger]
          · exact readDigits_stable _ _ _ _ htail hread
          · intro rest heq
            exact absurd (List.cons.inj heq).1 hc

theorem readFraction_stable : Stable readFraction := by
  intro current s rest tail htail hread
  rw [readFraction.eq_def] at hread
  split at hread
  · obtain ⟨⟨s', rest'⟩, hread', hreturn⟩ := Option.bind_eq_some_iff.mp hread
    cases hreturn
    rw [List.cons_append, readFraction, readDigits_stable _ _ _ _ htail hread']
    rfl
  · next hne =>
      cases hread
      rw [readFraction]
      intro rest' heq
      cases current with
      | nil =>
          rw [List.nil_append] at heq
          exact (htail 46 (by rw [heq]; rfl)).2.1 rfl
      | cons c current => exact hne current (by rw [(List.cons.inj heq).1])

/-- A sign is followed by digits. -/
theorem readSign_append {current rest s : JSString} (tail : JSString)
    (hread : readDigits (readSign current).2 = some (s, rest)) :
    readSign (current ++ tail) = ((readSign current).1, (readSign current).2 ++ tail) := by
  cases current with
  | nil => cases hread
  | cons c current =>
      rw [List.cons_append, readSign, readSign]
      split <;> rfl

theorem readExponent_stable : Stable readExponent := by
  intro current s rest tail htail hread
  cases current with
  | nil =>
      cases hread
      cases tail with
      | nil => rfl
      | cons c tail =>
          obtain ⟨-, -, hlower, hupper⟩ := htail c rfl
          rw [List.nil_append, readExponent]
          simp [hlower, hupper]
  | cons c current =>
      rw [readExponent] at hread
      rw [List.cons_append, readExponent]
      split at hread
      · next he =>
          obtain ⟨⟨s', rest'⟩, hread', hreturn⟩ := Option.bind_eq_some_iff.mp hread
          have hdigits : readDigits (readSign current).2 = some (s', rest') := hread'
          cases hreturn
          rw [if_pos he, readSign_append tail hdigits]
          dsimp only
          rw [readDigits_stable _ _ _ _ htail hdigits]
          rfl
      · next he =>
          cases hread
          rw [if_neg he]
          rfl

variable (engine : Engine)

theorem readNumber_stable : Stable (readNumber engine) := by
  intro current n rest tail htail hread
  obtain ⟨⟨int, rest₁⟩, hint, hread⟩ := Option.bind_eq_some_iff.mp hread
  obtain ⟨⟨frac, rest₂⟩, hfrac, hread⟩ := Option.bind_eq_some_iff.mp hread
  obtain ⟨⟨exp, rest₃⟩, hexp, hreturn⟩ := Option.bind_eq_some_iff.mp hread
  cases current with
  | nil => cases hint
  | cons c current =>
      have hint' := readInteger_stable _ _ _ _ htail hint
      have hhead : (if (c :: current).head? = some 45 then (c :: current).tail
          else c :: current) ++ tail =
          if (c :: (current ++ tail)).head? = some 45 then (c :: (current ++ tail)).tail
          else c :: (current ++ tail) := by
        by_cases hc : c = 45 <;> simp [hc]
      rw [hhead] at hint'
      cases hreturn
      rw [List.cons_append, readNumber]
      dsimp only
      rw [hint']
      dsimp only [bind, Option.bind]
      rw [readFraction_stable _ _ _ _ htail hfrac]
      dsimp only
      rw [readExponent_stable _ _ _ _ htail hexp]
      rfl

theorem readKeyword_stable (word : String) (token : Token) : Stable (readKeyword word token) := by
  intro current t rest tail htail hread
  rw [readKeyword] at hread
  split at hread
  · next hprefix =>
      cases hread
      obtain ⟨rest, rfl⟩ := List.isPrefixOf_iff_prefix.mp hprefix
      rw [List.append_assoc, readKeyword, if_pos, List.drop_left, List.drop_left]
      exact List.isPrefixOf_iff_prefix.mpr (List.prefix_append _ _)
  · cases hread

section

variable {α : Type} {f g : JSString → Option (α × JSString)}

theorem stable_none : Stable fun _ => (none : Option (α × JSString)) := by
  intro current a rest tail htail hread
  cases hread

/-- A character that has been read is a token of its own. -/
theorem stable_token (a : α) : Stable fun current => some (a, current) := by
  intro current a' rest tail htail hread
  cases hread
  rfl

theorem Stable.after (hf : Stable f) (c : UInt16) : Stable fun current => f (c :: current) :=
  fun current a rest tail htail hread => hf (c :: current) a rest tail htail hread

/-- The condition is on what has been read before. -/
theorem Stable.ite {p : Prop} [Decidable p] (hf : Stable f) (hg : Stable g) :
    Stable fun current => if p then f current else g current := by
  intro current a rest tail htail hread
  by_cases hp : p
  · simp only [hp, if_true] at hread ⊢
    exact hf _ _ _ _ htail hread
  · simp only [hp, if_false] at hread ⊢
    exact hg _ _ _ _ htail hread

end

/-- A string literal after its quote. -/
theorem stringToken_stable : Stable fun current => do
    let (s, current) ← readString current
    return (Token.string s, current) := by
  intro current t rest tail htail hread
  obtain ⟨⟨s, rest'⟩, hread', hreturn⟩ := Option.bind_eq_some_iff.mp hread
  cases hreturn
  dsimp only
  rw [readString_stable _ _ _ _ htail hread']
  rfl

theorem numberToken_stable : Stable fun current => do
    let (n, current) ← readNumber engine current
    return (Token.number n, current) := by
  intro current t rest tail htail hread
  obtain ⟨⟨n, rest'⟩, hread', hreturn⟩ := Option.bind_eq_some_iff.mp hread
  cases hreturn
  dsimp only
  rw [readNumber_stable engine _ _ _ _ htail hread']
  rfl

theorem advance_stable : Stable (advance engine) := by
  intro current t rest tail htail hread
  rw [advance] at hread ⊢
  cases hskip : skipWhitespace current with
  | nil =>
      rw [hskip] at hread
      cases hread
  | cons c current =>
      rw [hskip] at hread
      rw [skipWhitespace_append hskip]
      have hstable : Stable fun current : JSString =>
          if c = 34 then do
            let (s, current) ← readString current
            return (Token.string s, current)
          else if c = 45 || isDec c then do
            let (n, current) ← readNumber engine (c :: current)
            return (.number n, current)
          else if c = 116 then readKeyword "true" .true (c :: current)
          else if c = 102 then readKeyword "false" .false (c :: current)
          else if c = 110 then readKeyword "null" .null (c :: current)
          else if c = 91 then some (.arrayOpen, current)
          else if c = 93 then some (.arrayClose, current)
          else if c = 123 then some (.objectOpen, current)
          else if c = 125 then some (.objectClose, current)
          else if c = 44 then some (.comma, current)
          else if c = 58 then some (.colon, current)
          else none :=
        stringToken_stable.ite <| ((numberToken_stable engine).after c).ite <|
          ((readKeyword_stable _ _).after c).ite <| ((readKeyword_stable _ _).after c).ite <|
          ((readKeyword_stable _ _).after c).ite <| (stable_token _).ite <| (stable_token _).ite <|
          (stable_token _).ite <| (stable_token _).ite <| (stable_token _).ite <|
          (stable_token _).ite stable_none
      exact hstable _ _ _ _ htail hread

theorem advanceTo_stable (tokens : List (UInt16 × Token)) : Stable (advanceTo tokens) := by
  intro current t rest tail htail hread
  rw [advanceTo] at hread ⊢
  cases hskip : skipWhitespace current with
  | nil =>
      rw [hskip] at hread
      cases hread
  | cons c current =>
      rw [hskip] at hread
      rw [skipWhitespace_append hskip]
      obtain ⟨token, htoken, heq⟩ := Option.map_eq_some_iff.mp hread
      cases heq
      exact Option.map_eq_some_iff.mpr ⟨t, htoken, rfl⟩

theorem advancePropertyName_stable : Stable advancePropertyName := by
  intro current t rest tail htail hread
  rw [advancePropertyName] at hread ⊢
  cases hskip : skipWhitespace current with
  | nil =>
      rw [hskip] at hread
      cases hread
  | cons c current =>
      rw [hskip] at hread
      rw [skipWhitespace_append hskip]
      exact (stringToken_stable.ite stable_none) _ _ _ _ htail hread

theorem advanceAfterObjectOpen_stable : Stable advanceAfterObjectOpen := by
  intro current t rest tail htail hread
  rw [advanceAfterObjectOpen] at hread ⊢
  cases hskip : skipWhitespace current with
  | nil =>
      rw [hskip] at hread
      cases hread
  | cons c current =>
      rw [hskip] at hread
      rw [skipWhitespace_append hskip]
      exact (stringToken_stable.ite ((stable_token _).ite stable_none)) _ _ _ _ htail hread

/-! ### The loop -/

/-- The parser at the same place of a text with more around it. -/
def ParserState.within (base : List StackEntry) (tail : JSString) (s : ParserState) :
    ParserState :=
  ⟨s.label, s.heap, s.stack ++ base, s.current ++ tail⟩

theorem step_within {s s' : ParserState} {tail : JSString} (base : List StackEntry)
    (htail : Closes tail) (hstep : step engine s = some s') :
    step engine (s.within base tail) = some (s'.within base tail) := by
  obtain ⟨label, h, stack, current⟩ := s
  cases label with
  | switch token =>
      cases token with
      | string _ | number _ | true | false | null =>
          cases hstep
          rfl
      | arrayOpen =>
          obtain ⟨⟨token, rest⟩, hread, hreturn⟩ := Option.bind_eq_some_iff.mp hstep
          refine Option.bind_eq_some_iff.mpr
            ⟨(token, rest ++ tail), advance_stable engine _ _ _ _ htail hread, ?_⟩
          cases token <;> cases hreturn <;> rfl
      | objectOpen =>
          obtain ⟨⟨token, rest⟩, hread, hreturn⟩ := Option.bind_eq_some_iff.mp hstep
          refine Option.bind_eq_some_iff.mpr
            ⟨(token, rest ++ tail), advanceAfterObjectOpen_stable _ _ _ _ htail hread, ?_⟩
          cases token <;> cases hreturn <;> rfl
      | arrayClose | objectClose | colon | comma => cases hstep
  | member token =>
      cases token with
      | string id =>
          match stack with
          | .properties l :: stack =>
              obtain ⟨⟨token, rest⟩, hcolon, hstep⟩ := Option.bind_eq_some_iff.mp hstep
              obtain ⟨⟨token', rest'⟩, hread, hreturn⟩ := Option.bind_eq_some_iff.mp hstep
              cases hreturn
              refine Option.bind_eq_some_iff.mpr
                ⟨(token, rest ++ tail), advanceTo_stable _ _ _ _ _ htail hcolon, ?_⟩
              exact Option.bind_eq_some_iff.mpr
                ⟨(token', rest' ++ tail), advance_stable engine _ _ _ _ htail hread, rfl⟩
          | .elements l :: stack => cases hstep
          | [] => cases hstep
      | number _ | true | false | null | arrayOpen | arrayClose | objectOpen | objectClose | colon
      | comma => cases hstep
  | finish value =>
      match stack with
      | [] => cases hstep
      | .elements l :: stack =>
          obtain ⟨⟨token, rest⟩, hread, hstep⟩ := Option.bind_eq_some_iff.mp hstep
          refine Option.bind_eq_some_iff.mpr
            ⟨(token, rest ++ tail), advanceTo_stable _ _ _ _ _ htail hread, ?_⟩
          cases token with
          | comma =>
              obtain ⟨⟨token, rest'⟩, hread', hreturn⟩ := Option.bind_eq_some_iff.mp hstep
              cases hreturn
              exact Option.bind_eq_some_iff.mpr
                ⟨(token, rest' ++ tail), advance_stable engine _ _ _ _ htail hread', rfl⟩
          | string _ | number _ | true | false | null | arrayOpen | arrayClose | objectOpen
          | objectClose | colon =>
              cases hstep
              rfl
      | .properties [] :: stack => cases hstep
      | .properties ((id, _) :: l) :: stack =>
          obtain ⟨⟨token, rest⟩, hread, hstep⟩ := Option.bind_eq_some_iff.mp hstep
          refine Option.bind_eq_some_iff.mpr
            ⟨(token, rest ++ tail), advanceTo_stable _ _ _ _ _ htail hread, ?_⟩
          cases token with
          | comma =>
              obtain ⟨⟨token, rest'⟩, hread', hreturn⟩ := Option.bind_eq_some_iff.mp hstep
              cases hreturn
              exact Option.bind_eq_some_iff.mpr
                ⟨(token, rest' ++ tail), advancePropertyName_stable _ _ _ _ htail hread', rfl⟩
          | string _ | number _ | true | false | null | arrayOpen | arrayClose | objectOpen
          | objectClose | colon =>
              cases hstep
              rfl

/-- The parser gets from one state to another. -/
def Runs : ParserState → ParserState → Prop :=
  Relation.ReflTransGen fun s s' => step engine s = some s'

theorem runs_within {s s' : ParserState} {tail : JSString} (base : List StackEntry)
    (htail : Closes tail) (hruns : Runs engine s s') :
    Runs engine (s.within base tail) (s'.within base tail) :=
  hruns.lift (ParserState.within base tail) fun _ _ => step_within engine base htail

theorem runs_of_parseLoop {fuel : ℕ} {s : ParserState} {h : JSHeap} {v : Value} {rest : JSString}
    (hrun : parseLoop engine fuel s = some (h, v, rest)) :
    Runs engine s ⟨.finish v, h, [], rest⟩ := by
  have hvalue : ∀ {s : ParserState} {value : Value}, s.value? = some value →
      s = ⟨.finish value, s.heap, [], s.current⟩ := by
    intro s value hs
    rw [ParserState.value?.eq_def] at hs
    split at hs
    · cases hs
      rfl
    · cases hs
  induction fuel generalizing s with
  | zero =>
      rw [parseLoop] at hrun
      split at hrun
      · next hs =>
          cases hrun
          rw [hvalue hs]
          exact .refl
      · cases hrun
  | succ fuel ih =>
      rw [parseLoop] at hrun
      split at hrun
      · next hs =>
          cases hrun
          rw [hvalue hs]
          exact .refl
      · obtain ⟨s', hstep, hrun⟩ := Option.bind_eq_some_iff.mp hrun
        exact .head hstep (ih hrun)

/-- A loop that has ended does not need more fuel. -/
theorem parseLoop_mono {fuel fuel' : ℕ} {s : ParserState} {r : JSHeap × Value × JSString}
    (hrun : parseLoop engine fuel s = some r) (hle : fuel ≤ fuel') :
    parseLoop engine fuel' s = some r := by
  induction fuel generalizing fuel' s with
  | zero =>
      rw [parseLoop] at hrun
      split at hrun
      · next hs =>
          cases fuel' <;> rw [parseLoop, hs] <;> exact hrun
      · cases hrun
  | succ fuel ih =>
      obtain ⟨fuel', rfl⟩ : ∃ n, fuel' = n + 1 := ⟨fuel' - 1, by omega⟩
      rw [parseLoop] at hrun ⊢
      split at hrun
      · exact hrun
      · obtain ⟨s', hstep, hrun⟩ := Option.bind_eq_some_iff.mp hrun
        exact Option.bind_eq_some_iff.mpr ⟨s', hstep, ih hrun (by omega)⟩

theorem parseLoop_of_runs {s : ParserState} {h : JSHeap} {v : Value} {rest : JSString}
    (hruns : Runs engine s ⟨.finish v, h, [], rest⟩) :
    ∃ fuel, parseLoop engine fuel s = some (h, v, rest) := by
  induction hruns using Relation.ReflTransGen.head_induction_on with
  | refl => exact ⟨0, rfl⟩
  | @head s s' hstep _ ih =>
      obtain ⟨fuel, hrun⟩ := ih
      refine ⟨fuel + 1, ?_⟩
      have hvalue : s.value? = none := by
        rw [ParserState.value?.eq_def]
        split
        · cases hstep
        · rfl
      rw [parseLoop, hvalue]
      exact Option.bind_eq_some_iff.mpr ⟨s', hstep, hrun⟩

/-! ### The texts of values -/

/-- Nothing but whitespace. -/
def Blank (s : JSString) : Prop := ∀ c ∈ s, isJSONWhitespace c = Bool.true

instance (s : JSString) : Decidable (Blank s) :=
  decidable_of_iff (s.all isJSONWhitespace = Bool.true) List.all_eq_true

/-- The text of a value: wherever it stands, the parser goes over it and has the value. -/
def Denotes (text : JSString) (h h' : JSHeap) (v : Value) : Prop :=
  ∀ stack tail, Closes tail → ∃ token current,
    advance engine (text ++ tail) = some (token, current) ∧
    ∃ blank, Blank blank ∧
      Runs engine ⟨.switch token, h, stack, current⟩ ⟨.finish v, h', stack, blank ++ tail⟩

theorem skipWhitespace_blank {blank : JSString} (hblank : Blank blank) (s : JSString) :
    skipWhitespace (blank ++ s) = skipWhitespace s := List.dropWhile_append_of_pos hblank

theorem blank_of_skipWhitespace {s : JSString} (h : (skipWhitespace s).isEmpty = Bool.true) :
    Blank s := List.dropWhile_eq_nil_iff.mp (List.isEmpty_iff.mp h)

/-- A text is that of a value just if it has the value on its own. -/
theorem denotes_iff_parse {text : JSString} {h h' : JSHeap} {v : Value} :
    Denotes engine text h h' v ↔ parse engine text h = some (h', v) := by
  constructor
  · intro hdenotes
    obtain ⟨token, current, hread, blank, hblank, hruns⟩ := hdenotes [] [] nofun
    rw [List.append_nil] at hread hruns
    obtain ⟨fuel, hrun⟩ := parseLoop_of_runs engine hruns
    have hmore : parseLoop engine (max fuel (2 * text.length)) ⟨.switch token, h, [], current⟩ =
        some (h', v, blank) := by
      refine (parseLoop_mono engine hrun (le_max_left _ _))
    rw [parseLoop_enough engine hread (le_max_right _ _)] at hmore
    refine Option.bind_eq_some_iff.mpr ⟨_, hread, Option.bind_eq_some_iff.mpr ⟨_, hmore, ?_⟩⟩
    dsimp only
    rw [← List.append_nil blank, skipWhitespace_blank hblank]
    rfl
  · intro hparse stack tail htail
    obtain ⟨⟨token, current⟩, hread, hparse⟩ := Option.bind_eq_some_iff.mp hparse
    obtain ⟨⟨h₁, v₁, rest⟩, hrun, hparse⟩ := Option.bind_eq_some_iff.mp hparse
    dsimp only at hparse
    split at hparse
    · next hend =>
        cases hparse
        have hruns := runs_within engine stack htail (runs_of_parseLoop engine hrun)
        exact ⟨token, current ++ tail, advance_stable engine _ _ _ _ htail hread, rest,
          blank_of_skipWhitespace hend, hruns⟩
    · cases hparse

/-! ### Rules -/

section

variable {engine} {text tail blank : JSString} {h h' : JSHeap} {v : Value}

theorem closes_blank (hblank : Blank blank) (htail : Closes tail) : Closes (blank ++ tail) := by
  cases blank with
  | nil => exact htail
  | cons c blank =>
      intro c' hc'
      obtain rfl : c = c' := by simpa using hc'
      have hspace : isJSONWhitespace c = Bool.true := hblank c List.mem_cons_self
      simp only [isJSONWhitespace, Bool.or_eq_true, decide_eq_true_eq] at hspace
      obtain ((rfl | rfl) | rfl) | rfl := hspace <;> decide

theorem Blank.append {blank' : JSString} (hblank : Blank blank) (hblank' : Blank blank') :
    Blank (blank ++ blank') := by
  intro c hc
  exact (List.mem_append.mp hc).elim (hblank c) (hblank' c)

theorem advance_blank (hblank : Blank blank) (s : JSString) :
    advance engine (blank ++ s) = advance engine s := by
  rw [advance, advance, skipWhitespace_blank hblank]

theorem Denotes.blank_before (ht : Denotes engine text h h' v) (hblank : Blank blank) :
    Denotes engine (blank ++ text) h h' v := by
  intro stack tail htail
  rw [List.append_assoc, advance_blank hblank]
  exact ht stack tail htail

theorem Denotes.blank_after (ht : Denotes engine text h h' v) (hblank : Blank blank) :
    Denotes engine (text ++ blank) h h' v := by
  intro stack tail htail
  rw [List.append_assoc]
  obtain ⟨token, current, hread, blank', hblank', hruns⟩ :=
    ht stack (blank ++ tail) (closes_blank hblank htail)
  refine ⟨token, current, hread, blank' ++ blank, hblank'.append hblank, ?_⟩
  rwa [List.append_assoc]

/-- A token that is a value of its own. -/
theorem denotes_token (token : Token) (htoken : ∀ tail, Closes tail →
      advance engine (text ++ tail) = some (token, tail))
    (hstep : ∀ stack current, step engine ⟨.switch token, h, stack, current⟩ =
      some ⟨.finish v, h, stack, current⟩) : Denotes engine text h h v := by
  intro stack tail htail
  exact ⟨token, tail, htoken tail htail, [], nofun, .single (hstep stack tail)⟩

/-! ### Strings -/

theorem hexDigit_unhex {n : ℕ} (hn : n < 16) : isHex (hexDigit n) = Bool.true ∧
    unhex (hexDigit n) = n := by
  have hall : ∀ n : Fin 16, isHex (hexDigit n) = Bool.true ∧ unhex (hexDigit n) = n := by decide
  exact hall ⟨n, hn⟩

/-- An escape of one letter. -/
theorem readString_escaped {e u : UInt16} {s current rest : JSString} (he : escaped e = some u)
    (hne : e ≠ 117) (hread : readString current = some (s, rest)) :
    readString (92 :: e :: current) = some (u :: s, rest) := by
  rw [readString.eq_def]
  simp only [if_neg (by decide : (92 : UInt16) ≠ 34), if_true, hne, if_false, he, hread]
  rfl

/-- A character in quotes is read as the character, whatever follows. -/
theorem readString_jsonUnit {c : UInt16} {s current rest : JSString}
    (hread : readString current = some (s, rest)) :
    readString (jsonUnit c ++ current) = some (c :: s, rest) := by
  rw [jsonUnit]
  split_ifs with h₁ h₂ h₃ h₄ h₅ h₆ h₇ h₈
  · subst h₁
    exact readString_escaped rfl (by decide) hread
  · subst h₂
    exact readString_escaped rfl (by decide) hread
  · subst h₃
    exact readString_escaped rfl (by decide) hread
  · subst h₄
    exact readString_escaped rfl (by decide) hread
  · subst h₅
    exact readString_escaped rfl (by decide) hread
  · subst h₆
    exact readString_escaped rfl (by decide) hread
  · subst h₇
    exact readString_escaped rfl (by decide) hread
  · have hlt : c.toNat < 32 := UInt16.lt_iff_toNat_lt.mp h₈
    obtain ⟨hhex, hunhex⟩ := hexDigit_unhex (n := c.toNat / 16) (by omega)
    obtain ⟨hhex', hunhex'⟩ := hexDigit_unhex (Nat.mod_lt c.toNat (by decide : 0 < 16))
    change readString (92 :: 117 :: 48 :: 48 :: hexDigit (c.toNat / 16) ::
      hexDigit (c.toNat % 16) :: current) = _
    have hunit : (unhex 48 <<< 12) ||| (unhex 48 <<< 8) ||| ((c.toNat / 16) <<< 4) |||
        c.toNat % 16 = c.toNat := by
      have hall : ∀ n : Fin 32, (unhex 48 <<< 12) ||| (unhex 48 <<< 8) |||
          ((n.val / 16) <<< 4) ||| n.val % 16 = n.val := by decide
      exact hall ⟨c.toNat, hlt⟩
    rw [readString, hread, hhex, hhex', hunhex, hunhex', hunit]
    simp [isHex, isDec]
  · have hcontrol : ¬ c ≤ 0x1F := by
      rw [UInt16.le_iff_toNat_le]
      have hle : ¬ c.toNat < 32 := fun hlt => h₈ (UInt16.lt_iff_toNat_lt.mpr hlt)
      exact fun hle' => hle (Nat.lt_succ_of_le hle')
    change readString (c :: current) = _
    rw [readString.eq_def]
    simp only [h₁, h₂, hcontrol, if_false, hread]
    rfl

theorem readString_quoted (s rest : JSString) :
    readString (s.flatMap jsonUnit ++ 34 :: rest) = some (s, rest) := by
  induction s with
  | nil =>
      change readString (34 :: rest) = _
      rw [readString.eq_def]
      rfl
  | cons c s ih =>
      rw [List.flatMap_cons, List.append_assoc]
      exact readString_jsonUnit ih

/-- `Quote` -/
def quote (s : JSString) : JSString := 34 :: (s.flatMap jsonUnit ++ [34])

theorem advance_quote (s tail : JSString) :
    advance engine (quote s ++ tail) = some (.string s, tail) := by
  have hquote : quote s ++ tail = 34 :: (s.flatMap jsonUnit ++ 34 :: tail) := by simp [quote]
  rw [hquote, advance]
  change (do
    let (s, current) ← readString (s.flatMap jsonUnit ++ 34 :: tail)
    return (Token.string s, current)) = _
  rw [readString_quoted]
  rfl

/-- What `Quote` makes of a string is read as the string. -/
theorem denotes_quote (s : JSString) (h : JSHeap) :
    Denotes engine (quote s) h h (Js.string s) :=
  denotes_token (.string s) (fun tail _ => advance_quote s tail) fun _ _ => rfl

/-! ### Words -/

theorem denotes_true (h : JSHeap) : Denotes engine (js "true") h h (boolean Bool.true) :=
  denotes_token .true (fun _ _ => rfl) fun _ _ => rfl

theorem denotes_false (h : JSHeap) : Denotes engine (js "false") h h (boolean Bool.false) :=
  denotes_token .false (fun _ _ => rfl) fun _ _ => rfl

theorem denotes_null (h : JSHeap) : Denotes engine (js "null") h h Js.null :=
  denotes_token .null (fun _ _ => rfl) fun _ _ => rfl

/-! ### Arrays and objects -/

/-- The texts of some values, one after the other. -/
inductive DenotesAll (engine : Engine) : List JSString → JSHeap → JSHeap → List Value → Prop
  | nil (h : JSHeap) : DenotesAll engine [] h h []
  | cons {text : JSString} {texts : List JSString} {h h₁ h' : JSHeap} {v : Value}
      {vs : List Value} (ht : Denotes engine text h h₁ v)
      (hts : DenotesAll engine texts h₁ h' vs) : DenotesAll engine (text :: texts) h h' (v :: vs)

/-- The text begins with no token that ends an array. -/
theorem ne_arrayClose {token : Token} {stack : List StackEntry} {current rest : JSString}
    (hruns : Runs engine ⟨.switch token, h, stack, current⟩ ⟨.finish v, h', stack, rest⟩) :
    token ≠ .arrayClose := by
  rintro rfl
  obtain heq | ⟨s, hstep, -⟩ := Relation.ReflTransGen.cases_head hruns
  · cases heq
  · cases hstep

/-- After an element or a property there is a comma or the end. -/
theorem closes_list {α : Type} (l : List α) (f : α → JSString) {c : UInt16}
    (hc : c = 93 ∨ c = 125) (tail : JSString) : Closes (l.flatMap (44 :: f ·) ++ c :: tail) := by
  intro c' hc'
  cases l with
  | nil =>
      obtain rfl : c = c' := by simpa using hc'
      obtain rfl | rfl := hc <;> decide
  | cons a l =>
      obtain rfl : 44 = c' := by simpa using hc'
      decide

/-- The parser goes on to the end of an array from one of its elements. -/
theorem runs_elements {texts : List JSString} {vs : List Value}
    (hts : DenotesAll engine texts h h' vs) : ∀ {l : List Value} {v : Value} {blank : JSString},
      Blank blank → ∀ stack tail,
        Runs engine
          ⟨.finish v, h, .elements l :: stack,
            blank ++ (texts.flatMap (44 :: ·) ++ 93 :: tail)⟩
          ⟨.finish (.ref h'.next), h'.alloc (.array (l ++ v :: vs)), stack, tail⟩ := by
  induction hts with
  | nil h =>
      intro l v blank hblank stack tail
      refine .single ?_
      rw [step, advanceAfterArrayElement, advanceTo, skipWhitespace_blank hblank]
      rfl
  | @cons text texts h h₁ h' v' vs ht hts ih =>
      intro l v blank hblank stack tail
      have hcloses : Closes (texts.flatMap (44 :: ·) ++ 93 :: tail) :=
        closes_list texts id (Or.inl rfl) tail
      obtain ⟨token, current, hread, blank', hblank', hruns⟩ :=
        ht (.elements (l ++ [v]) :: stack) _ hcloses
      refine .head (b := ⟨.switch token, h, .elements (l ++ [v]) :: stack, current⟩) ?_
        (hruns.trans ?_)
      · rw [step, advanceAfterArrayElement, advanceTo, skipWhitespace_blank hblank,
          List.flatMap_cons, List.cons_append, List.cons_append, List.append_assoc]
        change (advance engine (text ++ (texts.flatMap (44 :: ·) ++ 93 :: tail))).bind (fun r =>
          some (⟨.switch r.1, h, .elements (l ++ [v]) :: stack, r.2⟩ : ParserState)) = _
        rw [hread]
        rfl
      · have hrest := ih (l := l ++ [v]) (v := v') hblank' stack tail
        rwa [List.append_assoc] at hrest

/-- The text of an array, from those of its elements. -/
def arrayText : List JSString → JSString
  | [] => [91, 93]
  | text :: texts => 91 :: (text ++ (texts.flatMap (44 :: ·) ++ [93]))

theorem denotes_array {texts : List JSString} {vs : List Value}
    (hts : DenotesAll engine texts h h' vs) :
    Denotes engine (arrayText texts) h (h'.alloc (.array vs)) (.ref h'.next) := by
  intro stack tail htail
  cases hts with
  | nil h => exact ⟨.arrayOpen, 93 :: tail, rfl, [], nofun, .single rfl⟩
  | @cons text texts h h₁ h' v vs ht hts =>
      have hcloses : Closes (texts.flatMap (44 :: ·) ++ 93 :: tail) :=
        closes_list texts id (Or.inl rfl) tail
      obtain ⟨token, current, hread, blank, hblank, hruns⟩ :=
        ht (.elements [] :: stack) _ hcloses
      have hclose := ne_arrayClose hruns
      refine ⟨.arrayOpen, text ++ (texts.flatMap (44 :: ·) ++ 93 :: tail), ?_, [], nofun,
        .head (b := ⟨.switch token, h, .elements [] :: stack, current⟩) ?_
          (hruns.trans (runs_elements hts hblank stack tail))⟩
      · rw [arrayText, List.cons_append, List.append_assoc, List.append_assoc]
        rfl
      · rw [step, hread]
        cases token with
        | arrayClose => exact absurd rfl hclose
        | string _ | number _ | true | false | null | arrayOpen | objectOpen | objectClose | colon
        | comma => rfl

/-- A property in the text of an object, with the whitespace before its name. -/
structure Member where
  blank : JSString
  key : JSString
  text : JSString

def Member.toText (m : Member) : JSString := m.blank ++ (quote m.key ++ 58 :: m.text)

/-- The texts of some properties, one after the other. -/
inductive DenotesMembers (engine : Engine) :
    List Member → JSHeap → JSHeap → List (JSString × Value) → Prop
  | nil (h : JSHeap) : DenotesMembers engine [] h h []
  | cons {m : Member} {ms : List Member} {h h₁ h' : JSHeap} {v : Value}
      {properties : List (JSString × Value)} (hblank : Blank m.blank)
      (ht : Denotes engine m.text h h₁ v) (hms : DenotesMembers engine ms h₁ h' properties) :
      DenotesMembers engine (m :: ms) h h' ((m.key, v) :: properties)

theorem skipWhitespace_quote (hblank : Blank blank) (s tail : JSString) :
    skipWhitespace (blank ++ (quote s ++ tail)) = 34 :: (s.flatMap jsonUnit ++ 34 :: tail) := by
  rw [skipWhitespace_blank hblank]
  simp only [quote, List.cons_append, List.append_assoc, List.nil_append]
  rfl

theorem advancePropertyName_quote (hblank : Blank blank) (s tail : JSString) :
    advancePropertyName (blank ++ (quote s ++ tail)) = some (.string s, tail) := by
  rw [advancePropertyName, skipWhitespace_quote hblank]
  dsimp only
  rw [if_pos rfl, readString_quoted]
  rfl

theorem advanceAfterObjectOpen_quote (hblank : Blank blank) (s tail : JSString) :
    advanceAfterObjectOpen (blank ++ (quote s ++ tail)) = some (.string s, tail) := by
  rw [advanceAfterObjectOpen, skipWhitespace_quote hblank]
  dsimp only
  rw [if_pos rfl, readString_quoted]
  rfl

/-- From the colon after its name, a property is parsed to its value. -/
theorem runs_member (ht : Denotes engine text h h' v) (key : JSString)
    (l : List (JSString × Value)) (stack : List StackEntry) (htail : Closes tail) :
    ∃ blank, Blank blank ∧
      Runs engine ⟨.member (.string key), h, .properties l :: stack, 58 :: (text ++ tail)⟩
        ⟨.finish v, h', .properties ((key, undefined) :: l) :: stack, blank ++ tail⟩ := by
  obtain ⟨token, current, hread, blank, hblank, hruns⟩ :=
    ht (.properties ((key, undefined) :: l) :: stack) tail htail
  refine ⟨blank, hblank, Relation.ReflTransGen.head ?_ hruns⟩
  change (advance engine (text ++ tail)).bind (fun r =>
    some (⟨.switch r.1, h, .properties ((key, undefined) :: l) :: stack, r.2⟩ : ParserState)) = _
  rw [hread]
  rfl

/-- The parser goes on to the end of an object from the value of one of its properties. -/
theorem runs_properties {ms : List Member} {properties : List (JSString × Value)}
    (hms : DenotesMembers engine ms h h' properties) :
    ∀ {key : JSString} {u v : Value} {l : List (JSString × Value)} {blank : JSString},
      Blank blank → ∀ stack tail,
        Runs engine
          ⟨.finish v, h, .properties ((key, u) :: l) :: stack,
            blank ++ (ms.flatMap (44 :: Member.toText ·) ++ 125 :: tail)⟩
          ⟨.finish (.ref h'.next),
            h'.alloc (createFinishedObject engine (properties.reverse ++ (key, v) :: l)), stack,
            tail⟩ := by
  induction hms with
  | nil h =>
      intro key u v l blank hblank stack tail
      refine .single ?_
      rw [step, advanceAfterProperty, advanceTo, skipWhitespace_blank hblank]
      rfl
  | @cons m ms h h₁ h' v' properties hblank' ht hms ih =>
      intro key u v l blank hblank stack tail
      obtain ⟨blank'', hblank'', hruns⟩ := runs_member ht m.key ((key, v) :: l) stack
        (closes_list ms Member.toText (Or.inr rfl) tail)
      refine .head (b := ⟨.member (.string m.key), h, .properties ((key, v) :: l) :: stack,
        58 :: (m.text ++ (ms.flatMap (44 :: Member.toText ·) ++ 125 :: tail))⟩) ?_ (hruns.trans ?_)
      · rw [step, advanceAfterProperty, advanceTo, skipWhitespace_blank hblank,
          List.flatMap_cons, List.cons_append, List.cons_append, List.append_assoc, Member.toText,
          List.append_assoc, List.append_assoc, List.cons_append]
        change (advancePropertyName (m.blank ++ (quote m.key ++
            58 :: (m.text ++ (ms.flatMap (44 :: Member.toText ·) ++ 125 :: tail))))).bind (fun r =>
          some (⟨.member r.1, h, .properties ((key, v) :: l) :: stack, r.2⟩ : ParserState)) = _
        rw [advancePropertyName_quote hblank']
        rfl
      · rw [List.reverse_cons, List.append_assoc]
        exact ih hblank'' stack tail

/-- The text of an object, from those of its properties. -/
def objectText : List Member → JSString
  | [] => [123, 125]
  | m :: ms => 123 :: (m.toText ++ (ms.flatMap (44 :: Member.toText ·) ++ [125]))

/-- An object without properties, with some whitespace in it. -/
theorem denotes_emptyObject (hblank : Blank blank) (h : JSHeap) :
    Denotes engine (123 :: (blank ++ [125])) h (h.alloc (createFinishedObject engine []))
      (.ref h.next) := by
  intro stack tail htail
  refine ⟨.objectOpen, blank ++ 125 :: tail, ?_, [], nofun, .single ?_⟩
  · rw [List.cons_append, List.append_assoc]
    rfl
  · rw [step, advanceAfterObjectOpen, skipWhitespace_blank hblank]
    rfl

theorem denotes_object {ms : List Member} {properties : List (JSString × Value)}
    (hms : DenotesMembers engine ms h h' properties) :
    Denotes engine (objectText ms) h
      (h'.alloc (createFinishedObject engine properties.reverse)) (.ref h'.next) := by
  cases hms with
  | nil h => exact denotes_emptyObject (show Blank [] from nofun) h
  | @cons m ms h h₁ h' v properties hblank ht hms =>
      intro stack tail htail
      obtain ⟨blank, hblank', hruns⟩ := runs_member ht m.key [] stack
        (closes_list ms Member.toText (Or.inr rfl) tail)
      refine ⟨.objectOpen,
        m.toText ++ (ms.flatMap (44 :: Member.toText ·) ++ 125 :: tail), ?_, [], nofun,
        .head (b := ⟨.member (.string m.key), h, .properties [] :: stack,
          58 :: (m.text ++ (ms.flatMap (44 :: Member.toText ·) ++ 125 :: tail))⟩) ?_
          (hruns.trans ?_)⟩
      · rw [objectText, List.cons_append, List.append_assoc, List.append_assoc]
        rfl
      · rw [step, Member.toText, List.append_assoc, List.append_assoc, List.cons_append,
          advanceAfterObjectOpen_quote hblank]
        rfl
      · rw [List.reverse_cons]
        exact runs_properties hms hblank' stack tail

end

end MetaMonkey.Js.JSONParser
