import MetaMonkey.Visualizer.ExprTexts

/-!
The texts of lists, with commas between the texts of their members.
-/

namespace MetaMonkey.Visualizer

open Js
open Frontend (Punct Keyword)

variable {L : Letters}

/-! ### Visits of lists -/

section

variable {α : Type} {f : α → Visit Shown} {g : List α → Visit (List Shown)}
  {P : α → Shown → Prop}

/-- A function that visits the members of a list in their order. -/
theorem gives_each (hnil : g [] = pure [])
    (hcons : ∀ a as, g (a :: as) = do let shown ← f a; return shown :: (← g as)) :
    ∀ as, (∀ a ∈ as, Gives (f a) (P a)) → Gives (g as) (List.Forall₂ P as)
  | [], _ => by
      rw [hnil]
      exact gives_pure .nil
  | a :: as, h => by
      rw [hcons]
      refine .bind (h a List.mem_cons_self) fun r hr => ?_
      refine .bind (gives_each hnil hcons as fun b hb => h b (List.mem_cons_of_mem a hb))
        fun rs hrs => ?_
      exact gives_pure (.cons hr hrs)

end

/-! ### Texts with commas -/

/-- The tokens of the members with commas between them. -/
def commas : List (List Token) → List Token
  | [] => []
  | ts :: tss => ts ++ separated (commas tss)

/-- What is put between the texts of the members is a comma. -/
structure IsSeparator (L : Letters) (separator : String) : Prop where
  lexes : ∀ {s : JSString} {ts : List Token}, Lexes L false s ts →
    Lexes L false (js separator ++ s) (.punct .comma :: ts)
  follows : ∀ s, Follows L false (js separator ++ s)

theorem isSeparator_comma : IsSeparator L "," :=
  ⟨fun h => .delimiter (p := .comma) rfl h, fun _ => follows_punct (p := .comma) rfl⟩

theorem isSeparator_commaSpace : IsSeparator L ", " :=
  ⟨fun h => .spacedPunct (p := .comma) h,
    fun s => follows_punct (p := .comma) rfl (s := js " " ++ s)⟩

/-- The visitor has returned a text with tokens that `P` holds of. -/
def Member (L : Letters) (P : List Token → Prop) (r : Shown) : Prop :=
  ∃ s ts, r = some s ∧ Spells L false s ts ∧ ts ≠ [] ∧ P ts

theorem join_singleton (separator : String) (s : JSString) : join separator [some s] = s := by
  simp [join]

theorem join_cons_cons (separator : String) (s : JSString) (r : Shown) (rs : List Shown) :
    join separator (some s :: r :: rs) = s ++ (js separator ++ join separator (r :: rs)) := by
  simp [join, List.intercalate_cons_cons]

theorem commas_ne_nil {ts : List Token} (hts : ts ≠ []) (tss : List (List Token)) :
    commas (ts :: tss) ≠ [] := by
  simp [commas, hts]

theorem separated_of_ne_nil {ts : List Token} (h : ts ≠ []) :
    separated ts = .punct .comma :: ts := by
  simp [separated, h]

section

variable {α : Type} {P : α → List Token → Prop} {separator : String}

/-- The tokens of a joined text. -/
theorem lexes_join (hsep : IsSeparator L separator) {as : List α} {rs : List Shown}
    (h : List.Forall₂ (fun a r => Member L (P a) r) as rs) :
    ∃ tss, List.Forall₂ (fun a ts => ts ≠ [] ∧ P a ts) as tss ∧
      ∀ {newline : Bool} {r : JSString} {us : List Token}, (newline = true → as ≠ []) →
        Follows L false r → Lexes L false r us →
        Lexes L newline (join separator rs ++ r) (commas tss ++ us) := by
  induction h with
  | nil => exact ⟨[], .nil, fun hnewline _ h => h.anyLine fun h => absurd rfl (hnewline h)⟩
  | cons hr hrs ih =>
      obtain ⟨s, ts, rfl, hspells, hne, hP⟩ := hr
      obtain ⟨tss, hforall, hlexes⟩ := ih
      refine ⟨ts :: tss, .cons ⟨hne, hP⟩ hforall, fun _ hfollows h => ?_⟩
      cases hrs with
      | nil =>
          cases hforall
          rw [join_singleton, commas, commas, separated, List.isEmpty_nil, if_pos rfl,
            List.append_nil]
          exact hspells.lexes hfollows h
      | cons hr' hrs' =>
          cases hforall with
          | cons hts htss =>
              rw [join_cons_cons, commas, separated_of_ne_nil (commas_ne_nil hts.1 _),
                List.append_assoc, List.append_assoc, List.append_assoc, List.cons_append]
              exact hspells.lexes (hsep.follows _) (hsep.lexes (hlexes nofun hfollows h))

end

/-! ### Lists read -/

/-- The tokens of an expression between commas. -/
def MemberReads (L : Letters) (e : Expr) (ts : List Token) : Prop :=
  Reads L (.expr 1 true e) ts ∧ OpensAs e.opener ts

theorem members_of_shows {es : List Expr} {rs : List Shown} (h : List.Forall₂ (Shows L) es rs)
    (hlevel : ∀ e ∈ es, 1 ≤ e.level) :
    List.Forall₂ (fun e r => Member L (MemberReads L e) r) es rs := by
  induction h with
  | nil => exact .nil
  | cons he _ ih =>
      rw [List.forall_mem_cons] at hlevel
      obtain ⟨s, ts, rfl, htells⟩ := he
      exact .cons ⟨s, ts, rfl, htells.spells.weaken, htells.opens.ne_nil,
        htells.anywhere hlevel.1, htells.opens⟩ (ih hlevel.2)

section

variable {tss : List (List Token)}

theorem reads_exprs {es : List Expr}
    (h : List.Forall₂ (fun e ts => ts ≠ [] ∧ MemberReads L e ts) es tss) :
    Reads L (.exprs es) (commas tss) := by
  induction h with
  | nil => exact .noExprs
  | cons he _ ih => exact .exprs he.2.1 ih

theorem reads_elements {es : List Expr}
    (h : List.Forall₂ (fun e ts => ts ≠ [] ∧ MemberReads L e ts) es tss) :
    Reads L (.elements (es.map some)) (commas tss) := by
  induction h with
  | nil => exact .noElements
  | @cons e ts es tss he hes ih =>
      cases hes with
      | nil =>
          rw [commas, commas, separated, List.isEmpty_nil, if_pos rfl, List.append_nil]
          exact .lastElement he.2.1
      | cons he' hes' =>
          rw [commas, separated_of_ne_nil (commas_ne_nil he'.1 _)]
          exact .element he.2.1 ih

theorem reads_properties {xs : List Property}
    (h : List.Forall₂ (fun x ts => ts ≠ [] ∧ Reads L (.property x) ts) xs tss) :
    Reads L (.properties xs) (commas tss) := by
  induction h with
  | nil => exact .noProperties
  | cons hx _ ih => exact .properties hx.2 ih

theorem reads_declarators {ds : List Declarator}
    (h : List.Forall₂ (fun d ts => ts ≠ [] ∧ Reads L (.declarator d) ts) ds tss) :
    Reads L (.declarators ds) (commas tss) := by
  induction h with
  | nil => exact .noDeclarators
  | cons hd _ ih => exact .declarators hd.2 ih

theorem reads_formals {ws : List JSString}
    (h : List.Forall₂ (fun w ts => ts ≠ [] ∧ L.isName w = true ∧ ts = [.word w]) ws tss) :
    Reads L (.formals ws [] none) (commas tss) := by
  induction h with
  | nil => exact .noFormals
  | cons hw _ ih =>
      obtain ⟨-, hname, rfl⟩ := hw
      exact .formal hname (Nat.zero_le _) ih

end

end MetaMonkey.Visualizer
