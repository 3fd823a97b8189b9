import MetaMonkey.Frontend.LayoutText
import MetaMonkey.Frontend.LayoutTokens

/-!
Which pieces fit after which: no piece that the layouts of trees have there runs into
the one before it, but a word into a word.
-/

namespace MetaMonkey.Frontend

open Js Layout

/-- The punctuators that begin no longer one. -/
def Punct.delimits : Punct → Bool
  | .lp | .rp | .lb | .rb | .lc | .rc | .comma | .semi | .colon | .hook | .inc | .bitnot => true
  | _ => false

theorem followers_delimits {p : Punct} (h : p.delimits = true) : followers p = [] := by
  cases p <;> first | decide | simp [Punct.delimits] at h

/-- The pieces that any other may follow. -/
def Piece.free : Piece → Bool
  | .space | .lexeme .eol => true
  | .lexeme (.punct p) => p.delimits
  | .lexeme (.word _) => false

def Punct.closes : Punct → Bool
  | .lp | .rp | .lb | .rb | .rc | .comma | .semi | .colon | .hook | .inc | .dec | .dot => true
  | _ => false

/-- The pieces that may follow the last one of an expression. -/
def Piece.closes : Piece → Bool
  | .space | .lexeme .eol => true
  | .lexeme (.punct p) => p.closes
  | .lexeme (.word _) => false

@[simp] theorem sound_space : Piece.space.Sound := trivial

@[simp] theorem sound_eol : eol.Sound := trivial

@[simp] theorem sound_punct (p : Punct) : (punct p).Sound := trivial

@[simp] theorem sound_keyword (k : Keyword) : (keyword k).Sound := isWordText_keyword k

@[simp] theorem sound_word (w : JSString) : (word w).Sound ↔ isWordText w = true := Iff.rfl

/-- Nothing makes a free piece longer. -/
theorem Piece.before_of_free {b : Piece} (h : b.free = true) (s : JSString) : b.Before s := by
  match b, h with
  | .space, _ => trivial
  | .lexeme .eol, _ => trivial
  | .lexeme (.punct p), h =>
      intro c _
      rw [followers_delimits h]
      simp

@[simp] theorem free_pieces : Piece.space.free = true ∧ eol.free = true ∧
    (punct .lp).free = true ∧ (punct .rp).free = true ∧ (punct .lb).free = true ∧
    (punct .rb).free = true ∧ (punct .lc).free = true ∧ (punct .rc).free = true ∧
    (punct .comma).free = true ∧ (punct .semi).free = true ∧ (punct .colon).free = true ∧
    (punct .hook).free = true := by
  decide

@[simp] theorem closing_pieces : Piece.space.closes = true ∧ eol.closes = true ∧
    (punct .lp).closes = true ∧ (punct .rp).closes = true ∧ (punct .lb).closes = true ∧
    (punct .rb).closes = true ∧ (punct .rc).closes = true ∧ (punct .comma).closes = true ∧
    (punct .semi).closes = true ∧ (punct .colon).closes = true ∧ (punct .hook).closes = true ∧
    (punct .dot).closes = true := by
  decide

section

variable {g : Prop} {a b : Piece} {ps qs : List Piece}

theorem fits_of_free (h : a.free = true) : Fits g a b ↔ b.Sound := by
  refine ⟨And.left, fun hb => ⟨hb, ?_⟩⟩
  match a, h with
  | .space, _ => trivial
  | .lexeme .eol, _ => trivial
  | .lexeme (.punct p), h =>
      intro c _
      rw [followers_delimits h]
      simp

@[simp] theorem space_fits : Fits g .space b ↔ b.Sound := fits_of_free rfl

@[simp] theorem eol_fits : Fits g eol b ↔ b.Sound := fits_of_free rfl

@[simp] theorem punct_fits {p : Punct} (h : (punct p).free = true) :
    Fits g (punct p) b ↔ b.Sound := fits_of_free h

@[simp] theorem word_fits_punct {w : JSString} {p : Punct} : Fits g (word w) (punct p) :=
  ⟨trivial, trivial⟩

@[simp] theorem keyword_fits_punct {k : Keyword} {p : Punct} : Fits g (keyword k) (punct p) :=
  ⟨trivial, trivial⟩

@[simp] theorem fits_space : Fits g a .space := by
  refine ⟨trivial, ?_⟩
  match a with
  | .space => trivial
  | .lexeme .eol => trivial
  | .lexeme (.word _) => trivial
  | .lexeme (.punct p) =>
      intro c hc
      obtain rfl : 32 = c := Option.some.inj hc
      cases p <;> decide

@[simp] theorem fits_eol : Fits g a eol := by
  refine ⟨trivial, ?_⟩
  match a with
  | .space => trivial
  | .lexeme .eol => trivial
  | .lexeme (.word _) => trivial
  | .lexeme (.punct p) =>
      intro c hc
      obtain rfl : 10 = c := Option.some.inj hc
      cases p <;> decide

/-- No punctuator is made longer by a letter. -/
theorem fits_punct_word {p : Punct} {w : JSString} :
    Fits g (punct p) (word w) ↔ isWordText w = true := by
  refine ⟨And.left, fun hw => ⟨hw, ?_⟩⟩
  have hnone : ((followers p).all fun c => !isIdentifierStart c) = true := by cases p <;> decide
  have hstart : ∀ c ∈ followers p, isIdentifierStart c = false := by simpa using hnone
  intro c hc hmem
  cases w with
  | nil => simp [isWordText] at hw
  | cons d ds =>
      obtain rfl : d = c := by simpa [word, Piece.text, Lexeme.text] using hc
      simp [isWordText, hstart d hmem] at hw

/-- The last piece of an expression. -/
def Ends (a : Piece) : Prop := ∀ b, b.closes = true → Fits False a b

theorem Ends.fits (h : Ends a) (hb : b.closes = true) : Fits g a b :=
  (h b hb).before_not_word fun w hw => by simp [hw, Piece.closes] at hb

theorem sound_of_closes (h : b.closes = true) : b.Sound := by
  match b, h with
  | .space, _ => trivial
  | .lexeme .eol, _ => trivial
  | .lexeme (.punct p), _ => trivial

theorem ends_of_free (h : a.free = true) : Ends a := fun _ hb =>
  (fits_of_free h).mpr (sound_of_closes hb)

theorem ends_word (w : JSString) : Ends (word w) := by
  intro b hb
  refine ⟨sound_of_closes hb, ?_⟩
  match b, hb with
  | .space, _ => trivial
  | .lexeme .eol, _ => trivial
  | .lexeme (.punct p), _ => trivial

theorem ends_update (op : UpdateOp) : Ends (punct op.punct) := by
  cases op with
  | inc => exact ends_of_free rfl
  | dec =>
      intro b hb
      match b, hb with
      | .space, _ => exact fits_space
      | .lexeme .eol, _ => exact fits_eol
      | .lexeme (.punct p), hb =>
          refine ⟨trivial, fun c hc => ?_⟩
          have hall : ∀ q : Punct, (Piece.lexeme (.punct q)).closes = true →
              ((js q.text).head?.all fun c => decide (c ∉ followers .dec)) = true := by
            intro q
            cases q <;> decide
          have hp := hall p hb
          rw [Option.all_eq_true] at hp
          exact of_decide_eq_true (hp c hc)

/-- The operators before an operand. -/
def isPrefixOp : Punct → Bool
  | .minus | .plus | .not | .bitnot | .inc | .dec => true
  | _ => false

/-- What an expression may come after in a context. -/
def LeadsTo (c : ℕ) (a : Piece) : Prop :=
  a.free = true ∨ 15 ≤ c ∧ ∃ p, isPrefixOp p = true ∧ a = punct p

theorem LeadsTo.mono {c c' : ℕ} (h : LeadsTo c a) (hc : c ≤ c') : LeadsTo c' a :=
  h.imp id fun h => ⟨by omega, h.2⟩

theorem LeadsTo.of_free (h : a.free = true) (c : ℕ) : LeadsTo c a := Or.inl h

theorem LeadsTo.free {c : ℕ} (h : LeadsTo c a) (hc : c ≤ 14) : a.free = true := by
  obtain h | h := h
  · exact h
  · omega

theorem LeadsTo.fits_bracket {c : ℕ} {p : Punct} (h : LeadsTo c a)
    (hp : p = .lp ∨ p = .lb ∨ p = .lc) : Fits g a (punct p) := by
  obtain h | ⟨-, q, hq, rfl⟩ := h
  · exact (fits_of_free h).mpr trivial
  · refine ⟨trivial, ?_⟩
    have hall : ∀ q : Punct, isPrefixOp q = true →
        ((punct p).text.head?.all fun c => decide (c ∉ followers q)) = true := by
      intro q
      obtain rfl | rfl | rfl := hp <;> cases q <;> decide
    intro c hc
    have hq := hall q hq
    rw [Option.all_eq_true] at hq
    exact of_decide_eq_true (hq c hc)

theorem LeadsTo.fits_word {c : ℕ} {w : JSString} (h : LeadsTo c a) :
    Fits g a (word w) ↔ isWordText w = true := by
  obtain h | ⟨-, q, hq, rfl⟩ := h
  · exact fits_of_free h
  · exact fits_punct_word

@[simp] theorem lastPiece_append :
    lastPiece a (ps ++ qs) = lastPiece (lastPiece a ps) qs := by
  induction ps generalizing a with
  | nil => rfl
  | cons b ps ih => exact ih

@[simp] theorem follow_append :
    Follow g a (ps ++ qs) ↔ Follow g a ps ∧ Follow g (lastPiece a ps) qs := by
  induction ps generalizing a with
  | nil => simp
  | cons b ps ih => simp [ih, and_assoc]

/-- After what leads to a context the pieces fit where `P` holds, and the last one is
the end of an expression. -/
def Laid (g : Prop) (c : ℕ) (ps : List Piece) (P : Prop) : Prop :=
  ∀ a, LeadsTo c a → (Follow g a ps ↔ P) ∧ Ends (lastPiece a ps)

/-- After any piece that nothing runs into the pieces fit where `P` holds, and nothing
runs into the last one. -/
def Lines (g : Prop) (ps : List Piece) (P : Prop) : Prop :=
  ∀ a, a.free = true → (Follow g a ps ↔ P) ∧ (lastPiece a ps).free = true

variable {P : Prop} {c : ℕ}

theorem Laid.after_free (h : Laid g c ps P) (ha : a.free = true) : Follow g a ps ↔ P :=
  (h a (.of_free ha c)).1

theorem Laid.last (h : Laid g c ps P) (ha : a.free = true) : Ends (lastPiece a ps) :=
  (h a (.of_free ha c)).2

theorem Laid.closed (h : Laid g c ps P) (ha : a.free = true) (hb : b.closes = true) :
    Fits g (lastPiece a ps) b :=
  (h.last ha).fits hb

theorem Laid.zero (h : Laid g c ps P) : Laid g 0 ps P := fun a ha =>
  h a (ha.mono (Nat.zero_le c))

theorem Laid.follow_parens (h : Laid g c ps P) :
    Follow g a (parens ps) ↔ Fits g a (punct .lp) ∧ P := by
  have hlp : (punct .lp).free = true := rfl
  simp [parens, h.after_free hlp, h.closed hlp (b := punct .rp) rfl]

@[simp] theorem lastPiece_parens : lastPiece a (parens ps) = punct .rp := by
  simp [parens]

/-- The parentheses of a context from a precedence on. -/
theorem Laid.wrapFrom {L : ℕ} (hL : 0 < L) (h : ∀ c < L, Laid g c ps P) :
    Laid g c (Layout.wrapIf (L ≤ c) ps) P := by
  by_cases hc : L ≤ c
  · simp only [hc, decide_true]
    intro a ha
    rw [Layout.wrapIf, if_pos rfl, lastPiece_parens, (h 0 hL).follow_parens]
    exact ⟨and_iff_right (ha.fits_bracket (.inl rfl)), ends_of_free rfl⟩
  · simp only [hc, decide_false]
    exact h c (by omega)

theorem Laid.wrapIf {w : Bool} (h : w = false → Laid g c ps P) (h0 : Laid g 0 ps P) :
    Laid g c (wrapIf w ps) P := by
  cases w with
  | false => exact h rfl
  | true =>
      intro a ha
      rw [Layout.wrapIf, if_pos rfl, lastPiece_parens]
      refine ⟨?_, ends_of_free rfl⟩
      rw [h0.follow_parens]
      exact and_iff_right (ha.fits_bracket (.inl rfl))

theorem Lines.after (h : Lines g ps P) (ha : a.free = true) : Follow g a ps ↔ P := (h a ha).1

theorem Lines.last (h : Lines g ps P) (ha : a.free = true) : (lastPiece a ps).free = true :=
  (h a ha).2

@[simp] theorem follow_spaces {k : ℕ} : Follow g a (spaces k) := by
  induction k generalizing a with
  | zero => exact follow_nil
  | succ k ih => exact follow_cons.mpr ⟨fits_space, ih⟩

theorem free_spaces {k : ℕ} (h : a.free = true) : (lastPiece a (spaces k)).free = true := by
  induction k generalizing a with
  | zero => exact h
  | succ k ih => exact ih rfl

theorem lines_flatten {α : Type} {f : α → List Piece} {P : α → Prop} {xs : List α}
    (h : ∀ x ∈ xs, Lines g (f x) (P x)) : Lines g (xs.map f).flatten (∀ x ∈ xs, P x) := by
  intro a ha
  induction xs generalizing a with
  | nil => simp [ha]
  | cons x xs ih =>
      obtain ⟨hx, hlast⟩ := h x (by simp) a ha
      obtain ⟨hxs, hend⟩ := ih (fun y hy => h y (by simp [hy])) _ hlast
      simp only [List.map_cons, List.flatten_cons, follow_append, lastPiece_append, hx, hxs]
      exact ⟨by simp, hend⟩

theorem laid_separate {α : Type} {f : α → List Piece} {P : α → Prop} {xs : List α}
    {sep : List Piece} (hsep : sep = [punct .comma, .space] ∨ sep = [punct .comma])
    (h : ∀ x ∈ xs, Laid g c (f x) (P x)) :
    Laid g 0 (separate sep (xs.map f)) (∀ x ∈ xs, P x) := by
  intro a ha
  have hfree := ha.free (Nat.zero_le 14)
  induction xs generalizing a with
  | nil => simp [separate, ends_of_free hfree]
  | cons x xs ih =>
      have hx := h x (by simp)
      cases xs with
      | nil => simpa [separate, List.intercalate_singleton] using hx a (.of_free hfree c)
      | cons y xs =>
          -- the separator leads to the next one
          have hsepFree : (lastPiece (lastPiece a (f x)) sep).free = true := by
            obtain rfl | rfl := hsep <;> rfl
          have hcomma : Follow g (lastPiece a (f x)) sep := by
            have hfits := hx.closed hfree (b := punct .comma) rfl
            obtain rfl | rfl := hsep <;> simp [hfits]
          have hrest := ih (fun z hz => h z (by simp [hz])) _ (.of_free hsepFree 0) hsepFree
          rw [List.map_cons, List.map_cons, separate, List.intercalate_cons_cons]
          simp only [separate, List.map_cons] at hrest
          simp only [follow_append, lastPiece_append, hx.after_free hfree, hcomma, hrest.1]
          simpa using hrest.2

/-- The blank between an element of an array and the comma before it. -/
theorem follow_gap (first : Bool) (ha : a.free = true) :
    Follow g a (if first then [] else [.space]) ∧
      (lastPiece a (if first then [] else [.space])).free = true := by
  cases first <;> simp [ha]

theorem laid_arrayElements {α : Type} {f : α → Option (List Piece)} {P : α → Prop} (xs : List α)
    (h : ∀ x ∈ xs, ∀ ps ∈ f x, Laid g c ps (P x)) (hnone : ∀ x ∈ xs, f x = none → P x)
    (first : Bool) : Laid g 0 (arrayElements first (xs.map f)) (∀ x ∈ xs, P x) := by
  intro a ha
  have hfree := ha.free (Nat.zero_le 14)
  clear ha
  have hcomma : (punct .comma).free = true := rfl
  induction xs generalizing a first with
  | nil => simpa [arrayElements] using ends_of_free hfree
  | cons x xs ih =>
      have hxs := ih (fun y hy => h y (by simp [hy])) (fun y hy => hnone y (by simp [hy])) false
        (punct .comma) hcomma
      obtain ⟨hgap, hgapFree⟩ := follow_gap (g := g) first hfree
      cases hx : f x with
      | none =>
          have hPx : P x := hnone x (by simp) hx
          have hfits : Fits g a (punct .comma) := (fits_of_free hfree).mpr trivial
          cases xs with
          | nil => simpa [arrayElements, hx, hfits, hPx] using ends_of_free hcomma
          | cons y ys =>
              have hstep : arrayElements first (none :: (y :: ys).map f) =
                  punct .comma :: arrayElements false ((y :: ys).map f) := by
                simp [arrayElements]
              rw [List.map_cons, hx, hstep]
              simp only [follow_cons, hfits, hxs.1, lastPiece, true_and]
              exact ⟨by simp [hPx], hxs.2⟩
      | some ps =>
          have hps := h x (by simp) ps hx
          cases xs with
          | nil =>
              simp only [List.map_cons, List.map_nil, hx, arrayElements, follow_append, hgap,
                true_and, lastPiece_append, hps.after_free hgapFree]
              exact ⟨by simp, hps.last hgapFree⟩
          | cons y ys =>
              have hstep : arrayElements first (some ps :: (y :: ys).map f) =
                  (if first then [] else [.space]) ++ ps ++ punct .comma ::
                    arrayElements false ((y :: ys).map f) := by
                simp [arrayElements]
              rw [List.map_cons, hx, hstep]
              simp only [follow_append, follow_cons, hgap, true_and, lastPiece_append,
                hps.after_free hgapFree, hps.closed hgapFree (b := punct .comma) rfl, hxs.1,
                lastPiece]
              exact ⟨by simp, hxs.2⟩

/-- After a word pieces fit as after a blank, but where they begin with a word. -/
theorem follow_word {w : JSString} :
    Follow g (word w) ps ↔ (headIsWord ps = true → g) ∧ Follow g .space ps := by
  cases ps with
  | nil => simp [headIsWord]
  | cons b ps =>
      have hfits : Fits g (word w) b ↔ (headIsWord (b :: ps) = true → g) ∧ b.Sound := by
        match b with
        | .space => simp [headIsWord]
        | .lexeme .eol => exact ⟨fun h => ⟨nofun, h.1⟩, fun h => ⟨h.2, trivial⟩⟩
        | .lexeme (.punct p) => exact ⟨fun h => ⟨nofun, h.1⟩, fun h => ⟨h.2, trivial⟩⟩
        | .lexeme (.word v) => simp [headIsWord, Fits, word, and_comm]
      simp only [follow_cons, hfits, space_fits, and_assoc]

end

end MetaMonkey.Frontend
