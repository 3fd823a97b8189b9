import MetaMonkey.Frontend.Layout
import Mathlib.Data.List.Chain

/-!
The lexemes of a text that is written piece by piece. They are the ones that are
meant where no piece runs into the one after it. Only words do, in the texts of
trees.
-/

namespace MetaMonkey.Frontend

open Js Layout

section

variable {α : Type}

theorem prefix_append_cases {t u s : List α} (h : t <+: u ++ s) :
    t <+: u ∨ ∃ c ∈ s.head?, u <+: t ∧ c ∈ (t.drop u.length).head? := by
  obtain hle | hle := List.prefix_or_prefix_of_prefix h (List.prefix_append u s)
  · exact Or.inl hle
  · obtain ⟨v, rfl⟩ := hle
    rw [List.prefix_append_right_inj] at h
    cases v with
    | nil => simp
    | cons c v =>
        obtain ⟨r, rfl⟩ := h
        exact Or.inr ⟨c, by simp, by simp, by simp⟩

theorem find?_eq_some_of_takeWhile [DecidableEq α] {l : List α} {f : α → Bool} {x : α}
    (hmem : x ∈ l) (hx : f x = true) (hbefore : ∀ y ∈ l.takeWhile (· ≠ x), f y = false) :
    l.find? f = some x := by
  induction l with
  | nil => simp at hmem
  | cons y l ih =>
      by_cases hy : y = x
      · simp [hy, hx]
      · have hmem' : x ∈ l := by simpa [Ne.symm hy] using hmem
        simp only [List.takeWhile_cons, ne_eq, hy, not_false_eq_true, decide_true, if_true,
          List.mem_cons, forall_eq_or_imp] at hbefore
        rw [List.find?_cons, hbefore.1]
        exact ih hmem' hbefore.2

end

/-- The characters that a punctuator may not be followed by, since with one of them
begins a longer punctuator or a comment. -/
def followers (p : Punct) : List UInt16 :=
  (punctuators.map (fun q => js q.text) ++ commentStarts).filterMap fun t =>
    if (js p.text).isPrefixOf t then (t.drop (js p.text).length).head? else none

theorem mem_followers {p : Punct} {t : JSString} {c : UInt16}
    (ht : t ∈ punctuators.map (fun q => js q.text) ++ commentStarts) (hp : js p.text <+: t)
    (hc : c ∈ (t.drop (js p.text).length).head?) : c ∈ followers p :=
  List.mem_filterMap.mpr ⟨t, ht, by simpa [hp] using hc⟩

theorem mem_punctuators (p : Punct) : p ∈ punctuators := by
  cases p <;> decide

theorem earlier_not_begins (p : Punct) :
    ∀ q ∈ punctuators.takeWhile (· ≠ p), (js q.text).isPrefixOf (js p.text) = false := by
  cases p <;> decide

theorem comment_not_begins (p : Punct) :
    ∀ t ∈ commentStarts, t.isPrefixOf (js p.text) = false := by
  cases p <;> decide

theorem punctuator?_append {p : Punct} {s : JSString} (h : ∀ c ∈ s.head?, c ∉ followers p) :
    punctuator? (js p.text ++ s) = some p := by
  -- what begins the text and not the punctuator is longer than the punctuator
  have hbegins : ∀ t ∈ punctuators.map (fun q => js q.text) ++ commentStarts,
      t.isPrefixOf (js p.text) = false → t.isPrefixOf (js p.text ++ s) = false := by
    intro t ht hnot
    by_contra hyes
    simp only [Bool.not_eq_false, List.isPrefixOf_iff_prefix] at hyes
    obtain hle | ⟨c, hc, hp, hdrop⟩ := prefix_append_cases hyes
    · simp [List.isPrefixOf_iff_prefix.mpr hle] at hnot
    · exact h c hc (mem_followers ht hp hdrop)
  have hcomment : (commentStarts.any fun t => t.isPrefixOf (js p.text ++ s)) = false := by
    rw [List.any_eq_false]
    intro t ht
    rw [hbegins t (List.mem_append_right _ ht) (comment_not_begins p t ht)]
    exact Bool.false_ne_true
  rw [punctuator?, hcomment]
  refine find?_eq_some_of_takeWhile (mem_punctuators p) (by simp) fun q hq => ?_
  exact hbegins _ (List.mem_append_left _ (List.mem_map_of_mem (mem_punctuators q)))
    (earlier_not_begins p q hq)

/-- The text of a word. -/
def isWordText : JSString → Bool
  | [] => false
  | c :: cs => isIdentifierStart c && cs.all isIdentifierPart

theorem isWordText_of_isWord {w : JSString} (h : isWord w = true) : isWordText w = true := by
  cases w with
  | nil => simp [isWord] at h
  | cons c cs =>
      simp only [isWord, Bool.and_eq_true] at h
      simp [isWordText, h.1]

theorem isWordText_of_isName {w : JSString} (h : isName w = true) : isWordText w = true := by
  simp only [isName, Bool.and_eq_true] at h
  exact isWordText_of_isWord h.1

theorem isWordText_keyword (k : Keyword) : isWordText (js k.text) = true := by
  cases k <;> decide

theorem isWordText_append {v w : JSString} (hv : isWordText v = true) (hw : isWordText w = true) :
    isWordText (v ++ w) = true := by
  cases v with
  | nil => simp [isWordText] at hv
  | cons c cs =>
      cases w with
      | nil => simp [isWordText] at hw
      | cons d ds =>
          simp only [isWordText, Bool.and_eq_true] at hv hw
          have hd : isIdentifierPart d = true := by simp [isIdentifierPart, hw.1]
          simp only [List.cons_append, isWordText, List.all_append, List.all_cons, hv.1, hv.2, hd,
            hw.2, Bool.and_self]

theorem identifierStart_not_blank {c : UInt16} (h : isIdentifierStart c = true) :
    isSpace c = false ∧ isEol c = false := by
  constructor
  · by_contra hspace
    simp only [Bool.not_eq_false, isSpace, Bool.or_eq_true, decide_eq_true_eq] at hspace
    obtain ((rfl | rfl) | rfl) | rfl := hspace <;> revert h <;> decide
  · by_contra heol
    simp only [Bool.not_eq_false, isEol, Bool.or_eq_true, decide_eq_true_eq] at heol
    obtain rfl | rfl := heol <;> revert h <;> decide

theorem lexemes_word {w s : JSString} (hw : isWordText w = true)
    (hs : ∀ c ∈ s.head?, isIdentifierPart c = false) :
    lexemes (w ++ s) = (lexemes s).map (.word w :: ·) := by
  cases w with
  | nil => simp [isWordText] at hw
  | cons c cs =>
      simp only [isWordText, Bool.and_eq_true] at hw
      have hblank := identifierStart_not_blank hw.1
      have hspan : (cs ++ s).takeWhile isIdentifierPart = cs ∧
          (cs ++ s).dropWhile isIdentifierPart = s := by
        have hall : ∀ d ∈ cs, isIdentifierPart d = true := by simpa using hw.2
        rw [List.takeWhile_append_of_pos hall, List.dropWhile_append_of_pos hall]
        cases s with
        | nil => simp
        | cons d s => simp [hs d rfl]
      rw [List.cons_append, lexemes]
      simp [hblank, hw.1, hspan]

theorem punct_text_head (p : Punct) : ∃ c s, js p.text = c :: s ∧ isIdentifierPart c = false ∧
    isSpace c = false ∧ isEol c = false := by
  cases p <;> exact ⟨_, _, rfl, by decide⟩

theorem lexemes_punct {p : Punct} {s : JSString} (h : ∀ c ∈ s.head?, c ∉ followers p) :
    lexemes (js p.text ++ s) = (lexemes s).map (.punct p :: ·) := by
  have hp := punctuator?_append h
  obtain ⟨c, t, ht, hpart, hspace, heol⟩ := punct_text_head p
  have hstart : isIdentifierStart c = false := by
    simp only [isIdentifierPart, Bool.or_eq_false_iff] at hpart
    exact hpart.1
  rw [ht, List.cons_append] at hp ⊢
  rw [lexemes]
  simp [hspace, heol, hstart, hp, ht]

theorem lexemes_space (s : JSString) : lexemes (js " " ++ s) = lexemes s := by
  show lexemes (32 :: s) = _
  rw [lexemes]
  simp [isSpace]

theorem lexemes_eol (s : JSString) : lexemes (js "\n" ++ s) = (lexemes s).map (.eol :: ·) := by
  show lexemes (10 :: s) = _
  rw [lexemes]
  simp [isSpace, isEol]

/-- A word piece is a word. -/
def Piece.Sound : Piece → Prop
  | .lexeme (.word w) => isWordText w = true
  | _ => True

/-- A piece may be followed by another. Whether a word may be followed by a word is
left open: no space is between a `yield` and its operand. -/
def Fits (g : Prop) (a b : Piece) : Prop :=
  b.Sound ∧ match a, b with
    | .lexeme (.word _), .lexeme (.word _) => g
    | .lexeme (.punct p), b => ∀ c ∈ b.text.head?, c ∉ followers p
    | _, _ => True

/-- The pieces fit, each after the one before it, the first one after another. -/
def Follow (g : Prop) (a : Piece) (ps : List Piece) : Prop := List.IsChain (Fits g) (a :: ps)

@[simp] theorem follow_nil {g : Prop} {a : Piece} : Follow g a [] := List.IsChain.singleton a

@[simp] theorem follow_cons {g : Prop} {a b : Piece} {ps : List Piece} :
    Follow g a (b :: ps) ↔ Fits g a b ∧ Follow g b ps := List.isChain_cons_cons

theorem Piece.text_head {b : Piece} (h : b.Sound) : ∃ c s, b.text = c :: s ∧
    ((∀ w, b ≠ .lexeme (.word w)) → isIdentifierPart c = false) := by
  match b, h with
  | .space, _ => exact ⟨32, [], rfl, fun _ => by decide⟩
  | .lexeme .eol, _ => exact ⟨10, [], rfl, fun _ => by decide⟩
  | .lexeme (.punct p), _ =>
      obtain ⟨c, s, hs, hpart, -⟩ := punct_text_head p
      exact ⟨c, s, hs, fun _ => hpart⟩
  | .lexeme (.word (c :: cs)), _ => exact ⟨c, cs, rfl, fun h => absurd rfl (h (c :: cs))⟩

theorem render_cons (b : Piece) (ps : List Piece) : render (b :: ps) = b.text ++ render ps := rfl

theorem render_append (ps qs : List Piece) : render (ps ++ qs) = render ps ++ render qs :=
  List.flatMap_append

/-- The last one of the pieces after a piece. -/
@[simp] def lastPiece (a : Piece) : List Piece → Piece
  | [] => a
  | b :: ps => lastPiece b ps

/-- A text may come right after a piece. -/
def Piece.Before (s : JSString) : Piece → Prop
  | .lexeme (.word _) => ∀ c ∈ s.head?, isIdentifierPart c = false
  | .lexeme (.punct p) => ∀ c ∈ s.head?, c ∉ followers p
  | _ => True

theorem Fits.before {a b : Piece} (h : Fits False a b) (s : JSString) :
    a.Before (b.text ++ s) := by
  obtain ⟨hsound, hfit⟩ := h
  obtain ⟨c, t, htext, hpart⟩ := b.text_head hsound
  match a, hfit with
  | .space, _ => trivial
  | .lexeme .eol, _ => trivial
  | .lexeme (.word w), hfit =>
      rw [htext]
      simp only [Piece.Before, List.cons_append, List.head?_cons, Option.mem_some_iff, forall_eq']
      refine hpart fun v hv => ?_
      subst hv
      exact hfit
  | .lexeme (.punct p), hfit =>
      simp only [htext, Piece.Before] at hfit ⊢
      exact hfit

/-- Where no two words meet, a text begins with the lexemes that are meant. -/
theorem lexemes_render_append {a : Piece} {ps : List Piece} {s : JSString}
    (h : Follow False a ps) (hs : (lastPiece a ps).Before s) :
    lexemes (render ps ++ s) = (lexemes s).map (meant ps ++ ·) := by
  induction ps generalizing a with
  | nil =>
      show lexemes s = _
      simp [meant]
  | cons b ps ih =>
      rw [follow_cons] at h
      obtain ⟨⟨hsound, -⟩, hrest⟩ := h
      have hps := ih hrest hs
      have hb : b.Before (render ps ++ s) := by
        cases ps with
        | nil => exact hs
        | cons d ps =>
            rw [follow_cons] at hrest
            rw [render_cons, List.append_assoc]
            exact hrest.1.before _
      rw [render_cons, List.append_assoc]
      match b, hsound, hb with
      | .space, _, _ => exact (lexemes_space _).trans hps
      | .lexeme .eol, _, _ =>
          refine (lexemes_eol _).trans ?_
          rw [hps, Option.map_map]
          rfl
      | .lexeme (.word w), hw, hb =>
          refine (lexemes_word hw hb).trans ?_
          rw [hps, Option.map_map]
          rfl
      | .lexeme (.punct p), _, hb =>
          refine (lexemes_punct hb).trans ?_
          rw [hps, Option.map_map]
          rfl

theorem Piece.before_nil (b : Piece) : b.Before [] := by
  match b with
  | .space => trivial
  | .lexeme .eol => trivial
  | .lexeme (.word _) => simp [Piece.Before]
  | .lexeme (.punct _) => simp [Piece.Before]

/-- Where no two words meet, the text has the lexemes that are meant. -/
theorem lexemes_render {a : Piece} {ps : List Piece} (h : Follow False a ps) :
    lexemes (render ps) = some (meant ps) := by
  have htext := lexemes_render_append h (lastPiece a ps).before_nil
  rw [List.append_nil] at htext
  rw [htext, lexemes]
  simp

def joinWord (w : JSString) : List Piece → List Piece
  | .lexeme (.word v) :: qs => .lexeme (.word (w ++ v)) :: qs
  | qs => .lexeme (.word w) :: qs

/-- The pieces of the same text in which no two words meet. -/
def fuse : List Piece → List Piece
  | [] => []
  | .lexeme (.word w) :: ps => joinWord w (fuse ps)
  | b :: ps => b :: fuse ps

theorem render_joinWord (w : JSString) (qs : List Piece) :
    render (joinWord w qs) = w ++ render qs := by
  fun_cases joinWord w qs with
  | case1 v qs => exact List.append_assoc w v _
  | case2 qs h => rfl

theorem meant_joinWord (w : JSString) (qs : List Piece) :
    joinWord w qs = .lexeme (.word w) :: qs ∨ (meant (joinWord w qs)).length =
      (meant qs).length := by
  fun_cases joinWord w qs with
  | case1 v qs => exact Or.inr (by simp [meant, Piece.lexeme?])
  | case2 qs h => exact Or.inl rfl

theorem render_fuse (ps : List Piece) : render (fuse ps) = render ps := by
  fun_induction fuse ps with
  | case1 => rfl
  | case2 w ps ih =>
      rw [render_joinWord, ih]
      rfl
  | case3 b ps hb ih => rw [render_cons, render_cons, ih]

theorem fuse_shorter (ps : List Piece) :
    fuse ps = ps ∨ (meant (fuse ps)).length < (meant ps).length := by
  fun_induction fuse ps with
  | case1 => exact Or.inl rfl
  | case2 w ps ih =>
      have hcons : (meant (.lexeme (.word w) :: ps)).length = (meant ps).length + 1 := by
        simp [meant, Piece.lexeme?]
      obtain hjoin | hjoin := meant_joinWord w (fuse ps)
      · refine ih.imp (fun h => by rw [hjoin, h]) fun h => ?_
        rw [hjoin]
        simpa [meant, Piece.lexeme?] using h
      · right
        obtain h | h := ih
        · rw [hjoin, h, hcons]
          omega
        · omega
  | case3 b ps hb ih =>
      refine ih.imp (fun h => by rw [h]) fun h => ?_
      cases hb' : b.lexeme? <;> simpa [meant, hb'] using h

section

variable {g g' : Prop} {a b : Piece} {v w : JSString}

theorem Fits.of_not_word (ha : ∀ w, a ≠ .lexeme (.word w)) (h : Fits g a b) : Fits g' a b := by
  refine ⟨h.1, ?_⟩
  have hfit := h.2
  match a with
  | .space => trivial
  | .lexeme .eol => trivial
  | .lexeme (.punct p) => exact hfit
  | .lexeme (.word w) => exact absurd rfl (ha w)

theorem Fits.before_not_word (hb : ∀ w, b ≠ .lexeme (.word w)) (h : Fits g a b) : Fits g' a b := by
  refine ⟨h.1, ?_⟩
  have hfit := h.2
  match a, b with
  | .space, _ => trivial
  | .lexeme .eol, _ => trivial
  | .lexeme (.punct p), _ => exact hfit
  | .lexeme (.word w), .space => trivial
  | .lexeme (.word w), .lexeme .eol => trivial
  | .lexeme (.word w), .lexeme (.punct p) => trivial
  | .lexeme (.word w), .lexeme (.word v) => exact absurd rfl (hb v)

theorem Fits.of_word (h : Fits g (.lexeme (.word v)) b) (w : JSString) :
    Fits g (.lexeme (.word w)) b := by
  refine ⟨h.1, ?_⟩
  have hfit := h.2
  match b with
  | .space => trivial
  | .lexeme .eol => trivial
  | .lexeme (.punct p) => trivial
  | .lexeme (.word u) => exact hfit

/-- What a word runs into is its first character. -/
theorem Fits.joined (hw : Fits True a (.lexeme (.word w))) (hv : isWordText v = true) :
    Fits True a (.lexeme (.word (w ++ v))) := by
  refine ⟨isWordText_append hw.1 hv, ?_⟩
  have hfit := hw.2
  have hsound : isWordText w = true := hw.1
  match a with
  | .space => trivial
  | .lexeme .eol => trivial
  | .lexeme (.word _) => trivial
  | .lexeme (.punct p) =>
      cases w with
      | nil => simp [isWordText] at hsound
      | cons c cs => exact hfit

end

/-- What is left of a chain whose words may meet, when they are joined. -/
theorem chain_joinWord {w : JSString} {qs : List Piece}
    (hhead : ∀ b ∈ qs.head?, Fits True (.lexeme (.word w)) b) (hchain : qs.IsChain (Fits False)) :
    (joinWord w qs).IsChain (Fits False) := by
  fun_cases joinWord w qs with
  | case1 v qs =>
      rw [List.isChain_cons] at hchain ⊢
      exact ⟨fun b hb => (hchain.1 b hb).of_word _, hchain.2⟩
  | case2 qs h =>
      rw [List.isChain_cons]
      refine ⟨fun b hb => (hhead b hb).before_not_word ?_, hchain⟩
      rintro v rfl
      cases qs with
      | nil => simp at hb
      | cons d qs =>
          obtain rfl : d = .lexeme (.word v) := by simpa using hb
          exact h v qs rfl

theorem follow_fuse {a : Piece} {ps : List Piece} (h : Follow True a ps) :
    (∀ b ∈ (fuse ps).head?, Fits True a b) ∧ (fuse ps).IsChain (Fits False) := by
  fun_induction fuse ps generalizing a with
  | case1 => simp
  | case2 w ps ih =>
      rw [follow_cons] at h
      obtain ⟨hhead, hchain⟩ := ih h.2
      refine ⟨fun b hb => ?_, chain_joinWord hhead hchain⟩
      revert hb hhead
      generalize fuse ps = qs
      fun_cases joinWord w qs with
      | case1 v qs =>
          intro hhead hb
          obtain rfl := Option.some.inj hb
          exact h.1.joined (hhead _ rfl).1
      | case2 qs heq =>
          intro _ hb
          obtain rfl := Option.some.inj hb
          exact h.1
  | case3 b ps hb ih =>
      rw [follow_cons] at h
      obtain ⟨hhead, hchain⟩ := ih h.2
      refine ⟨fun d hd => ?_, ?_⟩
      · obtain rfl : b = d := by simpa using hd
        exact h.1
      · rw [List.isChain_cons]
        exact ⟨fun d hd => (hhead d hd).of_not_word fun w hw => hb w hw, hchain⟩

/-- Where two words meet, the text has other lexemes. -/
theorem lexemes_render_iff {a : Piece} {ps : List Piece} (ha : ∀ w, a ≠ .lexeme (.word w))
    (h : Follow True a ps) : lexemes (render ps) = some (meant ps) ↔ Follow False a ps := by
  refine ⟨fun heq => ?_, lexemes_render⟩
  obtain ⟨hhead, hchain⟩ := follow_fuse h
  have hfuse : Follow False a (fuse ps) := by
    rw [Follow, List.isChain_cons]
    exact ⟨fun b hb => (hhead b hb).of_not_word ha, hchain⟩
  obtain hsame | hlt := fuse_shorter ps
  · rwa [hsame] at hfuse
  · have hlexemes := lexemes_render hfuse
    rw [render_fuse, heq, Option.some_inj] at hlexemes
    rw [hlexemes] at hlt
    omega

end MetaMonkey.Frontend
