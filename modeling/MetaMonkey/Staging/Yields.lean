import MetaMonkey.Staging.Unparse
import MetaMonkey.Frontend.Layout
import MetaMonkey.Frontend.Shows

/-!
Calls of the printer whose result is known: what they return if they return, and that
they do return under a condition.
-/

namespace MetaMonkey.Staging

open Js Unparse

variable {α β : Type}

def Yields (P : Prop) (x : Print α) (s : JSHeap × Bool) (a : α) (s' : JSHeap × Bool) : Prop :=
  (P → x s = .ok a s') ∧ ∀ b s'', x s = .ok b s'' → b = a ∧ s'' = s'

section

variable {P Q : Prop} {x : Print α} {f : α → Print β} {s s₁ s₂ : JSHeap × Bool} {a : α} {b : β}

theorem Yields.of_ok (h : x s = .ok a s₁) : Yields P x s a s₁ := by
  refine ⟨fun _ => h, fun b s'' hb => ?_⟩
  cases h.symm.trans hb
  exact ⟨rfl, rfl⟩

theorem Yields.of_error {e : Fault} (h : x s = .error e s₂) (hP : ¬ P) : Yields P x s a s₁ := by
  refine ⟨fun p => absurd p hP, fun b s'' hb => ?_⟩
  cases h.symm.trans hb

theorem Yields.pure (a : α) : Yields P (pure a) s a s := .of_ok rfl

theorem Yields.mono (h : Yields Q x s a s₁) (hPQ : P → Q) : Yields P x s a s₁ :=
  ⟨fun p => h.1 (hPQ p), h.2⟩

theorem Yields.bind (hx : Yields P x s a s₁) (hf : Yields P (f a) s₁ b s₂) :
    Yields P (x >>= f) s b s₂ := by
  refine ⟨fun p => ?_, fun c s'' hc => ?_⟩
  · rw [bind_ok (hx.1 p)]
    exact hf.1 p
  · obtain ⟨a', s', hxs, hfs⟩ := bind_eq_ok.mp hc
    obtain ⟨rfl, rfl⟩ := hx.2 a' s' hxs
    exact hf.2 c s'' hfs

end

section

variable {P : Prop} {h : JSHeap} {i : Bool} {s₂ : JSHeap × Bool} {b : β} {v w : Value}
  {name : String}

theorem Yields.prop {f : Value → Print β} (hv : getProperty h v name = .ok w)
    (hf : Yields P (f w) (h, i) b s₂) : Yields P (prop v name >>= f) (h, i) b s₂ :=
  .bind (.of_ok (reads_ok hv)) hf

theorem Yields.toObj {f : Value → Print β} (hv : getProperty h v name = .ok w)
    (hf : Yields P (f (valueToObject w)) (h, i) b s₂) :
    Yields P (toObj v name >>= f) (h, i) b s₂ := by
  refine .bind (.of_ok (reads_ok ?_)) hf
  rw [getPropertyToObj, hv]
  rfl

theorem Yields.toStr {f : JSString → Print β} {t : JSString}
    (hv : getProperty h v name = .ok (string t)) (hf : Yields P (f t) (h, i) b s₂) :
    Yields P (toStr v name >>= f) (h, i) b s₂ := by
  refine .bind (.of_ok (reads_ok ?_)) hf
  rw [getPropertyToString, hv]
  rfl

theorem Yields.require {f : Unit → Print β} {c : Bool} (hc : c = true)
    (hf : Yields P (f ()) (h, i) b s₂) : Yields P (require c >>= f) (h, i) b s₂ := by
  subst hc
  exact .bind (.pure ()) hf

theorem arrayElems?_ref {arr : Value} {ws : List Value} (harr : arrayElems? h arr = some ws) :
    ∃ a, arr = .ref a ∧ h.cell a = some (.array ws) := by
  match arr with
  | .leaf _ => simp [arrayElems?] at harr
  | .ref a =>
      rw [arrayElems?] at harr
      split at harr
      · rename_i elems hcell
        obtain rfl : elems = ws := by simpa using harr
        exact ⟨a, rfl, hcell⟩
      · cases harr

theorem Yields.arrayLength {f : ℕ → Print β} {arr : Value} {ws : List Value}
    (harr : arrayElems? h arr = some ws) (hf : Yields P (f ws.length) (h, i) b s₂) :
    Yields P (arrayLength arr >>= f) (h, i) b s₂ := by
  obtain ⟨a, rfl, hcell⟩ := arrayElems?_ref harr
  refine .bind (.of_ok (reads_ok ?_)) hf
  simp [getArrayLength, hcell]

theorem Yields.elementToObj {f : Value → Print β} {arr : Value} {ws : List Value} {n : ℕ}
    (harr : arrayElems? h arr = some ws) (hw : ws[n]? = some w)
    (hf : Yields P (f (valueToObject w)) (h, i) b s₂) :
    Yields P (elementToObj arr n >>= f) (h, i) b s₂ := by
  refine .bind (.of_ok (reads_ok ?_)) hf
  simp [getArrayElementToObj, getElement, harr, hw]

theorem Yields.deref {f : JSString → Print β} {t : JSString}
    (hf : Yields P (f t) (h, i) b s₂) : Yields P (deref (some t) >>= f) (h, i) b s₂ :=
  .bind (.pure t) hf

/-- Parentheses are put where the flag is not set. -/
theorem Yields.wrapExpr {t : JSString} (cprec xprec : ℕ) :
    Yields P (wrapExpr (some t) cprec xprec) (h, false)
      (if xprec ≤ cprec then some (js "(" ++ t ++ js ")") else some t) (h, false) := by
  apply Yields.of_ok
  unfold Unparse.wrapExpr
  by_cases hprec : xprec ≤ cprec <;> simp [bind_apply, hprec, joinStrings, lit]

theorem yields_mapM {ι : Type} {f : ι → Print β} {is : List ι} {bs : List β}
    {s : JSHeap × Bool} (hf : List.Forall₂ (fun i b => Yields P (f i) s b s) is bs) :
    Yields P (is.mapM f) s bs s := by
  induction hf with
  | nil => exact .pure []
  | cons hb _ ih =>
      rw [List.mapM_cons]
      exact .bind hb (.bind ih (.pure _))

/-- A loop over an array of nodes. -/
theorem yields_elements {R : α → Value → Prop} {arr : Value} {ws : List Value} {es : List α}
    {F : ℕ → Value → Print β} {G : ℕ → α → β} (harr : arrayElems? h arr = some ws)
    (hR : List.Forall₂ R es ws)
    (hF : ∀ n, ∀ e ∈ es, ∀ w, R e w →
      Yields P (F n (valueToObject w)) (h, i) (G n e) (h, i)) :
    Yields P ((List.range ws.length).mapM fun n => do
        let nodeObj ← elementToObj arr n
        F n nodeObj) (h, i) (es.mapIdx G) (h, i) := by
  have hlen := hR.length_eq
  refine yields_mapM (List.forall₂_iff_get.mpr ⟨by simp [hlen], fun n hn hn' => ?_⟩)
  have he : n < es.length := by simpa using hn'
  have hw : n < ws.length := by omega
  have hF' := hF n es[n] (List.getElem_mem he) ws[n] (hR.get he hw)
  simp only [List.get_eq_getElem, List.getElem_range, List.getElem_mapIdx]
  exact .elementToObj harr (List.getElem?_eq_getElem hw) hF'

/-- `unparse_values` of an array of nodes. -/
theorem yields_values {R : α → Value → Prop} {arr : Value} {ws : List Value} {es : List α}
    {F : Value → Print Text} {t : α → Text} (harr : arrayElems? h arr = some ws)
    (hR : List.Forall₂ R es ws)
    (hF : ∀ e ∈ es, ∀ w, R e w → (∃ a, w = .ref a) ∧ Yields P (F w) (h, i) (t e) (h, i)) :
    Yields P (unparseValues arr F) (h, i) (es.map t) (h, i) := by
  obtain ⟨a, rfl, hcell⟩ := arrayElems?_ref harr
  have hisArray : isArrayObject h (.ref a) = .ok true := by simp [isArrayObject, harr]
  refine .bind (.of_ok (reads_ok hisArray)) (.require rfl (.arrayLength harr ?_))
  have hmap : es.map t = es.mapIdx fun _ e => t e := by
    apply List.ext_getElem
    · simp
    · intro n hn hn'
      simp
  rw [hmap]
  refine yields_elements harr hR fun n e he w hw => ?_
  obtain ⟨⟨a', rfl⟩, hyields⟩ := hF e he w hw
  exact .require (by simp [valueToObject]) hyields

end

end MetaMonkey.Staging
