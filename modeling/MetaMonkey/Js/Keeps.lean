import MetaMonkey.Js.Access

/-!
What a call leaves as it is, whether it returns or fails: the rules for the ways in which
calls are put together.
-/

namespace MetaMonkey.Js

open ObjectGraph

variable {α β γ δ σ τ : Type}

/-- The state at the end of a call, of one that fails as well. -/
def finalState : EStateM.Result Fault (JSHeap × σ) α → JSHeap × σ
  | .ok _ s => s
  | .error _ s => s

/-- The call keeps this part of the state. -/
def Keeps (part : σ → γ) (x : JsM σ α) : Prop := ∀ s, part (finalState (x s)).2 = part s.2

namespace Keeps

variable {part : σ → γ}

theorem of_ok {x : JsM σ α} (hx : Keeps part x) {s s' : JSHeap × σ} {a : α}
    (h : x s = .ok a s') : part s'.2 = part s.2 := by
  have hs := hx s
  rw [h] at hs
  exact hs

theorem of_error {x : JsM σ α} (hx : Keeps part x) {s s' : JSHeap × σ} {e : Fault}
    (h : x s = .error e s') : part s'.2 = part s.2 := by
  have hs := hx s
  rw [h] at hs
  exact hs

theorem bind {x : JsM σ α} {f : α → JsM σ β} (hx : Keeps part x) (hf : ∀ a, Keeps part (f a)) :
    Keeps part (x >>= f) := by
  intro s
  rw [bind_apply]
  cases hr : x s with
  | ok a s₁ => exact (hf a s₁).trans (hx.of_ok hr)
  | error e s₁ => exact hx.of_error hr

theorem pure (a : α) : Keeps part (pure a : JsM σ α) := fun _ => rfl

theorem throw (e : Fault) : Keeps part (throw e : JsM σ α) := fun _ => rfl

/-- What would come after is not run. -/
theorem throw_bind (e : Fault) (f : α → JsM σ β) :
    Keeps part ((MonadExcept.throw e : JsM σ α) >>= f) :=
  fun _ => rfl

theorem get : Keeps part (get : JsM σ (JSHeap × σ)) := fun _ => rfl

theorem reads (f : JSHeap → Except Fault α) : Keeps part (reads f : JsM σ α) := by
  intro s
  rw [Js.reads]
  split <;> rfl

theorem writes (f : JSHeap → Except Fault JSHeap) : Keeps part (writes f : JsM σ Unit) := by
  intro s
  rw [Js.writes]
  split <;> rfl

/-- A change of the state that does not concern this part. -/
theorem modify {f : JSHeap × σ → JSHeap × σ} (hf : ∀ s, part (f s).2 = part s.2) :
    Keeps part (modify f : JsM σ PUnit) := hf

theorem ignoreResult {x : JsM σ α} (hx : Keeps part x) : Keeps part (ignoreResult x) := by
  intro s
  rw [Js.ignoreResult]
  cases hr : x s with
  | ok a s' => exact hx.of_ok hr
  | error e s' =>
      have he := hx.of_error hr
      cases e <;> exact he

end Keeps

end MetaMonkey.Js
