import MetaMonkey.Js.Value

/-!
Calls of the engine that change state: the heap, and a further state of type
`σ`. A call that fails keeps what it has changed, and its caller may go on.
-/

namespace MetaMonkey.Js

open ObjectGraph

abbrev JsM (σ α : Type) := EStateM Fault (JSHeap × σ) α

variable {σ α β : Type}

/-- A call that only reads the heap. -/
def reads (f : JSHeap → Except Fault α) : JsM σ α := fun s =>
  match f s.1 with
  | .ok a => .ok a s
  | .error e => .error e s

/-- A call whose result the caller drops. -/
def ignoreResult (x : JsM σ α) : JsM σ Unit := fun s =>
  match x s with
  | .ok _ s' => .ok () s'
  | .error .jsFalse s' => .ok () s'
  | .error e s' => .error e s'

theorem bind_apply (x : JsM σ α) (f : α → JsM σ β) (s : JSHeap × σ) :
    (x >>= f) s = match x s with
      | .ok a s' => f a s'
      | .error e s' => .error e s' := by
  cases hx : x s <;> simp [bind, EStateM.bind, hx]

@[simp] theorem pure_apply (a : α) (s : JSHeap × σ) : (pure a : JsM σ α) s = .ok a s := rfl

@[simp] theorem throw_apply (e : Fault) (s : JSHeap × σ) :
    (throw e : JsM σ α) s = .error e s := rfl

@[simp] theorem get_apply (s : JSHeap × σ) : (get : JsM σ (JSHeap × σ)) s = .ok s s := rfl

@[simp] theorem set_apply (s s' : JSHeap × σ) : (set s' : JsM σ PUnit) s = .ok ⟨⟩ s' := rfl

@[simp] theorem modify_apply (f : JSHeap × σ → JSHeap × σ) (s : JSHeap × σ) :
    (modify f : JsM σ PUnit) s = .ok ⟨⟩ (f s) := rfl

theorem bind_ok {x : JsM σ α} {s s' : JSHeap × σ} {a : α} (hx : x s = .ok a s')
    (f : α → JsM σ β) : (x >>= f) s = f a s' := by
  rw [bind_apply, hx]

theorem bind_error {x : JsM σ α} {s s' : JSHeap × σ} {e : Fault} (hx : x s = .error e s')
    (f : α → JsM σ β) : (x >>= f) s = .error e s' := by
  rw [bind_apply, hx]

theorem reads_ok {f : JSHeap → Except Fault α} {s : JSHeap × σ} {a : α}
    (hf : f s.1 = .ok a) : (reads f : JsM σ α) s = .ok a s := by
  rw [reads, hf]

theorem reads_error {f : JSHeap → Except Fault α} {s : JSHeap × σ} {e : Fault}
    (hf : f s.1 = .error e) : (reads f : JsM σ α) s = .error e s := by
  rw [reads, hf]

theorem reads_eq_ok {f : JSHeap → Except Fault α} {s s' : JSHeap × σ} {a : α} :
    (reads f : JsM σ α) s = .ok a s' ↔ f s.1 = .ok a ∧ s' = s := by
  rw [reads]
  cases f s.1 with
  | ok a' => simp [eq_comm]
  | error e => simp

/-- A call that returns has run both of its parts. -/
theorem bind_eq_ok {x : JsM σ α} {f : α → JsM σ β} {s s' : JSHeap × σ} {b : β} :
    (x >>= f) s = .ok b s' ↔ ∃ a s₁, x s = .ok a s₁ ∧ f a s₁ = .ok b s' := by
  rw [bind_apply]
  cases hx : x s with
  | ok a s₁ =>
      constructor
      · intro hf
        exact ⟨a, s₁, rfl, hf⟩
      · rintro ⟨a', s₁', heq, hf⟩
        cases heq
        exact hf
  | error e s₁ =>
      constructor
      · intro hf
        cases hf
      · rintro ⟨_, _, heq, _⟩
        cases heq

/-- What a call that returns gives, the heap aside. -/
def ended : EStateM.Result Fault (JSHeap × σ) α → Option (α × σ)
  | .ok a s => some (a, s.2)
  | .error _ _ => none

theorem exists_of_ended {r : EStateM.Result Fault (JSHeap × σ) α} {f : α × σ → β} {b : β}
    (hr : (ended r).map f = some b) : ∃ a s, r = .ok a s ∧ f (a, s.2) = b := by
  cases r with
  | ok a s => exact ⟨a, s, rfl, Option.some.inj hr⟩
  | error e s => cases hr

end MetaMonkey.Js
