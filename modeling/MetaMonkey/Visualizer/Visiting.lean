import MetaMonkey.Visualizer.AstTraverse

/-!
What a visit returns, wherever it starts from. A visit that is given up may have
raised the tabs; none leaves them below what they were.
-/

namespace MetaMonkey.Visualizer

section

variable {α β : Type} {m m' : Visit α} {f : α → Visit β} {P : α → Prop} {Q : β → Prop}

/-- The visit returns what satisfies `P`. -/
def Gives (m : Visit α) (P : α → Prop) : Prop :=
  ∀ k : ℕ, ∃ a k', m k = (some a, k') ∧ k ≤ k' ∧ P a

/-- The visit ends with an exception. -/
def Fails (m : Visit α) : Prop := ∀ k : ℕ, ∃ k', m k = (none, k') ∧ k ≤ k'

theorem visit_bind {k k' : ℕ} {a : α} (h : m k = (some a, k')) : (m >>= f) k = f a k' := by
  simp only [Bind.bind, OptionT.bind, OptionT.mk, StateT.bind, h]

theorem visit_orElse_none {k k' : ℕ} (h : m k = (none, k')) : (m <|> m') k = m' k' := by
  show OptionT.orElse m (fun _ => m') k = _
  simp only [OptionT.orElse, OptionT.mk, Bind.bind, StateT.bind, h]

theorem gives_pure {a : α} (h : P a) : Gives (pure a) P := fun k => ⟨a, k, rfl, le_rfl, h⟩

theorem Gives.bind (h : Gives m P) (hf : ∀ a, P a → Gives (f a) Q) : Gives (m >>= f) Q := by
  intro k
  obtain ⟨a, k₁, hm, hle, ha⟩ := h k
  obtain ⟨b, k₂, hb, hle', hQ⟩ := hf a ha k₁
  exact ⟨b, k₂, (visit_bind hm).trans hb, Nat.le_trans hle hle', hQ⟩

theorem Gives.imp {P' : α → Prop} (h : Gives m P) (himp : ∀ a, P a → P' a) : Gives m P' := by
  intro k
  obtain ⟨a, k', hm, hle, ha⟩ := h k
  exact ⟨a, k', hm, hle, himp a ha⟩

theorem Fails.orElse (h : Fails m) (h' : Gives m' P) : Gives (m <|> m') P := by
  intro k
  obtain ⟨k₁, hm, hle⟩ := h k
  obtain ⟨a, k₂, hm', hle', ha⟩ := h' k₁
  exact ⟨a, k₂, (visit_orElse_none hm).trans hm', Nat.le_trans hle hle', ha⟩

end

theorem gives_wrapped (str : Shown) :
    Gives (wrapped str) fun r => ∃ n, r = whiteSpacesWrap n str :=
  fun k => ⟨_, k, rfl, le_rfl, k, rfl⟩

theorem gives_notSemiWrapped (str : Shown) :
    Gives (notSemiWrapped str) fun r => ∃ n, r = whiteSpacesNotSemiWrap n str :=
  fun k => ⟨_, k, rfl, le_rfl, k, rfl⟩

/-- The tabs are lowered again, since the body leaves them raised. -/
theorem Gives.block {stmts : Visit (List Shown)} {P : List Shown → Prop} (h : Gives stmts P) :
    Gives (trvsStmtBlockOf stmts) fun r => ∃ n ss, r = handlerStmtBlock n ss ∧ P ss := by
  intro k
  obtain ⟨ss, k', hss, hle, hP⟩ := h (k + 1)
  refine ⟨handlerStmtBlock (k' - 1) ss, k' - 1, ?_, by omega, k' - 1, ss, rfl, hP⟩
  have hraise : raiseTabs k = (some (k + 1), k + 1) := rfl
  have hdecr : decrTabs k' = (some (k' - 1), k' - 1) := by
    have hguard : (guard (0 < k') : Visit Unit) = pure () := if_pos (by omega)
    have hget : (get : Visit ℕ) k' = (some k', k') := rfl
    rw [decrTabs, visit_bind hget, hguard]
    rfl
  rw [trvsStmtBlockOf, visit_bind hraise, visit_bind hss, visit_bind hdecr]
  rfl

theorem fails_block : Fails (trvsStmtBlockOf throwException) := fun k =>
  ⟨k + 1, rfl, Nat.le_succ k⟩

end MetaMonkey.Visualizer
