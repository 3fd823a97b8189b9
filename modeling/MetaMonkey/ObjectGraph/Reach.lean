import MetaMonkey.ObjectGraph.Heap
import Mathlib.Logic.Relation

/-!
What is reached from a value through the cells of a heap, and sets of cells that no
reference leads out of.
-/

namespace MetaMonkey.ObjectGraph

variable {κ α τ : Type}

theorem mem_of_lookup [DecidableEq κ] {β : Type} {fields : List (κ × β)} {k : κ} {x : β}
    (hx : fields.lookup k = some x) : (k, x) ∈ fields := by
  induction fields with
  | nil => cases hx
  | cons f fields ih =>
      rw [lookup_cons_eq] at hx
      split at hx
      · rename_i hk
        obtain rfl : f.2 = x := Option.some.inj hx
        exact hk ▸ List.mem_cons_self
      · exact List.mem_cons_of_mem _ (ih hx)

/-- The values that a cell holds. -/
def Cell.vals : Cell κ α τ → List (Val α)
  | .record _ fields _ => fields.map Prod.snd
  | .array elems => elems

/-- A value that is no reference out of the set. -/
def Val.Within (v : Val α) (R : ℕ → Prop) : Prop := ∀ a, v = .ref a → R a

theorem Val.within_leaf (x : α) (R : ℕ → Prop) : (Val.leaf x).Within R := by
  intro a ha
  cases ha

theorem Val.within_ref {R : ℕ → Prop} {a : ℕ} (ha : R a) : (Val.ref a : Val α).Within R := by
  intro b hb
  cases hb
  exact ha

namespace Heap

/-- The cell `a` holds a reference to `b`. -/
def PointsTo (h : Heap κ α τ) (a b : ℕ) : Prop := ∃ c, h.cell a = some c ∧ .ref b ∈ c.vals

/-- The cells that are reached from a value. -/
def Reaches (h : Heap κ α τ) (v : Val α) (b : ℕ) : Prop :=
  ∃ a, v = .ref a ∧ Relation.ReflTransGen h.PointsTo a b

/-- No reference leads out of the set. -/
def ClosedUnder (h : Heap κ α τ) (R : ℕ → Prop) : Prop := ∀ a b, R a → h.PointsTo a b → R b

variable {h : Heap κ α τ} {R : ℕ → Prop}

theorem within_reaches (h : Heap κ α τ) (v : Val α) : v.Within (h.Reaches v) :=
  fun a ha => ⟨a, ha, .refl⟩

theorem closedUnder_reaches (h : Heap κ α τ) (v : Val α) : h.ClosedUnder (h.Reaches v) := by
  rintro b c ⟨a, ha, hab⟩ hbc
  exact ⟨a, ha, hab.tail hbc⟩

theorem ClosedUnder.within (hR : h.ClosedUnder R) {a : ℕ} {c : Cell κ α τ} (ha : R a)
    (hc : h.cell a = some c) {v : Val α} (hv : v ∈ c.vals) : v.Within R := by
  rintro b rfl
  exact hR a b ha ⟨c, hc, hv⟩

theorem ClosedUnder.field (hR : h.ClosedUnder R) {a : ℕ} {tag : τ}
    {fields : List (κ × Val α)} {distinct : (fields.map Prod.fst).Nodup} (ha : R a)
    (hc : h.cell a = some (.record tag fields distinct)) {f : κ × Val α} (hf : f ∈ fields) :
    f.2.Within R :=
  hR.within ha hc (List.mem_map_of_mem hf)

theorem ClosedUnder.elem (hR : h.ClosedUnder R) {a : ℕ} {elems : List (Val α)} (ha : R a)
    (hc : h.cell a = some (.array elems)) {v : Val α} (hv : v ∈ elems) : v.Within R :=
  hR.within ha hc hv

end Heap

end MetaMonkey.ObjectGraph
