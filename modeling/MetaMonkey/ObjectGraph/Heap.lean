import Mathlib.Data.List.Basic
import Mathlib.Data.List.Nodup

/-!
Heaps of mutable records and arrays. A cell is either a record, whose fields
are kept in the order in which they were defined, or an array; values are
leaves of an arbitrary type or references to cells, which are addressed by
natural numbers. The field names of a
record are distinct and no cell lies at or above the allocation pointer:
both facts are carried by the types.
-/

namespace MetaMonkey.ObjectGraph

inductive Val (α : Type) where
  | leaf (x : α)
  | ref (a : ℕ)
  deriving DecidableEq, Repr

inductive Cell (κ α τ : Type) where
  | record (tag : τ) (fields : List (κ × Val α)) (distinct : (fields.map Prod.fst).Nodup)
  | array (elems : List (Val α))
  deriving DecidableEq

structure Heap (κ α τ : Type) where
  cell : ℕ → Option (Cell κ α τ)
  next : ℕ
  fresh : ∀ a, next ≤ a → cell a = none

variable {κ α τ : Type}

/-- The cells below the allocation pointer are all there is of a heap. -/
theorem Heap.eq_of_cells {h h' : Heap κ α τ} (hnext : h.next = h'.next)
    (hcells : ∀ a < h.next, h.cell a = h'.cell a) : h = h' := by
  have hcell : h.cell = h'.cell := by
    funext a
    by_cases ha : a < h.next
    · exact hcells a ha
    · rw [h.fresh a (Nat.le_of_not_lt ha), h'.fresh a (hnext ▸ Nat.le_of_not_lt ha)]
  cases h
  cases h'
  cases hcell
  cases hnext
  rfl

/-! ### Fields -/

section Fields

variable [DecidableEq κ] {β : Type}

/-- Assign to a field: an existing field keeps its place, a new one is
defined after all others. -/
def setField (fields : List (κ × β)) (k : κ) (v : β) : List (κ × β) :=
  if k ∈ fields.map Prod.fst then
    fields.map fun f => if f.1 = k then (k, v) else f
  else fields ++ [(k, v)]

theorem setField_of_mem {fields : List (κ × β)} {k : κ} (v : β)
    (hk : k ∈ fields.map Prod.fst) :
    setField fields k v = fields.map fun f => if f.1 = k then (k, v) else f := by
  rw [setField, if_pos hk]

theorem map_fst_update (fields : List (κ × β)) (k : κ) (v : β) :
    (fields.map fun f => if f.1 = k then (k, v) else f).map Prod.fst =
      fields.map Prod.fst := by
  rw [List.map_map]
  apply List.map_congr_left
  intro f _
  by_cases h : f.1 = k <;> simp [h]

theorem setField_distinct {fields : List (κ × β)} (k : κ) (v : β)
    (h : (fields.map Prod.fst).Nodup) : ((setField fields k v).map Prod.fst).Nodup := by
  unfold setField
  split
  · rw [map_fst_update]
    exact h
  · rename_i hk
    rw [List.map_append]
    exact List.Nodup.append h (by simp) (by simpa using hk)

theorem lookup_cons_eq (f : κ × β) (fields : List (κ × β)) (k : κ) :
    (f :: fields).lookup k = if k = f.1 then some f.2 else fields.lookup k := by
  obtain ⟨k', x⟩ := f
  rw [List.lookup_cons]
  by_cases hk : k = k'
  · simp [hk]
  · simp [beq_false_of_ne hk, hk]

@[simp] theorem lookup_setField_self (fields : List (κ × β)) (k : κ) (v : β) :
    (setField fields k v).lookup k = some v := by
  unfold setField
  split
  · rename_i hk
    induction fields with
    | nil => cases hk
    | cons f fields ih =>
        by_cases hf : f.1 = k
        · simp [hf]
        · have hk' : k ∈ fields.map Prod.fst := by
            rcases List.mem_cons.mp hk with heq | hk
            · exact absurd heq.symm hf
            · exact hk
          rw [List.map_cons, if_neg hf, lookup_cons_eq, if_neg (Ne.symm hf)]
          exact ih hk'
  · rename_i hk
    induction fields with
    | nil => simp
    | cons f fields ih =>
        rw [List.map_cons, List.mem_cons, not_or] at hk
        rw [List.cons_append, lookup_cons_eq, if_neg hk.1]
        exact ih hk.2

theorem lookup_setField_of_ne (fields : List (κ × β)) {k k' : κ} (v : β) (hk : k' ≠ k) :
    (setField fields k v).lookup k' = fields.lookup k' := by
  unfold setField
  split
  · rename_i hmem
    clear hmem
    induction fields with
    | nil => rfl
    | cons f fields ih =>
        rw [List.map_cons, lookup_cons_eq, lookup_cons_eq, ih]
        by_cases hf : f.1 = k
        · rw [if_pos hf, if_neg hk, if_neg (hf ▸ hk)]
        · rw [if_neg hf]
  · rename_i hmem
    clear hmem
    induction fields with
    | nil => rw [List.nil_append, lookup_cons_eq, if_neg hk]
    | cons f fields ih => rw [List.cons_append, lookup_cons_eq, lookup_cons_eq, ih]

theorem mem_keys_setField (fields : List (κ × β)) (k : κ) (v : β) :
    k ∈ (setField fields k v).map Prod.fst := by
  unfold setField
  split
  · rename_i hk
    rwa [map_fst_update]
  · simp

theorem setField_setField (fields : List (κ × β)) (k : κ) (v w : β) :
    setField (setField fields k v) k w = setField fields k w := by
  rw [setField_of_mem w (mem_keys_setField fields k v)]
  unfold setField
  split
  · rw [List.map_map]
    apply List.map_congr_left
    intro f _
    by_cases hf : f.1 = k <;> simp [hf]
  · rename_i hk
    have hfix : (fields.map fun f => if f.1 = k then (k, w) else f) = fields := by
      conv_rhs => rw [← List.map_id fields]
      apply List.map_congr_left
      intro f hf
      have hne : f.1 ≠ k := fun heq => hk (heq ▸ List.mem_map_of_mem hf)
      simp [hne]
    rw [List.map_append, hfix]
    simp

/-- Writing back what is there changes nothing. -/
theorem setField_self {fields : List (κ × β)} {k : κ} {v : β}
    (hdistinct : (fields.map Prod.fst).Nodup) (hk : fields.lookup k = some v) :
    setField fields k v = fields := by
  have hmem : k ∈ fields.map Prod.fst := by
    by_contra hk'
    rw [List.lookup_eq_none_iff.mpr fun f hf => ?_] at hk
    · cases hk
    · exact bne_iff_ne.mpr fun heq => hk' (heq ▸ List.mem_map_of_mem hf)
  rw [setField_of_mem v hmem]
  clear hmem
  induction fields with
  | nil => rfl
  | cons f fields ih =>
      rw [List.map_cons, List.nodup_cons] at hdistinct
      rw [lookup_cons_eq] at hk
      rw [List.map_cons]
      by_cases hf : f.1 = k
      · rw [if_pos hf.symm, Option.some.injEq] at hk
        have hne : ∀ g ∈ fields, g.1 ≠ k := fun g hg heq =>
          hdistinct.1 (hf.trans heq.symm ▸ List.mem_map_of_mem hg)
        rw [if_pos hf, ← hk, ← hf]
        congr 1
        conv_rhs => rw [← List.map_id fields]
        exact List.map_congr_left fun g hg => by simp [hf, hne g hg]
      · rw [if_neg (Ne.symm hf)] at hk
        rw [if_neg hf, ih hdistinct.2 hk]

end Fields

/-! ### Reading and writing cells -/

namespace Heap

/-- The heap without cells. -/
def empty : Heap κ α τ where
  cell _ := none
  next := 0
  fresh _ _ := rfl

/-- Allocate a cell at the allocation pointer. -/
def alloc (h : Heap κ α τ) (c : Cell κ α τ) : Heap κ α τ where
  cell a := if a = h.next then some c else h.cell a
  next := h.next + 1
  fresh a ha := by
    rw [if_neg (by omega)]
    exact h.fresh a (by omega)

/-- Overwrite an allocated cell; writing past the allocation pointer does
nothing. -/
def write (h : Heap κ α τ) (a : ℕ) (c : Cell κ α τ) : Heap κ α τ where
  cell b := if b = a ∧ a < h.next then some c else h.cell b
  next := h.next
  fresh b hb := by
    rw [if_neg (by omega)]
    exact h.fresh b hb

theorem lt_next_of_cell {h : Heap κ α τ} {a : ℕ} {c : Cell κ α τ}
    (hc : h.cell a = some c) : a < h.next := by
  by_contra hge
  rw [h.fresh a (by omega)] at hc
  cases hc

@[simp] theorem alloc_next (h : Heap κ α τ) (c : Cell κ α τ) :
    (h.alloc c).next = h.next + 1 := rfl

@[simp] theorem alloc_cell_self (h : Heap κ α τ) (c : Cell κ α τ) :
    (h.alloc c).cell h.next = some c := by
  simp [alloc]

theorem alloc_cell_of_lt {h : Heap κ α τ} {a : ℕ} (c : Cell κ α τ)
    (ha : a < h.next) : (h.alloc c).cell a = h.cell a := by
  simp [alloc, Nat.ne_of_lt ha]

theorem alloc_cell_of_some {h : Heap κ α τ} {a : ℕ} {c' : Cell κ α τ}
    (c : Cell κ α τ) (ha : h.cell a = some c') : (h.alloc c).cell a = some c' := by
  rw [alloc_cell_of_lt c (lt_next_of_cell ha), ha]

@[simp] theorem write_next (h : Heap κ α τ) (a : ℕ) (c : Cell κ α τ) :
    (h.write a c).next = h.next := rfl

theorem write_cell_self {h : Heap κ α τ} {a : ℕ} {c₀ : Cell κ α τ}
    (c : Cell κ α τ) (ha : h.cell a = some c₀) : (h.write a c).cell a = some c := by
  simp [write, lt_next_of_cell ha]

theorem write_cell_of_ne (h : Heap κ α τ) {a b : ℕ} (c : Cell κ α τ) (hb : b ≠ a) :
    (h.write a c).cell b = h.cell b := by
  simp [write, hb]

@[ext] theorem ext {h h' : Heap κ α τ} (hcell : ∀ a, h.cell a = h'.cell a)
    (hnext : h.next = h'.next) : h = h' := by
  cases h
  cases h'
  simp only [mk.injEq]
  exact ⟨funext hcell, hnext⟩

end Heap

end MetaMonkey.ObjectGraph
