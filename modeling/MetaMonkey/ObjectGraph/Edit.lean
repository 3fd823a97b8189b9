import MetaMonkey.ObjectGraph.Tree
import Mathlib.Data.List.Nodup

/-!
Edits of a heap. An edit puts other values in place of an element of an array,
or another value in a field of a record. A list of edits is applied
simultaneously; edits at different places can as well be made one after
another.
-/

namespace MetaMonkey.ObjectGraph

/-- The values `nodes` are put at a place of the cell `parent`: at an element,
or in a field. -/
structure Edit (κ α : Type) where
  parent : ℕ
  place : Val α ⊕ κ
  nodes : List (Val α)

variable {κ α τ : Type} [DecidableEq κ] [DecidableEq α]

namespace Edit

/-- The edit made at a place. -/
def at? (es : List (Edit κ α)) (a : ℕ) (place : Val α ⊕ κ) : Option (List (Val α)) :=
  (es.find? fun e => e.parent = a ∧ e.place = place).map nodes

def elem (es : List (Edit κ α)) (a : ℕ) (v : Val α) : List (Val α) :=
  (at? es a (.inl v)).getD [v]

def field (es : List (Edit κ α)) (a : ℕ) (f : κ × Val α) : κ × Val α :=
  (f.1, ((at? es a (.inr f.1)).bind List.head?).getD f.2)

theorem map_field_keys (es : List (Edit κ α)) (a : ℕ) (fields : List (κ × Val α)) :
    (fields.map (field es a)).map Prod.fst = fields.map Prod.fst := by
  rw [List.map_map]
  rfl

/-- All edits of a cell at once. -/
def cell (es : List (Edit κ α)) (a : ℕ) : Cell κ α τ → Cell κ α τ
  | .record tag fields distinct =>
      .record tag (fields.map (field es a)) ((map_field_keys es a fields).symm ▸ distinct)
  | .array elems => .array (elems.flatMap (elem es a))

theorem at?_eq_none {es : List (Edit κ α)} {a : ℕ} {place : Val α ⊕ κ} :
    at? es a place = none ↔ ∀ e ∈ es, ¬ (e.parent = a ∧ e.place = place) := by
  simp [at?]

theorem at?_append (es es' : List (Edit κ α)) (a : ℕ) (place : Val α ⊕ κ) :
    at? (es ++ es') a place = (at? es a place).or (at? es' a place) := by
  simp only [at?, List.find?_append]
  cases es.find? fun e => e.parent = a ∧ e.place = place <;> rfl

/-- Cells at which no edit is made stay as they are. -/
theorem cell_of_not_mem {es : List (Edit κ α)} {a : ℕ} (ha : ∀ e ∈ es, e.parent ≠ a)
    (c : Cell κ α τ) : cell es a c = c := by
  have hnone : ∀ place, at? es a place = none := fun place =>
    at?_eq_none.mpr fun e he heq => ha e he heq.1
  cases c with
  | record tag fields distinct =>
      have hfield : field es a = id := by
        funext f
        simp [field, hnone]
      simp [cell, hfield]
  | array elems =>
      have helem : elem es a = fun v => [v] := by
        funext v
        simp [elem, hnone]
      simp [cell, helem]

/-- The edits of the second list are made at other places, which the first
list does not put values at. -/
structure Apart (es es' : List (Edit κ α)) : Prop where
  places : ∀ e ∈ es, ∀ e' ∈ es', ¬ (e.parent = e'.parent ∧ e.place = e'.place)
  nodes : ∀ e ∈ es, ∀ e' ∈ es', e.parent = e'.parent → ∀ v ∈ e.nodes, e'.place ≠ .inl v

variable {es es' : List (Edit κ α)}

theorem at?_mem {a : ℕ} {place : Val α ⊕ κ} {nodes : List (Val α)}
    (hat : at? es a place = some nodes) :
    ∃ e ∈ es, e.parent = a ∧ e.place = place ∧ e.nodes = nodes := by
  obtain ⟨e, he, rfl⟩ := Option.map_eq_some_iff.mp hat
  have hplace := List.find?_some he
  simp only [decide_eq_true_eq] at hplace
  exact ⟨e, List.mem_of_find?_eq_some he, hplace.1, hplace.2, rfl⟩

theorem elem_flatMap_elem (h : Apart es es') (a : ℕ) (v : Val α) :
    (elem es a v).flatMap (elem es' a) = elem (es ++ es') a v := by
  simp only [elem, at?_append]
  cases hat : at? es a (.inl v) with
  | none => simp [elem]
  | some nodes =>
      obtain ⟨e, he, rfl, hplace, rfl⟩ := at?_mem hat
      have hkeep : ∀ w ∈ e.nodes, elem es' e.parent w = [w] := by
        intro w hw
        have hnone : at? es' e.parent (.inl w) = none := at?_eq_none.mpr fun e' he' heq =>
          h.nodes e he e' he' heq.1.symm w hw heq.2
        simp [elem, hnone]
      simp [List.flatMap_congr hkeep]

theorem field_field (h : Apart es es') (a : ℕ) (f : κ × Val α) :
    field es' a (field es a f) = field (es ++ es') a f := by
  simp only [field, at?_append]
  cases hat : at? es a (.inr f.1) with
  | none => simp
  | some nodes =>
      obtain ⟨e, he, rfl, hplace, rfl⟩ := at?_mem hat
      have hnone : at? es' e.parent (.inr f.1) = none := at?_eq_none.mpr fun e' he' heq =>
        h.places e he e' he' ⟨heq.1.symm, hplace.trans heq.2.symm⟩
      simp [hnone]

/-- Edits at different places, one list after the other. -/
theorem cell_cell (h : Apart es es') (a : ℕ) (c : Cell κ α τ) :
    cell es' a (cell es a c) = cell (es ++ es') a c := by
  cases c with
  | record tag fields distinct =>
      simp only [cell, List.map_map, Cell.record.injEq, true_and]
      exact List.map_congr_left fun f _ => field_field h a f
  | array elems =>
      simp only [cell, List.flatMap_assoc, Cell.array.injEq]
      exact List.flatMap_congr fun v _ => elem_flatMap_elem h a v

/-- One element is replaced. -/
theorem cell_array_single (a : ℕ) {v : Val α} {elems nodes : List (Val α)}
    (hv : elems.count v = 1) :
    cell [⟨a, .inl v, nodes⟩] a (.array elems : Cell κ α τ) =
      .array (elems.take (elems.idxOf v) ++ nodes ++ elems.drop (elems.idxOf v + 1)) := by
  have helem : ∀ w, elem ([⟨a, .inl v, nodes⟩] : List (Edit κ α)) a w =
      if v = w then nodes else [w] := by
    intro w
    by_cases hw : v = w <;> simp [elem, at?, hw]
  simp only [cell, Cell.array.injEq]
  induction elems with
  | nil => cases hv
  | cons w elems ih =>
      rw [List.flatMap_cons, helem]
      by_cases hw : v = w
      · subst hw
        rw [List.count_cons_self] at hv
        have hrest : ∀ u ∈ elems, elem ([⟨a, .inl v, nodes⟩] : List (Edit κ α)) a u = [u] := by
          intro u hu
          have hne : v ≠ u := by
            rintro rfl
            have := List.count_pos_iff.mpr hu
            omega
          rw [helem, if_neg hne]
        rw [List.flatMap_congr hrest]
        simp
      · rw [List.count_cons_of_ne (Ne.symm hw)] at hv
        rw [if_neg hw, ih hv, List.idxOf_cons_ne _ (Ne.symm hw)]
        simp

/-- One field is assigned. -/
theorem cell_record_single (a : ℕ) (tag : τ) {k : κ} {v : Val α} {fields : List (κ × Val α)}
    (distinct : (fields.map Prod.fst).Nodup) (hk : k ∈ fields.map Prod.fst) :
    cell [⟨a, .inr k, [v]⟩] a (.record tag fields distinct) =
      .record tag (setField fields k v) (setField_distinct k v distinct) := by
  simp only [cell, Cell.record.injEq, true_and]
  rw [setField_of_mem v hk]
  refine List.map_congr_left fun f _ => ?_
  by_cases hf : f.1 = k
  · simp [field, at?, hf]
  · have hf' : ¬ k = f.1 := fun heq => hf heq.symm
    simp [field, at?, hf, hf']

end Edit

/-! ### Edits of a heap -/

/-- The cells of the region have become what the edits make of them. -/
def Heap.Edited (h h' : Heap κ α τ) (region : ℕ → Prop) (es : List (Edit κ α)) : Prop :=
  ∀ a c, region a → h.cell a = some c → h'.cell a = some (Edit.cell es a c)

/-- There is just one such place in the cell. -/
def Heap.Place (h : Heap κ α τ) (a : ℕ) : Val α ⊕ κ → Prop
  | .inl v => ∃ elems, h.cell a = some (.array elems) ∧ elems.count v = 1
  | .inr k => ∃ tag fields distinct,
      h.cell a = some (.record tag fields distinct) ∧ k ∈ fields.map Prod.fst

namespace Heap

variable {h h' h'' : Heap κ α τ} {region : ℕ → Prop} {es es' : List (Edit κ α)}

theorem edited_nil (hcell : ∀ a, region a → h'.cell a = h.cell a) : h.Edited h' region [] := by
  intro a c ha hc
  rw [Edit.cell_of_not_mem (by simp), hcell a ha, hc]

theorem Edited.trans (hes : h.Edited h' region es) (hes' : h'.Edited h'' region es')
    (hapart : Edit.Apart es es') : h.Edited h'' region (es ++ es') := by
  intro a c ha hc
  rw [← Edit.cell_cell hapart]
  exact hes' a _ ha (hes a c ha hc)

theorem Edited.mono {region' : ℕ → Prop} (hes : h.Edited h' region es)
    (hsub : ∀ a, region' a → region a) : h.Edited h' region' es :=
  fun a c ha hc => hes a c (hsub a ha) hc

theorem count_flatMap_elem {elems : List (Val α)} {v : Val α} {a : ℕ}
    (hplace : ∀ e ∈ es, ¬ (e.parent = a ∧ e.place = .inl v))
    (hnodes : ∀ e ∈ es, e.parent = a → v ∉ e.nodes) :
    (elems.flatMap (Edit.elem es a)).count v = elems.count v := by
  induction elems with
  | nil => rfl
  | cons w elems ih =>
      rw [List.flatMap_cons, List.count_append, ih]
      by_cases hw : w = v
      · subst hw
        rw [List.count_cons_self, Edit.elem, Edit.at?_eq_none.mpr hplace]
        simp [Nat.add_comm]
      · rw [List.count_cons_of_ne hw]
        have hzero : (Edit.elem es a w).count v = 0 := by
          rw [List.count_eq_zero, Edit.elem]
          cases hat : Edit.at? es a (.inl w) with
          | none => simpa using Ne.symm hw
          | some nodes =>
              obtain ⟨e, he, hparent, -, rfl⟩ := Edit.at?_mem hat
              exact hnodes e he hparent
        omega

/-- A place stays where it is when other places are edited. -/
theorem Place.edited {e : Edit κ α} (hplace : h.Place e.parent e.place)
    (hes : h.Edited h' region es) (hregion : region e.parent) (hapart : Edit.Apart es [e]) :
    h'.Place e.parent e.place := by
  obtain ⟨a, place, nodes⟩ := e
  have hplaces : ∀ e' ∈ es, ¬ (e'.parent = a ∧ e'.place = place) := fun e' he' =>
    hapart.places e' he' _ (List.mem_singleton_self _)
  cases place with
  | inl v =>
      obtain ⟨elems, hc, hcount⟩ := hplace
      refine ⟨elems.flatMap (Edit.elem es a), hes a _ hregion hc, ?_⟩
      rw [count_flatMap_elem hplaces, hcount]
      exact fun e' he' hparent hv =>
        hapart.nodes e' he' _ (List.mem_singleton_self _) hparent v hv rfl
  | inr k =>
      obtain ⟨tag, fields, distinct, hc, hk⟩ := hplace
      refine ⟨tag, _, _, hes a _ hregion hc, ?_⟩
      rwa [Edit.map_field_keys]

theorem edited_splice {a : ℕ} {v : Val α} {elems nodes : List (Val α)}
    (hc : h.cell a = some (.array elems)) (hv : elems.count v = 1) :
    h.Edited (h.write a (.array (elems.take (elems.idxOf v) ++ nodes ++
      elems.drop (elems.idxOf v + 1)))) (fun _ => True) [⟨a, .inl v, nodes⟩] := by
  intro b c _ hb
  by_cases hba : b = a
  · subst hba
    cases hc.symm.trans hb
    rw [Edit.cell_array_single b hv, write_cell_self _ hc]
  · rw [write_cell_of_ne h _ hba, hb, Edit.cell_of_not_mem]
    simpa using Ne.symm hba

theorem edited_setField {a : ℕ} {tag : τ} {k : κ} {v : Val α} {fields : List (κ × Val α)}
    {distinct : (fields.map Prod.fst).Nodup} (hc : h.cell a = some (.record tag fields distinct))
    (hk : k ∈ fields.map Prod.fst) :
    h.Edited (h.write a (.record tag (setField fields k v) (setField_distinct k v distinct)))
      (fun _ => True) [⟨a, .inr k, [v]⟩] := by
  intro b c _ hb
  by_cases hba : b = a
  · subst hba
    cases hc.symm.trans hb
    rw [Edit.cell_record_single b tag distinct hk, write_cell_self _ hc]
  · rw [write_cell_of_ne h _ hba, hb, Edit.cell_of_not_mem]
    simpa using Ne.symm hba

end Heap

end MetaMonkey.ObjectGraph
