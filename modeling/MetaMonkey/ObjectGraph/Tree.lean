import MetaMonkey.ObjectGraph.Heap
import Mathlib.Data.List.Basic

/-!
Finite unfoldings of a heap. A tree is what is seen by following references
from a value: every explored cell appears with its address, and a reference
that is not followed stays a leaf. An address may occur more than once, so a
tree also describes an acyclic graph with sharing; it describes a proper tree
of cells when its addresses are distinct.
-/

namespace MetaMonkey.ObjectGraph

inductive Tree (κ α τ : Type) where
  | leaf (v : Val α)
  | record (a : ℕ) (tag : τ) (fields : List (κ × Tree κ α τ))
  | array (a : ℕ) (elems : List (Tree κ α τ))

variable {κ α τ : Type}

namespace Tree

/-- Induction over a tree with the hypothesis for every field and element. -/
@[elab_as_elim, induction_eliminator]
theorem induct {P : Tree κ α τ → Prop} (leaf : ∀ v, P (.leaf v))
    (record : ∀ a tag fields, (∀ f ∈ fields, P f.2) → P (.record a tag fields))
    (array : ∀ a elems, (∀ e ∈ elems, P e) → P (.array a elems)) (t : Tree κ α τ) : P t :=
  Tree.rec (motive_1 := P) (motive_2 := fun fields => ∀ f ∈ fields, P f.2)
    (motive_3 := fun elems => ∀ e ∈ elems, P e) (motive_4 := fun f => P f.2)
    leaf record array (by simp) (fun _ _ hf hfs => List.forall_mem_cons.mpr ⟨hf, hfs⟩)
    (by simp) (fun _ _ he hes => List.forall_mem_cons.mpr ⟨he, hes⟩) (fun _ _ ht => ht) t

/-- The value a tree unfolds. -/
def val : Tree κ α τ → Val α
  | .leaf v => v
  | .record a _ _ => .ref a
  | .array a _ => .ref a

@[simp] theorem val_leaf (v : Val α) : (leaf v : Tree κ α τ).val = v := rfl

@[simp] theorem val_record (a : ℕ) (tag : τ) (fields : List (κ × Tree κ α τ)) :
    (record a tag fields).val = .ref a := rfl

@[simp] theorem val_array (a : ℕ) (elems : List (Tree κ α τ)) :
    (array a elems : Tree κ α τ).val = .ref a := rfl

mutual

/-- All subtrees, leaves included, each before those below it. -/
def subtrees : Tree κ α τ → List (Tree κ α τ)
  | .leaf v => [.leaf v]
  | .record a tag fields => .record a tag fields :: subtreesFields fields
  | .array a elems => .array a elems :: subtreesElems elems

def subtreesFields : List (κ × Tree κ α τ) → List (Tree κ α τ)
  | [] => []
  | (_, t) :: rest => t.subtrees ++ subtreesFields rest

def subtreesElems : List (Tree κ α τ) → List (Tree κ α τ)
  | [] => []
  | t :: rest => t.subtrees ++ subtreesElems rest

end

theorem subtreesFields_eq (fields : List (κ × Tree κ α τ)) :
    subtreesFields fields = fields.flatMap fun f => f.2.subtrees := by
  induction fields with
  | nil => rfl
  | cons f rest ih => simp [subtreesFields, ih]

theorem subtreesElems_eq (elems : List (Tree κ α τ)) :
    subtreesElems elems = elems.flatMap subtrees := by
  induction elems with
  | nil => rfl
  | cons e rest ih => simp [subtreesElems, ih]

@[simp] theorem subtrees_leaf (v : Val α) :
    (leaf v : Tree κ α τ).subtrees = [leaf v] := rfl

@[simp] theorem subtrees_record (a : ℕ) (tag : τ) (fields : List (κ × Tree κ α τ)) :
    (record a tag fields).subtrees =
      record a tag fields :: fields.flatMap fun f => f.2.subtrees := by
  rw [subtrees, subtreesFields_eq]

@[simp] theorem subtrees_array (a : ℕ) (elems : List (Tree κ α τ)) :
    (array a elems : Tree κ α τ).subtrees = array a elems :: elems.flatMap subtrees := by
  rw [subtrees, subtreesElems_eq]

@[simp] theorem self_mem_subtrees (t : Tree κ α τ) : t ∈ t.subtrees := by
  cases t <;> simp

theorem subtrees_of_field {a : ℕ} {tag : τ} {fields : List (κ × Tree κ α τ)}
    {f : κ × Tree κ α τ} (hf : f ∈ fields) {s : Tree κ α τ} (hs : s ∈ f.2.subtrees) :
    s ∈ (record a tag fields).subtrees := by
  rw [subtrees_record]
  exact List.mem_cons_of_mem _ (List.mem_flatMap.mpr ⟨f, hf, hs⟩)

theorem subtrees_of_elem {a : ℕ} {elems : List (Tree κ α τ)} {e : Tree κ α τ}
    (he : e ∈ elems) {s : Tree κ α τ} (hs : s ∈ e.subtrees) :
    s ∈ (array a elems : Tree κ α τ).subtrees := by
  rw [subtrees_array]
  exact List.mem_cons_of_mem _ (List.mem_flatMap.mpr ⟨e, he, hs⟩)

theorem subtrees_trans {r s t : Tree κ α τ} (hrs : r ∈ s.subtrees) (hst : s ∈ t.subtrees) :
    r ∈ t.subtrees := by
  induction t with
  | leaf v =>
      rw [subtrees_leaf, List.mem_singleton] at hst
      rwa [hst] at hrs
  | record a tag fields ih =>
      rcases List.mem_cons.mp (subtrees_record a tag fields ▸ hst) with rfl | hst
      · exact hrs
      · obtain ⟨f, hf, hst⟩ := List.mem_flatMap.mp hst
        exact subtrees_of_field hf (ih f hf hst)
  | array a elems ih =>
      rcases List.mem_cons.mp (subtrees_array a elems ▸ hst) with rfl | hst
      · exact hrs
      · obtain ⟨e, he, hst⟩ := List.mem_flatMap.mp hst
        exact subtrees_of_elem he (ih e he hst)

/-- The address of an explored cell. -/
def label? : Tree κ α τ → Option ℕ
  | .leaf _ => none
  | .record a _ _ => some a
  | .array a _ => some a

/-- The addresses of the explored cells, with repetitions. -/
def labels (t : Tree κ α τ) : List ℕ := t.subtrees.filterMap label?

@[simp] theorem labels_leaf (v : Val α) : (leaf v : Tree κ α τ).labels = [] := rfl

@[simp] theorem labels_record (a : ℕ) (tag : τ) (fields : List (κ × Tree κ α τ)) :
    (record a tag fields).labels = a :: fields.flatMap fun f => f.2.labels := by
  simp [labels, label?, List.filterMap_flatMap]

@[simp] theorem labels_array (a : ℕ) (elems : List (Tree κ α τ)) :
    (array a elems : Tree κ α τ).labels = a :: elems.flatMap labels := by
  simp only [labels, subtrees_array, List.filterMap_cons, label?, List.filterMap_flatMap]
  rfl

/-- No reference is left unexplored. -/
def Closed (t : Tree κ α τ) : Prop := ∀ s ∈ t.subtrees, ∀ a, s ≠ .leaf (.ref a)

/-- A leaf that is a reference. -/
def isUnexplored : Tree κ α τ → Bool
  | .leaf (.ref _) => true
  | _ => false

instance (t : Tree κ α τ) : Decidable t.Closed :=
  decidable_of_iff (∀ s ∈ t.subtrees, s.isUnexplored = false) <| by
    refine forall₂_congr fun s _ => ?_
    match s with
    | .leaf (.ref a) => simp [isUnexplored]
    | .leaf (.leaf x) => simp [isUnexplored]
    | .record a tag fields => simp [isUnexplored]
    | .array a elems => simp [isUnexplored]

theorem Closed.subtree {s t : Tree κ α τ} (ht : t.Closed) (hs : s ∈ t.subtrees) : s.Closed :=
  fun _ hr => ht _ (subtrees_trans hr hs)

mutual

/-- The number of levels of cells. -/
def height : Tree κ α τ → ℕ
  | .leaf _ => 0
  | .record _ _ fields => heightFields fields + 1
  | .array _ elems => heightElems elems + 1

def heightFields : List (κ × Tree κ α τ) → ℕ
  | [] => 0
  | (_, t) :: rest => max t.height (heightFields rest)

def heightElems : List (Tree κ α τ) → ℕ
  | [] => 0
  | t :: rest => max t.height (heightElems rest)

end

theorem height_le_heightFields {fields : List (κ × Tree κ α τ)} {f : κ × Tree κ α τ}
    (hf : f ∈ fields) : f.2.height ≤ heightFields fields := by
  induction fields with
  | nil => cases hf
  | cons g rest ih =>
      rw [heightFields]
      rcases List.mem_cons.mp hf with rfl | hf
      · exact Nat.le_max_left _ _
      · exact Nat.le_trans (ih hf) (Nat.le_max_right _ _)

theorem heightFields_le {fields : List (κ × Tree κ α τ)} {n : ℕ}
    (hfields : ∀ f ∈ fields, f.2.height ≤ n) : heightFields fields ≤ n := by
  induction fields with
  | nil => exact Nat.zero_le n
  | cons f rest ih =>
      rw [List.forall_mem_cons] at hfields
      rw [heightFields]
      exact Nat.max_le.mpr ⟨hfields.1, ih hfields.2⟩

theorem height_le_heightElems {elems : List (Tree κ α τ)} {e : Tree κ α τ}
    (he : e ∈ elems) : e.height ≤ heightElems elems := by
  induction elems with
  | nil => cases he
  | cons g rest ih =>
      rw [heightElems]
      rcases List.mem_cons.mp he with rfl | he
      · exact Nat.le_max_left _ _
      · exact Nat.le_trans (ih he) (Nat.le_max_right _ _)

theorem height_field_lt {a : ℕ} {tag : τ} {fields : List (κ × Tree κ α τ)}
    {f : κ × Tree κ α τ} (hf : f ∈ fields) : f.2.height < (record a tag fields).height := by
  rw [height]
  exact Nat.lt_succ_of_le (height_le_heightFields hf)

theorem height_elem_lt {a : ℕ} {elems : List (Tree κ α τ)} {e : Tree κ α τ}
    (he : e ∈ elems) : e.height < (array a elems : Tree κ α τ).height := by
  rw [height]
  exact Nat.lt_succ_of_le (height_le_heightElems he)

end Tree

/-! ### Trees held by a heap -/

namespace Heap

/-- The root cell of the tree is stored as the tree shows it. -/
def Shows (h : Heap κ α τ) : Tree κ α τ → Prop
  | .leaf _ => True
  | .record a tag fields =>
      ∃ distinct, h.cell a =
        some (.record tag (fields.map fun f => (f.1, f.2.val)) distinct)
  | .array a elems => h.cell a = some (.array (elems.map Tree.val))

instance [DecidableEq κ] [DecidableEq α] [DecidableEq τ] (h : Heap κ α τ) (t : Tree κ α τ) :
    Decidable (h.Shows t) :=
  match t with
  | .leaf _ => isTrue trivial
  | .record a tag fields =>
      if hd : ((fields.map fun f => (f.1, f.2.val)).map Prod.fst).Nodup then
        decidable_of_iff (h.cell a = some (.record tag (fields.map fun f => (f.1, f.2.val)) hd))
          ⟨fun hc => ⟨hd, hc⟩, fun ⟨_, hc⟩ => hc⟩
      else isFalse fun ⟨hd', _⟩ => hd hd'
  | .array a elems => inferInstanceAs (Decidable (h.cell a = some (.array (elems.map Tree.val))))

/-- Every explored cell is stored as the tree shows it. -/
def Holds (h : Heap κ α τ) (t : Tree κ α τ) : Prop := ∀ s ∈ t.subtrees, h.Shows s

instance [DecidableEq κ] [DecidableEq α] [DecidableEq τ] (h : Heap κ α τ) (t : Tree κ α τ) :
    Decidable (h.Holds t) :=
  inferInstanceAs (Decidable (∀ s ∈ t.subtrees, h.Shows s))

theorem Holds.shows {h : Heap κ α τ} {t : Tree κ α τ} (ht : h.Holds t) : h.Shows t :=
  ht t t.self_mem_subtrees

theorem Holds.subtree {h : Heap κ α τ} {s t : Tree κ α τ} (ht : h.Holds t)
    (hs : s ∈ t.subtrees) : h.Holds s :=
  fun r hr => ht r (Tree.subtrees_trans hr hs)

theorem Holds.field {h : Heap κ α τ} {a : ℕ} {tag : τ} {fields : List (κ × Tree κ α τ)}
    {f : κ × Tree κ α τ} (ht : h.Holds (.record a tag fields)) (hf : f ∈ fields) :
    h.Holds f.2 :=
  ht.subtree (Tree.subtrees_of_field hf f.2.self_mem_subtrees)

theorem Holds.elem {h : Heap κ α τ} {a : ℕ} {elems : List (Tree κ α τ)} {e : Tree κ α τ}
    (ht : h.Holds (.array a elems)) (he : e ∈ elems) : h.Holds e :=
  ht.subtree (Tree.subtrees_of_elem he e.self_mem_subtrees)

/-- Frame rule: a tree is still held when its own cells have not changed. -/
theorem Holds.frame {h h' : Heap κ α τ} {t : Tree κ α τ} (ht : h.Holds t)
    (hcell : ∀ a ∈ t.labels, h'.cell a = h.cell a) : h'.Holds t := by
  intro s hs
  have hshows := ht s hs
  have hlabel : ∀ a, s.label? = some a → h'.cell a = h.cell a := fun a ha =>
    hcell a (List.mem_filterMap.mpr ⟨s, hs, ha⟩)
  cases s with
  | leaf v => trivial
  | record a tag fields =>
      obtain ⟨d, hc⟩ := hshows
      exact ⟨d, (hlabel a rfl).trans hc⟩
  | array a elems => exact (hlabel a rfl).trans hshows

theorem eq_of_map_eq {β γ : Type} {f : β → γ} {l l' : List β}
    (hf : ∀ x ∈ l, ∀ y ∈ l', f x = f y → x = y) (hl : l.map f = l'.map f) : l = l' := by
  induction l generalizing l' with
  | nil =>
      cases l' with
      | nil => rfl
      | cons y l' => cases hl
  | cons x l ih =>
      cases l' with
      | nil => cases hl
      | cons y l' =>
          rw [List.map_cons, List.map_cons, List.cons.injEq] at hl
          rw [hf x (by simp) y (by simp) hl.1,
            ih (fun z hz w hw => hf z (by simp [hz]) w (by simp [hw])) hl.2]

/-- Cells keep their contents from one heap to the next. -/
def Extends (h h' : Heap κ α τ) : Prop := ∀ a c, h.cell a = some c → h'.cell a = some c

theorem Extends.refl (h : Heap κ α τ) : h.Extends h := fun _ _ hc => hc

theorem Extends.trans {h₁ h₂ h₃ : Heap κ α τ} (h₁₂ : h₁.Extends h₂) (h₂₃ : h₂.Extends h₃) :
    h₁.Extends h₃ :=
  fun _ c hc => h₂₃ _ c (h₁₂ _ c hc)

theorem extends_alloc (h : Heap κ α τ) (c : Cell κ α τ) : h.Extends (h.alloc c) :=
  fun _ _ hc => alloc_cell_of_some c hc

/-- The heap whose cells are listed from address zero on. -/
def ofCells (cells : List (Cell κ α τ)) : Heap κ α τ where
  cell a := cells[a]?
  next := cells.length
  fresh _ ha := List.getElem?_eq_none ha

/-- The cell a tree shows at its root. -/
def rootCell [DecidableEq κ] : Tree κ α τ → Option (Cell κ α τ)
  | .leaf _ => none
  | .record _ tag fields =>
      if hd : ((fields.map fun f => (f.1, f.2.val)).map Prod.fst).Nodup then
        some (.record tag (fields.map fun f => (f.1, f.2.val)) hd)
      else none
  | .array _ elems => some (.array (elems.map Tree.val))

/-- The heap with the cells of some trees. -/
def ofTrees [DecidableEq κ] (ts : List (Tree κ α τ)) : Heap κ α τ where
  cell a := ((ts.flatMap Tree.subtrees).find? fun s => s.label? = some a).bind rootCell
  next := (ts.flatMap Tree.labels).foldr max 0 + 1
  fresh a ha := by
    have hmax : ∀ (l : List ℕ) {b : ℕ}, b ∈ l → b ≤ l.foldr max 0 := by
      intro l
      induction l with
      | nil => simp
      | cons c l ih =>
          intro b hb
          rw [List.foldr_cons]
          rcases List.mem_cons.mp hb with rfl | hb
          · exact Nat.le_max_left _ _
          · exact Nat.le_trans (ih hb) (Nat.le_max_right _ _)
    rw [Option.bind_eq_none_iff]
    intro s hs
    have hlabel : s.label? = some a := by simpa using List.find?_some hs
    obtain ⟨t, ht, hst⟩ := List.mem_flatMap.mp (List.mem_of_find?_eq_some hs)
    have hmem : a ∈ ts.flatMap Tree.labels :=
      List.mem_flatMap.mpr ⟨t, ht, List.mem_filterMap.mpr ⟨s, hst, hlabel⟩⟩
    have hle := hmax _ hmem
    omega

end Heap

end MetaMonkey.ObjectGraph
