import MetaMonkey.ObjectGraph.Edit
import Mathlib.Data.List.Find
import Mathlib.Data.List.Pairwise
import Mathlib.Data.List.Perm.Basic

/-!
Substitution in a tree: other trees are put in the place of some of its nodes, all at once,
any number of them where the node is an element of an array and one where it is in a field.
Edits of a heap that holds the tree make it hold the tree that results.
-/

namespace MetaMonkey.ObjectGraph

variable {κ α τ : Type}

namespace Tree

/-! ### Places -/

/-- A place in a tree: an element of an array, which is named by what it is, or a field. -/
structure Edge (κ α τ : Type) where
  parent : ℕ
  place : Val α ⊕ κ
  child : Tree κ α τ

/-- The places in the cell at the root. -/
def rootEdges : Tree κ α τ → List (Edge κ α τ)
  | .leaf _ => []
  | .record a _ fields => fields.map fun f => ⟨a, .inr f.1, f.2⟩
  | .array a elems => elems.map fun e => ⟨a, .inl e.val, e⟩

def edges (t : Tree κ α τ) : List (Edge κ α τ) := t.subtrees.flatMap rootEdges

theorem mem_edges {t : Tree κ α τ} {e : Edge κ α τ} :
    e ∈ t.edges ↔ ∃ s ∈ t.subtrees, e ∈ s.rootEdges :=
  List.mem_flatMap

theorem edges_subtree {s t : Tree κ α τ} (hs : s ∈ t.subtrees) : s.edges ⊆ t.edges := by
  intro e he
  obtain ⟨r, hr, her⟩ := mem_edges.mp he
  exact mem_edges.mpr ⟨r, subtrees_trans hr hs, her⟩

theorem parent_of_mem_rootEdges {t : Tree κ α τ} {e : Edge κ α τ} (he : e ∈ t.rootEdges) :
    t.label? = some e.parent := by
  cases t with
  | leaf v => cases he
  | record a tag fields =>
      obtain ⟨f, -, rfl⟩ := List.mem_map.mp he
      rfl
  | array a elems =>
      obtain ⟨s, -, rfl⟩ := List.mem_map.mp he
      rfl

theorem parent_mem_labels {t : Tree κ α τ} {e : Edge κ α τ} (he : e ∈ t.edges) :
    e.parent ∈ t.labels := by
  obtain ⟨s, hs, hes⟩ := mem_edges.mp he
  exact List.mem_filterMap.mpr ⟨s, hs, parent_of_mem_rootEdges hes⟩

theorem child_mem_subtrees {t : Tree κ α τ} {e : Edge κ α τ} (he : e ∈ t.edges) :
    e.child ∈ t.subtrees := by
  obtain ⟨s, hs, hes⟩ := mem_edges.mp he
  refine subtrees_trans ?_ hs
  cases s with
  | leaf v => cases hes
  | record a tag fields =>
      obtain ⟨f, hf, rfl⟩ := List.mem_map.mp hes
      exact subtrees_of_field hf f.2.self_mem_subtrees
  | array a elems =>
      obtain ⟨c, hc, rfl⟩ := List.mem_map.mp hes
      exact subtrees_of_elem hc c.self_mem_subtrees

theorem val_of_label? {t : Tree κ α τ} {a : ℕ} (ha : t.label? = some a) : t.val = .ref a := by
  cases t with
  | leaf v => cases ha
  | record b tag fields =>
      cases ha
      rfl
  | array b elems =>
      cases ha
      rfl

theorem Closed.label? {t s : Tree κ α τ} (ht : t.Closed) (hs : s ∈ t.subtrees) {a : ℕ}
    (hval : s.val = .ref a) : s.label? = some a := by
  cases s with
  | leaf v => exact absurd (congrArg leaf hval) (ht _ hs a)
  | record b tag fields =>
      cases hval
      rfl
  | array b elems =>
      cases hval
      rfl

theorem eq_of_nodup_filterMap {β γ : Type} {f : β → Option γ} {l : List β}
    (hl : (l.filterMap f).Nodup) {x y : β} (hx : x ∈ l) (hy : y ∈ l) {c : γ}
    (hxc : f x = some c) (hyc : f y = some c) : x = y := by
  by_contra hne
  rw [List.Nodup, List.pairwise_filterMap] at hl
  have hsymm : Std.Symm fun x y => ∀ b ∈ f x, ∀ b' ∈ f y, b ≠ b' :=
    ⟨fun _ _ h b hb b' hb' heq => h b' hb' b hb heq.symm⟩
  exact hl.forall hx hy hne c hxc c hyc rfl

@[simp] theorem edges_leaf (v : Val α) : (leaf v : Tree κ α τ).edges = [] := rfl

@[simp] theorem edges_record (a : ℕ) (tag : τ) (fields : List (κ × Tree κ α τ)) :
    (record a tag fields).edges =
      (fields.map fun f => ⟨a, .inr f.1, f.2⟩) ++ fields.flatMap fun f => f.2.edges := by
  rw [edges, subtrees_record, List.flatMap_cons, List.flatMap_assoc]
  rfl

@[simp] theorem edges_array (a : ℕ) (elems : List (Tree κ α τ)) :
    (array a elems).edges =
      (elems.map fun e => ⟨a, .inl e.val, e⟩) ++ elems.flatMap edges := by
  rw [edges, subtrees_array, List.flatMap_cons, List.flatMap_assoc]
  rfl

theorem labels_perm_cell {β : Type} (l : List β) (edge : β → Edge κ α τ)
    (ih : ∀ x ∈ l, (edge x).child.labels.Perm ((edge x).child.label?.toList ++
      (edge x).child.edges.filterMap fun e => e.child.label?)) :
    (l.flatMap fun x => (edge x).child.labels).Perm
      ((l.map edge ++ l.flatMap fun x => (edge x).child.edges).filterMap
        fun e => e.child.label?) := by
  rw [List.filterMap_append, List.filterMap_map, List.filterMap_eq_flatMap_toList,
    List.filterMap_flatMap]
  exact (List.Perm.flatMap_left _ ih).trans (List.flatMap_append_perm _ _ _).symm

/-- The cells below the root are in the places. -/
theorem labels_perm (t : Tree κ α τ) :
    t.labels.Perm (t.label?.toList ++ t.edges.filterMap fun e => e.child.label?) := by
  induction t with
  | leaf v => exact List.Perm.refl _
  | record a tag fields ih =>
      rw [labels_record, edges_record]
      exact (labels_perm_cell fields (fun f => ⟨a, .inr f.1, f.2⟩) ih).cons a
  | array a elems ih =>
      rw [labels_array, edges_array]
      exact (labels_perm_cell elems (fun e => ⟨a, .inl e.val, e⟩) ih).cons a

/-- A tree whose cells have different addresses, and whose records are stored in a heap. -/
structure Proper (t : Tree κ α τ) : Prop where
  labels : t.labels.Nodup
  closed : t.Closed
  keys : ∀ a tag fields, record a tag fields ∈ t.subtrees → (fields.map Prod.fst).Nodup

variable {t : Tree κ α τ} {e e' : Edge κ α τ}

/-- What is in a place of the tree is nowhere else. -/
theorem Proper.edge_eq (ht : t.Proper) (he : e ∈ t.edges) (he' : e' ∈ t.edges) {b : ℕ}
    (hb : e.child.val = .ref b) (hb' : e'.child.val = .ref b) : e = e' := by
  have hnodup := (List.nodup_append.mp ((labels_perm t).nodup_iff.mp ht.labels)).2.1
  exact eq_of_nodup_filterMap hnodup he he' (ht.closed.label? (child_mem_subtrees he) hb)
    (ht.closed.label? (child_mem_subtrees he') hb')

/-- A place has just one value. -/
theorem Proper.child_eq (ht : t.Proper) (he : e ∈ t.edges) (he' : e' ∈ t.edges)
    (hparent : e.parent = e'.parent) (hplace : e.place = e'.place) :
    e.child.val = e'.child.val := by
  obtain ⟨s, hs, hes⟩ := mem_edges.mp he
  obtain ⟨s', hs', hes'⟩ := mem_edges.mp he'
  obtain rfl : s = s' := eq_of_nodup_filterMap ht.labels hs hs' (parent_of_mem_rootEdges hes)
    (hparent ▸ parent_of_mem_rootEdges hes')
  cases s with
  | leaf v => cases hes
  | record a tag fields =>
      obtain ⟨f, hf, rfl⟩ := List.mem_map.mp hes
      obtain ⟨f', hf', rfl⟩ := List.mem_map.mp hes'
      have hkeys := ht.keys a tag fields hs
      rw [List.inj_on_of_nodup_map hkeys hf hf' (Sum.inr.inj hplace)]
  | array a elems =>
      obtain ⟨c, hc, rfl⟩ := List.mem_map.mp hes
      obtain ⟨c', hc', rfl⟩ := List.mem_map.mp hes'
      exact Sum.inl.inj hplace

theorem sublist_flatMap_of_mem {β γ : Type} {l : List β} {x : β} (hx : x ∈ l) (f : β → List γ) :
    (f x).Sublist (l.flatMap f) := by
  rw [List.flatMap_def]
  exact List.sublist_flatten_of_mem (List.mem_map_of_mem hx)

theorem subtrees_sublist {s t : Tree κ α τ} (hs : s ∈ t.subtrees) :
    s.subtrees.Sublist t.subtrees := by
  induction t with
  | leaf v =>
      rw [subtrees_leaf, List.mem_singleton] at hs
      rw [hs]
  | record a tag fields ih =>
      rcases List.mem_cons.mp (subtrees_record a tag fields ▸ hs) with rfl | hs
      · exact List.Sublist.refl _
      · obtain ⟨f, hf, hs⟩ := List.mem_flatMap.mp hs
        rw [subtrees_record]
        exact ((ih f hf hs).trans (sublist_flatMap_of_mem hf fun f => f.2.subtrees)).cons _
  | array a elems ih =>
      rcases List.mem_cons.mp (subtrees_array a elems ▸ hs) with rfl | hs
      · exact List.Sublist.refl _
      · obtain ⟨e, he, hs⟩ := List.mem_flatMap.mp hs
        rw [subtrees_array]
        exact ((ih e he hs).trans (sublist_flatMap_of_mem he _)).cons _

theorem Proper.subtree {s : Tree κ α τ} (ht : t.Proper) (hs : s ∈ t.subtrees) : s.Proper where
  labels := ht.labels.sublist ((subtrees_sublist hs).filterMap _)
  closed := ht.closed.subtree hs
  keys a tag fields hmem := ht.keys a tag fields (subtrees_trans hmem hs)

/-- An element of an array that is a node stands there once. -/
theorem Proper.count_elem [DecidableEq α] {a b : ℕ} {elems : List (Tree κ α τ)}
    (ht : (array a elems : Tree κ α τ).Proper) {c : Tree κ α τ} (hc : c ∈ elems)
    (hb : c.val = .ref b) : (elems.map val).count (.ref b) = 1 := by
  have hnodup : (elems.filterMap label?).Nodup := by
    have hedges := (List.nodup_append.mp ((labels_perm _).nodup_iff.mp ht.labels)).2.1
    rw [edges_array, List.filterMap_append, List.filterMap_map] at hedges
    exact (List.nodup_append.mp hedges).1
  have hlabel : ∀ s ∈ elems, s.val = .ref b ↔ s.label? = some b := fun s hs =>
    ⟨ht.closed.label? (subtrees_of_elem hs s.self_mem_subtrees), val_of_label?⟩
  have hcount : (elems.map val).count (.ref b) = (elems.filterMap label?).count b := by
    rw [List.count, List.countP_map, List.count_filterMap]
    refine List.countP_congr fun s hs => ?_
    simpa using hlabel s hs
  rw [hcount]
  exact List.count_eq_one_of_mem hnodup
    (List.mem_filterMap.mpr ⟨c, hc, (hlabel c hc).mp hb⟩)

/-! ### Substitution -/

mutual

/-- The tree with the trees `put v` in the place of every node `v` that has some. -/
def substitute (put : Val α → Option (List (Tree κ α τ))) : Tree κ α τ → Tree κ α τ
  | .leaf v => .leaf v
  | .record a tag fields => .record a tag (substituteFields put fields)
  | .array a elems => .array a (substituteElems put elems)

def substituteFields (put : Val α → Option (List (Tree κ α τ))) :
    List (κ × Tree κ α τ) → List (κ × Tree κ α τ)
  | [] => []
  | (k, t) :: rest =>
      (k, ((put t.val).bind List.head?).getD (substitute put t)) :: substituteFields put rest

def substituteElems (put : Val α → Option (List (Tree κ α τ))) :
    List (Tree κ α τ) → List (Tree κ α τ)
  | [] => []
  | t :: rest => (put t.val).getD [substitute put t] ++ substituteElems put rest

end

variable (put : Val α → Option (List (Tree κ α τ)))

/-- What is in a field afterwards. -/
def fieldSubstitute (t : Tree κ α τ) : Tree κ α τ :=
  ((put t.val).bind List.head?).getD (substitute put t)

/-- What is there instead of an element. -/
def elemSubstitute (t : Tree κ α τ) : List (Tree κ α τ) := (put t.val).getD [substitute put t]

theorem substituteFields_eq (fields : List (κ × Tree κ α τ)) :
    substituteFields put fields = fields.map fun f => (f.1, fieldSubstitute put f.2) := by
  induction fields with
  | nil => rfl
  | cons f rest ih =>
      rw [substituteFields, ih]
      rfl

theorem substituteElems_eq (elems : List (Tree κ α τ)) :
    substituteElems put elems = elems.flatMap (elemSubstitute put) := by
  induction elems with
  | nil => rfl
  | cons e rest ih =>
      rw [substituteElems, ih]
      rfl

@[simp] theorem substitute_leaf (v : Val α) : (leaf v : Tree κ α τ).substitute put = leaf v := by
  rw [substitute]

@[simp] theorem substitute_record (a : ℕ) (tag : τ) (fields : List (κ × Tree κ α τ)) :
    (record a tag fields).substitute put =
      record a tag (fields.map fun f => (f.1, fieldSubstitute put f.2)) := by
  rw [substitute, substituteFields_eq]

@[simp] theorem substitute_array (a : ℕ) (elems : List (Tree κ α τ)) :
    (array a elems).substitute put = array a (elems.flatMap (elemSubstitute put)) := by
  rw [substitute, substituteElems_eq]

@[simp] theorem substitute_val (t : Tree κ α τ) : (t.substitute put).val = t.val := by
  cases t <;> simp

/-- The trees that are put somewhere in the tree. -/
def Inserted (t p : Tree κ α τ) : Prop := ∃ s ∈ t.subtrees, ∃ ps, put s.val = some ps ∧ p ∈ ps

theorem fieldSubstitute_cases (t : Tree κ α τ) :
    fieldSubstitute put t = t.substitute put ∨
      ∃ ps, put t.val = some ps ∧ fieldSubstitute put t ∈ ps := by
  rw [fieldSubstitute]
  cases hput : put t.val with
  | none => exact Or.inl rfl
  | some ps =>
      cases ps with
      | nil => exact Or.inl rfl
      | cons p ps => exact Or.inr ⟨p :: ps, rfl, List.mem_cons_self⟩

variable {put}

theorem elemSubstitute_cases {t s : Tree κ α τ} (hs : s ∈ elemSubstitute put t) :
    s = t.substitute put ∨ ∃ ps, put t.val = some ps ∧ s ∈ ps := by
  rw [elemSubstitute] at hs
  cases hput : put t.val with
  | none =>
      rw [hput] at hs
      exact Or.inl (List.mem_singleton.mp hs)
  | some ps =>
      rw [hput] at hs
      exact Or.inr ⟨ps, rfl, hs⟩

theorem Inserted.subtree {s t p : Tree κ α τ} (hp : Inserted put s p) (hs : s ∈ t.subtrees) :
    Inserted put t p := by
  obtain ⟨r, hr, hput⟩ := hp
  exact ⟨r, subtrees_trans hr hs, hput⟩

/-- What is in the tree afterwards was put there, or was there and has been gone through. -/
theorem subtrees_substitute (t : Tree κ α τ) {r : Tree κ α τ}
    (hr : r ∈ (t.substitute put).subtrees) :
    (∃ s ∈ t.subtrees, r = s.substitute put) ∨ ∃ p, Inserted put t p ∧ r ∈ p.subtrees := by
  induction t with
  | leaf v =>
      rw [substitute_leaf, subtrees_leaf, List.mem_singleton] at hr
      exact Or.inl ⟨_, self_mem_subtrees _, by rw [hr, substitute_leaf]⟩
  | record a tag fields ih =>
      rw [substitute_record, subtrees_record, List.mem_cons] at hr
      rcases hr with rfl | hr
      · exact Or.inl ⟨_, self_mem_subtrees _, (substitute_record _ _ _ _).symm⟩
      · obtain ⟨g, hg, hr⟩ := List.mem_flatMap.mp hr
        obtain ⟨f, hf, rfl⟩ := List.mem_map.mp hg
        have hsub : f.2 ∈ (record a tag fields).subtrees :=
          subtrees_of_field hf f.2.self_mem_subtrees
        rcases fieldSubstitute_cases put f.2 with heq | ⟨ps, hput, hmem⟩
        · rw [heq] at hr
          rcases ih f hf hr with ⟨s, hs, rfl⟩ | ⟨p, hp, hrp⟩
          · exact Or.inl ⟨s, subtrees_of_field hf hs, rfl⟩
          · exact Or.inr ⟨p, hp.subtree hsub, hrp⟩
        · exact Or.inr ⟨_, ⟨f.2, hsub, ps, hput, hmem⟩, hr⟩
  | array a elems ih =>
      rw [substitute_array, subtrees_array, List.mem_cons] at hr
      rcases hr with rfl | hr
      · exact Or.inl ⟨_, self_mem_subtrees _, (substitute_array _ _ _).symm⟩
      · obtain ⟨c, hc, hr⟩ := List.mem_flatMap.mp hr
        obtain ⟨e, he, hc⟩ := List.mem_flatMap.mp hc
        have hsub : e ∈ (array a elems : Tree κ α τ).subtrees :=
          subtrees_of_elem he e.self_mem_subtrees
        rcases elemSubstitute_cases hc with rfl | ⟨ps, hput, hmem⟩
        · rcases ih e he hr with ⟨s, hs, rfl⟩ | ⟨p, hp, hrp⟩
          · exact Or.inl ⟨s, subtrees_of_elem he hs, rfl⟩
          · exact Or.inr ⟨p, hp.subtree hsub, hrp⟩
        · exact Or.inr ⟨c, ⟨e, hsub, ps, hput, hmem⟩, hr⟩

/-! ### The substituted tree -/

/-- The cells of the trees that are put in the place of a node. -/
def putLabels (put : Val α → Option (List (Tree κ α τ))) (v : Val α) : List ℕ :=
  ((put v).getD []).flatMap labels

theorem count_flatMap_le {β : Type} {b : ℕ} {l : List β} {f g k : β → List ℕ}
    (hle : ∀ x ∈ l, (f x).count b ≤ (g x).count b + (k x).count b) :
    (l.flatMap f).count b ≤ (l.flatMap g).count b + (l.flatMap k).count b := by
  induction l with
  | nil => exact Nat.zero_le _
  | cons x l ih =>
      rw [List.forall_mem_cons] at hle
      have hrest := ih hle.2
      simp only [List.flatMap_cons, List.count_append]
      omega

theorem count_le_putLabels {b : ℕ} {p t : Tree κ α τ} {ps : List (Tree κ α τ)}
    (hput : put t.val = some ps) (hp : p ∈ ps) :
    p.labels.count b ≤ (t.subtrees.flatMap fun s => putLabels put s.val).count b := by
  have hroot : p.labels.Sublist (putLabels put t.val) := by
    rw [putLabels, hput]
    exact sublist_flatMap_of_mem hp _
  exact (hroot.trans (sublist_flatMap_of_mem t.self_mem_subtrees
    fun s => putLabels put s.val)).count_le _

/-- Every cell of the substituted tree was in the tree, or in what was put there. -/
theorem count_substitute (b : ℕ) (t : Tree κ α τ) :
    (t.substitute put).labels.count b ≤
      t.labels.count b + (t.subtrees.flatMap fun s => putLabels put s.val).count b := by
  induction t with
  | leaf v => simp
  | record a tag fields ih =>
      have hfields : ∀ f ∈ fields, (fieldSubstitute put f.2).labels.count b ≤
          f.2.labels.count b + (f.2.subtrees.flatMap fun s => putLabels put s.val).count b := by
        intro f hf
        rcases fieldSubstitute_cases put f.2 with heq | ⟨ps, hput, hp⟩
        · rw [heq]
          exact ih f hf
        · exact Nat.le_add_left_of_le (count_le_putLabels hput hp)
      have hsum := count_flatMap_le hfields
      rw [substitute_record, labels_record, labels_record, subtrees_record, List.flatMap_map,
        List.flatMap_cons, List.flatMap_assoc, List.count_append, List.count_cons,
        List.count_cons]
      dsimp only
      omega
  | array a elems ih =>
      have helems : ∀ e ∈ elems, ((elemSubstitute put e).flatMap labels).count b ≤
          e.labels.count b + (e.subtrees.flatMap fun s => putLabels put s.val).count b := by
        intro e he
        rw [elemSubstitute]
        cases hput : put e.val with
        | none => simpa using ih e he
        | some ps =>
            refine Nat.le_add_left_of_le (List.Sublist.count_le _ ?_)
            have hroot : ps.flatMap labels = putLabels put e.val := by
              rw [putLabels, hput]
              rfl
            rw [Option.getD_some, hroot]
            exact sublist_flatMap_of_mem e.self_mem_subtrees fun s => putLabels put s.val
      have hsum := count_flatMap_le helems
      rw [substitute_array, labels_array, labels_array, subtrees_array, List.flatMap_assoc,
        List.flatMap_cons, List.flatMap_assoc, List.count_append, List.count_cons,
        List.count_cons]
      omega

/-- What is put into the tree has cells of its own. -/
structure Fresh (put : Val α → Option (List (Tree κ α τ))) (t : Tree κ α τ) : Prop where
  node : ∀ v ps, put v = some ps → ∃ b, v = .ref b
  nodup : ∀ v, (putLabels put v).Nodup
  apart : ∀ v w, v ≠ w → List.Disjoint (putLabels put v) (putLabels put w)
  disjoint : ∀ v, List.Disjoint (putLabels put v) t.labels

theorem Fresh.nodup_subtrees (hput : Fresh put t) (ht : t.Proper) :
    (t.subtrees.flatMap fun s => putLabels put s.val).Nodup := by
  refine List.nodup_flatMap.mpr ⟨fun s _ => hput.nodup s.val, ?_⟩
  have hlabels := ht.labels
  rw [labels, List.Nodup, List.pairwise_filterMap] at hlabels
  refine hlabels.imp_of_mem fun {s s'} hs hs' hne b hb hb' => ?_
  by_cases hval : s.val = s'.val
  · have hnode : ∃ c, s.val = .ref c := by
      cases hsome : put s.val with
      | none =>
          simp [putLabels, hsome] at hb
      | some ps => exact hput.node _ _ hsome
    obtain ⟨c, hc⟩ := hnode
    exact hne c (ht.closed.label? hs hc) c (ht.closed.label? hs' (hval ▸ hc)) rfl
  · exact hput.apart _ _ hval hb hb'

theorem Proper.substitute (ht : t.Proper) (hput : Fresh put t)
    (hps : ∀ p, Inserted put t p → p.Proper) : (t.substitute put).Proper where
  labels := by
    refine List.nodup_iff_count_le_one.mpr fun b => le_trans (count_substitute b t) ?_
    have hone := List.nodup_iff_count_le_one.mp (hput.nodup_subtrees ht) b
    by_cases hb : b ∈ t.labels
    · have hzero : (t.subtrees.flatMap fun s => putLabels put s.val).count b = 0 := by
        refine List.count_eq_zero.mpr fun hmem => ?_
        obtain ⟨s, -, hbs⟩ := List.mem_flatMap.mp hmem
        exact hput.disjoint _ hbs hb
      rw [hzero]
      exact List.nodup_iff_count_le_one.mp ht.labels b
    · rw [List.count_eq_zero.mpr hb, Nat.zero_add]
      exact hone
  closed r hr a heq := by
    rcases subtrees_substitute t hr with ⟨s, hs, rfl⟩ | ⟨p, hp, hrp⟩
    · cases s with
      | leaf v => exact ht.closed _ hs a ((substitute_leaf put v).symm.trans heq)
      | record b tag fields =>
          rw [substitute_record] at heq
          cases heq
      | array b elems =>
          rw [substitute_array] at heq
          cases heq
    · exact (hps p hp).closed r hrp a heq
  keys a tag fields hmem := by
    rcases subtrees_substitute t hmem with ⟨s, hs, heq⟩ | ⟨p, hp, hrp⟩
    · cases s with
      | leaf v =>
          rw [substitute_leaf] at heq
          cases heq
      | record b tag' fields' =>
          rw [substitute_record] at heq
          cases heq
          rw [List.map_map]
          exact ht.keys _ _ _ hs
      | array b elems =>
          rw [substitute_array] at heq
          cases heq
    · exact (hps p hp).keys a tag fields hrp

end Tree

/-! ### The edits of a substitution -/

variable [DecidableEq κ] [DecidableEq α]

open ObjectGraph.Tree

variable {t : Tree κ α τ} {h h' : Heap κ α τ}

/-- The trees of the list are put in the place of what is at each edge. -/
def putAt (rs : List (Edge κ α τ × List (Tree κ α τ))) (v : Val α) :
    Option (List (Tree κ α τ)) :=
  (rs.find? fun r => r.1.child.val = v).map Prod.snd

def editsAt (rs : List (Edge κ α τ × List (Tree κ α τ))) : List (Edit κ α) :=
  rs.map fun r => ⟨r.1.parent, r.1.place, r.2.map val⟩

/-- A node of the tree, in its place. -/
def NodeEdge (t : Tree κ α τ) (e : Edge κ α τ) : Prop :=
  e ∈ t.edges ∧ ∃ b, e.child.val = .ref b

omit [DecidableEq κ] [DecidableEq α] in
/-- The records of a heap have no field twice. -/
theorem Heap.Holds.proper (hholds : h.Holds t) (hclosed : t.Closed) (hlabels : t.labels.Nodup) :
    t.Proper where
  labels := hlabels
  closed := hclosed
  keys a tag fields hmem := by
    obtain ⟨hkeys, _⟩ := hholds _ hmem
    rw [List.map_map] at hkeys
    exact hkeys

omit [DecidableEq κ] in
theorem Heap.Holds.place (hholds : h.Holds t) (ht : t.Proper) {e : Edge κ α τ}
    (he : NodeEdge t e) : h.Place e.parent e.place := by
  obtain ⟨hmem, b, hb⟩ := he
  obtain ⟨s, hs, hes⟩ := mem_edges.mp hmem
  have hshows := hholds s hs
  cases s with
  | leaf v => cases hes
  | record a tag fields =>
      obtain ⟨f, hf, rfl⟩ := List.mem_map.mp hes
      obtain ⟨distinct, hc⟩ := hshows
      refine ⟨tag, _, distinct, hc, ?_⟩
      rw [List.map_map]
      exact List.mem_map_of_mem hf
  | array a elems =>
      obtain ⟨c, hc, rfl⟩ := List.mem_map.mp hes
      refine ⟨_, hshows, ?_⟩
      rw [show c.val = .ref b from hb]
      exact (ht.subtree hs).count_elem hc hb

omit [DecidableEq κ] [DecidableEq α] in
theorem NodeEdge.same_iff (ht : t.Proper) {e e' : Edge κ α τ} (he : NodeEdge t e)
    (he' : e' ∈ t.edges) :
    (e.parent = e'.parent ∧ e.place = e'.place) ↔ e.child.val = e'.child.val := by
  obtain ⟨hmem, b, hb⟩ := he
  constructor
  · rintro ⟨hparent, hplace⟩
    exact ht.child_eq hmem he' hparent hplace
  · intro hval
    rw [ht.edge_eq hmem he' hb (hval ▸ hb)]
    exact ⟨rfl, rfl⟩

variable {rs rs' : List (Edge κ α τ × List (Tree κ α τ))}

/-- At every place of the tree the edits do what the substitution does. -/
theorem at?_editsAt (ht : t.Proper) (hrs : ∀ r ∈ rs, NodeEdge t r.1) {e : Edge κ α τ}
    (he : e ∈ t.edges) :
    Edit.at? (editsAt rs) e.parent e.place = (putAt rs e.child.val).map (List.map val) := by
  rw [Edit.at?, editsAt, List.find?_map, putAt, Option.map_map, Option.map_map]
  have hfind : rs.find? ((fun d : Edit κ α => decide (d.parent = e.parent ∧ d.place = e.place)) ∘
      fun r => ⟨r.1.parent, r.1.place, r.2.map val⟩) =
        rs.find? fun r => decide (r.1.child.val = e.child.val) := by
    refine List.find?_congr fun r hr => ?_
    exact decide_eq_decide.mpr ((hrs r hr).same_iff ht he)
  rw [hfind]
  rfl

omit [DecidableEq κ] [DecidableEq α] in
/-- An element is named by what it is. -/
theorem child_of_place {e : Edge κ α τ} (he : e ∈ t.edges) {v : Val α}
    (hplace : e.place = .inl v) : e.child.val = v := by
  obtain ⟨s, -, hes⟩ := mem_edges.mp he
  cases s with
  | leaf w => cases hes
  | record a tag fields =>
      obtain ⟨f, -, rfl⟩ := List.mem_map.mp hes
      cases hplace
  | array a elems =>
      obtain ⟨c, -, rfl⟩ := List.mem_map.mp hes
      exact Sum.inl.inj hplace

omit [DecidableEq κ] [DecidableEq α] in
theorem apart_editsAt (ht : t.Proper) (hrs : ∀ r ∈ rs, NodeEdge t r.1)
    (hrs' : ∀ r ∈ rs', NodeEdge t r.1)
    (hne : ∀ r ∈ rs, ∀ r' ∈ rs', r.1.child.val ≠ r'.1.child.val)
    (hfresh : ∀ r ∈ rs, ∀ p ∈ r.2, ∀ e, NodeEdge t e → p.val ≠ e.child.val) :
    Edit.Apart (editsAt rs) (editsAt rs') where
  places d hd d' hd' := by
    obtain ⟨r, hr, rfl⟩ := List.mem_map.mp hd
    obtain ⟨r', hr', rfl⟩ := List.mem_map.mp hd'
    exact fun hsame => hne r hr r' hr' (((hrs r hr).same_iff ht (hrs' r' hr').1).mp hsame)
  nodes d hd d' hd' _ v hv := by
    obtain ⟨r, hr, rfl⟩ := List.mem_map.mp hd
    obtain ⟨r', hr', rfl⟩ := List.mem_map.mp hd'
    obtain ⟨p, hp, rfl⟩ := List.mem_map.mp hv
    exact fun hplace => hfresh r hr p hp r'.1 (hrs' r' hr')
      (child_of_place (hrs' r' hr').1 hplace).symm

/-- A heap that has been edited holds the tree with the substitution. -/
theorem Heap.Holds.substitute (hholds : h.Holds t) (ht : t.Proper)
    (hrs : ∀ r ∈ rs, NodeEdge t r.1) (hedited : h.Edited h' (· ∈ t.labels) (editsAt rs))
    (hput : ∀ p, Inserted (putAt rs) t p → h'.Holds p) : h'.Holds (t.substitute (putAt rs)) := by
  intro r hr
  rcases subtrees_substitute t hr with ⟨s, hs, rfl⟩ | ⟨p, hp, hrp⟩
  · have hshows := hholds s hs
    cases s with
    | leaf v =>
        rw [substitute_leaf]
        trivial
    | record a tag fields =>
        obtain ⟨distinct, hc⟩ := hshows
        have hfields : (fields.map fun f => (f.1, f.2.val)).map (Edit.field (editsAt rs) a) =
            (fields.map fun f => (f.1, fieldSubstitute (putAt rs) f.2)).map
              fun f => (f.1, f.2.val) := by
          rw [List.map_map, List.map_map]
          refine List.map_congr_left fun f hf => ?_
          have hat := at?_editsAt ht hrs (e := ⟨a, .inr f.1, f.2⟩)
            (mem_edges.mpr ⟨_, hs, List.mem_map_of_mem hf⟩)
          simp only [Function.comp_apply, Edit.field, hat, fieldSubstitute]
          cases putAt rs f.2.val with
          | none => simp
          | some ps => cases ps <;> simp
        rw [substitute_record, Heap.Shows, ← hfields]
        exact ⟨_, hedited a _ (List.mem_filterMap.mpr ⟨_, hs, rfl⟩) hc⟩
    | array a elems =>
        have helems : (elems.map val).flatMap (Edit.elem (editsAt rs) a) =
            (elems.flatMap (elemSubstitute (putAt rs))).map val := by
          rw [List.flatMap_map, List.map_flatMap]
          refine List.flatMap_congr fun e he => ?_
          have hat := at?_editsAt ht hrs (e := ⟨a, .inl e.val, e⟩)
            (mem_edges.mpr ⟨_, hs, List.mem_map_of_mem he⟩)
          simp only [Edit.elem, hat, elemSubstitute]
          cases putAt rs e.val <;> simp
        rw [substitute_array, Heap.Shows, ← helems]
        exact hedited a _ (List.mem_filterMap.mpr ⟨_, hs, rfl⟩) hshows
  · exact hput p hp r hrp

omit [DecidableEq κ] in
theorem putAt_of_mem (hrs : (rs.map fun r => r.1.child.val).Nodup)
    {r : Edge κ α τ × List (Tree κ α τ)} (hr : r ∈ rs) : putAt rs r.1.child.val = some r.2 := by
  rw [putAt, Option.map_eq_some_iff]
  cases hfind : rs.find? fun r' => r'.1.child.val = r.1.child.val with
  | none => simpa using List.find?_eq_none.mp hfind r hr
  | some r' =>
      have hval : r'.1.child.val = r.1.child.val := by simpa using List.find?_some hfind
      have heq := List.inj_on_of_nodup_map hrs (List.mem_of_find?_eq_some hfind) hr hval
      exact ⟨r', rfl, by rw [heq]⟩

omit [DecidableEq κ] in
theorem mem_of_putAt {v : Val α} {ps : List (Tree κ α τ)} (hput : putAt rs v = some ps) :
    ∃ r ∈ rs, r.1.child.val = v ∧ r.2 = ps := by
  obtain ⟨r, hfind, rfl⟩ := Option.map_eq_some_iff.mp hput
  exact ⟨r, List.mem_of_find?_eq_some hfind, by simpa using List.find?_some hfind, rfl⟩

omit [DecidableEq κ] in
theorem mem_putLabels {v : Val α} {b : ℕ} (hb : b ∈ putLabels (putAt rs) v) :
    ∃ r ∈ rs, r.1.child.val = v ∧ b ∈ r.2.flatMap labels := by
  cases hput : putAt rs v with
  | none => simp [putLabels, hput] at hb
  | some ps =>
      obtain ⟨r, hr, hval, rfl⟩ := mem_of_putAt hput
      exact ⟨r, hr, hval, by simpa [putLabels, hput] using hb⟩

omit [DecidableEq κ] in
/-- The trees of the list have cells of their own. -/
theorem fresh_putAt (hrs : ∀ r ∈ rs, NodeEdge t r.1)
    (hlabels : (rs.flatMap fun r => r.2.flatMap labels).Nodup)
    (hdisjoint : ∀ r ∈ rs, List.Disjoint (r.2.flatMap labels) t.labels) :
    Fresh (putAt rs) t where
  node v ps hput := by
    obtain ⟨r, hr, rfl, -⟩ := mem_of_putAt hput
    exact (hrs r hr).2
  nodup v := by
    cases hput : putAt rs v with
    | none => simp [putLabels, hput]
    | some ps =>
        obtain ⟨r, hr, -, rfl⟩ := mem_of_putAt hput
        simpa [putLabels, hput] using (List.nodup_flatMap.mp hlabels).1 r hr
  apart v w hne b hbv hbw := by
    obtain ⟨r, hr, rfl, hb⟩ := mem_putLabels hbv
    obtain ⟨r', hr', rfl, hb'⟩ := mem_putLabels hbw
    have hsymm : Std.Symm (Function.onFun List.Disjoint
        fun r : Edge κ α τ × List (Tree κ α τ) => r.2.flatMap labels) :=
      ⟨fun _ _ hd => List.disjoint_symm hd⟩
    exact (List.nodup_flatMap.mp hlabels).2.forall hr hr' (fun heq => hne (by rw [heq])) hb hb'
  disjoint v b hb hbt := by
    obtain ⟨r, hr, -, hbr⟩ := mem_putLabels hb
    exact hdisjoint r hr hbr hbt

end MetaMonkey.ObjectGraph
