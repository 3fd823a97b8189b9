import Mathlib.Data.List.Basic
import Mathlib.Data.List.Nodup
import Mathlib.Algebra.BigOperators.Group.List.Basic
import Mathlib.Data.Finset.Lattice.Fold
import Mathlib.Data.Finset.Range
import Mathlib.Algebra.GroupWithZero.Nat
import Mathlib.Order.Lattice.Nat
import Mathlib.Tactic.Common

/-!
Putting blocks among the items of a list. A plan gives each block the number
of items that come before it; `weave` carries a plan out. Two other ways of
doing it are compared with `weave`: inserting the blocks one after the other
at positions of the growing list, and a loop that in every turn writes at most
one block, if the output is already long enough for it, and one item.
-/

namespace MetaMonkey.Lists

variable {α : Type}

/-! ### Plans -/

/-- Write the items, `c` of which are already written, with every block after
as many items as its plan says. -/
def weave : ℕ → List α → List (ℕ × List α) → List α
  | _, items, [] => items
  | c, items, (d, xs) :: plan =>
      items.take (d - c) ++ xs ++ weave d (items.drop (d - c)) plan

/-- The counts of a plan do not decrease and lie between `c` and `N`. -/
def Ascending (N : ℕ) : ℕ → List (ℕ × List α) → Prop
  | c, [] => c ≤ N
  | c, (d, _) :: plan => c ≤ d ∧ Ascending N d plan

theorem Ascending.le {N c : ℕ} {plan : List (ℕ × List α)} (h : Ascending N c plan) :
    c ≤ N := by
  induction plan generalizing c with
  | nil => exact h
  | cons b plan ih => exact Nat.le_trans h.1 (ih h.2)

theorem Ascending.mono {N b c : ℕ} {plan : List (ℕ × List α)} (hbc : b ≤ c)
    (h : Ascending N c plan) : Ascending N b plan := by
  cases plan with
  | nil => exact Nat.le_trans hbc h
  | cons b' plan => exact ⟨Nat.le_trans hbc h.1, h.2⟩

/-- Items before the first block may be written ahead. -/
theorem weave_skip {N c d : ℕ} {items : List α} {plan : List (ℕ × List α)} (hcd : c ≤ d)
    (h : Ascending N d plan) :
    weave c items plan = items.take (d - c) ++ weave d (items.drop (d - c)) plan := by
  cases plan with
  | nil => simp [weave]
  | cons b plan =>
      have hdb : d ≤ b.1 := h.1
      have hsplit : b.1 - c = (d - c) + (b.1 - d) := by omega
      simp only [weave, hsplit, List.take_add, List.drop_drop, List.append_assoc]

/-- An empty block may be left out. -/
theorem weave_nil_block {N c d : ℕ} {items : List α} {plan : List (ℕ × List α)} (hcd : c ≤ d)
    (h : Ascending N d plan) :
    weave c items ((d, []) :: plan) = weave c items plan := by
  rw [weave_skip hcd h, weave, List.append_nil]

theorem take_block_inj {items l l' : List α} {x : α} {k k' : ℕ} (hk : k ≤ items.length)
    (hk' : k' ≤ items.length) (hx : x ∉ items)
    (h : items.take k ++ x :: l = items.take k' ++ x :: l') : k = k' := by
  have key : ∀ {m n : ℕ} {l₁ l₂ : List α}, m < n → n ≤ items.length →
      items.take m ++ x :: l₁ ≠ items.take n ++ x :: l₂ := by
    intro m n l₁ l₂ hmn hn heq
    have hat := congrArg (·[m]?) heq
    have hlen : (items.take m).length = m := by rw [List.length_take]; omega
    simp only [List.getElem?_append_right (Nat.le_of_eq hlen), hlen, Nat.sub_self,
      List.getElem?_cons_zero] at hat
    rw [List.getElem?_append_left (by rw [List.length_take]; omega),
      List.getElem?_take_of_lt hmn] at hat
    exact hx (List.mem_of_getElem? hat.symm)
  rcases Nat.lt_trichotomy k k' with hlt | heq | hlt
  · exact absurd h (key hlt hk')
  · exact heq
  · exact absurd h.symm (key hlt hk)

/-- The two plans that a list of blocks with two counts each gives rise to. -/
def firstPlan (blocks : List (ℕ × ℕ × List α)) : List (ℕ × List α) :=
  blocks.map fun b => (b.1, b.2.2)

def secondPlan (blocks : List (ℕ × ℕ × List α)) : List (ℕ × List α) :=
  blocks.map fun b => (b.2.1, b.2.2)

theorem weave_congr {N c : ℕ} {items : List α} {blocks : List (ℕ × ℕ × List α)}
    (h₁ : Ascending N c (firstPlan blocks)) (h₂ : Ascending N c (secondPlan blocks))
    (h : ∀ b ∈ blocks, b.2.2 = [] ∨ b.1 = b.2.1) :
    weave c items (firstPlan blocks) = weave c items (secondPlan blocks) := by
  induction blocks generalizing c items with
  | nil => rfl
  | cons b blocks ih =>
      obtain ⟨d, d', xs⟩ := b
      have hrest := fun b hb => h b (List.mem_cons_of_mem _ hb)
      have hhead : xs = [] ∨ d = d' := h _ List.mem_cons_self
      rcases hhead with rfl | rfl
      · have hstep : weave c items _ = weave c items _ :=
          ih (h₁.2.mono h₁.1) (h₂.2.mono h₂.1) hrest
        exact (weave_nil_block h₁.1 h₁.2).trans (hstep.trans (weave_nil_block h₂.1 h₂.2).symm)
      · simp only [firstPlan, secondPlan, List.map_cons, weave]
        exact congrArg _ (ih h₁.2 h₂.2 hrest)

/-- When no block holds an item, the outcome shows where each nonempty block
was put. -/
theorem weave_inj {N c : ℕ} {items : List α} {blocks : List (ℕ × ℕ × List α)}
    (hN : N = c + items.length)
    (h₁ : Ascending N c (firstPlan blocks)) (h₂ : Ascending N c (secondPlan blocks))
    (hfresh : ∀ b ∈ blocks, ∀ x ∈ b.2.2, x ∉ items)
    (heq : weave c items (firstPlan blocks) = weave c items (secondPlan blocks)) :
    ∀ b ∈ blocks, b.2.2 = [] ∨ b.1 = b.2.1 := by
  induction blocks generalizing c items with
  | nil => simp
  | cons b blocks ih =>
      obtain ⟨d, d', xs⟩ := b
      rw [List.forall_mem_cons] at hfresh
      rw [List.forall_mem_cons]
      cases xs with
      | nil =>
          refine ⟨Or.inl rfl, ih hN (h₁.2.mono h₁.1) (h₂.2.mono h₂.1) hfresh.2 ?_⟩
          exact (weave_nil_block h₁.1 h₁.2).symm.trans (heq.trans (weave_nil_block h₂.1 h₂.2))
      | cons x xs =>
          have hcd : c ≤ d := h₁.1
          have hcd' : c ≤ d' := h₂.1
          have hd : d ≤ N := h₁.2.le
          have hd' : d' ≤ N := h₂.2.le
          simp only [firstPlan, secondPlan, List.map_cons, weave, List.append_assoc,
            List.cons_append] at heq
          have hk : d - c = d' - c :=
            take_block_inj (by omega) (by omega) (hfresh.1 x List.mem_cons_self) heq
          obtain rfl : d = d' := by omega
          have hlen : N = d + (items.drop (d - c)).length := by
            rw [List.length_drop]
            omega
          refine ⟨Or.inr rfl, ih hlen h₁.2 h₂.2 ?_ ?_⟩
          · exact fun b hb y hy hmem => hfresh.2 b hb y hy (List.mem_of_mem_drop hmem)
          · exact List.append_cancel_left
              (List.cons_injective (List.append_cancel_left heq))

/-! ### Insertion one block after the other -/

/-- Insertion at a position, or at the end of a list that is too short. -/
def insertAt (l : List α) (q : ℕ) (xs : List α) : List α := l.take q ++ xs ++ l.drop q

def insertAll : List α → List (ℕ × List α) → List α
  | l, [] => l
  | l, (q, xs) :: blocks => insertAll (insertAt l q xs) blocks

/-- The positions at which a plan inserts its blocks, `S` elements of earlier
blocks being already there. -/
def positions : ℕ → List (ℕ × List α) → List (ℕ × List α)
  | _, [] => []
  | S, (d, xs) :: plan => (d + S, xs) :: positions (S + xs.length) plan

theorem insertAll_positions {N c S : ℕ} (out : List α) {items : List α}
    {plan : List (ℕ × List α)} (hout : out.length = c + S) (hN : N = c + items.length)
    (h : Ascending N c plan) :
    insertAll (out ++ items) (positions S plan) = out ++ weave c items plan := by
  induction plan generalizing c S out items with
  | nil => rfl
  | cons b plan ih =>
      obtain ⟨d, xs⟩ := b
      have hcd : c ≤ d := h.1
      have hd : d ≤ N := h.2.le
      have hat : insertAt (out ++ items) (d + S) xs =
          (out ++ items.take (d - c) ++ xs) ++ items.drop (d - c) := by
        have hq : d + S = out.length + (d - c) := by omega
        rw [insertAt, hq, List.take_length_add_append, List.drop_length_add_append]
      simp only [positions, insertAll, weave, hat]
      rw [ih _ ?_ ?_ h.2]
      · simp
      · simp only [List.length_append, List.length_take]; omega
      · rw [List.length_drop]; omega

theorem insertAt_min (l : List α) (q : ℕ) (xs : List α) :
    insertAt l (min q l.length) xs = insertAt l q xs := by
  rcases Nat.le_total q l.length with h | h
  · rw [Nat.min_eq_left h]
  · rw [Nat.min_eq_right h, insertAt, insertAt, List.take_length, List.drop_length,
      List.take_of_length_le h, List.drop_of_length_le h]

theorem insertAt_inj {l l' xs : List α} {q q' : ℕ} (hl : ∀ x ∈ xs, x ∉ l)
    (hl' : ∀ x ∈ xs, x ∉ l') (heq : insertAt l q xs = insertAt l' q' xs) :
    l = l' ∧ (xs = [] ∨ min q l.length = min q' l.length) := by
  classical
  have hkeep : ∀ {m : List α} {k : ℕ}, (∀ x ∈ xs, x ∉ m) →
      (insertAt m k xs).filter (fun y => decide (y ∉ xs)) = m := by
    intro m k hm
    have hall : ∀ y ∈ m, decide (y ∉ xs) = true := fun y hy =>
      decide_eq_true fun hyx => hm y hyx hy
    have hnone : xs.filter (fun y => decide (y ∉ xs)) = [] :=
      List.filter_eq_nil_iff.mpr (by simp)
    rw [insertAt, List.filter_append, List.filter_append, hnone, List.append_nil,
      ← List.filter_append, List.take_append_drop, List.filter_eq_self.mpr hall]
  obtain rfl : l = l' := by rw [← hkeep hl (k := q), heq, hkeep hl']
  refine ⟨rfl, ?_⟩
  cases xs with
  | nil => exact Or.inl rfl
  | cons x xs =>
      right
      rw [← insertAt_min l q, ← insertAt_min l q', insertAt, insertAt, List.append_assoc,
        List.append_assoc] at heq
      exact take_block_inj (Nat.min_le_right _ _) (Nat.min_le_right _ _)
        (hl x List.mem_cons_self) heq

theorem insertAt_perm (l : List α) (q : ℕ) (xs : List α) : (insertAt l q xs).Perm (l ++ xs) := by
  conv_rhs => rw [← List.take_append_drop q l]
  rw [insertAt, List.append_assoc, List.append_assoc]
  exact List.Perm.append_left _ List.perm_append_comm

theorem insertAll_perm (l : List α) (blocks : List (ℕ × List α)) :
    (insertAll l blocks).Perm (l ++ blocks.flatMap Prod.snd) := by
  induction blocks generalizing l with
  | nil => simp [insertAll]
  | cons b blocks ih =>
      obtain ⟨q, xs⟩ := b
      rw [insertAll, List.flatMap_cons, ← List.append_assoc]
      exact (ih _).trans (List.Perm.append_right _ (insertAt_perm l q xs))

/-- Where one insertion after the other puts the nonempty blocks of the two
plans into the same place of a list of `len` elements. -/
def SamePlaces : ℕ → List (ℕ × ℕ × List α) → Prop
  | _, [] => True
  | len, (q, q', xs) :: blocks =>
      (xs = [] ∨ min q len = min q' len) ∧ SamePlaces (len + xs.length) blocks

theorem length_insertAt (l : List α) (q : ℕ) (xs : List α) :
    (insertAt l q xs).length = l.length + xs.length := by
  simp only [insertAt, List.length_append, List.length_take, List.length_drop]
  omega

theorem insertAll_congr {l : List α} {blocks : List (ℕ × ℕ × List α)}
    (h : SamePlaces l.length blocks) :
    insertAll l (firstPlan blocks) = insertAll l (secondPlan blocks) := by
  induction blocks generalizing l with
  | nil => rfl
  | cons b blocks ih =>
      obtain ⟨q, q', xs⟩ := b
      have hat : insertAt l q xs = insertAt l q' xs := by
        rcases h.1 with rfl | hq
        · simp [insertAt]
        · rw [← insertAt_min, hq, insertAt_min]
      simp only [firstPlan, secondPlan, List.map_cons, insertAll, hat]
      exact ih (by rw [length_insertAt]; exact h.2)

/-- When all elements are distinct, equal outcomes come from equal places. -/
theorem insertAll_inj {l l' : List α} {blocks : List (ℕ × ℕ × List α)}
    (hl : (l ++ blocks.flatMap fun b => b.2.2).Nodup)
    (hl' : (l' ++ blocks.flatMap fun b => b.2.2).Nodup)
    (heq : insertAll l (firstPlan blocks) = insertAll l' (secondPlan blocks)) :
    l = l' ∧ SamePlaces l.length blocks := by
  induction blocks generalizing l l' with
  | nil => exact ⟨heq, trivial⟩
  | cons b blocks ih =>
      obtain ⟨q, q', xs⟩ := b
      have hnodup : ∀ {m : List α} {k : ℕ},
          (m ++ (xs ++ blocks.flatMap fun b => b.2.2)).Nodup →
          (insertAt m k xs ++ blocks.flatMap fun b => b.2.2).Nodup := by
        intro m k hm
        rw [← List.append_assoc] at hm
        exact hm.perm (List.Perm.append_right _ (insertAt_perm m k xs).symm)
      have hdisj : ∀ {m : List α}, (m ++ (xs ++ blocks.flatMap fun b => b.2.2)).Nodup →
          ∀ x ∈ xs, x ∉ m := fun hm x hx hxm =>
        (List.nodup_append.mp hm).2.2 x hxm x (List.mem_append_left _ hx) rfl
      obtain ⟨hins, hrest⟩ := ih (hnodup hl) (hnodup hl') heq
      obtain ⟨rfl, hq⟩ := insertAt_inj (hdisj hl) (hdisj hl') hins
      exact ⟨rfl, hq, by rwa [length_insertAt] at hrest⟩

/-! ### One block and one item a turn -/

/-- In every turn write the next block, if the output is as long as its index
says, and then the next item. `none` when `fuel` turns do not suffice. -/
def interleave : ℕ → List α → List (ℕ × List α) → List α → Option (List α)
  | _, [], [], out => some out
  | 0, _, _, _ => none
  | fuel + 1, items, [], out => interleave fuel items.tail [] (out ++ items.take 1)
  | fuel + 1, items, (p, xs) :: blocks, out =>
      if p ≤ out.length then interleave fuel items.tail blocks (out ++ xs ++ items.take 1)
      else interleave fuel items.tail ((p, xs) :: blocks) (out ++ items.take 1)

/-- The plan the loop carries out: with `c` of `N` items and `S` elements of
blocks written, the next block waits until the output reaches its index, and
the block after it waits for one more item. -/
def turns (N : ℕ) : ℕ → ℕ → List (ℕ × List α) → List (ℕ × List α)
  | _, _, [] => []
  | c, S, (p, xs) :: blocks =>
      (max c (p - S), xs) :: turns N (min N (max c (p - S) + 1)) (S + xs.length) blocks

/-- Every index is reached when all items are written; otherwise the loop
never ends. -/
def Reached (N : ℕ) : ℕ → List (ℕ × ℕ) → Prop
  | _, [] => True
  | S, (p, s) :: blocks => p ≤ N + S ∧ Reached N (S + s) blocks

/-- The index and the size of every block. -/
def sizes (blocks : List (ℕ × List α)) : List (ℕ × ℕ) :=
  blocks.map fun b => (b.1, b.2.length)

theorem turns_ascending {N c S : ℕ} {blocks : List (ℕ × List α)} (hc : c ≤ N)
    (h : Reached N S (sizes blocks)) : Ascending N c (turns N c S blocks) := by
  induction blocks generalizing c S with
  | nil => exact hc
  | cons b blocks ih =>
      obtain ⟨p, xs⟩ := b
      have hp : p ≤ N + S := h.1
      refine ⟨Nat.le_max_left _ _, ?_⟩
      exact (ih (Nat.min_le_left _ _) h.2).mono (by omega)

theorem interleave_mono {fuel : ℕ} {items : List α} {blocks : List (ℕ × List α)}
    {out r : List α} (h : interleave fuel items blocks out = some r) (k : ℕ) :
    interleave (fuel + k) items blocks out = some r := by
  fun_induction interleave fuel items blocks out with
  | case1 fuel out =>
      cases k <;> simpa [interleave] using h
  | case2 => cases h
  | case3 fuel items out _ ih =>
      rw [Nat.succ_add, interleave]
      · exact ih h
      · assumption
  | case4 fuel items p xs blocks out hp ih =>
      rw [Nat.succ_add, interleave, if_pos hp]
      exact ih h
  | case5 fuel items p xs blocks out hp ih =>
      rw [Nat.succ_add, interleave, if_neg hp]
      exact ih h

theorem weave_head {N c : ℕ} {x : α} {items : List α} {plan : List (ℕ × List α)}
    (h : Ascending N (c + 1) plan) :
    weave c (x :: items) plan = x :: weave (c + 1) items plan := by
  rw [weave_skip (Nat.le_add_right c 1) h, Nat.add_sub_cancel_left]
  rfl

/-- When every index is reached, the loop ends and has carried out `turns`. -/
theorem interleave_returns {N c S : ℕ} (items out : List α) (blocks : List (ℕ × List α))
    (hN : N = c + items.length) (hout : out.length = c + S)
    (h : Reached N S (sizes blocks)) :
    ∃ fuel, interleave fuel items blocks out =
      some (out ++ weave c items (turns N c S blocks)) := by
  obtain ⟨k, hk⟩ : ∃ k, items.length + blocks.length ≤ k := ⟨_, Nat.le_refl _⟩
  induction k generalizing c S items out blocks with
  | zero =>
      obtain rfl : items = [] := List.length_eq_zero_iff.mp (by omega)
      obtain rfl : blocks = [] := List.length_eq_zero_iff.mp (by omega)
      exact ⟨0, by simp [interleave, turns, weave]⟩
  | succ k ih =>
      match blocks, items with
      | [], [] => exact ⟨0, by simp [interleave, turns, weave]⟩
      | [], x :: items =>
          simp only [List.length_cons, List.length_nil] at hN hk
          obtain ⟨fuel, hfuel⟩ := ih (c := c + 1) (S := S) items
            (out ++ [x]) [] (by omega) (by simp; omega) h (by simp; omega)
          exact ⟨fuel + 1, by simpa [interleave, turns, weave] using hfuel⟩
      | (p, xs) :: blocks, items =>
          simp only [List.length_cons] at hk
          have hp : p ≤ N + S := h.1
          by_cases hnow : p ≤ out.length
          · have hd : max c (p - S) = c := by omega
            cases items with
            | nil =>
                simp only [List.length_nil] at hN hk
                obtain ⟨fuel, hfuel⟩ := ih (c := c) (S := S + xs.length) []
                  (out ++ xs) blocks (by simpa using hN)
                  (by simp; omega) h.2 (by simp; omega)
                have hc : min N (c + 1) = c := by omega
                refine ⟨fuel + 1, ?_⟩
                simpa [interleave, hnow, turns, weave, hd, hc] using hfuel
            | cons x items =>
                simp only [List.length_cons] at hN hk
                obtain ⟨fuel, hfuel⟩ := ih (c := c + 1) (S := S + xs.length)
                  items (out ++ xs ++ [x]) blocks (by omega)
                  (by simp; omega) h.2 (by omega)
                have hc : min N (c + 1) = c + 1 := by omega
                have hasc := turns_ascending (c := c + 1) (by omega) h.2
                refine ⟨fuel + 1, ?_⟩
                simpa [interleave, hnow, turns, weave, hd, hc, weave_head hasc] using hfuel
          · have hcN : c < N := by omega
            cases items with
            | nil => simp only [List.length_nil] at hN; omega
            | cons x items =>
                simp only [List.length_cons] at hN hk
                obtain ⟨fuel, hfuel⟩ := ih (c := c + 1) (S := S) items
                  (out ++ [x]) ((p, xs) :: blocks) (by omega)
                  (by simp; omega) h (by simp; omega)
                have hd : max c (p - S) = max (c + 1) (p - S) := by omega
                have hasc := turns_ascending (c := c + 1) (by omega) h
                have hturns : turns N c S ((p, xs) :: blocks) =
                    turns N (c + 1) S ((p, xs) :: blocks) := by
                  simp only [turns, hd]
                refine ⟨fuel + 1, ?_⟩
                rw [hturns, weave_head hasc]
                simpa [interleave, hnow] using hfuel

/-- When some index is never reached, the loop does not end. -/
theorem interleave_stalls {N c S : ℕ} {fuel : ℕ} {items out : List α}
    {blocks : List (ℕ × List α)} (hN : N = c + items.length) (hout : out.length = c + S)
    (h : ¬ Reached N S (sizes blocks)) : interleave fuel items blocks out = none := by
  induction fuel generalizing c S items out blocks with
  | zero =>
      cases blocks with
      | nil => exact absurd trivial h
      | cons b blocks => cases items <;> simp [interleave]
  | succ fuel ih =>
      cases blocks with
      | nil => exact absurd trivial h
      | cons b blocks =>
          obtain ⟨p, xs⟩ := b
          have hnext : items.length = items.tail.length + (items.take 1).length := by
            cases items <;> simp
          rw [interleave]
          split
          · rename_i hp
            refine ih (c := c + (items.take 1).length) (S := S + xs.length) (by omega)
              (by simp only [List.length_append]; omega) fun hrest => h ⟨by omega, hrest⟩
          · exact ih (c := c + (items.take 1).length) (S := S) (by omega)
              (by simp only [List.length_append]; omega) h

/-- The loop returns what `turns` makes of its lists if every index is
reached, and nothing otherwise. -/
theorem interleave_eq_some {fuel : ℕ} {items r : List α} {blocks : List (ℕ × List α)}
    (h : interleave fuel items blocks [] = some r) :
    Reached items.length 0 (sizes blocks) ∧
      r = weave 0 items (turns items.length 0 0 blocks) := by
  by_cases hreach : Reached items.length 0 (sizes blocks)
  · obtain ⟨fuel', hfuel'⟩ := interleave_returns (c := 0) items [] blocks (by simp) rfl hreach
    have heq := interleave_mono h fuel'
    rw [Nat.add_comm, interleave_mono hfuel' fuel] at heq
    exact ⟨hreach, by simpa using heq.symm⟩
  · rw [interleave_stalls (c := 0) (S := 0) (by simp) rfl hreach] at h
    cases h

/-! ### Lists with gaps -/

/-- The elements that are not gaps. -/
def nodesOf {β : Type} : List (α ⊕ β) → List α
  | [] => []
  | .inl x :: l => x :: nodesOf l
  | .inr _ :: l => nodesOf l

/-- The gaps with their places, counted from `i`. -/
def gapsOf {β : Type} : ℕ → List (α ⊕ β) → List (ℕ × β)
  | _, [] => []
  | i, .inl _ :: l => gapsOf (i + 1) l
  | i, .inr b :: l => (i, b) :: gapsOf (i + 1) l

theorem nodesOf_append {β : Type} (l l' : List (α ⊕ β)) :
    nodesOf (l ++ l') = nodesOf l ++ nodesOf l' := by
  induction l with
  | nil => rfl
  | cons a l ih =>
      cases a with
      | inl x => exact congrArg _ ih
      | inr b => exact ih

theorem gapsOf_append {β : Type} (i : ℕ) (l l' : List (α ⊕ β)) :
    gapsOf i (l ++ l') = gapsOf i l ++ gapsOf (i + l.length) l' := by
  induction l generalizing i with
  | nil => rfl
  | cons a l ih =>
      rw [List.length_cons, Nat.add_comm l.length, ← Nat.add_assoc]
      cases a with
      | inl x => exact ih _
      | inr b => exact congrArg _ (ih _)

theorem gapsOf_bounds {β : Type} {i : ℕ} {l : List (α ⊕ β)} {g : ℕ × β}
    (hg : g ∈ gapsOf i l) : i ≤ g.1 ∧ g.1 < i + l.length := by
  induction l generalizing i with
  | nil => cases hg
  | cons a l ih =>
      rw [List.length_cons]
      cases a with
      | inl x =>
          have hbounds := ih hg
          omega
      | inr b =>
          rcases List.mem_cons.mp hg with rfl | hg
          · omega
          · have hbounds := ih hg
            omega

theorem gapsOf_ascending {β : Type} (i : ℕ) (l : List (α ⊕ β)) :
    ((gapsOf i l).map Prod.fst).Pairwise (· < ·) := by
  induction l generalizing i with
  | nil => exact .nil
  | cons a l ih =>
      cases a with
      | inl x => exact ih _
      | inr b =>
          refine List.pairwise_cons.mpr ⟨fun j hj => ?_, ih _⟩
          obtain ⟨g, hg, rfl⟩ := List.mem_map.mp hj
          exact (gapsOf_bounds hg).1

theorem gapsOf_succ_ne {β : Type} {i : ℕ} {l l' : List (α ⊕ β)} {b : β} :
    gapsOf (i + 1) l ≠ gapsOf i (.inr b :: l') := by
  intro heq
  have hmem : (i, b) ∈ gapsOf (i + 1) l := heq ▸ List.mem_cons_self
  have hbounds := gapsOf_bounds hmem
  omega

/-- The elements and the gaps with their places tell the list. -/
theorem eq_of_nodesOf_gapsOf {β : Type} {i : ℕ} {l l' : List (α ⊕ β)}
    (hnodes : nodesOf l = nodesOf l') (hgaps : gapsOf i l = gapsOf i l') : l = l' := by
  induction l generalizing i l' with
  | nil =>
      match l' with
      | [] => rfl
      | .inl _ :: _ => cases hnodes
      | .inr _ :: _ => cases hgaps
  | cons a l ih =>
      match a, l' with
      | .inl _, [] => cases hnodes
      | .inr _, [] => cases hgaps
      | .inl x, .inl y :: l' =>
          simp only [nodesOf, List.cons.injEq] at hnodes
          rw [hnodes.1, ih hnodes.2 hgaps]
      | .inr b, .inr c :: l' =>
          simp only [nodesOf] at hnodes
          simp only [gapsOf, List.cons.injEq, Prod.mk.injEq, true_and] at hgaps
          rw [hgaps.1, ih hnodes hgaps.2]
      | .inl x, .inr b :: l' => exact absurd hgaps gapsOf_succ_ne
      | .inr b, .inl x :: l' => exact absurd hgaps.symm gapsOf_succ_ne

/-- The gaps filled in place. -/
def fill : List (α ⊕ List α) → List α
  | [] => []
  | .inl x :: l => x :: fill l
  | .inr xs :: l => xs ++ fill l

/-- The plan of `fill`: before gap number `j` with place `p` stand `p - j`
elements. -/
def inOrder : ℕ → List (ℕ × List α) → List (ℕ × List α)
  | _, [] => []
  | j, (p, xs) :: blocks => (p - j, xs) :: inOrder (j + 1) blocks

theorem inOrder_ascending {c j : ℕ} (l : List (α ⊕ List α)) :
    Ascending (c + (nodesOf l).length) c (inOrder j (gapsOf (c + j) l)) := by
  induction l generalizing c j with
  | nil => exact Nat.le_add_right _ _
  | cons a l ih =>
      cases a with
      | inl x =>
          have hrec := ih (c := c + 1) (j := j)
          rw [gapsOf, nodesOf, List.length_cons]
          rw [show c + 1 + j = c + j + 1 from by omega,
            show c + 1 + (nodesOf l).length = c + ((nodesOf l).length + 1) from by omega] at hrec
          exact hrec.mono (Nat.le_succ c)
      | inr xs =>
          rw [gapsOf, nodesOf, inOrder, Nat.add_sub_cancel]
          exact ⟨Nat.le_refl c, ih (c := c) (j := j + 1)⟩

theorem fill_eq_weave {c j : ℕ} (l : List (α ⊕ List α)) :
    fill l = weave c (nodesOf l) (inOrder j (gapsOf (c + j) l)) := by
  induction l generalizing c j with
  | nil => rfl
  | cons a l ih =>
      cases a with
      | inl x =>
          have hasc := inOrder_ascending (c := c + 1) (j := j) l
          rw [show c + 1 + j = c + j + 1 from by omega] at hasc
          rw [fill, gapsOf, nodesOf, weave_head hasc, ih (c := c + 1) (j := j),
            show c + 1 + j = c + j + 1 from by omega]
      | inr xs =>
          rw [fill, gapsOf, nodesOf, inOrder, weave, Nat.add_sub_cancel, Nat.sub_self,
            ih (c := c) (j := j + 1)]
          rfl

/-! ### The loop against filling the gaps -/

/-- For every block `P` holds of its number, its count in `turns`, the
elements of the blocks before it, and its index and size. -/
def AllTurns (N : ℕ) (P : ℕ → ℕ → ℕ → ℕ × ℕ → Prop) : ℕ → ℕ → ℕ → List (ℕ × ℕ) → Prop
  | _, _, _, [] => True
  | j, c, S, (p, s) :: blocks =>
      P j (max c (p - S)) S (p, s) ∧
        AllTurns N P (j + 1) (min N (max c (p - S) + 1)) (S + s) blocks

/-- The loop puts every nonempty block where it belongs. -/
def InPlace (N : ℕ) : List (ℕ × ℕ) → Prop :=
  AllTurns N (fun j d _ b => b.2 = 0 ∨ d = b.1 - j) 0 0 0

/-- For every block its counts in `turns` and in `inOrder`. -/
def turnsInOrder (N : ℕ) : ℕ → ℕ → ℕ → List (ℕ × List α) → List (ℕ × ℕ × List α)
  | _, _, _, [] => []
  | j, c, S, (p, xs) :: blocks =>
      (max c (p - S), p - j, xs) ::
        turnsInOrder N (j + 1) (min N (max c (p - S) + 1)) (S + xs.length) blocks

theorem firstPlan_turnsInOrder (N j c S : ℕ) (blocks : List (ℕ × List α)) :
    firstPlan (turnsInOrder N j c S blocks) = turns N c S blocks := by
  induction blocks generalizing j c S with
  | nil => rfl
  | cons b blocks ih => exact congrArg _ (ih _ _ _)

theorem secondPlan_turnsInOrder (N j c S : ℕ) (blocks : List (ℕ × List α)) :
    secondPlan (turnsInOrder N j c S blocks) = inOrder j blocks := by
  induction blocks generalizing j c S with
  | nil => rfl
  | cons b blocks ih => exact congrArg _ (ih _ _ _)

theorem map_blocks_turnsInOrder (N j c S : ℕ) (blocks : List (ℕ × List α)) :
    (turnsInOrder N j c S blocks).map (fun b => b.2.2) = blocks.map Prod.snd := by
  induction blocks generalizing j c S with
  | nil => rfl
  | cons b blocks ih => exact congrArg _ (ih _ _ _)

theorem allTurns_inOrder (N j c S : ℕ) (blocks : List (ℕ × List α)) :
    AllTurns N (fun j d _ b => b.2 = 0 ∨ d = b.1 - j) j c S (sizes blocks) ↔
      ∀ b ∈ turnsInOrder N j c S blocks, b.2.2 = [] ∨ b.1 = b.2.1 := by
  induction blocks generalizing j c S with
  | nil => simp [AllTurns, sizes, turnsInOrder]
  | cons b blocks ih =>
      obtain ⟨p, xs⟩ := b
      rw [turnsInOrder, List.forall_mem_cons, ← ih, sizes, List.map_cons, AllTurns,
        List.length_eq_zero_iff]
      rfl

theorem weave_turns_eq_fill {l : List (α ⊕ List α)}
    (hreach : Reached (nodesOf l).length 0 (sizes (gapsOf 0 l)))
    (h : InPlace (nodesOf l).length (sizes (gapsOf 0 l))) :
    weave 0 (nodesOf l) (turns (nodesOf l).length 0 0 (gapsOf 0 l)) = fill l := by
  have hasc := inOrder_ascending (c := 0) (j := 0) l
  rw [Nat.zero_add] at hasc
  rw [fill_eq_weave (c := 0) (j := 0) l, ← firstPlan_turnsInOrder _ 0,
    ← secondPlan_turnsInOrder (nodesOf l).length 0 0 0]
  refine weave_congr (N := (nodesOf l).length) ?_ ?_ ((allTurns_inOrder ..).mp h)
  · rw [firstPlan_turnsInOrder]
    exact turns_ascending (Nat.zero_le _) hreach
  · rwa [secondPlan_turnsInOrder]

theorem inPlace_of_weave_turns_eq_fill {l : List (α ⊕ List α)}
    (hreach : Reached (nodesOf l).length 0 (sizes (gapsOf 0 l)))
    (hfresh : ∀ b ∈ gapsOf 0 l, ∀ x ∈ b.2, x ∉ nodesOf l)
    (h : weave 0 (nodesOf l) (turns (nodesOf l).length 0 0 (gapsOf 0 l)) = fill l) :
    InPlace (nodesOf l).length (sizes (gapsOf 0 l)) := by
  have hasc := inOrder_ascending (c := 0) (j := 0) l
  rw [Nat.zero_add] at hasc
  rw [fill_eq_weave (c := 0) (j := 0) l, ← firstPlan_turnsInOrder _ 0,
    ← secondPlan_turnsInOrder (nodesOf l).length 0 0 0] at h
  refine (allTurns_inOrder ..).mpr (weave_inj (N := (nodesOf l).length) (by simp) ?_ ?_ ?_ h)
  · rw [firstPlan_turnsInOrder]
    exact turns_ascending (Nat.zero_le _) hreach
  · rwa [secondPlan_turnsInOrder]
  · intro b hb
    have hmem : b.2.2 ∈ (gapsOf 0 l).map Prod.snd := by
      rw [← map_blocks_turnsInOrder (nodesOf l).length 0 0 0]
      exact List.mem_map_of_mem hb
    obtain ⟨b', hb', heq⟩ := List.mem_map.mp hmem
    exact heq ▸ hfresh b' hb'

/-! ### The loop against insertion one after the other -/

/-- The insertions at every index plus the number of blocks before it. -/
def shifted : ℕ → List (ℕ × List α) → List (ℕ × List α)
  | _, [] => []
  | j, (p, xs) :: blocks => (p + j, xs) :: shifted (j + 1) blocks

/-- The loop puts every nonempty block where insertion one after the other, at
its index plus the number of blocks before it, puts it. -/
def SameAsShifted (N : ℕ) : List (ℕ × ℕ) → Prop :=
  AllTurns N (fun j d S b => b.2 = 0 ∨ d + S = min (b.1 + j) (N + S)) 0 0 0

/-- For every block its position under `turns` and under `shifted`. -/
def turnsShifted (N : ℕ) : ℕ → ℕ → ℕ → List (ℕ × List α) → List (ℕ × ℕ × List α)
  | _, _, _, [] => []
  | j, c, S, (p, xs) :: blocks =>
      (max c (p - S) + S, p + j, xs) ::
        turnsShifted N (j + 1) (min N (max c (p - S) + 1)) (S + xs.length) blocks

theorem firstPlan_turnsShifted (N j c S : ℕ) (blocks : List (ℕ × List α)) :
    firstPlan (turnsShifted N j c S blocks) = positions S (turns N c S blocks) := by
  induction blocks generalizing j c S with
  | nil => rfl
  | cons b blocks ih => exact congrArg _ (ih _ _ _)

theorem secondPlan_turnsShifted (N j c S : ℕ) (blocks : List (ℕ × List α)) :
    secondPlan (turnsShifted N j c S blocks) = shifted j blocks := by
  induction blocks generalizing j c S with
  | nil => rfl
  | cons b blocks ih => exact congrArg _ (ih _ _ _)

theorem flatMap_shifted (j : ℕ) (blocks : List (ℕ × List α)) :
    (shifted j blocks).flatMap Prod.snd = blocks.flatMap Prod.snd := by
  induction blocks generalizing j with
  | nil => rfl
  | cons b blocks ih => exact congrArg (b.2 ++ ·) (ih _)

theorem flatMap_turnsShifted (N j c S : ℕ) (blocks : List (ℕ × List α)) :
    (turnsShifted N j c S blocks).flatMap (fun b => b.2.2) = blocks.flatMap Prod.snd := by
  induction blocks generalizing j c S with
  | nil => rfl
  | cons b blocks ih => exact congrArg (b.2 ++ ·) (ih _ _ _)

theorem allTurns_shifted {N j c S : ℕ} {blocks : List (ℕ × List α)}
    (hc : c ≤ N) (h : Reached N S (sizes blocks)) :
    AllTurns N (fun j d S b => b.2 = 0 ∨ d + S = min (b.1 + j) (N + S)) j c S
        (sizes blocks) ↔
      SamePlaces (N + S) (turnsShifted N j c S blocks) := by
  induction blocks generalizing j c S with
  | nil => exact Iff.rfl
  | cons b blocks ih =>
      obtain ⟨p, xs⟩ := b
      have hp : p ≤ N + S := h.1
      have hmin : min (max c (p - S) + S) (N + S) = max c (p - S) + S := by omega
      have hrec := ih (j := j + 1) (Nat.min_le_left N (max c (p - S) + 1)) h.2
      rw [← Nat.add_assoc] at hrec
      rw [turnsShifted, SamePlaces, hmin, ← hrec, sizes, List.map_cons, AllTurns,
        List.length_eq_zero_iff]
      rfl

theorem weave_turns_eq_insertAll {items : List α} {blocks : List (ℕ × List α)}
    (hreach : Reached items.length 0 (sizes blocks)) :
    weave 0 items (turns items.length 0 0 blocks) =
      insertAll items (firstPlan (turnsShifted items.length 0 0 0 blocks)) := by
  rw [firstPlan_turnsShifted]
  exact (insertAll_positions (c := 0) (S := 0) [] rfl (by simp)
    (turns_ascending (Nat.zero_le _) hreach)).symm

theorem weave_turns_perm {items : List α} {blocks : List (ℕ × List α)}
    (hreach : Reached items.length 0 (sizes blocks)) :
    (weave 0 items (turns items.length 0 0 blocks)).Perm (items ++ blocks.flatMap Prod.snd) := by
  rw [weave_turns_eq_insertAll hreach, ← flatMap_turnsShifted items.length 0 0 0]
  refine (insertAll_perm _ _).trans (List.Perm.of_eq ?_)
  rw [firstPlan, List.flatMap_map]

theorem weave_turns_eq_shifted {items : List α} {blocks : List (ℕ × List α)}
    (hreach : Reached items.length 0 (sizes blocks))
    (h : SameAsShifted items.length (sizes blocks)) :
    weave 0 items (turns items.length 0 0 blocks) = insertAll items (shifted 0 blocks) := by
  rw [weave_turns_eq_insertAll hreach, ← secondPlan_turnsShifted items.length 0 0 0]
  exact insertAll_congr ((allTurns_shifted (Nat.zero_le _) hreach).mp h)

theorem sameAsShifted_of_weave_turns_eq {items : List α} {blocks : List (ℕ × List α)}
    (hreach : Reached items.length 0 (sizes blocks))
    (hdistinct : (items ++ blocks.flatMap Prod.snd).Nodup)
    (h : weave 0 items (turns items.length 0 0 blocks) = insertAll items (shifted 0 blocks)) :
    SameAsShifted items.length (sizes blocks) := by
  rw [weave_turns_eq_insertAll hreach, ← secondPlan_turnsShifted items.length 0 0 0] at h
  rw [← flatMap_turnsShifted items.length 0 0 0] at hdistinct
  exact (allTurns_shifted (Nat.zero_le _) hreach).mpr
    (insertAll_inj hdistinct hdistinct h).2

/-! ### The places in closed form -/

/-- The number of elements in the blocks before number `j`. -/
def sizeBefore (blocks : List (ℕ × ℕ)) (j : ℕ) : ℕ := ((blocks.take j).map Prod.snd).sum

/-- How many items the loop would like to write before block number `j`: for
every block `i` up to `j`, those that make the output as long as its index,
and one for every turn from `i` to `j`. -/
def waits (blocks : List (ℕ × ℕ)) (j : ℕ) : ℕ :=
  (Finset.range (j + 1)).sup fun i =>
    ((blocks.getD i (0, 0)).1 - sizeBefore blocks i) + (j - i)

/-- The same with `c` items and `S` elements of earlier blocks written. -/
def waitsFrom (c S : ℕ) (blocks : List (ℕ × ℕ)) (j : ℕ) : ℕ :=
  max (c + j) ((Finset.range (j + 1)).sup fun i =>
    ((blocks.getD i (0, 0)).1 - (S + sizeBefore blocks i)) + (j - i))

theorem waitsFrom_zero (c S p s : ℕ) (blocks : List (ℕ × ℕ)) :
    waitsFrom c S ((p, s) :: blocks) 0 = max c (p - S) := by
  simp [waitsFrom, sizeBefore]

theorem waitsFrom_succ (c S p s j : ℕ) (blocks : List (ℕ × ℕ)) :
    waitsFrom c S ((p, s) :: blocks) (j + 1) =
      waitsFrom (max c (p - S) + 1) (S + s) blocks j := by
  have hrange : Finset.range (j + 1 + 1) = insert 0 ((Finset.range (j + 1)).image (· + 1)) := by
    ext i
    simp only [Finset.mem_range, Finset.mem_insert, Finset.mem_image]
    constructor
    · intro hi
      rcases Nat.eq_zero_or_pos i with h0 | hpos
      · exact Or.inl h0
      · exact Or.inr ⟨i - 1, by omega, by omega⟩
    · rintro (rfl | ⟨i', hi', rfl⟩) <;> omega
  have hterms : ((fun i => (((p, s) :: blocks).getD i (0, 0)).1 -
      (S + sizeBefore ((p, s) :: blocks) i) + (j + 1 - i)) ∘ (· + 1)) =
      fun i => (blocks.getD i (0, 0)).1 - (S + s + sizeBefore blocks i) + (j - i) := by
    funext i
    simp only [Function.comp, sizeBefore, List.getD_cons_succ, List.take_succ_cons,
      List.map_cons, List.sum_cons, Nat.add_sub_add_right, Nat.add_assoc]
  rw [waitsFrom, waitsFrom, hrange, Finset.sup_insert, Finset.sup_image, hterms]
  simp only [sizeBefore, List.getD_cons_zero, List.take_zero, List.map_nil, List.sum_nil,
    Nat.add_zero, Nat.sub_zero]
  omega

theorem reached_iff {N S : ℕ} {blocks : List (ℕ × ℕ)} :
    Reached N S blocks ↔ ∀ j (hj : j < blocks.length),
      blocks[j].1 ≤ N + (S + sizeBefore blocks j) := by
  induction blocks generalizing S with
  | nil => simp [Reached]
  | cons b blocks ih =>
      obtain ⟨p, s⟩ := b
      rw [Reached, ih]
      constructor
      · rintro ⟨hp, hrest⟩ j hj
        cases j with
        | zero => simpa [sizeBefore] using hp
        | succ j =>
            have hlt : j < blocks.length := by simpa using hj
            simpa [sizeBefore, Nat.add_assoc] using hrest j hlt
      · intro hall
        have hp : p ≤ N + (S + sizeBefore ((p, s) :: blocks) 0) := hall 0 (Nat.succ_pos _)
        refine ⟨by simpa [sizeBefore] using hp, fun j hj => ?_⟩
        have hlt : j + 1 < ((p, s) :: blocks).length := by simpa using hj
        simpa [sizeBefore, Nat.add_assoc] using hall (j + 1) hlt

/-- The index of every block is at most the length of the output once all
items and the blocks before it are written. -/
def Ends (N : ℕ) (blocks : List (ℕ × ℕ)) : Prop :=
  ∀ j (hj : j < blocks.length), blocks[j].1 ≤ N + sizeBefore blocks j

/-- Every nonempty block waits for as many items as there are places that are
not gaps before its index. -/
def KeepsOrder (N : ℕ) (blocks : List (ℕ × ℕ)) : Prop :=
  ∀ j (hj : j < blocks.length),
    blocks[j].2 = 0 ∨ min N (waits blocks j) = blocks[j].1 - j

/-- Every nonempty block comes to the position at which insertion one after
the other puts it. -/
def MatchesInsertion (N : ℕ) (blocks : List (ℕ × ℕ)) : Prop :=
  ∀ j (hj : j < blocks.length),
    blocks[j].2 = 0 ∨ min N (waits blocks j) + sizeBefore blocks j =
      min (blocks[j].1 + j) (N + sizeBefore blocks j)

instance (N : ℕ) (blocks : List (ℕ × ℕ)) : Decidable (Ends N blocks) :=
  inferInstanceAs (Decidable (∀ j (_ : j < blocks.length), _))

instance (N : ℕ) (blocks : List (ℕ × ℕ)) : Decidable (KeepsOrder N blocks) :=
  inferInstanceAs (Decidable (∀ j (_ : j < blocks.length), _))

instance (N : ℕ) (blocks : List (ℕ × ℕ)) : Decidable (MatchesInsertion N blocks) :=
  inferInstanceAs (Decidable (∀ j (_ : j < blocks.length), _))

theorem ends_iff {N : ℕ} {blocks : List (ℕ × ℕ)} : Ends N blocks ↔ Reached N 0 blocks := by
  simp only [Ends, reached_iff, Nat.zero_add]

theorem allTurns_iff {N j₀ c S : ℕ} {P : ℕ → ℕ → ℕ → ℕ × ℕ → Prop} {blocks : List (ℕ × ℕ)}
    (hc : c ≤ N) (h : Reached N S blocks) :
    AllTurns N P j₀ c S blocks ↔ ∀ j (hj : j < blocks.length),
      P (j₀ + j) (min N (waitsFrom c S blocks j)) (S + sizeBefore blocks j) blocks[j] := by
  induction blocks generalizing j₀ c S with
  | nil => simp [AllTurns]
  | cons b blocks ih =>
      obtain ⟨p, s⟩ := b
      have hp : p ≤ N + S := h.1
      have hhead : min N (waitsFrom c S ((p, s) :: blocks) 0) = max c (p - S) := by
        rw [waitsFrom_zero]
        omega
      have hclip : ∀ j, min N (waitsFrom (min N (max c (p - S) + 1)) (S + s) blocks j) =
          min N (waitsFrom c S ((p, s) :: blocks) (j + 1)) := by
        intro j
        rw [waitsFrom_succ, waitsFrom, waitsFrom]
        omega
      have hbefore : ∀ j, S + sizeBefore ((p, s) :: blocks) (j + 1) =
          S + s + sizeBefore blocks j := by
        intro j
        simp [sizeBefore, Nat.add_assoc]
      rw [AllTurns, ih (Nat.min_le_left _ _) h.2]
      constructor
      · rintro ⟨h0, hrest⟩ j hj
        cases j with
        | zero => simpa [hhead, sizeBefore] using h0
        | succ j =>
            have hlt : j < blocks.length := by simpa using hj
            have hj' := hrest j hlt
            rw [hclip, ← hbefore, Nat.add_right_comm] at hj'
            exact hj'
      · intro hall
        have h0 : P (j₀ + 0) (min N (waitsFrom c S ((p, s) :: blocks) 0))
            (S + sizeBefore ((p, s) :: blocks) 0) (p, s) := hall 0 (Nat.succ_pos _)
        refine ⟨by simpa [hhead, sizeBefore] using h0, fun j hj => ?_⟩
        have hj' := hall (j + 1) (Nat.succ_lt_succ hj)
        rw [← hclip, hbefore, ← Nat.add_assoc, Nat.add_right_comm] at hj'
        exact hj'

theorem waits_eq (blocks : List (ℕ × ℕ)) (j : ℕ) : waits blocks j = waitsFrom 0 0 blocks j := by
  have hle : 0 + j ≤ waits blocks j :=
    calc
      0 + j ≤ (blocks.getD 0 (0, 0)).1 - sizeBefore blocks 0 + (j - 0) := by omega
      _ ≤ waits blocks j :=
          Finset.le_sup (f := fun i =>
            ((blocks.getD i (0, 0)).1 - sizeBefore blocks i) + (j - i))
            (Finset.mem_range.mpr (Nat.succ_pos j))
  rw [waitsFrom]
  simp only [Nat.zero_add] at hle ⊢
  exact (max_eq_right hle).symm

theorem keepsOrder_iff {N : ℕ} {blocks : List (ℕ × ℕ)} (h : Reached N 0 blocks) :
    KeepsOrder N blocks ↔ InPlace N blocks := by
  rw [InPlace, allTurns_iff (Nat.zero_le _) h]
  simp only [KeepsOrder, waits_eq, Nat.zero_add]

theorem matchesInsertion_iff {N : ℕ} {blocks : List (ℕ × ℕ)} (h : Reached N 0 blocks) :
    MatchesInsertion N blocks ↔ SameAsShifted N blocks := by
  rw [SameAsShifted, allTurns_iff (Nat.zero_le _) h]
  simp only [MatchesInsertion, waits_eq, Nat.zero_add]

end MetaMonkey.Lists
