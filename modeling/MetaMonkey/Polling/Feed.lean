import Mathlib.Logic.Relation

/-!
A source that changes, and a reader that polls it. The source remembers what has changed
since it was last asked, reports that, and forgets it. What the reader will have when all
reports have come in, the next one included, agrees with the source at any time.
-/

namespace MetaMonkey.Polling

/-- `S` is the type of the source, `M` that of a report and `V` that of the reader's view. -/
structure Feed (S M V : Type*) where
  report : S → M
  clear : S → S
  apply : V → M → V
  Agrees : S → V → Prop
  agrees_clear : ∀ {s v}, Agrees s (apply v (report s)) →
    Agrees (clear s) (apply (apply v (report s)) (report (clear s)))

structure Channel (S M V : Type*) where
  source : S
  wire : List M
  view : V

variable {S M V : Type*}

namespace Feed

variable (F : Feed S M V)

/-- A poll takes a report, and the reports come in in their order. -/
inductive Step (Change : S → S → Prop) : Channel S M V → Channel S M V → Prop
  | change {s s' : S} {w : List M} {v : V} (h : Change s s') : Step Change ⟨s, w, v⟩ ⟨s', w, v⟩
  | poll {s : S} {w : List M} {v : V} :
      Step Change ⟨s, w, v⟩ ⟨F.clear s, w ++ [F.report s], v⟩
  | deliver {s : S} {m : M} {w : List M} {v : V} :
      Step Change ⟨s, m :: w, v⟩ ⟨s, w, F.apply v m⟩

/-- What the reader will have agrees with the source. -/
def Current (c : Channel S M V) : Prop :=
  F.Agrees c.source (F.apply (c.wire.foldl F.apply c.view) (F.report c.source))

/-- No change is forgotten: what it changes is in the next report. -/
def Reported (Change : S → S → Prop) : Prop :=
  ∀ s s' v, Change s s' → F.Agrees s (F.apply v (F.report s)) →
    F.Agrees s' (F.apply v (F.report s'))

variable {F} {Change : S → S → Prop} {c c' : Channel S M V}

theorem Step.current (hreported : F.Reported Change) (h : F.Step Change c c')
    (hc : F.Current c) : F.Current c' := by
  cases h with
  | change h => exact hreported _ _ _ h hc
  | poll =>
      show F.Agrees _ (F.apply (List.foldl _ _ (_ ++ [_])) _)
      rw [List.foldl_append]
      exact F.agrees_clear hc
  | deliver => exact hc

theorem current_run (hreported : F.Reported Change)
    (hrun : Relation.ReflTransGen (F.Step Change) c c') (hc : F.Current c) : F.Current c' := by
  induction hrun with
  | refl => exact hc
  | tail _ h ih => exact h.current hreported ih

theorem Current.after_poll (hc : F.Current c) (hwire : c.wire = []) :
    F.Agrees c.source (F.apply c.view (F.report c.source)) := by
  rw [Current, hwire] at hc
  exact hc

end Feed

end MetaMonkey.Polling
