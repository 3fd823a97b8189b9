import MetaMonkey.Js.Number

/-!
The parameters of a function. `functionArguments` lists the patterns apart from
the other parameters, and `functionArgs` of `ASTSerializer` puts the two lists
together by the frame slots of the patterns.
-/

namespace MetaMonkey.Frontend

open Js

variable {α : Type}

/-- A parameter as it is written; `α` are the nodes of patterns and expressions. -/
inductive Formal (α : Type) where
  | pattern (node : α) (names : List JSString)
  | name (id : JSString) (default : Option α)
  | escape (node : α)
  | rest (id : JSString) (default : Option α)

inductive FormalError where
  | parameterAfterRest
  | badDupArgs
  | nondefaultFormalAfterDefault
  | restWithDefault
  | duplicateFormal
  | badBinding
  deriving DecidableEq

/-- A node in the list of the arguments, where a pattern has none. -/
inductive Argument (α : Type) where
  | name (id : JSString) (default : Option α)
  | escape (node : α)

/-- The variables of `functionArguments`, with the length of `args_` and the names
that are declared. -/
structure Arguments (α : Type) where
  args : List (Argument α)
  destructs : List (ℕ × α)
  length : ℕ
  decls : List JSString
  hasRest : Bool
  hasDefaults : Bool
  duplicatedArg : Bool
  destructuringArg : Bool

/-! ### The parser -/

section

variable (strict : Bool) (isKeyword : JSString → Bool)

def checkStrictBinding (name : JSString) : Bool :=
  !strict || !(name = js "eval" || name = js "arguments" || isKeyword name)

def bindDestructuringArg (s : Arguments α) (name : JSString) : Except FormalError (Arguments α) :=
  if name ∈ s.decls then .error .badDupArgs
  else if !checkStrictBinding strict isKeyword name then .error .badBinding
  else .ok { s with decls := name :: s.decls }

/-- An argument gets the next slot. -/
def defineArg (s : Arguments α) (name : JSString) : Except FormalError (Arguments α) :=
  let disallowDuplicateArgs := s.destructuringArg || s.hasDefaults
  if name ∈ s.decls ∧ strict then .error .duplicateFormal
  else if name ∈ s.decls ∧ disallowDuplicateArgs then .error .badDupArgs
  else if !checkStrictBinding strict isKeyword name then .error .badBinding
  else .ok { s with
    args := s.args ++ [.name name none]
    length := s.length + 1
    decls := name :: s.decls
    duplicatedArg := s.duplicatedArg || name ∈ s.decls }

def setLastFunctionArgumentDefault (args : List (Argument α)) (expr : α) : List (Argument α) :=
  match args.getLast? with
  | some (.name id _) => args.dropLast ++ [.name id (some expr)]
  | _ => args

/-- A turn of the loop in `functionArguments`. -/
def functionArgument (s : Arguments α) (formal : Formal α) : Except FormalError (Arguments α) :=
  if s.hasRest then .error .parameterAfterRest
  else
    match formal with
    | .pattern node names =>
        if s.duplicatedArg then .error .badDupArgs
        else if s.hasDefaults then .error .nondefaultFormalAfterDefault
        else do
          let s ← names.foldlM (bindDestructuringArg strict isKeyword)
            { s with destructuringArg := true }
          return { s with
            destructs := s.destructs ++ [(s.length, node)]
            length := s.length + 1 }
    | .rest name default => do
        let s ← defineArg strict isKeyword { s with hasRest := true } name
        if default.isSome then throw .restWithDefault else return s
    | .name name default => do
        let s ← defineArg strict isKeyword s name
        match default with
        | some expr =>
            if s.duplicatedArg then throw .badDupArgs
            else return { s with
              hasDefaults := true
              args := setLastFunctionArgumentDefault s.args expr }
        | none => if s.hasDefaults then throw .nondefaultFormalAfterDefault else return s
    -- an escape is an argument that nothing is defined for
    | .escape node => return { s with args := s.args ++ [.escape node] }

def functionArguments (formals : List (Formal α)) : Except FormalError (Arguments α) :=
  formals.foldlM (functionArgument strict isKeyword) ⟨[], [], 0, [], false, false, false, false⟩

end

/-! ### The serializer -/

/-- An element of the array `params`. -/
inductive Param (α : Type) where
  | identifier (name : JSString)
  | pattern (node : α)
  | escape (node : α)
  deriving DecidableEq

@[ext]
structure Params (α : Type) where
  args : List (Param α)
  defaults : List α
  rest : Option JSString
  deriving DecidableEq

section

-- the function statement of the body that took over the definition of an argument
variable (redeclared : JSString → Option α)

/-- What an argument adds to the lists. A definition that was turned into a use is an
assignment by then, and `pn_kid->pn_right` is the new definition. -/
def Params.append (hasRest last : Bool) : Argument α → Params α → Params α
  | .escape node, r => { r with args := .escape node :: r.args }
  | .name id default, r =>
      { args := if hasRest && last then r.args else .identifier id :: r.args
        rest := if hasRest && last then some id else r.rest
        defaults := (default.map fun expr => (redeclared id).getD expr).toList ++ r.defaults }

/-- `functionArgs`, from turn number `i` on; `none` where an argument is missing. -/
def functionArgs (hasRest : Bool) : ℕ → List (Argument α) → List (ℕ × α) → Option (Params α)
  | i, args, (frameSlot, node) :: destructs =>
      if frameSlot = i then
        (functionArgs hasRest (i + 1) args destructs).map fun r =>
          { r with args := .pattern node :: r.args }
      else
        match args with
        | [] => none
        | arg :: args =>
            (functionArgs hasRest (i + 1) args ((frameSlot, node) :: destructs)).map
              (Params.append redeclared hasRest args.isEmpty arg)
  | i, arg :: args, [] =>
      (functionArgs hasRest (i + 1) args []).map
        (Params.append redeclared hasRest args.isEmpty arg)
  | _, [], [] => some ⟨[], [], none⟩
termination_by _ args destructs => args.length + destructs.length

def Arguments.serialize (s : Arguments α) : Option (Params α) :=
  functionArgs redeclared s.hasRest 0 s.args s.destructs

end

/-! ### The order of the source -/

def Formal.isEscape : Formal α → Bool
  | escape _ => true
  | _ => false

def Formal.isPattern : Formal α → Bool
  | pattern _ _ => true
  | _ => false

def Formal.isRest : Formal α → Bool
  | rest _ _ => true
  | _ => false

def Formal.param? : Formal α → Option (Param α)
  | pattern node _ => some (.pattern node)
  | name id _ => some (.identifier id)
  | escape node => some (.escape node)
  | rest _ _ => none

def Formal.default? : Formal α → Option α
  | name _ default => default
  | _ => none

def Formal.rest? : Formal α → Option JSString
  | rest id _ => some id
  | _ => none

/-- The parameters in the order they are written in. -/
def written (formals : List (Formal α)) : Params α where
  args := formals.filterMap Formal.param?
  defaults := formals.filterMap Formal.default?
  rest := formals.findSome? Formal.rest?

/-- No pattern stands after an escape. -/
def PatternsFirst (formals : List (Formal α)) : Prop :=
  formals.Pairwise fun x y => x.isEscape = true → y.isPattern = false

/-- No function of the body takes over an argument that has a default, unless it is the
default. -/
def DefaultsKept (redeclared : JSString → Option α) (formals : List (Formal α)) : Prop :=
  ∀ id expr, .name id (some expr) ∈ formals → ∀ f ∈ redeclared id, f = expr

/-! ### What the parser keeps -/

def Formal.argument? : Formal α → Option (Argument α)
  | pattern _ _ => none
  | name id default => some (.name id default)
  | escape node => some (.escape node)
  | rest id _ => some (.name id none)

/-- The patterns with their slots, which are not counted for escapes. -/
def slots : ℕ → List (Formal α) → List (ℕ × α)
  | _, [] => []
  | k, .pattern node _ :: formals => (k, node) :: slots (k + 1) formals
  | k, .escape _ :: formals => slots k formals
  | k, .name _ _ :: formals => slots (k + 1) formals
  | k, .rest _ _ :: formals => slots (k + 1) formals

section

variable {strict : Bool} {isKeyword : JSString → Bool} {s s' : Arguments α}

theorem bind_eq_some_ok {ε β γ : Type} {x : Except ε β} {f : β → Except ε γ} {c : γ} :
    (x >>= f) = .ok c ↔ ∃ b, x = .ok b ∧ f b = .ok c := by
  cases x with
  | error e => exact ⟨nofun, fun ⟨b, hb, _⟩ => nomatch hb⟩
  | ok b => exact ⟨fun h => ⟨b, rfl, h⟩, fun ⟨b', hb, h⟩ => by cases hb; exact h⟩

theorem setLastFunctionArgumentDefault_append (args : List (Argument α)) (id : JSString)
    (expr : α) : setLastFunctionArgumentDefault (args ++ [.name id none]) expr =
      args ++ [.name id (some expr)] := by
  simp [setLastFunctionArgumentDefault]

theorem defineArg_ok {id : JSString} (h : defineArg strict isKeyword s id = .ok s') :
    s'.args = s.args ++ [.name id none] ∧ s'.destructs = s.destructs ∧
      s'.length = s.length + 1 ∧ s'.hasRest = s.hasRest := by
  simp only [defineArg] at h
  split at h
  · cases h
  · split at h
    · cases h
    · split at h
      · cases h
      · cases h
        exact ⟨rfl, rfl, rfl, rfl⟩

theorem bindDestructuringArgs_ok {names : List JSString}
    (h : names.foldlM (bindDestructuringArg strict isKeyword) s = .ok s') :
    s'.args = s.args ∧ s'.destructs = s.destructs ∧ s'.length = s.length ∧
      s'.hasRest = s.hasRest := by
  induction names generalizing s with
  | nil =>
      cases h
      exact ⟨rfl, rfl, rfl, rfl⟩
  | cons name names ih =>
      rw [List.foldlM_cons, bindDestructuringArg] at h
      split at h
      · cases h
      · split at h
        · cases h
        · exact ih (s := { s with decls := name :: s.decls }) h

/-- What a turn does to the lists. -/
theorem functionArgument_ok {x : Formal α}
    (h : functionArgument strict isKeyword s x = .ok s') :
    s.hasRest = false ∧ s'.hasRest = x.isRest ∧ s'.args = s.args ++ x.argument?.toList ∧
      s'.destructs = s.destructs ++ slots s.length [x] ∧
      s'.length = s.length + if x.isEscape then 0 else 1 := by
  unfold functionArgument at h
  split at h
  · cases h
  · rename_i hrest
    have hrest : s.hasRest = false := by simpa using hrest
    refine ⟨hrest, ?_⟩
    cases x with
    | pattern node names =>
        simp only at h
        split at h
        · cases h
        · split at h
          · cases h
          · obtain ⟨s₁, hnames, h⟩ := bind_eq_some_ok.mp h
            cases h
            obtain ⟨hargs, hdestructs, hlength, hr⟩ := bindDestructuringArgs_ok hnames
            exact ⟨hr.trans hrest, by simp [Formal.argument?, hargs], by
              simp [slots, hdestructs, hlength], by simp [Formal.isEscape, hlength]⟩
    | name id default =>
        obtain ⟨s₁, hdefine, h⟩ := bind_eq_some_ok.mp h
        obtain ⟨hargs, hdestructs, hlength, hr⟩ := defineArg_ok hdefine
        cases default with
        | some expr =>
            simp only at h
            split at h
            · cases h
            · cases h
              simp [Formal.argument?, Formal.isRest, Formal.isEscape, slots, hargs, hdestructs,
                hlength, hr, hrest, setLastFunctionArgumentDefault_append]
        | none =>
            simp only at h
            split at h
            · cases h
            · cases h
              simp [Formal.argument?, Formal.isRest, Formal.isEscape, slots, hargs, hdestructs,
                hlength, hr, hrest]
    | escape node =>
        cases h
        simp [Formal.argument?, Formal.isRest, Formal.isEscape, slots, hrest]
    | rest id default =>
        obtain ⟨s₁, hdefine, h⟩ := bind_eq_some_ok.mp h
        obtain ⟨hargs, hdestructs, hlength, hr⟩ := defineArg_ok hdefine
        split at h
        · cases h
        · cases h
          simp [Formal.argument?, Formal.isRest, Formal.isEscape, slots, hargs, hdestructs,
            hlength, hr]

end

/-- A rest parameter is the last one. -/
def RestLast (formals : List (Formal α)) : Prop :=
  formals.Pairwise fun x _ => x.isRest = false

theorem slots_append (xs ys : List (Formal α)) (k : ℕ) :
    slots k (xs ++ ys) =
      slots k xs ++ slots (k + (xs.filter fun x => !x.isEscape).length) ys := by
  induction xs generalizing k with
  | nil => rfl
  | cons x xs ih =>
      cases x <;> simp [slots, ih, Formal.isEscape, Nat.add_assoc, Nat.add_comm 1]

/-- What the loop leaves for the serializer. -/
theorem functionArguments_ok {strict : Bool} {isKeyword : JSString → Bool}
    {formals : List (Formal α)} {s s' : Arguments α}
    (h : formals.foldlM (functionArgument strict isKeyword) s = .ok s') :
    s'.args = s.args ++ formals.filterMap Formal.argument? ∧
      s'.destructs = s.destructs ++ slots s.length formals ∧
      s'.hasRest = (s.hasRest || formals.any Formal.isRest) ∧ RestLast formals ∧
      (s.hasRest = true → formals = []) := by
  induction formals generalizing s with
  | nil =>
      cases h
      simp [slots, RestLast]
  | cons x xs ih =>
      rw [List.foldlM_cons] at h
      obtain ⟨s₁, hx, hxs⟩ := bind_eq_some_ok.mp h
      obtain ⟨hrest, hrest₁, hargs₁, hdestructs₁, hlength₁⟩ := functionArgument_ok hx
      obtain ⟨hargs, hdestructs, hr, hlast, hnil⟩ := ih hxs
      refine ⟨?_, ?_, ?_, ?_, by simp [hrest]⟩
      · rw [hargs, hargs₁, List.append_assoc]
        cases hx : x.argument? <;> simp [hx]
      · rw [hdestructs, hdestructs₁, List.append_assoc, hlength₁]
        cases x <;> rfl
      · rw [hr, hrest₁, hrest, List.any_cons, Bool.false_or]
      · refine List.pairwise_cons.mpr ⟨fun y hy => ?_, hlast⟩
        rw [← hrest₁, Bool.eq_false_iff]
        intro hrest₂
        rw [hnil hrest₂] at hy
        cases hy

/-! ### The two lists together -/

section

variable {redeclared : JSString → Option α}

def Formal.serializedDefault? (redeclared : JSString → Option α) : Formal α → Option α
  | name id default => default.map fun expr => (redeclared id).getD expr
  | _ => none

/-- What the serializer makes of parameters that it finds in order. -/
def serialized (redeclared : JSString → Option α) (formals : List (Formal α)) : Params α where
  args := formals.filterMap Formal.param?
  defaults := formals.filterMap (Formal.serializedDefault? redeclared)
  rest := formals.findSome? Formal.rest?

theorem functionArgs_arg {hasRest : Bool} {i : ℕ} {arg : Argument α} {args : List (Argument α)}
    {destructs : List (ℕ × α)} (h : ∀ d ∈ destructs.head?, d.1 ≠ i) :
    functionArgs redeclared hasRest i (arg :: args) destructs =
      (functionArgs redeclared hasRest (i + 1) args destructs).map
        (Params.append redeclared hasRest args.isEmpty arg) := by
  cases destructs with
  | nil => rw [functionArgs.eq_def]
  | cons d destructs =>
      obtain ⟨frameSlot, node⟩ := d
      have hne : frameSlot ≠ i := h _ rfl
      rw [functionArgs, if_neg hne]

theorem functionArgs_pattern {hasRest : Bool} {i : ℕ} {node : α} {args : List (Argument α)}
    {destructs : List (ℕ × α)} :
    functionArgs redeclared hasRest i args ((i, node) :: destructs) =
      (functionArgs redeclared hasRest (i + 1) args destructs).map fun r =>
        { r with args := .pattern node :: r.args } := by
  rw [functionArgs.eq_def]
  simp only [if_true]

theorem le_of_mem_slots {formals : List (Formal α)} {k : ℕ} {d : ℕ × α}
    (h : d ∈ slots k formals) : k ≤ d.1 := by
  induction formals generalizing k with
  | nil => simp [slots] at h
  | cons x xs ih =>
      cases x with
      | pattern node names =>
          obtain rfl | h := List.mem_cons.mp h
          · exact le_refl k
          · exact le_trans (Nat.le_succ k) (ih h)
      | name id default => exact le_trans (Nat.le_succ k) (ih h)
      | escape node => exact ih h
      | rest id default => exact le_trans (Nat.le_succ k) (ih h)

theorem slots_eq_nil {formals : List (Formal α)} (h : ∀ x ∈ formals, x.isPattern = false)
    (k : ℕ) : slots k formals = [] := by
  induction formals generalizing k with
  | nil => rfl
  | cons x xs ih =>
      have hx := h x (by simp)
      have hxs := ih fun y hy => h y (by simp [hy])
      cases x <;> simp_all [slots, Formal.isPattern]

theorem isEmpty_arguments {xs : List (Formal α)} (h : xs.any Formal.isRest = true) :
    (xs.filterMap Formal.argument?).isEmpty = false := by
  obtain ⟨x, hx, hrest⟩ := List.any_eq_true.mp h
  rw [List.isEmpty_eq_false_iff_exists_mem]
  cases x with
  | rest id default => exact ⟨_, List.mem_filterMap.mpr ⟨_, hx, rfl⟩⟩
  | _ => simp [Formal.isRest] at hrest

/-- An argument adds what is written, a rest parameter in its own place. -/
theorem serialized_cons {x : Formal α} {xs : List (Formal α)} {arg : Argument α}
    (harg : x.argument? = some arg) (hlast : RestLast (x :: xs)) :
    serialized redeclared (x :: xs) = Params.append redeclared ((x :: xs).any Formal.isRest)
      (xs.filterMap Formal.argument?).isEmpty arg (serialized redeclared xs) := by
  cases x with
  | pattern node names => cases harg
  | name id default =>
      cases harg
      have hplace : (xs.any Formal.isRest && (xs.filterMap Formal.argument?).isEmpty) = false := by
        cases hany : xs.any Formal.isRest with
        | false => rfl
        | true => rw [isEmpty_arguments hany]; rfl
      cases default <;>
        simp [serialized, Params.append, Formal.param?, Formal.rest?, Formal.isRest, hplace,
          Formal.serializedDefault?, List.findSome?_cons, List.filterMap_cons]
  | escape node =>
      cases harg
      simp [serialized, Params.append, Formal.param?, Formal.rest?, Formal.serializedDefault?,
        List.findSome?_cons, List.filterMap_cons]
  | rest id default =>
      cases harg
      have hnil : xs = [] := by
        cases xs with
        | nil => rfl
        | cons y ys => exact absurd ((List.pairwise_cons.mp hlast).1 y (by simp)) (by
            simp [Formal.isRest])
      subst hnil
      rfl

theorem RestLast.tail_eq_nil {x : Formal α} {xs : List (Formal α)} (h : RestLast (x :: xs))
    (hx : x.isRest = true) : xs = [] := by
  cases xs with
  | nil => rfl
  | cons y ys =>
      have hnot := (List.pairwise_cons.mp h).1 y (by simp)
      rw [hx] at hnot
      cases hnot

/-- Before an escape the slots are the places of the parameters, and after it
there are no slots. -/
theorem functionArgs_ordered {hasRest : Bool} {formals : List (Formal α)} (i j : ℕ)
    (hj : j = i ∨ ∀ x ∈ formals, x.isPattern = false) (hfirst : PatternsFirst formals)
    (hlast : RestLast formals) (hrest : formals = [] ∨ hasRest = formals.any Formal.isRest) :
    functionArgs redeclared hasRest i (formals.filterMap Formal.argument?) (slots j formals) =
      some (serialized redeclared formals) := by
  induction formals generalizing i j with
  | nil =>
      rw [List.filterMap_nil, slots, functionArgs]
      rfl
  | cons x xs ih =>
      obtain ⟨hescape, hfirst'⟩ := List.pairwise_cons.mp hfirst
      have hlast' : RestLast xs := (List.pairwise_cons.mp hlast).2
      have hrest : hasRest = (x :: xs).any Formal.isRest := hrest.resolve_left (by simp)
      have hrest' : xs = [] ∨ hasRest = xs.any Formal.isRest := by
        cases hx : x.isRest with
        | true => exact .inl (hlast.tail_eq_nil hx)
        | false => exact .inr (by rw [hrest, List.any_cons, hx, Bool.false_or])
      -- a step over an argument, whose slot may already be behind the place
      have hstep : ∀ {arg : Argument α} {k : ℕ}, x.argument? = some arg →
          (k = i + 1 ∨ ∀ y ∈ xs, y.isPattern = false) →
          functionArgs redeclared hasRest i (arg :: xs.filterMap Formal.argument?) (slots k xs) =
            some (serialized redeclared (x :: xs)) := by
        intro arg k harg hk
        rw [functionArgs_arg, ih (i + 1) k hk hfirst' hlast' hrest', Option.map_some,
          serialized_cons harg hlast, hrest]
        intro d hd
        obtain rfl | hk := hk
        · have hle := le_of_mem_slots (List.mem_of_mem_head? hd)
          omega
        · rw [slots_eq_nil hk] at hd
          cases hd
      have hj' : ∀ {k : ℕ}, (j = i → k = i + 1) →
          k = i + 1 ∨ ∀ y ∈ xs, y.isPattern = false := fun hk =>
        hj.imp hk fun h y hy => h y (by simp [hy])
      cases x with
      | pattern node names =>
          obtain rfl : j = i := hj.resolve_right fun h => by
            have hx := h (.pattern node names) (by simp)
            cases hx
          rw [List.filterMap_cons_none rfl, slots, functionArgs_pattern,
            ih (j + 1) (j + 1) (.inl rfl) hfirst' hlast' hrest']
          rfl
      | name id default => exact hstep rfl (hj' (k := j + 1) (by omega))
      | escape node => exact hstep rfl (.inr fun y hy => hescape y hy rfl)
      | rest id default => exact hstep rfl (hj' (k := j + 1) (by omega))

/-- A pattern comes to the place of its slot, if there are arguments to come before it. -/
theorem functionArgs_slot {hasRest : Bool} {i n : ℕ} {args : List (Argument α)} {node : α}
    {destructs : List (ℕ × α)} {r : Params α} (hn : n < args.length)
    (h : functionArgs redeclared hasRest i args ((i + n, node) :: destructs) = some r) :
    r.args[n]? = some (.pattern node) := by
  induction n generalizing i args r with
  | zero =>
      rw [Nat.add_zero, functionArgs_pattern, Option.map_eq_some_iff] at h
      obtain ⟨r', -, rfl⟩ := h
      rfl
  | succ n ih =>
      match args, hn with
      | arg :: args, hn =>
          simp only [List.length_cons, Nat.add_lt_add_iff_right] at hn
          have hne : ∀ d ∈ ((i + (n + 1), node) :: destructs).head?, d.1 ≠ i := by
            rintro d hd
            obtain rfl : (i + (n + 1), node) = d := by simpa using hd
            simp
          rw [functionArgs_arg hne, Option.map_eq_some_iff] at h
          obtain ⟨r', hr', rfl⟩ := h
          have hplace : i + (n + 1) = i + 1 + n := by omega
          rw [hplace] at hr'
          have hpattern := ih hn hr'
          have hmore : args.isEmpty = false := by
            cases args with
            | nil => cases hn
            | cons => rfl
          cases arg <;> simpa [Params.append, hmore] using hpattern

theorem param_ne_pattern {x : Formal α} (hx : x.isPattern = false) (node : α) :
    x.param? ≠ some (.pattern node) := by
  cases x <;> simp_all [Formal.isPattern, Formal.param?]

theorem length_filterMap {β : Type} {f : Formal α → Option β} {xs : List (Formal α)}
    (h : ∀ x ∈ xs, (f x).isSome = true) : (xs.filterMap f).length = xs.length := by
  induction xs with
  | nil => rfl
  | cons x xs ih =>
      obtain ⟨b, hb⟩ := Option.isSome_iff_exists.mp (h x (by simp))
      rw [List.filterMap_cons_some hb, List.length_cons, List.length_cons,
        ih fun y hy => h y (by simp [hy])]

/-- After an escape the first pattern comes too early. -/
theorem functionArgs_escape {hasRest : Bool} {i : ℕ} {node : α} {xs : List (Formal α)}
    {r : Params α} (hpattern : ∃ y ∈ xs, y.isPattern = true)
    (hlast : RestLast (.escape node :: xs))
    (h : functionArgs redeclared hasRest i ((.escape node :: xs).filterMap Formal.argument?)
      (slots i xs) = some r) :
    r.args ≠ (written (.escape node :: xs)).args := by
  -- `zs` are the parameters between the escape and the first pattern
  obtain ⟨zs, ys, p, names, rfl, hzs⟩ : ∃ zs ys p names, xs = zs ++ .pattern p names :: ys ∧
      ∀ z ∈ zs, z.isPattern = false := by
    obtain ⟨y, hy⟩ := Option.isSome_iff_exists.mp (List.find?_isSome.mpr hpattern)
    obtain ⟨hy', zs, ys, rfl, hzs⟩ := List.find?_eq_some_iff_append.mp hy
    cases y with
    | pattern p names => exact ⟨zs, ys, p, names, rfl, fun z hz => by simpa using hzs z hz⟩
    | _ => cases hy'
  obtain ⟨n, hn, hslots⟩ : ∃ n ≤ zs.length, slots i (zs ++ .pattern p names :: ys) =
      (i + n, p) :: slots (i + n + 1) ys := by
    refine ⟨(zs.filter fun z => !z.isEscape).length, List.length_filter_le _ _, ?_⟩
    rw [slots_append, slots_eq_nil hzs]
    rfl
  have hargs : (Formal.escape node :: (zs ++ .pattern p names :: ys)).filterMap
      Formal.argument? = .escape node :: (zs.filterMap Formal.argument? ++
        ys.filterMap Formal.argument?) := by
    rw [List.filterMap_cons_some (f := Formal.argument?) rfl, List.filterMap_append,
      List.filterMap_cons_none rfl]
  rw [hslots] at h
  have hcount : (zs.filterMap Formal.argument?).length = zs.length :=
    length_filterMap fun z hz => by
      have hz := hzs z hz
      cases z <;> simp_all [Formal.isPattern, Formal.argument?]
  have hout := functionArgs_slot (by rw [hargs]; simp; omega) h
  intro hwritten
  rw [hwritten] at hout
  -- in the source there is no pattern at that place yet
  have hbefore : ∀ x ∈ Formal.escape node :: zs, x.isPattern = false ∧ x.isRest = false := by
    intro x hx
    refine ⟨?_, ?_⟩
    · obtain rfl | hx := List.mem_cons.mp hx
      · rfl
      · exact hzs x hx
    · have hsplit : RestLast ((Formal.escape node :: zs) ++ .pattern p names :: ys) := hlast
      exact (List.pairwise_append.mp hsplit).2.2 x hx (.pattern p names) (by simp)
  have hsome : ∀ x ∈ Formal.escape node :: zs, x.param?.isSome = true := by
    intro x hx
    have hx := hbefore x hx
    cases x <;> simp_all [Formal.isRest, Formal.param?]
  have hparams : (written (Formal.escape node :: (zs ++ .pattern p names :: ys))).args =
      (Formal.escape node :: zs).filterMap Formal.param? ++
        (Formal.pattern p names :: ys).filterMap Formal.param? := by
    rw [written, ← List.filterMap_append]
    rfl
  rw [hparams, List.getElem?_append_left (by rw [length_filterMap hsome]; simp; omega)] at hout
  obtain ⟨x, hx, hparam⟩ := List.mem_filterMap.mp (List.mem_of_getElem? hout)
  exact param_ne_pattern (hbefore x hx).1 p hparam

theorem patternsFirst_of_not_escape {xs : List (Formal α)} (h : ∀ x ∈ xs, x.isEscape = false) :
    PatternsFirst xs :=
  List.Pairwise.imp_of_mem (fun hx _ _ hescape => by rw [h _ hx] at hescape; cases hescape)
    (List.pairwise_of_forall fun _ _ => trivial)

theorem patternsFirst_of_not_pattern {xs : List (Formal α)}
    (h : ∀ x ∈ xs, x.isPattern = false) : PatternsFirst xs :=
  List.Pairwise.imp_of_mem (fun _ hy _ _ => h _ hy) (List.pairwise_of_forall fun _ _ => trivial)

/-- The parameters are written in order only if no pattern stands after an escape. -/
theorem patternsFirst_of_functionArgs {hasRest : Bool} {formals : List (Formal α)} {i : ℕ}
    {r : Params α} (hlast : RestLast formals)
    (h : functionArgs redeclared hasRest i (formals.filterMap Formal.argument?)
      (slots i formals) = some r) (hargs : r.args = (written formals).args) :
    PatternsFirst formals := by
  induction formals generalizing i r with
  | nil => exact List.Pairwise.nil
  | cons x xs ih =>
      have hlast' : RestLast xs := (List.pairwise_cons.mp hlast).2
      by_contra hnot
      cases x with
      | pattern node names =>
          rw [List.filterMap_cons_none rfl, slots, functionArgs_pattern,
            Option.map_eq_some_iff] at h
          obtain ⟨r', hr', rfl⟩ := h
          have htail := ih hlast' hr' (List.cons_injective hargs)
          exact hnot (List.pairwise_cons.mpr ⟨nofun, htail⟩)
      | name id default =>
          have hnot' : ¬ PatternsFirst xs := fun htail =>
            hnot (List.pairwise_cons.mpr ⟨nofun, htail⟩)
          -- an escape is left, so that the name is not the last argument
          have hmore : (xs.filterMap Formal.argument?).isEmpty = false := by
            rw [List.isEmpty_eq_false_iff_exists_mem]
            by_contra hnone
            refine hnot' (patternsFirst_of_not_escape fun x hx => ?_)
            cases x with
            | escape node => exact absurd ⟨_, List.mem_filterMap.mpr ⟨_, hx, rfl⟩⟩ hnone
            | _ => rfl
          have hslot : ∀ d ∈ (slots (i + 1) xs).head?, d.1 ≠ i := fun d hd => by
            have hle := le_of_mem_slots (List.mem_of_mem_head? hd)
            omega
          rw [List.filterMap_cons_some (f := Formal.argument?) rfl, slots, functionArgs_arg hslot,
            Option.map_eq_some_iff] at h
          obtain ⟨r', hr', rfl⟩ := h
          rw [Params.append, hmore, Bool.and_false] at hargs
          exact hnot' (ih hlast' hr' (List.cons_injective hargs))
      | escape node =>
          refine functionArgs_escape ?_ hlast h hargs
          by_contra hnone
          have hnone : ∀ y ∈ xs, y.isPattern = false := fun y hy => by
            rw [Bool.eq_false_iff]
            exact fun hpattern => hnone ⟨y, hy, hpattern⟩
          exact hnot (List.pairwise_cons.mpr
            ⟨fun y hy _ => hnone y hy, patternsFirst_of_not_pattern hnone⟩)
      | rest id default =>
          rw [hlast.tail_eq_nil rfl] at hnot
          exact hnot (List.pairwise_singleton _ _)

theorem serialized_defaults_iff {formals : List (Formal α)} :
    (serialized redeclared formals).defaults = (written formals).defaults ↔
      DefaultsKept redeclared formals := by
  induction formals with
  | nil => simp [serialized, written, DefaultsKept]
  | cons x xs ih =>
      have hsame : x.default? = none → x.serializedDefault? redeclared = none →
          ((serialized redeclared (x :: xs)).defaults = (written (x :: xs)).defaults ↔
            DefaultsKept redeclared (x :: xs)) := by
        intro hnone hnone'
        have hx : ∀ id expr, x ≠ .name id (some expr) := by
          rintro id expr rfl
          cases hnone
        rw [serialized, written, List.filterMap_cons_none hnone, List.filterMap_cons_none hnone']
        refine ih.trans ⟨fun h id expr hmem => ?_, fun h id expr hmem => h id expr (by simp [hmem])⟩
        exact h id expr ((List.mem_cons.mp hmem).resolve_left (hx id expr).symm)
      cases x with
      | pattern node names => exact hsame rfl rfl
      | escape node => exact hsame rfl rfl
      | rest id default => exact hsame rfl rfl
      | name id default =>
          cases default with
          | none => exact hsame rfl rfl
          | some expr =>
              have hcons : (serialized redeclared (.name id (some expr) :: xs)).defaults =
                  (written (.name id (some expr) :: xs)).defaults ↔
                  (redeclared id).getD expr = expr ∧
                    (serialized redeclared xs).defaults = (written xs).defaults :=
                List.cons.injEq _ _ _ _ ▸ Iff.rfl
              have hkept : (redeclared id).getD expr = expr ↔ ∀ f ∈ redeclared id, f = expr := by
                cases redeclared id <;> simp
              rw [hcons, ih, hkept]
              constructor
              · rintro ⟨hid, hxs⟩ id' expr' hmem
                obtain heq | hmem := List.mem_cons.mp hmem
                · cases heq
                  exact hid
                · exact hxs id' expr' hmem
              · exact fun h => ⟨h id expr (by simp), fun id' expr' hmem =>
                  h id' expr' (by simp [hmem])⟩

end

/-- The serializer lists the parameters as they are written exactly if no pattern stands
after an escape and no function of the body takes over an argument with a default. -/
theorem functionArgs_written_iff {strict : Bool} {isKeyword : JSString → Bool}
    {formals : List (Formal α)} {s : Arguments α} (redeclared : JSString → Option α)
    (h : functionArguments strict isKeyword formals = .ok s) :
    s.serialize redeclared = some (written formals) ↔
      PatternsFirst formals ∧ DefaultsKept redeclared formals := by
  obtain ⟨hargs, hdestructs, hrest, hlast, -⟩ := functionArguments_ok h
  simp only [List.nil_append, Bool.false_or] at hargs hdestructs hrest
  rw [Arguments.serialize, hargs, hdestructs]
  constructor
  · intro hwritten
    have hfirst := patternsFirst_of_functionArgs hlast hwritten rfl
    rw [functionArgs_ordered 0 0 (.inl rfl) hfirst hlast (.inr hrest), Option.some_inj] at hwritten
    exact ⟨hfirst, serialized_defaults_iff.mp (congrArg Params.defaults hwritten)⟩
  · rintro ⟨hfirst, hkept⟩
    rw [functionArgs_ordered 0 0 (.inl rfl) hfirst hlast (.inr hrest), Option.some_inj]
    exact Params.ext rfl (serialized_defaults_iff.mpr hkept) rfl

/-- A name, a pattern, an escape, a name with a default and a rest parameter. -/
def mixedFormals : List (Formal ℕ) :=
  [.name (js "a") none, .pattern 0 [js "b"], .escape 1, .name (js "c") (some 2),
    .rest (js "d") none]

theorem functionArgs_written_mixed :
    ∃ s, functionArguments false (fun _ => false) mixedFormals = .ok s ∧
      s.serialize (fun _ => none) = some (written mixedFormals) := by
  refine ⟨_, rfl, (functionArgs_written_iff (fun _ => none)
    (show functionArguments false (fun _ => false) mixedFormals = .ok _ from rfl)).mpr ⟨?_, ?_⟩⟩
  · simp [PatternsFirst, mixedFormals, Formal.isEscape, Formal.isPattern]
  · rintro id expr - f hf
    cases hf

/-- A pattern after an escape is listed before it. -/
theorem functionArgs_reorders :
    ¬ ∀ (strict : Bool) (isKeyword : JSString → Bool) (formals : List (Formal ℕ))
      (s : Arguments ℕ) (redeclared : JSString → Option ℕ),
      functionArguments strict isKeyword formals = .ok s →
        s.serialize redeclared = some (written formals) := by
  intro hclaim
  have hparse : functionArguments false (fun _ => false)
      [Formal.escape 0, .pattern 1 [js "a"]] = .ok
        ⟨[.escape 0], [(0, 1)], 1, [js "a"], false, false, false, true⟩ := rfl
  have hout := hclaim _ _ _ _ (fun _ => none) hparse
  have hrun : functionArgs (fun _ => none) false 0 [Argument.escape 0] [(0, 1)] =
      some ⟨[.pattern 1, .escape 0], [], none⟩ := by
    simp [functionArgs, Params.append]
  rw [Arguments.serialize, hrun] at hout
  exact absurd hout (by decide)

end MetaMonkey.Frontend
