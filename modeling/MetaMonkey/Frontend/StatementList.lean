import MetaMonkey.Frontend.TokenStream

/-!
`Parser::statements` and `Parser::parse`. The productions below a statement are a machine that
reads tokens, goes back, calls `statements` and ends with a node or with a report. There are two
places at which an error does not end the parse: `statements` is left early where the last token
of a failed statement is `>.`, and the null of a failed statement behind `.&` is put in a node.
-/

namespace MetaMonkey.Frontend

/-- A step of a production, with what follows it. -/
inductive Action (τ ν κ γ : Type) where
  | node (pn : ν)
  /-- A report of an error. The callers test for null, and return it. -/
  | fail
  | getToken (next : Option τ → κ)
  | tell (next : ℕ → κ)
  | seek (cursor : ℕ) (next : κ)
  /-- The context `pc` is looked at and changed. -/
  | context (next : γ → γ × κ)
  /-- `TOK_META_EXEC` in `primaryExpr`: the result of `statement(true)` is not tested. -/
  | metaExec (next : Option ν → κ)
  /-- A call of `statements`. It gives no list where the body became strict, after which
  `functionDef` goes back; any other null is returned. -/
  | statements (next : Option (List ν) → κ)

/-- What `maybeParseDirective` does; `canHaveDirectives` is its second argument then. -/
inductive Directive (γ : Type) where
  | goesOn (pc : γ) (canHaveDirectives : Bool)
  | becameStrict
  | fail

structure Productions (τ ν κ γ : Type) where
  kind : τ → TokenKind
  action : κ → Action τ ν κ γ
  statement : Bool → κ
  globalpc : γ
  atBodyLevel : γ → Bool
  maybeParseDirective : γ → ν → Directive γ

structure Place (γ : Type) where
  cursor : ℕ
  pc : γ
  deriving DecidableEq

structure ParserState (γ : Type) extends Place γ where
  errors : ℕ
  deriving DecidableEq

/-- A statement with its tokens, from `begin` up to `stop`. -/
structure Ranged (ν : Type) where
  pn : ν
  begin : ℕ
  stop : ℕ
  deriving DecidableEq

/-- How `statements` ends: a list, no list because the body became strict, or null. -/
inductive StatementList (ν : Type) where
  | list (pn : List (Ranged ν))
  | becameStrict
  | null
  deriving DecidableEq

namespace StatementList

variable {ν : Type}

def cons (next : Ranged ν) : StatementList ν → StatementList ν
  | list pn => list (next :: pn)
  | becameStrict => becameStrict
  | null => null

end StatementList

section

variable {τ ν κ γ : Type} (P : Productions τ ν κ γ) (tokens : List τ)

def kindAt (i : ℕ) : TokenKind := (tokens[i]?.map P.kind).getD .eof

def ParserState.report (s : ParserState γ) : ParserState γ := { s with errors := s.errors + 1 }

def ParserState.goto (s : ParserState γ) (cursor : ℕ) : ParserState γ :=
  { s with cursor := cursor }

def ParserState.enter (s : ParserState γ) (pc : γ) : ParserState γ := { s with pc := pc }

def currentKind (s : ParserState γ) : TokenKind :=
  if s.cursor = 0 then .eof else kindAt P tokens (s.cursor - 1)

def directive (canHaveDirectives : Bool) (pc : γ) (next : ν) : Directive γ :=
  if canHaveDirectives then P.maybeParseDirective pc next else .goesOn pc false

mutual

/-- A production from one of its steps on; `none` where the fuel does not suffice. A node, or
null after a report. -/
def runProduction : ℕ → κ → ParserState γ → Option (Option ν × ParserState γ)
  | 0, _, _ => none
  | fuel + 1, k, s =>
      match P.action k with
      | .node pn => some (some pn, s)
      | .fail => some (none, s.report)
      | .getToken next => runProduction fuel (next tokens[s.cursor]?) (s.goto (s.cursor + 1))
      | .tell next => runProduction fuel (next s.cursor) s
      | .seek cursor next => runProduction fuel next (s.goto cursor)
      | .context next => runProduction fuel (next s.pc).2 (s.enter (next s.pc).1)
      | .metaExec next =>
          match runProduction fuel (P.statement true) s with
          | none => none
          | some (pn, s) => runProduction fuel (next pn) s
      | .statements next =>
          match statementLoop fuel (P.atBodyLevel s.pc) s with
          | none => none
          | some (.null, s) => some (none, s)
          | some (.becameStrict, s) => runProduction fuel (next none) s
          | some (.list pn, s) => runProduction fuel (next (some (pn.map Ranged.pn))) s

/-- The loop of `statements` -/
def statementLoop : ℕ → Bool → ParserState γ → Option (StatementList ν × ParserState γ)
  | 0, _, _ => none
  | fuel + 1, canHaveDirectives, s =>
      let tt := kindAt P tokens s.cursor
      -- the scanner has reported the error
      if tt = .error then some (.null, s.report)
      else if tt = .eof ∨ tt = .rc then some (.list [], s)
      else
        match runProduction fuel (P.statement canHaveDirectives) s with
        | none => none
        | some (none, s') =>
            if currentKind P tokens s' = .metaRq then some (.list [], s') else some (.null, s')
        | some (some next, s') =>
            match directive P canHaveDirectives s'.pc next with
            | .fail => some (.null, s'.report)
            | .becameStrict => some (.becameStrict, s')
            | .goesOn pc canHaveDirectives =>
                (statementLoop fuel canHaveDirectives (s'.enter pc)).map fun (pn, s'') =>
                  (pn.cons ⟨next, s.cursor, s'.cursor⟩, s'')

end

def parseScript (fuel : ℕ) : Option (Option (List (Ranged ν)) × ParserState γ) :=
  match statementLoop P tokens fuel (P.atBodyLevel P.globalpc) ⟨⟨0, P.globalpc⟩, 0⟩ with
  | none => none
  | some (.list pn, s) =>
      if kindAt P tokens s.cursor = .eof then some (some pn, s.goto (s.cursor + 1))
      else some (none, s.report)
  | some (_, s) => some (none, s)

/-! ### The grammar -/

mutual

/-- What a production reads as a node if nothing fails. -/
inductive Reads : κ → Place γ → ν → Place γ → Prop
  | node {k : κ} {pn : ν} {s : Place γ} (h : P.action k = .node pn) : Reads k s pn s
  | getToken {k : κ} {next : Option τ → κ} {pn : ν} {s s' : Place γ}
      (h : P.action k = .getToken next)
      (hnext : Reads (next tokens[s.cursor]?) ⟨s.cursor + 1, s.pc⟩ pn s') : Reads k s pn s'
  | tell {k : κ} {next : ℕ → κ} {pn : ν} {s s' : Place γ} (h : P.action k = .tell next)
      (hnext : Reads (next s.cursor) s pn s') : Reads k s pn s'
  | seek {k : κ} {cursor : ℕ} {next : κ} {pn : ν} {s s' : Place γ}
      (h : P.action k = .seek cursor next) (hnext : Reads next ⟨cursor, s.pc⟩ pn s') :
      Reads k s pn s'
  | context {k : κ} {next : γ → γ × κ} {pn : ν} {s s' : Place γ}
      (h : P.action k = .context next)
      (hnext : Reads (next s.pc).2 ⟨s.cursor, (next s.pc).1⟩ pn s') : Reads k s pn s'
  | metaExec {k : κ} {next : Option ν → κ} {stmt pn : ν} {s s₁ s' : Place γ}
      (h : P.action k = .metaExec next) (hstmt : Reads (P.statement true) s stmt s₁)
      (hnext : Reads (next (some stmt)) s₁ pn s') : Reads k s pn s'
  | statements {k : κ} {next : Option (List ν) → κ} {list : Option (List (Ranged ν))} {pn : ν}
      {s s₁ s' : Place γ} (h : P.action k = .statements next)
      (hlist : ReadsList (P.atBodyLevel s.pc) s list s₁)
      (hnext : Reads (next (list.map (List.map Ranged.pn))) s₁ pn s') : Reads k s pn s'

/-- Statements up to a `}` or the end of the file, or up to a directive by which the body
becomes strict. -/
inductive ReadsList : Bool → Place γ → Option (List (Ranged ν)) → Place γ → Prop
  | stop {canHaveDirectives : Bool} {s : Place γ}
      (h : kindAt P tokens s.cursor = .eof ∨ kindAt P tokens s.cursor = .rc) :
      ReadsList canHaveDirectives s (some []) s
  | strict {canHaveDirectives : Bool} {next : ν} {s s' : Place γ}
      (hgo : kindAt P tokens s.cursor ∉ [.error, .eof, .rc])
      (hnext : Reads (P.statement canHaveDirectives) s next s')
      (hdirective : directive P canHaveDirectives s'.pc next = .becameStrict) :
      ReadsList canHaveDirectives s none s'
  | cons {canHaveDirectives canHaveMore : Bool} {next : ν} {list : Option (List (Ranged ν))}
      {pc : γ} {s s₁ s' : Place γ} (hgo : kindAt P tokens s.cursor ∉ [.error, .eof, .rc])
      (hnext : Reads (P.statement canHaveDirectives) s next s₁)
      (hdirective : directive P canHaveDirectives s₁.pc next = .goesOn pc canHaveMore)
      (hlist : ReadsList canHaveMore ⟨s₁.cursor, pc⟩ list s') :
      ReadsList canHaveDirectives s (list.map (⟨next, s.cursor, s₁.cursor⟩ :: ·)) s'

end

/-- The tokens are a list of statements of the grammar. -/
def IsProgram (list : List (Ranged ν)) : Prop :=
  ∃ s, ReadsList P tokens (P.atBodyLevel P.globalpc) ⟨0, P.globalpc⟩ (some list) s ∧
    kindAt P tokens s.cursor = .eof

/-- Every token before the end of the file is in one of the statements. -/
def Covers (list : List (Ranged ν)) : Prop :=
  ∀ i, (∀ j ≤ i, kindAt P tokens j ≠ .eof) → ∃ x ∈ list, x.begin ≤ i ∧ i < x.stop

end

/-! ### Runs without a report -/

section

variable {τ ν κ γ : Type} {P : Productions τ ν κ γ} {tokens : List τ}

/-- How a call ends: null comes after a report, and what comes without a report has been read
by the grammar. -/
structure EndsAs {α : Type} (null : Prop) (reads : α → Place γ → Prop) (r : Option α)
    (s s' : ParserState γ) : Prop where
  errors : s.errors ≤ s'.errors
  reported : null → s.errors < s'.errors
  reads : s'.errors = s.errors → ∀ a ∈ r, reads a s'.toPlace

section

variable {α : Type} {null null' : Prop} {reads reads' : α → Place γ → Prop} {r : Option α}
  {s s₁ s' : ParserState γ}

theorem EndsAs.value {a : α} (hnull : ¬ null) (h : reads a s.toPlace) :
    EndsAs null reads (some a) s s :=
  ⟨le_rfl, fun h => absurd h hnull, fun _ _ ha => Option.mem_some.mp ha ▸ h⟩

theorem EndsAs.report (h : s.errors ≤ s'.errors) : EndsAs null reads r s s'.report :=
  ⟨Nat.le_succ_of_le h, fun _ => Nat.lt_succ_of_le h,
    fun hsame => absurd hsame (Nat.ne_of_gt (Nat.lt_succ_of_le h))⟩

/-- A call that ends with what another one ends with, after some steps. -/
theorem EndsAs.after (h : EndsAs null reads r s₁ s') (hle : s.errors ≤ s₁.errors)
    (himp : s₁.errors = s.errors → ∀ a, reads a s'.toPlace → reads' a s'.toPlace) :
    EndsAs null reads' r s s' := by
  have hle' := h.errors
  refine ⟨Nat.le_trans hle hle', fun hnull => Nat.lt_of_le_of_lt hle (h.reported hnull),
    fun hsame a ha => ?_⟩
  have hfirst : s₁.errors = s.errors := by omega
  exact himp hfirst a (h.reads (hsame.trans hfirst.symm) a ha)

theorem EndsAs.of_reported (h : s.errors < s'.errors) : EndsAs null reads r s s' :=
  ⟨Nat.le_of_lt h, fun _ => h, fun hsame => absurd hsame (Nat.ne_of_gt h)⟩

end

namespace StatementList

def toOption : StatementList ν → Option (Option (List (Ranged ν)))
  | list pn => some (some pn)
  | becameStrict => some none
  | null => none

theorem toOption_cons (next : Ranged ν) (list : StatementList ν) :
    (list.cons next).toOption = list.toOption.map (Option.map (next :: ·)) := by
  cases list <;> rfl

theorem cons_eq_null {next : Ranged ν} {list : StatementList ν} (h : list.cons next = null) :
    list = null := by
  cases list with
  | null => rfl
  | list pn => cases h
  | becameStrict => cases h

end StatementList

section

variable {fuel : ℕ} {k : κ} {s s' : ParserState γ}

/-- What is known of the runs with less fuel. -/
structure RunsEnd (P : Productions τ ν κ γ) (tokens : List τ) (fuel : ℕ) : Prop where
  production : ∀ k s r s', runProduction P tokens fuel k s = some (r, s') →
    EndsAs (r = none) (Reads P tokens k s.toPlace) r s s'
  loop : ∀ b s r s', statementLoop P tokens fuel b s = some (r, s') →
    EndsAs (r = .null) (ReadsList P tokens b s.toPlace) r.toOption s s'

theorem RunsEnd.succ_production (ih : RunsEnd P tokens fuel) {r : Option ν}
    (h : runProduction P tokens (fuel + 1) k s = some (r, s')) :
    EndsAs (r = none) (Reads P tokens k s.toPlace) r s s' := by
  rw [runProduction] at h
  cases haction : P.action k with
  | node pn =>
      rw [haction] at h
      cases h
      exact .value (Option.some_ne_none pn) (.node haction)
  | fail =>
      rw [haction] at h
      cases h
      exact .report le_rfl
  | getToken next =>
      rw [haction] at h
      exact (ih.production _ _ _ _ h).after le_rfl fun _ _ => .getToken haction
  | tell next =>
      rw [haction] at h
      exact (ih.production _ _ _ _ h).after le_rfl fun _ _ => .tell haction
  | seek cursor next =>
      rw [haction] at h
      exact (ih.production _ _ _ _ h).after le_rfl fun _ _ => .seek haction
  | context next =>
      rw [haction] at h
      exact (ih.production _ _ _ _ h).after le_rfl fun _ _ => .context haction
  | metaExec next =>
      rw [haction] at h
      dsimp only at h
      cases hrun : runProduction P tokens fuel (P.statement true) s with
      | none =>
          rw [hrun] at h
          cases h
      | some p =>
          obtain ⟨stmt, s₁⟩ := p
          rw [hrun] at h
          have hstmt := ih.production _ _ _ _ hrun
          refine (ih.production _ _ _ _ h).after hstmt.errors fun hsame pn hread => ?_
          cases stmt with
          | none => exact absurd hsame (Nat.ne_of_gt (hstmt.reported rfl))
          | some stmt => exact .metaExec haction (hstmt.reads hsame stmt rfl) hread
  | statements next =>
      rw [haction] at h
      dsimp only at h
      cases hrun : statementLoop P tokens fuel (P.atBodyLevel s.pc) s with
      | none =>
          rw [hrun] at h
          cases h
      | some p =>
          obtain ⟨list, s₁⟩ := p
          rw [hrun] at h
          have hlist := ih.loop _ _ _ _ hrun
          cases list with
          | null =>
              cases h
              exact .of_reported (hlist.reported rfl)
          | becameStrict =>
              exact (ih.production _ _ _ _ h).after hlist.errors fun hsame _ =>
                .statements haction (hlist.reads hsame none rfl)
          | list pn =>
              exact (ih.production _ _ _ _ h).after hlist.errors fun hsame _ =>
                .statements haction (hlist.reads hsame (some pn) rfl)

theorem RunsEnd.succ_loop (ih : RunsEnd P tokens fuel) {b : Bool} {r : StatementList ν}
    (h : statementLoop P tokens (fuel + 1) b s = some (r, s')) :
    EndsAs (r = .null) (ReadsList P tokens b s.toPlace) r.toOption s s' := by
  rw [statementLoop] at h
  dsimp only at h
  split_ifs at h with herror hend
  · cases h
    exact .report le_rfl
  · cases h
    exact .value (by simp) (.stop hend)
  have hgo : kindAt P tokens s.cursor ∉ [TokenKind.error, .eof, .rc] := by
    simp only [List.mem_cons, List.not_mem_nil, or_false, not_or]
    exact ⟨herror, not_or.mp hend⟩
  cases hrun : runProduction P tokens fuel (P.statement b) s with
  | none =>
      rw [hrun] at h
      cases h
  | some p =>
      obtain ⟨next, s₁⟩ := p
      rw [hrun] at h
      have hnext := ih.production _ _ _ _ hrun
      cases next with
      | none =>
          -- the error of the statement has been reported, whether the loop is left or not
          have hreported := hnext.reported rfl
          dsimp only at h
          split_ifs at h
          · cases h
            exact .of_reported hreported
          · cases h
            exact .of_reported hreported
      | some next =>
          dsimp only at h
          cases hdirective : directive P b s₁.pc next with
          | fail =>
              rw [hdirective] at h
              cases h
              exact .report hnext.errors
          | becameStrict =>
              rw [hdirective] at h
              cases h
              refine ⟨hnext.errors, by simp, fun hsame a ha => ?_⟩
              cases ha
              exact .strict hgo (hnext.reads hsame next rfl) hdirective
          | goesOn pc more =>
              rw [hdirective] at h
              obtain ⟨⟨list, s₂⟩, hloop, heq⟩ := Option.map_eq_some_iff.mp h
              cases heq
              have hlist := ih.loop _ _ _ _ hloop
              have hle : s.errors ≤ s₁.errors := hnext.errors
              have hle' : s₁.errors ≤ s₂.errors := hlist.errors
              refine ⟨Nat.le_trans hle hle', fun hnull => ?_, fun hsame a ha => ?_⟩
              · exact Nat.lt_of_le_of_lt hle (hlist.reported (StatementList.cons_eq_null hnull))
              · rw [StatementList.toOption_cons] at ha
                obtain ⟨l, hl, rfl⟩ := Option.map_eq_some_iff.mp ha
                have hfirst : s₁.errors = s.errors :=
                  Nat.le_antisymm (hsame ▸ hle') hle
                exact .cons hgo (hnext.reads hfirst next rfl) hdirective
                  (hlist.reads (hsame.trans hfirst.symm) l hl)

theorem runsEnd (P : Productions τ ν κ γ) (tokens : List τ) (fuel : ℕ) :
    RunsEnd P tokens fuel := by
  induction fuel with
  | zero =>
      constructor
      · intro k s r s' h
        cases h
      · intro b s r s' h
        cases h
  | succ fuel ih => exact ⟨fun _ _ _ _ => ih.succ_production, fun _ _ _ _ => ih.succ_loop⟩

/-! ### What the grammar reads is read -/

/-- What is known of the runs with less fuel: they read what the grammar reads, and report
nothing. -/
structure Follows (P : Productions τ ν κ γ) (tokens : List τ) (fuel : ℕ) : Prop where
  production : ∀ k s r s', runProduction P tokens fuel k s = some (r, s') → ∀ pn p,
    Reads P tokens k s.toPlace pn p → r = some pn ∧ s' = ⟨p, s.errors⟩
  loop : ∀ b s r s', statementLoop P tokens fuel b s = some (r, s') → ∀ list p,
    ReadsList P tokens b s.toPlace list p → r.toOption = some list ∧ s' = ⟨p, s.errors⟩

theorem Follows.succ_production (ih : Follows P tokens fuel) {r : Option ν} {pn : ν}
    {p : Place γ} (h : runProduction P tokens (fuel + 1) k s = some (r, s'))
    (hreads : Reads P tokens k s.toPlace pn p) : r = some pn ∧ s' = ⟨p, s.errors⟩ := by
  rw [runProduction] at h
  cases hreads with
  | node haction =>
      rw [haction] at h
      cases h
      exact ⟨rfl, rfl⟩
  | getToken haction hnext =>
      rw [haction] at h
      exact ih.production _ _ _ _ h _ _ hnext
  | tell haction hnext =>
      rw [haction] at h
      exact ih.production _ _ _ _ h _ _ hnext
  | seek haction hnext =>
      rw [haction] at h
      exact ih.production _ _ _ _ h _ _ hnext
  | context haction hnext =>
      rw [haction] at h
      exact ih.production _ _ _ _ h _ _ hnext
  | metaExec haction hstmt hnext =>
      rw [haction] at h
      dsimp only at h
      cases hrun : runProduction P tokens fuel (P.statement true) s with
      | none =>
          rw [hrun] at h
          cases h
      | some q =>
          obtain ⟨stmt, s₁⟩ := q
          rw [hrun] at h
          obtain ⟨rfl, rfl⟩ := ih.production _ _ _ _ hrun _ _ hstmt
          exact ih.production _ _ _ _ h _ _ hnext
  | @statements k next list pn s₀ s₁ s₂ haction hlist hnext =>
      rw [haction] at h
      dsimp only at h
      cases hrun : statementLoop P tokens fuel (P.atBodyLevel s.pc) s with
      | none =>
          rw [hrun] at h
          cases h
      | some q =>
          obtain ⟨result, s₁'⟩ := q
          rw [hrun] at h
          obtain ⟨hresult, rfl⟩ := ih.loop _ _ _ _ hrun _ _ hlist
          cases result with
          | null => cases hresult
          | becameStrict =>
              cases hresult
              exact ih.production _ _ _ _ h _ _ hnext
          | list pn =>
              cases hresult
              exact ih.production _ _ _ _ h _ _ hnext

/-- The loop comes through a statement of the grammar to its directive. -/
theorem Follows.next (ih : Follows P tokens fuel) {b : Bool} {r : StatementList ν} {next : ν}
    {p : Place γ} (hgo : kindAt P tokens s.cursor ∉ [TokenKind.error, .eof, .rc])
    (hnext : Reads P tokens (P.statement b) s.toPlace next p)
    (h : statementLoop P tokens (fuel + 1) b s = some (r, s')) :
    (directive P b p.pc next = .becameStrict → r = .becameStrict ∧ s' = ⟨p, s.errors⟩) ∧
      ∀ pc more, directive P b p.pc next = .goesOn pc more →
        ∃ list, statementLoop P tokens fuel more ⟨⟨p.cursor, pc⟩, s.errors⟩ = some (list, s') ∧
          r = list.cons ⟨next, s.cursor, p.cursor⟩ := by
  simp only [List.mem_cons, List.not_mem_nil, or_false, not_or] at hgo
  rw [statementLoop] at h
  dsimp only at h
  rw [if_neg hgo.1, if_neg (not_or.mpr hgo.2)] at h
  cases hrun : runProduction P tokens fuel (P.statement b) s with
  | none =>
      rw [hrun] at h
      cases h
  | some q =>
      obtain ⟨pn, s₁⟩ := q
      rw [hrun] at h
      obtain ⟨rfl, rfl⟩ := ih.production _ _ _ _ hrun _ _ hnext
      dsimp only at h
      constructor
      · intro hdirective
        rw [hdirective] at h
        cases h
        exact ⟨rfl, rfl⟩
      · intro pc more hdirective
        rw [hdirective] at h
        obtain ⟨⟨list, s₂⟩, hloop, heq⟩ := Option.map_eq_some_iff.mp h
        cases heq
        exact ⟨list, hloop, rfl⟩

theorem Follows.succ_loop (ih : Follows P tokens fuel) {b : Bool} {r : StatementList ν}
    {list : Option (List (Ranged ν))} {p : Place γ}
    (h : statementLoop P tokens (fuel + 1) b s = some (r, s'))
    (hreads : ReadsList P tokens b s.toPlace list p) :
    r.toOption = some list ∧ s' = ⟨p, s.errors⟩ := by
  cases hreads with
  | stop hend =>
      have herror : kindAt P tokens s.cursor ≠ .error := by
        rcases hend with hend | hend <;> simp [hend]
      rw [statementLoop] at h
      dsimp only at h
      rw [if_neg herror, if_pos hend] at h
      cases h
      exact ⟨rfl, rfl⟩
  | strict hgo hnext hdirective =>
      obtain ⟨rfl, rfl⟩ := (ih.next hgo hnext h).1 hdirective
      exact ⟨rfl, rfl⟩
  | cons hgo hnext hdirective hlist =>
      obtain ⟨list, hloop, rfl⟩ := (ih.next hgo hnext h).2 _ _ hdirective
      obtain ⟨hlist, rfl⟩ := ih.loop _ _ _ _ hloop _ _ hlist
      exact ⟨by rw [StatementList.toOption_cons, hlist]; rfl, rfl⟩

theorem follows (P : Productions τ ν κ γ) (tokens : List τ) (fuel : ℕ) :
    Follows P tokens fuel := by
  induction fuel with
  | zero =>
      constructor
      · intro k s r s' h
        cases h
      · intro b s r s' h
        cases h
  | succ fuel ih =>
      exact ⟨fun _ _ _ _ h _ _ => ih.succ_production h, fun _ _ _ _ h _ _ => ih.succ_loop h⟩

end

/-! ### The tokens of the statements -/

inductive Consecutive : ℕ → ℕ → List (Ranged ν) → Prop
  | nil (n : ℕ) : Consecutive n n []
  | cons {pn : ν} {begin stop n : ℕ} {list : List (Ranged ν)} (h : Consecutive stop n list) :
      Consecutive begin n (⟨pn, begin, stop⟩ :: list)

theorem Consecutive.covers {begin n i : ℕ} {list : List (Ranged ν)}
    (h : Consecutive begin n list) (hbegin : begin ≤ i) (hi : i < n) :
    ∃ x ∈ list, x.begin ≤ i ∧ i < x.stop := by
  induction h with
  | nil => omega
  | @cons pn begin stop n list _ ih =>
      by_cases hstop : i < stop
      · exact ⟨_, List.mem_cons_self, hbegin, hstop⟩
      · obtain ⟨x, hx, hrange⟩ := ih (by omega) hi
        exact ⟨x, List.mem_cons_of_mem _ hx, hrange⟩

theorem ReadsList.consecutive {b : Bool} {list : List (Ranged ν)} {r : Option (List (Ranged ν))}
    {s s' : Place γ} (h : ReadsList P tokens b s r s') (hr : r = some list) :
    Consecutive s.cursor s'.cursor list := by
  induction list generalizing b r s with
  | nil =>
      cases h with
      | stop => exact .nil _
      | strict => cases hr
      | cons hgo hnext hdirective hlist =>
          obtain ⟨list', -, heq⟩ := Option.map_eq_some_iff.mp hr
          cases heq
  | cons x list ih =>
      cases h with
      | stop => cases hr
      | strict => cases hr
      | cons hgo hnext hdirective hlist =>
          obtain ⟨list', hlist', heq⟩ := Option.map_eq_some_iff.mp hr
          cases heq
          have hrest := ih hlist hlist'
          exact .cons hrest

end

/-! ### Names with semicolons -/

inductive NameStatement where
  | start
  | exec
  | semicolon
  | done
  | failed

/-- The productions for a name as a statement, with its semicolon, and for `.&` before a
statement. -/
def nameStatements : Productions TokenKind Unit NameStatement Unit where
  kind t := t
  action
    | .start => .getToken fun t =>
        if t = some .name then .semicolon else if t = some .metaExec then .exec else .failed
    | .exec => .metaExec fun _ => .semicolon
    | .semicolon => .getToken fun t => if t = some .semi then .done else .failed
    | .done => .node ()
    | .failed => .fail
  statement _ := .start
  globalpc := ()
  atBodyLevel _ := true
  maybeParseDirective _ _ := .goesOn () false

end MetaMonkey.Frontend
