import MetaMonkey.Debugger.Replies

/-!
`app.js`: the page of the visualizer, which asks the server every four seconds what has
changed. Its views show the attributes that have been set.
-/

namespace MetaMonkey.Js.Json

/-- A property of a value that has come in, `undefined` if it has none of the name. -/
def get (j : Json) (k : String) : Json :=
  match j with
  | .object properties => (properties.lookup k).getD .undefined
  | _ => .undefined

/-- `_.has` -/
def has (j : Json) (k : String) : Bool :=
  match j with
  | .object properties => (properties.lookup k).isSome
  | _ => false

end MetaMonkey.Js.Json

namespace MetaMonkey.Debugger

open ObjectGraph Js

/-- The attributes of `stageModel` that come from the server, and the roots of the models in
`astCollection`. -/
structure View where
  depth : Json
  inlines : Json
  srcCode : Json
  asts : List Json

/-- The page, with its `syncMutex`. -/
structure Page where
  status : String
  view : View
  isSyncing : Bool

namespace View

theorem one_lt : 1 < 10 := by decide

theorem one_ne : ∀ d ∈ some (⟨1, one_lt⟩ : Fin 10), d ≠ 0 := by
  rintro d ⟨⟩
  decide

theorem ones_ne : [(⟨1, one_lt⟩ : Fin 10)] ≠ [] := List.cons_ne_nil _ _

def minusOne : Json := .number (.finite true ⟨[⟨1, one_lt⟩], 1, one_ne, one_ne, ones_ne⟩)

/-- The defaults of the models. -/
def default : View := ⟨minusOne, minusOne, .string [], []⟩

/-- The parts of `onServerSyncSuccess`. -/
def setInlines (msg : Json) (v : View) : View :=
  if msg.has "inlines" then { v with inlines := msg.get "inlines" } else v

def setStage (msg : Json) (v : View) : View :=
  if msg.has "stage" then
    { v with depth := (msg.get "stage").get "depth", srcCode := (msg.get "stage").get "srcCode" }
  else v

def addAst (msg : Json) (v : View) : View :=
  if msg.has "inspectAst" then { v with asts := v.asts ++ [msg.get "inspectAst"] } else v

def told (v : View) (msg : Json) : View := ((v.setInlines msg).setStage msg).addAst msg

end View

namespace Page

def initial : Page := ⟨"Not connected yet", .default, false⟩

/-- `serverSync`, when the mutex lets it send. -/
def serverSync (p : Page) : Page := { p with status := "syncing", isSyncing := true }

def onServerSyncSuccess (msg : Json) (p : Page) : Page :=
  ⟨"synced", p.view.told msg, false⟩

def onServerSyncFail (p : Page) : Page := { p with isSyncing := false }

end Page

end MetaMonkey.Debugger
