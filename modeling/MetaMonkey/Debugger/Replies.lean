import MetaMonkey.Debugger.Server
import MetaMonkey.Staging.Session

/-!
What the pages read of the replies. A reply is put together from pieces, with or without
commas; the parser has the data of it in any case.
-/

namespace MetaMonkey.Debugger

open ObjectGraph Js
open Js.Json (ComesBack MembersComeBack Readable str)
open Js.JSONParser (Member Blank quote objectText)

variable {engine : JSONParser.Engine}

/-- The body is JSON in UTF-8, and this data is what the parser makes of it in any heap. -/
def Tells (engine : JSONParser.Engine) (body : Body) (data : Json) : Prop :=
  ∃ text, inflateUTF8String body = some text ∧
    ∀ h, ∃ h' v, JSONParser.parse engine text h = some (h', v) ∧ h.Extends h' ∧
      Json.Stored h' data v

theorem tells_of_text {text : JSString} {data : Json} (hformed : toWellFormed text = text)
    (ht : ComesBack engine text data) : Tells engine (utf8 text) data := by
  refine ⟨text, by rw [inflateUTF8String_utf8, hformed], fun h => ?_⟩
  obtain ⟨h', v, hdenotes, hextends, hstored⟩ := ht h
  exact ⟨h', v, (JSONParser.denotes_iff_parse engine).mp hdenotes, hextends, hstored⟩

/-- A body tells no more than one thing. -/
theorem Tells.unique {body : Body} {data data' : Json} (h : Tells engine body data)
    (h' : Tells engine body data') : data = data' := by
  obtain ⟨text, htext, hparse⟩ := h
  obtain ⟨text', htext', hparse'⟩ := h'
  rw [htext] at htext'
  cases htext'
  obtain ⟨h₁, v, hv, -, hstored⟩ := hparse Heap.empty
  obtain ⟨h₂, v', hv', -, hstored'⟩ := hparse' Heap.empty
  rw [hv] at hv'
  cases hv'
  exact hstored.unique hstored'

/-! ### The pieces -/

def Ascii (s : JSString) : Prop := ∀ c ∈ s, c < 128

instance (s : JSString) : Decidable (Ascii s) :=
  decidable_of_iff (s.all fun c => decide (c < 128)) (by simp [Ascii])

theorem Ascii.append {s t : JSString} (hs : Ascii s) (ht : Ascii t) : Ascii (s ++ t) := by
  intro c hc
  exact (List.mem_append.mp hc).elim (hs c) (ht c)

theorem ascii_natToString (n : ℕ) : Ascii (natToString n) := by
  intro c hc
  exact UInt16.lt_of_le_of_lt (natToString_digits hc).2 (by decide)

theorem ascii_strEscape (s : JSString) : Ascii (strEscape s) := by
  intro c hc
  have hall : Ascii escapeChars := by decide +kernel
  exact hall c (mem_escapeChars hc)

/-- No character of an escaped string is one that is quoted. -/
theorem quote_strEscape (s : JSString) : quote (strEscape s) = 34 :: (strEscape s ++ [34]) := by
  have hall : (escapeChars.all fun c => decide (jsonUnit c = [c])) = true := by decide +kernel
  have hunits : (strEscape s).flatMap jsonUnit = strEscape s := by
    rw [List.flatMap_congr fun c hc =>
      of_decide_eq_true (List.all_eq_true.mp hall c (mem_escapeChars hc)), List.flatMap_singleton']
  rw [quote, hunits]

theorem escapedChars_eq (s : JSString) :
    RemoteStagedDbg.escapedChars s = (strEscape s).map UInt16.toUInt8 := by
  have hall : (escapeChars.all fun c => decide (c.toUInt8 ≠ 0)) = true := by decide +kernel
  rw [RemoteStagedDbg.escapedChars, encodeString, List.takeWhile_eq_self_iff]
  intro b hb
  obtain ⟨c, hc, rfl⟩ := List.mem_map.mp hb
  exact List.all_eq_true.mp hall c (mem_escapeChars hc)

/-- What `%u` has printed. -/
def unsigned (engine : JSONParser.Engine) (n : ℕ) : Json :=
  .number (engine.toDouble (natToString n))

theorem comesBack_strEscape (s : JSString) :
    ComesBack engine (34 :: (strEscape s ++ [34])) (.string (strEscape s)) := by
  rw [← quote_strEscape]
  exact fun h => ⟨h, Js.string (strEscape s), JSONParser.denotes_quote _ h, Heap.Extends.refl h,
    rfl⟩

/-- The engine knows the names in the replies. -/
def KnowsNames (engine : JSONParser.Engine) : Prop :=
  ∀ k ∈ ["msg", "inlines", "stage", "depth", "srcCode", "inspectAst"], engine.atomToId (js k) = k

theorem comesBack_msg {text : JSString} {e : Json} (hnames : KnowsNames engine)
    (he : ComesBack engine text e) :
    ComesBack engine (js "\x7b \"msg\": " ++ text ++ js " \x7d") (.object [("msg", e)]) := by
  have hmember := MembersComeBack.part (show Blank [32] by decide) (show Blank [32] by decide)
    (hnames "msg" (by decide)) he MembersComeBack.nil
  have hobject := ComesBack.object hmember (by simp)
  have htext : objectText [⟨[32], js "msg", [32] ++ text ++ [32]⟩] =
      js "\x7b \"msg\": " ++ text ++ js " \x7d" := by
    simp only [objectText, Member.toText, List.flatMap_nil, List.cons_append, List.nil_append,
      List.append_assoc]
    rfl
  rwa [htext] at hobject

/-! ### The next stage -/

/-- The data of a reply of `nextStage` for a stage. -/
def stageData (engine : JSONParser.Engine) (depth : ℕ) (srcCode : JSString) (inlines : ℕ) : Json :=
  .object [("msg", .object [("depth", unsigned engine depth),
    ("srcCode", .string (strEscape srcCode)),
    ("inlines", unsigned engine inlines)])]

/-- The text of such a reply. -/
def stageText (depth : ℕ) (srcCode : JSString) (inlines : ℕ) : JSString :=
  js "\x7b \"msg\": \x7b \"depth\": " ++ natToString depth ++ js ", \"srcCode\": \"" ++
    strEscape srcCode ++ js "\", \"inlines\": " ++ natToString inlines ++ js " \x7d \x7d"

theorem respHasNextStage_eq (depth : ℕ) (srcCode : JSString) (inlines : ℕ) :
    RemoteStagedDbg.respHasNextStage depth (RemoteStagedDbg.escapedChars srcCode) inlines =
      utf8 (stageText depth srcCode inlines) ∧
      toWellFormed (stageText depth srcCode inlines) = stageText depth srcCode inlines := by
  have hascii : Ascii (stageText depth srcCode inlines) := by
    refine .append (.append (.append (.append (.append (.append ?_ (ascii_natToString _)) ?_)
      (ascii_strEscape _)) ?_) (ascii_natToString _)) ?_ <;> decide
  refine ⟨?_, toWellFormed_ascii hascii⟩
  rw [utf8_ascii hascii, RemoteStagedDbg.respHasNextStage, escapedChars_eq, stageText]
  simp only [List.map_append]
  rfl

theorem comesBack_stageText (hnames : KnowsNames engine) (depth : ℕ) (srcCode : JSString)
    (inlines : ℕ) :
    ComesBack engine (stageText depth srcCode inlines)
      (stageData engine depth srcCode inlines) := by
  have hinner := ComesBack.object
    (MembersComeBack.part (show Blank [32] by decide) (show Blank [] by decide)
      (hnames "depth" (by decide)) (Json.comesBack_natToString depth)
    (MembersComeBack.part (show Blank [32] by decide) (show Blank [] by decide)
      (hnames "srcCode" (by decide)) (comesBack_strEscape srcCode)
    (MembersComeBack.part (show Blank [32] by decide) (show Blank [32] by decide)
      (hnames "inlines" (by decide)) (Json.comesBack_natToString inlines)
      MembersComeBack.nil))) (by simp)
  have hmsg := comesBack_msg hnames hinner
  simp only [objectText, Member.toText, List.flatMap_cons, List.flatMap_nil, List.cons_append,
    List.nil_append, List.append_assoc] at hmsg
  have htext : stageText depth srcCode inlines = js "\x7b \"msg\": " ++
      (123 :: 32 :: (quote (js "depth") ++ 58 :: 32 :: (natToString depth ++
        44 :: 32 :: (quote (js "srcCode") ++ 58 :: 32 :: 34 :: (strEscape srcCode ++
          34 :: 44 :: 32 :: (quote (js "inlines") ++ 58 :: 32 :: (natToString inlines ++
            32 :: 125 :: js " \x7d"))))))) := by
    simp only [stageText, List.append_assoc]
    rfl
  rw [htext]
  exact hmsg

/-! ### The changes -/

/-- The properties of `msg` in a reply of `syncDbgInfo`. -/
def syncProperties (engine : JSONParser.Engine) (s : RemoteStagedDbg) (inspectAst : Option Json) :
    List (String × Json) :=
  (if s.inlineHasChange then [("inlines", unsigned engine s.remainingInlines)] else []) ++
    ((if s.stageHasChange then
        [("stage", .object [("depth", unsigned engine s.stage.depth),
          ("srcCode", .string (strEscape s.stage.code))])]
      else []) ++
    (inspectAst.map fun j => ("inspectAst", j)).toList)

def syncData (engine : JSONParser.Engine) (s : RemoteStagedDbg) (inspectAst : Option Json) : Json :=
  .object [("msg", .object (syncProperties engine s inspectAst))]

/-- The text of the stage in a reply of `syncDbgInfo`. -/
def syncStageText (s : RemoteStagedDbg) : JSString :=
  js "\x7b \"depth\": " ++ natToString s.stage.depth ++ js ", \"srcCode\": \"" ++
    strEscape s.stage.code ++ js "\" \x7d"

/-- What is before the text of the inspected AST in the reply. -/
def syncBefore (s : RemoteStagedDbg) (inspectAst : Bool) : JSString :=
  js "\x7b \"msg\": \x7b " ++
    (if s.inlineHasChange then js " \"inlines\": " ++ natToString s.remainingInlines else []) ++
    (if s.stageHasChange then
        js " " ++ (if s.inlineHasChange then js "," else []) ++ js " \"stage\": " ++ syncStageText s
      else []) ++
    (if inspectAst then
        js " " ++ (if s.inlineHasChange || s.stageHasChange then js "," else []) ++
          js " \"inspectAst\": "
      else [])

theorem ascii_syncBefore (s : RemoteStagedDbg) (inspectAst : Bool) :
    Ascii (syncBefore s inspectAst) := by
  have hstage : Ascii (syncStageText s) :=
    .append (.append (.append (.append (by decide) (ascii_natToString _))
      (by decide)) (ascii_strEscape _)) (by decide)
  have hif : ∀ (b : Bool) {t : JSString}, Ascii t → Ascii (if b then t else []) := by
    intro b t ht
    cases b with
    | true => exact ht
    | false => exact nofun
  have hcomma : Ascii (js ",") := by decide
  refine .append (.append (.append ?_ (hif _ (.append ?_ (ascii_natToString _))))
    (hif _ (.append (.append (.append ?_ (hif _ hcomma)) ?_) hstage)))
    (hif _ (.append (.append ?_ (hif _ hcomma)) ?_)) <;> decide

/-- The text of the inspected AST stands between two texts of ASCII. -/
theorem syncText_eq (s : RemoteStagedDbg) :
    s.syncText = (syncBefore s s.inspectedAst.isSome).map UInt16.toUInt8 ++
      s.inspectedAst.getD [] ++ chars " \x7d \x7d" := by
  rw [RemoteStagedDbg.syncText, RemoteStagedDbg.syncInspectedAst, RemoteStagedDbg.syncStage,
    RemoteStagedDbg.syncInlines, escapedChars_eq]
  have hbrace : js " \"stage\": \x7b \"depth\": " = js " \"stage\": " ++ js "\x7b \"depth\": " :=
    rfl
  cases s.inspectedAst <;> cases hstage : s.stageHasChange <;>
    cases hinline : s.inlineHasChange <;>
    simp [syncBefore, hstage, hinline, hbrace, syncStageText, chars, unsignedChars]

theorem comesBack_syncStageText (hnames : KnowsNames engine) (s : RemoteStagedDbg) :
    ComesBack engine (syncStageText s) (.object [("depth", unsigned engine s.stage.depth),
      ("srcCode", .string (strEscape s.stage.code))]) := by
  have hobject := ComesBack.object
    (MembersComeBack.part (show Blank [32] by decide) (show Blank [] by decide)
      (hnames "depth" (by decide)) (Json.comesBack_natToString s.stage.depth)
    (MembersComeBack.part (show Blank [32] by decide) (show Blank [32] by decide)
      (hnames "srcCode" (by decide)) (comesBack_strEscape s.stage.code)
      MembersComeBack.nil)) (by simp)
  simp only [objectText, Member.toText, List.flatMap_cons, List.flatMap_nil, List.cons_append,
    List.nil_append, List.append_assoc] at hobject
  have htext : syncStageText s =
      123 :: 32 :: (quote (js "depth") ++ 58 :: 32 :: (natToString s.stage.depth ++
        44 :: 32 :: (quote (js "srcCode") ++ 58 :: 32 :: 34 :: (strEscape s.stage.code ++
          [34, 32, 125])))) := by
    simp only [syncStageText, List.append_assoc]
    rfl
  rw [htext]
  exact hobject

/-- The blanks before a property, by whether another one is before it. -/
def blanksAfter (before : Bool) : JSString := if before then [32] else [32, 32, 32]

theorem blank_blanksAfter (before : Bool) : Blank (blanksAfter before) := by
  cases before <;> decide

/-- The properties of `msg` with the blanks around them. -/
def syncMembers (s : RemoteStagedDbg) (inspectAst : Option JSString) : List Member :=
  (if s.inlineHasChange then
      [⟨[32, 32], js "inlines", [32] ++ natToString s.remainingInlines ++ [32]⟩]
    else []) ++
    ((if s.stageHasChange then
        [⟨blanksAfter s.inlineHasChange, js "stage", [32] ++ syncStageText s ++ [32]⟩]
      else []) ++
    (inspectAst.map fun text => ⟨blanksAfter (s.inlineHasChange || s.stageHasChange),
      js "inspectAst", [32] ++ text ++ [32]⟩).toList)

/-- The text of `msg`. -/
def msgText (members : List Member) : JSString :=
  if members.isEmpty then [123, 32, 32, 125] else objectText members

theorem syncBefore_text (s : RemoteStagedDbg) (inspectAst : Option JSString) :
    syncBefore s inspectAst.isSome ++ inspectAst.getD [] ++ js " \x7d \x7d" =
      js "\x7b \"msg\": " ++ msgText (syncMembers s inspectAst) ++ js " \x7d" := by
  cases inspectAst <;> cases hstage : s.stageHasChange <;> cases hinline : s.inlineHasChange <;>
    simp only [syncBefore, hstage, hinline, msgText, syncMembers, objectText, Member.toText,
      blanksAfter, Option.isSome_some, Option.isSome_none, Option.map_some, Option.map_none,
      Option.toList_some, Option.toList_none, Option.getD_some, Option.getD_none, if_true,
      Bool.false_eq_true, if_false, Bool.or_true, Bool.or_false, List.isEmpty_cons,
      List.isEmpty_nil, List.flatMap_cons, List.flatMap_nil, List.cons_append, List.nil_append,
      List.append_nil, List.append_assoc] <;>
    rfl

theorem membersComeBack_sync (hnames : KnowsNames engine) (s : RemoteStagedDbg)
    {inspectAst : Option (JSString × Json)}
    (hast : ∀ a ∈ inspectAst, ComesBack engine a.1 a.2) :
    MembersComeBack engine (syncMembers s (inspectAst.map Prod.fst))
      (syncProperties engine s (inspectAst.map Prod.snd)) := by
  refine .optional (fun _ => .part (by decide) (by decide) (hnames "inlines" (by decide))
    (Json.comesBack_natToString _)) (.optional (fun _ => .part (blank_blanksAfter _) (by decide)
      (hnames "stage" (by decide)) (comesBack_syncStageText hnames s)) ?_)
  cases inspectAst with
  | none => exact .nil
  | some a =>
      exact .part (blank_blanksAfter _) (by decide) (hnames "inspectAst" (by decide))
        (hast a rfl) .nil

theorem comesBack_msgText {ms : List Member} {ps : List (String × Json)}
    (hms : MembersComeBack engine ms ps) (hnodup : (ps.map Prod.fst).Nodup) :
    ComesBack engine (msgText ms) (.object ps) := by
  rw [msgText]
  split_ifs with hempty
  · obtain rfl := List.isEmpty_iff.mp hempty
    intro h
    obtain ⟨h', properties, hdenotes, -, hstored⟩ := hms h
    cases hdenotes
    obtain rfl : ps = [] := List.map_eq_nil_iff.mp (Json.storedProperties_names hstored).symm
    exact ⟨_, _, JSONParser.denotes_emptyObject (show Blank [32, 32] by decide) h,
      Heap.extends_alloc h _, h.next, [], List.nodup_nil, rfl, Heap.alloc_cell_self _ _, rfl⟩
  · exact .object hms hnodup

/-- The text of an AST that the page has inspected: what `JSON.stringify` makes of it, without
a lone surrogate. -/
structure Sent (engine : JSONParser.Engine) (j : Json) : Prop where
  readable : Readable engine j
  present : j.isFiltered = false
  formed : toWellFormed (str j) = str j

/-- JSON that has been sent is kept as a C string. -/
theorem Sent.stored {ast : Json} (hsent : Sent engine ast) :
    encodeString (inflateString (utf8 (str ast))) = utf8 (str ast) := by
  obtain ⟨h, v, hdenotes, -, -⟩ := Json.comesBack hsent.readable hsent.present Heap.empty
  have hparse := (JSONParser.denotes_iff_parse engine).mp hdenotes
  have hzero : 0 ∉ utf8 (str ast) := by
    intro hmem
    have hmem' := zero_mem_utf8 hmem
    rw [hsent.formed] at hmem'
    rw [JSONParser.parse_eq_none engine hmem'] at hparse
    cases hparse
  have hbytes : (inflateString (utf8 (str ast))).map UInt16.toUInt8 = utf8 (str ast) := by
    rw [inflateString, List.map_map]
    exact (List.map_congr_left fun b _ => UInt8.toUInt8_toUInt16 b).trans (List.map_id _)
  rw [encodeString, hbytes, List.takeWhile_eq_self_iff]
  intro b hb
  exact decide_eq_true fun heq => hzero (heq ▸ hb)

/-- The empty program, sent to an engine that reads no numbers. -/
theorem sent_emptyProgram : Sent Staging.wordEngine Staging.emptyProgram where
  readable := ⟨by decide, by decide +kernel, trivial, by decide +kernel, trivial, trivial⟩
  present := rfl
  formed := by decide +kernel

theorem knowsNames_wordEngine : KnowsNames Staging.wordEngine := by
  rw [KnowsNames]
  decide +kernel

theorem syncProperties_nodup (s : RemoteStagedDbg) (inspectAst : Option Json) :
    ((syncProperties engine s inspectAst).map Prod.fst).Nodup := by
  rw [syncProperties]
  cases s.inlineHasChange <;> cases s.stageHasChange <;> cases inspectAst <;> simp

/-- A reply of `syncDbgInfo` tells just what has changed, with a comma only between two
properties. -/
theorem tells_syncText (hnames : KnowsNames engine) (s : RemoteStagedDbg) {inspectAst : Option Json}
    (hast : s.inspectedAst = inspectAst.map fun j => utf8 (str j))
    (hsent : ∀ j ∈ inspectAst, Sent engine j) :
    Tells engine s.syncText (syncData engine s (inspectAst.map Json.kept)) := by
  have hascii := ascii_syncBefore s inspectAst.isSome
  have hascii' : Ascii (js " \x7d \x7d") := by decide
  have hbody : s.syncText =
      utf8 (syncBefore s inspectAst.isSome ++ (inspectAst.map str).getD [] ++ js " \x7d \x7d") := by
    rw [syncText_eq, utf8_between hascii _ hascii', hast]
    cases inspectAst <;> rfl
  have hformed : toWellFormed ((inspectAst.map str).getD []) = (inspectAst.map str).getD [] := by
    cases inspectAst with
    | none => rfl
    | some j => exact (hsent j rfl).formed
  have hparts : ∀ a ∈ inspectAst.map fun j => (str j, j.kept), ComesBack engine a.1 a.2 := by
    intro a ha
    obtain ⟨j, hj, rfl⟩ := Option.map_eq_some_iff.mp ha
    exact Json.comesBack (hsent j hj).readable (hsent j hj).present
  have hms := membersComeBack_sync hnames s hparts
  rw [Option.map_map, Option.map_map] at hms
  have hmsg := comesBack_msg hnames (comesBack_msgText hms (syncProperties_nodup s _))
  have htext := syncBefore_text s (inspectAst.map str)
  rw [Option.isSome_map] at htext
  rw [hbody]
  refine tells_of_text ?_ (htext ▸ hmsg)
  rw [toWellFormed_between hascii _ hascii', hformed]

end MetaMonkey.Debugger
