import ShiftReduce.Artifact.Json
import ShiftReduce.Proofs.Json.Extensional

/-!
# What the text of an artifact keeps

All but the production numbers can be told from an artifact's text, in either layout. Alternatives
are told apart by their tags, and the members that an action adds to those of its entry have keys of
their own. Whoever reads objects as maps loses the order of the fields and nothing else.
-/

namespace ShiftReduce

open Json

/-! ## Without production numbers -/

def Handler.unnumbered (h : Handler) : Handler :=
  { h with production := .goal }

def Thunk.unnumbered (t : Thunk) : Thunk :=
  { t with production := .goal }

/-- The artifact as far as it is written. -/
def Artifact.unnumbered (a : Artifact) : Artifact :=
  { a with
    handlers := a.handlers.map Handler.unnumbered
    thunks := a.thunks.map Thunk.unnumbered }

theorem Artifact.toJson_unnumbered (a : Artifact) : a.unnumbered.toJson = a.toJson := by
  have hhandlers : (a.handlers.map Handler.unnumbered).map Handler.toJson =
      a.handlers.map Handler.toJson := List.map_map
  have hthunks : (a.thunks.map Thunk.unnumbered).map Thunk.toJson = a.thunks.map Thunk.toJson :=
    List.map_map
  rw [toJson, toJson, unnumbered, hhandlers, hthunks]

/-! ## What encodings tell -/

theorem ParameterType.tells_toJson : Tells toJson id := by
  intro x y hsame
  cases x with
  | value type =>
    cases y with
    | value type' => exact congrArg value (hsame.view_eq tells_string "type" rfl rfl)
    | untyped | token => exact absurd (hsame.view_eq tells_string "kind" rfl rfl) (by decide)
  | untyped =>
    cases y with
    | untyped => rfl
    | value _ | token => exact absurd (hsame.view_eq tells_string "kind" rfl rfl) (by decide)
  | token =>
    cases y with
    | token => rfl
    | value _ | untyped => exact absurd (hsame.view_eq tells_string "kind" rfl rfl) (by decide)

theorem Parameter.tells_toJson : Tells toJson id := by
  intro x y hsame
  have htype := hsame.view_eq ParameterType.tells_toJson "type" rfl rfl
  have hname := hsame.view_eq tells_optional "name" rfl rfl
  exact congrArg₂ Parameter.mk htype hname

theorem Handler.tells_toJson : Tells toJson unnumbered := by
  intro x y hsame
  have hname := hsame.view_eq tells_string "name" rfl rfl
  have hreturn := hsame.view_eq tells_string "return_type" rfl rfl
  have hparameters := hsame.view_eq Parameter.tells_toJson.list "params" rfl rfl
  have hbody := hsame.view_eq tells_string "body" rfl rfl
  rw [unnumbered, unnumbered, Handler.mk.injEq]
  exact ⟨rfl, hname, hreturn, hparameters, hbody⟩

theorem ThunkArgument.tells_toJson : Tells toJson id := by
  intro x y hsame
  cases x with
  | field cell name =>
    cases y with
    | field cell' name' =>
      have hcell := hsame.view_eq tells_number "cell" rfl rfl
      have hname := hsame.view_eq tells_string "field" rfl rfl
      exact congrArg₂ field hcell hname
    | default | token _ => exact absurd (hsame.view_eq tells_string "kind" rfl rfl) (by decide)
  | default =>
    cases y with
    | default => rfl
    | field _ _ | token _ => exact absurd (hsame.view_eq tells_string "kind" rfl rfl) (by decide)
  | token cell =>
    cases y with
    | token cell' => exact congrArg token (hsame.view_eq tells_number "cell" rfl rfl)
    | field _ _ | default => exact absurd (hsame.view_eq tells_string "kind" rfl rfl) (by decide)

theorem HandlerCall.tells_toJson : Tells toJson id := by
  rintro ⟨field, handler, arguments⟩ ⟨field', handler', arguments'⟩ hsame
  have hfield := hsame.view_eq tells_string "field" rfl rfl
  have hhandler := hsame.view_eq tells_string "handler" rfl rfl
  have harguments := hsame.view_eq ThunkArgument.tells_toJson.list "args" rfl rfl
  rw [id, id, HandlerCall.mk.injEq]
  exact ⟨hfield, hhandler, harguments⟩

/-- The members of an entry's action stand among those of the entry, and are found there. -/
theorem EntryAction.eq_of_sameValue {x y : TableEntry}
    (hsame : SameValue x.toJson.tree y.toJson.tree) : x.action = y.action := by
  obtain ⟨symbol, terminal, action⟩ := x
  obtain ⟨symbol', terminal', action'⟩ := y
  cases action with
  | shift target =>
    cases action' with
    | shift target' => exact congrArg shift (hsame.view_eq tells_number "target" rfl rfl)
    | reduce _ _ _ | accept =>
      exact absurd (hsame.view_eq tells_string "action" rfl rfl) (by decide)
  | reduce nonterminal arity thunk =>
    cases action' with
    | reduce nonterminal' arity' thunk' =>
      have hnonterminal := hsame.view_eq tells_string "nonterminal" rfl rfl
      have harity := hsame.view_eq tells_number "arity" rfl rfl
      have hthunk := hsame.view_eq tells_string "thunk" rfl rfl
      rw [reduce.injEq]
      exact ⟨hnonterminal, harity, hthunk⟩
    | shift _ | accept => exact absurd (hsame.view_eq tells_string "action" rfl rfl) (by decide)
  | accept =>
    cases action' with
    | accept => rfl
    | shift _ | reduce _ _ _ =>
      exact absurd (hsame.view_eq tells_string "action" rfl rfl) (by decide)

theorem TableEntry.tells_toJson : Tells toJson id := by
  rintro ⟨symbol, terminal, action⟩ ⟨symbol', terminal', action'⟩ hsame
  have hsymbol := hsame.view_eq tells_string "symbol" rfl rfl
  have hterminal := hsame.view_eq tells_boolean "terminal" rfl rfl
  rw [id, id, TableEntry.mk.injEq]
  exact ⟨hsymbol, hterminal, EntryAction.eq_of_sameValue hsame⟩

theorem Thunk.tells_call : Tells (fun call : Option HandlerCall =>
    match call with
    | none => Json.null
    | some call => call.toJson) id :=
  HandlerCall.tells_toJson.option (fun _ => nofun) rfl fun _ => rfl

theorem Thunk.tells_toJson : Tells toJson unnumbered := by
  intro x y hsame
  have hname := hsame.view_eq tells_string "name" rfl rfl
  have hnonterminal := hsame.view_eq tells_string "nonterminal" rfl rfl
  have hparameters := hsame.view_eq tells_optional.list "params" rfl rfl
  have hcall := hsame.view_eq tells_call "call" rfl rfl
  rw [unnumbered, unnumbered, Thunk.mk.injEq]
  exact ⟨rfl, hname, hnonterminal, hparameters, hcall⟩

/-- The artifacts agree in all that is written, but perhaps for the order of their fields. -/
structure Artifact.Agrees (a b : Artifact) : Prop where
  rest : a.unnumbered = { b.unnumbered with fields := a.fields }
  fields : ∀ type, a.fields.lookup type = b.fields.lookup type

theorem Artifact.agrees_of_sameValue {a b : Artifact}
    (hsame : SameValue a.toJson.tree b.toJson.tree) : a.Agrees b := by
  have hparser := hsame.view_eq tells_string "parser_name" rfl rfl
  have hverbose := hsame.view_eq tells_boolean "verbose" rfl rfl
  have hextras := hsame.view_eq tells_string.list "header_extras" rfl rfl
  have htype := hsame.view_eq tells_string "return_type" rfl rfl
  have hfield := hsame.view_eq tells_string "return_field" rfl rfl
  have hnonterminals := hsame.view_eq tells_string.list "nonterminals" rfl rfl
  have hfields := hsame.view_eq tells_string.map "fields" rfl rfl
  have htable := hsame.view_eq TableEntry.tells_toJson.list.list "action_table" rfl rfl
  have hhandlers := hsame.view_eq Handler.tells_toJson.array "handlers" rfl rfl
  have hthunks := hsame.view_eq Thunk.tells_toJson.array "thunks" rfl rfl
  refine ⟨?_, congrFun hfields⟩
  rw [unnumbered, unnumbered, Artifact.mk.injEq]
  exact ⟨hparser, hverbose, hextras, htype, hfield, hnonterminals, rfl, htable, hhandlers, hthunks⟩

/-! ## Keys -/

theorem ParameterType.keysDistinct (t : ParameterType) : KeysDistinct t.toJson.tree := by
  cases t <;> exact keysDistinct_object (by simp) (by simp)

theorem Parameter.keysDistinct (p : Parameter) : KeysDistinct p.toJson.tree :=
  keysDistinct_object (by simp) (by simp [p.type.keysDistinct])

theorem Handler.keysDistinct (h : Handler) : KeysDistinct h.toJson.tree :=
  keysDistinct_object (by simp) (by simp [keysDistinct_list Parameter.keysDistinct])

theorem ThunkArgument.keysDistinct (t : ThunkArgument) : KeysDistinct t.toJson.tree := by
  cases t <;> exact keysDistinct_object (by simp) (by simp)

theorem HandlerCall.keysDistinct (c : HandlerCall) : KeysDistinct c.toJson.tree :=
  keysDistinct_object (by simp) (by simp [keysDistinct_list ThunkArgument.keysDistinct])

theorem Thunk.keysDistinct (t : Thunk) : KeysDistinct t.toJson.tree := by
  refine keysDistinct_object (by simp) ?_
  cases t.call with
  | none => simp [keysDistinct_list keysDistinct_optional]
  | some call => simp [keysDistinct_list keysDistinct_optional, call.keysDistinct]

/-- No action adds a member that the entry has already. -/
theorem TableEntry.keysDistinct (e : TableEntry) : KeysDistinct e.toJson.tree := by
  obtain ⟨symbol, terminal, action⟩ := e
  cases action <;>
    exact keysDistinct_object (by simp [EntryAction.members]) (by simp [EntryAction.members])

theorem Artifact.keysDistinct (a : Artifact) (hfields : (a.fields.map Prod.fst).Nodup) :
    KeysDistinct a.toJson.tree := by
  have hmap := keysDistinct_map keysDistinct_string hfields
  have htable := keysDistinct_list (keysDistinct_list TableEntry.keysDistinct) a.actionTable
  have hhandlers := keysDistinct_list Handler.keysDistinct a.handlers
  have hthunks := keysDistinct_list Thunk.keysDistinct a.thunks
  exact keysDistinct_object (by simp) (by simp [hmap, htable, hhandlers, hthunks])

/-! ## Texts -/

theorem Artifact.fields_eq_of_toJson_eq {a b : Artifact} (heq : a.toJson = b.toJson) :
    a.fields = b.fields := by
  have hmembers := congrArg (List.lookup "fields") (Json.object.inj heq)
  have hfields := Json.object.inj (Option.some.inj hmembers)
  refine List.map_injective_iff.mpr ?_ hfields
  rintro ⟨type, field⟩ ⟨type', field'⟩ hentry
  obtain ⟨htype, hfield⟩ := Prod.mk.inj hentry
  rw [htype, Json.string.inj hfield]

theorem Artifact.tree_eq_iff {a b : Artifact} :
    a.toJson.tree = b.toJson.tree ↔ a.unnumbered = b.unnumbered := by
  constructor
  · intro htree
    have hsame : SameValue a.toJson.tree b.toJson.tree := by
      rw [htree]
      exact .refl _
    rw [(agrees_of_sameValue hsame).rest, fields_eq_of_toJson_eq (tree_injective htree)]
    rfl
  · intro heq
    rw [← toJson_unnumbered a, ← toJson_unnumbered b, heq]

/-- What the texts of artifacts keep in these layouts. -/
structure TextsKeepArtifacts (layouts : List Layout) : Prop where
  /-- Each text is well-formed, and whatever the layout it says the same and nothing else. -/
  isTextOf_iff : ∀ layout ∈ layouts, ∀ (a : Artifact) (v : Json.Tree),
    IsTextOf (a.text layout).toList v ↔ v = a.toJson.tree
  keysDistinct : ∀ a : Artifact, (a.fields.map Prod.fst).Nodup → KeysDistinct a.toJson.tree
  tree_eq_iff : ∀ a b : Artifact, a.toJson.tree = b.toJson.tree ↔ a.unnumbered = b.unnumbered
  /-- Whoever reads objects as maps may lose the order of the fields. -/
  agrees : ∀ a b : Artifact, SameValue a.toJson.tree b.toJson.tree → a.Agrees b
  text_eq : ∀ layout ∈ layouts, ∀ layout' ∈ layouts, ∀ a b : Artifact,
    a.text layout = b.text layout' → a.unnumbered = b.unnumbered
  entry_eq : ∀ x y : TableEntry, SameValue x.toJson.tree y.toJson.tree → x = y
  parameterType_eq : ∀ x y : ParameterType, SameValue x.toJson.tree y.toJson.tree → x = y
  argument_eq : ∀ x y : ThunkArgument, SameValue x.toJson.tree y.toJson.tree → x = y

/-- The texts of artifacts are lossless but for the production numbers, with and without blanks. -/
theorem textsKeepArtifacts : TextsKeepArtifacts [.compact, .pretty] := by
  have hlawful : ∀ layout ∈ [Layout.compact, .pretty], layout.Lawful := by
    simp [Layout.lawful_compact, Layout.lawful_pretty]
  refine {
    isTextOf_iff := fun layout hlayout a _ => isTextOf_toText_iff (hlawful layout hlayout) a.toJson
    keysDistinct := Artifact.keysDistinct
    tree_eq_iff := fun _ _ => Artifact.tree_eq_iff
    agrees := fun _ _ => Artifact.agrees_of_sameValue
    text_eq := fun layout hlayout layout' hlayout' a b htext => ?_
    entry_eq := TableEntry.tells_toJson
    parameterType_eq := ParameterType.tells_toJson
    argument_eq := ThunkArgument.tells_toJson }
  have hjson : a.toJson = b.toJson :=
    eq_of_toText_eq (hlawful layout hlayout) (hlawful layout' hlayout') htext
  exact Artifact.tree_eq_iff.mp (congrArg Json.tree hjson)

end ShiftReduce
