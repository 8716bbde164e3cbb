import Std.Data.String.ToNat
import ShiftReduce.Proofs.Grammar.Representation
import ShiftReduce.Reduction.Handler
import ShiftReduce.Reduction.Thunk

/-!
# Handlers and thunks agree

A thunk has a call exactly if there is a handler to call, and hands it at each place what the
parameter there asks for. Types keep fields of their own, so what is read from the cell of a
nonterminal is what every thunk that reduces to the nonterminal has written.
-/

namespace ShiftReduce

/-- The argument is what the parameter of that type asks of the cell: the value in the field of the
type, a default in place of a value, or the token. -/
inductive ThunkArgument.Fits (g : Grammar) (cell : Nat) : ParameterType → ThunkArgument → Prop
  | field {type field : String} (hfield : g.fields.lookup type = some field) :
      Fits g cell (.value type) (.field cell field)
  | default : Fits g cell .untyped .default
  | token : Fits g cell .token (.token cell)

/-- The call has an argument for each parameter of the handler, and the field of its return type. -/
structure HandlerCall.Serves (g : Grammar) (call : HandlerCall) (handler : Handler) : Prop where
  handler_eq : call.handler = handler.name
  field_eq : g.fields.lookup handler.returnType = some call.field
  length_eq : call.arguments.length = handler.parameters.length
  fits : ∀ (cell : Nat) (parameter : Parameter) (argument : ThunkArgument),
    handler.parameters[cell]? = some parameter → call.arguments[cell]? = some argument →
      argument.Fits g cell parameter.type

/-- The call of the thunk reads something from the cell. -/
def Thunk.Reads (thunk : Thunk) (cell : Nat) : Prop :=
  ∃ call, thunk.call = some call ∧
    ∃ argument, call.arguments[cell]? = some argument ∧ argument ≠ .default

namespace Grammar

variable (g : Grammar)

/-- The nonterminal on the left-hand side has a type. -/
def IsTyped (p : ProductionId) : Prop :=
  (g.nonterminal (g.production p).left).resultType.isSome = true

/-- Handler and thunk of a production go together, whatever the handler is called. -/
structure Agrees (p : ProductionId) (name : String) : Prop where
  isSome_handler_iff : (g.handler? p name).isSome = true ↔ g.IsTyped p
  isSome_call_iff : (g.thunk p name).call.isSome = true ↔ g.IsTyped p
  length_handler_parameters : ∀ handler, g.handler? p name = some handler →
    handler.parameters.length = (g.production p).right.size
  length_thunk_parameters : (g.thunk p name).parameters.length = (g.production p).right.size
  serves : ∀ handler call, g.handler? p name = some handler → (g.thunk p name).call = some call →
    call.Serves g handler
  /-- A parameter of the thunk is named after its cell if the cell is read. -/
  named : ∀ cell, (g.thunk p name).Reads cell →
    (g.thunk p name).parameters[cell]? = some (some ("a" ++ cell.repr))
  /-- Otherwise it has no name. -/
  unnamed : ∀ cell < (g.production p).right.size, ¬ (g.thunk p name).Reads cell →
    (g.thunk p name).parameters[cell]? = some none

/-- The types that were declared last for some name have a field each, and different types have
different fields. -/
structure KeepsFieldsApart (declarations : List Declaration) : Prop where
  mem_types_iff : ∀ type, type ∈ g.fields.map Prod.fst ↔
    ∃ name, Declarations.type? declarations name = some type
  nodup_types : (g.fields.map Prod.fst).Nodup
  nodup_fields : (g.fields.map Prod.snd).Nodup

/-- Every type of a nonterminal has a field. -/
def CoversTypes : Prop :=
  ∀ n type, (g.nonterminal n).resultType = some type → ∃ field, g.fields.lookup type = some field

variable {g}

section Fields

variable (hg : g.CoversTypes)

include hg

theorem isSome_field?_iff {n : NonterminalId} :
    (g.field? n).isSome = true ↔ (g.nonterminal n).resultType.isSome = true := by
  cases htype : (g.nonterminal n).resultType with
  | none => simp [field?, htype]
  | some type =>
    obtain ⟨field, hfield⟩ := hg n type htype
    simp [field?, htype, hfield]

theorem fits_thunkArgument (cell : Nat) (x : Symbol) :
    (g.thunkArgument cell x).Fits g cell (g.parameterType x) := by
  cases x with
  | terminal t => exact .token
  | nonterminal n =>
    cases htype : (g.nonterminal n).resultType with
    | none =>
      simp only [parameterType, thunkArgument, field?, htype]
      exact .default
    | some type =>
      obtain ⟨field, hfield⟩ := hg n type htype
      simp only [parameterType, thunkArgument, field?, htype, Option.bind_some, hfield]
      exact .field hfield

theorem thunkArgument_ne_default_iff {cell : Nat} {x : Symbol} :
    g.thunkArgument cell x ≠ .default ↔ g.carriesValue x = true := by
  cases x with
  | terminal t => simp [thunkArgument, carriesValue]
  | nonterminal n =>
    rw [carriesValue, ← isSome_field?_iff hg, thunkArgument]
    cases g.field? n <;> simp

variable {p : ProductionId} {name : String}

theorem isSome_call_iff : (g.thunk p name).call.isSome = true ↔ g.IsTyped p := by
  rw [thunk, Option.isSome_map]
  exact isSome_field?_iff hg

theorem reads_iff {cell : Nat} : (g.thunk p name).Reads cell ↔
    g.IsTyped p ∧ ∃ x, (g.production p).right[cell]? = some x ∧ g.carriesValue x = true := by
  have hcall : (g.thunk p name).call.isSome = true ↔ g.IsTyped p := isSome_call_iff hg
  rw [← hcall, Option.isSome_iff_exists]
  constructor
  · rintro ⟨call, hcall, argument, hargument, hread⟩
    refine ⟨⟨call, hcall⟩, ?_⟩
    obtain ⟨field, -, rfl⟩ := Option.map_eq_some_iff.mp hcall
    rw [List.getElem?_mapIdx, Array.getElem?_toList, Option.map_eq_some_iff] at hargument
    obtain ⟨x, hx, rfl⟩ := hargument
    exact ⟨x, hx, (thunkArgument_ne_default_iff hg).mp hread⟩
  · rintro ⟨⟨call, hcall⟩, x, hx, hvalue⟩
    refine ⟨call, hcall, g.thunkArgument cell x, ?_, (thunkArgument_ne_default_iff hg).mpr hvalue⟩
    obtain ⟨field, -, rfl⟩ := Option.map_eq_some_iff.mp hcall
    rw [List.getElem?_mapIdx, Array.getElem?_toList, hx, Option.map_some]

theorem serves {handler : Handler} {call : HandlerCall}
    (hhandler : g.handler? p name = some handler) (hcall : (g.thunk p name).call = some call) :
    call.Serves g handler := by
  obtain ⟨type, htype, rfl⟩ := Option.map_eq_some_iff.mp hhandler
  obtain ⟨field, hfield, rfl⟩ := Option.map_eq_some_iff.mp hcall
  exact {
    handler_eq := rfl
    field_eq := by rwa [field?, htype, Option.bind_some] at hfield
    length_eq := by simp
    fits cell parameter argument hparameter hargument := by
      rw [List.getElem?_mapIdx, Option.map_eq_some_iff] at hparameter hargument
      obtain ⟨x, hx, rfl⟩ := hparameter
      obtain ⟨y, hy, rfl⟩ := hargument
      obtain rfl : x = y := Option.some.inj (hx.symm.trans hy)
      exact fits_thunkArgument hg cell x }

theorem agrees (p : ProductionId) (name : String) : g.Agrees p name := by
  have hparameters (cell : Nat) : (g.thunk p name).parameters[cell]? =
      (g.production p).right[cell]?.map fun x =>
        if (g.nonterminal (g.production p).left).resultType.isSome && g.carriesValue x then
          some ("a" ++ cell.repr) else none := by
    rw [thunk, List.getElem?_mapIdx, Array.getElem?_toList]
    rfl
  exact {
    isSome_handler_iff := by rw [handler?, Option.isSome_map, IsTyped]
    isSome_call_iff := isSome_call_iff hg
    length_handler_parameters handler hhandler := by
      obtain ⟨type, -, rfl⟩ := Option.map_eq_some_iff.mp hhandler
      simp
    length_thunk_parameters := by simp [thunk]
    serves handler call hhandler hcall := serves hg hhandler hcall
    named cell hreads := by
      obtain ⟨htyped, x, hx, hvalue⟩ := (reads_iff hg).mp hreads
      rw [hparameters, hx, Option.map_some, htyped, hvalue]
      rfl
    unnamed cell hcell hreads := by
      have hx := Array.getElem?_eq_getElem hcell
      have hnone : ((g.nonterminal (g.production p).left).resultType.isSome &&
          g.carriesValue (g.production p).right[cell]) ≠ true := by
        rw [Ne, Bool.and_eq_true]
        exact fun hboth => hreads ((reads_iff hg).mpr ⟨hboth.1, _, hx, hboth.2⟩)
      rw [hparameters, hx, Option.map_some, if_neg hnone] }

end Fields

end Grammar

namespace Draft

variable (d : Draft)

theorem map_fst_fields : d.fields.map Prod.fst = distinct d.resultTypes.values.toList := by
  rw [fields, List.map_map]
  exact List.zipIdx_map_fst 0 _

theorem map_snd_fields : d.fields.map Prod.snd =
    (List.range' 0 (distinct d.resultTypes.values.toList).length).map
      fun i => "field" ++ i.repr := by
  rw [fields, List.map_map, ← List.zipIdx_map_snd, List.map_map]
  rfl

theorem nodup_map_snd_fields : (d.fields.map Prod.snd).Nodup := by
  rw [map_snd_fields]
  refine List.Nodup.map (fun i j heq => ?_) List.nodup_range'
  exact Nat.repr_injective ((String.append_right_inj _).mp heq)

theorem mem_map_fst_fields_iff {type : String} :
    type ∈ d.fields.map Prod.fst ↔ ∃ name, d.resultTypes.get? name = some type := by
  rw [map_fst_fields, mem_distinct, ← OrderedMap.map_snd_toList, List.mem_map]
  simp only [OrderedMap.get?_eq_some_iff]
  constructor
  · rintro ⟨⟨name, _⟩, hentry, rfl⟩
    exact ⟨name, hentry⟩
  · rintro ⟨name, hentry⟩
    exact ⟨_, hentry, rfl⟩

namespace Supports

variable {d : Draft} {g : Grammar} {v : Vocabulary} {start startType : String} {blocks : List Block}
  (h : d.Supports start startType v blocks g) (htype : d.resultTypes.get? start = some startType)

include h htype

/-- The type of any nonterminal was declared for some name: that of the goal for the start
symbol. -/
theorem exists_declared_type {n : NonterminalId} {type : String}
    (hn : (g.nonterminal n).resultType = some type) :
    ∃ name, d.resultTypes.get? name = some type := by
  by_cases hgoal : n = .goal
  · have hgoalType : (g.nonterminal n).resultType = some startType := by
      rw [hgoal, h.eq_assemble]
      rfl
    exact ⟨start, by rw [htype, ← hgoalType, hn]⟩
  · have hmem : n ∈ g.nonterminalIds := by
      by_contra hnot
      rw [Grammar.mem_nonterminalIds, Nat.not_lt] at hnot
      rw [Grammar.nonterminal, Array.getD_eq_getD_getElem?, Array.getElem?_eq_none hnot] at hn
      cases hn
    exact ⟨_, (h.resultType_eq hmem hgoal).symm.trans hn⟩

end Supports

end Draft

/-- Handlers and thunks agree, and types keep their fields apart. -/
structure ThunksAgree (declarations : List Declaration) (g : Grammar) : Prop where
  agrees : ∀ p ∈ g.productionIds, ∀ name, g.Agrees p name
  keepsFieldsApart : g.KeepsFieldsApart declarations
  /-- A field that is read from the cell of a nonterminal was written by the thunk that made the
  cell, whichever of the thunks that reduce to the nonterminal it was. -/
  written : ∀ reader ∈ g.productionIds, ∀ name call, (g.thunk reader name).call = some call →
    ∀ (place cell : Nat) (field : String), call.arguments[place]? = some (.field cell field) →
      ∃ n, (g.production reader).right[cell]? = some (.nonterminal n) ∧
        ∀ writer ∈ g.productionIds, (g.production writer).left = n → ∀ name, ∃ call,
          (g.thunk writer name).call = some call ∧ call.field = field

theorem Grammar.exists_written {g : Grammar} {reader : ProductionId} {name : String}
    {call : HandlerCall} (hcall : (g.thunk reader name).call = some call) {place cell : Nat}
    {field : String} (hread : call.arguments[place]? = some (.field cell field)) :
    ∃ n, (g.production reader).right[cell]? = some (.nonterminal n) ∧
      ∀ writer, (g.production writer).left = n → ∀ name, ∃ call,
        (g.thunk writer name).call = some call ∧ call.field = field := by
  obtain ⟨_, -, rfl⟩ := Option.map_eq_some_iff.mp hcall
  rw [List.getElem?_mapIdx, Array.getElem?_toList, Option.map_eq_some_iff] at hread
  obtain ⟨x, hx, hargument⟩ := hread
  cases x with
  | terminal t => cases hargument
  | nonterminal n =>
    cases hfield : g.field? n with
    | none => simp [thunkArgument, hfield] at hargument
    | some field' =>
      obtain ⟨rfl, rfl⟩ : place = cell ∧ field' = field := by
        simpa [thunkArgument, hfield] using hargument
      refine ⟨n, hx, fun writer hleft name => ?_⟩
      rw [thunk, hleft, hfield]
      exact ⟨_, rfl, rfl⟩

theorem thunksAgree {declarations : List Declaration} {g : Grammar}
    (hg : Grammar.ofDeclarations declarations = .ok g) : ThunksAgree declarations g := by
  obtain ⟨d, hd, hbuild⟩ := exists_of_bind_eq_ok hg
  obtain ⟨start, startType, v, blocks, -, hrules, htype, hv, hblocks, heq⟩ :=
    Draft.exists_of_build hbuild
  have h := Draft.supports (Draft.keepsGoalFree_of_declareAll hd) hrules hv hblocks heq
  have hfields : g.fields = d.fields := by rw [heq]; rfl
  have hnodup : (g.fields.map Prod.fst).Nodup := by
    rw [hfields, Draft.map_fst_fields]
    exact nodup_distinct _
  have hcovers : g.CoversTypes := by
    intro n type hn
    have hmem : type ∈ g.fields.map Prod.fst := by
      rw [hfields, Draft.mem_map_fst_fields_iff]
      exact h.exists_declared_type htype hn
    obtain ⟨⟨_, field⟩, hentry, rfl⟩ := List.mem_map.mp hmem
    exact ⟨field, (lookup_eq_some_iff_mem hnodup).mpr hentry⟩
  exact {
    agrees p _ name := Grammar.agrees hcovers p name
    keepsFieldsApart := {
      mem_types_iff type := by
        rw [hfields, Draft.mem_map_fst_fields_iff]
        simp only [(Draft.lists_of_declareAll hd).type_eq]
      nodup_types := hnodup
      nodup_fields := by
        rw [hfields]
        exact d.nodup_map_snd_fields }
    written reader _ name call hcall place cell field hread := by
      obtain ⟨n, hn, hwriters⟩ := Grammar.exists_written hcall hread
      exact ⟨n, hn, fun writer _ => hwriters writer⟩ }

/-- `E` and `T` have types of their own, `Sep` has none, and `U` has a type but is not declared. -/
def typedSumDeclarations : List Declaration :=
  [.rule "E" ["E", "+", "T"] "$$ = $1;", .rule "E" ["(", "Sep", "E", ")"] "", .rule "Sep" [";"] "",
    .rule "T" ["id"] "", .resultType "U" "bool", .resultType "E" "int", .resultType "T" "long",
    .start "E"]

def typedSum : Grammar :=
  (Grammar.ofDeclarations typedSumDeclarations).toOption.getD default

theorem typedSum_thunksAgree :
    Grammar.ofDeclarations typedSumDeclarations = .ok typedSum ∧
      ThunksAgree typedSumDeclarations typedSum ∧
      typedSum.fields = [("bool", "field0"), ("int", "field1"), ("long", "field2")] ∧
      ((typedSum.thunk ⟨2⟩ "h").call.map HandlerCall.arguments =
        some [.token 0, .default, .field 2 "field1", .token 3]) := by
  have hg : Grammar.ofDeclarations typedSumDeclarations = .ok typedSum :=
    eq_ok_getD_of_isOk (by decide +kernel)
  exact ⟨hg, thunksAgree hg, by decide +kernel, by decide +kernel⟩

end ShiftReduce
