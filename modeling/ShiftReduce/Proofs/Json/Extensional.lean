import Mathlib.Data.List.Nodup
import ShiftReduce.Proofs.Json.Printing

/-!
# Values up to the order of members

An object read as a map is known by what it has at each of its keys, in whatever order the members
stand. This is the coarsest reading of a value: what it tells is told by the value itself, and by
its text.
-/

namespace ShiftReduce.Json

/-- The same value, when objects are read as maps. -/
inductive SameValue : Tree → Tree → Prop
  | null : SameValue .null .null
  | boolean (b : Bool) : SameValue (.boolean b) (.boolean b)
  | number (digits : List Char) : SameValue (.number digits) (.number digits)
  | string (units : List Nat) : SameValue (.string units) (.string units)
  | array {elements others : List Tree} (helements : List.Forall₂ SameValue elements others) :
      SameValue (.array elements) (.array others)
  | object {members others : List (List Nat × Tree)}
      (hmembers : ∀ key, Option.Rel SameValue (members.lookup key) (others.lookup key)) :
      SameValue (.object members) (.object others)

theorem SameValue.refl (v : Tree) : SameValue v v := by
  induction v using Tree.induction with
  | null => exact .null
  | boolean b => exact .boolean b
  | number digits => exact .number digits
  | string units => exact .string units
  | array elements ih => exact .array (List.forall₂_same.mpr ih)
  | object members ih =>
    refine .object fun key => ?_
    cases hlookup : members.lookup key with
    | none => exact .none
    | some v =>
      obtain ⟨before, after, rfl, -⟩ := List.lookup_eq_some_iff.mp hlookup
      exact .some (ih (key, v) (List.mem_append_right before List.mem_cons_self))

/-- No object in the value has a key twice. -/
inductive KeysDistinct : Tree → Prop
  | null : KeysDistinct .null
  | boolean (b : Bool) : KeysDistinct (.boolean b)
  | number (digits : List Char) : KeysDistinct (.number digits)
  | string (units : List Nat) : KeysDistinct (.string units)
  | array {elements : List Tree} (helements : ∀ v ∈ elements, KeysDistinct v) :
      KeysDistinct (.array elements)
  | object {members : List (List Nat × Tree)} (hkeys : (members.map Prod.fst).Nodup)
      (hmembers : ∀ m ∈ members, KeysDistinct m.2) : KeysDistinct (.object members)

section Trees

theorem lookup_memberTrees (members : List (String × Json)) (key : String) :
    (memberTrees members).lookup (codeUnits key) = (members.lookup key).map tree := by
  induction members with
  | nil => rfl
  | cons member rest ih =>
    have hkeys : (codeUnits key == codeUnits member.1) = (key == member.1) := by
      rw [Bool.eq_iff_iff, beq_iff_eq, beq_iff_eq]
      exact codeUnits_injective.eq_iff
    rw [memberTrees, List.lookup_cons, List.lookup_cons, hkeys, ih]
    cases key == member.1 <;> rfl

theorem lookup_map_snd {α β γ : Type} [BEq α] (change : β → γ) (entries : List (α × β)) (key : α) :
    (entries.map fun (k, x) => (k, change x)).lookup key = (entries.lookup key).map change := by
  induction entries with
  | nil => rfl
  | cons entry rest ih =>
    rw [List.map_cons, List.lookup_cons, List.lookup_cons, ih]
    cases key == entry.1 <;> rfl

variable {members others : List (String × Json)} {elements : List Json}

@[simp]
theorem keysDistinct_null : KeysDistinct Json.null.tree :=
  .null

@[simp]
theorem keysDistinct_boolean (b : Bool) : KeysDistinct (Json.boolean b).tree :=
  .boolean b

@[simp]
theorem keysDistinct_number (n : Nat) : KeysDistinct (Json.number n).tree :=
  .number _

@[simp]
theorem keysDistinct_string (s : String) : KeysDistinct (Json.string s).tree :=
  .string _

@[simp]
theorem keysDistinct_optional (s : Option String) : KeysDistinct (Json.optional s).tree := by
  cases s with
  | none => exact keysDistinct_null
  | some s => exact keysDistinct_string s

theorem keysDistinct_array (helements : ∀ element ∈ elements, KeysDistinct element.tree) :
    KeysDistinct (array elements).tree := by
  rw [tree, elementTrees_eq_map]
  exact .array (List.forall_mem_map.mpr helements)

theorem keysDistinct_list {α : Type} {toJson : α → Json}
    (hitem : ∀ x, KeysDistinct (toJson x).tree) (xs : List α) :
    KeysDistinct (Json.array (xs.map toJson)).tree :=
  keysDistinct_array (List.forall_mem_map.mpr fun x _ => hitem x)

@[simp]
theorem keysDistinct_strings (values : List String) : KeysDistinct (Json.strings values).tree :=
  keysDistinct_list keysDistinct_string values

theorem keysDistinct_object (hkeys : (members.map Prod.fst).Nodup)
    (hmembers : ∀ member ∈ members, KeysDistinct member.2.tree) :
    KeysDistinct (object members).tree := by
  rw [tree, memberTrees_eq_map]
  refine .object ?_ (List.forall_mem_map.mpr hmembers)
  have hmapped := List.Nodup.map codeUnits_injective hkeys
  rwa [List.map_map] at hmapped ⊢

theorem keysDistinct_map {α : Type} {toJson : α → Json} (hitem : ∀ x, KeysDistinct (toJson x).tree)
    {entries : List (String × α)} (hkeys : (entries.map Prod.fst).Nodup) :
    KeysDistinct (Json.object (entries.map fun (key, x) => (key, toJson x))).tree := by
  refine keysDistinct_object ?_ (List.forall_mem_map.mpr fun entry _ => hitem entry.2)
  rwa [List.map_map]

/-- Members with the same key have the same value. -/
theorem SameValue.lookup
    (hsame : SameValue (Json.object members).tree (Json.object others).tree) (key : String) :
    Option.Rel (fun value other => SameValue value.tree other.tree) (members.lookup key)
      (others.lookup key) := by
  cases hsame with
  | object hmembers =>
    have hkey := hmembers (codeUnits key)
    rw [lookup_memberTrees, lookup_memberTrees] at hkey
    generalize members.lookup key = value at hkey ⊢
    generalize others.lookup key = other at hkey ⊢
    match value, other, hkey with
    | none, none, _ => exact .none
    | some _, some _, .some hvalues => exact .some hvalues

end Trees

/-! ## What encodings tell -/

section Tells

variable {α β : Type} {toJson : α → Json} {view : α → β}

/-- This view of something can be told from its encoding, however the members are ordered. -/
def Tells (toJson : α → Json) (view : α → β) : Prop :=
  ∀ ⦃x y : α⦄, SameValue (toJson x).tree (toJson y).tree → view x = view y

theorem tells_boolean : Tells boolean id := by
  intro b c hsame
  cases hsame
  rfl

theorem tells_number : Tells number id := by
  intro m n hsame
  rw [tree, tree] at hsame
  generalize hdigits : Nat.toDigits 10 n = digits at hsame
  cases hsame
  exact (toDigits_inj hdigits).symm

theorem tells_string : Tells string id := by
  intro s t hsame
  rw [tree, tree] at hsame
  generalize hunits : codeUnits t = units at hsame
  cases hsame
  exact (codeUnits_injective hunits).symm

/-- What is absent is null, and what is present is not. -/
theorem Tells.option (htells : Tells toJson id) (hnull : ∀ x, (toJson x).tree ≠ .null)
    {encode : Option α → Json} (hnone : encode none = Json.null)
    (hsome : ∀ x, encode (some x) = toJson x) : Tells encode id := by
  intro x y hsame
  cases x with
  | none =>
    cases y with
    | none => rfl
    | some y =>
      rw [hnone, hsome] at hsame
      generalize hv : (toJson y).tree = v at hsame
      cases hsame
      exact absurd hv (hnull y)
  | some x =>
    cases y with
    | none =>
      rw [hnone, hsome] at hsame
      generalize hv : (toJson x).tree = v at hsame
      cases hsame
      exact absurd hv (hnull x)
    | some y =>
      rw [hsome, hsome] at hsame
      exact congrArg some (htells hsame)

theorem tells_optional : Tells optional id :=
  tells_string.option (fun _ => nofun) rfl fun _ => rfl

/-- A map is told as what it has at each key. -/
theorem Tells.map (htells : Tells toJson id) :
    Tells (fun entries : List (String × α) =>
      Json.object (entries.map fun (key, x) => (key, toJson x))) fun entries key =>
        entries.lookup key := by
  intro entries others hsame
  funext key
  have hkey := hsame.lookup key
  rw [lookup_map_snd, lookup_map_snd] at hkey
  change entries.lookup key = others.lookup key
  generalize entries.lookup key = x at hkey ⊢
  generalize others.lookup key = y at hkey ⊢
  match x, y, hkey with
  | none, none, _ => rfl
  | some _, some _, .some hvalues => exact congrArg some (htells hvalues)

theorem Tells.array (htells : Tells toJson view) :
    Tells (fun xs => Json.array (xs.map toJson)) (List.map view) := by
  intro xs ys hsame
  simp only [tree, elementTrees_eq_map] at hsame
  cases hsame with
  | array helements =>
    simp only [List.forall₂_map_left_iff, List.forall₂_map_right_iff] at helements
    rw [← List.forall₂_eq_eq_eq, List.forall₂_map_left_iff, List.forall₂_map_right_iff]
    exact helements.imp fun _ _ hxy => htells hxy

theorem Tells.list (htells : Tells toJson id) :
    Tells (fun xs : List α => Json.array (xs.map toJson)) id := by
  intro xs ys hsame
  have hview := htells.array hsame
  rw [List.map_id, List.map_id] at hview
  exact hview

/-- What is encoded under a key can be told from the object. -/
theorem SameValue.view_eq {members others : List (String × Json)}
    (hsame : SameValue (Json.object members).tree (Json.object others).tree)
    (htells : Tells toJson view) (key : String) {x y : α}
    (hx : members.lookup key = some (toJson x)) (hy : others.lookup key = some (toJson y)) :
    view x = view y := by
  have hkey := hsame.lookup key
  rw [hx, hy] at hkey
  cases hkey with
  | some hvalues => exact htells hvalues

end Tells

end ShiftReduce.Json
