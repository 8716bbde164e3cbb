import ShiftReduce.Json.Printer
import ShiftReduce.Proofs.Json.Unambiguous
import ShiftReduce.Proofs.Text.Digits

/-!
# Written values

A layout may break lines where it likes and put blanks behind its colons: what it writes is a text
of the value's tree, and of no other one. The tree in turn is that of no other value, so a value can
be told from its text, whatever the layout.
-/

namespace ShiftReduce.Json

mutual

/-- What the text of a value says. -/
def tree : Json → Tree
  | null => .null
  | boolean b => .boolean b
  | number n => .number (Nat.toDigits 10 n)
  | string s => .string (codeUnits s)
  | array elements => .array (elementTrees elements)
  | object members => .object (memberTrees members)

def elementTrees : List Json → List Tree
  | [] => []
  | element :: rest => element.tree :: elementTrees rest

def memberTrees : List (String × Json) → List (List Nat × Tree)
  | [] => []
  | (key, value) :: rest => (codeUnits key, value.tree) :: memberTrees rest

end

theorem elementTrees_eq_map (elements : List Json) : elementTrees elements = elements.map tree := by
  induction elements with
  | nil => rfl
  | cons element rest ih => rw [elementTrees, ih, List.map_cons]

theorem memberTrees_eq_map (members : List (String × Json)) :
    memberTrees members = members.map (Prod.map codeUnits tree) := by
  induction members with
  | nil => rfl
  | cons member rest ih => rw [memberTrees, ih, List.map_cons, Prod.map]

section Scalars

theorem hexDigit_hexDigit (n : Nat) : HexDigit (hexDigit n) (n % 16) := by
  have hlower : ∀ i < 16, "0123456789abcdef".toList[i]? = some (Nat.digitChar i) := by decide
  exact .inl (hlower (n % 16) (Nat.mod_lt n (by decide)))

/-- A character below the blank is written by its number. -/
theorem hexNumber_control {c : Char} (hc : c < ' ') :
    HexNumber ['0', '0', hexDigit (c.toNat / 16), hexDigit c.toNat] c.toNat := by
  have hlt : c.toNat < 32 := hc
  have hzero : HexDigit '0' 0 := .inl rfl
  have hnumber := HexNumber.mk hzero hzero (hexDigit_hexDigit (c.toNat / 16))
    (hexDigit_hexDigit c.toNat)
  have hvalue : 16 * (16 * (16 * 0 + 0) + c.toNat / 16 % 16) + c.toNat % 16 = c.toNat := by omega
  rwa [hvalue] at hnumber

theorem Spells.escapeChar_append {units : List Nat} {text : List Char} (hspells : Spells units text)
    (c : Char) : Spells (unitsOf c ++ units) (escapeChar c ++ text) := by
  unfold escapeChar
  split_ifs with hquote hbackslash hbackspace hfeed hline hreturn htab hcontrol
  · subst hquote
    exact .simple .quote hspells
  · exact hbackslash ▸ .simple .backslash hspells
  · exact hbackspace ▸ .simple .backspace hspells
  · exact hfeed ▸ .simple .formFeed hspells
  · exact hline ▸ .simple .lineFeed hspells
  · exact hreturn ▸ .simple .carriageReturn hspells
  · exact htab ▸ .simple .tab hspells
  · have hlt : c.toNat < 32 := hcontrol
    rw [unitsOf_eq_singleton (by omega)]
    exact .unicode (hexNumber_control hcontrol) hspells
  · exact .plain (Char.not_lt.mp hcontrol) hquote hbackslash hspells

theorem spells_escapeChar (cs : List Char) :
    Spells (cs.flatMap unitsOf) (cs.flatMap escapeChar) := by
  induction cs with
  | nil => exact .nil
  | cons c cs ih => exact ih.escapeChar_append c

theorem number_toDigits (n : Nat) : Number (Nat.toDigits 10 n) := by
  have hdigits : Digits (Nat.toDigits 10 n) :=
    ⟨Nat.toDigits_ne_nil, fun c hc => Nat.isDigit_of_mem_toDigits (by decide) (by decide) hc⟩
  have hzero : (Nat.toDigits 10 n).head? = some '0' → Nat.toDigits 10 n = ['0'] := by
    intro hhead
    rcases Nat.eq_zero_or_pos n with rfl | hpos
    · rfl
    · obtain ⟨first, digits, hfirst, hne⟩ := exists_toDigits_eq_cons hpos
      rw [hfirst] at hhead
      exact absurd (Option.some.inj hhead) hne
  have hnumber := Number.mk (.inl rfl) hdigits hzero .absent .absent
  rwa [List.nil_append, List.append_nil, List.append_nil] at hnumber

end Scalars

/-! ## Layouts -/

/-- Only blanks are written between the brackets, commas and colons. -/
structure Layout.Lawful (layout : Layout) : Prop where
  lineBreak : ∀ depth, Blanks (layout.lineBreak depth)
  colon : ∃ blanks, Blanks blanks ∧ layout.colon = ':' :: blanks

theorem Layout.lawful_compact : Layout.compact.Lawful where
  lineBreak _ := blanks_nil
  colon := ⟨[], blanks_nil, rfl⟩

theorem Layout.lawful_pretty : Layout.pretty.Lawful where
  lineBreak depth := by
    intro c hc
    rcases List.mem_cons.mp hc with rfl | hc
    · exact .inr (.inr (.inl rfl))
    · exact .inl (List.eq_of_mem_replicate hc)
  colon := ⟨[' '], by simp [Blanks], rfl⟩

section Brackets

variable {α : Type} {Item : α → List Char → Prop} {layout : Layout} {xs : List α}
  {parts : List (List Char)}

theorem separated_cons (separator part : List Char) (parts : List (List Char)) :
    separated separator (part :: parts) = part ++ parts.flatMap (separator ++ ·) := by
  induction parts generalizing part with
  | nil => simp [separated]
  | cons next parts ih => simp [separated, ih]

/-- The part writes the item behind any blanks. -/
def WritesBehindBlanks (Item : α → List Char → Prop) (x : α) (part : List Char) : Prop :=
  ∀ blanks, Blanks blanks → Item x (blanks ++ part)

theorem more_flatMap {inner outer : List Char} (hinner : Blanks inner) (houter : Blanks outer)
    (hparts : List.Forall₂ (WritesBehindBlanks Item) xs parts) :
    More Item xs (parts.flatMap (',' :: inner ++ ·) ++ outer) := by
  induction hparts with
  | nil => exact .nil houter
  | cons hpart _ ih =>
    have hmore := More.cons blanks_nil (hpart inner hinner) ih
    simpa using hmore

theorem Layout.Lawful.exists_listed (hlayout : layout.Lawful) (depth : Nat)
    (opening closing : Char) (hparts : List.Forall₂ (WritesBehindBlanks Item) xs parts) :
    ∃ text, Listed Item xs text ∧
      layout.bracketed depth opening closing parts = opening :: (text ++ [closing]) := by
  cases hparts with
  | nil => exact ⟨[], .nil blanks_nil, rfl⟩
  | cons hpart hparts =>
    have hinner := hlayout.lineBreak (depth + 1)
    have hmore := more_flatMap hinner (hlayout.lineBreak depth) hparts
    refine ⟨_, .cons (hpart _ hinner) hmore, ?_⟩
    simp [bracketed, separated_cons]

end Brackets

section Written

variable {layout : Layout}

mutual

theorem writes_write (hlayout : layout.Lawful) (depth : Nat) :
    ∀ value : Json, Writes value.tree (write layout depth value)
  | null => .null
  | boolean true => .true
  | boolean false => .false
  | number n => .number (number_toDigits n)
  | string s => .string (spells_escapeChar s.toList)
  | array elements => by
    obtain ⟨text, hlisted, hwritten⟩ :=
      hlayout.exists_listed depth '[' ']' (writes_writeElements hlayout (depth + 1) elements)
    rw [tree, write, hwritten]
    exact .array hlisted
  | object members => by
    obtain ⟨text, hlisted, hwritten⟩ :=
      hlayout.exists_listed depth '\x7b' '\x7d' (writes_writeMembers hlayout (depth + 1) members)
    rw [tree, write, hwritten]
    exact .object hlisted

theorem writes_writeElements (hlayout : layout.Lawful) (depth : Nat) : ∀ elements : List Json,
    List.Forall₂ (WritesBehindBlanks (Element Writes)) (elementTrees elements)
      (writeElements layout depth elements)
  | [] => .nil
  | element :: rest =>
    .cons (fun _ hblanks => .mk hblanks (writes_write hlayout depth element))
      (writes_writeElements hlayout depth rest)

theorem writes_writeMembers (hlayout : layout.Lawful) (depth : Nat) :
    ∀ members : List (String × Json),
      List.Forall₂ (WritesBehindBlanks (Member Writes)) (memberTrees members)
        (writeMembers layout depth members)
  | [] => .nil
  | (key, value) :: rest => by
    refine .cons (fun blanks hblanks => ?_) (writes_writeMembers hlayout depth rest)
    obtain ⟨between, hbetween, hcolon⟩ := hlayout.colon
    have hmember := Member.mk hblanks (spells_escapeChar key.toList) blanks_nil
      (.mk hbetween (writes_write hlayout depth value))
    simpa [writeString, hcolon, codeUnits] using hmember

end

/-- A written value is a text of its tree and of no other one. -/
theorem isTextOf_toText_iff (hlayout : layout.Lawful) (value : Json) {v : Tree} :
    IsTextOf (value.toText layout).toList v ↔ v = value.tree := by
  have htext : IsTextOf (value.toText layout).toList value.tree := by
    refine ⟨[], write layout 0 value, [], ?_, blanks_nil, writes_write hlayout 0 value, blanks_nil⟩
    rw [toText, String.toList_ofList, List.nil_append, List.append_nil]
  exact ⟨fun hv => hv.unique htext, fun heq => heq ▸ htext⟩

end Written

section Injective

theorem codeUnits_injective : Function.Injective codeUnits := by
  intro s t heq
  apply String.toList_inj.mp
  rw [codeUnits, codeUnits] at heq
  generalize s.toList = cs at heq ⊢
  generalize t.toList = ds at heq ⊢
  induction cs generalizing ds with
  | nil =>
    cases ds with
    | nil => rfl
    | cons d ds => exact absurd (List.append_eq_nil_iff.mp heq.symm).1 (unitsOf_ne_nil d)
  | cons c cs ih =>
    cases ds with
    | nil => exact absurd (List.append_eq_nil_iff.mp heq).1 (unitsOf_ne_nil c)
    | cons d ds =>
      obtain ⟨rfl, hrest⟩ := unitsOf_append_inj heq
      rw [ih ds hrest]

mutual

theorem eq_of_tree_eq : ∀ {value other : Json}, value.tree = other.tree → value = other
  | null, other, heq => by cases other <;> simp_all [tree]
  | boolean b, other, heq => by cases other <;> simp_all [tree]
  | number n, other, heq => by
    cases other with
    | number m => rw [toDigits_inj (Tree.number.inj heq)]
    | _ => cases heq
  | string s, other, heq => by
    cases other with
    | string t => rw [codeUnits_injective (Tree.string.inj heq)]
    | _ => cases heq
  | array elements, other, heq => by
    cases other with
    | array others => rw [eq_of_elementTrees_eq (Tree.array.inj heq)]
    | _ => cases heq
  | object members, other, heq => by
    cases other with
    | object others => rw [eq_of_memberTrees_eq (Tree.object.inj heq)]
    | _ => cases heq

theorem eq_of_elementTrees_eq : ∀ {elements others : List Json},
    elementTrees elements = elementTrees others → elements = others
  | [], [], _ => rfl
  | element :: rest, other :: others, heq => by
    obtain ⟨hfirst, hrest⟩ := List.cons.inj heq
    rw [eq_of_tree_eq hfirst, eq_of_elementTrees_eq hrest]

theorem eq_of_memberTrees_eq : ∀ {members others : List (String × Json)},
    memberTrees members = memberTrees others → members = others
  | [], [], _ => rfl
  | (key, value) :: rest, (key', value') :: others, heq => by
    obtain ⟨hfirst, hrest⟩ := List.cons.inj heq
    obtain ⟨hkey, hvalue⟩ := Prod.mk.inj hfirst
    rw [codeUnits_injective hkey, eq_of_tree_eq hvalue, eq_of_memberTrees_eq hrest]

end

theorem tree_injective : Function.Injective tree :=
  fun _ _ heq => eq_of_tree_eq heq

/-- Texts of one value only are the same, in whatever layouts. -/
theorem eq_of_toText_eq {layout layout' : Layout} (hlayout : layout.Lawful)
    (hlayout' : layout'.Lawful) {value other : Json}
    (heq : value.toText layout = other.toText layout') : value = other := by
  have htext := (isTextOf_toText_iff hlayout value).mpr rfl
  rw [heq, isTextOf_toText_iff hlayout'] at htext
  exact tree_injective htext

end Injective

end ShiftReduce.Json
