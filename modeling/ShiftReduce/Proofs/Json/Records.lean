import Mathlib.Data.List.Nodup
import ShiftReduce.Collection.Entries
import ShiftReduce.Proofs.Json.Members

/-!
# Reading records

A record is read from an object by filling a slot for each of its fields, and from an array by
reading its fields in order until the array ends. Both take the texts of the trees that mean a
record, and only those.
-/

namespace ShiftReduce.Json

variable {α β σ : Type}

/-! ## Fields in order -/

/-- The fields hold what the trees give from left to right, and no tree is left. -/
def HoldsInOrder (a : α) : List (RecordField α) → List Tree → Prop
  | [], vs => vs = []
  | f :: fields, vs => f.Holds a vs.head? ∧ HoldsInOrder a fields vs.tail

theorem holdsInOrder_iff {a : α} {fields : List (RecordField α)} {vs : List Tree}
    (hnodup : (fields.map (·.name)).Nodup) :
    HoldsInOrder a fields vs ↔ vs.length ≤ (fields.map (·.name)).length ∧
      ∀ f ∈ fields, f.Holds a (((fields.map (·.name)).zip vs).lookup f.name) := by
  induction fields generalizing vs with
  | nil => simp [HoldsInOrder]
  | cons f fields ih =>
    rw [List.map_cons, List.nodup_cons] at hnodup
    rw [HoldsInOrder, ih hnodup.2, List.forall_mem_cons]
    cases vs with
    | nil => simp
    | cons v vs =>
      have hothers : ∀ g ∈ fields, g.name ≠ f.name := by
        rintro g hg hname
        exact hnodup.1 (List.mem_map.mpr ⟨g, hg, hname⟩)
      have hlookup : ∀ g ∈ fields, ((f.name, v) :: (fields.map (·.name)).zip vs).lookup g.name =
          ((fields.map (·.name)).zip vs).lookup g.name := by
        intro g hg
        rw [lookup_cons_eq_ite, if_neg (hothers g hg)]
      simp only [List.head?_cons, List.tail_cons, List.map_cons, List.zip_cons_cons,
        List.lookup_cons_self, List.length_cons, Nat.add_le_add_iff_right]
      refine and_left_comm.trans (and_congr_right fun _ => and_congr_right fun _ =>
        forall₂_congr fun g hg => ?_)
      rw [hlookup g hg]

namespace Reader

variable {text rest : List Char}

/-- What is left of a sequence up to its end, its first element being next or not. -/
def Remains : Bool → List Tree → List Char → Prop
  | true => Listed (Element Writes)
  | false => More (Element Writes)

/-- A reader of the elements that are left of a sequence, up to blanks before its end. -/
structure ReadsRest (first : Bool) (reader : Reader α) (P : List Tree → α → Prop) : Prop where
  sound : ∀ {text a blanks rest}, reader.read text = .ok (a, blanks ++ ']' :: rest) →
    Blanks blanks → ∃ vs remaining, text = remaining ++ ']' :: rest ∧ Remains first vs remaining ∧
      P vs a
  complete : ∀ {vs remaining a} (rest), Remains first vs remaining → P vs a →
    ∃ blanks, Blanks blanks ∧
      reader.read (remaining ++ ']' :: rest) = .ok (a, blanks ++ ']' :: rest)

theorem ReadsRest.congr {first : Bool} {reader : Reader α} {P Q : List Tree → α → Prop}
    (hreads : ReadsRest first reader P) (hiff : ∀ vs a, P vs a ↔ Q vs a) :
    ReadsRest first reader Q := by
  obtain rfl : P = Q := funext fun vs => funext fun a => propext (hiff vs a)
  exact hreads

theorem readsRest_pure (a : α) :
    ReadsRest false (Pure.pure a) (fun vs a' => vs = [] ∧ a' = a) where
  sound {text a' blanks rest} hread hblanks := by
    cases hread
    exact ⟨[], blanks, rfl, .nil hblanks, rfl, rfl⟩
  complete := by
    rintro _ remaining _ rest hremains ⟨rfl, rfl⟩
    cases hremains with
    | nil hblanks => exact ⟨remaining, hblanks, rfl⟩

theorem remains_nil (first : Bool) {blanks : List Char} (hblanks : Blanks blanks) :
    Remains first [] blanks :=
  match first with
  | true => .nil hblanks
  | false => .nil hblanks

/-- A sequence that ends at once has no element left. -/
theorem More.eq_nil_of_closing {vs : List Tree} {remaining tail : List Char}
    (hmore : More (Element Writes) vs remaining)
    (hclose : remaining ++ ']' :: rest = ']' :: tail) : vs = [] ∧ remaining = [] ∧ rest = tail := by
  cases hmore with
  | nil hblanks =>
    obtain rfl := hblanks.eq_nil_of_append_eq_cons rfl hclose
    exact ⟨rfl, rfl, (List.cons.inj hclose).2⟩
  | cons hblanks _ _ =>
    rw [List.append_assoc] at hclose
    obtain rfl := hblanks.eq_nil_of_append_eq_cons rfl hclose
    cases hclose

theorem exists_of_read_hasElement {first more : Bool}
    (hread : (hasElement first).read text = .ok (more, rest)) :
    (more = false ∧ ∃ blanks tail, Blanks blanks ∧ text = blanks ++ rest ∧ rest = ']' :: tail) ∨
    (more = true ∧ ∃ front, text = front ++ rest ∧
      ∀ {v element vs remaining}, Element Writes v element → More (Element Writes) vs remaining →
        Remains first (v :: vs) (front ++ (element ++ remaining))) := by
  rw [hasElement, read_bind_skipBlanks, read_bind_peek] at hread
  obtain ⟨blanks, hblanks, htext⟩ := exists_blanks text
  generalize text.dropWhile isBlank = dropped at hread htext
  cases dropped with
  | nil => cases hread
  | cons c tail =>
    simp only [List.head?_cons] at hread
    split at hread
    next hclose =>
      cases hread
      exact .inl ⟨rfl, blanks, tail, hblanks, htext, by rw [hclose]⟩
    split at hread
    next hfirst =>
      cases hread
      refine .inr ⟨rfl, blanks, htext, fun helement hmore => ?_⟩
      rw [hfirst, ← List.append_assoc]
      exact Listed.cons (helement.blanks_append hblanks) hmore
    next hfirst =>
      obtain ⟨_, between, hcomma, hbehind⟩ := exists_of_read_bind hread
      rw [eq_of_read_expect hcomma] at htext
      rw [read_bind_skipBlanks, read_bind_peek] at hbehind
      split at hbehind
      next => cases hbehind
      split at hbehind
      next => cases hbehind
      next =>
        cases hbehind
        obtain ⟨middle, hmiddle, hbetween⟩ := exists_blanks between
        refine .inr ⟨rfl, blanks ++ ',' :: middle, by simp [htext, ← hbetween], ?_⟩
        intro v element vs remaining helement hmore
        rw [Bool.not_eq_true] at hfirst
        have hmany := More.cons hblanks (helement.blanks_append hmiddle) hmore
        rw [hfirst]
        simpa [Remains] using hmany

theorem read_hasElement_nil {first : Bool} {remaining : List Char}
    (hremains : Remains first [] remaining) (rest : List Char) :
    (hasElement first).read (remaining ++ ']' :: rest) = .ok (false, ']' :: rest) := by
  have hblanks : Blanks remaining := by
    cases first with
    | true =>
      cases hremains with
      | nil hblanks => exact hblanks
    | false =>
      cases hremains with
      | nil hblanks => exact hblanks
  rw [hasElement, read_bind_skipBlanks, hblanks.dropWhile_append_cons rfl, read_bind_peek]
  rfl

theorem read_hasElement_cons {first : Bool} {v : Tree} {vs : List Tree} {remaining : List Char}
    (hremains : Remains first (v :: vs) remaining) (rest : List Char) :
    ∃ element more, Element Writes v element ∧ More (Element Writes) vs more ∧
      (hasElement first).read (remaining ++ ']' :: rest) =
        .ok (true, element ++ (more ++ ']' :: rest)) := by
  cases first with
  | true =>
    cases hremains with
    | @cons _ _ element more helement hmore =>
      obtain ⟨hblanks, hvalue⟩ := helement
      refine ⟨_, more, .mk blanks_nil hvalue, hmore, ?_⟩
      obtain ⟨c, tail, rfl, hc⟩ := hvalue.exists_cons
      simp only [List.append_assoc, List.cons_append, List.nil_append]
      rw [hasElement, read_bind_skipBlanks, hblanks.dropWhile_append_cons hc.isBlank_eq,
        read_bind_peek, List.head?_cons]
      dsimp only
      rw [if_neg hc.ne_closing.1, if_pos rfl, read_pure]
  | false =>
    cases hremains with
    | @cons _ _ blanks element more hblanks helement hmore =>
      obtain ⟨hinner, hvalue⟩ := helement
      refine ⟨_, more, .mk blanks_nil hvalue, hmore, ?_⟩
      obtain ⟨c, tail, rfl, hc⟩ := hvalue.exists_cons
      simp only [List.append_assoc, List.cons_append, List.nil_append]
      rw [hasElement, read_bind_skipBlanks, hblanks.dropWhile_append_cons rfl,
        read_bind_peek, List.head?_cons]
      dsimp only
      rw [if_neg (by decide), if_neg (by decide), read_bind_of_ok (read_expect _ _),
        read_bind_skipBlanks, hinner.dropWhile_append_cons hc.isBlank_eq, read_bind_peek,
        List.head?_cons]
      dsimp only
      rw [if_neg hc.ne_closing.1, read_pure]

/-- The next element, or what stands for it behind the last one, and what is made of it. -/
theorem ReadsRest.element {first : Bool} {value otherwise : Reader β} {Means : Tree → β → Prop}
    {default : Option β} {next : β → Reader α} {P : β → List Tree → α → Prop}
    (hreads : Reads value Means)
    (hotherwise : ∀ {text b rest}, otherwise.read text = .ok (b, rest) ↔
      default = some b ∧ rest = text)
    (hnext : ∀ b, ReadsRest false (next b) (P b)) :
    ReadsRest first ((do if ← hasElement first then value else otherwise) >>= next)
      (fun vs a => ∃ b, MeansOr Means default vs.head? b ∧ P b vs.tail a) where
  sound hread hblanks := by
    obtain ⟨b, between, hvalueOr, hothers⟩ := exists_of_read_bind hread
    obtain ⟨vs, remaining, rfl, hremains, hholds⟩ := (hnext b).sound hothers hblanks
    obtain ⟨more, behind, hmore, hvalue⟩ := exists_of_read_bind hvalueOr
    obtain ⟨rfl, before, tail, hbefore, rfl, rfl⟩ | ⟨rfl, front, rfl, hfront⟩ :=
      exists_of_read_hasElement hmore
    · obtain ⟨hdefault, hclose⟩ := hotherwise.mp hvalue
      obtain ⟨rfl, rfl, rfl⟩ := More.eq_nil_of_closing hremains hclose
      exact ⟨[], before, rfl, remains_nil first hbefore, b, hdefault, hholds⟩
    · obtain ⟨v, element, helement, rfl, hmeans⟩ := hreads.sound hvalue
      exact ⟨v :: vs, _, by simp, hfront helement hremains, b, hmeans, hholds⟩
  complete := by
    rintro vs remaining a rest hremains ⟨b, hmeans, hholds⟩
    cases vs with
    | nil =>
      obtain ⟨blanks, hblanks, hread⟩ :=
        (hnext b).complete rest (remains_nil false blanks_nil) hholds
      refine ⟨blanks, hblanks, (read_bind_of_ok ?_).trans hread⟩
      rw [read_bind_of_ok (read_hasElement_nil hremains rest)]
      exact hotherwise.mpr ⟨hmeans, rfl⟩
    | cons v vs =>
      obtain ⟨element, more, helement, hmore, hhas⟩ := read_hasElement_cons hremains rest
      obtain ⟨blanks, hblanks, hread⟩ := (hnext b).complete rest hmore hholds
      have hends := hmore.ends_append (ends_bracket rest)
      refine ⟨blanks, hblanks, (read_bind_of_ok ?_).trans hread⟩
      rw [read_bind_of_ok hhas]
      exact hreads.complete helement hmeans hends

theorem readsRest_required {value : Reader β} {Means : Tree → β → Prop} {next : β → Reader α}
    {P : β → List Tree → α → Prop} (name : String) (fields place : Nat)
    (hreads : Reads value Means) (hnext : ∀ b, ReadsRest false (next b) (P b)) :
    ReadsRest (place == 0) (requiredElement name fields place value >>= next)
      (fun vs a => ∃ b, MeansOr Means none vs.head? b ∧ P b vs.tail a) := by
  refine ReadsRest.element hreads ?_ hnext
  intro text b rest
  constructor
  · intro hread
    cases hread
  · rintro ⟨hnone, -⟩
    cases hnone

theorem readsRest_optional {value : Reader β} {Means : Tree → β → Prop} {next : β → Reader α}
    {P : β → List Tree → α → Prop} (default : β) (hreads : Reads value Means)
    (hnext : ∀ b, ReadsRest false (next b) (P b)) :
    ReadsRest false (optionalElement default value >>= next)
      (fun vs a => ∃ b, MeansOr Means (some default) vs.head? b ∧ P b vs.tail a) := by
  refine ReadsRest.element hreads ?_ hnext
  intro text b rest
  constructor
  · intro hread
    cases hread
    exact ⟨rfl, rfl⟩
  · rintro ⟨hdefault, rfl⟩
    cases hdefault
    rfl

/-! ## Slots -/

/-- A field of a record, how its value is read, and where it is kept in a state until the end. -/
structure FieldSlot (α σ : Type) where
  field : RecordField α
  reader : Reader field.Value
  reads : Reads reader field.Means
  met : σ → Option field.Value
  put : σ → Option field.Value → σ

/-- Different slots have different names and are independent, and they make up the whole state. -/
structure LawfulSlots (slots : List (FieldSlot α σ)) : Prop where
  nodup : (slots.map (·.field.name)).Nodup
  met_put : ∀ slot ∈ slots, ∀ s value, slot.met (slot.put s value) = value
  met_put_of_ne : ∀ slot ∈ slots, ∀ other ∈ slots, other.field.name ≠ slot.field.name →
    ∀ s value, other.met (slot.put s value) = other.met s
  ext : ∀ s s', (∀ slot ∈ slots, slot.met s = slot.met s') → s = s'
  exists_met : ∀ a (p : String → Bool), ∃ s, ∀ slot ∈ slots,
    slot.met s = if p slot.field.name then some (slot.field.get a) else none

/-- A member fills the slot with its name, which must be empty; one without a slot changes
nothing. -/
inductive Fills (slots : List (FieldSlot α σ)) (s : σ) : String × Tree → σ → Prop
  | slot {slot : FieldSlot α σ} {v : Tree} {value : slot.field.Value} (hslot : slot ∈ slots)
      (hempty : slot.met s = none) (hmeans : slot.field.Means v value) :
      Fills slots s (slot.field.name, v) (slot.put s (some value))
  | other {key : String} {v : Tree} (hkey : key ∉ slots.map (·.field.name)) :
      Fills slots s (key, v) s

/-- The members are read by the slots of their names. -/
structure ReadsSlots (member : σ → String → Reader σ) (slots : List (FieldSlot α σ)) : Prop where
  slot : ∀ slot ∈ slots, ∀ s, member s slot.field.name =
    (do return slot.put s (← Reader.field slot.field.name (slot.met s) slot.reader))
  other : ∀ key ∉ slots.map (·.field.name), ∀ s, member s key = unknownMember s

section Slots

variable {slots : List (FieldSlot α σ)} {member : σ → String → Reader σ} {s final : σ}
  {entries : List (String × Tree)}

theorem exists_of_read_field {name : String} {earlier found : Option β} {value : Reader β}
    {Means : Tree → β → Prop} (hreads : Reads value Means)
    (hread : (field name earlier value).read text = .ok (found, rest)) :
    earlier = none ∧ ∃ v blanks element b, text = blanks ++ ':' :: (element ++ rest) ∧
      Blanks blanks ∧ Element Writes v element ∧ Means v b ∧ found = some b := by
  rw [field] at hread
  split at hread
  next => cases hread
  next hearlier =>
    obtain ⟨_, between, hcolon, hbehind⟩ := exists_of_read_bind hread
    obtain ⟨b, _, hvalue, hfound⟩ := exists_of_read_bind hbehind
    cases hfound
    obtain ⟨v, element, helement, rfl, hmeans⟩ := hreads.sound hvalue
    obtain ⟨blanks, hblanks, rfl⟩ := exists_of_read_colon hcolon
    exact ⟨by simpa using hearlier, v, blanks, element, b, rfl, hblanks, helement, hmeans, rfl⟩

theorem read_field {value : Reader β} {Means : Tree → β → Prop} {v : Tree} {b : β}
    {blanks element : List Char} (name : String) (hreads : Reads value Means)
    (hblanks : Blanks blanks) (helement : Element Writes v element) (hmeans : Means v b)
    (hends : Ends rest) :
    (field name none value).read (blanks ++ ':' :: (element ++ rest)) = .ok (some b, rest) := by
  rw [field, if_neg (by simp), read_bind_of_ok (read_colon hblanks _),
    read_bind_of_ok (hreads.complete helement hmeans hends), read_pure]

theorem handles_fills (hmember : ReadsSlots member slots) : Handles member (Fills slots) where
  sound {s s' key text rest} hread := by
    by_cases hkey : key ∈ slots.map (·.field.name)
    · obtain ⟨slot, hslot, rfl⟩ := List.mem_map.mp hkey
      rw [hmember.slot slot hslot] at hread
      obtain ⟨_, between, hfield, hput⟩ := exists_of_read_bind hread
      cases hput
      obtain ⟨hempty, v, blanks, element, value, htext, hblanks, helement, hmeans, rfl⟩ :=
        exists_of_read_field slot.reads hfield
      exact ⟨v, blanks, element, htext, hblanks, helement, .slot hslot hempty hmeans⟩
    · rw [hmember.other key hkey] at hread
      obtain ⟨_, between, hcolon, hbehind⟩ := exists_of_read_bind hread
      obtain ⟨_, _, hskip, hstate⟩ := exists_of_read_bind hbehind
      cases hstate
      obtain ⟨v, element, helement, rfl⟩ := exists_of_read_skipValue hskip
      obtain ⟨blanks, hblanks, rfl⟩ := exists_of_read_colon hcolon
      exact ⟨v, blanks, element, rfl, hblanks, helement, .other hkey⟩
  complete hfills hblanks helement hends := by
    cases hfills with
    | @slot slot v value hslot hempty hmeans =>
      rw [hmember.slot slot hslot, hempty,
        read_bind_of_ok (read_field _ slot.reads hblanks helement hmeans hends), read_pure]
    | other hkey =>
      rw [hmember.other _ hkey, unknownMember, read_bind_of_ok (read_colon hblanks _),
        read_bind_of_ok (read_skipValue helement hends), read_pure]

/-- What members have made of a slot: they have filled it if one has its name, or left it alone. -/
def FieldSlot.Between (slot : FieldSlot α σ) (s : σ) (entries : List (String × Tree)) (final : σ) :
    Prop :=
  match entries.lookup slot.field.name with
  | none => slot.met final = slot.met s
  | some v => slot.met s = none ∧ ∃ value, slot.met final = some value ∧ slot.field.Means v value

theorem name_ne_of_not_mem {slot : FieldSlot α σ} {key : String} (hslot : slot ∈ slots)
    (hkey : key ∉ slots.map (·.field.name)) : slot.field.name ≠ key := by
  intro hname
  exact hkey (List.mem_map.mpr ⟨slot, hslot, hname⟩)

/-- A member with the name of another slot, or of none, is nothing to a slot. -/
theorem FieldSlot.between_cons_of_ne {slot : FieldSlot α σ} {key : String} {v : Tree} {s s' : σ}
    (hkey : slot.field.name ≠ key) (hmet : slot.met s' = slot.met s) :
    slot.Between s ((key, v) :: entries) final ↔ slot.Between s' entries final := by
  rw [FieldSlot.Between, FieldSlot.Between, lookup_cons_eq_ite, if_neg hkey, hmet]

/-- A member with the name of the slot fills it once and for all. -/
theorem FieldSlot.between_cons_self {slot : FieldSlot α σ} {v : Tree} :
    slot.Between s ((slot.field.name, v) :: entries) final ↔
      slot.met s = none ∧ ∃ value, slot.met final = some value ∧ slot.field.Means v value := by
  rw [FieldSlot.Between, List.lookup_cons_self]

theorem FieldSlot.between_of_not_mem {slot : FieldSlot α σ}
    (hname : slot.field.name ∉ entries.map Prod.fst) :
    slot.Between s entries final ↔ slot.met final = slot.met s := by
  have hnone : entries.lookup slot.field.name = none := by
    rw [List.lookup_eq_none_iff]
    intro entry hentry
    exact bne_iff_ne.mpr fun heq => hname (List.mem_map.mpr ⟨entry, hentry, heq.symm⟩)
  rw [FieldSlot.Between, hnone]

theorem FieldSlot.not_mem_of_between {slot : FieldSlot α σ}
    (hbetween : slot.Between s entries final) (hmet : slot.met s ≠ none) :
    slot.field.name ∉ entries.map Prod.fst := by
  intro hmem
  rw [FieldSlot.Between] at hbetween
  split at hbetween
  next hnone =>
    rw [List.lookup_eq_none_iff] at hnone
    obtain ⟨entry, hentry, hkey⟩ := List.mem_map.mp hmem
    exact bne_iff_ne.mp (hnone entry hentry) hkey.symm
  next => exact hmet hbetween.1

theorem LawfulSlots.eq_of_name_eq (hlawful : LawfulSlots slots) {slot other : FieldSlot α σ}
    (hslot : slot ∈ slots) (hother : other ∈ slots) (hname : other.field.name = slot.field.name) :
    other = slot :=
  List.inj_on_of_nodup_map hlawful.nodup hother hslot hname

theorem between_of_steps_fills (hlawful : LawfulSlots slots)
    (hsteps : Steps (Fills slots) s entries final) :
    ((entries.map Prod.fst).filter (· ∈ slots.map (·.field.name))).Nodup ∧
      ∀ slot ∈ slots, slot.Between s entries final := by
  induction hsteps with
  | nil => exact ⟨List.nodup_nil, fun slot _ => rfl⟩
  | cons hfirst _ ih =>
    obtain ⟨hnodup, hbetween⟩ := ih
    cases hfirst with
    | @slot slot v value hslot hempty hmeans =>
      have hfilled := hlawful.met_put slot hslot
      -- The slot stays full, so no later entry has its name.
      have hfresh : slot.field.name ∉ _ :=
        FieldSlot.not_mem_of_between (hbetween slot hslot)
          (by rw [hfilled]; exact Option.some_ne_none _)
      have hname : slot.field.name ∈ slots.map (·.field.name) := List.mem_map.mpr ⟨slot, hslot, rfl⟩
      rw [List.map_cons, List.filter_cons_of_pos (by simpa using hname), List.nodup_cons]
      refine ⟨⟨fun hmem => hfresh (List.mem_filter.mp hmem).1, hnodup⟩, fun other hother => ?_⟩
      by_cases hsame : other.field.name = slot.field.name
      · obtain rfl := hlawful.eq_of_name_eq hslot hother hsame
        have hfinal := (FieldSlot.between_of_not_mem hfresh).mp (hbetween other hother)
        rw [hfilled] at hfinal
        exact FieldSlot.between_cons_self.mpr ⟨hempty, value, hfinal, hmeans⟩
      · have hmet := hlawful.met_put_of_ne slot hslot other hother hsame
        exact (FieldSlot.between_cons_of_ne hsame (hmet _ _)).mpr (hbetween other hother)
    | @other key v hkey =>
      rw [List.map_cons, List.filter_cons_of_neg (by simpa using hkey)]
      refine ⟨hnodup, fun slot hslot => ?_⟩
      have hne := name_ne_of_not_mem hslot hkey
      exact (FieldSlot.between_cons_of_ne hne rfl).mpr (hbetween slot hslot)

theorem steps_fills_of_between (hlawful : LawfulSlots slots)
    (hnodup : ((entries.map Prod.fst).filter (· ∈ slots.map (·.field.name))).Nodup)
    (hbetween : ∀ slot ∈ slots, slot.Between s entries final) :
    Steps (Fills slots) s entries final := by
  induction entries generalizing s with
  | nil =>
    obtain rfl : s = final := hlawful.ext _ _ fun slot hslot => (hbetween slot hslot).symm
    exact .nil
  | cons entry entries ih =>
    obtain ⟨key, v⟩ := entry
    by_cases hkey : key ∈ slots.map (·.field.name)
    · rw [List.map_cons, List.filter_cons_of_pos (by simpa using hkey), List.nodup_cons] at hnodup
      obtain ⟨slot, hslot, rfl⟩ := List.mem_map.mp hkey
      obtain ⟨hempty, value, hfinal, hmeans⟩ := FieldSlot.between_cons_self.mp (hbetween slot hslot)
      refine .cons (.slot hslot hempty hmeans) (ih hnodup.2 fun other hother => ?_)
      by_cases hname : other.field.name = slot.field.name
      · obtain rfl := hlawful.eq_of_name_eq hslot hother hname
        -- The slot has its final value already, since its name is not among the later entries.
        have hfresh : other.field.name ∉ entries.map Prod.fst := fun hmem =>
          hnodup.1 (List.mem_filter.mpr ⟨hmem, by simpa using hkey⟩)
        rw [FieldSlot.between_of_not_mem hfresh, hfinal, hlawful.met_put _ hother]
      · have hmet := hlawful.met_put_of_ne slot hslot other hother hname s (some value)
        exact (FieldSlot.between_cons_of_ne hname hmet).mp (hbetween other hother)
    · rw [List.map_cons, List.filter_cons_of_neg (by simpa using hkey)] at hnodup
      refine .cons (.other hkey) (ih hnodup fun slot hslot => ?_)
      have hne := name_ne_of_not_mem hslot hkey
      exact (FieldSlot.between_cons_of_ne hne rfl).mp (hbetween slot hslot)

end Slots

/-! ## Records -/

/-- A state is turned into the record that has what is in the slots, and defaults for the others. -/
def Finishes (finish : σ → Reader α) (slots : List (FieldSlot α σ)) : Prop :=
  ∀ {s text a rest}, (finish s).read text = .ok (a, rest) ↔
    rest = text ∧ ∀ slot ∈ slots, (slot.met s).or slot.field.default = some (slot.field.get a)

/-- Filling the slots and finishing makes the records whose fields hold what the entries give. -/
theorem exists_steps_iff {slots : List (FieldSlot α σ)} (hlawful : LawfulSlots slots) {start : σ}
    (hstart : ∀ slot ∈ slots, slot.met start = none) {entries : List (String × Tree)} {a : α} :
    (∃ final, Steps (Fills slots) start entries final ∧
      ∀ slot ∈ slots, (slot.met final).or slot.field.default = some (slot.field.get a)) ↔
    ((entries.map Prod.fst).filter (· ∈ slots.map (·.field.name))).Nodup ∧
      ∀ slot ∈ slots, slot.field.Holds a (entries.lookup slot.field.name) := by
  constructor
  · rintro ⟨final, hsteps, hfinal⟩
    obtain ⟨hnodup, hbetween⟩ := between_of_steps_fills hlawful hsteps
    refine ⟨hnodup, fun slot hslot => ?_⟩
    have hslotBetween := hbetween slot hslot
    have hslotFinal := hfinal slot hslot
    rw [FieldSlot.Between] at hslotBetween
    split at hslotBetween
    next hgiven =>
      rw [hslotBetween, hstart slot hslot, Option.none_or] at hslotFinal
      rw [hgiven]
      exact hslotFinal
    next v hgiven =>
      obtain ⟨-, value, hmet, hmeans⟩ := hslotBetween
      rw [hmet, Option.some_or] at hslotFinal
      obtain rfl := Option.some.inj hslotFinal
      rw [hgiven]
      exact hmeans
  · rintro ⟨hnodup, hholds⟩
    obtain ⟨final, hmet⟩ := hlawful.exists_met a fun name => (entries.lookup name).isSome
    refine ⟨final, steps_fills_of_between hlawful hnodup fun slot hslot => ?_, fun slot hslot => ?_⟩
    · have hslotMet := hmet slot hslot
      have hslotHolds := hholds slot hslot
      rw [FieldSlot.Between]
      split
      next hgiven =>
        rw [hgiven] at hslotMet
        rw [hstart slot hslot]
        exact hslotMet
      next v hgiven =>
        rw [hgiven] at hslotMet hslotHolds
        exact ⟨hstart slot hslot, _, hslotMet, hslotHolds⟩
    · have hslotHolds := hholds slot hslot
      rw [hmet slot hslot]
      cases hgiven : entries.lookup slot.field.name with
      | none =>
        rw [hgiven] at hslotHolds
        exact hslotHolds
      | some v => rfl

theorem meansRecord_iff {slots : List (FieldSlot α σ)} {v : Tree} {a : α} :
    MeansRecord (slots.map (·.field)) v a ↔
      ∃ given, Gives (slots.map (·.field.name)) v given ∧
        ∀ slot ∈ slots, slot.field.Holds a (given.lookup slot.field.name) := by
  rw [MeansRecord, List.map_map]
  simp only [List.forall_mem_map]
  rfl

theorem LawfulSlots.holdsInOrder_iff {slots : List (FieldSlot α σ)} (hlawful : LawfulSlots slots)
    {vs : List Tree} {a : α} :
    HoldsInOrder a (slots.map (·.field)) vs ↔ vs.length ≤ (slots.map (·.field.name)).length ∧
      ∀ slot ∈ slots,
        slot.field.Holds a (((slots.map (·.field.name)).zip vs).lookup slot.field.name) := by
  have hnames : (slots.map (·.field)).map (·.name) = slots.map (·.field.name) := List.map_map
  rw [Json.holdsInOrder_iff (hnames ▸ hlawful.nodup), hnames]
  simp only [List.forall_mem_map]

theorem eq_of_read_required {name : String} {met : Option β} {b : β}
    (hread : (required name met).read text = .ok (b, rest)) : met = some b ∧ rest = text := by
  cases met with
  | none => cases hread
  | some b' =>
    cases hread
    exact ⟨rfl, rfl⟩

theorem read_required (name : String) {met : Option β} {b : β} (hmet : met = some b)
    (text : List Char) : (required name met).read text = .ok (b, text) := by
  rw [hmet]
  rfl

theorem or_some_eq_some_iff {met : Option β} {default b : β} :
    met.or (some default) = some b ↔ met.getD default = b := by
  cases met <;> simp

theorem reads_record {r : RecordReader α σ} {slots : List (FieldSlot α σ)}
    (hlawful : LawfulSlots slots) (hstart : ∀ slot ∈ slots, slot.met r.start = none)
    (hsequence : ReadsRest true r.ofSequence fun vs a =>
      HoldsInOrder a (slots.map (·.field)) vs)
    (hmember : ReadsSlots r.member slots) (hfinish : Finishes r.finish slots) :
    Reads (record r) (MeansRecord (slots.map (·.field))) where
  sound hread := by
    obtain ⟨blanks, tail, front, between, hblanks, rfl, hfront, hvalue⟩ :=
      exists_of_read_front hread
    split at hvalue
    next =>
      obtain ⟨inner, rfl, rfl⟩ := hfront
      rw [read_bind_skip] at hvalue
      obtain ⟨a, behind, hfields, hend⟩ := exists_of_read_bind hvalue
      rw [read_bind_skipBlanks] at hend
      obtain ⟨_, _, hclose, hresult⟩ := exists_of_read_bind hend
      cases hresult
      obtain ⟨after, hafter, rfl⟩ := exists_blanks_of_dropWhile (eq_of_read_expect hclose)
      obtain ⟨vs, remaining, rfl, hremains, hholds⟩ := hsequence.sound hfields hafter
      obtain ⟨hlength, hholds⟩ := hlawful.holdsInOrder_iff.mp hholds
      exact ⟨_, _, .mk hblanks (.array hremains), by simp,
        meansRecord_iff.mpr ⟨_, .array hlength, hholds⟩⟩
    next =>
      obtain ⟨inner, rfl, rfl⟩ := hfront
      rw [read_bind_skip] at hvalue
      obtain ⟨final, between, hmembers, hresult⟩ := exists_of_read_bind hvalue
      obtain ⟨rfl, hfinal⟩ := hfinish.mp hresult
      obtain ⟨entries, listed, rfl, hlisted, hsteps⟩ :=
        exists_of_read_members (handles_fills hmember) hmembers
      obtain ⟨hnodup, hholds⟩ := (exists_steps_iff hlawful hstart).mp ⟨final, hsteps, hfinal⟩
      exact ⟨_, _, .mk hblanks (.object hlisted), by simp,
        meansRecord_iff.mpr ⟨entries, .object hnodup, hholds⟩⟩
    next => cases hvalue
  complete := by
    rintro v element a rest ⟨hblanks, hvalue⟩ hmeans -
    obtain ⟨given, hgives, hholds⟩ := meansRecord_iff.mp hmeans
    cases hgives with
    | object hnodup =>
      obtain ⟨final, hsteps, hfinal⟩ := (exists_steps_iff hlawful hstart).mpr ⟨hnodup, hholds⟩
      cases hvalue with
      | object hmembers =>
        simp only [List.append_assoc, List.cons_append, List.nil_append]
        refine (read_front hblanks rfl rfl).trans ?_
        dsimp only
        rw [read_bind_skip,
          read_bind_of_ok (read_members (handles_fills hmember) hsteps hmembers rest)]
        exact hfinish.mpr ⟨rfl, hfinal⟩
    | array hlength =>
      cases hvalue with
      | array helements =>
        simp only [List.append_assoc, List.cons_append, List.nil_append]
        refine (read_front hblanks rfl rfl).trans ?_
        dsimp only
        obtain ⟨after, hafter, hread⟩ := hsequence.complete rest helements
          (hlawful.holdsInOrder_iff.mpr ⟨hlength, hholds⟩)
        rw [read_bind_skip, read_bind_of_ok hread, read_bind_skipBlanks,
          hafter.dropWhile_append_cons rfl, read_bind_of_ok (read_expect _ _), read_pure]

end Reader

end ShiftReduce.Json
