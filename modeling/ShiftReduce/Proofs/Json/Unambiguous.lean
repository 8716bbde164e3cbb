import ShiftReduce.Proofs.Json.Members

/-!
# A text has one tree

Read from the front, a text says which value it begins with and where that ends, provided that
something follows which can follow a value. Hence a whole text is that of one tree at most. Items
between brackets are told apart before the lists of them, and values before the items made of them.
-/

namespace ShiftReduce.Json

section Blanks

variable {blanks blanks' rest rest' : List Char} {c c' : Char}

/-- Where blanks end is told by what follows them. -/
theorem Blanks.append_cons_inj (hblanks : Blanks blanks) (hblanks' : Blanks blanks')
    (hc : Reader.isBlank c = false) (hc' : Reader.isBlank c' = false)
    (heq : blanks ++ c :: rest = blanks' ++ c' :: rest') : c = c' ∧ rest = rest' := by
  have hdrop := congrArg (List.dropWhile Reader.isBlank) heq
  rw [hblanks.dropWhile_append_cons hc, hblanks'.dropWhile_append_cons hc'] at hdrop
  exact List.cons.inj hdrop

end Blanks

section Strings

theorem SimpleEscape.unique {letter c d : Char} (hc : SimpleEscape letter c)
    (hd : SimpleEscape letter d) : c = d := by
  rw [← Reader.simpleEscape?_eq_some_iff] at hc hd
  exact Option.some.inj (hc.symm.trans hd)

theorem HexNumber.unique {digits : List Char} {unit unit' : Nat} (hunit : HexNumber digits unit)
    (hunit' : HexNumber digits unit') : unit = unit' := by
  have hread := (Reader.hexNumber?_eq_some_iff hunit.length_eq).mpr hunit
  have hread' := (Reader.hexNumber?_eq_some_iff hunit.length_eq).mpr hunit'
  exact Option.some.inj (hread.symm.trans hread')

/-- The quote that ends a string is the first one without a backslash. -/
theorem Spells.unique {units units' : List Nat} {body body' rest rest' : List Char}
    (hspells : Spells units body) (hspells' : Spells units' body')
    (heq : body ++ '"' :: rest = body' ++ '"' :: rest') : units = units' ∧ rest = rest' := by
  -- Both spellings begin alike, so the first two characters tell that they begin by the same rule.
  induction hspells generalizing units' body' with
  | nil =>
    cases hspells' with
    | nil => exact ⟨rfl, (List.cons.inj heq).2⟩
    | plain _ hquote _ _ => exact absurd (List.cons.inj heq).1.symm hquote
    | simple _ _ | unicode _ _ => simp at heq
  | plain _ hquote hescape _ ih =>
    cases hspells' with
    | nil => exact absurd (List.cons.inj heq).1 hquote
    | plain _ _ _ hrest' =>
      obtain ⟨rfl, hbehind⟩ := List.cons.inj heq
      obtain ⟨rfl, hrests⟩ := ih hrest' hbehind
      exact ⟨rfl, hrests⟩
    | simple _ _ | unicode _ _ => exact absurd (List.cons.inj heq).1 hescape
  | simple hletter _ ih =>
    cases hspells' with
    | nil => simp at heq
    | plain _ _ hescape' _ => exact absurd (List.cons.inj heq).1.symm hescape'
    | simple hletter' hrest' =>
      obtain ⟨rfl, hbehind⟩ := List.cons.inj (List.cons.inj heq).2
      obtain ⟨rfl, hrests⟩ := ih hrest' hbehind
      exact ⟨by rw [hletter.unique hletter'], hrests⟩
    | unicode _ _ => exact absurd (List.cons.inj (List.cons.inj heq).2).1 hletter.ne_mark
  | unicode hdigits _ ih =>
    cases hspells' with
    | nil => simp at heq
    | plain _ _ hescape' _ => exact absurd (List.cons.inj heq).1.symm hescape'
    | simple hletter' _ =>
      exact absurd (List.cons.inj (List.cons.inj heq).2).1.symm hletter'.ne_mark
    | unicode hdigits' hrest' =>
      simp only [List.cons_append, List.append_assoc, List.cons.injEq, true_and] at heq
      obtain ⟨rfl, hbehind⟩ :=
        List.append_inj heq (hdigits.length_eq.trans hdigits'.length_eq.symm)
      obtain ⟨rfl, hrests⟩ := ih hrest' hbehind
      exact ⟨by rw [hdigits.unique hdigits'], hrests⟩

end Strings

section Numbers

variable {text text' rest rest' : List Char}

theorem Number.unique (hnumber : Number text) (hnumber' : Number text') (hends : Ends rest)
    (hends' : Ends rest') (heq : text ++ rest = text' ++ rest') : text = text' ∧ rest = rest' := by
  -- The grammar alone does not say how far a number goes; the reader takes all it can.
  obtain ⟨_, hread⟩ := Reader.exists_read_numberText .malformed hnumber hends
  obtain ⟨_, hread'⟩ := Reader.exists_read_numberText .malformed hnumber' hends'
  rw [heq, hread'] at hread
  obtain rfl : rest' = rest := (Prod.mk.inj (Except.ok.inj hread)).2
  exact ⟨List.append_cancel_right heq, rfl⟩

theorem Number.append_ne_cons (hnumber : Number text) {c : Char}
    (hc : Reader.startsNumber c = false) : text ++ rest ≠ c :: rest' := by
  obtain ⟨first, tail, rfl, hfirst⟩ := hnumber.exists_cons
  intro heq
  rw [(List.cons.inj heq).1, hc] at hfirst
  cases hfirst

end Numbers

section Lists

variable {α : Type} {Item : α → List Char → Prop} {closing : Char} {xs ys : List α}
  {text text' rest rest' : List Char}

/-- In front of what can follow a value, the text of the item is that of no other one, and tells
where it ends. -/
def Determined (Item : α → List Char → Prop) (x : α) : Prop :=
  ∀ ⦃y : α⦄ ⦃text text' rest rest' : List Char⦄, Item x text → Item y text' → Ends rest →
    Ends rest' → text ++ rest = text' ++ rest' → x = y ∧ rest = rest'

/-- A bracket that closes a list of items. -/
structure ClosesList (closing : Char) : Prop where
  ends : ∀ rest, Ends (closing :: rest)
  isBlank_eq : Reader.isBlank closing = false
  ne_comma : closing ≠ ','

theorem closesList_bracket : ClosesList ']' where
  ends := ends_bracket
  isBlank_eq := rfl
  ne_comma := by decide

theorem closesList_brace : ClosesList '\x7d' where
  ends := ends_brace
  isBlank_eq := rfl
  ne_comma := by decide

theorem More.unique (hclosing : ClosesList closing) (hxs : ∀ x ∈ xs, Determined Item x)
    (hmore : More Item xs text) (hmore' : More Item ys text')
    (heq : text ++ closing :: rest = text' ++ closing :: rest') : xs = ys ∧ rest = rest' := by
  induction hmore generalizing ys text' with
  | nil hblanks =>
    cases hmore' with
    | nil hblanks' =>
      have hinj := hblanks.append_cons_inj hblanks' hclosing.isBlank_eq hclosing.isBlank_eq heq
      exact ⟨rfl, hinj.2⟩
    | cons hblanks' _ _ =>
      rw [List.append_assoc] at heq
      have hinj := hblanks.append_cons_inj hblanks' hclosing.isBlank_eq rfl heq
      exact absurd hinj.1 hclosing.ne_comma
  | cons hblanks hitem hmore ih =>
    cases hmore' with
    | nil hblanks' =>
      rw [List.append_assoc] at heq
      have hinj := hblanks.append_cons_inj hblanks' rfl hclosing.isBlank_eq heq
      exact absurd hinj.1.symm hclosing.ne_comma
    | cons hblanks' hitem' hmore' =>
      simp only [List.append_assoc, List.cons_append] at heq
      have hitems := (hblanks.append_cons_inj hblanks' rfl rfl heq).2
      obtain ⟨rfl, hmores⟩ := hxs _ List.mem_cons_self hitem hitem'
        (hmore.ends_append (hclosing.ends _)) (hmore'.ends_append (hclosing.ends _)) hitems
      obtain ⟨rfl, hrests⟩ := ih (fun x hx => hxs x (List.mem_cons_of_mem _ hx)) hmore' hmores
      exact ⟨rfl, hrests⟩

/-- Behind blanks, no item begins with the bracket that closes the list. -/
def OpensUnlike (closing : Char) (Item : α → List Char → Prop) : Prop :=
  ∀ ⦃x text⦄, Item x text → ∀ rest, ∃ c tail, c ≠ closing ∧
    (text ++ rest).dropWhile Reader.isBlank = c :: tail

theorem OpensUnlike.append_ne (hopens : OpensUnlike closing Item) (hclosing : ClosesList closing)
    {x : α} {blanks : List Char} (hitem : Item x text) (hblanks : Blanks blanks) :
    text ++ rest ≠ blanks ++ closing :: rest' := by
  intro heq
  obtain ⟨c, tail, hne, hdrop⟩ := hopens hitem rest
  rw [heq, hblanks.dropWhile_append_cons hclosing.isBlank_eq] at hdrop
  exact hne (List.cons.inj hdrop).1.symm

theorem Listed.unique (hclosing : ClosesList closing) (hopens : OpensUnlike closing Item)
    (hxs : ∀ x ∈ xs, Determined Item x) (hlisted : Listed Item xs text)
    (hlisted' : Listed Item ys text')
    (heq : text ++ closing :: rest = text' ++ closing :: rest') : xs = ys ∧ rest = rest' := by
  cases hlisted with
  | nil hblanks =>
    cases hlisted' with
    | nil hblanks' =>
      have hinj := hblanks.append_cons_inj hblanks' hclosing.isBlank_eq hclosing.isBlank_eq heq
      exact ⟨rfl, hinj.2⟩
    | cons hitem' _ =>
      rw [List.append_assoc] at heq
      exact absurd heq.symm (hopens.append_ne hclosing hitem' hblanks)
  | cons hitem hmore =>
    cases hlisted' with
    | nil hblanks' =>
      rw [List.append_assoc] at heq
      exact absurd heq (hopens.append_ne hclosing hitem hblanks')
    | cons hitem' hmore' =>
      rw [List.append_assoc, List.append_assoc] at heq
      obtain ⟨rfl, hmores⟩ := hxs _ List.mem_cons_self hitem hitem'
        (hmore.ends_append (hclosing.ends _)) (hmore'.ends_append (hclosing.ends _)) heq
      obtain ⟨rfl, hrests⟩ := hmore.unique hclosing
        (fun x hx => hxs x (List.mem_cons_of_mem _ hx)) hmore' hmores
      exact ⟨rfl, hrests⟩

end Lists

section Items

variable {v : Tree}

theorem opensUnlike_element : OpensUnlike ']' (Element Writes) := by
  intro v text helement rest
  obtain ⟨c, tail, hc, hdrop⟩ := helement.exists_dropWhile
  exact ⟨c, _, hc.ne_closing.1, hdrop rest⟩

theorem opensUnlike_member : OpensUnlike '\x7d' (Member Writes) := by
  intro m text hmember rest
  obtain ⟨tail, hdrop⟩ := hmember.exists_dropWhile
  exact ⟨'"', _, by decide, hdrop rest⟩

theorem determined_element (hv : Determined Writes v) : Determined (Element Writes) v := by
  intro w text text' rest rest' helement helement' hends hends' heq
  obtain ⟨hblanks, hvalue⟩ := helement
  obtain ⟨hblanks', hvalue'⟩ := helement'
  obtain ⟨c, tail, rfl, hc⟩ := hvalue.exists_cons
  obtain ⟨c', tail', rfl, hc'⟩ := hvalue'.exists_cons
  simp only [List.append_assoc, List.cons_append] at heq
  obtain ⟨rfl, htails⟩ := hblanks.append_cons_inj hblanks' hc.isBlank_eq hc'.isBlank_eq heq
  exact hv hvalue hvalue' hends hends' (by rw [List.cons_append, List.cons_append, htails])

theorem determined_member (hv : Determined Writes v) (units : List Nat) :
    Determined (Member Writes) (units, v) := by
  intro m text text' rest rest' hmember hmember' hends hends' heq
  obtain ⟨hblanks, hkey, hbetween, hvalue⟩ := hmember
  obtain ⟨hblanks', hkey', hbetween', hvalue'⟩ := hmember'
  simp only [List.append_assoc, List.cons_append] at heq
  have hkeys := (hblanks.append_cons_inj hblanks' rfl rfl heq).2
  obtain ⟨rfl, hcolons⟩ := hkey.unique hkey' hkeys
  have hvalues := (hbetween.append_cons_inj hbetween' rfl rfl hcolons).2
  obtain ⟨rfl, hrests⟩ := determined_element hv hvalue hvalue' hends hends' hvalues
  exact ⟨rfl, hrests⟩

end Items

section Values

variable {elements : List Tree} {members : List (List Nat × Tree)}

theorem determined_null : Determined Writes .null := by
  intro w text text' rest rest' hvalue hvalue' _ _ heq
  cases hvalue
  cases hvalue' with
  | null => exact ⟨rfl, List.append_cancel_left heq⟩
  | number hnumber => exact absurd heq.symm (hnumber.append_ne_cons rfl)
  | true | false | string _ | array _ | object _ => simp at heq

theorem determined_boolean (b : Bool) : Determined Writes (.boolean b) := by
  intro w text text' rest rest' hvalue hvalue' _ _ heq
  cases hvalue with
  | true =>
    cases hvalue' with
    | true => exact ⟨rfl, List.append_cancel_left heq⟩
    | number hnumber => exact absurd heq.symm (hnumber.append_ne_cons rfl)
    | null | false | string _ | array _ | object _ => simp at heq
  | false =>
    cases hvalue' with
    | false => exact ⟨rfl, List.append_cancel_left heq⟩
    | number hnumber => exact absurd heq.symm (hnumber.append_ne_cons rfl)
    | null | true | string _ | array _ | object _ => simp at heq

theorem determined_number (digits : List Char) : Determined Writes (.number digits) := by
  intro w text text' rest rest' hvalue hvalue' hends hends' heq
  cases hvalue with
  | number hnumber =>
    cases hvalue' with
    | number hnumber' =>
      obtain ⟨rfl, hrests⟩ := hnumber.unique hnumber' hends hends' heq
      exact ⟨rfl, hrests⟩
    | null | true | false | string _ | array _ | object _ =>
      exact absurd heq (hnumber.append_ne_cons rfl)

theorem determined_string (units : List Nat) : Determined Writes (.string units) := by
  intro w text text' rest rest' hvalue hvalue' _ _ heq
  cases hvalue with
  | string hspells =>
    cases hvalue' with
    | string hspells' =>
      simp only [List.cons_append, List.append_assoc, List.nil_append, List.cons.injEq, true_and]
        at heq
      obtain ⟨rfl, hrests⟩ := hspells.unique hspells' heq
      exact ⟨rfl, hrests⟩
    | number hnumber => exact absurd heq.symm (hnumber.append_ne_cons rfl)
    | null | true | false | array _ | object _ => simp at heq

theorem determined_array (helements : ∀ v ∈ elements, Determined Writes v) :
    Determined Writes (.array elements) := by
  intro w text text' rest rest' hvalue hvalue' _ _ heq
  cases hvalue with
  | array hlisted =>
    cases hvalue' with
    | array hlisted' =>
      simp only [List.cons_append, List.append_assoc, List.nil_append, List.cons.injEq, true_and]
        at heq
      obtain ⟨rfl, hrests⟩ := hlisted.unique closesList_bracket opensUnlike_element
        (fun v hv => determined_element (helements v hv)) hlisted' heq
      exact ⟨rfl, hrests⟩
    | number hnumber => exact absurd heq.symm (hnumber.append_ne_cons rfl)
    | null | true | false | string _ | object _ => simp at heq

theorem determined_object (hmembers : ∀ m ∈ members, Determined Writes m.2) :
    Determined Writes (.object members) := by
  intro w text text' rest rest' hvalue hvalue' _ _ heq
  cases hvalue with
  | object hlisted =>
    cases hvalue' with
    | object hlisted' =>
      simp only [List.cons_append, List.append_assoc, List.nil_append, List.cons.injEq, true_and]
        at heq
      obtain ⟨rfl, hrests⟩ := hlisted.unique closesList_brace opensUnlike_member
        (fun m hm => determined_member (hmembers m hm) m.1) hlisted' heq
      exact ⟨rfl, hrests⟩
    | number hnumber => exact absurd heq.symm (hnumber.append_ne_cons rfl)
    | null | true | false | string _ | array _ => simp at heq

theorem determined (v : Tree) : Determined Writes v := by
  induction v using Tree.induction with
  | null => exact determined_null
  | boolean b => exact determined_boolean b
  | number digits => exact determined_number digits
  | string units => exact determined_string units
  | array elements ih => exact determined_array ih
  | object members ih => exact determined_object ih

end Values

/-- A text is that of one tree at most. -/
theorem IsTextOf.unique {text : List Char} {v w : Tree} (hv : IsTextOf text v)
    (hw : IsTextOf text w) : v = w := by
  obtain ⟨before, body, after, rfl, hbefore, hbody, hafter⟩ := hv
  obtain ⟨before', body', after', heq, hbefore', hbody', hafter'⟩ := hw
  rw [← List.append_assoc, ← List.append_assoc] at heq
  exact (determined_element (determined v) (.mk hbefore hbody) (.mk hbefore' hbody')
    hafter.ends hafter'.ends heq).1

end ShiftReduce.Json
