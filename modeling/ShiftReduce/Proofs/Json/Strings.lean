import Mathlib.Data.List.Forall2
import ShiftReduce.Proofs.Json.Reading

/-!
# Reading strings

A loose reader takes whatever spells some code units. The strict one takes it only if the units are
those of characters: since a surrogate is never written as a character, its escape must be followed
by that of its partner.
-/

namespace ShiftReduce.Json

section Units

theorem toNat_valid (c : Char) : c.toNat < 0xD800 ∨ 0xDFFF < c.toNat ∧ c.toNat < 0x110000 :=
  c.valid

theorem toNat_ofNat {n : Nat} (hn : n < 0xD800 ∨ 0xDFFF < n ∧ n < 0x110000) :
    (Char.ofNat n).toNat = n := by
  have hvalid : n.isValidChar := hn
  rw [Char.ofNat, dif_pos hvalid]
  rfl

theorem unitsOf_ne_nil (c : Char) : unitsOf c ≠ [] := by
  unfold unitsOf
  split <;> simp

theorem unitsOf_eq_singleton {c : Char} (hc : c.toNat < 0x10000) : unitsOf c = [c.toNat] :=
  if_pos hc

theorem unitsOf_eq_pair {c : Char} (hc : 0x10000 ≤ c.toNat) :
    unitsOf c = [0xD800 + (c.toNat - 0x10000) / 0x400, 0xDC00 + (c.toNat - 0x10000) % 0x400] :=
  if_neg (Nat.not_lt.mpr hc)

/-- Code units tell the first character and what is left. -/
theorem unitsOf_append_inj {c d : Char} {us vs : List Nat}
    (heq : unitsOf c ++ us = unitsOf d ++ vs) : c = d ∧ us = vs := by
  have hc := toNat_valid c
  have hd := toNat_valid d
  unfold unitsOf at heq
  split at heq <;> split at heq <;>
    simp only [List.cons_append, List.nil_append, List.cons.injEq] at heq
  · exact ⟨Char.toNat_inj.mp heq.1, heq.2⟩
  · omega
  · omega
  · obtain ⟨hhigh, hlow, hrest⟩ := heq
    exact ⟨Char.toNat_inj.mp (by omega), hrest⟩

theorem codeUnits_ofList (cs : List Char) : codeUnits (String.ofList cs) = cs.flatMap unitsOf := by
  rw [codeUnits, String.toList_ofList]

theorem isHighSurrogate_iff {unit : Nat} :
    Reader.isHighSurrogate unit = true ↔ 0xD800 ≤ unit ∧ unit ≤ 0xDBFF := by
  simp [Reader.isHighSurrogate]

theorem isLowSurrogate_iff {unit : Nat} :
    Reader.isLowSurrogate unit = true ↔ 0xDC00 ≤ unit ∧ unit ≤ 0xDFFF := by
  simp [Reader.isLowSurrogate]

/-- A unit that is no surrogate is a character of its own. -/
theorem unitsOf_ofNat {unit : Nat} (hbound : unit < 0x10000)
    (hhigh : ¬ Reader.isHighSurrogate unit = true) (hlow : ¬ Reader.isLowSurrogate unit = true) :
    unitsOf (Char.ofNat unit) = [unit] := by
  rw [isHighSurrogate_iff] at hhigh
  rw [isLowSurrogate_iff] at hlow
  have hunit : (Char.ofNat unit).toNat = unit := toNat_ofNat (by omega)
  rw [unitsOf_eq_singleton (hunit.symm ▸ hbound), hunit]

theorem pairValue_eq {high low a b : Nat} (hhigh : high = 0xD800 + a) (hlow : low = 0xDC00 + b) :
    Reader.pairValue high low = 0x10000 + a * 0x400 + b := by
  unfold Reader.pairValue
  omega

theorem unitsOf_pairValue {high low : Nat} (hhigh : Reader.isHighSurrogate high = true)
    (hlow : Reader.isLowSurrogate low = true) :
    unitsOf (Char.ofNat (Reader.pairValue high low)) = [high, low] := by
  obtain ⟨hhigh, ha⟩ := isHighSurrogate_iff.mp hhigh
  obtain ⟨hlow, hb⟩ := isLowSurrogate_iff.mp hlow
  obtain ⟨a, hhigh⟩ := Nat.exists_eq_add_of_le hhigh
  obtain ⟨b, hlow⟩ := Nat.exists_eq_add_of_le hlow
  rw [pairValue_eq hhigh hlow]
  generalize hvalue : 0x10000 + a * 0x400 + b = value
  have hpair : (Char.ofNat value).toNat = value := toNat_ofNat (by omega)
  have hquotient : (value - 0x10000) / 0x400 = a := by omega
  have hremainder : (value - 0x10000) % 0x400 = b := by omega
  rw [unitsOf_eq_pair (by omega), hpair, hquotient, hremainder, hhigh, hlow]

/-- The units of a character are one unit that is no surrogate, or a pair of surrogates. -/
theorem unitsOf_cases (c : Char) :
    (∃ unit, unitsOf c = [unit] ∧ c = Char.ofNat unit ∧ ¬ Reader.isHighSurrogate unit = true ∧
      ¬ Reader.isLowSurrogate unit = true) ∨
    ∃ high low, unitsOf c = [high, low] ∧ c = Char.ofNat (Reader.pairValue high low) ∧
      Reader.isHighSurrogate high = true ∧ Reader.isLowSurrogate low = true := by
  have hc := toNat_valid c
  simp only [isHighSurrogate_iff, isLowSurrogate_iff]
  rcases Nat.lt_or_ge c.toNat 0x10000 with hshort | hlong
  · exact .inl ⟨c.toNat, unitsOf_eq_singleton hshort, (Char.ofNat_toNat c).symm, by omega, by omega⟩
  · refine .inr ⟨_, _, unitsOf_eq_pair hlong, ?_, by omega, by omega⟩
    have hvalue : 0x10000 + (c.toNat - 0x10000) / 0x400 * 0x400 + (c.toNat - 0x10000) % 0x400 =
        c.toNat := by omega
    rw [pairValue_eq rfl rfl, hvalue, Char.ofNat_toNat]

/-- No character's units begin with a low surrogate. -/
theorem not_isLowSurrogate_of_unitsOf_append {c : Char} {unit : Nat} {units more : List Nat}
    (heq : unitsOf c ++ more = unit :: units) : ¬ Reader.isLowSurrogate unit = true := by
  obtain ⟨_, hunits, -, -, hlow⟩ | ⟨high, low, hunits, -, hhigh, -⟩ := unitsOf_cases c
  · rw [hunits] at heq
    cases heq
    exact hlow
  · rw [hunits] at heq
    cases heq
    rw [isHighSurrogate_iff] at hhigh
    rw [isLowSurrogate_iff]
    omega

end Units

section Hexadecimal

theorem HexDigit.lt {c : Char} {digit : Nat} (hdigit : HexDigit c digit) : digit < 16 := by
  rcases hdigit with hlower | hupper
  · exact (List.getElem?_eq_some_iff.mp hlower).1
  · exact (List.getElem?_eq_some_iff.mp hupper).1

variable {digits : List Char} {unit : Nat}

theorem HexNumber.lt (hdigits : HexNumber digits unit) : unit < 0x10000 := by
  obtain ⟨ha, hb, hc, hd⟩ := hdigits
  have hi := ha.lt
  have hj := hb.lt
  have hk := hc.lt
  have hl := hd.lt
  omega

theorem HexNumber.length_eq (hdigits : HexNumber digits unit) : digits.length = 4 := by
  obtain ⟨-, -, -, -⟩ := hdigits
  rfl

end Hexadecimal

theorem SimpleEscape.ne_mark {letter c : Char} (hc : SimpleEscape letter c) : letter ≠ 'u' := by
  rintro rfl
  cases hc

/-- A low surrogate is always written as an escape. -/
theorem Spells.exists_digits {low : Nat} {units : List Nat} {text : List Char}
    (hspells : Spells (low :: units) text) (hlow : Reader.isLowSurrogate low = true) :
    ∃ digits rest, text = '\\' :: 'u' :: (digits ++ rest) ∧ HexNumber digits low ∧
      Spells units rest := by
  generalize hall : low :: units = all at hspells
  cases hspells with
  | nil => cases hall
  | plain _ _ _ _ => exact absurd hlow (not_isLowSurrogate_of_unitsOf_append hall.symm)
  | simple _ _ => exact absurd hlow (not_isLowSurrogate_of_unitsOf_append hall.symm)
  | unicode hdigits hrest =>
    cases hall
    exact ⟨_, _, rfl, hdigits, hrest⟩

namespace Reader

section CodeUnits

/-- Where the digits are a run of neighbouring characters, a character's distance is its place. -/
theorem getElem?_of_run {digits : List Char} {first c : Char} {count : Nat} (place : Nat)
    (hrun : ∀ i < count, digits[i + place]? = some (Char.ofNat (first.toNat + i)))
    (hfirst : first ≤ c) (hlast : c.toNat < first.toNat + count) :
    digits[c.toNat - first.toNat + place]? = some c := by
  have hge : first.toNat ≤ c.toNat := hfirst
  rw [hrun _ (by omega), Nat.add_sub_cancel' hge, Char.ofNat_toNat]

theorem hexDigit_of_hexDigit? {c : Char} {digit : Nat} (hdigit : hexDigit? c = some digit) :
    HexDigit c digit := by
  unfold hexDigit? at hdigit
  split at hdigit
  next hrange =>
    cases hdigit
    have hlast : c.toNat < '0'.toNat + 10 := Nat.lt_succ_of_le hrange.2
    exact .inl (getElem?_of_run 0 (by decide) hrange.1 hlast)
  split at hdigit
  next hrange =>
    cases hdigit
    have hlast : c.toNat < 'a'.toNat + 6 := Nat.lt_succ_of_le hrange.2
    exact .inl (getElem?_of_run 10 (by decide) hrange.1 hlast)
  split at hdigit
  next hrange =>
    cases hdigit
    have hlast : c.toNat < 'A'.toNat + 6 := Nat.lt_succ_of_le hrange.2
    exact .inr (getElem?_of_run 10 (by decide) hrange.1 hlast)
  next => cases hdigit

theorem hexDigit?_of_hexDigit {c : Char} {digit : Nat} (hdigit : HexDigit c digit) :
    hexDigit? c = some digit := by
  have hlower : ∀ digit < 16, "0123456789abcdef".toList[digit]?.bind hexDigit? = some digit := by
    decide
  have hupper : ∀ digit < 16, "0123456789ABCDEF".toList[digit]?.bind hexDigit? = some digit := by
    decide
  rcases hdigit with hfound | hfound
  · have hread := hlower digit (HexDigit.lt (.inl hfound))
    rwa [hfound] at hread
  · have hread := hupper digit (HexDigit.lt (.inr hfound))
    rwa [hfound] at hread

theorem hexDigit?_eq_some_iff {c : Char} {digit : Nat} :
    hexDigit? c = some digit ↔ HexDigit c digit :=
  ⟨hexDigit_of_hexDigit?, hexDigit?_of_hexDigit⟩

theorem hexNumber?_eq_some_iff {digits : List Char} {unit : Nat} (hlength : digits.length = 4) :
    hexNumber? digits = some unit ↔ HexNumber digits unit := by
  constructor
  · intro hunit
    match digits, hlength with
    | [a, b, c, d], _ =>
      simp only [hexNumber?, List.foldlM_cons, List.foldlM_nil, Option.bind_eq_bind,
        Option.pure_def, Option.bind_eq_some_iff, Option.map_eq_some_iff, Option.some.injEq,
        hexDigit?_eq_some_iff] at hunit
      obtain ⟨_, ⟨i, ha, rfl⟩, _, ⟨j, hb, rfl⟩, _, ⟨k, hc, rfl⟩, _, ⟨l, hd, rfl⟩, rfl⟩ := hunit
      rw [Nat.mul_zero, Nat.zero_add]
      exact .mk ha hb hc hd
  · intro hdigits
    obtain ⟨ha, hb, hc, hd⟩ := hdigits
    rw [← hexDigit?_eq_some_iff] at ha hb hc hd
    simp [hexNumber?, ha, hb, hc, hd]

theorem length_le_foldl_utf8Size (cs : List Char) (size : Nat) :
    size + cs.length ≤ cs.foldl (fun size c => size + c.utf8Size) size := by
  induction cs generalizing size with
  | nil => exact Nat.le_refl _
  | cons c cs ih =>
    have hc := c.utf8Size_pos
    have hrest := ih (size + c.utf8Size)
    rw [List.length_cons, List.foldl_cons]
    omega

theorem exists_of_read_codeUnit {text rest : List Char} {unit : Nat}
    (hread : codeUnit.read text = .ok (unit, rest)) :
    ∃ digits, HexNumber digits unit ∧ text = digits ++ rest := by
  simp only [codeUnit] at hread
  split at hread
  next => cases hread
  next =>
    split at hread
    next => cases hread
    next hlength =>
      split at hread
      next => cases hread
      next hunit =>
        cases hread
        have htake : (text.take 4).length = 4 := by
          rw [List.length_take]
          omega
        exact ⟨text.take 4, (hexNumber?_eq_some_iff htake).mp hunit,
          (List.take_append_drop 4 text).symm⟩

theorem read_codeUnit {digits : List Char} {unit : Nat} (hdigits : HexNumber digits unit)
    (rest : List Char) : codeUnit.read (digits ++ rest) = .ok (unit, rest) := by
  have hlength := hdigits.length_eq
  have hunit := (hexNumber?_eq_some_iff hlength).mpr hdigits
  have hsize := length_le_foldl_utf8Size digits 0
  simp only [codeUnit]
  rw [List.take_left' hlength, List.drop_left' hlength, if_neg (by omega),
    if_neg (by rw [List.length_append]; omega), hunit]

end CodeUnits

theorem simpleEscape?_eq_some_iff {letter c : Char} :
    simpleEscape? letter = some c ↔ SimpleEscape letter c := by
  constructor
  · intro hescape
    unfold simpleEscape? at hescape
    split at hescape <;> cases hescape <;> constructor
  · intro hescape
    cases hescape <;> rfl

section Escapes

variable {unicode : Reader Char} {text rest before : List Char} {c : Char}

/-- What stands behind a backslash spells some code units. -/
def Escapes (units : List Nat) (part : List Char) : Prop :=
  ∀ {more : List Nat} {rest : List Char}, Spells more rest →
    Spells (units ++ more) ('\\' :: (part ++ rest))

/-- Characters stand for the code units that they are read from. -/
structure StandsFor (unicode : Reader Char) (Stands : Char → List Nat → Prop) : Prop where
  character : ∀ c, Stands c (unitsOf c)
  ofRead : ∀ {text c rest}, unicode.read text = .ok (c, rest) →
    ∃ units part, text = part ++ rest ∧ Escapes units ('u' :: part) ∧ Stands c units

theorem standsFor_looseUnicodeEscape : StandsFor looseUnicodeEscape fun _ _ => True where
  character _ := trivial
  ofRead hread := by
    obtain ⟨unit, between, hunit, hrest⟩ := exists_of_read_bind hread
    cases hrest
    obtain ⟨digits, hdigits, rfl⟩ := exists_of_read_codeUnit hunit
    exact ⟨[unit], digits, rfl, Spells.unicode hdigits, trivial⟩

theorem standsFor_unicodeEscape : StandsFor unicodeEscape fun c units => units = unitsOf c where
  character _ := rfl
  ofRead hread := by
    obtain ⟨unit, between, hunit, hvalue⟩ := exists_of_read_bind hread
    obtain ⟨digits, hdigits, rfl⟩ := exists_of_read_codeUnit hunit
    split at hvalue
    next => cases hvalue
    next hlow =>
      split at hvalue
      next hhigh =>
        -- Behind a high surrogate the escape of its partner must follow.
        obtain ⟨_, _, hbackslash, hbehind⟩ := exists_of_read_bind hvalue
        obtain ⟨_, _, hmark, hpair⟩ := exists_of_read_bind hbehind
        obtain ⟨low, after, hunit', hcharacter⟩ := exists_of_read_bind hpair
        obtain ⟨digits', hdigits', rfl⟩ := exists_of_read_codeUnit hunit'
        obtain rfl := eq_of_read_expect hmark
        obtain rfl := eq_of_read_expect hbackslash
        split at hcharacter
        next hlow' =>
          have hunits := unitsOf_pairValue hhigh hlow'
          -- Comparing the results would otherwise compute the character.
          generalize Char.ofNat (pairValue unit low) = character at hunits hcharacter
          cases hcharacter
          refine ⟨[unit, low], digits ++ '\\' :: 'u' :: digits', by simp, ?_, hunits.symm⟩
          intro more rest hrest
          have hspells := Spells.unicode hdigits (Spells.unicode hdigits' hrest)
          simpa using hspells
        next => cases hcharacter
      next hhigh =>
        cases hvalue
        exact ⟨[unit], digits, rfl, Spells.unicode hdigits,
          (unitsOf_ofNat hdigits.lt hhigh hlow).symm⟩

theorem read_unicodeEscape {digits : List Char} {unit : Nat} (hdigits : HexNumber digits unit)
    (hhigh : ¬ isHighSurrogate unit = true) (hlow : ¬ isLowSurrogate unit = true)
    (rest : List Char) :
    unicodeEscape.read (digits ++ rest) = .ok (Char.ofNat unit, rest) := by
  rw [unicodeEscape, read_bind_of_ok (read_codeUnit hdigits rest), if_neg hlow, if_neg hhigh,
    read_pure]

theorem read_unicodeEscape_of_pair {digits digits' : List Char} {high low : Nat}
    (hdigits : HexNumber digits high) (hdigits' : HexNumber digits' low)
    (hhigh : isHighSurrogate high = true) (hlow : isLowSurrogate low = true) (rest : List Char) :
    unicodeEscape.read (digits ++ '\\' :: 'u' :: (digits' ++ rest)) =
      .ok (Char.ofNat (pairValue high low), rest) := by
  have hnot : ¬ isLowSurrogate high = true := by
    rw [isHighSurrogate_iff] at hhigh
    rw [isLowSurrogate_iff]
    omega
  rw [unicodeEscape, read_bind_of_ok (read_codeUnit hdigits _), if_neg hnot, if_pos hhigh,
    read_bind_of_ok (read_expect _ _), read_bind_of_ok (read_expect _ _),
    read_bind_of_ok (read_codeUnit hdigits' _), if_pos hlow, read_pure]

theorem StandsFor.exists_of_read_escape {Stands : Char → List Nat → Prop}
    (hstands : StandsFor unicode Stands) (hread : (escape unicode).read text = .ok (c, rest)) :
    ∃ units part, text = part ++ rest ∧ Escapes units part ∧ Stands c units := by
  obtain ⟨letter, between, hletter, hvalue⟩ := exists_of_read_bind hread
  obtain rfl := eq_of_read_next hletter
  split at hvalue
  next hmark =>
    obtain ⟨units, part, rfl, hescapes, hunits⟩ := hstands.ofRead hvalue
    exact ⟨units, 'u' :: part, by rw [hmark]; rfl, hescapes, hunits⟩
  next =>
    split at hvalue
    next value hsimple =>
      cases hvalue
      have hescape := simpleEscape?_eq_some_iff.mp hsimple
      exact ⟨unitsOf c, [letter], rfl, Spells.simple hescape, hstands.character c⟩
    next => cases hvalue

theorem read_escape_of_simple {letter : Char} (hletter : SimpleEscape letter c)
    (rest : List Char) : (escape unicode).read (letter :: rest) = .ok (c, rest) := by
  have hvalue := simpleEscape?_eq_some_iff.mpr hletter
  rw [escape, read_bind_of_ok (read_next letter rest), if_neg hletter.ne_mark, hvalue]
  rfl

theorem read_escape_of_unicode (hread : unicode.read text = .ok (c, rest)) :
    (escape unicode).read ('u' :: text) = .ok (c, rest) := by
  rw [escape, read_bind_of_ok (read_next 'u' text), if_pos rfl, hread]

end Escapes

section Bodies

variable {unicode : Reader Char} {text rest before : List Char} {c : Char}

theorem readCharacters_quote (before rest : List Char) :
    readCharacters unicode before ('"' :: rest) = .ok (String.ofList before.reverse, rest) := by
  rw [readCharacters, if_pos rfl]

theorem readCharacters_escape (hread : (escape unicode).read text = .ok (c, rest)) :
    readCharacters unicode before ('\\' :: text) = readCharacters unicode (c :: before) rest := by
  rw [readCharacters, if_neg (by decide), if_pos rfl]
  split
  next herror =>
    rw [hread] at herror
    cases herror
  next hok =>
    rw [hread] at hok
    cases hok
    rfl

theorem readCharacters_plain (hcontrol : ' ' ≤ c) (hquote : c ≠ '"') (hescape : c ≠ '\\') :
    readCharacters unicode before (c :: text) = readCharacters unicode (c :: before) text := by
  rw [readCharacters, if_neg hquote, if_neg hescape, if_neg (Char.not_lt.mpr hcontrol)]

theorem StandsFor.exists_of_readCharacters {Stands : Char → List Nat → Prop} {value : String}
    (hstands : StandsFor unicode Stands)
    (hread : readCharacters unicode before text = .ok (value, rest)) :
    ∃ cs parts body, text = body ++ '"' :: rest ∧ Spells parts.flatten body ∧
      value = String.ofList (before.reverse ++ cs) ∧ List.Forall₂ Stands cs parts := by
  fun_induction readCharacters unicode before text with
  | case1 | case3 | case5 => cases hread
  | case2 before rest =>
    cases hread
    exact ⟨[], [], [], rfl, .nil, by rw [List.append_nil], .nil⟩
  | case4 before tail first tail' hescape _ ih =>
    obtain ⟨cs, parts, body, rfl, hspells, rfl, hcs⟩ := ih hread
    obtain ⟨units, part, rfl, hpart, hunits⟩ := hstands.exists_of_read_escape hescape
    exact ⟨first :: cs, units :: parts, '\\' :: (part ++ body), by simp, hpart hspells, by simp,
      .cons hunits hcs⟩
  | case6 before c tail hquote hescape hcontrol ih =>
    obtain ⟨cs, parts, body, rfl, hspells, rfl, hcs⟩ := ih hread
    exact ⟨c :: cs, unitsOf c :: parts, c :: body, by simp,
      .plain (Char.not_lt.mp hcontrol) hquote hescape hspells, by simp,
      .cons (hstands.character c) hcs⟩

/-- A loose reader takes whatever spells some code units. -/
theorem exists_readCharacters_of_spells {units : List Nat} {body : List Char}
    (hspells : Spells units body) (before rest : List Char) :
    ∃ value,
      readCharacters looseUnicodeEscape before (body ++ '"' :: rest) = .ok (value, rest) := by
  induction hspells generalizing before with
  | nil => exact ⟨_, readCharacters_quote before rest⟩
  | plain hcontrol hquote hescape _ ih =>
    rw [List.cons_append, readCharacters_plain hcontrol hquote hescape]
    exact ih _
  | simple hletter _ ih =>
    rw [List.cons_append, List.cons_append,
      readCharacters_escape (read_escape_of_simple hletter _)]
    exact ih _
  | unicode hdigits _ ih =>
    rw [List.cons_append, List.cons_append, List.append_assoc, readCharacters_escape
      (read_escape_of_unicode (read_bind_of_ok (read_codeUnit hdigits _)))]
    exact ih _

/-- What spells a character and more is read as that character and left with the rest. -/
theorem exists_readCharacters_of_unitsOf {units : List Nat} {body : List Char}
    (hspells : Spells (unitsOf c ++ units) body) :
    ∃ more, Spells units more ∧ ∀ before rest,
      readCharacters unicodeEscape before (body ++ rest) =
        readCharacters unicodeEscape (c :: before) (more ++ rest) := by
  generalize hall : unitsOf c ++ units = all at hspells
  cases hspells with
  | nil => exact absurd (List.append_eq_nil_iff.mp hall).1 (unitsOf_ne_nil c)
  | plain hcontrol hquote hescape hrest =>
    obtain ⟨rfl, rfl⟩ := unitsOf_append_inj hall
    exact ⟨_, hrest, fun _ _ => readCharacters_plain hcontrol hquote hescape⟩
  | simple hletter hrest =>
    obtain ⟨rfl, rfl⟩ := unitsOf_append_inj hall
    exact ⟨_, hrest, fun _ _ => readCharacters_escape (read_escape_of_simple hletter _)⟩
  | unicode hdigits hrest =>
    obtain ⟨unit, hunits, hc, hhigh, hlow⟩ | ⟨high, low, hunits, hc, hhigh, hlow⟩ := unitsOf_cases c
    · rw [hunits] at hall
      cases hall
      refine ⟨_, hrest, fun before rest => ?_⟩
      have hread := read_unicodeEscape hdigits hhigh hlow
      rw [← hc] at hread
      rw [List.cons_append, List.cons_append, List.append_assoc,
        readCharacters_escape (read_escape_of_unicode (hread _))]
    · rw [hunits] at hall
      cases hall
      -- Only the high surrogate is spelled; the low one is left over and must be an escape too.
      obtain ⟨digits', more, rfl, hdigits', hmore⟩ := Spells.exists_digits hrest hlow
      refine ⟨more, hmore, fun before rest => ?_⟩
      have hread := read_unicodeEscape_of_pair hdigits hdigits' hhigh hlow
      rw [← hc] at hread
      simp only [List.cons_append, List.append_assoc]
      rw [readCharacters_escape (read_escape_of_unicode (hread _))]

/-- The strict reader takes what spells characters, as those characters. -/
theorem readCharacters_of_spells {cs body : List Char} (hspells : Spells (cs.flatMap unitsOf) body)
    (before rest : List Char) :
    readCharacters unicodeEscape before (body ++ '"' :: rest) =
      .ok (String.ofList (before.reverse ++ cs), rest) := by
  induction cs generalizing body before with
  | nil =>
    generalize hall : [].flatMap unitsOf = all at hspells
    cases hspells with
    | nil => rw [List.nil_append, readCharacters_quote, List.append_nil]
    | plain _ _ _ _ =>
      exact absurd (List.append_eq_nil_iff.mp hall.symm).1 (unitsOf_ne_nil _)
    | simple _ _ => exact absurd (List.append_eq_nil_iff.mp hall.symm).1 (unitsOf_ne_nil _)
    | unicode _ _ => cases hall
  | cons c cs ih =>
    rw [List.flatMap_cons] at hspells
    obtain ⟨more, hmore, hread⟩ := exists_readCharacters_of_unitsOf hspells
    rw [hread, ih hmore, List.reverse_cons, List.append_assoc, List.singleton_append]

end Bodies

section Quoted

variable {text rest body : List Char} {value : String}

theorem exists_of_read_looseString
    (hread : (quotedString looseUnicodeEscape).read text = .ok (value, rest)) :
    ∃ units body, text = '"' :: (body ++ '"' :: rest) ∧ Spells units body := by
  obtain ⟨_, between, hquote, hbody⟩ := exists_of_read_bind hread
  obtain rfl := eq_of_read_expect hquote
  obtain ⟨_, parts, body, rfl, hspells, -, -⟩ :=
    standsFor_looseUnicodeEscape.exists_of_readCharacters hbody
  exact ⟨parts.flatten, body, rfl, hspells⟩

theorem exists_read_looseString {units : List Nat} (hspells : Spells units body)
    (rest : List Char) :
    ∃ value, (quotedString looseUnicodeEscape).read ('"' :: (body ++ '"' :: rest)) =
      .ok (value, rest) := by
  rw [quotedString, read_bind_of_ok (read_expect _ _)]
  exact exists_readCharacters_of_spells hspells [] rest

theorem exists_of_read_quotedString
    (hread : (quotedString unicodeEscape).read text = .ok (value, rest)) :
    ∃ body, text = '"' :: (body ++ '"' :: rest) ∧ Spells (codeUnits value) body := by
  obtain ⟨_, between, hquote, hbody⟩ := exists_of_read_bind hread
  obtain rfl := eq_of_read_expect hquote
  obtain ⟨cs, parts, body, rfl, hspells, rfl, hcs⟩ :=
    standsFor_unicodeEscape.exists_of_readCharacters hbody
  refine ⟨body, rfl, ?_⟩
  have hparts : parts = cs.map unitsOf := by
    rw [← List.forall₂_eq_eq_eq, List.forall₂_map_right_iff]
    exact hcs.flip
  rw [List.reverse_nil, List.nil_append, codeUnits_ofList, List.flatMap_def, ← hparts]
  exact hspells

theorem read_quotedString (hspells : Spells (codeUnits value) body) (rest : List Char) :
    (quotedString unicodeEscape).read ('"' :: (body ++ '"' :: rest)) = .ok (value, rest) := by
  rw [quotedString, read_bind_of_ok (read_expect _ _)]
  have hread := readCharacters_of_spells hspells [] rest
  rw [List.reverse_nil, List.nil_append, String.ofList_toList] at hread
  exact hread

end Quoted

end Reader

end ShiftReduce.Json
