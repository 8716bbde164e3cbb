import ShiftReduce.Json.Skip
import ShiftReduce.Proofs.Json.Tree

/-!
# What readers read

A reader reads a kind of value when it takes just the texts of those values, and answers with what
they mean. Where numbers end is told by what follows, so a text is only read in full in front of
something that can follow a value.
-/

namespace ShiftReduce.Json

section Blanks

variable {blanks text rest : List Char}

theorem isBlank_iff {c : Char} :
    Reader.isBlank c = true ↔ c = ' ' ∨ c = '\t' ∨ c = '\n' ∨ c = '\r' := by
  simp [Reader.isBlank, or_assoc]

theorem Blanks.isBlank (hblanks : Blanks blanks) : ∀ c ∈ blanks, Reader.isBlank c = true :=
  fun c hc => isBlank_iff.mpr (hblanks c hc)

theorem blanks_of_all (hall : text.all Reader.isBlank = true) : Blanks text :=
  fun c hc => isBlank_iff.mp (List.all_eq_true.mp hall c hc)

theorem blanks_nil : Blanks [] :=
  fun _ hc => absurd hc List.not_mem_nil

theorem Blanks.append {others : List Char} (hblanks : Blanks blanks) (hothers : Blanks others) :
    Blanks (blanks ++ others) := by
  intro c hc
  exact (List.mem_append.mp hc).elim (hblanks c) (hothers c)

/-- A text that does not begin with a blank has no blanks in front. -/
theorem Blanks.eq_nil_of_append_eq_cons (hblanks : Blanks blanks) {c : Char}
    (hc : Reader.isBlank c = false) {tail : List Char} (heq : blanks ++ rest = c :: tail) :
    blanks = [] := by
  cases blanks with
  | nil => rfl
  | cons b blanks =>
    have hblank := hblanks.isBlank b List.mem_cons_self
    rw [(List.cons.inj heq).1, hc] at hblank
    cases hblank

theorem exists_blanks (text : List Char) :
    ∃ blanks, Blanks blanks ∧ text = blanks ++ text.dropWhile Reader.isBlank :=
  ⟨text.takeWhile Reader.isBlank, blanks_of_all List.all_takeWhile,
    List.takeWhile_append_dropWhile.symm⟩

theorem exists_blanks_of_dropWhile (hdrop : text.dropWhile Reader.isBlank = rest) :
    ∃ blanks, Blanks blanks ∧ text = blanks ++ rest := by
  obtain ⟨blanks, hblanks, htext⟩ := exists_blanks text
  exact ⟨blanks, hblanks, by rw [← hdrop, ← htext]⟩

theorem Blanks.dropWhile_append (hblanks : Blanks blanks) (rest : List Char) :
    (blanks ++ rest).dropWhile Reader.isBlank = rest.dropWhile Reader.isBlank :=
  List.dropWhile_append_of_pos hblanks.isBlank

theorem Blanks.dropWhile_append_cons (hblanks : Blanks blanks) {c : Char}
    (hc : Reader.isBlank c = false) (rest : List Char) :
    (blanks ++ c :: rest).dropWhile Reader.isBlank = c :: rest := by
  rw [hblanks.dropWhile_append, List.dropWhile_cons_of_neg (by simp [hc])]

end Blanks

/-- A value can be followed by this: nothing, a blank, a comma or a closing bracket. -/
def Ends (rest : List Char) : Prop :=
  ∀ c ∈ rest.head?, Reader.isBlank c = true ∨ c = ',' ∨ c = ']' ∨ c = '\x7d'

theorem ends_cons {c : Char} (hc : c = ',' ∨ c = ']' ∨ c = '\x7d') (rest : List Char) :
    Ends (c :: rest) := by
  intro d hd
  obtain rfl : c = d := by simpa using hd
  exact .inr hc

theorem ends_bracket (rest : List Char) : Ends (']' :: rest) :=
  ends_cons (.inr (.inl rfl)) rest

theorem ends_brace (rest : List Char) : Ends ('\x7d' :: rest) :=
  ends_cons (.inr (.inr rfl)) rest

theorem Blanks.ends_append {blanks rest : List Char} (hblanks : Blanks blanks)
    (hrest : Ends rest) : Ends (blanks ++ rest) := by
  cases blanks with
  | nil => exact hrest
  | cons b blanks =>
    intro c hc
    obtain rfl : b = c := by simpa using hc
    exact .inl (hblanks.isBlank b List.mem_cons_self)

theorem Blanks.ends {blanks : List Char} (hblanks : Blanks blanks) : Ends blanks := by
  have hnil : Ends [] := fun c hc => by cases hc
  simpa using hblanks.ends_append hnil

theorem More.ends_append {α : Type} {Item : α → List Char → Prop} {xs : List α}
    {text rest : List Char} (hmore : More Item xs text) (hrest : Ends rest) :
    Ends (text ++ rest) := by
  cases hmore with
  | nil hblanks => exact hblanks.ends_append hrest
  | cons hblanks _ _ =>
    rw [List.append_assoc]
    exact hblanks.ends_append (ends_cons (.inl rfl) _)

/-- What the text of a value begins with. -/
def OpensValue (c : Char) : Prop :=
  c = 'n' ∨ c = 't' ∨ c = 'f' ∨ c = '"' ∨ c = '[' ∨ c = '\x7b' ∨ Reader.startsNumber c = true

theorem Number.exists_cons {text : List Char} (hnumber : Number text) :
    ∃ c rest, text = c :: rest ∧ Reader.startsNumber c = true := by
  obtain ⟨hsign, hwhole, -, -, -⟩ := hnumber
  rcases hsign with rfl | rfl
  · obtain ⟨c, whole, rfl⟩ := List.exists_cons_of_ne_nil hwhole.ne_nil
    have hdigit := hwhole.isDigit c List.mem_cons_self
    exact ⟨c, _, rfl, by simp [Reader.startsNumber, hdigit]⟩
  · exact ⟨'-', _, rfl, rfl⟩

theorem Writes.exists_cons {v : Tree} {text : List Char} (hvalue : Writes v text) :
    ∃ c rest, text = c :: rest ∧ OpensValue c := by
  cases hvalue with
  | null => exact ⟨'n', _, rfl, .inl rfl⟩
  | true => exact ⟨'t', _, rfl, .inr (.inl rfl)⟩
  | false => exact ⟨'f', _, rfl, .inr (.inr (.inl rfl))⟩
  | number hnumber =>
    obtain ⟨c, rest, rfl, hc⟩ := hnumber.exists_cons
    exact ⟨c, rest, rfl, by simp [OpensValue, hc]⟩
  | string hbody => exact ⟨'"', _, rfl, by simp [OpensValue]⟩
  | array helements => exact ⟨'[', _, rfl, by simp [OpensValue]⟩
  | object hmembers => exact ⟨'\x7b', _, rfl, by simp [OpensValue]⟩

instance (c : Char) : Decidable (OpensValue c) :=
  inferInstanceAs (Decidable (_ ∨ _))

theorem OpensValue.isBlank_eq {c : Char} (hc : OpensValue c) : Reader.isBlank c = false := by
  rw [Bool.eq_false_iff]
  intro hblank
  rw [isBlank_iff] at hblank
  rcases hblank with rfl | rfl | rfl | rfl <;> exact absurd hc (by decide)

theorem OpensValue.ne_closing {c : Char} (hc : OpensValue c) : c ≠ ']' ∧ c ≠ '\x7d' := by
  constructor <;> rintro rfl <;> exact absurd hc (by decide)

theorem Element.exists_dropWhile {v : Tree} {element : List Char}
    (helement : Element Writes v element) :
    ∃ c tail, OpensValue c ∧
      ∀ rest, (element ++ rest).dropWhile Reader.isBlank = c :: (tail ++ rest) := by
  obtain ⟨hblanks, hvalue⟩ := helement
  obtain ⟨c, tail, rfl, hc⟩ := hvalue.exists_cons
  refine ⟨c, tail, hc, fun rest => ?_⟩
  rw [List.append_assoc, List.cons_append, hblanks.dropWhile_append_cons hc.isBlank_eq]

namespace Reader

variable {α β : Type}

theorem exists_of_read_bind {reader : Reader α} {next : α → Reader β} {text rest : List Char}
    {value : β} (hread : (reader >>= next).read text = .ok (value, rest)) :
    ∃ first between, reader.read text = .ok (first, between) ∧
      (next first).read between = .ok (value, rest) := by
  rw [read_bind] at hread
  split at hread
  next => cases hread
  next first between hfirst => exact ⟨first, between, hfirst, hread⟩

theorem read_bind_of_ok {reader : Reader α} {next : α → Reader β} {text between : List Char}
    {first : α} (hread : reader.read text = .ok (first, between)) :
    (reader >>= next).read text = (next first).read between := by
  rw [read_bind, hread]

theorem read_discard_of_ok {reader : Reader α} {text rest : List Char} {value : α}
    (hread : reader.read text = .ok (value, rest)) : (discard reader).read text = .ok ((), rest) :=
  read_bind_of_ok hread

theorem exists_of_read_discard {reader : Reader α} {text rest : List Char} {u : Unit}
    (hread : (discard reader).read text = .ok (u, rest)) :
    ∃ value, reader.read text = .ok (value, rest) := by
  obtain ⟨value, between, hvalue, hrest⟩ := exists_of_read_bind hread
  cases hrest
  exact ⟨value, hvalue⟩

theorem read_bind_peek (next : Option Char → Reader β) (text : List Char) :
    (peek >>= next).read text = (next text.head?).read text := rfl

theorem read_bind_skip (next : Unit → Reader β) (c : Char) (text : List Char) :
    (skip >>= next).read (c :: text) = (next ()).read text := rfl

theorem read_bind_skipBlanks (next : Unit → Reader β) (text : List Char) :
    (skipBlanks >>= next).read text = (next ()).read (text.dropWhile isBlank) := rfl

theorem read_next (c : Char) (rest : List Char) : next.read (c :: rest) = .ok (c, rest) := rfl

theorem read_expect (c : Char) (rest : List Char) :
    (expect c).read (c :: rest) = .ok ((), rest) := by
  rw [expect, read_bind_of_ok (read_next c rest), if_neg fun hne => hne rfl]
  rfl

theorem eq_of_read_next {c : Char} {text rest : List Char}
    (hread : next.read text = .ok (c, rest)) : text = c :: rest := by
  cases text with
  | nil => cases hread
  | cons d text =>
    cases hread
    rfl

theorem eq_of_read_expect {c : Char} {text rest : List Char} {u : Unit}
    (hread : (expect c).read text = .ok (u, rest)) : text = c :: rest := by
  obtain ⟨first, between, hfirst, hrest⟩ := exists_of_read_bind hread
  obtain rfl := eq_of_read_next hfirst
  split at hrest
  next => cases hrest
  next heq =>
    cases hrest
    rw [Decidable.of_not_not heq]

theorem read_expectAll (cs rest : List Char) :
    (expectAll cs).read (cs ++ rest) = .ok ((), rest) := by
  induction cs with
  | nil => rfl
  | cons c cs ih => rw [expectAll, List.cons_append, read_bind_of_ok (read_expect c _), ih]

theorem eq_of_read_expectAll {cs text rest : List Char} {u : Unit}
    (hread : (expectAll cs).read text = .ok (u, rest)) : text = cs ++ rest := by
  induction cs generalizing text with
  | nil =>
    cases hread
    rfl
  | cons c cs ih =>
    obtain ⟨_, between, hfirst, hread⟩ := exists_of_read_bind hread
    rw [eq_of_read_expect hfirst, ih hread]
    rfl

/-- A reader takes just the texts of the values that mean something, as what they mean. -/
structure Reads (reader : Reader α) (Means : Tree → α → Prop) : Prop where
  sound : ∀ {text value rest}, reader.read text = .ok (value, rest) →
    ∃ v element, Element Writes v element ∧ text = element ++ rest ∧ Means v value
  complete : ∀ {v element value rest}, Element Writes v element → Means v value → Ends rest →
    reader.read (element ++ rest) = .ok (value, rest)

/-- A whole text is read if it is that of a value that means something. -/
theorem Reads.run_eq_ok_iff {reader : Reader α} {Means : Tree → α → Prop}
    (hreads : Reads reader Means) {text : List Char} {value : α} :
    reader.run text = .ok value ↔ ∃ v, IsTextOf text v ∧ Means v value := by
  constructor
  · intro hrun
    rw [run] at hrun
    split at hrun
    next => cases hrun
    next value rest hread =>
      split at hrun
      next hblank =>
        cases hrun
        obtain ⟨v, _, ⟨hbefore, hbody⟩, rfl, hmeans⟩ := hreads.sound hread
        exact ⟨v, ⟨_, _, rest, List.append_assoc .., hbefore, hbody, blanks_of_all hblank⟩, hmeans⟩
      next => cases hrun
  · rintro ⟨v, ⟨before, body, after, rfl, hbefore, hbody, hafter⟩, hmeans⟩
    have hread := hreads.complete (.mk hbefore hbody) hmeans hafter.ends
    rw [run, ← List.append_assoc, hread]
    exact if_pos (List.all_eq_true.mpr hafter.isBlank)

end Reader

end ShiftReduce.Json
