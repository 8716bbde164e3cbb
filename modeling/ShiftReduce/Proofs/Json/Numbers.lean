import ShiftReduce.Proofs.Json.Reading

/-!
# Reading numbers

A number ends where the longest runs of digits end, so each of its parts is read in full in front of
whatever cannot go on with it.
-/

namespace ShiftReduce.Json

/-- The text does not begin with a character of the class. -/
def Lacks (p : Char → Bool) (text : List Char) : Prop :=
  ∀ c ∈ text.head?, p c = false

/-- The characters that are part of a number, apart from signs. -/
def isNumeric (c : Char) : Bool :=
  c.isDigit || c == '.' || Reader.isExponentMark c

section Lacks

variable {p : Char → Bool} {c : Char} {text rest : List Char}

theorem lacks_cons (hc : p c = false) (text : List Char) : Lacks p (c :: text) := by
  intro d hd
  obtain rfl : c = d := by simpa using hd
  exact hc

theorem Lacks.dropWhile_eq (hlacks : Lacks p text) : text.dropWhile p = text := by
  cases text with
  | nil => rfl
  | cons c text => rw [List.dropWhile_cons_of_neg (by rw [hlacks c rfl]; exact Bool.false_ne_true)]

theorem Lacks.takeWhile_eq (hlacks : Lacks p text) : text.takeWhile p = [] := by
  cases text with
  | nil => rfl
  | cons c text => rw [List.takeWhile_cons_of_neg (by rw [hlacks c rfl]; exact Bool.false_ne_true)]

theorem Ends.lacks_isNumeric (hends : Ends rest) : Lacks isNumeric rest := by
  intro c hc
  obtain hblank | rfl | rfl | rfl := hends c hc
  · rw [isBlank_iff] at hblank
    rcases hblank with rfl | rfl | rfl | rfl <;> decide
  · decide
  · decide
  · decide

theorem Lacks.isDigit (hlacks : Lacks isNumeric rest) : Lacks Char.isDigit rest := by
  intro c hc
  have hnumeric := hlacks c hc
  simp only [isNumeric, Bool.or_eq_false_iff] at hnumeric
  exact hnumeric.1.1

theorem Digits.head?_ne_sign (hdigits : Digits text) (rest : List Char) :
    (text ++ rest).head? ≠ some '+' ∧ (text ++ rest).head? ≠ some '-' := by
  obtain ⟨digit, tail, rfl⟩ := List.exists_cons_of_ne_nil hdigits.ne_nil
  have hdigit := hdigits.isDigit digit List.mem_cons_self
  constructor <;>
  · intro hhead
    obtain rfl := Option.some.inj hhead
    revert hdigit
    decide

theorem Exponent.lacks_isDigit (hexponent : Exponent text) (hlacks : Lacks isNumeric rest) :
    Lacks Char.isDigit (text ++ rest) := by
  cases hexponent with
  | absent => exact hlacks.isDigit
  | present hmark _ _ =>
    refine lacks_cons ?_ _
    rcases hmark with rfl | rfl <;> decide

theorem Exponent.head?_ne_point (hexponent : Exponent text) (hlacks : Lacks isNumeric rest) :
    (text ++ rest).head? ≠ some '.' := by
  intro hhead
  cases hexponent with
  | absent =>
    have hpoint := hlacks '.' hhead
    revert hpoint
    decide
  | present hmark _ _ =>
    obtain rfl := Option.some.inj hhead
    rcases hmark with hmark | hmark <;> cases hmark

theorem Fraction.lacks_isDigit (hfraction : Fraction text) (hrest : Lacks Char.isDigit rest) :
    Lacks Char.isDigit (text ++ rest) := by
  cases hfraction with
  | absent => exact hrest
  | present _ => exact lacks_cons (by decide) _

end Lacks

namespace Reader

variable {α β : Type} {atEnd : DecodeError} {text rest : List Char}

theorem read_takeWhile (p : Char → Bool) (text : List Char) :
    (takeWhile p).read text = .ok (text.takeWhile p, text.dropWhile p) := rfl

section Sound

theorem exists_of_read_digits {run : List Char}
    (hread : (digits atEnd).read text = .ok (run, rest)) : text = run ++ rest ∧ Digits run := by
  obtain ⟨taken, between, htaken, hread⟩ := exists_of_read_bind hread
  cases htaken
  split at hread
  next =>
    rw [read_bind_peek] at hread
    split at hread <;> cases hread
  next hempty =>
    cases hread
    refine ⟨List.takeWhile_append_dropWhile.symm, ?_, List.all_eq_true.mp List.all_takeWhile⟩
    rwa [List.isEmpty_iff] at hempty

theorem exists_of_read_wholeDigits {run : List Char}
    (hread : (wholeDigits atEnd).read text = .ok (run, rest)) :
    text = run ++ rest ∧ Digits run ∧ (run.head? = some '0' → run = ['0']) := by
  obtain ⟨taken, between, htaken, hread⟩ := exists_of_read_bind hread
  obtain ⟨htext, hdigits⟩ := exists_of_read_digits htaken
  split at hread
  next => cases hread
  next hzero =>
    cases hread
    refine ⟨htext, hdigits, fun hhead => ?_⟩
    cases run with
    | nil => cases hhead
    | cons c run =>
      obtain rfl := Option.some.inj hhead
      have hlength : ¬ ('0' :: run).length > 1 := fun hlong => hzero ⟨rfl, hlong⟩
      rw [List.length_cons] at hlength
      obtain rfl : run = [] := List.eq_nil_of_length_eq_zero (by omega)
      rfl

theorem exists_of_read_fractionDigits {fraction : Option (List Char)}
    (hread : (fractionDigits atEnd).read text = .ok (fraction, rest)) :
    ∃ part, text = part ++ rest ∧ Fraction part := by
  rw [fractionDigits, read_bind_peek] at hread
  split at hread
  next hpoint =>
    obtain ⟨tail, rfl⟩ := List.head?_eq_some_iff.mp hpoint
    rw [read_bind_skip] at hread
    obtain ⟨run, between, hrun, hread⟩ := exists_of_read_bind hread
    cases hread
    obtain ⟨rfl, hdigits⟩ := exists_of_read_digits hrun
    exact ⟨'.' :: run, rfl, .present hdigits⟩
  next =>
    cases hread
    exact ⟨[], rfl, .absent⟩

/-- A sign is taken if there is one. -/
theorem exists_of_read_sign {p : Option Char → Prop} [DecidablePred p] {next : Unit → Reader β}
    {value : β} (hnone : ¬ p none)
    (hread : (if p text.head? then skip >>= next else next ()).read text = .ok (value, rest)) :
    ∃ sign unsigned, text = sign ++ unsigned ∧ (sign = [] ∨ ∃ c, sign = [c] ∧ p (some c)) ∧
      (next ()).read unsigned = .ok (value, rest) := by
  split at hread
  next hsign =>
    cases text with
    | nil => exact absurd hsign hnone
    | cons c text => exact ⟨[c], text, rfl, .inr ⟨c, rfl, hsign⟩, hread⟩
  next => exact ⟨[], text, rfl, .inl rfl, hread⟩

theorem exists_of_read_exponentDigits {exponent : Option (Bool × List Char)}
    (hread : (exponentDigits atEnd).read text = .ok (exponent, rest)) :
    ∃ part, text = part ++ rest ∧ Exponent part := by
  rw [exponentDigits, read_bind_peek] at hread
  split at hread
  next hmark =>
    obtain ⟨mark, hhead, heither⟩ := (Option.any_eq_true _ _).mp hmark
    obtain ⟨tail, rfl⟩ := List.head?_eq_some_iff.mp hhead
    have heither : mark = 'e' ∨ mark = 'E' := by simpa [isExponentMark] using heither
    rw [read_bind_skip, read_bind_peek] at hread
    obtain ⟨sign, unsigned, rfl, hsign, hunsigned⟩ :=
      exists_of_read_sign (p := fun c => c = some '+' ∨ c = some '-') (by simp) hread
    obtain ⟨run, between, hrun, hexponent⟩ := exists_of_read_bind hunsigned
    cases hexponent
    obtain ⟨rfl, hdigits⟩ := exists_of_read_digits hrun
    have hsign : sign = [] ∨ sign = ['+'] ∨ sign = ['-'] := by
      simpa [and_or_left, exists_or] using hsign
    exact ⟨mark :: (sign ++ run), by simp, .present heither hsign hdigits⟩
  next =>
    cases hread
    exact ⟨[], rfl, .absent⟩

theorem exists_of_read_numberText {number : NumberText}
    (hread : (numberText atEnd).read text = .ok (number, rest)) :
    ∃ part, text = part ++ rest ∧ Number part := by
  rw [numberText, read_bind_peek] at hread
  obtain ⟨sign, unsigned, rfl, hsign, hunsigned⟩ :=
    exists_of_read_sign (p := fun c => c = some '-') (by simp) hread
  have hsign : sign = [] ∨ sign = ['-'] := by simpa using hsign
  obtain ⟨whole, _, hwholeRead, hbehindWhole⟩ := exists_of_read_bind hunsigned
  obtain ⟨_, _, hfractionRead, hbehindFraction⟩ := exists_of_read_bind hbehindWhole
  obtain ⟨_, _, hexponentRead, hvalue⟩ := exists_of_read_bind hbehindFraction
  cases hvalue
  obtain ⟨exponent, rfl, hexponent⟩ := exists_of_read_exponentDigits hexponentRead
  obtain ⟨fraction, rfl, hfraction⟩ := exists_of_read_fractionDigits hfractionRead
  obtain ⟨rfl, hwhole, hzero⟩ := exists_of_read_wholeDigits hwholeRead
  exact ⟨sign ++ (whole ++ (fraction ++ exponent)), by simp,
    .mk hsign hwhole hzero hfraction hexponent⟩

end Sound

section Complete

variable {part : List Char} (atEnd)

theorem read_digits {run : List Char} (hdigits : Digits run) (hrest : Lacks Char.isDigit rest) :
    (digits atEnd).read (run ++ rest) = .ok (run, rest) := by
  have htake : (run ++ rest).takeWhile Char.isDigit = run := by
    rw [List.takeWhile_append_of_pos hdigits.isDigit, hrest.takeWhile_eq, List.append_nil]
  have hdrop : (run ++ rest).dropWhile Char.isDigit = rest := by
    rw [List.dropWhile_append_of_pos hdigits.isDigit, hrest.dropWhile_eq]
  have hread : (takeWhile Char.isDigit).read (run ++ rest) = .ok (run, rest) := by
    rw [read_takeWhile, htake, hdrop]
  rw [digits, read_bind_of_ok hread, if_neg (by rw [List.isEmpty_iff]; exact hdigits.ne_nil),
    read_pure]

theorem read_wholeDigits {run : List Char} (hdigits : Digits run)
    (hzero : run.head? = some '0' → run = ['0']) (hrest : Lacks Char.isDigit rest) :
    (wholeDigits atEnd).read (run ++ rest) = .ok (run, rest) := by
  have hlong : ¬ (run.head? = some '0' ∧ run.length > 1) := by
    rintro ⟨hhead, hlength⟩
    rw [hzero hhead] at hlength
    exact Nat.lt_irrefl 1 hlength
  rw [wholeDigits, read_bind_of_ok (read_digits atEnd hdigits hrest), if_neg hlong, read_pure]

theorem exists_read_fractionDigits (hfraction : Fraction part) (hdigit : Lacks Char.isDigit rest)
    (hpoint : rest.head? ≠ some '.') :
    ∃ fraction, (fractionDigits atEnd).read (part ++ rest) = .ok (fraction, rest) := by
  rw [fractionDigits, read_bind_peek]
  cases hfraction with
  | absent =>
    rw [List.nil_append, if_neg hpoint]
    exact ⟨none, rfl⟩
  | present hdigits =>
    rw [List.cons_append, List.head?_cons, if_pos rfl, read_bind_skip,
      read_bind_of_ok (read_digits atEnd hdigits hdigit)]
    exact ⟨_, rfl⟩

theorem exists_read_exponentDigits (hexponent : Exponent part) (hrest : Lacks isNumeric rest) :
    ∃ exponent, (exponentDigits atEnd).read (part ++ rest) = .ok (exponent, rest) := by
  rw [exponentDigits, read_bind_peek]
  cases hexponent with
  | absent =>
    have hmark : ¬ rest.head?.any isExponentMark = true := by
      rw [Option.any_eq_true]
      rintro ⟨c, hc, hmark⟩
      have hnumeric := hrest c hc
      simp [isNumeric, hmark] at hnumeric
    rw [List.nil_append, if_neg hmark]
    exact ⟨none, rfl⟩
  | @present mark sign digits hmark hsign hdigits =>
    have hmark : isExponentMark mark = true := by
      rcases hmark with rfl | rfl <;> rfl
    rw [List.cons_append, List.head?_cons, Option.any_some, if_pos hmark, read_bind_skip,
      read_bind_peek, List.append_assoc]
    have hread := read_digits atEnd hdigits hrest.isDigit
    rcases hsign with rfl | rfl | rfl
    · have hsign := hdigits.head?_ne_sign rest
      rw [List.nil_append, if_neg (not_or.mpr hsign)]
      exact ⟨_, read_bind_of_ok hread⟩
    · rw [if_pos (.inl rfl), List.singleton_append, read_bind_skip]
      exact ⟨_, read_bind_of_ok hread⟩
    · rw [if_pos (.inr rfl), List.singleton_append, read_bind_skip]
      exact ⟨_, read_bind_of_ok hread⟩

/-- A number is read in full in front of whatever cannot go on with it. -/
theorem exists_read_numberText (hnumber : Number part) (hends : Ends rest) :
    ∃ number, (numberText atEnd).read (part ++ rest) = .ok (number, rest) := by
  obtain ⟨hsign, hwhole, hzero, hfraction, hexponent⟩ := hnumber
  have hlacks := hends.lacks_isNumeric
  obtain ⟨_, hexponentRead⟩ := exists_read_exponentDigits atEnd hexponent hlacks
  obtain ⟨_, hfractionRead⟩ := exists_read_fractionDigits atEnd hfraction
    (hexponent.lacks_isDigit hlacks) (hexponent.head?_ne_point hlacks)
  have hwholeRead := read_wholeDigits atEnd hwhole hzero
    (hfraction.lacks_isDigit (hexponent.lacks_isDigit hlacks))
  rw [numberText, read_bind_peek]
  simp only [List.append_assoc]
  rcases hsign with rfl | rfl
  · rw [List.nil_append, if_neg (hwhole.head?_ne_sign _).2, read_bind_of_ok hwholeRead,
      read_bind_of_ok hfractionRead, read_bind_of_ok hexponentRead]
    exact ⟨_, rfl⟩
  · rw [List.singleton_append, List.head?_cons, if_pos rfl, read_bind_skip,
      read_bind_of_ok hwholeRead, read_bind_of_ok hfractionRead, read_bind_of_ok hexponentRead]
    exact ⟨_, rfl⟩

end Complete

end Reader

end ShiftReduce.Json
