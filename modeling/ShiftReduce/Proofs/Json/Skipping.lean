import ShiftReduce.Proofs.Json.Numbers
import ShiftReduce.Proofs.Json.Strings

/-!
# Passing over values

Passing over a value takes its text and nothing else, whatever the value is. What is left to take
while brackets are open is what closes them.
-/

namespace ShiftReduce.Json

/-- What closes the open brackets, the innermost first. -/
inductive Closes : List Bracket → List Char → Prop
  | nil : Closes [] []
  | array {elements : List Tree} {outer : List Bracket} {text rest : List Char}
      (hmore : More (Element Writes) elements text) (hrest : Closes outer rest) :
      Closes (.array :: outer) (text ++ ']' :: rest)
  | object {members : List (List Nat × Tree)} {outer : List Bracket} {text rest : List Char}
      (hmore : More (Member Writes) members text) (hrest : Closes outer rest) :
      Closes (.object :: outer) (text ++ '\x7d' :: rest)

namespace Reader

variable {text rest : List Char}

section Scalars

theorem exists_of_read_skipScalar {u : Unit} (hread : skipScalar.read text = .ok (u, rest)) :
    ∃ v part, text = part ++ rest ∧ Writes v part := by
  rw [skipScalar, read_bind_peek] at hread
  cases text with
  | nil => cases hread
  | cons c tail =>
    simp only [List.head?_cons] at hread
    split at hread
    next => exact ⟨_, _, eq_of_read_expectAll hread, .null⟩
    split at hread
    next => exact ⟨_, _, eq_of_read_expectAll hread, .true⟩
    split at hread
    next => exact ⟨_, _, eq_of_read_expectAll hread, .false⟩
    split at hread
    next =>
      obtain ⟨_, hstring⟩ := exists_of_read_discard hread
      obtain ⟨units, body, htext, hspells⟩ := exists_of_read_looseString hstring
      exact ⟨_, '"' :: (body ++ ['"']), by simp [htext], .string hspells⟩
    split at hread
    next =>
      obtain ⟨_, hnumber⟩ := exists_of_read_discard hread
      obtain ⟨part, htext, hpart⟩ := exists_of_read_numberText hnumber
      exact ⟨_, part, htext, .number hpart⟩
    next => cases hread

theorem read_skipScalar_number (hnumber : Number text) (hends : Ends rest) :
    skipScalar.read (text ++ rest) = .ok ((), rest) := by
  obtain ⟨number, hread⟩ := exists_read_numberText .malformed hnumber hends
  obtain ⟨c, tail, rfl, hc⟩ := hnumber.exists_cons
  have hn : c ≠ 'n' := by rintro rfl; cases hc
  have ht : c ≠ 't' := by rintro rfl; cases hc
  have hf : c ≠ 'f' := by rintro rfl; cases hc
  have hquote : c ≠ '"' := by rintro rfl; cases hc
  rw [skipScalar, read_bind_peek, List.cons_append, List.head?_cons]
  dsimp only
  rw [if_neg hn, if_neg ht, if_neg hf, if_neg hquote, if_pos hc]
  exact read_discard_of_ok hread

theorem read_skipScalar_string {units : List Nat} {body : List Char} (hspells : Spells units body)
    (rest : List Char) : skipScalar.read ('"' :: (body ++ '"' :: rest)) = .ok ((), rest) := by
  obtain ⟨value, hread⟩ := exists_read_looseString hspells rest
  exact read_discard_of_ok hread

end Scalars

section Keys

theorem exists_of_read_skipKey {u : Unit} (hread : skipKey.read text = .ok (u, rest)) :
    ∃ units key, text = key ++ rest ∧
      ∀ {v element}, Element Writes v element → Member Writes (units, v) (key ++ element) := by
  rw [skipKey, read_bind_skipBlanks] at hread
  obtain ⟨_, between, hdiscard, hcolon⟩ := exists_of_read_bind hread
  obtain ⟨_, hstring⟩ := exists_of_read_discard hdiscard
  obtain ⟨units, body, hfront, hspells⟩ := exists_of_read_looseString hstring
  rw [read_bind_skipBlanks] at hcolon
  obtain ⟨middle, hmiddle, rfl⟩ := exists_blanks_of_dropWhile (eq_of_read_expect hcolon)
  obtain ⟨blanks, hblanks, rfl⟩ := exists_blanks_of_dropWhile hfront
  refine ⟨units, blanks ++ '"' :: (body ++ '"' :: (middle ++ [':'])), by simp, ?_⟩
  intro v element helement
  have hmember := Member.mk hblanks hspells hmiddle helement
  simpa using hmember

theorem read_skipKey {units : List Nat} {blanks key middle : List Char} (hblanks : Blanks blanks)
    (hkey : Spells units key) (hmiddle : Blanks middle) (rest : List Char) :
    skipKey.read (blanks ++ '"' :: (key ++ '"' :: (middle ++ ':' :: rest))) = .ok ((), rest) := by
  obtain ⟨value, hread⟩ := exists_read_looseString hkey (middle ++ ':' :: rest)
  rw [skipKey, read_bind_skipBlanks, hblanks.dropWhile_append_cons rfl,
    read_bind_of_ok (read_discard_of_ok hread), read_bind_skipBlanks,
    hmiddle.dropWhile_append_cons rfl, read_expect]

end Keys

section Sound

/-- What has been passed over from a phase on, with some brackets open. -/
def Skipped (phase : SkipPhase) (opened : List Bracket) (part : List Char) : Prop :=
  match phase with
  | .value => ∃ v element closing, part = element ++ closing ∧ Element Writes v element ∧
      Closes opened closing
  | .afterValue => Closes opened part

theorem exists_of_skipFrom {phase : SkipPhase} {opened : List Bracket}
    (hskip : skipFrom phase opened text = .ok rest) :
    ∃ part, text = part ++ rest ∧ Skipped phase opened part := by
  fun_induction skipFrom phase opened text with
  | case1 | case2 | case5 | case7 | case9 | case12 | case15 | case17 => cases hskip
  | case3 opened text tail later hopen hclose ih =>
    obtain ⟨closing, rfl, hcloses⟩ := ih hskip
    obtain ⟨blanks, hblanks, rfl⟩ := exists_blanks_of_dropWhile hopen
    obtain ⟨inner, hinner, rfl⟩ := exists_blanks_of_dropWhile hclose
    exact ⟨_, by simp, _, _, closing, rfl, .mk hblanks (.array (.nil hinner)), hcloses⟩
  | case4 opened text tail d later hinner _ hopen ih =>
    obtain ⟨_, rfl, v, element, closing, rfl, helement, hcloses⟩ := ih hskip
    obtain ⟨blanks, hblanks, rfl⟩ := exists_blanks_of_dropWhile hopen
    -- What closes the new bracket is the end of this array; only the rest closes the others.
    cases hcloses with
    | array hmore hrest =>
      exact ⟨_, by simp, _, _, _, rfl, .mk hblanks (.array (.cons helement hmore)), hrest⟩
  | case6 opened text tail later hopen _ hclose ih =>
    obtain ⟨closing, rfl, hcloses⟩ := ih hskip
    obtain ⟨blanks, hblanks, rfl⟩ := exists_blanks_of_dropWhile hopen
    obtain ⟨inner, hinner, rfl⟩ := exists_blanks_of_dropWhile hclose
    exact ⟨_, by simp, _, _, closing, rfl, .mk hblanks (.object (.nil hinner)), hcloses⟩
  | case8 opened text tail d later hinner _ _ rest' hkey hopen _ ih =>
    obtain ⟨_, rfl, v, element, closing, rfl, helement, hcloses⟩ := ih hskip
    obtain ⟨units, key, rfl, hmember⟩ := exists_of_read_skipKey hkey
    obtain ⟨blanks, hblanks, rfl⟩ := exists_blanks_of_dropWhile hopen
    cases hcloses with
    | object hmore hrest =>
      have hobject := Writes.object (.cons (hmember helement) hmore)
      exact ⟨_, by simp, _, _, _, rfl, .mk hblanks hobject, hrest⟩
  | case10 opened text c tail hfront _ _ _ rest' hscalar ih =>
    obtain ⟨closing, rfl, hcloses⟩ := ih hskip
    obtain ⟨v, scalar, htail, hvalue⟩ := exists_of_read_skipScalar hscalar
    obtain ⟨blanks, hblanks, rfl⟩ := exists_blanks_of_dropWhile hfront
    exact ⟨_, by simp [htail], v, _, closing, rfl, .mk hblanks hvalue, hcloses⟩
  | case11 =>
    cases hskip
    exact ⟨[], rfl, .nil⟩
  | case13 text bracket outer tail hclose ih =>
    obtain ⟨closing, rfl, hcloses⟩ := ih hskip
    obtain ⟨blanks, hblanks, rfl⟩ := exists_blanks_of_dropWhile hclose
    cases bracket with
    | array => exact ⟨_, by simp [Bracket.closing], .array (.nil hblanks) hcloses⟩
    | object => exact ⟨_, by simp [Bracket.closing], .object (.nil hblanks) hcloses⟩
  | case14 text outer tail hcomma _ ih =>
    obtain ⟨_, rfl, v, element, closing, rfl, helement, hcloses⟩ := ih hskip
    obtain ⟨blanks, hblanks, rfl⟩ := exists_blanks_of_dropWhile hcomma
    cases hcloses with
    | array hmore hrest => exact ⟨_, by simp, .array (.cons hblanks helement hmore) hrest⟩
  | case16 text outer tail _ rest' hkey hcomma _ ih =>
    obtain ⟨_, rfl, v, element, closing, rfl, helement, hcloses⟩ := ih hskip
    obtain ⟨units, key, rfl, hmember⟩ := exists_of_read_skipKey hkey
    obtain ⟨blanks, hblanks, rfl⟩ := exists_blanks_of_dropWhile hcomma
    cases hcloses with
    | object hmore hrest =>
      exact ⟨_, by simp, .object (.cons hblanks (hmember helement) hmore) hrest⟩

end Sound

section Steps

variable {opened outer : List Bracket} {later : List Char} {c : Char}

theorem skipFrom_emptyArray (hopen : text.dropWhile isBlank = '[' :: rest)
    (hclose : rest.dropWhile isBlank = ']' :: later) :
    skipFrom .value opened text = skipFrom .afterValue opened later := by
  grind [skipFrom]

theorem skipFrom_array (hopen : text.dropWhile isBlank = '[' :: rest)
    (hinner : rest.dropWhile isBlank = c :: later) (hc : c ≠ ']') :
    skipFrom .value opened text = skipFrom .value (.array :: opened) rest := by
  grind [skipFrom]

theorem skipFrom_emptyObject (hopen : text.dropWhile isBlank = '\x7b' :: rest)
    (hclose : rest.dropWhile isBlank = '\x7d' :: later) :
    skipFrom .value opened text = skipFrom .afterValue opened later := by
  grind [skipFrom]

theorem skipFrom_object (hopen : text.dropWhile isBlank = '\x7b' :: rest)
    (hinner : rest.dropWhile isBlank = c :: later) (hc : c ≠ '\x7d') {behind : List Char}
    (hkey : skipKey.read rest = .ok ((), behind)) :
    skipFrom .value opened text = skipFrom .value (.object :: opened) behind := by
  grind [skipFrom]

theorem skipFrom_scalar (hfront : text.dropWhile isBlank = c :: rest) (harray : c ≠ '[')
    (hobject : c ≠ '\x7b') (hscalar : skipScalar.read (c :: rest) = .ok ((), later)) :
    skipFrom .value opened text = skipFrom .afterValue opened later := by
  grind [skipFrom]

theorem skipFrom_closing {bracket : Bracket}
    (hclose : text.dropWhile isBlank = bracket.closing :: rest) :
    skipFrom .afterValue (bracket :: outer) text = skipFrom .afterValue outer rest := by
  grind [skipFrom]

theorem skipFrom_arrayComma (hcomma : text.dropWhile isBlank = ',' :: rest) :
    skipFrom .afterValue (.array :: outer) text = skipFrom .value (.array :: outer) rest := by
  grind [skipFrom, Bracket.closing]

theorem skipFrom_objectComma (hcomma : text.dropWhile isBlank = ',' :: rest)
    (hkey : skipKey.read rest = .ok ((), later)) :
    skipFrom .afterValue (.object :: outer) text = skipFrom .value (.object :: outer) later := by
  grind [skipFrom, Bracket.closing]

end Steps

section Complete

/-- Passing over the value leaves what follows it. -/
def Passes (v : Tree) : Prop :=
  ∀ (element : List Char) (opened : List Bracket) (rest : List Char), Element Writes v element →
    Ends rest → skipFrom .value opened (element ++ rest) = skipFrom .afterValue opened rest

variable {v : Tree} {elements : List Tree} {members : List (List Nat × Tree)}

theorem passes_of_scalar (hscalar : ∀ {part rest}, Writes v part → Ends rest →
      skipScalar.read (part ++ rest) = .ok ((), rest))
    (hfirst : ∀ {part}, Writes v part → part.head? ≠ some '[' ∧ part.head? ≠ some '\x7b') :
    Passes v := by
  intro element opened rest helement hends
  obtain ⟨hblanks, hvalue⟩ := helement
  have hread := hscalar hvalue hends
  obtain ⟨harray, hobject⟩ := hfirst hvalue
  obtain ⟨c, tail, rfl, hc⟩ := hvalue.exists_cons
  rw [List.append_assoc]
  refine skipFrom_scalar (hblanks.dropWhile_append_cons hc.isBlank_eq _) ?_ ?_ hread
  · rintro rfl
    exact harray rfl
  · rintro rfl
    exact hobject rfl

theorem passes_null : Passes .null := by
  refine passes_of_scalar (fun hvalue _ => ?_) (fun hvalue => ?_)
  · cases hvalue
    exact read_expectAll nullLiteral _
  · cases hvalue
    decide

theorem passes_boolean (b : Bool) : Passes (.boolean b) := by
  refine passes_of_scalar (fun hvalue _ => ?_) (fun hvalue => ?_)
  · cases hvalue with
    | true => exact read_expectAll trueLiteral _
    | false => exact read_expectAll falseLiteral _
  · cases hvalue <;> decide

theorem passes_number (digits : List Char) : Passes (.number digits) := by
  refine passes_of_scalar (fun hvalue hends => ?_) (fun hvalue => ?_)
  · cases hvalue with
    | number hnumber => exact read_skipScalar_number hnumber hends
  · cases hvalue with
    | number hnumber =>
      obtain ⟨c, tail, rfl, hc⟩ := hnumber.exists_cons
      constructor <;>
      · intro hhead
        obtain rfl := Option.some.inj hhead
        cases hc

theorem passes_string (units : List Nat) : Passes (.string units) := by
  refine passes_of_scalar (fun hvalue _ => ?_) (fun hvalue => ?_)
  · cases hvalue with
    | string hspells =>
      have hread := read_skipScalar_string hspells
      simpa using hread _
  · cases hvalue with
    | string hspells => constructor <;> exact fun hhead => by cases hhead

theorem skipFrom_moreElements {more : List Char} (hmore : More (Element Writes) elements more)
    (hpasses : ∀ v ∈ elements, Passes v) (outer : List Bracket) (rest : List Char) :
    skipFrom .afterValue (.array :: outer) (more ++ ']' :: rest) =
      skipFrom .afterValue outer rest := by
  induction hmore with
  | nil hblanks =>
    have hclose := hblanks.dropWhile_append_cons (c := ']') rfl rest
    exact skipFrom_closing hclose
  | cons hblanks hitem hmore ih =>
    have hends := hmore.ends_append (ends_bracket rest)
    simp only [List.append_assoc, List.cons_append]
    rw [skipFrom_arrayComma (hblanks.dropWhile_append_cons rfl _),
      hpasses _ List.mem_cons_self _ _ _ hitem hends,
      ih fun v hv => hpasses v (List.mem_cons_of_mem _ hv)]

theorem passes_array (hpasses : ∀ v ∈ elements, Passes v) : Passes (.array elements) := by
  intro element opened rest helement hends
  obtain ⟨hblanks, hvalue⟩ := helement
  cases hvalue with
  | array helements =>
    simp only [List.append_assoc, List.cons_append, List.nil_append]
    have hopen := hblanks.dropWhile_append_cons (c := '[') rfl
    cases helements with
    | nil hinner => exact skipFrom_emptyArray (hopen _) (hinner.dropWhile_append_cons rfl _)
    | cons hitem hmore =>
      obtain ⟨c, tail, hc, hfront⟩ := hitem.exists_dropWhile
      have hends := hmore.ends_append (ends_bracket rest)
      rw [List.append_assoc, skipFrom_array (hopen _) (hfront _) hc.ne_closing.1,
        hpasses _ List.mem_cons_self _ _ _ hitem hends,
        skipFrom_moreElements hmore fun v hv => hpasses v (List.mem_cons_of_mem _ hv)]

theorem skipFrom_moreMembers {more : List Char} (hmore : More (Member Writes) members more)
    (hpasses : ∀ m ∈ members, Passes m.2) (outer : List Bracket) (rest : List Char) :
    skipFrom .afterValue (.object :: outer) (more ++ '\x7d' :: rest) =
      skipFrom .afterValue outer rest := by
  induction hmore with
  | nil hblanks =>
    have hclose := hblanks.dropWhile_append_cons (c := '\x7d') rfl rest
    exact skipFrom_closing hclose
  | cons hblanks hitem hmore ih =>
    have hends := hmore.ends_append (ends_brace rest)
    obtain ⟨hbefore, hkey, hmiddle, hvalue⟩ := hitem
    simp only [List.append_assoc, List.cons_append]
    rw [skipFrom_objectComma (hblanks.dropWhile_append_cons rfl _)
        (read_skipKey hbefore hkey hmiddle _),
      hpasses _ List.mem_cons_self _ _ _ hvalue hends,
      ih fun m hm => hpasses m (List.mem_cons_of_mem _ hm)]

theorem passes_object (hpasses : ∀ m ∈ members, Passes m.2) : Passes (.object members) := by
  intro element opened rest helement hends
  obtain ⟨hblanks, hvalue⟩ := helement
  cases hvalue with
  | object hmembers =>
    simp only [List.append_assoc, List.cons_append, List.nil_append]
    have hopen := hblanks.dropWhile_append_cons (c := '\x7b') rfl
    cases hmembers with
    | nil hinner => exact skipFrom_emptyObject (hopen _) (hinner.dropWhile_append_cons rfl _)
    | cons hitem hmore =>
      have hends := hmore.ends_append (ends_brace rest)
      obtain ⟨hbefore, hkey, hmiddle, hvalue⟩ := hitem
      simp only [List.append_assoc, List.cons_append]
      rw [skipFrom_object (hopen _) (hbefore.dropWhile_append_cons (c := '"') rfl _) (by decide)
          (read_skipKey hbefore hkey hmiddle _),
        hpasses _ List.mem_cons_self _ _ _ hvalue hends,
        skipFrom_moreMembers hmore fun m hm => hpasses m (List.mem_cons_of_mem _ hm)]

theorem passes (v : Tree) : Passes v := by
  induction v using Tree.induction with
  | null => exact passes_null
  | boolean b => exact passes_boolean b
  | number digits => exact passes_number digits
  | string units => exact passes_string units
  | array elements ih => exact passes_array ih
  | object members ih => exact passes_object ih

end Complete

/-- Passing over a value takes one value, behind blanks. -/
theorem exists_of_read_skipValue {u : Unit} (hread : skipValue.read text = .ok (u, rest)) :
    ∃ v element, Element Writes v element ∧ text = element ++ rest := by
  simp only [skipValue] at hread
  split at hread
  next => cases hread
  next rest' hskip =>
    cases hread
    obtain ⟨_, rfl, v, element, closing, rfl, helement, hcloses⟩ := exists_of_skipFrom hskip
    cases hcloses
    exact ⟨v, element, helement, by rw [List.append_nil]⟩

theorem read_skipValue {v : Tree} {element : List Char} (helement : Element Writes v element)
    (hends : Ends rest) : skipValue.read (element ++ rest) = .ok ((), rest) := by
  have hskip : skipFrom .value [] (element ++ rest) = .ok rest := by
    rw [passes v _ _ _ helement hends, skipFrom]
  simp only [skipValue, hskip]

end Reader

end ShiftReduce.Json
