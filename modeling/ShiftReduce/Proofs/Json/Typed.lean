import ShiftReduce.Json.TypedReader
import ShiftReduce.Proofs.Json.Meaning
import ShiftReduce.Proofs.Json.Skipping

/-!
# Reading values of a wanted type

What stands in front of a value decides how it is read. A string or boolean is taken in full; of a
sequence only the bracket is looked at, and its elements are read by the reader of one element.
-/

namespace ShiftReduce.Json

theorem Element.blanks_append {v : Tree} {blanks element : List Char} (hblanks : Blanks blanks)
    (helement : Element Writes v element) : Element Writes v (blanks ++ element) := by
  obtain ⟨hinner, hvalue⟩ := helement
  rw [← List.append_assoc]
  exact .mk (hblanks.append hinner) hvalue

/-- The number that is found is not found to be anything else. -/
theorem NumberText.eq_of_found? {number : NumberText} {found : Found}
    (hfound : number.found? = some found) :
    (∃ value, found = .integer value) ∨
      ∃ negative magnitude, found = .fraction negative magnitude := by
  unfold found? integerFound at hfound
  grind [Option.map_eq_some_iff]

namespace Reader

variable {α : Type} {text rest : List Char}

/-- What is found in front is taken, unless it is the bracket of a sequence or map. -/
def Fronts (found : Found) (text rest : List Char) : Prop :=
  match found with
  | .string s => ∃ part, Writes (.string (codeUnits s)) part ∧ text = part ++ rest
  | .boolean b => ∃ part, Writes (.boolean b) part ∧ text = part ++ rest
  | .sequence => ∃ tail, text = '[' :: tail ∧ rest = text
  | .map => ∃ tail, text = '\x7b' :: tail ∧ rest = text
  | _ => True

theorem fronts_of_read_found {front : Found} (hread : found.read text = .ok (front, rest)) :
    Fronts front text rest := by
  rw [found, read_bind_peek] at hread
  cases text with
  | nil => cases hread
  | cons c tail =>
    simp only [List.head?_cons] at hread
    split at hread
    next =>
      obtain ⟨_, _, -, hnull⟩ := exists_of_read_bind hread
      cases hnull
      trivial
    split at hread
    next =>
      obtain ⟨_, _, htrue, hvalue⟩ := exists_of_read_bind hread
      cases hvalue
      exact ⟨_, .true, eq_of_read_expectAll htrue⟩
    split at hread
    next =>
      obtain ⟨_, _, hfalse, hvalue⟩ := exists_of_read_bind hread
      cases hvalue
      exact ⟨_, .false, eq_of_read_expectAll hfalse⟩
    split at hread
    next =>
      obtain ⟨s, _, hstring, hvalue⟩ := exists_of_read_bind hread
      cases hvalue
      obtain ⟨body, htext, hspells⟩ := exists_of_read_quotedString hstring
      exact ⟨_, .string hspells, by simp [htext]⟩
    split at hread
    next hbracket =>
      cases hread
      exact ⟨tail, by rw [hbracket], rfl⟩
    split at hread
    next hbracket =>
      cases hread
      exact ⟨tail, by rw [hbracket], rfl⟩
    split at hread
    next =>
      obtain ⟨number, _, -, hvalue⟩ := exists_of_read_bind hread
      split at hvalue
      next hfound =>
        cases hvalue
        obtain ⟨_, rfl⟩ | ⟨_, _, rfl⟩ := NumberText.eq_of_found? hfound <;> trivial
      next => cases hvalue
    next => cases hread

theorem exists_of_read_front {next : Found → Reader α} {value : α}
    (hread : (do skipBlanks; next (← found)).read text = .ok (value, rest)) :
    ∃ blanks tail front between, Blanks blanks ∧ text = blanks ++ tail ∧
      Fronts front tail between ∧ (next front).read between = .ok (value, rest) := by
  rw [read_bind_skipBlanks] at hread
  obtain ⟨front, between, hfound, hnext⟩ := exists_of_read_bind hread
  obtain ⟨blanks, hblanks, htext⟩ := exists_blanks text
  exact ⟨blanks, _, front, between, hblanks, htext, fronts_of_read_found hfound, hnext⟩

theorem read_front {next : Found → Reader α} {blanks tail between : List Char} {c : Char}
    {front : Found} (hblanks : Blanks blanks) (hc : isBlank c = false)
    (hfound : found.read (c :: tail) = .ok (front, between)) :
    (do skipBlanks; next (← found)).read (blanks ++ c :: tail) = (next front).read between := by
  rw [read_bind_skipBlanks, hblanks.dropWhile_append_cons hc, read_bind_of_ok hfound]

theorem read_found_string {s : String} {body : List Char} (hspells : Spells (codeUnits s) body)
    (rest : List Char) : found.read ('"' :: (body ++ '"' :: rest)) = .ok (.string s, rest) := by
  have hread := read_quotedString hspells rest
  exact read_bind_of_ok hread

theorem read_found_true (rest : List Char) :
    found.read (trueLiteral ++ rest) = .ok (.boolean true, rest) := by
  have hfound : found.read (trueLiteral ++ rest) =
      (do expectAll trueLiteral; return Found.boolean true).read (trueLiteral ++ rest) := rfl
  rw [hfound, read_bind_of_ok (read_expectAll trueLiteral rest), read_pure]

theorem read_found_false (rest : List Char) :
    found.read (falseLiteral ++ rest) = .ok (.boolean false, rest) := by
  have hfound : found.read (falseLiteral ++ rest) =
      (do expectAll falseLiteral; return Found.boolean false).read (falseLiteral ++ rest) := rfl
  rw [hfound, read_bind_of_ok (read_expectAll falseLiteral rest), read_pure]

/-! ## Scalars -/

theorem reads_string : Reads string MeansString where
  sound hread := by
    obtain ⟨blanks, tail, front, between, hblanks, rfl, hfront, hvalue⟩ :=
      exists_of_read_front hread
    split at hvalue
    next =>
      cases hvalue
      obtain ⟨part, hpart, rfl⟩ := hfront
      exact ⟨_, blanks ++ part, .mk hblanks hpart, (List.append_assoc ..).symm, rfl⟩
    next => cases hvalue
  complete := by
    rintro v element value rest ⟨hblanks, hvalue⟩ rfl -
    cases hvalue with
    | string hspells =>
      simp only [List.append_assoc, List.cons_append, List.nil_append]
      exact read_front hblanks rfl (read_found_string hspells rest)

theorem reads_boolean : Reads boolean MeansBoolean where
  sound hread := by
    obtain ⟨blanks, tail, front, between, hblanks, rfl, hfront, hvalue⟩ :=
      exists_of_read_front hread
    split at hvalue
    next =>
      cases hvalue
      obtain ⟨part, hpart, rfl⟩ := hfront
      exact ⟨_, blanks ++ part, .mk hblanks hpart, (List.append_assoc ..).symm, rfl⟩
    next => cases hvalue
  complete := by
    rintro v element value rest ⟨hblanks, hvalue⟩ rfl -
    rw [List.append_assoc]
    cases hvalue with
    | true => exact read_front hblanks rfl (read_found_true rest)
    | false => exact read_front hblanks rfl (read_found_false rest)

/-! ## Sequences -/

section Sequences

variable {element : Reader α} {Means : Tree → α → Prop}

theorem exists_of_read_elementAfterComma (hreads : Reads element Means) {value : α}
    (hread : (elementAfterComma element).read text = .ok (value, rest)) :
    ∃ v part, Element Writes v part ∧ text = part ++ rest ∧ Means v value := by
  rw [elementAfterComma, read_bind_skipBlanks, read_bind_peek] at hread
  split at hread
  next => cases hread
  next =>
    obtain ⟨v, part, hpart, hfront, hmeans⟩ := hreads.sound hread
    obtain ⟨blanks, hblanks, rfl⟩ := exists_blanks_of_dropWhile hfront
    exact ⟨v, blanks ++ part, hpart.blanks_append hblanks, (List.append_assoc ..).symm, hmeans⟩

/-- Blanks in front of an element may be skipped before it is read. -/
theorem Reads.read_dropWhile (hreads : Reads element Means) {v : Tree} {part : List Char}
    {value : α} (hpart : Element Writes v part) (hmeans : Means v value) (hends : Ends rest) :
    ∃ c tail, OpensValue c ∧ (part ++ rest).dropWhile isBlank = c :: tail ∧
      element.read (c :: tail) = .ok (value, rest) := by
  obtain ⟨hblanks, hvalue⟩ := hpart
  have hread := hreads.complete (.mk blanks_nil hvalue) hmeans hends
  obtain ⟨c, tail, rfl, hc⟩ := hvalue.exists_cons
  refine ⟨c, tail ++ rest, hc, ?_, hread⟩
  rw [List.append_assoc, List.cons_append, hblanks.dropWhile_append_cons hc.isBlank_eq]

theorem read_elementAfterComma (hreads : Reads element Means) {v : Tree} {part : List Char}
    {value : α} (hpart : Element Writes v part) (hmeans : Means v value) (hends : Ends rest) :
    (elementAfterComma element).read (part ++ rest) = .ok (value, rest) := by
  obtain ⟨c, tail, hc, hfront, hread⟩ := hreads.read_dropWhile hpart hmeans hends
  have hclose : ¬ some c = some ']' := fun heq => hc.ne_closing.1 (Option.some.inj heq)
  rw [elementAfterComma, read_bind_skipBlanks, hfront, read_bind_peek, List.head?_cons,
    if_neg hclose, hread]

theorem exists_of_readElements (hreads : Reads element Means) {before : Array α}
    {values : List α} (hread : readElements element before text = .ok (values, rest)) :
    ∃ vs as more, text = more ++ ']' :: rest ∧ More (Element Writes) vs more ∧
      values = before.toList ++ as ∧ List.Forall₂ Means vs as := by
  fun_induction readElements element before text with
  | case1 | case3 | case5 => cases hread
  | case2 before text tail hclose =>
    cases hread
    obtain ⟨blanks, hblanks, rfl⟩ := exists_blanks_of_dropWhile hclose
    exact ⟨[], [], blanks, rfl, .nil hblanks, (List.append_nil _).symm, .nil⟩
  | case4 before text tail value rest' helement hcomma _ ih =>
    obtain ⟨vs, as, more, rfl, hmore, rfl, hmeans⟩ := ih hread
    obtain ⟨v, part, hpart, rfl, hvalue⟩ := exists_of_read_elementAfterComma hreads helement
    obtain ⟨blanks, hblanks, rfl⟩ := exists_blanks_of_dropWhile hcomma
    exact ⟨v :: vs, value :: as, blanks ++ ',' :: (part ++ more), by simp,
      .cons hblanks hpart hmore, by simp, .cons hvalue hmeans⟩

theorem readElements_closing {before : Array α}
    (hclose : text.dropWhile isBlank = ']' :: rest) :
    readElements element before text = .ok (before.toList, rest) := by
  grind [readElements]

theorem readElements_comma {before : Array α} {value : α} {behind : List Char}
    (hcomma : text.dropWhile isBlank = ',' :: rest)
    (hread : (elementAfterComma element).read rest = .ok (value, behind)) :
    readElements element before text = readElements element (before.push value) behind := by
  grind [readElements]

theorem readElements_of_more (hreads : Reads element Means) {vs : List Tree} {as : List α}
    {more : List Char} (hmore : More (Element Writes) vs more) (hmeans : List.Forall₂ Means vs as)
    (before : Array α) (rest : List Char) :
    readElements element before (more ++ ']' :: rest) = .ok (before.toList ++ as, rest) := by
  induction hmore generalizing before as with
  | nil hblanks =>
    cases hmeans
    rw [readElements_closing (hblanks.dropWhile_append_cons rfl rest), List.append_nil]
  | cons hblanks hitem hmore ih =>
    cases hmeans with
    | cons hvalue hmeans =>
      have hends := hmore.ends_append (ends_bracket rest)
      have hread := read_elementAfterComma hreads hitem hvalue hends
      simp only [List.append_assoc, List.cons_append]
      rw [readElements_comma (hblanks.dropWhile_append_cons rfl _) hread, ih hmeans,
        Array.toList_push, List.append_assoc, List.singleton_append]

/-- A sequence means what its elements mean. -/
theorem reads_sequenceOf (hreads : Reads element Means) :
    Reads (sequenceOf element) (MeansList Means) where
  sound {text value rest} hread := by
    obtain ⟨blanks, tail, front, between, hblanks, rfl, hfront, hvalue⟩ :=
      exists_of_read_front hread
    split at hvalue
    next =>
      obtain ⟨inner, rfl, rfl⟩ := hfront
      rw [read_bind_skip, read_bind_skipBlanks, read_bind_peek] at hvalue
      obtain ⟨before, hbefore, hinner⟩ := exists_blanks inner
      split at hvalue
      next hclose =>
        obtain ⟨behind, hbehind⟩ := List.head?_eq_some_iff.mp hclose
        rw [hbehind] at hinner hvalue
        cases hvalue
        exact ⟨_, _, .mk hblanks (.array (.nil hbefore)), by simp [hinner], [], rfl, .nil⟩
      next =>
        obtain ⟨first, behind, hfirst, hothers⟩ := exists_of_read_bind hvalue
        obtain ⟨vs, as, more, rfl, hmore, rfl, hmeans⟩ := exists_of_readElements hreads hothers
        obtain ⟨v, part, hpart, hfront, hv⟩ := hreads.sound hfirst
        rw [hfront] at hinner
        have helements := Listed.cons (hpart.blanks_append hbefore) hmore
        exact ⟨_, _, .mk hblanks (.array helements), by simp [hinner], v :: vs, rfl,
          .cons hv hmeans⟩
    next => cases hvalue
  complete := by
    rintro _ element values rest ⟨hblanks, hvalue⟩ ⟨vs, rfl, hmeans⟩ -
    cases hvalue with
    | array helements =>
      simp only [List.append_assoc, List.cons_append, List.nil_append]
      refine (read_front hblanks rfl rfl).trans ?_
      dsimp only
      rw [read_bind_skip, read_bind_skipBlanks]
      cases helements with
      | nil hinner =>
        cases hmeans
        rw [hinner.dropWhile_append_cons rfl]
        rfl
      | cons hitem hmore =>
        cases hmeans with
        | cons hv hmeans =>
          have hends := hmore.ends_append (ends_bracket rest)
          obtain ⟨c, tail, hc, hfront, hread⟩ := hreads.read_dropWhile hitem hv hends
          have hclose : ¬ some c = some ']' := fun heq => hc.ne_closing.1 (Option.some.inj heq)
          rw [List.append_assoc, hfront, read_bind_peek, List.head?_cons, if_neg hclose,
            read_bind_of_ok hread]
          exact readElements_of_more hreads hmore hmeans #[_] rest

end Sequences

end Reader

end ShiftReduce.Json
