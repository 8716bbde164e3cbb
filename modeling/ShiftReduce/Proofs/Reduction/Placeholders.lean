import Mathlib.Data.List.Infix
import ShiftReduce.Proofs.Text.Digits
import ShiftReduce.Reduction.Placeholder

/-!
# Which arguments an action mentions

An expanded action mentions an argument where the action itself has the argument's name, or where
marks stand in front of its index, an odd number of them. An argument's name has an underscore at
its beginning only, so no mention is made up of the end of one name and what comes after it.
-/

namespace ShiftReduce

theorem occursIn_iff {part text : List Char} : occursIn part text = true ↔ part <:+: text := by
  induction text with
  | nil => simp [occursIn]
  | cons c rest ih =>
    rw [occursIn, Bool.or_eq_true, List.isPrefixOf_iff_prefix, ih, List.infix_cons_iff]

/-- What begins with an element that does not stand in the first list is found behind it. -/
theorem cons_infix_append_iff {α : Type} {x : α} {part xs ys : List α} (hx : x ∉ xs) :
    x :: part <:+: xs ++ ys ↔ x :: part <:+: ys := by
  induction xs with
  | nil => rfl
  | cons first rest ih =>
    rw [List.mem_cons, not_or] at hx
    rw [List.cons_append, List.infix_cons_iff, List.cons_prefix_cons, ih hx.2]
    exact or_iff_right fun h => hx.1 h.1

section Last

variable {α : Type} {c x : α} {xs : List α}

theorem getLast?_ne_of_cons (hlast : (c :: xs).getLast? ≠ some x) : xs.getLast? ≠ some x := by
  cases xs with
  | nil => nofun
  | cons => rwa [List.getLast?_cons_cons] at hlast

theorem getLast?_cons_ne (hlast : xs.getLast? ≠ some x) (hc : xs ≠ [] ∨ c ≠ x) :
    (c :: xs).getLast? ≠ some x := by
  cases xs with
  | nil => exact fun heq => hc.elim (· rfl) (· (Option.some.inj heq))
  | cons => rwa [List.getLast?_cons_cons]

end Last

namespace Placeholder

/-- An odd number of marks, as many as stand there in a row, come right before the text `next`. -/
def OddMarksBefore (next text : List Char) : Prop :=
  ∃ before after count, text = before ++ (List.replicate (2 * count + 1) '$' ++ (next ++ after)) ∧
    before.getLast? ≠ some '$' ∧ (next ++ after).head? ≠ some '$'

section Marks

variable {next rest : List Char}

theorem not_oddMarksBefore_nil : ¬ OddMarksBefore next [] := by
  rintro ⟨before, after, count, htext, -⟩
  simp [List.replicate_succ] at htext

/-- Two more marks make no difference. -/
theorem oddMarksBefore_pair :
    OddMarksBefore next ('$' :: '$' :: rest) ↔ OddMarksBefore next rest := by
  constructor
  · rintro ⟨before, after, count, htext, hbefore, hafter⟩
    match before, count with
    | [], 0 =>
      obtain ⟨-, hrest⟩ := List.cons.inj htext
      exact absurd (congrArg List.head? hrest).symm hafter
    | [], count + 1 =>
      refine ⟨[], after, count, ?_, hbefore, hafter⟩
      exact (List.cons.inj (List.cons.inj htext).2).2
    | [c], count =>
      obtain ⟨rfl, -⟩ := List.cons.inj htext
      exact absurd rfl hbefore
    | c :: c' :: before, count =>
      obtain ⟨rfl, hrest⟩ := List.cons.inj htext
      obtain ⟨rfl, rfl⟩ := List.cons.inj hrest
      have hshorter := getLast?_ne_of_cons (getLast?_ne_of_cons hbefore)
      exact ⟨before, after, count, rfl, hshorter, hafter⟩
  · rintro ⟨before, after, count, rfl, hbefore, hafter⟩
    match before with
    | [] => exact ⟨[], after, count + 1, rfl, hbefore, hafter⟩
    | c :: before =>
      exact ⟨'$' :: '$' :: c :: before, after, count, rfl,
        getLast?_cons_ne (getLast?_cons_ne hbefore (.inl nofun)) (.inl nofun), hafter⟩

/-- A single mark is the last of an odd number of marks. -/
theorem oddMarksBefore_mark (hrest : rest.head? ≠ some '$') :
    OddMarksBefore next ('$' :: rest) ↔ next <+: rest ∨ OddMarksBefore next rest := by
  constructor
  · rintro ⟨before, after, count, htext, hbefore, hafter⟩
    match before, count with
    | [], 0 =>
      obtain ⟨-, rfl⟩ := List.cons.inj htext
      exact .inl (List.prefix_append _ _)
    | [], count + 1 =>
      obtain ⟨-, rfl⟩ := List.cons.inj htext
      exact absurd rfl hrest
    | [c], count =>
      obtain ⟨rfl, -⟩ := List.cons.inj htext
      exact absurd rfl hbefore
    | c :: c' :: before, count =>
      obtain ⟨-, rfl⟩ := List.cons.inj htext
      exact .inr ⟨c' :: before, after, count, rfl, getLast?_ne_of_cons hbefore, hafter⟩
  · rintro (⟨after, rfl⟩ | ⟨before, after, count, rfl, hbefore, hafter⟩)
    · exact ⟨[], after, 0, rfl, nofun, hrest⟩
    · match before with
      | [] => exact absurd rfl hrest
      | c :: before =>
        exact ⟨'$' :: c :: before, after, count, rfl, getLast?_cons_ne hbefore (.inl nofun), hafter⟩

theorem oddMarksBefore_other {c : Char} (hc : c ≠ '$') :
    OddMarksBefore next (c :: rest) ↔ OddMarksBefore next rest := by
  constructor
  · rintro ⟨before, after, count, htext, hbefore, hafter⟩
    match before with
    | [] => exact absurd (List.cons.inj htext).1 hc
    | c' :: before =>
      obtain ⟨-, rfl⟩ := List.cons.inj htext
      exact ⟨before, after, count, rfl, getLast?_ne_of_cons hbefore, hafter⟩
  · rintro ⟨before, after, count, rfl, hbefore, hafter⟩
    exact ⟨c :: before, after, count, rfl, getLast?_cons_ne hbefore (.inr hc), hafter⟩

end Marks

section Expand

variable {text : List Char}

theorem argumentName_eq_cons : argumentName = '_' :: argumentName.tail := by decide

theorem resultName_eq_append : resultName = argumentName ++ ['0'] := by decide

/-- Behind its underscore an argument's name has letters only. -/
theorem ne_of_mem_tail_argumentName : ∀ c ∈ argumentName.tail, c ≠ '$' ∧ c ≠ '_' := by
  have htail : argumentName.tail = ['p', 'a', 'r', 's', 'e', 'r', 'A', 'r', 'g'] := by decide
  simp [htail]

theorem mark_not_mem_expandChars : '$' ∉ expandChars text := by
  fun_induction expandChars text with
  | case1 rest ih => exact List.not_mem_append (by decide) ih
  | case2 rest _ ih => exact List.not_mem_append (by decide) ih
  | case3 c rest _ hc ih => exact List.not_mem_cons_of_ne_of_not_mem (Ne.symm hc) ih
  | case4 => exact List.not_mem_nil

/-- What stands at the beginning stays there, if it has neither marks nor underscores. -/
theorem prefix_expandChars_iff {part : List Char} (hpart : ∀ c ∈ part, c ≠ '$' ∧ c ≠ '_') :
    part <+: expandChars text ↔ part <+: text := by
  induction part generalizing text with
  | nil => simp
  | cons first part ih =>
    obtain ⟨hmark, hunderscore⟩ := hpart first List.mem_cons_self
    have hrest (text : List Char) : part <+: expandChars text ↔ part <+: text :=
      ih fun c hc => hpart c (List.mem_cons_of_mem first hc)
    fun_cases expandChars text with
    | case1 rest =>
      rw [resultName_eq_append, argumentName_eq_cons]
      simp only [List.cons_append, List.cons_prefix_cons, hmark, hunderscore, false_and]
    | case2 rest =>
      rw [argumentName_eq_cons]
      simp only [List.cons_append, List.cons_prefix_cons, hmark, hunderscore, false_and]
    | case3 c rest => rw [List.cons_prefix_cons, List.cons_prefix_cons, hrest]
    | case4 => rfl

section Mention

variable {first : Char} {digits : List Char}

/-- Behind an argument's name its mention is complete or yet to come. -/
theorem infix_argumentName_append_iff : argumentName ++ first :: digits <:+: argumentName ++ text ↔
    first :: digits <+: text ∨ argumentName ++ first :: digits <:+: text := by
  have htail : '_' ∉ argumentName.tail := fun hmem => (ne_of_mem_tail_argumentName _ hmem).2 rfl
  have hlater : '_' :: (argumentName.tail ++ first :: digits) <:+: argumentName.tail ++ text ↔
      '_' :: (argumentName.tail ++ first :: digits) <:+: text := cons_infix_append_iff htail
  rw [← List.cons_append, ← argumentName_eq_cons] at hlater
  have hsplit : argumentName ++ text = '_' :: (argumentName.tail ++ text) := by
    rw [← List.cons_append, ← argumentName_eq_cons]
  rw [hsplit, List.infix_cons_iff, ← hsplit, List.prefix_append_right_inj, hlater]

/-- Marks in front have no part in a mention. -/
theorem infix_marks_append_iff {marks : List Char} (hmarks : '_' ∉ marks) :
    argumentName ++ first :: digits <:+: marks ++ text ↔
      argumentName ++ first :: digits <:+: text := by
  rw [argumentName_eq_cons]
  exact cons_infix_append_iff hmarks

variable (hzero : first ≠ '0') (hdigits : ∀ c ∈ first :: digits, c ≠ '$' ∧ c ≠ '_')

include hzero in
theorem infix_resultName_append_iff : argumentName ++ first :: digits <:+: resultName ++ text ↔
    argumentName ++ first :: digits <:+: text := by
  rw [resultName_eq_append, List.append_assoc, infix_argumentName_append_iff,
    infix_marks_append_iff (by decide), List.singleton_append, List.cons_prefix_cons]
  exact or_iff_right fun h => hzero h.1

include hdigits in
theorem prefix_cons_expandChars_iff {c : Char} {rest : List Char} :
    argumentName ++ first :: digits <+: c :: expandChars rest ↔
      argumentName ++ first :: digits <+: c :: rest := by
  have hletters : ∀ c ∈ argumentName.tail ++ first :: digits, c ≠ '$' ∧ c ≠ '_' :=
    List.forall_mem_append.mpr ⟨ne_of_mem_tail_argumentName, hdigits⟩
  rw [argumentName_eq_cons, List.cons_append, List.cons_prefix_cons, List.cons_prefix_cons,
    prefix_expandChars_iff hletters]

include hzero hdigits in
/-- A mention was written out, or it was made of a single mark behind pairs of marks. -/
theorem infix_expandChars_iff : argumentName ++ first :: digits <:+: expandChars text ↔
    argumentName ++ first :: digits <:+: text ∨ OddMarksBefore (first :: digits) text := by
  fun_induction expandChars text with
  | case1 rest ih =>
    have hmarks : argumentName ++ first :: digits <:+: ['$', '$'] ++ rest ↔
        argumentName ++ first :: digits <:+: rest := infix_marks_append_iff (by decide)
    rw [infix_resultName_append_iff hzero, ih, oddMarksBefore_pair, ← hmarks]
    rfl
  | case2 rest hrest ih =>
    have hmarks : argumentName ++ first :: digits <:+: ['$'] ++ rest ↔
        argumentName ++ first :: digits <:+: rest := infix_marks_append_iff (by decide)
    have hhead : rest.head? ≠ some '$' := by
      intro hhead
      obtain ⟨more, rfl⟩ := List.head?_eq_some_iff.mp hhead
      exact hrest more rfl
    rw [infix_argumentName_append_iff, prefix_expandChars_iff hdigits, ih,
      oddMarksBefore_mark hhead, ← hmarks]
    exact or_left_comm
  | case3 c rest _ hc ih =>
    rw [List.infix_cons_iff, prefix_cons_expandChars_iff hdigits, ih, oddMarksBefore_other hc,
      List.infix_cons_iff, or_assoc]
  | case4 =>
    have hnone : ¬ OddMarksBefore (first :: digits) [] := not_oddMarksBefore_nil
    simp [hnone]

end Mention

end Expand

theorem ne_of_mem_toDigits {index : Nat} {c : Char} (hc : c ∈ Nat.toDigits 10 index) :
    c ≠ '$' ∧ c ≠ '_' := by
  have hdigit := Nat.isDigit_of_mem_toDigits (by decide) (by decide) hc
  constructor <;> rintro rfl <;> exact absurd hdigit (by decide)

/-- An expanded action mentions the arguments that the action names, and those whose index stands
behind an odd number of marks. No mark is left. -/
theorem mentions_expand_iff (action : String) {index : Nat} (hindex : 1 ≤ index) :
    (mentions (expand action) index = true ↔
      ("_parserArg" ++ index.repr).toList <:+: action.toList ∨
        OddMarksBefore index.repr.toList action.toList) ∧
      '$' ∉ (expand action).toList := by
  obtain ⟨first, digits, hdigits, hzero⟩ := exists_toDigits_eq_cons hindex
  have hletters : ∀ c ∈ first :: digits, c ≠ '$' ∧ c ≠ '_' := fun c hc =>
    ne_of_mem_toDigits (hdigits ▸ hc)
  refine ⟨?_, ?_⟩
  · rw [mentions, occursIn_iff, argument, expand, String.toList_ofList, String.toList_ofList,
      String.toList_append, Nat.toList_repr, hdigits]
    exact infix_expandChars_iff hzero hletters
  · rw [expand, String.toList_ofList]
    exact mark_not_mem_expandChars

/-- Three marks in front of 12, two in front of 3, one in front of 4 behind a piece of a name. -/
def tangledAction : String := "$$$12 + $$3 + _parser$4"

theorem tangledAction_mentions :
    (1 ≤ 1 ∧ mentions (expand tangledAction) 1 = true ∧ OddMarksBefore ['1'] tangledAction.toList) ∧
      (1 ≤ 3 ∧ mentions (expand tangledAction) 3 = false ∧
        ¬ OddMarksBefore ['3'] tangledAction.toList) := by
  have hmarks : OddMarksBefore ['1'] tangledAction.toList :=
    ⟨[], "2 + $$3 + _parser$4".toList, 1, by decide, by decide, by decide⟩
  have hthree : mentions (expand tangledAction) 3 = false := by decide
  refine ⟨⟨by decide, (mentions_expand_iff tangledAction (by decide)).1.mpr (.inr hmarks), hmarks⟩,
    by decide, hthree, fun hother => ?_⟩
  have hmentions : mentions (expand tangledAction) 3 = true :=
    (mentions_expand_iff tangledAction (by decide)).1.mpr (.inr hother)
  rw [hthree] at hmentions
  cases hmentions

section Replace

/-- Replaces what begins with `first` and goes on with `part`, from the left and without
overlaps. -/
def replaceEach (first : Char) (part replacement : List Char) : List Char → List Char
  | [] => []
  | c :: rest =>
    if (first :: part).isPrefixOf (c :: rest) then
      replacement ++ replaceEach first part replacement (rest.drop part.length)
    else c :: replaceEach first part replacement rest
termination_by text => text.length
decreasing_by
  · simp only [List.length_drop, List.length_cons]
    omega
  · exact Nat.lt_succ_self _

variable {first : Char} {part replacement xs ys : List Char}

theorem replaceEach_append_of_not_mem (hxs : first ∉ xs) :
    replaceEach first part replacement (xs ++ ys) =
      xs ++ replaceEach first part replacement ys := by
  induction xs with
  | nil => rfl
  | cons x xs ih =>
    rw [List.mem_cons, not_or] at hxs
    rw [List.cons_append, replaceEach, ih hxs.2, if_neg]
    · rfl
    · simp [hxs.1]

/-- One pass does what replacing the pairs and then the marks that are left does. -/
theorem expandChars_eq_replaceEach (text : List Char) : expandChars text =
    replaceEach '$' [] argumentName (replaceEach '$' ['$'] resultName text) := by
  fun_induction expandChars text with
  | case1 rest ih =>
    rw [replaceEach, if_pos (by simp), replaceEach_append_of_not_mem (by decide), ih]
    rfl
  | case2 rest hrest ih =>
    have hsingle : ¬ ['$', '$'].isPrefixOf ('$' :: rest) = true := by
      rw [List.isPrefixOf_iff_prefix]
      rintro ⟨more, hmore⟩
      exact hrest more (List.cons.inj hmore).2.symm
    rw [replaceEach, if_neg hsingle, replaceEach, if_pos (by simp), ih]
    rfl
  | case3 c rest _ hc ih =>
    have hother : ¬ ['$', '$'].isPrefixOf (c :: rest) = true := by simp [Ne.symm hc]
    rw [replaceEach, if_neg hother, replaceEach, if_neg (by simp [Ne.symm hc]), ih]
  | case4 => rw [replaceEach, replaceEach]

end Replace

end Placeholder

end ShiftReduce
