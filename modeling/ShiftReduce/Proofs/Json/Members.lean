import Mathlib.Data.List.DropRight
import ShiftReduce.Proofs.Json.Typed

/-!
# Reading members

The members of an object change a state one after the other. What a member does to the state is
told by its decoded key and by its value, so reading all members is taking one such step for each.
-/

namespace ShiftReduce.Json

theorem Member.blanks_append {m : List Nat × Tree} {blanks part : List Char}
    (hblanks : Blanks blanks) (hmember : Member Writes m part) :
    Member Writes m (blanks ++ part) := by
  obtain ⟨hinner, hkey, hmiddle, hvalue⟩ := hmember
  rw [← List.append_assoc]
  exact .mk (hblanks.append hinner) hkey hmiddle hvalue

theorem Member.exists_dropWhile {m : List Nat × Tree} {part : List Char}
    (hmember : Member Writes m part) :
    ∃ tail, ∀ rest, (part ++ rest).dropWhile Reader.isBlank = '"' :: (tail ++ rest) := by
  cases hmember with
  | @mk _ _ blanks key middle element hblanks _ _ _ =>
    refine ⟨key ++ '"' :: (middle ++ ':' :: element), fun rest => ?_⟩
    rw [List.append_assoc, List.cons_append, hblanks.dropWhile_append_cons rfl]

/-- One step for each entry. -/
inductive Steps {σ : Type} (Step : σ → String × Tree → σ → Prop) :
    σ → List (String × Tree) → σ → Prop
  | nil {s : σ} : Steps Step s [] s
  | cons {s s' final : σ} {entry : String × Tree} {entries : List (String × Tree)}
      (hfirst : Step s entry s') (hrest : Steps Step s' entries final) :
      Steps Step s (entry :: entries) final

namespace Reader

variable {α β σ : Type} {text rest : List Char}

section Colon

variable {value : Reader α} {Means : Tree → α → Prop}

theorem exists_of_read_colon {u : Unit} (hread : colon.read text = .ok (u, rest)) :
    ∃ blanks, Blanks blanks ∧ text = blanks ++ ':' :: rest := by
  rw [colon, read_bind_skipBlanks] at hread
  exact exists_blanks_of_dropWhile (eq_of_read_expect hread)

theorem read_colon {blanks : List Char} (hblanks : Blanks blanks) (rest : List Char) :
    colon.read (blanks ++ ':' :: rest) = .ok ((), rest) := by
  rw [colon, read_bind_skipBlanks, hblanks.dropWhile_append_cons rfl, read_expect]

end Colon

/-- A reader of what follows a key takes the colon and a value, and changes the state by a step. -/
structure Handles (member : σ → String → Reader σ) (Step : σ → String × Tree → σ → Prop) :
    Prop where
  sound : ∀ {s s' key text rest}, (member s key).read text = .ok (s', rest) →
    ∃ v blanks element, text = blanks ++ ':' :: (element ++ rest) ∧ Blanks blanks ∧
      Element Writes v element ∧ Step s (key, v) s'
  complete : ∀ {s s' key v blanks element rest}, Step s (key, v) s' → Blanks blanks →
    Element Writes v element → Ends rest →
    (member s key).read (blanks ++ ':' :: (element ++ rest)) = .ok (s', rest)

section Members

variable {member : σ → String → Reader σ} {Step : σ → String × Tree → σ → Prop} {s s' : σ}

theorem exists_of_read_memberWith (hhandles : Handles member Step)
    (hread : (memberWith member s).read text = .ok (s', rest)) :
    ∃ entry part, text = part ++ rest ∧ Member Writes (memberOf entry) part ∧ Step s entry s' := by
  rw [memberWith, read_bind_skipBlanks] at hread
  obtain ⟨key, between, hkey, hmember⟩ := exists_of_read_bind hread
  obtain ⟨v, middle, element, rfl, hmiddle, helement, hstep⟩ := hhandles.sound hmember
  obtain ⟨body, hfront, hspells⟩ := exists_of_read_quotedString hkey
  obtain ⟨blanks, hblanks, rfl⟩ := exists_blanks_of_dropWhile hfront
  exact ⟨(key, v), _, by simp, .mk hblanks hspells hmiddle helement, hstep⟩

theorem read_memberWith (hhandles : Handles member Step) {entry : String × Tree}
    {part : List Char} (hmember : Member Writes (memberOf entry) part) (hstep : Step s entry s')
    (hends : Ends rest) : (memberWith member s).read (part ++ rest) = .ok (s', rest) := by
  obtain ⟨key, v⟩ := entry
  obtain ⟨hblanks, hkey, hmiddle, hvalue⟩ := hmember
  simp only [List.append_assoc, List.cons_append]
  rw [memberWith, read_bind_skipBlanks, hblanks.dropWhile_append_cons rfl,
    read_bind_of_ok (read_quotedString hkey _)]
  exact hhandles.complete hstep hmiddle hvalue hends

theorem read_memberWith_dropWhile (s : σ) (text : List Char) :
    (memberWith member s).read (text.dropWhile isBlank) = (memberWith member s).read text := by
  rw [memberWith, read_bind_skipBlanks, read_bind_skipBlanks, List.dropWhile_idempotent]

theorem exists_of_readMembers (hhandles : Handles member Step) {final : σ}
    (hread : readMembers member s text = .ok (final, rest)) :
    ∃ entries more, text = more ++ '\x7d' :: rest ∧
      More (Member Writes) (entries.map memberOf) more ∧ Steps Step s entries final := by
  fun_induction readMembers member s text with
  | case1 | case3 | case5 => cases hread
  | case2 s text tail hclose =>
    cases hread
    obtain ⟨blanks, hblanks, rfl⟩ := exists_blanks_of_dropWhile hclose
    exact ⟨[], blanks, rfl, .nil hblanks, .nil⟩
  | case4 s text tail s' rest' hmember hcomma _ ih =>
    obtain ⟨entries, more, rfl, hmore, hsteps⟩ := ih hread
    obtain ⟨entry, part, rfl, hpart, hstep⟩ := exists_of_read_memberWith hhandles hmember
    obtain ⟨blanks, hblanks, rfl⟩ := exists_blanks_of_dropWhile hcomma
    exact ⟨entry :: entries, _, by simp, .cons hblanks hpart hmore, .cons hstep hsteps⟩

theorem readMembers_closing (hclose : text.dropWhile isBlank = '\x7d' :: rest) :
    readMembers member s text = .ok (s, rest) := by
  grind [readMembers]

theorem readMembers_comma {behind : List Char} (hcomma : text.dropWhile isBlank = ',' :: rest)
    (hread : (memberWith member s).read rest = .ok (s', behind)) :
    readMembers member s text = readMembers member s' behind := by
  grind [readMembers]

theorem readMembers_of_more (hhandles : Handles member Step) {entries : List (String × Tree)}
    {more : List Char} {final : σ} (hsteps : Steps Step s entries final)
    (hmore : More (Member Writes) (entries.map memberOf) more) (rest : List Char) :
    readMembers member s (more ++ '\x7d' :: rest) = .ok (final, rest) := by
  induction hsteps generalizing more with
  | nil =>
    cases hmore with
    | nil hblanks => exact readMembers_closing (hblanks.dropWhile_append_cons rfl rest)
  | cons hstep hsteps ih =>
    cases hmore with
    | cons hblanks hitem hmore =>
      have hends := hmore.ends_append (ends_brace rest)
      have hread := read_memberWith hhandles hitem hstep hends
      simp only [List.append_assoc, List.cons_append]
      rw [readMembers_comma (hblanks.dropWhile_append_cons rfl _) hread, ih hmore]

theorem exists_of_read_members (hhandles : Handles member Step) {final : σ}
    (hread : (members member s).read text = .ok (final, rest)) :
    ∃ entries inner, text = inner ++ '\x7d' :: rest ∧
      Listed (Member Writes) (entries.map memberOf) inner ∧ Steps Step s entries final := by
  rw [members, read_bind_skipBlanks, read_bind_peek] at hread
  obtain ⟨blanks, hblanks, htext⟩ := exists_blanks text
  split at hread
  next hclose =>
    obtain ⟨behind, hbehind⟩ := List.head?_eq_some_iff.mp hclose
    rw [hbehind] at htext hread
    cases hread
    exact ⟨[], blanks, htext, .nil hblanks, .nil⟩
  next =>
    obtain ⟨s', between, hfirst, hothers⟩ := exists_of_read_bind hread
    obtain ⟨entries, more, rfl, hmore, hsteps⟩ := exists_of_readMembers hhandles hothers
    obtain ⟨entry, part, hfront, hpart, hstep⟩ := exists_of_read_memberWith hhandles hfirst
    rw [hfront] at htext
    have hlisted := Listed.cons (hpart.blanks_append hblanks) hmore
    exact ⟨entry :: entries, _, by simp [htext], hlisted, .cons hstep hsteps⟩

theorem read_members (hhandles : Handles member Step) {entries : List (String × Tree)}
    {inner : List Char} {final : σ} (hsteps : Steps Step s entries final)
    (hlisted : Listed (Member Writes) (entries.map memberOf) inner) (rest : List Char) :
    (members member s).read (inner ++ '\x7d' :: rest) = .ok (final, rest) := by
  rw [members, read_bind_skipBlanks, read_bind_peek]
  cases hsteps with
  | nil =>
    cases hlisted with
    | nil hblanks =>
      rw [hblanks.dropWhile_append_cons rfl]
      rfl
  | cons hstep hsteps =>
    cases hlisted with
    | cons hitem hmore =>
      have hends := hmore.ends_append (ends_brace rest)
      have hread := read_memberWith hhandles hitem hstep hends
      obtain ⟨tail, hfront⟩ := hitem.exists_dropWhile
      rw [List.append_assoc, hfront, List.head?_cons, if_neg (by decide), ← hfront]
      refine (read_bind_of_ok ((read_memberWith_dropWhile _ _).trans hread)).trans ?_
      exact readMembers_of_more hhandles hsteps hmore rest

end Members

/-! ## Maps -/

section Maps

variable {value : Reader α} {Means : Tree → α → Prop} {m final : OrderedMap String α}
  {entries : List (String × Tree)}

/-- A map stores what the value means under the key. -/
def Stores (Means : Tree → α → Prop) (m : OrderedMap String α) (entry : String × Tree)
    (m' : OrderedMap String α) : Prop :=
  ∃ a, Means entry.2 a ∧ m' = m.insert entry.1 a

theorem handles_stores (hreads : Reads value Means) :
    Handles
      (fun (entries : OrderedMap String α) key => do
        colon
        return entries.insert key (← value))
      (Stores Means) where
  sound hread := by
    obtain ⟨_, between, hcolon, hbehind⟩ := exists_of_read_bind hread
    obtain ⟨a, _, hvalue, hinsert⟩ := exists_of_read_bind hbehind
    cases hinsert
    obtain ⟨v, element, helement, rfl, hmeans⟩ := hreads.sound hvalue
    obtain ⟨blanks, hblanks, rfl⟩ := exists_of_read_colon hcolon
    exact ⟨v, blanks, element, rfl, hblanks, helement, a, hmeans, rfl⟩
  complete := by
    rintro m _ key v blanks element rest ⟨a, hmeans, rfl⟩ hblanks helement hends
    rw [read_bind_of_ok (read_colon hblanks _),
      read_bind_of_ok (hreads.complete helement hmeans hends), read_pure]

theorem exists_of_steps_stores (hsteps : Steps (Stores Means) m entries final) :
    ∃ pairs, List.Forall₂ (MeansEntry Means) entries pairs ∧
      final = pairs.foldl (fun m pair => m.insert pair.1 pair.2) m := by
  induction hsteps with
  | nil => exact ⟨[], .nil, rfl⟩
  | @cons _ _ _ entry _ hfirst _ ih =>
    obtain ⟨a, hmeans, rfl⟩ := hfirst
    obtain ⟨pairs, hpairs, rfl⟩ := ih
    exact ⟨(entry.1, a) :: pairs, .cons ⟨rfl, hmeans⟩ hpairs, rfl⟩

theorem steps_stores {pairs : List (String × α)}
    (hpairs : List.Forall₂ (MeansEntry Means) entries pairs) (m : OrderedMap String α) :
    Steps (Stores Means) m entries (pairs.foldl (fun m pair => m.insert pair.1 pair.2) m) := by
  induction hpairs generalizing m with
  | nil => exact .nil
  | cons hpair _ ih =>
    obtain ⟨hkey, hmeans⟩ := hpair
    refine .cons ⟨_, hmeans, rfl⟩ ?_
    rw [hkey]
    exact ih _

theorem reads_mapOf (hreads : Reads value Means) :
    Reads (mapOf value) fun v m => ∃ entries pairs, v = objectOf entries ∧
      List.Forall₂ (MeansEntry Means) entries pairs ∧ m = OrderedMap.ofList pairs where
  sound hread := by
    obtain ⟨blanks, tail, front, between, hblanks, rfl, hfront, hvalue⟩ :=
      exists_of_read_front hread
    split at hvalue
    next =>
      obtain ⟨inner, rfl, rfl⟩ := hfront
      rw [read_bind_skip] at hvalue
      obtain ⟨entries, listed, rfl, hlisted, hsteps⟩ :=
        exists_of_read_members (handles_stores hreads) hvalue
      obtain ⟨pairs, hpairs, rfl⟩ := exists_of_steps_stores hsteps
      exact ⟨_, _, .mk hblanks (.object hlisted), by simp, entries, pairs, rfl, hpairs, rfl⟩
    next => cases hvalue
  complete := by
    rintro _ element m rest ⟨hblanks, hvalue⟩ ⟨entries, pairs, rfl, hpairs, rfl⟩ -
    cases hvalue with
    | object hmembers =>
      simp only [List.append_assoc, List.cons_append, List.nil_append]
      refine (read_front hblanks rfl rfl).trans ?_
      dsimp only
      rw [read_bind_skip]
      exact read_members (handles_stores hreads) (steps_stores hpairs ∅) hmembers rest

/-- A map read as its entries keeps each key once, with its last value. -/
theorem reads_toList_mapOf (hreads : Reads value Means) :
    Reads (do return (← mapOf value).toList) (MeansMap Means) where
  sound hread := by
    obtain ⟨m, _, hmap, hentries⟩ := exists_of_read_bind hread
    cases hentries
    obtain ⟨_, element, helement, htext, entries, pairs, rfl, hpairs, rfl⟩ :=
      (reads_mapOf hreads).sound hmap
    exact ⟨_, element, helement, htext, entries, pairs, rfl, hpairs, OrderedMap.toList_ofList pairs⟩
  complete := by
    rintro _ element _ rest helement ⟨entries, pairs, rfl, hpairs, rfl⟩ hends
    have hmap := (reads_mapOf hreads).complete helement ⟨entries, pairs, rfl, hpairs, rfl⟩ hends
    rw [read_bind_of_ok hmap, ← OrderedMap.toList_ofList, read_pure]

end Maps

end Reader

end ShiftReduce.Json
