import ShiftReduce.Proofs.Artifact.Rows

/-!
# Which names identify symbols

Nonterminals and terminals are named apart from one another, except that the end of input has its
name whatever is declared. A nonterminal of that name is then preferred to it. Every other symbol is
found by its name, and the kinds of the two tell their entries in a row apart.
-/

namespace ShiftReduce

variable {g : Grammar}

namespace Grammar

/-- A nonterminal has the name of the end of input. -/
def EndOfInputShadowed (g : Grammar) : Prop :=
  ∃ n ∈ g.nonterminalIds, (g.nonterminal n).name = endOfInputName

instance (g : Grammar) : Decidable g.EndOfInputShadowed :=
  inferInstanceAs (Decidable (∃ n ∈ g.nonterminalIds, (g.nonterminal n).name = endOfInputName))

/-- Terminals are looked for behind all nonterminals. -/
theorem symbol?_eq_of_not_nonterminal {name : String}
    (hname : ∀ n ∈ g.nonterminalIds, (g.nonterminal n).name ≠ name) :
    g.symbol? name = (g.terminals.findIdx? (·.name == name)).map fun i => .terminal ⟨i⟩ := by
  have hnone : g.nonterminals.findIdx? (·.name == name) = none := by
    apply Array.findIdx?_eq_none_iff.mpr
    intro nonterminal hmem
    obtain ⟨i, hi, rfl⟩ := Array.mem_iff_getElem.mp hmem
    apply beq_eq_false_iff_ne.mpr
    intro heq
    apply hname ⟨i⟩ (mem_nonterminalIds.mpr hi)
    simpa [nonterminal, hi] using heq
  rw [symbol?, hnone]

namespace Declared

variable {declarations : List Declaration} (hg : g.Declared declarations)

include hg

/-- Only the end of input can share its name with a nonterminal. -/
theorem eq_endOfInput_of_name {t : TerminalId} (ht : t ∈ g.terminalIds) {n : NonterminalId}
    (hn : n ∈ g.nonterminalIds) (hname : (g.nonterminal n).name = (g.terminal t).name) :
    t = .endOfInput := by
  obtain ⟨names, hnames, -, hmem⟩ := hg.exists_terminal_names
  obtain ⟨i⟩ := t
  cases i with
  | zero => rfl
  | succ i =>
    have hlt := mem_terminalIds.mp ht
    have hget := congrArg (·[i + 1]?) hnames
    simp only [List.getElem?_map, Array.getElem?_toList, Array.getElem?_eq_getElem hlt,
      Option.map_some, List.getElem?_cons_succ] at hget
    have hother := ((hmem _).mp (List.mem_of_getElem? hget.symm)).2.2
    have hdeclared := (hg.exists_nonterminal_iff _).mp ⟨n, hn, hname⟩
    simp only [terminal, Array.getD_eq_getD_getElem?, Array.getElem?_eq_getElem hlt,
      Option.getD_some] at hdeclared
    exact absurd hdeclared hother

/-- A terminal is found by its name if no nonterminal has it. -/
theorem symbol?_terminal {t : TerminalId} (ht : t ∈ g.terminalIds)
    (hname : ∀ n ∈ g.nonterminalIds, (g.nonterminal n).name ≠ (g.terminal t).name) :
    g.symbol? (g.terminal t).name = some (.terminal t) := by
  have hlt := mem_terminalIds.mp ht
  have hfound : (g.terminals.findIdx? (·.name == (g.terminal t).name)).isSome = true := by
    rw [Array.findIdx?_isSome, Array.any_eq_true]
    exact ⟨t.index, hlt, by simp [terminal, hlt]⟩
  obtain ⟨i, hi⟩ := Option.isSome_iff_exists.mp hfound
  have hsymbol : g.symbol? (g.terminal t).name = some (.terminal ⟨i⟩) := by
    rw [symbol?_eq_of_not_nonterminal hname, hi]
    rfl
  have hsame := hg.eq_of_terminal_name (hasSymbol_of_symbol? hsymbol) ht
    (symbolName_of_symbol? hsymbol)
  rw [hsymbol, hsame]

/-- A symbol is found by its name, but for the end of input while a nonterminal has its name. -/
theorem symbol?_symbolName_iff {x : Symbol} (hx : g.HasSymbol x) :
    g.symbol? (g.symbolName x) = some x ↔
      ¬ (x = .terminal .endOfInput ∧ g.EndOfInputShadowed) := by
  constructor
  · rintro hfound ⟨rfl, n, hn, hname⟩
    rw [symbolName, hg.name_endOfInput, ← hname, hg.wellFormed.symbol?_nonterminal n hn] at hfound
    cases hfound
  · intro hclear
    cases x with
    | nonterminal n => exact hg.wellFormed.symbol?_nonterminal n hx
    | terminal t =>
      apply hg.symbol?_terminal hx
      intro n hn hname
      obtain rfl := hg.eq_endOfInput_of_name hx hn hname
      exact hclear ⟨rfl, n, hn, hname.trans hg.name_endOfInput⟩

/-- Symbols of one name are one symbol, or the end of input and a nonterminal. -/
theorem eq_or_shadowed_of_symbolName {x y : Symbol} (hx : g.HasSymbol x) (hy : g.HasSymbol y)
    (hname : g.symbolName x = g.symbolName y) :
    x = y ∨ g.EndOfInputShadowed ∧ g.symbolName x = endOfInputName := by
  by_cases hshadowed : g.EndOfInputShadowed ∧ g.symbolName x = endOfInputName
  · exact .inr hshadowed
  · have hclear {z : Symbol} (hz : g.symbolName z = g.symbolName x) :
        ¬ (z = .terminal .endOfInput ∧ g.EndOfInputShadowed) := by
      rintro ⟨rfl, hend⟩
      exact hshadowed ⟨hend, hz.symm.trans hg.name_endOfInput⟩
    have hfound := (hg.symbol?_symbolName_iff hx).mpr (hclear rfl)
    rw [hname, (hg.symbol?_symbolName_iff hy).mpr (hclear hname.symm)] at hfound
    exact .inl (Option.some.inj hfound).symm

end Declared

end Grammar

namespace Artifact

variable {declarations : List Declaration} (hg : g.Declared declarations) {q : StateId}

include hg

theorem eq_or_shadowed_of_symbol {e other : TableEntry} (he : e ∈ g.compile.artifact.rowOf q)
    (hother : other ∈ g.compile.artifact.rowOf q) (hsymbol : e.symbol = other.symbol) :
    e = other ∨ g.EndOfInputShadowed ∧ e.symbol = endOfInputName := by
  obtain ⟨x, action, haction, rfl⟩ := mem_rowOf_iff.mp he
  obtain ⟨y, action', haction', rfl⟩ := mem_rowOf_iff.mp hother
  have hx := ParseTable.hasSymbol_of_action? hg.wellFormed haction
  have hy := ParseTable.hasSymbol_of_action? hg.wellFormed haction'
  rcases hg.eq_or_shadowed_of_symbolName hx hy hsymbol with rfl | hshadowed
  · rw [haction] at haction'
    rw [Option.some.inj haction']
    exact .inl rfl
  · exact .inr hshadowed

theorem nodup_symbols (hclear : ¬ g.EndOfInputShadowed) (q : StateId) :
    ((g.compile.artifact.rowOf q).map TableEntry.symbol).Nodup := by
  apply List.Nodup.map_on
  · intro e he other hother hsymbol
    rcases eq_or_shadowed_of_symbol hg he hother hsymbol with heq | ⟨hshadowed, -⟩
    · exact heq
    · exact absurd hshadowed hclear
  · exact List.Nodup.of_map _ (nodup_names hg q)

end Artifact

/-- Names tell symbols apart, but for the end of input and a nonterminal of its name. -/
structure NamesIdentifySymbols (g : Grammar) : Prop where
  /-- A symbol is found by its name, but for the end of input while a nonterminal has its name. -/
  symbol?_iff : ∀ x, g.HasSymbol x → (g.symbol? (g.symbolName x) = some x ↔
    ¬ (x = .terminal .endOfInput ∧ g.EndOfInputShadowed))
  /-- No row of the artifact has two entries of one name and kind. -/
  nodup_names : ∀ q, ((g.compile.artifact.rowOf q).map fun e => (e.symbol, e.terminal)).Nodup
  /-- Nor has it two of one name, unless that is the name of the end of input and a nonterminal. -/
  eq_or_shadowed : ∀ q, ∀ e ∈ g.compile.artifact.rowOf q, ∀ other ∈ g.compile.artifact.rowOf q,
    e.symbol = other.symbol → e = other ∨ g.EndOfInputShadowed ∧ e.symbol = endOfInputName
  nodup_symbols : ¬ g.EndOfInputShadowed →
    ∀ q, ((g.compile.artifact.rowOf q).map TableEntry.symbol).Nodup

theorem namesIdentifySymbols {declarations : List Declaration}
    (hg : Grammar.ofDeclarations declarations = .ok g) : NamesIdentifySymbols g := by
  have hdeclared := Grammar.declared_of_ofDeclarations hg
  exact {
    symbol?_iff x hx := hdeclared.symbol?_symbolName_iff hx
    nodup_names := Artifact.nodup_names hdeclared
    eq_or_shadowed q e he other hother hsymbol :=
      Artifact.eq_or_shadowed_of_symbol hdeclared he hother hsymbol
    nodup_symbols hclear := Artifact.nodup_symbols hdeclared hclear }

/-- A nonterminal with the name of the end of input, which is completed where it is expected. -/
def shadowedEndDeclarations : List Declaration :=
  [.rule "S" [endOfInputName] "", .rule endOfInputName [] "", .resultType "S" "int", .start "S"]

def shadowedEnd : Grammar :=
  (Grammar.ofDeclarations shadowedEndDeclarations).toOption.getD default

theorem shadowedEnd_namesIdentifySymbols :
    Grammar.ofDeclarations shadowedEndDeclarations = .ok shadowedEnd ∧
      NamesIdentifySymbols shadowedEnd := by
  have hg : Grammar.ofDeclarations shadowedEndDeclarations = .ok shadowedEnd :=
    eq_ok_getD_of_isOk (by decide +kernel)
  exact ⟨hg, namesIdentifySymbols hg⟩

/-- There the end of input is not found by its name, and a row has two entries of that name. -/
theorem endOfInput_not_found :
    Grammar.ofDeclarations shadowedEndDeclarations = .ok shadowedEnd ∧
      TerminalId.endOfInput ∈ shadowedEnd.terminalIds ∧
      shadowedEnd.symbol? (shadowedEnd.symbolName (.terminal .endOfInput)) =
        some (.nonterminal ⟨2⟩) ∧
      (shadowedEnd.compile.artifact.rowOf 0).map (fun e => (e.symbol, e.terminal)) =
        [("S", false), (endOfInputName, true), (endOfInputName, false)] :=
  ⟨eq_ok_getD_of_isOk (by decide +kernel), by decide +kernel, by decide +kernel, by decide +kernel⟩

end ShiftReduce
