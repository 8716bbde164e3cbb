import ShiftReduce.Proofs.CommandLine.Effects
import ShiftReduce.Proofs.Volume.Extension

/-!
# What a run delivers

A run that succeeds has put the artifact and the report where they belong and has changed nothing
else, unless the report belongs to the very file of the artifact or of the input.
-/

namespace ShiftReduce

/-! ## Contents that differ

A report begins with a mark that no JSON text begins with.
-/

namespace Json

theorem head?_write_object (layout : Layout) (depth : Nat) (members : List (String × Json)) :
    (write layout depth (.object members)).head? = some '\x7b' := by
  rw [write, Layout.bracketed.eq_def]
  split <;> rfl

end Json

theorem Artifact.head?_text (a : Artifact) (layout : Json.Layout) :
    (a.text layout).toList.head? = some '\x7b' := by
  rw [text, Json.toText, String.toList_ofList, toJson, Json.head?_write_object]

theorem Grammar.exists_text_eq_append (g : Grammar) :
    ∃ rest, g.text = "## terminals:\n" ++ rest := by
  unfold text
  simp only [String.append_assoc, String.append_right_inj]
  exact ⟨_, rfl⟩

theorem Compilation.head?_report (result : Compilation) (g : Grammar) :
    (result.report g).toList.head? = some '#' := by
  obtain ⟨rest, htext⟩ := g.exists_text_eq_append
  have hmark : "## terminals:\n".toList.head? = some '#' := by decide
  unfold report
  rw [String.toList_intercalate, List.map_cons, List.map_cons, List.intercalate_cons_cons, htext,
    String.toList_append]
  simp only [List.head?_append, hmark, Option.some_or]

theorem GrammarRecord.ofJson_mark (rest : List Char) :
    reader.run ('#' :: rest) = .error .malformed := rfl

theorem Grammar.ofContent_toUTF8 (text : String) : ofContent text.toUTF8 = ofJson text := by
  have hdecoded : String.fromUTF8? text.toUTF8 = some text := dif_pos text.isValidUTF8
  rw [ofContent, hdecoded]

namespace CommandLine

theorem artifactContent_ne_reportContent (o : Options) (g other : Grammar) :
    artifactContent o g ≠ reportContent other := by
  intro heq
  have hartifact := g.compile.artifact.head?_text (layout o)
  rw [String.toByteArray_inj.mp heq, other.compile.head?_report other] at hartifact
  cases hartifact

/-- A report is not the text of a grammar. -/
theorem ofContent_reportContent_ne (g other : Grammar) :
    Grammar.ofContent (reportContent g) ≠ .ok other := by
  obtain ⟨rest, hreport⟩ := List.head?_eq_some_iff.mp (g.compile.head?_report g)
  rw [reportContent, Grammar.ofContent_toUTF8, Grammar.ofJson, GrammarRecord.ofJson, hreport,
    GrammarRecord.ofJson_mark]
  simp

/-! ## The places of the results -/

open ShiftReduce.Path in
/-- The default output is another file than the input, and its report is a third one. -/
theorem defaultOutput_places {v : Volume} {path : String} {input output : Place}
    (hinput : v.placeOf? path = some input)
    (houtput : v.placeOf? (withExtension path "artifact.json") = some output) :
    output ≠ input ∧ ∀ report,
      v.placeOf? (reportPath (withExtension path "artifact.json")) = some report →
      report ≠ output ∧ report ≠ input := by
  have hextension : "artifact.json" = "artifact" ++ "." ++ "json" := by decide
  obtain ⟨folder, name, parent, rfl, rfl, -, rfl⟩ :=
    Volume.exists_parent_of_withExtension hinput (by decide) houtput
  have hname : stem name ++ "." ++ "artifact.json" =
      stem name ++ "." ++ "artifact" ++ "." ++ "json" := by
    rw [hextension]
    simp only [String.append_assoc]
  have hstem : stem (stem name ++ "." ++ "artifact.json") = stem name ++ "." ++ "artifact" := by
    rw [hname]
    exact stem_append (by simp) (by decide)
  refine ⟨fun heq => ?_, fun report hreport => ?_⟩
  · have hsame := List.singleton_inj.mp (List.append_cancel_left heq)
    rw [hname] at hsame
    exact ne_stem_append name "artifact" (by decide) hsame.symm
  · obtain ⟨_, other, above, -, hplace, -, rfl⟩ :=
      Volume.exists_parent_of_withExtension houtput (by decide) hreport
    obtain ⟨rfl, hother⟩ := List.append_inj' hplace rfl
    obtain rfl := List.singleton_inj.mp hother
    rw [hstem]
    refine ⟨fun heq => ?_, fun heq => ?_⟩
    · have hsame := List.singleton_inj.mp (List.append_cancel_left heq)
      rw [hname, String.append_right_inj] at hsame
      exact absurd hsame (by decide)
    · have hsame := List.singleton_inj.mp (List.append_cancel_left heq)
      exact ne_stem_append name "artifact" (by decide) hsame.symm

/-- What a run promises that writes to the path `path`: the results are there, and nothing else has
changed. The input stays as well, unless it has been given as the output. -/
structure Delivers (o : Options) (g : Grammar) (input : Place) (path : String) (v after : Volume) :
    Prop where
  artifact : after.read path = .ok (artifactContent o g)
  report : o.automaton = true → after.read (reportPath path) = .ok (reportContent g)
  input : (∀ output, o.output = some output → v.placeOf? output ≠ some input) →
    after.content? input = v.content? input
  others : ∀ place, v.placeOf? path ≠ some place →
    (o.automaton = true → v.placeOf? (reportPath path) ≠ some place) →
    after.content? place = v.content? place
  directories : after.directories = v.directories
  working : after.working = v.working

/-- The report belongs to the file of the artifact or to that of the input. -/
def Clashes (o : Options) (input : Place) (path : String) (v : Volume) : Prop :=
  o.automaton = true ∧ (v.placeOf? (reportPath path) = v.placeOf? path ∨
    v.placeOf? (reportPath path) = some input)

section Written

variable {o : Options} {g : Grammar} {v : Volume} {input place reportPlace : Place} {path : String}
  (hpath : Volume.CanBePassed path) (hplace : v.placeOf? path = some place)

include hpath hplace

theorem delivers_artifact (hautomaton : o.automaton = false)
    (hinput : (∀ output, o.output = some output → v.placeOf? output ≠ some input) → input ≠ place) :
    Delivers o g input path v (v.put place (artifactContent o g)) where
  artifact := Volume.read_put hpath hplace
  report hreport := absurd (hautomaton.symm.trans hreport) Bool.false_ne_true
  input hgiven := by rw [Volume.content?_put, if_neg (hinput hgiven)]
  others other hother _ := by
    have hne : other ≠ place := fun heq => hother (heq ▸ hplace)
    rw [Volume.content?_put, if_neg hne]
  directories := rfl
  working := rfl

theorem delivers_both_iff {source : ByteArray} (hsource : v.content? input = some source)
    (hgrammar : Grammar.ofContent source = .ok g) (hautomaton : o.automaton = true)
    (hreport : Volume.CanBePassed (reportPath path))
    (hreportPlace : v.placeOf? (reportPath path) = some reportPlace)
    (hinput : (∀ output, o.output = some output → v.placeOf? output ≠ some input) ↔ input ≠ place) :
    Delivers o g input path v
        ((v.put place (artifactContent o g)).put reportPlace (reportContent g)) ↔
      reportPlace ≠ place ∧ reportPlace ≠ input := by
  have hafter : (v.put place (artifactContent o g)).placeOf? path = some place := by
    rw [Volume.placeOf?_put, hplace]
  have hreportAfter :
      (v.put place (artifactContent o g)).placeOf? (reportPath path) = some reportPlace := by
    rw [Volume.placeOf?_put, hreportPlace]
  constructor
  · intro hdelivers
    have hne : reportPlace ≠ place := by
      rintro rfl
      have hread := hdelivers.artifact.symm.trans (Volume.read_put hpath hafter)
      exact artifactContent_ne_reportContent o g g (Except.ok.inj hread)
    refine ⟨hne, ?_⟩
    rintro rfl
    have hkept := hdelivers.input (hinput.mpr hne)
    rw [Volume.content?_put, if_pos rfl, hsource] at hkept
    exact ofContent_reportContent_ne g g (Option.some.inj hkept ▸ hgrammar)
  · rintro ⟨hne, hneInput⟩
    exact {
      artifact := Volume.read_put_of_ne hpath hafter hne.symm (Volume.read_put hpath hplace)
      report := fun _ => Volume.read_put hreport hreportAfter
      input := fun hgiven => by
        rw [Volume.content?_put, if_neg hneInput.symm, Volume.content?_put,
          if_neg (hinput.mp hgiven)]
      others := fun other hother hotherReport => by
        have hneReport : other ≠ reportPlace := fun heq =>
          hotherReport hautomaton (heq ▸ hreportPlace)
        have hneArtifact : other ≠ place := fun heq => hother (heq ▸ hplace)
        rw [Volume.content?_put, if_neg hneReport, Volume.content?_put, if_neg hneArtifact]
      directories := rfl
      working := rfl }

end Written

/-- What a run comes to that has loaded a grammar and failed at nothing. -/
structure Completes (o : Options) (g : Grammar) (input : Place) (path : String) (v after : Volume) :
    Prop where
  delivers_iff : Delivers o g input path v after ↔ ¬ Clashes o input path v
  delivers_default : o.output = none → Delivers o g input path v after
  /-- By default the output stands beside the input, under the stem of its name. -/
  default_beside : o.output = none → ∃ parent name, input = parent ++ [name] ∧
    v.placeOf? path = some (parent ++ [Path.stem name ++ "." ++ "artifact.json"])
  /-- The report stands beside the output. -/
  report_beside : o.automaton = true → ∃ parent name, v.placeOf? path = some (parent ++ [name]) ∧
    v.placeOf? (reportPath path) = some (parent ++ [Path.stem name ++ "." ++ "automaton"])
  /-- Only an output that is named like its report shares its place. -/
  sharesPlace_iff : o.automaton = true →
    (v.placeOf? (reportPath path) = v.placeOf? path ↔ reportPath path = path)

/-- The output is not the input, given or by default, exactly if their places differ. -/
theorem output_ne_input_iff {o : Options} {v : Volume} {input place : Place}
    (hinput : v.placeOf? (Volume.placeText input) = some input)
    (hplace : v.placeOf? (artifactPath o (Volume.placeText input)) = some place) :
    (∀ output, o.output = some output → v.placeOf? output ≠ some input) ↔ input ≠ place := by
  rw [artifactPath] at hplace
  cases hgiven : o.output with
  | none =>
    rw [hgiven] at hplace
    simpa using (defaultOutput_places hinput hplace).1.symm
  | some output =>
    rw [hgiven] at hplace
    simp [show v.placeOf? output = some place from hplace, eq_comm]

theorem default_beside {o : Options} {v : Volume} {input place : Place}
    (hinput : v.placeOf? (Volume.placeText input) = some input)
    (hplace : v.placeOf? (artifactPath o (Volume.placeText input)) = some place)
    (hdefault : o.output = none) : ∃ parent name, input = parent ++ [name] ∧
      v.placeOf? (artifactPath o (Volume.placeText input)) =
        some (parent ++ [Path.stem name ++ "." ++ "artifact.json"]) := by
  rw [artifactPath, hdefault] at hplace ⊢
  obtain ⟨_, name, parent, -, hbeside, -, rfl⟩ :=
    Volume.exists_parent_of_withExtension hinput (by decide) hplace
  exact ⟨parent, name, hbeside, hplace⟩

theorem completes_of_leaves {o : Options} {g : Grammar} {v after : Volume} {input : Place}
    {source : ByteArray} {outcome : Outcome} (hsource : v.content? input = some source)
    (hinput : v.placeOf? (Volume.placeText input) = some input)
    (hgrammar : Grammar.ofContent source = .ok g)
    (hleaves : Leaves .none v o g (artifactPath o (Volume.placeText input)) outcome
      after) (hexit : outcome.exitCode = 0) :
    Completes o g input (artifactPath o (Volume.placeText input)) v after := by
  cases hleaves with
  | artifactFailed | reportFailed => cases hexit
  | artifact hautomaton hartifact =>
    obtain ⟨hpath, place, hplace, rfl⟩ := Volume.exists_of_faultyWrite hartifact
    have hdelivers := delivers_artifact (g := g) hpath hplace hautomaton
      (output_ne_input_iff hinput hplace).mp
    have hswitch : o.automaton ≠ true := by simp [hautomaton]
    exact {
      delivers_iff := iff_of_true hdelivers fun hclash => hswitch hclash.1
      delivers_default := fun _ => hdelivers
      default_beside := default_beside hinput hplace
      report_beside := fun hreport => absurd hreport hswitch
      sharesPlace_iff := fun hreport => absurd hreport hswitch }
  | both hautomaton hartifact hreport =>
    obtain ⟨hpath, place, hplace, rfl⟩ := Volume.exists_of_faultyWrite hartifact
    obtain ⟨hreportPath, reportPlace, hreportPlace, rfl⟩ := Volume.exists_of_faultyWrite hreport
    rw [Volume.placeOf?_put] at hreportPlace
    have hdelivers := delivers_both_iff hpath hplace hsource hgrammar hautomaton hreportPath
      hreportPlace (output_ne_input_iff hinput hplace)
    constructor
    case delivers_iff =>
      rw [hdelivers, Clashes, hreportPlace, hplace]
      simp [hautomaton]
    case delivers_default =>
      intro hdefault
      rw [artifactPath, hdefault] at hplace hreportPlace
      exact hdelivers.mpr ((defaultOutput_places hinput hplace).2 reportPlace hreportPlace)
    case default_beside => exact default_beside hinput hplace
    case report_beside =>
      intro _
      obtain ⟨_, name, parent, -, rfl, -, rfl⟩ :=
        Volume.exists_parent_of_withExtension hplace (by decide) hreportPlace
      exact ⟨parent, name, hplace, hreportPlace⟩
    case sharesPlace_iff =>
      intro _
      rw [hreportPlace, hplace, Option.some_inj]
      exact Volume.placeOf?_withExtension_eq_iff hplace (by decide) hreportPlace

theorem completes_of_loads {v after : Volume} {args : List String} {o : Options} {path : String}
    {g : Grammar} {outcome : Outcome} (hv : v.WellFormed) (hloads : Loads .none v args o path g)
    (hleaves : Leaves .none v o g (artifactPath o path) outcome after)
    (hexit : outcome.exitCode = 0) :
    ∃ input source, v.resolve o.input = .ok (.file input source) ∧
      Grammar.ofContent source = .ok g ∧
      Completes o g input (artifactPath o (Volume.placeText input)) v after := by
  obtain ⟨source, hread, hgrammar⟩ := Grammar.exists_content_of_load hloads.load_eq
  obtain ⟨input, rfl, hsource, hresolve⟩ :=
    hv.exists_file_of_canonicalize (Volume.eq_ok_of_permit hloads.canonicalize_eq) hread
  exact ⟨input, source, hresolve, hgrammar,
    completes_of_leaves hsource (hv.placeOf?_placeText hsource) hgrammar hleaves hexit⟩

/-- A run that succeeds has only said its version or how it is used, or it has found its input and
has done all that it promises, unless the report belongs to a file that is needed otherwise. -/
theorem completes {v : Volume} {args : List String} (hv : v.WellFormed)
    (hexit : (runOn v args).1.exitCode = 0) :
    ((parse args = .ok .help ∨ parse args = .ok .version) ∧ (runOn v args).2 = v) ∨
      ∃ o input source g, parse args = .ok (.run o) ∧
        v.resolve o.input = .ok (.file input source) ∧ Grammar.ofContent source = .ok g ∧
        Completes o g input (artifactPath o (Volume.placeText input)) v (runOn v args).2 := by
  rcases hrun : runOn v args with ⟨outcome, after⟩
  rw [hrun] at hexit
  cases goes_of_runOn hrun with
  | help hparse => exact .inl ⟨.inl hparse, rfl⟩
  | version hparse => exact .inl ⟨.inr hparse, rfl⟩
  | misused | inputMissed | notLoaded => cases hexit
  | @loaded o path g _ _ hloads hleaves =>
    obtain ⟨input, source, hcompletes⟩ := completes_of_loads hv hloads hleaves hexit
    exact .inr ⟨o, input, source, g, hloads.parse_eq, hcompletes⟩

theorem wellFormed_singleFile {name : String} (hname : IsName name) :
    (singleFile name).WellFormed where
  isDirectory_working := rfl
  of_directory parent other hdirectory := by
    have hhome : parent ++ [other] = [] ++ ["home"] := by
      simpa [Volume.isDirectory, singleFile, Volume.root] using hdirectory
    obtain ⟨rfl, hother⟩ := List.append_inj' hhome rfl
    obtain rfl := List.singleton_inj.mp hother
    exact ⟨by decide, rfl⟩
  of_file place content hcontent := by
    have hplace : place = ["home"] ++ [name] := by
      by_contra hne
      have hbeq : (place == ["home", name]) = false := beq_eq_false_iff_ne.mpr hne
      simp [Volume.content?, singleFile, List.lookup_cons, hbeq] at hcontent
    refine ⟨["home"], name, hplace, hname, rfl, ?_⟩
    simp [hplace, Volume.isDirectory, singleFile, Volume.root]

theorem reported_completes : ∃ o input g, parse reportedArgs = .ok (.run o) ∧
    (runOn (singleFile "g.json") reportedArgs).1.exitCode = 0 ∧
    Delivers o g input (artifactPath o (Volume.placeText input)) (singleFile "g.json")
      (runOn (singleFile "g.json") reportedArgs).2 := by
  have hexit : (runOn (singleFile "g.json") reportedArgs).1.exitCode = 0 := by decide +kernel
  have hparse : parse reportedArgs = .ok (.run { input := "g.json", automaton := true }) := by
    decide +kernel
  rcases completes (wellFormed_singleFile (by decide)) hexit with
    ⟨hother | hother, -⟩ | ⟨o, input, source, g, hrun, -, -, hcompletes⟩
  · cases hparse.symm.trans hother
  · cases hparse.symm.trans hother
  · refine ⟨o, input, g, hrun, hexit, hcompletes.delivers_default ?_⟩
    obtain rfl := Request.run.inj (Except.ok.inj (hparse.symm.trans hrun))
    rfl

theorem not_delivers_of_clashes {v : Volume} {args : List String} {o : Options} {input : Place}
    {source : ByteArray} (hv : v.WellFormed) (hexit : (runOn v args).1.exitCode = 0)
    (hparse : parse args = .ok (.run o)) (hinput : v.resolve o.input = .ok (.file input source))
    (hclashes : Clashes o input (artifactPath o (Volume.placeText input)) v) : ∃ g,
      Grammar.ofContent source = .ok g ∧
      ¬ Delivers o g input (artifactPath o (Volume.placeText input)) v (runOn v args).2 := by
  rcases hrun : runOn v args with ⟨outcome, after⟩
  rw [hrun] at hexit
  cases goes_of_runOn hrun with
  | help hother | version hother => cases hparse.symm.trans hother
  | misused | inputMissed | notLoaded => cases hexit
  | @loaded _ path g _ _ hloads hleaves =>
    obtain rfl := Request.run.inj (Except.ok.inj (hparse.symm.trans hloads.parse_eq))
    obtain ⟨_, _, hresolve, hgrammar, hcompletes⟩ := completes_of_loads hv hloads hleaves hexit
    obtain ⟨rfl, rfl⟩ := Target.file.inj (Except.ok.inj (hinput.symm.trans hresolve))
    exact ⟨g, hgrammar, fun hdelivers => hcompletes.delivers_iff.mp hdelivers hclashes⟩

/-- The report of `x.automaton` belongs to that file itself. -/
def sharedArgs : List String :=
  ["g.json", "-o", "x.automaton", "--automaton", "--compact"]

/-- The report of `g.json` belongs to `g.automaton`. -/
def reusedArgs : List String :=
  ["g.automaton", "-o", "g.json", "--automaton", "--compact"]

theorem report_overwrites :
    ((runOn (singleFile "g.json") sharedArgs).1.exitCode = 0 ∧ ∃ o g,
      parse sharedArgs = .ok (.run o) ∧ Grammar.ofContent oneRuleText.toUTF8 = .ok g ∧
      ¬ Delivers o g ["home", "g.json"] "x.automaton" (singleFile "g.json")
        (runOn (singleFile "g.json") sharedArgs).2) ∧
    (runOn (singleFile "g.automaton") reusedArgs).1.exitCode = 0 ∧ ∃ o g,
      parse reusedArgs = .ok (.run o) ∧ Grammar.ofContent oneRuleText.toUTF8 = .ok g ∧
      ¬ Delivers o g ["home", "g.automaton"] "g.json" (singleFile "g.automaton")
        (runOn (singleFile "g.automaton") reusedArgs).2 := by
  have hshared : parse sharedArgs = .ok (.run ⟨"g.json", some "x.automaton", true, true⟩) := by
    decide +kernel
  have hreused : parse reusedArgs = .ok (.run ⟨"g.automaton", some "g.json", true, true⟩) := by
    decide +kernel
  have hexit : (runOn (singleFile "g.json") sharedArgs).1.exitCode = 0 := by decide +kernel
  have hexitReused : (runOn (singleFile "g.automaton") reusedArgs).1.exitCode = 0 := by
    decide +kernel
  refine ⟨⟨hexit, ?_⟩, hexitReused, ?_⟩
  · obtain ⟨g, hg, hdelivers⟩ := not_delivers_of_clashes (wellFormed_singleFile (by decide)) hexit
      hshared rfl ⟨rfl, .inl rfl⟩
    exact ⟨_, g, hshared, hg, hdelivers⟩
  · obtain ⟨g, hg, hdelivers⟩ := not_delivers_of_clashes (wellFormed_singleFile (by decide))
      hexitReused hreused rfl ⟨rfl, .inr rfl⟩
    exact ⟨_, g, hreused, hg, hdelivers⟩

end CommandLine

end ShiftReduce
