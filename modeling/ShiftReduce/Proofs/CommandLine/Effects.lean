import ShiftReduce.CommandLine.Run
import ShiftReduce.Proofs.Volume.Faults

/-!
# The effects of a run

A run finds its input, loads a grammar from it, and writes the artifact and the report. Each of
these can fail, and a write can break off on the way. Only the report comes behind something that
has been written.
-/

namespace ShiftReduce

namespace Grammar

variable (faults : Faults)

/-- The grammar in the file that a path leads to. -/
def load (v : Volume) (path : String) : Except LoadError Grammar :=
  match v.faultyRead faults path with
  | .error error => .error (.file error)
  | .ok content => ofContent content

theorem run_ofFile (path : String) (v : Volume) :
    (ofFile (Volume.faultyFileSystem faults) path).run v = pure (load faults v path, v) := by
  simp only [ofFile, load, StateT.run_bind, Volume.run_read, pure_bind]
  cases v.faultyRead faults path <;> rfl

variable {faults}

theorem exists_content_of_load {v : Volume} {path : String} {g : Grammar}
    (hload : load faults v path = .ok g) :
    ∃ content, v.read path = .ok content ∧ ofContent content = .ok g := by
  unfold load at hload
  split at hload
  next => cases hload
  next content hread => exact ⟨content, Volume.eq_ok_of_permit hread, hload⟩

end Grammar

namespace CommandLine

/-- A run over a volume without faults. -/
def runOn (v : Volume) (args : List String) : Outcome × Volume :=
  (run Volume.fileSystem args).run v

def artifactContent (o : Options) (g : Grammar) : ByteArray :=
  (g.compile.artifact.text (layout o)).toUTF8

def reportContent (g : Grammar) : ByteArray :=
  (g.compile.report g).toUTF8

section Faulty

variable (faults : Faults)

/-- A run over a volume with faults. -/
def runUnder (v : Volume) (args : List String) : Outcome × Volume :=
  (run (Volume.faultyFileSystem faults) args).run v

theorem runUnder_none : runUnder .none = runOn := by
  unfold runUnder runOn
  rw [Volume.faultyFileSystem_none]

/-- The arguments ask for a run with some options, and there is a grammar in the input, which has
the canonical path `input`. -/
structure Loads (v : Volume) (args : List String) (o : Options) (input : String) (g : Grammar) :
    Prop where
  parse_eq : parse args = .ok (.run o)
  canonicalize_eq : v.faultyFind faults o.input = .ok input
  load_eq : Grammar.load faults v input = .ok g

/-- What becomes of writing the results, with all that is said on the way. -/
inductive Leaves (v : Volume) (o : Options) (g : Grammar) (path : String) : Outcome → Volume → Prop
  | artifactFailed {output : String} {after : Volume} {error : FileError} :
    v.faultyWrite faults path (artifactContent o g) = (.error error, after) →
    Leaves v o g path { output, failure := some (.writeArtifact path error) } after
  | artifact {output : String} {after : Volume} : o.automaton = false →
    v.faultyWrite faults path (artifactContent o g) = (.ok (), after) →
    Leaves v o g path { output } after
  | reportFailed {output : String} {between after : Volume} {error : FileError} :
    o.automaton = true →
    v.faultyWrite faults path (artifactContent o g) = (.ok (), between) →
    between.faultyWrite faults (reportPath path) (reportContent g) = (.error error, after) →
    Leaves v o g path { output, failure := some (.writeReport error) } after
  | both {output : String} {between after : Volume} : o.automaton = true →
    v.faultyWrite faults path (artifactContent o g) = (.ok (), between) →
    between.faultyWrite faults (reportPath path) (reportContent g) = (.ok (), after) →
    Leaves v o g path { output } after

/-- The ways a run can go. -/
inductive Goes (v : Volume) (args : List String) : Outcome → Volume → Prop
  | help : parse args = .ok .help → Goes v args { output := helpText } v
  | version : parse args = .ok .version → Goes v args { output := versionText } v
  | misused {error : UsageError} : parse args = .error error →
    Goes v args { failure := some (.usage error) } v
  | inputMissed {o : Options} {error : FileError} : parse args = .ok (.run o) →
    v.faultyFind faults o.input = .error error →
    Goes v args { failure := some (.findInput error) } v
  | notLoaded {o : Options} {input : String} {error : LoadError} : parse args = .ok (.run o) →
    v.faultyFind faults o.input = .ok input →
    Grammar.load faults v input = .error error →
    Goes v args { failure := some (.loadGrammar input error) } v
  | loaded {o : Options} {input : String} {g : Grammar} {outcome : Outcome} {after : Volume} :
    Loads faults v args o input g → Leaves faults v o g (artifactPath o input) outcome after →
    Goes v args outcome after

variable {faults} {v after : Volume} {outcome : Outcome} {args : List String}

theorem leaves_of_run {o : Options} {g : Grammar} {path : String}
    (hrun : (writeResults (Volume.faultyFileSystem faults) o g path).run v = (outcome, after)) :
    Leaves faults v o g path outcome after := by
  rcases hartifact : v.faultyWrite faults path (artifactContent o g) with ⟨answer, between⟩
  simp only [writeResults, StateT.run_bind, Volume.run_write] at hrun
  rw [← artifactContent, hartifact, pure_bind] at hrun
  cases answer with
  | error error =>
    obtain ⟨rfl, rfl⟩ := Prod.mk.inj hrun
    exact .artifactFailed hartifact
  | ok =>
    dsimp only at hrun
    split at hrun
    next hautomaton =>
      rcases hreport : between.faultyWrite faults (reportPath path) (reportContent g) with
        ⟨answer, final⟩
      simp only [StateT.run_bind, Volume.run_write] at hrun
      rw [← reportContent, hreport, pure_bind] at hrun
      cases answer with
      | error error =>
        obtain ⟨rfl, rfl⟩ := Prod.mk.inj hrun
        exact .reportFailed hautomaton hartifact hreport
      | ok =>
        obtain ⟨rfl, rfl⟩ := Prod.mk.inj hrun
        exact .both hautomaton hartifact hreport
    next hautomaton =>
      obtain ⟨rfl, rfl⟩ := Prod.mk.inj hrun
      exact .artifact (Bool.eq_false_iff.mpr hautomaton) hartifact

theorem goes_of_run (hrun : runUnder faults v args = (outcome, after)) :
    Goes faults v args outcome after := by
  unfold runUnder run at hrun
  split at hrun
  next error hparse =>
    obtain ⟨rfl, rfl⟩ := Prod.mk.inj hrun
    exact .misused hparse
  next hparse =>
    obtain ⟨rfl, rfl⟩ := Prod.mk.inj hrun
    exact .help hparse
  next hparse =>
    obtain ⟨rfl, rfl⟩ := Prod.mk.inj hrun
    exact .version hparse
  next o hparse =>
    simp only [runWith, StateT.run_bind, Volume.run_canonicalize, pure_bind] at hrun
    split at hrun
    next error hfind =>
      obtain ⟨rfl, rfl⟩ := Prod.mk.inj hrun
      exact .inputMissed hparse hfind
    next input hfind =>
      simp only [StateT.run_bind, Grammar.run_ofFile, pure_bind] at hrun
      split at hrun
      next error hload =>
        obtain ⟨rfl, rfl⟩ := Prod.mk.inj hrun
        exact .notLoaded hparse hfind hload
      next g hload => exact .loaded ⟨hparse, hfind, hload⟩ (leaves_of_run hrun)

theorem goes_of_runOn (hrun : runOn v args = (outcome, after)) :
    Goes .none v args outcome after := by
  rw [← runUnder_none] at hrun
  exact goes_of_run hrun

/-- However a run goes, what it leaves is well-formed again. -/
theorem wellFormed_of_run (hv : v.WellFormed)
    (hrun : runUnder faults v args = (outcome, after)) : after.WellFormed := by
  cases goes_of_run hrun with
  | help | version | misused | inputMissed | notLoaded => exact hv
  | loaded hloads hleaves =>
    cases hleaves with
    | artifactFailed hartifact | artifact _ hartifact => exact hv.faultyWrite hartifact
    | reportFailed _ hartifact hreport | both _ hartifact hreport =>
      exact (hv.faultyWrite hartifact).faultyWrite hreport

/-- The places of the output and, if it is asked for, of the report. -/
def IsResult (faults : Faults) (v : Volume) (args : List String) (place : Place) : Prop :=
  ∃ o input, parse args = .ok (.run o) ∧ v.faultyFind faults o.input = .ok input ∧
    (v.placeOf? (artifactPath o input) = some place ∨
      o.automaton = true ∧ v.placeOf? (reportPath (artifactPath o input)) = some place)

/-- What a failed run leaves of a volume: all of it, unless it failed at writing the artifact or the
report. Then the file can hold anything that it failed at, and before the report the artifact has
been written. -/
structure FailsCleanly (faults : Faults) (v : Volume) (args : List String) (outcome : Outcome)
    (after : Volume) : Prop where
  unchanged : (∀ path error, outcome.failure ≠ some (.writeArtifact path error)) →
    (∀ error, outcome.failure ≠ some (.writeReport error)) → after = v
  artifact : ∀ path error, outcome.failure = some (.writeArtifact path error) →
    ∃ o input g, Loads faults v args o input g ∧ path = artifactPath o input ∧
      v.FailedWrite faults path (artifactContent o g) error after
  report : ∀ error, outcome.failure = some (.writeReport error) →
    ∃ o input g place, Loads faults v args o input g ∧ o.automaton = true ∧
      v.placeOf? (artifactPath o input) = some place ∧
      (v.put place (artifactContent o g)).FailedWrite faults (reportPath (artifactPath o input))
        (reportContent g) error after
  others : Volume.SameOutside (IsResult faults v args) v after

theorem failsCleanly (hrun : runUnder faults v args = (outcome, after))
    (hfailed : outcome.exitCode ≠ 0) : FailsCleanly faults v args outcome after := by
  cases goes_of_run hrun with
  | help | version => exact absurd rfl hfailed
  | misused | inputMissed | notLoaded =>
    exact ⟨fun _ _ => rfl, by simp, by simp, .refl⟩
  | @loaded o input g _ _ hloads hleaves =>
    have hresult (place : Place) (hplace : v.placeOf? (artifactPath o input) = some place) :
        IsResult faults v args place :=
      ⟨o, input, hloads.parse_eq, hloads.canonicalize_eq, .inl hplace⟩
    cases hleaves with
    | artifact | both => exact absurd rfl hfailed
    | artifactFailed hartifact =>
      have hwrite := Volume.failedWrite_of_faultyWrite hartifact
      refine ⟨fun hother => absurd rfl (hother _ _), ?_, by simp, .failedWrite hresult .refl hwrite⟩
      rintro path error ⟨⟩
      exact ⟨o, input, g, hloads, rfl, hwrite⟩
    | reportFailed hautomaton hartifact hreport =>
      obtain ⟨-, place, hplace, rfl⟩ := Volume.exists_of_faultyWrite hartifact
      have hwrite := Volume.failedWrite_of_faultyWrite hreport
      refine ⟨fun _ hother => absurd rfl (hother _), by simp, ?_, ?_⟩
      · rintro error ⟨⟩
        exact ⟨o, input, g, place, hloads, hautomaton, hplace, hwrite⟩
      · refine .failedWrite (fun other hother => ?_) (.put (hresult place hplace) _ .refl) hwrite
        rw [Volume.placeOf?_put] at hother
        exact ⟨o, input, hloads.parse_eq, hloads.canonicalize_eq, .inr ⟨hautomaton, hother⟩⟩

end Faulty

/-- The record of the grammar that has a rule `S -> x`. -/
def oneRuleText : String :=
  "[\x7b\"S\":[[[\"x\"]]]\x7d,\"S\",[],\x7b\"S\":\"int\"\x7d]"

/-- A directory with one grammar in it. -/
def singleFile (name : String) : Volume where
  directories := [["home"]]
  files := [(["home", name], oneRuleText.toUTF8)]
  working := ["home"]

/-- The report of `..automaton` belongs to `..`, which is a directory. -/
def dottedArgs : List String :=
  ["g.json", "-o", "..automaton", "--automaton", "--compact"]

theorem dotted_failsCleanly : ∃ outcome after,
    runUnder .none (singleFile "g.json") dottedArgs = (outcome, after) ∧ outcome.exitCode ≠ 0 ∧
    FailsCleanly .none (singleFile "g.json") dottedArgs outcome after := by
  have hfailed : (runUnder .none (singleFile "g.json") dottedArgs).1.exitCode ≠ 0 := by
    decide +kernel
  exact ⟨_, _, rfl, hfailed, failsCleanly rfl hfailed⟩

/-- There is no room left for what is written to a path, as it turns out when the file is open. -/
def noRoomFor (path : String) : Faults :=
  { Faults.none with
    write := fun _ other _ =>
      if other = path then some (.broken (.other "No space left on device (os error 28)") .empty)
      else none }

/-- A failed run has created a file. -/
def FailsCreating (faults : Faults) (v : Volume) (args : List String) (place : Place) : Prop :=
  (runUnder faults v args).1.exitCode = 1 ∧ v.content? place = none ∧
    (runUnder faults v args).2.content? place ≠ none

instance (faults : Faults) (v : Volume) (args : List String) (place : Place) :
    Decidable (FailsCreating faults v args place) :=
  inferInstanceAs (Decidable (_ ∧ _ ∧ _))

def reportedArgs : List String :=
  ["g.json", "--automaton"]

/-- The output is the input. -/
def replacedArgs : List String :=
  ["g.json", "-o", "g.json"]

/-- The output stays behind if the report is refused, and so does a file whose writing breaks off,
be it the output or the report. The output can be the input, which is empty then. -/
theorem failing_leaves_files :
    FailsCreating .none (singleFile "g.json") dottedArgs ["home", "..automaton"] ∧
    FailsCreating (noRoomFor "/home/g.artifact.json") (singleFile "g.json") reportedArgs
      ["home", "g.artifact.json"] ∧
    FailsCreating (noRoomFor "/home/g.artifact.automaton") (singleFile "g.json") reportedArgs
      ["home", "g.artifact.automaton"] ∧
    (runUnder (noRoomFor "g.json") (singleFile "g.json") replacedArgs).1.exitCode = 1 ∧
    (runUnder (noRoomFor "g.json") (singleFile "g.json") replacedArgs).2.content?
      ["home", "g.json"] = some .empty := by
  decide +kernel

end CommandLine

end ShiftReduce
