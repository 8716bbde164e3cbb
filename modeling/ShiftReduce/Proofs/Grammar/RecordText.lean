import ShiftReduce.Grammar.RecordReader
import ShiftReduce.Proofs.Json.Records

/-!
# The texts of grammar records

A grammar record is read from just the JSON texts that mean it: the one that lists its fields in an
object, in any order and among whatever other members, or the one that lists them in an array.
-/

namespace ShiftReduce

open Json Json.Reader

namespace Rule

def rightField : RecordField Rule where
  name := "production"
  Means := MeansList MeansString
  default := none
  get := Rule.right

def actionField : RecordField Rule where
  name := "code"
  Means := MeansString
  default := some ""
  get := Rule.action

/-- The fields of a rule in the order of an array, with what their values mean. -/
def fields : List (RecordField Rule) :=
  [rightField, actionField]

namespace Fields

def rightSlot : FieldSlot Rule Fields where
  field := rightField
  reader := sequenceOf string
  reads := reads_sequenceOf reads_string
  met := right
  put f value := { f with right := value }

def actionSlot : FieldSlot Rule Fields where
  field := actionField
  reader := string
  reads := reads_string
  met := action
  put f value := { f with action := value }

def slots : List (FieldSlot Rule Fields) :=
  [rightSlot, actionSlot]

theorem forall_mem_slots {P : FieldSlot Rule Fields → Prop} :
    (∀ slot ∈ slots, P slot) ↔ P rightSlot ∧ P actionSlot := by
  simp [slots]

theorem lawfulSlots : LawfulSlots slots where
  nodup := by decide
  met_put := forall_mem_slots.mpr ⟨fun _ _ => rfl, fun _ _ => rfl⟩
  met_put_of_ne := by
    simp only [forall_mem_slots]
    and_intros <;> first | exact fun hne => absurd rfl hne | exact fun _ _ _ => rfl
  ext s s' h := by
    rw [forall_mem_slots] at h
    cases s
    cases s'
    rw [mk.injEq]
    exact h
  exists_met rule p :=
    ⟨{ right := if p "production" then some rule.right else none
       action := if p "code" then some rule.action else none }, forall_mem_slots.mpr ⟨rfl, rfl⟩⟩

theorem readsSlots : ReadsSlots member slots where
  slot := forall_mem_slots.mpr ⟨fun _ => rfl, fun _ => rfl⟩
  other key hkey f := by
    unfold member
    split
    · exact absurd (by decide) hkey
    · exact absurd (by decide) hkey
    · rfl

theorem finishes : Finishes finish slots := by
  intro f text rule rest
  rw [forall_mem_slots]
  constructor
  · intro hread
    obtain ⟨right, _, hrequired, hresult⟩ := exists_of_read_bind hread
    obtain ⟨hright, rfl⟩ := eq_of_read_required hrequired
    cases hresult
    exact ⟨rfl, Option.or_none.trans hright, or_some_eq_some_iff.mpr rfl⟩
  · rintro ⟨rfl, hright, haction⟩
    have hright : f.right = some rule.right := Option.or_none.symm.trans hright
    have haction : f.action.getD "" = rule.action := or_some_eq_some_iff.mp haction
    rw [finish, read_bind_of_ok (read_required _ hright _), haction, read_pure]

end Fields

theorem readsRest_ofSequence :
    ReadsRest true ofSequence fun vs rule => HoldsInOrder rule fields vs := by
  have hreads := readsRest_required recordName 2 0 (reads_sequenceOf reads_string) fun right =>
    readsRest_optional "" reads_string fun action => readsRest_pure ({ right, action } : Rule)
  refine hreads.congr fun vs rule => ⟨?_, ?_⟩
  · rintro ⟨right, hright, action, haction, hend, rfl⟩
    exact ⟨hright, haction, hend⟩
  · rintro ⟨hright, haction, hend⟩
    exact ⟨rule.right, hright, rule.action, haction, hend, rfl⟩

theorem reads_reader : Reads reader (MeansRecord fields) :=
  reads_record Fields.lawfulSlots (Fields.forall_mem_slots.mpr ⟨rfl, rfl⟩)
    readsRest_ofSequence Fields.readsSlots Fields.finishes

end Rule

namespace GrammarRecord

def rulesField : RecordField GrammarRecord where
  name := "grammar"
  Means := MeansMap (MeansList (MeansRecord Rule.fields))
  default := none
  get := rules

def startField : RecordField GrammarRecord where
  name := "start-symbol"
  Means := MeansString
  default := none
  get := start

def prioritiesField : RecordField GrammarRecord where
  name := "priorities"
  Means := MeansList MeansString
  default := some []
  get := priorities

def resultTypesField : RecordField GrammarRecord where
  name := "nonterminal-types"
  Means := MeansMap MeansString
  default := some []
  get := resultTypes

def headerExtrasField : RecordField GrammarRecord where
  name := "header-extras"
  Means := MeansList MeansString
  default := some []
  get := headerExtras

def verboseField : RecordField GrammarRecord where
  name := "verbose"
  Means := MeansBoolean
  default := some false
  get := verbose

def parserNameField : RecordField GrammarRecord where
  name := "parser-name"
  Means := MeansString
  default := some ""
  get := parserName

/-- The fields of a grammar record in the order of an array, with what their values mean. -/
def fields : List (RecordField GrammarRecord) :=
  [rulesField, startField, prioritiesField, resultTypesField, headerExtrasField, verboseField,
    parserNameField]

namespace Fields

def rulesSlot : FieldSlot GrammarRecord Fields where
  field := rulesField
  reader := rulesReader
  reads := reads_toList_mapOf (reads_sequenceOf Rule.reads_reader)
  met := rules
  put f value := { f with rules := value }

def startSlot : FieldSlot GrammarRecord Fields where
  field := startField
  reader := string
  reads := reads_string
  met := start
  put f value := { f with start := value }

def prioritiesSlot : FieldSlot GrammarRecord Fields where
  field := prioritiesField
  reader := sequenceOf string
  reads := reads_sequenceOf reads_string
  met := priorities
  put f value := { f with priorities := value }

def resultTypesSlot : FieldSlot GrammarRecord Fields where
  field := resultTypesField
  reader := resultTypesReader
  reads := reads_toList_mapOf reads_string
  met := resultTypes
  put f value := { f with resultTypes := value }

def headerExtrasSlot : FieldSlot GrammarRecord Fields where
  field := headerExtrasField
  reader := sequenceOf string
  reads := reads_sequenceOf reads_string
  met := headerExtras
  put f value := { f with headerExtras := value }

def verboseSlot : FieldSlot GrammarRecord Fields where
  field := verboseField
  reader := boolean
  reads := reads_boolean
  met := verbose
  put f value := { f with verbose := value }

def parserNameSlot : FieldSlot GrammarRecord Fields where
  field := parserNameField
  reader := string
  reads := reads_string
  met := parserName
  put f value := { f with parserName := value }

def slots : List (FieldSlot GrammarRecord Fields) :=
  [rulesSlot, startSlot, prioritiesSlot, resultTypesSlot, headerExtrasSlot, verboseSlot,
    parserNameSlot]

theorem forall_mem_slots {P : FieldSlot GrammarRecord Fields → Prop} :
    (∀ slot ∈ slots, P slot) ↔ P rulesSlot ∧ P startSlot ∧ P prioritiesSlot ∧ P resultTypesSlot ∧
      P headerExtrasSlot ∧ P verboseSlot ∧ P parserNameSlot := by
  simp [slots]

theorem lawfulSlots : LawfulSlots slots where
  nodup := by decide
  met_put := by
    rw [forall_mem_slots]
    and_intros <;> exact fun _ _ => rfl
  met_put_of_ne := by
    simp only [forall_mem_slots]
    and_intros <;> first | exact fun hne => absurd rfl hne | exact fun _ _ _ => rfl
  ext s s' h := by
    rw [forall_mem_slots] at h
    cases s
    cases s'
    rw [mk.injEq]
    exact h
  exists_met r p :=
    ⟨{ rules := if p "grammar" then some r.rules else none
       start := if p "start-symbol" then some r.start else none
       priorities := if p "priorities" then some r.priorities else none
       resultTypes := if p "nonterminal-types" then some r.resultTypes else none
       headerExtras := if p "header-extras" then some r.headerExtras else none
       verbose := if p "verbose" then some r.verbose else none
       parserName := if p "parser-name" then some r.parserName else none },
      forall_mem_slots.mpr ⟨rfl, rfl, rfl, rfl, rfl, rfl, rfl⟩⟩

theorem readsSlots : ReadsSlots member slots where
  slot := by
    rw [forall_mem_slots]
    and_intros <;> exact fun _ => rfl
  other key hkey f := by
    unfold member
    split <;> first | rfl | exact absurd (by decide) hkey

theorem finishes : Finishes finish slots := by
  intro f text r rest
  rw [forall_mem_slots]
  constructor
  · intro hread
    obtain ⟨rules, _, hrulesRead, hbehind⟩ := exists_of_read_bind hread
    obtain ⟨start, _, hstartRead, hresult⟩ := exists_of_read_bind hbehind
    obtain ⟨hstart, rfl⟩ := eq_of_read_required hstartRead
    obtain ⟨hrules, rfl⟩ := eq_of_read_required hrulesRead
    cases hresult
    exact ⟨rfl, Option.or_none.trans hrules, Option.or_none.trans hstart,
      or_some_eq_some_iff.mpr rfl, or_some_eq_some_iff.mpr rfl, or_some_eq_some_iff.mpr rfl,
      or_some_eq_some_iff.mpr rfl, or_some_eq_some_iff.mpr rfl⟩
  · rintro ⟨rfl, hrules, hstart, hpriorities, hresultTypes, hheaderExtras, hverbose, hparserName⟩
    have hrules : f.rules = some r.rules := Option.or_none.symm.trans hrules
    have hstart : f.start = some r.start := Option.or_none.symm.trans hstart
    have hpriorities : f.priorities.getD [] = r.priorities := or_some_eq_some_iff.mp hpriorities
    have hresultTypes : f.resultTypes.getD [] = r.resultTypes := or_some_eq_some_iff.mp hresultTypes
    have hheaderExtras : f.headerExtras.getD [] = r.headerExtras :=
      or_some_eq_some_iff.mp hheaderExtras
    have hverbose : f.verbose.getD false = r.verbose := or_some_eq_some_iff.mp hverbose
    have hparserName : f.parserName.getD "" = r.parserName := or_some_eq_some_iff.mp hparserName
    rw [finish, read_bind_of_ok (read_required _ hrules _),
      read_bind_of_ok (read_required _ hstart _), hpriorities, hresultTypes, hheaderExtras,
      hverbose, hparserName, read_pure]

end Fields

theorem readsRest_ofSequence : ReadsRest true ofSequence fun vs r => HoldsInOrder r fields vs := by
  have hreads := readsRest_required recordName 7 0 Fields.rulesSlot.reads fun rules =>
    readsRest_required recordName 7 1 reads_string fun start =>
    readsRest_optional [] (reads_sequenceOf reads_string) fun priorities =>
    readsRest_optional [] Fields.resultTypesSlot.reads fun resultTypes =>
    readsRest_optional [] (reads_sequenceOf reads_string) fun headerExtras =>
    readsRest_optional false reads_boolean fun verbose =>
    readsRest_optional "" reads_string fun parserName =>
    readsRest_pure ({
      rules, start, priorities, resultTypes, headerExtras, verbose, parserName } : GrammarRecord)
  refine hreads.congr fun vs r => ⟨?_, ?_⟩
  · rintro ⟨_, hrules, _, hstart, _, hpriorities, _, hresultTypes, _, hheaderExtras, _, hverbose, _,
      hparserName, hend, rfl⟩
    exact ⟨hrules, hstart, hpriorities, hresultTypes, hheaderExtras, hverbose, hparserName, hend⟩
  · rintro ⟨hrules, hstart, hpriorities, hresultTypes, hheaderExtras, hverbose, hparserName, hend⟩
    exact ⟨_, hrules, _, hstart, _, hpriorities, _, hresultTypes, _, hheaderExtras, _, hverbose, _,
      hparserName, hend, rfl⟩

theorem reads_reader : Reads reader (MeansRecord fields) :=
  reads_record Fields.lawfulSlots
    (Fields.forall_mem_slots.mpr ⟨rfl, rfl, rfl, rfl, rfl, rfl, rfl⟩)
    readsRest_ofSequence Fields.readsSlots Fields.finishes

/-- Decoding takes just the JSON texts that mean a grammar record, as the record that they mean. -/
theorem ofJson_eq_ok_iff {text : String} {r : GrammarRecord} :
    ofJson text = .ok r ↔ ∃ v, IsTextOf text.toList v ∧ MeansRecord fields v r :=
  reads_reader.run_eq_ok_iff

end GrammarRecord

end ShiftReduce
