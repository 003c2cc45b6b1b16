import CodonGrammar.Codec.Basic
import CodonGrammar.CommandLine.File
import CodonGrammar.CommandLine.Invocation
import CodonGrammar.Derivation.TreeGrowth
import CodonGrammar.Display.Highlight
import CodonGrammar.Display.Listing
import CodonGrammar.Log.Threshold
import CodonGrammar.Number.Loose
import CodonGrammar.Settings

/-!
# Executing commands

A command writes text and log records, and it may fail; then what it has written so far stays. A
sentence that still holds non-terminals is marked as partial. The program ends with status zero,
with one if the command failed, and with two if its arguments were wrong.
-/

namespace CodonGrammar.CommandLine

open Display (Style)

/-- Why a command fails. -/
inductive Failure where
  | file (error : GrammarFileError)
  | codons (error : CodonError)
  | limit (error : LimitError)
  | choice (error : ChoiceError RuleCodonsError)
  /-- No random chromosome can have so many codons. -/
  | codonCount (count : Int) (error : CodecError)
  | decode (error : DecodeError)
  /-- The strategy is blank. -/
  | noStrategy
  /-- A number is blank that is needed. -/
  | noNumber

/-- What a command has written, and why it failed if it did. -/
structure Outcome where
  output : String
  records : List Log.Record
  failure : Option Failure

/-- A command fails before it has written anything. -/
def Outcome.failed (failure : Failure) : Outcome := ⟨"", [], some failure⟩

/-! ## Messages -/

/-- A text of at most fifty characters, with the middle left out where it is longer. -/
def shortened (text : String) : String :=
  if text.length ≤ 50 then text
  else
    String.ofList (text.toList.take 25) ++ "..."
      ++ String.ofList (text.toList.drop (text.length - 24))

/-- The report about a faulty field with an integer. -/
def faultText (number : Int) (fault : FieldFault) : String :=
  "\n" ++ fault.field ++ "\n  " ++ fault.error.message ++ " [type=" ++ fault.error.name
    ++ ", input_value=" ++ shortened number.repr ++ ", input_type=int]"

/-- The report about a chromosome that cannot have so many codons. -/
def codonCountText (count : Int) : CodecError → String
  | .noChromosomes => noChromosomesMessage
  | .range error => error.message
  | .count error => error.message
  | .spec (.together error) => error.message
  | .spec (.fields faults) =>
    faults.length.repr ++ " validation error" ++ (if faults.length = 1 then "" else "s")
      ++ " for ChromosomeSpec" ++ String.join (faults.map (faultText count))

def Failure.message (path : String) : Failure → String
  | file .nullCharacter => nullCharacterMessage
  | file (.file error) => error.message path
  | file (.encoding error) => error.message
  | file (.source error) => error.message
  | codons error => error.message
  | limit error => error.message
  | choice error => error.message RuleCodonsError.message
  | codonCount count error => codonCountText count error
  | decode error => error.message
  | noStrategy => "[] is not a valid Expansion"
  | noNumber => "a number is needed"

def Failure.notice (path : String) (failure : Failure) : String :=
  match failure with
  | file (.source _) => path ++ ": " ++ failure.message path
  | _ => failure.message path

/-- What the log says about a failure of a command. -/
def Failure.logText (name : CommandName) (path : String) (failure : Failure) : String :=
  let start := match failure with
    | file (.source _) => "Failed to parse " ++ path
    | file (.file _) => "Failed to read " ++ path
    | _ => "Invalid arguments for " ++ name.word
  start ++ ": " ++ failure.message path

def programLogger : String := "cfgevo.main"

/-! ## Commands -/

/-- A sentence on a line of its own, marked if it is partial. -/
def sentenceLine (style : Style) (sentence : List Symbol) : String :=
  let mark :=
    if sentence.any (·.nonTerminal?.isSome) then " " ++ style.tag "partial" .error else ""
  style.sentence sentence ++ mark ++ "\n"

def display (style : Style) (columns : Nat) (grammar : Grammar) : Outcome :=
  let output :=
    style.header columns "Grammar" "-" ++ "\n" ++ Display.highlight style grammar.toSource
      ++ style.header columns "Rules" "-" ++ "\n" ++ Display.ruleTable style grammar ++ "\n"
  ⟨output, [], none⟩

def deriveTree (style : Style) (grammar : Grammar) (reader : Codons) (limit : Nat) : Outcome :=
  match (grammar.deriveTree Codec.indexChooser limit (.shared reader)).1 with
  | .error error => .failed (.choice error)
  | .ok derived =>
    let tree := derived.result
    ⟨Display.treeText style tree ++ "\n" ++ sentenceLine style tree.sentence,
      derived.treeRecords limit, none⟩

def deriveSentence (style : Style) (grammar : Grammar) (reader : Codons) (limit : Nat)
    (strategy : Strategy) : Outcome :=
  match (grammar.derive Codec.indexChooser strategy limit (.shared reader)).1 with
  | .error error => .failed (.choice error)
  | .ok derived => ⟨sentenceLine style derived.result, derived.sentenceRecords limit, none⟩

/-- Goes on with a limit, which has to be a positive number. -/
def withLimit (limit : Option Int) (proceed : Nat → Outcome) : Outcome :=
  match limit with
  | none => .failed .noNumber
  | some limit =>
    match checkLimit limit with
    | .error error => .failed (.limit error)
    | .ok limit => proceed limit

/-- Derives a sentence, or a tree with its sentence. -/
def derive (style : Style) (grammar : Grammar) (codons : List Int) (limit : Option Int)
    (asTree : Bool) (strategy : Option Strategy) : Outcome :=
  match Codons.ofInts codons with
  | .error error => .failed (.codons error)
  | .ok reader =>
    match asTree, strategy with
    | true, _ => withLimit limit (deriveTree style grammar reader)
    | false, none => .failed .noStrategy
    | false, some strategy =>
      withLimit limit fun limit => deriveSentence style grammar reader limit strategy

variable {σ : Type}

/-- Decodes random genotypes into sentences, as many as are wanted. -/
def sampleTimes (style : Style) (codec : Codec) (source : RandomSource σ) : Nat → σ → Outcome
  | 0, _ => ⟨"", [], none⟩
  | count + 1, state =>
    let (chromosomes, state) := codec.newGenotype source state
    match codec.run (.ofIntegers chromosomes) with
    | .error error => .failed (.decode error)
    | .ok derived =>
      let others := sampleTimes style codec source count state
      ⟨sentenceLine style derived.result ++ others.output,
        derived.sentenceRecords codec.limit.toNat ++ others.records, others.failure⟩

/-- How many sentences are derived if nothing else is said. -/
def usualCount : Int := 5

/-- Derives sentences from random codons below a number. -/
def sample (style : Style) (grammar : Grammar) (codonMax : Nat)
    (codonCount limit count : Option Int) (source : RandomSource σ) (state : σ) : Outcome :=
  let lengths : CountInput :=
    match codonCount with
    | some number => .fixed (.integer number)
    | none => .range (.pair (.list []))
  match Codec.ofIntegers .loose grammar (.ends 0 codonMax) lengths (limit.getD defaultLimit) with
  | .error error => .failed (.codonCount (codonCount.getD 0) error)
  | .ok codec =>
    match count, limit with
    | none, _ => .failed .noNumber
    | some count, some _ => sampleTimes style codec source count.toNat state
    | some count, none => if count ≤ 0 then ⟨"", [], none⟩ else .failed .noNumber

/-! ## The program -/

/-- What the program finds around it: its environment, how its output looks, the files, and a
source of random numbers for each seed. What a path leads to depends on what has been written to the
log file before. -/
structure Surroundings (σ : Type) where
  environment : Environment
  style : Style
  content : (logFile logLines : String) → (path : String) → Except FileError (List UInt8)
  source : RandomSource σ
  seeded : Option Int → σ

/-- The settings file that is read if no other one is named. -/
def usualSettingsFile : String := ".env"

/-- The environment completed from the settings file at a path, or from the usual one if the path is
empty. A file that cannot be read sets nothing. -/
def completed (environment : Environment) (path : String)
    (content : String → Except FileError (List UInt8)) :
    Except SettingsFileError Environment :=
  if path.contains '\x00' then .error .nullCharacter
  else
    match content (if path.isEmpty then usualSettingsFile else path) with
    | .error _ => .ok environment
    | .ok bytes => SettingsFile.complete environment bytes

namespace Invocation

def onGrammar (invocation : Invocation) (surroundings : Surroundings σ) (columns : Nat)
    (settings : Settings) (grammar : Grammar) : Outcome :=
  let style := surroundings.style
  match invocation.command with
  | .display => display style columns grammar
  | .derive codons limit asTree strategy =>
    derive style grammar codons (limit.resolve settings.limit.val) asTree strategy
  | .sample count seed codonCount limit =>
    sample style grammar settings.codonMax.val (codonCount.resolve settings.codonCount.val)
      (limit.resolve settings.limit.val) (count.resolve usualCount) surroundings.source
      (surroundings.seeded seed.number?)

/-- Executes the command, before which the given lines were written to the log file. -/
def outcome (invocation : Invocation) (surroundings : Surroundings σ) (columns : Nat)
    (settings : Settings) (logLines : String) : Outcome :=
  match readGrammar (plainPath invocation.file)
      (surroundings.content settings.logFile logLines) with
  | .error error => .failed (.file error)
  | .ok reading =>
    let outcome := invocation.onGrammar surroundings columns settings reading.grammar
    { outcome with records := reading.records ++ outcome.records }

/-- The word for the least level of the log records that are kept. -/
def levelWord (invocation : Invocation) (settings : Settings) : String :=
  match invocation.mode with
  | some mode => if mode.isEmpty then settings.logLevel else Log.settingOfMode mode
  | none => settings.logLevel

end Invocation

/-- Why the program breaks off before it executes a command. -/
inductive Abort where
  /-- The settings file cannot be used. -/
  | settingsFile (error : SettingsFileError)
  /-- The settings are wrong. -/
  | settings (faults : List FieldFault)
  /-- The log cannot be set up. -/
  | level (error : Log.LevelError)

/-- How the program ends. -/
inductive Ending where
  | aborted (cause : Abort)
  /-- It breaks off in the middle of a command, for which a number was blank. -/
  | broken (output logFile logLines : String)
  /-- It ends with a status, after it has written an output, and lines to a log file if there are
  any. -/
  | ended (status : Nat) (output logFile logLines : String)

def Ending.atOnce (status : Nat) : Ending := .ended status "" "" ""

/-- Runs an invocation with the settings, where log records from a level on are kept. -/
def Invocation.run (invocation : Invocation) (surroundings : Surroundings σ) (columns : Nat)
    (settings : Settings) (level : Log.Level) : Ending :=
  let path := plainPath invocation.file
  let name := invocation.command.name
  let first : Log.Record :=
    ⟨.info, programLogger, "Running command " ++ name.word ++ " on " ++ path⟩
  let outcome := invocation.outcome surroundings columns settings (Log.text level [first])
  let log := fun records => Log.text level (first :: records)
  match outcome.failure with
  | none => .ended 0 outcome.output settings.logFile (log outcome.records)
  | some .noNumber => .broken outcome.output settings.logFile (log outcome.records)
  | some failure =>
    let last : Log.Record := ⟨.error, programLogger, failure.logText name path⟩
    let notice := surroundings.style.tag "error" .error ++ " " ++ failure.notice path ++ "\n"
    .ended 1 (outcome.output ++ notice) settings.logFile (log (outcome.records ++ [last]))

/-- Runs an invocation in an environment that is complete. -/
def Invocation.runIn (invocation : Invocation) (surroundings : Surroundings σ)
    (environment : Environment) : Ending :=
  match Settings.ofEnvironment .loose environment with
  | .error faults => .aborted (.settings faults)
  | .ok settings =>
    match Log.Level.ofSetting (invocation.levelWord settings) with
    | .error error => .aborted (.level error)
    | .ok level =>
      invocation.run surroundings (Display.columnsOf (environment.get? "COLUMNS")) settings level

/-- Runs the program. -/
def run (surroundings : Surroundings σ) (arguments : List String) : Ending :=
  match read arguments with
  | .error .help => .atOnce 0
  | .error .refused => .atOnce 2
  | .ok invocation =>
    match completed surroundings.environment "" (surroundings.content "" "") with
    | .error error => .aborted (.settingsFile error)
    | .ok environment => invocation.runIn surroundings environment

end CodonGrammar.CommandLine
