import LightCone.Proofs.Numerals
import LightCone.Settings.Variables
import Mathlib.Logic.Function.Basic

/-!
Each variable sets one setting, and no variable sets another.

The names of the variables, the kinds of text that they take and the defaults are listed beside the
settings that they are for. This file

1. says which texts stand for a value of each kind (`VariableKind.Writes`), and reads just these
   (`VariableKind.read_trimBlanks_iff`);
2. lists the settings that have a variable (`table`) and those that have none (`fixed`), which are
   all settings together (`complete`);
3. finds each setting to be read from the text of its own variable (`ofVariables_setting`), so that it
   is what this text writes, else the default, whatever the other variables are
   (`ofVariables_independent`).
-/
namespace LightCone.Settings

/-! ## Kinds of variables -/

/-- What the text of a variable is read as: a binary64 number, a span in whole milliseconds or
    seconds, or a whole number. -/
inductive VariableKind where
  | number
  | millis
  | secs
  | count
  deriving DecidableEq

namespace VariableKind

def Value : VariableKind → Type
  | number => Binary64
  | millis => Duration
  | secs => Duration
  | count => Nat

/-- A text writes a span as a whole number of units, and the span has exactly that many. -/
def WritesSpan (unit : Nat) (cs : List Char) (d : Duration) : Prop :=
  ∃ n, WritesDigits cs n ∧ d.nanos = n * unit

/-- A text writes a value of a kind. -/
def Writes : (kind : VariableKind) → List Char → kind.Value → Prop
  | number => Binary64.Writes
  | millis => WritesSpan 1000000
  | secs => WritesSpan nanosPerSecond
  | count => WritesDigits

def read : (kind : VariableKind) → List Char → Option kind.Value
  | number => Binary64.read
  | millis => fun cs => (readWord cs).map Duration.ofMillis
  | secs => fun cs => (readWord cs).map Duration.ofSecs
  | count => readWord

section Reading

variable {unit n : Nat} {cs : List Char} {d : Duration}

/-- A number of 64 bits in milliseconds or seconds is a span, not cut at the longest one. -/
theorem nanos_ofNanos_word (hunit : unit ≤ nanosPerSecond) (hn : n < wordLimit) :
    (Duration.ofNanos (n * unit)).nanos = n * unit := by
  have hspan : n * unit ≤ Duration.longest.nanos := by
    calc n * unit ≤ (wordLimit - 1) * nanosPerSecond := Nat.mul_le_mul (by omega) hunit
      _ ≤ Duration.longest.nanos := by decide
  rw [Duration.nanos_ofNanos, Nat.min_eq_left hspan]

theorem readSpan_eq_some_iff (hunit : unit ≤ nanosPerSecond) :
    ((readWord cs).map fun n => Duration.ofNanos (n * unit)) = some d ↔ WritesSpan unit cs d := by
  simp only [Option.map_eq_some_iff, readWord_eq_some_iff]
  refine exists_congr fun n => and_congr_right fun hwrites => ?_
  have hnanos := nanos_ofNanos_word hunit hwrites.lt_wordLimit
  refine ⟨?_, ?_⟩
  · rintro rfl
    exact hnanos
  · intro hd
    exact Duration.ext (hnanos.trans hd.symm)

theorem WritesSpan.no_blank (h : WritesSpan unit cs d) : cs ≠ [] ∧ ∀ c ∈ cs, isBlank c = false :=
  let ⟨_, hwrites, _⟩ := h
  hwrites.no_blank

/-- The texts that stand for a value are those that write it, with blanks around. -/
theorem read_trimBlanks_iff {kind : VariableKind} {x : kind.Value} :
    kind.read (trimBlanks cs) = some x ↔ AmongBlanks kind.Writes cs x := by
  cases kind with
  | number => exact Binary64.read_trimBlanks_iff
  | millis => exact LightCone.read_trimBlanks_iff (readSpan_eq_some_iff (by decide)) WritesSpan.no_blank
  | secs => exact LightCone.read_trimBlanks_iff (readSpan_eq_some_iff (by decide)) WritesSpan.no_blank
  | count => exact readWord_trimBlanks_iff

end Reading
end VariableKind

/-! ## The settings with a variable, and those without -/

/-- A setting with the name of its variable, the kind of its text, and its default. -/
structure Variable where
  name : String
  kind : VariableKind
  setting : Settings → kind.Value
  default : kind.Value

/-- The settings that have a variable. -/
def table : List Variable :=
  [⟨"QC_LT_NETWORK_FACTOR", .number, (·.propagation.networkFactor), (1.5 : Binary64)⟩,
   ⟨"QC_LT_VALIDATION_TOLERANCE_MS", .millis, (·.propagation.validationTolerance), .ofMillis 50⟩,
   ⟨"QC_LT_MIN_CONFIDENCE", .number, (·.propagation.minConfidence), (0.5 : Binary64)⟩,
   ⟨"QC_LT_DELAY_CACHE_TTL_SECS", .secs, (·.propagation.delayLifetime), .ofSecs 300⟩,
   ⟨"QC_LT_BLOCK_TOLERANCE_MS", .millis, (·.propagation.blockTolerance), .ofMillis 500⟩,
   ⟨"QC_LT_TX_TOLERANCE_MS", .millis, (·.propagation.transactionTolerance), .ofMillis 1000⟩,
   ⟨"QC_LT_HEARTBEAT_TOLERANCE_MS", .millis, (·.propagation.heartbeatTolerance), .ofMillis 50⟩,
   ⟨"QC_LT_SAFETY_FACTOR", .number, (·.consensus.safetyFactor), (2 : Binary64)⟩,
   ⟨"QC_LT_MIN_PROPAGATION_DELAY_MS", .millis, (·.consensus.minPropagationDelay), .ofMillis 100⟩,
   ⟨"QC_LT_TIMING_CACHE_TTL_SECS", .secs, (·.consensus.timingLifetime), .ofSecs 120⟩,
   ⟨"QC_LT_OFFSET_STALENESS_SECS", .secs, (·.offsets.staleness), .ofSecs 1800⟩,
   ⟨"QC_LT_GLOBAL_MIN_CONFIDENCE", .number, (·.offsets.globalMinConfidence), (0.5 : Binary64)⟩,
   ⟨"QC_LT_SYNC_INTERVAL_SECS", .secs, (·.sync.interval), .ofSecs 60⟩,
   ⟨"QC_LT_STATUS_RETENTION_SECS", .secs, (·.sync.statusRetention), .ofSecs 86400⟩,
   ⟨"QC_LT_SYNC_HISTORY_LEN", .count, (·.sync.historyLength), (32 : Nat)⟩]

/-- The settings that have none, with their defaults: the ranges that derived timing is held in. -/
def fixed : List ((Settings → Duration) × Duration) :=
  [((·.consensus.minBlockTime), .ofSecs 2), ((·.consensus.maxBlockTime), .ofSecs 600),
   ((·.consensus.minBlockInterval), .ofSecs 1), ((·.consensus.minVotingWindow), .ofSecs 2),
   ((·.consensus.maxVotingWindow), .ofSecs 30), ((·.consensus.minPhaseTimeout), .ofSecs 2),
   ((·.consensus.maxPhaseTimeout), .ofSecs 60)]

/-- The table lists all settings, each with its default, under names that differ and tell the unit. -/
structure Complete : Prop where
  length : table.length = 15
  names : (table.map Variable.name).Nodup
  units : ∀ v ∈ table, (v.kind = .millis ↔ "_MS".toList <:+ v.name.toList) ∧
    (v.kind = .secs ↔ "_SECS".toList <:+ v.name.toList)
  defaults : (∀ v ∈ table, v.setting {} = v.default) ∧ ∀ s ∈ fixed, s.1 {} = s.2
  settings : ∀ s t : Settings, (∀ v ∈ table, v.setting s = v.setting t) →
    (∀ f ∈ fixed, f.1 s = f.1 t) → s = t

theorem complete : Complete where
  length := rfl
  names := by decide
  units := by decide
  defaults := by
    refine ⟨?_, ?_⟩
    · exact List.forall_iff_forall_mem.mp
        ⟨rfl, rfl, rfl, rfl, rfl, rfl, rfl, rfl, rfl, rfl, rfl, rfl, rfl, rfl, rfl⟩
    · exact List.forall_iff_forall_mem.mp ⟨rfl, rfl, rfl, rfl, rfl, rfl, rfl⟩
  settings := by
    rintro ⟨⟨_, _, _, _, _, _, _⟩, ⟨_, _, _, _, _, _, _, _, _, _⟩, ⟨_, _⟩, ⟨_, _, _⟩⟩
      ⟨⟨_, _, _, _, _, _, _⟩, ⟨_, _, _, _, _, _, _, _, _, _⟩, ⟨_, _⟩, ⟨_, _, _⟩⟩ htable hfixed
    obtain ⟨⟨⟩, ⟨⟩, ⟨⟩, ⟨⟩, ⟨⟩, ⟨⟩, ⟨⟩, ⟨⟩, ⟨⟩, ⟨⟩, ⟨⟩, ⟨⟩, ⟨⟩, ⟨⟩, ⟨⟩⟩ :=
      List.forall_iff_forall_mem.mpr htable
    obtain ⟨⟨⟩, ⟨⟩, ⟨⟩, ⟨⟩, ⟨⟩, ⟨⟩, ⟨⟩⟩ := List.forall_iff_forall_mem.mpr hfixed
    rfl

/-! ## Each setting from its own variable -/

/-- The value of a setting by the text of its variable: what the text writes, with blanks around; the
    default if it writes nothing of the kind, or is not there. -/
def Variable.Holds (v : Variable) (text : Option String) (x : v.kind.Value) : Prop :=
  (∃ t, text = some t ∧ AmongBlanks v.kind.Writes t.toList x) ∨
    ((∀ t, text = some t → ∀ y, ¬ AmongBlanks v.kind.Writes t.toList y) ∧ x = v.default)

/-- A text is the decimal digits of a number, after a plus sign or none, with blanks around. -/
def DecimalText (text : String) (n : Nat) : Prop :=
  ∃ before sign after, text.toList = before ++ (sign ++ Nat.toDigits 10 n) ++ after ∧
    (∀ c ∈ before, isBlank c = true) ∧ (sign = [] ∨ sign = ['+']) ∧ ∀ c ∈ after, isBlank c = true

/-- Settings are made of named variables, each from its own. -/
structure Independent (settings : Lookup → Settings) : Prop where
  /-- A setting is what its own variable stands for, else the default. -/
  holds : ∀ lookup, ∀ v ∈ table, v.Holds (lookup v.name) (v.setting (settings lookup))
  /-- Every number of 64 bits in decimal digits is exactly as many milliseconds. -/
  millis : ∀ name setting default, ⟨name, .millis, setting, default⟩ ∈ table →
    ∀ lookup text n, lookup name = some text → n < wordLimit → DecimalText text n →
      Duration.nanos (setting (settings lookup)) = n * 1000000
  /-- Or as many seconds. -/
  secs : ∀ name setting default, ⟨name, .secs, setting, default⟩ ∈ table →
    ∀ lookup text n, lookup name = some text → n < wordLimit → DecimalText text n →
      Duration.nanos (setting (settings lookup)) = n * nanosPerSecond
  /-- A setting depends on no other variable than its own. -/
  own : ∀ lookup lookup', ∀ v ∈ table, lookup v.name = lookup' v.name →
    v.setting (settings lookup) = v.setting (settings lookup')
  /-- A variable that changes changes no other setting. -/
  others : ∀ lookup name text, ∀ v ∈ table, v.name ≠ name →
    v.setting (settings (Function.update lookup name text)) = v.setting (settings lookup)
  /-- The settings without a variable keep their defaults. -/
  fixed : ∀ lookup, ∀ s ∈ fixed, s.1 (settings lookup) = s.2

section Variables

variable {lookup : Lookup} {name text : String} {unit n : Nat}

/-- A setting is read from the variable with its name in the table. -/
theorem ofVariables_setting (lookup : Lookup) : ∀ v ∈ table,
    v.setting (ofVariables lookup) = readOr lookup v.name v.kind.read v.default :=
  List.forall_iff_forall_mem.mp
    ⟨rfl, rfl, rfl, rfl, rfl, rfl, rfl, rfl, rfl, rfl, rfl, rfl, rfl, rfl, rfl⟩

theorem holds_readOr (v : Variable) :
    v.Holds (lookup v.name) (readOr lookup v.name v.kind.read v.default) := by
  unfold readOr
  cases htext : lookup v.name with
  | none => exact .inr ⟨nofun, rfl⟩
  | some t =>
    rw [Option.map_some, Option.bind_some]
    cases hread : v.kind.read (trimBlanks t.toList) with
    | none =>
      refine .inr ⟨?_, rfl⟩
      rintro _ ⟨⟩ y hwrites
      cases hread.symm.trans (VariableKind.read_trimBlanks_iff.mpr hwrites)
    | some x => exact .inl ⟨t, rfl, VariableKind.read_trimBlanks_iff.mp hread⟩

theorem DecimalText.readWord (h : DecimalText text n) (hn : n < wordLimit) :
    readWord (trimBlanks text.toList) = some n := by
  obtain ⟨before, sign, after, htext, hbefore, hsign, hafter⟩ := h
  exact readWord_trimBlanks_iff.mpr
    ⟨before, _, after, htext, hbefore, hafter, writesDigits_toDigits hsign hn⟩

theorem nanos_readOr {default : Duration} (hunit : unit ≤ nanosPerSecond) (htext : lookup name = some text)
    (hn : n < wordLimit) (hdecimal : DecimalText text n) :
    (readOr lookup name (fun cs => (readWord cs).map fun n => .ofNanos (n * unit)) default).nanos =
      n * unit := by
  simp only [readOr, htext, Option.map_some, Option.bind_some, hdecimal.readWord hn, Option.getD_some]
  exact VariableKind.nanos_ofNanos_word hunit hn

/-- The settings of a set of variables: each is what the text of its own variable stands for, else its
    default, and no other variable has a part in it. -/
theorem ofVariables_independent : Complete ∧ Independent ofVariables := by
  have hown (lookup lookup' : Lookup) (v : Variable) (hv : v ∈ table) (hname : lookup v.name = lookup' v.name) :
      v.setting (ofVariables lookup) = v.setting (ofVariables lookup') := by
    rw [ofVariables_setting lookup v hv, ofVariables_setting lookup' v hv, readOr, readOr, hname]
  refine ⟨complete, ?_, ?_, ?_, hown, ?_, ?_⟩
  · intro lookup v hv
    rw [ofVariables_setting lookup v hv]
    exact holds_readOr v
  · intro name setting default hv lookup text n htext hn hdecimal
    have hsetting := congrArg Duration.nanos (ofVariables_setting lookup _ hv)
    exact hsetting.trans (nanos_readOr (by decide) htext hn hdecimal)
  · intro name setting default hv lookup text n htext hn hdecimal
    have hsetting := congrArg Duration.nanos (ofVariables_setting lookup _ hv)
    exact hsetting.trans (nanos_readOr (by decide) htext hn hdecimal)
  · intro lookup name text v hv hname
    exact hown _ _ v hv (Function.update_of_ne hname text lookup)
  · intro lookup
    exact List.forall_iff_forall_mem.mp ⟨rfl, rfl, rfl, rfl, rfl, rfl, rfl⟩

/-- A variable in milliseconds, with a plus sign and blanks, beside one without a number. -/
theorem ofVariables_independent_blockTolerance :
    let lookup : Lookup := fun name =>
      if name = "QC_LT_BLOCK_TOLERANCE_MS" then some " +75\n"
      else if name = "QC_LT_SYNC_INTERVAL_SECS" then some "soon" else none
    (ofVariables lookup).propagation.blockTolerance.nanos = 75 * 1000000 := by
  intro lookup
  have hmem : ⟨"QC_LT_BLOCK_TOLERANCE_MS", .millis, (·.propagation.blockTolerance), .ofMillis 500⟩ ∈ table :=
    List.mem_of_getElem? (rfl : table[4]? = some _)
  have htext : DecimalText " +75\n" 75 := ⟨[' '], ['+'], ['\n'], by decide,
    List.forall_mem_singleton.mpr (by decide), .inr rfl, List.forall_mem_singleton.mpr (by decide)⟩
  have hmillis := ofVariables_independent.2.millis _ _ _ hmem lookup _ 75 rfl (by decide) htext
  exact hmillis

end Variables
end LightCone.Settings
