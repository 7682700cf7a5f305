/-
# Variables and the configuration file

The configuration file has lines `key = value`; the last line of a key counts,
and an environment variable counts more. The engine registers variables with
defaults, loads their values from the file, lets requests set those that are
dynamic, and writes the values back into the lines of the file that have their
keys.
-/
import Amind.Core.MemoryRecord
import Amind.Lib.Json
import Amind.Lib.Lines

namespace Amind
namespace Config

open Amind.Core Lines
open Json (isDigit readNat)

def eol : UInt8 := 0x0A

def hash : UInt8 := 0x23

def equals : UInt8 := 0x3D

def isBlank (b : UInt8) : Bool := b = 0x20 ∨ b = 0x09

/-! ### The configuration -/

/-- What is before and after the first `=` of a line that is not a comment. -/
def splitEntry (line : Text) : Option (Text × Text) :=
  if line = [] ∨ line.head? = some hash then none
  else if equals ∈ line then some (line.takeWhile (· ≠ equals), (line.dropWhile (· ≠ equals)).tail)
  else none

def entry (line : Text) : Option (Text × Text) :=
  (splitEntry line).map fun e => (trim isBlank e.1, trim isBlank e.2)

/-- The values of the keys. -/
abbrev AppConfig := Text → Option Text

/-- Enter the entries in order. -/
def assign (es : List (Text × Text)) (values : AppConfig) : AppConfig :=
  es.foldl (fun m e => Function.update m e.1 (some e.2)) values

def readEntries (file : Text) : List (Text × Text) := (lines eol file).filterMap entry

/-- The environment variable of a key. -/
def envKey (key : Text) : Text :=
  Utf8.bytes "AMIND_" ++ key.map fun c =>
    if c = 0x2E ∨ c = 0x2D then 0x5F else if 0x61 ≤ c ∧ c ≤ 0x7A then c - 32 else c

def knownKeys : List Text :=
  ["max_agents", "agent_auto_create", "max_web_connections", "max_active_sessions", "host", "port", "data_dir",
    "log_level", "api_token"].map Utf8.bytes

/-- The values of a file under an environment, which overrides keys of the file
and adds some that are known. -/
def AppConfig.load (getenv : Text → Option Text) (file : Text) : AppConfig :=
  let read := assign (readEntries file) fun _ => none
  let overridden : AppConfig := fun key => (read key).map fun val => (getenv (envKey key)).getD val
  fun key => if key ∈ knownKeys ∧ overridden key = none then getenv (envKey key) else overridden key

/-- An environment that overrides nothing. -/
def noEnv : Text → Option Text := fun _ => none

def AppConfig.get (c : AppConfig) (key otherwise : Text) : Text := (c key).getD otherwise

/-! ### Variables -/

inductive VarType
  | string | int | float | bool
  deriving DecidableEq, Repr

inductive VarMode
  | dynamic | readonly
  deriving DecidableEq, Repr

structure Variable where
  name : Text
  value : Text
  defaultValue : Text
  type : VarType
  mode : VarMode
  deriving DecidableEq

/-- What the code registers: names that a line can start with, and defaults that
a line can hold. -/
structure Variable.Plain (v : Variable) : Prop where
  noComment : v.name.head? ≠ some hash
  trimmed : Trimmed isBlank v.defaultValue
  oneLine : eol ∉ v.defaultValue

instance (v : Variable) : Decidable v.Plain :=
  decidable_of_iff (v.name.head? ≠ some hash ∧ trim isBlank v.defaultValue = v.defaultValue ∧ eol ∉ v.defaultValue)
    ⟨fun h => ⟨h.1, h.2.1, h.2.2⟩, fun h => ⟨h.noComment, h.trimmed, h.oneLine⟩⟩

/-- The registered variables, one of each name. -/
structure VariableManager where
  vars : List Variable
  nodup : (vars.map (·.name)).Nodup
  plain : ∀ v ∈ vars, v.Plain

inductive ErrorCode
  | configError
  deriving DecidableEq, Repr

structure Fault where
  code : ErrorCode
  message : Text
  deriving DecidableEq, Repr

def isSpace (b : UInt8) : Bool := b = 0x20 ∨ 0x09 ≤ b ∧ b ≤ 0x0D

/-- The number a text starts with, after blanks and a sign, if an `int` holds
it. -/
def stoi (s : Text) : Option ℤ :=
  let s := s.dropWhile isSpace
  let negative : Bool := s.head? = some 0x2D
  let digits := (if negative ∨ s.head? = some 0x2B then s.tail else s).takeWhile isDigit
  let n : ℤ := if negative then -(readNat digits : ℤ) else readNat digits
  if digits = [] then none else if -2 ^ 31 ≤ n ∧ n < 2 ^ 31 then some n else none

namespace VariableManager

def find (m : VariableManager) (name : Text) : Option Variable := m.vars.find? (·.name = name)

/-- The variables with new values. -/
def update (m : VariableManager) (f : Variable → Text) : VariableManager where
  vars := m.vars.map fun v => { v with value := f v }
  nodup := by simpa [Function.comp_def] using m.nodup
  plain := by
    intro v hv
    obtain ⟨w, hw, rfl⟩ := List.mem_map.mp hv
    have hp := m.plain w hw
    exact ⟨hp.noComment, hp.trimmed, hp.oneLine⟩

/-- The values of the configuration, where they are not empty. -/
def loadFrom (m : VariableManager) (config : AppConfig) : VariableManager :=
  m.update fun v =>
    let val := config.get v.name v.defaultValue
    if val ≠ [] then val else v.value

def get (m : VariableManager) (name : Text) : Text := ((m.find name).map (·.value)).getD []

/-- Set a variable. `stof` is whether a text starts with a float that can be
read. -/
def set (stof : Text → Bool) (m : VariableManager) (name value : Text) : Except Fault VariableManager :=
  match m.find name with
  | none => .error ⟨.configError, Utf8.bytes "Unknown variable: " ++ name⟩
  | some v =>
    if v.mode = .readonly then
      .error ⟨.configError,
        Utf8.bytes "Variable '" ++ name ++ Utf8.bytes "' is READONLY (requires restart to change)"⟩
    else if v.type = .int ∧ stoi value = none then
      .error ⟨.configError, Utf8.bytes "Invalid integer value for '" ++ name ++ Utf8.bytes "': " ++ value⟩
    else if v.type = .float ∧ stof value = false then
      .error ⟨.configError, Utf8.bytes "Invalid float value for '" ++ name ++ Utf8.bytes "': " ++ value⟩
    else .ok (m.update fun w => if w.name = name then value else w.value)

/-- The line of the file with the value of its variable, if it has one. -/
def rewriteLine (m : VariableManager) (line : Text) : Text :=
  match splitEntry line with
  | some e =>
    match m.find (trim isBlank e.1) with
    | some v => trim isBlank e.1 ++ Utf8.bytes " = " ++ v.value
    | none => line
  | none => line

/-- The file that is written in place of one. -/
def persistToFile (m : VariableManager) (file : Text) : Text := unlines eol ((lines eol file).map m.rewriteLine)

/-- Sets in order. One that is refused changes nothing. -/
def setAll (stof : Text → Bool) (m : VariableManager) (sets : List (Text × Text)) : VariableManager :=
  sets.foldl (fun m s =>
    match m.set stof s.1 s.2 with
    | .ok m' => m'
    | .error _ => m) m

end VariableManager

/-- What the engine registers. -/
def registered : List (String × VarType × VarMode × String) :=
  [("host", .string, .readonly, "0.0.0.0"), ("port", .int, .readonly, "8080"),
    ("max_connections", .int, .readonly, "128"), ("request_timeout_ms", .int, .readonly, "30000"),
    ("webui_enabled", .bool, .readonly, "true"), ("webui_port", .int, .readonly, "11011"),
    ("webui_root", .string, .readonly, "web/dist"), ("llm_provider", .string, .readonly, "ollama"),
    ("llm_model", .string, .readonly, "qwen3:8b"), ("llm_host", .string, .readonly, "127.0.0.1"),
    ("llm_port", .int, .readonly, "11434"), ("llm_api_key_env", .string, .readonly, "OPENAI_API_KEY"),
    ("llm_base_url", .string, .readonly, ""), ("embed_provider", .string, .readonly, "ollama"),
    ("embed_model", .string, .readonly, "qwen3-embedding"), ("embed_host", .string, .readonly, "127.0.0.1"),
    ("embed_port", .int, .readonly, "11434"), ("embed_api_key_env", .string, .readonly, "OPENAI_API_KEY"),
    ("embed_base_url", .string, .readonly, ""), ("embedding_dimension", .int, .readonly, "4096"),
    ("rerank_provider", .string, .readonly, "none"), ("rerank_model", .string, .readonly, ""),
    ("pool_max_connections", .int, .readonly, "8"), ("pool_max_active_connections", .int, .readonly, "8"),
    ("pool_active_wait_timeout_ms", .int, .dynamic, "5000"), ("pool_idle_timeout_ms", .int, .dynamic, "30000"),
    ("pool_circuit_threshold", .int, .dynamic, "5"), ("pool_circuit_cooldown_ms", .int, .dynamic, "10000"),
    ("hnsw_max_connections", .int, .readonly, "16"), ("hnsw_ef_construction", .int, .readonly, "200"),
    ("hot_capacity", .int, .dynamic, "50000"), ("cold_tier_path", .string, .readonly, ""),
    ("eviction_ratio", .float, .dynamic, "0.1"), ("decay_rate", .float, .dynamic, "0.01"),
    ("importance_boost", .float, .dynamic, "0.1"), ("stale_threshold_hours", .int, .dynamic, "720"),
    ("conflict_similarity_threshold", .float, .dynamic, "0.85"), ("semantic_weight", .float, .dynamic, "0.4"),
    ("keyword_weight", .float, .dynamic, "0.25"), ("graph_weight", .float, .dynamic, "0.15"),
    ("recency_weight", .float, .dynamic, "0.1"), ("importance_weight", .float, .dynamic, "0.1"),
    ("async_worker_threads", .int, .readonly, "4"), ("async_queue_capacity", .int, .dynamic, "10000"),
    ("max_recent_turns", .int, .readonly, "10"), ("initial_memory_load_count", .int, .readonly, "20"),
    ("data_dir", .string, .readonly, "./amind_data"), ("log_level", .string, .dynamic, "info"),
    ("lsm_flush_interval", .int, .dynamic, "30"), ("wal_max_size", .int, .readonly, "104857600"),
    ("wal_expiry_seconds", .int, .readonly, "3600"), ("sst_target_size", .int, .readonly, "4194304"),
    ("l0_compaction_threshold", .int, .readonly, "4"), ("level_size_multiplier", .int, .readonly, "10"),
    ("hnsw_save_interval", .int, .dynamic, "60"), ("sst_use_mmap", .bool, .readonly, "true"),
    ("v2_write_gate_enabled", .bool, .dynamic, "false"),
    ("v2_lineage_propagation_enabled", .bool, .dynamic, "false"),
    ("v2_forget_score_enabled", .bool, .dynamic, "false"),
    ("v2_hnsw_compact_enabled", .bool, .dynamic, "false"),
    ("v2_conflict_resolver_enabled", .bool, .dynamic, "false"),
    ("v2_consolidation_enabled", .bool, .dynamic, "false"),
    ("v2_global_shadow_mode", .bool, .dynamic, "false"), ("v2_duplicate_threshold", .float, .dynamic, "0.95"),
    ("v2_low_value_threshold", .float, .dynamic, "0.15"), ("v2_deferred_threshold", .float, .dynamic, "0.30"),
    ("v2_forget_decay_threshold", .float, .dynamic, "0.3"),
    ("v2_forget_archive_threshold", .float, .dynamic, "0.6"),
    ("v2_forget_tombstone_threshold", .float, .dynamic, "0.85"),
    ("v2_conflict_llm_judge", .bool, .readonly, "false"),
    ("v2_consolidation_dedup_threshold", .float, .dynamic, "0.95"),
    ("v2_consolidation_drift_threshold", .float, .dynamic, "0.3")]

def registerVariables : VariableManager where
  vars := registered.map fun v => ⟨Utf8.bytes v.1, Utf8.bytes v.2.2.2, Utf8.bytes v.2.2.2, v.2.1, v.2.2.1⟩
  nodup := by decide
  plain := by decide

end Config
end Amind
