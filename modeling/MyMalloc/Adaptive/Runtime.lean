import MyMalloc.Adaptive.Types

/- `adaptive_runtime.cpp`: the configuration `init_once` reads from the
   environment, once, and the soft-switch state that changes afterwards.

   A numeric variable is modelled by what `strtoull` makes of it: `none` when
   it is unset, empty or has no digits. The configuration is immutable after
   `init_once`, so the rest of the model takes it as a parameter. -/
namespace MyMalloc.Adaptive

/-! ## The environment -/

/-- The variables `init_once` reads. -/
structure Environment where
  smallPageSize : Option Nat
  mediumSpanSize : Option Nat
  emptyCacheLimit : Option Nat
  modeWindow : Option Nat
  modeCooldown : Option Nat
  mode : Option String
  modeSelector : Option String
  debugMode : Option String

def parseU64Env (env : Option Nat) (fallback minValue maxValue : Nat) : Nat :=
  match env with
  | none => fallback
  | some value =>
    if value < minValue then minValue else if maxValue < value then maxValue else value

def pageAligned (value : Nat) : Nat :=
  (alignUp (if value < pageSize then pageSize else value) pageSize).val

def streq (a : Option String) (b : String) : Bool := a == some b

def isAlias (env : Option String) (a b : String) : Bool := streq env a || streq env b

def envPresent (env : Option String) : Bool := env.isSome && !streq env ""

/-- `parse_mode`: the mode, and whether it was left to the selector. -/
def parseMode (env : Option String) : ModeId × Bool :=
  if !envPresent env || streq env "auto" then (.balanced, true)
  else if streq env "balanced" then (.balanced, false)
  else if isAlias env "throughput_cache" "throughput" then (.throughputCache, false)
  else if isAlias env "deterministic_latency" "latency" then (.deterministicLatency, false)
  else if isAlias env "compact_rss" "rss" then (.compactRSS, false)
  else if isAlias env "fragmentation_stable" "fragmentation" then (.fragmentationStable, false)
  else if isAlias env "cross_thread" "cross_thread_message" then (.crossThreadMessage, false)
  else if isAlias env "large_object" "large_object_streaming" then (.largeObjectStreaming, false)
  else if isAlias env "hardened_debug" "debug" then (.hardenedDebug, false)
  else (.balanced, false)

def parseSelector (env : Option String) : SelectorKind :=
  if streq env "fixed" then .fixed
  else if streq env "manual" then .manual
  else if streq env "model" then .model
  else if streq env "hybrid" then .model
  else if streq env "rule" then .rule
  else .model

/-! ## Every environment gives a configuration in range -/

theorem parseU64Env_range (env : Option Nat) {fallback lo hi : Nat} (h : lo ≤ hi)
    (hl : lo ≤ fallback) (hh : fallback ≤ hi) :
    lo ≤ parseU64Env env fallback lo hi ∧ parseU64Env env fallback lo hi ≤ hi := by
  unfold parseU64Env
  cases env with
  | none => exact ⟨hl, hh⟩
  | some v => dsimp only; split <;> [omega; (split <;> omega)]

theorem pageAligned_eq {value : Nat} (hlo : pageSize ≤ value) (hhi : value ≤ 2^32) :
    pageAligned value = (value + 4095) / 4096 * 4096 := by
  have hp : pageSize = 2^12 := rfl
  rw [pageAligned, if_neg (by omega), hp, alignUp_exact (by norm_num) (by omega)]
  norm_num

/-- Rounding to pages stays within bounds that are themselves page multiples. -/
theorem pageAligned_range {value a b : Nat} (ha : a * 4096 ≤ value) (hb : value ≤ b * 4096)
    (h1 : 1 ≤ a) (h2 : b ≤ 2^20) :
    pageSize ∣ pageAligned value ∧ a * 4096 ≤ pageAligned value ∧ pageAligned value ≤ b * 4096 := by
  have hlo : pageSize ≤ value := by unfold pageSize; omega
  have hhi : value ≤ 2^32 := by omega
  rw [pageAligned_eq hlo hhi]
  clear hlo hhi
  exact ⟨Nat.dvd_mul_left _ _, by omega, Nat.mul_le_mul_right _ (by omega)⟩

def initOnce (env : Environment) : RuntimeConfig :=
  let (mode, modeAuto) := parseMode env.mode
  let debug := streq env.debugMode "1" || streq env.debugMode "true"
  let configured := if debug then .hardenedDebug else mode
  let modeAuto := if debug then false else modeAuto
  let selector := parseSelector env.modeSelector
  let selector : SelectorKind :=
    if modeAuto && selector == .fixed then .model
    else if !modeAuto && envPresent env.mode && (selector == .rule || selector == .model) then .fixed
    else selector
  let small := parseU64Env env.smallPageSize (64 * 1024) (16 * 1024) (1024 * 1024)
  let medium := parseU64Env env.mediumSpanSize (256 * 1024) (64 * 1024) (4 * 1024 * 1024)
  have hs : 16 * 1024 ≤ small ∧ small ≤ 1024 * 1024 :=
    parseU64Env_range _ (by norm_num) (by norm_num) (by norm_num)
  have hm : 64 * 1024 ≤ medium ∧ medium ≤ 4 * 1024 * 1024 :=
    parseU64Env_range _ (by norm_num) (by norm_num) (by norm_num)
  have hs' := pageAligned_range (a := 4) (b := 256) (by omega) (by omega) (by norm_num) (by norm_num)
  have hm' := pageAligned_range (a := 16) (b := 1024) (by omega) (by omega) (by norm_num) (by norm_num)
  { version := 1
    smallPageSize := pageAligned small
    mediumSpanSize := pageAligned medium
    emptyCacheLimit := parseU64Env env.emptyCacheLimit 2 0 128
    configuredMode := configured
    selector := selector
    modeWindow := parseU64Env env.modeWindow 1024 64 (2^20)
    modeCooldown := parseU64Env env.modeCooldown 1 0 1024
    small_page := hs'.1
    small_range := by omega
    medium_page := hm'.1
    medium_range := by omega
    keep_range := (parseU64Env_range _ (by norm_num) (by norm_num) (by norm_num)).2
    window_range := parseU64Env_range _ (by norm_num) (by norm_num) (by norm_num)
    cooldown_range := (parseU64Env_range _ (by norm_num) (by norm_num) (by norm_num)).2 }

end MyMalloc.Adaptive
