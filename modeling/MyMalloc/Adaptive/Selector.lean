import MyMalloc.Adaptive.CostModel
import MyMalloc.Adaptive.Runtime
import MyMalloc.Adaptive.System
import MyMalloc.Lib.Ring

/- The selector (`adaptive_selector.cpp`): when it looks at a window, when it
   switches the mode, and the ring of events it leaves behind.

   `Services` takes the selector apart into the atomic steps other threads can
   come between. Here a call of `adaptive_selector_maybe_switch` is one
   function of the state it finds and of the window's features, with every exit
   path and the event it records. How features are judged is a parameter
   (`Judge`), so that what is proved about the pacing holds for any floating
   point arithmetic; `judge` is the source's judgement over exact numbers. -/
namespace MyMalloc.Adaptive

/-! ## Events -/

def selectorEventRingSize : Nat := 64

structure SelectorEvent (F K : Type) where
  sequence : Nat
  previousMode : ModeId
  currentMode : ModeId
  candidateMode : ModeId
  switched : Bool
  reason : String
  selectorBackend : String
  ruleCandidate : ModeId
  modelCandidate : ModeId
  modelConfidence : K
  features : F

/-- An event as `AdaptiveSelectorEvent{}` leaves it, given its zero features and confidence. -/
def SelectorEvent.blank {F K : Type} (features : F) (confidence : K) : SelectorEvent F K :=
  ⟨0, .balanced, .balanced, .balanced, false, "", "", .balanced, .balanced, confidence, features⟩

/-- `g_selector_event_seq` and `g_selector_events`. -/
structure EventRing (F K : Type) where
  seq : Nat
  events : Nat → SelectorEvent F K

namespace EventRing
variable {F K : Type}

/-- `record_selector_event`; the sequence number of `event` is filled in here. -/
def record (r : EventRing F K) (event : SelectorEvent F K) : EventRing F K :=
  let seq := (r.seq + 1) % 2^64
  { seq := seq
    events := Function.update r.events ((seq + 2^64 - 1) % 2^64 % selectorEventRingSize)
      { event with sequence := seq } }

def lastEvent (r : EventRing F K) : Option (SelectorEvent F K) :=
  if r.seq = 0 then none
  else
    let out := r.events ((r.seq - 1) % selectorEventRingSize)
    if out.sequence ≠ 0 then some out else none

/-- `adaptive_selector_events_snapshot` with room for `maxEvents` events. -/
def eventsSnapshot (r : EventRing F K) (maxEvents : Nat) : List (SelectorEvent F K) :=
  if maxEvents = 0 then []
  else if r.seq = 0 then []
  else
    let available := if r.seq < selectorEventRingSize then r.seq else selectorEventRingSize
    let count := if available < maxEvents then available else maxEvents
    let first := r.seq - count + 1
    (List.range count).map fun i => r.events ((first + i - 1) % selectorEventRingSize)

/-- The events as they are stored when they are recorded one after the other. -/
def numbered (recorded : List (SelectorEvent F K)) : List (SelectorEvent F K) :=
  recorded.zipIdx.map fun p => { p.1 with sequence := p.2 + 1 }

section
variable (blank : Nat → SelectorEvent F K) (recorded : List (SelectorEvent F K))

theorem numbered_append (e : SelectorEvent F K) :
    numbered (recorded ++ [e]) = numbered recorded ++ [{ e with sequence := recorded.length + 1 }] := by
  simp [numbered, List.zipIdx_append]

@[simp] theorem numbered_length : (numbered recorded).length = recorded.length := by simp [numbered]

/-- The ring after recording events one after the other, from process start. -/
def recordAll (blank : Nat → SelectorEvent F K) (recorded : List (SelectorEvent F K)) : EventRing F K :=
  recorded.foldl record ⟨0, blank⟩

theorem recordAll_append (e : SelectorEvent F K) :
    recordAll blank (recorded ++ [e]) = (recordAll blank recorded).record e := by
  simp [recordAll]

/-- The counter is a 64-bit word. -/
theorem recordAll_seq : (recordAll blank recorded).seq = recorded.length % 2^64 := by
  induction recorded using List.reverseRecOn with
  | nil => rfl
  | append_singleton recorded e ih =>
    rw [recordAll_append, List.length_append, List.length_singleton]
    simp only [record, ih]
    omega

/-- While the counter has not run over, the ring holds the events recorded last. -/
theorem recordAll_holds (h : recorded.length < 2^64) :
    RingHolds selectorEventRingSize (recordAll blank recorded).events (numbered recorded) := by
  induction recorded using List.reverseRecOn with
  | nil => exact .nil _ _
  | append_singleton recorded e ih =>
    rw [List.length_append, List.length_singleton] at h
    have hseq := recordAll_seq blank recorded
    rw [Nat.mod_eq_of_lt (by omega)] at hseq
    have hnext : (recorded.length + 1) % 2^64 = recorded.length + 1 := Nat.mod_eq_of_lt (by omega)
    have hslot : (recorded.length + 1 + 2^64 - 1) % 2^64 = recorded.length := by omega
    have hpush := (ih (by omega)).push { e with sequence := recorded.length + 1 }
    rw [numbered_length] at hpush
    rw [recordAll_append, numbered_append]
    simpa only [record, hseq, hnext, hslot] using hpush

/-- What the readers find while the counter has not run over. -/
theorem eventsSnapshot_eq (maxEvents : Nat) (h : recorded.length < 2^64) :
    (recordAll blank recorded).eventsSnapshot maxEvents =
      (numbered recorded).drop
        (recorded.length - min recorded.length (min selectorEventRingSize maxEvents)) := by
  have hseq := recordAll_seq blank recorded
  rw [Nat.mod_eq_of_lt h] at hseq
  have hholds := recordAll_holds blank recorded h
  have hnone : min recorded.length (min selectorEventRingSize maxEvents) = 0 →
      (numbered recorded).drop
        (recorded.length - min recorded.length (min selectorEventRingSize maxEvents)) = [] := by
    intro h0
    rw [h0, Nat.sub_zero, ← numbered_length, List.drop_length]
  rw [eventsSnapshot, hseq]
  rcases Nat.eq_zero_or_pos maxEvents with hm | hm
  · rw [if_pos hm, hnone (by omega)]
  rcases Nat.eq_zero_or_pos recorded.length with hl | hl
  · rw [if_neg (by omega), if_pos hl, hnone (by omega)]
  rw [if_neg (by omega), if_neg (by omega)]
  have hcount : (if (if recorded.length < selectorEventRingSize then recorded.length
        else selectorEventRingSize) < maxEvents
      then (if recorded.length < selectorEventRingSize then recorded.length
        else selectorEventRingSize) else maxEvents) =
      min recorded.length (min selectorEventRingSize maxEvents) := by
    split_ifs <;> omega
  dsimp only
  rw [hcount]
  generalize hc : min recorded.length (min selectorEventRingSize maxEvents) = count
  -- the reader's slot of event `first + i` is the writer's slot of the event with that number
  have hslot : ∀ i, recorded.length - count + 1 + i - 1 = recorded.length - count + i := by omega
  simp only [hslot]
  have hread := hholds.read count (by omega) (by rw [numbered_length]; omega)
  rwa [numbered_length] at hread

theorem lastEvent_eq (e : SelectorEvent F K) (h : (recorded ++ [e]).length < 2^64) :
    (recordAll blank (recorded ++ [e])).lastEvent =
      some { e with sequence := (recorded ++ [e]).length } := by
  have hseq := recordAll_seq blank (recorded ++ [e])
  rw [Nat.mod_eq_of_lt h] at hseq
  have hholds := recordAll_holds blank (recorded ++ [e]) h
  rw [numbered_append] at hholds
  have hlen : (recorded ++ [e]).length = recorded.length + 1 := by simp
  have hlast := hholds recorded.length (by simp [selectorEventRingSize])
    { e with sequence := recorded.length + 1 } (by simp)
  rw [lastEvent, hseq, hlen, if_neg (by omega), Nat.add_sub_cancel, hlast]
  rfl

theorem numbered_sequence :
    (numbered recorded).map SelectorEvent.sequence = List.range' 1 recorded.length := by
  induction recorded using List.reverseRecOn with
  | nil => rfl
  | append_singleton recorded e ih =>
    rw [numbered_append, List.map_append, ih, List.length_append, List.length_singleton,
      List.range'_concat]
    simp [Nat.add_comm]

end

/-- **The ring of events**, for every number of events below 2^64: a snapshot has as many events
as there are, as fit the ring and as the caller has room for; they are the ones recorded last, in
the order they were recorded; they are numbered one by one up to the number of events recorded;
and the last event is the one with that number. -/
theorem snapshot_recent (blank : Nat → SelectorEvent F K) (recorded : List (SelectorEvent F K))
    (maxEvents : Nat) (h : recorded.length < 2^64) :
    let count := min recorded.length (min selectorEventRingSize maxEvents)
    let snapshot := (recordAll blank recorded).eventsSnapshot maxEvents
    snapshot.length = count ∧
      snapshot = (numbered recorded).drop (recorded.length - count) ∧
      snapshot.map SelectorEvent.sequence = List.range' (recorded.length - count + 1) count ∧
      (recorded ≠ [] → ∃ e, (recordAll blank recorded).lastEvent = some e ∧
        (numbered recorded).getLast? = some e ∧ e.sequence = recorded.length) := by
  intro count snapshot
  have hsnap : snapshot = (numbered recorded).drop (recorded.length - count) :=
    eventsSnapshot_eq blank recorded maxEvents h
  refine ⟨?_, hsnap, ?_, ?_⟩
  · rw [hsnap, List.length_drop, numbered_length]
    omega
  · rw [hsnap, List.map_drop, numbered_sequence, List.drop_range', Nat.mul_one]
    congr 1 <;> omega
  · intro hne
    obtain ⟨init, e, rfl⟩ : ∃ init e, recorded = init ++ [e] :=
      ⟨recorded.dropLast, recorded.getLast hne, (List.dropLast_concat_getLast hne).symm⟩
    refine ⟨_, lastEvent_eq blank init e h, ?_, rfl⟩
    rw [numbered_append, List.getLast?_concat, List.length_append, List.length_singleton]

theorem snapshot_recent_two :
    ((recordAll (fun _ => .blank () ()) [.blank () (), .blank () ()]).eventsSnapshot 1).map
      SelectorEvent.sequence = [2] :=
  (snapshot_recent (fun _ => .blank () ()) [.blank () (), .blank () ()] 1 (by decide)).2.2.1

/-- Once 2^64 events were recorded the counter is back at zero and there is nothing to read. -/
theorem snapshot_overrun :
    ∃ recorded : List (SelectorEvent Unit Unit),
      recorded.length = 2^64 ∧ min recorded.length (min selectorEventRingSize 1) = 1 ∧
        (recordAll (fun _ => .blank () ()) recorded).eventsSnapshot 1 = [] ∧
        (recordAll (fun _ => .blank () ()) recorded).lastEvent = none := by
  have hlen : (List.replicate (2^64) (SelectorEvent.blank () ())).length = 2^64 := List.length_replicate
  have hseq := recordAll_seq (fun _ => .blank () ()) (List.replicate (2^64) (SelectorEvent.blank () ()))
  rw [hlen, Nat.mod_self] at hseq
  refine ⟨_, hlen, by rw [hlen]; decide, ?_, ?_⟩
  · rw [eventsSnapshot, hseq, if_neg Nat.one_ne_zero, if_pos rfl]
  · rw [lastEvent, hseq, if_pos rfl]

end EventRing

/-! ## The selector -/

/-- How the features of a window are judged. -/
structure Judge (F K : Type) where
  model : F → ModeId → ModelDecision K
  rule : F → ModeId
  reason : F → ModeId → String
  ruleGain : F → ModeId → Bool
  modelGain : K → Bool

/-- What the selector reads and writes. -/
structure SelectorState (F K : Type) where
  rt : Runtime
  stats : Stats
  ring : EventRing F K

def selectorBackendName : SelectorKind → String
  | .model => "model"
  | .fixed => "fixed"
  | .manual => "manual"
  | .rule => "rule"

/-- What the selector makes of a window while `current` is active, before it looks at the
cooldown. -/
structure Proposal (K : Type) where
  ruleCandidate : ModeId
  modelCandidate : ModeId
  next : ModeId
  reason : String
  confidence : K
  expectedGain : Bool

section
variable {F K : Type}

def Judge.propose (J : Judge F K) (kind : SelectorKind) (f : F) (current : ModeId) : Proposal K :=
  let modelDecision := J.model f current
  let modelCandidate := if modelDecision.available then modelDecision.mode else current
  match kind with
  | .rule =>
    let next := J.rule f
    ⟨next, modelCandidate, next, J.reason f next, modelDecision.confidence, J.ruleGain f next⟩
  | _ =>
    ⟨modelCandidate, modelCandidate, modelCandidate, "model_cost", modelDecision.confidence,
      modelDecision.available && J.modelGain modelDecision.confidence⟩

/-- The event a call records; its number is filled in by the ring. -/
def Proposal.event (p : Proposal K) (kind : SelectorKind) (f : F) (previous current : ModeId)
    (switched : Bool) (reason : String) : SelectorEvent F K where
  sequence := 0
  previousMode := previous
  currentMode := current
  candidateMode := p.next
  switched := switched
  reason := reason
  selectorBackend := selectorBackendName kind
  ruleCandidate := p.ruleCandidate
  modelCandidate := p.modelCandidate
  modelConfidence := p.confidence
  features := f

namespace SelectorState

/-- `adaptive_activate_mode`; the hooks of the policies do nothing. -/
def activateMode (s : SelectorState F K) (mode : ModeId) : SelectorState F K :=
  if s.rt.active = mode then s
  else { s with rt := s.rt.switch s.rt.active mode, stats := s.stats.onModeSwitch }

def record (s : SelectorState F K) (event : SelectorEvent F K) : SelectorState F K :=
  { s with ring := s.ring.record event }

/-- `adaptive_selector_maybe_switch`, where `f` are the features of the window. -/
def maybeSwitch (J : Judge F K) (cfg : RuntimeConfig) (f : F) (s : SelectorState F K) :
    SelectorState F K :=
  if cfg.selector = .fixed ∨ cfg.selector = .manual then s
  else
    let n := (s.rt.selectorCounter + 1) % 2^64
    let s := { s with rt := { s.rt with selectorCounter := n } }
    if n % cfg.modeWindow ≠ 0 then s
    else
      -- taking the features starts the next window
      let s := { s with rt := { s.rt with windowBase := s.stats } }
      let current := s.rt.active
      let p := J.propose cfg.selector f current
      let event := p.event cfg.selector f s.rt.previous current
      if n < s.rt.cooldownUntil then s.record (event false "cooldown")
      else if p.next = current then s.record (event false p.reason)
      else if !p.expectedGain then s.record (event false "hysteresis")
      else
        let s := s.activateMode p.next
        let s := { s with rt := { s.rt with
          cooldownUntil := (n + cfg.modeCooldown * cfg.modeWindow) % 2^64 } }
        s.record (event true p.reason)

end SelectorState

/-- What a call can do to the switching state. -/
inductive SelectorStep (J : Judge F K) (cfg : RuntimeConfig) (f : F) (s s' : SelectorState F K) : Prop
  | off (kind : cfg.selector = .fixed ∨ cfg.selector = .manual) (same : s' = s)
  | stays (kind : ¬ (cfg.selector = .fixed ∨ cfg.selector = .manual))
      (counter : s'.rt.selectorCounter = (s.rt.selectorCounter + 1) % 2^64)
      (active : s'.rt.active = s.rt.active) (cooldown : s'.rt.cooldownUntil = s.rt.cooldownUntil)
  | switches (kind : ¬ (cfg.selector = .fixed ∨ cfg.selector = .manual))
      (counter : s'.rt.selectorCounter = (s.rt.selectorCounter + 1) % 2^64)
      (window : s'.rt.selectorCounter % cfg.modeWindow = 0)
      (due : s.rt.cooldownUntil ≤ s'.rt.selectorCounter)
      (next : s'.rt.active = (J.propose cfg.selector f s.rt.active).next)
      (changes : s'.rt.active ≠ s.rt.active) (previous : s'.rt.previous = s.rt.active)
      (cooldown : s'.rt.cooldownUntil =
        (s'.rt.selectorCounter + cfg.modeCooldown * cfg.modeWindow) % 2^64)
      (gain : (J.propose cfg.selector f s.rt.active).expectedGain = true)

/-- The exits of `adaptive_selector_maybe_switch`. -/
theorem SelectorState.maybeSwitch_step (J : Judge F K) (cfg : RuntimeConfig) (f : F)
    (s : SelectorState F K) : SelectorStep J cfg f s (s.maybeSwitch J cfg f) := by
  unfold maybeSwitch
  split
  next kind => exact .off kind rfl
  next kind =>
    dsimp only
    split
    next => exact .stays kind rfl rfl rfl
    next window =>
      split
      next => exact .stays kind rfl rfl rfl
      next due =>
        split
        next => exact .stays kind rfl rfl rfl
        next changes =>
          split
          next => exact .stays kind rfl rfl rfl
          next gain =>
            rw [activateMode, if_neg (Ne.symm changes)]
            exact .switches kind rfl (not_not.mp window) (Nat.le_of_not_lt due) rfl changes rfl rfl
              (by simpa using gain)

/-- The soft-switch state after `init_once`. -/
def Runtime.start (cfg : RuntimeConfig) : Runtime where
  active := cfg.configuredMode
  previous := cfg.configuredMode
  states := Function.update (fun _ => .inactive) cfg.configuredMode .active
  selectorCounter := 0
  cooldownUntil := 0
  windowBase := {}

/-- The state after `k` calls in a row; call number `k + 1` finds the features `fs k`. The
statistics and the ring are those of process start or any others. -/
def selectorRun (J : Judge F K) (cfg : RuntimeConfig) (stats : Stats) (ring : EventRing F K)
    (fs : Nat → F) : Nat → SelectorState F K
  | 0 => ⟨.start cfg, stats, ring⟩
  | k + 1 => (selectorRun J cfg stats ring fs k).maybeSwitch J cfg (fs k)

section
variable (J : Judge F K) (cfg : RuntimeConfig) (stats : Stats) (ring : EventRing F K) (fs : Nat → F)

end

/-! ## The source's judgement -/

section
variable {K : Type} [Field K] [LinearOrder K] [IsStrictOrderedRing K] (log1p : K → K)

/-- `adaptive_select_mode`; `debug` is `debug_forced()`. -/
def adaptiveSelectMode (debug : Bool) (f : WorkloadFeatures K) : ModeId :=
  if debug ∨ ((0.01 : ℚ) : K) < f.safetyErrorRate then .hardenedDebug
  else if ((0.20 : ℚ) : K) < f.remoteFreeRatio ∧
      64 ≤ (f.remoteFreeCount + f.sameThreadFreeCount) % 2^64 then .crossThreadMessage
  else if ((0.50 : ℚ) : K) < f.largeBytesRatio ∧ 1024 * 1024 < f.requestedBytes then
    .largeObjectStreaming
  else if ((8.0 : ℚ) : K) < f.mappedLiveRatio ∧ 4 * 1024 * 1024 < f.mappedBytes then .compactRSS
  else if ((0.35 : ℚ) : K) < f.slowPathRatio ∧ 256 < f.allocCalls then .deterministicLatency
  else if ((2.2 : ℚ) : K) < f.sizeEntropy ∧ ((0.20 : ℚ) : K) < f.internalFragRatio then
    .fragmentationStable
  else if ((0.70 : ℚ) : K) < f.cacheHitRate ∧ f.remoteFreeRatio < ((0.05 : ℚ) : K) ∧
      f.mappedLiveRatio < ((6.0 : ℚ) : K) ∧ 512 < f.allocCalls then .throughputCache
  else .balanced

def selectorReasonForCandidate (debug : Bool) (f : WorkloadFeatures K) (mode : ModeId) : String :=
  if debug ∨ ((0.01 : ℚ) : K) < f.safetyErrorRate then "safety"
  else match mode with
    | .crossThreadMessage => "remote_free_ratio"
    | .largeObjectStreaming => "large_bytes_ratio"
    | .compactRSS => "mapped_live_ratio"
    | .deterministicLatency => "slow_path_ratio"
    | .fragmentationStable => "fragmentation"
    | .throughputCache => "cache_reuse"
    | .hardenedDebug => "safety"
    | .balanced => "balanced_default"

/-- The two tests of `expected_gain` with the model and the rules they are about. -/
def judge (debug : Bool) : Judge (WorkloadFeatures K) K where
  model := adaptiveModelSelectMode log1p
  rule := adaptiveSelectMode debug
  reason := selectorReasonForCandidate debug
  ruleGain f next :=
    next == .hardenedDebug || decide (((0.25 : ℚ) : K) < f.remoteFreeRatio) ||
      decide (((0.60 : ℚ) : K) < f.largeBytesRatio) || decide (((0.45 : ℚ) : K) < f.slowPathRatio) ||
      decide (((0.30 : ℚ) : K) < f.internalFragRatio) || decide (((0.80 : ℚ) : K) < f.cacheHitRate)
  modelGain confidence := decide (((0.015 : ℚ) : K) < confidence)

/-- **A switch of the model has a predicted gain**, over any ordered field: the mode the model
returns is the first of least cost, where every mode but the current one is charged the cost of
switching; the confidence is the distance of the two least costs; and when the selector changes
the mode, the new one costs less than the current one by more than the threshold. -/
theorem model_switch_gain (debug : Bool) (f : WorkloadFeatures K) (current : ModeId) :
    (∀ m, predictCost log1p f m current =
      modelScore log1p f m + if m = current then 0 else (switchCost : K)) ∧
    FirstMin (fun m => predictCost log1p f m current) allModes
      (adaptiveModelSelectMode log1p f current).mode ∧
    (∃ second, TwoSmallest (predictCost log1p f (adaptiveModelSelectMode log1p f current).mode current)
        second (allModes.map fun m => predictCost log1p f m current) ∧
      (adaptiveModelSelectMode log1p f current).confidence =
        second - predictCost log1p f (adaptiveModelSelectMode log1p f current).mode current) ∧
    ∀ (cfg : RuntimeConfig) (s : SelectorState (WorkloadFeatures K) K), cfg.selector = .model →
      s.rt.active = current → ∀ next, (s.maybeSwitch (judge log1p debug) cfg f).rt.active = next →
      next ≠ current →
      ((0.015 : ℚ) : K) < predictCost log1p f current current - predictCost log1p f next current := by
  obtain ⟨hfirst, htwo⟩ := adaptiveModelSelectMode_spec log1p f current
  refine ⟨?_, hfirst, htwo, ?_⟩
  · intro m
    unfold predictCost
    by_cases h : m = current <;> simp [h]
  · rintro cfg s hkind rfl next rfl hne
    cases s.maybeSwitch_step (judge log1p debug) cfg f with
    | off _ same => exact absurd (congrArg (fun s => s.rt.active) same) hne
    | stays _ _ active => exact absurd active hne
    | switches _ _ _ _ next _ _ _ gain =>
      rw [hkind] at next gain
      have hmode : (s.maybeSwitch (judge log1p debug) cfg f).rt.active =
          (adaptiveModelSelectMode log1p f s.rt.active).mode := next
      have hconf : ((0.015 : ℚ) : K) < (adaptiveModelSelectMode log1p f s.rt.active).confidence :=
        of_decide_eq_true gain
      have hle := confidence_le log1p f s.rt.active (m := s.rt.active)
        (by rw [← hmode]; exact hne.symm)
      rw [hmode]
      exact hconf.trans_le hle

end

end

/-! ## Runs of the source's selector -/

/-- An environment that sets the selector and the window only. -/
def selectorEnv (selector : String) (window : Nat) : Environment :=
  ⟨none, none, none, some window, none, none, some selector, none⟩

/-- A window in which nothing happened. -/
def quietWindow : WorkloadFeatures ℚ := ⟨0, 0, 0, 0, 0, 0, 0, 0, 0, 0, 0, 0, 0, 0⟩

/-- The selector at process start, with these windows. -/
def quietRun (cfg : RuntimeConfig) : (Nat → WorkloadFeatures ℚ) → Nat → SelectorState (WorkloadFeatures ℚ) ℚ :=
  selectorRun (judge (fun _ => 0) false) cfg {} ⟨0, fun _ => .blank quietWindow 0⟩

theorem model_switch_gain_quiet :
    ((0.015 : ℚ) : ℚ) < predictCost (fun _ => 0) quietWindow .balanced .balanced -
      predictCost (fun _ => 0) quietWindow .deterministicLatency .balanced :=
  (model_switch_gain (fun _ => 0) false quietWindow .balanced).2.2.2
    (initOnce (selectorEnv "model" 64)) (quietRun (initOnce (selectorEnv "model" 64)) (fun _ => quietWindow) 63)
    (by decide +kernel) (by decide +kernel) .deterministicLatency (by decide +kernel) (by decide)

end MyMalloc.Adaptive
