import MyMalloc.Adaptive.Ownership

/- Mode switches under concurrency (`adaptive_runtime.cpp`).

   `adaptive_activate_mode` loads the active mode and then makes four relaxed
   stores, one atomic access at a time; the selector calls it from any allocating
   thread and `adaptive_set_mode` from any other, without a lock. Here every access
   is a step of its own and the steps of different calls interleave freely. The
   hooks `on_retire` and `on_activate` of every mode are empty, and the telemetry
   counter at the end touches nothing that is read here.

   A switch that runs alone does what `Runtime.switch` does. Two switches at once
   can leave two modes active. -/
namespace MyMalloc.Adaptive.ModeSwitch

/-- How far a thread is in `adaptive_activate_mode(new)`. -/
inductive Phase where
  | idle
  /-- `g_active_mode` was loaded, and is not `new`. -/
  | loaded (old new : ModeId)
  /-- `g_mode_states[old]` was stored. -/
  | retired (old new : ModeId)
  /-- `g_previous_mode` was stored. -/
  | recorded (old new : ModeId)
  /-- `g_active_mode` was stored. -/
  | entered (old new : ModeId)
  deriving DecidableEq

/-- The runtime, the calls in flight, and every mode that was ever the active one. -/
structure World (τ : Type) where
  rt : Runtime
  phase : τ → Phase
  past : List ModeId

inductive Action (τ : Type) where
  /-- `adaptive_activate_mode(mode)` on a raw byte, up to its test of the active mode. -/
  | call (t : τ) (mode : Nat)
  /-- The next store of a call. -/
  | store (t : τ)

section
variable {τ : Type} [DecidableEq τ]

def step (w : World τ) : Action τ → Option (World τ)
  | .call t mode =>
    if w.phase t ≠ .idle then none
    else match ModeId.ofByte mode with
      | none => some w
      | some new =>
        if w.rt.active = new then some w
        else some { w with phase := Function.update w.phase t (.loaded w.rt.active new) }
  | .store t =>
    match w.phase t with
    | .idle => none
    | .loaded old new =>
      some { w with
        rt := { w.rt with states := Function.update w.rt.states old .retired }
        phase := Function.update w.phase t (.retired old new) }
    | .retired old new =>
      some { w with
        rt := { w.rt with previous := old }
        phase := Function.update w.phase t (.recorded old new) }
    | .recorded old new =>
      some { w with
        rt := { w.rt with active := new }
        phase := Function.update w.phase t (.entered old new)
        past := new :: w.past }
    | .entered _ new =>
      some { w with
        rt := { w.rt with states := Function.update w.rt.states new .active }
        phase := Function.update w.phase t .idle }

/-- `init_once`: the configured mode is active and no other ever was. -/
def start (host : Host τ) : World τ := ⟨(initState host).rt, fun _ => .idle, [host.cfg.configuredMode]⟩

/-- The runs whose steps satisfy `C`. -/
inductive Run (host : Host τ) (C : World τ → Action τ → Prop) : World τ → Prop where
  | start : Run host C (start host)
  | step {w w' : World τ} (a : Action τ) (h : Run host C w) (hC : C w a) (hs : step w a = some w') :
      Run host C w'

def Quiescent (w : World τ) : Prop := ∀ t, w.phase t = .idle

/-- The active mode is the one whose state says so, and what was active before is retired. -/
def Consistent (rt : Runtime) (past : List ModeId) : Prop :=
  (∀ m, rt.states m = .active ↔ m = rt.active) ∧ ∀ m ∈ past, m ≠ rt.active → rt.states m = .retired

/-- A call that finds another mode active starts to switch only while no other call is switching. -/
def Alone (w : World τ) : Action τ → Prop
  | .call _ mode => ∀ new, ModeId.ofByte mode = some new → new ≠ w.rt.active → Quiescent w
  | .store _ => True

/-! ## A switch that runs alone -/

/-- The runtime once a call is done from where it is. -/
def Phase.finish (rt : Runtime) : Phase → Runtime
  | .idle => rt
  | .loaded old new => rt.switch old new
  | .retired old new => { rt with
      states := Function.update rt.states new .active, previous := old, active := new }
  | .recorded _ new => { rt with states := Function.update rt.states new .active, active := new }
  | .entered _ new => { rt with states := Function.update rt.states new .active }

/-- The mode a call has yet to make active. -/
def Phase.ahead : Phase → List ModeId
  | .loaded _ new => [new]
  | .retired _ new => [new]
  | .recorded _ new => [new]
  | _ => []

omit [DecidableEq τ] in
theorem consistent_start (host : Host τ) : Consistent (start host).rt (start host).past := by
  constructor
  · intro m
    by_cases e : m = host.cfg.configuredMode <;> simp [start, initState, e]
  · intro m hm hne
    exact absurd (List.mem_singleton.mp hm) hne

theorem Consistent.switch {rt : Runtime} {past : List ModeId} (h : Consistent rt past) {new : ModeId}
    (hne : new ≠ rt.active) : Consistent (rt.switch rt.active new) (new :: past) := by
  constructor
  · intro m
    show Function.update (Function.update rt.states rt.active .retired) new .active m = _ ↔ m = new
    by_cases e : m = new
    · simp [e]
    · by_cases e' : m = rt.active
      · simp [e', hne.symm]
      · simp [e, e', h.1 m]
  · intro m hm hnew
    show Function.update (Function.update rt.states rt.active .retired) new .active m = .retired
    have hnew : m ≠ new := hnew
    have hm : m ∈ past := (List.mem_cons.mp hm).resolve_left hnew
    by_cases e' : m = rt.active
    · simp [e', hne.symm]
    · simpa [hnew, e'] using h.2 m hm e'

/-- At most one call is switching, and when it is done the mode states are consistent. -/
def Settles (w : World τ) : Prop :=
  (Quiescent w ∧ Consistent w.rt w.past) ∨
    ∃ t, (∀ t', t' ≠ t → w.phase t' = .idle) ∧
      Consistent ((w.phase t).finish w.rt) ((w.phase t).ahead ++ w.past)

omit [DecidableEq τ] in
theorem Settles.consistent {w : World τ} (h : Settles w) (hq : Quiescent w) : Consistent w.rt w.past := by
  rcases h with ⟨-, h⟩ | ⟨t, -, h⟩
  · exact h
  · rw [hq t] at h
    exact h

/-- Every store brings a call nearer to where it ends. -/
theorem store_finish {w w' : World τ} {t : τ} (hs : step w (.store t) = some w') :
    (∀ t', t' ≠ t → w'.phase t' = w.phase t') ∧
      (w'.phase t).finish w'.rt = (w.phase t).finish w.rt ∧
      (w'.phase t).ahead ++ w'.past = (w.phase t).ahead ++ w.past := by
  cases hph : w.phase t <;> simp only [step, hph] at hs
  case idle => cases hs
  all_goals
    obtain rfl := Option.some.inj hs
    refine ⟨fun t' ht' => Function.update_of_ne ht' _ _, ?_, ?_⟩ <;>
      simp [Phase.finish, Phase.ahead, Runtime.switch]

theorem Settles.step {w w' : World τ} {a : Action τ} (h : Settles w) (ha : Alone w a)
    (hs : ModeSwitch.step w a = some w') : Settles w' := by
  cases a with
  | store t =>
    obtain ⟨hother, hfinish, hahead⟩ := store_finish hs
    have hbusy : w.phase t ≠ .idle := by
      intro e
      simp [ModeSwitch.step, e] at hs
    rcases h with ⟨hq, -⟩ | ⟨t', hidle, h⟩
    · exact absurd (hq t) hbusy
    · obtain rfl : t' = t := by
        by_contra hne
        exact hbusy (hidle t (Ne.symm hne))
      exact .inr ⟨t', fun t'' ht'' => (hother t'' ht'').trans (hidle t'' ht''),
        by rwa [hfinish, hahead]⟩
  | call t mode =>
    simp only [ModeSwitch.step] at hs
    split at hs
    · cases hs
    · cases hm : ModeId.ofByte mode with
      | none =>
        simp only [hm] at hs
        exact Option.some.inj hs ▸ h
      | some new =>
        simp only [hm] at hs
        split at hs
        · exact Option.some.inj hs ▸ h
        · next hne =>
          have hq := ha new hm (Ne.symm hne)
          obtain rfl := Option.some.inj hs
          refine .inr ⟨t, fun t' ht' => ?_, ?_⟩
          · simpa [ht'] using hq t'
          · simpa [Phase.finish, Phase.ahead] using (h.consistent hq).switch (Ne.symm hne)

theorem Run.settles {host : Host τ} {w : World τ} (h : Run host Alone w) : Settles w := by
  induction h with
  | start => exact .inl ⟨fun _ => rfl, consistent_start host⟩
  | step a _ ha hs ih => exact ih.step ha hs

/-- While no two switches overlap, the mode states are consistent whenever no call is in flight. -/
theorem modeStates_consistent_of_alone {host : Host τ} {w : World τ} (h : Run host Alone w)
    (hq : Quiescent w) : Consistent w.rt w.past :=
  h.settles.consistent hq

theorem Run.steps {host : Host τ} {C : World τ → Action τ → Prop} {w w' : World τ} (h : Run host C w)
    (acts : List (Action τ)) (hC : ∀ w, ∀ a ∈ acts, C w a)
    (hs : acts.foldlM ModeSwitch.step w = some w') : Run host C w' := by
  induction acts generalizing w with
  | nil => exact Option.some.inj hs ▸ h
  | cons a acts ih =>
    rw [List.foldlM_cons] at hs
    cases hstep : ModeSwitch.step w a with
    | none => rw [hstep] at hs; cases hs
    | some w₁ =>
      rw [hstep] at hs
      exact ih (.step a h (hC w a List.mem_cons_self) hstep)
        (fun w b hb => hC w b (List.mem_cons_of_mem _ hb)) hs

end

/-- One thread switches to `throughput_cache` and back to `balanced`. -/
theorem two_switches_consistent : ∃ w : World Unit, Run (barrenHost Unit) Alone w ∧ Quiescent w ∧
    w.past.length = 3 ∧ Consistent w.rt w.past := by
  have hrun : ∃ w : World Unit, Run (barrenHost Unit) Alone w ∧ Quiescent w ∧ w.past.length = 3 := by
    refine ⟨_, .steps (.step (.call () 0) (.steps (.step (.call () 1) .start (fun _ _ _ _ => rfl) rfl)
      [.store (), .store (), .store (), .store ()] ?_ rfl) (fun _ _ _ _ => rfl) rfl)
      [.store (), .store (), .store (), .store ()] ?_ rfl, fun _ => rfl, rfl⟩ <;> simp [Alone]
  obtain ⟨w, h, hq, hlen⟩ := hrun
  exact ⟨w, h, hq, hlen, modeStates_consistent_of_alone h hq⟩

/-- Two threads load the active mode, then both switch, to different modes: both end up
active. -/
theorem racing_switches_both_active : ∃ w : World Bool, Run (barrenHost Bool) (fun _ _ => True) w ∧
    Quiescent w ∧ w.rt.states .throughputCache = .active ∧ w.rt.states .deterministicLatency = .active := by
  refine ⟨_, .steps .start [.call false 1, .call true 2, .store false, .store false, .store false,
    .store false, .store true, .store true, .store true, .store true] (fun _ _ _ => trivial) rfl,
    fun t => ?_, rfl, rfl⟩
  cases t <;> rfl

end MyMalloc.Adaptive.ModeSwitch
