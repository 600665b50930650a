import Mathlib.Data.List.Basic

/- Runs of a step function over a list of steps, and conditions on the state
   before each step of a run.

   When each step leaves a counter alone exactly if it meets a condition, a whole
   run leaves the counter alone exactly if all its steps do (`unchanged_iff_along`).
   When each step keeps a property exactly if it meets a condition, the property
   holds all along a run exactly if all its steps do (`prefixes_iff_along`). -/
namespace MyMalloc

variable {α σ : Type} {step : α → σ → σ} {P : α → σ → Prop} {I : σ → Prop} {as : List α} {s : σ}

/-- The steps `as`, one after the other. -/
def runSteps (step : α → σ → σ) (as : List α) (s : σ) : σ := as.foldl (fun s a => step a s) s

@[simp] theorem runSteps_nil (s : σ) : runSteps step [] s = s := rfl

@[simp] theorem runSteps_cons (a : α) (as : List α) (s : σ) :
    runSteps step (a :: as) s = runSteps step as (step a s) := rfl

theorem runSteps_append (as bs : List α) (s : σ) :
    runSteps step (as ++ bs) s = runSteps step bs (runSteps step as s) :=
  List.foldl_append

theorem runSteps_map {ι : Type} (f : ι → α) (l : List ι) (s : σ) :
    runSteps step (l.map f) s = l.foldl (fun s i => step (f i) s) s :=
  List.foldl_map

/-- Every step of the run meets `P` in the state it is taken in. -/
def Along (step : α → σ → σ) (P : α → σ → Prop) : List α → σ → Prop
  | [], _ => True
  | a :: as, s => P a s ∧ Along step P as (step a s)

/-- Of a counter that never goes down. -/
theorem unchanged_iff_along {f : σ → Nat} {R : α → Prop}
    (hinv : ∀ a s, R a → I s → I (step a s))
    (hle : ∀ a s, R a → I s → f s ≤ f (step a s))
    (hiff : ∀ a s, R a → I s → (f (step a s) = f s ↔ P a s)) :
    ∀ (as : List α) (s : σ), (∀ a ∈ as, R a) → I s →
      f s ≤ f (runSteps step as s) ∧ (f (runSteps step as s) = f s ↔ Along step P as s) := by
  intro as
  induction as with
  | nil => exact fun s _ _ => ⟨Nat.le_refl _, by simp [Along]⟩
  | cons a as ih =>
    intro s hR hs
    have ha := hR a List.mem_cons_self
    obtain ⟨hup, htail⟩ := ih (step a s) (fun b hb => hR b (List.mem_cons_of_mem _ hb)) (hinv a s ha hs)
    have h1 := hle a s ha hs
    refine ⟨Nat.le_trans h1 hup, ?_⟩
    rw [runSteps_cons, Along, ← hiff a s ha hs, ← htail]
    -- the counter is back where it was only if no step has moved it
    constructor
    · intro h
      omega
    · rintro ⟨h, h'⟩
      omega

/-- The prefixes of a run: nothing, or the first step and a prefix of the rest. -/
theorem forall_prefix_cons {K : σ → Prop} {a : α} :
    (∀ pre, pre <+: a :: as → K (runSteps step pre s)) ↔
      K s ∧ ∀ pre, pre <+: as → K (runSteps step pre (step a s)) := by
  constructor
  · intro h
    exact ⟨h [] (List.nil_prefix), fun pre hpre => h (a :: pre) ((List.prefix_cons_inj a).mpr hpre)⟩
  · rintro ⟨h0, h⟩ pre hpre
    cases pre with
    | nil => exact h0
    | cons b pre =>
      obtain ⟨rfl, htail⟩ := List.cons_prefix_cons.mp hpre
      exact h pre htail

/-- Of a property `K` that every step `R` allows keeps or breaks by itself. -/
theorem prefixes_iff_along {K : σ → Prop} {R : α → σ → Prop} (hinv : ∀ a s, R a s → I s → I (step a s))
    (hiff : ∀ a s, R a s → I s → K s → (K (step a s) ↔ P a s)) (hI : I s) (hK : K s) (hR : Along step R as s) :
    (∀ pre, pre <+: as → K (runSteps step pre s)) ↔ Along step P as s := by
  induction as generalizing s with
  | nil =>
    refine iff_of_true (fun pre hpre => ?_) trivial
    rw [List.prefix_nil.mp hpre]
    exact hK
  | cons a as ih =>
    rw [forall_prefix_cons, Along]
    have hstep := hiff a s hR.1 hI hK
    constructor
    · rintro ⟨-, h⟩
      have hK' : K (step a s) := h [] List.nil_prefix
      exact ⟨hstep.mp hK', (ih (hinv a s hR.1 hI) hK' hR.2).mp h⟩
    · rintro ⟨hP, h⟩
      exact ⟨hK, (ih (hinv a s hR.1 hI) (hstep.mpr hP) hR.2).mpr h⟩

end MyMalloc
