import MyMalloc.Adaptive.Services

/- The allocator together with its callers: threads that make calls, owning the
   pointers they were given.

   A caller may free, resize or ask about a pointer only while it owns it; a
   call takes the ownership for its duration. Owners may write to the usable
   bytes of their blocks at any time. Everything else about the callers is
   arbitrary: how many threads there are, what they call, with which sizes and
   alignments, and when they switch the mode. -/
namespace MyMalloc.Adaptive

/-- The public entry points. A pointer argument is a grant the caller owns, or null. -/
inductive Call where
  | malloc (size : UInt64)
  | memalign (alignment size : UInt64)
  | free (g : Option Grant)
  | realloc (g : Option Grant) (size : UInt64)
  | usableSize (g : Option Grant)
  | setMode (mode : UInt8)

/-- The pointer a caller passes. -/
def ptrOf (g : Option Grant) : Nat := g.elim 0 (·.ptr)

section
variable {τ : Type} [DecidableEq τ] (host : Host τ)

def body (t : τ) : Call → P Nat
  | .malloc size => adaptiveMalloc host t size.toNat
  | .memalign alignment size => adaptiveMemalign host t alignment.toNat size.toNat
  | .free g => do
    adaptiveFree host t (ptrOf g)
    pure 0
  | .realloc g size => adaptiveRealloc host t (ptrOf g) size.toNat
  | .usableSize g => adaptiveUsableSize host (ptrOf g)
  | .setMode mode => do
    adaptiveSetMode mode.toNat
    pure 0

/-- The caller gives a pointer into a call. -/
def State.lend (s : State τ) : Option Grant → Option (State τ)
  | none => some s
  | some g =>
    if s.ledger g.ptr = some g then some { s with ledger := Function.update s.ledger g.ptr none }
    else none

/-- The caller receives a pointer. -/
def State.give (s : State τ) (g : Grant) : State τ :=
  { s with ledger := Function.update s.ledger g.ptr (some g) }

def begins (_t : τ) (c : Call) (s : State τ) : Option (State τ) :=
  match c with
  | .free g => s.lend g
  | .realloc g _ => s.lend g
  | .usableSize g => s.lend g
  | _ => some s

/-- What the caller owns after a call returned `r`. A failed `realloc` leaves the old
pointer with its owner. -/
def ends (_t : τ) (c : Call) (r : Nat) (s : State τ) : State τ :=
  match c with
  | .malloc size => if r = 0 then s else s.give ⟨r, size.toNat, 16⟩
  | .memalign alignment size => if r = 0 then s else s.give ⟨r, size.toNat, alignment.toNat⟩
  | .free _ => s
  | .realloc none size => if r = 0 then s else s.give ⟨r, size.toNat, 16⟩
  | .realloc (some g) size =>
    if r = 0 then if size = 0 then s else s.give g
    else if r = g.ptr then s.give ⟨r, size.toNat, g.alignment⟩
    else s.give ⟨r, size.toNat, 16⟩
  | .usableSize none => s
  | .usableSize (some g) => s.give g
  | .setMode _ => s

/-- An owner writes to its block. -/
def OwnerWrites (s s' : State τ) : Prop :=
  ∃ g mem, s.ledger g.ptr = some g ∧
    (∀ a, ¬ (g.ptr ≤ a ∧ a < g.ptr + (s.hdr (g.ptr - hdrOffset)).usable) → mem a = s.mem a) ∧
    s' = { s with mem := mem }

def system : Machine Act Ans (State τ) τ Call Nat where
  exec := exec host
  body := body host
  begins := begins
  ends := ends
  env := OwnerWrites

/-- The process right after `init_once`. -/
def initState : State τ where
  hdr _ := zeroHeader
  next _ := 0
  prev _ := 0
  head _ := 0
  page _ := ⟨.sizeClass, .balanced, 0, 0, 0, 0, 0, 0⟩
  liveCount _ := 0
  pools _ _ := []
  binCount _ := 0
  table _ := 0
  remotePending := 0
  bucketOwner _ := 0
  extentCount := 0
  mapped := []
  mmapCalls := 0
  mmapFailures := 0
  mem _ := 0
  epoch := 0
  stats := {}
  rt :=
    { active := host.cfg.configuredMode
      previous := host.cfg.configuredMode
      states := Function.update (fun _ => .inactive) host.cfg.configuredMode .active
      selectorCounter := 0
      cooldownUntil := 0
      windowBase := {} }
  heldBy _ := none
  uncounted _ := false
  quarantine _ := false
  ledger _ := none

/-- The states of all runs whose steps satisfy `C`. -/
abbrev Reaches (C : Act → State τ → Prop) (P : Pool Act Ans (State τ) τ Call Nat) : Prop :=
  Reachable (system host) (fun _ a s => C a s) (initState host) P

/-- The states of all runs. -/
abbrev Reached (P : Pool Act Ans (State τ) τ Call Nat) : Prop := Reaches host (fun _ _ => True) P

end

end MyMalloc.Adaptive
