import MyMalloc.Lib.Word
import Mathlib.Logic.Function.Basic

/- The C linkage hooks (`hooks.cpp`): which allocator serves a call.

   Three allocators take part: the bootstrap buffer of this file, libc's
   functions found by `dlsym`, and the adaptive allocator. What the latter two
   answer, and what they write, is an input of each call (`Ext`), and so is what
   `dlsym` does while it looks a symbol up (`Dlsym`): it may call `malloc` and
   `calloc`, which finds the hooks half initialised.

   The state has three ghost fields, written and never read by the hooks: the
   calls served from the bootstrap buffer, the copies `realloc` made, and the
   calls passed on to another allocator. -/
namespace MyMalloc.Hooks

def bootstrapSize : Nat := 4096

def realBootstrapMax : Nat := 64

/-- The libc functions `hooks_init` looks up. -/
inductive Symbol where
  | malloc
  | free
  | calloc
  | realloc
  deriving DecidableEq, Repr

/-- Where a pointer came from. -/
inductive Producer where
  | bootstrap
  | libc
  | adaptive
  deriving DecidableEq, Repr

/-- A call that asks for memory. -/
inductive AllocCall where
  | malloc (size : UInt64)
  | calloc (n size : UInt64)
  deriving DecidableEq

/-- The bytes asked for, as a number. -/
def AllocCall.bytes : AllocCall → Nat
  | .malloc size => size.toNat
  | .calloc n size => n.toNat * size.toNat

/-- The size the code computes for it. -/
def AllocCall.total (c : AllocCall) : Nat := c.bytes % 2^64

/-- A call passed on to libc or to the adaptive allocator. -/
inductive Outcall where
  | alloc (who : Producer) (size : Nat)
  | memalign (alignment size : Nat)
  | free (who : Producer) (ptr : Nat)
  | realloc (who : Producer) (ptr size : Nat)
  | usableSize (ptr : Nat)
  deriving DecidableEq

/-- A call served from the bootstrap buffer: the fill level it found, the pointer it returned and
the memory it left. -/
structure Service where
  call : AllocCall
  offset : Nat
  ptr : Nat
  mem : Nat → UInt8

/-- A `memcpy`. -/
structure Copy where
  dst : Nat
  src : Nat
  len : Nat
  deriving DecidableEq

/-- The static data of `hooks.cpp`, memory, and the ghost fields. -/
structure State where
  initialized : Bool
  resolved : Symbol → Bool
  bootstrapActive : Bool
  bootstrapOffset : Nat
  realBootstrapPtrs : List Nat
  mem : Nat → UInt8
  served : List Service
  copies : List Copy
  out : List Outcall

/-- What the allocator a call is passed on to answers, and the memory it leaves. -/
structure Ext where
  result : Nat
  mem : Nat → UInt8

/-- What `dlsym` does for a symbol: the calls it makes, and whether it finds the symbol. -/
structure Dlsym where
  nested : Symbol → List (AllocCall × Ext)
  found : Symbol → Bool

/-- Where the linker put `bootstrap_buf`. -/
structure Image where
  buf : Nat
  buf_pos : 0 < buf
  buf_fits : buf + bootstrapSize ≤ 2^64

def start (mem : Nat → UInt8) : State where
  initialized := false
  resolved _ := false
  bootstrapActive := true
  bootstrapOffset := 0
  realBootstrapPtrs := List.replicate realBootstrapMax 0
  mem := mem
  served := []
  copies := []
  out := []

/-! ## Tracked pointers -/

/-- The loop of `real_bootstrap_track`, and of `real_bootstrap_untrack` and
`real_bootstrap_replace`: the first entry equal to `old` is overwritten. -/
def overwrite (old new : Nat) : List Nat → Option (List Nat)
  | [] => none
  | p :: l => if p = old then some (new :: l) else (overwrite old new l).map (p :: ·)

def realBootstrapTrack (ptr : Nat) (l : List Nat) : List Nat :=
  if ptr = 0 then l else (overwrite 0 ptr l).getD l

def realBootstrapUntrack (ptr : Nat) (l : List Nat) : Option (List Nat) :=
  if ptr = 0 then none else overwrite ptr 0 l

def realBootstrapReplace (old new : Nat) (l : List Nat) : Option (List Nat) :=
  if old = 0 then some (realBootstrapTrack new l) else overwrite old new l

/-! ## Memory -/

/-- `memset(ptr, 0, len)`. -/
def State.clear (ptr len : Nat) (s : State) : State :=
  { s with mem := fun a => if ptr ≤ a ∧ a < ptr + len then 0 else s.mem a }

def State.memcpy (dst src len : Nat) (s : State) : State :=
  { s with
    mem := fun a => if dst ≤ a ∧ a < dst + len then s.mem (src + (a - dst)) else s.mem a
    copies := ⟨dst, src, len⟩ :: s.copies }

/-- A call to another allocator. -/
def State.pass (o : Outcall) (x : Ext) (s : State) : Nat × State :=
  (x.result, { s with mem := x.mem, out := o :: s.out })

section
variable (I : Image)

/-- The test of `free` and `realloc`. -/
def inBootstrap (ptr : Nat) : Bool := decide (I.buf ≤ ptr ∧ ptr < I.buf + bootstrapSize)

/-! ## The bootstrap buffer -/

/-- `(size + 15) & ~15`. -/
def roundUp16 (size : Nat) : Nat := maskOff ((size + 15) % 2^64) 15

def bootstrapMalloc (size : Nat) (s : State) : Nat × State :=
  let size := roundUp16 size
  if bootstrapSize < (s.bootstrapOffset + size) % 2^64 then (0, s)
  else
    (I.buf + s.bootstrapOffset,
      { s with bootstrapOffset := (s.bootstrapOffset + size) % 2^64 })

/-- A call served from the bootstrap buffer. -/
def serveBootstrap (c : AllocCall) (s : State) : Nat × State :=
  let (p, s') := bootstrapMalloc I c.total s
  let s' :=
    match c with
    | .malloc _ => s'
    | .calloc _ _ => if p ≠ 0 then s'.clear p c.total else s'
  (p, { s' with served := ⟨c, s.bootstrapOffset, p, s'.mem⟩ :: s.served })

/-! ## The hooks -/

/-- `malloc` and `calloc` once `hooks_initialized` is set. -/
def allocReady (c : AllocCall) (x : Ext) (s : State) : Nat × State :=
  if s.bootstrapActive then serveBootstrap I c s
  else
    match c with
    | .malloc size => s.pass (.alloc .adaptive size.toNat) x
    | .calloc n size =>
      if n.toNat ≠ 0 ∧ c.total / n.toNat ≠ size.toNat then (0, s)
      else
        let (p, s) := s.pass (.alloc .adaptive c.total) x
        (p, if p ≠ 0 then s.clear p c.total else s)

/-- One `dlsym` of `hooks_init`, with the calls it makes. -/
def lookUp (d : Dlsym) (s : State) (sym : Symbol) : State :=
  let s := (d.nested sym).foldl (fun s c => (allocReady I c.1 c.2 s).2) s
  { s with resolved := Function.update s.resolved sym (d.found sym) }

def hooksInit (d : Dlsym) (s : State) : State :=
  if s.initialized then s
  else [Symbol.malloc, .free, .calloc, .realloc].foldl (lookUp I d) { s with initialized := true }

/-- The libc function that stands for a call before the hooks are initialised. -/
def AllocCall.symbol : AllocCall → Symbol
  | .malloc _ => .malloc
  | .calloc _ _ => .calloc

/-- The hooks `malloc` and `calloc`. -/
def alloc (d : Dlsym) (c : AllocCall) (x : Ext) (s : State) : Nat × State :=
  if s.initialized then allocReady I c x s
  else
    let s := hooksInit I d s
    if s.resolved c.symbol then
      let (p, s) := { s with bootstrapActive := false }.pass (.alloc .libc c.bytes) x
      (p, { s with realBootstrapPtrs := realBootstrapTrack p s.realBootstrapPtrs })
    else serveBootstrap I c s

/-- `real_free`, if it was found. -/
def realFree (ptr : Nat) (x : Ext) (s : State) : State :=
  if s.resolved .free then (s.pass (.free .libc ptr) x).2 else s

def free (ptr : Nat) (x : Ext) (s : State) : State :=
  if ptr = 0 then s
  else if inBootstrap I ptr then s
  else if !s.initialized ∨ s.bootstrapActive then realFree ptr x s
  else
    match realBootstrapUntrack ptr s.realBootstrapPtrs with
    | some l => realFree ptr x { s with realBootstrapPtrs := l }
    | none => (s.pass (.free .adaptive ptr) x).2

def realloc (d : Dlsym) (ptr : Nat) (size : UInt64) (x : Ext) (s : State) : Nat × State :=
  if ptr = 0 then alloc I d (.malloc size) x s
  else if size = 0 then (0, free I ptr x s)
  else if inBootstrap I ptr then
    let (newPtr, s) := alloc I d (.malloc size) x s
    (newPtr, if newPtr ≠ 0 then s.memcpy newPtr ptr size.toNat else s)
  else if !s.initialized ∨ s.bootstrapActive then
    if s.resolved .realloc then s.pass (.realloc .libc ptr size.toNat) x else (0, s)
  else
    match realBootstrapReplace ptr ptr s.realBootstrapPtrs with
    | some _ =>
      if !s.resolved .realloc then (0, s)
      else
        let (newPtr, s) := s.pass (.realloc .libc ptr size.toNat) x
        (newPtr,
          if newPtr ≠ 0 then
            { s with realBootstrapPtrs :=
              (realBootstrapReplace ptr newPtr s.realBootstrapPtrs).getD s.realBootstrapPtrs }
          else s)
    | none => s.pass (.realloc .adaptive ptr size.toNat) x

def memalign (alignment size : UInt64) (x : Ext) (s : State) : Nat × State :=
  s.pass (.memalign alignment.toNat size.toNat) x

/-- `alignment & (alignment - 1)`. -/
def lowBits (alignment : UInt64) : UInt64 := alignment &&& (alignment - 1)

/-- `posix_memalign`: the error code and the pointer stored, null if none is. -/
def posixMemalign (memptr : Bool) (alignment size : UInt64) (x : Ext) (s : State) :
    (Nat × Nat) × State :=
  if !memptr ∨ lowBits alignment ≠ 0 ∨ alignment < 8 then ((22, 0), s)
  else
    let (p, s) := memalign alignment size x s
    if p = 0 then ((12, 0), s) else ((0, p), s)

def alignedAlloc (alignment size : UInt64) (x : Ext) (s : State) : Nat × State :=
  if alignment = 0 ∨ lowBits alignment ≠ 0 then (0, s)
  else if size % alignment ≠ 0 then (0, s)
  else memalign alignment size x s

def mallocUsableSize (ptr : Nat) (x : Ext) (s : State) : Nat × State := s.pass (.usableSize ptr) x

/-! ## Runs -/

inductive HookCall where
  | alloc (c : AllocCall)
  | free (ptr : Nat)
  | realloc (ptr : Nat) (size : UInt64)
  | memalign (alignment size : UInt64)
  | posixMemalign (memptr : Bool) (alignment size : UInt64)
  | alignedAlloc (alignment size : UInt64)
  | mallocUsableSize (ptr : Nat)

/-- A call of a hook: the pointer (or the size) it gives its caller. -/
def call (d : Dlsym) (c : HookCall) (x : Ext) (s : State) : Nat × State :=
  match c with
  | .alloc c => alloc I d c x s
  | .free ptr => (0, free I ptr x s)
  | .realloc ptr size => realloc I d ptr size x s
  | .memalign alignment size => memalign alignment size x s
  | .posixMemalign memptr alignment size =>
    let (r, s) := posixMemalign memptr alignment size x s
    (r.2, s)
  | .alignedAlloc alignment size => alignedAlloc alignment size x s
  | .mallocUsableSize ptr => mallocUsableSize ptr x s

/-- The states of all sequences of hook calls from process start, with any answers of the other
allocators and with anything written to memory between the calls. -/
inductive Reached (d : Dlsym) : State → Prop
  | start (mem : Nat → UInt8) : Reached d (start mem)
  | call {s : State} (c : HookCall) (x : Ext) : Reached d s → Reached d (call I d c x s).2
  | write {s : State} (mem : Nat → UInt8) : Reached d s → Reached d { s with mem := mem }

end

end MyMalloc.Hooks
