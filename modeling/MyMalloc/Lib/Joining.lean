import MyMalloc.Lib.Tiling

/- Cells that are joined one after the other.

   Cells lie side by side; some are in a bin, one is the top cell, the others are in
   use. A cell in use is freed by `Join`: it is joined with the cell before it if that
   one is in a bin, and with the top cell if that one comes after it. It is not joined
   with a cell in a bin that comes after it.

   Whether two free neighbours are left in the end depends on the order in which the
   cells are freed. `parted_iff` says which orders leave none: a border between two
   cells that are free in the end goes away if the cell after it is freed once the one
   before it is free, or if the cell before it is freed once all those after it are
   part of the top cell. -/
namespace MyMalloc

/-- The cells at one time: their lengths, which of them are in a bin, and the top cell. -/
structure Cells where
  len : Nat → Option Nat
  bin : Nat → Prop
  top : Nat

namespace Cells
variable {C C' C₀ : Cells} {ord Q : List Nat} {b c d e k m n p x : Nat}

def Free (C : Cells) (c : Nat) : Prop := C.bin c ∨ c = C.top

/-- No two neighbours are both free. -/
def Parted (C : Cells) : Prop :=
  ∀ c n m, C.len c = some n → C.len (c + n) = some m → ¬ (C.Free c ∧ C.Free (c + n))

/-- Where the cell starts that `p` becomes part of: at the cell before it, if that one is in a bin. -/
inductive From (C : Cells) (p : Nat) : Nat → Prop
  | alone (h : ∀ b m, C.len b = some m → b + m = p → ¬ C.bin b) : From C p p
  | before {b m : Nat} (hb : C.len b = some m) (hend : b + m = p) (hbin : C.bin b) : From C p b

/-- The cell `p` is freed. -/
inductive Join (C : Cells) (p : Nat) : Cells → Prop
  | grow {n m b : Nat} (hp : C.len p = some n) (hfrom : C.From p b) (htop : C.top = p + n)
      (hm : C.len (p + n) = some m) : Join C p ⟨merge C.len b (p + n + m), fun c => C.bin c ∧ c ≠ b, b⟩
  | place {n b : Nat} (hp : C.len p = some n) (hfrom : C.From p b) (htop : C.top ≠ p + n) :
      Join C p ⟨merge C.len b (p + n), fun c => C.bin c ∨ c = b, C.top⟩

/-- The cells of a list are freed in turn. -/
inductive Joins : Cells → List Nat → Cells → Prop
  | nil {C : Cells} : Joins C [] C
  | cons {C C₁ C' : Cells} {p : Nat} {rest : List Nat} (h : Join C p C₁) (t : Joins C₁ rest C') :
      Joins C (p :: rest) C'

/-- The cells at the start, and those that are to be freed. -/
structure Ok (C : Cells) (ord : List Nat) : Prop where
  pos : ∀ c n, C.len c = some n → 0 < n
  apart : ∀ c n d m, C.len c = some n → C.len d = some m → c < d → c + n ≤ d
  bin : ∀ c, C.bin c → ∃ n, C.len c = some n
  top : ¬ C.bin C.top
  topCell : C.top = 0 ∨ ∃ n, C.len C.top = some n
  zero : C.len 0 = none
  used : ∀ p ∈ ord, (∃ n, C.len p = some n) ∧ ¬ C.Free p
  nodup : ord.Nodup

/-! ## Orders -/

/-- `c` comes before `d`. -/
def Before (ord : List Nat) (c d : Nat) : Prop := ∃ l l', ord = l ++ d :: l' ∧ c ∈ l

theorem before_iff {rest : List Nat} (hnd : (Q ++ p :: rest).Nodup) : Before (Q ++ p :: rest) c p ↔ c ∈ Q := by
  obtain ⟨-, hrest, hQ⟩ := List.nodup_append.mp hnd
  constructor
  · rintro ⟨l, l', heq, hc⟩
    have hpQ : p ∉ Q := fun hp => hQ p hp p List.mem_cons_self rfl
    -- a list is split at `p` in one way only
    obtain ⟨rfl, -⟩ := (List.append_cons_inj_of_notMem hpQ (List.nodup_cons.mp hrest).1).mp heq
    exact hc
  · exact fun hc => ⟨Q, rest, rfl, hc⟩

/-- Free once the cells of `Q` have been freed. -/
def FreeBy (C : Cells) (Q : List Nat) (x : Nat) : Prop := C.bin x ∨ x ∈ Q ∨ x = C.top

/-- The border between `c` and `d` goes away when the cells of `Q`, the first ones of `ord`, are freed. -/
def VanishesBy (C : Cells) (ord Q : List Nat) (c d : Nat) : Prop :=
  (d ∈ Q ∧ (C.bin c ∨ Before ord c d)) ∨
    (c ∈ Q ∧ ∃ l, Tiles C.len d C.top l ∧ ∀ x ∈ l, C.bin x ∨ Before ord x c)

abbrev Vanishes (C : Cells) (ord : List Nat) (c d : Nat) : Prop := C.VanishesBy ord ord c d

/-- Every border between cells that are free in the end goes away. -/
def AllVanish (C : Cells) (ord : List Nat) : Prop :=
  ∀ c n m, C.len c = some n → C.len (c + n) = some m → C.FreeBy ord c → C.FreeBy ord (c + n) →
    C.Vanishes ord c (c + n)

/-! ## What holds at any time -/

/-- The cells `C` when those of `Q` have been freed. -/
structure Inv (C₀ : Cells) (Q : List Nat) (C : Cells) : Prop where
  apart : ∀ c n d m, C.len c = some n → C.len d = some m → c < d → c + n ≤ d
  pos : ∀ c n, C.len c = some n → 0 < n
  bin : ∀ c, C.bin c → ∃ n, C.len c = some n
  topOut : ¬ C.bin C.top
  tiles : ∀ c n, C.len c = some n → ∃ l, Tiles C₀.len c (c + n) l
  uniform : ∀ c n, C.len c = some n → ∀ x m, C₀.len x = some m → c ≤ x → x < c + n → (C₀.FreeBy Q x ↔ C.Free c)
  lone : ∀ c n, C.len c = some n → ¬ C.Free c → C₀.len c = some n
  cover : ∀ x m, C₀.len x = some m → ∃ c n, C.len c = some n ∧ c ≤ x ∧ x < c + n
  top : (C₀.len C₀.top = none ∧ C.top = C₀.top) ∨ ∃ k n, C₀.len C₀.top = some k ∧ C.len C.top = some n ∧
    C.top ≤ C₀.top ∧ C.top + n = C₀.top + k

theorem eq_of_apart (hap : ∀ c n d m, C.len c = some n → C.len d = some m → c < d → c + n ≤ d)
    (hc : C.len c = some n) (hd : C.len d = some m) (h1 : c ≤ x) (h2 : x < c + n) (h3 : d ≤ x) (h4 : x < d + m) :
    c = d := by
  rcases Nat.lt_trichotomy c d with hlt | heq | hlt
  · have := hap c n d m hc hd hlt
    omega
  · exact heq
  · have := hap d m c n hd hc hlt
    omega

theorem Ok.inv (h : C.Ok ord) : Inv C [] C where
  apart := h.apart
  pos := h.pos
  bin := h.bin
  topOut := h.top
  tiles c n hc := ⟨[c], rfl, n, hc, h.pos c n hc, rfl⟩
  uniform c n hc x m hx h1 h2 := by
    obtain rfl : c = x := eq_of_apart h.apart hc hx h1 h2 (Nat.le_refl x) (by have := h.pos x m hx; omega)
    simp [FreeBy, Free]
  lone c n hc _ := hc
  cover x m hx := ⟨x, m, hx, Nat.le_refl x, by have := h.pos x m hx; omega⟩
  top := by
    cases hT : C.len C.top with
    | none => exact .inl ⟨rfl, rfl⟩
    | some k => exact .inr ⟨k, k, rfl, rfl, Nat.le_refl _, rfl⟩

/-- The cell that is to be freed next is as it was. -/
theorem Inv.pending {rest : List Nat} (hok : C₀.Ok (Q ++ p :: rest)) (h : Inv C₀ Q C) :
    ∃ n, C₀.len p = some n ∧ C.len p = some n ∧ ¬ C.Free p := by
  obtain ⟨⟨n, hn⟩, hused⟩ := hok.used p (by simp)
  obtain ⟨c, m, hc, h1, h2⟩ := h.cover p n hn
  have hfree : ¬ C.Free c := by
    rw [← h.uniform c m hc p n hn h1 h2]
    rintro (hb | hq | ht)
    · exact hused (.inl hb)
    · exact (List.nodup_append.mp hok.nodup).2.2 p hq p List.mem_cons_self rfl
    · exact hused (.inr ht)
  have hc₀ := h.lone c m hc hfree
  obtain rfl : c = p := eq_of_apart hok.apart hc₀ hn h1 h2 (Nat.le_refl p) (by have := hok.pos p n hn; omega)
  obtain rfl : m = n := Option.some.inj (hc₀.symm.trans hn)
  exact ⟨m, hn, hc, hfree⟩

theorem first_of_tiles {len : Nat → Option Nat} {l : List Nat} (h : Tiles len c e l) (hlt : c < e) :
    ∃ m, len c = some m := by
  cases l with
  | nil =>
    obtain rfl : c = e := h
    omega
  | cons y l =>
    obtain ⟨-, m, hm, -⟩ := h
    exact ⟨m, hm⟩

/-- A cell of now starts where one of the start does. -/
theorem Inv.start (h : Inv C₀ Q C) (hc : C.len c = some n) : ∃ m, C₀.len c = some m := by
  obtain ⟨l, hl⟩ := h.tiles c n hc
  exact first_of_tiles hl (by have := h.pos c n hc; omega)

/-- The top cell has grown down from that of the start. -/
theorem Inv.top_grown (h : Inv C₀ Q C) (hm : C.len C.top = some m) :
    ∃ k, C₀.len C₀.top = some k ∧ C.top ≤ C₀.top ∧ C.top + m = C₀.top + k := by
  rcases h.top with ⟨hnone, heq⟩ | ⟨k, n, hk, hn, hle, heq⟩
  · obtain ⟨j, hj⟩ := h.start hm
    rw [heq, hnone] at hj
    cases hj
  · obtain rfl := Option.some.inj (hm.symm.trans hn)
    exact ⟨k, hk, hle, heq⟩

/-! ## One step -/

/-- What one step does: the cells from `b` up to `e` become one, which is free. -/
structure Step (C : Cells) (p b e : Nat) (C' : Cells) : Prop where
  len : C'.len = merge C.len b e
  run : ∃ l, Tiles C.len b e l ∧ p ∈ l ∧ ∀ c ∈ l, c = p ∨ C.Free c
  bin : ∀ c, C'.bin c → c = b ∨ C.bin c ∧ (c < b ∨ e ≤ c)
  free : C'.Free b
  other : ∀ c, c < b ∨ e ≤ c → (C'.Free c ↔ C.Free c)
  topOut : ¬ C'.bin C'.top
  top : (C'.top = C.top ∧ ∀ m, C.len C.top = some m → C.top < b ∨ e ≤ C.top) ∨
    C'.top = b ∧ ∃ m, C.len C.top = some m ∧ C.top + m = e

theorem From.run (hfrom : C.From p b) (hpos : ∀ c n, C.len c = some n → 0 < n) (hp : C.len p = some n) :
    ∃ l, Tiles C.len b (p + n) l ∧ p ∈ l ∧ ∀ c ∈ l, c = p ∨ c = b ∧ C.bin c := by
  have hlast : Tiles C.len p (p + n) [p] := ⟨rfl, n, hp, hpos p n hp, rfl⟩
  cases hfrom with
  | alone h => exact ⟨[_], hlast, List.mem_cons_self, fun c hc => .inl (List.mem_singleton.mp hc)⟩
  | @before b m hb hend hbin =>
    refine ⟨[b, p], ⟨rfl, m, hb, hpos b m hb, hend ▸ hlast⟩, by simp, fun c hc => ?_⟩
    rcases List.mem_cons.mp hc with rfl | hc
    · exact .inr ⟨rfl, hbin⟩
    · exact .inl (List.mem_singleton.mp hc)

/-- The cells between the ends are those of the run. -/
theorem Inv.mem_run (h : Inv C₀ Q C) {l : List Nat} (hl : Tiles C.len b e l) (hc : C.len c = some n)
    (h1 : b ≤ c) (h2 : c < e) : c ∈ l :=
  hl.mem_of_apart (fun d m hd hlt => h.apart d m c n hd hc hlt) h1 h2

theorem Join.step (hj : C.Join p C') (h : Inv C₀ Q C) (hused : ¬ C.Free p) : ∃ b e, Step C p b e C' := by
  cases hj with
  | @grow n m b hp hfrom htop hm =>
    obtain ⟨l, hl, hpl, hall⟩ := hfrom.run h.pos hp
    have hlast : Tiles C.len (p + n) (p + n + m) [p + n] := ⟨rfl, m, hm, h.pos _ m hm, rfl⟩
    have hle := hl.le
    have hmpos := h.pos _ m hm
    refine ⟨b, p + n + m, rfl, ⟨_, hl.append hlast, List.mem_append_left _ hpl, fun c hc => ?_⟩, fun c hc => .inr ⟨hc.1, ?_⟩,
      .inr rfl, fun c hc => ?_, fun hb => hb.2 rfl, .inr ⟨rfl, m, htop ▸ hm, by omega⟩⟩
    · rcases List.mem_append.mp hc with hc | hc
      · exact (hall c hc).imp_right fun hb => .inl hb.2
      · exact .inr (.inr ((List.mem_singleton.mp hc).trans htop.symm))
    · by_contra hin
      obtain ⟨k, hk⟩ := h.bin c hc.1
      rcases List.mem_append.mp (h.mem_run (hl.append hlast) hk (by omega) (by omega)) with hm | hm
      · rcases hall c hm with rfl | ⟨heq, -⟩
        · exact hused (.inl hc.1)
        · exact hc.2 heq
      · obtain rfl := List.mem_singleton.mp hm
        exact h.topOut (htop ▸ hc.1)
    · have hne : c ≠ b := by omega
      have hnt : c ≠ C.top := by omega
      simp [Free, hne, hnt]
  | @place n b hp hfrom htop =>
    obtain ⟨l, hl, hpl, hall⟩ := hfrom.run h.pos hp
    have hle := hl.le
    -- a cell of the run that is free is its first
    have hfirst : ∀ c k, C.len c = some k → C.Free c → b ≤ c → c < p + n → c = b ∧ C.bin c := by
      intro c k hc hfree h1 h2
      rcases hall c (h.mem_run hl hc h1 h2) with rfl | hb
      · exact absurd hfree hused
      · exact hb
    refine ⟨b, p + n, rfl, ⟨l, hl, hpl, fun c hc => (hall c hc).imp_right fun hb => .inl hb.2⟩, fun c hc => ?_,
      .inl (.inr rfl), fun c hc => ?_, ?_, .inl ⟨rfl, fun m hm => ?_⟩⟩
    · rcases hc with hc | rfl
      · obtain ⟨k, hk⟩ := h.bin c hc
        by_cases hin : b ≤ c ∧ c < p + n
        · exact .inl (hfirst c k hk (.inl hc) hin.1 hin.2).1
        · exact .inr ⟨hc, by omega⟩
      · exact .inl rfl
    · have hne : c ≠ b := by
        have := h.pos p n hp
        obtain ⟨k, -, -, hbp, -⟩ := hl.bounds hpl
        omega
      simp [Free, hne]
    · rintro (hb | heq)
      · exact h.topOut hb
      · cases hfrom with
        | alone _ => exact hused (.inr heq.symm)
        | before _ _ hbin => exact h.topOut (heq ▸ hbin)
    · by_contra hin
      exact h.topOut (hfirst C.top m hm (.inr rfl) (by omega) (by omega)).2

theorem Inv.step {rest : List Nat} (hok : C₀.Ok (Q ++ p :: rest)) (h : Inv C₀ Q C) (hs : Step C p b e C') :
    Inv C₀ (Q ++ [p]) C' := by
  obtain ⟨n, hn₀, hn, hused⟩ := h.pending hok
  obtain ⟨l, hl, hpl, hall⟩ := hs.run
  obtain ⟨_, hn', hnpos, hbp, hpe⟩ := hl.bounds hpl
  obtain rfl := Option.some.inj (hn.symm.trans hn')
  have hlt : b < e := by omega
  have hby : ∀ x, C₀.FreeBy (Q ++ [p]) x ↔ C₀.FreeBy Q x ∨ x = p := by
    intro x
    simp only [FreeBy, List.mem_append, List.mem_singleton]
    tauto
  -- a cell that was there is outside of the run, or one of it
  have hside : ∀ c m, C.len c = some m → c + m ≤ b ∨ e ≤ c ∨ (b ≤ c ∧ c + m ≤ e ∧ c ∈ l) := by
    intro c m hc
    by_cases hin : b ≤ c ∧ c < e
    · have hm := h.mem_run hl hc hin.1 hin.2
      obtain ⟨_, hm', -, -, hup⟩ := hl.bounds hm
      obtain rfl := Option.some.inj (hc.symm.trans hm')
      exact .inr (.inr ⟨hin.1, hup, hm⟩)
    · by_cases hcb : c < b
      · obtain ⟨k, hk⟩ := first_of_tiles hl hlt
        exact .inl (h.apart c m b k hc hk hcb)
      · exact .inr (.inl (by omega))
  refine ⟨fun c m d k hc hd hcd => ?_, fun c m hc => ?_, fun c hc => ?_, hs.topOut, fun c m hc => ?_,
    fun c m hc x k hx h1 h2 => ?_, fun c m hc hfree => ?_, fun x m hx => ?_, ?_⟩
  · rw [hs.len] at hc hd
    rcases merge_cases hc with ⟨rfl, rfl⟩ | ⟨hc', hcN⟩ <;> rcases merge_cases hd with ⟨rfl, rfl⟩ | ⟨hd', hdN⟩
    · omega
    · omega
    · have := hside c m hcN
      omega
    · exact h.apart c m d k hcN hdN hcd
  · rw [hs.len] at hc
    rcases merge_cases hc with ⟨rfl, rfl⟩ | ⟨-, hcN⟩
    · omega
    · exact h.pos c m hcN
  · rw [hs.len]
    rcases hs.bin c hc with rfl | ⟨hb, hout⟩
    · exact ⟨_, merge_self⟩
    · obtain ⟨m, hm⟩ := h.bin c hb
      exact ⟨m, (merge_of_out hlt hout).trans hm⟩
  · rw [hs.len] at hc
    rcases merge_cases hc with ⟨rfl, rfl⟩ | ⟨-, hcN⟩
    · rw [Nat.add_sub_cancel' (Nat.le_of_lt hlt)]
      exact hl.finer h.tiles
    · exact h.tiles c m hcN
  · rw [hs.len] at hc
    rw [hby]
    rcases merge_cases hc with ⟨rfl, rfl⟩ | ⟨hout, hcN⟩
    · -- every cell of the run is free now
      refine ⟨fun _ => hs.free, fun _ => ?_⟩
      obtain ⟨d, m, hd, h3, h4⟩ := h.cover x k hx
      have hdl : d ∈ l := by
        have := hside d m hd
        exact h.mem_run hl hd (by omega) (by omega)
      rcases hall d hdl with rfl | hfree
      · obtain rfl := Option.some.inj (hd.symm.trans hn)
        exact .inr (eq_of_apart hok.apart hx hn₀ (Nat.le_refl x) (by have := hok.pos x k hx; omega) h3 h4)
      · exact .inl ((h.uniform d m hd x k hx h3 h4).mpr hfree)
    · have hxp : x ≠ p := by
        have := hside c m hcN
        omega
      rw [hs.other c hout, ← h.uniform c m hcN x k hx h1 h2]
      exact or_iff_left hxp
  · rw [hs.len] at hc
    rcases merge_cases hc with ⟨rfl, -⟩ | ⟨hout, hcN⟩
    · exact absurd hs.free hfree
    · exact h.lone c m hcN (fun hf => hfree ((hs.other c hout).mpr hf))
  · obtain ⟨c, k, hc, h1, h2⟩ := h.cover x m hx
    rw [hs.len]
    rcases hside c k hc with hc' | hc' | ⟨hc1, hc2, -⟩
    · exact ⟨c, k, (merge_of_out hlt (by have := h.pos c k hc; omega)).trans hc, h1, h2⟩
    · exact ⟨c, k, (merge_of_out hlt (.inr hc')).trans hc, h1, h2⟩
    · exact ⟨b, e - b, merge_self, by omega, by omega⟩
  · rw [hs.len]
    rcases hs.top with ⟨htop, hout⟩ | ⟨htop, m, hm, hend⟩
    · rw [htop]
      rcases h.top with hnone | ⟨k, n', hk, hn', hle, heq⟩
      · exact .inl hnone
      · exact .inr ⟨k, n', hk, (merge_of_out hlt (hout n' hn')).trans hn', hle, heq⟩
    · obtain ⟨k, hk, hle, heq⟩ := h.top_grown hm
      rw [htop]
      refine .inr ⟨k, e - b, hk, merge_self, ?_, by omega⟩
      have := hside C.top m hm
      omega

/-! ## Borders -/

section borders
variable {rest : List Nat}

/-- The cell of now around one of the start. -/
theorem Inv.around (hok : C₀.Ok ord) (h : Inv C₀ Q C) (hx : C₀.len x = some m) :
    ∃ c n, C.len c = some n ∧ c ≤ x ∧ x + m ≤ c + n ∧ (C₀.FreeBy Q x ↔ C.Free c) := by
  obtain ⟨c, n, hc, h1, h2⟩ := h.cover x m hx
  obtain ⟨l, hl⟩ := h.tiles c n hc
  have hxl : x ∈ l := hl.mem_of_apart (fun d k hd hlt => hok.apart d k x m hd hx hlt) h1 h2
  obtain ⟨_, hm, -, -, hup⟩ := hl.bounds hxl
  obtain rfl := Option.some.inj (hx.symm.trans hm)
  exact ⟨c, n, hc, h1, hup, h.uniform c n hc x m hx h1 h2⟩

/-- The cell of now that ends at a border. -/
theorem Inv.upTo (hok : C₀.Ok ord) (h : Inv C₀ Q C) (hx : C₀.len x = some m) (hd : C.len (x + m) = some k) :
    ∃ c n, C.len c = some n ∧ c ≤ x ∧ c + n = x + m ∧ (C₀.FreeBy Q x ↔ C.Free c) := by
  obtain ⟨c, n, hc, h1, h2, hfree⟩ := h.around hok hx
  have hpos := hok.pos x m hx
  have := h.apart c n (x + m) k hc hd (by omega)
  exact ⟨c, n, hc, h1, by omega, hfree⟩

theorem Ok.end_inj (hok : C.Ok ord) (hc : C.len c = some n) (hd : C.len d = some m) (heq : c + n = d + m) : c = d := by
  have h1 := hok.pos c n hc
  have h2 := hok.pos d m hd
  exact eq_of_apart (x := c + n - 1) hok.apart hc hd (by omega) (by omega) (by omega) (by omega)

/-- The top cell is the one around the top cell of the start. -/
theorem Inv.top_eq (hok : C₀.Ok ord) (h : Inv C₀ Q C) (hc : C.len c = some n) (hT : C₀.len C₀.top = some k)
    (h1 : c ≤ C₀.top) (h2 : C₀.top < c + n) : c = C.top := by
  rcases h.top with ⟨hnone, -⟩ | ⟨k', n', hk, hn, hle, heq⟩
  · rw [hnone] at hT
    cases hT
  · have := hok.pos _ k' hk
    exact eq_of_apart h.apart hc hn h1 h2 hle (by omega)

/-- The border in front of `p`, where the cell before it is in a bin. -/
theorem Inv.vanishes_before (hok : C₀.Ok (Q ++ p :: rest)) (h : Inv C₀ Q C) (hb : C.len b = some m)
    (hend : b + m = p) (hbin : C.bin b) (hc : C₀.len c = some n) (hcp : c + n = p) :
    C₀.Vanishes (Q ++ p :: rest) c p := by
  obtain ⟨k, hk⟩ := h.start hb
  have hcpos := hok.pos c n hc
  have hkpos := hok.pos b k hk
  have hmpos := h.pos b m hb
  have hbc : b ≤ c := by
    by_contra hlt
    have := hok.apart c n b k hc hk (by omega)
    omega
  have hfree := (h.uniform b m hb c n hc hbc (by omega)).mpr (.inl hbin)
  have hT : c ≠ C₀.top := by
    rintro rfl
    exact h.topOut (h.top_eq hok hb hc hbc (by omega) ▸ hbin)
  refine .inl ⟨by simp, ?_⟩
  rcases hfree with hbc | hq | heq
  · exact .inl hbc
  · exact .inr ((before_iff hok.nodup).mpr hq)
  · exact absurd heq hT

/-- The border behind `p`, where the top cell comes after it. -/
theorem Inv.vanishes_top (hok : C₀.Ok (Q ++ p :: rest)) (h : Inv C₀ Q C) (hd : C.len d = some m) (htop : C.top = d) :
    C₀.Vanishes (Q ++ p :: rest) p d := by
  subst htop
  obtain ⟨l, hl⟩ := h.tiles _ m hd
  obtain ⟨k, hk, hle, heq⟩ := h.top_grown hd
  have hkpos := hok.pos _ k hk
  have hT : C₀.top ∈ l := hl.mem_of_apart (fun c n hc hlt => hok.apart c n _ k hc hk hlt) hle (by omega)
  obtain ⟨l₁, l₂, -, h₁, -⟩ := hl.split hT
  refine .inr ⟨by simp, l₁, h₁, fun x hx => ?_⟩
  obtain ⟨j, hj, hjpos, hlow, hup⟩ := h₁.bounds hx
  rcases (h.uniform _ m hd x j hj hlow (by omega)).mpr (.inr rfl) with hb | hq | heq'
  · exact .inl hb
  · exact .inr ((before_iff hok.nodup).mpr hq)
  · omega

/-- Every border that is gone is one that vanishes. -/
def GoneVanish (C₀ : Cells) (ord : List Nat) (C : Cells) : Prop :=
  ∀ c n m, C₀.len c = some n → C₀.len (c + n) = some m → C.len (c + n) = none → C₀.Vanishes ord c (c + n)

theorem GoneVanish.step (hok : C₀.Ok (Q ++ p :: rest)) (h : Inv C₀ Q C) (hgone : GoneVanish C₀ (Q ++ p :: rest) C)
    (hj : C.Join p C') : GoneVanish C₀ (Q ++ p :: rest) C' := by
  intro c n m hc hd hnone
  obtain ⟨n₀, hn₀, hn₁, hused⟩ := h.pending hok
  -- only what was there up to now has to be looked at
  cases hdC : C.len (c + n) with
  | none => exact hgone c n m hc hd hdC
  | some k =>
    have hcp : c + n = p → ∀ b, C.From p b → b < p → C₀.Vanishes (Q ++ p :: rest) c p := by
      intro hcp b hfrom hlt
      cases hfrom with
      | alone _ => omega
      | before hb hend hbin => exact h.vanishes_before hok hb hend hbin hc hcp
    cases hj with
    | @grow n' m' b hp hfrom htop hm =>
      obtain rfl := Option.some.inj (hn₁.symm.trans hp)
      obtain ⟨l, hl, hpl, hall⟩ := hfrom.run h.pos hp
      have hlast : Tiles C.len (p + n₀) (p + n₀ + m') [p + n₀] := ⟨rfl, m', hm, h.pos _ m' hm, rfl⟩
      have hin := merge_gone hnone hdC
      rcases List.mem_append.mp (h.mem_run (hl.append hlast) hdC (by omega) (by omega)) with hmem | hmem
      · rcases hall _ hmem with heq | ⟨heq, -⟩
        · rw [heq]
          exact hcp heq b hfrom (by omega)
        · omega
      · have heq := List.mem_singleton.mp hmem
        obtain rfl := hok.end_inj hc hn₀ heq
        rw [heq]
        exact h.vanishes_top hok hm htop
    | @place n' b hp hfrom htop =>
      obtain rfl := Option.some.inj (hn₁.symm.trans hp)
      obtain ⟨l, hl, hpl, hall⟩ := hfrom.run h.pos hp
      have hin := merge_gone hnone hdC
      rcases hall _ (h.mem_run hl hdC (by omega) (by omega)) with heq | ⟨heq, -⟩
      · rw [heq]
        exact hcp heq b hfrom (by omega)
      · omega

/-- Every border that vanishes with the cells freed up to now is gone. -/
def VanishGone (C₀ : Cells) (ord Q : List Nat) (C : Cells) : Prop :=
  ∀ c n m, C₀.len c = some n → C₀.len (c + n) = some m → C₀.VanishesBy ord Q c (c + n) → C.len (c + n) = none

theorem Join.gone (hj : C.Join p C') (hd : C.len d = none) : C'.len d = none := by
  have hfrom : ∀ b n, C.len p = some n → C.From p b → ∃ m, C.len b = some m := by
    intro b n hp hfrom
    cases hfrom with
    | alone _ => exact ⟨n, hp⟩
    | before hb _ _ => exact ⟨_, hb⟩
  have hmerge : ∀ b e, (∃ m, C.len b = some m) → merge C.len b e d = none := by
    rintro b e ⟨m, hm⟩
    cases hmd : merge C.len b e d with
    | none => rfl
    | some k =>
      rcases merge_cases hmd with ⟨rfl, -⟩ | ⟨-, hk⟩
      · rw [hd] at hm
        cases hm
      · rw [hd] at hk
        cases hk
  cases hj with
  | grow hp hb _ _ => exact hmerge _ _ (hfrom _ _ hp hb)
  | place hp hb _ => exact hmerge _ _ (hfrom _ _ hp hb)

/-- The border in front of `p` goes away when `p` is freed after the cell before it. -/
theorem Inv.gone_before (hok : C₀.Ok (Q ++ p :: rest)) (h : Inv C₀ Q C) (hj : C.Join p C')
    (hn : C.len p = some n) (hc : C₀.len c = some m) (hcp : c + m = p) (hfree : C₀.bin c ∨ c ∈ Q) : C'.len p = none := by
  subst hcp
  obtain ⟨b, k, hb, hbc, hend, huni⟩ := h.upTo hok hc hn
  have hcT : c ≠ C₀.top := by
    rintro rfl
    rcases hfree with hb | hq
    · exact hok.top hb
    · exact (hok.used _ (List.mem_append_left _ hq)).2 (.inr rfl)
  -- the cell before it is in a bin, not the top cell
  have hbin : C.bin b := by
    rcases huni.mp (hfree.imp_right .inl) with hbin | heq
    · exact hbin
    · subst heq
      obtain ⟨k', hk', -, heq⟩ := h.top_grown hb
      exact absurd (hok.end_inj hc hk' (hend.symm.trans heq)) hcT
  have hlt : ∀ b', C.From (c + m) b' → b' < c + m := by
    intro b' hfrom
    cases hfrom with
    | alone hno => exact absurd hbin (hno b k hb hend)
    | before hb' hend' _ =>
      have := h.pos _ _ hb'
      omega
  have hpos := h.pos _ n hn
  cases hj with
  | grow hp hfrom _ _ =>
    obtain rfl := Option.some.inj (hn.symm.trans hp)
    exact merge_inside (hlt _ hfrom) (by omega)
  | place hp hfrom _ =>
    obtain rfl := Option.some.inj (hn.symm.trans hp)
    exact merge_inside (hlt _ hfrom) (by omega)

/-- Where all borders up to the top cell are gone, a cell is the top cell. -/
theorem Inv.reaches_top (hok : C₀.Ok ord) (h : Inv C₀ Q C) {l : List Nat} (hl : Tiles C₀.len d C₀.top l)
    (hd : C.len d = some m) (hgone : ∀ y, (y ∈ l ∨ y = C₀.top) → d < y → C.len y = none) : C.top = d := by
  obtain ⟨j, hj⟩ := h.start hd
  have hdpos := h.pos d m hd
  -- the top cell of the start is a cell
  obtain ⟨k, hk⟩ : ∃ k, C₀.len C₀.top = some k := by
    rcases hok.topCell with h0 | hk
    · have hle := hl.le
      obtain rfl : d = 0 := by omega
      rw [hok.zero] at hj
      cases hj
    · exact hk
  by_contra hne
  have hfar : d + m ≤ C₀.top := by
    by_contra hin
    exact hne (h.top_eq hok hd hk hl.le (by omega)).symm
  -- otherwise the cell ends at a border that is gone
  obtain ⟨l', hl'⟩ := h.tiles d m hd
  have hy := hl.reaches hl' hfar (fun _ _ => rfl)
  obtain ⟨i, hi⟩ : ∃ i, C₀.len (d + m) = some i := by
    rcases hy with hy | hy
    · obtain ⟨i, hi, -⟩ := hl.bounds hy
      exact ⟨i, hi⟩
    · exact ⟨k, hy ▸ hk⟩
  have hnone := hgone _ hy (by omega)
  obtain ⟨c, n, hc, h1, h2⟩ := h.cover _ i hi
  rcases Nat.lt_trichotomy c d with hlt | rfl | hlt
  · have := h.apart c n d m hc hd hlt
    omega
  · obtain rfl := Option.some.inj (hc.symm.trans hd)
    omega
  · have := h.apart d m c n hd hc hlt
    obtain rfl : c = d + m := by omega
    rw [hnone] at hc
    cases hc

theorem VanishGone.step (hok : C₀.Ok (Q ++ p :: rest)) (h : Inv C₀ Q C) (hall : C₀.AllVanish (Q ++ p :: rest))
    (hvan : VanishGone C₀ (Q ++ p :: rest) Q C) (hj : C.Join p C') :
    VanishGone C₀ (Q ++ p :: rest) (Q ++ [p]) C' := by
  intro c n m hc hd hby
  obtain ⟨n₀, hn₀, hn₁, hused⟩ := h.pending hok
  have hord : ∀ x, C₀.bin x ∨ x ∈ Q → C₀.FreeBy (Q ++ p :: rest) x := fun x hx =>
    hx.imp_right fun hq => .inl (List.mem_append_left _ hq)
  -- a cell of the order that is free by now has been freed
  have hdone : ∀ x, C₀.bin x ∨ x ∈ Q ∨ x = C₀.top → x ∈ Q ++ p :: rest → x ∈ Q := by
    rintro x (hb | hq | ht) hx
    · exact absurd (.inl hb) (hok.used x hx).2
    · exact hq
    · exact absurd (.inr ht) (hok.used x hx).2
  rcases hby with ⟨hdQ, hbefore⟩ | ⟨hcQ, l, hl, hrun⟩
  · rcases List.mem_append.mp hdQ with hdQ | hdp
    · exact hj.gone (hvan c n m hc hd (.inl ⟨hdQ, hbefore⟩))
    · have heq := List.mem_singleton.mp hdp
      rw [heq] at hbefore ⊢
      rw [before_iff hok.nodup] at hbefore
      exact h.gone_before hok hj hn₁ hc heq hbefore
  · rcases List.mem_append.mp hcQ with hcQ | hcp
    · exact hj.gone (hvan c n m hc hd (.inr ⟨hcQ, l, hl, hrun⟩))
    · obtain rfl := List.mem_singleton.mp hcp
      obtain rfl := Option.some.inj (hc.symm.trans hn₀)
      cases hdC : C.len (c + n) with
      | none => exact hj.gone hdC
      | some k =>
        have hrun' : ∀ x ∈ l, C₀.bin x ∨ x ∈ Q := fun x hx => by
          rw [← before_iff hok.nodup]
          exact hrun x hx
        have htop : C.top = c + n := by
          refine h.reaches_top hok hl hdC fun y hy hlt => ?_
          obtain ⟨x, hx, j, hj, hxy⟩ := hl.pred hy hlt
          obtain ⟨i, hi⟩ : ∃ i, C₀.len y = some i := by
            rcases hy with hy | rfl
            · obtain ⟨i, hi, -⟩ := hl.bounds hy
              exact ⟨i, hi⟩
            · rcases hok.topCell with h0 | hi
              · omega
              · exact hi
          have hyfree : C₀.bin y ∨ y ∈ Q ∨ y = C₀.top := by
            rcases hy with hy | hy
            · exact (hrun' y hy).imp_right .inl
            · exact .inr (.inr hy)
          have hyord : C₀.FreeBy (Q ++ c :: rest) y :=
            hyfree.imp_right fun hq => hq.imp_left (List.mem_append_left _)
          subst hxy
          refine hvan x j i hj hi ?_
          rcases hall x j i hj hi (hord x (hrun' x hx)) hyord with ⟨hin, hb⟩ | ⟨hin, hb⟩
          · exact .inl ⟨hdone _ hyfree hin, hb⟩
          · exact .inr ⟨hdone x ((hrun' x hx).imp_right .inl) hin, hb⟩
        have hpos := hok.pos c n hc
        cases hj with
        | grow hp hfrom _ hm =>
          obtain rfl := Option.some.inj (hp.symm.trans hn₁)
          have hmpos := h.pos _ _ hm
          refine merge_inside ?_ (by omega)
          cases hfrom with
          | alone _ => omega
          | before hb hend _ => omega
        | place hp _ hne =>
          obtain rfl := Option.some.inj (hp.symm.trans hn₁)
          exact absurd htop hne

end borders

/-! ## All steps -/

theorem Joins.append {C₁ : Cells} {l l' : List Nat} (h : Joins C l C₁) (h' : Joins C₁ l' C') : Joins C (l ++ l') C' := by
  induction h with
  | nil => exact h'
  | cons hj _ ih => exact .cons hj (ih h')

theorem Joins.result {rest : List Nat} (hok : C₀.Ok (Q ++ rest)) (hj : Joins C rest C') (h : Inv C₀ Q C)
    (hgone : GoneVanish C₀ (Q ++ rest) C) (hvan : C₀.AllVanish (Q ++ rest) → VanishGone C₀ (Q ++ rest) Q C) :
    Inv C₀ (Q ++ rest) C' ∧ GoneVanish C₀ (Q ++ rest) C' ∧
      (C₀.AllVanish (Q ++ rest) → VanishGone C₀ (Q ++ rest) (Q ++ rest) C') := by
  -- by induction on the cells that are left
  induction hj generalizing Q with
  | nil =>
    rw [List.append_nil] at *
    exact ⟨h, hgone, hvan⟩
  | @cons C C₁ C' p rest hstep _ ih =>
    obtain ⟨_, -, -, hused⟩ := h.pending hok
    obtain ⟨b, e, hs⟩ := hstep.step h hused
    have happ : Q ++ p :: rest = Q ++ [p] ++ rest := by simp
    have hinv := h.step hok hs
    have hgone' := hgone.step hok h hstep
    have hvan' := fun hall => VanishGone.step hok h hall (hvan hall) hstep
    rw [happ] at hok hgone' hvan' ⊢
    exact ih hok hinv hgone' hvan'

theorem Ok.result (hok : C.Ok ord) (hj : Joins C ord C') :
    Inv C ord C' ∧ GoneVanish C ord C' ∧ (C.AllVanish ord → VanishGone C ord ord C') := by
  refine Joins.result (Q := []) hok hj hok.inv (fun c n m hc hd hnone => ?_) (fun _ c n m hc hd hby => ?_)
  · rw [hd] at hnone
    cases hnone
  · rcases hby with ⟨hin, -⟩ | ⟨hin, -⟩ <;> cases hin

/-- No two free neighbours are left exactly if every border between cells that are free in the end
    goes away. -/
theorem Ok.parted_iff (hok : C.Ok ord) (hj : Joins C ord C') : C'.Parted ↔ C.AllVanish ord := by
  obtain ⟨hinv, hgone, hvan⟩ := hok.result hj
  constructor
  · intro hpart c n m hc hd hcfree hdfree
    cases hdC : C'.len (c + n) with
    | none => exact hgone c n m hc hd hdC
    | some k =>
      obtain ⟨b, j, hb, -, hend, huni⟩ := hinv.upTo hok hc hdC
      have hkpos := hinv.pos _ k hdC
      have hdfree' := (hinv.uniform _ k hdC _ m hd (Nat.le_refl _) (by omega)).mp hdfree
      refine absurd ⟨huni.mp hcfree, ?_⟩ (hpart b j k hb (hend ▸ hdC))
      rw [hend]
      exact hdfree'
  · rintro hall c n m hc hd ⟨hcfree, hdfree⟩
    obtain ⟨l, hl⟩ := hinv.tiles c n hc
    have hcpos := hinv.pos c n hc
    have hdpos := hinv.pos _ m hd
    obtain ⟨x, hxl, j, hx, hend⟩ := hl.pred (.inr rfl) (by omega)
    obtain ⟨k, hk⟩ := hinv.start hd
    obtain ⟨_, hj', hjpos, hlow, -⟩ := hl.bounds hxl
    obtain rfl := Option.some.inj (hx.symm.trans hj')
    have hxfree := (hinv.uniform c n hc x j hx hlow (by omega)).mpr hcfree
    have hdfree' := (hinv.uniform _ m hd _ k hk (Nat.le_refl _) (by omega)).mpr hdfree
    rw [← hend] at hk hdfree' hd
    have := hvan hall x j k hx hk (hall x j k hx hk hxfree hdfree')
    rw [hd] at this
    cases this

/-- A cell that has been freed is part of a free one. -/
theorem Ok.freed (hok : C.Ok ord) (hj : Joins C ord C') (hp : p ∈ ord) (hn : C.len p = some n) :
    ∃ c m, C'.len c = some m ∧ C'.Free c ∧ c ≤ p ∧ p + n ≤ c + m := by
  obtain ⟨c, m, hc, h1, h2, huni⟩ := (hok.result hj).1.around hok hn
  exact ⟨c, m, hc, huni.mp (.inr (.inl hp)), h1, h2⟩

end Cells

end MyMalloc
