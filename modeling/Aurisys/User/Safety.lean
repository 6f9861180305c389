import Aurisys.User.Spec
import Mathlib.Logic.Relation

/-!
# The allocator of a process over whole runs

A session is the allocator together with what the program holds: the pointers it was given and has
not given back, each with what it asked for. The program makes any calls in any order, gives back
and resizes only what it holds, and writes what it likes into the bytes it asked for. Nobody else
moves the break.

The invariant is that the blocks handed out are those of the held pointers. Every call that fits
keeps it; the calls that do not fit are those with a size at which a sum of 32 bits wraps.

## Main definitions

* `Session`, `Call`, `Session.call` — the runs
* `Session.Safe` — what is promised about a state
* `Session.Fits` — the calls with which nothing wraps that should not

## Main results

* `allocator_safety` — requests of at most 1 MiB
* `refuses_or_answers` — any requests that fit
-/

namespace Aurisys

open Bytes FreeList Kernel

namespace UserHeap

/-- One call of the program, or one byte it writes into its own memory. -/
inductive Call where
  | malloc (n : ℕ)
  | calloc (n size : ℕ)
  | realloc (p n : ℕ)
  | free (p : ℕ)
  | store (p off : ℕ) (v : UInt8)

namespace Call

/-- The bytes that are asked for. -/
def asks : Call → ℕ
  | .malloc n => n
  | .calloc n size => n * size
  | .realloc _ n => n
  | .free _ => 0
  | .store _ _ _ => 0

/-- A call for memory. -/
def IsRequest : Call → Prop
  | .malloc _ => True
  | .calloc _ _ => True
  | .realloc _ _ => True
  | .free _ => False
  | .store _ _ _ => False

/-- `q` is given back for good. -/
def GivesBack (c : Call) (q : ℕ) : Prop := c = .free q ∨ c = .realloc q 0

end Call

/-- The allocator, and the pointers the program holds, with the bytes it asked for. -/
structure Session where
  heap : UserHeap
  live : ℕ → Option ℕ

namespace Session

/-- The calls a program may make: arguments are words, and it passes pointers it holds. -/
def May (s : Session) : Call → Prop
  | .malloc n => n < 2 ^ 32
  | .calloc n size => n < 2 ^ 32 ∧ size < 2 ^ 32
  | .realloc p n => n < 2 ^ 32 ∧ (p = 0 ∨ (s.live p).isSome)
  | .free p => p = 0 ∨ (s.live p).isSome
  | .store p off _ => ∃ n, s.live p = some n ∧ off < n

/-- The program holds what it was given, when it was given anything. -/
def give (s : Session) (n : ℕ) (r : ℕ × UserHeap) : Session :=
  ⟨r.2, if r.1 = 0 then s.live else Function.update s.live r.1 (some n)⟩

def drop (s : Session) (p : ℕ) : Session := ⟨s.heap, Function.update s.live p none⟩

/-- What `realloc` leaves the program with: a size of zero gives back, null changes nothing, and
otherwise the new pointer takes the place of the old one. -/
def regive (s : Session) (p n : ℕ) (r : ℕ × UserHeap) : Session :=
  if p ≠ 0 ∧ n = 0 then ⟨r.2, Function.update s.live p none⟩
  else if r.1 = 0 then ⟨r.2, s.live⟩
  else (s.drop p).give n r

/-- The answer to a call, and the session after it; `none` when it does not return. -/
def call (s : Session) : Call → Option (ℕ × Session)
  | .malloc n => (s.heap.malloc n).map fun r => (r.1, s.give n r)
  | .calloc n size => (s.heap.calloc n size).map fun r => (r.1, s.give (n * size) r)
  | .realloc p n => (s.heap.realloc p n).map fun r => (r.1, s.regive p n r)
  | .free p => (s.heap.free p).map fun h => (0, ⟨h, (s.drop p).live⟩)
  | .store p off v => some (0, ⟨s.heap.setMem (Function.update s.heap.mem (p + off) v), s.live⟩)

/-- Some calls, one after the other, each of which is one of those that `P` allows. -/
def Runs (P : Session → Call → Prop) : Session → Session → Prop :=
  Relation.ReflTransGen fun s s' => ∃ c p, s.May c ∧ P s c ∧ s.call c = some (p, s')

/-- A program that was just loaded: the allocator has nothing, and the break is where the arena
begins. -/
def fresh (mem : Bytes) (t : Task) (code stack heap : ℕ) : Session :=
  ⟨⟨mem, 0, 0, 0, setFrames t code stack heap⟩, fun _ => none⟩

/-! ## What is promised -/

/-- The bytes behind the header of a held pointer. -/
def payload (s : Session) (p : ℕ) : Span := ⟨p, s.heap.size (p - headerBytes) - headerBytes⟩

/-- The list in memory, from `g_free` to the null pointer. -/
def IsFreeList (h : UserHeap) (fl : List Span) : Prop := Seg h h.gFree fl 0 ∧ ∀ b ∈ fl, b.addr ≠ 0

/-- **What a state promises.** The pointers that are held are aligned and have the room that was
asked for, in memory that came from the kernel, apart from each other, from the tail and from the
list; and the list ends, comes to no block twice, and its blocks are apart from each other. -/
structure Safe (s : Session) : Prop where
  /-- A pointer is a multiple of 8. -/
  aligned : ∀ p n, s.live p = some n → 8 ∣ p
  /-- There is room for what was asked. -/
  room : ∀ p n, s.live p = some n → n ≤ (s.payload p).size
  /-- The bytes came from `sbrk`. -/
  obtained : ∀ p n, s.live p = some n → kArenaVA ≤ p ∧ (s.payload p).stop ≤ s.heap.top
  /-- No two pointers share a byte. -/
  disjoint : ∀ p q m n, s.live p = some m → s.live q = some n → p ≠ q →
    (s.payload p).Apart (s.payload q)
  /-- None reaches into the tail. -/
  tail : ∀ p n, s.live p = some n → (s.payload p).Apart s.heap.tail
  /-- The list ends, and what is on it is nobody's. -/
  list : ∃ fl, IsFreeList s.heap fl ∧ (fl.map Span.addr).Nodup ∧ Separate fl ∧
    (∀ b ∈ fl, 0 < b.size ∧ b.Apart s.heap.tail) ∧
      ∀ p n, s.live p = some n → ∀ b ∈ fl, (s.payload p).Apart b

/-- A held pointer is still held, and what is behind it has not changed. -/
def Kept (s s' : Session) (q n : ℕ) : Prop :=
  s'.live q = some n ∧ ∀ i < n, s'.heap.mem (q + i) = s.heap.mem (q + i)

/-- **What a request promises.** Null, and nothing is lost; or a block with the bytes that were
asked for, in the arena. Either way the state is one that promises what a state promises. -/
def Answered (s : Session) (c : Call) (p : ℕ) (s' : Session) : Prop :=
  Safe s' ∧ (p = 0 ∧ (∀ q n, s.live q = some n → ¬c.GivesBack q → Kept s s' q n) ∨
    p ≠ 0 ∧ c.asks ≤ (s'.payload p).size ∧ kArenaVA ≤ p ∧ p + c.asks ≤ kArenaVA + kArenaBytes)

/-! ## The calls that fit -/

/-- The block of `p` ends where the tail begins. -/
def AtTail (h : UserHeap) (p : ℕ) : Prop := (blockOf p + h.size (blockOf p)) % 2 ^ 32 = h.gNext

/-- Nothing wraps that should not, at the call `c`. -/
def Fits (s : Session) : Call → Prop
  | .malloc n => Sized s.heap n
  | .calloc n size => n * size < 2 ^ 32 → Sized s.heap (n * size)
  | .realloc p n => p ≠ 0 ∧ n = 0 ∨ Sized s.heap n ∧
      (p ≠ 0 → AtTail s.heap p → n ≤ 2 ^ 32 - 16 ∧ blockOf p + blockBytes n < 2 ^ 32)
  | .free _ => True
  | .store _ _ _ => True

/-- The tail is in nobody's way, at the call `c`. -/
def Settles (s : Session) : Call → Prop
  | .malloc n => Settled s.heap n
  | .calloc n size => n * size < 2 ^ 32 → Settled s.heap (n * size)
  | .realloc p n => p ≠ 0 ∧ n = 0 ∨
      p ≠ 0 ∧ AtTail s.heap p ∧ blockOf p + blockBytes n ≤ s.heap.gEnd ∨ Settled s.heap n
  | .free _ => True
  | .store _ _ _ => True

/-! ## The invariant -/

/-- The pointers that are held are those of the blocks handed out, and each has the room asked
for. -/
structure Held (us : List Span) (live : ℕ → Option ℕ) : Prop where
  /-- A block that is handed out is held, and long enough. -/
  block : ∀ b ∈ us, ∃ n, live (b.addr + 8) = some n ∧ n + 8 ≤ b.size
  /-- What is held is such a block. -/
  live : ∀ p n, live p = some n → ∃ b ∈ us, p = b.addr + 8

/-- The blocks `us` are held, and the list is `fl`. -/
structure Inv (s : Session) (us fl : List Span) : Prop where
  /-- The allocator is in order. -/
  good : Good s.heap us fl
  /-- Its clients have what it handed out. -/
  held : Held us s.live

variable {s s' : Session} {us us' fl fl' : List Span} {live : ℕ → Option ℕ} {b c : Span} {p n : ℕ}

theorem Held.perm (hh : Held us live) (hp : us.Perm us') : Held us' live where
  block := fun b hb => hh.block b (hp.mem_iff.mpr hb)
  live := fun p n hl => by
    obtain ⟨b, hb, he⟩ := hh.live p n hl
    exact ⟨b, hp.mem_iff.mp hb, he⟩

theorem Held.give (hh : Held us live) (hb : ∀ c ∈ us, c.addr ≠ b.addr) (hn : n + 8 ≤ b.size) :
    Held (b :: us) (Function.update live (b.addr + 8) (some n)) where
  block := by
    rw [List.forall_mem_cons]
    refine ⟨⟨n, Function.update_self .., hn⟩, fun c hc => ?_⟩
    rw [Function.update_of_ne (fun h => hb c hc (Nat.add_right_cancel h))]
    exact hh.block c hc
  live := fun p m hl => by
    by_cases hp : p = b.addr + 8
    · exact ⟨b, List.mem_cons_self, hp⟩
    · rw [Function.update_of_ne hp] at hl
      obtain ⟨c, hc, he⟩ := hh.live p m hl
      exact ⟨c, List.mem_cons_of_mem _ hc, he⟩

/-- No pointer is held into a block that is not handed out. -/
theorem Held.unheld (hh : Held us live) (hb : ∀ c ∈ us, c.addr ≠ b.addr) :
    live (b.addr + 8) = none := by
  by_contra hheld
  obtain ⟨n, hl⟩ := Option.ne_none_iff_exists'.mp hheld
  obtain ⟨c, hc, he⟩ := hh.live _ n hl
  exact hb c hc (Nat.add_right_cancel he.symm)

theorem Held.drop (hh : Held (c :: us) live) (hc : ∀ b ∈ us, b.addr ≠ c.addr) :
    Held us (Function.update live (c.addr + 8) none) where
  block := fun b hb => by
    rw [Function.update_of_ne (fun h => hc b hb (Nat.add_right_cancel h))]
    exact hh.block b (List.mem_cons_of_mem _ hb)
  live := fun p m hl => by
    by_cases hp : p = c.addr + 8
    · rw [hp, Function.update_self] at hl
      exact absurd hl nofun
    · rw [Function.update_of_ne hp] at hl
      obtain ⟨b, hb, he⟩ := hh.live p m hl
      rcases List.mem_cons.mp hb with rfl | hb
      · exact absurd he hp
      · exact ⟨b, hb, he⟩


namespace Inv

/-- One of the blocks, and the others. -/
theorem focus (hs : Inv s us fl) (hl : s.live p = some n) :
    ∃ c us', p = c.addr + 8 ∧ n + 8 ≤ c.size ∧ Inv s (c :: us') fl := by
  obtain ⟨c, hc, rfl⟩ := hs.held.live p n hl
  obtain ⟨m, hm, hroom⟩ := hs.held.block c hc
  obtain rfl := Option.some.inj (hl.symm.trans hm)
  have hperm := List.perm_cons_erase hc
  exact ⟨c, us.erase c, rfl, hroom, hs.good.perm hperm, hs.held.perm hperm⟩

/-- What a held pointer points to, as far as it was asked for, is in its block. -/
theorem kept (hs : Inv s us fl) {h' : UserHeap} (hk : Keeps us s.heap h') {q : ℕ}
    (hl : s.live q = some n) : ∀ i < n, h'.mem (q + i) = s.heap.mem (q + i) := by
  intro i hi
  obtain ⟨c, hc, rfl⟩ := hs.held.live q n hl
  obtain ⟨m, hm, hroom⟩ := hs.held.block c hc
  obtain rfl := Option.some.inj (hl.symm.trans hm)
  exact hk c hc _ (by omega) (by rw [Span.stop]; omega)

theorem payload_eq (hs : Inv s us fl) (hb : b ∈ us) :
    s.payload (b.addr + 8) = ⟨b.addr + 8, b.size - 8⟩ := by
  have h8 : headerBytes = 8 := rfl
  rw [payload, h8, Nat.add_sub_cancel, (hs.good.used b hb).2]

theorem payload_within (hs : Inv s us fl) (hb : b ∈ us) : (s.payload (b.addr + 8)).Within b := by
  have h16 := (hs.good.used b hb).1
  rw [hs.payload_eq hb]
  refine ⟨Nat.le_add_right _ _, ?_⟩
  rw [Span.stop, Span.stop]
  dsimp only
  omega

/-- **The invariant is what is promised**, and more. -/
theorem safe (hs : Inv s us fl) : Safe s := by
  have hg := hs.good
  have hsep := hg.separate.perm List.perm_middle
  rw [separate_cons] at hsep
  have hblock : ∀ p n, s.live p = some n → ∃ b ∈ us, p = b.addr + 8 ∧ n + 8 ≤ b.size := by
    intro p n hl
    obtain ⟨b, hb, rfl⟩ := hs.held.live p n hl
    obtain ⟨m, hm, hroom⟩ := hs.held.block b hb
    obtain rfl := Option.some.inj (hl.symm.trans hm)
    exact ⟨b, hb, rfl, hroom⟩
  refine ⟨?_, ?_, ?_, ?_, ?_, fl, ?_, hg.nodup_free, ?_, ?_, ?_⟩
  · intro p n hl
    obtain ⟨b, hb, rfl, -⟩ := hblock p n hl
    exact Nat.dvd_add (hg.block b (List.mem_append_right _ hb)).addr_dvd (dvd_refl 8)
  · intro p n hl
    obtain ⟨b, hb, rfl, hroom⟩ := hblock p n hl
    rw [hs.payload_eq hb]
    exact Nat.le_sub_of_add_le hroom
  · intro p n hl
    obtain ⟨b, hb, rfl, -⟩ := hblock p n hl
    have hbb := hg.block b (List.mem_append_right _ hb)
    exact ⟨hbb.low.trans (Nat.le_add_right _ _), (hs.payload_within hb).2.trans hbb.high⟩
  · intro p q m n hp hq hne
    obtain ⟨b, hb, rfl, -⟩ := hblock p m hp
    obtain ⟨c, hc, rfl, -⟩ := hblock q n hq
    have hbc : b.Apart c := hg.separate_blocks.apart (List.mem_append_right _ hb)
      (List.mem_append_right _ hc) fun he => hne (congrArg (fun s : Span => s.addr + 8) he)
    exact ((hbc.within (hs.payload_within hb)).symm.within (hs.payload_within hc)).symm
  · intro p n hl
    obtain ⟨b, hb, rfl, -⟩ := hblock p n hl
    exact (hsep.1 b (List.mem_append_right _ hb)).symm.within (hs.payload_within hb)
  · exact ⟨hg.free, fun b hb => hg.addr_ne_zero (List.mem_append_left _ hb)⟩
  · exact (List.pairwise_append.mp hsep.2).1
  · intro b hb
    have h8 := (hg.block b (List.mem_append_left _ hb)).header
    exact ⟨by omega, (hsep.1 b (List.mem_append_left _ hb)).symm⟩
  · intro p n hl b hb
    obtain ⟨c, hc, rfl, -⟩ := hblock p n hl
    have hbc := (List.pairwise_append.mp hsep.2).2.2 b hb c hc
    exact hbc.symm.within (hs.payload_within hc)

/-- A block more, or none. -/
theorem give (hs : Inv s us fl) {h' : UserHeap} (hk : Keeps us s.heap h')
    (hres : p = 0 ∧ Good h' us fl' ∨ ∃ b, p = b.addr + 8 ∧ n + 8 ≤ b.size ∧ Good h' (b :: us) fl') :
    ∃ us', Inv (s.give n (p, h')) us' fl' ∧
      (p = 0 ∧ (∀ q m, s.live q = some m → Kept s (s.give n (p, h')) q m) ∨
        p ≠ 0 ∧ (s.give n (p, h')).live p = some n ∧ s.live p = none) := by
  rcases hres with ⟨rfl, hg⟩ | ⟨b, rfl, hroom, hg⟩
  · exact ⟨us, ⟨hg, hs.held⟩, Or.inl ⟨rfl, fun q m hl => ⟨hl, hs.kept hk hl⟩⟩⟩
  · have hne : ∀ c ∈ us, c.addr ≠ b.addr := by
      have hnd := hg.nodup
      rw [List.map_append, List.map_cons, List.nodup_append, List.nodup_cons] at hnd
      exact fun c hc he => hnd.2.1.1 (he ▸ List.mem_map_of_mem hc)
    refine ⟨b :: us, ⟨hg, ?_⟩, Or.inr ⟨Nat.succ_ne_zero _, ?_, hs.held.unheld hne⟩⟩
    · rw [Session.give, if_neg (Nat.succ_ne_zero _)]
      exact hs.held.give hne hroom
    · rw [Session.give, if_neg (Nat.succ_ne_zero _)]
      exact Function.update_self ..

/-- A block less. -/
theorem drop (hs : Inv s (c :: us) fl) {h' : UserHeap} (hg : Good h' us fl') :
    Inv ⟨h', Function.update s.live (c.addr + 8) none⟩ us fl' := by
  refine ⟨hg, hs.held.drop ?_⟩
  have hnd := hs.good.nodup
  rw [List.map_append, List.map_cons, List.nodup_append, List.nodup_cons] at hnd
  exact fun b hb he => hnd.2.1.1 (he ▸ List.mem_map_of_mem hb)

theorem live_zero (hs : Inv s us fl) : s.live 0 = none := by
  cases hl : s.live 0 with
  | none => rfl
  | some n =>
    obtain ⟨b, -, hb⟩ := hs.held.live 0 n hl
    exact absurd hb.symm (Nat.succ_ne_zero _)

theorem drop_zero (hs : Inv s us fl) : s.drop 0 = s := by
  rw [Session.drop, ← hs.live_zero, Function.update_eq_self]

end Inv

/-! ## One call -/

/-- What one call does to a state of the invariant. -/
def Steps (s : Session) (fl : List Span) (c : Call) : Prop :=
  ∃ p s' us' fl', s.call c = some (p, s') ∧ Inv s' us' fl' ∧
    (s.Settles c → Spaced fl → Spaced fl') ∧
    (c.IsRequest → p = 0 ∧ (∀ q n, s.live q = some n → ¬c.GivesBack q → Kept s s' q n) ∨
      p ≠ 0 ∧ s'.live p = some c.asks ∧ (s.live p = none ∨ ∃ n, c = .realloc p n))

namespace Inv

theorem malloc (hs : Inv s us fl) (hn : n < 2 ^ 32) (hf : Sized s.heap n) :
    ∃ p h' us' fl', s.heap.malloc n = some (p, h') ∧ Inv (s.give n (p, h')) us' fl' ∧
      (Settled s.heap n → Spaced fl → Spaced fl') ∧
      (p = 0 ∧ (∀ q m, s.live q = some m → Kept s (s.give n (p, h')) q m) ∨
        p ≠ 0 ∧ (s.give n (p, h')).live p = some n ∧ s.live p = none) := by
  rcases hf with ⟨hsize, hgrow⟩ | hr
  · obtain ⟨p, h', hm, hk, hres⟩ := malloc_spec hs.good hsize hgrow
    obtain ⟨us', hinv, hans⟩ := hs.give hk hres
    exact ⟨p, h', us', _, hm, hinv, spaced_listAfter hs.good, hans⟩
  · obtain ⟨us', hinv, hans⟩ := hs.give (n := n) keeps_refl (Or.inl ⟨rfl, hs.good⟩)
    exact ⟨0, _, us', fl, malloc_refused hs.good hn hr, hinv, fun _ h => h, hans⟩

theorem steps_malloc (hs : Inv s us fl) (hn : n < 2 ^ 32) (hf : Sized s.heap n) :
    Steps s fl (.malloc n) := by
  obtain ⟨p, h', us', fl', hm, hinv, hlist, hans⟩ := hs.malloc hn hf
  refine ⟨p, _, us', fl', ?_, hinv, hlist,
    fun _ => hans.imp (fun h => ⟨h.1, fun q m hl _ => h.2 q m hl⟩) fun h =>
      ⟨h.1, h.2.1, .inl h.2.2⟩⟩
  rw [Session.call, hm, Option.map_some]

theorem steps_calloc (hs : Inv s us fl) {size : ℕ} (hf : n * size < 2 ^ 32 →
      Sized s.heap (n * size)) :
    Steps s fl (.calloc n size) := by
  have hnull : s.heap.calloc n size = some (0, s.heap) → Steps s fl (.calloc n size) := by
    intro hc
    refine ⟨0, s, us, fl, ?_, hs, fun _ h => h, fun _ => Or.inl ⟨rfl,
      fun q m hl _ => ⟨hl, fun _ _ => rfl⟩⟩⟩
    rw [Session.call, hc, Option.map_some]
    rfl
  by_cases hfit : n * size < 2 ^ 32
  · have hno : ¬(n ≠ 0 ∧ size > 0xFFFFFFFF / n) := by
      rintro ⟨h0, hbig⟩
      have h1 := (Nat.div_lt_iff_lt_mul (Nat.pos_of_ne_zero h0)).mp hbig
      rw [Nat.mul_comm] at h1
      omega
    rcases hf hfit with ⟨hsize, hgrow⟩ | hr
    · obtain ⟨p, h', hm, hk, hres⟩ := calloc_spec hs.good hsize hgrow
      obtain ⟨us', hinv, hans⟩ := hs.give (n := n * size) hk
        (hres.imp_right fun ⟨b, h1, h2, h3, _⟩ => ⟨b, h1, h2, h3⟩)
      refine ⟨p, _, us', _, ?_, hinv, fun h => spaced_listAfter hs.good (h hfit),
        fun _ => hans.imp (fun h => ⟨h.1, fun q m hl _ => h.2 q m hl⟩) fun h =>
        ⟨h.1, h.2.1, .inl h.2.2⟩⟩
      rw [Session.call, hm, Option.map_some]
    · refine hnull ?_
      rw [calloc, if_neg hno]
      dsimp only
      rw [malloc_refused hs.good hfit hr]
      rfl
  · refine hnull (if_pos ?_)
    have h0 : n ≠ 0 := by
      rintro rfl
      rw [Nat.zero_mul] at hfit
      exact hfit (Nat.two_pow_pos 32)
    refine ⟨h0, (Nat.div_lt_iff_lt_mul (Nat.pos_of_ne_zero h0)).mpr ?_⟩
    rw [Nat.mul_comm]
    omega

theorem steps_free (hs : Inv s us fl) (hm : p = 0 ∨ (s.live p).isSome) : Steps s fl (.free p) := by
  rcases eq_or_ne p 0 with rfl | hp
  · refine ⟨0, s, us, fl, ?_, hs, fun _ h => h, fun h => absurd h id⟩
    rw [Session.call, hs.drop_zero]
    rfl
  · obtain ⟨n, hl⟩ := Option.isSome_iff_exists.mp (hm.resolve_left hp)
    obtain ⟨c, us', rfl, -, hs'⟩ := hs.focus hl
    obtain ⟨h', hfree, -, hg⟩ := free_spec hs'.good
    refine ⟨0, _, us', _, ?_, hs'.drop hg, fun _ h => hs'.good.spaced_give h, fun h => absurd h id⟩
    rw [Session.call, hfree, Option.map_some]
    rfl

theorem steps_store (hs : Inv s us fl) {off : ℕ} {v : UInt8} (hl : s.live p = some n)
    (hoff : off < n) :
    Steps s fl (.store p off v) := by
  obtain ⟨c, us', rfl, hroom, hs'⟩ := hs.focus hl
  obtain ⟨hg, -⟩ := hs'.good.setMem (Function.update s.heap.mem (c.addr + 8 + off) v) fun a ha => by
    refine Function.update_of_ne ?_ _ _
    rw [Span.stop] at ha
    omega
  exact ⟨0, _, c :: us', fl, rfl, ⟨hg, hs'.held⟩, fun _ h => h, fun h => absurd h id⟩

/-- `realloc` of the null pointer is `malloc`. -/
theorem steps_realloc_null (hs : Inv s us fl) (hn : n < 2 ^ 32) (hf : Sized s.heap n) :
    Steps s fl (.realloc 0 n) := by
  obtain ⟨p, h', us', fl', hm, hinv, hlist, hans⟩ := hs.malloc hn hf
  have hre : s.regive 0 n (p, h') = s.give n (p, h') := by
    rw [regive, if_neg (fun h => h.1 rfl), hs.drop_zero, Session.give]
    split
    · rfl
    · rfl
  refine ⟨p, s.give n (p, h'), us', fl', ?_, hinv, fun hset => hlist ?_,
    fun _ => hans.imp (fun h => ⟨h.1, fun q m hl _ => h.2 q m hl⟩) fun h =>
    ⟨h.1, h.2.1, .inl h.2.2⟩⟩
  · rw [Session.call, realloc, if_pos rfl, hm, Option.map_some, hre]
  · rcases hset with ⟨h, -⟩ | ⟨h, -⟩ | h
    · exact absurd rfl h
    · exact absurd rfl h
    · exact h

/-- To a size of zero it is `free`. -/
theorem steps_realloc_zero (hs : Inv s (c :: us) fl) : Steps s fl (.realloc (c.addr + 8) 0) := by
  obtain ⟨h', hfree, hk, hg⟩ := free_spec hs.good
  have hinv := hs.drop hg
  refine ⟨0, _, us, _, ?_, hinv, fun _ h => hs.good.spaced_give h, fun _ => Or.inl ⟨rfl,
    fun q m hl hq => ?_⟩⟩
  · rw [Session.call, realloc, if_neg (Nat.succ_ne_zero _), if_pos rfl, hfree, Option.map_some,
      Option.map_some, regive, if_pos ⟨Nat.succ_ne_zero _, rfl⟩]
  · have hne : q ≠ c.addr + 8 := fun he => hq (Or.inr (he ▸ rfl))
    refine ⟨(Function.update_of_ne hne _ _).trans hl, fun i hi => ?_⟩
    obtain ⟨b, hb, rfl⟩ := hs.held.live q m hl
    obtain ⟨m', hm', hroom⟩ := hs.held.block b hb
    obtain rfl := Option.some.inj (hl.symm.trans hm')
    rcases List.mem_cons.mp hb with rfl | hb
    · exact absurd rfl hne
    · exact hk b hb _ (by omega) (by rw [Span.stop]; omega)

/-- Where the block of a held pointer ends. -/
theorem atTail_iff (hs : Inv s (c :: us) fl) : AtTail s.heap (c.addr + 8) ↔
    c.stop = s.heap.gNext := by
  have hcm : c ∈ fl ++ c :: us := List.mem_append_right _ List.mem_cons_self
  have hword := hs.good.word hcm
  rw [AtTail, hs.good.blockOf_eq hcm, (hs.good.used c List.mem_cons_self).2, ← Span.stop,
    Nat.mod_eq_of_lt (by omega)]

/-- And otherwise the block grows or shrinks, or moves, or stays. -/
theorem steps_realloc_block (hs : Inv s (c :: us) fl) (hn : n < 2 ^ 32) (hn0 : n ≠ 0)
    (hf : Sized s.heap n)
    (hwrap : c.stop = s.heap.gNext → n ≤ 2 ^ 32 - 16 ∧ c.addr + blockBytes n < 2 ^ 32) :
    Steps s fl (.realloc (c.addr + 8) n) := by
  have hcm : c ∈ fl ++ c :: us := List.mem_append_right _ List.mem_cons_self
  have hp0 : c.addr + 8 ≠ 0 := Nat.succ_ne_zero _
  have hblock := hs.good.blockOf_eq hcm
  rcases hf with ⟨hsize, hgrow⟩ | hr
  · obtain ⟨p, h', hm, hk, hres⟩ := realloc_spec hs.good hsize hn0 hgrow fun h => (hwrap h).2
    have hcall : s.call (.realloc (c.addr + 8) n) = some (p, s.regive (c.addr + 8) n (p, h')) := by
      rw [Session.call, hm, Option.map_some]
    rw [regive, if_neg fun h => hn0 h.2] at hcall
    rcases hres with ⟨rfl, hin, hg, hkc⟩ | ⟨b, fl', rfl, hroom, hg, hlist, -⟩
    · rw [if_pos rfl] at hcall
      have hkeeps : Keeps (c :: us) s.heap h' :=
        List.forall_mem_cons.mpr ⟨hkc c (List.mem_singleton_self c), hk⟩
      refine ⟨0, _, c :: us, _, hcall, ⟨hg, hs.held⟩, fun hset => spaced_listAfter hs.good ?_,
        fun _ => Or.inl ⟨rfl, fun q m hl _ => ⟨hl, hs.kept hkeeps hl⟩⟩⟩
      rcases hset with h | ⟨-, h1, h2⟩ | h
      · exact absurd h.2 hn0
      · rw [hblock] at h2
        exact absurd ⟨hs.atTail_iff.mp h1, h2⟩ hin
      · exact h
    · rw [if_neg (Nat.succ_ne_zero _), Session.give, if_neg (Nat.succ_ne_zero _)] at hcall
      have hdrop : Held us (s.drop (c.addr + 8)).live := by
        refine hs.held.drop ?_
        have hnd := hs.good.nodup
        rw [List.map_append, List.map_cons, List.nodup_append, List.nodup_cons] at hnd
        exact fun b hb he => hnd.2.1.1 (he ▸ List.mem_map_of_mem hb)
      have hne : ∀ d ∈ us, d.addr ≠ b.addr := by
        have hnd := hg.nodup
        rw [List.map_append, List.map_cons, List.nodup_append, List.nodup_cons] at hnd
        exact fun d hd he => hnd.2.1.1 (he ▸ List.mem_map_of_mem hd)
      have hfresh : s.live (b.addr + 8) = none ∨ ∃ k, Call.realloc (c.addr + 8) n =
          .realloc (b.addr + 8) k := by
        by_cases he : b.addr = c.addr
        · exact .inr ⟨n, by rw [he]⟩
        · exact .inl (hs.held.unheld (List.forall_mem_cons.mpr ⟨fun h => he h.symm, hne⟩))
      refine ⟨_, _, b :: us, fl', hcall, ⟨hg, hdrop.give hne hroom⟩, fun hset hsp => ?_,
        fun _ => Or.inr ⟨Nat.succ_ne_zero _, Function.update_self .., hfresh⟩⟩
      rcases hlist with ⟨-, rfl⟩ | ⟨hin, hlist⟩
      · exact hsp
      · refine hlist (spaced_listAfter hs.good ?_ hsp)
        rcases hset with h | ⟨-, h1, h2⟩ | h
        · exact absurd h.2 hn0
        · rw [hblock] at h2
          exact absurd ⟨hs.atTail_iff.mp h1, h2⟩ hin
        · exact h
  · -- the size wraps, and `malloc` says no
    have hbig : ¬n ≤ 2 ^ 32 - 16 := by
      rcases hr with h | h
      · omega
      · omega
    have htail : ¬AtTail s.heap (c.addr + 8) := fun h => hbig (hwrap (hs.atTail_iff.mp h)).1
    refine ⟨0, s, c :: us, fl, ?_, hs, fun _ h => h, fun _ => Or.inl ⟨rfl,
      fun q m hl _ => ⟨hl, fun _ _ => rfl⟩⟩⟩
    have hmove : s.heap.realloc (c.addr + 8) n = some (0, s.heap) := by
      rw [realloc, if_neg hp0, if_neg hn0]
      dsimp only
      refine (if_neg htail).trans ?_
      rw [moveBlock]
      dsimp only
      rw [malloc_refused hs.good hn hr]
      rfl
    rw [Session.call, hmove, Option.map_some, regive, if_neg fun h => hn0 h.2, if_pos rfl]

theorem steps_realloc (hs : Inv s us fl) (hn : n < 2 ^ 32) (hm : p = 0 ∨ (s.live p).isSome)
    (hf : s.Fits (.realloc p n)) : Steps s fl (.realloc p n) := by
  rcases eq_or_ne p 0 with rfl | hp
  · rcases hf with ⟨h, -⟩ | ⟨h, -⟩
    · exact absurd rfl h
    · exact hs.steps_realloc_null hn h
  · obtain ⟨m, hl⟩ := Option.isSome_iff_exists.mp (hm.resolve_left hp)
    obtain ⟨c, us', rfl, -, hs'⟩ := hs.focus hl
    rcases eq_or_ne n 0 with rfl | hn0
    · exact hs'.steps_realloc_zero
    · obtain ⟨h1, h2⟩ := hf.resolve_left fun h => hn0 h.2
      refine hs'.steps_realloc_block hn hn0 h1 fun htail => ?_
      have h3 := h2 hp (hs'.atTail_iff.mpr htail)
      rwa [hs'.good.blockOf_eq (List.mem_append_right _ List.mem_cons_self)] at h3

/-- **One call that fits** keeps the invariant. -/
theorem steps (hs : Inv s us fl) {c : Call} (hm : s.May c) (hf : s.Fits c) : Steps s fl c := by
  match c, hm, hf with
  | .malloc n, hm, hf => exact hs.steps_malloc hm hf
  | .calloc n size, _, hf => exact hs.steps_calloc hf
  | .realloc p n, hm, hf => exact hs.steps_realloc hm.1 hm.2 hf
  | .free p, hm, _ => exact hs.steps_free hm
  | .store p off v, hm, _ =>
    obtain ⟨n, hl, hoff⟩ := hm
    exact hs.steps_store hl hoff

end Inv

/-! ## Runs -/

section

variable {P : Session → Call → Prop} {mem : Bytes} {t : Task} {code stack heap : ℕ}

/-- A program that was just loaded. -/
theorem inv_fresh (h0 : heap ≠ 0) (h1 : heap + kArenaBytes < 2 ^ 32) :
    Inv (fresh mem t code stack heap) [] [] := by
  refine ⟨⟨⟨h0, rfl, h1, le_rfl, Nat.le_add_right _ _, ?_, le_rfl, Nat.dvd_zero 8,
    Or.inl ⟨rfl, rfl, rfl⟩⟩,
    nofun, nofun, rfl, List.pairwise_singleton _ _⟩, nofun, nofun⟩
  show 8 ∣ heap - heap
  rw [Nat.sub_self]
  exact Nat.dvd_zero 8

/-- Calls that fit keep the invariant, however many there are. -/
theorem Inv.runs (hP : ∀ s us fl c, Inv s us fl → s.May c → P s c → s.Fits c) (hs : Inv s us fl)
    (h : Runs P s s') : ∃ us' fl', Inv s' us' fl' := by
  induction h with
  | refl => exact ⟨us, fl, hs⟩
  | tail _ hstep ih =>
    obtain ⟨us₁, fl₁, hs₁⟩ := ih
    obtain ⟨c, p, hm, hp, hcall⟩ := hstep
    obtain ⟨q, s₂, us₂, fl₂, hcall', hinv, -⟩ := hs₁.steps hm (hP _ _ _ c hs₁ hm hp)
    obtain ⟨-, rfl⟩ := Prod.mk.inj (Option.some.inj (hcall.symm.trans hcall'))
    exact ⟨us₂, fl₂, hinv⟩

/-- And if the tail is never in the way, the list stays in order, with gaps. -/
theorem Inv.runs_spaced (hP : ∀ s us fl c, Inv s us fl → s.May c → P s c → s.Fits c ∧ s.Settles c)
    (hs : Inv s us fl) (hsp : Spaced fl) (h : Runs P s s') :
    ∃ us' fl', Inv s' us' fl' ∧ Spaced fl' := by
  induction h with
  | refl => exact ⟨us, fl, hs, hsp⟩
  | tail _ hstep ih =>
    obtain ⟨us₁, fl₁, hs₁, hsp₁⟩ := ih
    obtain ⟨c, p, hm, hp, hcall⟩ := hstep
    obtain ⟨hf, hset⟩ := hP _ _ _ c hs₁ hm hp
    obtain ⟨q, s₂, us₂, fl₂, hcall', hinv, hlist, -⟩ := hs₁.steps hm hf
    obtain ⟨-, rfl⟩ := Prod.mk.inj (Option.some.inj (hcall.symm.trans hcall'))
    exact ⟨us₂, fl₂, hinv, hlist hset hsp₁⟩

/-! ## Requests of at most 1 MiB -/

/-- At most 1 MiB is asked for. -/
def Small (_ : Session) (c : Call) : Prop := c.asks ≤ 1024 * 1024

theorem alignUp_le (v : ℕ) : alignUp v 4096 ≤ v + 4095 := by
  have h1 : (v + 4096 - 1) % 2 ^ 32 < 2 ^ 32 := Nat.mod_lt _ (Nat.two_pow_pos 32)
  have h2 : alignUp v 4096 = (v + 4096 - 1) % 2 ^ 32 / 2 ^ 12 * 2 ^ 12 :=
    Heap.alignDown_eq (v := (v + 4096 - 1) % 2 ^ 32) (k := 12) h1 (by omega)
  omega

theorem Inv.sized (hs : Inv s us fl) (hn : n ≤ 1024 * 1024) : Sized s.heap n := by
  have hsize : n ≤ 2 ^ 32 - 16 := by omega
  have hreq : request n ≤ 1024 * 1024 + 16 := by
    rw [request]
    split
    · rw [blockBytes_eq (by omega)]
      omega
    · rw [blockBytes_eq hsize]
      omega
  have hwant : want (request n) ≤ 1024 * 1024 + 16 + 4095 + 4096 := by
    have h1 := alignUp_le (request n)
    have h2 := Nat.mod_le (alignUp (request n) 4096 + 4096) (2 ^ 32)
    rw [want]
    omega
  have hused : s.heap.task.brk - s.heap.task.heapBase ≤ 1024 * 1024 := by
    have h1 := hs.good.room.high
    have h2 := hs.good.room.ceiling
    have h3 : kArenaBytes = 1024 * 1024 := rfl
    omega
  refine Or.inl ⟨hsize, ?_⟩
  rw [Grows]
  omega

/-- They all fit. -/
theorem Inv.fits_of_small (hs : Inv s us fl) {c : Call} (hm : s.May c) (hc : Small s c) :
    s.Fits c := by
  match c, hm, hc with
  | .malloc n, _, hc => exact hs.sized hc
  | .calloc n size, _, hc => exact fun _ => hs.sized hc
  | .realloc p n, hm, hc =>
    refine Or.inr ⟨hs.sized hc, fun hp _ => ?_⟩
    have hn : n ≤ 1024 * 1024 := hc
    obtain ⟨m, hl⟩ := Option.isSome_iff_exists.mp (hm.2.resolve_left hp)
    obtain ⟨c, us', rfl, -, hs'⟩ := hs.focus hl
    have hcm : c ∈ fl ++ c :: us' := List.mem_append_right _ List.mem_cons_self
    have h1 := (hs'.good.block c hcm).high
    have h2 := hs'.good.room.top_le
    have h3 : kArenaVA + kArenaBytes + 1024 * 1024 + 16 < 2 ^ 32 := by decide
    rw [Span.stop] at h1
    rw [hs'.good.blockOf_eq hcm, blockBytes_eq (by omega)]
    omega
  | .free _, _, _ => trivial
  | .store _ _ _, _, _ => trivial

/-- The bytes that the old block and the new one have in common. -/
theorem Inv.realloc_copies (hs : Inv s us fl) {old q : ℕ} (hl : s.live p = some old)
    (hn : n ≤ 1024 * 1024) (hcall : s.call (.realloc p n) = some (q, s')) (hq : q ≠ 0) :
    ∀ i < min old n, s'.heap.mem (q + i) = s.heap.mem (p + i) := by
  intro i hi
  have hn0 : n ≠ 0 := by omega
  obtain ⟨c, us', rfl, hroom, hs'⟩ := hs.focus hl
  have hsized := hs'.sized hn
  have hfit := hs'.fits_of_small (c := .realloc (c.addr + 8) n)
    ⟨by omega, Or.inr (Option.isSome_iff_exists.mpr ⟨old, hl⟩)⟩ hn
  have hwrap : c.stop = s.heap.gNext → c.addr + blockBytes n < 2 ^ 32 := by
    intro htail
    have h1 := ((hfit.resolve_left fun h => hn0 h.2).2 (Nat.succ_ne_zero _)
      (hs'.atTail_iff.mpr htail)).2
    rwa [hs'.good.blockOf_eq (List.mem_append_right _ List.mem_cons_self)] at h1
  have hgrow : n ≤ 2 ^ 32 - 16 ∧ Grows s.heap (request n) := by
    refine hsized.resolve_right fun hr => ?_
    rcases hr with h | h
    · omega
    · omega
  obtain ⟨p', h', hm, -, hres⟩ := realloc_spec hs'.good hgrow.1 hn0 hgrow.2 hwrap
  rw [Session.call, hm, Option.map_some] at hcall
  obtain ⟨rfl, rfl⟩ := Prod.mk.inj (Option.some.inj hcall)
  have hheap : (s.regive (c.addr + 8) n (p', h')).heap = h' := by
    rw [regive, if_neg fun h => hn0 h.2, if_neg hq]
    rfl
  rw [hheap]
  rcases hres with ⟨rfl, -⟩ | ⟨b, fl', -, -, -, -, hcopy⟩
  · exact absurd rfl hq
  · exact hcopy i (by omega)

/-- **The allocator is safe.** After any calls that ask for at most 1 MiB each, the state is one
that promises what `Safe` says; the next such call returns, and a request with a pointer that was
not held; and `realloc` keeps what the old and the new block have in common. -/
theorem allocator_safety (h0 : heap ≠ 0) (h1 : heap + kArenaBytes < 2 ^ 32)
    (hs : Runs Small (fresh mem t code stack heap) s) :
    Safe s ∧ (∀ c, s.May c → Small s c → ∃ p s', s.call c = some (p, s') ∧
        (c.IsRequest → p ≠ 0 → s.live p = none ∨ ∃ n, c = .realloc p n)) ∧
      ∀ p old n q s', s.live p = some old → n ≤ 1024 * 1024 → s.call (.realloc p n) = some (q, s') →
        q ≠ 0 → ∀ i < min old n, s'.heap.mem (q + i) = s.heap.mem (p + i) := by
  obtain ⟨us, fl, hinv⟩ :=
    (inv_fresh h0 h1).runs (fun _ _ _ _ hi hm hp => hi.fits_of_small hm hp) hs
  refine ⟨hinv.safe, fun c hm hc => ?_, fun p old n q s' hl hn hcall hq => ?_⟩
  · obtain ⟨p, s', -, -, hcall, -, -, hans⟩ := hinv.steps hm (hinv.fits_of_small hm hc)
    exact ⟨p, s', hcall, fun hreq h0 => ((hans hreq).resolve_left fun h => h0 h.1).2.2⟩
  · exact hinv.realloc_copies hl hn hcall hq

/-! ## Any requests that fit -/

/-- **Refused or answered.** After any calls that fit, a request that fits is answered as it
promises. -/
theorem refuses_or_answers (h0 : heap ≠ 0) (h1 : heap + kArenaBytes < 2 ^ 32)
    (hs : Runs Fits (fresh mem t code stack heap) s) {c : Call} (hm : s.May c) (hc : c.IsRequest)
    (hf : s.Fits c) : ∃ p s', s.call c = some (p, s') ∧ Answered s c p s' := by
  obtain ⟨us, fl, hinv⟩ := (inv_fresh h0 h1).runs (fun _ _ _ _ _ _ hp => hp) hs
  obtain ⟨p, s', us', fl', hcall, hinv', -, hans⟩ := hinv.steps hm hf
  have hsafe := hinv'.safe
  refine ⟨p, s', hcall, hsafe, (hans hc).imp_right fun ⟨hp, hl, _⟩ => ⟨hp, hsafe.room p _ hl, ?_⟩⟩
  obtain ⟨h2, h3⟩ := hsafe.obtained p _ hl
  have h4 := hsafe.room p _ hl
  have h5 := hinv'.good.room.top_le
  refine ⟨h2, ?_⟩
  have h6 : (s'.payload p).stop = p + (s'.payload p).size := rfl
  omega

end

/-! ## Inputs -/

/-- A program that was just loaded, into memory that is all zero. -/
def loaded : Session := fresh (fun _ => 0) Task.zero 0 0 0x400000

/-- Sixteen bytes. -/
theorem call_malloc_sixteen : (loaded.call (.malloc 16)).map (fun r => (r.1, r.2.live 0x40200008)) =
    some (0x40200008, some 16) := by
  decide +kernel

theorem allocator_safety_sixteen : ∃ s, s.live 0x40200008 = some 16 ∧ Safe s := by
  obtain ⟨⟨p, s⟩, hcall, hval⟩ := Option.map_eq_some_iff.mp call_malloc_sixteen
  have hrun : Runs Small loaded s := .single
    ⟨.malloc 16, p, show 16 < 2 ^ 32 by decide, show 16 ≤ 1024 * 1024 by decide, hcall⟩
  exact ⟨s, (Prod.mk.inj hval).2, (allocator_safety (by decide) (by decide) hrun).1⟩

/-- More than the arena has is refused. -/
theorem refuses_or_answers_big : ∃ p s', loaded.call (.malloc 0x80000000) = some (p, s') ∧
    Answered loaded (.malloc 0x80000000) p s' :=
  refuses_or_answers (by decide) (by decide) .refl (show 0x80000000 < 2 ^ 32 by decide) trivial
    (show Sized loaded.heap 0x80000000 by decide +kernel)

/-- Almost 4 GiB are given, in a block of 8 bytes. -/
theorem not_answered_wrapped : ¬∀ c, loaded.May c → c.IsRequest →
    ∃ p s', loaded.call c = some (p, s') ∧ Answered loaded c p s' := by
  intro h
  obtain ⟨p, s', hcall, -, hans⟩ :=
    h (.malloc 0xFFFFFFFF) (show 0xFFFFFFFF < 2 ^ 32 by decide) trivial
  have hval : (loaded.call (.malloc 0xFFFFFFFF)).map (fun r => (r.1, (r.2.payload r.1).size)) =
      some (0x40200008, 0) := by
    decide +kernel
  rw [hcall, Option.map_some] at hval
  obtain ⟨hp, hsize⟩ := Prod.mk.inj (Option.some.inj hval)
  rcases hans with ⟨h0, -⟩ | ⟨-, hroom, -⟩
  · dsimp only at hp
    rw [h0] at hp
    exact absurd hp (by decide)
  · dsimp only at hsize
    rw [hsize] at hroom
    exact absurd hroom (by decide)

end Session

end UserHeap

end Aurisys
