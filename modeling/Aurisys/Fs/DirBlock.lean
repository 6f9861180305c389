import Aurisys.Fs.Files
import Aurisys.Lib.Records
import Mathlib.Data.List.TakeWhile

/-!
# A block of a directory

A directory block is in order when its records fill it, each of them long enough for the name that
is in it. Three loops go through such a block: the one of `list_dir`, the one of `dir_add_entry`,
which is after the last record, and the one of `rm`, which is after the record of an inode. Here
they are seen to go through the same records, and what the two changes do to the block is said in
terms of them.

## Main definitions

* `Chain` — the records of a block
* `direntAt` — what a record tells

## Main results

* `Chain.dirents`, `Chain.tailEntry`, `Chain.unlinkScan`
* `Chain.putLast` — a record behind the last one
* `Chain.fold` — a record is made a part of the one in front of it
-/

namespace Aurisys

open Bytes Path

namespace Fs

/-- Where the record behind the one at `off` is. -/
def nextRec (m : Bytes) (off : ℕ) : ℕ := off + r16 m (off + 4)

/-- The records of a block fill it, and each has room for its name. -/
structure Chain (m : Bytes) (bs : ℕ) (l : List ℕ) : Prop where
  hops : Hops (nextRec m) 0 bs l
  fits : ∀ x ∈ l, direntUsed (m (x + 6)).toNat ≤ r16 m (x + 4)

instance (m : Bytes) (bs : ℕ) (l : List ℕ) : Decidable (Chain m bs l) :=
  decidable_of_iff (Hops (nextRec m) 0 bs l ∧ ∀ x ∈ l, direntUsed (m (x + 6)).toNat ≤ r16 m (x + 4))
    ⟨fun h => ⟨h.1, h.2⟩, fun h => ⟨h.hops, h.fits⟩⟩

/-- What the record at `off` tells, if it is in use. -/
def direntAt (m : Bytes) (off : ℕ) : Option Dirent :=
  if r32 m off ≠ 0 ∧ 0 < (m (off + 6)).toNat then
    some ⟨r32 m off, strAt m (off + 8) (m (off + 6)).toNat, (m (off + 7)).toNat⟩
  else none

variable {m m' : Bytes} {bs off ino prev x : ℕ} {l l₁ l₂ : List ℕ} {name : Str} {type : ℕ}

theorem le_direntUsed (n : ℕ) : 8 + n ≤ direntUsed n := by
  rw [direntUsed]
  omega

theorem strAt_congr {p n : ℕ} (h : ∀ i < n, m' (p + i) = m (p + i)) :
    strAt m' p n = strAt m p n := by
  rw [strAt, strAt]
  refine congrArg (List.takeWhile _) (List.map_congr_left fun i hi => h i (List.mem_range.mp hi))

/-- What a record tells depends on its bytes, but not on how long it is. -/
theorem direntAt_congr (h : ∀ i < 8 + (m (off + 6)).toNat, i ≠ 4 → i ≠ 5 →
      m' (off + i) = m (off + i)) :
    direntAt m' off = direntAt m off := by
  have hino : r32 m' off = r32 m off := r32_congr fun i hi => h i (by omega) (by omega) (by omega)
  have hlen : m' (off + 6) = m (off + 6) := h 6 (by omega) (by omega) (by omega)
  have htype : m' (off + 7) = m (off + 7) := h 7 (by omega) (by omega) (by omega)
  have hname : strAt m' (off + 8) (m (off + 6)).toNat = strAt m (off + 8) (m (off + 6)).toNat := by
    refine strAt_congr fun i hi => ?_
    have := h (8 + i) (by omega) (by omega) (by omega)
    rwa [← Nat.add_assoc] at this
  rw [direntAt, direntAt, hino, hlen, htype, hname]

namespace Chain

variable (h : Chain m bs l)

include h

/-- A record is inside the block, with its name. -/
theorem room (hx : x ∈ l) : x + 8 + (m (x + 6)).toNat ≤ nextRec m x ∧ nextRec m x ≤ bs := by
  have hfits := h.fits x hx
  have hused := le_direntUsed (m (x + 6)).toNat
  refine ⟨?_, (h.hops.mem hx).2.2⟩
  rw [nextRec]
  omega

/-- What is behind the end of the block does not matter. -/
theorem congr (hm : ∀ a < bs, m' a = m a) : Chain m' bs l := by
  have hlen : ∀ x ∈ l, r16 m' (x + 4) = r16 m (x + 4) := by
    intro x hx
    have := h.room hx
    exact r16_congr fun i hi => hm _ (by omega)
  refine ⟨h.hops.congr fun x hx => ?_, fun x hx => ?_⟩
  · rw [nextRec, nextRec, hlen x hx]
  · have := h.room hx
    rw [hlen x hx, hm (x + 6) (by omega)]
    exact h.fits x hx

theorem filterMap_congr (hm : ∀ a < bs, m' a = m a) :
    l.filterMap (direntAt m') = l.filterMap (direntAt m) := by
  refine List.filterMap_congr fun x hx => direntAt_congr fun i hi _ _ => hm _ ?_
  have := h.room hx
  omega

end Chain

/-! ## The three loops -/

/-- What the loops ask of a record before they look at it. -/
theorem in_order {a b : ℕ} (h : Hops (nextRec m) a b (x :: l))
    (hfits : ∀ y ∈ x :: l, direntUsed (m (y + 6)).toNat ≤ r16 m (y + 4)) :
    a = x ∧ x + 8 ≤ b ∧ 8 ≤ r16 m (x + 4) ∧ x + r16 m (x + 4) ≤ b := by
  have hx := hfits x (List.mem_cons_self ..)
  have hused := le_direntUsed (m (x + 6)).toNat
  cases h with
  | cons hlt h =>
    have hle := h.le
    rw [nextRec] at hle
    omega

/-- **The loop of `list_dir`**. -/
theorem dirents_eq {fuel : ℕ} (h : Hops (nextRec m) off bs l)
    (hfits : ∀ x ∈ l, direntUsed (m (x + 6)).toNat ≤ r16 m (x + 4)) (hfuel : bs ≤ off + fuel) :
    dirents m bs fuel off = l.filterMap (direntAt m) := by
  induction fuel generalizing off l with
  | zero =>
    have heq : off = bs := by
      have := h.le
      omega
    subst heq
    rw [h.unique (.nil off)]
    rfl
  | succ fuel ih =>
    cases l with
    | nil =>
      cases h
      rw [dirents, if_pos (.inl (by omega))]
      rfl
    | cons x l =>
      obtain ⟨rfl, h₁, h₂, h₃⟩ := in_order h hfits
      cases h with
      | cons hlt h =>
        have hrest :=
          ih h (fun y hy => hfits y (List.mem_cons_of_mem _ hy)) (by rw [nextRec]; omega)
        rw [nextRec] at hrest
        rw [dirents, if_neg (by omega), hrest, List.filterMap_cons, direntAt]
        by_cases hused : r32 m off ≠ 0 ∧ 0 < (m (off + 6)).toNat
        · rw [if_pos hused, if_pos hused]
        · rw [if_neg hused, if_neg hused]

theorem Chain.dirents (h : Chain m bs l) : dirents m bs bs 0 = l.filterMap (direntAt m) :=
  dirents_eq h.hops h.fits (by omega)

/-- **The loop of `dir_add_entry`** ends at the last record. -/
theorem tailEntry_eq {fuel lo lu : ℕ} (h : Hops (nextRec m) off bs (l ++ [x]))
    (hfits : ∀ y ∈ l ++ [x], direntUsed (m (y + 6)).toNat ≤ r16 m (y + 4))
    (hfuel : bs ≤ off + fuel) :
    tailEntry m bs fuel off lo lu = some (x, direntUsed (m (x + 6)).toNat) := by
  induction fuel generalizing off l lo lu with
  | zero =>
    have hx := h.mem (List.mem_append_right l (List.mem_singleton_self x))
    omega
  | succ fuel ih =>
    cases l with
    | nil =>
      obtain ⟨rfl, h₁, h₂, h₃⟩ := in_order h hfits
      cases h with
      | cons hlt h =>
        have heq : nextRec m off = bs := by
          cases h
          rfl
        rw [nextRec] at heq
        rw [tailEntry, if_neg (by omega), if_neg (by omega), heq]
        cases fuel with
        | zero => rfl
        | succ fuel => rw [tailEntry, if_pos (by omega)]
    | cons y l =>
      obtain ⟨rfl, h₁, h₂, h₃⟩ := in_order h hfits
      cases h with
      | cons hlt h =>
        rw [tailEntry, if_neg (by omega), if_neg (by omega)]
        exact ih h (fun z hz => hfits z (List.mem_cons_of_mem _ hz)) (by omega)

theorem Chain.tailEntry (h : Chain m bs (l ++ [x])) :
    tailEntry m bs bs 0 0 0 = some (x, direntUsed (m (x + 6)).toNat) :=
  tailEntry_eq h.hops h.fits (by omega)

/-- **The loop of `rm`** finds no record. -/
theorem unlinkScan_none {fuel : ℕ} (h : Hops (nextRec m) off bs l)
    (hfits : ∀ x ∈ l, direntUsed (m (x + 6)).toNat ≤ r16 m (x + 4))
    (hno : ∀ x ∈ l, r32 m x ≠ ino) : unlinkScan m bs ino fuel off prev = some none := by
  induction fuel generalizing off prev l with
  | zero => rfl
  | succ fuel ih =>
    cases l with
    | nil =>
      cases h
      rw [unlinkScan, if_pos (by omega)]
    | cons x l =>
      obtain ⟨rfl, h₁, h₂, h₃⟩ := in_order h hfits
      cases h with
      | cons hlt h =>
        rw [unlinkScan, if_neg (by omega), if_neg (by omega),
          if_neg (hno off (List.mem_cons_self ..))]
        exact ih h (fun z hz => hfits z (List.mem_cons_of_mem _ hz))
          fun z hz => hno z (List.mem_cons_of_mem _ hz)

/-- **The loop of `rm`** finds the first record of the inode, and the one in front of it. -/
theorem unlinkScan_some {fuel : ℕ} (h : Hops (nextRec m) off bs (l₁ ++ x :: l₂))
    (hfits : ∀ y ∈ l₁ ++ x :: l₂, direntUsed (m (y + 6)).toNat ≤ r16 m (y + 4))
    (hno : ∀ y ∈ l₁, r32 m y ≠ ino) (hino : r32 m x = ino) (hfuel : bs ≤ off + fuel) :
    unlinkScan m bs ino fuel off prev = some (some (l₁.getLast?.getD prev, r16 m (x + 4))) := by
  induction fuel generalizing off prev l₁ with
  | zero =>
    have hx := h.mem (List.mem_append_right l₁ (List.mem_cons_self ..))
    omega
  | succ fuel ih =>
    cases l₁ with
    | nil =>
      obtain ⟨rfl, h₁, h₂, h₃⟩ := in_order h hfits
      rw [unlinkScan, if_neg (by omega), if_neg (by omega), if_pos hino]
      rfl
    | cons y l₁ =>
      obtain ⟨rfl, h₁, h₂, h₃⟩ := in_order h hfits
      cases h with
      | cons hlt h =>
        rw [unlinkScan, if_neg (by omega), if_neg (by omega),
          if_neg (hno off (List.mem_cons_self ..))]
        have hrest := @ih _ off _ h (fun z hz => hfits z (List.mem_cons_of_mem _ hz))
          (fun z hz => hno z (List.mem_cons_of_mem _ hz)) (by rw [nextRec]; omega)
        rw [nextRec] at hrest
        rw [hrest, List.getLast?_cons]
        rfl

/-! ## A new record -/

section PutDirent

variable (m off ino) (reclen : ℕ) (name type)

/-- Only the record and its name are written. -/
theorem putDirent_apply {a : ℕ} (ha : a < off ∨ off + 8 + name.length ≤ a) :
    putDirent m off ino reclen name type a = m a := by
  rw [putDirent, memcpy_of_lt_or_ge (by omega), w8_of_ne (by omega), w8_of_ne (by omega),
    w16_of_lt_or_ge (by omega), w32_of_lt_or_ge (by omega)]

theorem r32_putDirent : r32 (putDirent m off ino reclen name type) off = ino % 2 ^ 32 := by
  rw [← r32_w32_self m off ino]
  refine r32_congr fun i hi => ?_
  rw [putDirent, memcpy_of_lt_or_ge (by omega), w8_of_ne (by omega), w8_of_ne (by omega),
    w16_of_lt_or_ge (by omega)]

theorem r16_putDirent : r16 (putDirent m off ino reclen name type) (off + 4) = reclen % 2 ^ 16 := by
  rw [← r16_w16_self (w32 m off ino) (off + 4) reclen]
  refine r16_congr fun i hi => ?_
  rw [putDirent, memcpy_of_lt_or_ge (by omega), w8_of_ne (by omega), w8_of_ne (by omega)]

theorem putDirent_length :
    putDirent m off ino reclen name type (off + 6) = UInt8.ofNat name.length := by
  rw [putDirent, memcpy_of_lt_or_ge (by omega), w8_of_ne (by omega), w8, if_pos rfl]

theorem putDirent_type : putDirent m off ino reclen name type (off + 7) = UInt8.ofNat type := by
  rw [putDirent, memcpy_of_lt_or_ge (by omega), w8, if_pos rfl]

theorem putDirent_name {i : ℕ} (hi : i < name.length) :
    putDirent m off ino reclen name type (off + 8 + i) = name.getD i 0 := by
  rw [putDirent, memcpy_of_lt hi, Nat.zero_add]
  rfl

end PutDirent

/-- A name that can be in a record. -/
structure DirentName (name : Str) : Prop where
  ne_nil : name ≠ []
  short : name.length ≤ 255
  no_zero : (0 : UInt8) ∉ name

/-- **What a new record tells.** -/
theorem direntAt_putDirent {reclen : ℕ} (hino : 0 < ino ∧ ino < 2 ^ 32) (hname : DirentName name)
    (htype : type < 256) :
    direntAt (putDirent m off ino reclen name type) off = some ⟨ino, name, type⟩ := by
  have hpos := List.length_pos_iff.mpr hname.ne_nil
  have hshort := hname.short
  have hlen : (UInt8.ofNat name.length).toNat = name.length := by
    rw [UInt8.toNat_ofNat']
    omega
  have htype' : (UInt8.ofNat type).toNat = type := by
    rw [UInt8.toNat_ofNat']
    omega
  have hstr : strAt (putDirent m off ino reclen name type) (off + 8) name.length = name := by
    have hbytes : ((List.range name.length).map fun i =>
        putDirent m off ino reclen name type (off + 8 + i)) = name := by
      refine List.ext_getElem (by simp) fun i hi hi' => ?_
      rw [List.getElem_map, List.getElem_range, putDirent_name m off ino name type reclen hi',
        List.getD_eq_getElem _ _ hi']
    rw [strAt, hbytes, List.takeWhile_eq_self_iff]
    intro c hc
    exact decide_eq_true fun h0 => hname.no_zero (h0 ▸ hc)
  rw [direntAt, r32_putDirent, putDirent_length, putDirent_type, hlen, htype', hstr,
    Nat.mod_eq_of_lt hino.2, if_pos ⟨by omega, hpos⟩]

/-- **A record behind the last one**, which is made as long as it has to be. -/
theorem Chain.putLast (h : Chain m bs (l ++ [x])) (hbs : bs < 2 ^ 16) (hname : DirentName name)
    (hroom : x + direntUsed (m (x + 6)).toNat + direntUsed name.length ≤ bs) {used : ℕ}
    (hused : used = direntUsed (m (x + 6)).toNat)
    (hm : m' = putDirent (w16 m (x + 4) used) (x + used) ino (bs - (x + used)) name type) :
    Chain m' bs (l ++ [x] ++ [x + used]) ∧ ∀ y ∈ l ++ [x], direntAt m' y = direntAt m y := by
  rw [← hused] at hroom
  have hlong := le_direntUsed (m (x + 6)).toNat
  have hlong' := le_direntUsed name.length
  have hmem := List.mem_append_right l (List.mem_singleton_self x)
  have hx := h.room hmem
  have hend : nextRec m x = bs := by
    have := h.hops.split.2.2
    cases this
    rfl
  -- In front of the new record only the length of the last one has changed.
  have hfront : ∀ a < x + used, a ≠ x + 4 → a ≠ x + 5 → m' a = m a := by
    intro a ha h₁ h₂
    rw [hm, putDirent_apply _ _ _ _ _ _ (.inl ha), w16_of_lt_or_ge (by omega)]
  have hbefore : ∀ y ∈ l, y + 8 + (m (y + 6)).toNat ≤ x := by
    intro y hy
    have := (h.room (List.mem_append_left [x] hy)).1
    have := h.hops.next_le_of_split hy
    omega
  have hxlen : r16 m' (x + 4) = used := by
    have hself : r16 (w16 m (x + 4) used) (x + 4) = used := by
      rw [r16_w16_self]
      omega
    rw [← hself]
    refine r16_congr fun i hi => ?_
    rw [hm, putDirent_apply _ _ _ _ _ _ (.inl (by omega))]
  have hnew : r16 m' (x + used + 4) = bs - (x + used) := by
    rw [hm, r16_putDirent]
    omega
  have hlen : m' (x + used + 6) = UInt8.ofNat name.length := by rw [hm, putDirent_length]
  have hlenx : m' (x + 6) = m (x + 6) := hfront _ (by omega) (by omega) (by omega)
  have hold : ∀ y ∈ l, r16 m' (y + 4) = r16 m (y + 4) ∧ m' (y + 6) = m (y + 6) := by
    intro y hy
    have := hbefore y hy
    exact ⟨r16_congr fun i hi => hfront _ (by omega) (by omega) (by omega),
      hfront _ (by omega) (by omega) (by omega)⟩
  refine ⟨⟨?_, fun y hy => ?_⟩, fun y hy => ?_⟩
  · have h₁ : Hops (nextRec m') 0 x l := by
      refine h.hops.split.1.congr fun y hy => ?_
      rw [nextRec, nextRec, (hold y hy).1]
    have h₂ : Hops (nextRec m') x (x + used) [x] := by
      have : Hops (nextRec m') x _ [x] := .single (by rw [nextRec, hxlen]; omega)
      rwa [nextRec, hxlen] at this
    have h₃ : Hops (nextRec m') (x + used) bs [x + used] := by
      have hnext : nextRec m' (x + used) = bs := by
        rw [nextRec, hnew]
        omega
      have : Hops (nextRec m') (x + used) _ [x + used] := .single (by rw [hnext]; omega)
      rwa [hnext] at this
    exact (h₁.append h₂).append h₃
  · rcases List.mem_append.mp hy with hy | hy
    · rcases List.mem_append.mp hy with hy' | hy'
      · rw [(hold y hy').1, (hold y hy').2]
        exact h.fits y hy
      · rw [List.mem_singleton.mp hy', hxlen, hlenx, hused]
    · have hlen' : (UInt8.ofNat name.length).toNat = name.length := by
        have := hname.short
        rw [UInt8.toNat_ofNat']
        omega
      rw [List.mem_singleton.mp hy, hlen, hlen', hnew]
      omega
  · refine direntAt_congr fun i hi h₄ h₅ => ?_
    rcases List.mem_append.mp hy with hy | hy
    · have := hbefore y hy
      exact hfront _ (by omega) (by omega) (by omega)
    · obtain rfl := List.mem_singleton.mp hy
      exact hfront _ (by omega) (by omega) (by omega)

/-- A block with one record. -/
theorem Chain.only {b : Bytes} (hbs : bs < 2 ^ 16) (hname : DirentName name)
    (hroom : direntUsed name.length ≤ bs) (hm : m = putDirent b 0 ino bs name type) :
    Chain m bs [0] := by
  have hlong := le_direntUsed name.length
  have hlen : r16 m 4 = bs := by
    have := r16_putDirent b 0 ino name type bs
    rw [← hm, Nat.mod_eq_of_lt hbs] at this
    exact this
  have hnext : nextRec m 0 = bs := by rw [nextRec, Nat.zero_add, Nat.zero_add, hlen]
  have hnlen : (m 6).toNat = name.length := by
    have h := putDirent_length b 0 ino name type bs
    rw [← hm] at h
    have := hname.short
    rw [show m 6 = UInt8.ofNat name.length from h, UInt8.toNat_ofNat']
    omega
  refine ⟨?_, fun x hx => ?_⟩
  · have : Hops (nextRec m) 0 _ [0] := .single (by rw [hnext]; omega)
    rwa [hnext] at this
  · rw [List.mem_singleton.mp hx]
    change direntUsed (m 6).toNat ≤ r16 m 4
    rw [hnlen, hlen]
    exact hroom

/-! ## A record less -/

/-- The length of a record does not matter for what the records tell. -/
theorem direntAt_w16 (v : ℕ) {p y : ℕ}
    (h : y = p ∨ y + 8 + (m (y + 6)).toNat ≤ p + 4 ∨ p + 6 ≤ y) :
    direntAt (w16 m (p + 4) v) y = direntAt m y :=
  direntAt_congr fun i hi h₄ h₅ => w16_of_lt_or_ge (by omega)

/-- **A record becomes a part of the one in front of it.** -/
theorem Chain.fold {p : ℕ} (h : Chain m bs (l₁ ++ p :: x :: l₂)) (hbs : bs < 2 ^ 16)
    (hm : m' = w16 m (p + 4) (r16 m (p + 4) + r16 m (x + 4))) :
    Chain m' bs (l₁ ++ p :: l₂) ∧ ∀ y ∈ l₁ ++ p :: l₂, direntAt m' y = direntAt m y := by
  obtain ⟨hfront, hltp, hback⟩ := h.hops.split
  have hpx : nextRec m p = x := by
    cases hback with
    | cons _ _ => rfl
  have hrest : Hops (nextRec m) (nextRec m x) bs l₂ := (Hops.split (l := []) hback).2.2
  have hxmem : x ∈ l₁ ++ p :: x :: l₂ := by simp
  have hpmem : p ∈ l₁ ++ p :: x :: l₂ := by simp
  have hx := h.room hxmem
  have hp := h.room hpmem
  rw [nextRec] at hpx hx
  have hplen : r16 m' (p + 4) = r16 m (p + 4) + r16 m (x + 4) := by
    rw [hm, r16_w16_self]
    omega
  -- No other record has a byte there.
  have hother : ∀ y ∈ l₁ ++ l₂, y + 8 + (m (y + 6)).toNat ≤ p ∨ p + 8 ≤ y := by
    intro y hy
    rcases List.mem_append.mp hy with hy | hy
    · have := (h.room (List.mem_append_left (p :: x :: l₂) hy)).1
      have := (hfront.mem hy).2.2
      omega
    · have := (hrest.mem hy).1
      rw [nextRec] at this
      omega
  have hsame : ∀ y ∈ l₁ ++ l₂, r16 m' (y + 4) = r16 m (y + 4) ∧ m' (y + 6) = m (y + 6) := by
    intro y hy
    have := hother y hy
    rw [hm]
    exact ⟨r16_w16_of_disjoint (by omega), w16_of_lt_or_ge (by omega)⟩
  refine ⟨⟨?_, fun y hy => ?_⟩, fun y hy => ?_⟩
  · have h₁ : Hops (nextRec m') 0 p l₁ := by
      refine hfront.congr fun y hy => ?_
      rw [nextRec, nextRec, (hsame y (List.mem_append_left l₂ hy)).1]
    have h₂ : Hops (nextRec m') (nextRec m x) bs l₂ := by
      refine hrest.congr fun y hy => ?_
      rw [nextRec, nextRec, (hsame y (List.mem_append_right l₁ hy)).1]
    have hnext : nextRec m' p = nextRec m x := by
      rw [nextRec, hplen, nextRec, ← hpx]
      omega
    exact h₁.append (.cons (by rw [hnext, nextRec]; omega) (hnext ▸ h₂))
  · by_cases hyp : y = p
    · have hlen : m' (p + 6) = m (p + 6) := by
        rw [hm]
        exact w16_of_lt_or_ge (by omega)
      have := h.fits p hpmem
      rw [hyp, hplen, hlen]
      omega
    · have hy' : y ∈ l₁ ++ l₂ := by
        simp only [List.mem_append, List.mem_cons] at hy ⊢
        tauto
      rw [(hsame y hy').1, (hsame y hy').2]
      refine h.fits y ?_
      simp only [List.mem_append, List.mem_cons] at hy' ⊢
      tauto
  · rw [hm]
    by_cases hyp : y = p
    · exact direntAt_w16 _ (.inl hyp)
    · have hy' : y ∈ l₁ ++ l₂ := by
        simp only [List.mem_append, List.mem_cons] at hy ⊢
        tauto
      have := hother y hy'
      exact direntAt_w16 _ (.inr (by omega))

/-! ## The block of a new directory -/

/-- What an empty directory lists. -/
def emptyDir (ino parent : ℕ) : List Dirent := [⟨ino, [dot], 2⟩, ⟨parent, [dot, dot], 2⟩]

/-- **The block `mkdir` writes** has the two entries. -/
theorem freshDirBlock_chain {bs parent : ℕ} (hbs : 1024 ≤ bs ∧ bs ≤ 4096)
    (hino : 0 < ino ∧ ino < 2 ^ 32)
    (hpar : 0 < parent ∧ parent < 2 ^ 32) (m : Bytes) :
    Chain (freshDirBlock m bs ino parent) bs [0, 12] ∧
      [0, 12].filterMap (direntAt (freshDirBlock m bs ino parent)) = emptyDir ino parent := by
  have hone : DirentName [dot] := ⟨by decide, by decide, by decide⟩
  have htwo : DirentName [dot, dot] := ⟨by decide, by decide, by decide⟩
  generalize hm₁ : putDirent (memset m 0 0 bs) 0 ino 12 [dot] 2 = m₁
  have hm : freshDirBlock m bs ino parent = putDirent m₁ 12 parent (bs - 12) [dot, dot] 2 := by
    rw [freshDirBlock, hm₁]
  generalize freshDirBlock m bs ino parent = m₂ at hm
  -- The second record leaves the first one alone.
  have hfront : ∀ a < 12, m₂ a = m₁ a :=
    fun a ha => by rw [hm, putDirent_apply _ _ _ _ _ _ (.inl ha)]
  have hlen₁ : r16 m₂ 4 = 12 := by
    have hput := r16_putDirent (memset m 0 0 bs) 0 ino [dot] 2 12
    rw [hm₁] at hput
    exact (r16_congr fun a _ => hfront _ (by omega)).trans hput
  have hname₁ : m₂ 6 = 1 := by
    have hput := putDirent_length (memset m 0 0 bs) 0 ino [dot] 2 12
    rw [hm₁] at hput
    exact (hfront 6 (by omega)).trans hput
  have hlen₂ : r16 m₂ 16 = bs - 12 := by
    have hput := r16_putDirent m₁ 12 parent [dot, dot] 2 (bs - 12)
    rw [← hm, Nat.mod_eq_of_lt (by omega)] at hput
    exact hput
  have hname₂ : m₂ 18 = 2 := by
    have hput := putDirent_length m₁ 12 parent [dot, dot] 2 (bs - 12)
    rw [← hm] at hput
    exact hput
  have hnext₁ : nextRec m₂ 0 = 12 := by rw [nextRec, Nat.zero_add, Nat.zero_add, hlen₁]
  have hnext₂ : nextRec m₂ 12 = bs := by
    rw [nextRec, hlen₂]
    omega
  refine ⟨⟨?_, fun x hx => ?_⟩, ?_⟩
  · have h₂ : Hops (nextRec m₂) 12 bs [12] := by
      have hsingle : Hops (nextRec m₂) 12 _ [12] := .single (by rw [hnext₂]; omega)
      rwa [hnext₂] at hsingle
    exact .cons (by rw [hnext₁]; omega) (hnext₁.symm ▸ h₂)
  · have hused : direntUsed (m₂ 6).toNat ≤ r16 m₂ 4 ∧ direntUsed (m₂ 18).toNat ≤ r16 m₂ 16 := by
      rw [hname₁, hname₂, hlen₁, hlen₂]
      exact ⟨by decide, le_trans (by decide : direntUsed (2 : UInt8).toNat ≤ 12) (by omega)⟩
    rcases List.mem_pair.mp hx with rfl | rfl
    · exact hused.1
    · exact hused.2
  · have h₁ : direntAt m₂ 0 = some ⟨ino, [dot], 2⟩ := by
      have hput : direntAt (putDirent (memset m 0 0 bs) 0 ino 12 [dot] 2) 0 =
        some ⟨ino, [dot], 2⟩ :=
        direntAt_putDirent hino hone (by decide)
      rw [hm₁] at hput
      rw [← hput]
      refine direntAt_congr fun a ha _ _ => ?_
      have hone' : m₁ (0 + 6) = 1 := (hfront 6 (by omega)).symm.trans hname₁
      rw [hone'] at ha
      exact hfront _ (by rw [Nat.zero_add]; exact lt_of_lt_of_le ha (by decide))
    have h₂ : direntAt m₂ 12 = some ⟨parent, [dot, dot], 2⟩ := by
      rw [hm]
      exact direntAt_putDirent hpar htwo (by decide)
    rw [List.filterMap_cons, h₁, List.filterMap_cons, h₂]
    rfl

/-- **A new directory with one name more.** -/
theorem dirents_put {bs parent k : ℕ} {B : Bytes} (hbs : 1024 ≤ bs ∧ bs ≤ 4096)
    (hino : 0 < ino ∧ ino < 2 ^ 32)
    (hpar : 0 < parent ∧ parent < 2 ^ 32) (hk : 0 < k ∧ k < 2 ^ 32) (hname : DirentName name)
    (htype : type < 256)
    (hroom : 24 + direntUsed name.length ≤ bs)
    (hB : ∀ a < bs, B a = putDirent (w16 (freshDirBlock m bs ino parent) 16 12) 24 k
      (bs - 24) name type a) :
    dirents B bs bs 0 = emptyDir ino parent ++ [⟨k, name, type⟩] := by
  obtain ⟨hchain, hents⟩ := freshDirBlock_chain hbs hino hpar m
  have hlen : freshDirBlock m bs ino parent (12 + 6) = 2 := putDirent_length _ _ _ _ _ _
  have hused : 12 = direntUsed (freshDirBlock m bs ino parent (12 + 6)).toNat := by rw [hlen]; rfl
  obtain ⟨hput, hold⟩ :=
    Chain.putLast (l := [0]) (x := 12) hchain (by omega) hname (by omega) hused rfl
  have hnew : direntAt (putDirent (w16 (freshDirBlock m bs ino parent) 16 12) 24 k
    (bs - 24) name type) 24 =
      some ⟨k, name, type⟩ := direntAt_putDirent hk hname htype
  rw [(hput.congr hB).dirents, hput.filterMap_congr hB, List.filterMap_append,
    List.filterMap_congr hold]
  change [0, 12].filterMap _ ++ _ = _
  rw [hents, List.filterMap_cons_some hnew]
  rfl

end Fs

end Aurisys
