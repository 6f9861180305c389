import Aurisys.Fs.Descend
import Aurisys.Fs.DirBlock
import Aurisys.Fs.Normal
import Aurisys.Fs.Owned

/-!
# The path in the buffer

`lookup_abs` and `vfs::resolve` walk through a copy of the path, byte by byte, in a buffer of 256
bytes. Each component is ended with a zero while it is looked up, and then the walk goes on behind
its end. `vfs::resolve` looks first whether that end is the end of the path. `lookup_abs` does not:
it relies on the zeroes that `strncpy` puts behind the path, and behind a path of 255 bytes there is
one zero and then the end of the buffer.

## Main definitions

* `copy` — the buffer
* `lookupBytes`, `resolveBytes` — the two walks, which stop when they are about to leave the buffer
* `Walks` — both end where the components lead

## Main results

* `wp_lookupTok`, `wp_resolveTok`
* `walks_iff`
-/

namespace Aurisys

open Bytes Fallible Path

namespace Fs

/-- What `strncpy` leaves in a buffer of 256 bytes whose last one is set to zero. -/
def copy (path : Str) : Bytes := ofStr (path.take 255)

/-- The slashes are passed, with `k` bytes of the buffer left. -/
def skipSlashes (p : Bytes) : ℕ → ℕ → Option ℕ
  | 0, _ => none
  | k + 1, i => if p i = slash then skipSlashes p k (i + 1) else some i

/-- The end of a component. -/
def scanName (p : Bytes) : ℕ → ℕ → Option ℕ
  | 0, _ => none
  | k + 1, i => if p i ≠ 0 ∧ p i ≠ slash then scanName p k (i + 1) else some i

/-- Where the next component begins and where it ends. -/
def nextTok (p : Bytes) (tok : ℕ) : Option (ℕ × ℕ) :=
  (skipSlashes p (256 - tok) tok).bind fun i => (scanName p (256 - i) i).map fun e => (i, e)

/-- How a walk ends. -/
inductive Looked
  | inode (ino : ℕ)
  | missing
  /-- The walk is about to read behind the buffer. -/
  | outside
deriving DecidableEq

/-- The loop of `lookup_abs`. -/
def lookupTok (p : Bytes) : ℕ → ℕ → ℕ → Act Looked
  | 0, _, _ => failure
  | fuel + 1, tok, ino =>
    match nextTok p tok with
    | none => return .outside
    | some (i, e) =>
      if p i = 0 then return .inode ino
      else do
        let r ← attempt (listDir (findName (strAt p i (e - i))) ino none)
        match r.bind Prod.snd with
        | some d => lookupTok p fuel (e + 1) d.ino
        | none => return .missing

/-- `lookup_abs`. -/
def lookupBytes (path : Str) : Act Looked := lookupTok (copy path) 257 0 kRootIno

/-- `ext_find_child`. -/
def extFindChild (dirIno : ℕ) (name : Str) : Act (Option ℕ) := do
  let r ← attempt (listDir (findName name) dirIno none)
  match r.bind Prod.snd with
  | some d => do
    let _ ← attempt (getstat d.ino)
    return some d.ino
  | none => return none

/-- The loop of `vfs::resolve` where nothing is mounted. -/
def resolveTok (p : Bytes) : ℕ → ℕ → ℕ → Act Looked
  | 0, _, _ => failure
  | fuel + 1, tok, ino =>
    match nextTok p tok with
    | none => return .outside
    | some (i, e) =>
      if p i = 0 then return .inode ino
      else do
        match ← extFindChild ino (strAt p i (e - i)) with
        | some child => if p e = 0 then return .inode child else resolveTok p fuel (e + 1) child
        | none => return .missing

/-- `vfs::resolve`, when `fs::resolve` has made the path absolute. -/
def resolveBytes (path : Str) : Act Looked := resolveTok (copy path) 257 0 kRootIno

/-- What the walks should end with. -/
def looked : Option ℕ → Looked
  | some ino => .inode ino
  | none => .missing

/-- **Both walks** end at the inode that the components lead to from the root, or they find none. -/
def Walks (s : Fs) (path : Str) : Prop :=
  (exec (lookupBytes path) s).1 = some (looked (s.descend (components path) kRootIno)) ∧
    (exec (resolveBytes path) s).1 = some (looked (s.descend (components path) kRootIno))

/-! ## Components in the buffer -/

variable {s t u : Fs} {p : Bytes} {c : Str} {cs : List Str} {path : Str} {tok ino fuel : ℕ}

/-- The bytes from a place on are those of a string. -/
def At (p : Bytes) : ℕ → Str → Prop
  | _, [] => True
  | i, a :: s => p i = a ∧ At p (i + 1) s

theorem at_of_getD {i : ℕ} {str : Str} (h : ∀ j < str.length, p (i + j) = str.getD j 0) :
    At p i str := by
  induction str generalizing i with
  | nil => trivial
  | cons a s ih =>
    refine ⟨h 0 (Nat.succ_pos _), ih fun j hj => ?_⟩
    have hstep := h (j + 1) (Nat.succ_lt_succ hj)
    rwa [← Nat.add_assoc, Nat.add_right_comm] at hstep

theorem at_append {i : ℕ} {s₁ s₂ : Str} :
    At p i (s₁ ++ s₂) ↔ At p i s₁ ∧ At p (i + s₁.length) s₂ := by
  induction s₁ generalizing i with
  | nil => exact ⟨fun h => ⟨trivial, h⟩, fun h => h.2⟩
  | cons a s₁ ih =>
    rw [List.cons_append, At, At, ih, List.length_cons, and_assoc, Nat.add_assoc, Nat.add_comm 1]

theorem At.strAt {i : ℕ} (h : At p i c) (hc : ∀ b ∈ c, b ≠ 0) : strAt p i c.length = c := by
  have hbytes : (List.range c.length).map (fun j => p (i + j)) = c := by
    clear hc
    induction c generalizing i with
    | nil => rfl
    | cons a c ih =>
      rw [List.length_cons, List.range_succ_eq_map, List.map_cons, List.map_map, Nat.add_zero, h.1]
      refine congrArg (a :: ·) (Eq.trans ?_ (ih h.2))
      refine List.map_congr_left fun j _ => ?_
      rw [Function.comp_apply, Nat.succ_eq_add_one, Nat.add_assoc, Nat.add_comm 1]
  rw [Fs.strAt, hbytes, List.takeWhile_eq_self_iff]
  exact fun b hb => decide_eq_true (hc b hb)

/-- A component is scanned to its end. -/
theorem At.scanName {i k : ℕ} (h : At p i c) (hc : ∀ b ∈ c, b ≠ 0 ∧ b ≠ slash)
    (hstop : p (i + c.length) = 0 ∨ p (i + c.length) = slash) (hk : c.length < k) :
    scanName p k i = some (i + c.length) := by
  induction c generalizing i k with
  | nil =>
    obtain ⟨k, rfl⟩ : ∃ j, k = j + 1 := ⟨k - 1, by omega⟩
    rw [Fs.scanName, if_neg]
    · rfl
    · rintro ⟨h₁, h₂⟩
      exact hstop.elim h₁ h₂
  | cons a c ih =>
    obtain ⟨k, rfl⟩ : ∃ j, k = j + 1 := ⟨k - 1, by omega⟩
    have hlen : i + (a :: c).length = i + 1 + c.length := by rw [List.length_cons]; omega
    rw [hlen] at hstop ⊢
    rw [Fs.scanName, if_pos (h.1 ▸ hc a (List.mem_cons_self ..))]
    exact ih h.2 (fun b hb => hc b (List.mem_cons_of_mem _ hb)) hstop (by
      rw [List.length_cons] at hk
      omega)

/-- A name that has no zero in it. -/
def Plain (c : Str) : Prop := c ≠ [] ∧ ∀ b ∈ c, b ≠ 0 ∧ b ≠ slash

/-- The walk is at the first byte of a component, and the path ends in the buffer. -/
structure Front (p : Bytes) (tok : ℕ) (c : Str) (cs : List Str) : Prop where
  plain : ∀ d ∈ c :: cs, Plain d
  bytes : At p tok (c ++ body cs)
  fits : tok + (c ++ body cs).length ≤ 255
  zero : ∀ i, tok + (c ++ body cs).length ≤ i → i ≤ 255 → p i = 0

namespace Front

variable (h : Front p tok c cs)

include h

/-- What follows the component. -/
theorem stop : if cs = [] then p (tok + c.length) = 0 else p (tok + c.length) = slash := by
  cases cs with
  | nil =>
    have hzero := h.zero (tok + c.length) (by simp [body]) (by simpa [body] using h.fits)
    rw [if_pos rfl]
    exact hzero
  | cons d cs =>
    rw [if_neg (by simp)]
    exact (at_append.mp h.bytes).2.1

theorem first : p tok ≠ slash ∧ p tok ≠ 0 := by
  obtain ⟨hne, hc⟩ := h.plain c (List.mem_cons_self ..)
  cases c with
  | nil => exact absurd rfl hne
  | cons a c =>
    rw [h.bytes.1]
    exact (hc a (List.mem_cons_self ..)).symm

theorem nextTok : nextTok p tok = some (tok, tok + c.length) := by
  have hfits := h.fits
  have hstop := h.stop
  rw [List.length_append] at hfits
  obtain ⟨k, hk⟩ : ∃ k, 256 - tok = k + 1 := ⟨255 - tok, by omega⟩
  have hskip : skipSlashes p (256 - tok) tok = some tok := by
    rw [hk, skipSlashes, if_neg h.first.1]
  have hscan : scanName p (256 - tok) tok = some (tok + c.length) := by
    refine (at_append.mp h.bytes).1.scanName (h.plain c (List.mem_cons_self ..)).2 ?_ (by omega)
    split at hstop
    · exact .inl hstop
    · exact .inr hstop
  rw [Fs.nextTok, hskip, Option.bind_some, hscan]
  rfl

theorem strAt : strAt p tok (tok + c.length - tok) = c := by
  rw [Nat.add_sub_cancel_left]
  exact (at_append.mp h.bytes).1.strAt fun b hb => ((h.plain c (List.mem_cons_self ..)).2 b hb).1

omit h in
/-- Behind a component and a slash there is the next one. -/
theorem next {d : Str} (h : Front p tok c (d :: cs)) : Front p (tok + c.length + 1) d cs := by
  have hlen : tok + (c ++ body (d :: cs)).length = tok + c.length + 1 + (d ++ body cs).length := by
    have hbody : body (d :: cs) = slash :: (d ++ body cs) := rfl
    rw [hbody, List.length_append, List.length_cons]
    omega
  have hfits := h.fits
  have hzero := h.zero
  rw [hlen] at hfits hzero
  exact ⟨fun e he => h.plain e (List.mem_cons_of_mem _ he), (at_append.mp h.bytes).2.2,
    hfits, hzero⟩

end Front

/-! ## The walks -/

/-- One component is looked up. -/
theorem wp_attempt_listDir (hg : s.geo.Ok) (h : Still s t) {α : Type} {name : Str} {d : ℕ}
    {f : Option (ℕ × Option Dirent) → Act α} {Q : α → Fs → Prop} {E : Fs → Prop}
    (hf : ∀ r u, Still s u → r.bind Prod.snd = s.childEntry name d → wp (f r) Q E u) :
    wp (attempt (listDir (findName name) d none) >>= f) Q E t := by
  rw [wp_bind, wp_attempt]
  refine wp_mono (wp_listDir_still hg h none) ?_ ?_
  · rintro r u ⟨hu, hlisted⟩
    exact hf _ u hu (by rw [childEntry, hlisted])
  · rintro u ⟨hu, hlisted⟩
    exact hf _ u hu (by rw [childEntry, hlisted])

/-- How `lookup_abs` ends on a path that ends there. -/
def overrun (last : ℕ) : Option ℕ → Looked
  | some ino => if last = 255 then .outside else .inode ino
  | none => .missing

/-- **`lookup_abs`** goes on behind the last component, where there is a zero or the end of the
buffer. -/
theorem wp_lookupTok (hg : s.geo.Ok) (hstill : Still s t) (h : Front p tok c cs)
    (hfuel : cs.length + 1 < fuel) :
    wp (lookupTok p fuel tok ino) (fun r _ =>
      r = overrun (tok + (c ++ body cs).length) (s.descend (c :: cs) ino)) (fun _ => False) t := by
  induction cs generalizing c tok fuel ino t with
  | nil =>
    obtain ⟨fuel, rfl⟩ : ∃ k, fuel = k + 2 := ⟨fuel - 2, by simp at hfuel; omega⟩
    rw [lookupTok, h.nextTok]
    dsimp only
    rw [if_neg h.first.2, h.strAt]
    refine wp_attempt_listDir hg hstill fun r u hu hr => ?_
    rw [hr, descend, child]
    cases s.childEntry c ino with
    | none => rfl
    | some d =>
      dsimp only
      have hfits := h.fits
      have hzero := h.zero
      have hnil : c ++ body [] = c := List.append_nil c
      rw [hnil] at hfits hzero ⊢
      rw [lookupTok]
      by_cases hlast : tok + c.length = 255
      · have hout : nextTok p (tok + c.length + 1) = none := by
          rw [nextTok, hlast]
          rfl
        rw [hout, wp_pure]
        exact (if_pos hlast).symm
      · have hz := hzero (tok + c.length + 1) (by omega) (by omega)
        have hin : nextTok p (tok + c.length + 1) = some (tok + c.length + 1,
            tok + c.length + 1) := by
          obtain ⟨k, hk⟩ : ∃ k, 256 - (tok + c.length + 1) = k + 1 :=
            ⟨254 - (tok + c.length), by omega⟩
          have hne : p (tok + c.length + 1) ≠ slash := by rw [hz]; decide
          rw [nextTok, hk, skipSlashes, if_neg hne, Option.bind_some, hk, scanName, if_neg]
          · rfl
          · exact fun hn => hn.1 hz
        rw [hin]
        dsimp only
        rw [if_pos hz, wp_pure]
        exact (if_neg hlast).symm
  | cons c' cs ih =>
    obtain ⟨fuel, rfl⟩ : ∃ k, fuel = k + 1 := ⟨fuel - 1, by omega⟩
    rw [lookupTok, h.nextTok]
    dsimp only
    rw [if_neg h.first.2, h.strAt]
    refine wp_attempt_listDir hg hstill fun r u hu hr => ?_
    rw [hr, descend, child]
    cases s.childEntry c ino with
    | none => rfl
    | some d =>
      dsimp only
      have hlen : tok + (c ++ body (c' :: cs)).length =
          tok + c.length + 1 + (c' ++ body cs).length := by
        have hbody : body (c' :: cs) = slash :: (c' ++ body cs) := rfl
        rw [hbody, List.length_append, List.length_cons]
        omega
      rw [hlen]
      exact ih hu h.next (by rw [List.length_cons] at hfuel; omega)

/-- Getting the stat of an inode does not change what is listed. -/
theorem Still.getstat (hg : s.geo.Ok) (h : Still s t) (d : ℕ) :
    wp (getstat d) (fun _ u => Still s u) (fun u => Still s u) t := by
  obtain ⟨hn, hb2⟩ := h.loaded hg d
  rw [Fs.getstat, wp_bind, wp_loadInode (h.geo ▸ hg)]
  exact ⟨fun _ => .near hn hb2, fun _ => h⟩

theorem wp_extFindChild (hg : s.geo.Ok) (h : Still s t) (d : ℕ) (name : Str) :
    wp (extFindChild d name) (fun r u => Still s u ∧ r = s.child d name) (fun _ => False) t := by
  rw [extFindChild]
  refine wp_attempt_listDir hg h fun r u hu hr => ?_
  rw [hr, child]
  cases s.childEntry name d with
  | none => exact ⟨hu, rfl⟩
  | some e =>
    dsimp only
    rw [wp_bind, wp_attempt]
    exact wp_mono (hu.getstat hg e.ino) (fun _ _ h => ⟨h, rfl⟩) fun _ h => ⟨h, rfl⟩

/-- **`vfs::resolve`** stops behind the last component. -/
theorem wp_resolveTok (hg : s.geo.Ok) (hstill : Still s t) (h : Front p tok c cs)
    (hfuel : cs.length < fuel) :
    wp (resolveTok p fuel tok ino) (fun r _ => r = looked (s.descend (c :: cs) ino))
      (fun _ => False) t := by
  induction cs generalizing c tok fuel ino t with
  | nil =>
    obtain ⟨fuel, rfl⟩ : ∃ k, fuel = k + 1 := ⟨fuel - 1, by omega⟩
    have hstop := h.stop
    rw [if_pos rfl] at hstop
    rw [resolveTok, h.nextTok]
    dsimp only
    rw [if_neg h.first.2, h.strAt, wp_bind]
    refine wp_mono (wp_extFindChild hg hstill ino c) ?_ fun _ => id
    rintro r u ⟨hu, rfl⟩
    rw [descend]
    cases s.child ino c with
    | none => rfl
    | some d =>
      dsimp only
      rw [if_pos hstop]
      rfl
  | cons c' cs ih =>
    obtain ⟨fuel, rfl⟩ : ∃ k, fuel = k + 1 := ⟨fuel - 1, by omega⟩
    have hstop := h.stop
    rw [if_neg (List.cons_ne_nil _ _)] at hstop
    rw [resolveTok, h.nextTok]
    dsimp only
    rw [if_neg h.first.2, h.strAt, wp_bind]
    refine wp_mono (wp_extFindChild hg hstill ino c) ?_ fun _ => id
    rintro r u ⟨hu, rfl⟩
    rw [descend]
    cases s.child ino c with
    | none => rfl
    | some d =>
      dsimp only
      rw [if_neg (by rw [hstop]; decide), Option.bind_some]
      exact ih hu h.next (by rw [List.length_cons] at hfuel; omega)

/-! ## Normal paths -/

/-- The copy of a path that fits is the path with zeroes behind it. -/
theorem copy_apply (hlen : path.length ≤ 255) (i : ℕ) : copy path i = path.getD i 0 := by
  rw [copy, ofStr, List.take_of_length_le hlen]

/-- A normal path in the buffer, behind its first slash. -/
theorem front_copy (hcs : ∀ d ∈ c :: cs, Plain d) (hlen : (body (c :: cs)).length ≤ 255) :
    Front (copy (body (c :: cs))) 1 c cs := by
  have hbody : body (c :: cs) = slash :: (c ++ body cs) := rfl
  have hbytes : At (copy (body (c :: cs))) 0 (body (c :: cs)) :=
    at_of_getD fun j _ => by rw [copy_apply hlen, Nat.zero_add]
  have hend : 1 + (c ++ body cs).length = (body (c :: cs)).length := by
    rw [hbody, List.length_cons, Nat.add_comm]
  refine ⟨hcs, hbytes.2, hend ▸ hlen, fun i hi _ => ?_⟩
  rw [copy_apply hlen, List.getD_eq_default _ _ (hend ▸ hi)]

theorem length_le_body (hcs : ∀ d ∈ cs, Plain d) : 2 * cs.length ≤ (body cs).length := by
  induction cs with
  | nil => exact le_rfl
  | cons c cs ih =>
    have hbody : body (c :: cs) = slash :: (c ++ body cs) := rfl
    have hpos := List.length_pos_iff.mpr (hcs c (List.mem_cons_self ..)).1
    have := ih fun d hd => hcs d (List.mem_cons_of_mem _ hd)
    rw [hbody, List.length_cons, List.length_cons, List.length_append]
    omega

/-- The first slash of a path is passed. -/
theorem nextTok_slash (h : p 0 = slash) : nextTok p 0 = nextTok p 1 := by
  rw [nextTok, nextTok, skipSlashes, if_pos h]

theorem lookupTok_slash (h : p 0 = slash) : lookupTok p fuel 0 ino = lookupTok p fuel 1 ino := by
  cases fuel with
  | zero => rfl
  | succ fuel => rw [lookupTok, lookupTok, nextTok_slash h]

theorem resolveTok_slash (h : p 0 = slash) : resolveTok p fuel 0 ino = resolveTok p fuel 1 ino := by
  cases fuel with
  | zero => rfl
  | succ fuel => rw [resolveTok, resolveTok, nextTok_slash h]

theorem fst_of_wp_some {α : Type} {x : Act α} {a : α}
    (h : wp x (fun r _ => r = a) (fun _ => False) s) :
    (exec x s).1 = some a := by
  obtain ⟨r, u, hex, rfl⟩ := exec_of_wp h
  rw [hex]

/-- **How `lookup_abs` ends** on a normal path. -/
theorem exec_lookupBytes (hg : s.geo.Ok) (hcs : ∀ d ∈ cs, Plain d)
    (hlen : (render cs).length ≤ 255) :
    (exec (lookupBytes (render cs)) s).1 =
    some (overrun (render cs).length (s.descend cs kRootIno)) := by
  cases cs with
  | nil => rfl
  | cons c cs =>
    have hrender : render (c :: cs) = body (c :: cs) := if_neg (List.cons_ne_nil _ _)
    rw [hrender] at hlen ⊢
    have hhalf := length_le_body hcs
    have hfront := front_copy hcs hlen
    have hend : 1 + (c ++ body cs).length = (body (c :: cs)).length := by
      have hbody : body (c :: cs) = slash :: (c ++ body cs) := rfl
      rw [hbody, List.length_cons, Nat.add_comm]
    rw [lookupBytes, lookupTok_slash (by rw [copy_apply hlen]; rfl), ← hend]
    exact fst_of_wp_some (wp_lookupTok hg (.refl s) hfront (by
      rw [List.length_cons] at hhalf
      omega))

/-- **How `vfs::resolve` ends** on a normal path. -/
theorem exec_resolveBytes (hg : s.geo.Ok) (hcs : ∀ d ∈ cs, Plain d)
    (hlen : (render cs).length ≤ 255) :
    (exec (resolveBytes (render cs)) s).1 = some (looked (s.descend cs kRootIno)) := by
  cases cs with
  | nil => rfl
  | cons c cs =>
    have hrender : render (c :: cs) = body (c :: cs) := if_neg (List.cons_ne_nil _ _)
    rw [hrender] at hlen ⊢
    have hhalf := length_le_body hcs
    rw [resolveBytes, resolveTok_slash (by rw [copy_apply hlen]; rfl)]
    exact fst_of_wp_some (wp_resolveTok hg (.refl s) (front_copy hcs hlen) (by
      rw [List.length_cons] at hhalf
      omega))

/-- **When `lookup_abs` walks the path it is given**, and no further. -/
theorem walks_iff (hg : s.geo.Ok) (hcs : ∀ d ∈ cs, IsName d ∧ ∀ b ∈ d, b ≠ 0)
    (hlen : (render cs).length ≤ 255) :
    Walks s (render cs) ↔ ¬((render cs).length = 255 ∧ ∃ ino, s.descend cs kRootIno =
      some ino) := by
  have hplain : ∀ d ∈ cs, Plain d := by
    intro d hd
    obtain ⟨⟨hne, hslash, -⟩, hz⟩ := hcs d hd
    exact ⟨hne, fun b hb => ⟨hz b hb, fun he => hslash (he ▸ hb)⟩⟩
  rw [Walks, components_render fun d hd => (hcs d hd).1, exec_lookupBytes hg hplain hlen,
    exec_resolveBytes hg hplain hlen, and_iff_left rfl]
  generalize s.descend cs kRootIno = found
  cases found with
  | none => exact iff_of_true rfl fun h => absurd h.2.choose_spec.symm (Option.some_ne_none _)
  | some ino =>
    rw [overrun, looked]
    by_cases hlast : (render cs).length = 255
    · rw [if_pos hlast]
      exact iff_of_false (by simp) (not_not_intro ⟨hlast, ino, rfl⟩)
    · rw [if_neg hlast]
      exact iff_of_true rfl fun h => hlast h.1

/-! ## A path of 255 bytes -/

/-- The small volume with a file whose name has 254 bytes. -/
def longNamed : Fs :=
  { filed with
    disk := Function.update filedDisk 7 (putDirent
      (w16 (freshDirBlock (fun _ => 0) 1024 kRootIno kRootIno) 16 12) 24 12 1000
      (List.replicate 254 97) 1) }

theorem walks_short : Walks filed (render [[97]]) ↔
    ¬((render [[97]]).length = 255 ∧ ∃ ino, filed.descend [[97]] kRootIno = some ino) :=
  walks_iff smallGeometry_ok (by decide +kernel) (by decide +kernel)

theorem plain_as (n : ℕ) : ∀ d ∈ [List.replicate (n + 1) (97 : UInt8)], Plain d ∧ IsName d := by
  intro d hd
  obtain rfl := List.mem_singleton.mp hd
  have hb : ∀ b ∈ List.replicate (n + 1) (97 : UInt8), b = 97 := fun b => List.eq_of_mem_replicate
  have hne : List.replicate (n + 1) (97 : UInt8) ≠ [] := List.cons_ne_nil _ _
  refine ⟨⟨hne, fun b h => by rw [hb b h]; decide⟩, hne,
    fun h => absurd (hb _ h) (by decide), ?_, ?_⟩
  · exact fun h => absurd (hb dot (h ▸ List.mem_singleton_self _)) (by decide)
  · exact fun h => absurd (hb dot (h ▸ List.mem_cons_self ..)) (by decide)

theorem length_render_as (n : ℕ) : (render [List.replicate n (97 : UInt8)]).length = n + 1 := by
  simp [render, body]

theorem direntName_as {n : ℕ} (hn : n < 255) : DirentName (List.replicate (n + 1) 97) where
  ne_nil := List.cons_ne_nil _ _
  short := by
    rw [List.length_replicate]
    exact hn
  no_zero h := absurd (List.eq_of_mem_replicate h) (by decide)

/-- **What a directory of one block lists** decides what a name in it leads to. -/
theorem child_of_dirents {d p : ℕ} {name : Str} {ds : List Dirent}
    (hd : s.geo.IsIno d ∧ IsDir (s.loaded d).ino)
    (hone : s.geo.blocksOf (inodeSize (s.loaded d).ino) = 1)
    (hp : s.blockOf (s.loaded d).ino 0 = some p)
    (hlt : p < s.geo.blocks)
    (hds : dirents (memcpy s.b2 0 (s.disk p) 0 s.geo.bs) s.geo.bs s.geo.bs 0 = ds) :
    s.child d name = (callAll (findName name) ds 0 none).2.2.map Dirent.ino := by
  rw [child, childEntry, listed, if_pos hd, hone, List.range_one, listedBlocks,
    dirBlock, blockBytes, hp,
    Option.bind_some, if_pos hlt, Option.map_some, Option.bind_some, hds]
  rcases callAll (findName name) ds 0 none with ⟨_ | _, count, found⟩ <;> rfl

/-- The file is found, and then `lookup_abs` reads behind its buffer. -/
theorem outside_at_255 : (render [List.replicate 254 97]).length = 255 ∧
    longNamed.descend [List.replicate 254 97] kRootIno = some 12 ∧
    ¬Walks longNamed (render [List.replicate 254 97]) := by
  have hmapped : longNamed.blockOf (longNamed.loaded kRootIno).ino 0 = some 7 := by decide +kernel
  have hlisted : dirents (memcpy longNamed.b2 0 (longNamed.disk 7) 0 1024) 1024 1024 0 =
      emptyDir kRootIno kRootIno ++ [⟨12, List.replicate 254 97, 1⟩] :=
    dirents_put (by decide) (by decide) (by decide) (by decide) (direntName_as (n := 253)
      (by decide)) (by decide)
      (by rw [List.length_replicate]; decide) fun a ha => by
        rw [memcpy_zero_of_lt ha, Nat.zero_add]
        rfl
  have hchild : longNamed.child kRootIno (List.replicate 254 97) = some 12 :=
    (child_of_dirents (by decide +kernel) (by decide +kernel) hmapped (by decide) hlisted).trans
      (by decide +kernel)
  have hfound : longNamed.descend [List.replicate 254 97] kRootIno = some 12 := by
    rw [descend, hchild]
    rfl
  refine ⟨length_render_as 254, hfound, fun h => ?_⟩
  have hwalk := h.1
  rw [exec_lookupBytes smallGeometry_ok (fun d hd => (plain_as 253 d hd).1)
    (length_render_as 254).le,
    components_render fun d hd => (plain_as 253 d hd).2, hfound, overrun,
    if_pos (length_render_as 254)]
    at hwalk
  exact absurd hwalk (by simp [looked])

end Fs

end Aurisys
