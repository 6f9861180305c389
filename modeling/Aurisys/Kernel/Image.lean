import Aurisys.Kernel.Args
import Aurisys.Kernel.Elf
import Aurisys.Kernel.Places

/-!
# A program that is started

`replace` takes a space and frames, maps the image, copies the program into it and lays the
arguments on its stack. A file that is complete and fits, with arguments of the allowed number and
length, goes all the way if there is memory. What the process has then is read off here: at every
address of the image the byte that the last segment to cover it has there, and zero where there is
none, and on its stack what `_start` makes the arguments and the environment from.

## Main definitions

* `imageByte` — what the segments of a file leave at an address
* `Started` — a process with a new image

## Main results

* `copyArgs_refines`, `buildStack_refines` — the arguments over strings are those over bytes
* `buildStack_starts`
* `loadSegments_image`
* `replace_starts`
-/

namespace Aurisys

open Bytes Paging Pages PageAlloc

namespace Kernel

variable {H : Type} {m : Mmu H} {M flat : Bytes} {ss argv envp : List (List UInt8)} {s va p : ℕ}

/-! ## The arguments -/

theorem copyStrings_isSome {src out : Bytes} {as : List ℕ} (h : List.Forall₂ (IsStr src) as ss)
    (hs : ∀ t ∈ ss, t.length < 2 ^ 32) :
    (Args.copyStrings src as out p).isSome ↔ ∀ t ∈ ss, t.length < kCopyStr := by
  induction h generalizing out p with
  | nil => exact iff_of_true rfl fun t ht => absurd ht List.not_mem_nil
  | @cons a t as ss ha _ ih =>
    rw [Args.copyStrings, ha.strlen_eq (hs t List.mem_cons_self), List.forall_mem_cons]
    by_cases hlong : Args.kCopyStr ≤ t.length
    · rw [if_pos hlong]
      exact iff_of_false Bool.false_ne_true fun h => Nat.not_lt.mpr hlong h.1
    · rw [if_neg hlong, ih fun u hu => hs u (List.mem_cons_of_mem t hu)]
      exact (and_iff_right (Nat.not_le.mp hlong)).symm

/-- **`copy_args`** out of the bytes of the caller's space refuses what `copy_args` on the strings
refuses. -/
theorem copyArgs_refines {src out : Bytes} {av ev : List ℕ} (hav : List.Forall₂ (IsStr src) av argv)
    (hev : List.Forall₂ (IsStr src) ev envp) (hs : ∀ t ∈ argv ++ envp, t.length < 2 ^ 32) :
    (Args.copyArgs src av ev out).isSome ↔ copyArgs argv envp = some ⟨argv, envp⟩ := by
  have hsa : ∀ t ∈ argv, t.length < 2 ^ 32 := fun t h => hs t (List.mem_append_left envp h)
  have hse : ∀ t ∈ envp, t.length < 2 ^ 32 := fun t h => hs t (List.mem_append_right argv h)
  have hargs : (Args.copyStrings src av out 8).isSome ↔ ∀ t ∈ argv, t.length < kCopyStr :=
    copyStrings_isSome hav hsa
  rw [Args.copyArgs, copyArgs]
  cases hfirst : Args.copyStrings src av out 8 with
  | none =>
    rw [hfirst] at hargs
    rw [if_neg fun h => Bool.false_ne_true (hargs.mpr h.1)]
    exact iff_of_false Bool.false_ne_true (Option.some_ne_none _).symm
  | some r =>
    rw [hfirst] at hargs
    rw [Option.bind_some, Option.isSome_map, copyStrings_isSome hev hse]
    constructor
    · exact fun h => if_pos ⟨hargs.mp rfl, h⟩
    · intro h
      by_contra hlong
      rw [if_neg fun hall => hlong hall.2] at h
      exact Option.some_ne_none _ h.symm

/-! ## The stack -/

/-- The stack is there. -/
def HasStack (m : Mmu H) : Prop :=
  ∀ a, kStackBase ≤ a → a < kStackBase + kStackBytes → (m.place m.current a).isSome

/-- A byte memory has what is on the stack. -/
def OnStack (m : Mmu H) (M : Bytes) : Prop :=
  ∀ a, kStackBase ≤ a → a < kStackBase + kStackBytes → m.load m.current a = some (M a)

theorem exists_onStack (ho : m.OneToOne m.current) (hst : HasStack m) : ∃ M, OnStack m M := by
  refine ⟨fun a => (m.load m.current a).getD 0, fun a h₁ h₂ => ?_⟩
  obtain ⟨p, hp⟩ := Option.isSome_iff_exists.mp (hst a h₁ h₂)
  have hload : m.load m.current a = some (m.mem p) := by
    rw [ho.load_eq a, hp]
    rfl
  exact hload.trans (congrArg some (congrArg (Option.getD · 0) hload).symm)

/-- What the kernel writes onto the stack is stored there. -/
theorem poke_store (ho : m.OneToOne m.current) (hst : HasStack m) (hM : OnStack m M)
    {vs : List UInt8}
    (hlo : kStackBase ≤ va) (hhi : va + vs.length ≤ kStackBase + kStackBytes) :
    ∃ mem, m.poke va vs = some (m.setMem mem) ∧ OnStack (m.setMem mem) (store M va vs) ∧
      ∀ a < kStackBase, (m.setMem mem).load m.current a = m.load m.current a := by
  obtain ⟨mem, hpoke, hload⟩ := Mmu.poke_spec va vs ho fun i hi =>
    hst _ (hlo.trans (Nat.le_add_right va i)) ((Nat.add_lt_add_left hi va).trans_le hhi)
  refine ⟨mem, hpoke, fun a h₁ h₂ => (hload a).trans ?_, fun a ha => ?_⟩
  · by_cases hin : va ≤ a ∧ a < va + vs.length
    · obtain ⟨i, rfl⟩ := Nat.exists_eq_add_of_le hin.1
      rw [if_pos hin, Nat.add_sub_cancel_left, getElem?_store (Nat.lt_of_add_lt_add_left hin.2)]
    · rw [if_neg hin, hM a h₁ h₂, store, if_neg hin]
  · rw [hload a, if_neg fun h => Nat.not_le.mpr (ha.trans_le hlo) h.1]

/-- The bytes of words are stored. -/
theorem store_words (M : Bytes) (va : ℕ) (ws : List ℕ) :
    store M va (ws.flatMap word) = putWords M va ws := by
  induction ws generalizing M va with
  | nil => exact store_nil M va
  | cons w ws ih =>
    have hlen : (word w).length = 4 := rfl
    have hone : store M va (word w) = w32 M va w := by
      funext a
      rw [store, hlen]
      by_cases ha : va ≤ a ∧ a < va + 4
      · obtain ⟨i, rfl⟩ := Nat.exists_eq_add_of_le ha.1
        have hi : i < 4 := Nat.lt_of_add_lt_add_left ha.2
        rw [if_pos ha, Nat.add_sub_cancel_left, w32]
        obtain rfl | rfl | rfl | rfl : i = 0 ∨ i = 1 ∨ i = 2 ∨ i = 3 := by omega
        all_goals simp [word]
      · rw [if_neg ha, w32_of_lt_or_ge (by omega)]
    rw [List.flatMap_cons, store_append, hone, hlen, ih, putWords]

theorem length_words (ws : List ℕ) : (ws.flatMap word).length = 4 * ws.length := by
  induction ws with
  | nil => rfl
  | cons w ws ih =>
    have hlen : (word w).length = 4 := rfl
    rw [List.flatMap_cons, List.length_append, ih, hlen, List.length_cons,
      Nat.mul_succ, Nat.add_comm]

/-- **The loops of `build_stack`** put the strings of the buffer where those over the buffer do. -/
theorem pushStrings_refines (ho : m.OneToOne m.current) (hst : HasStack m) (hM : OnStack m M)
    (hp : Packed flat p ss) (hlen : ∀ t ∈ ss, t.length < 2 ^ 32)
    (hs : s ≤ kStackBase + kStackBytes) :
    ∃ mem, pushStrings m s ss =
        some ((Args.pushStrings flat ss.length M s p).2.map fun r => (r.1, r.2.2), m.setMem mem) ∧
      OnStack (m.setMem mem) (Args.pushStrings flat ss.length M s p).1 ∧
      (∀ a < kStackBase, (m.setMem mem).load m.current a = m.load m.current a) ∧
      ∀ r, (Args.pushStrings flat ss.length M s p).2 = some r →
        r.1 ≤ s ∧ r.2.1 = p + packedSize ss ∧ r.2.2.length = ss.length := by
  induction ss generalizing m M s p with
  | nil =>
    refine ⟨m.mem, rfl, hM, fun _ _ => rfl, fun r hr => ?_⟩
    obtain rfl := Option.some.inj hr
    exact ⟨le_rfl, rfl, rfl⟩
  | cons t ss ih =>
    have hstr : strlen flat p = t.length := hp.1.strlen_eq (hlen t List.mem_cons_self)
    rw [List.length_cons, Args.pushStrings, pushStrings, hstr]
    dsimp only
    by_cases hroom : s - kStackBase < t.length + 1
    · rw [if_pos hroom, if_pos hroom]
      exact ⟨m.mem, rfl, hM, fun _ _ => rfl, fun r hr => absurd hr.symm (Option.some_ne_none r)⟩
    · rw [if_neg hroom, if_neg hroom, hp.1.memcpy_eq]
      have hbelow : kStackBase ≤ s - (t.length + 1) := by omega
      have hup : s - (t.length + 1) + (t ++ [0]).length ≤ kStackBase + kStackBytes := by
        rw [List.length_append, List.length_singleton]
        omega
      obtain ⟨mem₁, hpoke, hM₁, hkept₁⟩ := poke_store ho hst hM hbelow hup
      obtain ⟨mem, hpush, hM', hkept, hend⟩ := ih (m := m.setMem mem₁) (ho.setMem mem₁) hst hM₁ hp.2
        (fun u hu => hlen u (List.mem_cons_of_mem t hu)) ((Nat.sub_le _ _).trans hs)
      rw [hpoke]
      dsimp only
      rw [hpush, ← Nat.add_assoc p]
      generalize Args.pushStrings flat ss.length (store M (s - (t.length + 1)) (t ++ [0]))
        (s - (t.length + 1))
        (p + t.length + 1) = q at hM' hend
      obtain ⟨M', r⟩ := q
      have hkept' : ∀ a < kStackBase, (m.setMem mem).load m.current a = m.load m.current a :=
        fun a ha => (hkept a ha).trans (hkept₁ a ha)
      cases r with
      | none => exact ⟨mem, rfl, hM', hkept', fun r hr => absurd hr.symm (Option.some_ne_none r)⟩
      | some r =>
        obtain ⟨h₁, h₂, h₃⟩ := hend r rfl
        refine ⟨mem, rfl, hM', hkept', fun r' hr => ?_⟩
        obtain rfl := Option.some.inj hr
        refine ⟨h₁.trans (Nat.sub_le _ _), h₂.trans ?_, congrArg (· + 1) h₃⟩
        rw [packedSize_cons, ← Nat.add_assoc, ← Nat.add_assoc]

/-- **`build_stack`** through the page tables is `build_stack` on the bytes of the stack: it comes
to the same stack pointer and leaves the same bytes, also where the arguments do not fit. -/
theorem buildStack_refines (ho : m.OneToOne m.current) (hst : HasStack m) (hM : OnStack m M)
    (h : Args.Flattened flat argv envp) (hlen : ∀ s ∈ argv ++ envp, s.length < 2 ^ 32) :
    ∃ mem, buildStack m ⟨argv, envp⟩ = some ((Args.buildStack flat M).1, m.setMem mem) ∧
      OnStack (m.setMem mem) (Args.buildStack flat M).2 ∧
      ∀ a < kStackBase, (m.setMem mem).load m.current a = m.load m.current a := by
  obtain ⟨hpa, hpe⟩ := packed_append.mp h.packed
  have hla : ∀ s ∈ argv, s.length < 2 ^ 32 := fun s h => hlen s (List.mem_append_left envp h)
  have hcount : Args.countArgs flat (packedSize argv) (packedSize argv) 0 = argv.length :=
    Args.countArgs_eq (q := 0) hpa (Nat.zero_add _) (length_le_packedSize argv) hla
  rw [buildStack, Args.buildStack, h.arglen, h.envc, hcount, Args.putStrings]
  obtain ⟨mem₁, h₁, hM₁, hkept₁, hend₁⟩ := pushStrings_refines ho hst hM hpa hla le_rfl
  rw [h₁]
  generalize Args.pushStrings flat argv.length M (kStackBase + kStackBytes) 8 = r₁ at hM₁ hend₁
  obtain ⟨M₁, r₁⟩ := r₁
  cases r₁ with
  | none => exact ⟨mem₁, rfl, hM₁, hkept₁⟩
  | some r₁ =>
    obtain ⟨s₁, p₁, ptrs⟩ := r₁
    obtain ⟨hs₁, hp₁, hptrs⟩ := hend₁ _ rfl
    dsimp only at hs₁ hp₁ hptrs hM₁ ⊢
    rw [← hp₁] at hpe
    obtain ⟨mem₂, h₂, hM₂, hkept₂, hend₂⟩ :=
      pushStrings_refines (m := m.setMem mem₁) (ho.setMem mem₁) hst hM₁ hpe
      (fun s h => hlen s (List.mem_append_right argv h)) hs₁
    have hkept : ∀ a < kStackBase, (m.setMem mem₂).load m.current a = m.load m.current a :=
      fun a ha => (hkept₂ a ha).trans (hkept₁ a ha)
    simp only [Option.map_some, h₂]
    generalize Args.pushStrings flat envp.length M₁ s₁ p₁ = r₂ at hM₂ hend₂
    obtain ⟨M₂, r₂⟩ := r₂
    cases r₂ with
    | none => exact ⟨mem₂, rfl, hM₂, hkept⟩
    | some r₂ =>
      obtain ⟨s₂, p₂, eptrs⟩ := r₂
      obtain ⟨hs₂, -, heptrs⟩ := hend₂ _ rfl
      dsimp only at hs₂ heptrs hM₂ ⊢
      have hwords : (argv.length :: ptrs ++ 0 :: eptrs ++ [0]).length =
          ptrs.length + eptrs.length + 3 := by
        simp only [List.length_append, List.length_cons, List.length_nil]
        omega
      simp only [Option.map_some, hwords]
      by_cases hroom : s₂ - kStackBase < 4 * (ptrs.length + eptrs.length + 3) + 16
      · rw [if_pos hroom, Args.putVectors, if_pos hroom]
        exact ⟨mem₂, rfl, hM₂, hkept⟩
      · have hle : kStackBase + (4 * (ptrs.length + eptrs.length + 3) + 16) ≤ s₂ := by omega
        have hbelow : s₂ - 4 * (ptrs.length + eptrs.length + 3) +
            ((argv.length :: ptrs ++ 0 :: eptrs ++ [0]).flatMap
              word).length ≤ kStackBase + kStackBytes := by
          rw [length_words, hwords]
          omega
        obtain ⟨mem₃, hpoke, hM₃, hkept₃⟩ :=
          poke_store (m := m.setMem mem₂) (ho.setMem mem₂) hst hM₂
          (by omega) hbelow
        rw [store_words] at hM₃
        rw [if_neg hroom, Args.putVectors_eq hle, hptrs]
        rw [hptrs] at hM₃ hpoke
        refine ⟨mem₃, ?_, hM₃, fun a ha => (hkept₃ a ha).trans (hkept a ha)⟩
        have hset : (m.setMem mem₁).setMem mem₂ = m.setMem mem₂ := rfl
        rw [hset, hpoke]
        rfl

/-- **`build_stack`** leaves above the stack pointer what `_start` looks for. -/
theorem buildStack_starts (ho : m.OneToOne m.current) (hst : HasStack m) (ha : argv.length ≤ 16)
    (he : envp.length ≤ 32) (hs : ∀ s ∈ argv ++ envp, s.length < kCopyStr)
    (hz : ∀ s ∈ argv ++ envp, 0 ∉ s) :
    ∃ mem esp, buildStack m ⟨argv, envp⟩ = some (esp, m.setMem mem) ∧ kStackBase ≤ esp ∧
      esp < kStackBase + kStackBytes ∧
      (∀ M : Bytes, (∀ a, esp ≤ a → a < kStackBase + kStackBytes → (m.setMem mem).load m.current a =
        some (M a)) →
        Args.crt0 M esp = ⟨argv.length, argv, envp⟩) ∧
      ∀ a < kStackBase, (m.setMem mem).load m.current a = m.load m.current a := by
  obtain ⟨M, hM⟩ := exists_onStack ho hst
  obtain ⟨flat, hflat⟩ := Args.exists_flattened ha he hs hz
  obtain ⟨mem, hbuild, hM', hkept⟩ :=
    buildStack_refines ho hst hM hflat fun s h => lt_trans (hs s h) (by decide)
  obtain ⟨esp, M', hargs, hlo, hhi, -, hstays⟩ := Args.buildStack_stays (m := M) hflat ha he hs
  rw [hargs] at hbuild hM'
  refine ⟨mem, esp, hbuild, hlo, hhi, fun M'' h => (hstays M'' fun a h₁ h₂ => ?_).1, hkept⟩
  exact Option.some.inj ((h a h₁ h₂).symm.trans (hM' a (hlo.trans h₁) h₂))

end Kernel

/-! ## The program -/

namespace Elf

open Kernel

variable {H : Type} {f : List UInt8} {base pos : ℕ} {hs : List (ℕ × Phdr)} {fs : Files}
  {k : Kernel H} {e : OFile}
  {late : Mmu H → List UInt8} {fd : Fin kMaxFd} {ph : Bytes}

/-- What there is at an address once the segment is stored. -/
def Segment.put (s : Segment) (a : ℕ) (c : UInt8) : UInt8 :=
  if s.vaddr ≤ a ∧ a < s.vaddr + s.data.length then s.data.getD (a - s.vaddr) 0 else c

/-- What the segments leave at an address that was zero. -/
def imageByte (segs : List Segment) (a : ℕ) : UInt8 := segs.foldl (fun c s => s.put a c) 0

/-- Segments that fit go to the image. -/
theorem segments_bounds (hfits : Fits f hs pos) :
    ∀ s ∈ (segments f base hs pos).2, ∀ i < s.data.length,
    kAppBase ≤ s.vaddr + i ∧ s.vaddr + i < kAppBase + kCodeBytes := by
  induction hs generalizing pos with
  | nil => exact fun s hs => absurd hs List.not_mem_nil
  | cons x hs ih =>
    obtain ⟨j, h⟩ := x
    rw [Fits] at hfits
    by_cases hty : h.type.toNat ≠ kPtLoad
    · rw [if_pos hty] at hfits
      rw [segments, if_pos hty]
      exact ih hfits
    · rw [if_neg hty] at hfits
      by_cases hbig : h.TooBig
      · rw [segments, if_neg hty, if_pos hbig]
        exact fun s hs => absurd hs List.not_mem_nil
      · obtain ⟨hend, hrest⟩ := hfits.resolve_left hbig
        have hlow : kAppBase ≤ h.vaddr.toNat := Nat.not_lt.mp (not_or.mp hbig).1
        have hone : ∀ i < (fileRead f (seek pos h.offset.toNat) h.filesz.toNat).2.length,
            kAppBase ≤ h.vaddr.toNat + i ∧ h.vaddr.toNat + i < kAppBase + kCodeBytes := by
          intro i hi
          rw [length_fileRead] at hi
          have := hend (by omega)
          omega
        rw [segments_cons hty hbig rfl]
        intro s hs i hi
        split at hs
        · obtain rfl := List.mem_singleton.mp hs
          exact hone i hi
        · next hfull =>
          rcases List.mem_cons.mp hs with rfl | hs
          · exact hone i hi
          · rw [fileRead_fst] at hfull hs
            exact ih (hrest (not_not.mp hfull)) s hs i hi

/-- **The loop over the program headers**, in a space that has room for the segments. -/
theorem loadSegments_image (late : Mmu H → List UInt8) (fd : Fin kMaxFd) (ph : Bytes)
    (base : ℕ) (is : List ℕ)
    (hf : ∀ pos len, fs.read e.n pos len = fileRead f pos len)
    (ho : k.mmu.OneToOne k.mmu.current)
    (hall : (segments f base (is.map fun i => (i, phdr ph i)) e.pos).1 = true)
    (hin : ∀ s ∈ (segments f base (is.map fun i => (i, phdr ph i)) e.pos).2, ∀ i < s.data.length,
      (k.mmu.place k.mmu.current (s.vaddr + i)).isSome) :
    ∃ mem pos, loadSegments fs late fd ph is (k.opened fd e) =
        some (true, (k.setMmu (k.mmu.setMem mem)).opened fd { e with pos := pos }) ∧
      ∀ a c, k.mmu.load k.mmu.current a = some c → (k.mmu.setMem mem).load k.mmu.current a =
        some ((segments f base (is.map fun i => (i, phdr ph i)) e.pos).2.foldl
          (fun c s => s.put a c) c) := by
  induction is generalizing k e with
  | nil => exact ⟨k.mmu.mem, e.pos, rfl, fun a c hc => hc⟩
  | cons i is ih =>
    rw [List.map_cons] at hall hin ⊢
    rw [loadSegments_cons i is (phdr ph i) rfl]
    generalize phdr ph i = h at hall hin ⊢
    by_cases hty : h.type.toNat ≠ kPtLoad
    · rw [segments, if_pos hty] at hall hin ⊢
      rw [if_pos hty]
      exact ih hf ho hall hin
    · rw [if_neg hty]
      by_cases hbig : h.TooBig
      · rw [segments, if_neg hty, if_pos hbig] at hall
        exact absurd hall Bool.false_ne_true
      · obtain ⟨r, hr⟩ : ∃ r, fileRead f (seek e.pos h.offset.toNat) h.filesz.toNat = r := ⟨_, rfl⟩
        rw [if_neg hbig, loadSegment_opened hf hr]
        rw [segments_cons hty hbig hr] at hall hin ⊢
        by_cases hshort : r.1 ≠ toInt h.filesz.toNat
        · rw [if_pos hshort] at hall
          exact absurd hall Bool.false_ne_true
        · rw [if_neg hshort] at hall hin ⊢
          obtain ⟨mem₁, hpoke, hload₁⟩ :=
            Mmu.poke_spec _ _ ho fun j hj => hin _ List.mem_cons_self j hj
          obtain ⟨mem, pos, hrest, hload⟩ := ih (k := k.setMmu (k.mmu.setMem mem₁))
            (e := { e with pos := advance (seek e.pos h.offset.toNat) r.1 }) hf
            (ho.setMem mem₁) hall
              fun s hs => hin s (List.mem_cons_of_mem _ hs)
          refine ⟨mem, pos, ?_, fun a c hc => ?_⟩
          · rw [hpoke, Option.map_some, Option.bind_some]
            dsimp only
            rw [if_neg hshort, if_pos rfl]
            exact hrest
          · refine hload a _ ((hload₁ a).trans ?_)
            simp only [hc, Segment.put]
            by_cases ha : h.vaddr.toNat ≤ a ∧ a < h.vaddr.toNat + r.2.length
            · rw [if_pos ha, if_pos ha, List.getD_eq_getElem?_getD,
                List.getElem?_eq_getElem (by omega)]
              rfl
            · rw [if_neg ha, if_neg ha]

/-! ## The call -/

open Mmu

variable {k' : Kernel H} {m : Mmu H} {t : Task} {a : ExecArgs H} {n : Node}
  {argv envp : List (List UInt8)} {esp : ℕ}

/-- The program is in its image, and on its stack is what it was given. -/
structure Loaded (m : Mmu H) (sp : ℕ) (f : List UInt8) (argv envp : List (List UInt8))
    (esp : ℕ) : Prop where
  /-- The bytes of the image are the file's, and zero behind them. -/
  image : ∀ a, kAppBase ≤ a → a < kAppBase + kCodeBytes →
    m.load sp a = some (imageByte (segments f (headersAt f) (headers f) (start f)).2 a)
  /-- The stack pointer is on the stack, -/
  esp_ge : kStackBase ≤ esp
  /-- below its end. -/
  esp_lt : esp < kStackBase + kStackBytes
  /-- What `_start` finds there are the arguments. -/
  stack : ∃ M : Bytes, (∀ a, kStackBase ≤ a → a < kStackBase + kStackBytes →
    m.load sp a = some (M a)) ∧
    Args.crt0 M esp = ⟨argv.length, argv, envp⟩

/-- What the loader asks of the arguments: the strings are strings, and there are not too many nor
too long ones. -/
structure Fitting (argv envp : List (List UInt8)) : Prop where
  /-- There are sixteen arguments at most, -/
  argc : argv.length ≤ 16
  /-- and thirty-two variables. -/
  envc : envp.length ≤ 32
  /-- None is longer than its copy. -/
  short : ∀ s ∈ argv ++ envp, s.length < kCopyStr
  /-- There is no null in them. -/
  str : ∀ s ∈ argv ++ envp, 0 ∉ s

/-- The segments of the file are all there, and stay in the image. -/
structure Loadable (f : List UInt8) : Prop where
  /-- The headers are in the file. -/
  readable : Readable f
  /-- So are the bytes of the segments. -/
  complete : Complete f (headers f) (start f)
  /-- The segments are in the image. -/
  fits : Fits f (headers f) (start f)

theorem Fitting.copyArgs (h : Fitting argv envp) : copyArgs argv envp = some ⟨argv, envp⟩ := by
  rw [Kernel.copyArgs, if_pos]
  exact ⟨fun s hs => h.short s (List.mem_append_left envp hs),
    fun s hs => h.short s (List.mem_append_right argv hs)⟩

/-- **In the space of the task**: zeroes, the segments, and the stack. -/
theorem loadImage_loaded (late : Mmu H → List UInt8) (fd : Fin kMaxFd) (ph : Bytes)
    (ho : k.mmu.OneToOne k.mmu.current)
    (hplace : k.mmu.place k.mmu.current = spot t)
    (hr : ∀ pos len, fs.read n pos len = fileRead f pos len)
    (hph : (List.range (phnum (header f))).map (fun i => (i, phdr ph i)) = headers f)
    (hf : Loadable f) (hargs : Fitting argv envp) :
    ∃ mem esp pos, loadImage fs late fd (header f) ph ⟨argv, envp⟩ (k.opened fd ⟨n, start f, 0⟩) =
        some (esp, (k.setMmu (k.mmu.setMem mem)).opened fd ⟨n, pos, 0⟩) ∧
      Loaded (k.mmu.setMem mem) k.mmu.current f argv envp esp := by
  have happ : kAppBase = 0x40000000 := rfl
  have hcb : kCodeBytes = 0x40000 := rfl
  have hsb : kStackBase = 0x40100000 := rfl
  have hcode : ∀ a, kAppBase ≤ a → a < kAppBase + kCodeBytes →
      (k.mmu.place k.mmu.current a).isSome := by
    intro a h₁ h₂
    rw [hplace, spot, if_pos ⟨h₁, h₂⟩]
    rfl
  have hstack : ∀ a, kStackBase ≤ a → a < kStackBase + kStackBytes →
      (k.mmu.place k.mmu.current a).isSome := by
    intro a h₁ h₂
    rw [hplace, spot, if_neg (by omega), if_pos ⟨h₁, h₂⟩]
    rfl
  obtain ⟨mem₁, h₁, hl₁⟩ := poke_spec kAppBase (List.replicate kCodeBytes 0) ho fun i hi => by
    rw [List.length_replicate] at hi
    exact hcode _ (Nat.le_add_right _ _) (Nat.add_lt_add_left hi _)
  obtain ⟨mem₂, pos, h₂, hl₂⟩ := loadSegments_image (f := f) (k := k.setMmu (k.mmu.setMem mem₁))
    (e := ⟨n, start f, 0⟩) late fd ph (headersAt f) (List.range (phnum (header f))) hr
    (ho.setMem mem₁)
    (by rw [hph]; exact segments_fst_iff.mpr hf.complete)
    (by
      rw [hph]
      intro s hs i hi
      have := segments_bounds hf.fits s hs i hi
      exact hcode _ this.1 this.2)
  rw [hph] at hl₂
  obtain ⟨mem, esp, h₃, hge, hlt, hstart, hkeep⟩ :=
    buildStack_starts (m := k.mmu.setMem mem₂) (ho.setMem mem₂) hstack hargs.argc hargs.envc
      hargs.short hargs.str
  refine ⟨mem, esp, pos, ?_, ?_, hge, hlt,
    fun a => ((k.mmu.setMem mem).load k.mmu.current a).getD 0, ?_, ?_⟩
  · have hopen : (k.opened fd ⟨n, start f, 0⟩).mmu.poke kAppBase (List.replicate kCodeBytes 0) =
        some (k.mmu.setMem mem₁) := h₁
    have hne : esp ≠ 0 := by omega
    rw [loadImage, hopen]
    simp only
    rw [show ((k.opened fd ⟨n, start f, 0⟩).setMmu (k.mmu.setMem mem₁)) =
      (k.setMmu (k.mmu.setMem mem₁)).opened fd ⟨n, start f, 0⟩ from rfl, h₂]
    simp only
    have hbuild : buildStack
      (((k.setMmu (k.mmu.setMem mem₁)).setMmu ((k.setMmu (k.mmu.setMem mem₁)).mmu.setMem
        mem₂)).opened fd ⟨n, pos, 0⟩).mmu ⟨argv, envp⟩ = some (esp, k.mmu.setMem mem) := h₃
    rw [hbuild]
    simp only
    rw [if_neg hne]
    rfl
  · intro a hlo hhi
    have hzero : (k.mmu.setMem mem₁).load k.mmu.current a = some 0 := by
      rw [hl₁, List.length_replicate, if_pos ⟨hlo, hhi⟩, List.getElem?_replicate, if_pos (by omega)]
    have hseg : (k.mmu.setMem mem₂).load k.mmu.current a = _ := hl₂ a 0 hzero
    exact (hkeep a (by omega)).trans hseg
  · intro a hlo hhi
    have hsome : ((k.mmu.setMem mem).load k.mmu.current a).isSome := by
      rw [(ho.setMem mem).load_eq, Option.isSome_map]
      exact hstack a hlo hhi
    exact (Option.some_get hsome).symm.trans (congrArg some (Option.get_eq_getD _))
  · refine hstart _ fun a hlo hhi => ?_
    have hsome : ((k.mmu.setMem mem).load k.mmu.current a).isSome := by
      rw [(ho.setMem mem).load_eq, Option.isSome_map]
      exact hstack a (hge.trans hlo) hhi
    exact (Option.some_get hsome).symm.trans (congrArg some (Option.get_eq_getD _))

/-- `load_into` once the headers are read: all that changes is in the space of the task. -/
theorem loadProgram_loaded (fd : Fin kMaxFd) (ph : Bytes) (hs : (k.tasks k.current).sp ≠ 0)
    (hl : k.mmu.Linked (k.tasks k.current).sp)
    (hfree : ∀ a, k.mmu.place (k.tasks k.current).sp a = none) (hfr : Framed (k.tasks k.current))
    (hfd : k.fds fd = none) (hn : n.type = .fifo → n.internal = 0)
    (hr : ∀ pos len, fs.read n pos len = fileRead f pos len)
    (hph : (List.range (phnum (header f))).map (fun i => (i, phdr ph i)) = headers f)
    (hf : Loadable f) (hargs : Fitting a.argv a.envp) :
    ∃ tb mem esp, loadProgram fs a fd (header f) ph (k.opened fd ⟨n, start f, 0⟩) =
        some (some (startRegs (header f) esp), k.setMmu (((k.mmu.setTables tb).spaceSwitch
          (k.tasks k.current).sp).setMem mem)) ∧
      Loaded (((k.mmu.setTables tb).spaceSwitch (k.tasks k.current).sp).setMem mem)
        (k.tasks k.current).sp f a.argv a.envp esp := by
  set sp := (k.tasks k.current).sp with hsp
  obtain ⟨tb, hmap, ho, hplace⟩ := mapImage_spec hl hs hfree hfr
  have htask : ((k.opened fd ⟨n, start f, 0⟩).tasks k.current).sp = sp := by
    rw [opened, setFds_task, setFdTable_sp]
  have hmap' : mapImage (k.opened fd ⟨n, start f, 0⟩).mmu
      ((k.opened fd ⟨n, start f, 0⟩).tasks (k.opened fd ⟨n, start f, 0⟩).current) =
        (true, k.mmu.setTables tb) := by
    rw [← hmap, opened, setFds_current, setFds_task]
    rfl
  set k₁ := k.setMmu ((k.mmu.setTables tb).spaceSwitch sp) with hk₁
  have hswitch : ∀ m : Mmu H, (m.spaceSwitch sp).current = sp :=
    fun m => by rw [spaceSwitch, if_neg hs]
  have hsame : ∀ m : Mmu H, m.current = sp → m.spaceSwitch sp = m := by
    intro m hm
    rw [spaceSwitch, if_neg hs, ← hm]
  have hk₁m : k₁.mmu.place = (k.mmu.setTables tb).place ∧ k₁.mmu.walk =
      (k.mmu.setTables tb).walk := by
    rw [hk₁, setMmu_mmu, spaceSwitch, if_neg hs]
    exact ⟨rfl, rfl⟩
  have hcur : k₁.mmu.current = sp := hswitch _
  obtain ⟨mem, esp, pos, hload, hloaded⟩ := loadImage_loaded (k := k₁) a.late fd ph
    (by
      rw [hcur]
      refine ⟨fun x y p => ?_, fun x en => ?_⟩
      · rw [hk₁m.1]
        exact ho.inj x y p
      · rw [hk₁m.2]
        exact ho.user x en)
    (by rw [hcur, hk₁m.1]; exact hplace) hr hph hf hargs
  rw [hcur] at hloaded
  have hne : esp ≠ 0 := by
    have hsb : kStackBase = 0x40100000 := rfl
    have := hloaded.esp_ge
    omega
  refine ⟨tb, mem, esp, ?_, hloaded⟩
  have hopened : ((k.opened fd ⟨n, start f, 0⟩).setMmu (k.mmu.setTables tb)).setMmu
      (((k.opened fd ⟨n, start f, 0⟩).setMmu (k.mmu.setTables tb)).mmu.spaceSwitch sp) =
        k₁.opened fd ⟨n, start f, 0⟩ := rfl
  have hclosed : ((k₁.setMmu (k₁.mmu.setMem mem)).opened fd ⟨n, pos, 0⟩).fdClose fd =
      k₁.setMmu (k₁.mmu.setMem mem) := by
    rw [fdClose_eq, fds_opened, Function.update_idem, opened, setFds_setFds]
    · have hfds : (k₁.setMmu (k₁.mmu.setMem mem)).fds fd = none := hfd
      rw [← hfds, Function.update_eq_self, setFds_fds]
    · intro e' he'
      rw [fds_opened, Function.update_self] at he'
      rw [← Option.some.inj he']
      exact hn
  rw [loadProgram, hmap']
  simp only [Bool.not_true, Bool.false_eq_true, if_false]
  rw [hargs.copyArgs]
  simp only
  rw [show ((k.opened fd ⟨n, start f, 0⟩).tasks (k.opened fd ⟨n, start f, 0⟩).current).sp =
    sp from htask, hopened,
    hload]
  simp only
  rw [if_neg hne]
  have hstay : ((k₁.setMmu (k₁.mmu.setMem mem)).opened fd ⟨n, pos, 0⟩).mmu.spaceSwitch sp =
      k₁.mmu.setMem mem := hsame _ hcur
  rw [hstay]
  exact congrArg (fun k => some (some (startRegs (header f) esp), k)) hclosed

/-! ## The memory -/

section

variable [PageAlloc H]

/-- **`space_create`** makes a space in which nothing is present. -/
theorem spaceCreate_fresh (hp : HasPages m.heap 7) :
    ∃ m', m.spaceCreate = (pageAt m.heap 0, m') ∧ m'.heap = takePages m.heap 7 ∧
      m'.Linked (pageAt m.heap 0) ∧ ∀ a, m'.place (pageAt m.heap 0) a = none := by
  have hne : pageAt m.heap 5 ≠ pageAt m.heap 6 := by
    have hnodup := ((Grew.refl m.heap).takePages hp).nodup
    rw [List.append_nil] at hnodup
    intro he
    have hinj := List.inj_on_of_nodup_map hnodup (x := 5) (by decide) (y := 6) (by decide) he
    exact absurd hinj (by decide)
  refine ⟨_, spaceCreate_of_hasPages hp, rfl, ⟨fun h => ?_, ?_⟩, fun x => ?_⟩
  · rw [setSpace_spaces, Function.update_self]
    cases h <;> rfl
  · rw [setSpace_spaces, Function.update_self]
    exact hne
  · have hzero : ∀ h : Half,
      ((((m.setHeap (takePages m.heap 7)).setTable (pageAt m.heap 5) .zero).setTable
        (pageAt m.heap 6) .zero).tables
          ((⟨![pageAt m.heap 1, pageAt m.heap 2, pageAt m.heap 3, pageAt m.heap 4],
          pageAt m.heap 5, pageAt m.heap 6, pageAt m.heap 5, pageAt m.heap 6, 1,
          0⟩ : Space).link h)) = Table.zero := by
      intro h
      cases h with
      | code =>
        simp only [Space.link, setTable_tables]
        rw [Function.update_of_ne hne, Function.update_self]
      | heap =>
        simp only [Space.link, setTable_tables]
        rw [Function.update_self]
    rw [place, walk, setSpace_spaces, Function.update_self]
    cases userTable x with
    | none => rfl
    | some h =>
      rw [Option.map_some, Option.bind_some, setSpace_tables, hzero h]
      rfl

/-- **`give_frames`** gives runs of pages that are apart. -/
theorem giveFrames_framed (m : Mmu H) (t : Task) (hf : HasFrames m.heap) :
    ∃ code stack heap h, giveFrames m t = (true, setFrames t code stack heap, m.setHeap h) ∧
      Framed (setFrames t code stack heap) := by
  have hcn : kCodeBytes / 4096 < 2 ^ 16 := by decide
  have hsn : kStackBytes / 4096 < 2 ^ 16 := by decide
  have han : kArenaBytes / 4096 < 2 ^ 16 := by decide
  set code := allocN m.heap (kCodeBytes / 4096) with hcode
  set stack := allocN code.2 (kStackBytes / 4096) with hstack
  set heap := allocN stack.2 (kArenaBytes / 4096) with hheap
  obtain ⟨h1, h2, h3⟩ : code.1 ≠ 0 ∧ stack.1 ≠ 0 ∧ heap.1 ≠ 0 := by simpa [HasFrames] using hf
  have hlc : live code.2 code.1 = some kCodeBytes := by
    rw [hcode, allocN_live _ _ hcn h1, Function.update_self]
    rfl
  have hls : live stack.2 stack.1 = some kStackBytes := by
    rw [hstack, allocN_live _ _ hsn h2, Function.update_self]
    rfl
  have hne : code.1 ≠ stack.1 := by
    intro he
    have := allocN_fresh code.2 _ hsn h2
    rw [← hstack, ← he, hlc] at this
    cases this
  have hlc' : live stack.2 code.1 = some kCodeBytes := by
    rw [hstack, allocN_live _ _ hsn h2, Function.update_of_ne hne, hlc]
  refine ⟨code.1, stack.1, heap.1, heap.2, if_neg hf, allocN_dvd _ _ hcn, allocN_dvd _ _ hsn,
    allocN_dvd _ _ han,
    ?_, ?_, ?_⟩
  · exact allocN_apart code.2 _ hsn h2 _ _ hlc
  · exact allocN_apart stack.2 _ han h3 _ _ hlc'
  · exact allocN_apart stack.2 _ han h3 _ _ hls

/-- Giving another space back leaves this one as it is. -/
theorem load_spaceDestroy (m : Mmu H) {s sp : ℕ} (hne : sp ≠ s) :
    (m.spaceDestroy s).load sp = m.load sp := by
  by_cases h : s = 0 ∨ s = m.boot
  · rw [spaceDestroy, if_pos h]
  · obtain ⟨h0, hb⟩ := not_or.mp h
    obtain ⟨m', hm, -, hspaces, htables, hmem, -⟩ := spaceDestroy_eq m h0 hb
    funext x
    rw [hm, Mmu.load, Mmu.load, walk, walk, hspaces sp hne, htables, hmem]

omit [PageAlloc H] in
theorem Loaded.congr {m' : Mmu H} {sp : ℕ} (h : Loaded m sp f argv envp esp)
    (hl : m'.load sp = m.load sp) :
    Loaded m' sp f argv envp esp where
  image := by rw [hl]; exact h.image
  esp_ge := h.esp_ge
  esp_lt := h.esp_lt
  stack := by rw [hl]; exact h.stack

/-- A process whose program was loaded runs it from its entry. -/
structure Started (k : Kernel H) (f : List UInt8) (argv envp : List (List UInt8)) : Prop where
  /-- Its space is the active one. -/
  active : k.mmu.current = (k.tasks k.current).sp
  /-- It is in user mode, -/
  user : (k.tasks k.current).regs.fromUser = true
  /-- at the entry. -/
  eip : (k.tasks k.current).regs.eip.toNat = entry (header f)
  /-- The program and its arguments are there. -/
  loaded : Loaded k.mmu (k.tasks k.current).sp f argv envp (k.tasks k.current).regs.userEsp.toNat

/-- What `replace` gives back at the end is not in the new space. -/
theorem commit_started {old : Task} (h0 : (k.tasks k.current).sp ≠ 0)
    (hne : (k.tasks k.current).sp ≠ old.sp)
    (hcur : k.mmu.current = (k.tasks k.current).sp)
    (hloaded : Loaded k.mmu (k.tasks k.current).sp f argv envp esp) :
    Started (k.commit a old (startRegs (header f) esp)) f argv envp := by
  have hswitch : k.mmu.spaceSwitch (k.tasks k.current).sp = k.mmu := by
    rw [spaceSwitch, if_neg h0, ← hcur]
  have hregs : (startRegs (header f) esp).userEsp.toNat = esp := by
    have hlt := hloaded.esp_lt
    have hsb : kStackBase = 0x40100000 := rfl
    have hss : kStackBytes = 0x10000 := rfl
    change (UInt32.ofNat esp).toNat = esp
    rw [UInt32.toNat_ofNat', Nat.mod_eq_of_lt (by omega)]
  have hentry : (startRegs (header f) esp).eip.toNat = entry (header f) := by
    change (UInt32.ofNat (entry (header f))).toNat = entry (header f)
    rw [UInt32.toNat_ofNat']
    exact Nat.mod_eq_of_lt (r32_lt _ _)
  set k' := k.commit a old (startRegs (header f) esp) with hk'
  have htask : ∃ name, k'.tasks k'.current = startImage (k.tasks k.current)
    (startRegs (header f) esp) name :=
    ⟨_, Function.update_self _ _ _⟩
  obtain ⟨name, htask⟩ := htask
  have hmmu : k'.mmu.current = (k.tasks k.current).sp ∧
      k'.mmu.load (k.tasks k.current).sp = k.mmu.load (k.tasks k.current).sp := by
    rw [hk', commit, setTask_mmu, setMmu_mmu, hswitch, ← hcur]
    rw [← hcur] at hne
    split
    · exact ⟨spaceDestroy_current k.mmu old.sp, load_spaceDestroy k.mmu hne⟩
    · exact ⟨spaceDestroy_current k.mmu old.sp, load_spaceDestroy k.mmu hne⟩
  refine ⟨?_, ?_, ?_, ?_⟩
  · rw [htask]
    exact hmmu.1
  · rw [htask]
    change ((0x1B : UInt32) &&& 3 == 3) = true
    decide
  · rw [htask]
    exact hentry
  · rw [htask]
    change Loaded k'.mmu (k.tasks k.current).sp f argv envp (startRegs (header f) esp).userEsp.toNat
    rw [hregs]
    exact hloaded.congr hmmu.2

/-- **A program is started.** If there is memory, a descriptor is free and the path leads to a file
that is complete and fits, `replace` with arguments of the allowed number and length succeeds: the
process has the program of the file in its image and nothing else, and `_start` finds the arguments
and the environment on the stack. -/
theorem replace_starts (hrun : Running k) (hpages : HasPages k.mmu.heap 7)
    (hframes : HasFrames (takePages k.mmu.heap 7)) (hpath : fs.resolve a.path = some n)
    (hfd : ∃ fd, k.fds fd = none)
    (hr : ∀ pos len, fs.read n pos len = fileRead f pos len) (hf : Loadable f)
    (hargs : Fitting a.argv a.envp) :
    ∃ k', replace fs k a = some (true, k') ∧ Started k' f a.argv a.envp := by
  set old := k.tasks k.current with hold
  obtain ⟨m, hcreate, hheap, hl, hfree⟩ := spaceCreate_fresh hpages
  set sp := pageAt k.mmu.heap 0 with hsp
  have hsp0 : sp ≠ 0 := hpages.1
  have hne : sp ≠ old.sp := (hpages.ne_of_live hrun.live).2 0 (by decide)
  obtain ⟨code, stack, heap, h, hgive, hframed⟩ :=
    giveFrames_framed m (setSp old sp) (hheap.symm ▸ hframes)
  set k₁ := (k.setMmu (m.setHeap h)).setTask k.current (imaged old sp code stack heap) with hk₁
  have htask : k₁.tasks k₁.current = imaged old sp code stack heap := Function.update_self _ _ _
  have hfds : k₁.fds = k.fds := by
    rw [fds, htask]
    rfl
  -- the lowest descriptor that is free
  obtain ⟨fd, hfind⟩ : ∃ fd, (List.finRange kMaxFd).find? (fun i => (k.fds i).isNone) =
      some fd := by
    obtain ⟨fd, hfd⟩ := hfd
    refine Option.isSome_iff_exists.mp (List.find?_isSome.mpr ⟨fd, List.mem_finRange fd, ?_⟩)
    rw [hfd]
    rfl
  have hopen : fdOpen fs k₁ a.path = (some fd, k₁.opened fd ⟨n, 0, 0⟩) := by
    simp only [fdOpen, hpath, hfds, hfind]
    rfl
  have hnone : k₁.fds fd = none := by
    rw [hfds]
    exact Option.isNone_iff_eq_none.mp (List.find?_some (p := fun i => (k.fds i).isNone) hfind)
  have hsp₁ : (k₁.tasks k₁.current).sp = sp := by
    rw [htask]
    rfl
  have hl₁ : k₁.mmu.Linked sp := ⟨hl.link, hl.ne⟩
  have hfree₁ : ∀ x, k₁.mmu.place sp x = none := hfree
  have hframed₁ : Framed (imaged old sp code stack heap) :=
    ⟨hframed.code, hframed.stack, hframed.heap,
    hframed.code_stack, hframed.code_heap, hframed.stack_heap⟩
  obtain ⟨tb, mem, esp, hload, hloaded⟩ := loadProgram_loaded (k := k₁) (a := a) (n := n) fd
    (record (fileRead f (Elf.headersAt f) (phnum (header f) * phdrBytes)).2)
    (hsp₁ ▸ hsp0) (hsp₁.symm ▸ hl₁)
    (hsp₁.symm ▸ hfree₁) (htask.symm ▸ hframed₁) hnone (fs.resolve_pipe _ _ hpath) hr rfl hf hargs
  rw [hsp₁] at hload hloaded
  have hinto : loadInto fs k₁ a = some (some (startRegs (header f) esp), _) :=
    (loadInto_readable (by have := hargs.argc; omega) hopen hr hf.readable).trans hload
  set m₂ := ((k₁.mmu.setTables tb).spaceSwitch sp).setMem mem with hm₂
  refine ⟨(k₁.setMmu m₂).commit a old (startRegs (header f) esp), ?_, ?_⟩
  · rw [Kernel.replace]
    dsimp only
    rw [if_neg hrun.ne_zero, hcreate]
    dsimp only
    rw [if_neg hsp0, hgive]
    simp only [Bool.not_true, Bool.false_eq_true, if_false]
    rw [show (k.setMmu (m.setHeap h)).setTask k.current
      (setOwns (setFrames (setSp old sp) code stack heap)) = k₁
      from rfl, hinto]
  · have hsp₂ : ((k₁.setMmu m₂).tasks (k₁.setMmu m₂).current).sp = sp := hsp₁
    have hcur : m₂.current = sp := by
      rw [hm₂, spaceSwitch, if_neg hsp0]
      rfl
    exact commit_started (hsp₂.trans_ne hsp0) (hsp₂.trans_ne hne) (hcur.trans hsp₂.symm)
      (hsp₂.symm ▸ hloaded)

end

/-- A header, with two of its bytes as the program. -/
def tiny : List UInt8 :=
  [0x7F, 0x45, 0x4C, 0x46, 1, 1, 1, 0, 0, 0, 0, 0, 0, 0, 0, 0, 2, 0, 3, 0, 1,
    0, 0, 0, 0, 0, 0, 0x40,
    52, 0, 0, 0, 0, 0, 0, 0, 0, 0, 0, 0, 52, 0, 32, 0, 1, 0, 0, 0, 0, 0, 0, 0] ++
  [1, 0, 0, 0, 0, 0, 0, 0, 0, 0, 0, 0x40, 0, 0, 0, 0, 2, 0, 0, 0, 4, 0, 0, 0, 5,
    0, 0, 0, 0, 0x10, 0, 0]

/-- A file system with this file. -/
def oneFile : Files where
  resolve _ := some ⟨[], 5, .file, 84, 0, .ext⟩
  read _ pos len := fileRead tiny pos len
  write _ _ _ := (-1, 0)
  size _ := none
  resolve_pipe p n h ht := by
    obtain rfl := Option.some.inj h
    cases ht

theorem segments_tiny : segments tiny (Elf.headersAt tiny) (headers tiny) (start tiny) =
    (true, [⟨0, 52, 0x40000000, [0x7F, 0x45]⟩]) := by
  decide +kernel

theorem loadable_tiny : Loadable tiny where
  readable := by decide +kernel
  complete := segments_fst_iff.mp (congrArg Prod.fst segments_tiny)
  fits := by
    refine (@segments_inside_iff _ (Elf.headersAt tiny) _ _).mp fun s hs => ?_
    rw [segments_tiny] at hs
    obtain rfl := List.mem_singleton.mp hs
    intro i hi
    have hi : i < 2 := hi
    have happ : kAppBase = 0x40000000 := rfl
    have hcb : kCodeBytes = 0x40000 := rfl
    dsimp only
    omega

theorem replace_starts_tiny : ∃ k', replace oneFile (execCaller true) ⟨text "/bin/a", fun _ => [],
      [[97]], [[65, 61, 49]]⟩ =
    some (true, k') ∧ Started k' tiny [[97]] [[65, 61, 49]] := by
  refine replace_starts (running_execCaller true) (by decide +kernel) ?_ rfl ⟨3,
    rfl⟩ (fun _ _ => rfl) loadable_tiny
    ⟨by decide, by decide, by decide, by decide⟩
  unfold HasFrames
  decide +kernel

end Elf

end Aurisys
