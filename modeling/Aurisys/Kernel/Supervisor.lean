import Aurisys.Kernel.Exec
import Aurisys.Kernel.Isolation
import Aurisys.Kernel.Signal

/-!
# What the kernel stores in user memory

A call that has a result in memory, and the delivery of a signal, store through pointers into the
user half of the active space. The kernel runs with the write protection of the processor off, so
these stores go through entries that are read only, and no fault asks for a copy.

## Scope

The addresses a call stores to are addresses of the user half: `none` stands for a store to a page
that is not mapped there, which is a fault in the kernel.

## Main definitions

* `UserStore` — the calls that store in user memory, and `UserStore.blocks`, what they store
* `Mmu.userStore` — such a call, made by the process of a space
* `Reaches` — spaces, user code and such calls, in any order

## Main results

* `userStore_isolated_iff` — when the other spaces do not notice
-/

namespace Aurisys

open Bytes Pages

namespace Paging

variable {H : Type}

/-! ## The calls -/

/-- The calls that store in the memory of the caller, with what they found out. -/
inductive UserStore where
  | read (buf : ℕ) (data : List UInt8)
  | readdir (d : ℕ) (name : List UInt8) (inode size : ℕ) (type : UInt8)
  | pipe (out r w : ℕ)
  | fstat (s inode size : ℕ) (type : UInt8)
  | cwd (buf : ℕ) (path : List UInt8)
  | statfs (s : ℕ) (fields : Fin 8 → ℕ)
  | meminfo (m total used free : ℕ)
  | uptime (p ms : ℕ)
  | ioctl (arg : ℕ) (data : List UInt8)
  | wait (p code : ℕ)
  | sigaction (old handler mask : ℕ)
  /-- `deliver`, with the registers of the process. -/
  | deliver (r : Registers) (sig : UInt32)

open Kernel (word)
open Signal (sigframeBytes pushSigframe)

/-- What is stored, block by block. -/
def UserStore.blocks : UserStore → List (ℕ × List UInt8)
  | .read buf data => [(buf, data)]
  | .readdir d name inode size type =>
    [(d, name.take 63 ++ [0]), (d + 64, word inode ++ word size ++ [type])]
  | .pipe out r w => [(out, word r ++ word w)]
  | .fstat s inode size type => [(s, word inode ++ word size ++ [type])]
  | .cwd buf path => [(buf, path ++ [0])]
  | .statfs s fields => [(s, (List.ofFn fields).flatMap word)]
  | .meminfo m total used free => [(m, word total ++ word used ++ word free)]
  | .uptime p ms => [(p, word ms)]
  | .ioctl arg data => [(arg, data)]
  | .wait p code => [(p, word code)]
  | .sigaction old handler mask => [(old, word handler ++ word 0 ++ word mask)]
  | .deliver r sig =>
    let fp := (r.userEsp &&& ~~~3).toNat - sigframeBytes
    [(fp, (List.range sigframeBytes).map fun i => pushSigframe (fun _ => 0) fp r sig (fp + i))]

/-- What is stored, byte by byte, each with its address. -/
def UserStore.bytes (c : UserStore) : List (UInt8 × ℕ) := c.blocks.flatMap fun b => b.2.zipIdx b.1

namespace Mmu

/-- One block after the other. -/
def pokes (m : Mmu H) : List (ℕ × List UInt8) → Option (Mmu H)
  | [] => some m
  | (va, vs) :: bs => (m.poke va vs).bind fun m => m.pokes bs

/-- The call is made while the space `s` is active. -/
def userStore (m : Mmu H) (s : ℕ) (c : UserStore) : Option (Mmu H) :=
  (m.spaceSwitch s).pokes c.blocks

/-- The byte of memory behind an address of a space. -/
def byteAt (m : Mmu H) (s va : ℕ) : Option ℕ := (m.walk s va).map fun e => e.frame + va % 4096

end Mmu

/-! ## What is in memory afterwards -/

variable {m m' m'' : Mmu H} {s : ℕ} {ws ws' : List (UInt8 × ℕ)}

/-- The byte `v` is stored at `va`, and nothing else is stored there later. -/
def LastStore (m : Mmu H) (s : ℕ) (ws : List (UInt8 × ℕ)) (v : UInt8) (va : ℕ) : Prop :=
  ∃ pre post, ws = pre ++ (v, va) :: post ∧ ∀ w ∈ post, m.byteAt s w.2 ≠ m.byteAt s va

/-- The memory after the stores `ws`: each byte is the last one stored there. -/
structure Stored (m : Mmu H) (s : ℕ) (ws : List (UInt8 × ℕ)) (m' : Mmu H) : Prop where
  /-- Only the memory has changed. -/
  eq : m' = m.setMem m'.mem
  /-- Every store was to a page. -/
  present : ∀ w ∈ ws, ∃ e, m.walk s w.2 = some e ∧ e.present = true
  /-- A byte is as it was, or the last one stored there. -/
  mem : ∀ a, (∀ w ∈ ws, m.byteAt s w.2 ≠ some a) ∧ m'.mem a = m.mem a ∨
    ∃ va, m.byteAt s va = some a ∧ LastStore m s ws (m'.mem a) va

/-- Only one byte is the last one stored at a place. -/
theorem LastStore.unique {v v' : UInt8} {va va' : ℕ} (h : LastStore m s ws v va)
    (h' : LastStore m s ws v' va') (he : m.byteAt s va = m.byteAt s va') : v = v' := by
  obtain ⟨pre, post, rfl, hpost⟩ := h
  obtain ⟨pre', post', heq, hpost'⟩ := h'
  rcases List.append_eq_append_iff.mp heq with ⟨as, -, has⟩ | ⟨bs, -, hbs⟩
  · cases as with
    | nil => exact congrArg Prod.fst (List.cons.inj has).1
    | cons a as =>
      refine absurd he.symm (hpost (v', va') ?_)
      rw [(List.cons.inj has).2]
      simp
  · cases bs with
    | nil => exact (congrArg Prod.fst (List.cons.inj hbs).1).symm
    | cons b bs =>
      refine absurd he (hpost' (v, va) ?_)
      rw [(List.cons.inj hbs).2]
      simp

theorem Stored.nil (m : Mmu H) (s : ℕ) : Stored m s [] m :=
  ⟨rfl, by simp, fun a => Or.inl ⟨by simp, rfl⟩⟩

theorem Stored.walk (h : Stored m s ws m') (va : ℕ) : m'.walk s va = m.walk s va := by
  rw [h.eq]
  rfl

theorem Stored.byteAt (h : Stored m s ws m') (va : ℕ) : m'.byteAt s va = m.byteAt s va :=
  congrArg (Option.map fun e : Pte => e.frame + va % 4096) (h.walk va)

theorem Stored.trans (h : Stored m s ws m') (h' : Stored m' s ws' m'') :
    Stored m s (ws ++ ws') m'' := by
  refine ⟨?_, fun w hw => ?_, fun a => ?_⟩
  · rw [h'.eq, h.eq]
    rfl
  · rcases List.mem_append.mp hw with hw | hw
    · exact h.present w hw
    · rw [← h.walk]
      exact h'.present w hw
  · rcases h'.mem a with ⟨hno, he⟩ | ⟨va, hva, pre, post, rfl, hlast⟩
    · simp only [h.byteAt] at hno
      rcases h.mem a with ⟨hno', he'⟩ | ⟨va, hva, pre, post, hws, hlast⟩
      · refine Or.inl ⟨fun w hw => ?_, he.trans he'⟩
        rcases List.mem_append.mp hw with hw | hw
        · exact hno' w hw
        · exact hno w hw
      · refine Or.inr ⟨va, hva, pre, post ++ ws', ?_, fun w hw => ?_⟩
        · rw [he]
          nth_rewrite 1 [hws]
          rw [List.append_assoc, List.cons_append]
        · rcases List.mem_append.mp hw with hw | hw
          · exact hlast w hw
          · rw [hva]
            exact hno w hw
    · simp only [h.byteAt] at hva hlast
      exact Or.inr ⟨va, hva, ws ++ pre, post, (List.append_assoc _ _ _).symm, hlast⟩

/-- One byte. -/
theorem Stored.one {va : ℕ} {v : UInt8} {e : Pte} (hw : m.walk s va = some e)
    (hp : e.present = true) :
    Stored m s [(v, va)] (m.setMem (Function.update m.mem (e.frame + va % 4096) v)) := by
  have hb : m.byteAt s va = some (e.frame + va % 4096) := by rw [Mmu.byteAt, hw]; rfl
  refine ⟨rfl, fun w hw' => ?_, fun a => ?_⟩
  · rw [List.mem_singleton.mp hw']
    exact ⟨e, hw, hp⟩
  by_cases ha : a = e.frame + va % 4096
  · subst ha
    refine Or.inr ⟨va, hb, [], [], ?_, by simp⟩
    rw [Mmu.setMem_mem, Function.update_self]
    rfl
  · refine Or.inl ⟨fun w hw' => ?_, Function.update_of_ne ha _ _⟩
    rw [List.mem_singleton.mp hw', hb]
    exact fun h => ha (Option.some.inj h).symm

theorem Stored.poke {va : ℕ} {vs : List UInt8} (h : m.poke va vs = some m') :
    Stored m m.current (vs.zipIdx va) m' := by
  induction vs generalizing m va with
  | nil =>
    obtain rfl := Option.some.inj h
    exact .nil m _
  | cons v vs ih =>
    rw [Mmu.poke] at h
    cases hw : m.walk m.current va with
    | none =>
      rw [hw] at h
      cases h
    | some e =>
      rw [hw] at h
      simp only at h
      split at h
      · next hp =>
        rw [List.zipIdx_cons]
        exact (Stored.one hw hp).trans (ih h)
      · cases h

theorem Stored.pokes {bs : List (ℕ × List UInt8)} (h : m.pokes bs = some m') :
    Stored m m.current (bs.flatMap fun b => b.2.zipIdx b.1) m' := by
  induction bs generalizing m with
  | nil =>
    obtain rfl := Option.some.inj h
    exact .nil m _
  | cons b bs ih =>
    obtain ⟨va, vs⟩ := b
    obtain ⟨m₁, h₁, h₂⟩ := Option.bind_eq_some_iff.mp h
    have hp := Stored.poke h₁
    have hcur : m₁.current = m.current := by
      rw [hp.eq]
      rfl
    rw [List.flatMap_cons]
    have := ih h₂
    rw [hcur] at this
    exact hp.trans this

/-- **A call** stores its bytes through the tables of the caller. -/
theorem Stored.userStore {c : UserStore} (hs : s ≠ 0) (h : m.userStore s c = some m') :
    Stored { m with current := s } s c.bytes m' := by
  have hsw : m.spaceSwitch s = { m with current := s } := if_neg hs
  rw [Mmu.userStore, hsw] at h
  exact Stored.pokes h

/-! ## Systems with such calls -/

variable [PageAlloc H]

/-- The systems that events and calls lead to. -/
inductive Reaches (m₀ : Mmu H) : Sys H → Prop where
  | start : Reaches m₀ ⟨m₀, ∅⟩
  | step {σ σ' : Sys H} {e : Event} (hr : Reaches m₀ σ) (hst : Step σ e σ') : Reaches m₀ σ'
  | call {σ : Sys H} {s : ℕ} {c : UserStore} {m' : Mmu H} (hr : Reaches m₀ σ) (hs : s ∈ σ.live)
      (hc : σ.m.userStore s c = some m') : Reaches m₀ ⟨m', σ.live⟩

variable {ty : ℕ → Option (Kind ℕ)} {S : Finset ℕ} {σ : Sys H} {m₀ : Mmu H}

/-- Which space is active and what is in memory is not part of the invariant. -/
theorem Iso.congr {cur : ℕ} {mem : Bytes} (hi : Iso m ty S) :
    Iso { m with current := cur, mem := mem } ty S :=
  ⟨hi.wf.congr rfl rfl rfl, hi.ro, hi.data, hi.cow, hi.once⟩

theorem Iso.call {c : UserStore} (hi : Iso m ty S) (hs : s ∈ S)
    (hc : m.userStore s c = some m') : Iso m' ty S := by
  rw [(Stored.userStore (hi.wf.ne_zero hs) hc).eq]
  exact hi.congr

theorem Reaches.iso (hr : Reaches m₀ σ) : ∃ ty, Iso σ.m ty σ.live := by
  induction hr with
  | start => exact ⟨_, iso_empty m₀⟩
  | @step σ σ' e _ hst ih =>
    obtain ⟨ty, hi⟩ := ih
    obtain ⟨ty', hi', -⟩ := hi.step (A := fun s va => σ.m.load s va) (fun _ _ _ => rfl) hst
    exact ⟨ty', hi'⟩
  | call _ hs hc ih =>
    obtain ⟨ty, hi⟩ := ih
    exact ⟨ty, hi.call hs hc⟩

theorem walk_eq (hw : Wf id m ty S) (hs : s ∈ S) (va : ℕ) : m.walk s va =
    (Mmu.userTable va).map fun h => entry m s h (Mmu.pteIndex va) := by
  rw [Mmu.walk]
  cases Mmu.userTable va with
  | none => rfl
  | some h =>
    rw [Option.map_some, Option.map_some, hw.link s hs h]
    rfl

omit [PageAlloc H] in
/-- The address with another offset in the same page. -/
theorem walk_offset (m : Mmu H) (s va : ℕ) {off : ℕ} (hoff : off < 4096) :
    m.walk s (Mmu.pageOf va + off) = m.walk s va ∧ (Mmu.pageOf va + off) % 4096 = off := by
  have hp : Mmu.pageOf (Mmu.pageOf va + off) = Mmu.pageOf va := by
    rw [Mmu.pageOf, Mmu.pageOf]
    omega
  refine ⟨?_, by rw [Mmu.pageOf]; omega⟩
  rw [Mmu.walk, Mmu.walk, ← userTable_pageOf, ← pteIndex_pageOf, hp, userTable_pageOf,
    pteIndex_pageOf]

/-- No other live space has the frame of the entry. -/
def Private (σ : Sys H) (s : ℕ) (e : Pte) : Prop :=
  ∀ x ∈ σ.live, x ≠ s → ∀ va e', σ.m.walk x va = some e' → e'.present = true → e'.frame ≠ e.frame

/-- A page that can be written is nobody else's. -/
theorem Iso.private_of_rw {σ : Sys H} (hi : Iso σ.m ty σ.live) (hs : s ∈ σ.live) {va : ℕ} {e : Pte}
    (hw : σ.m.walk s va = some e) (hp : e.present = true) (hrw : e.rw = true) : Private σ s e := by
  intro x hx hne va' e' hw' hp' hf
  rw [walk_eq hi.wf hs] at hw
  rw [walk_eq hi.wf hx] at hw'
  obtain ⟨h, -, rfl⟩ := Option.map_eq_some_iff.mp hw
  obtain ⟨h', -, rfl⟩ := Option.map_eq_some_iff.mp hw'
  exact hne (hi.once s hs h _ hp hrw x hx h' _ hp' hf).1

theorem Iso.isolated_iff {σ : Sys H} {c : UserStore} (hi : Iso σ.m ty σ.live) (hs : s ∈ σ.live)
    (hc : σ.m.userStore s c = some m') :
    (∀ x ∈ σ.live, x ≠ s → ∀ va, m'.load x va = σ.m.load x va) ↔
      ∀ v va e, LastStore σ.m s c.bytes v va → σ.m.walk s va = some e →
        e.rw = true ∨ Private σ s e ∨ σ.m.mem (e.frame + va % 4096) = v := by
  have hst := Stored.userStore (hi.wf.ne_zero hs) hc
  have hwalk : ∀ x va, m'.walk x va = σ.m.walk x va := fun x va => by
    rw [hst.eq]
    rfl
  have hload : ∀ (m : Mmu H) x va e, m.walk x va = some e → e.present = true → e.user = true →
      m.load x va = some (m.mem (e.frame + va % 4096)) := fun m x va e hw hp hu => by
    simp only [Mmu.load, hw, hp, hu, Bool.and_self, if_true]
  have hentry : ∀ x ∈ σ.live, ∀ va e, σ.m.walk x va = some e → e.present = true →
      4096 ∣ e.frame ∧ e.user = true := by
    intro x hx va e hw hp
    rw [walk_eq hi.wf hx] at hw
    obtain ⟨h, -, rfl⟩ := Option.map_eq_some_iff.mp hw
    exact (hi.data x hx h _ hp).2
  constructor
  · intro hsame v va e hlast hw
    by_contra hno
    rw [not_or, not_or] at hno
    obtain ⟨hrw, hpriv, hne⟩ := hno
    rw [Private] at hpriv
    push Not at hpriv
    obtain ⟨x, hx, hxs, va', e', hw', hp', hf⟩ := hpriv
    -- the other space reads the byte at the same offset of its page
    obtain ⟨hwo, hoff⟩ := walk_offset σ.m x va' (Nat.mod_lt va (by decide : 0 < 4096))
    have hw₁ : σ.m.walk x (Mmu.pageOf va' + va % 4096) = some e' := hwo.trans hw'
    have hl := hsame x hx hxs (Mmu.pageOf va' + va % 4096)
    have hu := (hentry x hx va' e' hw' hp').2
    rw [hload m' _ _ e' ((hwalk _ _).trans hw₁) hp' hu, hload σ.m _ _ e' hw₁ hp' hu, hoff, hf] at hl
    have hl := Option.some.inj hl
    refine hne (hl.symm.trans ?_)
    have hb : Mmu.byteAt { σ.m with current := s } s va = some (e.frame + va % 4096) :=
      (congrArg (Option.map fun e : Pte => e.frame + va % 4096) hw : _)
    rcases hst.mem (e.frame + va % 4096) with ⟨hnone, -⟩ | ⟨va₁, hva₁, hlast₁⟩
    · obtain ⟨pre, post, hws, -⟩ := hlast
      exact absurd hb (hnone (v, va) (by rw [hws]; simp))
    · exact LastStore.unique hlast₁ hlast (hva₁.trans hb.symm)
  · intro hok x hx hxs va
    cases hw : σ.m.walk x va with
    | none =>
      rw [Mmu.load, Mmu.load, hwalk, hw]
    | some e =>
      by_cases hp : e.present = true
      swap
      · simp only [Mmu.load, hwalk, hw, hp, Bool.false_and, if_false, Bool.false_eq_true]
      obtain ⟨hdvd, hu⟩ := hentry x hx va e hw hp
      rw [hload m' _ _ e ((hwalk _ _).trans hw) hp hu, hload σ.m _ _ e hw hp hu]
      refine congrArg some ?_
      rcases hst.mem (e.frame + va % 4096) with ⟨-, he⟩ | ⟨va₁, hva₁, hlast⟩
      · exact he
      · obtain ⟨e₁, hw₁, he₁⟩ := Option.map_eq_some_iff.mp hva₁
        have hp₁ : e₁.present = true := by
          obtain ⟨pre, post, hws, -⟩ := hlast
          obtain ⟨e₂, hw₂, hp₂⟩ := hst.present (m'.mem (e.frame + va % 4096), va₁) (by
            rw [hws]
            simp)
          obtain rfl : e₁ = e₂ := Option.some.inj (hw₁.symm.trans hw₂)
          exact hp₂
        have hdvd₁ := (hentry s hs va₁ e₁ hw₁ hp₁).1
        have hframe : e.frame = e₁.frame := by omega
        rcases hok _ va₁ e₁ hlast hw₁ with hrw | hpriv | hv
        · exact absurd hframe (hi.private_of_rw hs hw₁ hp₁ hrw x hx hxs va e hw hp)
        · exact absurd hframe (hpriv x hx hxs va e hw hp)
        · rw [he₁] at hv
          exact hv.symm

/-- **Kernel stores and copy on write.** In every system a run leads to, a call that stores in the
memory of its caller leaves what every other space reads as it was just when each byte it leaves
there is in a page the caller may write, or in one that no other space has, or was there before. -/
theorem userStore_isolated_iff {m₀ m' : Mmu H} {σ : Sys H} {s : ℕ} {c : UserStore}
    (hr : Reaches m₀ σ) (hs : s ∈ σ.live) (hc : σ.m.userStore s c = some m') :
    (∀ x ∈ σ.live, x ≠ s → ∀ va, m'.load x va = σ.m.load x va) ↔
      ∀ v va e, LastStore σ.m s c.bytes v va → σ.m.walk s va = some e →
        e.rw = true ∨ Private σ s e ∨ σ.m.mem (e.frame + va % 4096) = v := by
  obtain ⟨ty, hi⟩ := hr.iso
  exact hi.isolated_iff hs hc

/-- A parent with one page. -/
def single : Mmu Bump :=
  ((bare.spaceCreate.2.kframeAllocN 1).2.mapRange 4096 0x40000000 61440 1).2

/-- It has a child that shares the page. -/
def shared : Mmu Bump := (single.spaceCreate.2.spaceShareUser 69632 4096).2

def family : Finset ℕ := insert 69632 (insert 4096 ∅)

theorem reaches_shared : Reaches bare ⟨shared, family⟩ := by
  have h₁ : bare.spaceCreate = (4096, bare.spaceCreate.2) := eq_pair (by decide +kernel)
  have h₂ : bare.spaceCreate.2.kframeAllocN 1 = (61440, (bare.spaceCreate.2.kframeAllocN 1).2) :=
    eq_pair (by decide +kernel)
  have h₃ : (bare.spaceCreate.2.kframeAllocN 1).2.mapRange 4096 0x40000000 61440 1
      = (true, single) := eq_pair (by decide +kernel)
  have h₄ : single.spaceCreate = (69632, single.spaceCreate.2) := eq_pair (by decide +kernel)
  have h₅ : single.spaceCreate.2.spaceShareUser 69632 4096 = (true, shared) :=
    eq_pair (by decide +kernel)
  have hva : InHalf .code 0x40000000 1 := ⟨by decide, fun k hk => by
    obtain rfl : k = 0 := by omega
    decide⟩
  have r₁ : Reaches bare ⟨bare.spaceCreate.2, insert 4096 ∅⟩ :=
    Reaches.start.step (.create h₁ (by decide))
  have r₂ : Reaches bare ⟨single, insert 4096 ∅⟩ :=
    r₁.step (.map (by simp) (by decide +kernel) (by decide) hva h₂ (by decide) h₃)
  have r₃ : Reaches bare ⟨single.spaceCreate.2, family⟩ := r₂.step (.create h₄ (by decide))
  exact r₃.step (.share (by decide) (by decide) (by decide) (by decide +kernel) h₅)

/-- The child makes a pipe, and the parent finds the descriptors in its own memory. -/
theorem pipe_reaches_parent : Reaches bare ⟨shared, family⟩ ∧
    ∃ m', shared.userStore 69632 (.pipe 0x40000008 3 4) = some m' ∧
      shared.load 4096 0x40000008 = some 0 ∧ m'.load 4096 0x40000008 = some 3 := by
  refine ⟨reaches_shared, _, (Option.some_get (by decide +kernel)).symm, ?_, ?_⟩
  · decide +kernel
  · decide +kernel

/-- The child stores to the page, and then has it for itself. -/
def parted : Sys Bump := ⟨(shared.store 69632 0x40000005 7).getD shared, family⟩

theorem reaches_parted : Reaches bare parted := by
  have h : (shared.store 69632 0x40000005 7).isSome := by decide +kernel
  have hst : shared.store 69632 0x40000005 7 =
      some ((shared.store 69632 0x40000005 7).getD shared) := by
    rw [← Option.get_eq_getD _ (h := h), Option.some_get]
  exact reaches_shared.step (.store (by decide) hst)

theorem userStore_isolated_parted :
    ∃ m', parted.m.userStore 69632 (.pipe 0x40000008 3 4) = some m' ∧
      ∀ x ∈ parted.live, x ≠ 69632 → ∀ va, m'.load x va = parted.m.load x va := by
  obtain ⟨m', hm'⟩ : ∃ m', parted.m.userStore 69632 (.pipe 0x40000008 3 4) = some m' :=
    Option.isSome_iff_exists.mp (by decide +kernel)
  have hall : ∀ w ∈ (UserStore.pipe 0x40000008 3 4).bytes,
      (parted.m.walk 69632 w.2).all (·.rw) = true := by
    decide +kernel
  refine ⟨m', hm', (userStore_isolated_iff reaches_parted (by decide) hm').mpr
    fun v va e hlast hw => Or.inl ?_⟩
  obtain ⟨pre, post, hws, -⟩ := hlast
  have := hall (v, va) (by rw [hws]; simp)
  rw [hw] at this
  exact this

end Paging

end Aurisys
