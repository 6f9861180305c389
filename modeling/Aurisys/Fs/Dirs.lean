import Aurisys.Fs.Draft

/-!
# Storing an image and adding an entry

What a draft becomes when it is stored, and `dir_add_entry`. An entry goes behind the last record of
the first block that has room; only where no block has, the directory gets another one, and with it
an extent.

## Main definitions

* `roomAt` — there is room in a block of a directory

## Main results

* `Draft.stored`
-/

namespace Aurisys

open Bytes Fallible Path

namespace Fs

variable {s s₀ s' : Fs} {T : ℕ → Bytes} {X : ℕ → Prop} {E : Fs → Prop} {j ino first n b dirIno : ℕ}
  {k l : ℤ}

/-! ## Storing -/

/-- A store changes one block of the inode table, and nothing else on the disk. -/
theorem stored_disk (s : Fs) (ino : ℕ) {b : ℕ} (hb : b ≠ s.geo.slotBlock ino) :
    (s.stored ino).disk b = s.disk b := Function.update_of_ne hb _ _

theorem stored_single (hg : s.geo.Ok) (hi : s.geo.IsIno ino) {b : ℕ} (hb : b ∈ s.geo.singles) :
    (s.stored ino).disk b = s.disk b := stored_disk s ino (hg.slotBlock_ne hi hb).symm

theorem Held.stored (h : Held s T X) (hi : s.geo.IsIno ino) : Held (s.stored ino) T X :=
  h.frame rfl rfl (stored_single h.geo hi Geometry.Ok.bbb_mem)

/-- **A draft is stored**: the blocks of the new image are owned. -/
theorem Draft.stored (h : Draft s₀ T j Nothing k s) (hi : s.geo.IsIno ino) :
    Held (s.stored ino) (Function.update T j s.ino) Nothing := h.image.stored hi

/-- **A new image is stored** in the place of another: what that one had is spare. -/
theorem Draft.replaced (h : Draft s₀ T 0 Nothing k s) (hi : s.geo.IsIno ino)
    (hT : T 0 = fun _ => 0) :
    Held (s.stored ino) (Function.update T ino s.ino) fun b => ∃ i, Covers (T ino) i b := by
  have hrep := h.image.replace (j := ino) (Nat.pos_iff_ne_zero.mp hi.1)
    (fun i b => by rw [hT]; exact not_covers_zero i b) (by rw [hT]; exact flat_zero _)
  exact hrep.stored hi

/-- The inodes that are not stored stay. -/
theorem Draft.inodes_stored (h : Draft s₀ T j X k s) (hi : s.geo.IsIno ino) (i : ℕ) :
    Same ((s.stored ino).inodes i) (Function.update s₀.inodes ino s.ino i) := by
  rw [← h.inodes]
  exact Fs.inodes_stored h.geo hi i

/-! ## Reading a block of a directory -/

/-- **A block of a directory** is where its map says. -/
theorem wp_readDirBlock (hg : s.geo.Ok) (hf : Flat s.geo (s.inodes dirIno)) {Q : ℕ → Fs → Prop}
    (hQ : ∀ phys s', s.geo.IsIno dirIno → IsDir (s.inodes dirIno) →
      mapFlat (s.inodes dirIno) b = some phys → s'.core = s.core →
      (∀ a < s.geo.bs, s'.b2 a = s.disk phys a) → Q phys s')
    (hE : ∀ s', s'.core = s.core → E s') : wp (readDirBlock dirIno b) Q E s := by
  rw [readDirBlock, wp_bind, wp_loadInode hg]
  refine ⟨fun hi => ?_, fun _ => hE s rfl⟩
  have hsame := loaded_ino hg hi
  have hflat : Flat s.geo (s.loaded dirIno).ino := hsame.sameMap.flat hf
  have hcore : (s.loaded dirIno).core = s.core := rfl
  generalize hs₁ : s.loaded dirIno = s₁ at hsame hflat hcore
  rw [wp_bind, wp_get, wp_bind, wp_guard]
  refine ⟨fun hdir => ?_, fun _ => hE s₁ hcore⟩
  rw [← core_geo hcore] at hflat
  rw [wp_bind]
  refine wp_mapLblock hflat (.inr hdir) (fun phys hm => ?_) fun _ => hE s₁ hcore
  rw [hsame.sameMap.mapFlat hf] at hm
  rw [wp_bind, wp_readB2]
  refine ⟨fun _ => ?_, fun _ => hE s₁ hcore⟩
  refine hQ phys _ hi (hsame.sameMap.isDir.mp hdir) hm (Eq.trans rfl hcore) fun a ha => ?_
  have hcopy := memcpy_of_lt (m := s₁.b2) (p := 0) (s := s₁.disk phys) (q := 0) ha
  rw [Nat.zero_add] at hcopy
  rw [read2, setB2_b2, core_geo hcore, hcopy, core_disk hcore]

/-! ## Room -/

/-- The loop over the records looks at the block only. -/
theorem tailEntry_congr {m m' : Bytes} {bs : ℕ} (h : ∀ a < bs, m a = m' a) (fuel off lo lu : ℕ) :
    tailEntry m bs fuel off lo lu = tailEntry m' bs fuel off lo lu := by
  induction fuel generalizing off lo lu with
  | zero => rfl
  | succ fuel ih =>
    rw [tailEntry, tailEntry]
    split
    · rfl
    · next hin =>
      have hrc : r16 m (off + 4) = r16 m' (off + 4) := r16_congr fun i hi => h _ (by omega)
      rw [hrc, h (off + 6) (by omega)]
      simp only [ih]

/-- There is room behind the last record of a block. -/
def roomIn (blk : Bytes) (bs need : ℕ) : Bool :=
  match tailEntry blk bs bs 0 0 0 with
  | some (lastOff, lastUsed) => decide (need ≤ u32 (bs - lastOff + 2 ^ 32 - lastUsed))
  | none => false

/-- There is room in block `b` of a directory. -/
def roomAt (s : Fs) (dirIno need b : ℕ) : Bool :=
  match mapFlat (s.inodes dirIno) b with
  | some phys => roomIn (s.disk phys) s.geo.bs need
  | none => false

/-- A block of the directory has been written. -/
def EntryIn (s : Fs) (dirIno : ℕ) (s' : Fs) : Prop :=
  ∃ b phys d, mapFlat (s.inodes dirIno) b = some phys ∧ s'.core = (s.setDisk phys d).core

variable {name : Str} {type : ℕ}

theorem wp_addInBlock (hg : s.geo.Ok) (hf : Flat s.geo (s.inodes dirIno)) :
    wp (addInBlock dirIno name ino type b)
      (fun r s' => if r then EntryIn s dirIno s'
        else s'.core = s.core ∧ roomAt s dirIno (direntUsed name.length) b = false)
      (fun s' => s'.core = s.core) s := by
  rw [addInBlock, wp_bind]
  refine wp_readDirBlock hg hf (fun phys s₁ _ _ hm hcore hb2 => ?_) fun _ => id
  rw [wp_bind, wp_get, wp_bind, wp_ofOption]
  have hbs := core_geo hcore
  refine ⟨?_, fun _ => hcore⟩
  rintro ⟨lo, lu⟩ htail
  rw [hbs, tailEntry_congr hb2] at htail
  dsimp only
  rw [wp_ite]
  constructor
  · intro _
    rw [wp_bind, wp_setWriteB2]
    generalize putDirent _ _ _ _ _ _ = e
    exact ⟨fun _ => ⟨b, phys, memcpy (s₁.disk phys) 0 e 0 s₁.geo.bs, hm, core_setDisk hcore _ _⟩,
      fun _ => Eq.trans rfl hcore⟩
  · intro hroom
    refine ⟨hcore, ?_⟩
    rw [roomAt, hm]
    simp only [roomIn, htail]
    rw [hbs] at hroom
    exact decide_eq_false hroom

/-- **The blocks of the directory** are tried one after the other. -/
theorem wp_addInBlocks (hg : s.geo.Ok) (hf : Flat s.geo (s.inodes dirIno)) (l : List ℕ) :
    wp (addInBlocks dirIno name ino type l)
      (fun r s' => if r then EntryIn s dirIno s'
        else s'.core = s.core ∧ ∀ b ∈ l, roomAt s dirIno (direntUsed name.length) b = false)
      (fun s' => s'.core = s.core) s := by
  suffices H : ∀ s₁ : Fs, s₁.core = s.core → wp (addInBlocks dirIno name ino type l)
      (fun r s' => if r then EntryIn s dirIno s'
        else s'.core = s.core ∧ ∀ b ∈ l, roomAt s dirIno (direntUsed name.length) b = false)
      (fun s' => s'.core = s.core) s₁ from H s rfl
  induction l with
  | nil => exact fun s₁ h₁ => ⟨h₁, by simp⟩
  | cons b l ih =>
    intro s₁ h₁
    have hg₁ : s₁.geo.Ok := core_geo h₁ ▸ hg
    have hf₁ : Flat s₁.geo (s₁.inodes dirIno) := by
      rw [core_inodes h₁, core_geo h₁]
      exact hf
    rw [addInBlocks, wp_bind]
    refine wp_mono (wp_addInBlock hg₁ hf₁) (fun r s₂ h₂ => ?_) fun s₂ h₂ => h₂.trans h₁
    cases r with
    | true =>
      obtain ⟨c, phys, d, hm, hcore⟩ := h₂
      rw [core_inodes h₁] at hm
      exact ⟨c, phys, d, hm, hcore.trans (core_setDisk h₁ _ _)⟩
    | false =>
      have hroom : roomAt s dirIno (direntUsed name.length) b = false := by
        rw [← of_core (fun s => roomAt s dirIno (direntUsed name.length) b) (fun _ => rfl) h₁]
        exact h₂.2
      refine wp_mono (ih s₂ (h₂.1.trans h₁)) (fun r s₃ h₃ => ?_) fun _ => id
      cases r with
      | true => exact h₃
      | false => exact ⟨h₃.1, List.forall_mem_cons.mpr ⟨hroom, h₃.2⟩⟩

end Fs

end Aurisys
