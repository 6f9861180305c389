import Aurisys.Fs.Beside

/-!
# Storing a file that is written whole

What `write_file` has made up is stored: in an inode that was free, which then gets a name, or over
the image that the file had, whose blocks are given back after that. So until the image is stored
everything is as it was, and a call that gives up before has not changed anything that was in use.
But an inode it has taken stays taken. Where the free inodes are blank, this one has no blocks and
is no directory.

## Main definitions

* `Blank` — the free inodes have no image
* `Tame` — no directory has come up in what was free

## Main results

* `wp_createFile`, `wp_truncateFile`
-/

namespace Aurisys

open Bytes Fallible

namespace Fs

/-- The image of an inode that has none. -/
def IsBlank (img : Bytes) : Prop := Same img fun _ => 0

instance (img : Bytes) : Decidable (IsBlank img) := inferInstanceAs (Decidable (∀ _ < _, _ = _))

/-- The inodes that are not in use are blank. -/
def Blank (s : Fs) : Prop := ∀ k, s.geo.IsIno k → ¬s.Live k → IsBlank (s.inodes k)

/-- What was free is blank, or it has been taken and is no directory. -/
def Tame (s u : Fs) : Prop :=
  ∀ k, s.geo.IsIno k → ¬s.Live k → IsBlank (u.inodes k) ∨ u.Live k ∧ ¬IsDir (u.inodes k)

/-- A file has the data, and everything else is as it was. -/
structure Replaces (s : Fs) (ino : ℕ) (data : Bytes) (len : ℕ) (u : Fs) : Prop where
  /-- All but the file is as it was. -/
  intact : Intact s ino u
  /-- The file has the data. -/
  stores : Stores u ino data len
  /-- What was free is blank, or it has been taken. -/
  tame : Tame s u

/-- A new file has the data and a name, and everything else is as it was. -/
structure MakesFile (s : Fs) (d : ℕ) (name : Str) (data : Bytes) (len k : ℕ) (u : Fs) : Prop where
  /-- There is a new inode, with an entry. -/
  created : ∃ img, Created s d ⟨k, name, 1⟩ img u
  /-- It has the data. -/
  stores : Stores u k data len
  /-- What was free is blank, or it has been taken. -/
  tame : Tame s u

variable {s s' t u v : Fs} {P : ℕ → Prop} {d i k len ino : ℕ} {m : ℤ}
  {name : Str} {img data : Bytes}

theorem IsBlank.of_same {img' : Bytes} (h : IsBlank img) (hs : Same img' img) : IsBlank img' :=
  hs.trans h

theorem IsBlank.not_isDir (h : IsBlank img) : ¬IsDir img := by
  rw [IsDir, h.r16 (by omega)]
  decide

theorem IsBlank.not_isFile (h : IsBlank img) : ¬IsFile img := by
  rw [IsFile, h.r16 (by omega)]
  decide

theorem IsFile.not_isDir (h : IsFile img) : ¬IsDir img := by
  rw [IsFile] at h
  rw [IsDir, h]
  decide

/-! ## What was free -/

namespace Beside

/-- Of the inodes of a call, those that were free are no directories. -/
theorem tame (h : Beside s P u) (hb : Blank s) (hP : ∀ k, P k → s.geo.IsIno k → ¬s.Live k →
      u.Live k ∧ ¬IsDir (u.inodes k)) :
    Tame s u := by
  intro k hi hl
  by_cases hk : P k
  · exact .inr (hP k hk hi hl)
  · exact .inl ((hb k hi hl).of_same (h.inodes k hk))

end Beside

/-- Where nothing was taken, nothing comes up. -/
theorem Tame.of_inodes (hb : Blank s) (h : u.inodes = s.inodes) : Tame s u := by
  intro k hi hl
  rw [h]
  exact .inl (hb k hi hl)

/-! ## What has been made up -/

/-- The number 0 is no inode, and has no block. -/
theorem not_covers_number_zero (s : Fs) (x b : ℕ) : ¬Covers (s.table 0) x b := by
  rw [table, inodes_zero, ite_self]
  exact not_covers_zero x b

/-- Until an image is stored, the inodes in use are as they were. -/
theorem Stock.live_iff (h : Stock s s.table 0 Nothing m t) (hf : Framed s t)
    (hg : s.geo.Ok) (k : ℕ) :
    t.Live k ↔ s.Live k := by
  rw [Live, Live, h.tally.geo,
    hf.disk _ (Geometry.Ok.single_meta Geometry.Ok.ibb_mem) hg.bbb_ne_ibb.symm]

theorem Stock.kept_of (h : Stock s s.table 0 Nothing m t) (hv : Valid s) (hl : s.Live k) :
    Kept s t k := by
  refine ⟨h.tally.geo, by rw [h.inodes]; exact .refl _, fun x b hc => ?_⟩
  rw [← table_of_live hl] at hc
  exact h.data b (hv.own.own_used (k, x) b hc) (hv.not_meta hc) fun x' =>
    not_covers_number_zero s x' b

theorem Stock.table_eq (h : Stock s s.table 0 Nothing m t) (hf : Framed s t) (hg : s.geo.Ok) :
    t.table = s.table := by
  funext k
  simp only [Fs.table, h.inodes, h.live_iff hf hg]

/-- **A call that has not stored anything** has not changed what was in use. -/
theorem Stock.unharmed (h : Stock s s.table 0 Nothing m t) (hf : Framed s t) (hv : Valid s) :
    Unharmed s t := by
  refine ⟨h.tally.geo, hf.stack, fun k => (h.live_iff hf hv.geo k).mpr, ?_, fun k => h.kept_of hv⟩
  rw [Valid, h.table_eq hf hv.geo]
  exact h.table

section InodeTaken

variable (hv : Valid s) (hnext : s.nextInode = some i)

include hv hnext

theorem Framed.live_iff (hgeo : t.geo = s.geo) (hf : Framed (s.inodeTaken i) t) (k : ℕ) :
    t.Live k ↔ s.Live k ∨ k - 1 = i := by
  have hibb : t.disk s.geo.ibb = (s.inodeTaken i).disk s.geo.ibb :=
    hf.disk _ (Geometry.Ok.single_meta Geometry.Ok.ibb_mem) hv.geo.bbb_ne_ibb.symm
  rw [← live_inodeTaken hv.geo hnext, Live, Live, hgeo, hibb]
  exact Iff.rfl

/-- **An inode has been taken for nothing.** It is blank. -/
theorem Stock.wasted (h : Stock (s.inodeTaken i) s.table 0 Nothing m t)
    (hf : Framed (s.inodeTaken i) t)
    (hb : Blank s) : Unharmed s t ∧ t.inodes = s.inodes := by
  have hg := hv.geo
  obtain ⟨hi, hfree⟩ := nextInode_spec hg hnext
  have hgeo : t.geo = s.geo := h.tally.geo
  have hinodes : t.inodes = s.inodes := h.inodes.trans (inodes_inodeTaken hg hnext)
  have hlive := hf.live_iff hv hnext hgeo
  refine ⟨⟨hgeo, hf.stack, fun k hk => (hlive k).mpr (.inl hk), ?_, fun k hk => ⟨hgeo, ?_,
    fun x b hc => ?_⟩⟩, hinodes⟩
  · refine h.table.congr fun k => ?_
    rw [Fs.table, Fs.table, hinodes]
    by_cases hk : s.Live k
    · rw [if_pos hk, if_pos ((hlive k).mpr (.inl hk))]
      exact .refl _
    · rw [if_neg hk]
      by_cases hki : s.geo.IsIno k
      · split
        · exact (hb k hki hk).sameMap
        · exact .refl _
      · rw [inodes_of_not hki, ite_self]
        exact .refl _
  · rw [hinodes]
    exact .refl _
  · rw [← table_of_live hk] at hc
    have hbbb : (s.inodeTaken i).disk s.geo.bbb = s.disk s.geo.bbb :=
      inodeTaken_of_ne hg hnext hg.bbb_ne_ibb
    have hmeta := hv.not_meta hc
    have hused : (s.inodeTaken i).Used b :=
      (iff_of_eq (congrArg (fun d : Bytes => d.bit b = true) hbbb)).mpr
        (hv.own.own_used (k, x) b hc)
    have hdata := h.data b hused hmeta fun x' => not_covers_number_zero s x' b
    exact hdata.trans (inodeTaken_of_ne hg hnext (ne_of_not_meta hmeta Geometry.Ok.ibb_mem).symm)

end InodeTaken

/-! ## A new file -/

/-- An image that has been prepared is stored in the inode that has been taken. -/
theorem Draft.made_of (h : Draft (s.inodeTaken i) s.table 0 Nothing m t)
    (hf : Framed (s.inodeTaken i) t)
    (hv : Valid s) (hnext : s.nextInode = some i) : Made s (i + 1) t.ino (t.stored (i + 1)) ∧
      Beside s (· = i + 1) (t.stored (i + 1)) := by
  have hg := hv.geo
  have hi := (nextInode_spec hg hnext).1
  have hgeo : t.geo = s.geo := h.tally.geo
  have hgt : t.geo.Ok := hgeo.symm ▸ hg
  have hit : t.geo.IsIno (i + 1) := hgeo.symm ▸ hi
  refine ⟨h.made hv hnext hf.stack ?_, ?_⟩
  · exact hf.disk _ (Geometry.Ok.single_meta Geometry.Ok.ibb_mem) hg.bbb_ne_ibb.symm
  · have htaken : Beside s (· = i + 1) (s.inodeTaken i) := .inodeTaken hg hnext rfl
    exact (htaken.trans (.stock h.toStock hf hg)).trans (.stored hgt hit rfl)

/-- **`write_file` creates a file.** When it gives up it has changed nothing that was in use, or the
file is there with all of its data and a name, and only the counts have not been settled. -/
theorem wp_createFile (hv : Valid s) (hl : s.Live d) (hd : IsDir (s.inodes d) → DirOk s d)
    (hname : DirentName name)
    (hlen : len < 2 ^ 32) (hb : Blank s) :
    wp (createFile d name data len)
      (fun _ u => IsDir (s.inodes d) ∧ ∃ k, MakesFile s d name data len k u)
      (fun u => (Unharmed s u ∧ Tame s u) ∨ IsDir (s.inodes d) ∧
        ∃ k, MakesFile s d name data len k u) s := by
  have hg := hv.geo
  rw [createFile, wp_bind]
  refine wp_allocInode hg (fun i hnext => ?_) fun _ => .inl ⟨hv.unharmed rfl, .of_inodes hb rfl⟩
  obtain ⟨hino, hfree⟩ := nextInode_spec hg hnext
  have hino₂ := hino.2
  have hle := hg.inodes.2
  have hbs := hg.bs_le
  have hheld : Held (s.inodeTaken i) s.table Nothing :=
    Held.frame hv rfl rfl (inodeTaken_of_ne hg hnext hg.bbb_ne_ibb)
  rw [wp_bind]
  refine wp_mono (wp_writeFresh_stores hheld hlen) ?_ ?_
  · rintro used t ⟨hdraft, hprep⟩
    obtain ⟨hmade, hbeside⟩ := hdraft.made_of hprep.toFramed hv hnext
    have hgeo : t.geo = s.geo := hdraft.tally.geo
    have hstored : Stores (t.stored (i + 1)) (i + 1) data len := by
      refine hprep.stores hmade.image rfl hdraft.flat fun b p hp => stored_disk t (i + 1) ?_
      rintro rfl
      exact (hdraft.mapped hp).1 ((hgeo ▸ hg).slotBlock_meta (hgeo ▸ hino))
    rw [wp_bind, wp_storeInode (hgeo.symm ▸ hg) (hgeo.symm ▸ hino), wp_bind]
    generalize t.ino = img at hmade
    generalize t.stored (i + 1) = t₁ at hmade hbeside hstored
    have hlive₁ : t₁.Live (i + 1) := (hmade.live _ hino).mpr (.inr rfl)
    have hflat₁ : Flat t₁.geo (t₁.inodes (i + 1)) := table_of_live hlive₁ ▸ hmade.valid.flat (i + 1)
    have hkept := hmade.kept d hl
    have hne : i + 1 ≠ d := fun he => hfree (he ▸ hl)
    have hbeside₁ : Beside s (fun k => k = i + 1 ∨ k = d) t₁ := hbeside.mono fun k hk => .inl hk
    -- Of the two inodes of the call, only the new one was free.
    have htame : ∀ u, Beside t₁ (fun k => k = i + 1 ∨ k = d) u → Stores u (i + 1) data len →
        Tame s u := by
      intro u hu hstores
      refine (hbeside₁.trans hu).tame hb ?_
      rintro k (rfl | rfl) hki hkl
      · exact ⟨hu.grows _ hlive₁, hstores.file.not_isDir⟩
      · exact absurd hl hkl
    have hadd : wp (dirAddEntry d name (i + 1) 1) (fun _ u => Beside t₁
      (fun k => k = i + 1 ∨ k = d) u)
        (fun u => Beside t₁ (fun k => k = i + 1 ∨ k = d) u) t₁ :=
      wp_dirAddEntry_beside hmade.valid (hmade.grows d hl) (.inr rfl) rfl
    by_cases hdir : IsDir (s.inodes d)
    · have hdok := hd hdir
      have hdok₁ := hkept.dirOk hv hdok (hmade.grows d hl)
      refine wp_mono (wp_and hadd (hdok₁.wp_dirAddEntry hmade.valid hname ⟨hino.1,
        by omega⟩ (by decide) rfl)) ?_ ?_
      · rintro _ u ⟨hbu, -, hadded⟩
        have hcreated := hmade.added hv hdok hadded rfl
        have hstores := hstored.kept (hadded.kept _ hne hlive₁) hmade.valid.geo hflat₁
        have hgu : u.geo.Ok := hcreated.geo.symm ▸ hg
        have hsettled : ∀ v, Settled u v → MakesFile s d name data len (i + 1) v := by
          intro v hv'
          have hliveu : u.Live (i + 1) := (hadded.live _).mpr hlive₁
          have hstoresv := hstores.kept (hv'.kept hcreated.valid hliveu) hgu
            (table_of_live hliveu ▸ hcreated.valid.flat (i + 1))
          exact ⟨⟨img, hcreated.settled hv hv'⟩, hstoresv,
            htame v (hbu.trans (.settled hgu hv')) hstoresv⟩
        exact wp_settle hgu (fun v hv' => ⟨hdir, i + 1, hsettled v hv'⟩) fun _ v hv' => .inr ⟨hdir,
          i + 1, hsettled v hv'⟩
      · rintro u ⟨hbu, -, hu⟩
        have hstores := hstored.kept (hu.kept _ hlive₁) hmade.valid.geo hflat₁
        exact .inl ⟨hmade.unharmed.trans hv hu, htame u hbu hstores⟩
    · have hdir₁ : ¬(t₁.geo.IsIno d ∧ IsDir (t₁.inodes d)) :=
        fun h => hdir (hkept.image.sameMap.isDir.mp h.2)
      refine wp_mono (wp_dirAddEntry_not (hmade.geo.symm ▸ hg) hdir₁) (fun _ _ => False.elim)
        fun u hu => .inl ?_
      have hu' := hmade.valid.unharmed hu
      have hstores := hstored.kept (hu'.kept _ hlive₁) hmade.valid.geo hflat₁
      exact ⟨hmade.unharmed.trans hv hu', htame u (.of_core hu) hstores⟩
  · rintro t ⟨-, hf, n, hstock⟩
    obtain ⟨hu, hinodes⟩ := hstock.wasted hv hnext hf hb
    exact .inl ⟨hu, .of_inodes hb hinodes⟩

/-! ## Another image for a file -/

theorem Replaced.replaces (h : Replaced t ino u) (hb : Beside t (· = ino) u) (hu : Unharmed s t)
    (hlive : ∀ k, t.Live k ↔ s.Live k) (hinodes : t.inodes = s.inodes)
    (hv : Valid s) (hl : s.Live ino)
    (hblank : Blank s) (hs : Stores u ino data len) : Replaces s ino data len u := by
  have hliveu : ∀ k, u.Live k ↔ s.Live k := fun k => (h.live k).trans (hlive k)
  refine ⟨⟨h.geo.trans hu.geo, h.stack.trans hu.stack, hliveu, h.valid, fun k hk hlk => ?_,
    hs.file, hs.magic⟩, hs, ?_⟩
  · exact (hu.kept k hlk).trans (h.kept k hk ((hlive k).mpr hlk)) (table_of_live hlk ▸ hv.flat k)
  · intro k hi hlk
    have hk : k ≠ ino := fun he => hlk (he ▸ hl)
    have himg := hb.inodes k hk
    rw [hinodes] at himg
    exact .inl ((hblank k hi hlk).of_same himg)

/-- **`write_file` truncates a file** and writes it again. When it gives up before the new image is
stored, it has changed nothing that was in use. -/
theorem wp_truncateFile (hv : Valid s) (hi : s.geo.IsIno ino) (hl : s.Live ino)
    (hsame : Same s.ino (s.inodes ino))
    (hfile : IsFile (s.inodes ino)) (hlen : len < 2 ^ 32) (hb : Blank s) :
    wp (truncateFile ino data len) (fun _ u => Replaces s ino data len u)
      (fun u => (Unharmed s u ∧ Tame s u) ∨ Replaces s ino data len u) s := by
  have hg := hv.geo
  have hflat : Flat s.geo (s.inodes ino) := table_of_live hl ▸ hv.flat ino
  rw [truncateFile, wp_bind, wp_get, wp_bind, wp_ofOption,
    inlineExtents_eq hflat (.inl hfile) hsame.sameMap]
  refine ⟨?_, fun h => absurd h (Option.some_ne_none _)⟩
  rintro _ ⟨⟩
  rw [wp_bind]
  refine wp_mono (wp_writeFresh_stores hv hlen) ?_ ?_
  · rintro used t ⟨hdraft, hprep⟩
    have hf := hprep.toFramed
    have hu := hdraft.toStock.unharmed hf hv
    have hlive := hdraft.toStock.live_iff hf hg
    have htable := hdraft.toStock.table_eq hf hg
    have hinodes := hdraft.inodes
    have hgeo := hu.geo
    have himg : Held t (Function.update t.table 0 t.ino) Nothing := htable ▸ hdraft.image
    have hit : t.geo.IsIno ino := hgeo.symm ▸ hi
    have hgt : t.geo.Ok := hgeo.symm ▸ hg
    have hreplaced : ∀ v, Beside t (· = ino) v → Replaced t ino v → Replaces s ino data len v := by
      intro v hbv hv'
      refine hv'.replaces hbv hu hlive hinodes hv hl hb ?_
      exact hprep.stores hv'.image hv'.geo hdraft.flat fun b p hp => hv'.disk p (hdraft.mapped hp).1
    rw [← hinodes]
    refine wp_mono (wp_and (wp_replaceImage_beside (P := (· = ino)) hgt hit rfl used)
      (wp_replaceImage hu.valid himg hit ((hlive ino).mpr hl) rfl)) ?_ ?_
    · exact fun _ v hv' => hreplaced v hv'.1 hv'.2
    · exact fun v hv' => .inr (hreplaced v hv'.1 hv'.2.2)
  · rintro t ⟨-, hf, n, hstock⟩
    exact .inl ⟨hstock.unharmed hf hv, .of_inodes hb hstock.inodes⟩

end Fs

end Aurisys
