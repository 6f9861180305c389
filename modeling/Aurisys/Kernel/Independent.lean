import Aurisys.Kernel.Alike

/-!
# Independent sequences

What an escape sequence does should depend on its own parameters and on what can be seen. `g_param`
has the parameters of earlier sequences, and `H` and `f` look at the second one, whether the
sequence has brought it or not. And what `g_used` and `g_cur_x` are after two runs may differ,
though the two consoles look alike: the sequence that clears the display looks at the first, and one
that takes the cursor away from the corner at the second.

## Main definitions

* `Console.Independent` — what a sequence does to what can be seen does not depend on what was
  before
* `Console.SelfContained` — the sequences that get on without the three

## Main results

* `Console.independent_of`
* `Console.not_independent_second`, `Console.not_independent_clear`, `Console.not_independent_away`
* `Console.independent_iff`
-/

namespace Aurisys

open Fallible

namespace Console

variable {d : Display} {s t : Screen} {k k' k₁ k₂ : Console} {e : Escape}
  {c final : UInt8} {x y : ℤ}
  {around : ℤ → ℤ} {fb : Pixels} {I J : Screen → Prop} {a b : (ℤ × ℤ) × ℤ × ℤ}

/-! ## Independence -/

/-- **What a sequence does to what can be seen** is the same after any two runs that leave consoles
that look alike, and no sequence that has begun. -/
def Independent (d : Display) (around : ℤ → ℤ) (fb : Pixels) (body : List UInt8)
    (final : UInt8) : Prop :=
  ∀ h₁ h₂ k₁ k₂, run d h₁ (powerOn around fb) = some k₁ → run d h₂ (powerOn around fb) = some k₂ →
    k₁.esc.state = .plain → k₂.esc.state = .plain → Alike k₁.screen k₂.screen →
    ∃ t₁ t₂, puts d (sequence body final) k₁ = some t₁ ∧ puts d (sequence body final) k₂ = some t₂ ∧
      Alike t₁.screen t₂.screen

/-- The sequence looks at nothing that cannot be seen. -/
structure SelfContained (d : Display) (e : Escape) (body : List UInt8) (final : UInt8) : Prop where
  /-- It brings a second parameter if it looks at it, or has one column to choose from. -/
  second : (final ≠ 0x48 ∧ final ≠ 0x66) ∨ 0x3B ∈ body ∨ cols d = 1
  /-- It does not clear the display, or there is one row. -/
  cleared : final = 0x4A → e.param 0 = 2 ∨ e.param 0 = 3 → rows d = 1
  /-- It does not take the cursor away from the corner. -/
  stays : ∀ p, target d e final 0 0 = some p → clampx d p.1 = 0 ∧ clampy d p.2 = 0

/-! ## The sequences that are independent -/

theorem independent_of (hc : 0 < cols d) (hr : 0 < rows d) {body : List UInt8}
    (hb : ∀ c ∈ body, InBody c)
    (hf : 0x40 ≤ final ∧ final ≤ 0x7E)
    (h : SelfContained d ((powerOn around fb).esc.fed body) body final) :
    Independent d around fb body final := by
  intro h₁ h₂ k₁ k₂ hrun₁ hrun₂ hs₁ hs₂ hsame
  -- What the sequence does after a run is what it would do at the start.
  have hseq : ∀ es k, run d es (powerOn around fb) = some k →
      csiDispatch d (k.esc.fed body) final =
      csiDispatch d ((powerOn around fb).esc.fed body) final := by
    intro es k hrun
    have hbehind : ∀ i, kMaxParam ≤ i → k.esc.param i = (powerOn around fb).esc.param i :=
      fun i hi =>
      (run_behind es (behind_powerOn around fb) hrun i hi).trans
        (behind_powerOn around fb i hi).symm
    exact csiDispatch_congr (Agree.fed hbehind body)
      (h.second.imp_right (Or.imp_left List.count_pos_iff.mpr))
  have hgrid : ∀ es k, run d es (powerOn around fb) = some k → OnGrid d k.screen := by
    intro es k hrun
    have hstart : OnGrid d (powerOn around fb).screen := onGrid_powerOn hc hr
    obtain ⟨k', hk', hon⟩ := run_keeps hc hr es hstart
    obtain rfl := Option.some.inj (hk'.symm.trans hrun)
    exact hon
  obtain ⟨t₁, hput₁, -⟩ := puts_stays hc hr (sequence body final) (hgrid h₁ k₁ hrun₁)
  obtain ⟨t₂, hput₂, -⟩ := puts_stays hc hr (sequence body final) (hgrid h₂ k₂ hrun₂)
  have hres₁ := puts_sequence (d := d) hs₁ hb hf
  have hres₂ := puts_sequence (d := d) hs₂ hb hf
  rw [hput₁, hseq h₁ k₁ hrun₁] at hres₁
  rw [hput₂, hseq h₂ k₂ hrun₂] at hres₂
  obtain ⟨⟨l, u₁⟩, hl, hu₁⟩ := Option.map_eq_some_iff.mp hres₁.symm
  obtain ⟨u₂, hex₂, halike⟩ := follows_csiDispatch h.cleared h.stays hsame
    (run_reached h₁ reached_powerOn hrun₁) (run_reached h₂ reached_powerOn hrun₂) _ _
    ⟨rfl, rfl⟩ l u₁
    (exec_of_result hl)
  rw [result, hex₂] at hres₂
  refine ⟨t₁, t₂, hput₁, hput₂, ?_⟩
  rw [← hu₁, Option.some.inj hres₂]
  exact halike

/-! ## A block that is left behind -/

theorem usedRows_le (s : Screen) : s.usedRows d ≤ rows d := by
  rw [Screen.usedRows]
  split <;> omega

theorem usedRows_nonneg (hr : 0 < rows d) (h : 1 ≤ s.used) : 0 ≤ s.usedRows d := by
  rw [Screen.usedRows]
  split <;> omega

theorem sure_repaintAll_drawn (hc : 0 < cols d) (hr : 0 < rows d) (h : 1 ≤ s.used) :
    Sure (· = s) (repaintAll d) (· = s.drawn d nowhere (band d 0 (s.usedRows d))) := by
  refine .get_bind fun t ht => ?_
  subst ht
  refine (sure_paintRows (s := t) (G := nowhere) (P := nowhere) (usedRows_le t)
    (usedRows_nonneg hr h) hc.le).mono
    (fun u hu => hu) fun u hu => hu.trans ?_
  exact drawn_congr (fun _ _ => rfl) (fun y x => by simp [either, nowhere]) t

theorem sure_moveTo_drawn (hc : 0 < cols d) (hr : 0 < rows d) (h : OnGrid d s) (x y : ℤ) :
    Sure (· = s) (moveTo d x y)
      (· = ({ s with cx := clampx d x, cy := clampy d y } : Screen).erased d nowhere nowhere) :=
  .bind (.modify fun _ ht => ht ▸ rfl) fun _ =>
    sure_repaintCursor_drawn (s := { s with cx := clampx d x, cy := clampy d y })
      ⟨inGrid_clamp hc hr x y, h.block⟩

/-- **A command that moves the cursor**. -/
theorem sure_csiDispatch_target {p : ℤ × ℤ} (hc : 0 < cols d) (hr : 0 < rows d) (h : OnGrid d s)
    (hp : target d e final s.cx s.cy = some p) : Sure (· = s) (csiDispatch d e final)
      (· = ({ s with cx := clampx d p.1, cy := clampy d p.2 } : Screen).erased d
        nowhere nowhere) := by
  have hm : final ≠ 0x6D := by
    rintro rfl
    exact absurd hp.symm (Option.some_ne_none p)
  have hmove := sure_moveTo_drawn hc hr h p.1 p.2
  refine .ite (fun h => absurd h hm) fun _ => .bind (.get_bind fun t ht => ?_) fun _ =>
    .pure fun _ => id
  subst ht
  unfold target at hp
  split at hp
  case h_8 =>
    show Sure (· = t) (if e.given 0 = 1 then moveTo d 0 t.cy
      else if e.given 0 = 4 then moveTo d (cols d - 1) t.cy
      else if e.given 0 = 5 then moveTo d t.cx 0
      else if e.given 0 = 6 then moveTo d t.cx (rows d - 1)
      else pure ()) _
    split_ifs at hp ⊢
    all_goals
      obtain rfl := Option.some.inj hp
      exact hmove
  case h_9 => exact absurd hp.symm (Option.some_ne_none p)
  all_goals
    obtain rfl := Option.some.inj hp
    exact hmove

theorem onScreen_eq {z : Draw Unit} (h : Sure (· = k.screen) z (· = t)) :
    onScreen z k = some ⟨t, k.esc⟩ := by
  obtain ⟨k', hrun, rfl, hesc⟩ := onScreen_of_sure h rfl
  rw [hrun, ← hesc]

theorem erased_fb (G P : ℤ → ℤ → Bool) (s : Screen) (r c : ℤ) : (s.erased d G P).fb r c =
    if s.withCursor P (r / 16) (c / 8) then (s.blank G).pixel d r c else s.fb r c := by
  rw [Screen.erased, Screen.settled]
  split <;> rfl

theorem run_cons (ev : Event) (es : List Event) (k : Console) :
    run d (ev :: es) k = (step d ev k).bind (run d es) :=
  List.foldlM_cons

theorem erased_bg (G P : ℤ → ℤ → Bool) (s : Screen) : (s.erased d G P).bg = s.bg := by
  rw [Screen.erased, Screen.settled]
  split <;> rfl

/-- A pixel of the corner that is not drawn with the cursor. -/
theorem corner_kept (h : s.withCursor nowhere 0 0 = false) :
    (s.erased d nowhere nowhere).fb 13 0 = s.fb 13 0 := by
  rw [erased_fb, show (13 : ℤ) / 16 = 0 from rfl, show (0 : ℤ) / 8 = 0 from rfl, h]
  exact if_neg (by decide)

/-- The corner is drawn when the cursor has left it. -/
theorem corner_painted (h : s.isBlock 0 0 = true) (haway : ¬(s.cursorOn ∧ 0 = s.cy ∧ 0 = s.cx)) :
    (s.erased d nowhere nowhere).fb 13 0 = s.fgc 0 0 ∨
    (s.erased d nowhere nowhere).fb 13 0 = s.bg := by
  have hcell : s.withCursor nowhere 0 0 = true := by
    rw [Screen.withCursor, h, Bool.or_true, Bool.true_or]
  rw [erased_fb, show (13 : ℤ) / 16 = 0 from rfl, show (0 : ℤ) / 8 = 0 from rfl, hcell,
    if_pos rfl, Screen.pixel,
    if_neg fun h => haway ⟨h.1, h.2.2.1, h.2.1⟩]
  split
  · exact .inl rfl
  · exact .inr rfl

/-- The first row is painted in a colour, and the cursor with it. -/
def painted (d : Display) (fg : UInt32) (fb : Pixels) : Screen :=
  ({ (powerOn 0 fb).screen with fg := fg } : Screen).drawn d nowhere (band d 0 1)

theorem painted_corner (hc : 0 < cols d) (fg : UInt32) : (painted d fg fb).fb 13 0 = fg := by
  have hband : band d 0 1 (13 / 16) (0 / 8) = true :=
    decide_eq_true ⟨⟨le_rfl, by decide⟩, le_rfl, hc⟩
  have hbar : (13 : ℤ) ≤ 13 % 16 := by decide
  rw [painted, Screen.drawn]
  simp only [hband, if_true]
  rw [Screen.pixel, if_pos ⟨rfl, rfl, rfl, hbar⟩]
  rfl

theorem onGrid_painted (hc : 0 < cols d) (hr : 0 < rows d) (fg : UInt32) :
    OnGrid d (painted d fg fb) :=
  have hstart : OnGrid d (powerOn 0 fb).screen := onGrid_powerOn hc hr
  hstart.of_spot rfl

theorem step_painted (hc : 0 < cols d) (hr : 0 < rows d) (fg : UInt32) :
    step d (.setcolor fg kDefaultBg) (powerOn around fb) = some ⟨painted d fg fb,
      (powerOn around fb).esc⟩ := by
  let s : Screen := { (powerOn 0 fb).screen with fg := fg }
  have hrows : s.usedRows d = 1 := by
    show (if rows d < 1 then rows d else 1) = 1
    rw [if_neg (by omega)]
  have hpaint : Sure (· = (powerOn around fb).screen) (setcolor d fg kDefaultBg) (· =
      painted d fg fb) := by
    refine .bind (Q := (· = s)) (.modify fun t ht => by subst ht; rfl) fun _ => ?_
    rw [painted, ← hrows]
    exact sure_repaintAll_drawn (s := s) hc hr le_rfl
  exact onScreen_eq hpaint

/-- And the cursor goes to another cell. -/
theorem run_painted (hc : 0 < cols d) (hr : 0 < rows d) (fg : UInt32) (x y : ℤ) :
    run d [.setcolor fg kDefaultBg, .gotoxy x y] (powerOn around fb) = some ⟨({ painted d fg fb with
      cx := clampx d x, cy :=
    clampy d y } : Screen).erased d nowhere nowhere, (powerOn around fb).esc⟩ := by
  have hgrid : OnGrid d (painted d fg fb) := onGrid_painted hc hr fg
  have hmove := sure_moveTo_drawn hc hr hgrid x y
  rw [run_cons, step_painted hc hr, Option.bind_some, run_cons, step, onScreen_eq hmove]
  rfl

/-- To paint the cell of the cursor once more changes nothing. -/
theorem alike_corner (hc : 0 < cols d) (fg : UInt32) :
    Alike (painted d fg fb) ((painted d fg fb).erased d nowhere nowhere) := by
  refine ⟨rfl, rfl, rfl, rfl, rfl, rfl, rfl, funext₂ fun r c => ?_⟩
  rw [erased_fb]
  split
  · next hcell =>
    have hcorner : r / 16 = 0 ∧ c / 8 = 0 := by
      simpa [Screen.withCursor, Screen.isBlock, Screen.isCursor, nowhere, painted,
        Screen.drawn, Screen.blank,
        powerOn] using hcell
    have hband : band d 0 1 (r / 16) (c / 8) = true := by
      rw [hcorner.1, hcorner.2, band]
      exact decide_eq_true ⟨⟨le_rfl, by decide⟩, le_rfl, hc⟩
    exact if_pos hband
  · rfl

/-- What a sequence that moves the cursor does. -/
theorem puts_target {body : List UInt8} {p : ℤ × ℤ} (hc : 0 < cols d) (hr : 0 < rows d)
    (hb : ∀ c ∈ body, InBody c)
    (hf : 0x40 ≤ final ∧ final ≤ 0x7E) (hs : k.esc.state = .plain) (hk : OnGrid d k.screen)
    (hp : target d (k.esc.fed body) final k.screen.cx k.screen.cy = some p)
    (hput : puts d (sequence body final) k = some k') : k'.screen =
      ({ k.screen with cx := clampx d p.1, cy := clampy d p.2 } : Screen).erased d
      nowhere nowhere := by
  have hres := puts_sequence (d := d) hs hb hf
  rw [hput, result_of_sure (sure_csiDispatch_target hc hr hk hp)] at hres
  exact Option.some.inj hres

/-- **A sequence that takes the cursor away from the corner** leaves it drawn there, if it was
painted with the row and not by itself. -/
theorem not_independent_away (hc : 0 < cols d) (hr : 0 < rows d) {body : List UInt8}
    (hb : ∀ c ∈ body, InBody c)
    (hf : 0x40 ≤ final ∧ final ≤ 0x7E) {p : ℤ × ℤ}
    (hp : target d ((powerOn around fb).esc.fed body) final 0 0 = some p)
    (haway : ¬(clampx d p.1 = 0 ∧ clampy d p.2 = 0)) : ¬Independent d around fb body final := by
  intro h
  have hgrid : OnGrid d (painted d kDefaultFg fb) := onGrid_painted hc hr kDefaultFg
  have hx : clampx d 0 = 0 := by
    simp only [clampx]
    split_ifs <;> omega
  have hy : clampy d 0 = 0 := by
    simp only [clampy]
    split_ifs <;> omega
  have hrun₁ : run d [.setcolor kDefaultFg kDefaultBg] (powerOn around fb) =
      some ⟨painted d kDefaultFg fb, (powerOn around fb).esc⟩ := by
    rw [run_cons, step_painted hc hr, Option.bind_some]
    rfl
  have hrun₂ := @run_painted d around fb hc hr kDefaultFg 0 0
  rw [hx, hy] at hrun₂
  obtain ⟨t₁, t₂, hput₁, hput₂, hsame⟩ := h _ _ _ _ hrun₁ hrun₂ rfl rfl (alike_corner hc kDefaultFg)
  have haway' : ¬(0 = clampy d p.2 ∧ 0 = clampx d p.1) := fun h => haway ⟨h.2.symm, h.1.symm⟩
  let s₂ : Screen := (painted d kDefaultFg fb).erased d nowhere nowhere
  let u₁ : Screen := { painted d kDefaultFg fb with cx := clampx d p.1, cy := clampy d p.2 }
  let u₂ : Screen := { s₂ with cx := clampx d p.1, cy := clampy d p.2 }
  have ht₁ : t₁.screen = u₁.erased d nowhere nowhere := 
    puts_target (k := ⟨painted d kDefaultFg fb, (powerOn around fb).esc⟩) hc hr hb
      hf rfl hgrid hp hput₁
  have ht₂ : t₂.screen = u₂.erased d nowhere nowhere :=
    puts_target (k := ⟨s₂, (powerOn around fb).esc⟩) hc hr hb hf rfl ⟨hgrid.cursor,
      fun _ => hgrid.cursor⟩ hp hput₂
  have hkept : t₁.screen.fb 13 0 = kDefaultFg := by
    have hcovered : u₁.withCursor nowhere 0 0 = false := by
      simpa [Screen.withCursor, Screen.isBlock, Screen.isCursor, nowhere, u₁, painted,
        Screen.drawn, Screen.blank,
        powerOn] using haway'
    have hfb : u₁.fb = (painted d kDefaultFg fb).fb := rfl
    rw [ht₁, corner_kept hcovered, hfb, painted_corner hc]
  have hgone : t₂.screen.fb 13 0 = 0 ∨ t₂.screen.fb 13 0 = kDefaultBg := by
    have hne : (0 : ℤ) ≠ clampx d p.1 ∨ (0 : ℤ) ≠ clampy d p.2 := by
      rw [← not_and_or]
      exact fun h => haway' h.symm
    have hu₂ := corner_painted (d := d) (s := u₂) (decide_eq_true ⟨⟨le_rfl, hne⟩, rfl, rfl⟩)
      fun h => haway' ⟨h.2.1, h.2.2⟩
    have hfgc : u₂.fgc = fun _ _ => 0 :=
      congrArg Text.fgc (erased_nowhere_text (painted d kDefaultFg fb))
    have hbg : u₂.bg = kDefaultBg := erased_bg (d := d) nowhere nowhere (painted d kDefaultFg fb)
    rw [hfgc, hbg, ← ht₂] at hu₂
    exact hu₂
  rw [← hsame.fb, hkept] at hgone
  exact hgone.elim (fun h => absurd h (by decide)) fun h => absurd h (by decide)

/-! ## Rows that have not been written to -/

/-- **What `clear` does to the colours of the cells**: it looks at how many rows have been used. -/
theorem sure_clear_fgc (hr : 0 < rows d) (hc : 0 < cols d) (hs : OnGrid d s) (h : 1 ≤ s.used) :
    Sure (· = s) (clear d)
    fun t => t.fgc = (s.blank (band d 0 (s.usedRows d))).fgc := by
  have hblank : Sure (· = s) (blankAll d) (· = s.drawn d (band d 0 (s.usedRows d)) nowhere) := by
    refine .get_bind fun t ht => ?_
    subst ht
    exact sure_blankRows (usedRows_le t) (usedRows_nonneg hr h) hc.le
  refine .bind hblank fun _ => .bind (Q := fun t => OnGrid d t ∧ t.fgc =
    (s.blank (band d 0 (s.usedRows d))).fgc)
    (.modify fun t ht => ?_) fun _ t ht => ?_
  · subst ht
    exact ⟨⟨⟨⟨le_rfl, hc⟩, le_rfl, hr⟩, hs.block⟩, rfl⟩
  · refine (sure_repaintCursor_text ht.1).mono (fun _ => id) (fun u hu => ?_) t rfl
    exact (congrArg Text.fgc hu).trans ht.2

/-- The cursors are behind the last row, and for the rest the two look alike. -/
structure Below (d : Display) (s t : Screen) : Prop where
  /-- But for the row of the cursor they look alike. -/
  alike : Alike { s with cy := 0 } { t with cy := 0 }
  /-- The one is behind the last row, -/
  left : rows d ≤ s.cy
  /-- and so is the other. -/
  right : rows d ≤ t.cy
  /-- Both have drawn the cursor in one place. -/
  block : (s.curX, s.curY) = (t.curX, t.curY)

theorem Below.paint (h : Below d s t) (hy : y < rows d) : Below d (s.painted d x y)
    (t.painted d x y) := by
  have hoff : ∀ u : Screen, rows d ≤ u.cy → ¬(u.cursorOn ∧ x = u.cx ∧ y = u.cy) :=
    fun u hu hcur => by omega
  have hch : s.ch = t.ch := h.alike.ch
  have hfgc : s.fgc = t.fgc := h.alike.fgc
  have hbg : s.bg = t.bg := h.alike.bg
  have hfb : s.fb = t.fb := h.alike.fb
  refine ⟨⟨hch, hfgc, h.alike.cx, rfl, h.alike.cursorOn, h.alike.fg, hbg, ?_⟩,
    h.left, h.right, h.block⟩
  simp only [Screen.painted, if_neg (hoff s h.left), if_neg (hoff t h.right), hch, hfgc, hbg, hfb]

/-- **A new line behind the last row** leaves two consoles alike. -/
theorem follows_newline (hbelow : Below d { s with cx := 0, cy := s.cy + 1 }
      { t with cx := 0, cy := t.cy + 1 })
    (hblock : s.curY < rows d) : Follows (fun s' t' => s' = s ∧ t' = t) (newline d)
    (newline d) Alike := by
  let M : Screen → Screen → Prop := fun u v => Alike u v ∧ (u.curX, u.curY) = (v.curX, v.curY)
  refine .bind (M := fun u v => u = { s with cx := 0, cy := s.cy + 1 } ∧
    v = { t with cx := 0, cy := t.cy + 1 })
    (.modify ?_) fun _ => .get_bind fun u v huv => ?_
  · rintro u v ⟨rfl, rfl⟩
    exact ⟨rfl, rfl⟩
  obtain ⟨hu, hv⟩ := huv
  rw [← hu, ← hv] at hbelow
  have hy : u.curY < rows d := hu ▸ hblock
  have hstart : ∀ u' v', u' = u ∧ v' = v → Below d u' v' := by
    rintro u' v' ⟨rfl, rfl⟩
    exact hbelow
  rw [if_pos hbelow.left, if_pos hbelow.right]
  refine .bind (M := M) (.get_bind fun u' v' huv => ?_) fun _ => .of_states fun u v huv => ?_
  · obtain ⟨rfl, rfl⟩ := huv
    obtain ⟨hx', hy'⟩ := Prod.mk.inj hbelow.block
    rw [← hx', ← hy']
    refine .bind (M := Below d) (.ite Iff.rfl (fun _ => .bind (M := Below d) ?_ fun _ => .modify ?_)
      fun _ => .pure hstart) fun _ => .bind (M := Below d) (.forM fun y _ => .forM fun x _ =>
      .bind .guard fun _ => .bind .guard fun _ => .modify ?_) fun _ => .bind (M := M)
      (.modify ?_) fun _ => ?_
    · exact (Follows.bind .guard fun _ => .modify fun _ _ h => h.paint hy).mono hstart fun _ _ => id
    · exact fun _ _ h => ⟨⟨h.alike.ch, h.alike.fgc, h.alike.cx, rfl, h.alike.cursorOn,
        h.alike.fg, h.alike.bg,
        h.alike.fb⟩, h.left, h.right, Prod.ext rfl (Prod.mk.inj h.block).2⟩
    · intro u v h
      have hch : u.ch = v.ch := h.alike.ch
      have hfgc : u.fgc = v.fgc := h.alike.fgc
      exact ⟨⟨by simp only [hch], by simp only [hfgc], h.alike.cx, rfl, h.alike.cursorOn,
        h.alike.fg, h.alike.bg,
        h.alike.fb⟩, h.left, h.right, h.block⟩
    · intro u v h
      have hbg : u.bg = v.bg := h.alike.bg
      have hfb : u.fb = v.fb := h.alike.fb
      exact ⟨⟨h.alike.ch, h.alike.fgc, h.alike.cx, rfl, h.alike.cursorOn, h.alike.fg, hbg,
        by simp only [hbg, hfb]⟩, h.block⟩
    · exact .forM fun x _ => .bind .guard fun _ => .modify fun u v h => ⟨h.1.blanked x _, h.2⟩
  · refine (follows_repaintCursor (a := u.spot) (b := v.spot) (.inl huv.2)).mono ?_ fun _ _ => id
    rintro u' v' ⟨rfl, rfl⟩
    exact ⟨huv.1, rfl, rfl⟩

theorem setAt_self {α : Type} (f : ℤ → ℤ → α) (y x : ℤ) : setAt f y x (f y x) = f := by
  funext y' x'
  rw [setAt]
  split
  · next h => rw [h.1, h.2]
  · rfl

/-- **A character that is there already**, in the last cell, does what a new line does. -/
theorem exec_draw_last (h : OnGrid d s) (hx : cols d ≤ s.cx + 1) (hy : rows d ≤ s.cy + 1)
    (hch : s.ch s.cy s.cx = c)
    (hfgc : s.fgc s.cy s.cx = s.fg) (hpaint : s.painted d s.cx s.cy = s) :
    exec (draw d c) s = exec (newline d) { s with
      cx := 0, cy := s.cy + 1, used := if s.used < s.cy + 1 then s.cy + 1 else s.used } := by
  let s₁ : Screen := { s with used := if s.used < s.cy + 1 then s.cy + 1 else s.used }
  have hset : ({ s with
      ch := setAt s.ch s.cy s.cx c
      fgc := setAt s.fgc s.cy s.cx s.fg
      used := if s.used < s.cy + 1 then s.cy + 1 else s.used } : Screen) = s₁ := by
    have hch' : setAt s.ch s.cy s.cx c = s.ch := by rw [← hch, setAt_self]
    have hfgc' : setAt s.fgc s.cy s.cx s.fg = s.fgc := by rw [← hfgc, setAt_self]
    rw [hch', hfgc']
  have hcells := h.cursor
  have hpaint₁ : s₁.painted d s.cx s.cy = s₁ :=
    congrArg (fun t : Screen => { t with used := if s.used < s.cy + 1 then s.cy + 1 else s.used })
      hpaint
  have htouch : exec (touch s.cy s.cx) s = (some (), s) := by
    have hc := cols_le d
    have hr := rows_le d
    rw [touch, exec_guard, if_pos (by obtain ⟨hx, hy⟩ := hcells; omega)]
  have htouch₁ : exec (touch s.cy s.cx) s₁ = (some (), s₁) := by
    rw [touch, exec_guard] at htouch ⊢
    exact Prod.ext (Prod.mk.inj htouch).1 rfl
  have hpainted : exec (paint d s.cx s.cy) s₁ = (some (), s₁) := by
    rw [paint, exec_bind_of_some htouch₁, exec_modify, hpaint₁]
  rw [draw, exec_get_bind, exec_bind_of_some htouch, exec_bind_of_some (exec_modify _ _), hset,
    exec_bind_of_some hpainted, exec_bind_of_some (exec_modify _ _), exec_get_bind, if_pos hx,
    exec_bind_of_some (exec_modify _ _), exec_get_bind, if_pos hy]

/-- **The cell of the cursor has been painted** when the cursor is drawn. -/
theorem painted_erased (h : InGrid d s.cx s.cy) (hon : s.cursorOn = true) :
    (s.erased d nowhere nowhere).painted d s.cx s.cy = s.erased d nowhere nowhere := by
  have hset : s.erased d nowhere nowhere =
      { s.drawn d nowhere (s.withCursor nowhere) with curX := s.cx, curY := s.cy } := if_pos hon
  have hcursor : s.withCursor nowhere s.cy s.cx = true := by
    have : s.isCursor s.cy s.cx = true := decide_eq_true ⟨hon, rfl, rfl⟩
    rw [Screen.withCursor, this, Bool.or_true]
  have hsame : s.drawn d nowhere (also (s.withCursor nowhere) s.cy s.cx) =
      s.drawn d nowhere (s.withCursor nowhere) := by
    refine drawn_congr (fun _ _ => rfl) (fun y x => ?_) s
    rw [also]
    by_cases hyx : y = s.cy ∧ x = s.cx
    · rw [hyx.1, hyx.2, hcursor, Bool.true_or]
    · rw [decide_eq_false hyx, Bool.or_false]
  rw [hset]
  show { (s.drawn d nowhere (s.withCursor nowhere)).painted d s.cx s.cy with
    curX := s.cx, curY := s.cy } = _
  rw [painted_drawn h, hsame]

/-- A console whose cursor is in the last cell, where nothing has been written. The colour of the
text is that of the cells when the kernel starts. -/
def atLast (d : Display) (fb : Pixels) : Screen :=
  ({ painted d 0 fb with cx := cols d - 1, cy := rows d - 1 } : Screen).erased d nowhere nowhere

theorem inGrid_last (hc : 0 < cols d) (hr : 0 < rows d) : InGrid d (cols d - 1) (rows d - 1) :=
  ⟨⟨by omega, by omega⟩, by omega, by omega⟩

theorem onGrid_atLast (hc : 0 < cols d) (hr : 0 < rows d) : OnGrid d (atLast d fb) :=
  ⟨inGrid_last hc hr, fun _ => inGrid_last hc hr⟩

theorem run_atLast (hc : 0 < cols d) (hr : 0 < rows d) :
    run d [.setcolor 0 kDefaultBg, .gotoxy (cols d - 1) (rows d - 1)] (powerOn around fb) =
      some ⟨atLast d fb, (powerOn around fb).esc⟩ := by
  have hx : clampx d (cols d - 1) = cols d - 1 := by
    simp only [clampx]
    split_ifs <;> omega
  have hy : clampy d (rows d - 1) = rows d - 1 := by
    simp only [clampy]
    split_ifs <;> omega
  rw [run_painted hc hr, hx, hy]
  rfl

theorem Alike.symm (h : Alike s t) : Alike t s :=
  ⟨h.ch.symm, h.fgc.symm, h.cx.symm, h.cy.symm, h.cursorOn.symm, h.fg.symm, h.bg.symm, h.fb.symm⟩

/-- A byte outside of an escape sequence. -/
theorem putchar_plain (hs : k.esc.state = .plain) (hc : c ≠ 0x1B)
    (hx : exec (plain d c) k.screen = (some (), t)) :
    putchar d c k = some ⟨t, k.esc⟩ := by
  rw [putchar, if_neg (not_not_intro hs), if_neg hc, onScreen, result, hx]
  rfl

/-- A new line below the last row. -/
theorem newline_last (hc : 0 < cols d) (hr : 0 < rows d) (hlow : rows d ≤ s.cy + 1)
    (hblock : 0 ≤ s.curX → InGrid d s.curX s.curY) :
    ∃ t, exec (newline d) s = (some (), t) ∧ OnGrid d t ∧
      t.used = s.used ∧ t.fgc (rows d - 1) 0 = s.fg := by
  have hgrid := (sure_newline hc hr).mono
    (fun t (ht : t = s) => by subst ht; exact ⟨by omega, hblock⟩) fun _ => id
  obtain ⟨r, t, hres, hon, htext⟩ :=
    result_of_wp ((hgrid.both (sure_newline_text hc hr hlow hblock)) s rfl)
  have hrun := exec_of_result hres
  have hused : t.used = s.used := wp_of_some (Q := fun _ t => t.used = s.used)
    (used_newline (P := (· = s.used)) s rfl) hrun
  have hcell : span (rows d - 1) 0 (cols d) (rows d - 1) 0 = true :=
    decide_eq_true ⟨rfl, le_rfl, hc⟩
  refine ⟨t, hrun, hon, hused, (congrFun₂ (congrArg Text.fgc htext) (rows d - 1) 0).trans
    (if_pos hcell)⟩

/-- **Two consoles that look alike**, where one has used all rows and the other one a single row:
the last cell is written as it was, or it is not. -/
theorem atLast_alike (hc : 0 < cols d) (hr : 1 < rows d) : ∃ s t,
    putchar d 0 ⟨atLast d fb, (powerOn around fb).esc⟩ = some ⟨s, (powerOn around fb).esc⟩ ∧
      putchar d 0x0A ⟨atLast d fb, (powerOn around fb).esc⟩ = some ⟨t, (powerOn around fb).esc⟩ ∧
      Alike s t ∧ OnGrid d s ∧ OnGrid d t ∧ s.used = rows d ∧ t.used = 1 ∧
      s.fgc (rows d - 1) 0 = 0 := by
  have hr0 : 0 < rows d := by omega
  let u : Screen := atLast d fb
  let v : Screen := { u with cx := 0, cy := rows d, used := rows d }
  have hgrid : OnGrid d u := onGrid_atLast hc hr0
  have htext : u.text = ({ painted d 0 fb with cx := cols d - 1, cy := rows d - 1 } :
    Screen).text :=
    erased_nowhere_text _
  have hfg : u.fg = 0 := congrArg Text.fg htext
  have hlow : u.cy + 1 = rows d := sub_add_cancel (rows d) 1
  have hused : (if u.used < u.cy + 1 then u.cy + 1 else u.used) = rows d := by
    rw [hlow]
    exact if_pos hr
  have hdraw : exec (draw d 0) u = exec (newline d) v := by
    have hch : u.ch = fun _ _ => 0 := congrArg Text.ch htext
    have hfgc : u.fgc = fun _ _ => 0 := congrArg Text.fgc htext
    have hpaint : u.painted d u.cx u.cy = u := painted_erased
      (s := { painted d 0 fb with cx := cols d - 1, cy := rows d - 1 }) (inGrid_last hc hr0) rfl
    have hlast := exec_draw_last (c := 0) hgrid (sub_add_cancel (cols d) 1).ge hlow.ge (by rw [hch])
      (by rw [hfgc, hfg]) hpaint
    rw [hused, hlow] at hlast
    exact hlast
  obtain ⟨t, ht, htgrid, htused, -⟩ := newline_last hc hr0 hlow.ge hgrid.block
  obtain ⟨s, hs, hsgrid, hsused, hsfgc⟩ :=
    newline_last (s := v) hc hr0 (show rows d ≤ rows d + 1 by omega) hgrid.block
  have hbelow : Below d { v with cx := 0, cy := v.cy + 1 } { u with cx := 0, cy := u.cy + 1 } :=
    ⟨⟨rfl, rfl, rfl, rfl, rfl, rfl, rfl, rfl⟩, show rows d ≤ rows d + 1 by omega, hlow.ge, rfl⟩
  obtain ⟨t', ht', halike⟩ :=
    follows_newline hbelow (show rows d - 1 < rows d by omega) v u ⟨rfl, rfl⟩ () s hs
  obtain rfl : t' = t := (Prod.mk.inj (ht'.symm.trans ht)).2
  refine ⟨s, t', putchar_plain rfl (by decide) ?_, putchar_plain rfl (by decide) ?_, halike,
    hsgrid, htgrid, hsused,
    htused, hsfgc.trans hfg⟩
  · rw [plain, exec_get_bind, if_neg (by decide), if_neg (by decide), if_neg (by decide),
      if_neg (by decide)]
    exact hdraw.trans hs
  · rw [plain, exec_get_bind, if_pos rfl]
    exact ht

/-- `31` is the red of the text. -/
theorem sgrFrom_red {param : ℤ → ℤ} (h : param 0 = 31) (fg bg : UInt32) :
    sgrFrom param 1 1 0 fg bg = ((ansiFg 1 false, bg), [0]) := by
  simp [sgrFrom, sgrTurn, kMaxParam, rendition, h]

theorem exec_red (e : Escape) (hn : e.nparam = 1) (hp : e.param 0 = 31) (s : Screen) :
    exec (csiDispatch d e 0x6D) s = (some [0, 1, 0], { s with fg := ansiFg 1 false }) := by
  have hsgr : exec (sgr e) s = (some [0], { s with fg := ansiFg 1 false }) := by
    rw [sgr, exec_get_bind, hn]
    simp only [one_ne_zero, if_false, show (1 : ℤ).toNat = 1 from rfl, sgrFrom_red hp]
    rfl
  rw [csiDispatch, if_pos rfl, exec_bind_of_some hsgr]
  rfl

/-- The sequence that makes the text red. -/
theorem puts_red (hs : k.esc.state = .plain) :
    ∃ k', puts d (sequence [0x33, 0x31] 0x6D) k = some k' ∧
    k'.screen = { k.screen with fg := ansiFg 1 false } ∧ k'.esc.state = .plain := by
  have hb : ∀ c ∈ ([0x33, 0x31] : List UInt8), InBody c := by
    intro c hc
    simp only [List.mem_cons, List.not_mem_nil, or_false] at hc
    rcases hc with rfl | rfl
    · exact ⟨by decide, by decide⟩
    · exact ⟨by decide, by decide⟩
  have hred := exec_red (d := d) (k.esc.fed [0x33, 0x31]) rfl (fed_param k.esc rfl rfl) k.screen
  rw [puts_sequence_eq hs hb (by decide), result, hred]
  exact ⟨_, rfl, rfl, rfl⟩

theorem sure_csiDispatch_clear (hc : 0 < cols d) (hr : 0 < rows d)
    (h : e.param 0 = 2 ∨ e.param 0 = 3)
    (hs : OnGrid d s) (hused : 1 ≤ s.used) : Sure (· = s) (csiDispatch d e 0x4A)
      fun t => t.fgc = (s.blank (band d 0 (s.usedRows d))).fgc := by
  have ha : (if e.param 0 ≠ 0 then e.param 0 else 1) = 2 ∨ (if e.param 0 ≠ 0 then e.param 0
      else 1) = 3 := by
    rcases h with h | h
    · exact .inl (by rw [h]; rfl)
    · exact .inr (by rw [h]; rfl)
  rw [csiDispatch, if_neg (by decide)]
  refine .bind (.get_bind fun t ht => .get_bind fun u hu => ?_) fun _ => .pure fun _ => id
  subst ht hu
  rw [if_pos ha]
  exact sure_clear_fgc hr hc hs hused

theorem run_append (es es' : List Event) (k : Console) :
    run d (es ++ es') k = (run d es k).bind (run d es') :=
  List.foldlM_append

theorem run_putchar (l : List UInt8) (k : Console) : run d (l.map .putchar) k = puts d l k :=
  List.foldlM_map

/-- **A sequence that clears the display** sets the rows to blanks that have been used, and the text
may have another colour than the blanks. -/
theorem not_independent_clear (hc : 0 < cols d) (hr : 1 < rows d) {body : List UInt8}
    (hb : ∀ c ∈ body, InBody c)
    (hclear : ((powerOn around fb).esc.fed body).param 0 = 2 ∨
      ((powerOn around fb).esc.fed body).param 0 = 3) :
    ¬Independent d around fb body 0x4A := by
  intro h
  have hr0 : 0 < rows d := by omega
  obtain ⟨s, t, hs, ht, halike, hsgrid, htgrid, hsused, htused, hsfgc⟩ :=
    @atLast_alike d around fb hc hr
  obtain ⟨k₁, hred₁, hk₁, hplain₁⟩ := puts_red (d := d) (k := ⟨s, (powerOn around fb).esc⟩) rfl
  obtain ⟨k₂, hred₂, hk₂, hplain₂⟩ := puts_red (d := d) (k := ⟨t, (powerOn around fb).esc⟩) rfl
  have hrun : ∀ {c : UInt8} {u : Screen} {k : Console},
      putchar d c ⟨atLast d fb, (powerOn around fb).esc⟩ = some ⟨u, (powerOn around fb).esc⟩ →
      puts d (sequence [0x33, 0x31] 0x6D) ⟨u, (powerOn around fb).esc⟩ = some k →
      run d ([.setcolor 0 kDefaultBg, .gotoxy (cols d - 1) (rows d - 1)] ++
        (c :: sequence [0x33, 0x31] 0x6D).map .putchar) (powerOn around fb) = some k := by
    intro c u k hput hred
    rw [run_append, run_atLast hc hr0, Option.bind_some, run_putchar, puts, List.foldlM_cons, hput]
    exact hred
  have hparam : ∀ {es : List Event} {k : Console}, run d es (powerOn around fb) = some k →
      (k.esc.fed body).param 0 = 2 ∨ (k.esc.fed body).param 0 = 3 := by
    intro es k hrun
    have hbehind : ∀ i, kMaxParam ≤ i → k.esc.param i = (powerOn around fb).esc.param i :=
      fun i hi =>
      (run_behind es (behind_powerOn around fb) hrun i hi).trans
        (behind_powerOn around fb i hi).symm
    rw [(Agree.fed hbehind body).param 0 (.inl ⟨le_rfl, by exact_mod_cast Nat.succ_pos _⟩)]
    exact hclear
  have hsame : Alike k₁.screen k₂.screen := by
    rw [hk₁, hk₂]
    exact ⟨halike.ch, halike.fgc, halike.cx, halike.cy, halike.cursorOn, rfl, halike.bg, halike.fb⟩
  obtain ⟨t₁, t₂, hput₁, hput₂, hleft⟩ :=
    h _ _ k₁ k₂ (hrun hs hred₁) (hrun ht hred₂) hplain₁ hplain₂ hsame
  have hcleared : ∀ {k k' : Console}, k.esc.state = .plain → OnGrid d k.screen → 1 ≤ k.screen.used →
      ((k.esc.fed body).param 0 = 2 ∨ (k.esc.fed body).param 0 = 3) →
      puts d (sequence body 0x4A) k = some k' →
      k'.screen.fgc = (k.screen.blank (band d 0 (k.screen.usedRows d))).fgc := by
    intro k k' hplain hgrid hused hp hput
    obtain ⟨looked, u, hrun, hu⟩ :=
      result_of_wp (sure_csiDispatch_clear hc hr0 hp hgrid hused k.screen rfl)
    have hscreen := puts_sequence (d := d) hplain hb (show (0x40 : UInt8) ≤ 0x4A ∧
      (0x4A : UInt8) ≤ 0x7E by decide)
    rw [hput, hrun] at hscreen
    rw [Option.some.inj hscreen]
    exact hu
  have h₁ :=
    hcleared hplain₁ (hk₁ ▸ ⟨hsgrid.cursor, hsgrid.block⟩) (by rw [hk₁]; exact hsused ▸ hr0)
    (hparam (hrun hs hred₁)) hput₁
  have h₂ := hcleared hplain₂ (hk₂ ▸ ⟨htgrid.cursor, htgrid.block⟩) (by rw [hk₂]; exact htused.ge)
    (hparam (hrun ht hred₂)) hput₂
  have hall : k₁.screen.usedRows d = rows d := by
    rw [hk₁, Screen.usedRows, hsused, if_neg (lt_irrefl _)]
  have hone : k₂.screen.usedRows d = 1 := by
    rw [hk₂, Screen.usedRows, htused, if_neg (by omega)]
  have hin : band d 0 (rows d) (rows d - 1) 0 = true :=
    decide_eq_true ⟨⟨by omega, by omega⟩, le_rfl, hc⟩
  have hout : band d 0 1 (rows d - 1) 0 = false := decide_eq_false fun h => by omega
  have hred : t₁.screen.fgc (rows d - 1) 0 = ansiFg 1 false := by
    rw [h₁, hall, Screen.blank]
    simp only [hin, if_true]
    rw [hk₁]
  have hzero : t₂.screen.fgc (rows d - 1) 0 = 0 := by
    rw [h₂, hone, Screen.blank]
    simp only [hout, Bool.false_eq_true, if_false]
    rw [hk₂]
    exact (congrFun₂ halike.fgc (rows d - 1) 0).symm.trans hsfgc
  rw [hleft.fgc, hzero] at hred
  exact absurd hred (by decide)

/-! ## A parameter that is left over -/

/-- The console as it was when the kernel started, after a sequence that did nothing but leave its
parameters. -/
def leftOver (around : ℤ → ℤ) (fb : Pixels) : Console :=
  let k := powerOn around fb
  ⟨k.screen, { k.esc with
    param := Function.update (Function.update k.esc.param 0 0) 1 2, nparam := 2,
    looked := [1, 0, 1, 0, 1, 0] }⟩

/-- A sequence that does nothing leaves its parameters. -/
theorem run_leftOver : run d ([0x1B, 0x5B, 0x3B, 0x32, 0x6D].map .putchar) (powerOn around fb) =
    some (leftOver around fb) := by
  rfl

/-- A body without a semicolon brings no parameter. -/
theorem foldl_feed_param {body : List UInt8} (h : 0x3B ∉ body) (e : Escape) :
    (body.foldl Escape.feed e).param = e.param ∧ (body.foldl Escape.feed e).nparam = e.nparam := by
  induction body generalizing e with
  | nil => exact ⟨rfl, rfl⟩
  | cons c body ih =>
    rw [List.mem_cons, not_or] at h
    have hc : (e.feed c).param = e.param ∧ (e.feed c).nparam = e.nparam := by
      rw [Escape.feed]
      split_ifs with _ hsemi
      · exact ⟨rfl, rfl⟩
      · exact absurd hsemi.symm h.1
      · exact ⟨rfl, rfl⟩
      · exact ⟨rfl, rfl⟩
    exact ⟨(ih h.2 _).1.trans hc.1, (ih h.2 _).2.trans hc.2⟩

theorem fed_param_one {body : List UInt8} (h : 0x3B ∉ body) (e : Escape) :
    (e.fed body).param 1 = e.param 1 := by
  obtain ⟨hparam, hcount⟩ := foldl_feed_param h ({ e with state := .inCsi } : Escape).start
  rw [Escape.fed, push_param, hparam, hcount]
  exact Function.update_of_ne (show (1 : ℤ) ≠ 0 by decide) _ _

/-- Where `H` and `f` put the cursor. -/
theorem sure_home (hc : 0 < cols d) (hr : 0 < rows d) (e : Escape)
    (hf : final = 0x48 ∨ final = 0x66) :
    Sure (OnGrid d) (csiDispatch d e final) fun t =>
      t.cx = clampx d (wrap ((if e.param 1 ≠ 0 then e.param 1 else 1) - 1)) := by
  rcases hf with rfl | rfl
  · refine .bind (.get_bind fun s hs => ?_) fun _ => .pure fun _ => id
    exact (sure_moveTo_at hc hr _ _).mono (fun t ht => ht ▸ hs) fun t ht => (Prod.mk.inj ht.2).1
  · refine .bind (.get_bind fun s hs => ?_) fun _ => .pure fun _ => id
    exact (sure_moveTo_at hc hr _ _).mono (fun t ht => ht ▸ hs) fun t ht => (Prod.mk.inj ht.2).1

/-- Where the cursor is after `H` or `f` without a second parameter. -/
theorem cx_home (hc : 0 < cols d) (hr : 0 < rows d) (hk : OnGrid d k.screen)
    (hs : k.esc.state = .plain)
    {body : List UInt8} (hb : ∀ c ∈ body, InBody c) (hf : final = 0x48 ∨ final = 0x66)
    (hno : 0x3B ∉ body)
    (hput : puts d (sequence body final) k = some k') :
    k'.screen.cx = clampx d (wrap ((if k.esc.param 1 ≠ 0 then k.esc.param 1 else 1) - 1)) := by
  have hend : 0x40 ≤ final ∧ final ≤ 0x7E := by
    rcases hf with rfl | rfl <;> decide
  obtain ⟨looked, t, hrun, ht⟩ := result_of_wp (sure_home hc hr (k.esc.fed body) hf k.screen hk)
  have hsame := puts_sequence (d := d) hs hb hend
  rw [hput, hrun] at hsame
  rw [fed_param_one hno] at ht
  rw [← ht]
  exact congrArg Screen.cx (Option.some.inj hsame)

theorem not_independent_second (hc : 1 < cols d) (hr : 0 < rows d) {body : List UInt8}
    (hb : ∀ c ∈ body, InBody c)
    (hf : final = 0x48 ∨ final = 0x66) (hno : 0x3B ∉ body) :
    ¬Independent d around fb body final := by
  intro h
  have hc' : 0 < cols d := by omega
  obtain ⟨t₁, t₂, hput₁, hput₂, hsame⟩ := h [] _ _ _ rfl run_leftOver rfl rfl
    ⟨rfl, rfl, rfl, rfl, rfl, rfl, rfl, rfl⟩
  have hgrid : OnGrid d (powerOn around fb).screen := onGrid_powerOn hc' hr
  have h₁ := cx_home hc' hr hgrid rfl hb hf hno hput₁
  have h₂ := cx_home hc' hr (k := leftOver around fb) hgrid rfl hb hf hno hput₂
  rw [hsame.cx, h₂] at h₁
  have hleft : clampx d (wrap (2 - 1)) = 1 := by
    simp only [clampx, show wrap (2 - 1) = 1 from rfl]
    split_ifs <;> omega
  have hnone : clampx d (wrap (1 - 1)) = 0 := by
    simp only [clampx, show wrap (1 - 1) = 0 from rfl]
    split_ifs <;> omega
  exact absurd (hleft.symm.trans (h₁.trans hnone)) (by decide)

/-! ## Which sequences are independent -/

/-- **When a sequence does not depend on what was before.** -/
theorem independent_iff (d : Display) (hw : 8 ≤ d.width) (hh : 16 ≤ d.height)
    (around : ℤ → ℤ) (fb : Pixels)
    (body : List UInt8) (final : UInt8) (hb : ∀ c ∈ body, InBody c)
    (hf : 0x40 ≤ final ∧ final ≤ 0x7E) :
    Independent d around fb body final ↔ SelfContained d ((powerOn around fb).esc.fed body)
    body final := by
  have hc := cols_pos hw
  have hr := rows_pos hh
  refine ⟨fun h => ⟨?_, ?_, ?_⟩, independent_of hc hr hb hf⟩
  · by_contra hnot
    rw [not_or, not_or, not_and_or, not_not, not_not] at hnot
    exact not_independent_second (by omega) hr hb hnot.1 hnot.2.1 h
  · rintro rfl hclear
    by_contra hrows
    exact not_independent_clear hc (by omega) hb hclear h
  · intro p hp
    by_contra haway
    exact not_independent_away hc hr hb hf hp haway h

/-- A framebuffer of two columns, and the sequence that clears a line. -/
theorem independent_erase : Independent ⟨16, 16, fun _ _ => 0⟩ (fun _ => 0) (fun _ _ => 0) [] 0x4B ↔
    SelfContained ⟨16, 16, fun _ _ => 0⟩ ((powerOn (fun _ => 0) fun _ _ => 0).esc.fed []) [] 0x4B :=
  independent_iff _ (by decide) le_rfl _ _ [] 0x4B nofun (by decide)

/-- The cursor goes home, or into the second column if an earlier sequence has left a second
parameter. -/
theorem home_depends : (∀ c ∈ ([] : List UInt8), InBody c) ∧ 0x40 ≤ (0x48 : UInt8) ∧
    (0x48 : UInt8) ≤ 0x7E ∧
    ¬Independent ⟨16, 16, fun _ _ => 0⟩ (fun _ => 0) (fun _ _ => 0) [] 0x48 :=
  ⟨nofun, by decide, by decide, not_independent_second (by decide) (by decide) nofun
    (.inl rfl) List.not_mem_nil⟩

end Console

end Aurisys
