import Aurisys.Kernel.Escape

/-!
# One escape sequence after another

`csi_start` sets the count of the parameters to zero and leaves the parameters as they are. `sgr`
looks at the count before it uses one of them, and `csi_dispatch` does not: it has a look at the
first two, whatever the count is. A sequence always has a first one, because `csi_push` is called at
its end.

Two consoles with the same screen are fed the same sequence. Where their parameters agree is said by
how many of them the sequence has brought so far.

## Main definitions

* `Console.sequence` — an escape sequence from its first byte to its last
* `Console.Agree` — the parameters that a sequence has brought are the same
* `Console.Behind` — behind the array there is what was there at the start

## Main results

* `Console.puts_sequence` — what a sequence does
* `Console.csiDispatch_congr` — on which parameters that depends
* `Console.run_behind`
-/

namespace Aurisys

open Fallible

namespace Console

variable {d : Display} {k k' k₁ k₂ : Console} {e e₁ e₂ : Escape} {c final : UInt8} {m : ℕ}
  {around : ℤ → ℤ} {fb : Pixels}

/-! ## The body of a sequence -/

/-- What a byte between the first two and the last one does. -/
def Escape.feed (e : Escape) (c : UInt8) : Escape :=
  if 0x30 ≤ c ∧
    c ≤ 0x39 then { e with pend := wrap (e.pend * 10 + (c.toNat - 0x30)), pendSet := true }
  else if c = 0x3B then e.push
  else if c = 0x3F then { e with priv := true }
  else e

/-- A byte that neither ends the sequence nor starts another one. -/
def InBody (c : UInt8) : Prop := ¬(0x40 ≤ c ∧ c ≤ 0x7E) ∧ c ≠ 0x1B

/-- A sequence from its first byte to its last. -/
def sequence (body : List UInt8) (final : UInt8) : List UInt8 := [0x1B, 0x5B] ++ body ++ [final]

theorem feed_state (e : Escape) (c : UInt8) : (e.feed c).state = e.state := by
  rw [Escape.feed, Escape.push]
  split_ifs <;> rfl

theorem escape_feed (hs : k.esc.state = .inCsi) (hc : InBody c) :
    escape d c k = some { k with esc := k.esc.feed c } := by
  simp only [escape, hs, Escape.feed, if_neg hc.1, if_neg hc.2]
  split_ifs <;> rfl

theorem putchar_feed (hs : k.esc.state = .inCsi) (hc : InBody c) :
    putchar d c k = some { k with esc := k.esc.feed c } := by
  rw [putchar, if_pos (by rw [hs]; decide), escape_feed hs hc]

theorem puts_body {body : List UInt8} (hs : k.esc.state = .inCsi) (hb : ∀ c ∈ body, InBody c) :
    puts d body k = some { k with esc := body.foldl Escape.feed k.esc } := by
  induction body generalizing k with
  | nil => rfl
  | cons c body ih =>
    rw [puts, List.foldlM_cons, putchar_feed hs (hb c (List.mem_cons_self ..))]
    exact ih (by rw [feed_state]; exact hs) fun b hb' => hb b (List.mem_cons_of_mem _ hb')

theorem foldl_feed_state (body : List UInt8) (e : Escape) :
    (body.foldl Escape.feed e).state = e.state := by
  induction body generalizing e with
  | nil => rfl
  | cons c body ih => rw [List.foldl_cons, ih, feed_state]

/-- How far the sequence is when its last byte comes. -/
def Escape.fed (e : Escape) (body : List UInt8) : Escape :=
  (body.foldl Escape.feed ({ e with state := .inCsi } : Escape).start).push

theorem puts_append (l₁ l₂ : List UInt8) (k : Console) :
    puts d (l₁ ++ l₂) k = (puts d l₁ k).bind (puts d l₂) :=
  List.foldlM_append

/-- The last byte of a sequence. -/
theorem putchar_final (hs : k.esc.state = .inCsi) (hf : 0x40 ≤ final ∧ final ≤ 0x7E) :
    putchar d final k = ((csiDispatch d k.esc.push final).result k.screen).map fun (looked, s) =>
      ⟨s, { k.esc.push with state := .plain, looked := looked.reverse ++ k.esc.push.looked }⟩ := by
  have hdigit : ¬(0x30 ≤ final ∧ final ≤ 0x39) :=
    fun h => absurd (UInt8.le_trans hf.1 h.2) (by decide)
  have hsemi : final ≠ 0x3B := by
    rintro rfl
    exact absurd hf.1 (by decide)
  have hmark : final ≠ 0x3F := by
    rintro rfl
    exact absurd hf.1 (by decide)
  rw [putchar, if_pos (by rw [hs]; decide)]
  simp only [escape, hs, if_neg hdigit, if_neg hsemi, if_neg hmark, if_pos hf]

/-- A sequence up to its last byte. -/
theorem puts_sequence_eq {body : List UInt8} (hs : k.esc.state = .plain) (hb : ∀ c ∈ body, InBody c)
    (hf : 0x40 ≤ final ∧ final ≤ 0x7E) : puts d (sequence body final) k =
      ((csiDispatch d (k.esc.fed body) final).result k.screen).map fun (looked, s) =>
        ⟨s, { k.esc.fed body with
          state := .plain, looked := looked.reverse ++ (k.esc.fed body).looked }⟩ := by
  have hstart : puts d [0x1B, 0x5B] k =
      some { k with esc := ({ k.esc with state := .inCsi } : Escape).start } := by
    simp [puts, putchar, hs, escape]
  have hbody := puts_body (d := d) (k :=
    { k with esc := ({ k.esc with state := .inCsi } : Escape).start }) rfl hb
  have hlast := @putchar_final d
    { k with esc := body.foldl Escape.feed ({ k.esc with state := .inCsi } : Escape).start } final
    (foldl_feed_state _ _) hf
  rw [← Escape.fed] at hlast
  rw [sequence, puts_append, puts_append, hstart, Option.bind_some, hbody,
    Option.bind_some, ← hlast, puts,
    List.foldlM_cons]
  exact bind_pure _

/-- **What a sequence does** to the screen. -/
theorem puts_sequence {body : List UInt8} (hs : k.esc.state = .plain) (hb : ∀ c ∈ body, InBody c)
    (hf : 0x40 ≤ final ∧ final ≤ 0x7E) : (puts d (sequence body final) k).map Console.screen =
      ((csiDispatch d (k.esc.fed body) final).result k.screen).map Prod.snd := by
  rw [puts_sequence_eq hs hb hf, Option.map_map]
  rfl

/-! ## Two consoles -/

/-- The parameters that a sequence has brought are the same, and so is what is behind the array. -/
structure Agree (m : ℕ) (e₁ e₂ : Escape) : Prop where
  left : e₁.nparam = wrap m
  right : e₂.nparam = wrap m
  pend : e₁.pend = e₂.pend
  priv : e₁.priv = e₂.priv
  param : ∀ i : ℤ, 0 ≤ i ∧ i < m ∨ kMaxParam ≤ i → e₁.param i = e₂.param i

theorem wrap_succ (z : ℤ) : wrap (wrap z + 1) = wrap (z + 1) := by
  simp [wrap]

theorem wrap_small {z : ℤ} (h0 : 0 ≤ z) (h : z < 8) : wrap z = z := by
  rw [wrap, Int.bmod_def]
  omega

theorem push_param (e : Escape) :
    e.push.param = if e.nparam < kMaxParam then Function.update e.param e.nparam e.pend
    else e.param := by
  rw [Escape.push]
  split <;> rfl

theorem push_nparam (e : Escape) : e.push.nparam = wrap (e.nparam + 1) := by
  rw [Escape.push]
  split <;> rfl

theorem push_priv (e : Escape) : e.push.priv = e.priv := by
  rw [Escape.push]
  split <;> rfl

theorem Agree.push (h : Agree m e₁ e₂) : Agree (m + 1) e₁.push e₂.push := by
  have hnext : wrap ((m + 1 : ℕ) : ℤ) = wrap (wrap m + 1) := by rw [wrap_succ, Nat.cast_succ]
  refine ⟨by rw [push_nparam, h.left, hnext], by rw [push_nparam, h.right, hnext], rfl,
    by rw [push_priv, push_priv, h.priv], fun i hi => ?_⟩
  have hcases : (m : ℤ) < 8 ∧ wrap m = m ∨ kMaxParam ≤ (m : ℤ) := by
    rcases lt_or_ge (m : ℤ) 8 with hm | hm
    · exact .inl ⟨hm, wrap_small (Int.natCast_nonneg m) hm⟩
    · exact .inr hm
  have hstep : i = m ∨ 0 ≤ i ∧ i < m ∨ kMaxParam ≤ i := by
    push_cast at hi
    omega
  have hold : i ≠ wrap m → e₁.param i = e₂.param i := by
    intro hne
    rcases hstep with rfl | hlt
    · rcases hcases with ⟨-, hw⟩ | hm
      · exact absurd hw.symm hne
      · exact h.param _ (.inr hm)
    · exact h.param i hlt
  rw [push_param, push_param, h.left, h.right, h.pend]
  split
  · next hlt =>
    by_cases hat : i = wrap m
    · rw [hat, Function.update_self, Function.update_self]
    · rw [Function.update_of_ne hat, Function.update_of_ne hat, hold hat]
  · next hge =>
    refine h.param i ?_
    rcases hcases with ⟨hm, hw⟩ | hm
    · rw [hw] at hge
      exact absurd hm hge
    · rcases hstep with rfl | hlt
      · exact .inr hm
      · exact hlt

theorem Agree.feed (h : Agree m e₁ e₂) (c : UInt8) :
    Agree (m + if c = 0x3B then 1 else 0) (e₁.feed c) (e₂.feed c) := by
  rw [Escape.feed, Escape.feed]
  by_cases hdigit : 0x30 ≤ c ∧ c ≤ 0x39
  · have hsemi : c ≠ 0x3B := by
      rintro rfl
      exact absurd hdigit.2 (by decide)
    rw [if_pos hdigit, if_pos hdigit, if_neg hsemi]
    exact ⟨h.left, h.right, by simp only [h.pend], h.priv, h.param⟩
  · rw [if_neg hdigit, if_neg hdigit]
    by_cases hsemi : c = 0x3B
    · rw [if_pos hsemi, if_pos hsemi, if_pos hsemi]
      exact h.push
    · rw [if_neg hsemi, if_neg hsemi, if_neg hsemi]
      by_cases hmark : c = 0x3F
      · rw [if_pos hmark, if_pos hmark]
        exact ⟨h.left, h.right, h.pend, rfl, h.param⟩
      · rw [if_neg hmark, if_neg hmark]
        exact h

/-- **The body of a sequence** brings a parameter at each semicolon. -/
theorem Agree.foldl (h : Agree m e₁ e₂) (body : List UInt8) :
    Agree (m + body.count 0x3B) (body.foldl Escape.feed e₁) (body.foldl Escape.feed e₂) := by
  induction body generalizing m e₁ e₂ with
  | nil => exact h
  | cons c body ih =>
    have hfeed := ih (h.feed c)
    rw [List.foldl_cons, List.foldl_cons, List.count_cons]
    simp only [beq_iff_eq, Nat.add_assoc, Nat.add_comm (body.count 0x3B)] at hfeed ⊢
    exact hfeed

theorem Agree.fed (h : ∀ i, kMaxParam ≤ i → e₁.param i = e₂.param i) (body : List UInt8) :
    Agree (body.count 0x3B + 1) (e₁.fed body) (e₂.fed body) := by
  have hstart : Agree 0 ({ e₁ with state := .inCsi } : Escape).start
    ({ e₂ with state := .inCsi } : Escape).start :=
    ⟨rfl, rfl, rfl, rfl, fun i hi => h i (by omega)⟩
  have := (hstart.foldl body).push
  rwa [Nat.zero_add] at this

theorem wrap_le (m : ℕ) : wrap m ≤ m := by
  rw [wrap, Int.bmod_def]
  omega

theorem sgrTurn_congr {p q : ℤ → ℤ} {n i : ℤ} (hi : 0 ≤ i) (hn : i < n)
    (h : ∀ j, 0 ≤ j → j < n → p j = q j)
    (fg bg : UInt32) : sgrTurn p n i fg bg = sgrTurn q n i fg bg := by
  simp only [sgrTurn, h i hi hn]
  generalize (if i < kMaxParam then q i else 0) = first
  generalize (if i < kMaxParam then [i] else []) = here
  split
  · next hform =>
    rw [h (i + 1) (by omega) hform.2]
    split
    · next hrgb =>
      rw [h (i + 2) (by omega) (by omega), h (i + 3) (by omega) (by omega),
        h (i + 4) (by omega) hrgb.2]
    · split
      · next hone => rw [h (i + 2) (by omega) hone.2]
      · rfl
  · rfl

theorem sgrFrom_congr {p q : ℤ → ℤ} {n i : ℤ} (hi : 0 ≤ i) (h : ∀ j, 0 ≤ j → j < n →
      p j = q j) (fuel : ℕ)
    (fg bg : UInt32) : sgrFrom p n fuel i fg bg = sgrFrom q n fuel i fg bg := by
  induction fuel generalizing i fg bg with
  | zero => rfl
  | succ fuel ih =>
    rw [sgrFrom, sgrFrom]
    split
    · rfl
    · next hn =>
      have hpos : 1 ≤ taken q n i := one_le_taken
      have hnext : 0 ≤ (sgrTurn q n i fg bg).2.1 := by
        rw [sgrTurn_next]
        omega
      rw [sgrTurn_congr hi (not_le.mp hn) h]
      simp only [ih hnext]

theorem moveTo_congr {x x' : ℤ} (h : clampx d x = clampx d x') (y : ℤ) :
    moveTo d x y = moveTo d x' y := by
  rw [moveTo, moveTo, h]

/-- The second parameter matters where the cursor is put at a place. -/
theorem command_congr {priv : Bool} {a b b' : ℤ}
    (h : (final ≠ 0x48 ∧ final ≠ 0x66) ∨ clampx d (wrap (b - 1)) = clampx d (wrap (b' - 1))) :
    command d priv a b final = command d priv a b' final := by
  rw [command, command]
  refine congrArg (get >>= ·) (funext fun s => ?_)
  split
  case h_6 => exact moveTo_congr (h.resolve_left fun hf => hf.1 rfl) _
  case h_7 => exact moveTo_congr (h.resolve_left fun hf => hf.2 rfl) _
  all_goals rfl

/-- With one column there is one place to go to. -/
theorem clampx_of_one (h : cols d = 1) (x : ℤ) : clampx d x = 0 := by
  rw [clampx, h]
  split_ifs <;> omega

/-- **What a command does** depends on the parameters that the sequence has brought, and at two
commands on the second one also if there is none. -/
theorem csiDispatch_congr (h : Agree (m + 1) e₁ e₂)
    (hsecond : (final ≠ 0x48 ∧ final ≠ 0x66) ∨ 0 < m ∨ cols d = 1) :
    csiDispatch d e₁ final = csiDispatch d e₂ final := by
  have hfirst : e₁.param 0 = e₂.param 0 := h.param 0 (.inl ⟨le_rfl, by exact_mod_cast m.succ_pos⟩)
  have hcount : e₁.nparam = e₂.nparam := h.left.trans h.right.symm
  rw [csiDispatch, csiDispatch]
  split
  · have hloop : ∀ fg bg, sgrFrom e₁.param e₁.nparam e₁.nparam.toNat 0 fg bg =
        sgrFrom e₂.param e₂.nparam e₂.nparam.toNat 0 fg bg := by
      intro fg bg
      rw [hcount]
      refine sgrFrom_congr le_rfl (fun j hj hlt => h.param j (.inl ⟨hj, ?_⟩)) _ fg bg
      exact hlt.trans_le (h.right ▸ wrap_le _)
    have hsgr : sgr e₁ = sgr e₂ := by
      simp only [sgr, hloop]
      rw [hcount]
    rw [hsgr]
  · rw [hfirst, h.priv]
    refine congrArg (· >>= _) (command_congr ?_)
    rcases hsecond with hf | hm | hone
    · exact .inl hf
    · rw [h.param 1 (.inl ⟨by decide, by exact_mod_cast Nat.succ_lt_succ hm⟩)]
      exact .inr rfl
    · exact .inr ((clampx_of_one hone _).trans (clampx_of_one hone _).symm)

/-! ## What is behind the array -/

/-- Behind the array there is what was there when the kernel started. -/
def Behind (around : ℤ → ℤ) (k : Console) : Prop := ∀ i, kMaxParam ≤ i → k.esc.param i = around i

theorem esc_of_onScreen {x : Draw Unit} (h : onScreen x k = some k') : k'.esc = k.esc := by
  obtain ⟨⟨-, s⟩, -, rfl⟩ := Option.map_eq_some_iff.mp h
  rfl

theorem push_behind (h : Behind around k) {i : ℤ} (hi : kMaxParam ≤ i) :
    k.esc.push.param i = around i := by
  rw [push_param]
  split
  · next hlt => rw [Function.update_of_ne (hlt.trans_le hi).ne', h i hi]
  · exact h i hi

theorem putchar_behind (h : Behind around k) (hput : putchar d c k = some k') :
    Behind around k' := by
  intro i hi
  rw [putchar, escape] at hput
  split at hput
  · split at hput
    case h_1 =>
      obtain rfl := Option.some.inj hput
      exact h i hi
    case h_2 =>
      split_ifs at hput <;> obtain rfl := Option.some.inj hput
      all_goals exact h i hi
    case h_3 =>
      split_ifs at hput
      · obtain rfl := Option.some.inj hput
        exact h i hi
      · obtain rfl := Option.some.inj hput
        exact push_behind h hi
      · obtain rfl := Option.some.inj hput
        exact h i hi
      · obtain ⟨⟨looked, t⟩, -, rfl⟩ := Option.map_eq_some_iff.mp hput
        exact push_behind h hi
      · obtain rfl := Option.some.inj hput
        exact h i hi
      · obtain rfl := Option.some.inj hput
        exact h i hi
    case h_4 =>
      split_ifs at hput <;> obtain rfl := Option.some.inj hput
      all_goals exact h i hi
  · split at hput
    · obtain rfl := Option.some.inj hput
      exact h i hi
    · rw [esc_of_onScreen hput]
      exact h i hi

theorem puts_behind (l : List UInt8) (h : Behind around k) (hputs : puts d l k = some k') :
    Behind around k' := by
  induction l generalizing k with
  | nil =>
    obtain rfl := Option.some.inj hputs
    exact h
  | cons c l ih =>
    rw [puts, List.foldlM_cons] at hputs
    obtain ⟨k₁, hput, hrest⟩ := Option.bind_eq_some_iff.mp hputs
    exact ih (putchar_behind h hput) hrest

theorem step_behind {ev : Event} (h : Behind around k) (hstep : step d ev k = some k') :
    Behind around k' := by
  have hdraw : ∀ {x : Draw Unit}, onScreen x k = some k' → Behind around k' := by
    intro x hx i hi
    rw [esc_of_onScreen hx]
    exact h i hi
  cases ev with
  | putchar c => exact putchar_behind h hstep
  | init note =>
    have hblank : ∀ k₁ : Console, Behind around k₁ → onScreen (blankAll d) k₁.reset = some k' →
        Behind around k' := by
      intro k₁ hk₁ hrun i hi
      rw [esc_of_onScreen hrun]
      exact hk₁ i hi
    let start : Console := ⟨{ k.screen with fg := kDefaultFg, bg := kDefaultBg }, k.esc⟩
    rw [step, init] at hstep
    split at hstep
    · obtain ⟨k₁, hnote, hrun⟩ := Option.bind_eq_some_iff.mp hstep
      exact hblank k₁ (puts_behind note (k := start) h hnote) hrun
    · exact hblank start h hstep
  | setcolor fg bg => exact hdraw hstep
  | cursorVisible on => exact hdraw hstep
  | clear => exact hdraw hstep
  | gotoxy x y => exact hdraw hstep

theorem run_behind (es : List Event) (h : Behind around k) (hrun : run d es k = some k') :
    Behind around k' := by
  induction es generalizing k with
  | nil =>
    obtain rfl := Option.some.inj hrun
    exact h
  | cons ev es ih =>
    rw [run, List.foldlM_cons] at hrun
    obtain ⟨k₁, hstep, hrest⟩ := Option.bind_eq_some_iff.mp hrun
    exact ih (step_behind h hstep) hrest

theorem behind_powerOn (around : ℤ → ℤ) (fb : Pixels) : Behind around (powerOn around fb) :=
  fun _ hi =>
  if_neg fun h => absurd (hi.trans_lt h.2) (lt_irrefl _)

theorem onGrid_powerOn (hc : 0 < cols d) (hr : 0 < rows d) : OnGrid d (powerOn around fb).screen :=
  ⟨⟨⟨le_rfl, hc⟩, le_rfl, hr⟩, fun h => absurd (show (0 : ℤ) ≤ -1 from h) (by decide)⟩

end Console

end Aurisys
