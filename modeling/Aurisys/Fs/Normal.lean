import Aurisys.Fs.Path
import Mathlib.Data.List.TakeDrop
import Mathlib.Data.List.TakeWhile
import Mathlib.Data.Option.Basic

/-!
# Normal paths

What `resolve` is for: a path names a walk through directories, and its normal form lists the
directories the walk is in at the end. The walk is a list of names; `.` does nothing to it, `..`
takes the last name off, and there is nothing above the root.

The buffer of `resolve` holds the normal form of where the walk is, but for the root, which may be
there as a slash or as nothing. With that the loop follows the walk step by step, and it gives up
when the next normal form would not fit.

## Main definitions

* `IsName`, `render` — the names a normal path is made of, and its text
* `walk` — where the components of a path lead
* `writeEnds` — where each write to the buffer ends

## Main results

* `components_render`, `follow_eq`
* `resolve_normal`
-/

namespace Aurisys

namespace Path

/-- A component that is the name of something. -/
def IsName (c : Str) : Prop := c ≠ [] ∧ slash ∉ c ∧ c ≠ [dot] ∧ c ≠ [dot, dot]

instance (c : Str) : Decidable (IsName c) := inferInstanceAs (Decidable (_ ∧ _ ∧ _ ∧ _))

/-- A slash in front of each name. -/
def body (cs : List Str) : Str := (cs.map (slash :: ·)).flatten

/-- The text of a normal path. -/
def render (cs : List Str) : Str := if cs = [] then [slash] else body cs

/-- One component of a path. -/
def enter (cs : List Str) (c : Str) : List Str :=
  if c = [dot] then cs else if c = [dot, dot] then cs.dropLast else cs ++ [c]

/-- Where components lead. -/
def walk (start comps : List Str) : List Str := comps.foldl enter start

/-- Where a path starts that is seen from `base`. -/
def start (path : Str) (base : List Str) : List Str := if path.head? = some slash then [] else base

/-- Every normal form on the way fits the buffer of `resolve`. -/
def Fits (start comps : List Str) : Prop :=
  ∀ n ≤ comps.length, (render (walk start (comps.take n))).length ≤ 255

instance (start comps : List Str) : Decidable (Fits start comps) :=
  inferInstanceAs (Decidable (∀ n ≤ comps.length, _))

/-- Where each write of the loop of `resolve` ends, from the start of the buffer. -/
def writeEnds (room : ℕ) : List Str → Str → List ℕ
  | [], _ => []
  | c :: cs, tmp =>
    if c = [dot] then writeEnds room cs tmp
    else if c = [dot, dot] then writeEnds room cs (parentDir tmp)
    else
      let tmp := if tmp.getLast? = some slash then tmp else tmp ++ [slash]
      tmp.length :: if room ≤ tmp.length + c.length then []
        else (tmp ++ c).length :: writeEnds room cs (tmp ++ c)

variable {cs bs : List Str} {c tmp path : Str}

/-! ## The text of a path -/

theorem body_append (cs ds : List Str) : body (cs ++ ds) = body cs ++ body ds := by
  rw [body, body, body, List.map_append, List.flatten_append]

theorem body_singleton (c : Str) : body [c] = slash :: c := by
  rw [body, List.map_singleton, List.flatten_singleton]

theorem body_eq_nil : body cs = [] ↔ cs = [] := by
  cases cs with
  | nil => exact iff_of_true rfl rfl
  | cons c cs => simp [body]

theorem render_append (cs : List Str) (c : Str) : render (cs ++ [c]) = body cs ++ slash :: c := by
  rw [render, if_neg (by simp), body_append, body_singleton]

/-- A component that has been read so far, and what follows without a slash. -/
theorem componentsFrom_append (cur c s : Str) (hc : slash ∉ c) :
    componentsFrom cur (c ++ s) = componentsFrom (cur ++ c) s := by
  induction c generalizing cur with
  | nil => rw [List.nil_append, List.append_nil]
  | cons a c ih =>
    have ha : a ≠ slash := fun h => hc (h ▸ List.mem_cons_self ..)
    rw [List.cons_append, componentsFrom, if_neg ha, ih _ fun h => hc (List.mem_cons_of_mem _ h),
      List.append_assoc, List.singleton_append]

theorem componentsFrom_body (hcs : ∀ d ∈ cs, IsName d) (cur : Str) :
    componentsFrom cur (body cs) = if cur = [] then cs else cur :: cs := by
  induction cs generalizing cur with
  | nil => rfl
  | cons c cs ih =>
    have hc := hcs c (List.mem_cons_self ..)
    have hrest := ih (fun d hd => hcs d (List.mem_cons_of_mem _ hd)) c
    rw [if_neg hc.1] at hrest
    have hbody : body (c :: cs) = slash :: (c ++ body cs) := rfl
    rw [hbody, componentsFrom, if_pos rfl, componentsFrom_append _ _ _ hc.2.1,
      List.nil_append, hrest]

/-- **The components of a normal path** are its names. -/
theorem components_render (hcs : ∀ d ∈ cs, IsName d) : components (render cs) = cs := by
  rw [components, render]
  split
  · next h => rw [h]; rfl
  · rw [componentsFrom_body hcs, if_pos rfl]

/-- What is between slashes is not empty and has no slash in it. -/
theorem mem_componentsFrom {cur s : Str} (hcur : slash ∉ cur) (hc : c ∈ componentsFrom cur s) :
    c ≠ [] ∧ slash ∉ c := by
  induction s generalizing cur with
  | nil =>
    rw [componentsFrom] at hc
    split at hc
    · exact absurd hc List.not_mem_nil
    · next h =>
      rw [List.mem_singleton] at hc
      exact hc ▸ ⟨h, hcur⟩
  | cons a s ih =>
    rw [componentsFrom] at hc
    split at hc
    · split at hc
      · exact ih List.not_mem_nil hc
      · next h =>
        rcases List.mem_cons.mp hc with rfl | hc
        · exact ⟨h, hcur⟩
        · exact ih List.not_mem_nil hc
    · next ha =>
      refine ih ?_ hc
      rw [List.mem_append, List.mem_singleton]
      exact fun h => h.elim hcur fun h => ha h.symm

theorem mem_components (hc : c ∈ components path) : c ≠ [] ∧ slash ∉ c :=
  mem_componentsFrom List.not_mem_nil hc

/-- A step of the walk keeps a normal path normal. -/
theorem isName_enter (hcs : ∀ d ∈ cs, IsName d) (hc : c ≠ [] ∧ slash ∉ c) :
    ∀ d ∈ enter cs c, IsName d := by
  intro d hd
  rw [enter] at hd
  split at hd
  · exact hcs d hd
  · next hdot =>
    split at hd
    · exact hcs d (List.dropLast_subset _ hd)
    · next hdots =>
      rcases List.mem_append.mp hd with hd | hd
      · exact hcs d hd
      · rw [List.mem_singleton] at hd
        exact hd ▸ ⟨hc.1, hc.2, hdot, hdots⟩

theorem isName_walk {comps : List Str} (hcs : ∀ d ∈ cs, IsName d)
    (hcomps : ∀ c ∈ comps, c ≠ [] ∧ slash ∉ c) : ∀ d ∈ walk cs comps, IsName d := by
  induction comps generalizing cs with
  | nil => exact hcs
  | cons c comps ih =>
    exact ih (isName_enter hcs (hcomps c (List.mem_cons_self ..)))
      fun d hd => hcomps d (List.mem_cons_of_mem _ hd)

/-! ## The buffer -/

/-- The buffer holds a normal path; the root may be there as nothing. -/
def Holds (tmp : Str) (cs : List Str) : Prop := tmp = body cs ∨ cs = [] ∧ tmp = [slash]

theorem holds_render (cs : List Str) : Holds (render cs) cs := by
  rw [render]
  split
  · next h => exact .inr ⟨h, rfl⟩
  · exact .inl rfl

/-- The text of a name does not end with a slash. -/
theorem getLast_body (hcs : ∀ d ∈ cs, IsName d) : (body cs).getLast? ≠ some slash := by
  rcases cs.eq_nil_or_concat with rfl | ⟨ds, d, rfl⟩
  · simp [body]
  · rw [List.concat_eq_append] at hcs ⊢
    have hd := hcs d (by simp)
    rw [body_append, body_singleton, List.getLast?_append, List.getLast?_cons,
      List.getLast?_eq_some_getLast hd.1]
    intro h
    have h : d.getLast hd.1 = slash := by simpa using h
    exact hd.2.1 (h ▸ List.getLast_mem hd.1)

/-- The slash in front of the next name. -/
theorem holds_slash (hcs : ∀ d ∈ cs, IsName d) (h : Holds tmp cs) :
    (if tmp.getLast? = some slash then tmp else tmp ++ [slash]) = body cs ++ [slash] := by
  rcases h with rfl | ⟨rfl, rfl⟩
  · rw [if_neg (getLast_body hcs)]
  · rfl

theorem trimSlashes_of_ne {a : UInt8} (s : Str) (ha : a ≠ slash) :
    trimSlashes (a :: s) = a :: s := by
  cases s with
  | nil => rfl
  | cons b s => rw [trimSlashes, if_neg ha]

/-- **The last name goes**, with its slash, unless it is the only one. -/
theorem parentDir_body (cs : List Str) (hc : IsName c) :
    Holds (parentDir (body (cs ++ [c]))) cs := by
  obtain ⟨a, r, hr⟩ : ∃ a r, c.reverse = a :: r := by
    cases h : c.reverse with
    | nil => exact absurd (List.reverse_eq_nil_iff.mp h) hc.1
    | cons a r => exact ⟨a, r, rfl⟩
  have hmem : ∀ x ∈ c.reverse, x ≠ slash := fun x hx he => hc.2.1 (he ▸ List.mem_reverse.mp hx)
  have ha : a ≠ slash := hmem a (hr ▸ List.mem_cons_self ..)
  have hdrop : (trimSlashes (body (cs ++ [c])).reverse).dropWhile (· ≠ slash) =
      slash :: (body cs).reverse := by
    have hrev : (body (cs ++ [c])).reverse = c.reverse ++ slash :: (body cs).reverse := by
      rw [body_append, body_singleton, List.reverse_append, List.reverse_cons, List.append_assoc,
        List.singleton_append]
    rw [hrev, hr, List.cons_append, trimSlashes_of_ne _ ha, ← List.cons_append, ← hr,
      List.dropWhile_append_of_pos fun x hx => decide_eq_true (hmem x hx), List.dropWhile_cons,
      if_neg (by simp)]
  rw [parentDir, hdrop]
  split
  · rw [List.tail_cons, List.reverse_reverse]
    exact .inl rfl
  · next hlen =>
    have hnil : body cs = [] := by
      rw [List.length_cons, List.length_reverse] at hlen
      exact List.eq_nil_of_length_eq_zero (by omega)
    rw [hnil]
    exact .inr ⟨body_eq_nil.mp hnil, rfl⟩

theorem holds_parentDir (hcs : ∀ d ∈ cs, IsName d) (h : Holds tmp cs) :
    Holds (parentDir tmp) cs.dropLast := by
  rcases cs.eq_nil_or_concat with rfl | ⟨ds, d, rfl⟩
  · rcases h with rfl | ⟨_, rfl⟩
    · exact .inl rfl
    · exact .inr ⟨rfl, rfl⟩
  · rw [List.concat_eq_append] at hcs h ⊢
    rw [List.dropLast_concat]
    rcases h with rfl | ⟨h, _⟩
    · exact parentDir_body ds (hcs d (by simp))
    · exact absurd h (by simp)

theorem length_holds (h : Holds tmp cs) : tmp.length ≤ (render cs).length := by
  rcases h with rfl | ⟨rfl, rfl⟩
  · rw [render]
    split
    · next h => rw [h]; exact Nat.zero_le _
    · exact le_rfl
  · exact le_rfl

/-- Going up does not make a path longer. -/
theorem length_dropLast (hlen : (render cs).length ≤ 255) : (render cs.dropLast).length ≤ 255 := by
  rcases cs.eq_nil_or_concat with rfl | ⟨ds, d, rfl⟩
  · exact hlen
  · rw [List.concat_eq_append] at hlen ⊢
    rw [render_append, List.length_append] at hlen
    rw [List.dropLast_concat, render]
    split
    · decide
    · omega

/-- The buffer with the slash and the next name. -/
theorem body_slash_append (cs : List Str) (c : Str) :
    body cs ++ [slash] ++ c = render (cs ++ [c]) := by
  rw [render_append, List.append_assoc, List.singleton_append]

theorem enter_dots (cs : List Str) : enter cs [dot, dot] = cs.dropLast := rfl

theorem enter_name (cs : List Str) (hdot : c ≠ [dot]) (hdots : c ≠ [dot, dot]) :
    enter cs c = cs ++ [c] := by
  rw [enter, if_neg hdot, if_neg hdots]

/-! ## The loop -/

theorem fits_cons (start comps : List Str) (c : Str) :
    Fits start (c :: comps) ↔ (render start).length ≤ 255 ∧ Fits (enter start c) comps := by
  constructor
  · intro h
    exact ⟨h 0 (Nat.zero_le _), fun n hn => h (n + 1) (Nat.succ_le_succ hn)⟩
  · rintro ⟨h₀, h⟩ n hn
    cases n with
    | zero => exact h₀
    | succ n => exact h n (Nat.le_of_succ_le_succ hn)

/-- **The loop follows the walk** as long as it fits, and gives up where it does not. -/
theorem follow_eq {comps : List Str} (hcs : ∀ d ∈ cs, IsName d) (h : Holds tmp cs)
    (hlen : (render cs).length ≤ 255) (hcomps : ∀ c ∈ comps, c ≠ [] ∧ slash ∉ c) :
    (Fits cs comps → ∃ out, follow 256 comps tmp = some out ∧ Holds out (walk cs comps)) ∧
      (¬Fits cs comps → follow 256 comps tmp = none) := by
  induction comps generalizing cs tmp with
  | nil =>
    refine ⟨fun _ => ⟨tmp, rfl, h⟩, fun hn => absurd (fun n _ => ?_) hn⟩
    rw [List.take_nil]
    exact hlen
  | cons c comps ih =>
    have hc := hcomps c (List.mem_cons_self ..)
    have hrest : ∀ d ∈ comps, d ≠ [] ∧ slash ∉ d := fun d hd => hcomps d (List.mem_cons_of_mem _ hd)
    have henter := isName_enter hcs hc
    rw [fits_cons, and_iff_right hlen, follow]
    change (_ → ∃ out, _ ∧ Holds out (walk (enter cs c) comps)) ∧ _
    by_cases hdot : c = [dot]
    · rw [if_pos hdot]
      have he : enter cs c = cs := if_pos hdot
      rw [he]
      exact ih hcs h hlen hrest
    · rw [if_neg hdot]
      by_cases hdots : c = [dot, dot]
      · rw [if_pos hdots]
        rw [hdots, enter_dots] at henter ⊢
        exact ih henter (holds_parentDir hcs h) (length_dropLast hlen) hrest
      · rw [if_neg hdots]
        rw [enter_name cs hdot hdots] at henter ⊢
        have hsize := congrArg List.length (body_slash_append cs c)
        rw [List.length_append] at hsize
        rw [holds_slash hcs h]
        dsimp only
        rw [body_slash_append, hsize]
        by_cases hfit : 256 ≤ (render (cs ++ [c])).length
        · rw [if_pos hfit]
          have hno : ¬Fits (cs ++ [c]) comps := by
            intro hf
            have := hf 0 (Nat.zero_le _)
            rw [List.take_zero, walk, List.foldl_nil] at this
            omega
          exact ⟨fun hf => absurd hf hno, fun _ => rfl⟩
        · rw [if_neg hfit]
          exact ih henter (holds_render _) (by omega) hrest

/-- **No write goes past the end** of the 256 bytes. -/
theorem writeEnds_le {comps : List Str} (hcs : ∀ d ∈ cs, IsName d) (h : Holds tmp cs)
    (hlen : (render cs).length ≤ 255) (hcomps : ∀ c ∈ comps, c ≠ [] ∧ slash ∉ c) :
    ∀ e ∈ writeEnds 256 comps tmp, e ≤ 256 := by
  induction comps generalizing cs tmp with
  | nil => exact fun e he => absurd he List.not_mem_nil
  | cons c comps ih =>
    have hc := hcomps c (List.mem_cons_self ..)
    have hrest : ∀ d ∈ comps, d ≠ [] ∧ slash ∉ d := fun d hd => hcomps d (List.mem_cons_of_mem _ hd)
    have henter := isName_enter hcs hc
    rw [writeEnds]
    by_cases hdot : c = [dot]
    · rw [if_pos hdot]
      exact ih hcs h hlen hrest
    · rw [if_neg hdot]
      by_cases hdots : c = [dot, dot]
      · rw [if_pos hdots]
        rw [hdots, enter_dots] at henter
        exact ih henter (holds_parentDir hcs h) (length_dropLast hlen) hrest
      · rw [if_neg hdots]
        rw [enter_name cs hdot hdots] at henter
        have hsize := congrArg List.length (body_slash_append cs c)
        have hbody : (body cs).length ≤ 255 := (length_holds (.inl rfl)).trans hlen
        rw [holds_slash hcs h]
        dsimp only
        rw [body_slash_append]
        refine List.forall_mem_cons.mpr ⟨?_, ?_⟩
        · rw [List.length_append, List.length_singleton]
          omega
        · split
          · exact fun e he => absurd he List.not_mem_nil
          · next hfit =>
            rw [List.length_append] at hsize
            have hlen' : (render (cs ++ [c])).length ≤ 255 := by omega
            exact List.forall_mem_cons.mpr ⟨by omega, ih henter (holds_render _) hlen' hrest⟩

/-! ## `resolve` -/

theorem isName_start (hbs : ∀ d ∈ bs, IsName d) : ∀ d ∈ start path bs, IsName d := by
  rw [start]
  split
  · exact fun d hd => absurd hd List.not_mem_nil
  · exact hbs

/-- What `resolve` starts with. -/
def startBuf (path base : Str) : Str := if path.head? = some slash then [] else base.take 255

theorem holds_startBuf (hlen : (render bs).length ≤ 255) :
    Holds (startBuf path (render bs)) (start path bs) ∧ (render (start path bs)).length ≤ 255 := by
  rw [startBuf, start]
  split
  · exact ⟨.inl rfl, by decide⟩
  · rw [List.take_of_length_le hlen]
    exact ⟨holds_render bs, hlen⟩

theorem render_of_holds {out : Str} [Decidable (out = [])] (h : Holds out cs) :
    (if out = [] then [slash] else out) = render cs := by
  rcases h with rfl | ⟨rfl, rfl⟩
  · rw [render]
    exact if_congr body_eq_nil rfl rfl
  · exact if_neg (by simp)

/-- What is written, one byte after another, is as long as the path and its zero. -/
theorem render_pos (cs : List Str) : 1 ≤ (render cs).length := by
  rw [render]
  split
  · exact le_rfl
  · next h => exact List.length_pos_iff.mpr fun hn => h (body_eq_nil.mp hn)

/-- What `resolve` gives fits the buffer, with its zero. -/
theorem length_resolve {base : Option Str} {bufsz : ℕ} {out : Str}
    (h : resolve path base bufsz = some out) :
    out.length + 1 ≤ bufsz := by
  rw [resolve] at h
  obtain ⟨_, _, h⟩ := Option.bind_eq_some_iff.mp h
  obtain ⟨tmp, _, h⟩ := Option.bind_eq_some_iff.mp h
  obtain ⟨_, hguard, h⟩ := Option.bind_eq_some_iff.mp h
  rw [← Option.some.inj h]
  by_contra hn
  rw [guard, if_neg hn] at hguard
  exact absurd hguard.symm (Option.some_ne_none _)

/-- `resolve` gives the normal form of the path, if all on the way fits. -/
theorem resolve_eq (hbs : ∀ d ∈ bs, IsName d) (hlen : (render bs).length ≤ 255)
    (path : Str) (bufsz : ℕ) :
    resolve path (some (render bs)) bufsz =
      let final := walk (start path bs) (components path)
      if Fits (start path bs) (components path) ∧ (render final).length + 1 ≤ bufsz then
        some (render final)
      else none := by
  obtain ⟨hholds, hstart⟩ := @holds_startBuf _ path hlen
  obtain ⟨hyes, hno⟩ := follow_eq (isName_start hbs) hholds hstart
    fun c (hc : c ∈ components path) => mem_components hc
  have hpos := render_pos (walk (start path bs) (components path))
  have hdef : resolve path (some (render bs)) bufsz = (do
      guard (2 ≤ bufsz)
      let out ← follow 256 (components path) (startBuf path (render bs))
      let out := if out = [] then [slash] else out
      guard (out.length + 1 ≤ bufsz)
      return out) := rfl
  rw [hdef]
  by_cases hfits : Fits (start path bs) (components path)
  · obtain ⟨out, hout, hwalk⟩ := hyes hfits
    have hfinal : ∀ _ : Decidable (out = []), (if out = [] then [slash] else out) =
        render (walk (start path bs) (components path)) := fun _ => render_of_holds hwalk
    simp only [hout, and_iff_right hfits]
    by_cases hbuf : (render (walk (start path bs) (components path))).length + 1 ≤ bufsz
    · have h2 : 2 ≤ bufsz := by omega
      simp only [guard, if_pos h2, Option.bind_eq_bind, Option.pure_def, Option.bind_some, hfinal,
        if_pos hbuf]
    · simp only [guard, Option.bind_eq_bind, Option.pure_def, Option.bind_some, hfinal, if_neg hbuf]
      split <;> rfl
  · simp [hno hfits, hfits]

theorem walk_names (hcs : ∀ d ∈ cs, IsName d) (ds : List Str) : walk ds cs = ds ++ cs := by
  induction cs generalizing ds with
  | nil => exact (List.append_nil ds).symm
  | cons c cs ih =>
    have hc := hcs c (List.mem_cons_self ..)
    have hstep : walk ds (c :: cs) = walk (enter ds c) cs := rfl
    rw [hstep, enter_name ds hc.2.2.1 hc.2.2.2, ih fun d hd => hcs d (List.mem_cons_of_mem _ hd),
      List.append_assoc, List.singleton_append]

theorem head_render (cs : List Str) : (render cs).head? = some slash := by
  rw [render]
  split
  · rfl
  · cases cs with
    | nil => contradiction
    | cons c cs => rfl

/-- A normal path is where it leads, from anywhere. -/
theorem walk_render (hcs : ∀ d ∈ cs, IsName d) (bs : List Str) :
    walk (start (render cs) bs) (components (render cs)) = cs := by
  rw [start, if_pos (head_render cs), components_render hcs]
  rw [walk_names hcs, List.nil_append]

/-- The base does not matter for a path from the root. -/
theorem resolve_of_head {out : Str} (h : out.head? = some slash) (base base' : Option Str)
    (bufsz : ℕ) :
    resolve out base bufsz = resolve out base' bufsz := by
  simp only [resolve, if_pos h]

/-- Every normal form of names that fits is on its own way. -/
theorem fits_render (hcs : ∀ d ∈ cs, IsName d) (hlen : (render cs).length ≤ 255) : Fits [] cs := by
  intro n hn
  rw [walk_names (fun d hd => hcs d (List.take_subset n cs hd)), List.nil_append, render]
  split
  · decide
  · next hne =>
    have hcs' : cs ≠ [] := by
      rintro rfl
      exact hne List.take_nil
    rw [render, if_neg hcs', ← List.take_append_drop n cs, body_append, List.length_append] at hlen
    omega

/-- **Normal paths.** From a base in normal form, `resolve` succeeds just when every normal form on
the way fits 255 bytes and the last one fits the caller's buffer with its zero, and gives that one.
What it gives is resolved to itself, from anywhere. No write of its loop ends behind the 256 bytes
of its own buffer, and what it starts with has room for the zero. -/
theorem resolve_normal (hbs : ∀ d ∈ bs, IsName d) (hlen : (render bs).length ≤ 255) (path : Str)
    (bufsz : ℕ) :
    (∀ out, resolve path (some (render bs)) bufsz = some out ↔
      Fits (start path bs) (components path) ∧
        (render (walk (start path bs) (components path))).length + 1 ≤ bufsz ∧
        out = render (walk (start path bs) (components path))) ∧
      (∀ out, resolve path (some (render bs)) bufsz = some out →
        ∀ base, resolve out base bufsz = some out) ∧
      (startBuf path (render bs)).length ≤ 255 ∧
      ∀ e ∈ writeEnds 256 (components path) (startBuf path (render bs)), e ≤ 256 := by
  have heq := resolve_eq hbs hlen path bufsz
  obtain ⟨hholds, hstart⟩ := @holds_startBuf _ path hlen
  have hsome : ∀ out, resolve path (some (render bs)) bufsz = some out ↔
      Fits (start path bs) (components path) ∧
        (render (walk (start path bs) (components path))).length + 1 ≤ bufsz ∧
        out = render (walk (start path bs) (components path)) := by
    intro out
    rw [heq]
    dsimp only
    rw [Option.ite_none_right_eq_some, and_assoc, Option.some.injEq, eq_comm (a := out)]
  refine ⟨hsome, fun out hout base => ?_, (length_holds hholds).trans hstart,
    writeEnds_le (isName_start hbs) hholds hstart fun c hc => mem_components hc⟩
  obtain ⟨hfits, hbuf, rfl⟩ := (hsome out).mp hout
  generalize hcs : walk (start path bs) (components path) = cs at hbuf ⊢
  have hnames : ∀ d ∈ cs, IsName d :=
    hcs ▸ isName_walk (isName_start hbs) fun c hc => mem_components hc
  have hfinal : (render cs).length ≤ 255 := by
    have := hfits _ le_rfl
    rwa [List.take_length, hcs] at this
  rw [resolve_of_head (head_render cs) base (some (render [])),
    resolve_eq (fun d (hd : d ∈ []) => absurd hd List.not_mem_nil) (by decide)]
  have hstart' : start (render cs) [] = [] := if_pos (head_render cs)
  rw [walk_render hnames, hstart', components_render hnames]
  exact if_pos ⟨fits_render hnames hfinal, hbuf⟩

/-- From `/a`, the path `../b/./c` leads to `/b/c`. -/
theorem resolve_normal_up : resolve [46, 46, 47, 98, 47, 46, 47, 99] (some (render [[97]])) 256 =
    some [47, 98, 47, 99] :=
  ((resolve_normal (show ∀ d ∈ [[97]], IsName d by decide) (by decide) [46, 46, 47, 98,
    47, 46, 47, 99] 256).1
    _).mpr (by decide)

end Path

end Aurisys
