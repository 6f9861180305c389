import Aurisys.Sh.Job
import Mathlib.Data.List.TakeDrop

/-!
# Words that stand for names

`glob_stage` puts the names that a word matches in its place. The directory is opened under the name
it was typed with, or as `.` if there was none, and this name is put in front of what is found
there: a word without a slash is replaced by names that begin with a dot. Only the first 64 entries
of a directory are looked at.

The strings are kept in one place for all the words of a job, and each word writes its own over
those of the ones in front of it. By the time the job is started, all of them point to what the last
one has left.

## Main definitions

* `Expands` — what a word should be replaced by
* `Faithful` — when the code does that
* `Reads` — what the pointers of a stage point to, as the memory goes on changing

## Main results

* `args_globStage`, `matching_take` — what is put in the place of a word
* `globStage_iff`
* `Parsing.turn`, `Parsed.turn` — what a turn of the loops keeps
* `argv_iff`
-/

namespace Aurisys

namespace Sh

variable {o : World} {place w dir name : Str} {cur st : Stage} {mem m : Mem}
  {nstage slot nh i j k depth : ℕ}
  {names : List Entry} {s s' : Parse} {c : UInt8}

/-! ## What is put in the place of a word -/

theorem shiftWords_of_lt (word : ℕ → Ptr) (hi : i < slot + nh) :
    shiftWords slot nh k word i = word i := by
  induction k generalizing word with
  | zero => rfl
  | succ k ih => rw [shiftWords, ih, Function.update_of_ne (by omega)]

theorem placeHits_of_lt (word : ℕ → Ptr) (hi : i < slot) : placeHits slot k word i = word i := by
  induction k with
  | zero => rfl
  | succ k ih => rw [placeHits, Function.update_of_ne (by omega), ih]

theorem placeHits_of_le (word : ℕ → Ptr) (hi : i < k) :
    placeHits slot k word (slot + i) = .hit i := by
  induction k with
  | zero => exact absurd hi (Nat.not_lt_zero _)
  | succ k ih =>
    rw [placeHits]
    by_cases hk : i = k
    · rw [hk, Function.update_self]
    · rw [Function.update_of_ne (by omega), ih (by omega)]

theorem globStage_nil (h : globHits o place (mem.bank nstage slot) slot = []) :
    globStage o place cur mem nstage slot = (cur, mem) := by rw [globStage, if_pos h]

/-- **The pointers**: the word at `slot`, which is the last one, makes way for those to the hits. -/
theorem args_globStage (cur : Stage) (h : globHits o place (mem.bank nstage slot) slot ≠ [])
    (hargc : cur.argc = slot + 1) :
    (globStage o place cur mem nstage slot).1.args = (List.range slot).map cur.word ++
      (List.range (globHits o place (mem.bank nstage slot) slot).length).map Ptr.hit ∧
    (globStage o place cur mem nstage slot).2 =
    mem.setHits (globHits o place (mem.bank nstage slot) slot) := by
  rw [globStage, if_neg h]
  generalize globHits o place (mem.bank nstage slot) slot = hits at h
  have hpos := List.length_pos_iff.mpr h
  refine ⟨?_, rfl⟩
  rw [Stage.args]
  dsimp only
  rw [hargc, show slot + 1 + (hits.length - 1) = slot + hits.length by omega,
    List.range_add, List.map_append,
    List.map_map]
  congr 1
  · refine List.map_congr_left fun i hi => ?_
    have hi := List.mem_range.mp hi
    rw [placeHits_of_lt _ hi, shiftWords_of_lt _ (by omega)]
  · refine List.map_congr_left fun i hi => ?_
    exact placeHits_of_le _ (List.mem_range.mp hi)

theorem args_push (cur : Stage) (p : Ptr) : (cur.push p).args = cur.args ++ [p] := by
  rw [Stage.args, Stage.args, Stage.push]
  dsimp only
  rw [List.range_succ, List.map_append, List.map_singleton, Function.update_self]
  congr 1
  refine List.map_congr_left fun i hi => ?_
  exact Function.update_of_ne (by have := List.mem_range.mp hi; omega) _ _

/-! ## The names that a word stands for -/

/-- **What a word should be replaced by**: by the names that match, with what was typed in front of
the pattern, as many of them as there is room for. If nothing matches, the word stays. -/
def expected (w : Str) (names : List Entry) (room : ℕ) : List Str :=
  if matching (globPattern w) names = [] then [w]
  else ((matching (globPattern w) names).take room).map fun e => globDir w ++ e.1

/-- `glob_stage` puts in the place of the word what it stands for. -/
def Expands (o : World) (place : Str) (cur : Stage) (mem : Mem) (nstage slot : ℕ) : Prop :=
  let w := mem.bank nstage slot
  let g := globStage o place cur mem nstage slot
  g.1.args.take slot = cur.args.take slot ∧
    (g.1.args.drop slot).map g.2.deref = expected w ((o.dir place (globPath w)).getD [])
    (kMaxWord - slot)

/-- **When the code does that**: nothing matches; or a directory was typed, and it is short enough,
and the names that there is room for are among the first 64 entries; or the only one there is room
for is the word itself. -/
def Faithful (w : Str) (names : List Entry) (room : ℕ) : Prop :=
  matching (globPattern w) names = [] ∨
  (globDir w ≠ [] ∧ (globDir w).length + 1 < kWordMax ∧
    min room (matching (globPattern w) names).length ≤ (matching (globPattern w)
      (names.take 64)).length ∧
    ∀ e ∈ (matching (globPattern w) names).take room, (globDir w).length + e.1.length < kWordMax) ∨
  matching (globPattern w) (names.take 64) = [] ∧
    [w] = ((matching (globPattern w) names).take room).map fun e => globDir w ++ e.1

/-- The matches among the first entries come first. -/
theorem matching_take (pat : Str) (names : List Entry) (k : ℕ) : matching pat (names.take k) =
    (matching pat names).take (matching pat (names.take k)).length :=
  List.prefix_iff_eq_take.mp ((List.take_prefix k names).filter _)

theorem length_globDir (w : Str) : (globDir w).length ≤ w.length :=
  (List.rdropWhile_prefix _ w).length_le

/-- What is stored is the name with the directory in front of it, if that was typed and there is
room. -/
theorem hitOf_iff (hw : w.length < kWordMax) (e : Entry) :
    hitOf (globPath w) e.1 = globDir w ++ e.1 ↔
    globDir w ≠ [] ∧ (globDir w).length + 1 < kWordMax ∧
    (globDir w).length + e.1.length < kWordMax := by
  have hlt := e.2
  have hdir := length_globDir w
  rw [hitOf, globPath]
  by_cases hnil : globDir w = []
  · rw [if_pos hnil, hnil]
    refine iff_of_false (fun heq => ?_) fun h => h.1 rfl
    have hlen := congrArg List.length heq
    rw [List.length_append, List.length_take, List.length_take, List.length_append] at hlen
    simp only [kWordMax, List.length_singleton, List.length_nil] at hlen
    omega
  · rw [if_neg hnil, List.take_of_length_le (by omega : (globDir w).length ≤ kWordMax - 1)]
    constructor
    · intro heq
      have hlen := congrArg List.length heq
      rw [List.length_append, List.length_take, List.length_take, List.length_append] at hlen
      simp only [kWordMax] at hlen hw ⊢
      exact ⟨hnil, by omega, by omega⟩
    · rintro ⟨-, hshort, hroom⟩
      rw [List.take_of_length_le (by omega), List.take_of_length_le (by omega)]

/-- The strings that are stored are those that they should be. -/
theorem hits_iff (hw : w.length < kWordMax) (hroom : 0 < k)
    (hne : matching (globPattern w) (names.take 64) ≠ []) :
    ((matching (globPattern w) (names.take 64)).take k).map (fun e => hitOf (globPath w) e.1) =
      ((matching (globPattern w) names).take k).map (fun e => globDir w ++ e.1) ↔
    globDir w ≠ [] ∧ (globDir w).length + 1 < kWordMax ∧
      min k (matching (globPattern w) names).length ≤ (matching (globPattern w)
        (names.take 64)).length ∧
      ∀ e ∈ (matching (globPattern w) names).take k,
      (globDir w).length + e.1.length < kWordMax := by
  have hfirst := matching_take (globPattern w) names 64
  have hpos := List.length_pos_iff.mpr hne
  generalize matching (globPattern w) (names.take 64) = found at hfirst hne hpos
  generalize matching (globPattern w) names = all at hfirst
  have hle : found.length ≤ all.length := by
    have := congrArg List.length hfirst
    rw [List.length_take] at this
    omega
  constructor
  · intro heq
    have hlen := congrArg List.length heq
    rw [List.length_map, List.length_map, List.length_take, List.length_take] at hlen
    have hsame : found.take k = all.take k := by
      rw [hfirst, List.take_take, List.take_eq_take_iff]
      omega
    rw [hsame] at heq
    have heach : ∀ e ∈ all.take k, hitOf (globPath w) e.1 = globDir w ++ e.1 :=
      List.map_inj_left.mp heq
    obtain ⟨e, he⟩ : ∃ e, e ∈ all.take k := by
      refine List.exists_mem_of_length_pos ?_
      rw [List.length_take]
      omega
    obtain ⟨hnil, hshort, -⟩ := (hitOf_iff hw e).mp (heach e he)
    exact ⟨hnil, hshort, by omega, fun e he => ((hitOf_iff hw e).mp (heach e he)).2.2⟩
  · rintro ⟨hnil, hshort, hmin, heach⟩
    have hsame : found.take k = all.take k := by
      rw [hfirst, List.take_take, List.take_eq_take_iff]
      omega
    rw [hsame]
    exact List.map_congr_left fun e he => (hitOf_iff hw e).mpr ⟨hnil, hshort, heach e he⟩

theorem deref_setHits_hit (m : Mem) (l : List Str) (hk : k < l.length) :
    (m.setHits l).deref (.hit k) = l[k] :=
  Overlay.overlay_of_some (List.getElem?_eq_getElem hk)

/-- The pointers to the hits point to them. -/
theorem map_deref_hits (m : Mem) (l : List Str) :
    ((List.range l.length).map Ptr.hit).map (m.setHits l).deref = l := by
  refine List.ext_getElem (by simp) fun k hk hk' => ?_
  rw [List.getElem_map, List.getElem_map, List.getElem_range]
  exact deref_setHits_hit m l hk'

theorem globHits_eq (o : World) (place : Str) (slot : ℕ) (hglob : hasGlob w = true) :
    globHits o place w slot =
    ((matching (globPattern w) (((o.dir place (globPath w)).getD []).take 64)).take
      (kMaxWord - slot)).map
      fun e => hitOf (globPath w) e.1 := by
  rw [globHits, if_pos hglob]
  cases o.dir place (globPath w) with
  | none => simp [matching]
  | some names => rfl

/-- **When `glob_stage` does what it should.** The word is the last one of the stage. The words in
front of it keep their pointers. -/
theorem globStage_iff (o : World) (place : Str) (cur : Stage) (mem : Mem) (nstage slot : ℕ)
    (hargc : cur.argc = slot + 1) (hslot : slot < kMaxWord)
    (hptr : cur.word slot = .bank nstage slot)
    (hlen : (mem.bank nstage slot).length < kWordMax)
    (hglob : hasGlob (mem.bank nstage slot) = true) :
    Expands o place cur mem nstage slot ↔
      Faithful (mem.bank nstage slot) ((o.dir place (globPath (mem.bank nstage slot))).getD [])
        (kMaxWord - slot) := by
  have hhits := globHits_eq o place slot hglob
  have hargs : cur.args = (List.range slot).map cur.word ++ [.bank nstage slot] := by
    rw [Stage.args, hargc, List.range_succ, List.map_append, List.map_singleton, hptr]
  have hfront : ((List.range slot).map cur.word).length = slot := by
    rw [List.length_map, List.length_range]
  have hroom : 0 < kMaxWord - slot := Nat.sub_pos_of_lt hslot
  have hself : mem.deref (.bank nstage slot) = mem.bank nstage slot := rfl
  rw [Expands]
  generalize hw : mem.bank nstage slot = w at *
  generalize (o.dir place (globPath w)).getD [] = names at *
  rw [Faithful, expected]
  by_cases hnone : matching (globPattern w) (names.take 64) = []
  · -- nothing is found, and the word stays
    rw [hnone, List.take_nil, List.map_nil] at hhits
    rw [globStage_nil (by rw [hw]; exact hhits)]
    dsimp only
    rw [hargs, List.drop_left' hfront, List.map_singleton, hself]
    have hsecond : ¬(globDir w ≠ [] ∧ (globDir w).length + 1 < kWordMax ∧
        min (kMaxWord - slot) (matching (globPattern w) names).length ≤
          (matching (globPattern w) (names.take 64)).length ∧
        ∀ e ∈ (matching (globPattern w) names).take (kMaxWord - slot),
          (globDir w).length + e.1.length < kWordMax) ∨ matching (globPattern w) names = [] := by
      rw [hnone, List.length_nil]
      by_cases hall : matching (globPattern w) names = []
      · exact Or.inr hall
      · refine Or.inl fun h => ?_
        have := List.length_pos_iff.mpr hall
        omega
    by_cases hall : matching (globPattern w) names = []
    · rw [if_pos hall]
      exact iff_of_true ⟨rfl, rfl⟩ (Or.inl hall)
    · rw [if_neg hall]
      constructor
      · exact fun h => Or.inr (Or.inr ⟨hnone, h.2⟩)
      · rintro (h | h | h)
        · exact absurd h hall
        · exact absurd h (hsecond.resolve_right hall)
        · exact ⟨rfl, h.2⟩
  · -- what is found takes its place
    have hfound : globHits o place w slot ≠ [] := by
      rw [hhits]
      intro hnil
      have hzero := congrArg List.length hnil
      rw [List.length_map, List.length_take, List.length_nil] at hzero
      have := List.length_pos_iff.mpr hnone
      omega
    obtain ⟨hargs', hmem⟩ := args_globStage cur (by rw [hw]; exact hfound) hargc
    rw [hargs', hmem, hw, hargs, List.take_left' hfront, List.take_left' hfront,
      List.drop_left' hfront,
      map_deref_hits, hhits]
    have hall : matching (globPattern w) names ≠ [] := by
      intro hnil
      rw [matching_take, hnil, List.take_nil] at hnone
      exact hnone rfl
    rw [if_neg hall, hits_iff hlen hroom hnone]
    constructor
    · exact fun h => Or.inr (Or.inl h.2)
    · rintro (h | h | h)
      · exact absurd h hall
      · exact ⟨rfl, h⟩
      · exact absurd h.1 hnone

/-- One entry, `ab`, in each directory. -/
def oneEntry : World := { World.bare with dir := fun _ _ => some [⟨[97, 98], by decide⟩] }

/-- A stage with one word. -/
def oneWord : Stage := Stage.empty.push (.bank 0 0)

/-- `d/a*` becomes `d/ab`. -/
theorem expands_typed :
    Expands oneEntry [] oneWord (Mem.clear.setBank 0 0 [100, 47, 97, star]) 0 0 :=
  (globStage_iff oneEntry [] oneWord (Mem.clear.setBank 0 0 [100, 47, 97, star]) 0 0 rfl
    (by decide) rfl (by decide)
    (by decide +kernel)).mpr
    (Or.inr (Or.inl ⟨by decide +kernel, by decide +kernel, by decide +kernel, by decide +kernel⟩))

/-- `a*` becomes `.ab`. -/
theorem expands_dot : ¬Expands oneEntry [] oneWord (Mem.clear.setBank 0 0 [97, star]) 0 0 :=
  fun h =>
  absurd h.2 (by decide +kernel)

/-! ## What the pointers point to -/

/-- What a word was replaced by when it had been read. -/
def Origin.own : Origin → List Str
  | .kept s => [s]
  | .hits l => l

/-- What its pointers point to once other words have been read. -/
def Origin.now (h : ℕ → Str) : Origin → List Str
  | .kept s => [s]
  | .hits l => (List.range l.length).map h

def Origin.hits? : Origin → Option (List Str)
  | .kept _ => none
  | .hits l => some l

/-- What has been written into `hits`. -/
def expansions (stages : List Stage) : List (List Str) :=
  stages.flatMap fun st => st.origins.filterMap Origin.hits?

/-- **What the pointers of stage `i` point to**, as long as its own slots of the bank keep what they
have. -/
def Reads (i : ℕ) (st : Stage) (m : Mem) : Prop :=
  ∀ m' : Mem, (∀ j < st.argc, m'.bank i j = m.bank i j) →
    st.args.map m'.deref = st.origins.flatMap (Origin.now m'.hits)

/-- A stage is not larger than it can be. -/
structure Sized (st : Stage) : Prop where
  argc : st.argc ≤ kMaxWord
  words : ∀ a ∈ st.origins, ∀ w ∈ a.own, w.length < kWordMax

/-- The words of a stage are being read, behind the stages in front of it. -/
structure Parsing (h : ℕ → Str) (done : List Stage) (s : Parse) : Prop where
  front : ∀ i st, done[i]? = some st → Reads i st s.mem
  reads : Reads done.length s.cur s.mem
  hits : s.mem.hits = Overlay.overlays h (expansions (done ++ [s.cur]))
  empty : s.cur.argc = 0 → s.cur.origins = []
  sized : Sized s.cur

variable {h : ℕ → Str} {done : List Stage} {r : Reader}

theorem expansions_append (l l' : List Stage) :
    expansions (l ++ l') = expansions l ++ expansions l' :=
  List.flatMap_append

theorem expansions_cur (done : List Stage) (cur : Stage) :
    expansions (done ++ [cur]) = expansions done ++ cur.origins.filterMap Origin.hits? := by
  rw [expansions_append]
  congr 1
  exact List.flatMap_singleton ..

/-- A slot of another stage is written. -/
theorem Reads.setBank {s : Str} (hr : Reads i st m) (hne : i ≠ j) :
    Reads i st (m.setBank j k s) := by
  intro m' hm
  refine hr m' fun a ha => (hm a ha).trans ?_
  exact if_neg fun h => hne h.1

theorem args_front (cur : Stage) (p : Ptr) :
    (List.range cur.argc).map (cur.push p).word = cur.args := by
  refine List.map_congr_left fun i hi => ?_
  exact Function.update_of_ne (by have := List.mem_range.mp hi; omega) _ _

theorem takeWord_eq (hany : r.any = true) : takeWord o nstage r s =
    let w := cstr r.text
    let mem := s.mem.setBank nstage s.cur.argc w
    let g := globStage o r.p (s.cur.push (.bank nstage s.cur.argc)) mem nstage s.cur.argc
    let hits := globHits o r.p w s.cur.argc
    ⟨r.p, { g.1 with origins := s.cur.origins ++ [if hits = [] then .kept w else .hits hits] },
      g.2⟩ := by
  rw [takeWord, if_pos hany]
  rfl

/-- What a word that has been read is in its stage. -/
def originOf (o : World) (place w : Str) (slot : ℕ) : Origin :=
  if globHits o place w slot = [] then .kept w else .hits (globHits o place w slot)

theorem setBank_bank_self (m : Mem) (i j : ℕ) (s : Str) : (m.setBank i j s).bank i j = s :=
  if_pos ⟨rfl, rfl⟩

/-- **What a word makes of its stage.** -/
theorem takeWord_cur (o : World) (nstage : ℕ) (s : Parse) (hany : r.any = true) :
    (takeWord o nstage r s).cur.origins =
    s.cur.origins ++ [originOf o r.p (cstr r.text) s.cur.argc] ∧
    (takeWord o nstage r s).cur.argc = s.cur.argc + (originOf o r.p (cstr r.text)
      s.cur.argc).own.length ∧
    (takeWord o nstage r s).cur.input = s.cur.input ∧ (takeWord o nstage r s).cur.output =
    s.cur.output := by
  have hself := setBank_bank_self s.mem nstage s.cur.argc (cstr r.text)
  rw [takeWord_eq hany, originOf]
  dsimp only
  by_cases hhits : globHits o r.p (cstr r.text) s.cur.argc = []
  · rw [globStage_nil (by rw [hself]; exact hhits), if_pos hhits]
    exact ⟨rfl, rfl, rfl, rfl⟩
  · rw [if_neg hhits]
    have hhits' : globHits o r.p ((s.mem.setBank nstage s.cur.argc (cstr r.text)).bank
      nstage s.cur.argc)
        s.cur.argc ≠ [] := by rw [hself]; exact hhits
    have hpos := List.length_pos_iff.mpr hhits
    rw [globStage, if_neg hhits', hself]
    refine ⟨rfl, ?_, rfl, rfl⟩
    dsimp only [Stage.push, Origin.own]
    omega

theorem length_cstr (s : Str) : (cstr s).length ≤ s.length := (List.takeWhile_prefix _).length_le

/-- What is stored for an entry fits. -/
theorem length_hitOf (dir name : Str) : (hitOf dir name).length < kWordMax := by
  rw [hitOf, List.length_append, List.length_take, List.length_take]
  simp only [kWordMax]
  omega

theorem globHits_fits (o : World) (place w : Str) (slot : ℕ) :
    (globHits o place w slot).length ≤ kMaxWord - slot ∧
    ∀ s ∈ globHits o place w slot, s.length < kWordMax := by
  rw [globHits]
  split
  · split
    · exact ⟨Nat.zero_le _, fun s hs => absurd hs List.not_mem_nil⟩
    · refine ⟨by rw [List.length_map]; exact List.length_take_le _ _, fun s hs => ?_⟩
      obtain ⟨e, -, rfl⟩ := List.mem_map.mp hs
      exact length_hitOf _ _
  · exact ⟨Nat.zero_le _, fun s hs => absurd hs List.not_mem_nil⟩

theorem Sized.append {a : Origin} (hs : Sized cur) (hargc : st.argc ≤ kMaxWord)
    (horigins : st.origins = cur.origins ++ [a]) (ha : ∀ w ∈ a.own, w.length < kWordMax) :
    Sized st := by
  refine ⟨hargc, fun b hb => ?_⟩
  rw [horigins] at hb
  rcases List.mem_append.mp hb with hb | hb
  · exact hs.words b hb
  · rw [List.mem_singleton.mp hb]
    exact ha

/-- **A word is read**: its pointers point to what it stands for. -/
theorem Parsing.word (hp : Parsing h done s) (hany : r.any = true) (hroom : s.cur.argc < kMaxWord)
    (htext : r.text.length < kWordMax) : Parsing h done (takeWord o done.length r s) := by
  obtain ⟨hcount, hshort⟩ := globHits_fits o r.p (cstr r.text) s.cur.argc
  have hfront : ∀ i st, done[i]? = some st →
      Reads i st (s.mem.setBank done.length s.cur.argc (cstr r.text)) := by
    intro i st hst
    have hi := (List.getElem?_eq_some_iff.mp hst).1
    exact (hp.front i st hst).setBank (by omega)
  -- The bank in front of the slot is as it was.
  have hkept : ∀ m' : Mem, (∀ j < s.cur.argc,
      m'.bank done.length j = (s.mem.setBank done.length s.cur.argc (cstr r.text)).bank
      done.length j) →
      s.cur.args.map m'.deref = s.cur.origins.flatMap (Origin.now m'.hits) := by
    intro m' hm
    refine hp.reads m' fun j hj => (hm j hj).trans ?_
    exact if_neg fun h => absurd h.2 (by omega)
  have hself := setBank_bank_self s.mem done.length s.cur.argc (cstr r.text)
  rw [takeWord_eq hany]
  dsimp only
  by_cases hhits : globHits o r.p (cstr r.text) s.cur.argc = []
  · rw [if_pos hhits, globStage_nil (by rw [hself]; exact hhits)]
    refine ⟨hfront, fun m' hm => ?_, ?_, fun hzero => absurd hzero (Nat.succ_ne_zero _),
      hp.sized.append hroom rfl fun w hw => ?_⟩
    · have hargs := args_push s.cur (.bank done.length s.cur.argc)
      rw [Stage.args] at hargs ⊢
      dsimp only at hm ⊢
      rw [hargs, List.map_append, List.flatMap_append,
        hkept m' fun j hj => hm j (Nat.lt_succ_of_lt hj)]
      congr 1
      have := hm s.cur.argc (Nat.lt_succ_self _)
      rw [hself] at this
      exact congrArg (fun a => [a]) this
    · have hsame := hp.hits
      rw [expansions_cur] at hsame ⊢
      have hnew : [Origin.kept (cstr r.text)].filterMap Origin.hits? = [] := rfl
      rw [List.filterMap_append, hnew, List.append_nil]
      exact hsame
    · rw [List.mem_singleton.mp hw]
      exact lt_of_le_of_lt (length_cstr _) htext
  · rw [if_neg hhits]
    have hhits' : globHits o r.p
      ((s.mem.setBank done.length s.cur.argc (cstr r.text)).bank done.length
        s.cur.argc) s.cur.argc ≠ [] := by rw [hself]; exact hhits
    obtain ⟨hargs, hmem⟩ := args_globStage (s.cur.push (.bank done.length s.cur.argc)) hhits' rfl
    have hargc := (takeWord_cur o done.length s hany).2.1
    rw [takeWord_eq hany, originOf, if_neg hhits] at hargc
    dsimp only [Origin.own] at hargc
    have hpos := List.length_pos_iff.mpr hhits
    rw [hmem, hself]
    rw [args_front, hself] at hargs
    generalize globHits o r.p (cstr r.text) s.cur.argc = hits at *
    refine ⟨hfront, fun m' hm => ?_, ?_, fun hzero => ?_, hp.sized.append ?_ rfl hshort⟩
    · rw [Stage.args] at hargs ⊢
      dsimp only at hm ⊢
      rw [hargs, List.map_append, List.flatMap_append, hkept m' fun j hj => hm j (by omega)]
      congr 1
      rw [List.map_map, List.flatMap_singleton]
      rfl
    · rw [expansions_cur, List.filterMap_append, ← List.append_assoc, ← expansions_cur]
      change Overlay.overlay s.mem.hits hits = _
      rw [hp.hits]
      exact (Overlay.overlays_append _ _ _).symm
    · dsimp only at hzero
      omega
    · dsimp only
      omega

/-- **What a turn of the loop over the words keeps.** -/
theorem Parsing.turn (hp : Parsing h done s) (ht : WordTurn o done.length depth s s') :
    Parsing h done s' := by
  cases ht with
  | redirect =>
    exact ⟨hp.front, hp.reads, by have := hp.hits; rwa [expansions_cur] at this ⊢,
      hp.empty, hp.sized.argc,
      hp.sized.words⟩
  | skip => exact ⟨hp.front, hp.reads, hp.hits, hp.empty, hp.sized⟩
  | word hr hany hroom =>
    exact hp.word hany hroom ((readWord_inBounds _ kWordMax depth _ (by decide)).2 _ hr).2.1

theorem Parsing.run (hp : Parsing h done s)
    (ht : Relation.ReflTransGen (WordTurn o done.length depth) s s') :
    Parsing h done s' := by
  induction ht with
  | refl => exact hp
  | tail _ hturn ih => exact ih.turn hturn

/-- The stages that have been read. -/
structure Parsed (h : ℕ → Str) (s : Stages) : Prop where
  reads : ∀ i st, s.stages[i]? = some st → Reads i st s.mem
  hits : s.mem.hits = Overlay.overlays h (expansions s.stages)
  sized : ∀ st ∈ s.stages, Sized st

theorem Parsed.start {t : Stages} {p : Str} (hp : Parsed h t) :
    Parsing h t.stages ⟨p, Stage.empty, t.mem⟩ where
  front := hp.reads
  reads := fun _ _ => rfl
  hits := by
    rw [expansions_cur]
    exact hp.hits.trans
      (by rw [show Stage.empty.origins = [] from rfl, List.filterMap_nil, List.append_nil])
  empty := fun _ => rfl
  sized := ⟨Nat.zero_le _, fun _ ha => absurd ha List.not_mem_nil⟩

/-- **What a turn of the loop over the stages keeps.** -/
theorem Parsed.turn {t t' : Stages} (hp : Parsed h t) (ht : StageTurn o depth t t') :
    Parsed h t' := by
  cases ht with
  | @none w p hturns hargc =>
    have hw := hp.start.run hturns
    have hsame := hw.hits
    rw [expansions_cur, hw.empty hargc, List.filterMap_nil, List.append_nil] at hsame
    exact ⟨hw.front, hsame, hp.sized⟩
  | @some w p hturns =>
    have hw := hp.start.run hturns
    refine ⟨fun i st hst => ?_, hw.hits, fun st hst => (List.mem_append.mp hst).elim
      (hp.sized st) fun hst =>
      List.mem_singleton.mp hst ▸ hw.sized⟩
    by_cases hi : i < t.stages.length
    · rw [List.getElem?_append_left hi] at hst
      exact hw.front i st hst
    · rw [List.getElem?_append_right (Nat.not_lt.mp hi)] at hst
      have hlast := (List.getElem?_eq_some_iff.mp hst).1
      rw [List.length_singleton] at hlast
      obtain rfl : i = t.stages.length := by omega
      rw [Nat.sub_self] at hst
      obtain rfl := Option.some.inj hst
      exact hw.reads

theorem Parsed.run {t t' : Stages} (hp : Parsed h t)
    (ht : Relation.ReflTransGen (StageTurn o depth) t t') :
    Parsed h t' := by
  induction ht with
  | refl => exact hp
  | tail _ hturn ih => exact ih.turn hturn

theorem parsed_nil (m : Mem) (p : Str) : Parsed m.hits ⟨p, [], m⟩ :=
  ⟨fun _ _ hst => absurd hst (by simp), rfl, fun _ hst => absurd hst List.not_mem_nil⟩

theorem parsed_of_parseJob {line : Str} {job : Job} (hjob : parseJob o depth line mem = .ok job) :
    ∃ p, Parsed mem.hits ⟨p, job.stages, job.mem⟩ := by
  have hspec := parseJob_spec o depth line mem
  rw [hjob] at hspec
  obtain ⟨⟨p, hturns⟩, -⟩ := hspec
  exact ⟨p, (parsed_nil mem line).run hturns⟩

/-- A word keeps what it was when it was read. -/
theorem flatMap_now_iff (f : ℕ → Str) (origins : List Origin) :
    origins.flatMap (Origin.now f) = origins.flatMap Origin.own ↔
      ∀ l, Origin.hits l ∈ origins → (List.range l.length).map f = l := by
  have hlen : ∀ a : Origin, (a.now f).length = a.own.length := by
    intro a
    cases a with
    | kept => rfl
    | hits l => rw [Origin.now, Origin.own, List.length_map, List.length_range]
  induction origins with
  | nil => exact iff_of_true rfl fun l hl => absurd hl List.not_mem_nil
  | cons a origins ih =>
    rw [List.flatMap_cons, List.flatMap_cons]
    constructor
    · intro heq l hl
      obtain ⟨hfirst, hrest⟩ := List.append_inj heq (hlen a)
      rcases List.mem_cons.mp hl with rfl | hl
      · exact hfirst
      · exact ih.mp hrest l hl
    · intro hall
      rw [ih.mpr fun l hl => hall l (List.mem_cons_of_mem a hl)]
      congr 1
      cases a with
      | kept => rfl
      | hits l => exact hall l List.mem_cons_self

/-- **When the words of a job do not disturb each other**: each stage is started with what its words
stood for when they were read, just when any two words of the job that match something have the same
wherever both of them have something. -/
theorem argv_iff (o : World) (depth : ℕ) (line : Str) (mem : Mem) (job : Job)
    (hjob : parseJob o depth line mem = .ok job) :
    (∀ st ∈ job.stages, (st.command job.mem).argv = st.origins.flatMap Origin.own) ↔
      Overlay.Agree (expansions job.stages) := by
  obtain ⟨p, hp⟩ := parsed_of_parseJob hjob
  rw [← Overlay.overlays_iff mem.hits, ← hp.hits]
  have hargv : ∀ st ∈ job.stages, (st.command job.mem).argv = st.origins.flatMap
      (Origin.now job.mem.hits) := by
    intro st hst
    obtain ⟨i, hi⟩ := List.mem_iff_getElem?.mp hst
    exact hp.reads i st hi job.mem fun _ _ => rfl
  constructor
  · intro hall l hl
    obtain ⟨st, hst, hl⟩ := List.mem_flatMap.mp hl
    obtain ⟨a, ha, hhits⟩ := List.mem_filterMap.mp hl
    have heq := (hargv st hst).symm.trans (hall st hst)
    refine (flatMap_now_iff _ _).mp heq l ?_
    cases a with
    | kept => exact absurd hhits (by simp [Origin.hits?])
    | hits l' =>
      obtain rfl : l' = l := Option.some.inj hhits
      exact ha
  · intro hall st hst
    rw [hargv st hst, flatMap_now_iff]
    intro l hl
    exact hall l (List.mem_flatMap.mpr ⟨st, hst, List.mem_filterMap.mpr ⟨_, hl, rfl⟩⟩)

theorem ok_of_toOption {e : Except Str Job} {job : Job} (he : e.toOption = some job) :
    e = .ok job := by
  cases e with
  | error q => exact absurd he (by simp [Except.toOption])
  | ok job' => rw [Option.some.inj he]

/-- `echo a*` -/
theorem argv_single : ∃ job, parseJob oneEntry 0 [101, 99, 104, 111, blank, 97,
      star] Mem.clear = .ok job ∧
    ∀ st ∈ job.stages, (st.command job.mem).argv = st.origins.flatMap Origin.own := by
  have hrun : (parseJob oneEntry 0 [101, 99, 104, 111, blank, 97, star] Mem.clear).toOption.map
      (fun job => expansions job.stages) = some [[[46, 97, 98]]] := by decide +kernel
  obtain ⟨job, hjob, hone⟩ := Option.map_eq_some_iff.mp hrun
  refine ⟨job, ok_of_toOption hjob, (argv_iff oneEntry 0 _ _ job (ok_of_toOption hjob)).mpr ?_⟩
  rw [hone]
  intro l hl l' hl' k c c' hc hc'
  rw [List.mem_singleton.mp hl] at hc
  rw [List.mem_singleton.mp hl'] at hc'
  exact Option.some.inj (hc.symm.trans hc')

/-- Two entries, `ab` and `ba`. -/
def twoEntries : World :=
  { World.bare with dir := fun _ _ => some [⟨[97, 98], by decide⟩, ⟨[98, 97], by decide⟩] }

/-- `echo a* b*` has the second word twice. -/
theorem argv_twice : ¬∀ job, parseJob twoEntries 0
      [101, 99, 104, 111, blank, 97, star, blank, 98, star] Mem.clear = .ok job →
    ∀ st ∈ job.stages, (st.command job.mem).argv = st.origins.flatMap Origin.own := by
  intro hall
  have hrun : (parseJob twoEntries 0 [101, 99, 104, 111, blank, 97, star, blank, 98,
    star] Mem.clear).toOption.map
      (fun job => (job.stages.map fun st => (st.command job.mem).argv, job.stages.map fun st =>
        st.origins.flatMap Origin.own)) =
      some ([[[101, 99, 104, 111], [46, 98, 97], [46, 98, 97]]],
        [[[101, 99, 104, 111], [46, 97, 98], [46, 98, 97]]]) := by decide +kernel
  obtain ⟨job, hjob, hboth⟩ := Option.map_eq_some_iff.mp hrun
  have hsame := List.map_congr_left (hall job (ok_of_toOption hjob))
  rw [(Prod.mk.inj hboth).1, (Prod.mk.inj hboth).2] at hsame
  exact absurd hsame (by decide)

end Sh

end Aurisys
