import Aurisys.Lib.Steps
import Aurisys.Sh.Edit
import Aurisys.Sh.Glob
import Mathlib.Data.List.DropRight

/-!
# Reading a word

`read_word` goes through the line with one cursor, and puts what it reads behind one another in a
buffer of `outsz` bytes. What is in single quotes is taken as it is. In double quotes and outside of
quotes, a backslash takes the next character as it is, and a dollar sign is handed to
`expand_dollar`, which looks up a name or takes what a command has printed.

One turn of one of its loops is one step here. The state has the cursor, what has been put in the
buffer, and the loop it is in.

## Main definitions

* `matchBracket`, `drain`, `substitute`, `expandDollar`, `step`, `readWord` — the code
* `Outside` — what the code asks of the rest of the system
* `Write`, `replay` — the bytes that the code stores, and what they make of the memory

## Main results

* `Turn`, `turn_of_step` — what a turn does
* `readWord_inBounds` — where the code stores bytes
-/

namespace Aurisys

namespace Sh

def blank : UInt8 := 32

def tab : UInt8 := 9

def newline : UInt8 := 10

def ret : UInt8 := 13

def pipeSign : UInt8 := 124

def amp : UInt8 := 38

def semicolon : UInt8 := 59

def less : UInt8 := 60

def greater : UInt8 := 62

def parenOpen : UInt8 := 40

def parenClose : UInt8 := 41

def quote : UInt8 := 39

def dquote : UInt8 := 34

def dollar : UInt8 := 36

def backslash : UInt8 := 92

def kMaxStage : ℕ := 4

def kMaxWord : ℕ := 8

def kWordMax : ℕ := 120

def kMaxNest : ℕ := 4

/-! ## What is stored -/

/-- The word, and the buffers of `expand_dollar` and `substitute`. -/
inductive Buf
  | out
  | name
  | line
  | read
  deriving DecidableEq

/-- The bytes that a buffer has. -/
def Buf.size (outsz : ℕ) : Buf → ℕ
  | .out => outsz
  | .name => 64
  | .line => kLineMax + 1
  | .read => 256

/-- One byte that is stored. -/
structure Write where
  buf : Buf
  index : ℕ
  value : UInt8

/-- Bytes that are stored one behind the other. -/
def stores (b : Buf) : ℕ → Str → List Write
  | _, [] => []
  | i, c :: s => ⟨b, i, c⟩ :: stores b (i + 1) s

/-- What the memory holds after a byte has been stored. -/
def store (m : Buf → ℕ → UInt8) (w : Write) : Buf → ℕ → UInt8 :=
  fun b i => if b = w.buf ∧ i = w.index then w.value else m b i

/-- What the memory holds after all of them have been stored. -/
def replay (m : Buf → ℕ → UInt8) (ws : List Write) : Buf → ℕ → UInt8 := ws.foldl store m

/-! ## The code -/

/-- What the reader gets from elsewhere. Each place of a line is read once, so that the place (what
is left of the line there) says when it was asked. -/
structure Outside where
  /-- `env_get` -/
  env : Str → Str → Option Str
  /-- What each `read` brings from the pipe of a command, if there is a pipe. -/
  output : Str → Str → Option (List Str)

/-- `is_op`. -/
def isOp (c : UInt8) : Bool :=
  c = pipeSign || c = amp || c = semicolon || c = less || c = greater || c =
    parenOpen || c = parenClose

def isBlank (c : UInt8) : Bool := c = blank || c = tab

/-- `skip_blanks`. -/
def skipBlanks (p : Str) : Str := p.dropWhile isBlank

/-- `match_bracket`: how far the bracket is. -/
def matchBracket : Str → ℤ → Option ℕ
  | [], _ => none
  | c :: p, depth =>
    if c = parenOpen then (matchBracket p (depth + 1)).map (· + 1)
    else if c = parenClose then
      if depth - 1 = 0 then some 0 else (matchBracket p (depth - 1)).map (· + 1)
    else (matchBracket p depth).map (· + 1)

/-- The loop of `substitute` over what the pipe brings: what is in the word, and what has been
stored. -/
def drain (out outsz : ℕ) : List Str → Str → Str × List Write
  | [], text => (text, [])
  | chunk :: chunks, text =>
    let buf := chunk.take 256
    if buf = [] then (text, [])
    else
      let got := buf.take (outsz - 2 - text.length)
      let r := drain out outsz chunks (text ++ got)
      (r.1, stores .read 0 buf ++ stores .out (out + text.length) got ++ r.2)

/-- `substitute`. The word begins at `out`. -/
def substitute (o : Outside) (p inner : Str) (out outsz : ℕ) : Str × List Write :=
  let line := inner.take kLineMax
  match o.output p line with
  | none => ([], [])
  | some chunks =>
    let r := drain out outsz chunks []
    let put := r.1.rdropWhile fun c => c = newline || c = ret
    (put, stores .line 0 line ++ [⟨.line, line.length, 0⟩] ++ r.2 ++ [⟨.out, out + put.length, 0⟩])

/-- What comes of a dollar sign. -/
structure Expansion where
  rest : Str
  text : Str
  writes : List Write

/-- A character that a name begins with. -/
def nameStart (c : UInt8) : Bool := (97 ≤ c && c ≤ 122) || (65 ≤ c && c ≤ 90) || c = 95

def nameChar (c : UInt8) : Bool :=
  (97 ≤ c && c ≤ 122) || (65 ≤ c && c ≤ 90) || (48 ≤ c && c ≤ 57) || c = 95

/-- `expand_dollar`. The dollar sign is the first character of `p`. -/
def expandDollar (o : Outside) (p : Str) (out outsz depth : ℕ) : Expansion :=
  if charAt p 1 = parenOpen then
    match matchBracket (p.drop 1) 0 with
    | none => ⟨p, [], []⟩
    | some k =>
      if kMaxNest ≤ depth then ⟨p.drop (k + 2), [], []⟩
      else
        let r := substitute o p ((p.drop 2).take (k - 1)) out outsz
        ⟨p.drop (k + 2), r.1, r.2⟩
  else if nameStart (charAt p 1) then
    let name := (p.drop 1).takeWhile nameChar
    let rest := p.drop (1 + name.length)
    if 64 ≤ name.length then ⟨rest, [], []⟩
    else
      let named := stores .name 0 name ++ [⟨.name, name.length, 0⟩]
      match o.env p name with
      | none => ⟨rest, [], named⟩
      | some v => ⟨rest, v.take (outsz - 1), named ++ stores .out out (v.take (outsz - 1))⟩
  else if 1 < outsz then ⟨p.drop 1, [dollar], [⟨.out, out, dollar⟩]⟩
  else ⟨p.drop 1, [], []⟩

/-- The loop that the cursor is in. -/
inductive Mode
  | plain
  | single
  | double
  deriving DecidableEq

/-- The state of `read_word`. The text is what is in the buffer up to `n`. -/
structure Reader where
  p : Str
  text : Str
  any : Bool
  mode : Mode
  writes : List Write

namespace Reader

def start (p : Str) : Reader := ⟨skipBlanks p, [], false, .plain, []⟩

/-- `out[n++] = c`. -/
def put (r : Reader) (c : UInt8) (p : Str) : Reader :=
  { r with p := p, text := r.text ++ [c], writes := r.writes ++ [⟨.out, r.text.length, c⟩] }

/-- The call of `expand_dollar`. -/
def expand (o : Outside) (outsz depth : ℕ) (r : Reader) : Reader :=
  let e := expandDollar o r.p r.text.length (outsz - r.text.length) depth
  { r with p := e.rest, text := r.text ++ e.text, writes := r.writes ++ e.writes }

/-- `out[n] = 0`. -/
def finish (r : Reader) : Reader := { r with writes := r.writes ++ [⟨.out, r.text.length, 0⟩] }

end Reader

/-- The character to take at `c`: the one behind it, if it is a backslash and not the last one. -/
def literal (c : UInt8) : Str → UInt8 × Str
  | [] => (c, [])
  | c' :: p => if c = backslash then (c', p) else (c, c' :: p)

/-- One turn of the loop that the cursor is in. -/
def step (o : Outside) (outsz depth : ℕ) (r : Reader) : Option Reader :=
  match r.mode, r.p with
  | .plain, [] => none
  | .plain, c :: p =>
    if isBlank c || isOp c then none
    else if c = quote then some { r with any := true, p := p, mode := .single }
    else if c = dquote then some { r with any := true, p := p, mode := .double }
    else if c = dollar then some (Reader.expand o outsz depth { r with any := true })
    else
      let q := literal c p
      if r.text.length < outsz - 1 then some (Reader.put { r with any := true } q.1 q.2)
      else some { r with any := true, p := q.2 }
  | .single, [] => some { r with mode := .plain }
  | .single, c :: p =>
    if c ≠ quote ∧ r.text.length < outsz - 1 then some (r.put c p)
    else some { r with p := if c = quote then p else c :: p, mode := .plain }
  | .double, [] => some { r with mode := .plain }
  | .double, c :: p =>
    if c = dquote then some { r with p := p, mode := .plain }
    else if outsz - 1 ≤ r.text.length then some { r with mode := .plain }
    else if c = dollar then some (r.expand o outsz depth)
    else
      let q := literal c p
      some (r.put q.1 q.2)

/-- The turns that the loops can take. -/
def turns (r : Reader) : ℕ := 2 * r.p.length + if r.mode = .plain then 0 else 1

/-- `read_word`. Nothing, if it does not return. -/
def readWord (o : Outside) (outsz depth : ℕ) (p : Str) : Option Reader :=
  (Steps.runFor (step o outsz depth) (turns (Reader.start p) + 1) (Reader.start p)).map
    Reader.finish

/-! ## Where bytes are stored -/

variable {o : Outside} {outsz depth out i k : ℕ} {p q s text more : Str} {r r' : Reader} {c : UInt8}
  {m : Buf → ℕ → UInt8} {ws ws' : List Write}

/-- The text is in the word from `i` on. -/
def Stands (m : Buf → ℕ → UInt8) (i : ℕ) (text : Str) : Prop :=
  ∀ k c, text[k]? = some c → m .out (i + k) = c

theorem mem_stores {b : Buf} {w : Write} (h : w ∈ stores b i s) :
    w.buf = b ∧ i ≤ w.index ∧ w.index < i + s.length := by
  induction s generalizing i with
  | nil => exact absurd h List.not_mem_nil
  | cons c s ih =>
    rw [List.length_cons]
    rcases List.mem_cons.mp h with rfl | h
    · exact ⟨rfl, le_rfl, by dsimp only; omega⟩
    · obtain ⟨hb, hle, hlt⟩ := ih h
      exact ⟨hb, by omega, by omega⟩

theorem replay_append (m : Buf → ℕ → UInt8) (ws ws' : List Write) :
    replay m (ws ++ ws') = replay (replay m ws) ws' := List.foldl_append

/-- A byte that nothing is stored in keeps its value. -/
theorem replay_of_ne (h : ∀ w ∈ ws, w.buf = .out → w.index ≠ i) :
    replay m ws .out i = m .out i := by
  induction ws generalizing m with
  | nil => rfl
  | cons w ws ih =>
    have hw : store m w .out i = m .out i := by
      rw [store, if_neg]
      rintro ⟨hb, hi⟩
      exact h w List.mem_cons_self hb.symm hi.symm
    rw [← hw]
    exact ih fun w hw => h w (List.mem_cons_of_mem _ hw)

theorem stands_stores : Stands (replay m (stores .out i s)) i s := by
  induction s generalizing m i with
  | nil =>
    intro k c h
    exact absurd h (by simp)
  | cons a s ih =>
    intro k c h
    cases k with
    | zero =>
      have hkeep : ∀ w ∈ stores .out (i + 1) s, w.buf = .out → w.index ≠ i := by
        intro w hw _ hi
        have := (mem_stores hw).2.1
        omega
      have hfirst : store m ⟨.out, i, a⟩ .out i = a := if_pos ⟨rfl, rfl⟩
      exact (replay_of_ne hkeep).trans (hfirst.trans (Option.some.inj h))
    | succ k =>
      have := ih (i := i + 1) (m := store m ⟨.out, i, a⟩) k c h
      rwa [Nat.add_right_comm] at this

/-- **The text is put where it belongs**: nothing is stored in front of `out` or behind the buffers,
the text is in the word, and there is room left for its zero. -/
structure Placed (out outsz : ℕ) (text : Str) (ws : List Write) : Prop where
  room : text.length < outsz
  bounds : ∀ w ∈ ws, w.index < w.buf.size (out + outsz)
  behind : ∀ w ∈ ws, w.buf = .out → out ≤ w.index
  holds : ∀ m, Stands (replay m ws) out text

namespace Placed

theorem nil (h : 0 < outsz) (hbounds : ∀ w ∈ ws, w.index < w.buf.size (out + outsz))
    (hbehind : ∀ w ∈ ws, w.buf = .out → out ≤ w.index) : Placed out outsz [] ws :=
  ⟨h, hbounds, hbehind, fun _ _ _ hc => absurd hc (by simp)⟩

/-- Nothing has been stored. -/
theorem empty (h : 0 < outsz) : Placed out outsz [] [] :=
  nil h (fun _ hw => absurd hw List.not_mem_nil) fun _ hw => absurd hw List.not_mem_nil

theorem stores (h : s.length < outsz) : Placed out outsz s (stores .out out s) := by
  refine ⟨h, fun w hw => ?_, fun w hw _ => (mem_stores hw).2.1, fun m => stands_stores⟩
  obtain ⟨hb, -, hlt⟩ := mem_stores hw
  rw [hb]
  change w.index < out + outsz
  omega

/-- The buffers other than the word. -/
theorem other {b : Buf} (h : 0 < outsz) (hb : b ≠ .out) (hs : i + s.length ≤ b.size 0) :
    Placed out outsz [] (Sh.stores b i s) := by
  refine nil h (fun w hw => ?_) fun w hw hout => absurd ((mem_stores hw).1.symm.trans hout) hb
  obtain ⟨hwb, -, hlt⟩ := mem_stores hw
  have hsize : w.buf.size (out + outsz) = b.size 0 := by
    rw [hwb]
    cases b with
    | out => exact absurd rfl hb
    | _ => rfl
  omega

theorem append (h : Placed out outsz text ws)
    (h' : Placed (out + text.length) (outsz - text.length) more ws') :
    Placed out outsz (text ++ more) (ws ++ ws') := by
  have hroom := h.room
  have hroom' := h'.room
  refine ⟨?_, ?_, ?_, ?_⟩
  · rw [List.length_append]
    omega
  · intro w hw
    rcases List.mem_append.mp hw with hw | hw
    · exact h.bounds w hw
    · have := h'.bounds w hw
      rwa [show out + text.length + (outsz - text.length) = out + outsz by omega] at this
  · intro w hw hb
    rcases List.mem_append.mp hw with hw | hw
    · exact h.behind w hw hb
    · have := h'.behind w hw hb
      omega
  · intro m k c hc
    rw [replay_append]
    by_cases hk : k < text.length
    · rw [List.getElem?_append_left hk] at hc
      have hkeep : ∀ w ∈ ws', w.buf = .out → w.index ≠ out + k := by
        intro w hw hb hi
        have := h'.behind w hw hb
        omega
      rw [replay_of_ne hkeep]
      exact h.holds m k c hc
    · rw [List.getElem?_append_right (Nat.not_lt.mp hk)] at hc
      have := h'.holds (replay m ws) (k - text.length) c hc
      rwa [show out + text.length + (k - text.length) = out + k by omega] at this

theorem of_isPrefix (h : Placed out outsz text ws) (hp : more <+: text) :
    Placed out outsz more ws := by
  refine ⟨lt_of_le_of_lt hp.length_le h.room, h.bounds, h.behind, fun m k c hc => h.holds m k c ?_⟩
  obtain ⟨t, rfl⟩ := hp
  obtain ⟨hk, -⟩ := List.getElem?_eq_some_iff.mp hc
  rwa [List.getElem?_append_left hk]

/-- The zero behind the text. -/
theorem zero (h : Placed out outsz text ws) :
    Placed out outsz text (ws ++ [⟨.out, out + text.length, 0⟩]) := by
  have hroom := h.room
  have hzero : Placed (out + text.length) (outsz - text.length) [] [⟨.out,
      out + text.length, 0⟩] := by
    refine nil (by omega) (fun w hw => ?_) fun w hw _ => ?_
    · obtain rfl := List.mem_singleton.mp hw
      change out + text.length < out + text.length + (outsz - text.length)
      omega
    · obtain rfl := List.mem_singleton.mp hw
      exact le_rfl
  have := h.append hzero
  rwa [List.append_nil] at this

/-- Buffers other than the word, and then the word. -/
theorem behind_other (h : Placed out outsz [] ws) (h' : Placed out outsz text ws') :
    Placed out outsz text (ws ++ ws') := h.append h'

end Placed

theorem drain_placed (chunks : List Str) (text : Str) (out : ℕ) (h : text.length < outsz) :
    ∃ more, (drain out outsz chunks text).1 = text ++ more ∧
      Placed (out + text.length) (outsz - text.length) more (drain out outsz chunks text).2 := by
  have hnone : ∃ more, text = text ++ more ∧ Placed (out + text.length)
    (outsz - text.length) more [] :=
    ⟨[], (List.append_nil text).symm, Placed.empty (by omega)⟩
  induction chunks generalizing text with
  | nil => exact hnone
  | cons chunk chunks ih =>
    by_cases hbuf : chunk.take 256 = []
    · rw [drain, if_pos hbuf]
      exact hnone
    · rw [drain, if_neg hbuf]
      dsimp only
      have hlen := List.length_take_le 256 chunk
      generalize chunk.take 256 = buf at hbuf hlen
      have hgot := List.length_take_le (outsz - 2 - text.length) buf
      generalize buf.take (outsz - 2 - text.length) = got at hgot
      have hlt : (text ++ got).length < outsz := by
        rw [List.length_append]
        omega
      obtain ⟨more, hmore, hplaced⟩ :=
        ih _ hlt ⟨[], (List.append_nil _).symm, Placed.empty (by omega)⟩
      refine ⟨got ++ more, by rw [hmore, List.append_assoc], ?_⟩
      rw [List.length_append] at hlt hplaced
      have hread : Placed (out + text.length) (outsz - text.length) [] (stores .read 0 buf) :=
        Placed.other (by omega) (by decide) (by rw [Nat.zero_add]; exact hlen)
      have hword : Placed (out + text.length) (outsz - text.length) got
        (stores .out (out + text.length) got) :=
        Placed.stores (by omega)
      refine (hread.behind_other hword).append ?_
      rwa [Nat.add_assoc, Nat.sub_sub]

theorem substitute_placed (p inner : Str) (h : 0 < outsz) :
    Placed out outsz (substitute o p inner out outsz).1 (substitute o p inner out outsz).2 := by
  rw [substitute]
  cases o.output p (inner.take kLineMax) with
  | none => exact Placed.empty h
  | some chunks =>
    dsimp only
    obtain ⟨more, hmore, hplaced⟩ := drain_placed chunks [] out h
    rw [List.nil_append] at hmore
    rw [hmore]
    have hlen := List.length_take_le kLineMax inner
    generalize inner.take kLineMax = line at hlen
    have hline : Placed out outsz [] (stores .line 0 line) :=
      Placed.other h (by decide) (by change 0 + line.length ≤ kLineMax + 1; omega)
    have hend : Placed out outsz [] [⟨.line, line.length, 0⟩] :=
      Placed.other (s := [0]) h (by decide) (by change line.length + 1 ≤ kLineMax + 1; omega)
    exact (((hline.behind_other hend).behind_other hplaced).of_isPrefix
      (List.rdropWhile_prefix _ _)).zero

theorem expandDollar_placed (p : Str) (depth : ℕ) (h : 0 < outsz) :
    Placed out outsz (expandDollar o p out outsz depth).text (expandDollar o p out
      outsz depth).writes := by
  have hnone : Placed out outsz [] [] := Placed.empty h
  rw [expandDollar]
  by_cases hparen : charAt p 1 = parenOpen
  · rw [if_pos hparen]
    cases matchBracket (p.drop 1) 0 with
    | none => exact hnone
    | some k =>
      dsimp only
      by_cases hdepth : kMaxNest ≤ depth
      · rw [if_pos hdepth]
        exact hnone
      · rw [if_neg hdepth]
        exact substitute_placed p _ h
  · rw [if_neg hparen]
    by_cases hstart : nameStart (charAt p 1) = true
    · rw [if_pos hstart]
      dsimp only
      generalize (p.drop 1).takeWhile nameChar = name
      by_cases hname : 64 ≤ name.length
      · rw [if_pos hname]
        exact hnone
      · rw [if_neg hname]
        have hstored : Placed out outsz [] (stores .name 0 name) :=
          Placed.other h (by decide) (by change 0 + name.length ≤ 64; omega)
        have hend : Placed out outsz [] [⟨.name, name.length, 0⟩] :=
          Placed.other (s := [0]) h (by decide) (by change name.length + 1 ≤ 64; omega)
        cases o.env p name with
        | none => exact hstored.behind_other hend
        | some v =>
          have hlen := List.length_take_le (outsz - 1) v
          have hword : Placed out outsz (v.take (outsz - 1))
            (stores .out out (v.take (outsz - 1))) :=
            Placed.stores (by omega)
          exact (hstored.behind_other hend).behind_other hword
    · rw [if_neg hstart]
      by_cases hroom : 1 < outsz
      · rw [if_pos hroom]
        exact Placed.stores (s := [dollar]) hroom
      · rw [if_neg hroom]
        exact hnone

/-! ## What a turn does -/

/-- A command to put in the line whose bracket is not closed. -/
def Unclosed (p : Str) : Prop :=
  p.head? = some dollar ∧ charAt p 1 = parenOpen ∧ matchBracket (p.drop 1) 0 = none

theorem expandDollar_unclosed (h : Unclosed p) :
    expandDollar o p out outsz depth = ⟨p, [], []⟩ := by
  rw [expandDollar, if_pos h.2.1, h.2.2]

theorem expandDollar_rest (o : Outside) (p : Str) (out outsz depth : ℕ) :
    ∃ k, (expandDollar o p out outsz depth).rest = p.drop k ∧
    (k = 0 → p.head? = some dollar → Unclosed p) := by
  rw [expandDollar]
  by_cases hparen : charAt p 1 = parenOpen
  · rw [if_pos hparen]
    cases hclose : matchBracket (p.drop 1) 0 with
    | none => exact ⟨0, rfl, fun _ hd => ⟨hd, hparen, hclose⟩⟩
    | some k =>
      dsimp only
      refine ⟨k + 2, ?_, fun h => absurd h (by omega)⟩
      split <;> rfl
  · rw [if_neg hparen]
    by_cases hstart : nameStart (charAt p 1) = true
    · rw [if_pos hstart]
      dsimp only
      generalize (p.drop 1).takeWhile nameChar = name
      refine ⟨1 + name.length, ?_, fun h => absurd h (by omega)⟩
      split
      · rfl
      · cases o.env p name <;> rfl
    · rw [if_neg hstart]
      refine ⟨1, ?_, fun h => absurd h (by omega)⟩
      split <;> rfl

theorem expandDollar_isSuffix (o : Outside) (p : Str) (out outsz depth : ℕ) :
    (expandDollar o p out outsz depth).rest <:+ p := by
  obtain ⟨k, hk, -⟩ := expandDollar_rest o p out outsz depth
  rw [hk]
  exact List.drop_suffix k p

/-- The cursor goes on from any dollar sign but that of a bracket that is not closed. -/
theorem length_expandDollar (hd : p.head? = some dollar) (h : ¬Unclosed p) :
    (expandDollar o p out outsz depth).rest.length < p.length := by
  obtain ⟨k, hk, hzero⟩ := expandDollar_rest o p out outsz depth
  have hpos : k ≠ 0 := fun hz => h (hzero hz hd)
  have hlen : 0 < p.length := by
    cases p with
    | nil => exact absurd hd (by simp)
    | cons a p => exact Nat.succ_pos _
  rw [hk, List.length_drop]
  omega

/-- **What a turn does.** -/
inductive Turn (o : Outside) (outsz depth : ℕ) (r : Reader) : Reader → Prop
  /-- A character is read over. It may be a quote. -/
  | pass {p : Str} {mode : Mode} (hp : p <:+ r.p) (hlt : p.length < r.p.length)
    (hmode : r.mode = .plain) :
    Turn o outsz depth r { r with any := true, p := p, mode := mode }
  /-- A character is put in the word. -/
  | put {any : Bool} {c : UInt8} {p : Str} (hp : p <:+ r.p) (hlt : p.length < r.p.length)
    (hroom : r.text.length < outsz - 1) (hany : r.any = true ∨ r.mode = .plain → any = true) :
    Turn o outsz depth r (Reader.put { r with any := any } c p)
  /-- A dollar sign is looked into. -/
  | expand {any : Bool} (hp : r.p.head? = some dollar)
    (hmode : r.mode = .plain ∨ r.mode = .double ∧ r.text.length < outsz - 1)
    (hany : r.any = true ∨ r.mode = .plain → any = true) :
    Turn o outsz depth r (Reader.expand o outsz depth { r with any := any })
  /-- The loop over what is quoted is left. -/
  | leave {p : Str} (hp : p <:+ r.p) (hmode : r.mode ≠ .plain) : Turn o outsz depth r
    { r with p := p, mode := .plain }

theorem literal_isSuffix (c : UInt8) (p : Str) : (literal c p).2 <:+ p := by
  cases p with
  | nil => exact List.suffix_rfl
  | cons c' p =>
    rw [literal]
    split
    · exact List.suffix_cons c' p
    · exact List.suffix_rfl

theorem turn_of_step (h : step o outsz depth r = some r') : Turn o outsz depth r r' := by
  obtain ⟨p, text, any, mode, writes⟩ := r
  have hquoted : any = true ∨ mode = .plain → mode ≠ .plain → any = true :=
    fun h hne => h.resolve_right hne
  have hcons : ∀ (c : UInt8) (q p : Str), q <:+ p → q <:+ c :: p ∧ q.length < (c :: p).length :=
    fun c q p hq => ⟨hq.trans (List.suffix_cons c p), Nat.lt_succ_of_le hq.length_le⟩
  cases mode with
  | plain =>
    cases p with
    | nil => exact absurd h (by simp [step])
    | cons c p =>
      have hself := hcons c p p List.suffix_rfl
      obtain ⟨hlit, hltlit⟩ := hcons c _ p (literal_isSuffix c p)
      simp only [step] at h
      split at h
      · exact absurd h (by simp)
      split at h
      · obtain rfl := Option.some.inj h
        exact .pass hself.1 hself.2 rfl
      split at h
      · obtain rfl := Option.some.inj h
        exact .pass hself.1 hself.2 rfl
      split at h
      · next hc =>
        obtain rfl := Option.some.inj h
        exact .expand (congrArg some hc) (Or.inl rfl) fun _ => rfl
      split at h
      · next hroom =>
        obtain rfl := Option.some.inj h
        exact .put hlit hltlit hroom fun _ => rfl
      · obtain rfl := Option.some.inj h
        exact .pass hlit hltlit rfl
  | single =>
    cases p with
    | nil =>
      obtain rfl := Option.some.inj h
      exact .leave List.suffix_rfl (by simp)
    | cons c p =>
      have hself := hcons c p p List.suffix_rfl
      simp only [step] at h
      split at h
      · next hroom =>
        obtain rfl := Option.some.inj h
        exact .put hself.1 hself.2 hroom.2 fun h => hquoted h (by simp)
      · obtain rfl := Option.some.inj h
        refine .leave ?_ (by simp)
        split
        · exact hself.1
        · exact List.suffix_rfl
  | double =>
    cases p with
    | nil =>
      obtain rfl := Option.some.inj h
      exact .leave List.suffix_rfl (by simp)
    | cons c p =>
      have hself := hcons c p p List.suffix_rfl
      obtain ⟨hlit, hltlit⟩ := hcons c _ p (literal_isSuffix c p)
      simp only [step] at h
      split at h
      · obtain rfl := Option.some.inj h
        exact .leave hself.1 (by simp)
      split at h
      · obtain rfl := Option.some.inj h
        exact .leave List.suffix_rfl (by simp)
      · next hfull =>
        split at h
        · next hc =>
          obtain rfl := Option.some.inj h
          exact .expand (congrArg some hc) (Or.inr ⟨rfl, Nat.not_le.mp hfull⟩) fun h =>
            hquoted h (by simp)
        · obtain rfl := Option.some.inj h
          exact .put hlit hltlit (Nat.not_le.mp hfull) fun h => hquoted h (by simp)

/-- The cursor never goes back. -/
theorem Turn.isSuffix (h : Turn o outsz depth r r') : r'.p <:+ r.p := by
  cases h with
  | pass hp => exact hp
  | put hp => exact hp
  | expand => exact expandDollar_isSuffix _ _ _ _ _
  | leave hp => exact hp

theorem Turn.any (h : Turn o outsz depth r r') (hany : r.any = true ∨ r.mode = .plain) :
    r'.any = true := by
  cases h with
  | pass => rfl
  | put _ _ _ h => exact h hany
  | expand _ _ h => exact h hany
  | leave _ hmode => exact hany.resolve_right hmode

/-- **Each turn stores its bytes where they belong.** -/
theorem Turn.placed (h : Turn o outsz depth r r') (hr : Placed 0 outsz r.text r.writes) :
    Placed 0 outsz r'.text r'.writes := by
  have hroom := hr.room
  cases h with
  | pass => exact hr
  | @put any c p _ _ hlt =>
    have hword : Placed (0 + r.text.length) (outsz - r.text.length) [c]
      (stores .out (0 + r.text.length) [c]) :=
      Placed.stores (by rw [List.length_singleton]; omega)
    have := hr.append hword
    rwa [Nat.zero_add] at this
  | expand =>
    refine hr.append ?_
    rw [Nat.zero_add]
    exact expandDollar_placed r.p depth (by omega)
  | leave => exact hr

open StateTransition in
theorem placed_of_reaches (hr : Placed 0 outsz r.text r.writes)
    (h : Reaches (step o outsz depth) r r') :
    Placed 0 outsz r'.text r'.writes :=
  Steps.invariant (p := fun r => Placed 0 outsz r.text r.writes)
    (fun _ _ ha hf => (turn_of_step hf).placed ha) hr h

theorem start_placed (p : Str) (h : 0 < outsz) :
    Placed 0 outsz (Reader.start p).text (Reader.start p).writes :=
  Placed.empty h

/-- What the reader returns is the last state of its loops, with a zero behind the text. -/
theorem mem_eval_of_readWord (h : readWord o outsz depth p = some r) :
    ∃ b, b ∈ StateTransition.eval (step o outsz depth) (Reader.start p) ∧ r = b.finish := by
  obtain ⟨b, hb, rfl⟩ := Option.map_eq_some_iff.mp h
  exact ⟨b, Steps.mem_eval_of_runFor hb, rfl⟩

theorem finish_placed (h : Placed 0 outsz r.text r.writes) :
    Placed 0 outsz r.finish.text r.finish.writes := by
  have := h.zero
  rwa [Nat.zero_add] at this

theorem replay_finish (r : Reader) (m : Buf → ℕ → UInt8) :
    replay m r.finish.writes .out r.text.length = 0 := by
  rw [Reader.finish, replay_append]
  exact if_pos ⟨rfl, rfl⟩

/-- **`read_word` stores nothing behind the end of a buffer**, whatever the line, the names and what
the commands in it print: not at any point of its loops, and not when it is done. Then the word ends
with a zero. -/
theorem readWord_inBounds (o : Outside) (outsz depth : ℕ) (p : Str) (h : 2 ≤ outsz) :
    (∀ r, StateTransition.Reaches (step o outsz depth) (Reader.start p) r →
      ∀ w ∈ r.writes, w.index < w.buf.size outsz) ∧
    ∀ r, readWord o outsz depth p = some r →
      (∀ w ∈ r.writes, w.index < w.buf.size outsz) ∧ r.text.length < outsz ∧
      ∀ m, Stands (replay m r.writes) 0 r.text ∧ replay m r.writes .out r.text.length = 0 := by
  have hstart := start_placed p (Nat.lt_of_lt_of_le Nat.two_pos h)
  constructor
  · intro r hr w hw
    have := (placed_of_reaches hstart hr).bounds w hw
    rwa [Nat.zero_add] at this
  · intro r hr
    obtain ⟨b, hb, rfl⟩ := mem_eval_of_readWord hr
    have hend := finish_placed (placed_of_reaches hstart (StateTransition.mem_eval.mp hb).1)
    refine ⟨fun w hw => ?_, hend.room, fun m => ⟨hend.holds m, replay_finish b m⟩⟩
    have := hend.bounds w hw
    rwa [Nat.zero_add] at this

/-- A name in quotes, whose value does not fit. -/
theorem inBounds_name :
    ∃ r, readWord ⟨fun _ _ => some [49, 50, 51], fun _ _ => none⟩ 3 0 [dquote, dollar,
      65, dquote] = some r ∧
      r.text = [49, 50] ∧ ∀ w ∈ r.writes, w.index < w.buf.size 3 := by
  obtain ⟨r, hr, htext⟩ : ∃ r, readWord ⟨fun _ _ => some [49, 50, 51], fun _ _ => none⟩ 3 0
      [dquote, dollar, 65, dquote] = some r ∧ r.text = [49, 50] := ⟨_, rfl, rfl⟩
  exact ⟨r, hr, htext, ((readWord_inBounds _ 3 0 _ (by decide)).2 r hr).1⟩

/-! ## Where the reader does not go on -/

/-- The cursor is at a bracket that is not closed, and `expand_dollar` is called. -/
def Stuck (outsz : ℕ) (r : Reader) : Prop :=
  Unclosed r.p ∧ (r.mode = .plain ∨ r.mode = .double ∧ r.text.length < outsz - 1)

/-- The cursor goes on, or a loop over what is quoted is left. -/
def Advances (r r' : Reader) : Prop := r'.p.length < r.p.length ∨ r.mode ≠ .plain ∧ r'.mode = .plain

theorem expand_unclosed (h : Unclosed r.p) : r.expand o outsz depth = r := by
  rw [Reader.expand, expandDollar_unclosed h]
  dsimp only
  rw [List.append_nil, List.append_nil]

/-- Nothing changes any more. -/
theorem step_stuck (o : Outside) (depth : ℕ) (h : Stuck outsz r) :
    ∃ any, step o outsz depth r = some { r with any := any } := by
  obtain ⟨p, text, any, mode, writes⟩ := r
  obtain ⟨hopen, hmode⟩ := h
  have hopen : Unclosed p := hopen
  obtain ⟨q, rfl⟩ : ∃ q, p = dollar :: q := by
    cases p with
    | nil => exact absurd hopen.1 (by simp)
    | cons a q =>
      obtain rfl := Option.some.inj hopen.1
      exact ⟨q, rfl⟩
  rcases hmode with rfl | ⟨rfl, hroom⟩
  · refine ⟨true, ?_⟩
    have hstep : step o outsz depth ⟨dollar :: q, text, any, .plain, writes⟩ =
        some (Reader.expand o outsz depth ⟨dollar :: q, text, true, .plain, writes⟩) := rfl
    rw [hstep, expand_unclosed (r := ⟨dollar :: q, text, true, .plain, writes⟩) hopen]
  · refine ⟨any, ?_⟩
    have hstep : step o outsz depth ⟨dollar :: q, text, any, .double, writes⟩ =
        some (Reader.expand o outsz depth ⟨dollar :: q, text, any, .double, writes⟩) := by
      have hnot : ¬outsz - 1 ≤ text.length := Nat.not_le.mpr hroom
      simp only [step]
      rw [if_neg (by decide), if_neg hnot, if_pos trivial]
    rw [hstep, expand_unclosed hopen]

/-- **A turn advances but where the reader is stuck.** -/
theorem advances_iff (h : step o outsz depth r = some r') : Advances r r' ↔ ¬Stuck outsz r := by
  constructor
  · intro hadv hstuck
    obtain ⟨any, hany⟩ := step_stuck o depth hstuck
    obtain rfl := Option.some.inj (hany.symm.trans h)
    rcases hadv with hlt | ⟨hne, heq⟩
    · exact absurd hlt (lt_irrefl _)
    · exact hne heq
  · intro hstuck
    cases turn_of_step h with
    | pass _ hlt => exact Or.inl hlt
    | put _ hlt => exact Or.inl hlt
    | expand hd hmode => exact Or.inl (length_expandDollar hd fun hopen => hstuck ⟨hopen, hmode⟩)
    | leave _ hmode => exact Or.inr ⟨hmode, rfl⟩

theorem Advances.turns (h : Advances r r') (hp : r'.p <:+ r.p) : turns r' < turns r := by
  have hle := hp.length_le
  rw [Sh.turns, Sh.turns]
  rcases h with hlt | ⟨hne, heq⟩
  · split <;> split <;> omega
  · rw [if_pos heq, if_neg hne]
    omega

theorem descends (o : Outside) (outsz depth : ℕ) :
    Steps.Descends (step o outsz depth) turns (Stuck outsz) where
  down hstep hstuck := ((advances_iff hstep).mpr hstuck).turns (turn_of_step hstep).isSuffix
  stays hstuck := by
    obtain ⟨any, hany⟩ := step_stuck o depth hstuck
    exact ⟨_, hany, hstuck⟩

/-- What the loops come to is what the reader returns. -/
theorem readWord_of_reaches (h : StateTransition.Reaches (step o outsz depth) (Reader.start p) r)
    (hend : step o outsz depth r = none) : readWord o outsz depth p = some r.finish := by
  have hr : r ∈ StateTransition.eval (step o outsz depth) (Reader.start p) :=
    StateTransition.mem_eval.mpr ⟨h, hend⟩
  rcases (descends o outsz depth).runFor (Nat.lt_succ_self (turns (Reader.start p))) with ⟨b,
    hb⟩ | ⟨b, hb, hstuck⟩
  · rw [readWord, hb, Part.mem_unique (Steps.mem_eval_of_runFor hb) hr]
    rfl
  · exact absurd hstuck ((descends o outsz depth).dom_iff.mp hr.1 b hb)

/-- **`read_word` returns unless it gets stuck.** -/
theorem readWord_none : readWord o outsz depth p = none ↔
    ∃ r, StateTransition.Reaches (step o outsz depth) (Reader.start p) r ∧ Stuck outsz r := by
  rw [readWord, Option.map_eq_none_iff]
  exact (descends o outsz depth).runFor_none (Nat.lt_succ_self _)

theorem isSuffix_of_reaches (h : StateTransition.Reaches (step o outsz depth) r r') :
    r'.p <:+ r.p :=
  Steps.invariant (p := fun b => b.p <:+ r.p) (fun _ _ ha hf => (turn_of_step hf).isSuffix.trans ha)
    List.suffix_rfl h

theorem skipBlanks_isSuffix (p : Str) : skipBlanks p <:+ p := List.dropWhile_suffix _

theorem readWord_isSuffix (h : readWord o outsz depth p = some r) : r.p <:+ p := by
  obtain ⟨b, hb, rfl⟩ := mem_eval_of_readWord h
  exact (isSuffix_of_reaches (StateTransition.mem_eval.mp hb).1).trans (skipBlanks_isSuffix p)

/-- A character that a word can begin with. -/
def wordStart (c : UInt8) : Bool := !(isBlank c || isOp c)

theorem skipBlanks_of_head (h : isBlank c = false) (p : Str) : skipBlanks (c :: p) = c :: p := by
  rw [skipBlanks, List.dropWhile_cons, h]
  rfl

theorem skipBlanks_wordStart (h : wordStart c = true) : skipBlanks (c :: p) = c :: p := by
  rw [wordStart, Bool.not_eq_true', Bool.or_eq_false_iff] at h
  exact skipBlanks_of_head h.1 p

/-- Where a word can begin, the reader reads something. -/
theorem readWord_wordStart (hc : wordStart c = true)
    (h : readWord o outsz depth (c :: p) = some r) :
    r.p.length < (c :: p).length ∧ r.any = true := by
  obtain ⟨b, hb, rfl⟩ := mem_eval_of_readWord h
  obtain ⟨hreach, hend⟩ := StateTransition.mem_eval.mp hb
  have hstart : Reader.start (c :: p) = ⟨c :: p, [], false, .plain, []⟩ := by
    rw [Reader.start, skipBlanks_wordStart hc]
  rw [hstart] at hreach
  have hgo : ¬(isBlank c || isOp c) = true := by
    intro hstop
    rw [wordStart, hstop] at hc
    exact absurd hc (by decide)
  obtain ⟨r₁, hstep⟩ : ∃ r₁, step o outsz depth ⟨c :: p, [], false, .plain, []⟩ = some r₁ := by
    simp only [step]
    rw [if_neg hgo]
    split
    · exact ⟨_, rfl⟩
    split
    · exact ⟨_, rfl⟩
    split
    · exact ⟨_, rfl⟩
    split
    · exact ⟨_, rfl⟩
    · exact ⟨_, rfl⟩
  have hfree : ¬Stuck outsz ⟨c :: p, [], false, .plain, []⟩ :=
    (descends o outsz depth).dom_iff.mp (hstart ▸ hb.1) _ .refl
  have hadv := ((advances_iff hstep).mpr hfree).resolve_right fun h => h.1 rfl
  have hany₁ := (turn_of_step hstep).any (Or.inr rfl)
  rcases (Steps.reaches_iff hstep).mp hreach with rfl | hreach
  · exact absurd (hend.symm.trans hstep) (by simp)
  · have hany : b.any = true := Steps.invariant (p := fun r => r.any = true)
      (fun _ _ ha hf => (turn_of_step hf).any (Or.inl ha)) hany₁ hreach
    exact ⟨lt_of_le_of_lt (isSuffix_of_reaches hreach).length_le hadv, hany⟩

end Sh

end Aurisys
