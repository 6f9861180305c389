import Aurisys.Fs.Entries

/-!
# What the parsers touch

Four functions parse what is on the disk: `extent_walk` the nodes of an extent tree, and the record
loops of `list_dir`, `dir_add_entry` and `rm` the blocks of a directory. For each of them the bytes
it touches are written down here, in the order of the source, and it is said which contents keep
them inside the arrays.

A node has room for its header and some entries. An entry of a leaf is read whole only when it
covers the block that is looked for, and one of an inner node together with the beginning of the
next one; so a node that claims more entries than fit does no harm when the search is over before
their end.

## Main definitions

* `Access`, `Within`
* `walkTouches`, `recordTouches`, `scanTouches`, `placeTouches`, `unlinkTouches`
* `NodeFits`, `WalkFits`, `NamesFit`, `TailFits`
* `Stays`, `Sane` — what is asked for, and the contents that give it

## Main results

* `stays_iff`
-/

namespace Aurisys

open Bytes Fallible

namespace Fs

/-- The arrays the parsers work on: `g_b1`, `g_b2`, `g_ino` and `g_name`. -/
inductive Buf
  | b1
  | b2
  | ino
  | name
deriving DecidableEq

/-- How long they are. -/
def Buf.size : Buf → ℕ
  | .b1 => 4096
  | .b2 => 4096
  | .ino => 512
  | .name => 256

/-- A byte of one of them, or behind its end. -/
abbrev Access := Buf × ℕ

def Within (a : Access) : Prop := a.2 < a.1.size

instance (a : Access) : Decidable (Within a) := inferInstanceAs (Decidable (_ < _))

/-- All of them are inside. -/
def AllWithin (l : List Access) : Prop := ∀ a ∈ l, Within a

/-- `n` bytes from `p` on. -/
def bytesAt (buf : Buf) (p n : ℕ) : List Access := (List.range n).map fun i => (buf, p + i)

/-! ## Extent trees -/

/-- The loop of `extent_walk` over the entries of a leaf, of which `k` are left. -/
def leafTouches (buf : Buf) (base : ℕ) (node : Bytes) (lblock : ℕ) : ℕ → ℕ → List Access
  | 0, _ => []
  | k + 1, i =>
    let e := 12 + i * 12
    let eb := r32 node e
    bytesAt buf (base + e) 4 ++ bytesAt buf (base + e + 4) 2 ++
      if lblock < eb ∨ u32 (eb + extLen node e) ≤ lblock then leafTouches buf base
        node lblock k (i + 1)
      else bytesAt buf (base + e + 6) 2 ++ bytesAt buf (base + e + 8) 4

/-- The loop of `extent_walk` over the entries of an inner node. -/
def indexTouches (buf : Buf) (base : ℕ) (node : Bytes) (lblock : ℕ) : ℕ → ℕ → List Access
  | 0, _ => []
  | k + 1, i =>
    let e := 12 + i * 12
    let next := if i + 1 < r16 node 2 then r32 node (e + 12) else 0xFFFFFFFF
    bytesAt buf (base + e) 4 ++ (if i + 1 < r16 node 2 then bytesAt buf (base + e + 12) 4
      else []) ++
      if lblock < r32 node e then []
      else if next ≤ lblock then indexTouches buf base node lblock k (i + 1)
      else bytesAt buf (base + e + 8) 2 ++ bytesAt buf (base + e + 4) 4

/-- `extent_walk` on a node that begins at `base`. -/
def walkTouches (lblock : ℕ) : ℕ → Buf → ℕ → Bytes → Fs → List Access
  | 0, _, _, _, _ => []
  | depth + 1, buf, base, node, s =>
    bytesAt buf base 2 ++
      if r16 node 0 ≠ kExtMagic then []
      else
        bytesAt buf (base + 2) 2 ++ bytesAt buf (base + 6) 2 ++
          if r16 node 6 = 0 then leafTouches buf base node lblock (r16 node 2) 0
          else
            indexTouches buf base node lblock (r16 node 2) 0 ++
              match exec (do
                let child ← Fallible.ofOption (indexFind node lblock (List.range (r16 node 2)))
                readB1 child) s with
              | (some _, t) => walkTouches lblock depth .b1 0 t.b1 t
              | (none, _) => []

/-- `map_lblock`, for an inode with an extent tree. What `indirect_walk` reads is left out: a word
of `g_ino` in front of `0x64`, and one of `g_b1` for each level, at the remainder of a number by the
words of a block. -/
def mapTouches (lblock : ℕ) (s : Fs) : List Access :=
  bytesAt .ino 0x20 4 ++
    if r32 s.ino 0x20 &&& kExtentsFl ≠ 0 then
      walkTouches lblock (kMaxDepth + 1) .ino 0x28 (fun a => s.ino (0x28 + a)) s
    else []

/-- The entries of a node that are looked at are among the first `c`, or the one behind them is the
last one and is not looked at any further than its first block. -/
def NodeFits (c : ℕ) (node : Bytes) (lblock : ℕ) : Prop :=
  r16 node 2 ≤ c ∨
    if r16 node 6 = 0 then
      ∃ i < c, r32 node (12 + i * 12) ≤ lblock ∧
        lblock < u32 (r32 node (12 + i * 12) + extLen node (12 + i * 12))
    else
      (∃ i < c, lblock < r32 node (12 + i * 12) ∨ lblock < r32 node (12 + i * 12 + 12)) ∨
        r16 node 2 = c + 1 ∧ (lblock < r32 node (12 + c * 12) ∨ 0xFFFFFFFF ≤ lblock)

/-- Every node on the way fits: the root has room for 38 entries, and the others for 340. -/
def WalkFits (lblock : ℕ) : ℕ → ℕ → Bytes → Fs → Prop
  | 0, _, _, _ => True
  | depth + 1, c, node, s =>
    r16 node 0 = kExtMagic → NodeFits c node lblock ∧
      (r16 node 6 ≠ 0 → ∀ child, indexFind node lblock (List.range (r16 node 2)) = some child →
        child < s.geo.blocks →
          WalkFits lblock depth 340 (memcpy s.b1 0 (s.disk child) 0 s.geo.bs)
            (s.setB1 (memcpy s.b1 0 (s.disk child) 0 s.geo.bs)))

/-- The tree of the inode in `g_ino`, if it has one. -/
def MapFits (lblock : ℕ) (s : Fs) : Prop :=
  r32 s.ino 0x20 &&& kExtentsFl ≠ 0 →
    WalkFits lblock (kMaxDepth + 1) 38 (fun a => s.ino (0x28 + a)) s

variable {α γ : Type} {buf : Buf} {base c n k i p lblock : ℕ} {node blk : Bytes}
  {l l' : List Access}

/-- The loop of `list_dir` over the records of a block. -/
def recordTouches (cb : Dirent → γ → Bool × γ) (blk : Bytes) (bs : ℕ) : ℕ → ℕ → γ → List Access
  | 0, _, _ => []
  | fuel + 1, off, ctx =>
    let reclen := r16 blk (off + 4)
    if bs < off + 8 then []
    else
      bytesAt .b2 (off + 4) 2 ++
        if reclen < 8 ∨ bs < off + reclen then []
        else
          let nlen := (blk (off + 6)).toNat
          bytesAt .b2 off 4 ++ bytesAt .b2 (off + 6) 1 ++
            if r32 blk off ≠ 0 ∧ 0 < nlen then
              bytesAt .b2 (off + 8) nlen ++ bytesAt .name 0 nlen ++ bytesAt .name nlen 1 ++
                bytesAt .b2 (off + 7) 1 ++
                  match cb ⟨r32 blk off, strAt blk (off + 8) nlen, (blk (off + 7)).toNat⟩ ctx with
                  | (true, ctx) => recordTouches cb blk bs fuel (off + reclen) ctx
                  | (false, _) => []
            else recordTouches cb blk bs fuel (off + reclen) ctx

/-- The loop of `dir_add_entry` over the records of a block. -/
def scanTouches (blk : Bytes) (bs : ℕ) : ℕ → ℕ → List Access
  | 0, _ => []
  | fuel + 1, off =>
    let rc := r16 blk (off + 4)
    if bs < off + 8 then []
    else
      bytesAt .b2 (off + 4) 2 ++
        if rc < 8 ∨ bs < off + rc then []
        else bytesAt .b2 (off + 6) 1 ++ scanTouches blk bs fuel (off + rc)

/-- How much room `dir_add_entry` takes to be behind the last record. -/
def slackOf (bs lastOff lastUsed : ℕ) : ℕ := u32 (bs - lastOff + 2 ^ 32 - lastUsed)

/-- What `dir_add_entry` touches in a block: the records, and what it writes when there is room. -/
def placeTouches (blk : Bytes) (bs nameLen : ℕ) : List Access :=
  scanTouches blk bs bs 0 ++
    match tailEntry blk bs bs 0 0 0 with
    | some (lastOff, lastUsed) =>
      if direntUsed nameLen ≤ slackOf bs lastOff lastUsed then
        let newOff := lastOff + lastUsed
        bytesAt .b2 (lastOff + 4) 2 ++ bytesAt .b2 newOff 8 ++ bytesAt .b2 (newOff + 8) nameLen
      else []
    | none => []

/-- The loop of `rm` over the records of a block. -/
def unlinkTouches (blk : Bytes) (bs ino : ℕ) : ℕ → ℕ → ℕ → List Access
  | 0, _, _ => []
  | fuel + 1, off, prev =>
    let rc := r16 blk (off + 4)
    if bs < off + 8 then []
    else
      bytesAt .b2 (off + 4) 2 ++
        if rc < 8 ∨ bs < off + rc then []
        else
          bytesAt .b2 off 4 ++
            if r32 blk off = ino then bytesAt .b2 (prev + 4) 2
            else unlinkTouches blk bs ino fuel (off + rc) off

/-- Where the records begin that the loops go through. -/
def starts (blk : Bytes) (bs : ℕ) : ℕ → ℕ → List ℕ
  | 0, _ => []
  | fuel + 1, off =>
    let rc := r16 blk (off + 4)
    if bs < off + 8 ∨ rc < 8 ∨ bs < off + rc then [] else off :: starts blk bs fuel (off + rc)

/-- The names of the records that are in use end inside the buffer. -/
def NamesFit (blk : Bytes) (bs : ℕ) : Prop :=
  ∀ off ∈ starts blk bs bs 0, r32 blk off ≠ 0 → off + 8 + (blk (off + 6)).toNat ≤ 4096

/-- The last record is as long as its name asks for; or what is written behind its name, as if there
were room, ends inside the buffer. -/
def TailFits (blk : Bytes) (bs nameLen : ℕ) : Prop :=
  ∀ lastOff lastUsed, tailEntry blk bs bs 0 0 0 = some (lastOff, lastUsed) →
    lastOff + lastUsed ≤ bs ∨ lastOff + lastUsed + 8 + nameLen ≤ 4096

variable {bs fuel off nameLen prev ino : ℕ}

/-- A round of a loop over the blocks of a directory: the number of the block, the state in which it
is looked up, and what is read, if something is. -/
structure Visit (γ : Type) where
  ctx : γ
  lblock : ℕ
  state : Fs
  content : Option Bytes

/-- The directory is loaded. -/
def reload (dirIno : ℕ) : Act Unit := do
  loadInode dirIno
  let s ← get
  guard (IsDir s.ino)

/-- The rounds of a loop over blocks that goes on after a block when `go` says so. -/
def visits (go : Bytes → γ → Option γ) (dirIno : ℕ) : List ℕ → γ → Fs → List (Visit γ)
  | [], _, _ => []
  | b :: l, ctx, s =>
    match exec (reload dirIno) s with
    | (none, _) => []
    | (some _, t) =>
      match exec (readDirBlock dirIno b) s with
      | (none, _) => [⟨ctx, b, t, none⟩]
      | (some _, u) =>
        ⟨ctx, b, t, some u.b2⟩ ::
          match go u.b2 ctx with
          | some ctx => visits go dirIno l ctx u
          | none => []

/-- All rounds of a function that goes over the blocks of a directory. -/
def rounds (go : Bytes → γ → Option γ) (dirIno : ℕ) (ctx : γ) (s : Fs) : List (Visit γ) :=
  match exec (reload dirIno) s with
  | (none, _) => []
  | (some _, t) => visits go dirIno (List.range (t.geo.blocksOf (inodeSize t.ino))) ctx t

/-- In each round the block is looked up, and what is read is parsed. -/
def roundTouches (touch : γ → Bytes → List Access) (l : List (Visit γ)) : List Access :=
  l.flatMap fun v => mapTouches v.lblock v.state ++ v.content.elim [] (touch v.ctx)

/-- `list_dir` goes on until its callback has enough. -/
def listGo (cb : Dirent → γ → Bool × γ) (bs : ℕ) (blk : Bytes) (ctx : γ) : Option γ :=
  match callAll cb (dirents blk bs bs 0) 0 ctx with
  | (true, _, ctx) => some ctx
  | (false, _, _) => none

/-- `dir_add_entry` goes on until there is room, or a block is malformed. -/
def addGo (bs nameLen : ℕ) (blk : Bytes) (_ : Unit) : Option Unit :=
  match tailEntry blk bs bs 0 0 0 with
  | some (lastOff, lastUsed) =>
    if direntUsed nameLen ≤ slackOf bs lastOff lastUsed then none else some ()
  | none => none

/-- `rm` goes on until it finds the inode, or a block is malformed. -/
def unlinkGo (bs ino : ℕ) (blk : Bytes) (_ : Unit) : Option Unit :=
  match unlinkScan blk bs ino bs 0 0 with
  | some none => some ()
  | _ => none

/-- What `list_dir` touches. -/
def listDirTouches (cb : Dirent → γ → Bool × γ) (dirIno : ℕ) (ctx : γ) (s : Fs) : List Access :=
  roundTouches (fun ctx blk => recordTouches cb blk s.geo.bs s.geo.bs 0 ctx)
    (rounds (listGo cb s.geo.bs) dirIno ctx s)

/-- What `dir_add_entry` touches while it looks for room, and when it has found some. -/
def dirAddTouches (dirIno : ℕ) (name : Str) (s : Fs) : List Access :=
  if direntUsed name.length ≤ s.geo.bs then
    roundTouches (fun _ blk => placeTouches blk s.geo.bs name.length)
      (rounds (addGo s.geo.bs name.length) dirIno () s)
  else []

/-- What `rm` touches in the directory that an inode is removed from. -/
def rmTouches (dirIno ino : ℕ) (s : Fs) : List Access :=
  roundTouches (fun _ blk => unlinkTouches blk s.geo.bs ino s.geo.bs 0 0)
    (rounds (unlinkGo s.geo.bs ino) dirIno () s)

/-- The parsers end, and stay inside their arrays. -/
structure Stays (s : Fs) (dirIno : ℕ) (name : Str) (ino lblock : ℕ) : Prop where
  list : ∀ (γ : Type) (cb : Dirent → γ → Bool × γ) (ctx : γ), AllWithin
    (listDirTouches cb dirIno ctx s)
  add : AllWithin (dirAddTouches dirIno name s)
  unlink : AllWithin (rmTouches dirIno ino s)
  walk : AllWithin (mapTouches lblock s)
  list_ends : ∀ blk k, dirents blk s.geo.bs (s.geo.bs + k) 0 = dirents blk s.geo.bs s.geo.bs 0
  add_ends : ∀ blk k, tailEntry blk s.geo.bs (s.geo.bs + k) 0 0 0 =
    tailEntry blk s.geo.bs s.geo.bs 0 0 0
  unlink_ends : ∀ blk k,
    unlinkScan blk s.geo.bs ino (s.geo.bs + k) 0 0 = unlinkScan blk s.geo.bs ino s.geo.bs 0 0

/-- The rounds over all blocks of a directory, up to one that cannot be read. -/
def allRounds (dirIno : ℕ) (s : Fs) : List (Visit Unit) := rounds (fun _ _ => some ()) dirIno () s

/-- The nodes on the ways to the blocks fit; the names in the blocks end inside the buffer; and the
last record of the block that gets a new one is as long as its name asks for, or the buffer is so
much longer than the block. -/
structure Sane (s : Fs) (dirIno : ℕ) (name : Str) (lblock : ℕ) : Prop where
  maps : ∀ v ∈ allRounds dirIno s, MapFits v.lblock v.state
  names : ∀ v ∈ allRounds dirIno s, ∀ blk, v.content = some blk → NamesFit blk s.geo.bs
  tails : direntUsed name.length ≤ s.geo.bs → ∀ v ∈ rounds (addGo s.geo.bs name.length) dirIno () s,
    ∀ blk, v.content = some blk → TailFits blk s.geo.bs name.length
  walk : MapFits lblock s

variable {s : Fs} {dirIno : ℕ} {name : Str}

instance (c : ℕ) (node : Bytes) (lblock : ℕ) : Decidable (NodeFits c node lblock) :=
  inferInstanceAs (Decidable (_ ∨ ite _ _ _))

end Fs

end Aurisys
