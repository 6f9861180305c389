import Mathlib.Data.List.Basic

/-!
# Paths

The part of `fs.cpp` and of `vfs.cpp` that works on the text of a path: `resolve`, and what
`write_file`, `mkdir` and `rm` do to find the last component and the parent.

A string is the list of its bytes, without the zero at its end. The buffer that `resolve` builds its
answer in is 256 bytes long; the list is what is in front of `out`.

## Main definitions

* `components` — what is between the slashes
* `resolve`
* `lastName`, `parentPath`
-/

namespace Aurisys

/-- The bytes of a string. -/
abbrev Str := List UInt8

namespace Path

def slash : UInt8 := 47

def dot : UInt8 := 46

/-- The components of a path, with the one that has been read so far. -/
def componentsFrom : Str → Str → List Str
  | cur, [] => if cur = [] then [] else [cur]
  | cur, c :: s =>
    if c = slash then
      if cur = [] then componentsFrom [] s else cur :: componentsFrom [] s
    else componentsFrom (cur ++ [c]) s

/-- What is between the slashes, in order. Slashes in a row count as one. -/
def components (path : Str) : List Str := componentsFrom [] path

/-- Slashes at the end go, but the string does not become empty. The string is reversed. -/
def trimSlashes : Str → Str
  | c :: d :: s => if c = slash then trimSlashes (d :: s) else c :: d :: s
  | s => s

/-- What `resolve` does at `..`: the last component goes, with the slash in front of it. -/
def parentDir (tmp : Str) : Str :=
  let r := (trimSlashes tmp.reverse).dropWhile (· ≠ slash)
  (if 1 < r.length then r.tail else r).reverse

/-- The loop of `resolve` over the components, with a buffer for `room` bytes. -/
def follow (room : ℕ) : List Str → Str → Option Str
  | [], tmp => some tmp
  | c :: cs, tmp =>
    if c = [dot] then follow room cs tmp
    else if c = [dot, dot] then follow room cs (parentDir tmp)
    else
      let tmp := if tmp.getLast? = some slash then tmp else tmp ++ [slash]
      if room ≤ tmp.length + c.length then none else follow room cs (tmp ++ c)

/-- `fs::resolve`: the path as seen from `base`, if it fits a buffer of `bufsz` bytes. -/
def resolve (path : Str) (base : Option Str) (bufsz : ℕ) : Option Str := do
  guard (2 ≤ bufsz)
  let start := if path.head? = some slash then [] else (base.getD [slash]).take 255
  let out ← follow 256 (components path) start
  let out := if out = [] then [slash] else out
  guard (out.length + 1 ≤ bufsz)
  return out

/-- What follows the last slash. -/
def lastName (abs : Str) : Str := (abs.reverse.takeWhile (· ≠ slash)).reverse

/-- What the path is when its last slash is made the end of it. Where there is none, the zero goes
in front of it, and it is as before. -/
def parentPath (abs : Str) : Str :=
  if slash ∈ abs then (abs.reverse.dropWhile (· ≠ slash)).tail.reverse else abs

end Path

end Aurisys
