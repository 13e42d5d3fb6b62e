import Mlibc.Errno
import Mlibc.FileTree

/-!
# The function `realpath`

The model of `realpath`: `resolv` is the resolved path, `lnk` the text of links that is left from
`ls` on.
-/

namespace Mlibc

open PathString

/-- `getcwd`, whether `Stat` without following links finds a link, and what `Readlink` stores. -/
structure PathCalls where
  getcwd : Nat → Except Errno PathString
  stat : PathString → Except Errno Bool
  readlink : PathString → Except Errno PathString

namespace Realpath

inductive Fault where
  | errno (code : Errno)
  | ensure
  | undefined
  | outOfFuel
  deriving DecidableEq

def pathMax : Nat := 4096

def stringAt (memory : List Char) : PathString := memory.takeWhile (· ≠ terminator)

def lastSlash (memory : List Char) : Option Nat :=
  if '/' ∈ stringAt memory then
    some ((stringAt memory).length - 1 - (stringAt memory).reverse.idxOf '/')
  else none

/-- The segment at an offset: up to the next slash, or of the length `strlen(memory) - start`. -/
def segmentAt (memory : List Char) (start : Nat) : Option PathString :=
  if '/' ∈ stringAt (memory.drop start) then
    some ((stringAt (memory.drop start)).takeWhile (· ≠ '/'))
  else if start ≤ (stringAt memory).length then
    some ((memory.drop start).take ((stringAt memory).length - start))
  else none

/-- The buffers of `realpath`. -/
structure Buffers where
  resolv : List Char
  lnk : List Char
  ls : Nat
  deriving DecidableEq

def withoutTrailing : PathString → PathString
  | [] => []
  | first :: rest => first :: rest.rdropWhile (· = '/')

def removeSegment (bufs : Buffers) : Except Fault Buffers :=
  if bufs.resolv.length > 1 then
    match lastSlash bufs.resolv with
    | none => .error .ensure
    | some slash =>
      .ok { bufs with resolv := (bufs.resolv.take (slash + 1)).set slash terminator }
  else .ok bufs

/-- What `process_segment` does with the target of a link. -/
def followLink (rsz : Nat) (target : PathString) (bufs : Buffers) : Buffers :=
  if IsAbsolute target then
    { bufs with resolv := withoutTrailing target ++ [terminator] }
  else
    { resolv := (bufs.resolv.take rsz).set (rsz - 1) terminator
      lnk := target ++ bufs.lnk.drop bufs.ls ++ [terminator]
      ls := 0 }

def appendSegment (segment : PathString) (bufs : Buffers) : Buffers :=
  { bufs with
    resolv := bufs.resolv.set (bufs.resolv.length - 1) '/' ++ segment ++ [terminator] }

variable (calls : PathCalls)

def processSegment (segment : PathString) (bufs : Buffers) : Except Fault Buffers :=
  if segment = [] ∨ segment = here then .ok bufs
  else if segment = parent then removeSegment bufs
  else
    let appended := appendSegment segment bufs
    match calls.stat (stringAt appended.resolv) with
    | .error code => .error (.errno code)
    | .ok false => .ok appended
    | .ok true =>
      match calls.readlink (stringAt appended.resolv) with
      | .error code => .error (.errno code)
      | .ok target => .ok (followLink bufs.resolv.length target appended)

def linkLoop : Nat → Buffers → Except Fault Buffers
  | 0, _ => .error .outOfFuel
  | fuel + 1, bufs =>
    if bufs.ls < bufs.lnk.length then
      match segmentAt bufs.lnk bufs.ls with
      | none => .error .undefined
      | some segment =>
        (processSegment calls segment { bufs with ls := bufs.ls + segment.length + 1 }).bind
            (linkLoop fuel)
    else .ok bufs

def pathLoop (fuel : Nat) (path : PathString) : Nat → Nat → Buffers → Except Fault Buffers
  | 0, _, _ => .error .outOfFuel
  | rounds + 1, ps, bufs =>
    if ps < path.length then
      match segmentAt (path ++ [terminator]) ps with
      | none => .error .undefined
      | some segment =>
        ((processSegment calls segment bufs).bind (linkLoop calls fuel)).bind fun consumed =>
            pathLoop fuel path rounds (ps + segment.length + 1) { consumed with lnk := [], ls := 0 }
    else .ok bufs

def getcwdLoop : Nat → Nat → Except Fault PathString
  | 0, _ => .error .outOfFuel
  | fuel + 1, size =>
    match calls.getcwd size with
    | .ok cwd => .ok cwd
    | .error code =>
      if code = .erange then getcwdLoop fuel (2 * size) else .error (.errno code)

def initialResolv (fuel : Nat) (path : PathString) : Except Fault (List Char × Nat) :=
  if IsAbsolute path then .ok ([terminator], 1)
  else
    (getcwdLoop calls fuel 128).map fun cwd =>
      (if cwd = ['/'] then [terminator] else cwd ++ [terminator], 0)

def finish (bufs : Buffers) : Except Fault PathString :=
  let resolv := if bufs.resolv.length = 1 then ['/', terminator] else bufs.resolv
  if resolv.length > pathMax then .error (.errno .enametoolong) else .ok (stringAt resolv)

def realpath (fuel : Nat) (path : PathString) : Except Fault PathString :=
  (initialResolv calls fuel path).bind fun (resolv, ps) =>
    (pathLoop calls fuel path (path.length + 1) ps ⟨resolv, [], 0⟩).bind finish

end Realpath

end Mlibc
