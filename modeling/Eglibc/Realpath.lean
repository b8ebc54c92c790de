import Eglibc.FileWords

/-!
# Canonical file names

`__realpath` of `stdlib/canonicalize.c`. The result is built in `rpath`, which belongs to the
caller or is allocated; what is left of the name is read from the name itself or, behind a
symbolic link, from `extra_buf`. Pointers are positions in these buffers.
-/
namespace Eglibc.Realpath
open Checked FileWords

inductive Errno where
  | ENOENT
  | ENOTDIR
  | ELOOP
  | ENAMETOOLONG
  | ERANGE
  deriving DecidableEq, Repr

inductive FileType where
  | link
  | directory
  | other
  deriving DecidableEq, Repr

/-- The system calls; `readlink` gives the whole target of a link. -/
structure Kernel where
  getcwd : List UInt8
  lstat : List UInt8 → Except Errno FileType
  readlink : List UInt8 → Except Errno (List UInt8)

structure Limits where
  /-- `PATH_MAX` -/
  pathMax : ℕ
  /-- `__eloop_threshold ()` -/
  eloopThreshold : ℕ
  two_le : 2 ≤ pathMax

structure State where
  rpath : List UInt8
  dest : ℕ
  extraBuf : List UInt8
  /-- `end` points into `extra_buf` -/
  inExtra : Bool
  stop : ℕ
  numLinks : ℕ

def State.source (s : State) (name : List UInt8) : List UInt8 :=
  if s.inExtra then s.extraBuf else name

def fresh (junk : ℕ → UInt8) (n : ℕ) : List UInt8 := (List.range n).map junk

def scanBody (stop : UInt8 → Bool) (xs : List UInt8) (i : ℕ) : Run (ℕ ⊕ ℕ) := do
  let c ← load xs i
  if stop c then .ok (.inr i) else .ok (.inl (i + 1))

def scan (stop : UInt8 → Bool) (xs : List UInt8) (i : ℕ) : Run ℕ :=
  iterate (scanBody stop xs) (xs.length + 1) i

/-- `(--dest)[-1] != '/'` -/
def backBody (rpath : List UInt8) (dest : ℕ) : Run (ℕ ⊕ ℕ) :=
  if dest < 2 then .error (.read 0)
  else do
    let c ← load rpath (dest - 2)
    if c ≠ 47 then .ok (.inl (dest - 1)) else .ok (.inr (dest - 1))

def backUp (rpath : List UInt8) (dest : ℕ) : Run ℕ :=
  if dest > 1 then iterate (backBody rpath) (dest + 1) dest else .ok dest

/-- `dest[-1]` -/
def lastByte (rpath : List UInt8) (dest : ℕ) : Run UInt8 :=
  if dest = 0 then .error (.read 0) else load rpath (dest - 1)

abbrev Outcome (α : Type) := Except Errno α

def addSlash (rpath : List UInt8) (dest : ℕ) : Run (List UInt8 × ℕ) := do
  let c ← lastByte rpath dest
  if c ≠ 47 then do
    let rpath ← store rpath dest 47
    .ok (rpath, dest + 1)
  else .ok (rpath, dest)

section

variable (lim : Limits) (kernel : Kernel) (junk : ℕ → UInt8) (resolved : Bool)

/-- Room for a component of `len` bytes and the terminator. -/
def makeRoom (rpath : List UInt8) (dest len : ℕ) : Run (Outcome (List UInt8)) :=
  if dest + len ≥ rpath.length then
    if resolved then do
      let _ ← store rpath (if dest > 1 then dest - 1 else dest) 0
      .ok (.error .ENAMETOOLONG)
    else
      let newSize := rpath.length + if len + 1 > lim.pathMax then len + 1 else lim.pathMax
      .ok (.ok (rpath ++ fresh (fun i => junk (rpath.length + i)) (newSize - rpath.length)))
  else .ok (.ok rpath)

def linkBase (rpath : List UInt8) (dest : ℕ) (first : UInt8) : Run ℕ :=
  if first = 47 then .ok 1 else backUp rpath dest

/-- The target of the link at `path` is put in front of what is left of the name. -/
def followLink (name path : List UInt8) (s : State) : Run (State ⊕ Outcome (List UInt8)) :=
  if s.numLinks + 1 > lim.eloopThreshold then .ok (.inr (.error .ELOOP))
  else
    match kernel.readlink path with
    | .error e => .ok (.inr (.error e))
    | .ok target => do
      let n := min target.length (lim.pathMax - 1)
      let buf ← storeRange (fresh junk lim.pathMax) 0 (target.take n)
      let buf ← store buf n 0
      let src := s.source name
      let len := (← scan (· = 0) src s.stop) - s.stop
      if n + len ≥ lim.pathMax then .ok (.inr (.error .ENAMETOOLONG))
      else do
        let rest ← loadRange src s.stop (len + 1)
        let extraBuf ← storeRange s.extraBuf n rest
        let front ← loadRange buf 0 n
        let extraBuf ← storeRange extraBuf 0 front
        let first ← load buf 0
        let dest ← linkBase s.rpath s.dest first
        .ok (.inl { s with
          dest := dest
          extraBuf := extraBuf
          inExtra := true
          stop := 0
          numLinks := s.numLinks + 1 })

def visit (name : List UInt8) (s : State) : Run (State ⊕ Outcome (List UInt8)) := do
  let path ← text s.rpath 0
  match kernel.lstat path with
  | .error e => .ok (.inr (.error e))
  | .ok .link => followLink lim kernel junk name path s
  | .ok .directory => .ok (.inl s)
  | .ok .other => do
    let c ← load (s.source name) s.stop
    if c ≠ 0 then .ok (.inr (.error .ENOTDIR)) else .ok (.inl s)

def enter (name : List UInt8) (start stop : ℕ) (s : State) :
    Run (State ⊕ Outcome (List UInt8)) := do
  let (rpath, dest) ← addSlash s.rpath s.dest
  match ← makeRoom lim junk resolved rpath dest (stop - start) with
  | .error e => .ok (.inr (.error e))
  | .ok rpath => do
    let part ← loadRange (s.source name) start (stop - start)
    let rpath ← storeRange rpath dest part
    let dest := dest + (stop - start)
    let rpath ← store rpath dest 0
    visit lim kernel junk name { s with rpath := rpath, dest := dest, stop := stop }

/-- `dest` without a trailing separator. -/
def trimSlash (rpath : List UInt8) (dest : ℕ) : Run ℕ :=
  if dest > 1 then do
    let c ← lastByte rpath dest
    .ok (if c = 47 then dest - 1 else dest)
  else .ok dest

def finish (s : State) : Run (State ⊕ Outcome (List UInt8)) := do
  let dest ← trimSlash s.rpath s.dest
  let rpath ← store s.rpath dest 0
  .ok (.inr (.ok rpath))

def component (name : List UInt8) (s : State) : Run (State ⊕ Outcome (List UInt8)) := do
  let src := s.source name
  let c ← load src s.stop
  if c = 0 then finish s
  else do
    let start ← scan (· ≠ 47) src s.stop
    let stop ← scan (fun c => c = 0 ∨ c = 47) src start
    let part ← loadRange src start (stop - start)
    if part = [] then finish s
    else if part = [46] then .ok (.inl { s with stop := stop })
    else if part = [46, 46] then do
      let dest ← backUp s.rpath s.dest
      .ok (.inl { s with dest := dest, stop := stop })
    else enter lim kernel junk resolved name start stop s

def initial (name : List UInt8) : Run (Outcome (List UInt8 × ℕ)) := do
  let rpath := fresh junk lim.pathMax
  let c ← load name 0
  if c ≠ 47 then
    if kernel.getcwd.length + 1 ≤ lim.pathMax then do
      let rpath ← storeRange rpath 0 (kernel.getcwd ++ [0])
      let dest ← scan (· = 0) rpath 0
      .ok (.ok (rpath, dest))
    else do
      let _ ← store rpath 0 0
      .ok (.error .ERANGE)
  else do
    let rpath ← store rpath 0 47
    .ok (.ok (rpath, 1))

/-- `__realpath`: the buffer with the result. With `resolved` it belongs to the caller; its
bytes are `junk` at first. Allocations do not fail. -/
def realpath (name : List UInt8) : Run (Outcome (List UInt8)) := do
  let c ← load name 0
  if c = 0 then .ok (.error .ENOENT)
  else
    match ← initial lim kernel junk name with
    | .error e => .ok (.error e)
    | .ok (rpath, dest) =>
      iterate (component lim kernel junk resolved name)
        (lim.eloopThreshold * lim.pathMax + name.length + 1)
        ⟨rpath, dest, fresh junk lim.pathMax, false, 0, 0⟩

end

/-! ## Resolution of names -/

inductive Node where
  | directory (entries : List (List UInt8 × Node))
  | file
  | link (target : List UInt8)

namespace Node

def type : Node → FileType
  | directory _ => .directory
  | file => .other
  | link _ => .link

def child (c : List UInt8) : Node → Option Node
  | directory entries => (entries.find? fun e => e.1 = c).map Prod.snd
  | _ => none

def locate : Node → List (List UInt8) → Option Node
  | n, [] => some n
  | n, c :: p => (n.child c).bind fun m => m.locate p

end Node

def firstName (rest : List UInt8) : List UInt8 :=
  (rest.dropWhile (· = 47)).takeWhile (· ≠ 47)

def afterFirst (rest : List UInt8) : List UInt8 :=
  (rest.dropWhile (· = 47)).dropWhile (· ≠ 47)

def render (p : List (List UInt8)) : List UInt8 :=
  if p = [] then [47] else p.flatMap fun c => 47 :: c

structure Walk where
  place : List (List UInt8)
  links : ℕ
  rest : List UInt8

section

variable (lim : Limits) (root : Node) (resolved : Bool) (readable : List UInt8 → List UInt8)

def Walk.follow (w : Walk) (target : List UInt8) : Walk ⊕ Outcome (List (List UInt8)) :=
  if lim.eloopThreshold < w.links + 1 then .inr (.error .ELOOP)
  else if lim.pathMax ≤ (readable target).length + (afterFirst w.rest).length then
    .inr (.error .ENAMETOOLONG)
  else .inl
    { place := if (readable target).head? = some 47 then [] else w.place
      links := w.links + 1
      rest := readable target ++ afterFirst w.rest }

/-- One component; `readable` is what can be read of the target of a link. -/
def Walk.step (w : Walk) : Walk ⊕ Outcome (List (List UInt8)) :=
  let c := firstName w.rest
  let rest := afterFirst w.rest
  if c = [] then .inr (.ok w.place)
  else if c = [46] then .inl { w with rest := rest }
  else if c = [46, 46] then .inl { w with place := w.place.dropLast, rest := rest }
  else if resolved ∧ lim.pathMax ≤ (render (w.place ++ [c])).length then
    .inr (.error .ENAMETOOLONG)
  else
    match root.locate (w.place ++ [c]) with
    | none => .inr (.error .ENOENT)
    | some (.directory _) => .inl { w with place := w.place ++ [c], rest := rest }
    | some .file =>
      if rest = [] then .inl { w with place := w.place ++ [c], rest := rest }
      else .inr (.error .ENOTDIR)
    | some (.link target) => w.follow lim readable target

inductive Resolves : Walk → Outcome (List (List UInt8)) → Prop
  | halt {w o} : w.step lim root resolved readable = .inr o → Resolves w o
  | go {w w' o} : w.step lim root resolved readable = .inl w' → Resolves w' o → Resolves w o

def Resolution (cwd : List (List UInt8)) (name : List UInt8) (o : Outcome (List (List UInt8))) :
    Prop :=
  if name.head? = some 47 then Resolves lim root resolved readable ⟨[], 0, name⟩ o
  else if lim.pathMax ≤ (render cwd).length then o = .error .ERANGE
  else Resolves lim root resolved readable ⟨cwd, 0, name⟩ o

end

end Eglibc.Realpath
