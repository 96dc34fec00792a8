import Lwfs.Lib.Image
import Lwfs.Lib.Index

/-!
The files of the host that the storage server runs on.

The system calls are functions of the files and of an outcome, with which the
host can make any of them fail, and can cut a transfer short. A call that the
files do not allow fails whatever the outcome.
-/

namespace Lwfs.Storage

open SysLib

/-- The name of a file. -/
abbrev Path := List Char

/-- How the host lets a system call end. -/
inductive Outcome
  /-- In full. -/
  | ok
  | fail
  /-- A transfer ends after `n` bytes. -/
  | short (n : ℕ)
  deriving DecidableEq, Repr

/-- How many of `len` bytes are transferred. -/
def Outcome.limit : Outcome → ℕ → ℕ
  | .short n, len => min n len
  | _, len => len

/-- A file that is open: its inode, and the position in it. -/
structure OpenFile where
  inode : ℕ
  pos : ℕ
  deriving DecidableEq

/-- The files of the host. Descriptors are C integers. -/
structure Files where
  names : Table Path ℕ
  contents : ℕ → List UInt8
  nextInode : ℕ
  fds : Table ℤ OpenFile

/-- How the host numbers the files that are opened: a new descriptor is not in
use, and it is not that of the standard input. -/
structure FdRule where
  newFd : Table ℤ OpenFile → ℤ
  newFd_pos : ∀ fds, 0 < newFd fds
  newFd_fresh : ∀ fds, newFd fds ∉ fds

/-- A host that numbers a file above all those that are open, and above the
standard streams. -/
def FdRule.above : FdRule where
  newFd fds := fds.keys.foldr max 2 + 1
  newFd_pos fds := by
    have hle : ∀ l : List ℤ, 2 ≤ l.foldr max 2 := by
      intro l
      induction l with
      | nil => exact Int.le_refl 2
      | cons fd l ih => exact Int.le_trans ih (Int.le_max_right _ _)
    have := hle fds.keys
    omega
  newFd_fresh fds := by
    have hle : ∀ (l : List ℤ) (fd : ℤ), fd ∈ l → fd ≤ l.foldr max 2 := by
      intro l fd hfd
      induction l with
      | nil => exact absurd hfd List.not_mem_nil
      | cons fd' l ih =>
          rcases List.mem_cons.mp hfd with rfl | hfd
          · exact Int.le_max_left _ _
          · exact Int.le_trans (ih hfd) (Int.le_max_right _ _)
    intro hmem
    have := hle fds.keys _ (AList.mem_keys.mp hmem)
    omega

namespace Files

def empty : Files := ⟨∅, fun _ => [], 0, ∅⟩

variable (rule : FdRule) (o : Outcome) (fs : Files)

/-- `access` with `F_OK`. -/
def sysAccess (path : Path) : Bool × Files :=
  (o ≠ .fail ∧ path ∈ fs.names, fs)

/-- `open` for reading and writing. -/
def sysOpen (path : Path) : ℤ × Files :=
  match fs.names.lookup path with
  | none => (-1, fs)
  | some inode =>
      if o = .fail then (-1, fs)
      else (rule.newFd fs.fds,
        { fs with fds := fs.fds.insert (rule.newFd fs.fds) ⟨inode, 0⟩ })

/-- `creat`, which empties a file that exists. -/
def sysCreat (path : Path) : ℤ × Files :=
  if o = .fail then (-1, fs)
  else match fs.names.lookup path with
  | some inode => (rule.newFd fs.fds,
      { fs with
        contents := Function.update fs.contents inode []
        fds := fs.fds.insert (rule.newFd fs.fds) ⟨inode, 0⟩ })
  | none => (rule.newFd fs.fds,
      { names := fs.names.insert path fs.nextInode
        contents := Function.update fs.contents fs.nextInode []
        nextInode := fs.nextInode + 1
        fds := fs.fds.insert (rule.newFd fs.fds) ⟨fs.nextInode, 0⟩ })

/-- `close`. -/
def sysClose (fd : ℤ) : Bool × Files :=
  if o ≠ .fail ∧ fd ∈ fs.fds then (true, { fs with fds := fs.fds.erase fd })
  else (false, fs)

/-- `lseek` with `SEEK_SET`. -/
def sysLseek (fd : ℤ) (pos : ℕ) : Bool × Files :=
  match fs.fds.lookup fd with
  | none => (false, fs)
  | some f =>
      if o = .fail then (false, fs)
      else (true, { fs with fds := fs.fds.insert fd { f with pos := pos } })

/-- `read`. -/
def sysRead (fd : ℤ) (len : ℕ) : Option (List UInt8) × Files :=
  match fs.fds.lookup fd with
  | none => (none, fs)
  | some f =>
      if o = .fail then (none, fs)
      else
        let data := Image.read (fs.contents f.inode) f.pos (o.limit len)
        (some data, { fs with
          fds := fs.fds.insert fd { f with pos := f.pos + data.length } })

/-- `write`. -/
def sysWrite (fd : ℤ) (src : List UInt8) : Option ℕ × Files :=
  match fs.fds.lookup fd with
  | none => (none, fs)
  | some f =>
      if o = .fail then (none, fs)
      else
        let data := src.take (o.limit src.length)
        (some data.length, { fs with
          contents := Function.update fs.contents f.inode
            (Image.write 0 (fs.contents f.inode) f.pos data)
          fds := fs.fds.insert fd { f with pos := f.pos + data.length } })

/-- `fsync`. -/
def sysFsync (fd : ℤ) : Bool × Files := (o ≠ .fail ∧ fd ∈ fs.fds, fs)

/-- The size that `fstat` reports. -/
def sysFstat (fd : ℤ) : Option ℕ × Files :=
  match fs.fds.lookup fd with
  | none => (none, fs)
  | some f =>
      if o = .fail then (none, fs)
      else (some (fs.contents f.inode).length, fs)

/-- `ftruncate`, which cuts a file or lengthens it with zeros. -/
def sysFtruncate (fd : ℤ) (size : ℕ) : Bool × Files :=
  match fs.fds.lookup fd with
  | none => (false, fs)
  | some f =>
      if o = .fail then (false, fs)
      else
        let old := (fs.contents f.inode).take size
        (true, { fs with
          contents := Function.update fs.contents f.inode
            (old ++ List.replicate (size - old.length) 0) })

/-- `remove`. The contents stay for those who have the file open. -/
def sysRemove (path : Path) : Bool × Files :=
  if o ≠ .fail ∧ path ∈ fs.names then
    (true, { fs with names := fs.names.erase path })
  else (false, fs)

end Files

end Lwfs.Storage
