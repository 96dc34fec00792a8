import Lwfs.Storage.OpenFiles

/-!
The paths of the files that hold the objects.

The functions of the object interface and the scan at start-up print a path
into a buffer of 64 characters, and `open_oid` prints it into one of 256. The
root directory can be longer than either. `snprintf` cuts the path off and
returns the length that the whole path has, and the tests of that number for
zero and for `EOF` do not notice.
-/

namespace Lwfs.Storage

open SysLib

/-- `MAX_ROOT_LEN`. -/
def maxRootLen : ℕ := 256

/-- The string in `root` after `sysio_obj_init`. Where `strncpy` fills the
array there is no zero behind it, and the string goes on with the memory that
follows. -/
def rootString (rootDir behind : Path) : Path :=
  if rootDir.length < maxRootLen then rootDir
  else rootDir.take maxRootLen ++ behind

/-- The name of the file of an object in the root directory. -/
def objectName (oid : Oid) : Path := ['0', 'x'] ++ lwfsOidToString oid

/-- The path that `repopulate_oid_hashtable` prints for a directory entry. -/
def scanPath (root dName : Path) : Path :=
  (root ++ ['/'] ++ dName).take (shortPath - 1)

/-- The functions that print the path of an object, `open_oid` apart. -/
inductive PathUser
  | create
  | remove
  | read
  | write
  | repopulate
  deriving DecidableEq

/-- The path that a function prints. -/
def PathUser.path (root : Path) (oid : Oid) : PathUser → Path
  | .create => fileName shortPath root oid
  | .remove => fileName shortPath root oid
  | .read => fileName shortPath root oid
  | .write => fileName shortPath root oid
  | .repopulate => scanPath root (objectName oid)

/-- The path that `open_oid` prints. -/
def openPath (root : Path) (oid : Oid) : Path := fileName longPath root oid

/-- Every function prints the path of `open_oid`, and no two objects have the
same. -/
structure PathsAgree (root : Path) : Prop where
  same : ∀ user oid, PathUser.path root oid user = openPath root oid
  inj : ∀ oid oid', openPath root oid = openPath root oid' → oid = oid'

/-- The scan prints for the file of an object what the other functions print
for the object. -/
theorem scanPath_objectName (root : Path) (oid : Oid) :
    scanPath root (objectName oid) = fileName shortPath root oid := by
  simp [scanPath, objectName, fileName]

theorem path_eq (root : Path) (oid : Oid) (user : PathUser) :
    user.path root oid = fileName shortPath root oid := by
  cases user with
  | create | remove | read | write => rfl
  | repopulate => exact scanPath_objectName root oid

theorem length_fileName (size : ℕ) (root : Path) (oid : Oid) :
    (fileName size root oid).length = min (size - 1) (root.length + 35) := by
  simp [fileName]

theorem rootString_of_lt {rootDir : Path} (h : rootDir.length < maxRootLen)
    (behind : Path) : rootString rootDir behind = rootDir := if_pos h

/-- The root never gets shorter than the argument or the array. -/
theorem le_length_rootString (rootDir behind : Path) :
    min rootDir.length maxRootLen ≤ (rootString rootDir behind).length := by
  unfold rootString
  split_ifs with h
  · omega
  · simp only [List.length_append, List.length_take]
    omega

theorem untruncated_iff {root : Path} : Untruncated root ↔ root.length < 29 := by
  simp only [Untruncated, shortPath]
  omega

theorem Untruncated.pathsAgree {root : Path} (hroot : Untruncated root) :
    PathsAgree root where
  same user oid := by
    rw [path_eq, openPath, fileName_longPath hroot]
  inj oid oid' h := by
    rw [openPath, openPath, fileName_longPath hroot, fileName_longPath hroot] at h
    exact fileName_inj hroot h

/-- In the shorter buffer the path of no object fits. -/
theorem path_ne_openPath {root : Path} (hroot : ¬ Untruncated root) (oid : Oid)
    (user : PathUser) : user.path root oid ≠ openPath root oid := by
  intro h
  have hlen := congrArg List.length h
  rw [path_eq, openPath, length_fileName, length_fileName] at hlen
  simp only [Untruncated, shortPath] at hroot
  simp only [shortPath, longPath] at hlen
  omega

/-- The paths agree, and tell all objects apart, exactly for the root
directories of less than 29 characters. -/
theorem pathsAgree_iff (rootDir behind : Path) :
    PathsAgree (rootString rootDir behind) ↔ rootDir.length < 29 := by
  constructor
  · intro h
    have hfits : Untruncated (rootString rootDir behind) := by
      by_contra hlong
      exact path_ne_openPath hlong Oid.zero .create (h.same .create Oid.zero)
    have hlen := untruncated_iff.mp hfits
    have hle := le_length_rootString rootDir behind
    simp only [maxRootLen] at hle
    omega
  · intro h
    have hroot : rootString rootDir behind = rootDir :=
      rootString_of_lt (by simp only [maxRootLen]; omega) behind
    rw [hroot]
    exact (untruncated_iff.mpr h).pathsAgree

/-- With 29 characters `open_oid` looks for files that no other function
makes, and with 61 all objects are made at one path. -/
theorem long_roots_disagree :
    ¬ PathsAgree (rootString (List.replicate 29 'r') []) ∧
      ∀ oid, PathUser.path (rootString (List.replicate 61 'r') []) oid .create =
        List.replicate 61 'r' ++ ['/', '0'] := by
  constructor
  · intro h
    have hlong : ¬ Untruncated (rootString (List.replicate 29 'r') []) := by
      rw [untruncated_iff]
      decide
    exact path_ne_openPath hlong Oid.zero .create (h.same .create Oid.zero)
  · intro oid
    rw [rootString_of_lt (by decide), path_eq, fileName,
      List.take_append_of_le_length (by decide)]
    rfl

end Lwfs.Storage
