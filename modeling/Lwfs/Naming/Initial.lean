import Lwfs.Lib.Bytes
import Lwfs.Naming.Change

/-!
The database that the initialisation makes.

It holds three entries, each with an inode whose count was never set and is
zero: the entry named after the latest generated id, with the id zero, and
the directories `/` and `orphans`.
-/

namespace Lwfs.Naming

open SysLib Routine

/-- The ids that the initialisation generates are fresh. -/
structure InitOids.Fresh (oids : InitOids) : Prop where
  root : oids.root ≠ Oid.zero
  orphan : oids.orphan ≠ Oid.zero
  root_orphan : oids.root ≠ oids.orphan
  rootInode : oids.rootInode ≠ Oid.zero
  orphanInode : oids.orphanInode ≠ Oid.zero
  rootInode_orphanInode : oids.rootInode ≠ oids.orphanInode

/-- The inodes that the initialisation inserts. -/
def InitOids.inodes (oids : InitOids) : List Oid :=
  [Oid.zero, oids.rootInode, oids.orphanInode]

/-- The database with an entry and its inode. -/
def NamingDb.addEntry (db : NamingDb) (e : DbEntry) : NamingDb :=
  (db.addDirent e.dirent).putInode e.inode

def initialDb (oids : InitOids) : NamingDb :=
  ((NamingDb.empty.addEntry idEntry).addEntry (rootEntry oids)).addEntry
    (orphanEntry oids)

variable {db : NamingDb} {oids : InitOids}

/-- What `naming_db_init` checks is so. -/
theorem sanityCheck_apply (hwf : WellFormed db) {e : DbEntry}
    (hd : db.dirents.lookup e.dirent.key = some e.dirent)
    (hi : db.inodes.lookup e.dirent.inodeOid = some e.inode) :
    sanityCheck e db = .ok () db := by
  have hname : namingDbGetByName e.dirent.parentOid e.dirent.name db = .ok e :=
    namingDbGetByName_eq_ok.mpr ⟨hd, hi⟩
  have hoid : namingDbGetByOid e.dirent.oid db = .ok e :=
    namingDbGetByOid_eq_ok.mpr ⟨⟨_, hwf.unique.find_eq hd⟩, hi⟩
  exact (bind_of_ok (reader_eq_ok.mpr ⟨hname, rfl⟩)).trans
    (bind_of_ok (reader_eq_ok.mpr ⟨hoid, rfl⟩))

theorem sanityCheck_addEntry {e : DbEntry} (hwf : WellFormed (db.addEntry e))
    (hoid : e.inode.entryObj.oid = e.dirent.inodeOid) :
    sanityCheck e (db.addEntry e) = .ok () (db.addEntry e) := by
  refine sanityCheck_apply hwf (AList.lookup_insert _) ?_
  rw [← hoid]
  exact AList.lookup_insert _

theorem lookup_addEntry {e : DbEntry} {k : Db1Key} {d : Dirent}
    (h : (db.addEntry e).dirents.lookup k = some d) :
    (k = e.dirent.key ∧ d = e.dirent) ∨ db.dirents.lookup k = some d :=
  lookup_addDirent h

theorem lookup_initialDb {k : Db1Key} {d : Dirent}
    (h : (initialDb oids).dirents.lookup k = some d) :
    d = idEntry.dirent ∨ d = (rootEntry oids).dirent ∨
      d = (orphanEntry oids).dirent := by
  rcases lookup_addEntry h with ⟨-, rfl⟩ | h
  · exact .inr (.inr rfl)
  rcases lookup_addEntry h with ⟨-, rfl⟩ | h
  · exact .inr (.inl rfl)
  rcases lookup_addEntry h with ⟨-, rfl⟩ | h
  · exact .inl rfl
  · cases h

theorem lookup_inodes_addEntry {e : DbEntry} {o : Oid} {i : Inode}
    (h : (db.addEntry e).inodes.lookup o = some i) :
    i = e.inode ∨ db.inodes.lookup o = some i := by
  by_cases ho : o = e.inode.entryObj.oid
  · subst ho
    have hself : (db.addEntry e).inodes.lookup e.inode.entryObj.oid =
        some e.inode := AList.lookup_insert _
    exact .inl (Option.some.inj (h.symm.trans hself))
  · have hne : (db.addEntry e).inodes.lookup o = db.inodes.lookup o :=
      AList.lookup_insert_ne ho
    exact .inr (hne ▸ h)

/-- No initial inode has a count. -/
theorem refCnt_initialDb {o : Oid} {i : Inode}
    (h : (initialDb oids).inodes.lookup o = some i) : i.refCnt = 0 := by
  rcases lookup_inodes_addEntry h with rfl | h
  · rfl
  rcases lookup_inodes_addEntry h with rfl | h
  · rfl
  rcases lookup_inodes_addEntry h with rfl | h
  · rfl
  · cases h

/-- Every initial inode is named by an entry. -/
theorem exists_lookup_initialDb {o : Oid} (ho : o ∈ oids.inodes) :
    ∃ k d, (initialDb oids).dirents.lookup k = some d ∧ d.inodeOid = o := by
  simp only [InitOids.inodes, List.mem_cons, List.not_mem_nil, or_false] at ho
  rcases ho with rfl | rfl | rfl
  · exact ⟨idEntry.dirent.key, _, rfl, rfl⟩
  · exact ⟨(rootEntry oids).dirent.key, _, rfl, rfl⟩
  · exact ⟨(orphanEntry oids).dirent.key, _, rfl, rfl⟩

section Initial

variable (h : oids.Fresh)

theorem wellFormed_idDb : WellFormed (NamingDb.empty.addEntry idEntry) :=
  (wellFormed_empty.addDirent (by decide) nofun fun _ => rfl).putInode _

include h

theorem wellFormed_rootDb :
    WellFormed ((NamingDb.empty.addEntry idEntry).addEntry (rootEntry oids)) := by
  refine (wellFormed_idDb.addDirent ?_ ?_ fun hz => absurd hz h.root).putInode _
  · exact AList.lookup_eq_none.mp rfl
  · intro k d hd
    rcases lookup_addEntry hd with ⟨-, rfl⟩ | hd
    · exact h.root.symm
    · cases hd

theorem wellFormed_initialDb : WellFormed (initialDb oids) := by
  refine ((wellFormed_rootDb h).addDirent ?_ ?_
    fun hz => absurd hz h.orphan).putInode _
  · exact AList.lookup_eq_none.mp rfl
  · intro k d hd
    rcases lookup_addEntry hd with ⟨-, rfl⟩ | hd
    · exact h.root_orphan
    rcases lookup_addEntry hd with ⟨-, rfl⟩ | hd
    · exact h.orphan.symm
    · cases hd

/-- `naming_db_init` on a cleared file succeeds with the initial database. -/
theorem namingDbInit_apply :
    namingDbInit oids NamingDb.empty = .ok () (initialDb oids) := by
  have hid : namingDbPut idEntry true NamingDb.empty =
      .ok () (NamingDb.empty.addEntry idEntry) :=
    namingDbPut_of_new (by decide) rfl rfl
  have hroot : namingDbPut (rootEntry oids) true
      (NamingDb.empty.addEntry idEntry) =
      .ok () ((NamingDb.empty.addEntry idEntry).addEntry (rootEntry oids)) := by
    refine namingDbPut_of_new (AList.lookup_eq_none.mp rfl) rfl ?_
    exact AList.lookup_insert_ne h.rootInode
  have horphan : namingDbPut (orphanEntry oids) true
      ((NamingDb.empty.addEntry idEntry).addEntry (rootEntry oids)) =
      .ok () (initialDb oids) := by
    refine namingDbPut_of_new (AList.lookup_eq_none.mp rfl) rfl ?_
    exact (AList.lookup_insert_ne h.rootInode_orphanInode.symm).trans
      (AList.lookup_insert_ne h.orphanInode)
  exact (bind_of_ok hid).trans
    ((bind_of_ok (sanityCheck_addEntry wellFormed_idDb rfl)).trans
      ((bind_of_ok hroot).trans
        ((bind_of_ok (sanityCheck_addEntry (wellFormed_rootDb h) rfl)).trans
          horphan)))

theorem init_db : (Server.init oids).db = initialDb oids :=
  final_of_ok (namingDbInit_apply h)

end Initial

/-- The server comes to the state `s` from a cleared database, with fresh ids
throughout. -/
def Reachable (Mac : Type) (oids : InitOids) (s : Server) : Prop :=
  ∃ run : List (Env Mac × Request Mac),
    Run.Along step FreshStep (Server.init oids) run ∧
      Run.exec step (Server.init oids) run = s

theorem Reachable.wellFormed {Mac : Type} {s : Server} (hoids : oids.Fresh)
    (h : Reachable Mac oids s) : WellFormed s.db := by
  obtain ⟨run, hfresh, rfl⟩ := h
  have hinit : WellFormed (Server.init oids).db := by
    rw [init_db hoids]
    exact wellFormed_initialDb hoids
  have hstep : ∀ (s : Server) (r : Env Mac × Request Mac), WellFormed s.db →
      FreshStep s r → WellFormed (step s r).db := fun _ _ => wellFormed_step
  exact Run.exec_invariant hstep hinit hfresh

/-! ### Requests with generated ids that count upwards -/

def oidOf (n : ℕ) : Oid := ⟨Bytes.ofNat uuidSize n, Bytes.length_ofNat _ _⟩

def countingOids : InitOids := ⟨oidOf 1, oidOf 2, oidOf 3, oidOf 4⟩

/-- A capability for reading and writing. -/
def readWriteCap : Cap Unit :=
  ⟨⟨0, containerRead ||| containerWrite, Octets.fill uuidSize 0, Octets.fill 20 0⟩, ()⟩

/-- The environment of the request with number `n`. The authorization service
accepts one capability. -/
def countingEnv (n : ℕ) : Env Unit where
  namingSvc := Service.zero
  direntOid := oidOf (10 + 2 * n)
  inodeOid := oidOf (11 + 2 * n)
  time := 0
  verifyCaps cap := if cap = readWriteCap then none else some .errVerifycap
  malloc _ := idEntry.dirent

/-- The root directory as a client gets it. -/
def rootDir : NsEntry where
  name := rootName
  direntOid := countingOids.root
  inodeOid := countingOids.rootInode
  parentOid := Oid.zero
  linkCnt := 0
  entryObj := (rootEntry countingOids).inode.entryObj
  fileObj := none

def fileName : Name := ['f']

/-- A file is created in the root directory. -/
def createFileStep : Env Unit × Request Unit :=
  (countingEnv 0, .createFile rootDir fileName Obj.zero readWriteCap)

/-- A link to that file is made in the root directory. -/
def createLinkStep (n : ℕ) (name : Name) : Env Unit × Request Unit :=
  (countingEnv n,
    .createLink rootDir name readWriteCap rootDir fileName readWriteCap)

def unlinkStep (n : ℕ) (name : Name) : Env Unit × Request Unit :=
  (countingEnv n, .unlink rootDir name readWriteCap)

theorem countingOids_fresh : countingOids.Fresh := by
  refine ⟨?_, ?_, ?_, ?_, ?_, ?_⟩ <;> decide

end Lwfs.Naming
