import Lwfs.Naming.Listing
import Lwfs.Naming.Parents

/-!
Links to directories.

`naming_create_link` takes any entry for its target, and the new entry names
the inode of that. A directory that is linked to has two entries then, with
the type and the container of one inode. But what stands in a directory is
found by the id of the entry that it was created under, and the two entries
have ids of their own.
-/

namespace Lwfs.Naming

open SysLib Routine

variable {Mac : Type} {db : NamingDb}

/-- `link` was made by `create_link` for the directory `target`, and both are
there. -/
structure LinkedDir (db : NamingDb) (target link : DbEntry) : Prop where
  target_mem : ∃ k, db.dirents.lookup k = some target.dirent
  target_inode : db.inodes.lookup target.dirent.inodeOid = some target.inode
  isDirectory : IsDirectory target.inode.entryObj.type
  link_mem : ∃ k, db.dirents.lookup k = some link.dirent
  link_eq : link.dirent.link = target.dirent.oid
  inodeOid_eq : link.dirent.inodeOid = target.dirent.inodeOid
  inode_eq : link.inode = target.inode
  oid_ne : link.dirent.oid ≠ target.dirent.oid

/-- The client's structure stands for the directory entry. -/
structure StandsFor (parent : NsEntry) (e : DbEntry) : Prop where
  direntOid : parent.direntOid = e.dirent.oid
  isDirectory : IsDirectory parent.entryObj.type

/-- The two entries list the same, and a lookup through the one returns what
it returns through the other. -/
def ListAlike (env : Env Mac) (parent parent' : NsEntry) (cap : Cap Mac)
    (db : NamingDb) : Prop :=
  (∃ entries, (namingListDir env parent cap).outcome db = .ok entries ∧
    (namingListDir env parent' cap).outcome db = .ok entries) ∧
  ∀ name, (namingLookup env parent name cap).outcome db =
    (namingLookup env parent' name cap).outcome db

section Access

variable {env : Env Mac} {parent : NsEntry} {cap : Cap Mac} {e : DbEntry}

theorem LinkedDir.getByOid_target {target link : DbEntry} (hwf : WellFormed db)
    (h : LinkedDir db target link) :
    namingDbGetByOid target.dirent.oid db = .ok target := by
  obtain ⟨k, hk⟩ := h.target_mem
  exact namingDbGetByOid_eq_ok.mpr ⟨⟨k, hwf.unique.find_eq hk⟩, h.target_inode⟩

theorem LinkedDir.getByOid_link {target link : DbEntry} (hwf : WellFormed db)
    (h : LinkedDir db target link) :
    namingDbGetByOid link.dirent.oid db = .ok link := by
  obtain ⟨k, hk⟩ := h.link_mem
  refine namingDbGetByOid_eq_ok.mpr ⟨⟨k, hwf.unique.find_eq hk⟩, ?_⟩
  rw [h.inodeOid_eq, h.inode_eq]
  exact h.target_inode

/-- A capability for the directory is one for the link. -/
theorem LinkedDir.checkPerm_link {target link : DbEntry} (hwf : WellFormed db)
    (h : LinkedDir db target link) {op : Opcode}
    (hperm : checkPerm env target.dirent.oid cap op db = .ok ()) :
    checkPerm env link.dirent.oid cap op db = .ok () := by
  obtain ⟨e, he, hgrants⟩ := checkPerm_eq_ok.mp hperm
  rw [h.getByOid_target hwf] at he
  cases he
  rw [← h.inode_eq] at hgrants
  exact checkPerm_eq_ok.mpr ⟨link, h.getByOid_link hwf, hgrants⟩

theorem StandsFor.readable (h : StandsFor parent e)
    (hperm : checkPerm env e.dirent.oid cap containerRead db = .ok ()) :
    Readable env parent cap db := by
  refine ⟨checkParent_eq_ok.mpr h.isDirectory, ?_⟩
  rw [h.direntOid]
  exact hperm

end Access

section Lists

variable {env : Env Mac} {parent : NsEntry} {cap : Cap Mac}

/-- What the listing of a directory does after its checks. -/
theorem namingListDir_outcome (h : Readable env parent cap db) :
    (namingListDir env parent cap).outcome db =
      if namingDbGetSize parent.direntOid db = 0 then .ok []
      else namingDbGetAllByParent parent.direntOid
        (namingDbGetSize parent.direntOid db) env.malloc db >>= fun dbEnts =>
          dbEnts.mapM fun entry => copyDbToNsEntry entry db := by
  exact (outcome_reader_bind_ok (f := fun _ => checkParent parent) h.dir).trans
    ((outcome_reader_bind_ok h.perm).trans (outcome_reader _ db))

/-- Where there are as many entries as are asked for, all that is fetched are
entries of the directory. -/
theorem mem_of_namingDbGetAllByParent {parentOid : Oid} {maxlen : ℕ}
    {malloc : ℕ → Dirent} {dbEnts : List DbEntry}
    (hlen : maxlen ≤ namingDbGetSize parentOid db)
    (h : namingDbGetAllByParent parentOid maxlen malloc db = .ok dbEnts)
    {e : DbEntry} (he : e ∈ dbEnts) :
    e.dirent ∈ db.dirents.filter Dirent.parentOid parentOid ∧
      db.inodes.lookup e.dirent.inodeOid = some e.inode := by
  rw [namingDbGetSize_eq] at hlen
  unfold namingDbGetAllByParent at h
  cases hget : db3Get parentOid maxlen db with
  | error f =>
      rw [hget] at h
      cases h
  | ok dirents =>
      rw [hget] at h
      obtain ⟨-, -, rfl⟩ := db3Get_eq_ok.mp hget
      obtain ⟨i, hi, hentry⟩ := except_mem_of_mapM h he
      obtain ⟨hd, hinode⟩ := entryOf_eq_ok.mp hentry
      have htake : i < ((db.dirents.filter Dirent.parentOid parentOid).take
          maxlen).length := by
        rw [List.length_take, Nat.min_eq_left hlen]
        exact List.mem_range.mp hi
      rw [List.getD_eq_getElem _ _ htake] at hd hinode
      rw [← hd] at hinode
      refine ⟨?_, hinode⟩
      rw [hd]
      exact List.mem_of_mem_take (List.getElem_mem htake)

theorem parentOid_of_copy {e : DbEntry} {entry : NsEntry}
    (h : copyDbToNsEntry e db = .ok entry) :
    entry.parentOid = e.dirent.parentOid := by
  unfold copyDbToNsEntry at h
  cases hobj : getFileObj db (db.dirents.entries.length + 2) e with
  | error f =>
      rw [hobj] at h
      cases h
  | ok fileObj =>
      rw [hobj] at h
      cases h
      rfl

/-- What is listed stands under the entry that it is listed through. -/
theorem parentOid_of_namingListDir (h : Readable env parent cap db)
    {entries : List NsEntry}
    (hlist : (namingListDir env parent cap).outcome db = .ok entries)
    {entry : NsEntry} (hentry : entry ∈ entries) :
    entry.parentOid = parent.direntOid := by
  rw [namingListDir_outcome h] at hlist
  split_ifs at hlist with hsize
  · cases hlist
    exact absurd hentry List.not_mem_nil
  · cases hfetch : namingDbGetAllByParent parent.direntOid
        (namingDbGetSize parent.direntOid db) env.malloc db with
    | error f =>
        rw [hfetch] at hlist
        cases hlist
    | ok dbEnts =>
        rw [hfetch] at hlist
        obtain ⟨e, he, hcopy⟩ := except_mem_of_mapM hlist hentry
        obtain ⟨hmem, -⟩ := mem_of_namingDbGetAllByParent le_rfl hfetch he
        obtain ⟨-, -, hparent⟩ := Table.mem_filter.mp hmem
        rw [parentOid_of_copy hcopy, hparent]

theorem namingListDir_of_empty (h : Readable env parent cap db)
    (hsize : namingDbGetSize parent.direntOid db = 0) :
    (namingListDir env parent cap).outcome db = .ok [] := by
  rw [namingListDir_outcome h, if_pos hsize]

theorem namingLookup_of_empty (hwf : WellFormed db)
    (h : Readable env parent cap db)
    (hsize : namingDbGetSize parent.direntOid db = 0) (name : Name) :
    (namingLookup env parent name cap).outcome db = .error (.code .errNoent) := by
  have hnone : db.dirents.lookup (db1Keygen parent.direntOid name) = none := by
    cases hd : db.dirents.lookup (db1Keygen parent.direntOid name) with
    | none => rfl
    | some d =>
        have hparent : d.parentOid = parent.direntOid :=
          (congrArg Db1Key.parentOid (hwf.key_eq _ _ hd)).symm
        exact absurd hparent (Table.count_eq_zero.mp hsize _ _ hd)
  have hget : namingDbGetByName parent.direntOid name db =
      .error (.code .errNoent) := by
    unfold namingDbGetByName db1Get
    rw [hnone]
    rfl
  exact (outcome_reader_bind_ok (f := fun _ => checkParent parent) h.dir).trans
    ((outcome_reader_bind_ok h.perm).trans (outcome_reader_bind_error hget))

/-- A listing has as many entries as there are in the directory. -/
theorem length_of_namingListDir (h : Readable env parent cap db)
    {entries : List NsEntry}
    (hlist : (namingListDir env parent cap).outcome db = .ok entries) :
    entries.length = namingDbGetSize parent.direntOid db := by
  rw [namingListDir_outcome h] at hlist
  split_ifs at hlist with hsize
  · cases hlist
    exact hsize.symm
  · cases hfetch : namingDbGetAllByParent parent.direntOid
        (namingDbGetSize parent.direntOid db) env.malloc db with
    | error f =>
        rw [hfetch] at hlist
        cases hlist
    | ok dbEnts =>
        rw [hfetch] at hlist
        rw [except_length_of_mapM hlist, length_namingDbGetAllByParent hfetch]

end Lists

/-- In every state that the server reaches, a link to a directory lists what
the directory lists, and finds what is found there, exactly if there is
nothing under either entry. -/
theorem listAlike_iff {oids : InitOids} (hoids : oids.Fresh) {s : Server}
    (hs : Reachable Mac oids s) {target link : DbEntry}
    (h : LinkedDir s.db target link) {env : Env Mac} {cap : Cap Mac}
    (hperm : checkPerm env target.dirent.oid cap containerRead s.db = .ok ())
    {parent parent' : NsEntry} (htarget : StandsFor parent target)
    (hlink : StandsFor parent' link) :
    ListAlike env parent parent' cap s.db ↔
      namingDbGetSize target.dirent.oid s.db = 0 ∧
        namingDbGetSize link.dirent.oid s.db = 0 := by
  have hwf := hs.wellFormed hoids
  have hread := htarget.readable hperm
  have hread' := hlink.readable (h.checkPerm_link hwf hperm)
  rw [← htarget.direntOid, ← hlink.direntOid]
  constructor
  · rintro ⟨⟨entries, hlist, hlist'⟩, -⟩
    rw [← length_of_namingListDir hread hlist,
      ← length_of_namingListDir hread' hlist', and_self,
      List.length_eq_zero_iff, List.eq_nil_iff_forall_not_mem]
    -- an entry of both stands under both
    intro entry hentry
    have hparent := parentOid_of_namingListDir hread hlist hentry
    have hparent' := parentOid_of_namingListDir hread' hlist' hentry
    rw [htarget.direntOid] at hparent
    rw [hlink.direntOid, hparent] at hparent'
    exact h.oid_ne hparent'.symm
  · rintro ⟨hsize, hsize'⟩
    refine ⟨⟨[], namingListDir_of_empty hread hsize,
      namingListDir_of_empty hread' hsize'⟩, fun name => ?_⟩
    rw [namingLookup_of_empty hwf hread hsize,
      namingLookup_of_empty hwf hread' hsize']

def dirName : Name := ['d']

def dirLinkName : Name := ['l']

/-- A directory is created in the root directory. -/
def createDirStep : Env Unit × Request Unit :=
  (countingEnv 0, .createDir rootDir dirName Obj.zero.cid readWriteCap)

/-- A link to that directory is made in the root directory. -/
def linkDirStep : Env Unit × Request Unit :=
  (countingEnv 1,
    .createLink rootDir dirLinkName readWriteCap rootDir dirName readWriteCap)

/-- The directory with its link. -/
def linkedTarget : DbEntry :=
  let e := newEntry (countingEnv 0) countingOids.root dirName dirEntry
    Obj.zero.cid none
  { e with inode := e.inode.withRefCnt 2 }

def linkedDir : DbEntry :=
  linkTo (countingEnv 1) countingOids.root dirLinkName linkedTarget

def linkedDirServer : Server :=
  Run.exec step (Server.init countingOids) [createDirStep, linkDirStep]

theorem linkedDirServer_linked :
    LinkedDir linkedDirServer.db linkedTarget linkedDir where
  target_mem := ⟨linkedTarget.dirent.key, rfl⟩
  target_inode := rfl
  isDirectory := .inl rfl
  link_mem := ⟨linkedDir.dirent.key, rfl⟩
  link_eq := rfl
  inodeOid_eq := rfl
  inode_eq := rfl
  oid_ne := by decide

theorem standsFor_nsEntry {e : DbEntry}
    (h : IsDirectory e.inode.entryObj.type) : StandsFor e.nsEntry e := ⟨rfl, h⟩

theorem listAlike_linkedDirServer :
    ListAlike (countingEnv 2) linkedTarget.nsEntry linkedDir.nsEntry
      readWriteCap linkedDirServer.db := by
  have hreach : Reachable Unit countingOids linkedDirServer :=
    ⟨[createDirStep, linkDirStep], ⟨by decide, by decide, trivial⟩, rfl⟩
  have hperm : checkPerm (countingEnv 2) linkedTarget.dirent.oid readWriteCap
      containerRead linkedDirServer.db = .ok () := rfl
  have hiff := listAlike_iff countingOids_fresh hreach linkedDirServer_linked
    hperm (standsFor_nsEntry (.inl rfl)) (standsFor_nsEntry (.inl rfl))
  exact hiff.mpr ⟨by decide, by decide⟩

/-- A file is created in the directory. -/
def createInDirStep : Env Unit × Request Unit :=
  (countingEnv 2,
    .createFile linkedTarget.nsEntry fileName Obj.zero readWriteCap)

/-- The file is in the directory, and not in the link to the directory. -/
theorem not_listAlike_createInDir :
    ¬ ListAlike (countingEnv 3) linkedTarget.nsEntry linkedDir.nsEntry
      readWriteCap (step linkedDirServer createInDirStep).db := by
  rintro ⟨⟨entries, hlist, hlist'⟩, -⟩
  have hnames : ((namingListDir (countingEnv 3) linkedTarget.nsEntry
      readWriteCap).outcome (step linkedDirServer createInDirStep).db).map
        (List.map NsEntry.name) = .ok [fileName] := rfl
  have hnames' : ((namingListDir (countingEnv 3) linkedDir.nsEntry
      readWriteCap).outcome (step linkedDirServer createInDirStep).db).map
        (List.map NsEntry.name) = .ok [] := rfl
  rw [hlist] at hnames
  rw [hlist'] at hnames'
  have hsame : [fileName] = [] :=
    (Except.ok.inj hnames).symm.trans (Except.ok.inj hnames')
  exact List.cons_ne_nil _ _ hsame

end Lwfs.Naming
