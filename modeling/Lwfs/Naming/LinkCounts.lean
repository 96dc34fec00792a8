import Lwfs.Naming.Listing
import Lwfs.Naming.RefCount

/-!
The link counts that clients see.

A client decides on the count in a returned entry whether to delete the
storage objects of a file. An entry carries the count of an inode as it was in
memory: `naming_create_link` fills its result from a copy that it took before
the count was incremented, `naming_unlink` and `naming_remove_dir` from the one
that they decremented. The count itself lacks the entries of the initial
directories, and it is a 32-bit integer.
-/

namespace Lwfs.Naming

open SysLib Routine

variable {Mac : Type} {oids : InitOids} {db : NamingDb} {o : Oid}

/-! ### What the stored counts leave out -/

/-- The count of each inode is the number of entries that name it without
those that were never counted, as a 32-bit integer. Entries were never counted
exactly for the inodes that the initialisation made. -/
def Tallied (oids : InitOids) (db : NamingDb) : Prop :=
  ∀ o i, db.inodes.lookup o = some i → ∃ counted missing : ℕ,
    db.links o = counted + missing ∧ i.refCnt = Int32.ofNat counted ∧
      (0 < missing ↔ o ∈ oids.inodes)

/-- A 32-bit count agrees with a number that is not smaller exactly if it is
that number, and fits. -/
theorem toInt_ofNat_eq_iff {counted missing : ℕ} :
    (Int32.ofNat counted).toInt = (counted + missing : ℕ) ↔
      missing = 0 ∧ counted < 2 ^ 31 := by
  rw [Int32.toInt_ofNat']
  constructor
  · intro h
    have hlt : Int.bmod (counted : ℤ) Int32.size < 2 ^ 31 := Int.bmod_lt (by decide)
    have hdvd : (Int32.size : ℤ) ∣ Int.bmod (counted : ℤ) Int32.size - counted :=
      Int.dvd_bmod_sub_self
    rw [h] at hlt hdvd
    have hmissing : (Int32.size : ℤ) ∣ (missing : ℤ) := by
      have hsub : ((counted + missing : ℕ) : ℤ) - counted = missing := by omega
      rwa [hsub] at hdvd
    obtain ⟨k, hk⟩ := hmissing
    have hsize : (Int32.size : ℤ) = 2 ^ 32 := rfl
    rw [hsize] at hk
    omega
  · rintro ⟨rfl, hlt⟩
    have hsize : Int32.size = 2 ^ 32 := rfl
    rw [hsize]
    exact Int.bmod_eq_of_le (by omega) (by omega)

theorem ofNat_succ (n : ℕ) : Int32.ofNat (n + 1) = Int32.ofNat n + 1 :=
  Int32.ofNat_add n 1

/-- A count from which one is taken without an abort was not zero. -/
theorem exists_succ_of_sub_one {counted : ℕ}
    (h : ¬ Int32.ofNat counted - 1 < 0) :
    ∃ n, counted = n + 1 ∧ Int32.ofNat counted - 1 = Int32.ofNat n := by
  cases counted with
  | zero => exact absurd (by decide) h
  | succ n =>
      refine ⟨n, rfl, ?_⟩
      rw [ofNat_succ, Int32.add_sub_cancel]

theorem not_neg_of_pos {n : Int32} (h : 0 < n) : ¬ n < 0 :=
  fun hneg => Int32.lt_irrefl (Int32.lt_trans h hneg)

theorem Change.tallied {db' : NamingDb} (h : Change db false db')
    (hwf : WellFormed db) (ht : Tallied oids db)
    (hnew : ∀ o, db.inodes.lookup o = none → db'.inodes.lookup o ≠ none →
      o ∉ oids.inodes) : Tallied oids db' := by
  cases h with
  | same => exact ht
  | created d i hd hlinks hnone hoid hcnt =>
      intro o i' hi'
      rw [links_putInode, links_addDirent hd.key]
      -- the new inode starts with one counted name, and its number is none of the
      -- initialisation
      by_cases hdo : d.inodeOid = o
      · subst hdo
        have hself : ((db.addDirent d).putInode i).inodes.lookup d.inodeOid =
            some i := lookup_putInode_self hoid
        obtain rfl : i = i' := Option.some.inj (hself.symm.trans hi')
        have hzero : db.links d.inodeOid = 0 := Table.count_eq_zero.mpr hlinks
        have hnot := hnew _ hnone (by rw [hself]; exact Option.some_ne_none i)
        refine ⟨1, 0, by rw [hzero, if_pos rfl], hcnt, ?_⟩
        exact iff_of_false (Nat.lt_irrefl 0) hnot
      · rw [lookup_putInode_ne (hoid ▸ hdo)] at hi'
        rw [if_neg hdo]
        exact ht o i' hi'
  | linked d i hd hi =>
      have hoid := hwf.inode_oid _ _ hi
      intro o i' hi'
      rw [links_putInode, links_addDirent hd.key]
      by_cases hdo : d.inodeOid = o
      · subst hdo
        obtain ⟨counted, missing, hlinks, hcnt, hmissing⟩ := ht _ i hi
        have hself : ((db.addDirent d).putInode
            (i.withRefCnt (i.refCnt + 1))).inodes.lookup d.inodeOid =
            some (i.withRefCnt (i.refCnt + 1)) := lookup_putInode_self hoid
        obtain rfl := Option.some.inj (hself.symm.trans hi')
        refine ⟨counted + 1, missing, ?_, ?_, hmissing⟩
        · rw [if_pos rfl]
          omega
        · rw [withRefCnt_refCnt, hcnt, ofNat_succ]
      · rw [lookup_putInode_ne (by rw [withRefCnt_oid, hoid]; exact hdo)] at hi'
        rw [if_neg hdo]
        exact ht o i' hi'
  -- the name of an inode whose number is zero is never counted, so it is missing
  | uncounted d i hd hzero hi =>
      intro o i' hi'
      obtain ⟨counted, missing, hlinks, hcnt, hmissing⟩ := ht o i' hi'
      rw [links_addDirent hd.key]
      by_cases hdo : d.inodeOid = o
      · have ho : o ∈ oids.inodes := by
          rw [← hdo, hzero]
          exact List.mem_cons_self
        refine ⟨counted, missing + 1, ?_, hcnt, iff_of_true (Nat.succ_pos _) ho⟩
        rw [if_pos hdo]
        omega
      · rw [if_neg hdo]
        exact ⟨counted, missing, hlinks, hcnt, hmissing⟩
  | removed d i hd hi hcnt =>
      have hoid := hwf.inode_oid _ _ hi
      intro o i' hi'
      have hlinks := links_delDirent (o := o) hd
      rw [links_putInode]
      by_cases hdo : d.inodeOid = o
      · subst hdo
        obtain ⟨counted, missing, hsum, heq, hmissing⟩ := ht _ i hi
        have hself : ((db.delDirent d).putInode
            (i.withRefCnt (i.refCnt - 1))).inodes.lookup d.inodeOid =
            some (i.withRefCnt (i.refCnt - 1)) := lookup_putInode_self hoid
        obtain rfl := Option.some.inj (hself.symm.trans hi')
        rw [heq] at hcnt
        -- the count is at least one, else the decrement would not have been stored
        obtain ⟨n, rfl, hn⟩ := exists_succ_of_sub_one (not_neg_of_pos hcnt)
        rw [if_pos rfl] at hlinks
        refine ⟨n, missing, by omega, ?_, hmissing⟩
        rw [withRefCnt_refCnt, heq, hn]
      · rw [if_neg hdo, Nat.add_zero] at hlinks
        rw [lookup_putInode_ne (by rw [withRefCnt_oid, hoid]; exact hdo)] at hi'
        rw [hlinks]
        exact ht o i' hi'
  | removedLast d i hd hi hcnt =>
      intro o i' hi'
      have hlinks := links_delDirent (o := o) hd
      rw [links_delInode]
      by_cases hdo : d.inodeOid = o
      · subst hdo
        rw [lookup_delInode_self] at hi'
        cases hi'
      · rw [if_neg hdo, Nat.add_zero] at hlinks
        rw [lookup_delInode_ne hdo] at hi'
        rw [hlinks]
        exact ht o i' hi'

/-! ### Inodes that a request makes -/

theorem lookup_putInode_some {i : Inode}
    (hi : db.inodes.lookup i.entryObj.oid ≠ none)
    (h : db.inodes.lookup o = none) : (db.putInode i).inodes.lookup o = none := by
  refine (lookup_putInode_ne ?_).trans h
  rintro rfl
  exact hi h

/-- A request makes no inode but one with the generated id. -/
theorem lookup_of_puts {env : Env Mac} (hwf : WellFormed db)
    (hfresh : Fresh env db) {r : Request Mac} {entry : DbEntry}
    (h : puts env db r = some entry) (ho : db.inodes.lookup o = none)
    (hne : o ≠ env.inodeOid) :
    ((namingDbPut entry true).final db).inodes.lookup o = none := by
  by_cases hkey : entry.dirent.key ∈ db.dirents
  · rw [final_of_error (namingDbPut_of_mem hkey)]
    exact ho
  rcases puts_cases h with
    ⟨parentOid, name, type, cid, fileObj, rfl⟩ |
    ⟨parentOid, name, k, target, hd, hi, rfl⟩
  · rw [final_of_ok (namingDbPut_newEntry hfresh hkey)]
    exact (lookup_putInode_ne hne.symm).trans ho
  · by_cases hzero : target.dirent.oid = Oid.zero
    · rw [final_of_error (namingDbPut_linkTo_zero hwf hzero hi hkey)]
      exact ho
    · rw [final_of_ok (namingDbPut_linkTo hwf hzero hi hkey)]
      refine lookup_putInode_some ?_ ho
      show db.inodes.lookup target.inode.entryObj.oid ≠ none
      rw [hwf.inode_oid _ _ hi, hi]
      exact Option.some_ne_none _

theorem lookup_of_deletes (hwf : WellFormed db) (parentOid : Oid) (name : Name)
    (ho : db.inodes.lookup o = none) :
    ((namingDbDel parentOid name).final db).inodes.lookup o = none := by
  cases hget : namingDbGetByName parentOid name db with
  | error e =>
      rw [final_of_error (namingDbDel_of_error hget)]
      exact ho
  | ok e =>
      obtain ⟨-, hi⟩ := namingDbGetByName_eq_ok.mp hget
      rcases refCnt_trichotomy (e.inode.refCnt - 1) with hcnt | hcnt | hcnt
      · rw [final_of_ok (namingDbDel_last hwf hget hcnt)]
        have hne : o ≠ e.dirent.inodeOid := by
          rintro rfl
          rw [ho] at hi
          cases hi
        exact (lookup_delInode_ne hne.symm).trans ho
      · rw [final_of_ok (namingDbDel_more hwf hget hcnt)]
        refine lookup_putInode_some ?_ ho
        show db.inodes.lookup e.inode.entryObj.oid ≠ none
        rw [hwf.inode_oid _ _ hi, hi]
        exact Option.some_ne_none _
      · rw [final_of_error (namingDbDel_negative hwf hget hcnt)]
        exact ho

theorem lookup_of_handle {env : Env Mac} (hwf : WellFormed db)
    (hfresh : Fresh env db) (r : Request Mac) (ho : db.inodes.lookup o = none)
    (hne : o ≠ env.inodeOid) :
    ((handle env r).final db).inodes.lookup o = none := by
  cases hput : puts env db r with
  | some entry =>
      rw [(handle_acts_put env hput).final_eq]
      exact lookup_of_puts hwf hfresh hput ho hne
  | none =>
      cases hdel : deletes env db r with
      | some place =>
          rw [(handle_acts_del env hdel).final_eq]
          exact lookup_of_deletes hwf place.1 place.2 ho
      | none =>
          rw [(handle_acts_none env hput hdel).final_eq]
          exact ho

/-! ### Whole runs -/

/-- The ids that a request generates are fresh, and the initialisation did not
generate them either. -/
def NewStep (oids : InitOids) (s : Server) (r : Env Mac × Request Mac) : Prop :=
  FreshStep s r ∧ r.1.inodeOid ∉ oids.inodes

instance (oids : InitOids) (s : Server) (r : Env Mac × Request Mac) :
    Decidable (NewStep oids s r) :=
  inferInstanceAs (Decidable (FreshStep s r ∧ r.1.inodeOid ∉ oids.inodes))

/-- The server comes to the state `s` from a cleared database, and generates
no id twice. -/
def ReachableAnew (Mac : Type) (oids : InitOids) (s : Server) : Prop :=
  ∃ run : List (Env Mac × Request Mac),
    Run.Along step (NewStep oids) (Server.init oids) run ∧
      Run.exec step (Server.init oids) run = s

theorem ReachableAnew.reachable {s : Server} (h : ReachableAnew Mac oids s) :
    Reachable Mac oids s := by
  obtain ⟨run, hnew, hs⟩ := h
  exact ⟨run, Run.along_mono (fun _ _ h => h.1) hnew, hs⟩

theorem tallied_initialDb : Tallied oids (initialDb oids) := by
  intro o i hi
  have ho : o ∈ oids.inodes := by
    by_contra hnot
    rw [lookup_inodes_initialDb hnot] at hi
    cases hi
  refine ⟨0, (initialDb oids).links o, (Nat.zero_add _).symm, refCnt_initialDb hi, ?_⟩
  exact iff_of_true (links_pos_iff.mpr (exists_lookup_initialDb ho)) ho

/-- The invariant of the counts while the server runs. -/
structure CountsTold (oids : InitOids) (s : Server) : Prop where
  wf : WellFormed s.db
  tallied : s.up = true → Tallied oids s.db

theorem countsTold_init (h : oids.Fresh) : CountsTold oids (Server.init oids) where
  wf := by
    rw [init_db h]
    exact wellFormed_initialDb h
  tallied _ := by
    rw [init_db h]
    exact tallied_initialDb

theorem CountsTold.step {s : Server} {r : Env Mac × Request Mac}
    (h : CountsTold oids s) (hnew : NewStep oids s r) :
    CountsTold oids (step s r) where
  wf := wellFormed_step h.wf hnew.1
  tallied hup := by
    have hbefore : s.up = true := by
      by_contra hdown
      have hsame : Naming.step s r = s := if_neg hdown
      exact hdown (hsame ▸ hup)
    obtain ⟨b, hchange, hb⟩ := change_of_step h.wf hnew.1
    have hstep : Naming.step s r = ⟨(handle r.1 r.2).final s.db,
        survives ((handle r.1 r.2).outcome s.db)⟩ := if_pos hbefore
    have hfalse : b = false := by
      rw [← Bool.not_eq_true, ← hb]
      rintro ⟨-, db, habort⟩
      rw [hstep, outcome_of_error habort] at hup
      cases hup
    subst hfalse
    refine hchange.tallied h.wf (h.tallied hbefore) fun o hnone hsome => ?_
    rw [hstep] at hsome
    have ho : o = r.1.inodeOid := by
      by_contra hne
      exact hsome (lookup_of_handle h.wf hnew.1 r.2 hnone hne)
    rw [ho]
    exact hnew.2

theorem ReachableAnew.countsTold {s : Server} (hoids : oids.Fresh)
    (h : ReachableAnew Mac oids s) : CountsTold oids s := by
  obtain ⟨run, hnew, rfl⟩ := h
  exact Run.exec_invariant (fun s r => CountsTold.step) (countsTold_init hoids) hnew

/-! ### What the entries tell -/

/-- The link count in the entry is the number of entries that name its
inode. -/
def Current (db : NamingDb) (e : NsEntry) : Prop :=
  e.linkCnt.toInt = db.links e.inodeOid

instance (db : NamingDb) (e : NsEntry) : Decidable (Current db e) :=
  inferInstanceAs (Decidable (e.linkCnt.toInt = db.links e.inodeOid))

/-- The entries in a result. -/
def Result.entries : Result → List NsEntry
  | .namespace ns => [ns.nsEntry]
  | .namespaces nss => nss.map Namespace.nsEntry
  | .nsEntry e => [e]
  | .nsEntries es => es
  | .statData _ => []

/-- The requests whose results tell a client a link count. -/
def Request.CountsLinks : Request Mac → Prop
  | .createNamespace .. => True
  | .createDir .. => True
  | .createFile .. => True
  | .createLink .. => True
  | .lookup .. => True
  | .listDir .. => True
  | .unlink .. => True
  | .removeDir .. => True
  | _ => False

/-- The initialisation did not make the inode that the entry names, and no
more than `most` entries name it. -/
def CountFits (oids : InitOids) (db : NamingDb) (most : ℕ) (d : Dirent) : Prop :=
  d.inodeOid ∉ oids.inodes ∧ db.links d.inodeOid ≤ most

instance (oids : InitOids) (db : NamingDb) (most : ℕ) (d : Dirent) :
    Decidable (CountFits oids db most d) :=
  inferInstanceAs (Decidable (d.inodeOid ∉ oids.inodes ∧
    db.links d.inodeOid ≤ most))

/-- What a request has to meet for its counts to be current. A link never does;
a removal takes one of the entries away. -/
def Countable (oids : InitOids) (db : NamingDb) : Request Mac → Prop
  | .createLink .. => False
  | .lookup parent name _ =>
      ∀ d, db.dirents.lookup (db1Keygen parent.direntOid name) = some d →
        CountFits oids db (2 ^ 31 - 1) d
  | .listDir parent _ =>
      ∀ d ∈ db.dirents.filter Dirent.parentOid parent.direntOid,
        CountFits oids db (2 ^ 31 - 1) d
  | .unlink parent name _ =>
      ∀ d, db.dirents.lookup (db1Keygen parent.direntOid name) = some d →
        CountFits oids db (2 ^ 31) d
  | .removeDir parent name _ =>
      ∀ d, db.dirents.lookup (db1Keygen parent.direntOid name) = some d →
        CountFits oids db (2 ^ 31) d
  | _ => True

theorem copyDbToNsEntry_counts {entry : DbEntry} {e : NsEntry}
    (h : copyDbToNsEntry entry db = .ok e) :
    e.linkCnt = entry.inode.refCnt ∧ e.inodeOid = entry.dirent.inodeOid := by
  unfold copyDbToNsEntry at h
  cases hobj : getFileObj db (db.dirents.entries.length + 2) entry with
  | error f =>
      rw [hobj] at h
      cases h
  | ok obj =>
      rw [hobj] at h
      cases h
      exact ⟨rfl, rfl⟩

theorem copyDbToNamespace_eq_ok {entry : DbEntry} {ns : Namespace} :
    copyDbToNamespace entry db = .ok ns ↔
      ∃ e, copyDbToNsEntry entry db = .ok e ∧ Namespace.mk (clip entry.dirent.name) e = ns := by
  unfold copyDbToNamespace
  cases copyDbToNsEntry entry db with
  | error f =>
      refine iff_of_false (fun h => by cases h) ?_
      rintro ⟨e, he, -⟩
      cases he
  | ok e =>
      show Except.ok (Namespace.mk _ e) = Except.ok ns ↔ _
      simp

theorem copyDbToNsEntry_current {entry : DbEntry} {e : NsEntry} {db' : NamingDb}
    (h : copyDbToNsEntry entry db = .ok e) : Current db' e ↔
      entry.inode.refCnt.toInt = db'.links entry.dirent.inodeOid := by
  obtain ⟨hcnt, hoid⟩ := copyDbToNsEntry_counts h
  rw [Current, hcnt, hoid]

/-- A stored count is current exactly within its limits. -/
theorem Tallied.stored_iff (ht : Tallied oids db) {d : Dirent} {i : Inode}
    (hi : db.inodes.lookup d.inodeOid = some i) :
    i.refCnt.toInt = db.links d.inodeOid ↔ CountFits oids db (2 ^ 31 - 1) d := by
  obtain ⟨counted, missing, hlinks, hcnt, hmissing⟩ := ht _ i hi
  rw [CountFits, hcnt, hlinks, toInt_ofNat_eq_iff, ← hmissing]
  omega

/-- A count that was decremented is current exactly within its limits. -/
theorem Tallied.decremented_iff (ht : Tallied oids db) {d : Dirent} {i : Inode}
    (hi : db.inodes.lookup d.inodeOid = some i) (hcnt : ¬ i.refCnt - 1 < 0)
    (hd : db.dirents.lookup d.key = some d) :
    (i.refCnt - 1).toInt = (db.delDirent d).links d.inodeOid ↔
      CountFits oids db (2 ^ 31) d := by
  obtain ⟨counted, missing, hlinks, heq, hmissing⟩ := ht _ i hi
  rw [heq] at hcnt
  obtain ⟨n, rfl, hn⟩ := exists_succ_of_sub_one hcnt
  have hdel := links_delDirent (o := d.inodeOid) hd
  rw [if_pos rfl] at hdel
  have hafter : (db.delDirent d).links d.inodeOid = n + missing := by omega
  rw [CountFits, heq, hn, hafter, hlinks, toInt_ofNat_eq_iff, ← hmissing]
  omega

/-- The count of before is never current after the link is made. -/
theorem Tallied.stale (ht : Tallied oids db) {o : Oid} {i : Inode}
    (hi : db.inodes.lookup o = some i) :
    i.refCnt.toInt ≠ (db.links o + 1 : ℕ) := by
  obtain ⟨counted, missing, hlinks, hcnt, -⟩ := ht _ i hi
  rw [hcnt, hlinks, Nat.add_assoc, ne_eq, toInt_ofNat_eq_iff]
  exact fun h => Nat.succ_ne_zero _ h.1

/-! ### The requests one by one -/

section Requests

variable {env : Env Mac} {db' : NamingDb}

theorem namingDbPut_newEntry_eq_ok (hfresh : Fresh env db) {parentOid : Oid}
    {name : Name} {type : Int32} {cid : Cid} {fileObj : Option Obj} {u : Unit}
    (h : namingDbPut (newEntry env parentOid name type cid fileObj) true db =
      .ok u db') : db'.links env.inodeOid = 1 := by
  by_cases hkey :
      (newEntry env parentOid name type cid fileObj).dirent.key ∈ db.dirents
  · rw [namingDbPut_of_mem hkey] at h
    cases h
  · rw [namingDbPut_newEntry hfresh hkey] at h
    cases h
    have hzero : db.links env.inodeOid = 0 := Table.count_eq_zero.mpr hfresh.links
    have hadd := links_addDirent (o := env.inodeOid) hkey
    rw [links_putInode, hadd, hzero, Nat.zero_add]
    exact if_pos rfl

/-- A new entry has the count one. -/
theorem current_newEntry (hfresh : Fresh env db) {parentOid : Oid}
    {name : Name} {type : Int32} {cid : Cid} {fileObj : Option Obj} {u : Unit}
    (h : namingDbPut (newEntry env parentOid name type cid fileObj) true db =
      .ok u db') {db'' : NamingDb} {e : NsEntry}
    (hcopy : copyDbToNsEntry (newEntry env parentOid name type cid fileObj) db'' =
      .ok e) : Current db' e := by
  refine (copyDbToNsEntry_current hcopy).mpr ?_
  show (1 : Int32).toInt = db'.links env.inodeOid
  rw [namingDbPut_newEntry_eq_ok hfresh h]
  rfl

/-- A link carries the count of before. -/
theorem not_current_linkTo (hwf : WellFormed db) (ht : Tallied oids db)
    {parentOid : Oid} {name : Name} {target : DbEntry} {u : Unit}
    (hi : db.inodes.lookup target.dirent.inodeOid = some target.inode)
    (h : namingDbPut (linkTo env parentOid name target) true db = .ok u db')
    {db'' : NamingDb} {e : NsEntry}
    (hcopy : copyDbToNsEntry (linkTo env parentOid name target) db'' = .ok e) :
    ¬ Current db' e := by
  rw [copyDbToNsEntry_current hcopy]
  by_cases hkey : (linkTo env parentOid name target).dirent.key ∈ db.dirents
  · rw [namingDbPut_of_mem hkey] at h
    cases h
  by_cases hzero : target.dirent.oid = Oid.zero
  · rw [namingDbPut_linkTo_zero hwf hzero hi hkey] at h
    cases h
  rw [namingDbPut_linkTo hwf hzero hi hkey] at h
  cases h
  have hlinks := links_addDirent (o := target.dirent.inodeOid) hkey
  rw [links_putInode]
  show target.inode.refCnt.toInt ≠ ((db.addDirent _).links target.dirent.inodeOid : ℕ)
  have hself : (linkTo env parentOid name target).dirent.inodeOid =
      target.dirent.inodeOid := rfl
  rw [hlinks, if_pos hself]
  exact ht.stale hi

theorem orFail_eq_ok {α : Type} {rc : ReturnCode} {x : Except Fault α} {a : α} :
    orFail rc x = .ok a ↔ x = .ok a := by
  cases x with
  | ok b => exact Iff.rfl
  | error e => cases e <;> simp [orFail]

/-- A removal returns the count that it stored. -/
theorem removeFrom_current (hwf : WellFormed db) (ht : Tallied oids db)
    {parent : NsEntry} {name : Name} {cap : Cap Mac} {e : NsEntry}
    (h : removeFrom env parent name cap db = .ok e db') : Current db' e ↔
      ∀ d, db.dirents.lookup (db1Keygen parent.direntOid name) = some d →
        CountFits oids db (2 ^ 31) d := by
  simp only [removeFrom, removeEntry, bind_eq_ok, reader_eq_ok,
    mapOutcome_eq_ok, orFail_eq_ok] at h
  obtain ⟨-, _, ⟨-, rfl⟩, -, _, ⟨-, rfl⟩, entry, t, ⟨hdel, rfl⟩, hcopy, rfl⟩ := h
  rw [outcome_eq_ok] at hdel
  rw [copyDbToNsEntry_current hcopy]
  cases hget : namingDbGetByName parent.direntOid name db with
  | error f =>
      rw [namingDbDel_of_error hget] at hdel
      cases hdel
  | ok target =>
      obtain ⟨hd, hi⟩ := namingDbGetByName_eq_ok.mp hget
      have hkey := hwf.key_eq _ _ hd
      have hd' : db.dirents.lookup target.dirent.key = some target.dirent := hkey ▸ hd
      have hwithin : (∀ d, db.dirents.lookup (db1Keygen parent.direntOid name) =
          some d → CountFits oids db (2 ^ 31) d) ↔
          CountFits oids db (2 ^ 31) target.dirent := by
        rw [hd]
        simp only [Option.some.injEq, forall_eq']
      rw [hwithin]
      rcases refCnt_trichotomy (target.inode.refCnt - 1) with hcnt | hcnt | hcnt
      · have hlast := namingDbDel_last hwf hget hcnt
        obtain ⟨rfl, -⟩ := EStateM.Result.ok.inj (hlast.symm.trans hdel)
        have hnot : ¬ target.inode.refCnt - 1 < 0 := by
          rw [hcnt]
          decide
        rw [final_of_ok hlast]
        exact ht.decremented_iff hi hnot hd'
      · have hmore := namingDbDel_more hwf hget hcnt
        obtain ⟨rfl, -⟩ := EStateM.Result.ok.inj (hmore.symm.trans hdel)
        rw [final_of_ok hmore]
        exact ht.decremented_iff hi (not_neg_of_pos hcnt) hd'
      · rw [namingDbDel_negative hwf hget hcnt] at hdel
        cases hdel

theorem namingLookup_current (ht : Tallied oids db) {parent : NsEntry}
    {name : Name} {cap : Cap Mac} {e : NsEntry}
    (h : namingLookup env parent name cap db = .ok e db') : Current db' e ↔
      ∀ d, db.dirents.lookup (db1Keygen parent.direntOid name) = some d →
        CountFits oids db (2 ^ 31 - 1) d := by
  simp only [namingLookup, bind_eq_ok, reader_eq_ok] at h
  obtain ⟨-, _, ⟨-, rfl⟩, -, _, ⟨-, rfl⟩, entry, _, ⟨hget, rfl⟩, hcopy, rfl⟩ := h
  obtain ⟨hd, hi⟩ := namingDbGetByName_eq_ok.mp hget
  rw [copyDbToNsEntry_current hcopy, ht.stored_iff hi, hd]
  simp only [Option.some.injEq, forall_eq']

theorem forall_mem_mapM {α β : Type} {ε : Type} {f : α → Except ε β} {P : β → Prop}
    {Q : α → Prop} (hPQ : ∀ a b, f a = .ok b → (P b ↔ Q a)) {l : List α}
    {bs : List β} (h : l.mapM f = .ok bs) : (∀ b ∈ bs, P b) ↔ ∀ a ∈ l, Q a := by
  constructor
  · intro hP a ha
    obtain ⟨b, hb⟩ := except_forall_of_mapM h a ha
    have hmem : b ∈ bs := by
      rw [except_mapM_eq_ok h]
      exact List.mem_filterMap.mpr ⟨a, ha, by rw [hb]; rfl⟩
    exact (hPQ a b hb).mp (hP b hmem)
  · intro hQ b hb
    obtain ⟨a, ha, hab⟩ := except_mem_of_mapM h hb
    exact (hPQ a b hab).mpr (hQ a ha)

/-- The entries that were fetched are those of the directory. -/
theorem namingDbGetAllByParent_fits (ht : Tallied oids db)
    {parentOid : Oid} {malloc : ℕ → Dirent} {dbEnts : List DbEntry}
    (h : namingDbGetAllByParent parentOid (namingDbGetSize parentOid db) malloc db =
      .ok dbEnts) :
    (∀ entry ∈ dbEnts,
        entry.inode.refCnt.toInt = db.links entry.dirent.inodeOid) ↔
      ∀ d ∈ db.dirents.filter Dirent.parentOid parentOid,
        CountFits oids db (2 ^ 31 - 1) d := by
  unfold namingDbGetAllByParent at h
  cases hget : db3Get parentOid (namingDbGetSize parentOid db) db with
  | error f =>
      rw [hget] at h
      cases h
  | ok dirents =>
      rw [hget] at h
      obtain ⟨-, -, hdirents⟩ := db3Get_eq_ok.mp hget
      rw [namingDbGetSize_eq, List.take_length] at hdirents
      have hlen : namingDbGetSize parentOid db = dirents.length := by
        rw [namingDbGetSize_eq, hdirents]
      have hentry : ∀ (i : ℕ) (entry : DbEntry),
          entryOf (dirents.getD i (malloc i)) db = .ok entry →
          (entry.inode.refCnt.toInt = db.links entry.dirent.inodeOid ↔
            CountFits oids db (2 ^ 31 - 1) (dirents.getD i (malloc i))) := by
        intro i entry hentry
        obtain ⟨hd, hi⟩ := entryOf_eq_ok.mp hentry
        rw [hd]
        exact ht.stored_iff hi
      rw [forall_mem_mapM hentry h, hlen, ← hdirents]
      conv_rhs => rw [← map_getD_range dirents malloc]
      exact List.forall_mem_map.symm

theorem namingListDir_current (ht : Tallied oids db) {parent : NsEntry}
    {cap : Cap Mac} {es : List NsEntry}
    (h : namingListDir env parent cap db = .ok es db') :
    (∀ e ∈ es, Current db' e) ↔
      ∀ d ∈ db.dirents.filter Dirent.parentOid parent.direntOid,
        CountFits oids db (2 ^ 31 - 1) d := by
  simp only [namingListDir, bind_eq_ok, reader_eq_ok] at h
  obtain ⟨-, _, ⟨-, rfl⟩, -, _, ⟨-, rfl⟩, hlist, rfl⟩ := h
  split_ifs at hlist with hsize
  · cases hlist
    rw [namingDbGetSize_eq, List.length_eq_zero_iff] at hsize
    rw [hsize]
    simp
  · cases hall : namingDbGetAllByParent parent.direntOid
        (namingDbGetSize parent.direntOid db) env.malloc db with
    | error f =>
        rw [hall] at hlist
        cases hlist
    | ok dbEnts =>
        rw [hall] at hlist
        rw [← namingDbGetAllByParent_fits ht hall]
        exact forall_mem_mapM (fun entry e he => copyDbToNsEntry_current he) hlist

/-! ### All requests -/

theorem handle_current_iff (hwf : WellFormed db) (ht : Tallied oids db)
    (hfresh : Fresh env db) {req : Request Mac} (hreq : req.CountsLinks)
    {result : Result} (h : handle env req db = .ok result db') :
    (∀ e ∈ result.entries, Current db' e) ↔ Countable oids db req := by
  cases req <;> simp only [Request.CountsLinks] at hreq <;>
    obtain ⟨a, ha, rfl⟩ := map_eq_ok.mp h
  case createNamespace name cid =>
    simp only [namingCreateNamespace, bind_eq_ok, reader_eq_ok] at ha
    obtain ⟨_, _, hput, hcopy, rfl⟩ := ha
    obtain ⟨e, hentry, rfl⟩ := copyDbToNamespace_eq_ok.mp hcopy
    simpa [Result.entries, Countable] using current_newEntry hfresh hput hentry
  case createDir parent name cid cap =>
    simp only [namingCreateDir, bind_eq_ok, reader_eq_ok] at ha
    obtain ⟨-, _, ⟨-, rfl⟩, -, _, ⟨-, rfl⟩, _, _, hput, hcopy, rfl⟩ := ha
    simpa [Result.entries, Countable] using current_newEntry hfresh hput hcopy
  case removeDir parent name cap =>
    simpa [Result.entries, Countable] using removeFrom_current hwf ht ha
  case createFile parent name obj cap =>
    simp only [namingCreateFile, bind_eq_ok, reader_eq_ok] at ha
    obtain ⟨-, _, ⟨-, rfl⟩, -, _, ⟨-, rfl⟩, _, _, hput, -, _, ⟨-, rfl⟩, hcopy,
      rfl⟩ := ha
    simpa [Result.entries, Countable] using current_newEntry hfresh hput hcopy
  case createLink parent name cap targetParent targetName targetCap =>
    simp only [namingCreateLink, bind_eq_ok, reader_eq_ok] at ha
    obtain ⟨-, _, ⟨-, rfl⟩, -, _, ⟨-, rfl⟩, -, _, ⟨-, rfl⟩, target, _,
      ⟨hget, rfl⟩, _, _, hput, hcopy, rfl⟩ := ha
    obtain ⟨-, hi⟩ := namingDbGetByName_eq_ok.mp hget
    simpa [Result.entries, Countable] using not_current_linkTo hwf ht hi hput hcopy
  case unlink parent name cap =>
    simpa [Result.entries, Countable] using removeFrom_current hwf ht ha
  case lookup parent name cap =>
    simpa [Result.entries, Countable] using namingLookup_current ht ha
  case listDir parent cap =>
    simpa [Result.entries, Countable] using namingListDir_current ht ha

end Requests

/-- The server after a file was created in the root directory. -/
def oneFileServer : Server := step (Server.init countingOids) createFileStep

theorem oneFileServer_reachable : ReachableAnew Unit countingOids oneFileServer :=
  ⟨[createFileStep], ⟨by decide, trivial⟩, rfl⟩

/-- The answer to the first link to the file. -/
def linkedFile : NsEntry where
  name := ['g']
  direntOid := oidOf 12
  inodeOid := oidOf 11
  parentOid := countingOids.root
  linkCnt := 1
  entryObj := ⟨Service.zero, fileEntry, 0, oidOf 11, 0⟩
  fileObj := some Obj.zero

/-- The answer when the file is removed instead. -/
def unlinkedFile : NsEntry :=
  { linkedFile with name := fileName, direntOid := oidOf 10, linkCnt := 0 }

/-- In every state that the server reaches from a cleared database, the link
counts in the result of a successful request are the numbers of entries that
name the inodes after it, exactly if the request makes no link and the inodes
can count the entries that name them. -/
theorem current_iff_countable (hoids : oids.Fresh) {s : Server}
    (hs : ReachableAnew Mac oids s) (hup : s.up = true)
    {r : Env Mac × Request Mac} (hfresh : FreshStep s r) (hr : r.2.CountsLinks)
    {result : Result} (h : (handle r.1 r.2).outcome s.db = .ok result) :
    (∀ e ∈ result.entries, Current (step s r).db e) ↔
      Countable oids s.db r.2 := by
  obtain ⟨hwf, ht⟩ := hs.countsTold hoids
  have hstep : (step s r).db = (handle r.1 r.2).final s.db := by
    rw [step, if_pos hup]
  rw [hstep]
  exact handle_current_iff hwf (ht hup) hfresh hr (outcome_eq_ok.mp h)

/-- The only entry of the file is removed, and the count is zero. -/
theorem current_iff_countable_unlink :
    Current (step oneFileServer (unlinkStep 1 fileName)).db unlinkedFile := by
  have hiff : (∀ e ∈ (Result.nsEntry unlinkedFile).entries,
      Current (step oneFileServer (unlinkStep 1 fileName)).db e) ↔
      Countable countingOids oneFileServer.db (unlinkStep 1 fileName).2 :=
    current_iff_countable countingOids_fresh oneFileServer_reachable rfl
      (r := unlinkStep 1 fileName) (by decide) (by trivial) rfl
  have hcount : Countable countingOids oneFileServer.db (unlinkStep 1 fileName).2 := by
    intro d hd
    obtain rfl := Option.some.inj hd
    have hin : CountFits countingOids oneFileServer.db (2 ^ 31)
        (newEntry (countingEnv 0) countingOids.root fileName fileEntry 0
          (some Obj.zero)).dirent := by decide
    exact hin
  exact hiff.mpr hcount _ List.mem_cons_self

/-- A file is created and a link to it is made. Two entries name the file, and
the answer says one. -/
theorem not_current_createLink :
    ¬ ∀ (s : Server) (r : Env Unit × Request Unit) (result : Result),
      ReachableAnew Unit countingOids s → s.up = true → FreshStep s r →
      r.2.CountsLinks → (handle r.1 r.2).outcome s.db = .ok result →
      ∀ e ∈ result.entries, Current (step s r).db e := by
  intro h
  have hcurrent := h oneFileServer (createLinkStep 1 ['g']) (.nsEntry linkedFile)
    oneFileServer_reachable rfl (by decide) trivial rfl linkedFile
    List.mem_cons_self
  exact absurd hcurrent (by decide)

end Lwfs.Naming
