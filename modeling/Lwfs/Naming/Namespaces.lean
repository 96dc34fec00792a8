import Lwfs.Naming.Listing

/-!
Namespaces and their listing.

A namespace is an entry under `ROOT_OID`, the id zero. The records that the
initialisation makes stand under the same id: the entry named after the latest
generated id, `/` and `orphans`. `naming_list_namespaces` looks neither at the
type nor at the `hide` flag of an entry, and it asks for one element more than
it has counted, for which the database has no record and the buffer no room.
-/

namespace Lwfs.Naming

open SysLib Routine

variable {Mac : Type}

/-! ### The namespaces that there are -/

/-- The requests that create and remove namespaces. -/
def OnNamespaces : Request Mac → Prop
  | .createNamespace _ _ => True
  | .removeNamespace _ _ => True
  | _ => False

/-- The namespaces that were created and not removed, after one more request. -/
def liveAfter (s : Server) (names : List Name) (r : Env Mac × Request Mac) :
    List Name :=
  if s.up then
    match r.2, (handle r.1 r.2).outcome s.db with
    | .createNamespace name _, .ok _ => clip name :: names
    | .removeNamespace name _, .ok _ => names.filter (· ≠ clip name)
    | _, _ => names
  else names

/-- The server beside the names of the namespaces that there should be. -/
def stepLive (x : Server × List Name) (r : Env Mac × Request Mac) :
    Server × List Name :=
  (step x.1 r, liveAfter x.1 x.2 r)

/-- The names of the namespaces after a run. -/
def liveNamespaces (s : Server) (run : List (Env Mac × Request Mac)) :
    List Name :=
  (Run.exec stepLive (s, []) run).2

theorem exec_stepLive (x : Server × List Name)
    (run : List (Env Mac × Request Mac)) :
    (Run.exec stepLive x run).1 = Run.exec step x.1 run := by
  induction run generalizing x with
  | nil => rfl
  | cons r run ih => exact ih (stepLive x r)

theorem along_stepLive {P : Server → Env Mac × Request Mac → Prop}
    (x : Server × List Name) (run : List (Env Mac × Request Mac)) :
    Run.Along stepLive (fun x r => P x.1 r) x run ↔
      Run.Along step P x.1 run := by
  induction run generalizing x with
  | nil => exact Iff.rfl
  | cons r run ih => exact and_congr_right fun _ => ih (stepLive x r)

/-- `list_namespaces` returns the namespaces of the given names, each once
and as `get_namespace` returns it. -/
structure ListsExactly (env : Env Mac) (s : Server) (names : List Name)
    (nss : List Namespace) : Prop where
  up : s.up = true
  ok : namingListNamespaces env s.db = .ok nss s.db
  nodup : (nss.map Namespace.name).Nodup
  mem_iff : ∀ name, name ∈ nss.map Namespace.name ↔ name ∈ names
  get : ∀ ns ∈ nss, (namingGetNamespace ns.name).outcome s.db = .ok ns

/-! ### What the two requests do -/

section Requests

variable {db : NamingDb} {env : Env Mac} {name : Name} {cid : Cid} {cap : Cap Mac}

theorem copyDbToNamespace_of_type {e : DbEntry}
    (h : e.inode.entryObj.type ≠ linkEntry) :
    copyDbToNamespace e db = .ok ⟨clip e.dirent.name, e.nsEntry⟩ := by
  unfold copyDbToNamespace
  rw [copyDbToNsEntry_of_type h]
  rfl

theorem namespaceLookup_eq_ok_iff (hdb : NoLinkObj db) {ns : Namespace} :
    namespaceLookup name db = .ok ns ↔
      ∃ e, namingDbGetByName Oid.zero name db = .ok e ∧
        ns = ⟨clip e.dirent.name, e.nsEntry⟩ := by
  unfold namespaceLookup
  cases hget : namingDbGetByName Oid.zero name db with
  | error f => exact ⟨nofun, fun ⟨_, h, _⟩ => nomatch h⟩
  | ok e =>
      obtain ⟨-, hi⟩ := namingDbGetByName_eq_ok.mp hget
      have hcopy : copyDbToNamespace e db = _ :=
        copyDbToNamespace_of_type (hdb _ _ hi)
      show copyDbToNamespace e db = .ok ns ↔ _
      rw [hcopy, Except.ok.injEq]
      constructor
      · intro h
        exact ⟨e, rfl, h.symm⟩
      · rintro ⟨e', heq, rfl⟩
        cases heq
        rfl

theorem key_newEntry {parentOid : Oid} {type : Int32} {fileObj : Option Obj} :
    (newEntry env parentOid name type cid fileObj).dirent.key =
      db1Keygen parentOid name :=
  congrArg (Db1Key.mk parentOid) (clip_clip name)

/-- A namespace whose name is taken is not created. -/
theorem namingCreateNamespace_of_mem (h : db1Keygen Oid.zero name ∈ db.dirents) :
    namingCreateNamespace env name cid db = .error (.code .errExist) db := by
  apply bind_of_error
  apply namingDbPut_of_mem
  rw [key_newEntry]
  exact h

theorem namingCreateNamespace_of_notMem (hfresh : Fresh env db)
    (h : db1Keygen Oid.zero name ∉ db.dirents) :
    let e := newEntry env Oid.zero name nsObj cid none
    namingCreateNamespace env name cid db =
      .ok ⟨clip e.dirent.name, e.nsEntry⟩
        ((db.addDirent e.dirent).putInode e.inode) := by
  intro e
  have hkey : e.dirent.key ∉ db.dirents := by
    rw [key_newEntry]
    exact h
  have htype : e.inode.entryObj.type ≠ linkEntry := by
    show nsObj ≠ linkEntry
    decide
  exact (bind_of_ok (namingDbPut_newEntry hfresh hkey)).trans
    (reader_of_ok (copyDbToNamespace_of_type htype))

/-- An entry that is there is deleted, unless its count becomes negative. -/
theorem removeEntry_cases (hwf : WellFormed db) {parentOid : Oid} {e : DbEntry}
    (hget : namingDbGetByName parentOid name db = .ok e) :
    (∃ t, removeEntry parentOid name db = .error .abort t) ∨
    ∃ t, removeEntry parentOid name db = .ok e.decremented t ∧
      ¬ e.inode.refCnt - 1 < 0 ∧
      t.dirents = db.dirents.erase e.dirent.key ∧
      ∀ o, o ≠ e.dirent.inodeOid → t.inodes.lookup o = db.inodes.lookup o := by
  obtain ⟨-, hi⟩ := namingDbGetByName_eq_ok.mp hget
  rcases refCnt_trichotomy (e.inode.refCnt - 1) with hcnt | hcnt | hcnt
  · refine .inr ⟨_, mapOutcome_of_ok (namingDbDel_last hwf hget hcnt) rfl, ?_,
      rfl, fun o ho => AList.lookup_erase_ne ho⟩
    rw [hcnt]
    decide
  · have hi' := hwf.inode_oid _ _ hi
    have hoid : e.decremented.inode.entryObj.oid = e.dirent.inodeOid := hi'
    refine .inr ⟨_, mapOutcome_of_ok (namingDbDel_more hwf hget hcnt) rfl, ?_,
      rfl, fun o ho => AList.lookup_insert_ne ?_⟩
    · exact fun hneg => Int32.lt_irrefl (Int32.lt_trans hneg hcnt)
    · rw [hoid]
      exact ho
  · have habort := namingDbDel_negative hwf hget hcnt
    refine .inl ⟨db.delDirent e.dirent, ?_⟩
    simp only [removeEntry, mapOutcome, outcome, final, habort, orFail]

theorem namingRemoveNamespace_of_checks {ns : Namespace}
    (hns : namespaceLookup name db = .ok ns)
    (hperm : checkPerm env ns.nsEntry.direntOid cap containerWrite db = .ok ()) :
    namingRemoveNamespace env name cap db =
      (removeEntry ns.nsEntry.parentOid name >>= fun entry =>
        Routine.reader (copyDbToNamespace entry)) db := by
  have hread : orFail .errNoent (namespaceLookup name db) = .ok ns := by
    rw [hns]
    rfl
  exact (reader_bind_ok (s := db) hread).trans (reader_bind_ok hperm)

/-- A removal deletes the namespace, or it ends the server, or it leaves the
database alone. -/
theorem namingRemoveNamespace_cases (hwf : WellFormed db) (hdb : NoLinkObj db) :
    (∃ f, namingRemoveNamespace env name cap db = .error f db) ∨
    (∃ t, namingRemoveNamespace env name cap db = .error .abort t) ∨
    ∃ e ns t, namingRemoveNamespace env name cap db = .ok ns t ∧
      namingDbGetByName Oid.zero name db = .ok e ∧
      ¬ e.inode.refCnt - 1 < 0 ∧
      t.dirents = db.dirents.erase e.dirent.key ∧
      ∀ o, o ≠ e.dirent.inodeOid → t.inodes.lookup o = db.inodes.lookup o := by
  cases hns : namespaceLookup name db with
  | error f =>
      have hfail : ∃ f', orFail .errNoent (namespaceLookup name db) =
          .error f' := by
        rw [hns]
        cases f <;> exact ⟨_, rfl⟩
      obtain ⟨f', hf'⟩ := hfail
      exact .inl ⟨f', bind_of_error (reader_of_error hf')⟩
  | ok ns =>
      obtain ⟨e, hget, rfl⟩ := (namespaceLookup_eq_ok_iff hdb).mp hns
      obtain ⟨hd, hi⟩ := namingDbGetByName_eq_ok.mp hget
      cases hperm : checkPerm env e.dirent.oid cap containerWrite db with
      | error f =>
          have hread : orFail .errNoent (namespaceLookup name db) =
              .ok ⟨clip e.dirent.name, e.nsEntry⟩ := by
            rw [hns]
            rfl
          exact .inl ⟨f, (reader_bind_ok (s := db) hread).trans
            (bind_of_error (reader_of_error hperm))⟩
      | ok u =>
          -- a namespace stands under `ROOT_OID`
          have hparent : e.dirent.parentOid = Oid.zero :=
            (congrArg Db1Key.parentOid (hwf.key_eq _ _ hd)).symm
          have hget' : namingDbGetByName e.dirent.parentOid name db = .ok e := by
            rw [hparent]
            exact hget
          have heq := namingRemoveNamespace_of_checks hns hperm
          rw [heq]
          rcases removeEntry_cases hwf hget' with
            ⟨t, habort⟩ | ⟨t, hok, hcnt, hdirents, hinodes⟩
          · exact .inr (.inl ⟨t, bind_of_error habort⟩)
          · have hi' := hdb _ _ hi
            have htype : e.decremented.inode.entryObj.type ≠ linkEntry := hi'
            exact .inr (.inr ⟨e, _, t, (bind_of_ok hok).trans
              (reader_of_ok (copyDbToNamespace_of_type htype)), hget, hcnt,
              hdirents, hinodes⟩)

end Requests

/-! ### What stands under `ROOT_OID` -/

/-- The names of the records that the initialisation makes. -/
def initialNames : List Name := [globalDbKey, rootName, orphanName]

/-- Under `ROOT_OID` stand the namespaces and the initial records, and these
are not counted. -/
structure RootRecords (oids : InitOids) (db : NamingDb) (names : List Name) :
    Prop where
  mem_iff : ∀ name, db1Keygen Oid.zero name ∈ db.dirents ↔
    clip name ∈ names ∨ clip name ∈ initialNames
  initial : ∀ name, clip name ∈ initialNames →
    ∃ d, db.dirents.lookup (db1Keygen Oid.zero name) = some d ∧
      d.inodeOid ∈ oids.inodes
  uncounted : ∀ o ∈ oids.inodes,
    ∃ i, db.inodes.lookup o = some i ∧ i.refCnt = 0

section RootRecords

variable {oids : InitOids} {db : NamingDb} {names : List Name} {env : Env Mac}

theorem db1Keygen_inj {parentOid : Oid} {name name' : Name} :
    db1Keygen parentOid name = db1Keygen parentOid name' ↔
      clip name = clip name' := by
  simp only [db1Keygen, Db1Key.mk.injEq, true_and]

theorem rootRecords_initialDb : RootRecords oids (initialDb oids) [] where
  mem_iff name := by
    have hdirents : (initialDb oids).dirents =
        (((∅ : Table Db1Key Dirent).insert (db1Keygen Oid.zero globalDbKey)
          idEntry.dirent).insert (db1Keygen Oid.zero rootName)
          (rootEntry oids).dirent).insert (db1Keygen Oid.zero orphanName)
          (orphanEntry oids).dirent := rfl
    have horphan : clip orphanName = orphanName := by decide
    have hroot : clip rootName = rootName := by decide
    have hid : clip globalDbKey = globalDbKey := by decide
    simp only [hdirents, AList.mem_insert, AList.notMem_empty, db1Keygen_inj,
      horphan, hroot, hid, initialNames, List.not_mem_nil, List.mem_cons,
      false_or, or_false]
    tauto
  initial name h := by
    simp only [initialNames, List.mem_cons, List.not_mem_nil, or_false] at h
    rcases h with h | h | h
    · refine ⟨idEntry.dirent, ?_, List.mem_cons_self⟩
      rw [db1Keygen, h]
      rfl
    · refine ⟨(rootEntry oids).dirent, ?_, List.mem_cons_of_mem _
        List.mem_cons_self⟩
      rw [db1Keygen, h]
      rfl
    · refine ⟨(orphanEntry oids).dirent, ?_, List.mem_cons_of_mem _
        (List.mem_cons_of_mem _ List.mem_cons_self)⟩
      rw [db1Keygen, h]
      rfl
  uncounted o ho := by
    have hmem : o ∈ (initialDb oids).inodes := by
      have hinodes : (initialDb oids).inodes =
          (((∅ : Table Oid Inode).insert Oid.zero idEntry.inode).insert
            oids.rootInode (rootEntry oids).inode).insert oids.orphanInode
            (orphanEntry oids).inode := rfl
      simp only [InitOids.inodes, List.mem_cons, List.not_mem_nil,
        or_false] at ho
      simp only [hinodes, AList.mem_insert, AList.notMem_empty, or_false]
      tauto
    obtain ⟨i, hi⟩ := Table.mem_iff_lookup.mp hmem
    exact ⟨i, hi, refCnt_initialDb hi⟩

/-- A namespace is added beside the initial records. -/
theorem RootRecords.create (h : RootRecords oids db names)
    (hfresh : Fresh env db) {name : Name} {cid : Cid}
    (hname : db1Keygen Oid.zero name ∉ db.dirents) :
    let e := newEntry env Oid.zero name nsObj cid none
    RootRecords oids ((db.addDirent e.dirent).putInode e.inode)
      (clip name :: names) := by
  intro e
  have hkey : e.dirent.key = db1Keygen Oid.zero name := key_newEntry
  constructor
  · intro name'
    show db1Keygen Oid.zero name' ∈ db.dirents.insert e.dirent.key e.dirent ↔ _
    rw [AList.mem_insert, hkey, db1Keygen_inj, h.mem_iff, List.mem_cons, or_assoc]
  · intro name' hname'
    obtain ⟨d, hd, hdo⟩ := h.initial name' hname'
    refine ⟨d, ?_, hdo⟩
    have hne : db1Keygen Oid.zero name' ≠ e.dirent.key := by
      intro heq
      rw [heq, hkey] at hd
      exact hname (Table.mem_of_lookup hd)
    exact (AList.lookup_insert_ne hne).trans hd
  · intro o ho
    obtain ⟨i, hi, hcnt⟩ := h.uncounted o ho
    refine ⟨i, ?_, hcnt⟩
    have hne : o ≠ env.inodeOid := by
      rintro rfl
      rw [hfresh.inode] at hi
      cases hi
    exact (AList.lookup_insert_ne hne).trans hi

/-- Only a namespace can be removed, because the counts of the initial records
are zero. -/
theorem RootRecords.remove (h : RootRecords oids db names) {name : Name}
    (hwf : WellFormed db) {e : DbEntry} {t : NamingDb}
    (hget : namingDbGetByName Oid.zero name db = .ok e)
    (hcnt : ¬ e.inode.refCnt - 1 < 0)
    (hdirents : t.dirents = db.dirents.erase e.dirent.key)
    (hinodes : ∀ o, o ≠ e.dirent.inodeOid →
      t.inodes.lookup o = db.inodes.lookup o) :
    RootRecords oids t (names.filter (· ≠ clip name)) := by
  obtain ⟨hd, hi⟩ := namingDbGetByName_eq_ok.mp hget
  have hkey : e.dirent.key = db1Keygen Oid.zero name :=
    (hwf.key_eq _ _ hd).symm
  have hcounted : e.dirent.inodeOid ∉ oids.inodes := by
    intro hmem
    obtain ⟨i, hi', hzero⟩ := h.uncounted _ hmem
    rw [hi] at hi'
    cases hi'
    rw [hzero] at hcnt
    exact hcnt (by decide)
  have hname : clip name ∉ initialNames := by
    intro hmem
    obtain ⟨d, hd', hdo⟩ := h.initial name hmem
    rw [hd] at hd'
    cases hd'
    exact hcounted hdo
  constructor
  · intro name'
    rw [hdirents, AList.mem_erase, hkey, h.mem_iff, ne_eq, db1Keygen_inj,
      List.mem_filter, decide_eq_true_eq]
    constructor
    · rintro ⟨hne, hmem | hmem⟩
      · exact .inl ⟨hmem, hne⟩
      · exact .inr hmem
    · rintro (⟨hmem, hne⟩ | hmem)
      · exact ⟨hne, .inl hmem⟩
      · exact ⟨fun heq => hname (heq ▸ hmem), .inr hmem⟩
  · intro name' hname'
    obtain ⟨d, hd', hdo⟩ := h.initial name' hname'
    refine ⟨d, ?_, hdo⟩
    rw [hdirents, AList.lookup_erase_ne, hd']
    rw [hkey, ne_eq, db1Keygen_inj]
    exact fun heq => hname (heq ▸ hname')
  · intro o ho
    obtain ⟨i, hi', hzero⟩ := h.uncounted o ho
    refine ⟨i, ?_, hzero⟩
    rw [hinodes o fun heq => hcounted (heq ▸ ho), hi']

end RootRecords

/-! ### Runs of requests on namespaces -/

section Runs

variable {oids : InitOids}

/-- What the requests on namespaces keep of the server and of the names of
the namespaces. -/
structure Rooted (oids : InitOids) (x : Server × List Name) : Prop where
  wellFormed : WellFormed x.1.db
  noLinkObj : NoLinkObj x.1.db
  rootRecords : x.1.up = true → RootRecords oids x.1.db x.2

theorem rooted_init (hoids : oids.Fresh) : Rooted oids (Server.init oids, []) := by
  have hdb : (Server.init oids).db = initialDb oids := init_db hoids
  constructor
  · rw [hdb]
    exact wellFormed_initialDb hoids
  · rw [hdb]
    exact noLinkObj_initialDb
  · rw [hdb]
    exact fun _ => rootRecords_initialDb

theorem step_of_error {s : Server} {r : Env Mac × Request Mac} {f : Fault}
    {t : NamingDb} (hup : s.up = true) (h : handle r.1 r.2 s.db = .error f t) :
    step s r = ⟨t, survives (.error f : Except Fault Result)⟩ := by
  unfold step
  rw [if_pos hup, final_of_error h, outcome_of_error h]

/-- A request that fails adds and removes no name. -/
theorem liveAfter_of_error {s : Server} {r : Env Mac × Request Mac}
    {names : List Name} {f : Fault} {t : NamingDb}
    (h : handle r.1 r.2 s.db = .error f t) : liveAfter s names r = names := by
  unfold liveAfter
  rw [outcome_of_error h]
  split_ifs
  · cases r.2 <;> rfl
  · rfl

section Step

variable {db : NamingDb} {env : Env Mac} {name : Name} {names : List Name}

theorem RootRecords.step_createNamespace (h : RootRecords oids db names)
    (hfresh : Fresh env db) (cid : Cid) :
    RootRecords oids (step ⟨db, true⟩ (env, .createNamespace name cid)).db
      (liveAfter ⟨db, true⟩ names (env, .createNamespace name cid)) := by
  by_cases hname : db1Keygen Oid.zero name ∈ db.dirents
  · have hhandle : handle env (.createNamespace name cid) db =
        .error (.code .errExist) db :=
      map_of_error (namingCreateNamespace_of_mem hname)
    rw [step_of_error rfl hhandle, liveAfter_of_error hhandle]
    exact h
  · have hhandle : handle env (.createNamespace name cid) db = _ :=
      map_of_ok (namingCreateNamespace_of_notMem hfresh hname)
    rw [step_of_ok rfl hhandle, liveAfter, if_pos rfl, outcome_of_ok hhandle]
    exact h.create hfresh hname

theorem RootRecords.step_removeNamespace (h : RootRecords oids db names)
    (hwf : WellFormed db) (hlink : NoLinkObj db) (cap : Cap Mac)
    (hup : (step ⟨db, true⟩ (env, .removeNamespace name cap)).up = true) :
    RootRecords oids (step ⟨db, true⟩ (env, .removeNamespace name cap)).db
      (liveAfter ⟨db, true⟩ names (env, .removeNamespace name cap)) := by
  have hcases : (∃ f, namingRemoveNamespace env name cap db = .error f db) ∨ _ :=
    namingRemoveNamespace_cases hwf hlink
  obtain ⟨f, herror⟩ | ⟨t, habort⟩ |
    ⟨e, ns, t, hok, hget, hcnt, hdirents, hinodes⟩ := hcases
  · have hhandle : handle env (.removeNamespace name cap) db = .error f db :=
      map_of_error herror
    rw [step_of_error rfl hhandle, liveAfter_of_error hhandle]
    exact h
  · have hhandle : handle env (.removeNamespace name cap) db =
        .error .abort t := map_of_error habort
    rw [step_of_error rfl hhandle] at hup
    exact absurd hup Bool.false_ne_true
  · have hhandle : handle env (.removeNamespace name cap) db = _ :=
      map_of_ok hok
    rw [step_of_ok rfl hhandle, liveAfter, if_pos rfl, outcome_of_ok hhandle]
    exact h.remove hwf hget hcnt hdirents hinodes

end Step

theorem rooted_step {x : Server × List Name} {r : Env Mac × Request Mac}
    (h : Rooted oids x) (hr : OnNamespaces r.2) (hfresh : FreshStep x.1 r) :
    Rooted oids (stepLive x r) := by
  refine ⟨wellFormed_step h.wellFormed hfresh,
    noLinkObj_step h.wellFormed hfresh h.noLinkObj, ?_⟩
  obtain ⟨⟨db, up⟩, names⟩ := x
  obtain ⟨env, request⟩ := r
  cases up with
  | false => exact fun hup => absurd hup Bool.false_ne_true
  | true =>
      have hroot : RootRecords oids db names := h.rootRecords rfl
      cases request with
      | createNamespace name cid =>
          exact fun _ => hroot.step_createNamespace hfresh cid
      | removeNamespace name cap =>
          exact hroot.step_removeNamespace h.wellFormed h.noLinkObj cap
      | _ => exact hr.elim

theorem rooted_exec (hoids : oids.Fresh) {run : List (Env Mac × Request Mac)}
    (hrequests : ∀ r ∈ run, OnNamespaces r.2)
    (hfresh : Run.Along step FreshStep (Server.init oids) run) :
    Rooted oids (Run.exec stepLive (Server.init oids, []) run) := by
  have halong : Run.Along stepLive
      (fun x r => OnNamespaces r.2 ∧ FreshStep x.1 r)
      (Server.init oids, []) run := by
    rw [Run.along_and, along_stepLive]
    exact ⟨Run.along_of_forall _ _ hrequests, hfresh⟩
  have hstep : ∀ (x : Server × List Name) (r : Env Mac × Request Mac),
      Rooted oids x → OnNamespaces r.2 ∧ FreshStep x.1 r →
      Rooted oids (stepLive x r) := fun x r h hr => rooted_step h hr.1 hr.2
  exact Run.exec_invariant hstep (rooted_init hoids) halong

end Runs

/-! ### The listing -/

section Listing

variable {db : NamingDb} {env : Env Mac}

/-- With an entry to list, one element too many is fetched and either has no
inode or is written behind the buffer. -/
theorem namingListNamespaces_ne_ok (h : namingDbGetSize Oid.zero db ≠ 0)
    {nss : List Namespace} {t : NamingDb} :
    namingListNamespaces env db ≠ .ok nss t := by
  intro hok
  obtain ⟨hread, -⟩ := reader_eq_ok.mp hok
  simp only [if_neg h] at hread
  cases hfetch : namingDbGetAllByParent Oid.zero
      (namingDbGetSize Oid.zero db + 1) env.malloc db with
  | error f =>
      rw [hfetch] at hread
      cases hread
  | ok dbEnts =>
      rw [hfetch] at hread
      have hlen := length_namingDbGetAllByParent hfetch
      have hover : namingDbGetSize Oid.zero db < dbEnts.length := by omega
      change (if namingDbGetSize Oid.zero db < dbEnts.length then _ else _) = _
        at hread
      rw [if_pos hover] at hread
      cases hread

theorem RootRecords.getSize_ne {oids : InitOids} {names : List Name}
    (h : RootRecords oids db names) (hwf : WellFormed db) :
    namingDbGetSize Oid.zero db ≠ 0 := by
  have hroot : clip rootName ∈ initialNames := by decide
  obtain ⟨d, hd, -⟩ := h.initial rootName hroot
  have hparent : d.parentOid = Oid.zero :=
    (congrArg Db1Key.parentOid (hwf.key_eq _ _ hd)).symm
  have hpos : 0 < db.dirents.count Dirent.parentOid d.parentOid :=
    Table.count_pos_of_lookup hd
  rw [hparent] at hpos
  exact Nat.ne_of_gt hpos

/-- The entries under `ROOT_OID` are the namespaces and the initial records. -/
theorem RootRecords.mem_filter {oids : InitOids} {names : List Name}
    (h : RootRecords oids db names) (hwf : WellFormed db) (name : Name) :
    clip name ∈ (db.dirents.filter Dirent.parentOid Oid.zero).map
        (fun d => clip d.name) ↔
      clip name ∈ names ∨ clip name ∈ initialNames := by
  rw [← h.mem_iff name, List.mem_map, Table.mem_iff_lookup]
  constructor
  · rintro ⟨d, hd, hname⟩
    obtain ⟨k, hk, hparent⟩ := Table.mem_filter.mp hd
    have hkey : k = db1Keygen Oid.zero name := by
      rw [hwf.key_eq k d hk, Dirent.key, hparent, db1Keygen_inj]
      exact hname
    exact ⟨d, hkey ▸ hk⟩
  · rintro ⟨d, hd⟩
    have hkey := hwf.key_eq _ _ hd
    have hparent : d.parentOid = Oid.zero := (congrArg Db1Key.parentOid hkey).symm
    have hname : clip d.name = clip name := (congrArg Db1Key.name hkey).symm
    exact ⟨d, Table.mem_filter.mpr ⟨_, hd, hparent⟩, hname⟩

end Listing

/-- After no run of requests on namespaces is the listing of the namespaces
exact, and what the database has under `ROOT_OID` is the namespaces and also
the initial records. -/
theorem namingListNamespaces_inexact {oids : InitOids} (hoids : oids.Fresh)
    {run : List (Env Mac × Request Mac)}
    (hrequests : ∀ r ∈ run, OnNamespaces r.2)
    (hfresh : Run.Along step FreshStep (Server.init oids) run) :
    let s := Run.exec step (Server.init oids) run
    let names := liveNamespaces (Server.init oids) run
    (∀ (env : Env Mac) nss, ¬ ListsExactly env s names nss) ∧
      (s.up = true → ∀ name,
        clip name ∈ (s.db.dirents.filter Dirent.parentOid Oid.zero).map
            (fun d => clip d.name) ↔
          clip name ∈ names ∨ clip name ∈ initialNames) := by
  intro s names
  have hrooted := rooted_exec hoids hrequests hfresh
  have hs : (Run.exec stepLive (Server.init oids, []) run).1 = s :=
    exec_stepLive _ run
  have hwf : WellFormed s.db := hs ▸ hrooted.wellFormed
  have hroot : s.up = true → RootRecords oids s.db names :=
    hs ▸ hrooted.rootRecords
  constructor
  · intro env nss hlist
    have hsize := (hroot hlist.up).getSize_ne hwf
    exact namingListNamespaces_ne_ok hsize hlist.ok
  · intro hup
    exact (hroot hup).mem_filter hwf

def createNamespaceStep (n : ℕ) (name : Name) : Env Unit × Request Unit :=
  (countingEnv n, .createNamespace name cidAny)

/-- The server after one namespace was created. -/
def namespaceServer : Server :=
  Run.exec step (Server.init countingOids) [createNamespaceStep 0 fileName]

theorem namingListNamespaces_inexact_created :
    (¬ ListsExactly (countingEnv 1) namespaceServer [fileName] []) ∧
      rootName ∈ (namespaceServer.db.dirents.filter Dirent.parentOid
        Oid.zero).map fun d => clip d.name := by
  have hrequests : ∀ r ∈ [createNamespaceStep 0 fileName], OnNamespaces r.2 := by
    intro r hr
    rw [List.mem_singleton.mp hr]
    trivial
  obtain ⟨hinexact, hmem⟩ := namingListNamespaces_inexact countingOids_fresh
    hrequests ⟨by decide, trivial⟩
  exact ⟨hinexact _ _, (hmem rfl rootName).mpr (.inr (by decide))⟩

/-- With one namespace there are four entries to list, and the fifth is
written behind the buffer. -/
theorem namingListNamespaces_overruns :
    liveNamespaces (Server.init countingOids)
        [createNamespaceStep 0 fileName] = [fileName] ∧
      (namingListNamespaces (countingEnv 1)).outcome namespaceServer.db =
        .error .overrun ∧
      ¬ ∃ nss, ListsExactly (countingEnv 1) namespaceServer [fileName] nss := by
  refine ⟨rfl, rfl, ?_⟩
  rintro ⟨nss, hlist⟩
  have hsize : namingDbGetSize Oid.zero namespaceServer.db ≠ 0 := by decide
  exact namingListNamespaces_ne_ok hsize hlist.ok

end Lwfs.Naming
