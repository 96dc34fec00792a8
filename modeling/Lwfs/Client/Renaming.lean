import Lwfs.Client.Reachability
import Lwfs.Naming.RefCount

/-!
Renaming. `lwfs_inop_rename` makes a link under the new name and removes the
old entry. The link is an entry with an id of its own, and what stands in a
directory stands there under the id of the directory's entry, so nothing stands
under the new one. When the second request fails the link stays.
-/

namespace Lwfs.FsLwfs

open SysLib Routine Naming

variable {Mac : Type} {fs : FileSystem Mac} {env : FsEnv Mac} {s : Server}

/-! ### Paths -/

/-- The id of the entry at a path, with the last component in front. -/
def resolve (db : NamingDb) (root : Oid) : List Name → Option Oid
  | [] => some root
  | name :: parentPath =>
      (resolve db root parentPath).bind fun p =>
        (namingDbGetByName p name db).toOption.map fun e => e.dirent.oid

/-- The entry at a path that is not the root. -/
def denotes (db : NamingDb) (root : Oid) (name : Name) (parentPath : List Name) :
    Option DbEntry :=
  (resolve db root parentPath).bind fun p =>
    (namingDbGetByName p name db).toOption

/-- The path goes through the entry under the key. -/
def Passes (db : NamingDb) (root : Oid) (key : Db1Key) : List Name → Prop
  | [] => False
  | name :: parentPath =>
      Passes db root key parentPath ∨
        ∃ p, resolve db root parentPath = some p ∧ db1Keygen p name = key

theorem toOption_eq_some {α : Type} {x : Except Fault α} {a : α} :
    x.toOption = some a ↔ x = .ok a := by
  cases x with
  | error e => exact ⟨fun h => (nomatch h), fun h => (nomatch h)⟩
  | ok b => simp [Except.toOption]

theorem toOption_eq_none {α : Type} {x : Except Fault α} :
    x.toOption = none ↔ ∀ a, x ≠ .ok a := by
  cases x with
  | error e => exact iff_of_true rfl fun a h => nomatch h
  | ok b => exact iff_of_false (fun h => nomatch h) fun h => h b rfl

theorem denotes_of_resolve {db : NamingDb} {root p : Oid} {name : Name}
    {parentPath : List Name} (h : resolve db root parentPath = some p) :
    denotes db root name parentPath = (namingDbGetByName p name db).toOption := by
  rw [denotes, h]
  rfl

section Without

/-- Of the entries of `db`, `db'` lacks the one under `key`, and the inodes are
the same. -/
structure Lacks (db db' : NamingDb) (key : Db1Key) : Prop where
  gone : db'.dirents.lookup key = none
  kept : ∀ k d, k ≠ key → db.dirents.lookup k = some d →
    db'.dirents.lookup k = some d
  inodes : ∀ o, db'.inodes.lookup o = db.inodes.lookup o

variable {db db' : NamingDb} {key : Db1Key} (h : Lacks db db' key)

include h

theorem Lacks.get_ne {p : Oid} {name : Name} {e : DbEntry}
    (hne : db1Keygen p name ≠ key) (hget : namingDbGetByName p name db = .ok e) :
    namingDbGetByName p name db' = .ok e := by
  obtain ⟨hd, hi⟩ := namingDbGetByName_eq_ok.mp hget
  refine namingDbGetByName_eq_ok.mpr ⟨h.kept _ _ hne hd, ?_⟩
  rw [h.inodes]
  exact hi

theorem Lacks.get_self {p : Oid} {name : Name} (hkey : db1Keygen p name = key)
    (e : DbEntry) : namingDbGetByName p name db' ≠ .ok e := by
  intro hget
  obtain ⟨hd, -⟩ := namingDbGetByName_eq_ok.mp hget
  rw [hkey, h.gone] at hd
  cases hd

/-- A path that was there still leads where it led, if it does not go through
the entry that is gone, and nowhere otherwise. -/
theorem Lacks.resolve_iff {root : Oid} {path : List Name} {p : Oid}
    (hp : resolve db root path = some p) :
    (¬ Passes db root key path → resolve db' root path = some p) ∧
      (Passes db root key path → resolve db' root path = none) := by
  induction path generalizing p with
  | nil => exact ⟨fun _ => hp, fun hpass => hpass.elim⟩
  | cons name parentPath ih =>
      obtain ⟨q, hq, hname⟩ := Option.bind_eq_some_iff.mp hp
      obtain ⟨e, he, hoid⟩ := Option.map_eq_some_iff.mp hname
      obtain ⟨hkeep, hlose⟩ := ih hq
      have hget := toOption_eq_some.mp he
      constructor
      · intro hpass
        obtain ⟨hparent, hne⟩ := not_or.mp hpass
        have hget' := h.get_ne (fun hkey => hne ⟨q, hq, hkey⟩) hget
        simp only [resolve, hkeep hparent, Option.bind_some,
          toOption_eq_some.mpr hget', Option.map_some, hoid]
      · intro hpass
        by_cases hparent : Passes db root key parentPath
        · simp only [resolve, hlose hparent, Option.bind_none]
        · obtain hparent' | ⟨q', hq', hkey⟩ := hpass
          · exact absurd hparent' hparent
          obtain rfl := Option.some.inj (hq.symm.trans hq')
          have hnone := toOption_eq_none.mpr (h.get_self hkey)
          simp only [resolve, hkeep hparent, Option.bind_some, hnone,
            Option.map_none]

/-- What stood under the key is at no path any more. -/
theorem Lacks.denotes_eq_none {root : Oid} {parentPath : List Name} {p : Oid}
    {name : Name} (hp : resolve db root parentPath = some p)
    (hkey : db1Keygen p name = key) : denotes db' root name parentPath = none := by
  obtain ⟨hkeep, hlose⟩ := h.resolve_iff hp
  by_cases hpass : Passes db root key parentPath
  · rw [denotes, hlose hpass]
    rfl
  · rw [denotes_of_resolve (hkeep hpass)]
    exact toOption_eq_none.mpr (h.get_self hkey)

end Without

/-! ### The requests -/

/-- The error of a request becomes `-EIO`. -/
theorem serve_orEio_of_error {α : Type} {x : DbRoutine α} {e : Fault}
    {db : NamingDb} (hup : s.up = true) (h : x s.db = .error e db) :
    (serve x).mapOutcome orEio s =
      .error .eio ⟨db, survives (.error e : Except Fault α)⟩ := by
  have hserve := serve_of_error hup h
  refine mapOutcome_of_error hserve ?_
  cases e <;> rfl

theorem serve_orEio_of_ok {α : Type} {x : DbRoutine α} {a : α} {db : NamingDb}
    (hup : s.up = true) (h : x s.db = .ok a db) :
    (serve x).mapOutcome orEio s = .ok a ⟨db, true⟩ :=
  mapOutcome_of_ok (serve_of_ok hup h) rfl

theorem serve_orEio_of_down {α : Type} {x : DbRoutine α} (hdown : ¬ s.up = true) :
    (serve x).mapOutcome orEio s = .error .eio s :=
  mapOutcome_of_error (serve_of_down hdown) rfl

/-! ### The link -/

/-- The checks of the link succeed: it is put. -/
structure Linkable (fs : FileSystem Mac) (env : FsEnv Mac) (old new : Pnode)
    (db : NamingDb) (target : DbEntry) : Prop where
  permitted : permits (env.naming 0) new.parent fs.cap db = true
  readable : checkPerm (env.naming 0) old.parent.direntOid fs.cap containerRead db =
    .ok ()
  target : namingDbGetByName old.parent.direntOid old.name db = .ok target
  free : db1Keygen new.parent.direntOid new.name ∉ db.dirents

/-- Both names fit in their buffers. -/
def Short (old new : Pnode) : Prop :=
  new.name.length < nameLen ∧ old.name.length < nameLen

instance (old new : Pnode) : Decidable (Short old new) :=
  inferInstanceAs (Decidable (_ ∧ _))

/-- The entry that the link puts. -/
def linkEntryOf (env : FsEnv Mac) (new : Pnode) (target : DbEntry) : DbEntry :=
  linkTo (env.naming 0) new.parent.direntOid new.name target

theorem linkEntryOf_key (env : FsEnv Mac) (new : Pnode) (target : DbEntry) :
    (linkEntryOf env new target).dirent.key =
      db1Keygen new.parent.direntOid new.name :=
  congrArg (Db1Key.mk new.parent.direntOid) (clip_clip new.name)

section Link

variable {old new : Pnode} {target : DbEntry}

theorem lwfsInopLink_of_short (h : Short old new) :
    lwfsInopLink fs env old new s =
      (serve (namingCreateLink (env.naming 0) new.parent new.name fs.cap
        old.parent old.name fs.cap)).mapOutcome orEio s := by
  refine (bind_of_ok (copyPnodeName_eq_ok.mpr ⟨⟨h.1, rfl⟩, rfl⟩)).trans ?_
  exact bind_of_ok (copyPnodeName_eq_ok.mpr ⟨⟨h.2, rfl⟩, rfl⟩)

theorem lwfsInopLink_of_not_short (h : ¬ Short old new) :
    lwfsInopLink fs env old new s = .error .overrun s := by
  have hlong : ∀ pno : Pnode, ¬ pno.name.length < nameLen →
      copyPnodeName pno s = .error .overrun s := by
    intro pno hpno
    rw [copyPnodeName, if_neg hpno]
    rfl
  by_cases hnew : new.name.length < nameLen
  · have hold : ¬ old.name.length < nameLen := fun hold => h ⟨hnew, hold⟩
    exact (bind_of_ok (copyPnodeName_eq_ok.mpr ⟨⟨hnew, rfl⟩, rfl⟩)).trans
      (bind_of_error (hlong old hold))
  · exact bind_of_error (hlong new hnew)

theorem namingCreateLink_of_linkable {db : NamingDb}
    (h : Linkable fs env old new db target) :
    namingCreateLink (env.naming 0) new.parent new.name fs.cap old.parent old.name
        fs.cap db =
      (namingDbPut (linkEntryOf env new target) true >>= fun _ =>
        Routine.reader (copyDbToNsEntry (linkEntryOf env new target))) db := by
  obtain ⟨hparent, hperm⟩ := permits_iff.mp h.permitted
  refine (reader_bind_ok (f := fun _ => checkParent new.parent) hparent).trans ?_
  refine (reader_bind_ok hperm).trans ?_
  refine (reader_bind_ok h.readable).trans ?_
  exact reader_bind_ok h.target

/-- The link is made. -/
theorem lwfsInopLink_of_linkable (hwf : WellFormed s.db) (hno : NoLinkObj s.db)
    (hup : s.up = true) (hshort : Short old new)
    (h : Linkable fs env old new s.db target)
    (hoid : target.dirent.oid ≠ Oid.zero) :
    ∃ e, lwfsInopLink fs env old new s =
      .ok e ⟨withLink s.db (linkEntryOf env new target) target, true⟩ := by
  obtain ⟨-, hi⟩ := namingDbGetByName_eq_ok.mp h.target
  have hkey : (linkEntryOf env new target).dirent.key ∉ s.db.dirents := by
    rw [linkEntryOf_key]
    exact h.free
  have htype : (linkEntryOf env new target).inode.entryObj.type ≠ linkEntry := by
    show target.inode.entryObj.type ≠ linkEntry
    exact hno _ _ hi
  have hput : namingDbPut (linkEntryOf env new target) true s.db =
      .ok () (withLink s.db (linkEntryOf env new target) target) :=
    namingDbPut_linkTo hwf hoid hi hkey
  have hcopy := reader_of_ok (f := copyDbToNsEntry (linkEntryOf env new target))
    (s := withLink s.db (linkEntryOf env new target) target)
    (copyDbToNsEntry_of_type htype)
  have hcreate := (namingCreateLink_of_linkable h).trans
    ((bind_of_ok hput).trans hcopy)
  exact ⟨_, (lwfsInopLink_of_short hshort).trans (serve_orEio_of_ok hup hcreate)⟩

/-- The link to the record of the latest id fails after its entry was put. -/
theorem lwfsInopLink_of_zero (hwf : WellFormed s.db) (hup : s.up = true)
    (hshort : Short old new) (h : Linkable fs env old new s.db target)
    (hoid : target.dirent.oid = Oid.zero) :
    lwfsInopLink fs env old new s =
      .error .eio ⟨s.db.addDirent (linkEntryOf env new target).dirent, true⟩ := by
  obtain ⟨-, hi⟩ := namingDbGetByName_eq_ok.mp h.target
  have hkey : (linkEntryOf env new target).dirent.key ∉ s.db.dirents := by
    rw [linkEntryOf_key]
    exact h.free
  have hput : namingDbPut (linkEntryOf env new target) true s.db =
      .error (.code .errExist)
        (s.db.addDirent (linkEntryOf env new target).dirent) :=
    namingDbPut_linkTo_zero hwf hoid hi hkey
  have hcreate := (namingCreateLink_of_linkable h).trans (bind_of_error hput)
  exact (lwfsInopLink_of_short hshort).trans (serve_orEio_of_error hup hcreate)

/-- A check fails, and nothing is put. -/
theorem namingCreateLink_of_not_linkable {db : NamingDb}
    (h : ∀ target, ¬ Linkable fs env old new db target) :
    ∃ e, namingCreateLink (env.naming 0) new.parent new.name fs.cap old.parent
      old.name fs.cap db = .error e db := by
  cases hparent : checkParent new.parent with
  | error e => exact ⟨e, bind_of_error (reader_of_error hparent)⟩
  | ok u =>
  have hcreate := reader_bind_ok (f := fun _ : NamingDb => checkParent new.parent)
    (s := db) hparent (g := fun _ => do
      Routine.reader (checkPerm (env.naming 0) new.parent.direntOid fs.cap
        containerWrite)
      Routine.reader (checkPerm (env.naming 0) old.parent.direntOid fs.cap
        containerRead)
      let target ← Routine.reader
        (namingDbGetByName old.parent.direntOid old.name)
      let entry := linkTo (env.naming 0) new.parent.direntOid new.name target
      namingDbPut entry true
      Routine.reader (copyDbToNsEntry entry))
  rw [namingCreateLink, hcreate]
  cases hperm : checkPerm (env.naming 0) new.parent.direntOid fs.cap
      containerWrite db with
  | error e => exact ⟨e, bind_of_error (reader_of_error hperm)⟩
  | ok u =>
  rw [reader_bind_ok hperm]
  cases hread : checkPerm (env.naming 0) old.parent.direntOid fs.cap
      containerRead db with
  | error e => exact ⟨e, bind_of_error (reader_of_error hread)⟩
  | ok u =>
  rw [reader_bind_ok hread]
  cases hget : namingDbGetByName old.parent.direntOid old.name db with
  | error e => exact ⟨e, bind_of_error (reader_of_error hget)⟩
  | ok target =>
  rw [reader_bind_ok hget]
  have hmem : db1Keygen new.parent.direntOid new.name ∈ db.dirents := by
    by_contra hfree
    exact h target ⟨permits_iff.mpr ⟨hparent, hperm⟩, hread, hget, hfree⟩
  have hkey : (linkEntryOf env new target).dirent.key ∈ db.dirents := by
    rw [linkEntryOf_key]
    exact hmem
  exact ⟨_, bind_of_error (namingDbPut_of_mem hkey)⟩

theorem lwfsInopLink_of_not_linkable (hshort : Short old new)
    (h : s.up = true → ∀ target, ¬ Linkable fs env old new s.db target) :
    ∃ t, lwfsInopLink fs env old new s = .error .eio t ∧ t.db = s.db := by
  rw [lwfsInopLink_of_short hshort]
  by_cases hup : s.up = true
  · obtain ⟨e, he⟩ := namingCreateLink_of_not_linkable (h hup)
    exact ⟨_, serve_orEio_of_error hup he, rfl⟩
  · exact ⟨s, serve_orEio_of_down hup, rfl⟩

end Link

/-! ### The removal -/

section Unlink

variable {call : ℕ} {pno : Pnode} {e : DbEntry}

theorem namingUnlink_of_permits {naming : Env Mac} {parent : NsEntry} {name : Name}
    {cap : Cap Mac} {db : NamingDb} (h : permits naming parent cap db = true) :
    namingUnlink naming parent name cap db =
      (removeEntry parent.direntOid name >>= fun entry =>
        Routine.reader (copyDbToNsEntry entry)) db := by
  obtain ⟨hparent, hperm⟩ := permits_iff.mp h
  refine (reader_bind_ok (f := fun _ => checkParent parent) hparent).trans ?_
  exact reader_bind_ok hperm

theorem namingUnlink_of_not_permits {naming : Env Mac} {parent : NsEntry}
    {name : Name} {cap : Cap Mac} {db : NamingDb}
    (h : permits naming parent cap db ≠ true) :
    ∃ e, namingUnlink naming parent name cap db = .error e db := by
  cases hparent : checkParent parent with
  | error e => exact ⟨e, bind_of_error (reader_of_error hparent)⟩
  | ok u =>
    cases hperm : checkPerm naming parent.direntOid cap containerWrite db with
    | error e =>
        exact ⟨e, (reader_bind_ok (f := fun _ => checkParent parent) hparent).trans
          (bind_of_error (reader_of_error hperm))⟩
    | ok u => exact absurd (permits_iff.mpr ⟨hparent, hperm⟩) h

/-- The database without an entry that its inode counts. -/
inductive Unlinked (db : NamingDb) (target : DbEntry) : NamingDb → Prop
  | last (hcnt : target.inode.refCnt - 1 = 0) :
      Unlinked db target
        ((db.delDirent target.dirent).delInode target.dirent.inodeOid)
  | more (hcnt : 0 < target.inode.refCnt - 1) :
      Unlinked db target
        ((db.delDirent target.dirent).putInode target.decremented.inode)

/-- The entry is removed and returned with the count that it leaves. -/
theorem namingUnlink_of_unlinked {naming : Env Mac} {parent : NsEntry}
    {name : Name} {cap : Cap Mac} {db db' : NamingDb} (hwf : WellFormed db)
    (hno : NoLinkObj db) (hpermits : permits naming parent cap db = true)
    (hget : namingDbGetByName parent.direntOid name db = .ok e)
    (hu : Unlinked db e db') :
    namingUnlink naming parent name cap db = .ok e.decremented.nsEntry db' := by
  obtain ⟨-, hi⟩ := namingDbGetByName_eq_ok.mp hget
  have htype : e.decremented.inode.entryObj.type ≠ linkEntry := by
    show e.inode.entryObj.type ≠ linkEntry
    exact hno _ _ hi
  have hremove : removeEntry parent.direntOid name db = .ok e.decremented db' := by
    cases hu with
    | last hcnt => exact mapOutcome_of_ok (namingDbDel_last hwf hget hcnt) rfl
    | more hcnt => exact mapOutcome_of_ok (namingDbDel_more hwf hget hcnt) rfl
  have hcopy := reader_of_ok (f := copyDbToNsEntry e.decremented) (s := db')
    (copyDbToNsEntry_of_type htype)
  exact (namingUnlink_of_permits hpermits).trans ((bind_of_ok hremove).trans hcopy)

theorem removeFileObjs_of_linked {entry : NsEntry} (h : entry.linkCnt ≠ 0) :
    removeFileObjs env entry = pure () := by
  unfold removeFileObjs
  cases entry.fileObj with
  | none => rfl
  | some obj => exact if_neg h

theorem lwfsInopUnlink_of_cap {cap : Cap Mac} (hshort : pno.name.length < nameLen)
    (hcap : env.checkCapCache pno.parent.entryObj.cid containerWrite = .ok cap) :
    lwfsInopUnlink env call pno s =
      ((serve (namingUnlink (env.naming call) pno.parent pno.name
        cap)).mapOutcome orEio >>= removeFileObjs env) s := by
  refine (bind_of_ok (copyPnodeName_eq_ok.mpr ⟨⟨hshort, rfl⟩, rfl⟩)).trans ?_
  exact bind_of_ok (checkCap_eq_ok.mpr ⟨hcap, rfl⟩)

/-- The removal is refused, and nothing has changed. -/
theorem lwfsInopUnlink_of_not_takes (hup : s.up = true)
    (hshort : pno.name.length < nameLen)
    (h : ∀ e, ¬ Takes (env.naming call) env pno s.db e) :
    ∃ f t, lwfsInopUnlink env call pno s = .error f t ∧ t.db = s.db := by
  cases hcap : env.checkCapCache pno.parent.entryObj.cid containerWrite with
  | error rc =>
      have hcheck : checkCap env pno.parent.entryObj.cid containerWrite s =
          .error (.code rc) s := by
        rw [checkCap, hcap]
        rfl
      exact ⟨_, s, (bind_of_ok
        (copyPnodeName_eq_ok.mpr ⟨⟨hshort, rfl⟩, rfl⟩)).trans (bind_of_error hcheck),
        rfl⟩
  | ok cap =>
      rw [lwfsInopUnlink_of_cap hshort hcap]
      by_cases hpermits : permits (env.naming call) pno.parent cap s.db = true
      · cases hget : namingDbGetByName pno.parent.direntOid pno.name s.db with
        | ok e => exact absurd ⟨hshort, cap, hcap, hpermits, hget⟩ (h e)
        | error f =>
            have hremove : ∃ f', removeEntry pno.parent.direntOid pno.name s.db =
                .error f' s.db := by
              cases f <;> exact ⟨_, mapOutcome_of_error (namingDbDel_of_error hget) rfl⟩
            obtain ⟨f', hremove⟩ := hremove
            have hunlink := (namingUnlink_of_permits hpermits).trans
              (bind_of_error hremove)
            exact ⟨_, _, bind_of_error (serve_orEio_of_error hup hunlink), rfl⟩
      · obtain ⟨f, hunlink⟩ : ∃ f, namingUnlink (env.naming call) pno.parent pno.name
            cap s.db = .error f s.db := namingUnlink_of_not_permits hpermits
        exact ⟨_, _, bind_of_error (serve_orEio_of_error hup hunlink), rfl⟩

section Takes

variable (hwf : WellFormed s.db) (hno : NoLinkObj s.db) (hup : s.up = true)
  (h : Takes (env.naming call) env pno s.db e)

include hwf hno hup h

/-- An entry of several is removed. -/
theorem lwfsInopUnlink_of_more (hcnt : 0 < e.inode.refCnt - 1) :
    lwfsInopUnlink env call pno s =
      .ok () ⟨(s.db.delDirent e.dirent).putInode e.decremented.inode, true⟩ := by
  obtain ⟨hshort, cap, hcap, hpermits, hget⟩ := h
  have hunlink := namingUnlink_of_unlinked hwf hno hpermits hget (.more hcnt)
  have hne : e.decremented.nsEntry.linkCnt ≠ 0 := fun hzero => by
    rw [show e.inode.refCnt - 1 = 0 from hzero] at hcnt
    exact absurd hcnt (by decide)
  rw [lwfsInopUnlink_of_cap hshort hcap]
  refine (bind_of_ok (serve_orEio_of_ok hup hunlink)).trans ?_
  rw [removeFileObjs_of_linked hne]
  rfl

/-- The last entry that is counted is removed. -/
theorem lwfsInopUnlink_of_last (hcnt : e.inode.refCnt - 1 = 0) :
    ((lwfsInopUnlink env call pno).final s).db =
      (s.db.delDirent e.dirent).delInode e.dirent.inodeOid := by
  obtain ⟨hshort, cap, hcap, hpermits, hget⟩ := h
  have hunlink := namingUnlink_of_unlinked hwf hno hpermits hget (.last hcnt)
  rw [final_congr (lwfsInopUnlink_of_cap hshort hcap),
    final_bind_of_quiet final_removeFileObjs,
    final_of_ok (serve_orEio_of_ok hup hunlink)]

omit hno in
/-- The count would become negative, and the server aborts. -/
theorem lwfsInopUnlink_of_negative (hcnt : e.inode.refCnt - 1 < 0) :
    ∃ f t, lwfsInopUnlink env call pno s = .error f t ∧
      t.db = s.db.delDirent e.dirent := by
  obtain ⟨hshort, cap, hcap, hpermits, hget⟩ := h
  have hremove : removeEntry pno.parent.direntOid pno.name s.db =
      .error .abort (s.db.delDirent e.dirent) :=
    mapOutcome_of_error (namingDbDel_negative hwf hget hcnt) rfl
  have hunlink := (namingUnlink_of_permits hpermits).trans (bind_of_error hremove)
  rw [lwfsInopUnlink_of_cap hshort hcap]
  exact ⟨_, _, bind_of_error (serve_orEio_of_error hup hunlink), rfl⟩

end Takes

end Unlink

/-! ### The database in between and after -/

section Databases

variable {db : NamingDb} {entry target : DbEntry} {naming : Env Mac} {old : Pnode}

/-- The target with the count that the link has incremented. -/
def linked (target : DbEntry) : DbEntry :=
  ⟨target.dirent, target.inode.withRefCnt (target.inode.refCnt + 1)⟩

theorem lookup_inodes_withLink (hwf : WellFormed db)
    (hi : db.inodes.lookup target.dirent.inodeOid = some target.inode) {o : Oid}
    {i : Inode} (h : db.inodes.lookup o = some i) :
    ∃ i', (withLink db entry target).inodes.lookup o = some i' ∧
      i'.entryObj = i.entryObj := by
  have hoid := hwf.inode_oid _ _ hi
  by_cases ho : o = target.dirent.inodeOid
  · subst ho
    obtain rfl := Option.some.inj (hi.symm.trans h)
    exact ⟨_, lookup_putInode_self hoid, rfl⟩
  · have hne : (target.inode.withRefCnt
        (target.inode.refCnt + 1)).entryObj.oid ≠ o := by
      rw [withRefCnt_oid, hoid]
      exact Ne.symm ho
    exact ⟨i, (lookup_putInode_ne hne).trans h, rfl⟩

theorem permits_withLink (hkey : entry.dirent.key ∉ db.dirents)
    (hwf : WellFormed db) (hwf' : WellFormed (withLink db entry target))
    (hi : db.inodes.lookup target.dirent.inodeOid = some target.inode)
    {parent : NsEntry} {cap : Cap Mac} (h : permits naming parent cap db = true) :
    permits naming parent cap (withLink db entry target) = true := by
  obtain ⟨hparent, hperm⟩ := permits_iff.mp h
  obtain ⟨p, hget, hcid, hop, hverify⟩ := checkPerm_eq_ok.mp hperm
  obtain ⟨⟨k, hfind⟩, hpi⟩ := namingDbGetByOid_eq_ok.mp hget
  obtain ⟨hd, hoid⟩ := Table.lookup_of_find hfind
  obtain ⟨i', hi', hobj⟩ : ∃ i',
      (withLink db entry target).inodes.lookup p.dirent.inodeOid = some i' ∧
        i'.entryObj = p.inode.entryObj := lookup_inodes_withLink hwf hi hpi
  have hfind' := hwf'.unique.find_eq (lookup_withLink hkey hd)
  rw [hoid] at hfind'
  have hget' : namingDbGetByOid parent.direntOid (withLink db entry target) =
      .ok ⟨p.dirent, i'⟩ := namingDbGetByOid_eq_ok.mpr ⟨⟨k, hfind'⟩, hi'⟩
  refine permits_iff.mpr ⟨hparent, checkPerm_eq_ok.mpr ⟨_, hget', ?_, hop, hverify⟩⟩
  show i'.entryObj.cid = cidAny ∨ i'.entryObj.cid = cap.data.cid
  rw [hobj]
  exact hcid

theorem takes_withLink (hkey : entry.dirent.key ∉ db.dirents)
    (hwf : WellFormed db) (hwf' : WellFormed (withLink db entry target))
    (h : Takes naming env old db target) :
    Takes naming env old (withLink db entry target) (linked target) := by
  obtain ⟨hshort, cap, hcap, hpermits, hget⟩ := h
  obtain ⟨hd, hi⟩ := namingDbGetByName_eq_ok.mp hget
  have hpermits' := permits_withLink hkey hwf hwf' hi hpermits
  have hoid := hwf.inode_oid _ _ hi
  refine ⟨hshort, cap, hcap, hpermits', namingDbGetByName_eq_ok.mpr ⟨?_, ?_⟩⟩
  · exact lookup_withLink hkey hd
  · exact lookup_putInode_self hoid

/-- The database after a renaming. -/
def renamedDb (db : NamingDb) (entry target : DbEntry) : NamingDb :=
  ((withLink db entry target).delDirent target.dirent).putInode
    (linked target).decremented.inode

theorem decremented_linked (target : DbEntry) :
    (linked target).decremented.inode = target.inode := by
  show target.inode.withRefCnt (target.inode.refCnt + 1 - 1) = target.inode
  rw [Int32.add_sub_cancel]
  rfl

/-- The old entry is gone, the others are there, and the inodes are the same. -/
theorem lacks_renamedDb (hkey : entry.dirent.key ∉ db.dirents)
    (hwf : WellFormed db)
    (hi : db.inodes.lookup target.dirent.inodeOid = some target.inode) :
    Lacks db (renamedDb db entry target) target.dirent.key where
  gone := AList.lookup_erase _ _
  kept k d hne h := (AList.lookup_erase_ne hne).trans (lookup_withLink hkey h)
  inodes o := by
    have hoid := hwf.inode_oid _ _ hi
    rw [renamedDb, decremented_linked]
    by_cases ho : target.inode.entryObj.oid = o
    · rw [lookup_putInode_self ho, ← ho, hoid, hi]
    · rw [lookup_putInode_ne ho]
      exact lookup_putInode_ne ho

theorem lookup_renamedDb (hne : entry.dirent.key ≠ target.dirent.key) :
    (renamedDb db entry target).dirents.lookup entry.dirent.key =
      some entry.dirent :=
  (AList.lookup_erase_ne hne).trans (AList.lookup_insert _)

end Databases

/-! ### What a renaming promises -/

/-- The entry is a directory or a namespace. -/
def IsDir (e : DbEntry) : Prop :=
  e.inode.entryObj.type = dirEntry ∨ e.inode.entryObj.type = nsObj

/-- Under the entry with the id `p` the name stands for the inode `o`. -/
def Stands (db : NamingDb) (p : Oid) (name : Name) (o : Oid) : Prop :=
  ∃ k d, db.dirents.lookup k = some d ∧ d.parentOid = p ∧ clip d.name = name ∧
    d.inodeOid = o

/-- The new name stands for the inode of the old name, with its count and all
it holds, and the same names stand under it if it is a directory. The old name
stands for nothing. -/
def Preserved (db db' : NamingDb) (root : Oid) (oldName : Name)
    (oldParent : List Name) (newName : Name) (newParent : List Name) : Prop :=
  ∃ e e', denotes db root oldName oldParent = some e ∧
    denotes db' root newName newParent = some e' ∧
    e'.dirent.inodeOid = e.dirent.inodeOid ∧ e'.inode = e.inode ∧
    (IsDir e → ∀ name o,
      Stands db' e'.dirent.oid name o ↔ Stands db e.dirent.oid name o) ∧
    denotes db' root oldName oldParent = none

/-- After a success the tree is preserved, and after a failure the database is
as before. -/
def Renamed (fs : FileSystem Mac) (env : FsEnv Mac) (root : Oid) (old new : Pnode)
    (oldParent newParent : List Name) (s : Server) : Prop :=
  match lwfsInopRename fs env old new s with
  | .ok _ t =>
      Preserved s.db t.db root old.name oldParent new.name newParent
  | .error .overrun _ => False
  | .error _ t => t.db = s.db

/-- The names fit. If the link is put, it is one that counts, the old entry
can be removed, its inode is counted, nothing stands under it, and the new name
does not either. -/
def Renamable (fs : FileSystem Mac) (env : FsEnv Mac) (root : Oid)
    (old new : Pnode) (newParent : List Name) (s : Server) : Prop :=
  Short old new ∧ (s.up = true → ∀ target, Linkable fs env old new s.db target →
    target.dirent.oid ≠ Oid.zero ∧ Takes (env.naming 1) env old s.db target ∧
      0 < target.inode.refCnt ∧
      (IsDir target → ∀ name o, ¬ Stands s.db target.dirent.oid name o) ∧
      ¬ Passes s.db root target.dirent.key newParent)

section Rename

variable {root : Oid} {old new : Pnode} {oldParent newParent : List Name}
  {target : DbEntry}

theorem renamed_of_ok {u : Unit} {t : Server}
    (h : lwfsInopRename fs env old new s = .ok u t) :
    Renamed fs env root old new oldParent newParent s ↔
      Preserved s.db t.db root old.name oldParent new.name newParent := by
  rw [Renamed, h]

theorem not_renamed_of_error {f : FsError} {t : Server}
    (h : lwfsInopRename fs env old new s = .error f t) (hne : t.db ≠ s.db) :
    ¬ Renamed fs env root old new oldParent newParent s := by
  rw [Renamed, h]
  cases f <;> simp [hne]

/-- The new name is in the way of what was before. -/
theorem ne_of_new_key {db db' : NamingDb} {k : Db1Key} (hfree : k ∉ db.dirents)
    {d : Dirent} (h : db'.dirents.lookup k = some d) : db' ≠ db := by
  rintro rfl
  exact hfree (Table.mem_of_lookup h)

theorem stands_renamedDb {db : NamingDb} {entry : DbEntry} {p : Oid} {name : Name} {o : Oid}
    (hnone : ∀ k d, db.dirents.lookup k = some d → d.parentOid ≠ p)
    (hparent : entry.dirent.parentOid ≠ p) :
    ¬ Stands (renamedDb db entry target) p name o := by
  rintro ⟨k, d, hd, hp, -, -⟩
  obtain ⟨-, hd⟩ := lookup_of_lookup_erase (show
    ((withLink db entry target).delDirent target.dirent).dirents.lookup k = some d
    from hd)
  rcases lookup_addDirent (show (db.addDirent entry.dirent).dirents.lookup k =
    some d from hd) with ⟨-, rfl⟩ | hd
  · exact hparent hp
  · exact hnone k d hd hp

section Linked

variable (hwf : WellFormed s.db) (hno : NoLinkObj s.db) (hup : s.up = true)
  (hnew : NewIds (env.naming 0) s.db) (hshort : Short old new)
  (h : Linkable fs env old new s.db target)

theorem Linkable.key_notMem {db : NamingDb} (h : Linkable fs env old new db target) :
    (linkEntryOf env new target).dirent.key ∉ db.dirents := by
  rw [linkEntryOf_key]
  exact h.free

theorem Linkable.key_target (hwf : WellFormed s.db)
    (h : Linkable fs env old new s.db target) :
    db1Keygen old.parent.direntOid old.name = target.dirent.key ∧
      s.db.dirents.lookup target.dirent.key = some target.dirent ∧
      s.db.inodes.lookup target.dirent.inodeOid = some target.inode := by
  obtain ⟨hd, hi⟩ := namingDbGetByName_eq_ok.mp h.target
  have hkey := hwf.key_eq _ _ hd
  exact ⟨hkey, hkey ▸ hd, hi⟩

include hwf hnew h in
theorem wellFormed_withLink :
    WellFormed (withLink s.db (linkEntryOf env new target) target) := by
  have hadd : Addable s.db (linkEntryOf env new target).dirent :=
    ⟨h.key_notMem, hnew.fresh.direntOid_ne, hnew.fresh.dirent⟩
  exact (hadd.wellFormed hwf).putInode _

include hwf hno h in
theorem noLinkObj_withLink :
    NoLinkObj (withLink s.db (linkEntryOf env new target) target) := by
  obtain ⟨-, -, hi⟩ := h.key_target hwf
  have hadd : NoLinkObj (s.db.addDirent (linkEntryOf env new target).dirent) := hno
  have htype : target.inode.entryObj.type ≠ linkEntry := hno _ _ hi
  exact hadd.putInode htype

include hwf hno hup hshort h in
/-- After the link was made the renaming is a removal. -/
theorem lwfsInopRename_of_linkable (hoid : target.dirent.oid ≠ Oid.zero) :
    lwfsInopRename fs env old new s = lwfsInopUnlink env 1 old
      ⟨withLink s.db (linkEntryOf env new target) target, true⟩ := by
  obtain ⟨e, hlink⟩ := lwfsInopLink_of_linkable hwf hno hup hshort h hoid
  exact bind_of_ok hlink

theorem lookup_new_withLink (db : NamingDb) (target : DbEntry) :
    (withLink db (linkEntryOf env new target) target).dirents.lookup
      (db1Keygen new.parent.direntOid new.name) =
        some (linkEntryOf env new target).dirent := by
  rw [← linkEntryOf_key env new target]
  exact AList.lookup_insert _

include hwf h in
theorem new_key_ne : db1Keygen new.parent.direntOid new.name ≠ target.dirent.key := by
  intro heq
  obtain ⟨-, hd, -⟩ := h.key_target hwf
  refine h.free ?_
  rw [heq]
  exact Table.mem_of_lookup hd

include hwf h in
theorem lookup_new_delDirent :
    ((withLink s.db (linkEntryOf env new target) target).delDirent
      target.dirent).dirents.lookup (db1Keygen new.parent.direntOid new.name) =
        some (linkEntryOf env new target).dirent :=
  (AList.lookup_erase_ne (new_key_ne hwf h)).trans (lookup_new_withLink s.db target)

include hwf hno hup hnew hshort h

/-- The old entry stays. -/
theorem not_renamed_of_not_takes (hoid : target.dirent.oid ≠ Oid.zero)
    (htakes : ¬ Takes (env.naming 1) env old s.db target) :
    ¬ Renamed fs env root old new oldParent newParent s := by
  have hwf' := wellFormed_withLink hwf hnew h
  have hnot : ∀ e, ¬ Takes (env.naming 1) env old
      (withLink s.db (linkEntryOf env new target) target) e := fun e he =>
    htakes (takes_of_withLink h.key_notMem hwf hwf' h.target h.readable he).1
  obtain ⟨f, t, hunlink, ht⟩ := lwfsInopUnlink_of_not_takes
    (s := ⟨withLink s.db (linkEntryOf env new target) target, true⟩) rfl
    hshort.2 hnot
  refine not_renamed_of_error ((lwfsInopRename_of_linkable hwf hno hup hshort h
    hoid).trans hunlink) ?_
  rw [ht]
  exact ne_of_new_key h.free (lookup_new_withLink s.db target)

omit hno hup hshort in
theorem takes_linked (htakes : Takes (env.naming 1) env old s.db target) :
    Takes (env.naming 1) env old
      (withLink s.db (linkEntryOf env new target) target) (linked target) :=
  takes_withLink h.key_notMem hwf (wellFormed_withLink hwf hnew h) htakes

/-- The inode goes with the old entry, or the server aborts. -/
theorem not_renamed_of_uncounted (hoid : target.dirent.oid ≠ Oid.zero)
    (hold : resolve s.db root oldParent = some old.parent.direntOid)
    (htakes : Takes (env.naming 1) env old s.db target)
    (hcnt : ¬ 0 < target.inode.refCnt) :
    ¬ Renamed fs env root old new oldParent newParent s := by
  have hwf' := wellFormed_withLink hwf hnew h
  have hno' := noLinkObj_withLink hwf hno h
  have hlinked := takes_linked hwf hnew h htakes
  have hrename := lwfsInopRename_of_linkable hwf hno hup hshort h hoid
  have hback : (linked target).inode.refCnt - 1 = target.inode.refCnt :=
    Int32.add_sub_cancel _ _
  rcases refCnt_trichotomy target.inode.refCnt with hzero | hpos | hneg
  · have hfinal := lwfsInopUnlink_of_last
      (s := ⟨withLink s.db (linkEntryOf env new target) target, true⟩)
      hwf' hno' rfl hlinked (hback.trans hzero)
    rw [← final_congr hrename] at hfinal
    cases hresult : lwfsInopRename fs env old new s with
    | error f t =>
        refine not_renamed_of_error hresult ?_
        rw [final_of_error hresult] at hfinal
        rw [hfinal]
        have hkey := lookup_new_delDirent hwf h
        exact ne_of_new_key h.free hkey
    | ok u t =>
        rw [renamed_of_ok hresult]
        rw [final_of_ok hresult] at hfinal
        rintro ⟨e, e', he, he', hinode, -⟩
        -- the new name leads to an inode, and that is deleted
        rw [denotes_of_resolve hold, toOption_eq_some] at he
        obtain rfl := Except.ok.inj (h.target.symm.trans he)
        obtain ⟨p, -, hget⟩ := Option.bind_eq_some_iff.mp he'
        obtain ⟨-, hi⟩ := namingDbGetByName_eq_ok.mp (toOption_eq_some.mp hget)
        rw [hinode, hfinal] at hi
        have hnone : (((withLink s.db (linkEntryOf env new target)
            target).delDirent target.dirent).delInode
            target.dirent.inodeOid).inodes.lookup target.dirent.inodeOid = none :=
          lookup_delInode_self
        cases hi.symm.trans hnone
  · exact absurd hpos hcnt
  · obtain ⟨f, t, hunlink, ht⟩ := lwfsInopUnlink_of_negative
      (s := ⟨withLink s.db (linkEntryOf env new target) target, true⟩)
      hwf' rfl hlinked (by rw [hback]; exact hneg)
    refine not_renamed_of_error (hrename.trans hunlink) ?_
    rw [ht]
    have hkey := lookup_new_delDirent hwf h
    exact ne_of_new_key h.free hkey

omit hnew in
/-- The renaming succeeds. -/
theorem lwfsInopRename_of_takes (hnew : NewIds (env.naming 0) s.db)
    (hoid : target.dirent.oid ≠ Oid.zero)
    (htakes : Takes (env.naming 1) env old s.db target)
    (hcnt : 0 < target.inode.refCnt) :
    lwfsInopRename fs env old new s =
      .ok () ⟨renamedDb s.db (linkEntryOf env new target) target, true⟩ := by
  have hback : (linked target).inode.refCnt - 1 = target.inode.refCnt :=
    Int32.add_sub_cancel _ _
  have hunlink := lwfsInopUnlink_of_more
    (s := ⟨withLink s.db (linkEntryOf env new target) target, true⟩)
    (wellFormed_withLink hwf hnew h) (noLinkObj_withLink hwf hno h) rfl
    (takes_linked hwf hnew h htakes) (by rw [hback]; exact hcnt)
  exact (lwfsInopRename_of_linkable hwf hno hup hshort h hoid).trans hunlink

/-- What a renaming that succeeds preserves. -/
theorem renamed_of_takes (hoid : target.dirent.oid ≠ Oid.zero)
    (hold : resolve s.db root oldParent = some old.parent.direntOid)
    (hpath : resolve s.db root newParent = some new.parent.direntOid)
    (htakes : Takes (env.naming 1) env old s.db target)
    (hcnt : 0 < target.inode.refCnt) :
    Renamed fs env root old new oldParent newParent s ↔
      (IsDir target → ∀ name o, ¬ Stands s.db target.dirent.oid name o) ∧
        ¬ Passes s.db root target.dirent.key newParent := by
  obtain ⟨hkey, -, hi⟩ := h.key_target hwf
  have hlacks : Lacks s.db (renamedDb s.db (linkEntryOf env new target) target)
      target.dirent.key := lacks_renamedDb h.key_notMem hwf hi
  have hnewKey : (linkEntryOf env new target).dirent.key ≠ target.dirent.key := by
    rw [linkEntryOf_key]
    exact new_key_ne hwf h
  have hget' : namingDbGetByName new.parent.direntOid new.name
      (renamedDb s.db (linkEntryOf env new target) target) =
      .ok ⟨(linkEntryOf env new target).dirent, target.inode⟩ := by
    refine namingDbGetByName_eq_ok.mpr ⟨?_, ?_⟩
    · rw [← linkEntryOf_key env new target]
      exact lookup_renamedDb hnewKey
    · rw [hlacks.inodes]
      exact hi
  have hparent : (linkEntryOf env new target).dirent.parentOid ≠
      (linkEntryOf env new target).dirent.oid := by
    obtain ⟨-, hperm⟩ := permits_iff.mp h.permitted
    obtain ⟨p, hp, -⟩ := checkPerm_eq_ok.mp hperm
    obtain ⟨⟨k, hfind⟩, -⟩ := namingDbGetByOid_eq_ok.mp hp
    obtain ⟨hpd, hpoid⟩ := Table.lookup_of_find hfind
    intro heq
    exact hnew.fresh.dirent _ _ hpd (hpoid.trans heq)
  -- the new entry has a number that no entry names as its parent
  have hnothing : ∀ name o, ¬ Stands
      (renamedDb s.db (linkEntryOf env new target) target)
      (linkEntryOf env new target).dirent.oid name o := fun name o =>
    stands_renamedDb (fun k d hd => hnew.parent k d hd) hparent
  have htarget : denotes s.db root old.name oldParent = some target := by
    rw [denotes_of_resolve hold, toOption_eq_some]
    exact h.target
  obtain ⟨hkeep, hlose⟩ := hlacks.resolve_iff hpath
  rw [renamed_of_ok (lwfsInopRename_of_takes hwf hno hup hshort h hnew hoid
    htakes hcnt)]
  constructor
  · rintro ⟨e, e', he, he', -, -, hstands, -⟩
    obtain rfl := Option.some.inj (htarget.symm.trans he)
    have hpass : ¬ Passes s.db root target.dirent.key newParent := by
      intro hpass
      rw [denotes, hlose hpass] at he'
      cases he'
    refine ⟨fun hdir name o hold => ?_, hpass⟩
    rw [denotes_of_resolve (hkeep hpass), hget'] at he'
    obtain rfl := Option.some.inj he'
    exact hnothing name o ((hstands hdir name o).mpr hold)
  · rintro ⟨hchildless, hpass⟩
    refine ⟨target, ⟨(linkEntryOf env new target).dirent, target.inode⟩, htarget,
      ?_, ?_, ?_, ?_, ?_⟩
    · rw [denotes_of_resolve (hkeep hpass), hget']
      rfl
    · rfl
    · rfl
    · intro hdir name o
      exact iff_of_false (hnothing name o) (hchildless hdir name o)
    · exact hlacks.denotes_eq_none hold hkey

end Linked

end Rename

/-! ### A directory that is renamed -/

/-- A namespace with a directory in it. -/
def dirRun : List (Naming.Env Unit × Request Unit) :=
  [(countingEnv 0, .createNamespace fileName Obj.zero.cid),
    (countingEnv 1, .createDir mountedFs.root ['d'] Obj.zero.cid readWriteCap)]

/-- And a file in that. -/
def dirFileRun : List (Naming.Env Unit × Request Unit) :=
  dirRun ++ [(countingEnv 2, .createFile dirNsEntry fileName Obj.zero readWriteCap)]

def dirServer : Server := Run.exec step (Server.init countingOids) dirRun

def dirFileServer : Server := Run.exec step (Server.init countingOids) dirFileRun

/-- The new name. -/
def newNode : Pnode := ⟨mountedFs.root, ['e']⟩

/-- The directory as it is stored. -/
def storedDir : DbEntry :=
  newEntry (countingEnv 1) (oidOf 10) ['d'] dirEntry Obj.zero.cid none

theorem dirServer_reachable : Naming.Reachable Unit countingOids dirServer :=
  ⟨dirRun, ⟨by decide +kernel, by decide +kernel, trivial⟩, rfl⟩

theorem dirFileServer_reachable :
    Naming.Reachable Unit countingOids dirFileServer :=
  ⟨dirFileRun, ⟨by decide +kernel, by decide +kernel, by decide +kernel, trivial⟩,
    rfl⟩

end Lwfs.FsLwfs
