import Lwfs.Naming.Initial

/-!
Listing a directory and looking its names up.

`naming_lookup` finds an entry in the primary table by its parent and name,
`naming_list_dir` finds the entries of a parent through one secondary table,
and an id leads to its entry through the other. The inode comes from a table
of its own each time, and what a client gets is copied from both by the same
routine. That routine would follow a link, but no handler makes an inode of
the type of a link.
-/

namespace Lwfs.Naming

open SysLib Routine

/-! ### No inode has the type of a link -/

def NoLinkObj (db : NamingDb) : Prop :=
  ∀ o i, db.inodes.lookup o = some i → i.entryObj.type ≠ linkEntry

variable {db : NamingDb}

theorem lookup_putInode {i i' : Inode} {o : Oid}
    (h : (db.putInode i).inodes.lookup o = some i') :
    i' = i ∨ db.inodes.lookup o = some i' := by
  rw [NamingDb.putInode_inodes] at h
  by_cases ho : o = i.entryObj.oid
  · subst ho
    rw [AList.lookup_insert, Option.some.injEq] at h
    exact .inl h.symm
  · rw [AList.lookup_insert_ne ho] at h
    exact .inr h

theorem NoLinkObj.putInode (hdb : NoLinkObj db) {i : Inode}
    (hi : i.entryObj.type ≠ linkEntry) : NoLinkObj (db.putInode i) := by
  intro o i' h
  rcases lookup_putInode h with rfl | h
  · exact hi
  · exact hdb o i' h

theorem NoLinkObj.delInode (hdb : NoLinkObj db) (o : Oid) :
    NoLinkObj (db.delInode o) := by
  intro o' i h
  rw [NamingDb.delInode_inodes] at h
  have ho : o' ≠ o := by
    rintro rfl
    rw [AList.lookup_erase] at h
    cases h
  rw [AList.lookup_erase_ne ho] at h
  exact hdb o' i h

section Put

variable {Mac : Type} {env : Env Mac}

/-- The inode of an entry that a request puts is a namespace, a directory, a
file or what the target of a link is. -/
theorem type_of_puts (hdb : NoLinkObj db) {r : Request Mac} {entry : DbEntry}
    (h : puts env db r = some entry) :
    entry.inode.entryObj.type ≠ linkEntry := by
  cases r <;> simp only [puts, reduceCtorEq] at h
  case createNamespace name cid =>
    rw [← Option.some.inj h]
    show nsObj ≠ linkEntry
    decide
  case createDir parent name cid cap =>
    obtain ⟨-, heq⟩ := Option.ite_none_right_eq_some.mp h
    rw [← Option.some.inj heq]
    show dirEntry ≠ linkEntry
    decide
  case createFile parent name obj cap =>
    obtain ⟨-, heq⟩ := Option.ite_none_right_eq_some.mp h
    rw [← Option.some.inj heq]
    show fileEntry ≠ linkEntry
    decide
  case createLink parent name cap targetParent targetName targetCap =>
    obtain ⟨-, h⟩ := Option.ite_none_right_eq_some.mp h
    cases hget : namingDbGetByName targetParent.direntOid targetName db with
    | error e => simp only [hget, reduceCtorEq] at h
    | ok target =>
        simp only [hget, Option.some.injEq] at h
        obtain ⟨-, hi⟩ := namingDbGetByName_eq_ok.mp hget
        have htarget := hdb _ _ hi
        rw [← h]
        exact htarget

theorem noLinkObj_of_puts (hwf : WellFormed db) (hfresh : Fresh env db)
    (hdb : NoLinkObj db) {r : Request Mac} {entry : DbEntry}
    (h : puts env db r = some entry) :
    NoLinkObj ((namingDbPut entry true).final db) := by
  by_cases hkey : entry.dirent.key ∈ db.dirents
  · rw [final_of_error (namingDbPut_of_mem hkey)]
    exact hdb
  have hadd : NoLinkObj (db.addDirent entry.dirent) := hdb
  have htype := type_of_puts hdb h
  rcases puts_cases h with
    ⟨parentOid, name, type, cid, fileObj, rfl⟩ |
    ⟨parentOid, name, k, target, -, hi, rfl⟩
  · rw [final_of_ok (namingDbPut_newEntry hfresh hkey)]
    exact hadd.putInode htype
  · by_cases hzero : target.dirent.oid = Oid.zero
    · rw [final_of_error (namingDbPut_linkTo_zero hwf hzero hi hkey)]
      exact hadd
    · have htarget := hdb _ _ hi
      rw [final_of_ok (namingDbPut_linkTo hwf hzero hi hkey)]
      exact hadd.putInode htarget

theorem noLinkObj_of_deletes (hwf : WellFormed db) (hdb : NoLinkObj db)
    (parentOid : Oid) (name : Name) :
    NoLinkObj ((namingDbDel parentOid name).final db) := by
  cases hget : namingDbGetByName parentOid name db with
  | error e =>
      rw [final_of_error (namingDbDel_of_error hget)]
      exact hdb
  | ok e =>
      have hdel : NoLinkObj (db.delDirent e.dirent) := hdb
      obtain ⟨-, hi⟩ := namingDbGetByName_eq_ok.mp hget
      rcases refCnt_trichotomy (e.inode.refCnt - 1) with hcnt | hcnt | hcnt
      · rw [final_of_ok (namingDbDel_last hwf hget hcnt)]
        exact hdel.delInode _
      · rw [final_of_ok (namingDbDel_more hwf hget hcnt)]
        have htype := hdb _ _ hi
        exact hdel.putInode htype
      · rw [final_of_error (namingDbDel_negative hwf hget hcnt)]
        exact hdel

theorem noLinkObj_handle (hwf : WellFormed db) (hfresh : Fresh env db)
    (hdb : NoLinkObj db) (r : Request Mac) :
    NoLinkObj ((handle env r).final db) := by
  cases hput : puts env db r with
  | some entry =>
      rw [(handle_acts_put env hput).final_eq]
      exact noLinkObj_of_puts hwf hfresh hdb hput
  | none =>
      cases hdel : deletes env db r with
      | some place =>
          rw [(handle_acts_del env hdel).final_eq]
          exact noLinkObj_of_deletes hwf hdb place.1 place.2
      | none =>
          rw [(handle_acts_none env hput hdel).final_eq]
          exact hdb

end Put

theorem noLinkObj_initialDb {oids : InitOids} : NoLinkObj (initialDb oids) := by
  intro o i h
  rcases lookup_inodes_addEntry h with rfl | h
  · show dirEntry ≠ linkEntry
    decide
  rcases lookup_inodes_addEntry h with rfl | h
  · show dirEntry ≠ linkEntry
    decide
  rcases lookup_inodes_addEntry h with rfl | h
  · show Obj.zero.type ≠ linkEntry
    decide
  · cases h

theorem noLinkObj_step {Mac : Type} {s : Server} {r : Env Mac × Request Mac}
    (hwf : WellFormed s.db) (hfresh : FreshStep s r) (hdb : NoLinkObj s.db) :
    NoLinkObj (step s r).db := by
  unfold step
  by_cases hup : s.up = true
  · rw [if_pos hup]
    exact noLinkObj_handle hwf hfresh hdb r.2
  · rw [if_neg hup]
    exact hdb

theorem Reachable.noLinkObj {Mac : Type} {oids : InitOids} {s : Server}
    (hoids : oids.Fresh) (h : Reachable Mac oids s) : NoLinkObj s.db := by
  obtain ⟨run, hfresh, rfl⟩ := h
  have hinit : WellFormed (Server.init oids).db ∧
      NoLinkObj (Server.init oids).db := by
    rw [init_db hoids]
    exact ⟨wellFormed_initialDb hoids, noLinkObj_initialDb⟩
  have hstep : ∀ (s : Server) (r : Env Mac × Request Mac),
      WellFormed s.db ∧ NoLinkObj s.db → FreshStep s r →
      WellFormed (step s r).db ∧ NoLinkObj (step s r).db :=
    fun s r h hfresh =>
      ⟨wellFormed_step h.1 hfresh, noLinkObj_step h.1 hfresh h.2⟩
  exact (Run.exec_invariant hstep hinit hfresh).2

/-! ### What a client gets of an entry -/

/-- The copy of an entry, if it is no link. -/
def DbEntry.nsEntry (entry : DbEntry) : NsEntry where
  name := clip entry.dirent.name
  direntOid := entry.dirent.oid
  inodeOid := entry.dirent.inodeOid
  parentOid := entry.dirent.parentOid
  linkCnt := entry.inode.refCnt
  entryObj := entry.inode.entryObj
  fileObj := if entry.inode.fileObjValid then some entry.inode.fileObj else none

theorem getFileObj_of_type {e : DbEntry} (h : e.inode.entryObj.type ≠ linkEntry)
    (fuel : ℕ) : getFileObj db (fuel + 1) e =
      .ok (if e.inode.fileObjValid then some e.inode.fileObj else none) := by
  unfold getFileObj
  by_cases hvalid : e.inode.fileObjValid = true
  · rw [if_pos hvalid, if_pos hvalid]
  · rw [if_neg hvalid, if_neg h, if_neg hvalid]

theorem copyDbToNsEntry_of_type {e : DbEntry}
    (h : e.inode.entryObj.type ≠ linkEntry) :
    copyDbToNsEntry e db = .ok e.nsEntry := by
  unfold copyDbToNsEntry
  rw [getFileObj_of_type h]
  rfl

theorem copyDbToNsEntry_of_lookup (hdb : NoLinkObj db) {e : DbEntry} {o : Oid}
    (h : db.inodes.lookup o = some e.inode) :
    copyDbToNsEntry e db = .ok e.nsEntry :=
  copyDbToNsEntry_of_type (hdb o e.inode h)

/-! ### The entries of a directory -/

/-- The entries under a parent, each with its inode. -/
def NamingDb.children (db : NamingDb) (parentOid : Oid) : List DbEntry :=
  (db.dirents.filter Dirent.parentOid parentOid).filterMap fun dirent =>
    (entryOf dirent db).toOption

/-- Every entry's inode record exists. -/
def HasInodes (db : NamingDb) : Prop :=
  ∀ k d, db.dirents.lookup k = some d → ∃ i, db.inodes.lookup d.inodeOid = some i

theorem hasInodes_iff : HasInodes db ↔
    ∀ e ∈ db.dirents.entries, (db.inodes.lookup e.2.inodeOid).isSome = true := by
  simp only [HasInodes, ← Option.isSome_iff_exists]
  exact Table.forall_lookup_iff

instance (db : NamingDb) : Decidable (HasInodes db) :=
  decidable_of_iff' _ hasInodes_iff

theorem toOption_entryOf {d : Dirent} {e : DbEntry} :
    (entryOf d db).toOption = some e ↔ entryOf d db = .ok e := by
  cases entryOf d db with
  | error f => exact ⟨nofun, nofun⟩
  | ok e' =>
      show some e' = some e ↔ _
      rw [Option.some.injEq, Except.ok.injEq]

theorem mem_children {parentOid : Oid} {e : DbEntry} :
    e ∈ db.children parentOid ↔
      (∃ k, db.dirents.lookup k = some e.dirent) ∧
        e.dirent.parentOid = parentOid ∧
        db.inodes.lookup e.dirent.inodeOid = some e.inode := by
  simp only [NamingDb.children, List.mem_filterMap, Table.mem_filter,
    toOption_entryOf, entryOf_eq_ok]
  constructor
  · rintro ⟨d, ⟨k, hd, hparent⟩, rfl, hi⟩
    exact ⟨⟨k, hd⟩, hparent, hi⟩
  · rintro ⟨⟨k, hd⟩, hparent, hi⟩
    exact ⟨e.dirent, ⟨k, hd, hparent⟩, rfl, hi⟩

/-- An entry is found by its name exactly if it is one of its parent's. -/
theorem namingDbGetByName_iff_mem_children (hwf : WellFormed db)
    {parentOid : Oid} {name : Name} {e : DbEntry} :
    namingDbGetByName parentOid name db = .ok e ↔
      e ∈ db.children parentOid ∧ clip e.dirent.name = clip name := by
  rw [namingDbGetByName_eq_ok, mem_children]
  constructor
  · rintro ⟨hd, hi⟩
    have hkey : db1Keygen parentOid name = e.dirent.key := hwf.key_eq _ _ hd
    have hparent : e.dirent.parentOid = parentOid :=
      (congrArg Db1Key.parentOid hkey).symm
    have hname : clip e.dirent.name = clip name :=
      (congrArg Db1Key.name hkey).symm
    exact ⟨⟨⟨_, hd⟩, hparent, hi⟩, hname⟩
  · rintro ⟨⟨⟨k, hd⟩, hparent, hi⟩, hname⟩
    have hkey : db1Keygen parentOid name = e.dirent.key := by
      rw [db1Keygen, ← hname, ← hparent]
      rfl
    rw [hwf.key_eq _ _ hd, ← hkey] at hd
    exact ⟨hd, hi⟩

/-- No two entries of a parent have one name. -/
theorem nodup_children (hwf : WellFormed db) (parentOid : Oid) :
    ((db.children parentOid).map fun e => clip e.dirent.name).Nodup := by
  have hkeys : ((db.dirents.filter Dirent.parentOid parentOid).map
      Dirent.key).Pairwise (· ≠ ·) := Table.nodup_map_filter hwf.key_eq
  rw [List.pairwise_map] at hkeys
  unfold NamingDb.children
  rw [List.Nodup, List.pairwise_map, List.pairwise_filterMap]
  refine List.Pairwise.imp_of_mem ?_ hkeys
  intro d d' hd hd' hne e he e' he' hname
  obtain ⟨k, -, hparent⟩ := Table.mem_filter.mp hd
  obtain ⟨k', -, hparent'⟩ := Table.mem_filter.mp hd'
  obtain ⟨rfl, -⟩ := entryOf_eq_ok.mp (toOption_entryOf.mp he)
  obtain ⟨rfl, -⟩ := entryOf_eq_ok.mp (toOption_entryOf.mp he')
  apply hne
  show Db1Key.mk _ _ = Db1Key.mk _ _
  rw [hparent, hparent', hname]

/-- The entries that are asked for by number are those that were fetched, as
many as there are. -/
theorem map_getD_range {α : Type} (l : List α) (d : ℕ → α) :
    (List.range l.length).map (fun i => l.getD i (d i)) = l := by
  apply List.ext_getElem
  · rw [List.length_map, List.length_range]
  · intro i h h'
    rw [List.getElem_map, List.getElem_range, List.getD_eq_getElem l _ h']

theorem db3Get_eq_ok {parentOid : Oid} {maxlen : ℕ} {dirents : List Dirent} :
    db3Get parentOid maxlen db = .ok dirents ↔
      db.dirents.filter Dirent.parentOid parentOid ≠ [] ∧
        ¬ (maxlen < (db.dirents.filter Dirent.parentOid parentOid).length ∧
          maxlen < 2) ∧
        dirents = (db.dirents.filter Dirent.parentOid parentOid).take maxlen := by
  simp only [db3Get]
  split_ifs with hnil hover
  · simp [hnil]
  · simp [hover]
  · rw [Except.ok.injEq, and_iff_right hnil, and_iff_right hover]
    exact eq_comm

/-- As many entries are made as were asked for. -/
theorem length_namingDbGetAllByParent {parentOid : Oid} {maxlen : ℕ}
    {malloc : ℕ → Dirent} {dbEnts : List DbEntry}
    (h : namingDbGetAllByParent parentOid maxlen malloc db = .ok dbEnts) :
    dbEnts.length = maxlen := by
  unfold namingDbGetAllByParent at h
  cases hget : db3Get parentOid maxlen db with
  | error f =>
      rw [hget] at h
      cases h
  | ok dirents =>
      rw [hget] at h
      rw [except_length_of_mapM h, List.length_range]

theorem namingDbGetSize_eq (parentOid : Oid) : namingDbGetSize parentOid db =
    (db.dirents.filter Dirent.parentOid parentOid).length :=
  (Table.length_filter parentOid).symm

/-- With room for no more entries than there are, the first of them are
fetched, each with its inode. -/
theorem namingDbGetAllByParent_take {parentOid : Oid} {maxlen : ℕ}
    (hpos : maxlen ≠ 0) (hlen : maxlen ≤ namingDbGetSize parentOid db)
    (hroom : ¬ (maxlen < namingDbGetSize parentOid db ∧ maxlen < 2))
    (hinodes : ∀ d ∈ (db.dirents.filter Dirent.parentOid parentOid).take maxlen,
      ∃ e, entryOf d db = .ok e) (malloc : ℕ → Dirent) :
    namingDbGetAllByParent parentOid maxlen malloc db =
      .ok (((db.dirents.filter Dirent.parentOid parentOid).take maxlen).filterMap
        fun d => (entryOf d db).toOption) := by
  rw [namingDbGetSize_eq] at hlen hroom
  have hne : db.dirents.filter Dirent.parentOid parentOid ≠ [] := by
    intro hnil
    rw [hnil] at hlen
    exact hpos (Nat.le_zero.mp hlen)
  have hget : db3Get parentOid maxlen db =
      .ok ((db.dirents.filter Dirent.parentOid parentOid).take maxlen) :=
    db3Get_eq_ok.mpr ⟨hne, hroom, rfl⟩
  have htake : ((db.dirents.filter Dirent.parentOid parentOid).take
      maxlen).length = maxlen := by
    rw [List.length_take, Nat.min_eq_left hlen]
  have hrange := map_getD_range
    ((db.dirents.filter Dirent.parentOid parentOid).take maxlen) malloc
  rw [htake] at hrange
  have hmap := List.mapM_map (m := Except Fault)
    (f := fun i => ((db.dirents.filter Dirent.parentOid parentOid).take
      maxlen).getD i (malloc i))
    (g := fun d => entryOf d db) (l := List.range maxlen)
  rw [hrange] at hmap
  unfold namingDbGetAllByParent
  rw [hget]
  exact hmap.symm.trans (except_mapM_of_forall_ok hinodes)

theorem HasInodes.entryOf (hinodes : HasInodes db) {parentOid : Oid} {d : Dirent}
    (hd : d ∈ db.dirents.filter Dirent.parentOid parentOid) :
    ∃ e, entryOf d db = .ok e := by
  obtain ⟨k, hk, -⟩ := Table.mem_filter.mp hd
  obtain ⟨i, hi⟩ := hinodes k d hk
  exact ⟨⟨d, i⟩, entryOf_eq_ok.mpr ⟨rfl, hi⟩⟩

/-- With room for as many entries as were counted, all of them are fetched and
nothing else. -/
theorem namingDbGetAllByParent_getSize (hinodes : HasInodes db) {parentOid : Oid}
    (h : namingDbGetSize parentOid db ≠ 0) (malloc : ℕ → Dirent) :
    namingDbGetAllByParent parentOid (namingDbGetSize parentOid db) malloc db =
      .ok (db.children parentOid) := by
  have hfetch := namingDbGetAllByParent_take h le_rfl
    (fun hlt => absurd hlt.1 (Nat.lt_irrefl _))
    (fun d hd => hinodes.entryOf (List.mem_of_mem_take hd)) malloc
  rw [hfetch, namingDbGetSize_eq, List.take_length]
  rfl

theorem children_eq_nil {parentOid : Oid}
    (h : namingDbGetSize parentOid db = 0) : db.children parentOid = [] := by
  rw [namingDbGetSize_eq, List.length_eq_zero_iff] at h
  unfold NamingDb.children
  rw [h]
  rfl

theorem mapM_copyDbToNsEntry {es : List DbEntry}
    (h : ∀ e ∈ es, copyDbToNsEntry e db = .ok e.nsEntry) :
    (es.mapM fun entry => copyDbToNsEntry entry db) =
      .ok (es.map DbEntry.nsEntry) := by
  rw [except_mapM_of_forall_ok fun e he => ⟨_, h e he⟩, ← List.filterMap_eq_map]
  congr 1
  refine List.filterMap_congr fun e he => ?_
  rw [h e he]
  rfl

/-! ### The two handlers -/

section Handlers

variable {Mac : Type} {env : Env Mac} {parent : NsEntry} {cap : Cap Mac}

/-- A capability with which the directory can be read. -/
structure Readable (env : Env Mac) (parent : NsEntry) (cap : Cap Mac)
    (db : NamingDb) : Prop where
  dir : checkParent parent = .ok ()
  perm : checkPerm env parent.direntOid cap containerRead db = .ok ()

theorem namingListDir_apply (hdb : NoLinkObj db) (hinodes : HasInodes db)
    (h : Readable env parent cap db) :
    namingListDir env parent cap db =
      .ok ((db.children parent.direntOid).map DbEntry.nsEntry) db := by
  refine (reader_bind_ok (s := db) h.dir).trans
    ((reader_bind_ok h.perm).trans (reader_of_ok ?_))
  by_cases hsize : namingDbGetSize parent.direntOid db = 0
  · rw [children_eq_nil hsize]
    exact if_pos hsize
  · have hcopy : ∀ e ∈ db.children parent.direntOid,
        copyDbToNsEntry e db = .ok e.nsEntry := fun e he =>
      copyDbToNsEntry_of_lookup hdb (mem_children.mp he).2.2
    show (if _ then _ else _) = _
    rw [if_neg hsize, namingDbGetAllByParent_getSize hinodes hsize]
    exact mapM_copyDbToNsEntry hcopy

theorem namingLookup_outcome (hdb : NoLinkObj db)
    (h : Readable env parent cap db) {name : Name} {e : NsEntry} :
    (namingLookup env parent name cap).outcome db = .ok e ↔
      ∃ entry, namingDbGetByName parent.direntOid name db = .ok entry ∧
        entry.nsEntry = e := by
  have hlookup : namingLookup env parent name cap db =
      (Routine.reader (namingDbGetByName parent.direntOid name) >>= fun entry =>
        Routine.reader (copyDbToNsEntry entry)) db :=
    (reader_bind_ok (s := db) h.dir).trans (reader_bind_ok h.perm)
  unfold outcome
  rw [hlookup]
  cases hget : namingDbGetByName parent.direntOid name db with
  | error f =>
      rw [bind_of_error (reader_of_error hget)]
      exact ⟨nofun, nofun⟩
  | ok entry =>
      obtain ⟨-, hi⟩ := namingDbGetByName_eq_ok.mp hget
      rw [reader_bind_ok hget, reader_of_ok (copyDbToNsEntry_of_lookup hdb hi)]
      show Except.ok entry.nsEntry = Except.ok e ↔ _
      constructor
      · intro heq
        exact ⟨entry, rfl, Except.ok.inj heq⟩
      · rintro ⟨entry', heq, rfl⟩
        cases heq
        rfl

end Handlers

/-- In every state that the server reaches and in which every entry's inode
is there, a listing of a directory has each name that a lookup there finds,
once and with what the lookup returns, and no other. The id of each of these
entries leads to the same entry. -/
theorem namingListDir_agrees {Mac : Type} {oids : InitOids} (hoids : oids.Fresh)
    {s : Server} (hs : Reachable Mac oids s) (hinodes : HasInodes s.db)
    {env env' : Env Mac} {parent : NsEntry} {cap cap' : Cap Mac}
    (hlist : Readable env parent cap s.db)
    (hlookup : Readable env' parent cap' s.db) :
    ∃ entries, namingListDir env parent cap s.db = .ok entries s.db ∧
      (entries.map NsEntry.name).Nodup ∧
      (∀ name, name.length ≤ nameLen → ∀ e,
        (namingLookup env' parent name cap').outcome s.db = .ok e ↔
          e ∈ entries ∧ e.name = name) ∧
      ∀ e ∈ entries, e.name.length ≤ nameLen ∧
        ∃ entry, namingDbGetByName parent.direntOid e.name s.db = .ok entry ∧
          namingDbGetByOid e.direntOid s.db = .ok entry ∧
          copyDbToNsEntry entry s.db = .ok e := by
  have hwf := hs.wellFormed hoids
  have hdb := hs.noLinkObj hoids
  refine ⟨_, namingListDir_apply hdb hinodes hlist, ?_, ?_, ?_⟩
  · rw [List.map_map]
    exact nodup_children hwf parent.direntOid
  · intro name hname e
    have hclip : clip name = name := List.take_of_length_le hname
    rw [namingLookup_outcome hdb hlookup, List.mem_map]
    simp only [namingDbGetByName_iff_mem_children hwf, hclip]
    constructor
    · rintro ⟨entry, ⟨hmem, hentry⟩, rfl⟩
      exact ⟨⟨entry, hmem, rfl⟩, hentry⟩
    · rintro ⟨⟨entry, hmem, rfl⟩, hentry⟩
      exact ⟨entry, ⟨hmem, hentry⟩, rfl⟩
  · intro e he
    obtain ⟨entry, hmem, rfl⟩ := List.mem_map.mp he
    obtain ⟨⟨k, hd⟩, -, hi⟩ := mem_children.mp hmem
    have hname : namingDbGetByName parent.direntOid (clip entry.dirent.name) s.db =
        .ok entry :=
      (namingDbGetByName_iff_mem_children hwf).mpr ⟨hmem, (clip_clip _).symm⟩
    have hoid : namingDbGetByOid entry.dirent.oid s.db = .ok entry :=
      namingDbGetByOid_eq_ok.mpr ⟨⟨k, hwf.unique.find_eq hd⟩, hi⟩
    exact ⟨List.length_take_le _ _, entry, hname, hoid,
      copyDbToNsEntry_of_lookup hdb hi⟩

/-- A name that fills its array. -/
def longName : Name := List.replicate nameLen 'n'

/-- The server after a file was created in the root directory and a link was
made to it. -/
def linkedServer : Server :=
  Run.exec step (Server.init countingOids)
    [createFileStep, createLinkStep 1 longName]

theorem namingListDir_agrees_linked :
    ∃ entries, namingListDir (countingEnv 2) rootDir readWriteCap
        linkedServer.db = .ok entries linkedServer.db ∧
      entries.map NsEntry.name = [longName, fileName] := by
  have hreadable : Readable (countingEnv 2) rootDir readWriteCap
      linkedServer.db := ⟨rfl, rfl⟩
  have hreach : Reachable Unit countingOids linkedServer :=
    ⟨[createFileStep, createLinkStep 1 longName],
      ⟨by decide, by decide, trivial⟩, rfl⟩
  obtain ⟨entries, hlist, -, -, -⟩ := namingListDir_agrees countingOids_fresh
    hreach (by decide) hreadable hreadable
  have hnames : ((namingListDir (countingEnv 2) rootDir readWriteCap).outcome
      linkedServer.db).map (List.map NsEntry.name) =
      .ok [longName, fileName] := rfl
  rw [outcome_of_ok hlist] at hnames
  exact ⟨entries, hlist, Except.ok.inj hnames⟩

end Lwfs.Naming
