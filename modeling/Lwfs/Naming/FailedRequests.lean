import Lwfs.Naming.Traces

/-!
The requests on databases that fail to serve some calls.

Every request consists of checks, which read, of an entry that is put or
deleted, and of copying, which reads. So after a request the databases are as
before, or they have been left somewhere inside `naming_db_put` or
`naming_db_del`, and they are well-formed in any case.
-/

namespace Lwfs.Naming

open SysLib Routine Steps

/-! ### Calls that change nothing -/

/-- The call only reads. -/
def DbCall.Reading : DbCall → Prop
  | putDirent _ _ _ => False
  | delDirent _ => False
  | putInode _ _ _ => False
  | delInode _ => False
  | _ => True

theorem final_of_reading {c : DbCall} (hc : c.Reading) (db : NamingDb) :
    c.routine.final db = db := by
  cases c with
  | getDirent key => exact final_reader _ db
  | getDirentByOid oid => exact final_reader _ db
  | countDirents oid => rfl
  | getDirents oid maxlen => exact final_reader _ db
  | getInode oid => exact final_reader _ db
  | putDirent key d b => exact hc.elim
  | delDirent oid => exact hc.elim
  | putInode oid i b => exact hc.elim
  | delInode i => exact hc.elim

/-- The databases are the same, whatever calls were made. -/
def SameStore (s t : FaultyDb) : Prop := t.store = s.store

instance : Std.Refl SameStore := ⟨fun _ => rfl⟩

instance : IsTrans FaultyDb SameStore := ⟨fun _ _ _ h h' => h'.trans h⟩

theorem sameStore_faulty (fails : ℕ → Bool) {c : DbCall} (hc : c.Reading)
    (s : FaultyDb) : SameStore s (faulty DbCall.exec fails c s).2 := by
  simp only [SameStore, faulty, DbCall.exec]
  split
  · rfl
  · exact final_of_reading hc s.store

theorem sameStore_of_only {α : Type} (fails : ℕ → Bool) {p : DbProg α}
    (hp : p.Only DbCall.Reading) : Within SameStore (faultyRun fails p) :=
  Prog.within_run (fun _ hc s => sameStore_faulty fails hc s) hp

/-- The databases that a program leaves behind. -/
def storeAfter {α : Type} (fails : ℕ → Bool) (p : DbProg α) (db : NamingDb)
    (n : ℕ) : NamingDb :=
  ((faultyRun fails p).final ⟨db, n⟩).store

section Only

variable {Mac : Type} (env : Env Mac) (fuel : ℕ)

theorem only_ask {c : DbCall} (hc : c.Reading) :
    (ask c).Only DbCall.Reading := by
  refine ⟨hc, fun r => ?_⟩
  cases r <;> trivial

theorem only_orFail {α : Type} {rc : ReturnCode} {p : DbProg α}
    (hp : p.Only DbCall.Reading) : (Steps.orFail rc p).Only DbCall.Reading := by
  refine Prog.only_tryCatch hp fun e => ?_
  cases e <;> trivial

theorem only_entryOf (d : Dirent) :
    (Steps.entryOf d).Only DbCall.Reading :=
  Prog.only_bind (only_ask trivial) fun _ => trivial

theorem only_namingDbGetByName (parentOid : Oid) (name : Name) :
    (Steps.namingDbGetByName parentOid name).Only DbCall.Reading :=
  Prog.only_bind (only_ask trivial) only_entryOf

theorem only_namingDbGetByOid (oid : Oid) :
    (Steps.namingDbGetByOid oid).Only DbCall.Reading :=
  Prog.only_bind (only_ask trivial) only_entryOf

theorem only_namingDbGetAllByParent (parentOid : Oid) (maxlen : ℕ)
    (malloc : ℕ → Dirent) :
    (Steps.namingDbGetAllByParent parentOid maxlen malloc).Only
      DbCall.Reading :=
  Prog.only_bind (only_ask trivial) fun _ =>
    Prog.only_mapM fun _ => only_entryOf _

theorem only_getFileObj (e : DbEntry) :
    (Steps.getFileObj fuel e).Only DbCall.Reading := by
  induction fuel generalizing e with
  | zero => trivial
  | succ fuel ih =>
      rw [Steps.getFileObj]
      refine Prog.only_ite trivial (Prog.only_ite ⟨trivial, fun r => ?_⟩ trivial)
      cases r with
      | error f => trivial
      | ok d =>
          refine ⟨trivial, fun r => ?_⟩
          cases r with
          | error f => trivial
          | ok i => exact ih _

theorem only_copyDbToNsEntry (e : DbEntry) :
    (Steps.copyDbToNsEntry fuel e).Only DbCall.Reading :=
  Prog.only_bind (only_getFileObj fuel e) fun _ => trivial

theorem only_copyDbToNamespace (e : DbEntry) :
    (Steps.copyDbToNamespace fuel e).Only DbCall.Reading :=
  Prog.only_bind (only_copyDbToNsEntry fuel e) fun _ => trivial

theorem only_namespaceLookup (name : Name) :
    (Steps.namespaceLookup fuel name).Only DbCall.Reading :=
  Prog.only_bind (only_namingDbGetByName _ _) (only_copyDbToNamespace fuel)

theorem only_checkPerm (oid : Oid) (cap : Cap Mac) (containerOp : Opcode) :
    (Steps.checkPerm env oid cap containerOp).Only DbCall.Reading :=
  Prog.only_bind (only_namingDbGetByOid oid) fun _ => Prog.only_fromExcept _

theorem only_checkParent (parent : NsEntry) :
    (Steps.checkParent parent).Only DbCall.Reading :=
  Prog.only_fromExcept _

theorem only_namingLookup (parent : NsEntry) (name : Name) (cap : Cap Mac) :
    (Steps.namingLookup env fuel parent name cap).Only DbCall.Reading :=
  Prog.only_bind (only_checkParent parent) fun _ =>
    Prog.only_bind (only_checkPerm env _ _ _) fun _ =>
      Prog.only_bind (only_namingDbGetByName _ _) (only_copyDbToNsEntry fuel)

theorem only_namingListDir (parent : NsEntry) (cap : Cap Mac) :
    (Steps.namingListDir env fuel parent cap).Only DbCall.Reading :=
  Prog.only_bind (only_checkParent parent) fun _ =>
    Prog.only_bind (only_checkPerm env _ _ _) fun _ =>
      Prog.only_bind (only_ask trivial) fun _ => Prog.only_ite trivial <|
        Prog.only_bind (only_namingDbGetAllByParent _ _ _) fun _ =>
          Prog.only_mapM (only_copyDbToNsEntry fuel)

theorem only_namingListNamespaces :
    (Steps.namingListNamespaces env fuel).Only DbCall.Reading :=
  Prog.only_bind (only_ask trivial) fun _ => Prog.only_ite trivial <|
    Prog.only_bind (only_namingDbGetAllByParent _ _ _) fun _ =>
      Prog.only_ite trivial (Prog.only_mapM (only_copyDbToNamespace fuel))

theorem only_namingGetNamespace (name : Name) :
    (Steps.namingGetNamespace fuel name).Only DbCall.Reading :=
  Prog.only_bind (only_orFail (only_namespaceLookup fuel name)) fun _ => trivial

theorem only_namingStat (obj : Obj) (cap : Cap Mac) :
    (Steps.namingStat env obj cap).Only DbCall.Reading :=
  Prog.only_bind (only_checkPerm env _ _ _) fun _ =>
    Prog.only_bind (only_namingDbGetByOid _) fun _ => trivial

end Only

/-! ### The databases after a request -/

section StoreAfter

variable {α β : Type} {fails : ℕ → Bool} {p : DbProg α} {q : α → DbProg β}
  {db : NamingDb} {n : ℕ} {P : NamingDb → Prop}

theorem storeAfter_of_only (hp : p.Only DbCall.Reading) :
    storeAfter fails p db n = db :=
  sameStore_of_only fails hp ⟨db, n⟩

theorem storeAfter_bind_only (hp : p.Only DbCall.Reading) (hdb : P db)
    (hq : ∀ a n, P (storeAfter fails (q a) db n)) :
    P (storeAfter fails (p >>= q) db n) := by
  have hsame := sameStore_of_only fails hp ⟨db, n⟩
  rw [storeAfter, faultyRun_bind]
  cases h : faultyRun fails p ⟨db, n⟩ with
  | ok a t =>
      rw [final_of_ok h] at hsame
      obtain rfl := hsame
      rw [final, bind_of_ok h]
      exact hq a t.calls
  | error e t =>
      rw [final_of_error h] at hsame
      rw [final_of_error (bind_of_error h), hsame]
      exact hdb

theorem storeAfter_bind_reads {k : ℕ} {f : NamingDb → Except Fault α}
    (hp : Reads DbCall.exec fails k p f) (hdb : P db)
    (hq : ∀ a n, f db = .ok a → P (storeAfter fails (q a) db n)) :
    P (storeAfter fails (p >>= q) db n) := by
  rw [storeAfter, faultyRun_bind]
  cases h : faultyRun fails p ⟨db, n⟩ with
  | ok a t =>
      obtain ⟨-, hf, rfl⟩ := (hp.ok_iff db n a t).mp h
      rw [final, bind_of_ok h]
      exact hq a (n + k) hf
  | error e t =>
      rw [final_of_error (bind_of_error h), hp.store_eq db n e t h]
      exact hdb

/-- What only reads can follow without effect. -/
theorem storeAfter_bind_tail (hq : ∀ a, (q a).Only DbCall.Reading) :
    storeAfter fails (p >>= q) db n = storeAfter fails p db n := by
  rw [storeAfter, storeAfter, faultyRun_bind]
  cases h : faultyRun fails p ⟨db, n⟩ with
  | ok a t =>
      rw [final_of_ok h, final, bind_of_ok h]
      exact sameStore_of_only fails (hq a) t
  | error e t => rw [final_of_error h, final_of_error (bind_of_error h)]

theorem storeAfter_map {g : α → β} :
    storeAfter fails (g <$> p) db n = storeAfter fails p db n :=
  storeAfter_bind_tail fun _ => trivial

theorem storeAfter_orFail {rc : ReturnCode} :
    storeAfter fails (Steps.orFail rc p) db n = storeAfter fails p db n := by
  have hrun : faultyRun fails (Steps.orFail rc p) =
      (faultyRun fails p).mapOutcome (Naming.orFail rc) := run_orFail _ rc p
  rw [storeAfter, hrun, final_mapOutcome]
  rfl

/-- A single call whose reply is not looked at is made, or it fails. -/
theorem storeAfter_call (c : DbCall) (a : α) (hdb : P db)
    (hcall : P (c.routine.final db)) :
    P (storeAfter fails (.call c fun _ => pure a) db n) := by
  have heq : storeAfter fails (.call c fun _ => pure a : DbProg α) db n =
      (DbCall.exec (fails n) c db).2 := rfl
  rw [heq, DbCall.exec]
  cases fails n
  · exact hcall
  · exact hdb

theorem storeAfter_ask_bind {c : DbCall} {q : c.Value → DbProg β} (hdb : P db)
    (herror : P (c.routine.final db))
    (hq : ∀ a t n, c.routine db = .ok a t → P (storeAfter fails (q a) t n)) :
    P (storeAfter fails (ask c >>= q) db n) := by
  rw [storeAfter, faultyRun_bind]
  cases hn : fails n with
  | true =>
      rw [final_of_error (bind_of_error (faultyRun_ask_of_fails hn))]
      exact hdb
  | false =>
      cases hc : c.routine db with
      | ok a t =>
          rw [final, bind_of_ok (faultyRun_ask_of_ok hn hc)]
          exact hq a t (n + 1) hc
      | error e t =>
          rw [final_of_error (bind_of_error (faultyRun_ask_of_error hn hc))]
          rwa [final_of_error hc] at herror

/-- `naming_db_put` does nothing, or it stores the entry, or it does all that
it does. -/
theorem storeAfter_put {entry : DbEntry}
    (hinode : entry.dirent.link ≠ Oid.zero →
      ∃ i, db.inodes.lookup entry.inode.entryObj.oid = some i)
    (hdb : P db)
    (hadd : entry.dirent.key ∉ db.dirents → P (db.addDirent entry.dirent))
    (hput : entry.dirent.key ∉ db.dirents →
      P ((Naming.namingDbPut entry true).final db)) :
    P (storeAfter fails (Steps.namingDbPut entry true) db n) := by
  by_cases hkey : entry.dirent.key ∈ db.dirents
  · have hcall := putDirent_routine_of_mem hkey
    refine storeAfter_ask_bind hdb ?_ fun a t n ht => ?_
    · rw [final_of_error hcall]
      exact hdb
    · rw [hcall] at ht
      cases ht
  · have hcall := putDirent_routine hkey
    refine storeAfter_ask_bind hdb ?_ fun a t n ht => ?_
    · rw [final_of_ok hcall]
      exact hadd hkey
    · rw [hcall] at ht
      cases ht
      by_cases hattach : Attachable entry db ∧
          Served fails n (attachCalls entry)
      · have hrun : faultyRun fails (Steps.inodeAttach entry true)
            ⟨db.addDirent entry.dirent, n⟩ = .ok () _ :=
          inodeAttach_of_served hinode hattach.1 hattach.2
        have hfinal : attached entry (db.addDirent entry.dirent) =
            (Naming.namingDbPut entry true).final db := by
          rw [attached]
          simp only [final, namingDbPut_of_notMem hkey]
        rw [storeAfter, final_of_ok hrun, hfinal]
        exact hput hkey
      · obtain ⟨rc, t, hrun, ht⟩ : ∃ rc t,
            faultyRun fails (Steps.inodeAttach entry true)
              ⟨db.addDirent entry.dirent, n⟩ = .error (.code rc) t ∧
                t.store = db.addDirent entry.dirent :=
          inodeAttach_of_not hinode hattach
        rw [storeAfter, final_of_error hrun, ht]
        exact hadd hkey

theorem storeAfter_inodeRelease {i : Inode} (hdb : P db)
    (hrelease : P ((Naming.inodeRelease i).final db)) :
    P (storeAfter fails (Steps.inodeRelease i) db n) := by
  rcases refCnt_trichotomy i.refCnt with hcnt | hcnt | hcnt
  · have heq : (Naming.inodeRelease i).final db = (inodeDel i).final db := by
      have hi : Naming.inodeRelease i = (inodeDel i).ignore := if_pos hcnt
      rw [hi, final_of_ok ignore_apply]
    rw [Steps.inodeRelease, if_pos hcnt]
    rw [heq] at hrelease
    exact storeAfter_call (.delInode i) () hdb hrelease
  · have hne : i.refCnt ≠ 0 := fun h => absurd (h ▸ hcnt) (by decide)
    rw [Steps.inodeRelease, if_neg hne, if_pos hcnt]
    rw [final_of_ok (inodeRelease_more hcnt)] at hrelease
    exact storeAfter_call (.putInode i.entryObj.oid i false) () hdb hrelease
  · have hne : i.refCnt ≠ 0 := fun h => absurd (h ▸ hcnt) (by decide)
    have hpos : ¬ 0 < i.refCnt :=
      fun h => absurd (Int32.lt_trans h hcnt) (by decide)
    rw [Steps.inodeRelease, if_neg hne, if_neg hpos]
    exact hdb

/-- `naming_db_del` does nothing, or it deletes the entry, or it does all that
it does. -/
theorem storeAfter_del (hwf : WellFormed db) {parentOid : Oid} {name : Name}
    (hdb : P db) (hdirent : ∀ d, P (db.delDirent d))
    (hdel : P ((Naming.namingDbDel parentOid name).final db)) :
    P (storeAfter fails (Steps.namingDbDel parentOid name) db n) := by
  refine storeAfter_bind_reads (reads_namingDbGetByName parentOid name) hdb
    fun e n hget => ?_
  obtain ⟨hd, -⟩ := namingDbGetByName_eq_ok.mp hget
  rw [hwf.key_eq _ _ hd] at hd
  have hcall : (DbCall.delDirent e.dirent.oid).routine db = .ok () _ :=
    db2Del_of_lookup hwf hd
  have hfinal : (Naming.namingDbDel parentOid name).final db =
      (Naming.inodeRelease e.decremented.inode).final
        (db.delDirent e.dirent) := by
    simp only [final, namingDbDel_of_lookup hwf hget]
    exact final_bind_pure _ _
  refine storeAfter_ask_bind hdb ?_ fun _ t n ht => ?_
  · rw [final_of_ok hcall]
    exact hdirent _
  · rw [hcall] at ht
    cases ht
    rw [hfinal] at hdel
    have hrelease : P (storeAfter fails
        (Steps.inodeRelease e.decremented.inode) (db.delDirent e.dirent) n) :=
      storeAfter_inodeRelease (hdirent _) hdel
    rwa [← storeAfter_bind_tail fun _ => Prog.only_pure e.decremented]
      at hrelease

end StoreAfter

/-! ### Well-formed databases stay well formed -/

/-- What the requests rely on. -/
structure Sound (db : NamingDb) : Prop where
  wellFormed : WellFormed db
  noLinkObj : NoLinkObj db

section Sound

variable {Mac : Type} {env : Env Mac} {db : NamingDb} {fails : ℕ → Bool} {n : ℕ}

theorem Sound.delDirent (hdb : Sound db) (d : Dirent) :
    Sound (db.delDirent d) :=
  ⟨hdb.wellFormed.delDirent d, hdb.noLinkObj⟩

/-- An entry that is a link is put for an inode that is there. -/
theorem inode_of_puts (hwf : WellFormed db) {r : Request Mac} {entry : DbEntry}
    (h : puts env db r = some entry) (hlink : entry.dirent.link ≠ Oid.zero) :
    ∃ i, db.inodes.lookup entry.inode.entryObj.oid = some i := by
  rcases puts_cases h with
    ⟨parentOid, name, type, cid, fileObj, rfl⟩ |
    ⟨parentOid, name, k, target, -, hi, rfl⟩
  · exact absurd rfl hlink
  · have hoid := hwf.inode_oid _ _ hi
    refine ⟨target.inode, ?_⟩
    show db.inodes.lookup target.inode.entryObj.oid = some target.inode
    rwa [hoid]

theorem sound_put (hdb : Sound db) (hfresh : Fresh env db) {r : Request Mac}
    {entry : DbEntry} (h : puts env db r = some entry) :
    Sound (storeAfter fails (Steps.namingDbPut entry true) db n) := by
  refine storeAfter_put (inode_of_puts hdb.wellFormed h) hdb (fun hkey => ?_)
    fun _ => ?_
  · exact ⟨(addable_of_puts hfresh h hkey).wellFormed hdb.wellFormed,
      hdb.noLinkObj⟩
  · obtain ⟨hchange, -⟩ := change_of_puts hdb.wellFormed hfresh h
    exact ⟨hchange.wellFormed hdb.wellFormed,
      noLinkObj_of_puts hdb.wellFormed hfresh hdb.noLinkObj h⟩

theorem sound_del (hdb : Sound db) (parentOid : Oid) (name : Name) :
    Sound (storeAfter fails (Steps.namingDbDel parentOid name) db n) := by
  obtain ⟨b, hchange, -⟩ := change_of_deletes hdb.wellFormed parentOid name
  exact storeAfter_del hdb.wellFormed hdb hdb.delDirent
    ⟨hchange.wellFormed hdb.wellFormed,
      noLinkObj_of_deletes hdb.wellFormed hdb.noLinkObj parentOid name⟩

variable (env) (fuel : ℕ)

theorem sound_removeFrom (hdb : Sound db) (parent : NsEntry) (name : Name)
    (cap : Cap Mac) :
    Sound (storeAfter fails (Steps.removeFrom env fuel parent name cap) db n) :=
  storeAfter_bind_only (only_checkParent parent) hdb fun _ _ =>
    storeAfter_bind_only (only_checkPerm env _ _ _) hdb fun _ _ => by
      rw [storeAfter_bind_tail (only_copyDbToNsEntry fuel), Steps.removeEntry,
        storeAfter_orFail]
      exact sound_del hdb _ _

/-- Whatever request is handled and whichever calls fail. -/
theorem sound_handle (hdb : Sound db) (hfresh : Fresh env db) (r : Request Mac) :
    Sound (storeAfter fails (Steps.handle env fuel r) db n) := by
  cases r with
  -- a creation puts its entry once, all after that only reads
  | createNamespace name cid =>
      have hputs : puts env db (.createNamespace name cid) = some _ := rfl
      rw [Steps.handle, storeAfter_map, Steps.namingCreateNamespace,
        storeAfter_bind_tail fun _ => only_copyDbToNamespace fuel _]
      exact sound_put hdb hfresh hputs
  | removeNamespace name cap =>
      rw [Steps.handle, storeAfter_map]
      -- a removal deletes once, after checks that only read
      refine storeAfter_bind_only (only_orFail (only_namespaceLookup fuel name))
        hdb fun ns _ => ?_
      refine storeAfter_bind_only (only_checkPerm env _ _ _) hdb fun _ _ => ?_
      rw [storeAfter_bind_tail (only_copyDbToNamespace fuel), Steps.removeEntry,
        storeAfter_orFail]
      exact sound_del hdb _ _
  | getNamespace name =>
      rw [Steps.handle, storeAfter_map,
        storeAfter_of_only (only_namingGetNamespace fuel name)]
      exact hdb
  | listNamespaces =>
      rw [Steps.handle, storeAfter_map,
        storeAfter_of_only (only_namingListNamespaces env fuel)]
      exact hdb
  | createDir parent name cid cap =>
      rw [Steps.handle, storeAfter_map]
      refine storeAfter_bind_reads (reads_checkParent parent) hdb
        fun _ _ hparent => ?_
      refine storeAfter_bind_reads (reads_checkPerm env _ _ _) hdb
        fun _ _ hperm => ?_
      have hputs : puts env db (.createDir parent name cid cap) = some _ :=
        if_pos (permits_iff.mpr ⟨hparent, hperm⟩)
      rw [storeAfter_bind_tail fun _ => only_copyDbToNsEntry fuel _]
      exact sound_put hdb hfresh hputs
  | removeDir parent name cap =>
      rw [Steps.handle, storeAfter_map]
      exact sound_removeFrom env fuel hdb parent name cap
  | createFile parent name obj cap =>
      rw [Steps.handle, storeAfter_map]
      refine storeAfter_bind_reads (reads_checkParent parent) hdb
        fun _ _ hparent => ?_
      refine storeAfter_bind_reads (reads_checkPerm env _ _ _) hdb
        fun _ _ hperm => ?_
      have hputs : puts env db (.createFile parent name obj cap) = some _ :=
        if_pos (permits_iff.mpr ⟨hparent, hperm⟩)
      rw [storeAfter_bind_tail fun _ =>
        Prog.only_bind (only_namingDbGetByOid _) fun _ =>
          only_copyDbToNsEntry fuel _]
      exact sound_put hdb hfresh hputs
  | createLink parent name cap targetParent targetName targetCap =>
      rw [Steps.handle, storeAfter_map]
      refine storeAfter_bind_reads (reads_checkParent parent) hdb
        fun _ _ hparent => ?_
      refine storeAfter_bind_reads (reads_checkPerm env _ _ _) hdb
        fun _ _ hperm => ?_
      refine storeAfter_bind_reads (reads_checkPerm env _ _ _) hdb
        fun _ _ htarget => ?_
      refine storeAfter_bind_reads (reads_namingDbGetByName _ _) hdb
        fun target _ hget => ?_
      have hputs : puts env db (.createLink parent name cap targetParent
          targetName targetCap) =
            some (linkTo env parent.direntOid name target) := by
        rw [puts, permits_iff.mpr ⟨hparent, hperm⟩, isOk_iff.mpr htarget]
        simp only [Bool.and_self, if_true, hget]
      rw [storeAfter_bind_tail fun _ => only_copyDbToNsEntry fuel _]
      exact sound_put hdb hfresh hputs
  | unlink parent name cap =>
      rw [Steps.handle, storeAfter_map]
      exact sound_removeFrom env fuel hdb parent name cap
  | lookup parent name cap =>
      rw [Steps.handle, storeAfter_map,
        storeAfter_of_only (only_namingLookup env fuel parent name cap)]
      exact hdb
  | listDir parent cap =>
      rw [Steps.handle, storeAfter_map,
        storeAfter_of_only (only_namingListDir env fuel parent cap)]
      exact hdb
  | stat obj cap =>
      rw [Steps.handle, storeAfter_map,
        storeAfter_of_only (only_namingStat env obj cap)]
      exact hdb

end Sound

end Lwfs.Naming
