import Lwfs.Client.ManagementObject
import Lwfs.Client.Renaming
import Lwfs.Naming.LinkCounts
import Lwfs.Naming.Overflow

/-!
How long the storage objects of a file live.

A file has a management object and an object on each storage server. They are
created before the first entry of the file. `lwfs_inop_unlink` removes them
when the naming server has returned the count zero: it loads the references
from the management object, removes the data objects and then the management
object. The naming server knows nothing of the storage servers, and the client
knows nothing of the other entries of the file.

The objects of a file exist exactly as long as an entry names its inode
(`live_iff_named`), unless the count of the inode, which has 32 bits, comes
round to one while other entries are left.
-/

namespace Lwfs.FsLwfs.Lifetime

open SysLib Routine Naming

variable {Mac : Type}

/-- The storage servers: which objects exist, and their bytes. -/
structure Storage where
  live : ObjHandle → Bool
  bytes : ObjectStore

abbrev StorageRoutine := Routine FsError Storage

/-- The objects of a file: the management object and what it is to hold, with
the references to the data objects as they stand in memory. -/
structure FileObjs where
  mo : Obj
  chunkSize : Int32
  dso : List ObjImage
  /-- The storage servers are counted in an `int`. -/
  count_int : dso.length < 2147483648

/-- The naming server and the storage servers. -/
structure Servers where
  naming : Server
  storage : Storage

abbrev LifeRoutine := Routine FsError Servers

/-- What an operation finds outside itself and the servers. -/
structure LifeEnv (Mac : Type) where
  checkCapCache : Cid → Opcode → Except ReturnCode (Cap Mac)
  checkCidCache : Except ReturnCode Cid
  naming : ℕ → Env Mac
  /-- The objects of a new file, with the ids that the servers generate. -/
  new : FileObjs
  /-- The requests of `sso_store_mo` that fail. -/
  write : ℕ → Option ReturnCode
  load : LoadCalls

/-! ### The storage servers -/

/-- `lwfs_create_obj_sync`. -/
def lwfsCreateObj (obj : Obj) : StorageRoutine Unit := fun s =>
  if s.live (objHandle obj) = true then .error (.code .errExist) s
  else
    .ok () ⟨Function.update s.live (objHandle obj) true,
      Function.update s.bytes (objHandle obj) []⟩

/-- `lwfs_remove_obj_sync`. -/
def lwfsRemoveObj (obj : Obj) : StorageRoutine Unit := fun s =>
  if s.live (objHandle obj) = true then
    .ok () ⟨Function.update s.live (objHandle obj) false, s.bytes⟩
  else .error (.code .errNoObj) s

/-- What the client returns for an error of its own routines. -/
def clientError : Fault → FsError
  | .code rc => .code rc
  | _ => .overrun

def onBytes {α : Type} (x : Routine Fault ObjectStore α) : StorageRoutine α :=
  onPart Storage.bytes (fun s bytes => { s with bytes }) clientError x

/-- How reads and writes end: for an object that does not exist, with an
error. -/
def answered (obj : Obj) (answers : ℕ → Option ReturnCode) (s : Storage) :
    ℕ → Option ReturnCode :=
  if s.live (objHandle obj) = true then answers
  else fun _ => some .errNoObj

section Operations

variable (objOf : ObjImage → Obj)

/-- The references to the objects of a file, the management object last.
`objOf` reads a `lwfs_obj` where it stands in memory. -/
def FileObjs.objs (new : FileObjs) : List Obj := new.dso.map objOf ++ [new.mo]

def FileObjs.handles (new : FileObjs) : List ObjHandle :=
  (new.objs objOf).map objHandle

/-- The objects of `sso_create_dso` and `sso_create_mo`. -/
def createObjs : List Obj → StorageRoutine Unit
  | [] => pure ()
  | obj :: objs => do
      lwfsCreateObj obj
      createObjs objs

/-- `sso_create_objs`. -/
def ssoCreateObjs (env : LifeEnv Mac) : StorageRoutine Unit := do
  createObjs (env.new.objs objOf)
  let s ← get
  onBytes (ssoStoreMo (answered env.new.mo env.write s) env.new.mo
    env.new.chunkSize env.new.dso (Int32.ofNat env.new.dso.length))

def ssoRemoveDso : List Obj → StorageRoutine Unit
  | [] => pure ()
  | obj :: dso => do
      lwfsRemoveObj obj
      ssoRemoveDso dso

/-- `lwfs_inop_unlink` where it removes the data objects of a file. -/
def removeDso (env : LifeEnv Mac) (entry : NsEntry) (mo : Obj) :
    StorageRoutine Unit :=
  if entry.entryObj.type = fileEntry then do
    let s ← get
    let dObj ← onBytes (ssoLoadMo ⟨env.load.checkCapCache,
      answered mo env.load.reads s, env.load.heap⟩ mo)
    -- the code is overwritten with that of the next request
    (ssoRemoveDso
      ((dObj.ssObj.take dObj.ssObjCount.toInt.toNat).map objOf)).ignore
  else pure ()

def removeObjs (env : LifeEnv Mac) (entry : NsEntry) (mo : Obj) :
    StorageRoutine Unit := do
  removeDso objOf env entry mo
  (lwfsRemoveObj mo).mapOutcome orEio

/-! ### The operations -/

/-- What the file system operations find when the storage servers do all that
they are asked for. -/
def LifeEnv.fsEnv (env : LifeEnv Mac) : FsEnv Mac where
  checkCapCache := env.checkCapCache
  checkCidCache := env.checkCidCache
  ssoCreateObjs _ _ := .ok env.new.mo
  removeObjs _ _ _ := .ok ()
  naming := env.naming

def onNaming {α : Type} (x : FsRoutine α) : LifeRoutine α :=
  onPart Servers.naming (fun w naming => { w with naming }) id x

def onStorage {α : Type} (x : StorageRoutine α) : LifeRoutine α :=
  onPart Servers.storage (fun w storage => { w with storage }) id x

def createFile (env : LifeEnv Mac) (pno : Pnode) : LifeRoutine NsEntry := do
  let name ← onNaming (copyPnodeName pno)
  let fileCid ← onNaming
    (Routine.reader fun _ => env.checkCidCache.mapError .code)
  let _ ← onNaming
    (checkCap env.fsEnv fileCid (containerWrite ||| containerRead))
  let cap ← onNaming (checkCap env.fsEnv pno.parent.entryObj.cid
    (containerWrite ||| containerRead))
  onStorage (ssoCreateObjs objOf env)
  onNaming (createEntry env.fsEnv pno.parent name env.new.mo cap 0 3)

/-- The objects of a file go with its last entry. -/
def removeFileObjs (env : LifeEnv Mac) (entry : NsEntry) : LifeRoutine Unit :=
  match entry.fileObj with
  | none => pure ()
  | some obj =>
      if entry.linkCnt = 0 then do
        let _ ← onNaming (checkCap env.fsEnv obj.cid containerWrite)
        onStorage (removeObjs objOf env entry obj)
      else pure ()

def lwfsInopUnlink (env : LifeEnv Mac) (call : ℕ) (pno : Pnode) :
    LifeRoutine Unit := do
  let name ← onNaming (copyPnodeName pno)
  let cap ← onNaming
    (checkCap env.fsEnv pno.parent.entryObj.cid containerWrite)
  let entry ← onNaming
    ((serve (namingUnlink (env.naming call) pno.parent name cap)).mapOutcome
      orEio)
  removeFileObjs objOf env entry

def lwfsInopRename (fs : FileSystem Mac) (env : LifeEnv Mac) (old new : Pnode) :
    LifeRoutine Unit := do
  let _ ← onNaming (lwfsInopLink fs env.fsEnv old new)
  lwfsInopUnlink objOf env 1 old

end Operations

/-! ### A client at work -/

inductive LifeOp
  | createFile (pno : Pnode)
  | link (target pno : Pnode)
  | unlink (pno : Pnode)
  | rename (old new : Pnode)
  deriving DecidableEq

/-- A file that has been created. -/
structure File where
  inode : Oid
  objs : FileObjs

/-- The servers, and the files that have been created so far. -/
structure History where
  servers : Servers
  files : List File

def History.db (w : History) : NamingDb := w.servers.naming.db

/-- One operation, with the files that it creates. -/
def perform (objOf : ObjImage → Obj) (fs : FileSystem Mac) (env : LifeEnv Mac) :
    LifeOp → LifeRoutine (List File)
  | .createFile pno =>
      (fun entry => [⟨entry.inodeOid, env.new⟩]) <$>
        Lifetime.createFile objOf env pno
  | .link target pno =>
      (fun _ => []) <$> onNaming (lwfsInopLink fs env.fsEnv target pno)
  | .unlink pno => (fun _ => []) <$> lwfsInopUnlink objOf env 0 pno
  | .rename old new => (fun _ => []) <$> lwfsInopRename objOf fs env old new

def lifeStep (objOf : ObjImage → Obj) (fs : FileSystem Mac) (w : History)
    (r : LifeEnv Mac × LifeOp) : History :=
  match perform objOf fs r.1 r.2 w.servers with
  | .ok files servers => ⟨servers, files ++ w.files⟩
  | .error _ servers => ⟨servers, w.files⟩

/-- The ids that the naming server generates are new, also with respect to the
files that are gone. -/
structure NewFileIds (oids : InitOids) (files : List File) (db : NamingDb)
    (naming : Env Mac) : Prop where
  fresh : Fresh naming db
  counted : naming.inodeOid ∉ oids.inodes
  other : ∀ f ∈ files, f.inode ≠ naming.inodeOid

/-- Every call of the operation succeeds, and the ids that servers generate
are new. -/
structure Proceeds (oids : InitOids) (objOf : ObjImage → Obj)
    (fs : FileSystem Mac) (w : History) (r : LifeEnv Mac × LifeOp) : Prop where
  succeeds : ∃ files servers,
    perform objOf fs r.1 r.2 w.servers = .ok files servers
  newIds : ∀ call, NewFileIds oids w.files w.db (r.1.naming call)
  newObjs : ∀ pno, r.2 = .createFile pno → ∀ f ∈ w.files,
    ∀ h ∈ f.objs.handles objOf, h ∉ r.1.new.handles objOf

/-- No file has so many names that its inode cannot count one more. -/
def Countable (w : History) : Prop :=
  ∀ f ∈ w.files, w.db.links f.inode < 4294967296

/-- The naming server has no file yet. -/
def NoFiles (db : NamingDb) : Prop :=
  ∀ o i, db.inodes.lookup o = some i → i.fileObjValid = false

/-! ### What requests to the storage servers do -/

theorem lwfsCreateObj_eq_ok {obj : Obj} {s t : Storage} {u : Unit} :
    lwfsCreateObj obj s = .ok u t ↔ ¬ s.live (objHandle obj) = true ∧
      Storage.mk (Function.update s.live (objHandle obj) true)
        (Function.update s.bytes (objHandle obj) []) = t := by
  unfold lwfsCreateObj
  split_ifs with h <;> simp [h]

theorem lwfsRemoveObj_eq_ok {obj : Obj} {s t : Storage} {u : Unit} :
    lwfsRemoveObj obj s = .ok u t ↔ s.live (objHandle obj) = true ∧
      Storage.mk (Function.update s.live (objHandle obj) false) s.bytes = t := by
  unfold lwfsRemoveObj
  split_ifs with h <;> simp [h]

/-- From `s` to `t` the objects `hs` have been created, and others are as they
were. -/
structure Created (hs : List ObjHandle) (s t : Storage) : Prop where
  free : ∀ h ∈ hs, ¬ s.live h = true
  nodup : hs.Nodup
  live_iff : ∀ h, t.live h = true ↔ h ∈ hs ∨ s.live h = true
  empty : ∀ h ∈ hs, t.bytes h = []
  others : ∀ h, h ∉ hs → t.bytes h = s.bytes h

/-- From `s` to `t` the objects `hs` have been removed. -/
structure Removed (hs : List ObjHandle) (s t : Storage) : Prop where
  live_iff : ∀ h, t.live h = true ↔ h ∉ hs ∧ s.live h = true
  bytes_eq : t.bytes = s.bytes

theorem created_nil (s : Storage) : Created [] s s :=
  ⟨by simp, List.nodup_nil, by simp, by simp, by simp⟩

theorem created_of_lwfsCreateObj {obj : Obj} {s t : Storage} {u : Unit}
    (h : lwfsCreateObj obj s = .ok u t) : Created [objHandle obj] s t := by
  obtain ⟨hfree, rfl⟩ := lwfsCreateObj_eq_ok.mp h
  refine ⟨by simpa using hfree, List.nodup_singleton _, fun x => ?_, by simp,
    fun x hx => ?_⟩
  · by_cases heq : x = objHandle obj
    · simp [heq]
    · simp [heq]
  · exact Function.update_of_ne (fun heq => hx (by simp [heq])) _ _

/-- What has been created is there, so it is not created again. -/
theorem Created.append {hs hs' : List ObjHandle} {s t u : Storage}
    (h : Created hs s t) (h' : Created hs' t u) : Created (hs ++ hs') s u := by
  have hapart : ∀ x ∈ hs, x ∉ hs' := by
    intro x hx hx'
    exact h'.free x hx' ((h.live_iff x).mpr (.inl hx))
  refine ⟨?_, ?_, ?_, ?_, ?_⟩
  · intro x hx hlive
    rcases List.mem_append.mp hx with hx | hx
    · exact h.free x hx hlive
    · exact h'.free x hx ((h.live_iff x).mpr (.inr hlive))
  · rw [List.nodup_append]
    refine ⟨h.nodup, h'.nodup, ?_⟩
    rintro x hx _ hx' rfl
    exact hapart x hx hx'
  · intro x
    rw [h'.live_iff, h.live_iff, List.mem_append]
    tauto
  · intro x hx
    rcases List.mem_append.mp hx with hx | hx
    · rw [h'.others x (hapart x hx), h.empty x hx]
    · exact h'.empty x hx
  · intro x hx
    rw [List.mem_append, not_or] at hx
    rw [h'.others x hx.2, h.others x hx.1]

theorem created_of_createObjs {objs : List Obj} {s t : Storage} {u : Unit}
    (h : createObjs objs s = .ok u t) : Created (objs.map objHandle) s t := by
  induction objs generalizing s with
  | nil =>
      obtain ⟨-, rfl⟩ := pure_eq_ok.mp h
      exact created_nil s
  | cons obj objs ih =>
      obtain ⟨_, v, hfirst, hrest⟩ := bind_eq_ok.mp h
      rw [List.map_cons]
      exact (created_of_lwfsCreateObj hfirst).append (ih hrest)

theorem removed_nil (s : Storage) : Removed [] s s :=
  ⟨by simp, rfl⟩

theorem Removed.append {hs hs' : List ObjHandle} {s t u : Storage}
    (h : Removed hs s t) (h' : Removed hs' t u) : Removed (hs ++ hs') s u where
  live_iff x := by
    rw [h'.live_iff, h.live_iff, List.mem_append]
    tauto
  bytes_eq := h'.bytes_eq.trans h.bytes_eq

theorem removed_of_lwfsRemoveObj {obj : Obj} {s t : Storage} {u : Unit}
    (h : lwfsRemoveObj obj s = .ok u t) : Removed [objHandle obj] s t := by
  obtain ⟨hlive, rfl⟩ := lwfsRemoveObj_eq_ok.mp h
  refine ⟨fun x => ?_, rfl⟩
  by_cases heq : x = objHandle obj
  · simp [heq]
  · simp [heq]

/-- Objects that are all there are all removed. -/
theorem removed_ssoRemoveDso {objs : List Obj} {s : Storage}
    (hnodup : (objs.map objHandle).Nodup)
    (hlive : ∀ h ∈ objs.map objHandle, s.live h = true) :
    ∃ t, ssoRemoveDso objs s = .ok () t ∧ Removed (objs.map objHandle) s t := by
  induction objs generalizing s with
  | nil => exact ⟨s, rfl, removed_nil s⟩
  | cons obj objs ih =>
      rw [List.map_cons] at hnodup hlive
      obtain ⟨hnot, hnodup⟩ := List.nodup_cons.mp hnodup
      obtain ⟨hfirst, hrest⟩ := List.forall_mem_cons.mp hlive
      have hremove := lwfsRemoveObj_eq_ok (u := ()).mpr ⟨hfirst, rfl⟩
      have hremoved := removed_of_lwfsRemoveObj hremove
      obtain ⟨t, ht, hthen⟩ := ih hnodup fun h hmem => by
        apply (hremoved.live_iff h).mpr
        refine ⟨?_, hrest h hmem⟩
        rw [List.mem_singleton]
        rintro rfl
        exact hnot hmem
      refine ⟨t, (bind_of_ok hremove).trans ht, ?_⟩
      rw [List.map_cons]
      exact hremoved.append hthen

/-- What the management object of a file holds. -/
def FileObjs.header (new : FileObjs) : List UInt8 :=
  intBytes new.chunkSize ++
    (intBytes (Int32.ofNat new.dso.length) ++ arrayBytes new.dso)

theorem onBytes_eq_ok {α : Type} {x : Routine Fault ObjectStore α}
    {s t : Storage} {a : α} :
    onBytes x s = .ok a t ↔
      ∃ bytes, x s.bytes = .ok a bytes ∧ Storage.mk s.live bytes = t :=
  onPart_eq_ok

theorem lwfsWriteSync_others {outcome : Option ReturnCode} {obj : Obj}
    {offset : ℕ} {buf : List UInt8} {s t : ObjectStore} {u : Unit}
    (h : lwfsWriteSync outcome obj offset buf s = .ok u t) {x : ObjHandle}
    (hx : x ≠ objHandle obj) : t x = s x := by
  rw [lwfsWriteSync_eq_ok h, Function.update_of_ne hx]

theorem ssoStoreMo_others {writes : ℕ → Option ReturnCode} {mo : Obj}
    {chunkSize dsoCount : Int32} {dso : List ObjImage} {s t : ObjectStore}
    {u : Unit} (h : ssoStoreMo writes mo chunkSize dso dsoCount s = .ok u t)
    {x : ObjHandle} (hx : x ≠ objHandle mo) : t x = s x := by
  rw [ssoStoreMo] at h
  obtain ⟨_, s1, h1, h⟩ := bind_eq_ok.mp h
  obtain ⟨_, s2, h2, h⟩ := bind_eq_ok.mp h
  split at h
  · rw [lwfsWriteSync_others h hx, lwfsWriteSync_others h2 hx,
      lwfsWriteSync_others h1 hx]
  · exact absurd h throw_ne_ok

section Objects

variable {objOf : ObjImage → Obj} {env : LifeEnv Mac} {new : FileObjs}
  {s t : Storage} {u : Unit}

theorem handles_eq : new.handles objOf =
    (new.dso.map objOf).map objHandle ++ [objHandle new.mo] := by
  simp [FileObjs.handles, FileObjs.objs]

theorem mo_mem_handles : objHandle new.mo ∈ new.handles objOf := by
  simp [handles_eq]

/-- A file's objects have been created, and the references have been stored. -/
structure Stored (objOf : ObjImage → Obj) (new : FileObjs) (s t : Storage) :
    Prop where
  free : ∀ h ∈ new.handles objOf, ¬ s.live h = true
  nodup : (new.handles objOf).Nodup
  live_iff : ∀ h, t.live h = true ↔ h ∈ new.handles objOf ∨ s.live h = true
  header : t.bytes (objHandle new.mo) = new.header
  others : ∀ h, h ∉ new.handles objOf → t.bytes h = s.bytes h

theorem stored_of_ssoCreateObjs (h : ssoCreateObjs objOf env s = .ok u t) :
    Stored objOf env.new s t := by
  obtain ⟨_, v, hcreate, h⟩ := bind_eq_ok.mp h
  rw [get_bind] at h
  obtain ⟨bytes, hstore, rfl⟩ := onBytes_eq_ok.mp h
  have hc := created_of_createObjs hcreate
  refine ⟨hc.free, hc.nodup, hc.live_iff, ?_, fun x hx => ?_⟩
  · exact contents_of_ssoStoreMo env.new.count_int (hc.empty _ mo_mem_handles) hstore
  · have hne : x ≠ objHandle env.new.mo := by
      rintro rfl
      exact hx mo_mem_handles
    exact (ssoStoreMo_others hstore hne).trans (hc.others x hx)

theorem take_ssObjCount (hlen : new.dso.length < 2147483648) :
    new.dso.take (Int32.ofNat new.dso.length).toInt.toNat = new.dso := by
  rw [Int32.toInt_ofNat_of_lt hlen, Int.toNat_natCast, List.take_length]

/-- The objects of a file are removed if they are there with the references
that were stored. -/
theorem removed_of_removeObjs {entry : NsEntry}
    (htype : entry.entryObj.type = fileEntry)
    (hnodup : (new.handles objOf).Nodup)
    (hlive : ∀ h ∈ new.handles objOf, s.live h = true)
    (hheader : s.bytes (objHandle new.mo) = new.header)
    (h : removeObjs objOf env entry new.mo s = .ok u t) :
    Removed (new.handles objOf) s t := by
  obtain ⟨_, v, hdso, h⟩ := bind_eq_ok.mp h
  rw [removeDso, if_pos htype] at hdso
  obtain ⟨_, w, hget, hdso⟩ := bind_eq_ok.mp hdso
  obtain ⟨rfl, rfl⟩ := get_eq_ok.mp hget
  obtain ⟨dObj, w, hload, hdso⟩ := bind_eq_ok.mp hdso
  obtain ⟨bytes, hloaded, rfl⟩ := onBytes_eq_ok.mp hload
  obtain ⟨-, rfl, rfl⟩ := (ssoLoadMo_eq_ok new.count_int hheader).mp hloaded
  rw [take_ssObjCount new.count_int, ignore_apply] at hdso
  rw [handles_eq] at hnodup hlive ⊢
  obtain ⟨r, hremove, hremoved⟩ := removed_ssoRemoveDso
    (List.nodup_append.mp hnodup).1
    fun x hx => hlive x (List.mem_append_left _ hx)
  rw [final_of_ok hremove] at hdso
  cases hdso
  obtain ⟨houtcome, hfinal⟩ := mapOutcome_eq_ok.mp h
  have hlast := outcome_eq_ok.mp (orEio_eq_ok.mp houtcome)
  rw [hfinal] at hlast
  exact hremoved.append (removed_of_lwfsRemoveObj hlast)

end Objects

/-! ### What the naming server does -/

section Requests

variable {naming : Env Mac} {parent : NsEntry} {name : Name} {cap : Cap Mac}
  {db db' : NamingDb} {e : NsEntry}

theorem namingUnlink_eq_ok (hwf : WellFormed db) (hno : NoLinkObj db)
    (h : namingUnlink naming parent name cap db = .ok e db') :
    ∃ target, namingDbGetByName parent.direntOid name db = .ok target ∧
      Unlinked db target db' ∧ e = target.decremented.nsEntry := by
  simp only [namingUnlink, removeFrom, removeEntry, bind_eq_ok, reader_eq_ok,
    mapOutcome_eq_ok, orFail_eq_ok] at h
  obtain ⟨-, _, ⟨-, rfl⟩, -, _, ⟨-, rfl⟩, entry, t, ⟨hdel, rfl⟩, hcopy, rfl⟩ := h
  rw [outcome_eq_ok] at hdel
  cases hget : namingDbGetByName parent.direntOid name db with
  | error f =>
      rw [namingDbDel_of_error hget] at hdel
      cases hdel
  | ok target =>
      obtain ⟨-, hi⟩ := namingDbGetByName_eq_ok.mp hget
      have htype : target.decremented.inode.entryObj.type ≠ linkEntry := by
        show target.inode.entryObj.type ≠ linkEntry
        exact hno _ _ hi
      rcases refCnt_trichotomy (target.inode.refCnt - 1) with hcnt | hcnt | hcnt
      · have hlast := namingDbDel_last hwf hget hcnt
        rw [hlast] at hdel
        obtain ⟨rfl, hfinal⟩ := EStateM.Result.ok.inj hdel
        rw [copyDbToNsEntry_of_type htype] at hcopy
        refine ⟨target, rfl, ?_, (Except.ok.inj hcopy).symm⟩
        rw [← hfinal]
        exact .last hcnt
      · have hmore := namingDbDel_more hwf hget hcnt
        rw [hmore] at hdel
        obtain ⟨rfl, hfinal⟩ := EStateM.Result.ok.inj hdel
        rw [copyDbToNsEntry_of_type htype] at hcopy
        refine ⟨target, rfl, ?_, (Except.ok.inj hcopy).symm⟩
        rw [← hfinal]
        exact .more hcnt
      · rw [namingDbDel_negative hwf hget hcnt] at hdel
        cases hdel

theorem namingCreateFile_eq_ok {obj : Obj} (hfresh : Fresh naming db)
    (h : namingCreateFile naming parent name obj cap db = .ok e db') :
    let entry := newEntry naming parent.direntOid name fileEntry obj.cid (some obj)
    entry.dirent.key ∉ db.dirents ∧
      db' = (db.addDirent entry.dirent).putInode entry.inode ∧
      e.inodeOid = naming.inodeOid := by
  intro entry
  simp only [namingCreateFile, bind_eq_ok, reader_eq_ok] at h
  obtain ⟨-, _, ⟨-, rfl⟩, -, _, ⟨-, rfl⟩, _, _, hput, -, _, ⟨-, rfl⟩, hcopy, rfl⟩ := h
  have hkey : entry.dirent.key ∉ db.dirents := by
    intro hmem
    rw [namingDbPut_of_mem hmem] at hput
    cases hput
  rw [namingDbPut_newEntry hfresh hkey] at hput
  cases hput
  have htype : fileEntry ≠ linkEntry := by decide
  rw [copyDbToNsEntry_of_type htype] at hcopy
  cases hcopy
  exact ⟨hkey, rfl, rfl⟩

end Requests

/-! ### The files in the database -/

/-- An inode that `naming_create_file` has made. -/
structure IsFile (i : Inode) (mo : Obj) : Prop where
  valid : i.fileObjValid = true
  fileObj : i.fileObj = mo
  type : i.entryObj.type = fileEntry

/-- Every inode of `db'` is one of `db`, but for its count. -/
def Recounted (db db' : NamingDb) : Prop :=
  ∀ o i', db'.inodes.lookup o = some i' →
    ∃ i, db.inodes.lookup o = some i ∧ i' = i.withRefCnt i'.refCnt

/-- The inodes with objects are those of the files that have been created. -/
structure Entered (oids : InitOids) (files : List File) (db : NamingDb) :
    Prop where
  wf : WellFormed db
  tallied : Tallied oids db
  noLinkObj : NoLinkObj db
  counted : ∀ f ∈ files, f.inode ∉ oids.inodes
  isFile : ∀ f ∈ files, ∀ i, db.inodes.lookup f.inode = some i →
    IsFile i f.objs.mo
  owned : ∀ o i, db.inodes.lookup o = some i → i.fileObjValid = true →
    ∃ f ∈ files, f.inode = o

section Entered

variable {oids : InitOids} {files : List File} {db db' : NamingDb}

theorem recounted_putInode {d : Dirent} {i : Inode} {n : Int32}
    (hi : db.inodes.lookup d.inodeOid = some i)
    (hoid : i.entryObj.oid = d.inodeOid)
    (hinodes : db'.inodes = db.inodes) :
    Recounted db (db'.putInode (i.withRefCnt n)) := by
  intro o i' hi'
  by_cases hdo : d.inodeOid = o
  · subst hdo
    have hself : (db'.putInode (i.withRefCnt n)).inodes.lookup d.inodeOid =
        some (i.withRefCnt n) := lookup_putInode_self hoid
    obtain rfl := Option.some.inj (hself.symm.trans hi')
    exact ⟨i, hi, rfl⟩
  · rw [lookup_putInode_ne (by rwa [withRefCnt_oid, hoid]), hinodes] at hi'
    exact ⟨i', hi', rfl⟩

theorem recounted_delInode (d : Dirent) (o : Oid) :
    Recounted db ((db.delDirent d).delInode o) := by
  intro o' i' hi'
  by_cases ho : o = o'
  · subst ho
    rw [lookup_delInode_self] at hi'
    cases hi'
  · rw [lookup_delInode_ne ho] at hi'
    exact ⟨i', hi', rfl⟩

/-- A change that makes no inode. -/
theorem Entered.change (h : Entered oids files db) (hchange : Change db false db')
    (hre : Recounted db db') : Entered oids files db' where
  wf := hchange.wellFormed h.wf
  tallied := by
    apply hchange.tallied h.wf h.tallied
    intro o hnone hsome
    obtain ⟨i', hi'⟩ := Option.ne_none_iff_exists'.mp hsome
    obtain ⟨i, hi, -⟩ := hre o i' hi'
    rw [hnone] at hi
    cases hi
  noLinkObj o i' hi' := by
    obtain ⟨i, hi, heq⟩ := hre o i' hi'
    rw [heq]
    exact h.noLinkObj o i hi
  counted := h.counted
  isFile f hf i' hi' := by
    obtain ⟨i, hi, heq⟩ := hre _ i' hi'
    rw [heq]
    exact ⟨(h.isFile f hf i hi).1, (h.isFile f hf i hi).2, (h.isFile f hf i hi).3⟩
  owned o i' hi' hvalid := by
    obtain ⟨i, hi, heq⟩ := hre o i' hi'
    rw [heq] at hvalid
    exact h.owned o i hi hvalid

theorem Entered.linked (h : Entered oids files db) {naming : Env Mac}
    (hfresh : Fresh naming db) {parentOid : Oid} {name : Name} {target : DbEntry}
    (hi : db.inodes.lookup target.dirent.inodeOid = some target.inode)
    (hkey : (linkTo naming parentOid name target).dirent.key ∉ db.dirents) :
    Entered oids files
      (withLink db (linkTo naming parentOid name target) target) :=
  h.change (.linked _ _ ⟨hkey, hfresh.direntOid_ne, hfresh.dirent⟩ hi)
    (recounted_putInode (d := target.dirent) hi (h.wf.inode_oid _ _ hi) rfl)

theorem Entered.unlinked (h : Entered oids files db) {target : DbEntry}
    (hd : db.dirents.lookup target.dirent.key = some target.dirent)
    (hi : db.inodes.lookup target.dirent.inodeOid = some target.inode)
    (hu : Unlinked db target db') : Entered oids files db' := by
  cases hu with
  | last hcnt =>
      exact h.change (.removedLast _ _ hd hi hcnt) (recounted_delInode _ _)
  | more hcnt =>
      exact h.change (.removed _ _ hd hi hcnt)
        (recounted_putInode (d := target.dirent) hi (h.wf.inode_oid _ _ hi) rfl)

theorem Entered.created (h : Entered oids files db) {naming : Env Mac}
    (hfresh : Fresh naming db) {f : File} (hf : f.inode = naming.inodeOid)
    (hnot : f.inode ∉ oids.inodes) (hne : ∀ g ∈ files, g.inode ≠ f.inode)
    {parentOid : Oid} {name : Name} {cid : Cid} {entry : DbEntry}
    (hentry : entry = newEntry naming parentOid name fileEntry cid
      (some f.objs.mo)) (hkey : entry.dirent.key ∉ db.dirents) :
    Entered oids (f :: files)
      ((db.addDirent entry.dirent).putInode entry.inode) := by
  subst hentry
  have hchange := @Change.created db
    (newEntry naming parentOid name fileEntry cid (some f.objs.mo)).dirent
    (newEntry naming parentOid name fileEntry cid (some f.objs.mo)).inode
    ⟨hkey, hfresh.direntOid_ne, hfresh.dirent⟩ hfresh.links hfresh.inode rfl rfl
  have hlookup : ∀ {o i'}, ((db.addDirent (newEntry naming parentOid name
      fileEntry cid (some f.objs.mo)).dirent).putInode (newEntry naming parentOid
      name fileEntry cid (some f.objs.mo)).inode).inodes.lookup o = some i' →
      o = f.inode ∧ IsFile i' f.objs.mo ∨
        o ≠ f.inode ∧ db.inodes.lookup o = some i' := by
    intro o i' hi'
    by_cases ho : naming.inodeOid = o
    · refine .inl ⟨ho.symm.trans hf.symm, ?_⟩
      rw [lookup_putInode_self ho] at hi'
      cases hi'
      exact ⟨rfl, rfl, rfl⟩
    · rw [lookup_putInode_ne ho] at hi'
      exact .inr ⟨fun heq => ho (hf.symm.trans heq.symm), hi'⟩
  refine ⟨hchange.wellFormed h.wf, ?_, ?_, ?_, ?_, ?_⟩
  · apply hchange.tallied h.wf h.tallied
    intro o hnone hsome
    obtain ⟨i', hi'⟩ := Option.ne_none_iff_exists'.mp hsome
    rcases hlookup hi' with ⟨rfl, -⟩ | ⟨-, hi⟩
    · exact hnot
    · rw [hnone] at hi
      cases hi
  · intro o i' hi'
    rcases hlookup hi' with ⟨-, hfile⟩ | ⟨-, hi⟩
    · rw [hfile.type]
      decide
    · exact h.noLinkObj o i' hi
  · rw [List.forall_mem_cons]
    exact ⟨hnot, h.counted⟩
  · rw [List.forall_mem_cons]
    refine ⟨fun i' hi' => ?_, fun g hg i' hi' => ?_⟩
    · rcases hlookup hi' with ⟨-, hfile⟩ | ⟨hself, -⟩
      · exact hfile
      · exact absurd rfl hself
    · rcases hlookup hi' with ⟨heq, -⟩ | ⟨-, hi⟩
      · exact absurd heq (hne g hg)
      · exact h.isFile g hg i' hi
  · intro o i' hi' hvalid
    rcases hlookup hi' with ⟨rfl, -⟩ | ⟨-, hi⟩
    · exact ⟨f, List.mem_cons_self, rfl⟩
    · obtain ⟨g, hg, heq⟩ := h.owned o i' hi hvalid
      exact ⟨g, List.mem_cons_of_mem _ hg, heq⟩

/-- A count that comes to zero was one, or it has come round. -/
theorem sub_one_eq_zero_iff {n : ℕ} :
    Int32.ofNat n - 1 = 0 ↔ n % 4294967296 = 1 := by
  constructor
  · intro h
    have hone := eq_one_of_sub_one h
    have hdvd : (Int32.size : ℤ) ∣ Int.bmod (n : ℤ) Int32.size - n :=
      Int.dvd_bmod_sub_self
    have hsize : (Int32.size : ℤ) = 4294967296 := rfl
    rw [Int32.toInt_ofNat'] at hone
    rw [hone, hsize] at hdvd
    omega
  · intro h
    have hmod : Int32.ofNat n = Int32.ofNat (n % Int32.size) := by
      apply Int32.toInt_inj.mp
      rw [Int32.toInt_ofNat', Int32.toInt_ofNat', Int.natCast_emod,
        Int.emod_bmod]
    have hsize : n % Int32.size = 1 := h
    rw [hmod, hsize]
    decide

/-- Whether an entry was the last to name a file is what its count says, as
long as the count does not come round. -/
theorem Entered.unlinked_links (h : Entered oids files db) {f : File}
    (hf : f ∈ files) (hfits : db.links f.inode ≤ 4294967296) {target : DbEntry}
    (heq : target.dirent.inodeOid = f.inode)
    (hd : db.dirents.lookup target.dirent.key = some target.dirent)
    (hi : db.inodes.lookup target.dirent.inodeOid = some target.inode)
    (hu : Unlinked db target db') :
    0 < db'.links f.inode ↔ target.inode.refCnt - 1 ≠ 0 := by
  obtain ⟨n, missing, hlinks, hcnt, hmissing⟩ := h.tallied _ _ hi
  rw [heq] at hlinks hmissing
  have hzero : missing = 0 := by
    have := mt hmissing.mp (h.counted f hf)
    omega
  have hdel := links_delDirent (o := f.inode) hd
  rw [if_pos heq] at hdel
  cases hu with
  | last hlast =>
      rw [links_delInode]
      refine iff_of_false ?_ (not_not_intro hlast)
      rw [hcnt, sub_one_eq_zero_iff] at hlast
      omega
  | more hmore =>
      rw [links_putInode]
      refine iff_of_true ?_ ?_
      · have hn : n ≠ 1 := by
          rintro rfl
          rw [hcnt] at hmore
          exact absurd hmore (by decide)
        omega
      · intro hlast
        rw [hlast] at hmore
        exact absurd hmore (by decide)

end Entered

/-! ### The files on the storage servers -/

/-- The objects of each file exist exactly if an entry names its inode, and
the management object of a file that has a name holds the references. -/
structure Kept (objOf : ObjImage → Obj) (files : List File) (db : NamingDb)
    (s : Storage) : Prop where
  live_iff : ∀ f ∈ files, ∀ h ∈ f.objs.handles objOf,
    (s.live h = true ↔ 0 < db.links f.inode)
  header : ∀ f ∈ files, 0 < db.links f.inode →
    s.bytes (objHandle f.objs.mo) = f.objs.header
  inode_inj : ∀ f ∈ files, ∀ g ∈ files, f.inode = g.inode → f = g
  apart : ∀ f ∈ files, ∀ g ∈ files, ∀ h ∈ f.objs.handles objOf,
    h ∈ g.objs.handles objOf → f = g
  nodup : ∀ f ∈ files, (f.objs.handles objOf).Nodup

section Kept

variable {objOf : ObjImage → Obj} {files : List File} {db db' : NamingDb}
  {s t : Storage}

/-- The storage servers have nothing to do as long as no file loses its last
name. -/
theorem Kept.congr (h : Kept objOf files db s)
    (hlinks : ∀ f ∈ files, 0 < db'.links f.inode ↔ 0 < db.links f.inode) :
    Kept objOf files db' s where
  live_iff f hf x hx := (h.live_iff f hf x hx).trans (hlinks f hf).symm
  header f hf hpos := h.header f hf ((hlinks f hf).mp hpos)
  inode_inj := h.inode_inj
  apart := h.apart
  nodup := h.nodup

/-- The objects of one file are removed with its last name. -/
theorem Kept.removed (h : Kept objOf files db s) {f : File} (hf : f ∈ files)
    (hzero : db'.links f.inode = 0)
    (hlinks : ∀ o, o ≠ f.inode → db'.links o = db.links o)
    (hremoved : Removed (f.objs.handles objOf) s t) :
    Kept objOf files db' t where
  live_iff g hg x hx := by
    rw [hremoved.live_iff]
    by_cases hgf : g = f
    · subst hgf
      simp [hx, hzero]
    · have hne : g.inode ≠ f.inode := fun heq => hgf (h.inode_inj g hg f hf heq)
      have hnot : x ∉ f.objs.handles objOf := fun hmem =>
        hgf (h.apart g hg f hf x hx hmem)
      rw [hlinks _ hne, ← h.live_iff g hg x hx]
      exact and_iff_right hnot
  header g hg hpos := by
    have hne : g.inode ≠ f.inode := by
      intro heq
      rw [heq, hzero] at hpos
      exact Nat.lt_irrefl 0 hpos
    rw [hlinks _ hne] at hpos
    rw [hremoved.bytes_eq]
    exact h.header g hg hpos
  inode_inj := h.inode_inj
  apart := h.apart
  nodup := h.nodup

/-- A file is created with its objects. -/
theorem Kept.created (h : Kept objOf files db s) {f : File}
    (hne : ∀ g ∈ files, g.inode ≠ f.inode)
    (hapart : ∀ g ∈ files, ∀ x ∈ g.objs.handles objOf,
      x ∉ f.objs.handles objOf)
    (hpos : 0 < db'.links f.inode)
    (hlinks : ∀ o, o ≠ f.inode → db'.links o = db.links o)
    (hstored : Stored objOf f.objs s t) : Kept objOf (f :: files) db' t where
  live_iff := by
    rw [List.forall_mem_cons]
    refine ⟨fun x hx => ?_, fun g hg x hx => ?_⟩
    · exact iff_of_true ((hstored.live_iff x).mpr (.inl hx)) hpos
    · rw [hstored.live_iff, hlinks _ (hne g hg), ← h.live_iff g hg x hx]
      exact or_iff_right (hapart g hg x hx)
  header := by
    rw [List.forall_mem_cons]
    refine ⟨fun _ => hstored.header, fun g hg hg' => ?_⟩
    rw [hlinks _ (hne g hg)] at hg'
    rw [hstored.others _ (hapart g hg _ mo_mem_handles)]
    exact h.header g hg hg'
  inode_inj := by
    intro g hg g' hg' heq
    rcases List.mem_cons.mp hg with rfl | hgf <;>
      rcases List.mem_cons.mp hg' with rfl | hgf'
    · rfl
    · exact absurd heq.symm (hne g' hgf')
    · exact absurd heq (hne g hgf)
    · exact h.inode_inj g hgf g' hgf' heq
  apart := by
    intro g hg g' hg' x hx hx'
    rcases List.mem_cons.mp hg with rfl | hgf <;>
      rcases List.mem_cons.mp hg' with rfl | hgf'
    · rfl
    · exact absurd hx (hapart g' hgf' x hx')
    · exact absurd hx' (hapart g hgf x hx)
    · exact h.apart g hgf g' hgf' x hx hx'
  nodup := by
    rw [List.forall_mem_cons]
    exact ⟨hstored.nodup, h.nodup⟩

end Kept

/-! ### What the operations do -/

section Steps

variable {oids : InitOids} {objOf : ObjImage → Obj} {fs : FileSystem Mac}
  {env : LifeEnv Mac} {files : List File} {w w' : Servers}

theorem onNaming_eq_ok {α : Type} {x : FsRoutine α} {a : α} :
    onNaming x w = .ok a w' ↔
      ∃ t, x w.naming = .ok a t ∧ Servers.mk t w.storage = w' :=
  onPart_eq_ok

theorem onStorage_eq_ok {α : Type} {x : StorageRoutine α} {a : α} :
    onStorage x w = .ok a w' ↔
      ∃ t, x w.storage = .ok a t ∧ Servers.mk w.naming t = w' :=
  onPart_eq_ok

/-- The invariant of a client at work. -/
structure Sound (oids : InitOids) (objOf : ObjImage → Obj) (files : List File)
    (w : Servers) : Prop where
  entered : Entered oids files w.naming.db
  kept : Kept objOf files w.naming.db w.storage

theorem sound_of_createFile {pno : Pnode} {entry : NsEntry}
    (h : Sound oids objOf files w)
    (hnew : ∀ call, NewFileIds oids files w.naming.db (env.naming call))
    (hobjs : ∀ f ∈ files, ∀ x ∈ f.objs.handles objOf,
      x ∉ env.new.handles objOf)
    (hrun : createFile objOf env pno w = .ok entry w') :
    Sound oids objOf (⟨entry.inodeOid, env.new⟩ :: files) w' := by
  simp only [createFile, bind_eq_ok, onNaming_eq_ok, onStorage_eq_ok,
    reader_eq_ok] at hrun
  obtain ⟨name, _, ⟨_, hname, rfl⟩, cid, _, ⟨_, ⟨-, rfl⟩, rfl⟩, objsCap, _,
    ⟨_, hobjsCap, rfl⟩, cap, _, ⟨_, hcap, rfl⟩, _, _, ⟨s, hstore, rfl⟩, t, hentry,
    rfl⟩ := hrun
  obtain ⟨-, rfl⟩ := copyPnodeName_eq_ok.mp hname
  obtain ⟨-, rfl⟩ := checkCap_eq_ok.mp hobjsCap
  obtain ⟨-, rfl⟩ := checkCap_eq_ok.mp hcap
  have hfresh : ∀ call, Fresh (env.fsEnv.naming call) w.naming.db :=
    fun call => (hnew call).fresh
  rcases createEntry_cases (s := w.naming) 0 3 hfresh with
    ⟨-, hfail⟩ | ⟨call, u, hu, heq⟩
  · exact absurd hentry (hfail entry t)
  obtain ⟨-, hcreate, -⟩ := serve_eq_ok.mp (heq.symm.trans hentry)
  rw [hu] at hcreate
  obtain ⟨hkey, hdb, hoid⟩ := namingCreateFile_eq_ok (hfresh call) hcreate
  let f : File := ⟨entry.inodeOid, env.new⟩
  have hcounted : entry.inodeOid ∉ oids.inodes := by
    rw [hoid]
    exact (hnew call).counted
  have hother : ∀ g ∈ files, g.inode ≠ f.inode := by
    intro g hg heq
    exact (hnew call).other g hg (heq.trans hoid)
  have hlinks : ∀ o, t.db.links o = w.naming.db.links o +
      if entry.inodeOid = o then 1 else 0 := by
    intro o
    rw [hdb, links_putInode, links_addDirent hkey, hoid]
    rfl
  refine ⟨?_, ?_⟩
  · show Entered oids (f :: files) t.db
    rw [hdb]
    exact h.entered.created (hfresh call) (f := f) hoid hcounted hother rfl hkey
  · apply h.kept.created (f := f) hother hobjs _ _ (stored_of_ssoCreateObjs hstore)
    · show 0 < t.db.links entry.inodeOid
      rw [hlinks, if_pos rfl]
      exact Nat.succ_pos _
    · intro o ho
      show t.db.links o = w.naming.db.links o
      rw [hlinks, if_neg (Ne.symm ho), Nat.add_zero]

theorem sound_of_link {target pno : Pnode} {entry : NsEntry}
    (h : Sound oids objOf files w)
    (hnew : NewFileIds oids files w.naming.db (env.naming 0))
    (hrun : onNaming (lwfsInopLink fs env.fsEnv target pno) w = .ok entry w') :
    Sound oids objOf files w' ∧
      ∀ o, w'.naming.db.links o ≤ w.naming.db.links o + 1 := by
  obtain ⟨t, hlink, rfl⟩ := onNaming_eq_ok.mp hrun
  obtain ⟨-, -, -, e, hget, hkey, hdb⟩ := lwfsInopLink_eq_ok h.entered.wf hlink
  obtain ⟨hd, hi⟩ := namingDbGetByName_eq_ok.mp hget
  have hlinks : ∀ o, t.db.links o = w.naming.db.links o +
      if e.dirent.inodeOid = o then 1 else 0 := by
    intro o
    rw [hdb, withLink, links_putInode, links_addDirent hkey]
    rfl
  refine ⟨⟨?_, ?_⟩, ?_⟩
  · show Entered oids files t.db
    rw [hdb]
    exact h.entered.linked hnew.fresh hi hkey
  · apply h.kept.congr
    intro f hf
    show 0 < t.db.links f.inode ↔ _
    rw [hlinks]
    split_ifs with heq
    · -- the target names the file before
      have hpos : 0 < w.naming.db.links f.inode :=
        links_pos_iff.mpr ⟨_, _, hd, heq⟩
      omega
    · rfl
  · intro o
    show t.db.links o ≤ _
    rw [hlinks]
    split_ifs <;> omega

/-- Where a client decides on the objects. -/
theorem sound_of_removeFileObjs {target : DbEntry} {db : NamingDb}
    {files : List File} (hfits : ∀ f ∈ files, db.links f.inode ≤ 4294967296)
    (hentered : Entered oids files db) (hkept : Kept objOf files db w.storage)
    (hd : db.dirents.lookup target.dirent.key = some target.dirent)
    (hi : db.inodes.lookup target.dirent.inodeOid = some target.inode)
    (hu : Unlinked db target w.naming.db) {u : Unit}
    (hrun : removeFileObjs objOf env target.decremented.nsEntry w = .ok u w') :
    Sound oids objOf files w' := by
  have hothers : ∀ o, o ≠ target.dirent.inodeOid →
      w.naming.db.links o = db.links o := by
    intro o ho
    have hdel := links_delDirent (o := o) hd
    rw [if_neg (Ne.symm ho), Nat.add_zero] at hdel
    generalize w.naming.db = db' at hu
    cases hu with
    | last => rw [links_delInode, hdel]
    | more => rw [links_putInode, hdel]
  have hstays : Entered oids files w.naming.db := hentered.unlinked hd hi hu
  have hfileObj : target.decremented.nsEntry.fileObj =
      if target.inode.fileObjValid then some target.inode.fileObj else none := rfl
  have hlinkCnt : target.decremented.nsEntry.linkCnt =
      target.inode.refCnt - 1 := rfl
  by_cases hvalid : target.inode.fileObjValid = true
  · obtain ⟨f, hf, heq⟩ := hentered.owned _ _ hi hvalid
    have hfile := hentered.isFile f hf target.inode (heq ▸ hi)
    have hiff := hentered.unlinked_links hf (hfits f hf) heq.symm hd hi hu
    have hbefore : 0 < db.links f.inode :=
      links_pos_iff.mpr ⟨_, _, hd, heq.symm⟩
    rw [removeFileObjs, hfileObj, if_pos hvalid, hfile.fileObj] at hrun
    simp only [hlinkCnt] at hrun
    split at hrun
    · next hlast =>
      simp only [bind_eq_ok, onNaming_eq_ok, onStorage_eq_ok] at hrun
      obtain ⟨cap, _, ⟨_, hcap, rfl⟩, s, hremove, rfl⟩ := hrun
      obtain ⟨-, rfl⟩ := checkCap_eq_ok.mp hcap
      have hzero : w.naming.db.links f.inode = 0 := by
        by_contra hne
        exact hiff.mp (Nat.pos_of_ne_zero hne) hlast
      have hremoved := removed_of_removeObjs hfile.type
        (hkept.nodup f hf) (fun x hx => (hkept.live_iff f hf x hx).mpr hbefore)
        (hkept.header f hf hbefore) hremove
      exact ⟨hstays, hkept.removed hf hzero (heq ▸ hothers) hremoved⟩
    · next hmore =>
      obtain ⟨-, rfl⟩ := pure_eq_ok.mp hrun
      refine ⟨hstays, hkept.congr fun g hg => ?_⟩
      by_cases hgf : g.inode = f.inode
      · rw [hgf]
        exact iff_of_true (hiff.mpr hmore) hbefore
      · rw [hothers _ (heq ▸ hgf)]
  · -- the inode of a directory, which no file has
    rw [removeFileObjs, hfileObj, if_neg hvalid] at hrun
    obtain ⟨-, rfl⟩ := pure_eq_ok.mp hrun
    refine ⟨hstays, hkept.congr fun g hg => ?_⟩
    rw [hothers]
    intro heq
    exact hvalid (hentered.isFile g hg _ (heq ▸ hi)).valid

theorem sound_of_unlink {call : ℕ} {pno : Pnode} {u : Unit}
    (h : Sound oids objOf files w)
    (hfits : ∀ f ∈ files, w.naming.db.links f.inode ≤ 4294967296)
    (hrun : lwfsInopUnlink objOf env call pno w = .ok u w') :
    Sound oids objOf files w' := by
  simp only [lwfsInopUnlink, bind_eq_ok, onNaming_eq_ok] at hrun
  obtain ⟨name, _, ⟨_, hname, rfl⟩, cap, _, ⟨_, hcap, rfl⟩, entry, _,
    ⟨t, hunlink, rfl⟩, hremove⟩ := hrun
  obtain ⟨-, rfl⟩ := copyPnodeName_eq_ok.mp hname
  obtain ⟨-, rfl⟩ := checkCap_eq_ok.mp hcap
  obtain ⟨houtcome, hfinal⟩ := mapOutcome_eq_ok.mp hunlink
  have hserve := outcome_eq_ok.mp (orEio_eq_ok.mp houtcome)
  rw [hfinal] at hserve
  obtain ⟨-, hnaming, -⟩ := serve_eq_ok.mp hserve
  obtain ⟨target, hget, hu, rfl⟩ := namingUnlink_eq_ok h.entered.wf
    h.entered.noLinkObj hnaming
  obtain ⟨hd, hi⟩ := namingDbGetByName_eq_ok.mp hget
  have hkey := h.entered.wf.key_eq _ _ hd
  exact sound_of_removeFileObjs (w := ⟨t, w.storage⟩) hfits h.entered h.kept
    (hkey ▸ hd) hi hu hremove

theorem sound_of_rename {old new : Pnode} {u : Unit}
    (h : Sound oids objOf files w)
    (hnew : NewFileIds oids files w.naming.db (env.naming 0))
    (hfits : ∀ f ∈ files, w.naming.db.links f.inode < 4294967296)
    (hrun : lwfsInopRename objOf fs env old new w = .ok u w') :
    Sound oids objOf files w' := by
  obtain ⟨entry, v, hlink, hunlink⟩ := bind_eq_ok.mp hrun
  obtain ⟨hv, hlinks⟩ := sound_of_link h hnew hlink
  apply sound_of_unlink hv _ hunlink
  intro f hf
  have hle := hlinks f.inode
  have hlt := hfits f hf
  omega

end Steps

/-! ### Whole runs -/

section Runs

variable {oids : InitOids} {objOf : ObjImage → Obj} {fs : FileSystem Mac}

theorem lifeStep_of_ok {w : History} {r : LifeEnv Mac × LifeOp}
    {files : List File} {servers : Servers}
    (h : perform objOf fs r.1 r.2 w.servers = .ok files servers) :
    lifeStep objOf fs w r = ⟨servers, files ++ w.files⟩ := by
  rw [lifeStep, h]

/-- The invariant holds after an operation. -/
theorem sound_lifeStep {w : History} {r : LifeEnv Mac × LifeOp}
    (h : Sound oids objOf w.files w.servers) (hp : Proceeds oids objOf fs w r)
    (hcount : Countable w) :
    Sound oids objOf (lifeStep objOf fs w r).files
      (lifeStep objOf fs w r).servers := by
  obtain ⟨files, servers, hrun⟩ := hp.succeeds
  obtain ⟨env, op⟩ := r
  rw [lifeStep_of_ok hrun]
  cases op with
  | createFile pno =>
      obtain ⟨entry, hcreate, rfl⟩ := map_eq_ok.mp hrun
      exact sound_of_createFile h hp.newIds (hp.newObjs pno rfl) hcreate
  | link target pno =>
      obtain ⟨entry, hlink, rfl⟩ := map_eq_ok.mp hrun
      exact (sound_of_link h (hp.newIds 0) hlink).1
  | unlink pno =>
      obtain ⟨u, hunlink, rfl⟩ := map_eq_ok.mp hrun
      exact sound_of_unlink h (fun f hf => Nat.le_of_lt (hcount f hf)) hunlink
  | rename old new =>
      obtain ⟨u, hrename, rfl⟩ := map_eq_ok.mp hrun
      exact sound_of_rename h (hp.newIds 0) hcount hrename

/-- Before the client has created a file. -/
def History.start (s : Server) (storage : Storage) : History :=
  ⟨⟨s, storage⟩, []⟩

theorem sound_start (hoids : oids.Fresh) {s : Server}
    (hs : ReachableAnew Mac oids s) (hup : s.up = true) (hno : NoFiles s.db)
    (storage : Storage) :
    Sound oids objOf (History.start s storage).files
      (History.start s storage).servers := by
  obtain ⟨hwf, htallied⟩ := hs.countsTold hoids
  refine ⟨⟨hwf, htallied hup, hs.reachable.noLinkObj hoids, ?_, ?_, ?_⟩,
    ⟨?_, ?_, ?_, ?_, ?_⟩⟩
  · exact List.forall_mem_nil _
  · exact List.forall_mem_nil _
  · intro o i hi hvalid
    rw [hno o i hi] at hvalid
    cases hvalid
  all_goals exact List.forall_mem_nil _

/-- The objects of each file exist exactly if an entry names its inode. -/
def Lives (objOf : ObjImage → Obj) (w : History) : Prop :=
  ∀ f ∈ w.files, ∀ obj ∈ f.objs.objs objOf,
    (w.servers.storage.live (objHandle obj) = true ↔
      ∃ k d, w.db.dirents.lookup k = some d ∧ d.inodeOid = f.inode)

theorem Sound.lives {w : History} (h : Sound oids objOf w.files w.servers) :
    Lives objOf w := by
  intro f hf obj hobj
  rw [h.kept.live_iff f hf _ (List.mem_map_of_mem hobj), links_pos_iff]
  rfl

/-- After every run of operations that all succeed, from a naming server
without files, the management object and the data objects of each file exist
exactly if an entry names its inode, if before each operation fewer than
`2 ^ 32` entries do. -/
theorem live_iff_named (hoids : oids.Fresh) {s : Server}
    (hs : ReachableAnew Mac oids s) (hup : s.up = true) (hno : NoFiles s.db)
    (storage : Storage) {run : List (LifeEnv Mac × LifeOp)}
    (hrun : Run.Along (lifeStep objOf fs) (Proceeds oids objOf fs)
      (History.start s storage) run)
    (hcount : Run.Along (lifeStep objOf fs) (fun w _ => Countable w)
      (History.start s storage) run) :
    Lives objOf (Run.exec (lifeStep objOf fs) (History.start s storage) run) := by
  have hboth := (Run.along_and _ _ _ _ _).mpr ⟨hrun, hcount⟩
  have hstep : ∀ (w : History) (r : LifeEnv Mac × LifeOp),
      Sound oids objOf w.files w.servers →
      Proceeds oids objOf fs w r ∧ Countable w →
      Sound oids objOf (lifeStep objOf fs w r).files
        (lifeStep objOf fs w r).servers :=
    fun w r h hr => sound_lifeStep h hr.1 hr.2
  have hstart : Sound oids objOf (History.start s storage).files
      (History.start s storage).servers := sound_start hoids hs hup hno storage
  exact (Run.exec_invariant hstep hstart hboth).lives

end Runs

/-! ### Operations that succeed -/

section Succeeding

variable {objOf : ObjImage → Obj} {env : LifeEnv Mac} {w : Servers}
  {pno : Pnode} {entry : NsEntry} {t : Server} {s : Storage} {u : Unit}
  {cap : Cap Mac}

theorem onNaming_of_ok {α : Type} {x : FsRoutine α} {a : α}
    (h : x w.naming = .ok a t) : onNaming x w = .ok a ⟨t, w.storage⟩ :=
  onPart_of_ok h

theorem onStorage_of_ok {α : Type} {x : StorageRoutine α} {a : α}
    (h : x w.storage = .ok a s) : onStorage x w = .ok a ⟨w.naming, s⟩ :=
  onPart_of_ok h

theorem checkCap_of_ok {cid : Cid} {op : Opcode}
    (h : env.checkCapCache cid op = .ok cap) (t : Server) :
    checkCap env.fsEnv cid op t = .ok cap t :=
  checkCap_eq_ok.mpr ⟨h, rfl⟩

theorem createFile_of_ok {cid : Cid} {objsCap : Cap Mac}
    (hname : pno.name.length < nameLen) (hcid : env.checkCidCache = .ok cid)
    (hobjs : env.checkCapCache cid (containerWrite ||| containerRead) =
      .ok objsCap)
    (hcap : env.checkCapCache pno.parent.entryObj.cid
      (containerWrite ||| containerRead) = .ok cap)
    (hstore : ssoCreateObjs objOf env w.storage = .ok u s)
    (hentry : createEntry env.fsEnv pno.parent pno.name env.new.mo cap 0 3
      w.naming = .ok entry t) :
    createFile objOf env pno w = .ok entry ⟨t, s⟩ := by
  have hcopy := copyPnodeName_eq_ok (s := w.naming) |>.mpr ⟨⟨hname, rfl⟩, rfl⟩
  have hcid' : Routine.reader (fun _ => env.checkCidCache.mapError FsError.code)
      w.naming = .ok cid w.naming := reader_of_ok (by rw [hcid]; rfl)
  have hobjs' := checkCap_of_ok hobjs w.naming
  have hcap' := checkCap_of_ok hcap w.naming
  rw [createFile, bind_of_ok (onNaming_of_ok hcopy),
    bind_of_ok (onNaming_of_ok hcid'), bind_of_ok (onNaming_of_ok hobjs'),
    bind_of_ok (onNaming_of_ok hcap'), bind_of_ok (onStorage_of_ok hstore)]
  exact onNaming_of_ok hentry

theorem lwfsInopUnlink_of_ok {call : ℕ} {db : NamingDb}
    (hname : pno.name.length < nameLen)
    (hcap : env.checkCapCache pno.parent.entryObj.cid containerWrite = .ok cap)
    (hup : w.naming.up = true)
    (hunlink : namingUnlink (env.naming call) pno.parent pno.name cap
      w.naming.db = .ok entry db) :
    lwfsInopUnlink objOf env call pno w =
      removeFileObjs objOf env entry ⟨⟨db, true⟩, w.storage⟩ := by
  have hcopy := copyPnodeName_eq_ok (s := w.naming) |>.mpr ⟨⟨hname, rfl⟩, rfl⟩
  have hcap' := checkCap_of_ok hcap w.naming
  rw [lwfsInopUnlink, bind_of_ok (onNaming_of_ok hcopy),
    bind_of_ok (onNaming_of_ok hcap'),
    bind_of_ok (onNaming_of_ok (serve_orEio_of_ok hup hunlink))]

theorem removeFileObjs_of_ok {mo : Obj} (hmo : entry.fileObj = some mo)
    (hlast : entry.linkCnt = 0)
    (hcap : env.checkCapCache mo.cid containerWrite = .ok cap)
    (hremove : removeObjs objOf env entry mo w.storage = .ok u s) :
    removeFileObjs objOf env entry w = .ok u ⟨w.naming, s⟩ := by
  have hcap' := checkCap_of_ok hcap w.naming
  rw [removeFileObjs, hmo]
  simp only [if_pos hlast]
  rw [bind_of_ok (onNaming_of_ok hcap')]
  exact onStorage_of_ok hremove

end Succeeding

/-! ### A file with many names -/

/-- The reference in an image that is zero but for the id. -/
def imageObj (image : ObjImage) : Obj :=
  { Obj.zero with oid := ⟨(image.bytes.drop 96).take uuidSize, by
    have hlen : image.bytes.length = 120 := image.length_eq
    rw [List.length_take, List.length_drop, hlen]
    rfl⟩ }

/-- A management object and one data object. -/
def twoObjs : FileObjs where
  mo := Obj.zero
  chunkSize := 4096
  dso := [⟨List.replicate 96 0 ++ List.replicate uuidSize 7 ++ List.replicate 8 0,
    by rfl⟩]
  count_int := by decide

def rootFs : FileSystem Unit := ⟨rootDir, readWriteCap⟩

/-- Every service grants what it is asked for, and nothing fails. -/
def willingEnv (n : ℕ) : LifeEnv Unit where
  checkCapCache _ _ := .ok readWriteCap
  checkCidCache := .ok Obj.zero.cid
  naming _ := countingEnv n
  new := twoObjs
  write _ := none
  load := ⟨none, fun _ => none, 120⟩

/-- No objects yet. -/
def emptyStorage : Storage := ⟨fun _ => false, fun _ => []⟩

def emptyHistory : History :=
  History.start (Server.init countingOids) emptyStorage

def fileNode : Pnode := ⟨rootDir, fileName⟩

/-- The file is created, and linked to `n` times. -/
def namesRun (n : ℕ) : List (LifeEnv Unit × LifeOp) :=
  (willingEnv 0, .createFile fileNode) ::
    (List.range n).map fun j =>
      (willingEnv (j + 1), .link fileNode ⟨rootDir, linkName (j + 1)⟩)

theorem namesRun_zero :
    namesRun 0 = [(willingEnv 0, .createFile fileNode)] := rfl

theorem namesRun_succ (n : ℕ) : namesRun (n + 1) = namesRun n ++
    [(willingEnv (n + 1), .link fileNode ⟨rootDir, linkName (n + 1)⟩)] := by
  simp only [namesRun, List.range_succ, List.map_append, List.map_cons,
    List.map_nil, List.cons_append]

/-- The storage servers when the file has been created. -/
@[irreducible] def filledStorage : Storage :=
  (ssoCreateObjs imageObj (willingEnv 0)).final emptyStorage

theorem ssoCreateObjs_twoObjs :
    ssoCreateObjs imageObj (willingEnv 0) emptyStorage = .ok () filledStorage := by
  unfold filledStorage
  exact outcome_eq_ok.mp (by decide +kernel)

def namedFile : File := ⟨oidOf 11, twoObjs⟩

/-- What the naming server returns when the file is created. -/
def namedEntry : NsEntry :=
  (newEntry (countingEnv 0) countingOids.root fileName fileEntry 0
    (some Obj.zero)).nsEntry

theorem perform_createFile : perform imageObj rootFs (willingEnv 0)
    (.createFile fileNode) emptyHistory.servers = .ok [namedFile]
      ⟨step (Server.init countingOids) createFileStep, filledStorage⟩ := by
  have hserve : serve (namingCreateFile (countingEnv 0) rootDir fileName Obj.zero
      readWriteCap) (Server.init countingOids) = .ok namedEntry
        (step (Server.init countingOids) createFileStep) := by
    rw [← final_serve (r := createFileStep) (f := .nsEntry) rfl]
    exact outcome_eq_ok.mp (by decide +kernel)
  have hentry : createEntry (willingEnv 0).fsEnv rootDir fileName Obj.zero
      readWriteCap 0 3 (Server.init countingOids) = .ok namedEntry
        (step (Server.init countingOids) createFileStep) := tryCatch_of_ok hserve
  have hcreate : Lifetime.createFile imageObj (willingEnv 0) fileNode
      emptyHistory.servers = .ok namedEntry
        ⟨step (Server.init countingOids) createFileStep, filledStorage⟩ :=
    createFile_of_ok (by decide) rfl rfl rfl ssoCreateObjs_twoObjs hentry
  exact map_of_ok hcreate

theorem reachableAnew_init : ReachableAnew Unit countingOids
    (Server.init countingOids) := ⟨[], trivial, rfl⟩

theorem noFiles_init : NoFiles (Server.init countingOids).db := by
  intro o i hi
  rw [init_db countingOids_fresh] at hi
  rcases lookup_inodes_addEntry hi with rfl | hi
  · rfl
  rcases lookup_inodes_addEntry hi with rfl | hi
  · rfl
  rcases lookup_inodes_addEntry hi with rfl | hi
  · rfl
  · cases hi

theorem sound_emptyHistory : Sound countingOids imageObj emptyHistory.files
    emptyHistory.servers :=
  sound_start countingOids_fresh reachableAnew_init rfl noFiles_init emptyStorage

theorem newFileIds_countingEnv {n : ℕ} {db : NamingDb}
    (hfresh : Fresh (countingEnv (n + 1)) db) (hn : n < 2 ^ 33) :
    NewFileIds countingOids [namedFile] db (countingEnv (n + 1)) where
  fresh := hfresh
  counted := by
    have hne : ∀ k < 11, oidOf (11 + 2 * (n + 1)) ≠ oidOf k := by
      intro k hk heq
      have := (oidOf_inj (by omega) (by omega)).mp heq
      omega
    show oidOf (11 + 2 * (n + 1)) ∉ [oidOf 0, oidOf 1, oidOf 3]
    simp only [List.mem_cons, List.not_mem_nil, or_false, not_or]
    exact ⟨hne 0 (by omega), hne 1 (by omega), hne 3 (by omega)⟩
  other f hf := by
    rw [List.mem_singleton.mp hf]
    show oidOf 11 ≠ oidOf (11 + 2 * (n + 1))
    intro heq
    have := (oidOf_inj (by omega) (by omega)).mp heq
    omega

theorem proceeds_createFile : Proceeds countingOids imageObj rootFs emptyHistory
    (willingEnv 0, .createFile fileNode) where
  succeeds := ⟨_, _, perform_createFile⟩
  newIds _ := by
    have hfresh : Fresh (countingEnv 0) emptyHistory.db := by decide
    have hcounted : (countingEnv 0).inodeOid ∉ countingOids.inodes := by decide
    exact ⟨hfresh, hcounted, List.forall_mem_nil _⟩
  newObjs _ _ := List.forall_mem_nil _

theorem perform_link {n : ℕ} {s : Server} (h : Linked n s)
    (hn : n < 2 ^ 33 - 1) : perform imageObj rootFs (willingEnv (n + 1))
      (.link fileNode ⟨rootDir, linkName (n + 1)⟩) ⟨s, filledStorage⟩ = .ok []
        ⟨step s (createLinkStep (n + 1) (linkName (n + 1))), filledStorage⟩ := by
  obtain ⟨d, i, ns, -, -, -, -, -, hlink⟩ := h.link_eq hn
  have hstep : step s (createLinkStep (n + 1) (linkName (n + 1))) =
      ⟨(s.db.addDirent d).putInode i, true⟩ := step_of_ok h.up (map_of_ok hlink)
  have hlen := length_linkName (n := n + 1) (by omega)
  have hshort : Short fileNode ⟨rootDir, linkName (n + 1)⟩ := by
    refine ⟨?_, by decide⟩
    show (linkName (n + 1)).length < 64
    omega
  have hinop : lwfsInopLink rootFs (willingEnv (n + 1)).fsEnv fileNode
      ⟨rootDir, linkName (n + 1)⟩ s =
        .ok ns ⟨(s.db.addDirent d).putInode i, true⟩ :=
    (lwfsInopLink_of_short hshort).trans (serve_orEio_of_ok h.up hlink)
  have hrun : onNaming (lwfsInopLink rootFs (willingEnv (n + 1)).fsEnv fileNode
      ⟨rootDir, linkName (n + 1)⟩) ⟨s, filledStorage⟩ =
        .ok ns ⟨⟨(s.db.addDirent d).putInode i, true⟩, filledStorage⟩ :=
    onNaming_of_ok (w := ⟨s, filledStorage⟩) hinop
  rw [hstep, perform, map_of_ok hrun]

/-- The file has `n + 1` names. -/
structure Named (n : ℕ) (w : History) (s : Server) : Prop where
  linked : Linked n s
  sound : Sound countingOids imageObj [namedFile] ⟨s, filledStorage⟩
  state : w = ⟨⟨s, filledStorage⟩, [namedFile]⟩

theorem named_namesRun {n : ℕ} (hn : n ≤ 2 ^ 33 - 1) :
    Run.Along (lifeStep imageObj rootFs) (Proceeds countingOids imageObj rootFs)
      emptyHistory (namesRun n) ∧
    ∃ s, Named n (Run.exec (lifeStep imageObj rootFs) emptyHistory (namesRun n))
      s := by
  induction n with
  | zero =>
      have hsound := sound_lifeStep sound_emptyHistory proceeds_createFile
        (List.forall_mem_nil _)
      have hstep : lifeStep imageObj rootFs emptyHistory
          (willingEnv 0, .createFile fileNode) = _ :=
        lifeStep_of_ok perform_createFile
      rw [hstep] at hsound
      rw [namesRun_zero, Run.exec_cons, Run.exec_nil, hstep]
      exact ⟨⟨proceeds_createFile, trivial⟩, _, linked_zero, hsound, rfl⟩
  | succ n ih =>
      obtain ⟨hrun, s, hlinked, hsound, hstate⟩ := ih (by omega)
      have hperform := perform_link hlinked hn
      have hnew := newFileIds_countingEnv (hlinked.fresh hn) (by omega)
      have hstep : lifeStep imageObj rootFs ⟨⟨s, filledStorage⟩, [namedFile]⟩
          (willingEnv (n + 1), .link fileNode ⟨rootDir, linkName (n + 1)⟩) = _ :=
        lifeStep_of_ok hperform
      have hproceeds : Proceeds countingOids imageObj rootFs
          ⟨⟨s, filledStorage⟩, [namedFile]⟩
          (willingEnv (n + 1), .link fileNode ⟨rootDir, linkName (n + 1)⟩) := by
        refine ⟨⟨_, _, hperform⟩, fun _ => hnew, ?_⟩
        intro pno hop
        cases hop
      rw [namesRun_succ, Run.along_append, Run.exec_append, hstate]
      refine ⟨⟨hrun, hproceeds, trivial⟩, _, hlinked.step hn, ?_, hstep⟩
      obtain ⟨entry, hlink, -⟩ := map_eq_ok.mp hperform
      exact (sound_of_link hsound hnew hlink).1

theorem removeObjs_congr {objOf : ObjImage → Obj} {env env' : LifeEnv Mac}
    {entry entry' : NsEntry} {mo : Obj} (hload : env.load = env'.load)
    (htype : entry.entryObj.type = entry'.entryObj.type) :
    removeObjs objOf env entry mo = removeObjs objOf env' entry' mo := by
  simp only [removeObjs, removeDso, hload, htype]

theorem removeObjs_twoObjs {k : ℕ} {entry : NsEntry}
    (htype : entry.entryObj.type = fileEntry) : ∃ t,
    removeObjs imageObj (willingEnv k) entry Obj.zero filledStorage = .ok () t := by
  have hsame : removeObjs imageObj (willingEnv k) entry Obj.zero =
      removeObjs imageObj (willingEnv 0) namedEntry Obj.zero :=
    removeObjs_congr rfl htype
  rw [hsame]
  exact ⟨_, outcome_eq_ok.mp (by decide +kernel)⟩

/-- The count comes round to one, and the client takes one of several names
for the last. -/
theorem perform_unlink {n : ℕ} {w : History} {s : Server} (h : Named n w s)
    (hround : (n + 1) % 4294967296 = 1) : ∃ t storage,
    perform imageObj rootFs (willingEnv (n + 1)) (.unlink fileNode)
      ⟨s, filledStorage⟩ = .ok [] ⟨t, storage⟩ ∧
    ¬ storage.live (objHandle Obj.zero) = true ∧ t.db.links (oidOf 11) = n := by
  have hlinked := h.linked
  have hentered : Entered countingOids [namedFile] s.db := h.sound.entered
  have hkept : Kept imageObj [namedFile] s.db filledStorage := h.sound.kept
  have hmem : namedFile ∈ [namedFile] := List.mem_singleton_self _
  obtain ⟨e, hget, -, hinode, -⟩ := hlinked.file
  obtain ⟨hd, hi⟩ := namingDbGetByName_eq_ok.mp hget
  have hlinks := hlinked.links
  obtain ⟨counted, missing, hsum, hcnt, hmissing⟩ := hentered.tallied _ _ hi
  rw [hinode] at hsum hmissing
  have hnot := hentered.counted namedFile hmem
  have hlast : e.inode.refCnt - 1 = 0 := by
    have hzero : ¬ 0 < missing := fun hpos => hnot (hmissing.mp hpos)
    have hcounted : counted = n + 1 := by omega
    rw [hcnt, hcounted, sub_one_eq_zero_iff]
    exact hround
  have hi' : s.db.inodes.lookup namedFile.inode = some e.inode := by
    rw [← hi, hinode]
    rfl
  have hfile := hentered.isFile namedFile hmem e.inode hi'
  have hpermits : permits (countingEnv (n + 1)) rootDir readWriteCap s.db = true :=
    permits_iff.mpr ⟨rfl, hlinked.checkPerm_root (n + 1) (by decide)⟩
  have hunlink := namingUnlink_of_unlinked hlinked.wf hentered.noLinkObj hpermits
    hget (.last hlast)
  have hmo : e.decremented.nsEntry.fileObj = some Obj.zero := by
    show (if e.inode.fileObjValid then some e.inode.fileObj else none) = _
    rw [if_pos hfile.valid, hfile.fileObj]
    rfl
  have htype : e.decremented.nsEntry.entryObj.type = fileEntry := hfile.type
  obtain ⟨storage, hremove⟩ := removeObjs_twoObjs (k := n + 1) htype
  have hpos : 0 < s.db.links (oidOf 11) := by omega
  have hremoved := removed_of_removeObjs htype
    (hkept.nodup namedFile hmem)
    (fun x hx => (hkept.live_iff namedFile hmem x hx).mpr hpos)
    (hkept.header namedFile hmem hpos) hremove
  have hrun : lwfsInopUnlink imageObj (willingEnv (n + 1)) 0 fileNode
      ⟨s, filledStorage⟩ = .ok () ⟨⟨_, true⟩, storage⟩ :=
    (lwfsInopUnlink_of_ok (by decide) rfl hlinked.up hunlink).trans
      (removeFileObjs_of_ok hmo hlast rfl hremove)
  refine ⟨⟨(s.db.delDirent e.dirent).delInode e.dirent.inodeOid, true⟩, storage,
    ?_, ?_, ?_⟩
  · rw [perform, map_of_ok hrun]
  · rw [hremoved.live_iff]
    rintro ⟨hgone, -⟩
    exact hgone mo_mem_handles
  · have hkey := hlinked.wf.key_eq _ _ hd
    have hdel := links_delDirent (o := oidOf 11) (hkey ▸ hd)
    rw [if_pos hinode] at hdel
    rw [links_delInode]
    omega

theorem comes_round {n : ℕ} (hn : n < 2 ^ 33 - 1) (hpos : 0 < n)
    (hround : (n + 1) % 4294967296 = 1) : ∃ run,
    Run.Along (lifeStep imageObj rootFs) (Proceeds countingOids imageObj rootFs)
      emptyHistory run ∧
    ¬ Lives imageObj (Run.exec (lifeStep imageObj rootFs) emptyHistory run) := by
  obtain ⟨hrun, s, hnamed⟩ := named_namesRun (n := n) (Nat.le_of_lt hn)
  obtain ⟨t, storage, hperform, hgone, hlinks⟩ := perform_unlink hnamed hround
  have hnew := newFileIds_countingEnv (hnamed.linked.fresh hn) (by omega)
  have hstep : lifeStep imageObj rootFs ⟨⟨s, filledStorage⟩, [namedFile]⟩
      (willingEnv (n + 1), .unlink fileNode) = _ := lifeStep_of_ok hperform
  have hproceeds : Proceeds countingOids imageObj rootFs
      ⟨⟨s, filledStorage⟩, [namedFile]⟩ (willingEnv (n + 1), .unlink fileNode) := by
    refine ⟨⟨_, _, hperform⟩, fun _ => hnew, ?_⟩
    intro pno hop
    cases hop
  refine ⟨namesRun n ++ [(willingEnv (n + 1), .unlink fileNode)], ?_, ?_⟩
  · rw [Run.along_append, hnamed.state]
    exact ⟨hrun, hproceeds, trivial⟩
  · rw [Run.exec_append, hnamed.state, Run.exec_cons, Run.exec_nil, hstep]
    intro hlives
    have hiff := hlives namedFile List.mem_cons_self Obj.zero
      (List.mem_append_right _ (List.mem_singleton_self _))
    refine hgone (hiff.mpr (links_pos_iff.mp ?_))
    show 0 < t.db.links (oidOf 11)
    omega

/-- A file is created, `2 ^ 32` links to it are made, and one of its names is
removed. Its objects are gone, and `2 ^ 32` names are left. -/
theorem not_lives_comes_round :
    ¬ ∀ run, Run.Along (lifeStep imageObj rootFs)
        (Proceeds countingOids imageObj rootFs) emptyHistory run →
      Lives imageObj (Run.exec (lifeStep imageObj rootFs) emptyHistory run) := by
  intro h
  obtain ⟨run, hrun, hnot⟩ := comes_round (n := 4294967296) (by decide)
    (by decide) (by decide)
  exact hnot (h run hrun)

/-! ### A file that is renamed and removed -/

theorem proceeds_willingEnv {w : History} {n : ℕ} {op : LifeOp}
    (hop : ∀ pno, op ≠ .createFile pno)
    (hok : ((perform imageObj rootFs (willingEnv n) op).outcome w.servers).isOk)
    (hfresh : Fresh (countingEnv n) w.db)
    (hcounted : (countingEnv n).inodeOid ∉ countingOids.inodes)
    (hother : ∀ f ∈ w.files, f.inode ≠ (countingEnv n).inodeOid) :
    Proceeds countingOids imageObj rootFs w (willingEnv n, op) where
  succeeds := by
    cases hout : (perform imageObj rootFs (willingEnv n) op).outcome w.servers with
    | ok files => exact ⟨files, _, outcome_eq_ok.mp hout⟩
    | error failure =>
        rw [hout] at hok
        cases hok
  newIds _ := ⟨hfresh, hcounted, hother⟩
  newObjs pno heq := absurd heq (hop pno)

/-- The file is linked to and renamed, and loses both names. -/
def wholeLife : List (LifeEnv Unit × LifeOp) :=
  [(willingEnv 0, .createFile fileNode),
    (willingEnv 1, .link fileNode ⟨rootDir, ['g']⟩),
    (willingEnv 2, .rename fileNode ⟨rootDir, ['h']⟩),
    (willingEnv 3, .unlink ⟨rootDir, ['g']⟩),
    (willingEnv 4, .unlink ⟨rootDir, ['h']⟩)]

instance (w : History) : Decidable (Countable w) :=
  inferInstanceAs (Decidable (∀ f ∈ w.files, w.db.links f.inode < 4294967296))

theorem live_iff_named_wholeLife :
    Lives imageObj (Run.exec (lifeStep imageObj rootFs) emptyHistory
      wholeLife) := by
  have hrun : Run.Along (lifeStep imageObj rootFs)
      (Proceeds countingOids imageObj rootFs) emptyHistory wholeLife := by
    refine ⟨proceeds_createFile, ?_, ?_, ?_, ?_, trivial⟩
    all_goals
      apply proceeds_willingEnv
      · rintro pno ⟨⟩
      · decide +kernel
      · decide +kernel
      · decide
      · decide +kernel
  exact live_iff_named countingOids_fresh reachableAnew_init rfl noFiles_init
    emptyStorage hrun (by decide +kernel)

end Lwfs.FsLwfs.Lifetime
