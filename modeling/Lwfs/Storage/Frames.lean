import Lwfs.Storage.Server

/-!
What the routines of the object interface can change.

A relation between the state before and the state after is kept by a routine if
the calls of the host that the routine makes keep it, and the changes that it
makes to memory. Reading an object makes few of those, and `Passive` names
them. `Passes` names the rest.
-/

namespace Lwfs.Storage

open SysLib Routine

variable {Mac : Type} {env : Env Mac} {root : Path}
  {R : Store → Store → Prop}

/-- The relation is kept by what reading an object does: it opens and closes
files, and changes elements and the list of open files. -/
structure Passive (env : Env Mac) (R : Store → Store → Prop) : Prop where
  memory : ∀ s t : Store, t.files = s.files → t.oidHash = s.oidHash →
    t.attrs = s.attrs → R s t
  sysOpen : ∀ path,
    Within R (sys env fun o fs => fs.sysOpen env.toFdRule o path)
  sysClose : ∀ fd, Within R (sys env fun o fs => fs.sysClose o fd)
  sysLseek : ∀ fd pos, Within R (sys env fun o fs => fs.sysLseek o fd pos)
  sysRead : ∀ fd len, Within R (sys env fun o fs => fs.sysRead o fd len)
  sysFstat : ∀ fd, Within R (sys env fun o fs => fs.sysFstat o fd)

/-- The relation is kept by what the other operations do as well. -/
structure Passes (env : Env Mac) (root : Path) (R : Store → Store → Prop) : Prop
    extends Passive env R where
  table : ∀ s t : Store, t.files = s.files → t.attrs = s.attrs → R s t
  sysAccess : ∀ path, Within R (sys env fun o fs => fs.sysAccess o path)
  sysCreat : ∀ oid, Within R (sys env fun o fs =>
    fs.sysCreat env.toFdRule o (fileName shortPath root oid))
  sysRemove : ∀ path, Within R (sys env fun o fs => fs.sysRemove o path)
  sysWrite : ∀ fd src, Within R (sys env fun o fs => fs.sysWrite o fd src)
  sysFsync : ∀ fd, Within R (sys env fun o fs => fs.sysFsync o fd)
  sysFtruncate : ∀ fd size,
    Within R (sys env fun o fs => fs.sysFtruncate o fd size)

section Reads

variable [Std.Refl R] [IsTrans Store R]

theorem oidEl_within (a : ℕ) : Within R (oidEl a) :=
  within_bind within_get fun s => by
    cases s.heap.lookup a with
    | none => exact within_throw _
    | some el => exact within_pure el

theorem findOid_within (oid : Oid) : Within R (findOid oid) :=
  within_bind within_get fun _ => within_pure _

end Reads

namespace Passive

variable [Std.Refl R] [IsTrans Store R] (h : Passive env R)

include h

omit [Std.Refl R] [IsTrans Store R] in
theorem setOidEl (a : ℕ) (el : OidEl) : Within R (setOidEl a el) :=
  within_modify fun _ => h.memory _ _ rfl rfl rfl

theorem closeTheOpenFile (a : ℕ) : Within R (closeTheOpenFile env a) :=
  within_bind (oidEl_within a) fun el =>
    within_ite (fun _ => within_pure _) fun _ =>
      within_bind (h.sysClose el.fd) fun _ =>
        within_ite (fun _ => h.setOidEl a _) fun _ => within_pure _

theorem removeFromOpenFiles (a : ℕ) :
    Within R (removeFromOpenFiles env a) :=
  within_bind (oidEl_within a) fun _ =>
    within_bind (within_reader _) fun _ =>
      within_bind (within_modify fun _ => h.memory _ _ rfl rfl rfl) fun _ =>
        h.closeTheOpenFile a

omit [Std.Refl R] [IsTrans Store R] in
theorem tclistUnshift (a : ℕ) : Within R (tclistUnshift a) :=
  within_modify fun _ => h.memory _ _ rfl rfl rfl

theorem addToOpenFiles (a : ℕ) : Within R (addToOpenFiles env a) :=
  within_bind within_get fun _ =>
    within_ite (fun _ => h.tclistUnshift a) fun _ =>
      within_ite
        (fun _ => within_bind (h.removeFromOpenFiles _) fun _ =>
          h.tclistUnshift a)
        fun _ => within_pure _

theorem openElement (a : ℕ) (path : Path) :
    Within R (openElement env a path) :=
  within_bind (h.sysOpen path) fun _ =>
    within_bind (oidEl_within a) fun _ =>
      within_ite
        (fun _ => within_bind (h.setOidEl a _) fun _ => within_pure _)
        fun _ => within_bind (h.setOidEl a _) fun _ =>
          within_bind (h.addToOpenFiles a) fun _ => within_pure _

theorem openOid (oid : Oid) : Within R (openOid env root oid) :=
  within_bind (findOid_within oid) fun found => by
    cases found with
    | none => exact within_pure _
    | some a =>
        exact within_bind (oidEl_within a) fun _ =>
          within_ite
            (fun _ => within_bind (h.openElement a _) fun _ => within_pure _)
            fun _ => within_pure _

theorem dropUnusable (canUse : Mode → Bool) (a : ℕ) :
    Within R (dropUnusable env canUse a) :=
  within_bind (oidEl_within a) fun _ =>
    within_ite (fun _ => h.removeFromOpenFiles a) fun _ => within_pure _

theorem reopen (canUse : Mode → Bool) (oid : Oid) (a : ℕ) :
    Within R (reopen env root canUse oid a) :=
  within_bind (h.dropUnusable canUse a) fun _ =>
    within_bind (oidEl_within a) fun _ =>
      within_ite (fun _ => h.openElement a _) fun _ => within_pure _

theorem sysioObjRead (oid : Oid) (off : ℕ) (dest : List UInt8) :
    Within R (sysioObjRead env root oid off dest) :=
  within_bind (h.openOid oid) fun opened => by
    cases opened with
    | none => exact within_pure _
    | some a =>
        exact within_bind (h.reopen canReadFile oid a) fun _ =>
          within_ite (fun _ => within_pure _) fun _ =>
            within_bind (oidEl_within a) fun el =>
              within_bind (h.sysLseek el.fd off) fun _ =>
                within_ite (fun _ => within_pure _) fun _ =>
                  within_ite (fun _ => within_pure _) fun _ =>
                    within_bind (h.sysRead el.fd dest.length) fun data => by
                      cases data with
                      | none => exact within_pure _
                      | some data => exact within_pure _

theorem readOp (obj : Obj) (off len : ℕ) :
    Within R (readOp env root obj off len) :=
  within_bind (h.sysioObjRead obj.oid off _) fun _ =>
    within_ite (fun _ => within_throw _) fun _ =>
      within_ite (fun _ => within_pure _) fun _ => by
        cases env.putData with
        | none => exact within_pure _
        | some rc => exact within_throw _

theorem sysioObjStat (oid : Oid) :
    Within R (sysioObjStat env root oid) :=
  within_bind (h.openOid oid) fun opened => by
    cases opened with
    | none => exact within_pure _
    | some a =>
        exact within_bind (oidEl_within a) fun el =>
          within_bind (h.sysFstat el.fd) fun size => by
            cases size with
            | none => exact within_throw _
            | some size => exact within_pure _

omit [Std.Refl R] [IsTrans Store R] in
theorem dbCall : Within R (dbCall env) := by
  intro s
  simp only [Storage.dbCall, final]
  split
  · next heq =>
    split at heq <;> cases heq
    exact h.memory _ _ rfl rfl rfl
  · next heq =>
    split at heq <;> cases heq
    exact h.memory _ _ rfl rfl rfl

theorem db1Get (key : Db1Key) : Within R (db1Get env key) :=
  within_bind h.dbCall fun _ => within_bind within_get fun s => by
    cases s.attrs.lookup key with
    | none => exact within_throw _
    | some attr => exact within_pure attr

theorem db2Get (oid : Oid) (maxlen : ℕ) : Within R (db2Get env oid maxlen) :=
  within_bind h.dbCall fun _ => within_bind within_get fun s => by
    cases Table.filter AttrEntry.oid s.attrs oid with
    | nil => exact within_throw _
    | cons attr attrs =>
        exact within_ite (fun _ => within_throw _) fun _ => within_pure _

theorem sysioObjListattrs (oid : Oid) :
    Within R (sysioObjListattrs env oid) :=
  have hsize : Within R (db2Size env oid) :=
    within_bind h.dbCall fun _ =>
      within_bind within_get fun _ => within_pure _
  within_bind (within_mapOutcome hsize _) fun _ => h.db2Get oid _

theorem sysioObjGetattr (oid : Oid) (name : Name) :
    Within R (sysioObjGetattr env oid name) :=
  within_bind (h.db1Get _) fun _ => within_pure _

end Passive

namespace Passes

variable [Std.Refl R] [IsTrans Store R] (h : Passes env root R)

include h

omit [Std.Refl R] [IsTrans Store R] in
theorem addOid (oid : Oid) : Within R (addOid oid) :=
  fun _ => h.table _ _ rfl rfl

theorem sysioObjCreate (oid : Oid) : Within R (sysioObjCreate env root oid) :=
  within_bind (h.sysAccess _) fun _ =>
    within_ite (fun _ => within_throw _) fun _ =>
      within_bind (h.sysCreat oid) fun fd =>
        within_ite (fun _ => within_throw _) fun _ =>
          within_bind (h.sysClose fd) fun _ =>
            within_ite (fun _ => within_throw _) fun _ =>
              within_bind (h.addOid oid) fun a => h.addToOpenFiles a

theorem sysioObjWrite (oid : Oid) (off : ℕ) (src : List UInt8) :
    Within R (sysioObjWrite env root oid off src) :=
  within_bind (h.openOid oid) fun opened => by
    cases opened with
    | none => exact within_throw _
    | some a =>
        exact within_bind (h.reopen canWriteFile oid a) fun _ =>
          within_ite (fun _ => within_pure _) fun _ =>
            within_bind (oidEl_within a) fun el =>
              within_bind (h.sysLseek el.fd off) fun _ =>
                within_ite (fun _ => within_pure _) fun _ =>
                  within_bind (h.sysWrite el.fd src) fun count => by
                    cases count with
                    | none => exact within_pure _
                    | some count => exact within_pure _

theorem writeOp (obj : Obj) (off : ℕ) (data : List UInt8) :
    Within R (writeOp env root obj off data) := by
  rw [Storage.writeOp]
  cases env.getData with
  | some rc => exact within_throw _
  | none =>
      exact within_bind (h.sysioObjWrite obj.oid off data) fun _ =>
        within_ite (fun _ => within_pure _) fun _ =>
          within_ite (fun _ => within_throw _) fun _ => within_throw _

theorem sysioObjFsync (oid : Oid) : Within R (sysioObjFsync env root oid) :=
  within_bind (h.openOid oid) fun opened => by
    cases opened with
    | none => exact within_throw _
    | some a =>
        exact within_bind (oidEl_within a) fun el =>
          within_bind (h.sysFsync el.fd) fun _ =>
            within_ite (fun _ => within_pure _) fun _ => within_throw _

theorem sysioObjTrunc (oid : Oid) (size : ℕ) :
    Within R (sysioObjTrunc env root oid size) :=
  within_bind (h.openOid oid) fun opened => by
    cases opened with
    | none => exact within_pure _
    | some a =>
        exact within_bind (oidEl_within a) fun el =>
          within_bind (h.sysFtruncate el.fd size) fun _ => within_pure _

theorem truncateOp (obj : Obj) (size : ℕ) :
    Within R (truncateOp env root obj size) :=
  within_bind (h.sysioObjTrunc obj.oid size) fun _ =>
    within_ite (fun _ => within_throw _) fun _ => within_pure _

theorem removeOid (oid : Oid) : Within R (removeOid env oid) :=
  within_bind (findOid_within oid) fun found => by
    cases found with
    | none => exact within_pure _
    | some a =>
        have hdrop : Within R (dropOpen env a) :=
          within_bind (oidEl_within a) fun _ => within_ite
            (fun _ => h.removeFromOpenFiles a) fun _ => within_pure _
        exact within_bind (within_modify fun _ => h.table _ _ rfl rfl) fun _ =>
          within_bind hdrop fun _ =>
            within_bind (within_modify fun _ => h.table _ _ rfl rfl) fun _ =>
              within_pure _

theorem removeObjByOid (oid : Oid) :
    Within R (removeObjByOid env root oid) :=
  within_bind (h.removeOid oid) fun _ =>
    within_ite (fun _ => within_pure _) fun _ =>
      within_bind (h.sysRemove _) fun _ =>
        within_ite (fun _ => within_pure _) fun _ => within_throw _

end Passes

/-! ### The database -/

section Database

variable [Std.Refl R] [IsTrans Store R]
  (h : ∀ (s : Store) (attrs : Table Db1Key AttrEntry) (calls : ℕ),
    R s { s with attrs := attrs, calls := calls })

include h

omit [Std.Refl R] [IsTrans Store R] in
theorem dbCall_within : Within R (dbCall env) := by
  intro s
  simp only [dbCall, final]
  split
  · next heq =>
    split at heq <;> cases heq
    exact h s s.attrs _
  · next heq =>
    split at heq <;> cases heq
    exact h s s.attrs _

theorem setattr_within (oid : Oid) (name : Name) (value : List UInt8) :
    Within R (sysioObjSetattr env oid name value) :=
  within_bind (within_ite (fun _ => within_throw _) fun _ => within_pure _)
    fun _ => within_bind (dbCall_within h) fun _ =>
      within_modify fun s => h s _ s.calls

theorem ssDbGetAttrByName_within (oid : Oid) (name : Name) :
    Within R (ssDbGetAttrByName env oid name) :=
  within_bind (dbCall_within h) fun _ => within_bind within_get fun s => by
    cases s.attrs.lookup (db1Keygen oid name) with
    | none => exact within_throw _
    | some attr => exact within_pure attr

theorem getattr_within (oid : Oid) (name : Name) :
    Within R (sysioObjGetattr env oid name) :=
  within_bind (ssDbGetAttrByName_within h oid name) fun _ => within_pure _

theorem dbDel_within (attr : AttrEntry) : Within R (dbDel env attr) := by
  refine within_bind (dbCall_within h) fun _ s => ?_
  show R s (Routine.final (if db1Keygen attr.oid attr.name ∈ s.attrs then _
    else _) s)
  split
  · exact h s _ s.calls
  · exact Std.Refl.refl s

theorem rmattr_within (oid : Oid) (name : Name) :
    Within R (sysioObjRmattr env oid name) :=
  within_bind (within_bind (ssDbGetAttrByName_within h oid name) fun attr =>
    within_bind (dbDel_within h attr) fun _ => within_pure _) fun _ =>
      within_pure _

theorem listattrs_within (oid : Oid) : Within R (sysioObjListattrs env oid) := by
  have hsize : Within R (db2Size env oid) :=
    within_bind (dbCall_within h) fun _ =>
      within_bind within_get fun _ => within_pure _
  refine within_bind (within_mapOutcome hsize _) fun _ =>
    within_bind (dbCall_within h) fun _ => within_bind within_get fun s => ?_
  cases Table.filter AttrEntry.oid s.attrs oid with
  | nil => exact within_throw _
  | cons attr attrs =>
      exact within_ite (fun _ => within_throw _) fun _ => within_pure _

theorem rmAllAttrs_within (oid : Oid) : Within R (rmAllAttrs env oid) :=
  within_bind (within_mapOutcome (listattrs_within h oid) _) fun names =>
    within_forM (rmattr_within h oid) names

end Database

end Lwfs.Storage
