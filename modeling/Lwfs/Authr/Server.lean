import Lwfs.Authr.Cap
import Lwfs.Authr.Db
import Lwfs.Authr.Uids
import Lwfs.Lib.Run

/-!
The authorization server: the checks its handlers share, the handlers, and
the system that takes one request after the other.

The bodies of the loops over the container operations have names of their
own. Trace intervals and the operation counters are left out; nothing reads
them but the statistics that `lwfs_authr_srvr_fini` prints.
-/

namespace Lwfs.Authr

open SysLib

/-- What the server fixes at start-up: which checks are on, its key, and the
library routines it calls. -/
structure Srvr (Key Mac : Type) where
  aclDbEnabled : Bool
  capsEnabled : Bool
  credsEnabled : Bool
  authrSvcKey : Key
  hmac : Key → List UInt8 → Mac
  qsort : Qsort Uid

/-- `lwfs_authr_srvr_init`: one option turns the checks of capabilities and
of access-control lists on, and credentials are never checked. A server without
these checks has not opened its database either, and crashes at the first call
on it, in `create_container`. Here the database is there, so that all that is
said of such a server is said of more than it can do. -/
def Srvr.init {Key Mac : Type} (verifyCaps : Bool) (authrSvcKey : Key)
    (hmac : Key → List UInt8 → Mac) (qsort : Qsort Uid) : Srvr Key Mac where
  aclDbEnabled := verifyCaps
  capsEnabled := verifyCaps
  credsEnabled := false
  authrSvcKey := authrSvcKey
  hmac := hmac
  qsort := qsort

variable {Key Mac : Type}

namespace Srvr

variable (srv : Srvr Key Mac)

/-! ### The checks -/

/-- The turn of the loop of `check_perm` for one operation. -/
def checkPermOp (cid : Cid) (containerOp : Opcode) (uid : Uid)
    (testop : Opcode) : DbRoutine Unit :=
  if testop = containerCreate then pure ()
  else if requests containerOp testop then do
    let acl ← authrDbGetAcl cid testop
    match bsearch uid acl compareUids with
    | none => throw (.code .errAccess)
    | some _ => pure ()
  else pure ()

def checkPerm (cid : Cid) (containerOp : Opcode) (uid : Uid) :
    DbRoutine Unit :=
  if srv.aclDbEnabled then
    containerOps.forM (checkPermOp cid containerOp uid)
  else pure ()

def checkCred (_cred : Cred) : DbRoutine Unit :=
  if srv.credsEnabled then throw (.code .errNotsupp) else pure ()

variable [DecidableEq Mac]

def checkCap (cap : Cap Mac) : DbRoutine Unit :=
  if srv.capsEnabled then
    Routine.reader fun _ => verifyCap srv.hmac srv.authrSvcKey cap
  else pure ()

def checkAuthorization (cid : Cid) (containerOp : Opcode) (cap : Cap Mac) :
    DbRoutine Unit :=
  if cap.data.cid ≠ cid then throw (.code .errVerifycap)
  else if ¬ requests containerOp cap.data.containerOp then
    throw (.code .errVerifycap)
  else do
    srv.checkCred cap.data.cred
    srv.checkCap cap
    srv.checkPerm cid containerOp cap.data.cred.uid

/-- Whether `check_authorization` succeeds. -/
def authorizes (db : AclDb) (cid : Cid) (containerOp : Opcode)
    (cap : Cap Mac) : Bool :=
  match srv.checkAuthorization cid containerOp cap db with
  | .ok _ _ => true
  | .error _ _ => false

/-! ### The handlers -/

/-- The operations in the capability that `create_container` returns. -/
def ownerOps : Opcode := containerModacl ||| containerRemove ||| containerRead

/-- The turn of the loop of `create_container` for one operation. -/
def createAcl (cid : Cid) (uid : Uid) (testop : Opcode) : DbRoutine Unit :=
  if requests ownerOps testop then authrDbPutAcl cid testop [uid]
  else authrDbPutAcl cid testop []

omit [DecidableEq Mac] in
/-- The part of `create_container` that inserts the lists of a new
container. -/
def createAcls (cid : Cid) (uid : Uid) : DbRoutine Unit :=
  if srv.aclDbEnabled then containerOps.forM (createAcl cid uid) else pure ()

omit [DecidableEq Mac] in
def createContainer (cid : Cid) (cap : Cap Mac) : DbRoutine (Cap Mac) := do
  let cred := cap.data.cred
  -- For now, anyone can perform this operation.
  let cid ← authrDbCreateContainer cid
  srv.createAcls cid cred.uid
  pure (generateCap srv.hmac srv.authrSvcKey
    { cid, containerOp := ownerOps, cred })

/-- The turn of the loop of `remove_container` for one operation: it is fine
if the list did not exist. -/
def removeAcl (cid : Cid) (testop : Opcode) : DbRoutine Unit :=
  tryCatch (authrDbDelAcl cid testop) fun e =>
    if e = .code .errNoent then pure () else throw e

def removeContainer (cid : Cid) (cap : Cap Mac) : DbRoutine Unit := do
  srv.checkAuthorization cid containerRemove cap
  containerOps.forM (removeAcl cid)
  authrDbRemoveContainer cid

def getAcl (cid : Cid) (containerOp : Opcode) (cap : Cap Mac) :
    DbRoutine (List Uid) := do
  srv.checkAuthorization cid containerRead cap
  authrDbGetAcl cid containerOp

/-- What `mod_acl` makes of one list, and what it leaves of the `unset` array
for the operations that follow. -/
def modifyUids (q : Qsort Uid) (orig : List Uid)
    (set unset : Option (List Uid)) : List Uid × Option (List Uid) :=
  let result := match set with
    | none => orig
    | some set => addUids q orig set
  match unset with
  | none => (result, none)
  | some unset =>
      let (result, unset) := removeUids q result unset
      (result, some unset)

/-- The turn of the loop of `mod_acl` for one operation; it returns the
`unset` array as it leaves it. -/
def modAclOp (cid : Cid) (containerOp : Opcode) (set : Option (List Uid))
    (unset : Option (List Uid)) (testop : Opcode) :
    DbRoutine (Option (List Uid)) :=
  if requests containerOp testop then do
    let orig ← authrDbGetAcl cid testop
    let (result, unset) := modifyUids srv.qsort orig set unset
    authrDbDelAcl cid testop
    authrDbPutAcl cid testop result
    pure unset
  else pure unset

def modAcl (cid : Cid) (containerOp : Opcode) (set unset : Option (List Uid))
    (modaclCap : Cap Mac) : DbRoutine Unit := do
  srv.checkAuthorization cid containerModacl modaclCap
  if srv.aclDbEnabled then do
    let _ ← containerOps.foldlM (srv.modAclOp cid containerOp set) unset
    pure ()
  else pure ()

omit [DecidableEq Mac] in
def getCap (cid : Cid) (containerOp : Opcode) (cred : Cred) :
    DbRoutine (Cap Mac) := do
  srv.checkCred cred
  srv.checkPerm cid containerOp cred.uid
  pure (generateCap srv.hmac srv.authrSvcKey { cid, containerOp, cred })

/-- The turn of the loop of `verify_caps` for one capability. -/
def verifyOne (cap : Cap Mac) : DbRoutine Unit := do
  srv.checkCred cap.data.cred
  srv.checkCap cap
  srv.checkPerm cap.data.cid cap.data.containerOp cap.data.cred.uid

def verifyCaps (caps : List (Cap Mac)) : DbRoutine Unit :=
  caps.forM srv.verifyOne

end Srvr

/-! ### What the handlers keep -/

section Checks

open Routine

variable {R : AclDb → AclDb → Prop} [Std.Refl R] [IsTrans AclDb R]
  (srv : Srvr Key Mac)

omit [IsTrans AclDb R] in
theorem authrDbGetAcl_within (cid : Cid) (opcode : Opcode) :
    Within R (authrDbGetAcl cid opcode) :=
  within_reader _

theorem checkPermOp_within (cid : Cid) (containerOp : Opcode) (uid : Uid)
    (testop : Opcode) :
    Within R (Srvr.checkPermOp cid containerOp uid testop) := by
  refine within_ite (fun _ => within_pure _) fun _ =>
    within_ite (fun _ => ?_) fun _ => within_pure _
  refine within_bind (authrDbGetAcl_within cid testop) fun acl => ?_
  cases bsearch uid acl compareUids with
  | none => exact within_throw _
  | some i => exact within_pure _

theorem checkPerm_within (cid : Cid) (containerOp : Opcode) (uid : Uid) :
    Within R (srv.checkPerm cid containerOp uid) :=
  within_ite (fun _ => within_forM (checkPermOp_within cid containerOp uid) _)
    fun _ => within_pure _

omit [IsTrans AclDb R] in
theorem checkCred_within (cred : Cred) : Within R (srv.checkCred cred) :=
  within_ite (fun _ => within_throw _) fun _ => within_pure _

variable [DecidableEq Mac]

omit [IsTrans AclDb R] in
theorem checkCap_within (cap : Cap Mac) : Within R (srv.checkCap cap) :=
  within_ite (fun _ => within_reader _) fun _ => within_pure _

/-- The checks of a request never write to the database. -/
theorem checkAuthorization_within (cid : Cid) (containerOp : Opcode)
    (cap : Cap Mac) : Within R (srv.checkAuthorization cid containerOp cap) :=
  within_ite (fun _ => within_throw _) fun _ =>
    within_ite (fun _ => within_throw _) fun _ =>
      within_bind (checkCred_within srv _) fun _ =>
        within_bind (checkCap_within srv _) fun _ =>
          checkPerm_within srv _ _ _

theorem getAcl_within (cid : Cid) (containerOp : Opcode) (cap : Cap Mac) :
    Within R (srv.getAcl cid containerOp cap) :=
  within_bind (checkAuthorization_within srv _ _ _) fun _ =>
    authrDbGetAcl_within _ _

omit [DecidableEq Mac] in
theorem getCap_within (cid : Cid) (containerOp : Opcode) (cred : Cred) :
    Within R (srv.getCap cid containerOp cred) :=
  within_bind (checkCred_within srv cred) fun _ =>
    within_bind (checkPerm_within srv _ _ _) fun _ => within_pure _

theorem verifyCaps_within (caps : List (Cap Mac)) :
    Within R (srv.verifyCaps caps) :=
  within_forM (fun _ =>
    within_bind (checkCred_within srv _) fun _ =>
      within_bind (checkCap_within srv _) fun _ =>
        checkPerm_within srv _ _ _) caps

end Checks

section Keeps

open Routine

variable {P : List Uid → Prop} (srv : Srvr Key Mac)

theorem createContainer_keeps (hnil : P []) (hone : ∀ uid, P [uid])
    (cid : Cid) (cap : Cap Mac) :
    Within (Keeps (AclDb.Holds P)) (srv.createContainer cid cap) := by
  refine within_bind (authrDbCreateContainer_keeps hnil cid) fun cid' =>
    within_bind (within_ite (fun _ => ?_) fun _ => within_pure _)
      fun _ => within_pure _
  exact within_forM (fun testop =>
    within_ite (fun _ => authrDbPutAcl_keeps cid' testop (hone _))
      fun _ => authrDbPutAcl_keeps cid' testop hnil) _

variable [DecidableEq Mac]

theorem removeContainer_keeps (cid : Cid) (cap : Cap Mac) :
    Within (Keeps (AclDb.Holds P)) (srv.removeContainer cid cap) := by
  refine within_bind (checkAuthorization_within srv _ _ _) fun _ =>
    within_bind (within_forM (fun testop => ?_) _) fun _ =>
      authrDbRemoveContainer_keeps cid
  exact within_tryCatch (authrDbDelAcl_keeps cid testop) fun e =>
    within_ite (fun _ => within_pure _) fun _ => within_throw e

end Keeps

/-! ### The system -/

/-- A request with its arguments, as a client sends it. -/
inductive Request (Mac : Type)
  | createContainer (cid : Cid) (cap : Cap Mac)
  | removeContainer (cid : Cid) (cap : Cap Mac)
  | getAcl (cid : Cid) (containerOp : Opcode) (cap : Cap Mac)
  | modAcl (cid : Cid) (containerOp : Opcode)
      (set unset : Option (List Uid)) (cap : Cap Mac)
  | getCap (cid : Cid) (containerOp : Opcode) (cred : Cred)
  | verifyCaps (caps : List (Cap Mac))
  deriving DecidableEq

/-- The capability in the result of a request, if it succeeds and has one. -/
def Srvr.issues (srv : Srvr Key Mac) (db : AclDb) :
    Request Mac → Option (Cap Mac)
  | .createContainer cid cap =>
      ((srv.createContainer cid cap).outcome db).toOption
  | .getCap cid containerOp cred =>
      ((srv.getCap cid containerOp cred).outcome db).toOption
  | _ => none

/-- The database after a request. -/
def Srvr.step [DecidableEq Mac] (srv : Srvr Key Mac) (db : AclDb) :
    Request Mac → AclDb
  | .createContainer cid cap => (srv.createContainer cid cap).final db
  | .removeContainer cid cap => (srv.removeContainer cid cap).final db
  | .getAcl cid containerOp cap => (srv.getAcl cid containerOp cap).final db
  | .modAcl cid containerOp set unset cap =>
      (srv.modAcl cid containerOp set unset cap).final db
  | .getCap cid containerOp cred => (srv.getCap cid containerOp cred).final db
  | .verifyCaps caps => (srv.verifyCaps caps).final db

/-- A database that a run of requests leads to from the empty one. -/
def Srvr.Reachable [DecidableEq Mac] (srv : Srvr Key Mac) (db : AclDb) :
    Prop :=
  ∃ run, db = Run.exec srv.step AclDb.empty run

end Lwfs.Authr
