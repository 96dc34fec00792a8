import Lwfs.Authr.Server
import Lwfs.Lib.Prog

/-!
The database steps of the requests.

The server runs its requests in threads, and nothing keeps the database calls
of one request together. Here each request is a program that makes these calls
one by one, and each call can fail. A program that runs alone, and none of
whose calls fails, does what the request does in one go.
-/

namespace Lwfs.Authr

open SysLib

/-- A call of the database. The key of the counter is none of the others. -/
inductive DbCall
  | get (key : Keystr)
  /-- `put` with `DB_NOOVERWRITE`. -/
  | put (key : Keystr) (acl : List Uid)
  | del (key : Keystr)
  | getCid
  | putCid (cid : Cid)
  deriving DecidableEq

inductive PutReply
  | stored
  | keyexist
  | failed
  deriving DecidableEq

inductive DelReply
  | deleted
  | notfound
  | failed
  deriving DecidableEq

namespace DbCall

/-- What a call can return. A `get` that fails and one that finds nothing are
not told apart. -/
@[reducible] def Reply : DbCall → Type
  | get _ => Option (List Uid)
  | put _ _ => PutReply
  | del _ => DelReply
  | getCid => Option Cid
  | putCid _ => Bool

/-- One call, which the database can fail to serve. -/
def exec (fails : Bool) : (c : DbCall) → AclDb → c.Reply × AclDb
  | get key, db => (if fails then none else db.acls.lookup key, db)
  | put key acl, db =>
      if fails then (.failed, db)
      else if key ∈ db.acls then (.keyexist, db)
      else (.stored, db.putAcl key acl)
  | del key, db =>
      if fails then (.failed, db)
      else if key ∈ db.acls then (.deleted, db.delAcl key)
      else (.notfound, db)
  | getCid, db => (if fails then none else db.counter, db)
  | putCid cid, db =>
      if fails then (false, db) else (true, { db with counter := some cid })

section Exec

variable {db : AclDb} {key : Keystr}

theorem exec_put_of_mem (h : key ∈ db.acls) (acl : List Uid) :
    exec false (.put key acl) db = (.keyexist, db) := by
  simp [exec, h]

theorem exec_put_of_notMem (h : key ∉ db.acls) (acl : List Uid) :
    exec false (.put key acl) db = (.stored, db.putAcl key acl) := by
  simp [exec, h]

theorem exec_del_of_mem (h : key ∈ db.acls) :
    exec false (.del key) db = (.deleted, db.delAcl key) := by
  simp [exec, h]

theorem exec_del_of_notMem (h : key ∉ db.acls) :
    exec false (.del key) db = (.notfound, db) := by
  simp [exec, h]

end Exec

end DbCall

/-- The database, and how often it has been called. -/
structure FaultyDb where
  db : AclDb
  calls : ℕ

/-- One call of a database that fails to serve some calls. -/
def FaultyDb.exec (fails : ℕ → Bool) (c : DbCall) (s : FaultyDb) :
    c.Reply × FaultyDb :=
  let r := c.exec (fails s.calls) s.db
  (r.1, ⟨r.2, s.calls + 1⟩)

abbrev DbProg := Prog DbCall DbCall.Reply Fault

namespace Steps

/-! ### The database routines -/

def authrDbPutAcl (cid : Cid) (opcode : Opcode) (acl : List Uid) :
    DbProg Unit :=
  .call (.put (putKey cid opcode) acl) fun
    | .stored => pure ()
    | .keyexist => throw (.code .errExist)
    | .failed => throw (.code .errSec)

def authrDbGetAcl (cid : Cid) (opcode : Opcode) : DbProg (List Uid) :=
  .call (.get (getKey cid opcode)) fun
    | none => throw (.code .errNoent)
    | some acl => pure acl

def authrDbDelAcl (cid : Cid) (opcode : Opcode) : DbProg Unit :=
  .call (.del (getKey cid opcode)) fun
    | .deleted => pure ()
    | .notfound => throw (.code .errNoent)
    | .failed => throw (.code .errSec)

def authrDbContainerExists (cid : Cid) : DbProg Bool :=
  .call (.get (getKey cid opExists)) fun found => pure (Option.isSome found)

/-- `create_cid`: a counter that cannot be read is taken for zero. -/
def createCid : DbProg Cid :=
  .call .getCid fun found =>
    let cid := Option.getD found 0 + 1
    .call (.putCid cid) fun
      | true => pure cid
      | false => throw (.code .errSec)

/-- The loop of `authr_db_create_container`, as far as `fuel` turns. -/
def createFreshCid : ℕ → DbProg Cid
  | 0 => throw .hang
  | fuel + 1 => do
      let cid ← createCid
      let found ← authrDbContainerExists cid
      if found then createFreshCid fuel else pure cid

def authrDbCreateContainer (fuel : ℕ) (cid : Cid) : DbProg Cid :=
  if cid = cidAny then createFreshCid fuel
  else do
    let found ← authrDbContainerExists cid
    if found then throw (.code .errExist)
    else do
      authrDbPutAcl cid opExists []
      pure cid

def authrDbRemoveContainer (cid : Cid) : DbProg Unit := do
  let found ← authrDbContainerExists cid
  if found then do
    authrDbDelAcl cid opExists
    let found ← authrDbContainerExists cid
    if found then throw (.code .err) else pure ()
  else throw (.code .errNoent)

/-! ### The checks -/

section Srvr

variable {Key Mac : Type} (srv : Srvr Key Mac)

def checkPermOp (cid : Cid) (containerOp : Opcode) (uid : Uid)
    (testop : Opcode) : DbProg Unit :=
  if testop = containerCreate then pure ()
  else if requests containerOp testop then do
    let acl ← authrDbGetAcl cid testop
    match bsearch uid acl compareUids with
    | none => throw (.code .errAccess)
    | some _ => pure ()
  else pure ()

def checkPerm (cid : Cid) (containerOp : Opcode) (uid : Uid) : DbProg Unit :=
  if srv.aclDbEnabled then containerOps.forM (checkPermOp cid containerOp uid)
  else pure ()

def checkCred (_cred : Cred) : DbProg Unit :=
  if srv.credsEnabled then throw (.code .errNotsupp) else pure ()

/-! ### The requests -/

def createAcl (cid : Cid) (uid : Uid) (testop : Opcode) : DbProg Unit :=
  if requests Srvr.ownerOps testop then authrDbPutAcl cid testop [uid]
  else authrDbPutAcl cid testop []

def createAcls (cid : Cid) (uid : Uid) : DbProg Unit :=
  if srv.aclDbEnabled then containerOps.forM (createAcl cid uid) else pure ()

def createContainer (fuel : ℕ) (cid : Cid) (cap : Cap Mac) :
    DbProg (Cap Mac) := do
  let cred := cap.data.cred
  let cid ← authrDbCreateContainer fuel cid
  createAcls srv cid cred.uid
  pure (generateCap srv.hmac srv.authrSvcKey
    { cid, containerOp := Srvr.ownerOps, cred })

variable [DecidableEq Mac]

def checkCap (cap : Cap Mac) : DbProg Unit :=
  if srv.capsEnabled then
    match verifyCap srv.hmac srv.authrSvcKey cap with
    | .ok _ => pure ()
    | .error e => throw e
  else pure ()

def checkAuthorization (cid : Cid) (containerOp : Opcode) (cap : Cap Mac) :
    DbProg Unit :=
  if cap.data.cid ≠ cid then throw (.code .errVerifycap)
  else if ¬ requests containerOp cap.data.containerOp then
    throw (.code .errVerifycap)
  else do
    checkCred srv cap.data.cred
    checkCap srv cap
    checkPerm srv cid containerOp cap.data.cred.uid

def removeAcl (cid : Cid) (testop : Opcode) : DbProg Unit :=
  tryCatch (authrDbDelAcl cid testop) fun e =>
    if e = .code .errNoent then pure () else throw e

def removeContainer (cid : Cid) (cap : Cap Mac) : DbProg Unit := do
  checkAuthorization srv cid containerRemove cap
  containerOps.forM (removeAcl cid)
  authrDbRemoveContainer cid

def modAclOp (cid : Cid) (containerOp : Opcode) (set : Option (List Uid))
    (unset : Option (List Uid)) (testop : Opcode) :
    DbProg (Option (List Uid)) :=
  if requests containerOp testop then do
    let orig ← authrDbGetAcl cid testop
    let (result, unset) := Srvr.modifyUids srv.qsort orig set unset
    authrDbDelAcl cid testop
    authrDbPutAcl cid testop result
    pure unset
  else pure unset

def modAcl (cid : Cid) (containerOp : Opcode) (set unset : Option (List Uid))
    (modaclCap : Cap Mac) : DbProg Unit := do
  checkAuthorization srv cid containerModacl modaclCap
  if srv.aclDbEnabled then do
    let _ ← containerOps.foldlM (modAclOp srv cid containerOp set) unset
    pure ()
  else pure ()

end Srvr

/-! ### Alone, and without failures -/

/-- The program alone, on a database that serves every call. -/
def alone {α : Type} (p : DbProg α) : DbRoutine α := p.run (DbCall.exec false)

theorem alone_bind {α β : Type} (x : DbProg α) (f : α → DbProg β) :
    alone (x >>= f) = alone x >>= fun a => alone (f a) :=
  Prog.run_bind _ x f

theorem alone_ite {α : Type} (p : Prop) [Decidable p] (x y : DbProg α) :
    alone (if p then x else y) = if p then alone x else alone y :=
  Prog.run_ite _ p x y

theorem alone_pure {α : Type} (a : α) : alone (pure a : DbProg α) = pure a := rfl

theorem alone_throw {α : Type} (e : Fault) :
    alone (throw e : DbProg α) = throw e := rfl

theorem alone_call {α : Type} {c : DbCall} {k : c.Reply → DbProg α}
    {db db' : AclDb} {r : c.Reply} (h : c.exec false db = (r, db')) :
    alone (.call c k) db = alone (k r) db' := by
  rw [alone, Prog.run_call, h]
  rfl

theorem alone_authrDbPutAcl (cid : Cid) (opcode : Opcode) (acl : List Uid) :
    alone (authrDbPutAcl cid opcode acl) = Authr.authrDbPutAcl cid opcode acl := by
  funext db
  rw [Authr.authrDbPutAcl, Routine.get_bind]
  by_cases hkey : putKey cid opcode ∈ db.acls
  · rw [authrDbPutAcl, alone_call (DbCall.exec_put_of_mem hkey acl),
      if_pos hkey]
    rfl
  · rw [authrDbPutAcl, alone_call (DbCall.exec_put_of_notMem hkey acl),
      if_neg hkey]
    rfl

theorem alone_authrDbGetAcl (cid : Cid) (opcode : Opcode) :
    alone (authrDbGetAcl cid opcode) = Authr.authrDbGetAcl cid opcode := by
  funext db
  have hcall : DbCall.exec false (.get (getKey cid opcode)) db =
      (db.acl? cid opcode, db) := rfl
  rw [authrDbGetAcl, alone_call hcall, Authr.authrDbGetAcl]
  simp only [Routine.reader]
  cases db.acl? cid opcode <;> rfl

theorem alone_authrDbDelAcl (cid : Cid) (opcode : Opcode) :
    alone (authrDbDelAcl cid opcode) = Authr.authrDbDelAcl cid opcode := by
  funext db
  rw [Authr.authrDbDelAcl, Routine.get_bind]
  by_cases hkey : getKey cid opcode ∈ db.acls
  · rw [authrDbDelAcl, alone_call (DbCall.exec_del_of_mem hkey), if_pos hkey]
    rfl
  · rw [authrDbDelAcl, alone_call (DbCall.exec_del_of_notMem hkey),
      if_neg hkey]
    rfl

theorem alone_authrDbContainerExists (cid : Cid) :
    alone (authrDbContainerExists cid) =
      (do let db ← get; pure (db.containerExists cid)) := by
  funext db
  rfl

theorem alone_createFreshCid (fuel : ℕ) :
    alone (createFreshCid fuel) = Authr.createFreshCid fuel := by
  induction fuel with
  | zero => rfl
  | succ fuel ih =>
      have hdraw : alone createCid = Authr.createCid := rfl
      rw [createFreshCid, Authr.createFreshCid, alone_bind, hdraw]
      congr 1
      funext cid
      rw [alone_bind, alone_authrDbContainerExists, bind_assoc]
      congr 1
      funext db
      rw [pure_bind, alone_ite, ih]
      rfl

theorem alone_authrDbCreateContainer (cid : Cid) :
    alone (authrDbCreateContainer (2 ^ 32) cid) =
      Authr.authrDbCreateContainer cid := by
  rw [authrDbCreateContainer, alone_ite, alone_createFreshCid, alone_bind,
    alone_authrDbContainerExists]
  funext db
  rw [Authr.authrDbCreateContainer, Routine.get_bind]
  split
  · rfl
  · rw [bind_assoc, Routine.get_bind, pure_bind, alone_ite, alone_bind,
      alone_authrDbPutAcl]
    rfl

theorem alone_authrDbRemoveContainer (cid : Cid) :
    alone (authrDbRemoveContainer cid) = Authr.authrDbRemoveContainer cid := by
  have hgone : alone (do
        let found ← authrDbContainerExists cid
        if found then throw (.code .err) else pure ()) =
      (do
        let db ← get
        if db.containerExists cid then throw (.code .err) else pure ()) := by
    rw [alone_bind, alone_authrDbContainerExists, bind_assoc]
    congr 1
    funext db
    rw [pure_bind, alone_ite]
    rfl
  funext db
  rw [authrDbRemoveContainer, alone_bind, alone_authrDbContainerExists,
    bind_assoc, Authr.authrDbRemoveContainer, Routine.get_bind,
    Routine.get_bind, pure_bind, alone_ite, alone_bind, alone_authrDbDelAcl,
    hgone]
  rfl

section Srvr

variable {Key Mac : Type} (srv : Srvr Key Mac)

theorem alone_checkPerm (cid : Cid) (containerOp : Opcode) (uid : Uid) :
    alone (checkPerm srv cid containerOp uid) =
      srv.checkPerm cid containerOp uid := by
  have hop : ∀ testop, alone (checkPermOp cid containerOp uid testop) =
      Srvr.checkPermOp cid containerOp uid testop := by
    intro testop
    rw [checkPermOp, Srvr.checkPermOp, alone_ite, alone_ite, alone_bind,
      alone_authrDbGetAcl]
    split
    · rfl
    · split
      · congr 1
        funext acl
        cases bsearch uid acl compareUids <;> rfl
      · rfl
  have hloop : alone (containerOps.forM (checkPermOp cid containerOp uid)) =
      containerOps.forM (Srvr.checkPermOp cid containerOp uid) :=
    (Prog.run_forM _ _ _).trans (congrArg containerOps.forM (funext hop))
  rw [checkPerm, Srvr.checkPerm, alone_ite, hloop]
  rfl

theorem alone_createContainer (cid : Cid) (cap : Cap Mac) :
    alone (createContainer srv (2 ^ 32) cid cap) =
      srv.createContainer cid cap := by
  have hop : ∀ cid uid testop, alone (createAcl cid uid testop) =
      Srvr.createAcl cid uid testop := by
    intro cid uid testop
    rw [createAcl, Srvr.createAcl, alone_ite, alone_authrDbPutAcl,
      alone_authrDbPutAcl]
  have hloop : ∀ cid uid, alone (createAcls srv cid uid) =
      srv.createAcls cid uid := by
    intro cid uid
    have hforM : alone (containerOps.forM (createAcl cid uid)) =
        containerOps.forM (Srvr.createAcl cid uid) :=
      (Prog.run_forM _ _ _).trans
        (congrArg containerOps.forM (funext (hop cid uid)))
    rw [createAcls, Srvr.createAcls, alone_ite, hforM]
    rfl
  rw [createContainer, Srvr.createContainer, alone_bind,
    alone_authrDbCreateContainer]
  congr 1
  funext cid
  rw [alone_bind, hloop]
  rfl

variable [DecidableEq Mac]

theorem alone_checkAuthorization (cid : Cid) (containerOp : Opcode)
    (cap : Cap Mac) :
    alone (checkAuthorization srv cid containerOp cap) =
      srv.checkAuthorization cid containerOp cap := by
  have hcred : alone (checkCred srv cap.data.cred) =
      srv.checkCred cap.data.cred := alone_ite _ _ _
  have hcap : alone (checkCap srv cap) = srv.checkCap cap := by
    rw [checkCap, Srvr.checkCap, alone_ite]
    congr 1
    funext db
    rw [Routine.reader]
    cases verifyCap srv.hmac srv.authrSvcKey cap <;> rfl
  rw [checkAuthorization, Srvr.checkAuthorization, alone_ite, alone_ite,
    alone_bind, alone_bind, hcred, hcap, alone_checkPerm]
  rfl

theorem alone_removeContainer (cid : Cid) (cap : Cap Mac) :
    alone (removeContainer srv cid cap) = srv.removeContainer cid cap := by
  have hop : ∀ testop, alone (removeAcl cid testop) =
      Srvr.removeAcl cid testop := by
    intro testop
    have htry : alone (removeAcl cid testop) =
        tryCatch (alone (authrDbDelAcl cid testop)) fun e =>
          alone (if e = .code .errNoent then pure () else throw e) :=
      Prog.run_tryCatch _ _ _
    rw [htry, alone_authrDbDelAcl, Srvr.removeAcl]
    congr 1
    funext e
    rw [alone_ite]
    rfl
  have hloop : alone (containerOps.forM (removeAcl cid)) =
      containerOps.forM (Srvr.removeAcl cid) :=
    (Prog.run_forM _ _ _).trans (congrArg containerOps.forM (funext hop))
  rw [removeContainer, Srvr.removeContainer, alone_bind, alone_bind,
    alone_checkAuthorization, hloop, alone_authrDbRemoveContainer]

theorem alone_modAcl (cid : Cid) (containerOp : Opcode)
    (set unset : Option (List Uid)) (cap : Cap Mac) :
    alone (modAcl srv cid containerOp set unset cap) =
      srv.modAcl cid containerOp set unset cap := by
  have hop : ∀ unset testop,
      alone (modAclOp srv cid containerOp set unset testop) =
        srv.modAclOp cid containerOp set unset testop := by
    intro unset testop
    rw [modAclOp, Srvr.modAclOp, alone_ite, alone_bind, alone_authrDbGetAcl]
    split
    · congr 1
      funext orig
      show alone (authrDbDelAcl cid testop >>= fun _ =>
        authrDbPutAcl cid testop
          (Srvr.modifyUids srv.qsort orig set unset).1 >>= fun _ =>
        pure (Srvr.modifyUids srv.qsort orig set unset).2) = _
      rw [alone_bind, alone_bind, alone_authrDbDelAcl, alone_authrDbPutAcl]
      rfl
    · rfl
  have hloop : alone
      (containerOps.foldlM (modAclOp srv cid containerOp set) unset) =
      containerOps.foldlM (srv.modAclOp cid containerOp set) unset := by
    have hfun : (fun unset testop =>
        alone (modAclOp srv cid containerOp set unset testop)) =
        srv.modAclOp cid containerOp set := by
      funext unset testop
      exact hop unset testop
    rw [← hfun]
    exact Prog.run_foldlM _ _ _ _
  rw [modAcl, Srvr.modAcl, alone_bind, alone_checkAuthorization, alone_ite,
    alone_bind, hloop]
  rfl

end Srvr

end Steps

/-! ### Which calls a program makes -/

section Only

open Prog

variable {P : DbCall → Prop}

theorem only_authrDbContainerExists (hget : ∀ key, P (.get key)) (cid : Cid) :
    (Steps.authrDbContainerExists cid).Only P :=
  ⟨hget _, fun _ => trivial⟩

theorem only_authrDbPutAcl {cid : Cid} {op : Opcode} {acl : List Uid}
    (hput : P (.put (putKey cid op) acl)) :
    (Steps.authrDbPutAcl cid op acl).Only P :=
  ⟨hput, fun r => by cases r <;> trivial⟩

theorem only_authrDbDelAcl {cid : Cid} {op : Opcode}
    (hdel : P (.del (getKey cid op))) : (Steps.authrDbDelAcl cid op).Only P :=
  ⟨hdel, fun r => by cases r <;> trivial⟩

theorem only_authrDbGetAcl (hget : ∀ key, P (.get key)) (cid : Cid)
    (op : Opcode) : (Steps.authrDbGetAcl cid op).Only P :=
  ⟨hget _, fun r => by cases r <;> trivial⟩

theorem only_createFreshCid (hget : ∀ key, P (.get key)) (hgetCid : P .getCid)
    (hputCid : ∀ cid, P (.putCid cid)) (fuel : ℕ) :
    (Steps.createFreshCid fuel).Only P := by
  induction fuel with
  | zero => trivial
  | succ fuel ih =>
      have hdraw : Steps.createCid.Only P :=
        ⟨hgetCid, fun _ => ⟨hputCid _, fun r => by cases r <;> trivial⟩⟩
      exact only_bind hdraw fun cid =>
        only_bind (only_authrDbContainerExists hget cid) fun _ =>
          only_ite ih trivial

variable {Key Mac : Type} (srv : Srvr Key Mac)

theorem only_checkPerm (hget : ∀ key, P (.get key)) (cid : Cid)
    (containerOp : Opcode) (uid : Uid) :
    (Steps.checkPerm srv cid containerOp uid).Only P := by
  refine only_ite (only_forM fun testop _ => ?_) trivial
  refine only_ite trivial (only_ite ?_ trivial)
  refine only_bind (only_authrDbGetAcl hget cid testop) fun acl => ?_
  cases bsearch uid acl compareUids <;> trivial

theorem only_createContainer (hget : ∀ key, P (.get key)) (hgetCid : P .getCid)
    (hputCid : ∀ cid, P (.putCid cid))
    (hput : ∀ cid op acl, P (.put (putKey cid op) acl)) (fuel : ℕ) (cid : Cid)
    (cap : Cap Mac) : (Steps.createContainer srv fuel cid cap).Only P := by
  have hnew : (Steps.authrDbCreateContainer fuel cid).Only P :=
    only_ite (only_createFreshCid hget hgetCid hputCid fuel) <|
      only_bind (only_authrDbContainerExists hget cid) fun _ =>
        only_ite trivial (only_bind (only_authrDbPutAcl (hput _ _ _))
          fun _ => trivial)
  have hacls : ∀ c uid, (Steps.createAcls srv c uid).Only P := fun c uid =>
    only_ite (only_forM fun testop _ =>
      only_ite (only_authrDbPutAcl (hput _ _ _))
        (only_authrDbPutAcl (hput _ _ _))) trivial
  exact only_bind hnew fun c => only_bind (hacls c _) fun _ => trivial

variable [DecidableEq Mac]

theorem only_checkAuthorization (hget : ∀ key, P (.get key)) (cid : Cid)
    (containerOp : Opcode) (cap : Cap Mac) :
    (Steps.checkAuthorization srv cid containerOp cap).Only P := by
  have hcap : (Steps.checkCap srv cap).Only P := by
    refine only_ite ?_ trivial
    cases verifyCap srv.hmac srv.authrSvcKey cap <;> trivial
  exact only_ite trivial <| only_ite trivial <|
    only_bind (only_ite trivial trivial) fun _ =>
      only_bind hcap fun _ => only_checkPerm srv hget cid containerOp _

theorem only_removeContainer (hget : ∀ key, P (.get key)) {cid : Cid}
    (hdel : ∀ op, P (.del (getKey cid op))) (cap : Cap Mac) :
    (Steps.removeContainer srv cid cap).Only P := by
  have hacl : ∀ testop, (Steps.removeAcl cid testop).Only P := fun testop =>
    only_tryCatch (only_authrDbDelAcl (hdel testop)) fun _ =>
      only_ite trivial trivial
  have hexists := only_authrDbContainerExists hget cid
  exact only_bind (only_checkAuthorization srv hget cid _ cap) fun _ =>
    only_bind (only_forM fun testop _ => hacl testop) fun _ =>
      only_bind hexists fun _ =>
        only_ite (only_bind (only_authrDbDelAcl (hdel opExists)) fun _ =>
          only_bind hexists fun _ => only_ite trivial trivial) trivial

theorem only_modAcl (hget : ∀ key, P (.get key)) {cid : Cid}
    (hdel : ∀ op, P (.del (getKey cid op)))
    (hput : ∀ op acl, P (.put (putKey cid op) acl)) (containerOp : Opcode)
    (set unset : Option (List Uid)) (cap : Cap Mac) :
    (Steps.modAcl srv cid containerOp set unset cap).Only P := by
  refine only_bind (only_checkAuthorization srv hget cid _ cap) fun _ =>
    only_ite (only_bind ?_ fun _ => trivial) trivial
  refine only_foldlM (fun torm testop _ => only_ite ?_ (only_pure _)) unset
  refine only_bind (only_authrDbGetAcl hget cid testop) fun orig => ?_
  exact only_bind (only_authrDbDelAcl (hdel testop)) fun _ =>
    only_bind (only_authrDbPutAcl (hput testop _)) fun _ => trivial

end Only

/-- A list that is there stays until it is deleted. -/
theorem mem_exec {fails : Bool} {c : DbCall} {db : AclDb} {key : Keystr}
    (hkey : key ∈ db.acls)
    (hne : (⟨c, (c.exec fails db).1⟩ : Prog.Answered DbCall DbCall.Reply) ≠
      ⟨.del key, DelReply.deleted⟩) : key ∈ (c.exec fails db).2.acls := by
  cases c with
  | get key' => exact hkey
  | put key' acl =>
      simp only [DbCall.exec]
      split
      · exact hkey
      · split
        · exact hkey
        · exact (AList.mem_insert _).mpr (.inr hkey)
  | del key' =>
      simp only [DbCall.exec] at hne ⊢
      split
      · exact hkey
      · split
        · next hfails hmem =>
          rw [if_neg hfails, if_pos hmem] at hne
          have hkeys : key ≠ key' := by
            rintro rfl
            exact hne rfl
          exact AList.mem_erase.mpr ⟨hkeys, hkey⟩
        · exact hkey
  | getCid => exact hkey
  | putCid cid =>
      simp only [DbCall.exec]
      split <;> exact hkey

end Lwfs.Authr
