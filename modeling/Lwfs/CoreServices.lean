import Lwfs.Authr.Revocation
import Lwfs.Naming.Access
import Lwfs.Storage.Access

/-!
The core services together: one authorization server, one naming server and
any number of storage servers.

A naming or storage server trusts no capability by itself. It calls
`lwfs_verify_caps_sync`, and that call is answered by the authorization server
or by a cache of capabilities that the authorization server has accepted
before. Clients send any request to any server, in any order, with any
capability for which they need not forge a MAC.

`guarded_run` follows a change from the server where it is made to the list of
users that allowed it: the capability behind it was issued by the
authorization server, and its user was on the list of each operation in it.
-/

namespace Lwfs.CoreServices

open SysLib Client Rpc Support Authr

variable {Key Mac ι : Type}

/-- The servers that verify capabilities. -/
inductive Party (ι : Type)
  | naming
  | storage (i : ι)

/-- What is fixed when the services are started. -/
structure Config (Key Mac ι : Type) where
  srv : Srvr Key Mac
  fns : HashFns Mac
  pid : Party ι → RemotePid
  root : ι → Storage.Path

/-- The servers, and every request that the authorization server has handled
with the database it found. -/
structure Services (ι Mac : Type) where
  authr : Deployment Mac
  log : List (AclDb × Authr.Request Mac)
  naming : Naming.Server
  storage : ι → Storage.Server

namespace Services

/-- The databases that the authorization server has gone through. -/
def dbs (s : Services ι Mac) : List AclDb :=
  s.log.map Prod.fst ++ [s.authr.db]

/-- The database, with the capabilities that were issued. -/
def history (srv : Srvr Key Mac) (s : Services ι Mac) : History Mac :=
  ⟨s.authr.db, s.log.filterMap fun e => srv.issues e.1 e.2⟩

end Services

/-- A request that a server handles, or a call of `lwfs_verify_caps` in some
process. A naming or storage server makes calls of its own in the course of a
request. -/
inductive Action (ι Mac : Type)
  | authr (req : Authr.Request Mac)
  | verify (pid : RemotePid) (call : VerifyCall Mac)
  | naming (env : Naming.Env Mac) (req : Naming.Request Mac)
      (calls : List (VerifyCall Mac))
  | storage (i : ι) (env : Storage.Env Mac) (req : Storage.Request Mac)
      (calls : List (VerifyCall Mac))

section System

variable [DecidableEq Mac] [DecidableEq ι] (config : Config Key Mac ι)

/-- A call in a process. -/
def Services.verify (s : Services ι Mac) (pid : RemotePid)
    (call : VerifyCall Mac) : Services ι Mac :=
  { s with authr := s.authr.step config.srv config.fns (.verify pid call) }

def Services.verifyAll (s : Services ι Mac) (pid : RemotePid)
    (calls : List (VerifyCall Mac)) : Services ι Mac :=
  Run.exec (fun s call => s.verify config pid call) s calls

def step (s : Services ι Mac) : Action ι Mac → Services ι Mac
  | .authr req =>
      { s with
        authr := s.authr.step config.srv config.fns (.request req)
        log := s.log ++ [(s.authr.db, req)] }
  | .verify pid call => s.verify config pid call
  | .naming env req calls =>
      { s with
        authr := (s.verifyAll config (config.pid .naming) calls).authr
        naming := Naming.step s.naming (env, req) }
  | .storage i env req calls =>
      { s with
        authr := (s.verifyAll config (config.pid (.storage i)) calls).authr
        storage := Function.update s.storage i
          (Storage.step (config.root i) (s.storage i) (env, req)) }

/-- The services when they have been started. Some processes have called
`lwfs_cache_caps_init`. -/
def initial (oids : Naming.InitOids) (caching : RemotePid → Bool) :
    Services ι Mac where
  authr := Deployment.initial config.fns caching
  log := []
  naming := Naming.Server.init oids
  storage _ := Storage.Server.init

end System

/-- The capabilities that a naming request presents. -/
def namingCaps : Naming.Request Mac → List (Cap Mac)
  | .removeNamespace _ cap => [cap]
  | .createDir _ _ _ cap => [cap]
  | .removeDir _ _ cap => [cap]
  | .createFile _ _ _ cap => [cap]
  | .createLink _ _ cap _ _ targetCap => [cap, targetCap]
  | .unlink _ _ cap => [cap]
  | .lookup _ _ cap => [cap]
  | .listDir _ cap => [cap]
  | .stat _ cap => [cap]
  | _ => []

section Conditions

variable [DecidableEq Mac] (config : Config Key Mac ι)

/-- No client presents the hash of anything but an issued capability. -/
def Unforged (s : Services ι Mac) (req : Authr.Request Mac) : Prop :=
  Authr.Unforged config.srv (s.history config.srv) req

/-- What a server takes for verified, it has verified by one of the calls that
it made in the course of the request. -/
def Verified (s : Services ι Mac) (pid : RemotePid)
    (calls : List (VerifyCall Mac)) (caps : List (Cap Mac))
    (verifyCaps : Cap Mac → Option ReturnCode) : Prop :=
  ∀ cap ∈ caps, verifyCaps cap = none →
    ∃ before call after, calls = before ++ call :: after ∧
      call.caps = [cap] ∧
      (s.verifyAll config pid before).authr.Accepts config.srv config.fns pid call

/-- A step as it can happen: clients forge no MAC, the naming server generates
fresh ids, and servers ask before they take a capability for verified. -/
def Proper (s : Services ι Mac) : Action ι Mac → Prop
  | .authr req => Unforged config s req
  | .verify _ call => Unforged config s (.verifyCaps call.caps)
  | .naming env req calls =>
      Naming.FreshStep s.naming (env, req) ∧
        (∀ call ∈ calls, Unforged config s (.verifyCaps call.caps)) ∧
        Verified config s (config.pid .naming) calls (namingCaps req)
          env.verifyCaps
  | .storage i env req calls =>
      (∀ call ∈ calls, Unforged config s (.verifyCaps call.caps)) ∧
        Verified config s (config.pid (.storage i)) calls [req.cap]
          env.verifyCaps

end Conditions

/-! ### What a change rests on -/

section Earned

variable (srv : Srvr Key Mac)

/-- The authorization server issued the capability in answer to the request,
with this database: its user created a container and got the capability of the
owner, or asked for it and was on the list of each operation in it. No list is
for the creation of containers, which everyone may do. -/
structure Granted (db : AclDb) (req : Authr.Request Mac) (cap : Cap Mac) : Prop where
  issued : srv.issues db req = some cap
  entitled : (∃ cid presented, req = .createContainer cid presented ∧
      cap.data.cred = presented.data.cred ∧
      cap.data.containerOp = Srvr.ownerOps) ∨
    (req = .getCap cap.data.cid cap.data.containerOp cap.data.cred ∧
      ForRequested cap.data.containerOp
        (Member db cap.data.cid cap.data.cred.uid))

/-- A capability that the authorization server has issued, and whose user was
on the list of each operation in it when the server verified it. -/
structure Earned (s : Services ι Mac) (cap : Cap Mac) : Prop where
  granted : ∃ e ∈ s.log, Granted srv e.1 e.2 cap
  member : ∃ db ∈ s.dbs, ForRequested cap.data.containerOp
    (Member db cap.data.cid cap.data.cred.uid)

end Earned

/-- All that a process does to the authorization server is to ask, and it keeps
the answers in no cache but its own. -/
structure Asks (pid : RemotePid) (s t : Services ι Mac) : Prop where
  db : t.authr.db = s.authr.db
  log : t.log = s.log
  client : ∀ pid', pid' ≠ pid → t.authr.client pid' = s.authr.client pid'

section Guarded

variable [DecidableEq Mac] [DecidableEq ι] (config : Config Key Mac ι)

/-- A step changes no server but the one that it is about, and no cache but that
of its process. The naming database changes by the creation of a namespace, or
under an earned capability for writing to the container of the entry. A storage
server does nothing for a client but under an earned capability with the
operation in it. -/
def Guarded (s : Services ι Mac) : Action ι Mac → Prop
  | .authr req =>
      (step config s (.authr req)).naming = s.naming ∧
        (step config s (.authr req)).storage = s.storage ∧
        (step config s (.authr req)).authr.client = s.authr.client
  | .verify pid call =>
      (step config s (.verify pid call)).naming = s.naming ∧
        (step config s (.verify pid call)).storage = s.storage ∧
        Asks pid s (step config s (.verify pid call))
  | .naming env req calls =>
      (step config s (.naming env req calls)).storage = s.storage ∧
        Asks (config.pid .naming) s (step config s (.naming env req calls)) ∧
        ((step config s (.naming env req calls)).naming.db ≠ s.naming.db →
          (∃ name cid, req = .createNamespace name cid) ∨
            ∃ cap e, req.writeCap = some cap ∧ req.modified s.naming.db = some e ∧
              Naming.Grants (Earned config.srv s) cap e)
  | .storage i env req calls =>
      (step config s (.storage i env req calls)).naming = s.naming ∧
        (∀ j, j ≠ i →
          (step config s (.storage i env req calls)).storage j = s.storage j) ∧
        Asks (config.pid (.storage i)) s
          (step config s (.storage i env req calls)) ∧
        ((((step config s (.storage i env req calls)).storage i).store ≠
            (s.storage i).store ∨
          ∃ res, (Storage.handle env (config.root i) req).outcome
            (s.storage i).store = .ok res) →
          req.containerOp &&& req.cap.data.containerOp = req.containerOp ∧
            Earned config.srv s req.cap)

end Guarded

/-! ### Capabilities that are issued -/

section Issued

variable {srv : Srvr Key Mac} {db : AclDb} {req : Authr.Request Mac}
  {cap : Cap Mac}

theorem eq_ok_of_toOption {x : DbRoutine (Cap Mac)}
    (h : (x.outcome db).toOption = some cap) : ∃ db', x db = .ok cap db' := by
  cases hout : x.outcome db with
  | error fault => simp [hout, Except.toOption] at h
  | ok issued =>
      obtain rfl : issued = cap := by simpa [hout, Except.toOption] using h
      exact ⟨_, Routine.outcome_eq_ok.mp hout⟩

/-- What the authorization server issues, it grants. -/
theorem granted_of_issues (henabled : srv.aclDbEnabled = true)
    (hcreds : srv.credsEnabled = false) (h : srv.issues db req = some cap) :
    Granted srv db req cap := by
  refine ⟨h, ?_⟩
  cases req with
  | createContainer cid presented =>
      obtain ⟨db', hx⟩ := eq_ok_of_toOption h
      simp only [Srvr.createContainer, Routine.bind_eq_ok,
        Routine.pure_eq_ok] at hx
      obtain ⟨_, _, -, _, _, -, rfl, -⟩ := hx
      exact .inl ⟨cid, presented, rfl, rfl, rfl⟩
  | getCap cid op cred =>
      obtain ⟨db', hx⟩ := eq_ok_of_toOption h
      obtain ⟨hperm, rfl⟩ := (getCap_eq_ok srv hcreds).mp hx
      refine .inr ⟨rfl, ?_⟩
      exact ((checkPerm_eq_ok srv henabled).mp hperm).2.imp
        fun _ hprobed => hprobed.member
  | _ => cases h

/-- Whom the authorization server accepts, is on the list of each operation. -/
theorem member_of_answer [DecidableEq Mac] (henabled : srv.aclDbEnabled = true)
    {caps : List (Cap Mac)} (h : srv.answer db caps = some lwfsOk)
    (hcap : cap ∈ caps) :
    ForRequested cap.data.containerOp
      (Member db cap.data.cid cap.data.cred.uid) := by
  intro testop hop hne hreq
  exact held_of_answer srv henabled h (a := ⟨_, testop, _⟩) hop hne hcap
    ⟨rfl, hreq, rfl⟩

end Issued

/-! ### What holds along a run -/

section Traced

variable [DecidableEq Mac]

/-- The capabilities that were issued have the hashes of their own data, and
those in the caches are earned. -/
structure Traced (config : Config Key Mac ι) (s : Services ι Mac) : Prop where
  genuine : (s.history config.srv).Genuine config.srv
  verifies : ∀ pid, (s.authr.client pid).verifyCaps = true
  cached : ∀ pid, ∀ e ∈ (s.authr.client pid).cacheHt.entries,
    e.k = e.v.mac ∧ Earned config.srv s e.v

/-- The authorization server as `lwfs_authr_srvr_init` starts it with its
checks on, and caches as `lwfs_cache_caps_init` creates them. -/
structure Config.Checking (config : Config Key Mac ι) : Prop where
  caps : config.srv.capsEnabled = true
  acls : config.srv.aclDbEnabled = true
  creds : config.srv.credsEnabled = false
  cache : ∃ hashfromkey loadlimit, config.fns = cacheFns hashfromkey loadlimit
  /-- Distinct data have distinct hashes. -/
  inj : Function.Injective (config.srv.hmac config.srv.authrSvcKey)

variable {config : Config Key Mac ι} {s : Services ι Mac}

omit [DecidableEq Mac] in
theorem Asks.trans {pid : RemotePid} {t u : Services ι Mac} (h : Asks pid s t)
    (h' : Asks pid t u) : Asks pid s u where
  db := h'.db.trans h.db
  log := h'.log.trans h.log
  client pid' hne := (h'.client pid' hne).trans (h.client pid' hne)

omit [DecidableEq Mac] in
theorem Earned.mono {srv : Srvr Key Mac} {t : Services ι Mac} {cap : Cap Mac}
    (h : Earned srv s cap) (hlog : ∀ e ∈ s.log, e ∈ t.log)
    (hdbs : ∀ db ∈ s.dbs, db ∈ t.dbs) : Earned srv t cap := by
  obtain ⟨⟨e, he, hgranted⟩, db, hdb, hmember⟩ := h
  exact ⟨⟨e, hlog e he, hgranted⟩, db, hdbs db hdb, hmember⟩

/-- What the server accepts in answer to a call is earned. -/
theorem earned_of_answer (hconfig : config.Checking) (h : Traced config s)
    {caps : List (Cap Mac)} (hunforged : Unforged config s (.verifyCaps caps))
    (hanswer : config.srv.answer s.authr.db caps = some lwfsOk)
    {cap : Cap Mac} (hcap : cap ∈ caps) : Earned config.srv s cap := by
  have haccepts : cap ∈ config.srv.accepts s.authr.db (.verifyCaps caps) := by
    obtain ⟨db', hok⟩ := (answer_eq_ok config.srv).mp hanswer
    simp only [Srvr.accepts, hok]
    exact hcap
  have hissued : cap ∈ (s.history config.srv).issued :=
    accepts_subset_issued config.srv hconfig.caps hconfig.inj h.genuine
      hunforged cap haccepts
  obtain ⟨e, he, hissues⟩ := List.mem_filterMap.mp hissued
  refine ⟨⟨e, he, granted_of_issues hconfig.acls hconfig.creds hissues⟩, ?_⟩
  have hnow : s.authr.db ∈ s.dbs :=
    List.mem_append_right _ (List.mem_singleton_self _)
  exact ⟨s.authr.db, hnow, member_of_answer hconfig.acls hanswer hcap⟩

/-- What a process accepts, from its cache or from the server, is earned. -/
theorem earned_of_accepts (hconfig : config.Checking) (h : Traced config s)
    {pid : RemotePid} {call : VerifyCall Mac}
    (hunforged : Unforged config s (.verifyCaps call.caps))
    (haccepts : s.authr.Accepts config.srv config.fns pid call)
    {cap : Cap Mac} (hcap : cap ∈ call.caps) : Earned config.srv s cap := by
  obtain ⟨hashfromkey, loadlimit, hfns⟩ := hconfig.cache
  obtain ⟨client', hsync⟩ := haccepts
  obtain ⟨-, hfound⟩ | hserver := found_or_accepted_of_sync (h.verifies pid) hsync
  · rw [hfns] at hfound
    obtain ⟨e, he, rfl⟩ := mem_cache_of_lookInCache
      (fun e he => (h.cached pid e he).1) hfound cap hcap
    exact (h.cached pid e he).2
  · exact earned_of_answer hconfig h hunforged (answer_of_serverAccepts hserver)
      hcap

theorem Traced.verify (hconfig : config.Checking) (h : Traced config s)
    (pid : RemotePid) {call : VerifyCall Mac}
    (hunforged : Unforged config s (.verifyCaps call.caps)) :
    Traced config (s.verify config pid call) where
  genuine := h.genuine
  verifies pid' := by
    obtain ⟨hflag, -⟩ := Deployment.client_step_flags config.srv config.fns
      s.authr (.verify pid call) pid'
    exact hflag.trans (h.verifies pid')
  cached pid' e he := by
    suffices hearned : e.k = e.v.mac ∧ Earned config.srv s e.v from
      ⟨hearned.1, hearned.2.mono (fun _ he => he) fun _ hdb => hdb⟩
    by_cases hpid : pid' = pid
    · subst hpid
      change e ∈ ((s.authr.step config.srv config.fns
        (.verify pid' call)).client pid').cacheHt.entries at he
      rw [Deployment.client_step_verify] at he
      obtain hold | ⟨hserver, hkey, hmem⟩ := mem_entries_of_stepCall he
      · exact h.cached pid' e hold
      · exact ⟨hkey, earned_of_answer hconfig h hunforged
          (answer_of_serverAccepts hserver) hmem⟩
    · have hsame : (s.verify config pid call).authr.client pid' =
          s.authr.client pid' := Function.update_of_ne hpid _ _
      rw [hsame] at he
      exact h.cached pid' e he

theorem Traced.verifyAll (hconfig : config.Checking) (h : Traced config s)
    (pid : RemotePid) {calls : List (VerifyCall Mac)}
    (hunforged : ∀ call ∈ calls, Unforged config s (.verifyCaps call.caps)) :
    Traced config (s.verifyAll config pid calls) := by
  induction calls generalizing s with
  | nil => exact h
  | cons call calls ih =>
      rw [List.forall_mem_cons] at hunforged
      exact ih (h.verify hconfig pid hunforged.1) hunforged.2

/-- A call leaves everything but the caches as it is. -/
theorem verifyAll_eq (config : Config Key Mac ι) (s : Services ι Mac)
    (pid : RemotePid) (calls : List (VerifyCall Mac)) :
    ∃ client, s.verifyAll config pid calls = { s with
      authr := { s.authr with client } } := by
  induction calls generalizing s with
  | nil => exact ⟨_, rfl⟩
  | cons call calls ih => exact ih (s.verify config pid call)

theorem asks_verify (config : Config Key Mac ι) (s : Services ι Mac)
    (pid : RemotePid) (call : VerifyCall Mac) : Asks pid s (s.verify config pid call) :=
  ⟨rfl, rfl, fun _ hne => Function.update_of_ne hne _ _⟩

theorem asks_verifyAll (config : Config Key Mac ι) (s : Services ι Mac)
    (pid : RemotePid) (calls : List (VerifyCall Mac)) :
    Asks pid s (s.verifyAll config pid calls) := by
  induction calls generalizing s with
  | nil => exact ⟨rfl, rfl, fun _ _ => rfl⟩
  | cons call calls ih => exact (asks_verify config s pid call).trans (ih _)

omit [DecidableEq Mac] in
/-- The naming and storage servers do not matter for it. -/
theorem Traced.congr {t : Services ι Mac} (h : Traced config s)
    (hauthr : t.authr = s.authr) (hlog : t.log = s.log) : Traced config t := by
  have hhistory : t.history config.srv = s.history config.srv := by
    rw [Services.history, Services.history, hauthr, hlog]
  have hdbs : t.dbs = s.dbs := by
    rw [Services.dbs, Services.dbs, hauthr, hlog]
  refine ⟨hhistory ▸ h.genuine, hauthr ▸ h.verifies, ?_⟩
  intro pid e he
  rw [hauthr] at he
  obtain ⟨hkey, hearned⟩ := h.cached pid e he
  exact ⟨hkey, hearned.mono (fun _ he => hlog ▸ he) fun _ hdb => hdbs ▸ hdb⟩

/-- What a server takes for verified is earned. -/
theorem earned_of_verified (hconfig : config.Checking) (h : Traced config s)
    {pid : RemotePid} {calls : List (VerifyCall Mac)} {caps : List (Cap Mac)}
    {verifyCaps : Cap Mac → Option ReturnCode}
    (hunforged : ∀ call ∈ calls, Unforged config s (.verifyCaps call.caps))
    (hverified : Verified config s pid calls caps verifyCaps) {cap : Cap Mac}
    (hcap : cap ∈ caps) (hok : verifyCaps cap = none) : Earned config.srv s cap := by
  obtain ⟨before, call, after, rfl, hcaps, haccepts⟩ := hverified cap hcap hok
  simp only [List.forall_mem_append, List.forall_mem_cons] at hunforged
  obtain ⟨hbefore, hcall, -⟩ := hunforged
  have htraced := h.verifyAll hconfig pid hbefore
  obtain ⟨client, heq⟩ := verifyAll_eq config s pid before
  rw [heq] at htraced haccepts
  have hmem : cap ∈ call.caps := by
    rw [hcaps]
    exact List.mem_singleton_self cap
  exact (earned_of_accepts hconfig htraced hcall haccepts hmem).mono
    (fun _ he => he) fun _ hdb => hdb

variable [DecidableEq ι]

theorem Traced.step (hconfig : config.Checking) (h : Traced config s)
    {action : Action ι Mac} (hproper : Proper config s action) :
    Traced config (step config s action) := by
  cases action with
  | authr req =>
      refine ⟨?_, h.verifies, ?_⟩
      · intro cap hcap
        simp only [CoreServices.step, Services.history, List.filterMap_append,
          List.mem_append] at hcap
        obtain hold | hnew := hcap
        · exact h.genuine cap hold
        · obtain ⟨e, he, hissues⟩ := List.mem_filterMap.mp hnew
          rw [List.mem_singleton.mp he] at hissues
          exact mac_of_issues config.srv hissues
      · intro pid e he
        obtain ⟨hkey, hearned⟩ := h.cached pid e he
        refine ⟨hkey, hearned.mono (fun _ he => List.mem_append_left _ he) ?_⟩
        -- the database before the request is in the log now
        intro db hdb
        simpa [Services.dbs, CoreServices.step, or_assoc] using Or.inl hdb
  | verify pid call => exact h.verify hconfig pid hproper
  | naming env req calls =>
      exact (h.verifyAll hconfig (config.pid .naming) hproper.2.1).congr rfl
        (asks_verifyAll config s (config.pid .naming) calls).log.symm
  | storage i env req calls =>
      exact (h.verifyAll hconfig (config.pid (.storage i)) hproper.1).congr rfl
        (asks_verifyAll config s (config.pid (.storage i)) calls).log.symm

end Traced

/-! ### Runs -/

section Runs

variable [DecidableEq Mac] [DecidableEq ι] {config : Config Key Mac ι}
  {s : Services ι Mac}

omit [DecidableEq Mac] [DecidableEq ι] in
theorem traced_initial (config : Config Key Mac ι) (oids : Naming.InitOids)
    (caching : RemotePid → Bool) : Traced config (initial config oids caching) where
  genuine cap hcap := by
    simp [initial, Services.history] at hcap
  verifies _ := rfl
  cached pid e he := by
    simp [initial, Deployment.initial, cacheCapsInit] at he

omit [DecidableEq Mac] [DecidableEq ι] in
theorem mem_namingCaps {req : Naming.Request Mac} {cap : Cap Mac}
    (h : req.writeCap = some cap) : cap ∈ namingCaps req := by
  cases req <;> simp_all [Naming.Request.writeCap, namingCaps]

/-- The naming server changes under earned capabilities only. -/
theorem naming_guarded (hconfig : config.Checking) (h : Traced config s)
    {oids : Naming.InitOids} (hoids : oids.Fresh)
    (hs : Naming.Reachable Mac oids s.naming) {env : Naming.Env Mac}
    {req : Naming.Request Mac} {calls : List (VerifyCall Mac)}
    (hproper : Proper config s (.naming env req calls)) :
    Guarded config s (.naming env req calls) := by
  obtain ⟨hdb, -, hclient⟩ := asks_verifyAll config s (config.pid .naming) calls
  refine ⟨rfl, ⟨hdb, rfl, hclient⟩, fun hchange => ?_⟩
  obtain ⟨-, hunforged, hverified⟩ := hproper
  obtain hcreate | ⟨cap, e, hcap, hmod, hgrants, -⟩ := Naming.grants_of_change
    (fun _ hok => hok) (hs.wellFormed hoids) hchange
  · exact .inl hcreate
  · have hearned := earned_of_verified hconfig h hunforged hverified
      (mem_namingCaps hcap) hgrants.accepted
    exact .inr ⟨cap, e, hcap, hmod, hearned, hgrants.write, hgrants.cid⟩

/-- So does a storage server, and it reads under them only. -/
theorem storage_guarded (hconfig : config.Checking) (h : Traced config s)
    {i : ι} {env : Storage.Env Mac} {req : Storage.Request Mac}
    {calls : List (VerifyCall Mac)}
    (hproper : Proper config s (.storage i env req calls)) :
    Guarded config s (.storage i env req calls) := by
  obtain ⟨hunforged, hverified⟩ := hproper
  obtain ⟨hdb, -, hclient⟩ :=
    asks_verifyAll config s (config.pid (.storage i)) calls
  refine ⟨rfl, fun j hj => Function.update_of_ne hj _ _, ⟨hdb, rfl, hclient⟩,
    fun hacts => ?_⟩
  have hcheck : Storage.ssVerifyCap env req.cap req.containerOp = .ok () := by
    obtain hchange | ⟨res, hres⟩ := hacts
    · by_contra hrefused
      apply hchange
      simp only [step, Function.update_self, Storage.step]
      split
      · exact Storage.final_handle_of_refused hrefused
      · rfl
    · exact Storage.ssVerifyCap_of_handle hres
  obtain ⟨-, hbits, hok⟩ := Storage.ssVerifyCap_eq_ok.mp hcheck
  exact ⟨hbits, earned_of_verified hconfig h hunforged hverified
    (List.mem_singleton_self _) hok⟩

/-- In every run of the services, whatever clients send to them in whatever
order: each step leaves every server but its own alone, and the naming server
and the storage servers act under capabilities only that the authorization
server has issued, with the operation in them, and whose users were on the list
of each operation in them when the authorization server verified them. -/
theorem guarded_run (config : Config Key Mac ι) (hconfig : config.Checking)
    (oids : Naming.InitOids) (hoids : oids.Fresh) (caching : RemotePid → Bool)
    (run : List (Action ι Mac))
    (hrun : Run.Along (step config) (Proper config)
      (initial config oids caching) run) :
    Run.Along (step config) (Guarded config) (initial config oids caching)
      run := by
  have hstep : ∀ (s : Services ι Mac) (action : Action ι Mac),
      Traced config s ∧ Naming.Reachable Mac oids s.naming →
        Proper config s action →
          Traced config (step config s action) ∧
            Naming.Reachable Mac oids (step config s action).naming := by
    rintro s action ⟨htraced, hreachable⟩ hproper
    refine ⟨htraced.step hconfig hproper, ?_⟩
    cases action with
    | naming env req calls =>
        obtain ⟨before, hbefore, hend⟩ := hreachable
        refine ⟨before ++ [(env, req)], ?_, ?_⟩
        · rw [Run.along_append, hend]
          exact ⟨hbefore, hproper.1, trivial⟩
        · rw [Run.exec_append, hend]
          rfl
    | _ => exact hreachable
  have hguarded : ∀ (s : Services ι Mac) (action : Action ι Mac),
      Traced config s ∧ Naming.Reachable Mac oids s.naming →
        Proper config s action → Guarded config s action := by
    rintro s action ⟨htraced, hreachable⟩ hproper
    cases action with
    | authr req => exact ⟨rfl, rfl, rfl⟩
    | verify pid call => exact ⟨rfl, rfl, asks_verify config s pid call⟩
    | naming env req calls =>
        exact naming_guarded hconfig htraced hoids hreachable hproper
    | storage i env req calls => exact storage_guarded hconfig htraced hproper
  exact Run.along_of_invariant hstep hguarded
    ⟨traced_initial config oids caching, [], trivial, rfl⟩ hrun

end Runs

/-! ### The owner of a container creates an object -/

/-- Services whose MACs begin with the key, so that no client forges the empty
one. -/
def keyedConfig : Config (List UInt8) (List UInt8) Unit where
  srv := Srvr.init true [7] (fun key bytes => key ++ bytes) (Qsort.insertion Uid)
  fns := plainFns
  pid _ := ⟨0, 0⟩
  root _ := ['/', 'r']

theorem keyedConfig_checking : keyedConfig.Checking where
  caps := rfl
  acls := rfl
  creds := rfl
  cache := ⟨_, _, rfl⟩
  inj _ _ h := List.append_cancel_left h

theorem guarded_run_createObj :
    let create : Authr.Request (List UInt8) :=
      .createContainer 5 ⟨⟨0, 0, plainCred⟩, []⟩
    let cap := generateCap (fun key bytes => key ++ bytes) [7]
      ⟨5, Srvr.ownerOps, plainCred⟩
    let call : VerifyCall (List UInt8) :=
      ⟨[cap], ⟨.requestError, lwfsOk, ()⟩, Trip.prompt plainHeader, 1⟩
    Run.Along (step keyedConfig) (Guarded keyedConfig)
      (initial keyedConfig Naming.countingOids fun _ => true)
      [.authr create, .storage () (Storage.Env.quiet fun _ => none)
        (.createObj Obj.zero cap) [call]] := by
  intro create cap call
  refine guarded_run keyedConfig keyedConfig_checking Naming.countingOids
    Naming.countingOids_fresh _ _ ⟨?_, ⟨?_, ?_⟩, trivial⟩
  · rintro presented hpresented ⟨bytes, hmac⟩
    rw [List.mem_singleton.mp hpresented] at hmac
    exact absurd hmac (by simp [keyedConfig, Srvr.init])
  · intro made hmade presented hpresented _
    rw [List.mem_singleton.mp hmade] at hpresented
    rw [List.mem_singleton.mp hpresented]
    exact ⟨cap, List.mem_singleton.mpr rfl, rfl⟩
  · intro presented hpresented _
    rw [List.mem_singleton.mp hpresented]
    have hanswer : keyedConfig.srv.answer
        (keyedConfig.srv.step AclDb.empty create) [cap] = some lwfsOk := by
      decide +kernel
    have htrip : (answered (keyedConfig.srv.answer
        (keyedConfig.srv.step AclDb.empty create) [cap]) call).trip =
          Trip.prompt plainHeader := by
      rw [hanswer]
      rfl
    have hheader : plainHeader.rc = lwfsOk := rfl
    exact ⟨[], call, [], rfl, rfl, lwfsVerifyCapsSync_of_prompt rfl _ hheader
      htrip (Nat.le_refl 1)⟩

end Lwfs.CoreServices
