import Lwfs.Authr.AccessDecision
import Lwfs.Authr.Lifecycle
import Lwfs.Authr.Soundness
import Lwfs.Client.VerifyCaps

/-!
Revoking access: the authorization server together with the processes that
verify capabilities, each with a cache of its own or without one.

`mod_acl` changes a list of the server and tells nobody. A process asks the
server about a capability only if its cache does not hold it, so what a
revocation is worth depends on the caches at that moment
(`revocation_takesEffect`).

A call of `lwfs_verify_caps` takes effect here when the server handles it, or
when the cache answers it.
-/

namespace Lwfs.Authr

open SysLib Client Rpc Support

variable {Key Mac : Type}

/-- The right of a user to one operation on a container. -/
structure Access where
  cid : Cid
  op : Opcode
  uid : Uid
  deriving DecidableEq

/-- The user is a member of the list. -/
def Access.Held (a : Access) (db : AclDb) : Prop := Member db a.cid a.uid a.op

/-- The capability is for the right: it was issued to the user, for the
container and an operation mask with the operation in it. -/
def Access.CoveredBy (a : Access) (cap : Cap Mac) : Prop :=
  cap.data.cid = a.cid ∧ requests cap.data.containerOp a.op = true ∧
    cap.data.cred.uid = a.uid

/-- The database of the server, and the variables of every process. -/
structure Deployment (Mac : Type) where
  db : AclDb
  client : RemotePid → AuthrClient Mac

/-- A request that the server handles, or a call of `lwfs_verify_caps` in a
process. -/
inductive Occurrence (Mac : Type)
  | request (req : Request Mac)
  | verify (pid : RemotePid) (call : VerifyCall Mac)

section System

variable [DecidableEq Mac] (srv : Srvr Key Mac) (fns : HashFns Mac)

/-- The code with which the server answers, if it answers. -/
def Srvr.answer (db : AclDb) (caps : List (Cap Mac)) : Option Rc :=
  match (srv.verifyCaps caps).outcome db with
  | .ok _ => some lwfsOk
  | .error (.code code) => some (rcOf code)
  | .error _ => none

/-- The call with the answer of the server in the header that reaches it, if
one does. -/
def answered (answer : Option Rc) (call : VerifyCall Mac) : VerifyCall Mac :=
  { call with
    trip := { call.trip with
      header := call.trip.header.bind fun header =>
        answer.map fun rc => { header with rc } } }

namespace Deployment

/-- Nothing is stored at the server. Some processes have called
`lwfs_cache_caps_init`. -/
def initial (caching : RemotePid → Bool) : Deployment Mac where
  db := AclDb.empty
  client := fun pid => { cacheCapsInit fns with cacheCaps := caching pid }

/-- A call in a process, with the answer that the server gives. -/
def exchange (d : Deployment Mac) (call : VerifyCall Mac) : VerifyCall Mac :=
  answered (srv.answer d.db call.caps) call

def step (d : Deployment Mac) : Occurrence Mac → Deployment Mac
  | .request req => { d with db := srv.step d.db req }
  | .verify pid call =>
      { d with
        client := Function.update d.client pid
          (stepCall fns (d.client pid) (d.exchange srv call)) }

/-- A process accepts an array. -/
def Accepts (d : Deployment Mac) (pid : RemotePid) (call : VerifyCall Mac) :
    Prop :=
  ∃ client', lwfsVerifyCapsSync fns (d.client pid) (d.exchange srv call) =
    .ok (client', lwfsOk)

/-- A process accepts an array with a capability for the right. -/
def AcceptsFor (a : Access) (d : Deployment Mac) : Occurrence Mac → Prop
  | .request _ => False
  | .verify pid call =>
      d.Accepts srv fns pid call ∧ ∃ cap ∈ call.caps, a.CoveredBy cap

/-- From here on no process accepts a capability for the right, for as long
as the user is not on the list. -/
def TakesEffect (a : Access) (d : Deployment Mac) : Prop :=
  ∀ run, Run.Along (step srv fns) (fun d _ => ¬ a.Held d.db) d run →
    Run.Along (step srv fns) (fun d o => ¬ d.AcceptsFor srv fns a o) d run

/-- No process that caches has a capability for the right in its cache. -/
def Forgotten (a : Access) (d : Deployment Mac) : Prop :=
  ∀ pid, (d.client pid).cacheCaps = true →
    ∀ e ∈ (d.client pid).cacheHt.entries, ¬ a.CoveredBy e.v

/-- No process that caches finds a capability for the right. -/
def NotFound (a : Access) (d : Deployment Mac) : Prop :=
  ∀ pid, (d.client pid).cacheCaps = true → ∀ cap : Cap Mac,
    a.CoveredBy cap → lookInCache fns (d.client pid).cacheHt [cap] = false

end Deployment

end System

/-! ### The answer of the server -/

section Answer

variable [DecidableEq Mac] (srv : Srvr Key Mac)

theorem answer_eq_ok {db : AclDb} {caps : List (Cap Mac)} :
    srv.answer db caps = some lwfsOk ↔
      ∃ db', srv.verifyCaps caps db = .ok () db' := by
  unfold Srvr.answer Routine.outcome
  cases srv.verifyCaps caps db with
  | ok u db' => simp
  | error fault db' =>
      cases fault with
      | code code => simp [rcOf_ne_ok]
      | _ => simp

/-- `verify_caps` succeeds if each capability passes its checks, which leave
the database alone. -/
theorem answer_iff {db : AclDb} {caps : List (Cap Mac)} :
    srv.answer db caps = some lwfsOk ↔
      ∀ cap ∈ caps, srv.verifyOne cap db = .ok () db := by
  have hreadonly : ∀ (cap : Cap Mac) (db : AclDb) (u : Unit) (db' : AclDb),
      srv.verifyOne cap db = .ok u db' → db = db' := by
    intro cap db u db' h
    have hwithin : Routine.Within Eq (srv.verifyOne cap) :=
      Routine.within_bind (checkCred_within srv _) fun _ =>
        Routine.within_bind (checkCap_within srv _) fun _ =>
          checkPerm_within srv _ _ _
    exact Routine.within_of_ok hwithin h
  rw [answer_eq_ok, Srvr.verifyCaps]
  constructor
  · rintro ⟨db', h⟩
    exact ((Routine.forM_eq_ok_of_readonly hreadonly).mp h).2
  · intro h
    exact ⟨db, (Routine.forM_eq_ok_of_readonly hreadonly).mpr ⟨rfl, h⟩⟩

/-- Every capability that the server accepts is for rights that its user
holds, but for the creation of containers. -/
theorem held_of_answer (henabled : srv.aclDbEnabled = true) {db : AclDb}
    {caps : List (Cap Mac)} (h : srv.answer db caps = some lwfsOk)
    {a : Access} (hop : a.op ∈ containerOps) (hne : a.op ≠ containerCreate)
    {cap : Cap Mac} (hcap : cap ∈ caps) (hcovered : a.CoveredBy cap) :
    a.Held db := by
  have hone := (answer_iff srv).mp h cap hcap
  simp only [Srvr.verifyOne, Routine.bind_eq_ok] at hone
  obtain ⟨_, db₁, hcred, _, db₂, hcheck, hperm⟩ := hone
  have hdb₁ : db = db₁ := Routine.within_of_ok (checkCred_within srv _) hcred
  have hdb₂ : db₁ = db₂ := Routine.within_of_ok (checkCap_within srv _) hcheck
  subst hdb₁ hdb₂
  obtain ⟨hcid, hreq, huid⟩ := hcovered
  have hprobed := ((checkPerm_eq_ok srv henabled).mp hperm).2 a.op hop hne hreq
  rw [hcid, huid] at hprobed
  exact hprobed.member

/-- A capability of this server for the creation of containers alone is
accepted whatever the database holds. -/
theorem answer_containerCreate (hcreds : srv.credsEnabled = false)
    (db : AclDb) (cid : Cid) (cred : Cred) :
    srv.answer db [generateCap srv.hmac srv.authrSvcKey
      { cid, containerOp := containerCreate, cred }] = some lwfsOk := by
  rw [answer_iff]
  intro cap hcap
  rw [List.mem_singleton.mp hcap]
  have hcheck : srv.checkCap (generateCap srv.hmac srv.authrSvcKey
      { cid, containerOp := containerCreate, cred }) db = .ok () db := by
    rw [Srvr.checkCap]
    split
    · refine Routine.reader_eq_ok.mpr ⟨?_, rfl⟩
      rw [verifyCap_iff, generateCap_mac]
      rfl
    · rfl
  have hperm : srv.checkPerm cid containerCreate cred.uid db = .ok () db := by
    cases henabled : srv.aclDbEnabled with
    | false =>
        rw [Srvr.checkPerm, henabled]
        rfl
    | true =>
        refine (checkPerm_eq_ok srv henabled).mpr ⟨rfl, ?_⟩
        intro op hop hne hreq
        have hnone : ∀ op ∈ containerOps, op ≠ containerCreate →
            requests containerCreate op = false :=
          forall_containerOps.mpr (by decide)
        rw [hnone op hop hne] at hreq
        cases hreq
  rw [Srvr.verifyOne, Routine.bind_of_ok (checkCred_eq_ok srv hcreds _ db),
    Routine.bind_of_ok hcheck]
  exact hperm

end Answer

/-! ### What a call leaves in a cache -/

section Calls

variable {fns : HashFns Mac}

/-- A process takes an array for accepted only if the server has answered
so. -/
theorem answer_of_serverAccepts {client : AuthrClient Mac}
    {answer : Option Rc} {call : VerifyCall Mac}
    (h : serverAccepts fns client (answered answer call) = true) :
    answer = some lwfsOk := by
  simp only [serverAccepts, answered, Bool.and_eq_true] at h
  obtain ⟨-, -, hheader⟩ := h
  cases hcame : call.trip.header with
  | none => simp [hcame] at hheader
  | some header =>
      cases answer with
      | none => simp [hcame] at hheader
      | some rc => simpa [hcame] using hheader

end Calls

namespace Deployment

section Step

variable [DecidableEq Mac] {srv : Srvr Key Mac} {fns : HashFns Mac}
  {d : Deployment Mac} {o : Occurrence Mac}

theorem client_step (srv : Srvr Key Mac) (fns : HashFns Mac)
    (d : Deployment Mac) (o : Occurrence Mac) (pid : RemotePid) :
    (d.step srv fns o).client pid = d.client pid ∨
      ∃ call, (d.step srv fns o).client pid =
        stepCall fns (d.client pid) (d.exchange srv call) := by
  cases o with
  | request req => exact .inl rfl
  | verify pid' call =>
      by_cases hpid : pid = pid'
      · subst hpid
        exact .inr ⟨call, Function.update_self ..⟩
      · exact .inl (Function.update_of_ne hpid ..)

theorem client_step_verify (srv : Srvr Key Mac) (fns : HashFns Mac)
    (d : Deployment Mac) (pid : RemotePid) (call : VerifyCall Mac) :
    (d.step srv fns (.verify pid call)).client pid =
      stepCall fns (d.client pid) (d.exchange srv call) :=
  Function.update_self ..

theorem client_step_flags (srv : Srvr Key Mac) (fns : HashFns Mac)
    (d : Deployment Mac) (o : Occurrence Mac) (pid : RemotePid) :
    ((d.step srv fns o).client pid).verifyCaps = (d.client pid).verifyCaps ∧
      ((d.step srv fns o).client pid).cacheCaps =
        (d.client pid).cacheCaps := by
  rcases client_step srv fns d o pid with h | ⟨call, h⟩
  · rw [h]
    exact ⟨rfl, rfl⟩
  · rw [h]
    exact ⟨stepCall_verifyCaps fns _ _, stepCall_cacheCaps fns _ _⟩

/-- An entry of a cache was there before, or the server has just accepted its
capability. -/
theorem mem_entries_of_step {pid : RemotePid} {e : Entry Mac (Cap Mac)}
    (h : e ∈ ((d.step srv fns o).client pid).cacheHt.entries) :
    e ∈ (d.client pid).cacheHt.entries ∨
      e.k = e.v.mac ∧ ∃ caps, srv.answer d.db caps = some lwfsOk ∧
        e.v ∈ caps := by
  rcases client_step srv fns d o pid with hsame | ⟨call, hcall⟩
  · rw [hsame] at h
    exact .inl h
  · rw [hcall] at h
    rcases mem_entries_of_stepCall h with hold | ⟨haccepts, hkey, hmem⟩
    · exact .inl hold
    · exact .inr ⟨hkey, call.caps, answer_of_serverAccepts haccepts, hmem⟩

end Step

/-! ### What holds in every deployment -/

section Sound

variable [DecidableEq Mac] {srv : Srvr Key Mac} {fns : HashFns Mac}
  {d : Deployment Mac}

/-- Every process verifies, and every entry of a cache is under the MAC of its
capability, where a search looks for it. -/
structure Sound (fns : HashFns Mac) (d : Deployment Mac) : Prop where
  verifies : ∀ pid, (d.client pid).verifyCaps = true
  keys : ∀ pid, ∀ e ∈ (d.client pid).cacheHt.entries, e.k = e.v.mac
  placed : ∀ pid, Hashtable.Placed fns (d.client pid).cacheHt.table

/-- The MACs in the caches are those that the server computes. -/
def Genuine (srv : Srvr Key Mac) (d : Deployment Mac) : Prop :=
  ∀ pid, ∀ e ∈ (d.client pid).cacheHt.entries,
    e.v.mac = srv.hmac srv.authrSvcKey (CapData.memory e.v.data)

theorem Sound.step (h : d.Sound fns) (o : Occurrence Mac) :
    (d.step srv fns o).Sound fns where
  verifies pid := (client_step_flags srv fns d o pid).1.trans (h.verifies pid)
  keys pid e he := by
    rcases mem_entries_of_step he with hold | ⟨hkey, -⟩
    · exact h.keys pid e hold
    · exact hkey
  placed pid := by
    rcases client_step srv fns d o pid with
      hsame | ⟨call, hcall⟩
    · rw [hsame]
      exact h.placed pid
    · rw [hcall]
      exact placed_stepCall (h.placed pid)

theorem Genuine.step (hcaps : srv.capsEnabled = true) (h : d.Genuine srv)
    (o : Occurrence Mac) : (d.step srv fns o).Genuine srv := by
  intro pid e he
  rcases mem_entries_of_step he with hold | ⟨-, caps, hanswer, hmem⟩
  · exact h pid e hold
  · exact mac_of_verifyOne srv hcaps ((answer_iff srv).mp hanswer e.v hmem)

theorem sound_exec (srv : Srvr Key Mac) (fns : HashFns Mac)
    (caching : RemotePid → Bool) (run : List (Occurrence Mac)) :
    (Run.exec (step srv fns) (initial fns caching) run).Sound fns := by
  have hinit : (initial fns caching : Deployment Mac).Sound fns := by
    refine ⟨fun _ => rfl, fun pid e he => ?_, fun _ =>
      Hashtable.placed_create fns _⟩
    simp [initial, cacheCapsInit] at he
  exact Run.exec_invariant_of_step (fun d o h => h.step o) hinit run

theorem genuine_exec (hcaps : srv.capsEnabled = true) (fns : HashFns Mac)
    (caching : RemotePid → Bool) (run : List (Occurrence Mac)) :
    (Run.exec (step srv fns) (initial fns caching) run).Genuine srv := by
  have hinit : (initial fns caching : Deployment Mac).Genuine srv := by
    intro pid e he
    simp [initial, cacheCapsInit] at he
  exact Run.exec_invariant_of_step (fun d o h => h.step hcaps o) hinit run

end Sound

/-! ### Taking effect -/

section TakesEffect

variable [DecidableEq Mac] {srv : Srvr Key Mac} {hashfromkey : Mac → UInt32}
  {loadlimit : ℕ → ℕ} {a : Access} {d : Deployment Mac}

/-- While the user is not on the list, no capability for the right gets into
a cache. -/
theorem Forgotten.step {fns : HashFns Mac} (henabled : srv.aclDbEnabled = true)
    (hop : a.op ∈ containerOps) (hne : a.op ≠ containerCreate)
    (h : d.Forgotten a) (hheld : ¬ a.Held d.db) (o : Occurrence Mac) :
    (d.step srv fns o).Forgotten a := by
  intro pid hcache e he hcovered
  rw [(client_step_flags srv fns d o pid).2] at hcache
  rcases mem_entries_of_step he with hold | ⟨-, caps, hanswer, hmem⟩
  · exact h pid hcache e hold hcovered
  · exact hheld (held_of_answer srv henabled hanswer hop hne hmem hcovered)

/-- While the user is not on the list and no cache holds a capability for the
right, no process accepts one. -/
theorem not_acceptsFor (henabled : srv.aclDbEnabled = true)
    (hop : a.op ∈ containerOps) (hne : a.op ≠ containerCreate)
    (hsound : d.Sound (cacheFns hashfromkey loadlimit)) (h : d.Forgotten a)
    (hheld : ¬ a.Held d.db) (o : Occurrence Mac) :
    ¬ d.AcceptsFor srv (cacheFns hashfromkey loadlimit) a o := by
  cases o with
  | request req => exact fun haccepts => haccepts
  | verify pid call =>
      rintro ⟨⟨client', hsync⟩, cap, hcap, hcovered⟩
      rcases found_or_accepted_of_sync (hsound.verifies pid) hsync with
        ⟨hcache, hfound⟩ | haccepts
      · obtain ⟨e, he, rfl⟩ :=
          mem_cache_of_lookInCache (hsound.keys pid) hfound cap hcap
        exact h pid hcache e he hcovered
      · exact hheld (held_of_answer srv henabled
          (answer_of_serverAccepts haccepts) hop hne hcap hcovered)

theorem Forgotten.takesEffect (henabled : srv.aclDbEnabled = true)
    (hop : a.op ∈ containerOps) (hne : a.op ≠ containerCreate)
    (hsound : d.Sound (cacheFns hashfromkey loadlimit))
    (h : d.Forgotten a) :
    d.TakesEffect srv (cacheFns hashfromkey loadlimit) a := by
  intro run hrun
  have hstep : ∀ (d : Deployment Mac) (o : Occurrence Mac),
      d.Sound (cacheFns hashfromkey loadlimit) ∧ d.Forgotten a →
        ¬ a.Held d.db →
        (d.step srv (cacheFns hashfromkey loadlimit) o).Sound
          (cacheFns hashfromkey loadlimit) ∧
        (d.step srv (cacheFns hashfromkey loadlimit) o).Forgotten a :=
    fun d o hinv hheld =>
      ⟨hinv.1.step o, hinv.2.step henabled hop hne hheld o⟩
  exact Run.along_of_invariant hstep
    (fun d o hinv hheld =>
      not_acceptsFor henabled hop hne hinv.1 hinv.2 hheld o) ⟨hsound, h⟩ hrun

/-- One call shows that a revocation did not take effect. -/
theorem not_takesEffect {fns : HashFns Mac} (hheld : ¬ a.Held d.db)
    {o : Occurrence Mac} (h : d.AcceptsFor srv fns a o) :
    ¬ d.TakesEffect srv fns a :=
  fun heffect => (heffect [o] ⟨hheld, trivial⟩).1 h

/-- A process that finds a capability for the right in its cache accepts
it. -/
theorem not_takesEffect_of_found {fns : HashFns Mac} (hheld : ¬ a.Held d.db)
    {pid : RemotePid} (hcaching : (d.client pid).Caching) {cap : Cap Mac}
    (hcovered : a.CoveredBy cap)
    (hfound : lookInCache fns (d.client pid).cacheHt [cap] = true) :
    ¬ d.TakesEffect srv fns a := by
  have haccepts : d.AcceptsFor srv fns a
      (.verify pid ⟨[cap], ⟨.requestError, lwfsOk, ()⟩,
        Trip.prompt plainHeader, 0⟩) :=
    ⟨⟨_, lwfsVerifyCapsSync_of_found hcaching hfound⟩, cap,
      List.mem_singleton.mpr rfl, hcovered⟩
  exact not_takesEffect hheld haccepts

/-- A request to the server leaves the caches as they are. -/
theorem not_takesEffect_of_found_before {fns : HashFns Mac}
    {req : Request Mac} (hheld : ¬ a.Held (srv.step d.db req))
    {pid : RemotePid} (hcaching : (d.client pid).Caching) {cap : Cap Mac}
    (hcovered : a.CoveredBy cap)
    (hfound : lookInCache fns (d.client pid).cacheHt [cap] = true) :
    ¬ (d.step srv fns (.request req)).TakesEffect srv fns a :=
  not_takesEffect_of_found hheld hcaching hcovered hfound

/-- A capability for the creation of containers is accepted all the same. -/
theorem not_takesEffect_of_create {fns : HashFns Mac}
    (hcreds : srv.credsEnabled = false) (hheld : ¬ a.Held d.db)
    (hsound : d.Sound fns) (hop : a.op = containerCreate) :
    ¬ d.TakesEffect srv fns a := by
  let cred : Cred := ⟨a.uid, Octets.fill 20 0⟩
  let cap := generateCap srv.hmac srv.authrSvcKey
    { cid := a.cid, containerOp := containerCreate, cred }
  let call : VerifyCall Mac := ⟨[cap], ⟨.requestError, lwfsOk, ()⟩,
    Trip.prompt plainHeader, 1⟩
  have hanswer : srv.answer d.db [cap] = some lwfsOk :=
    answer_containerCreate srv hcreds d.db a.cid cred
  have htrip : (d.exchange srv call).trip = Trip.prompt plainHeader := by
    show (answered (srv.answer d.db [cap]) call).trip = _
    rw [hanswer]
    rfl
  have hheader : plainHeader.rc = lwfsOk := rfl
  obtain ⟨client', hsync⟩ := lwfsVerifyCapsSync_of_prompt
    (hsound.verifies ⟨0, 0⟩) (d.exchange srv call) hheader htrip
    (Nat.le_refl 1)
  have hcovered : a.CoveredBy cap := by
    refine ⟨rfl, ?_, rfl⟩
    rw [hop]
    show requests containerCreate containerCreate = true
    decide
  have haccepts : d.AcceptsFor srv fns a (.verify ⟨0, 0⟩ call) :=
    ⟨⟨client', hsync⟩, cap, List.mem_singleton.mpr rfl, hcovered⟩
  exact not_takesEffect hheld haccepts

/-- If distinct data have distinct MACs, what a process does not find is not
in its cache. -/
theorem NotFound.forgotten (hinj : Function.Injective
      (srv.hmac srv.authrSvcKey))
    (hsound : d.Sound (cacheFns hashfromkey loadlimit))
    (hgenuine : d.Genuine srv)
    (h : d.NotFound (cacheFns hashfromkey loadlimit) a) : d.Forgotten a := by
  intro pid hcache e he hcovered
  have hsome := Hashtable.search_isSome_of_mem _ (hsound.placed pid) he
    (decide_eq_true rfl)
  obtain ⟨found, hsearch⟩ := Option.isSome_iff_exists.mp hsome
  rw [hsound.keys pid e he] at hsearch
  obtain ⟨e', he', hkey, rfl⟩ := Hashtable.exists_mem_of_search _ hsearch
  have hmac : e.v.mac = e'.k := of_decide_eq_true hkey
  have hdata : e.v.data = e'.v.data := by
    apply memory_inj
    apply hinj
    rw [← hgenuine pid e he, ← hgenuine pid e' he', hmac,
      hsound.keys pid e' he']
  have hfound : lookInCache (cacheFns hashfromkey loadlimit)
      (d.client pid).cacheHt [e.v] = true := by
    rw [lookInCache_iff]
    intro cap hcap
    rw [List.mem_singleton.mp hcap]
    exact ⟨e'.v, hsearch, hdata⟩
  rw [h pid hcache e.v hcovered] at hfound
  cases hfound

theorem TakesEffect.notFound (hcreds : srv.credsEnabled = false)
    (hheld : ¬ a.Held d.db)
    (hsound : d.Sound (cacheFns hashfromkey loadlimit))
    (h : d.TakesEffect srv (cacheFns hashfromkey loadlimit) a) :
    a.op ≠ containerCreate ∧
      d.NotFound (cacheFns hashfromkey loadlimit) a := by
  constructor
  · exact fun hop => not_takesEffect_of_create hcreds hheld hsound hop h
  · intro pid hcache cap hcovered
    rw [← Bool.not_eq_true]
    exact fun hfound => not_takesEffect_of_found hheld
      ⟨hsound.verifies pid, hcache⟩ hcovered hfound h

end TakesEffect

end Deployment

/-! ### An owner who gives up reading -/

/-- The right of the owner of container 1 to read it. -/
def readRight : Access := ⟨1, containerRead, plainCred.uid⟩

def plainDeployment (caching : RemotePid → Bool)
    (before : List (Occurrence (List UInt8))) : Deployment (List UInt8) :=
  Run.exec (Deployment.step plainSrvr plainFns)
    (Deployment.initial plainFns caching) before

def createIt : Occurrence (List UInt8) :=
  .request (.createContainer 1 (ownerCap plainSrvr 0 plainCred))

def verifyItCall : VerifyCall (List UInt8) :=
  ⟨[ownerCap plainSrvr 1 plainCred], ⟨.requestError, lwfsOk, ()⟩,
    Trip.prompt plainHeader, 1⟩

def giveUpReading : Request (List UInt8) :=
  .modAcl 1 containerRead none (some [plainCred.uid])
    (ownerCap plainSrvr 1 plainCred)

/-- The database after `createIt`. -/
def ownedDb : AclDb :=
  plainSrvr.step AclDb.empty
    (.createContainer 1 (ownerCap plainSrvr 0 plainCred))

theorem giveUpReading_ok :
    (plainSrvr.modAcl 1 containerRead none (some [plainCred.uid])
      (ownerCap plainSrvr 1 plainCred)).outcome ownedDb = .ok () := rfl

theorem not_held_after_giveUpReading :
    ¬ readRight.Held (plainSrvr.step ownedDb giveUpReading) := by
  have hread : (plainSrvr.step ownedDb giveUpReading).acl? readRight.cid
      readRight.op = some (removeUids plainSrvr.qsort [plainCred.uid]
        [plainCred.uid]).1 := rfl
  rintro ⟨acl, hacl, hmem⟩
  rw [hread, removeUids_singleton _ List.mem_cons_self] at hacl
  cases hacl
  cases hmem

theorem answer_owner :
    plainSrvr.answer ownedDb [ownerCap plainSrvr 1 plainCred] =
      some lwfsOk := rfl

end Lwfs.Authr
