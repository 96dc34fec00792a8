import Lwfs.Authr.Server

/-!
Capabilities along a run of requests.

Clients may present any capability, put together from any data and any MAC
they have. The hash is symbolic: distinct bytes have distinct hashes, and
without the key the only hashes a client can present are the MACs of
capabilities that the server has given out. The run therefore remembers the
capabilities that were issued, and every capability that a check accepts
turns out to be one of them.
-/

namespace Lwfs.Authr

open SysLib

variable {Key Mac : Type} [DecidableEq Mac]

/-- The database together with the capabilities issued so far. -/
structure History (Mac : Type) where
  db : AclDb
  issued : List (Cap Mac)

namespace History

/-- The history of a server that has just been started. -/
def empty : History Mac := ⟨AclDb.empty, []⟩

/-- The history after a request. -/
def record (srv : Srvr Key Mac) (h : History Mac) (req : Request Mac) :
    History Mac :=
  ⟨srv.step h.db req, h.issued ++ (srv.issues h.db req).toList⟩

end History

/-- The capabilities that a client presents with a request. -/
def Request.presents : Request Mac → List (Cap Mac)
  | .createContainer _ cap => [cap]
  | .removeContainer _ cap => [cap]
  | .getAcl _ _ cap => [cap]
  | .modAcl _ _ _ _ cap => [cap]
  | .getCap _ _ _ => []
  | .verifyCaps caps => caps

/-- The capabilities that `check_authorization` or `verify_caps` accepts in
the course of a request. -/
def Srvr.accepts (srv : Srvr Key Mac) (db : AclDb) :
    Request Mac → List (Cap Mac)
  | .removeContainer cid cap =>
      if srv.authorizes db cid containerRemove cap then [cap] else []
  | .getAcl cid _ cap =>
      if srv.authorizes db cid containerRead cap then [cap] else []
  | .modAcl cid _ _ _ cap =>
      if srv.authorizes db cid containerModacl cap then [cap] else []
  | .verifyCaps caps =>
      match srv.verifyCaps caps db with
      | .ok _ _ => caps
      | .error _ _ => []
  | _ => []

/-- A MAC that a client presents is no hash under the key, unless it is the
MAC of a capability that was issued before. -/
def Unforged (srv : Srvr Key Mac) (h : History Mac) (req : Request Mac) :
    Prop :=
  ∀ cap ∈ req.presents, (∃ bytes, cap.mac = srv.hmac srv.authrSvcKey bytes) →
    ∃ cap' ∈ h.issued, cap'.mac = cap.mac

/-! ### What a passed check shows -/

section Checks

variable (srv : Srvr Key Mac) {db db' : AclDb} {u : Unit} {cap : Cap Mac}

theorem checkCap_eq_ok (hcaps : srv.capsEnabled = true) :
    srv.checkCap cap db = .ok u db' ↔
      cap.mac = srv.hmac srv.authrSvcKey (CapData.memory cap.data) ∧
        db = db' := by
  rw [Srvr.checkCap, if_pos hcaps, Routine.reader_eq_ok, verifyCap_iff]

/-- A capability that passes the checks has the hash of its own data. -/
theorem mac_of_verifyOne (hcaps : srv.capsEnabled = true)
    (h : srv.verifyOne cap db = .ok u db') :
    cap.mac = srv.hmac srv.authrSvcKey (CapData.memory cap.data) := by
  simp only [Srvr.verifyOne, Routine.bind_eq_ok] at h
  obtain ⟨_, _, -, _, _, hcap, -⟩ := h
  exact ((checkCap_eq_ok srv hcaps).mp hcap).1

theorem mac_of_authorizes (hcaps : srv.capsEnabled = true) {cid : Cid}
    {containerOp : Opcode} (h : srv.authorizes db cid containerOp cap = true) :
    cap.mac = srv.hmac srv.authrSvcKey (CapData.memory cap.data) := by
  unfold Srvr.authorizes at h
  split at h
  · next u db' hok =>
    unfold Srvr.checkAuthorization at hok
    split at hok
    · exact absurd hok Routine.throw_ne_ok
    split at hok
    · exact absurd hok Routine.throw_ne_ok
    · simp only [Routine.bind_eq_ok] at hok
      obtain ⟨_, _, -, _, _, hcap, -⟩ := hok
      exact ((checkCap_eq_ok srv hcaps).mp hcap).1
  · cases h

theorem mac_of_verifyCaps (hcaps : srv.capsEnabled = true)
    {caps : List (Cap Mac)} (h : srv.verifyCaps caps db = .ok u db') :
    ∀ cap ∈ caps,
      cap.mac = srv.hmac srv.authrSvcKey (CapData.memory cap.data) := by
  induction caps generalizing db with
  | nil => exact fun cap hcap => absurd hcap List.not_mem_nil
  | cons c caps ih =>
      have hcons : srv.verifyCaps (c :: caps) =
          (srv.verifyOne c >>= fun _ => srv.verifyCaps caps) := rfl
      rw [hcons, Routine.bind_eq_ok] at h
      obtain ⟨_, db'', hone, hrest⟩ := h
      rw [List.forall_mem_cons]
      exact ⟨mac_of_verifyOne srv hcaps hone, ih hrest⟩

theorem mac_of_accepts (hcaps : srv.capsEnabled = true) {req : Request Mac}
    (h : cap ∈ srv.accepts db req) :
    cap ∈ req.presents ∧
      cap.mac = srv.hmac srv.authrSvcKey (CapData.memory cap.data) := by
  -- Three handlers authorize one capability each, for different operations.
  have hone : ∀ {cid op c}, cap ∈ (if srv.authorizes db cid op c then [c]
      else []) → cap ∈ [c] ∧
        cap.mac = srv.hmac srv.authrSvcKey (CapData.memory cap.data) := by
    intro cid op c hmem
    split at hmem
    · next hauth =>
      refine ⟨hmem, ?_⟩
      rw [List.mem_singleton.mp hmem]
      exact mac_of_authorizes srv hcaps hauth
    · exact absurd hmem List.not_mem_nil
  cases req with
  | createContainer cid c => exact absurd h List.not_mem_nil
  | removeContainer cid c => exact hone h
  | getAcl cid op c => exact hone h
  | modAcl cid op set unset c => exact hone h
  | getCap cid op cred => exact absurd h List.not_mem_nil
  | verifyCaps caps =>
      simp only [Srvr.accepts] at h
      split at h
      · next u db' hok =>
        exact ⟨h, mac_of_verifyCaps srv hcaps hok cap h⟩
      · exact absurd h List.not_mem_nil

end Checks

/-! ### What the server issues -/

/-- Every capability issued so far has the hash of its own data. -/
def History.Genuine (srv : Srvr Key Mac) (h : History Mac) : Prop :=
  ∀ cap ∈ h.issued,
    cap.mac = srv.hmac srv.authrSvcKey (CapData.memory cap.data)

variable (srv : Srvr Key Mac)

omit [DecidableEq Mac] in
/-- Both operations that issue capabilities generate them under the key. -/
theorem mac_of_issues {db : AclDb} {req : Request Mac} {cap : Cap Mac}
    (h : srv.issues db req = some cap) :
    cap.mac = srv.hmac srv.authrSvcKey (CapData.memory cap.data) := by
  have hok : ∀ {x : DbRoutine (Cap Mac)},
      (x.outcome db).toOption = some cap → ∃ db', x db = .ok cap db' := by
    intro x hx
    cases hout : x.outcome db with
    | error e => simp [hout, Except.toOption] at hx
    | ok c =>
        simp only [hout, Except.toOption, Option.some.injEq] at hx
        exact ⟨_, hx ▸ Routine.outcome_eq_ok.mp hout⟩
  cases req with
  | createContainer cid c =>
      obtain ⟨db', hx⟩ := hok h
      simp only [Srvr.createContainer, Routine.bind_eq_ok,
        Routine.pure_eq_ok] at hx
      obtain ⟨_, _, -, _, _, -, rfl, -⟩ := hx
      exact generateCap_mac _ _ _
  | getCap cid op cred =>
      obtain ⟨db', hx⟩ := hok h
      simp only [Srvr.getCap, Routine.bind_eq_ok, Routine.pure_eq_ok] at hx
      obtain ⟨_, _, -, _, _, -, rfl, -⟩ := hx
      exact generateCap_mac _ _ _
  | _ => cases h

theorem genuine_record {h : History Mac} (hgen : h.Genuine srv)
    (req : Request Mac) : (h.record srv req).Genuine srv := by
  intro cap hcap
  rcases List.mem_append.mp hcap with hcap | hcap
  · exact hgen cap hcap
  · exact mac_of_issues srv (Option.mem_toList.mp hcap)

/-- A capability that is accepted is one that was issued: its MAC was, and
the MAC determines the data. -/
theorem accepts_subset_issued (hcaps : srv.capsEnabled = true)
    (hinj : Function.Injective (srv.hmac srv.authrSvcKey)) {h : History Mac}
    (hgen : h.Genuine srv) {req : Request Mac} (hreq : Unforged srv h req) :
    ∀ cap ∈ srv.accepts h.db req, cap ∈ h.issued := by
  intro cap hcap
  obtain ⟨hpresents, hmac⟩ := mac_of_accepts srv hcaps hcap
  obtain ⟨cap', hissued, hmac'⟩ := hreq cap hpresents ⟨_, hmac⟩
  have hdata : cap'.data = cap.data := by
    apply memory_inj
    apply hinj
    rw [← hgen cap' hissued, ← hmac, hmac']
  have hsame : cap' = cap := by
    obtain ⟨data, mac⟩ := cap
    obtain ⟨data', mac'⟩ := cap'
    rw [show data' = data from hdata, show mac' = mac from hmac']
  exact hsame ▸ hissued

/-- With the checks of capabilities on, in every run in which clients forge
no hash: whatever `check_authorization` and `verify_caps` accept was issued
before, with the same data and MAC; and whatever the server generates, for
whatever data, passes `verify_cap`. -/
theorem capability_soundness (key : Key) (hmac : Key → List UInt8 → Mac)
    (q : Qsort Uid) (hinj : Function.Injective (hmac key))
    (run : List (Request Mac))
    (hrun : Run.Along (History.record (Srvr.init true key hmac q))
      (Unforged (Srvr.init true key hmac q)) History.empty run) :
    let srv := Srvr.init true key hmac q
    Run.Along (History.record srv)
        (fun h req => ∀ cap ∈ srv.accepts h.db req, cap ∈ h.issued)
        History.empty run ∧
      ∀ data, verifyCap hmac key (generateCap hmac key data) = .ok () := by
  intro srv
  constructor
  · have hempty : History.empty.Genuine srv :=
      fun cap hcap => absurd hcap List.not_mem_nil
    have hstep : ∀ h req, h.Genuine srv → Unforged srv h req →
        (h.record srv req).Genuine srv :=
      fun h req hgen _ => genuine_record srv hgen req
    exact Run.along_of_invariant hstep
      (fun h req hgen hreq => accepts_subset_issued srv rfl hinj hgen hreq)
      hempty hrun
  · intro data
    rw [verifyCap_iff]
    exact generateCap_mac hmac key data

/-- The owner of a new container has its capability verified. -/
theorem capability_soundness_owner :
    let cred : Cred := ⟨Octets.fill uuidSize 1, Octets.fill 20 0⟩
    let hmac : List UInt8 → List UInt8 → List UInt8 :=
      fun key bytes => key ++ bytes
    let srv := Srvr.init true [7] hmac (Qsort.insertion Uid)
    let cap := generateCap hmac [7] ⟨5, Srvr.ownerOps, cred⟩
    Run.Along (History.record srv)
        (fun h req => ∀ cap ∈ srv.accepts h.db req, cap ∈ h.issued)
        History.empty
        [.createContainer 5 ⟨⟨0, 0, cred⟩, []⟩, .verifyCaps [cap]] ∧
      ∀ data, verifyCap hmac [7] (generateCap hmac [7] data) = .ok () := by
  refine capability_soundness [7] _ (Qsort.insertion Uid)
    (fun a b h => List.append_cancel_left h) _ ⟨?_, ?_, trivial⟩
  · rintro cap hcap ⟨bytes, hmac⟩
    rw [List.mem_singleton.mp hcap] at hmac
    exact absurd hmac (by simp [Srvr.init])
  · rintro cap hcap -
    rw [List.mem_singleton.mp hcap]
    exact ⟨_, List.mem_singleton.mpr rfl, rfl⟩

end Lwfs.Authr
