import Lwfs.Authr.Server

/-!
When the server grants access.

`check_perm` looks a user id up in each access-control list by `bsearch`, and
the comparator of the search never answers with a negative number. So the
search only ever moves to the right, and it misses every member that does not
stand at one of the positions `n - ⌊(n + 1) / 2 ^ j⌋` of a list of length
`n`. The results below say which decision follows for every state of the
database.
-/

namespace Lwfs.Authr

open SysLib

variable {Key Mac : Type} (srv : Srvr Key Mac)

/-- A property of every requested operation but the creation of containers. -/
def ForRequested (containerOp : Opcode) (P : Opcode → Prop) : Prop :=
  ∀ testop ∈ containerOps, testop ≠ containerCreate →
    requests containerOp testop → P testop

instance (containerOp : Opcode) (P : Opcode → Prop) [DecidablePred P] :
    Decidable (ForRequested containerOp P) :=
  List.decidableBAll (fun testop => testop ≠ containerCreate →
    requests containerOp testop → P testop) containerOps

/-- A list is stored for the operation and the user is a member of it. -/
def Member (db : AclDb) (cid : Cid) (uid : Uid) (testop : Opcode) : Prop :=
  ∃ acl ∈ db.acl? cid testop, uid ∈ acl

/-- A list is stored for the operation and the user stands at a position of
it that a search to the right looks at. -/
def AtProbed (db : AclDb) (cid : Cid) (uid : Uid) (testop : Opcode) : Prop :=
  ∃ acl ∈ db.acl? cid testop, ∃ i, Probed acl.length i ∧ acl[i]? = some uid

theorem AtProbed.member {db : AclDb} {cid : Cid} {uid : Uid}
    {testop : Opcode} (h : AtProbed db cid uid testop) :
    Member db cid uid testop := by
  obtain ⟨acl, hacl, i, -, hi⟩ := h
  exact ⟨acl, hacl, List.mem_of_getElem? hi⟩

theorem ForRequested.imp {containerOp : Opcode} {P Q : Opcode → Prop}
    (hPQ : ∀ testop, P testop → Q testop) (h : ForRequested containerOp P) :
    ForRequested containerOp Q :=
  fun testop hop hne hreq => hPQ testop (h testop hop hne hreq)

/-- The search of `check_perm` finds the members at probed positions. -/
theorem bsearch_compareUids_isSome (uid : Uid) (acl : List Uid) :
    (bsearch uid acl compareUids).isSome ↔
      ∃ i, Probed acl.length i ∧ acl[i]? = some uid := by
  rw [bsearch_isSome_of_nonneg fun a _ => compareUids_nonneg uid a]
  constructor
  · rintro ⟨i, a, hi, ha, hz⟩
    rw [compareUids_eq_zero] at hz
    exact ⟨i, hi, by rw [ha, hz]⟩
  · rintro ⟨i, hi, ha⟩
    exact ⟨i, uid, hi, ha, compareUids_eq_zero.mpr rfl⟩

/-- What one turn of the loop of `check_perm` asks. -/
theorem checkPermOp_eq_ok {cid : Cid} {containerOp : Opcode} {uid : Uid}
    {testop : Opcode} {db db' : AclDb} {u : Unit} :
    Srvr.checkPermOp cid containerOp uid testop db = .ok u db' ↔
      db = db' ∧ (testop ≠ containerCreate → requests containerOp testop →
        AtProbed db cid uid testop) := by
  unfold Srvr.checkPermOp
  by_cases hcreate : testop = containerCreate
  · rw [if_pos hcreate, Routine.pure_eq_ok]
    simp [hcreate]
  rw [if_neg hcreate]
  by_cases hreq : requests containerOp testop
  · rw [if_pos hreq, Routine.bind_eq_ok]
    simp only [authrDbGetAcl_eq_ok, ne_eq, hcreate, not_false_eq_true, hreq,
      forall_true_left, AtProbed, ← bsearch_compareUids_isSome,
      Option.mem_def]
    constructor
    · rintro ⟨acl, _, ⟨hacl, rfl⟩, h⟩
      cases hfound : bsearch uid acl compareUids with
      | none => simp [hfound] at h
      | some i =>
          simp only [hfound, Routine.pure_eq_ok, true_and] at h
          exact ⟨h, acl, hacl, by rw [hfound]; rfl⟩
    · rintro ⟨rfl, acl, hacl, hfound⟩
      refine ⟨acl, db, ⟨hacl, rfl⟩, ?_⟩
      obtain ⟨i, hi⟩ := Option.isSome_iff_exists.mp hfound
      simp [hi]
  · rw [if_neg hreq, Routine.pure_eq_ok]
    simp [hreq]

theorem checkPerm_eq_ok (henabled : srv.aclDbEnabled = true) {cid : Cid}
    {containerOp : Opcode} {uid : Uid} {db db' : AclDb} {u : Unit} :
    srv.checkPerm cid containerOp uid db = .ok u db' ↔
      db = db' ∧ ForRequested containerOp (AtProbed db cid uid) := by
  unfold Srvr.checkPerm
  rw [if_pos henabled, Routine.forM_eq_ok_of_readonly
    fun testop s v t h => (checkPermOp_eq_ok.mp h).1]
  refine and_congr_right fun _ => forall₂_congr fun testop _ => ?_
  rw [checkPermOp_eq_ok]
  exact and_iff_right rfl

theorem checkCred_eq_ok (hcreds : srv.credsEnabled = false) (cred : Cred)
    (db : AclDb) : srv.checkCred cred db = .ok () db := by
  simp [Srvr.checkCred, hcreds]

/-- `get_cap` returns the capability it was asked for exactly if `check_perm`
succeeds. -/
theorem getCap_eq_ok (hcreds : srv.credsEnabled = false) {cid : Cid}
    {containerOp : Opcode} {cred : Cred} {db db' : AclDb} {cap : Cap Mac} :
    srv.getCap cid containerOp cred db = .ok cap db' ↔
      srv.checkPerm cid containerOp cred.uid db = .ok () db' ∧
        cap = generateCap srv.hmac srv.authrSvcKey
          { cid, containerOp, cred } := by
  simp only [Srvr.getCap, Routine.bind_eq_ok, checkCred_eq_ok srv hcreds,
    EStateM.Result.ok.injEq, Routine.pure_eq_ok]
  constructor
  · rintro ⟨_, _, ⟨-, rfl⟩, _, _, hperm, rfl, rfl⟩
    exact ⟨hperm, rfl⟩
  · rintro ⟨hperm, rfl⟩
    exact ⟨(), db, ⟨trivial, rfl⟩, (), db', hperm, rfl, rfl⟩

/-! ### The decision and the lists -/

/-- If the user is a member of every requested list, the user stands at a
probed position of each of them. -/
def MembersProbed (db : AclDb) (cid : Cid) (containerOp : Opcode)
    (uid : Uid) : Prop :=
  ForRequested containerOp (Member db cid uid) →
    ForRequested containerOp (AtProbed db cid uid)

section

variable (henabled : srv.aclDbEnabled = true)
  (hcreds : srv.credsEnabled = false)

include henabled

theorem checkPerm_outcome_eq_ok {cid : Cid} {containerOp : Opcode}
    {uid : Uid} {db : AclDb} :
    (srv.checkPerm cid containerOp uid).outcome db = .ok () ↔
      ForRequested containerOp (AtProbed db cid uid) := by
  rw [Routine.outcome_eq_ok, checkPerm_eq_ok srv henabled]
  constructor
  · exact And.right
  · intro h
    have hok : srv.checkPerm cid containerOp uid db = .ok () db :=
      (checkPerm_eq_ok srv henabled).mpr ⟨rfl, h⟩
    exact ⟨(Routine.final_of_ok hok).symm, h⟩

include hcreds

theorem getCap_outcome_eq_ok {cid : Cid} {containerOp : Opcode} {cred : Cred}
    {db : AclDb} :
    (∃ cap, (srv.getCap cid containerOp cred).outcome db = .ok cap) ↔
      ForRequested containerOp (AtProbed db cid cred.uid) := by
  rw [← checkPerm_outcome_eq_ok srv henabled]
  simp only [Routine.outcome_eq_ok, getCap_eq_ok srv hcreds]
  constructor
  · rintro ⟨cap, hperm, -⟩
    rwa [Routine.final_of_ok hperm]
  · intro hperm
    have hok : srv.getCap cid containerOp cred db = .ok _ _ :=
      (getCap_eq_ok srv hcreds).mpr ⟨hperm, rfl⟩
    exact ⟨_, by rwa [Routine.final_of_ok hok], rfl⟩

end

/-- A decision at probed positions is the decision by membership exactly if
members of all requested lists stand at such positions. -/
theorem probed_iff_member {db : AclDb} {cid : Cid} {containerOp : Opcode}
    {uid : Uid} :
    (ForRequested containerOp (AtProbed db cid uid) ↔
        ForRequested containerOp (Member db cid uid)) ↔
      MembersProbed db cid containerOp uid :=
  ⟨Iff.mpr, fun h => ⟨ForRequested.imp fun _ => AtProbed.member, h⟩⟩

/-- In every state that requests lead to, `check_perm` decides by membership
of the user in the requested lists exactly if a member of all of them stands
at a probed position of each; and the same holds of `get_cap`. -/
theorem accessDecision_iff [DecidableEq Mac] (key : Key)
    (hmac : Key → List UInt8 → Mac) (q : Qsort Uid)
    (run : List (Request Mac)) (cid : Cid) (containerOp : Opcode)
    (cred : Cred) :
    let srv := Srvr.init true key hmac q
    let db := Run.exec srv.step AclDb.empty run
    let members := ForRequested containerOp (Member db cid cred.uid)
    (((srv.checkPerm cid containerOp cred.uid).outcome db = .ok () ↔
          members) ↔ MembersProbed db cid containerOp cred.uid) ∧
      (((∃ cap, (srv.getCap cid containerOp cred).outcome db = .ok cap) ↔
          members) ↔ MembersProbed db cid containerOp cred.uid) := by
  intro srv db members
  constructor
  · rw [checkPerm_outcome_eq_ok srv rfl]
    exact probed_iff_member
  · rw [getCap_outcome_eq_ok srv rfl rfl]
    exact probed_iff_member

/-- The owner of a container puts a second user on a list, and is refused
from then on: the owner has come to stand at position 0 of two. -/
theorem checkPerm_refuses_member :
    let owner : Uid := Octets.fill uuidSize 1
    let other : Uid := Octets.fill uuidSize 2
    let cred : Cred := ⟨owner, Octets.fill 20 0⟩
    let srv : Srvr Unit (List UInt8) :=
      Srvr.init true () (fun _ bytes => bytes) (Qsort.insertion Uid)
    let cap := generateCap srv.hmac () ⟨5, Srvr.ownerOps, cred⟩
    let db := Run.exec srv.step AclDb.empty
      [.createContainer 5 ⟨⟨0, 0, cred⟩, []⟩,
        .modAcl 5 containerRead (some [other]) none cap]
    db.acl? 5 containerRead = some [owner, other] ∧
      ForRequested containerRead (Member db 5 owner) ∧
      (srv.checkPerm 5 containerRead owner).outcome db ≠ .ok () := by
  refine ⟨rfl, ?_, ?_⟩
  · have hread : ForRequested containerRead (· = containerRead) := by decide
    intro testop hop hne hreq
    exact ⟨_, by rw [hread testop hop hne hreq]; rfl, List.mem_cons_self⟩
  · have hne : (Except.error (.code .errAccess) : Except Fault Unit) ≠
        .ok () := by simp
    exact ne_of_eq_of_ne rfl hne

end Lwfs.Authr
