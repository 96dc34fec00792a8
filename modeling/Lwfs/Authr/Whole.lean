import Lwfs.Authr.Lifecycle

/-!
A container has all its lists, or none.

Requests that come one after the other keep this, whatever becomes of them:
the first list that cannot be put keeps `create_container` from putting any,
`mod_acl` misses a list only where it misses them all, and `remove_container`
leaves none.
-/

namespace Lwfs.Authr

open SysLib Routine

/-- Of the six lists of the container, all are there or none. -/
def AllOrNone (db : AclDb) (cid : Cid) : Prop :=
  (∀ op ∈ containerOps, (db.acl? cid op).isSome) ∨
    ∀ op ∈ containerOps, db.acl? cid op = none

/-- Every key fits the buffer it is put from, and every container has all its
lists or none. -/
structure AclDb.Whole (db : AclDb) : Prop where
  holds : db.Holds fun _ => True
  allOrNone : ∀ cid, AllOrNone db cid

theorem whole_empty : AclDb.empty.Whole :=
  ⟨holds_empty _, fun _ => .inr fun _ _ => rfl⟩

/-! ### Keys -/

theorem getKey_congr {c d : Cid} (h : d.toUInt32 = c.toUInt32)
    (op : Opcode) : getKey d op = getKey c op :=
  getKey_inj.mpr ⟨h, rfl⟩

/-- A list whose key is too long to be put is never there. -/
theorem acl?_of_not_short {db : AclDb} (hdb : db.Holds fun _ => True)
    {c : Cid} (hshort : ¬ Short c) {op : Opcode} (hop : op ∈ usedOps) :
    db.acl? c op = none := by
  by_contra hsome
  obtain ⟨acl, hacl⟩ := Option.ne_none_iff_exists'.mp hsome
  exact hshort ((putKey_eq_getKey hop).mp
    (hdb.putKey_eq (acl?_eq_some_mem hacl)))

theorem AllOrNone.congr {db db' : AclDb} {c d : Cid}
    (hcd : ∀ op ∈ containerOps, db'.acl? d op = db.acl? c op)
    (h : AllOrNone db c) : AllOrNone db' d := by
  refine h.imp (fun hall op hop => ?_) fun hnone op hop => ?_
  · rw [hcd op hop]
    exact hall op hop
  · rw [hcd op hop]
    exact hnone op hop

/-- If only the lists of one container have changed, only those matter. -/
theorem AclDb.Whole.of_elsewhere {db db' : AclDb} (hdb : db.Whole) {c : Cid}
    (hholds : db'.Holds fun _ => True) (helse : Elsewhere c.toUInt32 db db')
    (hc : AllOrNone db' c) : db'.Whole := by
  refine ⟨hholds, fun d => ?_⟩
  by_cases hlow : d.toUInt32 = c.toUInt32
  · apply hc.congr
    intro op _
    rw [AclDb.acl?, getKey_congr hlow, AclDb.acl?]
  · exact (hdb.allOrNone d).congr fun op _ => helse d op hlow

/-! ### The lists, but not the records -/

/-- The lists of all containers are the same. Their records may differ. -/
def SameLists (db db' : AclDb) : Prop :=
  ∀ c, ∀ op ∈ containerOps, db'.acl? c op = db.acl? c op

instance : Std.Refl SameLists := ⟨fun _ _ _ _ => rfl⟩

instance : IsTrans AclDb SameLists :=
  ⟨fun _ _ _ hst htu c op hop => (htu c op hop).trans (hst c op hop)⟩

theorem SameAcls.sameLists {db db' : AclDb} (h : SameAcls db db') :
    SameLists db db' := by
  intro c op _
  rw [AclDb.acl?, AclDb.acl?, h]

theorem putExists_sameLists (cid : Cid) :
    Within SameLists (authrDbPutAcl cid opExists []) := by
  intro db
  obtain h | ⟨-, h⟩ := final_authrDbPutAcl cid opExists [] db
  · rw [h]
    exact Std.Refl.refl db
  · rw [h]
    intro c op hop
    apply acl?_putAcl_of_ne
    intro heq
    have hexists := op_eq_of_putKey List.mem_cons_self
      (mem_usedOps_of_containerOps hop) heq.symm
    exact opExists_notMem (hexists ▸ hop)

theorem authrDbCreateContainer_sameLists (cid : Cid) :
    Within SameLists (authrDbCreateContainer cid) :=
  within_bind within_get fun _ =>
    within_ite (fun _ db => (createFreshCid_sameAcls _ db).sameLists) fun _ =>
      within_ite (fun _ => within_throw _) fun _ =>
        within_bind (putExists_sameLists cid) fun _ => within_pure cid

theorem delExists_sameLists (cid : Cid) :
    Within SameLists (authrDbDelAcl cid opExists) := by
  intro db
  by_cases hkey : getKey cid opExists ∈ db.acls
  · have hrun : authrDbDelAcl cid opExists db =
        .ok () (db.delAcl (getKey cid opExists)) :=
      authrDbDelAcl_eq_ok.mpr ⟨hkey, rfl⟩
    rw [final_of_ok hrun]
    intro c op hop
    apply acl?_delAcl_of_ne
    intro heq
    exact opExists_notMem ((getKey_inj.mp heq).2 ▸ hop)
  · have hrun : authrDbDelAcl cid opExists db =
        .error (.code .errNoent) db := by
      rw [authrDbDelAcl, get_bind, if_neg hkey]
      rfl
    rw [final_of_error hrun]
    exact Std.Refl.refl db

theorem authrDbRemoveContainer_sameLists (cid : Cid) :
    Within SameLists (authrDbRemoveContainer cid) :=
  within_bind within_get fun _ =>
    within_ite
      (fun _ => within_bind (delExists_sameLists cid) fun _ =>
        within_bind within_get fun _ =>
          within_ite (fun _ => within_throw _) fun _ => within_pure _)
      fun _ => within_throw _

/-! ### The requests -/

section Requests

variable {Key Mac : Type} (srv : Srvr Key Mac)

theorem createAcls_keeps (c : Cid) (uid : Uid) :
    Within (Keeps (AclDb.Holds fun _ => True)) (srv.createAcls c uid) := by
  refine within_ite (fun _ => ?_) fun _ => within_pure _
  refine within_forM (fun op => ?_) _
  rw [createAcl_eq]
  exact authrDbPutAcl_keeps c op trivial

/-- The lists of a new container are all put, or the first is there
already. -/
theorem createAcls_allOrNone (c : Cid) (uid : Uid) {db : AclDb}
    (hdb : db.Holds fun _ => True) (h : AllOrNone db c) :
    AllOrNone ((srv.createAcls c uid).final db) c := by
  have hholds := createAcls_keeps srv c uid db hdb
  by_cases hshort : Short c
  · rw [Srvr.createAcls]
    split
    · rcases h with hall | hnone
      · have hput : containerOps.forM (Srvr.createAcl c uid) db =
            .error (.code .errExist) db := by
          obtain ⟨acl, hacl⟩ := Option.isSome_iff_exists.mp
            (hall 1 List.mem_cons_self)
          have hkey : putKey c 1 ∈ db.acls := by
            rw [(putKey_eq_getKey (by decide)).mpr hshort]
            exact acl?_eq_some_mem hacl
          have hfirst : Srvr.createAcl c uid 1 db =
              .error (.code .errExist) db := by
            rw [createAcl_eq, authrDbPutAcl, get_bind, if_pos hkey]
            rfl
          exact bind_of_error hfirst
        rw [final_of_error hput]
        exact .inl hall
      · obtain ⟨db', hput⟩ := createAcls_of_none hshort uid containerOps_nodup
          (fun op hop => mem_usedOps_of_containerOps hop) hnone
        rw [final_of_ok hput]
        left
        intro op hop
        have hkey : putKey c op = getKey c op :=
          (putKey_eq_getKey (mem_usedOps_of_containerOps hop)).mpr hshort
        rw [AclDb.acl?, ← hkey, lookup_of_createAcls hput op hop]
        rfl
    · exact h
  · exact .inr fun op hop =>
      acl?_of_not_short hholds hshort (mem_usedOps_of_containerOps hop)

theorem createContainer_whole (cid : Cid) (cap : Cap Mac) {db : AclDb}
    (hdb : db.Whole) : ((srv.createContainer cid cap).final db).Whole := by
  have hholds := authrDbCreateContainer_keeps (P := fun _ => True) trivial cid
    db hdb.holds
  have hsame := authrDbCreateContainer_sameLists cid db
  cases hrun : authrDbCreateContainer cid db with
  | error e mid =>
      have hfail : srv.createContainer cid cap db = .error e mid :=
        bind_of_error hrun
      rw [final_of_error hrun] at hholds hsame
      rw [final_of_error hfail]
      exact ⟨hholds, fun d => (hdb.allOrNone d).congr (hsame d)⟩
  | ok c mid =>
      rw [final_of_ok hrun] at hholds hsame
      have hmid : mid.Whole :=
        ⟨hholds, fun d => (hdb.allOrNone d).congr (hsame d)⟩
      have hfinal : (srv.createContainer cid cap).final db =
          (srv.createAcls c cap.data.cred.uid).final mid := by
        simp only [final, Srvr.createContainer, bind_of_ok hrun]
        exact final_bind_pure _ _
      rw [hfinal]
      exact hmid.of_elsewhere (createAcls_keeps srv c _ mid hmid.holds)
        (createAcls_elsewhere srv c _ mid)
        (createAcls_allOrNone srv c _ hmid.holds (hmid.allOrNone c))

variable [DecidableEq Mac]

theorem removeContainer_whole (cid : Cid) (cap : Cap Mac) {db : AclDb}
    (hdb : db.Whole) : ((srv.removeContainer cid cap).final db).Whole := by
  have hcheck := checkAuthorization_within (R := Eq) srv cid containerRemove cap
  cases hrun : srv.checkAuthorization cid containerRemove cap db with
  | error e mid =>
      obtain rfl : db = mid := within_of_error hcheck hrun
      have hfail : srv.removeContainer cid cap db = .error e db :=
        bind_of_error hrun
      rw [final_of_error hfail]
      exact hdb
  | ok u mid =>
      obtain rfl : db = mid := within_of_ok hcheck hrun
      apply hdb.of_elsewhere (removeContainer_keeps srv cid cap db hdb.holds)
        (removeContainer_elsewhere srv cid cap db)
      right
      intro op hop
      have hfinal : (srv.removeContainer cid cap).final db =
          (authrDbRemoveContainer cid).final (db.delAcls cid containerOps) := by
        simp only [final, Srvr.removeContainer, bind_of_ok hrun,
          bind_of_ok (removeAcls_eq cid containerOps db)]
      rw [hfinal, authrDbRemoveContainer_sameLists cid _ cid op hop,
        acl?_delAcls, if_pos hop]

omit [DecidableEq Mac] in
/-- The loop of `mod_acl` does not stop where all lists are there. -/
theorem modAclLoop_of_all (cid : Cid) (containerOp : Opcode)
    (set torm : Option (List Uid)) {ops : List Opcode}
    (hops : ∀ op ∈ ops, op ∈ containerOps) {db : AclDb} (hdb : db.Holds fun _ => True)
    (hall : ∀ op ∈ containerOps, (db.acl? cid op).isSome) :
    ∃ a db', ops.foldlM (srv.modAclOp cid containerOp set) torm db =
        .ok a db' ∧ db'.Holds (fun _ => True) ∧
      ∀ op ∈ containerOps, (db'.acl? cid op).isSome := by
  induction ops generalizing torm db with
  | nil => exact ⟨torm, db, rfl, hdb, hall⟩
  | cons op ops ih =>
      obtain ⟨hop, hops⟩ := List.forall_mem_cons.mp hops
      rw [List.foldlM_cons]
      obtain ⟨-, hrun⟩ | ⟨-, hnone, -⟩ | ⟨-, old, hold, hrun⟩ :=
        modAclOp_cases srv hdb cid containerOp op set torm
      · rw [bind_of_ok hrun]
        exact ih _ hops hdb hall
      · have hsome := hall op hop
        rw [hnone] at hsome
        cases hsome
      · rw [bind_of_ok hrun]
        apply ih _ hops (hdb.replaceAcl (acl?_eq_some_mem hold) trivial)
        intro op' hop'
        by_cases heq : op' = op
        · rw [heq, acl?_replaceAcl_self]
          rfl
        · have hkeys : getKey cid op' ≠ getKey cid op := fun hkey =>
            heq (getKey_inj.mp hkey).2
          rw [acl?_replaceAcl_of_ne db _ hkeys]
          exact hall op' hop'

omit [DecidableEq Mac] in
/-- Where none is there, it changes nothing. -/
theorem modAclLoop_of_none (cid : Cid) (containerOp : Opcode)
    (set torm : Option (List Uid)) {ops : List Opcode}
    (hops : ∀ op ∈ ops, op ∈ containerOps) {db : AclDb} (hdb : db.Holds fun _ => True)
    (hnone : ∀ op ∈ containerOps, db.acl? cid op = none) :
    (∃ e, ops.foldlM (srv.modAclOp cid containerOp set) torm db =
        .error e db) ∨
      ∃ a, ops.foldlM (srv.modAclOp cid containerOp set) torm db =
        .ok a db := by
  induction ops generalizing torm with
  | nil => exact .inr ⟨torm, rfl⟩
  | cons op ops ih =>
      obtain ⟨hop, hops⟩ := List.forall_mem_cons.mp hops
      rw [List.foldlM_cons]
      obtain ⟨-, hrun⟩ | ⟨-, -, hrun⟩ | ⟨-, old, hold, -⟩ :=
        modAclOp_cases srv hdb cid containerOp op set torm
      · rw [bind_of_ok hrun]
        exact ih _ hops
      · exact .inl ⟨_, bind_of_error hrun⟩
      · rw [hnone op hop] at hold
        cases hold

/-- A `mod_acl` request that fails has changed nothing. -/
theorem modAcl_whole (cid : Cid) (containerOp : Opcode)
    (set unset : Option (List Uid)) (cap : Cap Mac) {db : AclDb}
    (hdb : db.Whole) :
    (∃ e, srv.modAcl cid containerOp set unset cap db = .error e db) ∨
      ∃ db', srv.modAcl cid containerOp set unset cap db = .ok () db' ∧
        db'.Whole := by
  have hcheck := checkAuthorization_within (R := Eq) srv cid containerModacl cap
  cases hrun : srv.checkAuthorization cid containerModacl cap db with
  | error e mid =>
      obtain rfl : db = mid := within_of_error hcheck hrun
      exact .inl ⟨e, bind_of_error hrun⟩
  | ok u mid =>
      obtain rfl : db = mid := within_of_ok hcheck hrun
      have hafter : srv.modAcl cid containerOp set unset cap db =
          (if srv.aclDbEnabled then do
            let _ ← containerOps.foldlM (srv.modAclOp cid containerOp set) unset
            pure ()
          else pure () : DbRoutine Unit) db := bind_of_ok hrun
      by_cases henabled : srv.aclDbEnabled
      · rw [if_pos henabled] at hafter
        rcases hdb.allOrNone cid with hall | hnone
        · obtain ⟨a, db', hloop, hholds, hall'⟩ := modAclLoop_of_all srv cid
            containerOp set unset (fun op hop => hop) hdb.holds hall
          rw [bind_of_ok hloop] at hafter
          have helse := modAcl_elsewhere srv cid containerOp set unset cap db
          rw [final_of_ok hafter] at helse
          exact .inr ⟨db', hafter, hdb.of_elsewhere hholds helse (.inl hall')⟩
        · obtain ⟨e, hloop⟩ | ⟨a, hloop⟩ := modAclLoop_of_none srv cid
            containerOp set unset (fun op hop => hop) hdb.holds hnone
          · rw [bind_of_error hloop] at hafter
            exact .inl ⟨e, hafter⟩
          · rw [bind_of_ok hloop] at hafter
            exact .inr ⟨db, hafter, hdb⟩
      · rw [if_neg henabled] at hafter
        exact .inr ⟨db, hafter, hdb⟩

/-- After any requests, one after the other. -/
theorem step_whole (db : AclDb) (req : Request Mac) (hdb : db.Whole) :
    (srv.step db req).Whole := by
  cases req with
  | createContainer cid cap => exact createContainer_whole srv cid cap hdb
  | removeContainer cid cap => exact removeContainer_whole srv cid cap hdb
  | modAcl cid containerOp set unset cap =>
      obtain ⟨e, hrun⟩ | ⟨db', hrun, hdb'⟩ :=
        modAcl_whole srv cid containerOp set unset cap hdb
      · show ((srv.modAcl cid containerOp set unset cap).final db).Whole
        rw [final_of_error hrun]
        exact hdb
      · show ((srv.modAcl cid containerOp set unset cap).final db).Whole
        rw [final_of_ok hrun]
        exact hdb'
  | getAcl cid containerOp cap =>
      exact getAcl_within (R := Keeps AclDb.Whole) srv cid containerOp cap db hdb
  | getCap cid containerOp cred =>
      exact getCap_within (R := Keeps AclDb.Whole) srv cid containerOp cred db
        hdb
  | verifyCaps caps =>
      exact verifyCaps_within (R := Keeps AclDb.Whole) srv caps db hdb

theorem Srvr.Reachable.whole {srv : Srvr Key Mac} {db : AclDb}
    (h : srv.Reachable db) : db.Whole := by
  obtain ⟨run, rfl⟩ := h
  exact Run.exec_invariant_of_step (step_whole srv) whole_empty run

end Requests

end Lwfs.Authr
