import Lwfs.Authr.AclRuns

/-!
Which lists a request can touch.

A key shows the low 32 bits of the container id, as a signed number, and the
operation. So a request leaves alone the lists of all containers whose ids
have other low bits, whatever else it does. A key of at most 15 characters is
put where it is looked for. A longer one is not: that of a container whose id
prints with ten digits and a sign.
-/

namespace Lwfs.Authr

open SysLib Routine

/-- The operation codes under which the server keeps lists. -/
def usedOps : List Opcode := opExists :: containerOps

/-- The id prints in ten characters or fewer. -/
def Short (cid : Cid) : Prop := -1000000000 < cid.toUInt32.toInt32.toInt

theorem forall_containerOps {P : Opcode → Prop} :
    (∀ op ∈ containerOps, P op) ↔ P 1 ∧ P 2 ∧ P 4 ∧ P 8 ∧ P 16 ∧ P 32 := by
  simp [containerOps]

/-! ### Keys -/

theorem length_formatPadded_le_ten (n : Int32) :
    (formatPadded 8 n.toInt).length ≤ 10 ↔ -1000000000 < n.toInt := by
  have hlt := n.toInt_lt
  have hle := n.le_toInt
  rw [length_formatPadded]
  by_cases hneg : n.toInt < 0
  · have hdigits : (Nat.toDigits 10 n.toInt.natAbs).length ≤ 9 ↔
        n.toInt.natAbs < 10 ^ 9 :=
      Nat.length_toDigits_le_iff (by decide) (by decide)
    rw [if_pos hneg]
    omega
  · have hdigits : (Nat.toDigits 10 n.toInt.natAbs).length ≤ 10 ↔
        n.toInt.natAbs < 10 ^ 10 :=
      Nat.length_toDigits_le_iff (by decide) (by decide)
    rw [if_neg hneg]
    omega

/-- The operations that are used print in four characters. -/
theorem length_getKey {op : Opcode} (hop : op ∈ usedOps) (cid : Cid) :
    (getKey cid op).length =
      (formatPadded 8 cid.toUInt32.toInt32.toInt).length + 5 := by
  have hlen : ∀ op ∈ usedOps, (formatPadded 4 op.toInt32.toInt).length = 4 :=
    List.forall_mem_cons.mpr ⟨by decide, forall_containerOps.mpr
      ⟨by decide, by decide, by decide, by decide, by decide, by decide⟩⟩
  rw [getKey_eq_fullKey, fullKey, List.length_append, List.length_cons,
    hlen op hop]

theorem putKey_eq_getKey {op : Opcode} (hop : op ∈ usedOps) {cid : Cid} :
    putKey cid op = getKey cid op ↔ Short cid := by
  rw [Short, ← length_formatPadded_le_ten, putKey_eq_take,
    List.take_eq_self_iff, length_getKey hop]
  omega

/-- A key that has been cut still shows the whole id. -/
theorem putKey_eq_append (d : Cid) (op : Opcode) :
    putKey d op = formatPadded 8 d.toUInt32.toInt32.toInt ++ ':' ::
      (formatPadded 4 op.toInt32.toInt).take
        (14 - (formatPadded 8 d.toUInt32.toInt32.toInt).length) := by
  have hlen := length_formatPadded_int32 8 (by decide) d.toUInt32.toInt32
  rw [putKey_eq_take, getKey_eq_fullKey, fullKey, List.take_append,
    List.take_of_length_le (by omega)]
  obtain ⟨k, hk⟩ : ∃ k, 15 -
      (formatPadded 8 d.toUInt32.toInt32.toInt).length = k + 1 :=
    ⟨14 - (formatPadded 8 d.toUInt32.toInt32.toInt).length, by omega⟩
  rw [hk, List.take_succ_cons]
  congr 3
  omega

/-- Even a key that has been cut shows the low bits of the container id. -/
theorem low_eq_of_putKey {c d : Cid} {op op' : Opcode}
    (h : putKey d op = getKey c op') : d.toUInt32 = c.toUInt32 := by
  rw [putKey_eq_append, getKey_eq_fullKey, fullKey] at h
  have hnot : ':' ∉ (formatPadded 4 op.toInt32.toInt).take
      (14 - (formatPadded 8 d.toUInt32.toInt32.toInt).length) := fun hmem =>
    colon_notMem_formatPadded _ _ (List.mem_of_mem_take hmem)
  obtain ⟨hcid, -, -⟩ := (List.append_cons_inj_of_notMem
    (colon_notMem_formatPadded _ _) hnot).mp h
  rw [formatPadded_inj, Int32.toInt_inj] at hcid
  exact congrArg Int32.toUInt32 hcid

/-- A list that is put under a key by which it is found is that of the same
operation. -/
theorem op_eq_of_putKey {c d : Cid} {op op' : Opcode} (hop : op ∈ usedOps)
    (hop' : op' ∈ usedOps) (h : putKey c op = getKey d op') : op = op' := by
  have hlow := low_eq_of_putKey h
  have hlen := length_putKey_le c op
  have hlong := length_getKey hop' d
  rw [h] at hlen
  have hshort : Short c := by
    rw [Short, ← length_formatPadded_le_ten, hlow]
    omega
  rw [(putKey_eq_getKey hop).mpr hshort] at h
  exact (getKey_inj.mp h).2

/-! ### Elsewhere nothing changes -/

/-- The lists of the containers whose ids have other low bits than `low` are
the same. -/
def Elsewhere (low : UInt32) (db db' : AclDb) : Prop :=
  ∀ c op, c.toUInt32 ≠ low → db'.acl? c op = db.acl? c op

instance (low : UInt32) : Std.Refl (Elsewhere low) := ⟨fun _ _ _ _ => rfl⟩

instance (low : UInt32) : IsTrans AclDb (Elsewhere low) :=
  ⟨fun _ _ _ hst htu c op hc => (htu c op hc).trans (hst c op hc)⟩

/-- The lists that are there stay. -/
def Grows (db db' : AclDb) : Prop :=
  ∀ key acl, db.acls.lookup key = some acl → db'.acls.lookup key = some acl

instance : Std.Refl Grows := ⟨fun _ _ _ h => h⟩

instance : IsTrans AclDb Grows :=
  ⟨fun _ _ _ hst htu key acl h => htu key acl (hst key acl h)⟩

/-- What a routine leaves that puts one list at most. -/
theorem final_authrDbPutAcl (cid : Cid) (op : Opcode) (acl : List Uid)
    (db : AclDb) :
    (authrDbPutAcl cid op acl).final db = db ∨
      putKey cid op ∉ db.acls ∧ (authrDbPutAcl cid op acl).final db =
        db.putAcl (putKey cid op) acl := by
  by_cases hkey : putKey cid op ∈ db.acls
  · left
    have hrun : authrDbPutAcl cid op acl db = .error (.code .errExist) db := by
      rw [authrDbPutAcl, get_bind, if_pos hkey]
      rfl
    exact final_of_error hrun
  · right
    have hrun : authrDbPutAcl cid op acl db =
        .ok () (db.putAcl (putKey cid op) acl) :=
      authrDbPutAcl_eq_ok.mpr ⟨hkey, rfl⟩
    exact ⟨hkey, final_of_ok hrun⟩

theorem authrDbPutAcl_elsewhere (cid : Cid) (op : Opcode) (acl : List Uid) :
    Within (Elsewhere cid.toUInt32) (authrDbPutAcl cid op acl) := by
  intro db
  obtain h | ⟨-, h⟩ := final_authrDbPutAcl cid op acl db
  · rw [h]
    exact Std.Refl.refl db
  · rw [h]
    intro c op' hc
    apply acl?_putAcl_of_ne
    intro heq
    exact hc (low_eq_of_putKey heq.symm).symm

theorem authrDbPutAcl_grows (cid : Cid) (op : Opcode) (acl : List Uid) :
    Within Grows (authrDbPutAcl cid op acl) := by
  intro db
  obtain h | ⟨hkey, h⟩ := final_authrDbPutAcl cid op acl db
  · rw [h]
    exact Std.Refl.refl db
  · rw [h]
    intro key acl' hacl
    have hne : key ≠ putKey cid op := by
      rintro rfl
      exact hkey (AList.lookup_isSome.mp (by rw [hacl]; rfl))
    rw [putAcl_acls, AList.lookup_insert_ne hne, hacl]

theorem authrDbDelAcl_elsewhere (cid : Cid) (op : Opcode) :
    Within (Elsewhere cid.toUInt32) (authrDbDelAcl cid op) := by
  intro db c op' hc
  have hne : getKey c op' ≠ getKey cid op := fun heq =>
    hc (getKey_inj.mp heq).1
  by_cases hkey : getKey cid op ∈ db.acls
  · have hrun : authrDbDelAcl cid op db = .ok () (db.delAcl (getKey cid op)) :=
      authrDbDelAcl_eq_ok.mpr ⟨hkey, rfl⟩
    rw [final_of_ok hrun]
    exact acl?_delAcl_of_ne db hne
  · have hrun : authrDbDelAcl cid op db = .error (.code .errNoent) db := by
      rw [authrDbDelAcl, get_bind, if_neg hkey]
      rfl
    rw [final_of_error hrun]

/-- The lists have not changed at all. -/
def SameAcls (db db' : AclDb) : Prop := db'.acls = db.acls

instance : Std.Refl SameAcls := ⟨fun _ => rfl⟩

instance : IsTrans AclDb SameAcls := ⟨fun _ _ _ hst htu => htu.trans hst⟩

/-- Drawing an id leaves all lists alone. -/
theorem createFreshCid_sameAcls (fuel : ℕ) :
    Within SameAcls (createFreshCid fuel) := by
  induction fuel with
  | zero => exact within_throw _
  | succ fuel ih =>
      have hdraw : Within SameAcls createCid := fun _ => rfl
      exact within_bind hdraw fun cid => within_bind within_get fun db =>
        within_ite (fun _ => ih) fun _ => within_pure cid

theorem SameAcls.elsewhere {db db' : AclDb} (h : SameAcls db db')
    (low : UInt32) : Elsewhere low db db' := by
  intro c op _
  rw [AclDb.acl?, AclDb.acl?, h]

theorem SameAcls.grows {db db' : AclDb} (h : SameAcls db db') :
    Grows db db' := by
  intro key acl hacl
  rw [h, hacl]

/-- The two ways in which a container comes by its id. -/
theorem authrDbCreateContainer_cases {cid c : Cid} {db db' : AclDb}
    (h : authrDbCreateContainer cid db = .ok c db') :
    (cid = cidAny ∧ createFreshCid (2 ^ 32) db = .ok c db') ∨
      (cid ≠ cidAny ∧ c = cid ∧ ¬ db.containerExists cid ∧
        putKey cid opExists ∉ db.acls ∧
        db' = db.putAcl (putKey cid opExists) []) := by
  rw [authrDbCreateContainer, get_bind] at h
  by_cases hany : cid = cidAny
  · rw [if_pos hany] at h
    exact .inl ⟨hany, h⟩
  · rw [if_neg hany] at h
    by_cases hexists : db.containerExists cid
    · rw [if_pos hexists] at h
      cases h
    · rw [if_neg hexists, bind_eq_ok] at h
      obtain ⟨_, _, hput, hret⟩ := h
      obtain ⟨rfl, rfl⟩ := pure_eq_ok.mp hret
      obtain ⟨hkey, hdb⟩ := authrDbPutAcl_eq_ok.mp hput
      exact .inr ⟨hany, rfl, hexists, hkey, hdb⟩

section Requests

variable {Key Mac : Type} (srv : Srvr Key Mac)

theorem createAcls_elsewhere (cid : Cid) (uid : Uid) :
    Within (Elsewhere cid.toUInt32) (srv.createAcls cid uid) := by
  refine within_ite (fun _ => within_forM (fun testop => ?_) _)
    fun _ => within_pure _
  exact within_ite (fun _ => authrDbPutAcl_elsewhere cid testop _)
    fun _ => authrDbPutAcl_elsewhere cid testop _

theorem createAcls_grows (cid : Cid) (uid : Uid) :
    Within Grows (srv.createAcls cid uid) := by
  refine within_ite (fun _ => within_forM (fun testop => ?_) _)
    fun _ => within_pure _
  exact within_ite (fun _ => authrDbPutAcl_grows cid testop _)
    fun _ => authrDbPutAcl_grows cid testop _

theorem authrDbCreateContainer_grows (cid : Cid) :
    Within Grows (authrDbCreateContainer cid) :=
  within_bind within_get fun _ =>
    within_ite (fun _ db => (createFreshCid_sameAcls _ db).grows) fun _ =>
      within_ite (fun _ => within_throw _) fun _ =>
        within_bind (authrDbPutAcl_grows cid opExists []) fun _ =>
          within_pure cid

/-- No list is lost or replaced when a container is made. -/
theorem createContainer_grows (cid : Cid) (cap : Cap Mac) :
    Within Grows (srv.createContainer cid cap) :=
  within_bind (authrDbCreateContainer_grows cid) fun cid' =>
    within_bind (createAcls_grows srv cid' _) fun _ => within_pure _

theorem authrDbRemoveContainer_elsewhere (cid : Cid) :
    Within (Elsewhere cid.toUInt32) (authrDbRemoveContainer cid) :=
  within_bind within_get fun _ =>
    within_ite
      (fun _ => within_bind (authrDbDelAcl_elsewhere cid opExists) fun _ =>
        within_bind within_get fun _ =>
          within_ite (fun _ => within_throw _) fun _ => within_pure _)
      fun _ => within_throw _

theorem modAclOp_elsewhere (cid : Cid) (containerOp : Opcode)
    (set unset : Option (List Uid)) (testop : Opcode) :
    Within (Elsewhere cid.toUInt32)
      (srv.modAclOp cid containerOp set unset testop) :=
  within_ite
    (fun _ => within_bind (authrDbGetAcl_within cid testop) fun _ =>
      within_bind (authrDbDelAcl_elsewhere cid testop) fun _ =>
        within_bind (authrDbPutAcl_elsewhere cid testop _) fun _ =>
          within_pure _)
    fun _ => within_pure unset

variable [DecidableEq Mac]

theorem removeContainer_elsewhere (cid : Cid) (cap : Cap Mac) :
    Within (Elsewhere cid.toUInt32) (srv.removeContainer cid cap) := by
  refine within_bind (checkAuthorization_within srv _ _ _) fun _ =>
    within_bind (within_forM (fun testop => ?_) _) fun _ =>
      authrDbRemoveContainer_elsewhere cid
  exact within_tryCatch (authrDbDelAcl_elsewhere cid testop) fun e =>
    within_ite (fun _ => within_pure _) fun _ => within_throw e

theorem modAcl_elsewhere (cid : Cid) (containerOp : Opcode)
    (set unset : Option (List Uid)) (cap : Cap Mac) :
    Within (Elsewhere cid.toUInt32)
      (srv.modAcl cid containerOp set unset cap) :=
  within_bind (checkAuthorization_within srv _ _ _) fun _ =>
    within_ite
      (fun _ => within_bind (within_foldlM
        (fun unset testop => modAclOp_elsewhere srv cid containerOp set unset
          testop) _ _) fun _ => within_pure _)
      fun _ => within_pure _

/-- The container that a request makes, modifies or removes. Where the server
is to choose the id, it is the one that it draws. -/
def Request.container (db : AclDb) : Request Mac → Option Cid
  | .createContainer cid _ =>
      if cid = cidAny then
        ((authrDbCreateContainer cid).outcome db).toOption
      else some cid
  | .removeContainer cid _ => some cid
  | .modAcl cid _ _ _ _ => some cid
  | .getAcl _ _ _ => none
  | .getCap _ _ _ => none
  | .verifyCaps _ => none

omit [DecidableEq Mac] in
/-- The lists of the containers whose ids have other low bits than that of the
new container stay. -/
theorem createContainer_elsewhere {db : AclDb} {cid c : Cid} {cap : Cap Mac}
    (h : (Request.createContainer cid cap).container db = some c) :
    Elsewhere c.toUInt32 db ((srv.createContainer cid cap).final db) := by
  have hdraw : Elsewhere c.toUInt32 db
      ((authrDbCreateContainer cid).final db) := by
    simp only [Request.container] at h
    by_cases hany : cid = cidAny
    · have hsame : Within SameAcls (authrDbCreateContainer cid) :=
        within_bind within_get fun _ =>
          within_ite (fun _ => createFreshCid_sameAcls _) fun hne =>
            absurd hany hne
      exact (hsame db).elsewhere _
    · rw [if_neg hany, Option.some.injEq] at h
      subst h
      have hput : Within (Elsewhere cid.toUInt32)
          (authrDbCreateContainer cid) :=
        within_bind within_get fun _ =>
          within_ite (fun heq => absurd heq hany) fun _ =>
            within_ite (fun _ => within_throw _) fun _ =>
              within_bind (authrDbPutAcl_elsewhere cid opExists []) fun _ =>
                within_pure cid
      exact hput db
  cases hrun : authrDbCreateContainer cid db with
  | error e db' =>
      rw [final_of_error hrun] at hdraw
      have hfail : srv.createContainer cid cap db = .error e db' :=
        bind_of_error hrun
      rw [final_of_error hfail]
      exact hdraw
  | ok c' db' =>
      rw [final_of_ok hrun] at hdraw
      have hc : c' = c := by
        simp only [Request.container] at h
        obtain ⟨hany, -⟩ | ⟨hany, rfl, -⟩ := authrDbCreateContainer_cases hrun
        · rw [if_pos hany, outcome_of_ok hrun] at h
          exact Option.some.inj h
        · rw [if_neg hany] at h
          exact Option.some.inj h
      subst hc
      have hrest : Within (Elsewhere c'.toUInt32) (do
          srv.createAcls c' cap.data.cred.uid
          pure (generateCap srv.hmac srv.authrSvcKey
            { cid := c', containerOp := Srvr.ownerOps, cred := cap.data.cred })) :=
        within_bind (createAcls_elsewhere srv c' _) fun _ => within_pure _
      have hfin : (srv.createContainer cid cap).final db = final (do
          srv.createAcls c' cap.data.cred.uid
          pure (generateCap srv.hmac srv.authrSvcKey
            { cid := c', containerOp := Srvr.ownerOps, cred := cap.data.cred })) db' := by
        simp only [final, Srvr.createContainer, bind_of_ok hrun]
      rw [hfin]
      exact IsTrans.trans _ _ _ hdraw (hrest db')

/-- A request leaves the lists of all containers alone whose ids have other low
bits than that of its own. -/
theorem step_elsewhere {db : AclDb} {req : Request Mac} {c : Cid}
    (h : req.container db = some c) :
    Elsewhere c.toUInt32 db (srv.step db req) := by
  cases req with
  | createContainer cid cap => exact createContainer_elsewhere srv h
  | removeContainer cid cap =>
      obtain rfl := Option.some.inj h
      exact removeContainer_elsewhere srv cid cap db
  | modAcl cid containerOp set unset cap =>
      obtain rfl := Option.some.inj h
      exact modAcl_elsewhere srv cid containerOp set unset cap db
  | getAcl cid containerOp cap => cases h
  | getCap cid containerOp cred => cases h
  | verifyCaps caps => cases h

/-! ### Isolation -/

/-- What the keys of two containers promise: a list is put under the key it is
looked for and deleted under, the lists of different operations and of the two
containers have different keys, and so nothing that is done to the one shows
in the lists of the other. -/
structure Isolated (srv : Srvr Key Mac) (c d : Cid) : Prop where
  put_eq_get : ∀ op ∈ usedOps, putKey c op = getKey c op
  get_ne : ∀ op ∈ usedOps, ∀ op' ∈ usedOps, (c, op) ≠ (d, op') →
    getKey c op ≠ getKey d op'
  frame : c ≠ d → ∀ db, srv.Reachable db → ∀ req : Request Mac,
    req.container db = some c → ∀ op,
      (authrDbGetAcl d op).outcome (srv.step db req) =
        (authrDbGetAcl d op).outcome db
  found : ∀ db, srv.Reachable db → ∀ op ∈ usedOps, ∀ acl db',
    authrDbPutAcl c op acl db = .ok () db' →
      authrDbGetAcl c op db' = .ok acl db' ∧
        (authrDbDelAcl c op).outcome db' = .ok ()

theorem outcome_authrDbGetAcl {db db' : AclDb} {c : Cid} {op : Opcode}
    (h : db'.acl? c op = db.acl? c op) :
    (authrDbGetAcl c op).outcome db' = (authrDbGetAcl c op).outcome db := by
  simp only [authrDbGetAcl, reader, outcome, h]
  cases db.acl? c op <;> rfl

/-- Two containers are isolated exactly if the keys of the first are short,
and their ids differ in the low 32 bits if they differ at all. -/
theorem isolated_iff (srv : Srvr Key Mac) (c d : Cid) :
    Isolated srv c d ↔ Short c ∧ (c ≠ d → c.toUInt32 ≠ d.toUInt32) := by
  have hexists : opExists ∈ usedOps := List.mem_cons_self
  constructor
  · intro h
    refine ⟨(putKey_eq_getKey hexists).mp (h.put_eq_get _ hexists), ?_⟩
    intro hne hlow
    have hpair : (c, opExists) ≠ (d, opExists) := fun heq =>
      hne (congrArg Prod.fst heq)
    exact h.get_ne _ hexists _ hexists hpair (getKey_inj.mpr ⟨hlow, rfl⟩)
  · rintro ⟨hshort, hlow⟩
    exact {
      put_eq_get := fun op hop => (putKey_eq_getKey hop).mpr hshort
      get_ne := by
        intro op _ op' _ hpair heq
        obtain ⟨hc, rfl⟩ := getKey_inj.mp heq
        by_cases hcd : c = d
        · exact hpair (by rw [hcd])
        · exact hlow hcd hc
      frame := by
        intro hcd db _ req hreq op
        apply outcome_authrDbGetAcl
        exact step_elsewhere srv hreq d op (hlow hcd).symm
      found := by
        intro db _ op hop acl db' hput
        obtain ⟨hkey, rfl⟩ := authrDbPutAcl_eq_ok.mp hput
        rw [(putKey_eq_getKey hop).mpr hshort]
        have hget := acl?_putAcl_self db c op acl
        refine ⟨authrDbGetAcl_eq_ok.mpr ⟨hget, rfl⟩, ?_⟩
        have hdel : authrDbDelAcl c op (db.putAcl (getKey c op) acl) =
            .ok () ((db.putAcl (getKey c op) acl).delAcl (getKey c op)) :=
          authrDbDelAcl_eq_ok.mpr ⟨acl?_eq_some_mem hget, rfl⟩
        exact outcome_of_ok hdel }

end Requests

/-- Two ids that differ above the low 32 bits share all their keys. -/
theorem not_isolated :
    ¬ ∀ c d : Cid, Isolated (Srvr.init true () (fun _ bytes => bytes)
      (Qsort.insertion Uid) : Srvr Unit (List UInt8)) c d := by
  intro h
  exact (h 0x100000001 1).get_ne opExists (by decide) opExists (by decide)
    (by decide) (by decide)

end Lwfs.Authr
