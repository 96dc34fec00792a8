import Lwfs.Authr.AclAlgebra

/-!
Access-control lists along a run of requests.

One turn of the loop of `mod_acl` replaces one list (`modAclOp_cases`). The
turns of a request are about different operations, so they do not meet each
other's lists, but they share the `unset` array and wear it down. From the
turns follows what a whole request does, and from the requests what a run
does: `modAcl_setAlgebra_along`.
-/

namespace Lwfs.Authr

open SysLib

variable {Key Mac : Type} (srv : Srvr Key Mac)

/-- `Worn` for an array that may be missing from the request. -/
def WornOpt : Option (List Uid) → Option (List Uid) → Prop
  | none, none => True
  | some unset, some torm => Worn unset torm
  | _, _ => False

theorem wornOpt_refl (unset : Option (List Uid)) : WornOpt unset unset := by
  cases unset with
  | none => trivial
  | some unset => exact worn_refl unset

theorem WornOpt.modifyUids {unset torm : Option (List Uid)}
    (h : WornOpt unset torm) (q : Qsort Uid) (old : List Uid)
    (set : Option (List Uid)) :
    WornOpt unset (Srvr.modifyUids q old set torm).2 := by
  cases unset with
  | none =>
      cases torm with
      | none => trivial
      | some torm => exact h.elim
  | some unset =>
      cases torm with
      | none => exact h.elim
      | some torm => exact Worn.dedupUids q h

theorem WornOpt.setAlgebra {unset torm : Option (List Uid)}
    (h : WornOpt unset torm) (q : Qsort Uid) {old : List Uid}
    (hold : old.Nodup) {set : Option (List Uid)}
    (hexact : ModExact old set unset) :
    SetAlgebra old set unset (Srvr.modifyUids q old set torm).1 := by
  cases unset with
  | none =>
      cases torm with
      | none => exact modifyUids_setAlgebra_none q hold hexact
      | some torm => exact h.elim
  | some unset =>
      cases torm with
      | none => exact h.elim
      | some torm => exact modifyUids_setAlgebra q hold h hexact

/-! ### One turn -/

/-- The database after the list of one operation has been replaced. -/
def replaceAcl (db : AclDb) (cid : Cid) (testop : Opcode)
    (acl : List Uid) : AclDb :=
  (db.delAcl (getKey cid testop)).putAcl (getKey cid testop) acl

theorem acl?_replaceAcl_self (db : AclDb) (cid : Cid) (testop : Opcode)
    (acl : List Uid) :
    (replaceAcl db cid testop acl).acl? cid testop = some acl :=
  acl?_putAcl_self _ cid testop acl

theorem acl?_replaceAcl_of_ne (db : AclDb) {cid cid' : Cid}
    {testop opcode : Opcode} (acl : List Uid)
    (h : getKey cid' opcode ≠ getKey cid testop) :
    (replaceAcl db cid testop acl).acl? cid' opcode = db.acl? cid' opcode :=
  (acl?_putAcl_of_ne _ acl h).trans (acl?_delAcl_of_ne db h)

theorem AclDb.Holds.replaceAcl {P : List Uid → Prop} {db : AclDb}
    (h : db.Holds P) {cid : Cid} {testop : Opcode}
    (hmem : getKey cid testop ∈ db.acls) {acl : List Uid} (hacl : P acl) :
    (replaceAcl db cid testop acl).Holds P := by
  have hkey : (getKey cid testop).length ≤ 15 := by
    rw [← h.putKey_eq hmem]
    exact length_putKey_le cid testop
  exact (h.delAcl _).putAcl hkey hacl

section Turn

variable {P : List Uid → Prop} {db : AclDb} (hdb : db.Holds P) (cid : Cid)
  (containerOp testop : Opcode) (set torm : Option (List Uid))

include hdb

/-- What the turn of the loop of `mod_acl` for one operation can do. -/
theorem modAclOp_cases :
    (¬ requests containerOp testop ∧
        srv.modAclOp cid containerOp set torm testop db = .ok torm db) ∨
      (requests containerOp testop ∧ db.acl? cid testop = none ∧
        srv.modAclOp cid containerOp set torm testop db =
          .error (.code .errNoent) db) ∨
      (requests containerOp testop ∧ ∃ old, db.acl? cid testop = some old ∧
        srv.modAclOp cid containerOp set torm testop db =
          .ok (Srvr.modifyUids srv.qsort old set torm).2
            (replaceAcl db cid testop
              (Srvr.modifyUids srv.qsort old set torm).1)) := by
  unfold Srvr.modAclOp
  by_cases hreq : requests containerOp testop
  · right
    rw [if_pos hreq]
    cases hacl : db.acl? cid testop with
    | none =>
        left
        refine ⟨hreq, rfl, ?_⟩
        apply Routine.bind_of_error
        simp [authrDbGetAcl, hacl]
    | some old =>
        right
        refine ⟨hreq, old, rfl, ?_⟩
        have hmem := acl?_eq_some_mem hacl
        have hget : authrDbGetAcl cid testop db = .ok old db :=
          authrDbGetAcl_eq_ok.mpr ⟨hacl, rfl⟩
        have hdel : authrDbDelAcl cid testop db =
            .ok () (db.delAcl (getKey cid testop)) :=
          authrDbDelAcl_eq_ok.mpr ⟨hmem, rfl⟩
        have hput : ∀ acl, authrDbPutAcl cid testop acl
            (db.delAcl (getKey cid testop)) =
              .ok () (replaceAcl db cid testop acl) := by
          intro acl
          rw [authrDbPutAcl_eq_ok, hdb.putKey_eq hmem]
          exact ⟨by simp, rfl⟩
        rw [Routine.bind_of_ok hget]
        simp only
        rw [Routine.bind_of_ok hdel, Routine.bind_of_ok (hput _)]
        rfl
  · left
    rw [if_neg hreq]
    exact ⟨hreq, rfl⟩

end Turn

/-! ### All turns of a request -/

/-- The stored lists of the requested operations are such that the request
modifies them exactly. A missing list ends the loop, so those after it do not
matter. -/
def ModAclExact (db : AclDb) (cid : Cid) (containerOp : Opcode)
    (set unset : Option (List Uid)) : List Opcode → Prop
  | [] => True
  | testop :: ops =>
      if requests containerOp testop then
        match db.acl? cid testop with
        | none => True
        | some old => ModExact old set unset ∧
            ModAclExact db cid containerOp set unset ops
      else ModAclExact db cid containerOp set unset ops

instance modAclExact_decidable (db : AclDb) (cid : Cid)
    (containerOp : Opcode) (set unset : Option (List Uid)) :
    (ops : List Opcode) →
      Decidable (ModAclExact db cid containerOp set unset ops)
  | [] => .isTrue trivial
  | testop :: ops => by
      have := modAclExact_decidable db cid containerOp set unset ops
      unfold ModAclExact
      split
      · split <;> infer_instance
      · exact this

/-- Each requested list has become what the set algebra says. -/
def ModAclDone (db db' : AclDb) (cid : Cid) (containerOp : Opcode)
    (set unset : Option (List Uid)) (ops : List Opcode) : Prop :=
  ∀ testop ∈ ops, requests containerOp testop →
    ∃ old new, db.acl? cid testop = some old ∧
      db'.acl? cid testop = some new ∧ SetAlgebra old set unset new

/-- The pairs that a request does not name keep their lists. A container
whose id agrees with `cid` in the low 32 bits is named along with it. -/
def ModAclFrame (db db' : AclDb) (cid : Cid) (containerOp : Opcode)
    (ops : List Opcode) : Prop :=
  ∀ cid' opcode, ¬ (cid'.toUInt32 = cid.toUInt32 ∧ opcode ∈ ops ∧
      requests containerOp opcode) →
    db'.acl? cid' opcode = db.acl? cid' opcode

section Loop

variable {cid : Cid} {containerOp : Opcode} {set unset : Option (List Uid)}

theorem modAclExact_cons_of_not {db : AclDb} {testop : Opcode}
    {ops : List Opcode} (hreq : ¬ requests containerOp testop) :
    ModAclExact db cid containerOp set unset (testop :: ops) ↔
      ModAclExact db cid containerOp set unset ops := by
  rw [ModAclExact, if_neg hreq]

theorem modAclExact_cons_of_some {db : AclDb} {testop : Opcode}
    {ops : List Opcode} (hreq : requests containerOp testop) {old : List Uid}
    (hold : db.acl? cid testop = some old) :
    ModAclExact db cid containerOp set unset (testop :: ops) ↔
      ModExact old set unset ∧
        ModAclExact db cid containerOp set unset ops := by
  rw [ModAclExact, if_pos hreq, hold]

/-- The condition only looks at the lists of the operations it is about. -/
theorem modAclExact_congr {db db' : AclDb} {ops : List Opcode}
    (h : ∀ op ∈ ops, db'.acl? cid op = db.acl? cid op) :
    ModAclExact db' cid containerOp set unset ops ↔
      ModAclExact db cid containerOp set unset ops := by
  induction ops with
  | nil => exact Iff.rfl
  | cons testop ops ih =>
      obtain ⟨hop, hops⟩ := List.forall_mem_cons.mp h
      simp only [ModAclExact, hop, ih hops]

theorem modAclFrame_refl (db : AclDb) (ops : List Opcode) :
    ModAclFrame db db cid containerOp ops :=
  fun _ _ _ => rfl

theorem modAclFrame_replaceAcl (db : AclDb) {testop : Opcode}
    {ops : List Opcode} (hop : testop ∈ ops)
    (hreq : requests containerOp testop) (acl : List Uid) :
    ModAclFrame db (replaceAcl db cid testop acl) cid containerOp ops := by
  intro cid' opcode hnot
  apply acl?_replaceAcl_of_ne
  rw [ne_eq, getKey_inj]
  rintro ⟨hcid, rfl⟩
  exact hnot ⟨hcid, hop, hreq⟩

theorem ModAclFrame.trans {db db' db'' : AclDb} {ops : List Opcode}
    (h : ModAclFrame db db' cid containerOp ops)
    (h' : ModAclFrame db' db'' cid containerOp ops) :
    ModAclFrame db db'' cid containerOp ops :=
  fun cid' opcode hnot => (h' cid' opcode hnot).trans (h cid' opcode hnot)

theorem ModAclFrame.mono {db db' : AclDb} {ops ops' : List Opcode}
    (h : ModAclFrame db db' cid containerOp ops) (hops : ops ⊆ ops') :
    ModAclFrame db db' cid containerOp ops' :=
  fun cid' opcode hnot => h cid' opcode
    fun ⟨hcid, hop, hreq⟩ => hnot ⟨hcid, hops hop, hreq⟩

/-- However the loop ends, it keeps the pairs that are not requested. -/
theorem modAclLoop_frame {P : List Uid → Prop} (hP : ∀ acl, P acl)
    (cid : Cid) (containerOp : Opcode) (set : Option (List Uid))
    (ops : List Opcode) (torm : Option (List Uid)) {db : AclDb}
    (hdb : db.Holds P) :
    let db' := Routine.final
      (ops.foldlM (srv.modAclOp cid containerOp set) torm) db
    db'.Holds P ∧ ModAclFrame db db' cid containerOp ops := by
  induction ops generalizing torm db with
  | nil => exact ⟨hdb, modAclFrame_refl db []⟩
  | cons testop ops ih =>
      intro db'
      rcases modAclOp_cases srv hdb cid containerOp testop set torm with
        ⟨-, h⟩ | ⟨-, -, h⟩ | ⟨hreq, old, hold, h⟩
      · have hfin : db' = Routine.final
            (ops.foldlM (srv.modAclOp cid containerOp set) torm) db := by
          simp only [db', List.foldlM_cons, Routine.final,
            Routine.bind_of_ok h]
        rw [hfin]
        exact (ih torm hdb).imp_right
          fun hframe => hframe.mono (List.subset_cons_self _ _)
      · have hfin : db' = db := by
          simp only [db', List.foldlM_cons, Routine.final,
            Routine.bind_of_error h]
        rw [hfin]
        exact ⟨hdb, modAclFrame_refl db _⟩
      · have hfin : db' = Routine.final
            (ops.foldlM (srv.modAclOp cid containerOp set)
              (Srvr.modifyUids srv.qsort old set torm).2)
            (replaceAcl db cid testop
              (Srvr.modifyUids srv.qsort old set torm).1) := by
          simp only [db', List.foldlM_cons, Routine.final,
            Routine.bind_of_ok h]
        rw [hfin]
        have hdb' := hdb.replaceAcl (acl?_eq_some_mem hold)
          (hP (Srvr.modifyUids srv.qsort old set torm).1)
        obtain ⟨hholds, hframe⟩ := ih _ hdb'
        refine ⟨hholds, ModAclFrame.trans ?_
          (hframe.mono (List.subset_cons_self _ _))⟩
        exact modAclFrame_replaceAcl db List.mem_cons_self hreq _

/-- On exact arrays the loop keeps every list free of duplicates, and if it
ends well it has done the set algebra for each requested operation. -/
theorem modAclLoop_exact {ops : List Opcode} (hops : ops.Nodup)
    {torm : Option (List Uid)} (hworn : WornOpt unset torm) {db : AclDb}
    (hdb : db.Holds List.Nodup)
    (hexact : ModAclExact db cid containerOp set unset ops) :
    let loop := ops.foldlM (srv.modAclOp cid containerOp set) torm
    (loop.final db).Holds List.Nodup ∧
      ∀ a db', loop db = .ok a db' →
        ModAclDone db db' cid containerOp set unset ops := by
  induction ops generalizing torm db with
  | nil =>
      exact ⟨hdb, fun _ _ _ testop hop => absurd hop List.not_mem_nil⟩
  | cons testop ops ih =>
      intro loop
      obtain ⟨hnotMem, hops⟩ := List.nodup_cons.mp hops
      -- The later turns are about other operations and so other keys.
      have hother : ∀ opcode ∈ ops, getKey cid opcode ≠ getKey cid testop :=
        fun opcode hop heq => hnotMem ((getKey_inj.mp heq).2 ▸ hop)
      rcases modAclOp_cases srv hdb cid containerOp testop set torm with
        ⟨hreq, h⟩ | ⟨-, -, h⟩ | ⟨hreq, old, hold, h⟩
      · have hloop : loop db =
            ops.foldlM (srv.modAclOp cid containerOp set) torm db := by
          simp only [loop, List.foldlM_cons, Routine.bind_of_ok h]
        obtain ⟨hholds, hdone⟩ := ih hops hworn hdb
          ((modAclExact_cons_of_not hreq).mp hexact)
        rw [Routine.final, hloop]
        refine ⟨hholds, fun a db' hok op hop hreq' => ?_⟩
        rcases List.mem_cons.mp hop with rfl | hop
        · exact absurd hreq' hreq
        · exact hdone a db' hok op hop hreq'
      · have hloop : loop db = .error (.code .errNoent) db := by
          simp only [loop, List.foldlM_cons, Routine.bind_of_error h]
        rw [Routine.final, hloop]
        exact ⟨hdb, fun _ _ hok => by cases hok⟩
      · have hloop : loop db =
            ops.foldlM (srv.modAclOp cid containerOp set)
              (Srvr.modifyUids srv.qsort old set torm).2
              (replaceAcl db cid testop
                (Srvr.modifyUids srv.qsort old set torm).1) := by
          simp only [loop, List.foldlM_cons, Routine.bind_of_ok h]
        obtain ⟨hexact, hrest⟩ := (modAclExact_cons_of_some hreq hold).mp
          hexact
        have hnew := hworn.setAlgebra srv.qsort (hdb.of_acl? hold) hexact
        generalize hmod : Srvr.modifyUids srv.qsort old set torm = res at *
        have hdb' := hdb.replaceAcl (acl?_eq_some_mem hold) hnew.1
        have hsame : ∀ op ∈ ops,
            (replaceAcl db cid testop res.1).acl? cid op = db.acl? cid op :=
          fun op hop => acl?_replaceAcl_of_ne db res.1 (hother op hop)
        obtain ⟨hholds, hdone⟩ := ih hops
          (hmod ▸ hworn.modifyUids srv.qsort old set) hdb'
          ((modAclExact_congr hsame).mpr hrest)
        have hframe := modAclLoop_frame srv (P := fun _ => True)
          (fun _ => trivial) cid containerOp set ops res.2
          (hdb'.mono fun _ _ => trivial)
        rw [Routine.final, hloop]
        refine ⟨hholds, fun a db' hok op hop hreq' => ?_⟩
        rw [Routine.final_of_ok hok] at hframe
        rcases List.mem_cons.mp hop with rfl | hop
        · refine ⟨old, res.1, hold, ?_, hnew⟩
          rw [hframe.2 cid op fun hin => hnotMem hin.2.1]
          exact acl?_replaceAcl_self db cid op res.1
        · obtain ⟨old', new, hold', hnew', halg⟩ := hdone a db' hok op hop hreq'
          exact ⟨old', new, hsame op hop ▸ hold', hnew', halg⟩

end Loop

/-! ### Requests and runs -/

variable [DecidableEq Mac]

section Request

variable (henabled : srv.aclDbEnabled = true) (cid : Cid)
  (containerOp : Opcode) (set unset : Option (List Uid)) (cap : Cap Mac)
  (db : AclDb)

include henabled

/-- A `mod_acl` request is refused and changes nothing, or it is the loop. -/
theorem modAcl_cases :
    (srv.authorizes db cid containerModacl cap = false ∧
        ∃ e, srv.modAcl cid containerOp set unset cap db = .error e db) ∨
      (srv.authorizes db cid containerModacl cap = true ∧
        srv.modAcl cid containerOp set unset cap db =
          (containerOps.foldlM (srv.modAclOp cid containerOp set) unset >>=
            fun _ => pure ()) db) := by
  have hauth := checkAuthorization_within (R := Eq) srv cid containerModacl
    cap
  unfold Srvr.modAcl
  cases h : srv.checkAuthorization cid containerModacl cap db with
  | error e db' =>
      left
      have hdb : db = db' := Routine.within_of_error hauth h
      subst hdb
      exact ⟨by rw [Srvr.authorizes, h], e, Routine.bind_of_error h⟩
  | ok u db' =>
      right
      have hdb : db = db' := Routine.within_of_ok hauth h
      subst hdb
      refine ⟨by rw [Srvr.authorizes, h], ?_⟩
      rw [Routine.bind_of_ok h, if_pos henabled]

/-- The database after the request, and the loop behind its success. -/
theorem modAcl_final :
    let loop := containerOps.foldlM (srv.modAclOp cid containerOp set) unset
    let modAcl := srv.modAcl cid containerOp set unset cap
    (modAcl.final db = db ∧ modAcl.outcome db ≠ .ok ()) ∨
      (srv.authorizes db cid containerModacl cap = true ∧
        modAcl.final db = loop.final db ∧
        (modAcl.outcome db = .ok () →
          ∃ a, loop db = .ok a (modAcl.final db))) := by
  intro loop modAcl
  rcases modAcl_cases srv henabled cid containerOp set unset cap db with
    ⟨-, e, h⟩ | ⟨hauth, h⟩
  · refine Or.inl ⟨Routine.final_of_error h, fun hok => ?_⟩
    rw [Routine.outcome_eq_ok] at hok
    exact absurd (h.symm.trans hok) (by simp)
  · have hfin : modAcl.final db = loop.final db := by
      simp only [modAcl, Routine.final, h, loop]
      cases hloop : containerOps.foldlM (srv.modAclOp cid containerOp set)
          unset db with
      | ok a db' => rw [Routine.bind_of_ok hloop]; rfl
      | error e db' => rw [Routine.bind_of_error hloop]
    refine Or.inr ⟨hauth, hfin, fun hok => ?_⟩
    rw [Routine.outcome_eq_ok] at hok
    obtain ⟨a, db', hloop, hpure⟩ := Routine.bind_eq_ok.mp (h.symm.trans hok)
    exact ⟨a, (Routine.pure_eq_ok.mp hpure).2 ▸ hloop⟩

end Request

/-- The arrays of a request are such that it modifies the lists exactly, if
it gets to modify any. Only `mod_acl` requests do. -/
def Srvr.Exact (srv : Srvr Key Mac) (db : AclDb) : Request Mac → Prop
  | .modAcl cid containerOp set unset cap =>
      srv.authorizes db cid containerModacl cap = true →
        ModAclExact db cid containerOp set unset containerOps
  | _ => True

instance (srv : Srvr Key Mac) (db : AclDb) :
    (req : Request Mac) → Decidable (srv.Exact db req)
  | .modAcl _ _ _ _ _ => inferInstanceAs (Decidable (_ → _))
  | .createContainer _ _ => .isTrue trivial
  | .removeContainer _ _ => .isTrue trivial
  | .getAcl _ _ _ => .isTrue trivial
  | .getCap _ _ _ => .isTrue trivial
  | .verifyCaps _ => .isTrue trivial

/-- If a request is a `mod_acl` request that succeeds, the requested lists
have become what the set algebra says and all others are what they were. -/
def Srvr.ModifiesLists (srv : Srvr Key Mac) (db : AclDb) :
    Request Mac → Prop
  | .modAcl cid containerOp set unset cap =>
      let modAcl := srv.modAcl cid containerOp set unset cap
      modAcl.outcome db = .ok () →
        ModAclDone db (modAcl.final db) cid containerOp set unset
            containerOps ∧
          ModAclFrame db (modAcl.final db) cid containerOp containerOps
  | _ => True

theorem containerOps_nodup : containerOps.Nodup := by decide

/-- Only `mod_acl` stores lists other than the empty one and those of a
single user. -/
theorem step_holds {P : List Uid → Prop} (hnil : P []) (hone : ∀ uid, P [uid])
    {db : AclDb} (hdb : db.Holds P) (req : Request Mac)
    (hmod : ∀ cid containerOp set unset cap,
      req = .modAcl cid containerOp set unset cap →
        ((srv.modAcl cid containerOp set unset cap).final db).Holds P) :
    (srv.step db req).Holds P := by
  cases req with
  | createContainer cid cap =>
      exact createContainer_keeps srv hnil hone cid cap db hdb
  | removeContainer cid cap => exact removeContainer_keeps srv cid cap db hdb
  | getAcl cid containerOp cap =>
      exact getAcl_within (R := Routine.Keeps (AclDb.Holds P)) srv cid containerOp cap db
        hdb
  | modAcl cid containerOp set unset cap => exact hmod _ _ _ _ _ rfl
  | getCap cid containerOp cred =>
      exact getCap_within (R := Routine.Keeps (AclDb.Holds P)) srv cid containerOp cred db
        hdb
  | verifyCaps caps =>
      exact verifyCaps_within (R := Routine.Keeps (AclDb.Holds P)) srv caps db
        hdb

/-- A request with exact arrays keeps every list free of duplicates. -/
theorem step_holds_nodup (henabled : srv.aclDbEnabled = true) {db : AclDb}
    (hdb : db.Holds List.Nodup) (req : Request Mac) (hexact : srv.Exact db req) :
    (srv.step db req).Holds List.Nodup := by
  apply step_holds srv List.nodup_nil List.nodup_singleton hdb
  rintro cid containerOp set unset cap rfl
  rcases modAcl_final srv henabled cid containerOp set unset cap db with
    ⟨hfin, -⟩ | ⟨hauth, hfin, -⟩
  · rwa [hfin]
  · rw [hfin]
    exact (modAclLoop_exact srv containerOps_nodup (wornOpt_refl unset) hdb
      (hexact hauth)).1

/-- A request with exact arrays modifies the lists as it should. -/
theorem modifiesLists_of_exact (henabled : srv.aclDbEnabled = true)
    {db : AclDb} (hdb : db.Holds List.Nodup) (req : Request Mac)
    (hexact : srv.Exact db req) : srv.ModifiesLists db req := by
  cases req with
  | modAcl cid containerOp set unset cap =>
      intro hok
      rcases modAcl_final srv henabled cid containerOp set unset cap db with
        ⟨-, hrefused⟩ | ⟨hauth, -, hloop⟩
      · exact absurd hok hrefused
      obtain ⟨a, hloop⟩ := hloop hok
      have hdone := (modAclLoop_exact srv containerOps_nodup
        (wornOpt_refl unset) hdb (hexact hauth)).2 a _ hloop
      have hframe := (modAclLoop_frame srv (P := fun _ => True)
        (fun _ => trivial) cid containerOp set containerOps unset
        (hdb.mono fun _ _ => trivial)).2
      rw [Routine.final_of_ok hloop] at hframe
      exact ⟨hdone, hframe⟩
  | _ => trivial

/-- In every run whose `mod_acl` requests all have exact arrays, each of them
that succeeds does the set algebra on the requested lists and leaves the
others alone; and no list ever names a user twice. -/
theorem modAcl_setAlgebra_along (key : Key) (hmac : Key → List UInt8 → Mac)
    (q : Qsort Uid) (run : List (Request Mac))
    (hrun : Run.Along (Srvr.init true key hmac q).step
      (Srvr.init true key hmac q).Exact AclDb.empty run) :
    let srv := Srvr.init true key hmac q
    Run.Along srv.step srv.ModifiesLists AclDb.empty run ∧
      (Run.exec srv.step AclDb.empty run).Holds List.Nodup := by
  intro srv
  have hstep : ∀ db req, db.Holds List.Nodup → srv.Exact db req →
      (srv.step db req).Holds List.Nodup :=
    fun db req hdb => step_holds_nodup srv rfl hdb req
  constructor
  · exact Run.along_of_invariant hstep
      (fun db req hdb => modifiesLists_of_exact srv rfl hdb req)
      (holds_empty _) hrun
  · exact Run.exec_invariant hstep (holds_empty _) hrun

/-- A second user is put on a list of one. -/
theorem modAcl_setAlgebra_along_second_user :
    let cred : Cred := ⟨Octets.fill uuidSize 1, Octets.fill 20 0⟩
    let srv : Srvr Unit (List UInt8) :=
      Srvr.init true () (fun _ bytes => bytes) (Qsort.insertion Uid)
    let cap := generateCap srv.hmac () ⟨5, Srvr.ownerOps, cred⟩
    let run := [.createContainer 5 ⟨⟨0, 0, cred⟩, []⟩,
      .modAcl 5 containerRead (some [Octets.fill uuidSize 2]) none cap]
    Run.Along srv.step srv.ModifiesLists AclDb.empty run ∧
      (Run.exec srv.step AclDb.empty run).Holds List.Nodup :=
  modAcl_setAlgebra_along () (fun _ bytes => bytes) (Qsort.insertion Uid) _
    (by decide)

/-- The owner of a container sets the members of a list to another user and
itself, and the list becomes that user and infinity. The list of another
container, whose id agrees in the low 32 bits, changes with it. -/
theorem modAcl_loses_owner :
    let owner : Uid := Octets.fill uuidSize 1
    let other : Uid := Octets.fill uuidSize 2
    let cred : Cred := ⟨owner, Octets.fill 20 0⟩
    let srv : Srvr Unit (List UInt8) :=
      Srvr.init true () (fun _ bytes => bytes) (Qsort.insertion Uid)
    let cap := generateCap srv.hmac () ⟨5, Srvr.ownerOps, cred⟩
    let db := Run.exec srv.step AclDb.empty
      [.createContainer 5 ⟨⟨0, 0, cred⟩, []⟩]
    let modAcl := srv.modAcl 5 containerRead (some [other, owner]) none cap
    modAcl.outcome db = .ok () ∧
      db.acl? 5 containerRead = some [owner] ∧
      (modAcl.final db).acl? 5 containerRead = some [other, infUid] ∧
      ¬ SetAlgebra [owner] (some [other, owner]) none [other, infUid] ∧
      db.acl? (0x100000005) containerRead = some [owner] ∧
      (modAcl.final db).acl? (0x100000005) containerRead =
        some [other, infUid] := by
  refine ⟨rfl, rfl, rfl, ?_, rfl, rfl⟩
  rw [setAlgebra_iff]
  rintro ⟨-, hmem⟩
  have howner := (hmem (Octets.fill uuidSize 1)).mpr (by decide)
  exact absurd howner (by decide)

end Lwfs.Authr
