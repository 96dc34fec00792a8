import Lwfs.Authr.Steps
import Lwfs.Authr.Whole
import Lwfs.Lib.Conflict
import Mathlib.Data.Fin.VecNotation

/-!
Lists that are modified at the same time.

A `mod_acl` request reads a list, deletes it and puts the new one, and nothing
keeps another request from coming in between. Two requests that do not do so
have the effect of one after the other; and a `check_perm` finds every list
that it looks for, unless it looks just when the list has been deleted and is
about to be put.
-/

namespace Lwfs.Authr

open SysLib Prog

/-! ### Which calls conflict -/

/-- What a call looks at: a list, or the counter. -/
def DbCall.place : DbCall → Option Keystr
  | get key => some key
  | put key _ => some key
  | del key => some key
  | getCid => none
  | putCid _ => none

def DbCall.IsGet : DbCall → Prop
  | get _ => True
  | _ => False

instance : DecidablePred DbCall.IsGet
  | .get _ => isTrue trivial
  | .put _ _ => isFalse id
  | .del _ => isFalse id
  | .getCid => isFalse id
  | .putCid _ => isFalse id

/-- What the database has in a place. -/
def AclDb.cell (db : AclDb) : Option Keystr → Option (Cid ⊕ List Uid)
  | none => db.counter.map .inl
  | some key => (db.acls.lookup key).map .inr

theorem exec_of_isGet {c : DbCall} (h : c.IsGet) (db : AclDb) :
    (c.exec false db).2 = db := by
  cases c with
  | get key => rfl
  | _ => exact h.elim

theorem cell_some_inj {db db' : AclDb} {key : Keystr} :
    db.cell (some key) = db'.cell (some key) ↔
      db.acls.lookup key = db'.acls.lookup key :=
  (Option.map_injective Sum.inr_injective).eq_iff

theorem cell_none_inj {db db' : AclDb} :
    db.cell none = db'.cell none ↔ db.counter = db'.counter :=
  (Option.map_injective Sum.inl_injective).eq_iff

theorem cell_putAcl (db : AclDb) (key : Keystr) (acl : List Uid) :
    (db.putAcl key acl).cell (some key) = some (.inr acl) := by
  rw [AclDb.cell, AclDb.putAcl, AList.lookup_insert]
  rfl

theorem cell_delAcl (db : AclDb) (key : Keystr) :
    (db.delAcl key).cell (some key) = none := by
  rw [AclDb.cell, AclDb.delAcl, AList.lookup_erase]
  rfl

theorem cell_putAcl_of_ne (db : AclDb) {key : Keystr} (acl : List Uid)
    {x : Option Keystr} (hx : x ≠ some key) :
    (db.putAcl key acl).cell x = db.cell x := by
  cases x with
  | none => rfl
  | some key' =>
      have hne : key' ≠ key := fun heq => hx (congrArg some heq)
      exact cell_some_inj.mpr (AList.lookup_insert_ne hne)

theorem cell_delAcl_of_ne (db : AclDb) {key : Keystr} {x : Option Keystr}
    (hx : x ≠ some key) : (db.delAcl key).cell x = db.cell x := by
  cases x with
  | none => rfl
  | some key' =>
      have hne : key' ≠ key := fun heq => hx (congrArg some heq)
      exact cell_some_inj.mpr (AList.lookup_erase_ne hne)

theorem mem_of_cell {db db' : AclDb} {key : Keystr}
    (h : db.cell (some key) = db'.cell (some key)) (hmem : key ∈ db.acls) :
    key ∈ db'.acls := by
  rw [← AList.lookup_isSome] at hmem ⊢
  rwa [← cell_some_inj.mp h]

/-- A call looks at its place only. -/
theorem local_exec : Local (DbCall.exec false) AclDb.cell DbCall.place where
  reply := by
    intro c db db' h
    cases c with
    | get key => exact cell_some_inj.mp h
    | put key acl =>
        by_cases hkey : key ∈ db.acls
        · rw [DbCall.exec_put_of_mem hkey,
            DbCall.exec_put_of_mem (mem_of_cell h hkey)]
        · rw [DbCall.exec_put_of_notMem hkey,
            DbCall.exec_put_of_notMem (mt (mem_of_cell h.symm) hkey)]
    | del key =>
        by_cases hkey : key ∈ db.acls
        · rw [DbCall.exec_del_of_mem hkey,
            DbCall.exec_del_of_mem (mem_of_cell h hkey)]
        · rw [DbCall.exec_del_of_notMem hkey,
            DbCall.exec_del_of_notMem (mt (mem_of_cell h.symm) hkey)]
    | getCid => exact cell_none_inj.mp h
    | putCid cid => rfl
  self := by
    intro c db db' h
    cases c with
    | get key => exact h
    | put key acl =>
        by_cases hkey : key ∈ db.acls
        · rw [DbCall.exec_put_of_mem hkey,
            DbCall.exec_put_of_mem (mem_of_cell h hkey)]
          exact h
        · rw [DbCall.exec_put_of_notMem hkey,
            DbCall.exec_put_of_notMem (mt (mem_of_cell h.symm) hkey)]
          exact (cell_putAcl db key acl).trans (cell_putAcl db' key acl).symm
    | del key =>
        by_cases hkey : key ∈ db.acls
        · rw [DbCall.exec_del_of_mem hkey,
            DbCall.exec_del_of_mem (mem_of_cell h hkey)]
          exact (cell_delAcl db key).trans (cell_delAcl db' key).symm
        · rw [DbCall.exec_del_of_notMem hkey,
            DbCall.exec_del_of_notMem (mt (mem_of_cell h.symm) hkey)]
          exact h
    | getCid => exact h
    | putCid cid => rfl
  other := by
    intro c db x hx
    cases c with
    | get key => rfl
    | put key acl =>
        by_cases hkey : key ∈ db.acls
        · rw [DbCall.exec_put_of_mem hkey]
        · rw [DbCall.exec_put_of_notMem hkey]
          exact cell_putAcl_of_ne db acl hx
    | del key =>
        by_cases hkey : key ∈ db.acls
        · rw [DbCall.exec_del_of_mem hkey]
          exact cell_delAcl_of_ne db hx
        · rw [DbCall.exec_del_of_notMem hkey]
    | getCid => rfl
    | putCid cid =>
        cases x with
        | none => exact absurd rfl hx
        | some key => rfl

/-! ### The requests -/

section Service

variable {Key Mac : Type} [DecidableEq Mac]

/-- A request that modifies or checks the lists of a container. -/
inductive AclCall (Mac : Type)
  | mod (containerOp : Opcode) (set unset : Option (List Uid)) (cap : Cap Mac)
  | check (containerOp : Opcode) (uid : Uid)

def AclCall.IsCheck (call : AclCall Mac) : Prop :=
  ∃ containerOp uid, call = .check containerOp uid

/-- The steps of a request. -/
def AclCall.prog (srv : Srvr Key Mac) (cid : Cid) : AclCall Mac → DbProg Unit
  | mod containerOp set unset cap =>
      Steps.modAcl srv cid containerOp set unset cap
  | check containerOp uid => Steps.checkPerm srv cid containerOp uid

/-- The request in one go. -/
def AclCall.routine (srv : Srvr Key Mac) (cid : Cid) :
    AclCall Mac → DbRoutine Unit
  | mod containerOp set unset cap => srv.modAcl cid containerOp set unset cap
  | check containerOp uid => srv.checkPerm cid containerOp uid

theorem alone_prog (srv : Srvr Key Mac) (cid : Cid) (call : AclCall Mac) :
    (call.prog srv cid).run (DbCall.exec false) = call.routine srv cid := by
  cases call with
  | mod containerOp set unset cap => exact Steps.alone_modAcl srv _ _ _ _ _
  | check containerOp uid => exact Steps.alone_checkPerm srv _ _ _

/-- A request that fails has changed nothing, where all lists of the container
are there or none. -/
theorem routine_whole (srv : Srvr Key Mac) (cid : Cid) (call : AclCall Mac)
    {db : AclDb} (hdb : db.Whole) :
    (∃ e, call.routine srv cid db = .error e db) ∨
      ∃ db', call.routine srv cid db = .ok () db' ∧ db'.Whole := by
  cases call with
  | mod containerOp set unset cap => exact modAcl_whole srv _ _ _ _ _ hdb
  | check containerOp uid =>
      have hcheck := checkPerm_within (R := Eq) srv cid containerOp uid
      show (∃ e, srv.checkPerm cid containerOp uid db = .error e db) ∨
        ∃ db', srv.checkPerm cid containerOp uid db = .ok () db' ∧ db'.Whole
      cases hrun : srv.checkPerm cid containerOp uid db with
      | error e db' =>
          obtain rfl : db = db' := Routine.within_of_error hcheck hrun
          exact .inl ⟨e, rfl⟩
      | ok u db' =>
          obtain rfl : db = db' := Routine.within_of_ok hcheck hrun
          exact .inr ⟨db, rfl, hdb⟩

variable {ι : Type} [DecidableEq ι]

abbrev AclService (ι : Type) := World ι AclDb DbCall DbCall.Reply Fault Unit

/-- The requests before their first steps. -/
def startAcls (srv : Srvr Key Mac) (db : AclDb) (cid : Cid)
    (calls : ι → AclCall Mac) : AclService ι :=
  World.start db fun k => (calls k).prog srv cid

/-- Their steps interleave as the schedule says. -/
def serveAcls (srv : Srvr Key Mac) (db : AclDb) (cid : Cid)
    (calls : ι → AclCall Mac) (schedule : List ι) : AclService ι :=
  Run.exec (World.step (DbCall.exec false)) (startAcls srv db cid calls)
    schedule

/-- The requests succeed one after the other, and lead from `db` to `db'`. -/
def SerialRun (run : ι → DbRoutine Unit) : AclDb → List ι → AclDb → Prop
  | db, [], db' => db = db'
  | db, k :: order, db' => ∃ mid, run k db = .ok () mid ∧
      SerialRun run mid order db'

/-- The database is as if the two requests, or those of them that have
succeeded, had been served one after the other. -/
def Serialized (srv : Srvr Key Mac) (db : AclDb) (cid : Cid)
    (calls : ι → AclCall Mac) (w : AclService ι) (i j : ι) : Prop :=
  ∃ order db', (order = [i, j] ∨ order = [j, i]) ∧
    SerialRun (fun k => (calls k).routine srv cid) db
      (order.filter fun k => (w.procs k).returned) db' ∧
    SameCells AclDb.cell w.store db'

/-- No check fails for want of a list that is there before and after. -/
def Unmissed (db : AclDb) (cid : Cid) (calls : ι → AclCall Mac)
    (w : AclService ι) : Prop :=
  ∀ k containerOp uid, calls k = .check containerOp uid →
    ForRequested containerOp (fun testop => (db.acl? cid testop).isSome ∧
      (w.store.acl? cid testop).isSome) →
    w.procs k ≠ .fail (.code .errNoent)

/-! ### One after the other -/

omit [DecidableEq ι] in
/-- The next request of the order has its effect if it has succeeded, and none
if it has not. -/
theorem serialRun_filter {srv : Srvr Key Mac} {cid : Cid}
    {calls : ι → AclCall Mac} {w : AclService ι} {k : ι} {order : List ι}
    {db mid db' : AclDb} (hdb : db.Whole) (hend : (w.procs k).next = none)
    (hrun : (calls k).routine srv cid db =
      (w.procs k).run (DbCall.exec false) mid)
    (hrest : mid.Whole → SerialRun (fun k => (calls k).routine srv cid) mid
      (order.filter fun k => (w.procs k).returned) db') :
    SerialRun (fun k => (calls k).routine srv cid) db
      ((k :: order).filter fun k => (w.procs k).returned) db' := by
  cases hk : w.procs k with
  | ret u =>
      rw [hk] at hrun
      rw [List.filter_cons_of_pos (by simp [hk, returned])]
      obtain ⟨e, herr⟩ | ⟨db₁, hok, hwhole⟩ :=
        routine_whole srv cid (calls k) hdb
      · cases herr.symm.trans hrun
      · obtain ⟨-, rfl⟩ := EStateM.Result.ok.inj (hok.symm.trans hrun)
        exact ⟨db₁, hok, hrest hwhole⟩
  | fail e' =>
      rw [hk] at hrun
      rw [List.filter_cons_of_neg (by simp [hk, returned])]
      obtain ⟨e, herr⟩ | ⟨db₁, hok, -⟩ := routine_whole srv cid (calls k) hdb
      · obtain ⟨-, rfl⟩ := EStateM.Result.error.inj (herr.symm.trans hrun)
        exact hrest hdb
      · cases hok.symm.trans hrun
  | call c k' =>
      rw [hk] at hend
      cases hend

/-- Two requests whose calls do not conflict out of order. -/
theorem serialRun_of_inOrder {srv : Srvr Key Mac} {db : AclDb} {cid : Cid}
    {calls : ι → AclCall Mac} {schedule : List ι} {i j : ι} (hij : i ≠ j)
    (hdb : db.Whole)
    (hmods : ∀ k, k ≠ i → k ≠ j → (calls k).IsCheck)
    (hi : ((serveAcls srv db cid calls schedule).procs i).next = none)
    (hj : ((serveAcls srv db cid calls schedule).procs j).next = none)
    (horder : InOrder DbCall.place DbCall.IsGet i j
      (serveAcls srv db cid calls schedule).history) :
    ∃ db', SerialRun (fun k => (calls k).routine srv cid) db
      ([i, j].filter fun k =>
        ((serveAcls srv db cid calls schedule).procs k).returned) db' ∧
      SameCells AclDb.cell (serveAcls srv db cid calls schedule).store db' := by
  have hw : Consistent (DbCall.exec false) db
      (fun k => (calls k).prog srv cid) (serveAcls srv db cid calls schedule) :=
    consistent_run _ _ _ _
  have hothers : ∀ e ∈ (serveAcls srv db cid calls schedule).history,
      e.who ≠ i → e.who ≠ j → e.call.IsGet := by
    intro e he hei hej
    have hown := mem_own (x := ⟨e.call, e.reply⟩) |>.mpr he
    have honly : ((calls e.who).prog srv cid).Only DbCall.IsGet := by
      obtain ⟨containerOp, uid, hcall⟩ := hmods e.who hei hej
      rw [hcall]
      exact only_checkPerm srv (fun _ => trivial) cid containerOp uid
    exact honly.of_follows (hw.follows e.who) _ hown
  obtain ⟨mid, db', hruni, hrunj, hsame⟩ :=
    hw.serial local_exec (fun c hc => exec_of_isGet hc) hij hothers horder
  rw [alone_prog] at hruni hrunj
  refine ⟨db', serialRun_filter hdb hi hruni fun hmid =>
    serialRun_filter hmid hj hrunj fun _ => rfl, hsame⟩

/-! ### Lists that are about to be put -/

/-- After the deletion of a list comes its put. -/
def PutBack (x : Answered DbCall DbCall.Reply) (next : Option DbCall) : Prop :=
  ∀ key, x = ⟨.del key, DelReply.deleted⟩ → ∃ acl, next = some (.put key acl)

theorem putBack_of_none (x : Answered DbCall DbCall.Reply)
    (next : Option DbCall) (h : PutBack x none) : PutBack x next := by
  intro key hx
  obtain ⟨acl, hnone⟩ := h key hx
  cases hnone

theorem putBack_of_isGet {x : Answered DbCall DbCall.Reply}
    {next : Option DbCall} (h : x.1.IsGet) : PutBack x next := by
  rintro key rfl
  exact h.elim

omit [DecidableEq Mac] in
theorem then_modAclOp (srv : Srvr Key Mac) {cid : Cid} (hshort : Short cid)
    (containerOp : Opcode) (set unset : Option (List Uid)) {testop : Opcode}
    (hop : testop ∈ usedOps) :
    (Steps.modAclOp srv cid containerOp set unset testop).Then PutBack := by
  refine then_ite ?_ trivial
  refine then_bind putBack_of_none ?_ fun orig => ?_
  · exact (only_authrDbGetAcl (P := DbCall.IsGet) (fun _ => trivial) cid
      testop).then fun x n hx => putBack_of_isGet hx
  · -- The deletion, and the put that comes after it.
    intro r
    refine ⟨?_, ?_⟩
    · intro key hx
      obtain ⟨hcall, hreply⟩ := Sigma.mk.inj hx
      obtain rfl := DbCall.del.inj hcall
      obtain rfl : r = .deleted := eq_of_heq hreply
      refine ⟨(Srvr.modifyUids srv.qsort orig set unset).1, ?_⟩
      rw [← (putKey_eq_getKey hop).mpr hshort]
      rfl
    · cases r with
      | deleted =>
          intro r'
          refine ⟨fun key hx => ?_, ?_⟩
          · cases (Sigma.mk.inj hx).1
          · cases r' <;> trivial
      | notfound => trivial
      | failed => trivial

theorem then_prog (srv : Srvr Key Mac) {cid : Cid} (hshort : Short cid)
    (call : AclCall Mac) : (call.prog srv cid).Then PutBack := by
  have hget : ∀ (p : DbProg Unit), p.Only DbCall.IsGet → p.Then PutBack :=
    fun p hp => hp.then fun x n hx => putBack_of_isGet hx
  cases call with
  | mod containerOp set unset cap =>
      refine then_bind putBack_of_none
        (hget _ (only_checkAuthorization srv (fun _ => trivial) _ _ _))
        fun _ => ?_
      refine then_ite (then_bind putBack_of_none ?_ fun _ => trivial) trivial
      apply then_foldlM putBack_of_none
      intro torm testop hop
      exact then_modAclOp srv hshort containerOp set torm
        (mem_usedOps_of_containerOps hop)
  | check containerOp uid =>
      exact hget _ (only_checkPerm srv (fun _ => trivial) _ _ _)

/-! ### Checks -/

theorem follows_authrDbGetAcl_fail {cid : Cid} {op : Opcode} {e : Fault}
    {l : List (Answered DbCall DbCall.Reply)}
    (h : Follows l (Steps.authrDbGetAcl cid op) (.fail e)) :
    (⟨.get (getKey cid op), none⟩ : Answered DbCall DbCall.Reply) ∈ l := by
  cases l with
  | nil => cases follows_nil.mp h
  | cons x l =>
      obtain ⟨r, rfl, hl⟩ := h
      cases r with
      | none => exact List.mem_cons_self
      | some acl => cases (follows_ret.mp hl).2

omit [DecidableEq Mac] in
/-- A check that fails for want of a list has looked for a list and found
none. -/
theorem follows_checkPerm_noent {srv : Srvr Key Mac} {cid : Cid}
    {containerOp : Opcode} {uid : Uid}
    {l : List (Answered DbCall DbCall.Reply)}
    (h : Follows l (Steps.checkPerm srv cid containerOp uid)
      (.fail (.code .errNoent))) :
    ∃ testop ∈ containerOps, testop ≠ containerCreate ∧
      requests containerOp testop ∧
      (⟨.get (getKey cid testop), none⟩ : Answered DbCall DbCall.Reply) ∈ l := by
  rw [Steps.checkPerm] at h
  split at h
  · obtain ⟨testop, hop, l', hsub, hfail⟩ := follows_forM_fail h
    rw [Steps.checkPermOp] at hfail
    split at hfail
    · cases (follows_ret.mp hfail).2
    · next hcreate =>
      split at hfail
      · next hreq =>
        refine ⟨testop, hop, hcreate, hreq, hsub ?_⟩
        obtain hget | ⟨acl, l₁, l₂, -, -, hsearch⟩ := follows_bind_fail.mp hfail
        · exact follows_authrDbGetAcl_fail hget
        · cases hfound : bsearch uid acl compareUids with
          | none =>
              rw [hfound] at hsearch
              cases (follows_fail.mp hsearch).2
          | some i =>
              rw [hfound] at hsearch
              cases (follows_ret.mp hsearch).2
      · cases (follows_ret.mp hfail).2
  · cases (follows_ret.mp h).2

/-- What holds of a list that is looked for, as long as nobody looks for it
when it is about to be put: it is there, or it is about to be put; and nobody
has missed it. -/
structure Kept (checks : ι → Prop) (key : Keystr) (w : AclService ι) :
    Prop where
  restores : ∀ k, (w.procs k).Then PutBack
  present : key ∈ w.store.acls ∨
    ∃ k acl, (w.procs k).next = some (.put key acl)
  found : ∀ k, checks k → ⟨k, .get key, none⟩ ∉ w.history

/-- The step is not that of a check which looks for a list when the list is
about to be put. -/
def NotInGap (checks : ι → Prop) (w : AclService ι) (k : ι) : Prop :=
  checks k → ∀ key, (w.procs k).next = some (.get key) →
    ∀ l acl, (w.procs l).next ≠ some (.put key acl)

theorem mem_put (key : Keystr) (acl : List Uid) (db : AclDb) :
    key ∈ (DbCall.exec false (.put key acl) db).2.acls := by
  by_cases hkey : key ∈ db.acls
  · rw [DbCall.exec_put_of_mem hkey]
    exact hkey
  · rw [DbCall.exec_put_of_notMem hkey]
    exact (AList.mem_insert _).mpr (.inl rfl)

theorem Kept.step {checks : ι → Prop} {key : Keystr} {w : AclService ι}
    {k : ι} (hw : Kept checks key w) (hgap : NotInGap checks w k) :
    Kept checks key (w.step (DbCall.exec false) k) := by
  cases hk : w.procs k with
  | ret u =>
      rw [World.step_of_ended _ (by rw [hk]; rfl)]
      exact hw
  | fail e =>
      rw [World.step_of_ended _ (by rw [hk]; rfl)]
      exact hw
  | call c f =>
      have hthen := hw.restores k
      rw [hk] at hthen
      obtain ⟨hback, hrest⟩ := hthen (DbCall.exec false c w.store).1
      refine ⟨fun l => ?_, ?_, fun k' hk' hmem => ?_⟩
      · by_cases hl : l = k
        · rw [hl, World.step_procs_self _ hk]
          exact hrest
        · rw [World.step_procs_of_ne _ hk hl]
          exact hw.restores l
      · rw [World.step_store _ hk]
        rcases hw.present with hmem | ⟨l, acl, hnext⟩
        · by_cases hdel : (⟨c, (DbCall.exec false c w.store).1⟩ :
              Answered DbCall DbCall.Reply) = ⟨.del key, DelReply.deleted⟩
          · obtain ⟨acl, hput⟩ := hback key hdel
            exact .inr ⟨k, acl, by rw [World.step_procs_self _ hk, hput]⟩
          · exact .inl (mem_exec hmem hdel)
        · by_cases hl : l = k
          · rw [hl, hk] at hnext
            obtain rfl := Option.some.inj hnext
            exact .inl (mem_put key acl w.store)
          · exact .inr ⟨l, acl, by rw [World.step_procs_of_ne _ hk hl, hnext]⟩
      · rw [World.step_history _ hk] at hmem
        rcases List.mem_append.mp hmem with hold | hnew
        · exact hw.found k' hk' hold
        · obtain ⟨rfl, rfl, hreply⟩ :=
            Event.mk.inj (List.mem_singleton.mp hnew)
          have hnone : key ∉ w.store.acls :=
            AList.lookup_eq_none.mp (eq_of_heq hreply).symm
          obtain ⟨l, acl, hnext⟩ := hw.present.resolve_left hnone
          exact hgap hk' key (by rw [hk]; rfl) l acl hnext

theorem unmissed_of_notInGap (srv : Srvr Key Mac) {db : AclDb}
    (hdb : db.Holds fun _ => True) (cid : Cid) (calls : ι → AclCall Mac)
    {schedule : List ι}
    (hgap : Run.Along (World.step (DbCall.exec false))
      (NotInGap fun k => (calls k).IsCheck) (startAcls srv db cid calls)
      schedule) :
    Unmissed db cid calls (serveAcls srv db cid calls schedule) := by
  intro k containerOp uid hcall hthere hfail
  have hw : Consistent (DbCall.exec false) db
      (fun k => (calls k).prog srv cid) (serveAcls srv db cid calls schedule) :=
    consistent_run _ _ _ _
  have hfollows := hw.follows k
  rw [hfail, hcall] at hfollows
  obtain ⟨testop, hop, hcreate, hreq, hmissed⟩ :=
    follows_checkPerm_noent hfollows
  obtain ⟨hbefore, -⟩ := hthere testop hop hcreate hreq
  obtain ⟨acl, hacl⟩ := Option.isSome_iff_exists.mp hbefore
  have hmem := acl?_eq_some_mem hacl
  have hshort : Short cid :=
    (putKey_eq_getKey (mem_usedOps_of_containerOps hop)).mp
      (hdb.putKey_eq hmem)
  have hstart : Kept (fun k => (calls k).IsCheck) (getKey cid testop)
      (startAcls srv db cid calls) :=
    ⟨fun l => then_prog srv hshort (calls l), .inl hmem,
      fun _ _ => List.not_mem_nil⟩
  have hkept := Run.exec_invariant (fun _ _ => Kept.step) hstart hgap
  exact hkept.found k ⟨containerOp, uid, hcall⟩ (mem_own.mp hmissed)

/-- Of any number of requests on a container, of which two at most modify its
lists, these two have the effect of one after the other if their calls do not
conflict out of order; and no check misses a list unless it looks for the list
just when the list is about to be put. -/
theorem modAcls_serialize (srv : Srvr Key Mac) {db : AclDb} (hdb : db.Whole)
    (cid : Cid) (calls : ι → AclCall Mac) {i j : ι} (hij : i ≠ j)
    (hmods : ∀ k, k ≠ i → k ≠ j → (calls k).IsCheck) (schedule : List ι)
    (horder :
      let h := (serveAcls srv db cid calls schedule).history
      InOrder DbCall.place DbCall.IsGet i j h ∨
        InOrder DbCall.place DbCall.IsGet j i h)
    (hgap : Run.Along (World.step (DbCall.exec false))
      (NotInGap fun k => (calls k).IsCheck) (startAcls srv db cid calls)
      schedule) :
    let w := serveAcls srv db cid calls schedule
    ((w.procs i).next = none → (w.procs j).next = none →
        Serialized srv db cid calls w i j) ∧ Unmissed db cid calls w := by
  intro w
  refine ⟨fun hi hj => ?_, unmissed_of_notInGap srv hdb.holds cid calls hgap⟩
  rcases horder with horder | horder
  · obtain ⟨db', hrun, hsame⟩ :=
      serialRun_of_inOrder hij hdb hmods hi hj horder
    exact ⟨[i, j], db', .inl rfl, hrun, hsame⟩
  · obtain ⟨db', hrun, hsame⟩ :=
      serialRun_of_inOrder hij.symm hdb (fun k hj hi => hmods k hi hj) hj hi
        horder
    exact ⟨[j, i], db', .inr rfl, hrun, hsame⟩

end Service

/-! ### Two users who get access at the same time -/

/-- A database with container 1 in it. -/
def plainDb : AclDb :=
  plainSrvr.step AclDb.empty (.createContainer 1 (ownerCap plainSrvr 0 plainCred))

theorem plainDb_reachable : plainSrvr.Reachable plainDb :=
  ⟨[.createContainer 1 (ownerCap plainSrvr 0 plainCred)], rfl⟩

def addUid (containerOp : Opcode) (uid : UInt8) : AclCall (List UInt8) :=
  .mod containerOp (some [Octets.fill uuidSize uid]) none
    (ownerCap plainSrvr 1 plainCred)

/-- A reader and a writer are added in turns, after the owner is found. -/
def addReaderAndWriter : Fin 3 → AclCall (List UInt8) :=
  ![addUid containerRead 2, addUid containerWrite 3,
    .check containerRead plainCred.uid]

theorem addReaderAndWriter_serialize :
    let w := serveAcls plainSrvr plainDb 1 addReaderAndWriter
      [2, 0, 1, 0, 1, 0, 1, 0, 1]
    Serialized plainSrvr plainDb 1 addReaderAndWriter w 0 1 ∧
      Unmissed plainDb 1 addReaderAndWriter w := by
  intro w
  have hmods : ∀ k, k ≠ 0 → k ≠ 1 → (addReaderAndWriter k).IsCheck := by
    intro k h₀ h₁
    match k with
    | 0 => exact absurd rfl h₀
    | 1 => exact absurd rfl h₁
    | 2 => exact ⟨_, _, rfl⟩
  have horder : InOrder DbCall.place DbCall.IsGet 0 1 w.history := by
    simp only [InOrder, Conflict]
    decide
  have hmod : ∀ k : Fin 3, k ≠ 2 → ¬ (addReaderAndWriter k).IsCheck := by
    rintro k hk ⟨op, uid, h⟩
    match k with
    | 0 => cases h
    | 1 => cases h
    | 2 => exact hk rfl
  have h₀ := hmod 0 (by decide)
  have h₁ := hmod 1 (by decide)
  obtain ⟨hserial, hunmissed⟩ := modAcls_serialize plainSrvr
    plainDb_reachable.whole 1 addReaderAndWriter (i := 0) (j := 1) (by decide)
    hmods [2, 0, 1, 0, 1, 0, 1, 0, 1] (.inl horder) <| by
      refine ⟨fun _ key _ l acl => ?_, ?_⟩
      · intro hput
        match l with
        | 0 => cases hput
        | 1 => cases hput
        | 2 => cases hput
      · exact ⟨fun h => absurd h h₀, fun h => absurd h h₁,
          fun h => absurd h h₀, fun h => absurd h h₁, fun h => absurd h h₀,
          fun h => absurd h h₁, fun h => absurd h h₀, fun h => absurd h h₁,
          trivial⟩
  exact ⟨hserial rfl rfl, hunmissed⟩

/-- Two readers that are added at the same time: both requests succeed, and
one of the readers is lost. And a check of the owner fails, just when the list
has been deleted to add a reader. -/
theorem not_modAcls_serialize :
    (¬ ∀ (calls : Fin 2 → AclCall (List UInt8)) schedule,
      let w := serveAcls plainSrvr plainDb 1 calls schedule
      (w.procs 0).next = none → (w.procs 1).next = none →
        Serialized plainSrvr plainDb 1 calls w 0 1) ∧
    ¬ ∀ (calls : Fin 2 → AclCall (List UInt8)) schedule,
      Unmissed plainDb 1 calls
        (serveAcls plainSrvr plainDb 1 calls schedule) := by
  constructor
  · intro h
    have hlost := h ![addUid containerRead 2, addUid containerRead 3]
      [0, 1, 0, 1, 0, 0, 1, 1] rfl rfl
    obtain ⟨order, db', rfl | rfl, hrun, hsame⟩ := hlost
    · obtain ⟨mid, hfirst, last, hsecond, rfl⟩ := hrun
      obtain rfl := Routine.final_of_ok hfirst
      obtain rfl := Routine.final_of_ok hsecond
      have hread := cell_some_inj.mp (hsame (some (getKey 1 containerRead)))
      exact absurd hread (by decide)
    · obtain ⟨mid, hfirst, last, hsecond, rfl⟩ := hrun
      obtain rfl := Routine.final_of_ok hfirst
      obtain rfl := Routine.final_of_ok hsecond
      have hread := cell_some_inj.mp (hsame (some (getKey 1 containerRead)))
      exact absurd hread (by decide)
  · intro h
    have hmissed := h ![addUid containerRead 2,
      .check containerRead plainCred.uid] [0, 0, 0, 1, 0] 1 _ _ rfl
    refine hmissed ?_ rfl
    have hread : ForRequested containerRead (· = containerRead) := by decide
    intro testop hop hcreate hreq
    rw [hread testop hop hcreate hreq]
    decide

end Lwfs.Authr
