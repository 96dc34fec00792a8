import Lwfs.Authr.Steps
import Lwfs.Authr.Whole

/-!
Requests that fail half-way.

A request that changes lists is a loop over the operations, and a step of it
that fails ends it where it is. What it has changed by then stays changed. So
a request that fails has left the database as it was only if it fails before
the first step that takes effect, or if what it has done makes no difference.
-/

namespace Lwfs.Authr

open SysLib Routine

/-- Every list and every record is the same. -/
def SameRecords (db db' : AclDb) : Prop :=
  ∀ key, db'.acls.lookup key = db.acls.lookup key

theorem SameRecords.refl (db : AclDb) : SameRecords db db := fun _ => rfl

theorem SameRecords.symm {db db' : AclDb} (h : SameRecords db db') :
    SameRecords db' db := fun key => (h key).symm

theorem SameRecords.trans {db db' db'' : AclDb} (h : SameRecords db db')
    (h' : SameRecords db' db'') : SameRecords db db'' :=
  fun key => (h' key).trans (h key)

/-- The program alone, on a database that fails to serve some calls. -/
abbrev faulty (fails : ℕ → Bool) {α : Type} (p : DbProg α) :
    Routine Fault FaultyDb α :=
  p.run (FaultyDb.exec fails)

/-! ### Single steps -/

section Calls

variable {fails : ℕ → Bool} {db : AclDb} {n : ℕ} {c : Cid} {op : Opcode}

theorem faulty_call {α : Type} {call : DbCall} {k : call.Reply → DbProg α}
    {r : call.Reply} {db' : AclDb}
    (h : call.exec (fails n) db = (r, db')) :
    faulty fails (.call call k) ⟨db, n⟩ = faulty fails (k r) ⟨db', n + 1⟩ := by
  rw [faulty, Prog.run_call]
  simp only [FaultyDb.exec, h]

theorem faulty_put_ok (hserved : fails n = false)
    (hkey : putKey c op ∉ db.acls) (acl : List Uid) :
    faulty fails (Steps.authrDbPutAcl c op acl) ⟨db, n⟩ =
      .ok () ⟨db.putAcl (putKey c op) acl, n + 1⟩ := by
  have hcall : DbCall.exec (fails n) (.put (putKey c op) acl) db =
      (.stored, db.putAcl (putKey c op) acl) := by
    rw [hserved]
    exact DbCall.exec_put_of_notMem hkey acl
  rw [Steps.authrDbPutAcl, faulty_call hcall]
  rfl

theorem faulty_put_error (h : fails n = true ∨ putKey c op ∈ db.acls)
    (acl : List Uid) :
    ∃ e, faulty fails (Steps.authrDbPutAcl c op acl) ⟨db, n⟩ =
      .error e ⟨db, n + 1⟩ := by
  cases hserved : fails n with
  | true =>
      have hcall : DbCall.exec (fails n) (.put (putKey c op) acl) db =
          (.failed, db) := by
        rw [hserved]
        rfl
      refine ⟨.code .errSec, ?_⟩
      rw [Steps.authrDbPutAcl, faulty_call hcall]
      rfl
  | false =>
      have hkey := h.resolve_left (by rw [hserved]; exact Bool.false_ne_true)
      have hcall : DbCall.exec (fails n) (.put (putKey c op) acl) db =
          (.keyexist, db) := by
        rw [hserved]
        exact DbCall.exec_put_of_mem hkey acl
      refine ⟨.code .errExist, ?_⟩
      rw [Steps.authrDbPutAcl, faulty_call hcall]
      rfl

theorem faulty_get_ok (hserved : fails n = false) {acl : List Uid}
    (hacl : db.acl? c op = some acl) :
    faulty fails (Steps.authrDbGetAcl c op) ⟨db, n⟩ =
      .ok acl ⟨db, n + 1⟩ := by
  have hcall : DbCall.exec (fails n) (.get (getKey c op)) db =
      (some acl, db) := by
    rw [hserved, ← hacl]
    rfl
  rw [Steps.authrDbGetAcl, faulty_call hcall]
  rfl

theorem faulty_get_error (h : fails n = true ∨ db.acl? c op = none) :
    ∃ e, faulty fails (Steps.authrDbGetAcl c op) ⟨db, n⟩ =
      .error e ⟨db, n + 1⟩ := by
  have hcall : DbCall.exec (fails n) (.get (getKey c op)) db = (none, db) := by
    simp only [DbCall.exec]
    split
    · rfl
    · next hserved => exact congrArg (·, db) (h.resolve_left hserved)
  refine ⟨.code .errNoent, ?_⟩
  rw [Steps.authrDbGetAcl, faulty_call hcall]
  rfl

theorem faulty_del_fault (hfault : fails n = true) :
    faulty fails (Steps.authrDbDelAcl c op) ⟨db, n⟩ =
      .error (.code .errSec) ⟨db, n + 1⟩ := by
  have hcall : DbCall.exec (fails n) (.del (getKey c op)) db =
      (.failed, db) := by
    rw [hfault]
    rfl
  rw [Steps.authrDbDelAcl, faulty_call hcall]
  rfl

theorem faulty_del_ok (hserved : fails n = false)
    (hkey : getKey c op ∈ db.acls) :
    faulty fails (Steps.authrDbDelAcl c op) ⟨db, n⟩ =
      .ok () ⟨db.delAcl (getKey c op), n + 1⟩ := by
  have hcall : DbCall.exec (fails n) (.del (getKey c op)) db =
      (.deleted, db.delAcl (getKey c op)) := by
    rw [hserved]
    exact DbCall.exec_del_of_mem hkey
  rw [Steps.authrDbDelAcl, faulty_call hcall]
  rfl

theorem faulty_del_noent (hserved : fails n = false)
    (hkey : getKey c op ∉ db.acls) :
    faulty fails (Steps.authrDbDelAcl c op) ⟨db, n⟩ =
      .error (.code .errNoent) ⟨db, n + 1⟩ := by
  have hcall : DbCall.exec (fails n) (.del (getKey c op)) db =
      (.notfound, db) := by
    rw [hserved]
    exact DbCall.exec_del_of_notMem hkey
  rw [Steps.authrDbDelAcl, faulty_call hcall]
  rfl

theorem faulty_exists :
    faulty fails (Steps.authrDbContainerExists c) ⟨db, n⟩ =
      .ok (!fails n && db.containerExists c) ⟨db, n + 1⟩ := by
  have hcall : DbCall.exec (fails n) (.get (getKey c opExists)) db =
      (if fails n then none else db.acl? c opExists, db) := rfl
  rw [Steps.authrDbContainerExists, faulty_call hcall]
  cases fails n <;> rfl

end Calls

/-! ### The lists of a new container -/

section Create

variable {fails : ℕ → Bool} {c : Cid} {uid : Uid}

theorem steps_createAcl_eq (c : Cid) (uid : Uid) (op : Opcode) :
    Steps.createAcl c uid op = Steps.authrDbPutAcl c op (initialAcl uid op) := by
  rw [Steps.createAcl, initialAcl]
  split <;> rfl

/-- A put that the database does not take: it fails, or there is something
under the key. -/
def Refused (fails : ℕ → Bool) (db : AclDb) (n : ℕ) (c : Cid) (op : Opcode) :
    Prop := fails n = true ∨ putKey c op ∈ db.acls

/-- The lists of the operations can be put, in calls from the `n`-th on. -/
def Puttable (fails : ℕ → Bool) (db : AclDb) (n : ℕ) (c : Cid)
    (ops : List Opcode) : Prop :=
  (∀ i < ops.length, fails (n + i) = false) ∧
    ∀ op ∈ ops, db.acl? c op = none

theorem puttable_nil {db : AclDb} {n : ℕ} : Puttable fails db n c [] :=
  ⟨fun i hi => absurd hi (Nat.not_lt_zero i),
    fun _ hop => absurd hop List.not_mem_nil⟩

theorem puttable_cons {db : AclDb} {n : ℕ} {op : Opcode} {ops : List Opcode} :
    Puttable fails db n c (op :: ops) ↔
      (fails n = false ∧ db.acl? c op = none) ∧
        Puttable fails db (n + 1) c ops := by
  constructor
  · rintro ⟨hserved, hnone⟩
    obtain ⟨hop, hnone⟩ := List.forall_mem_cons.mp hnone
    refine ⟨⟨hserved 0 (Nat.succ_pos _), hop⟩, fun i hi => ?_, hnone⟩
    rw [Nat.add_assoc, Nat.add_comm 1 i]
    exact hserved (i + 1) (Nat.succ_lt_succ hi)
  · rintro ⟨⟨hfirst, hop⟩, hserved, hnone⟩
    refine ⟨fun i hi => ?_, List.forall_mem_cons.mpr ⟨hop, hnone⟩⟩
    cases i with
    | zero => exact hfirst
    | succ i =>
        rw [Nat.add_comm i 1, ← Nat.add_assoc]
        exact hserved i (Nat.lt_of_succ_lt_succ hi)

theorem puttable_congr {db db' : AclDb} {n : ℕ} {ops : List Opcode}
    (h : ∀ op ∈ ops, db'.acl? c op = db.acl? c op) :
    Puttable fails db' n c ops ↔ Puttable fails db n c ops := by
  refine and_congr_right fun _ => forall₂_congr fun op hop => ?_
  rw [h op hop]

theorem faulty_createAcls_cons (op : Opcode) (ops : List Opcode) :
    faulty fails ((op :: ops).forM (Steps.createAcl c uid)) =
      faulty fails (Steps.authrDbPutAcl c op (initialAcl uid op)) >>= fun _ =>
        faulty fails (ops.forM (Steps.createAcl c uid)) := by
  rw [← steps_createAcl_eq]
  exact Prog.run_bind _ _ _

theorem createAcls_ok_iff (hshort : Short c) {ops : List Opcode}
    (hops : ops.Nodup) (hused : ∀ op ∈ ops, op ∈ usedOps) {db : AclDb}
    {n : ℕ} :
    (∃ s, faulty fails (ops.forM (Steps.createAcl c uid)) ⟨db, n⟩ =
      .ok ⟨⟩ s) ↔ Puttable fails db n c ops := by
  induction ops generalizing db n with
  | nil => exact iff_of_true ⟨_, rfl⟩ puttable_nil
  | cons op ops ih =>
      obtain ⟨hop, hops⟩ := List.nodup_cons.mp hops
      obtain ⟨hu, hused⟩ := List.forall_mem_cons.mp hused
      have hkey : putKey c op = getKey c op := (putKey_eq_getKey hu).mpr hshort
      rw [faulty_createAcls_cons, puttable_cons]
      by_cases hput : Refused fails db n c op
      · obtain ⟨e, hrun⟩ := faulty_put_error hput (initialAcl uid op)
        rw [bind_of_error hrun]
        refine iff_of_false ?_ ?_
        · rintro ⟨s, hs⟩
          cases hs
        · rintro ⟨⟨hserved, hnone⟩, -⟩
          rcases hput with hfault | hmem
          · exact Bool.false_ne_true (hserved.symm.trans hfault)
          · rw [hkey] at hmem
            exact AList.lookup_eq_none.mp hnone hmem
      · obtain ⟨hserved, hmem⟩ := not_or.mp hput
        have hserved := Bool.eq_false_iff.mpr hserved
        rw [bind_of_ok (faulty_put_ok hserved hmem _), ih hops hused]
        rw [hkey] at hmem ⊢
        have hnone : db.acl? c op = none := AList.lookup_eq_none.mpr hmem
        have hsame : ∀ op' ∈ ops, (db.putAcl (getKey c op)
            (initialAcl uid op)).acl? c op' = db.acl? c op' := by
          intro op' hop'
          apply acl?_putAcl_of_ne
          intro heq
          exact hop ((getKey_inj.mp heq).2 ▸ hop')
        rw [puttable_congr hsame]
        exact (and_iff_right ⟨hserved, hnone⟩).symm

/-- Of a container whose keys are too long, the second list is put over the
first. -/
theorem createAcls_not_ok (hshort : ¬ Short c) {s t : FaultyDb} :
    faulty fails (containerOps.forM (Steps.createAcl c uid)) s ≠ .ok ⟨⟩ t := by
  intro h
  have hkeys : putKey c 1 = putKey c 2 := by
    rw [Short, ← length_formatPadded_le_ten, not_le] at hshort
    have hlen := length_formatPadded_int32 8 (by decide) c.toUInt32.toInt32
    have heleven : 14 - (formatPadded 8 c.toUInt32.toInt32.toInt).length = 3 := by
      omega
    rw [putKey_eq_append, putKey_eq_append, heleven]
    rfl
  obtain ⟨db, n⟩ := s
  have hcons : containerOps = 1 :: 2 :: [4, 8, 16, 32] := rfl
  rw [hcons, faulty_createAcls_cons] at h
  by_cases hfirst : Refused fails db n c 1
  · obtain ⟨e, hrun⟩ := faulty_put_error hfirst (initialAcl uid 1)
    cases (bind_of_error hrun).symm.trans h
  · obtain ⟨hserved, hmem⟩ := not_or.mp hfirst
    rw [bind_of_ok (faulty_put_ok (Bool.eq_false_iff.mpr hserved) hmem _),
      faulty_createAcls_cons] at h
    have hsecond : Refused fails (db.putAcl (putKey c 1) (initialAcl uid 1))
        (n + 1) c 2 := by
      right
      rw [← hkeys]
      exact (AList.mem_insert _).mpr (.inl rfl)
    obtain ⟨e, hrun⟩ := faulty_put_error hsecond (initialAcl uid 2)
    cases (bind_of_error hrun).symm.trans h

/-- What has been put stays. -/
theorem createAcls_grow (ops : List Opcode) {key : Keystr} {s : FaultyDb}
    (h : key ∈ s.db.acls) :
    key ∈ ((faulty fails (ops.forM (Steps.createAcl c uid))).final s).db.acls := by
  have honly : (ops.forM (Steps.createAcl c uid)).Only (· ≠ .del key) := by
    refine Prog.only_forM fun op _ => ?_
    rw [steps_createAcl_eq]
    exact only_authrDbPutAcl DbCall.noConfusion
  have hkeep : ∀ call, call ≠ .del key → ∀ s : FaultyDb,
      Keeps (fun s : FaultyDb => key ∈ s.db.acls) s
        (FaultyDb.exec fails call s).2 := by
    intro call hcall s hs
    apply mem_exec hs
    intro heq
    exact hcall (congrArg Sigma.fst heq)
  exact Prog.within_run hkeep honly s h

/-- The lists can all be put, the first cannot, or some of them are put when
the request fails. -/
theorem createAcls_error {op : Opcode} {ops : List Opcode} {db : AclDb} {n : ℕ}
    {e : Fault} {s : FaultyDb}
    (h : faulty fails ((op :: ops).forM (Steps.createAcl c uid)) ⟨db, n⟩ =
      .error e s) : SameRecords db s.db ↔ Refused fails db n c op := by
  rw [faulty_createAcls_cons] at h
  by_cases hfirst : Refused fails db n c op
  · obtain ⟨e', hrun⟩ := faulty_put_error hfirst (initialAcl uid op)
    obtain ⟨-, rfl⟩ :=
      EStateM.Result.error.inj ((bind_of_error hrun).symm.trans h)
    exact iff_of_true (SameRecords.refl db) hfirst
  · obtain ⟨hserved, hmem⟩ := not_or.mp hfirst
    rw [bind_of_ok (faulty_put_ok (Bool.eq_false_iff.mpr hserved) hmem _)] at h
    refine iff_of_false (fun hsame => ?_) hfirst
    have hput : putKey c op ∈ s.db.acls := by
      rw [← final_of_error h]
      exact createAcls_grow ops ((AList.mem_insert _).mpr (.inl rfl))
    rw [← AList.lookup_isSome, hsame, AList.lookup_isSome] at hput
    exact hmem hput

end Create

/-! ### When the requests are atomic -/

section Update

variable {Key Mac : Type} [DecidableEq Mac] (srv : Srvr Key Mac)

/-- A request that changes lists. -/
inductive Update (Mac : Type)
  | create (cid : Cid) (cap : Cap Mac)
  | remove (cid : Cid) (cap : Cap Mac)
  | mod (cid : Cid) (containerOp : Opcode) (set unset : Option (List Uid))
      (cap : Cap Mac)

/-- The steps of a request. -/
def Update.prog : Update Mac → DbProg Unit
  | create cid cap => do
      let _ ← Steps.createContainer srv (2 ^ 32) cid cap
      pure ()
  | remove cid cap => Steps.removeContainer srv cid cap
  | mod cid containerOp set unset cap =>
      Steps.modAcl srv cid containerOp set unset cap

/-- A request that returns an error leaves every list and every record as it
was. -/
def Atomic (fails : ℕ → Bool) (db : AclDb) (update : Update Mac) : Prop :=
  OnError (fun s => SameRecords db s.db) (faulty fails (update.prog srv))
    ⟨db, 0⟩

variable (fails : ℕ → Bool) (db : AclDb)

/-- The lists of a new container: the first of them is refused, or all can be
put. -/
def CreateAclsAtomic (n : ℕ) (c : Cid) : Prop :=
  Refused fails db n c 1 ∨ Short c ∧ Puttable fails db n c containerOps

/-- The caller has chosen the id: the container is there, or its record is
refused, or the record and all lists can be put. Else the server draws the
id. -/
def CreateAtomic (cid : Cid) : Prop :=
  if cid = cidAny then
    srv.aclDbEnabled = true → ∀ c s,
      faulty fails (Steps.createFreshCid (2 ^ 32)) ⟨db, 0⟩ = .ok c s →
        CreateAclsAtomic fails db s.calls c
  else
    (fails 0 = false ∧ db.containerExists cid = true) ∨
      Refused fails db 1 cid opExists ∨
        (srv.aclDbEnabled = true →
          Short cid ∧ Puttable fails db 2 cid containerOps)

/-- A delete that fails, or a record that is not found or not deleted, comes
where no list has been there to delete. -/
def RemoveAtomic (c : Cid) : Prop → ℕ → List Opcode → Prop
  | changed, n, [] =>
      (fails n = false ∧ db.containerExists c = true ∧ fails (n + 1) = false) ∨
        ¬ changed
  | changed, n, op :: ops =>
      (fails n = false ∧
          RemoveAtomic c (changed ∨ (db.acl? c op).isSome) (n + 1) ops) ∨
        (fails n = true ∧ ¬ changed)

/-- A list that is not found or not deleted comes where none has become
another; and no put fails. -/
def ModAtomic (q : Qsort Uid) (c : Cid) (containerOp : Opcode)
    (set : Option (List Uid)) :
    Prop → ℕ → Option (List Uid) → List Opcode → Prop
  | _, _, _, [] => True
  | changed, n, torm, op :: ops =>
      if requests containerOp op then
        match db.acl? c op with
        | none => ¬ changed
        | some old =>
            ((fails n = true ∨ fails (n + 1) = true) ∧ ¬ changed) ∨
              (fails n = false ∧ fails (n + 1) = false ∧
                fails (n + 2) = false ∧
                ModAtomic q c containerOp set
                  (changed ∨ (Srvr.modifyUids q old set torm).1 ≠ old) (n + 3)
                  (Srvr.modifyUids q old set torm).2 ops)
      else ModAtomic q c containerOp set changed n torm ops

/-- The condition on a request, the database, and the calls that fail. -/
def Update.AtomicWhen : Update Mac → Prop
  | create cid _ => CreateAtomic srv fails db cid
  | remove cid cap => ∀ s,
      faulty fails (Steps.checkAuthorization srv cid containerRemove cap)
        ⟨db, 0⟩ = .ok () s →
      RemoveAtomic fails db cid False s.calls containerOps
  | mod cid containerOp set unset cap => srv.aclDbEnabled = true → ∀ s,
      faulty fails (Steps.checkAuthorization srv cid containerModacl cap)
        ⟨db, 0⟩ = .ok () s →
      ModAtomic fails db srv.qsort cid containerOp set False s.calls unset
        containerOps

/-! ### Making a container -/

variable {srv fails db}

omit [DecidableEq Mac] in
/-- The lists of a new container can be put and are, or they cannot and the
loop fails. -/
theorem createAcls_cases (srv : Srvr Key Mac) (c : Cid) (uid : Uid) (n : ℕ) :
    ((srv.aclDbEnabled = true →
        Short c ∧ Puttable fails db n c containerOps) ∧
      ∃ s, faulty fails (Steps.createAcls srv c uid) ⟨db, n⟩ = .ok () s) ∨
    (srv.aclDbEnabled = true ∧
      ¬ (Short c ∧ Puttable fails db n c containerOps) ∧
      faulty fails (Steps.createAcls srv c uid) =
        faulty fails (containerOps.forM (Steps.createAcl c uid)) ∧
      ∃ e s, faulty fails (containerOps.forM (Steps.createAcl c uid)) ⟨db, n⟩ =
        .error e s) := by
  rw [Steps.createAcls]
  by_cases henabled : srv.aclDbEnabled = true
  · rw [if_pos henabled]
    have hiff : Short c →
        ((∃ s, faulty fails (containerOps.forM (Steps.createAcl c uid))
          ⟨db, n⟩ = .ok ⟨⟩ s) ↔ Puttable fails db n c containerOps) :=
      fun hshort => createAcls_ok_iff hshort containerOps_nodup
        fun op hop => mem_usedOps_of_containerOps hop
    cases hrun : faulty fails (containerOps.forM (Steps.createAcl c uid))
        ⟨db, n⟩ with
    | ok u s =>
        have hshort : Short c := by
          by_contra hlong
          exact createAcls_not_ok hlong hrun
        exact .inl ⟨fun _ => ⟨hshort, (hiff hshort).mp ⟨s, hrun⟩⟩, s, rfl⟩
    | error e s =>
        refine .inr ⟨henabled, ?_, rfl, e, s, rfl⟩
        rintro ⟨hshort, hput⟩
        obtain ⟨t, hok⟩ := (hiff hshort).mpr hput
        cases hrun.symm.trans hok
  · rw [if_neg henabled]
    exact .inl ⟨fun h => absurd h henabled, _, rfl⟩

omit [DecidableEq Mac] in
/-- They fail without a trace exactly if the first of them is refused or all
can be put. -/
theorem createAcls_atomic (c : Cid) (uid : Uid) (n : ℕ) :
    OnError (fun s => SameRecords db s.db)
        (faulty fails (Steps.createAcls srv c uid)) ⟨db, n⟩ ↔
      (srv.aclDbEnabled = true → CreateAclsAtomic fails db n c) := by
  obtain ⟨hput, s, hok⟩ | ⟨henabled, hnot, hloop, e, s, herror⟩ :=
    createAcls_cases srv c uid n
  · exact iff_of_true (onError_of_ok hok) fun h => .inr (hput h)
  · rw [hloop, onError_of_error herror, createAcls_error herror]
    constructor
    · exact fun hrefused _ => .inl hrefused
    · exact fun h => (h henabled).resolve_right hnot

omit [DecidableEq Mac] in
/-- Once the record is there, they must not fail at all. -/
theorem createAcls_after_record (c : Cid) (uid : Uid) (n : ℕ)
    {db₀ : AclDb} {key : Keystr} (hkey : key ∈ db.acls)
    (hkey₀ : key ∉ db₀.acls) :
    OnError (fun s => SameRecords db₀ s.db)
        (faulty fails (Steps.createAcls srv c uid)) ⟨db, n⟩ ↔
      (srv.aclDbEnabled = true →
        Short c ∧ Puttable fails db n c containerOps) := by
  obtain ⟨hput, s, hok⟩ | ⟨henabled, hnot, hloop, e, s, herror⟩ :=
    createAcls_cases srv c uid n
  · exact iff_of_true (onError_of_ok hok) hput
  · rw [hloop, onError_of_error herror]
    refine iff_of_false (fun hsame => ?_) fun h => hnot (h henabled)
    have hstays : key ∈ s.db.acls := by
      rw [← final_of_error herror]
      exact createAcls_grow containerOps hkey
    rw [← AList.lookup_isSome, hsame, AList.lookup_isSome] at hstays
    exact hkey₀ hstays

/-- Drawing an id changes no list. -/
theorem faulty_createFreshCid (fails : ℕ → Bool) (fuel : ℕ) (s : FaultyDb) :
    ((faulty fails (Steps.createFreshCid fuel)).final s).db.acls =
      s.db.acls := by
  have honly : (Steps.createFreshCid fuel).Only fun call =>
      ∀ fault db, (call.exec fault db).2.acls = db.acls :=
    only_createFreshCid (fun _ _ _ => rfl) (fun _ _ => rfl)
      (fun cid fault db => by cases fault <;> rfl) fuel
  have hkeep : ∀ call : DbCall,
      (∀ fault db, (call.exec fault db).2.acls = db.acls) →
      ∀ t, Keeps (fun t : FaultyDb => t.db.acls = s.db.acls) t
        (FaultyDb.exec fails call t).2 :=
    fun call hcall t ht => (hcall _ _).trans ht
  exact Prog.within_run hkeep honly s rfl

theorem create_atomic (cid : Cid) (cap : Cap Mac) :
    Atomic srv fails db (.create cid cap) ↔ CreateAtomic srv fails db cid := by
  have hprog : faulty fails ((Update.create cid cap).prog srv) =
      (do
        let c ← faulty fails (Steps.authrDbCreateContainer (2 ^ 32) cid)
        let _ ← faulty fails (Steps.createAcls srv c cap.data.cred.uid)
        pure () : Routine Fault FaultyDb Unit) := by
    simp only [Update.prog, Steps.createContainer, faulty, Prog.run_bind,
      bind_assoc]
    rfl
  rw [Atomic, hprog, CreateAtomic, Steps.authrDbCreateContainer]
  -- a new number changes no list, and cannot be taken already
  by_cases hany : cid = cidAny
  · rw [if_pos hany, if_pos hany]
    have hacls := faulty_createFreshCid fails (2 ^ 32) ⟨db, 0⟩
    cases hrun : faulty fails (Steps.createFreshCid (2 ^ 32)) ⟨db, 0⟩ with
    | error e s =>
        rw [onError_bind_of_error hrun]
        rw [final_of_error hrun] at hacls
        refine iff_of_true (fun key => by rw [hacls]) ?_
        intro _ c s h
        cases h
    | ok c s =>
        rw [final_of_ok hrun] at hacls
        obtain ⟨⟨counter, acls⟩, n⟩ := s
        obtain rfl : acls = db.acls := hacls
        rw [onError_bind_of_ok hrun, onError_bind_pure]
        refine (createAcls_atomic c _ n).trans (forall_congr' fun _ => ?_)
        constructor
        · intro hatomic c' s' h
          obtain ⟨rfl, rfl⟩ := EStateM.Result.ok.inj h
          exact hatomic
        · intro h
          exact h c _ rfl
  · rw [if_neg hany, if_neg hany]
    have hfound : (!fails 0 && db.containerExists cid) = true ↔
        fails 0 = false ∧ db.containerExists cid = true := by
      rw [Bool.and_eq_true, Bool.not_eq_true']
    rw [faulty, Prog.run_bind, bind_assoc, onError_bind_of_ok faulty_exists,
      Prog.run_ite]
    by_cases hexists : (!fails 0 && db.containerExists cid) = true
    · rw [if_pos hexists]
      exact iff_of_true ((onError_bind_of_error rfl).mpr (SameRecords.refl db))
        (.inl (hfound.mp hexists))
    · rw [if_neg hexists, or_iff_right (mt hfound.mpr hexists), Prog.run_bind,
        bind_assoc]
      by_cases hput : Refused fails db 1 cid opExists
      · obtain ⟨e, hrun⟩ := faulty_put_error hput []
        exact iff_of_true ((onError_bind_of_error hrun).mpr (SameRecords.refl db))
          (.inl hput)
      · obtain ⟨hserved, hkey⟩ := not_or.mp hput
        have hrun := faulty_put_ok (Bool.eq_false_iff.mpr hserved) hkey []
        rw [or_iff_right hput, onError_bind_of_ok hrun, Prog.run_pure, pure_bind,
          onError_bind_pure]
        refine (createAcls_after_record cid _ 2
          ((AList.mem_insert _).mpr (.inl rfl)) hkey).trans ?_
        refine forall_congr' fun _ => and_congr_right fun _ => ?_
        apply puttable_congr
        intro op hop
        apply acl?_putAcl_of_ne
        intro heq
        have hop' := op_eq_of_putKey List.mem_cons_self
          (mem_usedOps_of_containerOps hop) heq.symm
        exact opExists_notMem (hop' ▸ hop)

/-! ### Removing a container -/

theorem sameRecords_delAcl {db₀ db : AclDb} {key : Keystr}
    (hkey : db.acls.lookup key = db₀.acls.lookup key) :
    SameRecords db₀ (db.delAcl key) ↔
      SameRecords db₀ db ∧ db₀.acls.lookup key = none := by
  constructor
  · intro h
    have hnone : db₀.acls.lookup key = none :=
      (h key).symm.trans (AList.lookup_erase _ _)
    refine ⟨fun key' => ?_, hnone⟩
    by_cases heq : key' = key
    · rw [heq, hkey]
    · exact (AList.lookup_erase_ne heq).symm.trans (h key')
  · rintro ⟨h, hnone⟩ key'
    by_cases heq : key' = key
    · rw [heq, hnone]
      exact AList.lookup_erase _ _
    · exact (AList.lookup_erase_ne heq).trans (h key')

/-- A list is deleted, or was not there: either is fine. -/
theorem faulty_removeAcl_ok {n : ℕ} (hserved : fails n = false) (c : Cid)
    (op : Opcode) :
    faulty fails (Steps.removeAcl c op) ⟨db, n⟩ =
      .ok () ⟨db.delAcl (getKey c op), n + 1⟩ := by
  rw [Steps.removeAcl, faulty, Prog.run_tryCatch]
  by_cases hkey : getKey c op ∈ db.acls
  · exact tryCatch_of_ok (faulty_del_ok hserved hkey)
  · rw [tryCatch_of_error (faulty_del_noent hserved hkey), if_pos rfl,
      delAcl_of_notMem hkey]
    rfl

theorem faulty_removeAcl_error {n : ℕ} (hfault : fails n = true) (c : Cid)
    (op : Opcode) :
    faulty fails (Steps.removeAcl c op) ⟨db, n⟩ =
      .error (.code .errSec) ⟨db, n + 1⟩ := by
  rw [Steps.removeAcl, faulty, Prog.run_tryCatch,
    tryCatch_of_error (faulty_del_fault hfault), if_neg (by decide)]
  rfl

/-- The record is found and deleted, or the request fails and leaves the
database as it is now. -/
theorem removeRecord_atomic {db₀ : AclDb} {n : ℕ} {c : Cid}
    (hexists : db.acl? c opExists = db₀.acl? c opExists) :
    OnError (fun s => SameRecords db₀ s.db)
        (faulty fails (Steps.authrDbRemoveContainer c)) ⟨db, n⟩ ↔
      (fails n = false ∧ db₀.containerExists c = true ∧
          fails (n + 1) = false) ∨ SameRecords db₀ db := by
  have hsame : db.containerExists c = db₀.containerExists c := by
    rw [AclDb.containerExists, AclDb.containerExists, hexists]
  rw [Steps.authrDbRemoveContainer, faulty, Prog.run_bind,
    onError_bind_of_ok faulty_exists, Prog.run_ite]
  by_cases hfound : (!fails n && db.containerExists c) = true
  · rw [if_pos hfound, Prog.run_bind]
    rw [Bool.and_eq_true, Bool.not_eq_true', hsame] at hfound
    obtain ⟨hserved, hthere⟩ := hfound
    cases hdel : fails (n + 1) with
    | true =>
        rw [onError_bind_of_error (faulty_del_fault hdel)]
        refine (or_iff_right ?_).symm
        rintro ⟨-, -, hfalse⟩
        cases hfalse
    | false =>
        have hkey : getKey c opExists ∈ db.acls :=
          AList.lookup_isSome.mp (hsame.trans hthere)
        rw [onError_bind_of_ok (faulty_del_ok hdel hkey), Prog.run_bind,
          onError_bind_of_ok faulty_exists, Prog.run_ite]
        rw [containerExists_delAcl, Bool.and_false,
          if_neg Bool.false_ne_true]
        exact iff_of_true (onError_of_ok rfl) (.inl ⟨hserved, hthere, rfl⟩)
  · rw [if_neg hfound]
    rw [Bool.and_eq_true, Bool.not_eq_true', hsame] at hfound
    refine (onError_of_error rfl).trans (or_iff_right ?_).symm
    rintro ⟨hserved, hthere, -⟩
    exact hfound ⟨hserved, hthere⟩

/-- What is left of `remove_container` when some lists have been deleted. -/
theorem removeLoop_atomic {db₀ : AclDb} {c : Cid} {ops : List Opcode}
    (hops : ops.Nodup) (hcontainer : ∀ op ∈ ops, op ∈ containerOps)
    {db : AclDb} {n : ℕ} {changed : Prop}
    (hchanged : changed ↔ ¬ SameRecords db₀ db)
    (hexists : db.acl? c opExists = db₀.acl? c opExists)
    (hrest : ∀ op ∈ ops, db.acl? c op = db₀.acl? c op) :
    OnError (fun s => SameRecords db₀ s.db)
        (faulty fails (ops.forM (Steps.removeAcl c)) >>= fun _ =>
          faulty fails (Steps.authrDbRemoveContainer c)) ⟨db, n⟩ ↔
      RemoveAtomic fails db₀ c changed n ops := by
  induction ops generalizing db n changed with
  | nil =>
      have hnil : faulty fails (([] : List Opcode).forM (Steps.removeAcl c))
          ⟨db, n⟩ = .ok ⟨⟩ ⟨db, n⟩ := rfl
      rw [onError_bind_of_ok hnil, removeRecord_atomic hexists, RemoveAtomic,
        hchanged, not_not]
  | cons op ops ih =>
      obtain ⟨hop, hops⟩ := List.nodup_cons.mp hops
      obtain ⟨hc, hcontainer⟩ := List.forall_mem_cons.mp hcontainer
      obtain ⟨hfirst, hrest⟩ := List.forall_mem_cons.mp hrest
      have hcons : faulty fails ((op :: ops).forM (Steps.removeAcl c)) =
          faulty fails (Steps.removeAcl c op) >>= fun _ =>
            faulty fails (ops.forM (Steps.removeAcl c)) :=
        Prog.run_bind _ _ _
      rw [hcons, bind_assoc, RemoveAtomic]
      cases hserved : fails n with
      | true =>
          rw [onError_bind_of_error (faulty_removeAcl_error hserved c op),
            hchanged, not_not]
          simp
      | false =>
          have hlater : changed ∨ (db₀.acl? c op).isSome = true ↔
              ¬ SameRecords db₀ (db.delAcl (getKey c op)) := by
            rw [sameRecords_delAcl hfirst, not_and_or, hchanged]
            refine or_congr_right ?_
            rw [← Option.isNone_iff_eq_none, AclDb.acl?]
            cases db₀.acls.lookup (getKey c op) <;> simp
          have hkeep : ∀ op' ∈ opExists :: ops,
              (db.delAcl (getKey c op)).acl? c op' = db.acl? c op' := by
            intro op' hop'
            apply acl?_delAcl_of_ne
            intro heq
            obtain ⟨-, rfl⟩ := getKey_inj.mp heq
            rcases List.mem_cons.mp hop' with rfl | hmem
            · exact opExists_notMem hc
            · exact hop hmem
          obtain ⟨hkeepExists, hkeep⟩ := List.forall_mem_cons.mp hkeep
          rw [onError_bind_of_ok (faulty_removeAcl_ok hserved c op),
            ih hops hcontainer hlater (hkeepExists.trans hexists)
              fun op' hop' => (hkeep op' hop').trans (hrest op' hop')]
          simp

/-- The checks write nothing. -/
theorem faulty_checkAuthorization (srv : Srvr Key Mac) (fails : ℕ → Bool) (c : Cid) (containerOp : Opcode)
    (cap : Cap Mac) (s : FaultyDb) :
    ((faulty fails
      (Steps.checkAuthorization srv c containerOp cap)).final s).db = s.db := by
  have honly : (Steps.checkAuthorization srv c containerOp cap).Only fun call =>
      ∀ fault db, (call.exec fault db).2 = db :=
    only_checkAuthorization srv (fun _ _ _ => rfl) c containerOp cap
  have hkeep : ∀ call : DbCall, (∀ fault db, (call.exec fault db).2 = db) →
      ∀ t, Keeps (fun t : FaultyDb => t.db = s.db) t
        (FaultyDb.exec fails call t).2 :=
    fun call hcall t ht => (hcall _ _).trans ht
  exact Prog.within_run hkeep honly s rfl

/-- A request that begins with the checks is atomic exactly if what comes after
them is. -/
theorem onError_after_checks {containerOp : Opcode} {c : Cid} {cap : Cap Mac}
    {p : DbProg Unit} :
    OnError (fun s => SameRecords db s.db)
        (faulty fails (Steps.checkAuthorization srv c containerOp cap >>=
          fun _ => p)) ⟨db, 0⟩ ↔
      ∀ s, faulty fails (Steps.checkAuthorization srv c containerOp cap)
          ⟨db, 0⟩ = .ok () s →
        OnError (fun s => SameRecords db s.db) (faulty fails p)
          ⟨db, s.calls⟩ := by
  have hdb := faulty_checkAuthorization srv fails c containerOp cap ⟨db, 0⟩
  rw [faulty, Prog.run_bind]
  cases hrun : faulty fails
      (Steps.checkAuthorization srv c containerOp cap) ⟨db, 0⟩ with
  | error e s =>
      rw [final_of_error hrun] at hdb
      rw [onError_bind_of_error hrun]
      refine iff_of_true (fun key => by rw [hdb]) ?_
      intro s h
      cases h
  | ok u s =>
      rw [final_of_ok hrun] at hdb
      obtain ⟨db', n⟩ := s
      obtain rfl : db' = db := hdb
      rw [onError_bind_of_ok hrun]
      constructor
      · intro h s hs
        obtain ⟨-, rfl⟩ := EStateM.Result.ok.inj hs
        exact h
      · intro h
        exact h _ rfl

theorem remove_atomic (cid : Cid) (cap : Cap Mac) :
    Atomic srv fails db (.remove cid cap) ↔
      (Update.remove cid cap).AtomicWhen srv fails db := by
  refine onError_after_checks.trans (forall₂_congr fun s _ => ?_)
  rw [faulty, Prog.run_bind]
  exact removeLoop_atomic containerOps_nodup (fun op hop => hop)
    (iff_of_false id (not_not.mpr (SameRecords.refl db))) rfl fun _ _ => rfl

/-! ### Modifying lists -/

theorem sameRecords_replaceAcl {db₀ db : AclDb} {c : Cid} {op : Opcode}
    {old acl : List Uid} (hold : db.acl? c op = some old)
    (hold₀ : db₀.acl? c op = some old) :
    SameRecords db₀ (replaceAcl db c op acl) ↔
      SameRecords db₀ db ∧ acl = old := by
  have hother : ∀ key, key ≠ getKey c op →
      (replaceAcl db c op acl).acls.lookup key = db.acls.lookup key :=
    fun key hne => (AList.lookup_insert_ne hne).trans (AList.lookup_erase_ne hne)
  have hself : (replaceAcl db c op acl).acls.lookup (getKey c op) = some acl :=
    acl?_replaceAcl_self db c op acl
  constructor
  · intro h
    refine ⟨fun key => ?_, ?_⟩
    · by_cases heq : key = getKey c op
      · rw [heq]
        exact hold.trans hold₀.symm
      · rw [← h key, hother key heq]
    · exact Option.some.inj (hself.symm.trans ((h _).trans hold₀))
  · rintro ⟨h, rfl⟩ key
    by_cases heq : key = getKey c op
    · rw [heq, hself]
      exact hold₀.symm
    · rw [hother key heq, h key]

section Turn

variable (srv) {n : ℕ} {c : Cid} {containerOp op : Opcode}
  (set torm : Option (List Uid)) (hreq : requests containerOp op)

include hreq

omit [DecidableEq Mac] in
theorem faulty_modAclOp :
    faulty fails (Steps.modAclOp srv c containerOp set torm op) =
      (do
        let orig ← faulty fails (Steps.authrDbGetAcl c op)
        let _ ← faulty fails (Steps.authrDbDelAcl c op)
        let _ ← faulty fails (Steps.authrDbPutAcl c op
          (Srvr.modifyUids srv.qsort orig set torm).1)
        pure (Srvr.modifyUids srv.qsort orig set torm).2 :
          Routine Fault FaultyDb (Option (List Uid))) := by
  rw [Steps.modAclOp, if_pos hreq, faulty, Prog.run_bind]
  congr 1
  funext orig
  show faulty fails (Steps.authrDbDelAcl c op >>= fun _ =>
    Steps.authrDbPutAcl c op (Srvr.modifyUids srv.qsort orig set torm).1 >>=
      fun _ => pure (Srvr.modifyUids srv.qsort orig set torm).2) = _
  rw [faulty, Prog.run_bind]
  congr 1
  funext _
  exact Prog.run_bind _ _ _

omit [DecidableEq Mac] in
/-- The turn of the loop of `mod_acl` stops before it changes the list. -/
theorem modAclOp_stops (h : fails n = true ∨ db.acl? c op = none ∨
      fails (n + 1) = true ∧ (db.acl? c op).isSome) :
    ∃ e m, faulty fails (Steps.modAclOp srv c containerOp set torm op) ⟨db, n⟩ =
      .error e ⟨db, m⟩ := by
  rw [faulty_modAclOp srv set torm hreq]
  by_cases hget : fails n = true ∨ db.acl? c op = none
  · obtain ⟨e, hrun⟩ := faulty_get_error hget
    exact ⟨e, _, bind_of_error hrun⟩
  · obtain ⟨hserved, -⟩ := not_or.mp hget
    obtain ⟨hfault, hthere⟩ := (or_assoc.mpr h).resolve_left hget
    obtain ⟨old, hold⟩ := Option.isSome_iff_exists.mp hthere
    rw [bind_of_ok (faulty_get_ok (Bool.eq_false_iff.mpr hserved) hold)]
    exact ⟨_, _, bind_of_error (faulty_del_fault hfault)⟩

variable {old : List Uid} (hold : db.acl? c op = some old)
  (hget : fails n = false) (hdel : fails (n + 1) = false)

include hold hget hdel

omit [DecidableEq Mac] in
/-- It loses the list. -/
theorem modAclOp_loses (hput : fails (n + 2) = true) :
    ∃ e, faulty fails (Steps.modAclOp srv c containerOp set torm op) ⟨db, n⟩ =
      .error e ⟨db.delAcl (getKey c op), n + 3⟩ := by
  have hmem := acl?_eq_some_mem hold
  rw [faulty_modAclOp srv set torm hreq, bind_of_ok (faulty_get_ok hget hold),
    bind_of_ok (faulty_del_ok hdel hmem)]
  have hrefused : Refused fails (db.delAcl (getKey c op)) (n + 2) c op :=
    .inl hput
  obtain ⟨e, hrun⟩ := faulty_put_error hrefused
    (Srvr.modifyUids srv.qsort old set torm).1
  exact ⟨e, bind_of_error hrun⟩

omit [DecidableEq Mac] in
/-- It replaces the list. -/
theorem modAclOp_replaces (hdb : db.Holds fun _ => True)
    (hput : fails (n + 2) = false) :
    faulty fails (Steps.modAclOp srv c containerOp set torm op) ⟨db, n⟩ =
      .ok (Srvr.modifyUids srv.qsort old set torm).2
        ⟨replaceAcl db c op (Srvr.modifyUids srv.qsort old set torm).1,
          n + 3⟩ := by
  have hmem := acl?_eq_some_mem hold
  have hkey := hdb.putKey_eq hmem
  have hgone : putKey c op ∉ (db.delAcl (getKey c op)).acls := by
    rw [hkey]
    simp
  rw [faulty_modAclOp srv set torm hreq, bind_of_ok (faulty_get_ok hget hold),
    bind_of_ok (faulty_del_ok hdel hmem),
    bind_of_ok (faulty_put_ok hput hgone _), hkey]
  rfl

end Turn

omit [DecidableEq Mac] in
theorem faulty_modLoop_cons (c : Cid) (containerOp : Opcode)
    (set torm : Option (List Uid)) (op : Opcode) (ops : List Opcode) :
    faulty fails ((op :: ops).foldlM (Steps.modAclOp srv c containerOp set)
        torm) =
      faulty fails (Steps.modAclOp srv c containerOp set torm op) >>= fun torm =>
        faulty fails (ops.foldlM (Steps.modAclOp srv c containerOp set)
          torm) := by
  rw [List.foldlM_cons]
  exact Prog.run_bind _ _ _

omit [DecidableEq Mac] in
theorem modLoop_atomic {db₀ : AclDb} {c : Cid} {containerOp : Opcode}
    {set : Option (List Uid)} {ops : List Opcode} (hops : ops.Nodup)
    {db : AclDb} (hdb : db.Holds fun _ => True) {n : ℕ}
    {torm : Option (List Uid)} {changed : Prop}
    (hchanged : changed ↔ ¬ SameRecords db₀ db)
    (hrest : ∀ op ∈ ops, db.acl? c op = db₀.acl? c op) :
    OnError (fun s => SameRecords db₀ s.db)
        (faulty fails (ops.foldlM (Steps.modAclOp srv c containerOp set) torm))
        ⟨db, n⟩ ↔
      ModAtomic fails db₀ srv.qsort c containerOp set changed n torm ops := by
  -- on the operations still to come; `changed` says whether those before have
  -- made the database another one
  induction ops generalizing db n torm changed with
  | nil => exact iff_of_true (onError_of_ok rfl) trivial
  | cons op ops ih =>
      obtain ⟨hop, hops⟩ := List.nodup_cons.mp hops
      obtain ⟨hfirst, hrest⟩ := List.forall_mem_cons.mp hrest
      rw [faulty_modLoop_cons, ModAtomic]
      by_cases hreq : requests containerOp op
      · rw [if_pos hreq]
        have hsame : SameRecords db₀ db ↔ ¬ changed := by
          rw [hchanged, not_not]
        cases hold₀ : db₀.acl? c op with
        | none =>
            obtain ⟨e, m, hrun⟩ := modAclOp_stops srv set torm hreq
              (.inr (.inl (hfirst.trans hold₀)))
            rw [onError_bind_of_error hrun, hsame]
        | some old =>
            have hold := hfirst.trans hold₀
            have hthere : (db.acl? c op).isSome = true := by
              rw [hold]
              rfl
            show _ ↔ (_ ∧ ¬ changed) ∨ _
            -- the get, the delete and the put of this operation may fail, in this order
            by_cases hget : fails n = true
            · obtain ⟨e, m, hrun⟩ := modAclOp_stops srv set torm hreq (.inl hget)
              rw [onError_bind_of_error hrun, hsame]
              simp [hget]
            by_cases hdel : fails (n + 1) = true
            · obtain ⟨e, m, hrun⟩ := modAclOp_stops srv set torm hreq
                (.inr (.inr ⟨hdel, hthere⟩))
              rw [onError_bind_of_error hrun, hsame]
              simp [hdel]
            have hget := Bool.eq_false_iff.mpr hget
            have hdel := Bool.eq_false_iff.mpr hdel
            cases hput : fails (n + 2) with
            | true =>
                -- deleted and not put back: the list is lost, whatever was changed before
                obtain ⟨e, hrun⟩ := modAclOp_loses srv set torm hreq hold hget
                  hdel hput
                rw [onError_bind_of_error hrun, sameRecords_delAcl hfirst]
                refine iff_of_false ?_ ?_
                · rintro ⟨-, hnone⟩
                  cases hold₀.symm.trans hnone
                · simp [hget, hdel]
            | false =>
                have hrun := modAclOp_replaces srv set torm hreq hold hget hdel
                  hdb hput
                have hlater : changed ∨
                    (Srvr.modifyUids srv.qsort old set torm).1 ≠ old ↔
                    ¬ SameRecords db₀ (replaceAcl db c op
                      (Srvr.modifyUids srv.qsort old set torm).1) := by
                  rw [sameRecords_replaceAcl hold hold₀, not_and_or, hchanged]
                have hkeep : ∀ op' ∈ ops, (replaceAcl db c op
                    (Srvr.modifyUids srv.qsort old set torm).1).acl? c op' =
                    db₀.acl? c op' := by
                  intro op' hop'
                  refine (acl?_replaceAcl_of_ne db _ ?_).trans (hrest op' hop')
                  intro heq
                  exact hop ((getKey_inj.mp heq).2 ▸ hop')
                rw [onError_bind_of_ok hrun, ih hops
                  (hdb.replaceAcl (acl?_eq_some_mem hold) trivial) hlater hkeep]
                simp [hget, hdel]
      · have hskip : faulty fails
            (Steps.modAclOp srv c containerOp set torm op) = pure torm := by
          rw [Steps.modAclOp, if_neg hreq]
          rfl
        rw [if_neg hreq, hskip, pure_bind]
        exact ih hops hdb hchanged hrest

theorem mod_atomic (hdb : db.Holds fun _ => True) (cid : Cid)
    (containerOp : Opcode) (set unset : Option (List Uid)) (cap : Cap Mac) :
    Atomic srv fails db (.mod cid containerOp set unset cap) ↔
      (Update.mod cid containerOp set unset cap).AtomicWhen srv fails db := by
  refine onError_after_checks.trans ?_
  by_cases henabled : srv.aclDbEnabled = true
  · show _ ↔ (srv.aclDbEnabled = true → ∀ s, _ → _)
    rw [forall_prop_of_true henabled]
    refine forall₂_congr fun s _ => ?_
    rw [if_pos henabled, faulty, Prog.run_bind]
    exact onError_bind_pure.trans (modLoop_atomic containerOps_nodup hdb
      (iff_of_false id (not_not.mpr (SameRecords.refl db))) fun _ _ => rfl)
  · refine iff_of_true (fun s _ => ?_) fun h => absurd h henabled
    rw [if_neg henabled]
    exact onError_of_ok rfl

/-! ### Every request -/

/-- The database after a request that was served by a database which fails to
serve some calls. -/
def faultyStep (srv : Srvr Key Mac) (db : AclDb)
    (request : (ℕ → Bool) × Update Mac) : AclDb :=
  ((faulty request.1 (request.2.prog srv)).final ⟨db, 0⟩).db

/-- What the requests put fits the buffer of the key. -/
def Fits (call : DbCall) : Prop :=
  ∀ key acl, call = .put key acl → key.length ≤ 15

theorem fits_put (c : Cid) (op : Opcode) (acl : List Uid) :
    Fits (.put (putKey c op) acl) := by
  intro key acl' heq
  obtain ⟨rfl, -⟩ := DbCall.put.inj heq
  exact length_putKey_le c op

theorem only_prog (update : Update Mac) : (update.prog srv).Only Fits := by
  have hget : ∀ key, Fits (.get key) := fun _ _ _ => DbCall.noConfusion
  have hdel : ∀ key, Fits (.del key) := fun _ _ _ => DbCall.noConfusion
  cases update with
  | create cid cap =>
      exact Prog.only_bind (only_createContainer srv hget
        (fun _ _ => DbCall.noConfusion) (fun _ _ _ => DbCall.noConfusion)
        fits_put _ cid cap) fun _ => trivial
  | remove cid cap =>
      exact only_removeContainer srv hget (fun _ => hdel _) cap
  | mod cid containerOp set unset cap =>
      exact only_modAcl srv hget (fun _ => hdel _) (fits_put cid) containerOp
        set unset cap

theorem holds_exec {call : DbCall} (hcall : Fits call) (fault : Bool)
    {db : AclDb} (hdb : db.Holds fun _ => True) :
    (call.exec fault db).2.Holds fun _ => True := by
  cases call with
  | get key => exact hdb
  | put key acl =>
      simp only [DbCall.exec]
      split
      · exact hdb
      · split
        · exact hdb
        · exact hdb.putAcl (hcall key acl rfl) trivial
  | del key =>
      simp only [DbCall.exec]
      split
      · exact hdb
      · split
        · exact hdb.delAcl key
        · exact hdb
  | getCid => exact hdb
  | putCid cid =>
      cases fault with
      | true => exact hdb
      | false => exact hdb

theorem faultyStep_holds (db : AclDb) (request : (ℕ → Bool) × Update Mac)
    (hdb : db.Holds fun _ => True) :
    (faultyStep srv db request).Holds fun _ => True := by
  have hkeep : ∀ call, Fits call → ∀ s : FaultyDb,
      Keeps (fun s : FaultyDb => s.db.Holds fun _ => True) s
        (FaultyDb.exec request.1 call s).2 :=
    fun call hcall s hs => holds_exec hcall _ hs
  exact Prog.within_run hkeep (only_prog request.2) ⟨db, 0⟩ hdb

/-- In every database that requests lead to, whatever calls of the database
have failed, a request is atomic exactly under its condition. -/
theorem atomic_iff (srv : Srvr Key Mac) (run : List ((ℕ → Bool) × Update Mac))
    (fails : ℕ → Bool) (update : Update Mac) :
    let db := Run.exec (faultyStep srv) AclDb.empty run
    Atomic srv fails db update ↔ update.AtomicWhen srv fails db := by
  intro db
  have hdb : db.Holds fun _ => True :=
    Run.exec_invariant_of_step faultyStep_holds (holds_empty _) run
  cases update with
  | create cid cap => exact create_atomic cid cap
  | remove cid cap => exact remove_atomic cid cap
  | mod cid containerOp set unset cap => exact mod_atomic hdb _ _ _ _ _

end Update

/-- A container whose id the server has drawn has no record. Its removal
deletes the lists, and fails. -/
theorem not_atomic :
    ¬ ∀ (run : List ((ℕ → Bool) × Update (List UInt8))) fails update,
      Atomic plainSrvr fails (Run.exec (faultyStep plainSrvr) AclDb.empty run)
        update := by
  intro h
  have hremove := h
    [(fun _ => false, .create cidAny (ownerCap plainSrvr 0 plainCred))]
    (fun _ => false) (.remove 1 (ownerCap plainSrvr 1 plainCred)) _ _ rfl
  exact absurd (hremove (getKey 1 containerRead)) (by decide)

end Lwfs.Authr
