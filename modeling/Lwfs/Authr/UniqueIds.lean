import Lwfs.Authr.Lifecycle
import Lwfs.Authr.Steps
import Lwfs.Lib.Interleave
import Mathlib.Data.Fin.VecNotation

/-!
Containers that are made and removed at the same time.

Two creators can draw the same id, since the counter is read and written in
two steps, and both can find that the container does not exist. What keeps
them apart is that a list is not put over another one: of two creators that
both succeed, one has put its lists after those of the other were deleted.
-/

namespace Lwfs.Authr

open SysLib Prog

section Calls

variable {Key Mac : Type} [DecidableEq Mac]

/-- A request to make or to remove a container. -/
inductive ContainerCall (Mac : Type)
  | create (fuel : ℕ) (cid : Cid) (cap : Cap Mac)
  | remove (cid : Cid) (cap : Cap Mac)
  deriving DecidableEq

/-- The steps of a request, and the capability it returns, if any. -/
def ContainerCall.prog (srv : Srvr Key Mac) :
    ContainerCall Mac → DbProg (Option (Cap Mac))
  | create fuel cid cap => do
      let newCap ← Steps.createContainer srv fuel cid cap
      pure (some newCap)
  | remove cid cap => do
      Steps.removeContainer srv cid cap
      pure none

end Calls

/-! ### What the calls of a request show -/

section Follows

variable {cid : Cid} {l : List (Answered DbCall DbCall.Reply)}

theorem follows_authrDbPutAcl {op : Opcode} {acl : List Uid} {u : Unit}
    (h : Follows l (Steps.authrDbPutAcl cid op acl) (.ret u)) :
    l = [⟨.put (putKey cid op) acl, PutReply.stored⟩] := by
  cases l with
  | nil => cases follows_nil.mp h
  | cons x l =>
      obtain ⟨r, rfl, hl⟩ := h
      cases r with
      | stored =>
          obtain ⟨rfl, -⟩ := follows_ret.mp hl
          rfl
      | keyexist => cases (follows_fail.mp hl).2
      | failed => cases (follows_fail.mp hl).2

/-- Whoever puts the lists of a container has put each of them. -/
theorem follows_createAcls {uid : Uid} {ops : List Opcode} {u : PUnit}
    (h : Follows l (ops.forM (Steps.createAcl cid uid)) (.ret u)) :
    ∀ op ∈ ops, ∃ acl,
      (⟨.put (putKey cid op) acl, PutReply.stored⟩ :
        Answered DbCall DbCall.Reply) ∈ l := by
  induction ops generalizing l with
  | nil => exact fun op hop => absurd hop List.not_mem_nil
  | cons op ops ih =>
      have hcons : (op :: ops).forM (Steps.createAcl cid uid) =
          Steps.createAcl cid uid op >>= fun _ =>
            ops.forM (Steps.createAcl cid uid) := rfl
      rw [hcons, follows_bind_ret] at h
      obtain ⟨v, l₁, l₂, rfl, hput, hrest⟩ := h
      obtain ⟨acl, hl₁⟩ : ∃ acl,
          l₁ = [⟨.put (putKey cid op) acl, PutReply.stored⟩] := by
        rw [Steps.createAcl] at hput
        split at hput
        · exact ⟨_, follows_authrDbPutAcl hput⟩
        · exact ⟨_, follows_authrDbPutAcl hput⟩
      intro op' hop'
      rcases List.mem_cons.mp hop' with rfl | hop'
      · refine ⟨acl, List.mem_append_left _ ?_⟩
        rw [hl₁]
        exact List.mem_singleton_self _
      · obtain ⟨acl', hmem⟩ := ih hrest op' hop'
        exact ⟨acl', List.mem_append_right _ hmem⟩

variable {Key Mac : Type} {srv : Srvr Key Mac}

theorem follows_createContainer (henabled : srv.aclDbEnabled = true)
    {fuel : ℕ} {cap newCap : Cap Mac}
    (h : Follows l (Steps.createContainer srv fuel cid cap) (.ret newCap)) :
    ∀ op ∈ containerOps, ∃ acl,
      (⟨.put (putKey newCap.data.cid op) acl, PutReply.stored⟩ :
        Answered DbCall DbCall.Reply) ∈ l := by
  obtain ⟨c, l₁, l₂, rfl, -, h⟩ := follows_bind_ret.mp h
  obtain ⟨u, l₃, l₄, rfl, hacls, hret⟩ := follows_bind_ret.mp h
  obtain ⟨-, heq⟩ := follows_ret.mp hret
  obtain rfl := Prog.ret.inj heq
  rw [Steps.createAcls, if_pos henabled] at hacls
  intro op hop
  obtain ⟨acl, hmem⟩ := follows_createAcls hacls op hop
  exact ⟨acl, List.mem_append_right _ (List.mem_append_left _ hmem)⟩

end Follows

/-! ### Who deletes what -/

section Deletes

variable {Key Mac : Type} [DecidableEq Mac] (srv : Srvr Key Mac)

/-- What `check_authorization` asks before it looks at the lists. -/
def Srvr.Admits (srv : Srvr Key Mac) (cid : Cid) (containerOp : Opcode)
    (cap : Cap Mac) : Prop :=
  cap.data.cid = cid ∧ requests containerOp cap.data.containerOp ∧
    srv.credsEnabled = false ∧ (srv.capsEnabled = true →
      verifyCap srv.hmac srv.authrSvcKey cap = .ok ())

theorem checkAuthorization_of_not_admits {cid : Cid} {containerOp : Opcode}
    {cap : Cap Mac} (h : ¬ srv.Admits cid containerOp cap) :
    ∃ e, Steps.checkAuthorization srv cid containerOp cap = .fail e := by
  rw [Steps.checkAuthorization]
  by_cases hcid : cap.data.cid = cid
  · rw [if_neg (not_not.mpr hcid)]
    by_cases hop : requests containerOp cap.data.containerOp
    · rw [if_neg (not_not.mpr hop), Steps.checkCred]
      cases hcreds : srv.credsEnabled with
      | true => exact ⟨_, rfl⟩
      | false =>
          have hcap : ¬ (srv.capsEnabled = true →
              verifyCap srv.hmac srv.authrSvcKey cap = .ok ()) := fun hcap =>
            h ⟨hcid, hop, hcreds, hcap⟩
          obtain ⟨hcaps, hverify⟩ := Classical.not_imp.mp hcap
          rw [Steps.checkCap, if_pos hcaps]
          cases hrun : verifyCap srv.hmac srv.authrSvcKey cap with
          | ok u => exact absurd hrun hverify
          | error e => exact ⟨e, rfl⟩
    · rw [if_pos hop]
      exact ⟨_, rfl⟩
  · rw [if_pos hcid]
    exact ⟨_, rfl⟩

/-- A request that is not admitted makes no call. -/
theorem only_removeContainer_of_not_admits {cid : Cid} {cap : Cap Mac}
    (h : ¬ srv.Admits cid containerRemove cap) {P : DbCall → Prop} :
    (Steps.removeContainer srv cid cap).Only P := by
  obtain ⟨e, he⟩ := checkAuthorization_of_not_admits srv h
  rw [Steps.removeContainer, he]
  trivial

/-- The lists under the key of a container are deleted by those who remove a
container whose id has the same low bits. -/
theorem deleter_of_mem {cid : Cid} {op : Opcode} {call : ContainerCall Mac}
    {q : DbProg (Option (Cap Mac))}
    {l : List (Answered DbCall DbCall.Reply)}
    (h : Follows l (call.prog srv) q) {r : DelReply}
    (hmem : (⟨.del (putKey cid op), r⟩ : Answered DbCall DbCall.Reply) ∈ l) :
    ∃ d cap, call = .remove d cap ∧ srv.Admits d containerRemove cap ∧
      d.toUInt32 = cid.toUInt32 := by
  cases call with
  | create fuel d cap =>
      have honly : (ContainerCall.prog srv (.create fuel d cap)).Only
          (· ≠ .del (putKey cid op)) :=
        only_bind (only_createContainer srv (fun _ => DbCall.noConfusion)
          DbCall.noConfusion (fun _ => DbCall.noConfusion)
          (fun _ _ _ => DbCall.noConfusion) fuel d cap) fun _ => trivial
      exact absurd rfl (honly.of_follows h _ hmem)
  | remove d cap =>
      refine ⟨d, cap, rfl, ?_⟩
      by_contra hnot
      have honly : (ContainerCall.prog srv (.remove d cap)).Only
          (· ≠ .del (putKey cid op)) := by
        refine only_bind ?_ fun _ => trivial
        by_cases hadmits : srv.Admits d containerRemove cap
        · refine only_removeContainer srv (fun _ => DbCall.noConfusion) ?_ cap
          intro op' heq
          have hkey := DbCall.del.inj heq
          exact hnot ⟨hadmits, (low_eq_of_putKey hkey.symm).symm⟩
        · exact only_removeContainer_of_not_admits srv hadmits
      exact absurd rfl (honly.of_follows h _ hmem)

end Deletes

/-! ### Between two puts -/

section Between

variable {ι : Type} {fails : ℕ → Bool} {s t : FaultyDb} {key : Keystr}
  {l₁ l₂ l₃ : List (Event ι DbCall DbCall.Reply)}

/-- The list has been deleted by `k` between the puts of `i` and `j`. -/
def DeletedBetween (h : List (Event ι DbCall DbCall.Reply)) (i j k : ι)
    (key : Keystr) : Prop :=
  ∃ l₁ l₂ l₃ acl acl',
    h = l₁ ++ ⟨i, .put key acl, PutReply.stored⟩ :: l₂ ++
      ⟨j, .put key acl', PutReply.stored⟩ :: l₃ ∧
    ⟨k, .del key, DelReply.deleted⟩ ∈ l₂

/-- Of a list that is put when it is there already, nothing is stored. -/
theorem put_of_stored {acl : List Uid}
    (hput : (FaultyDb.exec fails (.put key acl) s).1 = .stored) :
    key ∉ s.db.acls ∧
      key ∈ (FaultyDb.exec fails (.put key acl) s).2.db.acls := by
  simp only [FaultyDb.exec, DbCall.exec] at hput ⊢
  split at hput
  · cases hput
  · split at hput
    · cases hput
    · next hfails hkey =>
      refine ⟨hkey, ?_⟩
      rw [if_neg hfails, if_neg hkey]
      exact (AList.mem_insert _).mpr (.inl rfl)

/-- So a list that is put twice has been deleted in between. -/
theorem deleted_between {i j : ι} {acl acl' : List Uid}
    (hst : Explains (FaultyDb.exec fails) s
      (l₁ ++ ⟨i, .put key acl, PutReply.stored⟩ :: l₂ ++
        ⟨j, .put key acl', PutReply.stored⟩ :: l₃) t) :
    ∃ k, (⟨k, .del key, DelReply.deleted⟩ : Event ι DbCall DbCall.Reply) ∈
      l₂ := by
  by_contra hnone
  obtain ⟨u, hst, hput', -⟩ := explains_append.mp hst
  obtain ⟨v, -, hput, hst⟩ := explains_append.mp hst
  have hkey : key ∈ u.db.acls := by
    have hkeep : ∀ e ∈ l₂, ∀ s : FaultyDb, key ∈ s.db.acls →
        (FaultyDb.exec fails e.call s).1 = e.reply →
          key ∈ (FaultyDb.exec fails e.call s).2.db.acls := by
      rintro ⟨k, c, r⟩ he s hs hr
      apply mem_exec hs
      intro heq
      obtain ⟨rfl, hreply⟩ := Sigma.mk.inj heq
      obtain rfl : r = .deleted := hr.symm.trans (eq_of_heq hreply)
      exact hnone ⟨k, he⟩
    exact hst.invariant hkeep (put_of_stored hput).2
  exact (put_of_stored hput').1 hkey

end Between

/-! ### Unique ids -/

section World

variable {Key Mac : Type} [DecidableEq Mac] {ι : Type} [DecidableEq ι]

/-- The database and the requests that are being served. -/
abbrev Service (ι Mac : Type) :=
  World ι FaultyDb DbCall DbCall.Reply Fault (Option (Cap Mac))

/-- The requests are served on the database, in steps that interleave as the
schedule says. -/
def serve (srv : Srvr Key Mac) (fails : ℕ → Bool) (db : AclDb)
    (calls : ι → ContainerCall Mac) (schedule : List ι) : Service ι Mac :=
  Run.exec (World.step (FaultyDb.exec fails))
    (World.start ⟨db, 0⟩ fun k => (calls k).prog srv) schedule

theorem serve_consistent (srv : Srvr Key Mac) (fails : ℕ → Bool) (db : AclDb)
    (calls : ι → ContainerCall Mac) (schedule : List ι) :
    Consistent (FaultyDb.exec fails) ⟨db, 0⟩ (fun k => (calls k).prog srv)
      (serve srv fails db calls schedule) :=
  consistent_run _ _ _ _

/-- Of two creators that have returned the same id, one has put each list of
the container after some call to remove that container had deleted the list of
the other. -/
def KeptApart (calls : ι → ContainerCall Mac) (w : Service ι Mac) (c : Cid) :
    Prop :=
  ∀ i j capi capj, i ≠ j → w.procs i = .ret (some capi) →
    w.procs j = .ret (some capj) → capi.data.cid = c → capj.data.cid = c →
      ∀ op ∈ containerOps, ∃ k cap, calls k = .remove c cap ∧
        (DeletedBetween w.history i j k (putKey c op) ∨
          DeletedBetween w.history j i k (putKey c op))

/-- Whoever has returned a new container has put all its lists. -/
theorem put_of_returned {srv : Srvr Key Mac}
    (henabled : srv.aclDbEnabled = true) {call : ContainerCall Mac}
    {l : List (Answered DbCall DbCall.Reply)} {cap : Cap Mac}
    (h : Follows l (call.prog srv) (.ret (some cap))) :
    ∀ op ∈ containerOps, ∃ acl,
      (⟨.put (putKey cap.data.cid op) acl, PutReply.stored⟩ :
        Answered DbCall DbCall.Reply) ∈ l := by
  cases call with
  | create fuel cid cap' =>
      obtain ⟨newCap, l₁, l₂, rfl, hcreate, hret⟩ := follows_bind_ret.mp h
      obtain ⟨-, heq⟩ := follows_ret.mp hret
      obtain rfl := Option.some.inj (Prog.ret.inj heq)
      intro op hop
      obtain ⟨acl, hmem⟩ := follows_createContainer henabled hcreate op hop
      exact ⟨acl, List.mem_append_left _ hmem⟩
  | remove cid cap' =>
      obtain ⟨u, l₁, l₂, rfl, -, hret⟩ := follows_bind_ret.mp h
      obtain ⟨-, heq⟩ := follows_ret.mp hret
      cases Prog.ret.inj heq

/-- Between two puts of a list, somebody removes a container whose id has the
same low bits. -/
theorem remover_between {srv : Srvr Key Mac} {fails : ℕ → Bool} {db : AclDb}
    {calls : ι → ContainerCall Mac} {schedule : List ι} {i j : ι} {c : Cid}
    {op : Opcode} {acl acl' : List Uid}
    {l₁ l₂ l₃ : List (Event ι DbCall DbCall.Reply)}
    (heq : (serve srv fails db calls schedule).history =
      l₁ ++ ⟨i, .put (putKey c op) acl, PutReply.stored⟩ :: l₂ ++
        ⟨j, .put (putKey c op) acl', PutReply.stored⟩ :: l₃) :
    ∃ k d cap, calls k = .remove d cap ∧ srv.Admits d containerRemove cap ∧
      d.toUInt32 = c.toUInt32 ∧
        DeletedBetween (serve srv fails db calls schedule).history i j k
          (putKey c op) := by
  have hw := serve_consistent srv fails db calls schedule
  have hst := hw.explains
  rw [heq] at hst
  obtain ⟨k, hmem⟩ := deleted_between hst
  have hk : (⟨.del (putKey c op), DelReply.deleted⟩ :
      Answered DbCall DbCall.Reply) ∈
      own k (serve srv fails db calls schedule).history := by
    rw [mem_own, heq]
    simp [hmem]
  obtain ⟨d, cap, hcall, hadmits, hbits⟩ :=
    deleter_of_mem srv (hw.follows k) hk
  exact ⟨k, d, cap, hcall, hadmits, hbits, l₁, l₂, l₃, acl, acl', heq, hmem⟩

theorem keptApart_of_lowBits (srv : Srvr Key Mac)
    (henabled : srv.aclDbEnabled = true) (fails : ℕ → Bool) (db : AclDb)
    (calls : ι → ContainerCall Mac) (schedule : List ι) (c : Cid)
    (hlow : ∀ k d cap, calls k = .remove d cap →
      srv.Admits d containerRemove cap → d.toUInt32 = c.toUInt32 → d = c) :
    KeptApart calls (serve srv fails db calls schedule) c := by
  rintro i j capi capj hne hi hj rfl hcid op hop
  have hw := serve_consistent srv fails db calls schedule
  obtain ⟨acl, hputi⟩ :=
    put_of_returned henabled (hi ▸ hw.follows i) op hop
  obtain ⟨acl', hputj⟩ :=
    put_of_returned henabled (hj ▸ hw.follows j) op hop
  rw [hcid] at hputj
  obtain ⟨l₁, l₂, l₃, heq | heq⟩ := exists_between (mem_own.mp hputi)
    (mem_own.mp hputj) (fun heq => hne (congrArg Event.who heq))
  · obtain ⟨k, d, cap, hk, hadmits, hbits, hdel⟩ := remover_between heq
    obtain rfl := hlow k d cap hk hadmits hbits
    exact ⟨k, cap, hk, .inl hdel⟩
  · obtain ⟨k, d, cap, hk, hadmits, hbits, hdel⟩ := remover_between heq
    obtain rfl := hlow k d cap hk hadmits hbits
    exact ⟨k, cap, hk, .inr hdel⟩

end World

/-- Container 1 is made twice, and in between a container is removed. -/
def makeRemoveMake (removed : Cid) : Fin 3 → ContainerCall (List UInt8) :=
  ![.create 1 1 (ownerCap plainSrvr 0 plainCred),
    .remove removed (ownerCap plainSrvr removed plainCred),
    .create 1 1 (ownerCap plainSrvr 0 plainCred)]

def madeRemovedMade : Fin 3 → Option (Cap (List UInt8)) :=
  ![some (ownerCap plainSrvr 1 plainCred), none,
    some (ownerCap plainSrvr 1 plainCred)]

theorem return_makeRemoveMake {removed : Cid}
    (h : removed = 1 ∨ removed = 0x100000001) :
    Return (FaultyDb.exec fun _ => false)
      (fun k => (makeRemoveMake removed k).prog plainSrvr) madeRemovedMade
      ⟨AclDb.empty, 0⟩ [0, 1, 2] := by
  rcases h with rfl | rfl
  · exact ⟨rfl, rfl, rfl, trivial⟩
  · exact ⟨rfl, rfl, rfl, trivial⟩

theorem exists_makeRemoveMake {removed : Cid}
    (h : removed = 1 ∨ removed = 0x100000001) :
    ∃ schedule, ∀ k,
      (serve plainSrvr (fun _ => false) AclDb.empty (makeRemoveMake removed)
        schedule).procs k = .ret (madeRemovedMade k) := by
  have hnodup : ([0, 1, 2] : List (Fin 3)).Nodup := by decide
  obtain ⟨schedule, hret, -⟩ := exists_schedule hnodup
    (w := World.start (⟨AclDb.empty, 0⟩ : FaultyDb) fun k =>
      (makeRemoveMake removed k).prog plainSrvr) (return_makeRemoveMake h)
  have hall : ∀ k : Fin 3, k ∈ [0, 1, 2] := by decide
  exact ⟨schedule, fun k => hret k (hall k)⟩

/-- Where container 1 itself is removed. -/
theorem keptApart_of_remove :
    ∃ schedule,
      let w := serve plainSrvr (fun _ => false) AclDb.empty (makeRemoveMake 1)
        schedule
      (∀ k, w.procs k = .ret (madeRemovedMade k)) ∧
        KeptApart (makeRemoveMake 1) w 1 := by
  obtain ⟨schedule, hret⟩ := exists_makeRemoveMake (.inl rfl)
  refine ⟨schedule, hret, ?_⟩
  apply keptApart_of_lowBits plainSrvr rfl
  intro k d cap hk _ _
  match k with
  | 0 => cases hk
  | 1 => exact (ContainerCall.remove.inj hk).1.symm
  | 2 => cases hk

/-- Where another container is removed, whose id has the same low bits. -/
theorem not_keptApart :
    ¬ ∀ (calls : Fin 3 → ContainerCall (List UInt8)) schedule,
      KeptApart calls
        (serve plainSrvr (fun _ => false) AclDb.empty calls schedule) 1 := by
  intro h
  obtain ⟨schedule, hret⟩ := exists_makeRemoveMake (.inr rfl)
  obtain ⟨k, cap, hk, -⟩ := h _ schedule 0 2 _ _ (by decide) (hret 0) (hret 2)
    rfl rfl containerRead (by decide)
  match k with
  | 0 => cases hk
  | 1 => exact absurd (ContainerCall.remove.inj hk).1 (by decide)
  | 2 => cases hk

end Lwfs.Authr
