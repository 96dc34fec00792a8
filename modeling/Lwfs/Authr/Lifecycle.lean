import Lwfs.Authr.AccessDecision
import Lwfs.Authr.Keys

/-!
The life of a container.

A container that has been created has a list for each operation, with its
owner on three of them. The lists stay as they are until a request modifies or
removes the lists of a container with the same low bits. Whether the container
can be removed again depends on the record of its existence, which is made
only where the caller has chosen the id.
-/

namespace Lwfs.Authr

open SysLib Routine

variable {Key Mac : Type} {srv : Srvr Key Mac}

/-! ### What a new container has -/

/-- The list that `create_container` puts for an operation. -/
def initialAcl (uid : Uid) (testop : Opcode) : List Uid :=
  if requests Srvr.ownerOps testop then [uid] else []

theorem createAcl_eq (cid : Cid) (uid : Uid) (testop : Opcode) :
    Srvr.createAcl cid uid testop =
      authrDbPutAcl cid testop (initialAcl uid testop) := by
  rw [Srvr.createAcl, initialAcl]
  split <;> rfl

theorem forM_createAcl_grows (cid : Cid) (uid : Uid) (ops : List Opcode) :
    Within Grows (ops.forM (Srvr.createAcl cid uid)) := by
  refine within_forM (fun testop => ?_) ops
  rw [createAcl_eq]
  exact authrDbPutAcl_grows cid testop _

/-- Every list that the loop has put is there after it. -/
theorem lookup_of_createAcls {cid : Cid} {uid : Uid} {ops : List Opcode}
    {db db' : AclDb} {u : PUnit}
    (h : ops.forM (Srvr.createAcl cid uid) db = .ok u db') :
    ∀ op ∈ ops, db'.acls.lookup (putKey cid op) = some (initialAcl uid op) := by
  induction ops generalizing db with
  | nil => exact fun op hop => absurd hop List.not_mem_nil
  | cons op ops ih =>
      have hcons : (op :: ops).forM (Srvr.createAcl cid uid) =
          Srvr.createAcl cid uid op >>= fun _ =>
            ops.forM (Srvr.createAcl cid uid) := rfl
      rw [hcons, bind_eq_ok] at h
      obtain ⟨_, mid, hput, hrest⟩ := h
      rw [createAcl_eq, authrDbPutAcl_eq_ok] at hput
      obtain ⟨-, rfl⟩ := hput
      intro op' hop'
      rcases List.mem_cons.mp hop' with rfl | hop'
      · exact within_of_ok (forM_createAcl_grows cid uid ops) hrest _ _
          (AList.lookup_insert db.acls)
      · exact ih hrest op' hop'

theorem createContainer_eq_ok {cid : Cid} {cap newCap : Cap Mac}
    {db db' : AclDb} :
    srv.createContainer cid cap db = .ok newCap db' ↔
      ∃ c db₁, authrDbCreateContainer cid db = .ok c db₁ ∧
        srv.createAcls c cap.data.cred.uid db₁ = .ok () db' ∧
        newCap = generateCap srv.hmac srv.authrSvcKey
          { cid := c, containerOp := Srvr.ownerOps, cred := cap.data.cred } := by
  simp only [Srvr.createContainer, bind_eq_ok, pure_eq_ok]
  constructor
  · rintro ⟨c, db₁, hnew, _, _, hacls, rfl, rfl⟩
    exact ⟨c, db₁, hnew, hacls, rfl⟩
  · rintro ⟨c, db₁, hnew, hacls, rfl⟩
    exact ⟨c, db₁, hnew, (), db', hacls, rfl, rfl⟩

theorem mem_usedOps_of_containerOps {op : Opcode} (hop : op ∈ containerOps) :
    op ∈ usedOps := List.mem_cons_of_mem _ hop

/-- The lists of a container that has just been created. -/
theorem acl?_of_createContainer (henabled : srv.aclDbEnabled = true)
    {cid : Cid} {cap newCap : Cap Mac} {db db' : AclDb}
    (h : srv.createContainer cid cap db = .ok newCap db')
    (hshort : Short newCap.data.cid) {op : Opcode} (hop : op ∈ containerOps) :
    db'.acl? newCap.data.cid op = some (initialAcl cap.data.cred.uid op) := by
  obtain ⟨c, db₁, -, hacls, rfl⟩ := createContainer_eq_ok.mp h
  rw [Srvr.createAcls, if_pos henabled] at hacls
  have hkey : putKey c op = getKey c op :=
    (putKey_eq_getKey (mem_usedOps_of_containerOps hop)).mpr hshort
  have hlookup := lookup_of_createAcls hacls op hop
  rw [hkey] at hlookup
  exact hlookup

/-! ### How long its lists stay -/

variable [DecidableEq Mac]

/-- The container whose lists a request modifies or removes. -/
def Request.revises : Request Mac → Option Cid
  | .removeContainer cid _ => some cid
  | .modAcl cid _ _ _ _ => some cid
  | _ => none

/-- The lists of the container that are there stay. -/
def KeepsLists (c : Cid) (db db' : AclDb) : Prop :=
  ∀ op acl, db.acl? c op = some acl → db'.acl? c op = some acl

theorem KeepsLists.trans {c : Cid} {db db' db'' : AclDb}
    (h : KeepsLists c db db') (h' : KeepsLists c db' db'') :
    KeepsLists c db db'' :=
  fun op acl hacl => h' op acl (h op acl hacl)

theorem Grows.keepsLists {db db' : AclDb} (h : Grows db db') (c : Cid) :
    KeepsLists c db db' :=
  fun _ acl hacl => h _ acl hacl

theorem Elsewhere.keepsLists {low : UInt32} {db db' : AclDb}
    (h : Elsewhere low db db') {c : Cid} (hc : c.toUInt32 ≠ low) :
    KeepsLists c db db' := by
  intro op acl hacl
  rw [h c op hc, hacl]

/-- A request that does not revise the lists of a container with the same low
bits keeps the lists that are there. -/
theorem step_keepsLists (srv : Srvr Key Mac) {c : Cid} {req : Request Mac}
    (h : ∀ d ∈ req.revises, c.toUInt32 ≠ d.toUInt32) (db : AclDb) :
    KeepsLists c db (srv.step db req) := by
  cases req with
  | createContainer cid cap =>
      exact Grows.keepsLists (createContainer_grows srv cid cap db) c
  | removeContainer cid cap =>
      exact Elsewhere.keepsLists (removeContainer_elsewhere srv cid cap db)
        (h cid rfl)
  | modAcl cid containerOp set unset cap =>
      exact Elsewhere.keepsLists
        (modAcl_elsewhere srv cid containerOp set unset cap db) (h cid rfl)
  | getAcl cid containerOp cap =>
      have hgrows : Within Grows (srv.getAcl cid containerOp cap) :=
        getAcl_within srv cid containerOp cap
      exact (hgrows db).keepsLists c
  | getCap cid containerOp cred =>
      have hgrows : Within Grows (srv.getCap cid containerOp cred) :=
        getCap_within srv cid containerOp cred
      exact (hgrows db).keepsLists c
  | verifyCaps caps =>
      have hgrows : Within Grows (srv.verifyCaps caps) :=
        verifyCaps_within srv caps
      exact (hgrows db).keepsLists c

theorem exec_keepsLists (srv : Srvr Key Mac) {c : Cid}
    {run : List (Request Mac)}
    (h : ∀ req ∈ run, ∀ d ∈ req.revises, c.toUInt32 ≠ d.toUInt32)
    (db : AclDb) : KeepsLists c db (Run.exec srv.step db run) := by
  induction run generalizing db with
  | nil => exact fun _ _ hacl => hacl
  | cons req run ih =>
      obtain ⟨hreq, hrun⟩ := List.forall_mem_cons.mp h
      exact (step_keepsLists srv hreq db).trans (ih hrun _)

/-! ### Whom a new container admits -/

/-- The operations of a container. -/
def accessOps : List Opcode :=
  [containerModacl, containerRemove, containerRead, containerWrite,
    containerExec]

theorem mem_accessOps {op : Opcode} :
    op ∈ accessOps ↔ op ∈ containerOps ∧ op ≠ containerCreate := by
  have hops : containerOps = containerCreate :: accessOps := rfl
  have hnot : containerCreate ∉ accessOps := by decide
  rw [hops, List.mem_cons]
  constructor
  · intro h
    exact ⟨.inr h, fun heq => hnot (heq ▸ h)⟩
  · rintro ⟨rfl | h, hne⟩
    · exact absurd rfl hne
    · exact h

theorem probed_one_zero : Probed 1 0 := ⟨Nat.one_pos, 0, rfl⟩

/-- The search finds the owner in the lists that name it, and nobody in the
others. -/
theorem atProbed_initialAcl {db : AclDb} {c : Cid} {u v : Uid} {op : Opcode}
    (h : db.acl? c op = some (initialAcl u op)) :
    AtProbed db c v op ↔ requests Srvr.ownerOps op ∧ v = u := by
  simp only [AtProbed, h, Option.mem_def, Option.some.injEq,
    exists_eq_left', initialAcl]
  split
  · next hop =>
    constructor
    · rintro ⟨i, -, hi⟩
      have hmem := List.mem_of_getElem? hi
      exact ⟨hop, List.mem_singleton.mp hmem⟩
    · rintro ⟨-, rfl⟩
      exact ⟨0, probed_one_zero, rfl⟩
  · next hop =>
    refine iff_of_false ?_ (fun hand => hop hand.1)
    rintro ⟨i, -, hi⟩
    exact List.not_mem_nil (List.mem_of_getElem? hi)

/-- The checks for a container whose lists are the initial ones. -/
theorem forRequested_initialAcl {db : AclDb} {c : Cid} {u : Uid}
    (h : ∀ op ∈ containerOps, db.acl? c op = some (initialAcl u op))
    {m : Opcode} (hm : ∃ op ∈ accessOps, requests m op) (v : Uid) :
    ForRequested m (AtProbed db c v) ↔
      v = u ∧ ¬ requests m containerWrite ∧ ¬ requests m containerExec := by
  constructor
  · intro hall
    have howner : ∀ op ∈ accessOps, requests m op →
        requests Srvr.ownerOps op ∧ v = u := by
      intro op hop hreq
      obtain ⟨hmem, hne⟩ := mem_accessOps.mp hop
      exact (atProbed_initialAcl (h op hmem)).mp (hall op hmem hne hreq)
    obtain ⟨op, hop, hreq⟩ := hm
    refine ⟨(howner op hop hreq).2, ?_, ?_⟩
    · intro hwrite
      exact absurd (howner _ (by decide) hwrite).1 (by decide)
    · intro hexec
      exact absurd (howner _ (by decide) hexec).1 (by decide)
  · rintro ⟨rfl, hwrite, hexec⟩ op hmem hne hreq
    refine (atProbed_initialAcl (h op hmem)).mpr ⟨?_, rfl⟩
    -- the operations left are those of the owner
    have hop := mem_accessOps.mpr ⟨hmem, hne⟩
    simp only [accessOps, List.mem_cons, List.not_mem_nil, or_false] at hop
    rcases hop with rfl | rfl | rfl | rfl | rfl
    · rfl
    · rfl
    · rfl
    · exact absurd hreq hwrite
    · exact absurd hreq hexec

theorem toNat_toUInt32 {c : Cid} (h : c.toNat < 2147483648) :
    c.toUInt32.toNat = c.toNat := by
  rw [UInt64.toNat_toUInt32]
  omega

theorem short_of_lt {c : Cid} (h : c.toNat < 2147483648) : Short c := by
  have hnat : c.toUInt32.toBitVec.toNat = c.toNat := toNat_toUInt32 h
  have hint : c.toUInt32.toInt32.toInt = (c.toNat : ℤ) := by
    show c.toUInt32.toBitVec.toInt = _
    rw [BitVec.toInt_eq_toNat_of_lt (by omega), hnat]
  rw [Short, hint]
  omega

theorem low_inj {c d : Cid} (hc : c.toNat < 2147483648)
    (hd : d.toNat < 2147483648) (h : c.toUInt32 = d.toUInt32) : c = d := by
  apply UInt64.toNat_inj.mp
  rw [← toNat_toUInt32 hc, ← toNat_toUInt32 hd, h]

/-- As long as nothing has been done to its lists, a new container admits its
owner, to everything but writing and executing, and nobody else. -/
theorem getCap_of_fresh (key : Key) (hmac : Key → List UInt8 → Mac)
    (qsort : Qsort Uid) (before after : List (Request Mac)) {cid : Cid}
    {cap newCap : Cap Mac} {db : AclDb}
    (hcreate : (Srvr.init true key hmac qsort).createContainer cid cap
      (Run.exec (Srvr.init true key hmac qsort).step AclDb.empty before) =
        .ok newCap db)
    (hnew : newCap.data.cid.toNat < 2147483648)
    (hafter : ∀ req ∈ after, ∀ d ∈ req.revises,
      d.toNat < 2147483648 ∧ d ≠ newCap.data.cid)
    (m : Opcode) (hm : ∃ op ∈ accessOps, requests m op) (cred : Cred) :
    let srv := Srvr.init true key hmac qsort
    (∃ capr, (srv.getCap newCap.data.cid m cred).outcome
        (Run.exec srv.step db after) = .ok capr) ↔
      cred.uid = cap.data.cred.uid ∧ ¬ requests m containerWrite ∧
        ¬ requests m containerExec := by
  intro srv
  have hlow : ∀ req ∈ after, ∀ d ∈ req.revises,
      newCap.data.cid.toUInt32 ≠ d.toUInt32 := by
    intro req hreq d hd heq
    obtain ⟨hlt, hne⟩ := hafter req hreq d hd
    exact hne (low_inj hnew hlt heq).symm
  have hkeep := exec_keepsLists srv hlow db
  have hacl : ∀ op ∈ containerOps,
      (Run.exec srv.step db after).acl? newCap.data.cid op =
        some (initialAcl cap.data.cred.uid op) := fun op hop =>
    hkeep op _ (acl?_of_createContainer rfl hcreate (short_of_lt hnew) hop)
  rw [← forRequested_initialAcl hacl hm cred.uid]
  exact getCap_outcome_eq_ok srv rfl rfl

/-- Another container is made, and the owner is given a capability to read its
own. -/
theorem getCap_of_fresh_owner :
    let cred : Cred := ⟨Octets.fill uuidSize 1, Octets.fill 20 0⟩
    let cap : Cap (List UInt8) := ⟨⟨0, 0, cred⟩, []⟩
    let srv : Srvr Unit (List UInt8) :=
      Srvr.init true () (fun _ bytes => bytes) (Qsort.insertion Uid)
    ∃ capr, (srv.getCap 5 containerRead cred).outcome
      (Run.exec srv.step (srv.step AclDb.empty (.createContainer 5 cap))
        [.createContainer 6 cap]) = .ok capr := by
  intro cred cap srv
  have hcreate : srv.createContainer 5 cap AclDb.empty =
      .ok (generateCap srv.hmac () ⟨5, Srvr.ownerOps, cred⟩)
        (srv.step AclDb.empty (.createContainer 5 cap)) := rfl
  have hafter : ∀ req ∈ ([.createContainer 6 cap] : List (Request (List UInt8))),
      ∀ d ∈ req.revises, d.toNat < 2147483648 ∧ d ≠ 5 := by
    intro req hreq d hd
    obtain rfl := List.mem_singleton.mp hreq
    cases hd
  exact (getCap_of_fresh () (fun _ bytes => bytes) (Qsort.insertion Uid) []
    [.createContainer 6 cap] hcreate (by decide) hafter containerRead
    ⟨containerRead, by decide, rfl⟩ cred).mpr ⟨rfl, by decide, by decide⟩

/-! ### Removing a container -/

/-- The removal of a list, which does not mind if there is none. -/
theorem removeAcl_eq (cid : Cid) (op : Opcode) (db : AclDb) :
    Srvr.removeAcl cid op db = .ok () (db.delAcl (getKey cid op)) := by
  by_cases hkey : getKey cid op ∈ db.acls
  · have hdel : authrDbDelAcl cid op db = .ok () (db.delAcl (getKey cid op)) :=
      authrDbDelAcl_eq_ok.mpr ⟨hkey, rfl⟩
    exact tryCatch_of_ok hdel
  · have hdel : authrDbDelAcl cid op db = .error (.code .errNoent) db := by
      rw [authrDbDelAcl, get_bind, if_neg hkey]
      rfl
    rw [Srvr.removeAcl, tryCatch_of_error hdel, if_pos rfl,
      delAcl_of_notMem hkey]
    rfl

/-- The database after the loop of `remove_container`. -/
def AclDb.delAcls (cid : Cid) (db : AclDb) (ops : List Opcode) : AclDb :=
  ops.foldl (fun db op => db.delAcl (getKey cid op)) db

theorem removeAcls_eq (cid : Cid) (ops : List Opcode) (db : AclDb) :
    ops.forM (Srvr.removeAcl cid) db = .ok ⟨⟩ (db.delAcls cid ops) := by
  induction ops generalizing db with
  | nil => rfl
  | cons op ops ih =>
      have hcons : (op :: ops).forM (Srvr.removeAcl cid) =
          Srvr.removeAcl cid op >>= fun _ =>
            ops.forM (Srvr.removeAcl cid) := rfl
      rw [hcons, bind_of_ok (removeAcl_eq cid op db), ih]
      rfl

theorem acl?_delAcls (cid : Cid) (ops : List Opcode) (db : AclDb)
    (op : Opcode) :
    (db.delAcls cid ops).acl? cid op =
      if op ∈ ops then none else db.acl? cid op := by
  induction ops generalizing db with
  | nil => rfl
  | cons op' ops ih =>
      have hcons : db.delAcls cid (op' :: ops) =
          (db.delAcl (getKey cid op')).delAcls cid ops := rfl
      rw [hcons, ih]
      by_cases hop : op ∈ ops
      · rw [if_pos hop, if_pos (List.mem_cons_of_mem _ hop)]
      · rw [if_neg hop]
        by_cases heq : op = op'
        · subst heq
          rw [if_pos List.mem_cons_self]
          exact AList.lookup_erase _ _
        · have hnot : op ∉ op' :: ops := by
            rintro hmem
            rcases List.mem_cons.mp hmem with h | h
            · exact heq h
            · exact hop h
          rw [if_neg hnot]
          apply acl?_delAcl_of_ne
          intro hkey
          exact heq (getKey_inj.mp hkey).2

theorem containerExists_iff {db : AclDb} {cid : Cid} :
    db.containerExists cid = true ↔ (db.acl? cid opExists).isSome := Iff.rfl

/-- A container is removed exactly if its existence is recorded. -/
theorem authrDbRemoveContainer_eq_ok {cid : Cid} {db db' : AclDb} :
    authrDbRemoveContainer cid db = .ok () db' ↔
      db.containerExists cid ∧ db' = db.delAcl (getKey cid opExists) := by
  rw [authrDbRemoveContainer, get_bind]
  by_cases hexists : db.containerExists cid
  · obtain ⟨acl, hacl⟩ := Option.isSome_iff_exists.mp hexists
    have hdel : authrDbDelAcl cid opExists db =
        .ok () (db.delAcl (getKey cid opExists)) :=
      authrDbDelAcl_eq_ok.mpr ⟨acl?_eq_some_mem hacl, rfl⟩
    rw [if_pos hexists, bind_of_ok hdel, get_bind, containerExists_delAcl,
      if_neg (by decide), pure_eq_ok]
    constructor
    · rintro ⟨-, rfl⟩
      exact ⟨hexists, rfl⟩
    · rintro ⟨-, rfl⟩
      exact ⟨rfl, rfl⟩
  · rw [if_neg hexists]
    exact iff_of_false throw_ne_ok fun h => hexists h.1

/-- The capability that `create_container` returns. -/
def ownerCap (srv : Srvr Key Mac) (c : Cid) (cred : Cred) : Cap Mac :=
  generateCap srv.hmac srv.authrSvcKey
    { cid := c, containerOp := Srvr.ownerOps, cred }

/-- A server whose MACs are the bytes under them. -/
def plainSrvr : Srvr Unit (List UInt8) :=
  Srvr.init true () (fun _ bytes => bytes) (Qsort.insertion Uid)

def plainCred : Cred := ⟨Octets.fill uuidSize 1, Octets.fill 20 0⟩

/-- The capability of the owner passes the checks for as long as the lists of the container are
there. -/
theorem checkAuthorization_owner (srv : Srvr Key Mac)
    (hcreds : srv.credsEnabled = false) {c : Cid} {cred : Cred} {db : AclDb}
    (hacl : srv.aclDbEnabled = true → db.acl? c containerRemove =
      some (initialAcl cred.uid containerRemove)) :
    srv.checkAuthorization c containerRemove (ownerCap srv c cred) db =
      .ok () db := by
  have hperm : srv.checkPerm c containerRemove cred.uid db = .ok () db := by
    cases henabled : srv.aclDbEnabled with
    | false =>
        rw [Srvr.checkPerm, henabled]
        rfl
    | true =>
        refine (checkPerm_eq_ok srv henabled).mpr ⟨rfl, ?_⟩
        intro op hop _ hreq
        have honly : ∀ op ∈ containerOps, requests containerRemove op →
            op = containerRemove :=
          forall_containerOps.mpr (by decide)
        obtain rfl := honly op hop hreq
        exact (atProbed_initialAcl (hacl henabled)).mpr ⟨rfl, rfl⟩
  have hcap : srv.checkCap (ownerCap srv c cred) db = .ok () db := by
    rw [Srvr.checkCap]
    split
    · refine reader_eq_ok.mpr ⟨?_, rfl⟩
      rw [verifyCap_iff, ownerCap, generateCap_mac]
      rfl
    · rfl
  have hcid : ¬ (ownerCap srv c cred).data.cid ≠ c := not_not.mpr rfl
  have hop : ¬ ¬ requests containerRemove
      (ownerCap srv c cred).data.containerOp := by
    show ¬ ¬ requests containerRemove Srvr.ownerOps
    decide
  rw [Srvr.checkAuthorization, if_neg hcid, if_neg hop,
    bind_of_ok (checkCred_eq_ok srv hcreds _ db), bind_of_ok hcap]
  exact hperm

/-- The lists and the record of a container can all be put where there are
none. -/
theorem createAcls_of_none {c : Cid} (hshort : Short c) (uid : Uid)
    {ops : List Opcode} (hops : ops.Nodup) (hused : ∀ op ∈ ops, op ∈ usedOps)
    {db : AclDb} (hnone : ∀ op ∈ ops, db.acl? c op = none) :
    ∃ db', ops.forM (Srvr.createAcl c uid) db = .ok ⟨⟩ db' := by
  induction ops generalizing db with
  | nil => exact ⟨db, rfl⟩
  | cons op ops ih =>
      obtain ⟨hop, hops⟩ := List.nodup_cons.mp hops
      obtain ⟨hused, husedOps⟩ := List.forall_mem_cons.mp hused
      obtain ⟨hnone, hnoneOps⟩ := List.forall_mem_cons.mp hnone
      have hkey : putKey c op = getKey c op := (putKey_eq_getKey hused).mpr hshort
      have hput : Srvr.createAcl c uid op db =
          .ok () (db.putAcl (putKey c op) (initialAcl uid op)) := by
        rw [createAcl_eq, authrDbPutAcl_eq_ok, hkey]
        exact ⟨AList.lookup_eq_none.mp hnone, rfl⟩
      have hrest : ∀ op' ∈ ops,
          (db.putAcl (putKey c op) (initialAcl uid op)).acl? c op' = none := by
        intro op' hop'
        rw [acl?_putAcl_of_ne, hnoneOps op' hop']
        rw [hkey]
        intro heq
        exact hop ((getKey_inj.mp heq).2 ▸ hop')
      obtain ⟨db', hdb'⟩ := ih hops husedOps hrest
      refine ⟨db', ?_⟩
      have hcons : (op :: ops).forM (Srvr.createAcl c uid) =
          Srvr.createAcl c uid op >>= fun _ =>
            ops.forM (Srvr.createAcl c uid) := rfl
      rw [hcons, bind_of_ok hput]
      exact hdb'

omit [DecidableEq Mac] in
/-- A container of which nothing is left can be created with its id. -/
theorem createContainer_of_none (srv : Srvr Key Mac) {c : Cid}
    (hany : c ≠ cidAny) (hshort : Short c) (cap : Cap Mac) {db : AclDb}
    (hnone : ∀ op ∈ usedOps, db.acl? c op = none) :
    ∃ db', srv.createContainer c cap db =
      .ok (ownerCap srv c cap.data.cred) db' := by
  have hexists : opExists ∈ usedOps := List.mem_cons_self
  have hkey : putKey c opExists = getKey c opExists :=
    (putKey_eq_getKey hexists).mpr hshort
  let db₁ := db.putAcl (getKey c opExists) []
  have hnew : authrDbCreateContainer c db = .ok c db₁ := by
    have hnot : ¬ db.containerExists c := by
      rw [containerExists_iff, hnone _ hexists]
      decide
    have hput : authrDbPutAcl c opExists [] db = .ok () db₁ := by
      rw [authrDbPutAcl_eq_ok, hkey]
      exact ⟨AList.lookup_eq_none.mp (hnone _ hexists), rfl⟩
    rw [authrDbCreateContainer, get_bind, if_neg hany, if_neg hnot,
      bind_of_ok hput]
    rfl
  have hacls : ∃ db', srv.createAcls c cap.data.cred.uid db₁ = .ok () db' := by
    rw [Srvr.createAcls]
    split
    · apply createAcls_of_none hshort _ containerOps_nodup
        (fun op hop => mem_usedOps_of_containerOps hop)
      intro op hop
      have hne : getKey c op ≠ getKey c opExists := by
        intro heq
        obtain ⟨-, rfl⟩ := getKey_inj.mp heq
        exact absurd hop (by decide)
      rw [acl?_putAcl_of_ne db [] hne]
      exact hnone op (mem_usedOps_of_containerOps hop)
    · exact ⟨db₁, rfl⟩
  obtain ⟨db', hacls⟩ := hacls
  exact ⟨db', createContainer_eq_ok.mpr ⟨c, db₁, hnew, hacls, rfl⟩⟩

/-- The container can be removed with the capability, nothing is left of it,
and it can then be created again. -/
def Removable (srv : Srvr Key Mac) (db : AclDb) (cap : Cap Mac) : Prop :=
  ∃ db', srv.removeContainer cap.data.cid cap db = .ok () db' ∧
    (∀ op ∈ usedOps, db'.acl? cap.data.cid op = none) ∧
    ∀ cap' : Cap Mac, ∃ newCap db'',
      srv.createContainer cap.data.cid cap' db' = .ok newCap db''

theorem opExists_notMem : opExists ∉ containerOps := by decide

theorem containerExists_delAcls {db : AclDb} {c : Cid} :
    (db.delAcls c containerOps).containerExists c = db.containerExists c := by
  rw [AclDb.containerExists, acl?_delAcls, if_neg opExists_notMem]
  rfl

/-- A container that is removed has its existence recorded. -/
theorem Removable.containerExists {srv : Srvr Key Mac} {db : AclDb}
    {cap : Cap Mac} (h : Removable srv db cap) :
    db.containerExists cap.data.cid = true := by
  obtain ⟨db', hremove, -, -⟩ := h
  simp only [Srvr.removeContainer, bind_eq_ok] at hremove
  obtain ⟨_, mid, hauth, _, mid', hloop, hremove⟩ := hremove
  have hmid : db = mid := within_of_ok (R := Eq)
    (checkAuthorization_within srv _ _ _) hauth
  subst hmid
  rw [removeAcls_eq, EStateM.Result.ok.injEq] at hloop
  obtain ⟨-, rfl⟩ := hloop
  rw [← containerExists_delAcls]
  exact (authrDbRemoveContainer_eq_ok.mp hremove).1

/-- A container whose existence is recorded can be removed by its owner. -/
theorem removable_of_containerExists (srv : Srvr Key Mac)
    (hcreds : srv.credsEnabled = false) {c : Cid} (hany : c ≠ cidAny)
    (hshort : Short c) {cred : Cred} {db : AclDb}
    (hacl : srv.aclDbEnabled = true → db.acl? c containerRemove =
      some (initialAcl cred.uid containerRemove))
    (hexists : db.containerExists c = true) :
    Removable srv db (ownerCap srv c cred) := by
  let db₁ := db.delAcls c containerOps
  let db₂ := db₁.delAcl (getKey c opExists)
  have hremove : authrDbRemoveContainer c db₁ = .ok () db₂ :=
    authrDbRemoveContainer_eq_ok.mpr
      ⟨containerExists_delAcls.trans hexists, rfl⟩
  have hnone : ∀ op ∈ usedOps, db₂.acl? c op = none := by
    intro op hop
    rcases List.mem_cons.mp hop with rfl | hop
    · exact AList.lookup_erase _ _
    · have hne : getKey c op ≠ getKey c opExists := by
        intro heq
        obtain ⟨-, rfl⟩ := getKey_inj.mp heq
        exact opExists_notMem hop
      rw [acl?_delAcl_of_ne db₁ hne, acl?_delAcls, if_pos hop]
  refine ⟨db₂, ?_, hnone, ?_⟩
  · show srv.removeContainer c (ownerCap srv c cred) db = .ok () db₂
    rw [Srvr.removeContainer,
      bind_of_ok (checkAuthorization_owner srv hcreds hacl),
      bind_of_ok (removeAcls_eq c containerOps db)]
    exact hremove
  · intro cap'
    obtain ⟨db', hcreate⟩ :=
      createContainer_of_none srv hany hshort cap' hnone
    exact ⟨_, db', hcreate⟩

/-! ### Which containers have a record -/

theorem createFreshCid_eq_ok {fuel : ℕ} {db db' : AclDb} {c : Cid}
    (h : createFreshCid fuel db = .ok c db') :
    db'.acls = db.acls ∧ db.containerExists c = false := by
  induction fuel generalizing db with
  | zero => cases h
  | succ fuel ih =>
      let mid : AclDb := { db with counter := some (db.counter.getD 0 + 1) }
      have hdraw : createCid db = .ok (db.counter.getD 0 + 1) mid := rfl
      rw [createFreshCid, bind_of_ok hdraw, get_bind] at h
      by_cases hexists : mid.containerExists (db.counter.getD 0 + 1)
      · rw [if_pos hexists] at h
        obtain ⟨hsame, hnone⟩ := ih h
        exact ⟨hsame, hnone⟩
      · rw [if_neg hexists] at h
        obtain ⟨rfl, rfl⟩ := pure_eq_ok.mp h
        exact ⟨rfl, Bool.eq_false_iff.mpr hexists⟩

/-- No list of an operation is put under the key of a record. -/
theorem putKey_ne_getKey_opExists {c : Cid} {op : Opcode}
    (hop : op ∈ containerOps) : putKey c op ≠ getKey c opExists := by
  intro heq
  have hexists := op_eq_of_putKey (mem_usedOps_of_containerOps hop)
    List.mem_cons_self heq
  exact opExists_notMem (hexists ▸ hop)

theorem createAcls_containerExists {c : Cid} {uid : Uid} {ops : List Opcode}
    (hops : ∀ op ∈ ops, op ∈ containerOps) {db db' : AclDb} {u : PUnit}
    (h : ops.forM (Srvr.createAcl c uid) db = .ok u db') :
    db'.containerExists c = db.containerExists c := by
  induction ops generalizing db with
  | nil =>
      have hnil : ([] : List Opcode).forM (Srvr.createAcl c uid) db =
          .ok ⟨⟩ db := rfl
      rw [hnil, EStateM.Result.ok.injEq] at h
      rw [h.2]
  | cons op ops ih =>
      have hcons : (op :: ops).forM (Srvr.createAcl c uid) =
          Srvr.createAcl c uid op >>= fun _ =>
            ops.forM (Srvr.createAcl c uid) := rfl
      rw [hcons, bind_eq_ok] at h
      obtain ⟨_, mid, hput, hrest⟩ := h
      obtain ⟨hop, hops⟩ := List.forall_mem_cons.mp hops
      rw [createAcl_eq, authrDbPutAcl_eq_ok] at hput
      obtain ⟨-, rfl⟩ := hput
      rw [ih hops hrest, AclDb.containerExists, AclDb.containerExists,
        acl?_putAcl_of_ne db _ (putKey_ne_getKey_opExists hop).symm]

omit [DecidableEq Mac] in
/-- The existence of a new container is recorded where the caller has chosen
its id, and where the record is put under the key by which it is found. -/
theorem containerExists_of_createContainer {cid : Cid} {cap newCap : Cap Mac}
    {db db' : AclDb} (h : srv.createContainer cid cap db = .ok newCap db') :
    db'.containerExists newCap.data.cid = true ↔ cid ≠ cidAny ∧ Short cid := by
  obtain ⟨c, db₁, hnew, hacls, rfl⟩ := createContainer_eq_ok.mp h
  have hlater : db'.containerExists c = db₁.containerExists c := by
    rw [Srvr.createAcls] at hacls
    split at hacls
    · exact createAcls_containerExists (fun op hop => hop) hacls
    · obtain ⟨-, rfl⟩ := pure_eq_ok.mp hacls
      rfl
  show db'.containerExists c = true ↔ _
  rw [hlater]
  obtain ⟨hany, hfresh⟩ | ⟨hany, rfl, hexists, hkey, rfl⟩ :=
    authrDbCreateContainer_cases hnew
  · obtain ⟨hsame, hnone⟩ := createFreshCid_eq_ok hfresh
    have hfalse : db₁.containerExists c = false := by
      rw [← hnone, AclDb.containerExists, AclDb.containerExists, AclDb.acl?,
        AclDb.acl?, hsame]
    rw [hfalse]
    exact iff_of_false Bool.false_ne_true fun hand => hand.1 hany
  · have hkeys : putKey c opExists = getKey c opExists ↔ Short c :=
      putKey_eq_getKey List.mem_cons_self
    rw [containerExists_iff, ← hkeys]
    by_cases heq : putKey c opExists = getKey c opExists
    · rw [heq, acl?_putAcl_self]
      exact iff_of_true rfl ⟨hany, rfl⟩
    · rw [acl?_putAcl_of_ne db [] (Ne.symm heq), ← containerExists_iff]
      exact iff_of_false hexists fun hand => heq hand.2

omit [DecidableEq Mac] in
/-- Where the caller has chosen the id, the new container has it. -/
theorem cid_of_createContainer {cid : Cid} {cap newCap : Cap Mac}
    {db db' : AclDb} (h : srv.createContainer cid cap db = .ok newCap db')
    (hany : cid ≠ cidAny) : newCap.data.cid = cid := by
  obtain ⟨c, db₁, hnew, -, rfl⟩ := createContainer_eq_ok.mp h
  obtain ⟨hany', -⟩ | ⟨-, rfl, -⟩ := authrDbCreateContainer_cases hnew
  · exact absurd hany' hany
  · rfl

/-- A container that has been created can be removed, whatever happens to other
containers in between, and its id used again, exactly if the caller has chosen
the id, and it prints in at most ten characters. -/
theorem removable_iff (verifyCaps : Bool) (key : Key)
    (hmac : Key → List UInt8 → Mac) (qsort : Qsort Uid) {db db₁ : AclDb}
    {cid : Cid} {cap newCap : Cap Mac}
    (hcreate : (Srvr.init verifyCaps key hmac qsort).createContainer cid cap db =
      .ok newCap db₁) :
    let srv := Srvr.init verifyCaps key hmac qsort
    (∀ between : List (Request Mac),
        (∀ req ∈ between, ∀ d ∈ req.revises,
          newCap.data.cid.toUInt32 ≠ d.toUInt32) →
        Removable srv (Run.exec srv.step db₁ between) newCap) ↔
      cid ≠ cidAny ∧ Short cid := by
  intro srv
  rw [← containerExists_of_createContainer hcreate]
  constructor
  · intro h
    exact (h [] fun req hreq => absurd hreq List.not_mem_nil).containerExists
  · intro hexists between hbetween
    obtain ⟨hany, hshort⟩ :=
      (containerExists_of_createContainer hcreate).mp hexists
    have hcid := cid_of_createContainer hcreate hany
    have hkeep := exec_keepsLists srv hbetween db₁
    have hcap : newCap = ownerCap srv newCap.data.cid cap.data.cred := by
      obtain ⟨c, _, -, -, rfl⟩ := createContainer_eq_ok.mp hcreate
      rfl
    have hlist : srv.aclDbEnabled = true →
        (Run.exec srv.step db₁ between).acl? newCap.data.cid containerRemove =
          some (initialAcl cap.data.cred.uid containerRemove) := by
      intro henabled
      apply hkeep
      exact acl?_of_createContainer henabled hcreate (hcid ▸ hshort) (by decide)
    have hrecord : (Run.exec srv.step db₁ between).containerExists
        newCap.data.cid = true := by
      obtain ⟨acl, hacl⟩ := Option.isSome_iff_exists.mp
        (containerExists_iff.mp hexists)
      exact Option.isSome_iff_exists.mpr ⟨acl, hkeep _ _ hacl⟩
    have hremovable := removable_of_containerExists srv rfl (hcid ▸ hany)
      (hcid ▸ hshort) hlist hrecord
    rw [← hcap] at hremovable
    exact hremovable

/-- A container with a chosen id, removed after another has been made. -/
theorem removable_of_chosen :
    let cred : Cred := ⟨Octets.fill uuidSize 1, Octets.fill 20 0⟩
    let cap : Cap (List UInt8) := ⟨⟨0, 0, cred⟩, []⟩
    let srv : Srvr Unit (List UInt8) :=
      Srvr.init true () (fun _ bytes => bytes) (Qsort.insertion Uid)
    Removable srv (Run.exec srv.step
      (srv.step AclDb.empty (.createContainer 5 cap)) [.createContainer 6 cap])
      (ownerCap srv 5 cred) := by
  intro cred cap srv
  have hcreate : srv.createContainer 5 cap AclDb.empty =
      .ok (ownerCap srv 5 cred)
        (srv.step AclDb.empty (.createContainer 5 cap)) := rfl
  refine (removable_iff true () (fun _ bytes => bytes) (Qsort.insertion Uid)
    hcreate).mpr ⟨by decide, short_of_lt (by decide)⟩ _ ?_
  intro req hreq d hd
  obtain rfl := List.mem_singleton.mp hreq
  cases hd

/-- A container whose id the server has drawn cannot be removed. -/
theorem not_removable_of_any :
    let cred : Cred := ⟨Octets.fill uuidSize 1, Octets.fill 20 0⟩
    let cap : Cap (List UInt8) := ⟨⟨0, 0, cred⟩, []⟩
    let srv : Srvr Unit (List UInt8) :=
      Srvr.init true () (fun _ bytes => bytes) (Qsort.insertion Uid)
    ∃ db, srv.createContainer cidAny cap AclDb.empty =
        .ok (ownerCap srv 1 cred) db ∧
      (srv.removeContainer 1 (ownerCap srv 1 cred)).outcome db =
        .error (.code .errNoent) ∧
      ¬ Removable srv db (ownerCap srv 1 cred) := by
  intro cred cap srv
  have hcreate : srv.createContainer cidAny cap AclDb.empty =
      .ok (ownerCap srv 1 cred)
        (srv.step AclDb.empty (.createContainer cidAny cap)) := rfl
  refine ⟨_, hcreate, by decide, ?_⟩
  intro h
  exact ((containerExists_of_createContainer hcreate).mp h.containerExists).1 rfl

end Lwfs.Authr
