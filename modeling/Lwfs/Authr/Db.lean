import Lwfs.Types
import Lwfs.Lib.Format
import Lwfs.Lib.Routine
import Mathlib.Data.List.AList

/-!
The access-control database of the authorization server.

A Berkeley DB hash file maps key strings to values. An access-control list
stands under the key that `make_keystr` prints from a container id and an
operation code. The container id is cast to a 32-bit integer before it is
printed, and `authr_db_put_acl` prints into a buffer of 16 bytes where
`authr_db_get_acl` and `authr_db_del_acl` have 256: so two container ids can
share their lists, and a list can be put where it is not found again.
-/

namespace Lwfs.Authr

open SysLib

/-- A key of the database, without the terminating zero. -/
abbrev Keystr := List Char

/-- `make_keystr`: `snprintf` writes at most `maxlen - 1` characters of
`"%08d:%04d"`. -/
def makeKeystr (cid : Cid) (opcode : Opcode) (maxlen : ℕ) : Keystr :=
  (formatPadded 8 cid.toUInt32.toInt32.toInt ++ ':' ::
    formatPadded 4 opcode.toInt32.toInt).take (maxlen - 1)

/-- The key under which a list is put. -/
def putKey (cid : Cid) (opcode : Opcode) : Keystr := makeKeystr cid opcode 16

/-- The key under which a list is fetched and deleted. -/
def getKey (cid : Cid) (opcode : Opcode) : Keystr := makeKeystr cid opcode 256

/-- The database. The counter of `create_cid` is the value under the key
`"cid"`; no access-control list has that key (`makeKeystr_ne_cid`). -/
structure AclDb where
  counter : Option Cid
  acls : AList fun _ : Keystr => List Uid

/-- The database that `authr_db_init` opens after clearing the file. -/
def AclDb.empty : AclDb := ⟨none, ∅⟩

/-- The operation code under which a container's existence is recorded. -/
def opExists : Opcode := 0xffffffff

abbrev DbRoutine := Routine Fault AclDb

def authrDbPutAcl (cid : Cid) (opcode : Opcode) (acl : List Uid) :
    DbRoutine Unit := do
  let db ← get
  -- DB_NOOVERWRITE
  if putKey cid opcode ∈ db.acls then throw (.code .errExist)
  else set { db with acls := db.acls.insert (putKey cid opcode) acl }

/-- The list stored for a container and an operation. -/
def AclDb.acl? (db : AclDb) (cid : Cid) (opcode : Opcode) :
    Option (List Uid) :=
  db.acls.lookup (getKey cid opcode)

def authrDbGetAcl (cid : Cid) (opcode : Opcode) : DbRoutine (List Uid) :=
  Routine.reader fun db =>
    match db.acl? cid opcode with
    | none => .error (.code .errNoent)
    | some acl => .ok acl

def authrDbDelAcl (cid : Cid) (opcode : Opcode) : DbRoutine Unit := do
  let db ← get
  if getKey cid opcode ∈ db.acls then
    set { db with acls := db.acls.erase (getKey cid opcode) }
  else throw (.code .errNoent)

def AclDb.containerExists (db : AclDb) (cid : Cid) : Bool :=
  (db.acl? cid opExists).isSome

/-- `create_cid`: increments the stored counter, which starts at zero. -/
def createCid : DbRoutine Cid := do
  let db ← get
  let cid := db.counter.getD 0 + 1
  set { db with counter := some cid }
  pure cid

/-- The loop of `authr_db_create_container`. Whether a container exists
depends on the low 32 bits of its id, so a loop that has not ended after
`2 ^ 32` turns does not end. -/
def createFreshCid : ℕ → DbRoutine Cid
  | 0 => throw .hang
  | fuel + 1 => do
      let cid ← createCid
      let db ← get
      if db.containerExists cid then createFreshCid fuel else pure cid

/-- `authr_db_create_container`, which returns the id of the container. It
records the existence of the container only if the caller chose the id. -/
def authrDbCreateContainer (cid : Cid) : DbRoutine Cid := do
  let db ← get
  if cid = cidAny then createFreshCid (2 ^ 32)
  else if db.containerExists cid then throw (.code .errExist)
  else do
    authrDbPutAcl cid opExists []
    pure cid

def authrDbRemoveContainer (cid : Cid) : DbRoutine Unit := do
  let db ← get
  if db.containerExists cid then do
    authrDbDelAcl cid opExists
    let db ← get
    if db.containerExists cid then throw (.code .err) else pure ()
  else throw (.code .errNoent)

/-! ### Keys -/

/-- The text of a key before `snprintf` cuts it to its buffer. -/
def fullKey (cid : Cid) (opcode : Opcode) : Keystr :=
  formatPadded 8 cid.toUInt32.toInt32.toInt ++ ':' ::
    formatPadded 4 opcode.toInt32.toInt

theorem length_formatPadded_int32 (width : ℕ) (hwidth : width ≤ 11)
    (n : Int32) : (formatPadded width n.toInt).length ≤ 11 := by
  have hlt := n.toInt_lt
  have hle := n.le_toInt
  have h : (formatPadded width n.toInt).length ≤ max width (10 + 1) :=
    length_formatPadded_le (by decide) (by omega)
  omega

theorem getKey_eq_fullKey (cid : Cid) (opcode : Opcode) :
    getKey cid opcode = fullKey cid opcode := by
  have hcid := length_formatPadded_int32 8 (by decide) cid.toUInt32.toInt32
  have hop := length_formatPadded_int32 4 (by decide) opcode.toInt32
  apply List.take_of_length_le
  simp only [List.length_append, List.length_cons]
  omega

theorem putKey_eq_take (cid : Cid) (opcode : Opcode) :
    putKey cid opcode = (getKey cid opcode).take 15 := by
  rw [getKey_eq_fullKey]
  rfl

theorem colon_notMem_formatPadded (width : ℕ) (n : Int) :
    ':' ∉ formatPadded width n := by
  intro h
  rcases mem_formatPadded h with h | h
  · exact absurd h (by decide)
  · exact absurd h (by decide)

/-- Two pairs share a key exactly if they have the same operation and the
container ids agree in their low 32 bits. -/
theorem getKey_inj {cid cid' : Cid} {op op' : Opcode} :
    getKey cid op = getKey cid' op' ↔
      cid.toUInt32 = cid'.toUInt32 ∧ op = op' := by
  rw [getKey_eq_fullKey, getKey_eq_fullKey]
  constructor
  · intro h
    obtain ⟨hcid, -, hop⟩ := (List.append_cons_inj_of_notMem
      (colon_notMem_formatPadded _ _) (colon_notMem_formatPadded _ _)).mp h
    rw [formatPadded_inj, Int32.toInt_inj] at hcid hop
    exact ⟨congrArg Int32.toUInt32 hcid, congrArg Int32.toUInt32 hop⟩
  · rintro ⟨hcid, rfl⟩
    rw [fullKey, fullKey, hcid]

/-- No key of an access-control list is the key of the counter. -/
theorem makeKeystr_ne_cid (cid : Cid) (opcode : Opcode) (maxlen : ℕ) :
    makeKeystr cid opcode maxlen ≠ ['c', 'i', 'd'] := by
  intro h
  have hmem : 'c' ∈ makeKeystr cid opcode maxlen := by
    rw [h]
    exact List.mem_cons_self
  rcases List.mem_append.mp (List.mem_of_mem_take hmem) with hc | hc
  · rcases mem_formatPadded hc with hc | hc <;> exact absurd hc (by decide)
  · rcases List.mem_cons.mp hc with hc | hc
    · exact absurd hc (by decide)
    · rcases mem_formatPadded hc with hc | hc <;> exact absurd hc (by decide)

theorem length_putKey_le (cid : Cid) (opcode : Opcode) :
    (putKey cid opcode).length ≤ 15 := by
  rw [putKey_eq_take, List.length_take]
  exact Nat.min_le_left _ _

/-! ### The operations of the database -/

def AclDb.putAcl (db : AclDb) (key : Keystr) (acl : List Uid) : AclDb :=
  { db with acls := db.acls.insert key acl }

def AclDb.delAcl (db : AclDb) (key : Keystr) : AclDb :=
  { db with acls := db.acls.erase key }

@[simp] theorem putAcl_acls (db : AclDb) (key : Keystr) (acl : List Uid) :
    (db.putAcl key acl).acls = db.acls.insert key acl := rfl

@[simp] theorem delAcl_acls (db : AclDb) (key : Keystr) :
    (db.delAcl key).acls = db.acls.erase key := rfl

@[simp] theorem authrDbGetAcl_eq_ok {cid : Cid} {opcode : Opcode}
    {db db' : AclDb} {acl : List Uid} :
    authrDbGetAcl cid opcode db = .ok acl db' ↔
      db.acl? cid opcode = some acl ∧ db = db' := by
  unfold authrDbGetAcl
  rw [Routine.reader_eq_ok]
  cases db.acl? cid opcode <;> simp

theorem authrDbPutAcl_eq_ok {cid : Cid} {opcode : Opcode} {db db' : AclDb}
    {acl : List Uid} {u : Unit} :
    authrDbPutAcl cid opcode acl db = .ok u db' ↔
      putKey cid opcode ∉ db.acls ∧ db' = db.putAcl (putKey cid opcode) acl := by
  simp only [authrDbPutAcl, Routine.bind_eq_ok, Routine.get_eq_ok]
  constructor
  · rintro ⟨_, _, ⟨rfl, rfl⟩, h⟩
    split at h
    · exact absurd h Routine.throw_ne_ok
    · exact ⟨‹_›, (Routine.set_eq_ok.mp h).symm⟩
  · rintro ⟨hkey, rfl⟩
    refine ⟨db, db, ⟨rfl, rfl⟩, ?_⟩
    rw [if_neg hkey]
    exact Routine.set_eq_ok.mpr rfl

theorem authrDbDelAcl_eq_ok {cid : Cid} {opcode : Opcode} {db db' : AclDb}
    {u : Unit} :
    authrDbDelAcl cid opcode db = .ok u db' ↔
      getKey cid opcode ∈ db.acls ∧ db' = db.delAcl (getKey cid opcode) := by
  simp only [authrDbDelAcl, Routine.bind_eq_ok, Routine.get_eq_ok]
  constructor
  · rintro ⟨_, _, ⟨rfl, rfl⟩, h⟩
    split at h
    · exact ⟨‹_›, (Routine.set_eq_ok.mp h).symm⟩
    · exact absurd h Routine.throw_ne_ok
  · rintro ⟨hkey, rfl⟩
    refine ⟨db, db, ⟨rfl, rfl⟩, ?_⟩
    rw [if_pos hkey]
    exact Routine.set_eq_ok.mpr rfl

theorem acl?_eq_some_mem {db : AclDb} {cid : Cid} {opcode : Opcode}
    {acl : List Uid} (h : db.acl? cid opcode = some acl) :
    getKey cid opcode ∈ db.acls :=
  AList.lookup_isSome.mp (by rw [← AclDb.acl?, h]; rfl)

theorem acl?_putAcl_self (db : AclDb) (cid : Cid) (opcode : Opcode)
    (acl : List Uid) :
    (db.putAcl (getKey cid opcode) acl).acl? cid opcode = some acl :=
  AList.lookup_insert db.acls

theorem acl?_putAcl_of_ne (db : AclDb) {cid : Cid} {opcode : Opcode}
    {key : Keystr} (acl : List Uid) (h : getKey cid opcode ≠ key) :
    (db.putAcl key acl).acl? cid opcode = db.acl? cid opcode :=
  AList.lookup_insert_ne h

theorem acl?_delAcl_of_ne (db : AclDb) {cid : Cid} {opcode : Opcode}
    {key : Keystr} (h : getKey cid opcode ≠ key) :
    (db.delAcl key).acl? cid opcode = db.acl? cid opcode :=
  AList.lookup_erase_ne h

theorem delAcl_of_notMem {db : AclDb} {key : Keystr} (h : key ∉ db.acls) :
    db.delAcl key = db := by
  have herase : db.acls.erase key = db.acls :=
    AList.ext (List.kerase_of_notMem_keys h)
  rw [AclDb.delAcl, herase]

theorem containerExists_delAcl (db : AclDb) (cid : Cid) :
    (db.delAcl (getKey cid opExists)).containerExists cid = false := by
  have hnone : (db.delAcl (getKey cid opExists)).acl? cid opExists = none :=
    AList.lookup_erase _ _
  rw [AclDb.containerExists, hnone]
  rfl

/-! ### What the database routines keep -/

/-- Every list in the table has property `P`, and its key fits the buffer of
`authr_db_put_acl`. -/
def AclDb.Holds (P : List Uid → Prop) (db : AclDb) : Prop :=
  ∀ key acl, db.acls.lookup key = some acl → key.length ≤ 15 ∧ P acl

theorem holds_empty (P : List Uid → Prop) : AclDb.empty.Holds P := by
  intro key acl h
  simp [AclDb.empty] at h

theorem AclDb.Holds.mono {P Q : List Uid → Prop} {db : AclDb}
    (h : db.Holds P) (hPQ : ∀ acl, P acl → Q acl) : db.Holds Q :=
  fun key acl hacl => (h key acl hacl).imp_right (hPQ acl)

theorem AclDb.Holds.of_acl? {P : List Uid → Prop} {db : AclDb}
    (h : db.Holds P) {cid : Cid} {opcode : Opcode} {acl : List Uid}
    (hacl : db.acl? cid opcode = some acl) : P acl :=
  (h _ acl hacl).2

/-- A list that is found was put under the key it is found by. -/
theorem AclDb.Holds.putKey_eq {P : List Uid → Prop} {db : AclDb}
    (h : db.Holds P) {cid : Cid} {opcode : Opcode}
    (hmem : getKey cid opcode ∈ db.acls) :
    putKey cid opcode = getKey cid opcode := by
  obtain ⟨acl, hacl⟩ := Option.isSome_iff_exists.mp
    (AList.lookup_isSome.mpr hmem)
  rw [putKey_eq_take]
  exact List.take_of_length_le (h _ acl hacl).1

theorem AclDb.Holds.putAcl {P : List Uid → Prop} {db : AclDb}
    (h : db.Holds P) {key : Keystr} (hkey : key.length ≤ 15) {acl : List Uid}
    (hacl : P acl) : (db.putAcl key acl).Holds P := by
  intro key' acl' h'
  by_cases hk : key' = key
  · subst hk
    rw [putAcl_acls, AList.lookup_insert, Option.some.injEq] at h'
    exact ⟨hkey, h' ▸ hacl⟩
  · rw [putAcl_acls, AList.lookup_insert_ne hk] at h'
    exact h key' acl' h'

theorem AclDb.Holds.delAcl {P : List Uid → Prop} {db : AclDb}
    (h : db.Holds P) (key : Keystr) : (db.delAcl key).Holds P := by
  intro key' acl' h'
  by_cases hk : key' = key
  · subst hk
    rw [delAcl_acls, AList.lookup_erase] at h'
    exact absurd h' (by simp)
  · rw [delAcl_acls, AList.lookup_erase_ne hk] at h'
    exact h key' acl' h'

section Keeps

open Routine

variable {P : List Uid → Prop}

theorem authrDbPutAcl_keeps (cid : Cid) (opcode : Opcode) {acl : List Uid}
    (hacl : P acl) :
    Within (Keeps (AclDb.Holds P)) (authrDbPutAcl cid opcode acl) := by
  intro db hdb
  cases h : authrDbPutAcl cid opcode acl db with
  | ok u db' =>
      obtain ⟨-, rfl⟩ := authrDbPutAcl_eq_ok.mp h
      rw [final_of_ok h]
      exact hdb.putAcl (length_putKey_le cid opcode) hacl
  | error e db' =>
      rw [final_of_error h]
      simp only [authrDbPutAcl, bind_eq_error, get_eq_ok] at h
      rcases h with h | ⟨_, _, ⟨rfl, rfl⟩, h⟩
      · cases h
      · split at h
        · exact (throw_eq_error.mp h).2 ▸ hdb
        · cases h

theorem authrDbDelAcl_keeps (cid : Cid) (opcode : Opcode) :
    Within (Keeps (AclDb.Holds P)) (authrDbDelAcl cid opcode) := by
  intro db hdb
  cases h : authrDbDelAcl cid opcode db with
  | ok u db' =>
      obtain ⟨-, rfl⟩ := authrDbDelAcl_eq_ok.mp h
      rw [final_of_ok h]
      exact hdb.delAcl _
  | error e db' =>
      rw [final_of_error h]
      simp only [authrDbDelAcl, bind_eq_error, get_eq_ok] at h
      rcases h with h | ⟨_, _, ⟨rfl, rfl⟩, h⟩
      · cases h
      · split at h
        · cases h
        · exact (throw_eq_error.mp h).2 ▸ hdb

theorem createCid_keeps : Within (Keeps (AclDb.Holds P)) createCid :=
  fun _ hdb => hdb

theorem createFreshCid_keeps (fuel : ℕ) :
    Within (Keeps (AclDb.Holds P)) (createFreshCid fuel) := by
  induction fuel with
  | zero => exact within_throw _
  | succ fuel ih =>
      exact within_bind createCid_keeps fun cid =>
        within_bind within_get fun db =>
          within_ite (fun _ => ih) (fun _ => within_pure cid)

theorem authrDbCreateContainer_keeps (hnil : P []) (cid : Cid) :
    Within (Keeps (AclDb.Holds P)) (authrDbCreateContainer cid) :=
  within_bind within_get fun _ =>
    within_ite (fun _ => createFreshCid_keeps _) fun _ =>
      within_ite (fun _ => within_throw _) fun _ =>
        within_bind (authrDbPutAcl_keeps cid opExists hnil)
          fun _ => within_pure cid

theorem authrDbRemoveContainer_keeps (cid : Cid) :
    Within (Keeps (AclDb.Holds P)) (authrDbRemoveContainer cid) :=
  within_bind within_get fun _ =>
    within_ite
      (fun _ => within_bind (authrDbDelAcl_keeps cid opExists) fun _ =>
        within_bind within_get fun _ =>
          within_ite (fun _ => within_throw _) fun _ => within_pure _)
      fun _ => within_throw _

end Keeps

end Lwfs.Authr
