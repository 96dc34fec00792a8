import Lwfs.Naming.Effect

/-!
The changes that a request can make.

In a database whose entries stand under their own keys and have ids of their
own, and with generated ids that are fresh, `naming_db_put` and
`naming_db_del` make one of the changes listed in `Change`. Every request
keeps such a database well formed.
-/

namespace Lwfs.Naming

open SysLib Routine

namespace NamingDb

def addDirent (db : NamingDb) (d : Dirent) : NamingDb :=
  { db with dirents := db.dirents.insert d.key d }

def delDirent (db : NamingDb) (d : Dirent) : NamingDb :=
  { db with dirents := db.dirents.erase d.key }

def putInode (db : NamingDb) (i : Inode) : NamingDb :=
  { db with inodes := db.inodes.insert i.entryObj.oid i }

def delInode (db : NamingDb) (o : Oid) : NamingDb :=
  { db with inodes := db.inodes.erase o }

@[simp] theorem addDirent_dirents (db : NamingDb) (d : Dirent) :
    (db.addDirent d).dirents = db.dirents.insert d.key d := rfl

@[simp] theorem addDirent_inodes (db : NamingDb) (d : Dirent) :
    (db.addDirent d).inodes = db.inodes := rfl

@[simp] theorem delDirent_dirents (db : NamingDb) (d : Dirent) :
    (db.delDirent d).dirents = db.dirents.erase d.key := rfl

@[simp] theorem delDirent_inodes (db : NamingDb) (d : Dirent) :
    (db.delDirent d).inodes = db.inodes := rfl

@[simp] theorem putInode_dirents (db : NamingDb) (i : Inode) :
    (db.putInode i).dirents = db.dirents := rfl

@[simp] theorem putInode_inodes (db : NamingDb) (i : Inode) :
    (db.putInode i).inodes = db.inodes.insert i.entryObj.oid i := rfl

@[simp] theorem delInode_dirents (db : NamingDb) (o : Oid) :
    (db.delInode o).dirents = db.dirents := rfl

@[simp] theorem delInode_inodes (db : NamingDb) (o : Oid) :
    (db.delInode o).inodes = db.inodes.erase o := rfl

/-- The number of entries that name the inode `o`. -/
def links (db : NamingDb) (o : Oid) : ℕ := db.dirents.count Dirent.inodeOid o

end NamingDb

/-- The inode with another count. -/
def Inode.withRefCnt (i : Inode) (n : Int32) : Inode := { i with refCnt := n }

/-- Every entry stands under its own key and has an id of its own, every
inode stands under its own id, and an entry without an id names the inode
without an id. -/
structure WellFormed (db : NamingDb) : Prop where
  key_eq : ∀ k d, db.dirents.lookup k = some d → k = d.key
  unique : db.dirents.Unique Dirent.oid
  inode_oid : ∀ o i, db.inodes.lookup o = some i → i.entryObj.oid = o
  zero : ∀ k d, db.dirents.lookup k = some d → d.oid = Oid.zero →
    d.inodeOid = Oid.zero

/-- The generated ids are not zero and not in use. -/
structure Fresh {Mac : Type} (env : Env Mac) (db : NamingDb) : Prop where
  direntOid_ne : env.direntOid ≠ Oid.zero
  dirent : ∀ k d, db.dirents.lookup k = some d → d.oid ≠ env.direntOid
  links : ∀ k d, db.dirents.lookup k = some d → d.inodeOid ≠ env.inodeOid
  inode : db.inodes.lookup env.inodeOid = none

theorem fresh_iff {Mac : Type} {env : Env Mac} {db : NamingDb} :
    Fresh env db ↔ env.direntOid ≠ Oid.zero ∧
      (∀ e ∈ db.dirents.entries, e.2.oid ≠ env.direntOid) ∧
      (∀ e ∈ db.dirents.entries, e.2.inodeOid ≠ env.inodeOid) ∧
      db.inodes.lookup env.inodeOid = none := by
  have hoid := Table.forall_lookup_iff (t := db.dirents)
    (P := fun d => d.oid ≠ env.direntOid)
  have hinode := Table.forall_lookup_iff (t := db.dirents)
    (P := fun d => d.inodeOid ≠ env.inodeOid)
  rw [← hoid, ← hinode]
  exact ⟨fun h => ⟨h.1, h.2, h.3, h.4⟩, fun h => ⟨h.1, h.2.1, h.2.2.1, h.2.2.2⟩⟩

instance {Mac : Type} (env : Env Mac) (db : NamingDb) :
    Decidable (Fresh env db) :=
  decidable_of_iff' _ fresh_iff

/-- The entry `d` can be added: its key and its id are not in use. -/
structure Addable (db : NamingDb) (d : Dirent) : Prop where
  key : d.key ∉ db.dirents
  oid_ne : d.oid ≠ Oid.zero
  oid : ∀ k d', db.dirents.lookup k = some d' → d'.oid ≠ d.oid

/-- What one request makes of the database, and whether the server aborts. -/
inductive Change (db : NamingDb) : Bool → NamingDb → Prop
  | same : Change db false db
  /-- A new entry with an inode of its own. -/
  | created (d : Dirent) (i : Inode) (hd : Addable db d)
      (hlinks : ∀ k d', db.dirents.lookup k = some d' → d'.inodeOid ≠ d.inodeOid)
      (hnone : db.inodes.lookup d.inodeOid = none)
      (hoid : i.entryObj.oid = d.inodeOid) (hcnt : i.refCnt = 1) :
      Change db false ((db.addDirent d).putInode i)
  /-- A new entry for an inode that is there. -/
  | linked (d : Dirent) (i : Inode) (hd : Addable db d)
      (hi : db.inodes.lookup d.inodeOid = some i) :
      Change db false ((db.addDirent d).putInode (i.withRefCnt (i.refCnt + 1)))
  /-- A new entry for the inode without an id, which does not count it. -/
  | uncounted (d : Dirent) (i : Inode) (hd : Addable db d)
      (hzero : d.inodeOid = Oid.zero)
      (hi : db.inodes.lookup d.inodeOid = some i) :
      Change db false (db.addDirent d)
  | removed (d : Dirent) (i : Inode) (hd : db.dirents.lookup d.key = some d)
      (hi : db.inodes.lookup d.inodeOid = some i) (hcnt : 0 < i.refCnt - 1) :
      Change db false ((db.delDirent d).putInode (i.withRefCnt (i.refCnt - 1)))
  /-- The last entry that its inode counts is removed, and the inode too. -/
  | removedLast (d : Dirent) (i : Inode)
      (hd : db.dirents.lookup d.key = some d)
      (hi : db.inodes.lookup d.inodeOid = some i) (hcnt : i.refCnt - 1 = 0) :
      Change db false ((db.delDirent d).delInode d.inodeOid)
  /-- The count becomes negative. -/
  | aborted (d : Dirent) (i : Inode) (hd : db.dirents.lookup d.key = some d)
      (hi : db.inodes.lookup d.inodeOid = some i) (hcnt : i.refCnt - 1 < 0) :
      Change db true (db.delDirent d)

variable {db : NamingDb}

/-! ### `naming_db_put` -/

theorem namingDbPut_of_mem {entry : DbEntry} (h : entry.dirent.key ∈ db.dirents) :
    namingDbPut entry true db = .error (.code .errExist) db := by
  refine bind_of_error ?_
  rw [db1Put, get_bind, if_pos ⟨rfl, h⟩]
  exact throw_apply

theorem namingDbPut_of_notMem {entry : DbEntry}
    (h : entry.dirent.key ∉ db.dirents) :
    namingDbPut entry true db =
      inodeAttach entry true (db.addDirent entry.dirent) := by
  refine bind_of_ok (a := ()) ?_
  rw [db1Put, get_bind, if_neg fun hmem => h hmem.2]
  exact set_apply

theorem inodeAttach_link {entry : DbEntry} {noOverwrite : Bool}
    (h : entry.dirent.link ≠ Oid.zero) :
    inodeAttach entry noOverwrite =
      inodeIncrementRefcnt entry.inode.entryObj.oid := if_pos h

theorem inodeAttach_new {entry : DbEntry} {noOverwrite : Bool}
    (h : entry.dirent.link = Oid.zero) :
    inodeAttach entry noOverwrite =
      inodePut entry.inode.entryObj.oid entry.inode noOverwrite :=
  if_neg fun hne => hne h

theorem inodePut_of_notMem {o : Oid} {i : Inode} {noOverwrite : Bool}
    (h : ¬ (noOverwrite = true ∧ o ∈ db.inodes)) :
    inodePut o i noOverwrite db =
      .ok () { db with inodes := db.inodes.insert o i } := by
  rw [inodePut, get_bind, if_neg h]
  exact set_apply

theorem inodePut_of_mem {o : Oid} {i : Inode} (h : o ∈ db.inodes) :
    inodePut o i true db = .error (.code .errExist) db := by
  rw [inodePut, get_bind, if_pos ⟨rfl, h⟩]
  exact throw_apply

theorem inodeIncrementRefcnt_of_lookup {o : Oid} {i : Inode}
    (h : db.inodes.lookup o = some i) (hoid : i.entryObj.oid = o) :
    inodeIncrementRefcnt o db =
      .ok () (db.putInode (i.withRefCnt (i.refCnt + 1))) := by
  subst hoid
  rw [inodeIncrementRefcnt, get_bind, h]
  exact inodePut_of_notMem nofun

/-- An entry that is no link is put together with its inode. -/
theorem namingDbPut_of_new {entry : DbEntry}
    (hkey : entry.dirent.key ∉ db.dirents) (hlink : entry.dirent.link = Oid.zero)
    (hinode : db.inodes.lookup entry.inode.entryObj.oid = none) :
    namingDbPut entry true db =
      .ok () ((db.addDirent entry.dirent).putInode entry.inode) := by
  rw [namingDbPut_of_notMem hkey, inodeAttach_new hlink]
  exact inodePut_of_notMem fun hmem => AList.lookup_eq_none.mp hinode hmem.2

/-! ### Lookups -/

theorem entryOf_eq_ok {d : Dirent} {e : DbEntry} :
    entryOf d db = .ok e ↔
      e.dirent = d ∧ db.inodes.lookup d.inodeOid = some e.inode := by
  unfold entryOf inodeGet
  obtain ⟨d', i'⟩ := e
  cases db.inodes.lookup d.inodeOid with
  | none => exact ⟨nofun, nofun⟩
  | some i =>
      show (.ok ⟨d, i⟩ : Except Fault DbEntry) = .ok ⟨d', i'⟩ ↔
        d' = d ∧ some i = some i'
      rw [Except.ok.injEq, DbEntry.mk.injEq, Option.some.injEq, eq_comm (a := d)]

theorem db1Get_eq_ok {key : Db1Key} {d : Dirent} :
    db1Get key db = .ok d ↔ db.dirents.lookup key = some d := by
  unfold db1Get
  cases db.dirents.lookup key <;> simp

theorem namingDbGetByName_eq_ok {parentOid : Oid} {name : Name} {e : DbEntry} :
    namingDbGetByName parentOid name db = .ok e ↔
      db.dirents.lookup (db1Keygen parentOid name) = some e.dirent ∧
        db.inodes.lookup e.dirent.inodeOid = some e.inode := by
  unfold namingDbGetByName db1Get
  cases db.dirents.lookup (db1Keygen parentOid name) with
  | none => exact ⟨nofun, nofun⟩
  | some d =>
      show entryOf d db = .ok e ↔ _
      rw [entryOf_eq_ok, Option.some.injEq, eq_comm (a := d)]
      exact and_congr_right fun h => by rw [h]

theorem namingDbGetByOid_eq_ok {oid : Oid} {e : DbEntry} :
    namingDbGetByOid oid db = .ok e ↔
      (∃ k, db.dirents.find Dirent.oid oid = some (k, e.dirent)) ∧
        db.inodes.lookup e.dirent.inodeOid = some e.inode := by
  unfold namingDbGetByOid db2Get
  cases db.dirents.find Dirent.oid oid with
  | none => exact ⟨nofun, fun ⟨⟨_, h⟩, _⟩ => nomatch h⟩
  | some x =>
      obtain ⟨k, d⟩ := x
      show entryOf d db = .ok e ↔ _
      simp only [entryOf_eq_ok, Option.some.injEq, Prod.mk.injEq,
        exists_eq_left', eq_comm (a := d)]
      exact and_congr_right fun h => by rw [h]

theorem checkPerm_eq_ok {Mac : Type} {env : Env Mac} {oid : Oid}
    {cap : Cap Mac} {containerOp : Opcode} :
    checkPerm env oid cap containerOp db = .ok () ↔
      ∃ e, namingDbGetByOid oid db = .ok e ∧
        (e.inode.entryObj.cid = cidAny ∨
          e.inode.entryObj.cid = cap.data.cid) ∧
        containerOp &&& cap.data.containerOp = containerOp ∧
        env.verifyCaps cap = none := by
  unfold checkPerm
  cases namingDbGetByOid oid db with
  | error e => exact ⟨nofun, fun ⟨_, h, _⟩ => nomatch h⟩
  | ok e =>
      have hex : ∀ P : DbEntry → Prop,
          (∃ e', Except.ok (ε := Fault) e = .ok e' ∧ P e') ↔ P e :=
        fun P => ⟨fun ⟨_, heq, h⟩ => Except.ok.inj heq ▸ h, fun h => ⟨e, rfl, h⟩⟩
      rw [hex]
      show (if _ then _ else if _ then _ else _) = _ ↔ _
      split_ifs with hcid hop
      · exact ⟨nofun, fun ⟨h, _⟩ => h.elim (absurd · hcid.1) (absurd · hcid.2)⟩
      · exact ⟨nofun, fun ⟨_, h, _⟩ => absurd h hop⟩
      · rw [not_and_or, not_not, not_not] at hcid
        rw [not_not] at hop
        cases env.verifyCaps cap with
        | none => exact iff_of_true rfl ⟨hcid, hop, rfl⟩
        | some rc => exact ⟨nofun, nofun⟩

/-! ### The entries that requests put -/

theorem clip_clip (name : Name) : clip (clip name) = clip name := by
  simp only [clip, List.take_take, Nat.min_self]

/-- A request puts an entry with an inode of its own, or a link to an entry
that is there. -/
theorem puts_cases {Mac : Type} {env : Env Mac} {r : Request Mac}
    {entry : DbEntry} (h : puts env db r = some entry) :
    (∃ parentOid name type cid fileObj,
      entry = newEntry env parentOid name type cid fileObj) ∨
    ∃ parentOid name k target, db.dirents.lookup k = some target.dirent ∧
      db.inodes.lookup target.dirent.inodeOid = some target.inode ∧
      entry = linkTo env parentOid name target := by
  cases r <;> simp only [puts, reduceCtorEq] at h
  case createNamespace name cid => exact .inl ⟨_, _, _, _, _, (Option.some.inj h).symm⟩
  case createDir parent name cid cap =>
    obtain ⟨-, heq⟩ := Option.ite_none_right_eq_some.mp h
    exact .inl ⟨_, _, _, _, _, (Option.some.inj heq).symm⟩
  case createFile parent name obj cap =>
    obtain ⟨-, heq⟩ := Option.ite_none_right_eq_some.mp h
    exact .inl ⟨_, _, _, _, _, (Option.some.inj heq).symm⟩
  case createLink parent name cap targetParent targetName targetCap =>
    obtain ⟨-, h⟩ := Option.ite_none_right_eq_some.mp h
    cases hget : namingDbGetByName targetParent.direntOid targetName db with
    | error e => simp only [hget, reduceCtorEq] at h
    | ok target =>
        simp only [hget, Option.some.injEq] at h
        obtain ⟨hd, hi⟩ := namingDbGetByName_eq_ok.mp hget
        exact .inr ⟨_, _, _, target, hd, hi, h.symm⟩

section Put

variable {Mac : Type} {env : Env Mac}

theorem namingDbPut_newEntry (hfresh : Fresh env db) {parentOid : Oid}
    {name : Name} {type : Int32} {cid : Cid} {fileObj : Option Obj} :
    let entry := newEntry env parentOid name type cid fileObj
    entry.dirent.key ∉ db.dirents →
    namingDbPut entry true db =
      .ok () ((db.addDirent entry.dirent).putInode entry.inode) :=
  fun hkey => namingDbPut_of_new hkey rfl hfresh.inode

/-- A link to an entry with an id is counted in the inode. -/
theorem namingDbPut_linkTo (hwf : WellFormed db) {parentOid : Oid} {name : Name}
    {target : DbEntry} (hlink : target.dirent.oid ≠ Oid.zero)
    (hi : db.inodes.lookup target.dirent.inodeOid = some target.inode) :
    let entry := linkTo env parentOid name target
    entry.dirent.key ∉ db.dirents →
    namingDbPut entry true db =
      .ok () ((db.addDirent entry.dirent).putInode
        (target.inode.withRefCnt (target.inode.refCnt + 1))) := by
  intro entry hkey
  have hoid := hwf.inode_oid _ _ hi
  have hentry : entry.dirent.link ≠ Oid.zero := hlink
  rw [namingDbPut_of_notMem hkey, inodeAttach_link hentry]
  refine inodeIncrementRefcnt_of_lookup ?_ rfl
  show db.inodes.lookup target.inode.entryObj.oid = some target.inode
  rwa [hoid]

/-- A link to the entry without an id fails after the entry was put. -/
theorem namingDbPut_linkTo_zero (hwf : WellFormed db) {parentOid : Oid}
    {name : Name} {target : DbEntry} (hlink : target.dirent.oid = Oid.zero)
    (hi : db.inodes.lookup target.dirent.inodeOid = some target.inode) :
    let entry := linkTo env parentOid name target
    entry.dirent.key ∉ db.dirents →
    namingDbPut entry true db =
      .error (.code .errExist) (db.addDirent entry.dirent) := by
  intro entry hkey
  have hoid := hwf.inode_oid _ _ hi
  have hentry : entry.dirent.link = Oid.zero := hlink
  rw [namingDbPut_of_notMem hkey, inodeAttach_new hentry]
  refine inodePut_of_mem ?_
  show target.inode.entryObj.oid ∈ db.inodes
  rw [hoid]
  exact AList.lookup_isSome.mp (by rw [hi]; rfl)

theorem direntOid_of_puts {r : Request Mac} {entry : DbEntry}
    (h : puts env db r = some entry) : entry.dirent.oid = env.direntOid := by
  rcases puts_cases h with ⟨_, _, _, _, _, rfl⟩ | ⟨_, _, _, _, -, -, rfl⟩
  · rfl
  · rfl

theorem addable_of_puts (hfresh : Fresh env db) {r : Request Mac}
    {entry : DbEntry} (h : puts env db r = some entry)
    (hkey : entry.dirent.key ∉ db.dirents) : Addable db entry.dirent := by
  have hoid := direntOid_of_puts h
  refine ⟨hkey, ?_, ?_⟩
  · rw [hoid]
    exact hfresh.direntOid_ne
  · rw [hoid]
    exact hfresh.dirent

/-- What a request puts is a change of the database, and no abort. -/
theorem change_of_puts (hwf : WellFormed db) (hfresh : Fresh env db)
    {r : Request Mac} {entry : DbEntry} (h : puts env db r = some entry) :
    Change db false ((namingDbPut entry true).final db) ∧
      ∀ db', namingDbPut entry true db ≠ .error .abort db' := by
  by_cases hkey : entry.dirent.key ∈ db.dirents
  · have heq := namingDbPut_of_mem hkey
    rw [final_of_error heq, heq]
    exact ⟨.same, nofun⟩
  have hadd := addable_of_puts hfresh h hkey
  rcases puts_cases h with
    ⟨parentOid, name, type, cid, fileObj, rfl⟩ |
    ⟨parentOid, name, k, target, hd, hi, rfl⟩
  · have heq := namingDbPut_newEntry hfresh hkey
    rw [final_of_ok heq, heq]
    exact ⟨.created _ _ hadd hfresh.links hfresh.inode rfl rfl, nofun⟩
  · by_cases hzero : target.dirent.oid = Oid.zero
    · have heq := namingDbPut_linkTo_zero hwf hzero hi hkey
      have hinode := hwf.zero _ _ hd hzero
      rw [final_of_error heq, heq]
      exact ⟨.uncounted _ _ hadd hinode hi, nofun⟩
    · have heq := namingDbPut_linkTo hwf hzero hi hkey
      rw [final_of_ok heq, heq]
      exact ⟨.linked _ _ hadd hi, nofun⟩

end Put

/-! ### `naming_db_del` -/

theorem db2Del_of_lookup (hwf : WellFormed db) {d : Dirent}
    (h : db.dirents.lookup d.key = some d) :
    db2Del d.oid db = .ok () (db.delDirent d) := by
  rw [db2Del, get_bind, hwf.unique.find_eq h]
  exact set_apply

theorem inodeDel_of_lookup {i : Inode} (h : i.entryObj.oid ∈ db.inodes) :
    inodeDel i db = .ok () (db.delInode i.entryObj.oid) := by
  rw [inodeDel, get_bind, if_pos h]
  exact set_apply

/-- The entry that `naming_db_del` returns. -/
def DbEntry.decremented (e : DbEntry) : DbEntry :=
  { e with inode := e.inode.withRefCnt (e.inode.refCnt - 1) }

/-- `naming_db_del` on an entry that is there. -/
theorem namingDbDel_of_lookup (hwf : WellFormed db) {parentOid : Oid}
    {name : Name} {e : DbEntry} (h : namingDbGetByName parentOid name db = .ok e) :
    namingDbDel parentOid name db =
      (inodeRelease e.decremented.inode >>= fun _ =>
        (pure e.decremented : DbRoutine DbEntry)) (db.delDirent e.dirent) := by
  obtain ⟨hd, -⟩ := namingDbGetByName_eq_ok.mp h
  have hkey := hwf.key_eq _ _ hd
  rw [hkey] at hd
  have hget : Routine.reader (namingDbGetByName parentOid name) db = .ok e db :=
    reader_eq_ok.mpr ⟨h, rfl⟩
  have hdel := db2Del_of_lookup hwf hd
  exact (bind_of_ok hget).trans (bind_of_ok hdel)

theorem namingDbDel_of_error {parentOid : Oid} {name : Name} {e : Fault}
    (h : namingDbGetByName parentOid name db = .error e) :
    namingDbDel parentOid name db = .error e db :=
  bind_of_error (reader_eq_error.mpr ⟨h, rfl⟩)

section Release

variable {i : Inode}

theorem inodeRelease_last (hcnt : i.refCnt = 0) (h : i.entryObj.oid ∈ db.inodes) :
    inodeRelease i db = .ok () (db.delInode i.entryObj.oid) := by
  have hrelease : inodeRelease i = (inodeDel i).ignore := if_pos hcnt
  rw [hrelease, ignore_apply, final_of_ok (inodeDel_of_lookup h)]

theorem inodeRelease_more (hcnt : 0 < i.refCnt) :
    inodeRelease i db = .ok () (db.putInode i) := by
  have hne : i.refCnt ≠ 0 := fun h => absurd (h ▸ hcnt) (by decide)
  have hrelease : inodeRelease i = (inodePut i.entryObj.oid i false).ignore :=
    (if_neg hne).trans (if_pos hcnt)
  have hput : inodePut i.entryObj.oid i false db = .ok () (db.putInode i) :=
    inodePut_of_notMem nofun
  rw [hrelease, ignore_apply, final_of_ok hput]

theorem inodeRelease_negative (hcnt : i.refCnt < 0) :
    inodeRelease i db = .error .abort db := by
  have hne : i.refCnt ≠ 0 := fun h => absurd (h ▸ hcnt) (by decide)
  have hpos : ¬ 0 < i.refCnt := fun h => absurd (Int32.lt_trans h hcnt) (by decide)
  have hrelease : inodeRelease i = throw .abort :=
    (if_neg hne).trans (if_neg hpos)
  rw [hrelease]
  exact throw_apply

end Release

section Del

variable {parentOid : Oid} {name : Name} {e : DbEntry}

theorem namingDbDel_last (hwf : WellFormed db)
    (h : namingDbGetByName parentOid name db = .ok e)
    (hcnt : e.inode.refCnt - 1 = 0) :
    namingDbDel parentOid name db = .ok e.decremented
      ((db.delDirent e.dirent).delInode e.dirent.inodeOid) := by
  obtain ⟨-, hi⟩ := namingDbGetByName_eq_ok.mp h
  have hoid := hwf.inode_oid _ _ hi
  have hmem : e.decremented.inode.entryObj.oid ∈
      (db.delDirent e.dirent).inodes :=
    AList.lookup_isSome.mp (by
      show (db.inodes.lookup e.inode.entryObj.oid).isSome
      rw [hoid, hi]
      rfl)
  rw [← hoid]
  exact (namingDbDel_of_lookup hwf h).trans
    (bind_of_ok (inodeRelease_last hcnt hmem))

theorem namingDbDel_more (hwf : WellFormed db)
    (h : namingDbGetByName parentOid name db = .ok e)
    (hcnt : 0 < e.inode.refCnt - 1) :
    namingDbDel parentOid name db = .ok e.decremented
      ((db.delDirent e.dirent).putInode e.decremented.inode) :=
  (namingDbDel_of_lookup hwf h).trans (bind_of_ok (inodeRelease_more hcnt))

theorem namingDbDel_negative (hwf : WellFormed db)
    (h : namingDbGetByName parentOid name db = .ok e)
    (hcnt : e.inode.refCnt - 1 < 0) :
    namingDbDel parentOid name db = .error .abort (db.delDirent e.dirent) :=
  (namingDbDel_of_lookup hwf h).trans
    (bind_of_error (inodeRelease_negative hcnt))

theorem refCnt_trichotomy (n : Int32) : n = 0 ∨ 0 < n ∨ n < 0 := by
  simp only [Int32.lt_iff_toInt_lt, ← Int32.toInt_inj, Int32.toInt_zero]
  omega

/-- `naming_db_del` aborts exactly if the entry is there and the count of its
inode becomes negative. -/
theorem namingDbDel_aborts_iff (hwf : WellFormed db) :
    namingDbDel parentOid name db =
        .error .abort ((namingDbDel parentOid name).final db) ↔
      ∃ e, namingDbGetByName parentOid name db = .ok e ∧
        e.inode.refCnt - 1 < 0 := by
  cases hget : namingDbGetByName parentOid name db with
  | error e =>
      rw [namingDbDel_of_error hget]
      refine iff_of_false (fun h => ?_) nofun
      rw [EStateM.Result.error.injEq] at h
      exact namingDbGetByName_ne_abort parentOid name (h.1 ▸ hget)
  | ok e =>
      have hex : (∃ e', Except.ok (ε := Fault) e = .ok e' ∧
          e'.inode.refCnt - 1 < 0) ↔ e.inode.refCnt - 1 < 0 :=
        ⟨fun ⟨_, heq, h⟩ => Except.ok.inj heq ▸ h, fun h => ⟨e, rfl, h⟩⟩
      rw [hex]
      rcases refCnt_trichotomy (e.inode.refCnt - 1) with hcnt | hcnt | hcnt
      · rw [namingDbDel_last hwf hget hcnt, hcnt]
        exact iff_of_false nofun (by decide)
      · rw [namingDbDel_more hwf hget hcnt]
        exact iff_of_false nofun fun h => Int32.lt_irrefl (Int32.lt_trans h hcnt)
      · rw [final_of_error (namingDbDel_negative hwf hget hcnt)]
        exact iff_of_true (namingDbDel_negative hwf hget hcnt) hcnt

/-- What a request deletes is a change of the database. -/
theorem change_of_deletes (hwf : WellFormed db) (parentOid : Oid) (name : Name) :
    ∃ b, Change db b ((namingDbDel parentOid name).final db) ∧
      (namingDbDel parentOid name db =
        .error .abort ((namingDbDel parentOid name).final db) ↔ b = true) := by
  rw [namingDbDel_aborts_iff hwf]
  cases hget : namingDbGetByName parentOid name db with
  | error e =>
      rw [final_of_error (namingDbDel_of_error hget)]
      exact ⟨false, .same, iff_of_false nofun nofun⟩
  | ok e =>
      obtain ⟨hd, hi⟩ := namingDbGetByName_eq_ok.mp hget
      rw [hwf.key_eq _ _ hd] at hd
      rcases refCnt_trichotomy (e.inode.refCnt - 1) with hcnt | hcnt | hcnt
      · rw [final_of_ok (namingDbDel_last hwf hget hcnt)]
        refine ⟨false, .removedLast _ _ hd hi hcnt, iff_of_false ?_ nofun⟩
        rintro ⟨e', heq, hneg⟩
        rw [← Except.ok.inj heq, hcnt] at hneg
        exact absurd hneg (by decide)
      · rw [final_of_ok (namingDbDel_more hwf hget hcnt)]
        refine ⟨false, .removed _ _ hd hi hcnt, iff_of_false ?_ nofun⟩
        rintro ⟨e', heq, hneg⟩
        rw [← Except.ok.inj heq] at hneg
        exact Int32.lt_irrefl (Int32.lt_trans hneg hcnt)
      · rw [final_of_error (namingDbDel_negative hwf hget hcnt)]
        exact ⟨true, .aborted _ _ hd hi hcnt, iff_of_true ⟨e, rfl, hcnt⟩ rfl⟩

end Del

/-! ### Well-formed databases stay well formed -/

theorem wellFormed_empty : WellFormed NamingDb.empty where
  key_eq := nofun
  unique := List.nodup_nil
  inode_oid := nofun
  zero := nofun

theorem lookup_addDirent {d d' : Dirent} {k : Db1Key}
    (h : (db.addDirent d).dirents.lookup k = some d') :
    (k = d.key ∧ d' = d) ∨ db.dirents.lookup k = some d' := by
  rw [NamingDb.addDirent_dirents] at h
  by_cases hk : k = d.key
  · subst hk
    rw [AList.lookup_insert, Option.some.injEq] at h
    exact .inl ⟨rfl, h.symm⟩
  · rw [AList.lookup_insert_ne hk] at h
    exact .inr h

theorem WellFormed.addDirent (hwf : WellFormed db) {d : Dirent}
    (hkey : d.key ∉ db.dirents)
    (hoid : ∀ k d', db.dirents.lookup k = some d' → d'.oid ≠ d.oid)
    (hzero : d.oid = Oid.zero → d.inodeOid = Oid.zero) :
    WellFormed (db.addDirent d) where
  key_eq k d' h := by
    rcases lookup_addDirent h with ⟨rfl, rfl⟩ | h
    · rfl
    · exact hwf.key_eq k d' h
  unique := hwf.unique.insert hkey hoid
  inode_oid := hwf.inode_oid
  zero k d' h hd' := by
    rcases lookup_addDirent h with ⟨rfl, rfl⟩ | h
    · exact hzero hd'
    · exact hwf.zero k d' h hd'

theorem Addable.wellFormed {d : Dirent} (hd : Addable db d)
    (hwf : WellFormed db) : WellFormed (db.addDirent d) :=
  hwf.addDirent hd.key hd.oid fun h => absurd h hd.oid_ne

theorem lookup_of_lookup_erase {d d' : Dirent} {k : Db1Key}
    (h : (db.delDirent d).dirents.lookup k = some d') :
    k ≠ d.key ∧ db.dirents.lookup k = some d' := by
  rw [NamingDb.delDirent_dirents] at h
  have hk : k ≠ d.key := by
    rintro rfl
    rw [AList.lookup_erase] at h
    cases h
  rw [AList.lookup_erase_ne hk] at h
  exact ⟨hk, h⟩

theorem WellFormed.delDirent (hwf : WellFormed db) (d : Dirent) :
    WellFormed (db.delDirent d) where
  key_eq k d' h := hwf.key_eq k d' (lookup_of_lookup_erase h).2
  unique := hwf.unique.erase d.key
  inode_oid := hwf.inode_oid
  zero k d' h := hwf.zero k d' (lookup_of_lookup_erase h).2

theorem WellFormed.putInode (hwf : WellFormed db) (i : Inode) :
    WellFormed (db.putInode i) where
  key_eq := hwf.key_eq
  unique := hwf.unique
  inode_oid o i' h := by
    rw [NamingDb.putInode_inodes] at h
    by_cases ho : o = i.entryObj.oid
    · subst ho
      rw [AList.lookup_insert, Option.some.injEq] at h
      rw [h]
    · rw [AList.lookup_insert_ne ho] at h
      exact hwf.inode_oid o i' h
  zero := hwf.zero

theorem WellFormed.delInode (hwf : WellFormed db) (o : Oid) :
    WellFormed (db.delInode o) where
  key_eq := hwf.key_eq
  unique := hwf.unique
  inode_oid o' i h := by
    rw [NamingDb.delInode_inodes] at h
    by_cases ho : o' = o
    · subst ho
      rw [AList.lookup_erase] at h
      cases h
    · rw [AList.lookup_erase_ne ho] at h
      exact hwf.inode_oid o' i h
  zero := hwf.zero

theorem Change.wellFormed {b : Bool} {db' : NamingDb} (h : Change db b db')
    (hwf : WellFormed db) : WellFormed db' := by
  cases h with
  | same => exact hwf
  | created d i hd => exact (hd.wellFormed hwf).putInode i
  | linked d i hd => exact (hd.wellFormed hwf).putInode _
  | uncounted d i hd => exact hd.wellFormed hwf
  | removed d i => exact (hwf.delDirent d).putInode _
  | removedLast d i => exact (hwf.delDirent d).delInode _
  | aborted d i => exact hwf.delDirent d

/-! ### The step of the server -/

variable {Mac : Type}

/-- The ids that a request generates are fresh. -/
def FreshStep (s : Server) (r : Env Mac × Request Mac) : Prop := Fresh r.1 s.db

instance (s : Server) (r : Env Mac × Request Mac) : Decidable (FreshStep s r) :=
  inferInstanceAs (Decidable (Fresh r.1 s.db))

theorem change_of_handle {env : Env Mac} {r : Request Mac}
    (hwf : WellFormed db) (hfresh : Fresh env db) :
    ∃ b, Change db b ((handle env r).final db) ∧
      (handle env r db = .error .abort ((handle env r).final db) ↔ b = true) := by
  cases hput : puts env db r with
  | some entry =>
      have hacts := handle_acts_put env hput
      obtain ⟨hchange, hne⟩ := change_of_puts hwf hfresh hput
      rw [hacts.bad_iff, hacts.final_eq]
      exact ⟨false, hchange, iff_of_false (hne _) nofun⟩
  | none =>
      cases hdel : deletes env db r with
      | some place =>
          have hacts := handle_acts_del env hdel
          rw [hacts.bad_iff, hacts.final_eq]
          exact change_of_deletes hwf place.1 place.2
      | none =>
          have hacts := handle_acts_none env hput hdel
          rw [hacts.bad_iff, hacts.final_eq]
          exact ⟨false, .same, iff_of_false pure_ne_error nofun⟩

theorem aborts_iff {s : Server} {r : Env Mac × Request Mac} :
    Aborts s r ↔ s.up = true ∧
      handle r.1 r.2 s.db = .error .abort ((handle r.1 r.2).final s.db) := by
  refine and_congr_right fun _ => ⟨fun ⟨db, h⟩ => ?_, fun h => ⟨_, h⟩⟩
  rw [final_of_error h, h]

/-- What a step makes of the database. -/
theorem change_of_step {s : Server} {r : Env Mac × Request Mac}
    (hwf : WellFormed s.db) (hfresh : FreshStep s r) :
    ∃ b, Change s.db b (step s r).db ∧ (Aborts s r ↔ b = true) := by
  rw [aborts_iff]
  unfold step
  by_cases hup : s.up = true
  · obtain ⟨b, hchange, hb⟩ := change_of_handle (r := r.2) hwf hfresh
    rw [if_pos hup]
    exact ⟨b, hchange, (and_iff_right hup).trans hb⟩
  · rw [if_neg hup]
    exact ⟨false, .same, iff_of_false (fun h => hup h.1) nofun⟩

theorem step_of_ok {s : Server} {r : Env Mac × Request Mac} {result : Result}
    (hup : s.up = true) (h : handle r.1 r.2 s.db = .ok result db) :
    step s r = ⟨db, true⟩ := by
  unfold step
  rw [if_pos hup, final_of_ok h]
  simp only [outcome, h, survives]

theorem wellFormed_step {s : Server} {r : Env Mac × Request Mac}
    (hwf : WellFormed s.db) (hfresh : FreshStep s r) :
    WellFormed (step s r).db := by
  obtain ⟨b, hchange, -⟩ := change_of_step hwf hfresh
  exact hchange.wellFormed hwf

end Lwfs.Naming
