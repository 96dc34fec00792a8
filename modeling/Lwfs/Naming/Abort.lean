import Lwfs.Naming.RefCount

/-!
When the naming server aborts.

An inode that the initialisation made starts with the count zero although an
entry names it, so its count stays behind the number of its entries. Removing
one of them while the count is zero makes the count negative, and `db_del`
calls `abort()`. No other request does that.
-/

namespace Lwfs.Naming

open SysLib Routine

variable {db : NamingDb} {o : Oid} {Mac : Type}

/-- An entry names the inode `o`, and its count is smaller than the number of
the entries that do. -/
structure InitialCounted (db : NamingDb) (o : Oid) : Prop where
  links_pos : 0 < db.links o
  refCnt : ∀ i, db.inodes.lookup o = some i →
    0 ≤ i.refCnt.toInt ∧ i.refCnt.toInt < db.links o

/-- The entry that a request deletes, if its checks succeed. -/
def deletedEntry (env : Env Mac) (db : NamingDb) (r : Request Mac) :
    Option DbEntry :=
  (deletes env db r).bind fun place =>
    (namingDbGetByName place.1 place.2 db).toOption

/-- The request passes its checks and deletes an entry that names one of the
initial inodes, while the count of that is zero. -/
def DeletesUncounted (oids : InitOids) (s : Server)
    (r : Env Mac × Request Mac) : Prop :=
  s.up = true ∧ ∃ e ∈ deletedEntry r.1 s.db r.2,
    e.dirent.inodeOid ∈ oids.inodes ∧ e.inode.refCnt = 0

instance (oids : InitOids) (s : Server) (r : Env Mac × Request Mac) :
    Decidable (DeletesUncounted oids s r) :=
  inferInstanceAs (Decidable (_ ∧ ∃ e ∈ _, _))

theorem deletedEntry_eq_some {env : Env Mac} {r : Request Mac} {e : DbEntry} :
    deletedEntry env db r = some e ↔ ∃ parentOid name,
      deletes env db r = some (parentOid, name) ∧
        namingDbGetByName parentOid name db = .ok e := by
  have htoOption {x : Except Fault DbEntry} : x.toOption = some e ↔ x = .ok e := by
    cases x <;> simp [Except.toOption]
  simp only [deletedEntry, Option.bind_eq_some_iff, htoOption, Prod.exists]

/-! ### The counts of the initial inodes -/

theorem Change.initialCounted {db' : NamingDb} (h : Change db false db')
    (hwf : WellFormed db) (hbound : db'.links o < 2 ^ 31)
    (hc : InitialCounted db o) : InitialCounted db' o := by
  obtain ⟨hpos, hcnt⟩ := hc
  cases h with
  | same => exact ⟨hpos, hcnt⟩
  | created d i hd hlinks hnone hoid hone =>
      have hdo : d.inodeOid ≠ o := by
        rintro rfl
        obtain ⟨k, d', hd', heq⟩ := links_pos_iff.mp hpos
        exact hlinks k d' hd' heq
      refine ⟨?_, ?_⟩ <;> rw [links_putInode, links_addDirent hd.key, if_neg hdo]
      · exact hpos
      · rw [lookup_putInode_ne (hoid ▸ hdo)]
        exact hcnt
  | linked d i hd hi =>
      have hoid := hwf.inode_oid _ _ hi
      rw [links_putInode, links_addDirent hd.key] at hbound
      refine ⟨?_, ?_⟩ <;> rw [links_putInode, links_addDirent hd.key]
      · exact Nat.add_pos_left hpos _
      by_cases hdo : d.inodeOid = o
      · subst hdo
        obtain ⟨hnonneg, hlt⟩ := hcnt i hi
        rw [if_pos rfl] at hbound ⊢
        rw [lookup_putInode_self (by exact hoid)]
        rintro i' ⟨rfl⟩
        rw [withRefCnt_refCnt, toInt_add_one hnonneg (by omega)]
        omega
      · rw [if_neg hdo, lookup_putInode_ne
          (by rw [withRefCnt_oid, hoid]; exact hdo)]
        exact hcnt
  | uncounted d i hd hzero hi =>
      refine ⟨?_, ?_⟩ <;> rw [links_addDirent hd.key]
      · exact Nat.add_pos_left hpos _
      · intro i' hi'
        obtain ⟨hnonneg, hlt⟩ := hcnt i' hi'
        exact ⟨hnonneg, by omega⟩
  | removed d i hd hi hgt =>
      have hoid := hwf.inode_oid _ _ hi
      have hlinks := links_delDirent (o := o) hd
      by_cases hdo : d.inodeOid = o
      · subst hdo
        obtain ⟨hnonneg, hlt⟩ := hcnt i hi
        obtain ⟨hgt, hsub⟩ := toInt_of_sub_one_pos hnonneg hgt
        rw [if_pos rfl] at hlinks
        refine ⟨?_, ?_⟩ <;> rw [links_putInode]
        · omega
        · rw [lookup_putInode_self (by exact hoid)]
          rintro i' ⟨rfl⟩
          rw [withRefCnt_refCnt, hsub]
          omega
      · rw [if_neg hdo, Nat.add_zero] at hlinks
        refine ⟨?_, ?_⟩ <;> rw [links_putInode, hlinks]
        · exact hpos
        · rw [lookup_putInode_ne (by rw [withRefCnt_oid, hoid]; exact hdo)]
          exact hcnt
  | removedLast d i hd hi hzero =>
      have hlinks := links_delDirent (o := o) hd
      by_cases hdo : d.inodeOid = o
      · subst hdo
        obtain ⟨hnonneg, hlt⟩ := hcnt i hi
        have hone := eq_one_of_sub_one hzero
        rw [if_pos rfl] at hlinks
        refine ⟨?_, ?_⟩
        · show 0 < (db.delDirent d).links d.inodeOid
          omega
        · rw [lookup_delInode_self]
          nofun
      · rw [if_neg hdo, Nat.add_zero] at hlinks
        refine ⟨?_, ?_⟩ <;> rw [links_delInode, hlinks]
        · exact hpos
        · rw [lookup_delInode_ne hdo]
          exact hcnt

theorem initialCounted_init {oids : InitOids} (h : oids.Fresh)
    (ho : o ∈ oids.inodes) : InitialCounted (Server.init oids).db o := by
  rw [init_db h]
  have hpos := links_pos_iff.mpr (exists_lookup_initialDb ho)
  refine ⟨hpos, fun i hi => ?_⟩
  rw [refCnt_initialDb hi, Int32.toInt_zero]
  exact ⟨Int.le_refl 0, Int.natCast_pos.mpr hpos⟩

/-! ### Whole runs -/

/-- While the server runs, every count is what it should be. -/
def Counted (oids : InitOids) (s : Server) : Prop :=
  s.up = true → WellFormed s.db ∧
    ∀ o, if o ∈ oids.inodes then InitialCounted s.db o else RefCounted s.db o

/-- The entries of every inode can be counted after the request. -/
def LinksAllFit (s : Server) (r : Env Mac × Request Mac) : Prop :=
  ∀ o, LinksFit o s r

theorem counted_init {oids : InitOids} (h : oids.Fresh) :
    Counted oids (Server.init oids) := by
  refine fun _ => ⟨?_, fun o => ?_⟩
  · rw [init_db h]
    exact wellFormed_initialDb h
  · split_ifs with ho
    · exact initialCounted_init h ho
    · exact refCounted_init h ho

theorem step_up_of_aborts {s : Server} {r : Env Mac × Request Mac}
    (h : Aborts s r) : (step s r).up = false := by
  obtain ⟨hup, db, heq⟩ := h
  unfold step
  rw [if_pos hup]
  simp only [outcome, heq, survives]

theorem counted_step {oids : InitOids} {s : Server} {r : Env Mac × Request Mac}
    (hc : Counted oids s) (hfresh : FreshStep s r) (hfit : LinksAllFit s r) :
    Counted oids (step s r) := by
  intro hup
  have hs : s.up = true := by
    by_contra hdown
    rw [step, if_neg hdown] at hup
    exact hdown hup
  obtain ⟨hwf, hcounts⟩ := hc hs
  obtain ⟨b, hchange, hb⟩ := change_of_step hwf hfresh
  have hfalse : b = false := by
    rw [← Bool.not_eq_true, ← hb]
    intro habort
    rw [step_up_of_aborts habort] at hup
    cases hup
  subst hfalse
  refine ⟨hchange.wellFormed hwf, fun o => ?_⟩
  have ho := hcounts o
  split_ifs at ho ⊢ with hmem
  · exact hchange.initialCounted hwf (hfit o) ho
  · have hne : o ≠ Oid.zero := by
      rintro rfl
      exact hmem List.mem_cons_self
    exact hchange.refCounted hwf hne (hfit o) ho

/-- A count that is as it should be becomes negative only if it is the count
of an initial inode and zero. -/
theorem sub_one_neg_iff_of_counted {oids : InitOids} {e : DbEntry}
    {parentOid : Oid} {name : Name}
    (hc : if e.dirent.inodeOid ∈ oids.inodes then
      InitialCounted db e.dirent.inodeOid else RefCounted db e.dirent.inodeOid)
    (hget : namingDbGetByName parentOid name db = .ok e) :
    e.inode.refCnt - 1 < 0 ↔
      e.dirent.inodeOid ∈ oids.inodes ∧ e.inode.refCnt = 0 := by
  obtain ⟨hd, hi⟩ := namingDbGetByName_eq_ok.mp hget
  split_ifs at hc with hmem
  · rw [sub_one_neg_iff (hc.refCnt _ hi).1]
    exact (and_iff_right hmem).symm
  · have heq := hc.refCnt_eq _ hi
    have hpos := links_pos_iff.mpr ⟨_, _, hd, rfl⟩
    rw [sub_one_neg_iff (by omega)]
    refine iff_of_false (fun hzero => ?_) (fun h => hmem h.1)
    rw [hzero, Int32.toInt_zero] at heq
    omega

/-- In such a state, a request aborts the server exactly if it deletes an
entry of an initial inode that counts none. -/
theorem aborts_iff_deletesUncounted {oids : InitOids} {s : Server}
    {r : Env Mac × Request Mac} (hc : Counted oids s) (hfresh : FreshStep s r) :
    Aborts s r ↔ DeletesUncounted oids s r := by
  rw [aborts_iff]
  refine and_congr_right fun hup => ?_
  obtain ⟨hwf, hcounts⟩ := hc hup
  cases hdel : deletes r.1 s.db r.2 with
  | none =>
      refine iff_of_false ?_ ?_
      · cases hput : puts r.1 s.db r.2 with
        | none =>
            rw [(handle_acts_none r.1 hput hdel).bad_iff]
            exact pure_ne_error
        | some entry =>
            rw [(handle_acts_put r.1 hput).bad_iff]
            exact (change_of_puts hwf hfresh hput).2 _
      · rintro ⟨e, he, -⟩
        obtain ⟨p, n, heq, -⟩ := deletedEntry_eq_some.mp he
        rw [hdel] at heq
        cases heq
  | some place =>
      obtain ⟨parentOid, name⟩ := place
      rw [(handle_acts_del r.1 hdel).bad_iff, namingDbDel_aborts_iff hwf]
      refine ⟨fun ⟨e, hget, hneg⟩ => ?_, fun ⟨e, he, hzero⟩ => ?_⟩
      · exact ⟨e, deletedEntry_eq_some.mpr ⟨_, _, hdel, hget⟩,
          (sub_one_neg_iff_of_counted (hcounts _) hget).mp hneg⟩
      · obtain ⟨p, n, heq, hget⟩ := deletedEntry_eq_some.mp he
        rw [hdel] at heq
        cases heq
        exact ⟨e, hget, (sub_one_neg_iff_of_counted (hcounts _) hget).mpr hzero⟩

/-- From a cleared database, a run of the server never aborts exactly if no
request in it passes its checks and deletes an entry that names an initial
inode whose count is zero, as long as the entries of an inode have always
been fewer than `2 ^ 31`. -/
theorem never_aborts_iff {oids : InitOids} (hoids : oids.Fresh)
    {run : List (Env Mac × Request Mac)}
    (hfresh : Run.Along step FreshStep (Server.init oids) run)
    (hfit : Run.Along step LinksAllFit (Server.init oids) run) :
    Run.Along step (fun s r => ¬ Aborts s r) (Server.init oids) run ↔
      Run.Along step (fun s r => ¬ DeletesUncounted oids s r)
        (Server.init oids) run := by
  refine Run.along_congr (Run.along_of_invariant
    (fun s r hc hr => counted_step hc hr.1 hr.2)
    (fun s r hc hr => not_congr (aborts_iff_deletesUncounted hc hr.1))
    (counted_init hoids) ((Run.along_and step _ _ _ run).mpr ⟨hfresh, hfit⟩))

/-! ### Two runs -/

/-- As long as there are fewer than `2 ^ 31` entries at all, those of every
inode fit. -/
theorem linksAllFit_of_length {s : Server} {r : Env Mac × Request Mac}
    (h : (step s r).db.dirents.entries.length < 2 ^ 31) : LinksAllFit s r :=
  fun _ => Nat.lt_of_le_of_lt List.countP_le_length h

def removeNamespaceStep (n : ℕ) (name : Name) : Env Unit × Request Unit :=
  (countingEnv n, .removeNamespace name readWriteCap)

/-- A namespace is created, and the server is asked to remove it. -/
theorem never_aborts_namespace :
    Run.Along step (fun s r => ¬ Aborts s r) (Server.init countingOids)
      [(countingEnv 0, .createNamespace ['n'] 0), removeNamespaceStep 1 ['n']] := by
  refine (never_aborts_iff countingOids_fresh (by decide) ?_).mpr ?_
  · exact ⟨linksAllFit_of_length (by decide), linksAllFit_of_length (by decide),
      trivial⟩
  · decide

/-- On a cleared database, the server is asked to remove the namespace `/`. -/
theorem removeNamespace_root_aborts :
    countingOids.Fresh ∧
    FreshStep (Server.init countingOids) (removeNamespaceStep 0 rootName) ∧
    Aborts (Server.init countingOids) (removeNamespaceStep 0 rootName) :=
  ⟨countingOids_fresh, by decide, rfl, _, rfl⟩

end Lwfs.Naming
