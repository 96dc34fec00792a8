import Lwfs.Naming.Initial

/-!
Reference counts.

The count of an inode that the initialisation did not make is the number of
entries that name it, and the inode is there exactly as long as there is one.
The count is a 32-bit integer, so this holds as long as fewer than `2 ^ 31`
entries name the inode.
-/

namespace Lwfs.Naming

open SysLib Routine

variable {db : NamingDb} {o : Oid}

/-- The inode `o` is there exactly if an entry names it, and its count is the
number of entries that do. -/
structure RefCounted (db : NamingDb) (o : Oid) : Prop where
  exists_iff : (∃ i, db.inodes.lookup o = some i) ↔
    ∃ k d, db.dirents.lookup k = some d ∧ d.inodeOid = o
  refCnt_eq : ∀ i, db.inodes.lookup o = some i → i.refCnt.toInt = db.links o

/-! ### Counting the entries of an inode -/

@[simp] theorem links_putInode (i : Inode) : (db.putInode i).links o = db.links o :=
  rfl

@[simp] theorem links_delInode (o' : Oid) : (db.delInode o').links o = db.links o :=
  rfl

theorem links_addDirent {d : Dirent} (h : d.key ∉ db.dirents) :
    (db.addDirent d).links o = db.links o + if d.inodeOid = o then 1 else 0 :=
  Table.count_insert h

theorem links_delDirent {d : Dirent} (h : db.dirents.lookup d.key = some d) :
    (db.delDirent d).links o + (if d.inodeOid = o then 1 else 0) = db.links o :=
  Table.count_erase h

theorem links_pos_iff : 0 < db.links o ↔
    ∃ k d, db.dirents.lookup k = some d ∧ d.inodeOid = o := by
  rw [Nat.pos_iff_ne_zero, NamingDb.links, ne_eq, Table.count_eq_zero]
  simp only [not_forall, not_not, exists_prop]

theorem refCounted_iff : RefCounted db o ↔
    match db.inodes.lookup o with
    | none => db.links o = 0
    | some i => 0 < db.links o ∧ i.refCnt.toInt = db.links o := by
  cases h : db.inodes.lookup o with
  | none =>
      refine ⟨fun hc => ?_, fun hz => ⟨?_, ?_⟩⟩
      · by_contra hne
        obtain ⟨i, hi⟩ := hc.exists_iff.mpr
          (links_pos_iff.mp (Nat.pos_of_ne_zero hne))
        rw [h] at hi
        cases hi
      · rw [← links_pos_iff, h, hz]
        simp
      · rw [h]
        nofun
  | some i =>
      refine ⟨fun hc => ⟨?_, hc.refCnt_eq i h⟩, fun ⟨hpos, heq⟩ => ⟨?_, ?_⟩⟩
      · exact links_pos_iff.mpr (hc.exists_iff.mp ⟨i, h⟩)
      · exact iff_of_true ⟨i, h⟩ (links_pos_iff.mp hpos)
      · rw [h]
        rintro i' ⟨rfl⟩
        exact heq

/-! ### Inodes -/

@[simp] theorem withRefCnt_refCnt (i : Inode) (n : Int32) :
    (i.withRefCnt n).refCnt = n := rfl

@[simp] theorem withRefCnt_oid (i : Inode) (n : Int32) :
    (i.withRefCnt n).entryObj.oid = i.entryObj.oid := rfl

theorem lookup_putInode_self {i : Inode} (h : i.entryObj.oid = o) :
    (db.putInode i).inodes.lookup o = some i := by
  subst h
  exact AList.lookup_insert db.inodes

theorem lookup_putInode_ne {i : Inode} (h : i.entryObj.oid ≠ o) :
    (db.putInode i).inodes.lookup o = db.inodes.lookup o :=
  AList.lookup_insert_ne h.symm

theorem lookup_delInode_self : (db.delInode o).inodes.lookup o = none :=
  AList.lookup_erase o db.inodes

theorem lookup_delInode_ne {o' : Oid} (h : o' ≠ o) :
    (db.delInode o').inodes.lookup o = db.inodes.lookup o :=
  AList.lookup_erase_ne h.symm

/-! ### Counts that do not overflow -/

theorem toInt_add_one {n : Int32} (h : 0 ≤ n.toInt) (hlt : n.toInt + 1 < 2 ^ 31) :
    (n + 1).toInt = n.toInt + 1 := by
  have hone : (1 : Int32).toInt = 1 := rfl
  rw [Int32.toInt_add, hone]
  exact Int.bmod_eq_of_le (by omega) (by omega)

theorem toInt_sub_one {n : Int32} (h : 0 < n.toInt) :
    (n - 1).toInt = n.toInt - 1 := by
  have hone : (1 : Int32).toInt = 1 := rfl
  have hlt := n.toInt_lt
  rw [Int32.toInt_sub, hone]
  exact Int.bmod_eq_of_le (by omega) (by omega)

/-- A count that is not negative becomes negative only from zero. -/
theorem sub_one_neg_iff {n : Int32} (h : 0 ≤ n.toInt) : n - 1 < 0 ↔ n = 0 := by
  rw [← Int32.toInt_inj, Int32.lt_iff_toInt_lt, Int32.toInt_zero]
  refine ⟨fun hneg => ?_, fun hzero => ?_⟩
  · by_contra hne
    rw [toInt_sub_one (by omega)] at hneg
    omega
  · rw [Int32.toInt_inj.mp (hzero.trans Int32.toInt_zero.symm)]
    decide

/-- A count that stays positive when it is decremented. -/
theorem toInt_of_sub_one_pos {n : Int32} (h : 0 ≤ n.toInt) (hpos : 0 < n - 1) :
    1 < n.toInt ∧ (n - 1).toInt = n.toInt - 1 := by
  have hne : n.toInt ≠ 0 := by
    intro hzero
    rw [Int32.toInt_inj.mp (hzero.trans Int32.toInt_zero.symm)] at hpos
    exact absurd hpos (by decide)
  have hsub := toInt_sub_one (n := n) (by omega)
  rw [Int32.lt_iff_toInt_lt, Int32.toInt_zero, hsub] at hpos
  exact ⟨by omega, hsub⟩

theorem eq_one_of_sub_one {n : Int32} (h : n - 1 = 0) : n.toInt = 1 := by
  have hn : n = 1 := by
    rw [← Int32.sub_add_cancel n 1, h]
    rfl
  rw [hn]
  rfl

/-! ### What a change does to a count -/

theorem Change.refCounted {b : Bool} {db' : NamingDb} (h : Change db b db')
    (hwf : WellFormed db) (ho : o ≠ Oid.zero) (hbound : db'.links o < 2 ^ 31)
    (hc : RefCounted db o) : RefCounted db' o := by
  rw [refCounted_iff] at hc ⊢
  cases h with
  | same => exact hc
  | created d i hd hlinks hnone hoid hcnt =>
      rw [links_putInode, links_addDirent hd.key]
      by_cases hdo : d.inodeOid = o
      · subst hdo
        simp only [hnone] at hc
        rw [lookup_putInode_self hoid, hc]
        simp only [if_true, hcnt]
        decide
      · rw [lookup_putInode_ne (hoid ▸ hdo), if_neg hdo]
        exact hc
  | linked d i hd hi =>
      have hoid := hwf.inode_oid _ _ hi
      rw [links_putInode, links_addDirent hd.key] at hbound ⊢
      by_cases hdo : d.inodeOid = o
      · subst hdo
        simp only [hi] at hc
        obtain ⟨hpos, heq⟩ := hc
        rw [if_pos rfl] at hbound ⊢
        rw [lookup_putInode_self (by exact hoid)]
        -- the bound on the names is what keeps the 32-bit count from wrapping here
        have hadd := toInt_add_one (n := i.refCnt) (by omega) (by omega)
        exact ⟨Nat.succ_pos _, hadd.trans (by omega)⟩
      · rw [lookup_putInode_ne (by rw [withRefCnt_oid, hoid]; exact hdo),
          if_neg hdo]
        exact hc
  -- a name for inode zero is not a name for `o`
  | uncounted d i hd hzero =>
      have hdo : d.inodeOid ≠ o := hzero ▸ ho.symm
      rw [links_addDirent hd.key, if_neg hdo]
      exact hc
  | removed d i hd hi hcnt =>
      have hoid := hwf.inode_oid _ _ hi
      have hlinks := links_delDirent (o := o) hd
      rw [links_putInode]
      by_cases hdo : d.inodeOid = o
      · subst hdo
        simp only [hi] at hc
        obtain ⟨hpos, heq⟩ := hc
        obtain ⟨hgt, hsub⟩ := toInt_of_sub_one_pos (by omega) hcnt
        rw [if_pos rfl] at hlinks
        rw [lookup_putInode_self (by exact hoid)]
        exact ⟨by omega, hsub.trans (by omega)⟩
      · rw [if_neg hdo, Nat.add_zero] at hlinks
        rw [lookup_putInode_ne (by rw [withRefCnt_oid, hoid]; exact hdo), hlinks]
        exact hc
  | removedLast d i hd hi hcnt =>
      have hlinks := links_delDirent (o := o) hd
      rw [links_delInode]
      by_cases hdo : d.inodeOid = o
      · subst hdo
        simp only [hi] at hc
        obtain ⟨hpos, heq⟩ := hc
        have hone := eq_one_of_sub_one hcnt
        rw [if_pos rfl] at hlinks
        rw [lookup_delInode_self]
        show (db.delDirent d).links d.inodeOid = 0
        omega
      · rw [if_neg hdo, Nat.add_zero] at hlinks
        rw [lookup_delInode_ne hdo, hlinks]
        exact hc
  -- the entry is gone and the count is not stored: this needs a count of zero,
  -- which the removed name contradicts
  | aborted d i hd hi hcnt =>
      have hlinks := links_delDirent (o := o) hd
      by_cases hdo : d.inodeOid = o
      · subst hdo
        simp only [hi] at hc
        obtain ⟨hpos, heq⟩ := hc
        have hzero := (sub_one_neg_iff (by omega)).mp hcnt
        rw [hzero, Int32.toInt_zero] at heq
        omega
      · rw [if_neg hdo, Nat.add_zero] at hlinks
        rw [hlinks]
        exact hc

/-! ### Whole runs -/

/-- The initialisation makes no other inodes. -/
theorem lookup_inodes_initialDb {oids : InitOids} (ho : o ∉ oids.inodes) :
    (initialDb oids).inodes.lookup o = none := by
  simp only [InitOids.inodes, List.mem_cons, List.not_mem_nil, or_false,
    not_or] at ho
  obtain ⟨hzero, hroot, horphan⟩ := ho
  exact (AList.lookup_insert_ne horphan).trans
    ((AList.lookup_insert_ne hroot).trans (AList.lookup_insert_ne hzero))

theorem refCounted_init {oids : InitOids} (h : oids.Fresh) (ho : o ∉ oids.inodes) :
    RefCounted (Server.init oids).db o := by
  rw [init_db h, refCounted_iff, lookup_inodes_initialDb ho]
  simp only [InitOids.inodes, List.mem_cons, List.not_mem_nil, or_false,
    not_or] at ho
  obtain ⟨hzero, hroot, horphan⟩ := ho
  refine Table.count_eq_zero.mpr fun k d hd heq => ?_
  rcases lookup_initialDb hd with rfl | rfl | rfl
  · exact hzero heq.symm
  · exact hroot heq.symm
  · exact horphan heq.symm

variable {Mac : Type}

/-- After the request, fewer than `2 ^ 31` entries name the inode `o`. -/
def LinksFit (o : Oid) (s : Server) (r : Env Mac × Request Mac) : Prop :=
  (step s r).db.links o < 2 ^ 31

instance (o : Oid) (s : Server) (r : Env Mac × Request Mac) :
    Decidable (LinksFit o s r) :=
  inferInstanceAs (Decidable ((step s r).db.links o < 2 ^ 31))

theorem ne_zero_of_not_initial {oids : InitOids} (ho : o ∉ oids.inodes) :
    o ≠ Oid.zero := by
  rintro rfl
  exact ho List.mem_cons_self

theorem wellFormed_refCounted_init {oids : InitOids} (hoids : oids.Fresh)
    (ho : o ∉ oids.inodes) :
    WellFormed (Server.init oids).db ∧ RefCounted (Server.init oids).db o := by
  refine ⟨?_, refCounted_init hoids ho⟩
  rw [init_db hoids]
  exact wellFormed_initialDb hoids

/-- A run of fresh steps keeps the count of an inode, as long as it fits. -/
theorem wellFormed_refCounted_exec (hzero : o ≠ Oid.zero) {s : Server}
    (hs : WellFormed s.db ∧ RefCounted s.db o)
    {run : List (Env Mac × Request Mac)}
    (hfresh : Run.Along step FreshStep s run)
    (hfit : Run.Along step (LinksFit o) s run) :
    WellFormed (Run.exec step s run).db ∧ RefCounted (Run.exec step s run).db o := by
  have hstep : ∀ (s : Server) (r : Env Mac × Request Mac),
      WellFormed s.db ∧ RefCounted s.db o → FreshStep s r ∧ LinksFit o s r →
      WellFormed (step s r).db ∧ RefCounted (step s r).db o := by
    rintro s r ⟨hwf, hc⟩ ⟨hf, hlt⟩
    obtain ⟨b, hchange, -⟩ := change_of_step hwf hf
    exact ⟨hchange.wellFormed hwf, hchange.refCounted hwf hzero hlt hc⟩
  have hrun := (Run.along_and step FreshStep (LinksFit o) _ run).mpr ⟨hfresh, hfit⟩
  exact Run.exec_invariant hstep hs hrun

/-- In every state that the server reaches from a cleared database, the count
of an inode that the initialisation did not make is the number of entries
that name it, as long as these have always been fewer than `2 ^ 31`. -/
theorem refCounted_exec {oids : InitOids} (hoids : oids.Fresh)
    {run : List (Env Mac × Request Mac)}
    (hfresh : Run.Along step FreshStep (Server.init oids) run)
    (ho : o ∉ oids.inodes)
    (hfit : Run.Along step (LinksFit o) (Server.init oids) run) :
    RefCounted (Run.exec step (Server.init oids) run).db o :=
  (wellFormed_refCounted_exec (ne_zero_of_not_initial ho)
    (wellFormed_refCounted_init hoids ho) hfresh hfit).2

theorem refCounted_exec_link_unlink :
    RefCounted (Run.exec step (Server.init countingOids)
      [createFileStep, createLinkStep 1 ['g'], unlinkStep 2 fileName]).db
      (oidOf 11) :=
  refCounted_exec countingOids_fresh (by decide) (by decide) (by decide)

end Lwfs.Naming
