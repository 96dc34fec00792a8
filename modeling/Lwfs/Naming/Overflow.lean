import Lwfs.Lib.Format
import Lwfs.Naming.RefCount

/-!
Where reference counts end.

A client that may write to a directory can make links to one file for as long
as it has names for them. Every link is counted, and the count is a 32-bit
integer.
-/

namespace Lwfs.Naming

open SysLib Routine

/-- The name of the link with number `n`: its decimal digits. -/
def linkName (n : ℕ) : Name := formatPadded 1 n

theorem length_linkName {n : ℕ} (h : n < 2 ^ 33) : (linkName n).length ≤ 11 := by
  have hlen : (formatPadded 1 n).length ≤ max 1 (10 + 1) :=
    length_formatPadded_le (by decide) (by omega)
  show (formatPadded 1 n).length ≤ 11
  omega

theorem clip_linkName {n : ℕ} (h : n < 2 ^ 33) : clip (linkName n) = linkName n := by
  refine List.take_of_length_le ?_
  have hlen := length_linkName h
  show (linkName n).length ≤ 64
  omega

theorem linkName_inj {m n : ℕ} : linkName m = linkName n ↔ m = n := by
  unfold linkName
  rw [formatPadded_inj, Int.natCast_inj]

theorem linkName_ne_fileName (n : ℕ) : linkName n ≠ fileName := by
  intro h
  have hmem : 'f' ∈ formatPadded 1 (n : ℤ) := by
    show 'f' ∈ linkName n
    rw [h]
    exact List.mem_cons_self
  rcases mem_formatPadded hmem with hc | hc <;> exact absurd hc (by decide)

theorem oidOf_inj {m n : ℕ} (hm : m < 2 ^ 64) (hn : n < 2 ^ 64) :
    oidOf m = oidOf n ↔ m = n := by
  refine ⟨fun h => ?_, fun h => by rw [h]⟩
  have hbytes : Bytes.ofNat uuidSize m = Bytes.ofNat uuidSize n :=
    congrArg Octets.bytes h
  have hm' : m < 256 ^ uuidSize := Nat.lt_trans hm (by decide)
  have hn' : n < 256 ^ uuidSize := Nat.lt_trans hn (by decide)
  exact (Bytes.ofNat_inj hm' hn').mp hbytes

/-- The file and `n` links to it are in the root directory, and the names and
ids of further links are free. -/
structure Linked (n : ℕ) (s : Server) : Prop where
  up : s.up = true
  wf : WellFormed s.db
  root : s.db.dirents.lookup (rootEntry countingOids).dirent.key =
    some (rootEntry countingOids).dirent
  rootInode : s.db.inodes.lookup countingOids.rootInode =
    some (rootEntry countingOids).inode
  file : ∃ e, namingDbGetByName countingOids.root fileName s.db = .ok e ∧
    e.dirent.oid = oidOf 10 ∧ e.dirent.inodeOid = oidOf 11 ∧
    e.inode.fileObjValid = true
  links : s.db.links (oidOf 11) = n + 1
  names : ∀ j, n < j → j < 2 ^ 33 →
    db1Keygen countingOids.root (linkName j) ∉ s.db.dirents
  oids : ∀ k d, s.db.dirents.lookup k = some d → ∃ j ≤ n + 5, d.oid = oidOf (2 * j)
  inodeOids : ∀ k d, s.db.dirents.lookup k = some d →
    ∃ j ≤ 11, d.inodeOid = oidOf j
  inodes : ∀ j, 11 < j → j < 2 ^ 64 → s.db.inodes.lookup (oidOf j) = none

theorem copyDbToNsEntry_of_valid (db : NamingDb) {e : DbEntry}
    (h : e.inode.fileObjValid = true) : ∃ ns, copyDbToNsEntry e db = .ok ns := by
  unfold copyDbToNsEntry getFileObj
  rw [if_pos h]
  exact ⟨_, rfl⟩

section Step

variable {n : ℕ} {s : Server} (h : Linked n s) (hn : n < 2 ^ 33 - 1)

include h

theorem Linked.checkPerm_root (k : ℕ) {op : Opcode}
    (hop : op &&& readWriteCap.data.containerOp = op) :
    checkPerm (countingEnv k) countingOids.root readWriteCap op s.db = .ok () := by
  have hget : namingDbGetByOid countingOids.root s.db =
      .ok (rootEntry countingOids) :=
    namingDbGetByOid_eq_ok.mpr ⟨⟨_, h.wf.unique.find_eq h.root⟩, h.rootInode⟩
  exact checkPerm_eq_ok.mpr ⟨_, hget, .inl rfl, hop, rfl⟩

include hn

theorem Linked.fresh : Fresh (countingEnv (n + 1)) s.db where
  direntOid_ne heq := by
    have := (oidOf_inj (m := 10 + 2 * (n + 1)) (n := 0) (by omega) (by omega)).mp heq
    omega
  dirent k d hd heq := by
    obtain ⟨j, hj, hoid⟩ := h.oids k d hd
    have := (oidOf_inj (by omega) (by omega)).mp (hoid.symm.trans heq)
    omega
  links k d hd heq := by
    obtain ⟨j, hj, hoid⟩ := h.inodeOids k d hd
    have := (oidOf_inj (by omega) (by omega)).mp (hoid.symm.trans heq)
    omega
  inode := h.inodes _ (by omega) (by omega)

/-- The link is made. -/
theorem Linked.link_eq : ∃ d i ns, d.oid = oidOf (2 * (n + 6)) ∧
    d.inodeOid = oidOf 11 ∧ d.key = db1Keygen countingOids.root (linkName (n + 1)) ∧
    i.entryObj.oid = oidOf 11 ∧
    i.fileObjValid = true ∧
    namingCreateLink (countingEnv (n + 1)) rootDir (linkName (n + 1)) readWriteCap
      rootDir fileName readWriteCap s.db =
        .ok ns ((s.db.addDirent d).putInode i) := by
  obtain ⟨e, hget, hoid, hinode, hvalid⟩ := h.file
  obtain ⟨-, hi⟩ := namingDbGetByName_eq_ok.mp hget
  let entry := linkTo (countingEnv (n + 1)) countingOids.root (linkName (n + 1)) e
  have hkey : entry.dirent.key =
      db1Keygen countingOids.root (linkName (n + 1)) := by
    have hclip : clip (linkName (n + 1)) = linkName (n + 1) :=
      clip_linkName (by omega)
    exact congrArg (db1Keygen countingOids.root) hclip
  have hlink : e.dirent.oid ≠ Oid.zero := by
    rw [hoid]
    decide
  let i := e.inode.withRefCnt (e.inode.refCnt + 1)
  have hput : namingDbPut entry true s.db =
      .ok () ((s.db.addDirent entry.dirent).putInode i) := by
    refine namingDbPut_linkTo h.wf hlink hi ?_
    rw [show (linkTo (countingEnv (n + 1)) _ _ e).dirent.key = _ from hkey]
    exact h.names _ (Nat.lt_succ_self n) (by omega)
  have hentry : entry.inode.fileObjValid = true := hvalid
  obtain ⟨ns, hcopy⟩ := copyDbToNsEntry_of_valid
    ((s.db.addDirent entry.dirent).putInode i) hentry
  refine ⟨entry.dirent, i, ns, ?_, hinode, hkey,
    (h.wf.inode_oid _ _ hi).trans hinode, hvalid, ?_⟩
  · show oidOf (10 + 2 * (n + 1)) = _
    congr 1
    omega
  · refine (reader_bind_ok (f := fun _ => checkParent rootDir) rfl).trans ?_
    refine (reader_bind_ok (h.checkPerm_root _ (by decide))).trans ?_
    refine (reader_bind_ok (h.checkPerm_root _ (by decide))).trans ?_
    refine (reader_bind_ok hget).trans ?_
    exact (bind_of_ok hput).trans (reader_of_ok hcopy)

theorem Linked.step :
    Linked (n + 1) (step s (createLinkStep (n + 1) (linkName (n + 1)))) := by
  obtain ⟨d, i, ns, hoid, hinode, hkey, hi, hvalid, hlink⟩ := h.link_eq hn
  have heq : Naming.step s (createLinkStep (n + 1) (linkName (n + 1))) =
      ⟨(s.db.addDirent d).putInode i, true⟩ := step_of_ok h.up (map_of_ok hlink)
  have hnot : d.key ∉ s.db.dirents := by
    rw [hkey]
    exact h.names _ (Nat.lt_succ_self n) (by omega)
  have hold {k : Db1Key} (hk : k ∈ s.db.dirents) :
      (s.db.dirents.insert d.key d).lookup k = s.db.dirents.lookup k :=
    AList.lookup_insert_ne fun heq => hnot (heq ▸ hk)
  have hmem {k : Db1Key} {d' : Dirent} (hd : s.db.dirents.lookup k = some d') :
      k ∈ s.db.dirents := AList.lookup_isSome.mp (by rw [hd]; rfl)
  refine ⟨by rw [heq], wellFormed_step h.wf (h.fresh hn), ?_, ?_, ?_, ?_, ?_, ?_,
    ?_, ?_⟩ <;> rw [heq]
  · exact (hold (hmem h.root)).trans h.root
  · refine (lookup_putInode_ne ?_).trans h.rootInode
    rw [hi]
    decide
  · obtain ⟨e, hget, heoid, heinode, -⟩ := h.file
    obtain ⟨hd, -⟩ := namingDbGetByName_eq_ok.mp hget
    refine ⟨⟨e.dirent, i⟩, namingDbGetByName_eq_ok.mpr ⟨?_, ?_⟩, heoid, heinode,
      hvalid⟩
    · exact (hold (hmem hd)).trans hd
    · exact lookup_putInode_self (hi.trans heinode.symm)
  · rw [links_putInode, links_addDirent hnot, h.links, if_pos hinode]
  · intro j hj hlt hmemj
    rcases (AList.mem_insert _).mp hmemj with hkj | hkj
    · rw [hkey] at hkj
      have hclip : clip (linkName j) = clip (linkName (n + 1)) :=
        congrArg Db1Key.name hkj
      rw [clip_linkName hlt, clip_linkName (by omega), linkName_inj] at hclip
      omega
    · exact h.names j (by omega) hlt hkj
  · intro k d' hd'
    rcases lookup_addDirent hd' with ⟨-, rfl⟩ | hd'
    · exact ⟨n + 6, by omega, hoid⟩
    · obtain ⟨j, hj, hd'⟩ := h.oids k d' hd'
      exact ⟨j, by omega, hd'⟩
  · intro k d' hd'
    rcases lookup_addDirent hd' with ⟨-, rfl⟩ | hd'
    · exact ⟨11, le_rfl, hinode⟩
    · exact h.inodeOids k d' hd'
  · intro j hj hlt
    refine (lookup_putInode_ne ?_).trans (h.inodes j hj hlt)
    rw [hi]
    intro heq
    have := (oidOf_inj (by omega) hlt).mp heq
    omega

end Step

/-- After the file was created. -/
theorem linked_zero : Linked 0 (step (Server.init countingOids) createFileStep) := by
  have hwf : WellFormed (Server.init countingOids).db := by
    rw [init_db countingOids_fresh]
    exact wellFormed_initialDb countingOids_fresh
  have hkeys : (step (Server.init countingOids) createFileStep).db.dirents.keys =
      [⟨countingOids.root, fileName⟩, ⟨Oid.zero, orphanName⟩,
        ⟨Oid.zero, rootName⟩, ⟨Oid.zero, globalDbKey⟩] := rfl
  have hinodes : (step (Server.init countingOids) createFileStep).db.inodes.keys =
      [oidOf 11, oidOf 3, oidOf 1, oidOf 0] := rfl
  refine ⟨rfl, wellFormed_step hwf (by decide), rfl, rfl,
    ⟨newEntry (countingEnv 0) countingOids.root fileName fileEntry 0
      (some Obj.zero), rfl, rfl, rfl, rfl⟩, rfl, ?_, ?_, ?_, ?_⟩
  · intro j hj hlt hmem
    have hroot : countingOids.root ≠ Oid.zero := by decide
    rw [AList.mem_keys, hkeys, db1Keygen, clip_linkName hlt] at hmem
    simp only [List.mem_cons, Db1Key.mk.injEq, hroot, linkName_ne_fileName,
      and_false, false_and, List.not_mem_nil, or_self] at hmem
  · rw [Table.forall_lookup_iff]
    decide
  · rw [Table.forall_lookup_iff]
    decide
  · intro j hj hlt
    rw [AList.lookup_eq_none, AList.mem_keys, hinodes]
    simp only [List.mem_cons, List.not_mem_nil, or_false]
    rintro (h | h | h | h) <;>
      have := (oidOf_inj hlt (by omega)).mp h <;> omega

/-- The file is created, and then `n` links to it. -/
def linkRun (n : ℕ) : List (Env Unit × Request Unit) :=
  createFileStep ::
    (List.range n).map fun j => createLinkStep (j + 1) (linkName (j + 1))

theorem linkRun_succ (n : ℕ) :
    linkRun (n + 1) = linkRun n ++ [createLinkStep (n + 1) (linkName (n + 1))] := by
  simp only [linkRun, List.range_succ, List.map_append, List.map_cons,
    List.map_nil, List.cons_append]

/-- Any number of links below `2 ^ 33` can be made. -/
theorem linked_linkRun {n : ℕ} (hn : n ≤ 2 ^ 33 - 1) :
    Run.Along step FreshStep (Server.init countingOids) (linkRun n) ∧
      Linked n (Run.exec step (Server.init countingOids) (linkRun n)) := by
  induction n with
  | zero => exact ⟨⟨by decide, trivial⟩, linked_zero⟩
  | succ n ih =>
      obtain ⟨hfresh, hlinked⟩ := ih (by omega)
      rw [linkRun_succ, Run.along_append, Run.exec_append]
      exact ⟨⟨hfresh, hlinked.fresh hn, trivial⟩, hlinked.step hn⟩

/-- The file is created, and `2 ^ 31 - 1` links to it. Its inode cannot count
the `2 ^ 31` entries that name it then. -/
theorem refCnt_overflows :
    countingOids.Fresh ∧
    Run.Along step FreshStep (Server.init countingOids) (linkRun (2 ^ 31 - 1)) ∧
    oidOf 11 ∉ countingOids.inodes ∧
    ¬ RefCounted (Run.exec step (Server.init countingOids)
      (linkRun (2 ^ 31 - 1))).db (oidOf 11) := by
  obtain ⟨hfresh, hlinked⟩ := linked_linkRun (n := 2 ^ 31 - 1) (by decide)
  refine ⟨countingOids_fresh, hfresh, by decide, fun hc => ?_⟩
  obtain ⟨e, hget, -, hinode, -⟩ := hlinked.file
  obtain ⟨-, hi⟩ := namingDbGetByName_eq_ok.mp hget
  rw [hinode] at hi
  have hcnt := hc.refCnt_eq _ hi
  have hlt := e.inode.refCnt.toInt_lt
  rw [hlinked.links] at hcnt
  omega

end Lwfs.Naming
