import Lwfs.Naming.Initial
import Lwfs.Naming.UniqueOids

/-!
The ids in the database of the naming server.

All of them have been generated by `gen_unique_oid`, but for the id 0. So a
generated id is fresh if it is none of those that were generated before.
-/

namespace Lwfs.Naming

open SysLib Routine Support

variable {Mac : Type} {db : NamingDb} {used used' : List Oid} {env : Env Mac}

/-- The ids in the database are among those that have been used. -/
structure Within (used : List Oid) (db : NamingDb) : Prop where
  oid : ∀ k d, db.dirents.lookup k = some d → d.oid ∈ used
  inodeOid : ∀ k d, db.dirents.lookup k = some d → d.inodeOid ∈ used
  inode : ∀ o i, db.inodes.lookup o = some i → o ∈ used

theorem Within.mono (h : Within used db) (hsub : used ⊆ used') : Within used' db where
  oid k d hd := hsub (h.oid k d hd)
  inodeOid k d hd := hsub (h.inodeOid k d hd)
  inode o i hi := hsub (h.inode o i hi)

theorem Within.addDirent (h : Within used db) {d : Dirent} (hoid : d.oid ∈ used)
    (hinode : d.inodeOid ∈ used) : Within used (db.addDirent d) where
  oid k d' hd' := by
    rcases lookup_addDirent hd' with ⟨-, rfl⟩ | hd'
    · exact hoid
    · exact h.oid k d' hd'
  inodeOid k d' hd' := by
    rcases lookup_addDirent hd' with ⟨-, rfl⟩ | hd'
    · exact hinode
    · exact h.inodeOid k d' hd'
  inode := h.inode

theorem Within.delDirent (h : Within used db) (d : Dirent) : Within used (db.delDirent d) where
  oid k d' hd' := h.oid k d' (lookup_of_lookup_erase hd').2
  inodeOid k d' hd' := h.inodeOid k d' (lookup_of_lookup_erase hd').2
  inode := h.inode

theorem Within.putInode (h : Within used db) {i : Inode} (hoid : i.entryObj.oid ∈ used) :
    Within used (db.putInode i) where
  oid := h.oid
  inodeOid := h.inodeOid
  inode o i' hi' := by
    rw [NamingDb.putInode_inodes] at hi'
    rcases eq_or_ne o i.entryObj.oid with rfl | hne
    · exact hoid
    · rw [AList.lookup_insert_ne hne] at hi'
      exact h.inode o i' hi'

theorem Within.delInode (h : Within used db) (o : Oid) : Within used (db.delInode o) where
  oid := h.oid
  inodeOid := h.inodeOid
  inode o' i hi := by
    rw [NamingDb.delInode_inodes] at hi
    rcases eq_or_ne o' o with rfl | hne
    · rw [AList.lookup_erase] at hi
      cases hi
    · rw [AList.lookup_erase_ne hne] at hi
      exact h.inode o' i hi

/-- Ids that have not been used are fresh. -/
theorem Within.fresh (h : Within used db) (hzero : Oid.zero ∈ used)
    (hdirent : env.direntOid ∉ used) (hinode : env.inodeOid ∉ used) : Fresh env db where
  direntOid_ne heq := hdirent (heq ▸ hzero)
  dirent k d hd heq := hdirent (heq ▸ h.oid k d hd)
  links k d hd heq := hinode (heq ▸ h.inodeOid k d hd)
  inode := by
    cases hlookup : db.inodes.lookup env.inodeOid with
    | none => rfl
    | some i => exact absurd (h.inode _ _ hlookup) hinode

/-- What a request puts uses the ids that are generated for it. -/
theorem Within.puts (h : Within used db) (hwf : WellFormed db) (hfresh : Fresh env db)
    (hdirent : env.direntOid ∈ used) (hinode : env.inodeOid ∈ used) {r : Request Mac}
    {entry : DbEntry} (hput : puts env db r = some entry) :
    Within used ((namingDbPut entry true).final db) := by
  by_cases hkey : entry.dirent.key ∈ db.dirents
  · rw [final_of_error (namingDbPut_of_mem hkey)]
    exact h
  rcases puts_cases hput with
    ⟨parentOid, name, type, cid, fileObj, rfl⟩ | ⟨parentOid, name, k, target, hd, hi, rfl⟩
  · rw [final_of_ok (namingDbPut_newEntry hfresh hkey)]
    exact (h.addDirent hdirent hinode).putInode hinode
  · -- A link names the inode of its target, which is in use already.
    have htarget : target.dirent.inodeOid ∈ used := h.inodeOid k _ hd
    have hadd : Within used (db.addDirent (linkTo env parentOid name target).dirent) :=
      h.addDirent hdirent htarget
    by_cases hzero : target.dirent.oid = Oid.zero
    · rw [final_of_error (namingDbPut_linkTo_zero hwf hzero hi hkey)]
      exact hadd
    · rw [final_of_ok (namingDbPut_linkTo hwf hzero hi hkey)]
      refine hadd.putInode ?_
      show target.inode.entryObj.oid ∈ used
      rw [hwf.inode_oid _ _ hi]
      exact htarget

/-- What a request deletes uses no id. -/
theorem Within.deletes (h : Within used db) (hwf : WellFormed db) (parentOid : Oid)
    (name : Name) : Within used ((namingDbDel parentOid name).final db) := by
  cases hget : namingDbGetByName parentOid name db with
  | error e =>
      rw [final_of_error (namingDbDel_of_error hget)]
      exact h
  | ok e =>
      obtain ⟨hd, hi⟩ := namingDbGetByName_eq_ok.mp hget
      rcases refCnt_trichotomy (e.inode.refCnt - 1) with hcnt | hcnt | hcnt
      · rw [final_of_ok (namingDbDel_last hwf hget hcnt)]
        exact (h.delDirent _).delInode _
      · rw [final_of_ok (namingDbDel_more hwf hget hcnt)]
        refine (h.delDirent _).putInode ?_
        show e.inode.entryObj.oid ∈ used
        rw [hwf.inode_oid _ _ hi]
        exact h.inodeOid _ _ hd
      · rw [final_of_error (namingDbDel_negative hwf hget hcnt)]
        exact h.delDirent _

/-- A step uses the ids that are generated for it. -/
theorem Within.step {s : Server} {r : Env Mac × Request Mac} (h : Within used s.db)
    (hwf : WellFormed s.db) (hfresh : FreshStep s r) :
    Within (r.1.direntOid :: r.1.inodeOid :: used) (step s r).db := by
  have hmore : Within (r.1.direntOid :: r.1.inodeOid :: used) s.db :=
    h.mono fun o ho => List.mem_cons_of_mem _ (List.mem_cons_of_mem _ ho)
  unfold Naming.step
  split
  · show Within _ ((handle r.1 r.2).final s.db)
    cases hput : Naming.puts r.1 s.db r.2 with
    | some entry =>
        rw [(handle_acts_put r.1 hput).final_eq]
        exact hmore.puts hwf hfresh (by simp) (by simp) hput
    | none =>
        cases hdel : Naming.deletes r.1 s.db r.2 with
        | some place =>
            rw [(handle_acts_del r.1 hdel).final_eq]
            exact hmore.deletes hwf _ _
        | none =>
            rw [(handle_acts_none r.1 hput hdel).final_eq]
            exact hmore
  · exact hmore

/-- The ids that are generated in a run, two for each request. -/
def generated (run : List (Env Mac × Request Mac)) : List Oid :=
  run.flatMap fun r => [r.1.direntOid, r.1.inodeOid]

/-- Ids that are generated once are fresh when they are. -/
theorem Within.along {s : Server} (h : Within used s.db) (hwf : WellFormed s.db)
    (hzero : Oid.zero ∈ used) {run : List (Env Mac × Request Mac)}
    (hnodup : (generated run).Nodup) (hunused : ∀ o ∈ generated run, o ∉ used) :
    Run.Along Naming.step FreshStep s run := by
  -- The ids that have been used grow by those of the first request.
  induction run generalizing s used with
  | nil => trivial
  | cons r run ih =>
      change (r.1.direntOid :: r.1.inodeOid :: generated run).Nodup at hnodup
      change ∀ o ∈ r.1.direntOid :: r.1.inodeOid :: generated run, o ∉ used at hunused
      simp only [List.nodup_cons, List.mem_cons, not_or] at hnodup
      obtain ⟨⟨-, hdirent⟩, hinode, hrest⟩ := hnodup
      have hfresh : FreshStep s r :=
        h.fresh hzero (hunused _ (by simp)) (hunused _ (by simp))
      refine ⟨hfresh, ih (h.step hwf hfresh) (wellFormed_step hwf hfresh) (by simp [hzero])
        hrest ?_⟩
      intro o ho
      simp only [List.mem_cons, not_or]
      exact ⟨fun heq => hdirent (heq ▸ ho), fun heq => hinode (heq ▸ ho),
        hunused o (by simp [ho])⟩

/-- The ids that the initialisation generates, in its order. -/
def InitOids.list (oids : InitOids) : List Oid :=
  [oids.rootInode, oids.root, oids.orphanInode, oids.orphan]

theorem Within.addEntry (h : Within used db) {e : DbEntry} (hoid : e.dirent.oid ∈ used)
    (hinode : e.dirent.inodeOid ∈ used) (hentry : e.inode.entryObj.oid ∈ used) :
    Within used (db.addEntry e) :=
  (h.addDirent hoid hinode).putInode hentry

theorem within_initialDb (oids : InitOids) :
    Within (Oid.zero :: oids.list) (initialDb oids) := by
  have hempty : Within (Oid.zero :: oids.list) NamingDb.empty := ⟨nofun, nofun, nofun⟩
  have hid := hempty.addEntry (e := idEntry) List.mem_cons_self List.mem_cons_self
    List.mem_cons_self
  have hroot := hid.addEntry (e := rootEntry oids) (by simp [rootEntry, initialDir, InitOids.list])
    (by simp [rootEntry, initialDir, InitOids.list])
    (by simp [rootEntry, initialDir, InitOids.list])
  exact hroot.addEntry (by simp [orphanEntry, initialDir, InitOids.list])
    (by simp [orphanEntry, initialDir, InitOids.list])
    (by simp [orphanEntry, initialDir, InitOids.list])

/-- Every id of a run is fresh if all are different, and not 0. -/
theorem fresh_of_nodup {oids : InitOids} {run : List (Env Mac × Request Mac)}
    (h : (Oid.zero :: (oids.list ++ generated run)).Nodup) :
    oids.Fresh ∧ Run.Along Naming.step FreshStep (Server.init oids) run := by
  have hcut : ((Oid.zero :: oids.list) ++ generated run).Nodup := h
  obtain ⟨hinit, hrun, hapart⟩ := List.nodup_append.mp hcut
  have hoids : oids.Fresh := by
    simp only [InitOids.list, List.nodup_cons, List.mem_cons, List.not_mem_nil, or_false,
      not_or] at hinit
    obtain ⟨⟨hrootInode, hroot, horphanInode, horphan⟩, ⟨-, hinodes, -⟩, ⟨-, hdirents⟩, -⟩ :=
      hinit
    exact ⟨Ne.symm hroot, Ne.symm horphan, hdirents, Ne.symm hrootInode, Ne.symm horphanInode,
      hinodes⟩
  refine ⟨hoids, ?_⟩
  have hdb := init_db hoids
  have hwithin : Within (Oid.zero :: oids.list) (Server.init oids).db := by
    rw [hdb]
    exact within_initialDb oids
  have hwf : WellFormed (Server.init oids).db := by
    rw [hdb]
    exact wellFormed_initialDb hoids
  exact hwithin.along hwf List.mem_cons_self hrun fun o ho hused => hapart o hused o ho rfl

/-- The version is set in every generated id. -/
theorem oid_ne_zero (d : OidDraw) : d.oid ≠ some Oid.zero := by
  have hnil : uuidExportBin .nil = Oid.zero := by decide
  intro h
  rw [oid_eq, Option.some.injEq, ← hnil, uuidExportBin_inj] at h
  have hversion := congrArg (fun obj => obj.timeHiAndVersion.toNat) h
  simp only [UuidObj.stamp, UuidObj.nil, UInt16.toNat_ofNat', UInt16.toNat_zero] at hversion
  omega

/-- What is assumed of the generated ids of a naming server, that they are
fresh, is so if no two of them were made at the same time with the same random
clock sequence and the same node. -/
theorem drawn_ids_fresh {oids : InitOids} {run : List (Env Mac × Request Mac)}
    {draws : List OidDraw}
    (hdrawn : (oids.list ++ generated run).map some = draws.map OidDraw.oid)
    (hkeys : (draws.map OidDraw.key).Nodup) :
    oids.Fresh ∧ Run.Along Naming.step FreshStep (Server.init oids) run := by
  apply fresh_of_nodup
  rw [← nodup_map_oid, ← hdrawn] at hkeys
  refine List.nodup_cons.mpr ⟨fun hzero => ?_, hkeys.of_map _⟩
  have hmem : some Oid.zero ∈ draws.map OidDraw.oid := by
    rw [← hdrawn]
    exact List.mem_map_of_mem hzero
  obtain ⟨d, -, hd⟩ := List.mem_map.mp hmem
  exact oid_ne_zero d hd

/-- A host makes an id in each microsecond. -/
def drawAt (n : ℕ) : OidDraw :=
  ⟨some (Octets.fill macOctets 2), ⟨1, n % 1000000, Nat.mod_lt _ (by decide)⟩, 7,
    Octets.fill macOctets 0⟩

def oidAt (n : ℕ) : Oid := (drawAt n).oid.getD Oid.zero

theorem drawn_ids_fresh_six :
    let oids : InitOids := ⟨oidAt 0, oidAt 1, oidAt 2, oidAt 3⟩
    let run := [({ countingEnv 0 with direntOid := oidAt 4, inodeOid := oidAt 5 },
      Request.createNamespace fileName 0)]
    oids.Fresh ∧ Run.Along Naming.step FreshStep (Server.init oids) run := by
  intro oids run
  have hdrawn : (oids.list ++ generated run).map some =
      ((List.range 6).map drawAt).map OidDraw.oid := by
    decide
  exact drawn_ids_fresh hdrawn (by decide)

end Lwfs.Naming
