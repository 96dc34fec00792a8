import Lwfs.Naming.LinkedDirs

/-!
Listing a directory that changes meanwhile.

`naming_list_dir` counts the entries of the directory, makes room for as many,
and fetches them. Requests that run between the two can add and remove
entries. The fetch goes by the old count: where there is room for a single
entry it writes a second one before it looks at the room, and where fewer
entries are left than there is room for, it takes the rest from memory that
was never written.
-/

namespace Lwfs.Naming

open SysLib Routine

variable {Mac : Type}

/-- What `naming_list_dir` does after it has counted `count` entries. -/
def fetchDir (env : Env Mac) (parentOid : Oid) (count : ℕ) (db : NamingDb) :
    Except Fault (List NsEntry) :=
  if count = 0 then .ok []
  else namingDbGetAllByParent parentOid count env.malloc db >>= fun dbEnts =>
    dbEnts.mapM fun entry => copyDbToNsEntry entry db

/-- Without a change in between, `naming_list_dir` fetches what it counts. -/
theorem namingListDir_eq_fetchDir {env : Env Mac} {parent : NsEntry}
    {cap : Cap Mac} {db : NamingDb} (h : Readable env parent cap db) :
    (namingListDir env parent cap).outcome db =
      fetchDir env parent.direntOid (namingDbGetSize parent.direntOid db) db :=
  namingListDir_outcome h

/-- The fetch stays within the room for `count` entries and succeeds, and
each entry that is returned is built from a record of its own, which the
directory had then, and from the inode of that. -/
structure SafeFetch (env : Env Mac) (parentOid : Oid) (count : ℕ) (s : Server)
    (es : List DbEntry) : Prop where
  up : s.up = true
  ok : fetchDir env parentOid count s.db = .ok (es.map DbEntry.nsEntry)
  length_le : es.length ≤ count
  fetched : (es.map DbEntry.dirent).Sublist
    (s.db.dirents.filter Dirent.parentOid parentOid)
  inode : ∀ e ∈ es, s.db.inodes.lookup e.dirent.inodeOid = some e.inode

/-- No entry was counted; or there are still as many as were counted, a single
one if one was counted, and those that are fetched have their inodes. -/
def FetchFits (parentOid : Oid) (count : ℕ) (db : NamingDb) : Prop :=
  count = 0 ∨
    count ≤ namingDbGetSize parentOid db ∧
      (count = 1 → namingDbGetSize parentOid db = 1) ∧
      ∀ d ∈ (db.dirents.filter Dirent.parentOid parentOid).take count,
        d.inodeOid ∈ db.inodes

section Fetch

variable {env : Env Mac} {parentOid : Oid} {count : ℕ} {db : NamingDb}

theorem exists_entryOf_iff {d : Dirent} :
    (∃ e, entryOf d db = .ok e) ↔ d.inodeOid ∈ db.inodes := by
  rw [Table.mem_iff_lookup]
  constructor
  · rintro ⟨e, he⟩
    exact ⟨e.inode, (entryOf_eq_ok.mp he).2⟩
  · rintro ⟨i, hi⟩
    exact ⟨⟨d, i⟩, entryOf_eq_ok.mpr ⟨rfl, hi⟩⟩

/-- The records of entries that were all found. -/
theorem map_dirent_filterMap {l : List Dirent}
    (h : ∀ d ∈ l, ∃ e, entryOf d db = .ok e) :
    (l.filterMap fun d => (entryOf d db).toOption).map DbEntry.dirent = l := by
  rw [List.map_filterMap]
  refine Eq.trans (List.filterMap_congr fun d hd => ?_) List.filterMap_some
  obtain ⟨e, he⟩ := h d hd
  rw [he]
  exact congrArg some (entryOf_eq_ok.mp he).1

theorem fetchDir_of_fits (hdb : NoLinkObj db) (hcount : count ≠ 0)
    (hlen : count ≤ namingDbGetSize parentOid db)
    (hone : count = 1 → namingDbGetSize parentOid db = 1)
    (hinodes : ∀ d ∈ (db.dirents.filter Dirent.parentOid parentOid).take count,
      d.inodeOid ∈ db.inodes) :
    ∃ es : List DbEntry,
      fetchDir env parentOid count db = .ok (es.map DbEntry.nsEntry) ∧
      es.map DbEntry.dirent =
        (db.dirents.filter Dirent.parentOid parentOid).take count ∧
      ∀ e ∈ es, db.inodes.lookup e.dirent.inodeOid = some e.inode := by
  have hentry : ∀ d ∈ (db.dirents.filter Dirent.parentOid parentOid).take count,
      ∃ e, entryOf d db = .ok e := fun d hd =>
    exists_entryOf_iff.mpr (hinodes d hd)
  have hroom : ¬ (count < namingDbGetSize parentOid db ∧ count < 2) := by
    rintro ⟨hlt, htwo⟩
    have := hone (by omega)
    omega
  have hfetch := namingDbGetAllByParent_take hcount hlen hroom hentry env.malloc
  have hinode : ∀ e ∈ ((db.dirents.filter Dirent.parentOid parentOid).take
      count).filterMap (fun d => (entryOf d db).toOption),
      db.inodes.lookup e.dirent.inodeOid = some e.inode := by
    intro e he
    obtain ⟨d, -, hd⟩ := List.mem_filterMap.mp he
    obtain ⟨rfl, hi⟩ := entryOf_eq_ok.mp (toOption_entryOf.mp hd)
    exact hi
  refine ⟨_, ?_, map_dirent_filterMap hentry, hinode⟩
  unfold fetchDir
  rw [if_neg hcount, hfetch]
  exact mapM_copyDbToNsEntry fun e he =>
    copyDbToNsEntry_of_lookup hdb (hinode e he)

theorem fits_of_fetchDir (hcount : count ≠ 0) {entries : List NsEntry}
    (h : fetchDir env parentOid count db = .ok entries) :
    entries.length = count ∧
      ¬ (count < namingDbGetSize parentOid db ∧ count < 2) ∧
      (count ≤ namingDbGetSize parentOid db →
        ∀ d ∈ (db.dirents.filter Dirent.parentOid parentOid).take count,
          d.inodeOid ∈ db.inodes) := by
  unfold fetchDir at h
  rw [if_neg hcount] at h
  cases hfetch : namingDbGetAllByParent parentOid count env.malloc db with
  | error f =>
      rw [hfetch] at h
      cases h
  | ok dbEnts =>
      rw [hfetch] at h
      have hlength := except_length_of_mapM h
      rw [length_namingDbGetAllByParent hfetch] at hlength
      unfold namingDbGetAllByParent at hfetch
      cases hget : db3Get parentOid count db with
      | error f =>
          rw [hget] at hfetch
          cases hfetch
      | ok dirents =>
          rw [hget] at hfetch
          obtain ⟨-, hroom, rfl⟩ := db3Get_eq_ok.mp hget
          rw [← namingDbGetSize_eq] at hroom
          refine ⟨hlength, hroom, fun hlen d hd => ?_⟩
          obtain ⟨i, hi, rfl⟩ := List.getElem_of_mem hd
          have hi' : i < count := by
            rw [List.length_take] at hi
            omega
          obtain ⟨e, he⟩ := except_forall_of_mapM hfetch i
            (List.mem_range.mpr hi')
          rw [List.getD_eq_getElem _ _ hi] at he
          exact exists_entryOf_iff.mp ⟨e, he⟩

end Fetch

/-- Whatever requests run between the counting and the fetching, the listing
is safe exactly if what was counted fits what is fetched. -/
theorem safeFetch_iff {oids : InitOids} (hoids : oids.Fresh) {s : Server}
    (hs : Reachable Mac oids s) {run : List (Env Mac × Request Mac)}
    (hfresh : Run.Along step FreshStep s run) (env : Env Mac)
    (parentOid : Oid) :
    (∃ es, SafeFetch env parentOid (namingDbGetSize parentOid s.db)
        (Run.exec step s run) es) ↔
      (Run.exec step s run).up = true ∧
        FetchFits parentOid (namingDbGetSize parentOid s.db)
          (Run.exec step s run).db := by
  have hs' : Reachable Mac oids (Run.exec step s run) := by
    obtain ⟨before, hbefore, rfl⟩ := hs
    exact ⟨before ++ run, (Run.along_append step FreshStep _ before run).mpr
      ⟨hbefore, hfresh⟩, Run.exec_append step _ before run⟩
  have hdb := hs'.noLinkObj hoids
  constructor
  · rintro ⟨es, h⟩
    refine ⟨h.up, ?_⟩
    by_cases hcount : namingDbGetSize parentOid s.db = 0
    · exact .inl hcount
    · obtain ⟨hlength, hroom, hinodes⟩ := fits_of_fetchDir hcount h.ok
      have hsub := h.fetched.length_le
      rw [List.length_map] at hlength hsub
      rw [← namingDbGetSize_eq] at hsub
      refine .inr ⟨by omega, fun hone => ?_, hinodes (by omega)⟩
      omega
  · rintro ⟨hup, hfits⟩
    by_cases hcount : namingDbGetSize parentOid s.db = 0
    · refine ⟨[], hup, if_pos hcount, Nat.zero_le _, List.nil_sublist _, ?_⟩
      exact fun e he => absurd he List.not_mem_nil
    · obtain ⟨hlen, hone, hinodes⟩ := hfits.resolve_left hcount
      obtain ⟨es, hok, hmap, hinode⟩ : ∃ es : List DbEntry,
          fetchDir env parentOid _ _ = .ok (es.map DbEntry.nsEntry) ∧ _ :=
        fetchDir_of_fits hdb hcount hlen hone hinodes
      have htake := congrArg List.length hmap
      rw [List.length_map, List.length_take] at htake
      refine ⟨es, hup, hok, by omega, ?_, hinode⟩
      rw [hmap]
      exact List.take_sublist _ _

/-- The server after a file was created in the root directory. -/
def fileServer : Server := step (Server.init countingOids) createFileStep

/-- A third entry comes while two are listed. -/
theorem safeFetch_grown :
    ∃ es, SafeFetch (countingEnv 3) countingOids.root
      (namingDbGetSize countingOids.root linkedServer.db)
      (Run.exec step linkedServer [createLinkStep 2 rootName]) es := by
  have hreach : Reachable Unit countingOids linkedServer :=
    ⟨[createFileStep, createLinkStep 1 longName],
      ⟨by decide, by decide, trivial⟩, rfl⟩
  have hfresh : Run.Along step FreshStep linkedServer
      [createLinkStep 2 rootName] := ⟨by decide, trivial⟩
  refine (safeFetch_iff countingOids_fresh hreach hfresh (countingEnv 3)
    countingOids.root).mpr ⟨rfl, .inr ⟨?_, ?_, ?_⟩⟩
  · decide
  · decide
  · decide

/-- A second entry comes while one is listed, and is written behind the
buffer. -/
theorem fetchDir_overruns :
    fetchDir (countingEnv 2) countingOids.root
        (namingDbGetSize countingOids.root fileServer.db)
        (Run.exec step fileServer [createLinkStep 1 longName]).db =
      .error .overrun ∧
    ¬ ∃ es, SafeFetch (countingEnv 2) countingOids.root
      (namingDbGetSize countingOids.root fileServer.db)
      (Run.exec step fileServer [createLinkStep 1 longName]) es := by
  have hover : fetchDir (countingEnv 2) countingOids.root
      (namingDbGetSize countingOids.root fileServer.db)
      (Run.exec step fileServer [createLinkStep 1 longName]).db =
        .error .overrun := rfl
  refine ⟨hover, ?_⟩
  rintro ⟨es, h⟩
  have hok := h.ok
  rw [hover] at hok
  cases hok

end Lwfs.Naming
