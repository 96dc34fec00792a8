import Lwfs.Naming.FailedRequests

/-!
Which failed requests leave no trace.

A removal that returns an error has not removed anything. A request that puts
an entry leaves no trace exactly if none of its calls fails after the one that
has stored the entry, and if the entry is not a link to the record of the
latest id, whose inode is then put a second time.
-/

namespace Lwfs.Naming

open SysLib Routine Steps

variable {Mac : Type}

/-! ### Removals -/

/-- The program hangs or aborts, so nothing is returned. -/
def NoCode (e : Fault) : Prop := ∀ rc, e ≠ .code rc

theorem failsOnly_getFileObj (fuel : ℕ) (e : DbEntry) :
    (Steps.getFileObj fuel e).FailsOnly NoCode := by
  induction fuel generalizing e with
  | zero => exact fun _ => nofun
  | succ fuel ih =>
      rw [Steps.getFileObj]
      refine Prog.failsOnly_ite trivial
        (Prog.failsOnly_ite (fun r => ?_) trivial)
      cases r with
      | error f => trivial
      | ok d =>
          intro r
          cases r with
          | error f => trivial
          | ok i => exact ih _

theorem failsOnly_copyDbToNsEntry (fuel : ℕ) (e : DbEntry) :
    (Steps.copyDbToNsEntry fuel e).FailsOnly NoCode :=
  Prog.failsOnly_bind (failsOnly_getFileObj fuel e) fun _ => trivial

theorem failsOnly_copyDbToNamespace (fuel : ℕ) (e : DbEntry) :
    (Steps.copyDbToNamespace fuel e).FailsOnly NoCode :=
  Prog.failsOnly_bind (failsOnly_copyDbToNsEntry fuel e) fun _ => trivial

/-- What happens to the inode of an entry that is gone is no error. -/
theorem failsOnly_inodeRelease (i : Inode) :
    (Steps.inodeRelease i).FailsOnly NoCode :=
  Prog.failsOnly_ite (fun _ => trivial)
    (Prog.failsOnly_ite (fun _ => trivial) fun _ => nofun)

section Untraced

variable {α β : Type} {fails : ℕ → Bool} {p : DbProg α} {q : α → DbProg β}
  {db : NamingDb} {n : ℕ}

theorem untraced_of_only (hp : p.Only DbCall.Reading) :
    Untraced (faultyRun fails p) db n := by
  intro rc t h
  have hsame := sameStore_of_only fails hp ⟨db, n⟩
  rwa [final_of_error h] at hsame

theorem untraced_bind_only (hp : p.Only DbCall.Reading)
    (hq : ∀ a n, Untraced (faultyRun fails (q a)) db n) :
    Untraced (faultyRun fails (p >>= q)) db n := by
  intro rc t h
  rw [faultyRun_bind] at h
  have hsame := sameStore_of_only fails hp ⟨db, n⟩
  rcases bind_eq_error.mp h with hfirst | ⟨a, u, hfirst, hsecond⟩
  · rwa [final_of_error hfirst] at hsame
  · rw [final_of_ok hfirst] at hsame
    obtain rfl := hsame
    exact hq a u.calls rc t hsecond

/-- What returns no error itself can follow. -/
theorem untraced_bind_tail (hp : Untraced (faultyRun fails p) db n)
    (hq : ∀ a, (q a).FailsOnly NoCode) :
    Untraced (faultyRun fails (p >>= q)) db n := by
  intro rc t h
  rw [faultyRun_bind] at h
  rcases bind_eq_error.mp h with hfirst | ⟨a, u, -, hsecond⟩
  · exact hp rc t hfirst
  · exact absurd rfl ((hq a).of_run hsecond rc)

theorem untraced_orFail {rc : ReturnCode}
    (hp : Untraced (faultyRun fails p) db n) :
    Untraced (faultyRun fails (Steps.orFail rc p)) db n := by
  have hrun : faultyRun fails (Steps.orFail rc p) =
      (faultyRun fails p).mapOutcome (Naming.orFail rc) := run_orFail _ rc p
  intro rc' t h
  rw [hrun] at h
  obtain ⟨houtcome, rfl⟩ := mapOutcome_eq_error.mp h
  cases hcase : faultyRun fails p ⟨db, n⟩ with
  | ok a u =>
      rw [outcome_of_ok hcase] at houtcome
      cases houtcome
  | error e u =>
      rw [outcome_of_error hcase] at houtcome
      rw [final_of_error hcase]
      cases e with
      | code rc'' => exact hp rc'' u hcase
      | abort => cases houtcome
      | hang => cases houtcome
      | overrun => cases houtcome
      | badPointer => cases houtcome

theorem db2Del_error {oid : Oid} {e : Fault} {t : NamingDb}
    (h : db2Del oid db = .error e t) : t = db := by
  rw [db2Del, get_bind] at h
  cases hfind : db.dirents.find Dirent.oid oid with
  | none =>
      rw [hfind] at h
      exact (throw_eq_error.mp h).2.symm
  | some place =>
      rw [hfind] at h
      cases h

/-- What comes after the entry was deleted returns no error. -/
theorem untraced_dbDel (e : DbEntry) :
    Untraced (faultyRun fails (Steps.dbDel e)) db n := by
  refine untraced_bind_tail ?_ fun _ =>
    Prog.failsOnly_bind (failsOnly_inodeRelease _) fun _ => trivial
  cases hn : fails n with
  | true => exact untraced_of_error (faultyRun_ask_of_fails hn) rfl
  | false =>
      cases hc : (DbCall.delDirent e.dirent.oid).routine db with
      | ok a t => exact untraced_of_ok (faultyRun_ask_of_ok hn hc)
      | error f t =>
          exact untraced_of_error (faultyRun_ask_of_error hn hc) (db2Del_error hc)

theorem untraced_removeEntry (parentOid : Oid) (name : Name) :
    Untraced (faultyRun fails (Steps.removeEntry parentOid name)) db n :=
  untraced_orFail (untraced_bind_only (only_namingDbGetByName parentOid name)
    fun _ _ => untraced_dbDel _)

theorem untraced_removeFrom (env : Env Mac) (fuel : ℕ) (parent : NsEntry)
    (name : Name) (cap : Cap Mac) :
    Untraced (faultyRun fails (Steps.removeFrom env fuel parent name cap)) db n :=
  untraced_bind_only (only_checkParent parent) fun _ _ =>
    untraced_bind_only (only_checkPerm env _ _ _) fun _ _ =>
      untraced_bind_tail (untraced_removeEntry _ _)
        (failsOnly_copyDbToNsEntry fuel)

theorem untraced_namingRemoveNamespace (env : Env Mac) (fuel : ℕ) (name : Name)
    (cap : Cap Mac) :
    Untraced (faultyRun fails
      (Steps.namingRemoveNamespace env fuel name cap)) db n :=
  untraced_bind_only (only_orFail (only_namespaceLookup fuel name)) fun _ _ =>
    untraced_bind_only (only_checkPerm env _ _ _) fun _ _ =>
      untraced_bind_tail (untraced_removeEntry _ _)
        (failsOnly_copyDbToNamespace fuel)

end Untraced

/-! ### Requests that put an entry -/

/-- The number of the call by which a request puts its entry. -/
def putCall : Request Mac → ℕ
  | .createDir _ _ _ _ => 2
  | .createFile _ _ _ _ => 2
  | .createLink _ _ _ _ _ _ => 6
  | _ => 0

/-- The number of calls that a request makes after it has put its entry. -/
def tailCalls : Request Mac → ℕ
  | .createFile _ _ _ _ => 2
  | _ => 0

/-- If the request stores a new entry, then the inode of the entry can be
stored, and none of the calls that come after fails. -/
def Clean (fails : ℕ → Bool) (env : Env Mac) (db : NamingDb) (r : Request Mac) :
    Prop :=
  ∀ entry, puts env db r = some entry → entry.dirent.key ∉ db.dirents →
    Served fails 0 (putCall r + 1) →
      Attachable entry db ∧
        Served fails (putCall r + 1) (attachCalls entry + tailCalls r)

section Puts

variable {α β : Type} {fails : ℕ → Bool} {db : NamingDb} {n fuel : ℕ}
  {env : Env Mac} {parent : NsEntry} {cap : Cap Mac} {entry : DbEntry}

/-- An entry is put, and copied without a call. -/
theorem untraced_put_pure_iff (a : α)
    (hinode : entry.dirent.link ≠ Oid.zero →
      ∃ i, db.inodes.lookup entry.inode.entryObj.oid = some i) :
    Untraced (faultyRun fails
        (Steps.namingDbPut entry true >>= fun _ => pure a)) db n ↔
      (entry.dirent.key ∉ db.dirents → fails n = false →
        Attachable entry db ∧ Served fails (n + 1) (attachCalls entry)) :=
  untraced_put_iff (m := 0) hinode (fun _ _ _ => ⟨a, _, rfl⟩)
    fun _ _ h => absurd served_zero h

/-- The checks of a handler that changes the directory `parent`. -/
theorem untraced_permits_iff {rest : DbProg α} :
    Untraced (faultyRun fails
        (Steps.checkParent parent >>= fun _ =>
          Steps.checkPerm env parent.direntOid cap containerWrite >>= fun _ =>
            rest)) db 0 ↔
      (permits env parent cap db = true → Served fails 0 2 →
        Untraced (faultyRun fails rest) db 2) := by
  rw [untraced_bind_iff (reads_checkParent parent)]
  constructor
  · intro h hpermits hserved
    obtain ⟨hparent, hperm⟩ := permits_iff.mp hpermits
    have hrest := h () served_zero hparent
    rw [untraced_bind_iff (reads_checkPerm env _ _ _)] at hrest
    exact hrest () hserved hperm
  · intro h a _ hparent
    rw [untraced_bind_iff (reads_checkPerm env _ _ _)]
    intro b hserved hperm
    exact h (permits_iff.mpr ⟨hparent, hperm⟩) hserved

theorem untraced_createNamespace_iff (name : Name) (cid : Cid) :
    Untraced (faultyRun fails
        (Steps.namingCreateNamespace env (fuel + 1) name cid)) db 0 ↔
      Clean fails env db (.createNamespace name cid) := by
  have htype : nsObj ≠ linkEntry := by decide
  have hcopy : Steps.copyDbToNamespace (fuel + 1)
      (newEntry env Oid.zero name nsObj cid none) = pure _ :=
    copyDbToNamespace_eq_pure fuel htype
  simp only [Steps.namingCreateNamespace, hcopy]
  rw [untraced_put_pure_iff _ fun h => absurd rfl h]
  constructor
  · intro h entry hputs hkey hserved
    obtain rfl := Option.some.inj hputs
    exact h hkey (served_one.mp hserved)
  · intro h hkey hfirst
    exact h _ rfl hkey (served_one.mpr hfirst)

theorem untraced_createDir_iff (name : Name) (cid : Cid) :
    Untraced (faultyRun fails
        (Steps.namingCreateDir env (fuel + 1) parent name cid cap)) db 0 ↔
      Clean fails env db (.createDir parent name cid cap) := by
  have htype : dirEntry ≠ linkEntry := by decide
  have hcopy : Steps.copyDbToNsEntry (fuel + 1)
      (newEntry env parent.direntOid name dirEntry cid none) = pure _ :=
    copyDbToNsEntry_eq_pure fuel htype
  simp only [Steps.namingCreateDir, hcopy]
  rw [untraced_permits_iff, untraced_put_pure_iff _ fun h => absurd rfl h]
  constructor
  · intro h entry hputs hkey hserved
    obtain ⟨hpermits, heq⟩ := Option.ite_none_right_eq_some.mp hputs
    obtain rfl := Option.some.inj heq
    obtain ⟨hchecks, hput⟩ := served_add.mp hserved
    exact h hpermits hchecks hkey (served_one.mp hput)
  · intro h hpermits hchecks hkey hput
    exact h _ (if_pos hpermits) hkey
      (served_add.mpr ⟨hchecks, served_one.mpr hput⟩)

/-- The lookup of an entry that is there is an error only if a call fails. -/
theorem namingDbGetByOid_of_not_served {t : NamingDb} {e : DbEntry}
    (hget : Naming.namingDbGetByOid entry.dirent.oid t = .ok e)
    (hserved : ¬ Served fails n 2) :
    ∃ u, faultyRun fails (Steps.namingDbGetByOid entry.dirent.oid) ⟨t, n⟩ =
      .error (.code .errNaming) u ∧ u.store = t := by
  obtain ⟨⟨k, hfind⟩, hi⟩ := namingDbGetByOid_eq_ok.mp hget
  have hdirent : (DbCall.getDirentByOid entry.dirent.oid).routine t =
      .ok e.dirent t := by
    refine reader_of_ok ?_
    rw [db2Get, hfind]
  rw [Steps.namingDbGetByOid, faultyRun_bind]
  cases hfirst : fails n with
  | true => exact ⟨_, bind_of_error (faultyRun_ask_of_fails hfirst), rfl⟩
  | false =>
      have hsecond : fails (n + 1) = true := by
        by_contra hne
        exact hserved (served_two.mpr ⟨hfirst, Bool.eq_false_iff.mpr hne⟩)
      refine ⟨⟨t, n + 2⟩, (bind_of_ok
        (faultyRun_ask_of_ok hfirst hdirent)).trans ?_, rfl⟩
      rw [Steps.entryOf, faultyRun_bind]
      exact bind_of_error (faultyRun_ask_of_fails hsecond)

theorem attached_newEntry (hfresh : Fresh env db) {parentOid : Oid}
    {name : Name} {type : Int32} {cid : Cid} {fileObj : Option Obj} :
    let entry := newEntry env parentOid name type cid fileObj
    attached entry (db.addDirent entry.dirent) = db.addEntry entry := by
  intro entry
  have hlink : entry.dirent.link = Oid.zero := rfl
  have hput : inodePut entry.inode.entryObj.oid entry.inode true
      (db.addDirent entry.dirent) = .ok () (db.addEntry entry) :=
    inodePut_of_notMem fun h => AList.lookup_eq_none.mp hfresh.inode h.2
  rw [attached, inodeAttach_new hlink, final_of_ok hput]

/-- The sanity check of `naming_create_file` finds the entry. -/
theorem getByOid_newEntry (hwf : WellFormed db) (hfresh : Fresh env db)
    {parentOid : Oid} {name : Name} {type : Int32} {cid : Cid}
    {fileObj : Option Obj} :
    let entry := newEntry env parentOid name type cid fileObj
    entry.dirent.key ∉ db.dirents →
      Naming.namingDbGetByOid entry.dirent.oid (db.addEntry entry) =
        .ok entry := by
  intro entry hkey
  have hadd : Addable db entry.dirent :=
    ⟨hkey, hfresh.direntOid_ne, hfresh.dirent⟩
  have hunique := ((hadd.wellFormed hwf).putInode entry.inode).unique
  have hd : (db.addEntry entry).dirents.lookup entry.dirent.key =
      some entry.dirent := AList.lookup_insert _
  exact namingDbGetByOid_eq_ok.mpr
    ⟨⟨_, hunique.find_eq hd⟩, AList.lookup_insert _⟩

theorem untraced_createFile_iff (hwf : WellFormed db) (hfresh : Fresh env db)
    (name : Name) (obj : Obj) :
    Untraced (faultyRun fails
        (Steps.namingCreateFile env (fuel + 1) parent name obj cap)) db 0 ↔
      Clean fails env db (.createFile parent name obj cap) := by
  have htype : fileEntry ≠ linkEntry := by decide
  have hcopy : Steps.copyDbToNsEntry (fuel + 1)
      (newEntry env parent.direntOid name fileEntry obj.cid (some obj)) = pure _ :=
    copyDbToNsEntry_eq_pure fuel htype
  simp only [Steps.namingCreateFile, hcopy]
  rw [untraced_permits_iff, untraced_put_iff (m := 2) fun h => absurd rfl h]
  · constructor
    · intro h entry hputs hkey hserved
      obtain ⟨hpermits, heq⟩ := Option.ite_none_right_eq_some.mp hputs
      obtain rfl := Option.some.inj heq
      obtain ⟨hchecks, hput⟩ := served_add.mp hserved
      exact h hpermits hchecks hkey (served_one.mp hput)
    · intro h hpermits hchecks hkey hput
      exact h _ (if_pos hpermits) hkey
        (served_add.mpr ⟨hchecks, served_one.mpr hput⟩)
  · intro hkey n hserved
    rw [attached_newEntry hfresh]
    have hread := ((reads_namingDbGetByOid env.direntOid).ok_iff _ n _ _).mpr
      ⟨hserved, getByOid_newEntry hwf hfresh hkey, rfl⟩
    exact ⟨_, _, (congrFun (faultyRun_bind _ _) _).trans (bind_of_ok hread)⟩
  · intro hkey n hserved
    rw [attached_newEntry hfresh]
    obtain ⟨u, hrun, hu⟩ := namingDbGetByOid_of_not_served
      (getByOid_newEntry hwf hfresh hkey) hserved
    exact ⟨_, u, (congrFun (faultyRun_bind _ _) _).trans (bind_of_error hrun), hu⟩

theorem untraced_linkTo_iff (hdb : Sound db) {parentOid : Oid} {name : Name}
    {target : DbEntry}
    (hi : db.inodes.lookup target.dirent.inodeOid = some target.inode) :
    let entry := linkTo env parentOid name target
    Untraced (faultyRun fails
        (Steps.namingDbPut entry true >>= fun _ =>
          Steps.copyDbToNsEntry (fuel + 1) entry)) db n ↔
      (entry.dirent.key ∉ db.dirents → fails n = false →
        Attachable entry db ∧ Served fails (n + 1) (attachCalls entry)) := by
  intro entry
  have htype := hdb.noLinkObj _ _ hi
  have hcopy : Steps.copyDbToNsEntry (fuel + 1) entry = pure _ :=
    copyDbToNsEntry_eq_pure fuel htype
  have hoid := hdb.wellFormed.inode_oid _ _ hi
  rw [hcopy, untraced_put_pure_iff]
  intro _
  refine ⟨target.inode, ?_⟩
  rw [← hi, ← hoid]
  rfl

theorem untraced_createLink_iff (hdb : Sound db) (name : Name)
    (targetParent : NsEntry) (targetName : Name) (targetCap : Cap Mac) :
    Untraced (faultyRun fails
        (Steps.namingCreateLink env (fuel + 1) parent name cap targetParent
          targetName targetCap)) db 0 ↔
      Clean fails env db
        (.createLink parent name cap targetParent targetName targetCap) := by
  rw [Steps.namingCreateLink, untraced_permits_iff,
    untraced_bind_iff (reads_checkPerm env _ _ _)]
  constructor
  · intro h entry hputs hkey hserved
    obtain ⟨hchecks, hputs⟩ := Option.ite_none_right_eq_some.mp hputs
    obtain ⟨hpermits, htarget⟩ := Bool.and_eq_true_iff.mp hchecks
    have htarget := isOk_iff.mp htarget
    cases hget : Naming.namingDbGetByName targetParent.direntOid targetName db with
    | error e => simp only [hget, reduceCtorEq] at hputs
    | ok target =>
        simp only [hget, Option.some.injEq] at hputs
        subst hputs
        -- two calls for each check, two for the target, and one that puts
        obtain ⟨hsix, hput⟩ := served_add.mp hserved
        obtain ⟨hfour, hread⟩ := served_add (k := 4) (m := 2).mp hsix
        obtain ⟨hfirst, hsecond⟩ := served_add (k := 2) (m := 2).mp hfour
        have hrest := h hpermits hfirst () hsecond htarget
        rw [untraced_bind_iff (reads_namingDbGetByName _ _)] at hrest
        have hi := (namingDbGetByName_eq_ok.mp hget).2
        exact (untraced_linkTo_iff hdb hi).mp (hrest target hread hget) hkey
          (served_one.mp hput)
  · intro h hpermits hfirst _ hsecond htarget
    rw [untraced_bind_iff (reads_namingDbGetByName _ _)]
    intro target hread hget
    have hi := (namingDbGetByName_eq_ok.mp hget).2
    have hputs : puts env db (.createLink parent name cap targetParent
        targetName targetCap) =
          some (linkTo env parent.direntOid name target) := by
      rw [puts, hpermits, isOk_iff.mpr htarget]
      simp only [Bool.and_self, if_true, hget]
    refine (untraced_linkTo_iff hdb hi).mpr fun hkey hput => ?_
    have hfour : Served fails 0 (2 + 2) := served_add.mpr ⟨hfirst, hsecond⟩
    have hsix : Served fails 0 (4 + 2) := served_add.mpr ⟨hfour, hread⟩
    exact h _ hputs hkey (served_add.mpr ⟨hsix, served_one.mpr hput⟩)

end Puts

/-! ### The claim for every request -/

section Requests

variable {fails : ℕ → Bool} {db : NamingDb} {env : Env Mac}

theorem clean_of_puts_none {r : Request Mac} (h : puts env db r = none) :
    Clean fails env db r := by
  intro entry hputs
  rw [h] at hputs
  cases hputs

theorem untraced_handle_iff (hdb : Sound db) (hfresh : Fresh env db)
    (fuel : ℕ) (r : Request Mac) :
    Untraced (faultyRun fails (Steps.handle env (fuel + 1) r)) db 0 ↔
      Clean fails env db r := by
  cases r with
  | createNamespace name cid =>
      rw [Steps.handle, untraced_map, untraced_createNamespace_iff]
  | removeNamespace name cap =>
      rw [Steps.handle, untraced_map]
      exact iff_of_true (untraced_namingRemoveNamespace env _ name cap)
        (clean_of_puts_none rfl)
  | getNamespace name =>
      rw [Steps.handle, untraced_map]
      exact iff_of_true (untraced_of_only (only_namingGetNamespace _ name))
        (clean_of_puts_none rfl)
  | listNamespaces =>
      rw [Steps.handle, untraced_map]
      exact iff_of_true (untraced_of_only (only_namingListNamespaces env _))
        (clean_of_puts_none rfl)
  | createDir parent name cid cap =>
      rw [Steps.handle, untraced_map, untraced_createDir_iff]
  | removeDir parent name cap =>
      rw [Steps.handle, untraced_map]
      exact iff_of_true (untraced_removeFrom env _ parent name cap)
        (clean_of_puts_none rfl)
  | createFile parent name obj cap =>
      rw [Steps.handle, untraced_map,
        untraced_createFile_iff hdb.wellFormed hfresh]
  | createLink parent name cap targetParent targetName targetCap =>
      rw [Steps.handle, untraced_map, untraced_createLink_iff hdb]
  | unlink parent name cap =>
      rw [Steps.handle, untraced_map]
      exact iff_of_true (untraced_removeFrom env _ parent name cap)
        (clean_of_puts_none rfl)
  | lookup parent name cap =>
      rw [Steps.handle, untraced_map]
      exact iff_of_true
        (untraced_of_only (only_namingLookup env _ parent name cap))
        (clean_of_puts_none rfl)
  | listDir parent cap =>
      rw [Steps.handle, untraced_map]
      exact iff_of_true (untraced_of_only (only_namingListDir env _ parent cap))
        (clean_of_puts_none rfl)
  | stat obj cap =>
      rw [Steps.handle, untraced_map]
      exact iff_of_true (untraced_of_only (only_namingStat env obj cap))
        (clean_of_puts_none rfl)

end Requests

/-! ### Runs in which calls fail -/

/-- A request, what the environment hands to the server during it, and which
of its calls fail. -/
structure FaultyRequest (Mac : Type) where
  env : Env Mac
  request : Request Mac
  fails : ℕ → Bool

/-- The server handles a request on databases that fail to serve some calls.
No inode is a link, so that one link is enough for `get_file_obj`. -/
def faultyStep (s : Server) (r : FaultyRequest Mac) : Server :=
  if s.up then
    let x := faultyRun r.fails (Steps.handle r.env 1 r.request)
    ⟨(x.final ⟨s.db, 0⟩).store, survives (x.outcome ⟨s.db, 0⟩)⟩
  else s

/-- The server comes to the state `s` from a cleared database by requests with
fresh ids, and any of their calls may fail. -/
def FaultyReachable (Mac : Type) (oids : InitOids) (s : Server) : Prop :=
  ∃ run : List (FaultyRequest Mac),
    Run.Along faultyStep (fun s r => Fresh r.env s.db) (Server.init oids) run ∧
      Run.exec faultyStep (Server.init oids) run = s

theorem sound_faultyStep {s : Server} {r : FaultyRequest Mac}
    (hdb : Sound s.db) (hfresh : Fresh r.env s.db) :
    Sound (faultyStep s r).db := by
  unfold faultyStep
  by_cases hup : s.up = true
  · rw [if_pos hup]
    exact sound_handle r.env 1 hdb hfresh r.request
  · rw [if_neg hup]
    exact hdb

theorem FaultyReachable.sound {oids : InitOids} {s : Server}
    (hoids : oids.Fresh) (h : FaultyReachable Mac oids s) : Sound s.db := by
  obtain ⟨run, hfresh, rfl⟩ := h
  have hinit : Sound (Server.init oids).db := by
    rw [init_db hoids]
    exact ⟨wellFormed_initialDb hoids, noLinkObj_initialDb⟩
  have hstep : ∀ (s : Server) (r : FaultyRequest Mac), Sound s.db →
      Fresh r.env s.db → Sound (faultyStep s r).db :=
    fun _ _ => sound_faultyStep
  exact Run.exec_invariant hstep hinit hfresh

/-- In every state that the server reaches, whichever calls failed before and
whichever fail now: a request that returns an error leaves the entries and the
inodes as they were exactly if it is `Clean`. -/
theorem failed_untraced_iff {oids : InitOids} (hoids : oids.Fresh) {s : Server}
    (hs : FaultyReachable Mac oids s) {env : Env Mac} (hfresh : Fresh env s.db)
    (r : Request Mac) (fails : ℕ → Bool) (fuel : ℕ) :
    (∀ rc t, faultyRun fails (Steps.handle env (fuel + 1) r) ⟨s.db, 0⟩ =
        .error (.code rc) t → t.store = s.db) ↔
      Clean fails env s.db r :=
  untraced_handle_iff (hs.sound hoids) hfresh fuel r

def createDirRequest : Request Unit :=
  .createDir rootDir fileName cidAny readWriteCap

/-- No call fails, so that nothing that is put is left behind by an error. -/
theorem failed_untraced_createDir :
    let s := Server.init countingOids
    Clean (fun _ => false) (countingEnv 0) s.db createDirRequest ∧
      ∀ rc t, faultyRun (fun _ => false)
          (Steps.handle (countingEnv 0) 1 createDirRequest) ⟨s.db, 0⟩ =
            .error (.code rc) t → t.store = s.db := by
  intro s
  have hfresh : Fresh (countingEnv 0) s.db := by decide
  have hclean : Clean (fun _ => false) (countingEnv 0) s.db
      createDirRequest := by
    intro entry hputs _ _
    have hentry : puts (countingEnv 0) s.db createDirRequest =
        some (newEntry (countingEnv 0) countingOids.root fileName dirEntry
          cidAny none) := rfl
    obtain rfl := Option.some.inj (hentry.symm.trans hputs)
    exact ⟨fun _ => AList.lookup_eq_none.mp hfresh.inode, fun _ _ => rfl⟩
  exact ⟨hclean, (failed_untraced_iff countingOids_fresh ⟨[], trivial, rfl⟩
    hfresh createDirRequest (fun _ => false) 0).mpr hclean⟩

/-- The fourth call of `naming_create_dir`, which stores the inode, fails. The
request returns an error, and the entry stays. -/
theorem createDir_traced :
    let s := Server.init countingOids
    let x := faultyRun (fun n => n == 3)
      (Steps.handle (countingEnv 0) 1 createDirRequest)
    let key := db1Keygen countingOids.root fileName
    (FaultyReachable Unit countingOids s ∧ Fresh (countingEnv 0) s.db) ∧
      x.outcome ⟨s.db, 0⟩ = .error (.code .errNaming) ∧
      key ∉ s.db.dirents ∧ key ∈ (x.final ⟨s.db, 0⟩).store.dirents := by
  refine ⟨⟨⟨[], trivial, rfl⟩, by decide⟩, rfl, by decide, by decide⟩

end Lwfs.Naming
