import Lwfs.Naming.Access

/-!
The parents of new entries.

Before it makes an entry, a handler tests that the parent is a directory and
that the capability gives access to it. The first test looks at the structure
that the client has sent, the second at the entry that is stored under the id
in that structure. Nothing compares the two.
-/

namespace Lwfs.Naming

open SysLib Routine

variable {Mac : Type}

/-- The parent that a client sends with a request for a new entry. -/
def Request.newParent : Request Mac → Option NsEntry
  | .createDir parent _ _ _ => some parent
  | .createFile parent _ _ _ => some parent
  | .createLink parent _ _ _ _ _ => some parent
  | _ => none

/-- The name that the new entry is to have. -/
def Request.newName : Request Mac → Name
  | .createDir _ name _ _ => name
  | .createFile _ name _ _ => name
  | .createLink _ name _ _ _ _ => name
  | _ => []

/-- The types of objects that can have entries under them. -/
def IsDirectory (type : Int32) : Prop := type = dirEntry ∨ type = nsObj

instance (type : Int32) : Decidable (IsDirectory type) :=
  inferInstanceAs (Decidable (_ ∨ _))

/-- The request inserts an entry. -/
def Inserts (s : Server) (r : Env Mac × Request Mac) : Prop :=
  ∃ k ∈ (step s r).db.dirents, k ∉ s.db.dirents

/-- A request for a new entry that inserts one does so under a directory. -/
def ParentIsDirectory (s : Server) (r : Env Mac × Request Mac) : Prop :=
  ∀ parent, r.2.newParent = some parent → Inserts s r →
    ∃ e, namingDbGetByOid parent.direntOid s.db = .ok e ∧
      IsDirectory e.inode.entryObj.type

/-- Where the name is free, the parent that the client sends is a directory
only if the entry stored under its id is one. -/
def HonestParent (s : Server) (r : Env Mac × Request Mac) : Prop :=
  ∀ parent, r.2.newParent = some parent → s.up = true →
    db1Keygen parent.direntOid r.2.newName ∉ s.db.dirents →
    IsDirectory parent.entryObj.type →
    ∀ e, namingDbGetByOid parent.direntOid s.db = .ok e →
      IsDirectory e.inode.entryObj.type

/-- Two requests for an entry with one name under one parent. -/
structure SamePlace (r r' : Env Mac × Request Mac) : Prop where
  newParent : r'.2.newParent = r.2.newParent
  newName : r'.2.newName = r.2.newName

/-- Whatever is asked for at the place of the request, by whatever right, is
inserted under a directory. -/
def PlaceIsDirectory (s : Server) (r : Env Mac × Request Mac) : Prop :=
  ∀ r', SamePlace r r' → ParentIsDirectory s r'

theorem checkParent_eq_ok {parent : NsEntry} :
    checkParent parent = .ok () ↔ IsDirectory parent.entryObj.type := by
  unfold checkParent IsDirectory
  split_ifs with h
  · exact iff_of_false nofun fun hdir => hdir.elim h.1 h.2
  · rw [not_and_or, not_not, not_not] at h
    exact iff_of_true rfl h

/-- A request for a new entry whose checks fail does nothing. -/
theorem permits_of_inserts {s : Server} {r : Env Mac × Request Mac}
    {parent : NsEntry} (hparent : r.2.newParent = some parent)
    (h : Inserts s r) : ∃ cap, permits r.1 parent cap s.db = true := by
  obtain ⟨env, request⟩ := r
  obtain ⟨k, hk, hnew⟩ := h
  -- the checks fail, so the request has no effect
  by_contra hnone
  have hdenied : ∀ cap, permits env parent cap s.db = false := fun cap =>
    Bool.eq_false_iff.mpr fun hpermits => hnone ⟨cap, hpermits⟩
  have hput : puts env s.db request = none := by
    cases request <;> simp only [Request.newParent, reduceCtorEq,
      Option.some.injEq] at hparent <;> subst hparent
    all_goals simp [puts, hdenied]
  have hdel : deletes env s.db request = none := by
    cases request <;> simp only [Request.newParent, reduceCtorEq] at hparent
    all_goals rfl
  have hfinal : (handle env request).final s.db = s.db :=
    (handle_acts_none env hput hdel).final_eq
  unfold step at hk
  split_ifs at hk with hup
  · rw [hfinal] at hk
    exact hnew hk
  · exact hnew hk

theorem key_of_puts {env : Env Mac} {db : NamingDb} {req : Request Mac}
    {parent : NsEntry} {entry : DbEntry} (hparent : req.newParent = some parent)
    (h : puts env db req = some entry) :
    entry.dirent.key = db1Keygen parent.direntOid req.newName := by
  have hclip : ∀ name, db1Keygen parent.direntOid (clip name) =
      db1Keygen parent.direntOid name := fun name => by
    simp only [db1Keygen, clip_clip]
  cases req <;> simp only [Request.newParent, reduceCtorEq,
    Option.some.injEq] at hparent <;> subst hparent <;> simp only [puts] at h
  case createDir parent name cid cap =>
    obtain ⟨-, heq⟩ := Option.ite_none_right_eq_some.mp h
    cases heq
    exact hclip name
  case createFile parent name obj cap =>
    obtain ⟨-, heq⟩ := Option.ite_none_right_eq_some.mp h
    cases heq
    exact hclip name
  case createLink parent name cap targetParent targetName targetCap =>
    obtain ⟨-, h⟩ := Option.ite_none_right_eq_some.mp h
    cases hget : namingDbGetByName targetParent.direntOid targetName db with
    | error e => simp only [hget, reduceCtorEq] at h
    | ok target =>
        simp only [hget, Option.some.injEq] at h
        subst h
        exact hclip name

/-- A request for a new entry whose name is taken inserts none. -/
theorem newName_of_inserts {s : Server} {r : Env Mac × Request Mac}
    {parent : NsEntry} (hparent : r.2.newParent = some parent)
    (h : Inserts s r) :
    s.up = true ∧ db1Keygen parent.direntOid r.2.newName ∉ s.db.dirents := by
  obtain ⟨k, hk, hnew⟩ := h
  unfold step at hk
  split_ifs at hk with hup
  swap
  · exact absurd hk hnew
  refine ⟨hup, fun htaken => hnew ?_⟩
  have hdel : deletes r.1 s.db r.2 = none := by
    obtain ⟨env, req⟩ := r
    cases req <;> simp only [Request.newParent, reduceCtorEq] at hparent
    all_goals rfl
  have hfinal : (handle r.1 r.2).final s.db = s.db := by
    cases hput : puts r.1 s.db r.2 with
    | none => exact (handle_acts_none r.1 hput hdel).final_eq
    | some entry =>
        rw [(handle_acts_put r.1 hput).final_eq]
        rw [← key_of_puts hparent hput] at htaken
        exact final_of_error (namingDbPut_of_mem htaken)
  rwa [hfinal] at hk

theorem parentIsDirectory_of_honest {s : Server} {r : Env Mac × Request Mac}
    (h : HonestParent s r) : ParentIsDirectory s r := by
  intro parent hparent hinserts
  obtain ⟨cap, hpermits⟩ := permits_of_inserts hparent hinserts
  obtain ⟨hcheck, hperm⟩ := permits_iff.mp hpermits
  obtain ⟨e, he, -⟩ := checkPerm_eq_ok.mp hperm
  obtain ⟨hup, hfree⟩ := newName_of_inserts hparent hinserts
  exact ⟨e, he, h parent hparent hup hfree (checkParent_eq_ok.mp hcheck) e he⟩

theorem HonestParent.of_samePlace {s : Server} {r r' : Env Mac × Request Mac}
    (h : HonestParent s r) (hplace : SamePlace r r') : HonestParent s r' := by
  intro parent hparent hup hfree
  rw [hplace.newParent] at hparent
  rw [hplace.newName] at hfree
  exact h parent hparent hup hfree

/-- The creation of a directory at a place, with a capability for the container
of the entry stored there. -/
def createAt (env : Env Mac) (cap : Cap Mac) (e : DbEntry) (parent : NsEntry)
    (name : Name) : Env Mac × Request Mac :=
  ({ env with verifyCaps := fun _ => none },
    .createDir parent name e.inode.entryObj.cid
      { cap with data := { cap.data with
        cid := e.inode.entryObj.cid
        containerOp := containerWrite } })

/-- It inserts an entry, whatever the type of the stored one. -/
theorem inserts_createAt {s : Server} (hup : s.up = true) (env : Env Mac)
    (cap : Cap Mac) {e : DbEntry} {parent : NsEntry} {name : Name}
    (hfree : db1Keygen parent.direntOid name ∉ s.db.dirents)
    (hclaim : IsDirectory parent.entryObj.type)
    (he : namingDbGetByOid parent.direntOid s.db = .ok e) :
    Inserts s (createAt env cap e parent name) := by
  let r := createAt env cap e parent name
  have hbits : containerWrite &&& containerWrite = containerWrite := by decide
  have hpermits : permits r.1 parent
      { cap with data := { cap.data with
        cid := e.inode.entryObj.cid
        containerOp := containerWrite } } s.db = true :=
    permits_iff.mpr ⟨checkParent_eq_ok.mpr hclaim,
      checkPerm_eq_ok.mpr ⟨e, he, .inr rfl, hbits, rfl⟩⟩
  have hput : puts r.1 s.db r.2 = some (newEntry r.1 parent.direntOid name
      dirEntry e.inode.entryObj.cid none) := if_pos hpermits
  have hparent : r.2.newParent = some parent := rfl
  have hkey := key_of_puts hparent hput
  refine ⟨db1Keygen parent.direntOid name, ?_, hfree⟩
  have hname : r.2.newName = name := rfl
  rw [hname] at hkey
  unfold step
  rw [if_pos hup]
  show _ ∈ ((handle r.1 r.2).final s.db).dirents
  rw [(handle_acts_put r.1 hput).final_eq, dirents_namingDbPut (hkey ▸ hfree),
    NamingDb.addDirent_dirents, hkey, AList.mem_insert]
  exact .inl rfl

/-- A request for a new entry presents a capability. -/
theorem exists_cap {req : Request Mac} {parent : NsEntry}
    (h : req.newParent = some parent) : Nonempty (Cap Mac) := by
  cases req <;> simp only [Request.newParent, reduceCtorEq] at h
  case createDir cap => exact ⟨cap⟩
  case createFile cap => exact ⟨cap⟩
  case createLink cap _ _ _ => exact ⟨cap⟩

theorem placeIsDirectory_iff {s : Server} {r : Env Mac × Request Mac} :
    PlaceIsDirectory s r ↔ HonestParent s r := by
  constructor
  · intro h parent hparent hup hfree hclaim e he
    obtain ⟨cap⟩ := exists_cap hparent
    -- a directory could be created there
    let r' := createAt r.1 cap e parent r.2.newName
    have hinserts : Inserts s r' :=
      inserts_createAt hup r.1 cap hfree hclaim he
    obtain ⟨e', he', hdir⟩ := h r' ⟨hparent.symm, rfl⟩ parent rfl hinserts
    rw [he] at he'
    cases he'
    exact hdir
  · intro h r' hplace
    exact parentIsDirectory_of_honest (h.of_samePlace hplace)

/-- Along a run in which no request for a free name pretends that its parent is
a directory, entries are inserted under directories only; and exactly then so
would be what any other request inserts in the place of one of the run. -/
theorem parentsAreDirectories_iff (oids : InitOids)
    (run : List (Env Mac × Request Mac)) :
    (Run.Along step HonestParent (Server.init oids) run →
        Run.Along step ParentIsDirectory (Server.init oids) run) ∧
      (Run.Along step PlaceIsDirectory (Server.init oids) run ↔
        Run.Along step HonestParent (Server.init oids) run) := by
  refine ⟨Run.along_mono fun _ _ => parentIsDirectory_of_honest, ?_, ?_⟩
  · exact Run.along_mono fun _ _ => placeIsDirectory_iff.mp
  · exact Run.along_mono fun _ _ => placeIsDirectory_iff.mpr

/-- The file in the root directory, with the type of a directory. -/
def forgedDir : NsEntry where
  name := fileName
  direntOid := oidOf 10
  inodeOid := oidOf 11
  parentOid := countingOids.root
  linkCnt := 1
  entryObj := { Obj.zero with type := dirEntry }
  fileObj := none

/-- A directory is created under the file. -/
def createUnderFileStep : Env Unit × Request Unit :=
  (countingEnv 1,
    .createDir forgedDir fileName Obj.zero.cid readWriteCap)

/-- A file gets an entry under it. -/
theorem file_has_entry :
    ¬ Run.Along step ParentIsDirectory (Server.init countingOids)
        [createFileStep, createUnderFileStep] := by
  rintro ⟨-, h, -⟩
  have hinserts : Inserts (step (Server.init countingOids) createFileStep)
      createUnderFileStep :=
    ⟨db1Keygen (oidOf 10) fileName, by decide, by decide⟩
  obtain ⟨e, he, hdir⟩ := h forgedDir rfl hinserts
  have hfile : (namingDbGetByOid (oidOf 10)
      (step (Server.init countingOids) createFileStep).db).map
        (fun e => e.inode.entryObj.type) = .ok fileEntry := rfl
  rw [show namingDbGetByOid (oidOf 10) _ = .ok e from he] at hfile
  have htype : e.inode.entryObj.type = fileEntry := Except.ok.inj hfile
  rw [htype] at hdir
  exact absurd hdir (by decide)

end Lwfs.Naming
