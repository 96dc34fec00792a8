import Lwfs.Client.FsLwfs

/-!
Which directory operations keep every entry reachable.

Neither the server nor the file system looks at what stands under the entry
that an operation removes. Every entry stays reachable from the root along a
run in which no operation removes an entry that has entries under it, and no
entry is renamed into itself.
-/

namespace Lwfs.FsLwfs

open SysLib Routine Naming

variable {Mac : Type} {fs : FileSystem Mac} {env : FsEnv Mac} {s : Server}

/-! ### When an operation spares the tree -/

/-- The request that removes the node's entry gets as far as that. -/
def Takes (naming : Env Mac) (env : FsEnv Mac) (pno : Pnode) (db : NamingDb)
    (e : DbEntry) : Prop :=
  pno.name.length < nameLen ∧
    ∃ cap, env.checkCapCache pno.parent.entryObj.cid containerWrite = .ok cap ∧
      permits naming pno.parent cap db = true ∧
      namingDbGetByName pno.parent.direntOid pno.name db = .ok e

/-- `lwfs_inop_link` puts an entry. -/
def Links (fs : FileSystem Mac) (env : FsEnv Mac) (target link : Pnode)
    (db : NamingDb) : Prop :=
  link.name.length < nameLen ∧ target.name.length < nameLen ∧
    ∃ entry, puts (env.naming 0) db (.createLink link.parent link.name fs.cap
        target.parent target.name fs.cap) = some entry ∧
      entry.dirent.key ∉ db.dirents

/-- The operation removes the entry `e`. -/
def Removes (fs : FileSystem Mac) (env : FsEnv Mac) (db : NamingDb)
    (e : DbEntry) : FsOp → Prop
  | .rmdir pno => Takes (env.naming 0) env pno db e
  | .unlink pno => Takes (env.naming 0) env pno db e
  | .rename old new =>
      Links fs env old new db ∧ Takes (env.naming 1) env old db e
  | _ => False

/-- The parent of the entry that an operation puts before it removes one. -/
def FsOp.newParent : FsOp → Option Oid
  | .rename _ new => some new.parent.direntOid
  | _ => none

/-- No entry stands under the one that the operation removes, and none is put
there before. -/
def Spares (fs : FileSystem Mac) (s : Mount) (r : FsEnv Mac × FsOp) : Prop :=
  s.server.up = true → ∀ e, Removes fs r.1 s.server.db e r.2 →
    (∀ c, ¬ ParentOf s.server.db e.dirent.oid c) ∧
      r.2.newParent ≠ some e.dirent.oid

/-! ### Calls -/

theorem serve_of_down {α : Type} {x : DbRoutine α} (h : ¬ s.up = true) :
    serve x s = .error (.code .errTimedout) s := if_neg h

theorem serve_eq_ok {α : Type} {x : DbRoutine α} {a : α} {t : Server} :
    serve x s = .ok a t ↔
      s.up = true ∧ x s.db = .ok a t.db ∧ t.up = true := by
  unfold serve
  obtain ⟨db, up⟩ := t
  split_ifs with hup
  · cases x s.db <;> simp [hup, and_assoc, eq_comm]
  · simp [hup]

theorem orEio_eq_ok {α : Type} {x : Except FsError α} {a : α} :
    orEio x = .ok a ↔ x = .ok a := by
  cases x with
  | ok b => exact Iff.rfl
  | error e => cases e <;> simp [orEio]

theorem orEnoent_eq_ok {α : Type} {x : Except FsError α} {a : α} :
    orEnoent x = .ok a ↔ x = .ok a := by
  cases x with
  | ok b => exact Iff.rfl
  | error e => cases e <;> simp [orEnoent]

theorem serve_of_ok {α : Type} {x : DbRoutine α} {a : α} {db : NamingDb}
    (hup : s.up = true) (h : x s.db = .ok a db) :
    serve x s = .ok a ⟨db, true⟩ := by
  unfold serve
  rw [if_pos hup, h]

theorem serve_of_error {α : Type} {x : DbRoutine α} {e : Fault} {db : NamingDb}
    (hup : s.up = true) (h : x s.db = .error e db) :
    serve x s = .error (callError e) ⟨db, survives (.error e : Except Fault α)⟩ := by
  unfold serve
  rw [if_pos hup, h]

/-- A call takes the server through one step. -/
theorem final_serve {α : Type} {x : DbRoutine α} {f : α → Result}
    {r : Env Mac × Request Mac} (h : handle r.1 r.2 = f <$> x) :
    (serve x).final s = step s r := by
  unfold step
  split_ifs with hup
  · rw [h, final_map]
    cases hx : x s.db with
    | ok a db =>
        rw [final_of_ok (serve_of_ok hup hx), final_of_ok hx,
          outcome_of_ok (map_of_ok hx)]
        rfl
    | error e db =>
        rw [final_of_error (serve_of_error hup hx), final_of_error hx,
          outcome_of_error (map_of_error hx)]
        cases e <;> rfl
  · rw [final_of_error (serve_of_down hup)]

/-- What a routine does before it reads only. -/
theorem final_bind_of_quiet {α β : Type} {x : FsRoutine α}
    {f : α → FsRoutine β} (hf : ∀ a t, (f a).final t = t) :
    (x >>= f).final s = x.final s := by
  cases hx : x s with
  | ok a t =>
      have hbind : (x >>= f) s = f a t := bind_of_ok hx
      rw [final_of_ok hx, ← hf a t]
      simp only [final, hbind]
  | error e t => rw [final_of_error (bind_of_error hx), final_of_error hx]

/-- A check comes first: the routine ends there, or goes on. -/
theorem final_check {α β : Type} {x : FsRoutine α} {f : α → FsRoutine β}
    (hx : ∀ t, x.final t = t) :
    (x >>= f).final s = s ∨
      ∃ a, x s = .ok a s ∧ (x >>= f).final s = (f a).final s := by
  have hfinal := hx s
  cases hcase : x s with
  | ok a t =>
      rw [final_of_ok hcase] at hfinal
      subst hfinal
      have hbind : (x >>= f) t = f a t := bind_of_ok hcase
      exact .inr ⟨a, rfl, by simp only [final, hbind]⟩
  | error e t =>
      rw [final_of_error hcase] at hfinal
      exact .inl (by rw [final_of_error (bind_of_error hcase), hfinal])

theorem copyPnodeName_eq_ok {pno : Pnode} {name : Name} {t : Server} :
    copyPnodeName pno s = .ok name t ↔
      (pno.name.length < nameLen ∧ pno.name = name) ∧ s = t := by
  unfold copyPnodeName
  split_ifs with h <;> simp [h]

theorem final_copyPnodeName (pno : Pnode) (s : Server) :
    (copyPnodeName pno).final s = s := by
  unfold copyPnodeName
  split_ifs
  · exact final_of_ok rfl
  · exact final_of_error rfl

theorem final_checkCap (cid : Cid) (op : Opcode) (s : Server) :
    (checkCap env cid op).final s = s := final_reader _ s

theorem checkCap_eq_ok {cid : Cid} {op : Opcode} {cap : Cap Mac} {t : Server} :
    checkCap env cid op s = .ok cap t ↔
      env.checkCapCache cid op = .ok cap ∧ s = t := by
  unfold checkCap
  rw [reader_eq_ok]
  cases env.checkCapCache cid op <;> simp [Except.mapError]

/-- An operation that copies a name and asks for a capability before it sends
its request. -/
theorem final_underCap {α : Type} (env : FsEnv Mac) (pno : Pnode) (op : Opcode)
    (body : Name → Cap Mac → FsRoutine α) (s : Server) :
    let x := do
      let name ← copyPnodeName pno
      let cap ← checkCap env pno.parent.entryObj.cid op
      body name cap
    x.final s = s ∨ ∃ cap, pno.name.length < nameLen ∧
      env.checkCapCache pno.parent.entryObj.cid op = .ok cap ∧
      x.final s = (body pno.name cap).final s := by
  intro x
  rcases final_check (s := s) (final_copyPnodeName pno) (f := fun name => do
    let cap ← checkCap env pno.parent.entryObj.cid op
    body name cap) with hsame | ⟨name, hname, hrest⟩
  · exact .inl hsame
  obtain ⟨⟨hlen, rfl⟩, -⟩ := copyPnodeName_eq_ok.mp hname
  rcases final_check (s := s) (final_checkCap pno.parent.entryObj.cid op)
    (f := body pno.name) with hsame | ⟨cap, hcap, hbody⟩
  · exact .inl (hrest.trans hsame)
  · exact .inr ⟨cap, hlen, (checkCap_eq_ok.mp hcap).1, hrest.trans hbody⟩

/-! ### Entries that the server returns -/

theorem direntOid_of_copy {entry : DbEntry} {e : NsEntry} {db : NamingDb}
    (h : copyDbToNsEntry entry db = .ok e) : e.direntOid = entry.dirent.oid := by
  unfold copyDbToNsEntry at h
  cases hobj : getFileObj db (db.dirents.entries.length + 2) entry with
  | error f =>
      rw [hobj] at h
      cases h
  | ok fileObj =>
      rw [hobj] at h
      cases h
      rfl

theorem namingDbGetByOid_ne_exist {oid : Oid} {db : NamingDb} :
    namingDbGetByOid oid db ≠ .error (.code .errExist) := by
  unfold namingDbGetByOid db2Get entryOf inodeGet
  cases db.dirents.find Dirent.oid oid with
  | none => exact fun h => by cases h
  | some place =>
      intro h
      cases hi : db.inodes.lookup place.2.inodeOid with
      | none => simp [hi, bind, Except.bind] at h
      | some i => simp [hi, bind, Except.bind, pure, Except.pure] at h

section Returned

variable {naming : Env Mac} {parent : NsEntry} {name : Name} {obj : Obj}
  {cap : Cap Mac} {db db' : NamingDb} {e : NsEntry}

theorem direntOid_of_namingCreateFile
    (h : namingCreateFile naming parent name obj cap db = .ok e db') :
    e.direntOid = naming.direntOid := by
  simp only [namingCreateFile, bind_eq_ok, reader_eq_ok] at h
  obtain ⟨_, _, _, _, _, _, _, _, _, _, _, _, hcopy, -⟩ := h
  exact direntOid_of_copy hcopy

/-- A file that exists already has not been put. -/
theorem namingCreateFile_exist (hfresh : Fresh naming db)
    (h : namingCreateFile naming parent name obj cap db =
      .error (.code .errExist) db') : db' = db := by
  unfold namingCreateFile at h
  rcases bind_eq_error.mp h with hcheck | ⟨_, t, hcheck, h⟩
  · exact (reader_eq_error.mp hcheck).2.symm
  obtain ⟨-, rfl⟩ := reader_eq_ok.mp hcheck
  rcases bind_eq_error.mp h with hperm | ⟨_, t, hperm, h⟩
  · exact (reader_eq_error.mp hperm).2.symm
  obtain ⟨-, rfl⟩ := reader_eq_ok.mp hperm
  by_cases hkey : (newEntry naming parent.direntOid name fileEntry obj.cid
      (some obj)).dirent.key ∈ db.dirents
  · rcases bind_eq_error.mp h with hput | ⟨_, t, hput, h⟩
    · rw [namingDbPut_of_mem hkey] at hput
      cases hput
      rfl
    · rw [namingDbPut_of_mem hkey] at hput
      cases hput
  · -- once the entry is put, no code says that it exists
    exfalso
    rcases bind_eq_error.mp h with hput | ⟨_, t, -, h⟩
    · rw [namingDbPut_newEntry hfresh hkey] at hput
      cases hput
    rcases bind_eq_error.mp h with hget | ⟨_, u, -, h⟩
    · exact namingDbGetByOid_ne_exist (reader_eq_error.mp hget).1
    · have htype : fileEntry ≠ linkEntry := by decide
      have hcopy := (reader_eq_error.mp h).1
      rw [copyDbToNsEntry_of_type htype] at hcopy
      cases hcopy

end Returned

/-- A lookup finds an entry under the parent. -/
theorem namingLookup_eq_ok {naming : Env Mac} {parent : NsEntry} {name : Name}
    {cap : Cap Mac} {db db' : NamingDb} {e : NsEntry}
    (h : namingLookup naming parent name cap db = .ok e db') :
    ∃ d, db.dirents.lookup (db1Keygen parent.direntOid name) = some d ∧
      e.direntOid = d.oid := by
  simp only [namingLookup, bind_eq_ok, reader_eq_ok] at h
  obtain ⟨_, _, ⟨-, rfl⟩, _, _, ⟨-, rfl⟩, entry, _, ⟨hget, -⟩, hcopy, -⟩ := h
  exact ⟨entry.dirent, (namingDbGetByName_eq_ok.mp hget).1,
    direntOid_of_copy hcopy⟩

/-! ### Lookups -/

/-- The database is the same, whatever has become of the server. -/
def SameDb (s t : Server) : Prop := t.db = s.db

instance : Std.Refl SameDb := ⟨fun _ => rfl⟩

instance : IsTrans Server SameDb := ⟨fun _ _ _ h h' => Eq.trans h' h⟩

theorem serve_namingLookup_within (naming : Env Mac) (parent : NsEntry)
    (name : Name) (cap : Cap Mac) :
    Within SameDb (serve (namingLookup naming parent name cap)) := by
  intro s
  have hserve : (serve (namingLookup naming parent name cap)).final s =
      step s (naming, .lookup parent name cap) := final_serve rfl
  have hsame : (handle naming (.lookup parent name cap)).final s.db = s.db :=
    (handle_acts_none naming rfl rfl).final_eq
  rw [hserve]
  unfold step
  split_ifs
  · exact hsame
  · exact Std.Refl.refl s

theorem traversePath_within (fs : FileSystem Mac) (env : FsEnv Mac)
    (path : List Name) : Within SameDb (traversePath fs env path) := by
  induction path with
  | nil => exact within_pure _
  | cons name parentPath ih =>
      refine within_bind ih fun parent => within_bind (within_reader _) fun cap => ?_
      exact within_mapOutcome (serve_namingLookup_within _ _ _ _) _

variable {mount : NamingDb}

/-- A path leads to the root or to an entry that was added. -/
theorem inside_of_traversePath (hmount : Mounted fs.root.direntOid mount)
    (htree : Tree fs.root.direntOid mount s.db) {path : List Name} {e : NsEntry}
    {t : Server} (h : traversePath fs env path s = .ok e t) :
    Inside fs.root.direntOid mount e.direntOid := by
  induction path generalizing e t with
  | nil =>
      obtain ⟨rfl, -⟩ := pure_eq_ok.mp h
      exact hmount.inside_root
  | cons name parentPath ih =>
      obtain ⟨parent, u, hparent, h⟩ := bind_eq_ok.mp h
      obtain ⟨cap, v, hcap, h⟩ := bind_eq_ok.mp h
      obtain ⟨-, rfl⟩ := checkCap_eq_ok.mp hcap
      have hinside := ih hparent
      have hu : u.db = s.db :=
        within_of_ok (traversePath_within fs env parentPath) hparent
      obtain ⟨houtcome, -⟩ := mapOutcome_eq_ok.mp h
      have hlookup := outcome_eq_ok.mp (orEnoent_eq_ok.mp houtcome)
      obtain ⟨-, hlookup, -⟩ := serve_eq_ok.mp hlookup
      obtain ⟨d, hd, hoid⟩ := namingLookup_eq_ok hlookup
      rw [hu] at hd
      have hkey := htree.wellFormed.key_eq _ _ hd
      have hdparent : d.parentOid = parent.direntOid :=
        (congrArg Db1Key.parentOid hkey).symm
      rw [hoid]
      exact (htree.own _ d hd fun hm => hinside.empty _ d hm hdparent).1

/-! ### One operation -/

section Operation

variable (hmount : Mounted fs.root.direntOid mount)
  (hgrown : Grown fs.root.direntOid mount s.db)

include hmount hgrown

theorem grown_mkdir {pno : Pnode}
    (hparent : Inside fs.root.direntOid mount pno.parent.direntOid)
    (hnew : NewIds (env.naming 0) s.db) :
    Grown fs.root.direntOid mount ((lwfsInopMkdir env pno).final s).db := by
  rcases final_underCap env pno containerWrite (fun name cap =>
    serve (namingCreateDir (env.naming 0) pno.parent name
      pno.parent.entryObj.cid cap)) s with hsame | ⟨cap, -, -, hbody⟩
  · rw [lwfsInopMkdir, hsame]
    exact hgrown
  · rw [lwfsInopMkdir, hbody, final_serve (r := (env.naming 0, .createDir
      pno.parent pno.name pno.parent.entryObj.cid cap)) rfl]
    exact grown_step hmount hgrown (.inr hnew) hparent fun _ => not_orphans rfl

/-- A removal spares the tree if nothing stands under what it takes. -/
theorem grown_remove {naming : Env Mac} {pno : Pnode} {cap : Cap Mac}
    {r : Request Mac}
    (hr : r = .removeDir pno.parent pno.name cap ∨
      r = .unlink pno.parent pno.name cap)
    (hparent : Inside fs.root.direntOid mount pno.parent.direntOid)
    (hlen : pno.name.length < nameLen)
    (hcap : env.checkCapCache pno.parent.entryObj.cid containerWrite = .ok cap)
    (hspares : s.up = true → ∀ e, Takes naming env pno s.db e →
      ∀ c, ¬ ParentOf s.db e.dirent.oid c) :
    Grown fs.root.direntOid mount (step s (naming, r)).db := by
  have hput : puts naming s.db r = none := by rcases hr with rfl | rfl <;> rfl
  have hwithin : r.Within fs.root.direntOid mount := by
    rcases hr with rfl | rfl <;> exact hparent
  have hdel : deletes naming s.db r = if permits naming pno.parent cap s.db
      then some (pno.parent.direntOid, pno.name) else none := by
    rcases hr with rfl | rfl <;> rfl
  refine grown_step hmount hgrown (.inl hput) hwithin fun hup => ?_
  rintro ⟨place, e, hplace, hget, c, hc⟩
  rw [hdel] at hplace
  obtain ⟨hpermits, heq⟩ := Option.ite_none_right_eq_some.mp hplace
  cases heq
  exact hspares hup e ⟨hlen, cap, hcap, hpermits, hget⟩ c hc

theorem grown_rmdir {pno : Pnode}
    (hparent : Inside fs.root.direntOid mount pno.parent.direntOid)
    (hspares : s.up = true → ∀ e, Takes (env.naming 0) env pno s.db e →
      ∀ c, ¬ ParentOf s.db e.dirent.oid c) :
    Grown fs.root.direntOid mount ((lwfsInopRmdir env pno).final s).db := by
  rcases final_underCap env pno containerWrite (fun name cap =>
    (serve (namingRemoveDir (env.naming 0) pno.parent name cap)).mapOutcome
      orEio) s with hsame | ⟨cap, hlen, hcap, hbody⟩
  · rw [lwfsInopRmdir, hsame]
    exact hgrown
  · rw [lwfsInopRmdir, hbody, final_mapOutcome,
      final_serve (r := (env.naming 0, .removeDir pno.parent pno.name cap)) rfl]
    exact grown_remove hmount hgrown (.inl rfl) hparent hlen hcap hspares

omit hmount hgrown in
theorem final_removeFileObjs (entry : NsEntry) (t : Server) :
    (removeFileObjs env entry).final t = t := by
  unfold removeFileObjs
  cases entry.fileObj with
  | none => exact final_of_ok rfl
  | some obj =>
      simp only
      split_ifs
      · rw [final_bind_of_quiet fun cap t => final_reader _ t]
        exact final_checkCap obj.cid containerWrite t
      · exact final_of_ok rfl

theorem grown_unlink {call : ℕ} {pno : Pnode}
    (hparent : Inside fs.root.direntOid mount pno.parent.direntOid)
    (hspares : s.up = true → ∀ e, Takes (env.naming call) env pno s.db e →
      ∀ c, ¬ ParentOf s.db e.dirent.oid c) :
    Grown fs.root.direntOid mount ((lwfsInopUnlink env call pno).final s).db := by
  rcases final_underCap env pno containerWrite (fun name cap => do
    let entry ← (serve (namingUnlink (env.naming call) pno.parent name
      cap)).mapOutcome orEio
    removeFileObjs env entry) s with hsame | ⟨cap, hlen, hcap, hbody⟩
  · rw [lwfsInopUnlink, hsame]
    exact hgrown
  · rw [lwfsInopUnlink, hbody, final_bind_of_quiet final_removeFileObjs,
      final_mapOutcome,
      final_serve (r := (env.naming call, .unlink pno.parent pno.name cap)) rfl]
    exact grown_remove hmount hgrown (.inr rfl) hparent hlen hcap hspares

omit hmount hgrown in
theorem serve_exist {naming : Env Mac} {parent : NsEntry} {name : Name}
    {obj : Obj} {cap : Cap Mac} {t : Server} (hfresh : Fresh naming s.db)
    (h : serve (namingCreateFile naming parent name obj cap) s =
      .error (.code .errExist) t) : t.db = s.db := by
  unfold serve at h
  split_ifs at h with hup
  · cases hx : namingCreateFile naming parent name obj cap s.db with
    | ok e db =>
        rw [hx] at h
        cases h
    | error f db =>
        rw [hx] at h
        obtain ⟨hcode, rfl⟩ := EStateM.Result.error.inj h
        obtain rfl : f = .code .errExist := by
          cases f <;> simp_all [callError]
        exact namingCreateFile_exist hfresh hx
  · cases h

omit hmount hgrown in
/-- The loop puts nothing, or it ends like one of its attempts on the database
it began with. -/
theorem createEntry_cases {parent : NsEntry} {name : Name} {obj : Obj}
    {cap : Cap Mac} (missCount attempts : ℕ)
    (hfresh : ∀ call, Fresh (env.naming call) s.db) :
    let x := createEntry env parent name obj cap missCount attempts
    ((x.final s).db = s.db ∧ ∀ e t, x s ≠ .ok e t) ∨
      ∃ call u, u.db = s.db ∧
        x s = serve (namingCreateFile (env.naming call) parent name obj cap) u := by
  induction attempts generalizing missCount s with
  | zero => exact .inl ⟨rfl, fun e t h => by cases h⟩
  | succ attempts ih =>
      intro x
      cases hserve : serve (namingCreateFile (env.naming missCount) parent name
        obj cap) s with
      | ok e t =>
          have hx : x s = .ok e t := tryCatch_of_ok hserve
          exact .inr ⟨missCount, s, rfl, hx.trans hserve.symm⟩
      | error f t =>
          have hx : x s = (if f = .code .errExist then
              createEntry env parent name obj cap (missCount + 1) attempts
            else throw f : FsRoutine NsEntry) t := tryCatch_of_error hserve
          by_cases hexist : f = .code .errExist
          · subst hexist
            rw [if_pos rfl] at hx
            have hdb := serve_exist (hfresh missCount) hserve
            have hfinal : x.final s = (createEntry env parent name obj cap
                (missCount + 1) attempts).final t := by
              simp only [final, hx]
            rcases ih (s := t) (missCount + 1)
              (fun call => hdb ▸ hfresh call) with ⟨hsame, hfail⟩ | ⟨call, u, hu, heq⟩
            · rw [hfinal]
              exact .inl ⟨hsame.trans hdb, fun e v h => hfail e v (hx.symm.trans h)⟩
            · exact .inr ⟨call, u, hu.trans hdb, hx.trans heq⟩
          · rw [if_neg hexist] at hx
            exact .inr ⟨missCount, s, rfl, hx.trans hserve.symm⟩

theorem grown_createEntry {parent : NsEntry} {name : Name} {obj : Obj}
    {cap : Cap Mac} {missCount attempts : ℕ}
    (hparent : Inside fs.root.direntOid mount parent.direntOid)
    (hnew : ∀ call, NewIds (env.naming call) s.db) :
    Grown fs.root.direntOid mount ((createEntry env parent name obj cap
      missCount attempts).final s).db := by
  rcases createEntry_cases missCount attempts fun call => (hnew call).fresh with
    ⟨hsame, -⟩ | ⟨call, u, hu, heq⟩
  · rw [hsame]
    exact hgrown
  · have hfinal : (createEntry env parent name obj cap missCount attempts).final
        s = step u (env.naming call, .createFile parent name obj cap) := by
      rw [← final_serve (x := namingCreateFile (env.naming call) parent name obj
        cap) (f := .nsEntry) rfl]
      simp only [final, heq]
    rw [hfinal]
    rw [← hu] at hgrown
    exact grown_step hmount hgrown (.inr (hu ▸ hnew call)) hparent
      fun _ => not_orphans rfl

theorem grown_createFile {pno : Pnode}
    (hparent : Inside fs.root.direntOid mount pno.parent.direntOid)
    (hnew : ∀ call, NewIds (env.naming call) s.db) :
    Grown fs.root.direntOid mount ((FsLwfs.createFile env pno).final s).db := by
  unfold FsLwfs.createFile
  rcases final_check (s := s) (final_copyPnodeName pno) with hsame | ⟨name, -, h⟩
  · rwa [hsame]
  rw [h]
  rcases final_check (s := s) (fun t => final_reader _ t) with hsame | ⟨cid, -, h⟩
  · rwa [hsame]
  rw [h]
  rcases final_check (s := s) (final_checkCap _ _) with hsame | ⟨objsCap, -, h⟩
  · rwa [hsame]
  rw [h]
  rcases final_check (s := s) (final_checkCap _ _) with hsame | ⟨cap, -, h⟩
  · rwa [hsame]
  rw [h]
  rcases final_check (s := s) (fun t => final_reader _ t) with hsame | ⟨obj, -, h⟩
  · rwa [hsame]
  rw [h]
  exact grown_createEntry hmount hgrown hparent hnew

omit hmount in
theorem inside_of_createFile {pno : Pnode} {e : NsEntry} {t : Server}
    (hnew : ∀ call, NewIds (env.naming call) s.db)
    (h : FsLwfs.createFile env pno s = .ok e t) :
    Inside fs.root.direntOid mount e.direntOid := by
  simp only [FsLwfs.createFile, bind_eq_ok, reader_eq_ok] at h
  obtain ⟨_, _, hname, _, _, ⟨-, rfl⟩, _, _, hobjs, _, _, hcap, _, _, ⟨-, rfl⟩,
    hentry⟩ := h
  obtain ⟨-, rfl⟩ := copyPnodeName_eq_ok.mp hname
  obtain ⟨-, rfl⟩ := checkCap_eq_ok.mp hobjs
  obtain ⟨-, rfl⟩ := checkCap_eq_ok.mp hcap
  rcases createEntry_cases 0 3 fun call => (hnew call).fresh with ⟨-, hfail⟩ | ⟨call, u, -, heq⟩
  · exact absurd hentry (hfail e t)
  · obtain ⟨-, hcreate, -⟩ := serve_eq_ok.mp (heq.symm.trans hentry)
    rw [direntOid_of_namingCreateFile hcreate]
    exact hgrown.tree.inside_newIds (hnew call)

theorem grown_link {target link : Pnode}
    (hparent : Inside fs.root.direntOid mount link.parent.direntOid)
    (hnew : NewIds (env.naming 0) s.db) :
    Grown fs.root.direntOid mount ((lwfsInopLink fs env target link).final s).db := by
  unfold lwfsInopLink
  rcases final_check (s := s) (final_copyPnodeName link) with
    hsame | ⟨linkName, -, h⟩
  · rwa [hsame]
  rw [h]
  rcases final_check (s := s) (final_copyPnodeName target) with
    hsame | ⟨targetName, -, h⟩
  · rwa [hsame]
  rw [h, final_mapOutcome, final_serve (r := (env.naming 0, .createLink
    link.parent linkName fs.cap target.parent targetName fs.cap)) rfl]
  exact grown_step hmount hgrown (.inr hnew) hparent fun _ => not_orphans rfl

end Operation

/-! ### Renaming -/

/-- The database after a link was made. -/
def withLink (db : NamingDb) (entry target : DbEntry) : NamingDb :=
  (db.addDirent entry.dirent).putInode
    (target.inode.withRefCnt (target.inode.refCnt + 1))

section Rename

variable {old new : Pnode} {naming : Env Mac} {db : NamingDb}
  {entry target : DbEntry}

/-- A link that was made. -/
theorem lwfsInopLink_eq_ok (hwf : WellFormed s.db) {e : NsEntry} {t : Server}
    (h : lwfsInopLink fs env old new s = .ok e t) :
    s.up = true ∧ Links fs env old new s.db ∧
      checkPerm (env.naming 0) old.parent.direntOid fs.cap containerRead s.db =
        .ok () ∧
      ∃ target, namingDbGetByName old.parent.direntOid old.name s.db =
          .ok target ∧
        (linkTo (env.naming 0) new.parent.direntOid new.name
          target).dirent.key ∉ s.db.dirents ∧
        t.db = withLink s.db (linkTo (env.naming 0)
          new.parent.direntOid new.name target) target := by
  obtain ⟨linkName, u, hlink, h⟩ := bind_eq_ok.mp h
  obtain ⟨⟨hlinkLen, rfl⟩, rfl⟩ := copyPnodeName_eq_ok.mp hlink
  obtain ⟨targetName, u, htarget, h⟩ := bind_eq_ok.mp h
  obtain ⟨⟨htargetLen, rfl⟩, rfl⟩ := copyPnodeName_eq_ok.mp htarget
  obtain ⟨houtcome, -⟩ := mapOutcome_eq_ok.mp h
  have hfinal := (mapOutcome_eq_ok.mp h).2
  have hserve := outcome_eq_ok.mp (orEio_eq_ok.mp houtcome)
  rw [hfinal] at hserve
  obtain ⟨hup, hcreate, -⟩ := serve_eq_ok.mp hserve
  simp only [namingCreateLink, bind_eq_ok, reader_eq_ok] at hcreate
  obtain ⟨_, _, ⟨hparent, rfl⟩, _, _, ⟨hperm, rfl⟩, _, _, ⟨hread, rfl⟩, target,
    _, ⟨hget, rfl⟩, _, db', hput, -, rfl⟩ := hcreate
  have hkey : (linkTo (env.naming 0) new.parent.direntOid new.name
      target).dirent.key ∉ s.db.dirents := by
    intro hmem
    rw [namingDbPut_of_mem hmem] at hput
    cases hput
  obtain ⟨-, hi⟩ := namingDbGetByName_eq_ok.mp hget
  have hputs : puts (env.naming 0) s.db (.createLink new.parent new.name fs.cap
      old.parent old.name fs.cap) =
        some (linkTo (env.naming 0) new.parent.direntOid new.name target) := by
    simp only [puts, permits_iff.mpr ⟨hparent, hperm⟩, isOk_iff.mpr hread, hget,
      Bool.and_self, if_true]
  refine ⟨hup, ⟨hlinkLen, htargetLen, _, hputs, hkey⟩, hread, target, hget, hkey,
    ?_⟩
  by_cases hzero : target.dirent.oid = Oid.zero
  · rw [namingDbPut_linkTo_zero hwf hzero hi hkey] at hput
    cases hput
  · rw [namingDbPut_linkTo hwf hzero hi hkey] at hput
    exact (EStateM.Result.ok.inj hput).2.symm

theorem parentOf_withLink {p c : Oid}
    (h : ParentOf (withLink db entry target) p c) :
    ParentOf db p c ∨ p = entry.dirent.parentOid := by
  obtain ⟨k, d, hd, hoid, hp⟩ := h
  rcases lookup_addDirent (show (db.addDirent entry.dirent).dirents.lookup k =
    some d from hd) with ⟨-, rfl⟩ | hd
  · exact .inr hp.symm
  · exact .inl ⟨k, d, hd, hoid, hp⟩

section WithLink

variable (hkey : entry.dirent.key ∉ db.dirents)

include hkey

theorem lookup_withLink {k : Db1Key} {d : Dirent}
    (h : db.dirents.lookup k = some d) :
    (withLink db entry target).dirents.lookup k = some d := by
  have hne : k ≠ entry.dirent.key := by
    rintro rfl
    exact hkey (Table.mem_of_lookup h)
  exact (AList.lookup_insert_ne hne).trans h

omit hkey in
/-- The inodes keep their objects. -/
theorem entryObj_withLink (hwf : WellFormed db)
    (htarget : db.inodes.lookup target.dirent.inodeOid = some target.inode)
    {o : Oid} {i i' : Inode} (hi : db.inodes.lookup o = some i)
    (hi' : (withLink db entry target).inodes.lookup o = some i') :
    i'.entryObj = i.entryObj := by
  have hoid := hwf.inode_oid _ _ htarget
  have hlookup : (db.inodes.insert target.inode.entryObj.oid
      (target.inode.withRefCnt (target.inode.refCnt + 1))).lookup o = some i' := hi'
  rw [hoid] at hlookup
  rcases eq_or_ne o target.dirent.inodeOid with rfl | hne
  · rw [AList.lookup_insert, Option.some.injEq] at hlookup
    obtain rfl := Option.some.inj (hi.symm.trans htarget)
    rw [← hlookup]
    rfl
  · rw [AList.lookup_insert_ne hne, hi] at hlookup
    rw [Option.some.inj hlookup]

/-- What is permitted in a directory after the link was made was permitted
before. -/
theorem permits_of_withLink (hwf : WellFormed db)
    (hwf' : WellFormed (withLink db entry target))
    (htarget : db.inodes.lookup target.dirent.inodeOid = some target.inode)
    {parent : NsEntry} {cap cap' : Cap Mac} {naming' : Env Mac}
    (hread : checkPerm naming' parent.direntOid cap' containerRead db = .ok ())
    (h : permits naming parent cap (withLink db entry target) = true) :
    permits naming parent cap db = true := by
  obtain ⟨hparent, hperm⟩ := permits_iff.mp h
  obtain ⟨p, hget, -⟩ := checkPerm_eq_ok.mp hread
  obtain ⟨⟨k, hfind⟩, hi⟩ := namingDbGetByOid_eq_ok.mp hget
  obtain ⟨hd, hoid⟩ := Table.lookup_of_find hfind
  obtain ⟨p', hget', hcid, hop, hverify⟩ := checkPerm_eq_ok.mp hperm
  obtain ⟨⟨k', hfind'⟩, hi'⟩ := namingDbGetByOid_eq_ok.mp hget'
  obtain ⟨hd', hoid'⟩ := Table.lookup_of_find hfind'
  -- the directory is the same entry before and after
  obtain ⟨-, hdirent⟩ : _ ∧ p'.dirent = p.dirent :=
    hwf'.unique.eq_of_lookup hd' (lookup_withLink hkey hd)
      (hoid'.trans hoid.symm)
  rw [hdirent] at hi'
  have hobj := entryObj_withLink hwf htarget hi hi'
  rw [hobj] at hcid
  exact permits_iff.mpr
    ⟨hparent, checkPerm_eq_ok.mpr ⟨p, hget, hcid, hop, hverify⟩⟩

/-- What the second half of a renaming takes is the entry that was linked. -/
theorem takes_of_withLink (hwf : WellFormed db)
    (hwf' : WellFormed (withLink db entry target))
    (hget : namingDbGetByName old.parent.direntOid old.name db = .ok target)
    {cap' : Cap Mac} {naming' : Env Mac}
    (hread : checkPerm naming' old.parent.direntOid cap' containerRead db = .ok ())
    {e : DbEntry} (h : Takes naming env old (withLink db entry target) e) :
    Takes naming env old db target ∧ e.dirent = target.dirent := by
  obtain ⟨hlen, cap, hcap, hpermits, htaken⟩ := h
  obtain ⟨hd, hi⟩ := namingDbGetByName_eq_ok.mp hget
  obtain ⟨hd', -⟩ := namingDbGetByName_eq_ok.mp htaken
  rw [lookup_withLink hkey hd, Option.some.injEq] at hd'
  exact ⟨⟨hlen, cap, hcap,
    permits_of_withLink hkey hwf hwf' hi hread hpermits, hget⟩, hd'.symm⟩

end WithLink

theorem grown_rename (hmount : Mounted fs.root.direntOid mount)
    (hgrown : Grown fs.root.direntOid mount s.db)
    (hold : Inside fs.root.direntOid mount old.parent.direntOid)
    (hnewParent : Inside fs.root.direntOid mount new.parent.direntOid)
    (hnew : NewIds (env.naming 0) s.db)
    (hspares : s.up = true → ∀ e, Links fs env old new s.db →
      Takes (env.naming 1) env old s.db e →
        (∀ c, ¬ ParentOf s.db e.dirent.oid c) ∧
          new.parent.direntOid ≠ e.dirent.oid) :
    Grown fs.root.direntOid mount ((lwfsInopRename fs env old new).final s).db := by
  have hgrownLink : Grown fs.root.direntOid mount
      ((lwfsInopLink fs env old new).final s).db :=
    grown_link hmount hgrown hnewParent hnew
  cases hlink : lwfsInopLink fs env old new s with
  | error f t =>
      have hrename : lwfsInopRename fs env old new s = .error f t :=
        bind_of_error hlink
      rw [final_of_error hlink] at hgrownLink
      rwa [final_of_error hrename]
  | ok e t =>
      have hrename : lwfsInopRename fs env old new s =
        lwfsInopUnlink env 1 old t := bind_of_ok hlink
      have hfinal : (lwfsInopRename fs env old new).final s =
          (lwfsInopUnlink env 1 old).final t := by
        simp only [final, hrename]
      rw [final_of_ok hlink] at hgrownLink
      rw [hfinal]
      have hwf := hgrown.tree.wellFormed
      obtain ⟨hup, hlinks, hread, target, hget, hkey, hdb⟩ :=
        lwfsInopLink_eq_ok hwf hlink
      have hwf' := hgrownLink.tree.wellFormed
      rw [hdb] at hwf'
      refine grown_unlink hmount hgrownLink hold fun _ e he c hc => ?_
      rw [hdb] at he hc
      obtain ⟨htakes, hdirent⟩ := takes_of_withLink hkey hwf hwf' hget hread he
      obtain ⟨hchildless, hne⟩ := hspares hup target hlinks htakes
      rw [hdirent] at hc
      rcases parentOf_withLink hc with hc | hparent
      · exact hchildless c hc
      · exact hne hparent.symm

end Rename

/-! ### Runs -/

/-- Every entry is reachable, and the entries in the path nodes are the root's
or were added. -/
structure Sound (fs : FileSystem Mac) (mount : NamingDb) (s : Mount) : Prop where
  grown : Grown fs.root.direntOid mount s.server.db
  known : ∀ entry ∈ s.known, Inside fs.root.direntOid mount entry.direntOid

theorem sound_init (hwf : WellFormed s.db)
    (hmount : Mounted fs.root.direntOid s.db) :
    Sound fs s.db (Mount.init fs s) where
  grown := ⟨tree_mount hwf, allReachable_mount⟩
  known entry h := by
    obtain rfl := List.mem_singleton.mp h
    exact hmount.inside_root

theorem fsStep_server (fs : FileSystem Mac) (s : Mount) (r : FsEnv Mac × FsOp) :
    (fsStep fs s r).server = (perform fs r.1 r.2).final s.server := by
  unfold fsStep final
  cases perform fs r.1 r.2 s.server <;> rfl

theorem mem_known_fsStep {s : Mount} {r : FsEnv Mac × FsOp} {entry : NsEntry}
    (h : entry ∈ (fsStep fs s r).known) :
    entry ∈ s.known ∨ ∃ entries t,
      perform fs r.1 r.2 s.server = .ok entries t ∧ entry ∈ entries := by
  unfold fsStep at h
  cases hperform : perform fs r.1 r.2 s.server with
  | ok entries t =>
      rw [hperform] at h
      rcases List.mem_append.mp h with h | h
      · exact .inr ⟨entries, t, rfl, h⟩
      · exact .inl h
  | error f t =>
      rw [hperform] at h
      exact .inl h

section Step

variable {s : Mount} {r : FsEnv Mac × FsOp}
  (hmount : Mounted fs.root.direntOid mount) (hs : Sound fs mount s)
  (hproper : Proper s r)

include hmount hs hproper

theorem grown_perform (hspares : Spares fs s r) :
    Grown fs.root.direntOid mount ((perform fs r.1 r.2).final s.server).db := by
  obtain ⟨env, op⟩ := r
  have hinside : ∀ pno ∈ op.pnodes,
      Inside fs.root.direntOid mount pno.parent.direntOid :=
    fun pno hpno => hs.known _ (hproper.known pno hpno)
  have hnew : ∀ call, NewIds (env.naming call) s.server.db := hproper.newIds
  cases op with
  | lookup path =>
      rw [perform, final_map, traversePath_within fs env path s.server]
      exact hs.grown
  | mkdir pno =>
      rw [perform, final_map]
      exact grown_mkdir hmount hs.grown (hinside pno (by simp [FsOp.pnodes]))
        (hnew 0)
  | rmdir pno =>
      rw [perform, final_map]
      exact grown_rmdir hmount hs.grown (hinside pno (by simp [FsOp.pnodes]))
        fun hup e he => (hspares hup e he).1
  | createFile pno =>
      rw [perform, final_map]
      exact grown_createFile hmount hs.grown (hinside pno (by simp [FsOp.pnodes]))
        hnew
  | link target pno =>
      rw [perform, final_map]
      exact grown_link hmount hs.grown (hinside pno (by simp [FsOp.pnodes]))
        (hnew 0)
  | unlink pno =>
      rw [perform, final_map]
      exact grown_unlink hmount hs.grown (hinside pno (by simp [FsOp.pnodes]))
        fun hup e he => (hspares hup e he).1
  | rename old new =>
      rw [perform, final_map]
      refine grown_rename hmount hs.grown (hinside old (by simp [FsOp.pnodes]))
        (hinside new (by simp [FsOp.pnodes])) (hnew 0) fun hup e hlinks htakes => ?_
      obtain ⟨hchildless, hne⟩ := hspares hup e ⟨hlinks, htakes⟩
      exact ⟨hchildless, fun heq => hne (congrArg some heq)⟩

/-- What is put into path nodes is inside the namespace. -/
theorem inside_perform {entries : List NsEntry} {t : Server}
    (h : perform fs r.1 r.2 s.server = .ok entries t) {entry : NsEntry}
    (hentry : entry ∈ entries) :
    Inside fs.root.direntOid mount entry.direntOid := by
  obtain ⟨env, op⟩ := r
  have hnew : ∀ call, NewIds (env.naming call) s.server.db := hproper.newIds
  cases op with
  | lookup path =>
      obtain ⟨e, he, rfl⟩ := map_eq_ok.mp h
      obtain rfl := List.mem_singleton.mp hentry
      exact inside_of_traversePath hmount hs.grown.tree he
  | createFile pno =>
      obtain ⟨e, he, rfl⟩ := map_eq_ok.mp h
      obtain rfl := List.mem_singleton.mp hentry
      exact inside_of_createFile hs.grown hnew he
  | mkdir pno | rmdir pno | link _ pno | unlink pno | rename _ pno =>
      obtain ⟨e, he, rfl⟩ := map_eq_ok.mp h
      cases hentry

theorem sound_fsStep (hspares : Spares fs s r) : Sound fs mount (fsStep fs s r) where
  grown := by
    rw [fsStep_server]
    exact grown_perform hmount hs hproper hspares
  known entry h := by
    rcases mem_known_fsStep h with h | ⟨entries, t, hperform, h⟩
    · exact hs.known entry h
    · exact inside_perform hmount hs hproper hperform h

end Step

/-- From a mounted namespace without entries, every entry that was added and
not removed is reachable from the root in every state of a run in which no
operation removes an entry that has entries under it, and no entry is renamed
into itself. -/
theorem reachable_of_spares {oids : InitOids} (hoids : oids.Fresh)
    {server : Server} (hserver : Naming.Reachable Mac oids server)
    (hmount : Mounted fs.root.direntOid server.db)
    {run : List (FsEnv Mac × FsOp)}
    (hproper : Run.Along (fsStep fs) Proper (Mount.init fs server) run)
    (hspares : Run.Along (fsStep fs) (Spares fs) (Mount.init fs server) run) :
    Run.Along (fsStep fs) (fun s r => AllReachable fs.root.direntOid server.db
      (fsStep fs s r).server.db) (Mount.init fs server) run := by
  have hinit := sound_init (hserver.wellFormed hoids) hmount
  have hstep : ∀ (s : Mount) (r : FsEnv Mac × FsOp), Sound fs server.db s →
      Proper s r ∧ Spares fs s r → Sound fs server.db (fsStep fs s r) :=
    fun s r hs hr => sound_fsStep hmount hs hr.1 hr.2
  exact Run.along_of_invariant hstep
    (fun s r hs hr => (hstep s r hs hr).grown.reachable) hinit
    ((Run.along_and _ _ _ _ _).mpr ⟨hproper, hspares⟩)

/-! ### A directory with an entry -/

/-- The server with a namespace that has no entries. -/
def mountedServer : Server :=
  step (Server.init countingOids)
    (countingEnv 0, .createNamespace fileName Obj.zero.cid)

/-- The namespace, with the number of its entry. -/
def mountedFs : FileSystem Unit where
  root :=
    { name := fileName
      direntOid := oidOf 10
      inodeOid := oidOf 11
      parentOid := Oid.zero
      linkCnt := 1
      entryObj := ⟨Service.zero, nsObj, Obj.zero.cid, oidOf 11, 0⟩
      fileObj := none }
  cap := readWriteCap

/-- Every service grants what it is asked for. -/
def grantingEnv (n : ℕ) : FsEnv Unit where
  checkCapCache _ _ := .ok readWriteCap
  checkCidCache := .ok Obj.zero.cid
  ssoCreateObjs _ _ := .ok Obj.zero
  removeObjs _ _ _ := .ok ()
  naming _ := countingEnv n

def dirNode : Pnode := ⟨mountedFs.root, ['d']⟩

/-- The directory as a lookup returns it. -/
def dirNsEntry : NsEntry where
  name := ['d']
  direntOid := oidOf 12
  inodeOid := oidOf 13
  parentOid := oidOf 10
  linkCnt := 1
  entryObj := ⟨Service.zero, dirEntry, Obj.zero.cid, oidOf 13, 0⟩
  fileObj := none

/-- A directory is made and removed. -/
def emptyDirRun : List (FsEnv Unit × FsOp) :=
  [(grantingEnv 1, .mkdir dirNode), (grantingEnv 2, .rmdir dirNode)]

/-- A directory is made, and a file in it. -/
def filledDirRun : List (FsEnv Unit × FsOp) :=
  [(grantingEnv 1, .mkdir dirNode), (grantingEnv 2, .lookup [['d']]),
    (grantingEnv 3, .createFile ⟨dirNsEntry, fileName⟩)]

theorem proper_grantingEnv {s : Mount} {n : ℕ} {op : FsOp}
    (hknown : ∀ pno ∈ op.pnodes, pno.parent ∈ s.known)
    (hnew : NewIds (countingEnv n) s.server.db) : Proper s (grantingEnv n, op) :=
  ⟨hknown, fun _ => hnew⟩

theorem childless_of_entries {db : NamingDb} {x : Oid}
    (h : ∀ e ∈ db.dirents.entries, e.2.parentOid ≠ x) (c : Oid) :
    ¬ ParentOf db x c := by
  rintro ⟨k, d, hd, -, hp⟩
  exact Table.forall_lookup_iff (P := fun d => d.parentOid ≠ x).mpr h k d hd hp

theorem mountedServer_reachable :
    Naming.Reachable Unit countingOids mountedServer :=
  ⟨[(countingEnv 0, .createNamespace fileName Obj.zero.cid)],
    ⟨by decide +kernel, trivial⟩, rfl⟩

theorem mounted_mountedServer :
    Mounted mountedFs.root.direntOid mountedServer.db where
  stored := by
    have hfind : (mountedServer.db.dirents.find Dirent.oid (oidOf 10)).isSome :=
      by decide +kernel
    obtain ⟨place, hplace⟩ := Option.isSome_iff_exists.mp hfind
    exact ⟨place.1, place.2, Table.lookup_of_find hplace⟩
  empty := Table.forall_lookup_iff.mpr (by decide +kernel)

/-- The run that removes a directory without entries. -/
theorem reachable_emptyDirRun :
    Run.Along (fsStep mountedFs) (fun s r =>
        AllReachable mountedFs.root.direntOid mountedServer.db
          (fsStep mountedFs s r).server.db)
      (Mount.init mountedFs mountedServer) emptyDirRun := by
  refine reachable_of_spares countingOids_fresh mountedServer_reachable
    mounted_mountedServer ⟨?_, ?_, trivial⟩ ⟨?_, ?_, trivial⟩
  · exact proper_grantingEnv (by decide +kernel) (by decide +kernel)
  · exact proper_grantingEnv (by decide +kernel) (by decide +kernel)
  · exact fun _ e he => absurd he id
  · rintro - e ⟨-, cap, -, -, hget⟩
    refine ⟨childless_of_entries ?_, nofun⟩
    have hentries : ∀ e' ∈ ((fsStep mountedFs (Mount.init mountedFs
        mountedServer) (grantingEnv 1, .mkdir dirNode)).server.db).dirents.entries,
        e'.2.parentOid ≠ oidOf 12 := by decide +kernel
    have hoid : (namingDbGetByName dirNode.parent.direntOid dirNode.name
        (fsStep mountedFs (Mount.init mountedFs mountedServer)
          (grantingEnv 1, .mkdir dirNode)).server.db).map
        (fun e => e.dirent.oid) = .ok (oidOf 12) := by decide +kernel
    have hget' : namingDbGetByName dirNode.parent.direntOid dirNode.name
        (fsStep mountedFs (Mount.init mountedFs mountedServer)
          (grantingEnv 1, .mkdir dirNode)).server.db = .ok e := hget
    rw [hget'] at hoid
    rw [show e.dirent.oid = oidOf 12 from Except.ok.inj hoid]
    exact hentries

/-- An entry whose parent is gone is not reached. -/
theorem not_allReachable {root : Oid} {mount db : NamingDb} {x p : Oid}
    (hx : x ∈ added mount db) (hxroot : x ≠ root) (hproot : p ≠ root)
    (honly : ∀ e ∈ db.dirents.entries, e.2.oid = x → e.2.parentOid = p)
    (hnone : ∀ e ∈ db.dirents.entries, e.2.oid ≠ p) :
    ¬ AllReachable root mount db := by
  intro h
  obtain ⟨a, ha, k, d, hd, hoid, rfl⟩ := Forest.exists_parent (h x hx) hxroot
  have hparent : d.parentOid = p :=
    Table.forall_lookup_iff (P := fun d => d.oid = x → d.parentOid = p).mpr
      honly k d hd hoid
  rw [hparent] at ha
  obtain ⟨b, -, k', d', hd', hoid', -⟩ := Forest.exists_parent ha hproot
  exact Table.forall_lookup_iff (P := fun d => d.oid ≠ p).mpr hnone k' d' hd' hoid'

/-- What is left of the file when its directory is removed or renamed. -/
theorem not_allReachable_filledDir {op : FsOp}
    (hfile : ((Run.exec (fsStep mountedFs) (Mount.init mountedFs mountedServer)
      (filledDirRun ++ [(grantingEnv 4, op)])).server.db.dirents.find Dirent.oid
        (oidOf 16)).isSome ∧
      ∀ e ∈ (Run.exec (fsStep mountedFs) (Mount.init mountedFs mountedServer)
        (filledDirRun ++ [(grantingEnv 4, op)])).server.db.dirents.entries,
        (e.2.oid = oidOf 16 → e.2.parentOid = oidOf 12) ∧ e.2.oid ≠ oidOf 12) :
    ¬ AllReachable mountedFs.root.direntOid mountedServer.db
      (Run.exec (fsStep mountedFs) (Mount.init mountedFs mountedServer)
        (filledDirRun ++ [(grantingEnv 4, op)])).server.db := by
  obtain ⟨hfind, hentries⟩ := hfile
  obtain ⟨place, hplace⟩ := Option.isSome_iff_exists.mp hfind
  obtain ⟨hlookup, hoid⟩ := Table.lookup_of_find hplace
  have hmount : ∀ e ∈ mountedServer.db.dirents.entries, e.2.oid ≠ oidOf 16 := by
    decide +kernel
  have hne : mountedServer.db.dirents.lookup place.1 ≠ some place.2 :=
    fun h => Table.forall_lookup_iff (P := fun d => d.oid ≠ oidOf 16).mpr hmount
      place.1 place.2 h hoid
  exact not_allReachable ⟨place.1, place.2, hlookup, hoid, hne⟩
    (by decide +kernel) (by decide +kernel) (fun e he => (hentries e he).1)
    fun e he => (hentries e he).2

/-- A directory with a file in it is removed, or it is renamed, and the file is
not reachable any more. -/
theorem filled_dir_orphans :
    Naming.Reachable Unit countingOids mountedServer ∧
      Mounted mountedFs.root.direntOid mountedServer.db ∧
      ∀ op ∈ [FsOp.rmdir dirNode, .rename dirNode ⟨mountedFs.root, ['e']⟩],
        Run.Along (fsStep mountedFs) Proper (Mount.init mountedFs mountedServer)
            (filledDirRun ++ [(grantingEnv 4, op)]) ∧
          ¬ AllReachable mountedFs.root.direntOid mountedServer.db
            (Run.exec (fsStep mountedFs) (Mount.init mountedFs mountedServer)
              (filledDirRun ++ [(grantingEnv 4, op)])).server.db := by
  refine ⟨mountedServer_reachable, mounted_mountedServer, ?_⟩
  simp only [List.forall_mem_cons, List.not_mem_nil, false_imp_iff, implies_true,
    and_true]
  refine ⟨⟨⟨?_, ?_, ?_, ?_, trivial⟩, not_allReachable_filledDir ?_⟩,
    ⟨⟨?_, ?_, ?_, ?_, trivial⟩, not_allReachable_filledDir ?_⟩⟩
  case refine_5 => decide +kernel
  case refine_10 => decide +kernel
  all_goals exact proper_grantingEnv (by decide +kernel) (by decide +kernel)

end Lwfs.FsLwfs
