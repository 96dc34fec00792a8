import Mathlib.Logic.Relation
import Lwfs.Storage.Attributes
import Lwfs.Storage.Restart

/-!
The storage server over many sessions.

A session begins when the server starts on the root directory and the database,
and it ends when the server stops, at any time and for any reason. In between
the server takes requests, and the host and the database can make calls fail.
-/

namespace Lwfs.Storage

open SysLib Routine

/-! ### New files -/

/-- No two names lead to one inode, and no inode is in use that is to be given
to a file. -/
structure Numbered (fs : Files) : Prop where
  inj : ∀ path path' i, fs.names.lookup path = some i →
    fs.names.lookup path' = some i → path = path'
  lt : ∀ path i, fs.names.lookup path = some i → i < fs.nextInode

/-- New files are those of objects, and they get new inodes. -/
structure Grows (root : Path) (s t : Store) : Prop where
  numbered : Numbered s.files → Numbered t.files
  names : ∀ path ∈ t.files.names, path ∈ s.files.names ∨
    ∃ oid, path = fileName shortPath root oid

instance (root : Path) : Std.Refl (Grows root) :=
  ⟨fun _ => ⟨id, fun _ => .inl⟩⟩

instance (root : Path) : IsTrans Store (Grows root) where
  trans s t u hst htu := by
    refine ⟨htu.numbered ∘ hst.numbered, fun path hpath => ?_⟩
    rcases htu.names path hpath with ht | hnew
    · exact hst.names path ht
    · exact .inr hnew

section Grows

variable {Mac : Type} {env : Env Mac} {root : Path}

theorem Numbered.of_sublookup {fs fs' : Files} (h : Numbered fs)
    (hnext : fs'.nextInode = fs.nextInode)
    (hnames : ∀ path i, fs'.names.lookup path = some i →
      fs.names.lookup path = some i) : Numbered fs' where
  inj path path' i hi hi' := h.inj path path' i (hnames _ _ hi) (hnames _ _ hi')
  lt path i hi := by
    rw [hnext]
    exact h.lt path i (hnames path i hi)

theorem grows_of_files {s t : Store} (h : t.files = s.files) : Grows root s t := by
  refine ⟨?_, ?_⟩ <;> rw [h]
  · exact id
  · exact fun _ => .inl

/-- A call of the host that makes no file. -/
theorem sys_grows {α : Type} {call : Outcome → Files → α × Files}
    (h : ∀ o fs, (call o fs).2.nextInode = fs.nextInode ∧
      ∀ path i, (call o fs).2.names.lookup path = some i →
        fs.names.lookup path = some i) :
    Within (Grows root) (sys env call) := by
  intro s
  obtain ⟨hnext, hnames⟩ := h (env.outcome s.calls) s.files
  refine ⟨fun hs => hs.of_sublookup hnext hnames, fun path hpath => .inl ?_⟩
  obtain ⟨i, hi⟩ := Table.mem_iff_lookup.mp hpath
  exact Table.mem_of_lookup (hnames path i hi)

/-- The inode of a new file is one that no name leads to. -/
theorem Numbered.insert {fs : Files} (h : Numbered fs) (path : Path)
    (contents : ℕ → List UInt8) (fds : Table ℤ OpenFile) :
    Numbered ⟨fs.names.insert path fs.nextInode, contents, fs.nextInode + 1,
      fds⟩ := by
  have hlookup : ∀ p i, (fs.names.insert path fs.nextInode).lookup p = some i →
      p = path ∧ i = fs.nextInode ∨ fs.names.lookup p = some i := by
    intro p i hi
    rcases eq_or_ne p path with rfl | hne
    · rw [AList.lookup_insert, Option.some.injEq] at hi
      exact .inl ⟨rfl, hi.symm⟩
    · exact .inr ((AList.lookup_insert_ne hne).symm.trans hi)
  refine ⟨fun p p' i hi hi' => ?_, fun p i hi => ?_⟩
  · rcases hlookup p i hi with ⟨rfl, rfl⟩ | hold <;>
      rcases hlookup p' _ hi' with ⟨rfl, hnew⟩ | hold'
    · rfl
    · exact absurd (h.lt _ _ hold') (Nat.lt_irrefl _)
    · exact absurd (hnew ▸ h.lt _ _ hold) (Nat.lt_irrefl _)
    · exact h.inj p p' i hold hold'
  · show i < fs.nextInode + 1
    rcases hlookup p i hi with ⟨-, rfl⟩ | hold
    · omega
    · have hlt := h.lt p i hold
      omega

theorem sysCreat_grows (oid : Oid) : Within (Grows root) (sys env fun o fs =>
    fs.sysCreat env.toFdRule o (fileName shortPath root oid)) := by
  intro s
  simp only [sys, final, Files.sysCreat]
  split
  · exact grows_of_files rfl
  · cases hlookup : s.files.names.lookup (fileName shortPath root oid) with
    | some inode => exact ⟨fun hs => ⟨hs.inj, hs.lt⟩, fun _ => .inl⟩
    | none =>
        refine ⟨fun hs => hs.insert _ _ _, fun path hpath => ?_⟩
        rcases (AList.mem_insert _).mp hpath with rfl | hpath
        · exact .inr ⟨oid, rfl⟩
        · exact .inl hpath

theorem passes_grows (env : Env Mac) (root : Path) :
    Passes env root (Grows root) where
  memory _ _ hfiles _ _ := grows_of_files hfiles
  table _ _ hfiles _ := grows_of_files hfiles
  sysOpen path := by
    apply sys_grows
    intro o fs
    simp only [Files.sysOpen]
    split
    · exact ⟨rfl, fun _ _ => id⟩
    · split <;> exact ⟨rfl, fun _ _ => id⟩
  sysClose fd := by
    apply sys_grows
    intro o fs
    simp only [Files.sysClose]
    split <;> exact ⟨rfl, fun _ _ => id⟩
  sysLseek fd pos := by
    apply sys_grows
    intro o fs
    simp only [Files.sysLseek]
    split
    · exact ⟨rfl, fun _ _ => id⟩
    · split <;> exact ⟨rfl, fun _ _ => id⟩
  sysRead fd len := by
    apply sys_grows
    intro o fs
    simp only [Files.sysRead]
    split
    · exact ⟨rfl, fun _ _ => id⟩
    · split <;> exact ⟨rfl, fun _ _ => id⟩
  sysFstat fd := by
    apply sys_grows
    intro o fs
    simp only [Files.sysFstat]
    split
    · exact ⟨rfl, fun _ _ => id⟩
    · split <;> exact ⟨rfl, fun _ _ => id⟩
  sysAccess path := sys_grows fun _ _ => ⟨rfl, fun _ _ => id⟩
  sysCreat := sysCreat_grows
  -- the only call that takes a file away
  sysRemove path := by
    apply sys_grows
    intro o fs
    simp only [Files.sysRemove]
    split
    · refine ⟨rfl, fun path' i hi => ?_⟩
      rcases eq_or_ne path' path with rfl | hne
      · rw [AList.lookup_erase] at hi
        cases hi
      · rwa [AList.lookup_erase_ne hne] at hi
    · exact ⟨rfl, fun _ _ => id⟩
  sysWrite fd src := by
    apply sys_grows
    intro o fs
    simp only [Files.sysWrite]
    split
    · exact ⟨rfl, fun _ _ => id⟩
    · split <;> exact ⟨rfl, fun _ _ => id⟩
  sysFsync fd := sys_grows fun _ _ => ⟨rfl, fun _ _ => id⟩
  sysFtruncate fd size := by
    apply sys_grows
    intro o fs
    simp only [Files.sysFtruncate]
    split
    · exact ⟨rfl, fun _ _ => id⟩
    · split <;> exact ⟨rfl, fun _ _ => id⟩

/-- Every request makes no other files than those of objects. -/
theorem handle_grows (req : Request Mac) :
    Within (Grows root) (handle env root req) := by
  have hpasses := passes_grows env root
  have hdb : ∀ (s : Store) (attrs : Table Db1Key AttrEntry) (calls : ℕ),
      Grows root s { s with attrs := attrs, calls := calls } :=
    fun _ _ _ => grows_of_files rfl
  rw [handle_eq]
  refine within_bind (fun s => grows_of_files (by rw [final_checks])) fun _ => ?_
  cases req with
  | createObj obj cap =>
      exact within_map (within_bind (hpasses.sysioObjCreate obj.oid) fun _ =>
        within_mapOutcome (setattr_within hdb obj.oid _ _) _) _
  | removeObj obj cap =>
      exact within_map (within_bind (hpasses.removeObjByOid obj.oid) fun _ =>
        rmAllAttrs_within hdb obj.oid) _
  | read obj off len cap => exact hpasses.readOp obj off len
  | write obj off data cap => exact within_map (hpasses.writeOp obj off data) _
  | fsync obj cap => exact within_map (hpasses.sysioObjFsync obj.oid) _
  | listattrs obj cap =>
      exact within_map (within_mapOutcome
        (hpasses.sysioObjListattrs obj.oid) _) _
  | getattrs obj names cap =>
      exact within_map (within_mapOutcome
        (within_mapM (hpasses.sysioObjGetattr obj.oid) names) _) _
  | getattr obj name cap =>
      exact within_map (within_mapOutcome
        (hpasses.sysioObjGetattr obj.oid name) _) _
  | setattr obj attr cap =>
      exact within_map (within_mapOutcome (setattr_within hdb obj.oid _ _) _) _
  | setattrs obj attrs cap =>
      exact within_map (within_mapOutcome (within_forM
        (fun _ => setattr_within hdb obj.oid _ _) attrs) _) _
  | rmattrs obj names cap =>
      exact within_map (within_mapOutcome
        (within_forM (rmattr_within hdb obj.oid) names) _) _
  | rmattr obj name cap =>
      exact within_map (within_mapOutcome (rmattr_within hdb obj.oid name) _) _
  | stat obj cap =>
      exact within_map (within_mapOutcome (hpasses.sysioObjStat obj.oid) _) _
  | truncate obj size cap =>
      exact within_map (hpasses.truncateOp obj size) _

end Grows

/-! ### The table -/

/-- The table has no object twice, and every object in it has its file. -/
structure Tabled (root : Path) (s : Store) : Prop where
  keys : (s.oidHash.map Prod.fst).Nodup
  named : ∀ e ∈ s.oidHash, fileName shortPath root e.1 ∈ s.files.names

section Tabled

variable {Mac : Type} {env : Env Mac} {root : Path} {s t : Store}

theorem Tabled.of_eq (h : Tabled root s) (hhash : t.oidHash = s.oidHash)
    (hnames : t.files.names = s.files.names) : Tabled root t :=
  ⟨by rw [hhash]; exact h.keys, by rw [hhash, hnames]; exact h.named⟩

/-- A new file comes, and perhaps a new object with it. -/
theorem tabled_create (h : Tabled root s) (oid : Oid)
    (hfind : fileName shortPath root oid ∈ s.files.names →
      env.outcome s.calls ≠ .fail) :
    Tabled root ((sysioObjCreate env root oid).final s) := by
  let path := fileName shortPath root oid
  let u := s.creat env path
  obtain ⟨hmem, hkeep⟩ := creat_names env s path
  have hstay : ∀ p ∈ s.files.names, p ∈ u.files.names := by
    intro p hp
    rcases eq_or_ne p path with rfl | hne
    · exact hmem
    · rw [← AList.lookup_isSome, hkeep p hne, AList.lookup_isSome]
      exact hp
  rcases create_cases env root oid s with
    ⟨-, hsame | ⟨-, hleaked⟩⟩ | ⟨⟨habsent, -⟩, hrun⟩
  · exact h.of_eq hsame.oidHash hsame.names
  · rw [hleaked]
    exact ⟨h.keys, fun e he => hstay _ (h.named e he)⟩
  · have hnew : oid ∉ s.oidHash.map Prod.fst := by
      intro hoid
      obtain ⟨e, he, rfl⟩ := List.mem_map.mp hoid
      have hpath := h.named e he
      exact habsent.elim (hfind hpath) (absurd hpath)
    have htrack : Tabled root ((s.created env path).track oid) := by
      refine ⟨List.nodup_cons.mpr ⟨hnew, h.keys⟩, fun e he => ?_⟩
      rcases List.mem_cons.mp he with rfl | he
      · exact hmem
      · exact hstay _ (h.named e he)
    have huntouched := (passive_untouched env).addToOpenFiles s.nextEl
      ((s.created env path).track oid)
    rw [final, hrun]
    exact htrack.of_eq huntouched.data.oidHash huntouched.data.names

/-- However it ends, the object is forgotten, and its file has gone or not. -/
theorem final_removeObjByOid (env : Env Mac) (root : Path) (oid : Oid)
    (s : Store) :
    let t := (removeObjByOid env root oid).final s
    t.oidHash = s.oidHash.eraseP (fun e => e.1 = oid) ∧
      (t.files.names = s.files.names ∨
        t.files.names = s.files.names.erase (fileName shortPath root oid)) ∧
      t.files.contents = s.files.contents ∧ t.attrs = s.attrs := by
  intro t
  obtain ⟨hhash, hnames, hcontents, hattrs⟩ := final_removeOid env oid s
  cases hrun : removeOid env oid s with
  | error e u =>
      rw [final_of_error hrun] at hhash hnames hcontents hattrs
      have ht : t = u := final_of_error (bind_of_error hrun)
      rw [ht]
      exact ⟨hhash, .inl hnames, hcontents, hattrs⟩
  | ok found u =>
      rw [final_of_ok hrun] at hhash hnames hcontents hattrs
      have ht : t = (if found = false then (return () : StoreRoutine Unit)
          else do
            let gone ← sys env fun o fs =>
              fs.sysRemove o (fileName shortPath root oid)
            if gone then return () else throw (.code .errStorage)).final u := by
        simp only [t, removeObjByOid, final, bind_of_ok hrun]
      cases found with
      | false =>
          rw [ht]
          exact ⟨hhash, .inl hnames, hcontents, hattrs⟩
      | true =>
          have hthrow : t = (sys env fun o fs =>
              fs.sysRemove o (fileName shortPath root oid)).final u := by
            rw [ht, if_neg (by decide)]
            simp only [final, bind, EStateM.bind, sys]
            split_ifs <;> rfl
          rw [hthrow]
          simp only [sys, final, Files.sysRemove]
          split_ifs with hgone
          · exact ⟨hhash, .inr (by rw [← hnames]), hcontents, hattrs⟩
          · exact ⟨hhash, .inl hnames, hcontents, hattrs⟩

theorem tabled_remove (hroot : Untruncated root) (h : Tabled root s) (oid : Oid) :
    Tabled root ((sysioObjRemove env root oid).final s) := by
  have hsame : SameData ((removeObjByOid env root oid).final s)
      ((sysioObjRemove env root oid).final s) :=
    within_final_bind (fun _ => rmAllAttrs_sameData oid) s
  refine Tabled.of_eq ?_ hsame.oidHash hsame.names
  obtain ⟨hhash, hnames, -, -⟩ := final_removeObjByOid env root oid s
  have hgone : ∀ e ∈ s.oidHash.eraseP (fun e => e.1 = oid), e.1 ≠ oid :=
    notMem_eraseP h.keys
  rw [← hhash] at hgone
  refine ⟨?_, fun e he => ?_⟩
  · rw [hhash]
    exact h.keys.sublist (List.eraseP_sublist.map _)
  · have hpath : fileName shortPath root e.1 ∈ s.files.names := by
      rw [hhash] at he
      exact h.named e (List.mem_of_mem_eraseP he)
    rcases hnames with hnames | hnames
    · rwa [hnames]
    · rw [hnames, AList.mem_erase]
      exact ⟨fun heq => hgone e he (fileName_inj hroot heq), hpath⟩

/-- One request, however it ends. -/
theorem tabled_handle (hroot : Untruncated root) (h : Tabled root s)
    {req : Request Mac} (hreq : Request.Truthful root ⟨s, true⟩ (env, req)) :
    Tabled root ((handle env root req).final s) := by
  by_cases hadmitted : Admitted env req s
  · have hfinal : (handle env root req).final s =
        (operation env root req).final s := by
      have hrun : handle env root req s = operation env root req s :=
        handle_of_admitted hadmitted
      simp only [final, hrun]
    have hsame : SameOpen
        (((req.objOp env).elim (pure ()) fun op => op.run env root).final s)
        ((operation env root req).final s) := sameOpen_operation req s
    rw [hfinal]
    refine Tabled.of_eq ?_ hsame.oidHash hsame.names
    cases hop : req.objOp env with
    | none => exact h
    | some op =>
        show Tabled root ((op.run env root).final s)
        cases hopens : op.opens with
        | some om =>
            have hopening := opening_untouched env root om.1 om.2 s
            have hrun : SameOpen ((opening env root om.1 om.2).final s)
                ((op.run env root).final s) := sameOpen_run hopens s
            exact h.of_eq (hrun.oidHash.trans hopening.data.oidHash)
              (hrun.names.trans hopening.data.names)
        | none =>
            cases op <;> simp only [ObjOp.opens, reduceCtorEq] at hopens
            case create oid =>
              obtain ⟨obj, cap, rfl, rfl⟩ := objOp_eq_create hop
              exact tabled_create h obj.oid (hreq obj cap rfl)
            case remove oid => exact tabled_remove hroot h oid
  · obtain ⟨e, herror⟩ := handle_of_not_admitted root hadmitted
    rw [final_of_error herror]
    exact h

end Tabled

/-! ### Sessions -/

/-- What holds in every session. -/
structure Tidy (root : Path) (s : Store) : Prop where
  tabled : Tabled root s
  only : OnlyObjects root s.files
  numbered : Numbered s.files
  attrs : WellKept s

section Tidy

variable {Mac : Type} {env : Env Mac} {root : Path} {s t : Store}

theorem tidy_empty (root : Path) : Tidy root Store.empty where
  tabled := ⟨List.nodup_nil, fun _ he => absurd he List.not_mem_nil⟩
  only _ hd := absurd hd (AList.notMem_empty _)
  numbered := ⟨fun _ _ _ hi => absurd (Table.mem_of_lookup hi) (AList.notMem_empty _),
    fun _ _ hi => absurd (Table.mem_of_lookup hi) (AList.notMem_empty _)⟩
  attrs _ _ he := absurd (Table.mem_of_lookup he) (AList.notMem_empty _)

/-- Besides the table and the attributes, the new files matter. -/
theorem Tidy.of_grows (hroot : Untruncated root) (h : Tidy root s)
    (hgrows : Grows root s t) (htabled : Tabled root t) (hattrs : WellKept t) :
    Tidy root t where
  tabled := htabled
  only dName hd := by
    rcases hgrows.names _ hd with hold | ⟨oid, heq⟩
    · exact h.only dName hold
    · rw [fileName_eq_append hroot] at heq
      exact ⟨oid, List.append_cancel_left heq⟩
  numbered := hgrows.numbered h.numbered
  attrs := hattrs

theorem Tidy.handle (hroot : Untruncated root) (h : Tidy root s)
    {req : Request Mac} (hreq : Request.Truthful root ⟨s, true⟩ (env, req))
    (hsendable : req.Sendable) :
    Tidy root ((handle env root req).final s) :=
  h.of_grows hroot (handle_grows req s) (tabled_handle hroot h.tabled hreq)
    (handle_confined hsendable s h.attrs).1

/-- A session begins with what the one before has left. -/
theorem Tidy.start (hroot : Untruncated root) (h : Tidy root s) {dNames : List Path}
    (hlist : Listing root s.files dNames)
    (hrun : sysioObjInit env root dNames s.stopped = .ok () t) : Tidy root t := by
  obtain ⟨hfiles, hattrs, hkeys, hiff⟩ := sysioObjInit_ok h.only hlist hrun
  refine ⟨⟨hkeys, fun e he => ?_⟩, ?_, ?_, wellKept_of_attrs h.attrs hattrs⟩
  · have hfiled := (hiff e.1).mp (search_isSome.mpr ⟨e, he, rfl⟩)
    rw [hfiles, fileName_eq_append hroot]
    exact hfiled
  · rw [hfiles]
    exact h.only
  · rw [hfiles]
    exact h.numbered.of_sublookup rfl fun _ _ => id

/-- One step of the server: it takes a request, or it stops and another one
starts. -/
inductive Session (Mac : Type) (root : Path) : Server → Server → Prop
  | request {s : Server} (env : Env Mac) (req : Request Mac) : s.up = true →
      Request.Truthful root s (env, req) → req.Sendable →
        Session Mac root s (step root s (env, req))
  | start {s : Server} {t : Store} (env : Env Mac) (dNames : List Path) :
      Listing root s.store.files dNames →
      sysioObjInit env root dNames s.store.stopped = .ok () t →
        Session Mac root s ⟨t, true⟩

/-- The states that sessions lead to since the server was installed, with an
empty root directory and a new database. -/
def Reached (Mac : Type) (root : Path) (s : Server) : Prop :=
  Relation.ReflTransGen (Session Mac root) ⟨Store.empty, false⟩ s

theorem Tidy.session (hroot : Untruncated root) {s t : Server}
    (h : Tidy root s.store) (hst : Session Mac root s t) : Tidy root t.store := by
  cases hst with
  | request env req hup htruthful hsendable =>
      rw [step, if_pos hup]
      exact h.handle hroot htruthful hsendable
  | start env dNames hlist hrun => exact h.start hroot hlist hrun

theorem Reached.tidy (hroot : Untruncated root) {s : Server}
    (hs : Reached Mac root s) : Tidy root s.store := by
  induction hs with
  | refl => exact tidy_empty root
  | tail _ hst ih => exact ih.session hroot hst

end Tidy

end Lwfs.Storage
