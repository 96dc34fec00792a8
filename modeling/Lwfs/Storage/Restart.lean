import Mathlib.Data.Set.Insert
import Lwfs.Storage.Descriptors
import Lwfs.Storage.ReadOnly

/-!
The start of the server on a root directory that another run has left.

The table of objects is not kept on disk. `sysio_obj_init` rebuilds it from the
names in the root directory, and it reads the id of an object out of the name
of its file.
-/

namespace Lwfs.Storage

open SysLib Routine

/-! ### Reading an id -/

/-- The words that `sscanf` reads, up to the first it cannot read. -/
def scanWords : ℕ → List Char → List ℤ
  | 0, _ => []
  | k + 1, cs =>
      match scanHex 8 cs with
      | none => []
      | some (n, rest) => n :: scanWords k rest

/-- The bytes of a word of 32 bits. -/
def wordBytes (n : ℤ) : List UInt8 := Bytes.ofNat 4 (n % 4294967296).toNat

theorem length_scanWords (k : ℕ) (cs : List Char) :
    (scanWords k cs).length ≤ k := by
  induction k generalizing cs with
  | zero => exact Nat.le_refl 0
  | succ k ih =>
      unfold scanWords
      cases scanHex 8 cs with
      | none => exact Nat.zero_le _
      | some r => exact Nat.succ_le_succ (ih r.2)

theorem length_flatMap_wordBytes (words : List ℤ) :
    (words.flatMap wordBytes).length = 4 * words.length := by
  induction words with
  | nil => rfl
  | cons n words ih =>
      simp only [List.flatMap_cons, List.length_append, wordBytes,
        Bytes.length_ofNat, List.length_cons] at ih ⊢
      omega

/-- `lwfs_string_to_oid`, which writes over `oid`. -/
def lwfsStringToOid (ostr : List Char) (oid : Oid) : Oid where
  bytes :=
    let words := scanWords 4 ostr
    words.flatMap wordBytes ++ oid.bytes.drop (4 * words.length)
  length_eq := by
    have hlen := length_scanWords 4 ostr
    have hsize : oid.bytes.length = 16 := oid.length_eq
    simp only [List.length_append, length_flatMap_wordBytes, List.length_drop]
    show _ = 16
    omega

/-- Whatever stood there, the id that was printed is read back. -/
theorem lwfsStringToOid_lwfsOidToString (oid oid' : Oid) :
    lwfsStringToOid (lwfsOidToString oid) oid' = oid := by
  have hsize : oid.bytes.length = 16 := oid.length_eq
  have hsize' : oid'.bytes.length = 16 := oid'.length_eq
  let chunk : ℕ → List UInt8 := fun i => (oid.bytes.drop (4 * i)).take 4
  have hlen : ∀ i < 4, (chunk i).length = 4 := by
    intro i hi
    simp only [chunk, List.length_take, List.length_drop]
    omega
  have hlt : ∀ i < 4, Bytes.toNat (chunk i) < 16 ^ 8 := by
    intro i hi
    have hbound := Bytes.toNat_lt (chunk i)
    rwa [hlen i hi] at hbound
  have hscan : ∀ i < 4, ∀ cs, scanHex 8 (oidWord oid i ++ cs) =
      some ((Bytes.toNat (chunk i) : ℤ), cs) :=
    fun i hi cs => scanHex_formatHex (by decide) (hlt i hi) cs
  have hword : ∀ i < 4, wordBytes (Bytes.toNat (chunk i) : ℤ) = chunk i := by
    intro i hi
    have hmod : ((Bytes.toNat (chunk i) : ℤ) % 4294967296).toNat =
        Bytes.toNat (chunk i) := by
      have := hlt i hi
      omega
    have hbytes := Bytes.ofNat_toNat (chunk i)
    rw [hlen i hi] at hbytes
    rw [wordBytes, hmod, hbytes]
  have hend : lwfsOidToString oid = oidWord oid 0 ++ (oidWord oid 1 ++
      (oidWord oid 2 ++ (oidWord oid 3 ++ []))) := by
    simp [lwfsOidToString]
  have hwords : scanWords 4 (lwfsOidToString oid) =
      [(Bytes.toNat (chunk 0) : ℤ), Bytes.toNat (chunk 1),
        Bytes.toNat (chunk 2), Bytes.toNat (chunk 3)] := by
    rw [hend]
    simp only [scanWords, hscan 0 (by decide), hscan 1 (by decide),
      hscan 2 (by decide), hscan 3 (by decide)]
  apply Octets.ext
  simp only [lwfsStringToOid, hwords, List.flatMap_cons, List.flatMap_nil,
    hword 0 (by decide), hword 1 (by decide), hword 2 (by decide),
    hword 3 (by decide)]
  have hdrop : oid'.bytes.drop (4 * 4) = [] := List.drop_eq_nil_of_le (by omega)
  have hnext : ∀ i, chunk i ++ oid.bytes.drop (4 * (i + 1)) =
      oid.bytes.drop (4 * i) := by
    intro i
    have hsplit := List.take_append_drop 4 (oid.bytes.drop (4 * i))
    rwa [List.drop_drop] at hsplit
  have hlast : oid.bytes.drop (4 * 4) = [] := List.drop_eq_nil_of_le (by omega)
  calc chunk 0 ++ (chunk 1 ++ (chunk 2 ++ (chunk 3 ++ []))) ++
        oid'.bytes.drop (4 * 4)
      = chunk 0 ++ (chunk 1 ++ (chunk 2 ++ (chunk 3 ++
        oid.bytes.drop (4 * 4)))) := by rw [hdrop, hlast, List.append_nil]
    _ = oid.bytes := by rw [hnext 3, hnext 2, hnext 1, hnext 0]; rfl

/-! ### What a creation and a removal do that succeed -/

section Success

variable {Mac : Type} {env : Env Mac} {root : Path} {oid : Oid} {s t : Store}

theorem search_isSome {oidHash : List (Oid × ℕ)} :
    (oidHashSearch oidHash oid).isSome ↔ ∃ e ∈ oidHash, e.1 = oid := by
  simp [oidHashSearch]

theorem create_ok {u : Unit} (h : sysioObjCreate env root oid s = .ok u t) :
    let v := s.creat env (fileName shortPath root oid)
    Creates env root oid s ∧ t.files.names = v.files.names ∧
      t.files.contents = v.files.contents ∧
      t.oidHash = (oid, s.nextEl) :: s.oidHash ∧ t.attrs = s.attrs := by
  intro v
  have hcreates : Creates env root oid s := by
    by_contra hnot
    obtain ⟨rc, w, herror⟩ := create_of_not_creates hnot
    rw [herror] at h
    cases h
  rw [create_of_creates hcreates] at h
  have huntouched := within_of_ok ((passive_untouched env).addToOpenFiles s.nextEl) h
  exact ⟨hcreates, huntouched.data.names, huntouched.data.contents,
    huntouched.data.oidHash, huntouched.attrs⟩

theorem eraseP_of_search_none {oidHash : List (Oid × ℕ)}
    (h : oidHashSearch oidHash oid = none) :
    oidHash.eraseP (fun e => e.1 = oid) = oidHash := by
  refine List.eraseP_of_forall_not fun e he heq => ?_
  have hsome := search_isSome.mpr ⟨e, he, of_decide_eq_true heq⟩
  rw [h] at hsome
  cases hsome

/-- However it ends, the object is forgotten and the files stay. -/
theorem final_removeOid (env : Env Mac) (oid : Oid) (s : Store) :
    let t := (removeOid env oid).final s
    t.oidHash = s.oidHash.eraseP (fun e => e.1 = oid) ∧
      t.files.names = s.files.names ∧ t.files.contents = s.files.contents ∧
      t.attrs = s.attrs := by
  intro t
  have hfind : findOid oid s = .ok (oidHashSearch s.oidHash oid) s := rfl
  cases ha : oidHashSearch s.oidHash oid with
  | none =>
      have hrun : removeOid env oid s = .ok false s := by
        rw [removeOid, bind_of_ok hfind, ha]
        rfl
      have ht : t = s := final_of_ok hrun
      rw [ht]
      exact ⟨(eraseP_of_search_none ha).symm, rfl, rfl, rfl⟩
  | some a =>
      have hdrop : Within Untouched (dropOpen env a) :=
        within_bind (oidEl_within a) fun _ => within_ite
          (fun _ => (passive_untouched env).removeFromOpenFiles a) fun _ => within_pure _
      have htail : ∀ u : Store, (do
          modify fun s => { s with heap := s.heap.erase a }
          return true : StoreRoutine Bool) u = .ok true (u.free a) := fun _ => rfl
      have ht : t = ((dropOpen env a) >>= fun _ => do
          modify fun s => { s with heap := s.heap.erase a }
          return true).final (s.unhash oid) := by
        simp only [t, final, removeOid_of_found ha]
      have hdropped := hdrop (s.unhash oid)
      cases hrun : dropOpen env a (s.unhash oid) with
      | error e u =>
          rw [final_of_error hrun] at hdropped
          rw [ht, final_of_error (bind_of_error hrun)]
          exact ⟨hdropped.data.oidHash, hdropped.data.names,
            hdropped.data.contents, hdropped.attrs⟩
      | ok _ u =>
          rw [final_of_ok hrun] at hdropped
          rw [ht, final_of_ok ((bind_of_ok hrun).trans (htail u))]
          exact ⟨hdropped.data.oidHash, hdropped.data.names,
            hdropped.data.contents, hdropped.attrs⟩

theorem removeOid_found {found : Bool} (h : removeOid env oid s = .ok found t) :
    found = (oidHashSearch s.oidHash oid).isSome := by
  obtain ⟨el, s₁, hfind, h⟩ := bind_eq_ok.mp h
  cases hfind
  cases ha : oidHashSearch s.oidHash oid with
  | none =>
      rw [ha] at h
      cases h
      rfl
  | some a =>
      rw [ha] at h
      obtain ⟨_, s₂, -, h⟩ := bind_eq_ok.mp h
      obtain ⟨_, s₃, -, h⟩ := bind_eq_ok.mp h
      obtain ⟨_, s₄, -, h⟩ := bind_eq_ok.mp h
      cases h
      rfl

/-- The file of an object that is in the table is unlinked. An object that is
not is left alone, and the removal succeeds as well. -/
theorem removeObjByOid_ok {u : Unit}
    (h : removeObjByOid env root oid s = .ok u t) :
    let path := fileName shortPath root oid
    t.oidHash = s.oidHash.eraseP (fun e => e.1 = oid) ∧
      (if (oidHashSearch s.oidHash oid).isSome then path ∈ s.files.names ∧
        t.files.names = s.files.names.erase path
      else t.files.names = s.files.names) ∧
      t.files.contents = s.files.contents ∧ t.attrs = s.attrs := by
  intro path
  obtain ⟨found, v, hremove, h⟩ := bind_eq_ok.mp h
  obtain ⟨hhash, hnames, hcontents, hattrs⟩ := final_removeOid env oid s
  rw [final_of_ok hremove] at hhash hnames hcontents hattrs
  rw [← removeOid_found hremove]
  cases found with
  | false =>
      cases h
      exact ⟨hhash, by rwa [if_neg (by decide)], hcontents, hattrs⟩
  | true =>
      obtain ⟨gone, w, hsys, h⟩ := bind_eq_ok.mp h
      cases gone with
      | false => cases h
      | true =>
          cases h
          by_cases hgone : env.outcome v.calls ≠ .fail ∧ path ∈ v.files.names
          · simp only [sys, Files.sysRemove, path, if_pos hgone] at hsys
            cases hsys
            rw [if_pos rfl, ← hnames]
            exact ⟨hhash, ⟨hgone.2, rfl⟩, hcontents, hattrs⟩
          · simp only [sys, Files.sysRemove, path, if_neg hgone] at hsys
            cases hsys

instance : Std.Refl SameData := ⟨SameData.refl⟩

instance : IsTrans Store SameData := ⟨fun _ _ _ => SameData.trans⟩

theorem rmAllAttrs_sameData (oid : Oid) :
    Within SameData (rmAllAttrs env oid) :=
  rmAllAttrs_within (fun _ _ _ => ⟨rfl, rfl, rfl⟩) oid

end Success

/-! ### The set of objects -/

section Objects

variable {Mac : Type} {root : Path}

/-- The objects after an operation that has succeeded. -/
def ObjOp.objectsAfter (objs : Set Oid) : ObjOp → Set Oid
  | .create oid => insert oid objs
  | .remove oid => objs \ {oid}
  | _ => objs

/-- The operation succeeds if it makes or removes an object. -/
def ObjOp.Succeeds (env : Env Mac) (root : Path) (s : Store) : ObjOp → Prop
  | .create oid => (sysioObjCreate env root oid).outcome s = .ok ()
  | .remove oid => (sysioObjRemove env root oid).outcome s = .ok ()
  | _ => True

instance (env : Env Mac) (root : Path) (s : Store) :
    (op : ObjOp) → Decidable (op.Succeeds env root s)
  | .create oid => inferInstanceAs
      (Decidable ((sysioObjCreate env root oid).outcome s = .ok ()))
  | .remove oid => inferInstanceAs
      (Decidable ((sysioObjRemove env root oid).outcome s = .ok ()))
  | .getfd _ => isTrue trivial
  | .read _ _ _ => isTrue trivial
  | .write _ _ _ => isTrue trivial
  | .fsync _ => isTrue trivial
  | .stat _ => isTrue trivial
  | .trunc _ _ => isTrue trivial

/-- The root directory holds the files of objects only. -/
def OnlyObjects (root : Path) (fs : Files) : Prop :=
  ∀ dName, root ++ ['/'] ++ dName ∈ fs.names → ∃ oid, dName = objectName oid

/-- The objects whose files are in the root directory. -/
def filed (root : Path) (fs : Files) : Set Oid :=
  {oid | root ++ ['/'] ++ objectName oid ∈ fs.names}

theorem mem_filed {fs : Files} {oid : Oid} :
    oid ∈ filed root fs ↔ root ++ ['/'] ++ objectName oid ∈ fs.names := Iff.rfl

/-- The files are those of the objects, and the table has them all. -/
structure Reflects (root : Path) (objs : Set Oid) (s : Store) : Prop where
  filed : filed root s.files = objs
  only : OnlyObjects root s.files
  known : ∀ oid ∈ objs, (oidHashSearch s.oidHash oid).isSome

theorem fileName_eq_append (hroot : Untruncated root) (oid : Oid) :
    fileName shortPath root oid = root ++ ['/'] ++ objectName oid := by
  rw [fileName_eq hroot (Nat.le_refl _)]
  simp [objectName]

theorem objectName_inj {oid oid' : Oid} (h : objectName oid = objectName oid') :
    oid = oid' :=
  lwfsOidToString_inj (List.append_cancel_left h)

variable {objs : Set Oid} {s t : Store} {env : Env Mac}

theorem Reflects.of_eq (h : Reflects root objs s)
    (hnames : t.files.names = s.files.names) (hhash : t.oidHash = s.oidHash) :
    Reflects root objs t where
  filed := by
    rw [← h.filed]
    unfold Storage.filed
    rw [hnames]
  only := by
    unfold OnlyObjects
    rw [hnames]
    exact h.only
  known := by
    rw [hhash]
    exact h.known

theorem Reflects.create (hroot : Untruncated root)
    (h : Reflects root objs s) {oid : Oid} {u : Unit}
    (hrun : sysioObjCreate env root oid s = .ok u t) :
    Reflects root (insert oid objs) t := by
  obtain ⟨-, hnames, -, hhash, -⟩ := create_ok hrun
  obtain ⟨hmem, hkeep⟩ := creat_names env s (fileName shortPath root oid)
  rw [← hnames] at hmem hkeep
  rw [fileName_eq_append hroot] at hmem hkeep
  have hother : ∀ path, path ∈ t.files.names ↔
      path = root ++ ['/'] ++ objectName oid ∨ path ∈ s.files.names := by
    intro path
    rcases eq_or_ne path (root ++ ['/'] ++ objectName oid) with rfl | hne
    · exact iff_of_true hmem (.inl rfl)
    · rw [← AList.lookup_isSome, hkeep path hne, AList.lookup_isSome]
      exact (or_iff_right hne).symm
  refine ⟨?_, ?_, ?_⟩
  · ext o
    rw [mem_filed, hother, Set.mem_insert_iff, ← h.filed, mem_filed,
      List.append_cancel_left_eq]
    refine or_congr_left ⟨objectName_inj, ?_⟩
    rintro rfl
    rfl
  · intro dName hd
    rcases (hother _).mp hd with heq | hd
    · exact ⟨oid, List.append_cancel_left heq⟩
    · exact h.only dName hd
  · intro o ho
    rw [hhash, search_isSome]
    rcases Set.mem_insert_iff.mp ho with rfl | ho
    · exact ⟨_, List.mem_cons_self, rfl⟩
    · obtain ⟨e, he, heq⟩ := search_isSome.mp (h.known o ho)
      exact ⟨e, List.mem_cons_of_mem _ he, heq⟩

theorem Reflects.remove (hroot : Untruncated root)
    (h : Reflects root objs s) {oid : Oid} {u : Unit}
    (hrun : sysioObjRemove env root oid s = .ok u t) :
    Reflects root (objs \ {oid}) t := by
  obtain ⟨_, v, hobj, hattrs⟩ := bind_eq_ok.mp hrun
  have hsame := within_of_ok (rmAllAttrs_sameData oid) hattrs
  refine Reflects.of_eq ?_ hsame.names hsame.oidHash
  obtain ⟨hhash, hnames, -, -⟩ := removeObjByOid_ok hobj
  have hknown : ∀ o ∈ objs \ {oid}, (oidHashSearch v.oidHash o).isSome := by
    rintro o ⟨ho, hne⟩
    obtain ⟨e, he, rfl⟩ := search_isSome.mp (h.known o ho)
    rw [hhash, search_isSome]
    exact ⟨e, (List.mem_eraseP_of_neg (by simpa using hne)).mpr he, rfl⟩
  have hmem : ∀ path, path ∈ v.files.names ↔
      path ∈ s.files.names ∧ path ≠ root ++ ['/'] ++ objectName oid := by
    intro path
    split_ifs at hnames with hsome
    · rw [hnames.2, AList.mem_erase, fileName_eq_append hroot, and_comm]
    · -- the table has every object, so there was no file
      have hno : root ++ ['/'] ++ objectName oid ∉ s.files.names := by
        intro hmem
        have ho : oid ∈ objs := by
          rw [← h.filed]
          exact hmem
        exact hsome (h.known oid ho)
      rw [hnames]
      refine ⟨fun hp => ⟨hp, ?_⟩, And.left⟩
      rintro rfl
      exact hno hp
  refine ⟨?_, ?_, hknown⟩
  · ext o
    rw [mem_filed, hmem, Set.mem_sdiff, ← h.filed, mem_filed, Ne,
      List.append_cancel_left_eq]
    refine and_congr_right fun _ => not_congr ⟨objectName_inj, ?_⟩
    rintro rfl
    rfl
  · exact fun dName hd => h.only dName ((hmem _).mp hd).1

/-- Opening the file of an object changes neither the names nor the table. -/
theorem opening_untouched (env : Env Mac) (root : Path) (oid : Oid) (m : Option (Mode → Bool)) :
    Within Untouched (opening env root oid m) := by
  cases m with
  | none => exact within_map ((passive_untouched env).openOid oid) _
  | some canUse =>
      refine within_bind ((passive_untouched env).openOid oid) fun found => ?_
      cases found with
      | none => exact within_pure _
      | some a =>
          exact within_bind ((passive_untouched env).reopen canUse oid a) fun _ =>
            within_pure _

/-- One operation, if it succeeds in case it makes or removes an object. -/
theorem Reflects.run (hroot : Untruncated root) (h : Reflects root objs s)
    {op : ObjOp} (hop : op.Succeeds env root s) :
    Reflects root (op.objectsAfter objs) ((op.run env root).final s) := by
  have hother : ∀ om, op.opens = some om →
      Reflects root objs ((op.run env root).final s) := by
    intro om hopens
    have hopening := opening_untouched env root om.1 om.2 s
    have hsame : SameOpen ((opening env root om.1 om.2).final s)
        ((op.run env root).final s) := sameOpen_run hopens s
    exact h.of_eq (hsame.names.trans hopening.data.names)
      (hsame.oidHash.trans hopening.data.oidHash)
  cases op with
  | create oid => exact h.create hroot (outcome_eq_ok.mp hop)
  | remove oid => exact h.remove hroot (outcome_eq_ok.mp hop)
  | getfd oid => exact hother _ rfl
  | read oid off dest => exact hother _ rfl
  | write oid off src => exact hother _ rfl
  | fsync oid => exact hother _ rfl
  | stat oid => exact hother _ rfl
  | trunc oid size => exact hother _ rfl

/-- The server runs, and the operation succeeds if it makes or removes an
object. -/
def Succeeded (root : Path) (s : Server) (r : Env Mac × ObjOp) : Prop :=
  s.up = true ∧ r.2.Succeeds r.1 root s.store

/-- The objects after a run. -/
def objectsAfterRun (objs : Set Oid) (run : List (Env Mac × ObjOp)) : Set Oid :=
  run.foldl (fun objs r => r.2.objectsAfter objs) objs

theorem Reflects.exec (hroot : Untruncated root) {s : Server}
    (h : Reflects root objs s.store) {run : List (Env Mac × ObjOp)}
    (hrun : Run.Along (objStep root) (Succeeded root) s run) :
    Reflects root (objectsAfterRun objs run)
      (Run.exec (objStep root) s run).store := by
  induction run generalizing s objs with
  | nil => exact h
  | cons r run ih =>
      obtain ⟨⟨hup, hop⟩, hrest⟩ := (Run.along_cons _ _ _ _ _).mp hrun
      have hstep : (objStep root s r).store =
          (r.2.run r.1 root).final s.store := by
        rw [objStep, if_pos hup]
      have hone : Reflects root (r.2.objectsAfter objs) (objStep root s r).store := by
        rw [hstep]
        exact h.run hroot hop
      exact ih hone hrest

end Objects

/-! ### The start -/

section Init

variable {Mac : Type} (env : Env Mac) (root : Path)

/-- The memory of a new id, before it is written. -/
def mallocOid : Oid :=
  ⟨(List.range uuidSize).map env.malloc, by rw [List.length_map, List.length_range]⟩

/-- One turn of the loop in `repopulate_oid_hashtable`. -/
def repopulateEntry (dName : Path) : StoreRoutine Unit :=
  if dName = ['.'] ∨ dName = ['.', '.'] then return ()
  else do
    let found ← sys env fun o fs => fs.sysAccess o (scanPath root dName)
    if found then do
      let _ ← addOid (lwfsStringToOid (dName.drop 2) (mallocOid env))
      return ()
    else throw (.code .errNoObj)

/-- `repopulate_oid_hashtable`, over the names that `readdir` gives. -/
def repopulate (dNames : List Path) : StoreRoutine Unit :=
  dNames.forM (repopulateEntry env root)

/-- `sysio_obj_init`. That the root directory is there is no failure of
`mkdir`. -/
def sysioObjInit (dNames : List Path) : StoreRoutine Unit := do
  let made ← sys env fun o fs => (decide (o ≠ .fail), fs)
  if made then
    (repopulate env root dNames).mapOutcome fun r =>
      match r with
      | .error (.code _) => .error (.code .err)
      | r => r
  else throw (.code .errStorage)

/-- What another server finds when this one has stopped: the files, which
nobody has open, and the database. -/
def Store.stopped (s : Store) : Store :=
  { Store.empty with files := { s.files with fds := ∅ }, attrs := s.attrs }

/-- The names that `readdir` gives, in some order. -/
structure Listing (root : Path) (fs : Files) (dNames : List Path) : Prop where
  nodup : dNames.Nodup
  mem : ∀ dName, dName ∈ dNames ↔ dName = ['.'] ∨ dName = ['.', '.'] ∨
    root ++ ['/'] ++ dName ∈ fs.names

variable {env root} {s t : Store} {dNames : List Path}

/-- A name that the scan skips, or that of an object. -/
def Scannable (dName : Path) : Prop :=
  dName = ['.'] ∨ dName = ['.', '.'] ∨ ∃ oid, dName = objectName oid

theorem objectName_ne_dots (oid : Oid) :
    ¬ (objectName oid = ['.'] ∨ objectName oid = ['.', '.']) := by
  simp [objectName]

theorem repopulateEntry_of_dots {dName : Path}
    (h : dName = ['.'] ∨ dName = ['.', '.']) :
    repopulateEntry env root dName s = .ok () s := by
  rw [repopulateEntry, if_pos h]
  rfl

/-- Where `access` finds the file of an object, the object is added. -/
theorem repopulateEntry_of_object (oid : Oid) :
    repopulateEntry env root (objectName oid) s =
      if env.outcome s.calls ≠ .fail ∧
          scanPath root (objectName oid) ∈ s.files.names
      then .ok () ({ s with calls := s.calls + 1 }.track oid)
      else .error (.code .errNoObj) { s with calls := s.calls + 1 } := by
  have haccess : sys env (fun o fs =>
      fs.sysAccess o (scanPath root (objectName oid))) s =
        .ok (decide (env.outcome s.calls ≠ .fail ∧
          scanPath root (objectName oid) ∈ s.files.names))
          { s with calls := s.calls + 1 } := rfl
  have hid : lwfsStringToOid ((objectName oid).drop 2) (mallocOid env) = oid :=
    lwfsStringToOid_lwfsOidToString oid _
  rw [repopulateEntry, if_neg (objectName_ne_dots oid), bind_of_ok haccess, hid]
  simp only [decide_eq_true_eq]
  split <;> rfl

theorem search_track {oid oid' : Oid} :
    (oidHashSearch (s.track oid).oidHash oid').isSome ↔
      oid' = oid ∨ (oidHashSearch s.oidHash oid').isSome := by
  rw [search_isSome, search_isSome, Store.track, List.exists_mem_cons_iff]
  exact or_congr_left eq_comm

/-- The scan adds the objects whose names it comes across. -/
theorem repopulate_ok {u : Unit} (hnames : ∀ dName ∈ dNames, Scannable dName)
    (hrun : repopulate env root dNames s = .ok u t) :
    t.files = s.files ∧ t.attrs = s.attrs ∧
      ∀ oid, (oidHashSearch t.oidHash oid).isSome ↔
        (oidHashSearch s.oidHash oid).isSome ∨ objectName oid ∈ dNames := by
  induction dNames generalizing s with
  | nil =>
      cases hrun
      simp
  | cons dName dNames ih =>
      obtain ⟨hname, hrest⟩ := List.forall_mem_cons.mp hnames
      obtain ⟨_, v, hone, hloop⟩ := bind_eq_ok.mp hrun
      obtain ⟨hfiles, hattrs, hiff⟩ := ih hrest hloop
      by_cases hdots : dName = ['.'] ∨ dName = ['.', '.']
      · rw [repopulateEntry_of_dots hdots] at hone
        cases hone
        refine ⟨hfiles, hattrs, fun oid => ?_⟩
        have hne : objectName oid ≠ dName := by
          rintro rfl
          exact objectName_ne_dots oid hdots
        rw [hiff, List.mem_cons, or_iff_right hne]
      · obtain ⟨oid, rfl⟩ := (or_assoc.mpr hname).resolve_left hdots
        rw [repopulateEntry_of_object] at hone
        split_ifs at hone
        cases hone
        refine ⟨hfiles, hattrs, fun oid' => ?_⟩
        rw [hiff, search_track, List.mem_cons, or_assoc, or_left_comm]
        refine or_congr_right (or_congr_left ⟨?_, objectName_inj⟩)
        rintro rfl
        rfl

/-- No object is added twice. -/
theorem nodup_repopulate {u : Unit} (hnames : ∀ dName ∈ dNames, Scannable dName)
    (hnodup : dNames.Nodup) (hkeys : (s.oidHash.map Prod.fst).Nodup)
    (hnew : ∀ oid, objectName oid ∈ dNames → oidHashSearch s.oidHash oid = none)
    (hrun : repopulate env root dNames s = .ok u t) :
    (t.oidHash.map Prod.fst).Nodup := by
  induction dNames generalizing s with
  | nil =>
      cases hrun
      exact hkeys
  | cons dName dNames ih =>
      obtain ⟨hname, hrest⟩ := List.forall_mem_cons.mp hnames
      obtain ⟨hnot, hnodup'⟩ := List.nodup_cons.mp hnodup
      obtain ⟨_, v, hone, hloop⟩ := bind_eq_ok.mp hrun
      by_cases hdots : dName = ['.'] ∨ dName = ['.', '.']
      · rw [repopulateEntry_of_dots hdots] at hone
        cases hone
        exact ih hrest hnodup' hkeys
          (fun oid hoid => hnew oid (List.mem_cons_of_mem _ hoid)) hloop
      · obtain ⟨oid, rfl⟩ := (or_assoc.mpr hname).resolve_left hdots
        rw [repopulateEntry_of_object] at hone
        split_ifs at hone
        cases hone
        refine ih hrest hnodup' ?_ (fun oid' hoid' => ?_) hloop
        · refine List.nodup_cons.mpr ⟨fun hmem => ?_, hkeys⟩
          obtain ⟨e, he, heq⟩ := List.mem_map.mp hmem
          have hnone := hnew oid List.mem_cons_self
          exact search_eq_none hnone e he heq
        · have hne : oid' ≠ oid := by
            rintro rfl
            exact hnot hoid'
          rw [← Option.not_isSome_iff_eq_none, search_track, not_or,
            Option.not_isSome_iff_eq_none]
          exact ⟨hne, hnew oid' (List.mem_cons_of_mem _ hoid')⟩

/-- The scan gets to its end if `access` finds every file. -/
theorem repopulate_total (hok : ∀ n, env.outcome n ≠ .fail)
    (hnames : ∀ dName ∈ dNames, Scannable dName)
    (hfiles : ∀ oid, objectName oid ∈ dNames →
      scanPath root (objectName oid) ∈ s.files.names) :
    ∃ t, repopulate env root dNames s = .ok () t := by
  induction dNames generalizing s with
  | nil => exact ⟨s, rfl⟩
  | cons dName dNames ih =>
      obtain ⟨hname, hrest⟩ := List.forall_mem_cons.mp hnames
      suffices hone : ∃ v, v.files = s.files ∧
          repopulateEntry env root dName s = .ok () v by
        obtain ⟨v, hv, hone⟩ := hone
        obtain ⟨t, hloop⟩ := ih (s := v) hrest fun oid hoid => by
          rw [hv]
          exact hfiles oid (List.mem_cons_of_mem _ hoid)
        exact ⟨t, (bind_of_ok hone).trans hloop⟩
      by_cases hdots : dName = ['.'] ∨ dName = ['.', '.']
      · exact ⟨s, rfl, repopulateEntry_of_dots hdots⟩
      · obtain ⟨oid, rfl⟩ := (or_assoc.mpr hname).resolve_left hdots
        refine ⟨{ s with calls := s.calls + 1 }.track oid, rfl, ?_⟩
        rw [repopulateEntry_of_object,
          if_pos ⟨hok _, hfiles oid List.mem_cons_self⟩]

theorem scannable_of_listing {fs : Files} (honly : OnlyObjects root fs)
    (hlist : Listing root fs dNames) : ∀ dName ∈ dNames, Scannable dName := by
  intro dName hd
  rcases (hlist.mem dName).mp hd with hdot | hdotdot | hfile
  · exact .inl hdot
  · exact .inr (.inl hdotdot)
  · exact .inr (.inr (honly dName hfile))

theorem objectName_mem_listing {fs : Files} (hlist : Listing root fs dNames)
    {oid : Oid} : objectName oid ∈ dNames ↔ oid ∈ filed root fs := by
  rw [hlist.mem, ← or_assoc, or_iff_right (objectName_ne_dots oid), mem_filed]

/-- `sysio_obj_init` is the scan, where it succeeds. -/
theorem sysioObjInit_eq_ok {v : Store} {u : Unit}
    (hrun : sysioObjInit env root dNames v.stopped = .ok u t) :
    ∃ u', repopulate env root dNames
      { v.stopped with calls := v.stopped.calls + 1 } = .ok u' t := by
  obtain ⟨made, w, hmkdir, hrun⟩ := bind_eq_ok.mp hrun
  cases hmkdir
  split_ifs at hrun with hmade
  · obtain ⟨hout, hfinal⟩ := mapOutcome_eq_ok.mp hrun
    split at hout
    · cases hout
    · rw [← hfinal]
      exact ⟨_, outcome_eq_ok.mp hout⟩
  · cases hrun

/-- `sysio_obj_init` leaves the objects whose files it finds. -/
theorem sysioObjInit_ok {v : Store} {u : Unit}
    (honly : OnlyObjects root v.files) (hlist : Listing root v.files dNames)
    (hrun : sysioObjInit env root dNames v.stopped = .ok u t) :
    t.files = v.stopped.files ∧ t.attrs = v.attrs ∧
      (t.oidHash.map Prod.fst).Nodup ∧
      ∀ oid, (oidHashSearch t.oidHash oid).isSome ↔
        oid ∈ filed root v.files := by
  obtain ⟨u', hscan⟩ := sysioObjInit_eq_ok hrun
  have hnames := scannable_of_listing honly hlist
  obtain ⟨hfiles, hattrs, hiff⟩ := repopulate_ok hnames hscan
  let w : Store := { v.stopped with calls := v.stopped.calls + 1 }
  have hkeys : (w.oidHash.map Prod.fst).Nodup := List.nodup_nil
  refine ⟨hfiles, hattrs, nodup_repopulate hnames hlist.nodup hkeys
    (fun _ _ => rfl) hscan, fun oid => ?_⟩
  rw [hiff, objectName_mem_listing hlist]
  exact or_iff_right (by simp [oidHashSearch, Store.stopped, Store.empty])

theorem sysioObjInit_total (hroot : Untruncated root)
    (hok : ∀ n, env.outcome n ≠ .fail) {v : Store}
    (honly : OnlyObjects root v.files) (hlist : Listing root v.files dNames) :
    ∃ t, sysioObjInit env root dNames v.stopped = .ok () t := by
  let w : Store := { v.stopped with calls := v.stopped.calls + 1 }
  have hmkdir : sys env (fun o fs => (decide (o ≠ .fail), fs)) v.stopped =
      .ok true w := by
    simp only [sys, hok, ne_eq, not_false_eq_true, decide_true]
    rfl
  obtain ⟨t, hscan⟩ := repopulate_total (s := w) hok
    (scannable_of_listing honly hlist) fun oid hoid => by
      rw [scanPath_objectName, fileName_eq_append hroot]
      exact (objectName_mem_listing hlist).mp hoid
  refine ⟨t, ?_⟩
  rw [sysioObjInit, bind_of_ok hmkdir, if_pos rfl]
  exact mapOutcome_of_ok hscan rfl

end Init

section Restart

variable {Mac : Type} {root : Path}

/-- What holds when the server has started on a directory of objects. -/
theorem reflects_init {v s : Store} {env : Env Mac} {dNames : List Path}
    (honly : OnlyObjects root v.files) (hlist : Listing root v.files dNames)
    (hrun : sysioObjInit env root dNames v.stopped = .ok () s) :
    Reflects root (filed root v.files) s := by
  obtain ⟨hfiles, -, -, hiff⟩ := sysioObjInit_ok honly hlist hrun
  refine ⟨?_, ?_, fun oid => (hiff oid).mpr⟩
  · rw [hfiles]
    rfl
  · rw [hfiles]
    exact honly

/-- After creations and removals that have succeeded, among other operations in
any order, a server that starts on the same root directory finds exactly the
objects that were there, or were created since, and were not removed. It starts
if the host lets it, and it reads every id out of the text that it has
printed. -/
theorem restart_recovers_objects (hroot : Untruncated root) {v s₀ : Store}
    (honly : OnlyObjects root v.files) {env : Env Mac} {dNames : List Path}
    (hlist : Listing root v.files dNames)
    (hboot : sysioObjInit env root dNames v.stopped = .ok () s₀)
    {run : List (Env Mac × ObjOp)}
    (hrun : Run.Along (objStep root) (Succeeded root) ⟨s₀, true⟩ run)
    {s : Store} (hs : (Run.exec (objStep root) ⟨s₀, true⟩ run).store = s)
    (env' : Env Mac) {dNames' : List Path}
    (hlist' : Listing root s.files dNames') :
    ((∀ n, env'.outcome n ≠ .fail) →
      ∃ t, sysioObjInit env' root dNames' s.stopped = .ok () t) ∧
    (∀ t, sysioObjInit env' root dNames' s.stopped = .ok () t → ∀ oid,
      (sysioObjExists oid).outcome t = .ok true ↔
        oid ∈ objectsAfterRun (filed root v.files) run) ∧
    ∀ oid oid', lwfsStringToOid (lwfsOidToString oid) oid' = oid := by
  have hreflects : Reflects root (objectsAfterRun (filed root v.files) run) s := by
    rw [← hs]
    exact Reflects.exec hroot (reflects_init honly hlist hboot) hrun
  refine ⟨fun hok => sysioObjInit_total hroot hok hreflects.only hlist', ?_,
    lwfsStringToOid_lwfsOidToString⟩
  intro t hinit oid
  obtain ⟨-, -, -, hiff⟩ := sysioObjInit_ok hreflects.only hlist' hinit
  have hexists : (sysioObjExists oid).outcome t =
      .ok (oidHashSearch t.oidHash oid).isSome := rfl
  rw [hexists, Except.ok.injEq, hiff, hreflects.filed]

/-- The listing of an empty directory. -/
theorem listing_empty (root : Path) {fs : Files} (hnames : fs.names.keys = []) :
    Listing root fs [['.'], ['.', '.']] where
  nodup := by decide
  mem dName := by
    have hno : ¬ root ++ ['/'] ++ dName ∈ fs.names := by
      rw [AList.mem_keys, hnames]
      exact List.not_mem_nil
    rw [or_iff_left hno]
    simp

/-- The listing of a directory that holds the file of one object. -/
theorem listing_one {fs : Files} {oid : Oid} (hroot : Untruncated root)
    (hnames : fs.names.keys = [fileName shortPath root oid]) :
    Listing root fs [['.'], objectName oid, ['.', '.']] where
  nodup := by simp [objectName]
  mem dName := by
    have hmem : root ++ ['/'] ++ dName ∈ fs.names ↔ dName = objectName oid := by
      rw [AList.mem_keys, hnames, List.mem_singleton, fileName_eq_append hroot,
        List.append_cancel_left_eq]
    rw [hmem]
    simp only [List.mem_cons, List.not_mem_nil, or_false]
    exact or_congr_right or_comm

/-- Two objects are created and one of them is removed. -/
theorem restart_recovers_one :
    let root : Path := ['/', 'r']
    let env : Env Unit := Env.quiet fun _ => none
    let other : Oid := Octets.fill uuidSize 171
    let run : List (Env Unit × ObjOp) := [(env, .create Oid.zero),
      (env, .create other), (env, .remove Oid.zero)]
    let s₀ := (sysioObjInit env root [['.'], ['.', '.']]).final
      Store.empty.stopped
    let s := (Run.exec (objStep root) ⟨s₀, true⟩ run).store
    ∃ t, sysioObjInit env root [['.'], objectName other, ['.', '.']] s.stopped =
        .ok () t ∧
      ∀ oid, (sysioObjExists oid).outcome t = .ok true ↔
        oid ∈ objectsAfterRun (filed root Store.empty.files) run := by
  intro root env other run s₀ s
  have hroot : Untruncated root := untruncated_iff.mpr (by decide)
  have honly : OnlyObjects root Store.empty.files :=
    fun dName hd => absurd hd (AList.notMem_empty _)
  have hlist : Listing root Store.empty.files [['.'], ['.', '.']] :=
    listing_empty root rfl
  have hboot : sysioObjInit env root [['.'], ['.', '.']] Store.empty.stopped =
      .ok () s₀ := outcome_eq_ok.mp (by decide +kernel)
  have hrun : Run.Along (objStep root) (Succeeded root) ⟨s₀, true⟩ run :=
    ⟨⟨rfl, by decide +kernel⟩, ⟨by decide +kernel, by decide +kernel⟩,
      ⟨by decide +kernel, by decide +kernel⟩, trivial⟩
  have hlist' : Listing root s.files [['.'], objectName other, ['.', '.']] :=
    listing_one hroot (by decide +kernel)
  obtain ⟨htotal, hexists, -⟩ := restart_recovers_objects hroot honly hlist hboot
    hrun rfl env hlist'
  obtain ⟨t, ht⟩ := htotal fun _ h => by cases h
  exact ⟨t, ht, hexists t ht⟩

end Restart

end Lwfs.Storage
