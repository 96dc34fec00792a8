import Lwfs.Storage.Frames
import Lwfs.Storage.Paths

/-!
The object interface by itself, from the start of the server on.

At start-up the server scans its root directory and makes an element for each
object it finds there. After that the operations come in any order, and the
host can make any of its calls fail. The invariant here is what holds of the
elements and their descriptors all the same.
-/

namespace Lwfs.Storage

open SysLib Routine

variable {Mac : Type}

/-! ### Operations -/

/-- The operations on one object. -/
inductive ObjOp
  | create (oid : Oid)
  | getfd (oid : Oid)
  | read (oid : Oid) (srcOffset : ℕ) (dest : List UInt8)
  | write (oid : Oid) (destOffset : ℕ) (src : List UInt8)
  | fsync (oid : Oid)
  | stat (oid : Oid)
  | trunc (oid : Oid) (size : ℕ)
  | remove (oid : Oid)
  deriving DecidableEq

section Operations

variable (env : Env Mac) (root : Path)

/-- `sysio_obj_getfd`. -/
def sysioObjGetfd (oid : Oid) : StoreRoutine ℤ := do
  match ← openOid env root oid with
  | none => return -1
  | some a =>
      let el ← oidEl a
      return el.fd

def ObjOp.run : ObjOp → StoreRoutine Unit
  | .create oid => sysioObjCreate env root oid
  | .getfd oid => (fun _ => ()) <$> sysioObjGetfd env root oid
  | .read oid srcOffset dest =>
      (fun _ => ()) <$> sysioObjRead env root oid srcOffset dest
  | .write oid destOffset src =>
      (fun _ => ()) <$> sysioObjWrite env root oid destOffset src
  | .fsync oid => sysioObjFsync env root oid
  | .stat oid => (fun _ => ()) <$> sysioObjStat env root oid
  | .trunc oid size => (fun _ => ()) <$> sysioObjTrunc env root oid size
  | .remove oid => sysioObjRemove env root oid

/-- `repopulate_oid_hashtable`, in a directory that holds the files of the
objects `oids`. -/
def repopulateOidHashtable (oids : List Oid) : StoreRoutine Unit :=
  oids.forM fun oid => do
    let found ← sys env fun o fs =>
      fs.sysAccess o (scanPath root (objectName oid))
    if found then do
      let _ ← addOid oid
      return ()
    else throw (.code .errNoObj)

end Operations

/-- One operation of a server that runs. -/
def objStep (root : Path) (s : Server) (r : Env Mac × ObjOp) : Server :=
  if s.up then
    ⟨(r.2.run r.1 root).final s.store,
      survives ((r.2.run r.1 root).outcome s.store)⟩
  else s

/-- The host before the server starts: the objects whose files are in the root
directory. -/
structure Directory where
  files : Files
  oids : List Oid
  nodup : oids.Nodup
  closed : files.fds = ∅

/-- The state when `sysio_obj_init` begins. -/
def Directory.store (dir : Directory) : Store :=
  { Store.empty with files := dir.files }

/-- The server has started: the scan of the directory has succeeded. -/
def Started (Mac : Type) (root : Path) (s : Server) : Prop :=
  s.up = true ∧ ∃ (dir : Directory) (env : Env Mac),
    repopulateOidHashtable env root dir.oids dir.store = .ok () s.store

/-! ### Elements and descriptors -/

/-- How the hash table, the elements and the descriptors hang together. An
element whose object is being removed is no longer in the hash table. -/
structure Elements (loose : Option ℕ) (s : Store) : Prop where
  keys : (s.oidHash.map Prod.fst).Nodup
  element : ∀ e ∈ s.oidHash, ∃ el, s.heap.lookup e.2 = some el ∧ el.id = e.1
  tracked : ∀ a el, s.heap.lookup a = some el →
    loose = some a ∨ (el.id, a) ∈ s.oidHash
  fresh : ∀ a ∈ s.heap, a < s.nextEl
  positive : ∀ fd ∈ s.files.fds, 0 < fd
  value : ∀ a el, s.heap.lookup a = some el →
    el.fd = 0 ∨ el.fd = -1 ∨ el.fd ∈ s.files.fds
  distinct : ∀ a b el el', s.heap.lookup a = some el →
    s.heap.lookup b = some el' → el.fd ∈ s.files.fds → el.fd = el'.fd → a = b

namespace Elements

variable {loose : Option ℕ} {s t : Store}

theorem zero_notMem (h : Elements loose s) : (0 : ℤ) ∉ s.files.fds :=
  fun hmem => Int.lt_irrefl 0 (h.positive 0 hmem)

theorem neg_notMem (h : Elements loose s) : (-1 : ℤ) ∉ s.files.fds :=
  fun hmem => absurd (h.positive (-1) hmem) (by decide)

theorem nextEl_notMem (h : Elements loose s) : s.nextEl ∉ s.heap :=
  fun hmem => Nat.lt_irrefl _ (h.fresh _ hmem)

theorem mem_oidHash (h : Elements none s) {a : ℕ} {el : OidEl}
    (ha : s.heap.lookup a = some el) : (el.id, a) ∈ s.oidHash :=
  (h.tracked a el ha).resolve_left (Option.some_ne_none a).symm

/-- A descriptor that was not in use is not that of an element. -/
theorem fd_ne (h : Elements loose s) {fd : ℤ} (hpos : 0 < fd)
    (hfresh : fd ∉ s.files.fds) {b : ℕ} {elb : OidEl}
    (hb : s.heap.lookup b = some elb) : elb.fd ≠ fd := by
  rcases h.value b elb hb with hzero | hneg | hopen
  · omega
  · omega
  · exact fun heq => hfresh (heq ▸ hopen)

/-- An object in the hash table has an element. -/
theorem search (h : Elements loose s) {oid : Oid} {a : ℕ}
    (ha : oidHashSearch s.oidHash oid = some a) :
    (oid, a) ∈ s.oidHash ∧ ∃ el, s.heap.lookup a = some el ∧ el.id = oid := by
  simp only [oidHashSearch, Option.map_eq_some_iff] at ha
  obtain ⟨e, he, rfl⟩ := ha
  have hid : e.1 = oid := by simpa using List.find?_some he
  have hmem := List.mem_of_find?_eq_some he
  obtain ⟨el, hel, heq⟩ := h.element e hmem
  subst hid
  exact ⟨hmem, el, hel, heq⟩

/-- The elements stay, and every descriptor that was open still is. -/
theorem of_heap_eq (h : Elements loose s) (hheap : t.heap = s.heap)
    (hhash : t.oidHash = s.oidHash) (hnext : t.nextEl = s.nextEl)
    (hsub : ∀ fd ∈ s.files.fds, fd ∈ t.files.fds)
    (hpos : ∀ fd ∈ t.files.fds, 0 < fd) : Elements loose t where
  keys := hhash ▸ h.keys
  element := by
    rw [hhash, hheap]
    exact h.element
  tracked := by
    rw [hhash, hheap]
    exact h.tracked
  fresh := by
    rw [hheap, hnext]
    exact h.fresh
  positive := hpos
  value := by
    rw [hheap]
    exact fun a el ha => (h.value a el ha).imp_right (Or.imp_right (hsub _))
  distinct := by
    rw [hheap]
    intro a b el el' ha hb hmem heq
    have hpositive := hpos _ hmem
    rcases h.value a el ha with hzero | hneg | hopen
    · omega
    · omega
    · exact h.distinct a b el el' ha hb hopen heq

/-- One element gets another descriptor, and the others keep theirs. -/
theorem set (h : Elements loose s) {a : ℕ} {el el' : OidEl}
    (ha : s.heap.lookup a = some el) (hid : el'.id = el.id)
    (hheap : t.heap = s.heap.insert a el') (hhash : t.oidHash = s.oidHash)
    (hnext : t.nextEl = s.nextEl) (hpos : ∀ fd ∈ t.files.fds, 0 < fd)
    (hvalue : el'.fd = 0 ∨ el'.fd = -1 ∨ el'.fd ∈ t.files.fds)
    (hothers : ∀ b elb, b ≠ a → s.heap.lookup b = some elb →
      (elb.fd ∈ s.files.fds → elb.fd ∈ t.files.fds) ∧
        (elb.fd ∈ t.files.fds → elb.fd ∈ s.files.fds ∧ elb.fd ≠ el'.fd)) :
    Elements loose t := by
  have hlookup : ∀ b elb, t.heap.lookup b = some elb →
      (b = a ∧ elb = el') ∨ (b ≠ a ∧ s.heap.lookup b = some elb) := by
    intro b elb hb
    rw [hheap] at hb
    by_cases hba : b = a
    · subst hba
      rw [AList.lookup_insert, Option.some.injEq] at hb
      exact .inl ⟨rfl, hb.symm⟩
    · rw [AList.lookup_insert_ne hba] at hb
      exact .inr ⟨hba, hb⟩
  refine ⟨hhash ▸ h.keys, ?_, ?_, ?_, hpos, ?_, ?_⟩
  · rw [hhash, hheap]
    intro e he
    obtain ⟨ele, hele, heid⟩ := h.element e he
    by_cases hea : e.2 = a
    · rw [hea, ha, Option.some.injEq] at hele
      subst hele
      exact ⟨el', by rw [hea]; exact AList.lookup_insert _, hid.trans heid⟩
    · exact ⟨ele, by rwa [AList.lookup_insert_ne hea], heid⟩
  · intro b elb hb
    rw [hhash]
    rcases hlookup b elb hb with ⟨rfl, rfl⟩ | ⟨-, hb⟩
    · rw [hid]
      exact h.tracked b el ha
    · exact h.tracked b elb hb
  · rw [hheap, hnext]
    intro b hb
    obtain rfl | hb := AList.mem_insert _ |>.mp hb
    · exact h.fresh b (Table.mem_of_lookup ha)
    · exact h.fresh b hb
  · intro b elb hb
    rcases hlookup b elb hb with ⟨rfl, rfl⟩ | ⟨hba, hb⟩
    · exact hvalue
    · exact (h.value b elb hb).imp_right (Or.imp_right (hothers b elb hba hb).1)
  · intro b c elb elc hb hc hmem heq
    rcases hlookup b elb hb with ⟨rfl, rfl⟩ | ⟨hba, hb⟩
    · rcases hlookup c elc hc with ⟨rfl, -⟩ | ⟨hca, hc⟩
      · rfl
      · exact absurd heq.symm ((hothers c elc hca hc).2 (heq ▸ hmem)).2
    · obtain ⟨hopen, hne⟩ := (hothers b elb hba hb).2 hmem
      rcases hlookup c elc hc with ⟨rfl, rfl⟩ | ⟨-, hc⟩
      · exact absurd heq hne
      · exact h.distinct b c elb elc hb hc hopen heq

end Elements

/-! ### Closing, whether the host lets it or not -/

section Closing

variable {env : Env Mac} {loose : Option ℕ} {s : Store} {a : ℕ} {el : OidEl}

/-- The state after the server has tried to close the file of an element. -/
def Store.closing (env : Env Mac) (s : Store) (a : ℕ) (el : OidEl) : Store :=
  if el.fd = 0 then s
  else if env.outcome s.calls ≠ .fail ∧ el.fd ∈ s.files.fds then s.close a el
  else { s with calls := s.calls + 1 }

theorem closeTheOpenFile_eq (ha : s.heap.lookup a = some el) :
    closeTheOpenFile env a s = .ok () (s.closing env a el) := by
  rw [closeTheOpenFile, bind_of_ok (oidEl_ok ha), Store.closing]
  split_ifs with hzero hclose
  · rfl
  · have hsys : sys env (fun o fs => fs.sysClose o el.fd) s = .ok true
        { s with
          files := { s.files with fds := s.files.fds.erase el.fd }
          calls := s.calls + 1 } := by
      simp only [sys, Files.sysClose, if_pos hclose]
    rw [bind_of_ok hsys]
    rfl
  · have hsys : sys env (fun o fs => fs.sysClose o el.fd) s = .ok false
        { s with calls := s.calls + 1 } := by
      simp only [sys, Files.sysClose, if_neg hclose]
    rw [bind_of_ok hsys]
    rfl

theorem oidEl_error (ha : s.heap.lookup a = none) :
    oidEl a s = .error .badPointer s := by
  rw [oidEl, get_bind, ha]
  exact throw_apply

theorem removeFromOpenFiles_eq (ha : s.heap.lookup a = some el) {l : List ℕ}
    (hl : tclistDelete s.heap el s.openFilesList = .ok l) :
    removeFromOpenFiles env a s =
      .ok () ({ s with openFilesList := l }.closing env a el) := by
  have hread : Routine.reader (fun s => tclistDelete s.heap el s.openFilesList) s =
      .ok l s := reader_of_ok hl
  rw [removeFromOpenFiles, bind_of_ok (oidEl_ok ha), bind_of_ok hread]
  exact closeTheOpenFile_eq (s := { s with openFilesList := l }) ha

theorem tclistDelete_error {heap : Table ℕ OidEl} {l : List ℕ} {f : Fault}
    (h : tclistDelete heap el l = .error f) : f = .badPointer := by
  induction l with
  | nil => cases h
  | cons b l ih =>
      rw [tclistDelete] at h
      cases hb : heap.lookup b with
      | none =>
          rw [hb] at h
          exact (Except.error.inj h).symm
      | some elb =>
          simp only [hb] at h
          split_ifs at h
          cases hrest : tclistDelete heap el l with
          | error f' =>
              rw [hrest] at h
              obtain rfl := Except.error.inj h
              exact ih hrest
          | ok l' =>
              rw [hrest] at h
              cases h

/-- An element is taken off the list and closed, or a pointer to an element
that was freed is followed. -/
theorem removeFromOpenFiles_cases (env : Env Mac) (a : ℕ) (s : Store) :
    removeFromOpenFiles env a s = .error .badPointer s ∨
      ∃ el l, s.heap.lookup a = some el ∧
        tclistDelete s.heap el s.openFilesList = .ok l ∧
        removeFromOpenFiles env a s =
          .ok () ({ s with openFilesList := l }.closing env a el) := by
  cases ha : s.heap.lookup a with
  | none => exact .inl (bind_of_error (oidEl_error ha))
  | some el =>
      cases hl : tclistDelete s.heap el s.openFilesList with
      | error f =>
          have hread : Routine.reader
              (fun s => tclistDelete s.heap el s.openFilesList) s = .error f s :=
            reader_of_error hl
          obtain rfl := tclistDelete_error hl
          left
          rw [removeFromOpenFiles, bind_of_ok (oidEl_ok ha), bind_of_error hread]
      | ok l => exact .inr ⟨el, l, rfl, hl, removeFromOpenFiles_eq ha hl⟩

theorem Elements.setList (h : Elements loose s) (l : List ℕ) :
    Elements loose { s with openFilesList := l } :=
  h.of_heap_eq rfl rfl rfl (fun _ => id) h.positive

theorem Elements.close (h : Elements loose s)
    (ha : s.heap.lookup a = some el) : Elements loose (s.close a el) := by
  have hmem : ∀ fd, fd ∈ (s.close a el).files.fds →
      fd ∈ s.files.fds ∧ fd ≠ el.fd := fun fd hfd =>
    ⟨(AList.mem_erase.mp hfd).2, (AList.mem_erase.mp hfd).1⟩
  have hid : el.closed.id = el.id := rfl
  refine h.set ha hid rfl rfl rfl (fun fd hfd => h.positive fd (hmem fd hfd).1)
    (.inl rfl) fun b elb hba hb => ⟨fun hopen => ?_, fun hopen => ?_⟩
  · have hne : elb.fd ≠ el.fd := fun heq =>
      hba (h.distinct b a elb el hb ha hopen heq)
    exact AList.mem_erase.mpr ⟨hne, hopen⟩
  · have hmem := (hmem _ hopen).1
    refine ⟨hmem, fun hz => ?_⟩
    have hzero : elb.fd = 0 := hz
    exact h.zero_notMem (hzero ▸ hmem)

theorem Elements.closing (h : Elements loose s)
    (ha : s.heap.lookup a = some el) : Elements loose (s.closing env a el) := by
  unfold Store.closing
  split_ifs with hzero hclose
  · exact h
  · exact h.close ha
  · exact h.of_heap_eq rfl rfl rfl (fun _ => id) h.positive

theorem closing_oidHash : (s.closing env a el).oidHash = s.oidHash := by
  unfold Store.closing
  split_ifs <;> rfl

theorem closing_openFilesList :
    (s.closing env a el).openFilesList = s.openFilesList := by
  unfold Store.closing
  split_ifs <;> rfl

theorem closing_names :
    (s.closing env a el).files.names = s.files.names := by
  unfold Store.closing
  split_ifs <;> rfl

theorem mem_heap_closing (ha : a ∈ s.heap) {b : ℕ} :
    b ∈ (s.closing env a el).heap ↔ b ∈ s.heap := by
  unfold Store.closing
  split_ifs
  · exact Iff.rfl
  · exact (AList.mem_insert _).trans (or_iff_right_of_imp fun h => h ▸ ha)
  · exact Iff.rfl

theorem lookup_closing_ne {b : ℕ} (hne : b ≠ a) :
    (s.closing env a el).heap.lookup b = s.heap.lookup b := by
  unfold Store.closing
  split_ifs
  · rfl
  · exact AList.lookup_insert_ne hne
  · rfl

theorem mem_fds_of_closing {fd : ℤ}
    (h : fd ∈ (s.closing env a el).files.fds) : fd ∈ s.files.fds := by
  unfold Store.closing at h
  split_ifs at h
  · exact h
  · exact (AList.mem_erase.mp h).2
  · exact h

/-- The other elements keep their descriptors. -/
theorem Elements.lookup_fds_closing (h : Elements loose s)
    (ha : s.heap.lookup a = some el) {b : ℕ} {elb : OidEl} (hba : b ≠ a)
    (hb : s.heap.lookup b = some elb) :
    (s.closing env a el).files.fds.lookup elb.fd =
      s.files.fds.lookup elb.fd := by
  unfold Store.closing
  split_ifs with hzero hclose
  · rfl
  · have hne : elb.fd ≠ el.fd := fun heq =>
      hba (h.distinct a b el elb ha hb hclose.2 heq.symm).symm
    exact AList.lookup_erase_ne hne
  · rfl

theorem Elements.mem_fds_closing (h : Elements loose s)
    (ha : s.heap.lookup a = some el) {b : ℕ} {elb : OidEl} (hba : b ≠ a)
    (hb : s.heap.lookup b = some elb) :
    elb.fd ∈ (s.closing env a el).files.fds ↔ elb.fd ∈ s.files.fds := by
  rw [← AList.lookup_isSome, h.lookup_fds_closing ha hba hb, AList.lookup_isSome]

end Closing

/-! ### Opening -/

section Opening

variable {env : Env Mac} {root : Path} {loose : Option ℕ} {s : Store} {a : ℕ}
  {el : OidEl}

/-- The state after a file could not be opened. -/
def Store.refuse (s : Store) (a : ℕ) (el : OidEl) : Store :=
  { s with
    heap := s.heap.insert a { el with fd := -1 }
    calls := s.calls + 1 }

/-- The host opens the file. -/
def Opens (env : Env Mac) (s : Store) (path : Path) (inode : ℕ) : Prop :=
  env.outcome s.calls ≠ .fail ∧ s.files.names.lookup path = some inode

theorem openElement_of_opens (ha : s.heap.lookup a = some el) {path : Path}
    {inode : ℕ} (h : Opens env s path inode) :
    openElement env a path s =
      (addToOpenFiles env a >>= fun _ => pure true)
        (s.open a el (env.newFd s.files.fds) inode) := by
  obtain ⟨hok, hname⟩ := h
  have hpos := env.newFd_pos s.files.fds
  let u : Store := { s with
    files := { s.files with
      fds := s.files.fds.insert (env.newFd s.files.fds) ⟨inode, 0⟩ }
    calls := s.calls + 1 }
  have hsys : sys env (fun o fs => fs.sysOpen env.toFdRule o path) s =
      .ok (env.newFd s.files.fds) u := by
    simp only [sys, Files.sysOpen, hname, if_neg hok, u]
  have hel : oidEl a u = .ok el u := oidEl_ok ha
  rw [openElement, bind_of_ok hsys, bind_of_ok hel, if_neg (by omega)]
  rfl

theorem openElement_of_refused (ha : s.heap.lookup a = some el) {path : Path}
    (h : ∀ inode, ¬ Opens env s path inode) :
    openElement env a path s = .ok false (s.refuse a el) := by
  have hopen : s.files.sysOpen env.toFdRule (env.outcome s.calls) path =
      (-1, s.files) := by
    unfold Files.sysOpen
    cases hname : s.files.names.lookup path with
    | none => rfl
    | some inode =>
        have hfail : env.outcome s.calls = .fail :=
          not_not.mp fun hok => h inode ⟨hok, hname⟩
        simp only [if_pos hfail]
  let u : Store := { s with calls := s.calls + 1 }
  have hsys : sys env (fun o fs => fs.sysOpen env.toFdRule o path) s =
      .ok (-1) u := by
    simp only [sys, hopen, u]
  have hel : oidEl a u = .ok el u := oidEl_ok ha
  rw [openElement, bind_of_ok hsys, bind_of_ok hel, if_pos (by decide)]
  rfl

theorem openOid_of_none {oid : Oid}
    (h : oidHashSearch s.oidHash oid = none) :
    openOid env root oid s = .ok none s := by
  have hfind : findOid oid s = .ok none s := by
    rw [findOid, get_bind, h]
    rfl
  rw [openOid, bind_of_ok hfind]
  rfl

theorem openOid_of_some {oid : Oid}
    (h : oidHashSearch s.oidHash oid = some a)
    (ha : s.heap.lookup a = some el) :
    openOid env root oid s =
      if el.fd = 0 then (openElement env a (openPath root oid) >>= fun opened =>
        pure (if opened then some a else none)) s
      else .ok (some a) s := by
  have hfind : findOid oid s = .ok (some a) s := by
    rw [findOid, get_bind, h]
    rfl
  rw [openOid, bind_of_ok hfind]
  simp only
  rw [bind_of_ok (oidEl_ok ha)]
  split_ifs <;> rfl

theorem addToOpenFiles_of_lt (h : s.openFilesList.length < maxOpenFiles) :
    addToOpenFiles env a s =
      .ok () { s with openFilesList := a :: s.openFilesList } := by
  simp only [addToOpenFiles, get_bind, if_pos h]
  rfl

theorem addToOpenFiles_of_eq (h : s.openFilesList.length = maxOpenFiles) :
    addToOpenFiles env a s =
      (removeFromOpenFiles env (s.openFilesList.getLastD 0) >>= fun _ =>
        tclistUnshift a) s := by
  simp only [addToOpenFiles, get_bind, if_neg (Nat.not_lt_of_le (Nat.le_of_eq h.symm)),
    if_pos h]

theorem addToOpenFiles_of_gt (h : maxOpenFiles < s.openFilesList.length) :
    addToOpenFiles env a s = .ok () s := by
  simp only [addToOpenFiles, get_bind, if_neg (Nat.not_lt_of_gt h),
    if_neg (Nat.ne_of_gt h)]
  rfl

theorem Elements.refuse (h : Elements loose s) (ha : s.heap.lookup a = some el) :
    Elements loose (s.refuse a el) := by
  have hid : ({ el with fd := -1 } : OidEl).id = el.id := rfl
  refine h.set ha hid rfl rfl rfl h.positive (.inr (.inl rfl))
    fun b elb _ _ => ⟨id, fun hopen => ⟨hopen, ?_⟩⟩
  intro heq
  have hneg : elb.fd = -1 := heq
  exact h.neg_notMem (hneg ▸ hopen)

/-- An element whose file was not open gets the new descriptor. -/
theorem Elements.open (h : Elements loose s) (ha : s.heap.lookup a = some el)
    {fd : ℤ} (hpos : 0 < fd) (hfresh : fd ∉ s.files.fds) (inode : ℕ) :
    Elements loose (s.open a el fd inode) := by
  have hid : ({ el with fd := fd, mode := Mode.rPlus } : OidEl).id = el.id := rfl
  have hmem : ∀ fd', fd' ∈ (s.open a el fd inode).files.fds ↔
      fd' = fd ∨ fd' ∈ s.files.fds := fun fd' => AList.mem_insert _
  refine h.set ha hid rfl rfl rfl (fun fd' hfd' => ?_)
    (.inr (.inr ((hmem fd).mpr (.inl rfl)))) fun b elb hba hb => ?_
  · rcases (hmem fd').mp hfd' with rfl | hfd'
    · exact hpos
    · exact h.positive fd' hfd'
  · have hne := h.fd_ne hpos hfresh hb
    exact ⟨fun hopen => (hmem _).mpr (.inr hopen), fun hopen =>
      ⟨((hmem _).mp hopen).resolve_left hne, hne⟩⟩

end Opening

/-! ### What only uses a descriptor -/

/-- The elements and the list are the same, and the descriptors are open for
the same files. -/
structure SameOpen (s t : Store) : Prop where
  heap : t.heap = s.heap
  nextEl : t.nextEl = s.nextEl
  oidHash : t.oidHash = s.oidHash
  openFilesList : t.openFilesList = s.openFilesList
  names : t.files.names = s.files.names
  inode : ∀ fd, (t.files.fds.lookup fd).map OpenFile.inode =
    (s.files.fds.lookup fd).map OpenFile.inode

instance : Std.Refl SameOpen :=
  ⟨fun _ => ⟨rfl, rfl, rfl, rfl, rfl, fun _ => rfl⟩⟩

instance : IsTrans Store SameOpen :=
  ⟨fun _ _ _ h h' => ⟨h'.heap.trans h.heap, h'.nextEl.trans h.nextEl,
    h'.oidHash.trans h.oidHash, h'.openFilesList.trans h.openFilesList,
    h'.names.trans h.names, fun fd => (h'.inode fd).trans (h.inode fd)⟩⟩

theorem SameOpen.mem_fds {s t : Store} (h : SameOpen s t) (fd : ℤ) :
    fd ∈ t.files.fds ↔ fd ∈ s.files.fds := by
  have hinode := congrArg Option.isSome (h.inode fd)
  rw [Option.isSome_map, Option.isSome_map] at hinode
  rw [← AList.lookup_isSome, ← AList.lookup_isSome, hinode]

theorem SameOpen.elements {loose : Option ℕ} {s t : Store} (h : SameOpen s t)
    (hs : Elements loose s) : Elements loose t :=
  hs.of_heap_eq h.heap h.oidHash h.nextEl (fun fd => (h.mem_fds fd).mpr)
    fun fd hfd => hs.positive fd ((h.mem_fds fd).mp hfd)

section Using

variable {env : Env Mac} {root : Path}

theorem sys_sameOpen {α : Type} {call : Outcome → Files → α × Files}
    (h : ∀ o fs, (call o fs).2.names = fs.names ∧
      ∀ fd, ((call o fs).2.fds.lookup fd).map OpenFile.inode =
        (fs.fds.lookup fd).map OpenFile.inode) :
    Within SameOpen (sys env call) := by
  intro s
  obtain ⟨hnames, hinode⟩ := h (env.outcome s.calls) s.files
  exact ⟨rfl, rfl, rfl, rfl, hnames, hinode⟩

/-- A descriptor that moves to another position stays open for its file. -/
theorem lookup_insert_pos {fds : Table ℤ OpenFile} {fd : ℤ} {f : OpenFile}
    (hf : fds.lookup fd = some f) (pos : ℕ) (fd' : ℤ) :
    ((fds.insert fd { f with pos }).lookup fd').map OpenFile.inode =
      (fds.lookup fd').map OpenFile.inode := by
  rcases eq_or_ne fd' fd with rfl | hne
  · rw [AList.lookup_insert, hf]
    rfl
  · rw [AList.lookup_insert_ne hne]

theorem sysLseek_sameOpen (fd : ℤ) (pos : ℕ) :
    Within SameOpen (sys env fun o fs => fs.sysLseek o fd pos) := by
  refine sys_sameOpen fun o fs => ?_
  unfold Files.sysLseek
  cases hf : fs.fds.lookup fd with
  | none => exact ⟨rfl, fun _ => rfl⟩
  | some f =>
      simp only
      split_ifs
      · exact ⟨rfl, fun _ => rfl⟩
      · exact ⟨rfl, lookup_insert_pos hf _⟩

theorem sysRead_sameOpen (fd : ℤ) (len : ℕ) :
    Within SameOpen (sys env fun o fs => fs.sysRead o fd len) := by
  refine sys_sameOpen fun o fs => ?_
  unfold Files.sysRead
  cases hf : fs.fds.lookup fd with
  | none => exact ⟨rfl, fun _ => rfl⟩
  | some f =>
      simp only
      split_ifs
      · exact ⟨rfl, fun _ => rfl⟩
      · exact ⟨rfl, lookup_insert_pos hf _⟩

theorem sysWrite_sameOpen (fd : ℤ) (src : List UInt8) :
    Within SameOpen (sys env fun o fs => fs.sysWrite o fd src) := by
  refine sys_sameOpen fun o fs => ?_
  unfold Files.sysWrite
  cases hf : fs.fds.lookup fd with
  | none => exact ⟨rfl, fun _ => rfl⟩
  | some f =>
      simp only
      split_ifs
      · exact ⟨rfl, fun _ => rfl⟩
      · exact ⟨rfl, lookup_insert_pos hf _⟩

theorem sysFsync_sameOpen (fd : ℤ) :
    Within SameOpen (sys env fun o fs => fs.sysFsync o fd) :=
  sys_sameOpen fun _ _ => ⟨rfl, fun _ => rfl⟩

theorem sysFstat_sameOpen (fd : ℤ) :
    Within SameOpen (sys env fun o fs => fs.sysFstat o fd) := by
  refine sys_sameOpen fun o fs => ?_
  unfold Files.sysFstat
  cases fs.fds.lookup fd with
  | none => exact ⟨rfl, fun _ => rfl⟩
  | some f =>
      simp only
      split_ifs <;> exact ⟨rfl, fun _ => rfl⟩

theorem sysFtruncate_sameOpen (fd : ℤ) (size : ℕ) :
    Within SameOpen (sys env fun o fs => fs.sysFtruncate o fd size) := by
  refine sys_sameOpen fun o fs => ?_
  unfold Files.sysFtruncate
  cases fs.fds.lookup fd with
  | none => exact ⟨rfl, fun _ => rfl⟩
  | some f =>
      simp only
      split_ifs <;> exact ⟨rfl, fun _ => rfl⟩

theorem oidEl_sameOpen (a : ℕ) : Within SameOpen (oidEl a) :=
  within_bind within_get fun s => by
    cases s.heap.lookup a with
    | none => exact within_throw _
    | some el => exact within_pure el

/-- Neither the elements nor the files depend on the attributes. -/
theorem sameOpen_attrs (s : Store) (attrs : Table Db1Key AttrEntry) (calls : ℕ) :
    SameOpen s { s with attrs := attrs, calls := calls } :=
  ⟨rfl, rfl, rfl, rfl, rfl, fun _ => rfl⟩

/-! ### The operations that open an object -/

/-- The object that an operation opens, and what it asks of the mode. -/
def ObjOp.opens : ObjOp → Option (Oid × Option (Mode → Bool))
  | .create _ => none
  | .getfd oid => some (oid, none)
  | .read oid _ _ => some (oid, some canReadFile)
  | .write oid _ _ => some (oid, some canWriteFile)
  | .fsync oid => some (oid, none)
  | .stat oid => some (oid, none)
  | .trunc oid _ => some (oid, none)
  | .remove _ => none

/-- What an operation does before it uses a descriptor. -/
def opening (env : Env Mac) (root : Path) (oid : Oid) :
    Option (Mode → Bool) → StoreRoutine Unit
  | none => (fun _ => ()) <$> openOid env root oid
  | some canUse => do
      match ← openOid env root oid with
      | none => return ()
      | some a =>
          let _ ← reopen env root canUse oid a
          return ()

theorem within_final_bind {α β : Type} {R : Store → Store → Prop} [Std.Refl R]
    {x : StoreRoutine α} {f : α → StoreRoutine β} (hf : ∀ a, Within R (f a))
    (s : Store) : R (x.final s) ((x >>= f).final s) := by
  cases hx : x s with
  | ok a t =>
      have hbind : (x >>= f).final s = (f a).final t := by
        simp only [final, bind_of_ok hx]
      rw [final_of_ok hx, hbind]
      exact hf a t
  | error e t =>
      rw [final_of_error hx, final_of_error (bind_of_error hx)]
      exact Std.Refl.refl t

theorem final_opening_none (oid : Oid) (s : Store) :
    (opening env root oid none).final s = (openOid env root oid).final s :=
  final_map

theorem final_opening_of_none {oid : Oid} {m : Option (Mode → Bool)}
    {s t : Store} (h : openOid env root oid s = .ok none t) :
    (opening env root oid m).final s = t := by
  cases m with
  | none => rw [final_opening_none, final_of_ok h]
  | some canUse =>
      simp only [opening, final, bind_of_ok h]
      rfl

theorem final_opening_of_some {oid : Oid} {canUse : Mode → Bool} {s t : Store}
    {a : ℕ} (h : openOid env root oid s = .ok (some a) t) :
    (opening env root oid (some canUse)).final s =
      (reopen env root canUse oid a).final t := by
  rw [← final_bind_pure (reopen env root canUse oid a) ()]
  simp only [opening, final, bind_of_ok h]

/-- An operation that uses the element `open_oid` gives it. -/
theorem sameOpen_open {α : Type} {oid : Oid} {f : Option ℕ → StoreRoutine α}
    (hf : ∀ a, Within SameOpen (f a)) (s : Store) :
    SameOpen ((opening env root oid none).final s)
      ((openOid env root oid >>= f).final s) := by
  rw [final_opening_none]
  exact within_final_bind hf s

/-- An operation that looks at the mode of the element first. -/
theorem sameOpen_reopen {α : Type} {oid : Oid} {canUse : Mode → Bool}
    {absent : StoreRoutine α} {f : ℕ → Bool → StoreRoutine α}
    (habsent : Within SameOpen absent)
    (hf : ∀ a opened, Within SameOpen (f a opened)) (s : Store) :
    SameOpen ((opening env root oid (some canUse)).final s)
      ((openOid env root oid >>= fun found =>
        match found with
        | none => absent
        | some a => reopen env root canUse oid a >>= f a).final s) := by
  cases hopen : openOid env root oid s with
  | error e t =>
      rw [opening, final_of_error (bind_of_error hopen),
        final_of_error (bind_of_error hopen)]
      exact Std.Refl.refl t
  | ok found t =>
      cases found with
      | none =>
          have hrun : (openOid env root oid >>= fun found =>
              match found with
              | none => absent
              | some a => reopen env root canUse oid a >>= f a).final s =
                absent.final t := by
            simp only [final, bind_of_ok hopen]
          rw [final_opening_of_none hopen, hrun]
          exact habsent t
      | some a =>
          have hrun : (openOid env root oid >>= fun found =>
              match found with
              | none => absent
              | some a => reopen env root canUse oid a >>= f a).final s =
                (reopen env root canUse oid a >>= f a).final t := by
            simp only [final, bind_of_ok hopen]
          rw [final_opening_of_some hopen, hrun]
          exact within_final_bind (hf a) t

/-- What comes after the opening changes neither the elements nor the list. -/
theorem sameOpen_run {op : ObjOp} {oid : Oid} {m : Option (Mode → Bool)}
    (hop : op.opens = some (oid, m)) (s : Store) :
    SameOpen ((opening env root oid m).final s) ((op.run env root).final s) := by
  cases op <;> simp only [ObjOp.opens, reduceCtorEq, Option.some.injEq,
    Prod.mk.injEq] at hop <;> obtain ⟨rfl, rfl⟩ := hop
  case getfd oid =>
    rw [ObjOp.run, final_map]
    refine sameOpen_open (fun found => ?_) s
    cases found with
    | none => exact within_pure _
    | some a => exact within_bind (oidEl_sameOpen a) fun _ => within_pure _
  case read oid srcOffset dest =>
    rw [ObjOp.run, final_map]
    refine sameOpen_reopen (within_pure _) (fun a opened => ?_) s
    refine within_ite (fun _ => within_pure _) fun _ =>
      within_bind (oidEl_sameOpen a) fun el =>
        within_bind (sysLseek_sameOpen el.fd srcOffset) fun _ =>
          within_ite (fun _ => within_pure _) fun _ =>
            within_ite (fun _ => within_pure _) fun _ =>
              within_bind (sysRead_sameOpen el.fd dest.length) fun data => ?_
    cases data with
    | none => exact within_pure _
    | some data => exact within_pure _
  case write oid destOffset src =>
    rw [ObjOp.run, final_map]
    refine sameOpen_reopen (within_throw _) (fun a opened => ?_) s
    refine within_ite (fun _ => within_pure _) fun _ =>
      within_bind (oidEl_sameOpen a) fun el =>
        within_bind (sysLseek_sameOpen el.fd destOffset) fun _ =>
          within_ite (fun _ => within_pure _) fun _ =>
            within_bind (sysWrite_sameOpen el.fd src) fun count => ?_
    cases count with
    | none => exact within_pure _
    | some count => exact within_pure _
  case fsync oid =>
    refine sameOpen_open (fun found => ?_) s
    cases found with
    | none => exact within_throw _
    | some a =>
        exact within_bind (oidEl_sameOpen a) fun el =>
          within_bind (sysFsync_sameOpen el.fd) fun _ =>
            within_ite (fun _ => within_pure _) fun _ => within_throw _
  case stat oid =>
    rw [ObjOp.run, final_map]
    refine sameOpen_open (fun found => ?_) s
    cases found with
    | none => exact within_pure _
    | some a =>
        refine within_bind (oidEl_sameOpen a) fun el =>
          within_bind (sysFstat_sameOpen el.fd) fun size => ?_
        cases size with
        | none => exact within_throw _
        | some size => exact within_pure _
  case trunc oid size =>
    rw [ObjOp.run, final_map]
    refine sameOpen_open (fun found => ?_) s
    cases found with
    | none => exact within_pure _
    | some a =>
        exact within_bind (oidEl_sameOpen a) fun el =>
          within_bind (sysFtruncate_sameOpen el.fd size) fun _ => within_pure _

end Using

/-! ### New elements -/

section Track

variable {env : Env Mac} {root : Path} {s t : Store} {oid : Oid}

/-- The state with an element for one more object. -/
def Store.track (s : Store) (oid : Oid) : Store :=
  { s with
    heap := s.heap.insert s.nextEl ⟨0, oid, Mode.zero⟩
    nextEl := s.nextEl + 1
    oidHash := (oid, s.nextEl) :: s.oidHash }

/-- The new element, and the elements there were. -/
theorem Elements.lookup_track {loose : Option ℕ} (h : Elements loose s) {a : ℕ}
    {el : OidEl} : (s.track oid).heap.lookup a = some el ↔
      (a = s.nextEl ∧ el = ⟨0, oid, Mode.zero⟩) ∨ s.heap.lookup a = some el := by
  rcases eq_or_ne a s.nextEl with rfl | hne
  · have hnone : s.heap.lookup s.nextEl = none :=
      AList.lookup_eq_none.mpr h.nextEl_notMem
    simp [Store.track, hnone, eq_comm]
  · simp [Store.track, hne]

theorem Elements.track (h : Elements none s)
    (hoid : oid ∉ s.oidHash.map Prod.fst) : Elements none (s.track oid) where
  keys := List.nodup_cons.mpr ⟨hoid, h.keys⟩
  element := by
    intro e he
    obtain rfl | he := List.mem_cons.mp he
    · exact ⟨_, h.lookup_track.mpr (.inl ⟨rfl, rfl⟩), rfl⟩
    · obtain ⟨el, hel, hid⟩ := h.element e he
      exact ⟨el, h.lookup_track.mpr (.inr hel), hid⟩
  tracked := by
    intro a el ha
    rcases h.lookup_track.mp ha with ⟨rfl, rfl⟩ | ha
    · exact .inr List.mem_cons_self
    · exact .inr (List.mem_cons_of_mem _ (h.mem_oidHash ha))
  fresh := by
    intro a ha
    obtain rfl | ha := AList.mem_insert _ |>.mp ha
    · exact Nat.lt_succ_self _
    · exact Nat.lt_succ_of_lt (h.fresh a ha)
  positive := h.positive
  value := by
    intro a el ha
    rcases h.lookup_track.mp ha with ⟨rfl, rfl⟩ | ha
    · exact .inl rfl
    · exact h.value a el ha
  distinct := by
    intro a b el el' ha hb hmem heq
    rcases h.lookup_track.mp ha with ⟨rfl, rfl⟩ | ha
    · exact absurd hmem h.zero_notMem
    · rcases h.lookup_track.mp hb with ⟨rfl, rfl⟩ | hb
      · have hzero : el.fd = 0 := heq
        exact absurd (hzero ▸ hmem) h.zero_notMem
      · exact h.distinct a b el el' ha hb hmem heq

/-! ### Creating a file -/

/-- `access` does not find the file of the object. -/
def Absent (env : Env Mac) (root : Path) (oid : Oid) (s : Store) : Prop :=
  env.outcome s.calls = .fail ∨ fileName shortPath root oid ∉ s.files.names

/-- The file of the object is created, and closed again. -/
def Creates (env : Env Mac) (root : Path) (oid : Oid) (s : Store) : Prop :=
  Absent env root oid s ∧ env.outcome (s.calls + 1) ≠ .fail ∧
    env.outcome (s.calls + 2) ≠ .fail

/-- The state after `access` and `creat`. -/
def Store.creat (env : Env Mac) (s : Store) (path : Path) : Store :=
  { s with
    files := (s.files.sysCreat env.toFdRule .ok path).2
    calls := s.calls + 2 }

/-- The state after the new file was closed. -/
def Store.created (env : Env Mac) (s : Store) (path : Path) : Store :=
  let u := s.creat env path
  { u with
    files := { u.files with fds := u.files.fds.erase (env.newFd s.files.fds) }
    calls := u.calls + 1 }

theorem creat_fds (env : Env Mac) (s : Store) (path : Path) : ∃ inode, (s.creat env path).files.fds =
    s.files.fds.insert (env.newFd s.files.fds) ⟨inode, 0⟩ := by
  simp only [Store.creat, Files.sysCreat, reduceCtorEq, if_false]
  cases s.files.names.lookup path with
  | some inode => exact ⟨inode, rfl⟩
  | none => exact ⟨s.files.nextInode, rfl⟩

theorem created_fds (path : Path) (fd : ℤ) :
    (s.created env path).files.fds.lookup fd = s.files.fds.lookup fd := by
  obtain ⟨inode, hfds⟩ := creat_fds env s path
  simp only [Store.created, hfds]
  rcases eq_or_ne fd (env.newFd s.files.fds) with rfl | hne
  · rw [AList.lookup_erase, AList.lookup_eq_none.mpr (env.newFd_fresh _)]
  · rw [AList.lookup_erase_ne hne, AList.lookup_insert_ne hne]

section Creation

variable (env : Env Mac) (root : Path) (oid : Oid) (s : Store)

theorem access_apply (path : Path) :
    sys env (fun o fs => fs.sysAccess o path) s =
      .ok (env.outcome s.calls ≠ .fail ∧ path ∈ s.files.names)
        { s with calls := s.calls + 1 } := rfl

theorem create_of_found (h : ¬ Absent env root oid s) :
    sysioObjCreate env root oid s =
      .error (.code .errExist) { s with calls := s.calls + 1 } := by
  have hfound : env.outcome s.calls ≠ .fail ∧
      fileName shortPath root oid ∈ s.files.names := by
    rwa [Absent, not_or, not_not] at h
  rw [sysioObjCreate, bind_of_ok (access_apply env s _),
    if_pos (by simpa using hfound)]
  rfl

variable {env root oid s}

theorem create_of_refused (h : Absent env root oid s)
    (hcreat : env.outcome (s.calls + 1) = .fail) :
    sysioObjCreate env root oid s =
      .error (.code .errStorage) { s with calls := s.calls + 2 } := by
  have hfound : ¬ (env.outcome s.calls ≠ .fail ∧
      fileName shortPath root oid ∈ s.files.names) := by
    rwa [not_and_or, not_not]
  have hsys : sys env (fun o fs => fs.sysCreat env.toFdRule o
      (fileName shortPath root oid)) { s with calls := s.calls + 1 } =
        .ok (-1) { s with calls := s.calls + 2 } := by
    simp only [sys, Files.sysCreat, if_pos hcreat]
  rw [sysioObjCreate, bind_of_ok (access_apply env s _),
    if_neg (by simpa using hfound), bind_of_ok hsys]
  rfl

/-- The steps that follow `creat`. -/
theorem create_of_creat (h : Absent env root oid s)
    (hcreat : env.outcome (s.calls + 1) ≠ .fail) :
    sysioObjCreate env root oid s =
      (sys env (fun o fs => fs.sysClose o (env.newFd s.files.fds)) >>= fun closed =>
        if closed = false then throw (.code .errStorage)
        else addOid oid >>= fun a => addToOpenFiles env a)
          (s.creat env (fileName shortPath root oid)) := by
  have hfound : ¬ (env.outcome s.calls ≠ .fail ∧
      fileName shortPath root oid ∈ s.files.names) := by
    rwa [not_and_or, not_not]
  have hpos := env.newFd_pos s.files.fds
  have hsys : sys env (fun o fs => fs.sysCreat env.toFdRule o
      (fileName shortPath root oid)) { s with calls := s.calls + 1 } =
        .ok (env.newFd s.files.fds) (s.creat env (fileName shortPath root oid)) := by
    simp only [sys, Files.sysCreat, if_neg hcreat, Store.creat, reduceCtorEq,
      if_false]
    cases s.files.names.lookup (fileName shortPath root oid) <;> rfl
  rw [sysioObjCreate, bind_of_ok (access_apply env s _),
    if_neg (by simpa using hfound), bind_of_ok hsys, if_neg (by omega)]

/-- The new file stays, and nothing but the file knows of the object. -/
theorem create_of_leaked (h : Absent env root oid s)
    (hcreat : env.outcome (s.calls + 1) ≠ .fail)
    (hclose : env.outcome (s.calls + 2) = .fail) :
    let u := s.creat env (fileName shortPath root oid)
    sysioObjCreate env root oid s =
      .error (.code .errStorage) { u with calls := u.calls + 1 } := by
  intro u
  have hno : ¬ (env.outcome u.calls ≠ .fail ∧
      env.newFd s.files.fds ∈ u.files.fds) := fun h => h.1 hclose
  have hsys : sys env (fun o fs => fs.sysClose o (env.newFd s.files.fds)) u =
      .ok false { u with calls := u.calls + 1 } := by
    simp only [sys, Files.sysClose, if_neg hno]
  rw [create_of_creat h hcreat, bind_of_ok hsys]
  rfl

theorem create_of_creates (h : Creates env root oid s) :
    sysioObjCreate env root oid s = addToOpenFiles env s.nextEl
      ((s.created env (fileName shortPath root oid)).track oid) := by
  obtain ⟨habsent, hcreat, hclose⟩ := h
  let u := s.creat env (fileName shortPath root oid)
  have hmem : env.newFd s.files.fds ∈ u.files.fds := by
    obtain ⟨inode, hfds⟩ := creat_fds env s (fileName shortPath root oid)
    rw [hfds]
    exact AList.mem_insert _ |>.mpr (.inl rfl)
  have hyes : env.outcome u.calls ≠ .fail ∧
      env.newFd s.files.fds ∈ u.files.fds := ⟨hclose, hmem⟩
  have hsys : sys env (fun o fs => fs.sysClose o (env.newFd s.files.fds)) u =
      .ok true (s.created env (fileName shortPath root oid)) := by
    simp only [sys, Files.sysClose, if_pos hyes]
    rfl
  rw [create_of_creat habsent hcreat, bind_of_ok hsys]
  rfl

theorem create_of_not_creates (h : ¬ Creates env root oid s) :
    ∃ rc t, sysioObjCreate env root oid s = .error (.code rc) t := by
  by_cases habsent : Absent env root oid s
  · by_cases hcreat : env.outcome (s.calls + 1) = .fail
    · exact ⟨_, _, create_of_refused habsent hcreat⟩
    · have hclose : env.outcome (s.calls + 2) = .fail :=
        not_not.mp fun hclose => h ⟨habsent, hcreat, hclose⟩
      exact ⟨_, _, create_of_leaked habsent hcreat hclose⟩
  · exact ⟨_, _, create_of_found env root oid s habsent⟩

end Creation

/-- A creation leaves everything as it was, or a descriptor that was not
closed, or a new element, which is put on the list. -/
theorem create_cases (env : Env Mac) (root : Path) (oid : Oid) (s : Store) :
    let path := fileName shortPath root oid
    let t := (sysioObjCreate env root oid).final s
    let u := s.creat env path
    (¬ Creates env root oid s ∧
      (SameOpen s t ∨
        Absent env root oid s ∧ t = { u with calls := u.calls + 1 })) ∨
    (Creates env root oid s ∧ sysioObjCreate env root oid s =
      addToOpenFiles env s.nextEl ((s.created env path).track oid)) := by
  intro path t u
  by_cases habsent : Absent env root oid s
  · by_cases hcreat : env.outcome (s.calls + 1) = .fail
    · refine .inl ⟨fun hcreates => hcreates.2.1 hcreat, .inl ?_⟩
      simp only [t, final_of_error (create_of_refused habsent hcreat)]
      exact ⟨rfl, rfl, rfl, rfl, rfl, fun _ => rfl⟩
    · by_cases hclose : env.outcome (s.calls + 2) = .fail
      · exact .inl ⟨fun hcreates => hcreates.2.2 hclose, .inr ⟨habsent,
          final_of_error (create_of_leaked habsent hcreat hclose)⟩⟩
      · have hcreates : Creates env root oid s := ⟨habsent, hcreat, hclose⟩
        exact .inr ⟨hcreates, create_of_creates hcreates⟩
  · refine .inl ⟨fun hcreates => habsent hcreates.1, .inl ?_⟩
    simp only [t, final_of_error (create_of_found env root oid s habsent)]
    exact ⟨rfl, rfl, rfl, rfl, rfl, fun _ => rfl⟩

theorem elements_directory (dir : Directory) : Elements none dir.store where
  keys := List.nodup_nil
  element := fun e he => absurd he List.not_mem_nil
  tracked := fun a el h => absurd (Table.mem_of_lookup h) (AList.notMem_empty a)
  fresh := fun a ha => absurd ha (AList.notMem_empty a)
  positive := by
    intro fd hfd
    have hempty : fd ∈ dir.files.fds := hfd
    rw [dir.closed] at hempty
    exact absurd hempty (AList.notMem_empty fd)
  value := fun a el h => absurd (Table.mem_of_lookup h) (AList.notMem_empty a)
  distinct := fun a b el el' h => absurd (Table.mem_of_lookup h) (AList.notMem_empty a)

/-- The scan makes an element without a descriptor for each object whose file
it finds. -/
structure Scanned (root : Path) (s t : Store) : Prop where
  elements : Elements none t
  files : t.files = s.files
  openFilesList : t.openFilesList = s.openFilesList
  closed : ∀ a el, t.heap.lookup a = some el →
    s.heap.lookup a = some el ∨ el.fd = 0
  named : ∀ e ∈ t.oidHash, e ∈ s.oidHash ∨
    fileName shortPath root e.1 ∈ s.files.names

theorem scanned_repopulate {oids : List Oid} (hnodup : oids.Nodup)
    (h : Elements none s) (hnew : ∀ oid ∈ oids, oid ∉ s.oidHash.map Prod.fst)
    (hrun : repopulateOidHashtable env root oids s = .ok () t) :
    Scanned root s t := by
  induction oids generalizing s with
  | nil =>
      obtain ⟨-, rfl⟩ := pure_eq_ok.mp hrun
      exact ⟨h, rfl, rfl, fun _ _ => .inl, fun _ => .inl⟩
  | cons oid oids ih =>
      obtain ⟨hoid, hrest⟩ := List.nodup_cons.mp hnodup
      obtain ⟨_, u, hone, hloop⟩ := bind_eq_ok.mp hrun
      obtain ⟨found, v, haccess, hone⟩ := bind_eq_ok.mp hone
      cases haccess
      split_ifs at hone with hfound
      · obtain ⟨-, hu⟩ := EStateM.Result.ok.inj hone
        let s' : Store := { s with calls := s.calls + 1 }
        have hs' : Elements none s' :=
          h.of_heap_eq rfl rfl rfl (fun _ => id) h.positive
        obtain rfl : s'.track oid = u := hu
        have hname : fileName shortPath root oid ∈ s.files.names := by
          have haccess : env.outcome s.calls ≠ .fail ∧
              scanPath root (objectName oid) ∈ s.files.names := by
            simpa [Files.sysAccess] using hfound
          rw [← scanPath_objectName]
          exact haccess.2
        have htrack := hs'.track (hnew oid List.mem_cons_self)
        have hscanned := ih hrest htrack (fun o ho hmem => by
          rcases List.mem_cons.mp hmem with rfl | hmem
          · exact hoid ho
          · exact hnew o (List.mem_cons_of_mem _ ho) hmem) hloop
        refine ⟨hscanned.elements, hscanned.files, hscanned.openFilesList, ?_, ?_⟩
        · intro a el ha
          rcases hscanned.closed a el ha with ha | hzero
          · rcases hs'.lookup_track.mp ha with ⟨rfl, rfl⟩ | ha
            · exact .inr rfl
            · exact .inl ha
          · exact .inr hzero
        · intro e he
          rcases hscanned.named e he with he | hmem
          · rcases List.mem_cons.mp he with rfl | he
            · exact .inr hname
            · exact .inl he
          · exact .inr hmem
      · cases hone

/-- What holds when the server has started. -/
theorem Started.scanned {s : Server} (h : Started Mac root s) :
    ∃ dir : Directory, Scanned root dir.store s.store := by
  obtain ⟨-, dir, env, hrun⟩ := h
  exact ⟨dir, scanned_repopulate dir.nodup (elements_directory dir)
    (fun _ _ => List.not_mem_nil) hrun⟩

end Track

/-! ### Elements that go -/

section Remove

variable {env : Env Mac} {root : Path} {s : Store} {oid : Oid} {a : ℕ}
  {el : OidEl}

def Store.unhash (s : Store) (oid : Oid) : Store :=
  { s with oidHash := s.oidHash.eraseP fun e => e.1 = oid }

def Store.free (s : Store) (a : ℕ) : Store := { s with heap := s.heap.erase a }

def Store.unlink (s : Store) (path : Path) : Store :=
  { s with files := { s.files with names := s.files.names.erase path } }

theorem notMem_eraseP {l : List (Oid × ℕ)} (h : (l.map Prod.fst).Nodup) :
    ∀ e ∈ l.eraseP (fun e => e.1 = oid), e.1 ≠ oid := by
  induction l with
  | nil => exact fun e he => absurd he List.not_mem_nil
  | cons e l ih =>
      obtain ⟨hnot, hrest⟩ := List.nodup_cons.mp h
      intro e' he'
      by_cases heq : e.1 = oid
      · rw [List.eraseP_cons_of_pos (by simpa using heq)] at he'
        rintro rfl
        exact hnot (heq ▸ List.mem_map_of_mem he')
      · rw [List.eraseP_cons_of_neg (by simpa using heq)] at he'
        rcases List.mem_cons.mp he' with rfl | he'
        · exact heq
        · exact ih hrest e' he'

/-- No other element is about the object that the hash table forgets. -/
theorem Elements.notMem_unhash (h : Elements none s) :
    ∀ e ∈ (s.unhash oid).oidHash, e.1 ≠ oid := notMem_eraseP h.keys

theorem Elements.unhash (h : Elements none s)
    (ha : oidHashSearch s.oidHash oid = some a) :
    Elements (some a) (s.unhash oid) where
  keys := h.keys.sublist ((List.eraseP_sublist).map _)
  element e he := h.element e (List.mem_of_mem_eraseP he)
  tracked := by
    intro b elb hb
    have hmem := h.mem_oidHash hb
    by_cases hba : a = b
    · exact .inl (congrArg some hba)
    · right
      have hne : elb.id ≠ oid := by
        rintro rfl
        have heq := List.inj_on_of_nodup_map h.keys hmem (h.search ha).1 rfl
        exact hba (congrArg Prod.snd heq).symm
      exact (List.mem_eraseP_of_neg (by simpa using hne)).mpr hmem
  fresh := h.fresh
  positive := h.positive
  value := h.value
  distinct := h.distinct

theorem Elements.free (h : Elements (some a) s)
    (hno : ∀ e ∈ s.oidHash, e.2 ≠ a) : Elements none (s.free a) := by
  have hlookup : ∀ b elb, (s.free a).heap.lookup b = some elb →
      b ≠ a ∧ s.heap.lookup b = some elb := by
    intro b elb hb
    have hne : b ≠ a := by
      rintro rfl
      rw [Store.free, AList.lookup_erase] at hb
      cases hb
    rw [Store.free, AList.lookup_erase_ne hne] at hb
    exact ⟨hne, hb⟩
  refine ⟨h.keys, ?_, ?_, ?_, h.positive, ?_, ?_⟩
  · intro e he
    obtain ⟨ele, hele, hid⟩ := h.element e he
    exact ⟨ele, (AList.lookup_erase_ne (hno e he)).trans hele, hid⟩
  · intro b elb hb
    obtain ⟨hba, hb⟩ := hlookup b elb hb
    rcases h.tracked b elb hb with heq | hmem
    · exact absurd (Option.some.inj heq).symm hba
    · exact .inr hmem
  · exact fun b hb => h.fresh b (AList.mem_erase.mp hb).2
  · exact fun b elb hb => h.value b elb (hlookup b elb hb).2
  · exact fun b c elb elc hb hc =>
      h.distinct b c elb elc (hlookup b elb hb).2 (hlookup c elc hc).2

/-- The state after the element of an object was freed, with the list `l`. -/
def Store.forget (env : Env Mac) (s : Store) (oid : Oid) (a : ℕ) (el : OidEl)
    (l : List ℕ) : Store :=
  (Store.closing env { s.unhash oid with openFilesList := l } a el).free a

theorem Elements.forget (h : Elements none s)
    (ha : oidHashSearch s.oidHash oid = some a)
    (hel : s.heap.lookup a = some el) (l : List ℕ) :
    Elements none (s.forget env oid a el l) := by
  obtain ⟨hmem, el', hel', hid⟩ := h.search ha
  obtain rfl : el = el' := Option.some.inj (hel.symm.trans hel')
  have hunhash := (h.unhash ha).setList l
  refine (hunhash.closing hel).free fun e he => ?_
  rw [closing_oidHash] at he
  rintro rfl
  obtain ⟨el', hel', hid'⟩ := hunhash.element e he
  obtain rfl : el = el' := Option.some.inj (hel.symm.trans hel')
  exact h.notMem_unhash e he (hid'.symm.trans hid)

/-- The list that is left when an element is removed: it is taken off only if
it has a descriptor. -/
def Dropped (s : Store) (el : OidEl) (l : List ℕ) : Prop :=
  if el.fd = 0 then l = s.openFilesList
  else tclistDelete s.heap el s.openFilesList = .ok l

theorem removeOid_of_found (ha : oidHashSearch s.oidHash oid = some a) :
    removeOid env oid s = (dropOpen env a >>= fun _ => do
      modify fun s => { s with heap := s.heap.erase a }
      return true) (s.unhash oid) := by
  have hfind : findOid oid s = .ok (some a) s := by
    rw [findOid, get_bind, ha]
    rfl
  have hmodify : (modify fun s => { s with
      oidHash := s.oidHash.eraseP fun e => e.1 = oid } : StoreRoutine Unit) s =
        .ok () (s.unhash oid) := rfl
  rw [removeOid, bind_of_ok hfind]
  simp only
  rw [bind_of_ok hmodify]

theorem removeOid_of_dropped (ha : oidHashSearch s.oidHash oid = some a)
    (hel : s.heap.lookup a = some el) {l : List ℕ} (hl : Dropped s el l) :
    removeOid env oid s = .ok true (s.forget env oid a el l) := by
  have helu : oidEl a (s.unhash oid) = .ok el (s.unhash oid) := oidEl_ok hel
  rw [removeOid_of_found ha]
  rw [Dropped] at hl
  split_ifs at hl with hzero
  · have hdrop : dropOpen env a (s.unhash oid) = .ok () (s.unhash oid) := by
      rw [dropOpen, bind_of_ok helu, if_neg (not_not.mpr hzero)]
      rfl
    have hforget : s.forget env oid a el l = (s.unhash oid).free a := by
      unfold Store.forget Store.closing
      rw [if_pos hzero, hl]
      rfl
    rw [bind_of_ok hdrop, hforget]
    rfl
  · have hdrop : dropOpen env a (s.unhash oid) = .ok ()
        (Store.closing env { s.unhash oid with openFilesList := l } a el) := by
      rw [dropOpen, bind_of_ok helu, if_pos hzero]
      exact removeFromOpenFiles_eq (s := s.unhash oid) hel hl
    rw [bind_of_ok hdrop]
    rfl

/-- A pointer on the list to an element that was freed is followed. -/
theorem removeOid_of_dangling (ha : oidHashSearch s.oidHash oid = some a)
    (hel : s.heap.lookup a = some el) (hl : ∀ l, ¬ Dropped s el l) :
    removeOid env oid s = .error .badPointer (s.unhash oid) := by
  have helu : oidEl a (s.unhash oid) = .ok el (s.unhash oid) := oidEl_ok hel
  have hzero : el.fd ≠ 0 := fun hzero =>
    hl s.openFilesList (by rw [Dropped, if_pos hzero])
  have hdrop : dropOpen env a (s.unhash oid) =
      removeFromOpenFiles env a (s.unhash oid) := by
    rw [dropOpen, bind_of_ok helu, if_pos hzero]
  rw [removeOid_of_found ha]
  rcases removeFromOpenFiles_cases env a (s.unhash oid) with
    herror | ⟨el', l, hel', hl', -⟩
  · exact bind_of_error (hdrop.trans herror)
  · obtain rfl : el = el' := Option.some.inj (hel.symm.trans hel')
    exact absurd (by rw [Dropped, if_neg hzero]; exact hl') (hl l)

/-- The removal of an object that is not in the hash table. -/
theorem remove_of_none (ha : oidHashSearch s.oidHash oid = none) :
    SameOpen s ((sysioObjRemove env root oid).final s) := by
  have hfind : findOid oid s = .ok none s := by
    rw [findOid, get_bind, ha]
    rfl
  have hremove : removeOid env oid s = .ok false s := by
    rw [removeOid, bind_of_ok hfind]
    rfl
  have hobj : removeObjByOid env root oid s = .ok () s := by
    rw [removeObjByOid, bind_of_ok hremove]
    rfl
  have hfinal : (sysioObjRemove env root oid).final s =
      (rmAllAttrs env oid).final s := by
    simp only [sysioObjRemove, final, bind_of_ok hobj]
  rw [hfinal]
  exact rmAllAttrs_within sameOpen_attrs oid s

/-- A removal forgets the element, and unlinks the file if the host lets it. -/
theorem remove_of_dropped (env : Env Mac) (root : Path)
    (ha : oidHashSearch s.oidHash oid = some a)
    (hel : s.heap.lookup a = some el) {l : List ℕ} (hl : Dropped s el l) :
    ∃ t, (t = s.forget env oid a el l ∨
        t = (s.forget env oid a el l).unlink (fileName shortPath root oid)) ∧
      SameOpen t ((sysioObjRemove env root oid).final s) := by
  have hok : removeOid env oid s = .ok true (s.forget env oid a el l) :=
    removeOid_of_dropped ha hel hl
  let u := s.forget env oid a el l
  let t := if env.outcome u.calls ≠ .fail ∧
      fileName shortPath root oid ∈ u.files.names
    then u.unlink (fileName shortPath root oid) else u
  have ht : t = u ∨ t = u.unlink (fileName shortPath root oid) := by
    by_cases hgone : env.outcome u.calls ≠ .fail ∧
        fileName shortPath root oid ∈ u.files.names
    · exact .inr (if_pos hgone)
    · exact .inl (if_neg hgone)
  have hobj : SameOpen t ((removeObjByOid env root oid).final s) := by
    have hfinal : (removeObjByOid env root oid).final s =
        (sys env (fun o fs => fs.sysRemove o
          (fileName shortPath root oid)) >>= fun gone =>
            if gone then (pure () : StoreRoutine Unit)
            else throw (.code .errStorage)).final u := by
      simp only [removeObjByOid, final, bind_of_ok hok, Bool.true_eq_false,
        if_false]
      rfl
    have hsys : SameOpen t ((sys env (fun o fs => fs.sysRemove o
        (fileName shortPath root oid))).final u) := by
      simp only [t, sys, final, Files.sysRemove]
      split_ifs
      · exact ⟨rfl, rfl, rfl, rfl, rfl, fun _ => rfl⟩
      · exact ⟨rfl, rfl, rfl, rfl, rfl, fun _ => rfl⟩
    rw [hfinal]
    exact IsTrans.trans _ _ _ hsys (within_final_bind (fun gone =>
      within_ite (fun _ => within_pure _) fun _ => within_throw _) u)
  exact ⟨t, ht, IsTrans.trans _ _ _ hobj
    (within_final_bind (fun _ => rmAllAttrs_within sameOpen_attrs oid) s)⟩

/-- The server stops at the pointer. -/
theorem remove_of_dangling (ha : oidHashSearch s.oidHash oid = some a)
    (hel : s.heap.lookup a = some el) (hl : ∀ l, ¬ Dropped s el l) :
    survives ((sysioObjRemove env root oid).outcome s) = false := by
  have hobj : removeObjByOid env root oid s =
      .error .badPointer (s.unhash oid) :=
    bind_of_error (removeOid_of_dangling ha hel hl)
  have hremove : sysioObjRemove env root oid s =
      .error .badPointer (s.unhash oid) := bind_of_error hobj
  rw [outcome_of_error hremove]
  rfl

end Remove

end Lwfs.Storage
