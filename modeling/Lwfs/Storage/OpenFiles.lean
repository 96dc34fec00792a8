import Lwfs.Storage.SysioObj

/-!
The elements of the objects, and the list of open files.

The list can hold one element twice, and it can hold elements whose files are
not open. What stays true is a count: an element is on the list once or twice
while its file is open, and at most once while it is not. This is why opening
a file twice is enough: if the file that was just opened is closed again to
make room, its element is then on the list only once, in front, and the next
file to be closed is another one.
-/

namespace Lwfs.Storage

open SysLib

/-! ### Names of files -/

/-- The path of an object fits in the shorter buffer. -/
def Untruncated (root : Path) : Prop := root.length + 35 < shortPath

@[simp] theorem length_lwfsOidToString (oid : Oid) :
    (lwfsOidToString oid).length = 32 := by
  simp only [lwfsOidToString, oidWord, List.length_append, length_formatHex]

theorem fileName_eq {root : Path} (hroot : Untruncated root) {size : ℕ}
    (hsize : shortPath ≤ size) (oid : Oid) :
    fileName size root oid = root ++ ['/', '0', 'x'] ++ lwfsOidToString oid := by
  apply List.take_of_length_le
  simp only [List.length_append, List.length_cons, List.length_nil,
    length_lwfsOidToString]
  have : root.length + 35 < shortPath := hroot
  omega

/-- Both buffers hold the same path. -/
theorem fileName_longPath {root : Path} (hroot : Untruncated root) (oid : Oid) :
    fileName longPath root oid = fileName shortPath root oid := by
  rw [fileName_eq hroot (by decide), fileName_eq hroot (Nat.le_refl _)]

theorem oidWord_inj {oid oid' : Oid} {i : ℕ} (hi : i < 4)
    (h : oidWord oid i = oidWord oid' i) :
    (oid.bytes.drop (4 * i)).take 4 = (oid'.bytes.drop (4 * i)).take 4 := by
  have hlen : ∀ o : Oid, ((o.bytes.drop (4 * i)).take 4).length = 4 := by
    intro o
    have : o.bytes.length = 16 := o.length_eq
    rw [List.length_take, List.length_drop]
    omega
  have hlt : ∀ o : Oid,
      Bytes.toNat ((o.bytes.drop (4 * i)).take 4) < 16 ^ 8 := by
    intro o
    have hbound := Bytes.toNat_lt ((o.bytes.drop (4 * i)).take 4)
    rwa [hlen o] at hbound
  exact Bytes.toNat_inj ((hlen oid).trans (hlen oid').symm)
    (formatHex_inj (hlt oid) (hlt oid') h)

theorem lwfsOidToString_inj {oid oid' : Oid}
    (h : lwfsOidToString oid = lwfsOidToString oid') : oid = oid' := by
  have hlen : ∀ o i, (oidWord o i).length = 8 := fun o i =>
    length_formatHex 8 _
  simp only [lwfsOidToString] at h
  obtain ⟨h, h3⟩ := List.append_inj' h ((hlen _ _).trans (hlen _ _).symm)
  obtain ⟨h, h2⟩ := List.append_inj' h ((hlen _ _).trans (hlen _ _).symm)
  obtain ⟨h0, h1⟩ := List.append_inj' h ((hlen _ _).trans (hlen _ _).symm)
  have hword : ∀ i < 4, oidWord oid i = oidWord oid' i := by
    intro i hi
    obtain rfl | rfl | rfl | rfl : i = 0 ∨ i = 1 ∨ i = 2 ∨ i = 3 := by omega
    · exact h0
    · exact h1
    · exact h2
    · exact h3
  apply Octets.ext
  apply List.ext_getElem?
  intro i
  by_cases hi : i < 16
  · -- byte `i` is byte `i % 4` of word `i / 4`
    have hw := oidWord_inj (by omega) (hword (i / 4) (by omega))
    have hbyte := congrArg (fun w => w[i % 4]?) hw
    simp only [List.getElem?_take, List.getElem?_drop,
      if_pos (Nat.mod_lt i (by decide : 0 < 4)), Nat.div_add_mod] at hbyte
    exact hbyte
  · have ho : oid.bytes.length = 16 := oid.length_eq
    have ho' : oid'.bytes.length = 16 := oid'.length_eq
    rw [List.getElem?_eq_none (by omega), List.getElem?_eq_none (by omega)]

theorem fileName_inj {root : Path} (hroot : Untruncated root) {oid oid' : Oid}
    (h : fileName shortPath root oid = fileName shortPath root oid') :
    oid = oid' := by
  rw [fileName_eq hroot (Nat.le_refl _), fileName_eq hroot (Nat.le_refl _)] at h
  exact lwfsOidToString_inj (List.append_cancel_left h)

/-! ### What holds of the elements -/

/-- How the elements, the hash table, the list and the files of the host hang
together. An element that has a descriptor has that of the file of its
object. -/
structure Linked (root : Path) (s : Store) : Prop where
  keys : (s.oidHash.map Prod.fst).Nodup
  element : ∀ e ∈ s.oidHash, ∃ el, s.heap.lookup e.2 = some el ∧ el.id = e.1
  tracked : ∀ a el, s.heap.lookup a = some el → (el.id, a) ∈ s.oidHash
  fresh : ∀ a ∈ s.heap, a < s.nextEl
  listed : ∀ a ∈ s.openFilesList, a ∈ s.heap
  named : ∀ path, path ∈ s.files.names ↔
    ∃ e ∈ s.oidHash, path = fileName shortPath root e.1
  inode_lt : ∀ path i, s.files.names.lookup path = some i →
    i < s.files.nextInode
  inode_inj : ∀ p q i, s.files.names.lookup p = some i →
    s.files.names.lookup q = some i → p = q
  opened : ∀ a el, s.heap.lookup a = some el → el.fd ≠ 0 →
    el.mode = Mode.rPlus ∧ ∃ f, s.files.fds.lookup el.fd = some f ∧
      s.files.names.lookup (fileName shortPath root el.id) = some f.inode

/-- How often the elements are on the list. The element that is about to be
put on it, if there is one, is counted already. -/
def Counted (pending : Option ℕ) (s : Store) : Prop :=
  ∀ a el, s.heap.lookup a = some el →
    let n := s.openFilesList.count a + if pending = some a then 1 else 0
    if el.fd = 0 then n ≤ 1 else 1 ≤ n ∧ n ≤ 2

/-- What holds between two requests. -/
structure Consistent (root : Path) (s : Store) : Prop where
  linked : Linked root s
  counted : Counted none s
  length_le : s.openFilesList.length ≤ maxOpenFiles

/-- The names, the contents and the objects are the same. -/
structure SameData (s t : Store) : Prop where
  names : t.files.names = s.files.names
  contents : t.files.contents = s.files.contents
  oidHash : t.oidHash = s.oidHash

theorem SameData.refl (s : Store) : SameData s s := ⟨rfl, rfl, rfl⟩

theorem SameData.trans {s t u : Store} (hst : SameData s t)
    (htu : SameData t u) : SameData s u :=
  ⟨htu.names.trans hst.names, htu.contents.trans hst.contents,
    htu.oidHash.trans hst.oidHash⟩

/-- `tclist_delete` takes off the first occurrence of an element if no other
element of the list has its contents. -/
theorem tclistDelete_of_inj {heap : Table ℕ OidEl} {a : ℕ} {el : OidEl}
    (ha : heap.lookup a = some el) {l : List ℕ} (hl : ∀ b ∈ l, b ∈ heap)
    (hinj : ∀ b ∈ l, heap.lookup b = some el → b = a) :
    tclistDelete heap el l = .ok (l.erase a) := by
  induction l with
  | nil => rfl
  | cons b l ih =>
      obtain ⟨el', hb⟩ := Table.mem_iff_lookup.mp (hl b List.mem_cons_self)
      rw [tclistDelete, hb]
      by_cases hab : b = a
      · subst hab
        rw [ha, Option.some.injEq] at hb
        subst hb
        simp only [if_true, List.erase_cons_head]
      · have hne : el' ≠ el := by
          rintro rfl
          exact hab (hinj b List.mem_cons_self hb)
        simp only [if_neg hne]
        rw [ih (fun c hc => hl c (List.mem_cons_of_mem b hc))
            fun c hc => hinj c (List.mem_cons_of_mem b hc),
          List.erase_cons_tail (by simpa using hab)]
        rfl

section Linked

variable {root : Path} {s : Store}

/-- Two elements are not about the same object. -/
theorem Linked.id_inj (h : Linked root s) {a b : ℕ} {el el' : OidEl}
    (ha : s.heap.lookup a = some el) (hb : s.heap.lookup b = some el')
    (hid : el.id = el'.id) : a = b := by
  have hmem := h.tracked a el ha
  have hmem' := h.tracked b el' hb
  have heq := List.inj_on_of_nodup_map h.keys hmem hmem' hid
  exact congrArg Prod.snd heq

/-- Two elements do not share a descriptor. -/
theorem Linked.fd_inj (hroot : Untruncated root) (h : Linked root s) {a b : ℕ}
    {el el' : OidEl} (ha : s.heap.lookup a = some el)
    (hb : s.heap.lookup b = some el') (hopen : el.fd ≠ 0)
    (hfd : el.fd = el'.fd) : a = b := by
  obtain ⟨-, f, hf, hname⟩ := h.opened a el ha hopen
  obtain ⟨-, f', hf', hname'⟩ := h.opened b el' hb (hfd ▸ hopen)
  rw [← hfd, hf, Option.some.injEq] at hf'
  subst hf'
  exact h.id_inj ha hb (fileName_inj hroot (h.inode_inj _ _ _ hname hname'))

/-- An object that is in the hash table has an element. -/
theorem Linked.search (h : Linked root s) {oid : Oid} {a : ℕ}
    (ha : oidHashSearch s.oidHash oid = some a) :
    ∃ el, s.heap.lookup a = some el ∧ el.id = oid := by
  simp only [oidHashSearch, Option.map_eq_some_iff] at ha
  obtain ⟨e, he, rfl⟩ := ha
  have hid : e.1 = oid := by simpa using List.find?_some he
  obtain ⟨el, hel, heq⟩ := h.element e (List.mem_of_find?_eq_some he)
  exact ⟨el, hel, heq.trans hid⟩

/-- An element stays the element of its object while the objects stay the
same. -/
theorem Linked.follow {t : Store} (h : Linked root s) (ht : Linked root t)
    (hsame : SameData s t) {a : ℕ} {el : OidEl}
    (ha : s.heap.lookup a = some el) :
    ∃ el', t.heap.lookup a = some el' ∧ el'.id = el.id := by
  have hmem := h.tracked a el ha
  rw [← hsame.oidHash] at hmem
  exact ht.element _ hmem

/-- The elements of the list are told apart by their contents, so
`tclist_delete` takes off the first occurrence of the element it is given. -/
theorem Linked.tclistDelete_eq (h : Linked root s) {a : ℕ} {el : OidEl}
    (ha : s.heap.lookup a = some el) {l : List ℕ} (hl : ∀ b ∈ l, b ∈ s.heap) :
    tclistDelete s.heap el l = .ok (l.erase a) :=
  tclistDelete_of_inj ha hl fun _ _ hb => h.id_inj hb ha rfl

end Linked

/-! ### The list of open files -/

section List

variable {Mac : Type} {env : Env Mac} {root : Path} {s : Store}

theorem sys_ok {α : Type} (call : Outcome → Files → α × Files)
    (hok : ∀ n, env.outcome n = .ok) :
    sys env call s = .ok (call .ok s.files).1
      { s with files := (call .ok s.files).2, calls := s.calls + 1 } := by
  simp only [sys, hok]

theorem oidEl_ok {a : ℕ} {el : OidEl} (ha : s.heap.lookup a = some el) :
    oidEl a s = .ok el s := by
  simp only [oidEl, Routine.get_bind, ha]
  rfl

/-- What closing the file of an element leaves in it. -/
def OidEl.closed (el : OidEl) : OidEl :=
  { el with fd := 0, mode := { el.mode with c0 := '\x00' } }

/-- The state after the file of an open element has been closed. -/
def Store.close (s : Store) (a : ℕ) (el : OidEl) : Store :=
  { s with
    files := { s.files with fds := s.files.fds.erase el.fd }
    heap := s.heap.insert a el.closed
    calls := s.calls + 1 }

/-- Closing the file of an element does nothing if it is not open. -/
theorem closeTheOpenFile_ok (hok : ∀ n, env.outcome n = .ok)
    (h : Linked root s) {a : ℕ} {el : OidEl}
    (ha : s.heap.lookup a = some el) :
    closeTheOpenFile env a s =
      .ok () (if el.fd = 0 then s else s.close a el) := by
  rw [closeTheOpenFile, Routine.bind_of_ok (oidEl_ok ha)]
  by_cases hfd : el.fd = 0
  · rw [if_pos hfd, if_pos hfd]
    rfl
  · obtain ⟨-, f, hf, -⟩ := h.opened a el ha hfd
    have hclose : s.files.sysClose .ok el.fd =
        (true, { s.files with fds := s.files.fds.erase el.fd }) :=
      if_pos ⟨by decide, Table.mem_of_lookup hf⟩
    rw [if_neg hfd, if_neg hfd, Routine.bind_of_ok (sys_ok _ hok), hclose]
    rfl

theorem linked_close (hroot : Untruncated root) (h : Linked root s) {a : ℕ}
    {el : OidEl} (ha : s.heap.lookup a = some el) :
    Linked root (s.close a el) where
  keys := h.keys
  element := by
    intro e he
    obtain ⟨el', hel', hid⟩ := h.element e he
    by_cases hea : e.2 = a
    · rw [hea, ha, Option.some.injEq] at hel'
      subst hel'
      exact ⟨el.closed, by rw [hea]; exact AList.lookup_insert _, hid⟩
    · exact ⟨el', by rwa [Store.close, AList.lookup_insert_ne hea], hid⟩
  tracked := by
    intro b el' hb
    by_cases hba : b = a
    · subst hba
      rw [Store.close, AList.lookup_insert, Option.some.injEq] at hb
      subst hb
      exact h.tracked b el ha
    · rw [Store.close, AList.lookup_insert_ne hba] at hb
      exact h.tracked b el' hb
  fresh := by
    intro b hb
    obtain rfl | hb := AList.mem_insert _ |>.mp hb
    · exact h.fresh b (Table.mem_of_lookup ha)
    · exact h.fresh b hb
  listed := fun b hb => AList.mem_insert _ |>.mpr (.inr (h.listed b hb))
  named := h.named
  inode_lt := h.inode_lt
  inode_inj := h.inode_inj
  opened := by
    intro b el' hb hopen
    by_cases hba : b = a
    · subst hba
      rw [Store.close, AList.lookup_insert, Option.some.injEq] at hb
      subst hb
      exact absurd rfl hopen
    · rw [Store.close, AList.lookup_insert_ne hba] at hb
      obtain ⟨hmode, f, hf, hname⟩ := h.opened b el' hb hopen
      have hne : el'.fd ≠ el.fd := fun heq =>
        hba (h.fd_inj hroot hb ha hopen heq)
      refine ⟨hmode, f, ?_, hname⟩
      show (s.files.fds.erase el.fd).lookup el'.fd = some f
      rw [AList.lookup_erase_ne hne]
      exact hf

theorem Linked.setList (h : Linked root s) {l : List ℕ}
    (hl : ∀ b ∈ l, b ∈ s.heap) :
    Linked root { s with openFilesList := l } where
  keys := h.keys
  element := h.element
  tracked := h.tracked
  fresh := h.fresh
  listed := hl
  named := h.named
  inode_lt := h.inode_lt
  inode_inj := h.inode_inj
  opened := h.opened

/-- Taking an element off the list closes its file, and its count is one
less. -/
theorem removeFromOpenFiles_ok (hok : ∀ n, env.outcome n = .ok)
    (hroot : Untruncated root) (h : Linked root s) {p : Option ℕ}
    (hc : Counted p s) {a : ℕ} (hmem : a ∈ s.openFilesList) :
    ∃ t, removeFromOpenFiles env a s = .ok () t ∧ Linked root t ∧
      Counted p t ∧ SameData s t ∧
      t.openFilesList = s.openFilesList.erase a ∧
      ∀ b, b ≠ a → t.heap.lookup b = s.heap.lookup b := by
  obtain ⟨el, ha⟩ := Table.mem_iff_lookup.mp (h.listed a hmem)
  let u : Store := { s with openFilesList := s.openFilesList.erase a }
  have hu : Linked root u :=
    h.setList fun b hb => h.listed b (List.mem_of_mem_erase hb)
  have hself : (s.openFilesList.erase a).count a + 1 =
      s.openFilesList.count a := by
    have := List.count_pos_iff.mpr hmem
    rw [List.count_erase_self]
    omega
  have hother : ∀ b, b ≠ a → (s.openFilesList.erase a).count b =
      s.openFilesList.count b := fun b hb => List.count_erase_of_ne hb
  have hrun : removeFromOpenFiles env a s =
      .ok () (if el.fd = 0 then u else u.close a el) := by
    rw [removeFromOpenFiles, Routine.bind_of_ok (oidEl_ok ha),
      Routine.reader_bind_ok
        (f := fun s : Store => tclistDelete s.heap el s.openFilesList)
        (h.tclistDelete_eq ha h.listed)]
    exact closeTheOpenFile_ok hok hu ha
  have hcount := hc a el ha
  refine ⟨_, hrun, ?_⟩
  by_cases hfd : el.fd = 0
  · rw [if_pos hfd] at hcount ⊢
    refine ⟨hu, ?_, ⟨rfl, rfl, rfl⟩, rfl, fun b _ => rfl⟩
    intro b el' hb
    by_cases hba : b = a
    · subst hba
      obtain rfl : el = el' := Option.some.inj (ha.symm.trans hb)
      simp only [hfd, if_true, u] at hcount ⊢
      omega
    · have hcb := hc b el' hb
      simp only [u, hother b hba]
      exact hcb
  · rw [if_neg hfd] at hcount ⊢
    refine ⟨linked_close hroot hu ha, ?_, ⟨rfl, rfl, rfl⟩, rfl, ?_⟩
    · intro b el' hb
      by_cases hba : b = a
      · subst hba
        obtain rfl : el.closed = el' := by
          rw [Store.close, AList.lookup_insert] at hb
          exact Option.some.inj hb
        simp only [OidEl.closed, if_true, Store.close, u] at hcount ⊢
        omega
      · rw [Store.close, AList.lookup_insert_ne hba] at hb
        have hcb := hc b el' hb
        simp only [Store.close, u, hother b hba]
        exact hcb
    · intro b hba
      exact AList.lookup_insert_ne hba

/-- Putting the pending element on the list. -/
theorem linked_unshift (h : Linked root s) {a : ℕ} (ha : a ∈ s.heap) :
    Linked root { s with openFilesList := a :: s.openFilesList } := by
  apply h.setList
  intro b hb
  obtain rfl | hb := List.mem_cons.mp hb
  · exact ha
  · exact h.listed b hb

theorem counted_unshift {a : ℕ} (hc : Counted (some a) s) :
    Counted none { s with openFilesList := a :: s.openFilesList } := by
  intro b el hb
  have hcb := hc b el hb
  by_cases hba : b = a
  · subst hba
    simp only [List.count_cons_self, if_true] at hcb ⊢
    simpa using hcb
  · simp only [List.count_cons_of_ne (Ne.symm hba), Option.some.injEq,
      if_neg (Ne.symm hba)] at hcb ⊢
    simpa using hcb

/-- What `add_to_open_files` leaves: the element is in front of the list, and
it keeps its file unless it was also at the end of a full list. -/
theorem addToOpenFiles_ok (hok : ∀ n, env.outcome n = .ok)
    (hroot : Untruncated root) (h : Linked root s) {a : ℕ}
    (hc : Counted (some a) s) (hlen : s.openFilesList.length ≤ maxOpenFiles)
    (ha : a ∈ s.heap) :
    ∃ t, addToOpenFiles env a s = .ok () t ∧ Consistent root t ∧
      SameData s t ∧ (∃ rest, t.openFilesList = a :: rest) ∧
      a ∈ t.heap ∧
      (s.openFilesList.length < maxOpenFiles ∨
          s.openFilesList.getLastD 0 ≠ a →
        t.heap.lookup a = s.heap.lookup a) := by
  by_cases hfull : s.openFilesList.length < maxOpenFiles
  · have hrun : addToOpenFiles env a s =
        .ok () { s with openFilesList := a :: s.openFilesList } := by
      simp only [addToOpenFiles, Routine.get_bind, if_pos hfull]
      rfl
    exact ⟨_, hrun, ⟨linked_unshift h ha, counted_unshift hc, hfull⟩,
      ⟨rfl, rfl, rfl⟩, ⟨_, rfl⟩, ha, fun _ => rfl⟩
  · -- the list is full, so the file of its last element is closed
    have heq : s.openFilesList.length = maxOpenFiles := by omega
    have hne : s.openFilesList ≠ [] := by
      intro hnil
      rw [hnil] at heq
      cases heq
    have hlast : s.openFilesList.getLastD 0 ∈ s.openFilesList := by
      rw [List.getLastD_eq_getLast?, List.getLast?_eq_some_getLast hne]
      exact List.getLast_mem hne
    obtain ⟨u, hrun, hu, hcu, hsame, hlist, hheap⟩ :=
      removeFromOpenFiles_ok hok hroot h hc hlast
    have hulen : u.openFilesList.length < maxOpenFiles := by
      rw [hlist, List.length_erase_of_mem hlast, heq]
      decide
    have hau : a ∈ u.heap := by
      obtain ⟨el, hel⟩ := Table.mem_iff_lookup.mp ha
      obtain ⟨el', hel', -⟩ := h.follow hu hsame hel
      exact Table.mem_of_lookup hel'
    have hadd : addToOpenFiles env a s =
        .ok () { u with openFilesList := a :: u.openFilesList } := by
      simp only [addToOpenFiles, Routine.get_bind, if_neg hfull, if_pos heq]
      rw [Routine.bind_of_ok hrun]
      rfl
    refine ⟨_, hadd, ⟨linked_unshift hu hau, counted_unshift hcu, hulen⟩,
      ⟨hsame.names, hsame.contents, hsame.oidHash⟩, ⟨_, rfl⟩, hau, ?_⟩
    rintro (hlt | hlast)
    · exact absurd hlt hfull
    · exact hheap a hlast.symm

end List

/-! ### Opening the file of an object -/

section Open

variable {Mac : Type} {env : Env Mac} {root : Path} {s : Store}

/-- The state after the file of an element has been opened. -/
def Store.open (s : Store) (a : ℕ) (el : OidEl) (fd : ℤ) (inode : ℕ) : Store :=
  { s with
    files := { s.files with fds := s.files.fds.insert fd ⟨inode, 0⟩ }
    heap := s.heap.insert a { el with fd := fd, mode := Mode.rPlus }
    calls := s.calls + 1 }

theorem linked_open (h : Linked root s) {a : ℕ} {el : OidEl}
    (ha : s.heap.lookup a = some el) {fd : ℤ} {inode : ℕ}
    (hfd : fd ∉ s.files.fds)
    (hname : s.files.names.lookup (fileName shortPath root el.id) =
      some inode) :
    Linked root (s.open a el fd inode) where
  keys := h.keys
  element := by
    intro e he
    obtain ⟨el', hel', hid⟩ := h.element e he
    by_cases hea : e.2 = a
    · rw [hea, ha, Option.some.injEq] at hel'
      subst hel'
      exact ⟨{ el with fd := fd, mode := Mode.rPlus },
        by rw [hea]; exact AList.lookup_insert _, hid⟩
    · exact ⟨el', by rwa [Store.open, AList.lookup_insert_ne hea], hid⟩
  tracked := by
    intro b el' hb
    by_cases hba : b = a
    · subst hba
      rw [Store.open, AList.lookup_insert, Option.some.injEq] at hb
      subst hb
      exact h.tracked b el ha
    · rw [Store.open, AList.lookup_insert_ne hba] at hb
      exact h.tracked b el' hb
  fresh := by
    intro b hb
    obtain rfl | hb := AList.mem_insert _ |>.mp hb
    · exact h.fresh b (Table.mem_of_lookup ha)
    · exact h.fresh b hb
  listed := fun b hb => AList.mem_insert _ |>.mpr (.inr (h.listed b hb))
  named := h.named
  inode_lt := h.inode_lt
  inode_inj := h.inode_inj
  opened := by
    intro b el' hb hopen
    by_cases hba : b = a
    · subst hba
      rw [Store.open, AList.lookup_insert, Option.some.injEq] at hb
      subst hb
      exact ⟨rfl, ⟨inode, 0⟩, AList.lookup_insert _, hname⟩
    · rw [Store.open, AList.lookup_insert_ne hba] at hb
      obtain ⟨hmode, f, hf, hname'⟩ := h.opened b el' hb hopen
      -- the new descriptor is not in use
      have hne : el'.fd ≠ fd := by
        rintro rfl
        exact hfd (Table.mem_of_lookup hf)
      refine ⟨hmode, f, ?_, hname'⟩
      show (s.files.fds.insert fd _).lookup el'.fd = some f
      rw [AList.lookup_insert_ne hne]
      exact hf

theorem counted_open (hc : Counted none s) {a : ℕ} {el : OidEl}
    (ha : s.heap.lookup a = some el) (hzero : el.fd = 0) {fd : ℤ}
    (hfd : 0 < fd) (inode : ℕ) : Counted (some a) (s.open a el fd inode) := by
  intro b el' hb
  by_cases hba : b = a
  · subst hba
    rw [Store.open, AList.lookup_insert, Option.some.injEq] at hb
    subst hb
    have hcount := hc b el ha
    rw [if_pos hzero] at hcount
    simp only [reduceCtorEq, if_false] at hcount
    show if fd = 0 then _ else _
    rw [if_neg (by omega)]
    simp only [Store.open, if_true]
    omega
  · rw [Store.open, AList.lookup_insert_ne hba] at hb
    have hcb := hc b el' hb
    simp only [Store.open, Option.some.injEq, if_neg (Ne.symm hba)]
    simpa using hcb

/-- The element has a file that is open. -/
def Ready (a : ℕ) (s : Store) : Prop :=
  ∃ el, s.heap.lookup a = some el ∧ el.fd ≠ 0

/-- The element is in front of the list. -/
def InFront (a : ℕ) (s : Store) : Prop := ∃ rest, s.openFilesList = a :: rest

variable (hok : ∀ n, env.outcome n = .ok) (hroot : Untruncated root)

include hok hroot

/-- Opening the file of an element whose file is not open. -/
theorem openElement_ok (h : Consistent root s) {a : ℕ} {el : OidEl}
    (ha : s.heap.lookup a = some el) (hzero : el.fd = 0) (path : Path)
    (hpath : path = fileName shortPath root el.id) :
    ∃ t, openElement env a path s = .ok true t ∧ Consistent root t ∧
      SameData s t ∧ InFront a t ∧
      (s.openFilesList.length < maxOpenFiles ∨
          s.openFilesList.getLastD 0 ≠ a → Ready a t) := by
  have hmem : path ∈ s.files.names :=
    (h.linked.named path).mpr ⟨_, h.linked.tracked a el ha, hpath⟩
  obtain ⟨inode, hname⟩ := Table.mem_iff_lookup.mp hmem
  have hpos := env.newFd_pos s.files.fds
  let u : Store := { s with
    files := { s.files with
      fds := s.files.fds.insert (env.newFd s.files.fds) ⟨inode, 0⟩ }
    calls := s.calls + 1 }
  have hsys : sys env (fun o fs => fs.sysOpen env.toFdRule o path) s =
      .ok (env.newFd s.files.fds) u := by
    rw [sys_ok _ hok]
    simp only [Files.sysOpen, hname, reduceCtorEq, if_false, u]
  have hel : oidEl a u = .ok el u := oidEl_ok ha
  have hset : setOidEl a { el with
        fd := env.newFd s.files.fds, mode := Mode.rPlus } u =
      .ok () (s.open a el (env.newFd s.files.fds) inode) := rfl
  have hlinked := linked_open h.linked ha (env.newFd_fresh s.files.fds)
    (hpath ▸ hname)
  have hcounted := counted_open h.counted ha hzero hpos inode
  obtain ⟨t, hadd, ht, hsame, hfront, -, hkeep⟩ :=
    addToOpenFiles_ok hok hroot hlinked hcounted h.length_le
      (AList.mem_insert _ |>.mpr (.inl rfl))
  refine ⟨t, ?_, ht, ⟨hsame.names, hsame.contents, hsame.oidHash⟩, hfront, ?_⟩
  · rw [openElement, Routine.bind_of_ok hsys, Routine.bind_of_ok hel,
      if_neg (by omega), Routine.bind_of_ok hset, Routine.bind_of_ok hadd]
    rfl
  · intro hguard
    have hlookup := hkeep hguard
    rw [Store.open, AList.lookup_insert] at hlookup
    exact ⟨_, hlookup, by
      show env.newFd s.files.fds ≠ 0
      omega⟩

/-- `open_oid` finds the element of an object. Its file is open, or its
element is in front of the list. -/
theorem openOid_ok (h : Consistent root s) {oid : Oid} {a : ℕ}
    (ha : oidHashSearch s.oidHash oid = some a) :
    ∃ t, openOid env root oid s = .ok (some a) t ∧ Consistent root t ∧
      SameData s t ∧ (Ready a t ∨ InFront a t) := by
  obtain ⟨el, hel, hid⟩ := h.linked.search ha
  have hfind : findOid oid s = .ok (some a) s := by
    rw [findOid, Routine.get_bind, ha]
    rfl
  rw [openOid, Routine.bind_of_ok hfind]
  simp only
  rw [Routine.bind_of_ok (oidEl_ok hel)]
  by_cases hzero : el.fd = 0
  · obtain ⟨t, hrun, ht, hsame, hfront, -⟩ :=
      openElement_ok hok hroot h hel hzero (fileName longPath root oid)
        (by rw [hid, fileName_longPath hroot])
    refine ⟨t, ?_, ht, hsame, .inr hfront⟩
    rw [if_pos hzero, Routine.bind_of_ok hrun]
    rfl
  · rw [if_neg hzero]
    exact ⟨s, rfl, h, .refl s, .inl ⟨el, hel, hzero⟩⟩

/-- After `open_oid`, the file of the object is open, or opening it once more
is enough: its element is on the list only once then, in front, so the file
that is closed to make room is that of another object. -/
theorem reopen_ok (h : Consistent root s) {canUse : Mode → Bool}
    (hmode : canUse Mode.rPlus = true) {oid : Oid} {a : ℕ} {el : OidEl}
    (ha : s.heap.lookup a = some el) (hid : el.id = oid)
    (hready : Ready a s ∨ InFront a s) :
    ∃ t, reopen env root canUse oid a s = .ok true t ∧ Consistent root t ∧
      SameData s t ∧ Ready a t := by
  have hdrop : dropUnusable env canUse a s = .ok () s := by
    rw [dropUnusable, Routine.bind_of_ok (oidEl_ok ha), if_neg]
    · rfl
    · rintro ⟨hfd, hno⟩
      rw [(h.linked.opened a el ha hfd).1, hmode] at hno
      cases hno
  rw [reopen, Routine.bind_of_ok hdrop, Routine.bind_of_ok (oidEl_ok ha)]
  by_cases hzero : el.fd = 0
  · rw [if_pos hzero]
    obtain ⟨rest, hlist⟩ : InFront a s := by
      obtain ⟨el', hel', hne⟩ | hfront := hready
      · obtain rfl : el = el' := Option.some.inj (ha.symm.trans hel')
        exact absurd hzero hne
      · exact hfront
    obtain ⟨t, hrun, ht, hsame, -, hopen⟩ :=
      openElement_ok hok hroot h ha hzero (fileName shortPath root oid)
        (by rw [hid])
    refine ⟨t, hrun, ht, hsame, hopen ?_⟩
    by_cases hfull : s.openFilesList.length < maxOpenFiles
    · exact .inl hfull
    · right
      have hcount := h.counted a el ha
      rw [if_pos hzero, hlist, List.count_cons_self] at hcount
      have hnot : a ∉ rest := by
        apply List.count_eq_zero.mp
        simp only [reduceCtorEq, if_false] at hcount
        omega
      have hne : rest ≠ [] := by
        rintro rfl
        rw [hlist] at hfull
        have hone : 1 < maxOpenFiles := by decide
        exact hfull hone
      rw [hlist, List.getLastD_eq_getLast?, List.getLast?_cons_of_ne_nil hne,
        List.getLast?_eq_some_getLast hne]
      rintro rfl
      exact hnot (List.getLast_mem hne)
  · rw [if_neg hzero]
    exact ⟨s, rfl, h, .refl s, el, ha, hzero⟩

end Open

end Lwfs.Storage
