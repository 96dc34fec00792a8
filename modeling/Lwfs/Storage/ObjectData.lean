import Lwfs.Storage.OpenFiles
import Lwfs.Storage.Server

/-!
Objects as arrays of bytes.

The storage server keeps the bytes of an object in a file, opens and closes
the file as it sees fit, and reads and writes it through a descriptor. To its
clients an object is an array of bytes, and the descriptors do not show.
-/

namespace Lwfs.Storage

open SysLib

/-- The bytes of an object, if it exists. -/
def Store.object (root : Path) (s : Store) (oid : Oid) : Option (List UInt8) :=
  (oidHashSearch s.oidHash oid).bind fun _ =>
    (s.files.names.lookup (fileName shortPath root oid)).map s.files.contents

theorem SameData.object_eq {root : Path} {s t : Store} (h : SameData s t) :
    t.object root = s.object root := by
  funext oid
  simp only [Store.object, h.names, h.contents, h.oidHash]

section Data

variable {Mac : Type} {env : Env Mac} {root : Path} {s : Store}

/-- The state after the position of an open file has changed. -/
def Store.seek (s : Store) (fd : ℤ) (f : OpenFile) (pos : ℕ) : Store :=
  { s with
    files := { s.files with fds := s.files.fds.insert fd { f with pos := pos } }
    calls := s.calls + 1 }

theorem consistent_seek (h : Consistent root s) {fd : ℤ} {f : OpenFile}
    (hf : s.files.fds.lookup fd = some f) (pos : ℕ) :
    Consistent root (s.seek fd f pos) where
  linked := {
    keys := h.linked.keys
    element := h.linked.element
    tracked := h.linked.tracked
    fresh := h.linked.fresh
    listed := h.linked.listed
    named := h.linked.named
    inode_lt := h.linked.inode_lt
    inode_inj := h.linked.inode_inj
    opened := by
      intro a el ha hopen
      obtain ⟨hmode, f', hf', hname⟩ := h.linked.opened a el ha hopen
      refine ⟨hmode, ?_⟩
      by_cases hfd : el.fd = fd
      · rw [hfd, hf, Option.some.injEq] at hf'
        subst hf'
        refine ⟨{ f with pos := pos }, ?_, hname⟩
        rw [hfd]
        exact AList.lookup_insert _
      · refine ⟨f', ?_, hname⟩
        show (s.files.fds.insert fd _).lookup el.fd = some f'
        rw [AList.lookup_insert_ne hfd]
        exact hf' }
  counted := h.counted
  length_le := h.length_le

/-- Neither the contents of the files nor the attributes matter to the
elements. -/
theorem Consistent.of_eq {t : Store} (h : Consistent root s)
    (hnames : t.files.names = s.files.names)
    (hinode : t.files.nextInode = s.files.nextInode)
    (hfds : t.files.fds = s.files.fds) (hheap : t.heap = s.heap)
    (hnext : t.nextEl = s.nextEl) (hhash : t.oidHash = s.oidHash)
    (hlist : t.openFilesList = s.openFilesList) : Consistent root t := by
  obtain ⟨⟨names, contents, nextInode, fds⟩, attrs, heap, nextEl, oidHash,
    list, calls⟩ := t
  simp only at hnames hinode hfds hheap hnext hhash hlist
  subst hnames hinode hfds hheap hnext hhash hlist
  have hl := h.linked
  exact ⟨⟨hl.keys, hl.element, hl.tracked, hl.fresh, hl.listed, hl.named,
    hl.inode_lt, hl.inode_inj, hl.opened⟩, h.counted, h.length_le⟩

theorem object_of_search (h : Consistent root s) {oid : Oid} {a : ℕ}
    (ha : oidHashSearch s.oidHash oid = some a) :
    ∃ inode, s.files.names.lookup (fileName shortPath root oid) = some inode ∧
      s.object root oid = some (s.files.contents inode) := by
  obtain ⟨el, hel, hid⟩ := h.linked.search ha
  have hmem : fileName shortPath root oid ∈ s.files.names :=
    (h.linked.named _).mpr ⟨_, h.linked.tracked a el hel, by rw [hid]⟩
  obtain ⟨inode, hname⟩ := Table.mem_iff_lookup.mp hmem
  refine ⟨inode, hname, ?_⟩
  rw [Store.object, ha, Option.bind_some, hname, Option.map_some]

/-- The files of two objects are not the same. -/
theorem object_update (hroot : Untruncated root) (h : Consistent root s) {oid : Oid} {inode : ℕ}
    {c : List UInt8} (hc : s.object root oid = some c)
    (hname : s.files.names.lookup (fileName shortPath root oid) = some inode)
    (c' : List UInt8) {t : Store} (hnames : t.files.names = s.files.names)
    (hhash : t.oidHash = s.oidHash)
    (hcontents : t.files.contents = Function.update s.files.contents inode c') :
    t.object root = Function.update (s.object root) oid (some c') := by
  funext oid'
  obtain ⟨a, ha, -⟩ := Option.bind_eq_some_iff.mp hc
  by_cases hoid : oid' = oid
  · subst hoid
    rw [Function.update_self, Store.object, hhash, ha, Option.bind_some, hnames,
      hname, Option.map_some, hcontents, Function.update_self]
  · rw [Function.update_of_ne hoid, Store.object, Store.object, hhash, hnames,
      hcontents]
    congr 1
    funext _
    cases hother : s.files.names.lookup (fileName shortPath root oid') with
    | none => rfl
    | some inode' =>
        have hne : inode' ≠ inode := by
          rintro rfl
          exact hoid (fileName_inj hroot
            (h.linked.inode_inj _ _ _ hother hname))
        rw [Option.map_some, Option.map_some, Function.update_of_ne hne]

/-- The state after the file and the element of a new object have been made.
The descriptor of `creat` has been closed again. -/
def Store.create (root : Path) (fd : ℤ) (s : Store) (oid : Oid) : Store :=
  { s with
    files :=
      { names := s.files.names.insert (fileName shortPath root oid)
          s.files.nextInode
        contents := Function.update s.files.contents s.files.nextInode []
        nextInode := s.files.nextInode + 1
        fds := (s.files.fds.insert fd ⟨s.files.nextInode, 0⟩).erase fd }
    heap := s.heap.insert s.nextEl ⟨0, oid, Mode.zero⟩
    nextEl := s.nextEl + 1
    oidHash := (oid, s.nextEl) :: s.oidHash
    calls := s.calls + 3 }

theorem search_eq_none {oidHash : List (Oid × ℕ)} {oid : Oid}
    (h : oidHashSearch oidHash oid = none) : ∀ e ∈ oidHash, e.1 ≠ oid := by
  simp only [oidHashSearch, Option.map_eq_none_iff, List.find?_eq_none,
    decide_eq_true_eq] at h
  exact h

theorem notMem_names (hroot : Untruncated root) (h : Linked root s) {oid : Oid}
    (hnone : oidHashSearch s.oidHash oid = none) :
    fileName shortPath root oid ∉ s.files.names := by
  intro hmem
  obtain ⟨e, he, hpath⟩ := (h.named _).mp hmem
  exact search_eq_none hnone e he (fileName_inj hroot hpath).symm

theorem Linked.nextEl_notMem (h : Linked root s) : s.nextEl ∉ s.heap :=
  fun hmem => Nat.lt_irrefl _ (h.fresh _ hmem)

theorem linked_create (hroot : Untruncated root) (h : Linked root s) {oid : Oid}
    (hnone : oidHashSearch s.oidHash oid = none) {fd : ℤ}
    (hfd : fd ∉ s.files.fds) : Linked root (s.create root fd oid) where
  keys := by
    simp only [Store.create, List.map_cons, List.nodup_cons]
    refine ⟨?_, h.keys⟩
    intro hmem
    obtain ⟨e, he, heq⟩ := List.mem_map.mp hmem
    exact search_eq_none hnone e he heq
  element := by
    intro e he
    obtain rfl | he := List.mem_cons.mp he
    · exact ⟨⟨0, oid, Mode.zero⟩, AList.lookup_insert _, rfl⟩
    · obtain ⟨el, hel, hid⟩ := h.element e he
      have hne : e.2 ≠ s.nextEl := by
        rintro heq
        exact h.nextEl_notMem (heq ▸ Table.mem_of_lookup hel)
      exact ⟨el, by rwa [Store.create, AList.lookup_insert_ne hne], hid⟩
  tracked := by
    intro b el hb
    by_cases hbn : b = s.nextEl
    · subst hbn
      rw [Store.create, AList.lookup_insert, Option.some.injEq] at hb
      subst hb
      exact List.mem_cons_self
    · rw [Store.create, AList.lookup_insert_ne hbn] at hb
      exact List.mem_cons_of_mem _ (h.tracked b el hb)
  fresh := by
    intro b hb
    obtain rfl | hb := AList.mem_insert _ |>.mp hb
    · exact Nat.lt_succ_self _
    · exact Nat.lt_succ_of_lt (h.fresh b hb)
  listed := fun b hb => AList.mem_insert _ |>.mpr (.inr (h.listed b hb))
  named := by
    intro path
    simp only [Store.create, AList.mem_insert, h.named path,
      List.exists_mem_cons_iff]
  -- the new file takes the next free inode, above every one in use
  inode_lt := by
    intro path i hi
    by_cases hpath : path = fileName shortPath root oid
    · rw [hpath, Store.create, AList.lookup_insert, Option.some.injEq] at hi
      subst hi
      exact Nat.lt_succ_self _
    · rw [Store.create, AList.lookup_insert_ne hpath] at hi
      exact Nat.lt_succ_of_lt (h.inode_lt path i hi)
  inode_inj := by
    intro p q i hp hq
    by_cases hpn : p = fileName shortPath root oid
    · by_cases hqn : q = fileName shortPath root oid
      · rw [hpn, hqn]
      · rw [hpn, Store.create, AList.lookup_insert, Option.some.injEq] at hp
        rw [Store.create, AList.lookup_insert_ne hqn] at hq
        have := h.inode_lt q i hq
        omega
    · rw [Store.create, AList.lookup_insert_ne hpn] at hp
      by_cases hqn : q = fileName shortPath root oid
      · rw [hqn, Store.create, AList.lookup_insert, Option.some.injEq] at hq
        have := h.inode_lt p i hp
        omega
      · rw [Store.create, AList.lookup_insert_ne hqn] at hq
        exact h.inode_inj p q i hp hq
  opened := by
    intro b el hb hopen
    by_cases hbn : b = s.nextEl
    · subst hbn
      rw [Store.create, AList.lookup_insert, Option.some.injEq] at hb
      subst hb
      exact absurd rfl hopen
    · rw [Store.create, AList.lookup_insert_ne hbn] at hb
      obtain ⟨hmode, f, hf, hname⟩ := h.opened b el hb hopen
      -- the descriptor of the creation is free, so no open element has it
      have hfdne : el.fd ≠ fd := by
        rintro rfl
        exact hfd (Table.mem_of_lookup hf)
      have hpath : fileName shortPath root el.id ≠
          fileName shortPath root oid := by
        intro heq
        rw [heq] at hname
        exact notMem_names hroot h hnone (Table.mem_of_lookup hname)
      refine ⟨hmode, f, ?_, ?_⟩
      · show ((s.files.fds.insert fd _).erase fd).lookup el.fd = some f
        rw [AList.lookup_erase_ne hfdne, AList.lookup_insert_ne hfdne]
        exact hf
      · show (s.files.names.insert _ _).lookup _ = some f.inode
        rw [AList.lookup_insert_ne hpath]
        exact hname

theorem counted_create (h : Consistent root s) (fd : ℤ) (oid : Oid) :
    Counted (some s.nextEl) (s.create root fd oid) := by
  intro b el hb
  by_cases hbn : b = s.nextEl
  · subst hbn
    rw [Store.create, AList.lookup_insert, Option.some.injEq] at hb
    subst hb
    have hnot : s.nextEl ∉ s.openFilesList := fun hmem =>
      h.linked.nextEl_notMem (h.linked.listed _ hmem)
    simp only [Store.create, List.count_eq_zero_of_not_mem hnot, if_true,
      Nat.zero_add, Nat.le_refl]
  · rw [Store.create, AList.lookup_insert_ne hbn] at hb
    have hcb := h.counted b el hb
    simp only [Store.create, Option.some.injEq, if_neg (Ne.symm hbn)]
    simpa using hcb

theorem object_create (hroot : Untruncated root) (h : Consistent root s)
    {oid : Oid} (hnone : oidHashSearch s.oidHash oid = none) (fd : ℤ) :
    (s.create root fd oid).object root =
      Function.update (s.object root) oid (some []) := by
  funext oid'
  by_cases hoid : oid' = oid
  · subst hoid
    rw [Function.update_self, Store.object]
    simp only [Store.create, oidHashSearch, List.find?_cons, decide_true,
      Option.map_some, Option.bind_some, AList.lookup_insert,
      Function.update_self]
  · have hpath : fileName shortPath root oid' ≠ fileName shortPath root oid :=
      fun heq => hoid (fileName_inj hroot heq)
    have hsearch : oidHashSearch ((oid, s.nextEl) :: s.oidHash) oid' =
        oidHashSearch s.oidHash oid' := by
      simp only [oidHashSearch, List.find?_cons, Ne.symm hoid, decide_false]
    rw [Function.update_of_ne hoid, Store.object, Store.object]
    simp only [Store.create, hsearch, AList.lookup_insert_ne hpath]
    congr 1
    funext _
    cases hother : s.files.names.lookup (fileName shortPath root oid') with
    | none => rfl
    | some inode =>
        have hlt := h.linked.inode_lt _ _ hother
        rw [Option.map_some, Option.map_some,
          Function.update_of_ne (Nat.ne_of_lt hlt)]

/-- An object that exists is not created again. -/
theorem sysioObjCreate_exists (hok : ∀ n, env.outcome n = .ok)
    (h : Consistent root s) {oid : Oid} {a : ℕ}
    (ha : oidHashSearch s.oidHash oid = some a) :
    sysioObjCreate env root oid s =
      .error (.code .errExist) { s with calls := s.calls + 1 } := by
  obtain ⟨inode, hname, -⟩ := object_of_search h ha
  have haccess : sys env
      (fun o fs => fs.sysAccess o (fileName shortPath root oid)) s =
      .ok true { s with calls := s.calls + 1 } := by
    rw [sys_ok _ hok]
    simp only [Files.sysAccess, Table.mem_of_lookup hname]
    rfl
  rw [sysioObjCreate, Routine.bind_of_ok haccess, if_pos rfl]
  rfl

section Ok

variable (hok : ∀ n, env.outcome n = .ok) (hroot : Untruncated root)

include hok hroot

/-- Reading and writing an object begin with the same steps, after which its
file is open at the position asked for. -/
theorem seek_ok (h : Consistent root s) (canUse : Mode → Bool)
    (hmode : canUse Mode.rPlus = true) {oid : Oid} {c : List UInt8}
    (hc : s.object root oid = some c) (off : ℕ) :
    ∃ a t u el w inode, openOid env root oid s = .ok (some a) t ∧
      reopen env root canUse oid a t = .ok true u ∧ oidEl a u = .ok el u ∧
      sys env (fun o fs => fs.sysLseek o el.fd off) u = .ok true w ∧
      Consistent root w ∧ SameData s w ∧
      w.files.fds.lookup el.fd = some ⟨inode, off⟩ ∧
      w.files.names.lookup (fileName shortPath root oid) = some inode ∧
      w.files.contents inode = c := by
  obtain ⟨a, ha, -⟩ := Option.bind_eq_some_iff.mp hc
  obtain ⟨t, hopen, ht, hst, hready⟩ := openOid_ok hok hroot h ha
  rw [← hst.oidHash] at ha
  obtain ⟨el, hel, hid⟩ := ht.linked.search ha
  obtain ⟨u, hreopen, hu, htu, el', hel', hfd⟩ :=
    reopen_ok hok hroot ht hmode hel hid hready
  obtain ⟨el₂, hel₂, hid₂⟩ := ht.linked.follow hu.linked htu hel
  obtain rfl : el' = el₂ := Option.some.inj (hel'.symm.trans hel₂)
  obtain ⟨-, f, hf, hname⟩ := hu.linked.opened a el' hel' hfd
  rw [hid₂, hid] at hname
  have hseek : sys env (fun o fs => fs.sysLseek o el'.fd off) u =
      .ok true (u.seek el'.fd f off) := by
    rw [sys_ok _ hok]
    simp only [Files.sysLseek, hf, reduceCtorEq, if_false]
    rfl
  have hsame : SameData s (u.seek el'.fd f off) :=
    hst.trans ⟨htu.names, htu.contents, htu.oidHash⟩
  have hcontents : u.files.contents f.inode = c := by
    have hobj : (u.seek el'.fd f off).object root oid = some c := by
      rw [hsame.object_eq, hc]
    obtain ⟨b, -, hb⟩ := Option.bind_eq_some_iff.mp hobj
    rw [Store.seek, hname, Option.map_some, Option.some.injEq] at hb
    exact hb
  exact ⟨a, t, u, el', _, f.inode, hopen, hreopen, oidEl_ok hel', hseek,
    consistent_seek hu hf off, hsame, AList.lookup_insert _, hname, hcontents⟩

/-- A read of an object returns the bytes it has there, as many as there are,
and changes nothing. -/
theorem sysioObjRead_ok (h : Consistent root s) {oid : Oid} {c : List UInt8}
    (hc : s.object root oid = some c) (off : ℕ) (dest : List UInt8) :
    ∃ t, sysioObjRead env root oid off dest s =
        .ok ((Image.read c off dest.length).length,
          Image.write 0 dest 0 (Image.read c off dest.length)) t ∧
      Consistent root t ∧ SameData s t := by
  obtain ⟨a, t, u, el, w, inode, hopen, hreopen, hel, hseek, hw, hsame, hf, -,
    hcontents⟩ := seek_ok hok hroot h canReadFile rfl hc off
  rw [sysioObjRead, Routine.bind_of_ok hopen]
  simp only
  rw [Routine.bind_of_ok hreopen]
  simp only [Bool.true_eq_false, if_false]
  rw [Routine.bind_of_ok hel, Routine.bind_of_ok hseek]
  simp only [Bool.true_eq_false, if_false]
  by_cases hdest : dest = []
  · refine ⟨w, ?_, hw, hsame⟩
    rw [if_pos hdest, hdest]
    rfl
  · let data := Image.read c off dest.length
    have hread : sys env (fun o fs => fs.sysRead o el.fd dest.length) w =
        .ok (some data) (w.seek el.fd ⟨inode, off⟩ (off + data.length)) := by
      rw [sys_ok _ hok]
      simp only [Files.sysRead, hf, reduceCtorEq, if_false, hcontents]
      rfl
    refine ⟨w.seek el.fd ⟨inode, off⟩ (off + data.length), ?_,
      consistent_seek hw hf _, ⟨hsame.names, hsame.contents, hsame.oidHash⟩⟩
    rw [if_neg hdest, Routine.bind_of_ok hread]
    rfl

/-- A write of an object writes its bytes there, and changes no other
object. -/
theorem sysioObjWrite_ok (h : Consistent root s) {oid : Oid} {c : List UInt8}
    (hc : s.object root oid = some c) (off : ℕ) (src : List UInt8) :
    ∃ t, sysioObjWrite env root oid off src s =
        .ok ((src.length : ℤ), true) t ∧
      Consistent root t ∧
      t.object root = Function.update (s.object root) oid
        (some (Image.write 0 c off src)) := by
  obtain ⟨a, t, u, el, w, inode, hopen, hreopen, hel, hseek, hw, hsame, hf,
    hname, hcontents⟩ := seek_ok hok hroot h canWriteFile rfl hc off
  rw [sysioObjWrite, Routine.bind_of_ok hopen]
  simp only
  rw [Routine.bind_of_ok hreopen]
  simp only [Bool.true_eq_false, if_false]
  rw [Routine.bind_of_ok hel, Routine.bind_of_ok hseek]
  by_cases hsrc : src = []
  · refine ⟨w, ?_, hw, ?_⟩
    · rw [if_pos (.inr hsrc), hsrc]
      rfl
    · rw [hsrc, Image.write_nil, ← hc, Function.update_eq_self]
      exact hsame.object_eq
  · let w' := w.seek el.fd ⟨inode, off⟩ (off + src.length)
    let v : Store := { w' with
      files := { w'.files with
        contents := Function.update w.files.contents inode
          (Image.write 0 c off src) } }
    have hwrite : sys env (fun o fs => fs.sysWrite o el.fd src) w =
        .ok (some src.length) v := by
      rw [sys_ok _ hok]
      simp only [Files.sysWrite, hf, reduceCtorEq, if_false, Outcome.limit,
        List.take_length, hcontents]
      rfl
    have hv : Consistent root v :=
      (consistent_seek hw hf (off + src.length)).of_eq rfl rfl rfl rfl rfl rfl
        rfl
    have hcw : w.object root oid = some c := by
      rw [hsame.object_eq, hc]
    refine ⟨v, ?_, hv, ?_⟩
    · rw [if_neg (by simp [hsrc]), Routine.bind_of_ok hwrite]
      rfl
    · rw [← hsame.object_eq]
      exact object_update hroot hw hcw hname _ rfl rfl rfl

/-- A new object is empty. -/
theorem sysioObjCreate_ok (h : Consistent root s) {oid : Oid}
    (hnone : oidHashSearch s.oidHash oid = none) :
    ∃ t, sysioObjCreate env root oid s = .ok () t ∧ Consistent root t ∧
      t.object root = Function.update (s.object root) oid (some []) := by
  have hnew := notMem_names hroot h.linked hnone
  have hlookup := AList.lookup_eq_none.mpr hnew
  have hpos := env.newFd_pos s.files.fds
  let u₁ : Store := { s with calls := s.calls + 1 }
  let u₂ : Store := { s with
    files :=
      { names := s.files.names.insert (fileName shortPath root oid)
          s.files.nextInode
        contents := Function.update s.files.contents s.files.nextInode []
        nextInode := s.files.nextInode + 1
        fds := s.files.fds.insert (env.newFd s.files.fds)
          ⟨s.files.nextInode, 0⟩ }
    calls := s.calls + 2 }
  have haccess : sys env
      (fun o fs => fs.sysAccess o (fileName shortPath root oid)) s =
      .ok false u₁ := by
    rw [sys_ok _ hok]
    simp only [Files.sysAccess, hnew]
    rfl
  have hcreat : sys env
      (fun o fs => fs.sysCreat env.toFdRule o (fileName shortPath root oid))
      u₁ = .ok (env.newFd s.files.fds) u₂ := by
    rw [sys_ok _ hok]
    simp only [Files.sysCreat, reduceCtorEq, if_false, u₁, hlookup]
    rfl
  have hclose : sys env (fun o fs => fs.sysClose o (env.newFd s.files.fds)) u₂ =
      .ok true { u₂ with
        files := { u₂.files with
          fds := u₂.files.fds.erase (env.newFd s.files.fds) }
        calls := s.calls + 3 } := by
    rw [sys_ok _ hok]
    have hmem : env.newFd s.files.fds ∈ u₂.files.fds :=
      AList.mem_insert _ |>.mpr (.inl rfl)
    simp only [Files.sysClose, hmem]
    rfl
  have hadd : addOid oid { u₂ with
        files := { u₂.files with
          fds := u₂.files.fds.erase (env.newFd s.files.fds) }
        calls := s.calls + 3 } =
      .ok s.nextEl (s.create root (env.newFd s.files.fds) oid) := rfl
  obtain ⟨t, hlist, ht, hsame, -⟩ := addToOpenFiles_ok hok hroot
    (linked_create hroot h.linked hnone (env.newFd_fresh s.files.fds))
    (counted_create h (env.newFd s.files.fds) oid) h.length_le
    (AList.mem_insert _ |>.mpr (.inl rfl))
  refine ⟨t, ?_, ht, ?_⟩
  · rw [sysioObjCreate, Routine.bind_of_ok haccess, if_neg (by decide),
      Routine.bind_of_ok hcreat, if_neg (by omega), Routine.bind_of_ok hclose,
      if_neg (by decide), Routine.bind_of_ok hadd]
    exact hlist
  · rw [hsame.object_eq]
    exact object_create hroot h hnone _

end Ok

end Data

/-! ## The requests that create, read and write objects -/

/-- The requests that are about the bytes of objects. -/
inductive DataRequest (Mac : Type)
  | create (obj : Obj) (cap : Cap Mac)
  | read (srcObj : Obj) (srcOffset len : ℕ) (cap : Cap Mac)
  | write (destObj : Obj) (destOffset : ℕ) (data : List UInt8) (cap : Cap Mac)

namespace DataRequest

variable {Mac : Type}

def toRequest : DataRequest Mac → Request Mac
  | .create obj cap => .createObj obj cap
  | .read srcObj srcOffset len cap => .read srcObj srcOffset len cap
  | .write destObj destOffset data cap => .write destObj destOffset data cap

/-- The number of bytes asked for. -/
def length : DataRequest Mac → ℕ
  | .create _ _ => 0
  | .read _ _ len _ => len
  | .write _ _ data _ => data.length

end DataRequest

/-- The bytes of the objects that exist. -/
abbrev Objects := Oid → Option (List UInt8)

variable {Mac : Type}

/-- The answer to a read that has found some bytes. -/
def readAnswer (env : Env Mac) (data : List UInt8) : Except Fault Result :=
  if data = [] then .ok (.read 0 [])
  else match env.putData with
  | some rc => .error (.code rc)
  | none => .ok (.read data.length data)

/-- What a request means where objects are arrays of bytes. -/
def objectStep (objs : Objects) (r : Env Mac × DataRequest Mac) :
    Except Fault Result × Objects :=
  match r.2 with
  | .create obj cap =>
      match ssVerifyCap r.1 cap containerWrite, objs obj.oid with
      | .error e, _ => (.error e, objs)
      | .ok _, some _ => (.error (.code .errExist), objs)
      | .ok _, none =>
          (.ok .done, Function.update objs obj.oid (some []))
  | .read obj off len cap =>
      match objs obj.oid, ssVerifyCap r.1 cap containerRead with
      | none, _ => (.error (.code .errNoObj), objs)
      | some _, .error e => (.error e, objs)
      | some c, .ok _ => (readAnswer r.1 (Image.read c off len), objs)
  | .write obj off data cap =>
      match objs obj.oid, ssVerifyCap r.1 cap containerWrite, r.1.getData with
      | none, _, _ => (.error (.code .errNoObj), objs)
      | some _, .error e, _ => (.error e, objs)
      | some _, .ok _, some rc => (.error (.code rc), objs)
      | some c, .ok _, none =>
          (.ok .done,
            Function.update objs obj.oid (some (Image.write 0 c off data)))

/-- Every call of the host succeeds in full, and the length is below `2^31`. -/
def Succeeds (r : Env Mac × DataRequest Mac) : Prop :=
  (∀ n, r.1.outcome n = .ok) ∧ r.2.length < 2147483648

/-- A routine ends as an array of bytes would, and keeps what holds of the
elements. -/
structure Meets (root : Path) (x : StoreRoutine Result) (s : Store)
    (o : Except Fault Result × Objects) : Prop where
  outcome : x.outcome s = o.1
  consistent : Consistent root (x.final s)
  objects : (x.final s).object root = o.2

section Handlers

variable {env : Env Mac} {root : Path} {s t : Store}

theorem meets_ok {x : StoreRoutine Result} {r : Result} {objs : Objects}
    (h : x s = .ok r t) (ht : Consistent root t) (hobj : t.object root = objs) :
    Meets root x s (.ok r, objs) := by
  refine ⟨Routine.outcome_of_ok h, ?_, ?_⟩
  · rwa [Routine.final_of_ok h]
  · rwa [Routine.final_of_ok h]

theorem Meets.of_apply_eq {x y : StoreRoutine Result}
    {o : Except Fault Result × Objects} (h : Meets root y s o)
    (hxy : x s = y s) : Meets root x s o := by
  have hout : x.outcome s = y.outcome s := by
    simp only [Routine.outcome, hxy]
  have hfin : x.final s = y.final s := by
    simp only [Routine.final, hxy]
  exact ⟨hout.trans h.outcome, hfin ▸ h.consistent, hfin ▸ h.objects⟩

theorem meets_error {x : StoreRoutine Result} {e : Fault} {objs : Objects}
    (h : x s = .error e t) (ht : Consistent root t)
    (hobj : t.object root = objs) : Meets root x s (.error e, objs) := by
  refine ⟨Routine.outcome_of_error h, ?_, ?_⟩
  · rwa [Routine.final_of_error h]
  · rwa [Routine.final_of_error h]

/-- Setting an attribute whose name and value fit. -/
theorem sysioObjSetattr_ok (hok : ∀ n, env.outcome n = .ok) (oid : Oid)
    (name : Name) (value : List UInt8) (hname : name.length ≤ nameLen)
    (hvalue : value.length ≤ attrSize) (s : Store) :
    ∃ attrs, sysioObjSetattr env oid name value s =
      .ok () { s with attrs := attrs, calls := s.calls + 1 } := by
  obtain ⟨e, hentry⟩ : ∃ e, attrEntry env oid name value s = .ok e s := by
    rw [attrEntry, if_neg (by omega)]
    exact ⟨_, rfl⟩
  have hcall : dbCall env s = .ok () { s with calls := s.calls + 1 } := by
    simp only [dbCall, hok, reduceCtorEq, if_false]
  refine ⟨s.attrs.insert (db1Keygen e.oid e.name) e, ?_⟩
  rw [sysioObjSetattr, Routine.bind_of_ok hentry, ssDbAttrPut, db1Put,
    Routine.bind_of_ok hcall]
  rfl

theorem search_of_object_none (h : Consistent root s) {oid : Oid}
    (hc : s.object root oid = none) : oidHashSearch s.oidHash oid = none := by
  cases ha : oidHashSearch s.oidHash oid with
  | none => rfl
  | some a =>
      obtain ⟨inode, -, hobj⟩ := object_of_search h ha
      rw [hc] at hobj
      cases hobj

theorem sysioObjExists_ok (h : Consistent root s) (oid : Oid) :
    sysioObjExists oid s = .ok (s.object root oid).isSome s := by
  cases hc : s.object root oid with
  | none =>
      have hfind : findOid oid s = .ok none s := by
        rw [findOid, Routine.get_bind, search_of_object_none h hc]
        rfl
      rw [sysioObjExists, Routine.bind_of_ok hfind]
      rfl
  | some c =>
      obtain ⟨a, ha, -⟩ := Option.bind_eq_some_iff.mp hc
      have hfind : findOid oid s = .ok (some a) s := by
        rw [findOid, Routine.get_bind, ha]
        rfl
      rw [sysioObjExists, Routine.bind_of_ok hfind]
      rfl

/-- The checks before an operation on an object, by what they find. -/
theorem checkAccess_none (h : Consistent root s) {obj : Obj}
    (hc : s.object root obj.oid = none) (cap : Cap Mac) (op : Opcode) :
    checkAccess env obj cap op s = .error (.code .errNoObj) s := by
  have hexists := sysioObjExists_ok h obj.oid
  rw [hc] at hexists
  rw [checkAccess, Routine.bind_of_ok hexists]
  rfl

theorem checkAccess_some (h : Consistent root s) {obj : Obj} {c : List UInt8}
    (hc : s.object root obj.oid = some c) (cap : Cap Mac) (op : Opcode) :
    checkAccess env obj cap op s =
      Routine.reader (fun _ => ssVerifyCap env cap op) s := by
  have hexists := sysioObjExists_ok h obj.oid
  rw [hc] at hexists
  rw [checkAccess, Routine.bind_of_ok hexists]
  rfl

theorem checkAccess_error (h : Consistent root s) {obj : Obj} {c : List UInt8}
    (hc : s.object root obj.oid = some c) {cap : Cap Mac} {op : Opcode}
    {e : Fault} (hv : ssVerifyCap env cap op = .error e) :
    checkAccess env obj cap op s = .error e s :=
  (checkAccess_some h hc cap op).trans
    (Routine.reader_of_error (f := fun _ => ssVerifyCap env cap op) hv)

theorem checkAccess_ok (h : Consistent root s) {obj : Obj} {c : List UInt8}
    (hc : s.object root obj.oid = some c) {cap : Cap Mac} {op : Opcode}
    (hv : ssVerifyCap env cap op = .ok ()) :
    checkAccess env obj cap op s = .ok () s :=
  (checkAccess_some h hc cap op).trans
    (Routine.reader_of_ok (f := fun _ => ssVerifyCap env cap op) hv)

/-- What is read into a buffer stands at its beginning. -/
theorem take_write_zero (buf data : List UInt8) :
    (Image.write 0 buf 0 data).take data.length = data := by
  by_cases hdata : data = []
  · rw [hdata]
    rfl
  · rw [Image.write, if_neg hdata, List.take_zero, Nat.zero_sub,
      List.replicate_zero, List.nil_append, List.nil_append,
      List.take_left]

variable (hok : ∀ n, env.outcome n = .ok) (hroot : Untruncated root)

include hok hroot

theorem createOp_ok (h : Consistent root s) (obj : Obj) (cap : Cap Mac)
    (hnone : oidHashSearch s.oidHash obj.oid = none) :
    ∃ t, createOp env root obj cap s = .ok () t ∧ Consistent root t ∧
      t.object root = Function.update (s.object root) obj.oid (some []) := by
  obtain ⟨t, hcreate, ht, hobj⟩ := sysioObjCreate_ok hok hroot h hnone
  obtain ⟨attrs, hset⟩ := sysioObjSetattr_ok hok obj.oid lwfsCidName
    (cidValue cap.data.cid) (by decide)
    (by rw [cidValue, Bytes.length_ofNat]; decide) t
  refine ⟨_, ?_, ht.of_eq (t := { t with attrs := attrs, calls := t.calls + 1 })
    rfl rfl rfl rfl rfl rfl rfl, ?_⟩
  · rw [createOp, Routine.bind_of_ok hcreate]
    exact Routine.mapOutcome_of_ok hset rfl
  · exact hobj

/-- The read, after the checks, ends with the answer to what the object has at
the offset. -/
theorem readOp_ok (h : Consistent root s) {obj : Obj} {c : List UInt8}
    (hc : s.object root obj.oid = some c) (off : ℕ) {len : ℕ}
    (hlen : len < 2147483648) :
    Meets root (readOp env root obj off len) s
      (readAnswer env (Image.read c off len), s.object root) := by
  let buf := (List.range len).map env.malloc
  have hbuf : buf.length = len := by
    rw [List.length_map, List.length_range]
  obtain ⟨t, hread, ht, hsame⟩ := sysioObjRead_ok hok hroot h hc off buf
  rw [hbuf] at hread
  let data := Image.read c off len
  have hdata : data.length ≤ len := by
    rw [Image.length_read]
    exact Nat.min_le_left _ _
  have hcount : data.length % 4294967296 = data.length :=
    Nat.mod_eq_of_lt (by omega)
  have hrun : readOp env root obj off len s =
      sendData env data.length (Image.write 0 buf 0 data) t := by
    rw [readOp, Routine.bind_of_ok hread]
    simp only
    rw [hcount, if_neg (by omega)]
  have hobj : t.object root = s.object root := hsame.object_eq
  rw [sendData, take_write_zero] at hrun
  show Meets root (readOp env root obj off len) s
    (readAnswer env data, s.object root)
  by_cases hempty : data = []
  · rw [if_pos (List.length_eq_zero_iff.mpr hempty), hempty] at hrun
    rw [readAnswer, if_pos hempty]
    exact meets_ok hrun ht hobj
  · rw [if_neg (List.length_eq_zero_iff.not.mpr hempty)] at hrun
    rw [readAnswer, if_neg hempty]
    cases hput : env.putData with
    | some rc =>
        rw [hput] at hrun
        exact meets_error hrun ht hobj
    | none =>
        rw [hput] at hrun
        exact meets_ok hrun ht hobj

theorem writeOp_ok (h : Consistent root s) {obj : Obj} {c : List UInt8}
    (hc : s.object root obj.oid = some c) (off : ℕ) (data : List UInt8)
    (hget : env.getData = none) :
    ∃ t, writeOp env root obj off data s = .ok () t ∧ Consistent root t ∧
      t.object root = Function.update (s.object root) obj.oid
        (some (Image.write 0 c off data)) := by
  obtain ⟨t, hwrite, ht, hobj⟩ := sysioObjWrite_ok hok hroot h hc off data
  refine ⟨t, ?_, ht, hobj⟩
  rw [writeOp, hget]
  simp only
  rw [Routine.bind_of_ok hwrite, if_pos rfl]
  rfl

theorem meets_create (h : Consistent root s) (obj : Obj) (cap : Cap Mac) :
    Meets root (handle env root (.createObj obj cap)) s
      (objectStep (s.object root) (env, .create obj cap)) := by
  simp only [handle, objectStep]
  cases hv : ssVerifyCap env cap containerWrite with
  | error e =>
      have hrun : ssCreateObj env root obj cap s = .error e s :=
        Routine.bind_of_error (Routine.reader_of_error hv)
      exact meets_error (Routine.map_of_error hrun) h rfl
  | ok u =>
      have hrun : ssCreateObj env root obj cap s = createOp env root obj cap s :=
        Routine.reader_bind_ok (f := fun _ => ssVerifyCap env cap containerWrite)
          hv
      cases hc : s.object root obj.oid with
      | some c =>
          obtain ⟨a, ha, -⟩ := Option.bind_eq_some_iff.mp hc
          have hexist : createOp env root obj cap s =
              .error (.code .errExist) { s with calls := s.calls + 1 } :=
            Routine.bind_of_error (sysioObjCreate_exists hok h ha)
          exact meets_error (Routine.map_of_error (hrun.trans hexist))
            (h.of_eq rfl rfl rfl rfl rfl rfl rfl) rfl
      | none =>
          obtain ⟨t, hcreate, ht, hobj⟩ := createOp_ok hok hroot h obj cap
            (search_of_object_none h hc)
          exact meets_ok (Routine.map_of_ok (hrun.trans hcreate)) ht hobj

theorem meets_read (h : Consistent root s) (obj : Obj) (off : ℕ) {len : ℕ}
    (hlen : len < 2147483648) (cap : Cap Mac) :
    Meets root (handle env root (.read obj off len cap)) s
      (objectStep (s.object root) (env, .read obj off len cap)) := by
  simp only [handle, objectStep]
  cases hc : s.object root obj.oid with
  | none =>
      have hcheck : checkAccess env obj cap containerRead s =
          .error (.code .errNoObj) s := checkAccess_none h hc cap _
      exact meets_error (Routine.bind_of_error hcheck) h rfl
  | some c =>
      cases hv : ssVerifyCap env cap containerRead with
      | error e =>
          have hcheck := checkAccess_error h hc hv
          exact meets_error (Routine.bind_of_error hcheck) h rfl
      | ok u =>
          have hcheck := checkAccess_ok h hc hv
          have hrun : ssRead env root obj off len cap s =
              readOp env root obj off len s := Routine.bind_of_ok hcheck
          exact (readOp_ok hok hroot h hc off hlen).of_apply_eq hrun

theorem meets_write (h : Consistent root s) (obj : Obj) (off : ℕ)
    (data : List UInt8) (cap : Cap Mac) :
    Meets root (handle env root (.write obj off data cap)) s
      (objectStep (s.object root) (env, .write obj off data cap)) := by
  simp only [handle, objectStep]
  cases hc : s.object root obj.oid with
  | none =>
      have hcheck : checkAccess env obj cap containerWrite s =
          .error (.code .errNoObj) s := checkAccess_none h hc cap _
      exact meets_error
        (Routine.map_of_error (Routine.bind_of_error hcheck)) h rfl
  | some c =>
      cases hv : ssVerifyCap env cap containerWrite with
      | error e =>
          have hcheck := checkAccess_error h hc hv
          exact meets_error
            (Routine.map_of_error (Routine.bind_of_error hcheck)) h rfl
      | ok u =>
          have hcheck := checkAccess_ok h hc hv
          have hrun : ssWrite env root obj off data cap s =
              writeOp env root obj off data s := Routine.bind_of_ok hcheck
          cases hget : env.getData with
          | some rc =>
              have hfail : writeOp env root obj off data s =
                  .error (.code rc) s := by
                rw [writeOp, hget]
                rfl
              exact meets_error (Routine.map_of_error (hrun.trans hfail)) h rfl
          | none =>
              obtain ⟨t, hwrite, ht, hobj⟩ :=
                writeOp_ok hok hroot h hc off data hget
              exact meets_ok (Routine.map_of_ok (hrun.trans hwrite)) ht hobj

/-- Every request does to the objects what it means. -/
theorem meets_handle (h : Consistent root s) (r : DataRequest Mac)
    (hlen : r.length < 2147483648) :
    Meets root (handle env root r.toRequest) s
      (objectStep (s.object root) (env, r)) := by
  cases r with
  | create obj cap => exact meets_create hok hroot h obj cap
  | read obj off len cap => exact meets_read hok hroot h obj off hlen cap
  | write obj off data cap => exact meets_write hok hroot h obj off data cap

end Handlers

/-! ## Runs -/

section Runs

variable {root : Path}

theorem survives_ssVerifyCap {env : Env Mac} {cap : Cap Mac} {op : Opcode}
    {e : Fault} (h : ssVerifyCap env cap op = .error e) :
    survives (.error e : Except Fault Result) = true := by
  simp only [ssVerifyCap] at h
  split at h
  · cases h
    rfl
  · split at h
    · cases h
      rfl
    · split at h
      · cases h
      · cases h
        rfl

theorem survives_readAnswer (env : Env Mac) (data : List UInt8) :
    survives (readAnswer env data) = true := by
  rw [readAnswer]
  split
  · rfl
  · split <;> rfl

/-- None of the errors that a request can mean ends the server. -/
theorem survives_objectStep (objs : Objects) (r : Env Mac × DataRequest Mac) :
    survives (objectStep objs r).1 = true := by
  obtain ⟨env, r⟩ := r
  cases r with
  | create obj cap =>
      simp only [objectStep]
      split
      · next hv => exact survives_ssVerifyCap hv
      · rfl
      · rfl
  | read obj off len cap =>
      simp only [objectStep]
      split
      · rfl
      · next hv => exact survives_ssVerifyCap hv
      · exact survives_readAnswer _ _
  | write obj off data cap =>
      simp only [objectStep]
      split
      · rfl
      · next hv => exact survives_ssVerifyCap hv
      · rfl
      · rfl

theorem consistent_empty (root : Path) : Consistent root Store.empty where
  linked := {
    keys := List.nodup_nil
    element := fun e he => absurd he List.not_mem_nil
    tracked := fun a el h => absurd (Table.mem_of_lookup h) (AList.notMem_empty a)
    fresh := fun a ha => absurd ha (AList.notMem_empty a)
    listed := fun a ha => absurd ha List.not_mem_nil
    named := by
      intro path
      refine iff_of_false (AList.notMem_empty path) ?_
      rintro ⟨e, he, -⟩
      exact absurd he List.not_mem_nil
    inode_lt := fun p i h => absurd (Table.mem_of_lookup h) (AList.notMem_empty p)
    inode_inj := fun p q i h => absurd (Table.mem_of_lookup h) (AList.notMem_empty p)
    opened := fun a el h => absurd (Table.mem_of_lookup h) (AList.notMem_empty a) }
  counted := fun a el h => absurd (Table.mem_of_lookup h) (AList.notMem_empty a)
  length_le := Nat.zero_le _

/-- The server runs, and its objects are these arrays of bytes. -/
structure Represents (root : Path) (s : Server) (objs : Objects) : Prop where
  up : s.up = true
  consistent : Consistent root s.store
  objects : s.store.object root = objs

theorem represents_init (root : Path) :
    Represents root Server.init fun _ => none :=
  ⟨rfl, consistent_empty root, rfl⟩

/-- One request, at the server and where objects are arrays of bytes. -/
theorem represents_step (hroot : Untruncated root) {s : Server}
    {objs : Objects} (h : Represents root s objs)
    {r : Env Mac × DataRequest Mac} (hr : Succeeds r) :
    (handle r.1 root r.2.toRequest).outcome s.store = (objectStep objs r).1 ∧
      Represents root (step root s (r.1, r.2.toRequest))
        (objectStep objs r).2 := by
  obtain ⟨hup, hcons, rfl⟩ := h
  obtain ⟨env, req⟩ := r
  have hmeets := meets_handle hr.1 hroot hcons req hr.2
  refine ⟨hmeets.outcome, ?_⟩
  have hsurvives : survives ((handle env root req.toRequest).outcome s.store) =
      true := by
    rw [hmeets.outcome]
    exact survives_objectStep _ _
  simp only [step, hup, if_true]
  exact ⟨hsurvives, hmeets.consistent, hmeets.objects⟩

/-- The requests of a run as the server gets them. -/
def serverRun (run : List (Env Mac × DataRequest Mac)) :
    List (Env Mac × Request Mac) :=
  run.map fun r => (r.1, r.2.toRequest)

/-- The objects after a run, as arrays of bytes. -/
def objectsAfter (run : List (Env Mac × DataRequest Mac)) : Objects :=
  Run.exec (fun objs r => (objectStep objs r).2) (fun _ => none) run

theorem represents_run (hroot : Untruncated root) {s : Server} {objs : Objects}
    (h : Represents root s objs) (run : List (Env Mac × DataRequest Mac))
    (hrun : ∀ r ∈ run, Succeeds r) :
    Represents root (Run.exec (step root) s (serverRun run))
      (Run.exec (fun objs r => (objectStep objs r).2) objs run) := by
  induction run generalizing s objs with
  | nil => exact h
  | cons r run ih =>
      obtain ⟨hr, hrest⟩ := List.forall_mem_cons.mp hrun
      exact ih (represents_step hroot h hr).2 hrest

/-- Whatever objects are created, written and read, and however the files are
opened and closed for it, every request ends as if each object were an array
of bytes of its own, and so does every request after them. -/
theorem objects_refine_arrays (hroot : Untruncated root)
    (run : List (Env Mac × DataRequest Mac)) (hrun : ∀ r ∈ run, Succeeds r) :
    let s := Run.exec (step root) Server.init (serverRun run)
    s.up = true ∧ s.store.object root = objectsAfter run ∧
      ∀ r : Env Mac × DataRequest Mac, Succeeds r →
        (handle r.1 root r.2.toRequest).outcome s.store =
          (objectStep (objectsAfter run) r).1 := by
  have h := represents_run hroot (represents_init root) run hrun
  exact ⟨h.up, h.objects, fun r hr => (represents_step hroot h hr).1⟩

/-- A write beyond the end of a new object, and a read of more than it has
then: the gap reads as zeros, and the count is that of the bytes there. -/
theorem objects_refine_arrays_gap :
    let env : Env ℕ := Env.quiet fun _ => none
    let obj := Obj.zero
    let cap : Cap ℕ := ⟨⟨1, containerRead ||| containerWrite,
      ⟨Oid.zero, Octets.fill 20 0⟩⟩, 0⟩
    let run := [(env, DataRequest.create obj cap),
      (env, DataRequest.write obj 2 [7, 8] cap)]
    let s := Run.exec (step ['/', 'o']) Server.init (serverRun run)
    (handle env ['/', 'o'] (.read obj 1 16 cap)).outcome s.store =
      .ok (.read 3 [0, 7, 8]) := by
  intro env obj cap run
  have hrun : ∀ r ∈ run, Succeeds r := by
    intro r hr
    simp only [run, List.mem_cons, List.not_mem_nil, or_false] at hr
    obtain rfl | rfl := hr <;> exact ⟨fun _ => rfl, by decide⟩
  have hroot : Untruncated ['/', 'o'] := by
    show 2 + 35 < 64
    decide
  have hspec : (objectStep (objectsAfter run) (env, .read obj 1 16 cap)).1 =
      .ok (.read 3 [0, 7, 8]) := by
    decide
  rw [← hspec]
  exact (objects_refine_arrays hroot run hrun).2.2 (env, .read obj 1 16 cap)
    ⟨fun _ => rfl, by decide⟩

end Runs

end Lwfs.Storage
