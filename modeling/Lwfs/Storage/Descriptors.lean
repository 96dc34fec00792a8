import Lwfs.Storage.ObjectOps
import Lwfs.Storage.ReadOnly

/-!
The descriptor that `open_oid` hands out.

An element that has a descriptor has that of the file of its object, whatever
calls of the host have failed. But the descriptor is also the flag that says
whether the file is open: after an `open` that failed it is `-1`, which is not
zero, and the element that was just opened can be the one that is closed to
make room for itself.
-/

namespace Lwfs.Storage

open SysLib Routine

variable {Mac : Type} {env : Env Mac} {root : Path} {s t : Store} {oid : Oid}

/-- The element has an open descriptor, and it is that of the file of the
object. -/
def Usable (root : Path) (oid : Oid) (a : ℕ) (s : Store) : Prop :=
  ∃ el f, s.heap.lookup a = some el ∧ s.files.fds.lookup el.fd = some f ∧
    s.files.names.lookup (fileName shortPath root oid) = some f.inode

/-- Every object has its file, and a descriptor of an element is that of the
file of its object. -/
structure Held (root : Path) (s : Store) : Prop where
  elements : Elements none s
  named : ∀ e ∈ s.oidHash, fileName shortPath root e.1 ∈ s.files.names
  own : ∀ a el f, s.heap.lookup a = some el →
    s.files.fds.lookup el.fd = some f →
    s.files.names.lookup (fileName shortPath root el.id) = some f.inode

namespace Held

variable {a b : ℕ} {el elb : OidEl}

theorem of_sameOpen (h : Held root s) (hst : SameOpen s t) : Held root t where
  elements := hst.elements h.elements
  named := by
    rw [hst.oidHash, hst.names]
    exact h.named
  own := by
    intro a el f ha hf
    rw [hst.heap] at ha
    have hinode := hst.inode el.fd
    rw [hf, Option.map_some] at hinode
    obtain ⟨g, hg, hgf⟩ := Option.map_eq_some_iff.mp hinode.symm
    rw [hst.names, ← hgf]
    exact h.own a el g ha hg

theorem setList (h : Held root s) (l : List ℕ) :
    Held root { s with openFilesList := l } where
  elements := h.elements.setList l
  named := h.named
  own := h.own

/-- One element gets another descriptor, and the others keep theirs. -/
theorem set (h : Held root s) (helements : Elements none t) {el' : OidEl}
    (hid : el'.id = el.id) (hheap : t.heap = s.heap.insert a el')
    (hhash : t.oidHash = s.oidHash) (hnames : t.files.names = s.files.names)
    (hself : ∀ f, t.files.fds.lookup el'.fd = some f →
      s.files.names.lookup (fileName shortPath root el.id) = some f.inode)
    (hothers : ∀ b elb f, b ≠ a → s.heap.lookup b = some elb →
      t.files.fds.lookup elb.fd = some f → s.files.fds.lookup elb.fd = some f) :
    Held root t where
  elements := helements
  named := by
    rw [hhash, hnames]
    exact h.named
  own := by
    intro b elb f hb hf
    rw [hnames]
    rw [hheap] at hb
    rcases eq_or_ne b a with rfl | hba
    · rw [AList.lookup_insert, Option.some.injEq] at hb
      subst hb
      rw [hid]
      exact hself f hf
    · rw [AList.lookup_insert_ne hba] at hb
      exact h.own b elb f hb (hothers b elb f hba hb hf)

theorem closing (h : Held root s) (ha : s.heap.lookup a = some el) :
    Held root (s.closing env a el) := by
  have helements : Elements none (s.closing env a el) := h.elements.closing ha
  unfold Store.closing at helements ⊢
  split_ifs at helements ⊢ with hzero hclose
  · exact h
  · refine h.set helements rfl rfl rfl rfl (fun f hf => ?_) fun b elb f _ _ hf => ?_
    · exact absurd (Table.mem_of_lookup hf) helements.zero_notMem
    · have hne : elb.fd ≠ el.fd := by
        intro heq
        have hnone : (s.files.fds.erase el.fd).lookup elb.fd = none := by
          rw [heq]
          exact AList.lookup_erase _ _
        exact absurd (hf.symm.trans hnone) (Option.some_ne_none f)
      exact (AList.lookup_erase_ne hne).symm.trans hf
  · exact ⟨helements, h.named, h.own⟩

theorem refuse (h : Held root s) (ha : s.heap.lookup a = some el) :
    Held root (s.refuse a el) := by
  have helements := h.elements.refuse ha
  refine h.set helements rfl rfl rfl rfl (fun f hf => ?_) fun b elb f _ _ hf => hf
  exact absurd (Table.mem_of_lookup hf) helements.neg_notMem

theorem «open» (h : Held root s) (ha : s.heap.lookup a = some el) {fd : ℤ}
    (hpos : 0 < fd) (hfresh : fd ∉ s.files.fds) {inode : ℕ}
    (hname : s.files.names.lookup (fileName shortPath root el.id) =
      some inode) : Held root (s.open a el fd inode) := by
  refine h.set (h.elements.open ha hpos hfresh inode) rfl rfl rfl rfl
    (fun f hf => ?_) fun b elb f _ hb hf => ?_
  · obtain rfl : (⟨inode, 0⟩ : OpenFile) = f :=
      Option.some.inj ((AList.lookup_insert _).symm.trans hf)
    exact hname
  · have hne := h.elements.fd_ne hpos hfresh hb
    exact (AList.lookup_insert_ne hne).symm.trans hf

end Held

/-! ### What the operations keep -/

section Operations

variable {a : ℕ} {el : OidEl}

theorem held_removeFromOpenFiles (a : ℕ) :
    Within (Keeps (Held root)) (removeFromOpenFiles env a) := by
  intro s h
  rcases removeFromOpenFiles_cases env a s with herror | ⟨el, l, ha, -, hok⟩
  · rw [final_of_error herror]
    exact h
  · rw [final_of_ok hok]
    exact (h.setList l).closing ha

theorem held_tclistUnshift (a : ℕ) :
    Within (Keeps (Held root)) (tclistUnshift a) :=
  within_modify fun _ h => h.setList _

theorem held_addToOpenFiles (a : ℕ) :
    Within (Keeps (Held root)) (addToOpenFiles env a) :=
  within_bind within_get fun _ =>
    within_ite (fun _ => held_tclistUnshift a) fun _ =>
      within_ite
        (fun _ => within_bind (held_removeFromOpenFiles _) fun _ =>
          held_tclistUnshift a)
        fun _ => within_pure _

/-- Opening the file of an element, under the path of its object. -/
theorem held_openElement (h : Held root s) (ha : s.heap.lookup a = some el)
    {path : Path} (hpath : path = fileName shortPath root el.id) :
    Held root ((openElement env a path).final s) := by
  by_cases hopens : ∃ inode, Opens env s path inode
  · obtain ⟨inode, hopens⟩ := hopens
    have hopen := h.open ha (env.newFd_pos s.files.fds) (env.newFd_fresh _)
      (hpath ▸ hopens.2)
    have hfinal : (openElement env a path).final s =
        (addToOpenFiles env a).final
          (s.open a el (env.newFd s.files.fds) inode) := by
      rw [← final_bind_pure (addToOpenFiles env a) true]
      simp only [final, openElement_of_opens ha hopens]
    rw [hfinal]
    exact held_addToOpenFiles a _ hopen
  · rw [final_of_ok (openElement_of_refused ha (not_exists.mp hopens))]
    exact h.refuse ha

theorem held_openOid (hroot : Untruncated root) (h : Held root s) (oid : Oid) :
    Held root ((openOid env root oid).final s) := by
  cases ha : oidHashSearch s.oidHash oid with
  | none =>
      rw [final_of_ok (openOid_of_none ha)]
      exact h
  | some a =>
      obtain ⟨-, el, hel, hid⟩ := h.elements.search ha
      have hrun : openOid env root oid s = _ := openOid_of_some ha hel
      by_cases hzero : el.fd = 0
      · have hfinal : (openOid env root oid).final s =
            (openElement env a (openPath root oid)).final s := by
          rw [if_pos hzero, bind_pure_comp] at hrun
          have hmap : (openOid env root oid).final s =
              ((fun opened : Bool => if opened then some a else none) <$>
                openElement env a (openPath root oid)).final s := by
            simp only [final, hrun]
          rw [hmap, final_map]
        rw [hfinal]
        exact held_openElement h hel (by
          rw [openPath, fileName_longPath hroot, hid])
      · rw [if_neg hzero] at hrun
        rw [final_of_ok hrun]
        exact h

theorem held_dropUnusable (canUse : Mode → Bool) (a : ℕ) :
    Within (Keeps (Held root)) (dropUnusable env canUse a) :=
  within_bind (fun s h => h.of_sameOpen (oidEl_sameOpen a s)) fun _ =>
    within_ite (fun _ => held_removeFromOpenFiles a) fun _ => within_pure _

/-- The second opening uses the path that the other functions print. -/
theorem held_reopen (h : Held root s) (canUse : Mode → Bool)
    (ha : (oid, a) ∈ s.oidHash) :
    Held root ((reopen env root canUse oid a).final s) := by
  have hdropped : Held root ((dropUnusable env canUse a).final s) :=
    held_dropUnusable canUse a s h
  have hhash : ((dropUnusable env canUse a).final s).oidHash = s.oidHash :=
    ((passive_untouched env).dropUnusable canUse a s).data.oidHash
  rw [reopen]
  cases hdrop : dropUnusable env canUse a s with
  | error e t =>
      rw [final_of_error (bind_of_error hdrop)]
      rwa [final_of_error hdrop] at hdropped
  | ok _ t =>
      rw [final_of_ok hdrop] at hdropped hhash
      obtain ⟨el, hel, hid⟩ := hdropped.elements.element _ (hhash ▸ ha)
      have hrun : (dropUnusable env canUse a >>= fun _ => oidEl a >>= fun el =>
          if el.fd = 0 then openElement env a (fileName shortPath root oid)
          else pure true) s =
            (if el.fd = 0 then openElement env a (fileName shortPath root oid)
              else pure true) t := by
        rw [bind_of_ok hdrop, bind_of_ok (oidEl_ok hel)]
      rw [final, hrun]
      split_ifs with hzero
      · exact held_openElement hdropped hel (by rw [hid])
      · exact hdropped

theorem openOid_eq_some (h : Elements none s)
    (hopen : openOid env root oid s = .ok (some a) t) :
    ∃ el, oidHashSearch s.oidHash oid = some a ∧ s.heap.lookup a = some el ∧
      el.id = oid := by
  cases hsearch : oidHashSearch s.oidHash oid with
  | none =>
      rw [openOid_of_none hsearch] at hopen
      cases hopen
  | some b =>
      obtain ⟨-, el, hel, hid⟩ := h.search hsearch
      suffices hab : b = a by
        subst hab
        exact ⟨el, rfl, hel, hid⟩
      rw [openOid_of_some hsearch hel] at hopen
      split_ifs at hopen
      · obtain ⟨opened, u, -, hpure⟩ := bind_eq_ok.mp hopen
        obtain ⟨hif, -⟩ := pure_eq_ok.mp hpure
        cases opened
        · cases hif
        · exact Option.some.inj hif
      · exact Option.some.inj (EStateM.Result.ok.inj hopen).1

/-- What an operation does to open its object. -/
theorem held_opening (hroot : Untruncated root) (h : Held root s) (oid : Oid)
    (m : Option (Mode → Bool)) : Held root ((opening env root oid m).final s) := by
  have hopened : Held root ((openOid env root oid).final s) :=
    held_openOid hroot h oid
  have hhash : ((openOid env root oid).final s).oidHash = s.oidHash :=
    ((passive_untouched env).openOid oid s).data.oidHash
  cases m with
  | none =>
      rw [final_opening_none]
      exact hopened
  | some canUse =>
      cases hrun : openOid env root oid s with
      | error e t =>
          rw [opening, final_of_error (bind_of_error hrun)]
          rwa [final_of_error hrun] at hopened
      | ok found t =>
          rw [final_of_ok hrun] at hopened hhash
          cases found with
          | none =>
              rw [final_opening_of_none hrun]
              exact hopened
          | some a =>
              obtain ⟨el, hsearch, -, -⟩ := openOid_eq_some h.elements hrun
              have hmem := (h.elements.search hsearch).1
              rw [final_opening_of_some hrun]
              exact held_reopen hopened canUse (hhash ▸ hmem)

end Operations

/-! ### Creating and removing -/

section Create

variable {a : ℕ} {el : OidEl}

theorem creat_names (env : Env Mac) (s : Store) (path : Path) :
    path ∈ (s.creat env path).files.names ∧ ∀ p ≠ path,
      (s.creat env path).files.names.lookup p = s.files.names.lookup p := by
  simp only [Store.creat, Files.sysCreat, reduceCtorEq, if_false]
  cases hname : s.files.names.lookup path with
  | some inode => exact ⟨Table.mem_of_lookup hname, fun _ _ => rfl⟩
  | none =>
      exact ⟨AList.mem_insert _ |>.mpr (.inl rfl), fun p hp =>
        AList.lookup_insert_ne hp⟩

/-- The files of the other objects stay where they are. -/
theorem Held.creat (hroot : Untruncated root) (h : Held root s)
    (hoid : oid ∉ s.oidHash.map Prod.fst) (hheap : t.heap = s.heap)
    (hhash : t.oidHash = s.oidHash) (helements : Elements none t)
    (hnames : t.files.names =
      (s.creat env (fileName shortPath root oid)).files.names)
    (hfds : ∀ b elb f, s.heap.lookup b = some elb →
      t.files.fds.lookup elb.fd = some f → s.files.fds.lookup elb.fd = some f) :
    Held root t := by
  obtain ⟨-, hkeep⟩ := creat_names env s (fileName shortPath root oid)
  have hother : ∀ oid', (∃ a, (oid', a) ∈ s.oidHash) →
      t.files.names.lookup (fileName shortPath root oid') =
        s.files.names.lookup (fileName shortPath root oid') := by
    rintro oid' ⟨a, ha⟩
    rw [hnames]
    refine hkeep _ fun heq => hoid ?_
    rw [← fileName_inj hroot heq]
    exact List.mem_map_of_mem ha
  refine ⟨helements, ?_, ?_⟩
  · rw [hhash]
    intro e he
    rw [← AList.lookup_isSome, hother e.1 ⟨e.2, he⟩, AList.lookup_isSome]
    exact h.named e he
  · rw [hheap]
    intro b elb f hb hf
    rw [hother elb.id ⟨b, h.elements.mem_oidHash hb⟩]
    exact h.own b elb f hb (hfds b elb f hb hf)

theorem Held.track (h : Held root s) (hoid : oid ∉ s.oidHash.map Prod.fst)
    (hname : fileName shortPath root oid ∈ s.files.names) :
    Held root (s.track oid) where
  elements := h.elements.track hoid
  named := by
    intro e he
    rcases List.mem_cons.mp he with rfl | he
    · exact hname
    · exact h.named e he
  own := by
    intro b elb f hb hf
    rcases h.elements.lookup_track.mp hb with ⟨-, rfl⟩ | hb
    · exact absurd (Table.mem_of_lookup hf) h.elements.zero_notMem
    · exact h.own b elb f hb hf

/-- `access` finds the file of an object that is in the table. -/
theorem held_create (hroot : Untruncated root) (h : Held root s) (oid : Oid)
    (hfind : oid ∈ s.oidHash.map Prod.fst → env.outcome s.calls ≠ .fail) :
    Held root ((sysioObjCreate env root oid).final s) := by
  let path := fileName shortPath root oid
  have hnew : Absent env root oid s → oid ∉ s.oidHash.map Prod.fst := by
    rintro (hfail | hnone) hmem
    · exact hfind hmem hfail
    · obtain ⟨e, he, rfl⟩ := List.mem_map.mp hmem
      exact hnone (h.named e he)
  rcases create_cases env root oid s with
    ⟨-, hsame | ⟨habsent, hleaked⟩⟩ | ⟨⟨habsent, -⟩, hrun⟩
  · exact h.of_sameOpen hsame
  · obtain ⟨inode, hfds⟩ := creat_fds env s path
    have hpos := env.newFd_pos s.files.fds
    have hfresh := env.newFd_fresh s.files.fds
    rw [hleaked]
    refine h.creat hroot (hnew habsent) rfl rfl ?_ rfl fun b elb f hb hf => ?_
    · refine h.elements.of_heap_eq rfl rfl rfl (fun fd hfd => ?_) fun fd hfd => ?_
      · show fd ∈ (s.creat env path).files.fds
        rw [hfds]
        exact AList.mem_insert _ |>.mpr (.inr hfd)
      · have hmem : fd ∈ (s.creat env path).files.fds := hfd
        rw [hfds] at hmem
        rcases AList.mem_insert _ |>.mp hmem with rfl | hmem
        · exact hpos
        · exact h.elements.positive fd hmem
    · have hf' : (s.creat env path).files.fds.lookup elb.fd = some f := hf
      rwa [hfds, AList.lookup_insert_ne (h.elements.fd_ne hpos hfresh hb)] at hf'
  · let v := s.created env path
    have hmem : ∀ fd, fd ∈ v.files.fds ↔ fd ∈ s.files.fds := by
      intro fd
      rw [← AList.lookup_isSome, created_fds, AList.lookup_isSome]
    have hv : Held root v :=
      h.creat hroot (hnew habsent) rfl rfl
        (h.elements.of_heap_eq rfl rfl rfl (fun fd => (hmem fd).mpr)
          fun fd hfd => h.elements.positive fd ((hmem fd).mp hfd)) rfl
        fun b elb f _ hf => (created_fds path elb.fd).symm.trans hf
    have htrack := hv.track (hnew habsent)
      (creat_names env s (fileName shortPath root oid)).1
    rw [final, hrun]
    exact held_addToOpenFiles _ _ htrack

theorem held_forget (h : Held root s)
    (ha : oidHashSearch s.oidHash oid = some a)
    (hel : s.heap.lookup a = some el) (env : Env Mac) (l : List ℕ) :
    Held root (s.forget env oid a el l) := by
  let u : Store := { s.unhash oid with openFilesList := l }
  have hu : Elements (some a) u := (h.elements.unhash ha).setList l
  refine ⟨h.elements.forget ha hel l, ?_, ?_⟩
  · intro e he
    have hmem : e ∈ (s.unhash oid).oidHash := by
      rw [Store.forget, Store.free, closing_oidHash] at he
      exact he
    show fileName shortPath root e.1 ∈ (u.closing env a el).files.names
    rw [closing_names]
    exact h.named e (List.mem_of_mem_eraseP hmem)
  · intro b elb f hb hf
    have hne : b ≠ a := by
      rintro rfl
      rw [Store.forget, Store.free, AList.lookup_erase] at hb
      cases hb
    rw [Store.forget, Store.free, AList.lookup_erase_ne hne,
      lookup_closing_ne hne] at hb
    have hfu : (u.closing env a el).files.fds.lookup elb.fd = some f := hf
    rw [hu.lookup_fds_closing hel hne hb] at hfu
    show (u.closing env a el).files.names.lookup _ = _
    rw [closing_names]
    exact h.own b elb f hb hfu

/-- An object that is forgotten takes only its own file with it. -/
theorem Held.unlink (hroot : Untruncated root) (h : Held root s)
    (hno : ∀ e ∈ s.oidHash, e.1 ≠ oid) :
    Held root (s.unlink (fileName shortPath root oid)) := by
  have hother : ∀ e ∈ s.oidHash,
      (s.files.names.erase (fileName shortPath root oid)).lookup
          (fileName shortPath root e.1) =
        s.files.names.lookup (fileName shortPath root e.1) := by
    intro e he
    exact AList.lookup_erase_ne fun heq => hno e he (fileName_inj hroot heq)
  refine ⟨h.elements.of_heap_eq rfl rfl rfl (fun _ => id) h.elements.positive,
    ?_, ?_⟩
  · intro e he
    rw [← AList.lookup_isSome]
    exact (congrArg Option.isSome (hother e he)).trans
      (AList.lookup_isSome.mpr (h.named e he))
  · intro b elb f hb hf
    have hmem := h.elements.mem_oidHash hb
    exact (hother _ hmem).trans (h.own b elb f hb hf)

/-- A removal that does not stop the server. -/
theorem held_remove (hroot : Untruncated root) (h : Held root s) (oid : Oid)
    (hup : survives ((sysioObjRemove env root oid).outcome s) = true) :
    Held root ((sysioObjRemove env root oid).final s) := by
  cases ha : oidHashSearch s.oidHash oid with
  | none => exact h.of_sameOpen (remove_of_none ha)
  | some a =>
      obtain ⟨-, el, hel, -⟩ := h.elements.search ha
      by_cases hdropped : ∃ l, Dropped s el l
      · obtain ⟨l, hl⟩ := hdropped
        obtain ⟨t, ht, hsame⟩ := remove_of_dropped env root ha hel hl
        have hforget := held_forget h ha hel env l
        refine Held.of_sameOpen ?_ hsame
        rcases ht with rfl | rfl
        · exact hforget
        · refine hforget.unlink hroot fun e he => ?_
          rw [Store.forget, Store.free, closing_oidHash] at he
          exact h.elements.notMem_unhash e he
      · rw [remove_of_dangling ha hel (not_exists.mp hdropped)] at hup
        cases hup

end Create

/-! ### Runs -/

/-- Where a file is to be created for an object that has one, `access` does
not fail. -/
def Truthful (root : Path) (s : Server) (r : Env Mac × ObjOp) : Prop :=
  ∀ oid, r.2 = .create oid →
    fileName shortPath root oid ∈ s.store.files.names →
      r.1.outcome s.store.calls ≠ .fail

/-- One operation on an object, if the server goes on after it. -/
theorem held_run (hroot : Untruncated root) (h : Held root s) {op : ObjOp}
    (haccess : ∀ oid, op = .create oid →
      fileName shortPath root oid ∈ s.files.names → env.outcome s.calls ≠ .fail)
    (hup : ∀ oid, op = .remove oid →
      survives ((sysioObjRemove env root oid).outcome s) = true) :
    Held root ((op.run env root).final s) := by
  cases hop : op.opens with
  | some om =>
      exact (held_opening hroot h om.1 om.2).of_sameOpen (sameOpen_run hop s)
  | none =>
      cases op <;> simp only [ObjOp.opens, reduceCtorEq] at hop
      case create oid =>
        refine held_create hroot h oid fun hmem => ?_
        obtain ⟨e, he, rfl⟩ := List.mem_map.mp hmem
        exact haccess e.1 rfl (h.named e he)
      case remove oid => exact held_remove hroot h oid (hup oid rfl)

theorem held_objStep (hroot : Untruncated root) {s : Server}
    (h : s.up = true → Held root s.store) {r : Env Mac × ObjOp}
    (hr : Truthful root s r) (hup : (objStep root s r).up = true) :
    Held root (objStep root s r).store := by
  obtain ⟨env, op⟩ := r
  unfold objStep at hup ⊢
  split_ifs at hup ⊢ with hs
  · refine held_run hroot (h hs) hr fun oid hop => ?_
    have hremove : op = .remove oid := hop
    subst hremove
    exact hup
  · exact h hup

theorem Started.held {s : Server} (h : Started Mac root s) :
    Held root s.store := by
  obtain ⟨dir, hscan⟩ := h.scanned
  refine ⟨hscan.elements, fun e he => ?_, fun a el f ha hf => ?_⟩
  · rw [hscan.files]
    exact (hscan.named e he).resolve_left List.not_mem_nil
  · have hzero : el.fd = 0 := (hscan.closed a el ha).resolve_left fun hnone =>
      AList.notMem_empty a (Table.mem_of_lookup hnone)
    rw [hzero] at hf
    exact absurd (Table.mem_of_lookup hf) hscan.elements.zero_notMem

/-- The element has no descriptor of a file that could not be opened, and it
is not the one whose file is closed to make room for it. -/
def Reaches (env : Env Mac) (a : ℕ) (s : Store) : Prop :=
  ∃ el, s.heap.lookup a = some el ∧ el.fd ≠ -1 ∧
    ¬ (el.fd = 0 ∧ s.openFilesList.length = maxOpenFiles ∧
      s.openFilesList.getLastD 0 = a ∧ env.outcome (s.calls + 1) ≠ .fail)

/-- The element that is put on the list keeps its descriptor, unless it is at
the end of the full list itself. -/
theorem usable_addToOpenFiles (h : Held root s) {a : ℕ} {el : OidEl}
    (ha : s.heap.lookup a = some el) (hid : el.id = oid)
    (hopen : el.fd ∈ s.files.fds) (hadd : addToOpenFiles env a s = .ok () t) :
    Usable root oid a t ↔
      ¬ (s.openFilesList.length = maxOpenFiles ∧
        s.openFilesList.getLastD 0 = a ∧ env.outcome s.calls ≠ .fail) := by
  have hheld : Held root t := by
    have hkeep : Held root ((addToOpenFiles env a).final s) :=
      held_addToOpenFiles a s h
    rwa [final_of_ok hadd] at hkeep
  have husable : ∀ u : Store, Held root u → u.heap.lookup a = some el →
      el.fd ∈ u.files.fds → Usable root oid a u := by
    intro u hu hua hmem
    obtain ⟨f, hf⟩ := Table.mem_iff_lookup.mp hmem
    exact ⟨el, f, hua, hf, hid ▸ hu.own a el f hua hf⟩
  rcases Nat.lt_trichotomy s.openFilesList.length maxOpenFiles with
    hlt | hfull | hgt
  · rw [addToOpenFiles_of_lt hlt] at hadd
    obtain ⟨-, rfl⟩ := EStateM.Result.ok.inj hadd
    exact iff_of_true (husable _ hheld ha hopen) fun hbad =>
      Nat.ne_of_lt hlt hbad.1
  · rw [addToOpenFiles_of_eq hfull] at hadd
    obtain ⟨_, u, hremove, hunshift⟩ := bind_eq_ok.mp hadd
    obtain ⟨-, rfl⟩ := EStateM.Result.ok.inj hunshift
    rcases removeFromOpenFiles_cases env (s.openFilesList.getLastD 0) s with
      herror | ⟨elb, l, helb, -, hok⟩
    · rw [herror] at hremove
      cases hremove
    rw [hok] at hremove
    obtain ⟨-, rfl⟩ := EStateM.Result.ok.inj hremove
    let w : Store := { s with openFilesList := l }
    have hw : Elements none w := h.elements.setList l
    -- the last of the list gives way, and is closed unless close() fails
    rcases eq_or_ne (s.openFilesList.getLastD 0) a with hlast | hlast
    · rw [hlast] at helb
      obtain rfl : el = elb := Option.some.inj (ha.symm.trans helb)
      have hne : el.fd ≠ 0 := fun hz => h.elements.zero_notMem (hz ▸ hopen)
      by_cases hfail : env.outcome s.calls = .fail
      · have hclosing : w.closing env a el = { w with calls := w.calls + 1 } := by
          rw [Store.closing, if_neg hne, if_neg fun hclose => hclose.1 hfail]
        rw [hlast] at hheld ⊢
        rw [hclosing] at hheld ⊢
        exact iff_of_true (husable _ hheld ha hopen) fun hbad => hbad.2.2 hfail
      · have hclosing : w.closing env a el = w.close a el := by
          rw [Store.closing, if_neg hne, if_pos ⟨hfail, hopen⟩]
        rw [hlast] at hheld ⊢
        rw [hclosing] at hheld ⊢
        refine iff_of_false ?_ (not_not.mpr ⟨hfull, rfl, hfail⟩)
        rintro ⟨el', f, hel', hf, -⟩
        obtain rfl : el.closed = el' :=
          Option.some.inj ((AList.lookup_insert _).symm.trans hel')
        exact hheld.elements.zero_notMem (Table.mem_of_lookup hf)
    · have hta : (w.closing env (s.openFilesList.getLastD 0) elb).heap.lookup a =
          some el := (lookup_closing_ne hlast.symm).trans ha
      have hmem : el.fd ∈ (w.closing env (s.openFilesList.getLastD 0)
          elb).files.fds := (hw.mem_fds_closing helb hlast.symm ha).mpr hopen
      exact iff_of_true (husable _ hheld hta hmem) fun hbad => hlast hbad.2.1
  · rw [addToOpenFiles_of_gt hgt] at hadd
    obtain ⟨-, rfl⟩ := EStateM.Result.ok.inj hadd
    exact iff_of_true (husable _ hheld ha hopen) fun hbad =>
      Nat.ne_of_gt hgt hbad.1

/-- What `open_oid` hands out is usable exactly in these states. -/
theorem Held.usable_iff (hroot : Untruncated root) (h : Held root s) {a : ℕ}
    (hopen : openOid env root oid s = .ok (some a) t) :
    Usable root oid a t ↔ Reaches env a s := by
  obtain ⟨el, hsearch, hel, hid⟩ := openOid_eq_some h.elements hopen
  have hreaches : Reaches env a s ↔ el.fd ≠ -1 ∧
      ¬ (el.fd = 0 ∧ s.openFilesList.length = maxOpenFiles ∧
        s.openFilesList.getLastD 0 = a ∧ env.outcome (s.calls + 1) ≠ .fail) := by
    constructor
    · rintro ⟨el', hel', hcond⟩
      obtain rfl : el = el' := Option.some.inj (hel.symm.trans hel')
      exact hcond
    · exact fun hcond => ⟨el, hel, hcond⟩
  rw [hreaches]
  rw [openOid_of_some hsearch hel] at hopen
  split_ifs at hopen with hzero
  · obtain ⟨opened, u, hrun, hpure⟩ := bind_eq_ok.mp hopen
    obtain ⟨hif, rfl⟩ := pure_eq_ok.mp hpure
    by_cases hopens : ∃ inode, Opens env s (openPath root oid) inode
    · obtain ⟨inode, hopens⟩ := hopens
      have hpos := env.newFd_pos s.files.fds
      have hname : s.files.names.lookup (fileName shortPath root el.id) =
          some inode := by
        rw [hid, ← fileName_longPath hroot]
        exact hopens.2
      let v := s.open a el (env.newFd s.files.fds) inode
      have hv : Held root v := h.open hel hpos (env.newFd_fresh _) hname
      have hva : v.heap.lookup a = some { el with
          fd := env.newFd s.files.fds, mode := Mode.rPlus } :=
        AList.lookup_insert _
      have hmem : env.newFd s.files.fds ∈ v.files.fds :=
        AList.mem_insert _ |>.mpr (.inl rfl)
      rw [openElement_of_opens hel hopens] at hrun
      obtain ⟨_, w, hadd, hw⟩ := bind_eq_ok.mp hrun
      obtain ⟨-, rfl⟩ := pure_eq_ok.mp hw
      rw [usable_addToOpenFiles hv hva hid hmem hadd]
      have hne : el.fd ≠ -1 := by omega
      simp only [hzero, true_and]
      exact (and_iff_right (by omega)).symm
    · rw [openElement_of_refused hel (not_exists.mp hopens)] at hrun
      obtain ⟨rfl, -⟩ := EStateM.Result.ok.inj hrun
      cases hif
  · obtain ⟨-, rfl⟩ := EStateM.Result.ok.inj hopen
    rw [and_iff_left fun hbad => hzero hbad.1]
    constructor
    · rintro ⟨el', f, hel', hf, -⟩ hneg
      obtain rfl : el = el' := Option.some.inj (hel.symm.trans hel')
      rw [hneg] at hf
      exact h.elements.neg_notMem (Table.mem_of_lookup hf)
    · intro hne
      have hmem := ((h.elements.value a el hel).resolve_left hzero).resolve_left hne
      obtain ⟨f, hf⟩ := Table.mem_iff_lookup.mp hmem
      exact ⟨el, f, hel, hf, hid ▸ h.own a el f hel hf⟩

/-- The calls that follow `open_oid` in the operations that do not look at the
mode all use the descriptor of the element. -/
theorem uses_descriptor {a : ℕ} {el : OidEl}
    (hopen : openOid env root oid s = .ok (some a) t)
    (ha : t.heap.lookup a = some el) (size : ℕ) :
    sysioObjFsync env root oid s =
        (sys env (fun o fs => fs.sysFsync o el.fd) >>= fun synced =>
          if synced then pure () else throw (.code .errStorage)) t ∧
      sysioObjTrunc env root oid size s =
        (sys env (fun o fs => fs.sysFtruncate o el.fd size) >>= fun truncated =>
          pure (if truncated then 1 else 0)) t ∧
      sysioObjStat env root oid s =
        (sys env (fun o fs => fs.sysFstat o el.fd) >>= fun found =>
          found.elim (throw (.code .err)) fun n =>
            pure ⟨⟨env.atime, 0⟩, ⟨env.mtime, 0⟩, ⟨env.ctime, 0⟩,
              UInt64.ofNat n⟩) t := by
  have hel : oidEl a t = .ok el t := oidEl_ok ha
  refine ⟨?_, ?_, ?_⟩
  · rw [sysioObjFsync, bind_of_ok hopen]
    simp only
    rw [bind_of_ok hel]
  · rw [sysioObjTrunc, bind_of_ok hopen]
    simp only
    rw [bind_of_ok hel]
  · rw [sysioObjStat, bind_of_ok hopen]
    simp only
    rw [bind_of_ok hel]
    refine congrFun (bind_congr fun found => ?_) t
    cases found <;> rfl

/-- In every state a run reaches, `open_oid` hands out a usable descriptor
exactly where `Reaches` says so, and the operations that do not look at the
mode use no other descriptor. -/
theorem openOid_usable_iff (hroot : Untruncated root) {s : Server}
    (hs : Started Mac root s) {run : List (Env Mac × ObjOp)}
    (hrun : Run.Along (objStep root) (Truthful root) s run)
    (hup : (Run.exec (objStep root) s run).up = true) {a : ℕ}
    (hopen : openOid env root oid (Run.exec (objStep root) s run).store =
      .ok (some a) t) :
    (Usable root oid a t ↔ Reaches env a (Run.exec (objStep root) s run).store) ∧
      ∀ el size, t.heap.lookup a = some el →
        sysioObjFsync env root oid (Run.exec (objStep root) s run).store =
            (sys env (fun o fs => fs.sysFsync o el.fd) >>= fun synced =>
              if synced then pure () else throw (.code .errStorage)) t ∧
          sysioObjTrunc env root oid size
              (Run.exec (objStep root) s run).store =
            (sys env (fun o fs => fs.sysFtruncate o el.fd size) >>=
              fun truncated => pure (if truncated then 1 else 0)) t ∧
          sysioObjStat env root oid (Run.exec (objStep root) s run).store =
            (sys env (fun o fs => fs.sysFstat o el.fd) >>= fun found =>
              found.elim (throw (.code .err)) fun n =>
                pure ⟨⟨env.atime, 0⟩, ⟨env.mtime, 0⟩, ⟨env.ctime, 0⟩,
                  UInt64.ofNat n⟩) t := by
  have hheld := Run.exec_invariant
    (fun (s : Server) r (h : s.up = true → Held root s.store) hr hup =>
      held_objStep hroot h hr hup) (fun _ => hs.held) hrun hup
  exact ⟨hheld.usable_iff hroot hopen, fun el size ha =>
    uses_descriptor hopen ha size⟩

/-- An object that was created is opened where the host opens its file. -/
theorem openOid_usable_created :
    let root : Path := ['/', 'r']
    let env : Env Unit := Env.quiet fun _ => none
    let s := Run.exec (objStep root) Server.init [(env, ObjOp.create Oid.zero)]
    Usable root Oid.zero 0 ((openOid env root Oid.zero).final s.store) := by
  intro root env s
  have hstarted : Started Unit root Server.init :=
    ⟨rfl, ⟨Files.empty, [], List.nodup_nil, rfl⟩, env, rfl⟩
  have hrun : Run.Along (objStep root) (Truthful root) Server.init
      [(env, ObjOp.create Oid.zero)] := ⟨fun _ _ _ => nofun, trivial⟩
  have hopen : openOid env root Oid.zero s.store =
      .ok (some 0) ((openOid env root Oid.zero).final s.store) := rfl
  have hroot : Untruncated root := untruncated_iff.mpr (by decide)
  refine (openOid_usable_iff hroot hstarted hrun rfl hopen).1.mpr
    ⟨⟨0, Oid.zero, Mode.zero⟩, by decide +kernel, by decide, ?_⟩
  rintro ⟨-, hfull, -⟩
  have hshort : s.store.openFilesList.length ≠ maxOpenFiles := by decide +kernel
  exact hshort hfull

/-- A host that does not open files. -/
def refusingEnv : Env Unit :=
  { Env.quiet (fun _ => none) with outcome := fun _ => .fail }

/-- After an `open` that failed, `open_oid` hands out the element all the
same, with the descriptor `-1`. -/
theorem refused_element_handed_out :
    let root : Path := ['/', 'r']
    let env : Env Unit := Env.quiet fun _ => none
    let s := Run.exec (objStep root) Server.init
      [(env, ObjOp.create Oid.zero), (refusingEnv, .stat Oid.zero)]
    Started Unit root Server.init ∧ s.up = true ∧
      openOid env root Oid.zero s.store = .ok (some 0) s.store ∧
      s.store.heap.lookup 0 = some ⟨-1, Oid.zero, Mode.zero⟩ ∧
      ¬ Usable root Oid.zero 0 s.store := by
  intro root env s
  have hel : s.store.heap.lookup 0 = some ⟨-1, Oid.zero, Mode.zero⟩ := by
    decide +kernel
  refine ⟨⟨rfl, ⟨Files.empty, [], List.nodup_nil, rfl⟩, env, rfl⟩, rfl, rfl,
    hel, ?_⟩
  rintro ⟨el, f, hel', hf, -⟩
  obtain rfl := Option.some.inj (hel.symm.trans hel')
  have hclosed : s.store.files.fds.lookup (-1) = none := by decide +kernel
  exact absurd (hf.symm.trans hclosed) (Option.some_ne_none f)

end Lwfs.Storage
