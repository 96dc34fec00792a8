import Lwfs.Storage.ObjectOps

/-!
The list of open files, as `open_oid` and `remove_oid` take it to be.

They put an element on the list when they give it a descriptor, and they look
for it there when it has one. What they rely on is that the list holds the
elements whose files are open, each once, and no others. A file that is
created is on the list without a descriptor, and that is where it goes wrong.
-/

namespace Lwfs.Storage

open SysLib Routine

variable {Mac : Type} {env : Env Mac} {root : Path} {s t : Store} {oid : Oid}

/-- The list holds the elements of the table whose files are open, each once,
and it is not too long. -/
structure OpenListExact (s : Store) : Prop where
  tracked : ∀ a ∈ s.openFilesList, ∃ e ∈ s.oidHash, e.2 = a
  nodup : s.openFilesList.Nodup
  open_iff : ∀ a el, s.heap.lookup a = some el →
    (a ∈ s.openFilesList ↔ el.fd ∈ s.files.fds)
  length_le : s.openFilesList.length ≤ maxOpenFiles

theorem SameOpen.exact_iff (h : SameOpen s t) :
    OpenListExact t ↔ OpenListExact s := by
  constructor
  · intro ht
    refine ⟨?_, ?_, ?_, ?_⟩
    · rw [← h.openFilesList, ← h.oidHash]
      exact ht.tracked
    · rw [← h.openFilesList]
      exact ht.nodup
    · intro a el ha
      rw [← h.openFilesList, ← h.mem_fds]
      rw [← h.heap] at ha
      exact ht.open_iff a el ha
    · rw [← h.openFilesList]
      exact ht.length_le
  · intro hs
    refine ⟨?_, ?_, ?_, ?_⟩
    · rw [h.openFilesList, h.oidHash]
      exact hs.tracked
    · rw [h.openFilesList]
      exact hs.nodup
    · intro a el ha
      rw [h.openFilesList, h.mem_fds]
      rw [h.heap] at ha
      exact hs.open_iff a el ha
    · rw [h.openFilesList]
      exact hs.length_le

/-- The list and the elements, with an element that has its descriptor already
and is about to be put on the list, if there is one. -/
structure Listed (pending : Option ℕ) (s : Store) : Prop where
  elements : Elements none s
  mem_heap : ∀ a ∈ s.openFilesList, a ∈ s.heap
  nodup : s.openFilesList.Nodup
  notMem : ∀ a, pending = some a → a ∉ s.openFilesList
  open_iff : ∀ a el, s.heap.lookup a = some el →
    (pending = some a ∨ a ∈ s.openFilesList ↔ el.fd ∈ s.files.fds)
  mode : ∀ a el, s.heap.lookup a = some el → el.fd ∈ s.files.fds →
    el.mode = Mode.rPlus
  length_le : s.openFilesList.length ≤ maxOpenFiles

namespace Listed

variable {pending : Option ℕ} {a b : ℕ} {el elb : OidEl}

theorem exact (h : Listed none s) : OpenListExact s where
  tracked := by
    intro a ha
    obtain ⟨el, hel⟩ := Table.mem_iff_lookup.mp (h.mem_heap a ha)
    exact ⟨_, h.elements.mem_oidHash hel, rfl⟩
  nodup := h.nodup
  open_iff := by
    intro a el ha
    rw [← h.open_iff a el ha, or_iff_right (Option.some_ne_none _).symm]
  length_le := h.length_le

/-- The elements and the list stay, and so does every open descriptor. -/
theorem of_heap_eq (h : Listed pending s) (hheap : t.heap = s.heap)
    (hhash : t.oidHash = s.oidHash) (hnext : t.nextEl = s.nextEl)
    (hlist : t.openFilesList = s.openFilesList)
    (hsub : ∀ fd ∈ s.files.fds, fd ∈ t.files.fds)
    (hpos : ∀ fd ∈ t.files.fds, 0 < fd) : Listed pending t := by
  have hback : ∀ a el, s.heap.lookup a = some el →
      (el.fd ∈ t.files.fds ↔ el.fd ∈ s.files.fds) := by
    intro a el ha
    refine ⟨fun hopen => ?_, hsub _⟩
    have hpositive := hpos _ hopen
    rcases h.elements.value a el ha with hzero | hneg | hmem
    · omega
    · omega
    · exact hmem
  refine ⟨h.elements.of_heap_eq hheap hhash hnext hsub hpos, ?_, ?_, ?_, ?_,
    ?_, ?_⟩
  · rw [hlist, hheap]
    exact h.mem_heap
  · rw [hlist]
    exact h.nodup
  · rw [hlist]
    exact h.notMem
  · intro a el ha
    rw [hheap] at ha
    rw [hlist, hback a el ha]
    exact h.open_iff a el ha
  · intro a el ha hopen
    rw [hheap] at ha
    exact h.mode a el ha ((hback a el ha).mp hopen)
  · rw [hlist]
    exact h.length_le

theorem of_sameOpen (hs : Listed pending s) (h : SameOpen s t) :
    Listed pending t :=
  hs.of_heap_eq h.heap h.oidHash h.nextEl h.openFilesList
    (fun fd => (h.mem_fds fd).mpr)
    fun fd hfd => hs.elements.positive fd ((h.mem_fds fd).mp hfd)

/-- The elements of the list have different contents. -/
theorem eq_of_contents (h : Listed pending s) (hb : b ∈ s.openFilesList)
    (hel : s.heap.lookup b = some el) (ha : s.heap.lookup a = some el) :
    b = a :=
  h.elements.distinct b a el el hel ha ((h.open_iff b el hel).mp (.inr hb)) rfl

/-- An element that is not open is not on the list. -/
theorem notMem_of_closed (h : Listed pending s)
    (ha : s.heap.lookup a = some el) (hclosed : el.fd ∉ s.files.fds) :
    a ∉ s.openFilesList :=
  fun hmem => hclosed ((h.open_iff a el ha).mp (.inr hmem))

theorem tclistDelete_eq (h : Listed pending s)
    (ha : s.heap.lookup a = some el) :
    tclistDelete s.heap el s.openFilesList = .ok (s.openFilesList.erase a) :=
  tclistDelete_of_inj ha h.mem_heap fun _ hb hel => h.eq_of_contents hb hel ha

end Listed

/-! ### One more element on the list -/

section Add

variable {pending : Option ℕ} {a b : ℕ} {el elb : OidEl}

theorem closing_of_closes (hzero : el.fd ≠ 0) (hok : env.outcome s.calls ≠ .fail)
    (hopen : el.fd ∈ s.files.fds) : s.closing env a el = s.close a el := by
  rw [Store.closing, if_neg hzero, if_pos ⟨hok, hopen⟩]

theorem closing_of_fails (hzero : el.fd ≠ 0)
    (hfail : env.outcome s.calls = .fail) :
    s.closing env a el = { s with calls := s.calls + 1 } := by
  rw [Store.closing, if_neg hzero, if_neg fun h => h.1 hfail]

/-- What `add_to_open_files` does where the elements on the list are as they
were. -/
theorem Listed.addToOpenFiles (h : Listed pending s)
    (hlist : t.openFilesList = s.openFilesList)
    (hheap : ∀ b ∈ s.openFilesList, t.heap.lookup b = s.heap.lookup b)
    (env : Env Mac) (a : ℕ) :
    (s.openFilesList.length < maxOpenFiles ∧ addToOpenFiles env a t =
      .ok () { t with openFilesList := a :: s.openFilesList }) ∨
    ∃ b elb, s.openFilesList.length = maxOpenFiles ∧ b ∈ s.openFilesList ∧
      s.heap.lookup b = some elb ∧ Storage.addToOpenFiles env a t = .ok ()
        { Store.closing env { t with
            openFilesList := s.openFilesList.erase b } b elb with
          openFilesList := a :: s.openFilesList.erase b } := by
  rcases Nat.lt_or_eq_of_le h.length_le with hlt | hfull
  · left
    rw [addToOpenFiles_of_lt (hlist ▸ hlt), hlist]
    exact ⟨hlt, rfl⟩
  · right
    have hne : s.openFilesList ≠ [] := by
      intro hnil
      rw [hnil] at hfull
      cases hfull
    let b := s.openFilesList.getLastD 0
    have hb : b ∈ s.openFilesList := by
      simp only [b]
      rw [List.getLastD_eq_getLast?, List.getLast?_eq_some_getLast hne]
      exact List.getLast_mem hne
    obtain ⟨elb, helb⟩ := Table.mem_iff_lookup.mp (h.mem_heap b hb)
    have htb : t.heap.lookup b = some elb := (hheap b hb).trans helb
    have hdelete : tclistDelete t.heap elb t.openFilesList =
        .ok (s.openFilesList.erase b) := by
      rw [hlist]
      refine tclistDelete_of_inj htb (fun c hc => ?_) fun c hc helc => ?_
      · rw [← AList.lookup_isSome, hheap c hc, AList.lookup_isSome]
        exact h.mem_heap c hc
      · rw [hheap c hc] at helc
        exact h.eq_of_contents hc helc helb
    refine ⟨b, elb, hfull, hb, helb, ?_⟩
    let u := Store.closing env { t with
      openFilesList := s.openFilesList.erase b } b elb
    have hu : u.openFilesList = s.openFilesList.erase b := closing_openFilesList
    have hunshift : tclistUnshift a u =
        .ok () { u with openFilesList := a :: s.openFilesList.erase b } := by
      rw [← hu]
      rfl
    rw [addToOpenFiles_of_eq (hlist ▸ hfull), hlist,
      bind_of_ok (removeFromOpenFiles_eq htb hdelete)]
    exact hunshift

theorem Listed.open (h : Listed none s) (ha : s.heap.lookup a = some el)
    (hzero : el.fd = 0) {fd : ℤ} (hpos : 0 < fd) (hfresh : fd ∉ s.files.fds)
    (inode : ℕ) : Listed (some a) (s.open a el fd inode) where
  elements := h.elements.open ha hpos hfresh inode
  mem_heap := fun b hb => AList.mem_insert _ |>.mpr (.inr (h.mem_heap b hb))
  nodup := h.nodup
  notMem := by
    rintro b hb
    obtain rfl := Option.some.inj hb
    exact h.notMem_of_closed ha (hzero ▸ h.elements.zero_notMem)
  open_iff := by
    intro b elb hb
    rcases eq_or_ne b a with rfl | hba
    · rw [Store.open, AList.lookup_insert, Option.some.injEq] at hb
      subst hb
      exact iff_of_true (.inl rfl) (AList.mem_insert _ |>.mpr (.inl rfl))
    · rw [Store.open, AList.lookup_insert_ne hba] at hb
      have hne := h.elements.fd_ne hpos hfresh hb
      have hmem : elb.fd ∈ (s.open a el fd inode).files.fds ↔
          elb.fd ∈ s.files.fds :=
        (AList.mem_insert _).trans (or_iff_right hne)
      rw [hmem, ← h.open_iff b elb hb, Option.some.injEq,
        or_iff_right (Ne.symm hba), or_iff_right (Option.some_ne_none _).symm]
      exact Iff.rfl
  mode := by
    intro b elb hb hopen
    rcases eq_or_ne b a with rfl | hba
    · rw [Store.open, AList.lookup_insert, Option.some.injEq] at hb
      subst hb
      rfl
    · rw [Store.open, AList.lookup_insert_ne hba] at hb
      have hne := h.elements.fd_ne hpos hfresh hb
      exact h.mode b elb hb ((AList.mem_insert _ |>.mp hopen).resolve_left hne)
  length_le := h.length_le

theorem Listed.close (h : Listed pending s) (hb : b ∈ s.openFilesList)
    (helb : s.heap.lookup b = some elb) :
    Listed pending (Store.close { s with
      openFilesList := s.openFilesList.erase b } b elb) := by
  have hnot : b ∉ s.openFilesList.erase b := h.nodup.not_mem_erase
  have hnot' : pending ≠ some b := fun hp => h.notMem b hp hb
  have hclosed : (0 : ℤ) ∉ s.files.fds.erase elb.fd := fun hmem =>
    h.elements.zero_notMem (AList.mem_erase.mp hmem).2
  have hiff : ∀ c elc, c ≠ b → s.heap.lookup c = some elc →
      (elc.fd ∈ s.files.fds.erase elb.fd ↔ elc.fd ∈ s.files.fds) := by
    intro c elc hcb hc
    rw [AList.mem_erase]
    exact and_iff_right_of_imp fun hopen heq =>
      hcb (h.elements.distinct c b elc elb hc helb hopen heq)
  refine ⟨(h.elements.setList _).close helb, ?_, h.nodup.erase b, ?_, ?_, ?_, ?_⟩
  · exact fun c hc => AList.mem_insert _ |>.mpr
      (.inr (h.mem_heap c (List.mem_of_mem_erase hc)))
  · exact fun c hp hc => h.notMem c hp (List.mem_of_mem_erase hc)
  · intro c elc hc
    rcases eq_or_ne c b with rfl | hcb
    · rw [Store.close, AList.lookup_insert, Option.some.injEq] at hc
      subst hc
      exact iff_of_false (by rintro (hp | hmem); exacts [hnot' hp, hnot hmem])
        hclosed
    · rw [Store.close, AList.lookup_insert_ne hcb] at hc
      show pending = some c ∨ c ∈ s.openFilesList.erase b ↔
        elc.fd ∈ s.files.fds.erase elb.fd
      rw [hiff c elc hcb hc, List.mem_erase_of_ne hcb]
      exact h.open_iff c elc hc
  · intro c elc hc hopen
    rcases eq_or_ne c b with rfl | hcb
    · rw [Store.close, AList.lookup_insert, Option.some.injEq] at hc
      subst hc
      exact absurd hopen hclosed
    · rw [Store.close, AList.lookup_insert_ne hcb] at hc
      exact h.mode c elc hc ((hiff c elc hcb hc).mp hopen)
  · exact Nat.le_trans (List.length_erase_le) h.length_le

theorem Listed.unshift (h : Listed (some a) s) (ha : a ∈ s.heap)
    (hlt : s.openFilesList.length < maxOpenFiles) :
    Listed none { s with openFilesList := a :: s.openFilesList } where
  elements := h.elements.setList _
  mem_heap := by
    intro b hb
    rcases List.mem_cons.mp hb with rfl | hb
    · exact ha
    · exact h.mem_heap b hb
  nodup := List.nodup_cons.mpr ⟨h.notMem a rfl, h.nodup⟩
  notMem := fun a ha => absurd ha (Option.some_ne_none a).symm
  open_iff := by
    intro b elb hb
    rw [← h.open_iff b elb hb, or_iff_right (Option.some_ne_none _).symm, List.mem_cons,
      Option.some.injEq, eq_comm]
  mode := h.mode
  length_le := hlt

end Add

/-! ### Opening a file -/

section Opening

variable {a : ℕ} {el : OidEl}

/-- To open the file of an object the file of another element has to be
closed, and the host does not close it. -/
def EvictionFails (env : Env Mac) (root : Path) (oid : Oid) (s : Store) : Prop :=
  ∃ a el inode, oidHashSearch s.oidHash oid = some a ∧
    s.heap.lookup a = some el ∧ el.fd = 0 ∧
    Opens env s (openPath root oid) inode ∧
    s.openFilesList.length = maxOpenFiles ∧ env.outcome (s.calls + 1) = .fail

theorem Listed.refuse (h : Listed none s) (ha : s.heap.lookup a = some el)
    (hzero : el.fd = 0) : Listed none (s.refuse a el) where
  elements := h.elements.refuse ha
  mem_heap := fun b hb => AList.mem_insert _ |>.mpr (.inr (h.mem_heap b hb))
  nodup := h.nodup
  notMem := fun a ha => absurd ha (Option.some_ne_none a).symm
  open_iff := by
    intro b elb hb
    rcases eq_or_ne b a with rfl | hba
    · rw [Store.refuse, AList.lookup_insert, Option.some.injEq] at hb
      subst hb
      rw [or_iff_right (Option.some_ne_none _).symm]
      exact iff_of_false
        (h.notMem_of_closed ha (hzero ▸ h.elements.zero_notMem))
        h.elements.neg_notMem
    · rw [Store.refuse, AList.lookup_insert_ne hba] at hb
      exact h.open_iff b elb hb
  mode := by
    intro b elb hb hopen
    rcases eq_or_ne b a with rfl | hba
    · rw [Store.refuse, AList.lookup_insert, Option.some.injEq] at hb
      subst hb
      exact absurd hopen h.elements.neg_notMem
    · rw [Store.refuse, AList.lookup_insert_ne hba] at hb
      exact h.mode b elb hb hopen
  length_le := h.length_le

/-- The file of an element is opened. The list stays right unless the host
does not close the file of the last element of a full list. -/
theorem Listed.openElement (h : Listed none s) (ha : s.heap.lookup a = some el)
    (hzero : el.fd = 0) {path : Path} {inode : ℕ}
    (hopens : Opens env s path inode) :
    ∃ t, openElement env a path s = .ok true t ∧
      (∃ el', t.heap.lookup a = some el' ∧ el'.fd ≠ 0 ∧
        el'.mode = Mode.rPlus) ∧
      (if s.openFilesList.length = maxOpenFiles ∧
          env.outcome (s.calls + 1) = .fail then ¬ OpenListExact t
        else Listed none t) := by
  let fd := env.newFd s.files.fds
  let u := s.open a el fd inode
  have hpos : 0 < fd := env.newFd_pos s.files.fds
  have hu : Listed (some a) u := h.open ha hzero hpos (env.newFd_fresh _) inode
  have hua : u.heap.lookup a = some { el with fd := fd, mode := Mode.rPlus } :=
    AList.lookup_insert _
  have hmem : a ∈ u.heap := Table.mem_of_lookup hua
  have hfd : fd ≠ 0 := by omega
  rcases hu.addToOpenFiles rfl (fun _ _ => rfl) env a with
    ⟨hlt, hadd⟩ | ⟨b, elb, hfull, hb, helb, hadd⟩
  · refine ⟨{ u with openFilesList := a :: u.openFilesList }, ?_,
      ⟨_, hua, hfd, rfl⟩, ?_⟩
    · rw [openElement_of_opens ha hopens, bind_of_ok hadd]
      rfl
    · rw [if_neg fun hbad => Nat.ne_of_lt hlt hbad.1]
      exact hu.unshift hmem hlt
  · have hba : b ≠ a := by
      rintro rfl
      exact hu.notMem b rfl hb
    have hopen : elb.fd ∈ u.files.fds := (hu.open_iff b elb helb).mp (.inr hb)
    have hne : elb.fd ≠ 0 := fun hz => hu.elements.zero_notMem (hz ▸ hopen)
    refine ⟨_, by rw [openElement_of_opens ha hopens, bind_of_ok hadd]; rfl, ?_⟩
    let v : Store := { u with openFilesList := u.openFilesList.erase b }
    by_cases hfail : env.outcome (s.calls + 1) = .fail
    · have hclosing : v.closing env b elb = { v with calls := v.calls + 1 } :=
        closing_of_fails hne hfail
      rw [if_pos ⟨hfull, hfail⟩, hclosing]
      refine ⟨⟨_, hua, hfd, rfl⟩, fun hexact => ?_⟩
      -- the file stays open, and its element is no longer on the list
      have hmem : b ∈ a :: u.openFilesList.erase b :=
        (hexact.open_iff b elb helb).mpr hopen
      rcases List.mem_cons.mp hmem with heq | hmem
      · exact hba heq
      · exact hu.nodup.not_mem_erase hmem
    · have hclosing : v.closing env b elb = v.close b elb :=
        closing_of_closes hne hfail hopen
      rw [if_neg fun hbad => hfail hbad.2, hclosing]
      have hlen : (u.openFilesList.erase b).length < maxOpenFiles := by
        rw [List.length_erase_of_mem hb, hfull]
        decide
      have hva : (v.close b elb).heap.lookup a =
          some { el with fd := fd, mode := Mode.rPlus } := by
        rw [Store.close, AList.lookup_insert_ne (Ne.symm hba)]
        exact hua
      exact ⟨⟨_, hva, hfd, rfl⟩,
        (hu.close hb helb).unshift (Table.mem_of_lookup hva) hlen⟩

/-- Neither the mode check nor the second opening changes anything where the
list is right. -/
theorem sameOpen_opened {canUse : Mode → Bool}
    (hmode : canUse Mode.rPlus = true) (ha : s.heap.lookup a = some el)
    (hne : el.fd ≠ 0) (hopen : el.mode = Mode.rPlus ∨ Listed none s ∧
      el.fd ∉ s.files.fds) :
    SameOpen s ((reopen env root canUse oid a).final s) := by
  have hkeep : ∀ t, SameOpen s t → dropUnusable env canUse a s = .ok () t →
      SameOpen s ((reopen env root canUse oid a).final s) := by
    intro t hst hdrop
    have hta : oidEl a t = .ok el t := oidEl_ok (hst.heap ▸ ha)
    have hrun : reopen env root canUse oid a s = .ok true t := by
      rw [reopen, bind_of_ok hdrop, bind_of_ok hta, if_neg hne]
      rfl
    rw [final_of_ok hrun]
    exact hst
  by_cases hdrop : el.fd ≠ 0 ∧ canUse el.mode = false
  · rcases hopen with hrw | ⟨h, hclosed⟩
    · rw [hrw, hmode] at hdrop
      cases hdrop.2
    · -- a descriptor of `-1`: the element is not on the list
      have hlist : s.openFilesList.erase a = s.openFilesList :=
        List.erase_of_not_mem (h.notMem_of_closed ha hclosed)
      have hclosing : s.closing env a el = { s with calls := s.calls + 1 } := by
        rw [Store.closing, if_neg hne, if_neg fun hclose => hclosed hclose.2]
      have hremove : removeFromOpenFiles env a s =
          .ok () { s with calls := s.calls + 1 } := by
        rw [removeFromOpenFiles_eq ha (h.tclistDelete_eq ha), hlist, hclosing]
      refine hkeep { s with calls := s.calls + 1 }
        ⟨rfl, rfl, rfl, rfl, rfl, fun _ => rfl⟩ ?_
      rw [dropUnusable, bind_of_ok (oidEl_ok ha), if_pos hdrop, hremove]
  · refine hkeep s (Std.Refl.refl s) ?_
    rw [dropUnusable, bind_of_ok (oidEl_ok ha), if_neg hdrop]
    rfl

/-- What an operation leaves of the list when it has opened its object. -/
theorem Listed.final_opening (h : Listed none s) (env : Env Mac) (root : Path)
    (oid : Oid) {m : Option (Mode → Bool)}
    (hm : ∀ canUse, m = some canUse → canUse Mode.rPlus = true) :
    (EvictionFails env root oid s →
        ¬ OpenListExact ((opening env root oid m).final s)) ∧
      (¬ EvictionFails env root oid s →
        Listed none ((opening env root oid m).final s)) := by
  -- the element that `open_oid` gives is opened, or not open at all
  have hfinal : ∀ a el t, openOid env root oid s = .ok (some a) t →
      t.heap.lookup a = some el → el.fd ≠ 0 →
      (el.mode = Mode.rPlus ∨ Listed none t ∧ el.fd ∉ t.files.fds) →
      SameOpen t ((opening env root oid m).final s) := by
    intro a el t hopen ha hne hmode
    cases m with
    | none =>
        rw [final_opening_none, final_of_ok hopen]
        exact Std.Refl.refl t
    | some canUse =>
        rw [final_opening_of_some hopen]
        exact sameOpen_opened (hm canUse rfl) ha hne hmode
  cases ha : oidHashSearch s.oidHash oid with
  | none =>
      rw [final_opening_of_none (openOid_of_none ha)]
      refine ⟨?_, fun _ => h⟩
      rintro ⟨a, el, inode, hsearch, -⟩
      rw [ha] at hsearch
      cases hsearch
  | some a =>
      obtain ⟨-, el, hel, -⟩ := h.elements.search ha
      have hevict : EvictionFails env root oid s ↔ ∃ inode, el.fd = 0 ∧
          Opens env s (openPath root oid) inode ∧
          s.openFilesList.length = maxOpenFiles ∧
          env.outcome (s.calls + 1) = .fail := by
        constructor
        · rintro ⟨a', el', inode, ha', hel', hrest⟩
          rw [ha, Option.some.injEq] at ha'
          subst ha'
          rw [hel, Option.some.injEq] at hel'
          subst hel'
          exact ⟨inode, hrest⟩
        · rintro ⟨inode, hrest⟩
          exact ⟨a, el, inode, ha, hel, hrest⟩
      rw [hevict]
      have hopen : openOid env root oid s = _ := openOid_of_some ha hel
      by_cases hzero : el.fd = 0
      · rw [if_pos hzero] at hopen
        by_cases hopens : ∃ inode, Opens env s (openPath root oid) inode
        · obtain ⟨inode, hopens⟩ := hopens
          obtain ⟨t, hrun, ⟨el', hel', hne, hmode⟩, ht⟩ :=
            h.openElement hel hzero hopens
          rw [bind_of_ok hrun] at hopen
          have hsame := hfinal a el' t hopen hel' hne (.inl hmode)
          split_ifs at ht with hbad
          · refine ⟨fun _ hexact => ht (hsame.exact_iff.mp hexact), fun hno => ?_⟩
            exact absurd ⟨inode, hzero, hopens, hbad⟩ hno
          · refine ⟨?_, fun _ => ht.of_sameOpen hsame⟩
            rintro ⟨-, -, -, hbad'⟩
            exact absurd hbad' hbad
        · have hrefused := openElement_of_refused hel (not_exists.mp hopens)
          rw [bind_of_ok hrefused] at hopen
          rw [final_opening_of_none hopen]
          refine ⟨?_, fun _ => h.refuse hel hzero⟩
          rintro ⟨inode, -, hyes, -⟩
          exact absurd ⟨inode, hyes⟩ hopens
      · rw [if_neg hzero] at hopen
        refine ⟨?_, fun _ => h.of_sameOpen (hfinal a el s hopen hel hzero ?_)⟩
        · rintro ⟨inode, hz, -⟩
          exact absurd hz hzero
        · by_cases hin : el.fd ∈ s.files.fds
          · exact .inl (h.mode a el hel hin)
          · exact .inr ⟨h, hin⟩

end Opening

/-! ### Creating and removing -/

section Create

variable {a : ℕ} {el : OidEl}

/-- A file that is created gets an element on the list, without a
descriptor. -/
theorem Listed.create (h : Listed none s) (env : Env Mac) (root : Path)
    (oid : Oid) :
    (Creates env root oid s →
        ¬ OpenListExact ((sysioObjCreate env root oid).final s)) ∧
      (¬ Creates env root oid s →
        Listed none ((sysioObjCreate env root oid).final s)) := by
  let path := fileName shortPath root oid
  rcases create_cases env root oid s with
    ⟨hno, hsame | ⟨-, hleaked⟩⟩ | ⟨hyes, hrun⟩
  · exact ⟨fun hyes => absurd hyes hno, fun _ => h.of_sameOpen hsame⟩
  · refine ⟨fun hyes => absurd hyes hno, fun _ => ?_⟩
    obtain ⟨inode, hfds⟩ := creat_fds env s path
    rw [hleaked]
    refine h.of_heap_eq rfl rfl rfl rfl (fun fd hfd => ?_) fun fd hfd => ?_
    · show fd ∈ (s.creat env path).files.fds
      rw [hfds]
      exact AList.mem_insert _ |>.mpr (.inr hfd)
    · have hmem : fd ∈ (s.creat env path).files.fds := hfd
      rw [hfds] at hmem
      rcases AList.mem_insert _ |>.mp hmem with rfl | hmem
      · exact env.newFd_pos _
      · exact h.elements.positive fd hmem
  · refine ⟨fun _ => ?_, fun hno => absurd hyes hno⟩
    let v := s.created env path
    let u := v.track oid
    have hfds : ∀ fd, fd ∈ u.files.fds ↔ fd ∈ s.files.fds := by
      intro fd
      rw [← AList.lookup_isSome, ← AList.lookup_isSome]
      exact iff_of_eq (congrArg (fun f => Option.isSome f = true)
        (created_fds path fd))
    have hnew : u.heap.lookup s.nextEl = some ⟨0, oid, Mode.zero⟩ :=
      AList.lookup_insert _
    have hzero : (0 : ℤ) ∉ u.files.fds := fun hmem =>
      h.elements.zero_notMem ((hfds 0).mp hmem)
    have hheap : ∀ b ∈ s.openFilesList, u.heap.lookup b = s.heap.lookup b := by
      intro b hb
      apply AList.lookup_insert_ne
      rintro rfl
      exact h.elements.nextEl_notMem (h.mem_heap _ hb)
    rcases h.addToOpenFiles (t := u) rfl hheap env s.nextEl with
      ⟨-, hadd⟩ | ⟨b, elb, -, hb, -, hadd⟩
    · rw [final_of_ok (hrun.trans hadd)]
      exact fun hexact => hzero
        ((hexact.open_iff _ _ hnew).mp List.mem_cons_self)
    · have hne : s.nextEl ≠ b := by
        rintro rfl
        exact h.elements.nextEl_notMem (h.mem_heap _ hb)
      let w : Store := { u with openFilesList := s.openFilesList.erase b }
      have hwzero : (0 : ℤ) ∉ (w.closing env b elb).files.fds := fun hmem =>
        hzero (mem_fds_of_closing (s := w) hmem)
      have hwnew : (w.closing env b elb).heap.lookup s.nextEl =
          some ⟨0, oid, Mode.zero⟩ := (lookup_closing_ne hne).trans hnew
      rw [final_of_ok (hrun.trans hadd)]
      exact fun hexact => hwzero
        ((hexact.open_iff _ _ hwnew).mp List.mem_cons_self)

/-- An element that is removed is no longer on the list. -/
theorem Listed.dropped (h : Listed none s) (ha : s.heap.lookup a = some el) :
    Dropped s el (s.openFilesList.erase a) := by
  rw [Dropped]
  split_ifs with hzero
  · exact List.erase_of_not_mem
      (h.notMem_of_closed ha (hzero ▸ h.elements.zero_notMem))
  · exact h.tclistDelete_eq ha

theorem Listed.forget (h : Listed none s)
    (ha : oidHashSearch s.oidHash oid = some a)
    (hel : s.heap.lookup a = some el) (env : Env Mac) :
    Listed none (s.forget env oid a el (s.openFilesList.erase a)) := by
  let u : Store := { s.unhash oid with
    openFilesList := s.openFilesList.erase a }
  have hu : Elements (some a) u := (h.elements.unhash ha).setList _
  have hlookup : ∀ b elb, (s.forget env oid a el
      (s.openFilesList.erase a)).heap.lookup b = some elb →
        b ≠ a ∧ s.heap.lookup b = some elb := by
    intro b elb hb
    have hne : b ≠ a := by
      rintro rfl
      rw [Store.forget, Store.free, AList.lookup_erase] at hb
      cases hb
    rw [Store.forget, Store.free, AList.lookup_erase_ne hne,
      lookup_closing_ne hne] at hb
    exact ⟨hne, hb⟩
  have hmem : ∀ b elb, b ≠ a → s.heap.lookup b = some elb →
      (elb.fd ∈ (s.forget env oid a el (s.openFilesList.erase a)).files.fds ↔
        elb.fd ∈ s.files.fds) := fun b elb hba hb =>
    hu.mem_fds_closing hel hba hb
  have hlist : (s.forget env oid a el
      (s.openFilesList.erase a)).openFilesList = s.openFilesList.erase a :=
    closing_openFilesList
  refine ⟨h.elements.forget ha hel _, ?_, ?_,
    fun b hb => absurd hb (Option.some_ne_none b).symm, ?_, ?_, ?_⟩
  · intro b hb
    rw [hlist] at hb
    have hba : b ≠ a := by
      rintro rfl
      exact h.nodup.not_mem_erase hb
    have hbs := h.mem_heap b (List.mem_of_mem_erase hb)
    exact AList.mem_erase.mpr
      ⟨hba, (mem_heap_closing (s := u) (Table.mem_of_lookup hel)).mpr hbs⟩
  · rw [hlist]
    exact h.nodup.erase a
  · intro b elb hb
    obtain ⟨hba, hb⟩ := hlookup b elb hb
    rw [hlist, hmem b elb hba hb, List.mem_erase_of_ne hba]
    exact h.open_iff b elb hb
  · intro b elb hb hopen
    obtain ⟨hba, hb⟩ := hlookup b elb hb
    exact h.mode b elb hb ((hmem b elb hba hb).mp hopen)
  · rw [hlist]
    exact Nat.le_trans List.length_erase_le h.length_le

theorem Listed.remove (h : Listed none s) (env : Env Mac) (root : Path)
    (oid : Oid) : Listed none ((sysioObjRemove env root oid).final s) := by
  cases ha : oidHashSearch s.oidHash oid with
  | none => exact h.of_sameOpen (remove_of_none ha)
  | some a =>
      obtain ⟨-, el, hel, -⟩ := h.elements.search ha
      obtain ⟨t, ht, hsame⟩ := remove_of_dropped env root ha hel (h.dropped hel)
      have hforget := h.forget ha hel env
      refine Listed.of_sameOpen ?_ hsame
      rcases ht with rfl | rfl
      · exact hforget
      · exact hforget.of_heap_eq rfl rfl rfl rfl (fun _ => id)
          hforget.elements.positive

end Create

/-! ### Runs -/

/-- The operation creates a file, or it opens one and the host does not close
the file that has to make room. -/
def Spoils (root : Path) (s : Server) (r : Env Mac × ObjOp) : Prop :=
  s.up = true ∧
    ((∃ oid, r.2 = .create oid ∧ Creates r.1 root oid s.store) ∨
      ∃ oid m, r.2.opens = some (oid, m) ∧ EvictionFails r.1 root oid s.store)

theorem canUse_rPlus {op : ObjOp} {m : Option (Mode → Bool)}
    (hop : op.opens = some (oid, m)) :
    ∀ canUse, m = some canUse → canUse Mode.rPlus = true := by
  intro canUse hm
  cases op <;> simp only [ObjOp.opens, reduceCtorEq, Option.some.injEq,
    Prod.mk.injEq] at hop <;> obtain ⟨-, rfl⟩ := hop
  case read => cases hm; decide
  case write => cases hm; decide
  all_goals cases hm

/-- One operation leaves the list right exactly if it does not spoil it. -/
theorem Listed.objStep {s : Server} (h : Listed none s.store) (root : Path)
    (r : Env Mac × ObjOp) :
    (Spoils root s r → ¬ OpenListExact (objStep root s r).store) ∧
      (¬ Spoils root s r → Listed none (objStep root s r).store) := by
  obtain ⟨env, op⟩ := r
  by_cases hup : s.up = true
  · have hstore : (Storage.objStep root s (env, op)).store =
        (op.run env root).final s.store := by
      rw [Storage.objStep, if_pos hup]
    rw [hstore]
    have hopens : ∀ oid m, op.opens = some (oid, m) →
        (Spoils root s (env, op) ↔ EvictionFails env root oid s.store) := by
      intro oid m hop
      constructor
      · rintro ⟨-, ⟨oid', heq, -⟩ | ⟨oid', m', hop', hevict⟩⟩
        · have hcreate : op = .create oid' := heq
          rw [hcreate] at hop
          cases hop
        · rw [hop, Option.some.injEq, Prod.mk.injEq] at hop'
          obtain ⟨rfl, -⟩ := hop'
          exact hevict
      · exact fun hevict => ⟨hup, .inr ⟨oid, m, hop, hevict⟩⟩
    cases hop : op.opens with
    | some om =>
        obtain ⟨oid, m⟩ := om
        rw [hopens oid m hop]
        have hsame : SameOpen ((opening env root oid m).final s.store)
            ((op.run env root).final s.store) := sameOpen_run hop s.store
        obtain ⟨hbad, hgood⟩ := h.final_opening env root oid (canUse_rPlus hop)
        exact ⟨fun hevict hexact => hbad hevict (hsame.exact_iff.mp hexact),
          fun hno => (hgood hno).of_sameOpen hsame⟩
    | none =>
        cases op <;> simp only [ObjOp.opens, reduceCtorEq] at hop
        case create oid =>
          have hspoils : Spoils root s (env, .create oid) ↔
              Creates env root oid s.store := by
            constructor
            · rintro ⟨-, ⟨oid', heq, hcreates⟩ | ⟨oid', m', hop', -⟩⟩
              · cases heq
                exact hcreates
              · cases hop'
            · exact fun hcreates => ⟨hup, .inl ⟨oid, rfl, hcreates⟩⟩
          rw [hspoils]
          exact h.create env root oid
        case remove oid =>
          refine ⟨?_, fun _ => h.remove env root oid⟩
          rintro ⟨-, ⟨oid', heq, -⟩ | ⟨oid', m', hop', -⟩⟩
          · cases heq
          · cases hop'
  · have hstore : Storage.objStep root s (env, op) = s := if_neg hup
    rw [hstore]
    exact ⟨fun hspoils => absurd hspoils.1 hup, fun _ => h⟩

theorem Started.listed {s : Server} (h : Started Mac root s) :
    Listed none s.store := by
  obtain ⟨dir, hscan⟩ := h.scanned
  have hlist : s.store.openFilesList = [] := hscan.openFilesList
  have hzero : ∀ a el, s.store.heap.lookup a = some el → el.fd = 0 :=
    fun a el ha => (hscan.closed a el ha).resolve_left fun hnone =>
      AList.notMem_empty a (Table.mem_of_lookup hnone)
  refine ⟨hscan.elements, ?_, ?_,
    fun b hb => absurd hb (Option.some_ne_none b).symm, ?_, ?_, ?_⟩
  · rw [hlist]
    exact fun a ha => absurd ha List.not_mem_nil
  · rw [hlist]
    exact List.nodup_nil
  · intro a el ha
    rw [hlist, or_iff_right (Option.some_ne_none _).symm, hzero a el ha]
    exact iff_of_false List.not_mem_nil hscan.elements.zero_notMem
  · intro a el ha hopen
    rw [hzero a el ha] at hopen
    exact absurd hopen hscan.elements.zero_notMem
  · rw [hlist]
    exact Nat.zero_le _

/-- In every state that a run of the server reaches the list is right, exactly
if no operation of the run spoils it. -/
theorem openListExact_iff {s : Server} (h : Started Mac root s)
    (run : List (Env Mac × ObjOp)) :
    (∀ pre, pre <+: run →
      OpenListExact (Run.exec (objStep root) s pre).store) ↔
      Run.Along (objStep root) (fun s r => ¬ Spoils root s r) s run := by
  have hstep : ∀ (s : Server) (r : Env Mac × ObjOp), Listed none s.store →
      (¬ Spoils root s r ↔ OpenListExact (objStep root s r).store) := by
    intro s r hs
    obtain ⟨hbad, hgood⟩ := hs.objStep root r
    exact ⟨fun hno => (hgood hno).exact, fun hexact hspoils =>
      hbad hspoils hexact⟩
  have halong : Run.Along (objStep root) (fun s r => ¬ Spoils root s r) s run ↔
      Run.Along (objStep root)
        (fun s r => OpenListExact (objStep root s r).store) s run :=
    Run.along_iff_of_invariant
      (fun (s : Server) r (hs : Listed none s.store) hno =>
        (hs.objStep root r).2 hno)
      hstep h.listed
  rw [Run.forall_prefix_iff (p := fun s : Server => OpenListExact s.store), halong]
  exact and_iff_right h.listed.exact

/-- Where the host closes every file, only creations spoil the list. -/
theorem not_spoils {s : Server} {r : Env Mac × ObjOp}
    (hok : ∀ n, r.1.outcome n ≠ .fail) (hop : ∀ oid, r.2 ≠ .create oid) :
    ¬ Spoils root s r := by
  rintro ⟨-, ⟨oid, hcreate, -⟩ | ⟨oid, m, -, hevict⟩⟩
  · exact hop oid hcreate
  · obtain ⟨a, el, inode, -, -, -, -, -, hfail⟩ := hevict
    exact hok _ hfail

/-- A root directory with the file of one object. -/
def oneObject (root : Path) (oid : Oid) : Directory where
  files := { Files.empty with
    names := (∅ : Table Path ℕ).insert (fileName shortPath root oid) 0
    nextInode := 1 }
  oids := [oid]
  nodup := List.nodup_singleton oid
  closed := rfl

/-- The server that has started there. -/
def oneObjectServer (env : Env Mac) (root : Path) (oid : Oid) : Server :=
  ⟨(repopulateOidHashtable env root [oid]).final (oneObject root oid).store, true⟩

theorem started_oneObject (env : Env Mac) (root : Path) (oid : Oid)
    (hok : env.outcome 0 ≠ .fail) :
    Started Mac root (oneObjectServer env root oid) := by
  refine ⟨rfl, oneObject root oid, env, ?_⟩
  have hmem : scanPath root (objectName oid) ∈
      (oneObject root oid).store.files.names := by
    rw [scanPath_objectName]
    exact AList.mem_insert _ |>.mpr (.inl rfl)
  have hfound : (decide (env.outcome 0 ≠ .fail ∧
      scanPath root (objectName oid) ∈
        (oneObject root oid).store.files.names)) = true :=
    decide_eq_true ⟨hok, hmem⟩
  have hrun : ∃ t, repopulateOidHashtable env root [oid]
      (oneObject root oid).store = .ok () t := by
    let s₁ : Store := { (oneObject root oid).store with calls := 1 }
    have haccess : sys env (fun o fs => fs.sysAccess o
        (scanPath root (objectName oid))) (oneObject root oid).store =
          .ok true s₁ := by
      simp only [sys, Files.sysAccess]
      exact congrArg (fun b => EStateM.Result.ok b s₁) hfound
    have hone : (sys env (fun o fs => fs.sysAccess o
        (scanPath root (objectName oid))) >>= fun found =>
          if found then addOid oid >>= fun _ => pure ()
          else throw (.code .errNoObj)) (oneObject root oid).store =
            .ok () (s₁.track oid) := by
      rw [bind_of_ok haccess]
      rfl
    exact ⟨s₁.track oid, (bind_of_ok hone).trans rfl⟩
  obtain ⟨t, hrun⟩ := hrun
  show _ = EStateM.Result.ok () ((repopulateOidHashtable env root [oid]).final
    (oneObject root oid).store)
  rw [final_of_ok hrun]
  exact hrun

/-- The list is right in every state that is reached when an object that was
there at the start is read and removed. -/
theorem openListExact_oneObject :
    let root : Path := ['/', 'r']
    let env : Env Unit := Env.quiet fun _ => none
    let run := [(env, ObjOp.read Oid.zero 0 [1]), (env, .remove Oid.zero)]
    ∀ pre, pre <+: run → OpenListExact
      (Run.exec (objStep root) (oneObjectServer env root Oid.zero) pre).store := by
  intro root env run
  have hrun : ∀ r ∈ run, (∀ n, r.1.outcome n ≠ .fail) ∧
      ∀ oid, r.2 ≠ .create oid := by
    intro r hr
    have hcases : r = (env, ObjOp.read Oid.zero 0 [1]) ∨
        r = (env, ObjOp.remove Oid.zero) := by simpa [run] using hr
    rcases hcases with rfl | rfl
    · exact ⟨fun _ => nofun, fun _ => nofun⟩
    · exact ⟨fun _ => nofun, fun _ => nofun⟩
  have halong := Run.along_of_forall (objStep root)
    (oneObjectServer env root Oid.zero) hrun
  exact (openListExact_iff (started_oneObject env root Oid.zero (by decide))
    run).mpr (Run.along_mono (fun _ _ hr => not_spoils hr.1 hr.2) halong)

/-- An object that was just created is on the list without a descriptor. If
it is opened it is there twice, and if it is removed its element is freed and
stays there. -/
theorem created_object_stays_listed :
    let root : Path := ['/', 'r']
    let env : Env Unit := Env.quiet fun _ => none
    let after := fun ops : List ObjOp =>
      (Run.exec (objStep root) Server.init (ops.map fun op => (env, op))).store
    Started Unit root Server.init ∧
      ¬ OpenListExact (after [.create Oid.zero]) ∧
      (after [.create Oid.zero, .getfd Oid.zero]).openFilesList = [0, 0] ∧
      (after [.create Oid.zero, .remove Oid.zero]).openFilesList = [0] ∧
      (after [.create Oid.zero, .remove Oid.zero]).oidHash = [] := by
  intro root env after
  have hstarted : Started Unit root Server.init :=
    ⟨rfl, ⟨Files.empty, [], List.nodup_nil, rfl⟩, env, rfl⟩
  have hcreated : (after [.create Oid.zero]).heap.lookup 0 =
      some ⟨0, Oid.zero, Mode.zero⟩ ∧
      0 ∈ (after [.create Oid.zero]).openFilesList ∧
      (0 : ℤ) ∉ (after [.create Oid.zero]).files.fds := by decide +kernel
  obtain ⟨hel, hmem, hclosed⟩ := hcreated
  exact ⟨hstarted, fun hexact => hclosed ((hexact.open_iff 0 _ hel).mp hmem),
    by decide +kernel, by decide +kernel, by decide +kernel⟩

end Lwfs.Storage
