import Lwfs.Storage.Removal

/-!
Requests that return an error and have changed something.

Nothing is taken back when a step of a request fails. What the steps before it
have done stays: a file, an object without its attribute, an object that is half
removed, the first attributes of an array. The calls of the host and of the
database are numbered, so that the step that fails can be named.
-/

namespace Lwfs.Storage

open SysLib Routine

variable {Mac : Type} {env : Env Mac} {root : Path} {oid : Oid} {s t : Store}

/-! ### Routines that end with a code -/

section Codes

variable {α β : Type} {x : StoreRoutine α}

/-- The routine returns a code that is not `LWFS_OK`. -/
def EndsWithCode (x : StoreRoutine α) (s : Store) : Prop :=
  ∃ rc, x.outcome s = .error (.code rc)

theorem not_endsWithCode_of_ok {a : α} (h : x s = .ok a t) :
    ¬ EndsWithCode x s := by
  rintro ⟨rc, hrun⟩
  rw [outcome_of_ok h] at hrun
  cases hrun

theorem endsWithCode_of_code {rc : ReturnCode} (h : x s = .error (.code rc) t) :
    EndsWithCode x s := ⟨rc, outcome_of_error h⟩

theorem not_endsWithCode_of_fault {e : Fault} (h : x s = .error e t)
    (he : ∀ rc, e ≠ .code rc) : ¬ EndsWithCode x s := by
  rintro ⟨rc, hrun⟩
  rw [outcome_of_error h] at hrun
  exact he rc (Except.error.inj hrun)

theorem endsWithCode_congr {y : StoreRoutine α} (h : x s = y t) :
    EndsWithCode x s ↔ EndsWithCode y t := by
  simp only [EndsWithCode, outcome, h]

@[simp] theorem endsWithCode_map {f : α → β} :
    EndsWithCode (f <$> x) s ↔ EndsWithCode x s := by
  cases hrun : x s with
  | ok a t =>
      exact iff_of_false (not_endsWithCode_of_ok (map_of_ok hrun))
        (not_endsWithCode_of_ok hrun)
  | error e t =>
      have hmap : (f <$> x) s = .error e t := map_of_error hrun
      simp only [EndsWithCode, outcome_of_error hrun, outcome_of_error hmap,
        Except.error.injEq]

/-- A code becomes another code, and a fault stays a fault. -/
@[simp] theorem endsWithCode_asStorageError :
    EndsWithCode (asStorageError x) s ↔ EndsWithCode x s := by
  simp only [EndsWithCode, asStorageError, outcome_mapOutcome]
  rcases hout : x.outcome s with e | a
  · cases e <;> simp
  · simp

@[simp] theorem final_asStorageError :
    (asStorageError x).final s = x.final s := final_mapOutcome

end Codes

/-! ### Arrays of attributes -/

/-- What the loop has set before the database fails stays. -/
theorem setattrs_torn_iff {attrs : List Attr}
    (hattrs : ∀ attr ∈ attrs, attr.Sendable) (m : AttrMap) :
    (EndsWithCode (sysioObjSetattrs env oid attrs) s ∧
      ((sysioObjSetattrs env oid attrs).final s).attrMap ≠ m) ↔
    ∃ i < attrs.length, (∀ j < i, env.outcome (s.calls + j) ≠ .fail) ∧
      env.outcome (s.calls + i) = .fail ∧
      (attrs.take i).foldl (fun m a => m.set oid a.name (some a.value))
        s.attrMap ≠ m := by
  induction attrs generalizing s with
  | nil =>
      refine iff_of_false (fun h => ?_) fun h => ?_
      · exact not_endsWithCode_of_ok rfl h.1
      · obtain ⟨i, hi, -⟩ := h
        exact absurd hi (Nat.not_lt_zero i)
  | cons attr attrs ih =>
      obtain ⟨hattr, hrest⟩ := List.forall_mem_cons.mp hattrs
      have hcons : sysioObjSetattrs env oid (attr :: attrs) =
          sysioObjSetattr env oid attr.name attr.value >>= fun _ =>
            sysioObjSetattrs env oid attrs := rfl
      rw [hcons]
      rcases setattr_cases env oid s hattr with
        ⟨e, hcall, -, hvalue, hrun⟩ | ⟨hcall, hrun⟩
      · let u : Store := { s.called with
          attrs := s.attrs.insert ⟨oid, attr.name⟩ e }
        have hmap : u.attrMap = s.attrMap.set oid attr.name (some attr.value) := by
          rw [← hvalue]
          exact attrMap_of_insert rfl
        have hloop : (sysioObjSetattr env oid attr.name attr.value >>= fun _ =>
            sysioObjSetattrs env oid attrs) s = sysioObjSetattrs env oid attrs u :=
          bind_of_ok hrun
        have hcalls : ∀ j, u.calls + j = s.calls + (j + 1) := by
          intro j
          show s.calls + 1 + j = _
          omega
        rw [endsWithCode_congr hloop, final_congr hloop, ih hrest]
        constructor
        · rintro ⟨i, hi, hbefore, hfail, hne⟩
          refine ⟨i + 1, Nat.succ_lt_succ hi, fun j hj => ?_, ?_, ?_⟩
          · cases j with
            | zero => exact hcall
            | succ j =>
                rw [← hcalls]
                exact hbefore j (Nat.lt_of_succ_lt_succ hj)
          · rwa [← hcalls]
          · rwa [List.take_succ_cons, List.foldl_cons, ← hmap]
        · rintro ⟨i, hi, hbefore, hfail, hne⟩
          cases i with
          | zero => exact absurd hfail hcall
          | succ i =>
              refine ⟨i, Nat.lt_of_succ_lt_succ hi, fun j hj => ?_, ?_, ?_⟩
              · rw [hcalls]
                exact hbefore (j + 1) (Nat.succ_lt_succ hj)
              · rwa [hcalls]
              · rwa [hmap, ← List.foldl_cons, ← List.take_succ_cons]
      · -- the first attribute is not set
        have herror := bind_of_error (f := fun _ => sysioObjSetattrs env oid attrs)
          hrun
        rw [final_of_error herror]
        have hcode := endsWithCode_of_code herror
        constructor
        · rintro ⟨-, hne⟩
          exact ⟨0, Nat.succ_pos _, fun j hj => absurd hj (Nat.not_lt_zero j), hcall,
            hne⟩
        · rintro ⟨i, hi, hbefore, hfail, hne⟩
          cases i with
          | zero => exact ⟨hcode, hne⟩
          | succ i => exact absurd hcall (hbefore 0 (Nat.succ_pos i))

theorem removes_iff (hs : WellKept s) {name : Name} :
    Removes env oid name s ↔ env.outcome s.calls ≠ .fail ∧
      env.outcome (s.calls + 1) ≠ .fail ∧
        (s.attrMap oid (name.take nameLen)).isSome := by
  constructor
  · rintro ⟨hfirst, e, hlookup, hsecond, -⟩
    refine ⟨hfirst, hsecond, ?_⟩
    rw [attrMap_eq_some.mpr ⟨e, hlookup, rfl⟩]
    rfl
  · rintro ⟨hfirst, hsecond, hsome⟩
    obtain ⟨v, hv⟩ := Option.isSome_iff_exists.mp hsome
    obtain ⟨e, hlookup, -⟩ := attrMap_eq_some.mp hv
    refine ⟨hfirst, e, hlookup, hsecond, ?_⟩
    rw [(hs _ e hlookup).db1Keygen_eq]
    exact Table.mem_of_lookup hlookup

/-- All attributes that are named are there, and none is named twice. -/
def Present (m : Name → Option (List UInt8)) (names : List Name) : Prop :=
  (names.map (List.take nameLen)).Nodup ∧
    ∀ name ∈ names.map (List.take nameLen), (m name).isSome

/-- The loop removes all attributes, or it stops with a code. -/
theorem rmattrs_endsWithCode_iff {names : List Name} (hs : WellKept s) :
    EndsWithCode (sysioObjRmattrs env oid names) s ↔
      ¬ (Present (s.attrMap oid) names ∧
        ∀ j < 2 * names.length, env.outcome (s.calls + j) ≠ .fail) := by
  induction names generalizing s with
  | nil =>
      refine iff_of_false (not_endsWithCode_of_ok rfl) (not_not.mpr ⟨?_, ?_⟩)
      · exact ⟨List.nodup_nil, fun _ h => absurd h List.not_mem_nil⟩
      · exact fun j hj => absurd hj (Nat.not_lt_zero j)
  | cons name names ih =>
      have hcons : sysioObjRmattrs env oid (name :: names) =
          sysioObjRmattr env oid name >>= fun _ =>
            sysioObjRmattrs env oid names := rfl
      rw [hcons]
      by_cases hremoves : Removes env oid name s
      · obtain ⟨e, hlookup, -, hrun⟩ := rmattr_of_removes hremoves
        rw [(hs _ e hlookup).db1Keygen_eq] at hrun
        let u : Store := { s with
          attrs := s.attrs.erase ⟨oid, name.take nameLen⟩
          calls := s.calls + 2 }
        have hu : WellKept u := wellKept_erase hs rfl
        have hmap : u.attrMap = s.attrMap.set oid (name.take nameLen) none :=
          attrMap_of_erase rfl
        have hloop : (sysioObjRmattr env oid name >>= fun _ =>
            sysioObjRmattrs env oid names) s = sysioObjRmattrs env oid names u :=
          bind_of_ok hrun
        obtain ⟨hfirst, hsecond, hsome⟩ := (removes_iff hs).mp hremoves
        have hpresent : Present (u.attrMap oid) names ↔
            Present (s.attrMap oid) (name :: names) := by
          rw [Present, Present, hmap, AttrMap.forall_isSome_set_none,
            List.map_cons, List.nodup_cons, List.forall_mem_cons]
          tauto
        have hcalls : (∀ j < 2 * names.length,
            env.outcome (u.calls + j) ≠ .fail) ↔
              ∀ j < 2 * (name :: names).length,
                env.outcome (s.calls + j) ≠ .fail := by
          have hshift : ∀ j, u.calls + j = s.calls + (j + 2) := by
            intro j
            show s.calls + 2 + j = _
            omega
          simp only [hshift, List.length_cons]
          constructor
          · intro hall j hj
            rcases j with _ | _ | j
            · exact hfirst
            · exact hsecond
            · exact hall j (by omega)
          · intro hall j hj
            exact hall (j + 2) (by omega)
        rw [endsWithCode_congr hloop, ih hu, hpresent, hcalls]
      · obtain ⟨rc, calls, hrun⟩ := rmattr_of_not_removes hremoves
        refine iff_of_true (endsWithCode_of_code (bind_of_error hrun)) ?_
        rintro ⟨⟨-, hall⟩, hcalls⟩
        refine hremoves ((removes_iff hs).mpr ⟨?_, ?_, ?_⟩)
        · exact hcalls 0 (by rw [List.length_cons]; omega)
        · exact hcalls 1 (by rw [List.length_cons]; omega)
        · exact hall _ List.mem_cons_self

/-- Whether the first attribute is removed decides whether anything changes. -/
theorem rmattrs_changed_iff {names : List Name} (hs : WellKept s) :
    ((sysioObjRmattrs env oid names).final s).attrMap ≠ s.attrMap ↔
      ∃ name ∈ names.head?, Removes env oid name s := by
  cases names with
  | nil =>
      refine iff_of_false (fun h => h rfl) ?_
      rintro ⟨name, hname, -⟩
      cases hname
  | cons name names =>
      simp only [List.head?_cons, Option.mem_def, Option.some.injEq,
        exists_eq_left']
      have hcons : sysioObjRmattrs env oid (name :: names) =
          sysioObjRmattr env oid name >>= fun _ =>
            sysioObjRmattrs env oid names := rfl
      rw [hcons]
      by_cases hremoves : Removes env oid name s
      · obtain ⟨e, hlookup, -, hrun⟩ := rmattr_of_removes hremoves
        rw [(hs _ e hlookup).db1Keygen_eq] at hrun
        obtain ⟨-, -, hsome⟩ := (removes_iff hs).mp hremoves
        refine iff_of_true (fun heq => ?_) hremoves
        -- what is gone does not come back
        let u : Store := { s with
          attrs := s.attrs.erase ⟨oid, name.take nameLen⟩
          calls := s.calls + 2 }
        have hshrinks : Within Shrinks (sysioObjRmattrs env oid names) :=
          within_forM (rmattr_shrinks oid) names
        have hnone : ((sysioObjRmattrs env oid names).final u).attrs.lookup
            ⟨oid, name.take nameLen⟩ = none :=
          hshrinks u _ (AList.lookup_erase _ _)
        have hloop : (sysioObjRmattr env oid name >>= fun _ =>
            sysioObjRmattrs env oid names) s = sysioObjRmattrs env oid names u :=
          bind_of_ok hrun
        rw [← heq, final_congr hloop, Store.attrMap, hnone] at hsome
        cases hsome
      · obtain ⟨rc, calls, hrun⟩ := rmattr_of_not_removes hremoves
        rw [final_of_error (bind_of_error hrun)]
        exact iff_of_false (fun h => h rfl) hremoves

/-! ### The calls of the host -/

/-- The number of calls of a routine that succeeds, or none for one that follows
a pointer to an element that was freed. -/
def Makes {α : Type} (calls : Option ℕ) (a : α) (x : StoreRoutine α)
    (s : Store) : Prop :=
  match calls with
  | none => ∃ t, x s = .error .badPointer t
  | some n => ∃ t, x s = .ok a t ∧ t.calls = s.calls + n

/-- The calls of `remove_from_open_files`. -/
def dropCalls (s : Store) (a : ℕ) : Option ℕ :=
  match s.heap.lookup a with
  | none => none
  | some el =>
      match tclistDelete s.heap el s.openFilesList with
      | .error _ => none
      | .ok _ => some (if el.fd = 0 then 0 else 1)

/-- The calls of `add_to_open_files`: where the list is full, the last element
is taken off it. -/
def addCalls (s : Store) : Option ℕ :=
  if s.openFilesList.length = maxOpenFiles then
    dropCalls s (s.openFilesList.getLastD 0)
  else some 0

/-- The calls of `remove_oid`, for the element of the object. -/
def removeCalls (s : Store) (a : ℕ) : Option ℕ :=
  match s.heap.lookup a with
  | none => none
  | some el => if el.fd = 0 then some 0 else dropCalls s a

theorem calls_closing (env : Env Mac) (s : Store) (a : ℕ) (el : OidEl) :
    (s.closing env a el).calls = s.calls + if el.fd = 0 then 0 else 1 := by
  unfold Store.closing
  split_ifs <;> rfl

theorem makes_removeFromOpenFiles (env : Env Mac) (a : ℕ) (s : Store) :
    Makes (dropCalls s a) () (removeFromOpenFiles env a) s := by
  unfold dropCalls
  cases ha : s.heap.lookup a with
  | none => exact ⟨s, bind_of_error (oidEl_error ha)⟩
  | some el =>
      simp only
      cases hl : tclistDelete s.heap el s.openFilesList with
      | error f =>
          have hread : Routine.reader
              (fun s => tclistDelete s.heap el s.openFilesList) s = .error f s :=
            reader_of_error hl
          obtain rfl := tclistDelete_error hl
          exact ⟨s, (bind_of_ok (oidEl_ok ha)).trans (bind_of_error hread)⟩
      | ok l =>
          exact ⟨_, removeFromOpenFiles_eq ha hl, calls_closing env _ a el⟩

theorem makes_addToOpenFiles (env : Env Mac) (a : ℕ) (s : Store) :
    Makes (addCalls s) () (addToOpenFiles env a) s := by
  have hstart : addToOpenFiles env a s =
      (if s.openFilesList.length < maxOpenFiles then tclistUnshift a
      else if s.openFilesList.length = maxOpenFiles then do
        removeFromOpenFiles env (s.openFilesList.getLastD 0)
        tclistUnshift a
      else return ()) s := rfl
  unfold addCalls
  split
  · next hfull =>
    have hnot : ¬ s.openFilesList.length < maxOpenFiles := by omega
    rw [if_neg hnot, if_pos hfull] at hstart
    have hdrop := makes_removeFromOpenFiles env (s.openFilesList.getLastD 0) s
    cases hcalls : dropCalls s (s.openFilesList.getLastD 0) with
    | none =>
        rw [hcalls] at hdrop
        obtain ⟨t, hrun⟩ := hdrop
        exact ⟨t, hstart.trans (bind_of_error hrun)⟩
    | some n =>
        rw [hcalls] at hdrop
        obtain ⟨t, hrun, ht⟩ := hdrop
        exact ⟨_, hstart.trans (bind_of_ok hrun), ht⟩
  · next hnot =>
    rw [if_neg hnot] at hstart
    split at hstart
    · exact ⟨_, hstart, rfl⟩
    · exact ⟨_, hstart, rfl⟩

/-- An object that is in the table is forgotten, or a pointer to an element that
was freed is followed. -/
theorem makes_removeOid (env : Env Mac) {a : ℕ}
    (ha : oidHashSearch s.oidHash oid = some a) :
    Makes (removeCalls s a) true (removeOid env oid) s := by
  have htail : ∀ u : Store, (do
      modify fun s => { s with heap := s.heap.erase a }
      return true : StoreRoutine Bool) u = .ok true (u.free a) := fun _ => rfl
  have hstart : removeOid env oid s = (dropOpen env a >>= fun _ => do
      modify fun s => { s with heap := s.heap.erase a }
      return true) (s.unhash oid) := removeOid_of_found ha
  unfold removeCalls
  have hheap : (s.unhash oid).heap.lookup a = s.heap.lookup a := rfl
  cases hel : s.heap.lookup a with
  | none =>
      rw [hel] at hheap
      exact ⟨_, hstart.trans (bind_of_error (bind_of_error (oidEl_error hheap)))⟩
  | some el =>
      rw [hel] at hheap
      have hdrop : dropOpen env a (s.unhash oid) =
          (if el.fd ≠ 0 then removeFromOpenFiles env a else return ())
            (s.unhash oid) := bind_of_ok (oidEl_ok hheap)
      by_cases hzero : el.fd = 0
      · rw [if_neg (not_not.mpr hzero)] at hdrop
        simp only [if_pos hzero]
        exact ⟨_, hstart.trans ((bind_of_ok hdrop).trans (htail _)), rfl⟩
      · rw [if_pos hzero] at hdrop
        simp only [if_neg hzero]
        have hmakes := makes_removeFromOpenFiles env a (s.unhash oid)
        have hsame : dropCalls (s.unhash oid) a = dropCalls s a := rfl
        rw [hsame] at hmakes
        cases hcalls : dropCalls s a with
        | none =>
            rw [hcalls] at hmakes
            obtain ⟨t, hrun⟩ := hmakes
            exact ⟨_, hstart.trans (bind_of_error (hdrop.trans hrun))⟩
        | some n =>
            rw [hcalls] at hmakes
            obtain ⟨t, hrun, ht⟩ := hmakes
            exact ⟨_, hstart.trans ((bind_of_ok (hdrop.trans hrun)).trans (htail _)),
              ht⟩

/-! ### Where the codes come from -/

/-- Once the attributes are listed, each of them is there to be removed. -/
theorem rmAllAttrs_endsWithCode_iff (hs : WellKept s) :
    EndsWithCode (rmAllAttrs env oid) s ↔
      env.outcome (s.calls + 1) = .fail ∨ listed s oid ≠ [] ∧
        env.outcome s.calls ≠ .fail ∧
          ∃ j < 2 * (listed s oid).length,
            env.outcome (s.calls + 2 + j) = .fail := by
  let u := s.called.called
  rcases listattrs_cases env oid s with
    ⟨hlist, hrun⟩ | ⟨hlist, hnil, hrun⟩ | ⟨hlist, -, hcount, hrun⟩ |
      ⟨hlist, hne, hcount, hrun⟩
  · have herror : rmAllAttrs env oid s = .error (.code .errStorage) u :=
      bind_of_error (mapOutcome_of_error hrun rfl)
    exact iff_of_true (endsWithCode_of_code herror) (.inl hlist)
  · have hok : rmAllAttrs env oid s = .ok () u := by
      rw [rmAllAttrs]
      exact bind_of_ok (mapOutcome_of_caught (b := []) hrun rfl)
    refine iff_of_false (not_endsWithCode_of_ok hok) ?_
    rintro (hfail | ⟨hne, -⟩)
    · exact hlist hfail
    · exact hne hnil
  · have herror : rmAllAttrs env oid s = .error .overrun u :=
      bind_of_error (mapOutcome_of_error hrun rfl)
    refine iff_of_false
      (not_endsWithCode_of_fault herror fun _ => Fault.noConfusion) ?_
    rintro (hfail | ⟨-, hcount', -⟩)
    · exact hlist hfail
    · exact hcount' hcount
  · have hloop : rmAllAttrs env oid s = sysioObjRmattrs env oid
        ((listed s oid).map (AttrEntry.row · env.rowBehind)) u :=
      bind_of_ok (mapOutcome_of_ok hrun rfl)
    have hu : WellKept u := wellKept_of_attrs hs rfl
    have hpresent : Present (u.attrMap oid)
        ((listed s oid).map (AttrEntry.row · env.rowBehind)) := by
      rw [Present, take_row_listed hs]
      exact ⟨nodup_listed hs oid, fun name => (mem_map_listed hs).mp⟩
    rw [endsWithCode_congr hloop, rmattrs_endsWithCode_iff hu,
      and_iff_right hpresent, List.length_map, or_iff_right hlist,
      and_iff_right hne, and_iff_right hcount]
    push Not
    rfl

/-- An object that is in the table has its file. -/
theorem fileName_mem_of_search (h : Tabled root s) {a : ℕ}
    (ha : oidHashSearch s.oidHash oid = some a) :
    fileName shortPath root oid ∈ s.files.names := by
  obtain ⟨e, he, rfl⟩ := search_isSome.mp (Option.isSome_of_eq_some ha)
  exact h.named e he

/-- The steps of a removal that can fail are the unlinking, the listing, and the
removal of each attribute. -/
theorem remove_endsWithCode_iff (hs : Tidy root s) {a : ℕ}
    (ha : oidHashSearch s.oidHash oid = some a) :
    EndsWithCode (sysioObjRemove env root oid) s ↔
      ∃ n, removeCalls s a = some n ∧
        (env.outcome (s.calls + n) = .fail ∨
          env.outcome (s.calls + n + 2) = .fail ∨ listed s oid ≠ [] ∧
            env.outcome (s.calls + n + 1) ≠ .fail ∧
              ∃ j < 2 * (listed s oid).length,
                env.outcome (s.calls + n + 3 + j) = .fail) := by
  have hmakes := makes_removeOid env ha
  obtain ⟨-, hnames, -, hattrs⟩ := final_removeOid env oid s
  cases hcalls : removeCalls s a with
  | none =>
      rw [hcalls] at hmakes
      obtain ⟨t, hrun⟩ := hmakes
      have herror : sysioObjRemove env root oid s = .error .badPointer t :=
        bind_of_error (bind_of_error hrun)
      refine iff_of_false
        (not_endsWithCode_of_fault herror fun _ => Fault.noConfusion) ?_
      rintro ⟨n, hn, -⟩
      cases hn
  | some n =>
      rw [hcalls] at hmakes
      obtain ⟨v, hrun, hv⟩ := hmakes
      rw [final_of_ok hrun] at hnames hattrs
      have hpath : fileName shortPath root oid ∈ v.files.names := by
        rw [hnames]
        exact fileName_mem_of_search hs.tabled ha
      simp only [Option.some.injEq, exists_eq_left']
      rw [← hv]
      by_cases hunlink : env.outcome v.calls = .fail
      · have hsys : sys env (fun o fs =>
            fs.sysRemove o (fileName shortPath root oid)) v =
              .ok false { v with calls := v.calls + 1 } := by
          have hno : ¬ (env.outcome v.calls ≠ .fail ∧
              fileName shortPath root oid ∈ v.files.names) := fun h => h.1 hunlink
          simp only [sys, Files.sysRemove, if_neg hno]
        have herror : sysioObjRemove env root oid s =
            .error (.code .errStorage) { v with calls := v.calls + 1 } :=
          bind_of_error ((bind_of_ok hrun).trans (bind_of_ok hsys))
        exact iff_of_true (endsWithCode_of_code herror) (.inl hunlink)
      · let w : Store := { v with
          files := { v.files with
            names := v.files.names.erase (fileName shortPath root oid) }
          calls := v.calls + 1 }
        have hsys : sys env (fun o fs =>
            fs.sysRemove o (fileName shortPath root oid)) v = .ok true w := by
          have hyes : env.outcome v.calls ≠ .fail ∧
              fileName shortPath root oid ∈ v.files.names := ⟨hunlink, hpath⟩
          simp only [sys, Files.sysRemove, if_pos hyes]
          rfl
        have hrest : sysioObjRemove env root oid s = rmAllAttrs env oid w :=
          bind_of_ok ((bind_of_ok hrun).trans (bind_of_ok hsys))
        have hw : WellKept w := wellKept_of_attrs hs.attrs hattrs
        have hlisted : listed w oid = listed s oid := by
          show Table.filter AttrEntry.oid v.attrs oid = _
          rw [hattrs]
        rw [endsWithCode_congr hrest, rmAllAttrs_endsWithCode_iff hw, hlisted,
          or_iff_right hunlink]

/-! ### Atomic requests -/

/-- The same objects exist, and they have the same attributes. -/
structure SameObjects (s t : Store) : Prop where
  exist : ∀ oid, (sysioObjExists oid).outcome t = (sysioObjExists oid).outcome s
  attrs : t.attrMap = s.attrMap

/-- Also the files of objects are the same, which another session would take
for its objects. -/
structure SameStored (root : Path) (s t : Store) : Prop where
  objects : SameObjects s t
  files : filed root t.files = filed root s.files

/-- If the request returns an error, everything is as before. -/
def Atomic (P : Store → Store → Prop) (env : Env Mac) (root : Path)
    (req : Request Mac) (s : Store) : Prop :=
  EndsWithCode (handle env root req) s → P s ((handle env root req).final s)

/-- A request that makes or removes an object, or sets or removes an array of
attributes. -/
def Request.isMetadata : Request Mac → Bool
  | .createObj _ _ => true
  | .removeObj _ _ => true
  | .setattrs _ _ _ => true
  | .rmattrs _ _ _ => true
  | _ => false

/-- The first step that fails comes after one that has changed something. The
steps are given by the numbers of their calls. -/
def Tears (env : Env Mac) (root : Path) (s : Store) : Request Mac → Prop
  | .createObj obj _ =>
      -- the object is there, and its attribute is not put
      fileName shortPath root obj.oid ∉ s.files.names ∧
        env.outcome (s.calls + 1) ≠ .fail ∧ env.outcome (s.calls + 2) ≠ .fail ∧
          ∃ n, addCalls (s.track obj.oid) = some n ∧
            env.outcome (s.calls + 3 + n) = .fail
  | .removeObj obj _ =>
      -- the object is forgotten, and its file or an attribute stays
      ∃ a n, oidHashSearch s.oidHash obj.oid = some a ∧ removeCalls s a = some n ∧
        (env.outcome (s.calls + n) = .fail ∨
          env.outcome (s.calls + n + 2) = .fail ∨ listed s obj.oid ≠ [] ∧
            env.outcome (s.calls + n + 1) ≠ .fail ∧
              ∃ j < 2 * (listed s obj.oid).length,
                env.outcome (s.calls + n + 3 + j) = .fail)
  | .setattrs obj attrs _ =>
      -- the attributes before the first that is not put are set
      ∃ i < attrs.length, (∀ j < i, env.outcome (s.calls + j) ≠ .fail) ∧
        env.outcome (s.calls + i) = .fail ∧
          (attrs.take i).foldl (fun m a => m.set obj.oid a.name (some a.value))
            s.attrMap ≠ s.attrMap
  | .rmattrs obj names _ =>
      -- the first attribute is removed, and not all of them are
      (∃ name ∈ names.head?, Removes env obj.oid name s) ∧
        ¬ (Present (s.attrMap obj.oid) names ∧
          ∀ j < 2 * names.length, env.outcome (s.calls + j) ≠ .fail)
  | _ => False

/-- A file is made and cannot be closed, so that it stays without an object. -/
def Leaves (env : Env Mac) (root : Path) (s : Store) : Request Mac → Prop
  | .createObj obj _ => fileName shortPath root obj.oid ∉ s.files.names ∧
      env.outcome (s.calls + 1) ≠ .fail ∧ env.outcome (s.calls + 2) = .fail
  | _ => False

section Atomic

variable {P : Store → Store → Prop}

theorem atomic_of_not_admitted (hP : ∀ s, P s s) {req : Request Mac}
    (h : ¬ Admitted env req s) : Atomic P env root req s := by
  obtain ⟨e, herror⟩ := handle_of_not_admitted root h
  intro _
  rw [final_of_error herror]
  exact hP s

theorem atomic_iff_operation {req : Request Mac} (h : Admitted env req s) :
    Atomic P env root req s ↔ (EndsWithCode (operation env root req) s →
      P s ((operation env root req).final s)) := by
  have hrun : handle env root req s = operation env root req s :=
    handle_of_admitted h
  rw [Atomic, endsWithCode_congr hrun, final_congr hrun]

theorem sameObjects_refl (s : Store) : SameObjects s s := ⟨fun _ => rfl, rfl⟩

theorem sameStored_refl (root : Path) (s : Store) : SameStored root s s :=
  ⟨sameObjects_refl s, rfl⟩

theorem sameObjects_of_eq (hhash : t.oidHash = s.oidHash)
    (hattrs : t.attrs = s.attrs) : SameObjects s t where
  exist oid := by
    show Except.ok (oidHashSearch t.oidHash oid).isSome = _
    rw [hhash]
    rfl
  attrs := attrMap_of_attrs hattrs

/-- The loops over attributes change nothing but attributes. -/
theorem same_iff_attrMap (root : Path) (h : SameData s t) :
    (SameObjects s t ↔ t.attrMap = s.attrMap) ∧
      (SameStored root s t ↔ t.attrMap = s.attrMap) := by
  have hexist : ∀ oid, (sysioObjExists oid).outcome t =
      (sysioObjExists oid).outcome s := by
    intro oid
    show Except.ok (oidHashSearch t.oidHash oid).isSome = _
    rw [h.oidHash]
    rfl
  have hfiled : filed root t.files = filed root s.files := by
    unfold filed
    rw [h.names]
  exact ⟨⟨fun hsame => hsame.attrs, fun hattrs => ⟨hexist, hattrs⟩⟩,
    ⟨fun hsame => hsame.objects.attrs, fun hattrs => ⟨⟨hexist, hattrs⟩, hfiled⟩⟩⟩

/-- A creation that returns an error has changed an object exactly if it tears,
and an object or a file exactly if it tears or leaves a file. -/
def CreationTorn (env : Env Mac) (root : Path) (s : Store) (obj : Obj)
    (cap : Cap Mac) : Prop :=
  ((EndsWithCode (createOp env root obj cap) s →
      SameObjects s ((createOp env root obj cap).final s)) ↔
    ¬ Tears env root s (.createObj obj cap)) ∧
  ((EndsWithCode (createOp env root obj cap) s →
      SameStored root s ((createOp env root obj cap).final s)) ↔
    ¬ (Tears env root s (.createObj obj cap) ∨
      Leaves env root s (.createObj obj cap)))

section Creation

variable {obj : Obj} {cap : Cap Mac}

/-- A creation that stops before it has made a file. -/
theorem creationTorn_of_nothing {rc : ReturnCode} {u : Store}
    (hrun : sysioObjCreate env root obj.oid s = .error (.code rc) u)
    (hhash : u.oidHash = s.oidHash) (hattrs : u.attrs = s.attrs)
    (hfiles : u.files = s.files)
    (htears : ¬ Tears env root s (.createObj obj cap))
    (hleaves : ¬ Leaves env root s (.createObj obj cap)) :
    CreationTorn env root s obj cap := by
  have herror : createOp env root obj cap s = .error (.code rc) u :=
    bind_of_error hrun
  have hsame := sameObjects_of_eq hhash hattrs
  rw [CreationTorn, final_of_error herror]
  exact ⟨iff_of_true (fun _ => hsame) htears,
    iff_of_true (fun _ => ⟨hsame, by rw [hfiles]⟩) (not_or.mpr ⟨htears, hleaves⟩)⟩

/-- A creation that has made a file and cannot close it. -/
theorem creationTorn_of_leaked (hroot : Untruncated root)
    (habsent : Absent env root obj.oid s)
    (hpath : fileName shortPath root obj.oid ∉ s.files.names)
    (hcreat : env.outcome (s.calls + 1) ≠ .fail)
    (hclose : env.outcome (s.calls + 2) = .fail) :
    CreationTorn env root s obj cap := by
  let path := fileName shortPath root obj.oid
  let u := s.creat env path
  have herror : createOp env root obj cap s =
      .error (.code .errStorage) { u with calls := u.calls + 1 } :=
    bind_of_error (create_of_leaked habsent hcreat hclose)
  have hcode := endsWithCode_of_code herror
  rw [CreationTorn, final_of_error herror]
  refine ⟨iff_of_true (fun _ => sameObjects_of_eq rfl rfl)
    fun h => h.2.2.1 hclose, iff_of_false (fun hall => ?_)
      (not_not.mpr (.inr ⟨hpath, hcreat, hclose⟩))⟩
  -- the new file is one of the files of objects
  have hnew : obj.oid ∈ filed root u.files := by
    rw [mem_filed, ← fileName_eq_append hroot]
    exact (creat_names env s path).1
  have hold : obj.oid ∈ filed root s.files := by
    rw [← (hall hcode).files]
    exact hnew
  rw [mem_filed, ← fileName_eq_append hroot] at hold
  exact hpath hold

/-- An object that has been added to the table is a change. -/
theorem not_sameObjects_of_added (hs : Tidy root s)
    (hpath : fileName shortPath root obj.oid ∉ s.files.names) {v : Store} {a : ℕ}
    (hhash : v.oidHash = (obj.oid, a) :: s.oidHash) : ¬ SameObjects s v := by
  intro hall
  have hexist := hall.exist obj.oid
  have hnone : oidHashSearch s.oidHash obj.oid = none := by
    rw [← Option.not_isSome_iff_eq_none]
    intro hsome
    obtain ⟨a, ha⟩ := Option.isSome_iff_exists.mp hsome
    exact hpath (fileName_mem_of_search hs.tabled ha)
  rw [exists_eq_false.mpr hnone, exists_eq_false, hhash] at hexist
  simp [oidHashSearch] at hexist

/-- A creation that has made the file and closed it. What is left is the list of
the open files, and the put of the attribute. -/
theorem creationTorn_of_creates (hs : Tidy root s)
    (hpath : fileName shortPath root obj.oid ∉ s.files.names)
    (hcreates : Creates env root obj.oid s) : CreationTorn env root s obj cap := by
  obtain ⟨-, hcreat, hclose⟩ := id hcreates
  have hmakes := makes_addToOpenFiles env s.nextEl
    ((s.created env (fileName shortPath root obj.oid)).track obj.oid)
  have hsame : addCalls
      ((s.created env (fileName shortPath root obj.oid)).track obj.oid) =
        addCalls (s.track obj.oid) := rfl
  have hleaves : ¬ Leaves env root s (.createObj obj cap) :=
    fun h => hclose h.2.2
  rw [hsame] at hmakes
  rw [CreationTorn, or_iff_left hleaves]
  cases hcalls : addCalls (s.track obj.oid) with
  | none =>
      -- the server stops at a dangling pointer
      rw [hcalls] at hmakes
      obtain ⟨t, hrun⟩ := hmakes
      have herror : createOp env root obj cap s = .error .badPointer t :=
        bind_of_error ((create_of_creates hcreates).trans hrun)
      have hcode := not_endsWithCode_of_fault herror fun _ =>
        Fault.noConfusion
      have hno : ¬ Tears env root s (.createObj obj cap) := by
        rintro ⟨-, -, -, n, hn, -⟩
        rw [hcalls] at hn
        cases hn
      exact ⟨iff_of_true (fun h => absurd h hcode) hno,
        iff_of_true (fun h => absurd h hcode) hno⟩
  | some n =>
      rw [hcalls] at hmakes
      obtain ⟨v, hrun, hv⟩ := hmakes
      have hcreated := (create_of_creates hcreates).trans hrun
      obtain ⟨-, -, -, hhash, -⟩ := create_ok hcreated
      have hstart : createOp env root obj cap s = asStorageError
          (sysioObjSetattr env obj.oid lwfsCidName (cidValue cap.data.cid)) v :=
        bind_of_ok hcreated
      have htears : Tears env root s (.createObj obj cap) ↔
          env.outcome v.calls = .fail := by
        rw [hv]
        refine ⟨?_, fun h => ⟨hpath, hcreat, hclose, n, hcalls, h⟩⟩
        rintro ⟨-, -, -, n', hn', hfail⟩
        rw [hcalls, Option.some.injEq] at hn'
        rwa [hn']
      rw [htears, endsWithCode_congr hstart, final_congr hstart,
        endsWithCode_asStorageError, final_asStorageError]
      obtain ⟨e, hcall, -, -, hok⟩ | ⟨hcall, herror⟩ :=
        setattr_cases env obj.oid v (cidAttr_sendable cap.data.cid)
      · have hcode := not_endsWithCode_of_ok hok
        exact ⟨iff_of_true (fun h => absurd h hcode) hcall,
          iff_of_true (fun h => absurd h hcode) hcall⟩
      · have hcode := endsWithCode_of_code herror
        have hchanged : ¬ SameObjects s v.called :=
          not_sameObjects_of_added hs hpath hhash
        rw [final_of_error herror]
        exact ⟨iff_of_false (fun h => hchanged (h hcode)) (not_not.mpr hcall),
          iff_of_false (fun h => hchanged (h hcode).objects)
            (not_not.mpr hcall)⟩

/-- What holds of a creation, by its steps. -/
theorem create_torn_iff (hroot : Untruncated root) (hs : Tidy root s)
    (hfind : fileName shortPath root obj.oid ∈ s.files.names →
      env.outcome s.calls ≠ .fail) : CreationTorn env root s obj cap := by
  by_cases habsent : Absent env root obj.oid s
  · have hpath : fileName shortPath root obj.oid ∉ s.files.names := fun hmem =>
      habsent.elim (hfind hmem) (absurd hmem)
    by_cases hcreat : env.outcome (s.calls + 1) = .fail
    · exact creationTorn_of_nothing (create_of_refused habsent hcreat) rfl rfl rfl
        (fun h => h.2.1 hcreat) fun h => h.2.1 hcreat
    by_cases hclose : env.outcome (s.calls + 2) = .fail
    · exact creationTorn_of_leaked hroot habsent hpath hcreat hclose
    · exact creationTorn_of_creates hs hpath ⟨habsent, hcreat, hclose⟩
  · have hno : ¬ fileName shortPath root obj.oid ∉ s.files.names := fun h =>
      habsent (.inr h)
    exact creationTorn_of_nothing (create_of_found env root obj.oid s habsent)
      rfl rfl rfl (fun h => hno h.1) fun h => hno h.1

end Creation

theorem remove_torn_iff {obj : Obj} (cap : Cap Mac) (hs : Tidy root s)
    (hexists : (oidHashSearch s.oidHash obj.oid).isSome) :
    EndsWithCode (sysioObjRemove env root obj.oid) s ↔
      Tears env root s (.removeObj obj cap) := by
  obtain ⟨a, ha⟩ := Option.isSome_iff_exists.mp hexists
  rw [remove_endsWithCode_iff hs ha]
  constructor
  · rintro ⟨n, hn, hfail⟩
    exact ⟨a, n, ha, hn, hfail⟩
  · rintro ⟨a', n, ha', hn, hfail⟩
    rw [ha, Option.some.injEq] at ha'
    subst ha'
    exact ⟨n, hn, hfail⟩

/-- In every state that sessions lead to, a request that makes or removes an
object, or sets or removes an array of attributes, and returns an error has left
objects and attributes as they were, unless it fails at one of the steps that
`Tears` names. The files are those of the objects that there were, unless a new
file is not closed. -/
theorem metadataAtomic_iff (hroot : Untruncated root) {s : Server}
    (hs : Reached Mac root s) (env : Env Mac) {req : Request Mac}
    (hmetadata : req.isMetadata = true)
    (htruthful : Request.Truthful root s (env, req)) (hsendable : req.Sendable) :
    (Atomic SameObjects env root req s.store ↔
      ¬ (Admitted env req s.store ∧ Tears env root s.store req)) ∧
    (Atomic (SameStored root) env root req s.store ↔
      ¬ (Admitted env req s.store ∧
        (Tears env root s.store req ∨ Leaves env root s.store req))) := by
  have htidy := hs.tidy hroot
  by_cases hadmitted : Admitted env req s.store
  swap
  · exact ⟨iff_of_true (atomic_of_not_admitted sameObjects_refl hadmitted)
        fun h => hadmitted h.1,
      iff_of_true (atomic_of_not_admitted (sameStored_refl root) hadmitted)
        fun h => hadmitted h.1⟩
  simp only [atomic_iff_operation hadmitted, and_iff_right hadmitted]
  cases req
  case createObj obj cap =>
    simp only [operation, endsWithCode_map, final_map]
    exact create_torn_iff hroot htidy (htruthful obj cap rfl)
  case removeObj obj cap =>
    have hexists : (oidHashSearch s.store.oidHash obj.oid).isSome :=
      hadmitted.1 rfl
    have hleaves : ¬ Leaves env root s.store (.removeObj obj cap) := id
    simp only [operation, endsWithCode_map, final_map, or_iff_left hleaves]
    have hchanged : ¬ SameObjects s.store
        ((sysioObjRemove env root obj.oid).final s.store) := by
      intro hall
      have hgone := hall.exist obj.oid
      rw [final_remove htidy.tabled] at hgone
      have hsome : false = (oidHashSearch s.store.oidHash obj.oid).isSome :=
        Except.ok.inj hgone
      rw [← hsome] at hexists
      cases hexists
    rw [remove_torn_iff cap htidy hexists]
    exact ⟨⟨fun h htears => hchanged (h htears), fun h htears => absurd htears h⟩,
      ⟨fun h htears => hchanged (h htears).objects,
        fun h htears => absurd htears h⟩⟩
  case setattrs obj attrs cap =>
    have hleaves : ¬ Leaves env root s.store (.setattrs obj attrs cap) := id
    simp only [operation, endsWithCode_map, final_map,
      endsWithCode_asStorageError, final_asStorageError, or_iff_left hleaves]
    have hdata : SameData s.store
        ((sysioObjSetattrs env obj.oid attrs).final s.store) :=
      within_forM (fun _ => setattr_within (fun _ _ _ => ⟨rfl, rfl, rfl⟩) _ _ _)
        attrs s.store
    obtain ⟨hobjects, hstored⟩ := same_iff_attrMap root hdata
    rw [hobjects, hstored, Tears, ← setattrs_torn_iff hsendable, not_and, not_not]
    exact ⟨Iff.rfl, Iff.rfl⟩
  case rmattrs obj names cap =>
    have hleaves : ¬ Leaves env root s.store (.rmattrs obj names cap) := id
    simp only [operation, endsWithCode_map, final_map,
      endsWithCode_asStorageError, final_asStorageError, or_iff_left hleaves]
    have hdata : SameData s.store
        ((sysioObjRmattrs env obj.oid names).final s.store) :=
      within_forM (fun name => rmattr_within (fun _ _ _ => ⟨rfl, rfl, rfl⟩) _ name)
        names s.store
    obtain ⟨hobjects, hstored⟩ := same_iff_attrMap root hdata
    rw [hobjects, hstored, Tears, ← rmattrs_changed_iff htidy.attrs,
      ← rmattrs_endsWithCode_iff htidy.attrs, not_and']
    exact ⟨forall_congr' fun _ => not_not.symm, forall_congr' fun _ => not_not.symm⟩
  all_goals cases hmetadata

/-- A server that has started with an empty root directory. -/
def startedServer (root : Path) : Server :=
  ⟨(sysioObjInit (Env.quiet fun _ => none : Env Unit) root
    [['.'], ['.', '.']]).final Store.empty.stopped, true⟩

theorem reached_startedServer (root : Path)
    (hinit : (sysioObjInit (Env.quiet fun _ => none : Env Unit) root
      [['.'], ['.', '.']]).outcome Store.empty.stopped = .ok ()) :
    Reached Unit root (startedServer root) :=
  .single (.start _ _ (listing_empty root rfl) (outcome_eq_ok.mp hinit))

/-- An environment where one call fails. -/
def failingEnv (n : ℕ) : Env Unit :=
  { Env.quiet fun _ => none with
    outcome := fun call => if call = n then .fail else .ok }

/-- An object is created, with no call that fails. -/
theorem metadataAtomic_createObj :
    let root : Path := ['/', 'r']
    let env : Env Unit := Env.quiet fun _ => none
    let cap : Cap Unit :=
      ⟨⟨1, containerWrite, ⟨Oid.zero, Octets.fill 20 0⟩⟩, ()⟩
    Atomic SameObjects env root (.createObj Obj.zero cap)
      (startedServer root).store := by
  intro root env cap
  have hroot : Untruncated root := untruncated_iff.mpr (by decide)
  have hreached := reached_startedServer root (by decide +kernel)
  have hsendable : (Request.createObj Obj.zero cap).Sendable := trivial
  refine (metadataAtomic_iff hroot hreached env rfl (fun _ _ _ _ h => by cases h)
    hsendable).1.mpr ?_
  rintro ⟨-, -, -, -, n, -, hfail⟩
  cases hfail

/-- The put of the attribute fails, and the object is there. The unlinking
fails, and the object is gone. The second attribute of an array is not set or not
removed, and the first one is. -/
theorem not_metadataAtomic :
    let root : Path := ['/', 'r']
    let env : Env Unit := Env.quiet fun _ => none
    let cap : Cap Unit :=
      ⟨⟨1, containerWrite ||| containerRead, ⟨Oid.zero, Octets.fill 20 0⟩⟩, ()⟩
    let server := startedServer root
    let created := step root server (env, .createObj Obj.zero cap)
    let s := created.store
    Reached Unit root server ∧ Reached Unit root created ∧
      created.up = true ∧
      ¬ Atomic SameObjects (failingEnv (server.store.calls + 3)) root
        (.createObj Obj.zero cap) server.store ∧
      ¬ Atomic SameObjects (failingEnv s.calls) root
        (.removeObj Obj.zero cap) s ∧
      ¬ Atomic SameObjects (failingEnv (s.calls + 1)) root
        (.setattrs Obj.zero [⟨[97], [1]⟩, ⟨[98], [2]⟩] cap) s ∧
      ¬ Atomic SameObjects env root
        (.rmattrs Obj.zero [lwfsCidName, [98]] cap) s := by
  intro root env cap server created s
  have hserver : Reached Unit root server :=
    reached_startedServer root (by decide +kernel)
  have hcreated : Reached Unit root created := hserver.tail
    (.request env _ rfl (fun _ _ _ _ h => by cases h) trivial)
  refine ⟨hserver, hcreated, by decide +kernel, ?_, ?_, ?_, ?_⟩
  · intro hatomic
    have hexist := (hatomic ⟨.errStorage, by decide +kernel⟩).exist Oid.zero
    exact absurd hexist (by decide +kernel)
  · intro hatomic
    have hexist := (hatomic ⟨.errStorage, by decide +kernel⟩).exist Oid.zero
    exact absurd hexist (by decide +kernel)
  · intro hatomic
    have hattrs := (hatomic ⟨.errStorage, by decide +kernel⟩).attrs
    have hattr := congrFun (congrFun hattrs Oid.zero) [97]
    exact absurd hattr (by decide +kernel)
  · intro hatomic
    have hattrs := (hatomic ⟨.errStorage, by decide +kernel⟩).attrs
    have hattr := congrFun (congrFun hattrs Oid.zero) lwfsCidName
    exact absurd hattr (by decide +kernel)

end Atomic

end Lwfs.Storage
