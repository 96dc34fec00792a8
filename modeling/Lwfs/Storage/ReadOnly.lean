import Lwfs.Storage.Access
import Lwfs.Storage.Frames
import Lwfs.Storage.ObjectData

/-!
What a request can change whose capability does not include
`LWFS_CONTAINER_WRITE`.

Reading opens and closes files, and moves elements on the list of open files,
but the objects, their bytes and their attributes stay. The exceptions are
`ss_rmattr` and `ss_rmattrs`, which remove attributes and ask for no more than
`LWFS_CONTAINER_READ`.
-/

namespace Lwfs.Storage

open SysLib Routine

/-- What the clients of the server can see of its state. -/
structure Contents where
  exist : Oid → Bool
  bytes : Objects
  attrs : Db1Key → Option AttrEntry

def Store.view (root : Path) (s : Store) : Contents where
  exist oid := (oidHashSearch s.oidHash oid).isSome
  bytes := s.object root
  attrs key := s.attrs.lookup key

/-- Neither the objects nor their bytes nor their attributes have changed. -/
structure Untouched (s t : Store) : Prop where
  data : SameData s t
  attrs : t.attrs = s.attrs

instance : Std.Refl Untouched := ⟨fun s => ⟨SameData.refl s, rfl⟩⟩

instance : IsTrans Store Untouched :=
  ⟨fun _ _ _ hst htu => ⟨hst.data.trans htu.data, htu.attrs.trans hst.attrs⟩⟩

theorem Untouched.view_eq {root : Path} {s t : Store} (h : Untouched s t) :
    t.view root = s.view root := by
  simp only [Store.view, h.data.object_eq, h.data.oidHash, h.attrs]

section Reading

variable {Mac : Type} {env : Env Mac} {root : Path}

/-! ### Reading -/

/-- A call of the host that neither names a file nor writes one. -/
theorem sys_untouched {α : Type} {call : Outcome → Files → α × Files}
    (h : ∀ o fs, (call o fs).2.names = fs.names ∧
      (call o fs).2.contents = fs.contents) :
    Within Untouched (sys env call) := by
  intro s
  obtain ⟨hnames, hcontents⟩ := h (env.outcome s.calls) s.files
  exact ⟨⟨hnames, hcontents, rfl⟩, rfl⟩

/-- Reading touches nothing. -/
theorem passive_untouched (env : Env Mac) : Passive env Untouched where
  memory _ _ hfiles hhash hattrs :=
    ⟨⟨by rw [hfiles], by rw [hfiles], hhash⟩, hattrs⟩
  sysOpen path := by
    apply sys_untouched
    intro o fs
    simp only [Files.sysOpen]
    split
    · exact ⟨rfl, rfl⟩
    · split <;> exact ⟨rfl, rfl⟩
  sysClose fd := by
    apply sys_untouched
    intro o fs
    simp only [Files.sysClose]
    split <;> exact ⟨rfl, rfl⟩
  sysLseek fd pos := by
    apply sys_untouched
    intro o fs
    simp only [Files.sysLseek]
    split
    · exact ⟨rfl, rfl⟩
    · split <;> exact ⟨rfl, rfl⟩
  sysRead fd len := by
    apply sys_untouched
    intro o fs
    simp only [Files.sysRead]
    split
    · exact ⟨rfl, rfl⟩
    · split <;> exact ⟨rfl, rfl⟩
  sysFstat fd := by
    apply sys_untouched
    intro o fs
    simp only [Files.sysFstat]
    split
    · exact ⟨rfl, rfl⟩
    · split <;> exact ⟨rfl, rfl⟩

end Reading

/-! ### Removing attributes -/

section Removing

variable {Mac : Type} (env : Env Mac)

/-- The removal of an attribute gets as far as to take an entry out of the
database: the database answers both times, and the entry it finds leads back
to an entry. -/
def Removes (oid : Oid) (name : Name) (s : Store) : Prop :=
  env.outcome s.calls ≠ .fail ∧
    ∃ e, s.attrs.lookup (db1Keygen oid name) = some e ∧
      env.outcome (s.calls + 1) ≠ .fail ∧ db1Keygen e.oid e.name ∈ s.attrs

/-- Entries can have gone, but none has come. -/
def Shrinks (s t : Store) : Prop :=
  ∀ key, s.attrs.lookup key = none → t.attrs.lookup key = none

instance : Std.Refl Shrinks := ⟨fun _ _ h => h⟩

instance : IsTrans Store Shrinks :=
  ⟨fun _ _ _ hst htu key h => htu key (hst key h)⟩

variable {env} {root : Path} {oid : Oid} {name : Name} {s : Store}

theorem dbCall_of_ne (h : env.outcome s.calls ≠ .fail) :
    dbCall env s = .ok () { s with calls := s.calls + 1 } := by
  simp only [dbCall, if_neg h]

theorem dbCall_of_fail (h : env.outcome s.calls = .fail) :
    dbCall env s = .error (.code .errStorage) { s with calls := s.calls + 1 } := by
  simp only [dbCall, if_pos h]

theorem rmattr_of_removes (h : Removes env oid name s) :
    ∃ e, s.attrs.lookup (db1Keygen oid name) = some e ∧
      db1Keygen e.oid e.name ∈ s.attrs ∧
      sysioObjRmattr env oid name s = .ok () { s with
        attrs := s.attrs.erase (db1Keygen e.oid e.name)
        calls := s.calls + 2 } := by
  obtain ⟨hfirst, e, he, hsecond, hkey⟩ := h
  let t : Store := { s with calls := s.calls + 1 }
  let u : Store := { s with calls := s.calls + 2 }
  let v : Store := { u with attrs := s.attrs.erase (db1Keygen e.oid e.name) }
  have hget : db1Get env (db1Keygen oid name) s = .ok e t := by
    rw [db1Get, bind_of_ok (dbCall_of_ne hfirst), get_bind]
    simp only [he]
    rfl
  have hdel : dbDel env e t = .ok () v := by
    have hcall : dbCall env t = .ok () u := dbCall_of_ne hsecond
    rw [dbDel, bind_of_ok hcall, get_bind, if_pos hkey]
    rfl
  have hattr : ssDbAttrDel env oid name s = .ok e v := by
    rw [ssDbAttrDel, ssDbGetAttrByName, bind_of_ok hget, bind_of_ok hdel]
    rfl
  refine ⟨e, he, hkey, ?_⟩
  rw [sysioObjRmattr, bind_of_ok hattr]
  rfl

theorem rmattr_of_not_removes (h : ¬ Removes env oid name s) :
    ∃ rc calls, sysioObjRmattr env oid name s =
      .error (.code rc) { s with calls := calls } := by
  suffices hattr : ∃ rc calls, ssDbAttrDel env oid name s =
      .error (.code rc) { s with calls := calls } by
    obtain ⟨rc, calls, hattr⟩ := hattr
    exact ⟨rc, calls, bind_of_error hattr⟩
  let t : Store := { s with calls := s.calls + 1 }
  let u : Store := { s with calls := s.calls + 2 }
  rw [ssDbAttrDel, ssDbGetAttrByName]
  by_cases hfirst : env.outcome s.calls = .fail
  · have hget : db1Get env (db1Keygen oid name) s =
        .error (.code .errStorage) t :=
      bind_of_error (dbCall_of_fail hfirst)
    exact ⟨_, _, bind_of_error hget⟩
  cases he : s.attrs.lookup (db1Keygen oid name) with
  | none =>
      have hget : db1Get env (db1Keygen oid name) s =
          .error (.code .errNoent) t := by
        rw [db1Get, bind_of_ok (dbCall_of_ne hfirst), get_bind]
        simp only [he]
        rfl
      exact ⟨_, _, bind_of_error hget⟩
  | some e =>
      have hget : db1Get env (db1Keygen oid name) s = .ok e t := by
        rw [db1Get, bind_of_ok (dbCall_of_ne hfirst), get_bind]
        simp only [he]
        rfl
      rw [bind_of_ok hget]
      suffices hdel : dbDel env e t = .error (.code .errStorage) u from
        ⟨_, _, bind_of_error hdel⟩
      by_cases hsecond : env.outcome (s.calls + 1) = .fail
      · have hcall : dbCall env t = .error (.code .errStorage) u :=
          dbCall_of_fail hsecond
        exact bind_of_error hcall
      · have hcall : dbCall env t = .ok () u := dbCall_of_ne hsecond
        have hkey : db1Keygen e.oid e.name ∉ u.attrs := fun hkey =>
          h ⟨hfirst, e, he, hsecond, hkey⟩
        rw [dbDel, bind_of_ok hcall, get_bind, if_neg hkey]
        rfl

theorem rmattr_shrinks (oid : Oid) (name : Name) :
    Within Shrinks (sysioObjRmattr env oid name) := by
  intro s
  by_cases h : Removes env oid name s
  · obtain ⟨e, -, -, hrun⟩ := rmattr_of_removes h
    rw [final_of_ok hrun]
    intro key' hnone
    by_cases hk : key' = db1Keygen e.oid e.name
    · rw [hk, AList.lookup_erase]
    · rw [AList.lookup_erase_ne hk, hnone]
  · obtain ⟨rc, calls, hrun⟩ := rmattr_of_not_removes h
    rw [final_of_error hrun]
    exact fun key hnone => hnone

/-- The first name decides whether `sysio_obj_rmattrs` removes anything: it
stops at the first failure, and what has gone does not come back. -/
theorem rmattrs_view_iff (oid : Oid) (names : List Name) (s : Store) :
    ((sysioObjRmattrs env oid names).final s).view root = s.view root ↔
      ¬ ∃ name ∈ names.head?, Removes env oid name s := by
  cases names with
  | nil =>
      refine iff_of_true rfl ?_
      rintro ⟨name, hname, -⟩
      cases hname
  | cons name names =>
      have hcons : sysioObjRmattrs env oid (name :: names) =
          sysioObjRmattr env oid name >>= fun _ =>
            sysioObjRmattrs env oid names := rfl
      simp only [List.head?_cons, Option.mem_def, Option.some.injEq,
        exists_eq_left', hcons]
      by_cases h : Removes env oid name s
      · obtain ⟨e, -, hkey, hrun⟩ := rmattr_of_removes h
        let t : Store := { s with
          attrs := s.attrs.erase (db1Keygen e.oid e.name)
          calls := s.calls + 2 }
        have hrun : sysioObjRmattr env oid name s = .ok () t := hrun
        refine iff_of_false ?_ (not_not.mpr h)
        intro hview
        have hrest : Within Shrinks (sysioObjRmattrs env oid names) :=
          within_forM (fun name => rmattr_shrinks oid name) names
        have hgone : t.attrs.lookup (db1Keygen e.oid e.name) = none :=
          AList.lookup_erase _ _
        have hnone := hrest t _ hgone
        have hfinal : (sysioObjRmattr env oid name >>= fun _ =>
            sysioObjRmattrs env oid names).final s =
            (sysioObjRmattrs env oid names).final t := by
          simp only [final, bind_of_ok hrun]
        have hattr : s.attrs.lookup (db1Keygen e.oid e.name) = none := by
          rw [← hnone, ← hfinal]
          exact (congrFun (congrArg Contents.attrs hview) _).symm
        exact AList.lookup_eq_none.mp hattr hkey
      · obtain ⟨rc, calls, hrun⟩ := rmattr_of_not_removes h
        rw [final_of_error (bind_of_error hrun)]
        exact iff_of_true rfl h

end Removing

/-! ### Capabilities without the right to write -/

/-- The names of the attributes that a request is to remove. -/
def Request.removed {Mac : Type} : Request Mac → List Name
  | .rmattrs _ names _ => names
  | .rmattr _ name _ => [name]
  | _ => []

section ReadOnly

variable {Mac : Type} {env : Env Mac} {root : Path} {s : Store}

/-- The request passes its checks, and the first attribute it is to remove is
removed. -/
def RemovesAttr (env : Env Mac) (req : Request Mac) (s : Store) : Prop :=
  (oidHashSearch s.oidHash req.obj.oid).isSome ∧
    ssVerifyCap env req.cap req.containerOp = .ok () ∧
    ∃ name ∈ req.removed.head?, Removes env req.obj.oid name s

theorem write_ne_read : containerWrite ≠ containerRead := by decide

/-- An operation for which a capability to read is enough changes nothing but
the attributes it is to remove. -/
theorem operation_view_iff {req : Request Mac}
    (hread : req.containerOp = containerRead) :
    ((operation env root req).final s).view root = s.view root ↔
      ¬ ∃ name ∈ req.removed.head?, Removes env req.obj.oid name s := by
  have hquiet : ∀ {x : StoreRoutine Result} (oid : Oid), Within Untouched x →
      ((x.final s).view root = s.view root ↔
        ¬ ∃ name ∈ ([] : List Name).head?, Removes env oid name s) := by
    intro x oid hx
    refine iff_of_true (hx s).view_eq ?_
    rintro ⟨name, hname, -⟩
    cases hname
  have hfinal : ∀ {α : Type} (f : α → Result) (x : StoreRoutine α),
      (f <$> asStorageError x).final s = x.final s := by
    intro α f x
    rw [final_map]
    exact final_mapOutcome
  cases req with
  | createObj obj cap => exact absurd hread write_ne_read
  | removeObj obj cap => exact absurd hread write_ne_read
  | write obj off data cap => exact absurd hread write_ne_read
  | fsync obj cap => exact absurd hread write_ne_read
  | setattrs obj attrs cap => exact absurd hread write_ne_read
  | setattr obj attr cap => exact absurd hread write_ne_read
  | truncate obj size cap => exact absurd hread write_ne_read
  | read obj off len cap => exact hquiet obj.oid ((passive_untouched env).readOp obj off len)
  | listattrs obj cap =>
      exact hquiet obj.oid (within_map (within_mapOutcome
        ((passive_untouched env).sysioObjListattrs obj.oid) _) _)
  | getattrs obj names cap =>
      exact hquiet obj.oid (within_map (within_mapOutcome
        (within_mapM ((passive_untouched env).sysioObjGetattr obj.oid) names) _) _)
  | getattr obj name cap =>
      exact hquiet obj.oid (within_map (within_mapOutcome
        ((passive_untouched env).sysioObjGetattr obj.oid name) _) _)
  | stat obj cap =>
      exact hquiet obj.oid (within_map (within_mapOutcome
        ((passive_untouched env).sysioObjStat obj.oid) _) _)
  | rmattrs obj names cap =>
      rw [operation, hfinal]
      exact rmattrs_view_iff obj.oid names s
  | rmattr obj name cap =>
      have hone : (sysioObjRmattr env obj.oid name).final s =
          (sysioObjRmattrs env obj.oid [name]).final s := by
        show _ = (sysioObjRmattr env obj.oid name >>= fun _ =>
          (pure ⟨⟩ : StoreRoutine PUnit)).final s
        exact (final_bind_pure _ _).symm
      rw [operation, hfinal, hone]
      exact rmattrs_view_iff obj.oid [name] s

/-- A capability that does not include `LWFS_CONTAINER_WRITE` does not pass
for one that does. -/
theorem containerOp_of_ssVerifyCap {req : Request Mac}
    (hcap : req.cap.data.containerOp &&& containerWrite = 0)
    (hv : ssVerifyCap env req.cap req.containerOp = .ok ()) :
    req.containerOp = containerRead := by
  obtain ⟨-, hbits, -⟩ := ssVerifyCap_eq_ok.mp hv
  have hop : req.containerOp = containerRead ∨
      req.containerOp = containerWrite := by
    cases req with
    | read | listattrs | getattrs | rmattrs | getattr | rmattr | stat =>
        exact .inl rfl
    | _ => exact .inr rfl
  rcases hop with hop | hop
  · exact hop
  · rw [hop, UInt32.and_comm, hcap] at hbits
    exact absurd hbits (by decide)

/-- In whatever state the server has come to, and however it ends, a request
without the right to write changes nothing, unless it removes an attribute. -/
theorem view_eq_iff_of_readOnly (run : List (Env Mac × Request Mac))
    (req : Request Mac)
    (hcap : req.cap.data.containerOp &&& containerWrite = 0) :
    let s := (Run.exec (step root) Server.init run).store
    ((handle env root req).final s).view root = s.view root ↔
      ¬ RemovesAttr env req s := by
  intro s
  cases hc : checks env req s with
  | error e t =>
      have hfin : (handle env root req).final s = s := by
        rw [handle_eq, final_of_error (bind_of_error hc),
          ← final_of_error hc, final_checks]
      rw [hfin]
      refine iff_of_true rfl ?_
      rintro ⟨hexists, hv, -⟩
      have hpass : checks env req s = .ok () s :=
        checks_eq_ok.mpr ⟨rfl, fun _ => hexists, hv⟩
      rw [hpass] at hc
      cases hc
  | ok u t =>
      obtain ⟨rfl, hexists, hv⟩ := checks_eq_ok.mp hc
      have hread := containerOp_of_ssVerifyCap hcap hv
      have hold : req.creates = false := by
        cases req with
        | createObj obj cap => exact absurd hread write_ne_read
        | _ => rfl
      have hfin : (handle env root req).final s =
          (operation env root req).final s := by
        simp only [final, handle_eq, bind_of_ok hc]
      rw [hfin, operation_view_iff hread]
      apply not_congr
      constructor
      · intro hremoves
        exact ⟨hexists hold, hv, hremoves⟩
      · rintro ⟨-, -, hremoves⟩
        exact hremoves

/-- A read, and what can be seen of the server after it. -/
theorem view_eq_of_read :
    let env : Env ℕ := Env.quiet fun _ => none
    let cap : Cap ℕ := ⟨⟨1, containerRead, ⟨Oid.zero, Octets.fill 20 0⟩⟩, 0⟩
    let s := (Run.exec (step [])
      Server.init [(env, .createObj Obj.zero (Recorded.capOf 1))]).store
    ((handle env [] (.read Obj.zero 0 4 cap)).final s).view [] = s.view [] := by
  intro env cap s
  refine (view_eq_iff_of_readOnly _ _ (by decide)).mpr ?_
  rintro ⟨-, -, name, hname, -⟩
  cases hname

/-- A capability to read is enough to remove the attribute that records the
container of an object. -/
theorem view_ne_of_rmattr :
    let env : Env ℕ := Env.quiet fun _ => none
    let cap : Cap ℕ := ⟨⟨1, containerRead, ⟨Oid.zero, Octets.fill 20 0⟩⟩, 0⟩
    let s := (Run.exec (step [])
      Server.init [(env, .createObj Obj.zero (Recorded.capOf 1))]).store
    ((handle env [] (.rmattr Obj.zero lwfsCidName cap)).final s).view [] ≠
      s.view [] := by
  intro env cap s h
  have hattr := congrFun (congrArg Contents.attrs h)
    (db1Keygen Obj.zero.oid lwfsCidName)
  have hfound : (s.attrs.lookup (db1Keygen Obj.zero.oid lwfsCidName)).isSome =
      true := by
    decide
  have hgone : ((handle env [] (.rmattr Obj.zero lwfsCidName cap)).final
      s).attrs.lookup (db1Keygen Obj.zero.oid lwfsCidName) = none := by
    decide
  have hnone : s.attrs.lookup (db1Keygen Obj.zero.oid lwfsCidName) = none :=
    hattr.symm.trans hgone
  rw [hnone] at hfound
  cases hfound

end ReadOnly

end Lwfs.Storage
