import Lwfs.Storage.Server

/-!
What a capability allows at the storage server.

Each handler makes its checks, and then its operation. The checks are the
same for all handlers, up to the operation that the capability has to include.
-/

namespace Lwfs.Storage

open SysLib

variable {Mac : Type}

/-! ### Requests as checks and operations -/

namespace Request

/-- The capability that a request presents. -/
def cap : Request Mac → Cap Mac
  | .createObj _ cap => cap
  | .removeObj _ cap => cap
  | .read _ _ _ cap => cap
  | .write _ _ _ cap => cap
  | .fsync _ cap => cap
  | .listattrs _ cap => cap
  | .getattrs _ _ cap => cap
  | .setattrs _ _ cap => cap
  | .rmattrs _ _ cap => cap
  | .getattr _ _ cap => cap
  | .setattr _ _ cap => cap
  | .rmattr _ _ cap => cap
  | .stat _ cap => cap
  | .truncate _ _ cap => cap

/-- The object that a request is about. -/
def obj : Request Mac → Obj
  | .createObj obj _ => obj
  | .removeObj obj _ => obj
  | .read obj _ _ _ => obj
  | .write obj _ _ _ => obj
  | .fsync obj _ => obj
  | .listattrs obj _ => obj
  | .getattrs obj _ _ => obj
  | .setattrs obj _ _ => obj
  | .rmattrs obj _ _ => obj
  | .getattr obj _ _ => obj
  | .setattr obj _ _ => obj
  | .rmattr obj _ _ => obj
  | .stat obj _ => obj
  | .truncate obj _ _ => obj

/-- Whether a request makes its object. -/
def creates : Request Mac → Bool
  | .createObj _ _ => true
  | _ => false

/-- The operation that the capability of a request has to include. -/
def containerOp : Request Mac → Opcode
  | .createObj _ _ => containerWrite
  | .removeObj _ _ => containerWrite
  | .read _ _ _ _ => containerRead
  | .write _ _ _ _ => containerWrite
  | .fsync _ _ => containerWrite
  | .listattrs _ _ => containerRead
  | .getattrs _ _ _ => containerRead
  | .setattrs _ _ _ => containerWrite
  | .rmattrs _ _ _ => containerRead
  | .getattr _ _ _ => containerRead
  | .setattr _ _ _ => containerWrite
  | .rmattr _ _ _ => containerRead
  | .stat _ _ => containerRead
  | .truncate _ _ _ => containerWrite

end Request

variable (env : Env Mac) (root : Path)

/-- The checks of a handler. -/
def checks (req : Request Mac) : StoreRoutine Unit :=
  if req.creates then
    Routine.reader fun _ => ssVerifyCap env req.cap req.containerOp
  else checkAccess env req.obj req.cap req.containerOp

/-- What a handler does after its checks. -/
def operation : Request Mac → StoreRoutine Result
  | .createObj obj cap => (fun _ => .done) <$> createOp env root obj cap
  | .removeObj obj _ => (fun _ => .done) <$> sysioObjRemove env root obj.oid
  | .read obj offset len _ => readOp env root obj offset len
  | .write obj offset data _ =>
      (fun _ => .done) <$> writeOp env root obj offset data
  | .fsync obj _ => (fun _ => .done) <$> sysioObjFsync env root obj.oid
  | .listattrs obj _ =>
      .names <$> asStorageError (sysioObjListattrs env obj.oid)
  | .getattrs obj names _ =>
      .attrs <$> asStorageError (sysioObjGetattrs env obj.oid names)
  | .setattrs obj attrs _ =>
      (fun _ => .done) <$> asStorageError (sysioObjSetattrs env obj.oid attrs)
  | .rmattrs obj names _ =>
      (fun _ => .done) <$> asStorageError (sysioObjRmattrs env obj.oid names)
  | .getattr obj name _ =>
      .attr <$> asStorageError (sysioObjGetattr env obj.oid name)
  | .setattr obj attr _ => (fun _ => .done) <$>
      asStorageError (sysioObjSetattr env obj.oid attr.name attr.value)
  | .rmattr obj name _ =>
      (fun _ => .done) <$> asStorageError (sysioObjRmattr env obj.oid name)
  | .stat obj _ => .statData <$> asStorageError (sysioObjStat env root obj.oid)
  | .truncate obj size _ => (fun _ => .done) <$> truncateOp env root obj size

/-- Every handler is its checks, followed by its operation. -/
theorem handle_eq (req : Request Mac) :
    handle env root req = checks env req >>= fun _ => operation env root req := by
  cases req with
  | read obj offset len cap => rfl
  | _ => exact map_bind _ _ _

variable {env root} {s t : Store}

theorem ssVerifyCap_eq_ok {cap : Cap Mac} {op : Opcode} :
    ssVerifyCap env cap op = .ok () ↔
      op ≠ 0 ∧ op &&& cap.data.containerOp = op ∧ env.verifyCaps cap = none := by
  simp only [ssVerifyCap]
  constructor
  · intro h
    split at h
    · cases h
    · split at h
      · cases h
      · split at h
        · exact ⟨‹_›, not_not.mp ‹_›, ‹_›⟩
        · cases h
  · rintro ⟨hop, hbits, haccepted⟩
    rw [if_neg hop, if_neg (not_not.mpr hbits), haccepted]
    rfl

theorem checkAccess_eq_ok {obj : Obj} {cap : Cap Mac} {op : Opcode} {u : Unit} :
    checkAccess env obj cap op s = .ok u t ↔
      t = s ∧ (oidHashSearch s.oidHash obj.oid).isSome ∧
        ssVerifyCap env cap op = .ok () := by
  have hexists : sysioObjExists obj.oid s =
      .ok (oidHashSearch s.oidHash obj.oid).isSome s := rfl
  rw [checkAccess, Routine.bind_of_ok hexists]
  cases (oidHashSearch s.oidHash obj.oid).isSome with
  | false => simp
  | true =>
      rw [if_neg (by decide), Routine.reader_eq_ok]
      constructor
      · rintro ⟨hv, rfl⟩
        exact ⟨rfl, rfl, hv⟩
      · rintro ⟨rfl, -, hv⟩
        exact ⟨hv, rfl⟩

/-- The checks leave the state as it is. They pass if the capability does,
and an object that is not made is there. -/
theorem checks_eq_ok {req : Request Mac} {u : Unit} :
    checks env req s = .ok u t ↔
      t = s ∧ (req.creates = false →
        (oidHashSearch s.oidHash req.obj.oid).isSome) ∧
        ssVerifyCap env req.cap req.containerOp = .ok () := by
  rw [checks]
  cases hc : req.creates with
  | false =>
      rw [if_neg (by decide), checkAccess_eq_ok]
      simp only [true_imp_iff]
  | true =>
      rw [if_pos rfl, Routine.reader_eq_ok]
      constructor
      · rintro ⟨hv, rfl⟩
        exact ⟨rfl, nofun, hv⟩
      · rintro ⟨rfl, -, hv⟩
        exact ⟨hv, rfl⟩

theorem final_checks (env : Env Mac) (req : Request Mac) (s : Store) :
    (checks env req).final s = s := by
  have hreader : ∀ f : Store → Except Fault Unit,
      (Routine.reader f).final s = s := by
    intro f
    simp only [Routine.reader, Routine.final]
    cases f s <;> rfl
  rw [checks]
  split
  · exact hreader _
  · rw [checkAccess]
    show Routine.final (if (oidHashSearch s.oidHash req.obj.oid).isSome = false
      then _ else _) s = s
    split
    · rfl
    · exact hreader _

/-- A request whose checks do not pass leaves the state as it is. -/
theorem final_handle_of_refused {req : Request Mac}
    (h : ssVerifyCap env req.cap req.containerOp ≠ .ok ()) :
    (handle env root req).final s = s := by
  rw [handle_eq]
  cases hc : checks env req s with
  | ok u t => exact absurd (checks_eq_ok.mp hc).2.2 h
  | error e t =>
      rw [Routine.final_of_error (Routine.bind_of_error hc),
        ← Routine.final_of_error hc, final_checks]

/-- A request that succeeds has passed its checks. -/
theorem ssVerifyCap_of_handle {req : Request Mac} {r : Result}
    (h : (handle env root req).outcome s = .ok r) :
    ssVerifyCap env req.cap req.containerOp = .ok () := by
  have hrun := Routine.outcome_eq_ok.mp h
  rw [handle_eq, Routine.bind_eq_ok] at hrun
  obtain ⟨u, t, hc, -⟩ := hrun
  exact (checks_eq_ok.mp hc).2.2

/-! ### Containers -/

theorem asStorageError_eq_ok {α : Type} {x : StoreRoutine α} {a : α} :
    asStorageError x s = .ok a t ↔ x s = .ok a t := by
  rw [asStorageError, Routine.mapOutcome_eq_ok]
  constructor
  · rintro ⟨hout, rfl⟩
    split at hout
    · cases hout
    · exact Routine.outcome_eq_ok.mp hout
  · intro h
    rw [Routine.outcome_of_ok h]
    exact ⟨rfl, Routine.final_of_ok h⟩

/-- An attribute that was set is found again, as long as its name does not
fill its array. -/
theorem lookup_of_setattr {oid : Oid} {name : Name} {value : List UInt8}
    {u : Unit} (hname : name.length < nameLen)
    (h : sysioObjSetattr env oid name value s = .ok u t) :
    ∃ e, t.attrs.lookup (db1Keygen oid name) = some e ∧ e.oid = oid ∧
      e.value = value := by
  simp only [sysioObjSetattr, attrEntry, ssDbAttrPut, db1Put, Routine.bind_eq_ok,
    Routine.modify_eq_ok] at h
  obtain ⟨e, s', hentry, -, u', -, rfl⟩ := h
  split at hentry
  · cases hentry
  · obtain ⟨rfl, -⟩ := Routine.pure_eq_ok.mp hentry
    let e : AttrEntry := ⟨oid, name, value, if value = [] then [0]
      else (List.range (attrSize - value.length)).map env.malloc⟩
    have hkey : e.name = name := if_pos hname
    refine ⟨e, ?_, rfl, rfl⟩
    show (u'.attrs.insert (db1Keygen oid e.name) e).lookup _ = some e
    rw [hkey]
    exact AList.lookup_insert _

/-- A successful creation has put the container of its capability into the
attribute `_lwfs_cid` of the object. -/
theorem cid_recorded {obj : Obj} {cap : Cap Mac} {r : Result}
    (h : handle env root (.createObj obj cap) s = .ok r t) :
    ∃ e, t.attrs.lookup (db1Keygen obj.oid lwfsCidName) = some e ∧
      e.oid = obj.oid ∧ e.value = cidValue cap.data.cid := by
  simp only [handle, ssCreateObj, createOp, Routine.map_eq_ok,
    Routine.bind_eq_ok, asStorageError_eq_ok] at h
  obtain ⟨_, ⟨_, _, -, _, _, -, hset⟩, -⟩ := h
  exact lookup_of_setattr (by decide) hset

/-- The server, and for each object the container that was recorded when the
object was made. -/
structure Recorded where
  server : Server
  cid : Oid → Option Cid

namespace Recorded

def init : Recorded := ⟨Server.init, fun _ => none⟩

/-- The containers after a request. The attribute `_lwfs_cid` is the last thing
that `ss_create_obj` writes, so a success is what records a container. An
object that was made without it has none. -/
def cidAfter (root : Path) (s : Recorded) (r : Env Mac × Request Mac) :
    Oid → Option Cid :=
  match r.2 with
  | .createObj obj cap =>
      match (handle r.1 root r.2).outcome s.server.store with
      | .ok _ => Function.update s.cid obj.oid (some cap.data.cid)
      | .error _ =>
          if (oidHashSearch s.server.store.oidHash obj.oid).isSome then s.cid
          else Function.update s.cid obj.oid none
  | _ => s.cid

/-- One request. -/
def step (root : Path) (s : Recorded) (r : Env Mac × Request Mac) : Recorded :=
  if s.server.up then ⟨Storage.step root s.server r, s.cidAfter root r⟩ else s

/-- A request on an object that exists succeeds only if the capability is
accepted, includes the operation, and is for the container recorded for the
object. -/
def Confines (root : Path) (s : Recorded) (r : Env Mac × Request Mac) : Prop :=
  s.server.up → r.2.creates = false →
    (oidHashSearch s.server.store.oidHash r.2.obj.oid).isSome →
    ∀ res, (handle r.1 root r.2).outcome s.server.store = .ok res →
      r.1.verifyCaps r.2.cap = none ∧
        r.2.containerOp &&& r.2.cap.data.containerOp = r.2.containerOp ∧
        s.cid r.2.obj.oid = some r.2.cap.data.cid

/-- Two requests that ask for the same of one object: they present one
capability, their operations need the same operation in it, and the
authorization service answers alike. -/
structure Alike (r r' : Env Mac × Request Mac) : Prop where
  obj : r'.2.obj = r.2.obj
  cap : r'.2.cap = r.2.cap
  containerOp : r'.2.containerOp = r.2.containerOp
  creates : r'.2.creates = r.2.creates
  verifyCaps : r'.1.verifyCaps = r.1.verifyCaps

/-- A request and all that ask for the same are confined, however the calls of
the host end. -/
def ConfinesAlike (root : Path) (s : Recorded) (r : Env Mac × Request Mac) :
    Prop :=
  ∀ r', Alike r r' → Confines root s r'

/-- A capability that `ss_verify_cap` lets through to an object that exists is
for the container recorded for the object. -/
def Matches (s : Recorded) (r : Env Mac × Request Mac) : Prop :=
  s.server.up → r.2.creates = false →
    (oidHashSearch s.server.store.oidHash r.2.obj.oid).isSome →
    ssVerifyCap r.1 r.2.cap r.2.containerOp = .ok () →
    s.cid r.2.obj.oid = some r.2.cap.data.cid

/-- The request for the same that asks the least of the server: no attribute is
read or set. -/
def leastRequest (req : Request Mac) : Request Mac :=
  if req.containerOp = containerRead then .getattrs req.obj [] req.cap
  else .setattrs req.obj [] req.cap

theorem alike_leastRequest (env : Env Mac) {req : Request Mac}
    (hold : req.creates = false) : Alike (env, req) (env, leastRequest req) := by
  cases req with
  | createObj obj cap => cases hold
  | _ => exact ⟨rfl, rfl, rfl, rfl, rfl⟩

/-- It succeeds wherever its checks pass. -/
theorem handle_leastRequest {env : Env Mac} {root : Path} {req : Request Mac}
    {s : Store} (hchecks : checks env (leastRequest req) s = .ok () s) :
    ∃ res, (handle env root (leastRequest req)).outcome s = .ok res := by
  have hrun : handle env root (leastRequest req) s =
      operation env root (leastRequest req) s := by
    rw [handle_eq, Routine.bind_of_ok hchecks]
  rw [Routine.outcome_congr hrun, leastRequest]
  split
  · exact ⟨.attrs [], rfl⟩
  · exact ⟨.done, rfl⟩

/-- What is left of confinement to a container: the check of the container
itself is missing. -/
theorem confines_of_matches {root : Path} {s : Recorded}
    {r : Env Mac × Request Mac} (h : Matches s r) : Confines root s r := by
  intro hup hold hfound res hres
  have hv := ssVerifyCap_of_handle hres
  obtain ⟨-, hbits, haccepted⟩ := ssVerifyCap_eq_ok.mp hv
  exact ⟨haccepted, hbits, h hup hold hfound hv⟩

theorem Matches.of_alike {s : Recorded} {r r' : Env Mac × Request Mac}
    (h : Matches s r) (halike : Alike r r') : Matches s r' := by
  intro hup hold hfound hv
  rw [ssVerifyCap_eq_ok, halike.verifyCaps, halike.cap, halike.containerOp,
    ← ssVerifyCap_eq_ok] at hv
  rw [halike.obj] at hfound ⊢
  rw [halike.cap]
  rw [halike.creates] at hold
  exact h hup hold hfound hv

/-- Where a capability is let through that is not for the container of the
object, a request gets through with it. -/
theorem matches_of_confinesAlike {root : Path} {s : Recorded}
    {r : Env Mac × Request Mac} (h : ConfinesAlike root s r) : Matches s r := by
  obtain ⟨env, req⟩ := r
  intro hup hold hfound hv
  have halike := alike_leastRequest env hold
  have hobj : (leastRequest req).obj = req.obj := halike.obj
  have hcap : (leastRequest req).cap = req.cap := halike.cap
  have hop : (leastRequest req).containerOp = req.containerOp :=
    halike.containerOp
  have hleast : (leastRequest req).creates = false := halike.creates.trans hold
  have hfound' : (oidHashSearch s.server.store.oidHash
      (leastRequest req).obj.oid).isSome := by
    rw [hobj]
    exact hfound
  have hchecks : checks env (leastRequest req) s.server.store =
      .ok () s.server.store := by
    apply checks_eq_ok.mpr
    rw [hcap, hop]
    exact ⟨rfl, fun _ => hfound', hv⟩
  obtain ⟨res, hres⟩ : ∃ res, (handle env root (leastRequest req)).outcome
      s.server.store = .ok res := handle_leastRequest hchecks
  have hcid := (h _ halike hup hleast hfound' res hres).2.2
  rwa [hobj, hcap] at hcid

/-- A run is confined if every capability let through in it is for the container
of its object; and exactly then it is confined together with all that could have
been asked for instead. -/
theorem run_confines (root : Path) (run : List (Env Mac × Request Mac)) :
    (Run.Along (step root) Matches init run →
        Run.Along (step root) (Confines root) init run) ∧
      (Run.Along (step root) (ConfinesAlike root) init run ↔
        Run.Along (step root) Matches init run) := by
  refine ⟨Run.along_mono fun _ _ => confines_of_matches, ?_, ?_⟩
  · exact Run.along_mono fun _ _ => matches_of_confinesAlike
  · exact Run.along_mono fun _ _ h _ halike =>
      confines_of_matches (h.of_alike halike)

/-- A capability for everything in one container. -/
def capOf (cid : Cid) : Cap ℕ :=
  ⟨⟨cid, 63, ⟨Oid.zero, Octets.fill 20 0⟩⟩, 0⟩

theorem run_confines_oneContainer :
    let env : Env ℕ := Env.quiet fun _ => none
    let run := [(env, .createObj Obj.zero (capOf 1)), (env, .stat Obj.zero (capOf 1))]
    Run.Along (step []) (Confines []) init run ∧
      Run.Along (step []) (ConfinesAlike []) init run := by
  intro env run
  suffices hmatches : Run.Along (step []) Matches init run from
    ⟨(run_confines [] run).1 hmatches, (run_confines [] run).2.mpr hmatches⟩
  refine ⟨?_, ?_, trivial⟩
  · intro _ hold
    cases hold
  · intro _ _ _ _
    decide

/-- An object made in the first container is read with a capability for the
second. -/
theorem not_run_confines :
    let env : Env ℕ := Env.quiet fun _ => none
    ¬ Run.Along (step []) (Confines [])
      init [(env, .createObj Obj.zero (capOf 1)), (env, .read Obj.zero 0 4 (capOf 2))] := by
  intro env h
  have hread := h.2.1 (by decide) rfl (by decide) (.read 0 []) (by decide)
  exact absurd hread.2.2 (by decide)

end Recorded

end Lwfs.Storage
