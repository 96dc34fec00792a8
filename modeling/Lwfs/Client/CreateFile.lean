import Lwfs.Lib.Retry
import Lwfs.Lib.Routine
import Lwfs.Naming.Db

/-!
What `create_file` leaves on the servers.

A file needs a container, an object on each storage server, a management
object and an entry in its directory, which are created one after the other.
How each request ends is the environment's part, and so is what a request that
fails leaves on its server. No step undoes what the steps before it have
created, so a failure after the first of them leaves something behind
(`allOrNothing_iff`).
-/

namespace Lwfs.FsLwfs.Creation

open SysLib Routine Naming

variable {Mac : Type}

/-- How a request that creates something fails. What it leaves is not always
nothing: an object of which `ss_create_obj` cannot write the container id stays,
and so do the records that `create_container` has put before it fails. -/
structure Failed (α : Type) where
  rc : ReturnCode
  left : Option α

/-- The answer to a request that creates something. -/
abbrev Answer (α : Type) := Except (Failed α) α

namespace Answer

variable {α β : Type}

/-- What there is on the server afterwards. -/
def left : Answer α → List α
  | .ok a => [a]
  | .error e => e.left.toList

def map (f : α → β) : Answer α → Answer β
  | .ok a => .ok (f a)
  | .error e => .error ⟨e.rc, e.left.map f⟩

@[simp] theorem left_ok (a : α) : left (.ok a) = [a] := rfl

@[simp] theorem left_map (f : α → β) (a : Answer α) :
    (a.map f).left = a.left.map f := by
  cases a with
  | ok a => rfl
  | error e => simp [map, left, Option.toList_map]

@[simp] theorem map_eq_ok {f : α → β} {a : Answer α} {b : β} :
    a.map f = .ok b ↔ ∃ a', a = .ok a' ∧ f a' = b := by
  cases a <;> simp [map]

/-- The thing is there already, as the server says. -/
def Taken (e : Failed α) : Prop := e.rc = .errExist

instance (e : Failed α) : Decidable (Taken e) :=
  inferInstanceAs (Decidable (_ = _))

theorem map_eq_taken {f : α → β} {a : Answer α} :
    (∃ e, a.map f = .error e ∧ Taken e) ↔ ∃ e, a = .error e ∧ Taken e := by
  cases a <;> simp [map, Taken]

end Answer

/-- What stands on the servers, and the static variable `initialized` of
`create_file`. -/
structure World where
  initialized : Bool
  containers : List Cid
  objects : List Obj

/-- What `create_file` returns when it fails. -/
inductive CreateError
  | code (rc : ReturnCode)
  | enomem
  deriving DecidableEq

/-- How it ends when it does not end with `LWFS_OK`. -/
inductive CreateEnd
  | returns (e : CreateError)
  /-- The name has been copied over the end of its buffer. -/
  | overrun
  /-- `rand() % 0`, which ends the process. -/
  | divideByZero
  deriving DecidableEq

abbrev CreateRoutine := Routine CreateEnd World

/-- What `check_cid_cache` finds outside itself. -/
structure CidCalls where
  requestedCid : Cid
  /-- `check_cap_cache` for the container that is asked for. -/
  capCache : Option ReturnCode
  /-- `lwfs_create_container_sync`. -/
  createContainer : Answer Cid
  /-- `check_cap_cache`, after another client has created the container. -/
  capCache' : Option ReturnCode
  createAcl : Option ReturnCode

/-- What `create_file` finds outside itself. The requests of a loop are
numbered. -/
structure CreateCalls (Mac : Type) where
  /-- `check_cap_cache` for the creation of containers. -/
  createCidCap : Option ReturnCode
  cid : CidCalls
  createObjsCap : Except ReturnCode (Cap Mac)
  createFileCap : Option ReturnCode
  /-- `sso_init_objs`, which allocates memory. -/
  initObjs : Option ReturnCode
  /-- `lwfs_create_obj_sync` in `sso_create_dso`, with the id of the object. -/
  createDso : ℕ → Answer Oid
  /-- `lwfs_create_obj_sync` in `sso_create_mo`. -/
  createMo : ℕ → Answer Oid
  rank : ℕ
  rand : ℕ → ℕ
  /-- `lwfs_write_sync` in `sso_store_mo`. -/
  write : ℕ → Option ReturnCode
  /-- `lwfs_create_file_sync`. -/
  createEntry : ℕ → Except ReturnCode Unit
  /-- `lwfs_i_new` returns an inode. -/
  iNew : Bool

/-! ### The code -/

def check : Option ReturnCode → CreateRoutine Unit
  | none => pure ()
  | some rc => throw (.returns (.code rc))

/-- Containers, or parts of them, are there from now on. -/
def addContainers (cids : List Cid) : CreateRoutine Unit :=
  modify fun w => { w with containers := cids ++ w.containers }

/-- Objects are there from now on. -/
def addObjects (objs : List Obj) : CreateRoutine Unit :=
  modify fun w => { w with objects := objs ++ w.objects }

/-- `LWFS_FILE_OBJ`. -/
def fileObj : Int32 := 4

/-- What `lwfs_init_obj` and a creation leave in a reference. -/
def newObj (svc : Service) (cid : Cid) (oid : Oid) : Obj :=
  ⟨svc, fileObj, cid, oid, 0⟩

/-- `check_cid_cache` from where it creates a container. -/
def createCid (c : CidCalls) : CreateRoutine Cid := do
  addContainers c.createContainer.left
  match c.createContainer with
  | .ok cid => do
      check c.createAcl
      return cid
  | .error e =>
      if e.rc = .errExist then do
        check c.capCache'
        return c.requestedCid
      else throw (.returns (.code e.rc))

def checkCidCache (c : CidCalls) : CreateRoutine Cid :=
  if c.requestedCid ≠ cidAny then
    match c.capCache with
    | none => pure c.requestedCid
    | some rc =>
        if rc = .errNoent then createCid c else throw (.returns (.code rc))
  else createCid c

/-- The container of the file and the capabilities, and the capability for
containers the first time. -/
def getContainer (calls : CreateCalls Mac) : CreateRoutine Cid := do
  let w ← get
  if w.initialized = true then
    checkCidCache calls.cid
  else do
    check calls.createCidCap
    modify fun w => { w with initialized := true }
    checkCidCache calls.cid

/-- What the calls with the numbers from `tries` up to `n` leave. -/
def leftBetween (answer : ℕ → Answer Obj) (tries n : ℕ) : List Obj :=
  (List.range (n - tries)).flatMap fun j => (answer (tries + j)).left

/-- A creation that is tried again while the id is taken. -/
def createObj (max tries : ℕ) (answer : ℕ → Answer Obj) :
    CreateRoutine (Obj × ℕ) := do
  let res := Retry.run Answer.Taken answer max tries
  addObjects (leftBetween answer tries res.2)
  match res.1 with
  | .error e => throw (.returns (.code e.rc))
  | .ok obj => return (obj, res.2)

/-- The server that `knuth_shuffle` gives the object `i`. -/
def dsoServer (svcs : List Service) (rank i : ℕ) : Service :=
  svcs.getD ((rank + i) % svcs.length) Service.zero

/-- `sso_create_dso`, with the number of objects that are left. The counter of
the tries is not set back for the next object. -/
def ssoCreateDso (calls : CreateCalls Mac) (svcs : List Service) (cid : Cid) :
    ℕ → ℕ → ℕ → CreateRoutine (List Obj)
  | 0, _, _ => pure []
  | left + 1, i, tries => do
      let created ← createObj 3 tries fun n =>
        (calls.createDso n).map (newObj (dsoServer svcs calls.rank i) cid)
      let dso ← ssoCreateDso calls svcs cid left (i + 1) created.2
      return created.1 :: dso

def ssoCreateMo (calls : CreateCalls Mac) (svcs : List Service) (cid : Cid) :
    CreateRoutine Obj :=
  if svcs.length = 0 then throw .divideByZero
  else do
    let created ← createObj 50 0 fun n =>
      (calls.createMo n).map
        (newObj (svcs.getD (calls.rand n % svcs.length) Service.zero) cid)
    return created.1

/-- `sso_store_mo`. -/
def ssoStoreMo (calls : CreateCalls Mac) : CreateRoutine Unit := do
  check (calls.write 0)
  check (calls.write 1)
  check (calls.write 2)

def ssoCreateObjs (calls : CreateCalls Mac) (svcs : List Service)
    (cap : Cap Mac) : CreateRoutine (List Obj × Obj) := do
  let dso ← ssoCreateDso calls svcs cap.data.cid svcs.length 0 0
  let mo ← ssoCreateMo calls svcs cap.data.cid
  ssoStoreMo calls
  return (dso, mo)

/-- The rest of `create_file`, once the objects are there. -/
def enterFile (calls : CreateCalls Mac) : CreateRoutine Unit :=
  match (Retry.run (· = ReturnCode.errExist) calls.createEntry 3 0).1 with
  | .error rc => throw (.returns (.code rc))
  | .ok _ => if calls.iNew = true then pure () else throw (.returns .enomem)

/-- `create_file` up to the first object. -/
def prepare (calls : CreateCalls Mac) : CreateRoutine (Cap Mac) := do
  let _ ← getContainer calls
  match calls.createObjsCap with
  | .error rc => throw (.returns (.code rc))
  | .ok cap => do
      check calls.createFileCap
      check calls.initObjs
      return cap

def createFile (calls : CreateCalls Mac) (svcs : List Service) (name : Name) :
    CreateRoutine Unit :=
  -- `COPY_PNODE_NAME`; a name may fill its array, with no zero behind it
  if name.length ≤ nameLen then do
    let cap ← prepare calls
    let _ ← ssoCreateObjs calls svcs cap
    enterFile calls
  else throw .overrun

/-! ### What a file needs -/

/-- No container is given, or none with that id is known. -/
def CidCalls.Asks (c : CidCalls) : Prop :=
  c.requestedCid = cidAny ∨ c.capCache = some .errNoent

/-- `check_cid_cache` creates a container, or a part of one. -/
def CidCalls.Creates (c : CidCalls) : Prop :=
  c.Asks ∧ c.createContainer.left ≠ []

/-- `check_cid_cache` returns a container. -/
def CidCalls.Finds (c : CidCalls) : Prop :=
  ¬ c.Asks ∧ c.capCache = none ∨
    c.Asks ∧ ((∃ e, c.createContainer = .error e ∧ Answer.Taken e) ∧
        c.capCache' = none ∨
      (∃ cid, c.createContainer = .ok cid) ∧ c.createAcl = none)

/-- The capability for containers is there, or is given. -/
def MayCreate (w : World) (calls : CreateCalls Mac) : Prop :=
  w.initialized = true ∨ calls.createCidCap = none

/-- What comes before the first object succeeds. -/
structure Prepared (w : World) (calls : CreateCalls Mac) : Prop where
  mayCreate : MayCreate w calls
  cid : calls.cid.Finds
  createObjsCap : ∃ cap, calls.createObjsCap = .ok cap
  createFileCap : calls.createFileCap = none
  initObjs : calls.initObjs = none

/-- An object is created after `k` ids that are taken. -/
def CreatedAfter {α : Type} (answer : ℕ → Answer α) (tries k : ℕ) : Prop :=
  ∃ a, Retry.Reaches Answer.Taken answer tries k a

/-- The objects of a file are created, `left` of them after `tries` calls. -/
def AllCreated (answer : ℕ → Answer Oid) : ℕ → ℕ → Prop
  | 0, _ => True
  | left + 1, tries =>
      ∃ k ≤ 3 - (tries + 1), CreatedAfter answer tries k ∧
        AllCreated answer left (tries + k + 1)

/-- The name is entered after `k` requests that found it taken. -/
def EnteredAfter (answer : ℕ → Except ReturnCode Unit) (k : ℕ) : Prop :=
  ∃ u, Retry.Reaches (· = ReturnCode.errExist) answer 0 k u

/-- What comes after the capabilities succeeds. -/
structure Completed (n : ℕ) (calls : CreateCalls Mac) : Prop where
  dso : AllCreated calls.createDso n 0
  mo : ∃ k ≤ 49, CreatedAfter calls.createMo 0 k
  write : ∀ i < 3, calls.write i = none
  entry : ∃ k ≤ 2, EnteredAfter calls.createEntry k
  iNew : calls.iNew = true

/-- One of the requests for the next object, `tries` of which have been made
before, leaves an object on its server. -/
def LeavesObject (calls : CreateCalls Mac) (tries : ℕ) : Prop :=
  ∃ k, Retry.Made Answer.Taken calls.createDso (3 - (tries + 1)) tries k ∧
    (calls.createDso (tries + k)).left ≠ []

/-! ### How the steps end -/

/-- From `w` the routine ends in a world that `R` holds of. It has a result if
`P` holds, and otherwise it returns an error. -/
def Ends {α : Type} (x : CreateRoutine α) (w : World) (P : Prop)
    (R : World → Prop) : Prop :=
  ∃ t, R t ∧ (P ∧ (∃ a, x w = .ok a t) ∨ ¬ P ∧ ∃ e, x w = .error (.returns e) t)

section Ends

variable {α β : Type} {x : CreateRoutine α} {f : α → CreateRoutine β}
  {w : World} {P Q : Prop} {R S : World → Prop}

theorem ends_pure (a : α) : Ends (pure a) w True (· = w) :=
  ⟨w, rfl, .inl ⟨trivial, a, rfl⟩⟩

theorem ends_throw (e : CreateError) :
    Ends (throw (.returns e) : CreateRoutine α) w False (· = w) :=
  ⟨w, rfl, .inr ⟨id, e, rfl⟩⟩

theorem Ends.congr (h : Ends x w P R) (hiff : P ↔ Q) : Ends x w Q R := by
  rwa [← propext hiff]

theorem Ends.mono (h : Ends x w P R) (himp : ∀ t, R t → S t) :
    Ends x w P S := by
  obtain ⟨t, ht, hend⟩ := h
  exact ⟨t, himp t ht, hend⟩

theorem Ends.bind (h : Ends x w P R) (himp : ∀ t, R t → S t)
    (hf : P → ∀ a t, x w = .ok a t → R t → Ends (f a) t Q S) :
    Ends (x >>= f) w (P ∧ Q) S := by
  obtain ⟨t, ht, ⟨hP, a, hx⟩ | ⟨hP, e, hx⟩⟩ := h
  · obtain ⟨u, hu, hend⟩ := hf hP a t hx ht
    refine ⟨u, hu, ?_⟩
    rw [bind_of_ok hx]
    simpa [hP] using hend
  · exact ⟨t, himp t ht, .inr ⟨fun h => hP h.1, e, bind_of_error hx⟩⟩

/-- A second part that leaves the servers alone. -/
theorem Ends.bind_stays (h : Ends x w P R)
    (hf : ∀ a t, x w = .ok a t → Ends (f a) t Q (· = t)) :
    Ends (x >>= f) w (P ∧ Q) R := by
  apply h.bind (fun _ ht => ht)
  intro _ a t hx ht
  apply (hf a t hx).mono
  rintro _ rfl
  exact ht

theorem ends_check (outcome : Option ReturnCode) :
    Ends (check outcome) w (outcome = none) (· = w) := by
  cases outcome with
  | none => exact (ends_pure ()).congr (by simp)
  | some rc => exact (ends_throw (.code rc)).congr (by simp)

end Ends

/-- The objects are those of `w`, and the containers are if `P` does not
hold. -/
def Contained (w : World) (P : Prop) (t : World) : Prop :=
  t.objects = w.objects ∧ (t.containers = w.containers ↔ ¬ P)

theorem contained_self {w : World} {P : Prop} (hP : ¬ P) : Contained w P w :=
  ⟨rfl, iff_of_true rfl hP⟩

theorem createCid_ends (c : CidCalls) (w : World) (hasks : c.Asks) :
    Ends (createCid c) w c.Finds (Contained w c.Creates) := by
  let w' : World := { w with containers := c.createContainer.left ++ w.containers }
  have hadd : addContainers c.createContainer.left w = .ok () w' := rfl
  have hleft : Contained w c.Creates w' := by
    refine ⟨rfl, ?_⟩
    simp [w', CidCalls.Creates, hasks]
  rw [createCid, Ends, bind_of_ok hadd]
  suffices h : Ends _ w' c.Finds (· = w') by
    apply h.mono
    rintro _ rfl
    exact hleft
  cases hcreate : c.createContainer with
  | ok cid =>
      have hfinds : c.createAcl = none ∧ True ↔ c.Finds := by
        simp [CidCalls.Finds, hasks, hcreate]
      exact ((ends_check c.createAcl).bind_stays
        fun _ _ _ => ends_pure cid).congr hfinds
  | error e =>
      by_cases hexist : e.rc = .errExist
      · have hfinds : c.capCache' = none ∧ True ↔ c.Finds := by
          simp [CidCalls.Finds, hasks, hcreate, Answer.Taken, hexist]
        simp only [if_pos hexist]
        exact ((ends_check c.capCache').bind_stays
          fun _ _ _ => ends_pure c.requestedCid).congr hfinds
      · have hfinds : False ↔ c.Finds := by
          simp [CidCalls.Finds, hasks, hcreate, Answer.Taken, hexist]
        simp only [if_neg hexist]
        exact (ends_throw (.code e.rc)).congr hfinds

theorem checkCidCache_ends (c : CidCalls) (w : World) :
    Ends (checkCidCache c) w c.Finds (Contained w c.Creates) := by
  rw [checkCidCache]
  by_cases hany : c.requestedCid = cidAny
  · rw [if_neg (not_not_intro hany)]
    exact createCid_ends c w (.inl hany)
  · rw [if_pos hany]
    cases hcap : c.capCache with
    | none =>
        have hasks : ¬ c.Asks := by
          simp [CidCalls.Asks, hany, hcap]
        have hfinds : True ↔ c.Finds := by
          simp [CidCalls.Finds, hasks, hcap]
        apply ((ends_pure c.requestedCid).congr hfinds).mono
        rintro _ rfl
        exact contained_self fun h => hasks h.1
    | some rc =>
        by_cases hnoent : rc = .errNoent
        · simp only [if_pos hnoent]
          exact createCid_ends c w (.inr (hcap.trans (congrArg some hnoent)))
        · have hasks : ¬ c.Asks := by
            simp [CidCalls.Asks, hany, hcap, hnoent]
          have hfinds : False ↔ c.Finds := by
            simp [CidCalls.Finds, hasks, hcap]
          simp only [if_neg hnoent]
          apply ((ends_throw (.code rc)).congr hfinds).mono
          rintro _ rfl
          exact contained_self fun h => hasks h.1

theorem getContainer_ends (calls : CreateCalls Mac) (w : World) :
    Ends (getContainer calls) w (MayCreate w calls ∧ calls.cid.Finds)
      (Contained w (MayCreate w calls ∧ calls.cid.Creates)) := by
  rw [getContainer, Ends, get_bind]
  by_cases hinit : w.initialized = true
  · have hmay : MayCreate w calls := .inl hinit
    simp only [if_pos hinit, hmay, true_and]
    exact checkCidCache_ends calls.cid w
  · simp only [if_neg hinit]
    cases hcap : calls.createCidCap with
    | none =>
        -- the variable is set, and the containers are looked at with it
        have hmay : MayCreate w calls := .inr hcap
        simp only [hmay, true_and]
        exact checkCidCache_ends calls.cid { w with initialized := true }
    | some rc =>
        have hmay : ¬ MayCreate w calls := by
          simp [MayCreate, hinit, hcap]
        exact ⟨w, contained_self fun h => hmay h.1,
          .inr ⟨fun h => hmay h.1, .code rc, rfl⟩⟩

/-- What comes before the first object leaves at most a container. -/
theorem prepare_ends (calls : CreateCalls Mac) (w : World) :
    Ends (prepare calls) w (Prepared w calls)
      (Contained w (MayCreate w calls ∧ calls.cid.Creates)) := by
  have hrest : ∀ cid t, getContainer calls w = .ok cid t →
      Ends (match calls.createObjsCap with
        | .error rc => throw (.returns (.code rc))
        | .ok cap => do
            check calls.createFileCap
            check calls.initObjs
            return cap) t ((∃ cap, calls.createObjsCap = .ok cap) ∧
          calls.createFileCap = none ∧ calls.initObjs = none) (· = t) := by
    intro cid t _
    cases hobjs : calls.createObjsCap with
    | error rc => exact (ends_throw (.code rc)).congr (by simp)
    | ok cap =>
        exact ((ends_check calls.createFileCap).bind_stays fun _ u _ =>
          (ends_check calls.initObjs).bind_stays fun _ _ _ =>
            ends_pure cap).congr (by simp)
  apply ((getContainer_ends calls w).bind_stays hrest).congr
  constructor
  · rintro ⟨⟨hmay, hcid⟩, hobjs, hfile, hinit⟩
    exact ⟨hmay, hcid, hobjs, hfile, hinit⟩
  · rintro ⟨hmay, hcid, hobjs, hfile, hinit⟩
    exact ⟨⟨hmay, hcid⟩, hobjs, hfile, hinit⟩

/-! ### The objects -/

/-- The containers are those of `w`, and no object of `w` is missing. -/
def Grown (w t : World) : Prop :=
  t.containers = w.containers ∧ w.objects.length ≤ t.objects.length

theorem Grown.refl (w : World) : Grown w w := ⟨rfl, Nat.le_refl _⟩

theorem Grown.trans {w t u : World} (h : Grown w t) (h' : Grown t u) :
    Grown w u :=
  ⟨h'.1.trans h.1, Nat.le_trans h.2 h'.2⟩

theorem createdAfter_map {α β : Type} (f : ℕ → α → β) (answer : ℕ → Answer α)
    (tries k : ℕ) :
    CreatedAfter (fun n => (answer n).map (f n)) tries k ↔
      CreatedAfter answer tries k := by
  simp only [CreatedAfter, Retry.Reaches, Answer.map_eq_taken, Answer.map_eq_ok,
    exists_and_left]
  apply and_congr_right
  intro _
  constructor
  · rintro ⟨b, a, ha, -⟩
    exact ⟨a, ha⟩
  · rintro ⟨a, ha⟩
    exact ⟨f _ a, a, ha, rfl⟩

/-- The calls of a creation are those that are made. -/
theorem leftBetween_ne_nil (max tries : ℕ) (answer : ℕ → Answer Obj) :
    leftBetween answer tries (Retry.run Answer.Taken answer max tries).2 ≠ [] ↔
      ∃ k, Retry.Made Answer.Taken answer (max - (tries + 1)) tries k ∧
        (answer (tries + k)).left ≠ [] := by
  simp only [leftBetween, ne_eq, List.flatMap_eq_nil_iff, List.mem_range,
    not_forall, Retry.made_run, exists_prop]
  apply exists_congr
  intro k
  rw [Nat.lt_sub_iff_add_lt, Nat.add_comm]

/-- The servers after the requests for an object. -/
def afterTries (max tries : ℕ) (answer : ℕ → Answer Obj) (w : World) : World :=
  let n := (Retry.run Answer.Taken answer max tries).2
  { w with objects := leftBetween answer tries n ++ w.objects }

theorem grown_afterTries (max tries : ℕ) (answer : ℕ → Answer Obj)
    (w : World) : Grown w (afterTries max tries answer w) :=
  ⟨rfl, by simp [afterTries]⟩

/-- A creation leaves what its calls leave. -/
theorem createObj_cases (max tries : ℕ) (answer : ℕ → Answer Obj) (w : World) :
    (∃ k ≤ max - (tries + 1), CreatedAfter answer tries k ∧
      ∃ obj, createObj max tries answer w =
        .ok (obj, tries + k + 1) (afterTries max tries answer w)) ∨
    (¬ ∃ k ≤ max - (tries + 1), CreatedAfter answer tries k) ∧
      ∃ rc, createObj max tries answer w =
        .error (.returns (.code rc)) (afterTries max tries answer w) := by
  have hadd : addObjects (leftBetween answer tries
      (Retry.run Answer.Taken answer max tries).2) w =
        .ok () (afterTries max tries answer w) := rfl
  have hstart : createObj max tries answer w = _ := bind_of_ok hadd
  rcases hrun : Retry.run Answer.Taken answer max tries with ⟨e | obj, m⟩
  · simp only [hrun] at hstart
    refine .inr ⟨?_, e.rc, hstart⟩
    rintro ⟨k, hk, obj, hreach⟩
    have hok := Retry.run_eq_ok.mpr ⟨k, hk, hreach, rfl⟩
    rw [hrun] at hok
    cases hok
  · simp only [hrun] at hstart
    obtain ⟨k, hk, hreach, rfl⟩ := Retry.run_eq_ok.mp hrun
    exact .inl ⟨k, hk, ⟨obj, hreach⟩, obj, hstart⟩

theorem createObj_ends (max tries : ℕ) (answer : ℕ → Answer Obj) (w : World) :
    Ends (createObj max tries answer) w
      (∃ k ≤ max - (tries + 1), CreatedAfter answer tries k) (Grown w) := by
  obtain ⟨k, hk, hcreated, obj, hrun⟩ | ⟨hnone, rc, hrun⟩ :=
    createObj_cases max tries answer w
  · exact ⟨_, grown_afterTries _ _ _ w, .inl ⟨⟨k, hk, hcreated⟩, _, hrun⟩⟩
  · exact ⟨_, grown_afterTries _ _ _ w, .inr ⟨hnone, _, hrun⟩⟩

variable (calls : CreateCalls Mac) (svcs : List Service) (cid : Cid)

/-- The answers to the requests for the object `i`. -/
def dsoAnswer (i n : ℕ) : Answer Obj :=
  (calls.createDso n).map (newObj (dsoServer svcs calls.rank i) cid)

theorem createdAfter_dsoAnswer (i tries k : ℕ) :
    CreatedAfter (dsoAnswer calls svcs cid i) tries k ↔
      CreatedAfter calls.createDso tries k :=
  createdAfter_map (fun _ => newObj (dsoServer svcs calls.rank i) cid) _ _ _

theorem ssoCreateDso_succ (left i tries : ℕ) :
    ssoCreateDso calls svcs cid (left + 1) i tries =
      createObj 3 tries (dsoAnswer calls svcs cid i) >>= fun created =>
        ssoCreateDso calls svcs cid left (i + 1) created.2 >>= fun dso =>
          pure (created.1 :: dso) := rfl

/-- The servers after the requests for the object `i`. -/
def afterDso (i tries : ℕ) (w : World) : World :=
  afterTries 3 tries (dsoAnswer calls svcs cid i) w

theorem leavesObject_iff (i tries : ℕ) :
    LeavesObject calls tries ↔
      leftBetween (dsoAnswer calls svcs cid i) tries (Retry.run Answer.Taken
        (dsoAnswer calls svcs cid i) 3 tries).2 ≠ [] := by
  rw [leftBetween_ne_nil, LeavesObject]
  simp only [Retry.Made, dsoAnswer, Answer.map_eq_taken, Answer.left_map, ne_eq,
    List.map_eq_nil_iff]

theorem afterDso_of_leaves (i : ℕ) {tries : ℕ} (w : World)
    (h : LeavesObject calls tries) :
    w.objects.length < (afterDso calls svcs cid i tries w).objects.length := by
  have hpos := List.length_pos_iff.mpr ((leavesObject_iff calls svcs cid i _).mp h)
  rw [afterDso, afterTries, List.length_append]
  omega

theorem afterDso_of_not_leaves (i : ℕ) {tries : ℕ} (w : World)
    (h : ¬ LeavesObject calls tries) : afterDso calls svcs cid i tries w = w := by
  have hnil := not_not.mp (mt (leavesObject_iff calls svcs cid i _).mpr h)
  rw [afterDso, afterTries, hnil, List.nil_append]

/-- The next object is created. -/
def NextCreated (tries : ℕ) : Prop :=
  ∃ k ≤ 3 - (tries + 1), CreatedAfter calls.createDso tries k

/-- An object that is created is there. -/
theorem NextCreated.leaves {tries : ℕ} (h : NextCreated calls tries) :
    LeavesObject calls tries := by
  obtain ⟨k, hk, oid, hfail, hok⟩ := h
  refine ⟨k, ⟨hk, hfail⟩, ?_⟩
  simp [hok]

/-- Where the requests for the next object leave none, no other is asked for. -/
theorem ssoCreateDso_of_not_leaves (left i : ℕ) {tries : ℕ} (w : World)
    (hnone : ¬ LeavesObject calls tries) :
    ∃ rc, ssoCreateDso calls svcs cid (left + 1) i tries w =
      .error (.returns (.code rc)) w := by
  obtain ⟨k, hk, hcreated, -⟩ | ⟨-, rc, hrun⟩ :=
    createObj_cases 3 tries (dsoAnswer calls svcs cid i) w
  · rw [createdAfter_dsoAnswer] at hcreated
    exact absurd (NextCreated.leaves calls ⟨k, hk, hcreated⟩) hnone
  · refine ⟨rc, ?_⟩
    rw [ssoCreateDso_succ, bind_of_error hrun]
    exact congrArg _ (afterDso_of_not_leaves calls svcs cid i w hnone)

/-- The objects of a file. What the first requests leave stays. -/
theorem ssoCreateDso_ends (left i tries : ℕ) (w : World) :
    Ends (ssoCreateDso calls svcs cid left i tries) w
      (AllCreated calls.createDso left tries) fun t => Grown w t ∧
        (0 < left → LeavesObject calls tries →
          w.objects.length < t.objects.length) := by
  induction left generalizing i tries w with
  | zero =>
      apply (ends_pure []).mono
      rintro _ rfl
      exact ⟨Grown.refl _, fun h => absurd h (Nat.lt_irrefl 0)⟩
  | succ left ih =>
      have hgrown := grown_afterTries 3 tries (dsoAnswer calls svcs cid i) w
      obtain ⟨k, hk, hcreated, obj, hrun⟩ | ⟨hnone, rc, hrun⟩ :=
        createObj_cases 3 tries (dsoAnswer calls svcs cid i) w
      · rw [createdAfter_dsoAnswer] at hcreated
        have hiff : AllCreated calls.createDso left (tries + k + 1) ∧ True ↔
            AllCreated calls.createDso (left + 1) tries := by
          rw [AllCreated, and_true]
          constructor
          · exact fun h => ⟨k, hk, hcreated, h⟩
          · rintro ⟨k', -, ⟨oid', hreach'⟩, h⟩
            obtain ⟨oid, hreach⟩ := hcreated
            rwa [hreach.unique hreach']
        rw [Ends, ssoCreateDso_succ, bind_of_ok hrun]
        apply (((ih (i + 1) (tries + k + 1) _).bind_stays fun dso _ _ =>
          ends_pure (obj :: dso)).congr hiff).mono
        rintro t ⟨ht, -⟩
        exact ⟨hgrown.trans ht, fun _ hleaves => Nat.lt_of_lt_of_le
          (afterDso_of_leaves calls svcs cid i w hleaves) ht.2⟩
      · simp only [createdAfter_dsoAnswer] at hnone
        have hall : ¬ AllCreated calls.createDso (left + 1) tries := by
          rintro ⟨k, hk, hcreated, -⟩
          exact hnone ⟨k, hk, hcreated⟩
        refine ⟨afterDso calls svcs cid i tries w, ⟨hgrown, fun _ hleaves =>
          afterDso_of_leaves calls svcs cid i w hleaves⟩,
          .inr ⟨hall, .code rc, ?_⟩⟩
        rw [ssoCreateDso_succ, bind_of_error hrun]
        rfl

theorem ssoCreateMo_ends (w : World) (hsvcs : svcs.length ≠ 0) :
    Ends (ssoCreateMo calls svcs cid) w
      (∃ k ≤ 49, CreatedAfter calls.createMo 0 k) (Grown w) := by
  have hiff : (∃ k ≤ 50 - (0 + 1), CreatedAfter (fun n =>
        (calls.createMo n).map (newObj
          (svcs.getD (calls.rand n % svcs.length) Service.zero) cid)) 0 k) ∧
      True ↔ ∃ k ≤ 49, CreatedAfter calls.createMo 0 k := by
    rw [and_true]
    apply exists_congr
    intro k
    rw [createdAfter_map fun n => newObj
      (svcs.getD (calls.rand n % svcs.length) Service.zero) cid]
  rw [ssoCreateMo, if_neg hsvcs]
  exact ((createObj_ends 50 0 _ w).bind_stays fun created _ _ =>
    ends_pure created.1).congr hiff

theorem ssoStoreMo_ends (w : World) :
    Ends (ssoStoreMo calls) w (∀ i < 3, calls.write i = none) (· = w) := by
  have hiff : calls.write 0 = none ∧ calls.write 1 = none ∧
      calls.write 2 = none ↔ ∀ i < 3, calls.write i = none := by
    constructor
    · rintro ⟨h0, h1, h2⟩ i hi
      obtain rfl | rfl | rfl : i = 0 ∨ i = 1 ∨ i = 2 := by omega
      · exact h0
      · exact h1
      · exact h2
    · intro h
      exact ⟨h 0 (by omega), h 1 (by omega), h 2 (by omega)⟩
  exact ((ends_check (calls.write 0)).bind_stays fun _ _ _ =>
    (ends_check (calls.write 1)).bind_stays fun _ _ _ =>
      ends_check (calls.write 2)).congr hiff

theorem enterFile_ends (w : World) :
    Ends (enterFile calls) w ((∃ k ≤ 2, EnteredAfter calls.createEntry k) ∧
      calls.iNew = true) (· = w) := by
  rw [enterFile]
  rcases hrun : Retry.run (· = ReturnCode.errExist) calls.createEntry 3 0 with
    ⟨rc | u, n⟩
  · apply (ends_throw (.code rc)).congr
    apply iff_of_false id
    rintro ⟨⟨k, hk, u, hreach⟩, -⟩
    have hok : Retry.run (· = ReturnCode.errExist) calls.createEntry 3 0 =
        (.ok u, 0 + k + 1) :=
      Retry.run_eq_ok.mpr ⟨k, by omega, hreach, rfl⟩
    rw [hrun] at hok
    cases hok
  · obtain ⟨k, hk, hreach, -⟩ := Retry.run_eq_ok.mp hrun
    have hentry : ∃ k ≤ 2, EnteredAfter calls.createEntry k :=
      ⟨k, hk, u, hreach⟩
    cases hnew : calls.iNew with
    | true => exact (ends_pure ()).congr (by simp [hentry])
    | false => exact (ends_throw .enomem).congr (by simp)

/-! ### All or nothing -/

/-- The objects of a file and its entry, once something is left. -/
theorem finish_ends (cap : Cap Mac) (w : World) (hsvcs : svcs.length ≠ 0) :
    Ends (ssoCreateObjs calls svcs cap >>= fun _ => enterFile calls) w
      (Completed svcs.length calls) fun t => Grown w t ∧
        (LeavesObject calls 0 → w.objects.length < t.objects.length) := by
  have hobjs : Ends (ssoCreateObjs calls svcs cap) w
      (AllCreated calls.createDso svcs.length 0 ∧
        (∃ k ≤ 49, CreatedAfter calls.createMo 0 k) ∧
        (∀ i < 3, calls.write i = none) ∧ True) fun t => Grown w t ∧
        (LeavesObject calls 0 → w.objects.length < t.objects.length) := by
    apply ((ssoCreateDso_ends calls svcs cap.data.cid svcs.length 0 0 w).mono
      fun t ht => And.imp_right (fun h => h (by omega)) ht).bind
    · exact fun _ ht => ht
    · intro _ dso t _ ht
      apply ((ssoCreateMo_ends calls svcs cap.data.cid t hsvcs).bind_stays
        fun mo u _ => (ssoStoreMo_ends calls u).bind_stays fun _ _ _ =>
          ends_pure (dso, mo)).mono
      intro u hu
      exact ⟨ht.1.trans hu, fun hleaves =>
        Nat.lt_of_lt_of_le (ht.2 hleaves) hu.2⟩
  apply (hobjs.bind_stays fun _ u _ => enterFile_ends calls u).congr
  constructor
  · rintro ⟨⟨hdso, hmo, hwrite, -⟩, hentry, hnew⟩
    exact ⟨hdso, hmo, hwrite, hentry, hnew⟩
  · rintro ⟨hdso, hmo, hwrite, hentry, hnew⟩
    exact ⟨⟨hdso, hmo, hwrite, trivial⟩, hentry, hnew⟩

/-- Where no request for the first object leaves it, no other is asked for. -/
theorem finish_of_not_leaves (cap : Cap Mac) (w : World)
    (hsvcs : svcs.length ≠ 0) (hnone : ¬ LeavesObject calls 0) :
    ∃ e, (ssoCreateObjs calls svcs cap >>= fun _ => enterFile calls) w =
      .error (.returns e) w := by
  obtain ⟨left, hleft⟩ := Nat.exists_eq_succ_of_ne_zero hsvcs
  obtain ⟨rc, hrun⟩ :=
    ssoCreateDso_of_not_leaves calls svcs cap.data.cid left 0 w hnone
  refine ⟨.code rc, bind_of_error ?_⟩
  rw [ssoCreateObjs, hleft]
  exact bind_of_error hrun

/-- An object that is created for a file is left where a later step fails. -/
theorem Completed.leaves {n : ℕ} (h : Completed (n + 1) calls) :
    LeavesObject calls 0 := by
  obtain ⟨k, hk, hcreated, -⟩ := h.dso
  exact NextCreated.leaves calls ⟨k, hk, hcreated⟩

theorem finish_of_no_server (cap : Cap Mac) (w : World)
    (hsvcs : svcs.length = 0) :
    (ssoCreateObjs calls svcs cap >>= fun _ => enterFile calls) w =
      .error .divideByZero w := by
  apply bind_of_error
  rw [ssoCreateObjs, hsvcs]
  apply (bind_of_ok rfl).trans
  rw [ssoCreateMo, if_pos hsvcs]
  rfl

/-- Where `create_file` returns an error, the containers and the objects are
those that were there before it was called. -/
def AllOrNothing (calls : CreateCalls Mac) (svcs : List Service) (name : Name)
    (w : World) : Prop :=
  ∀ e t, createFile calls svcs name w = .error (.returns e) t →
    t.containers = w.containers ∧ t.objects = w.objects

/-- Where a part of `create_file`, begun in `t`, returns an error, the servers
have what they had in `w`. -/
def Spares (w : World) (x : CreateRoutine Unit) (t : World) : Prop :=
  ∀ e u, x t = .error (.returns e) u →
    u.containers = w.containers ∧ u.objects = w.objects

section Spares

variable {w t u : World} {x : CreateRoutine Unit}

theorem spares_of_ok (h : x t = .ok () u) : Spares w x t := by
  intro e u' hend
  rw [h] at hend
  cases hend

theorem spares_of_end {e : CreateEnd} (h : x t = .error e u)
    (he : ∀ e', e ≠ .returns e') : Spares w x t := by
  intro e' u' hend
  rw [h] at hend
  cases hend
  exact absurd rfl (he e')

theorem spares_of_error {e : CreateError} (h : x t = .error (.returns e) u) :
    Spares w x t ↔ u.containers = w.containers ∧ u.objects = w.objects := by
  constructor
  · exact fun hspares => hspares e u h
  · intro hkept e' u' hend
    rw [h] at hend
    cases hend
    exact hkept

/-- From the first object on, an error leaves nothing only where no object is
left, and no container was before. -/
theorem finish_spares_iff (cap : Cap Mac) (hsvcs : svcs.length ≠ 0)
    (hobjects : t.objects = w.objects) :
    Spares w (ssoCreateObjs calls svcs cap >>= fun _ => enterFile calls) t ↔
      t.containers = w.containers ∧ ¬ LeavesObject calls 0 ∨
        Completed svcs.length calls := by
  by_cases hleaves : LeavesObject calls 0
  · simp only [hleaves, not_true, and_false, false_or]
    obtain ⟨u, ⟨-, hgrown⟩, ⟨hcompleted, a, hend⟩ | ⟨hcompleted, e, hend⟩⟩ :=
      finish_ends calls svcs cap t hsvcs
    · exact iff_of_true (spares_of_ok hend) hcompleted
    · -- the first object is left behind
      apply iff_of_false _ hcompleted
      rw [spares_of_error hend]
      rintro ⟨-, hkept⟩
      have hlt := hgrown hleaves
      rw [hkept, hobjects] at hlt
      exact Nat.lt_irrefl _ hlt
  · obtain ⟨e, hend⟩ := finish_of_not_leaves calls svcs cap t hsvcs hleaves
    have hcompleted : ¬ Completed svcs.length calls := by
      obtain ⟨left, hleft⟩ := Nat.exists_eq_succ_of_ne_zero hsvcs
      rw [hleft]
      exact fun hc => hleaves hc.leaves
    rw [spares_of_error hend]
    simp [hleaves, hcompleted, hobjects]

end Spares

/-- A creation is all or nothing exactly if the process does not get as far as
an error, or it fails before anything of a container or of the first object is
left, or everything succeeds. -/
theorem allOrNothing_iff (name : Name) (w : World) :
    AllOrNothing calls svcs name w ↔ nameLen < name.length ∨
      ¬ (MayCreate w calls ∧ calls.cid.Creates) ∧
        (¬ Prepared w calls ∨ svcs ≠ [] ∧ ¬ LeavesObject calls 0) ∨
      Prepared w calls ∧ (svcs = [] ∨ Completed svcs.length calls) := by
  have hspares : AllOrNothing calls svcs name w ↔
      Spares w (createFile calls svcs name) w := Iff.rfl
  rw [hspares]
  by_cases hname : nameLen < name.length
  · have hoverrun : createFile calls svcs name w = .error .overrun w := by
      rw [createFile, if_neg (Nat.not_le.mpr hname)]
      rfl
    exact iff_of_true (spares_of_end hoverrun nofun) (.inl hname)
  have hfits : createFile calls svcs name = prepare calls >>= fun cap =>
      ssoCreateObjs calls svcs cap >>= fun _ => enterFile calls := by
    rw [createFile, if_pos (Nat.not_lt.mp hname)]
  obtain ⟨t, ⟨hobjects, hcontainers⟩, ⟨hprepared, cap, hrun⟩ |
    ⟨hprepared, e, hrun⟩⟩ := prepare_ends calls w
  · have hrest : createFile calls svcs name w =
        (ssoCreateObjs calls svcs cap >>= fun _ => enterFile calls) t := by
      rw [hfits, bind_of_ok hrun]
    have hend : Spares w (createFile calls svcs name) w ↔
        Spares w (ssoCreateObjs calls svcs cap >>= fun _ => enterFile calls) t := by
      rw [Spares, hrest, Spares]
    rw [hend, ← hcontainers]
    by_cases hsvcs : svcs = []
    · have hcrash := finish_of_no_server calls svcs cap t (by simp [hsvcs])
      apply iff_of_true (spares_of_end hcrash nofun)
      exact .inr (.inr ⟨hprepared, .inl hsvcs⟩)
    · rw [finish_spares_iff calls svcs cap (by simpa using hsvcs) hobjects]
      simp [hname, hprepared, hsvcs]
  · -- no object has been asked for yet
    have hend : createFile calls svcs name w = .error (.returns e) t := by
      rw [hfits, bind_of_error hrun]
    rw [spares_of_error hend, ← hcontainers]
    simp [hname, hprepared, hobjects]

/-- Everything succeeds, except that the name is taken. -/
def nameTaken : CreateCalls Unit where
  createCidCap := none
  cid := ⟨cidAny, none, .ok 1, none, none⟩
  createObjsCap := .ok ⟨⟨1, containerRead, ⟨Oid.zero, Octets.fill 20 0⟩⟩, ()⟩
  createFileCap := none
  initObjs := none
  createDso := fun _ => .ok Oid.zero
  createMo := fun _ => .ok (Octets.fill uuidSize 1)
  rank := 0
  rand := id
  write := fun _ => none
  createEntry := fun _ => .error .errExist
  iNew := true

/-- A container and two objects are left behind. -/
theorem not_allOrNothing_nameTaken :
    ¬ AllOrNothing nameTaken [Service.zero] ['a'] ⟨false, [], []⟩ := by
  intro h
  have hleft := (h (.code .errExist) ⟨true, [1],
    [newObj Service.zero 1 (Octets.fill uuidSize 1),
      newObj Service.zero 1 Oid.zero]⟩ rfl).1
  cases hleft

end Lwfs.FsLwfs.Creation
