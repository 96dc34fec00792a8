import Lwfs.Storage.Access
import Lwfs.Storage.Descriptors

/-!
The requests of the storage service as operations on one object.

A request that passes its checks does what one operation of the object
interface does, or it works on the attributes only. So what holds of the
elements along the operations holds along the requests.
-/

namespace Lwfs.Storage

open SysLib Routine

variable {Mac : Type} {env : Env Mac} {root : Path} {s t : Store}

/-- The request passes the checks of its handler. -/
def Admitted (env : Env Mac) (req : Request Mac) (s : Store) : Prop :=
  (req.creates = false → (oidHashSearch s.oidHash req.obj.oid).isSome) ∧
    ssVerifyCap env req.cap req.containerOp = .ok ()

theorem handle_of_admitted {req : Request Mac} (h : Admitted env req s) :
    handle env root req s = operation env root req s := by
  have hchecks : checks env req s = .ok () s := checks_eq_ok.mpr ⟨rfl, h⟩
  rw [handle_eq, bind_of_ok hchecks]

/-- A request that does not pass its checks ends with a code, and changes
nothing. -/
theorem handle_of_not_admitted (root : Path) {req : Request Mac}
    (h : ¬ Admitted env req s) :
    ∃ e, handle env root req s = .error e s := by
  cases hc : checks env req s with
  | ok u t => exact absurd (checks_eq_ok.mp hc).2 h
  | error e t =>
      obtain rfl : s = t := by
        rw [← final_checks env req s, final_of_error hc]
      exact ⟨e, by rw [handle_eq, bind_of_error hc]⟩

/-- The operation on an object that a request makes. -/
def Request.objOp (env : Env Mac) : Request Mac → Option ObjOp
  | .createObj obj _ => some (.create obj.oid)
  | .removeObj obj _ => some (.remove obj.oid)
  | .read obj offset len _ =>
      some (.read obj.oid offset ((List.range len).map env.malloc))
  | .write obj offset data _ =>
      if env.getData.isNone then some (.write obj.oid offset data) else none
  | .fsync obj _ => some (.fsync obj.oid)
  | .stat obj _ => some (.stat obj.oid)
  | .truncate obj size _ => some (.trunc obj.oid size)
  | _ => none

section SameOpen

theorem asStorageError_sameOpen {α : Type} {x : StoreRoutine α}
    (hx : Within SameOpen x) : Within SameOpen (asStorageError x) :=
  within_mapOutcome hx _

/-- Beyond the operation on its object, a request changes neither the elements
nor the list. -/
theorem sameOpen_operation (req : Request Mac) (s : Store) :
    SameOpen (((req.objOp env).elim (pure ()) fun op => op.run env root).final s)
      ((operation env root req).final s) := by
  cases req with
  | createObj obj cap =>
      rw [operation, final_map]
      exact within_final_bind (fun _ => asStorageError_sameOpen
        (setattr_within sameOpen_attrs _ _ _)) s
  | removeObj obj cap =>
      rw [operation, final_map]
      exact Std.Refl.refl _
  -- the answer is sent after the operation, whatever becomes of it
  | read obj off len cap =>
      have hread : ((ObjOp.read obj.oid off ((List.range len).map env.malloc)).run
          env root).final s = (sysioObjRead env root obj.oid off
            ((List.range len).map env.malloc)).final s := final_map
      show SameOpen (((ObjOp.read obj.oid off _).run env root).final s) _
      rw [hread]
      refine within_final_bind (fun res => ?_) s
      exact within_ite (fun _ => within_throw _) fun _ =>
        within_ite (fun _ => within_pure _) fun _ => by
          cases env.putData with
          | none => exact within_pure _
          | some rc => exact within_throw _
  | write obj off data cap =>
      rw [operation, final_map, writeOp, Request.objOp]
      -- without the data of the client nothing is done
      cases env.getData with
      | some rc => exact Std.Refl.refl s
      | none =>
          have hwrite : ((ObjOp.write obj.oid off data).run env root).final s =
              (sysioObjWrite env root obj.oid off data).final s := final_map
          show SameOpen (((ObjOp.write obj.oid off data).run env root).final s) _
          rw [hwrite]
          exact within_final_bind (fun _ =>
            within_ite (fun _ => within_pure _) fun _ =>
              within_ite (fun _ => within_throw _) fun _ => within_throw _) s
  | fsync obj cap =>
      rw [operation, final_map]
      exact Std.Refl.refl _
  | stat obj cap =>
      have hstat : ((ObjOp.stat obj.oid).run env root).final s =
          (sysioObjStat env root obj.oid).final s := final_map
      show SameOpen (((ObjOp.stat obj.oid).run env root).final s) _
      rw [operation, final_map, asStorageError, final_mapOutcome, hstat]
      exact Std.Refl.refl _
  | truncate obj size cap =>
      have htrunc : ((ObjOp.trunc obj.oid size).run env root).final s =
          (sysioObjTrunc env root obj.oid size).final s := final_map
      show SameOpen (((ObjOp.trunc obj.oid size).run env root).final s) _
      rw [operation, final_map, htrunc]
      exact within_final_bind (fun _ =>
        within_ite (fun _ => within_throw _) fun _ => within_pure _) s
  | listattrs obj cap =>
      rw [operation, final_map]
      exact asStorageError_sameOpen (listattrs_within sameOpen_attrs _) s
  | getattrs obj names cap =>
      rw [operation, final_map]
      exact asStorageError_sameOpen
        (within_mapM (getattr_within sameOpen_attrs _) names) s
  | setattrs obj attrs cap =>
      rw [operation, final_map]
      exact asStorageError_sameOpen
        (within_forM (fun _ => setattr_within sameOpen_attrs _ _ _) attrs) s
  | rmattrs obj names cap =>
      rw [operation, final_map]
      exact asStorageError_sameOpen
        (within_forM (rmattr_within sameOpen_attrs _) names) s
  | getattr obj name cap =>
      rw [operation, final_map]
      exact asStorageError_sameOpen (getattr_within sameOpen_attrs _ _) s
  | setattr obj attr cap =>
      rw [operation, final_map]
      exact asStorageError_sameOpen (setattr_within sameOpen_attrs _ _ _) s
  | rmattr obj name cap =>
      rw [operation, final_map]
      exact asStorageError_sameOpen (rmattr_within sameOpen_attrs _ _) s

end SameOpen

/-! ### Runs of requests -/

/-- Where a file is to be created for an object that has one, `access` does
not fail. -/
def Request.Truthful (root : Path) (s : Server) (r : Env Mac × Request Mac) :
    Prop :=
  ∀ obj cap, r.2 = .createObj obj cap →
    fileName shortPath root obj.oid ∈ s.store.files.names →
      r.1.outcome s.store.calls ≠ .fail

theorem objOp_eq_create {req : Request Mac} {oid : Oid}
    (h : req.objOp env = some (.create oid)) :
    ∃ obj cap, req = .createObj obj cap ∧ obj.oid = oid := by
  cases req <;> simp only [Request.objOp, reduceCtorEq, Option.some.injEq,
    ObjOp.create.injEq] at h
  case createObj obj cap => exact ⟨obj, cap, rfl, h⟩
  case write => split_ifs at h; cases h

theorem objOp_eq_remove {req : Request Mac} {oid : Oid}
    (h : req.objOp env = some (.remove oid)) :
    ∃ obj cap, req = .removeObj obj cap ∧ obj.oid = oid := by
  cases req <;> simp only [Request.objOp, reduceCtorEq, Option.some.injEq,
    ObjOp.remove.injEq] at h
  case removeObj obj cap => exact ⟨obj, cap, rfl, h⟩
  case write => split_ifs at h; cases h

theorem survives_map {α β : Type} {x : StoreRoutine α} {f : α → β} :
    survives ((f <$> x).outcome s) = survives (x.outcome s) := by
  cases hx : x s with
  | ok a t => rw [outcome_of_ok hx, outcome_of_ok (map_of_ok hx)]; rfl
  | error e t =>
      rw [outcome_of_error hx, outcome_of_error (map_of_error hx)]
      cases e <;> rfl

theorem held_step (hroot : Untruncated root) {s : Server}
    (h : s.up = true → Held root s.store) {r : Env Mac × Request Mac}
    (hr : Request.Truthful root s r) (hup : (step root s r).up = true) :
    Held root (step root s r).store := by
  obtain ⟨env, req⟩ := r
  unfold step at hup ⊢
  split_ifs at hup ⊢ with hs
  · have hheld := h hs
    by_cases hadmitted : Admitted env req s.store
    · have hrun : handle env root req s.store = operation env root req s.store :=
        handle_of_admitted hadmitted
      have hfinal : (handle env root req).final s.store =
          (operation env root req).final s.store := by
        simp only [final, hrun]
      have houtcome : (handle env root req).outcome s.store =
          (operation env root req).outcome s.store := by
        simp only [outcome, hrun]
      have hup' : survives ((handle env root req).outcome s.store) = true := hup
      rw [houtcome] at hup'
      rw [hfinal]
      refine Held.of_sameOpen ?_ (sameOpen_operation req s.store)
      cases hop : req.objOp env with
      | none => exact hheld
      | some op =>
          refine held_run hroot hheld (fun oid hcreate => ?_) fun oid hremove => ?_
          · subst hcreate
            obtain ⟨obj, cap, rfl, rfl⟩ := objOp_eq_create hop
            exact hr obj cap rfl
          · subst hremove
            obtain ⟨obj, cap, rfl, rfl⟩ := objOp_eq_remove hop
            rwa [operation, survives_map] at hup'
    · obtain ⟨e, herror⟩ := handle_of_not_admitted root hadmitted
      rw [final_of_error herror]
      exact hheld
  · exact h hup

/-- In every state that requests lead to, every element that has a descriptor
has that of the file of its object. -/
theorem held_exec (hroot : Untruncated root) {s : Server}
    (hs : Started Mac root s) {run : List (Env Mac × Request Mac)}
    (hrun : Run.Along (step root) (Request.Truthful root) s run)
    (hup : (Run.exec (step root) s run).up = true) :
    Held root (Run.exec (step root) s run).store :=
  Run.exec_invariant
    (fun (s : Server) _ (h : s.up = true → Held root s.store) hr hup =>
      held_step hroot h hr hup) (fun _ => hs.held) hrun hup

end Lwfs.Storage
