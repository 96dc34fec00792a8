import Lwfs.Lib.Discipline
import Lwfs.Naming.FailedRequests
import Lwfs.Naming.RefCount

/-!
What the requests that link and remove do to a count.

Such a request puts one entry or deletes one, and afterwards it stores the
count of the inode that the entry names, or deletes that inode. In between it
owes the count a one. What it stores is the count that it has read last, and
one more or one less.
-/

namespace Lwfs.Naming

open SysLib Routine Steps

/-! ### Trails -/

/-- How far a request has got. -/
inductive Stage
  | idle
  /-- It has put an entry. -/
  | inserted (d : Dirent)
  /-- It has deleted an entry. -/
  | removed (d : Dirent)
  /-- It has stored or deleted the inode. -/
  | settled
  deriving DecidableEq

/-- The entry and the inode that a request has read last, and how far it has
got. -/
structure Trail where
  dirent : Option Dirent
  inode : Option Inode
  stage : Stage

def Trail.start : Trail := ⟨none, none, .idle⟩

def Trail.after (t : Trail) : Prog.Answered DbCall DbCall.Reply → Trail
  | ⟨.getDirent _, .ok d⟩ => { t with dirent := some d }
  | ⟨.getDirentByOid _, .ok d⟩ => { t with dirent := some d }
  | ⟨.getInode _, .ok i⟩ => { t with inode := some i }
  | ⟨.putDirent _ d _, .ok _⟩ => { t with stage := .inserted d }
  | ⟨.delDirent _, .ok _⟩ => { t with stage := t.dirent.elim t.stage .removed }
  | ⟨.putInode _ _ _, _⟩ => { t with stage := .settled }
  | ⟨.delInode _, _⟩ => { t with stage := .settled }
  | _ => t

/-- What a request has still to add to the count of the inode `o`. -/
def Stage.owed (o : Oid) : Stage → ℤ
  | .inserted d => if d.inodeOid = o then 1 else 0
  | .removed d => if d.inodeOid = o then -1 else 0
  | _ => 0

/-! ### The discipline -/

/-- The calls that a request may make that generates the id `direntOid`, as
far as the inode `o` is concerned. -/
def Permitted (o direntOid : Oid) (t : Trail) : DbCall → Prop
  | .putDirent key d noOverwrite =>
      t.stage = .idle ∧ key = d.key ∧ d.oid = direntOid ∧ noOverwrite = true
  | .delDirent oid => t.stage = .idle ∧ ∃ d, t.dirent = some d ∧ d.oid = oid
  | .putInode inodeOid i noOverwrite =>
      inodeOid = i.entryObj.oid ∧ (t.stage.owed o ≠ 0 → inodeOid = o) ∧
        (inodeOid = o → noOverwrite = false ∧ ∃ i', t.inode = some i' ∧
          ((t.stage.owed o = 1 ∧ i = i'.withRefCnt (i'.refCnt + 1)) ∨
            (t.stage.owed o = -1 ∧ i = i'.withRefCnt (i'.refCnt - 1) ∧
              0 < i'.refCnt - 1)))
  | .delInode i =>
      (t.stage.owed o ≠ 0 → i.entryObj.oid = o) ∧
        (i.entryObj.oid = o → t.stage.owed o = -1 ∧
          ∃ i', t.inode = some i' ∧ i'.refCnt - 1 = 0)
  | _ => True

/-- The replies that a request counts on. As long as its entry is not counted,
the inode is there. -/
def Plausible (o : Oid) (t : Trail) : (c : DbCall) → c.Reply → Prop
  | .getDirent _, .ok d => d.oid = Oid.zero → d.inodeOid = Oid.zero
  | .getInode inodeOid, .ok i =>
      i.entryObj.oid = inodeOid ∧ (inodeOid = o → 0 < i.refCnt.toInt)
  | .getInode inodeOid, .error _ => inodeOid = o → t.stage.owed o ≠ 1
  | _, _ => True

def countDiscipline (o direntOid : Oid) :
    Discipline DbCall DbCall.Reply Trail where
  after := Trail.after
  Allows := Permitted o direntOid
  Expects := Plausible o
  Ends t := t.stage.owed o = 0

section Reading

variable {o direntOid : Oid} {t : Trail}

theorem permitted_of_reading {c : DbCall} (hc : c.Reading) :
    Permitted o direntOid t c := by
  cases c <;> trivial

theorem stage_after_of_reading {c : DbCall} {r : c.Reply} (hc : c.Reading) :
    (t.after ⟨c, r⟩).stage = t.stage := by
  cases c <;> first | exact hc.elim | cases r <;> rfl

end Reading

/-! ### The requests obey it -/

section Requests

variable {α β : Type} {o direntOid : Oid} {t : Trail} {p : DbProg α}
  {q : α → DbProg β}

theorem obeys_of_reading (hp : p.Only DbCall.Reading)
    (ht : t.stage.owed o = 0) : p.Obeys (countDiscipline o direntOid) t :=
  Prog.obeys_of_only (K := fun t => t.stage.owed o = 0)
    (fun _ _ hc _ => permitted_of_reading hc)
    (fun _ _ _ hc ht =>
      (congrArg (Stage.owed o) (stage_after_of_reading hc)).trans ht)
    (fun _ ht => ht) hp ht

/-- A request reads, and then it goes on from the same stage. -/
theorem obeys_reading_bind (hp : p.Only DbCall.Reading) (ht : t.stage = .idle)
    (hq : ∀ a t, t.stage = .idle → (q a).Obeys (countDiscipline o direntOid) t) :
    (p >>= q).Obeys (countDiscipline o direntOid) t :=
  Prog.obeys_only_bind (K := fun t => t.stage = .idle)
    (fun _ _ hc _ => permitted_of_reading hc)
    (fun _ _ _ hc ht => (stage_after_of_reading hc).trans ht)
    (fun _ ht => congrArg (Stage.owed o) ht) hp ht hq

theorem obeys_ask_bind {D : Discipline DbCall DbCall.Reply Trail} {c : DbCall}
    {q : c.Value → DbProg β} (hc : D.Allows t c)
    (herror : ∀ e, D.Expects t c (.error e) → D.Ends (D.after t ⟨c, .error e⟩))
    (hok : ∀ a, D.Expects t c (.ok a) →
      (q a).Obeys D (D.after t ⟨c, .ok a⟩)) :
    (ask c >>= q).Obeys D t := by
  refine ⟨hc, fun r hr => ?_⟩
  cases r with
  | error e => exact herror e hr
  | ok a => exact hok a hr

theorem obeys_orFail {rc : ReturnCode}
    (hp : p.Obeys (countDiscipline o direntOid) t) :
    (Steps.orFail rc p).Obeys (countDiscipline o direntOid) t := by
  refine Prog.obeys_tryCatch hp fun e t ht => ?_
  cases e <;> exact ht

/-- An entry that is found by its name, and its inode, are on the trail. -/
theorem obeys_getByName_bind {parentOid : Oid} {name : Name}
    {q : DbEntry → DbProg β} (ht : t.stage = .idle)
    (hq : ∀ e, e.inode.entryObj.oid = e.dirent.inodeOid →
      (e.dirent.oid = Oid.zero → e.dirent.inodeOid = Oid.zero) →
      (e.dirent.inodeOid = o → 0 < e.inode.refCnt.toInt) →
      (q e).Obeys (countDiscipline o direntOid)
        ⟨some e.dirent, some e.inode, .idle⟩) :
    (Steps.namingDbGetByName parentOid name >>= q).Obeys
      (countDiscipline o direntOid) t := by
  have hidle : t.stage.owed o = 0 := by rw [ht]; rfl
  rw [Steps.namingDbGetByName, bind_assoc]
  refine obeys_ask_bind trivial (fun _ _ => hidle) fun d hd => ?_
  rw [Steps.entryOf, bind_assoc]
  refine obeys_ask_bind trivial (fun _ _ => hidle) fun i hi => ?_
  have hrest := hq ⟨d, i⟩ hi.1 hd hi.2
  rw [← ht] at hrest
  exact hrest

theorem owed_removed {d : Dirent} (h : (Stage.removed d).owed o ≠ 0) :
    d.inodeOid = o := by
  by_contra ho
  exact h (if_neg ho)

/-- The inode of an entry that was deleted is released. -/
theorem obeys_inodeRelease {e : DbEntry}
    (hoid : e.inode.entryObj.oid = e.dirent.inodeOid)
    (hcnt : e.dirent.inodeOid = o → 0 < e.inode.refCnt.toInt) :
    (Steps.inodeRelease e.decremented.inode).Obeys
      (countDiscipline o direntOid)
      ⟨some e.dirent, some e.inode, .removed e.dirent⟩ := by
  rcases refCnt_trichotomy (e.inode.refCnt - 1) with hzero | hpos | hneg
  · have hrelease : Steps.inodeRelease e.decremented.inode =
        .call (.delInode e.decremented.inode) fun _ => pure () := if_pos hzero
    rw [hrelease]
    refine ⟨⟨fun hne => hoid.trans (owed_removed hne), fun ho => ?_⟩,
      fun _ _ => (rfl : Stage.owed o .settled = 0)⟩
    have hinode : e.dirent.inodeOid = o := hoid.symm.trans ho
    exact ⟨if_pos hinode, e.inode, rfl, hzero⟩
  · have hne : e.inode.refCnt - 1 ≠ 0 :=
      fun h => absurd (h ▸ hpos) (by decide)
    have hrelease : Steps.inodeRelease e.decremented.inode =
        .call (.putInode e.inode.entryObj.oid e.decremented.inode false)
          fun _ => pure () := (if_neg hne).trans (if_pos hpos)
    rw [hrelease]
    refine ⟨⟨rfl, fun hne => hoid.trans (owed_removed hne), fun ho => ⟨rfl, ?_⟩⟩,
      fun _ _ => (rfl : Stage.owed o .settled = 0)⟩
    have hinode : e.dirent.inodeOid = o := hoid.symm.trans ho
    exact ⟨e.inode, rfl, .inr ⟨if_pos hinode, rfl, hpos⟩⟩
  · have hne : e.inode.refCnt - 1 ≠ 0 :=
      fun h => absurd (h ▸ hneg) (by decide)
    have hnpos : ¬ 0 < e.inode.refCnt - 1 :=
      fun h => absurd (Int32.lt_trans h hneg) (by decide)
    have hrelease : Steps.inodeRelease e.decremented.inode = throw .abort :=
      (if_neg hne).trans (if_neg hnpos)
    rw [hrelease]
    -- the count of `o` is positive, so this is another inode
    by_contra howed
    have hcnt := hcnt (owed_removed howed)
    rw [Int32.lt_iff_toInt_lt, toInt_sub_one hcnt, Int32.toInt_zero] at hneg
    omega

theorem obeys_dbDel {e : DbEntry}
    (hoid : e.inode.entryObj.oid = e.dirent.inodeOid)
    (hcnt : e.dirent.inodeOid = o → 0 < e.inode.refCnt.toInt) :
    (Steps.dbDel e).Obeys (countDiscipline o direntOid)
      ⟨some e.dirent, some e.inode, .idle⟩ := by
  refine obeys_ask_bind ⟨rfl, _, rfl, rfl⟩
    (fun _ _ => (rfl : Stage.owed o .idle = 0)) fun _ _ => ?_
  exact Prog.obeys_bind (obeys_inodeRelease hoid hcnt) fun _ _ ht => ht

theorem obeys_removeEntry {parentOid : Oid} {name : Name}
    (ht : t.stage = .idle) :
    (Steps.removeEntry parentOid name).Obeys (countDiscipline o direntOid) t :=
  obeys_orFail (obeys_getByName_bind ht fun _ hoid _ hcnt =>
    obeys_dbDel hoid hcnt)

/-- A link is put, and then it is counted. -/
theorem obeys_putLink (hzero : o ≠ Oid.zero) {Mac : Type} {env : Env Mac}
    {parentOid : Oid} {name : Name} {target : DbEntry}
    (hoid : target.inode.entryObj.oid = target.dirent.inodeOid)
    (hid : target.dirent.oid = Oid.zero → target.dirent.inodeOid = Oid.zero) :
    (Steps.namingDbPut (linkTo env parentOid name target) true).Obeys
      (countDiscipline o env.direntOid)
      ⟨some target.dirent, some target.inode, .idle⟩ := by
  let entry := linkTo env parentOid name target
  have howed : target.dirent.inodeOid ≠ o →
      (Stage.inserted entry.dirent).owed o = 0 := fun h => if_neg h
  refine obeys_ask_bind ⟨rfl, rfl, rfl, rfl⟩
    (fun _ _ => (rfl : Stage.owed o .idle = 0)) fun _ _ => ?_
  by_cases hlink : target.dirent.oid = Oid.zero
  · have hattach : Steps.inodeAttach entry true =
        ask (.putInode target.inode.entryObj.oid entry.inode true) :=
      if_neg fun h => h hlink
    have ho : target.dirent.inodeOid ≠ o :=
      fun h => hzero (h.symm.trans (hid hlink))
    rw [hattach]
    refine ⟨⟨rfl, fun hne => absurd (howed ho) hne, fun h => ?_⟩, fun r _ => ?_⟩
    · exact absurd (hoid.symm.trans h) ho
    · cases r <;> exact (rfl : Stage.owed o .settled = 0)
  · have hattach : Steps.inodeAttach entry true =
        Steps.inodeIncrementRefcnt target.inode.entryObj.oid := if_pos hlink
    rw [hattach]
    refine ⟨trivial, fun r hr => ?_⟩
    cases r with
    | error f =>
        by_contra hne
        have ho : target.dirent.inodeOid = o := by
          by_contra ho
          exact hne (howed ho)
        exact hr (hoid.trans ho) (if_pos ho)
    | ok i =>
        obtain ⟨hi, -⟩ := hr
        refine ⟨⟨hi.symm, fun hne => ?_, fun h => ⟨rfl, i, rfl, .inl ⟨?_, rfl⟩⟩⟩,
          fun r _ => ?_⟩
        · by_contra ho
          exact hne (howed fun h => ho (hoid.trans h))
        · exact if_pos (hoid.symm.trans h)
        · cases r <;> exact (rfl : Stage.owed o .settled = 0)

/-- The requests that link an entry or remove one. -/
def Request.LinksOrRemoves {Mac : Type} : Request Mac → Prop
  | .createLink _ _ _ _ _ _ => True
  | .unlink _ _ _ => True
  | .removeDir _ _ _ => True
  | .removeNamespace _ _ => True
  | _ => False

variable {Mac : Type} (env : Env Mac) (fuel : ℕ)

theorem obeys_removeFrom (parent : NsEntry) (name : Name) (cap : Cap Mac)
    (ht : t.stage = .idle) :
    (Steps.removeFrom env fuel parent name cap).Obeys
      (countDiscipline o direntOid) t :=
  obeys_reading_bind (only_checkParent parent) ht fun _ _ ht =>
    obeys_reading_bind (only_checkPerm env _ _ _) ht fun _ _ ht =>
      Prog.obeys_bind (obeys_removeEntry ht) fun _ _ ht =>
        obeys_of_reading (only_copyDbToNsEntry fuel _) ht

theorem obeys_handle (hzero : o ≠ Oid.zero) {r : Request Mac}
    (hr : r.LinksOrRemoves) :
    (Steps.handle env fuel r).Obeys (countDiscipline o env.direntOid)
      Trail.start := by
  cases r <;> try exact hr.elim
  case removeNamespace name cap =>
    refine Prog.obeys_bind ?_ fun _ _ ht => ht
    refine obeys_reading_bind (only_orFail (only_namespaceLookup fuel name)) rfl
      fun _ _ ht => ?_
    refine obeys_reading_bind (only_checkPerm env _ _ _) ht fun _ _ ht => ?_
    exact Prog.obeys_bind (obeys_removeEntry ht) fun _ _ ht =>
      obeys_of_reading (only_copyDbToNamespace fuel _) ht
  case removeDir parent name cap =>
    exact Prog.obeys_bind (obeys_removeFrom env fuel parent name cap rfl)
      fun _ _ ht => ht
  case createLink parent name cap targetParent targetName targetCap =>
    refine Prog.obeys_bind ?_ fun _ _ ht => ht
    refine obeys_reading_bind (only_checkParent parent) rfl fun _ _ ht => ?_
    refine obeys_reading_bind (only_checkPerm env _ _ _) ht fun _ _ ht => ?_
    refine obeys_reading_bind (only_checkPerm env _ _ _) ht fun _ _ ht => ?_
    refine obeys_getByName_bind ht fun target hoid hid _ => ?_
    exact Prog.obeys_bind (obeys_putLink hzero hoid hid) fun _ _ ht =>
      obeys_of_reading (only_copyDbToNsEntry fuel _) ht
  case unlink parent name cap =>
    exact Prog.obeys_bind (obeys_removeFrom env fuel parent name cap rfl)
      fun _ _ ht => ht

end Requests

end Lwfs.Naming
