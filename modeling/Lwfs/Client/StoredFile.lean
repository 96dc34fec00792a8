import Lwfs.Client.StripedFile
import Lwfs.Naming.UniqueOids
import Lwfs.Storage.ObjectData

/-!
A striped file in the store.

The objects of a file are on several storage servers. Each server keeps the
bytes of its objects in files of its host, and takes requests of other clients
between those for the file. Through `sso_io`, the handlers of the servers and
their files, a file is one array of bytes all the same: a read finds what was
written last.
-/

namespace Lwfs.Client

open SysLib SysLib.Image
open Storage (DataRequest Env Server Untruncated)

variable {Mac : Type}

/-- The storage servers, by their services. -/
abbrev Servers := Service → Server

/-- A request that a server takes while a transfer goes on. It is for a segment
of the transfer, or another client's. -/
inductive Taken (Mac : Type)
  | ours (seg : Segment) (env : Env Mac)
  | other (svc : Service) (env : Env Mac) (request : DataRequest Mac)

/-- A transfer with the capability that `sso_doio` gets for it, and the
requests that the servers take while it goes on. -/
structure Round (Mac : Type) where
  transfer : Transfer
  cap : Cap Mac
  taken : List (Taken Mac)

/-- The segment that a request is for. -/
def Taken.seg : Taken Mac → Option Segment
  | .ours seg _ => some seg
  | .other _ _ _ => none

/-- What a client's capability is to allow. -/
def LioOp.containerOp : LioOp → Opcode
  | .r => containerRead
  | .w => containerWrite

/-- What `sso_doio` asks for: `lwfs_read` or `lwfs_write`. -/
def LioOp.request (op : LioOp) (buf : List UInt8) (cap : Cap Mac) (obj : Obj)
    (seg : Segment) : DataRequest Mac :=
  match op with
  | .r => .read obj seg.off seg.count cap
  | .w => .write obj seg.off (Image.read buf seg.buf seg.count) cap

/-- The object that a request is about. -/
def objOf : DataRequest Mac → Obj
  | .create obj _ => obj
  | .read obj _ _ _ => obj
  | .write obj _ _ _ => obj

namespace Round

variable (f : StripedFile) (op : LioOp) (r : Round Mac)

/-- The object that a segment is in. -/
def objAt (f : StripedFile) (seg : Segment) : Obj :=
  f.dObj.ssObj.getD seg.store Obj.zero

/-- The server that takes a request, and the request. -/
def sent : Taken Mac → Service × Env Mac × DataRequest Mac
  | .ours seg env =>
      ((objAt f seg).svc, env,
        op.request r.transfer.buf r.cap (objAt f seg) seg)
  | .other svc env request => (svc, env, request)

variable (root : Service → Storage.Path)

/-- One request, at its server and, if it is a read of the client, at the
buffer of the client. -/
def step (s : Servers × List UInt8) (e : Taken Mac) : Servers × List UInt8 :=
  let q := r.sent f op e
  let svc := q.1
  let answer := (Storage.handle q.2.1 (root svc) q.2.2.toRequest).outcome (s.1 svc).store
  (Function.update s.1 svc
      (Storage.step (root svc) (s.1 svc) (q.2.1, q.2.2.toRequest)),
    match e.seg, answer with
    | some seg, .ok (.read _ data) => Image.write 0 s.2 seg.buf data
    | _, _ => s.2)

/-- The servers and the buffer after the transfer. -/
def run (s : Servers) : Servers × List UInt8 :=
  Run.exec (r.step f op root) (s, r.transfer.buf) r.taken

/-- The requests for the segments that `sso_io` submits are taken, in the order
of the transfer, and the servers accept the capability. The requests in between
are about other objects. No call of a host fails. -/
structure Ok : Prop where
  transfer : r.transfer.Ok
  segments : r.taken.filterMap Taken.seg = r.transfer.segments f op
  ours : ∀ seg env, Taken.ours seg env ∈ r.taken →
    (∀ n, env.outcome n = .ok) ∧ env.getData = none ∧ env.putData = none ∧
      Storage.ssVerifyCap env r.cap op.containerOp = .ok ()
  other : ∀ svc env request, Taken.other svc env request ∈ r.taken →
    Storage.Succeeds (env, request) ∧
      ∀ obj ∈ f.dObj.ssObj, obj.svc = svc → obj.oid ≠ (objOf request).oid

end Round

/-- No two objects of the file are one object of a server. -/
def Placed (f : StripedFile) : Prop :=
  (f.dObj.ssObj.map fun obj => (obj.svc, obj.oid)).Nodup

/-- The servers hold the objects of the file with these contents. -/
def Stored (f : StripedFile) (root : Service → Storage.Path) (s : Servers) (objs : Objects) :
    Prop :=
  ∃ held : Service → Storage.Objects,
    (∀ svc, Storage.Represents (root svc) (s svc) (held svc)) ∧
      ∀ i obj, f.dObj.ssObj[i]? = some obj → held obj.svc obj.oid = some (objs i)

/-- A request changes no object but its own. -/
theorem objectStep_of_ne (objs : Storage.Objects) (env : Env Mac)
    {request : DataRequest Mac} {oid : Oid} (h : oid ≠ (objOf request).oid) :
    (Storage.objectStep objs (env, request)).2 oid = objs oid := by
  cases request with
  | create obj cap =>
      have hne : oid ≠ obj.oid := h
      simp only [Storage.objectStep]
      split <;> simp [hne]
  | read obj off len cap =>
      simp only [Storage.objectStep]
      split <;> rfl
  | write obj off data cap =>
      have hne : oid ≠ obj.oid := h
      simp only [Storage.objectStep]
      split <;> simp [hne]

section Step

variable {f : StripedFile} {root : Service → Storage.Path} {s : Servers} {objs : Objects}

/-- A server that takes a request is the only one to change. -/
theorem represents_update {held : Service → Storage.Objects}
    (hroot : ∀ svc, Untruncated (root svc))
    (h : ∀ svc, Storage.Represents (root svc) (s svc) (held svc)) (svc : Service)
    {q : Env Mac × DataRequest Mac} (hq : Storage.Succeeds q) (svc' : Service) :
    Storage.Represents (root svc')
      (Function.update s svc
        (Storage.step (root svc) (s svc) (q.1, q.2.toRequest)) svc')
      (Function.update held svc (Storage.objectStep (held svc) q).2 svc') := by
  rcases eq_or_ne svc' svc with rfl | hne
  · simpa using (Storage.represents_step (hroot svc') (h svc') hq).2
  · simpa [hne] using h svc'

/-- A request about another object leaves the file as it is. -/
theorem Stored.other (h : Stored f root s objs) (hroot : ∀ svc, Untruncated (root svc))
    {svc : Service} {env : Env Mac} {request : DataRequest Mac}
    (hok : Storage.Succeeds (env, request))
    (hother : ∀ obj ∈ f.dObj.ssObj, obj.svc = svc → obj.oid ≠ (objOf request).oid) :
    Stored f root (Function.update s svc
      (Storage.step (root svc) (s svc) (env, request.toRequest))) objs := by
  obtain ⟨held, hrep, hobjs⟩ := h
  refine ⟨_, represents_update hroot hrep svc hok, fun i obj hi => ?_⟩
  rcases eq_or_ne obj.svc svc with heq | hne
  · have hoid := hother obj (List.mem_of_getElem? hi) heq
    rw [heq, Function.update_self, objectStep_of_ne _ _ hoid, ← heq]
    exact hobjs i obj hi
  · rw [Function.update_of_ne hne]
    exact hobjs i obj hi

/-- A write of the client changes the object of its segment. -/
theorem Stored.put (h : Stored f root s objs) (hroot : ∀ svc, Untruncated (root svc))
    (hplaced : Placed f) {buf : List UInt8} {cap : Cap Mac} {env : Env Mac} {seg : Segment}
    {obj : Obj} (hobj : f.dObj.ssObj[seg.store]? = some obj)
    (hok : Storage.Succeeds (env, LioOp.w.request buf cap obj seg))
    (hget : env.getData = none)
    (hcap : Storage.ssVerifyCap env cap containerWrite = .ok ()) :
    Stored f root (Function.update s obj.svc (Storage.step (root obj.svc) (s obj.svc)
      (env, (LioOp.w.request buf cap obj seg).toRequest))) (Move.put 0 buf objs seg) := by
  obtain ⟨held, hrep, hobjs⟩ := h
  refine ⟨_, represents_update hroot hrep obj.svc hok, fun i obj' hi => ?_⟩
  have hstep : (Storage.objectStep (held obj.svc)
      (env, LioOp.w.request buf cap obj seg)).2 =
      Function.update (held obj.svc) obj.oid (some (Image.write 0 (objs seg.store) seg.off
        (Image.read buf seg.buf seg.count))) := by
    simp [LioOp.request, Storage.objectStep, hobjs seg.store obj hobj, hcap, hget]
  rw [hstep, Move.put]
  rcases eq_or_ne i seg.store with rfl | hne
  · obtain rfl := Option.some.inj (hi.symm.trans hobj)
    simp
  · -- Another object of the file is on another server, or has another id there.
    have hapart : (obj'.svc, obj'.oid) ≠ (obj.svc, obj.oid) := by
      intro heq
      apply hne
      have hlt := (List.getElem?_eq_some_iff.mp hi).1
      refine (List.getElem?_inj (by simpa using hlt) hplaced).mp ?_
      rw [List.getElem?_map, List.getElem?_map, hi, hobj, Option.map_some, Option.map_some,
        heq]
    rw [Function.update_of_ne hne]
    rcases eq_or_ne obj'.svc obj.svc with hsvc | hsvc
    · have hoid : obj'.oid ≠ obj.oid := fun hoid => hapart (Prod.ext hsvc hoid)
      rw [hsvc, Function.update_self, Function.update_of_ne hoid, ← hsvc]
      exact hobjs i obj' hi
    · rw [Function.update_of_ne hsvc]
      exact hobjs i obj' hi

/-- A read of the client gets the bytes of the object, and changes nothing. -/
theorem Stored.fetch (h : Stored f root s objs) (hroot : ∀ svc, Untruncated (root svc))
    (buf : List UInt8) {cap : Cap Mac} {env : Env Mac} {seg : Segment} {obj : Obj}
    (hobj : f.dObj.ssObj[seg.store]? = some obj)
    (hok : Storage.Succeeds (env, LioOp.r.request buf cap obj seg))
    (hput : env.putData = none)
    (hcap : Storage.ssVerifyCap env cap containerRead = .ok ()) :
    (∃ n, (Storage.handle env (root obj.svc)
        (LioOp.r.request buf cap obj seg).toRequest).outcome (s obj.svc).store =
          .ok (.read n (Image.read (objs seg.store) seg.off seg.count))) ∧
      Stored f root (Function.update s obj.svc (Storage.step (root obj.svc) (s obj.svc)
        (env, (LioOp.r.request buf cap obj seg).toRequest))) objs := by
  obtain ⟨held, hrep, hobjs⟩ := h
  have hstep : Storage.objectStep (held obj.svc) (env, LioOp.r.request buf cap obj seg) =
      (Storage.readAnswer env (Image.read (objs seg.store) seg.off seg.count),
        held obj.svc) := by
    simp [LioOp.request, Storage.objectStep, hobjs seg.store obj hobj, hcap]
  refine ⟨?_, _, represents_update hroot hrep obj.svc hok, ?_⟩
  · rw [(Storage.represents_step (hroot obj.svc) (hrep obj.svc) hok).1, hstep,
      Storage.readAnswer]
    split
    · next hnil => exact ⟨0, by rw [hnil]⟩
    · rw [hput]
      exact ⟨_, rfl⟩
  · rw [hstep, Function.update_eq_self]
    exact hobjs

/-- A segment that is empty has nothing to read or write. -/
theorem Stored.empty (h : Stored f root s objs) (hroot : ∀ svc, Untruncated (root svc))
    (op : LioOp) (buf : List UInt8) (cap : Cap Mac) {env : Env Mac} {seg : Segment}
    (obj : Obj) (hseg : seg.count = 0)
    (hok : Storage.Succeeds (env, op.request buf cap obj seg)) :
    (∀ n data, (Storage.handle env (root obj.svc)
        (op.request buf cap obj seg).toRequest).outcome (s obj.svc).store =
          .ok (.read n data) → data = []) ∧
      Stored f root (Function.update s obj.svc (Storage.step (root obj.svc) (s obj.svc)
        (env, (op.request buf cap obj seg).toRequest))) objs := by
  obtain ⟨held, hrep, hobjs⟩ := h
  have hsame : (Storage.objectStep (held obj.svc) (env, op.request buf cap obj seg)).2 =
        held obj.svc ∧
      ∀ n data, (Storage.objectStep (held obj.svc) (env, op.request buf cap obj seg)).1 =
        .ok (.read n data) → data = [] := by
    cases op with
    | r =>
        simp only [LioOp.request, Storage.objectStep, hseg, Image.read, List.take_zero]
        split
        · simp
        · simp
        · refine ⟨rfl, fun n data hdata => ?_⟩
          simp only [Storage.readAnswer, if_true, Except.ok.injEq,
            Storage.Result.read.injEq] at hdata
          exact hdata.2.symm
    | w =>
        simp only [LioOp.request, Storage.objectStep, hseg, Image.read, List.take_zero]
        split
        · simp
        · simp
        · simp
        · next c _ hc _ _ =>
            rw [write_nil, ← hc, Function.update_eq_self]
            simp
  refine ⟨?_, _, represents_update hroot hrep obj.svc hok, ?_⟩
  · rw [(Storage.represents_step (hroot obj.svc) (hrep obj.svc) hok).1]
    exact hsame.2
  · rw [hsame.1, Function.update_eq_self]
    exact hobjs

end Step

/-! ### Rounds -/

/-- The segments that `sso_io` submits are about objects of the file. -/
theorem Transfer.Cuts.store_lt {f : StripedFile} {op : LioOp} {t : Transfer}
    (h : t.Cuts f op) {seg : Segment} (hseg : seg ∈ t.segments f op) (hpos : 0 < seg.count) :
    seg.store < f.dObj.ssObj.length := by
  obtain ⟨segs, hperm, hcut⟩ := h
  have hcell : ((seg.store, seg.off + 0), seg.buf + 0) ∈ segs.flatMap Move.cells :=
    List.mem_flatMap.mpr ⟨seg, hperm.mem_iff.mp hseg, Move.mem_cells.mpr ⟨0, hpos, rfl, rfl⟩⟩
  rw [hcut.cells] at hcell
  obtain ⟨j, -, hp, -⟩ := f.layout.mem_places.mp hcell
  have hlt := f.layout.locate_fst_lt (t.off + j)
  rw [← hp] at hlt
  exact hlt

theorem Transfer.Cuts.count_le {f : StripedFile} {op : LioOp} {t : Transfer}
    (h : t.Cuts f op) {seg : Segment} (hseg : seg ∈ t.segments f op) :
    seg.count ≤ t.buf.length := by
  obtain ⟨segs, hperm, hcut⟩ := h
  have hbuf := hcut.buffer seg (hperm.mem_iff.mp hseg)
  omega

namespace Round

variable {f : StripedFile} {op : LioOp} {r : Round Mac} {root : Service → Storage.Path}
  {s : Servers} {objs : Objects}

/-- What is known of a request in a round. -/
def Good (f : StripedFile) (op : LioOp) (r : Round Mac) : Taken Mac → Prop
  | .ours seg env =>
      (0 < seg.count → seg.store < f.dObj.ssObj.length) ∧
        seg.count < 2147483648 ∧ (∀ n, env.outcome n = .ok) ∧ env.getData = none ∧
        env.putData = none ∧ Storage.ssVerifyCap env r.cap op.containerOp = .ok ()
  | .other svc env request =>
      Storage.Succeeds (env, request) ∧
        ∀ obj ∈ f.dObj.ssObj, obj.svc = svc → obj.oid ≠ (objOf request).oid

theorem Ok.good (h : r.Ok f op) (hcuts : r.transfer.Cuts f op) :
    ∀ e ∈ r.taken, r.Good f op e := by
  intro e he
  cases e with
  | ours seg env =>
      have hseg : seg ∈ r.transfer.segments f op := by
        rw [← h.segments]
        exact List.mem_filterMap.mpr ⟨_, he, rfl⟩
      have hle := hcuts.count_le hseg
      have hlen := h.transfer.2
      exact ⟨hcuts.store_lt hseg, by omega, h.ours seg env he⟩
  | other svc env request => exact h.other svc env request he

theorem succeeds_request {buf : List UInt8} {cap : Cap Mac} {env : Env Mac} {obj : Obj}
    {seg : Segment} (hlen : seg.count < 2147483648) (hok : ∀ n, env.outcome n = .ok) :
    Storage.Succeeds (env, op.request buf cap obj seg) := by
  refine ⟨hok, ?_⟩
  cases op with
  | r => exact hlen
  | w =>
      have hle := length_read buf seg.buf seg.count
      simp only [LioOp.request, DataRequest.length]
      omega

theorem getElem?_objAt {seg : Segment} (h : seg.store < f.dObj.ssObj.length) :
    f.dObj.ssObj[seg.store]? = some (objAt f seg) := by
  rw [List.getElem?_eq_getElem h, objAt, List.getD_eq_getElem _ _ h]

theorem step_write (hroot : ∀ svc, Untruncated (root svc)) (hplaced : Placed f)
    (h : Stored f root s objs) (buf : List UInt8) {seg : Segment} {env : Env Mac}
    (hgood : r.Good f .w (.ours seg env)) :
    Stored f root (r.step f .w root (s, buf) (.ours seg env)).1
      (Move.put 0 r.transfer.buf objs seg) := by
  obtain ⟨hstore, hlen, hok, hget, -, hcap⟩ := hgood
  rcases Nat.eq_zero_or_pos seg.count with hzero | hpos
  · have hsame : Move.put 0 r.transfer.buf objs seg = objs := by
      rw [Move.put, hzero]
      simp [Image.read]
    rw [hsame]
    exact (h.empty hroot .w r.transfer.buf r.cap (objAt f seg) hzero
      (succeeds_request hlen hok)).2
  · exact h.put hroot hplaced (getElem?_objAt (hstore hpos)) (succeeds_request hlen hok)
      hget hcap

theorem step_read (hroot : ∀ svc, Untruncated (root svc)) (h : Stored f root s objs)
    (buf : List UInt8) {seg : Segment} {env : Env Mac}
    (hgood : r.Good f .r (.ours seg env)) :
    (r.step f .r root (s, buf) (.ours seg env)).2 = Move.fetch 0 objs buf seg ∧
      Stored f root (r.step f .r root (s, buf) (.ours seg env)).1 objs := by
  obtain ⟨hstore, hlen, hok, -, hput, hcap⟩ := hgood
  rcases Nat.eq_zero_or_pos seg.count with hzero | hpos
  · obtain ⟨hanswer, hstored⟩ := h.empty hroot .r r.transfer.buf r.cap
      (objAt f seg) hzero (succeeds_request hlen hok)
    refine ⟨?_, hstored⟩
    have hsame : Move.fetch 0 objs buf seg = buf := by
      simp [Move.fetch, hzero, Image.read]
    rw [hsame]
    simp only [step, sent, Taken.seg]
    split
    · next seg' n data hseg hdata =>
        rw [hanswer n data hdata, write_nil]
    · rfl
  · obtain ⟨⟨n, hanswer⟩, hstored⟩ := h.fetch hroot r.transfer.buf
      (getElem?_objAt (hstore hpos)) (succeeds_request hlen hok) hput hcap
    refine ⟨?_, hstored⟩
    simp only [step, sent, Taken.seg, hanswer]
    rfl

/-- The writes of a round put their segments into the objects of the file. -/
theorem stored_exec_write (hroot : ∀ svc, Untruncated (root svc)) (hplaced : Placed f)
    (h : Stored f root s objs) (buf : List UInt8) {taken : List (Taken Mac)}
    (htaken : ∀ e ∈ taken, r.Good f .w e) :
    Stored f root (Run.exec (r.step f .w root) (s, buf) taken).1
      ((taken.filterMap Taken.seg).foldl (Move.put 0 r.transfer.buf) objs) := by
  -- Each request of the client moves the objects one segment on.
  induction taken generalizing s objs buf with
  | nil => exact h
  | cons e taken ih =>
      obtain ⟨he, hrest⟩ := List.forall_mem_cons.mp htaken
      cases e with
      | other svc env request => exact ih (h.other hroot he.1 he.2) _ hrest
      | ours seg env => exact ih (step_write hroot hplaced h buf he) _ hrest

/-- The reads of a round fetch their segments from the objects of the file. -/
theorem exec_read (hroot : ∀ svc, Untruncated (root svc))
    (h : Stored f root s objs) (buf : List UInt8) {taken : List (Taken Mac)}
    (htaken : ∀ e ∈ taken, r.Good f .r e) :
    (Run.exec (r.step f .r root) (s, buf) taken).2 =
      (taken.filterMap Taken.seg).foldl (Move.fetch 0 objs) buf := by
  -- The objects stay as they are, and the buffer fills up.
  induction taken generalizing s buf with
  | nil => rfl
  | cons e taken ih =>
      obtain ⟨he, hrest⟩ := List.forall_mem_cons.mp htaken
      cases e with
      | other svc env request => exact ih (h.other hroot he.1 he.2) _ hrest
      | ours seg env =>
          obtain ⟨hbuf, hstored⟩ := step_read hroot h buf he
          have hrun := ih hstored (r.step f .r root (s, buf) (.ours seg env)).2 hrest
          change (Run.exec _ (r.step f .r root (s, buf) (.ours seg env)) taken).2 =
            (taken.filterMap Taken.seg).foldl _ (Move.fetch 0 objs buf seg)
          rw [← hbuf]
          exact hrun

/-- A round of writing is the transfer's write. -/
theorem stored_write (hroot : ∀ svc, Untruncated (root svc)) (hplaced : Placed f)
    (h : Stored f root s objs) (hr : r.Ok f .w) :
    Stored f root (r.run f .w root s).1 (r.transfer.write f objs) := by
  have hstored := stored_exec_write hroot hplaced h r.transfer.buf
    (hr.good (hr.transfer.cuts_write f))
  rw [hr.segments] at hstored
  exact hstored

/-- A round of reading is the transfer's read. -/
theorem run_read (hroot : ∀ svc, Untruncated (root svc)) (h : Stored f root s objs)
    (hr : r.Ok f .r) (hcuts : r.transfer.Cuts f .r) :
    (r.run f .r root s).2 = r.transfer.read f objs := by
  have hread := exec_read hroot h r.transfer.buf (hr.good hcuts)
  rw [hr.segments] at hread
  exact hread

theorem stored_writes (hroot : ∀ svc, Untruncated (root svc)) (hplaced : Placed f)
    (h : Stored f root s objs) {rounds : List (Round Mac)}
    (hrounds : ∀ r ∈ rounds, r.Ok f .w) :
    Stored f root (Run.exec (fun s r => (r.run f .w root s).1) s rounds)
      (Run.exec (fun objs t => t.write f objs) objs (rounds.map Round.transfer)) := by
  induction rounds generalizing s objs with
  | nil => exact h
  | cons r rounds ih =>
      obtain ⟨hr, hrest⟩ := List.forall_mem_cons.mp hrounds
      exact ih (stored_write hroot hplaced h hr) hrest

end Round

/-- The ids of `gen_unique_oid` do so, where they are different. -/
theorem placed_of_draws {f : StripedFile} {draws : List Naming.OidDraw}
    (hoids : f.dObj.ssObj.map (fun obj => some obj.oid) = draws.map Naming.OidDraw.oid)
    (hkeys : (draws.map Naming.OidDraw.key).Nodup) : Placed f := by
  rw [← Naming.nodup_map_oid, ← hoids] at hkeys
  have hmap : f.dObj.ssObj.map (fun obj => some obj.oid) =
      (f.dObj.ssObj.map fun obj => (obj.svc, obj.oid)).map fun p => some p.2 := by
    rw [List.map_map]
    rfl
  rw [hmap] at hkeys
  exact hkeys.of_map _

/-- The servers after the requests that each has taken since its start. -/
def serversAfter (root : Service → Storage.Path)
    (runs : Service → List (Env Mac × DataRequest Mac)) : Servers := fun svc =>
  Run.exec (Storage.step (root svc)) Server.init (Storage.serverRun (runs svc))

theorem stored_serversAfter {f : StripedFile} {root : Service → Storage.Path}
    (hroot : ∀ svc, Untruncated (root svc))
    {runs : Service → List (Env Mac × DataRequest Mac)}
    (hruns : ∀ svc, ∀ q ∈ runs svc, Storage.Succeeds q)
    (hcreated : ∀ obj ∈ f.dObj.ssObj,
      Storage.objectsAfter (runs obj.svc) obj.oid ≠ none) :
    ∃ objs, Stored f root (serversAfter root runs) objs := by
  refine ⟨fun i => (f.dObj.ssObj[i]?.bind fun obj =>
    Storage.objectsAfter (runs obj.svc) obj.oid).getD [], _,
    fun svc => Storage.represents_run (hroot svc) (Storage.represents_init (root svc))
      (runs svc) (hruns svc), fun i obj hi => ?_⟩
  have hne := hcreated obj (List.mem_of_getElem? hi)
  simp only [hi, Option.bind_some]
  cases hdata : Storage.objectsAfter (runs obj.svc) obj.oid with
  | none => exact absurd hdata hne
  | some data => exact hdata

/-- A file in chunks of four bytes, over an object on each of two servers. -/
def twoServers : StripedFile where
  cid := 0
  dObj := ⟨4, [Obj.zero, { Obj.zero with svc := { Service.zero with maxReqs := 1 } }]⟩
  chunk_pos := by decide
  count_pos := by decide
  cid_eq := by decide

theorem placed_twoServers : Placed twoServers := by
  show List.Nodup _
  decide

end Lwfs.Client
