import Lwfs.Storage.Requests

/-!
What the return codes of `ss_read`, `ss_write` and `ss_truncate` say.

A count of bytes, a boolean and a return code share one number on the way
from the calls of the host to the client. A read that could not be made ends
as a read of nothing, a seek that failed as a read of one byte, and the result
of a truncation is the wrong way round.
-/

namespace Lwfs.Storage

open SysLib Routine

variable {Mac : Type}

section Effects

variable (env : Env Mac) (root : Path)

/-- The steps before the seek hand over the element `a`, in the state `t`. -/
def HandsOver (canUse : Mode → Bool) (oid : Oid) (s : Store) (a : ℕ)
    (t : Store) : Prop :=
  ∃ u, openOid env root oid s = .ok (some a) u ∧
    reopen env root canUse oid a u = .ok true t

/-- The element has the descriptor `fd`, open for the file of the object, which
has the inode `inode`. -/
def OwnFd (oid : Oid) (a : ℕ) (t : Store) (fd : ℤ) (inode : ℕ) : Prop :=
  ∃ el f, t.heap.lookup a = some el ∧ el.fd = fd ∧
    t.files.fds.lookup fd = some f ∧ f.inode = inode ∧
    t.files.names.lookup (fileName shortPath root oid) = some inode

/-- The host has moved to the offset and read `bytes` of the object. -/
def HostReads (oid : Oid) (offset len : ℕ) (s : Store) (bytes : List UInt8) :
    Prop :=
  ∃ a t fd inode, HandsOver env root canReadFile oid s a t ∧
    OwnFd root oid a t fd inode ∧ env.outcome t.calls ≠ .fail ∧
    (0 < len → env.outcome (t.calls + 1) ≠ .fail) ∧
    bytes = Image.read (s.files.contents inode) offset
      ((env.outcome (t.calls + 1)).limit len)

/-- The bytes that were read are put to the client. The count is passed on as
32 bits, and one that looks like `-1` is not. -/
def Sent (bytes : List UInt8) : Prop :=
  bytes = [] ∨
    env.putData = none ∧ bytes.length % 4294967296 ≠ 4294967295

/-- The host has moved to the offset and written all of the data to the file
of the object. -/
def HostWrites (oid : Oid) (data : List UInt8) (s : Store) (inode : ℕ) : Prop :=
  ∃ a t fd, HandsOver env root canWriteFile oid s a t ∧
    OwnFd root oid a t fd inode ∧ env.outcome t.calls ≠ .fail ∧
    (data ≠ [] → env.outcome (t.calls + 1) ≠ .fail ∧
      data.length ≤ (env.outcome (t.calls + 1)).limit data.length)

/-- The host has truncated the file of the object. -/
def HostTruncates (oid : Oid) (s : Store) (inode : ℕ) : Prop :=
  ∃ a t fd, openOid env root oid s = .ok (some a) t ∧
    OwnFd root oid a t fd inode ∧ env.outcome t.calls ≠ .fail

/-- The bytes of a file that is cut or lengthened to a size. -/
def resized (bytes : List UInt8) (size : ℕ) : List UInt8 :=
  bytes.take size ++ List.replicate (size - (bytes.take size).length) 0

/-- The requested effect has taken place, and this is the result it has. -/
def Effect (s : Store) : Request Mac → Result → Prop
  | .read obj offset len cap, r =>
      Admitted env (.read obj offset len cap) s ∧
        ∃ bytes, HostReads env root obj.oid offset len s bytes ∧
          Sent env bytes ∧ r = .read bytes.length bytes
  | .write obj offset data cap, r =>
      Admitted env (.write obj offset data cap) s ∧ env.getData = none ∧
        r = .done ∧ ∃ inode, HostWrites env root obj.oid data s inode ∧
          ((handle env root (.write obj offset data cap)).final
              s).files.contents inode =
            Image.write 0 (s.files.contents inode) offset data
  | .truncate obj size cap, r =>
      Admitted env (.truncate obj size cap) s ∧ r = .done ∧
        ∃ inode, HostTruncates env root obj.oid s inode ∧
          ((handle env root (.truncate obj size cap)).final
              s).files.contents inode = resized (s.files.contents inode) size
  | _, _ => False

/-- The requests whose outcome is that of the host's reads and writes. -/
def Request.isIo : Request Mac → Bool
  | .read _ _ _ _ => true
  | .write _ _ _ _ => true
  | .truncate _ _ _ => true
  | _ => false

/-- The request ends with `LWFS_OK` and a result exactly if the effect with
this result has taken place. -/
def Faithful (s : Store) (req : Request Mac) : Prop :=
  ∀ r, (handle env root req).outcome s = .ok r ↔ Effect env root s req r

/-- The host moves to the offset. -/
def Seeks (oid : Oid) (a : ℕ) (t : Store) : Prop :=
  (∃ fd inode, OwnFd root oid a t fd inode) ∧ env.outcome t.calls ≠ .fail

/-- What goes wrong in a request that has passed its checks. -/
def Misreports (s : Store) : Request Mac → Prop
  | .read obj offset len _ =>
      (∃ t, openOid env root obj.oid s = .ok none t) ∨
      (∃ a u t, openOid env root obj.oid s = .ok (some a) u ∧
        reopen env root canReadFile obj.oid a u = .ok false t) ∨
      (∃ a t, HandsOver env root canReadFile obj.oid s a t ∧
        ¬ Seeks env root obj.oid a t ∧ env.putData = none) ∨
      (∃ a t, HandsOver env root canReadFile obj.oid s a t ∧
        Seeks env root obj.oid a t ∧ 0 < len ∧
        env.outcome (t.calls + 1) = .fail) ∨
      ∃ bytes, HostReads env root obj.oid offset len s bytes ∧
        4294967296 ≤ bytes.length ∧ bytes.length % 4294967296 ≠ 4294967295 ∧
        (env.putData = none ∨ bytes.length % 4294967296 = 0)
  | .write obj _ data _ =>
      env.getData = none ∧ data = [] ∧
        ((∃ a u t, openOid env root obj.oid s = .ok (some a) u ∧
          reopen env root canWriteFile obj.oid a u = .ok false t) ∨
        ∃ a t, HandsOver env root canWriteFile obj.oid s a t ∧
          ¬ Seeks env root obj.oid a t)
  | .truncate obj _ _ =>
      ∃ found t, openOid env root obj.oid s = .ok found t
  | _ => False

end Effects

/-! ### What the calls do -/

section Calls

variable {env : Env Mac} {root : Path} {oid : Oid} {s t : Store} {a : ℕ}
  {canUse : Mode → Bool}

theorem HandsOver.unique {b : ℕ} {u : Store}
    (h : HandsOver env root canUse oid s a t)
    (h' : HandsOver env root canUse oid s b u) : a = b ∧ t = u := by
  obtain ⟨v, hopen, hreopen⟩ := h
  obtain ⟨v', hopen', hreopen'⟩ := h'
  rw [hopen] at hopen'
  obtain ⟨hab, rfl⟩ := EStateM.Result.ok.inj hopen'
  obtain rfl := Option.some.inj hab
  rw [hreopen] at hreopen'
  exact ⟨rfl, (EStateM.Result.ok.inj hreopen').2⟩

/-- A file that is not opened is not handed over. -/
theorem HandsOver.opened {b : ℕ} {u v : Store} {opened : Bool}
    (h : HandsOver env root canUse oid s a t)
    (hopen : openOid env root oid s = .ok (some b) u)
    (hreopen : reopen env root canUse oid b u = .ok opened v) : opened = true := by
  obtain ⟨u', hopen', hreopen'⟩ := h
  rw [hopen] at hopen'
  obtain ⟨hab, rfl⟩ := EStateM.Result.ok.inj hopen'
  obtain rfl := Option.some.inj hab
  rw [hreopen] at hreopen'
  exact (EStateM.Result.ok.inj hreopen').1

/-- The element that is handed over has no descriptor, or that of the file of
its object. -/
theorem own_or_closed (h : Held root t) (ha : (oid, a) ∈ t.oidHash) :
    ∃ el, t.heap.lookup a = some el ∧
      ((∃ f, t.files.fds.lookup el.fd = some f ∧
          OwnFd root oid a t el.fd f.inode) ∨
        t.files.fds.lookup el.fd = none ∧
          ∀ fd inode, ¬ OwnFd root oid a t fd inode) := by
  obtain ⟨el, hel, hid⟩ := h.elements.element _ ha
  have hid' : el.id = oid := hid
  refine ⟨el, hel, ?_⟩
  cases hf : t.files.fds.lookup el.fd with
  | some f => exact .inl ⟨f, rfl, el, f, hel, rfl, hf, rfl,
      hid' ▸ h.own a el f hel hf⟩
  | none =>
      refine .inr ⟨rfl, ?_⟩
      rintro fd inode ⟨el', f, hel', rfl, hf', -⟩
      obtain rfl : el = el' := Option.some.inj (hel.symm.trans hel')
      rw [hf] at hf'
      cases hf'

theorem held_openOid_ok (hroot : Untruncated root) (h : Held root s)
    (hopen : openOid env root oid s = .ok (some a) t) :
    Held root t ∧ (oid, a) ∈ t.oidHash ∧ SameData s t := by
  have hheld : Held root ((openOid env root oid).final s) :=
    held_openOid hroot h oid
  have hdata : Untouched s ((openOid env root oid).final s) :=
    (passive_untouched env).openOid oid s
  rw [final_of_ok hopen] at hheld hdata
  obtain ⟨el, hsearch, -, -⟩ := openOid_eq_some h.elements hopen
  exact ⟨hheld, hdata.data.oidHash ▸ (h.elements.search hsearch).1, hdata.data⟩

theorem held_handsOver (hroot : Untruncated root) (h : Held root s)
    (hover : HandsOver env root canUse oid s a t) :
    Held root t ∧ (oid, a) ∈ t.oidHash ∧ SameData s t := by
  obtain ⟨u, hopen, hreopen⟩ := hover
  obtain ⟨hu, ha, hsu⟩ := held_openOid_ok hroot h hopen
  have hheld : Held root ((reopen env root canUse oid a).final u) :=
    held_reopen hu canUse ha
  have hdata : Untouched u ((reopen env root canUse oid a).final u) :=
    (passive_untouched env).reopen canUse oid a u
  rw [final_of_ok hreopen] at hheld hdata
  exact ⟨hheld, hdata.data.oidHash ▸ ha, hsu.trans hdata.data⟩

theorem sysLseek_of_open {fd : ℤ} {f : OpenFile}
    (hf : t.files.fds.lookup fd = some f) (hok : env.outcome t.calls ≠ .fail)
    (pos : ℕ) : sys env (fun o fs => fs.sysLseek o fd pos) t =
      .ok true (t.seek fd f pos) := by
  simp only [sys, Files.sysLseek, hf, if_neg hok]
  rfl

theorem sysLseek_of_refused {fd : ℤ}
    (h : t.files.fds.lookup fd = none ∨ env.outcome t.calls = .fail) (pos : ℕ) :
    sys env (fun o fs => fs.sysLseek o fd pos) t =
      .ok false { t with calls := t.calls + 1 } := by
  cases hf : t.files.fds.lookup fd with
  | none => simp only [sys, Files.sysLseek, hf]
  | some f =>
      have hfail : env.outcome t.calls = .fail := h.resolve_left (by simp [hf])
      simp only [sys, Files.sysLseek, hf, if_pos hfail]

end Calls

/-! ### Reading -/

section Read

variable {env : Env Mac} {root : Path} {s t : Store} {a : ℕ} {oid : Oid}
  {el : OidEl} {dest : List UInt8}

theorem sysioObjRead_of_handsOver
    (hover : HandsOver env root canReadFile oid s a t)
    (hel : t.heap.lookup a = some el) (off : ℕ) (dest : List UInt8) :
    sysioObjRead env root oid off dest s =
      (sys env (fun o fs => fs.sysLseek o el.fd off) >>= fun sought =>
        if sought = false then pure (1, dest)
        else if dest = [] then pure (0, dest)
        else sys env (fun o fs => fs.sysRead o el.fd dest.length) >>= fun data =>
          data.elim (pure (0, dest)) fun data =>
            pure (data.length, Image.write 0 dest 0 data)) t := by
  obtain ⟨u, hopen, hreopen⟩ := hover
  rw [sysioObjRead, bind_of_ok hopen]
  simp only
  rw [bind_of_ok hreopen, if_neg (by decide), bind_of_ok (oidEl_ok hel)]
  refine congrFun (bind_congr fun sought => ?_) t
  split_ifs
  · rfl
  · rfl
  · refine bind_congr fun data => ?_
    cases data <;> rfl

/-- A seek that fails ends the read with the value of `LWFS_ERR`. -/
theorem sysioObjRead_of_refused
    (hover : HandsOver env root canReadFile oid s a t)
    (hel : t.heap.lookup a = some el)
    (h : t.files.fds.lookup el.fd = none ∨ env.outcome t.calls = .fail)
    (off : ℕ) : (sysioObjRead env root oid off dest).outcome s =
      .ok (1, dest) := by
  have hrun := sysioObjRead_of_handsOver hover hel off dest
  rw [bind_of_ok (sysLseek_of_refused h off)] at hrun
  exact outcome_of_ok hrun

theorem limit_zero (o : Outcome) : o.limit 0 = 0 := by
  cases o <;> simp [Outcome.limit]

theorem sysRead_of_open {fd : ℤ} {f : OpenFile}
    (hf : t.files.fds.lookup fd = some f) (hok : env.outcome t.calls ≠ .fail)
    (len : ℕ) : ∃ u, sys env (fun o fs => fs.sysRead o fd len) t =
      .ok (some (Image.read (t.files.contents f.inode) f.pos
        ((env.outcome t.calls).limit len))) u := by
  simp only [sys, Files.sysRead, hf, if_neg hok]
  exact ⟨_, rfl⟩

theorem sysioObjRead_of_seeks
    (hover : HandsOver env root canReadFile oid s a t)
    (hel : t.heap.lookup a = some el) {f : OpenFile}
    (hf : t.files.fds.lookup el.fd = some f) (hok : env.outcome t.calls ≠ .fail)
    (off : ℕ) (dest : List UInt8) :
    (sysioObjRead env root oid off dest).outcome s =
      if dest = [] ∨ env.outcome (t.calls + 1) = .fail then .ok (0, dest)
      else
        let data := Image.read (t.files.contents f.inode) off
          ((env.outcome (t.calls + 1)).limit dest.length)
        .ok (data.length, Image.write 0 dest 0 data) := by
  have hrun := sysioObjRead_of_handsOver hover hel off dest
  let v := t.seek el.fd f off
  have hv : v.files.fds.lookup el.fd = some { f with pos := off } :=
    AList.lookup_insert _
  rw [bind_of_ok (sysLseek_of_open hf hok off), if_neg (by decide)] at hrun
  by_cases hdest : dest = []
  · rw [if_pos hdest] at hrun
    rw [if_pos (.inl hdest)]
    exact outcome_of_ok hrun
  rw [if_neg hdest] at hrun
  by_cases hread : env.outcome (t.calls + 1) = .fail
  · have hfail : env.outcome v.calls = .fail := hread
    have hsys : sys env (fun o fs => fs.sysRead o el.fd dest.length) v =
        .ok none { v with calls := v.calls + 1 } := by
      simp only [sys, Files.sysRead, hv, if_pos hfail]
    rw [bind_of_ok hsys] at hrun
    rw [if_pos (.inr hread)]
    exact outcome_of_ok hrun
  · obtain ⟨u, hsys⟩ := sysRead_of_open hv hread dest.length
    rw [bind_of_ok hsys] at hrun
    rw [if_neg (not_or.mpr ⟨hdest, hread⟩)]
    exact outcome_of_ok hrun

/-- What `ss_read` makes of the count and the buffer. -/
def readResult (env : Env Mac) (count : ℕ) (buf : List UInt8) :
    Except Fault Result :=
  if count % 4294967296 = 4294967295 then .error (.code .errStorage)
  else if count % 4294967296 = 0 then .ok (.read 0 [])
  else env.putData.elim
    (.ok (.read (count % 4294967296) (buf.take (count % 4294967296))))
    fun rc => .error (.code rc)

/-- The count and the bytes are passed on as they are unless there are `2^32`
of them. -/
theorem readResult_eq_ok_iff (buf data : List UInt8) :
    (∀ r, readResult env data.length (Image.write 0 buf 0 data) = .ok r ↔
      Sent env data ∧ r = .read data.length data) ↔
      ¬ (4294967296 ≤ data.length ∧
        data.length % 4294967296 ≠ 4294967295 ∧
        (env.putData = none ∨ data.length % 4294967296 = 0)) := by
  have hnil : data = [] ↔ data.length = 0 := List.length_eq_zero_iff.symm
  rw [readResult]
  split_ifs with hall hzero
  · refine iff_of_true (fun r => iff_of_false nofun ?_) fun hbad => hbad.2.1 hall
    rintro ⟨hempty | ⟨-, hno⟩, -⟩
    · rw [hnil] at hempty
      omega
    · exact hno hall
  · by_cases hempty : data = []
    · refine iff_of_true (fun r => ?_) fun hbad => ?_
      · subst hempty
        rw [Except.ok.injEq, eq_comm]
        exact (and_iff_right (.inl rfl)).symm
      · rw [hnil] at hempty
        omega
    · refine iff_of_false (fun hiff => ?_) ?_
      · have hread := ((hiff _).mp rfl).2
        rw [Result.read.injEq] at hread
        exact hempty (hnil.mpr hread.1.symm)
      · rw [hnil] at hempty
        exact not_not.mpr ⟨by omega, hall, .inr hzero⟩
  · have hempty : data ≠ [] := by
      rw [Ne, hnil]
      omega
    cases hput : env.putData with
    | some rc =>
        refine iff_of_true (fun r => iff_of_false nofun ?_) ?_
        · rintro ⟨hnone | ⟨hnone, -⟩, -⟩
          · exact hempty hnone
          · rw [hput] at hnone
            cases hnone
        · rintro ⟨-, -, hnone | hmod⟩
          · cases hnone
          · exact hzero hmod
    | none =>
        by_cases hlen : data.length < 4294967296
        · refine iff_of_true (fun r => ?_) fun hbad => by omega
          rw [Nat.mod_eq_of_lt hlen] at hall ⊢
          rw [take_write_zero]
          simp only [Option.elim_none, Except.ok.injEq]
          rw [and_iff_right (.inr ⟨hput, by rwa [Nat.mod_eq_of_lt hlen]⟩), eq_comm]
        · refine iff_of_false (fun hiff => ?_)
            (not_not.mpr ⟨by omega, hall, .inl rfl⟩)
          have hread := ((hiff _).mp rfl).2
          rw [Result.read.injEq] at hread
          have hlt := Nat.mod_lt data.length (by omega : 0 < 4294967296)
          omega

theorem outcome_readOp {obj : Obj} {off len count : ℕ} {buf : List UInt8}
    (h : (sysioObjRead env root obj.oid off
      ((List.range len).map env.malloc)).outcome s = .ok (count, buf)) :
    (readOp env root obj off len).outcome s = readResult env count buf := by
  have hrun := outcome_eq_ok.mp h
  simp only [outcome, readOp, bind_of_ok hrun, readResult]
  split_ifs with hall
  · rfl
  · rename_i hzero
    rw [sendData, if_pos hzero, hzero]
    rfl
  · rename_i hcount
    rw [sendData, if_neg hcount]
    cases env.putData <;> rfl

theorem outcome_readOp_error {obj : Obj} {off len : ℕ} {e : Fault}
    (h : (sysioObjRead env root obj.oid off
      ((List.range len).map env.malloc)).outcome s = .error e) :
    (readOp env root obj off len).outcome s = .error e := by
  exact outcome_of_error (bind_of_error (outcome_eq_error.mp h))

/-- Where the steps before the seek have handed over an element, the host
reads exactly if it seeks and reads. -/
theorem hostReads_iff {f : OpenFile}
    (hover : HandsOver env root canReadFile oid s a t)
    (hown : OwnFd root oid a t el.fd f.inode) {off len : ℕ}
    {bytes : List UInt8} :
    HostReads env root oid off len s bytes ↔ env.outcome t.calls ≠ .fail ∧
      (0 < len → env.outcome (t.calls + 1) ≠ .fail) ∧
      bytes = Image.read (s.files.contents f.inode) off
        ((env.outcome (t.calls + 1)).limit len) := by
  constructor
  · rintro ⟨b, u, fd, inode, hover', ⟨-, -, -, -, -, -, hname'⟩, hcond⟩
    obtain ⟨rfl, rfl⟩ := hover.unique hover'
    obtain ⟨-, -, -, -, -, -, hname⟩ := hown
    obtain rfl : f.inode = inode :=
      Option.some.inj (hname.symm.trans hname')
    exact hcond
  · exact fun hcond => ⟨a, t, el.fd, f.inode, hover, hown, hcond⟩

theorem not_hostReads {off len : ℕ} {bytes : List UInt8}
    (hno : ∀ a t, ¬ HandsOver env root canReadFile oid s a t) :
    ¬ HostReads env root oid off len s bytes := by
  rintro ⟨a, t, -, -, hover, -⟩
  exact hno a t hover

end Read

/-! ### Faithfulness -/

section Faithful

variable {env : Env Mac} {root : Path} {s t : Store} {req : Request Mac}
  {r : Result}

theorem faithful_of_error {e : Fault}
    (h : (handle env root req).outcome s = .error e)
    (hno : ∀ r, ¬ Effect env root s req r) : Faithful env root s req := by
  intro r
  rw [h]
  exact iff_of_false nofun (hno r)

theorem faithful_of_ok (h : (handle env root req).outcome s = .ok r)
    (hr : ∀ r', Effect env root s req r' ↔ r' = r) :
    Faithful env root s req := by
  intro r'
  rw [h, hr, Except.ok.injEq, eq_comm]

theorem not_faithful_of_ok (h : (handle env root req).outcome s = .ok r)
    (hno : ¬ Effect env root s req r) : ¬ Faithful env root s req :=
  fun hall => hno ((hall r).mp h)

theorem not_faithful_of_error {e : Fault}
    (h : (handle env root req).outcome s = .error e)
    (hr : Effect env root s req r) : ¬ Faithful env root s req := by
  intro hall
  have hok := (hall r).mpr hr
  rw [h] at hok
  cases hok

/-- A request that is refused has no effect. -/
theorem faithful_of_refused (h : ¬ Admitted env req s) :
    Faithful env root s req := by
  obtain ⟨e, herror⟩ := handle_of_not_admitted root h
  refine faithful_of_error (outcome_of_error herror) fun r heffect => h ?_
  cases req
  case read => exact heffect.1
  case write => exact heffect.1
  case truncate => exact heffect.1
  all_goals exact absurd heffect id

theorem outcome_of_admitted (h : Admitted env req s) :
    (handle env root req).outcome s = (operation env root req).outcome s := by
  simp only [outcome, handle_of_admitted h]

theorem not_effect_read {obj : Obj} {off len : ℕ} {cap : Cap Mac}
    (hno : ∀ bytes, ¬ HostReads env root obj.oid off len s bytes) (r : Result) :
    ¬ Effect env root s (.read obj off len cap) r := by
  rintro ⟨-, bytes, hreads, -⟩
  exact hno bytes hreads

/-- What goes wrong in a read for which no element is handed over. -/
theorem misreports_read_of_not_handsOver {obj : Obj} {off len : ℕ} {cap : Cap Mac}
    (hno : ∀ a t, ¬ HandsOver env root canReadFile obj.oid s a t) :
    Misreports env root s (.read obj off len cap) ↔
      (∃ t, openOid env root obj.oid s = .ok none t) ∨
      ∃ a u t, openOid env root obj.oid s = .ok (some a) u ∧
        reopen env root canReadFile obj.oid a u = .ok false t := by
  constructor
  · rintro (hnone | hclosed | ⟨a, t, hover, -⟩ | ⟨a, t, hover, -⟩ |
      ⟨bytes, hreads, -⟩)
    · exact .inl hnone
    · exact .inr hclosed
    · exact absurd hover (hno a t)
    · exact absurd hover (hno a t)
    · exact absurd hreads (not_hostReads hno)
  · rintro (hnone | hclosed)
    · exact .inl hnone
    · exact .inr (.inl hclosed)

/-- A read for which no element is handed over. -/
theorem read_faithful_of_not_handsOver {obj : Obj} {off len : ℕ} {cap : Cap Mac}
    (hadmitted : Admitted env (.read obj off len cap) s)
    (hno : ∀ a t, ¬ HandsOver env root canReadFile obj.oid s a t) :
    Faithful env root s (.read obj off len cap) ↔
      ¬ Misreports env root s (.read obj off len cap) := by
  let buf := (List.range len).map env.malloc
  have houtcome : (handle env root (.read obj off len cap)).outcome s =
      (readOp env root obj off len).outcome s := outcome_of_admitted hadmitted
  have heffect : ∀ r, ¬ Effect env root s (.read obj off len cap) r :=
    not_effect_read fun _ => not_hostReads hno
  have herror : ∀ e, (sysioObjRead env root obj.oid off buf).outcome s =
      .error e → Faithful env root s (.read obj off len cap) := fun e hread =>
    faithful_of_error (houtcome.trans (outcome_readOp_error hread)) heffect
  -- a read that returns zero is taken for a read of nothing
  have hzero : (sysioObjRead env root obj.oid off buf).outcome s = .ok (0, buf) →
      ¬ Faithful env root s (.read obj off len cap) := by
    intro hread
    have hresult : readResult env 0 buf = .ok (.read 0 []) := by
      simp [readResult]
    have hok := houtcome.trans ((outcome_readOp hread).trans hresult)
    exact not_faithful_of_ok hok (heffect _)
  rw [misreports_read_of_not_handsOver hno]
  cases hopen : openOid env root obj.oid s with
  | error e u =>
      have hread : (sysioObjRead env root obj.oid off buf).outcome s = .error e :=
        outcome_of_error (bind_of_error hopen)
      exact iff_of_true (herror e hread) (by simp)
  | ok found u =>
      cases found with
      | none =>
          have hrun : sysioObjRead env root obj.oid off buf s =
              .ok (0, buf) u := bind_of_ok hopen
          exact iff_of_false (hzero (outcome_of_ok hrun)) (by simp)
      | some a =>
          have hstart : sysioObjRead env root obj.oid off buf s = _ :=
            bind_of_ok hopen
          cases hreopen : reopen env root canReadFile obj.oid a u with
          | error e t =>
              have hrun := hstart.trans (bind_of_error hreopen)
              apply iff_of_true (herror e (outcome_of_error hrun))
              rintro (⟨v, hnone⟩ | ⟨b, v, w, hsome, hclosed⟩)
              · cases hnone
              · cases hsome
                rw [hreopen] at hclosed
                cases hclosed
          | ok opened t =>
              cases opened with
              | true => exact absurd ⟨u, hopen, hreopen⟩ (hno a t)
              | false =>
                  have hrun := hstart.trans (bind_of_ok hreopen)
                  apply iff_of_false (hzero (outcome_of_ok hrun))
                  exact not_not.mpr (.inr ⟨a, u, t, rfl, hreopen⟩)

/-- What goes wrong in a read for which an element is handed over. -/
theorem misreports_read_of_handsOver {obj : Obj} {off len : ℕ} {cap : Cap Mac}
    {a : ℕ} {t : Store} (hover : HandsOver env root canReadFile obj.oid s a t) :
    Misreports env root s (.read obj off len cap) ↔
      ¬ Seeks env root obj.oid a t ∧ env.putData = none ∨
      Seeks env root obj.oid a t ∧ 0 < len ∧ env.outcome (t.calls + 1) = .fail ∨
      ∃ bytes, HostReads env root obj.oid off len s bytes ∧
        4294967296 ≤ bytes.length ∧ bytes.length % 4294967296 ≠ 4294967295 ∧
        (env.putData = none ∨ bytes.length % 4294967296 = 0) := by
  constructor
  · rintro (⟨u, hopen⟩ | ⟨b, u, v, hopen, hreopen⟩ | ⟨b, v, hover', hcond⟩ |
      ⟨b, v, hover', hcond⟩ | hbytes)
    · obtain ⟨u', hopen', -⟩ := hover
      rw [hopen] at hopen'
      cases hopen'
    · cases hover.opened hopen hreopen
    · obtain ⟨rfl, rfl⟩ := hover.unique hover'
      exact .inl hcond
    · obtain ⟨rfl, rfl⟩ := hover.unique hover'
      exact .inr (.inl hcond)
    · exact .inr (.inr hbytes)
  · rintro (hcond | hcond | hbytes)
    · exact .inr (.inr (.inl ⟨a, t, hover, hcond⟩))
    · exact .inr (.inr (.inr (.inl ⟨a, t, hover, hcond⟩)))
    · exact .inr (.inr (.inr (.inr hbytes)))

/-- A read for which the host does not get to the offset. One byte of the buffer
is put to the client, as if it had been read. -/
theorem read_faithful_of_not_seeks {obj : Obj} {off len : ℕ} {cap : Cap Mac}
    (hadmitted : Admitted env (.read obj off len cap) s) {a : ℕ} {t : Store}
    (hover : HandsOver env root canReadFile obj.oid s a t) {el : OidEl}
    (hel : t.heap.lookup a = some el)
    (hrefused : t.files.fds.lookup el.fd = none ∨ env.outcome t.calls = .fail)
    (hseek : ¬ Seeks env root obj.oid a t) :
    Faithful env root s (.read obj off len cap) ↔
      ¬ Misreports env root s (.read obj off len cap) := by
  let buf := (List.range len).map env.malloc
  have houtcome : (handle env root (.read obj off len cap)).outcome s =
      (readOp env root obj off len).outcome s := outcome_of_admitted hadmitted
  have hread : (readOp env root obj off len).outcome s = readResult env 1 buf :=
    outcome_readOp (sysioObjRead_of_refused hover hel hrefused off)
  have hno : ∀ bytes, ¬ HostReads env root obj.oid off len s bytes := by
    rintro bytes ⟨b, v, fd, inode, hover', hown, hok, -⟩
    obtain ⟨rfl, rfl⟩ := hover.unique hover'
    exact hseek ⟨⟨fd, inode, hown⟩, hok⟩
  rw [misreports_read_of_handsOver hover]
  cases hput : env.putData with
  | none =>
      have hresult : readResult env 1 buf = .ok (.read 1 (buf.take 1)) := by
        simp [readResult, hput]
      have hok := houtcome.trans (hread.trans hresult)
      exact iff_of_false (not_faithful_of_ok hok (not_effect_read hno _))
        (not_not.mpr (.inl ⟨hseek, rfl⟩))
  | some rc =>
      have hresult : readResult env 1 buf = .error (.code rc) := by
        simp [readResult, hput]
      have herror := houtcome.trans (hread.trans hresult)
      apply iff_of_true (faithful_of_error herror (not_effect_read hno))
      rintro (⟨-, hnone⟩ | ⟨hyes, -⟩ | ⟨bytes, hreads, -⟩)
      · cases hnone
      · exact hseek hyes
      · exact hno bytes hreads

/-- A read for which the host gets to the offset. -/
theorem read_faithful_of_seeks {obj : Obj} {off len : ℕ} {cap : Cap Mac}
    (hadmitted : Admitted env (.read obj off len cap) s) {a : ℕ} {t : Store}
    (hover : HandsOver env root canReadFile obj.oid s a t)
    (hdata : SameData s t) {el : OidEl} (hel : t.heap.lookup a = some el)
    {f : OpenFile} (hf : t.files.fds.lookup el.fd = some f)
    (hown : OwnFd root obj.oid a t el.fd f.inode)
    (hok : env.outcome t.calls ≠ .fail) :
    Faithful env root s (.read obj off len cap) ↔
      ¬ Misreports env root s (.read obj off len cap) := by
  let buf := (List.range len).map env.malloc
  have hbuf : buf.length = len := by simp [buf]
  have houtcome : (handle env root (.read obj off len cap)).outcome s =
      (readOp env root obj off len).outcome s := outcome_of_admitted hadmitted
  have hseek : Seeks env root obj.oid a t := ⟨⟨_, _, hown⟩, hok⟩
  have hread := sysioObjRead_of_seeks hover hel hf hok off buf
  rw [hbuf, hdata.contents] at hread
  rw [misreports_read_of_handsOver hover]
  -- a failed read() is answered like the end of the file
  by_cases hfail : 0 < len ∧ env.outcome (t.calls + 1) = .fail
  · rw [if_pos (.inr hfail.2)] at hread
    have hresult : readResult env 0 buf = .ok (.read 0 []) := by
      simp [readResult]
    refine iff_of_false (not_faithful_of_ok (houtcome.trans
      ((outcome_readOp hread).trans hresult)) (not_effect_read ?_ _))
      (not_not.mpr (.inr (.inl ⟨hseek, hfail⟩)))
    intro bytes hreads
    exact ((hostReads_iff hover hown).mp hreads).2.1 hfail.1 hfail.2
  · let data := Image.read (s.files.contents f.inode) off
      ((env.outcome (t.calls + 1)).limit len)
    have hreads : ∀ bytes, HostReads env root obj.oid off len s bytes ↔
        bytes = data := by
      intro bytes
      rw [hostReads_iff hover hown]
      exact ⟨fun hcond => hcond.2.2, fun heq =>
        ⟨hok, fun hlen hbad => hfail ⟨hlen, hbad⟩, heq⟩⟩
    have hcount : (sysioObjRead env root obj.oid off buf).outcome s =
        .ok (data.length, Image.write 0 buf 0 data) := by
      by_cases hlen : len = 0
      · have hempty : buf = [] := List.length_eq_zero_iff.mp (hbuf.trans hlen)
        have hdata : data = [] := by
          simp only [data, hlen, limit_zero]
          rfl
        rw [hread, if_pos (.inl hempty), hdata]
        rfl
      · have hempty : buf ≠ [] := fun hnil =>
          hlen (hbuf.symm.trans (List.length_eq_zero_iff.mpr hnil))
        rw [hread, if_neg]
        rintro (hnil | hbad)
        · exact hempty hnil
        · exact hfail ⟨Nat.pos_of_ne_zero hlen, hbad⟩
    have hfaithful : Faithful env root s (.read obj off len cap) ↔
        ∀ r, readResult env data.length (Image.write 0 buf 0 data) = .ok r ↔
          Sent env data ∧ r = .read data.length data := by
      apply forall_congr'
      intro r
      rw [houtcome, outcome_readOp hcount]
      refine iff_congr Iff.rfl ((and_iff_right hadmitted).trans ?_)
      simp only [hreads, exists_eq_left]
    rw [hfaithful, readResult_eq_ok_iff]
    apply not_congr
    simp [hreads, hseek, hfail]

/-- A read for which an element is handed over. -/
theorem read_faithful_of_handsOver (hroot : Untruncated root) (h : Held root s)
    {obj : Obj} {off len : ℕ} {cap : Cap Mac}
    (hadmitted : Admitted env (.read obj off len cap) s) {a : ℕ} {t : Store}
    (hover : HandsOver env root canReadFile obj.oid s a t) :
    Faithful env root s (.read obj off len cap) ↔
      ¬ Misreports env root s (.read obj off len cap) := by
  obtain ⟨ht, hmem, hdata⟩ := held_handsOver hroot h hover
  obtain ⟨el, hel, ⟨f, hf, hown⟩ | ⟨hnone, hclosed⟩⟩ := own_or_closed ht hmem
  · by_cases hok : env.outcome t.calls = .fail
    · exact read_faithful_of_not_seeks hadmitted hover hel (.inr hok)
        fun hseek => hseek.2 hok
    · exact read_faithful_of_seeks hadmitted hover hdata hel hf hown hok
  · apply read_faithful_of_not_seeks hadmitted hover hel (.inl hnone)
    rintro ⟨⟨fd, inode, hown⟩, -⟩
    exact hclosed fd inode hown

/-- A read is reported as it was, unless something goes wrong on the way. -/
theorem read_faithful_iff (hroot : Untruncated root) (h : Held root s)
    {obj : Obj} {off len : ℕ} {cap : Cap Mac}
    (hadmitted : Admitted env (.read obj off len cap) s) :
    Faithful env root s (.read obj off len cap) ↔
      ¬ Misreports env root s (.read obj off len cap) := by
  by_cases hover : ∃ a t, HandsOver env root canReadFile obj.oid s a t
  · obtain ⟨a, t, hover⟩ := hover
    exact read_faithful_of_handsOver hroot h hadmitted hover
  · exact read_faithful_of_not_handsOver hadmitted fun a t hover' =>
      hover ⟨a, t, hover'⟩

end Faithful

/-! ### Writing -/

section Write

variable {env : Env Mac} {root : Path} {s t : Store} {a : ℕ} {oid : Oid}
  {el : OidEl} {data : List UInt8}

theorem sysioObjWrite_of_handsOver
    (hover : HandsOver env root canWriteFile oid s a t)
    (hel : t.heap.lookup a = some el) (off : ℕ) (data : List UInt8) :
    sysioObjWrite env root oid off data s =
      (sys env (fun o fs => fs.sysLseek o el.fd off) >>= fun sought =>
        if sought = false ∨ data = [] then pure (0, true)
        else sys env (fun o fs => fs.sysWrite o el.fd data) >>= fun count =>
          count.elim (pure (-1, true)) fun count =>
            pure ((count : ℤ), true)) t := by
  obtain ⟨u, hopen, hreopen⟩ := hover
  rw [sysioObjWrite, bind_of_ok hopen]
  simp only
  rw [bind_of_ok hreopen, if_neg (by decide), bind_of_ok (oidEl_ok hel)]
  refine congrFun (bind_congr fun sought => ?_) t
  split_ifs
  · rfl
  · refine bind_congr fun count => ?_
    cases count <;> rfl

/-- A seek that fails ends the write with zero bytes. -/
theorem sysioObjWrite_of_refused
    (hover : HandsOver env root canWriteFile oid s a t)
    (hel : t.heap.lookup a = some el)
    (h : t.files.fds.lookup el.fd = none ∨ env.outcome t.calls = .fail)
    (off : ℕ) (data : List UInt8) :
    ∃ u, sysioObjWrite env root oid off data s = .ok (0, true) u := by
  have hrun := sysioObjWrite_of_handsOver hover hel off data
  rw [bind_of_ok (sysLseek_of_refused h off)] at hrun
  exact ⟨_, hrun⟩

/-- The count that a write ends with after the seek, and the contents it
leaves if all was written. -/
theorem sysioObjWrite_of_seeks
    (hover : HandsOver env root canWriteFile oid s a t)
    (hel : t.heap.lookup a = some el) {f : OpenFile}
    (hf : t.files.fds.lookup el.fd = some f) (hok : env.outcome t.calls ≠ .fail)
    (off : ℕ) (data : List UInt8) : ∃ (count : ℤ) (u : Store),
      sysioObjWrite env root oid off data s = .ok (count, true) u ∧
      (count = data.length ↔ (data ≠ [] → env.outcome (t.calls + 1) ≠ .fail ∧
        data.length ≤ (env.outcome (t.calls + 1)).limit data.length)) ∧
      (count = data.length → u.files.contents f.inode =
        Image.write 0 (t.files.contents f.inode) off data) := by
  have hrun := sysioObjWrite_of_handsOver hover hel off data
  let v := t.seek el.fd f off
  have hv : v.files.fds.lookup el.fd = some { f with pos := off } :=
    AList.lookup_insert _
  rw [bind_of_ok (sysLseek_of_open hf hok off)] at hrun
  by_cases hdata : data = []
  · subst hdata
    rw [if_pos (.inr rfl)] at hrun
    refine ⟨0, v, hrun, iff_of_true rfl fun hne => absurd rfl hne, fun _ => ?_⟩
    rw [Image.write_nil]
    rfl
  rw [if_neg (by simp [hdata])] at hrun
  by_cases hfail : env.outcome (t.calls + 1) = .fail
  · have hvfail : env.outcome v.calls = .fail := hfail
    have hsys : sys env (fun o fs => fs.sysWrite o el.fd data) v =
        .ok none { v with calls := v.calls + 1 } := by
      simp only [sys, Files.sysWrite, hv, if_pos hvfail]
    rw [bind_of_ok hsys] at hrun
    refine ⟨-1, _, hrun, iff_of_false (by omega) fun hcond => ?_, by omega⟩
    exact (hcond hdata).1 hfail
  · have hvok : env.outcome v.calls ≠ .fail := hfail
    let n := (env.outcome (t.calls + 1)).limit data.length
    let u : Store := { v with
      files := { v.files with
        contents := Function.update v.files.contents f.inode
          (Image.write 0 (v.files.contents f.inode) off (data.take n))
        fds := v.files.fds.insert el.fd
          { f with pos := off + (data.take n).length } }
      calls := v.calls + 1 }
    have hsys : sys env (fun o fs => fs.sysWrite o el.fd data) v =
        .ok (some (data.take n).length) u := by
      simp only [sys, Files.sysWrite, hv, if_neg hvok]
      rfl
    rw [bind_of_ok hsys] at hrun
    have hcount : ((data.take n).length : ℤ) = data.length ↔
        data.length ≤ n := by
      rw [List.length_take]
      omega
    refine ⟨_, u, hrun, ?_, fun hall => ?_⟩
    · rw [hcount]
      exact ⟨fun hle _ => ⟨hfail, hle⟩, fun hcond => (hcond hdata).2⟩
    · have htake : data.take n = data :=
        List.take_of_length_le (hcount.mp hall)
      show Function.update v.files.contents f.inode _ f.inode = _
      rw [Function.update_self, htake]
      rfl

theorem zero_ne_length (h : data ≠ []) : (0 : ℤ) ≠ data.length := by
  have hpos := List.length_pos_iff.mpr h
  omega

/-- What a write with too small a count ends with. -/
def shortWrite (freed : Bool) : Fault :=
  if freed then .badPointer else .code .errStorage

/-- A write ends with `LWFS_OK` exactly if the count is that of the data. -/
theorem writeOp_of_count {obj : Obj} {off : ℕ} {count : ℤ} {freed : Bool}
    {u : Store} (hget : env.getData = none)
    (h : sysioObjWrite env root obj.oid off data s = .ok (count, freed) u) :
    writeOp env root obj off data s =
      if count = data.length then .ok () u
      else .error (shortWrite freed) u := by
  rw [writeOp, hget]
  simp only
  rw [bind_of_ok h]
  by_cases hcount : count = data.length
  · rw [if_pos hcount, if_pos hcount]
    rfl
  · rw [if_neg hcount, if_neg hcount]
    cases freed <;> rfl

theorem HostWrites.handsOver {inode : ℕ}
    (h : HostWrites env root oid data s inode) :
    ∃ a t, HandsOver env root canWriteFile oid s a t ∧
      Seeks env root oid a t := by
  obtain ⟨a, t, fd, hover, hown, hok, -⟩ := h
  exact ⟨a, t, hover, ⟨fd, inode, hown⟩, hok⟩

/-- What `ss_write` hands back, where the data have been fetched. -/
theorem handle_write_of_count {obj : Obj} {off : ℕ} {cap : Cap Mac} {count : ℤ}
    {freed : Bool} {u : Store}
    (hadmitted : Admitted env (.write obj off data cap) s)
    (hget : env.getData = none)
    (h : sysioObjWrite env root obj.oid off data s = .ok (count, freed) u) :
    handle env root (.write obj off data cap) s =
      if count = data.length then .ok .done u
      else .error (shortWrite freed) u := by
  rw [handle_of_admitted hadmitted, operation]
  have hrun := writeOp_of_count hget h
  by_cases hcount : count = data.length
  · rw [if_pos hcount] at hrun ⊢
    exact map_of_ok hrun
  · rw [if_neg hcount] at hrun ⊢
    exact map_of_error hrun

theorem handle_write_of_error {obj : Obj} {off : ℕ} {cap : Cap Mac} {e : Fault}
    {u : Store} (hadmitted : Admitted env (.write obj off data cap) s)
    (hget : env.getData = none)
    (h : sysioObjWrite env root obj.oid off data s = .error e u) :
    handle env root (.write obj off data cap) s = .error e u := by
  have hrun : writeOp env root obj off data s = .error e u := by
    rw [writeOp, hget]
    exact bind_of_error h
  rw [handle_of_admitted hadmitted, operation]
  exact map_of_error hrun

/-- A write for which no element is handed over. -/
theorem write_faithful_of_not_handsOver {obj : Obj} {off : ℕ} {cap : Cap Mac}
    (hadmitted : Admitted env (.write obj off data cap) s)
    (hget : env.getData = none)
    (hno : ∀ a t, ¬ HandsOver env root canWriteFile obj.oid s a t) :
    Faithful env root s (.write obj off data cap) ↔
      ¬ Misreports env root s (.write obj off data cap) := by
  have heffect : ∀ r, ¬ Effect env root s (.write obj off data cap) r := by
    rintro r ⟨-, -, -, inode, hwrites, -⟩
    obtain ⟨a, t, hover, -⟩ := hwrites.handsOver
    exact hno a t hover
  have hstops : ∀ e u, sysioObjWrite env root obj.oid off data s = .error e u →
      Faithful env root s (.write obj off data cap) := fun e u hrun =>
    faithful_of_error (outcome_of_error
      (handle_write_of_error hadmitted hget hrun)) heffect
  cases hopen : openOid env root obj.oid s with
  | error e u =>
      refine iff_of_true (hstops e u (bind_of_error hopen)) ?_
      rintro ⟨-, -, ⟨a, v, t, h, -⟩ | ⟨a, t, hover, -⟩⟩
      · rw [hopen] at h
        cases h
      · exact hno a t hover
  | ok found u =>
      cases found with
      | none =>
          have hrun : sysioObjWrite env root obj.oid off data s =
              .error .badPointer u := bind_of_ok hopen
          refine iff_of_true (hstops _ u hrun) ?_
          rintro ⟨-, -, ⟨a, v, t, h, -⟩ | ⟨a, t, hover, -⟩⟩
          · rw [hopen] at h
            cases h
          · exact hno a t hover
      | some a =>
          have hstart : sysioObjWrite env root obj.oid off data s = _ :=
            bind_of_ok hopen
          cases hreopen : reopen env root canWriteFile obj.oid a u with
          | error e t =>
              refine iff_of_true
                (hstops e t (hstart.trans (bind_of_error hreopen))) ?_
              rintro ⟨-, -, ⟨b, v, t, h, h'⟩ | ⟨a, t, hover, -⟩⟩
              · rw [hopen] at h
                obtain ⟨hab, rfl⟩ := EStateM.Result.ok.inj h
                obtain rfl := Option.some.inj hab
                rw [hreopen] at h'
                cases h'
              · exact hno a t hover
          | ok opened t =>
              cases opened with
              | true => exact absurd ⟨u, hopen, hreopen⟩ (hno a t)
              | false =>
                  have hrun := handle_write_of_count hadmitted hget
                    (hstart.trans (bind_of_ok hreopen))
                  -- nothing is written, which without data is answered as a success
                  by_cases hdata : data = []
                  · rw [if_pos (by simp [hdata])] at hrun
                    exact iff_of_false
                      (not_faithful_of_ok (outcome_of_ok hrun) (heffect _))
                      (not_not.mpr ⟨hget, hdata, .inl ⟨a, u, t, hopen, hreopen⟩⟩)
                  · rw [if_neg (zero_ne_length hdata)] at hrun
                    exact iff_of_true
                      (faithful_of_error (outcome_of_error hrun) heffect)
                      fun hbad => hdata hbad.2.1

/-- What goes wrong in a write for which an element is handed over. -/
theorem misreports_write_of_handsOver {obj : Obj} {off : ℕ} {cap : Cap Mac}
    (hget : env.getData = none)
    (hover : HandsOver env root canWriteFile obj.oid s a t) :
    Misreports env root s (.write obj off data cap) ↔
      data = [] ∧ ¬ Seeks env root obj.oid a t := by
  constructor
  · rintro ⟨-, hempty, ⟨b, u, v, hopen, hreopen⟩ | ⟨b, v, hover', hno⟩⟩
    · cases hover.opened hopen hreopen
    · obtain ⟨rfl, rfl⟩ := hover.unique hover'
      exact ⟨hempty, hno⟩
  · rintro ⟨hempty, hno⟩
    exact ⟨hget, hempty, .inr ⟨a, t, hover, hno⟩⟩

/-- A write for which the host does not get to the offset. -/
theorem write_faithful_of_not_seeks {obj : Obj} {off : ℕ} {cap : Cap Mac}
    (hadmitted : Admitted env (.write obj off data cap) s)
    (hget : env.getData = none)
    (hover : HandsOver env root canWriteFile obj.oid s a t)
    (hel : t.heap.lookup a = some el)
    (hrefused : t.files.fds.lookup el.fd = none ∨ env.outcome t.calls = .fail)
    (hseek : ¬ Seeks env root obj.oid a t) :
    Faithful env root s (.write obj off data cap) ↔
      ¬ Misreports env root s (.write obj off data cap) := by
  obtain ⟨u, hwrite⟩ := sysioObjWrite_of_refused hover hel hrefused off data
  have heffect : ∀ r, ¬ Effect env root s (.write obj off data cap) r := by
    rintro r ⟨-, -, -, inode, hwrites, -⟩
    obtain ⟨b, v, hover', hseek'⟩ := hwrites.handsOver
    obtain ⟨rfl, rfl⟩ := hover.unique hover'
    exact hseek hseek'
  have hrun := handle_write_of_count hadmitted hget hwrite
  rw [misreports_write_of_handsOver hget hover]
  by_cases hempty : data = []
  · rw [if_pos (by simp [hempty])] at hrun
    exact iff_of_false
      (not_faithful_of_ok (outcome_of_ok hrun) (heffect _))
      (not_not.mpr ⟨hempty, hseek⟩)
  · rw [if_neg (zero_ne_length hempty)] at hrun
    exact iff_of_true (faithful_of_error (outcome_of_error hrun) heffect)
      fun hbad => hempty hbad.1

/-- A write for which the host gets to the offset is reported as it was. -/
theorem write_faithful_of_seeks {obj : Obj} {off : ℕ} {cap : Cap Mac}
    (hadmitted : Admitted env (.write obj off data cap) s)
    (hget : env.getData = none)
    (hover : HandsOver env root canWriteFile obj.oid s a t)
    (hdata : SameData s t) (hel : t.heap.lookup a = some el) {f : OpenFile}
    (hf : t.files.fds.lookup el.fd = some f)
    (hown : OwnFd root obj.oid a t el.fd f.inode)
    (hok : env.outcome t.calls ≠ .fail) :
    Faithful env root s (.write obj off data cap) := by
  obtain ⟨count, u, hwrite, hcount, hcontents⟩ :=
    sysioObjWrite_of_seeks hover hel hf hok off data
  have hrun := handle_write_of_count hadmitted hget hwrite
  by_cases hall : count = data.length
  · rw [if_pos hall] at hrun
    refine faithful_of_ok (outcome_of_ok hrun) fun r' => ?_
    constructor
    · rintro ⟨-, -, rfl, -⟩
      rfl
    · rintro rfl
      refine ⟨hadmitted, hget, rfl, f.inode,
        ⟨a, t, el.fd, hover, hown, hok, hcount.mp hall⟩, ?_⟩
      rw [final_of_ok hrun, ← hdata.contents]
      exact hcontents hall
  · rw [if_neg hall] at hrun
    refine faithful_of_error (outcome_of_error hrun) ?_
    rintro r' ⟨-, -, -, inode', ⟨b, v, fd', hover', -, -, hcond⟩, -⟩
    obtain ⟨rfl, rfl⟩ := hover.unique hover'
    exact hall (hcount.mpr hcond)

/-- A write for which an element is handed over. -/
theorem write_faithful_of_handsOver (hroot : Untruncated root)
    (h : Held root s) {obj : Obj} {off : ℕ} {cap : Cap Mac}
    (hadmitted : Admitted env (.write obj off data cap) s)
    (hget : env.getData = none)
    (hover : HandsOver env root canWriteFile obj.oid s a t) :
    Faithful env root s (.write obj off data cap) ↔
      ¬ Misreports env root s (.write obj off data cap) := by
  obtain ⟨ht, hmem, hdata⟩ := held_handsOver hroot h hover
  obtain ⟨el, hel, ⟨f, hf, hown⟩ | ⟨hnone, hclosed⟩⟩ := own_or_closed ht hmem
  · by_cases hok : env.outcome t.calls = .fail
    · exact write_faithful_of_not_seeks hadmitted hget hover hel (.inr hok)
        fun hseek => hseek.2 hok
    · apply iff_of_true (write_faithful_of_seeks hadmitted hget hover hdata hel hf hown hok)
      rw [misreports_write_of_handsOver hget hover]
      exact fun hbad => hbad.2 ⟨⟨_, _, hown⟩, hok⟩
  · apply write_faithful_of_not_seeks hadmitted hget hover hel (.inl hnone)
    rintro ⟨⟨fd, inode, hown⟩, -⟩
    exact hclosed fd inode hown

/-- A write is reported as it was, unless nothing was to be written. -/
theorem write_faithful_iff (hroot : Untruncated root) (h : Held root s)
    {obj : Obj} {off : ℕ} {cap : Cap Mac}
    (hadmitted : Admitted env (.write obj off data cap) s) :
    Faithful env root s (.write obj off data cap) ↔
      ¬ Misreports env root s (.write obj off data cap) := by
  cases hget : env.getData with
  | some rc =>
      have hrun : handle env root (.write obj off data cap) s =
          .error (.code rc) s := by
        rw [handle_of_admitted hadmitted, operation]
        apply map_of_error
        rw [writeOp, hget]
        rfl
      have hsome : env.getData ≠ none := by simp [hget]
      refine iff_of_true (faithful_of_error (outcome_of_error hrun) ?_)
        fun hbad => hsome hbad.1
      rintro r ⟨-, hnone, -⟩
      exact hsome hnone
  | none =>
      by_cases hover : ∃ a t, HandsOver env root canWriteFile obj.oid s a t
      · obtain ⟨a, t, hover⟩ := hover
        exact write_faithful_of_handsOver hroot h hadmitted hget hover
      · exact write_faithful_of_not_handsOver hadmitted hget fun a t hover' =>
          hover ⟨a, t, hover'⟩

end Write

/-! ### Truncating -/

section Truncate

variable {env : Env Mac} {root : Path} {s : Store}

/-- A truncation that was made is reported as an error. -/
theorem not_faithful_of_truncated {obj : Obj} {size : ℕ} {cap : Cap Mac}
    (hadmitted : Admitted env (.truncate obj size cap) s) {a : ℕ} {u : Store}
    (hopen : openOid env root obj.oid s = .ok (some a) u) (hdata : SameData s u)
    {el : OidEl} (hel : u.heap.lookup a = some el) {f : OpenFile}
    (hf : u.files.fds.lookup el.fd = some f)
    (hown : OwnFd root obj.oid a u el.fd f.inode)
    (hok : env.outcome u.calls ≠ .fail) :
    ¬ Faithful env root s (.truncate obj size cap) := by
  let v : Store := { u with
    files := { u.files with
      contents := Function.update u.files.contents f.inode
        (resized (u.files.contents f.inode) size) }
    calls := u.calls + 1 }
  have hsys : sys env (fun o fs => fs.sysFtruncate o el.fd size) u =
      .ok true v := by
    simp only [sys, Files.sysFtruncate, hf, if_neg hok]
    rfl
  have hone : sysioObjTrunc env root obj.oid size s = .ok 1 v := by
    rw [(uses_descriptor hopen hel size).2.1, bind_of_ok hsys]
    rfl
  have hrun : truncateOp env root obj size s = .error (.code .errStorage) v := by
    rw [truncateOp, bind_of_ok hone]
    rfl
  have herror : handle env root (.truncate obj size cap) s =
      .error (.code .errStorage) v := by
    rw [handle_of_admitted hadmitted, operation]
    exact map_of_error hrun
  refine not_faithful_of_error (outcome_of_error herror)
    ⟨hadmitted, rfl, f.inode, ⟨a, u, el.fd, hopen, hown, hok⟩, ?_⟩
  rw [final_of_error herror, ← hdata.contents]
  exact Function.update_self _ _ _

/-- One that was not made is reported as `LWFS_OK`. -/
theorem not_faithful_of_not_truncated {obj : Obj} {size : ℕ} {cap : Cap Mac}
    (hadmitted : Admitted env (.truncate obj size cap) s) {u : Store}
    (hzero : sysioObjTrunc env root obj.oid size s = .ok 0 u)
    (hno : ∀ inode, ¬ HostTruncates env root obj.oid s inode) :
    ¬ Faithful env root s (.truncate obj size cap) := by
  have hrun : truncateOp env root obj size s = .ok () u := by
    rw [truncateOp, bind_of_ok hzero]
    rfl
  have hok : handle env root (.truncate obj size cap) s = .ok .done u := by
    rw [handle_of_admitted hadmitted, operation]
    exact map_of_ok hrun
  apply not_faithful_of_ok (outcome_of_ok hok)
  rintro ⟨-, -, inode, htruncates, -⟩
  exact hno inode htruncates

/-- A truncation is misreported, unless the server stops on the way to the
file. -/
theorem truncate_faithful_iff (hroot : Untruncated root) (h : Held root s)
    {obj : Obj} {size : ℕ} {cap : Cap Mac}
    (hadmitted : Admitted env (.truncate obj size cap) s) :
    Faithful env root s (.truncate obj size cap) ↔
      ¬ Misreports env root s (.truncate obj size cap) := by
  cases hopen : openOid env root obj.oid s with
  | error e u =>
      have hrun : truncateOp env root obj size s = .error e u :=
        bind_of_error (bind_of_error hopen)
      have herror : handle env root (.truncate obj size cap) s = .error e u := by
        rw [handle_of_admitted hadmitted, operation]
        exact map_of_error hrun
      refine iff_of_true (faithful_of_error (outcome_of_error herror) ?_) ?_
      · rintro r ⟨-, -, inode, ⟨a, t, fd, hopen', -⟩, -⟩
        rw [hopen] at hopen'
        cases hopen'
      · rintro ⟨found, t, hopen'⟩
        rw [hopen] at hopen'
        cases hopen'
  | ok found u =>
      refine iff_of_false ?_ (not_not.mpr ⟨found, u, hopen⟩)
      cases found with
      | none =>
          have hzero : sysioObjTrunc env root obj.oid size s = .ok 0 u :=
            bind_of_ok hopen
          apply not_faithful_of_not_truncated hadmitted hzero
          rintro inode ⟨a, t, fd, hopen', -⟩
          rw [hopen] at hopen'
          cases hopen'
      | some a =>
          obtain ⟨hu, hmem, hdata⟩ := held_openOid_ok hroot h hopen
          obtain ⟨el, hel, hfile⟩ := own_or_closed hu hmem
          by_cases hmade : ∃ f, u.files.fds.lookup el.fd = some f ∧
              OwnFd root obj.oid a u el.fd f.inode ∧
              env.outcome u.calls ≠ .fail
          · obtain ⟨f, hf, hown, hok⟩ := hmade
            exact not_faithful_of_truncated hadmitted hopen hdata hel hf hown hok
          · have hrefused : sys env (fun o fs => fs.sysFtruncate o el.fd size) u =
                .ok false { u with calls := u.calls + 1 } := by
              rcases hfile with ⟨f, hf, hown⟩ | ⟨hnone, -⟩
              · have hfail : env.outcome u.calls = .fail :=
                  not_not.mp fun hok => hmade ⟨f, hf, hown, hok⟩
                simp only [sys, Files.sysFtruncate, hf, if_pos hfail]
              · simp only [sys, Files.sysFtruncate, hnone]
            have hzero : sysioObjTrunc env root obj.oid size s =
                .ok 0 { u with calls := u.calls + 1 } := by
              rw [(uses_descriptor hopen hel size).2.1, bind_of_ok hrefused]
              rfl
            apply not_faithful_of_not_truncated hadmitted hzero
            rintro inode ⟨b, t, fd, hopen', hown', hok⟩
            rw [hopen] at hopen'
            obtain ⟨hab, rfl⟩ := EStateM.Result.ok.inj hopen'
            obtain rfl := Option.some.inj hab
            obtain ⟨f, hf, hown⟩ := hfile.resolve_right fun hclosed =>
              hclosed.2 fd inode hown'
            exact hmade ⟨f, hf, hown, hok⟩

end Truncate

/-- The server after one object has been created. -/
def createdServer (root : Path) (cap : Cap Unit) : Server :=
  Run.exec (step root) Server.init
    [((Env.quiet fun _ => none : Env Unit), .createObj Obj.zero cap)]

end Lwfs.Storage
