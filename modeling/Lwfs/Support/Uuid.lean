import Lwfs.Support.Ui64

/-!
UUIDs of version 1.

A UUID is made of the time, a clock sequence and the address of the host.
`uuid_t` keeps the last time and the last clock sequence for the next one.
-/

namespace Lwfs.Support

open SysLib

/-- `struct timeval`, of a clock that is past its epoch. -/
structure Timeval where
  sec : ℕ
  usec : ℕ
  usec_lt : usec < 1000000
  deriving DecidableEq

/-- The epoch. -/
def Timeval.zero : Timeval := ⟨0, 0, by decide⟩

/-- `IEEE_MAC_OCTETS`. -/
def macOctets : ℕ := 6

/-- `uuid_obj_t`. -/
structure UuidObj where
  timeLow : UInt32
  timeMid : UInt16
  timeHiAndVersion : UInt16
  clockSeqHiAndReserved : UInt8
  clockSeqLow : UInt8
  node : Octets macOctets
  deriving DecidableEq

/-- The nil UUID. -/
def UuidObj.nil : UuidObj := ⟨0, 0, 0, 0, 0, Octets.fill macOctets 0⟩

/-- `uuid_t`, without the objects that it takes random numbers and digests
from. -/
structure UuidSt where
  obj : UuidObj
  mac : Octets macOctets
  timeLast : Timeval
  timeSeq : ℕ
  deriving DecidableEq

/-- What the calls of one `uuid_make` give: the readings of the clock, one after
the other, and the random numbers. A call that fails gives none. -/
structure MakeCalls where
  gettimeofday : List (Option Timeval)
  prngClock : Option UInt16
  prngNode : Option (Octets macOctets)

/-- `UUID_RC_SYS` and `UUID_RC_INT`. -/
inductive UuidRc
  | sys
  | int
  deriving DecidableEq

/-- `UUIDS_PER_TICK`. -/
def uuidsPerTick : ℕ := 10

/-- `UUID_TIMEOFFSET`. -/
def uuidTimeoffset : List Char :=
  ['0', '1', 'B', '2', '1', 'D', 'D', '2', '1', '3', '8', '1', '4', '0', '0', '0']

/-- The loop that waits for a time that has not been used up. It is still
waiting where the readings end. -/
def systemTime (timeLast : Timeval) (timeSeq : ℕ) :
    List (Option Timeval) → Option (Except UuidRc (Timeval × ℕ))
  | [] => none
  | none :: _ => some (.error .sys)
  | some timeNow :: rest =>
      if timeNow ≠ timeLast then some (.ok (timeNow, 0))
      else if timeSeq < uuidsPerTick then some (.ok (timeNow, timeSeq + 1))
      else systemTime timeLast timeSeq rest

/-- The time in units of 100 nanoseconds since the epoch of UUIDs. -/
def uuidTime (timeNow : Timeval) (timeSeq : ℕ) : Ui64 :=
  -- from seconds and microseconds to units of 100 nanoseconds
  let t := ui64N2i timeNow.sec
  let t := (ui64Muln t 1000000).1
  let t := (ui64Addn t timeNow.usec).1
  let t := (ui64Muln t 10).1
  -- from the epoch of the clock to that of UUIDs
  let offset := ui64S2i uuidTimeoffset 16
  let t := (ui64Add t offset).1
  -- the UUIDs of one microsecond have times of their own
  if 0 < timeSeq then (ui64Addn t timeSeq).1 else t

namespace UuidObj

/-- The 60 low bits of the time are stored. -/
def storeTime (obj : UuidObj) (t : Ui64) : UuidObj :=
  let hi := ui64Rol t 16
  let mid := ui64Rol hi.1 16
  let low := ui64Rol mid.1 32
  { obj with
    timeHiAndVersion := UInt16.ofNat (ui64I2n hi.2 &&& 0x0fff)
    timeMid := UInt16.ofNat (ui64I2n mid.2 &&& 0xffff)
    timeLow := UInt32.ofNat (ui64I2n low.2 &&& 0xffffffff) }

/-- The clock sequence that is stored. -/
def clock (obj : UuidObj) : ℕ :=
  ((obj.clockSeqHiAndReserved.toNat &&& 0x3f) <<< 8) + obj.clockSeqLow.toNat

/-- A clock sequence is stored. -/
def storeClock (obj : UuidObj) (clck : ℕ) : UuidObj :=
  { obj with
    clockSeqHiAndReserved :=
      (obj.clockSeqHiAndReserved &&& (0xc0 : UInt8)) ||| UInt8.ofNat (clck >>> 8)
    clockSeqLow := UInt8.ofNat clck }

/-- `uuid_brand`. -/
def brand (obj : UuidObj) (version : UInt16) : UuidObj :=
  { obj with
    timeHiAndVersion := (obj.timeHiAndVersion &&& (0x0fff : UInt16)) ||| (version <<< (12 : UInt16))
    clockSeqHiAndReserved := (obj.clockSeqHiAndReserved &&& (0x3f : UInt8)) ||| (0x80 : UInt8) }

end UuidObj

/-- A time is before another. -/
def Timeval.Before (s t : Timeval) : Prop := s.sec < t.sec ∨ s.sec = t.sec ∧ s.usec < t.usec

instance (s t : Timeval) : Decidable (s.Before t) :=
  inferInstanceAs (Decidable (_ ∨ _))

/-- The next clock sequence. It is random at first and when the time has
stepped backwards. -/
def nextClock (uuid : UuidSt) (timeNow : Timeval) (prngClock : Option UInt16) : Option ℕ :=
  if uuid.obj.clock = 0 ∨ timeNow.Before uuid.timeLast then
    prngClock.map fun clck => clck.toNat % 2 ^ 14
  else some ((uuid.obj.clock + 1) % 2 ^ 14)

/-- A random local multicast address. -/
def multicast (node : Octets macOctets) : Octets macOctets :=
  ⟨node.bytes.modify 0 fun b => b ||| 1 ||| 2, by simp [node.length_eq]⟩

/-- The node. It is random where it has to be a multicast address or the address
of the host is not known. -/
def nextNode (mc : Bool) (mac : Octets macOctets) (prngNode : Option (Octets macOctets)) :
    Option (Octets macOctets) :=
  if mc ∨ mac.byte 0 &&& 0x80 ≠ 0 then prngNode.map multicast else some mac

/-- `uuid_make_v1`. What has been stored before a call fails stays. -/
def uuidMakeV1 (mc : Bool) (calls : MakeCalls) (uuid : UuidSt) :
    Option (Except UuidRc Unit × UuidSt) :=
  (systemTime uuid.timeLast uuid.timeSeq calls.gettimeofday).map fun
  | .error rc => (.error rc, uuid)
  | .ok (timeNow, timeSeq) =>
      let timed := { uuid with
        timeSeq := timeSeq
        obj := uuid.obj.storeTime (uuidTime timeNow timeSeq) }
      match nextClock uuid timeNow calls.prngClock with
      | none => (.error .int, timed)
      | some clck =>
          let clocked := { timed with obj := timed.obj.storeClock clck }
          match nextNode mc uuid.mac calls.prngNode with
          | none => (.error .int, clocked)
          | some node =>
              (.ok (), { clocked with
                timeLast := timeNow
                obj := { clocked.obj with node := node }.brand 1 })

/-- `uuid_export_bin`, into a buffer that is large enough. -/
def uuidExportBin (obj : UuidObj) : Uuid :=
  ⟨(Bytes.ofNat 4 obj.timeLow.toNat).reverse ++ (Bytes.ofNat 2 obj.timeMid.toNat).reverse ++
    (Bytes.ofNat 2 obj.timeHiAndVersion.toNat).reverse ++
    [obj.clockSeqHiAndReserved, obj.clockSeqLow] ++ obj.node.bytes, by
      simp [obj.node.length_eq, macOctets, uuidSize]⟩

/-- A number from octets that come with the most significant one first. -/
def unpack (bs : List UInt8) : ℕ := bs.foldl (fun n b => (n <<< 8) ||| b.toNat) 0

/-- `uuid_import_bin`, from as many octets as a UUID has. -/
def uuidImportBin (data : Uuid) : UuidObj where
  timeLow := UInt32.ofNat (unpack (data.bytes.take 4))
  timeMid := UInt16.ofNat (unpack ((data.bytes.drop 4).take 2))
  timeHiAndVersion := UInt16.ofNat (unpack ((data.bytes.drop 6).take 2))
  clockSeqHiAndReserved := data.byte 8
  clockSeqLow := data.byte 9
  node := ⟨data.bytes.drop 10, by rw [List.length_drop, data.length_eq]; rfl⟩

/-- `uuid_create`, where there is memory. Without the address of the host the
first octet says so. -/
def uuidCreate (macAddress : Option (Octets macOctets)) : UuidSt where
  obj := .nil
  mac := macAddress.getD ⟨0x80 :: List.replicate 5 0, rfl⟩
  timeLast := .zero
  timeSeq := 0

/-! ### What is stored -/

namespace UuidObj

/-- A UUID of version 1 with a time, a clock sequence and a node. -/
def stamp (time clck : ℕ) (node : Octets macOctets) : UuidObj where
  timeLow := UInt32.ofNat (time % 2 ^ 32)
  timeMid := UInt16.ofNat (time / 2 ^ 32 % 2 ^ 16)
  timeHiAndVersion := UInt16.ofNat (2 ^ 12 + time / 2 ^ 48 % 2 ^ 12)
  clockSeqHiAndReserved := UInt8.ofNat (2 ^ 7 + clck / 2 ^ 8)
  clockSeqLow := UInt8.ofNat clck
  node := node

/-- The pieces of a stamp tell the time, the clock sequence and the node. -/
theorem stamp_inj {s t c d : ℕ} {m n : Octets macOctets} (hc : c < 2 ^ 14) (hd : d < 2 ^ 14) :
    stamp s c m = stamp t d n ↔ s % 2 ^ 60 = t % 2 ^ 60 ∧ c = d ∧ m = n := by
  constructor
  · intro h
    obtain ⟨hlow, hmid, hhi, hclockHi, hclockLow, hnode⟩ := UuidObj.mk.inj h
    replace hlow := congrArg UInt32.toNat hlow
    replace hmid := congrArg UInt16.toNat hmid
    replace hhi := congrArg UInt16.toNat hhi
    replace hclockHi := congrArg UInt8.toNat hclockHi
    replace hclockLow := congrArg UInt8.toNat hclockLow
    simp only [UInt32.toNat_ofNat', UInt16.toNat_ofNat', UInt8.toNat_ofNat'] at *
    refine ⟨?_, ?_, hnode⟩ <;> omega
  · rintro ⟨htime, rfl, rfl⟩
    have hlow : s % 2 ^ 32 = t % 2 ^ 32 := by omega
    have hmid : s / 2 ^ 32 % 2 ^ 16 = t / 2 ^ 32 % 2 ^ 16 := by omega
    have hhi : s / 2 ^ 48 % 2 ^ 12 = t / 2 ^ 48 % 2 ^ 12 := by omega
    simp only [stamp, hlow, hmid, hhi]

theorem clock_stamp (time : ℕ) {clck : ℕ} (node : Octets macOctets) (hclck : clck < 2 ^ 14) :
    (stamp time clck node).clock = clck := by
  have hmask : ∀ n : ℕ, n &&& 0x3f = n % 2 ^ 6 := fun n => Nat.and_two_pow_sub_one_eq_mod n 6
  simp only [clock, stamp, hmask, Nat.shiftLeft_eq, UInt8.toNat_ofNat']
  omega

/-- The three shifts cut the time in the pieces that are stored. -/
theorem storeTime_eq (obj : UuidObj) (t : Ui64) :
    obj.storeTime t = { obj with
      timeHiAndVersion := UInt16.ofNat (t.val / 2 ^ 48 % 2 ^ 12)
      timeMid := UInt16.ofNat (t.val / 2 ^ 32 % 2 ^ 16)
      timeLow := UInt32.ofNat (t.val % 2 ^ 32) } := by
  have hlt := t.val_lt
  have hmask12 : ∀ n : ℕ, n &&& 0x0fff = n % 2 ^ 12 :=
    fun n => Nat.and_two_pow_sub_one_eq_mod n 12
  have hmask16 : ∀ n : ℕ, n &&& 0xffff = n % 2 ^ 16 :=
    fun n => Nat.and_two_pow_sub_one_eq_mod n 16
  have hmask32 : ∀ n : ℕ, n &&& 0xffffffff = n % 2 ^ 32 :=
    fun n => Nat.and_two_pow_sub_one_eq_mod n 32
  obtain ⟨hrest, hhi⟩ := Ui64.val_rol t (s := 16) (by omega) (by omega)
  obtain ⟨hrest', hmid⟩ := Ui64.val_rol (ui64Rol t 16).1 (s := 16) (by omega) (by omega)
  obtain ⟨-, hlow⟩ :=
    Ui64.val_rol (ui64Rol (ui64Rol t 16).1 16).1 (s := 32) (by omega) (by omega)
  rw [hrest'] at hlow
  rw [hrest] at hmid hlow
  simp only [storeTime, Ui64.i2n_eq_val, hmask12, hmask16, hmask32, hhi, hmid, hlow]
  congr 2 <;> omega

/-- The variant and the version are set beside what is stored. -/
theorem brand_storeClock (obj : UuidObj) {hi clck : ℕ} (node : Octets macOctets)
    (hhi : hi < 2 ^ 12) (hclck : clck < 2 ^ 14)
    (hobj : obj.timeHiAndVersion = UInt16.ofNat hi) :
    { obj.storeClock clck with node := node }.brand 1 = { obj with
      timeHiAndVersion := UInt16.ofNat (2 ^ 12 + hi)
      clockSeqHiAndReserved := UInt8.ofNat (2 ^ 7 + clck / 2 ^ 8)
      clockSeqLow := UInt8.ofNat clck
      node := node } := by
  have hversion : (UInt16.ofNat hi &&& (0x0fff : UInt16)) ||| ((1 : UInt16) <<< (12 : UInt16)) =
      UInt16.ofNat (2 ^ 12 + hi) := by
    apply UInt16.toNat_inj.mp
    have hmask : hi % 2 ^ 16 &&& 4095 = hi := by
      rw [show (4095 : ℕ) = 2 ^ 12 - 1 from rfl, Nat.and_two_pow_sub_one_eq_mod]
      omega
    have hset : 2 ^ 12 + hi = 4096 ||| hi := Nat.two_pow_add_eq_or_of_lt hhi 1
    simp only [UInt16.toNat_or, UInt16.toNat_and, UInt16.toNat_ofNat']
    show hi % 2 ^ 16 &&& 4095 ||| 4096 = _
    rw [hmask, Nat.or_comm, ← hset]
    omega
  have hvariant : ((obj.clockSeqHiAndReserved &&& (0xc0 : UInt8) ||| UInt8.ofNat (clck >>> 8)) &&&
      (0x3f : UInt8)) ||| (0x80 : UInt8) = UInt8.ofNat (2 ^ 7 + clck / 2 ^ 8) := by
    apply UInt8.toNat_inj.mp
    have hquot : clck / 2 ^ 8 < 2 ^ 6 := by omega
    have hmask : ∀ n : ℕ, (n &&& 192 ||| clck / 2 ^ 8) &&& 63 = clck / 2 ^ 8 := by
      intro n
      have hlow : clck / 2 ^ 8 &&& 63 = clck / 2 ^ 8 := by
        rw [show (63 : ℕ) = 2 ^ 6 - 1 from rfl, Nat.and_two_pow_sub_one_eq_mod]
        omega
      rw [Nat.and_or_distrib_right, hlow, Nat.and_assoc]
      simp
    have hset : 2 ^ 7 + clck / 2 ^ 8 = 128 ||| clck / 2 ^ 8 :=
      Nat.two_pow_add_eq_or_of_lt (show clck / 2 ^ 8 < 2 ^ 7 by omega) 1
    simp only [UInt8.toNat_or, UInt8.toNat_and, UInt8.toNat_ofNat', Nat.shiftRight_eq_div_pow]
    rw [Nat.mod_eq_of_lt (show clck / 2 ^ 8 < 2 ^ 8 by omega)]
    show (obj.clockSeqHiAndReserved.toNat &&& 192 ||| clck / 2 ^ 8) &&& 63 ||| 128 = _
    rw [hmask, Nat.or_comm, ← hset]
    omega
  simp only [storeClock, brand, hobj, hversion, hvariant]

end UuidObj

/-- The loop ends with a time of its own for the UUID, and gives no more than
eleven in a microsecond. -/
theorem systemTime_ok {timeLast now : Timeval} {timeSeq seq : ℕ}
    {readings : List (Option Timeval)}
    (h : systemTime timeLast timeSeq readings = some (.ok (now, seq))) :
    (now ≠ timeLast ∧ seq = 0) ∨
      (now = timeLast ∧ seq = timeSeq + 1 ∧ seq ≤ uuidsPerTick) := by
  induction readings with
  | nil => cases h
  | cons reading rest ih =>
      cases reading with
      | none => cases h
      | some t =>
          rw [systemTime] at h
          split at h
          · next hne =>
              cases h
              exact .inl ⟨hne, rfl⟩
          · next heq =>
              split at h
              · next hlt =>
                  cases h
                  exact .inr ⟨not_not.mp heq, rfl, hlt⟩
              · exact ih h

/-- The microseconds since the epoch. -/
def Timeval.micros (t : Timeval) : ℕ := t.sec * 1000000 + t.usec

theorem Timeval.micros_inj {s t : Timeval} : s.micros = t.micros ↔ s = t := by
  obtain ⟨sec, usec, husec⟩ := s
  obtain ⟨sec', usec', husec'⟩ := t
  simp only [Timeval.micros, Timeval.mk.injEq]
  omega

theorem Timeval.before_iff {s t : Timeval} : s.Before t ↔ s.micros < t.micros := by
  have hs := s.usec_lt
  have ht := t.usec_lt
  rw [Timeval.Before, Timeval.micros, Timeval.micros]
  omega

/-- The time of a UUID, which has ten units in a microsecond. -/
def stampTime (now : Timeval) (seq : ℕ) : ℕ := now.micros * 10 + 122192928000000000 + seq

theorem val_uuidTime (now : Timeval) (seq : ℕ) :
    (uuidTime now seq).val = stampTime now seq % 2 ^ 64 := by
  have hoffset : (ui64S2i uuidTimeoffset 16).val = 122192928000000000 := by decide
  have hbase : (ui64Add (ui64Muln (ui64Addn (ui64Muln (ui64N2i now.sec) 1000000).1
      now.usec).1 10).1 (ui64S2i uuidTimeoffset 16)).1.val =
        stampTime now 0 % 2 ^ 64 := by
    simp only [Ui64.val_add, Ui64.val_muln, Ui64.val_addn, Ui64.val_n2i, hoffset, stampTime,
      Timeval.micros]
    omega
  simp only [uuidTime]
  split
  · rw [Ui64.val_addn, hbase, stampTime, stampTime]
    omega
  · next hseq =>
      have hzero : seq = 0 := by omega
      rw [hbase, hzero]

/-- What a call of `uuid_make` that succeeds leaves. -/
structure Made (mc : Bool) (calls : MakeCalls) (uuid uuid' : UuidSt) (clck : ℕ)
    (addr : Octets macOctets) : Prop where
  time : systemTime uuid.timeLast uuid.timeSeq calls.gettimeofday =
    some (.ok (uuid'.timeLast, uuid'.timeSeq))
  clock : nextClock uuid uuid'.timeLast calls.prngClock = some clck
  node : nextNode mc uuid.mac calls.prngNode = some addr
  obj : uuid'.obj = .stamp (stampTime uuid'.timeLast uuid'.timeSeq) clck addr
  mac : uuid'.mac = uuid.mac

theorem nextClock_lt {uuid : UuidSt} {now : Timeval} {prngClock : Option UInt16} {clck : ℕ}
    (h : nextClock uuid now prngClock = some clck) : clck < 2 ^ 14 := by
  rw [nextClock] at h
  split at h
  · obtain ⟨r, -, rfl⟩ := Option.map_eq_some_iff.mp h
    exact Nat.mod_lt _ (by decide)
  · cases h
    exact Nat.mod_lt _ (by decide)

theorem uuidMakeV1_of_calls (mc : Bool) {calls : MakeCalls} {uuid : UuidSt} {now : Timeval}
    {seq clck : ℕ} {addr : Octets macOctets}
    (htime : systemTime uuid.timeLast uuid.timeSeq calls.gettimeofday = some (.ok (now, seq)))
    (hclock : nextClock uuid now calls.prngClock = some clck)
    (hnode : nextNode mc uuid.mac calls.prngNode = some addr) :
    ∃ uuid', uuidMakeV1 mc calls uuid = some (.ok (), uuid') := by
  simp only [uuidMakeV1, htime, hclock, hnode, Option.map_some]
  exact ⟨_, rfl⟩

theorem uuidMakeV1_ok {mc : Bool} {calls : MakeCalls} {uuid uuid' : UuidSt}
    (h : uuidMakeV1 mc calls uuid = some (.ok (), uuid')) :
    ∃ clck addr, Made mc calls uuid uuid' clck addr := by
  obtain ⟨r, htime, h⟩ := Option.map_eq_some_iff.mp h
  cases r with
  | error rc => cases h
  | ok r =>
      obtain ⟨now, seq⟩ := r
      simp only at h
      cases hclock : nextClock uuid now calls.prngClock with
      | none => simp [hclock] at h
      | some clck =>
          cases hnode : nextNode mc uuid.mac calls.prngNode with
          | none => simp [hclock, hnode] at h
          | some node =>
              simp only [hclock, hnode, Prod.mk.injEq, true_and] at h
              subst h
              refine ⟨clck, node, htime, hclock, hnode, ?_, rfl⟩
              have htime64 := val_uuidTime now seq
              have hbrand := UuidObj.brand_storeClock
                (uuid.obj.storeTime (uuidTime now seq)) node
                (Nat.mod_lt _ (by decide)) (nextClock_lt hclock)
                (congrArg UuidObj.timeHiAndVersion (UuidObj.storeTime_eq _ _))
              refine hbrand.trans ?_
              simp only [UuidObj.storeTime_eq, UuidObj.stamp, htime64]
              congr 2 <;> omega

/-- Octets in the order of the network tell the number. -/
theorem reverse_ofNat_inj {k m n : ℕ} (hm : m < 256 ^ k) (hn : n < 256 ^ k)
    (h : (Bytes.ofNat k m).reverse = (Bytes.ofNat k n).reverse) : m = n :=
  (Bytes.ofNat_inj hm hn).mp (List.reverse_inj.mp h)

theorem uuidExportBin_inj {a b : UuidObj} : uuidExportBin a = uuidExportBin b ↔ a = b := by
  refine ⟨fun h => ?_, fun h => by rw [h]⟩
  obtain ⟨low, mid, hi, clockHi, clockLow, node⟩ := a
  obtain ⟨low', mid', hi', clockHi', clockLow', node'⟩ := b
  have hbytes := congrArg Octets.bytes h
  simp only [uuidExportBin] at hbytes
  -- The parts have the same lengths in both, so they are taken off from the right.
  obtain ⟨h, hnode⟩ := List.append_inj' hbytes (by rw [node.length_eq, node'.length_eq])
  obtain ⟨h, hclock⟩ := List.append_inj' h rfl
  obtain ⟨h, hhi⟩ := List.append_inj' h (by simp)
  obtain ⟨hlow, hmid⟩ := List.append_inj' h (by simp)
  have hlow := UInt32.toNat_inj.mp (reverse_ofNat_inj low.toNat_lt low'.toNat_lt hlow)
  have hmid := UInt16.toNat_inj.mp (reverse_ofNat_inj mid.toNat_lt mid'.toNat_lt hmid)
  have hhi := UInt16.toNat_inj.mp (reverse_ofNat_inj hi.toNat_lt hi'.toNat_lt hhi)
  simp only [List.cons.injEq, and_true] at hclock
  rw [hlow, hmid, hhi, hclock.1, hclock.2, Octets.ext hnode]

theorem unpack_eq (bs : List UInt8) : unpack bs = Bytes.toNat bs.reverse := by
  rw [unpack, List.foldl_eq_foldr_reverse]
  induction bs.reverse with
  | nil => rfl
  | cons b bs ih =>
      have hb : b.toNat < 2 ^ 8 := b.toNat_lt
      rw [List.foldr_cons, ih, ← Nat.shiftLeft_add_eq_or_of_lt hb, Nat.shiftLeft_eq,
        Bytes.toNat]
      omega

theorem reverse_ofNat_unpack {bs : List UInt8} {k : ℕ} (h : bs.length = k) :
    (Bytes.ofNat k (unpack bs % 256 ^ k)).reverse = bs := by
  have hlt := Bytes.toNat_lt bs.reverse
  have hback := Bytes.ofNat_toNat bs.reverse
  rw [List.length_reverse, h] at hlt hback
  rw [unpack_eq, Nat.mod_eq_of_lt hlt, hback, List.reverse_reverse]

/-- Every sixteen octets are those of a UUID. -/
theorem uuidExportBin_importBin (data : Uuid) : uuidExportBin (uuidImportBin data) = data := by
  obtain ⟨bytes, hlen⟩ := data
  have hlen : bytes.length = 16 := hlen
  have hclock : [bytes.getD 8 0, bytes.getD 9 0] ++ bytes.drop 10 = bytes.drop 8 := by
    rw [List.drop_eq_getElem_cons (i := 8) (by omega),
      List.drop_eq_getElem_cons (i := 9) (by omega),
      List.getD_eq_getElem _ _ (by omega), List.getD_eq_getElem _ _ (by omega)]
    rfl
  have hpack : ∀ bs : List UInt8, bs.length = 2 →
      (Bytes.ofNat 2 (UInt16.ofNat (unpack bs)).toNat).reverse = bs :=
    fun _ => reverse_ofNat_unpack
  have hlow : (Bytes.ofNat 4 (UInt32.ofNat (unpack (bytes.take 4))).toNat).reverse =
      bytes.take 4 := reverse_ofNat_unpack (by simp [hlen])
  have hhi : (bytes.drop 6).take 2 ++ bytes.drop 8 = bytes.drop 6 := by
    simpa using List.take_append_drop 2 (bytes.drop 6)
  have hmid : (bytes.drop 4).take 2 ++ bytes.drop 6 = bytes.drop 4 := by
    simpa using List.take_append_drop 2 (bytes.drop 4)
  apply Octets.ext
  simp only [uuidImportBin, uuidExportBin, Octets.byte]
  rw [hlow, hpack _ (by simp [hlen]), hpack _ (by simp [hlen]),
    List.append_assoc _ _ (bytes.drop 10), hclock,
    List.append_assoc, hhi, List.append_assoc, hmid, List.take_append_drop]

/-- A UUID comes back from its octets. -/
theorem uuidImportBin_exportBin (obj : UuidObj) : uuidImportBin (uuidExportBin obj) = obj :=
  uuidExportBin_inj.mp (uuidExportBin_importBin _)

end Lwfs.Support
