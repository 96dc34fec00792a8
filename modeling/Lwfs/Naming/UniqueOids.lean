import Lwfs.Support.Uuid
import Mathlib.Data.List.Nodup

/-!
The ids of objects.

The naming servers and the clients of the storage servers make ids without
asking each other, each id with a new `uuid_t`. So nothing is kept from one id
to the next, and the clock sequence is random every time.
-/

namespace Lwfs.Naming

open Support

/-- `gen_unique_oid`. The result of `uuid_make` is not looked at. -/
def genUniqueOid (macAddress : Option (Octets macOctets)) (calls : MakeCalls) : Option Oid :=
  (uuidMakeV1 false calls (uuidCreate macAddress)).map fun r => uuidExportBin r.2.obj

/-- The address of the host, the reading of the clock and the random numbers
that an id is made from. -/
structure OidDraw where
  macAddress : Option (Octets macOctets)
  now : Timeval
  prngClock : UInt16
  prngNode : Octets macOctets

namespace OidDraw

variable (d : OidDraw)

/-- The calls of `uuid_make`, none of which fails. -/
def calls : MakeCalls := ⟨[some d.now], some d.prngClock, some d.prngNode⟩

/-- The id that is made. -/
def oid : Option Oid := genUniqueOid d.macAddress d.calls

/-- The time of the id. The new object takes the epoch for a time that it has
used. -/
def time : ℕ := stampTime d.now (if d.now = .zero then 1 else 0)

/-- The address of the host, or a random one. -/
def node : Octets macOctets :=
  let mac := (uuidCreate d.macAddress).mac
  if mac.byte 0 &&& 0x80 ≠ 0 then multicast d.prngNode else mac

/-- What the ids are told apart by: 60 bits of the time, 14 bits of the random
number, and the node. -/
def key : ℕ × ℕ × Octets macOctets :=
  (d.time % 2 ^ 60, d.prngClock.toNat % 2 ^ 14, d.node)

end OidDraw

theorem systemTime_zero (now : Timeval) :
    systemTime .zero 0 [some now] = some (.ok (now, if now = .zero then 1 else 0)) := by
  rw [systemTime]
  split
  · rfl
  · next h =>
      rw [if_pos (not_not.mp h)]
      rfl

theorem nextNode_draw (d : OidDraw) :
    nextNode false (uuidCreate d.macAddress).mac (some d.prngNode) = some d.node := by
  simp only [nextNode, OidDraw.node, Bool.false_eq_true, false_or]
  split <;> rfl

theorem nextClock_create (macAddress : Option (Octets macOctets)) (now : Timeval)
    (prngClock : Option UInt16) :
    nextClock (uuidCreate macAddress) now prngClock =
      prngClock.map fun clck => clck.toNat % 2 ^ 14 := by
  have hzero : (uuidCreate macAddress).obj.clock = 0 := by
    show UuidObj.nil.clock = 0
    decide
  rw [nextClock, if_pos (.inl hzero)]

/-- An id is made from the time, the random clock sequence and the node. -/
theorem oid_eq (d : OidDraw) :
    d.oid = some (uuidExportBin (.stamp d.time (d.prngClock.toNat % 2 ^ 14) d.node)) := by
  have htime : systemTime (uuidCreate d.macAddress).timeLast
      (uuidCreate d.macAddress).timeSeq d.calls.gettimeofday =
        some (.ok (d.now, if d.now = .zero then 1 else 0)) := systemTime_zero d.now
  have hclock := nextClock_create d.macAddress d.now d.calls.prngClock
  obtain ⟨uuid', hmake⟩ := uuidMakeV1_of_calls false htime hclock (nextNode_draw d)
  obtain ⟨clck, addr, hmade⟩ := uuidMakeV1_ok hmake
  obtain ⟨hlast, hseq⟩ : uuid'.timeLast = d.now ∧
      uuid'.timeSeq = if d.now = .zero then 1 else 0 := by
    simpa using hmade.time.symm.trans htime
  have hclck : clck = d.prngClock.toNat % 2 ^ 14 := by
    simpa [OidDraw.calls, nextClock_create] using hmade.clock.symm
  have haddr : addr = d.node :=
    Option.some.inj (hmade.node.symm.trans (nextNode_draw d))
  rw [OidDraw.oid, genUniqueOid, hmake, Option.map_some, hmade.obj, hlast, hseq, hclck, haddr,
    OidDraw.time]

theorem oid_eq_iff {a b : OidDraw} : a.oid = b.oid ↔ a.key = b.key := by
  have ha : a.prngClock.toNat % 2 ^ 14 < 2 ^ 14 := Nat.mod_lt _ (by decide)
  have hb : b.prngClock.toNat % 2 ^ 14 < 2 ^ 14 := Nat.mod_lt _ (by decide)
  rw [oid_eq, oid_eq, Option.some.injEq, uuidExportBin_inj, UuidObj.stamp_inj ha hb]
  simp only [OidDraw.key, Prod.mk.injEq]

theorem nodup_map_oid {draws : List OidDraw} :
    (draws.map OidDraw.oid).Nodup ↔ (draws.map OidDraw.key).Nodup := by
  induction draws with
  | nil => simp
  | cons d draws ih =>
      simp only [List.map_cons, List.nodup_cons, ih, List.mem_map, oid_eq_iff]

/-- However many ids are made, by whichever servers and clients, they are all
different if and only if no two of them were made at the same time with the
same random clock sequence and the same node. The time counts microseconds, so
nothing but 14 random bits tells the ids of one host in a microsecond apart. -/
theorem oids_nodup_iff (draws : List OidDraw) :
    (∀ d ∈ draws, d.oid.isSome) ∧
      ((draws.map OidDraw.oid).Nodup ↔ (draws.map OidDraw.key).Nodup) := by
  refine ⟨fun d _ => ?_, nodup_map_oid⟩
  rw [oid_eq]
  rfl

/-- Without a clock the id is the nil UUID, every time. -/
theorem genUniqueOid_of_sys (macAddress : Option (Octets macOctets)) (calls : MakeCalls)
    (h : calls.gettimeofday.head? = some none) :
    genUniqueOid macAddress calls = some Oid.zero := by
  obtain ⟨rest, hcalls⟩ := List.head?_eq_some_iff.mp h
  have hnil : uuidExportBin .nil = Oid.zero := by decide
  simp only [genUniqueOid, uuidMakeV1, hcalls, systemTime, Option.map_some]
  exact congrArg some hnil

end Lwfs.Naming
