import Lwfs.Types
import Lwfs.Lib.Routine

/-!
Capabilities: the bytes their MAC covers, and the two routines that compute
it. `generate_cap` takes the number of bytes from the XDR encoding of the
capability's data and `verify_cap` takes it from the C structure; both are 48
(`generateCap_mac`, `verifyCap_iff`).
-/

namespace Lwfs.Authr

open SysLib

variable {Key Mac : Type}

/-- The bytes of an unsigned integer in memory, low byte first. -/
def littleEndian : ℕ → ℕ → List UInt8
  | 0, _ => []
  | n + 1, x => UInt8.ofNat x :: littleEndian n (x / 256)

/-- `lwfs_cap_data` in memory. Its fields leave no padding. -/
def CapData.memory (data : CapData) : List UInt8 :=
  littleEndian 8 data.cid.toNat ++
    (littleEndian 4 data.containerOp.toNat ++
      (data.cred.uid.bytes ++ data.cred.mac.bytes))

/-- `sizeof(lwfs_cap_data)`. -/
def sizeofCapData : ℕ := 48

/-- `xdr_sizeof` of `xdr_lwfs_cap_data`: a hyper, an enumeration and two
fixed arrays of bytes, each padded to a multiple of four. -/
def xdrSizeofCapData : ℕ :=
  8 + 4 + (uuidSize + 3) / 4 * 4 + (20 + 3) / 4 * 4

/-- `generate_cap`. The hash reads as many bytes of the structure as its XDR
encoding has. -/
def generateCap (hmac : Key → List UInt8 → Mac) (key : Key) (data : CapData) :
    Cap Mac :=
  { data, mac := hmac key ((CapData.memory data).take xdrSizeofCapData) }

/-- `verify_cap`. -/
def verifyCap [DecidableEq Mac] (hmac : Key → List UInt8 → Mac) (key : Key)
    (cap : Cap Mac) : Except Fault Unit :=
  let newmac := hmac key ((CapData.memory cap.data).take sizeofCapData)
  if cap.mac ≠ newmac then .error (.code .errVerifycap) else .ok ()

/-! ### The bytes under the MAC -/

@[simp] theorem length_littleEndian (n x : ℕ) :
    (littleEndian n x).length = n := by
  induction n generalizing x with
  | zero => rfl
  | succ n ih => simp [littleEndian, ih]

theorem littleEndian_inj {n x y : ℕ} (hx : x < 256 ^ n) (hy : y < 256 ^ n)
    (h : littleEndian n x = littleEndian n y) : x = y := by
  induction n generalizing x y with
  | zero =>
      rw [Nat.pow_zero] at hx hy
      omega
  | succ n ih =>
      simp only [littleEndian, List.cons.injEq] at h
      obtain ⟨hlow, hhigh⟩ := h
      have hdiv : x / 256 = y / 256 := by
        rw [Nat.pow_succ] at hx hy
        exact ih (Nat.div_lt_of_lt_mul (by omega))
          (Nat.div_lt_of_lt_mul (by omega)) hhigh
      have hmod : x % 256 = y % 256 := by
        have hnat := congrArg UInt8.toNat hlow
        simpa only [UInt8.toNat_ofNat'] using hnat
      omega

@[simp] theorem length_memory (data : CapData) :
    (CapData.memory data).length = 48 := by
  simp [CapData.memory, data.cred.uid.length_eq, data.cred.mac.length_eq,
    uuidSize]

/-- Capabilities with the same bytes in memory carry the same data. -/
theorem memory_inj {a b : CapData}
    (h : CapData.memory a = CapData.memory b) : a = b := by
  obtain ⟨hcid, h⟩ := List.append_inj h (by simp)
  obtain ⟨hop, h⟩ := List.append_inj h (by simp)
  obtain ⟨huid, hmac⟩ := List.append_inj h
    (by rw [a.cred.uid.length_eq, b.cred.uid.length_eq])
  obtain ⟨acid, aop, ⟨auid, amac⟩⟩ := a
  obtain ⟨bcid, bop, ⟨buid, bmac⟩⟩ := b
  have hcid' : acid = bcid := UInt64.toNat_inj.mp
    (littleEndian_inj acid.toNat_lt bcid.toNat_lt hcid)
  have hop' : aop = bop := UInt32.toNat_inj.mp
    (littleEndian_inj aop.toNat_lt bop.toNat_lt hop)
  have huid' : auid = buid := Octets.ext huid
  have hmac' : amac = bmac := Octets.ext hmac
  rw [hcid', hop', huid', hmac']

/-- Both routines hash every byte of the structure. -/
theorem generateCap_mac (hmac : Key → List UInt8 → Mac) (key : Key)
    (data : CapData) :
    (generateCap hmac key data).mac = hmac key (CapData.memory data) := by
  have hall : (CapData.memory data).take xdrSizeofCapData =
      CapData.memory data :=
    List.take_of_length_le (by rw [length_memory]; decide)
  simp only [generateCap, hall]

theorem verifyCap_iff [DecidableEq Mac] (hmac : Key → List UInt8 → Mac)
    (key : Key) (cap : Cap Mac) :
    verifyCap hmac key cap = .ok () ↔
      cap.mac = hmac key (CapData.memory cap.data) := by
  have hall : (CapData.memory cap.data).take sizeofCapData =
      CapData.memory cap.data :=
    List.take_of_length_le (by rw [length_memory]; decide)
  simp only [verifyCap, hall]
  split <;> simp_all

end Lwfs.Authr
