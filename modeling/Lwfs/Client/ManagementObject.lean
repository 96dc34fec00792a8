import Lwfs.Types
import Lwfs.Lib.Bytes
import Lwfs.Lib.Image
import Lwfs.Lib.Routine

/-!
The management object of a file: a header of two integers and the array of the
references to the objects that the file is distributed over, written and read
as they stand in memory.

The storage service holds a byte array for each object and reads and writes it
exactly. A reference is the bytes of the structure here, those between its
fields included, and loading what has been stored gives the same bytes
(`ssoLoadMo_ssoStoreMo`).
-/

namespace Lwfs.FsLwfs

open SysLib Routine

/-! ### Memory -/

/-- `sizeof(int)`. -/
def intSize : ℕ := 4

/-- `sizeof(lwfs_obj)`. -/
def objSize : ℕ := 120

/-- A `lwfs_obj` as it stands in memory. -/
abbrev ObjImage := Octets objSize

/-- The bytes of an `int`. -/
def intBytes (n : Int32) : List UInt8 := Bytes.ofNat intSize n.toUInt32.toNat

/-- The `int` that stands in some bytes. -/
def intOfBytes (bs : List UInt8) : Int32 :=
  (UInt32.ofNat (Bytes.toNat bs)).toInt32

/-- An array in memory. -/
def arrayBytes (objs : List ObjImage) : List UInt8 :=
  objs.flatMap fun o => o.bytes

/-- A structure in memory, where `calloc` has left zeros if the bytes do not
reach that far. -/
def objImage (bs : List UInt8) : ObjImage where
  bytes := (bs ++ List.replicate objSize 0).take objSize
  length_eq := by simp

/-- The array of `n` structures in memory. -/
def arrayOfBytes : ℕ → List UInt8 → List ObjImage
  | 0, _ => []
  | n + 1, bs => objImage bs :: arrayOfBytes n (bs.drop objSize)

/-- `count * sizeof(lwfs_obj)`, which is a `size_t`. -/
def arraySize (count : Int32) : ℕ := (count.toInt64.toUInt64 * 120).toNat

/-! ### The storage service -/

/-- What tells one storage object from another: its server and its id. -/
abbrev ObjHandle := Service × Oid

def objHandle (obj : Obj) : ObjHandle := (obj.svc, obj.oid)

/-- The bytes of each object. -/
abbrev ObjectStore := ObjHandle → List UInt8

/-- `lwfs_write_sync`, which can fail for reasons of its own. -/
def lwfsWriteSync (outcome : Option ReturnCode) (obj : Obj) (offset : ℕ)
    (buf : List UInt8) : Routine Fault ObjectStore Unit := fun s =>
  match outcome with
  | some rc => .error (.code rc) s
  | none =>
      .ok () (Function.update s (objHandle obj)
        (Image.write 0 (s (objHandle obj)) offset buf))

/-- `lwfs_read_sync` into a buffer: it overwrites as much as it has read. -/
def lwfsReadSync (outcome : Option ReturnCode) (obj : Obj) (offset : ℕ)
    (buf : List UInt8) : Routine Fault ObjectStore (List UInt8) := fun s =>
  match outcome with
  | some rc => .error (.code rc) s
  | none =>
      let data := Image.read (s (objHandle obj)) offset buf.length
      .ok (data ++ buf.drop data.length) s

/-! ### Storing and loading -/

/-- `lwfs_distributed_obj`, with the references as they stand in memory. -/
structure DistributedImage where
  chunkSize : Int32
  ssObjCount : Int32
  ssObj : List ObjImage
  deriving DecidableEq

/-- `sso_store_mo`. The requests end as `writes` says. -/
def ssoStoreMo (writes : ℕ → Option ReturnCode) (mo : Obj) (chunkSize : Int32)
    (dso : List ObjImage) (dsoCount : Int32) :
    Routine Fault ObjectStore Unit := do
  lwfsWriteSync (writes 0) mo 0 (intBytes chunkSize)
  lwfsWriteSync (writes 1) mo intSize (intBytes dsoCount)
  if arraySize dsoCount ≤ (arrayBytes dso).length then
    lwfsWriteSync (writes 2) mo (intSize + intSize)
      ((arrayBytes dso).take (arraySize dsoCount))
  else throw .overrun

/-- What `sso_load_mo` finds outside itself. -/
structure LoadCalls where
  checkCapCache : Option ReturnCode
  reads : ℕ → Option ReturnCode
  /-- How many bytes `calloc` can give. -/
  heap : ℕ

/-- `sso_load_mo`. -/
def ssoLoadMo (calls : LoadCalls) (mo : Obj) :
    Routine Fault ObjectStore DistributedImage := do
  if let some rc := calls.checkCapCache then throw (.code rc)
  let chunkSize ←
    lwfsReadSync (calls.reads 0) mo 0 (List.replicate intSize 0)
  let ssObjCount ←
    lwfsReadSync (calls.reads 1) mo intSize (List.replicate intSize 0)
  let count := intOfBytes ssObjCount
  -- `calloc` is given the count as a `size_t` of its own
  if count.toInt64.toUInt64.toNat * objSize ≤ calls.heap then
    let ssObj ← lwfsReadSync (calls.reads 2) mo (intSize + intSize)
      (List.replicate (arraySize count) 0)
    return ⟨intOfBytes chunkSize, count,
      arrayOfBytes count.toInt64.toUInt64.toNat ssObj⟩
  else throw (.code .errNospace)

/-- A write to some object. -/
structure ObjectWrite where
  obj : Obj
  offset : ℕ
  data : List UInt8

/-- The store after writes of any clients. -/
def afterWrites (s : ObjectStore) : List ObjectWrite → ObjectStore
  | [] => s
  | w :: writes =>
      afterWrites (Function.update s (objHandle w.obj)
        (Image.write 0 (s (objHandle w.obj)) w.offset w.data)) writes

/-! ### What stands in memory -/

@[simp] theorem length_intBytes (n : Int32) : (intBytes n).length = intSize :=
  Bytes.length_ofNat _ _

theorem intOfBytes_intBytes (n : Int32) : intOfBytes (intBytes n) = n := by
  have hlt : n.toUInt32.toNat < 256 ^ intSize := n.toUInt32.toNat_lt
  rw [intOfBytes, intBytes, Bytes.toNat_ofNat hlt, UInt32.ofNat_toNat]
  exact Int32.toInt32_toUInt32 n

@[simp] theorem length_arrayBytes (objs : List ObjImage) :
    (arrayBytes objs).length = objs.length * objSize := by
  induction objs with
  | nil => rfl
  | cons o objs ih =>
      have hbytes := o.length_eq
      rw [arrayBytes, List.flatMap_cons, List.length_append, hbytes]
      rw [arrayBytes] at ih
      rw [ih, List.length_cons, Nat.add_mul, Nat.one_mul, Nat.add_comm]

theorem objImage_bytes (o : ObjImage) (rest : List UInt8) :
    objImage (o.bytes ++ rest) = o := by
  apply Octets.ext
  have hlen : o.bytes.length = objSize := o.length_eq
  show ((o.bytes ++ rest) ++ List.replicate objSize 0).take objSize = o.bytes
  rw [List.append_assoc, List.take_left' hlen]

theorem arrayOfBytes_arrayBytes (objs : List ObjImage) :
    arrayOfBytes objs.length (arrayBytes objs) = objs := by
  induction objs with
  | nil => rfl
  | cons o objs ih =>
      have hlen : o.bytes.length = objSize := o.length_eq
      have hcons : arrayBytes (o :: objs) = o.bytes ++ arrayBytes objs := rfl
      have hdrop : (o.bytes ++ arrayBytes objs).drop objSize =
          arrayBytes objs := List.drop_left' hlen
      rw [List.length_cons, arrayOfBytes, hcons, objImage_bytes, hdrop, ih]

/-- A count that is not negative is the same as a `size_t`. -/
theorem toNat_count {n : ℕ} (h : n < 2147483648) :
    (Int32.ofNat n).toInt64.toUInt64.toNat = n := by
  have hint : (Int32.ofNat n).toInt64.toInt = n := by
    rw [Int32.toInt_toInt64, Int32.toInt_ofNat_of_lt h]
  have hnonneg : 0 ≤ (Int32.ofNat n).toInt64 := by
    rw [Int64.le_iff_toInt_le, hint]
    exact Int.natCast_nonneg n
  rw [Int64.toNat_toUInt64_of_le hnonneg, Int64.toNatClampNeg, hint]
  rfl

theorem arraySize_ofNat {n : ℕ} (h : n < 2147483648) :
    arraySize (Int32.ofNat n) = n * objSize := by
  have hsize : objSize = 120 := rfl
  have hnum : (120 : UInt64).toNat = 120 := rfl
  rw [arraySize, UInt64.toNat_mul, toNat_count h, hnum, hsize]
  omega

/-! ### The requests -/

theorem lwfsWriteSync_eq_ok {outcome : Option ReturnCode} {obj : Obj}
    {offset : ℕ} {buf : List UInt8} {s t : ObjectStore} {u : Unit}
    (h : lwfsWriteSync outcome obj offset buf s = .ok u t) :
    t = Function.update s (objHandle obj)
      (Image.write 0 (s (objHandle obj)) offset buf) := by
  cases outcome with
  | some rc => cases h
  | none =>
      cases h
      rfl

/-- A write behind the last byte. -/
theorem contents_of_write {outcome : Option ReturnCode} {obj : Obj}
    {buf contents : List UInt8} {offset : ℕ} {s t : ObjectStore} {u : Unit}
    (hs : s (objHandle obj) = contents) (hoffset : offset = contents.length)
    (h : lwfsWriteSync outcome obj offset buf s = .ok u t) :
    t (objHandle obj) = contents ++ buf := by
  rw [lwfsWriteSync_eq_ok h, Function.update_self, hs, hoffset,
    Image.write_at_end]

/-- A read that finds all the bytes it asks for. -/
theorem lwfsReadSync_eq_ok {outcome : Option ReturnCode} {obj : Obj}
    (front : List UInt8) {mid : List UInt8} (behind : List UInt8)
    {buf v : List UInt8} {offset : ℕ} {s t : ObjectStore}
    (hs : s (objHandle obj) = front ++ (mid ++ behind))
    (hoffset : offset = front.length) (hbuf : buf.length = mid.length) :
    lwfsReadSync outcome obj offset buf s = .ok v t ↔
      outcome = none ∧ mid = v ∧ s = t := by
  cases outcome with
  | some rc => simp [lwfsReadSync]
  | none =>
      have hread : Image.read (s (objHandle obj)) offset buf.length = mid := by
        rw [hs, hoffset, hbuf, Image.read_append]
      have hfull : buf.drop mid.length = [] := by
        rw [← hbuf, List.drop_length]
      simp [lwfsReadSync, hread, hfull]

/-- What `sso_store_mo` leaves in an object that was empty. -/
theorem contents_of_ssoStoreMo {writes : ℕ → Option ReturnCode} {mo : Obj}
    {chunkSize : Int32} {dso : List ObjImage} {s t : ObjectStore}
    (hlen : dso.length < 2147483648) (hnew : s (objHandle mo) = [])
    (h : ssoStoreMo writes mo chunkSize dso (Int32.ofNat dso.length) s =
      .ok () t) :
    t (objHandle mo) = intBytes chunkSize ++
      (intBytes (Int32.ofNat dso.length) ++ arrayBytes dso) := by
  rw [ssoStoreMo, arraySize_ofNat hlen, length_arrayBytes,
    if_pos (Nat.le_refl _), ← length_arrayBytes, List.take_length] at h
  obtain ⟨_, s1, h1, h⟩ := bind_eq_ok.mp h
  obtain ⟨_, s2, h2, h3⟩ := bind_eq_ok.mp h
  have hs1 := contents_of_write hnew rfl h1
  have hs2 := contents_of_write hs1 (by simp) h2
  have hs3 := contents_of_write hs2 (by simp) h3
  rw [hs3]
  simp

/-- Writes to other objects leave an object as it is. -/
theorem afterWrites_of_ne {h : ObjHandle} {writes : List ObjectWrite}
    (hothers : ∀ w ∈ writes, objHandle w.obj ≠ h) (s : ObjectStore) :
    afterWrites s writes h = s h := by
  induction writes generalizing s with
  | nil => rfl
  | cons w writes ih =>
      rw [List.forall_mem_cons] at hothers
      rw [afterWrites, ih hothers.2, Function.update_of_ne hothers.1.symm]

/-! ### The round trip -/

section Load

variable {calls : LoadCalls} {mo : Obj} {chunkSize : Int32}
  {dso : List ObjImage} {s : ObjectStore}

/-- What `sso_load_mo` makes of an object with a header and an array, and what
it needs for it. -/
theorem ssoLoadMo_eq_ok (hlen : dso.length < 2147483648)
    (hs : s (objHandle mo) = intBytes chunkSize ++
      (intBytes (Int32.ofNat dso.length) ++ arrayBytes dso))
    {d : DistributedImage} {t : ObjectStore} :
    ssoLoadMo calls mo s = .ok d t ↔
      (calls.checkCapCache = none ∧ calls.reads 0 = none ∧
        calls.reads 1 = none ∧ dso.length * objSize ≤ calls.heap ∧
        calls.reads 2 = none) ∧
      ⟨chunkSize, Int32.ofNat dso.length, dso⟩ = d ∧ s = t := by
  have hchunk : ∀ v u, lwfsReadSync (calls.reads 0) mo 0
      (List.replicate intSize 0) s = .ok v u ↔
        calls.reads 0 = none ∧ intBytes chunkSize = v ∧ s = u :=
    fun v u => lwfsReadSync_eq_ok [] _ hs rfl (by simp)
  have hcount : ∀ v u, lwfsReadSync (calls.reads 1) mo intSize
      (List.replicate intSize 0) s = .ok v u ↔
        calls.reads 1 = none ∧ intBytes (Int32.ofNat dso.length) = v ∧ s = u :=
    fun v u => lwfsReadSync_eq_ok (intBytes chunkSize) _ hs (by simp)
      (by simp)
  have harray : ∀ v u, lwfsReadSync (calls.reads 2) mo (intSize + intSize)
      (List.replicate (dso.length * objSize) 0) s = .ok v u ↔
        calls.reads 2 = none ∧ arrayBytes dso = v ∧ s = u := by
    intro v u
    refine lwfsReadSync_eq_ok
      (intBytes chunkSize ++ intBytes (Int32.ofNat dso.length)) [] ?_ (by simp) (by simp)
    rw [hs]
    simp
  rw [ssoLoadMo]
  cases hcap : calls.checkCapCache with
  | some rc => simp
  | none =>
      constructor
      · intro h
        obtain ⟨chunkBytes, u, h0, h⟩ := bind_eq_ok.mp h
        obtain ⟨hr0, rfl, rfl⟩ := (hchunk _ _).mp h0
        obtain ⟨countBytes, u, h1, h⟩ := bind_eq_ok.mp h
        obtain ⟨hr1, rfl, rfl⟩ := (hcount _ _).mp h1
        rw [intOfBytes_intBytes, intOfBytes_intBytes, toNat_count hlen,
          arraySize_ofNat hlen] at h
        split at h
        · next hheap =>
          obtain ⟨objBytes, u, h2, h⟩ := bind_eq_ok.mp h
          obtain ⟨hr2, rfl, rfl⟩ := (harray _ _).mp h2
          rw [arrayOfBytes_arrayBytes] at h
          obtain ⟨rfl, rfl⟩ := pure_eq_ok.mp h
          exact ⟨⟨rfl, hr0, hr1, hheap, hr2⟩, rfl, rfl⟩
        · exact absurd h throw_ne_ok
      · rintro ⟨⟨-, hr0, hr1, hheap, hr2⟩, rfl, rfl⟩
        have h0 := (hchunk _ _).mpr ⟨hr0, rfl, rfl⟩
        have h1 := (hcount _ _).mpr ⟨hr1, rfl, rfl⟩
        have h2 := (harray _ _).mpr ⟨hr2, rfl, rfl⟩
        refine bind_eq_ok.mpr ⟨_, _, h0, bind_eq_ok.mpr ⟨_, _, h1, ?_⟩⟩
        rw [intOfBytes_intBytes, intOfBytes_intBytes, toNat_count hlen,
          arraySize_ofNat hlen, if_pos hheap]
        refine bind_eq_ok.mpr ⟨_, _, h2, ?_⟩
        rw [arrayOfBytes_arrayBytes]
        rfl

end Load

/-- What has been stored in a new object is loaded again: whenever loading
succeeds it gives the chunk size, the count and the array, and it succeeds
when there is a capability, memory for the array, and each request is
answered. -/
theorem ssoLoadMo_ssoStoreMo (writes : ℕ → Option ReturnCode) (mo : Obj)
    (chunkSize : Int32) {dso : List ObjImage}
    (hsize : dso.length * objSize < 2147483648) {s t : ObjectStore}
    (hnew : s (objHandle mo) = [])
    (hstore : ssoStoreMo writes mo chunkSize dso (Int32.ofNat dso.length) s =
      .ok () t)
    {others : List ObjectWrite}
    (hothers : ∀ w ∈ others, objHandle w.obj ≠ objHandle mo) (calls : LoadCalls) :
    (∀ d u, ssoLoadMo calls mo (afterWrites t others) = .ok d u →
      d = ⟨chunkSize, Int32.ofNat dso.length, dso⟩ ∧
        u = afterWrites t others) ∧
    (calls.checkCapCache = none → (∀ k, calls.reads k = none) →
      dso.length * objSize ≤ calls.heap →
      ssoLoadMo calls mo (afterWrites t others) =
        .ok ⟨chunkSize, Int32.ofNat dso.length, dso⟩ (afterWrites t others)) := by
  have hlen : dso.length < 2147483648 := by
    have h120 : dso.length * 120 < 2147483648 := hsize
    omega
  have hcontents : afterWrites t others (objHandle mo) = intBytes chunkSize ++
      (intBytes (Int32.ofNat dso.length) ++ arrayBytes dso) := by
    rw [afterWrites_of_ne hothers, contents_of_ssoStoreMo hlen hnew hstore]
  refine ⟨?_, ?_⟩
  · intro d u hload
    obtain ⟨-, hd, hu⟩ := (ssoLoadMo_eq_ok hlen hcontents).mp hload
    exact ⟨hd.symm, hu.symm⟩
  · intro hcap hreads hheap
    apply (ssoLoadMo_eq_ok hlen hcontents).mpr
    exact ⟨⟨hcap, hreads 0, hreads 1, hheap, hreads 2⟩, rfl, rfl⟩

/-- The management object and another object of its server. -/
def moObj : Obj := Obj.zero

def dataObj : Obj := { Obj.zero with oid := Octets.fill uuidSize 1 }

def emptyStore : ObjectStore := fun _ => []

/-- A file over two objects, one of which is written to before the file is
opened. -/
def twoImages : List ObjImage := [Octets.fill objSize 7, Octets.fill objSize 8]

def storedTwo : Routine Fault ObjectStore Unit :=
  ssoStoreMo (fun _ => none) moObj 4096 twoImages (Int32.ofNat twoImages.length)

theorem ssoLoadMo_ssoStoreMo_two :
    ssoLoadMo ⟨none, fun _ => none, 240⟩ moObj
        (afterWrites (storedTwo.final emptyStore) [⟨dataObj, 3, [1, 2]⟩]) =
      .ok ⟨4096, Int32.ofNat twoImages.length, twoImages⟩
        (afterWrites (storedTwo.final emptyStore) [⟨dataObj, 3, [1, 2]⟩]) := by
  have hstore : storedTwo emptyStore = .ok () (storedTwo.final emptyStore) :=
    outcome_eq_ok.mp (by decide +kernel)
  have hothers : ∀ w ∈ [(⟨dataObj, 3, [1, 2]⟩ : ObjectWrite)],
      objHandle w.obj ≠ objHandle moObj := by
    intro w hw
    rw [List.mem_singleton.mp hw]
    decide
  exact (ssoLoadMo_ssoStoreMo (fun _ => none) moObj 4096 (by decide) rfl hstore
    hothers ⟨none, fun _ => none, 240⟩).2 rfl (fun _ => rfl) (by decide)

end Lwfs.FsLwfs
