import Lwfs.Rpc.Wire

/-!
Entries of the namespace between memory and the wire.

A distributed object keeps the number of its storage objects beside a pointer
to the first of them. The protocol description knows the pointer alone, so the
procedure for it writes one object, and it makes room for one when it reads.
The count travels unchanged. What is read back is the entry that was written
if the array holds just one object, or if there is none.
-/

namespace Lwfs.Wire

open SysLib

/-- `lwfs_distributed_obj` in memory. -/
@[ext] structure DistributedObj where
  chunkSize : Int32
  ssObjCount : Int32
  /-- The objects that stand where `ss_obj` leads to; `none` is `NULL`. -/
  ssObj : Option (List obj.Val)

/-- The array has as many objects as the count says. -/
def DistributedObj.Counted (d : DistributedObj) : Prop :=
  ∀ objs ∈ d.ssObj, (objs.length : ℤ) = d.ssObjCount.toInt

/-- `lwfs_ns_entry` in memory. -/
@[ext] structure NsEntry where
  name : charName.Val
  direntOid : oid.Val
  inodeOid : oid.Val
  parentOid : oid.Val
  linkCnt : Int32
  entryObj : obj.Val
  fileObj : Option obj.Val
  dObj : Option DistributedObj

def NsEntry.Counted (e : NsEntry) : Prop := ∀ d ∈ e.dObj, d.Counted

/-- `lwfs_namespace` in memory. -/
@[ext] structure Namespace where
  name : charName.Val
  nsEntry : NsEntry

/-! ### What the procedures see -/

/-- `xdr_pointer` for `ss_obj`: the first object, and memory behind the array
if the array is empty. -/
def firstObj : Option (List obj.Val) → Option (Option obj.Val)
  | none => some none
  | some [] => none
  | some (o :: _) => some (some o)

/-- `xdr_lwfs_distributed_obj`. -/
def distributedObjMarshal : Marshal DistributedObj distributedObj.Val where
  view d := (firstObj d.ssObj).map fun o => (d.chunkSize, d.ssObjCount, o, ())
  value := fun (chunkSize, ssObjCount, o, _) =>
    ⟨chunkSize, ssObjCount, Option.map (fun o => [o]) o⟩

/-- `xdr_lwfs_ns_entry`. -/
def nsEntryMarshal : Marshal NsEntry nsEntry.Val where
  view e := (distributedObjMarshal.pointer.view e.dObj).map fun d =>
    (e.name, e.direntOid, e.inodeOid, e.parentOid, e.linkCnt, e.entryObj,
      e.fileObj, d, ())
  value := fun (name, direntOid, inodeOid, parentOid, linkCnt, entryObj,
      fileObj, d, _) =>
    ⟨name, direntOid, inodeOid, parentOid, linkCnt, entryObj, fileObj,
      distributedObjMarshal.pointer.value d⟩

/-- `xdr_lwfs_namespace`. -/
def namespaceMarshal : Marshal Namespace nameSpace.Val where
  view ns := (nsEntryMarshal.view ns.nsEntry).map fun e => (ns.name, e, ())
  value := fun (name, e, _) => ⟨name, nsEntryMarshal.value e⟩

/-- `xdr_lwfs_ns_entry_array`. -/
def nsEntryArrayMarshal :
    Marshal { es : List NsEntry // es.length ≤ unbounded.toNat }
      nsEntryArray.Val := nsEntryMarshal.array unbounded

/-- `xdr_lwfs_namespace_array`. -/
def namespaceArrayMarshal :
    Marshal { ns : List Namespace // ns.length ≤ unbounded.toNat }
      namespaceArray.Val := namespaceMarshal.array unbounded

/-! ### What is lost -/

/-- One object stands in the array, or there is no array. -/
theorem whole_distributedObj {d : DistributedObj} :
    distributedObjMarshal.Whole d ↔ ∀ objs ∈ d.ssObj, objs.length = 1 := by
  obtain ⟨chunkSize, ssObjCount, _ | _ | ⟨o, objs⟩⟩ := d
  · exact iff_of_true rfl nofun
  · exact iff_of_false nofun fun h => absurd (h [] rfl) Nat.zero_ne_one
  · show some (DistributedObj.mk chunkSize ssObjCount (some [o])) =
      some ⟨chunkSize, ssObjCount, some (o :: objs)⟩ ↔ _
    simp [eq_comm (a := [])]

theorem whole_nsEntry {e : NsEntry} :
    nsEntryMarshal.Whole e ↔ ∀ d ∈ e.dObj, distributedObjMarshal.Whole d := by
  rw [← Marshal.whole_pointer]
  simp only [Marshal.Whole, nsEntryMarshal]
  cases distributedObjMarshal.pointer.view e.dObj with
  | none =>
      exact iff_of_false (Option.some_ne_none _).symm (Option.some_ne_none _).symm
  | some d =>
      show some { e with dObj := distributedObjMarshal.pointer.value d } =
          some e ↔ some (distributedObjMarshal.pointer.value d) = some e.dObj
      simp [NsEntry.ext_iff]

theorem whole_namespace {ns : Namespace} :
    namespaceMarshal.Whole ns ↔ nsEntryMarshal.Whole ns.nsEntry := by
  simp only [Marshal.Whole, namespaceMarshal]
  cases nsEntryMarshal.view ns.nsEntry with
  | none =>
      exact iff_of_false (Option.some_ne_none _).symm (Option.some_ne_none _).symm
  | some e =>
      show some (Namespace.mk ns.name (nsEntryMarshal.value e)) = some ns ↔
        some (nsEntryMarshal.value e) = some ns.nsEntry
      simp [Namespace.ext_iff]

/-- No distributed object of the entry has an array of other than one
object. -/
def NsEntry.Single (e : NsEntry) : Prop :=
  ∀ d ∈ e.dObj, d.ssObj = none ∨ d.ssObjCount = 1

theorem whole_iff_single {e : NsEntry} (h : e.Counted) :
    nsEntryMarshal.Whole e ↔ e.Single := by
  rw [whole_nsEntry]
  refine forall₂_congr fun d hd => ?_
  have hcounted := h d hd
  rw [whole_distributedObj]
  unfold DistributedObj.Counted at hcounted
  cases hobjs : d.ssObj with
  | none => exact iff_of_true nofun (.inl rfl)
  | some objs =>
      have hlen := hcounted objs hobjs
      simp only [Option.mem_def, Option.some.injEq, forall_eq', reduceCtorEq,
        false_or]
      rw [← Int32.toInt_inj, ← hlen, Int32.toInt_one]
      omega

/-- Entries, namespaces and arrays of both are read as they were written if
and only if no entry has an array of other than one storage object. -/
theorem roundTrips_iff_single {e : NsEntry} {ns : Namespace}
    {es : { es : List NsEntry // es.length ≤ unbounded.toNat }}
    {nss : { ns : List Namespace // ns.length ≤ unbounded.toNat }}
    (he : e.Counted) (hns : ns.nsEntry.Counted) (hes : ∀ e ∈ es.1, e.Counted)
    (hnss : ∀ ns ∈ nss.1, ns.nsEntry.Counted) :
    (nsEntryMarshal.RoundTrips nsEntry.codec e ↔ e.Single) ∧
      (namespaceMarshal.RoundTrips nameSpace.codec ns ↔ ns.nsEntry.Single) ∧
      (nsEntryArrayMarshal.RoundTrips nsEntryArray.codec es ↔
        ∀ e ∈ es.1, e.Single) ∧
      (namespaceArrayMarshal.RoundTrips namespaceArray.codec nss ↔
        ∀ ns ∈ nss.1, ns.nsEntry.Single) := by
  refine ⟨?_, ?_, ?_, ?_⟩
  · exact Marshal.roundTrips_iff.trans (whole_iff_single he)
  · rw [Marshal.roundTrips_iff, whole_namespace]
    exact whole_iff_single hns
  · refine Marshal.roundTrips_iff.trans (Marshal.whole_array.trans ?_)
    exact forall₂_congr fun e he => whole_iff_single (hes e he)
  · refine Marshal.roundTrips_iff.trans (Marshal.whole_array.trans ?_)
    exact forall₂_congr fun ns hns =>
      whole_namespace.trans (whole_iff_single (hnss ns hns))

/-- A file on one storage server. -/
def oneServerEntry : NsEntry where
  name := charName.zero
  direntOid := oid.zero
  inodeOid := oid.zero
  parentOid := oid.zero
  linkCnt := 1
  entryObj := obj.zero
  fileObj := some obj.zero
  dObj := some ⟨1048576, 1, some [obj.zero]⟩

theorem counted_oneServer : oneServerEntry.Counted := by
  rintro d ⟨⟩ objs ⟨⟩
  rfl

theorem single_oneServer : oneServerEntry.Single := by
  rintro d ⟨⟩
  exact .inr rfl

def oneServerNamespace : Namespace := ⟨charName.zero, oneServerEntry⟩

theorem roundTrips_oneServer :
    nsEntryMarshal.RoundTrips nsEntry.codec oneServerEntry ∧
      namespaceArrayMarshal.RoundTrips namespaceArray.codec
        ⟨[oneServerNamespace], by decide⟩ := by
  obtain ⟨hentry, -, -, harray⟩ := @roundTrips_iff_single oneServerEntry
    oneServerNamespace ⟨[], Nat.zero_le _⟩ ⟨[oneServerNamespace], by decide⟩
    counted_oneServer counted_oneServer nofun
    (List.forall_mem_singleton.mpr counted_oneServer)
  exact ⟨hentry.mpr single_oneServer,
    harray.mpr (List.forall_mem_singleton.mpr single_oneServer)⟩

/-- A file over two storage servers, as `sso_init_objs` lays it out. -/
def twoServersEntry : NsEntry where
  name := charName.zero
  direntOid := oid.zero
  inodeOid := oid.zero
  parentOid := oid.zero
  linkCnt := 1
  entryObj := obj.zero
  fileObj := some obj.zero
  dObj := some ⟨1048576, 2, some [obj.zero, obj.zero]⟩

theorem not_roundTrips_twoServers :
    twoServersEntry.Counted ∧
      ¬ nsEntryMarshal.RoundTrips nsEntry.codec twoServersEntry := by
  have hcounted : twoServersEntry.Counted := by
    rintro d ⟨⟩ objs ⟨⟩
    rfl
  have hsingle : ¬ twoServersEntry.Single := by
    intro h
    rcases h _ rfl with hnull | hone
    · cases hnull
    · exact absurd hone (by decide)
  exact ⟨hcounted, fun h =>
    hsingle ((whole_iff_single hcounted).mp (Marshal.roundTrips_iff.mp h))⟩

end Lwfs.Wire
