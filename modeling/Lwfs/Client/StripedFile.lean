import Lwfs.Client.Striping
import Lwfs.Lib.Run

/-!
A striped file is one array of bytes.

`sso_io` cuts a request into segments that follow the layout of the file, and
the layout does not depend on the request. So whatever was written last at a
position of the file is what a later request finds there, however the two were
cut, and in whatever order the servers carried out the segments of each.
-/

namespace Lwfs.Client

open SysLib SysLib.Image

/-- An entry whose file can be read and written: it has objects, their chunks
are not empty, and they all belong to the container of the entry. -/
structure StripedFile extends NsEntry where
  chunk_pos : 0 < dObj.chunkSize
  count_pos : 0 < dObj.ssObjCount
  cid_eq : ∀ obj ∈ dObj.ssObj, obj.cid = cid

namespace StripedFile

/-- The layout of the file. -/
def layout (f : StripedFile) : Stripe :=
  ⟨f.dObj.chunkSize, f.dObj.ssObjCount, f.chunk_pos, f.count_pos⟩

variable (f : StripedFile)

@[simp] theorem layout_chunk : f.layout.chunk = f.dObj.chunkSize := rfl

end StripedFile

/-! ## What `sso_io` submits -/

/-- Every call that `sso_doio` makes succeeds. -/
def Succeeds (calls : ℕ → DoioCalls) : Prop := ∀ n, calls n = ⟨none, none⟩

/-- The session after some segments have been submitted. -/
def LwfsIo.submit (io : LwfsIo) (segs : List Segment) : LwfsIo :=
  { io with
    outstanding := io.outstanding ++ segs
    doioCalls := io.doioCalls + segs.length }

@[simp] theorem LwfsIo.submit_nil (io : LwfsIo) : io.submit [] = io := by
  simp only [LwfsIo.submit, List.append_nil, List.length_nil, Nat.add_zero]

theorem LwfsIo.submit_cons (io : LwfsIo) (seg : Segment)
    (segs : List Segment) :
    io.submit (seg :: segs) = (io.submit [seg]).submit segs := by
  simp only [LwfsIo.submit, List.append_assoc, List.length_cons,
    List.length_nil, Nat.zero_add, List.singleton_append]
  congr 1
  omega

theorem toInt32_of_lt {n : ℕ} (h : n < 2147483648) : toInt32 n = n := by
  exact Int.bmod_eq_of_le (by omega) (by omega)

theorem bmod_le_self (n m : ℕ) : Int.bmod n m ≤ n := by
  have hmod : (n : ℤ) % m ≤ n := by
    have := Nat.mod_le n m
    omega
  rw [Int.bmod_def]
  split <;> omega

theorem bmod_eq_self {n m : ℕ} (hm : 0 < m) :
    Int.bmod n m = n ↔ n < (m + 1) / 2 := by
  have hlt : (n : ℤ) % m < m := Int.emod_lt_of_pos _ (by omega)
  rw [Int.bmod_def]
  constructor
  · split <;> omega
  · intro h
    rw [Int.emod_eq_of_lt (by omega) (by omega), if_pos (by omega)]

theorem toInt32_le (n : ℕ) : toInt32 n ≤ n := bmod_le_self n _

theorem toInt32_eq_self {n : ℕ} : toInt32 n = n ↔ n < 2147483648 := by
  have hhalf : (4294967296 + 1) / 2 = 2147483648 := by decide
  have h := bmod_eq_self (n := n) (m := 4294967296) (by decide)
  rwa [hhalf] at h

theorem toSize_of_lt {n : ℕ} (h : n < 18446744073709551616) : toSize n = n := by
  rw [toSize, Int.emod_eq_of_lt (by omega) (by omega)]
  rfl

theorem toSize_le (n : ℕ) : toSize n ≤ n := by
  rw [toSize]
  omega

/-- The first segment is what is asked for, or the rest of the chunk it begins
in if that is less. -/
theorem firstSegment_eq (f : StripedFile) {count x : ℕ}
    (hcount : min count (f.layout.chunk - x % f.layout.chunk) < 2147483648) :
    firstSegment f.dObj count x = f.layout.moveAt x 0
      (min count (f.layout.chunk - x % f.layout.chunk)) := by
  have hmod := f.layout.locate_snd_mod x
  have hsize : toSize (ssoCalcFirstBytesToIo f.dObj count (f.layout.locate x).2
      (f.layout.chunk - (f.layout.locate x).2 % f.layout.chunk)) =
      min count (f.layout.chunk - x % f.layout.chunk) := by
    rw [hmod, ssoCalcFirstBytesToIo, ← f.layout_chunk]
    by_cases hoff : 0 < (f.layout.locate x).2
    · rw [if_pos hoff]
      split
      · rw [toInt32_of_lt (by omega), toSize_of_lt (by omega)]
        omega
      · rw [toInt32_of_lt (by omega), toSize_of_lt (by omega)]
        omega
    · -- at the start of the object, a whole chunk is left
      have hzero : (f.layout.locate x).2 = 0 := by omega
      rw [hzero, Nat.zero_mod] at hmod
      rw [if_neg hoff, ← hmod]
      split
      · rw [toInt32_of_lt (by omega), toSize_of_lt (by omega)]
        omega
      · rw [toInt32_of_lt (by omega), toSize_of_lt (by omega)]
        omega
  show (⟨_, _, 0, _⟩ : Segment) = ⟨_, _, 0, _⟩
  congr 1

section

variable {calls : ℕ → DoioCalls} (hcalls : Succeeds calls)

include hcalls

theorem ssoDoio_ok {io : LwfsIo} (hreal : io.useFakeIo = false)
    (seg : Segment) (nbytes : ℕ) :
    ssoDoio calls seg nbytes io = .ok (0, seg.count) (io.submit [seg]) := by
  obtain ⟨op, fake, fpos, stSize, outstanding, n⟩ := io
  obtain rfl : fake = false := hreal
  simp only [ssoDoio, Routine.get_bind, hcalls n]
  rfl

/-- The loop of `sso_io`, entered at the start of a chunk, submits what is
left in whole chunks and one last part of a chunk. -/
theorem ssoIoLoop_ok (f : StripedFile) (left buf x nbytes : ℕ) (io : LwfsIo)
    {fuel : ℕ} (hreal : io.useFakeIo = false) (hfuel : left ≤ fuel)
    (halign : left = 0 ∨ x % f.layout.chunk = 0) :
    ∃ segs, ssoIoLoop f.dObj calls fuel left buf x nbytes io =
        .ok (toInt32 (buf + left)) (io.submit segs) ∧
      f.layout.Cut x buf left segs := by
  induction fuel generalizing left buf x nbytes io with
  | zero =>
      obtain rfl : left = 0 := by omega
      refine ⟨[], ?_, f.layout.cut_nil x buf⟩
      rw [ssoIoLoop, if_pos rfl, io.submit_nil]
      rfl
  | succ fuel ih =>
      by_cases hleft : left = 0
      · subst hleft
        refine ⟨[], ?_, f.layout.cut_nil x buf⟩
        rw [ssoIoLoop, if_pos rfl, io.submit_nil]
        rfl
      · have hx : x % f.layout.chunk = 0 := halign.resolve_left hleft
        have hpos : 0 < f.layout.chunk := f.layout.chunk_pos
        -- one turn moves a chunk, or what is left if that is less
        obtain ⟨n, hn⟩ : ∃ n, n = if left > f.dObj.chunkSize then
            f.dObj.chunkSize else left := ⟨_, rfl⟩
        have hmin : n = min left f.layout.chunk := by
          rw [hn, f.layout_chunk]
          split <;> omega
        have halign' : left - n = 0 ∨ (x + n) % f.layout.chunk = 0 := by
          by_cases hle : left ≤ f.layout.chunk
          · exact .inl (by omega)
          · obtain rfl : n = f.layout.chunk := by omega
            exact .inr (by rw [Nat.add_mod_right, hx])
        obtain ⟨segs, hrun, hcut⟩ := ih (left - n) (buf + n) (x + n) n
          (io.submit [f.layout.moveAt x buf n]) hreal (by omega) halign'
        refine ⟨f.layout.moveAt x buf n :: segs, ?_, ?_⟩
        · rw [ssoIoLoop, if_neg hleft]
          simp only [← hn]
          rw [Routine.bind_of_ok (ssoDoio_ok hcalls hreal _ nbytes)]
          have hend : buf + left = buf + n + (left - n) := by omega
          rw [if_neg (not_not_intro rfl), if_neg (Nat.lt_irrefl n), hend,
            io.submit_cons (f.layout.moveAt x buf n) segs]
          exact hrun
        · have hsum : left = n + (left - n) := by omega
          rw [hsum]
          exact f.layout.cut_cons (by omega) hcut

/-- What `sso_io` submits for the bytes that it sets out to move, where it does
not find itself at the end of the file. The length of the first segment and
the number of the bytes have to survive the conversions, and the result is an
`int`. -/
theorem ssoIo_of_bytesLeft (f : StripedFile) {count left off : ℕ}
    {io : LwfsIo} (hreal : io.useFakeIo = false)
    (hleft : io.bytesLeft count = left) (hsize : left < 18446744073709551616)
    (hfirst : min left (f.layout.chunk - off % f.layout.chunk) < 2147483648)
    (heof : ¬ (io.lioOp = .r ∧ io.fpos = io.stSize)) :
    ∃ segs, ssoIo f.toNsEntry calls count off io =
        .ok (toInt32 left) (io.submit segs) ∧
      f.layout.Cut off 0 left segs := by
  obtain ⟨n, hn⟩ : ∃ n, n = min left (f.layout.chunk - off % f.layout.chunk) :=
    ⟨_, rfl⟩
  have hmod : off % f.layout.chunk < f.layout.chunk :=
    Nat.mod_lt off f.layout.chunk_pos
  rw [ssoIo, Routine.get_bind]
  simp only [hleft, firstSegment_eq f hfirst, ← hn]
  have hindex : (f.layout.locate off).1 < f.dObj.ssObj.length :=
    f.layout.locate_fst_lt off
  have hobj : f.dObj.ssObj[(f.layout.moveAt off 0 n).store]?.map Obj.cid =
      some f.cid := by
    show f.dObj.ssObj[(f.layout.locate off).1]?.map Obj.cid = _
    rw [List.getElem?_eq_getElem hindex, Option.map_some,
      f.cid_eq _ (List.getElem_mem hindex)]
  have halign : left - n = 0 ∨ (off + n) % f.layout.chunk = 0 := by
    by_cases hle : left ≤ f.layout.chunk - off % f.layout.chunk
    · exact .inl (by omega)
    · -- the first segment ends where its chunk ends
      have hend : off + n =
          f.layout.chunk * (off / f.layout.chunk) + f.layout.chunk := by
        have := Nat.div_add_mod off f.layout.chunk
        omega
      rw [hend, Nat.add_mod_right, Nat.mul_mod_right]
      exact .inr rfl
  have hrest : toSize ((left : ℤ) - (n : ℤ)) = left - n := by
    rw [← Int.ofNat_sub (by omega)]
    exact toSize_of_lt (by omega)
  have hsum : n + (left - n) = left := by omega
  obtain ⟨segs, hrun, hcut⟩ := ssoIoLoop_ok hcalls f (left - n) n (off + n)
    n (io.submit [f.layout.moveAt off 0 n]) hreal (Nat.le_refl _) halign
  refine ⟨f.layout.moveAt off 0 n :: segs, ?_, ?_⟩
  · rw [hsum] at hrun
    rw [if_neg heof, if_neg (not_not_intro hobj),
      Routine.bind_of_ok (ssoDoio_ok hcalls hreal _ 0),
      io.submit_cons (f.layout.moveAt off 0 n) segs]
    simp only [Stripe.moveAt, hrest] at hrun ⊢
    exact hrun
  · have hbuf : f.layout.Cut (off + n) (0 + n) (left - n) segs := by
      rwa [Nat.zero_add]
    rw [← hsum]
    exact f.layout.cut_cons (by omega) hbuf

omit hcalls in
/-- A read at the end of the file asks for nothing. -/
theorem ssoIo_of_eof (f : StripedFile) (count off : ℕ) {io : LwfsIo}
    (heof : io.lioOp = .r ∧ io.fpos = io.stSize) :
    ssoIo f.toNsEntry calls count off io = .ok 0 io := by
  rw [ssoIo, Routine.get_bind]
  simp only [if_pos heof]
  rfl

/-- The segments that `sso_io` submits for a request, where a read ends within
the file. -/
theorem ssoIo_cut (f : StripedFile) {count off : ℕ} {io : LwfsIo}
    (hreal : io.useFakeIo = false) (hcount : count < 18446744073709551616)
    (hfirst : min count (f.layout.chunk - off % f.layout.chunk) < 2147483648)
    (hread : io.lioOp = .r → io.fpos + count ≤ io.stSize) :
    ∃ segs, ssoIo f.toNsEntry calls count off io =
        .ok (toInt32 count) (io.submit segs) ∧
      f.layout.Cut off 0 count segs := by
  have hleft : io.bytesLeft count = count := by
    rw [LwfsIo.bytesLeft, if_neg]
    rintro ⟨hop, hgt⟩
    have hend := hread hop
    have hwrap : toSize (io.fpos + count) ≤ io.fpos + count :=
      toSize_le (io.fpos + count)
    omega
  by_cases heof : io.lioOp = .r ∧ io.fpos = io.stSize
  · have := hread heof.1
    obtain rfl : count = 0 := by omega
    refine ⟨[], ?_, f.layout.cut_nil off 0⟩
    rw [ssoIo_of_eof f 0 off heof, io.submit_nil]
    rfl
  · exact ssoIo_of_bytesLeft hcalls f hreal hleft hcount hfirst heof

/-- What `sso_io` returns for a request whose length is an `int`. -/
theorem ssoIo_ok (f : StripedFile) {count : ℕ} (off : ℕ) (io : LwfsIo)
    (hreal : io.useFakeIo = false) (hcount : count < 2147483648)
    (hread : io.lioOp = .r → io.fpos + count ≤ io.stSize) :
    ∃ segs, ssoIo f.toNsEntry calls count off io =
        .ok count (io.submit segs) ∧
      f.layout.Cut off 0 count segs := by
  have hfirst : min count (f.layout.chunk - off % f.layout.chunk) <
      2147483648 := by omega
  have h := ssoIo_cut hcalls f hreal (by omega) hfirst hread
  rwa [toInt32_of_lt hcount] at h

end

/-! ## What the servers make of it -/

/-- The contents of the objects of a file, by their index. Different indices are
different objects, as `create_file` makes them. -/
abbrev Objects := ℕ → List UInt8

/-- One request for input or output on a file: the position in the file, the
caller's buffer, what the inode holds when the request is made, how the calls
of `sso_doio` end, and the order in which the servers carry out the segments
that have been submitted. -/
structure Transfer where
  off : ℕ
  buf : List UInt8
  fpos : ℕ
  stSize : ℕ
  calls : ℕ → DoioCalls
  order : List Segment → List Segment
  order_perm : ∀ segs, (order segs).Perm segs

namespace Transfer

/-- The session that `doio` sets up. -/
def session (t : Transfer) (op : LioOp) : LwfsIo where
  lioOp := op
  useFakeIo := false
  fpos := t.fpos
  stSize := t.stSize
  outstanding := []
  doioCalls := 0

/-- The segments that `sso_io` submits for a request, as they are carried
out. -/
def segments (t : Transfer) (f : StripedFile) (op : LioOp) : List Segment :=
  t.order ((ssoIo f.toNsEntry t.calls t.buf.length t.off).final
    (t.session op)).outstanding

/-- The objects after the buffer has been written to the file. -/
def write (f : StripedFile) (objs : Objects) (t : Transfer) : Objects :=
  (t.segments f .w).foldl (Move.put 0 t.buf) objs

/-- The buffer after the file has been read into it. -/
def read (f : StripedFile) (objs : Objects) (t : Transfer) : List UInt8 :=
  (t.segments f .r).foldl (Move.fetch 0 objs) t.buf

/-- Every call of `sso_doio` succeeds, and the length is an `int`. -/
def Ok (t : Transfer) : Prop :=
  Succeeds t.calls ∧ t.buf.length < 2147483648

/-- The segments are those of a cut of the range of the transfer, in some
order. -/
def Cuts (f : StripedFile) (op : LioOp) (t : Transfer) : Prop :=
  ∃ segs, (t.segments f op).Perm segs ∧
    f.layout.Cut t.off 0 t.buf.length segs

/-- A transfer does so where it does not reach beyond the size of the file, or
is a write. -/
theorem cuts_of_succeeds (f : StripedFile) (op : LioOp) {t : Transfer}
    (hcalls : Succeeds t.calls) (hlen : t.buf.length < 18446744073709551616)
    (hfirst : min t.buf.length (f.layout.chunk - t.off % f.layout.chunk) <
      2147483648)
    (hread : op = .r → t.fpos + t.buf.length ≤ t.stSize) : t.Cuts f op := by
  have hreal : (t.session op).useFakeIo = false := rfl
  obtain ⟨segs, hrun, hcut⟩ := ssoIo_cut hcalls f hreal hlen hfirst hread
  refine ⟨segs, ?_, hcut⟩
  rw [segments, Routine.final_of_ok hrun]
  exact t.order_perm segs

theorem Ok.cuts (f : StripedFile) (op : LioOp) {t : Transfer} (ht : t.Ok)
    (hread : op = .r → t.fpos + t.buf.length ≤ t.stSize) : t.Cuts f op := by
  obtain ⟨hcalls, hlen⟩ := ht
  exact cuts_of_succeeds f op hcalls (by omega) (by omega) hread

theorem Ok.cuts_write (f : StripedFile) {t : Transfer} (ht : t.Ok) :
    t.Cuts f .w := by
  apply ht.cuts
  intro h
  cases h

end Transfer

/-- The values last written to each position of a file by some writes. -/
def lastWritten (run : List Transfer) : ℕ → Option UInt8 :=
  Run.exec (fun file t => overlay file t.off t.buf) (fun _ => none) run

/-- The objects of a file hold what has been written to it. -/
def Holds (f : StripedFile) (objs : Objects) (file : ℕ → Option UInt8) :
    Prop :=
  ∀ x v, file x = some v → cell objs (f.layout.locate x) = some v

theorem holds_write (f : StripedFile) {objs : Objects}
    {file : ℕ → Option UInt8} {t : Transfer} (ht : t.Cuts f .w)
    (h : Holds f objs file) :
    Holds f (t.write f objs) (overlay file t.off t.buf) := by
  obtain ⟨segs, hperm, hcut⟩ := ht
  have hcells : ((t.segments f .w).flatMap Move.cells).Perm
      (f.layout.places t.off 0 t.buf.length) := by
    rw [← hcut.cells]
    exact hperm.flatMap_right _
  intro x v hx
  by_cases hin : ∃ j < t.buf.length, x = t.off + j
  · obtain ⟨j, hj, rfl⟩ := hin
    rw [overlay_inside file hj] at hx
    have hmem : (f.layout.locate (t.off + j), 0 + j) ∈
        (t.segments f .w).flatMap Move.cells :=
      hcells.mem_iff.mpr (f.layout.mem_places.mpr ⟨j, hj, rfl, rfl⟩)
    rw [Transfer.write, cell_foldl_put_of_mem 0 objs _ _ hmem, Nat.zero_add, hx]
    · exact (hcells.map Prod.fst).nodup_iff.mpr
        (f.layout.nodup_places_fst t.off 0 t.buf.length)
    · intro m hm
      have := hcut.buffer m (hperm.mem_iff.mp hm)
      omega
  · have hout : ∀ j < t.buf.length, x ≠ t.off + j := fun j hj hj' =>
      hin ⟨j, hj, hj'⟩
    rw [overlay_outside file hout] at hx
    apply cell_foldl_put_of_notMem 0 t.buf _ (h x v hx)
    intro k hk
    obtain ⟨j, hj, hp, -⟩ := f.layout.mem_places.mp (hcells.mem_iff.mp hk)
    exact hout j hj (f.layout.locate_injective hp)

theorem holds_run (f : StripedFile) {objs : Objects} {run : List Transfer}
    {file : ℕ → Option UInt8} (hrun : ∀ t ∈ run, t.Cuts f .w)
    (h : Holds f objs file) :
    Holds f (Run.exec (fun objs t => t.write f objs) objs run)
      (Run.exec (fun file t => overlay file t.off t.buf) file run) := by
  induction run generalizing objs file with
  | nil => exact h
  | cons t run ih =>
      exact ih (fun t' ht' => hrun t' (List.mem_cons_of_mem t ht'))
        (holds_write f (hrun t List.mem_cons_self) h)

/-- A read finds what the objects hold at each position of its range. -/
theorem getElem?_read (f : StripedFile) {objs : Objects}
    {file : ℕ → Option UInt8} {t : Transfer} (ht : t.Cuts f .r)
    (h : Holds f objs file) {j : ℕ} (hj : j < t.buf.length) {v : UInt8} (hv : file (t.off + j) = some v) :
    (t.read f objs)[j]? = some v := by
  obtain ⟨segs, hperm, hcut⟩ := ht
  have hcells : ((t.segments f .r).flatMap Move.cells).Perm
      (f.layout.places t.off 0 t.buf.length) := by
    rw [← hcut.cells]
    exact hperm.flatMap_right _
  apply getElem?_foldl_fetch_of_mem 0 t.buf _ _ (h _ v hv)
  · exact (hcells.map Prod.snd).nodup_iff.mpr
      (f.layout.nodup_places_snd t.off 0 t.buf.length)
  · exact hcells.mem_iff.mpr
      (f.layout.mem_places.mpr ⟨j, hj, rfl, (Nat.zero_add j).symm⟩)

/-- The segments that `sso_io` submits for a range of a striped file cover it
in order, each within one chunk, and each byte goes to the place that the
layout of the file gives its position. The layout gives no place twice, so
after any writes a read returns the value last written to each position. -/
theorem ssoIo_striped (f : StripedFile) :
    (∀ calls io count off, Succeeds calls → io.useFakeIo = false →
      count < 2147483648 → (io.lioOp = .r → io.fpos + count ≤ io.stSize) →
      ∃ segs, ssoIo f.toNsEntry calls count off io =
          .ok count (io.submit segs) ∧
        segs.flatMap Move.cells =
          (List.range count).map (fun j => (f.layout.locate (off + j), j)) ∧
        ∀ seg ∈ segs,
          seg.off % f.dObj.chunkSize + seg.count ≤ f.dObj.chunkSize) ∧
    (∀ x, f.layout.locate x = ssoCalcObjIndexOffset f.dObj x) ∧
    Function.Injective f.layout.locate ∧
    ∀ objs run, (∀ t ∈ run, t.Ok) → ∀ t : Transfer, t.Ok →
      t.fpos + t.buf.length ≤ t.stSize → ∀ j < t.buf.length, ∀ v,
      lastWritten run (t.off + j) = some v →
      (t.read f (Run.exec (fun objs t => t.write f objs) objs run))[j]? =
        some v := by
  refine ⟨?_, fun _ => rfl, f.layout.locate_injective, ?_⟩
  · intro calls io count off hcalls hreal hcount hread
    obtain ⟨segs, hrun, hcut⟩ := ssoIo_ok hcalls f off io hreal hcount hread
    refine ⟨segs, hrun, ?_, hcut.chunk⟩
    rw [hcut.cells, Stripe.places]
    apply List.map_congr_left
    intro j _
    rw [Nat.zero_add]
  · intro objs run hrun t ht hread j hj v hv
    have hempty : Holds f objs (fun _ => none) := by
      intro x v hx
      cases hx
    exact getElem?_read f (ht.cuts f .r fun _ => hread)
      (holds_run f (fun t' ht' => (hrun t' ht').cuts_write f) hempty) hj hv

/-- A file over two objects, in chunks of four bytes. -/
def twoObjects : StripedFile where
  cid := 0
  dObj := ⟨4, [Obj.zero, { Obj.zero with oid := Octets.fill uuidSize 1 }]⟩
  chunk_pos := by decide
  count_pos := by decide
  cid_eq := by decide

theorem chunkSize_twoObjects : twoObjects.dObj.chunkSize < 2147483648 := by
  decide

/-- A transfer whose segments are carried out in the order of submission. -/
def inOrder (off : ℕ) (buf : List UInt8) (size : ℕ) : Transfer where
  off := off
  buf := buf
  fpos := off
  stSize := size
  calls := fun _ => ⟨none, none⟩
  order := id
  order_perm := List.Perm.refl

theorem ssoIo_striped_twoObjects :
    (∃ segs, ssoIo twoObjects.toNsEntry (fun _ => ⟨none, none⟩) 10 3
        ((inOrder 3 (List.replicate 10 1) 0).session .w) =
        .ok 10 (((inOrder 3 (List.replicate 10 1) 0).session .w).submit segs)) ∧
    ((inOrder 2 [0, 0, 0, 0, 0] 13).read twoObjects
      (Run.exec (fun objs t => t.write twoObjects objs) (fun _ => [])
        [inOrder 3 (List.replicate 10 1) 0, inOrder 5 [2, 3] 13]))[4]? =
      some 3 := by
  obtain ⟨hsegments, -, -, hread⟩ := ssoIo_striped twoObjects
  refine ⟨?_, ?_⟩
  · obtain ⟨segs, hrun, -⟩ := hsegments (fun _ => ⟨none, none⟩)
      ((inOrder 3 (List.replicate 10 1) 0).session .w) 10 3 (fun _ => rfl) rfl
      (by decide) nofun
    exact ⟨segs, hrun⟩
  · refine hread (fun _ => []) _ ?_ _ ⟨fun _ => rfl, by decide⟩ (by decide) 4
      (by decide) 3 (by decide)
    intro t ht
    obtain rfl | rfl : t = inOrder 3 (List.replicate 10 1) 0 ∨
        t = inOrder 5 [2, 3] 13 := by
      simpa using ht
    · exact ⟨fun _ => rfl, by decide⟩
    · exact ⟨fun _ => rfl, by decide⟩

end Lwfs.Client
