import Lwfs.Client.StripedFile

/-!
Vectored reads: `doiov` hands the vectors of a request to `sso_io`, one after
the other, through `_sysio_enumerate_iovec`.

The offset moves on with each vector, but the position that `sso_io` compares
with the size of the file is advanced once, after the last vector. So every
vector is cut back as if it began where the request begins. `scan` says what a
request that begins within the file asks for and what it returns, without the
segments.
-/

namespace Lwfs.Client

open SysLib SysLib.Image

/-- `EINVAL`. -/
def einval : ℤ := 22

/-- `_sysio_enumerate_iovec`, over the lengths of the vectors: the offset of
the first vector, and the function to be called. -/
abbrev EnumerateIovec :=
  List UInt64 → ℕ → (UInt64 → ℕ → Routine Fault LwfsIo ℤ) →
    Routine Fault LwfsIo ℤ

/-- The function is called on the vectors in order, each at the offset where
the one before ends, up to the first call whose result is not the length of
its vector. The result is the number of bytes of all calls. Where a later call
has failed after `l` bytes, it is `failed l` of that, no more than `l`. -/
structure Enumerates (enumerate : EnumerateIovec)
    (failed : UInt64 → ℤ → ℤ) : Prop where
  nil : ∀ off f, enumerate [] off f = pure 0
  cons : ∀ l iov off f, enumerate (l :: iov) off f = f l off >>= fun cc =>
    if cc ≠ l.toNat then pure cc
    else enumerate iov (off + l.toNat) f >>= fun rest =>
      pure (if rest < 0 then failed l rest else l.toNat + rest)
  failed_le : ∀ l rest, rest < 0 → failed l rest ≤ l.toNat

/-- `dopio`, for an entry whose distributed object has been loaded. -/
def dopio (entry : NsEntry) (calls : ℕ → DoioCalls) (count : UInt64)
    (off : ℕ) : Routine Fault LwfsIo ℤ :=
  ssoIo entry calls count.toNat off

/-- `doiov`. The value of `errno` is the one that it finds after a failure. -/
def doiov (enumerate : EnumerateIovec) (errno : ℕ) (entry : NsEntry)
    (calls : ℕ → DoioCalls) (iov : List UInt64) (off : ℕ) :
    Routine Fault LwfsIo ℤ :=
  if iov.length ≤ 0 then pure (-einval)
  else do
    let cc ← enumerate iov off (dopio entry calls)
    if cc < 0 then
      return -errno
    modify fun io => { io with fpos := io.fpos + cc.toNat }
    return cc

/-! ## What a request asks for -/

/-- The sum of the lengths of some vectors. -/
def totalLength : List UInt64 → ℕ
  | [] => 0
  | l :: iov => l.toNat + totalLength iov

/-- The places of the bytes that some segments ask for. -/
def issued (segs : List Segment) : List (ℕ × ℕ) :=
  (segs.flatMap Move.cells).map Prod.fst

@[simp] theorem issued_nil : issued [] = [] := rfl

@[simp] theorem issued_append (segs segs' : List Segment) :
    issued (segs ++ segs') = issued segs ++ issued segs' := by
  simp [issued]

/-- The places of a range of a file, in order. -/
def rangePlaces (s : Stripe) (x count : ℕ) : List (ℕ × ℕ) :=
  (s.places x 0 count).map Prod.fst

@[simp] theorem length_rangePlaces (s : Stripe) (x count : ℕ) :
    (rangePlaces s x count).length = count := by
  simp [rangePlaces, Stripe.places]

theorem mem_rangePlaces {s : Stripe} {x count : ℕ} {p : ℕ × ℕ} :
    p ∈ rangePlaces s x count ↔ ∃ j < count, s.locate (x + j) = p := by
  simp [rangePlaces, Stripe.places]

theorem rangePlaces_add (s : Stripe) (x m n : ℕ) :
    rangePlaces s x (m + n) = rangePlaces s x m ++ rangePlaces s (x + m) n := by
  simp only [rangePlaces, Stripe.places_add, List.map_append]
  congr 1
  simp [Stripe.places]

theorem issued_of_cut {s : Stripe} {x count : ℕ} {segs : List Segment}
    (h : s.Cut x 0 count segs) : issued segs = rangePlaces s x count := by
  rw [issued, h.cells, rangePlaces]

/-- What a vectored read begins with: a file with the size of its chunks an
`int`, and the position and the size in its inode, which are file offsets. -/
structure ReadSession where
  file : StripedFile
  chunk_int : file.dObj.chunkSize < 2147483648
  pos : ℕ
  size : ℕ
  pos_lt : pos < 9223372036854775808
  size_lt : size < 9223372036854775808

namespace ReadSession

variable (s : ReadSession)

/-- The session that `doio` sets up. -/
def io : LwfsIo where
  lioOp := .r
  useFakeIo := false
  fpos := s.pos
  stSize := s.size
  outstanding := []
  doioCalls := 0

@[simp] theorem fpos_submit (segs : List Segment) :
    (s.io.submit segs).fpos = s.pos := rfl

@[simp] theorem stSize_submit (segs : List Segment) :
    (s.io.submit segs).stSize = s.size := rfl

@[simp] theorem outstanding_submit (segs : List Segment) :
    (s.io.submit segs).outstanding = segs := rfl

@[simp] theorem submit_submit (segs segs' : List Segment) :
    (s.io.submit segs).submit segs' = s.io.submit (segs ++ segs') := by
  simp only [LwfsIo.submit, io, List.nil_append, List.length_append,
    Nat.zero_add]

/-- The number of bytes that a vector is cut back to. -/
def cutBack (l : UInt64) : ℕ := s.io.bytesLeft l.toNat

theorem cutBack_lt (l : UInt64) : s.cutBack l < 18446744073709551616 := by
  have := l.toNat_lt
  simp only [cutBack, LwfsIo.bytesLeft]
  split
  · rw [toSize]
    omega
  · omega

/-- Within the file, a vector is cut back to what is left of the file. -/
theorem cutBack_eq {l : UInt64} (hpos : s.pos ≤ s.size)
    (hwrap : s.pos + l.toNat < 18446744073709551616) :
    s.cutBack l = min l.toNat (s.size - s.pos) := by
  have hsize := s.size_lt
  have hsum : toSize (s.pos + l.toNat) = s.pos + l.toNat := toSize_of_lt hwrap
  have hdiff : toSize (s.size - s.pos) = s.size - s.pos := by
    rw [← Int.ofNat_sub hpos]
    exact toSize_of_lt (by omega)
  simp only [cutBack, LwfsIo.bytesLeft, io, hsum, hdiff, true_and]
  split <;> omega

/-- A length that takes the sum beyond a `size_t` is not cut back. -/
theorem cutBack_of_wrap {l : UInt64} (hpos : s.pos ≤ s.size)
    (hwrap : 18446744073709551616 ≤ s.pos + l.toNat) :
    s.cutBack l = l.toNat := by
  have hl := l.toNat_lt
  have hlt := s.pos_lt
  have hsum : toSize (s.pos + l.toNat) =
      s.pos + l.toNat - 18446744073709551616 := by
    rw [toSize]
    omega
  simp only [cutBack, LwfsIo.bytesLeft, io, hsum, true_and]
  rw [if_neg (by omega)]

/-- Beyond the file, what is left of it is less than nothing, and every vector
asks for more than any file can hold. -/
theorem cutBack_beyond (l : UInt64) (hpos : s.size < s.pos) :
    0 < s.cutBack l := by
  have hl := l.toNat_lt
  have hlt := s.pos_lt
  simp only [cutBack, LwfsIo.bytesLeft, io, true_and]
  split
  · rw [toSize]
    omega
  · rw [toSize] at *
    omega

theorem cutBack_le {l : UInt64} (hpos : s.pos ≤ s.size) :
    s.cutBack l ≤ l.toNat := by
  by_cases hwrap : s.pos + l.toNat < 18446744073709551616
  · rw [s.cutBack_eq hpos hwrap]
    exact Nat.min_le_left _ _
  · exact Nat.le_of_eq (s.cutBack_of_wrap hpos (by omega))

/-- A vector that is cut back returns less than its length, also where its
result is negative. -/
theorem cutBack_eq_of_full {l : UInt64} (hpos : s.pos ≤ s.size)
    (hfull : toInt32 (s.cutBack l) = l.toNat) : s.cutBack l = l.toNat := by
  have hle := s.cutBack_le (l := l) hpos
  have hint := toInt32_le (s.cutBack l)
  omega

/-- What the vectors of a request return together, and the number of bytes
that they ask for, where the request begins within the file. -/
def scan (failed : UInt64 → ℤ → ℤ) : List UInt64 → ℤ × ℕ
  | [] => (0, 0)
  | l :: iov =>
      if toInt32 (s.cutBack l) ≠ l.toNat then
        (toInt32 (s.cutBack l), s.cutBack l)
      else
        let rest := scan failed iov
        (if rest.1 < 0 then failed l rest.1 else l.toNat + rest.1,
          l.toNat + rest.2)

variable {failed : UInt64 → ℤ → ℤ}

theorem scan_of_short {l : UInt64} (iov : List UInt64)
    (hshort : toInt32 (s.cutBack l) ≠ l.toNat) :
    s.scan failed (l :: iov) = (toInt32 (s.cutBack l), s.cutBack l) := by
  rw [scan, if_pos hshort]

theorem scan_of_full {l : UInt64} (iov : List UInt64)
    (hfull : toInt32 (s.cutBack l) = l.toNat) :
    s.scan failed (l :: iov) =
      (if (s.scan failed iov).1 < 0 then failed l (s.scan failed iov).1
        else l.toNat + (s.scan failed iov).1,
        l.toNat + (s.scan failed iov).2) := by
  rw [scan, if_neg (not_not_intro hfull)]

section

variable {enumerate : EnumerateIovec} {calls : ℕ → DoioCalls}
  (hcalls : Succeeds calls)

include hcalls

/-- One vector asks for the range of the file that it is cut back to. -/
theorem dopio_ok (hpos : s.pos ≠ s.size) (l : UInt64) (off : ℕ)
    (before : List Segment) :
    ∃ segs, dopio s.file.toNsEntry calls l off (s.io.submit before) =
        .ok (toInt32 (s.cutBack l)) (s.io.submit (before ++ segs)) ∧
      issued segs = rangePlaces s.file.layout off (s.cutBack l) := by
  have hchunk := s.chunk_int
  have hfirst : min (s.cutBack l) (s.file.layout.chunk -
      off % s.file.layout.chunk) < 2147483648 := by
    rw [s.file.layout_chunk]
    omega
  have hreal : (s.io.submit before).useFakeIo = false := rfl
  obtain ⟨segs, hrun, hcut⟩ := ssoIo_of_bytesLeft hcalls s.file hreal rfl
    (s.cutBack_lt l) hfirst (fun heof => hpos heof.2)
  refine ⟨segs, ?_, issued_of_cut hcut⟩
  rw [← s.submit_submit]
  exact hrun

/-- The vectors of a request that begins within the file ask for one range of
the file, in order. -/
theorem enumerate_eq_scan (henum : Enumerates enumerate failed)
    (hpos : s.pos < s.size) (iov : List UInt64) (off : ℕ)
    (before : List Segment) :
    ∃ segs, enumerate iov off (dopio s.file.toNsEntry calls)
        (s.io.submit before) =
        .ok (s.scan failed iov).1 (s.io.submit (before ++ segs)) ∧
      issued segs =
        rangePlaces s.file.layout off (s.scan failed iov).2 := by
  induction iov generalizing off before with
  | nil =>
      refine ⟨[], ?_, rfl⟩
      rw [henum.nil, List.append_nil]
      rfl
  | cons l iov ih =>
      obtain ⟨segs, hrun, hsegs⟩ :=
        s.dopio_ok hcalls (Nat.ne_of_lt hpos) l off before
      rw [henum.cons, Routine.bind_of_ok hrun]
      by_cases hfull : toInt32 (s.cutBack l) = l.toNat
      · -- the whole vector has been moved, and the next one follows it
        obtain ⟨segs', hrun', hsegs'⟩ :=
          ih (off + l.toNat) (before ++ segs)
        have hback := s.cutBack_eq_of_full (Nat.le_of_lt hpos) hfull
        refine ⟨segs ++ segs', ?_, ?_⟩
        · rw [s.scan_of_full iov hfull, if_neg (not_not_intro hfull),
            Routine.bind_of_ok hrun', List.append_assoc, Routine.pure_eq_ok]
          exact ⟨rfl, rfl⟩
        · rw [s.scan_of_full iov hfull, issued_append, hsegs, hsegs', hback,
            rangePlaces_add]
      · refine ⟨segs, ?_, ?_⟩
        · rw [s.scan_of_short iov hfull, if_pos hfull]
          simp only [Routine.pure_eq_ok, and_self]
        · rw [s.scan_of_short iov hfull, hsegs]

end

/-! ## What a request gets -/

/-- A vector is cut back to its length, or to what is left of the file. -/
theorem cutBack_cases (hpos : s.pos < s.size) (l : UInt64) :
    s.cutBack l = l.toNat ∨ s.cutBack l = s.size - s.pos ∧
      s.size - s.pos < l.toNat ∧ s.pos + l.toNat < 18446744073709551616 := by
  by_cases hwrap : s.pos + l.toNat < 18446744073709551616
  · rw [s.cutBack_eq (Nat.le_of_lt hpos) hwrap]
    omega
  · exact .inl (s.cutBack_of_wrap (Nat.le_of_lt hpos) (by omega))

/-- Only a request that asks for something fails. -/
theorem scan_snd_pos {iov : List UInt64} (h : (s.scan failed iov).1 < 0) :
    0 < (s.scan failed iov).2 := by
  induction iov with
  | nil =>
      rw [scan] at h
      omega
  | cons l iov ih =>
      by_cases hfull : toInt32 (s.cutBack l) = l.toNat
      · rw [s.scan_of_full iov hfull] at h ⊢
        have hrest : (s.scan failed iov).1 < 0 := by
          by_contra hnot
          simp only [if_neg hnot] at h
          omega
        have := ih hrest
        simp only
        omega
      · rw [s.scan_of_short iov hfull] at h ⊢
        simp only at h ⊢
        by_contra hnot
        have hzero : s.cutBack l = 0 := by omega
        rw [hzero, toInt32_of_lt (by decide)] at h
        omega

/-- A request returns less than `k` bytes, or asks for more. -/
def Misses (failed : UInt64 → ℤ → ℤ) (iov : List UInt64) (k : ℕ) : Prop :=
  (s.scan failed iov).1 < k ∨ k < (s.scan failed iov).2

theorem Misses.ne {iov : List UInt64} {k : ℕ} (h : s.Misses failed iov k) :
    s.scan failed iov ≠ ((k : ℤ), k) := by
  intro heq
  rw [Misses, heq] at h
  omega

theorem misses_cons_of_full
    (hfailed : ∀ l rest, rest < 0 → failed l rest ≤ l.toNat) {l : UInt64}
    {iov : List UInt64} {k : ℕ}
    (hfull : toInt32 (s.cutBack l) = l.toNat) (hle : l.toNat ≤ k)
    (h : s.Misses failed iov (k - l.toNat)) : s.Misses failed (l :: iov) k := by
  rw [Misses, s.scan_of_full iov hfull]
  simp only
  by_cases hneg : (s.scan failed iov).1 < 0
  · -- what has failed has asked for something
    have hasked := s.scan_snd_pos hneg
    have hcut := hfailed l _ hneg
    rw [if_pos hneg]
    rcases h with h | h
    · omega
    · omega
  · rw [if_neg hneg]
    rcases h with h | h
    · omega
    · omega

/-- Once a vector has been moved, what is left of the file is no more than
what the next one is cut back to. So a request for more than that either stops
early or goes beyond it. -/
theorem misses_of_lt
    (hfailed : ∀ l rest, rest < 0 → failed l rest ≤ l.toNat)
    (hpos : s.pos < s.size) {iov : List UInt64} {k : ℕ}
    (hk : k < s.size - s.pos) (h : k < totalLength iov) :
    s.Misses failed iov k := by
  induction iov generalizing k with
  | nil =>
      rw [totalLength] at h
      omega
  | cons l iov ih =>
      rw [totalLength] at h
      by_cases hfull : toInt32 (s.cutBack l) = l.toNat
      · by_cases hle : l.toNat ≤ k
        · exact s.misses_cons_of_full hfailed hfull hle
            (ih (by omega) (by omega))
        · rw [Misses, s.scan_of_full iov hfull]
          exact .inr (by simp only; omega)
      · rw [Misses, s.scan_of_short iov hfull]
        simp only
        have hint := toInt32_le (s.cutBack l)
        obtain hback | ⟨hback, -, -⟩ := s.cutBack_cases hpos l
        · omega
        · omega

/-- A request that ends within the file is carried out, if no vector is too
long for an `int`. -/
theorem scan_of_le (hpos : s.pos < s.size) {iov : List UInt64}
    (htotal : totalLength iov ≤ s.size - s.pos)
    (hlen : ∀ l ∈ iov, l.toNat < 2147483648) :
    s.scan failed iov = ((totalLength iov : ℤ), totalLength iov) := by
  induction iov with
  | nil => rfl
  | cons l iov ih =>
      rw [totalLength] at htotal
      have hl : l.toNat < 2147483648 := hlen l List.mem_cons_self
      have hback : s.cutBack l = l.toNat := by
        obtain hback | ⟨-, hlt, -⟩ := s.cutBack_cases hpos l
        · exact hback
        · omega
      have hfull : toInt32 (s.cutBack l) = l.toNat := by
        rw [hback, toInt32_of_lt hl]
      have hrest := ih (by omega)
        (fun l' hl' => hlen l' (List.mem_cons_of_mem l hl'))
      rw [s.scan_of_full iov hfull, hrest, totalLength]
      simp only
      rw [if_neg (by omega)]
      simp

theorem le_totalLength {l : UInt64} {iov : List UInt64} (h : l ∈ iov) :
    l.toNat ≤ totalLength iov := by
  induction iov with
  | nil => cases h
  | cons l' iov ih =>
      rw [totalLength]
      rcases List.mem_cons.mp h with rfl | h
      · omega
      · have := ih h
        omega

/-- A vector that is too long for an `int` ends the request early. -/
theorem scan_fst_lt
    (hfailed : ∀ l rest, rest < 0 → failed l rest ≤ l.toNat)
    (hpos : s.pos < s.size) {iov : List UInt64} {long : UInt64}
    (htotal : totalLength iov ≤ s.size - s.pos) (hmem : long ∈ iov)
    (hlong : 2147483648 ≤ long.toNat) :
    (s.scan failed iov).1 < totalLength iov := by
  induction iov with
  | nil => cases hmem
  | cons l iov ih =>
      rw [totalLength] at htotal ⊢
      have hback : s.cutBack l = l.toNat := by
        obtain hback | ⟨-, hlt, -⟩ := s.cutBack_cases hpos l
        · exact hback
        · omega
      by_cases hfull : toInt32 (s.cutBack l) = l.toNat
      · have hl : l.toNat < 2147483648 := by
          rw [hback] at hfull
          exact toInt32_eq_self.mp hfull
        have hmem : long ∈ iov := by
          rcases List.mem_cons.mp hmem with rfl | hmem
          · omega
          · exact hmem
        have hrest := ih (by omega) hmem
        have hsum := le_totalLength hmem
        rw [s.scan_of_full iov hfull]
        simp only
        split
        · have := hfailed l (s.scan failed iov).1 (by assumption)
          omega
        · omega
      · rw [s.scan_of_short iov hfull]
        simp only
        have hint := toInt32_le (s.cutBack l)
        omega

/-- The first vector that is not empty reaches beyond the end of the file, and
what is left of the file is the length of an `int`. -/
def FirstBeyond (iov : List UInt64) : Prop :=
  ∃ l, iov.find? (fun l => 0 < l.toNat) = some l ∧
    s.size - s.pos < l.toNat ∧ s.pos + l.toNat < 18446744073709551616 ∧
    s.size - s.pos < 2147483648

/-- A request that ends beyond the file gets what is left of it exactly if its
first vector takes all of it. -/
theorem scan_eq_left_iff
    (hfailed : ∀ l rest, rest < 0 → failed l rest ≤ l.toNat)
    (hpos : s.pos < s.size) {iov : List UInt64}
    (htotal : s.size - s.pos < totalLength iov) :
    s.scan failed iov = (((s.size - s.pos : ℕ) : ℤ), s.size - s.pos) ↔
      s.FirstBeyond iov := by
  induction iov with
  | nil =>
      rw [totalLength] at htotal
      omega
  | cons l iov ih =>
      rw [totalLength] at htotal
      by_cases hl : l.toNat = 0
      · -- an empty vector changes nothing
        have hback : s.cutBack l = 0 := by
          obtain hback | ⟨-, hlt, -⟩ := s.cutBack_cases hpos l
          · omega
          · omega
        have hfull : toInt32 (s.cutBack l) = l.toNat := by
          rw [hback, toInt32_of_lt (by decide), hl]
        have hfind : s.FirstBeyond (l :: iov) ↔ s.FirstBeyond iov := by
          simp [FirstBeyond, hl]
        rw [hfind, ← ih (by omega), s.scan_of_full iov hfull]
        simp only [Prod.ext_iff]
        split
        · have := hfailed l (s.scan failed iov).1 (by assumption)
          omega
        · omega
      · have hfind : s.FirstBeyond (l :: iov) ↔ s.size - s.pos < l.toNat ∧
            s.pos + l.toNat < 18446744073709551616 ∧
            s.size - s.pos < 2147483648 := by
          simp [FirstBeyond, Nat.pos_of_ne_zero hl]
        rw [hfind]
        have hint := toInt32_le (s.cutBack l)
        -- a vector that is filled is not the one that reaches the end
        by_cases hfull : toInt32 (s.cutBack l) = l.toNat
        · have hback := s.cutBack_eq_of_full (Nat.le_of_lt hpos) hfull
          apply iff_of_false
          · by_cases hle : l.toNat ≤ s.size - s.pos
            · exact (s.misses_cons_of_full hfailed hfull hle
                (s.misses_of_lt hfailed hpos (by omega) (by omega))).ne
            · rw [s.scan_of_full iov hfull]
              simp only [Prod.ext_iff]
              omega
          · rintro ⟨hlt, hwrap, -⟩
            rw [s.cutBack_eq (Nat.le_of_lt hpos) hwrap] at hback
            omega
        · rw [s.scan_of_short iov hfull]
          simp only [Prod.ext_iff]
          obtain hback | ⟨hback, hlt, hwrap⟩ := s.cutBack_cases hpos l
          · apply iff_of_false
            · rintro ⟨hfst, hsnd⟩
              apply hfull
              omega
            · rintro ⟨hlt, hwrap, -⟩
              rw [s.cutBack_eq (Nat.le_of_lt hpos) hwrap] at hback
              omega
          · rw [hback]
            constructor
            · rintro ⟨hfst, -⟩
              exact ⟨hlt, hwrap, toInt32_eq_self.mp hfst⟩
            · rintro ⟨-, -, hint⟩
              exact ⟨toInt32_eq_self.mpr hint, rfl⟩

section

variable {enumerate : EnumerateIovec} {calls : ℕ → DoioCalls}

/-- What `doiov` makes of what `_sysio_enumerate_iovec` has returned. It
leaves the segments alone. -/
theorem doiov_of_enumerate {entry : NsEntry} (errno : ℕ) {iov : List UInt64}
    {off : ℕ} {io io' : LwfsIo} {cc : ℤ} (hiov : iov ≠ [])
    (h : enumerate iov off (dopio entry calls) io = .ok cc io') :
    ∃ t, doiov enumerate errno entry calls iov off io =
        .ok (if cc < 0 then -errno else cc) t ∧
      t.outstanding = io'.outstanding := by
  have hlen : ¬ iov.length ≤ 0 := by
    intro hle
    exact hiov (List.length_eq_zero_iff.mp (Nat.le_zero.mp hle))
  rw [doiov, if_neg hlen, Routine.bind_of_ok h]
  by_cases hneg : cc < 0
  · rw [if_pos hneg, if_pos hneg]
    exact ⟨io', rfl, rfl⟩
  · rw [if_neg hneg, if_neg hneg]
    exact ⟨_, rfl, rfl⟩

theorem enumerate_of_eof (calls : ℕ → DoioCalls)
    (henum : Enumerates enumerate failed) (hpos : s.pos = s.size) (iov : List UInt64) (off : ℕ) :
    enumerate iov off (dopio s.file.toNsEntry calls) s.io = .ok 0 s.io := by
  induction iov generalizing off with
  | nil =>
      rw [henum.nil]
      rfl
  | cons l iov ih =>
      have hrun : dopio s.file.toNsEntry calls l off s.io = .ok 0 s.io :=
        ssoIo_of_eof s.file l.toNat off ⟨rfl, hpos⟩
      rw [henum.cons, Routine.bind_of_ok hrun]
      split
      · rfl
      · have hl : (l.toNat : ℤ) = 0 := by omega
        rw [Routine.bind_of_ok (ih (off + l.toNat)), if_neg (by decide), hl]
        rfl

variable (hcalls : Succeeds calls)

include hcalls

/-- The first vector is asked for, whatever comes of the others. -/
theorem exists_enumerate (henum : Enumerates enumerate failed)
    (hpos : s.pos ≠ s.size) (iov : List UInt64) (off : ℕ)
    (before : List Segment) :
    ∃ cc segs, enumerate iov off (dopio s.file.toNsEntry calls)
        (s.io.submit before) = .ok cc (s.io.submit (before ++ segs)) ∧
      ∀ l ∈ iov.head?, s.cutBack l ≤ (issued segs).length := by
  induction iov generalizing off before with
  | nil =>
      refine ⟨0, [], ?_, by simp⟩
      rw [henum.nil, List.append_nil]
      rfl
  | cons l iov ih =>
      obtain ⟨segs, hrun, hsegs⟩ := s.dopio_ok hcalls hpos l off before
      rw [henum.cons, Routine.bind_of_ok hrun]
      split
      · refine ⟨_, segs, rfl, ?_⟩
        simp [hsegs]
      · obtain ⟨cc, segs', hrun', -⟩ := ih (off + l.toNat) (before ++ segs)
        rw [Routine.bind_of_ok hrun', List.append_assoc]
        refine ⟨_, segs ++ segs', rfl, ?_⟩
        simp [hsegs]

end

/-- A vectored read asks for the bytes of its vectors as far as the file goes,
returns their number, and asks for nothing outside the file. -/
def ReadsToEnd (enumerate : EnumerateIovec) (errno : ℕ)
    (calls : ℕ → DoioCalls) (iov : List UInt64) : Prop :=
  ∃ t, doiov enumerate errno s.file.toNsEntry calls iov s.pos s.io =
      .ok ((min (totalLength iov) (s.size - s.pos) : ℕ) : ℤ) t ∧
    (issued t.outstanding).length =
      min (totalLength iov) (s.size - s.pos) ∧
    ∀ p ∈ issued t.outstanding, ∃ x < s.size, s.file.layout.locate x = p

section

variable {enumerate : EnumerateIovec} {errno : ℕ} {calls : ℕ → DoioCalls}

theorem not_readsToEnd_nil : ¬ s.ReadsToEnd enumerate errno calls [] := by
  rintro ⟨t, hrun, -⟩
  rw [doiov, if_pos (by decide), Routine.pure_eq_ok, totalLength] at hrun
  have hcode := hrun.1
  rw [einval] at hcode
  omega

theorem readsToEnd_of_eof (henum : Enumerates enumerate failed)
    {iov : List UInt64} (hiov : iov ≠ []) (hpos : s.pos = s.size) :
    s.ReadsToEnd enumerate errno calls iov := by
  obtain ⟨t, hrun, ht⟩ := doiov_of_enumerate errno hiov
    (s.enumerate_of_eof calls henum hpos iov s.pos)
  have hmin : min (totalLength iov) (s.size - s.pos) = 0 := by omega
  refine ⟨t, ?_, ?_, ?_⟩
  · rw [hmin, hrun, if_neg (by decide)]
    rfl
  · rw [hmin, ht]
    rfl
  · rw [ht]
    intro p hp
    cases hp

variable (hcalls : Succeeds calls)

include hcalls

theorem not_readsToEnd_beyond (henum : Enumerates enumerate failed)
    {iov : List UInt64} (hiov : iov ≠ []) (hpos : s.size < s.pos) :
    ¬ s.ReadsToEnd enumerate errno calls iov := by
  rintro ⟨t, hrun, hcount, -⟩
  obtain ⟨cc, segs, henumerate, hfirst⟩ := s.exists_enumerate hcalls henum
    (Nat.ne_of_gt hpos) iov s.pos []
  rw [LwfsIo.submit_nil, List.nil_append] at henumerate
  obtain ⟨t', hrun', ht'⟩ := doiov_of_enumerate errno hiov henumerate
  rw [hrun'] at hrun
  injection hrun with hcc hstate
  obtain ⟨l, rest, rfl⟩ := List.exists_cons_of_ne_nil hiov
  have hasked := hfirst l rfl
  have hpositive := s.cutBack_beyond l hpos
  rw [← hstate, ht', outstanding_submit] at hcount
  omega

/-- Within the file, a vectored read does what it should exactly if its
vectors ask for as much as is returned, and that is what is left. -/
theorem readsToEnd_iff_scan (henum : Enumerates enumerate failed)
    {iov : List UInt64} (hiov : iov ≠ []) (hpos : s.pos < s.size) :
    s.ReadsToEnd enumerate errno calls iov ↔ s.scan failed iov =
      (((min (totalLength iov) (s.size - s.pos) : ℕ) : ℤ),
        min (totalLength iov) (s.size - s.pos)) := by
  obtain ⟨segs, henumerate, hsegs⟩ :=
    s.enumerate_eq_scan hcalls henum hpos iov s.pos []
  rw [LwfsIo.submit_nil, List.nil_append] at henumerate
  obtain ⟨t, hrun, ht⟩ := doiov_of_enumerate errno hiov henumerate
  rw [outstanding_submit] at ht
  have hlength : (issued t.outstanding).length = (s.scan failed iov).2 := by
    rw [ht, hsegs, length_rangePlaces]
  constructor
  · rintro ⟨t', hrun', hcount, -⟩
    rw [hrun] at hrun'
    injection hrun' with hcc hstate
    rw [← hstate, hlength] at hcount
    apply Prod.ext
    · -- a request that has failed has asked for something
      by_cases hneg : (s.scan failed iov).1 < 0
      · have := s.scan_snd_pos hneg
        rw [if_pos hneg] at hcc
        omega
      · rwa [if_neg hneg] at hcc
    · exact hcount
  · intro hscan
    refine ⟨t, ?_, ?_, ?_⟩
    · rw [hrun, hscan]
      simp only
      rw [if_neg (by omega)]
    · rw [hlength, hscan]
    · rw [ht, hsegs, hscan]
      intro p hp
      obtain ⟨j, hj, hp⟩ := mem_rangePlaces.mp hp
      simp only at hj
      exact ⟨s.pos + j, by omega, hp⟩

/-- A vectored read stops at the end of the file exactly if it has a vector,
does not begin beyond the end, and either begins there, or ends within the
file and has no vector too long for an `int`, or has a first vector that takes
all that is left. -/
theorem readsToEnd_iff (henum : Enumerates enumerate failed)
    (iov : List UInt64) :
    s.ReadsToEnd enumerate errno calls iov ↔ iov ≠ [] ∧
      (s.pos = s.size ∨ s.pos < s.size ∧
        (totalLength iov ≤ s.size - s.pos ∧
            (∀ l ∈ iov, l.toNat < 2147483648) ∨
          s.FirstBeyond iov)) := by
  by_cases hiov : iov = []
  · rw [hiov]
    exact iff_of_false s.not_readsToEnd_nil (fun h => h.1 rfl)
  rcases Nat.lt_trichotomy s.pos s.size with hpos | hpos | hpos
  · rw [s.readsToEnd_iff_scan hcalls henum hiov hpos]
    have hne := Nat.ne_of_lt hpos
    simp only [ne_eq, hiov, not_false_eq_true, hne, hpos, true_and, false_or]
    by_cases htotal : totalLength iov ≤ s.size - s.pos
    · rw [Nat.min_eq_left htotal]
      constructor
      · intro hscan
        refine .inl ⟨htotal, ?_⟩
        intro l hl
        by_contra hlong
        have := s.scan_fst_lt henum.failed_le hpos htotal hl (by omega)
        rw [hscan] at this
        omega
      · rintro (⟨-, hlen⟩ | ⟨l, hfind, hlt, -⟩)
        · exact s.scan_of_le hpos htotal hlen
        · have := le_totalLength (List.mem_of_find?_eq_some hfind)
          omega
    · rw [Nat.min_eq_right (by omega),
        s.scan_eq_left_iff henum.failed_le hpos (by omega)]
      constructor
      · exact .inr
      · rintro (⟨hle, -⟩ | hfirst)
        · omega
        · exact hfirst
  · exact iff_of_true (s.readsToEnd_of_eof henum hiov hpos)
      ⟨hiov, .inl hpos⟩
  · apply iff_of_false (s.not_readsToEnd_beyond hcalls henum hiov hpos)
    rintro ⟨-, heq | ⟨hlt, -⟩⟩
    · omega
    · omega

end

end ReadSession

/-- An enumeration that reports a failure only if nothing has been moved before
it. -/
def enumerateIovec : EnumerateIovec
  | [], _, _ => pure 0
  | l :: iov, off, f => do
      let cc ← f l off
      if cc ≠ l.toNat then
        return cc
      let rest ← enumerateIovec iov (off + l.toNat) f
      return if rest < 0 then (if l.toNat = 0 then rest else l.toNat)
        else l.toNat + rest

theorem enumerates_enumerateIovec : Enumerates enumerateIovec
    (fun l rest => if l.toNat = 0 then rest else l.toNat) where
  nil _ _ := rfl
  cons l iov off f := by
    rw [enumerateIovec]
  failed_le l rest hrest := by
    split <;> omega

/-- A file of seven bytes, read from its beginning. -/
def sevenBytes : ReadSession where
  file := twoObjects
  chunk_int := chunkSize_twoObjects
  pos := 0
  size := 7
  pos_lt := by decide
  size_lt := by decide

/-- Each of two vectors of five bytes ends within seven bytes of where the
request begins, so neither is cut back. -/
theorem not_readsToEnd_two :
    ¬ sevenBytes.ReadsToEnd enumerateIovec 0 (fun _ => ⟨none, none⟩)
      [5, 5] := by
  have hcalls : Succeeds fun _ => ⟨none, none⟩ := fun _ => rfl
  have hpos : sevenBytes.pos < sevenBytes.size := by decide
  rw [sevenBytes.readsToEnd_iff_scan hcalls enumerates_enumerateIovec
    (by decide) hpos]
  have hmin : min (totalLength [5, 5]) (sevenBytes.size - sevenBytes.pos) =
      sevenBytes.size - sevenBytes.pos := by decide
  rw [hmin, sevenBytes.scan_eq_left_iff enumerates_enumerateIovec.failed_le hpos
    (by decide)]
  rintro ⟨l, hfind, hlt, -⟩
  have hfive : [(5 : UInt64), 5].find? (fun l => 0 < l.toNat) = some 5 := by
    decide
  rw [hfive, Option.some.injEq] at hfind
  subst hfind
  exact absurd hlt (by decide)

theorem readsToEnd_iff_one :
    sevenBytes.ReadsToEnd enumerateIovec 0 (fun _ => ⟨none, none⟩) [10] := by
  have hcalls : Succeeds fun _ => ⟨none, none⟩ := fun _ => rfl
  rw [sevenBytes.readsToEnd_iff hcalls enumerates_enumerateIovec]
  refine ⟨by decide, .inr ⟨by decide, .inr ⟨10, ?_⟩⟩⟩
  exact ⟨by decide, by decide, by decide, by decide⟩

end Lwfs.Client
