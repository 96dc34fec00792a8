import Lwfs.Client.StripedFile

/-!
What the result of `sso_io` says about a request that was not carried out as a
whole.

The first call of `sso_doio` is followed by the loop whether or not it has
failed, and a failure in the loop ends the request with the code of that call.
This is a negative error for a request that could not be submitted, but a code
of the system, which is positive, for a capability that could not be had.
-/

namespace Lwfs.Client

open SysLib SysLib.Image

/-- What a call of `sso_doio` returns when it fails. -/
def DoioCalls.failure (c : DoioCalls) : Option ℤ :=
  match c.checkCapCache, c.submit with
  | some rc, _ => some rc.toInt
  | none, some _ => some (-eio)
  | none, none => none

theorem DoioCalls.failure_ne_zero {c : DoioCalls} {code : ℤ}
    (h : c.failure = some code) : code ≠ 0 := by
  obtain ⟨_ | rc, _ | rc'⟩ := c
  · cases h
  · cases h
    decide
  · cases h
    cases rc <;> decide
  · cases h
    cases rc <;> decide

/-- One of the turns of a loop over `left` bytes, in steps of `c`, is the first
to fail. -/
def FirstFailure (fail : ℕ → Option ℤ) (c left k : ℕ) (code : ℤ) : Prop :=
  k * c < left ∧ (∀ i < k, fail i = none) ∧ fail k = some code

/-- None of them fails. -/
def NoFailure (fail : ℕ → Option ℤ) (c left : ℕ) : Prop :=
  ∀ k, k * c < left → fail k = none

/-- The session after segments have been submitted, and after calls that may
have submitted nothing. -/
def LwfsIo.Extends (io' io : LwfsIo) (segs : List Segment) : Prop :=
  io'.outstanding = io.outstanding ++ segs ∧ io.doioCalls ≤ io'.doioCalls

section

variable {calls : ℕ → DoioCalls}

theorem ssoDoio_of_none {io : LwfsIo} (hreal : io.useFakeIo = false)
    (hcall : (calls io.doioCalls).failure = none) (seg : Segment)
    (nbytes : ℕ) :
    ssoDoio calls seg nbytes io = .ok (0, seg.count) (io.submit [seg]) := by
  obtain ⟨op, fake, fpos, stSize, outstanding, n⟩ := io
  obtain rfl : fake = false := hreal
  rcases hn : calls n with ⟨_ | rc, _ | rc'⟩
  · simp only [ssoDoio, Routine.get_bind, hn]
    rfl
  · simp [DoioCalls.failure, hn] at hcall
  · simp [DoioCalls.failure, hn] at hcall
  · simp [DoioCalls.failure, hn] at hcall

/-- A call that fails leaves the number of bytes as it was. -/
theorem ssoDoio_of_some {io : LwfsIo} (hreal : io.useFakeIo = false) {code : ℤ}
    (hcall : (calls io.doioCalls).failure = some code) (seg : Segment)
    (nbytes : ℕ) :
    ssoDoio calls seg nbytes io =
      .ok (code, nbytes) { io with doioCalls := io.doioCalls + 1 } := by
  obtain ⟨op, fake, fpos, stSize, outstanding, n⟩ := io
  obtain rfl : fake = false := hreal
  rcases hn : calls n with ⟨_ | rc, _ | rc'⟩
  · simp [DoioCalls.failure, hn] at hcall
  · simp only [DoioCalls.failure, hn, Option.some.injEq] at hcall
    subst hcall
    simp only [ssoDoio, Routine.get_bind, hn]
    rfl
  · simp only [DoioCalls.failure, hn, Option.some.injEq] at hcall
    subst hcall
    simp only [ssoDoio, Routine.get_bind, hn]
    rfl
  · simp only [DoioCalls.failure, hn, Option.some.injEq] at hcall
    subst hcall
    simp only [ssoDoio, Routine.get_bind, hn]
    rfl

theorem LwfsIo.extends_submit {io io' : LwfsIo} {seg : Segment}
    {segs : List Segment} (h : io'.Extends (io.submit [seg]) segs) :
    io'.Extends io (seg :: segs) := by
  obtain ⟨hout, hcalls⟩ := h
  refine ⟨?_, ?_⟩
  · rw [hout]
    simp [LwfsIo.submit]
  · simp only [LwfsIo.submit, List.length_cons, List.length_nil] at hcalls
    omega

theorem noFailure_succ {fail : ℕ → Option ℤ} {c left : ℕ}
    (hfirst : fail 0 = none)
    (h : NoFailure (fun k => fail (k + 1)) c (left - min left c)) :
    NoFailure fail c left := by
  intro k hk
  cases k with
  | zero => exact hfirst
  | succ k =>
      rw [Nat.succ_mul] at hk
      exact h k (by omega)

theorem firstFailure_succ {fail : ℕ → Option ℤ} {c left k : ℕ} {code : ℤ}
    (hfirst : fail 0 = none)
    (h : FirstFailure (fun k => fail (k + 1)) c (left - min left c) k code) :
    FirstFailure fail c left (k + 1) code := by
  obtain ⟨hk, hbefore, hcode⟩ := h
  refine ⟨?_, ?_, hcode⟩
  · rw [Nat.succ_mul]
    omega
  · intro i hi
    cases i with
    | zero => exact hfirst
    | succ i => exact hbefore i (by omega)

/-- The loop ends with the code of the first turn that fails, or with the
number of bytes. Where it is entered at the start of a chunk, the turns before
that follow the layout of the file. -/
theorem ssoIoLoop_run (calls : ℕ → DoioCalls) (f : StripedFile)
    (left buf x nbytes : ℕ) (io : LwfsIo) {fuel : ℕ} (hreal : io.useFakeIo = false)
    (hfuel : left ≤ fuel) :
    ∃ r io' segs, ssoIoLoop f.dObj calls fuel left buf x nbytes io =
        .ok r io' ∧ io'.Extends io segs ∧
      (NoFailure (fun k => (calls (io.doioCalls + k)).failure)
          f.layout.chunk left ∧ r = toInt32 (buf + left) ∧
          (left = 0 ∨ x % f.layout.chunk = 0 →
            f.layout.Cut x buf left segs) ∨
        ∃ k, FirstFailure (fun k => (calls (io.doioCalls + k)).failure)
          f.layout.chunk left k r ∧
          (left = 0 ∨ x % f.layout.chunk = 0 →
            f.layout.Cut x buf (k * f.layout.chunk) segs)) := by
  induction fuel generalizing left buf x nbytes io with
  | zero =>
      obtain rfl : left = 0 := by omega
      refine ⟨toInt32 buf, io, [], ?_, ⟨by simp, Nat.le_refl _⟩,
        .inl ⟨fun k hk => absurd hk (Nat.not_lt_zero _), rfl,
          fun _ => f.layout.cut_nil x buf⟩⟩
      rw [ssoIoLoop, if_pos rfl]
      rfl
  | succ fuel ih =>
      by_cases hleft : left = 0
      · subst hleft
        refine ⟨toInt32 buf, io, [], ?_, ⟨by simp, Nat.le_refl _⟩,
          .inl ⟨fun k hk => absurd hk (Nat.not_lt_zero _), rfl,
            fun _ => f.layout.cut_nil x buf⟩⟩
        rw [ssoIoLoop, if_pos rfl]
        rfl
      have hchunk : 0 < f.layout.chunk := f.layout.chunk_pos
      obtain ⟨n, hn⟩ : ∃ n, n = if left > f.dObj.chunkSize then
          f.dObj.chunkSize else left := ⟨_, rfl⟩
      have hmin : n = min left f.layout.chunk := by
        rw [hn, f.layout_chunk]
        split <;> omega
      rw [ssoIoLoop, if_neg hleft]
      simp only [← hn]
      cases hfirst : (calls io.doioCalls).failure with
      | some code =>
          -- the first turn fails
          refine ⟨code, { io with doioCalls := io.doioCalls + 1 }, [], ?_,
            ⟨by simp, Nat.le_succ _⟩,
            .inr ⟨0, ⟨by omega, fun i hi => absurd hi (Nat.not_lt_zero i),
              hfirst⟩, fun _ => ?_⟩⟩
          · rw [Routine.bind_of_ok (ssoDoio_of_some hreal hfirst _ nbytes),
              if_pos (DoioCalls.failure_ne_zero hfirst)]
            rfl
          · rw [Nat.zero_mul]
            exact f.layout.cut_nil x buf
      | none =>
          obtain ⟨r, io', segs, hrun, hextends, hend⟩ := ih (left - n)
            (buf + n) (x + n) n (io.submit [f.layout.moveAt x buf n]) hreal
            (by omega)
          have halign : left = 0 ∨ x % f.layout.chunk = 0 →
              left - n = 0 ∨ (x + n) % f.layout.chunk = 0 := by
            intro h
            by_cases hle : left ≤ f.layout.chunk
            · exact .inl (by omega)
            · obtain rfl : n = f.layout.chunk := by omega
              exact .inr (by rw [Nat.add_mod_right, h.resolve_left hleft])
          have hshift : (fun k => (calls ((io.submit
              [f.layout.moveAt x buf n]).doioCalls + k)).failure) =
              fun k => (calls (io.doioCalls + (k + 1))).failure := by
            funext k
            simp only [LwfsIo.submit, List.length_cons, List.length_nil,
              Nat.zero_add, Nat.add_assoc, Nat.add_comm 1 k]
          rw [hshift, hmin] at hend
          refine ⟨r, io', f.layout.moveAt x buf n :: segs, ?_,
            LwfsIo.extends_submit hextends, ?_⟩
          · rw [Routine.bind_of_ok (ssoDoio_of_none hreal hfirst _ nbytes),
              if_neg (not_not_intro rfl), if_neg (Nat.lt_irrefl n)]
            exact hrun
          rcases hend with ⟨hnone, hr, hcut⟩ | ⟨k, hfail, hcut⟩
          · refine .inl ⟨noFailure_succ hfirst hnone, ?_, ?_⟩
            · rw [hr, ← hmin]
              congr 1
              omega
            · intro h
              have hsum : left = n + (left - n) := by omega
              have hx := h.resolve_left hleft
              rw [hsum]
              rw [← hmin] at hcut
              exact f.layout.cut_cons (by omega) (hcut (halign h))
          · refine .inr ⟨k + 1, firstFailure_succ hfirst hfail, ?_⟩
            intro h
            have hx := h.resolve_left hleft
            have hwhole : n = f.layout.chunk := by
              have := hfail.1
              omega
            have hsum : (k + 1) * f.layout.chunk = n + k * f.layout.chunk := by
              rw [Nat.succ_mul, Nat.add_comm, hwhole]
            rw [hsum]
            rw [← hmin] at hcut
            exact f.layout.cut_cons (by omega) (hcut (halign h))

end

theorem FirstFailure.not_noFailure {fail : ℕ → Option ℤ} {c left k : ℕ}
    {code : ℤ} (h : FirstFailure fail c left k code) :
    ¬ NoFailure fail c left := by
  intro hnone
  have hcode := h.2.2
  rw [hnone k h.1] at hcode
  cases hcode

theorem FirstFailure.unique {fail : ℕ → Option ℤ} {c left k k' : ℕ}
    {code code' : ℤ} (h : FirstFailure fail c left k code)
    (h' : FirstFailure fail c left k' code') : k = k' ∧ code = code' := by
  obtain ⟨-, hbefore, hcode⟩ := h
  obtain ⟨-, hbefore', hcode'⟩ := h'
  rcases Nat.lt_trichotomy k k' with hlt | heq | hlt
  · rw [hbefore' k hlt] at hcode
    cases hcode
  · subst heq
    rw [hcode, Option.some.injEq] at hcode'
    exact ⟨rfl, hcode'⟩
  · rw [hbefore k' hlt] at hcode'
    cases hcode'

/-! ## Requests -/

/-- A call of `sso_io` for real input or output. The size of the chunks is an
`int`. -/
structure IoRequest where
  file : StripedFile
  chunk_int : file.dObj.chunkSize < 2147483648
  io : LwfsIo
  real : io.useFakeIo = false
  count : UInt64
  off : ℕ

namespace IoRequest

variable (q : IoRequest) (calls : ℕ → DoioCalls)

/-- A read at the end of the file. -/
def AtEof : Prop := q.io.lioOp = .r ∧ q.io.fpos = q.io.stSize

/-- The number of bytes that the request sets out to move. -/
def left : ℕ := q.io.bytesLeft q.count.toNat

/-- The length of the first segment. -/
def firstCount : ℕ :=
  min q.left (q.file.layout.chunk - q.off % q.file.layout.chunk)

/-- What the calls of `sso_doio` return where they fail. -/
def fail (k : ℕ) : Option ℤ := (calls (q.io.doioCalls + k)).failure

theorem left_lt : q.left < 18446744073709551616 := by
  have := q.count.toNat_lt
  simp only [left, LwfsIo.bytesLeft]
  split
  · rw [toSize]
    omega
  · omega

/-- Where the result is not negative, it is the number of the bytes that have
been issued, which are the first ones of the buffer, each to its place. Where
the first call fails, the result is negative. -/
def Reports : Prop :=
  ∀ r io', ssoIo q.file.toNsEntry calls q.count.toNat q.off q.io = .ok r io' →
    ∃ segs, io'.outstanding = q.io.outstanding ++ segs ∧
      (0 ≤ r → (segs.flatMap Move.cells).Perm
        (q.file.layout.places q.off 0 r.toNat)) ∧
      (q.io.doioCalls < io'.doioCalls → q.fail calls 0 ≠ none → r < 0)

variable {q calls}

/-- A request that is not at the end of the file, up to its first call. -/
theorem ssoIo_eq (heof : ¬ q.AtEof) :
    ssoIo q.file.toNsEntry calls q.count.toNat q.off q.io =
      (ssoDoio calls (q.file.layout.moveAt q.off 0 q.firstCount) 0 >>=
        fun first => ssoIoLoop q.file.dObj calls (toSize (q.left - first.2))
          (toSize (q.left - first.2)) first.2 (q.off + first.2) first.2)
        q.io := by
  have hchunk := q.chunk_int
  have hfirst : min q.left (q.file.layout.chunk -
      q.off % q.file.layout.chunk) < 2147483648 := by
    rw [q.file.layout_chunk]
    omega
  have hsegment : firstSegment q.file.dObj q.left q.off =
      q.file.layout.moveAt q.off 0 q.firstCount :=
    firstSegment_eq q.file hfirst
  have hindex : (q.file.layout.locate q.off).1 < q.file.dObj.ssObj.length :=
    q.file.layout.locate_fst_lt q.off
  have hobj : q.file.dObj.ssObj[(q.file.layout.moveAt q.off 0
      q.firstCount).store]?.map Obj.cid = some q.file.cid := by
    show q.file.dObj.ssObj[(q.file.layout.locate q.off).1]?.map Obj.cid = _
    rw [List.getElem?_eq_getElem hindex, Option.map_some,
      q.file.cid_eq _ (List.getElem_mem hindex)]
  have hleft : q.io.bytesLeft q.count.toNat = q.left := rfl
  have hnot : ¬ (q.io.lioOp = .r ∧ q.io.fpos = q.io.stSize) := heof
  rw [ssoIo, Routine.get_bind]
  simp only [hleft, hsegment]
  rw [if_neg hnot, if_neg (not_not_intro hobj)]

/-- A request whose first call succeeds follows the layout up to where it
fails. -/
theorem ssoIo_of_first_ok (heof : ¬ q.AtEof) (hfirst : q.fail calls 0 = none) :
    ∃ r io' segs, ssoIo q.file.toNsEntry calls q.count.toNat q.off q.io =
        .ok r io' ∧ io'.outstanding = q.io.outstanding ++ segs ∧
      (NoFailure (fun k => q.fail calls (k + 1)) q.file.layout.chunk
          (q.left - q.firstCount) ∧ r = toInt32 q.left ∧
          q.file.layout.Cut q.off 0 q.left segs ∨
        ∃ k, FirstFailure (fun k => q.fail calls (k + 1)) q.file.layout.chunk
          (q.left - q.firstCount) k r ∧ q.file.layout.Cut q.off 0
            (q.firstCount + k * q.file.layout.chunk) segs) := by
  have hlt := q.left_lt
  have hmod : q.off % q.file.layout.chunk < q.file.layout.chunk :=
    Nat.mod_lt _ q.file.layout.chunk_pos
  have hle : q.firstCount ≤ q.left := Nat.min_le_left _ _
  have hwithin : q.off % q.file.layout.chunk + q.firstCount ≤
      q.file.layout.chunk := by
    rw [firstCount]
    omega
  have hrest : toSize ((q.left : ℤ) - (q.firstCount : ℤ)) =
      q.left - q.firstCount := by
    rw [← Int.ofNat_sub hle]
    exact toSize_of_lt (by omega)
  -- either the first segment is all, or the next one starts a chunk
  have halign : q.left - q.firstCount = 0 ∨
      (q.off + q.firstCount) % q.file.layout.chunk = 0 := by
    by_cases hshort : q.left ≤ q.file.layout.chunk -
        q.off % q.file.layout.chunk
    · rw [firstCount, Nat.min_eq_left hshort]
      exact .inl (Nat.sub_self _)
    · have hend : q.off + q.firstCount = q.file.layout.chunk *
          (q.off / q.file.layout.chunk) + q.file.layout.chunk := by
        have := Nat.div_add_mod q.off q.file.layout.chunk
        rw [firstCount]
        omega
      rw [hend, Nat.add_mod_right, Nat.mul_mod_right]
      exact .inr rfl
  obtain ⟨r, io', segs, hrun, hextends, hend⟩ := ssoIoLoop_run calls
    q.file (q.left - q.firstCount) q.firstCount (q.off + q.firstCount)
    q.firstCount (q.io.submit [q.file.layout.moveAt q.off 0 q.firstCount])
    q.real (Nat.le_refl _)
  have hshift : (fun k => (calls ((q.io.submit
      [q.file.layout.moveAt q.off 0 q.firstCount]).doioCalls + k)).failure) =
      fun k => q.fail calls (k + 1) := by
    funext k
    simp only [fail, LwfsIo.submit, List.length_cons, List.length_nil,
      Nat.zero_add, Nat.add_assoc, Nat.add_comm 1 k]
  rw [hshift] at hend
  refine ⟨r, io', q.file.layout.moveAt q.off 0 q.firstCount :: segs, ?_,
    (LwfsIo.extends_submit hextends).1, ?_⟩
  · rw [ssoIo_eq heof,
      Routine.bind_of_ok (ssoDoio_of_none q.real hfirst _ 0)]
    simp only [Stripe.moveAt, hrest] at hrun ⊢
    exact hrun
  · have hcons : ∀ m, q.file.layout.Cut (q.off + q.firstCount) q.firstCount m
        segs → q.file.layout.Cut q.off 0 (q.firstCount + m)
          (q.file.layout.moveAt q.off 0 q.firstCount :: segs) := by
      intro m hm
      apply q.file.layout.cut_cons hwithin
      rwa [Nat.zero_add]
    have hsum : q.firstCount + (q.left - q.firstCount) = q.left := by omega
    rcases hend with ⟨hnone, hr, hcut⟩ | ⟨k, hfail, hcut⟩
    · rw [hsum] at hr
      refine .inl ⟨hnone, hr, ?_⟩
      have hwhole := hcons _ (hcut halign)
      rwa [hsum] at hwhole
    · exact .inr ⟨k, hfail, hcons _ (hcut halign)⟩

/-- A request whose first call fails goes on as if nothing had been asked for
yet. -/
theorem ssoIo_of_first_failed (heof : ¬ q.AtEof) {code : ℤ}
    (hfirst : q.fail calls 0 = some code) :
    ∃ r io' segs, ssoIo q.file.toNsEntry calls q.count.toNat q.off q.io =
        .ok r io' ∧ io'.outstanding = q.io.outstanding ++ segs ∧
      q.io.doioCalls < io'.doioCalls ∧
      (NoFailure (fun k => q.fail calls (k + 1)) q.file.layout.chunk q.left ∧
          r = toInt32 q.left ∨
        ∃ k, FirstFailure (fun k => q.fail calls (k + 1)) q.file.layout.chunk
          q.left k r) := by
  have hrest : toSize ((q.left : ℤ) - ((0 : ℕ) : ℤ)) = q.left := by
    exact toSize_of_lt q.left_lt
  obtain ⟨r, io', segs, hrun, hextends, hend⟩ := ssoIoLoop_run calls
    q.file q.left 0 (q.off + 0) 0
    { q.io with doioCalls := q.io.doioCalls + 1 } q.real (Nat.le_refl _)
  have hshift : (fun k => (calls (q.io.doioCalls + 1 + k)).failure) =
      fun k => q.fail calls (k + 1) := by
    funext k
    simp only [fail, Nat.add_assoc, Nat.add_comm 1 k]
  rw [hshift] at hend
  refine ⟨r, io', segs, ?_, hextends.1, hextends.2, ?_⟩
  · rw [ssoIo_eq heof,
      Routine.bind_of_ok (ssoDoio_of_some q.real hfirst _ 0)]
    simp only [hrest]
    exact hrun
  · rcases hend with ⟨hnone, hr, -⟩ | ⟨k, hfail, -⟩
    · rw [Nat.zero_add] at hr
      exact .inl ⟨hnone, hr⟩
    · exact .inr ⟨k, hfail⟩

/-! ## What the result says -/

/-- The bytes of a cut of `m` positions are the first `n` exactly if `n` is
`m`. -/
theorem cut_perm_iff {s : Stripe} {x m n : ℕ} {segs : List Segment}
    (h : s.Cut x 0 m segs) :
    (segs.flatMap Move.cells).Perm (s.places x 0 n) ↔ n = m := by
  rw [h.cells]
  constructor
  · intro hperm
    have hlength := hperm.length_eq
    simpa [Stripe.places] using hlength.symm
  · rintro rfl
    exact List.Perm.refl _

theorem reports_of_eof (heof : q.AtEof) : q.Reports calls := by
  intro r io' hrun
  rw [ssoIo_of_eof q.file _ _ heof] at hrun
  cases hrun
  refine ⟨[], (List.append_nil _).symm, fun _ => List.Perm.refl _, ?_⟩
  intro hlt
  exact absurd hlt (Nat.lt_irrefl _)

theorem reports_iff_of_first_ok (heof : ¬ q.AtEof)
    (hfirst : q.fail calls 0 = none) :
    q.Reports calls ↔
      NoFailure (fun k => q.fail calls (k + 1)) q.file.layout.chunk
          (q.left - q.firstCount) ∧
        (toInt32 q.left < 0 ∨ q.left < 2147483648) ∨
      ∃ k code, FirstFailure (fun k => q.fail calls (k + 1))
          q.file.layout.chunk (q.left - q.firstCount) k code ∧
        (code < 0 ∨ code =
          (q.firstCount + k * q.file.layout.chunk : ℕ)) := by
  obtain ⟨r, io', segs, hrun, hout, hend⟩ := ssoIo_of_first_ok heof hfirst
  -- the segments are determined, and the first call has not failed
  have hreports : ∀ m, q.file.layout.Cut q.off 0 m segs →
      (q.Reports calls ↔ (r < 0 ∨ r = (m : ℕ))) := by
    intro m hcut
    constructor
    · intro hall
      obtain ⟨segs', hout', hissued, -⟩ := hall r io' hrun
      rw [hout, List.append_cancel_left_eq] at hout'
      subst hout'
      by_cases hneg : r < 0
      · exact .inl hneg
      · have hm := (cut_perm_iff hcut).mp (hissued (by omega))
        exact .inr (by omega)
    · intro hr r' io'' hrun'
      rw [hrun] at hrun'
      cases hrun'
      refine ⟨segs, hout, ?_, fun _ hfail => absurd hfirst hfail⟩
      intro hnonneg
      apply (cut_perm_iff hcut).mpr
      rcases hr with hr | hr
      · omega
      · omega
  rcases hend with ⟨hnone, hr, hcut⟩ | ⟨k, hfail, hcut⟩
  · rw [hreports _ hcut, hr, toInt32_eq_self]
    constructor
    · exact fun h => .inl ⟨hnone, h⟩
    · rintro (⟨-, h⟩ | ⟨k, code, hfail, -⟩)
      · exact h
      · exact absurd hnone hfail.not_noFailure
  · rw [hreports _ hcut]
    constructor
    · exact fun h => .inr ⟨k, r, hfail, h⟩
    · rintro (⟨hnone, -⟩ | ⟨k', code, hfail', h⟩)
      · exact absurd hnone hfail.not_noFailure
      · obtain ⟨rfl, rfl⟩ := hfail.unique hfail'
        exact h

theorem reports_iff_of_first_failed (heof : ¬ q.AtEof) {code : ℤ}
    (hfirst : q.fail calls 0 = some code) :
    q.Reports calls ↔
      NoFailure (fun k => q.fail calls (k + 1)) q.file.layout.chunk q.left ∧
        toInt32 q.left < 0 ∨
      ∃ k code, FirstFailure (fun k => q.fail calls (k + 1))
          q.file.layout.chunk q.left k code ∧ code < 0 := by
  obtain ⟨r, io', segs, hrun, hout, hcalls, hend⟩ :=
    ssoIo_of_first_failed heof hfirst
  have hreports : q.Reports calls ↔ r < 0 := by
    constructor
    · intro hall
      obtain ⟨segs', -, -, hneg⟩ := hall r io' hrun
      exact hneg hcalls (by rw [hfirst]; exact Option.some_ne_none code)
    · intro hneg r' io'' hrun'
      rw [hrun] at hrun'
      cases hrun'
      exact ⟨segs, hout, fun hnonneg => absurd hneg (by omega),
        fun _ _ => hneg⟩
  rw [hreports]
  rcases hend with ⟨hnone, hr⟩ | ⟨k, hfail⟩
  · rw [hr]
    constructor
    · exact fun h => .inl ⟨hnone, h⟩
    · rintro (⟨-, h⟩ | ⟨k, code, hfail, -⟩)
      · exact h
      · exact absurd hnone hfail.not_noFailure
  · constructor
    · exact fun h => .inr ⟨k, r, hfail, h⟩
    · rintro (⟨hnone, -⟩ | ⟨k', code, hfail', h⟩)
      · exact absurd hnone hfail.not_noFailure
      · obtain ⟨rfl, rfl⟩ := hfail.unique hfail'
        exact h

variable (q calls)

/-- The first call succeeds. Either none of the others fails, and the number
of bytes is that of an `int` or is negative as one, or the first that fails
returns a negative error, or a code that happens to be the number of the bytes
before. -/
def FirstSucceeds : Prop :=
  q.fail calls 0 = none ∧
    (NoFailure (fun k => q.fail calls (k + 1)) q.file.layout.chunk
        (q.left - q.firstCount) ∧
        (toInt32 q.left < 0 ∨ q.left < 2147483648) ∨
      ∃ k code, FirstFailure (fun k => q.fail calls (k + 1))
          q.file.layout.chunk (q.left - q.firstCount) k code ∧
        (code < 0 ∨ code = (q.firstCount + k * q.file.layout.chunk : ℕ)))

/-- The first call fails. Either none of the others does, and the number of
bytes is negative as an `int`, or the first that does returns a negative
error. -/
def FirstFails : Prop :=
  q.fail calls 0 ≠ none ∧
    (NoFailure (fun k => q.fail calls (k + 1)) q.file.layout.chunk q.left ∧
        toInt32 q.left < 0 ∨
      ∃ k code, FirstFailure (fun k => q.fail calls (k + 1))
          q.file.layout.chunk q.left k code ∧ code < 0)

/-- The result of `sso_io` says what has been issued exactly if it is at the
end of the file, or the calls end in one of the ways that `FirstSucceeds` and
`FirstFails` list. -/
theorem reports_iff :
    q.Reports calls ↔
      q.AtEof ∨ q.FirstSucceeds calls ∨ q.FirstFails calls := by
  by_cases heof : q.AtEof
  · exact iff_of_true (reports_of_eof heof) (.inl heof)
  · cases hfirst : q.fail calls 0 with
    | none =>
        rw [reports_iff_of_first_ok heof hfirst]
        simp only [heof, FirstSucceeds, FirstFails, hfirst, false_or, true_and,
          ne_eq, not_true, false_and, or_false]
    | some code =>
        have hne : some code ≠ none := Option.some_ne_none code
        rw [reports_iff_of_first_failed heof hfirst]
        simp only [heof, FirstSucceeds, FirstFails, hfirst, false_or, hne,
          false_and, ne_eq, not_false_eq_true, true_and]

/-- Ten bytes written from position 3 on, over chunks of four. -/
def tenBytes : IoRequest where
  file := twoObjects
  chunk_int := chunkSize_twoObjects
  io := ⟨.w, false, 3, 0, [], 0⟩
  real := rfl
  count := 10
  off := 3

/-- One byte has been issued when a capability is refused, but the result is
the code of the refusal, which is nine. -/
theorem not_reports_tenBytes :
    ¬ tenBytes.Reports fun n => ⟨if n = 1 then some .errNoent else none,
      none⟩ := by
  have heof : ¬ tenBytes.AtEof := by
    rintro ⟨h, -⟩
    cases h
  rw [reports_iff_of_first_ok heof (by rfl)]
  have hfirst : FirstFailure (fun k => tenBytes.fail (fun n =>
        ⟨if n = 1 then some .errNoent else none, none⟩) (k + 1))
      tenBytes.file.layout.chunk (tenBytes.left - tenBytes.firstCount) 0 9 :=
    ⟨by decide, fun i hi => absurd hi (Nat.not_lt_zero i), by rfl⟩
  rintro (⟨hnone, -⟩ | ⟨k, code, hfail, hcode⟩)
  · exact hfirst.not_noFailure hnone
  · obtain ⟨rfl, rfl⟩ := hfirst.unique hfail
    revert hcode
    decide

end IoRequest

end Lwfs.Client
