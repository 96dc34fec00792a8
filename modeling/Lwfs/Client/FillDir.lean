import Lwfs.Client.StripedFile
import Lwfs.Lib.Bytes
import Lwfs.Naming.Server

/-!
`lwfs_filldirentries`, which fills a buffer with the records of a directory.

Whether the next record has room is tested by `bytes_left - LWFS_D_RECLEN(..)
< 0`, and the length of a record is a `size_t`, so the difference is never
negative and the loop goes on to the last entry. The records of a directory
stay inside the buffer when all that are left fit into it, and then one call
returns them (`readsDir_iff`).
-/

namespace Lwfs.FsLwfs

open SysLib Naming
open Client (toInt32 toInt32_of_lt)

/-- Where `d_name` stands in `struct intnl_dirent`. A few integers stand before
it. -/
structure DirentLayout where
  dNameOff : ℕ
  small : dNameOff < 256

/-- An entry of a listing, whose array holds the zero behind the name as
well. -/
structure ListedEntry extends NsEntry where
  short : name.length < nameLen

/-- The record of an entry. -/
structure IntnlDirent where
  dIno : UInt64
  dOff : ℕ
  dReclen : UInt16
  dType : UInt8
  dName : Name
  deriving DecidableEq

def dtUnknown : UInt8 := 0
def dtDir : UInt8 := 4
def dtReg : UInt8 := 8
def dtLnk : UInt8 := 10

/-- `LWFS_FILE_OBJ`. -/
def fileObjType : Int32 := 4

/-- `UUID_TO_INODE`: the exclusive or of the two halves. -/
def uuidToInode (u : Uuid) : UInt64 :=
  UInt64.ofNat (Bytes.toNat (u.bytes.take 8)) ^^^
    UInt64.ofNat (Bytes.toNat (u.bytes.drop 8))

section Calls

variable (layout : DirentLayout)

/-- `LWFS_D_RECLEN`, with pointers of eight bytes. -/
def lwfsDReclen (namlen : ℕ) : ℕ := (layout.dNameOff + namlen + 1 + 8) / 8 * 8

/-- `lwfs_dirent_filler`, and the assignment of `d_off` after it. -/
def lwfsDirentFiller (e : ListedEntry) (pos : ℕ) : IntnlDirent where
  dIno := uuidToInode e.inodeOid
  dOff := pos
  dReclen := UInt16.ofNat (lwfsDReclen layout e.name.length)
  dType :=
    if e.entryObj.type = dirEntry then dtDir
    else if e.entryObj.type = fileEntry then dtReg
    else if e.entryObj.type = fileObjType then dtReg
    else if e.entryObj.type = linkEntry then dtLnk
    else dtUnknown
  dName := e.name

/-- The variables of the loop. The field `dEntry` is the distance of the
pointer from the buffer, and `records` has what has been written, each record
with the place it stands at. -/
structure FillState where
  pos : ℕ
  dEntry : ℕ
  cc : Int32
  bytesLeft : Int32
  records : List (ℕ × IntnlDirent)
  deriving DecidableEq

/-- An `int` as an operand of an operation on `size_t`. -/
def intToSize (n : Int32) : UInt64 := n.toInt64.toUInt64

/-- One turn of the loop that is not broken off. -/
def FillState.fill (s : FillState) (e : ListedEntry) : FillState :=
  let dirent := lwfsDirentFiller layout e (s.pos + 1)
  let n := Int32.ofNat dirent.dReclen.toNat
  { pos := s.pos + 1
    dEntry := s.dEntry + dirent.dReclen.toNat
    cc := s.cc + n
    bytesLeft := s.bytesLeft - n
    records := s.records ++ [(s.dEntry, dirent)] }

/-- The loop of `lwfs_filldirentries` over the entries that are left. -/
def fillLoop : List ListedEntry → FillState → FillState
  | [], s => s
  | e :: entries, s =>
      let reclen := UInt64.ofNat (lwfsDReclen layout e.name.length)
      -- the comparison is one of `size_t`, and never true
      if intToSize s.bytesLeft - reclen < 0 then s
      else fillLoop entries (s.fill layout e)

/-- `EBADF`. -/
def ebadf : ℤ := 9

/-- What `check_cap_cache` and `lwfs_list_dir_sync` leave. -/
structure FillCalls where
  checkCapCache : Option ReturnCode
  listDir : Except ReturnCode (List ListedEntry)

/-- `lwfs_filldirentries`: its result, and the variables after the loop. -/
def lwfsFilldirentries (calls : FillCalls) (pos nbytes : ℕ) :
    Except Fault (ℤ × FillState) :=
  let s : FillState := ⟨pos, 0, 0, Int32.ofNat nbytes, []⟩
  match calls.checkCapCache with
  | some rc => .ok (rc.toInt, s)
  | none =>
      match calls.listDir with
      | .error _ => .ok (-ebadf, s)
      | .ok listing =>
          let startingIndex := toInt32 pos
          let entriesFound := toInt32 listing.length
          if startingIndex < 0 ∧ startingIndex < entriesFound then
            .error .badPointer
          else
            let s := fillLoop layout ((listing.take entriesFound.toNat).drop
              startingIndex.toNat) s
            .ok (s.cc.toInt, s)

/-! ### What one call leaves -/

/-- The length of the records of some entries. -/
def totalReclen : List ListedEntry → ℕ
  | [] => 0
  | e :: entries => lwfsDReclen layout e.name.length + totalReclen entries

/-- The records of the entries from a position of the listing on. -/
def direntsFrom (pos : ℕ) : List ListedEntry → List IntnlDirent
  | [] => []
  | e :: entries =>
      lwfsDirentFiller layout e (pos + 1) :: direntsFrom (pos + 1) entries

theorem toNat_dReclen (e : ListedEntry) (pos : ℕ) :
    (lwfsDirentFiller layout e pos).dReclen.toNat =
      lwfsDReclen layout e.name.length := by
  have hsmall := layout.small
  have hshort : e.name.length < 64 := e.short
  have hlt : lwfsDReclen layout e.name.length < 65536 := by
    unfold lwfsDReclen
    omega
  exact UInt16.toNat_ofNat_of_lt' hlt

theorem lwfsDReclen_pos (namlen : ℕ) : 8 ≤ lwfsDReclen layout namlen := by
  unfold lwfsDReclen
  omega

theorem length_le_totalReclen (entries : List ListedEntry) :
    entries.length ≤ totalReclen layout entries := by
  induction entries with
  | nil => exact Nat.le_refl 0
  | cons e entries ih =>
      have hpos := lwfsDReclen_pos layout e.name.length
      rw [List.length_cons, totalReclen]
      omega

@[simp] theorem length_direntsFrom (pos : ℕ) (entries : List ListedEntry) :
    (direntsFrom layout pos entries).length = entries.length := by
  induction entries generalizing pos with
  | nil => rfl
  | cons e entries ih => simp [direntsFrom, ih]

section Fill

variable (s : FillState) (e : ListedEntry)

@[simp] theorem fill_pos : (s.fill layout e).pos = s.pos + 1 := rfl

@[simp] theorem fill_dEntry : (s.fill layout e).dEntry =
    s.dEntry + lwfsDReclen layout e.name.length := by
  rw [← toNat_dReclen layout e (s.pos + 1)]
  rfl

@[simp] theorem fill_cc : (s.fill layout e).cc =
    s.cc + Int32.ofNat (lwfsDReclen layout e.name.length) := by
  rw [← toNat_dReclen layout e (s.pos + 1)]
  rfl

@[simp] theorem fill_records : (s.fill layout e).records =
    s.records ++ [(s.dEntry, lwfsDirentFiller layout e (s.pos + 1))] := rfl

end Fill

/-- No entry is left out, whatever is left of the buffer. -/
theorem fillLoop_spec (entries : List ListedEntry) (s : FillState) :
    let t := fillLoop layout entries s
    t.pos = s.pos + entries.length ∧
      t.dEntry = s.dEntry + totalReclen layout entries ∧
      t.cc = s.cc + Int32.ofNat (totalReclen layout entries) ∧
      t.records.map Prod.snd =
        s.records.map Prod.snd ++ direntsFrom layout s.pos entries := by
  induction entries generalizing s with
  | nil => simp [fillLoop, totalReclen, direntsFrom]
  | cons e entries ih =>
      have hnever : ¬ intToSize s.bytesLeft -
          UInt64.ofNat (lwfsDReclen layout e.name.length) < 0 := by
        simp
      obtain ⟨hpos, hentry, hcc, hrecords⟩ := ih (s.fill layout e)
      rw [fillLoop, if_neg hnever]
      refine ⟨?_, ?_, ?_, ?_⟩
      · rw [hpos, fill_pos, List.length_cons]
        omega
      · rw [hentry, fill_dEntry, totalReclen]
        omega
      · rw [hcc, fill_cc, totalReclen, Int32.ofNat_add, Int32.add_assoc]
      · rw [hrecords]
        simp [direntsFrom]

/-- One call, for the listing of a directory and a position in it. -/
def fillFrom (listing : List ListedEntry) (pos nbytes : ℕ) :
    Except Fault (ℤ × FillState) :=
  lwfsFilldirentries layout ⟨none, .ok listing⟩ pos nbytes

/-- How many entries of a listing a call looks at. -/
def entriesSeen (listing : List ListedEntry) : List ListedEntry :=
  listing.take (toInt32 listing.length).toNat

/-- The value that a sum of record lengths has in `cc`. -/
theorem toInt_cc {n : ℕ} :
    (Int32.ofNat n).toInt = n ↔ n < 2147483648 := by
  constructor
  · intro h
    have hlt := (Int32.ofNat n).toInt_lt
    omega
  · intro h
    exact Int32.toInt_ofNat_of_lt h

theorem fillFrom_spec (listing : List ListedEntry) (pos : ℕ)
    (hpos : pos < 2147483648) (nbytes : ℕ) :
    ∃ s, fillFrom layout listing pos nbytes = .ok (s.cc.toInt, s) ∧
      s.pos = pos + ((entriesSeen listing).drop pos).length ∧
      s.dEntry = totalReclen layout ((entriesSeen listing).drop pos) ∧
      s.cc = Int32.ofNat (totalReclen layout ((entriesSeen listing).drop pos)) ∧
      s.records.map Prod.snd =
        direntsFrom layout pos ((entriesSeen listing).drop pos) := by
  have hstart : toInt32 pos = pos := toInt32_of_lt hpos
  have hvalid : ¬ ((pos : ℤ) < 0 ∧ (pos : ℤ) < toInt32 listing.length) := by
    omega
  have hcall : fillFrom layout listing pos nbytes =
      .ok ((fillLoop layout ((entriesSeen listing).drop pos)
          ⟨pos, 0, 0, Int32.ofNat nbytes, []⟩).cc.toInt,
        fillLoop layout ((entriesSeen listing).drop pos)
          ⟨pos, 0, 0, Int32.ofNat nbytes, []⟩) := by
    simp only [fillFrom, lwfsFilldirentries, hstart, if_neg hvalid,
      entriesSeen, Int.toNat_natCast]
  obtain ⟨h1, h2, h3, h4⟩ := fillLoop_spec layout
    ((entriesSeen listing).drop pos) ⟨pos, 0, 0, Int32.ofNat nbytes, []⟩
  exact ⟨_, hcall, h1, by simpa using h2, by simpa using h3, by simpa using h4⟩

/-! ### Reading a directory -/

/-- The position that a call leaves. -/
def posAfter (r : Except Fault (ℤ × FillState)) (pos : ℕ) : ℕ :=
  match r with
  | .ok (_, s) => s.pos
  | .error _ => pos

/-- The position before each of the calls that read a directory from its
beginning, with buffers of the given sizes. -/
def position (listing : List ListedEntry) (sizes : ℕ → ℕ) : ℕ → ℕ
  | 0 => 0
  | k + 1 =>
      let pos := position listing sizes k
      posAfter (fillFrom layout listing pos (sizes k)) pos

def reading (listing : List ListedEntry) (sizes : ℕ → ℕ) (k : ℕ) :
    Except Fault (ℤ × FillState) :=
  fillFrom layout listing (position layout listing sizes k) (sizes k)

/-- The records that a call has delivered. -/
def delivered (r : Except Fault (ℤ × FillState)) : List IntnlDirent :=
  match r with
  | .ok (_, s) => s.records.map Prod.snd
  | .error _ => []

/-- A call that has written no more than the buffer holds and returns how much
it has written. -/
def Bounded (r : Except Fault (ℤ × FillState)) (nbytes : ℕ) : Prop :=
  ∃ cc s, r = .ok (cc, s) ∧ s.dEntry ≤ nbytes ∧ cc = s.dEntry

/-- Each call stays in its buffer, and the calls deliver the records of the
listing in its order, each once, and then nothing. -/
structure ReadsDir (listing : List ListedEntry) (sizes : ℕ → ℕ) : Prop where
  bounded : ∀ k, Bounded (reading layout listing sizes k) (sizes k)
  enumerates : ∃ calls,
    (∀ k < calls, ∃ cc s, reading layout listing sizes k = .ok (cc, s) ∧
      0 < cc) ∧
    (List.range calls).flatMap
        (fun k => delivered (reading layout listing sizes k)) =
      direntsFrom layout 0 listing ∧
    ∀ k, calls ≤ k → ∃ s, reading layout listing sizes k = .ok (0, s) ∧
      s.records = []

theorem length_entriesSeen (listing : List ListedEntry) :
    (entriesSeen listing).length < 2147483648 ∧
      (listing.length < 2147483648 → entriesSeen listing = listing) ∧
      (2147483648 ≤ listing.length →
        (entriesSeen listing).length < listing.length) := by
  have hlow := Int.le_bmod (x := listing.length) (m := 4294967296) (by decide)
  have hhigh := Int.bmod_lt (x := listing.length) (m := 4294967296) (by decide)
  have hfound : toInt32 listing.length < 2147483648 := by
    unfold toInt32
    omega
  refine ⟨?_, ?_, ?_⟩
  · rw [entriesSeen, List.length_take]
    omega
  · intro h
    rw [entriesSeen, toInt32_of_lt h]
    simp
  · intro h
    rw [entriesSeen, List.length_take]
    omega

theorem position_zero (listing : List ListedEntry) (sizes : ℕ → ℕ) :
    position layout listing sizes 0 = 0 := by
  rw [position]

theorem position_of_fillFrom {listing : List ListedEntry} {sizes : ℕ → ℕ}
    {k pos : ℕ} {cc : ℤ} {s : FillState}
    (hpos : position layout listing sizes k = pos)
    (h : fillFrom layout listing pos (sizes k) = .ok (cc, s)) :
    position layout listing sizes (k + 1) = s.pos := by
  subst hpos
  rw [position, h, posAfter]

/-- After the first call every call stands behind the last entry seen. -/
theorem position_succ (listing : List ListedEntry) (sizes : ℕ → ℕ) (k : ℕ) :
    position layout listing sizes (k + 1) = (entriesSeen listing).length := by
  obtain ⟨hsmall, -, -⟩ := length_entriesSeen listing
  induction k with
  | zero =>
      obtain ⟨s, hcall, hpos, -⟩ :=
        fillFrom_spec layout listing 0 (by decide) (sizes 0)
      rw [position_of_fillFrom layout (position_zero layout listing sizes)
        hcall, hpos, List.drop_zero, Nat.zero_add]
  | succ k ih =>
      obtain ⟨s, hcall, hpos, -⟩ := fillFrom_spec layout listing
        (entriesSeen listing).length hsmall (sizes (k + 1))
      rw [position_of_fillFrom layout ih hcall, hpos, List.drop_length,
        List.length_nil, Nat.add_zero]

theorem reading_zero (listing : List ListedEntry) (sizes : ℕ → ℕ) :
    ∃ s, reading layout listing sizes 0 = .ok (s.cc.toInt, s) ∧
      s.dEntry = totalReclen layout (entriesSeen listing) ∧
      s.cc = Int32.ofNat (totalReclen layout (entriesSeen listing)) ∧
      s.records.map Prod.snd = direntsFrom layout 0 (entriesSeen listing) := by
  obtain ⟨s, hcall, -, hentry, hcc, hrecords⟩ :=
    fillFrom_spec layout listing 0 (by decide) (sizes 0)
  rw [List.drop_zero] at hentry hcc hrecords
  refine ⟨s, ?_, hentry, hcc, hrecords⟩
  rw [reading, position_zero, hcall]

theorem reading_succ (listing : List ListedEntry) (sizes : ℕ → ℕ) (k : ℕ) :
    ∃ s, reading layout listing sizes (k + 1) = .ok (0, s) ∧
      s.dEntry = 0 ∧ s.records = [] := by
  obtain ⟨hsmall, -, -⟩ := length_entriesSeen listing
  obtain ⟨s, hcall, -, hentry, hcc, hrecords⟩ :=
    fillFrom_spec layout listing (entriesSeen listing).length
      hsmall (sizes (k + 1))
  rw [List.drop_length] at hentry hcc hrecords
  have hzero : s.cc.toInt = 0 := by
    rw [hcc]
    rfl
  refine ⟨s, ?_, hentry, List.map_eq_nil_iff.mp hrecords⟩
  rw [reading, position_succ, hcall, hzero]

theorem delivered_reading_succ (listing : List ListedEntry) (sizes : ℕ → ℕ)
    (k : ℕ) : delivered (reading layout listing sizes (k + 1)) = [] := by
  obtain ⟨s, hcall, -, hrecords⟩ := reading_succ layout listing sizes k
  rw [hcall, delivered, hrecords]
  rfl

/-- Whatever the number of calls, only the first delivers records. -/
theorem flatMap_delivered (listing : List ListedEntry) (sizes : ℕ → ℕ)
    (calls : ℕ) :
    (List.range (calls + 1)).flatMap
        (fun k => delivered (reading layout listing sizes k)) =
      direntsFrom layout 0 (entriesSeen listing) := by
  obtain ⟨s, hcall, -, -, hrecords⟩ := reading_zero layout listing sizes
  have hfirst : delivered (reading layout listing sizes 0) =
      direntsFrom layout 0 (entriesSeen listing) := by
    rw [hcall]
    exact hrecords
  have hrest : ((List.range calls).map Nat.succ).flatMap
      (fun k => delivered (reading layout listing sizes k)) = [] := by
    rw [List.flatMap_eq_nil_iff]
    intro k hk
    obtain ⟨k', -, rfl⟩ := List.mem_map.mp hk
    exact delivered_reading_succ layout listing sizes k'
  rw [List.range_succ_eq_map, List.flatMap_cons, hrest, hfirst,
    List.append_nil]

/-- A call stays in its buffer exactly if the records from its position on
fit, and their length is an `int`. -/
theorem bounded_iff {listing : List ListedEntry}
    (hlen : listing.length < 2147483648) (pos : ℕ)
    (hpos : pos < 2147483648) (nbytes : ℕ) :
    Bounded (fillFrom layout listing pos nbytes) nbytes ↔
      totalReclen layout (listing.drop pos) ≤ nbytes ∧
        totalReclen layout (listing.drop pos) < 2147483648 := by
  obtain ⟨-, hseen, -⟩ := length_entriesSeen listing
  obtain ⟨s, hcall, -, hentry, hcc, -⟩ :=
    fillFrom_spec layout listing pos hpos nbytes
  rw [hseen hlen] at hentry hcc
  rw [hcall]
  constructor
  · rintro ⟨cc, s', heq, hbound, hret⟩
    cases heq
    rw [hcc, hentry, toInt_cc] at hret
    exact ⟨hentry ▸ hbound, hret⟩
  · rintro ⟨hbound, hint⟩
    refine ⟨_, s, rfl, hentry ▸ hbound, ?_⟩
    rw [hcc, hentry]
    exact toInt_cc.mpr hint

theorem readsDir_iff_of_total (listing : List ListedEntry) (sizes : ℕ → ℕ) :
    ReadsDir layout listing sizes ↔
      totalReclen layout listing ≤ sizes 0 ∧
        totalReclen layout listing < 2147483648 := by
  obtain ⟨hsmall, hseen, hunseen⟩ := length_entriesSeen listing
  constructor
  · intro h
    obtain ⟨calls, -, hall, -⟩ := h.enumerates
    -- the first call sees the whole listing, so it is its buffer that counts
    cases calls with
    | zero =>
        have hnil : listing.length = 0 := by
          rw [← length_direntsFrom layout 0 listing, ← hall]
          rfl
        rw [List.length_eq_zero_iff.mp hnil]
        exact ⟨Nat.zero_le _, by simp [totalReclen]⟩
    | succ calls =>
        rw [flatMap_delivered] at hall
        have hlength := congrArg List.length hall
        rw [length_direntsFrom, length_direntsFrom] at hlength
        have hlen : listing.length < 2147483648 := by omega
        exact (bounded_iff layout hlen 0 (by omega) _).mp (h.bounded 0)
  · rintro ⟨hfits, hint⟩
    have hlength := length_le_totalReclen layout listing
    have hlen : listing.length < 2147483648 := by omega
    refine ⟨?_, ?_⟩
    · intro k
      cases k with
      | zero =>
          exact (bounded_iff layout hlen 0 (by omega) _).mpr
            ⟨hfits, hint⟩
      | succ k =>
          obtain ⟨s, hcall, hentry, -⟩ := reading_succ layout listing sizes k
          exact ⟨0, s, hcall, by omega, by rw [hentry]; rfl⟩
    · cases listing with
      | nil =>
          refine ⟨0, by simp, rfl, ?_⟩
          intro k _
          cases k with
          | zero =>
              obtain ⟨s, hcall, -, hcc, hrecords⟩ :=
                reading_zero layout [] sizes
              have hzero : s.cc.toInt = 0 := by
                rw [hcc]
                rfl
              exact ⟨s, by rw [hcall, hzero], List.map_eq_nil_iff.mp hrecords⟩
          | succ k =>
              obtain ⟨s, hcall, -, hrecords⟩ := reading_succ layout [] sizes k
              exact ⟨s, hcall, hrecords⟩
      | cons e entries =>
          refine ⟨1, ?_, ?_, ?_⟩
          · intro k hk
            obtain rfl : k = 0 := by omega
            obtain ⟨s, hcall, -, hcc, -⟩ :=
              reading_zero layout (e :: entries) sizes
            rw [hseen hlen] at hcc
            refine ⟨_, s, hcall, ?_⟩
            have hpos := lwfsDReclen_pos layout e.name.length
            rw [hcc, toInt_cc.mpr hint, totalReclen]
            omega
          · rw [flatMap_delivered, hseen hlen]
          · intro k hk
            obtain ⟨k, rfl⟩ := Nat.exists_eq_succ_of_ne_zero
              (Nat.ne_zero_of_lt hk)
            obtain ⟨s, hcall, -, hrecords⟩ :=
              reading_succ layout (e :: entries) sizes k
            exact ⟨s, hcall, hrecords⟩

/-- A call stays in its buffer exactly if the records of all entries that are
left fit into it, and a directory is read in its order with every record once
exactly if its records fit into the buffer of the first call. -/
theorem readsDir_iff :
    (∀ (listing : List ListedEntry) (pos nbytes : ℕ),
      listing.length < 2147483648 → pos < 2147483648 →
        (Bounded (fillFrom layout listing pos nbytes) nbytes ↔
          totalReclen layout (listing.drop pos) ≤ nbytes ∧
            totalReclen layout (listing.drop pos) < 2147483648)) ∧
    ∀ (listing : List ListedEntry) (sizes : ℕ → ℕ),
      ReadsDir layout listing sizes ↔
        totalReclen layout listing ≤ sizes 0 ∧
          totalReclen layout listing < 2147483648 :=
  ⟨fun _ pos nbytes hlen hpos => bounded_iff layout hlen pos hpos nbytes,
    readsDir_iff_of_total layout⟩

end Calls

/-- The layout of `struct dirent64`. -/
def dirent64Layout : DirentLayout := ⟨19, by decide⟩

/-- A file with a name of one character. -/
def shortEntry (c : Char) : ListedEntry where
  name := [c]
  direntOid := Oid.zero
  inodeOid := Oid.zero
  parentOid := Oid.zero
  linkCnt := 1
  entryObj := Obj.zero
  fileObj := none
  short := by simp [nameLen]

/-- Two entries are read with buffers that have room for one. -/
theorem not_readsDir_two :
    ¬ ∀ (layout : DirentLayout) (listing : List ListedEntry) (sizes : ℕ → ℕ),
      (∀ k, ∀ e ∈ listing, lwfsDReclen layout e.name.length ≤ sizes k) →
        ReadsDir layout listing sizes := by
  intro h
  have hroom : ∀ e ∈ [shortEntry 'a', shortEntry 'b'],
      lwfsDReclen dirent64Layout e.name.length ≤ 24 := by
    intro e he
    have hcases : e = shortEntry 'a' ∨ e = shortEntry 'b' := by simpa using he
    rcases hcases with rfl | rfl
    · decide
    · decide
  have hreads := h dirent64Layout [shortEntry 'a', shortEntry 'b']
    (fun _ => 24) fun _ => hroom
  have htotal := ((readsDir_iff_of_total _ _ _).mp hreads).1
  revert htotal
  decide

end Lwfs.FsLwfs
