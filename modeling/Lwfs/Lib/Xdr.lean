import Lwfs.Lib.Codec
import Mathlib.Data.List.TakeWhile
import Mathlib.Data.Vector.Basic

/-!
The language of XDR: its types, what their values are, how a value stands in a
stream, and how much memory a C compiler gives it.

A stream is made of words of four bytes, and what takes less is filled up. A
pointer stands as a word that tells whether there is something behind it, and
what there is. In memory a pointer takes the same room whatever it leads to,
so neither size bounds the other.
-/

namespace SysLib

namespace Codec

variable {α β : Type} {c : Codec α}

/-- The bytes that bring a length up to a multiple of four. -/
def pad (n : ℕ) : ℕ := (4 - n % 4) % 4

/-- The sum over a list. -/
def total (f : α → ℕ) : List α → ℕ
  | [] => 0
  | a :: as => f a + total f as

/-! ### More ways to put codecs together -/

/-- A value, and zeros up to a full word. -/
def padded (c : Codec α) : Codec α where
  encode a := c.encode a ++ List.replicate (pad (c.size a)) (0 : UInt8)
  decode bs :=
    (c.decode bs).bind fun x =>
      if pad (c.size x.1) ≤ x.2.length then
        some (x.1, x.2.drop (pad (c.size x.1)))
      else none
  decode_append := by
    intro a rest
    have ha := c.decode_append a
      (List.replicate (pad (c.size a)) (0 : UInt8) ++ rest)
    have hlen : (List.replicate (pad (c.size a)) (0 : UInt8)).length =
        pad (c.size a) := List.length_replicate
    have hle : pad (c.size a) ≤
        (List.replicate (pad (c.size a)) (0 : UInt8) ++ rest).length := by
      rw [List.length_append, hlen]
      omega
    simp only [List.append_assoc, ha, Option.bind_some, if_pos hle,
      List.drop_left' hlen]

/-- A value that may be missing, behind a word that tells whether it is. -/
def option (c : Codec α) : Codec (Option α) where
  encode
    | none => bool.encode false
    | some a => bool.encode true ++ c.encode a
  decode bs :=
    match bool.decode bs with
    | none => none
    | some (false, rest) => some (none, rest)
    | some (true, rest) =>
        match c.decode rest with
        | none => none
        | some (a, rest) => some (some a, rest)
  decode_append := by
    intro o rest
    cases o with
    | none =>
        have h := bool.decode_append false rest
        simp only [h]
    | some a =>
        have h := bool.decode_append true (c.encode a ++ rest)
        have ha := c.decode_append a rest
        simp only [List.append_assoc, h, ha]

/-- As many values as are asked for. -/
def decodeMany (c : Codec α) :
    (n : ℕ) → List UInt8 → Option (List.Vector α n × List UInt8)
  | 0, bs => some (.nil, bs)
  | n + 1, bs =>
      match c.decode bs with
      | none => none
      | some (a, rest) =>
          match decodeMany c n rest with
          | none => none
          | some (as, rest) => some (as.cons a, rest)

theorem decodeMany_append {n : ℕ} (as : List.Vector α n) (rest : List UInt8) :
    c.decodeMany n (as.toList.flatMap c.encode ++ rest) = some (as, rest) := by
  induction n with
  | zero =>
      rw [List.Vector.eq_nil as]
      rfl
  | succ n ih =>
      obtain ⟨a, as, rfl⟩ := as.exists_eq_cons
      have ha := c.decode_append a (as.toList.flatMap c.encode ++ rest)
      rw [List.Vector.toList_cons, List.flatMap_cons, List.append_assoc]
      simp only [decodeMany, ha, ih as]

/-- A fixed number of values. -/
def vector (n : ℕ) (c : Codec α) : Codec (List.Vector α n) where
  encode as := as.toList.flatMap c.encode
  decode := c.decodeMany n
  decode_append := decodeMany_append

/-- Values behind a word with their number, which has a bound. -/
def counted (max : UInt32) (c : Codec α) :
    Codec { as : List α // as.length ≤ max.toNat } where
  encode as := uint32.encode (UInt32.ofNat as.1.length) ++ as.1.flatMap c.encode
  decode bs :=
    match uint32.decode bs with
    | none => none
    | some (n, rest) =>
        if h : n.toNat ≤ max.toNat then
          match c.decodeMany n.toNat rest with
          | none => none
          | some (as, rest) =>
              some (⟨as.toList, by rw [as.toList_length]; exact h⟩, rest)
        else none
  decode_append := by
    rintro ⟨as, hle⟩ rest
    have hlt : as.length < 2 ^ 32 := Nat.lt_of_le_of_lt hle max.toNat_lt
    have hn : (UInt32.ofNat as.length).toNat = as.length :=
      UInt32.toNat_ofNat_of_lt' hlt
    have hcount := uint32.decode_append (UInt32.ofNat as.length)
      (as.flatMap c.encode ++ rest)
    have hmany : c.decodeMany (UInt32.ofNat as.length).toNat
        (as.flatMap c.encode ++ rest) = some (⟨as, hn.symm⟩, rest) :=
      decodeMany_append (⟨as, hn.symm⟩ : List.Vector α _) rest
    simp only [List.append_assoc, hcount, hn, dif_pos hle, hmany]
    rfl

/-- One byte. -/
def byte : Codec UInt8 :=
  word 1 UInt8.toNat UInt8.ofNat UInt8.toNat_lt fun _ => UInt8.ofNat_toNat

/-- A character of C as a word. -/
def char : Codec Int8 :=
  int32.ofInverse Int32.toInt8 Int8.toInt32 Int8.toInt8_toInt32

/-! ### How much they write -/

@[simp] theorem size_prod {d : Codec β} (x : α × β) :
    (c.prod d).size x = c.size x.1 + d.size x.2 := List.length_append

@[simp] theorem size_ofInverse {f : α → β} {g : β → α} {h : ∀ b, f (g b) = b}
    (b : β) : (c.ofInverse f g h).size b = c.size (g b) := rfl

@[simp] theorem size_uint32 (n : UInt32) : uint32.size n = 4 := fixed_uint32 n

@[simp] theorem size_uint64 (n : UInt64) : uint64.size n = 8 := fixed_uint64 n

@[simp] theorem size_int32 (n : Int32) : int32.size n = 4 := fixed_int32 n

@[simp] theorem size_char (a : Int8) : char.size a = 4 := fixed_int32 _

@[simp] theorem size_byte (b : UInt8) : byte.size b = 1 := fixed_word b

@[simp] theorem size_padded (a : α) :
    c.padded.size a = c.size a + pad (c.size a) := by
  show (c.encode a ++ List.replicate (pad (c.size a)) (0 : UInt8)).length = _
  rw [List.length_append, List.length_replicate]
  rfl

@[simp] theorem size_none : c.option.size none = 4 := fixed_bool false

@[simp] theorem size_some (a : α) : c.option.size (some a) = 4 + c.size a := by
  have hbool : (bool.encode true).length = 4 := fixed_bool true
  show (bool.encode true ++ c.encode a).length = 4 + c.size a
  rw [List.length_append, hbool]
  rfl

theorem length_flatMap_encode (as : List α) :
    (as.flatMap c.encode).length = total c.size as := by
  induction as with
  | nil => rfl
  | cons a as ih =>
      rw [List.flatMap_cons, List.length_append, ih]
      rfl

@[simp] theorem size_counted {max : UInt32}
    (as : { as : List α // as.length ≤ max.toNat }) :
    (c.counted max).size as = 4 + total c.size as.1 := by
  have hcount := size_uint32 (UInt32.ofNat as.1.length)
  show (uint32.encode _ ++ as.1.flatMap c.encode).length = _
  rw [List.length_append, length_flatMap_encode]
  exact congrArg (· + _) hcount

/-- The sizes of values that take the same. -/
theorem Fixed.total_size {n : ℕ} (hc : c.Fixed n) (as : List α) :
    total c.size as = as.length * n := by
  induction as with
  | nil => exact (Nat.zero_mul n).symm
  | cons a as ih =>
      have ha : c.size a = n := hc a
      rw [total, ih, ha, List.length_cons, Nat.succ_mul]
      omega

theorem Fixed.vector {n k : ℕ} (hc : c.Fixed n) : (c.vector k).Fixed (k * n) := by
  intro as
  show (as.toList.flatMap c.encode).length = k * n
  rw [length_flatMap_encode, hc.total_size, as.toList_length]

end Codec

/-- A string of C. The zero behind its last character is not in it. -/
structure CString (max : UInt32) where
  bytes : List UInt8
  length_le : bytes.length ≤ max.toNat
  ne_zero : ∀ b ∈ bytes, (b != 0) = true
  deriving DecidableEq

namespace CString

variable {max : UInt32}

theorem ext {s t : CString max} (h : s.bytes = t.bytes) : s = t := by
  cases s
  cases t
  simp only at h
  subst h
  rfl

/-- What is found in memory: a string ends at its first zero. -/
def ofBytes (bs : { bs : List UInt8 // bs.length ≤ max.toNat }) :
    CString max where
  bytes := bs.1.takeWhile (· != 0)
  length_le := (List.takeWhile_prefix _).length_le.trans bs.2
  ne_zero := fun _ => List.mem_takeWhile_imp

theorem ofBytes_bytes (s : CString max) : ofBytes ⟨s.bytes, s.length_le⟩ = s :=
  ext (List.takeWhile_eq_self_iff.mpr s.ne_zero)

/-- The empty string. -/
def empty (max : UInt32) : CString max := ⟨[], Nat.zero_le _, nofun⟩

end CString

/-- The types of XDR. -/
inductive XdrType
  | int
  | uint
  | uhyper
  /-- `char`, which the language does not have, stands as an `int`. -/
  | char
  /-- `opaque[n]` -/
  | octets (n : ℕ)
  /-- `opaque<max>` -/
  | bytes (max : UInt32)
  | string (max : UInt32)
  /-- `type *` -/
  | pointer (type : XdrType)
  /-- `type[n]` -/
  | vector (n : ℕ) (type : XdrType)
  /-- `type<max>` -/
  | array (max : UInt32) (type : XdrType)
  | struct (fields : List XdrType)

namespace XdrType

/-! ### Values -/

mutual

/-- The values of a type. -/
def Val : XdrType → Type
  | .int => Int32
  | .uint => UInt32
  | .uhyper => UInt64
  | .char => Int8
  | .octets n => List.Vector UInt8 n
  | .bytes max => { bs : List UInt8 // bs.length ≤ max.toNat }
  | .string max => CString max
  | .pointer type => Option type.Val
  | .vector n type => List.Vector type.Val n
  | .array max type => { as : List type.Val // as.length ≤ max.toNat }
  | .struct fields => Fields fields

def Fields : List XdrType → Type
  | [] => Unit
  | type :: types => type.Val × Fields types

end

mutual

/-- The value that memory filled with zeros holds. -/
def zero : (type : XdrType) → type.Val
  | .int => (0 : Int32)
  | .uint => (0 : UInt32)
  | .uhyper => (0 : UInt64)
  | .char => (0 : Int8)
  | .octets n => List.Vector.replicate n 0
  | .bytes _ => ⟨[], Nat.zero_le _⟩
  | .string max => CString.empty max
  | .pointer _ => none
  | .vector n type => List.Vector.replicate n type.zero
  | .array _ _ => ⟨[], Nat.zero_le _⟩
  | .struct fields => zeros fields

def zeros : (fields : List XdrType) → Fields fields
  | [] => ()
  | type :: types => (type.zero, zeros types)

end

/-! ### Streams -/

/-- Nothing. -/
def unit : Codec Unit where
  encode _ := []
  decode bs := some ((), bs)
  decode_append _ _ := rfl

@[simp] theorem size_unit (u : Unit) : unit.size u = 0 := rfl

mutual

/-- How the values of a type are written. -/
def codec : (type : XdrType) → Codec type.Val
  | .int => Codec.int32
  | .uint => Codec.uint32
  | .uhyper => Codec.uint64
  | .char => Codec.char
  | .octets n => (Codec.byte.vector n).padded
  | .bytes max => (Codec.byte.counted max).padded
  | .string max =>
      (Codec.byte.counted max).padded.ofInverse CString.ofBytes
        (fun s => ⟨s.bytes, s.length_le⟩) CString.ofBytes_bytes
  | .pointer type => type.codec.option
  | .vector n type => type.codec.vector n
  | .array max type => type.codec.counted max
  | .struct fields => codecs fields

def codecs : (fields : List XdrType) → Codec (Fields fields)
  | [] => unit
  | type :: types => type.codec.prod (codecs types)

end

/-! ### Memory -/

/-- The next multiple of an alignment. -/
def roundUp (n a : ℕ) : ℕ := (n + a - 1) / a * a

mutual

/-- The alignment of a type where pointers take eight bytes. -/
def align : XdrType → ℕ
  | .int | .uint => 4
  | .uhyper | .bytes _ | .string _ | .pointer _ | .array _ _ => 8
  | .char | .octets _ => 1
  | .vector _ type => type.align
  | .struct fields => aligns fields

def aligns : List XdrType → ℕ
  | [] => 1
  | type :: types => max type.align (aligns types)

end

mutual

/-- The size of a type in memory. An array is its length and a pointer. -/
def sizeof : XdrType → ℕ
  | .int | .uint => 4
  | .uhyper => 8
  | .char => 1
  | .octets n => n
  | .string _ | .pointer _ => 8
  | .bytes _ | .array _ _ => 16
  | .vector n type => n * type.sizeof
  | .struct fields => roundUp (offset fields 0) (aligns fields)

/-- Where the fields end that begin at an offset. -/
def offset : List XdrType → ℕ → ℕ
  | [], off => off
  | type :: types, off => offset types (roundUp off type.align + type.sizeof)

end

/-! ### How much is written -/

mutual

/-- The bytes that a value takes in a stream. -/
def size : (type : XdrType) → type.Val → ℕ
  | .int, _ | .uint, _ | .char, _ => 4
  | .uhyper, _ => 8
  | .octets n, _ => n + Codec.pad n
  | .bytes _, bs => 4 + (bs.1.length + Codec.pad bs.1.length)
  | .string _, s => 4 + (s.bytes.length + Codec.pad s.bytes.length)
  | .pointer type, o => 4 + Option.elim o 0 type.size
  | .vector _ type, as => Codec.total type.size as.toList
  | .array _ type, as => 4 + Codec.total type.size as.1
  | .struct fields, v => sizes fields v

def sizes : (fields : List XdrType) → Fields fields → ℕ
  | [], _ => 0
  | type :: types, v => type.size v.1 + sizes types v.2

end

mutual

/-- What every value of a type takes at least. -/
def minSize : XdrType → ℕ
  | .int | .uint | .char | .bytes _ | .string _ | .pointer _ | .array _ _ => 4
  | .uhyper => 8
  | .octets n => n + Codec.pad n
  | .vector n type => n * type.minSize
  | .struct fields => minSizes fields

def minSizes : List XdrType → ℕ
  | [] => 0
  | type :: types => type.minSize + minSizes types

end

theorem size_counted_byte {max : UInt32}
    (bs : { bs : List UInt8 // bs.length ≤ max.toNat }) :
    (Codec.byte.counted max).padded.size bs =
      4 + (bs.1.length + Codec.pad bs.1.length) := by
  have hbytes := Codec.Fixed.total_size Codec.size_byte bs.1
  rw [Codec.size_padded, Codec.size_counted, hbytes, Nat.mul_one]
  unfold Codec.pad
  omega

mutual

theorem size_codec : (type : XdrType) → ∀ v, type.codec.size v = type.size v
  | .int, n => Codec.size_int32 n
  | .uint, n => Codec.size_uint32 n
  | .uhyper, n => Codec.size_uint64 n
  | .char, a => Codec.size_char a
  | .octets n, v => by
      have hvector : (Codec.byte.vector n).size v = n * 1 :=
        Codec.Fixed.vector Codec.size_byte v
      have hpadded := Codec.size_padded (c := Codec.byte.vector n) v
      rwa [hvector, Nat.mul_one] at hpadded
  | .bytes _, bs => size_counted_byte bs
  | .string _, s => size_counted_byte ⟨s.bytes, s.length_le⟩
  | .pointer _, none => Codec.size_none
  | .pointer type, some v =>
      (Codec.size_some v).trans (congrArg (4 + ·) (size_codec type v))
  | .vector _ type, as => by
      have hsizes : type.codec.size = type.size := funext (size_codec type)
      have hvector := Codec.length_flatMap_encode (c := type.codec) as.toList
      rwa [hsizes] at hvector
  | .array max type, as => by
      have hsizes : type.codec.size = type.size := funext (size_codec type)
      have hcounted := Codec.size_counted (c := type.codec) as
      rwa [hsizes] at hcounted
  | .struct fields, v => size_codecs fields v

theorem size_codecs :
    (fields : List XdrType) → ∀ v, (codecs fields).size v = sizes fields v
  | [], _ => rfl
  | type :: types, v => by
      have hprod := Codec.size_prod (c := type.codec) (d := codecs types) v
      rwa [size_codec type, size_codecs types] at hprod

end

theorem length_mul_le_total {α : Type} {f : α → ℕ} {n : ℕ} (h : ∀ a, n ≤ f a)
    (as : List α) : as.length * n ≤ Codec.total f as := by
  induction as with
  | nil => exact le_of_eq (Nat.zero_mul n)
  | cons a as ih =>
      have ha := h a
      rw [List.length_cons, Codec.total, Nat.succ_mul]
      omega

mutual

theorem minSize_le : (type : XdrType) → ∀ v, type.minSize ≤ type.size v
  | .int, _ | .uint, _ | .uhyper, _ | .char, _ | .octets _, _ => le_refl _
  | .bytes _, _ | .string _, _ | .pointer _, _ | .array _ _, _ =>
      Nat.le_add_right _ _
  | .vector n type, as => by
      have hsum := length_mul_le_total (minSize_le type) as.toList
      rwa [as.toList_length] at hsum
  | .struct fields, v => minSizes_le fields v

theorem minSizes_le :
    (fields : List XdrType) → ∀ v, minSizes fields ≤ sizes fields v
  | [], _ => le_refl _
  | type :: types, v =>
      Nat.add_le_add (minSize_le type v.1) (minSizes_le types v.2)

end

/-- What is behind a pointer: nothing, or a whole value. -/
theorem size_pointer {type : XdrType} (o : type.pointer.Val) :
    o = none ∧ Option.elim o 0 type.size = 0 ∨
      o ≠ none ∧ type.minSize ≤ Option.elim o 0 type.size := by
  cases o with
  | none => exact .inl ⟨rfl, rfl⟩
  | some v => exact .inr ⟨Option.some_ne_none v, minSize_le type v⟩

end XdrType

/-! ### What stands in memory -/

/-- What a procedure sees of the values in memory, and the values that it makes
of what it has read. It may see less than there is, and it may find a pointer
that leads to nothing. -/
structure Marshal (M W : Type) where
  view : M → Option W
  value : W → M

namespace Marshal

variable {M W : Type} {m : Marshal M W} {c : Codec W}

def encode (m : Marshal M W) (c : Codec W) (x : M) : Option (List UInt8) :=
  (m.view x).map c.encode

def decode (m : Marshal M W) (c : Codec W) (bs : List UInt8) :
    Option (M × List UInt8) :=
  (c.decode bs).map fun y => (m.value y.1, y.2)

/-- A value is read back as it was written. -/
def RoundTrips (m : Marshal M W) (c : Codec W) (x : M) : Prop :=
  ∃ bs, m.encode c x = some bs ∧ m.decode c bs = some (x, [])

/-- The procedure sees the whole value. -/
def Whole (m : Marshal M W) (x : M) : Prop := (m.view x).map m.value = some x

/-- The format loses nothing of what the procedure has seen. -/
theorem roundTrips_iff {x : M} : m.RoundTrips c x ↔ m.Whole x := by
  unfold RoundTrips Whole encode decode
  constructor
  · rintro ⟨bs, hencode, hdecode⟩
    obtain ⟨w, hw, rfl⟩ := Option.map_eq_some_iff.mp hencode
    rw [c.decode_encode, Option.map_some, Option.some.injEq,
      Prod.mk.injEq] at hdecode
    rw [hw, Option.map_some, hdecode.1]
  · intro h
    obtain ⟨w, hw, hx⟩ := Option.map_eq_some_iff.mp h
    refine ⟨c.encode w, by rw [hw, Option.map_some], ?_⟩
    rw [c.decode_encode, Option.map_some, hx]

/-- What a pointer leads to. -/
def pointer (m : Marshal M W) : Marshal (Option M) (Option W) where
  view
    | none => some none
    | some x => (m.view x).map some
  value := Option.map m.value

theorem whole_pointer {o : Option M} :
    m.pointer.Whole o ↔ ∀ x ∈ o, m.Whole x := by
  cases o with
  | none => exact iff_of_true rfl nofun
  | some x =>
      simp only [Whole, pointer, Option.map_map, Option.mem_def,
        Option.some.injEq, forall_eq']
      cases m.view x <;> simp

/-- The elements of an array, one after the other. -/
def viewMany (m : Marshal M W) :
    (xs : List M) → Option (List.Vector W xs.length)
  | [] => some .nil
  | x :: xs =>
      match m.view x, viewMany m xs with
      | some w, some ws => some (ws.cons w)
      | _, _ => none

theorem viewMany_eq_some_iff {xs : List M} :
    (m.viewMany xs).map (fun ws => ws.toList.map m.value) = some xs ↔
      ∀ x ∈ xs, m.Whole x := by
  induction xs with
  | nil => exact iff_of_true rfl nofun
  | cons x xs ih =>
      rw [List.forall_mem_cons, ← ih]
      unfold Whole
      cases hx : m.view x with
      | none => simp [viewMany, hx]
      | some w =>
          cases hxs : m.viewMany xs with
          | none => simp [viewMany, hx, hxs]
          | some ws => simp [viewMany, hx, hxs, List.Vector.toList_cons]

/-- An array behind its length. -/
def array (max : UInt32) (m : Marshal M W) :
    Marshal { xs : List M // xs.length ≤ max.toNat }
      { ws : List W // ws.length ≤ max.toNat } where
  view xs := (m.viewMany xs.1).map fun ws =>
    ⟨ws.toList, by rw [ws.toList_length]; exact xs.2⟩
  value ws := ⟨ws.1.map m.value, by rw [List.length_map]; exact ws.2⟩

theorem whole_array {max : UInt32}
    {xs : { xs : List M // xs.length ≤ max.toNat }} :
    (m.array max).Whole xs ↔ ∀ x ∈ xs.1, m.Whole x := by
  rw [← viewMany_eq_some_iff]
  simp only [Whole, array, Option.map_map]
  cases m.viewMany xs.1 with
  | none => simp
  | some ws => simp [Subtype.ext_iff]

end Marshal

end SysLib
