import Lwfs.Lib.Bytes

/-!
How values stand in a stream of bytes.

A codec writes a value, and it reads that value back from the front of every
stream that begins with what it wrote, so what was written behind the value
is still there. A codec that writes nothing for some value has no other value:
who reads an empty encoding loses nothing by not reading it. Codecs are put
together from those of words, which stand with the most significant byte
first.
-/

namespace SysLib

/-- A way to write the values of a type, and to read them back. -/
structure Codec (α : Type) where
  encode : α → List UInt8
  /-- The value at the front of a stream, and the rest of the stream. -/
  decode : List UInt8 → Option (α × List UInt8)
  decode_append : ∀ a rest, decode (encode a ++ rest) = some (a, rest)

namespace Codec

variable {α β : Type} (c : Codec α)

/-- The number of bytes that a value takes. -/
def size (a : α) : ℕ := (c.encode a).length

/-- Every value takes `n` bytes. -/
def Fixed (n : ℕ) : Prop := ∀ a, c.size a = n

/-- A value is written behind what a buffer of the given capacity holds. -/
def write (capacity : ℕ) (buf : List UInt8) (a : α) : Option (List UInt8) :=
  if buf.length + c.size a ≤ capacity then some (buf ++ c.encode a) else none

variable {c}

theorem decode_encode (a : α) : c.decode (c.encode a) = some (a, []) := by
  have h := c.decode_append a []
  rwa [List.append_nil] at h

theorem encode_eq_nil {a : α} : c.encode a = [] ↔ c.size a = 0 :=
  List.length_eq_zero_iff.symm

/-- An empty encoding tells nothing: there is only one value. -/
theorem eq_of_size_eq_zero {a : α} (h : c.size a = 0) (b : α) : b = a := by
  have hnil := encode_eq_nil.mpr h
  have hb := c.decode_append b []
  have ha := c.decode_append a (c.encode b ++ [])
  rw [hnil, List.nil_append, hb, Option.some.injEq, Prod.mk.injEq] at ha
  exact ha.1

theorem write_of_le {capacity : ℕ} {buf : List UInt8} {a : α}
    (h : buf.length + c.size a ≤ capacity) :
    c.write capacity buf a = some (buf ++ c.encode a) := if_pos h

theorem write_of_lt {capacity : ℕ} {buf : List UInt8} {a : α}
    (h : capacity < buf.length + c.size a) : c.write capacity buf a = none :=
  if_neg (Nat.not_le.mpr h)

/-! ### Putting codecs together -/

/-- One value behind the other. -/
def prod (c : Codec α) (d : Codec β) : Codec (α × β) where
  encode x := c.encode x.1 ++ d.encode x.2
  decode bs :=
    match c.decode bs with
    | none => none
    | some (a, rest) =>
        match d.decode rest with
        | none => none
        | some (b, rest) => some ((a, b), rest)
  decode_append := by
    rintro ⟨a, b⟩ rest
    have ha := c.decode_append a (d.encode b ++ rest)
    have hb := d.decode_append b rest
    simp only [List.append_assoc, ha, hb]

/-- The values of another type, written as values of this one. -/
def ofInverse (c : Codec α) (f : α → β) (g : β → α) (h : ∀ b, f (g b) = b) :
    Codec β where
  encode b := c.encode (g b)
  decode bs := (c.decode bs).map fun x => (f x.1, x.2)
  decode_append := by
    intro b rest
    rw [c.decode_append, Option.map_some, h]

theorem Fixed.prod {d : Codec β} {m n : ℕ} (hc : c.Fixed m) (hd : d.Fixed n) :
    (c.prod d).Fixed (m + n) := by
  rintro ⟨a, b⟩
  have ha : (c.encode a).length = m := hc a
  have hb : (d.encode b).length = n := hd b
  show (c.encode a ++ d.encode b).length = m + n
  rw [List.length_append, ha, hb]

theorem Fixed.ofInverse {f : α → β} {g : β → α} {h : ∀ b, f (g b) = b} {n : ℕ}
    (hc : c.Fixed n) : (c.ofInverse f g h).Fixed n := fun b => hc (g b)

/-! ### Words -/

/-- The numbers of `k` bytes, read into another type. -/
def word (k : ℕ) (toNat : α → ℕ) (ofNat : ℕ → α)
    (hlt : ∀ a, toNat a < 256 ^ k) (hinv : ∀ a, ofNat (toNat a) = a) :
    Codec α where
  encode a := (Bytes.ofNat k (toNat a)).reverse
  decode bs :=
    if k ≤ bs.length then
      some (ofNat (Bytes.toNat (bs.take k).reverse), bs.drop k)
    else none
  decode_append := by
    intro a rest
    have hlen : (Bytes.ofNat k (toNat a)).reverse.length = k := by
      rw [List.length_reverse, Bytes.length_ofNat]
    have hle : k ≤ ((Bytes.ofNat k (toNat a)).reverse ++ rest).length := by
      rw [List.length_append, hlen]
      exact Nat.le_add_right _ _
    rw [if_pos hle, List.take_left' hlen, List.drop_left' hlen,
      List.reverse_reverse, Bytes.toNat_ofNat (hlt a), hinv]

theorem fixed_word {k : ℕ} {toNat : α → ℕ} {ofNat : ℕ → α}
    {hlt : ∀ a, toNat a < 256 ^ k} {hinv : ∀ a, ofNat (toNat a) = a} :
    (word k toNat ofNat hlt hinv).Fixed k := by
  intro a
  show (Bytes.ofNat k (toNat a)).reverse.length = k
  rw [List.length_reverse, Bytes.length_ofNat]

def uint32 : Codec UInt32 :=
  word 4 UInt32.toNat UInt32.ofNat UInt32.toNat_lt fun _ => UInt32.ofNat_toNat

def uint64 : Codec UInt64 :=
  word 8 UInt64.toNat UInt64.ofNat UInt64.toNat_lt fun _ => UInt64.ofNat_toNat

def int32 : Codec Int32 :=
  uint32.ofInverse UInt32.toInt32 Int32.toUInt32 fun _ => rfl

/-- A truth value as a word. Every word but zero reads as true. -/
def bool : Codec Bool :=
  word 4 Bool.toNat (fun n => n != 0) (fun b => by cases b <;> decide)
    fun b => by cases b <;> rfl

theorem fixed_uint32 : uint32.Fixed 4 := fixed_word

theorem fixed_uint64 : uint64.Fixed 8 := fixed_word

theorem fixed_int32 : int32.Fixed 4 := fixed_uint32.ofInverse

theorem fixed_bool : bool.Fixed 4 := fixed_word

end Codec

end SysLib
