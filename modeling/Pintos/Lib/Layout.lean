import Mathlib.Data.Vector.Defs
import Mathlib.Logic.Equiv.Defs
import Pintos.Lib.Memory

/-! # Records of a fixed size

A `Layout` says how the values of a type are stored in a fixed number of bytes, every
value in one way and every sequence of that many bytes as one value. Layouts of records
are put together from those of their fields. `readAt` reads a record out of a longer
sequence, `readTable` several records that follow each other.
-/

/-- How values are stored in `size` bytes. -/
structure Layout (α : Type*) where
  size : ℕ
  encode : α → List UInt8
  decode : List UInt8 → α
  encode_length : ∀ a, (encode a).length = size
  decode_encode : ∀ a, decode (encode a) = a
  encode_decode : ∀ bs : List UInt8, bs.length = size → encode (decode bs) = bs

namespace Layout

/-! ## Numbers -/

theorem value_lt (bs : List UInt8) : Memory.value bs < 256 ^ bs.length := by
  induction bs with
  | nil => exact Nat.one_pos
  | cons b bs ih =>
      have hb : b.toNat < 256 := b.toNat_lt
      show b.toNat + 256 * Memory.value bs < 256 ^ (bs.length + 1)
      rw [pow_succ']
      omega

theorem bytes_value (bs : List UInt8) : Memory.bytes bs.length (Memory.value bs) = bs := by
  induction bs with
  | nil => rfl
  | cons b bs ih =>
      have hb : b.toNat < 256 := b.toNat_lt
      have hdiv : (b.toNat + 256 * Memory.value bs) / 256 = Memory.value bs := by omega
      have hlow : UInt8.ofNat (b.toNat + 256 * Memory.value bs) = b := by
        rw [← UInt8.toNat_inj, UInt8.toNat_ofNat']
        show (b.toNat + 256 * Memory.value bs) % 256 = b.toNat
        omega
      show UInt8.ofNat (b.toNat + 256 * Memory.value bs) ::
        Memory.bytes bs.length ((b.toNat + 256 * Memory.value bs) / 256) = b :: bs
      rw [hdiv, hlow, ih]

/-! ## The layouts -/

/-- Bytes as they are. -/
def raw (n : ℕ) : Layout (List.Vector UInt8 n) where
  size := n
  encode v := v.toList
  decode bs := if h : bs.length = n then ⟨bs, h⟩ else List.Vector.replicate n 0
  encode_length v := v.toList_length
  decode_encode v := dif_pos v.toList_length
  encode_decode _ h := congrArg List.Vector.toList (dif_pos h)

/-- A number of 16 bits, the lowest byte first. -/
def u16 : Layout UInt16 where
  size := 2
  encode x := Memory.bytes 2 x.toNat
  decode bs := UInt16.ofNat (Memory.value bs)
  encode_length _ := Memory.bytes_length
  decode_encode x := by
    have hlt : x.toNat < 256 ^ 2 := x.toNat_lt
    rw [Memory.value_bytes, Nat.mod_eq_of_lt hlt, UInt16.ofNat_toNat]
  encode_decode bs h := by
    have hlt : Memory.value bs < 256 ^ 2 := h ▸ value_lt bs
    rw [UInt16.toNat_ofNat_of_lt' hlt, ← h, bytes_value]

/-- A number of 32 bits, the lowest byte first. -/
def u32 : Layout UInt32 where
  size := 4
  encode x := Memory.bytes 4 x.toNat
  decode bs := UInt32.ofNat (Memory.value bs)
  encode_length _ := Memory.bytes_length
  decode_encode x := by
    have hlt : x.toNat < 256 ^ 4 := x.toNat_lt
    rw [Memory.value_bytes, Nat.mod_eq_of_lt hlt, UInt32.ofNat_toNat]
  encode_decode bs h := by
    have hlt : Memory.value bs < 256 ^ 4 := h ▸ value_lt bs
    rw [UInt32.toNat_ofNat_of_lt' hlt, ← h, bytes_value]

variable {α β : Type*}

/-- One value behind the other. -/
def pair (A : Layout α) (B : Layout β) : Layout (α × β) where
  size := A.size + B.size
  encode x := A.encode x.1 ++ B.encode x.2
  decode bs := (A.decode (bs.take A.size), B.decode (bs.drop A.size))
  encode_length x := by rw [List.length_append, A.encode_length, B.encode_length]
  decode_encode x := by
    have htake : (A.encode x.1 ++ B.encode x.2).take A.size = A.encode x.1 :=
      List.take_left' (A.encode_length x.1)
    have hdrop : (A.encode x.1 ++ B.encode x.2).drop A.size = B.encode x.2 :=
      List.drop_left' (A.encode_length x.1)
    rw [htake, hdrop, A.decode_encode, B.decode_encode]
  encode_decode bs h := by
    have htake : (bs.take A.size).length = A.size := by
      rw [List.length_take]
      omega
    have hdrop : (bs.drop A.size).length = B.size := by
      rw [List.length_drop]
      omega
    rw [A.encode_decode _ htake, B.encode_decode _ hdrop, List.take_append_drop]

/-- The same bytes for another type. -/
def map (A : Layout α) (f : α ≃ β) : Layout β where
  size := A.size
  encode b := A.encode (f.symm b)
  decode bs := f (A.decode bs)
  encode_length b := A.encode_length (f.symm b)
  decode_encode b := by rw [A.decode_encode, Equiv.apply_symm_apply]
  encode_decode bs h := by rw [Equiv.symm_apply_apply, A.encode_decode bs h]

/-! ## Reading -/

/-- The record at an offset; `none` if there are not enough bytes. -/
def readAt (A : Layout α) (bytes : List UInt8) (ofs : ℕ) : Option α :=
  if ofs + A.size ≤ bytes.length then some (A.decode ((bytes.drop ofs).take A.size)) else none

/-- Records that follow each other. -/
def readTable (A : Layout α) (bytes : List UInt8) : ℕ → ℕ → Option (List α)
  | 0, _ => some []
  | n + 1, ofs => do
      let a ← A.readAt bytes ofs
      let as ← A.readTable bytes n (ofs + A.size)
      return a :: as

/-- The bytes of records that follow each other. -/
def encodeAll (A : Layout α) (as : List α) : List UInt8 := as.flatMap A.encode

variable {A : Layout α} {a : α} {as : List α} {bytes bs cs : List UInt8} {ofs n : ℕ}

theorem append_prefix_iff : bs ++ cs <+: bytes ↔ bs <+: bytes ∧ cs <+: bytes.drop bs.length := by
  constructor
  · rintro ⟨ds, rfl⟩
    rw [List.append_assoc, List.drop_left]
    exact ⟨List.prefix_append .., List.prefix_append ..⟩
  · rintro ⟨⟨ds, rfl⟩, hcs⟩
    rw [List.drop_left] at hcs
    exact List.prefix_append_right_inj bs |>.mpr hcs

/-- A record is read exactly where its bytes are. -/
theorem readAt_eq_some (hsize : 0 < A.size) :
    A.readAt bytes ofs = some a ↔ A.encode a <+: bytes.drop ofs := by
  unfold readAt
  by_cases hle : ofs + A.size ≤ bytes.length
  · have hlen : ((bytes.drop ofs).take A.size).length = A.size := by
      rw [List.length_take, List.length_drop]
      omega
    rw [if_pos hle, Option.some_inj, List.prefix_iff_eq_take, A.encode_length]
    constructor
    · rintro rfl
      exact A.encode_decode _ hlen
    · intro h
      rw [← h, A.decode_encode]
  · rw [if_neg hle]
    refine ⟨nofun, fun h => ?_⟩
    have hlen := h.length_le
    rw [A.encode_length, List.length_drop] at hlen
    omega

/-- A record that is read lies within the bytes. -/
theorem readAt_le (h : A.readAt bytes ofs = some a) : ofs + A.size ≤ bytes.length := by
  unfold readAt at h
  by_contra hle
  rw [if_neg hle] at h
  cases h

theorem readTable_succ : A.readTable bytes (n + 1) ofs = some as ↔
    ∃ a rest, A.readAt bytes ofs = some a ∧ A.readTable bytes n (ofs + A.size) = some rest ∧
      as = a :: rest := by
  show (A.readAt bytes ofs).bind (fun a => (A.readTable bytes n (ofs + A.size)).bind
    fun rest => some (a :: rest)) = some as ↔ _
  simp only [Option.bind_eq_some_iff, Option.some_inj]
  constructor
  · rintro ⟨a, ha, rest, hrest, rfl⟩
    exact ⟨a, rest, ha, hrest, rfl⟩
  · rintro ⟨a, rest, ha, hrest, rfl⟩
    exact ⟨a, ha, rest, hrest, rfl⟩

theorem encodeAll_cons_prefix : A.encodeAll (a :: as) <+: bytes.drop ofs ↔
    A.encode a <+: bytes.drop ofs ∧ A.encodeAll as <+: bytes.drop (ofs + A.size) := by
  unfold encodeAll
  rw [List.flatMap_cons, append_prefix_iff, A.encode_length, List.drop_drop]

/-- A table is read exactly where its bytes are. -/
theorem readTable_eq_some (hsize : 0 < A.size) :
    A.readTable bytes n ofs = some as ↔
      as.length = n ∧ A.encodeAll as <+: bytes.drop ofs := by
  induction n generalizing ofs as with
  | zero =>
      constructor
      · intro h
        cases h
        exact ⟨rfl, List.nil_prefix⟩
      · rintro ⟨hlen, -⟩
        rw [List.length_eq_zero_iff.mp hlen]
        rfl
  | succ n ih =>
      rw [readTable_succ]
      constructor
      · rintro ⟨a, rest, ha, hrest, rfl⟩
        obtain ⟨rfl, hbytes⟩ := ih.mp hrest
        exact ⟨rfl, encodeAll_cons_prefix.mpr ⟨(readAt_eq_some hsize).mp ha, hbytes⟩⟩
      · rintro ⟨hlen, hbytes⟩
        cases as with
        | nil => cases hlen
        | cons a rest =>
            obtain ⟨ha, hrest⟩ := encodeAll_cons_prefix.mp hbytes
            exact ⟨a, rest, (readAt_eq_some hsize).mpr ha,
              ih.mpr ⟨Nat.succ.inj hlen, hrest⟩, rfl⟩

end Layout
