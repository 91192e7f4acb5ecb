/-
This file is a small theory of values in a byte memory.

A codec fixes how the values of a type lie in memory. A value that was written is
read back, and a read sees no write and no copy outside its bytes. An array is
read as the list of its values; a write to one of them sets the list there, and
a copy of the bytes, also onto an overlapping place, moves the list. A rotation
exchanges the last bytes of a range with those before them.
-/

import Mathlib.Data.BitVec
import Mathlib.Data.List.Basic

namespace ByteMemory

open List

/-- A memory: a byte at every address. -/
abbrev Memory := Nat → UInt8

/-- How the values of a type lie in memory: their size, their bytes, and how bytes are read. -/
structure Codec (Value : Type) where
  size : Nat
  encode : Value → Nat → UInt8
  decode : (Nat → UInt8) → Value
  decode_encode : ∀ value, decode (encode value) = value
  decode_congr : ∀ first second : Nat → UInt8, (∀ index < size, first index = second index) →
    decode first = decode second

variable {Value : Type}

def read (codec : Codec Value) (memory : Memory) (address : Nat) : Value :=
  codec.decode fun index => memory (address + index)

def write (codec : Codec Value) (memory : Memory) (address : Nat) (value : Value) : Memory :=
  fun place =>
    if address ≤ place ∧ place < address + codec.size then codec.encode value (place - address)
    else memory place

/-- Copy a range of bytes; the two ranges may overlap. -/
def copy (memory : Memory) (source target count : Nat) : Memory := fun place =>
  if target ≤ place ∧ place < target + count then memory (source + (place - target))
  else memory place

/-- Rotate a range of bytes: its last bytes come first, and the others move behind them. -/
def rotateRight (memory : Memory) (start stop count : Nat) : Memory := fun place =>
  if start ≤ place ∧ place < stop then
    if place < start + count then memory (stop - count + (place - start))
    else memory (place - count)
  else memory place

/-- Two memories that hold the same bytes from an address on. -/
def SameBytes (first : Memory) (source : Nat) (second : Memory) (target count : Nat) : Prop :=
  ∀ index < count, second (target + index) = first (source + index)

variable {codec : Codec Value} {first second : Memory}
  {source target address place count start stop : Nat}

theorem read_congr (same : SameBytes first source second target codec.size) :
    read codec second target = read codec first source :=
  codec.decode_congr _ _ same

@[simp] theorem read_write_self (codec : Codec Value) (memory : Memory) (address : Nat)
    (value : Value) : read codec (write codec memory address value) address = value := by
  refine (codec.decode_congr _ _ fun index inside => ?_).trans (codec.decode_encode value)
  rw [write, if_pos ⟨Nat.le_add_right _ _, Nat.add_lt_add_left inside _⟩, Nat.add_sub_cancel_left]

theorem write_of_outside (codec : Codec Value) (memory : Memory) (value : Value)
    (outside : place < address ∨ address + codec.size ≤ place) :
    write codec memory address value place = memory place :=
  if_neg (by omega)

theorem read_write_of_disjoint {Other : Type} {other : Codec Other} {memory : Memory}
    {value : Value} (disjoint : place + other.size ≤ address ∨ address + codec.size ≤ place) :
    read other (write codec memory address value) place = read other memory place :=
  read_congr fun index inside => write_of_outside codec memory value (by omega)

theorem copy_of_outside (memory : Memory) (outside : place < target ∨ target + count ≤ place) :
    copy memory source target count place = memory place :=
  if_neg (by omega)

theorem copy_of_inside (memory : Memory) (inside : target ≤ place ∧ place < target + count) :
    copy memory source target count place = memory (source + (place - target)) :=
  if_pos inside

theorem copy_sameBytes (memory : Memory) (source target count : Nat) :
    SameBytes memory source (copy memory source target count) target count := fun index inside => by
  rw [copy_of_inside _ ⟨Nat.le_add_right _ _, Nat.add_lt_add_left inside _⟩,
    Nat.add_sub_cancel_left]

theorem rotateRight_of_outside (memory : Memory) (outside : place < start ∨ stop ≤ place) :
    rotateRight memory start stop count place = memory place :=
  if_neg (by omega)

/-- The last bytes of a rotated range are the first ones. -/
theorem rotateRight_last (memory : Memory) (fits : start + count ≤ stop) :
    SameBytes memory (stop - count) (rotateRight memory start stop count) start count :=
  fun index inside => by
    rw [rotateRight, if_pos (by omega), if_pos (by omega), Nat.add_sub_cancel_left]

/-- The other bytes of a rotated range stand behind them. -/
theorem rotateRight_others (memory : Memory) {bytes : Nat} (low : start ≤ source)
    (high : source + bytes + count ≤ stop) :
    SameBytes memory source (rotateRight memory start stop count) (source + count) bytes :=
  fun index inside => by
    rw [rotateRight, if_pos (by omega), if_neg (by omega)]
    congr 1
    omega

theorem SameBytes.trans {third : Memory} {middle : Nat}
    (isFirst : SameBytes first source second middle count)
    (isSecond : SameBytes second middle third target count) :
    SameBytes first source third target count := fun index inside =>
  (isSecond index inside).trans (isFirst index inside)

/-- Two memories that agree outside a range. -/
def AgreeOutside (low high : Nat) (memory after : Memory) : Prop :=
  ∀ place, place < low ∨ high ≤ place → after place = memory place

namespace AgreeOutside

variable {low high : Nat} {memory middle after : Memory}

theorem trans (first : AgreeOutside low high memory middle)
    (second : AgreeOutside low high middle after) : AgreeOutside low high memory after :=
  fun place outside => (second place outside).trans (first place outside)

/-- Bytes outside the range of a change are the same. -/
theorem sameBytes (agree : AgreeOutside low high memory after) {address bytes : Nat}
    (outside : address + bytes ≤ low ∨ high ≤ address) :
    SameBytes memory address after address bytes :=
  fun _ inside => agree _ (by omega)

end AgreeOutside

theorem write_agree (codec : Codec Value) (memory : Memory) {low high : Nat} (value : Value)
    (isLow : low ≤ address) (isHigh : address + codec.size ≤ high) :
    AgreeOutside low high memory (write codec memory address value) :=
  fun _ outside => write_of_outside codec memory value (by omega)

theorem copy_agree (memory : Memory) {low high : Nat} (isLow : low ≤ target)
    (isHigh : target + count ≤ high) :
    AgreeOutside low high memory (copy memory source target count) :=
  fun _ outside => copy_of_outside memory (by omega)

/-! ### Arrays -/

/-- The values of an array. -/
def array (codec : Codec Value) (memory : Memory) (address count : Nat) : List Value :=
  (List.range count).map fun index => read codec memory (address + index * codec.size)

@[simp] theorem length_array (codec : Codec Value) (memory : Memory) (address count : Nat) :
    (array codec memory address count).length = count := by
  rw [array, length_map, length_range]

theorem getElem_array (codec : Codec Value) (memory : Memory) (address count index : Nat)
    (inside : index < (array codec memory address count).length) :
    (array codec memory address count)[index] =
      read codec memory (address + index * codec.size) := by
  simp only [array, getElem_map, getElem_range]

theorem array_congr (same : SameBytes first source second target (count * codec.size)) :
    array codec second target count = array codec first source count := by
  refine map_congr_left fun index inside => read_congr fun offset small => ?_
  have fits : index * codec.size + offset < count * codec.size := by
    have room := Nat.mul_le_mul_right codec.size (mem_range.mp inside)
    rw [Nat.succ_mul] at room
    omega
  rw [Nat.add_assoc, Nat.add_assoc]
  exact same _ fits

/-- The first values of an array. -/
theorem array_take (codec : Codec Value) (memory : Memory) (address : Nat) {few : Nat}
    (fits : few ≤ count) :
    array codec memory address few = (array codec memory address count).take few := by
  rw [array, array, ← map_take, take_range, Nat.min_eq_left fits]

/-- A write to one value of an array sets the list of its values there. -/
theorem array_write_self (codec : Codec Value) (memory : Memory) (start : Nat) {index : Nat}
    (value : Value) :
    array codec (write codec memory (start + index * codec.size) value) start count =
      (array codec memory start count).set index value := by
  refine ext_getElem (by simp) fun position inside _ => ?_
  rw [getElem_array, getElem_set]
  split
  · rename_i same
    rw [← same, read_write_self]
  · rename_i ne
    rw [getElem_array]
    refine read_write_of_disjoint ?_
    rcases Nat.lt_or_ge position index with before | behind
    · have room := Nat.mul_le_mul_right codec.size before
      rw [Nat.succ_mul] at room
      omega
    · have room := Nat.mul_le_mul_right codec.size (Nat.lt_of_le_of_ne behind ne)
      rw [Nat.succ_mul] at room
      omega

/-- A copy of the first values of an array to another place. -/
theorem array_copy (codec : Codec Value) (memory : Memory) (source target : Nat) {few : Nat}
    (fits : few ≤ count) :
    array codec (copy memory source target (few * codec.size)) target count =
      array codec memory source few ++ (array codec memory target count).drop few := by
  refine ext_getElem (by simp; omega) fun index inside _ => ?_
  rw [length_array] at inside
  rw [getElem_array]
  by_cases isCopied : index < few
  · have room := Nat.mul_le_mul_right codec.size isCopied
    rw [Nat.succ_mul] at room
    rw [getElem_append_left (by rwa [length_array]), getElem_array]
    refine read_congr fun offset small => ?_
    rw [copy_of_inside _ (by omega)]
    congr 1
    omega
  · have room := Nat.mul_le_mul_right codec.size (Nat.le_of_not_lt isCopied)
    rw [getElem_append_right (by rw [length_array]; omega), getElem_drop, getElem_array,
      length_array, Nat.add_sub_cancel' (Nat.le_of_not_lt isCopied)]
    exact read_congr fun offset small => copy_of_outside _ (by omega)

theorem copy_zero (memory : Memory) (source target : Nat) :
    copy memory source target 0 = memory := by
  funext place
  exact copy_of_outside memory (by omega)

/-- Write values of an array, each with its index. -/
def writeEach (codec : Codec Value) (memory : Memory) (address : Nat)
    (entries : List (Value × Nat)) : Memory :=
  entries.foldl (fun memory entry => write codec memory (address + entry.2 * codec.size) entry.1)
    memory

theorem array_writeEach (codec : Codec Value) (memory : Memory) (address count : Nat)
    (entries : List (Value × Nat)) :
    array codec (writeEach codec memory address entries) address count =
      entries.foldl (fun values entry => values.set entry.2 entry.1)
        (array codec memory address count) := by
  induction entries generalizing memory with
  | nil => rfl
  | cons entry rest hyp =>
    rw [foldl_cons, ← array_write_self, ← hyp]
    rfl

theorem writeEach_agree (codec : Codec Value) (memory : Memory) (address : Nat)
    {entries : List (Value × Nat)} (inside : ∀ entry ∈ entries, entry.2 < count) :
    AgreeOutside address (address + count * codec.size) memory
      (writeEach codec memory address entries) := by
  induction entries generalizing memory with
  | nil => exact fun _ _ => rfl
  | cons entry rest hyp =>
    rw [forall_mem_cons] at inside
    have room := Nat.mul_le_mul_right codec.size inside.1
    rw [Nat.succ_mul] at room
    exact (write_agree codec memory entry.1 (by omega) (by omega)).trans (hyp _ inside.2)

/-- Values set one behind the other replace a part of a list. -/
theorem foldl_set_zipIdx {values list : List Value} (fits : start + values.length ≤ list.length) :
    (values.zipIdx start).foldl (fun list entry => list.set entry.2 entry.1) list =
      list.take start ++ values ++ list.drop (start + values.length) := by
  induction values generalizing start list with
  | nil => simp
  | cons value rest hyp =>
    rw [length_cons] at fits
    have isTaken : (list.set start value).take (start + 1) = list.take start ++ [value] := by
      rw [take_add_one, take_set_of_le (Nat.le_refl start),
        getElem?_set_self (by omega)]
      rfl
    rw [zipIdx_cons, foldl_cons, hyp (by rw [length_set]; omega),
      drop_set_of_lt (by omega), isTaken, append_assoc (list.take start),
      singleton_append, length_cons, Nat.add_right_comm, Nat.add_assoc start]

/-! ### Little-endian words -/

def byte : Codec UInt8 where
  size := 1
  encode value _ := value
  decode bytes := bytes 0
  decode_encode _ := rfl
  decode_congr _ _ same := same 0 Nat.one_pos

def halfword : Codec UInt16 where
  size := 2
  encode value index := UInt8.ofNat (value.toNat / 256 ^ index)
  decode bytes := UInt16.ofNat ((bytes 0).toNat + 256 * (bytes 1).toNat)
  decode_encode value := by
    have bound := value.toNat_lt
    have joined : (UInt8.ofNat (value.toNat / 256 ^ 0)).toNat +
        256 * (UInt8.ofNat (value.toNat / 256 ^ 1)).toNat = value.toNat := by
      rw [UInt8.toNat_ofNat', UInt8.toNat_ofNat']
      omega
    rw [joined, UInt16.ofNat_toNat]
  decode_congr first second same := by
    rw [same 0 (by omega), same 1 (by omega)]

def word : Codec UInt32 where
  size := 4
  encode value index := UInt8.ofNat (value.toNat / 256 ^ index)
  decode bytes := UInt32.ofNat ((bytes 0).toNat + 256 * (bytes 1).toNat +
    65536 * (bytes 2).toNat + 16777216 * (bytes 3).toNat)
  decode_encode value := by
    have bound := value.toNat_lt
    have joined : (UInt8.ofNat (value.toNat / 256 ^ 0)).toNat +
        256 * (UInt8.ofNat (value.toNat / 256 ^ 1)).toNat +
        65536 * (UInt8.ofNat (value.toNat / 256 ^ 2)).toNat +
        16777216 * (UInt8.ofNat (value.toNat / 256 ^ 3)).toNat = value.toNat := by
      rw [UInt8.toNat_ofNat', UInt8.toNat_ofNat', UInt8.toNat_ofNat', UInt8.toNat_ofNat']
      omega
    rw [joined, UInt32.ofNat_toNat]
  decode_congr first second same := by
    rw [same 0 (by omega), same 1 (by omega), same 2 (by omega), same 3 (by omega)]

/-- A value and another one behind it. -/
def Codec.pair {First Second : Type} (first : Codec First) (second : Codec Second) :
    Codec (First × Second) where
  size := first.size + second.size
  encode value index :=
    if index < first.size then first.encode value.1 index
    else second.encode value.2 (index - first.size)
  decode bytes := (first.decode bytes, second.decode fun index => bytes (first.size + index))
  decode_encode value := by
    refine Prod.ext ?_ ?_
    · exact (first.decode_congr _ _ fun index inside => if_pos inside).trans
        (first.decode_encode value.1)
    · refine (second.decode_congr _ _ fun index inside => ?_).trans (second.decode_encode value.2)
      exact (if_neg (Nat.not_lt.mpr (Nat.le_add_right _ _))).trans
        (congrArg _ (Nat.add_sub_cancel_left _ _))
  decode_congr left right same :=
    Prod.ext (first.decode_congr _ _ fun index inside => same index (Nat.lt_add_right _ inside))
      (second.decode_congr _ _ fun index inside => same _ (Nat.add_lt_add_left inside _))

/-- The values of a type that is read back from another one. -/
def Codec.through {Source : Type} (codec : Codec Source) (into : Value → Source)
    (back : Source → Value) (returns : ∀ value, back (into value) = value) : Codec Value where
  size := codec.size
  encode value := codec.encode (into value)
  decode bytes := back (codec.decode bytes)
  decode_encode value := by rw [codec.decode_encode, returns]
  decode_congr first second same := congrArg back (codec.decode_congr first second same)

@[simp] theorem byte_size : byte.size = 1 := rfl

@[simp] theorem halfword_size : halfword.size = 2 := rfl

@[simp] theorem word_size : word.size = 4 := rfl

end ByteMemory
