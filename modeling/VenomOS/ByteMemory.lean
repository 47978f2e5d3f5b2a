/-
Byte-addressed memory.  Lists of bytes are stored and loaded at an address, and
numbers of any width are read least significant byte first.
-/
import Mathlib

namespace ByteMemory

abbrev Memory := Nat → UInt8

def store (mem : Memory) (addr : Nat) (bytes : List UInt8) : Memory :=
  fun x => if addr ≤ x ∧ x < addr + bytes.length then bytes.getD (x - addr) 0
    else mem x

def load (mem : Memory) (addr count : Nat) : List UInt8 :=
  (List.range count).map fun i => mem (addr + i)

/-- Byte `k` of a number, least significant first. -/
def leByte (value k : Nat) : UInt8 := UInt8.ofNat (value / 256 ^ k)

def leBytes (width value : Nat) : List UInt8 :=
  (List.range width).map (leByte value)

/-- The number in `width` bytes at `addr`. -/
def readLE (mem : Memory) (addr : Nat) : Nat → Nat
  | 0 => 0
  | width + 1 => (mem addr).toNat + 256 * readLE mem (addr + 1) width

/-- The code of an ASCII character. -/
def charCode (character : Char) : UInt8 := UInt8.ofNat character.toNat

/-- What holds of all 256 codes holds of every byte. -/
theorem forall_byte {p : UInt8 → Prop} (hall : ∀ n < 256, p (UInt8.ofNat n))
    (c : UInt8) : p c := by
  have hc := hall c.toNat c.toNat_lt
  rwa [UInt8.ofNat_toNat] at hc

variable {mem mem' : Memory} {addr other count width : Nat} {bytes : List UInt8}

theorem store_inside {i : Nat} (hi : i < bytes.length) :
    store mem addr bytes (addr + i) = bytes.getD i 0 := by
  simp [store, hi]

theorem store_outside {x : Nat} (hx : x < addr ∨ addr + bytes.length ≤ x) :
    store mem addr bytes x = mem x := by
  simp only [store, ite_eq_right_iff]
  omega

@[simp]
theorem store_nil : store mem addr [] = mem := by
  funext x
  exact store_outside (by simp; omega)

/-- Two stores side by side are one. -/
theorem store_store_append (first second : List UInt8) :
    store (store mem addr first) (addr + first.length) second =
      store mem addr (first ++ second) := by
  funext x
  by_cases hbelow : x < addr + first.length
  · rw [store_outside (Or.inl hbelow)]
    by_cases hin : addr ≤ x
    · obtain ⟨i, rfl⟩ := Nat.exists_eq_add_of_le hin
      have hi : i < first.length := by omega
      rw [store_inside hi, store_inside (by simp; omega)]
      simp [List.getD, List.getElem?_append_left hi]
    · rw [store_outside (by omega), store_outside (by omega)]
  · by_cases hin : x < addr + first.length + second.length
    · obtain ⟨i, rfl⟩ := Nat.exists_eq_add_of_le (Nat.le_of_not_lt hbelow)
      have hi : i < second.length := by omega
      rw [store_inside hi, Nat.add_assoc, store_inside (by simp; omega)]
      simp [List.getD, List.getElem?_append_right]
    · rw [store_outside (by omega), store_outside (by omega),
        store_outside (by simp; omega)]

@[simp]
theorem load_length : (load mem addr count).length = count := by
  simp [load]

@[simp]
theorem leBytes_length (value : Nat) : (leBytes width value).length = width := by
  simp [leBytes]

theorem load_congr (hsame : ∀ i < count, mem (addr + i) = mem' (addr + i)) :
    load mem addr count = load mem' addr count := by
  refine List.map_congr_left fun i hi => ?_
  exact hsame i (List.mem_range.mp hi)

theorem load_store_self (mem : Memory) (addr : Nat) (bytes : List UInt8) :
    load (store mem addr bytes) addr bytes.length = bytes := by
  refine List.ext_getElem (by simp) fun i hi hi' => ?_
  have hinside : store mem addr bytes (addr + i) = bytes.getD i 0 :=
    store_inside hi'
  simp [load, hinside, hi']

theorem load_store_outside
    (hapart : other + count ≤ addr ∨ addr + bytes.length ≤ other) :
    load (store mem addr bytes) other count = load mem other count := by
  refine load_congr fun i hi => store_outside ?_
  omega

theorem load_append (first second : Nat) :
    load mem addr (first + second) =
      load mem addr first ++ load mem (addr + first) second := by
  simp [load, List.range_add, Nat.add_assoc, Function.comp_def]

/-- Loading the front of what was stored. -/
theorem load_store_take (mem : Memory) (addr : Nat)
    (hcount : count ≤ bytes.length) :
    load (store mem addr bytes) addr count = bytes.take count := by
  obtain ⟨rest, hrest⟩ := Nat.exists_eq_add_of_le hcount
  have hwhole := load_store_self mem addr bytes
  rw [hrest, load_append] at hwhole
  rw [← hwhole, List.take_left' load_length]
  rw [hwhole]

theorem readLE_congr (hsame : ∀ i < width, mem (addr + i) = mem' (addr + i)) :
    readLE mem addr width = readLE mem' addr width := by
  induction width generalizing addr with
  | zero => rfl
  | succ width ih =>
      have hfirst : mem addr = mem' addr := hsame 0 (Nat.succ_pos _)
      have hrest : ∀ i < width, mem (addr + 1 + i) = mem' (addr + 1 + i) := by
        intro i hi
        have := hsame (i + 1) (Nat.succ_lt_succ hi)
        rwa [Nat.add_assoc, Nat.add_comm 1 i]
      simp only [readLE, hfirst, ih hrest]

theorem readLE_lt (mem : Memory) (addr width : Nat) :
    readLE mem addr width < 256 ^ width := by
  induction width generalizing addr with
  | zero => simp [readLE]
  | succ width ih =>
      have hbyte := (mem addr).toNat_lt
      have hrest := ih (addr + 1)
      simp only [readLE, Nat.pow_succ]
      omega

/-- Memory that holds the bytes of a number reads as this number. -/
theorem readLE_of_bytes {value : Nat}
    (hbytes : ∀ i < width, mem (addr + i) = leByte value i) :
    readLE mem addr width = value % 256 ^ width := by
  induction width generalizing addr value with
  | zero => simp [readLE, Nat.mod_one]
  | succ width ih =>
      have hfirst : mem addr = leByte value 0 := hbytes 0 (Nat.succ_pos _)
      have hrest : ∀ i < width, mem (addr + 1 + i) = leByte (value / 256) i := by
        intro i hi
        have hbyte := hbytes (i + 1) (Nat.succ_lt_succ hi)
        rw [Nat.add_assoc, Nat.add_comm 1 i, hbyte, leByte, leByte,
          Nat.div_div_eq_div_mul, Nat.pow_succ']
      have hlow : (leByte value 0).toNat = value % 256 := by
        simp [leByte]
      rw [readLE, hfirst, ih hrest, hlow, Nat.pow_succ', Nat.mod_mul]

theorem readLE_store_leBytes (mem : Memory) (addr width value : Nat) :
    readLE (store mem addr (leBytes width value)) addr width =
      value % 256 ^ width := by
  refine readLE_of_bytes fun i hi => ?_
  rw [store_inside (by simpa using hi)]
  simp [leBytes, hi]

theorem readLE_store_outside
    (hapart : other + width ≤ addr ∨ addr + bytes.length ≤ other) :
    readLE (store mem addr bytes) other width = readLE mem other width := by
  refine readLE_congr fun i hi => store_outside ?_
  omega

end ByteMemory
