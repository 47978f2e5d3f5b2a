/-
Records in byte-addressed memory, given by their fields one after the other.
-/
import VenomOS.ByteMemory

namespace ByteMemory

/-- The bytes are in memory from `addr` on. -/
def Carries (mem : Memory) (addr : Nat) (bytes : List UInt8) : Prop :=
  ∀ i < bytes.length, mem (addr + i) = bytes.getD i 0

variable {mem mem' : Memory} {addr addr' value width : Nat}
  {bytes other first second : List UInt8}

theorem carries_append :
    Carries mem addr (first ++ second) ↔
      Carries mem addr first ∧ Carries mem (addr + first.length) second := by
  constructor
  · intro hcarries
    refine ⟨fun i hi => ?_, fun i hi => ?_⟩
    · rw [hcarries i (by rw [List.length_append]; omega),
        List.getD_append _ _ _ _ hi]
    · rw [Nat.add_assoc, hcarries _ (by rw [List.length_append]; omega),
        List.getD_append_right _ _ _ _ (Nat.le_add_right _ _),
        Nat.add_sub_cancel_left]
  · rintro ⟨hfirst, hsecond⟩ i hi
    by_cases hin : i < first.length
    · rw [hfirst i hin, List.getD_append _ _ _ _ hin]
    · obtain ⟨k, rfl⟩ := Nat.exists_eq_add_of_le (Nat.le_of_not_lt hin)
      rw [List.length_append] at hi
      rw [← Nat.add_assoc, hsecond k (by omega),
        List.getD_append_right _ _ _ _ (Nat.le_add_right _ _),
        Nat.add_sub_cancel_left]

theorem Carries.congr (hcarries : Carries mem addr bytes)
    (hsame : ∀ i < bytes.length, mem' (addr' + i) = mem (addr + i)) :
    Carries mem' addr' bytes :=
  fun i hi => (hsame i hi).trans (hcarries i hi)

theorem Carries.readLE (hcarries : Carries mem addr (leBytes width value)) :
    readLE mem addr width = value % 256 ^ width := by
  refine readLE_of_bytes fun i hi => ?_
  rw [hcarries i (by simpa using hi)]
  simp [leBytes, hi]

theorem Carries.load (hcarries : Carries mem addr bytes) :
    load mem addr bytes.length = bytes := by
  refine List.ext_getElem load_length fun i hi hi' => ?_
  have hbyte := hcarries i hi'
  rw [List.getD_eq_getElem _ _ hi'] at hbyte
  simpa [ByteMemory.load] using hbyte

theorem carries_store : Carries (store mem addr bytes) addr bytes :=
  fun _ hi => store_inside hi

theorem Carries.store (hcarries : Carries mem addr bytes)
    (hapart : addr + bytes.length ≤ addr' ∨ addr' + other.length ≤ addr) :
    Carries (store mem addr' other) addr bytes := by
  intro i hi
  rw [store_outside (by omega), hcarries i hi]

section Items

variable {ι : Type*} {items : List ι} {start : ι → Nat}
  {block : ι → List UInt8} {item : ι}

theorem Carries.foldl_store (hcarries : Carries mem addr bytes)
    (hapart : ∀ item ∈ items, addr + bytes.length ≤ start item ∨
      start item + (block item).length ≤ addr) :
    Carries (items.foldl (fun mem item =>
      ByteMemory.store mem (start item) (block item)) mem) addr bytes := by
  induction items generalizing mem with
  | nil => exact hcarries
  | cons item items ih =>
      exact ih (hcarries.store (hapart item List.mem_cons_self))
        fun item hitem => hapart item (List.mem_cons_of_mem _ hitem)

/-- Of blocks that lie apart from each other each is there in the end. -/
theorem carries_foldl_store
    (hapart : items.Pairwise fun first second =>
      start first + (block first).length ≤ start second ∨
      start second + (block second).length ≤ start first)
    (hitem : item ∈ items) :
    Carries (items.foldl (fun mem item =>
      ByteMemory.store mem (start item) (block item)) mem) (start item)
      (block item) := by
  induction items generalizing mem with
  | nil => cases hitem
  | cons head items ih =>
      obtain ⟨hhead, hrest⟩ := List.pairwise_cons.1 hapart
      rcases List.mem_cons.1 hitem with rfl | hitem
      · exact carries_store.foldl_store hhead
      · exact ih hrest hitem

end Items

end ByteMemory
