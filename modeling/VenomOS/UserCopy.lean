/-
Copies between the kernel and user memory.  The definitions follow
`kernel/usercopy.cpp`: a range is walked page by page through the tables of
the address space in use, before a byte of it is touched.
-/
import VenomOS.Elf
import VenomOS.PagingGrove

namespace VenomOS

namespace UserCopy

open ByteMemory RadixTable Paging

variable (st : State)

def pageIsUserAccessible (pageAddr : Nat) (requireWritable : Bool) : Bool :=
  let pml4Entry := st.entry (st.cr3 &&& addrMask) (pml4Index pageAddr)
  if !hasFlag pml4Entry pagePresent || !hasFlag pml4Entry pageUser then false
  else
    let pdptEntry := st.entry (pml4Entry &&& addrMask) (pdptIndex pageAddr)
    if !hasFlag pdptEntry pagePresent || !hasFlag pdptEntry pageUser then false
    else if hasFlag pdptEntry pageHuge then
      !requireWritable || hasFlag pdptEntry pageWritable
    else
      let pdEntry := st.entry (pdptEntry &&& addrMask) (pdIndex pageAddr)
      if !hasFlag pdEntry pagePresent || !hasFlag pdEntry pageUser then false
      else if hasFlag pdEntry pageHuge then
        !requireWritable || hasFlag pdEntry pageWritable
      else
        let ptEntry := st.entry (pdEntry &&& addrMask) (ptIndex pageAddr)
        if !hasFlag ptEntry pagePresent || !hasFlag ptEntry pageUser then false
        else !requireWritable || hasFlag ptEntry pageWritable

/-- The pages of the 64-bit address space. -/
abbrev pageCount : Nat := 0x10000000000000

/-- The page of an address; a multiple of 4096 is given by its quotient. -/
def pageNumber (addr : Nat) : Fin pageCount := Fin.ofNat pageCount (addr / 4096)

variable {addr length : Nat} {bytes : List UInt8} {mem : Memory}
  {page last : Fin pageCount}

theorem sub_succ_lt (hne : page ≠ last) :
    (last - (page + 1)).val < (last - page).val := by
  have hne' : page.val ≠ last.val := fun heq => hne (Fin.ext heq)
  have hpage := page.isLt
  have hlast := last.isLt
  simp only [Fin.sub_def, Fin.add_def, Fin.val_one, pageCount] at *
  omega

/-- The loop over the pages of a range, which stops at the last one. -/
def pagesAccessible (requireWritable : Bool) (page last : Fin pageCount) :
    Bool :=
  if !pageIsUserAccessible st (page.val * 4096) requireWritable then false
  else if hlast : page = last then true
  else pagesAccessible requireWritable (page + 1) last
termination_by (last - page).val
decreasing_by exact sub_succ_lt hlast

def validateUserRange (addr length : Nat) (requireWritable : Bool) : Bool :=
  if length = 0 then true
  else
    let stop := (addr + length) % 2 ^ 64
    if stop < addr then false
    else if addr < Elf.userSpaceMin then false
    else if Elf.userSpaceMax < stop then false
    else
      pagesAccessible st requireWritable (pageNumber addr)
        (pageNumber (stop - 1))

/-- The physical address behind a virtual one. -/
def userAddr (virtAddr : Nat) : Option Nat :=
  (translate st.mem (st.cr3 &&& addrMask) virtAddr).map fun mapping =>
    mapping.frame + virtAddr % 4096

/-- A read by the kernel; without a translation it is a page fault. -/
def loadUser (virtAddr : Nat) : Option UInt8 :=
  (userAddr st virtAddr).map st.mem

/-- A write by the kernel, with CR0.WP set. -/
def storeUser (virtAddr : Nat) (byte : UInt8) : Option State :=
  match translate st.mem (st.cr3 &&& addrMask) virtAddr with
  | some mapping =>
      if mapping.writable then
        some { st with
          mem := Function.update st.mem (mapping.frame + virtAddr % 4096)
            byte }
      else none
  | none => none

/-- How a copy ends: it is refused, it stops at a page fault, or all is
copied. -/
inductive Copied (α : Type) where
  | refused
  | fault
  | done (result : α)
  deriving DecidableEq

/-- The loop of `copyFromUser`, at the byte with index `i`. -/
def loadBytes (userSrc : Nat) : Nat → Nat → Option (List UInt8)
  | _, 0 => some []
  | i, length + 1 =>
      (loadUser st ((userSrc + i) % 2 ^ 64)).bind fun byte =>
        (loadBytes userSrc (i + 1) length).map (byte :: ·)

def copyFromUser (userSrc length : Nat) : Copied (List UInt8) :=
  if !validateUserRange st userSrc length false then .refused
  else
    match loadBytes st userSrc 0 length with
    | some bytes => .done bytes
    | none => .fault

/-- The loop of `copyToUser`, at the byte with index `i`. -/
def storeBytes (userDst : Nat) : State → Nat → List UInt8 → Option State
  | st, _, [] => some st
  | st, i, byte :: bytes =>
      (storeUser st ((userDst + i) % 2 ^ 64) byte).bind fun st =>
        storeBytes userDst st (i + 1) bytes

def copyToUser (userDst : Nat) (bytes : List UInt8) : Copied State :=
  if !validateUserRange st userDst bytes.length true then .refused
  else
    match storeBytes userDst st 0 bytes with
    | some st => .done st
    | none => .fault

/-- What user mode may do at an address under the rules of the processor:
every level is present and for the user and, if asked for, writable. -/
def Accessible (virtAddr : Nat) (requireWritable : Bool) : Prop :=
  ∃ mapping, Paging.translate st.mem (st.cr3 &&& addrMask) virtAddr =
    some mapping ∧ mapping.user = true ∧
      (requireWritable = true → mapping.writable = true)

/-- What was met on the way to a page is enough for the access. -/
def Suffices (requireWritable : Bool) (found : Option (Rights × Page × Path)) :
    Prop :=
  ∃ leaf, found = some leaf ∧ leaf.1.1 = true ∧
    (requireWritable = true → leaf.1.2.1 = true)

variable {st} {live : Set Nat} {label : Nat → Option (Nat × Path)}
  {requireWritable : Bool}

theorem accessible_iff_suffices (virtAddr : Nat) :
    Accessible st virtAddr requireWritable ↔ Suffices requireWritable
      (walk (view st.mem) (st.cr3 &&& addrMask) (vaPath virtAddr)) := by
  unfold Accessible Suffices Paging.translate
  cases walk (view st.mem) (st.cr3 &&& addrMask) (vaPath virtAddr) with
  | none => simp
  | some found => simp

theorem not_suffices_none : ¬ Suffices requireWritable none := by
  rintro ⟨_, hnone, _⟩
  cases hnone

theorem suffices_some (found : Rights × Page × Path) :
    Suffices requireWritable (some found) ↔
      found.1.1 = true ∧ (requireWritable = true → found.1.2.1 = true) := by
  simp [Suffices]

/-- A link to a table takes no right to write away, where one is asked
for. -/
theorem suffices_link {above : Rights}
    (hpasses : requireWritable = true → passage ≤ above)
    (found : Option (Rights × Page × Path)) :
    Suffices requireWritable
        (found.map fun found => (above ⊓ found.1, found.2)) ↔
      above.1 = true ∧ Suffices requireWritable found := by
  have hwritable : requireWritable = true → above.2.1 = true :=
    fun hwrite => top_le_iff.mp (hpasses hwrite).2.1
  cases found with
  | none => simp [not_suffices_none]
  | some found =>
      have huser : (above ⊓ found.1).1 = (above.1 && found.1.1) := rfl
      cases requireWritable with
      | false => simp [suffices_some, huser]
      | true => simp [suffices_some, huser, hwritable, and_assoc]

/-- An entry that maps a page and none that links to a table. -/
def Last (depth entry : Nat) : Prop :=
  depth = 3 ∨ (depth = 1 ∨ depth = 2) ∧ entry.testBit 7 = true

theorem decode_link_of_not_last {depth entry : Nat} (hdepth : depth ≤ 3)
    (hpresent : entry.testBit 0 = true) (hlast : ¬ Last depth entry) :
    decode depth entry = .link (rights entry) (entry &&& addrMask) := by
  simp only [Last, not_or, not_and, Bool.not_eq_true] at hlast
  refine decode_link (by omega) hpresent ?_
  rcases Nat.eq_zero_or_pos depth with hzero | hpos
  · exact .inl hzero
  · exact .inr (hlast.2 (by omega))

section Slot

variable {table i : Nat} {path : Path}
  (hgrove : requireWritable = true → Grove st live label)
  (htable : requireWritable = true → ∃ root, label table = some (root, path))
  (hi : i < 512) (hdepth : path.length ≤ 3)

include hgrove htable hi hdepth

theorem suffices_slot (rest : Path) :
    Suffices requireWritable
        (gather (· ⊓ ·) (view st.mem) path table (i :: rest)) ↔
      (st.entry table i).testBit 0 = true ∧
      (st.entry table i).testBit 2 = true ∧
      (Last path.length (st.entry table i) →
        requireWritable = true → (st.entry table i).testBit 1 = true) ∧
      (¬ Last path.length (st.entry table i) → Suffices requireWritable
        (gather (· ⊓ ·) (view st.mem) (path ++ [i])
          (st.entry table i &&& addrMask) rest)) := by
  have hview : view st.mem path table i =
      decode path.length (st.entry table i) := viewHiding_shown rfl hi
  have hpasses : requireWritable = true → ∀ {above next},
      view st.mem path table i = .link above next → passage ≤ above := by
    intro hwrite
    obtain ⟨root, hlabel⟩ := htable hwrite
    exact (hgrove hwrite).tables.passes hlabel
  rw [gather_cons]
  generalize st.entry table i = entry at *
  cases hpresent : entry.testBit 0 with
  | false =>
      rw [hview, decode_absent hpresent]
      simp [not_suffices_none]
  | true =>
      by_cases hlast : Last path.length entry
      · obtain ⟨page, hleaf⟩ := decode_leaf hpresent hlast
        rw [hview, hleaf]
        simp [hlast, suffices_some, rights]
      · have hlink := decode_link_of_not_last hdepth hpresent hlast
        rw [hview, hlink]
        simp only
        rw [suffices_link fun hwrite => hpasses hwrite (hview.trans hlink)]
        simp [hlast, rights]

/-- The table behind an entry that links to one. -/
theorem label_next (hpresent : (st.entry table i).testBit 0 = true)
    (hlast : ¬ Last path.length (st.entry table i))
    (hwrite : requireWritable = true) :
    ∃ root, label (st.entry table i &&& addrMask) =
      some (root, path ++ [i]) := by
  have hview : view st.mem path table i =
      decode path.length (st.entry table i) := viewHiding_shown rfl hi
  obtain ⟨root, hlabel⟩ := htable hwrite
  exact ⟨(sharedScheme.child (root, path) i).1,
    (hgrove hwrite).tables.labelled.linked hlabel (hview.trans
      (decode_link_of_not_last hdepth hpresent hlast))⟩

/-- One level of `pageIsUserAccessible`: an entry is the last one, or the
tables behind it decide. -/
theorem level_iff {rest : Path} {last below : Bool}
    (hlast : last = true ↔ Last path.length (st.entry table i))
    (hbelow : (requireWritable = true → ∃ root,
        label (st.entry table i &&& addrMask) = some (root, path ++ [i])) →
      (below = true ↔ Suffices requireWritable (gather (· ⊓ ·)
        (view st.mem) (path ++ [i]) (st.entry table i &&& addrMask) rest))) :
    (if !(st.entry table i).testBit 0 || !(st.entry table i).testBit 2 then
        false
      else if last then !requireWritable || (st.entry table i).testBit 1
      else below) = true ↔
    Suffices requireWritable
      (gather (· ⊓ ·) (view st.mem) path table (i :: rest)) := by
  rw [suffices_slot hgrove htable hi hdepth, ← hlast]
  cases hpresent : (st.entry table i).testBit 0 with
  | false => simp
  | true =>
      cases (st.entry table i).testBit 2 with
      | false => simp
      | true =>
          cases last with
          | true => cases requireWritable <;> simp
          | false =>
              rw [← hbelow (label_next hgrove htable hi hdepth hpresent
                (by simpa using hlast))]
              simp

end Slot

/-- A page can be read if its entries say so, whatever the tables; for writes
the tables must be those of a tree. -/
theorem pageIsUserAccessible_iff
    (hgrove : requireWritable = true → Grove st live label)
    (virtAddr : Nat) :
    pageIsUserAccessible st virtAddr requireWritable = true ↔
      Accessible st virtAddr requireWritable := by
  have hnone : ∀ entry, false = true ↔ Last 0 entry := by simp [Last]
  have hlast : ∀ entry, true = true ↔ Last 3 entry := by simp [Last]
  rw [accessible_iff_suffices, walk, vaPath]
  unfold pageIsUserAccessible
  simp only [hasFlag_present, hasFlag_user, hasFlag_huge, hasFlag_writable]
  refine level_iff hgrove
    (fun hwrite => ⟨_, (hgrove hwrite).roots _ (hgrove hwrite).cr3⟩)
    (pml4Index_lt _) (by simp) (hnone _) fun hpdpt => ?_
  refine level_iff hgrove hpdpt (pdptIndex_lt _) (by simp)
    (by simp [Last]) fun hpd => ?_
  refine level_iff hgrove hpd (pdIndex_lt _) (by simp)
    (by simp [Last]) fun hpt => ?_
  refine level_iff hgrove hpt (ptIndex_lt _) (by simp) (hlast _) fun _ =>
    iff_of_false Bool.false_ne_true not_suffices_none

theorem pagesAccessible_iff (hle : page ≤ last) :
    pagesAccessible st requireWritable page last = true ↔
      ∀ p, page.val ≤ p → p ≤ last.val →
        pageIsUserAccessible st (p * 4096) requireWritable = true := by
  fun_induction pagesAccessible st requireWritable page last with
  | case1 page hdenied =>
      refine iff_of_false Bool.false_ne_true fun hall => ?_
      rw [hall page.val le_rfl hle] at hdenied
      cases hdenied
  | case2 hallowed =>
      refine iff_of_true rfl fun p hge hle' => ?_
      obtain rfl := le_antisymm hge hle'
      simpa using hallowed
  | case3 page hallowed hne ih =>
      have hlt : page.val < last.val :=
        lt_of_le_of_ne hle fun heq => hne (Fin.ext heq)
      have hnext : (page + 1).val = page.val + 1 := by
        have hbound := last.isLt
        rw [Fin.val_add, Fin.val_one, Nat.mod_eq_of_lt (by omega)]
      rw [ih (Fin.le_def.mpr (hnext ▸ hlt)), hnext]
      refine ⟨fun hall p hge hle' => ?_, fun hall p hge => hall p (by omega)⟩
      rcases Nat.eq_or_lt_of_le hge with rfl | hlater
      · simpa using hallowed
      · exact hall p hlater hle'

/-- A range that user mode may access. -/
structure UserRange (st : State) (addr length : Nat) (requireWritable : Bool) :
    Prop where
  noWrap : addr + length < 2 ^ 64
  min : Elf.userSpaceMin ≤ addr
  max : addr + length ≤ Elf.userSpaceMax
  accessible : ∀ i < length, Accessible st (addr + i) requireWritable

theorem accessible_page {virtAddr page : Nat} (hlt : virtAddr < 2 ^ 48)
    (hpage : virtAddr / 4096 = page) :
    Accessible st (page * 4096) requireWritable ↔
      Accessible st virtAddr requireWritable := by
  have hpath : vaPath (page * 4096) = vaPath virtAddr :=
    (vaPath_inj (by omega) hlt).mpr (by omega)
  rw [accessible_iff_suffices, accessible_iff_suffices, hpath]

theorem pageNumber_val {addr : Nat} (hlt : addr < 2 ^ 64) :
    (pageNumber addr).val = addr / 4096 := by
  have hbound : addr / 4096 < pageCount := by
    unfold pageCount
    omega
  exact Nat.mod_eq_of_lt hbound

/-- The pages of a range are those of its bytes, the two partial ones at its
ends among them. -/
theorem pages_iff_bytes
    (hgrove : requireWritable = true → Grove st live label)
    (hpos : length ≠ 0) (hmax : addr + length ≤ Elf.userSpaceMax) :
    (∀ p, addr / 4096 ≤ p → p ≤ (addr + length - 1) / 4096 →
      pageIsUserAccessible st (p * 4096) requireWritable = true) ↔
    ∀ i < length, Accessible st (addr + i) requireWritable := by
  have hcanonical : Elf.userSpaceMax < 2 ^ 48 := by decide
  simp only [pageIsUserAccessible_iff hgrove]
  refine ⟨fun hpages i hi => ?_, fun hbytes p hge hle => ?_⟩
  · rw [← accessible_page (by omega) rfl]
    exact hpages _ (by omega) (by omega)
  · have hbyte := hbytes (max addr (p * 4096) - addr) (by omega)
    exact (accessible_page (by omega) (by omega)).mpr hbyte

theorem validateUserRange_iff
    (hgrove : requireWritable = true → Grove st live label)
    (haddr : addr < 2 ^ 64) (hlength : length < 2 ^ 64) :
    validateUserRange st addr length requireWritable = true ↔
      length = 0 ∨ UserRange st addr length requireWritable := by
  unfold validateUserRange
  by_cases hzero : length = 0
  · simp [hzero]
  simp only [hzero, if_false, false_or]
  by_cases hwrap : addr + length < 2 ^ 64
  · rw [Nat.mod_eq_of_lt hwrap, if_neg (by omega)]
    by_cases hmin : addr < Elf.userSpaceMin
    · rw [if_pos hmin]
      exact iff_of_false Bool.false_ne_true fun hrange =>
        Nat.not_lt.mpr hrange.min hmin
    by_cases hmax : Elf.userSpaceMax < addr + length
    · rw [if_neg hmin, if_pos hmax]
      exact iff_of_false Bool.false_ne_true fun hrange =>
        Nat.not_lt.mpr hrange.max hmax
    rw [if_neg hmin, if_neg hmax, pagesAccessible_iff ?_, pageNumber_val haddr,
      pageNumber_val (by omega), pages_iff_bytes hgrove hzero (by omega)]
    · exact ⟨fun hbytes => ⟨hwrap, by omega, by omega, hbytes⟩,
        fun hrange => hrange.accessible⟩
    · rw [Fin.le_def, pageNumber_val haddr, pageNumber_val (by omega)]
      omega
  · have hmod : (addr + length) % 2 ^ 64 < addr := by omega
    rw [if_pos hmod]
    exact iff_of_false Bool.false_ne_true fun hrange => hwrap hrange.noWrap

/-- The range is empty or user mode may access it. -/
def Valid (st : State) (addr length : Nat) (requireWritable : Bool) : Prop :=
  length = 0 ∨ UserRange st addr length requireWritable

theorem Valid.range {addr length i : Nat}
    (hvalid : Valid st addr length requireWritable) (hi : i < length) :
    UserRange st addr length requireWritable := by
  rcases hvalid with rfl | hrange
  · exact absurd hi (Nat.not_lt_zero i)
  · exact hrange

theorem Valid.mod_eq {addr length i : Nat}
    (hvalid : Valid st addr length requireWritable) (hi : i < length) :
    (addr + i) % 2 ^ 64 = addr + i := by
  have hwrap := (hvalid.range hi).noWrap
  exact Nat.mod_eq_of_lt (by omega)

/-- The bytes that the processor reads in a range. -/
def userBytes (st : State) (addr length : Nat) : List UInt8 :=
  (List.range length).map fun i => (loadUser st (addr + i)).getD 0

theorem Valid.load {addr length i : Nat}
    (hvalid : Valid st addr length requireWritable) (hi : i < length) :
    loadUser st (addr + i) = some ((loadUser st (addr + i)).getD 0) := by
  obtain ⟨mapping, hmapping, _⟩ := (hvalid.range hi).accessible i hi
  simp [loadUser, userAddr, hmapping]

theorem Valid.loadBytes (hvalid : Valid st addr length requireWritable)
    {i n : Nat} (hn : i + n ≤ length) :
    UserCopy.loadBytes st addr i n = some ((List.range' i n).map fun i =>
      (loadUser st (addr + i)).getD 0) := by
  induction n generalizing i with
  | zero => rfl
  | succ n ih =>
      rw [UserCopy.loadBytes, hvalid.mod_eq (by omega),
        hvalid.load (by omega), Option.bind_some, ih (by omega),
        List.range'_succ]
      rfl

theorem copyFromUser_eq (haddr : addr < 2 ^ 64) (hlength : length < 2 ^ 64) :
    (¬ Valid st addr length false → copyFromUser st addr length = .refused) ∧
    (Valid st addr length false →
      copyFromUser st addr length = .done (userBytes st addr length)) := by
  have hiff : validateUserRange st addr length false = true ↔
      Valid st addr length false :=
    @validateUserRange_iff st addr length ∅ (fun _ => none) false (by simp)
      haddr hlength
  unfold copyFromUser
  refine ⟨fun hinvalid => ?_, fun hvalid => ?_⟩
  · rw [if_pos (by simpa [← hiff] using hinvalid)]
  · rw [if_neg (by simp [hiff.mpr hvalid]), hvalid.loadBytes (by omega),
      userBytes, List.range_eq_range']

theorem UserRange.sub {addr length offset count : Nat}
    (hrange : UserRange st addr length requireWritable)
    (hle : offset + count ≤ length) :
    UserRange st (addr + offset) count requireWritable where
  noWrap := by have hwrap := hrange.noWrap; omega
  min := by have hmin := hrange.min; omega
  max := by have hmax := hrange.max; omega
  accessible i hi := by
    rw [Nat.add_assoc]
    exact hrange.accessible _ (by omega)

/-- A readable range and a readable chunk behind it. -/
theorem Valid.append {addr length count : Nat}
    (hvalid : Valid st addr length requireWritable)
    (hchunk : UserRange st (addr + length) count requireWritable) :
    Valid st addr (length + count) requireWritable := by
  refine .inr ⟨?_, ?_, ?_, ?_⟩
  · rw [← Nat.add_assoc]
    exact hchunk.noWrap
  · rcases hvalid with rfl | hrange
    · exact hchunk.min
    · exact hrange.min
  · rw [← Nat.add_assoc]
    exact hchunk.max
  · intro i hi
    by_cases hfirst : i < length
    · exact (hvalid.range hfirst).accessible i hfirst
    · have hbyte := hchunk.accessible (i - length) (by omega)
      rwa [Nat.add_assoc, Nat.add_sub_cancel' (Nat.le_of_not_lt hfirst)]
        at hbyte

theorem userBytes_append (st : State) (addr length count : Nat) :
    userBytes st addr (length + count) =
      userBytes st addr length ++ userBytes st (addr + length) count := by
  simp only [userBytes, List.range_add, List.map_append, List.map_map]
  congr 1
  refine List.map_congr_left fun i _ => ?_
  simp [Nat.add_assoc]

theorem Valid.readable (hvalid : Valid st addr length requireWritable)
    (i : Nat) (hi : i < length) : Accessible st (addr + i) requireWritable :=
  (hvalid.range hi).accessible i hi

/-- No byte of a range is part of a table of the live trees. -/
def OffTables (st : State) (live : Set Nat) (addr length : Nat) : Prop :=
  ∀ i < length, ∀ phys ∈ userAddr st (addr + i), ∀ frame,
    TableOf st live frame → phys < frame ∨ frame + 4096 ≤ phys

/-- Memory after bytes have been stored one after the other, each at the
address that the tables of `st` give for it. -/
def stored (st : State) (addr : Nat) : Memory → Nat → List UInt8 → Memory
  | mem, _, [] => mem
  | mem, i, byte :: bytes =>
      stored st addr ((userAddr st (addr + i)).elim mem fun phys =>
        Function.update mem phys byte) (i + 1) bytes

/-- Memory that differs from that of a state outside of the tables only. -/
def Beside (st : State) (live : Set Nat) (mem : Memory) : Prop :=
  ∀ frame, TableOf st live frame →
    ∀ addr, frame ≤ addr → addr < frame + 4096 → mem addr = st.mem addr

theorem Beside.elsewhere (hgrove : Grove st live label)
    (hbeside : Beside st live mem) :
    Elsewhere st live { st with mem := mem } where
  tables := by
    rintro frame htable
    refine ⟨hbeside frame htable, ?_⟩
    obtain ⟨root, hroot, path, hleads⟩ := htable
    obtain ⟨l, hl, _⟩ := hgrove.label_way hroot hleads
    exact (hgrove.tables.reserved hl).used
  zero := hgrove.tables.zero
  cr3 := hgrove.cr3

theorem Beside.translate_eq (hgrove : Grove st live label)
    (hbeside : Beside st live mem) (virtAddr : Nat) :
    Paging.translate mem (st.cr3 &&& addrMask) virtAddr =
      Paging.translate st.mem (st.cr3 &&& addrMask) virtAddr := by
  have hsame := hgrove.gather_elsewhere (hbeside.elsewhere hgrove) (· ⊓ ·)
    hgrove.cr3 (vaPath virtAddr)
  rw [Paging.translate, Paging.translate, walk, walk, hsame]

theorem Beside.update (hbeside : Beside st live mem) {phys : Nat}
    {byte : UInt8}
    (hoff : ∀ frame, TableOf st live frame →
      phys < frame ∨ frame + 4096 ≤ phys) :
    Beside st live (Function.update mem phys byte) := by
  intro frame htable addr hge hlt
  have hne : addr ≠ phys := by
    have hout := hoff frame htable
    omega
  rw [Function.update_of_ne hne]
  exact hbeside frame htable addr hge hlt

theorem Valid.storeBytes (hgrove : Grove st live label)
    (hvalid : Valid st addr length true)
    (hoff : OffTables st live addr length) {i : Nat}
    (hbytes : i + bytes.length ≤ length) (hbeside : Beside st live mem) :
    UserCopy.storeBytes addr { st with mem := mem } i bytes =
      some { st with mem := stored st addr mem i bytes } := by
  induction bytes generalizing i mem with
  | nil => rfl
  | cons byte bytes ih =>
      rw [List.length_cons] at hbytes
      have hi : i < length := by omega
      obtain ⟨mapping, hmapping, _, hwritable⟩ :=
        (hvalid.range hi).accessible i hi
      have hphys : userAddr st (addr + i) =
          some (mapping.frame + (addr + i) % 4096) := by
        simp [userAddr, hmapping]
      have hstore : storeUser { st with mem := mem } (addr + i) byte =
          some { st with
            mem := Function.update mem (mapping.frame + (addr + i) % 4096)
              byte } := by
        simp only [storeUser, hbeside.translate_eq hgrove, hmapping,
          hwritable rfl, if_true]
      rw [UserCopy.storeBytes, hvalid.mod_eq hi, hstore, Option.bind_some,
        ih (by omega) (hbeside.update (hoff i hi _ hphys)), stored, hphys]
      rfl

theorem copyToUser_eq (hgrove : Grove st live label) {addr : Nat}
    (haddr : addr < 2 ^ 64) (hlength : bytes.length < 2 ^ 64) :
    (¬ Valid st addr bytes.length true →
      copyToUser st addr bytes = .refused) ∧
    (Valid st addr bytes.length true → OffTables st live addr bytes.length →
      copyToUser st addr bytes =
        .done { st with mem := stored st addr st.mem 0 bytes }) := by
  have hiff : validateUserRange st addr bytes.length true = true ↔
      Valid st addr bytes.length true :=
    validateUserRange_iff (fun _ => hgrove) haddr hlength
  unfold copyToUser
  refine ⟨fun hinvalid => ?_, fun hvalid hoff => ?_⟩
  · rw [if_pos (by simpa [← hiff] using hinvalid)]
  · have hstore : storeBytes addr st 0 bytes =
        some { st with mem := stored st addr st.mem 0 bytes } :=
      hvalid.storeBytes hgrove hoff (by omega) fun _ _ _ _ _ => rfl
    rw [if_neg (by simp [hiff.mpr hvalid])]
    simp only [hstore]

theorem copyToUser_refused_iff {addr : Nat} :
    copyToUser st addr bytes = .refused ↔
      validateUserRange st addr bytes.length true = false := by
  rw [copyToUser]
  cases validateUserRange st addr bytes.length true with
  | false => simp
  | true => cases storeBytes addr st 0 bytes <;> simp

/-- Validation is exact for the trees of every run, and a copy moves all of
its bytes or none. -/
theorem user_range_exact (hbuilt : Built st live) {addr length : Nat}
    (haddr : addr < 2 ^ 64) (hlength : length < 2 ^ 64) :
    (∀ requireWritable,
      validateUserRange st addr length requireWritable = true ↔
        length = 0 ∨ UserRange st addr length requireWritable) ∧
    ((¬ Valid st addr length false →
        copyFromUser st addr length = .refused) ∧
      (Valid st addr length false → ∃ bytes,
        copyFromUser st addr length = .done bytes ∧ bytes.length = length ∧
          ∀ i < length, loadUser st (addr + i) = bytes[i]?)) ∧
    (∀ bytes : List UInt8, bytes.length = length →
      (¬ Valid st addr length true →
        copyToUser st addr bytes = .refused) ∧
      (Valid st addr length true → OffTables st live addr length →
        copyToUser st addr bytes =
          .done { st with mem := stored st addr st.mem 0 bytes })) := by
  obtain ⟨label, hgrove⟩ := hbuilt.grove
  refine ⟨fun requireWritable =>
    validateUserRange_iff (fun _ => hgrove) haddr hlength,
    ⟨(copyFromUser_eq haddr hlength).1, fun hvalid => ?_⟩, ?_⟩
  · refine ⟨_, (copyFromUser_eq haddr hlength).2 hvalid,
      by simp [userBytes], fun i hi => ?_⟩
    rw [hvalid.load hi]
    simp [userBytes, hi]
  · rintro bytes rfl
    exact copyToUser_eq hgrove haddr hlength

/-- A machine with one page for the user. -/
def onePage : State := (bootState.mapPageIn bootPml4 0x40000000 0x500000 7).1

theorem onePage_built : Built onePage {bootPml4} :=
  .operation (.boot bootState_boot) (.mapPageIn rfl)

theorem onePage_translate : ∀ i < 16, Paging.translate onePage.mem
    (onePage.cr3 &&& addrMask) (0x40000FF0 + i) =
      some ⟨0x500000, true, true, false⟩ := by
  decide +kernel

theorem onePage_range : UserRange onePage 0x40000FF0 16 true where
  noWrap := by decide
  min := by decide
  max := by decide
  accessible i hi := ⟨_, onePage_translate i hi, rfl, fun _ => rfl⟩

theorem onePage_readable : Valid onePage 0x40000FF0 16 false :=
  .inr { onePage_range with
    accessible := fun i hi => ⟨_, onePage_translate i hi, rfl, nofun⟩ }

theorem onePage_offTables :
    OffTables onePage {bootPml4} 0x40000FF0 16 := by
  intro i hi phys hphys frame htable
  obtain ⟨label, hgrove⟩ := onePage_built.grove
  obtain ⟨root, hroot, path, hleads⟩ := htable
  obtain ⟨l, hl, _⟩ := hgrove.label_way hroot hleads
  have hreserved := hgrove.tables.reserved hl
  have hphys' : phys = 0x500000 + (0x40000FF0 + i) % 4096 := by
    simpa [userAddr, onePage_translate i hi, eq_comm] using hphys
  have hclear : onePage.pmm.used (0x500000 / 4096) = false := by
    decide +kernel
  have hne : frame ≠ 0x500000 := by
    rintro rfl
    exact Bool.false_ne_true (hclear.symm.trans hreserved.used)
  have haligned := hreserved.aligned
  omega

theorem user_range_exact_onePage :
    validateUserRange onePage 0x40000FF0 16 true = true ∧
    validateUserRange onePage 0x40000FF0 17 true = false ∧
    ∃ st', copyToUser onePage 0x40000FF0 (List.replicate 16 0x41) =
      .done st' := by
  have hwhole := @user_range_exact _ _ onePage_built 0x40000FF0 16
    (by decide) (by decide)
  have hbeyond := @user_range_exact _ _ onePage_built 0x40000FF0 17
    (by decide) (by decide)
  refine ⟨(hwhole.1 true).mpr (.inr onePage_range), ?_, _,
    (hwhole.2.2 _ (by simp)).2 (.inr onePage_range) onePage_offTables⟩
  rw [← Bool.not_eq_true, hbeyond.1 true]
  rintro (hzero | hrange)
  · cases hzero
  · obtain ⟨mapping, hmapping, _⟩ := hrange.accessible 16 (by decide)
    have hnone : Paging.translate onePage.mem (onePage.cr3 &&& addrMask)
        (0x40000FF0 + 16) = none := by
      decide +kernel
    rw [hnone] at hmapping
    cases hmapping

/-- The page table behind the page of `onePage`. -/
def pageTable : Nat :=
  onePage.entry (onePage.entry (onePage.entry bootPml4 0 &&& addrMask) 1 &&&
    addrMask) 0 &&& addrMask

/-- The page table is itself mapped for the user, as the next page. -/
def tablePage : State :=
  (onePage.mapPageIn bootPml4 0x40001000 pageTable 7).1

theorem tablePage_translate : ∀ i < 16, Paging.translate tablePage.mem
    (tablePage.cr3 &&& addrMask) (0x40001000 + i) =
      some ⟨pageTable, true, true, false⟩ := by
  decide +kernel

/-- The ninth byte of the copy takes away the page that the copy goes to. -/
theorem copy_into_table_stops : Built tablePage {bootPml4} ∧
    validateUserRange tablePage 0x40001000 16 true = true ∧
    (∃ st, storeBytes 0x40001000 tablePage 0 (List.replicate 9 0) = some st ∧
      st.mem pageTable ≠ tablePage.mem pageTable) ∧
    copyToUser tablePage 0x40001000 (List.replicate 16 0) = .fault := by
  have hbuilt : Built tablePage {bootPml4} :=
    .operation onePage_built (.mapPageIn rfl)
  have hvalid : validateUserRange tablePage 0x40001000 16 true = true := by
    obtain ⟨label, hgrove⟩ := hbuilt.grove
    apply (validateUserRange_iff (fun _ => hgrove) (by decide)
      (by decide)).mpr
    refine .inr ⟨by decide, by decide, by decide, fun i hi => ?_⟩
    exact ⟨_, tablePage_translate i hi, rfl, fun _ => rfl⟩
  have hstops : (storeBytes 0x40001000 tablePage 0
      (List.replicate 16 0)).isNone = true := by
    decide +kernel
  have hmoved : (storeBytes 0x40001000 tablePage 0
      (List.replicate 9 0)).any (fun st =>
        st.mem pageTable != tablePage.mem pageTable) = true := by
    decide +kernel
  refine ⟨hbuilt, hvalid, ?_, ?_⟩
  · obtain ⟨st, hst, hne⟩ := (Option.any_eq_true _ _).mp hmoved
    exact ⟨st, hst, by simpa using hne⟩
  · rw [copyToUser, List.length_replicate, hvalid,
      Option.isNone_iff_eq_none.mp hstops]
    rfl

end UserCopy

end VenomOS
