/-
count_wx_pages of kernel/paging.cpp, which looks at the entries of the pages
only.  No link to a table takes a right away, so it counts what the processor
would allow.
-/
import VenomOS.PagingImage

namespace VenomOS

namespace Paging

open ByteMemory RadixTable

/-- A page that may be both written and executed. -/
def wxPage (entry : Nat) : Nat :=
  if hasFlag entry pageWritable && !hasFlag entry pageNx then 1 else 0

def countPages (mem : Memory) (pt : Nat) : Nat :=
  ((List.range 512).map fun i =>
    let entry := entryAt mem pt i
    if !hasFlag entry pagePresent then 0 else wxPage entry).sum

/-- The loop over entries that link to tables or map huge pages. -/
def countTables (mem : Memory) (below : Nat → Nat) (table : Nat)
    (indices : List Nat) : Nat :=
  (indices.map fun i =>
    let entry := entryAt mem table i
    if !hasFlag entry pagePresent then 0
    else if isHuge entry then wxPage entry
    else below (entry &&& addrMask)).sum

def countDirectory (mem : Memory) (pd : Nat) : Nat :=
  countTables mem (countPages mem) pd (List.range 512)

/-- The slots of a PDPT; slot 0/0 is the shared kernel map. -/
def pdptSlots (pml4Slot : Nat) : List Nat :=
  if pml4Slot = 0 then List.range' 1 511 else List.range 512

def State.countWxPages (st : State) (pml4 : Nat) : Nat :=
  ((List.range 512).map fun i =>
    let entry := st.entry pml4 i
    if !hasFlag entry pagePresent then 0
    else
      countTables st.mem (countDirectory st.mem) (entry &&& addrMask)
        (pdptSlots i)).sum

/-- Whether the processor lets a virtual page be both written and executed. -/
def writableExecutable (mem : Memory) (pml4 virtAddr : Nat) : Bool :=
  (translate mem pml4 virtAddr).any fun mapping =>
    mapping.writable && !mapping.noExecute

/-- The pages from 1 GiB on that it does. -/
def wxPages (mem : Memory) (pml4 : Nat) : Finset Nat :=
  (Finset.Ico (2 ^ 18) (2 ^ 36)).filter fun page =>
    writableExecutable mem pml4 (page * 4096) = true

/-- The sum over all paths of `n` indices. -/
def sumPaths (f : Path → Nat) : Nat → Nat
  | 0 => f []
  | n + 1 => ∑ i ∈ Finset.range 512, sumPaths (fun rest => f (i :: rest)) n

/-- The path of a number, most significant index first. -/
def digits : Nat → Nat → Path
  | 0, _ => []
  | n + 1, number => number / 512 ^ n :: digits n (number % 512 ^ n)

variable {label : Nat → Option Path} {below : Nat → Nat} {page n : Nat}

theorem sumPaths_congr {f g : Path → Nat}
    (hsame : ∀ rest, rest.length = n → f rest = g rest) :
    sumPaths f n = sumPaths g n := by
  induction n generalizing f g with
  | zero => exact hsame [] rfl
  | succ n ih =>
      refine Finset.sum_congr rfl fun i _ => ih fun rest hrest => ?_
      exact hsame (i :: rest) (by rw [List.length_cons, hrest])

theorem sumPaths_zero (n : Nat) : sumPaths (fun _ => 0) n = 0 := by
  induction n with
  | zero => rfl
  | succ n ih =>
      rw [sumPaths]
      exact Finset.sum_eq_zero fun i _ => ih

theorem sum_range_mul (f : Nat → Nat) (n m : Nat) :
    ∑ p ∈ Finset.range (n * m), f p =
      ∑ q ∈ Finset.range n, ∑ r ∈ Finset.range m, f (q * m + r) := by
  induction n with
  | zero => simp
  | succ n ih =>
      rw [Nat.succ_mul, Finset.sum_range_add, ih, Finset.sum_range_succ]

theorem sumPaths_eq (f : Path → Nat) (n : Nat) :
    sumPaths f n = ∑ p ∈ Finset.range (512 ^ n), f (digits n p) := by
  induction n generalizing f with
  | zero => simp [sumPaths, digits]
  | succ n ih =>
      rw [Nat.pow_succ', sum_range_mul, sumPaths]
      refine Finset.sum_congr rfl fun i hi => ?_
      rw [ih]
      refine Finset.sum_congr rfl fun r hr => ?_
      have hlt := Finset.mem_range.1 hr
      have hdiv : (i * 512 ^ n + r) / 512 ^ n = i := by
        rw [Nat.add_comm, Nat.add_mul_div_right _ _ (by positivity),
          Nat.div_eq_of_lt hlt, Nat.zero_add]
      have hmod : (i * 512 ^ n + r) % 512 ^ n = r := by
        rw [Nat.mul_add_mod_self_right, Nat.mod_eq_of_lt hlt]
      rw [digits, hdiv, hmod]

theorem list_sum_range (f : Nat → Nat) (n : Nat) :
    ((List.range n).map f).sum = ∑ i ∈ Finset.range n, f i := rfl

theorem vaPath_page (hlt : page < 2 ^ 36) :
    vaPath (page * 4096) = digits 4 page := by
  simp only [vaPath, pml4Index, pdptIndex, pdIndex, ptIndex, index_eq, digits,
    List.cons.injEq, and_true]
  omega

/-- A page found that may be both written and executed. -/
def wxFound (found : Option (Rights × Page × Path)) : Nat :=
  if found.any fun found => found.1.2.1 && found.1.2.2 then 1 else 0

/-- What the tables below one of them say about a path. -/
def wxBelow (mem : Memory) (path : Path) (table : Nat) (rest : Path) : Nat :=
  wxFound (gather (fun _ leaf => leaf) (ownView mem) path table rest)

variable {mem : Memory} {root table i : Nat} {path rest : Path}

/-- The pages of an address space are small ones. -/
def Small (mem : Memory) (root : Nat) : Prop :=
  ∀ {indices found}, find (ownView mem) root indices = some found →
    indices.length = 4 + found.2.2.length

/-- A table that the path leads to. -/
def Behind (mem : Memory) (root : Nat) (path : Path) (table : Nat) : Prop :=
  ∀ rest, find (ownView mem) root (path ++ rest) =
    gather (fun _ leaf => leaf) (ownView mem) path table rest

theorem Behind.link {above : Rights} {next : Nat}
    (hbehind : Behind mem root path table)
    (hlink : ownView mem path table i = .link above next) :
    Behind mem root (path ++ [i]) next := by
  intro rest
  rw [List.append_assoc, List.singleton_append, hbehind,
    gather_last_link hlink]

theorem ownView_shown (hshown : hideKernel path i = false) (hi : i < 512) :
    ownView mem path table i = decode path.length (entryAt mem table i) := by
  rw [ownView, viewHiding_shown hshown hi]

theorem wxBelow_absent (hslot : ownView mem path table i = .empty) :
    wxBelow mem path table (i :: rest) = 0 := by
  rw [wxBelow, gather_cons, hslot]
  rfl

theorem Behind.not_huge (hbehind : Behind mem root path table)
    (hsmall : Small mem root) (hshown : hideKernel path i = false)
    (hi : i < 512) (hlength : path.length = 1 ∨ path.length = 2) :
    isHuge (entryAt mem table i) = false := by
  by_contra hhuge
  rw [isHuge_eq, Bool.not_eq_false, Bool.and_eq_true] at hhuge
  obtain ⟨page, hleaf⟩ := decode_leaf hhuge.1 (.inr ⟨hlength, hhuge.2⟩)
  rw [← ownView_shown hshown hi] at hleaf
  have hfind := hbehind [i]
  rw [gather_cons, hleaf] at hfind
  have hlast := hsmall hfind
  simp only [List.length_append, List.length_singleton, List.length_nil]
    at hlast
  omega

/-- An entry above the page tables: none, or a link to the next table. -/
theorem Behind.slot (hbehind : Behind mem root path table)
    (hsmall : Small mem root) (hshown : hideKernel path i = false)
    (hi : i < 512) (hlength : path.length < 3) :
    ((entryAt mem table i).testBit 0 = false ∧
      ∀ rest, wxBelow mem path table (i :: rest) = 0) ∨
    (entryAt mem table i).testBit 0 = true ∧
      (path = [] ∨ isHuge (entryAt mem table i) = false) ∧
      Behind mem root (path ++ [i]) (entryAt mem table i &&& addrMask) ∧
      ∀ rest, wxBelow mem path table (i :: rest) =
        wxBelow mem (path ++ [i]) (entryAt mem table i &&& addrMask) rest := by
  have hview : ownView mem path table i =
      decode path.length (entryAt mem table i) := ownView_shown hshown hi
  cases hpresent : (entryAt mem table i).testBit 0 with
  | false =>
      rw [decode_absent hpresent] at hview
      exact .inl ⟨rfl, fun rest => wxBelow_absent hview⟩
  | true =>
      have hflat : path = [] ∨ isHuge (entryAt mem table i) = false := by
        cases path with
        | nil => exact .inl rfl
        | cons j path =>
            rw [List.length_cons] at hlength
            refine .inr (hbehind.not_huge hsmall hshown hi ?_)
            rw [List.length_cons]
            omega
      have hlink : ownView mem path table i =
          .link (rights (entryAt mem table i))
            (entryAt mem table i &&& addrMask) := by
        rw [hview]
        refine decode_link hlength hpresent (hflat.imp ?_ ?_)
        · rintro rfl
          rfl
        · intro hhuge
          simpa [isHuge_eq, hpresent] using hhuge
      refine .inr ⟨rfl, hflat, hbehind.link hlink, fun rest => ?_⟩
      rw [wxBelow, gather_last_link hlink, wxBelow]

theorem wxBelow_page (hlength : path.length = 3) (hi : i < 512) :
    wxBelow mem path table [i] =
      if !hasFlag (entryAt mem table i) pagePresent then 0
      else wxPage (entryAt mem table i) := by
  have hview : ownView mem path table i =
      decode 3 (entryAt mem table i) := by
    rw [ownView_shown (hideKernel_of_length (by omega)) hi, hlength]
  rw [hasFlag_present]
  cases hpresent : (entryAt mem table i).testBit 0 with
  | false =>
      rw [decode_absent hpresent] at hview
      rw [wxBelow_absent hview]
      rfl
  | true =>
      rw [decode_page hpresent] at hview
      rw [wxBelow, gather_cons, hview, wxPage, hasFlag_nx,
        hasFlag_writable]
      rfl

theorem countPages_eq (hlength : path.length = 3) :
    countPages mem table = sumPaths (wxBelow mem path table) 1 := by
  rw [countPages, list_sum_range, sumPaths]
  refine Finset.sum_congr rfl fun i hi => ?_
  exact (wxBelow_page hlength (Finset.mem_range.1 hi)).symm

/-- One turn of the loop over a table of tables. -/
theorem Behind.countTables_slot (hbehind : Behind mem root path table)
    (hsmall : Small mem root) (hshown : hideKernel path i = false)
    (hi : i < 512) (hlength : path.length = 1 ∨ path.length = 2)
    (hbelow : ∀ next, Behind mem root (path ++ [i]) next →
      below next = sumPaths (wxBelow mem (path ++ [i]) next) n) :
    (if !hasFlag (entryAt mem table i) pagePresent then 0
      else if isHuge (entryAt mem table i) then wxPage (entryAt mem table i)
      else below (entryAt mem table i &&& addrMask)) =
    sumPaths (fun rest => wxBelow mem path table (i :: rest)) n := by
  rw [hasFlag_present]
  rcases hbehind.slot hsmall hshown hi (by omega) with
    ⟨habsent, hzero⟩ | ⟨hpresent, hflat, hnext, hsame⟩
  · rw [habsent, sumPaths_congr fun rest _ => hzero rest, sumPaths_zero]
    rfl
  · have hhuge : isHuge (entryAt mem table i) = false := by
      refine hflat.resolve_left ?_
      rintro rfl
      simp at hlength
    rw [hpresent, hhuge, sumPaths_congr fun rest _ => hsame rest]
    exact hbelow _ hnext

theorem Behind.countTables_eq (hbehind : Behind mem root path table)
    (hsmall : Small mem root) (hlength : path.length = 1 ∨ path.length = 2)
    {indices : List Nat}
    (hindices : ∀ i ∈ indices, i < 512 ∧ hideKernel path i = false)
    (hbelow : ∀ i next, Behind mem root (path ++ [i]) next →
      below next = sumPaths (wxBelow mem (path ++ [i]) next) n) :
    countTables mem below table indices =
      (indices.map fun i =>
        sumPaths (fun rest => wxBelow mem path table (i :: rest)) n).sum := by
  rw [countTables]
  refine congrArg List.sum (List.map_congr_left fun i hi => ?_)
  obtain ⟨hlt, hshown⟩ := hindices i hi
  exact hbehind.countTables_slot hsmall hshown hlt hlength (hbelow i)

theorem Behind.countDirectory_eq (hbehind : Behind mem root path table)
    (hsmall : Small mem root) (hlength : path.length = 2) :
    countDirectory mem table = sumPaths (wxBelow mem path table) 2 := by
  have hslots : ∀ i ∈ List.range 512, i < 512 ∧ hideKernel path i = false :=
    fun i hi => ⟨List.mem_range.1 hi, hideKernel_of_length (by omega)⟩
  have hbelow : ∀ i next, Behind mem root (path ++ [i]) next →
      countPages mem next = sumPaths (wxBelow mem (path ++ [i]) next) 1 := by
    intro i next _
    refine countPages_eq ?_
    rw [List.length_append, hlength, List.length_singleton]
  rw [countDirectory, hbehind.countTables_eq hsmall (.inr hlength) hslots
    hbelow, list_sum_range, sumPaths]

/-- The slot that is left out would not count. -/
theorem sum_pdptSlots (slot : Nat) :
    ((pdptSlots slot).map fun i =>
      sumPaths (fun rest => wxBelow mem [slot] table (i :: rest)) 2).sum =
    sumPaths (wxBelow mem [slot] table) 3 := by
  by_cases hslot : slot = 0
  · subst hslot
    have hrange : List.range 512 = 0 :: List.range' 1 511 := by
      rw [List.range_eq_range', List.range'_succ]
    have hhidden : ∀ rest, wxBelow mem [0] table (0 :: rest) = 0 :=
      fun rest => wxBelow_absent rfl
    rw [sumPaths, ← list_sum_range, hrange, List.map_cons, List.sum_cons,
      sumPaths_congr fun rest _ => hhidden rest, sumPaths_zero, Nat.zero_add,
      pdptSlots, if_pos rfl]
  · rw [pdptSlots, if_neg hslot, list_sum_range, sumPaths]

theorem pdptSlots_shown {slot : Nat} (hi : i ∈ pdptSlots slot) :
    i < 512 ∧ hideKernel [slot] i = false := by
  rw [pdptSlots] at hi
  split at hi
  · rw [List.mem_range'_1] at hi
    exact ⟨by omega, decide_eq_false fun hzero => by omega⟩
  · next hslot =>
      exact ⟨List.mem_range.1 hi,
        decide_eq_false fun hzero => hslot (List.cons.inj hzero.1).1⟩

variable {st : State}

theorem countWxPages_eq_sumPaths (hsmall : Small st.mem root) :
    st.countWxPages root = sumPaths (wxBelow st.mem [] root) 4 := by
  have hroot : Behind st.mem root [] root := fun rest => rfl
  rw [State.countWxPages, list_sum_range, sumPaths]
  refine Finset.sum_congr rfl fun i hi => ?_
  dsimp only
  rw [hasFlag_present, State.entry]
  rcases hroot.slot hsmall (hideKernel_of_length (by simp))
    (Finset.mem_range.1 hi) (by simp) with
    ⟨habsent, hzero⟩ | ⟨hpresent, _, hnext, hsame⟩
  · rw [habsent, sumPaths_congr fun rest _ => hzero rest, sumPaths_zero]
    rfl
  · rw [hpresent, sumPaths_congr fun rest _ => hsame rest,
      hnext.countTables_eq hsmall (.inl rfl) fun j hj => pdptSlots_shown hj]
    · exact sum_pdptSlots i
    · intro j next hbehind
      exact hbehind.countDirectory_eq hsmall rfl

/-- What the processor allows, in the words of the count. -/
theorem wxBelow_shown (hexact : Exact (ownView mem) root)
    (hlow : 2 ^ 18 ≤ page) (hhigh : page < 2 ^ 36) :
    wxBelow mem [] root (digits 4 page) =
      if writableExecutable mem root (page * 4096) then 1 else 0 := by
  have hslot : ¬ KernelSlot (page * 4096) := by
    simp only [KernelSlot, pml4Index, pdptIndex, index_eq]
    omega
  have hshown : gather (· ⊓ ·) (ownView mem) [] root (vaPath (page * 4096)) =
      gather (· ⊓ ·) (view mem) [] root (vaPath (page * 4096)) := by
    refine gather_ownView _ mem fun front i rest hpath => ?_
    exact shown_hideKernel hslot front i rest hpath
  have hwalk : walk (view mem) root (vaPath (page * 4096)) =
      find (ownView mem) root (digits 4 page) := by
    rw [walk, ← hshown, ← vaPath_page hhigh]
    exact hexact _
  rw [writableExecutable, translate, hwalk, wxBelow, wxFound, find]
  cases gather (fun _ leaf => leaf) (ownView mem) [] root (digits 4 page) with
  | none => rfl
  | some found => simp

theorem wxBelow_kernel (hlow : page < 2 ^ 18) :
    wxBelow mem [] root (digits 4 page) = 0 := by
  have hfirst : page / 512 ^ 3 = 0 := by omega
  have hsecond : page % 512 ^ 3 / 512 ^ 2 = 0 := by omega
  have hnone := @find_kernel root mem (digits 2 (page % 512 ^ 3 % 512 ^ 2))
  rw [digits, digits, hfirst, hsecond, wxBelow]
  rw [find] at hnone
  rw [hnone]
  rfl

theorem countWxPages_eq_card (hsmall : Small st.mem root)
    (hexact : Exact (ownView st.mem) root) :
    st.countWxPages root = (wxPages st.mem root).card := by
  have htotal : 512 ^ 4 = 2 ^ 36 := by decide
  rw [countWxPages_eq_sumPaths hsmall, sumPaths_eq, htotal, wxPages,
    Finset.card_filter, Finset.range_eq_Ico,
    ← Finset.sum_Ico_consecutive _ (Nat.zero_le (2 ^ 18)) (by decide)]
  have hkernel : ∑ page ∈ Finset.Ico 0 (2 ^ 18),
      wxBelow st.mem [] root (digits 4 page) = 0 :=
    Finset.sum_eq_zero fun page hpage =>
      wxBelow_kernel (Finset.mem_Ico.1 hpage).2
  rw [hkernel, Nat.zero_add]
  refine Finset.sum_congr rfl fun page hpage => ?_
  obtain ⟨hlow, hhigh⟩ := Finset.mem_Ico.1 hpage
  exact wxBelow_shown hexact hlow hhigh

/-- The tables of an address space, whatever pages they map: the rights of a
page are never lost on the way to it, and all pages are small. -/
structure Tree (st : State) (root : Nat) (label : Nat → Option Path) :
    Prop where
  tables : Tables (treeScheme root) hideKernel st label
  rooted : label root = some []
  exact : Exact (ownView st.mem) root
  small : Small st.mem root

theorem Space.tree (hspace : Space st root label) : Tree st root label :=
  ⟨hspace.tables, hspace.rooted, hspace.exact, hspace.small⟩

theorem Tree.countWxPages (htree : Tree st root label) :
    st.countWxPages root = (wxPages st.mem root).card :=
  countWxPages_eq_card htree.small htree.exact

/-- No page may be both written and executed. -/
def Separate (st : State) (root : Nat) : Prop :=
  ∀ path rights page, Maps st root path rights page →
    ¬ (rights.2.1 = true ∧ rights.2.2 = true)

theorem Space.countWxPages_eq_zero (hspace : Space st root label)
    (hseparate : Separate st root) :
    st.countWxPages root = 0 := by
  rw [hspace.tree.countWxPages, Finset.card_eq_zero, wxPages,
    Finset.filter_eq_empty_iff]
  intro page hpage
  rw [Finset.mem_Ico] at hpage
  have hslot : ¬ KernelSlot (page * 4096) := by
    simp only [KernelSlot, pml4Index, pdptIndex, index_eq]
    omega
  rw [writableExecutable, hspace.translate_eq hslot]
  cases hfind : find (ownView st.mem) root (vaPath (page * 4096)) with
  | none => simp
  | some found =>
      obtain ⟨rights, leaf, rest⟩ := found
      have hlength := hspace.small hfind
      obtain rfl : rest = [] := by simpa [vaPath] using hlength
      have hboth := hseparate _ rights leaf hfind
      simpa [toMapping] using hboth

theorem Placed.separate {st' : State} {virtAddr flags frame : Nat}
    {bytes : Nat → UInt8} {label label' : Nat → Option Path}
    (hplaced : Placed st st' root virtAddr flags frame bytes label label')
    (hspace : Space st root label) (hseparate : Separate st root)
    (hflags : ¬ ((flagRights flags).2.1 = true ∧
      (flagRights flags).2.2 = true)) : Separate st' root := by
  intro path rights page hmaps
  rw [hplaced.set.maps_iff hspace] at hmaps
  split at hmaps
  · rw [hmaps.1]
    exact hflags
  · exact hseparate path rights page hmaps

/-- Placing pages that may not be both. -/
theorem Places.separate {st' : State} {images : List PageImage}
    (hplaces : Places root images st st') (hspace : Space st root label)
    (huser : ∀ image ∈ images, UserPage image.virtAddr image.flags)
    (hseparate : Separate st root)
    (hflags : ∀ image ∈ images, ¬ ((flagRights image.flags).2.1 = true ∧
      (flagRights image.flags).2.2 = true)) :
    ∃ label', Space st' root label' ∧ Separate st' root := by
  induction hplaces generalizing label with
  | nil => exact ⟨label, hspace, hseparate⟩
  | @cons image images st between st' hstep _ ih =>
      obtain ⟨frame, label₁, hplaced⟩ := hstep.placed hspace
        (huser image List.mem_cons_self)
      exact ih hplaced.space
        (fun other hother => huser other (List.mem_cons_of_mem _ hother))
        (hplaced.separate hspace hseparate (hflags image List.mem_cons_self))
        fun other hother => hflags other (List.mem_cons_of_mem _ hother)

variable {virtAddr physAddr flags : Nat} {label : Nat → Option Path}

theorem extraFlags_and_not64 (flags : Nat) :
    State.extraFlags (flags &&& not64 addrMask) = State.extraFlags flags := by
  rw [State.extraFlags, State.extraFlags, Nat.and_assoc flags, Nat.and_self]

theorem getOrCreateTable_congr {other : Nat}
    (hsame : State.extraFlags other = State.extraFlags flags) :
    st.getOrCreateTable table i other = st.getOrCreateTable table i flags := by
  rw [State.getOrCreateTable, State.getOrCreateTable, hsame]

theorem descend_congr {other : Nat}
    (hsame : State.extraFlags other = State.extraFlags flags) :
    st.descend table i other = st.descend table i flags := by
  rw [State.descend, State.descend, getOrCreateTable_congr hsame]

theorem pageEntry_split (physAddr : Nat) (hflags : flags < 2 ^ 64) :
    (physAddr &&& addrMask) ||| (flags ||| pagePresent) =
      ((physAddr ||| flags) &&& addrMask &&& addrMask) |||
        ((flags &&& not64 addrMask) ||| pagePresent) := by
  refine Nat.eq_of_testBit_eq fun k => ?_
  simp only [Nat.testBit_or, Nat.testBit_and, testBit_not64]
  by_cases hk : k < 64
  · cases physAddr.testBit k <;> cases flags.testBit k <;>
      cases addrMask.testBit k <;> simp [hk]
  · rw [testBit_of_lt hflags (Nat.le_of_not_lt hk)]
    cases physAddr.testBit k <;> cases addrMask.testBit k <;> simp

/-- Address bits among the flags count as bits of the address. -/
theorem mapPageIn_split (hpa : physAddr % 4096 = 0) (hflags : flags < 2 ^ 64) :
    st.mapPageIn root virtAddr physAddr flags =
      st.mapPageIn root virtAddr ((physAddr ||| flags) &&& addrMask)
        (flags &&& not64 addrMask) := by
  have hextra := extraFlags_and_not64 flags
  rw [State.mapPageIn, State.mapPageIn, getOrCreateTable_congr hextra]
  simp only [hpa, and_addrMask_mod, descend_congr hextra,
    pageEntry_split physAddr hflags]

theorem Tree.mapPlain (htree : Tree st root label)
    (hslot : ¬ KernelSlot virtAddr) (hflags : Plain flags)
    (hlt : physAddr < 2 ^ 52) :
    ∃ label', Tree (st.mapPageIn root virtAddr physAddr flags).1 root
      label' := by
  obtain ⟨label', hcases⟩ := htree.tables.mapPageIn_spec treeScheme_shallow
    htree.rooted rfl (shown_hideKernel hslot)
    (treeScheme_sole htree.tables.labelled virtAddr) hflags hlt
  refine ⟨label', ?_⟩
  generalize st.mapPageIn root virtAddr physAddr flags = result at *
  rcases hcases with ⟨hgrown, _, _⟩ | ⟨hextends, _, _, hreplaced⟩
  · refine ⟨hgrown.tables, hgrown.labels htree.rooted,
      hgrown.exact htree.rooted rfl htree.exact, fun {indices found} hfind => ?_⟩
    have hsame := hgrown.leaves htree.rooted indices
    exact htree.small (hsame.symm.trans hfind)
  · refine ⟨hextends.tables, hextends.labels htree.rooted,
      hreplaced.exact htree.rooted rfl htree.exact,
      fun {indices found} hfind => ?_⟩
    have hsame := hreplaced.find_eq htree.rooted rfl indices
    rw [ownView, hsame] at hfind
    split at hfind
    · rename_i hinitial
      cases hfind
      have hlength : 4 ≤ indices.length := hinitial.2.length_le
      simp only [List.length_drop]
      have hpath : (vaPath virtAddr).length = 4 := rfl
      omega
    · exact htree.small hfind

theorem Tree.mapPageIn (htree : Tree st root label)
    (hslot : ¬ KernelSlot virtAddr) (hflags : flags < 2 ^ 64) :
    ∃ label', Tree (st.mapPageIn root virtAddr physAddr flags).1 root
      label' := by
  by_cases hpa : physAddr % 4096 = 0
  · rw [mapPageIn_split hpa hflags]
    refine htree.mapPlain hslot ⟨?_, ?_⟩ ?_
    · exact Nat.lt_of_le_of_lt Nat.and_le_left hflags
    · refine Nat.eq_of_testBit_eq fun k => ?_
      rw [Nat.testBit_and, Nat.testBit_and, testBit_not64, Nat.zero_testBit]
      by_cases hk : k < 64
      · cases flags.testBit k <;> cases addrMask.testBit k <;> simp [hk]
      · rw [testBit_of_lt hflags (Nat.le_of_not_lt hk)]
        rfl
    · exact Nat.lt_of_le_of_lt Nat.and_le_right (by decide)
  · have hfails : st.mapPageIn root virtAddr physAddr flags = (st, false) := by
      rw [State.mapPageIn, if_pos (.inr hpa)]
    rw [hfails]
    exact ⟨label, htree⟩

/-- A call of `map_page_in`. -/
structure MapCall where
  virtAddr : Nat
  physAddr : Nat
  flags : Nat

/-- A user address that is aligned, and flags that are a 64-bit word. -/
structure MapCall.Proper (call : MapCall) : Prop where
  min : Elf.userSpaceMin ≤ call.virtAddr
  max : call.virtAddr < Elf.userSpaceMax
  aligned : call.virtAddr % 4096 = 0
  word : call.flags < 2 ^ 64

def State.mapCalls (st : State) (root : Nat) (calls : List MapCall) : State :=
  calls.foldl (fun st call =>
    (st.mapPageIn root call.virtAddr call.physAddr call.flags).1) st

theorem Tree.mapCalls (htree : Tree st root label) {calls : List MapCall}
    (hcalls : ∀ call ∈ calls, call.Proper) :
    ∃ label', Tree (st.mapCalls root calls) root label' := by
  induction calls generalizing st label with
  | nil => exact ⟨label, htree⟩
  | cons call rest ih =>
      have hproper := hcalls call List.mem_cons_self
      obtain ⟨label₁, htree₁⟩ := htree.mapPageIn
        (not_kernelSlot_of_user hproper.min hproper.max) hproper.word
      exact ih htree₁ fun call hcall =>
        hcalls call (List.mem_cons_of_mem _ hcall)

/-- In an address space built by any mappings, the pages counted are those
that the processor lets be both written and executed. -/
theorem countWxPages_exact {st st' : State} {root : Nat}
    (hcreate : st.createAddressSpace = (st', root)) (hroot : root ≠ 0)
    {calls : List MapCall} (hcalls : ∀ call ∈ calls, call.Proper) :
    (st'.mapCalls root calls).countWxPages root =
      (wxPages (st'.mapCalls root calls).mem root).card := by
  obtain ⟨label, himage⟩ := Image.create hcreate hroot
  obtain ⟨label', htree⟩ := himage.space.tree.mapCalls hcalls
  exact htree.countWxPages

theorem countWxPages_exact_bootState :
    (bootState.createAddressSpace.1.mapCalls 0x4000
      [⟨0x40000000, 0x500000, 7⟩]).countWxPages 0x4000 =
    (wxPages (bootState.createAddressSpace.1.mapCalls 0x4000
      [⟨0x40000000, 0x500000, 7⟩]).mem 0x4000).card := by
  have hroot : bootState.createAddressSpace.2 = 0x4000 := by decide +kernel
  have hcreate : bootState.createAddressSpace =
      (bootState.createAddressSpace.1, 0x4000) := Prod.ext rfl hroot
  refine countWxPages_exact hcreate (by decide) fun call hcall => ?_
  obtain rfl := List.mem_singleton.1 hcall
  exact ⟨by decide, by decide, by decide, by decide⟩

end Paging

end VenomOS
