/-
map_page_in and unmap_page on the tables: at most one page changes.
-/
import VenomOS.PagingTables

namespace VenomOS

namespace Paging

open ByteMemory RadixTable

universe u

variable {L : Type u} {scheme : Scheme L} {hide : Path → Nat → Bool}
  {label label' : Nat → Option L} {st mid : State} {new : Set L}
  {pml4 pt virtAddr physAddr flags : Nat} {root l : L}

theorem index_lt (value : Nat) : value &&& 0x1FF < 512 :=
  Nat.and_lt_two_pow value (n := 9) (by decide)

theorem pml4Index_lt (virtAddr : Nat) : pml4Index virtAddr < 512 := index_lt _

theorem pdptIndex_lt (virtAddr : Nat) : pdptIndex virtAddr < 512 := index_lt _

theorem pdIndex_lt (virtAddr : Nat) : pdIndex virtAddr < 512 := index_lt _

theorem ptIndex_lt (virtAddr : Nat) : ptIndex virtAddr < 512 := index_lt _

/-- The tables on the way to a page. -/
def tablePath (virtAddr : Nat) : Path :=
  [pml4Index virtAddr, pdptIndex virtAddr, pdIndex virtAddr]

theorem vaPath_eq (virtAddr : Nat) :
    vaPath virtAddr = tablePath virtAddr ++ [ptIndex virtAddr] := rfl

/-- No slot on the way of an address is hidden. -/
def Shown (hide : Path → Nat → Bool) (virtAddr : Nat) : Prop :=
  ∀ front i rest, vaPath virtAddr = front ++ i :: rest →
    hide front i = false

/-- The names of the tables on the way, without the root. -/
def namesOn (scheme : Scheme L) (root : L) (virtAddr : Nat) : Set L :=
  {l | ∃ front, front ≠ [] ∧ front <+: tablePath virtAddr ∧
    l = scheme.follow root front}

/-- The entry of a page. -/
def pageEntry (physAddr flags : Nat) : Nat :=
  (physAddr &&& addrMask) ||| (flags ||| pagePresent)

/-- Why `mapPageIn` gives up. -/
def Blocked (hide : Path → Nat → Bool) (st : State)
    (pml4 virtAddr physAddr flags : Nat) : Prop :=
  virtAddr % 4096 ≠ 0 ∨ physAddr % 4096 ≠ 0 ∨ Exhausted st.pmm ∨
    ∃ front i rest target, front ≠ [] ∧ rest ≠ [] ∧
      vaPath virtAddr = front ++ i :: rest ∧
      Leads (viewHiding hide st.mem) (allowed flags) [] pml4 front target ∧
      isHuge (st.entry target i) = true

variable (physAddr flags) in
/-- The tables grow, and then the page is entered or there is a reason why
not. -/
theorem Tables.mapPageIn_cases (htables : Tables scheme hide st label)
    (hroot : label pml4 = some root) (hpath : scheme.path root = [])
    (hshown : Shown hide virtAddr) :
    ∃ mid label', Grown scheme hide (namesOn scheme root virtAddr) st label
        mid label' ∧
      ((Blocked hide mid pml4 virtAddr physAddr flags ∧
        st.mapPageIn pml4 virtAddr physAddr flags = (mid, false)) ∨
      ∃ pt, virtAddr % 4096 = 0 ∧ physAddr % 4096 = 0 ∧
        Leads (viewHiding hide mid.mem) (allowed flags) [] pml4
          (tablePath virtAddr) pt ∧
        st.mapPageIn pml4 virtAddr physAddr flags =
          (mid.set pt (ptIndex virtAddr) (pageEntry physAddr flags),
            true)) := by
  have hstart : Leads (viewHiding hide st.mem) (allowed flags) [] pml4 []
      pml4 := rfl
  have hnew : ∀ front, front ≠ [] → front <+: tablePath virtAddr →
      scheme.follow root front ∈ namesOn scheme root virtAddr :=
    fun front hne hinitial => ⟨front, hne, hinitial, rfl⟩
  unfold State.mapPageIn
  split
  · rename_i hmisaligned
    exact ⟨st, label, .refl htables, .inl
      ⟨hmisaligned.imp_right Or.inl, rfl⟩⟩
  rename_i haligned
  simp only [not_or, not_not] at haligned
  rcases htables.getOrCreateTable_cases hroot hpath hstart (by decide)
      (pml4Index_lt _) (hshown [] (pml4Index virtAddr) _ rfl) (.inl rfl)
      (hnew [pml4Index virtAddr] (by simp) (by simp [tablePath]))
    with ⟨hfull, hget⟩ | ⟨label₁, hgrown₁, hne₁, hleads₁⟩
  · rw [hget]
    exact ⟨st, label, .refl htables, .inl ⟨.inr (.inr (.inl hfull)), rfl⟩⟩
  generalize st.getOrCreateTable pml4 (pml4Index virtAddr) flags = result₁ at *
  obtain ⟨st₁, pdpt⟩ := result₁
  simp only [hne₁, if_false]
  have hroot₁ := hgrown₁.labels hroot
  rcases hgrown₁.tables.descend_cases hroot₁ hpath hleads₁ (by simp)
      (pdptIndex_lt _) (hshown _ (pdptIndex virtAddr) _ rfl)
      (hnew [pml4Index virtAddr, pdptIndex virtAddr] (by simp)
        (by simp [tablePath]))
    with ⟨hstuck, hget⟩ | ⟨label₂, hgrown₂, hne₂, hleads₂⟩
  · rw [hget]
    refine ⟨st₁, label₁, hgrown₁, .inl ⟨.inr (.inr ?_), rfl⟩⟩
    refine hstuck.symm.imp_right fun hhuge => ?_
    exact ⟨_, _, _, pdpt, by simp, by simp, rfl, hleads₁, hhuge⟩
  have hgrown₁₂ := hgrown₁.trans hgrown₂
  generalize st₁.descend pdpt (pdptIndex virtAddr) flags = result₂ at *
  obtain ⟨st₂, pd⟩ := result₂
  simp only [hne₂, if_false]
  have hroot₂ := hgrown₁₂.labels hroot
  rcases hgrown₂.tables.descend_cases hroot₂ hpath hleads₂ (by simp)
      (pdIndex_lt _) (hshown _ (pdIndex virtAddr) _ rfl)
      (hnew (tablePath virtAddr) (by simp [tablePath]) List.prefix_rfl)
    with ⟨hstuck, hget⟩ | ⟨label₃, hgrown₃, hne₃, hleads₃⟩
  · rw [hget]
    refine ⟨st₂, label₂, hgrown₁₂, .inl ⟨.inr (.inr ?_), rfl⟩⟩
    refine hstuck.symm.imp_right fun hhuge => ?_
    exact ⟨_, _, _, pd, by simp, by simp, rfl, hleads₂, hhuge⟩
  have hgrown := hgrown₁₂.trans hgrown₃
  generalize st₂.descend pd (pdIndex virtAddr) flags = result₃ at *
  obtain ⟨st₃, pt⟩ := result₃
  simp only [hne₃, if_false]
  exact ⟨st₃, label₃, hgrown, .inr ⟨pt, haligned.1, haligned.2, hleads₃, rfl⟩⟩

/-- No anchor lies below the page tables. -/
def Shallow (scheme : Scheme L) : Prop :=
  ∀ l, 3 < (scheme.path l).length → scheme.anchor l = none

theorem Shallow.private (hshallow : Shallow scheme)
    (hlength : (scheme.path l).length = 3) (i : Nat) :
    scheme.Private (scheme.child l i) := by
  intro indices
  refine hshallow _ ?_
  rw [scheme.path_follow, scheme.path_child]
  simp only [List.length_append, List.length_singleton]
  omega

theorem viewHiding_ne_link {path : Path} (hlength : path.length = 3)
    (mem : Memory) (table i : Nat) (above : Rights) (next : Nat) :
    viewHiding hide mem path table i ≠ .link above next := by
  intro hlink
  have hdecode := (viewHiding_eq_link hlink).2.2
  rw [hlength] at hdecode
  exact decode_three_ne_link _ _ _ hdecode

/-- What an entry of a page table maps. -/
def leafOf (value : Nat) : Option (Rights × Page) :=
  if value.testBit 0 then
    some (rights value, ⟨value &&& addrMask, value.testBit 9⟩)
  else none

section SetPage

variable {i value : Nat} (htables : Tables scheme hide st label)
  (hpt : label pt = some l) (hlength : (scheme.path l).length = 3)
  (hi : i < 512)

include htables hpt hlength hi

theorem Tables.extends_setPage (hshallow : Shallow scheme) :
    Extends scheme hide new st label (st.set pt i value) label where
  tables :=
    { labelled := htables.labelled.setLeaf hpt
        (htables.agreeOff_set hpt hi value)
        (viewHiding_ne_link hlength _ _ _) (viewHiding_ne_link hlength _ _ _)
        (hshallow.private hlength i)
      passes := by
        intro frame l' j above next hframe hlink
        by_cases hself : frame = pt ∧ j = i
        · obtain ⟨rfl, rfl⟩ := hself
          rw [hpt] at hframe
          cases hframe
          exact absurd hlink (viewHiding_ne_link hlength _ _ _ _ _)
        · have hsame := htables.agreeOff_set hpt hi value hframe
            (not_and_or.mp hself)
          exact htables.passes hframe (hsame ▸ hlink)
      reserved := htables.reserved
      zero := htables.zero }
  labels hlabel := hlabel
  named hlabel := .inl hlabel
  outside addr haddr := setEntry_outside hi (haddr pt (by simp [hpt]))
  used := htables.used_of_label
  counted hcounted := hcounted
  cr3 := rfl

omit hlength in
theorem Tables.gather_setPage_off {op : Rights → Rights → Rights}
    {start : Nat} {l' : L} {indices : Path} (hstart : label start = some l')
    (hmiss : ∀ front rest, indices = front ++ i :: rest →
      scheme.follow l' front ≠ l) :
    gather op (viewHiding hide (st.set pt i value).mem) (scheme.path l') start
        indices =
      gather op (viewHiding hide st.mem) (scheme.path l') start indices :=
  htables.labelled.gather_congr hpt (htables.agreeOff_set hpt hi value) hstart
    fun front rest hindices hfollow =>
      absurd hfollow (hmiss front rest hindices)

omit htables hpt in
theorem gather_setPage_self {op : Rights → Rights → Rights}
    (hshown : hide (scheme.path l) i = false) (hvalue : value < 2 ^ 64)
    (rest : Path) :
    gather op (viewHiding hide (st.set pt i value).mem) (scheme.path l) pt
        (i :: rest) =
      (leafOf value).map fun found => (found.1, found.2, rest) := by
  rw [gather_cons, viewHiding_shown hshown hi, State.set,
    entryAt_setEntry_self _ _ _ hvalue, hlength, leafOf]
  cases hpresent : value.testBit 0 with
  | true => simp [decode_page hpresent]
  | false => simp [decode_absent hpresent]

end SetPage

/-- The leaf at one path of one tree is replaced, and no right is lost. -/
structure Replaced (scheme : Scheme L) (hide : Path → Nat → Bool) (st : State)
    (label : Nat → Option L) (st' : State) (pml4 : Nat) (path : Path)
    (leaf : Option (Rights × Page)) : Prop where
  find_eq : ∀ {root l}, label root = some l → scheme.path l = [] →
    ∀ indices, find (viewHiding hide st'.mem) root indices =
      if root = pml4 ∧ path <+: indices then
        leaf.map fun found => (found.1, found.2, indices.drop path.length)
      else find (viewHiding hide st.mem) root indices
  exact : ∀ {root l}, label root = some l → scheme.path l = [] →
    Exact (viewHiding hide st.mem) root → Exact (viewHiding hide st'.mem) root

/-- No other tree has the page table of this address. -/
def Sole (scheme : Scheme L) (label : Nat → Option L) (pml4 : Nat) (root : L)
    (virtAddr : Nat) : Prop :=
  ∀ {other l}, label other = some l → scheme.path l = [] →
    scheme.follow l (tablePath virtAddr) =
      scheme.follow root (tablePath virtAddr) → other = pml4

section Replace

variable {value : Nat} {need : Rights}
  (htables : Tables scheme hide st label) (hroot : label pml4 = some root)
  (hpath : scheme.path root = [])
  (hleads : Leads (viewHiding hide st.mem) need [] pml4 (tablePath virtAddr)
    pt)

include htables hroot hpath hleads

variable (value) in
theorem Tables.leads_setPage {front : Path} {target : Nat}
    (hfront : front.length ≤ 3)
    (hleads' : Leads (viewHiding hide st.mem) need [] pml4 front target) :
    Leads (viewHiding hide (st.set pt (ptIndex virtAddr) value).mem) need []
      pml4 front target := by
  have hpt := htables.label_at hroot hpath hleads
  have hagree := htables.agreeOff_set hpt (ptIndex_lt virtAddr) value
  rw [← hpath] at hleads' ⊢
  refine htables.labelled.leads_agreeOff hpt hagree hroot ?_ hleads'
  rw [hpath, path_follow_root hpath, List.length_nil, Nat.zero_add]
  exact hfront

variable (hshown : Shown hide virtAddr) (hvalue : value < 2 ^ 64)

include hshown hvalue

theorem Tables.gather_setPage_end (op : Rights → Rights → Rights)
    (rest : Path) :
    gather op (viewHiding hide (st.set pt (ptIndex virtAddr) value).mem)
        ([] ++ tablePath virtAddr) pt ([ptIndex virtAddr] ++ rest) =
      (leafOf value).map fun found => (found.1, found.2, rest) := by
  have hfront := path_follow_root hpath (tablePath virtAddr)
  rw [List.nil_append, ← hfront]
  refine gather_setPage_self (by rw [hfront]; rfl) (ptIndex_lt _) ?_ hvalue rest
  rw [hfront]
  exact hshown _ _ [] rfl

theorem Tables.find_setPage_self (rest : Path) :
    find (viewHiding hide (st.set pt (ptIndex virtAddr) value).mem) pml4
        (vaPath virtAddr ++ rest) =
      (leafOf value).map fun found => (found.1, found.2, rest) := by
  have hleads' := htables.leads_setPage value hroot hpath hleads
    le_rfl hleads
  rw [vaPath_eq, List.append_assoc, find, gather_last_of_leads hleads']
  exact htables.gather_setPage_end hroot hpath hleads hshown hvalue _ rest

theorem Tables.walk_setPage_self
    (hleaf : ∀ found ∈ leafOf value, found.1 ≤ need) (rest : Path) :
    walk (viewHiding hide (st.set pt (ptIndex virtAddr) value).mem) pml4
        (vaPath virtAddr ++ rest) =
      (leafOf value).map fun found => (found.1, found.2, rest) := by
  have hleads' := htables.leads_setPage value hroot hpath hleads
    le_rfl hleads
  have hself := htables.gather_setPage_end hroot hpath hleads hshown hvalue
    (· ⊓ ·) rest
  rw [vaPath_eq, List.append_assoc, walk, gather_inf_of_leads hleads', hself]
  intro found hfound
  rw [hself] at hfound
  obtain ⟨inner, hinner, rfl⟩ := Option.map_eq_some_iff.mp hfound
  exact hleaf inner hinner

omit hshown hvalue in
variable (value) in
theorem Tables.gather_setPage_other
    (hsole : Sole scheme label pml4 root virtAddr)
    (op : Rights → Rights → Rights) {other : Nat}
    (hother : label other = some l) (hpath' : scheme.path l = [])
    {indices : Path}
    (hmiss : ¬ (other = pml4 ∧ vaPath virtAddr <+: indices)) :
    gather op (viewHiding hide (st.set pt (ptIndex virtAddr) value).mem) []
        other indices =
      gather op (viewHiding hide st.mem) [] other indices := by
  have hpt := htables.label_at hroot hpath hleads
  rw [← hpath']
  refine htables.gather_setPage_off hpt (ptIndex_lt _) hother ?_
  rintro front rest rfl hfollow
  have hfront := congrArg scheme.path hfollow
  rw [path_follow_root hpath, path_follow_root hpath'] at hfront
  subst hfront
  refine hmiss ⟨hsole hother hpath' hfollow, rest, ?_⟩
  rw [vaPath_eq, List.append_assoc, List.singleton_append]

theorem Tables.replaced_setPage (hsole : Sole scheme label pml4 root virtAddr)
    (hleaf : ∀ found ∈ leafOf value, found.1 ≤ need) :
    Replaced scheme hide st label (st.set pt (ptIndex virtAddr) value) pml4
      (vaPath virtAddr) (leafOf value) where
  find_eq := by
    intro other l hother hpath' indices
    split
    · rename_i hhit
      obtain ⟨rfl, rest, rfl⟩ := hhit
      rw [htables.find_setPage_self hroot hpath hleads hshown hvalue,
        List.drop_left]
    · exact htables.gather_setPage_other value hroot hpath hleads hsole _ hother
        hpath' ‹_›
  exact := by
    intro other l hother hpath' hexact indices
    by_cases hhit : other = pml4 ∧ vaPath virtAddr <+: indices
    · obtain ⟨rfl, rest, rfl⟩ := hhit
      rw [htables.find_setPage_self hroot hpath hleads hshown hvalue,
        htables.walk_setPage_self hroot hpath hleads hshown hvalue hleaf]
    · have hsame := fun op => htables.gather_setPage_other value hroot hpath
        hleads hsole op hother hpath' hhit
      rw [find, walk, hsame, hsame]
      exact hexact indices

end Replace

/-- The rights that flags state. -/
def flagRights (flags : Nat) : Rights :=
  (flags.testBit 2, flags.testBit 1, !flags.testBit 63)

theorem flagRights_le_allowed (flags : Nat) :
    flagRights flags ≤ allowed flags :=
  ⟨le_rfl, Bool.le_true _, Bool.le_true _⟩

/-- Flags that hold no address. -/
structure Plain (flags : Nat) : Prop where
  lt : flags < 2 ^ 64
  noAddr : flags &&& addrMask = 0

theorem testBit_and_addrMask_high (physAddr : Nat) {k : Nat} (hk : 52 ≤ k) :
    (physAddr &&& addrMask).testBit k = false := by
  rw [Nat.testBit_and, testBit_addrMask]
  simp [Nat.not_lt.mpr hk]

theorem testBit_and_addrMask_low (physAddr : Nat) {k : Nat} (hk : k < 12) :
    (physAddr &&& addrMask).testBit k = false := by
  rw [Nat.testBit_and, testBit_addrMask]
  simp [Nat.not_le.mpr hk]

theorem leafOf_pageEntry (hflags : Plain flags)
    (haligned : physAddr % 4096 = 0) (hlt : physAddr < 2 ^ 52) :
    leafOf (pageEntry physAddr flags) =
      some (flagRights flags, ⟨physAddr, flags.testBit 9⟩) := by
  have hlow := fun k hk => testBit_and_addrMask_low physAddr (k := k) hk
  have hpresent : (pageEntry physAddr flags).testBit 0 = true := by
    simp only [pageEntry, Nat.testBit_or, testBit_pagePresent, decide_true,
      Bool.or_true]
  have hframe : pageEntry physAddr flags &&& addrMask = physAddr := by
    rw [pageEntry, ← Nat.or_assoc, or_and_addrMask (by decide),
      or_and_addrMask hflags.noAddr, Nat.and_assoc, Nat.and_self,
      and_addrMask_of_aligned haligned hlt]
  have hrights : rights (pageEntry physAddr flags) = flagRights flags := by
    simp [rights, flagRights, pageEntry, hlow,
      testBit_and_addrMask_high physAddr (show 52 ≤ 63 by decide)]
  have howned : (pageEntry physAddr flags).testBit 9 = flags.testBit 9 := by
    simp [pageEntry, hlow]
  rw [leafOf, if_pos hpresent, hframe, hrights, howned]

theorem pageEntry_lt (hflags : Plain flags) (physAddr : Nat) :
    pageEntry physAddr flags < 2 ^ 64 := by
  have hmask : physAddr &&& addrMask < 2 ^ 64 :=
    Nat.and_lt_two_pow physAddr (by decide)
  exact Nat.or_lt_two_pow hmask
    (Nat.or_lt_two_pow hflags.lt (flag_lt (by decide)))

theorem path_ne_nil_of_namesOn (hpath : scheme.path root = [])
    (hl : l ∈ namesOn scheme root virtAddr) : scheme.path l ≠ [] := by
  obtain ⟨front, hne, _, rfl⟩ := hl
  rwa [path_follow_root hpath]

theorem Extends.sole {st' : State} (hpath : scheme.path root = [])
    (hextends : Extends scheme hide (namesOn scheme root virtAddr) st label st'
      label') (hsole : Sole scheme label pml4 root virtAddr) :
    Sole scheme label' pml4 root virtAddr := by
  intro other l hother hpath' hfollow
  rcases hextends.named hother with hold | ⟨_, _, hnew⟩
  · exact hsole hold hpath' hfollow
  · exact absurd hpath' (path_ne_nil_of_namesOn hpath hnew)

theorem Replaced.after {st' : State} {path : Path}
    {leaf : Option (Rights × Page)}
    (hgrown : Grown scheme hide new st label mid label')
    (hreplaced : Replaced scheme hide mid label' st' pml4 path leaf) :
    Replaced scheme hide st label st' pml4 path leaf where
  find_eq := by
    intro other l hother hpath indices
    have hsame := hgrown.leaves hother indices
    rw [hpath] at hsame
    rw [hreplaced.find_eq (hgrown.labels hother) hpath, find, find, hsame]
  exact hother hpath hexact :=
    hreplaced.exact (hgrown.labels hother) hpath
      (hgrown.exact hother hpath hexact)

/-- A page is entered and nothing else changes, or nothing changes at all. -/
theorem Tables.mapPageIn_spec (htables : Tables scheme hide st label)
    (hshallow : Shallow scheme) (hroot : label pml4 = some root)
    (hpath : scheme.path root = []) (hshown : Shown hide virtAddr)
    (hsole : Sole scheme label pml4 root virtAddr) (hflags : Plain flags)
    (hlt : physAddr < 2 ^ 52) :
    ∃ label',
      (Grown scheme hide (namesOn scheme root virtAddr) st label
          (st.mapPageIn pml4 virtAddr physAddr flags).1 label' ∧
        (st.mapPageIn pml4 virtAddr physAddr flags).2 = false ∧
        Blocked hide (st.mapPageIn pml4 virtAddr physAddr flags).1 pml4
          virtAddr physAddr flags) ∨
      (Extends scheme hide (namesOn scheme root virtAddr) st label
          (st.mapPageIn pml4 virtAddr physAddr flags).1 label' ∧
        (st.mapPageIn pml4 virtAddr physAddr flags).2 = true ∧
        (virtAddr % 4096 = 0 ∧ physAddr % 4096 = 0) ∧
        Replaced scheme hide st label
          (st.mapPageIn pml4 virtAddr physAddr flags).1 pml4
          (vaPath virtAddr)
          (some (flagRights flags, ⟨physAddr, flags.testBit 9⟩))) := by
  obtain ⟨mid, label', hgrown, hcases⟩ :=
    htables.mapPageIn_cases physAddr flags hroot hpath hshown
  refine ⟨label', ?_⟩
  rcases hcases with ⟨hblocked, hresult⟩ | ⟨pt, hva, hpa, hleads, hresult⟩
  · rw [hresult]
    exact .inl ⟨hgrown, rfl, hblocked⟩
  · rw [hresult]
    have hroot' := hgrown.labels hroot
    have hpt := hgrown.tables.label_at hroot' hpath hleads
    have hlength : (scheme.path
        (scheme.follow root (tablePath virtAddr))).length = 3 := by
      rw [path_follow_root hpath]
      rfl
    have hleaf := leafOf_pageEntry hflags hpa hlt
    have hreplaced := hgrown.tables.replaced_setPage hroot' hpath hleads hshown
      (pageEntry_lt hflags physAddr) (hgrown.toExtends.sole hpath hsole)
      (fun found hfound => by
        rw [hleaf] at hfound
        cases hfound
        exact flagRights_le_allowed flags)
    rw [hleaf] at hreplaced
    exact .inr ⟨hgrown.toExtends.trans (hgrown.tables.extends_setPage hpt
      hlength (ptIndex_lt _) hshallow), rfl, ⟨hva, hpa⟩,
      hreplaced.after hgrown⟩

theorem viewHiding_of_isTableEmpty {table : Nat}
    (hempty : st.isTableEmpty table = true) (path : Path) (i : Nat) :
    viewHiding hide st.mem path table i = .empty := by
  unfold viewHiding
  split
  · rfl
  · split
    · rename_i hi
      have habsent := List.all_eq_true.mp hempty i (List.mem_range.mpr hi)
      rw [hasFlag_present, Bool.not_eq_true'] at habsent
      exact decode_absent habsent
    · rfl

/-- Fewer frames are tables, but no root and no leaf is gone. -/
structure Shrunk (scheme : Scheme L) (hide : Path → Nat → Bool) (st : State)
    (label : Nat → Option L) (st' : State) (label' : Nat → Option L) :
    Prop where
  tables : Tables scheme hide st' label'
  labels : ∀ {frame l}, label' frame = some l → label frame = some l
  roots : ∀ {frame l}, label frame = some l → scheme.anchor l ≠ none →
    label' frame = some l
  gather_eq : ∀ (op : Rights → Rights → Rights) {frame l},
    label' frame = some l → ∀ indices,
      gather op (viewHiding hide st'.mem) (scheme.path l) frame indices =
        gather op (viewHiding hide st.mem) (scheme.path l) frame indices
  cr3 : st'.cr3 = st.cr3

theorem Shrunk.refl (htables : Tables scheme hide st label) :
    Shrunk scheme hide st label st label where
  tables := htables
  labels hlabel := hlabel
  roots hlabel _ := hlabel
  gather_eq _ _ _ _ _ := rfl
  cr3 := rfl

theorem Shrunk.trans {st' : State} {label'' : Nat → Option L}
    (hfirst : Shrunk scheme hide st label mid label')
    (hsecond : Shrunk scheme hide mid label' st' label'') :
    Shrunk scheme hide st label st' label'' where
  tables := hsecond.tables
  labels hlabel := hfirst.labels (hsecond.labels hlabel)
  roots hlabel hanchor :=
    hsecond.roots (hfirst.roots hlabel hanchor) hanchor
  gather_eq op _ _ hlabel indices :=
    (hsecond.gather_eq op hlabel indices).trans
      (hfirst.gather_eq op (hsecond.labels hlabel) indices)
  cr3 := hsecond.cr3.trans hfirst.cr3

theorem viewHiding_set_zero (mem : Memory) (path : Path) (table i : Nat) :
    viewHiding hide (setEntry mem table i 0) path table i = .empty := by
  unfold viewHiding
  split
  · rfl
  · split
    · rw [entryAt_setEntry_self _ _ _ (by decide), decode_zero]
    · rfl

section Drop

variable {table child i : Nat} {above : Rights}
  (htables : Tables scheme hide st label) (htable : label table = some l)
  (hlink : viewHiding hide st.mem (scheme.path l) table i = .link above child)
  (hempty : st.isTableEmpty child = true)
  (hanchor : scheme.anchor (scheme.child l i) = none)

include htables htable hlink hempty hanchor

theorem Tables.dropTable :
    Tables scheme hide (st.dropTable table i child)
      (Function.update label child none) := by
  have hi := (viewHiding_eq_link hlink).2.1
  have hagree := htables.agreeOff_set htable hi 0
  have hchild := htables.labelled.linked htable hlink
  have hfree : (st.dropTable table i child).pmm =
      st.pmm.give (child / 4096) := (htables.reserved hchild).freeFrame
  refine ⟨?_, ?_, ?_, ?_⟩
  · exact htables.labelled.drop htable hagree hlink
      (viewHiding_set_zero _ _ _ _) (viewHiding_of_isTableEmpty hempty _)
      hanchor
  · intro frame l' j above' next hframe hlink'
    obtain ⟨hframe, _⟩ := update_none_eq_some hframe
    by_cases hself : frame = table ∧ j = i
    · obtain ⟨rfl, rfl⟩ := hself
      exact absurd hlink' (by
        rw [show (st.dropTable frame j child).mem =
          setEntry st.mem frame j 0 from rfl, viewHiding_set_zero]
        simp)
    · exact htables.passes hframe
        (hagree hframe (not_and_or.mp hself) ▸ hlink')
  · intro frame l' hframe
    obtain ⟨hframe, hne⟩ := update_none_eq_some hframe
    rw [hfree]
    exact (htables.reserved hframe).give (htables.reserved hchild) hne
  · rw [hfree]
    have hpos := (htables.reserved hchild).nonzero
    have haligned := (htables.reserved hchild).aligned
    exact (Function.update_of_ne (by omega) ..).trans htables.zero

theorem Tables.shrunk_dropTable :
    Shrunk scheme hide st label (st.dropTable table i child)
      (Function.update label child none) where
  tables := htables.dropTable htable hlink hempty hanchor
  labels hlabel := (update_none_eq_some hlabel).1
  roots := by
    intro frame l' hlabel hne
    rw [Function.update_of_ne _ _ _, hlabel]
    rintro rfl
    rw [htables.labelled.linked htable hlink] at hlabel
    cases hlabel
    exact hne hanchor
  gather_eq := by
    intro op frame l' hlabel indices
    have hi := (viewHiding_eq_link hlink).2.1
    have hframe := (update_none_eq_some hlabel).1
    exact htables.labelled.gather_barren htable
      (htables.agreeOff_set htable hi 0)
      (.inr ⟨_, _, hlink, viewHiding_of_isTableEmpty hempty _⟩)
      (.inl (viewHiding_set_zero _ _ _ _)) hframe indices
  cr3 := rfl

end Drop

section Unmap

variable {need : Rights} {front : Path} {table child i : Nat}

/-- The last table of a way is dropped; the way to the others remains. -/
theorem Tables.drop_way (htables : Tables scheme hide st label)
    (hroot : label pml4 = some root) (hpath : scheme.path root = [])
    (htable : Leads (viewHiding hide st.mem) need [] pml4 front table)
    (hchild : Leads (viewHiding hide st.mem) need [] pml4 (front ++ [i]) child)
    (hempty : st.isTableEmpty child = true)
    (hanchor : scheme.anchor (scheme.follow root (front ++ [i])) = none) :
    ∃ label', Shrunk scheme hide st label (st.dropTable table i child) label' ∧
      ∀ {way target}, way.length ≤ front.length →
        Leads (viewHiding hide st.mem) need [] pml4 way target →
        Leads (viewHiding hide (st.dropTable table i child).mem) need [] pml4
          way target := by
  have hlabel := htables.label_at hroot hpath htable
  have hfront := path_follow_root hpath front
  obtain ⟨above, hlink⟩ := hchild.link_of_snoc htable
  have hi := (viewHiding_eq_link hlink).2.1
  have hfollow : scheme.follow root (front ++ [i]) =
      scheme.child (scheme.follow root front) i := by
    simp [Scheme.follow]
  rw [List.nil_append, ← hfront] at hlink
  refine ⟨_, htables.shrunk_dropTable hlabel hlink hempty (hfollow ▸ hanchor),
    fun {way target} hshort hway => ?_⟩
  have hagree := htables.agreeOff_set hlabel hi 0
  rw [← hpath] at hway ⊢
  refine htables.labelled.leads_agreeOff hlabel hagree hroot ?_ hway
  rw [hpath, hfront, List.length_nil, Nat.zero_add]
  exact hshort

/-- No table on the way but the root is an anchor. -/
def PrivateWay (scheme : Scheme L) (root : L) (virtAddr : Nat) : Prop :=
  ∀ l ∈ namesOn scheme root virtAddr, scheme.anchor l = none

theorem Tables.dropEmptyTables_shrunk {pdpt pd : Nat}
    (htables : Tables scheme hide st label)
    (hroot : label pml4 = some root) (hpath : scheme.path root = [])
    (hanchored : scheme.anchor root ≠ none)
    (hprivate : PrivateWay scheme root virtAddr)
    (hpdpt : Leads (viewHiding hide st.mem) need [] pml4
      [pml4Index virtAddr] pdpt)
    (hpd : Leads (viewHiding hide st.mem) need [] pml4
      [pml4Index virtAddr, pdptIndex virtAddr] pd)
    (hpt : Leads (viewHiding hide st.mem) need [] pml4 (tablePath virtAddr)
      pt) :
    ∃ label', Shrunk scheme hide st label
      (st.dropEmptyTables pml4 pdpt pd pt virtAddr) label' := by
  have hanchor : ∀ front, front ≠ [] → front <+: tablePath virtAddr →
      scheme.anchor (scheme.follow root front) = none :=
    fun front hne hinitial => hprivate _ ⟨front, hne, hinitial, rfl⟩
  unfold State.dropEmptyTables
  split
  · rename_i hempty₁
    obtain ⟨label₁, hshrunk₁, hways₁⟩ := htables.drop_way hroot hpath hpd hpt
      hempty₁ (hanchor (tablePath virtAddr) (by simp [tablePath])
        List.prefix_rfl)
    have hroot₁ := hshrunk₁.roots hroot hanchored
    have hpdpt₁ := hways₁ (by simp) hpdpt
    have hpd₁ := hways₁ (by simp) hpd
    generalize st.dropTable pd (pdIndex virtAddr) pt = st₁ at *
    dsimp only
    split
    · rename_i hempty₂
      obtain ⟨label₂, hshrunk₂, hways₂⟩ := hshrunk₁.tables.drop_way hroot₁
        hpath hpdpt₁ hpd₁ hempty₂ (hanchor
          [pml4Index virtAddr, pdptIndex virtAddr] (by simp)
          (by simp [tablePath]))
      have hroot₂ := hshrunk₂.roots hroot₁ hanchored
      have hpdpt₂ := hways₂ (by simp) hpdpt₁
      have hshrunk₁₂ := hshrunk₁.trans hshrunk₂
      generalize st₁.dropTable pdpt (pdptIndex virtAddr) pd = st₂ at *
      split
      · rename_i hempty₃
        have hpml4 : Leads (viewHiding hide st₂.mem) need [] pml4 [] pml4 := rfl
        obtain ⟨label₃, hshrunk₃, _⟩ := hshrunk₂.tables.drop_way hroot₂ hpath
          hpml4 hpdpt₂ hempty₃
          (hanchor [pml4Index virtAddr] (by simp) (by simp [tablePath]))
        exact ⟨label₃, hshrunk₁₂.trans hshrunk₃⟩
      · exact ⟨label₂, hshrunk₁₂⟩
    · exact ⟨label₁, hshrunk₁⟩
  · exact ⟨label, .refl htables⟩

theorem viewHiding_link {path : Path} (hshown : hide path i = false)
    (hi : i < 512) (hdepth : path.length < 3)
    (hpresent : (st.entry table i).testBit 0 = true)
    (hsmall : path.length = 0 ∨ (st.entry table i).testBit 7 = false) :
    viewHiding hide st.mem path table i =
      .link (rights (st.entry table i)) (st.entry table i &&& addrMask) := by
  rw [viewHiding_shown hshown hi]
  exact decode_link hdepth hpresent hsmall

/-- The tables on the way of an address. -/
structure Way (hide : Path → Nat → Bool) (st : State)
    (pml4 virtAddr pdpt pd pt : Nat) : Prop where
  pdpt : Leads (viewHiding hide st.mem) ⊥ [] pml4 [pml4Index virtAddr] pdpt
  pd : Leads (viewHiding hide st.mem) ⊥ [] pml4
    [pml4Index virtAddr, pdptIndex virtAddr] pd
  pt : Leads (viewHiding hide st.mem) ⊥ [] pml4 (tablePath virtAddr) pt

/-- The entries that the code reads are present and not huge. -/
theorem Shown.way (hshown : Shown hide virtAddr) {pdpt pd : Nat}
    (hentry₁ : ¬ (!hasFlag (st.entry pml4 (pml4Index virtAddr)) pagePresent) =
      true)
    (hpdpt : st.entry pml4 (pml4Index virtAddr) &&& addrMask = pdpt)
    (hentry₂ : ¬ (!hasFlag (st.entry pdpt (pdptIndex virtAddr)) pagePresent ||
      isHuge (st.entry pdpt (pdptIndex virtAddr))) = true)
    (hpd : st.entry pdpt (pdptIndex virtAddr) &&& addrMask = pd)
    (hentry₃ : ¬ (!hasFlag (st.entry pd (pdIndex virtAddr)) pagePresent ||
      isHuge (st.entry pd (pdIndex virtAddr))) = true)
    (hpt : st.entry pd (pdIndex virtAddr) &&& addrMask = pt) :
    Way hide st pml4 virtAddr pdpt pd pt := by
  simp only [hasFlag_present, isHuge_eq, Bool.not_eq_true', Bool.not_eq_false,
    Bool.or_eq_true, Bool.and_eq_true, not_or, not_and, Bool.not_eq_true]
    at hentry₁ hentry₂ hentry₃
  have hlink₁ := viewHiding_link (hshown [] (pml4Index virtAddr) _ rfl)
    (pml4Index_lt _) (by simp) hentry₁ (.inl rfl)
  have hlink₂ := viewHiding_link
    (hshown [pml4Index virtAddr] (pdptIndex virtAddr) _ rfl) (pdptIndex_lt _)
    (by simp) hentry₂.1 (.inr (hentry₂.2 hentry₂.1))
  have hlink₃ := viewHiding_link
    (hshown [pml4Index virtAddr, pdptIndex virtAddr] (pdIndex virtAddr) _ rfl)
    (pdIndex_lt _) (by simp) hentry₃.1 (.inr (hentry₃.2 hentry₃.1))
  rw [hpdpt] at hlink₁
  rw [hpd] at hlink₂
  rw [hpt] at hlink₃
  have hway₁ : Leads (viewHiding hide st.mem) ⊥ [] pml4 [pml4Index virtAddr]
      pdpt := ⟨_, _, hlink₁, bot_le, rfl⟩
  have hway₂ := hway₁.snoc hlink₂ bot_le
  exact ⟨hway₁, hway₂, hway₂.snoc hlink₃ bot_le⟩

variable (st) in
/-- Nothing happens, or there is a page to unmap. -/
theorem Shown.unmapPage_cases (hshown : Shown hide virtAddr) :
    st.unmapPage virtAddr = (st, false) ∨
    ∃ pdpt pd pt, virtAddr % 4096 = 0 ∧
      Way hide st (st.cr3 &&& addrMask) virtAddr pdpt pd pt ∧
      st.unmapPage virtAddr = ((st.set pt (ptIndex virtAddr) 0).dropEmptyTables
        (st.cr3 &&& addrMask) pdpt pd pt virtAddr, true) := by
  unfold State.unmapPage
  split
  · exact .inl rfl
  rename_i haligned
  dsimp only
  split
  · exact .inl rfl
  rename_i hpresent₁
  split
  · exact .inl rfl
  rename_i hpresent₂
  split
  · exact .inl rfl
  rename_i hpresent₃
  split
  · exact .inl rfl
  exact .inr ⟨_, _, _, not_not.mp haligned,
    hshown.way hpresent₁ rfl hpresent₂ rfl hpresent₃ rfl, rfl⟩

variable (st) in
/-- Nothing happens, or one entry of a page table is replaced. -/
theorem Shown.protectPage_cases (hshown : Shown hide virtAddr)
    (newFlags : Nat) :
    st.protectPage virtAddr newFlags = (st, false) ∨
    ∃ pdpt pd pt value,
      Way hide st (st.cr3 &&& addrMask) virtAddr pdpt pd pt ∧
      st.protectPage virtAddr newFlags =
        (st.set pt (ptIndex virtAddr) value, true) := by
  unfold State.protectPage
  split
  · exact .inl rfl
  dsimp only
  split
  · exact .inl rfl
  rename_i hpresent₁
  split
  · exact .inl rfl
  rename_i hpresent₂
  split
  · exact .inl rfl
  rename_i hpresent₃
  split
  · exact .inl rfl
  exact .inr ⟨_, _, _, _,
    hshown.way hpresent₁ rfl hpresent₂ rfl hpresent₃ rfl, rfl⟩

section

variable {pdpt pd : Nat} (htables : Tables scheme hide st label)
  (hroot : label pml4 = some root) (hpath : scheme.path root = [])
  (hway : Way hide st pml4 virtAddr pdpt pd pt)

include htables hroot hpath hway

/-- Another entry in the page table of a way. -/
theorem Tables.extends_way (hshallow : Shallow scheme) (value : Nat) :
    Extends scheme hide ∅ st label (st.set pt (ptIndex virtAddr) value)
      label := by
  refine htables.extends_setPage (htables.label_at hroot hpath hway.pt) ?_
    (ptIndex_lt _) hshallow
  rw [path_follow_root hpath]
  rfl

/-- The way is still there. -/
theorem Tables.way_setPage (value : Nat) :
    Way hide (st.set pt (ptIndex virtAddr) value) pml4 virtAddr pdpt pd pt where
  pdpt := htables.leads_setPage value hroot hpath hway.pt (by simp) hway.pdpt
  pd := htables.leads_setPage value hroot hpath hway.pt (by simp) hway.pd
  pt := htables.leads_setPage value hroot hpath hway.pt (by simp [tablePath])
    hway.pt

end

/-- The page is gone and nothing else has changed, or nothing has changed at
all. -/
theorem Tables.unmapPage_spec (htables : Tables scheme hide st label)
    (hshallow : Shallow scheme) (hroot : label (st.cr3 &&& addrMask) = some root)
    (hpath : scheme.path root = []) (hanchored : scheme.anchor root ≠ none)
    (hshown : Shown hide virtAddr)
    (hreached : ∀ pt, Leads (viewHiding hide st.mem) ⊥ [] (st.cr3 &&& addrMask)
      (tablePath virtAddr) pt →
        Sole scheme label (st.cr3 &&& addrMask) root virtAddr ∧
          PrivateWay scheme root virtAddr) :
    st.unmapPage virtAddr = (st, false) ∨
    ∃ mid st' label', st.unmapPage virtAddr = (st', true) ∧
      virtAddr % 4096 = 0 ∧
      Replaced scheme hide st label mid (st.cr3 &&& addrMask)
        (vaPath virtAddr) none ∧
      Extends scheme hide ∅ st label mid label ∧
      Shrunk scheme hide mid label st' label' := by
  refine (hshown.unmapPage_cases st).imp_right ?_
  rintro ⟨pdpt, pd, pt, haligned, hway, hresult⟩
  have hextends := htables.extends_way hroot hpath hway hshallow 0
  have hway' := htables.way_setPage hroot hpath hway 0
  obtain ⟨label', hshrunk⟩ := hextends.tables.dropEmptyTables_shrunk hroot
    hpath hanchored (hreached pt hway.pt).2 hway'.pdpt hway'.pd hway'.pt
  refine ⟨_, _, label', hresult, haligned, ?_, hextends, hshrunk⟩
  exact htables.replaced_setPage hroot hpath hway.pt hshown
    (Nat.two_pow_pos 64) (hreached pt hway.pt).1 fun found hfound => by
      cases hfound

end Unmap

end Paging

end VenomOS
