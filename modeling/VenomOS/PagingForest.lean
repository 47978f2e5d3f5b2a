/-
Address spaces over the boot tables.  Every address space takes over the
kernel's page directory, so the trees share it and nothing else; the effective
translation of each is a map that map_page_in and unmap_page change at one
page.
-/
import VenomOS.PagingMap
import VenomOS.PagingCreate

namespace VenomOS

namespace Paging

open ByteMemory RadixTable

def bootPml4 : Nat := 0x1000

def bootPdpt : Nat := 0x2000

def bootPd : Nat := 0x3000

/-- The entries that stage2.asm writes. -/
def bootEntry (table i : Nat) : Nat :=
  if table = bootPd then
    (0x83 + i * 0x200000) ||| if i = 0 then 0 else 0x80000000 <<< 32
  else if i ≠ 0 then 0
  else if table = bootPml4 then bootPdpt ||| 0x3
  else bootPd ||| 0x3

structure Boot (st : State) : Prop where
  entries : ∀ table ∈ [bootPml4, bootPdpt, bootPd], ∀ i < 512,
    st.entry table i = bootEntry table i
  reserved : ∀ frame < 4, st.pmm.used frame = true
  cr3 : st.cr3 = bootPml4

/-- A table is named by its root and its path; what is below the kernel's slot
belongs to the boot tables, whichever root it is reached from. -/
def sharedChild (l : Nat × Path) (i : Nat) : Nat × Path :=
  (if l.2 = [0] ∧ i = 0 then bootPml4 else l.1, l.2 ++ [i])

def sharedAnchor (l : Nat × Path) : Option Nat :=
  if l.2 = [] then some l.1
  else if l = (bootPml4, [0, 0]) then some bootPd
  else none

def sharedScheme : Scheme (Nat × Path) where
  path := Prod.snd
  child := sharedChild
  anchor := sharedAnchor
  path_child _ _ := rfl
  child_inj := by
    rintro ⟨s, p⟩ ⟨s', p'⟩ i i' hchild hanchor
    simp only [sharedChild, Prod.mk.injEq] at hchild
    obtain ⟨howner, hpath⟩ := hchild
    obtain ⟨rfl, hi⟩ := List.append_inj' hpath rfl
    cases hi
    by_cases hshared : p = [0] ∧ i = 0
    · obtain ⟨rfl, rfl⟩ := hshared
      simp [sharedAnchor, sharedChild] at hanchor
    · simp only [hshared, if_false] at howner
      exact ⟨by rw [howner], rfl⟩

theorem sharedScheme_shallow : Shallow sharedScheme := by
  rintro ⟨s, p⟩ hlength
  change 3 < p.length at hlength
  have hne : p ≠ [] := by
    rintro rfl
    simp at hlength
  have hne' : (s, p) ≠ (bootPml4, [0, 0]) := by
    intro heq
    cases heq
    simp at hlength
  change sharedAnchor (s, p) = none
  simp only [sharedAnchor, hne, hne', if_false]

/-- Off the kernel's slot a tree has all its tables to itself. -/
theorem sharedScheme_private {s : Nat} {p : Path} (hne : p ≠ [])
    (hoff : ¬ p <+: [0, 0]) : sharedScheme.Private (s, p) := by
  intro indices
  have hpath : (sharedScheme.follow (s, p) indices).2 = p ++ indices :=
    sharedScheme.path_follow (s, p) indices
  have hne' : (sharedScheme.follow (s, p) indices).2 ≠ [] := by
    rw [hpath]
    exact List.append_ne_nil_of_left_ne_nil hne _
  have hother : sharedScheme.follow (s, p) indices ≠ (bootPml4, [0, 0]) := by
    intro heq
    rw [heq] at hpath
    exact hoff ⟨indices, hpath.symm⟩
  change sharedAnchor _ = none
  simp only [sharedAnchor, hne', hother, if_false]

theorem sharedScheme_plantable (frame : Nat) :
    Plantable sharedScheme (frame, []) frame where
  path := rfl
  anchor := rfl
  anchor' := by simp [sharedScheme, sharedChild, sharedAnchor]
  rest j hj := by
    have hchild : sharedScheme.child (frame, []) j = (frame, [j]) := by
      simp [sharedScheme, sharedChild]
    rw [hchild]
    exact sharedScheme_private (by simp) (by simp [hj])
  rest' j hj := by
    have hchild : sharedScheme.child (sharedScheme.child (frame, []) 0) j =
        (frame, [0, j]) := by
      simp [sharedScheme, sharedChild, hj]
    rw [hchild]
    exact sharedScheme_private (by simp) (by simp [hj])

/-- The kernel's slot is the way to the kernel's page directory. -/
def KernelSlot (virtAddr : Nat) : Prop :=
  pml4Index virtAddr = 0 ∧ pdptIndex virtAddr = 0

instance (virtAddr : Nat) : Decidable (KernelSlot virtAddr) :=
  inferInstanceAs (Decidable (_ ∧ _))

theorem sharedScheme_follow (root virtAddr : Nat) :
    sharedScheme.follow (root, []) (tablePath virtAddr) =
      (if KernelSlot virtAddr then bootPml4 else root,
        tablePath virtAddr) := by
  by_cases hslot : KernelSlot virtAddr
  · simp [Scheme.follow, sharedScheme, sharedChild, tablePath, hslot.1,
      hslot.2, hslot]
  · have hor : ¬ (pml4Index virtAddr = 0 ∧ pdptIndex virtAddr = 0) := hslot
    simp [Scheme.follow, sharedScheme, sharedChild, tablePath, hslot]
    exact fun h4 h3 => absurd ⟨h4, h3⟩ hor

def noHide : Path → Nat → Bool := fun _ _ => false

theorem shown_noHide (virtAddr : Nat) : Shown noHide virtAddr :=
  fun _ _ _ _ => rfl

/-- What the kernel's page directory maps: 2 MiB each, for the kernel alone,
executable in the first. -/
def kernelLeaf (i : Nat) : Rights × Page × Path :=
  ((false, true, decide (i = 0)), ⟨i * 0x200000, false⟩, [])

/-- Trees that share the kernel's page directory, whatever the first slot of
the directory holds. -/
structure Grove (st : State) (live : Set Nat)
    (label : Nat → Option (Nat × Path)) : Prop where
  tables : Tables sharedScheme noHide st label
  roots : ∀ root ∈ live, label root = some (root, [])
  owned : ∀ {frame l}, label frame = some l → l.1 ∈ live
  directory : ∀ root ∈ live, ∀ i < 512, i ≠ 0 →
    find (view st.mem) root [0, 0, i] = some (kernelLeaf i)
  kernel : bootPml4 ∈ live
  cr3 : st.cr3 &&& addrMask ∈ live

structure Forest (st : State) (live : Set Nat)
    (label : Nat → Option (Nat × Path)) : Prop where
  tables : Tables sharedScheme noHide st label
  roots : ∀ root ∈ live, label root = some (root, [])
  owned : ∀ {frame l}, label frame = some l → l.1 ∈ live
  exact : ∀ root ∈ live, Exact (view st.mem) root
  directory : ∀ root ∈ live, ∀ i < 512,
    find (view st.mem) root [0, 0, i] = some (kernelLeaf i)
  kernel : bootPml4 ∈ live
  cr3 : st.cr3 &&& addrMask ∈ live

variable {st st' : State} {live : Set Nat}
  {label label' : Nat → Option (Nat × Path)}

/-- The two tables above the kernel's page directory. -/
structure KernelWay (st : State) (root pdpt : Nat) (above below : Rights) :
    Prop where
  first : view st.mem [] root 0 = .link above pdpt
  second : view st.mem [0] pdpt 0 = .link below bootPd
  leaves : ∀ i < 512,
    gather (fun _ leaf => leaf) (view st.mem) [0, 0] bootPd [i] =
      some (kernelLeaf i)

theorem Forest.grove (hforest : Forest st live label) :
    Grove st live label where
  tables := hforest.tables
  roots := hforest.roots
  owned := hforest.owned
  directory root hroot i hi _ := hforest.directory root hroot i hi
  kernel := hforest.kernel
  cr3 := hforest.cr3

theorem Grove.forest (hgrove : Grove st live label)
    (hexact : ∀ root ∈ live, Exact (view st.mem) root)
    (hfirst : ∀ root ∈ live,
      find (view st.mem) root [0, 0, 0] = some (kernelLeaf 0)) :
    Forest st live label where
  tables := hgrove.tables
  roots := hgrove.roots
  owned := hgrove.owned
  exact := hexact
  directory root hroot i hi := by
    by_cases hzero : i = 0
    · subst hzero
      exact hfirst root hroot
    · exact hgrove.directory root hroot i hi hzero
  kernel := hgrove.kernel
  cr3 := hgrove.cr3

variable {l : Nat × Path} {root frame : Nat} {new : Set (Nat × Path)}

theorem Grove.anchored (hgrove : Grove st live label)
    (hlabel : label frame = some (bootPml4, [0, 0])) : frame = bootPd :=
  hgrove.tables.labelled.anchored hlabel rfl

theorem Grove.kernelWay (hgrove : Grove st live label) (hroot : root ∈ live) :
    ∃ pdpt above below,
      view st.mem [] root 0 = .link above pdpt ∧
      view st.mem [0] pdpt 0 = .link below bootPd ∧
      label pdpt = some (root, [0]) ∧
      label bootPd = some (bootPml4, [0, 0]) := by
  obtain ⟨above, pdpt, hfirst, hrest⟩ := link_of_gather_last (by simp)
    (hgrove.directory root hroot 1 (by decide) (by decide))
  obtain ⟨below, pd, hsecond, _⟩ := link_of_gather_last (by simp) hrest
  have hpdpt : label pdpt = some (root, [0]) :=
    hgrove.tables.labelled.linked (hgrove.roots root hroot) hfirst
  have hpd : label pd = some (bootPml4, [0, 0]) :=
    hgrove.tables.labelled.linked hpdpt hsecond
  obtain rfl := hgrove.anchored hpd
  exact ⟨pdpt, above, below, hfirst, hsecond, hpdpt, hpd⟩

theorem Grove.kernel_leads (hgrove : Grove st live label)
    (hroot : root ∈ live) :
    Leads (view st.mem) ⊥ [] root [0, 0] bootPd := by
  obtain ⟨pdpt, above, below, hfirst, hsecond, _⟩ := hgrove.kernelWay hroot
  exact ⟨above, pdpt, hfirst, bot_le, below, bootPd, hsecond, bot_le, rfl⟩

theorem Forest.kernelWay (hforest : Forest st live label)
    (hroot : root ∈ live) : ∃ pdpt above below,
      KernelWay st root pdpt above below ∧ label pdpt = some (root, [0]) ∧
        label bootPd = some (bootPml4, [0, 0]) := by
  obtain ⟨pdpt, above, below, hfirst, hsecond, hpdpt, hpd⟩ :=
    hforest.grove.kernelWay hroot
  refine ⟨pdpt, above, below, ⟨hfirst, hsecond, fun i hi => ?_⟩, hpdpt, hpd⟩
  have hleaf := hforest.directory root hroot i hi
  rwa [find, show [0, 0, i] = [0, 0] ++ [i] from rfl,
    gather_last_of_leads (hforest.grove.kernel_leads hroot),
    List.nil_append] at hleaf

/-- The kernel's page directory holds no link, so no page table is reached
through the kernel's slot. -/
theorem Forest.no_kernel_table (hforest : Forest st live label)
    (hroot : root ∈ live) {virtAddr pt : Nat} {need : Rights}
    (hslot : KernelSlot virtAddr)
    (hleads : Leads (view st.mem) need [] root (tablePath virtAddr) pt) :
    False := by
  obtain ⟨pdpt, above, below, hway, _⟩ := hforest.kernelWay hroot
  rw [tablePath, hslot.1, hslot.2] at hleads
  obtain ⟨_, pdpt', hfirst, _, hleads⟩ := hleads
  rw [hway.first] at hfirst
  cases hfirst
  obtain ⟨_, pd', hsecond, _, hleads⟩ := hleads
  rw [List.nil_append, hway.second] at hsecond
  cases hsecond
  obtain ⟨_, _, hlink, _⟩ := hleads
  have hleaf := hway.leaves (pdIndex virtAddr) (pdIndex_lt _)
  rw [List.nil_append, List.singleton_append] at hlink
  rw [gather_last_link hlink] at hleaf
  cases hleaf

theorem Forest.sole (hforest : Forest st live label) {pml4 virtAddr : Nat}
    (hslot : ¬ KernelSlot virtAddr) :
    Sole sharedScheme label pml4 (pml4, []) virtAddr := by
  rintro other ⟨s, p⟩ hother hpath hfollow
  obtain rfl : p = [] := hpath
  rw [sharedScheme_follow, sharedScheme_follow, if_neg hslot,
    if_neg hslot] at hfollow
  obtain rfl : s = pml4 := congrArg Prod.fst hfollow
  exact hforest.tables.labelled.anchored hother rfl

variable {pml4 virtAddr physAddr flags : Nat}

theorem owner_of_namesOn (hpml4 : pml4 ∈ live) (hkernel : bootPml4 ∈ live)
    (hl : l ∈ namesOn sharedScheme (pml4, []) virtAddr) : l.1 ∈ live := by
  obtain ⟨front, _, _, rfl⟩ := hl
  have howner : ∀ (l : Nat × Path) (indices : Path), l.1 ∈ live →
      (sharedScheme.follow l indices).1 ∈ live := by
    intro l indices hl
    induction indices generalizing l with
    | nil => exact hl
    | cons i rest ih =>
        refine ih (sharedChild l i) ?_
        simp only [sharedChild]
        split
        · exact hkernel
        · exact hl
  exact howner (pml4, []) front hpml4

theorem Grove.extend (hgrove : Grove st live label)
    (hnew : ∀ l ∈ new, l.1 ∈ live)
    (hextends : Extends sharedScheme noHide new st label st' label')
    (hfind : ∀ root ∈ live, ∀ i < 512, i ≠ 0 →
      find (view st'.mem) root [0, 0, i] =
        find (view st.mem) root [0, 0, i]) :
    Grove st' live label' where
  tables := hextends.tables
  roots root hroot := hextends.labels (hgrove.roots root hroot)
  owned := by
    intro frame l hlabel
    rcases hextends.named hlabel with hold | ⟨_, _, hmem⟩
    · exact hgrove.owned hold
    · exact hnew l hmem
  directory root hroot i hi hne :=
    (hfind root hroot i hi hne).trans (hgrove.directory root hroot i hi hne)
  kernel := hgrove.kernel
  cr3 := by
    rw [hextends.cr3]
    exact hgrove.cr3

theorem Forest.extend (hforest : Forest st live label)
    (hnew : ∀ l ∈ new, l.1 ∈ live)
    (hextends : Extends sharedScheme noHide new st label st' label')
    (hexact : ∀ root ∈ live, Exact (view st'.mem) root)
    (hfind : ∀ root ∈ live, ∀ i < 512, find (view st'.mem) root [0, 0, i] =
      find (view st.mem) root [0, 0, i]) :
    Forest st' live label' := by
  refine (hforest.grove.extend hnew hextends
    fun root hroot i hi _ => hfind root hroot i hi).forest hexact ?_
  intro root hroot
  rw [hfind root hroot 0 (by decide)]
  exact hforest.directory root hroot 0 (by decide)

theorem Forest.grow (hforest : Forest st live label) (hpml4 : pml4 ∈ live)
    (hgrown : Grown sharedScheme noHide
      (namesOn sharedScheme (pml4, []) virtAddr) st label st' label') :
    Forest st' live label' ∧ ∀ root ∈ live, ∀ indices,
      find (view st'.mem) root indices = find (view st.mem) root indices := by
  have hfind : ∀ root ∈ live, ∀ indices, find (view st'.mem) root indices =
      find (view st.mem) root indices :=
    fun root hroot indices => hgrown.leaves (hforest.roots root hroot) indices
  refine ⟨hforest.extend (fun _ => owner_of_namesOn hpml4 hforest.kernel)
    hgrown.toExtends (fun root hroot => ?_) fun root hroot i _ => hfind root hroot _, hfind⟩
  exact hgrown.exact (hforest.roots root hroot) rfl (hforest.exact root hroot)

theorem not_isPrefix_vaPath (virtAddr i : Nat) :
    ¬ vaPath virtAddr <+: [0, 0, i] := by
  intro hinitial
  have hlength := hinitial.length_le
  simp [vaPath] at hlength

/-- One leaf of one tree after a step, or all leaves as they were. -/
def LeafChange (st st' : State) (live : Set Nat) (pml4 : Nat) (path : Path)
    (leaf : Option (Rights × Page)) : Prop :=
  ∀ root ∈ live, ∀ indices, find (view st'.mem) root indices =
    if root = pml4 ∧ path <+: indices then
      leaf.map fun found => (found.1, found.2, indices.drop path.length)
    else find (view st.mem) root indices

def LeavesSame (st st' : State) (live : Set Nat) : Prop :=
  ∀ root ∈ live, ∀ indices,
    find (view st'.mem) root indices = find (view st.mem) root indices

theorem Forest.mapPageIn (hforest : Forest st live label) (virtAddr : Nat)
    (hpml4 : pml4 ∈ live) (hflags : Plain flags) (hlt : physAddr < 2 ^ 52) :
    (∃ label', Forest (st.mapPageIn pml4 virtAddr physAddr flags).1 live
      label') ∧
    ((st.mapPageIn pml4 virtAddr physAddr flags).2 = false →
      LeavesSame st (st.mapPageIn pml4 virtAddr physAddr flags).1 live) ∧
    ((st.mapPageIn pml4 virtAddr physAddr flags).2 = true →
      LeafChange st (st.mapPageIn pml4 virtAddr physAddr flags).1 live pml4
        (vaPath virtAddr)
        (some (flagRights flags, ⟨physAddr, flags.testBit 9⟩))) := by
  have hroot := hforest.roots pml4 hpml4
  have hshown := shown_noHide virtAddr
  by_cases hslot : KernelSlot virtAddr
  · obtain ⟨mid, label', hgrown, hcases⟩ :=
      hforest.tables.mapPageIn_cases physAddr flags hroot rfl hshown
    obtain ⟨hforest', hfind⟩ := hforest.grow hpml4 hgrown
    rcases hcases with ⟨_, hresult⟩ | ⟨pt, _, _, hleads, _⟩
    · rw [hresult]
      exact ⟨⟨label', hforest'⟩, fun _ => hfind, fun htrue => by cases htrue⟩
    · exact (hforest'.no_kernel_table hpml4 hslot hleads).elim
  · obtain ⟨label', hcases⟩ := hforest.tables.mapPageIn_spec
      sharedScheme_shallow hroot rfl hshown (hforest.sole hslot) hflags hlt
    rcases hcases with ⟨hgrown, hfalse, _⟩ | ⟨hextends, htrue, _, hreplaced⟩
    · obtain ⟨hforest', hfind⟩ := hforest.grow hpml4 hgrown
      refine ⟨⟨label', hforest'⟩, fun _ => hfind, fun htrue => ?_⟩
      rw [hfalse] at htrue
      cases htrue
    · have hchange : LeafChange st
          (st.mapPageIn pml4 virtAddr physAddr flags).1 live pml4
          (vaPath virtAddr)
          (some (flagRights flags, ⟨physAddr, flags.testBit 9⟩)) :=
        fun root hroot indices =>
          hreplaced.find_eq (hforest.roots root hroot) rfl indices
      refine ⟨⟨label', hforest.extend
        (fun _ => owner_of_namesOn hpml4 hforest.kernel) hextends
        (fun root hroot => ?_) fun root hroot i _ => ?_⟩, fun hfalse => ?_,
        fun _ => hchange⟩
      · exact hreplaced.exact (hforest.roots root hroot) rfl
          (hforest.exact root hroot)
      · rw [hchange root hroot, if_neg]
        exact fun hboth => not_isPrefix_vaPath virtAddr i hboth.2
      · rw [htrue] at hfalse
        cases hfalse

theorem privateWay (hslot : ¬ KernelSlot virtAddr) :
    PrivateWay sharedScheme (pml4, []) virtAddr := by
  rintro l ⟨front, hne, hinitial, rfl⟩
  have hpath : (sharedScheme.follow (pml4, []) front).2 = front :=
    sharedScheme.path_follow (pml4, []) front
  have hother : sharedScheme.follow (pml4, []) front ≠
      (bootPml4, [0, 0]) := by
    intro heq
    rw [heq] at hpath
    obtain ⟨rest, hrest⟩ := hinitial
    rw [← hpath, tablePath] at hrest
    simp only [List.cons_append, List.cons.injEq] at hrest
    exact hslot ⟨hrest.1.symm, hrest.2.1.symm⟩
  change sharedAnchor _ = none
  rw [sharedAnchor, hpath, if_neg hne, if_neg hother]

section

variable {mid : State} (hshrunk : Shrunk sharedScheme noHide mid label st' label')

include hshrunk

theorem Shrunk.gather_root
    (hroots : ∀ root ∈ live, label root = some (root, []))
    (op : Rights → Rights → Rights) {root : Nat} (hroot : root ∈ live)
    (indices : Path) : gather op (view st'.mem) [] root indices =
      gather op (view mid.mem) [] root indices :=
  hshrunk.gather_eq op (hshrunk.roots (hroots root hroot)
    (Option.some_ne_none root)) indices

theorem Grove.shrink (hgrove : Grove mid live label) :
    Grove st' live label' where
  tables := hshrunk.tables
  roots root hroot := hshrunk.roots (hgrove.roots root hroot)
    (Option.some_ne_none root)
  owned hlabel := hgrove.owned (hshrunk.labels hlabel)
  directory root hroot i hi hne :=
    (hshrunk.gather_root hgrove.roots _ hroot _).trans
      (hgrove.directory root hroot i hi hne)
  kernel := hgrove.kernel
  cr3 := by
    rw [hshrunk.cr3]
    exact hgrove.cr3

theorem Forest.shrink (hforest : Forest mid live label) :
    Forest st' live label' ∧ LeavesSame mid st' live := by
  have hsame : LeavesSame mid st' live := fun root hroot indices =>
    hshrunk.gather_root hforest.roots _ hroot indices
  refine ⟨(hforest.grove.shrink hshrunk).forest ?_ ?_, hsame⟩
  · intro root hroot indices
    rw [walk, hshrunk.gather_root hforest.roots _ hroot, hsame root hroot]
    exact hforest.exact root hroot indices
  · intro root hroot
    rw [hsame root hroot]
    exact hforest.directory root hroot 0 (by decide)

end

theorem Forest.unmapPage (hforest : Forest st live label) (virtAddr : Nat) :
    (∃ label', Forest (st.unmapPage virtAddr).1 live label') ∧
    ((st.unmapPage virtAddr).2 = false →
      LeavesSame st (st.unmapPage virtAddr).1 live) ∧
    ((st.unmapPage virtAddr).2 = true →
      LeafChange st (st.unmapPage virtAddr).1 live (st.cr3 &&& addrMask)
        (vaPath virtAddr) none) := by
  have hroot := hforest.roots _ hforest.cr3
  have hspec := hforest.tables.unmapPage_spec sharedScheme_shallow hroot rfl
    (Option.some_ne_none _) (shown_noHide virtAddr) (fun pt hleads => by
      by_cases hslot : KernelSlot virtAddr
      · exact (hforest.no_kernel_table hforest.cr3 hslot hleads).elim
      · exact ⟨hforest.sole hslot, privateWay hslot⟩)
  rcases hspec with hresult | ⟨mid, st', label', hresult, _, hreplaced,
    hextends, hshrunk⟩
  · rw [hresult]
    exact ⟨⟨label, hforest⟩, fun _ _ _ _ => rfl, fun htrue => by cases htrue⟩
  · rw [hresult]
    have hchange : LeafChange st mid live (st.cr3 &&& addrMask)
        (vaPath virtAddr) none := fun root hroot indices =>
      hreplaced.find_eq (hforest.roots root hroot) rfl indices
    have hmid : Forest mid live label :=
      hforest.extend (fun _ hl => hl.elim) hextends
        (fun root hroot => hreplaced.exact (hforest.roots root hroot) rfl
          (hforest.exact root hroot))
        (fun root hroot i _ => by
          rw [hchange root hroot, if_neg]
          exact fun hboth => not_isPrefix_vaPath virtAddr i hboth.2)
    obtain ⟨hforest', hsame⟩ := hmid.shrink hshrunk
    refine ⟨⟨label', hforest'⟩, nofun,
      fun _ root hroot indices => ?_⟩
    rw [hsame root hroot, hchange root hroot]

/-- A tree that has the kernel's page directory behind its first slots and
nothing else. -/
theorem exact_of_kernelTree {view : View Rights Page} {root pdpt : Nat}
    {above : Rights} (hroot : view [] root 0 = .link above pdpt)
    (hroot' : ∀ i ≠ 0, view [] root i = .empty)
    (hpdpt' : ∀ i ≠ 0, view [0] pdpt i = .empty)
    (hleads : Leads view (false, true, true) [] root [0, 0] bootPd)
    (hpd : ∀ (op : Rights → Rights → Rights) (i : Nat) (rest : Path),
      gather op view [0, 0] bootPd (i :: rest) = if i < 512 then
        some ((kernelLeaf i).1, (kernelLeaf i).2.1, rest) else none) :
    Exact view root := by
  have hbelow : ∀ rest, gather (· ⊓ ·) view [0, 0] bootPd rest =
      gather (fun _ leaf => leaf) view [0, 0] bootPd rest := by
    rintro (_ | ⟨i, rest⟩)
    · rfl
    · rw [hpd, hpd]
  intro indices
  rw [walk, find]
  cases indices with
  | nil => rfl
  | cons i rest =>
      by_cases hi : i = 0
      · subst hi
        cases rest with
        | nil => simp [hroot, gather]
        | cons j rest =>
            by_cases hj : j = 0
            · subst hj
              change gather _ _ _ _ ([0, 0] ++ rest) =
                gather _ _ _ _ ([0, 0] ++ rest)
              rw [gather_last_of_leads hleads, List.nil_append, ← hbelow,
                gather_inf_of_leads hleads, List.nil_append]
              intro found hfound
              rw [List.nil_append] at hfound
              cases rest with
              | nil => cases hfound
              | cons i rest =>
                  rw [hpd] at hfound
                  split at hfound
                  · cases hfound
                    exact ⟨le_rfl, le_rfl, Bool.le_true _⟩
                  · cases hfound
            · simp [gather_cons, hroot, hpdpt' j hj]
      · simp [gather_cons, hroot' i hi]

variable {f g : Nat}

theorem Grove.kernelSlot_link (hgrove : Grove st live label) :
    ∃ below, decode 1 st.kernelSlot = .link below bootPd ∧
      passage ≤ below ∧ label bootPd = some (bootPml4, [0, 0]) := by
  obtain ⟨pdpt, above, below, hfirst, hsecond, hpdpt, hpd⟩ :=
    hgrove.kernelWay hgrove.cr3
  obtain ⟨_, _, hdecode⟩ := viewHiding_eq_link hfirst
  obtain ⟨_, _, hdecode'⟩ := viewHiding_eq_link hsecond
  obtain ⟨_, _, _, _, hnext⟩ := decode_eq_link hdecode
  have hslot : st.kernelSlot = entryAt st.mem pdpt 0 := by
    rw [State.kernelSlot, hnext]
    rfl
  exact ⟨below, hslot ▸ hdecode', hgrove.tables.passes hpdpt hsecond, hpd⟩

theorem Grove.inherited (hgrove : Grove st live label) (frame : Nat) :
    Inherited sharedScheme noHide label (frame, []) st.kernelSlot := by
  obtain ⟨below, hdecode, hpasses, hpd⟩ := hgrove.kernelSlot_link
  exact .inr ⟨rfl, below, bootPd, hdecode, hpasses, hpd⟩

theorem kernelSlot_lt (st : State) : st.kernelSlot < 2 ^ 64 :=
  entryAt_lt _ _ _

section

variable (hclear : TwoClear st.pmm f g)

include hclear

/-- The way from the new root to the kernel's page directory. -/
theorem Grove.leads_planted (hgrove : Grove st live label) :
    Leads (view (st.planted f g st.kernelSlot).mem) passage []
      (f * 4096) [0, 0] bootPd := by
  obtain ⟨below, hdecode, hle, _⟩ := hgrove.kernelSlot_link
  refine ⟨_, _, viewHiding_planted_root hclear rfl, passage_le_allowed 0,
    below, bootPd, ?_, hle, rfl⟩
  exact (viewHiding_planted_table hclear (kernelSlot_lt st) rfl).trans hdecode

theorem Grove.gather_planted (hgrove : Grove st live label)
    (op : Rights → Rights → Rights) {frame : Nat} {l : Nat × Path}
    (hlabel : label frame = some l) (indices : Path) :
    gather op (view (st.planted f g st.kernelSlot).mem) l.2 frame indices =
      gather op (view st.mem) l.2 frame indices :=
  hgrove.tables.labelled.gather_same
    (hgrove.tables.viewHiding_planted_same hclear) hlabel indices

/-- The new tree finds what the tree in use finds in the kernel's page
directory. -/
theorem Grove.find_planted (hgrove : Grove st live label) (rest : Path) :
    find (view (st.planted f g st.kernelSlot).mem) (f * 4096)
        ([0, 0] ++ rest) =
      find (view st.mem) (st.cr3 &&& addrMask) ([0, 0] ++ rest) := by
  obtain ⟨_, _, _, _, _, _, hpd⟩ := hgrove.kernelWay hgrove.cr3
  rw [find, gather_last_of_leads (hgrove.leads_planted hclear),
    List.nil_append, hgrove.gather_planted hclear _ hpd, find,
    gather_last_of_leads (hgrove.kernel_leads hgrove.cr3), List.nil_append]

theorem Grove.create (hgrove : Grove st live label) :
    Grove (st.planted f g st.kernelSlot) (insert (f * 4096) live)
        (plantLabel sharedScheme label (f * 4096, []) f g) ∧
      LeavesSame st (st.planted f g st.kernelSlot) live := by
  have hextends := hgrove.tables.extends_planted hclear
    (sharedScheme_plantable (f * 4096)) rfl (kernelSlot_lt st)
    (hgrove.inherited (f * 4096))
  have hsame : LeavesSame st (st.planted f g st.kernelSlot) live :=
    fun root hroot indices =>
      hgrove.gather_planted hclear _ (hgrove.roots root hroot) indices
  refine ⟨⟨hextends.tables, ?_, ?_, ?_, .inr hgrove.kernel,
    .inr hgrove.cr3⟩, hsame⟩
  · rintro root (rfl | hroot)
    · exact plantLabel_root hclear
    · exact hextends.labels (hgrove.roots root hroot)
  · intro frame l hlabel
    rcases hextends.named hlabel with hold | ⟨_, _, rfl | rfl⟩
    · exact .inr (hgrove.owned hold)
    · exact .inl rfl
    · exact .inl (by simp [sharedScheme, sharedChild])
  · rintro root (rfl | hroot) i hi hne
    · exact (hgrove.find_planted hclear [i]).trans
        (hgrove.directory _ hgrove.cr3 i hi hne)
    · rw [hsame root hroot, hgrove.directory root hroot i hi hne]

theorem Forest.gather_planted_pd (hforest : Forest st live label)
    (op : Rights → Rights → Rights) (i : Nat) (rest : Path) :
    gather op (view (st.planted f g st.kernelSlot).mem) [0, 0] bootPd
      (i :: rest) = if i < 512 then
        some ((kernelLeaf i).1, (kernelLeaf i).2.1, rest) else none := by
  obtain ⟨pdpt, above, below, hway, _, hpd⟩ := hforest.kernelWay hforest.cr3
  rw [hforest.grove.gather_planted hclear op hpd, gather_cons]
  by_cases hi : i < 512
  · have hleaf := hway.leaves i hi
    rw [gather_cons] at hleaf
    rw [if_pos hi]
    cases hslot : view st.mem [0, 0] bootPd i with
    | empty => simp [hslot] at hleaf
    | leaf rights page =>
        simp only [hslot, Option.some.injEq] at hleaf
        simp only [← hleaf]
    | link rights next => simp [hslot, gather] at hleaf
  · rw [if_neg hi]
    simp [view, viewHiding, hi]

theorem Forest.exact_planted (hforest : Forest st live label) :
    Exact (view (st.planted f g st.kernelSlot).mem) (f * 4096) :=
  exact_of_kernelTree (viewHiding_planted_root hclear rfl)
    (fun _ => viewHiding_planted_root_ne hclear)
    (fun _ => viewHiding_planted_table_ne hclear (kernelSlot_lt st))
    (hforest.grove.leads_planted hclear) (hforest.gather_planted_pd hclear)

theorem Forest.create (hforest : Forest st live label) :
    Forest (st.planted f g st.kernelSlot) (insert (f * 4096) live)
        (plantLabel sharedScheme label (f * 4096, []) f g) ∧
      LeavesSame st (st.planted f g st.kernelSlot) live := by
  obtain ⟨hgrove, hsame⟩ := hforest.grove.create hclear
  refine ⟨hgrove.forest ?_ ?_, hsame⟩
  · rintro root (rfl | hroot) indices
    · exact hforest.exact_planted hclear indices
    · rw [hsame root hroot, walk,
        hforest.grove.gather_planted hclear _ (hforest.roots root hroot)]
      exact hforest.exact root hroot indices
  · rintro root (rfl | hroot)
    · exact (hforest.grove.find_planted hclear [0]).trans
        (hforest.directory _ hforest.cr3 0 (by decide))
    · rw [hsame root hroot, hforest.directory root hroot 0 (by decide)]

end

/-- The frames that hold the tables of the live trees. -/
def TableOf (st : State) (live : Set Nat) (frame : Nat) : Prop :=
  ∃ root ∈ live, ∃ path, Leads (view st.mem) ⊥ [] root path frame

theorem Grove.tableOf (hgrove : Grove st live label)
    (hlabel : label frame = some l) :
    TableOf st live frame := by
  have hway : ∃ root ∈ live, Leads (view st.mem) ⊥ [] root l.2 frame := by
    induction hlength : l.2.length generalizing frame l with
    | zero =>
        obtain ⟨s, p⟩ := l
        obtain rfl : p = [] := List.length_eq_zero_iff.mp hlength
        refine ⟨s, hgrove.owned hlabel, ?_⟩
        exact (hgrove.tables.labelled.anchored hlabel rfl).symm
    | succ n ih =>
        cases hanchor : sharedScheme.anchor l with
        | none =>
            obtain ⟨other, l', i, above, rfl, hother, hlink⟩ :=
              hgrove.tables.labelled.connected hlabel hanchor
            have hshort : l'.2.length = n := by
              simpa [sharedScheme, sharedChild] using hlength
            obtain ⟨root, hroot, hleads⟩ := ih hother hshort
            exact ⟨root, hroot, hleads.snoc hlink bot_le⟩
        | some anchor =>
            have hl : l = (bootPml4, [0, 0]) := by
              change sharedAnchor l = some anchor at hanchor
              unfold sharedAnchor at hanchor
              split at hanchor
              · simp_all
              · split at hanchor
                · assumption
                · cases hanchor
            rw [hl] at hlabel ⊢
            rw [hgrove.anchored hlabel]
            exact ⟨bootPml4, hgrove.kernel,
              hgrove.kernel_leads hgrove.kernel⟩
  obtain ⟨root, hroot, hleads⟩ := hway
  exact ⟨root, hroot, l.2, hleads⟩

/-- The rest of the kernel writes to memory outside of the tables, takes and
frees other frames, and loads the root of a live tree. -/
structure Elsewhere (st : State) (live : Set Nat) (st' : State) : Prop where
  tables : ∀ {frame}, TableOf st live frame →
    (∀ addr, frame ≤ addr → addr < frame + 4096 →
      st'.mem addr = st.mem addr) ∧ st'.pmm.used (frame / 4096) = true
  zero : st'.pmm.used 0 = true
  cr3 : st'.cr3 &&& addrMask ∈ live

section

variable (helsewhere : Elsewhere st live st')

include helsewhere

theorem Grove.view_elsewhere (hgrove : Grove st live label) {frame j : Nat}
    {l : Nat × Path} (hlabel : label frame = some l) :
    viewHiding noHide st'.mem (sharedScheme.path l) frame j =
      viewHiding noHide st.mem (sharedScheme.path l) frame j := by
  have hmem := (helsewhere.tables (hgrove.tableOf hlabel)).1
  unfold viewHiding
  split
  · rfl
  · split
    · rw [entryAt_congr hmem ‹_›]
    · rfl

theorem Grove.gather_elsewhere (hgrove : Grove st live label)
    (op : Rights → Rights → Rights) {root : Nat} (hroot : root ∈ live)
    (indices : Path) :
    gather op (view st'.mem) [] root indices =
      gather op (view st.mem) [] root indices :=
  hgrove.tables.labelled.gather_same (hgrove.view_elsewhere helsewhere)
    (hgrove.roots root hroot) indices

theorem Grove.elsewhere (hgrove : Grove st live label) :
    Grove st' live label := by
  refine ⟨⟨?_, ?_, ?_, helsewhere.zero⟩, hgrove.roots, hgrove.owned, ?_,
    hgrove.kernel, helsewhere.cr3⟩
  · exact hgrove.tables.labelled.widens fun _ _ _ hlabel =>
      .inl (hgrove.view_elsewhere helsewhere hlabel)
  · intro frame l i above next hlabel hlink
    rw [hgrove.view_elsewhere helsewhere hlabel] at hlink
    exact hgrove.tables.passes hlabel hlink
  · intro frame l hlabel
    exact { hgrove.tables.reserved hlabel with
      used := (helsewhere.tables (hgrove.tableOf hlabel)).2 }
  · intro root hroot i hi hne
    rw [find, hgrove.gather_elsewhere helsewhere _ hroot]
    exact hgrove.directory root hroot i hi hne

theorem Forest.elsewhere (hforest : Forest st live label) :
    Forest st' live label := by
  have hgather := fun (op : Rights → Rights → Rights) {root : Nat}
      (hroot : root ∈ live) indices =>
    hforest.grove.gather_elsewhere helsewhere op hroot indices
  refine (hforest.grove.elsewhere helsewhere).forest ?_ ?_
  · intro root hroot indices
    rw [walk, find, hgather _ hroot, hgather _ hroot]
    exact hforest.exact root hroot indices
  · intro root hroot
    rw [find, hgather _ hroot]
    exact hforest.directory root hroot 0 (by decide)

end

/-- The tables that are left when a tree is given up. -/
def without (label : Nat → Option (Nat × Path)) (root : Nat) :
    Nat → Option (Nat × Path) :=
  fun frame => (label frame).filter fun l => l.1 != root

theorem without_eq_some {root frame : Nat} :
    without label root frame = some l ↔
      label frame = some l ∧ l.1 ≠ root := by
  simp [without, Option.filter_eq_some_iff]

theorem Grove.retire (hgrove : Grove st live label)
    (hkernel : root ≠ bootPml4) (hcr3 : root ≠ st.cr3 &&& addrMask) :
    Grove st (live \ {root}) (without label root) where
  tables :=
    { labelled :=
        { linked := by
            rintro frame ⟨s, p⟩ i above next hlabel hlink
            rw [without_eq_some] at hlabel ⊢
            refine ⟨hgrove.tables.labelled.linked hlabel.1 hlink, ?_⟩
            simp only [sharedScheme, sharedChild]
            split
            · exact hkernel.symm
            · exact hlabel.2
          connected := by
            intro next l' hlabel hanchor
            rw [without_eq_some] at hlabel
            obtain ⟨frame, l, i, above, rfl, hframe, hlink⟩ :=
              hgrove.tables.labelled.connected hlabel.1 hanchor
            refine ⟨frame, l, i, above, rfl, ?_, hlink⟩
            refine without_eq_some.mpr ⟨hframe, fun howner => ?_⟩
            by_cases hshared : l.2 = [0] ∧ i = 0
            · simp [sharedScheme, sharedAnchor, sharedChild, hshared]
                at hanchor
            · refine hlabel.2 ?_
              simp [sharedScheme, sharedChild, hshared, howner]
          anchored := fun hlabel hanchor =>
            hgrove.tables.labelled.anchored (without_eq_some.mp hlabel).1
              hanchor
          settled := fun hlabel hempty =>
            hgrove.tables.labelled.settled (without_eq_some.mp hlabel).1
              hempty }
      passes := fun hlabel hlink =>
        hgrove.tables.passes (without_eq_some.mp hlabel).1 hlink
      reserved := fun hlabel =>
        hgrove.tables.reserved (without_eq_some.mp hlabel).1
      zero := hgrove.tables.zero }
  roots other hother :=
    without_eq_some.mpr ⟨hgrove.roots other hother.1, hother.2⟩
  owned hlabel :=
    ⟨hgrove.owned (without_eq_some.mp hlabel).1, (without_eq_some.mp hlabel).2⟩
  directory other hother := hgrove.directory other hother.1
  kernel := ⟨hgrove.kernel, hkernel.symm⟩
  cr3 := ⟨hgrove.cr3, hcr3.symm⟩

theorem Forest.retire (hforest : Forest st live label)
    (hkernel : root ≠ bootPml4) (hcr3 : root ≠ st.cr3 &&& addrMask) :
    Forest st (live \ {root}) (without label root) :=
  (hforest.grove.retire hkernel hcr3).forest
    (fun other hother => hforest.exact other hother.1)
    fun other hother => hforest.directory other hother.1 0 (by decide)

def bootLabel (frame : Nat) : Option (Nat × Path) :=
  if frame = bootPml4 then some (bootPml4, [])
  else if frame = bootPdpt then some (bootPml4, [0])
  else if frame = bootPd then some (bootPml4, [0, 0])
  else none

theorem bootLabel_cases (hlabel : bootLabel frame = some l) :
    (frame = bootPml4 ∧ l = (bootPml4, [])) ∨
      (frame = bootPdpt ∧ l = (bootPml4, [0])) ∨
        (frame = bootPd ∧ l = (bootPml4, [0, 0])) := by
  unfold bootLabel at hlabel
  split at hlabel
  · cases hlabel
    exact .inl ⟨‹_›, rfl⟩
  · split at hlabel
    · cases hlabel
      exact .inr (.inl ⟨‹_›, rfl⟩)
    · split at hlabel
      · cases hlabel
        exact .inr (.inr ⟨‹_›, rfl⟩)
      · cases hlabel

theorem bootLabel_pml4 : bootLabel bootPml4 = some (bootPml4, []) := rfl

theorem bootLabel_pdpt : bootLabel bootPdpt = some (bootPml4, [0]) := rfl

theorem bootLabel_pd : bootLabel bootPd = some (bootPml4, [0, 0]) := rfl

/-- The slots of the boot tables. -/
def bootSlot (l : Nat × Path) (i : Nat) : Slot Rights Page :=
  if 512 ≤ i then .empty
  else if l.2 = [0, 0] then .leaf (kernelLeaf i).1 (kernelLeaf i).2.1
  else if i ≠ 0 then .empty
  else if l.2 = [0] then .link (false, true, true) bootPd
  else .link (false, true, true) bootPdpt

theorem bootEntry_pd :
    ∀ i < 512, (bootEntry bootPd i).testBit 0 = true ∧
      (bootEntry bootPd i).testBit 7 = true ∧
      rights (bootEntry bootPd i) = (kernelLeaf i).1 ∧
      pageOf 0x200000 (bootEntry bootPd i) = (kernelLeaf i).2.1 := by
  decide +kernel

theorem Boot.view_eq (hboot : Boot st) (hlabel : bootLabel frame = some l)
    (i : Nat) :
    viewHiding noHide st.mem l.2 frame i = bootSlot l i := by
  by_cases hi : 512 ≤ i
  · simp [viewHiding, bootSlot, hi, Nat.not_lt.mpr hi]
  rw [viewHiding_shown rfl (Nat.lt_of_not_le hi), bootSlot, if_neg hi]
  have hentry := fun table htable =>
    hboot.entries table htable i (Nat.lt_of_not_le hi)
  unfold State.entry at hentry
  rcases bootLabel_cases hlabel with ⟨rfl, rfl⟩ | ⟨rfl, rfl⟩ | ⟨rfl, rfl⟩
  · rw [hentry bootPml4 (by decide)]
    by_cases hzero : i = 0
    · subst hzero
      rfl
    · simp [bootEntry, bootPml4, bootPd, hzero]
  · rw [hentry bootPdpt (by decide)]
    by_cases hzero : i = 0
    · subst hzero
      rfl
    · simp [bootEntry, bootPdpt, bootPd, hzero]
  · rw [hentry bootPd (by decide)]
    obtain ⟨hpresent, hhuge, hrights, hpage⟩ :=
      bootEntry_pd i (Nat.lt_of_not_le hi)
    simp only [decode, List.length_cons, List.length_nil, hasFlag_present,
      hasFlag_huge, hpresent, hhuge, hrights, hpage, Bool.not_true,
      Bool.false_eq_true, if_false, if_true]

theorem bootSlot_link {i next : Nat} {above : Rights}
    (hlink : bootSlot l i = .link above next) :
    i = 0 ∧ above = (false, true, true) ∧
      ((l.2 = [0] ∧ next = bootPd) ∨ (l.2 ≠ [0] ∧ next = bootPdpt)) := by
  unfold bootSlot at hlink
  split at hlink
  · cases hlink
  · split at hlink
    · cases hlink
    · split at hlink
      · cases hlink
      · split at hlink
        · cases hlink
          exact ⟨not_not.mp ‹_›, rfl, .inl ⟨‹_›, rfl⟩⟩
        · cases hlink
          exact ⟨not_not.mp ‹_›, rfl, .inr ⟨‹_›, rfl⟩⟩

theorem bootSlot_empty {i : Nat} (hempty : bootSlot l i = .empty) : i ≠ 0 := by
  rintro rfl
  unfold bootSlot at hempty
  simp only [nonpos_iff_eq_zero, OfNat.ofNat_ne_zero, if_false, ne_eq,
    not_true_eq_false] at hempty
  split at hempty
  · cases hempty
  · split at hempty <;> cases hempty

theorem Boot.labelled (hboot : Boot st) :
    Labelled sharedScheme (viewHiding noHide st.mem) bootLabel where
  linked := by
    intro frame l i above next hlabel hlink
    change viewHiding noHide st.mem l.2 frame i = _ at hlink
    rw [hboot.view_eq hlabel] at hlink
    obtain ⟨rfl, _, hnext⟩ := bootSlot_link hlink
    rcases bootLabel_cases hlabel with ⟨rfl, rfl⟩ | ⟨rfl, rfl⟩ | ⟨rfl, rfl⟩
    · obtain rfl : next = bootPdpt := by simpa using hnext
      rfl
    · obtain rfl : next = bootPd := by simpa using hnext
      rfl
    · simp [bootSlot] at hlink
  connected := by
    intro next l' hlabel hanchor
    rcases bootLabel_cases hlabel with ⟨rfl, rfl⟩ | ⟨rfl, rfl⟩ | ⟨rfl, rfl⟩
    · cases hanchor
    · refine ⟨bootPml4, (bootPml4, []), 0, (false, true, true), rfl, rfl, ?_⟩
      exact hboot.view_eq bootLabel_pml4 0
    · cases hanchor
  anchored := by
    intro frame l anchor hlabel hanchor
    rcases bootLabel_cases hlabel with ⟨rfl, rfl⟩ | ⟨rfl, rfl⟩ | ⟨rfl, rfl⟩
    · exact Option.some.inj hanchor
    · cases hanchor
    · exact Option.some.inj hanchor
  settled := by
    intro frame l i hlabel hempty
    change viewHiding noHide st.mem l.2 frame i = _ at hempty
    rw [hboot.view_eq hlabel] at hempty
    have hi := bootSlot_empty hempty
    have hpath : (sharedScheme.child l i).2 = l.2 ++ [i] := rfl
    refine sharedScheme_private (s := (sharedScheme.child l i).1) (by simp) ?_
    rcases bootLabel_cases hlabel with ⟨rfl, rfl⟩ | ⟨rfl, rfl⟩ | ⟨rfl, rfl⟩
    · simp [hi]
    · simp [hi]
    · simp

theorem Boot.reserved_label (hboot : Boot st)
    (hlabel : bootLabel frame = some l) : Reserved st.pmm frame := by
  rcases bootLabel_cases hlabel with ⟨rfl, rfl⟩ | ⟨rfl, rfl⟩ | ⟨rfl, rfl⟩
  · exact ⟨by decide, rfl, by decide, hboot.reserved 1 (by decide)⟩
  · exact ⟨by decide, rfl, by decide, hboot.reserved 2 (by decide)⟩
  · exact ⟨by decide, rfl, by decide, hboot.reserved 3 (by decide)⟩

theorem Boot.gather_pd (hboot : Boot st) (op : Rights → Rights → Rights)
    (i : Nat) (rest : Path) :
    gather op (view st.mem) [0, 0] bootPd (i :: rest) = if i < 512 then
      some ((kernelLeaf i).1, (kernelLeaf i).2.1, rest) else none := by
  have hslot : view st.mem [0, 0] bootPd i = bootSlot (bootPml4, [0, 0]) i :=
    hboot.view_eq bootLabel_pd i
  rw [gather_cons, hslot]
  by_cases hi : i < 512
  · simp [bootSlot, hi, Nat.not_le.mpr hi]
  · simp [bootSlot, hi, Nat.le_of_not_lt hi]

theorem Boot.forest (hboot : Boot st) :
    Forest st {bootPml4} bootLabel := by
  have hfirst : view st.mem [] bootPml4 0 =
      .link (false, true, true) bootPdpt := hboot.view_eq bootLabel_pml4 0
  have hsecond : view st.mem [0] bootPdpt 0 =
      .link (false, true, true) bootPd := hboot.view_eq bootLabel_pdpt 0
  have hfirst' : ∀ i ≠ 0, view st.mem [] bootPml4 i = .empty := by
    intro i hi
    refine (hboot.view_eq bootLabel_pml4 i).trans ?_
    simp [bootSlot, hi]
  have hsecond' : ∀ i ≠ 0, view st.mem [0] bootPdpt i = .empty := by
    intro i hi
    refine (hboot.view_eq bootLabel_pdpt i).trans ?_
    simp [bootSlot, hi]
  have hleads : Leads (view st.mem) (false, true, true) [] bootPml4 [0, 0]
      bootPd := ⟨_, _, hfirst, le_rfl, _, _, hsecond, le_rfl, rfl⟩
  refine ⟨⟨hboot.labelled, ?_, hboot.reserved_label, hboot.reserved 0
    (by decide)⟩, ?_, ?_, ?_, ?_, rfl, ?_⟩
  · intro frame l i above next hlabel hlink
    change viewHiding noHide st.mem l.2 frame i = _ at hlink
    rw [hboot.view_eq hlabel] at hlink
    exact (bootSlot_link hlink).2.1.ge
  · rintro root rfl
    rfl
  · intro frame l hlabel
    rcases bootLabel_cases hlabel with ⟨_, rfl⟩ | ⟨_, rfl⟩ | ⟨_, rfl⟩ <;> rfl
  · rintro root rfl
    exact exact_of_kernelTree hfirst hfirst' hsecond' hleads hboot.gather_pd
  · rintro root rfl i hi
    rw [find, show [0, 0, i] = [0, 0] ++ [i] from rfl,
      gather_last_of_leads hleads, List.nil_append, hboot.gather_pd, if_pos hi]
    rfl
  · rw [hboot.cr3]
    rfl

end Paging

end VenomOS
