/-
One address space by itself.  The tables that map_page_in gives to it form a
tree that leaves out the kernel's slot, and the pages mapped with PAGE_OWNED
go with the tree.
-/
import VenomOS.PagingRuns

namespace VenomOS

namespace Paging

open ByteMemory RadixTable

/-- The slot that every address space takes over from the kernel. -/
def hideKernel (path : Path) (i : Nat) : Bool := decide (path = [0] ∧ i = 0)

/-- A table is named by its path. -/
def treeScheme (root : Nat) : Scheme Path where
  path l := l
  child l i := l ++ [i]
  anchor l := if l = [] then some root else none
  path_child _ _ := rfl
  child_inj := by
    intro l l' i i' hchild _
    obtain ⟨rfl, hi⟩ := List.append_inj' hchild rfl
    cases hi
    exact ⟨rfl, rfl⟩

variable {root : Nat}

theorem treeScheme_follow (l indices : Path) :
    (treeScheme root).follow l indices = l ++ indices :=
  (treeScheme root).path_follow l indices

variable {rights : Rights} {page : Page} {path l : Path}

theorem treeScheme_anchor (hne : l ≠ []) :
    (treeScheme root).anchor l = none :=
  if_neg hne

theorem treeScheme_private (hne : l ≠ []) :
    (treeScheme root).Private l := by
  intro indices
  rw [treeScheme_follow]
  exact treeScheme_anchor (List.append_ne_nil_of_left_ne_nil hne _)

theorem treeScheme_shallow : Shallow (treeScheme root) := by
  intro l hlength
  refine treeScheme_anchor ?_
  rintro rfl
  simp [treeScheme] at hlength

theorem treeScheme_plantable (frame : Nat) :
    Plantable (treeScheme frame) [] frame where
  path := rfl
  anchor := rfl
  anchor' := treeScheme_anchor (by simp [treeScheme])
  rest _ _ := treeScheme_private (by simp [treeScheme])
  rest' _ _ := treeScheme_private (by simp [treeScheme])

theorem shown_hideKernel {virtAddr : Nat} (hslot : ¬ KernelSlot virtAddr) :
    Shown hideKernel virtAddr := by
  intro front i rest hpath
  refine decide_eq_false ?_
  rintro ⟨rfl, rfl⟩
  simp only [vaPath, List.cons_append, List.nil_append, List.cons.injEq]
    at hpath
  exact hslot ⟨hpath.1, hpath.2.1⟩

theorem treeScheme_sole {label : Nat → Option Path} {view : View Rights Page}
    (hlabelled : Labelled (treeScheme root) view label) (virtAddr : Nat) :
    Sole (treeScheme root) label root [] virtAddr := by
  rintro other l hother hpath _
  obtain rfl : l = [] := hpath
  exact hlabelled.anchored hother rfl

/-- The tables of an address space outside of the kernel's slot. -/
def ownView (mem : Memory) : View Rights Page := viewHiding hideKernel mem

theorem ownView_of_shown {mem : Memory} {frame i : Nat}
    (hshown : hideKernel path i = false) :
    ownView mem path frame i = view mem path frame i := by
  rw [ownView, view, viewHiding, viewHiding, hshown]

/-- Along indices that do not enter the kernel's slot an address space is seen
as it is. -/
theorem gather_ownView (op : Rights → Rights → Rights) (mem : Memory)
    {path indices : Path} {frame : Nat}
    (hshown : ∀ front i rest, indices = front ++ i :: rest →
      hideKernel (path ++ front) i = false) :
    gather op (ownView mem) path frame indices =
      gather op (view mem) path frame indices := by
  induction indices generalizing path frame with
  | nil => rfl
  | cons i tail ih =>
      have hfirst := hshown [] i tail rfl
      rw [List.append_nil] at hfirst
      rw [gather_cons, gather_cons, ownView_of_shown hfirst]
      cases view mem path frame i with
      | empty => rfl
      | leaf rights page => rfl
      | link rights next =>
          have hrest := @ih (path ++ [i]) next fun front j rest htail => by
            have hnext := hshown (i :: front) j rest (by rw [htail]; rfl)
            rwa [List.append_assoc]
          simp only [hrest]

/-- The page at the end of a path. -/
def Maps (st : State) (root : Nat) (path : Path) (rights : Rights)
    (page : Page) : Prop :=
  find (ownView st.mem) root path = some (rights, page, [])

/-- The tables of an address space and the pages that go with it: all pages
are small, and the frame of an owned page is a table nowhere and mapped with
this right once. -/
structure Space (st : State) (root : Nat) (label : Nat → Option Path) :
    Prop where
  tables : Tables (treeScheme root) hideKernel st label
  rooted : label root = some []
  exact : Exact (ownView st.mem) root
  small : ∀ {indices found}, find (ownView st.mem) root indices = some found →
    indices.length = 4 + found.2.2.length
  owned : ∀ {path rights frame}, Maps st root path rights ⟨frame, true⟩ →
    Reserved st.pmm frame ∧ label frame = none
  distinct : ∀ {path path' rights rights' frame},
    Maps st root path rights ⟨frame, true⟩ →
      Maps st root path' rights' ⟨frame, true⟩ → path = path'

variable {st st' : State} {label label' : Nat → Option Path} {frame : Nat}

theorem Space.leads (hspace : Space st root label)
    (hlabel : label frame = some l) :
    Leads (ownView st.mem) ⊥ [] root l frame := by
  induction l using List.reverseRecOn generalizing frame with
  | nil => exact (hspace.tables.labelled.anchored hlabel rfl).symm
  | append_singleton l i ih =>
      obtain ⟨table, l', j, above, hchild, htable, hlink⟩ :=
        hspace.tables.labelled.connected hlabel (treeScheme_anchor (by simp))
      obtain ⟨rfl, hj⟩ := List.append_inj' hchild rfl
      cases hj
      exact (ih htable).snoc hlink bot_le

theorem Space.label_of_leads (hspace : Space st root label) {need : Rights}
    (hleads : Leads (ownView st.mem) need [] root l frame) :
    label frame = some l := by
  have hlabel := hspace.tables.label_at hspace.rooted rfl hleads
  rwa [treeScheme_follow, List.nil_append] at hlabel

/-- The kernel's slot is no part of the tree. -/
theorem Space.label_off_kernel (hspace : Space st root label) {rest : Path} :
    label frame ≠ some (0 :: 0 :: rest) := by
  intro hlabel
  obtain ⟨_, pdpt, _, _, _, _, hlink, _⟩ := hspace.leads hlabel
  simp [ownView, viewHiding, hideKernel] at hlink

theorem find_kernel (mem : Memory) (rest : Path) :
    find (ownView mem) root (0 :: 0 :: rest) = none := by
  rw [find, gather_cons]
  cases hslot : ownView mem [] root 0 with
  | empty => rfl
  | leaf rights page =>
      simp only [ownView, viewHiding, hideKernel, decode] at hslot
      split at hslot
      · cases hslot
      · simp only [List.length_nil] at hslot
        split at hslot
        · split at hslot <;> cases hslot
        · cases hslot
  | link rights next => simp [gather_cons, ownView, viewHiding, hideKernel]

/-- A page lies behind tables that are labelled. -/
theorem Space.maps_iff (hspace : Space st root label) {front rest : Path}
    (hlabel : label frame = some front) :
    Maps st root (front ++ rest) rights page ↔
      gather (fun _ leaf => leaf) (ownView st.mem) front frame rest =
        some (rights, page, []) := by
  rw [Maps, find, gather_last_of_leads (hspace.leads hlabel), List.nil_append]

theorem Space.label_of_maps (hspace : Space st root label)
    (hmaps : Maps st root path rights page) {front : Path}
    (hfront : front <+: path) (hne : front ≠ path) :
    ∃ table, label table = some front := by
  induction front using List.reverseRecOn with
  | nil => exact ⟨root, hspace.rooted⟩
  | append_singleton front i ih =>
      obtain ⟨rest, rfl⟩ := hfront
      have hrest : rest ≠ [] := by
        rintro rfl
        simp at hne
      rw [List.append_assoc, List.singleton_append] at hmaps
      obtain ⟨table, htable⟩ := ih ⟨i :: rest, by simp⟩ (by simp)
      obtain ⟨above, next, hlink, _⟩ :=
        link_of_gather_last hrest ((hspace.maps_iff htable).mp hmaps)
      exact ⟨next, hspace.tables.labelled.linked htable hlink⟩

theorem tables_empty (hzero : st.pmm.used 0 = true) :
    Tables (treeScheme root) hideKernel st fun _ => none where
  labelled := ⟨nofun, nofun, nofun, nofun⟩
  passes := nofun
  reserved := nofun
  zero := hzero

section Plant

variable {f g e : Nat}

/-- The labels of a tree that has just been planted. -/
def newLabel (f g : Nat) : Nat → Option Path :=
  plantLabel (treeScheme (f * 4096)) (fun _ => none) [] f g

theorem extends_new (hzero : st.pmm.used 0 = true)
    (hclear : TwoClear st.pmm f g) (he : e < 2 ^ 64) :
    Extends (treeScheme (f * 4096)) hideKernel {[], [0]} st (fun _ => none)
      (st.planted f g e) (newLabel f g) :=
  (tables_empty hzero).extends_planted hclear (treeScheme_plantable _)
    (by decide) he
    (.inl ⟨by decide, treeScheme_private (by simp [treeScheme])⟩)

/-- A new address space has no page of its own. -/
theorem find_new (hclear : TwoClear st.pmm f g) (he : e < 2 ^ 64)
    (op : Rights → Rights → Rights) (indices : Path) :
    gather op (ownView (st.planted f g e).mem) [] (f * 4096) indices =
      none := by
  have hroot : ownView (st.planted f g e).mem [] (f * 4096) 0 =
      .link (allowed 0) (g * 4096) := viewHiding_planted_root hclear rfl
  have hroot' : ∀ j ≠ 0, ownView (st.planted f g e).mem [] (f * 4096) j =
      .empty := fun j hj => viewHiding_planted_root_ne hclear hj
  have htable : ∀ j, ownView (st.planted f g e).mem [0] (g * 4096) j =
      .empty := by
    intro j
    by_cases hj : j = 0
    · subst hj
      rfl
    · exact viewHiding_planted_table_ne hclear he hj
  cases indices with
  | nil => rfl
  | cons i rest =>
      rw [gather_cons]
      by_cases hi : i = 0
      · subst hi
        cases rest with
        | nil => simp [hroot, gather]
        | cons j rest => simp [hroot, gather_cons, htable]
      · simp [hroot' i hi]

theorem Space.new (hzero : st.pmm.used 0 = true)
    (hclear : TwoClear st.pmm f g) (he : e < 2 ^ 64) :
    Space (st.planted f g e) (f * 4096) (newLabel f g) := by
  have hnone : ∀ indices, find (ownView (st.planted f g e).mem) (f * 4096)
      indices = none := find_new hclear he _
  refine ⟨(extends_new hzero hclear he).tables, plantLabel_root hclear, ?_, ?_,
    ?_, ?_⟩
  · intro indices
    rw [walk, find_new hclear he, hnone]
  · intro indices found hfind
    rw [hnone] at hfind
    cases hfind
  · intro path rights frame hmaps
    rw [Maps, hnone] at hmaps
    cases hmaps
  · intro path path' rights rights' frame hmaps
    rw [Maps, hnone] at hmaps
    cases hmaps

end Plant

/-- The huge pages of an address space are all the kernel's. -/
theorem Space.not_huge (hspace : Space st root label) {front : Path}
    {i target : Nat} {need : Rights} (hshown : hideKernel front i = false)
    (hi : i < 512) (hlength : front.length = 1 ∨ front.length = 2)
    (hleads : Leads (ownView st.mem) need [] root front target) :
    isHuge (st.entry target i) = false := by
  by_contra hhuge
  rw [isHuge_eq, Bool.not_eq_false, Bool.and_eq_true] at hhuge
  have hleaf : ∃ page, ownView st.mem front target i =
      .leaf (rights (st.entry target i)) page := by
    rw [ownView, viewHiding_shown hshown hi]
    exact decode_leaf hhuge.1 (.inr ⟨hlength, hhuge.2⟩)
  obtain ⟨page, hleaf⟩ := hleaf
  have hfind : find (ownView st.mem) root (front ++ [i]) =
      some (rights (st.entry target i), page, []) := by
    rw [find, gather_last_of_leads hleads, List.nil_append, gather_cons, hleaf]
  have hsmall := hspace.small hfind
  simp only [List.length_append, List.length_singleton, List.length_nil]
    at hsmall
  omega

variable {virtAddr physAddr flags : Nat}

theorem Space.exhausted_of_blocked (hspace : Space st root label)
    (hslot : ¬ KernelSlot virtAddr) (hva : virtAddr % 4096 = 0)
    (hpa : physAddr % 4096 = 0)
    (hblocked : Blocked hideKernel st root virtAddr physAddr flags) :
    Exhausted st.pmm := by
  rcases hblocked with hva' | hpa' | hfull |
    ⟨front, i, rest, target, hne, hne', hpath, hleads, hhuge⟩
  · exact absurd hva hva'
  · exact absurd hpa hpa'
  · exact hfull
  · have hlength := congrArg List.length hpath
    have hpos := List.length_pos_iff.mpr hne
    have hpos' := List.length_pos_iff.mpr hne'
    simp only [vaPath, List.length_append, List.length_cons, List.length_nil]
      at hlength
    have hi : i < 512 := by
      have hmem : i ∈ vaPath virtAddr := by simp [hpath]
      simp only [vaPath, List.mem_cons, List.not_mem_nil, or_false] at hmem
      rcases hmem with rfl | rfl | rfl | rfl
      · exact pml4Index_lt _
      · exact pdptIndex_lt _
      · exact pdIndex_lt _
      · exact ptIndex_lt _
    have hsmall := hspace.not_huge (shown_hideKernel hslot front i rest hpath)
      hi (by omega) hleads
    rw [hsmall] at hhuge
    cases hhuge

section Extend

variable {new : Set Path}
  (hextends : Extends (treeScheme root) hideKernel new st label st' label')

include hextends

theorem Extends.reserved (hreserved : Reserved st.pmm frame) :
    Reserved st'.pmm frame :=
  { hreserved with
    used := by rw [hextends.used, hreserved.used, Bool.true_or] }

theorem Extends.unlabelled (hused : st.pmm.used (frame / 4096) = true)
    (hnone : label frame = none) : label' frame = none := by
  cases hlabel : label' frame with
  | none => rfl
  | some l =>
      rcases hextends.named hlabel with hold | ⟨_, hclear, _⟩
      · rw [hnone] at hold
        cases hold
      · rw [hused] at hclear
        cases hclear

end Extend

/-- The pages of an address space are the same after a step. -/
def PagesSame (st st' : State) (root : Nat) : Prop :=
  ∀ indices, find (ownView st'.mem) root indices =
    find (ownView st.mem) root indices

/-- The pages of an address space differ at one address. -/
def PageSet (st st' : State) (root virtAddr : Nat) (rights : Rights)
    (page : Page) : Prop :=
  ∀ indices, find (ownView st'.mem) root indices =
    if vaPath virtAddr <+: indices then
      some (rights, page, indices.drop 4)
    else find (ownView st.mem) root indices

theorem PagesSame.maps_iff (hsame : PagesSame st st' root) :
    Maps st' root path rights page ↔ Maps st root path rights page := by
  rw [Maps, hsame, Maps]

theorem PageSet.maps_iff (hset : PageSet st st' root virtAddr rights page)
    (hspace : Space st root label) {rights' : Rights} {page' : Page} :
    Maps st' root path rights' page' ↔
      if path = vaPath virtAddr then rights' = rights ∧ page' = page
      else Maps st root path rights' page' := by
  rw [Maps, hset]
  by_cases hpath : path = vaPath virtAddr
  · have hdrop : (vaPath virtAddr).drop 4 = [] := rfl
    rw [if_pos hpath, if_pos (by rw [hpath]), hpath, hdrop]
    simp [eq_comm]
  · rw [if_neg hpath]
    split
    · rename_i hinitial
      have hlong : 4 < path.length := by
        refine lt_of_le_of_ne hinitial.length_le fun hlength => hpath ?_
        exact (hinitial.eq_of_length hlength).symm
      have hdrop : path.drop 4 ≠ [] := by
        rw [Ne, List.drop_eq_nil_iff]
        omega
      refine ⟨fun heq => ?_, fun hmaps => ?_⟩
      · simp only [Option.some.injEq, Prod.mk.injEq] at heq
        exact absurd heq.2.2 hdrop
      · have hsmall := hspace.small hmaps
        simp only [List.length_nil] at hsmall
        omega
    · rfl

theorem Space.same {new : Set Path} (hspace : Space st root label)
    (hextends : Extends (treeScheme root) hideKernel new st label st' label')
    (hexact : Exact (ownView st'.mem) root) (hsame : PagesSame st st' root) :
    Space st' root label' where
  tables := hextends.tables
  rooted := hextends.labels hspace.rooted
  exact := hexact
  small hfind := by
    rw [hsame] at hfind
    exact hspace.small hfind
  owned hmaps := by
    obtain ⟨hreserved, hnone⟩ := hspace.owned (hsame.maps_iff.mp hmaps)
    exact ⟨hextends.reserved hreserved,
      hextends.unlabelled hreserved.used hnone⟩
  distinct hmaps hmaps' :=
    hspace.distinct (hsame.maps_iff.mp hmaps) (hsame.maps_iff.mp hmaps')

/-- A frame that an address space can take over. -/
structure Fresh (st : State) (root : Nat) (label : Nat → Option Path)
    (frame : Nat) : Prop where
  reserved : Reserved st.pmm frame
  unlabelled : label frame = none
  unmapped : ∀ path rights, ¬ Maps st root path rights ⟨frame, true⟩

theorem Space.set {new : Set Path} (hspace : Space st root label)
    (hextends : Extends (treeScheme root) hideKernel new st label st' label')
    (hexact : Exact (ownView st'.mem) root)
    (hset : PageSet st st' root virtAddr rights page)
    (hfresh : page.owned = true → Fresh st root label page.frame) :
    Space st' root label' where
  tables := hextends.tables
  rooted := hextends.labels hspace.rooted
  exact := hexact
  small := by
    intro indices found hfind
    rw [hset] at hfind
    split at hfind
    · rename_i hinitial
      cases hfind
      have hlength : 4 ≤ indices.length := hinitial.length_le
      rw [List.length_drop]
      omega
    · exact hspace.small hfind
  owned := by
    intro path rights' frame hmaps
    rw [hset.maps_iff hspace] at hmaps
    have hold : Reserved st.pmm frame ∧ label frame = none := by
      split at hmaps
      · obtain ⟨_, rfl⟩ := hmaps
        exact ⟨(hfresh rfl).reserved, (hfresh rfl).unlabelled⟩
      · exact hspace.owned hmaps
    exact ⟨hextends.reserved hold.1,
      hextends.unlabelled hold.1.used hold.2⟩
  distinct := by
    intro path path' rights₁ rights₂ frame hmaps hmaps'
    rw [hset.maps_iff hspace] at hmaps hmaps'
    split at hmaps <;> split at hmaps'
    · rename_i hpath hpath'
      rw [hpath, hpath']
    · obtain ⟨_, rfl⟩ := hmaps
      exact absurd hmaps' ((hfresh rfl).unmapped _ _)
    · obtain ⟨_, rfl⟩ := hmaps'
      exact absurd hmaps ((hfresh rfl).unmapped _ _)
    · exact hspace.distinct hmaps hmaps'

/-- What `mapPageIn` does to an address space: the page is set, or there is no
frame left for a table and all pages are as before. -/
theorem Space.mapPageIn (hspace : Space st root label)
    (hslot : ¬ KernelSlot virtAddr) (hflags : Plain flags)
    (hlt : physAddr < 2 ^ 52) (hva : virtAddr % 4096 = 0)
    (hpa : physAddr % 4096 = 0)
    (hfresh : flags.testBit 9 = true → Fresh st root label physAddr) :
    ∃ label',
      Space (st.mapPageIn root virtAddr physAddr flags).1 root label' ∧
      Extends (treeScheme root) hideKernel
        (namesOn (treeScheme root) [] virtAddr) st label
        (st.mapPageIn root virtAddr physAddr flags).1 label' ∧
      (((st.mapPageIn root virtAddr physAddr flags).2 = false ∧
          PagesSame st (st.mapPageIn root virtAddr physAddr flags).1 root ∧
          Exhausted (st.mapPageIn root virtAddr physAddr flags).1.pmm) ∨
        ((st.mapPageIn root virtAddr physAddr flags).2 = true ∧
          PageSet st (st.mapPageIn root virtAddr physAddr flags).1 root
            virtAddr (flagRights flags) ⟨physAddr, flags.testBit 9⟩)) := by
  obtain ⟨label', hcases⟩ := hspace.tables.mapPageIn_spec treeScheme_shallow
    hspace.rooted rfl (shown_hideKernel hslot)
    (treeScheme_sole hspace.tables.labelled virtAddr) hflags hlt
  refine ⟨label', ?_⟩
  generalize st.mapPageIn root virtAddr physAddr flags = result at *
  rcases hcases with ⟨hgrown, hfalse, hblocked⟩ | ⟨hextends, htrue, _, hreplaced⟩
  · have hsame : PagesSame st result.1 root := hgrown.leaves hspace.rooted
    have hspace' := hspace.same hgrown.toExtends
      (hgrown.exact hspace.rooted rfl hspace.exact) hsame
    exact ⟨hspace', hgrown.toExtends, .inl ⟨hfalse, hsame,
      hspace'.exhausted_of_blocked hslot hva hpa hblocked⟩⟩
  · have hset : PageSet st result.1 root virtAddr (flagRights flags)
        ⟨physAddr, flags.testBit 9⟩ := by
      intro indices
      have hfind := hreplaced.find_eq hspace.rooted rfl indices
      simp only [true_and, Option.map_some] at hfind
      exact hfind
    exact ⟨hspace.set hextends (hreplaced.exact hspace.rooted rfl hspace.exact)
      hset hfresh, hextends, .inr ⟨htrue, hset⟩⟩

end Paging

end VenomOS
