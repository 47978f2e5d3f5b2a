/-
destroy_address_space: which frames it frees, and in what order.  Each is a
table of the address space behind the first PML4 slot or an owned page there.
-/
import VenomOS.PagingSpace

namespace VenomOS

namespace Paging

open ByteMemory RadixTable

/-- The owned page of an entry of a page table. -/
def ownedPage (mem : Memory) (pt i : Nat) : Option Nat :=
  let entry := entryAt mem pt i
  if hasFlag entry pagePresent && hasFlag entry pageOwned then
    some (entry &&& addrMask)
  else none

def ownedPages (mem : Memory) (pt : Nat) : List Nat :=
  (List.range 512).filterMap (ownedPage mem pt)

/-- The table behind an entry, after what is below it. -/
def behind (mem : Memory) (below : Nat → List Nat) (table i : Nat) :
    List Nat :=
  let entry := entryAt mem table i
  if !hasFlag entry pagePresent || isHuge entry then []
  else below (entry &&& addrMask) ++ [entry &&& addrMask]

def tablesBelow (mem : Memory) (below : Nat → List Nat) (table : Nat)
    (indices : List Nat) : List Nat :=
  indices.flatMap (behind mem below table)

def belowDirectory (mem : Memory) (pd : Nat) : List Nat :=
  tablesBelow mem (ownedPages mem) pd (List.range 512)

def belowPdpt (mem : Memory) (pdpt : Nat) : List Nat :=
  tablesBelow mem (belowDirectory mem) pdpt (List.range' 1 511)

/-- The arguments of the calls of free_frame. -/
def State.released (st : State) (pml4 : Nat) : List Nat :=
  let entry := st.entry pml4 0
  if !hasFlag entry pagePresent then [pml4]
  else
    belowPdpt st.mem (entry &&& addrMask) ++ [entry &&& addrMask, pml4]

theorem releasePages_eq (mem : Memory) (pt : Nat) (pmm : Pmm) :
    releasePages mem pt pmm = (ownedPages mem pt).foldl Pmm.freeFrame pmm := by
  unfold releasePages ownedPages
  generalize List.range 512 = indices
  induction indices generalizing pmm with
  | nil => rfl
  | cons i rest ih =>
      rw [List.foldl_cons, ih, List.filterMap_cons, ownedPage]
      dsimp only
      split <;> rfl

theorem releaseTables_eq {mem : Memory} {release : Nat → Pmm → Pmm}
    {below : Nat → List Nat}
    (hrelease : ∀ table pmm,
      release table pmm = (below table).foldl Pmm.freeFrame pmm)
    (table : Nat) (indices : List Nat) (pmm : Pmm) :
    releaseTables mem release table indices pmm =
      (tablesBelow mem below table indices).foldl Pmm.freeFrame pmm := by
  unfold releaseTables tablesBelow
  induction indices generalizing pmm with
  | nil => rfl
  | cons i rest ih =>
      rw [List.foldl_cons, ih, List.flatMap_cons, List.foldl_append, behind]
      dsimp only
      split
      · rfl
      · rw [List.foldl_append, hrelease]
        rfl

theorem State.destroyAddressSpace_eq (st : State) (pml4 : Nat) :
    st.destroyAddressSpace pml4 =
      { st with pmm := (st.released pml4).foldl Pmm.freeFrame st.pmm } := by
  unfold State.destroyAddressSpace State.released
  dsimp only
  split
  · rfl
  · have hdirectory : ∀ pd pmm, releaseDirectory st.mem pd pmm =
        (belowDirectory st.mem pd).foldl Pmm.freeFrame pmm :=
      fun pd pmm => releaseTables_eq (releasePages_eq st.mem) pd _ pmm
    rw [List.foldl_append, releaseDirectories, belowPdpt,
      releaseTables_eq hdirectory]
    rfl

variable {st st' : State} {root frame : Nat} {label : Nat → Option Path}

/-- The table at a path and the tables and owned pages below it. -/
def Under (st : State) (root : Nat) (label : Nat → Option Path) (path : Path)
    (frame : Nat) : Prop :=
  (∃ l, label frame = some l ∧ path <+: l) ∨
    ∃ path' rights, Maps st root path' rights ⟨frame, true⟩ ∧ path <+: path'

/-- The frames that go with an address space. -/
def Owns (st : State) (root : Nat) (label : Nat → Option Path)
    (frame : Nat) : Prop :=
  Under st root label [] frame

theorem Under.mono {path path' : Path} (hinitial : path <+: path')
    (hunder : Under st root label path' frame) :
    Under st root label path frame := by
  rcases hunder with ⟨l, hlabel, hl⟩ | ⟨path'', rights, hmaps, hpath⟩
  · exact .inl ⟨l, hlabel, hinitial.trans hl⟩
  · exact .inr ⟨path'', rights, hmaps, hinitial.trans hpath⟩

theorem Space.reserved_of_under (hspace : Space st root label) {path : Path}
    (hunder : Under st root label path frame) : Reserved st.pmm frame := by
  rcases hunder with ⟨l, hlabel, _⟩ | ⟨path', rights, hmaps, _⟩
  · exact hspace.tables.reserved hlabel
  · exact (hspace.owned hmaps).1

theorem owns_of_label {own : Nat → Option Path} (hlabel : own frame ≠ none) :
    Owns st root own frame := by
  obtain ⟨l, hl⟩ := Option.ne_none_iff_exists'.mp hlabel
  exact .inl ⟨l, hl, List.nil_prefix⟩

/-- Memory is the same at a frame. -/
def SameAt (st st' : State) (frame : Nat) : Prop :=
  ∀ addr, frame ≤ addr → addr < frame + 4096 → st'.mem addr = st.mem addr

theorem Extends.sameAt {new : Set Path} {own own' : Nat → Option Path}
    (hextends : Extends (treeScheme root) hideKernel new st own st' own')
    (hreserved : Reserved st.pmm frame) (hnone : own frame = none) :
    SameAt st st' frame := by
  intro addr hge hlt
  refine hextends.outside addr fun other hother => ?_
  have hne : other ≠ frame := by
    rintro rfl
    exact hother (hextends.unlabelled hreserved.used hnone)
  obtain ⟨l, hl⟩ := Option.ne_none_iff_exists'.mp hother
  have haligned := (hextends.tables.reserved hl).aligned
  have haligned' := hreserved.aligned
  omega

/-- An address space stays as it is while its tables and its frames are left
alone. -/
theorem Space.undisturbed (hspace : Space st root label)
    (hmem : ∀ {frame l}, label frame = some l → SameAt st st' frame)
    (hused : ∀ frame, Owns st root label frame →
      st'.pmm.used (frame / 4096) = true) (hzero : st'.pmm.used 0 = true) :
    Space st' root label ∧ PagesSame st st' root := by
  have hview : ∀ {frame l j}, label frame = some l →
      ownView st'.mem l frame j = ownView st.mem l frame j := by
    intro frame l j hlabel
    unfold ownView viewHiding
    split
    · rfl
    · split
      · rw [entryAt_congr (hmem hlabel) ‹_›]
      · rfl
  have hgather : ∀ (op : Rights → Rights → Rights) (indices : Path),
      gather op (ownView st'.mem) [] root indices =
        gather op (ownView st.mem) [] root indices := fun op indices =>
    hspace.tables.labelled.gather_same hview hspace.rooted indices
  have hsame : PagesSame st st' root := hgather _
  refine ⟨⟨⟨?_, ?_, ?_, hzero⟩, hspace.rooted, ?_, ?_, ?_, ?_⟩, hsame⟩
  · exact hspace.tables.labelled.widens fun _ _ _ hlabel =>
      .inl (hview hlabel)
  · intro frame l i above next hlabel hlink
    refine hspace.tables.passes hlabel ((hview hlabel).symm.trans hlink)
  · intro frame l hlabel
    exact { hspace.tables.reserved hlabel with
      used := hused frame (.inl ⟨l, hlabel, List.nil_prefix⟩) }
  · intro indices
    rw [walk, find, hgather, hgather]
    exact hspace.exact indices
  · intro indices found hfind
    rw [hsame] at hfind
    exact hspace.small hfind
  · intro path rights frame hmaps
    rw [hsame.maps_iff] at hmaps
    obtain ⟨hreserved, hnone⟩ := hspace.owned hmaps
    exact ⟨{ hreserved with
      used := hused frame (.inr ⟨path, rights, hmaps, List.nil_prefix⟩) },
      hnone⟩
  · intro path path' rights rights' frame hmaps hmaps'
    exact hspace.distinct (hsame.maps_iff.mp hmaps) (hsame.maps_iff.mp hmaps')

/-- A frame is under one of two paths that part. -/
theorem Space.under_inj (hspace : Space st root label) {path : Path}
    {i j : Nat} (hi : Under st root label (path ++ [i]) frame)
    (hj : Under st root label (path ++ [j]) frame) : i = j := by
  have hsame : ∀ {l : Path}, path ++ [i] <+: l → path ++ [j] <+: l →
      i = j := by
    rintro l ⟨rest, rfl⟩ ⟨rest', hrest⟩
    simp only [List.append_assoc, List.singleton_append,
      List.append_cancel_left_eq, List.cons.injEq] at hrest
    exact hrest.1.symm
  rcases hi with ⟨l, hlabel, hl⟩ | ⟨path₁, rights₁, hmaps₁, hpath₁⟩ <;>
    rcases hj with ⟨l', hlabel', hl'⟩ | ⟨path₂, rights₂, hmaps₂, hpath₂⟩
  · rw [hlabel] at hlabel'
    cases hlabel'
    exact hsame hl hl'
  · rw [(hspace.owned hmaps₂).2] at hlabel
    cases hlabel
  · rw [(hspace.owned hmaps₁).2] at hlabel'
    cases hlabel'
  · obtain rfl := hspace.distinct hmaps₁ hmaps₂
    exact hsame hpath₁ hpath₂

/-- A table is under no path below its own. -/
theorem Space.not_under_self (hspace : Space st root label) {path : Path}
    (hlabel : label frame = some path) (i : Nat) :
    ¬ Under st root label (path ++ [i]) frame := by
  rintro (⟨l, hlabel', hl⟩ | ⟨path', rights, hmaps, _⟩)
  · rw [hlabel] at hlabel'
    cases hlabel'
    have hlength := hl.length_le
    simp at hlength
  · rw [(hspace.owned hmaps).2] at hlabel
    cases hlabel

theorem prefix_cons_cases {path l : Path} (hinitial : path <+: l) :
    l = path ∨ ∃ i, path ++ [i] <+: l := by
  obtain ⟨rest, rfl⟩ := hinitial
  cases rest with
  | nil => exact .inl (by simp)
  | cons i rest => exact .inr ⟨i, rest, by simp⟩

variable {table : Nat} {path : Path} {i : Nat}

section

variable (hspace : Space st root label) (hlabel : label table = some path)

include hspace hlabel

theorem Space.under_iff :
    Under st root label path frame ↔
      frame = table ∨ ∃ i, Under st root label (path ++ [i]) frame := by
  refine ⟨?_, ?_⟩
  · rintro (⟨l, hl, hinitial⟩ | ⟨path', rights, hmaps, hinitial⟩)
    · rcases prefix_cons_cases hinitial with rfl | ⟨i, hi⟩
      · exact .inl (hspace.tables.labelled.label_inj hl hlabel)
      · exact .inr ⟨i, .inl ⟨l, hl, hi⟩⟩
    · rcases prefix_cons_cases hinitial with rfl | ⟨i, hi⟩
      · rw [← List.append_nil path'] at hmaps
        have hnone := (hspace.maps_iff hlabel).mp hmaps
        cases hnone
      · exact .inr ⟨i, .inr ⟨path', rights, hmaps, hi⟩⟩
  · rintro (rfl | ⟨i, hi⟩)
    · exact .inl ⟨path, hlabel, List.prefix_rfl⟩
    · exact hi.mono (List.prefix_append ..)

/-- The way down to what is under a slot begins with the slot. -/
theorem Space.link_of_label {l : Path} (hframe : label frame = some l)
    (hinitial : path ++ [i] <+: l) :
    ∃ above next, ownView st.mem path table i = .link above next ∧
      label next = some (path ++ [i]) := by
  induction l using List.reverseRecOn generalizing frame with
  | nil =>
      have hlength := hinitial.length_le
      simp at hlength
  | append_singleton l j ih =>
      obtain ⟨above', l', j', rights, hchild, habove, hlink⟩ :=
        hspace.tables.labelled.connected hframe (treeScheme_anchor (by simp))
      obtain ⟨rfl, hj⟩ := List.append_inj' hchild rfl
      cases hj
      rcases List.prefix_concat_iff.mp hinitial with heq | hshort
      · obtain ⟨rfl, hj⟩ := List.append_inj' heq rfl
        cases hj
        obtain rfl := hspace.tables.labelled.label_inj habove hlabel
        exact ⟨rights, frame, hlink, hframe⟩
      · exact ih habove hshort

theorem Space.slot_of_under (hunder : Under st root label (path ++ [i]) frame) :
    (∃ above next, ownView st.mem path table i = .link above next) ∨
      ∃ rights, ownView st.mem path table i = .leaf rights ⟨frame, true⟩ := by
  rcases hunder with ⟨l, hframe, hinitial⟩ | ⟨path', rights, hmaps, rest, rfl⟩
  · obtain ⟨above, next, hlink, _⟩ := hspace.link_of_label hlabel hframe hinitial
    exact .inl ⟨above, next, hlink⟩
  · rw [List.append_assoc, hspace.maps_iff hlabel, List.singleton_append,
      gather_cons] at hmaps
    cases hslot : ownView st.mem path table i with
    | empty => simp [hslot] at hmaps
    | leaf rights' page =>
        simp only [hslot, Option.some.injEq, Prod.mk.injEq] at hmaps
        exact .inr ⟨rights', by rw [hmaps.2.1]⟩
    | link above next => exact .inl ⟨above, next, rfl⟩

theorem Space.under_of_leaf {rights : Rights}
    (hslot : ownView st.mem path table i = .leaf rights ⟨frame, true⟩) :
    Under st root label (path ++ [i]) frame := by
  refine .inr ⟨path ++ [i], rights, ?_, List.prefix_rfl⟩
  rw [hspace.maps_iff hlabel, gather_cons, hslot]

end

theorem hideKernel_of_length (hlength : path.length ≠ 1) :
    hideKernel path i = false := by
  refine decide_eq_false ?_
  rintro ⟨rfl, _⟩
  exact hlength rfl

theorem ownView_page (hlength : path.length = 3) (hi : i < 512) :
    ownView st.mem path table i = decode 3 (entryAt st.mem table i) := by
  rw [ownView, viewHiding_shown (hideKernel_of_length (by omega)) hi, hlength]

theorem ownedPage_eq_some (hlength : path.length = 3) (hi : i < 512) :
    ownedPage st.mem table i = some frame ↔
      ∃ rights, ownView st.mem path table i = .leaf rights ⟨frame, true⟩ := by
  rw [ownView_page hlength hi, ownedPage]
  simp only [hasFlag_present, hasFlag_owned, Option.ite_none_right_eq_some,
    Bool.and_eq_true]
  cases hpresent : (entryAt st.mem table i).testBit 0 with
  | false => simp [decode_absent hpresent]
  | true => simp [decode_page hpresent, and_comm]

theorem Space.under_page_iff (hspace : Space st root label)
    (hlabel : label table = some path) (hlength : path.length = 3)
    (hi : i < 512) :
    ownedPage st.mem table i = some frame ↔
      Under st root label (path ++ [i]) frame := by
  rw [ownedPage_eq_some hlength hi]
  refine ⟨fun ⟨rights, hslot⟩ => hspace.under_of_leaf hlabel hslot,
    fun hunder => ?_⟩
  rcases hspace.slot_of_under hlabel hunder with ⟨above, next, hlink⟩ | hleaf
  · exact absurd hlink (viewHiding_ne_link hlength _ _ _ _ _)
  · exact hleaf

theorem Space.index_lt_of_under (hspace : Space st root label)
    (hlabel : label table = some path)
    (hunder : Under st root label (path ++ [i]) frame) : i < 512 := by
  have hslot : ownView st.mem path table i ≠ .empty := by
    rcases hspace.slot_of_under hlabel hunder with
      ⟨above, next, hlink⟩ | ⟨rights, hleaf⟩
    · simp [hlink]
    · simp [hleaf]
  by_contra hi
  exact hslot (by simp [ownView, viewHiding, hi])

/-- An entry is followed exactly when it links to a table. -/
theorem followed_iff (st : State) (table : Nat)
    (hlength : path.length = 1 ∨ path.length = 2)
    (hi : i < 512) (hshown : hideKernel path i = false) :
    (!hasFlag (entryAt st.mem table i) pagePresent ||
        isHuge (entryAt st.mem table i)) = false ↔
      ∃ above next, ownView st.mem path table i = .link above next := by
  have hview : ownView st.mem path table i =
      decode path.length (entryAt st.mem table i) :=
    viewHiding_shown hshown hi
  rw [hview, hasFlag_present, isHuge_eq]
  refine ⟨fun hfollowed => ?_, ?_⟩
  · simp only [Bool.or_eq_false_iff, Bool.not_eq_false', Bool.and_eq_false_iff]
      at hfollowed
    refine ⟨_, _, decode_link (by omega) hfollowed.1 (.inr ?_)⟩
    simpa [hfollowed.1] using hfollowed.2
  · rintro ⟨above, next, hlink⟩
    obtain ⟨_, hpresent, hsmall, _⟩ := decode_eq_link hlink
    have hbit : (entryAt st.mem table i).testBit 7 = false := by
      rcases hsmall with hzero | hbit
      · omega
      · exact hbit
    simp [hpresent, hbit]

section Below

variable {below : Nat → List Nat} {indices : List Nat}
  (hspace : Space st root label) (hlabel : label table = some path)
  (hlength : path.length = 1 ∨ path.length = 2)

/-- What is collected below a table is what lies under its slots. -/
def Collects (st : State) (root : Nat) (label : Nat → Option Path)
    (below : Nat → List Nat) (path : Path) : Prop :=
  ∀ table, label table = some path → (below table).Nodup ∧
    ∀ frame, frame ∈ below table ↔
      ∃ i, Under st root label (path ++ [i]) frame

include hspace hlabel hlength

theorem Space.behind_cases (hi : i < 512)
    (hshown : hideKernel path i = false) :
    (behind st.mem below table i = [] ∧
      ∀ frame, ¬ Under st root label (path ++ [i]) frame) ∨
    ∃ next, label next = some (path ++ [i]) ∧
      behind st.mem below table i = below next ++ [next] := by
  have hfollowed := followed_iff st table hlength hi hshown
  unfold behind
  dsimp only
  split
  · rename_i hskip
    refine .inl ⟨rfl, fun frame hunder => ?_⟩
    rcases hspace.slot_of_under hlabel hunder with hlink | ⟨rights, hleaf⟩
    · rw [hfollowed.mpr hlink] at hskip
      cases hskip
    · have hmaps : Maps st root (path ++ [i]) rights ⟨frame, true⟩ := by
        rw [hspace.maps_iff hlabel, gather_cons, hleaf]
      have hsmall := hspace.small hmaps
      simp only [List.length_append, List.length_singleton, List.length_nil]
        at hsmall
      omega
  · rename_i hfollow
    obtain ⟨above, next, hlink⟩ := hfollowed.mp (by simpa using hfollow)
    obtain ⟨_, _, hdecode⟩ := viewHiding_eq_link hlink
    obtain ⟨_, _, _, _, rfl⟩ := decode_eq_link hdecode
    exact .inr ⟨_, hspace.tables.labelled.linked hlabel hlink, rfl⟩

theorem Space.mem_behind (hi : i < 512) (hshown : hideKernel path i = false)
    (hbelow : Collects st root label below (path ++ [i])) :
    frame ∈ behind st.mem below table i ↔
      Under st root label (path ++ [i]) frame := by
  rcases hspace.behind_cases hlabel hlength hi hshown with
    ⟨hnil, hnot⟩ | ⟨next, hnext, heq⟩
  · rw [hnil]
    exact ⟨fun hmem => absurd hmem List.not_mem_nil, fun h => absurd h (hnot _)⟩
  · rw [heq, List.mem_append, List.mem_singleton, (hbelow next hnext).2,
      hspace.under_iff hnext, or_comm]

theorem Space.nodup_behind (hi : i < 512) (hshown : hideKernel path i = false)
    (hbelow : Collects st root label below (path ++ [i])) :
    (behind st.mem below table i).Nodup := by
  rcases hspace.behind_cases hlabel hlength hi hshown with
    ⟨hnil, _⟩ | ⟨next, hnext, heq⟩
  · rw [hnil]
    exact List.nodup_nil
  · rw [heq]
    refine (hbelow next hnext).1.append (List.nodup_singleton next) ?_
    rw [List.disjoint_singleton, (hbelow next hnext).2]
    rintro ⟨j, hj⟩
    exact hspace.not_under_self hnext j hj

variable (hindices : ∀ i ∈ indices, i < 512 ∧ hideKernel path i = false)
  (hbelow : ∀ i, Collects st root label below (path ++ [i]))

include hindices hbelow

theorem Space.mem_tablesBelow :
    frame ∈ tablesBelow st.mem below table indices ↔
      ∃ i ∈ indices, Under st root label (path ++ [i]) frame := by
  rw [tablesBelow, List.mem_flatMap]
  refine exists_congr fun i => and_congr_right fun hi => ?_
  exact hspace.mem_behind hlabel hlength (hindices i hi).1 (hindices i hi).2
    (hbelow i)

theorem Space.nodup_tablesBelow (hnodup : indices.Nodup) :
    (tablesBelow st.mem below table indices).Nodup := by
  refine List.nodup_flatMap.mpr ⟨fun i hi => ?_, ?_⟩
  · exact hspace.nodup_behind hlabel hlength (hindices i hi).1
      (hindices i hi).2 (hbelow i)
  · refine hnodup.imp_of_mem fun {i j} hi hj hne frame hframe hframe' => ?_
    have hunder : ∀ k ∈ indices, frame ∈ behind st.mem below table k →
        Under st root label (path ++ [k]) frame := fun k hk =>
      (hspace.mem_behind hlabel hlength (hindices k hk).1 (hindices k hk).2
        (hbelow k)).mp
    exact hne (hspace.under_inj (hunder i hi hframe) (hunder j hj hframe'))

end Below

section

variable (hspace : Space st root label)

include hspace

theorem Space.collects_pages (hlength : path.length = 3) :
    Collects st root label (ownedPages st.mem) path := by
  intro pt hlabel
  refine ⟨?_, fun frame => ?_⟩
  · refine List.pairwise_filterMap.mpr ?_
    refine List.nodup_range.imp_of_mem fun {i j} hi hj hne frame hi' frame' hj'
      heq => hne ?_
    rw [List.mem_range] at hi hj
    rw [hspace.under_page_iff hlabel hlength hi] at hi'
    rw [hspace.under_page_iff hlabel hlength hj, ← heq] at hj'
    exact hspace.under_inj hi' hj'
  · simp only [ownedPages, List.mem_filterMap, List.mem_range]
    refine exists_congr fun i => ⟨fun ⟨hi, hpage⟩ => ?_, fun hunder => ?_⟩
    · exact (hspace.under_page_iff hlabel hlength hi).mp hpage
    · have hi := hspace.index_lt_of_under hlabel hunder
      exact ⟨hi, (hspace.under_page_iff hlabel hlength hi).mpr hunder⟩

theorem Space.collects_directory (hlength : path.length = 2) :
    Collects st root label (belowDirectory st.mem) path := by
  intro pd hlabel
  have hindices : ∀ i ∈ List.range 512, i < 512 ∧ hideKernel path i = false :=
    fun i hi => ⟨List.mem_range.mp hi, hideKernel_of_length (by omega)⟩
  have hbelow : ∀ i, Collects st root label (ownedPages st.mem)
      (path ++ [i]) := fun i => hspace.collects_pages (by simp [hlength])
  refine ⟨hspace.nodup_tablesBelow hlabel (.inr hlength) hindices hbelow
    List.nodup_range, fun frame => ?_⟩
  rw [belowDirectory, hspace.mem_tablesBelow hlabel (.inr hlength) hindices
    hbelow]
  refine exists_congr fun i => and_iff_right_of_imp fun hunder => ?_
  exact List.mem_range.mpr (hspace.index_lt_of_under hlabel hunder)

theorem Space.not_under_kernel :
    ¬ Under st root label [0, 0] frame := by
  rintro (⟨l, hlabel, rest, rfl⟩ | ⟨path, rights, hmaps, rest, rfl⟩)
  · exact hspace.label_off_kernel hlabel
  · rw [Maps, List.cons_append, List.cons_append, find_kernel] at hmaps
    cases hmaps

theorem Space.collects_pdpt :
    Collects st root label (belowPdpt st.mem) [0] := by
  intro pdpt hlabel
  have hindices : ∀ i ∈ List.range' 1 511,
      i < 512 ∧ hideKernel [0] i = false := by
    intro i hi
    rw [List.mem_range'_1] at hi
    exact ⟨by omega, decide_eq_false (by omega)⟩
  have hbelow : ∀ i, Collects st root label (belowDirectory st.mem)
      ([0] ++ [i]) := fun i => hspace.collects_directory rfl
  refine ⟨hspace.nodup_tablesBelow hlabel (.inl rfl) hindices hbelow
    List.nodup_range', fun frame => ?_⟩
  rw [belowPdpt, hspace.mem_tablesBelow hlabel (.inl rfl) hindices hbelow]
  refine exists_congr fun i => and_iff_right_of_imp fun hunder => ?_
  have hi := hspace.index_lt_of_under hlabel hunder
  have hpos : i ≠ 0 := by
    rintro rfl
    exact hspace.not_under_kernel hunder
  rw [List.mem_range'_1]
  omega

theorem Space.pdpt_cases :
    ((st.entry root 0).testBit 0 = false ∧
      ∀ frame, ¬ Under st root label [0] frame) ∨
    (st.entry root 0).testBit 0 = true ∧
      label (st.entry root 0 &&& addrMask) = some [0] := by
  have hview : ownView st.mem [] root 0 = decode 0 (st.entry root 0) :=
    viewHiding_shown (by decide) (by decide)
  cases hpresent : (st.entry root 0).testBit 0 with
  | false =>
      refine .inl ⟨rfl, fun frame hunder => ?_⟩
      rcases hspace.slot_of_under hspace.rooted hunder with
        ⟨above, next, hlink⟩ | ⟨rights, hleaf⟩
      · rw [hview, decode_absent hpresent] at hlink
        cases hlink
      · rw [hview, decode_absent hpresent] at hleaf
        cases hleaf
  | true =>
      have hlink := hview.trans (decode_link (by decide) hpresent (.inl rfl))
      exact .inr ⟨rfl, hspace.tables.labelled.linked hspace.rooted hlink⟩

/-- The frames that are freed are the PML4 and what its first slot leads to. -/
theorem Space.mem_released :
    frame ∈ st.released root ↔
      frame = root ∨ Under st root label [0] frame := by
  unfold State.released
  dsimp only
  rw [hasFlag_present]
  rcases hspace.pdpt_cases with ⟨habsent, hnot⟩ | ⟨hpresent, hpdpt⟩
  · simp [habsent, hnot]
  · simp only [hpresent, Bool.not_true, Bool.false_eq_true, if_false,
      List.mem_append, List.mem_cons, List.not_mem_nil, or_false]
    rw [(hspace.collects_pdpt _ hpdpt).2, hspace.under_iff hpdpt]
    tauto

/-- No frame is freed twice. -/
theorem Space.nodup_released :
    (st.released root).Nodup := by
  unfold State.released
  dsimp only
  rw [hasFlag_present]
  rcases hspace.pdpt_cases with ⟨habsent, _⟩ | ⟨hpresent, hpdpt⟩
  · simp [habsent]
  · have hroot := hspace.not_under_self hspace.rooted 0
    have hne : st.entry root 0 &&& addrMask ≠ root := by
      intro heq
      rw [heq, hspace.rooted] at hpdpt
      cases hpdpt
    obtain ⟨hnodup, hmem⟩ := hspace.collects_pdpt _ hpdpt
    simp only [hpresent, Bool.not_true, Bool.false_eq_true, if_false]
    refine hnodup.append (by simp [hne]) ?_
    intro frame hframe hframe'
    obtain ⟨i, hunder⟩ := (hmem frame).mp hframe
    rcases List.mem_pair.mp hframe' with rfl | rfl
    · exact hspace.not_under_self hpdpt i hunder
    · exact hroot (hunder.mono (List.prefix_append ..))

theorem Space.used_destroy (frame : Nat) :
    (st.destroyAddressSpace root).pmm.used frame = true ↔
      st.pmm.used frame = true ∧ frame * 4096 ≠ root ∧
        ¬ Under st root label [0] (frame * 4096) := by
  have hmanaged : frame * 4096 ∈ st.released root →
      frame < Pmm.managedFrames := by
    intro hmem
    have hreserved : Reserved st.pmm (frame * 4096) := by
      rcases hspace.mem_released.mp hmem with heq | hunder
      · rw [heq]
        exact hspace.tables.reserved hspace.rooted
      · exact hspace.reserved_of_under hunder
    have hlt := hreserved.managed
    simp only [Pmm.managedFrames, Pmm.managedLimit, Pmm.frameSize] at hlt ⊢
    omega
  rw [State.destroyAddressSpace_eq, Pmm.used_foldl_freeFrame,
    Pmm.frameSize, and_iff_right_of_imp hmanaged, hspace.mem_released, not_or]

end

end Paging

end VenomOS
