/-
Many address spaces at once.  Each has tables and pages of its own, all share
the tables behind the kernel's slot, and what one does is not seen by others.
-/
import VenomOS.PagingLifetime
import VenomOS.PagingGrove

namespace VenomOS

namespace Paging

open ByteMemory RadixTable

/-- The calls that work on one address space.  A page is owned only if its
frame was obtained from the allocator and has not been given away since. -/
inductive Act : State → Set Nat → Set Nat → Nat → State → Set Nat →
    Set Nat → Prop
  | create {st : State} {live held : Set Nat} :
      Act st live held st.createAddressSpace.2 st.createAddressSpace.1
        (if st.createAddressSpace.2 = 0 then live
          else insert st.createAddressSpace.2 live) held
  | map {st : State} {live held : Set Nat} {root virtAddr physAddr flags : Nat}
      (hroot : root ∈ live) (hmin : Elf.userSpaceMin ≤ virtAddr)
      (hmax : virtAddr < Elf.userSpaceMax) (hlt : physAddr < 2 ^ 52)
      (hflags : Plain flags)
      (hheld : hasFlag flags pageOwned = true → physAddr ∈ held) :
      Act st live held root (st.mapPageIn root virtAddr physAddr flags).1 live
        (if hasFlag flags pageOwned ∧
            (st.mapPageIn root virtAddr physAddr flags).2 then
          held \ {physAddr}
        else held)
  | destroy {st : State} {live held : Set Nat} {root : Nat}
      (hroot : root ∈ live) (hcr3 : root ≠ st.cr3 &&& addrMask) :
      Act st live held root (st.destroyAddressSpace root) (live \ {root}) held

/-- What happens besides: frames are allocated and freed again, memory is
written outside of the tables, and an address space is loaded. -/
inductive Besides : State → Set Nat → Set Nat → State → Set Nat → Prop
  | alloc {st : State} {live held : Set Nat} {pmm : Pmm} {frame : Nat}
      (halloc : st.pmm.allocFrame = (pmm, frame)) (hframe : frame ≠ 0) :
      Besides st live held { st with pmm := pmm } (insert frame held)
  | release {st : State} {live held : Set Nat} {frame : Nat}
      (hheld : frame ∈ held) :
      Besides st live held (st.free frame) (held \ {frame})
  | write {st : State} {live held : Set Nat} {mem : Memory}
      (hmem : ∀ frame, TableOf st (insert bootPml4 live) frame →
        ∀ addr, frame ≤ addr → addr < frame + 4096 →
          mem addr = st.mem addr) :
      Besides st live held { st with mem := mem } held
  | load {st : State} {live held : Set Nat} {root : Nat}
      (hroot : root ∈ insert bootPml4 live) :
      Besides st live held { st with cr3 := root } held

/-- The states that are reached from one in which only the kernel's map is in
use, with the address spaces and the frames that are held for them. -/
inductive Reached : State → Set Nat → Set Nat → Prop
  | start {st : State} (hbuilt : Built st {bootPml4}) : Reached st ∅ ∅
  | act {st : State} {live held : Set Nat} {root : Nat} {st' : State}
      {live' held' : Set Nat} (hreached : Reached st live held)
      (hact : Act st live held root st' live' held') :
      Reached st' live' held'
  | besides {st : State} {live held : Set Nat} {st' : State}
      {held' : Set Nat} (hreached : Reached st live held)
      (hbesides : Besides st live held st' held') : Reached st' live held'

/-- The address spaces are trees of their own, the kernel's tables are another
one, and the frames that are held belong to none. -/
structure Isolated (st : State) (live held : Set Nat)
    (label : Nat → Nat → Option Path) (kernel : Nat → Option (Nat × Path)) :
    Prop where
  grove : Grove { st with cr3 := bootPml4 } {bootPml4} kernel
  space : ∀ root ∈ live, Space st root (label root)
  apart : ∀ root ∈ live, ∀ root' ∈ live, ∀ frame,
    Owns st root (label root) frame → Owns st root' (label root') frame →
      root = root'
  beside : ∀ root ∈ live, ∀ frame, Owns st root (label root) frame →
    kernel frame = none
  held : ∀ frame ∈ held, Reserved st.pmm frame ∧ kernel frame = none ∧
    ∀ root ∈ live, ¬ Owns st root (label root) frame

variable {st st' : State} {live live' held held' : Set Nat}
  {label : Nat → Nat → Option Path} {kernel : Nat → Option (Nat × Path)}
  {root frame : Nat}

variable {own : Nat → Option Path}

theorem PagesSame.owns_iff (hsame : PagesSame st st' root) :
    Owns st' root own frame ↔ Owns st root own frame := by
  simp only [Owns, Under, hsame.maps_iff]

/-- Some of the address spaces are left alone. -/
theorem Isolated.undisturbed (hiso : Isolated st live held label kernel)
    (hlive : live' ⊆ live)
    (hkernel : ∀ frame, kernel frame ≠ none →
      SameAt st st' frame ∧ st'.pmm.used (frame / 4096) = true)
    (hmem : ∀ root ∈ live', ∀ frame, label root frame ≠ none →
      SameAt st st' frame)
    (hused : ∀ root ∈ live', ∀ frame, Owns st root (label root) frame →
      st'.pmm.used (frame / 4096) = true)
    (hzero : st'.pmm.used 0 = true)
    (hheld : ∀ frame ∈ held', Reserved st'.pmm frame ∧ kernel frame = none ∧
      ∀ root ∈ live', ¬ Owns st root (label root) frame) :
    Isolated st' live' held' label kernel ∧
      ∀ root ∈ live', PagesSame st st' root := by
  have hboth : ∀ root ∈ live', Space st' root (label root) ∧
      PagesSame st st' root := by
    intro root hroot
    refine (hiso.space root (hlive hroot)).undisturbed ?_ (hused root hroot)
      hzero
    intro frame l hlabel
    exact hmem root hroot frame (by simp [hlabel])
  have howns : ∀ root ∈ live', ∀ frame, Owns st' root (label root) frame ↔
      Owns st root (label root) frame :=
    fun root hroot frame => (hboth root hroot).2.owns_iff
  refine ⟨⟨?_, fun root hroot => (hboth root hroot).1, ?_, ?_, ?_⟩,
    fun root hroot => (hboth root hroot).2⟩
  · have hboot : bootPml4 &&& addrMask = bootPml4 := by decide
    refine hiso.grove.elsewhere ⟨?_, hzero, hboot⟩
    rintro frame ⟨root, rfl, path, hleads⟩
    have hlabel := hiso.grove.tables.label_at
      (hiso.grove.roots bootPml4 rfl) rfl hleads
    exact hkernel frame (by simp [hlabel])
  · intro root hroot root' hroot' frame hframe hframe'
    rw [howns root hroot] at hframe
    rw [howns root' hroot'] at hframe'
    exact hiso.apart root (hlive hroot) root' (hlive hroot') frame hframe
      hframe'
  · intro root hroot frame hframe
    rw [howns root hroot] at hframe
    exact hiso.beside root (hlive hroot) frame hframe
  · intro frame hframe
    obtain ⟨hreserved, hnone, hfree⟩ := hheld frame hframe
    refine ⟨hreserved, hnone, fun root hroot => ?_⟩
    rw [howns root hroot]
    exact hfree root hroot

/-- One more address space, with frames that nobody else has. -/
theorem Isolated.add (hiso : Isolated st live held label kernel)
    (hroot : root ∉ live) (hspace : Space st root own)
    (hnew : ∀ frame, Owns st root own frame → kernel frame = none ∧
      frame ∉ held ∧ ∀ other ∈ live, ¬ Owns st other (label other) frame) :
    Isolated st (insert root live) held (Function.update label root own)
      kernel := by
  have hself : Function.update label root own root = own :=
    Function.update_self ..
  have hother : ∀ other ∈ live, Function.update label root own other =
      label other := by
    intro other hmem
    refine Function.update_of_ne ?_ ..
    rintro rfl
    exact hroot hmem
  refine ⟨hiso.grove, ?_, ?_, ?_, ?_⟩
  · rintro other (rfl | hmem)
    · rwa [hself]
    · rw [hother other hmem]
      exact hiso.space other hmem
  · rintro other (rfl | hmem) other' (rfl | hmem') frame hframe hframe'
    · rfl
    · rw [hself] at hframe
      rw [hother other' hmem'] at hframe'
      exact absurd hframe' ((hnew frame hframe).2.2 other' hmem')
    · rw [hself] at hframe'
      rw [hother other hmem] at hframe
      exact absurd hframe ((hnew frame hframe').2.2 other hmem)
    · rw [hother other hmem] at hframe
      rw [hother other' hmem'] at hframe'
      exact hiso.apart other hmem other' hmem' frame hframe hframe'
  · rintro other (rfl | hmem) frame hframe
    · rw [hself] at hframe
      exact (hnew frame hframe).1
    · rw [hother other hmem] at hframe
      exact hiso.beside other hmem frame hframe
  · intro frame hframe
    obtain ⟨hreserved, hnone, hfree⟩ := hiso.held frame hframe
    refine ⟨hreserved, hnone, ?_⟩
    rintro other (rfl | hmem)
    · rw [hself]
      exact fun howns => (hnew frame howns).2.1 hframe
    · rw [hother other hmem]
      exact hfree other hmem

/-- The tables of its own and those behind the kernel's slot, or all of the
kernel's. -/
def Footprint (live : Set Nat) (label : Nat → Nat → Option Path)
    (kernel : Nat → Option (Nat × Path)) (root : Nat) (path : Path)
    (frame : Nat) : Prop :=
  (root ∈ live ∧ label root frame = some path) ∨
    kernel frame = some (bootPml4, path) ∧
      (root = bootPml4 ∨ [0, 0] <+: path)

variable {shared : Nat → Option (Nat × Path)}

section

variable (hiso : Isolated st live held label kernel)

include hiso

/-- The first table of an address space and its kernel slot. -/
theorem Isolated.slot (hgrove : Grove st (insert bootPml4 live) shared)
    (hroot : root ∈ live) {pdpt : Nat} (hpdpt : label root pdpt = some [0]) :
    ∃ above, view st.mem [0] pdpt 0 = .link above bootPd := by
  obtain ⟨pdpt', above, below, hfirst, hsecond, _⟩ :=
    hgrove.kernelWay (.inr hroot)
  have hspace := hiso.space root hroot
  have hlink : ownView st.mem [] root 0 = .link above pdpt' :=
    (ownView_of_shown (by decide)).trans hfirst
  have hpdpt' := hspace.tables.labelled.linked hspace.rooted hlink
  obtain rfl := hspace.tables.labelled.label_inj hpdpt hpdpt'
  exact ⟨below, hsecond⟩

theorem Isolated.kernel_linked {path : Path} {i next : Nat} {rights : Rights}
    (hlabel : kernel frame = some (bootPml4, path))
    (hlink : view st.mem path frame i = .link rights next) :
    kernel next = some (bootPml4, path ++ [i]) := by
  have hnext := hiso.grove.tables.labelled.linked hlabel hlink
  have howner := hiso.grove.owned hnext
  simp only [sharedScheme, sharedChild] at hnext howner
  rw [hnext]
  exact congrArg some (Prod.ext howner rfl)

theorem Isolated.kernel_pd :
    kernel bootPd = some (bootPml4, [0, 0]) := by
  obtain ⟨_, _, _, _, _, _, hpd⟩ := hiso.grove.kernelWay
    (Set.mem_singleton bootPml4)
  exact hpd

theorem Isolated.footprint_closed
    (hgrove : Grove st (insert bootPml4 live) shared) (root : Nat) :
    Closed (view st.mem) (Footprint live label kernel root) := by
  rintro path frame i rights next (⟨hroot, hlabel⟩ | ⟨hlabel, hwhich⟩) hlink
  · have hspace := hiso.space root hroot
    by_cases hhidden : path = [0] ∧ i = 0
    · obtain ⟨rfl, rfl⟩ := hhidden
      obtain ⟨above, hslot⟩ := hiso.slot hgrove hroot hlabel
      rw [hslot] at hlink
      cases hlink
      exact .inr ⟨hiso.kernel_pd, .inr List.prefix_rfl⟩
    · have hown : ownView st.mem path frame i = .link rights next :=
        (ownView_of_shown (decide_eq_false hhidden)).trans hlink
      exact .inl ⟨hroot, hspace.tables.labelled.linked hlabel hown⟩
  · refine .inr ⟨hiso.kernel_linked hlabel hlink, ?_⟩
    exact hwhich.imp_right fun hinitial =>
      hinitial.trans (List.prefix_append _ _)

theorem Isolated.footprint_root (hroot : root ∈ insert bootPml4 live) :
    Footprint live label kernel root [] root := by
  rcases hroot with rfl | hroot
  · exact .inr ⟨hiso.grove.roots bootPml4 rfl, .inl rfl⟩
  · exact .inl ⟨hroot, (hiso.space root hroot).rooted⟩

theorem Isolated.footprint_of_table
    (hgrove : Grove st (insert bootPml4 live) shared)
    (hroot : root ∈ insert bootPml4 live) {need : Rights} {path : Path}
    (hleads : Leads (view st.mem) need [] root path frame) :
    Footprint live label kernel root path frame :=
  (hiso.footprint_closed hgrove root).leads (hiso.footprint_root hroot) hleads

theorem Isolated.translate_same
    (hgrove : Grove st (insert bootPml4 live) shared)
    (hroot : root ∈ insert bootPml4 live)
    (hsame : ∀ path frame, Footprint live label kernel root path frame →
      SameAt st st' frame)
    (virtAddr : Nat) :
    translate st'.mem root virtAddr = translate st.mem root virtAddr := by
  have hview : ∀ {path frame i}, Footprint live label kernel root path frame →
      view st'.mem path frame i = view st.mem path frame i := by
    intro path frame i hfoot
    unfold view viewHiding
    split
    · rfl
    · split
      · rw [entryAt_congr (hsame path frame hfoot) ‹_›]
      · rfl
  rw [translate, translate, walk, walk,
    (hiso.footprint_closed hgrove root).gather_same hview
      (hiso.footprint_root hroot)]

end

/-- A frame that is in use, but not by the address space `root`. -/
def Foreign (st : State) (live held : Set Nat)
    (label : Nat → Nat → Option Path) (kernel : Nat → Option (Nat × Path))
    (root frame : Nat) : Prop :=
  kernel frame ≠ none ∨ frame ∈ held ∨
    ∃ other ∈ live, other ≠ root ∧ Owns st other (label other) frame

/-- Memory is the same at all tables that are not those of `root`. -/
structure Untouched (st st' : State) (live : Set Nat)
    (label : Nat → Nat → Option Path) (kernel : Nat → Option (Nat × Path))
    (root : Nat) : Prop where
  kernel : ∀ frame, kernel frame ≠ none → SameAt st st' frame
  others : ∀ other ∈ live, other ≠ root → ∀ frame, label other frame ≠ none →
    SameAt st st' frame

section

variable (hiso : Isolated st live held label kernel)

include hiso

theorem Isolated.reserved_kernel (hkernel : kernel frame ≠ none) :
    Reserved st.pmm frame := by
  obtain ⟨l, hl⟩ := Option.ne_none_iff_exists'.mp hkernel
  exact hiso.grove.tables.reserved hl

theorem Isolated.reserved_of_foreign
    (hforeign : Foreign st live held label kernel root frame) :
    Reserved st.pmm frame := by
  rcases hforeign with hkernel | hheld | ⟨other, hother, _, howns⟩
  · exact hiso.reserved_kernel hkernel
  · exact (hiso.held frame hheld).1
  · exact (hiso.space other hother).reserved_of_under howns

theorem Isolated.not_owns_of_foreign (hroot : root ∈ live)
    (hforeign : Foreign st live held label kernel root frame) :
    ¬ Owns st root (label root) frame := by
  intro howns
  rcases hforeign with hkernel | hheld | ⟨other, hother, hne, howns'⟩
  · exact hkernel (hiso.beside root hroot frame howns)
  · exact (hiso.held frame hheld).2.2 root hroot howns
  · exact hne (hiso.apart other hother root hroot frame howns' howns)

/-- The tables of one address space grow, and its pages may change. -/
theorem Isolated.renew {new : Set Path} {own own' : Nat → Option Path}
    (hextends : Extends (treeScheme root) hideKernel new st own st' own')
    (hspace : Space st' root own') (hheld : held' ⊆ held)
    (hforeign : ∀ frame, Foreign st live held label kernel root frame →
      own frame = none)
    (hnew : ∀ frame, Owns st' root own' frame →
      ¬ Foreign st live held' label kernel root frame) :
    Isolated st' (insert root live) held' (Function.update label root own')
        kernel ∧
      Untouched st st' live label kernel root := by
  have hkept : ∀ frame, Foreign st live held label kernel root frame →
      SameAt st st' frame ∧ Reserved st'.pmm frame := by
    intro frame hframe
    have hreserved := hiso.reserved_of_foreign hframe
    exact ⟨hextends.sameAt hreserved (hforeign frame hframe),
      hextends.reserved hreserved⟩
  have hother : ∀ other ∈ live \ {root}, ∀ frame,
      Owns st other (label other) frame →
        Foreign st live held label kernel root frame :=
    fun other hmem frame howns => .inr (.inr ⟨other, hmem.1, hmem.2, howns⟩)
  have hleft : Isolated st' (live \ {root}) held' label kernel ∧
      ∀ other ∈ live \ {root}, PagesSame st st' other :=
    hiso.undisturbed Set.sdiff_subset
    (fun frame hkernel => ⟨(hkept frame (.inl hkernel)).1,
      (hkept frame (.inl hkernel)).2.used⟩)
    (fun other hmem frame hlabel =>
      (hkept frame (hother other hmem frame (owns_of_label hlabel))).1)
    (fun other hmem frame howns =>
      (hkept frame (hother other hmem frame howns)).2.used)
    hextends.tables.zero
    (fun frame hframe => ⟨(hkept frame (.inr (.inl (hheld hframe)))).2,
      (hiso.held frame (hheld hframe)).2.1,
      fun other hmem => (hiso.held frame (hheld hframe)).2.2 other hmem.1⟩)
  obtain ⟨hiso', hsame⟩ := hleft
  refine ⟨?_, fun frame hkernel => (hkept frame (.inl hkernel)).1,
    fun other hmem hne frame hlabel => ?_⟩
  · rw [← Set.insert_sdiff_singleton]
    refine hiso'.add (by simp) hspace fun frame howns => ?_
    have hnot := hnew frame howns
    refine ⟨?_, fun hmem => hnot (.inr (.inl hmem)), fun other hmem => ?_⟩
    · by_contra hkernel
      exact hnot (.inl hkernel)
    · rw [(hsame other hmem).owns_iff]
      exact fun howns' =>
        hnot (.inr (.inr ⟨other, hmem.1, hmem.2, howns'⟩))
  · exact (hkept frame (hother other ⟨hmem, hne⟩ frame
      (owns_of_label hlabel))).1

end

section Map

variable {virtAddr physAddr flags : Nat}

/-- What an address space has after a page was mapped: what it had, new tables
and the page. -/
theorem Space.owns_mapPageIn {own own' : Nat → Option Path}
    {result : State × Bool} (hspace : Space st root own)
    (hextends : Extends (treeScheme root) hideKernel
      (namesOn (treeScheme root) [] virtAddr) st own result.1 own')
    (hcases : (result.2 = false ∧ PagesSame st result.1 root ∧
        Exhausted result.1.pmm) ∨
      (result.2 = true ∧ PageSet st result.1 root virtAddr (flagRights flags)
        ⟨physAddr, flags.testBit 9⟩))
    (howns : Owns result.1 root own' frame) :
    Owns st root own frame ∨ st.pmm.used (frame / 4096) = false ∨
      frame = physAddr ∧ flags.testBit 9 = true ∧ result.2 = true := by
  rcases howns with ⟨l, hlabel, hl⟩ | ⟨path, rights, hmaps, hpath⟩
  · rcases hextends.named hlabel with hold | ⟨_, hclear, _⟩
    · exact .inl (.inl ⟨l, hold, hl⟩)
    · exact .inr (.inl hclear)
  · rcases hcases with ⟨_, hsame, _⟩ | ⟨htrue, hset⟩
    · exact .inl (.inr ⟨path, rights, hsame.maps_iff.mp hmaps, hpath⟩)
    · rw [hset.maps_iff hspace] at hmaps
      split at hmaps
      · obtain ⟨hframe, howned⟩ := Page.mk.injEq .. ▸ hmaps.2
        exact .inr (.inr ⟨hframe, howned.symm, htrue⟩)
      · exact .inl (.inr ⟨path, rights, hmaps, hpath⟩)

theorem Isolated.map (hiso : Isolated st live held label kernel)
    (hroot : root ∈ live) (hmin : Elf.userSpaceMin ≤ virtAddr)
    (hmax : virtAddr < Elf.userSpaceMax) (hlt : physAddr < 2 ^ 52)
    (hflags : Plain flags)
    (hheld : hasFlag flags pageOwned = true → physAddr ∈ held) :
    (∃ label', Isolated (st.mapPageIn root virtAddr physAddr flags).1 live
      (if hasFlag flags pageOwned ∧
          (st.mapPageIn root virtAddr physAddr flags).2 then
        held \ {physAddr}
      else held) label' kernel) ∧
    Untouched st (st.mapPageIn root virtAddr physAddr flags).1 live label
      kernel root := by
  by_cases haligned : virtAddr % 4096 ≠ 0 ∨ physAddr % 4096 ≠ 0
  · have hnothing : st.mapPageIn root virtAddr physAddr flags = (st, false) :=
      if_pos haligned
    rw [hnothing]
    exact ⟨⟨label, by simpa using hiso⟩, fun _ _ _ _ _ => rfl,
      fun _ _ _ _ _ _ _ _ => rfl⟩
  · simp only [not_or, not_not] at haligned
    have hspace := hiso.space root hroot
    rw [hasFlag_owned] at hheld ⊢
    have hfresh : flags.testBit 9 = true →
        Fresh st root (label root) physAddr := by
      intro howned
      obtain ⟨hreserved, _, hfree⟩ := hiso.held physAddr (hheld howned)
      refine ⟨hreserved, ?_, fun path rights hmaps => ?_⟩
      · by_contra hlabel
        exact hfree root hroot (owns_of_label hlabel)
      · exact hfree root hroot (.inr ⟨path, rights, hmaps, List.nil_prefix⟩)
    obtain ⟨own', hspace', hextends, hcases⟩ := hspace.mapPageIn
      (not_kernelSlot_of_user hmin hmax) hflags hlt haligned.1 haligned.2
      hfresh
    have howns := fun frame =>
      @Space.owns_mapPageIn st root frame virtAddr physAddr flags (label root)
        own' (st.mapPageIn root virtAddr physAddr flags) hspace hextends hcases
    generalize st.mapPageIn root virtAddr physAddr flags = result at *
    set held' := if flags.testBit 9 = true ∧ result.2 = true then
      held \ {physAddr} else held with hdef
    have hsubset : held' ⊆ held := by
      rw [hdef]
      split
      · exact Set.sdiff_subset
      · exact subset_rfl
    obtain ⟨hiso', huntouched⟩ := hiso.renew hextends hspace' hsubset
      (fun frame hforeign => by
        by_contra hlabel
        exact hiso.not_owns_of_foreign hroot hforeign (owns_of_label hlabel))
      (fun frame hframe hforeign => by
        have hforeign' : Foreign st live held label kernel root frame :=
          hforeign.imp_right (Or.imp_left fun hmem => hsubset hmem)
        rcases howns frame hframe with hold | hclear | ⟨rfl, howned, htrue⟩
        · exact hiso.not_owns_of_foreign hroot hforeign' hold
        · rw [(hiso.reserved_of_foreign hforeign').used] at hclear
          cases hclear
        · obtain ⟨_, hnone, hfree⟩ := hiso.held frame (hheld howned)
          rcases hforeign with hkernel | hmem | ⟨other, hother, _, howns'⟩
          · exact hkernel hnone
          · rw [hdef, if_pos ⟨howned, htrue⟩] at hmem
            exact hmem.2 rfl
          · exact hfree other hother howns')
    rw [Set.insert_eq_of_mem hroot] at hiso'
    exact ⟨⟨_, hiso'⟩, huntouched⟩

end Map

section

variable (hiso : Isolated st live held label kernel)

include hiso

theorem Isolated.zero :
    st.pmm.used 0 = true :=
  hiso.grove.tables.zero

theorem Isolated.create :
    (∃ label', Isolated st.createAddressSpace.1
      (if st.createAddressSpace.2 = 0 then live
        else insert st.createAddressSpace.2 live) held label' kernel) ∧
    Untouched st st.createAddressSpace.1 live label kernel
      st.createAddressSpace.2 := by
  rcases st.createAddressSpace_cases hiso.zero with
    ⟨hresult, _⟩ | ⟨f, g, hclear, _, hresult⟩
  · rw [hresult, if_pos rfl]
    exact ⟨⟨label, hiso⟩, fun _ _ _ _ _ => rfl, fun _ _ _ _ _ _ _ _ => rfl⟩
  · have hprogress := Progress.new hiso.zero hclear (kernelSlot_lt st)
    have hspace := hprogress.space
    obtain ⟨hiso', huntouched⟩ := hiso.renew
      (extends_new hiso.zero hclear (kernelSlot_lt st)) hspace
      (subset_refl held) (fun _ _ => rfl) (fun frame howns hforeign => by
        have haligned := (hspace.reserved_of_under howns).aligned
        rw [← Nat.div_mul_cancel (Nat.dvd_of_mod_eq_zero haligned)] at howns
        have hfresh := hprogress.fresh _ howns
        rw [(hiso.reserved_of_foreign hforeign).used] at hfresh
        cases hfresh)
    have hnonzero := (hspace.tables.reserved hspace.rooted).nonzero
    rw [hresult, if_neg hnonzero]
    exact ⟨⟨_, hiso'⟩, huntouched⟩

theorem Isolated.used_destroy (hroot : root ∈ live)
    (hforeign : Foreign st live held label kernel root frame) :
    (st.destroyAddressSpace root).pmm.used (frame / 4096) = true := by
  have hspace := hiso.space root hroot
  have hreserved := hiso.reserved_of_foreign hforeign
  have hnot := hiso.not_owns_of_foreign hroot hforeign
  rw [hspace.used_destroy,
    Nat.div_mul_cancel (Nat.dvd_of_mod_eq_zero hreserved.aligned)]
  refine ⟨hreserved.used, ?_, fun hunder => ?_⟩
  · rintro rfl
    exact hnot (.inl ⟨[], hspace.rooted, List.prefix_rfl⟩)
  · exact hnot (hunder.mono List.nil_prefix)

theorem Isolated.destroy (hroot : root ∈ live) :
    Isolated (st.destroyAddressSpace root) (live \ {root}) held label kernel ∧
      Untouched st (st.destroyAddressSpace root) live label kernel root := by
  have hmem : ∀ frame, SameAt st (st.destroyAddressSpace root) frame := by
    intro frame addr _ _
    rw [State.destroyAddressSpace_eq]
  have hused := fun frame => @Isolated.used_destroy st live held label kernel
    root frame hiso hroot
  have hother : ∀ other ∈ live \ {root}, ∀ frame,
      Owns st other (label other) frame →
        Foreign st live held label kernel root frame :=
    fun other hmem frame howns => .inr (.inr ⟨other, hmem.1, hmem.2, howns⟩)
  have hzero : (st.destroyAddressSpace root).pmm.used 0 = true := by
    have hspace := hiso.space root hroot
    rw [hspace.used_destroy]
    refine ⟨hiso.zero, fun heq => ?_, fun hunder => ?_⟩
    · exact (hspace.tables.reserved hspace.rooted).nonzero heq.symm
    · exact (hspace.reserved_of_under hunder).nonzero rfl
  refine ⟨?_, fun frame _ => hmem frame, fun _ _ _ frame _ => hmem frame⟩
  refine (hiso.undisturbed Set.sdiff_subset
    (fun frame hkernel => ⟨hmem frame, hused frame (.inl hkernel)⟩)
    (fun _ _ frame _ => hmem frame)
    (fun other hmem frame howns => hused frame (hother other hmem frame howns))
    hzero fun frame hframe => ?_).1
  obtain ⟨hreserved, hnone, hfree⟩ := hiso.held frame hframe
  exact ⟨{ hreserved with used := hused frame (.inr (.inl hframe)) }, hnone,
    fun other hmem => hfree other hmem.1⟩

theorem Isolated.root_ne_boot (hroot : root ∈ live) : root ≠ bootPml4 := by
  rintro rfl
  have hnone := hiso.beside bootPml4 hroot bootPml4
    (.inl ⟨[], (hiso.space bootPml4 hroot).rooted, List.prefix_rfl⟩)
  rw [hiso.grove.roots bootPml4 rfl] at hnone
  cases hnone

/-- The tables of some address spaces and of the kernel. -/
theorem Isolated.table_cases (hgrove : Grove st (insert bootPml4 live) shared)
    (hlive : live' ⊆ live) (htable : TableOf st (insert bootPml4 live') frame) :
    kernel frame ≠ none ∨ ∃ other ∈ live', label other frame ≠ none := by
  obtain ⟨root, hroot, path, hleads⟩ := htable
  rcases hiso.footprint_of_table hgrove (Set.insert_subset_insert hlive hroot)
    hleads with ⟨hmem, hlabel⟩ | ⟨hlabel, _⟩
  · rcases hroot with rfl | hroot
    · exact absurd rfl (hiso.root_ne_boot hmem)
    · exact .inr ⟨root, hroot, by simp [hlabel]⟩
  · exact .inl (by simp [hlabel])

theorem Isolated.tableOf
    (htable : kernel frame ≠ none ∨ ∃ other ∈ live, label other frame ≠ none) :
    TableOf st (insert bootPml4 live) frame := by
  rcases htable with hkernel | ⟨other, hother, hlabel⟩
  · obtain ⟨l, hl⟩ := Option.ne_none_iff_exists'.mp hkernel
    obtain ⟨root, rfl, path, hleads⟩ := hiso.grove.tableOf hl
    exact ⟨bootPml4, .inl rfl, path, hleads⟩
  · obtain ⟨l, hl⟩ := Option.ne_none_iff_exists'.mp hlabel
    refine ⟨other, .inr hother, l, ?_⟩
    have hleads := (hiso.space other hother).leads hl
    exact hleads.mono_view fun path table i above next hlink => by
      obtain ⟨hshown, _, _⟩ := viewHiding_eq_link hlink
      rwa [ownView_of_shown hshown] at hlink

/-- Tables stay tables while their memory and their frames are left alone. -/
theorem Isolated.elsewhere (hgrove : Grove st (insert bootPml4 live) shared)
    (hlive : live' ⊆ live)
    (hkept : ∀ frame, (kernel frame ≠ none ∨
      ∃ other ∈ live', label other frame ≠ none) →
        SameAt st st' frame ∧ st'.pmm.used (frame / 4096) = true)
    (hzero : st'.pmm.used 0 = true)
    (hcr3 : st'.cr3 &&& addrMask ∈ insert bootPml4 live') :
    Elsewhere st (insert bootPml4 live') st' where
  tables htable := hkept _ (hiso.table_cases hgrove hlive htable)
  zero := hzero
  cr3 := hcr3

theorem Isolated.besides (hgrove : Grove st (insert bootPml4 live) shared)
    (hmem : ∀ frame, TableOf st (insert bootPml4 live) frame →
      SameAt st st' frame)
    (hused : ∀ frame, (kernel frame ≠ none ∨
      ∃ other ∈ live, Owns st other (label other) frame) →
        st'.pmm.used (frame / 4096) = true)
    (hzero : st'.pmm.used 0 = true)
    (hcr3 : st'.cr3 &&& addrMask ∈ insert bootPml4 live)
    (hheld : ∀ frame ∈ held', Reserved st'.pmm frame ∧ kernel frame = none ∧
      ∀ root ∈ live, ¬ Owns st root (label root) frame) :
    Isolated st' live held' label kernel ∧
      ∃ shared', Grove st' (insert bootPml4 live) shared' := by
  refine ⟨(hiso.undisturbed subset_rfl (fun frame hkernel => ?_)
    (fun other hother frame hlabel => ?_) (fun other hother frame howns => ?_)
    hzero hheld).1, ?_⟩
  · exact ⟨hmem frame (hiso.tableOf (.inl hkernel)),
      hused frame (.inl hkernel)⟩
  · exact hmem frame (hiso.tableOf (.inr ⟨other, hother, hlabel⟩))
  · exact hused frame (.inr ⟨other, hother, howns⟩)
  · refine ⟨shared, hgrove.elsewhere (hiso.elsewhere hgrove subset_rfl
      (fun frame htable => ⟨hmem frame (hiso.tableOf htable), ?_⟩) hzero
      hcr3)⟩
    refine hused frame (htable.imp_right ?_)
    rintro ⟨other, hother, hlabel⟩
    exact ⟨other, hother, owns_of_label hlabel⟩

theorem Isolated.used
    (hin : kernel frame ≠ none ∨
      ∃ other ∈ live, Owns st other (label other) frame) :
    Reserved st.pmm frame := by
  rcases hin with hkernel | ⟨other, hother, howns⟩
  · exact hiso.reserved_kernel hkernel
  · exact (hiso.space other hother).reserved_of_under howns

theorem Besides.isolated (hgrove : Grove st (insert bootPml4 live) shared)
    (hbesides : Besides st live held st' held') :
    Isolated st' live held' label kernel ∧
      ∃ shared', Grove st' (insert bootPml4 live) shared' := by
  have hin : ∀ {frame}, ¬ (kernel frame ≠ none ∨
      ∃ other ∈ live, Owns st other (label other) frame) →
        kernel frame = none ∧
          ∀ root ∈ live, ¬ Owns st root (label root) frame := by
    intro frame hnot
    rw [not_or, not_not] at hnot
    exact ⟨hnot.1, fun root hroot howns => hnot.2 ⟨root, hroot, howns⟩⟩
  cases hbesides with
  | @alloc pmm frame halloc hframe =>
      rcases st.pmm.allocFrame_cases with ⟨n, hn, hclear, hresult⟩ | ⟨_, hresult⟩
      · rw [hresult] at halloc
        cases halloc
        refine hiso.besides hgrove (fun _ _ _ _ _ => rfl)
          (fun frame hframe => Pmm.used_take_of_used (hiso.used hframe).used)
          (Pmm.used_take_of_used hiso.zero) hgrove.cr3 ?_
        rintro frame (rfl | hheld)
        · refine ⟨.of_taken hiso.zero hn hclear (Pmm.used_take_self ..), ?_⟩
          refine hin fun hin => ?_
          have hused := (hiso.used hin).used
          rw [Pmm.frameSize, Nat.mul_div_cancel _ (by decide), hclear] at hused
          cases hused
        · obtain ⟨hreserved, hrest⟩ := hiso.held frame hheld
          exact ⟨hreserved.take n, hrest⟩
      · rw [hresult] at halloc
        cases halloc
        exact absurd rfl hframe
  | @release frame hframe =>
      obtain ⟨hreserved, hnone, hfree⟩ := hiso.held frame hframe
      have hkept : ∀ {other}, Reserved st.pmm other → other ≠ frame →
          Reserved (st.free frame).pmm other := by
        intro other hother hne
        rw [State.free, hreserved.freeFrame]
        exact hother.give hreserved hne
      refine hiso.besides hgrove (fun _ _ _ _ _ => rfl) (fun other hother => ?_)
        ?_ hgrove.cr3 (fun other hother => ?_)
      · refine (hkept (hiso.used hother) ?_).used
        rintro rfl
        rcases hother with hkernel | ⟨root, hroot, howns⟩
        · exact hkernel hnone
        · exact hfree root hroot howns
      · rw [State.free, hreserved.freeFrame]
        have haligned := hreserved.aligned
        have hnonzero := hreserved.nonzero
        exact (Function.update_of_ne (by omega) ..).trans hiso.zero
      · obtain ⟨hreserved', hrest⟩ := hiso.held other hother.1
        exact ⟨hkept hreserved' hother.2, hrest⟩
  | write hmem =>
      exact hiso.besides hgrove hmem (fun frame hframe => (hiso.used hframe).used)
        hiso.zero hgrove.cr3 hiso.held
  | @load root hroot =>
      have hreserved : Reserved st.pmm root :=
        hgrove.tables.reserved (hgrove.roots root hroot)
      have hmask : root &&& addrMask = root :=
        and_addrMask_of_aligned hreserved.aligned
          (hreserved.managed.trans (by decide))
      refine hiso.besides hgrove (fun _ _ _ _ _ => rfl)
        (fun frame hframe => (hiso.used hframe).used) hiso.zero ?_ hiso.held
      rwa [hmask]

theorem Isolated.grove_destroy
    (hgrove : Grove st (insert bootPml4 live) shared) (hroot : root ∈ live)
    (hcr3 : root ≠ st.cr3 &&& addrMask) :
    ∃ shared', Grove (st.destroyAddressSpace root)
      (insert bootPml4 (live \ {root})) shared' := by
  have hboot := hiso.root_ne_boot hroot
  have hset : insert bootPml4 live \ {root} =
      insert bootPml4 (live \ {root}) :=
    Set.insert_sdiff_of_notMem _ (by simpa using hboot.symm)
  have hretired := hgrove.retire hboot hcr3
  rw [hset] at hretired
  have hiso' := (hiso.destroy hroot).1
  refine ⟨_, hretired.elsewhere (hiso.elsewhere hgrove Set.sdiff_subset
    (fun frame htable => ⟨fun addr _ _ => ?_, ?_⟩) hiso'.zero ?_)⟩
  · rw [State.destroyAddressSpace_eq]
  · refine (hiso'.used (htable.imp_right ?_)).used
    rintro ⟨other, hother, hlabel⟩
    exact ⟨other, hother, owns_of_label hlabel⟩
  · rw [State.destroyAddressSpace_eq]
    exact hretired.cr3

theorem Act.isolated {held' : Set Nat}
    (hgrove : Grove st (insert bootPml4 live) shared)
    (hact : Act st live held root st' live' held') :
    (∃ label', Isolated st' live' held' label' kernel) ∧
      (∃ shared', Grove st' (insert bootPml4 live') shared') ∧
      Untouched st st' live label kernel root := by
  cases hact with
  | create =>
      obtain ⟨hiso', huntouched⟩ := hiso.create
      refine ⟨hiso', ?_, huntouched⟩
      have hcreated := Operation.createAddressSpace.grove hgrove
      by_cases hzero : st.createAddressSpace.2 = 0
      · rwa [if_pos hzero] at hcreated ⊢
      · rw [if_neg hzero] at hcreated ⊢
        rwa [Set.insert_comm]
  | map hroot hmin hmax hlt hflags hheld =>
      obtain ⟨hiso', huntouched⟩ := hiso.map hroot hmin hmax hlt hflags hheld
      exact ⟨hiso', hgrove.mapPageIn (.inr hroot) _ _ _, huntouched⟩
  | destroy hroot hcr3 =>
      obtain ⟨hiso', huntouched⟩ := hiso.destroy hroot
      exact ⟨⟨label, hiso'⟩, hiso.grove_destroy hgrove hroot hcr3, huntouched⟩

end

theorem Grove.isolated (hgrove : Grove st {bootPml4} kernel) :
    Isolated st ∅ ∅ (fun _ _ => none) kernel where
  grove :=
    { tables :=
        { labelled := hgrove.tables.labelled
          passes := hgrove.tables.passes
          reserved := hgrove.tables.reserved
          zero := hgrove.tables.zero }
      roots := hgrove.roots
      owned := hgrove.owned
      directory := hgrove.directory
      kernel := rfl
      cr3 := (by decide : bootPml4 &&& addrMask = bootPml4) }
  space _ hroot := hroot.elim
  apart _ hroot := hroot.elim
  beside _ hroot := hroot.elim
  held _ hframe := hframe.elim

theorem Reached.isolated (hreached : Reached st live held) :
    ∃ label kernel shared, Isolated st live held label kernel ∧
      Grove st (insert bootPml4 live) shared := by
  induction hreached with
  | start hbuilt =>
      obtain ⟨kernel, hgrove⟩ := hbuilt.grove
      refine ⟨_, kernel, kernel, hgrove.isolated, ?_⟩
      rwa [insert_empty_eq]
  | act _ hact ih =>
      obtain ⟨label, kernel, shared, hiso, hgrove⟩ := ih
      obtain ⟨⟨label', hiso'⟩, ⟨shared', hgrove'⟩, _⟩ :=
        hact.isolated hiso hgrove
      exact ⟨label', kernel, shared', hiso', hgrove'⟩
  | besides _ hbesides ih =>
      obtain ⟨label, kernel, shared, hiso, hgrove⟩ := ih
      obtain ⟨hiso', shared', hgrove'⟩ := hbesides.isolated hiso hgrove
      exact ⟨label, kernel, shared', hiso', hgrove'⟩

/-- The page that an address space maps at a user address. -/
theorem Space.maps_of_find {virtAddr : Nat} (hspace : Space st root own)
    (hslot : ¬ KernelSlot virtAddr) {rights : Rights} {page : Page}
    {rest : Path}
    (hfind : find (view st.mem) root (vaPath virtAddr) =
      some (rights, page, rest)) :
    Maps st root (vaPath virtAddr) rights page := by
  have hown : find (ownView st.mem) root (vaPath virtAddr) =
      some (rights, page, rest) := by
    rw [← hfind]
    exact gather_ownView _ st.mem (shown_hideKernel hslot)
  have hlength := hspace.small hown
  have hnil : rest = [] := by
    simpa [vaPath] using hlength
  rwa [hnil] at hown

/-- In every state that is reached: a call on one address space changes no
translation of another or of the kernel's and no entry behind the kernel's
slot; and when an address space is destroyed, no frame is freed twice, none
that is a table of another address space or of the kernel's, and none that
another address space owns. -/
theorem address_spaces_isolated (hreached : Reached st live held) :
    (∀ root st' live' held', Act st live held root st' live' held' →
      (∀ other ∈ insert bootPml4 live, other ≠ root → ∀ virtAddr,
        translate st'.mem other virtAddr = translate st.mem other virtAddr) ∧
      ∀ path table, Leads (view st.mem) ⊥ [] bootPml4 (0 :: 0 :: path) table →
        ∀ i < 512, st'.entry table i = st.entry table i) ∧
    ∀ root ∈ live,
      st.destroyAddressSpace root =
        { st with pmm := (st.released root).foldl Pmm.freeFrame st.pmm } ∧
      (st.released root).Nodup ∧
      ∀ frame ∈ st.released root,
        ¬ TableOf st (insert bootPml4 (live \ {root})) frame ∧
        ∀ other ∈ live, other ≠ root → ∀ virtAddr,
          Elf.userSpaceMin ≤ virtAddr → virtAddr < Elf.userSpaceMax →
            ∀ rights rest, find (view st.mem) other (vaPath virtAddr) ≠
              some (rights, ⟨frame, true⟩, rest) := by
  obtain ⟨label, kernel, shared, hiso, hgrove⟩ := hreached.isolated
  refine ⟨fun root st' live' held' hact => ?_, fun root hroot => ?_⟩
  · obtain ⟨_, _, huntouched⟩ := hact.isolated hiso hgrove
    refine ⟨fun other hother hne => ?_, fun path table hleads i hi => ?_⟩
    · refine hiso.translate_same hgrove hother fun path frame hfoot => ?_
      rcases hfoot with ⟨hlive, hlabel⟩ | ⟨hlabel, _⟩
      · exact huntouched.others other hlive hne frame (by simp [hlabel])
      · exact huntouched.kernel frame (by simp [hlabel])
    · have htable := hiso.grove.tables.label_at
        (hiso.grove.roots bootPml4 rfl) rfl hleads
      exact entryAt_congr (huntouched.kernel table (by simp [htable])) hi
  · have hspace := hiso.space root hroot
    refine ⟨st.destroyAddressSpace_eq root, hspace.nodup_released,
      fun frame hframe => ?_⟩
    have howns : Owns st root (label root) frame := by
      rcases hspace.mem_released.mp hframe with rfl | hunder
      · exact .inl ⟨[], hspace.rooted, List.prefix_rfl⟩
      · exact hunder.mono List.nil_prefix
    refine ⟨fun htable => ?_, fun other hother hne virtAddr hmin hmax rights
      rest hfind => ?_⟩
    · rcases hiso.table_cases hgrove Set.sdiff_subset htable with
        hkernel | ⟨other, hother, hlabel⟩
      · exact hkernel (hiso.beside root hroot frame howns)
      · exact hother.2 (hiso.apart other hother.1 root hroot frame
          (owns_of_label hlabel) howns)
    · have hmaps := (hiso.space other hother).maps_of_find
        (not_kernelSlot_of_user hmin hmax) hfind
      exact hne (hiso.apart other hother root hroot frame
        (.inr ⟨_, rights, hmaps, List.nil_prefix⟩) howns)

/-- Two address spaces, of which the second also maps a page that the first
owns. -/
def sharing : State :=
  let st := bootState.createAddressSpace.1.createAddressSpace.1
  let st := { st with pmm := st.pmm.allocFrame.1 }
  let st := (st.mapPageIn 0x4000 0x40000000 0x8000 0x207).1
  (st.mapPageIn 0x6000 0x40000000 0x8000 0x7).1

theorem Reached.created (hreached : Reached st live held)
    (hroot : st.createAddressSpace.2 = root) (hne : root ≠ 0) :
    Reached st.createAddressSpace.1 (insert root live) held := by
  have hact := hreached.act .create
  rwa [hroot, if_neg hne] at hact

theorem Reached.allocated (hreached : Reached st live held)
    (hframe : st.pmm.allocFrame.2 = frame) (hne : frame ≠ 0) :
    Reached { st with pmm := st.pmm.allocFrame.1 } live (insert frame held) :=
  hreached.besides (.alloc (Prod.ext rfl hframe) hne)

theorem Reached.mapped {virtAddr physAddr flags : Nat}
    (hreached : Reached st live held) (hroot : root ∈ live)
    (hmin : Elf.userSpaceMin ≤ virtAddr) (hmax : virtAddr < Elf.userSpaceMax)
    (hlt : physAddr < 2 ^ 52) (hflags : Plain flags)
    (hheld : hasFlag flags pageOwned = true → physAddr ∈ held) :
    ∃ held', Reached (st.mapPageIn root virtAddr physAddr flags).1 live held' :=
  ⟨_, hreached.act (.map hroot hmin hmax hlt hflags hheld)⟩

theorem sharing_reached : ∃ held,
    Reached sharing (insert 0x6000 (insert 0x4000 ∅)) held := by
  have hfirst : bootState.createAddressSpace.2 = 0x4000 := by decide +kernel
  have hsecond : bootState.createAddressSpace.1.createAddressSpace.2 =
      0x6000 := by decide +kernel
  have hframe : (bootState.createAddressSpace.1.createAddressSpace.1.pmm
      ).allocFrame.2 = 0x8000 := by decide +kernel
  have hheld := (((Reached.start (.boot bootState_boot)).created hfirst
    (by decide)).created hsecond (by decide)).allocated hframe (by decide)
  obtain ⟨_, howned⟩ := hheld.mapped (.inr (.inl rfl))
    (show Elf.userSpaceMin ≤ 0x40000000 by decide) (by decide)
    (show 0x8000 < 2 ^ 52 by decide)
    (⟨by decide, by decide⟩ : Plain 0x207) fun _ => .inl rfl
  exact howned.mapped (.inl rfl) (by decide) (by decide) (by decide)
    ⟨by decide, by decide⟩ fun h => absurd h (by decide)

/-- The page is freed with the first address space while the second still maps
it, as does the kernel's identity map. -/
theorem destroy_frees_mapped_page : ∃ held,
    Reached sharing (insert 0x6000 (insert 0x4000 ∅)) held ∧
      0x8000 ∈ sharing.released 0x4000 ∧
      translate sharing.mem 0x6000 0x40000000 =
        some ⟨0x8000, true, true, false⟩ ∧
      translate sharing.mem bootPml4 0x8000 =
        some ⟨0x8000, false, true, false⟩ := by
  obtain ⟨held, hreached⟩ := sharing_reached
  obtain ⟨label, kernel, shared, hiso, _⟩ := hreached.isolated
  have hspace := hiso.space 0x4000 (.inr (.inl rfl))
  have hmaps : Maps sharing 0x4000 [0, 1, 0, 0] (true, true, true)
      ⟨0x8000, true⟩ := by
    unfold Maps
    decide +kernel
  refine ⟨held, hreached, ?_, by decide +kernel, by decide +kernel⟩
  rw [hspace.mem_released]
  exact .inr (.inr ⟨_, _, hmaps, List.prefix_append [0] [1, 0, 0]⟩)

theorem address_spaces_isolated_sharing : ∃ held,
    Reached sharing (insert 0x6000 (insert 0x4000 ∅)) held ∧
      (sharing.released 0x4000).Nodup ∧
      ∀ virtAddr, translate (sharing.destroyAddressSpace 0x4000).mem 0x6000
        virtAddr = translate sharing.mem 0x6000 virtAddr := by
  obtain ⟨held, hreached⟩ := sharing_reached
  have hcr3 : 0x4000 ≠ sharing.cr3 &&& addrMask := by decide +kernel
  have hlive : 0x4000 ∈ (insert 0x6000 (insert 0x4000 ∅) : Set Nat) :=
    .inr (.inl rfl)
  obtain ⟨hact, hdestroy⟩ := address_spaces_isolated hreached
  exact ⟨held, hreached, (hdestroy 0x4000 hlive).2.1,
    (hact _ _ _ _ (.destroy hlive hcr3)).1 0x6000 (.inr (.inl rfl))
      (by decide)⟩

end Paging

end VenomOS
