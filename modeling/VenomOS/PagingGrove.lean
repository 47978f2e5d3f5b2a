/-
Runs of all operations of the pager, with the calls that change the rights of
pages: protect_page, and protect_kernel_image, which gives the first 2 MiB of
the kernel a page table that all address spaces share.
-/
import VenomOS.PagingRuns

namespace VenomOS

namespace Paging

open ByteMemory RadixTable

variable {st st' : State} {live live' : Set Nat}
  {label label' : Nat → Option (Nat × Path)}
  {pml4 virtAddr physAddr flags : Nat}

section

variable (hgrove : Grove st live label)

include hgrove

theorem Grove.setPage {pt i value : Nat} {l : Nat × Path}
    (hpt : label pt = some l) (hlength : l.2.length = 3) (hi : i < 512) :
    Grove (st.set pt i value) live label := by
  have hextends : Extends sharedScheme noHide ∅ st label (st.set pt i value)
      label := hgrove.tables.extends_setPage hpt hlength hi
    sharedScheme_shallow
  refine hgrove.extend (fun _ hl => hl.elim) hextends ?_
  intro root hroot j _ _
  refine hgrove.tables.gather_setPage_off hpt hi (hgrove.roots root hroot) ?_
  rintro front rest hindices rfl
  have hpath : (sharedScheme.follow (root, []) front).2 = front :=
    sharedScheme.path_follow (root, []) front
  have hshort := congrArg List.length hindices
  rw [hpath] at hlength
  simp only [List.length_append, List.length_cons, List.length_nil] at hshort
  omega

theorem Grove.grow (hpml4 : pml4 ∈ live)
    (hgrown : Grown sharedScheme noHide
      (namesOn sharedScheme (pml4, []) virtAddr) st label st' label') :
    Grove st' live label' :=
  hgrove.extend (fun _ => owner_of_namesOn hpml4 hgrove.kernel)
    hgrown.toExtends fun root hroot _ _ _ =>
      hgrown.leaves (hgrove.roots root hroot) _

theorem Grove.label_way (hpml4 : pml4 ∈ live) {need : Rights} {path : Path}
    {table : Nat} (hleads : Leads (view st.mem) need [] pml4 path table) :
    ∃ l : Nat × Path, label table = some l ∧ l.2 = path :=
  ⟨_, hgrove.tables.label_at (hgrove.roots pml4 hpml4) rfl hleads,
    sharedScheme.path_follow (pml4, []) path⟩

theorem Grove.mapPageIn (hpml4 : pml4 ∈ live) (virtAddr physAddr flags : Nat) :
    ∃ label', Grove (st.mapPageIn pml4 virtAddr physAddr flags).1 live
      label' := by
  obtain ⟨mid, label', hgrown, hcases⟩ := hgrove.tables.mapPageIn_cases
    physAddr flags (hgrove.roots pml4 hpml4) rfl (shown_noHide virtAddr)
  have hmid := hgrove.grow hpml4 hgrown
  refine ⟨label', ?_⟩
  rcases hcases with ⟨_, hresult⟩ | ⟨pt, _, _, hleads, hresult⟩
  · rw [hresult]
    exact hmid
  · rw [hresult]
    obtain ⟨l, hl, hpath⟩ := hmid.label_way hpml4 hleads
    exact hmid.setPage hl (congrArg List.length hpath) (ptIndex_lt _)

theorem Grove.protectPage (virtAddr newFlags : Nat) :
    Grove (st.protectPage virtAddr newFlags).1 live label := by
  rcases (shown_noHide virtAddr).protectPage_cases st newFlags with
    hresult | ⟨pdpt, pd, pt, value, hway, hresult⟩
  · rw [hresult]
    exact hgrove
  · rw [hresult]
    obtain ⟨l, hl, hpath⟩ := hgrove.label_way hgrove.cr3 hway.pt
    exact hgrove.setPage hl (congrArg List.length hpath) (ptIndex_lt _)

theorem Grove.directory_nonempty :
    st.isTableEmpty bootPd = false := by
  by_contra hempty
  rw [Bool.not_eq_false] at hempty
  have hleaf := hgrove.directory _ hgrove.cr3 1 (by decide) (by decide)
  rw [find, show [0, 0, 1] = [0, 0] ++ [1] from rfl,
    gather_last_of_leads (hgrove.kernel_leads hgrove.cr3), gather_cons, view,
    viewHiding_of_isTableEmpty hempty] at hleaf
  cases hleaf

theorem Grove.directory_of_way (hpml4 : pml4 ∈ live) {pd : Nat}
    (hpd : Leads (view st.mem) ⊥ [] pml4 [0, 0] pd) : pd = bootPd :=
  hgrove.anchored (hgrove.tables.label_at (hgrove.roots pml4 hpml4) rfl hpd)

/-- Through the kernel's slot at most a page table is dropped: the directory
above it is never empty. -/
theorem Grove.dropEmptyTables_kernel (hpml4 : pml4 ∈ live)
    (hslot : KernelSlot virtAddr) {pdpt pd pt : Nat}
    (hway : Way noHide st pml4 virtAddr pdpt pd pt) :
    ∃ label', Grove (st.dropEmptyTables pml4 pdpt pd pt virtAddr) live
      label' := by
  have hpd := hway.pd
  rw [hslot.1, hslot.2] at hpd
  unfold State.dropEmptyTables
  split
  · rename_i hempty
    have hfollow : sharedScheme.follow (pml4, []) (tablePath virtAddr) =
        (bootPml4, tablePath virtAddr) := by
      rw [sharedScheme_follow, if_pos hslot]
    obtain ⟨label', hshrunk, _⟩ := hgrove.tables.drop_way
      (hgrove.roots pml4 hpml4) rfl hway.pd hway.pt hempty (by
        rw [show [pml4Index virtAddr, pdptIndex virtAddr] ++
          [pdIndex virtAddr] = tablePath virtAddr from rfl, hfollow]
        simp [sharedScheme, sharedAnchor, tablePath])
    have hgrove' := hgrove.shrink hshrunk
    dsimp only
    rw [hgrove.directory_of_way hpml4 hpd] at hgrove' ⊢
    rw [hgrove'.directory_nonempty, if_neg Bool.false_ne_true]
    exact ⟨label', hgrove'⟩
  · exact ⟨label, hgrove⟩

theorem Grove.unmapPage (virtAddr : Nat) :
    ∃ label', Grove (st.unmapPage virtAddr).1 live label' := by
  rcases (shown_noHide virtAddr).unmapPage_cases st with
    hresult | ⟨pdpt, pd, pt, _, hway, hresult⟩
  · rw [hresult]
    exact ⟨label, hgrove⟩
  · have hcr3 := hgrove.cr3
    rw [hresult]
    dsimp only
    generalize st.cr3 &&& addrMask = pml4 at hway hcr3 ⊢
    have hroot := hgrove.roots pml4 hcr3
    obtain ⟨l, hl, hpath⟩ := hgrove.label_way hcr3 hway.pt
    have hmid : Grove (st.set pt (ptIndex virtAddr) 0) live label :=
      hgrove.setPage hl (congrArg List.length hpath) (ptIndex_lt virtAddr)
    have hway' := hgrove.tables.way_setPage hroot rfl hway 0
    by_cases hslot : KernelSlot virtAddr
    · exact hmid.dropEmptyTables_kernel hcr3 hslot hway'
    · obtain ⟨label', hshrunk⟩ := hmid.tables.dropEmptyTables_shrunk hroot rfl
        (Option.some_ne_none _) (privateWay hslot) hway'.pdpt hway'.pd
        hway'.pt
      exact ⟨label', hmid.shrink hshrunk⟩

end

theorem entryAt_imageTable_other {mem : Memory}
    {textEnd rodataEnd pt other j : Nat} (hpt : pt % 4096 = 0)
    (hother : other % 4096 = 0) (hj : j < 512) (hne : other ≠ pt) :
    entryAt (State.imageTable textEnd rodataEnd pt mem) other j =
      entryAt mem other j := by
  unfold State.imageTable
  have hlt : ∀ i ∈ List.range 512, i < 512 := fun i => List.mem_range.mp
  generalize List.range 512 = indices at hlt
  induction indices generalizing mem with
  | nil => rfl
  | cons i rest ih =>
      rw [List.foldl_cons, ih fun k hk => hlt k (List.mem_cons_of_mem i hk)]
      exact entryAt_setEntry_other hpt hother (hlt i List.mem_cons_self) hj
        (.inl hne)

/-- The state in which frame `f` is the page table of the kernel's image. -/
def State.withImage (st : State) (textEnd rodataEnd f : Nat) : State :=
  { st with
    pmm := st.pmm.take f
    mem := setEntry (State.imageTable textEnd rodataEnd (f * 4096) st.mem)
      bootPd 0 (tableEntry (f * 4096) 0) }

/-- Nothing happens, or the first slot of the kernel's page directory, which
mapped a huge page, gets a page table. -/
theorem Grove.protectKernelImage_cases (hgrove : Grove st live label)
    (textEnd rodataEnd : Nat) :
    st.protectKernelImage textEnd rodataEnd = (st, false) ∨
    ∃ f < Pmm.managedFrames, st.pmm.used f = false ∧
      isHuge (st.entry bootPd 0) = true ∧
      st.protectKernelImage textEnd rodataEnd =
        (st.withImage textEnd rodataEnd f, true) := by
  obtain ⟨pdpt, above, below, hfirst, hsecond, _⟩ :=
    hgrove.kernelWay hgrove.cr3
  obtain ⟨_, _, _, _, hpdpt⟩ :=
    decode_eq_link (viewHiding_eq_link hfirst).2.2
  obtain ⟨_, _, _, _, hpd⟩ := decode_eq_link (viewHiding_eq_link hsecond).2.2
  change pdpt = st.entry (st.cr3 &&& addrMask) 0 &&& addrMask at hpdpt
  change bootPd = st.entry pdpt 0 &&& addrMask at hpd
  unfold State.protectKernelImage
  dsimp only
  rw [← hpdpt, ← hpd]
  split
  · exact .inl rfl
  split
  · exact .inl rfl
  split
  · exact .inl rfl
  rename_i hhuge
  split
  · exact .inl rfl
  rcases st.pmm.allocFrame_cases with ⟨f, hf, hclear, halloc⟩ | ⟨_, halloc⟩
  · have hpos : f * 4096 ≠ 0 :=
      (Reserved.of_taken hgrove.tables.zero hf hclear
        (Pmm.used_take_self st.pmm f)).nonzero
    refine .inr ⟨f, hf, hclear, by simpa using hhuge, ?_⟩
    rw [halloc, show f * Pmm.frameSize = f * 4096 from rfl, State.withImage,
      tableEntry_zero]
    simp only [hpos, if_false, State.set]
  · rw [halloc]
    exact .inl rfl

section Image

variable {f textEnd rodataEnd : Nat} (hgrove : Grove st live label)
  (hclear : st.pmm.used f = false)

include hgrove hclear

variable (textEnd rodataEnd) in
theorem Grove.agreeOff_withImage :
    AgreeOff sharedScheme label (viewHiding noHide st.mem)
      (viewHiding noHide (st.withImage textEnd rodataEnd f).mem) bootPd 0 := by
  intro other l j hlabel hne
  have haligned := (hgrove.tables.reserved hlabel).aligned
  have hother : other ≠ f * 4096 := by
    rintro rfl
    rw [hgrove.tables.unlabelled hclear] at hlabel
    cases hlabel
  unfold viewHiding State.withImage
  split
  · rfl
  · split
    · rw [entryAt_setEntry_other rfl haligned (by decide) ‹_› hne,
        entryAt_imageTable_other (Nat.mul_mod_left _ _) haligned ‹_› hother]
    · rfl

theorem Grove.withImage (hf : f < Pmm.managedFrames)
    (hhuge : isHuge (st.entry bootPd 0) = true) :
    Grove (st.withImage textEnd rodataEnd f) live
      (Function.update label (f * 4096) (some (bootPml4, [0, 0, 0]))) := by
  obtain ⟨_, _, _, _, _, _, hpd⟩ := hgrove.kernelWay hgrove.cr3
  have hagree := hgrove.agreeOff_withImage textEnd rodataEnd hclear
  have hlt : f * 4096 < 2 ^ 52 := (managed_of_lt hf).trans (by decide)
  have hslot : ∀ above next,
      viewHiding noHide st.mem [0, 0] bootPd 0 ≠ .link above next := by
    intro above next hlink
    obtain ⟨_, _, hdecode⟩ := viewHiding_eq_link hlink
    obtain ⟨_, _, hsmall, _⟩ := decode_eq_link hdecode
    rw [isHuge_eq, Bool.and_eq_true] at hhuge
    rcases hsmall with hroot | hsmall
    · cases hroot
    · exact Bool.false_ne_true (hsmall.symm.trans hhuge.2)
  have hslot' : viewHiding noHide (st.withImage textEnd rodataEnd f).mem
      [0, 0] bootPd 0 = .link (allowed 0) (f * 4096) := by
    rw [viewHiding_shown rfl (by decide), State.withImage,
      entryAt_setEntry_self _ _ _ (tableEntry_lt hlt 0)]
    exact decode_tableEntry (by decide) (Nat.mul_mod_left _ _) hlt 0
  have htables := hgrove.tables.addTable hpd hf hclear hagree hslot
    (sharedScheme_private (by simp) (by simp)) hslot' (passage_le_allowed 0)
    (viewHiding_ne_link rfl _ _)
  have hold : ∀ {other l}, label other = some l → Function.update label
      (f * 4096) (some (bootPml4, [0, 0, 0])) other = some l := by
    intro other l hlabel
    rw [Function.update_of_ne _ _ _, hlabel]
    rintro rfl
    rw [hgrove.tables.unlabelled hclear] at hlabel
    cases hlabel
  refine ⟨htables, fun root hroot => hold (hgrove.roots root hroot), ?_, ?_,
    hgrove.kernel, hgrove.cr3⟩
  · intro other l hlabel
    by_cases hnew : other = f * 4096
    · rw [hnew, Function.update_self] at hlabel
      cases hlabel
      exact hgrove.kernel
    · rw [Function.update_of_ne hnew] at hlabel
      exact hgrove.owned hlabel
  · intro root hroot i hi hne
    refine Eq.trans ?_ (hgrove.directory root hroot i hi hne)
    refine hgrove.tables.labelled.gather_congr hpd hagree
      (hgrove.roots root hroot) ?_
    intro front rest hindices hfollow
    have hfront : front = [0, 0] :=
      (sharedScheme.path_follow (root, []) front).symm.trans
        (congrArg Prod.snd hfollow)
    subst hfront
    simp only [List.cons_append, List.nil_append, List.cons.injEq, true_and]
      at hindices
    exact absurd hindices.1 hne

end Image

theorem Grove.protectKernelImage (hgrove : Grove st live label)
    (textEnd rodataEnd : Nat) :
    ∃ label', Grove (st.protectKernelImage textEnd rodataEnd).1 live
      label' := by
  rcases hgrove.protectKernelImage_cases textEnd rodataEnd with
    hresult | ⟨f, hf, hclear, hhuge, hresult⟩
  · rw [hresult]
    exact ⟨label, hgrove⟩
  · rw [hresult]
    exact ⟨_, hgrove.withImage hclear hf hhuge⟩

/-- The operations of the pager on any of the live trees, with any arguments,
and what the rest of the kernel does in between. -/
inductive Operation : State → Set Nat → State → Set Nat → Prop
  | mapPageIn {st : State} {live : Set Nat}
      {pml4 virtAddr physAddr flags : Nat} (hpml4 : pml4 ∈ live) :
      Operation st live (st.mapPageIn pml4 virtAddr physAddr flags).1 live
  | unmapPage {st : State} {live : Set Nat} {virtAddr : Nat} :
      Operation st live (st.unmapPage virtAddr).1 live
  | protectPage {st : State} {live : Set Nat} {virtAddr newFlags : Nat} :
      Operation st live (st.protectPage virtAddr newFlags).1 live
  | protectKernelImage {st : State} {live : Set Nat}
      {textEnd rodataEnd : Nat} :
      Operation st live (st.protectKernelImage textEnd rodataEnd).1 live
  | createAddressSpace {st : State} {live : Set Nat} :
      Operation st live st.createAddressSpace.1
        (if st.createAddressSpace.2 = 0 then live
          else insert st.createAddressSpace.2 live)
  | retire {st : State} {live : Set Nat} {root : Nat}
      (hkernel : root ≠ bootPml4) (hcr3 : root ≠ st.cr3 &&& addrMask) :
      Operation st live st (live \ {root})
  | elsewhere {st : State} {live : Set Nat} {st' : State}
      (helsewhere : Elsewhere st live st') : Operation st live st' live

/-- The states with the trees that the operations have built from the boot
tables. -/
inductive Built : State → Set Nat → Prop
  | boot {st : State} (hboot : Boot st) : Built st {bootPml4}
  | operation {st : State} {live : Set Nat} {st' : State} {live' : Set Nat}
      (hbuilt : Built st live) (hoperation : Operation st live st' live') :
      Built st' live'

theorem Operation.grove (hgrove : Grove st live label)
    (hoperation : Operation st live st' live') :
    ∃ label', Grove st' live' label' := by
  cases hoperation with
  | mapPageIn hpml4 => exact hgrove.mapPageIn hpml4 _ _ _
  | unmapPage => exact hgrove.unmapPage _
  | protectPage => exact ⟨label, hgrove.protectPage _ _⟩
  | protectKernelImage => exact hgrove.protectKernelImage _ _
  | createAddressSpace =>
      rcases st.createAddressSpace_cases hgrove.tables.zero with
        ⟨hresult, _⟩ | ⟨f, g, hclear, _, hresult⟩
      · rw [hresult, if_pos rfl]
        exact ⟨label, hgrove⟩
      · have hnonzero : f * 4096 ≠ 0 :=
          (Reserved.of_taken hgrove.tables.zero hclear.first hclear.clear
            (Pmm.used_take_self st.pmm f)).nonzero
        rw [hresult, if_neg hnonzero]
        exact ⟨_, (hgrove.create hclear).1⟩
  | retire hkernel hcr3 => exact ⟨_, hgrove.retire hkernel hcr3⟩
  | elsewhere helsewhere => exact ⟨label, hgrove.elsewhere helsewhere⟩

theorem Built.grove (hbuilt : Built st live) :
    ∃ label, Grove st live label := by
  induction hbuilt with
  | boot hboot => exact ⟨_, hboot.forest.grove⟩
  | operation _ hoperation ih =>
      obtain ⟨label, hgrove⟩ := ih
      exact hoperation.grove hgrove

end Paging

end VenomOS
