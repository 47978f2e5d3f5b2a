/-
The life of an address space: it is created, pages of its own are mapped in it,
each in a frame that was just allocated, and it is destroyed.
-/
import VenomOS.Elf
import VenomOS.PagingDestroy

namespace VenomOS

namespace Paging

open ByteMemory RadixTable

namespace State

variable (st : State)

/-- A page with a frame of its own, which is freed if it cannot be mapped. -/
def mapFresh (pml4 virtAddr flags : Nat) : State :=
  let (pmm, frame) := st.pmm.allocFrame
  let st := { st with pmm := pmm }
  if frame = 0 then st
  else
    let (st, mapped) := st.mapPageIn pml4 virtAddr frame flags
    if mapped then st else st.free frame

/-- Pages by address and flags. -/
def mapAll (pml4 : Nat) (pages : List (Nat × Nat)) : State :=
  pages.foldl (fun st page => st.mapFresh pml4 page.1 page.2) st

def lifetime (pages : List (Nat × Nat)) : State :=
  let (st, pml4) := st.createAddressSpace
  if pml4 = 0 then st
  else (st.mapAll pml4 pages).destroyAddressSpace pml4

end State

section Drift

open Pmm

theorem State.drift_getOrCreateTable (st : State) (table index flags : Nat) :
    (st.getOrCreateTable table index flags).1.pmm.drift = st.pmm.drift := by
  unfold State.getOrCreateTable
  dsimp only
  split
  · rfl
  · split
    · exact drift_allocFrame st.pmm
    · exact drift_allocFrame st.pmm

theorem State.drift_descend (st : State) (table index flags : Nat) :
    (st.descend table index flags).1.pmm.drift = st.pmm.drift := by
  unfold State.descend
  split
  · rfl
  · exact st.drift_getOrCreateTable table index flags

theorem State.drift_mapPageIn (st : State)
    (pml4 virtAddr physAddr flags : Nat) :
    (st.mapPageIn pml4 virtAddr physAddr flags).1.pmm.drift =
      st.pmm.drift := by
  have hpdpt := st.drift_getOrCreateTable pml4 (pml4Index virtAddr) flags
  unfold State.mapPageIn
  split
  · rfl
  · dsimp only
    generalize st.getOrCreateTable pml4 (pml4Index virtAddr) flags = first at *
    have hpd := first.1.drift_descend first.2 (pdptIndex virtAddr) flags
    split
    · exact hpdpt
    · generalize first.1.descend first.2 (pdptIndex virtAddr) flags = second
        at *
      have hpt := second.1.drift_descend second.2 (pdIndex virtAddr) flags
      split
      · exact hpd.trans hpdpt
      · split <;> exact hpt.trans (hpd.trans hpdpt)

theorem State.drift_createAddressSpace (st : State) :
    st.createAddressSpace.1.pmm.drift = st.pmm.drift := by
  have hfirst := drift_allocFrame st.pmm
  have hsecond := drift_allocFrame st.pmm.allocFrame.1
  unfold State.createAddressSpace
  dsimp only
  split
  · rfl
  · split
    · exact hfirst
    · split
      · exact (drift_freeFrame _ _).trans (hsecond.trans hfirst)
      · exact hsecond.trans hfirst

theorem State.drift_mapFresh (st : State) (pml4 virtAddr flags : Nat) :
    (st.mapFresh pml4 virtAddr flags).pmm.drift = st.pmm.drift := by
  have halloc := drift_allocFrame st.pmm
  unfold State.mapFresh
  dsimp only
  split
  · exact halloc
  · have hmap := State.drift_mapPageIn { st with pmm := st.pmm.allocFrame.1 }
      pml4 virtAddr st.pmm.allocFrame.2 flags
    split
    · exact hmap.trans halloc
    · exact (drift_freeFrame _ _).trans (hmap.trans halloc)

theorem State.drift_mapAll (st : State) (pml4 : Nat)
    (pages : List (Nat × Nat)) :
    (st.mapAll pml4 pages).pmm.drift = st.pmm.drift := by
  induction pages generalizing st with
  | nil => rfl
  | cons page rest ih =>
      rw [State.mapAll, List.foldl_cons]
      exact (ih _).trans (st.drift_mapFresh pml4 page.1 page.2)

theorem State.drift_lifetime (st : State) (pages : List (Nat × Nat)) :
    (st.lifetime pages).pmm.drift = st.pmm.drift := by
  have hcreate := st.drift_createAddressSpace
  unfold State.lifetime
  dsimp only
  split
  · exact hcreate
  · rw [State.destroyAddressSpace_eq]
    exact (drift_foldl_freeFrame _ _).trans
      ((State.drift_mapAll _ _ _).trans hcreate)

end Drift

variable {st st' : State} {root frame virtAddr flags : Nat}
  {label label' : Nat → Option Path}

variable {pmm : Pmm}

theorem Space.withPmm (hspace : Space st root label)
    (hused : ∀ frame, Owns st root label frame →
      pmm.used (frame / 4096) = true)
    (hzero : pmm.used 0 = true) :
    Space { st with pmm := pmm } root label := by
  have hboth : Space { st with pmm := pmm } root label ∧
      PagesSame st { st with pmm := pmm } root :=
    hspace.undisturbed (fun _ _ _ _ => rfl) hused hzero
  exact hboth.1

theorem mem_namesOn_tree {l : Path} :
    l ∈ namesOn (treeScheme root) [] virtAddr ↔
      l ≠ [] ∧ l <+: tablePath virtAddr := by
  refine ⟨?_, fun ⟨hne, hinitial⟩ => ⟨l, hne, hinitial, ?_⟩⟩
  · rintro ⟨front, hne, hinitial, rfl⟩
    rw [treeScheme_follow, List.nil_append]
    exact ⟨hne, hinitial⟩
  · rw [treeScheme_follow, List.nil_append]

/-- What a page of its own does to an address space.  Tables appear on the way
to the page if there is a frame left for one besides the page's own. -/
structure Mapped (st st' : State) (root virtAddr : Nat)
    (label label' : Nat → Option Path) : Prop where
  space : Space st' root label'
  labels : ∀ {frame l}, label frame = some l → label' frame = some l
  named : ∀ {frame l}, label' frame = some l → label frame = some l ∨
    2 ≤ Pmm.clearCount st.pmm.used ∧ st.pmm.used (frame / 4096) = false ∧
      l ≠ [] ∧ l <+: tablePath virtAddr
  begun : 2 ≤ Pmm.clearCount st.pmm.used → ∃ frame l,
    label' frame = some l ∧ l ≠ [] ∧ l <+: tablePath virtAddr
  page : (∃ rights frame, PageSet st st' root virtAddr rights ⟨frame, true⟩ ∧
      st.pmm.used (frame / 4096) = false) ∨
    PagesSame st st' root ∧ Pmm.clearCount st'.pmm.used ≤ 1
  kept : ∀ frame, st.pmm.used frame = true → st'.pmm.used frame = true
  taken : ∀ frame, st'.pmm.used frame = true →
    st.pmm.used frame = true ∨ Owns st' root label' (frame * 4096)

theorem two_le_clearCount {f g : Nat} (hclear : TwoClear pmm f g) :
    2 ≤ Pmm.clearCount pmm.used := by
  have hfirst := Pmm.clearCount_set hclear.first hclear.clear
  have hclear' : (pmm.take f).used g = false :=
    (Pmm.used_take_of_ne hclear.ne.symm).trans hclear.clear'
  have hsecond := Pmm.clearCount_set hclear.second hclear'
  simp only [Pmm.take] at hsecond
  omega

theorem Exhausted.clearCount_eq (hfull : Exhausted pmm) :
    Pmm.clearCount pmm.used = 0 := by
  rw [Pmm.clearCount, Finset.card_eq_zero, Finset.filter_eq_empty_iff]
  intro frame hframe
  rw [hfull frame (Finset.mem_range.mp hframe)]
  decide

/-- Without a frame for the page nothing happens. -/
theorem Space.mapped_self (hspace : Space st root label)
    (hfull : Exhausted st.pmm) : Mapped st st root virtAddr label label where
  space := hspace
  labels hlabel := hlabel
  named hlabel := .inl hlabel
  begun hcount := by
    rw [hfull.clearCount_eq] at hcount
    omega
  page := .inr ⟨fun _ => rfl, by
    rw [hfull.clearCount_eq]
    omega⟩
  kept _ hused := hused
  taken _ hused := .inl hused

section Fresh

variable {n : Nat} (hspace : Space st root label)
  (hn : n < Pmm.managedFrames) (hclear : st.pmm.used n = false)

include hspace hn hclear

theorem Space.take :
    Space { st with pmm := st.pmm.take n } root label ∧
      Fresh { st with pmm := st.pmm.take n } root label (n * 4096) := by
  refine ⟨hspace.withPmm (fun frame howns => ?_) ?_, ?_, ?_, ?_⟩
  · exact Pmm.used_take_of_used (hspace.reserved_of_under howns).used
  · exact Pmm.used_take_of_used hspace.tables.zero
  · exact .of_taken hspace.tables.zero hn hclear (Pmm.used_take_self ..)
  · exact hspace.tables.unlabelled hclear
  · intro path rights hmaps
    have hmaps' : Maps st root path rights ⟨n * 4096, true⟩ := hmaps
    have hused := (hspace.owned hmaps').1.used
    rw [Nat.mul_div_cancel _ (by decide), hclear] at hused
    cases hused

omit hspace in
/-- New tables lie in frames other than the page's. -/
theorem named_take {new : Set Path}
    (hextends : Extends (treeScheme root) hideKernel new
      { st with pmm := st.pmm.take n } label st' label') {l : Path}
    (hlabel : label' frame = some l) : label frame = some l ∨
      2 ≤ Pmm.clearCount st.pmm.used ∧ st.pmm.used (frame / 4096) = false ∧
        l ∈ new := by
  rcases hextends.named hlabel with hold | ⟨_, hused, hnew⟩
  · exact .inl hold
  · have hne : frame / 4096 ≠ n := by
      intro heq
      rw [heq, Pmm.used_take_self] at hused
      cases hused
    rw [Pmm.used_take_of_ne hne] at hused
    have hreserved := hextends.tables.reserved hlabel
    have hlt : frame / 4096 < Pmm.managedFrames := by
      have hmanaged := hreserved.managed
      simp only [Pmm.managedFrames, Pmm.managedLimit, Pmm.frameSize]
        at hmanaged ⊢
      omega
    exact .inr ⟨two_le_clearCount ⟨hn, hlt, hclear, hused, hne.symm⟩, hused,
      hnew⟩

omit hspace hn hclear in
/-- What is taken while a page is mapped: its frame and tables. -/
theorem taken_cases {new : Set Path} {n other : Nat}
    (hextends : Extends (treeScheme root) hideKernel new
      { st with pmm := st.pmm.take n } label st' label')
    (hused : st'.pmm.used other = true) : st.pmm.used other = true ∨
      other = n ∨ ∃ l, label' (other * 4096) = some l := by
  rw [hextends.used, Bool.or_eq_true, Option.isSome_iff_exists] at hused
  rcases hused with hused | hlabel
  · by_cases heq : other = n
    · exact .inr (.inl heq)
    · rw [Pmm.used_take_of_ne heq] at hused
      exact .inl hused
  · exact .inr (.inr hlabel)

variable
  (hextends : Extends (treeScheme root) hideKernel
    (namesOn (treeScheme root) [] virtAddr)
    { st with pmm := st.pmm.take n } label st' label')
  (hspace' : Space st' root label')

include hextends hspace'

theorem Space.mapped_set {rights : Rights}
    (hset : PageSet st st' root virtAddr rights ⟨n * 4096, true⟩) :
    Mapped st st' root virtAddr label label' where
  space := hspace'
  labels := hextends.labels
  named hlabel := by
    simpa only [mem_namesOn_tree] using named_take hn hclear hextends hlabel
  begun _ := by
    have hmaps : Maps st' root (vaPath virtAddr) rights ⟨n * 4096, true⟩ := by
      rw [hset.maps_iff hspace, if_pos rfl]
      exact ⟨rfl, rfl⟩
    have hfront : [pml4Index virtAddr] <+: vaPath virtAddr :=
      List.prefix_append _ _
    obtain ⟨table, htable⟩ :=
      hspace'.label_of_maps hmaps hfront (by simp [vaPath])
    exact ⟨table, _, htable, by simp, List.prefix_append _ _⟩
  page := .inl ⟨rights, n * 4096, hset, by
    rwa [Nat.mul_div_cancel _ (by decide)]⟩
  kept other hused := by
    rw [hextends.used, Pmm.used_take_of_used hused, Bool.true_or]
  taken other hused := by
    rcases taken_cases hextends hused with hold | rfl | ⟨l, hlabel⟩
    · exact .inl hold
    · refine .inr (.inr ⟨vaPath virtAddr, rights, ?_, List.nil_prefix⟩)
      rw [hset.maps_iff hspace, if_pos rfl]
      exact ⟨rfl, rfl⟩
    · exact .inr (.inl ⟨l, hlabel, List.nil_prefix⟩)

omit hspace' in
/-- If all frames are gone in the end, the last one has become a table. -/
theorem Space.begun_of_exhausted (hfull : Exhausted st'.pmm)
    (hcount : 2 ≤ Pmm.clearCount st.pmm.used) : ∃ frame l,
      label' frame = some l ∧ l ≠ [] ∧ l <+: tablePath virtAddr := by
  have hleft : ¬ Exhausted (st.pmm.take n) := by
    intro hnone
    have hset := Pmm.clearCount_set hn hclear
    have hzero := hnone.clearCount_eq
    simp only [Pmm.take] at hzero
    omega
  simp only [Exhausted, not_forall] at hleft
  obtain ⟨m, hm, hclear'⟩ := hleft
  have hused := hfull m hm
  rw [hextends.used, Bool.or_eq_true, Option.isSome_iff_exists] at hused
  obtain ⟨l, hlabel⟩ := hused.resolve_left hclear'
  rcases hextends.named hlabel with hold | ⟨_, _, hnew⟩
  · have hused := (hspace.tables.reserved hold).used
    rw [Nat.mul_div_cancel _ (by decide)] at hused
    exact absurd (Pmm.used_take_of_used hused) hclear'
  · exact ⟨m * 4096, l, hlabel, mem_namesOn_tree.mp hnew⟩

/-- The page's frame is given back. -/
theorem Space.mapped_free (hsame : PagesSame st st' root)
    (hfull : Exhausted st'.pmm) :
    Mapped st (st'.free (n * 4096)) root virtAddr label label' := by
  have hfresh := (hspace.take hn hclear).2
  have hused : st'.pmm.used n = true := hfull n hn
  have hfree : st'.free (n * 4096) =
      { st' with pmm := st'.pmm.give n } := by
    rw [State.free, ← Pmm.freeFrame_of_used hn hused, Pmm.frameSize]
  have hother : ∀ frame ≠ n, (st'.pmm.give n).used frame =
      st'.pmm.used frame := fun frame hne => Function.update_of_ne hne ..
  have hne : ∀ frame, Owns st' root label' frame → frame / 4096 ≠ n := by
    intro frame howns heq
    have haligned := (hspace'.reserved_of_under howns).aligned
    obtain rfl : frame = n * 4096 := by omega
    rcases howns with ⟨l, hlabel, _⟩ | ⟨path, rights, hmaps, _⟩
    · rw [hextends.unlabelled hfresh.reserved.used hfresh.unlabelled]
        at hlabel
      cases hlabel
    · exact hfresh.unmapped path rights (hsame.maps_iff.mp hmaps)
  rw [hfree]
  refine
    { space := hspace'.withPmm (fun frame howns => ?_) ?_
      labels := hextends.labels
      named := fun hlabel => ?_
      begun := fun hcount => ?_
      page := .inr ⟨hsame, ?_⟩
      kept := fun frame hkept => ?_
      taken := fun frame htaken => ?_ }
  · rw [hother _ (hne frame howns)]
    exact (hspace'.reserved_of_under howns).used
  · rw [hother]
    · exact hspace'.tables.zero
    · rintro rfl
      exact hfresh.reserved.nonzero rfl
  · simpa only [mem_namesOn_tree] using named_take hn hclear hextends hlabel
  · exact hspace.begun_of_exhausted hn hclear hextends hfull hcount
  · have hcount := Pmm.clearCount_clear hn hused
    rw [hfull.clearCount_eq] at hcount
    exact hcount.le
  · rw [hother, hextends.used, Pmm.used_take_of_used hkept, Bool.true_or]
    rintro rfl
    rw [hclear] at hkept
    cases hkept
  · have hframe : frame ≠ n := by
      rintro rfl
      simp [Pmm.give] at htaken
    rw [hother _ hframe] at htaken
    rcases taken_cases hextends htaken with hold | heq | ⟨l, hlabel⟩
    · exact .inl hold
    · exact absurd heq hframe
    · exact .inr (.inl ⟨l, hlabel, List.nil_prefix⟩)

end Fresh

theorem Space.mapFresh (hspace : Space st root label)
    (hslot : ¬ KernelSlot virtAddr) (hflags : Plain flags)
    (howned : flags.testBit 9 = true) (hva : virtAddr % 4096 = 0) :
    ∃ label', Mapped st (st.mapFresh root virtAddr flags) root virtAddr label
      label' := by
  unfold State.mapFresh
  rcases st.pmm.allocFrame_cases with ⟨n, hn, hclear, halloc⟩ | ⟨hfull, halloc⟩
  · obtain ⟨htaken, hfresh⟩ := hspace.take hn hclear
    have hlt : n * 4096 < 2 ^ 52 := (managed_of_lt hn).trans (by decide)
    simp only [halloc, Pmm.frameSize, if_neg hfresh.reserved.nonzero]
    obtain ⟨label', hspace', hextends, hcases⟩ := htaken.mapPageIn hslot hflags
      hlt hva (Nat.mul_mod_left _ _) fun _ => hfresh
    refine ⟨label', ?_⟩
    generalize State.mapPageIn { st with pmm := st.pmm.take n } root virtAddr
      (n * 4096) flags = result at *
    rcases hcases with ⟨hfalse, hsame, hfull⟩ | ⟨htrue, hset⟩
    · rw [hfalse]
      exact hspace.mapped_free hn hclear hextends hspace' hsame hfull
    · rw [htrue, if_pos rfl]
      rw [howned] at hset
      exact hspace.mapped_set hn hclear hextends hspace' hset
  · simp only [halloc, if_true]
    exact ⟨label, hspace.mapped_self hfull⟩

variable {before : Pmm} {done : List Nat}

/-- What has been taken since `before` goes with the address space. -/
structure Accounts (before : Pmm) (st : State) (root : Nat)
    (label : Nat → Option Path) : Prop where
  space : Space st root label
  kept : ∀ frame, before.used frame = true → st.pmm.used frame = true
  taken : ∀ frame, st.pmm.used frame = true →
    before.used frame = true ∨ Owns st root label (frame * 4096)
  fresh : ∀ frame, Owns st root label (frame * 4096) →
    before.used frame = false

theorem Accounts.step (haccounts : Accounts before st root label)
    (hspace : Space st' root label')
    (hkept : ∀ frame, st.pmm.used frame = true → st'.pmm.used frame = true)
    (htaken : ∀ frame, st'.pmm.used frame = true →
      st.pmm.used frame = true ∨ Owns st' root label' (frame * 4096))
    (howns : ∀ frame, Owns st root label frame → Owns st' root label' frame)
    (hfresh : ∀ frame, Owns st' root label' frame →
      Owns st root label frame ∨ st.pmm.used (frame / 4096) = false) :
    Accounts before st' root label' where
  space := hspace
  kept frame hused := hkept frame (haccounts.kept frame hused)
  taken frame hused := by
    rcases htaken frame hused with hold | hnew
    · exact (haccounts.taken frame hold).imp_right (howns _)
    · exact .inr hnew
  fresh frame hframe := by
    rcases hfresh _ hframe with hold | hclear
    · exact haccounts.fresh frame hold
    · rw [Nat.mul_div_cancel _ (by decide)] at hclear
      by_contra hused
      rw [haccounts.kept frame (Bool.eq_true_of_not_eq_false hused)] at hclear
      cases hclear

/-- All that the address space has is there for the addresses in `done`.
Unless frames have run out, each of them has its page. -/
structure Progress (before : Pmm) (done : List Nat) (st : State) (root : Nat)
    (label : Nat → Option Path) : Prop
    extends Accounts before st root label where
  first : ∃ frame, label frame = some [0]
  tables : ∀ {frame l}, label frame = some l → l = [] ∨ l = [0] ∨
    ∃ virtAddr ∈ done, l ≠ [] ∧ l <+: tablePath virtAddr
  pages : ∀ {path rights page}, Maps st root path rights page →
    ∃ virtAddr ∈ done, path = vaPath virtAddr
  complete : Pmm.clearCount st.pmm.used ≤ 1 ∨ ∀ virtAddr ∈ done,
    ∃ rights frame, Maps st root (vaPath virtAddr) rights ⟨frame, true⟩

section

variable (hmapped : Mapped st st' root virtAddr label label')

include hmapped

theorem Mapped.maps_cases (hspace : Space st root label) {path : Path}
    {rights : Rights} {page : Page} (hmaps : Maps st' root path rights page) :
    Maps st root path rights page ∨ path = vaPath virtAddr ∧
      st.pmm.used (page.frame / 4096) = false := by
  rcases hmapped.page with ⟨rights', frame, hset, hclear⟩ | ⟨hsame, _⟩
  · rw [hset.maps_iff hspace] at hmaps
    split at hmaps
    · rename_i hpath
      rw [hmaps.2]
      exact .inr ⟨hpath, hclear⟩
    · exact .inl hmaps
  · exact .inl (hsame.maps_iff.mp hmaps)

theorem Mapped.maps_old (hspace : Space st root label) {path : Path}
    {rights : Rights} {page : Page} (hmaps : Maps st root path rights page)
    (hne : path ≠ vaPath virtAddr) : Maps st' root path rights page := by
  rcases hmapped.page with ⟨rights', frame, hset, hclear⟩ | ⟨hsame, _⟩
  · rw [hset.maps_iff hspace, if_neg hne]
    exact hmaps
  · exact hsame.maps_iff.mpr hmaps

theorem Mapped.clearCount_le :
    Pmm.clearCount st'.pmm.used ≤ Pmm.clearCount st.pmm.used := by
  rw [Pmm.clearCount_eq_add hmapped.kept]
  exact Nat.le_add_right _ _

theorem Progress.accounts_mapped
    (hprogress : Progress before done st root label)
    (hnew : ∀ other ∈ done, vaPath other ≠ vaPath virtAddr) :
    Accounts before st' root label' := by
  refine hprogress.toAccounts.step hmapped.space hmapped.kept hmapped.taken
    (fun frame howns => ?_) (fun frame howns => ?_)
  · rcases howns with ⟨l, hlabel, hl⟩ | ⟨path, rights, hmaps, hpath⟩
    · exact .inl ⟨l, hmapped.labels hlabel, hl⟩
    · obtain ⟨other, hother, rfl⟩ := hprogress.pages hmaps
      exact .inr ⟨_, rights, hmapped.maps_old hprogress.space hmaps
        (hnew other hother), hpath⟩
  · rcases howns with ⟨l, hlabel, hl⟩ | ⟨path, rights, hmaps, hpath⟩
    · rcases hmapped.named hlabel with hold | ⟨_, hclear, _⟩
      · exact .inl (.inl ⟨l, hold, hl⟩)
      · exact .inr hclear
    · rcases hmapped.maps_cases hprogress.space hmaps with hold | ⟨_, hclear⟩
      · exact .inl (.inr ⟨path, rights, hold, hpath⟩)
      · exact .inr hclear

theorem Progress.mapped (hprogress : Progress before done st root label)
    (hnew : ∀ other ∈ done, vaPath other ≠ vaPath virtAddr) :
    Progress before (done ++ [virtAddr]) st' root label' where
  toAccounts := hprogress.accounts_mapped hmapped hnew
  first := hprogress.first.imp fun _ => hmapped.labels
  tables := by
    intro frame l hlabel
    rcases hmapped.named hlabel with hold | ⟨_, _, hnew⟩
    · rcases hprogress.tables hold with hroot | hfirst | ⟨other, hmem, hl⟩
      · exact .inl hroot
      · exact .inr (.inl hfirst)
      · exact .inr (.inr ⟨other, List.mem_append_left _ hmem, hl⟩)
    · exact .inr (.inr ⟨virtAddr, by simp, hnew⟩)
  pages := by
    intro path rights page hmaps
    rcases hmapped.maps_cases hprogress.space hmaps with hold | ⟨hpath, _⟩
    · obtain ⟨other, hmem, hpath⟩ := hprogress.pages hold
      exact ⟨other, List.mem_append_left _ hmem, hpath⟩
    · exact ⟨virtAddr, by simp, hpath⟩
  complete := by
    have hle := hmapped.clearCount_le
    rcases hprogress.complete with hcount | hall
    · exact .inl (hle.trans hcount)
    · rcases hmapped.page with ⟨rights, frame, hset, _⟩ | ⟨_, hcount⟩
      · refine .inr fun other hother => ?_
        rcases List.mem_append.mp hother with hmem | hmem
        · obtain ⟨rights', frame', hmaps⟩ := hall other hmem
          exact ⟨rights', frame', hmapped.maps_old hprogress.space hmaps
            (hnew other hmem)⟩
        · obtain rfl := List.mem_singleton.mp hmem
          refine ⟨rights, frame, ?_⟩
          rw [hset.maps_iff hprogress.space, if_pos rfl]
          exact ⟨rfl, rfl⟩
      · exact .inl hcount

end

/-- A page that a process may have: in user space, and flagged as its own. -/
structure UserPage (virtAddr flags : Nat) : Prop where
  min : Elf.userSpaceMin ≤ virtAddr
  max : virtAddr < Elf.userSpaceMax
  aligned : virtAddr % 4096 = 0
  plain : Plain flags
  owned : hasFlag flags pageOwned = true

theorem UserPage.eq_of_vaPath {virtAddr' flags' : Nat}
    (huser : UserPage virtAddr flags) (huser' : UserPage virtAddr' flags')
    (hpath : vaPath virtAddr = vaPath virtAddr') : virtAddr = virtAddr' := by
  have hlt : Elf.userSpaceMax ≤ 2 ^ 48 := by decide
  have hsame := (vaPath_inj (huser.max.trans_le hlt)
    (huser'.max.trans_le hlt)).mp hpath
  have haligned := huser.aligned
  have haligned' := huser'.aligned
  omega

theorem not_kernelSlot_of_user (hmin : Elf.userSpaceMin ≤ virtAddr)
    (hmax : virtAddr < Elf.userSpaceMax) : ¬ KernelSlot virtAddr := by
  simp only [KernelSlot, pml4Index, pdptIndex, index_eq, Elf.userSpaceMin,
    Elf.userSpaceMax] at *
  omega

theorem Progress.mapAll {pages : List (Nat × Nat)}
    (hprogress : Progress before done st root label)
    (hpages : ∀ page ∈ pages, UserPage page.1 page.2)
    (hdistinct : ((done ++ pages.map Prod.fst).map vaPath).Nodup) :
    ∃ label', Progress before (done ++ pages.map Prod.fst)
        (st.mapAll root pages) root label' ∧
      (∀ {frame l}, label frame = some l → label' frame = some l) ∧
      (Pmm.clearCount st.pmm.used ≤ 1 → ∀ {frame l},
        label' frame = some l → label frame = some l) ∧
      (2 ≤ Pmm.clearCount st.pmm.used → ∀ page ∈ pages.head?, ∃ frame l,
        label' frame = some l ∧ l ≠ [] ∧ l <+: tablePath page.1) := by
  induction pages generalizing done st label with
  | nil =>
      rw [List.map_nil, List.append_nil]
      exact ⟨label, hprogress, id, fun _ _ _ => id,
        fun _ _ hpage => absurd hpage (by simp)⟩
  | cons page rest ih =>
      have hpage := hpages page (by simp)
      obtain ⟨label₁, hmapped⟩ := hprogress.space.mapFresh
        (not_kernelSlot_of_user hpage.min hpage.max) hpage.plain ((hasFlag_owned _).symm.trans
          hpage.owned) hpage.aligned
      have hsplit : done ++ (page :: rest).map Prod.fst =
          (done ++ [page.1]) ++ rest.map Prod.fst := by simp
      rw [hsplit] at hdistinct ⊢
      have hnew : ∀ other ∈ done, vaPath other ≠ vaPath page.1 := by
        intro other hother heq
        rw [List.map_append, List.map_append, List.append_assoc,
          List.nodup_append'] at hdistinct
        refine hdistinct.2.2 (List.mem_map_of_mem hother) ?_
        simp [heq]
      obtain ⟨label', hprogress', hlabels, hstuck, _⟩ :=
        ih (hprogress.mapped hmapped hnew)
          (fun page hpage => hpages page (List.mem_cons_of_mem _ hpage))
          hdistinct
      refine ⟨label', hprogress', fun hlabel => hlabels (hmapped.labels hlabel),
        fun hcount frame l hlabel => ?_, fun hcount first hfirst => ?_⟩
      · have hold := hstuck (hmapped.clearCount_le.trans hcount) hlabel
        refine (hmapped.named hold).resolve_right fun hnew => ?_
        omega
      · cases hfirst
        obtain ⟨frame, l, hlabel, hl⟩ := hmapped.begun hcount
        exact ⟨frame, l, hlabels hlabel, hl⟩

/-- All tables but the PML4 lie behind its first slot. -/
def Low (label : Nat → Option Path) : Prop :=
  ∀ frame l, label frame = some l → l = [] ∨ [0] <+: l

theorem Space.owns_low (hspace : Space st root label) (hlow : Low label)
    (howns : Owns st root label frame) :
    frame = root ∨ Under st root label [0] frame := by
  rcases howns with ⟨l, hlabel, _⟩ | ⟨path, rights, hmaps, _⟩
  · rcases hlow frame l hlabel with rfl | hl
    · exact .inl (hspace.tables.labelled.anchored hlabel rfl)
    · exact .inr (.inl ⟨l, hlabel, hl⟩)
  · have hlength := hspace.small hmaps
    simp only [List.length_nil] at hlength
    cases path with
    | nil => cases hlength
    | cons i rest =>
        obtain ⟨table, htable⟩ := hspace.label_of_maps hmaps
          (List.prefix_append [i] rest) (by
            rintro heq
            rw [← heq] at hlength
            cases hlength)
        rcases hlow table _ htable with hnil | hfirst
        · cases hnil
        · obtain rfl : 0 = i := by simpa using hfirst
          exact .inr (.inr ⟨_, rights, hmaps, List.prefix_append [0] rest⟩)

/-- The bitmap is restored exactly when every table can be found from the first
slot. -/
theorem Accounts.destroy_iff (haccounts : Accounts before st root label) :
    (st.destroyAddressSpace root).pmm.used = before.used ↔ Low label := by
  have hspace := haccounts.space
  refine ⟨fun hsame frame l hlabel => ?_, fun hlow => ?_⟩
  · by_contra hne
    rw [not_or] at hne
    have hreserved := hspace.tables.reserved hlabel
    have hframe : frame / 4096 * 4096 = frame :=
      Nat.div_mul_cancel (Nat.dvd_of_mod_eq_zero hreserved.aligned)
    have howns : Owns st root label frame := .inl ⟨l, hlabel, List.nil_prefix⟩
    have hfresh := haccounts.fresh (frame / 4096) (by rwa [hframe])
    have hused : (st.destroyAddressSpace root).pmm.used (frame / 4096) =
        true := by
      rw [hspace.used_destroy, hframe]
      refine ⟨hreserved.used, ?_, ?_⟩
      · rintro rfl
        rw [hspace.rooted] at hlabel
        exact hne.1 (Option.some.inj hlabel).symm
      · rintro (⟨l', hlabel', hl'⟩ | ⟨path, rights, hmaps, _⟩)
        · rw [hlabel] at hlabel'
          cases hlabel'
          exact hne.2 hl'
        · rw [(hspace.owned hmaps).2] at hlabel
          cases hlabel
    rw [hsame, hfresh] at hused
    cases hused
  · funext frame
    rw [Bool.eq_iff_iff, hspace.used_destroy]
    refine ⟨fun ⟨hused, hroot, hunder⟩ => ?_, fun hused => ?_⟩
    · refine (haccounts.taken frame hused).resolve_right fun howns => ?_
      exact (hspace.owns_low hlow howns).elim hroot hunder
    · have hnot : ¬ Owns st root label (frame * 4096) := by
        intro howns
        rw [haccounts.fresh frame howns] at hused
        cases hused
      refine ⟨haccounts.kept frame hused, ?_, fun hunder => ?_⟩
      · rintro rfl
        exact hnot (.inl ⟨[], hspace.rooted, List.prefix_rfl⟩)
      · exact hnot (hunder.mono List.nil_prefix)

/-- The frames for pages below 512 GiB: their own, a page table for every
2 MiB that has one and a page directory for every 1 GiB. -/
def framesFor (addrs : List Nat) : Nat :=
  addrs.length + (addrs.map (· / 2 ^ 21)).dedup.length +
    (addrs.map (· / 2 ^ 30)).dedup.length

/-- The path of a page directory, of a page table and of a page. -/
def directoryPath (gig : Nat) : Path := [0, gig]

def tableIn (unit : Nat) : Path := [0, unit / 512, unit % 512]

def pageIn (page : Nat) : Path :=
  [0, page / 512 / 512, page / 512 % 512, page % 512]

/-- The paths of all that an address space has for some addresses. -/
def pathsFor (addrs : List Nat) : Finset Path :=
  {[], [0]} ∪ ((addrs.map (· / 2 ^ 30)).toFinset.image directoryPath ∪
    ((addrs.map (· / 2 ^ 21)).toFinset.image tableIn ∪
      (addrs.map (· / 2 ^ 12)).toFinset.image pageIn))

theorem card_pathsFor {addrs : List Nat}
    (hdistinct : (addrs.map (· / 2 ^ 12)).Nodup) :
    (pathsFor addrs).card = 2 + framesFor addrs := by
  have hdirectory : Function.Injective directoryPath := by
    intro a b h
    simpa [directoryPath] using h
  have htable : Function.Injective tableIn := by
    intro a b h
    simp only [tableIn, List.cons.injEq, and_true, true_and] at h
    omega
  have hpage : Function.Injective pageIn := by
    intro a b h
    simp only [pageIn, List.cons.injEq, and_true, true_and] at h
    omega
  unfold pathsFor framesFor
  rw [Finset.card_union_of_disjoint, Finset.card_union_of_disjoint,
    Finset.card_union_of_disjoint, Finset.card_image_of_injective _ hdirectory,
    Finset.card_image_of_injective _ htable,
    Finset.card_image_of_injective _ hpage, List.card_toFinset,
    List.card_toFinset, List.toFinset_card_of_nodup hdistinct,
    List.length_map]
  · have hpair : ({[], [0]} : Finset Path).card = 2 := by decide
    omega
  · rw [Finset.disjoint_left]
    simp only [Finset.mem_image]
    rintro _ ⟨a, _, rfl⟩ ⟨b, _, hb⟩
    simp [tableIn, pageIn] at hb
  · rw [Finset.disjoint_left]
    simp only [Finset.mem_image, Finset.mem_union]
    rintro _ ⟨a, _, rfl⟩ (⟨b, _, hb⟩ | ⟨b, _, hb⟩)
    · simp [tableIn, directoryPath] at hb
    · simp [pageIn, directoryPath] at hb
  · rw [Finset.disjoint_left]
    simp only [Finset.mem_insert, Finset.mem_singleton, Finset.mem_image,
      Finset.mem_union]
    rintro _ (rfl | rfl) (⟨b, _, hb⟩ | ⟨b, _, hb⟩ | ⟨b, _, hb⟩) <;>
      simp [directoryPath, tableIn, pageIn] at hb

theorem vaPath_low (hlt : virtAddr < 2 ^ 39) :
    vaPath virtAddr = pageIn (virtAddr / 2 ^ 12) := by
  simp only [vaPath, pageIn, pml4Index, pdptIndex, pdIndex, ptIndex, index_eq,
    List.cons.injEq, and_true]
  omega

theorem tablePath_low (hlt : virtAddr < 2 ^ 39) :
    tablePath virtAddr = tableIn (virtAddr / 2 ^ 21) := by
  simp only [tablePath, tableIn, pml4Index, pdptIndex, pdIndex, index_eq,
    List.cons.injEq, and_true]
  omega

theorem directoryPath_eq (virtAddr : Nat) :
    directoryPath (virtAddr / 2 ^ 30) =
      (tableIn (virtAddr / 2 ^ 21)).take 2 := by
  simp only [directoryPath, tableIn, List.take_succ_cons, List.take_zero,
    List.cons.injEq, and_true, true_and]
  omega

section Count

variable (hlow : ∀ virtAddr ∈ done, virtAddr < 2 ^ 39)

include hlow

theorem mem_pathsFor_of_table {l : Path} (hmem : virtAddr ∈ done)
    (hne : l ≠ []) (hinitial : l <+: tablePath virtAddr) :
    l ∈ pathsFor done := by
  rw [tablePath_low (hlow virtAddr hmem)] at hinitial
  have hlength := hinitial.length_le
  have hpos := List.length_pos_iff.mpr hne
  have htake := List.prefix_iff_eq_take.mp hinitial
  have hcases : l.length = 1 ∨ l.length = 2 ∨ l.length = 3 := by
    simp only [tableIn, List.length_cons, List.length_nil] at hlength
    omega
  simp only [pathsFor, Finset.mem_union, Finset.mem_insert,
    Finset.mem_singleton, Finset.mem_image, List.mem_toFinset, List.mem_map]
  rcases hcases with hone | htwo | hthree
  · rw [hone] at htake
    exact .inl (.inr htake)
  · rw [htwo, ← directoryPath_eq] at htake
    exact .inr (.inl ⟨_, ⟨virtAddr, hmem, rfl⟩, htake.symm⟩)
  · rw [hthree] at htake
    exact .inr (.inr (.inl ⟨_, ⟨virtAddr, hmem, rfl⟩, htake.symm⟩))

theorem mem_pathsFor_of_page (hmem : virtAddr ∈ done) :
    vaPath virtAddr ∈ pathsFor done := by
  rw [vaPath_low (hlow virtAddr hmem)]
  simp only [pathsFor, Finset.mem_union, Finset.mem_image, List.mem_toFinset,
    List.mem_map]
  exact .inr (.inr (.inr ⟨_, ⟨virtAddr, hmem, rfl⟩, rfl⟩))

theorem mem_pathsFor_cases {path : Path} (hpath : path ∈ pathsFor done) :
    path = [] ∨ path = [0] ∨ ∃ virtAddr ∈ done, path <+: vaPath virtAddr := by
  simp only [pathsFor, Finset.mem_union, Finset.mem_insert,
    Finset.mem_singleton, Finset.mem_image, List.mem_toFinset, List.mem_map]
    at hpath
  rcases hpath with (hnil | hfirst) | ⟨_, ⟨virtAddr, hmem, rfl⟩, rfl⟩ |
    ⟨_, ⟨virtAddr, hmem, rfl⟩, rfl⟩ | ⟨_, ⟨virtAddr, hmem, rfl⟩, rfl⟩
  · exact .inl hnil
  · exact .inr (.inl hfirst)
  · refine .inr (.inr ⟨virtAddr, hmem, ?_⟩)
    rw [directoryPath_eq, ← tablePath_low (hlow virtAddr hmem), vaPath_eq]
    exact (List.take_prefix _ _).trans (List.prefix_append _ _)
  · refine .inr (.inr ⟨virtAddr, hmem, ?_⟩)
    rw [← tablePath_low (hlow virtAddr hmem), vaPath_eq]
    exact List.prefix_append _ _
  · refine .inr (.inr ⟨virtAddr, hmem, ?_⟩)
    rw [vaPath_low (hlow virtAddr hmem)]

end Count

/-- A frame is the table or the owned page at a path. -/
def Holds (st : State) (root : Nat) (label : Nat → Option Path)
    (frame : Nat) (path : Path) : Prop :=
  label frame = some path ∨ ∃ rights, Maps st root path rights ⟨frame, true⟩

theorem owns_iff_holds :
    Owns st root label frame ↔ ∃ path, Holds st root label frame path := by
  refine ⟨?_, ?_⟩
  · rintro (⟨l, hlabel, _⟩ | ⟨path, rights, hmaps, _⟩)
    · exact ⟨l, .inl hlabel⟩
    · exact ⟨path, .inr ⟨rights, hmaps⟩⟩
  · rintro ⟨path, hlabel | ⟨rights, hmaps⟩⟩
    · exact .inl ⟨path, hlabel, List.nil_prefix⟩
    · exact .inr ⟨path, rights, hmaps, List.nil_prefix⟩

theorem Space.holds_path_inj (hspace : Space st root label) {path path' : Path}
    (hholds : Holds st root label frame path)
    (hholds' : Holds st root label frame path') : path = path' := by
  rcases hholds with hlabel | ⟨rights, hmaps⟩ <;>
    rcases hholds' with hlabel' | ⟨rights', hmaps'⟩
  · rw [hlabel] at hlabel'
    exact Option.some.inj hlabel'
  · rw [(hspace.owned hmaps').2] at hlabel
    cases hlabel
  · rw [(hspace.owned hmaps).2] at hlabel'
    cases hlabel'
  · exact hspace.distinct hmaps hmaps'

theorem Space.holds_frame_inj (hspace : Space st root label) {path : Path}
    {frame' : Nat} (hholds : Holds st root label frame path)
    (hholds' : Holds st root label frame' path) : frame = frame' := by
  have hdisjoint : ∀ {table page rights}, label table = some path →
      ¬ Maps st root path rights page := by
    intro table page rights htable hmaps
    rw [← List.append_nil path, hspace.maps_iff htable] at hmaps
    cases hmaps
  rcases hholds with hlabel | ⟨rights, hmaps⟩ <;>
    rcases hholds' with hlabel' | ⟨rights', hmaps'⟩
  · exact hspace.tables.labelled.label_inj hlabel hlabel'
  · exact absurd hmaps' (hdisjoint hlabel)
  · exact absurd hmaps (hdisjoint hlabel')
  · rw [Maps, hmaps] at hmaps'
    simp only [Option.some.injEq, Prod.mk.injEq, Page.mk.injEq] at hmaps'
    exact hmaps'.2.1.1

/-- The frames that have been taken since `before`. -/
def takenSince (before pmm : Pmm) : Finset Nat :=
  (Finset.range Pmm.managedFrames).filter fun frame =>
    before.used frame = false ∧ pmm.used frame = true

section Taken

variable (hprogress : Progress before done st root label)
  (hlow : ∀ virtAddr ∈ done, virtAddr < 2 ^ 39)

include hprogress

theorem Progress.mem_takenSince :
    frame ∈ takenSince before st.pmm ↔ Owns st root label (frame * 4096) := by
  rw [takenSince, Finset.mem_filter, Finset.mem_range]
  refine ⟨fun ⟨_, hclear, hused⟩ => ?_, fun howns => ?_⟩
  · refine (hprogress.taken frame hused).resolve_left fun hbefore => ?_
    rw [hclear] at hbefore
    cases hbefore
  · have hreserved := hprogress.space.reserved_of_under howns
    have hmanaged := hreserved.managed
    have hused := hreserved.used
    rw [Nat.mul_div_cancel _ (by decide)] at hused
    refine ⟨?_, hprogress.fresh frame howns, hused⟩
    simp only [Pmm.managedFrames, Pmm.managedLimit, Pmm.frameSize]
      at hmanaged ⊢
    omega

include hlow

theorem Progress.mem_pathsFor {path : Path}
    (hholds : Holds st root label frame path) : path ∈ pathsFor done := by
  rcases hholds with hlabel | ⟨rights, hmaps⟩
  · rcases hprogress.tables hlabel with rfl | rfl | ⟨_, hmem, hne, hinitial⟩
    · simp [pathsFor]
    · simp [pathsFor]
    · exact mem_pathsFor_of_table hlow hmem hne hinitial
  · obtain ⟨_, hmem, rfl⟩ := hprogress.pages hmaps
    exact mem_pathsFor_of_page hlow hmem

theorem Progress.card_le :
    (takenSince before st.pmm).card ≤ (pathsFor done).card := by
  refine Finset.card_le_card_of_forall_subsingleton
    (fun frame path => Holds st root label (frame * 4096) path) ?_ ?_
  · intro frame hframe
    obtain ⟨path, hholds⟩ :=
      owns_iff_holds.mp (hprogress.mem_takenSince.mp hframe)
    exact ⟨path, hprogress.mem_pathsFor hlow hholds, hholds⟩
  · rintro path _ frame ⟨_, hholds⟩ frame' ⟨_, hholds'⟩
    have heq := hprogress.space.holds_frame_inj hholds hholds'
    omega

theorem Progress.le_card
    (hall : ∀ virtAddr ∈ done, ∃ rights frame,
      Maps st root (vaPath virtAddr) rights ⟨frame, true⟩) :
    (pathsFor done).card ≤ (takenSince before st.pmm).card := by
  have hholds : ∀ path ∈ pathsFor done, ∃ frame,
      Holds st root label frame path := by
    intro path hpath
    rcases mem_pathsFor_cases hlow hpath with rfl | rfl |
      ⟨virtAddr, hmem, hinitial⟩
    · exact ⟨root, .inl hprogress.space.rooted⟩
    · exact hprogress.first.imp fun _ => .inl
    · obtain ⟨rights, frame, hmaps⟩ := hall virtAddr hmem
      by_cases heq : path = vaPath virtAddr
      · rw [heq]
        exact ⟨frame, .inr ⟨rights, hmaps⟩⟩
      · exact (hprogress.space.label_of_maps hmaps hinitial heq).imp
          fun _ => .inl
  refine Finset.card_le_card_of_forall_subsingleton
    (fun path frame => Holds st root label (frame * 4096) path) ?_ ?_
  · intro path hpath
    obtain ⟨frame, hframe⟩ := hholds path hpath
    have howns := owns_iff_holds.mpr ⟨path, hframe⟩
    have haligned := (hprogress.space.reserved_of_under howns).aligned
    rw [← Nat.div_mul_cancel (Nat.dvd_of_mod_eq_zero haligned)]
      at hframe howns
    exact ⟨_, hprogress.mem_takenSince.mpr howns, hframe⟩
  · rintro frame _ path ⟨_, hholds⟩ path' ⟨_, hholds'⟩
    exact hprogress.space.holds_path_inj hholds hholds'

/-- Two frames are left exactly when there were enough for all pages. -/
theorem Progress.two_le_iff (hdistinct : (done.map (· / 2 ^ 12)).Nodup) :
    2 ≤ Pmm.clearCount st.pmm.used ↔
      4 + framesFor done ≤ Pmm.clearCount before.used := by
  have hcount := Pmm.clearCount_eq_add hprogress.kept
  have hcard := card_pathsFor hdistinct
  have hle := hprogress.card_le hlow
  rw [takenSince] at hle
  refine ⟨fun htwo => ?_, fun henough => by omega⟩
  have hall := hprogress.complete.resolve_left (by omega)
  have hge := hprogress.le_card hlow hall
  rw [takenSince] at hge
  omega

end Taken

theorem Progress.new {f g e : Nat} (hzero : st.pmm.used 0 = true)
    (hclear : TwoClear st.pmm f g) (he : e < 2 ^ 64) :
    Progress st.pmm [] (st.planted f g e) (f * 4096) (newLabel f g) := by
  have hnone : ∀ {path rights page},
      ¬ Maps (st.planted f g e) (f * 4096) path rights page := by
    intro path rights page hmaps
    rw [Maps, find, find_new hclear he] at hmaps
    cases hmaps
  have hlabels : ∀ {frame l}, newLabel f g frame = some l →
      (frame = f * 4096 ∧ l = []) ∨ frame = g * 4096 ∧ l = [0] := by
    intro frame l hlabel
    rcases plantLabel_cases hlabel with hroot | htable | hold
    · exact .inl hroot
    · exact .inr htable
    · cases hold
  refine
    { space := .new hzero hclear he
      kept := fun frame hused => (used_planted hclear frame).mpr (.inl hused)
      taken := fun frame hused => ?_
      fresh := ?_
      first := ⟨g * 4096, plantLabel_table⟩
      tables := fun hlabel => ?_
      pages := fun hmaps => absurd hmaps hnone
      complete := .inr (by simp) }
  · rcases (used_planted hclear frame).mp hused with hold | rfl | rfl
    · exact .inl hold
    · exact .inr (.inl ⟨[], plantLabel_root hclear, List.prefix_rfl⟩)
    · exact .inr (.inl ⟨[0], plantLabel_table, List.nil_prefix⟩)
  · rintro frame (⟨l, hlabel, _⟩ | ⟨path, rights, hmaps, _⟩)
    · rcases hlabels hlabel with ⟨heq, _⟩ | ⟨heq, _⟩
      · obtain rfl : frame = f := by omega
        exact hclear.clear
      · obtain rfl : frame = g := by omega
        exact hclear.clear'
    · exact absurd hmaps hnone
  · rcases hlabels hlabel with ⟨_, hl⟩ | ⟨_, hl⟩
    · exact .inl hl
    · exact .inr (.inl hl)

theorem Progress.low (hprogress : Progress before done st root label)
    (hdone : ∀ virtAddr ∈ done, virtAddr < 2 ^ 39) : Low label := by
  intro frame l hlabel
  rcases hprogress.tables hlabel with hroot | rfl | ⟨other, hmem, hne, hl⟩
  · exact .inl hroot
  · exact .inr List.prefix_rfl
  · rw [tablePath_low (hdone other hmem), tableIn, List.prefix_cons_iff] at hl
    obtain ⟨rest, rfl, _⟩ := hl.resolve_left hne
    exact .inr (List.prefix_append [0] rest)

theorem not_low_of_high {l : Path} (hpage : UserPage virtAddr flags)
    (hhigh : 2 ^ 39 ≤ virtAddr) (hlabel : label frame = some l) (hne : l ≠ [])
    (hinitial : l <+: tablePath virtAddr) : ¬ Low label := by
  intro hlow
  rw [tablePath, List.prefix_cons_iff] at hinitial
  obtain ⟨rest, rfl, _⟩ := hinitial.resolve_left hne
  have hfirst := (hlow frame _ hlabel).resolve_left hne
  have hzero : 0 = pml4Index virtAddr := by simpa using hfirst
  have hmax := hpage.max
  simp only [pml4Index, index_eq, Elf.userSpaceMax] at hzero hmax
  omega

section Life

variable {pages : List (Nat × Nat)}
  (hpages : ∀ page ∈ pages, UserPage page.1 page.2)
  (hdistinct : (pages.map Prod.fst).Nodup)

include hpages hdistinct

theorem nodup_pages : ((pages.map Prod.fst).map (· / 2 ^ 12)).Nodup := by
  refine hdistinct.map_on ?_
  intro virtAddr hmem virtAddr' hmem' heq
  obtain ⟨page, hpage, rfl⟩ := List.mem_map.mp hmem
  obtain ⟨page', hpage', rfl⟩ := List.mem_map.mp hmem'
  have haligned := (hpages page hpage).aligned
  have haligned' := (hpages page' hpage').aligned
  omega

theorem nodup_vaPath : ((pages.map Prod.fst).map vaPath).Nodup := by
  refine hdistinct.map_on ?_
  intro virtAddr hmem virtAddr' hmem' heq
  obtain ⟨page, hpage, rfl⟩ := List.mem_map.mp hmem
  obtain ⟨page', hpage', rfl⟩ := List.mem_map.mp hmem'
  exact (hpages page hpage).eq_of_vaPath (hpages page' hpage') heq

/-- What counts is how many frames are left when the first address behind
another slot comes up. -/
theorem Progress.low_iff {front rest : List (Nat × Nat)}
    (hsplit : pages = front ++ rest)
    (hlow : ∀ page ∈ front, page.1 < 2 ^ 39)
    (hhigh : ∀ page ∈ rest.head?, 2 ^ 39 ≤ page.1)
    (hprogress : Progress before [] st root label) :
    ∃ label', Progress before (pages.map Prod.fst) (st.mapAll root pages) root
        label' ∧
      (Low label' ↔ rest = [] ∨ Pmm.clearCount before.used <
        4 + framesFor (front.map Prod.fst)) := by
  have hpaths := nodup_vaPath hpages hdistinct
  have hunits := nodup_pages hpages hdistinct
  have hlow' : ∀ virtAddr ∈ front.map Prod.fst, virtAddr < 2 ^ 39 := by
    intro virtAddr hmem
    obtain ⟨page, hpage, rfl⟩ := List.mem_map.mp hmem
    exact hlow page hpage
  subst hsplit
  rw [List.map_append, List.map_append, List.nodup_append'] at hpaths hunits
  obtain ⟨label₁, hprogress₁, _⟩ := hprogress.mapAll
    (fun page hpage => hpages page (List.mem_append_left _ hpage)) hpaths.1
  rw [List.nil_append] at hprogress₁
  obtain ⟨label', hprogress', _, hstuck, hbegun⟩ := hprogress₁.mapAll
    (fun page hpage => hpages page (List.mem_append_right _ hpage))
    (by rwa [List.map_append, List.nodup_append'])
  have hcount := hprogress₁.two_le_iff hlow' hunits.1
  rw [List.map_append, State.mapAll, List.foldl_append]
  refine ⟨label', hprogress', ?_⟩
  cases rest with
  | nil =>
      rw [List.map_nil, List.append_nil] at hprogress'
      simp [hprogress'.low hlow']
  | cons page rest =>
      simp only [reduceCtorEq, false_or]
      by_cases htwo : 2 ≤ Pmm.clearCount (st.mapAll root front).pmm.used
      · obtain ⟨frame, l, hlabel, hne, hl⟩ := hbegun htwo page rfl
        have hnot := not_low_of_high (hpages page (by simp)) (hhigh page rfl)
          hlabel hne hl
        have hmany := hcount.mp htwo
        exact iff_of_false hnot (by omega)
      · have hfew := mt hcount.mpr htwo
        refine iff_of_true (fun frame l hlabel => ?_) (by omega)
        exact hprogress₁.low hlow' frame l (hstuck (by omega) hlabel)

/-- The life of an address space that could be created. -/
theorem lifetime_created_iff {f g : Nat} (hzero : st.pmm.used 0 = true)
    (hclear : TwoClear st.pmm f g)
    (hcreate : st.createAddressSpace =
      (st.planted f g st.kernelSlot, f * 4096)) :
    (st.lifetime pages).pmm = st.pmm ↔ (∀ page ∈ pages, page.1 < 2 ^ 39) ∨
      Pmm.clearCount st.pmm.used < 4 + framesFor
        ((pages.map Prod.fst).takeWhile (· < 2 ^ 39)) := by
  have hslot : st.kernelSlot < 2 ^ 64 := entryAt_lt ..
  have hprogress := Progress.new hzero hclear hslot
  have hnonzero := (hprogress.space.tables.reserved
    hprogress.space.rooted).nonzero
  have hhigh : ∀ page ∈ (pages.dropWhile (·.1 < 2 ^ 39)).head?,
      2 ^ 39 ≤ page.1 := by
    intro page hpage
    have hnot := List.head?_dropWhile_not (fun page : Nat × Nat =>
      decide (page.1 < 2 ^ 39)) pages
    rw [Option.mem_def.mp hpage] at hnot
    simpa using hnot
  obtain ⟨label, hdone, hiff⟩ := hprogress.low_iff hpages hdistinct
    List.takeWhile_append_dropWhile.symm
    (fun page hpage => by simpa using List.mem_takeWhile_imp hpage) hhigh
  have hlife : st.lifetime pages = ((st.planted f g st.kernelSlot).mapAll
      (f * 4096) pages).destroyAddressSpace (f * 4096) := by
    simp only [State.lifetime, hcreate, if_neg hnonzero]
  have hused : (st.lifetime pages).pmm = st.pmm ↔
      (st.lifetime pages).pmm.used = st.pmm.used :=
    ⟨congrArg Pmm.used, Pmm.ext_of_drift (st.drift_lifetime pages)⟩
  rw [hused, hlife, hdone.toAccounts.destroy_iff, hiff, List.takeWhile_map,
    List.dropWhile_eq_nil_iff]
  simp only [decide_eq_true_eq]
  rfl

end Life

theorem two_clear_of_clearCount (hcount : 2 ≤ Pmm.clearCount pmm.used) :
    ∃ f g, TwoClear pmm f g := by
  obtain ⟨f, hf, g, hg, hne⟩ := Finset.one_lt_card.mp hcount
  rw [Finset.mem_filter, Finset.mem_range] at hf hg
  exact ⟨f, g, hf.1, hg.1, hf.2, hg.2, hne⟩

/-- The frame with address 0 is taken and counts as a failure. -/
theorem allocFrame_zero (hclear : pmm.used 0 = false) :
    pmm.allocFrame = (pmm.take 0, 0) := by
  have hfirst : Pmm.firstClear pmm.used Pmm.managedFrames 0 = some 0 := by
    rw [Pmm.managedFrames, Pmm.managedLimit, Pmm.frameSize, Pmm.firstClear]
    simp [hclear]
  simp only [Pmm.allocFrame, hfirst, Nat.zero_mul]

/-- An address space gives everything back unless a page of it lies at 512 GiB
or above and its tables could be had, or the first frame is lost. -/
theorem lifetime_restores_iff (st : State) (pages : List (Nat × Nat))
    (hpages : ∀ page ∈ pages, UserPage page.1 page.2)
    (hdistinct : (pages.map Prod.fst).Nodup) :
    (st.lifetime pages).pmm = st.pmm ↔
      hasFlag (st.entry (st.cr3 &&& addrMask) 0) pagePresent = false ∨
      st.pmm.used 0 = true ∧ ((∀ page ∈ pages, page.1 < 2 ^ 39) ∨
        Pmm.clearCount st.pmm.used < 4 + framesFor
          ((pages.map Prod.fst).takeWhile (· < 2 ^ 39))) := by
  rw [hasFlag_present]
  cases hzero : st.pmm.used 0 with
  | true =>
      rcases st.createAddressSpace_cases hzero with
        ⟨hresult, hreason⟩ | ⟨f, g, hclear, hpresent, hresult⟩
      · have hsame : st.lifetime pages = st := by
          simp [State.lifetime, hresult]
        refine iff_of_true (congrArg State.pmm hsame) ?_
        refine hreason.imp_right fun hfew => ⟨rfl, .inr ?_⟩
        by_contra hmany
        obtain ⟨f, g, hclear⟩ := two_clear_of_clearCount
          (show 2 ≤ Pmm.clearCount st.pmm.used by omega)
        exact hfew f g hclear
      · rw [lifetime_created_iff hpages hdistinct hzero hclear hresult,
          hpresent]
        simp
  | false =>
      cases hpresent : (st.entry (st.cr3 &&& addrMask) 0).testBit 0 with
      | false =>
          simp [State.lifetime, State.createAddressSpace, hpresent]
      | true =>
          have hlife : (st.lifetime pages).pmm = st.pmm.take 0 := by
            simp [State.lifetime, State.createAddressSpace, hpresent,
              allocFrame_zero hzero]
          rw [hlife]
          refine iff_of_false (fun hsame => ?_) (by simp)
          have hused := Pmm.used_take_self st.pmm 0
          rw [hsame, hzero] at hused
          cases hused

theorem userPage_first : UserPage 0x40000000 0x205 :=
  ⟨by decide, by decide, by decide, ⟨by decide, by decide⟩, by decide⟩

theorem lifetime_restores_bootState :
    (bootState.lifetime [(0x40000000, 0x205)]).pmm = bootState.pmm :=
  (lifetime_restores_iff bootState [(0x40000000, 0x205)]
    (by simpa using userPage_first) (by simp)).mpr
    (.inr ⟨rfl, .inl (by simp)⟩)

/-- The page at 512 GiB and its tables are never freed. -/
theorem lifetime_leaks_bootState :
    UserPage 0x8000000000 0x205 ∧
      (bootState.lifetime [(0x8000000000, 0x205)]).pmm ≠ bootState.pmm := by
  have hpage : UserPage 0x8000000000 0x205 :=
    ⟨by decide, by decide, by decide, ⟨by decide, by decide⟩, by decide⟩
  have hfour : 4 ≤ Pmm.clearCount bootState.pmm.used := by
    have hsubset : ({4, 5, 6, 7} : Finset Nat) ⊆
        (Finset.range Pmm.managedFrames).filter fun frame =>
          bootState.pmm.used frame = false := by
      intro frame hframe
      simp only [Finset.mem_insert, Finset.mem_singleton] at hframe
      rw [Finset.mem_filter, Finset.mem_range]
      rcases hframe with rfl | rfl | rfl | rfl <;> exact ⟨by decide, rfl⟩
    exact Finset.card_le_card hsubset
  refine ⟨hpage, ?_⟩
  rcases bootState.createAddressSpace_cases rfl with
    ⟨_, habsent | hfew⟩ | ⟨f, g, hclear, _, hresult⟩
  · have hpresent : (bootState.entry (bootState.cr3 &&& addrMask) 0).testBit 0 =
        true := by
      decide +kernel
    rw [hpresent] at habsent
    cases habsent
  · exact absurd ⟨by decide, by decide, rfl, rfl, by decide⟩ (hfew 4 5)
  · rw [Ne, lifetime_created_iff (by simpa using hpage) (by simp) rfl hclear
      hresult]
    simpa [framesFor] using hfour

end Paging

end VenomOS
