/-
Runs of the mapper over the boot tables.  What the processor makes of the
tables of an address space is a map from virtual pages to frames and rights;
map_page_in and unmap_page change it at one page or not at all.
-/
import VenomOS.PagingForest

namespace VenomOS

namespace Paging

open ByteMemory RadixTable

variable {st st' : State} {live live' : Set Nat}

/-- What the processor sees of a leaf that was found. -/
def toMapping (found : Rights × Page × Path) : Mapping :=
  ⟨found.2.1.frame + pageWithin found.2.2, found.1.1, found.1.2.1,
    !found.1.2.2⟩

theorem translate_eq_find {root : Nat} (hexact : Exact (view st.mem) root)
    (virtAddr : Nat) :
    translate st.mem root virtAddr =
      (find (view st.mem) root (vaPath virtAddr)).map toMapping := by
  rw [translate, hexact]
  rfl

theorem index_eq (virtAddr k : Nat) :
    (virtAddr >>> k) &&& 0x1FF = virtAddr / 2 ^ k % 512 := by
  rw [Nat.shiftRight_eq_div_pow]
  exact Nat.and_two_pow_sub_one_eq_mod _ 9

/-- Two addresses select the same entries exactly when they are in the same
page. -/
theorem vaPath_inj {virtAddr other : Nat} (hlt : virtAddr < 2 ^ 48)
    (hlt' : other < 2 ^ 48) :
    vaPath virtAddr = vaPath other ↔ virtAddr / 4096 = other / 4096 := by
  simp only [vaPath, pml4Index, pdptIndex, pdIndex, ptIndex, index_eq,
    List.cons.injEq, and_true]
  omega

theorem vaPath_isPrefix_iff {virtAddr other : Nat} (hlt : virtAddr < 2 ^ 48)
    (hlt' : other < 2 ^ 48) :
    vaPath virtAddr <+: vaPath other ↔ other / 4096 = virtAddr / 4096 := by
  rw [eq_comm, ← vaPath_inj hlt hlt']
  refine ⟨fun hinitial => hinitial.eq_of_length rfl, fun heq => ?_⟩
  rw [heq]

/-- The effective translation of the live trees is the same after the step. -/
def TranslationSame (st st' : State) (live : Set Nat) : Prop :=
  ∀ root ∈ live, ∀ virtAddr,
    translate st'.mem root virtAddr = translate st.mem root virtAddr

/-- The effective translation differs at one page of one tree. -/
def TranslationChange (st st' : State) (live : Set Nat) (pml4 virtAddr : Nat)
    (mapping : Option Mapping) : Prop :=
  ∀ root ∈ live, ∀ other < 2 ^ 48, translate st'.mem root other =
    if root = pml4 ∧ other / 4096 = virtAddr / 4096 then mapping
    else translate st.mem root other

theorem LeavesSame.translation
    (hexact : ∀ root ∈ live, Exact (view st.mem) root)
    (hexact' : ∀ root ∈ live, Exact (view st'.mem) root)
    (hsame : LeavesSame st st' live) : TranslationSame st st' live := by
  intro root hroot virtAddr
  rw [translate_eq_find (hexact root hroot),
    translate_eq_find (hexact' root hroot), hsame root hroot]

theorem LeafChange.translation {pml4 virtAddr : Nat}
    {leaf : Option (Rights × Page)}
    (hexact : ∀ root ∈ live, Exact (view st.mem) root)
    (hexact' : ∀ root ∈ live, Exact (view st'.mem) root)
    (hlt : virtAddr < 2 ^ 48)
    (hchange : LeafChange st st' live pml4 (vaPath virtAddr) leaf) :
    TranslationChange st st' live pml4 virtAddr
      (leaf.map fun found => toMapping (found.1, found.2, [])) := by
  intro root hroot other hother
  rw [translate_eq_find (hexact root hroot),
    translate_eq_find (hexact' root hroot), hchange root hroot]
  by_cases hhit : root = pml4 ∧ other / 4096 = virtAddr / 4096
  · have hpath : vaPath other = vaPath virtAddr :=
      (vaPath_inj hother hlt).mpr hhit.2
    rw [if_pos ⟨hhit.1, (vaPath_isPrefix_iff hlt hother).mpr hhit.2⟩,
      if_pos hhit,
      hpath, List.drop_length, Option.map_map]
    rfl
  · rw [if_neg fun hboth => hhit ⟨hboth.1,
      (vaPath_isPrefix_iff hlt hother).mp hboth.2⟩, if_neg hhit]

/-- The calls of the mapper, on any of the live trees, and what the rest of
the kernel does in between. -/
inductive Step : State → Set Nat → State → Set Nat → Prop
  | mapPageIn {st : State} {live : Set Nat}
      {pml4 virtAddr physAddr flags : Nat} (hpml4 : pml4 ∈ live)
      (hlt : physAddr < 2 ^ 52) (hflags : Plain flags) :
      Step st live (st.mapPageIn pml4 virtAddr physAddr flags).1 live
  | unmapPage {st : State} {live : Set Nat} {virtAddr : Nat} :
      Step st live (st.unmapPage virtAddr).1 live
  | createAddressSpace {st : State} {live : Set Nat} :
      Step st live st.createAddressSpace.1
        (if st.createAddressSpace.2 = 0 then live
          else insert st.createAddressSpace.2 live)
  | retire {st : State} {live : Set Nat} {root : Nat}
      (hkernel : root ≠ bootPml4) (hcr3 : root ≠ st.cr3 &&& addrMask) :
      Step st live st (live \ {root})
  | elsewhere {st : State} {live : Set Nat} {st' : State}
      (helsewhere : Elsewhere st live st') : Step st live st' live

inductive Reaches : State → Set Nat → Prop
  | boot {st : State} (hboot : Boot st) : Reaches st {bootPml4}
  | step {st : State} {live : Set Nat} {st' : State} {live' : Set Nat}
      (hreaches : Reaches st live) (hstep : Step st live st' live') :
      Reaches st' live'

theorem Step.forest {label : Nat → Option (Nat × Path)}
    (hforest : Forest st live label) (hstep : Step st live st' live') :
    ∃ label', Forest st' live' label' := by
  cases hstep with
  | mapPageIn hpml4 hlt hflags => exact (hforest.mapPageIn _ hpml4 hflags hlt).1
  | unmapPage => exact (hforest.unmapPage _).1
  | createAddressSpace =>
      rcases st.createAddressSpace_cases hforest.tables.zero with
        ⟨hresult, _⟩ | ⟨f, g, hclear, _, hresult⟩
      · rw [hresult, if_pos rfl]
        exact ⟨label, hforest⟩
      · have hnonzero : f * 4096 ≠ 0 :=
          (Reserved.of_taken hforest.tables.zero hclear.first hclear.clear
            (Pmm.used_take_self st.pmm f)).nonzero
        rw [hresult, if_neg hnonzero]
        exact ⟨_, (hforest.create hclear).1⟩
  | retire hkernel hcr3 => exact ⟨_, hforest.retire hkernel hcr3⟩
  | elsewhere helsewhere => exact ⟨label, hforest.elsewhere helsewhere⟩

theorem Reaches.forest (hreaches : Reaches st live) :
    ∃ label, Forest st live label := by
  induction hreaches with
  | boot hboot => exact ⟨_, hboot.forest⟩
  | step _ hstep ih =>
      obtain ⟨label, hforest⟩ := ih
      exact hstep.forest hforest

/-- In every state that is reached: a page that is mapped has exactly the frame
and the rights it was given and every other page is as before; a page that is
unmapped has no translation any more and every other page is as before; and a
call that fails changes no translation. -/
theorem page_tables_refine_map (hreaches : Reaches st live) :
    (∀ pml4 ∈ live, ∀ virtAddr < 2 ^ 48, ∀ physAddr < 2 ^ 52, ∀ flags,
      Plain flags →
        ((st.mapPageIn pml4 virtAddr physAddr flags).2 = true →
          TranslationChange st (st.mapPageIn pml4 virtAddr physAddr flags).1
            live pml4 virtAddr
            (some ⟨physAddr, hasFlag flags pageUser,
              hasFlag flags pageWritable, hasFlag flags pageNx⟩)) ∧
        ((st.mapPageIn pml4 virtAddr physAddr flags).2 = false →
          TranslationSame st (st.mapPageIn pml4 virtAddr physAddr flags).1
            live)) ∧
    (∀ virtAddr < 2 ^ 48,
      ((st.unmapPage virtAddr).2 = true →
        TranslationChange st (st.unmapPage virtAddr).1 live
          (st.cr3 &&& addrMask) virtAddr none) ∧
      ((st.unmapPage virtAddr).2 = false →
        TranslationSame st (st.unmapPage virtAddr).1 live)) := by
  obtain ⟨label, hforest⟩ := hreaches.forest
  refine ⟨?_, ?_⟩
  · intro pml4 hpml4 virtAddr hva physAddr hlt flags hflags
    obtain ⟨⟨label', hforest'⟩, hfalse, htrue⟩ := hforest.mapPageIn
      virtAddr hpml4 hflags hlt
    refine ⟨fun hok => ?_, fun hfail => ?_⟩
    · have hchange := (htrue hok).translation hforest.exact hforest'.exact hva
      have huser : hasFlag flags pageUser = flags.testBit 2 :=
        hasFlag_shiftLeft flags 2
      have hwritable : hasFlag flags pageWritable = flags.testBit 1 :=
        hasFlag_shiftLeft flags 1
      have hnx : hasFlag flags pageNx = flags.testBit 63 :=
        hasFlag_shiftLeft flags 63
      rw [huser, hwritable, hnx]
      simpa [toMapping, flagRights, pageWithin] using hchange
    · exact (hfalse hfail).translation hforest.exact hforest'.exact
  · intro virtAddr hva
    obtain ⟨⟨label', hforest'⟩, hfalse, htrue⟩ := hforest.unmapPage virtAddr
    refine ⟨fun hok => ?_, fun hfail => ?_⟩
    · exact (htrue hok).translation hforest.exact hforest'.exact hva
    · exact (hfalse hfail).translation hforest.exact hforest'.exact

/-- A machine that has just been started. -/
def bootState : State where
  mem addr := leByte (bootEntry (addr / 4096 * 4096) (addr % 4096 / 8))
    (addr % 8)
  pmm := ⟨fun frame => decide (frame < 4), 262140⟩
  cr3 := bootPml4

theorem bootEntry_lt : ∀ table ∈ [bootPml4, bootPdpt, bootPd], ∀ i < 512,
    bootEntry table i < 2 ^ 64 := by
  decide +kernel

theorem bootState_boot : Boot bootState where
  entries := by
    intro table htable i hi
    have haligned : table % 4096 = 0 := by
      revert table
      decide
    refine (readLE_of_bytes fun k hk => ?_).trans
      (Nat.mod_eq_of_lt (bootEntry_lt table htable i hi))
    have htable' : (table + 8 * i + k) / 4096 * 4096 = table := by omega
    have hi' : (table + 8 * i + k) % 4096 / 8 = i := by omega
    have hk' : (table + 8 * i + k) % 8 = k := by omega
    simp only [bootState, htable', hi', hk']
  reserved frame hframe := by simp [bootState, hframe]
  cr3 := rfl

theorem page_tables_refine_map_boot :
    (bootState.mapPageIn bootPml4 0x40000000 0x500000 7).2 = true ∧
    TranslationChange bootState
      (bootState.mapPageIn bootPml4 0x40000000 0x500000 7).1 {bootPml4}
      bootPml4 0x40000000 (some ⟨0x500000, true, true, false⟩) := by
  have hok : (bootState.mapPageIn bootPml4 0x40000000 0x500000 7).2 =
      true := by
    decide +kernel
  exact ⟨hok, ((page_tables_refine_map (.boot bootState_boot)).1 bootPml4 rfl
    0x40000000 (by decide) 0x500000 (by decide) 7
    ⟨by decide, by decide⟩).1 hok⟩

end Paging

end VenomOS
