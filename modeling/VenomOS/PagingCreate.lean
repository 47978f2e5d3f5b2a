/-
create_address_space: a PML4 and a PDPT of its own, and the first entry of the
PDPT taken over from the address space in use.
-/
import VenomOS.PagingTables

namespace VenomOS

namespace Paging

open ByteMemory RadixTable

universe u

variable {L : Type u} {scheme : Scheme L} {hide : Path → Nat → Bool}
  {label : Nat → Option L} {st : State} {f g e : Nat} {root : L}

/-- The entry of the first PDPT slot of the address space in use. -/
def State.kernelSlot (st : State) : Nat :=
  st.entry (st.entry (st.cr3 &&& addrMask) 0 &&& addrMask) 0

/-- The state with frame `f` as PML4 and frame `g` as PDPT, whose first entry
is `e`. -/
def State.planted (st : State) (f g e : Nat) : State :=
  { st with
    pmm := (st.pmm.take f).take g
    mem := setEntry (setEntry (clearTable (clearTable st.mem (f * 4096))
      (g * 4096)) (g * 4096) 0 e) (f * 4096) 0
        (g * 4096 ||| pagePresent ||| pageWritable) }

/-- Two frames that can be had one after the other. -/
structure TwoClear (pmm : Pmm) (f g : Nat) : Prop where
  first : f < Pmm.managedFrames
  second : g < Pmm.managedFrames
  clear : pmm.used f = false
  clear' : pmm.used g = false
  ne : f ≠ g

/-- Nothing happens for want of a kernel entry or of frames, or there is a new
address space. -/
theorem State.createAddressSpace_cases (st : State)
    (hzero : st.pmm.used 0 = true) :
    (st.createAddressSpace = (st, 0) ∧
      ((st.entry (st.cr3 &&& addrMask) 0).testBit 0 = false ∨
        ∀ f g, ¬ TwoClear st.pmm f g)) ∨
    ∃ f g, TwoClear st.pmm f g ∧
      (st.entry (st.cr3 &&& addrMask) 0).testBit 0 = true ∧
      st.createAddressSpace = (st.planted f g st.kernelSlot, f * 4096) := by
  have hnonzero : ∀ {frame}, st.pmm.used frame = false →
      frame * Pmm.frameSize ≠ 0 := by
    intro frame hclear
    refine Nat.mul_ne_zero ?_ (by decide)
    rintro rfl
    rw [hzero] at hclear
    cases hclear
  unfold State.createAddressSpace
  simp only [hasFlag_present]
  cases hpresent : (st.entry (st.cr3 &&& addrMask) 0).testBit 0 with
  | false => exact .inl ⟨rfl, .inl rfl⟩
  | true =>
      simp only [Bool.not_true, Bool.false_eq_true, if_false]
      rcases st.pmm.allocFrame_cases with
        ⟨f, hf, hclear, halloc⟩ | ⟨hfull, halloc⟩
      · rcases (st.pmm.take f).allocFrame_cases with
          ⟨g, hg, hclear', halloc'⟩ | ⟨hfull', halloc'⟩
        · right
          have hne : f ≠ g := by
            rintro rfl
            rw [Pmm.used_take_self] at hclear'
            cases hclear'
          rw [Pmm.used_take_of_ne hne.symm] at hclear'
          refine ⟨f, g, ⟨hf, hg, hclear, hclear', hne⟩, trivial, ?_⟩
          simp only [halloc, halloc', hnonzero hclear, hnonzero hclear',
            if_false]
          rfl
        · left
          simp only [halloc, halloc', hnonzero hclear, if_false, if_true]
          have hfree : ((st.pmm.take f).freeFrame (f * Pmm.frameSize)) =
              st.pmm := by
            rw [Pmm.freeFrame_of_used hf (Pmm.used_take_self ..),
              Pmm.give_take hclear]
          refine ⟨?_, .inr ?_⟩
          · rw [State.free, hfree]
          · rintro f' g' ⟨hf', hg', hclear₁, hclear₂, hne⟩
            have hsole : ∀ h < Pmm.managedFrames, st.pmm.used h = false →
                h = f := by
              intro h hh hused
              by_contra hne'
              have hfull := hfull' h hh
              rw [Pmm.used_take_of_ne hne', hused] at hfull
              cases hfull
            exact hne ((hsole f' hf' hclear₁).trans
              (hsole g' hg' hclear₂).symm)
      · left
        refine ⟨by simp [halloc], .inr ?_⟩
        rintro f' g' ⟨hf', _, hclear₁, _⟩
        rw [hfull f' hf'] at hclear₁
        cases hclear₁

theorem tableEntry_zero (frame : Nat) :
    tableEntry frame 0 = frame ||| pagePresent ||| pageWritable := by
  have hextra : State.extraFlags 0 = 0 := by decide
  rw [tableEntry, hextra, Nat.or_zero]

section Entries

variable (hclear : TwoClear st.pmm f g)

include hclear

theorem TwoClear.frames_ne : f * 4096 ≠ g * 4096 := by
  have hne := hclear.ne
  omega

theorem entryAt_planted_root {j : Nat} (hj : j < 512) :
    entryAt (st.planted f g e).mem (f * 4096) j =
      if j = 0 then tableEntry (g * 4096) 0 else 0 := by
  have hlt : g * 4096 < 2 ^ 52 :=
    (managed_of_lt hclear.second).trans (by decide)
  have hf : f * 4096 % 4096 = 0 := Nat.mul_mod_left _ _
  have hg : g * 4096 % 4096 = 0 := Nat.mul_mod_left _ _
  rw [State.planted, ← tableEntry_zero]
  split
  · subst j
    exact entryAt_setEntry_self _ _ _ (tableEntry_lt hlt 0)
  · rw [entryAt_setEntry_other hf hf (by decide) hj (.inr ‹_›),
      entryAt_setEntry_other hg hf (by decide) hj (.inl hclear.frames_ne),
      entryAt_clearTable_other hg hf hj hclear.frames_ne,
      entryAt_clearTable_self _ _ hj]

theorem entryAt_planted_table {j : Nat} (hj : j < 512) (he : e < 2 ^ 64) :
    entryAt (st.planted f g e).mem (g * 4096) j = if j = 0 then e else 0 := by
  have hf : f * 4096 % 4096 = 0 := Nat.mul_mod_left _ _
  have hg : g * 4096 % 4096 = 0 := Nat.mul_mod_left _ _
  rw [State.planted,
    entryAt_setEntry_other hf hg (by decide) hj (.inl hclear.frames_ne.symm)]
  split
  · subst j
    exact entryAt_setEntry_self _ _ _ he
  · rw [entryAt_setEntry_other hg hg (by decide) hj (.inr ‹_›),
      entryAt_clearTable_self _ _ hj]

omit hclear in
theorem entryAt_planted_other {other j : Nat} (hother : other % 4096 = 0)
    (hj : j < 512) (hnef : other ≠ f * 4096) (hneg : other ≠ g * 4096) :
    entryAt (st.planted f g e).mem other j = entryAt st.mem other j := by
  have hf : f * 4096 % 4096 = 0 := Nat.mul_mod_left _ _
  have hg : g * 4096 % 4096 = 0 := Nat.mul_mod_left _ _
  rw [State.planted,
    entryAt_setEntry_other hf hother (by decide) hj (.inl hnef),
    entryAt_setEntry_other hg hother (by decide) hj (.inl hneg),
    entryAt_clearTable_other hg hother hj hneg,
    entryAt_clearTable_other hf hother hj hnef]

end Entries

/-- The names of a new tree: its root, and the table behind slot 0.  Only
slot 0 of that table may belong to others. -/
structure Plantable (scheme : Scheme L) (root : L) (frame : Nat) : Prop where
  path : scheme.path root = []
  anchor : scheme.anchor root = some frame
  anchor' : scheme.anchor (scheme.child root 0) = none
  rest : ∀ j ≠ 0, scheme.Private (scheme.child root j)
  rest' : ∀ j ≠ 0, scheme.Private (scheme.child (scheme.child root 0) j)

theorem Plantable.path' (hplantable : Plantable scheme root f) :
    scheme.path (scheme.child root 0) = [0] := by
  rw [scheme.path_child, hplantable.path, List.nil_append]

/-- The copied entry is hidden, or it links to a table all trees share. -/
def Inherited (scheme : Scheme L) (hide : Path → Nat → Bool)
    (label : Nat → Option L) (root : L) (e : Nat) : Prop :=
  (hide [0] 0 = true ∧
    scheme.Private (scheme.child (scheme.child root 0) 0)) ∨
  hide [0] 0 = false ∧ ∃ above next, decode 1 e = .link above next ∧
    passage ≤ above ∧
    label next = some (scheme.child (scheme.child root 0) 0)

/-- The labels of the new tables and of the old ones. -/
def plantLabel (scheme : Scheme L) (label : Nat → Option L) (root : L)
    (f g : Nat) : Nat → Option L :=
  Function.update (Function.update label (f * 4096) (some root)) (g * 4096)
    (some (scheme.child root 0))

section Plant

variable (htables : Tables scheme hide st label)
  (hclear : TwoClear st.pmm f g) (hplantable : Plantable scheme root (f * 4096))
  (hshown : hide [] 0 = false) (he : e < 2 ^ 64)
  (hinherited : Inherited scheme hide label root e)

include hclear hshown in
theorem viewHiding_planted_root :
    viewHiding hide (st.planted f g e).mem [] (f * 4096) 0 =
      .link (allowed 0) (g * 4096) := by
  rw [viewHiding_shown hshown (by decide),
    entryAt_planted_root hclear (by decide), if_pos rfl]
  exact decode_tableEntry (by decide) (Nat.mul_mod_left _ _)
    ((managed_of_lt hclear.second).trans (by decide)) 0

include hclear in
theorem viewHiding_planted_root_ne {j : Nat} (hj : j ≠ 0) :
    viewHiding hide (st.planted f g e).mem [] (f * 4096) j = .empty := by
  unfold viewHiding
  split
  · rfl
  · split
    · rw [entryAt_planted_root hclear ‹_›, if_neg hj, decode_zero]
    · rfl

include hclear he in
theorem viewHiding_planted_table_ne {j : Nat} (hj : j ≠ 0) :
    viewHiding hide (st.planted f g e).mem [0] (g * 4096) j = .empty := by
  unfold viewHiding
  split
  · rfl
  · split
    · rw [entryAt_planted_table hclear ‹_› he, if_neg hj, decode_zero]
    · rfl

include hclear he in
theorem viewHiding_planted_table (hseen : hide [0] 0 = false) :
    viewHiding hide (st.planted f g e).mem [0] (g * 4096) 0 = decode 1 e := by
  rw [viewHiding_shown hseen (by decide),
    entryAt_planted_table hclear (by decide) he, if_pos rfl]
  rfl

include htables hclear in
theorem Tables.viewHiding_planted_same {other j : Nat} {l : L}
    (hother : label other = some l) :
    viewHiding hide (st.planted f g e).mem (scheme.path l) other j =
      viewHiding hide st.mem (scheme.path l) other j := by
  have hne : ∀ {frame}, st.pmm.used frame = false → other ≠ frame * 4096 := by
    rintro frame hused rfl
    rw [htables.unlabelled hused] at hother
    cases hother
  unfold viewHiding
  split
  · rfl
  · split
    · rw [entryAt_planted_other (htables.reserved hother).aligned ‹_›
        (hne hclear.clear) (hne hclear.clear')]
    · rfl

include htables hclear hplantable hshown he hinherited in
theorem Tables.labelled_planted :
    Labelled scheme (viewHiding hide (st.planted f g e).mem)
      (plantLabel scheme label root f g) := by
  have hrootLink : viewHiding hide (st.planted f g e).mem [] (f * 4096) 0 =
      .link (allowed 0) (g * 4096) := viewHiding_planted_root hclear hshown
  rw [← hplantable.path] at hrootLink
  refine htables.labelled.plant (htables.unlabelled hclear.clear)
    (htables.unlabelled hclear.clear') hclear.frames_ne rfl hplantable.anchor
    hplantable.anchor' (htables.viewHiding_planted_same hclear) hrootLink ?_ ?_
  · intro j hj
    rw [hplantable.path]
    exact ⟨viewHiding_planted_root_ne hclear hj, hplantable.rest j hj⟩
  · intro j
    rw [hplantable.path']
    by_cases hj : j = 0
    · subst hj
      rcases hinherited with ⟨hhidden, hprivate⟩ |
        ⟨hseen, above, next, hdecode, _, hlabel⟩
      · exact .inl ⟨by simp [viewHiding, hhidden], hprivate⟩
      · exact .inr ⟨above, next,
          (viewHiding_planted_table hclear he hseen).trans hdecode, hlabel⟩
    · exact .inl ⟨viewHiding_planted_table_ne hclear he hj,
        hplantable.rest' j hj⟩

omit htables hclear hplantable hshown he hinherited

theorem plantLabel_root (hclear : TwoClear st.pmm f g) :
    plantLabel scheme label root f g (f * 4096) = some root := by
  rw [plantLabel, Function.update_of_ne hclear.frames_ne, Function.update_self]

theorem plantLabel_table :
    plantLabel scheme label root f g (g * 4096) =
      some (scheme.child root 0) :=
  Function.update_self ..

theorem plantLabel_of_ne {other : Nat} (hnef : other ≠ f * 4096)
    (hneg : other ≠ g * 4096) :
    plantLabel scheme label root f g other = label other := by
  rw [plantLabel, Function.update_of_ne hneg, Function.update_of_ne hnef]

theorem plantLabel_cases {other : Nat} {l : L}
    (hother : plantLabel scheme label root f g other = some l) :
    (other = f * 4096 ∧ l = root) ∨
      (other = g * 4096 ∧ l = scheme.child root 0) ∨
        label other = some l := by
  by_cases hg : other = g * 4096
  · subst hg
    rw [plantLabel_table] at hother
    exact .inr (.inl ⟨rfl, (Option.some.inj hother).symm⟩)
  · rw [plantLabel, Function.update_of_ne hg] at hother
    by_cases hf : other = f * 4096
    · rw [hf, Function.update_self] at hother
      exact .inl ⟨hf, (Option.some.inj hother).symm⟩
    · rw [Function.update_of_ne hf] at hother
      exact .inr (.inr hother)

theorem Tables.plantLabel_old (htables : Tables scheme hide st label)
    (hclear : TwoClear st.pmm f g) {other : Nat} {l : L}
    (hother : label other = some l) :
    plantLabel scheme label root f g other = some l := by
  have hne : ∀ {frame}, st.pmm.used frame = false → other ≠ frame * 4096 := by
    rintro frame hused rfl
    rw [htables.unlabelled hused] at hother
    cases hother
  rw [plantLabel_of_ne (hne hclear.clear) (hne hclear.clear'), hother]

theorem used_planted (hclear : TwoClear st.pmm f g) (frame : Nat) :
    (st.planted f g e).pmm.used frame = true ↔
      st.pmm.used frame = true ∨ frame = f ∨ frame = g := by
  by_cases hg : frame = g
  · subst hg
    simp [State.planted, Pmm.used_take_self]
  · by_cases hf : frame = f
    · subst hf
      simp [State.planted, Pmm.used_take_of_ne hclear.ne, Pmm.used_take_self]
    · simp [State.planted, Pmm.used_take_of_ne hg, Pmm.used_take_of_ne hf, hf,
        hg]

include htables hclear hplantable hshown he hinherited

theorem Tables.planted :
    Tables scheme hide (st.planted f g e) (plantLabel scheme label root f g) where
  labelled := htables.labelled_planted hclear hplantable hshown he hinherited
  passes := by
    intro other l j above next hother hlink
    rcases plantLabel_cases hother with ⟨rfl, rfl⟩ | ⟨rfl, rfl⟩ | hother
    · rw [hplantable.path] at hlink
      by_cases hj : j = 0
      · subst hj
        rw [viewHiding_planted_root hclear hshown] at hlink
        cases hlink
        exact passage_le_allowed 0
      · rw [viewHiding_planted_root_ne hclear hj] at hlink
        cases hlink
    · rw [hplantable.path'] at hlink
      by_cases hj : j = 0
      · subst hj
        rcases hinherited with ⟨hhidden, _⟩ | ⟨hseen, _, _, hdecode, hpasses, _⟩
        · simp [viewHiding, hhidden] at hlink
        · rw [viewHiding_planted_table hclear he hseen, hdecode] at hlink
          cases hlink
          exact hpasses
      · rw [viewHiding_planted_table_ne hclear he hj] at hlink
        cases hlink
    · rw [htables.viewHiding_planted_same hclear hother] at hlink
      exact htables.passes hother hlink
  reserved := by
    intro other l hother
    rcases plantLabel_cases hother with ⟨rfl, rfl⟩ | ⟨rfl, rfl⟩ | hother
    · exact .of_taken htables.zero hclear.first hclear.clear
        ((used_planted hclear f).mpr (.inr (.inl rfl)))
    · exact .of_taken htables.zero hclear.second hclear.clear'
        ((used_planted hclear g).mpr (.inr (.inr rfl)))
    · exact ((htables.reserved hother).take f).take g
  zero := (used_planted hclear 0).mpr (.inl htables.zero)

theorem Tables.extends_planted :
    Extends scheme hide {root, scheme.child root 0} st label
      (st.planted f g e) (plantLabel scheme label root f g) where
  tables := htables.planted hclear hplantable hshown he hinherited
  labels := htables.plantLabel_old hclear
  named := by
    intro other l hother
    rcases plantLabel_cases hother with ⟨rfl, rfl⟩ | ⟨rfl, rfl⟩ | hother
    · refine .inr ⟨htables.unlabelled hclear.clear, ?_, .inl rfl⟩
      rw [Nat.mul_div_cancel _ (by decide)]
      exact hclear.clear
    · refine .inr ⟨htables.unlabelled hclear.clear', ?_, .inr rfl⟩
      rw [Nat.mul_div_cancel _ (by decide)]
      exact hclear.clear'
    · exact .inl hother
  outside := by
    intro addr haddr
    have houtf := haddr (f * 4096) (by
      rw [plantLabel_root hclear]
      simp)
    have houtg := haddr (g * 4096) (by
      rw [plantLabel_table]
      simp)
    simp only [State.planted]
    rw [setEntry_outside (by decide) houtf,
      setEntry_outside (by decide) houtg, clearTable_outside houtg,
      clearTable_outside houtf]
  used := by
    intro frame
    have hiff := used_planted (e := e) hclear frame
    rw [Bool.eq_iff_iff, hiff, Bool.or_eq_true, Option.isSome_iff_exists]
    refine or_congr_right' fun hclear' => ⟨?_, ?_⟩
    · rintro (rfl | rfl)
      · exact ⟨root, plantLabel_root hclear⟩
      · exact ⟨_, plantLabel_table⟩
    · rintro ⟨l, hl⟩
      rcases plantLabel_cases hl with ⟨heq, _⟩ | ⟨heq, _⟩ | hold
      · exact .inl (by omega)
      · exact .inr (by omega)
      · rw [htables.unlabelled (by simpa using hclear')] at hold
        cases hold
  counted hcounted := by
    have hfirst := hcounted.take hclear.first hclear.clear
    refine (hfirst.1.take hclear.second ?_).1
    rw [Pmm.used_take_of_ne hclear.ne.symm]
    exact hclear.clear'
  cr3 := rfl

end Plant

end Paging

end VenomOS
