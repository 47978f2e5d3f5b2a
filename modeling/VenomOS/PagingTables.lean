/-
The page tables that the allocator's frames hold, and how get_or_create_table
makes them grow: links widen, empty tables appear, and no leaf changes.
-/
import VenomOS.PagingEntries

namespace VenomOS

namespace Paging

open ByteMemory RadixTable

universe u

variable {L : Type u} {scheme : Scheme L} {hide : Path → Nat → Bool}
  {label label' label'' : Nat → Option L} {st st' st'' : State}
  {table i flags : Nat} {l : L}

/-- A frame that is taken and can hold a table. -/
structure Reserved (pmm : Pmm) (frame : Nat) : Prop where
  nonzero : frame ≠ 0
  aligned : frame % 4096 = 0
  managed : frame < Pmm.managedLimit
  used : pmm.used (frame / 4096) = true

/-- What every link to a table allows: to write and to execute. -/
abbrev passage : Rights := (false, true, true)

/-- Which frames are tables.  Only the pages take rights to write and to
execute away, no link to a table does. -/
structure Tables (scheme : Scheme L) (hide : Path → Nat → Bool) (st : State)
    (label : Nat → Option L) : Prop where
  labelled : Labelled scheme (viewHiding hide st.mem) label
  passes : ∀ {frame l i above next}, label frame = some l →
    viewHiding hide st.mem (scheme.path l) frame i = .link above next →
      passage ≤ above
  reserved : ∀ {frame l}, label frame = some l → Reserved st.pmm frame
  zero : st.pmm.used 0 = true

/-- More frames are tables, and memory outside of tables is the same.  Only
the names in `new` are given to new tables. -/
structure Extends (scheme : Scheme L) (hide : Path → Nat → Bool) (new : Set L)
    (st : State) (label : Nat → Option L) (st' : State)
    (label' : Nat → Option L) : Prop where
  tables : Tables scheme hide st' label'
  labels : ∀ {frame l}, label frame = some l → label' frame = some l
  named : ∀ {frame l}, label' frame = some l → label frame = some l ∨
    label frame = none ∧ st.pmm.used (frame / 4096) = false ∧ l ∈ new
  outside : ∀ addr, (∀ frame, label' frame ≠ none →
    addr < frame ∨ frame + 4096 ≤ addr) → st'.mem addr = st.mem addr
  used : ∀ frame, st'.pmm.used frame =
    (st.pmm.used frame || (label' (frame * 4096)).isSome)
  counted : st.pmm.Counted → st'.pmm.Counted
  cr3 : st'.cr3 = st.cr3

/-- And nothing has changed at the leaves. -/
structure Grown (scheme : Scheme L) (hide : Path → Nat → Bool) (new : Set L)
    (st : State) (label : Nat → Option L) (st' : State)
    (label' : Nat → Option L) : Prop
    extends Extends scheme hide new st label st' label' where
  links : ∀ {frame l i above next}, label frame = some l →
    viewHiding hide st.mem (scheme.path l) frame i = .link above next →
      ∃ above', viewHiding hide st'.mem (scheme.path l) frame i =
        .link above' next ∧ above ≤ above'
  leaves : ∀ {frame l}, label frame = some l → ∀ indices,
    gather (fun _ leaf => leaf) (viewHiding hide st'.mem) (scheme.path l) frame
      indices =
    gather (fun _ leaf => leaf) (viewHiding hide st.mem) (scheme.path l) frame
      indices
  exact : ∀ {root l}, label root = some l → scheme.path l = [] →
    Exact (viewHiding hide st.mem) root → Exact (viewHiding hide st'.mem) root

variable {new : Set L}

variable {above : Rights} {frame newFrame next : Nat} {pmm : Pmm}

theorem Tables.executable {frame next : Nat}
    (htables : Tables scheme hide st label) (hframe : label frame = some l)
    (hlink : viewHiding hide st.mem (scheme.path l) frame i =
      .link above next) : above.2.2 = true :=
  top_le_iff.mp (htables.passes hframe hlink).2.2

theorem passage_le_allowed (flags : Nat) :
    passage ≤ (flags.testBit 2, true, true) :=
  ⟨Bool.false_le _, le_rfl, le_rfl⟩

theorem Tables.used_of_label (htables : Tables scheme hide st label)
    (frame : Nat) : st.pmm.used frame =
      (st.pmm.used frame || (label (frame * 4096)).isSome) := by
  cases hlabel : label (frame * 4096) with
  | none => simp
  | some l =>
      have hused := (htables.reserved hlabel).used
      rw [Nat.mul_div_cancel _ (by decide)] at hused
      simp [hused]

theorem Tables.unlabelled (htables : Tables scheme hide st label)
    (hclear : st.pmm.used frame = false) :
    label (frame * 4096) = none := by
  have hused := htables.used_of_label frame
  rw [hclear, Bool.false_or] at hused
  simpa using hused.symm

theorem Reserved.take (hreserved : Reserved pmm frame) (other : Nat) :
    Reserved (pmm.take other) frame :=
  { hreserved with used := Pmm.used_take_of_used hreserved.used }

theorem Reserved.freeFrame (hreserved : Reserved pmm frame) :
    pmm.freeFrame frame = pmm.give (frame / 4096) := by
  obtain ⟨_, haligned, hmanaged, hused⟩ := hreserved
  have hlt : frame / 4096 < Pmm.managedFrames := by
    simp only [Pmm.managedFrames, Pmm.managedLimit, Pmm.frameSize] at *
    omega
  have hmul : frame / 4096 * Pmm.frameSize = frame :=
    Nat.div_mul_cancel (Nat.dvd_of_mod_eq_zero haligned)
  have hfree := Pmm.freeFrame_of_used hlt hused
  rwa [hmul] at hfree

theorem Reserved.give {frame other : Nat} (hreserved : Reserved pmm frame)
    (hother : Reserved pmm other) (hne : frame ≠ other) :
    Reserved (pmm.give (other / 4096)) frame := by
  have haligned := hreserved.aligned
  have haligned' := hother.aligned
  refine { hreserved with used := ?_ }
  exact (Function.update_of_ne (by omega) ..).trans hreserved.used

theorem Extends.refl (htables : Tables scheme hide st label) :
    Extends scheme hide new st label st label where
  tables := htables
  labels hlabel := hlabel
  named hlabel := .inl hlabel
  outside _ _ := rfl
  used := htables.used_of_label
  counted hcounted := hcounted
  cr3 := rfl

theorem Extends.trans (hfirst : Extends scheme hide new st label st' label')
    (hsecond : Extends scheme hide new st' label' st'' label'') :
    Extends scheme hide new st label st'' label'' where
  tables := hsecond.tables
  labels hlabel := hsecond.labels (hfirst.labels hlabel)
  named := by
    intro frame l hlabel
    rcases hsecond.named hlabel with hold | ⟨hnone, hclear, hnew⟩
    · exact hfirst.named hold
    · refine .inr ⟨?_, ?_, hnew⟩
      · cases hlabel' : label frame with
        | none => rfl
        | some l' =>
            rw [hfirst.labels hlabel'] at hnone
            cases hnone
      · rw [hfirst.used] at hclear
        exact (Bool.or_eq_false_iff.mp hclear).1
  outside := by
    intro addr haddr
    rw [hsecond.outside addr haddr]
    refine hfirst.outside addr fun frame hframe => haddr frame ?_
    obtain ⟨l, hl⟩ := Option.ne_none_iff_exists'.mp hframe
    rw [hsecond.labels hl]
    exact Option.some_ne_none l
  used := by
    intro frame
    rw [hsecond.used, hfirst.used]
    cases hlabel : label' (frame * 4096) with
    | none => simp
    | some l => simp [hsecond.labels hlabel]
  counted hcounted := hsecond.counted (hfirst.counted hcounted)
  cr3 := hsecond.cr3.trans hfirst.cr3

theorem Grown.refl (htables : Tables scheme hide st label) :
    Grown scheme hide new st label st label where
  toExtends := .refl htables
  links _ hlink := ⟨_, hlink, le_rfl⟩
  leaves _ _ := rfl
  exact _ _ hexact := hexact

theorem Grown.trans (hfirst : Grown scheme hide new st label st' label')
    (hsecond : Grown scheme hide new st' label' st'' label'') :
    Grown scheme hide new st label st'' label'' where
  toExtends := hfirst.toExtends.trans hsecond.toExtends
  links := by
    intro frame l i above next hlabel hlink
    obtain ⟨above', hlink', hle⟩ := hfirst.links hlabel hlink
    obtain ⟨above'', hlink'', hle'⟩ :=
      hsecond.links (hfirst.labels hlabel) hlink'
    exact ⟨above'', hlink'', hle.trans hle'⟩
  leaves hlabel indices :=
    (hsecond.leaves (hfirst.labels hlabel) indices).trans
      (hfirst.leaves hlabel indices)
  exact hlabel hpath hexact :=
    hsecond.exact (hfirst.labels hlabel) hpath
      (hfirst.exact hlabel hpath hexact)

theorem Tables.agreeOff_set (htables : Tables scheme hide st label)
    (htable : label table = some l) (hi : i < 512) (value : Nat) :
    AgreeOff scheme label (viewHiding hide st.mem)
      (viewHiding hide (setEntry st.mem table i value)) table i := by
  intro other l' j hother hne
  have haligned := (htables.reserved htable).aligned
  have haligned' := (htables.reserved hother).aligned
  unfold viewHiding
  split
  · rfl
  · split
    · rw [entryAt_setEntry_other haligned haligned' hi ‹_› hne]
    · rfl

theorem viewHiding_shown {path : Path} {mem : Memory}
    (hshown : hide path i = false) (hi : i < 512) :
    viewHiding hide mem path table i =
      decode path.length (entryAt mem table i) := by
  simp [viewHiding, hshown, hi]

theorem viewHiding_eq_link {path : Path} {mem : Memory}
    (hlink : viewHiding hide mem path table i = .link above next) :
    hide path i = false ∧ i < 512 ∧
      decode path.length (entryAt mem table i) = .link above next := by
  unfold viewHiding at hlink
  split at hlink
  · cases hlink
  · split at hlink
    · exact ⟨by simp_all, ‹_›, hlink⟩
    · cases hlink

/-- What the tables above a page mapped with these flags have to allow. -/
def allowed (flags : Nat) : Rights := (flags.testBit 2, true, true)

/-- An existing entry after get_or_create_table. -/
def widenedEntry (old flags : Nat) : Nat :=
  old ||| (pageWritable ||| State.extraFlags flags)

/-- A new entry of get_or_create_table. -/
def tableEntry (newFrame flags : Nat) : Nat :=
  newFrame ||| pagePresent ||| pageWritable ||| State.extraFlags flags

theorem rights_widenedEntry (old flags : Nat) :
    rights (widenedEntry old flags) =
      (old.testBit 2 || flags.testBit 2, true, !old.testBit 63) := by
  simp [rights, widenedEntry, testBit_extraFlags]

theorem widenedEntry_and_addrMask (old flags : Nat) :
    widenedEntry old flags &&& addrMask = old &&& addrMask := by
  refine or_and_addrMask ?_
  rw [Nat.and_or_distrib_right, extraFlags_and_addrMask]
  decide

theorem widenedEntry_lt {old : Nat} (hold : old < 2 ^ 64) (flags : Nat) :
    widenedEntry old flags < 2 ^ 64 :=
  Nat.or_lt_two_pow hold
    (Nat.or_lt_two_pow (flag_lt (by decide)) (extraFlags_lt flags))

theorem rights_tableEntry (haligned : newFrame % 4096 = 0)
    (hlt : newFrame < 2 ^ 52) (flags : Nat) :
    rights (tableEntry newFrame flags) = allowed flags := by
  have hhigh : newFrame.testBit 63 = false := testBit_of_lt hlt (by decide)
  simp [rights, allowed, tableEntry, testBit_extraFlags,
    testBit_of_aligned haligned, hhigh]

theorem tableEntry_and_addrMask (haligned : newFrame % 4096 = 0)
    (hlt : newFrame < 2 ^ 52) (flags : Nat) :
    tableEntry newFrame flags &&& addrMask = newFrame := by
  unfold tableEntry
  rw [or_and_addrMask (extraFlags_and_addrMask flags),
    or_and_addrMask (by decide), or_and_addrMask (by decide),
    and_addrMask_of_aligned haligned hlt]

theorem tableEntry_lt (hlt : newFrame < 2 ^ 52) (flags : Nat) :
    tableEntry newFrame flags < 2 ^ 64 := by
  have hframe : newFrame < 2 ^ 64 := hlt.trans (by decide)
  exact Nat.or_lt_two_pow (Nat.or_lt_two_pow
    (Nat.or_lt_two_pow hframe (flag_lt (by decide))) (flag_lt (by decide)))
    (extraFlags_lt flags)

theorem decode_widenedEntry {depth old next : Nat}
    (hlink : decode depth old = .link above next) (flags : Nat) :
    decode depth (widenedEntry old flags) =
      .link (rights (widenedEntry old flags)) next := by
  obtain ⟨hdepth, hpresent, hsmall, _, rfl⟩ := decode_eq_link hlink
  have hbits : ∀ k, (widenedEntry old flags).testBit k = (old.testBit k ||
      (decide (1 = k) || (State.extraFlags flags).testBit k)) := by
    intro k
    simp [widenedEntry]
  rw [decode_link hdepth (by simp [hbits, hpresent]) ?_,
    widenedEntry_and_addrMask]
  refine hsmall.imp_right fun hbit => ?_
  simp [hbits, hbit, testBit_extraFlags]

theorem decode_tableEntry {depth newFrame : Nat} (hdepth : depth < 3)
    (haligned : newFrame % 4096 = 0) (hlt : newFrame < 2 ^ 52) (flags : Nat) :
    decode depth (tableEntry newFrame flags) =
      .link (allowed flags) newFrame := by
  have hpresent : (tableEntry newFrame flags).testBit 0 = true := by
    simp only [tableEntry, Nat.testBit_or, testBit_pagePresent]
    simp only [decide_true, Bool.or_true, Bool.true_or]
  have hhuge := testBit_of_aligned haligned (show 7 < 12 by decide)
  rw [decode_link hdepth hpresent
    (.inr (by simp [tableEntry, testBit_extraFlags, hhuge])),
    tableEntry_and_addrMask haligned hlt, rights_tableEntry haligned hlt]

theorem Tables.widens_set (htables : Tables scheme hide st label)
    (htable : label table = some l)
    (hlink : viewHiding hide st.mem (scheme.path l) table i =
      .link above next)
    (flags : Nat) :
    viewHiding hide
        (setEntry st.mem table i (widenedEntry (st.entry table i) flags))
        (scheme.path l) table i =
      .link (rights (widenedEntry (st.entry table i) flags)) next ∧
    above ≤ rights (widenedEntry (st.entry table i) flags) ∧
    allowed flags ≤ rights (widenedEntry (st.entry table i) flags) := by
  have hexecutable := htables.executable htable hlink
  obtain ⟨hshown, hi, hdecode⟩ := viewHiding_eq_link hlink
  have habove : above = rights (st.entry table i) :=
    (decode_eq_link hdecode).2.2.2.1
  have hnx : (st.entry table i).testBit 63 = false := by
    simpa [habove, rights] using hexecutable
  have hlt : widenedEntry (st.entry table i) flags < 2 ^ 64 :=
    widenedEntry_lt (entryAt_lt _ _ _) flags
  refine ⟨?_, ?_, ?_⟩
  · rw [viewHiding_shown hshown hi, entryAt_setEntry_self _ _ _ hlt]
    exact decode_widenedEntry hdecode flags
  · rw [habove, rights_widenedEntry]
    exact ⟨Bool.left_le_or _ _, Bool.le_true _, le_rfl⟩
  · rw [rights_widenedEntry, hnx]
    exact ⟨Bool.right_le_or _ _, le_rfl, le_rfl⟩

theorem Tables.grown_widen (htables : Tables scheme hide st label)
    (htable : label table = some l)
    (hlink : viewHiding hide st.mem (scheme.path l) table i =
      .link above next)
    (flags : Nat) :
    Grown scheme hide new st label
      (st.set table i (widenedEntry (st.entry table i) flags)) label := by
  obtain ⟨hself, hle, hallowed⟩ := htables.widens_set htable hlink flags
  obtain ⟨hshown, hi, hdecode⟩ := viewHiding_eq_link hlink
  have hagree := htables.agreeOff_set htable hi
    (widenedEntry (st.entry table i) flags)
  have hwidens : Widens scheme label (viewHiding hide st.mem)
      (viewHiding hide
        (setEntry st.mem table i (widenedEntry (st.entry table i) flags))) := by
    intro other l' j hother
    by_cases hsame : other = table ∧ j = i
    · obtain ⟨rfl, rfl⟩ := hsame
      rw [htable] at hother
      cases hother
      exact .inr ⟨above, _, next, hlink, hself, hle⟩
    · exact .inl (hagree hother (not_and_or.mp hsame))
  have hpasses : ∀ {frame l j above next}, label frame = some l →
      viewHiding hide
        (setEntry st.mem table i (widenedEntry (st.entry table i) flags))
        (scheme.path l) frame j = .link above next → passage ≤ above := by
    intro other l' j above' next' hother hlink'
    rcases hwidens hother (i := j) with
      hsame | ⟨old, old', _, hslot, hslot', hwider⟩
    · rw [hsame] at hlink'
      exact htables.passes hother hlink'
    · rw [hlink'] at hslot'
      cases hslot'
      exact (htables.passes hother hslot).trans hwider
  exact {
    tables :=
      { labelled := htables.labelled.widens hwidens
        passes := hpasses
        reserved := htables.reserved
        zero := htables.zero }
    labels := fun hlabel => hlabel
    named := fun hlabel => .inl hlabel
    links := by
      intro other l' j above' next' hother hlink'
      rcases hwidens hother (i := j) with
        hsame | ⟨old, old', _, hslot, hslot', hwider⟩
      · exact ⟨above', hsame.trans hlink', le_rfl⟩
      · rw [hlink'] at hslot
        cases hslot
        exact ⟨old', hslot', hwider⟩
    leaves := fun hlabel indices =>
      htables.labelled.gather_last_widens hwidens hlabel indices
    exact := fun hroot hpath hexact =>
      htables.labelled.exact_widens hwidens hroot hpath hexact
    outside := fun addr haddr =>
      setEntry_outside hi (haddr table (by simp [htable]))
    used := htables.used_of_label
    counted := fun hcounted => hcounted
    cr3 := rfl }

theorem managed_of_lt {f : Nat} (hf : f < Pmm.managedFrames) :
    f * 4096 < Pmm.managedLimit := by
  simp only [Pmm.managedFrames, Pmm.managedLimit, Pmm.frameSize] at hf ⊢
  omega

theorem Reserved.of_taken {pmm pmm' : Pmm} (hzero : pmm.used 0 = true)
    (hlt : frame < Pmm.managedFrames) (hclear : pmm.used frame = false)
    (hused : pmm'.used frame = true) :
    Reserved pmm' (frame * 4096) where
  nonzero := by
    have hpos : frame ≠ 0 := by
      rintro rfl
      rw [hzero] at hclear
      cases hclear
    omega
  aligned := Nat.mul_mod_left _ _
  managed := managed_of_lt hlt
  used := by rwa [Nat.mul_div_cancel _ (by decide)]

/-- A slot that holds no link gets a new table without links. -/
theorem Tables.addTable {mem' : Memory}
    (htables : Tables scheme hide st label) (htable : label table = some l)
    (hframe : frame < Pmm.managedFrames) (hclear : st.pmm.used frame = false)
    (hagree : AgreeOff scheme label (viewHiding hide st.mem)
      (viewHiding hide mem') table i)
    (hslot : ∀ above next,
      viewHiding hide st.mem (scheme.path l) table i ≠ .link above next)
    (hprivate : scheme.Private (scheme.child l i))
    (hslot' : viewHiding hide mem' (scheme.path l) table i =
      .link above (frame * 4096))
    (habove : passage ≤ above)
    (hnew : ∀ j above next, viewHiding hide mem' (scheme.path l ++ [i])
      (frame * 4096) j ≠ .link above next) :
    Tables scheme hide { st with pmm := st.pmm.take frame, mem := mem' }
      (Function.update label (frame * 4096) (some (scheme.child l i))) where
  labelled := htables.labelled.create htable hagree (htables.unlabelled hclear)
    hslot hprivate hslot' hnew
  passes := by
    intro other l' j above' next hlabel hlink
    by_cases hsame : other = frame * 4096
    · rw [hsame, Function.update_self] at hlabel
      cases hlabel
      rw [hsame, scheme.path_child] at hlink
      exact absurd hlink (hnew j above' next)
    · rw [Function.update_of_ne hsame] at hlabel
      by_cases hself : other = table ∧ j = i
      · obtain ⟨rfl, rfl⟩ := hself
        rw [htable] at hlabel
        cases hlabel
        rw [hslot'] at hlink
        cases hlink
        exact habove
      · rw [hagree hlabel (not_and_or.mp hself)] at hlink
        exact htables.passes hlabel hlink
  reserved := by
    intro other l' hlabel
    by_cases hsame : other = frame * 4096
    · rw [hsame]
      exact .of_taken htables.zero hframe hclear (Pmm.used_take_self ..)
    · rw [Function.update_of_ne hsame] at hlabel
      exact (htables.reserved hlabel).take frame
  zero := Pmm.used_take_of_used htables.zero

/-- The state after a table for an empty slot has been allocated. -/
def State.withTable (st : State) (table index flags frame : Nat) : State :=
  { st with
    pmm := st.pmm.take frame
    mem := setEntry (clearTable st.mem (frame * 4096)) table index
      (tableEntry (frame * 4096) flags) }

theorem Tables.grown_create (htables : Tables scheme hide st label)
    (htable : label table = some l) (hdepth : (scheme.path l).length < 3)
    (hi : i < 512) (hshown : hide (scheme.path l) i = false)
    (hempty : viewHiding hide st.mem (scheme.path l) table i = .empty)
    (hframe : frame < Pmm.managedFrames) (hclear : st.pmm.used frame = false)
    (hnew : scheme.child l i ∈ new) (flags : Nat) :
    Grown scheme hide new st label (st.withTable table i flags frame)
        (Function.update label (frame * 4096) (some (scheme.child l i))) ∧
      viewHiding hide (st.withTable table i flags frame).mem (scheme.path l)
        table i = .link (allowed flags) (frame * 4096) := by
  have hlt : frame * 4096 < 2 ^ 52 := (managed_of_lt hframe).trans (by decide)
  have haligned : frame * 4096 % 4096 = 0 := Nat.mul_mod_left _ _
  have hdiv : frame * 4096 / 4096 = frame := Nat.mul_div_cancel _ (by decide)
  have hfresh : label (frame * 4096) = none := htables.unlabelled hclear
  have htable' := htables.reserved htable
  have hother : ∀ {other l'}, label other = some l' →
      other ≠ frame * 4096 := by
    rintro other l' hlabel rfl
    rw [hfresh] at hlabel
    cases hlabel
  have hslot' : viewHiding hide (st.withTable table i flags frame).mem
      (scheme.path l) table i = .link (allowed flags) (frame * 4096) := by
    rw [viewHiding_shown hshown hi, State.withTable,
      entryAt_setEntry_self _ _ _ (tableEntry_lt hlt flags)]
    exact decode_tableEntry hdepth haligned hlt flags
  have hempty' : ∀ j, viewHiding hide (st.withTable table i flags frame).mem
      (scheme.path l ++ [i]) (frame * 4096) j = .empty := by
    intro j
    unfold viewHiding State.withTable
    split
    · rfl
    · split
      · rw [entryAt_setEntry_other htable'.aligned haligned hi ‹_›
          (.inl (hother htable).symm), entryAt_clearTable_self _ _ ‹_›,
          decode_zero]
      · rfl
  have hagree : AgreeOff scheme label (viewHiding hide st.mem)
      (viewHiding hide (st.withTable table i flags frame).mem) table i := by
    intro other l' j hlabel hne
    have haligned' := (htables.reserved hlabel).aligned
    unfold viewHiding State.withTable
    split
    · rfl
    · split
      · rw [entryAt_setEntry_other htable'.aligned haligned' hi ‹_› hne,
          entryAt_clearTable_other haligned haligned' ‹_› (hother hlabel)]
      · rfl
  have hgather : ∀ (op : Rights → Rights → Rights) {start l'},
      label start = some l' → ∀ indices,
      gather op (viewHiding hide (st.withTable table i flags frame).mem)
        (scheme.path l') start indices =
      gather op (viewHiding hide st.mem) (scheme.path l') start indices :=
    fun op _ _ hstart indices => htables.labelled.gather_barren htable hagree
      (.inl hempty) (.inr ⟨_, _, hslot', hempty'⟩) hstart indices
  refine ⟨?_, hslot'⟩
  exact {
    tables := htables.addTable htable hframe hclear hagree
      (by simp [hempty]) (htables.labelled.settled htable hempty) hslot'
      (passage_le_allowed flags)
      fun j above next hlink => nomatch (hempty' j).symm.trans hlink
    labels := by
      intro other l' hlabel
      rw [Function.update_of_ne (hother hlabel), hlabel]
    named := by
      intro other l' hlabel
      by_cases hsame : other = frame * 4096
      · rw [hsame, Function.update_self] at hlabel
        cases hlabel
        exact .inr ⟨hsame ▸ hfresh, by rwa [hsame, hdiv], hnew⟩
      · rw [Function.update_of_ne hsame] at hlabel
        exact .inl hlabel
    links := by
      intro other l' j above next hlabel hlink
      by_cases hself : other = table ∧ j = i
      · obtain ⟨rfl, rfl⟩ := hself
        rw [htable] at hlabel
        cases hlabel
        rw [hempty] at hlink
        cases hlink
      · exact ⟨above, (hagree hlabel (not_and_or.mp hself)).trans hlink,
          le_rfl⟩
    leaves := fun hlabel indices => hgather _ hlabel indices
    exact := by
      intro root l' hlabel hpath hexact path
      have hwalk := hgather (· ⊓ ·) hlabel path
      have hfind := hgather (fun _ leaf => leaf) hlabel path
      rw [hpath] at hwalk hfind
      exact hwalk.trans ((hexact path).trans hfind.symm)
    outside := by
      intro addr haddr
      have hout := haddr table
        (by simp [Function.update_of_ne (hother htable), htable])
      have hout' := haddr (frame * 4096) (by simp)
      exact (setEntry_outside hi hout).trans (clearTable_outside hout')
    used := by
      intro f
      by_cases hsame : f = frame
      · subst hsame
        simp [State.withTable, Pmm.take]
      · have hne : f * 4096 ≠ frame * 4096 := by omega
        rw [Function.update_of_ne hne, ← htables.used_of_label f]
        exact Function.update_of_ne hsame ..
    counted := fun hcounted => (hcounted.take hframe hclear).1
    cr3 := rfl }

def Exhausted (pmm : Pmm) : Prop :=
  ∀ frame < Pmm.managedFrames, pmm.used frame = true

section Down

variable {pml4 target : Nat} {root : L} {front : Path}

theorem path_follow_root (hpath : scheme.path root = []) (front : Path) :
    scheme.path (scheme.follow root front) = front := by
  rw [scheme.path_follow, hpath, List.nil_append]

section

variable {need : Rights}
  (htables : Tables scheme hide st label) (hroot : label pml4 = some root)
  (hpath : scheme.path root = [])
  (hleads : Leads (viewHiding hide st.mem) need [] pml4 front target)

include htables hroot hpath hleads

theorem Tables.label_at : label target = some (scheme.follow root front) := by
  rw [← hpath] at hleads
  exact htables.labelled.label_leads hroot hleads

theorem Grown.root_leads
    (hgrown : Grown scheme hide new st label st' label') :
    Leads (viewHiding hide st'.mem) need [] pml4 front target := by
  rw [← hpath] at hleads ⊢
  exact htables.labelled.leads_mono hgrown.links hroot hleads

end

/-- The tables grow until one more of the way is there. -/
def WayDown (scheme : Scheme L) (hide : Path → Nat → Bool) (new : Set L)
    (st : State) (label : Nat → Option L) (pml4 flags : Nat) (way : Path)
    (result : State × Nat) : Prop :=
  ∃ label', Grown scheme hide new st label result.1 label' ∧ result.2 ≠ 0 ∧
    Leads (viewHiding hide result.1.mem) (allowed flags) [] pml4 way result.2

section

variable (htables : Tables scheme hide st label)
  (hroot : label pml4 = some root) (hpath : scheme.path root = [])
  (hleads : Leads (viewHiding hide st.mem) (allowed flags) [] pml4 front
    target)
  (hdepth : front.length < 3) (hi : i < 512) (hshown : hide front i = false)

include htables hroot hpath hleads hdepth hi hshown

theorem Tables.wayDown_present
    (hpresent : (st.entry target i).testBit 0 = true)
    (hsmall : front.length = 0 ∨ isHuge (st.entry target i) = false) :
    WayDown scheme hide new st label pml4 flags (front ++ [i])
      (st.getOrCreateTable target i flags) := by
  have htarget := htables.label_at hroot hpath hleads
  have hfront := path_follow_root hpath front
  have hsmall' : front.length = 0 ∨
      (st.entry target i).testBit 7 = false := by
    simpa [isHuge_eq, hpresent] using hsmall
  have hlink : viewHiding hide st.mem front target i =
      .link (rights (st.entry target i)) (st.entry target i &&& addrMask) := by
    rw [viewHiding_shown hshown hi]
    exact decode_link hdepth hpresent hsmall'
  have hresult : st.getOrCreateTable target i flags =
      (st.set target i (widenedEntry (st.entry target i) flags),
        st.entry target i &&& addrMask) := by
    rw [← widenedEntry_and_addrMask _ flags]
    simp only [State.getOrCreateTable, hasFlag_present, hpresent, if_true]
    rfl
  rw [← hfront] at hlink
  have hgrown : Grown scheme hide new st label
      (st.set target i (widenedEntry (st.entry target i) flags)) label :=
    htables.grown_widen htarget hlink flags
  obtain ⟨hself, _, hallowed⟩ := htables.widens_set htarget hlink flags
  have hnext := htables.labelled.linked htarget hlink
  rw [hfront] at hself
  rw [hresult]
  exact ⟨label, hgrown, (htables.reserved hnext).nonzero,
    (hgrown.root_leads htables hroot hpath hleads).snoc hself hallowed⟩

theorem Tables.wayDown_absent
    (habsent : (st.entry target i).testBit 0 = false)
    (hnew : scheme.follow root (front ++ [i]) ∈ new) :
    (Exhausted st.pmm ∧ st.getOrCreateTable target i flags = (st, 0)) ∨
    WayDown scheme hide new st label pml4 flags (front ++ [i])
      (st.getOrCreateTable target i flags) := by
  have htarget := htables.label_at hroot hpath hleads
  have hfront := path_follow_root hpath front
  have hempty : viewHiding hide st.mem front target i = .empty := by
    rw [viewHiding_shown hshown hi]
    exact decode_absent habsent
  have hfollow : scheme.follow root (front ++ [i]) =
      scheme.child (scheme.follow root front) i := by
    simp [Scheme.follow]
  rw [hfollow] at hnew
  rcases st.pmm.allocFrame_cases with
    ⟨frame, hframe, hclear, halloc⟩ | ⟨hfull, halloc⟩
  · right
    have hpos : frame ≠ 0 := by
      rintro rfl
      rw [htables.zero] at hclear
      cases hclear
    have hpos' : frame * Pmm.frameSize ≠ 0 :=
      Nat.mul_ne_zero hpos (by decide)
    have hresult : st.getOrCreateTable target i flags =
        (st.withTable target i flags frame, frame * 4096) := by
      simp only [State.getOrCreateTable, hasFlag_present, habsent, halloc,
        hpos', if_false, Bool.false_eq_true]
      rfl
    rw [← hfront] at hempty hdepth hshown
    obtain ⟨hgrown, hself⟩ := htables.grown_create htarget hdepth hi hshown
      hempty hframe hclear hnew flags
    rw [hfront] at hself
    rw [hresult]
    exact ⟨_, hgrown, hpos',
      (hgrown.root_leads htables hroot hpath hleads).snoc hself le_rfl⟩
  · left
    refine ⟨hfull, ?_⟩
    simp [State.getOrCreateTable, habsent, halloc]

theorem Tables.getOrCreateTable_cases
    (hsmall : front.length = 0 ∨ isHuge (st.entry target i) = false)
    (hnew : scheme.follow root (front ++ [i]) ∈ new) :
    (Exhausted st.pmm ∧ st.getOrCreateTable target i flags = (st, 0)) ∨
    WayDown scheme hide new st label pml4 flags (front ++ [i])
      (st.getOrCreateTable target i flags) := by
  cases hpresent : (st.entry target i).testBit 0 with
  | true =>
      exact .inr (htables.wayDown_present hroot hpath hleads hdepth hi hshown
        hpresent hsmall)
  | false =>
      exact htables.wayDown_absent hroot hpath hleads hdepth hi hshown
        hpresent hnew

theorem Tables.descend_cases (hnew : scheme.follow root (front ++ [i]) ∈ new) :
    ((isHuge (st.entry target i) = true ∨ Exhausted st.pmm) ∧
      st.descend target i flags = (st, 0)) ∨
    WayDown scheme hide new st label pml4 flags (front ++ [i])
      (st.descend target i flags) := by
  unfold State.descend
  split
  · exact .inl ⟨.inl ‹_›, rfl⟩
  · rename_i hhuge
    refine (htables.getOrCreateTable_cases hroot hpath hleads hdepth hi hshown
      (.inr (by simpa using hhuge)) hnew).imp_left ?_
    exact And.imp_left .inr

end

end Down

end Paging

end VenomOS
