/-
The contents of an address space: pages that are filled and then mapped, each
in a frame of its own.
-/
import VenomOS.PagingLifetime

namespace VenomOS

namespace Paging

open ByteMemory RadixTable

variable {st st' : State} {root frame virtAddr flags : Nat}
  {label label' : Nat → Option Path}

/-- The byte at a virtual address. -/
def byteAt (st : State) (root virtAddr : Nat) : Option UInt8 :=
  (translate st.mem root virtAddr).map fun mapping =>
    st.mem (mapping.frame + virtAddr % 4096)

theorem Space.translate_eq (hspace : Space st root label)
    (hslot : ¬ KernelSlot virtAddr) :
    translate st.mem root virtAddr =
      (find (ownView st.mem) root (vaPath virtAddr)).map toMapping := by
  have hshown : gather (· ⊓ ·) (ownView st.mem) [] root (vaPath virtAddr) =
      gather (· ⊓ ·) (view st.mem) [] root (vaPath virtAddr) :=
    gather_ownView _ st.mem (shown_hideKernel hslot)
  rw [← hspace.exact, translate, walk, walk, hshown]
  rfl

theorem Space.translate_of_maps (hspace : Space st root label)
    (hslot : ¬ KernelSlot virtAddr) {rights : Rights} {page : Page}
    (hmaps : Maps st root (vaPath virtAddr) rights page) :
    translate st.mem root virtAddr =
      some ⟨page.frame, rights.1, rights.2.1, !rights.2.2⟩ := by
  rw [hspace.translate_eq hslot, hmaps]
  simp [toMapping, pageWithin]

theorem Space.translate_eq_none (hspace : Space st root label)
    (hslot : ¬ KernelSlot virtAddr)
    (hnone : ∀ rights page, ¬ Maps st root (vaPath virtAddr) rights page) :
    translate st.mem root virtAddr = none := by
  rw [hspace.translate_eq hslot, Option.map_eq_none_iff]
  cases hfind : find (ownView st.mem) root (vaPath virtAddr) with
  | none => rfl
  | some found =>
      obtain ⟨rights, page, rest⟩ := found
      have hlength := hspace.small hfind
      have hnil : rest = [] := by
        simpa [vaPath] using hlength
      rw [hnil] at hfind
      exact absurd hfind (hnone rights page)

/-- A frame that was free has become a page with the given bytes.  Frames that
were in use and are no tables are as before. -/
structure Placed (st st' : State) (root virtAddr flags frame : Nat)
    (bytes : Nat → UInt8) (label label' : Nat → Option Path) : Prop where
  space : Space st' root label'
  labels : ∀ {frame l}, label frame = some l → label' frame = some l
  named : ∀ {frame l}, label' frame = some l → label frame = some l ∨
    st.pmm.used (frame / 4096) = false
  set : PageSet st st' root virtAddr (flagRights flags) ⟨frame, true⟩
  clear : st.pmm.used (frame / 4096) = false
  content : ∀ k < 4096, st'.mem (frame + k) = bytes k
  beside : ∀ other, Reserved st.pmm other → label other = none →
    SameAt st st' other
  kept : ∀ frame, st.pmm.used frame = true → st'.pmm.used frame = true
  taken : ∀ frame, st'.pmm.used frame = true →
    st.pmm.used frame = true ∨ Owns st' root label' (frame * 4096)

section Place

variable {n : Nat} {mem : Memory} {bytes : Nat → UInt8}

/-- Filling a free frame disturbs no address space. -/
theorem Space.fill (hspace : Space st root label)
    (hclear : st.pmm.used n = false)
    (hother : ∀ addr, addr < n * 4096 ∨ n * 4096 + 4096 ≤ addr →
      mem addr = st.mem addr) :
    Space { st with mem := mem } root label ∧
      PagesSame st { st with mem := mem } root := by
  refine hspace.undisturbed (fun {frame l} hlabel addr hge hlt => ?_)
    (fun frame howns => (hspace.reserved_of_under howns).used)
    hspace.tables.zero
  have hreserved := hspace.tables.reserved hlabel
  have haligned := hreserved.aligned
  have hne : frame / 4096 ≠ n := by
    rintro rfl
    rw [hreserved.used] at hclear
    cases hclear
  exact hother addr (by omega)

theorem Space.place (hspace : Space st root label)
    (hslot : ¬ KernelSlot virtAddr) (hflags : Plain flags)
    (howned : flags.testBit 9 = true) (hva : virtAddr % 4096 = 0)
    (hn : n < Pmm.managedFrames) (hclear : st.pmm.used n = false)
    {result : State × Bool}
    (hresult : State.mapPageIn { st with pmm := st.pmm.take n } root virtAddr
      (n * 4096) flags = result) (hok : result.2 = true) :
    ∃ label', Placed st result.1 root virtAddr flags (n * 4096)
      (fun k => st.mem (n * 4096 + k)) label label' := by
  obtain ⟨htaken, hfresh⟩ := hspace.take hn hclear
  have hlt : n * 4096 < 2 ^ 52 := (managed_of_lt hn).trans (by decide)
  obtain ⟨label', hspace', hextends, hcases⟩ := htaken.mapPageIn hslot hflags
    hlt hva (Nat.mul_mod_left _ _) fun _ => hfresh
  rw [hresult] at hspace' hextends hcases
  refine ⟨label', ?_⟩
  have hset : PageSet st result.1 root virtAddr (flagRights flags)
      ⟨n * 4096, true⟩ := by
    rcases hcases with ⟨hfalse, _⟩ | ⟨_, hset⟩
    · rw [hok] at hfalse
      cases hfalse
    · rwa [howned] at hset
  refine
    { space := hspace'
      labels := hextends.labels
      named := fun hlabel => ?_
      set := hset
      clear := by rwa [Nat.mul_div_cancel _ (by decide)]
      content := fun k hk => ?_
      beside := fun other hreserved hnone => ?_
      kept := fun frame hused => ?_
      taken := fun frame hused => ?_ }
  · exact (named_take hn hclear hextends hlabel).imp_right fun hnew => hnew.2.1
  · have hpage := hextends.sameAt hfresh.reserved hfresh.unlabelled
    exact hpage _ (Nat.le_add_right _ _) (Nat.add_lt_add_left hk _)
  · have hsame := hextends.sameAt (hreserved.take n) hnone
    exact hsame
  · rw [hextends.used, Pmm.used_take_of_used hused, Bool.true_or]
  · rcases taken_cases hextends hused with hold | rfl | ⟨l, hlabel⟩
    · exact .inl hold
    · refine .inr (.inr ⟨vaPath virtAddr, flagRights flags, ?_,
        List.nil_prefix⟩)
      rw [hset.maps_iff hspace, if_pos rfl]
      exact ⟨rfl, rfl⟩
    · exact .inr (.inl ⟨l, hlabel, List.nil_prefix⟩)

/-- What was in the frame before it was filled does not matter. -/
theorem Placed.of_fill
    (hplaced : Placed { st with mem := mem } st' root virtAddr flags
      (n * 4096) bytes label label')
    (hsame : PagesSame st { st with mem := mem } root)
    (hother : ∀ addr, addr < n * 4096 ∨ n * 4096 + 4096 ≤ addr →
      mem addr = st.mem addr) :
    Placed st st' root virtAddr flags (n * 4096) bytes label label' where
  space := hplaced.space
  labels := hplaced.labels
  named := hplaced.named
  set indices := by
    rw [hplaced.set indices]
    exact if_congr Iff.rfl rfl (hsame indices)
  clear := hplaced.clear
  content := hplaced.content
  beside other hreserved hnone addr hge hlt := by
    have hclear := hplaced.clear
    rw [Nat.mul_div_cancel _ (by decide)] at hclear
    have hne : other / 4096 ≠ n := by
      rintro rfl
      rw [hreserved.used] at hclear
      cases hclear
    have haligned := hreserved.aligned
    rw [← hother addr (by omega)]
    exact hplaced.beside other hreserved hnone addr hge hlt
  kept := hplaced.kept
  taken := hplaced.taken

end Place

/-- What a page is to hold. -/
structure PageImage where
  virtAddr : Nat
  flags : Nat
  bytes : Nat → UInt8

variable {before : Pmm} {pages : List PageImage} {bytes : Nat → UInt8}

/-- The address space has these pages and no others. -/
structure Image (before : Pmm) (pages : List PageImage) (st : State)
    (root : Nat) (label : Nat → Option Path) : Prop
    extends Accounts before st root label where
  holds : ∀ image ∈ pages, ∃ frame,
    Maps st root (vaPath image.virtAddr) (flagRights image.flags)
      ⟨frame, true⟩ ∧ ∀ k < 4096, st.mem (frame + k) = image.bytes k
  only : ∀ {path rights page}, Maps st root path rights page →
    ∃ image ∈ pages, path = vaPath image.virtAddr

theorem Image.new {f g e : Nat} (hzero : st.pmm.used 0 = true)
    (hclear : TwoClear st.pmm f g) (he : e < 2 ^ 64) :
    Image st.pmm [] (st.planted f g e) (f * 4096) (newLabel f g) := by
  have hprogress := Progress.new hzero hclear he
  refine { hprogress.toAccounts with holds := nofun, only := fun hmaps => ?_ }
  obtain ⟨virtAddr, hmem, _⟩ := hprogress.pages hmaps
  cases hmem

section

variable (hplaced : Placed st st' root virtAddr flags frame bytes label label')
  (hspace : Space st root label)

include hplaced hspace

theorem Placed.maps_cases {path : Path} {rights : Rights} {page : Page}
    (hmaps : Maps st' root path rights page) :
    (path ≠ vaPath virtAddr ∧ Maps st root path rights page) ∨
      path = vaPath virtAddr ∧ page = ⟨frame, true⟩ := by
  rw [hplaced.set.maps_iff hspace] at hmaps
  split at hmaps
  · exact .inr ⟨‹_›, hmaps.2⟩
  · exact .inl ⟨‹_›, hmaps⟩

theorem Placed.maps_old {path : Path} {rights : Rights} {page : Page}
    (hmaps : Maps st root path rights page) (hne : path ≠ vaPath virtAddr) :
    Maps st' root path rights page := by
  rw [hplaced.set.maps_iff hspace, if_neg hne]
  exact hmaps

theorem Placed.maps_self :
    Maps st' root (vaPath virtAddr) (flagRights flags) ⟨frame, true⟩ := by
  rw [hplaced.set.maps_iff hspace, if_pos rfl]
  exact ⟨rfl, rfl⟩

theorem Placed.owns_cases {other : Nat} (howns : Owns st' root label' other) :
    Owns st root label other ∨ st.pmm.used (other / 4096) = false := by
  rcases howns with ⟨l, hlabel, hl⟩ | ⟨path, rights, hmaps, hpath⟩
  · exact (hplaced.named hlabel).imp_left fun hold => .inl ⟨l, hold, hl⟩
  · rcases hplaced.maps_cases hspace hmaps with ⟨_, hold⟩ | ⟨_, hpage⟩
    · exact .inl (.inr ⟨path, rights, hold, hpath⟩)
    · cases hpage
      exact .inr hplaced.clear

end

/-- A page of the address space with the right flags and bytes. -/
def Shows (st : State) (root : Nat) (image : PageImage) : Prop :=
  ∃ frame, Maps st root (vaPath image.virtAddr) (flagRights image.flags)
      ⟨frame, true⟩ ∧ ∀ k < 4096, st.mem (frame + k) = image.bytes k

section

variable (hplaced : Placed st st' root virtAddr flags frame bytes label label')

include hplaced

theorem Placed.shows_self (hspace : Space st root label) :
    Shows st' root ⟨virtAddr, flags, bytes⟩ :=
  ⟨frame, hplaced.maps_self hspace, hplaced.content⟩

theorem Placed.shows_old (hspace : Space st root label) {image : PageImage}
    (hshows : Shows st root image)
    (hne : vaPath image.virtAddr ≠ vaPath virtAddr) : Shows st' root image := by
  obtain ⟨old, hmaps, hcontent⟩ := hshows
  obtain ⟨hreserved, hnone⟩ := hspace.owned hmaps
  refine ⟨old, hplaced.maps_old hspace hmaps hne, fun k hk => ?_⟩
  rw [← hcontent k hk]
  have hbeside := hplaced.beside old hreserved hnone
  exact hbeside _ (Nat.le_add_right _ _) (Nat.add_lt_add_left hk _)

theorem Image.place (himage : Image before pages st root label)
    (hnew : ∀ image ∈ pages, vaPath image.virtAddr ≠ vaPath virtAddr) :
    Image before (pages ++ [⟨virtAddr, flags, bytes⟩]) st' root label' where
  toAccounts := by
    refine himage.toAccounts.step hplaced.space hplaced.kept hplaced.taken
      (fun other howns => ?_) fun other howns =>
        hplaced.owns_cases himage.space howns
    rcases howns with ⟨l, hlabel, hl⟩ | ⟨path, rights, hmaps, hpath⟩
    · exact .inl ⟨l, hplaced.labels hlabel, hl⟩
    · obtain ⟨image, hmem, rfl⟩ := himage.only hmaps
      exact .inr ⟨_, rights, hplaced.maps_old himage.space hmaps
        (hnew image hmem), hpath⟩
  holds image hmem := by
    rcases List.mem_append.mp hmem with hmem | hmem
    · exact hplaced.shows_old himage.space (himage.holds image hmem)
        (hnew image hmem)
    · obtain rfl := List.mem_singleton.mp hmem
      exact hplaced.shows_self himage.space
  only hmaps := by
    rcases hplaced.maps_cases himage.space hmaps with ⟨_, hold⟩ | ⟨hpath, _⟩
    · obtain ⟨image, hmem, hpath⟩ := himage.only hold
      exact ⟨image, List.mem_append_left _ hmem, hpath⟩
    · exact ⟨⟨virtAddr, flags, bytes⟩, by simp, hpath⟩

end

/-- A frame is allocated, filled and mapped. -/
def PlaceStep (root : Nat) (image : PageImage) (st st' : State) : Prop :=
  ∃ n mem, n < Pmm.managedFrames ∧ st.pmm.used n = false ∧
    (∀ k < 4096, mem (n * 4096 + k) = image.bytes k) ∧
    (∀ addr, addr < n * 4096 ∨ n * 4096 + 4096 ≤ addr →
      mem addr = st.mem addr) ∧
    State.mapPageIn { st with pmm := st.pmm.take n, mem := mem } root
      image.virtAddr (n * 4096) image.flags = (st', true)

/-- Pages are placed one after the other. -/
inductive Places (root : Nat) : List PageImage → State → State → Prop
  | nil {st : State} : Places root [] st st
  | cons {image : PageImage} {images : List PageImage} {st between st' : State}
      (hstep : PlaceStep root image st between)
      (hrest : Places root images between st') :
      Places root (image :: images) st st'

theorem Places.append {images images' : List PageImage} {between : State}
    (hfirst : Places root images st between)
    (hsecond : Places root images' between st') :
    Places root (images ++ images') st st' := by
  induction hfirst with
  | nil => exact hsecond
  | cons hstep _ ih => exact .cons hstep (ih hsecond)

variable {images : List PageImage} {paths : Path → Prop} {image : PageImage}

theorem PlaceStep.placed (hstep : PlaceStep root image st st')
    (hspace : Space st root label)
    (huser : UserPage image.virtAddr image.flags) :
    ∃ frame label', Placed st st' root image.virtAddr image.flags frame
      image.bytes label label' := by
  obtain ⟨n, mem, hn, hclear, hbytes, hother, hresult⟩ := hstep
  obtain ⟨hfilled, hsame⟩ := hspace.fill hclear hother
  obtain ⟨label', hplaced⟩ := hfilled.place
    (not_kernelSlot_of_user huser.min huser.max) huser.plain
    ((hasFlag_owned _).symm.trans huser.owned) huser.aligned hn hclear hresult
    rfl
  refine ⟨n * 4096, label', ?_⟩
  have hplaced' : Placed { st with mem := mem } st' root image.virtAddr
      image.flags (n * 4096) image.bytes label label' :=
    { hplaced with
      content := fun k hk => (hplaced.content k hk).trans (hbytes k hk) }
  exact hplaced'.of_fill hsame hother

theorem Image.places (himage : Image before pages st root label)
    (hplaces : Places root images st st')
    (huser : ∀ image ∈ images, UserPage image.virtAddr image.flags)
    (hdistinct : ((pages ++ images).map fun image =>
      vaPath image.virtAddr).Nodup) :
    ∃ label', Image before (pages ++ images) st' root label' := by
  induction hplaces generalizing pages label with
  | nil => exact ⟨label, by rwa [List.append_nil]⟩
  | @cons image images st between st' hstep _ ih =>
      obtain ⟨frame, label₁, hplaced⟩ := hstep.placed himage.space
        (huser image List.mem_cons_self)
      have hsplit : pages ++ image :: images =
          (pages ++ [⟨image.virtAddr, image.flags, image.bytes⟩]) ++ images := by
        simp
      rw [hsplit] at hdistinct ⊢
      refine ih (himage.place hplaced fun other hother heq => ?_)
        (fun other hother => huser other (List.mem_cons_of_mem _ hother))
        hdistinct
      rw [List.append_assoc, List.map_append, List.nodup_append'] at hdistinct
      refine hdistinct.2.2 (List.mem_map_of_mem hother) ?_
      simp [heq]

/-- The pages that were placed are there; so are earlier ones, unless one was
placed over them. -/
theorem Places.shows (hplaces : Places root images st st')
    (hspace : Space st root label)
    (huser : ∀ image ∈ images, UserPage image.virtAddr image.flags)
    (hdistinct : (images.map fun image => vaPath image.virtAddr).Nodup) :
    ∃ label', Space st' root label' ∧
      (∀ image ∈ images, Shows st' root image) ∧
      ∀ image, Shows st root image →
        (∀ other ∈ images, vaPath image.virtAddr ≠ vaPath other.virtAddr) →
        Shows st' root image := by
  induction hplaces generalizing label with
  | nil => exact ⟨label, hspace, by simp, fun _ hshows _ => hshows⟩
  | @cons image images st between st' hstep _ ih =>
      rw [List.map_cons, List.nodup_cons] at hdistinct
      obtain ⟨frame, label₁, hplaced⟩ := hstep.placed hspace
        (huser image List.mem_cons_self)
      obtain ⟨label', hspace', hall, hkept⟩ := ih hplaced.space
        (fun other hother => huser other (List.mem_cons_of_mem _ hother))
        hdistinct.2
      refine ⟨label', hspace', fun other hother => ?_,
        fun other hshows hother => hkept other
          (hplaced.shows_old hspace hshows (hother image List.mem_cons_self))
          fun later hlater => hother later (List.mem_cons_of_mem _ hlater)⟩
      rcases List.mem_cons.mp hother with rfl | hother
      · refine hkept other (hplaced.shows_self hspace) fun later hlater heq => ?_
        exact hdistinct.1 (List.mem_map.mpr ⟨later, hlater, heq.symm⟩)
      · exact hall other hother

/-- A frame that is in use, is no table, and is a page at these paths at
most. -/
structure Pinned (st : State) (root : Nat) (label : Nat → Option Path)
    (frame : Nat) (paths : Path → Prop) : Prop where
  used : st.pmm.used (frame / 4096) = true
  table : label frame = none
  pages : ∀ {path rights page}, Maps st root path rights page →
    page.frame = frame → paths path

theorem Pinned.placed {other : Nat}
    (hpinned : Pinned st root label other paths)
    (hspace : Space st root label)
    (hplaced : Placed st st' root virtAddr flags frame bytes label label') :
    Pinned st' root label' other fun path =>
      paths path ∧ path ≠ vaPath virtAddr where
  used := hplaced.kept _ hpinned.used
  table := by
    rw [Option.eq_none_iff_forall_ne_some]
    intro l hlabel
    rcases hplaced.named hlabel with hold | hclear
    · rw [hpinned.table] at hold
      cases hold
    · rw [hpinned.used] at hclear
      cases hclear
  pages hmaps hframe := by
    rcases hplaced.maps_cases hspace hmaps with ⟨hne, hold⟩ | ⟨_, hpage⟩
    · exact ⟨hpinned.pages hold hframe, hne⟩
    · have hclear := hplaced.clear
      rw [hpage] at hframe
      obtain rfl : frame = other := hframe
      rw [hpinned.used] at hclear
      cases hclear

theorem Places.pinned {other : Nat} (hplaces : Places root images st st')
    (hspace : Space st root label)
    (huser : ∀ image ∈ images, UserPage image.virtAddr image.flags)
    (hpinned : Pinned st root label other paths) :
    ∃ label', Space st' root label' ∧ Pinned st' root label' other fun path =>
      paths path ∧ ∀ image ∈ images, path ≠ vaPath image.virtAddr := by
  induction hplaces generalizing label paths with
  | nil => exact ⟨label, hspace, by simpa using hpinned⟩
  | @cons image images st between st' hstep _ ih =>
      obtain ⟨frame, label₁, hplaced⟩ := hstep.placed hspace
        (huser image List.mem_cons_self)
      obtain ⟨label', hspace', hpinned'⟩ := ih hplaced.space
        (fun other hother => huser other (List.mem_cons_of_mem _ hother))
        (hpinned.placed hspace hplaced)
      refine ⟨label', hspace', hpinned'.used, hpinned'.table,
        fun hmaps hframe => ?_⟩
      obtain ⟨⟨hpath, hne⟩, hrest⟩ := hpinned'.pages hmaps hframe
      exact ⟨hpath, List.forall_mem_cons.mpr ⟨hne, hrest⟩⟩

/-- A table of the address space, or a page of it. -/
def Referenced (st : State) (root frame : Nat) : Prop :=
  (∃ path, Leads (ownView st.mem) ⊥ [] root path frame) ∨
    ∃ path rights page, Maps st root path rights page ∧ page.frame = frame

theorem Space.referenced (hspace : Space st root label)
    (howns : Owns st root label frame) : Referenced st root frame := by
  rcases howns with ⟨l, hlabel, _⟩ | ⟨path, rights, hmaps, _⟩
  · exact .inl ⟨l, hspace.leads hlabel⟩
  · exact .inr ⟨path, rights, _, hmaps, rfl⟩

theorem Pinned.not_referenced (hpinned : Pinned st root label frame paths)
    (hspace : Space st root label) (hnone : ∀ path, ¬ paths path) :
    ¬ Referenced st root frame := by
  rintro (⟨path, hleads⟩ | ⟨path, rights, page, hmaps, hframe⟩)
  · have hlabel := hspace.label_of_leads hleads
    rw [hpinned.table] at hlabel
    cases hlabel
  · exact hnone path (hpinned.pages hmaps hframe)

theorem Image.pinned (himage : Image before pages st root label) {path : Path}
    {rights : Rights} (hmaps : Maps st root path rights ⟨frame, true⟩) :
    Pinned st root label frame fun other => other = path where
  used := (himage.space.owned hmaps).1.used
  table := (himage.space.owned hmaps).2
  pages hother hframe := by
    obtain ⟨image, hmem, rfl⟩ := himage.only hother
    obtain ⟨frame', hown, _⟩ := himage.holds image hmem
    have hsame := hother.symm.trans hown
    simp only [Option.some.injEq, Prod.mk.injEq, and_true] at hsame
    rw [hsame.2] at hframe
    obtain rfl : frame' = frame := hframe
    exact himage.space.distinct hown hmaps

/-- An address on a page. -/
structure Within (virtAddr addr : Nat) : Prop where
  first : virtAddr ≤ addr
  last : addr < virtAddr + 4096

theorem Within.vaPath_eq (hwithin : Within virtAddr addr)
    (haligned : virtAddr % 4096 = 0) (hmax : virtAddr < Elf.userSpaceMax) :
    vaPath addr = vaPath virtAddr := by
  obtain ⟨hfirst, hlast⟩ := hwithin
  simp only [Elf.userSpaceMax] at hmax
  exact (vaPath_inj (by omega) (by omega)).mpr (by omega)

/-- A page is there for the processor, with its bytes. -/
theorem Shows.visible (hshows : Shows st root image)
    (hspace : Space st root label)
    (huser : UserPage image.virtAddr image.flags) {addr : Nat}
    (hwithin : Within image.virtAddr addr) :
    ∃ frame, translate st.mem root addr =
        some ⟨frame, (flagRights image.flags).1, (flagRights image.flags).2.1,
          !(flagRights image.flags).2.2⟩ ∧
      byteAt st root addr = some (image.bytes (addr - image.virtAddr)) := by
  obtain ⟨frame, hmaps, hcontent⟩ := hshows
  have hpath := hwithin.vaPath_eq huser.aligned huser.max
  have hslot : ¬ KernelSlot addr := by
    have hslot := not_kernelSlot_of_user huser.min huser.max
    simp only [vaPath, List.cons.injEq] at hpath
    rwa [KernelSlot, hpath.1, hpath.2.1]
  have htranslate := hspace.translate_of_maps hslot (hpath ▸ hmaps)
  refine ⟨frame, htranslate, ?_⟩
  obtain ⟨hfirst, hlast⟩ := hwithin
  have haligned := huser.aligned
  have hoffset : addr % 4096 = addr - image.virtAddr := by omega
  rw [byteAt, htranslate, Option.map_some, hoffset,
    hcontent _ (by omega)]

theorem Image.absent (himage : Image before pages st root label)
    (huser : ∀ image ∈ pages, UserPage image.virtAddr image.flags) {addr : Nat}
    (hmin : 2 ^ 30 ≤ addr) (hmax : addr < 2 ^ 48)
    (hnone : ∀ image ∈ pages, ¬ Within image.virtAddr addr) :
    translate st.mem root addr = none := by
  have hslot : ¬ KernelSlot addr := by
    simp only [KernelSlot, pml4Index, pdptIndex, index_eq]
    omega
  refine himage.space.translate_eq_none hslot fun rights page hmaps => ?_
  obtain ⟨image, hmem, hpath⟩ := himage.only hmaps
  have haligned := (huser image hmem).aligned
  have hlt := (huser image hmem).max
  simp only [Elf.userSpaceMax] at hlt
  have hsame := (vaPath_inj hmax (by omega)).mp hpath
  exact hnone image hmem ⟨by omega, by omega⟩

/-- A new address space has no pages. -/
theorem Image.create {root : Nat} (hcreate : st.createAddressSpace = (st', root))
    (hroot : root ≠ 0) : ∃ label, Image st.pmm [] st' root label := by
  have hzero : st.pmm.used 0 = true := by
    by_contra hzero
    rw [Bool.not_eq_true] at hzero
    have hnull : st.createAddressSpace.2 = 0 := by
      cases hpresent : (st.entry (st.cr3 &&& addrMask) 0).testBit 0 <;>
        simp [State.createAddressSpace, hpresent, allocFrame_zero hzero]
    rw [hcreate] at hnull
    exact hroot hnull
  rcases st.createAddressSpace_cases hzero with
    ⟨hresult, _⟩ | ⟨f, g, hclear, _, hresult⟩
  · rw [hcreate] at hresult
    exact absurd (Prod.mk.inj hresult).2 hroot
  · obtain ⟨rfl, rfl⟩ := Prod.mk.inj (hcreate.symm.trans hresult)
    exact ⟨_, Image.new hzero hclear (entryAt_lt ..)⟩

end Paging

end VenomOS
