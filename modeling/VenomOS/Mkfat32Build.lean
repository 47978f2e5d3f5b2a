/-
What the image builder has made when it is done: every file and every directory
of the tree has a chain of its own in the FAT, with its bytes in the clusters.
-/
import VenomOS.Mkfat32Tree

namespace VenomOS

namespace Fat32

namespace Mkfat32

open ByteMemory Blocks

/-- Each cluster leads to the one behind it, and the last one ends the
chain. -/
def Linked (fat : Nat → Nat) : List Nat → Prop
  | [] => True
  | [c] => fat c = endOfChain
  | c :: next :: rest => fat c = next ∧ Linked fat (next :: rest)

variable {fat fat' : Nat → Nat} {got chain : List Nat} {c last n : Nat}

theorem linkChain_cons_cons {next : Nat} :
    linkChain (c :: next :: got) fat =
      linkChain (next :: got) (Function.update fat c next) := rfl

theorem linkChain_of_notMem (hc : c ∉ got) : linkChain got fat c = fat c := by
  induction got generalizing fat with
  | nil => rfl
  | cons first got ih =>
      cases got with
      | nil => rfl
      | cons next got =>
          rw [List.mem_cons, not_or] at hc
          rw [linkChain_cons_cons, ih hc.2, Function.update_of_ne hc.1]

theorem linked_linkChain (hnodup : got.Nodup)
    (hlast : got.getLast? = some last) :
    Linked (Function.update (linkChain got fat) last endOfChain) got := by
  induction got generalizing fat with
  | nil => trivial
  | cons first got ih =>
      cases got with
      | nil =>
          obtain rfl : first = last := Option.some.inj hlast
          exact Function.update_self _ _ _
      | cons next got =>
          rw [List.nodup_cons] at hnodup
          rw [List.getLast?_cons_cons] at hlast
          have hne : first ≠ last := by
            rintro rfl
            exact hnodup.1 (List.mem_of_getLast? hlast)
          refine ⟨?_, ?_⟩
          · rw [Function.update_of_ne hne, linkChain_cons_cons,
              linkChain_of_notMem hnodup.1, Function.update_self]
          · rw [linkChain_cons_cons]
            exact ih hnodup.2 hlast

theorem Linked.congr (hlinked : Linked fat chain)
    (hsame : ∀ c ∈ chain, fat' c = fat c) : Linked fat' chain := by
  induction chain with
  | nil => trivial
  | cons first chain ih =>
      have hrest : ∀ c ∈ chain, fat' c = fat c := fun c hc =>
        hsame c (List.mem_cons_of_mem _ hc)
      cases chain with
      | nil => exact (hsame first List.mem_cons_self).trans hlinked
      | cons next chain =>
          exact ⟨(hsame first List.mem_cons_self).trans hlinked.1,
            ih hlinked.2 hrest⟩

/-- The clusters that have been handed out. -/
def Builder.used (b : Builder) : List Nat := b.free.take b.cursor

/-- No cluster can be handed out twice, and data is in clusters that have
been handed out, for each at most once. -/
structure Builder.Sound (b : Builder) : Prop where
  nodup : b.free.Nodup
  cursor_le : b.cursor ≤ b.free.length
  keys : (b.data.map Prod.fst).Nodup
  data : ∀ item ∈ b.data, item.1 ∈ b.used ∧ item.2.length = sectorSize

/-- The chains of clusters that were handed out stay, and so does all data. -/
structure Builder.Extends (b b' : Builder) : Prop where
  free : b'.free = b.free
  cursor : b.cursor ≤ b'.cursor
  fat : ∀ c ∈ b.used, b'.fat c = b.fat c
  data : b.data ⊆ b'.data

/-- New data is in new clusters only. -/
structure Builder.Step (b b' : Builder) : Prop where
  sound : b'.Sound
  extends_ : b.Extends b'
  fresh : ∀ item ∈ b'.data, item ∈ b.data ∨ item.1 ∉ b.used

variable {b b₁ b₂ b' : Builder} {raw content : List UInt8}

theorem Builder.Extends.refl (b : Builder) : b.Extends b :=
  ⟨rfl, le_rfl, fun _ _ => rfl, List.Subset.refl _⟩

theorem Builder.Extends.used (hextends : b.Extends b') : b.used ⊆ b'.used := by
  rw [Builder.used, Builder.used, hextends.free]
  exact (List.take_prefix_take_left hextends.cursor).subset

theorem Builder.Extends.trans (hfirst : b.Extends b₁)
    (hsecond : b₁.Extends b') : b.Extends b' where
  free := hsecond.free.trans hfirst.free
  cursor := hfirst.cursor.trans hsecond.cursor
  fat c hc := (hsecond.fat c (hfirst.used hc)).trans (hfirst.fat c hc)
  data := List.Subset.trans hfirst.data hsecond.data

theorem Builder.Step.refl (hsound : b.Sound) : b.Step b :=
  ⟨hsound, .refl b, fun _ hitem => .inl hitem⟩

theorem Builder.Step.trans (hfirst : b.Step b₁) (hsecond : b₁.Step b') :
    b.Step b' where
  sound := hsecond.sound
  extends_ := hfirst.extends_.trans hsecond.extends_
  fresh item hitem := by
    rcases hsecond.fresh item hitem with hold | hnew
    · exact hfirst.fresh item hold
    · exact .inr fun hused => hnew (hfirst.extends_.used hused)

/-- What `alloc` hands out. -/
structure Allocated (b : Builder) (n : Nat) (chain : List Nat) (b' : Builder) :
    Prop where
  step : b.Step b'
  length : chain.length = n
  ne_nil : chain ≠ []
  linked : Linked b'.fat chain
  used : b'.used = b.used ++ chain
  data : b'.data = b.data

theorem Builder.Sound.alloc (hsound : b.Sound)
    (halloc : b.alloc n = some (chain, b')) : Allocated b n chain b' := by
  rw [Builder.alloc] at halloc
  split at halloc
  · cases halloc
  next henough =>
    split at halloc
    · cases halloc
    next last hlast =>
      obtain ⟨rfl, rfl⟩ := Prod.mk.inj (Option.some.inj halloc)
      have hlength : ((b.free.drop b.cursor).take n).length = n := by
        have hle := List.length_take_le n (b.free.drop b.cursor)
        omega
      have hroom : b.cursor + n ≤ b.free.length := by
        rw [List.length_take, List.length_drop] at hlength
        have hcursor := hsound.cursor_le
        omega
      have hused : b.free.take (b.cursor + n) =
          b.used ++ (b.free.drop b.cursor).take n := List.take_add
      have hnodup : (b.used ++ (b.free.drop b.cursor).take n).Nodup := by
        rw [← hused]
        exact hsound.nodup.sublist (List.take_sublist _ _)
      have hapart : ∀ c ∈ b.used, c ∉ (b.free.drop b.cursor).take n :=
        fun c hc hc' => List.disjoint_of_nodup_append hnodup hc hc'
      refine ⟨⟨⟨hsound.nodup, hroom, hsound.keys, fun item hitem => ?_⟩,
        ⟨rfl, Nat.le_add_right _ _, fun c hc => ?_, List.Subset.refl _⟩,
        fun _ hitem => .inl hitem⟩, hlength, ?_, ?_, hused, rfl⟩
      · obtain ⟨hkey, hblock⟩ := hsound.data item hitem
        refine ⟨?_, hblock⟩
        rw [Builder.used, hused]
        exact List.mem_append_left _ hkey
      · have hne : c ≠ last := by
          rintro rfl
          exact hapart c hc (List.mem_of_getLast? hlast)
        dsimp only
        rw [Function.update_of_ne hne, linkChain_of_notMem (hapart c hc)]
      · intro hnil
        rw [hnil] at hlast
        cases hlast
      · exact linked_linkChain hnodup.of_append_right hlast

/-- A chain with its bytes. -/
structure Stored (b : Builder) (chain : List Nat) (raw : List UInt8) :
    Prop where
  ne_nil : chain ≠ []
  nodup : chain.Nodup
  used : chain ⊆ b.used
  linked : Linked b.fat chain
  length : raw.length = chain.length * sectorSize
  data : ∀ i (hi : i < chain.length),
    (chain.get ⟨i, hi⟩, chunk sectorSize raw i) ∈ b.data

theorem Stored.extend (hstored : Stored b chain raw)
    (hextends : b.Extends b') : Stored b' chain raw where
  ne_nil := hstored.ne_nil
  nodup := hstored.nodup
  used := List.Subset.trans hstored.used hextends.used
  linked := hstored.linked.congr fun c hc => hextends.fat c (hstored.used hc)
  length := hstored.length
  data i hi := hextends.data (hstored.data i hi)

theorem map_fst_setData :
    (b.setData chain raw).data.map Prod.fst =
      b.data.map Prod.fst ++ chain := by
  rw [Builder.setData, List.map_append]
  congr 1
  refine List.ext_getElem (by simp) fun i _ _ => ?_
  simp

/-- The clusters that were handed out may be filled at any later time. -/
theorem Allocated.setData (hallocated : Allocated b n chain b₁)
    (hstep : b₁.Step b₂) (hsound : b.Sound)
    (hlength : raw.length = n * sectorSize) :
    b.Step (b₂.setData chain raw) ∧ b₂.Extends (b₂.setData chain raw) ∧
      Stored (b₂.setData chain raw) chain raw := by
  have hnodup : (b.used ++ chain).Nodup := by
    rw [← hallocated.used]
    exact hallocated.step.sound.nodup.sublist (List.take_sublist _ _)
  have hchain : chain ⊆ b₁.used := by
    rw [hallocated.used]
    exact List.subset_append_right _ _
  have hunwritten : ∀ item ∈ b₂.data, item.1 ∉ chain := by
    intro item hitem hmem
    rcases hstep.fresh item hitem with hold | hnew
    · rw [hallocated.data] at hold
      exact List.disjoint_of_nodup_append hnodup (hsound.data item hold).1 hmem
    · exact hnew (hchain hmem)
  have hitems : ∀ item ∈ (b₂.setData chain raw).data, item ∈ b₂.data ∨
      item.1 ∈ chain ∧ item.2.length = sectorSize := by
    intro item hitem
    rcases List.mem_append.1 hitem with hitem | hitem
    · exact .inl hitem
    · obtain ⟨i, hi, rfl⟩ := List.mem_mapIdx.1 hitem
      rw [← hallocated.length] at hlength
      exact .inr ⟨List.getElem_mem hi, chunk_length hlength hi⟩
  have hextends : b₂.Extends (b₂.setData chain raw) :=
    ⟨rfl, le_rfl, fun _ _ => rfl, List.subset_append_left _ _⟩
  refine ⟨⟨⟨hstep.sound.nodup, hstep.sound.cursor_le, ?_, ?_⟩,
    (hallocated.step.extends_.trans hstep.extends_).trans hextends, ?_⟩,
    hextends, ⟨hallocated.ne_nil, hnodup.of_append_right, ?_, ?_, ?_, ?_⟩⟩
  · rw [map_fst_setData, List.nodup_append']
    refine ⟨hstep.sound.keys, hnodup.of_append_right, ?_⟩
    intro c hc hmem
    obtain ⟨item, hitem, rfl⟩ := List.mem_map.1 hc
    exact hunwritten item hitem hmem
  · intro item hitem
    rcases hitems item hitem with hold | ⟨hkey, hblock⟩
    · exact hstep.sound.data item hold
    · exact ⟨hstep.extends_.used (hchain hkey), hblock⟩
  · intro item hitem
    rcases hitems item hitem with hold | ⟨hkey, _⟩
    · exact (hallocated.step.trans hstep).fresh item hold
    · exact .inr fun hused => List.disjoint_of_nodup_append hnodup hused hkey
  · exact fun c hc => hstep.extends_.used (hchain hc)
  · exact hallocated.linked.congr fun c hc =>
      hstep.extends_.fat c (hchain hc)
  · rw [hlength, hallocated.length]
  · intro i hi
    exact List.mem_append_right _ (List.mem_mapIdx.2 ⟨i, hi, rfl⟩)

theorem ljust_length {width : Nat} (hle : raw.length ≤ width) :
    (ljust width raw).length = width := by
  rw [ljust, List.length_append, List.length_replicate]
  omega

/-- The first cluster of a file; an empty file has none. -/
def FileAt (b : Builder) (content : List UInt8) (first : Nat) : Prop :=
  content = [] ∨ ∃ chain, chain.head? = some first ∧
    content.length ≤ chain.length * sectorSize ∧
    Stored b chain (ljust (chain.length * sectorSize) content)

theorem FileAt.extend {first : Nat} (hfile : FileAt b content first)
    (hextends : b.Extends b') : FileAt b' content first := by
  rcases hfile with hempty | ⟨chain, hfirst, hroom, hstored⟩
  · exact .inl hempty
  · exact .inr ⟨chain, hfirst, hroom, hstored.extend hextends⟩

theorem head?_eq_headD (hne : chain ≠ []) :
    chain.head? = some (chain.headD 0) := by
  cases chain with
  | nil => exact absurd rfl hne
  | cons c chain => rfl

theorem Builder.Sound.store {first : Nat} (hsound : b.Sound)
    (hstore : b.store content = some (first, b')) :
    b.Step b' ∧ FileAt b' content first := by
  rw [Builder.store] at hstore
  split at hstore
  · cases hstore
  next chain b₁ halloc =>
    obtain ⟨rfl, rfl⟩ := Prod.mk.inj (Option.some.inj hstore)
    have hallocated := hsound.alloc halloc
    have hroom : content.length ≤ max 1 ((content.length + sectorSize - 1) /
        sectorSize) * sectorSize := by
      rw [sectorSize]
      omega
    obtain ⟨hstep, _, hstored⟩ := hallocated.setData
      (.refl hallocated.step.sound) hsound (ljust_length hroom)
    rw [← hallocated.length] at hroom hstored hstep ⊢
    exact ⟨hstep, .inr ⟨chain, head?_eq_headD hallocated.ne_nil, hroom,
      hstored⟩⟩

/-- The entries of the files of a directory. -/
inductive FileEntries (b : Builder) : Dir → List (List UInt8) → Prop
  | nil : FileEntries b .nil []
  | file {name content short : List UInt8} {rest : Dir} {first : Nat}
      {entries : List (List UInt8)} (hname : shortName name = some short)
      (hsize : content.length < 2 ^ 32) (hfile : FileAt b content first)
      (hrest : FileEntries b rest entries) :
      FileEntries b (.file name content rest)
        (packEntry short 0x20 first content.length :: entries)
  | dir {name : List UInt8} {sub rest : Dir} {entries : List (List UInt8)}
      (hrest : FileEntries b rest entries) :
      FileEntries b (.dir name sub rest) entries

/-- An entry that `write_dir_content` puts in front. -/
def DotEntry (entry : List UInt8) : Prop :=
  ∃ parent selfCluster, entry ∈ dotEntries parent selfCluster

/-- A chain with the entries of a directory. -/
structure Filled (b : Builder) (chain : List Nat)
    (entries : List (List UInt8)) : Prop where
  room : entries.flatten.length ≤ chain.length * sectorSize
  stored : Stored b chain (ljust (chain.length * sectorSize) entries.flatten)

/-- The entries of the subdirectories of a directory. -/
inductive SubEntries (b : Builder) : Dir → List (List UInt8) → Prop
  | nil : SubEntries b .nil []
  | file {name content : List UInt8} {rest : Dir}
      {entries : List (List UInt8)} (hrest : SubEntries b rest entries) :
      SubEntries b (.file name content rest) entries
  | dir {name short : List UInt8} {sub rest : Dir} {first : Nat}
      {chain : List Nat} {dots files subs entries : List (List UInt8)}
      (hname : shortName name = some short) (hfirst : chain.head? = some first)
      (hdots : ∀ entry ∈ dots, DotEntry entry)
      (hfiles : FileEntries b sub files) (hsubs : SubEntries b sub subs)
      (hfilled : Filled b chain (dots ++ files ++ subs))
      (hrest : SubEntries b rest entries) :
      SubEntries b (.dir name sub rest)
        (packEntry short 0x10 first 0 :: entries)

/-- A directory with all that is in it. -/
structure DirAt (b : Builder) (tree : Dir) (first : Nat) : Prop where
  laid : ∃ chain dots files subs, chain.head? = some first ∧
    (∀ entry ∈ dots, DotEntry entry) ∧ FileEntries b tree files ∧
    SubEntries b tree subs ∧ Filled b chain (dots ++ files ++ subs)

variable {tree : Dir} {entries : List (List UInt8)} {first : Nat}

theorem FileEntries.extend (hentries : FileEntries b tree entries)
    (hextends : b.Extends b') : FileEntries b' tree entries := by
  induction hentries with
  | nil => exact .nil
  | file hname hsize hfile _ ih =>
      exact .file hname hsize (hfile.extend hextends) ih
  | dir _ ih => exact .dir ih

theorem Filled.extend (hfilled : Filled b chain entries)
    (hextends : b.Extends b') : Filled b' chain entries :=
  ⟨hfilled.room, hfilled.stored.extend hextends⟩

theorem SubEntries.extend (hentries : SubEntries b tree entries)
    (hextends : b.Extends b') : SubEntries b' tree entries := by
  induction hentries with
  | nil => exact .nil
  | file _ ih => exact .file ih
  | dir hname hfirst hdots hfiles _ hfilled _ ihSubs ihRest =>
      exact .dir hname hfirst hdots (hfiles.extend hextends) ihSubs
        (hfilled.extend hextends) ihRest

theorem dirEntry_eq_some {name entry : List UInt8} {attr : UInt8}
    {size : Nat} (hentry : dirEntry name attr first size = some entry) :
    ∃ short, shortName name = some short ∧ size < 2 ^ 32 ∧
      entry = packEntry short attr first size := by
  rw [dirEntry] at hentry
  split at hentry
  · cases hentry
  next short hname =>
    rw [Option.ite_none_right_eq_some] at hentry
    exact ⟨short, hname, hentry.1, (Option.some.inj hentry.2).symm⟩

theorem buildDir_spec (hsound : b.Sound)
    (hbuild : buildDir tree b = some (entries, b')) :
    b.Step b' ∧ FileEntries b' tree entries := by
  induction tree generalizing b entries with
  | nil =>
      obtain ⟨rfl, rfl⟩ := Prod.mk.inj (Option.some.inj hbuild)
      exact ⟨.refl hsound, .nil⟩
  | file name content rest ih =>
      rw [buildDir] at hbuild
      split at hbuild
      · cases hbuild
      next first b₁ hstore =>
        have hstored : b.Step b₁ ∧ FileAt b₁ content first := by
          split at hstore
          next hempty =>
            obtain ⟨_, rfl⟩ := Prod.mk.inj (Option.some.inj hstore)
            exact ⟨.refl hsound, .inl (List.isEmpty_iff.1 hempty)⟩
          next => exact hsound.store hstore
        obtain ⟨hstep, hfile⟩ := hstored
        split at hbuild
        · cases hbuild
        next entry hentry =>
          obtain ⟨short, hname, hsize, rfl⟩ := dirEntry_eq_some hentry
          obtain ⟨built, hrest, hresult⟩ := Option.map_eq_some_iff.1 hbuild
          obtain ⟨rfl, rfl⟩ := Prod.mk.inj hresult
          obtain ⟨hnext, hentries⟩ := ih hstep.sound hrest
          exact ⟨hstep.trans hnext,
            .file hname hsize (hfile.extend hnext.extends_) hentries⟩
  | dir name sub rest _ ih =>
      obtain ⟨hstep, hentries⟩ := ih hsound hbuild
      exact ⟨hstep, .dir hentries⟩

theorem fillDir_spec
    {writeSubs : Nat → Builder → Option (List (List UInt8) × Builder)}
    {dots : Nat → List (List UInt8)} {parentOfSubs : Nat → Nat}
    (hwrite : ∀ {parent : Nat} {b b' : Builder} {subs : List (List UInt8)},
      b.Sound → writeSubs parent b = some (subs, b') →
        b.Step b' ∧ SubEntries b' tree subs)
    (hdots : ∀ c, ∀ entry ∈ dots c, DotEntry entry) (hsound : b.Sound)
    (hfill : fillDir tree writeSubs dots parentOfSubs b = some (first, b')) :
    b.Step b' ∧ DirAt b' tree first := by
  rw [fillDir] at hfill
  split at hfill
  · cases hfill
  next chain b₁ halloc =>
    have hallocated := hsound.alloc halloc
    dsimp only at hfill
    split at hfill
    · cases hfill
    next files b₂ hbuild =>
      obtain ⟨hstep₂, hfiles⟩ := buildDir_spec hallocated.step.sound hbuild
      split at hfill
      · cases hfill
      next subs b₃ hsubs =>
        obtain ⟨hstep₃, hsubs⟩ := hwrite hstep₂.sound hsubs
        split at hfill
        · cases hfill
        next hroom =>
          obtain ⟨rfl, rfl⟩ := Prod.mk.inj (Option.some.inj hfill)
          have hroom := Nat.le_of_not_lt hroom
          obtain ⟨hstep, hextends, hstored⟩ := hallocated.setData
            (hstep₂.trans hstep₃) hsound
            ((ljust_length hroom).trans (by rw [hallocated.length]))
          exact ⟨hstep, ⟨chain, dots (chain.headD 0), files, subs,
            head?_eq_headD hallocated.ne_nil, hdots _,
            hfiles.extend (hstep₃.extends_.trans hextends),
            hsubs.extend hextends, hroom, hstored⟩⟩

theorem dotEntry_dotEntries (parent : Nat) :
    ∀ c, ∀ entry ∈ dotEntries parent c, DotEntry entry :=
  fun c _ hentry => ⟨parent, c, hentry⟩

theorem writeSubdirs_spec {parent : Nat} (hsound : b.Sound)
    (hwrite : writeSubdirs tree parent b = some (entries, b')) :
    b.Step b' ∧ SubEntries b' tree entries := by
  induction tree generalizing parent b b' entries with
  | nil =>
      obtain ⟨rfl, rfl⟩ := Prod.mk.inj (Option.some.inj hwrite)
      exact ⟨.refl hsound, .nil⟩
  | file name content rest ih =>
      obtain ⟨hstep, hentries⟩ := ih hsound hwrite
      exact ⟨hstep, .file hentries⟩
  | dir name sub rest ihSub ihRest =>
      rw [writeSubdirs] at hwrite
      split at hwrite
      · cases hwrite
      next c b₁ hfill =>
        obtain ⟨hstep, ⟨chain, dots, files, subs, hfirst, hdots, hfiles, hsubs,
          hfilled⟩⟩ := fillDir_spec (fun hsound hwrite => ihSub hsound hwrite)
            (dotEntry_dotEntries parent) hsound hfill
        split at hwrite
        · cases hwrite
        next entry hentry =>
          obtain ⟨short, hname, _, rfl⟩ := dirEntry_eq_some hentry
          obtain ⟨built, hrest, hresult⟩ := Option.map_eq_some_iff.1 hwrite
          obtain ⟨rfl, rfl⟩ := Prod.mk.inj hresult
          obtain ⟨hnext, hentries⟩ := ihRest hstep.sound hrest
          have hextends := hnext.extends_
          exact ⟨hstep.trans hnext, .dir hname hfirst hdots
            (hfiles.extend hextends) (hsubs.extend hextends)
            (hfilled.extend hextends) hentries⟩

theorem writeRoot_spec (hsound : b.Sound)
    (hwrite : writeRoot tree b = some (first, b')) :
    b.Step b' ∧ DirAt b' tree first :=
  fillDir_spec (fun hsound hwrite => writeSubdirs_spec hsound hwrite)
    (fun _ _ hentry => absurd hentry List.not_mem_nil) hsound hwrite

theorem everySecond_perm (free : List Nat) :
    (everySecond free ++ everySecond free.tail).Perm free := by
  induction free using everySecond.induct with
  | case1 => exact .refl _
  | case2 c => exact .refl _
  | case3 c next rest ih =>
      have htail : everySecond (next :: rest) = next :: everySecond rest.tail := by
        cases rest <;> rfl
      rw [List.tail_cons, htail, everySecond, List.cons_append]
      exact (List.perm_middle.trans (ih.cons next)).cons c

theorem freeList_perm (clusters : Nat) (fragment : Bool) :
    (freeList clusters fragment).Perm (List.range' 2 clusters) := by
  rw [freeList]
  split
  · exact everySecond_perm _
  · exact .refl _

theorem sound_new (clusters : Nat) (fragment : Bool) :
    (Builder.new clusters fragment).Sound where
  nodup := (freeList_perm clusters fragment).nodup_iff.2 List.nodup_range'
  cursor_le := Nat.zero_le _
  keys := List.nodup_nil
  data := by simp [Builder.new]

theorem mem_free_new {clusters : Nat} {fragment : Bool}
    (hc : c ∈ (Builder.new clusters fragment).free) :
    2 ≤ c ∧ c < clusters + 2 := by
  have hmem := (freeList_perm clusters fragment).mem_iff.1 hc
  rw [List.mem_range'_1] at hmem
  omega

end Mkfat32

end Fat32

end VenomOS
