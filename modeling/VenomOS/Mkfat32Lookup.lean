/-
How the driver finds in the clusters what the image builder put there: the
bytes of a chain, and the entry of a name in a directory.
-/
import VenomOS.Mkfat32Image

namespace VenomOS

namespace Fat32

namespace Mkfat32

open ByteMemory Blocks

variable {vol : Volume} {disk : Disk} {b : Builder} {total first n : Nat}
  {chain : List Nat} {raw : List UInt8}

/-- The first `n` clusters from `first` on, as the driver follows them, hold
these bytes. -/
structure Placed (vol : Volume) (disk : Disk) (first n : Nat)
    (raw : List UInt8) : Prop where
  few : n ≤ vol.clusterCount
  valid : Valid vol (driverEntry vol disk) first n
  bytes : chainBytes vol disk (driverEntry vol disk) first n = raw

section Chains

variable (hgeometry : Geometry vol total) (hon : OnVolume vol disk b)

include hgeometry hon

theorem followed_of_linked (hlinked : Linked b.fat chain)
    (hused : chain ⊆ b.used) (hnodup : chain.Nodup)
    (hfirst : chain.head? = some first) :
    followed vol (driverEntry vol disk) first chain.length = chain := by
  induction chain generalizing first with
  | nil => cases hfirst
  | cons c chain ih =>
      obtain rfl : c = first := Option.some.inj hfirst
      cases chain with
      | nil => rfl
      | cons next chain =>
          have hnext := hon.used next (hused (by simp))
          have hfew := hon.few
          have hentry : driverEntry vol disk c = next := by
            rw [hon.entries c (hused List.mem_cons_self)
              (by rw [hlinked.1]; omega), hlinked.1]
          have hne : next ≠ c := by
            rintro rfl
            exact (List.nodup_cons.1 hnodup).1 List.mem_cons_self
          have hlink : link vol (driverEntry vol disk) c = next := by
            rw [link_of_proper (by rw [hentry, hgeometry.validCluster_iff]
                                   exact hnext) (by rw [hentry, fatBad]; omega)
              (by rw [hentry]; exact hne), hentry]
          change c :: followed vol (driverEntry vol disk)
            (link vol (driverEntry vol disk) c) (next :: chain).length = _
          rw [hlink, ih hlinked.2 (fun x hx => hused (List.mem_cons_of_mem _ hx))
            (List.nodup_cons.1 hnodup).2 rfl]

theorem Stored.placed (hstored : Stored b chain raw)
    (hfirst : chain.head? = some first) :
    Placed vol disk first chain.length raw := by
  have hfollowed := followed_of_linked hgeometry hon hstored.linked
    hstored.used hstored.nodup hfirst
  refine ⟨?_, ?_, ?_⟩
  · have hsubset : chain ⊆ List.range' 2 vol.clusterCount := by
      intro c hc
      have hrange := hon.used c (hstored.used hc)
      rw [List.mem_range'_1]
      omega
    have hlength := (hstored.nodup.subperm hsubset).length_le
    rwa [List.length_range'] at hlength
  · intro c hc
    rw [hfollowed] at hc
    exact hgeometry.validCluster_iff.2 (hon.used c (hstored.used hc))
  · have hblocks : chain.map (clusterBytes vol disk) =
        (List.range chain.length).map (chunk sectorSize raw) := by
      refine List.ext_getElem (by simp) fun i hi _ => ?_
      rw [List.length_map] at hi
      have hblock := hon.blocks _ (hstored.data i hi)
      simpa using hblock
    rw [chainBytes, hfollowed, List.flatMap_def, hblocks,
      flatten_chunks hstored.length]

end Chains

/-- No entry. -/
def blankEntry : Entry := fun _ => 0

section

variable (hspc : vol.sectorsPerCluster = 1)

include hspc

theorem clusterEntries_getD {c r k : Nat} (hr : r < 16) (hk : k < 32) :
    (clusterEntries vol disk c).getD r blankEntry k =
      (clusterBytes vol disk c).getD (32 * r + k) 0 := by
  have hin : 32 * r + k < sectorSize := by
    rw [sectorSize]
    omega
  rw [clusterEntries, clusterBytes, hspc]
  simp [entriesOf, load, hr, hin]

theorem uniform_clusterEntries (clusters : List Nat) :
    Uniform 16 (clusters.map (clusterEntries vol disk)) := by
  simp [Uniform, clusterEntries, hspc, entriesOf]

theorem uniform_clusterBytes (clusters : List Nat) :
    Uniform sectorSize (clusters.map (clusterBytes vol disk)) := by
  simp [Uniform, clusterBytes, hspc]

theorem Placed.length_entries :
    (chainEntries vol disk (driverEntry vol disk) first n).length =
      16 * n := by
  rw [chainEntries, List.flatMap_def,
    (uniform_clusterEntries hspc _).length_flatten]
  simp [followed]

/-- The bytes of an entry. -/
theorem Placed.entry (hplaced : Placed vol disk first n raw) (i : Nat)
    {k : Nat} (hk : k < 32) :
    (chainEntries vol disk (driverEntry vol disk) first n).getD i blankEntry
      k = raw.getD (32 * i + k) 0 := by
  have hi : 16 * (i / 16) + i % 16 = i := Nat.div_add_mod i 16
  have hr : i % 16 < 16 := Nat.mod_lt _ (by decide)
  have haddr : 32 * i + k = sectorSize * (i / 16) + (32 * (i % 16) + k) := by
    rw [sectorSize]
    omega
  have hin : 32 * (i % 16) + k < sectorSize := by
    rw [sectorSize]
    omega
  rw [← hplaced.bytes, chainEntries, chainBytes, List.flatMap_def,
    List.flatMap_def, haddr, (uniform_clusterBytes hspc _).getD_flatten hin,
    ← hi, (uniform_clusterEntries hspc _).getD_flatten hr, hi]
  generalize followed vol (driverEntry vol disk) first n = clusters
  by_cases hj : i / 16 < clusters.length
  · simp only [List.getD_eq_getElem?_getD, List.getElem?_map,
      List.getElem?_eq_getElem hj, Option.map_some, Option.getD_some]
    have hbyte := @clusterEntries_getD vol disk hspc
      (clusters.get ⟨i / 16, hj⟩) (i % 16) k hr hk
    simpa only [List.getD_eq_getElem?_getD, List.get_eq_getElem] using hbyte
  · simp [List.getElem?_eq_none (Nat.le_of_not_lt hj), blankEntry]

end

theorem getD_ljust (width i : Nat) : (ljust width raw).getD i 0 = raw.getD i 0 := by
  rw [ljust]
  by_cases hi : i < raw.length
  · rw [List.getD_append _ _ _ _ hi]
  · rw [List.getD_append_right _ _ _ _ (Nat.le_of_not_lt hi),
      List.getD_eq_default _ _ (Nat.le_of_not_lt hi),
      List.getD_eq_getElem?_getD, List.getElem?_getD_replicate_default_eq]

variable {short : List UInt8} {attr : UInt8} {size : Nat} {e : Entry}

theorem packEntry_length (hshort : short.length = 11) :
    (packEntry short attr first size).length = 32 := by
  unfold packEntry
  simp only [List.length_append, leBytes_length, List.length_cons,
    List.length_nil, hshort]

theorem take_packEntry (hshort : short.length = 11) :
    (packEntry short attr first size).take 11 = short := by
  unfold packEntry
  simp only [List.append_assoc]
  rw [List.take_left' hshort]

theorem entryCluster_eq {hi lo : Nat} (hfirst : first < 2 ^ 32)
    (hhi : hi = (first >>> 16 &&& 0xFFFF) % 256 ^ 2)
    (hlo : lo = (first &&& 0xFFFF) % 256 ^ 2) :
    hi <<< 16 ||| lo = first := by
  have hmask : ∀ x : Nat, x &&& 0xFFFF = x % 2 ^ 16 := fun x =>
    Nat.and_two_pow_sub_one_eq_mod x 16
  rw [hmask, Nat.shiftRight_eq_div_pow] at hhi
  rw [hmask] at hlo
  have hsmall : lo < 2 ^ 16 := by omega
  rw [← Nat.shiftLeft_add_eq_or_of_lt hsmall, Nat.shiftLeft_eq]
  omega

theorem packEntry_fields (hshort : short.length = 11)
    (hentry : Carries e 0 (packEntry short attr first size)) :
    load e 0 11 = short ∧ e 11 = attr ∧ rd32 e 28 = size % 2 ^ 32 ∧
      (first < 2 ^ 32 → entryCluster e = first) := by
  unfold packEntry at hentry
  simp only [List.append_assoc, carries_append, leBytes_length,
    List.length_cons, List.length_nil, hshort, Nat.reduceAdd,
    Nat.zero_add] at hentry
  obtain ⟨hname, hattr, _, _, _, hhi, _, _, hlo, hsize⟩ := hentry
  have hload := hname.load
  rw [hshort] at hload
  exact ⟨hload, hattr 0 (by simp), hsize.readLE, fun hfirst =>
    entryCluster_eq hfirst hhi.readLE hlo.readLE⟩

/-- An entry with a proper name and attribute is not skipped. -/
theorem live_of_fields {c : UInt8} {rest : List UInt8}
    (hname : load e 0 11 = c :: rest) (hzero : c ≠ 0) (hascii : c < 128)
    (hattr : e 11 = 0x10 ∨ e 11 = 0x20) : Live e := by
  have hfirst : e 0 = c := (List.cons.inj hname).1
  refine ⟨by rwa [hfirst], ?_⟩
  have hdeleted : e 0 ≠ 0xE5 := by
    rw [hfirst]
    rintro rfl
    exact absurd hascii (by decide)
  rw [skipped, beq_false_of_ne hdeleted]
  rcases hattr with hattr | hattr <;> rw [hattr] <;> rfl

variable {tree : Dir} {name : List UInt8} {node : Node}
  {entries : List (List UInt8)}

/-- What the driver finds in the entry of a file or a directory. -/
def Describes (b : Builder) (f : Found) : Node → Prop
  | .file content =>
      f.isDir = false ∧ f.size = content.length ∧
        FileAt b content f.firstCluster
  | .dir sub =>
      f.isDir = true ∧ f.firstCluster ≠ 0 ∧ DirAt b sub f.firstCluster

/-- The fields of the entry of a file or a directory. -/
def Fields (b : Builder) (attr : UInt8) (first size : Nat) : Node → Prop
  | .file content =>
      attr = 0x20 ∧ size = content.length ∧ size < 2 ^ 32 ∧
        FileAt b content first
  | .dir sub => attr = 0x10 ∧ DirAt b sub first

/-- An entry in front, or the entry of an item of the directory. -/
inductive EntryOf (b : Builder) (tree : Dir) : List UInt8 → Prop
  | dot {entry : List UInt8} (hdot : DotEntry entry) : EntryOf b tree entry
  | item {name short : List UInt8} {node : Node} {attr : UInt8}
      {first size : Nat} (hnamed : Named name short)
      (hfind : tree.find name = some node)
      (hfields : Fields b attr first size node) :
      EntryOf b tree (packEntry short attr first size)

theorem Dir.name_ne {head : List UInt8} {rest : Dir}
    (hhead : head ∉ rest.keys) (hfind : rest.find name = some node) :
    head ≠ name := by
  rintro rfl
  rw [Dir.find_eq_none_iff.2 hhead] at hfind
  cases hfind

variable {entry : List UInt8}

/-- An item of the rest of a directory is an item of the directory. -/
theorem EntryOf.mono {rest : Dir}
    (hfind : ∀ {name : List UInt8} {node : Node},
      rest.find name = some node → tree.find name = some node)
    (hentry : EntryOf b rest entry) : EntryOf b tree entry := by
  cases hentry with
  | dot hdot => exact .dot hdot
  | item hnamed hfound hfields => exact .item hnamed (hfind hfound) hfields

theorem FileEntries.entryOf (hentries : FileEntries b tree entries)
    (hproper : tree.Proper) : ∀ entry ∈ entries, EntryOf b tree entry := by
  induction hentries with
  | nil => simp
  | @file name content short rest first entries hname hsize hfile _ ih =>
      obtain ⟨hfresh, ⟨short', hnamed⟩, hrest⟩ := hproper
      intro entry hentry
      rcases List.mem_cons.1 hentry with rfl | hentry
      · rw [hnamed.shortName_eq, Option.some.injEq] at hname
        subst hname
        exact .item hnamed (if_pos rfl) ⟨rfl, rfl, hsize, hfile⟩
      · exact (ih hrest entry hentry).mono fun hfind => (if_neg (Dir.name_ne hfresh hfind)).trans hfind
  | dir _ ih =>
      obtain ⟨hfresh, _, _, hrest⟩ := hproper
      exact fun entry hentry =>
        (ih hrest entry hentry).mono fun hfind => (if_neg (Dir.name_ne hfresh hfind)).trans hfind

theorem SubEntries.entryOf (hentries : SubEntries b tree entries)
    (hproper : tree.Proper) : ∀ entry ∈ entries, EntryOf b tree entry := by
  induction hentries with
  | nil => simp
  | file _ ih =>
      obtain ⟨hfresh, _, hrest⟩ := hproper
      exact fun entry hentry =>
        (ih hrest entry hentry).mono fun hfind => (if_neg (Dir.name_ne hfresh hfind)).trans hfind
  | dir hname hfirst hdots hfiles hsubs hfilled _ _ ih =>
      obtain ⟨hfresh, ⟨short', hnamed⟩, _, hrest⟩ := hproper
      intro entry hentry
      rcases List.mem_cons.1 hentry with rfl | hentry
      · rw [hnamed.shortName_eq, Option.some.injEq] at hname
        subst hname
        exact .item hnamed (if_pos rfl)
          ⟨rfl, ⟨_, _, _, _, hfirst, hdots, hfiles, hsubs, hfilled⟩⟩
      · exact (ih hrest entry hentry).mono fun hfind => (if_neg (Dir.name_ne hfresh hfind)).trans hfind

/-- Every item has an entry. -/
theorem exists_entry {files subs : List (List UInt8)}
    (hfiles : FileEntries b tree files) (hsubs : SubEntries b tree subs)
    (hfind : tree.find name = some node) (hnamed : Named name short) :
    ∃ entry ∈ files ++ subs, entry.take 11 = short := by
  induction tree generalizing files subs with
  | nil => cases hfind
  | file head content rest ih =>
      cases hfiles with
      | @file _ _ short' _ first entries hname hsize hfile hrest =>
          cases hsubs with
          | file hsubs =>
              rw [Dir.find] at hfind
              split at hfind
              next hhead =>
                subst hhead
                rw [hnamed.shortName_eq, Option.some.injEq] at hname
                subst hname
                exact ⟨_, List.mem_append_left _ List.mem_cons_self,
                  take_packEntry hnamed.length⟩
              next =>
                obtain ⟨entry, hentry, htake⟩ := ih hrest hsubs hfind
                refine ⟨entry, ?_, htake⟩
                rw [List.cons_append]
                exact List.mem_cons_of_mem _ hentry
  | dir head sub rest _ ih =>
      cases hfiles with
      | dir hrest =>
          cases hsubs with
          | dir hname hfirst hdots hfiles hsubs hfilled hsubsRest =>
              rw [Dir.find] at hfind
              split at hfind
              next hhead =>
                subst hhead
                rw [hnamed.shortName_eq, Option.some.injEq] at hname
                subst hname
                exact ⟨_, List.mem_append_right _ List.mem_cons_self,
                  take_packEntry hnamed.length⟩
              next =>
                obtain ⟨entry, hentry, htake⟩ := ih hrest hsubsRest hfind
                refine ⟨entry, ?_, htake⟩
                rcases List.mem_append.1 hentry with hentry | hentry
                · exact List.mem_append_left _ hentry
                · exact List.mem_append_right _
                    (List.mem_cons_of_mem _ hentry)

/-- The names of the entries in front. -/
theorem DotEntry.fields (hdot : DotEntry entry) :
    ∃ rest first, (dot :: rest).length = 11 ∧
      entry = packEntry (dot :: rest) 0x10 first 0 := by
  have hself : codesOf ".          " = dot :: codesOf "          " := by
    decide +kernel
  have hparent : codesOf "..         " = dot :: codesOf ".         " := by
    decide +kernel
  obtain ⟨parent, selfCluster, hmem⟩ := hdot
  rw [dotEntries, hself, hparent, List.mem_pair] at hmem
  rcases hmem with rfl | rfl
  · exact ⟨_, selfCluster, by decide +kernel, rfl⟩
  · exact ⟨_, parent, by decide +kernel, rfl⟩

theorem EntryOf.length (hentry : EntryOf b tree entry) :
    entry.length = 32 := by
  cases hentry with
  | dot hdot =>
      obtain ⟨rest, first, hlength, rfl⟩ := hdot.fields
      exact packEntry_length hlength
  | item hnamed _ _ => exact packEntry_length hnamed.length

theorem EntryOf.live (hentry : EntryOf b tree entry)
    (hcarries : Carries e 0 entry) :
    Live e ∧ load e 0 11 = entry.take 11 := by
  cases hentry with
  | dot hdot =>
      obtain ⟨rest, first, hlength, rfl⟩ := hdot.fields
      obtain ⟨hname, hattr, _⟩ := packEntry_fields hlength hcarries
      exact ⟨live_of_fields hname (by decide) (by decide) (.inl hattr),
        hname.trans (take_packEntry hlength).symm⟩
  | @item _ _ node _ _ _ hnamed _ hfields =>
      obtain ⟨hname, hattr, _⟩ := packEntry_fields hnamed.length hcarries
      obtain ⟨c, rest, hshort, hzero, hascii, _⟩ := hnamed.first
      refine ⟨live_of_fields (hname.trans hshort) hzero hascii ?_,
        hname.trans (take_packEntry hnamed.length).symm⟩
      rw [hattr]
      cases node with
      | file content => exact .inr hfields.1
      | dir sub => exact .inl hfields.1

/-- The first cluster of a chain on the volume. -/
theorem OnVolume.first_lt (hon : OnVolume vol disk b) (hused : chain ⊆ b.used)
    (hfirst : chain.head? = some first) : 2 ≤ first ∧ first < 2 ^ 32 := by
  have hrange := hon.used first (hused (List.mem_of_mem_head? hfirst))
  have hfew := hon.few
  omega

theorem Fields.describes (hon : OnVolume vol disk b)
    (hfields : Fields b attr first size node) (hshort : short.length = 11)
    (hcarries : Carries e 0 (packEntry short attr first size)) :
    Describes b (foundOf e) node := by
  obtain ⟨_, hattr, hsize, hcluster⟩ := packEntry_fields hshort hcarries
  cases node with
  | file content =>
      obtain ⟨rfl, rfl, hsmall, hfile⟩ := hfields
      refine ⟨?_, hsize.trans (Nat.mod_eq_of_lt hsmall), ?_⟩
      · rw [foundOf, isDirEntry, hattr]
        rfl
      · rcases hfile with hempty | ⟨chain, hfirst, hroom, hstored⟩
        · exact .inl hempty
        · have hlt := (hon.first_lt hstored.used hfirst).2
          refine .inr ⟨chain, ?_, hroom, hstored⟩
          rw [foundOf, hcluster hlt, hfirst]
  | dir sub =>
      obtain ⟨rfl, hdir⟩ := hfields
      obtain ⟨chain, dots, files, subs, hfirst, hdots, hfiles, hsubs,
        hfilled⟩ := hdir.laid
      obtain ⟨hpos, hlt⟩ := hon.first_lt hfilled.stored.used hfirst
      have hfound : (foundOf e).firstCluster = first := hcluster hlt
      refine ⟨?_, by omega, ?_⟩
      · rw [foundOf, isDirEntry, hattr]
        rfl
      · rw [hfound]
        exact hdir

/-- The entry of a name describes what the name stands for. -/
theorem EntryOf.describes (hon : OnVolume vol disk b)
    (hentry : EntryOf b tree entry) (hcarries : Carries e 0 entry)
    (hname : entry.take 11 = short) (hnamed : Named name short)
    (hfind : tree.find name = some node) : Describes b (foundOf e) node := by
  cases hentry with
  | dot hdot =>
      obtain ⟨rest, first, hlength, rfl⟩ := hdot.fields
      obtain ⟨c, others, hshort, _, _, hdot⟩ := hnamed.first
      rw [take_packEntry hlength, hshort] at hname
      exact absurd (List.cons.inj hname).1.symm hdot
  | item hother hfound hfields =>
      rw [take_packEntry hother.length] at hname
      subst hname
      obtain rfl := hother.inj hnamed
      rw [hfind, Option.some.injEq] at hfound
      subst hfound
      exact hfields.describes hon hnamed.length hcarries

/-- The entries of a chain carry what was put into it. -/
theorem Placed.carries {width : Nat}
    (hplaced : Placed vol disk first n (ljust width entries.flatten))
    (hspc : vol.sectorsPerCluster = 1) (huniform : Uniform 32 entries)
    (i : Nat) :
    Carries ((chainEntries vol disk (driverEntry vol disk) first n).getD i
      blankEntry) 0 (entries.getD i []) := by
  intro k hk
  have hk : k < 32 := by
    by_cases hi : i < entries.length
    · rw [List.getD_eq_getElem _ _ hi] at hk
      rwa [huniform _ (List.getElem_mem hi)] at hk
    · rw [List.getD_eq_default _ _ (Nat.le_of_not_lt hi)] at hk
      cases hk
  rw [Nat.zero_add, hplaced.entry hspc i hk, getD_ljust,
    huniform.getD_flatten hk]

/-- The first entry with the bytes of a name, in a list of entries and in the
memory that carries them. -/
theorem firstMatch_of_carries {inMemory : List Entry}
    {before after : List (List UInt8)}
    (hentries : ∀ x ∈ before ++ entry :: after, EntryOf b tree x)
    (hcarries : ∀ i, Carries (inMemory.getD i blankEntry) 0
      ((before ++ entry :: after).getD i []))
    (hlength : before.length < inMemory.length)
    (hname : entry.take 11 = short)
    (hbefore : ∀ x ∈ before, x.take 11 ≠ short) :
    ∃ e, FirstMatch short inMemory e ∧ Carries e 0 entry := by
  have hat := hcarries before.length
  rw [List.getD_append_right _ _ _ _ le_rfl, Nat.sub_self, List.getD_cons_zero,
    List.getD_eq_getElem _ _ hlength] at hat
  obtain ⟨hlive, hload⟩ := (hentries entry (by simp)).live hat
  refine ⟨_, ⟨inMemory.take before.length,
    inMemory.drop (before.length + 1), ?_, hlive, hload.trans hname, ?_⟩, hat⟩
  · rw [← List.drop_eq_getElem_cons hlength, List.take_append_drop]
  · intro x hx
    obtain ⟨j, hj, rfl⟩ := List.mem_take_iff_getElem.1 hx
    have hj' : j < before.length := by omega
    have hthere := hcarries j
    rw [List.getD_append _ _ _ _ hj', List.getD_eq_getElem _ _ hj',
      List.getD_eq_getElem _ _ (by omega)] at hthere
    obtain ⟨hother, hload⟩ := (hentries _ (List.mem_append_left _
      (List.getElem_mem hj'))).live hthere
    refine ⟨hother.1, .inr ?_⟩
    rw [hload]
    exact hbefore _ (List.getElem_mem hj')

/-- A name of a directory is found, with what it stands for. -/
theorem DirAt.lookup (hdir : DirAt b tree first) (hgeometry : Geometry vol total)
    (hon : OnVolume vol disk b) (hproper : tree.Proper)
    (hfind : tree.find name = some node) (hnamed : Named name short) :
    ∃ n e, n ≤ vol.clusterCount ∧ Valid vol (driverEntry vol disk) first n ∧
      FirstMatch short
        (chainEntries vol disk (driverEntry vol disk) first n) e ∧
      Describes b (foundOf e) node := by
  obtain ⟨chain, dots, files, subs, hfirst, hdots, hfiles, hsubs, hfilled⟩ :=
    hdir.laid
  have hplaced := hfilled.stored.placed hgeometry hon hfirst
  obtain ⟨some_, hmem, htake⟩ := exists_entry hfiles hsubs hfind hnamed
  have hentries : ∀ x ∈ dots ++ files ++ subs, EntryOf b tree x := by
    intro x hx
    rw [List.append_assoc, List.mem_append, List.mem_append] at hx
    rcases hx with hx | hx | hx
    · exact .dot (hdots x hx)
    · exact hfiles.entryOf hproper x hx
    · exact hsubs.entryOf hproper x hx
  have huniform : Uniform 32 (dots ++ files ++ subs) := fun x hx =>
    (hentries x hx).length
  have hroom := hfilled.room
  have hcarries := hplaced.carries hon.spc_eq huniform
  rw [huniform.length_flatten, sectorSize] at hroom
  have hsome : ((dots ++ files ++ subs).find?
      fun x => decide (x.take 11 = short)).isSome = true := by
    rw [List.find?_isSome]
    refine ⟨some_, ?_, by simpa using htake⟩
    rw [List.append_assoc]
    exact List.mem_append_right _ hmem
  obtain ⟨entry, hentry⟩ := Option.isSome_iff_exists.1 hsome
  obtain ⟨hname, before, after, hsplit, hbefore⟩ :=
    List.find?_eq_some_iff_append.1 hentry
  rw [hsplit] at hentries hcarries hroom
  have hname : entry.take 11 = short := by simpa using hname
  obtain ⟨e, hmatch, hat⟩ := firstMatch_of_carries hentries hcarries (by
    rw [Placed.length_entries hon.spc_eq]
    rw [List.length_append, List.length_cons] at hroom
    omega) hname (by simpa using hbefore)
  exact ⟨chain.length, e, hplaced.few, hplaced.valid, hmatch,
    (hentries entry (by simp)).describes hon hat hname hnamed hfind⟩

end Mkfat32

end Fat32

end VenomOS
