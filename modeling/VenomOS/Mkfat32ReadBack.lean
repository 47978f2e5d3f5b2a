/-
Images of tools/mkfat32.py read back by the kernel's driver.  A path is
resolved part by part along the tree that the tool has laid out, and a file is
the front of the bytes of its chain.  So the driver mounts every image and
gives every file back, unless a later DEST has replaced a directory on the way
to the file.
-/
import VenomOS.Mkfat32Lookup

namespace VenomOS

namespace Fat32

namespace Mkfat32

open ByteMemory Blocks

section Resolve

variable {vol : Volume} {disk : Disk} {b : Builder} {d : Driver}
  {total : Nat} {tree : Dir} {cur : Found} {name content part : List UInt8}
  {node : Node} {parts names : List (List UInt8)}
  (hserves : Serves vol disk total (driverEntry vol disk))
  (hflawless : Flawless vol.reader) (hon : OnVolume vol disk b)

include hserves hflawless hon

/-- One part of a path. -/
theorem resolveParts_cons (hd : Consistent vol disk d) (hmounted : Mounted d)
    (hdir : DirAt b tree cur.firstCluster) (hcur : cur.isDir = true)
    (hproper : tree.Proper) (hfind : tree.find name = some node)
    (hpart : part.map upper = name) :
    ∃ d' f, Consistent vol disk d' ∧ Mounted d' ∧ Describes b f node ∧
      resolveParts (part :: parts) cur d = resolveParts parts f d' := by
  obtain ⟨short, hnamed⟩ := (hproper.of_find hfind).1
  obtain ⟨n, e, hn, hvalid, hmatch, hdescribes⟩ :=
    hdir.lookup hserves.geometry hon hproper hfind hnamed
  obtain ⟨walk, hwalk, hvol, _⟩ := @Mounted.walkDir d cur.firstCluster _
    (lookup short) none hmounted
  obtain ⟨hd', _, hcomplete⟩ := hserves.walkDir hd hwalk
  obtain ⟨hok, hacc⟩ := hcomplete hflawless n hn (some (foundOf e))
    ⟨hvalid, .inl hmatch.scan⟩
  have henter : enter vol (foundOf e) = foundOf e := by
    rw [enter, if_neg]
    rintro ⟨hisDir, hzero⟩
    cases node with
    | file content =>
        rw [hdescribes.1] at hisDir
        cases hisDir
    | dir sub => exact hdescribes.2.1 hzero
  refine ⟨walk.driver, foundOf e, hd', hmounted.of_vol hvol, hdescribes, ?_⟩
  rw [resolveParts, hnamed.toShortName_eq hpart]
  dsimp only
  rw [if_pos hcur, hwalk]
  dsimp only
  rw [hok, hacc, hd'.vol_eq]
  dsimp only
  rw [henter]

/-- Parts that lead to a file in the tree lead to it on the volume. -/
theorem resolveParts_of_follow (hd : Consistent vol disk d)
    (hmounted : Mounted d) (hdir : DirAt b tree cur.firstCluster)
    (hcur : cur.isDir = true) (hproper : tree.Proper)
    (hfollow : (Node.dir tree).follow names = some (.file content))
    (hparts : parts.map (fun part => part.map upper) = names)
    (rest : List (List UInt8)) :
    ∃ d' f, Consistent vol disk d' ∧ Describes b f (.file content) ∧
      resolveParts (parts ++ rest) cur d = resolveParts rest f d' := by
  induction names generalizing parts tree cur d with
  | nil => cases hfollow
  | cons name names ih =>
      obtain ⟨part, parts, rfl, hpart, hparts⟩ := List.map_eq_cons_iff.1 hparts
      obtain ⟨node, hfind, hfollow⟩ := Option.bind_eq_some_iff.1 hfollow
      obtain ⟨d', f, hd', hmounted', hdescribes, hstep⟩ :=
        @resolveParts_cons vol disk b d total tree cur name part node
          (parts ++ rest) hserves hflawless hon hd hmounted hdir hcur hproper
          hfind hpart
      rw [List.cons_append, hstep]
      cases node with
      | file found =>
          cases names with
          | nil =>
              obtain rfl : found = content := by
                rw [Node.follow, Option.some.injEq] at hfollow
                exact Node.file.inj hfollow
              obtain rfl := List.map_eq_nil_iff.1 hparts
              exact ⟨d', f, hd', hdescribes, rfl⟩
          | cons next names => cases hfollow
      | dir sub =>
          exact ih hd' hmounted' hdescribes.2.2 hdescribes.1
            ((hproper.of_find hfind).2 sub rfl) hfollow hparts

end Resolve

/-- A path that goes on behind a file leads nowhere. -/
theorem resolveParts_of_file {f : Found} {parts : List (List UInt8)}
    (hfile : f.isDir = false) (hne : parts ≠ []) (d : Driver) :
    resolveParts parts f d = some (d, none) := by
  cases parts with
  | nil => exact absurd rfl hne
  | cons part parts =>
      rw [resolveParts]
      split
      · rfl
      · rw [hfile]
        rfl

section Content

variable {vol : Volume} {disk : Disk} {entry : Nat → Nat} {b : Builder}
  {total c n m : Nat} {content : List UInt8} {buffer : Memory}
  {result : ReadResult}

/-- Fewer clusters of a chain are the front of more of them. -/
theorem chainBytes_front (hle : n ≤ m) :
    chainBytes vol disk entry c n <+: chainBytes vol disk entry c m := by
  induction n generalizing c m with
  | zero => exact List.nil_prefix
  | succ n ih =>
      cases m with
      | zero => omega
      | succ m =>
          rw [chainBytes_succ, chainBytes_succ, List.prefix_append_right_inj]
          exact ih (by omega)

/-- A stored file fills the front of a valid chain. -/
theorem FileAt.front (hfile : FileAt b content c)
    (hgeometry : Geometry vol total) (hon : OnVolume vol disk b) :
    ∃ n, n ≤ vol.clusterCount ∧ Valid vol (driverEntry vol disk) c n ∧
      content <+: chainBytes vol disk (driverEntry vol disk) c n := by
  rcases hfile with rfl | ⟨chain, hfirst, hroom, hstored⟩
  · exact ⟨0, Nat.zero_le _, valid_zero, List.nil_prefix⟩
  · have hplaced := hstored.placed hgeometry hon hfirst
    refine ⟨chain.length, hplaced.few, hplaced.valid, ?_⟩
    rw [hplaced.bytes, ljust]
    exact List.prefix_append _ _

/-- A read of a stored file gives its bytes. -/
theorem readFrom_content (hflawless : Flawless vol.reader)
    (hfrom : ReadFrom vol disk entry c vol.clusterCount content.length buffer 0
      result) (hn : n ≤ vol.clusterCount) (hvalid : Valid vol entry c n)
    (hfront : content <+: chainBytes vol disk entry c n) :
    result.ok = true ∧ result.outBytesRead = content.length ∧
      load result.dest 0 content.length = content := by
  have hlength := hfront.length_le
  rw [chainBytes_length] at hlength
  have hok := hfrom.complete hflawless n hn hvalid hlength
  obtain ⟨k, last, _, _, ⟨bytes, hbytes, _, hdest, hlast⟩, htrue, _⟩ :=
    hfrom.copied
  obtain ⟨hend, hout⟩ := htrue hok
  have hsame : bytes.length = content.length := by omega
  refine ⟨hok, hout, ?_⟩
  rw [hdest, ← hsame, load_store_self]
  have hlong := hbytes.trans (chainBytes_front (Nat.le_max_left k n))
  have hlong' := hfront.trans (chainBytes_front (Nat.le_max_right k n))
  exact (List.prefix_of_prefix_length_le hlong hlong' hsame.le).eq_of_length
    hsame

end Content

section Spelling

variable {path dest : List UInt8} {spec : Spec}

/-- A path in any letter case, with or without a slash in front. -/
def Spells (path dest : List UInt8) : Prop :=
  ∃ spelled, spelled.map upper = dest.map upper ∧
    (path = spelled ∨ path = slash :: spelled)

theorem splitSlash_map_upper :
    splitSlash (path.map upper) =
      (splitSlash path).map fun part => part.map upper := by
  induction path with
  | nil => rfl
  | cons c path ih =>
      rw [List.map_cons, splitSlash, splitSlash, ih]
      by_cases hslash : c = slash
      · rw [if_pos hslash, if_pos (upper_eq_slash_iff.2 hslash)]
        rfl
      · rw [if_neg hslash, if_neg (mt upper_eq_slash_iff.1 hslash)]
        cases splitSlash path with
        | nil => rfl
        | cons part parts => rfl

theorem mem_of_mem_splitSlash {part : List UInt8} {c : UInt8}
    (hpart : part ∈ splitSlash path) (hc : c ∈ part) : c ∈ path := by
  induction path generalizing part with
  | nil =>
      rw [splitSlash, List.mem_singleton] at hpart
      exact hpart ▸ hc
  | cons first path ih =>
      rw [splitSlash] at hpart
      split at hpart
      · rcases List.mem_cons.1 hpart with rfl | hpart
        · cases hc
        · exact List.mem_cons_of_mem _ (ih hpart hc)
      · cases hparts : splitSlash path with
        | nil => exact absurd hparts splitSlash_ne_nil
        | cons front parts =>
            rw [hparts] at hpart ih
            rcases List.mem_cons.1 hpart with rfl | hpart
            · rcases List.mem_cons.1 hc with rfl | hc
              · exact List.mem_cons_self
              · exact List.mem_cons_of_mem _ (ih List.mem_cons_self hc)
            · exact List.mem_cons_of_mem _
                (ih (List.mem_cons_of_mem _ hpart) hc)

/-- The parts of DEST are names. -/
theorem Spec.named (hplain : ∀ part ∈ splitSlash spec.dest, Plain part) :
    ∀ name ∈ spec.names, ∃ short, Named name short := by
  intro name hname
  obtain ⟨part, hpart, rfl⟩ := List.mem_map.1 hname
  exact (hplain part hpart).named fun hzero =>
    spec.noNul (mem_of_mem_splitSlash hpart hzero)

theorem pathParts_slash_cons : pathParts (slash :: path) = pathParts path := by
  rw [pathParts, splitSlash, if_pos rfl]
  rfl

/-- A spelling of DEST has the names of DEST as its parts. -/
theorem Spells.pathParts_eq (hspells : Spells path spec.dest)
    (hnamed : ∀ name ∈ spec.names, ∃ short, Named name short) :
    (pathParts path).map (fun part => part.map upper) = spec.names := by
  obtain ⟨spelled, hsame, hpath⟩ := hspells
  have hparts : (splitSlash spelled).map (fun part => part.map upper) =
      spec.names := by
    rw [← splitSlash_map_upper, hsame, splitSlash_map_upper, Spec.names]
  have hfilter : pathParts spelled = splitSlash spelled := by
    refine List.filter_eq_self.2 fun part hpart => ?_
    have hname : part.map upper ∈ spec.names :=
      hparts ▸ List.mem_map_of_mem hpart
    obtain ⟨short, hshort⟩ := hnamed _ hname
    cases part with
    | nil => cases hshort.short_eq
    | cons c part => rfl
  have hpath : pathParts path = splitSlash spelled := by
    rcases hpath with rfl | rfl
    · exact hfilter
    · rw [pathParts_slash_cons, hfilter]
  rw [hpath, hparts]

end Spelling

section ReadBack

variable {sizeMib : Nat} {fragment : Bool} {specs : List Spec} {image : Image}
  {reader : Reader} {disk : Disk} {volumeLba : Nat} {d : Driver}

/-- What the tool has done when it writes an image. -/
theorem main_eq_some (hmain : main sizeMib fragment specs = some image) :
    ∃ root rootCluster b, 65525 ≤ (layout sizeMib).clusters ∧
      plant specs .nil = some root ∧
      writeRoot root (Builder.new (layout sizeMib).clusters fragment) =
        some (rootCluster, b) ∧
      (layout sizeMib).total < 2 ^ 32 ∧
      image = ⟨(layout sizeMib).total, (layout sizeMib).clusters,
        (layout sizeMib).image rootCluster b⟩ := by
  unfold main at hmain
  dsimp only at hmain
  split at hmain
  · cases hmain
  · next hmany =>
      split at hmain
      · cases hmain
      · next root hplant =>
          split at hmain
          · cases hmain
          · next rootCluster b hwrite =>
              split at hmain
              · next htotal =>
                  exact ⟨root, rootCluster, b, Nat.le_of_not_lt hmany, hplant,
                    hwrite, htotal, (Option.some.inj hmain).symm⟩
              · cases hmain

/-- Every driver reached works on the volume of the boot sector. -/
theorem reached_vol (hfaithful : Faithful reader disk)
    (hreached : Reached reader volumeLba d) :
    d.vol = volumeOf reader volumeLba (disk volumeLba) := by
  induction hreached with
  | @mount before after hmount =>
      obtain ⟨hok, _, rfl⟩ := mount_eq_true_iff.1 hmount
      rw [Driver.mounted, hfaithful _ _ hok]
  | list hd hlist ih =>
      have hsteady := hd.steady hfaithful
      obtain ⟨total, hserves⟩ := hsteady.serves
      rw [(hserves.list hsteady.consistent hlist).vol_eq, ih]
  | fileSize hd hsize ih =>
      have hsteady := hd.steady hfaithful
      obtain ⟨total, hserves⟩ := hsteady.serves
      rw [(hserves.fileSize hsteady.consistent hsize).vol_eq, ih]
  | @read d path buffer capacity result hd hread ih =>
      obtain ⟨result', hread', hvol, _⟩ :=
        (hd.steady hfaithful).mounted.read path buffer capacity
      obtain rfl := Option.some.inj (hread'.symm.trans hread)
      rw [hvol, ih]

/-- A volume with a tree of directories on it. -/
structure Carried (vol : Volume) (disk : Disk) (root : Dir) (b : Builder) :
    Prop where
  proper : root.Proper
  onVolume : OnVolume vol disk b
  dirAt : DirAt b root vol.rootCluster

theorem main_carried
    (hplain : ∀ spec ∈ specs, ∀ part ∈ splitSlash spec.dest, Plain part)
    (hmain : main sizeMib fragment specs = some image)
    (hfew : image.clusters < 0x0FFFFFF5)
    (hpresents : Presents reader disk volumeLba image) :
    ∃ root b, plant specs .nil = some root ∧ Accepted (disk volumeLba) ∧
      Carried (volumeOf reader volumeLba (disk volumeLba)) disk root b := by
  obtain ⟨root, rootCluster, b, hmany, hplant, hwrite, htotal, rfl⟩ :=
    main_eq_some hmain
  obtain ⟨hstep, hdir⟩ := writeRoot_spec (sound_new _ _) hwrite
  have hfree : ∀ c ∈ b.free, 2 ≤ c ∧ c < (layout sizeMib).clusters + 2 := by
    intro c hc
    rw [hstep.extends_.free] at hc
    exact mem_free_new hc
  have hroot : rootCluster ∈ b.free := by
    obtain ⟨chain, _, _, _, hfirst, _, _, _, hfilled⟩ := hdir.laid
    exact List.mem_of_mem_take
      (hfilled.stored.used (List.mem_of_mem_head? hfirst))
  obtain ⟨haccepted, hrootCluster, hon⟩ := onVolume_image
    (divides_layout hmany) hpresents htotal (hfree _ hroot) hfew hstep.sound
    hfree
  have hnil : Dir.nil.Proper := trivial
  refine ⟨root, b, hplant, haccepted, ?_, hon, ?_⟩
  · exact hnil.plant (fun spec hspec => Spec.named (hplain spec hspec)) hplant
  · rw [volumeOf, hrootCluster]
    exact hdir

/-- A path gives the size and the bytes of `content`. -/
def ReadsBack (d : Driver) (path content : List UInt8) : Prop :=
  (∃ d', fileSize d (some path) = some (d', (content.length : Int))) ∧
    ∀ buffer capacity, content.length ≤ capacity →
      ∃ result, read d (some path) buffer capacity = some result ∧
        result.ok = true ∧ result.outBytesRead = content.length ∧
        load result.dest 0 content.length = content

section Driver

variable {root : Dir} {b : Builder} {path content : List UInt8}
  {names : List (List UInt8)} (hsteady : Steady reader disk d)
  (hflawless : Flawless reader) (hcarried : Carried d.vol disk root b)
  (hparts : (pathParts path).map (fun part => part.map upper) = names)

include hsteady hflawless hcarried hparts

theorem readsBack_of_follow
    (hfollow : (Node.dir root).follow names = some (.file content)) :
    ReadsBack d path content := by
  obtain ⟨total, hserves⟩ := hsteady.serves
  have hflawless' : Flawless d.vol.reader := by
    rw [hsteady.reader_eq]
    exact hflawless
  obtain ⟨d', f, hd', ⟨hisDir, hsize, hfile⟩, hfound⟩ :=
    @resolveParts_of_follow _ _ _ _ _ _ ⟨d.vol.rootCluster, 0, true⟩ _ _ _
      hserves hflawless' hcarried.onVolume hsteady.consistent hsteady.mounted
      hcarried.dirAt rfl hcarried.proper hfollow hparts []
  have hresolve : resolve d (some path) = some (d', some f) := by
    rw [List.append_nil] at hfound
    rw [resolve, if_pos hserves.geometry.ok, hfound]
    rfl
  refine ⟨⟨d', ?_⟩, fun buffer capacity hcapacity => ?_⟩
  · rw [fileSize, hresolve, Option.map_some]
    dsimp only
    rw [hisDir, hsize]
    rfl
  · obtain ⟨result, hread, _⟩ :=
      hsteady.mounted.read (some path) buffer capacity
    refine ⟨result, hread, ?_⟩
    rw [Fat32.read, hresolve] at hread
    dsimp only at hread
    rw [hisDir, hsize, Nat.min_eq_left hcapacity] at hread
    obtain ⟨n, hn, hvalid, hfront⟩ :=
      hfile.front hserves.geometry hcarried.onVolume
    exact readFrom_content hflawless'
      (hserves.readLoop hd' (Nat.zero_le _) (Nat.zero_le _) hread) hn hvalid
      hfront

theorem fileSize_of_hides (hhides : (Node.dir root).Hides names) :
    ∃ d', fileSize d (some path) = some (d', -1) := by
  obtain ⟨total, hserves⟩ := hsteady.serves
  have hflawless' : Flawless d.vol.reader := by
    rw [hsteady.reader_eq]
    exact hflawless
  obtain ⟨front, content, ⟨rest, hnames⟩, hne, hfollow⟩ := hhides
  obtain ⟨parts, others, hsplit, hfront, hrest⟩ :=
    List.map_eq_append_iff.1 (hparts.trans hnames.symm)
  obtain ⟨d', f, _, hdescribes, hresolve⟩ :=
    @resolveParts_of_follow _ _ _ _ _ _ ⟨d.vol.rootCluster, 0, true⟩ _ _ _
      hserves hflawless' hcarried.onVolume hsteady.consistent hsteady.mounted
      hcarried.dirAt rfl hcarried.proper hfollow hfront others
  have hothers : others ≠ [] := by
    rintro rfl
    cases hrest
    exact hne (by simpa using hnames)
  refine ⟨d', ?_⟩
  rw [fileSize, resolve, if_pos hserves.geometry.ok, hsplit, hresolve,
    resolveParts_of_file hdescribes.1 hothers]
  rfl

end Driver

theorem mount_of_accepted (hpresents : Presents reader disk volumeLba image)
    (haccepted : Accepted (disk volumeLba)) (before : Driver) :
    mount before (some reader) volumeLba =
      (before.mounted reader volumeLba, true) := by
  have hok := hpresents.flawless before.reads volumeLba
  refine mount_eq_true_iff.2 ⟨hok, ?_, rfl⟩
  rw [hpresents.faithful _ _ hok]
  exact haccepted

theorem IsLast.mem {spec : Spec} (hlast : IsLast specs spec) :
    spec ∈ specs := by
  obtain ⟨before, after, rfl, _⟩ := hlast
  exact List.mem_append_right _ List.mem_cons_self

/-- The image is mounted, and every file is read back from it exactly if no
DEST has taken the place of a directory on the way to an earlier one. -/
theorem image_read_back_iff
    (hplain : ∀ spec ∈ specs, ∀ part ∈ splitSlash spec.dest, Plain part)
    (hmain : main sizeMib fragment specs = some image)
    (hfew : image.clusters < 0x0FFFFFF5)
    (hpresents : Presents reader disk volumeLba image) :
    (∀ before, ∃ d, mount before (some reader) volumeLba = (d, true)) ∧
      ((∀ d, Reached reader volumeLba d → ∀ spec, IsLast specs spec →
        ∀ path, Spells path spec.dest → ReadsBack d path spec.content) ↔
        Kept specs) := by
  obtain ⟨root, b, hplant, haccepted, hcarried⟩ :=
    main_carried hplain hmain hfew hpresents
  have hmount := mount_of_accepted hpresents haccepted
  refine ⟨fun before => ⟨_, hmount before⟩, fun hall => ?_,
    fun hkept d hreached spec hlast path hspells => ?_⟩
  · refine kept_of_not_hides hplant fun spec hspec hhides => ?_
    obtain ⟨last, hlast, hnames⟩ := exists_isLast ⟨spec, hspec, rfl⟩
    have hreached := Reached.mount (hmount Driver.initial)
    have hspells : Spells last.dest last.dest := ⟨_, rfl, .inl rfl⟩
    rw [← reached_vol hpresents.faithful hreached] at hcarried
    rw [← hnames] at hhides
    obtain ⟨d', hhidden⟩ := fileSize_of_hides
      (hreached.steady hpresents.faithful) hpresents.flawless hcarried
      (hspells.pathParts_eq (Spec.named (hplain last hlast.mem))) hhides
    obtain ⟨⟨d'', hsize⟩, _⟩ := hall _ hreached last hlast _ hspells
    rw [hhidden, Option.some.injEq, Prod.mk.injEq] at hsize
    omega
  · rw [← reached_vol hpresents.faithful hreached] at hcarried
    exact readsBack_of_follow (hreached.steady hpresents.faithful)
      hpresents.flawless hcarried
      (hspells.pathParts_eq (Spec.named (hplain spec hlast.mem)))
      (follow_of_isLast hplant hkept hlast)

/-- A disk that holds an image from its first sector on. -/
def imageDisk (image : Image) : Disk :=
  fun lba i => image.bytes (lba * sectorSize + i)

def imageReader (image : Image) : Reader :=
  fun _ lba => (true, imageDisk image lba)

theorem presents_imageReader (htotal : image.total < 2 ^ 32) :
    Presents (imageReader image) (imageDisk image) 0 image where
  faithful _ _ _ := rfl
  flawless _ _ := rfl
  lba_lt := by decide
  sectors := by
    intro k hk i _
    rw [add32, Nat.zero_add, Nat.mod_eq_of_lt (by omega), imageDisk]

instance (part : List UInt8) : Decidable (Plain part) :=
  decidable_of_iff ((toShortName part).isSome = true ∧ (∀ c ∈ part, c < 128) ∧
    space ∉ part)
    ⟨fun h => ⟨h.1, h.2.1, h.2.2⟩, fun h => ⟨h.accepted, h.ascii, h.noSpace⟩⟩

/-- DOCS/NOTES.TXT with the bytes 1, 2, 3, and then A without bytes. -/
def nestedSpecs : List Spec :=
  [⟨[68, 79, 67, 83, 47, 78, 79, 84, 69, 83, 46, 84, 88, 84], [1, 2, 3],
    by decide⟩, ⟨[65], [], by decide⟩]

theorem main_sizes
    (hmain : main sizeMib fragment specs = some image) :
    image.total = (layout sizeMib).total ∧
      image.clusters = (layout sizeMib).clusters := by
  obtain ⟨_, _, _, _, _, _, _, rfl⟩ := main_eq_some hmain
  exact ⟨rfl, rfl⟩

/-- The notes are read back as /docs/notes.txt. -/
theorem image_read_back_nested :
    ∃ image d, main 34 true nestedSpecs = some image ∧
      mount Driver.initial (some (imageReader image)) 0 = (d, true) ∧
      ReadsBack d [47, 100, 111, 99, 115, 47, 110, 111, 116, 101, 115, 46, 116,
        120, 116] [1, 2, 3] := by
  have hsome : (main 34 true nestedSpecs).isSome = true := by decide +kernel
  obtain ⟨image, hmain⟩ := Option.isSome_iff_exists.1 hsome
  obtain ⟨htotal, hclusters⟩ := main_sizes hmain
  have hplain : ∀ spec ∈ nestedSpecs, ∀ part ∈ splitSlash spec.dest,
      Plain part := by decide +kernel
  have hkept : Kept nestedSpecs := by
    rw [Kept]
    decide +kernel
  obtain ⟨hmount, hiff⟩ := image_read_back_iff hplain hmain
    (by rw [hclusters]; decide +kernel)
    (presents_imageReader (by rw [htotal]; decide +kernel))
  obtain ⟨d, hd⟩ := hmount Driver.initial
  refine ⟨image, d, hmain, hd, ?_⟩
  exact hiff.2 hkept d (.mount hd) _
    ⟨[], [⟨[65], [], by decide⟩], rfl, by decide +kernel⟩ _
    ⟨_, by decide +kernel, .inr rfl⟩

/-- A/B with the byte 1, and then A with the byte 2. -/
def overwritten : List Spec :=
  [⟨[65, 47, 66], [1], by decide⟩, ⟨[65], [2], by decide⟩]

/-- The file A takes the place of the directory, and A/B is not found. -/
theorem image_loses_file :
    (∀ spec ∈ overwritten, ∀ part ∈ splitSlash spec.dest, Plain part) ∧
    IsLast overwritten ⟨[65, 47, 66], [1], by decide⟩ ∧
    ∃ image d d', main 34 false overwritten = some image ∧
      image.clusters < 0x0FFFFFF5 ∧
      Presents (imageReader image) (imageDisk image) 0 image ∧
      mount Driver.initial (some (imageReader image)) 0 = (d, true) ∧
      fileSize d (some [65, 47, 66]) = some (d', -1) := by
  have hplain : ∀ spec ∈ overwritten, ∀ part ∈ splitSlash spec.dest,
      Plain part := by decide +kernel
  have hsome : (main 34 false overwritten).isSome = true := by decide +kernel
  obtain ⟨image, hmain⟩ := Option.isSome_iff_exists.1 hsome
  obtain ⟨htotal, hclusters⟩ := main_sizes hmain
  have hfew : image.clusters < 0x0FFFFFF5 := by
    rw [hclusters]
    decide +kernel
  have hpresents := @presents_imageReader image
    (by rw [htotal]; decide +kernel)
  obtain ⟨root, b, hplant, haccepted, hcarried⟩ :=
    main_carried hplain hmain hfew hpresents
  have hmount := mount_of_accepted hpresents haccepted Driver.initial
  have hreached := Reached.mount hmount
  rw [← reached_vol hpresents.faithful hreached] at hcarried
  have hhides : (Node.dir root).Hides [[65], [66]] := by
    refine ⟨[[65]], [2], by decide, by decide, ?_⟩
    obtain rfl : Dir.file [65] [2] .nil = root :=
      Option.some.inj (Eq.trans rfl hplant)
    rfl
  obtain ⟨d', hsize⟩ := @fileSize_of_hides _ _ _ _ _ [65, 47, 66] _
    (hreached.steady hpresents.faithful) hpresents.flawless hcarried
    (by decide +kernel) hhides
  exact ⟨hplain, ⟨[], _, rfl, by decide +kernel⟩, image, _, d', hmain, hfew,
    hpresents, hmount, hsize⟩

end ReadBack

end Mkfat32

end Fat32

end VenomOS
