/-
The image as the kernel's driver sees it: a boot sector that mount accepts, the
builder's FAT, and the builder's data in the clusters.
-/
import VenomOS.ByteFields
import VenomOS.Mkfat32Build

namespace VenomOS

namespace Fat32

namespace Mkfat32

open ByteMemory Blocks BootSector

/-- How the sectors of an image are divided. -/
structure Layout.Divides (l : Layout) : Prop where
  many : 65525 ≤ l.clusters
  start : l.dataStart = reserved + numFats * l.fatSectors
  total : l.total = l.dataStart + l.clusters
  covered : l.total + 2 ≤ l.fatSectors * 128

theorem divides_layout {sizeMib : Nat}
    (hmany : 65525 ≤ (layout sizeMib).clusters) :
    (layout sizeMib).Divides := by
  refine ⟨hmany, rfl, ?_, ?_⟩
  · simp only [layout, spc, Nat.div_one] at hmany ⊢
    omega
  · simp only [layout, sectorSize]
    omega

variable {l : Layout} {b : Builder} {rootCluster c : Nat}

theorem bootSector_length (total fatSectors rootCluster : Nat) :
    (bootSector total fatSectors rootCluster).length = sectorSize := by
  have hlabel : (codesOf "VENOMFAT").length = 8 := by decide +kernel
  have hvolume : (codesOf "VENOMVOL   ").length = 11 := by decide +kernel
  have hkind : (codesOf "FAT32   ").length = 8 := by decide +kernel
  unfold bootSector
  simp only [List.length_append, leBytes_length, List.length_replicate,
    hlabel, hvolume, hkind, List.length_cons, List.length_nil]

theorem length_flatten_fat (fat : Nat → Nat) (count : Nat) :
    ((List.range count).map fun c => leBytes 4 (fat c)).flatten.length =
      4 * count := by
  rw [@Uniform.length_flatten _ 4 _ (by simp [Uniform])]
  simp

theorem fatBytes_length (hdivides : l.Divides) :
    (fatBytes b.fat (l.clusters + 2) l.fatSectors).length =
      l.fatSectors * sectorSize := by
  have hcovered := hdivides.covered
  have htotal := hdivides.total
  refine ljust_length ?_
  rw [length_flatten_fat, sectorSize]
  omega

/-- The image before the data is written. -/
def Layout.areas (l : Layout) (rootCluster : Nat) (b : Builder) : Memory :=
  (List.range numFats).foldl (fun img f =>
    ByteMemory.store img ((reserved + f * l.fatSectors) * sectorSize)
      (fatBytes b.fat (l.clusters + 2) l.fatSectors))
    (ByteMemory.store
      (ByteMemory.store
        (ByteMemory.store (fun _ => 0) 0
          (bootSector l.total l.fatSectors rootCluster)) sectorSize fsinfo)
      (6 * sectorSize) (bootSector l.total l.fatSectors rootCluster))

theorem image_eq :
    l.image rootCluster b = b.data.foldl (fun img item =>
      ByteMemory.store img ((l.dataStart + (item.1 - 2) * spc) * sectorSize)
        item.2) (l.areas rootCluster b) := rfl

theorem carries_areas_boot :
    Carries (l.areas rootCluster b) 0
      (bootSector l.total l.fatSectors rootCluster) := by
  have hlength := bootSector_length l.total l.fatSectors rootCluster
  refine Carries.foldl_store (Carries.store (Carries.store carries_store ?_)
    ?_) fun f _ => ?_
  · rw [hlength]
    exact .inl le_rfl
  · rw [hlength]
    exact .inl (by decide)
  · rw [hlength, reserved, sectorSize]
    exact .inl (by omega)

theorem carries_areas_fat (hdivides : l.Divides) :
    Carries (l.areas rootCluster b) (reserved * sectorSize)
      (fatBytes b.fat (l.clusters + 2) l.fatSectors) := by
  have hmem : 0 ∈ List.range numFats := by decide
  have hcarries := @carries_foldl_store
    (ByteMemory.store
      (ByteMemory.store
        (ByteMemory.store (fun _ => 0) 0
          (bootSector l.total l.fatSectors rootCluster)) sectorSize fsinfo)
      (6 * sectorSize) (bootSector l.total l.fatSectors rootCluster))
    Nat (List.range numFats)
    (fun f => (reserved + f * l.fatSectors) * sectorSize)
    (fun _ => fatBytes b.fat (l.clusters + 2) l.fatSectors) 0 ?_ hmem
  · rw [Nat.zero_mul, Nat.add_zero] at hcarries
    exact hcarries
  · refine List.pairwise_lt_range.imp fun {first second} hlt => .inl ?_
    have hnext : (first + 1) * l.fatSectors ≤ second * l.fatSectors :=
      Nat.mul_le_mul_right _ hlt
    rw [Nat.add_mul, Nat.one_mul] at hnext
    rw [fatBytes_length hdivides, ← Nat.add_mul]
    exact Nat.mul_le_mul_right _ (by omega)

/-- What is before the data area is not touched by the data. -/
theorem Carries.image {addr : Nat} {bytes : List UInt8}
    (hcarries : Carries (l.areas rootCluster b) addr bytes)
    (hbelow : addr + bytes.length ≤ l.dataStart * sectorSize) :
    Carries (l.image rootCluster b) addr bytes := by
  rw [image_eq]
  refine Carries.foldl_store hcarries fun item _ => .inl (hbelow.trans ?_)
  exact Nat.mul_le_mul_right _ (Nat.le_add_right _ _)

theorem carries_image_boot (hdivides : l.Divides) :
    Carries (l.image rootCluster b) 0
      (bootSector l.total l.fatSectors rootCluster) := by
  refine Carries.image carries_areas_boot ?_
  rw [bootSector_length, hdivides.start, reserved, sectorSize]
  omega

theorem carries_image_fat (hdivides : l.Divides) (hc : c < l.clusters + 2) :
    Carries (l.image rootCluster b) (reserved * sectorSize + 4 * c)
      (leBytes 4 (b.fat c)) := by
  have hfat : Carries (l.image rootCluster b) (reserved * sectorSize)
      (fatBytes b.fat (l.clusters + 2) l.fatSectors) := by
    refine Carries.image (carries_areas_fat hdivides) ?_
    rw [fatBytes_length hdivides, hdivides.start, ← Nat.add_mul, numFats]
    exact Nat.mul_le_mul_right _ (by omega)
  rw [fatBytes, ljust, carries_append] at hfat
  intro i hi
  rw [leBytes_length] at hi
  rw [Nat.add_assoc, hfat.1 _ (by rw [length_flatten_fat]; omega),
    @Uniform.getD_flatten _ 4 _ (by simp [Uniform]) _ hi]
  simp [hc]

theorem carries_image_data (hsound : b.Sound)
    (hfree : ∀ c ∈ b.free, 2 ≤ c) {block : List UInt8}
    (hblock : (c, block) ∈ b.data) :
    Carries (l.image rootCluster b) ((l.dataStart + (c - 2)) * sectorSize)
      block := by
  have hused : ∀ item ∈ b.data, 2 ≤ item.1 := fun item hitem =>
    hfree item.1 (List.mem_of_mem_take (hsound.data item hitem).1)
  have hapart : b.data.Pairwise fun first second =>
      (l.dataStart + (first.1 - 2) * spc) * sectorSize + first.2.length ≤
        (l.dataStart + (second.1 - 2) * spc) * sectorSize ∨
      (l.dataStart + (second.1 - 2) * spc) * sectorSize + second.2.length ≤
        (l.dataStart + (first.1 - 2) * spc) * sectorSize := by
    refine (List.pairwise_map.1 hsound.keys).imp_of_mem ?_
    intro first second hfirst hsecond hne
    have hlower := hused first hfirst
    have hlower' := hused second hsecond
    rw [(hsound.data first hfirst).2, (hsound.data second hsecond).2, spc,
      sectorSize]
    omega
  have hcarries := @carries_foldl_store (l.areas rootCluster b) _ b.data
    (fun item => (l.dataStart + (item.1 - 2) * spc) * sectorSize) Prod.snd
    (c, block) hapart hblock
  rw [image_eq]
  rw [spc, Nat.mul_one] at hcarries
  exact hcarries

/-- The fields that mount reads. -/
theorem bootSector_fields {mem : Memory} {total fatSectors : Nat}
    (hboot : Carries mem 0 (bootSector total fatSectors rootCluster)) :
    (rd16 mem 11 = 512 ∧ (mem 13).toNat = 1 ∧ rd16 mem 14 = 32 ∧
      (mem 16).toNat = 2) ∧
    (rd16 mem 17 = 0 ∧ rd16 mem 19 = 0 ∧ rd16 mem 22 = 0 ∧ rd16 mem 42 = 0) ∧
    (rd32 mem 32 = total % 2 ^ 32 ∧ rd32 mem 36 = fatSectors % 2 ^ 32 ∧
      rd32 mem 44 = rootCluster % 2 ^ 32) ∧
    mem 510 = 0x55 ∧ mem 511 = 0xAA := by
  have hlabel : (codesOf "VENOMFAT").length = 8 := by decide +kernel
  have hvolume : (codesOf "VENOMVOL   ").length = 11 := by decide +kernel
  have hkind : (codesOf "FAT32   ").length = 8 := by decide +kernel
  have hbyte : ∀ {addr value : Nat}, Carries mem addr (leBytes 1 value) →
      (mem addr).toNat = value % 256 := by
    intro addr value hcarries
    have hread := hcarries.readLE
    simpa [readLE] using hread
  unfold bootSector at hboot
  simp only [List.append_assoc, carries_append, leBytes_length, hlabel, hvolume,
    hkind, List.length_replicate, List.length_cons, List.length_nil,
    Nat.reduceAdd, Nat.zero_add] at hboot
  obtain ⟨_, _, hsector, hspc, hreserved, hfats, hentries, htotal16, _, hfat16,
    _, _, _, htotal, hfat, _, hversion, hroot, _, _, _, _, _, _, _, _, _, _,
    hsignature⟩ := hboot
  refine ⟨⟨hsector.readLE, hbyte hspc, hreserved.readLE, hbyte hfats⟩,
    ⟨hentries.readLE, htotal16.readLE, hfat16.readLE, hversion.readLE⟩,
    ⟨htotal.readLE, hfat.readLE, hroot.readLE⟩, hsignature 0 (by decide),
    hsignature 1 (by decide)⟩

/-- What mount finds in the boot sector of an image. -/
theorem accepted_image {mem : Memory} (hdivides : l.Divides)
    (htotal : l.total < 2 ^ 32)
    (hroot : 2 ≤ rootCluster ∧ rootCluster < l.clusters + 2)
    (hboot : Carries mem 0
      (bootSector l.total l.fatSectors rootCluster)) :
    Accepted mem ∧ rd16 mem 14 = reserved ∧ rd32 mem 36 = l.fatSectors ∧
      dataStart mem = l.dataStart ∧ rd32 mem 44 = rootCluster ∧
      sectorsPerCluster mem = 1 ∧ clusters mem = l.clusters := by
  obtain ⟨⟨hsector, hspc, hreserved, hfats⟩,
    ⟨hentries, htotal16, hfat16, hversion⟩, ⟨htotal32, hfat32, hroot32⟩,
    hsignature⟩ := bootSector_fields hboot
  obtain ⟨hmany, hstart, hsum, hcovered⟩ := hdivides
  rw [reserved, numFats] at hstart
  rw [Nat.mod_eq_of_lt htotal] at htotal32
  rw [Nat.mod_eq_of_lt (by omega)] at hfat32 hroot32
  have hdata : dataStart mem = l.dataStart := by
    rw [dataStart, hreserved, hfats, hfat32, hstart]
  have hclusters : clusters mem = l.clusters := by
    rw [clusters, totalSectors, htotal32, hdata, sectorsPerCluster, hspc,
      Nat.div_one]
    omega
  refine ⟨⟨hsignature, hsector, ?_, ?_, ⟨hentries, htotal16, hfat16⟩, hversion,
    ?_, ?_, ?_, ?_, ?_⟩, hreserved, hfat32, hdata, hroot32, hspc, hclusters⟩
  · rw [sectorsPerCluster, hspc]
    decide
  · rw [hreserved, hfats]
    decide
  · rw [hfat32, totalSectors, htotal32]
    omega
  · rw [hdata, totalSectors, htotal32]
    omega
  · rw [hclusters]
    exact hmany
  · rw [hclusters, hfat32, sectorSize]
    omega
  · rw [hroot32, hclusters, add32]
    omega

/-- The reader serves the sectors of an image from `volumeLba` on, and no read
fails. -/
structure Presents (reader : Reader) (disk : Disk) (volumeLba : Nat)
    (image : Image) : Prop where
  faithful : Faithful reader disk
  flawless : Flawless reader
  lba_lt : volumeLba < 2 ^ 32
  sectors : ∀ k < image.total, ∀ i < sectorSize,
    disk (add32 volumeLba k) i = image.bytes (k * sectorSize + i)

variable {reader : Reader} {disk : Disk} {volumeLba : Nat} {image : Image}

/-- Bytes of one sector. -/
theorem Presents.carries (hpresents : Presents reader disk volumeLba image)
    {k off : Nat} {bytes : List UInt8}
    (hcarries : Carries image.bytes (k * sectorSize + off) bytes)
    (hk : k < image.total) (hoff : off + bytes.length ≤ sectorSize) :
    Carries (disk (add32 volumeLba k)) off bytes := by
  refine hcarries.congr fun i hi => ?_
  rw [hpresents.sectors k hk (off + i) (by omega), Nat.add_assoc]

theorem Presents.boot (hpresents : Presents reader disk volumeLba image)
    {bytes : List UInt8} (hcarries : Carries image.bytes 0 bytes)
    (htotal : 0 < image.total) (hlength : bytes.length = sectorSize) :
    Carries (disk volumeLba) 0 bytes := by
  have hzero : add32 volumeLba 0 = volumeLba :=
    Nat.mod_eq_of_lt hpresents.lba_lt
  rw [← hzero]
  refine hpresents.carries ?_ htotal (by omega)
  rw [Nat.zero_mul, Nat.zero_add]
  exact hcarries

/-- The driver finds the builder's chains and data on the volume. -/
structure OnVolume (vol : Volume) (disk : Disk) (b : Builder) : Prop where
  spc_eq : vol.sectorsPerCluster = 1
  few : vol.clusterCount < 0x0FFFFFF5
  used : ∀ c ∈ b.used, 2 ≤ c ∧ c < vol.clusterCount + 2
  entries : ∀ c ∈ b.used, b.fat c < 2 ^ 28 →
    driverEntry vol disk c = b.fat c
  blocks : ∀ item ∈ b.data, clusterBytes vol disk item.1 = item.2

section Volume

variable (hdivides : l.Divides)
  (hpresents : Presents reader disk volumeLba
    ⟨l.total, l.clusters, l.image rootCluster b⟩)

include hdivides hpresents

theorem carries_disk_fat (hc : c < l.clusters + 2) :
    Carries (disk (add32 volumeLba (reserved + 4 * c / sectorSize)))
      (4 * c % sectorSize) (leBytes 4 (b.fat c)) := by
  have hcovered := hdivides.covered
  have hstart := hdivides.start
  have htotal := hdivides.total
  rw [reserved, numFats] at hstart
  refine hpresents.carries ?_ ?_ ?_
  · have haddr : (reserved + 4 * c / sectorSize) * sectorSize +
        4 * c % sectorSize = reserved * sectorSize + 4 * c := by
      rw [sectorSize]
      omega
    rw [haddr]
    exact carries_image_fat hdivides hc
  · dsimp only
    rw [reserved, sectorSize]
    omega
  · rw [leBytes_length, sectorSize]
    omega

theorem carries_disk_data (hsound : b.Sound)
    (hfree : ∀ c ∈ b.free, 2 ≤ c ∧ c < l.clusters + 2)
    {item : Nat × List UInt8} (hitem : item ∈ b.data) :
    Carries (disk (add32 volumeLba (l.dataStart + (item.1 - 2)))) 0
      item.2 := by
  obtain ⟨hkey, hlength⟩ := hsound.data item hitem
  have hrange := hfree item.1 (List.mem_of_mem_take hkey)
  have htotal := hdivides.total
  refine hpresents.carries ?_ ?_ (by omega)
  · rw [Nat.add_zero]
    dsimp only
    exact carries_image_data hsound (fun c hc => (hfree c hc).1) hitem
  · dsimp only
    omega

/-- The image is accepted, and all that was built is on the volume. -/
theorem onVolume_image (htotal : l.total < 2 ^ 32)
    (hroot : 2 ≤ rootCluster ∧ rootCluster < l.clusters + 2)
    (hfew : l.clusters < 0x0FFFFFF5) (hsound : b.Sound)
    (hfree : ∀ c ∈ b.free, 2 ≤ c ∧ c < l.clusters + 2) :
    Accepted (disk volumeLba) ∧ rd32 (disk volumeLba) 44 = rootCluster ∧
      OnVolume (volumeOf reader volumeLba (disk volumeLba)) disk b := by
  have hpositive : 0 < l.total := by
    have hsum := hdivides.total
    have hmany := hdivides.many
    omega
  have hboot := hpresents.boot (carries_image_boot hdivides) hpositive
    (bootSector_length _ _ _)
  obtain ⟨haccepted, hreserved, _, hstart, hroot, hspc, hclusters⟩ :=
    accepted_image hdivides htotal hroot hboot
  refine ⟨haccepted, hroot, hspc, ?_, ?_, ?_, ?_⟩
  · rw [volumeOf, hclusters]
    exact hfew
  · rw [volumeOf, hclusters]
    exact fun c hc => hfree c (List.mem_of_mem_take hc)
  · intro c hc hsmall
    have hrange := hfree c (List.mem_of_mem_take hc)
    have hread := (carries_disk_fat hdivides hpresents hrange.2).readLE
    rw [driverEntry, fatByteOff_eq (by omega), fatEntryAt, volumeSector, rd32,
      volumeOf, hreserved, hread]
    omega
  · intro item hitem
    have hload := (carries_disk_data hdivides hpresents hsound hfree
      hitem).load
    rw [(hsound.data item hitem).2] at hload
    rw [clusterBytes, volumeOf, hspc]
    simpa [dataSector, volumeSector, hstart] using hload

end Volume

end Mkfat32

end Fat32

end VenomOS
