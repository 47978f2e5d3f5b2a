/-
What mount accepts, and the addresses that the driver computes on an accepted
volume.
-/
import VenomOS.Fat32

namespace VenomOS

namespace Fat32

open ByteMemory

namespace BootSector

variable (bs : Memory)

def sectorsPerCluster : Nat := (bs 13).toNat

def dataStart : Nat := rd16 bs 14 + (bs 16).toNat * rd32 bs 36

def totalSectors : Nat := rd32 bs 32

def clusters : Nat := (totalSectors bs - dataStart bs) / sectorsPerCluster bs

end BootSector

open BootSector

/-- The checks of `mount`. -/
structure Accepted (bs : Memory) : Prop where
  signature : bs 510 = 0x55 ∧ bs 511 = 0xAA
  sector : rd16 bs 11 = sectorSize
  cluster : sectorsPerCluster bs ≠ 0 ∧
    sectorsPerCluster bs &&& (sectorsPerCluster bs - 1) = 0
  areas : rd16 bs 14 ≠ 0 ∧ (bs 16).toNat ≠ 0
  older : rd16 bs 17 = 0 ∧ rd16 bs 19 = 0 ∧ rd16 bs 22 = 0
  version : rd16 bs 42 = 0
  sizes : rd32 bs 36 ≠ 0 ∧ totalSectors bs ≠ 0
  start : dataStart bs < totalSectors bs
  many : 65525 ≤ clusters bs
  covered : clusters bs + 2 ≤ rd32 bs 36 * (sectorSize / 4)
  root : 2 ≤ rd32 bs 44 ∧ rd32 bs 44 < add32 (clusters bs) 2

/-- The volume that a boot sector describes. -/
def volumeOf (reader : Reader) (volumeLba : Nat) (bs : Memory) : Volume :=
  ⟨reader, volumeLba, sectorsPerCluster bs, rd16 bs 14, rd32 bs 36,
    dataStart bs, rd32 bs 44, clusters bs, true⟩

/-- The driver once it has mounted the volume. -/
def Driver.mounted (d : Driver) (reader : Reader) (volumeLba : Nat) : Driver :=
  { d with
    vol := volumeOf reader volumeLba (reader d.reads volumeLba).2
    fatCacheSector := noSector
    reads := d.reads + 1 }

/-- What the checks of `mount` say about a volume of `total` sectors. -/
structure Geometry (vol : Volume) (total : Nat) : Prop where
  spc_pos : 0 < vol.sectorsPerCluster
  reserved_lt : vol.reservedSectors < 2 ^ 16
  data : vol.dataStart + vol.clusterCount * vol.sectorsPerCluster ≤ total
  total_lt : total < 2 ^ 32
  start : 2 ≤ vol.dataStart
  many : 65525 ≤ vol.clusterCount
  covered : vol.clusterCount + 2 ≤ vol.fatSectors * 128
  root : 2 ≤ vol.rootCluster ∧ vol.rootCluster < vol.clusterCount + 2
  ok : vol.ok = true

variable {d d' : Driver} {reader : Reader} {volumeLba total : Nat}
  {vol : Volume} {bs : Memory}

/-- A check that was passed. -/
theorem check_eq_true {α : Type} {failed : Prop} [Decidable failed]
    {stop result : α} {next : α × Bool} :
    (if failed then (stop, false) else next) = (result, true) ↔
      ¬ failed ∧ next = (result, true) := by
  by_cases hfailed : failed <;> simp [hfailed]

theorem mount_eq_true_iff :
    mount d (some reader) volumeLba = (d', true) ↔
      (reader d.reads volumeLba).1 = true ∧
      Accepted (reader d.reads volumeLba).2 ∧
      d' = d.mounted reader volumeLba := by
  unfold mount Driver.mounted
  simp only [check_eq_true]
  simp only [Driver.request, Bool.not_eq_true', Bool.not_eq_false, ne_eq,
    not_or, not_not, ge_iff_le, not_le, not_lt]
  generalize (reader d.reads volumeLba).2 = bs
  constructor
  · rintro ⟨hok, hsignature, hsector, hspc, hareas, holder, hversion, hsizes,
      hstart, hmany, hcovered, hroot, hresult⟩
    exact ⟨hok, ⟨hsignature, hsector, hspc, hareas, holder, hversion, hsizes,
      hstart, hmany, hcovered, hroot⟩, (Prod.mk.inj hresult).1.symm⟩
  · rintro ⟨hok, hchecks, rfl⟩
    exact ⟨hok, hchecks.signature, hchecks.sector, hchecks.cluster,
      hchecks.areas, hchecks.older, hchecks.version, hchecks.sizes,
      hchecks.start, hchecks.many, hchecks.covered, hchecks.root, rfl⟩

theorem Accepted.geometry (hchecks : Accepted bs) :
    Geometry (volumeOf reader volumeLba bs) (totalSectors bs) := by
  have hspc : 0 < sectorsPerCluster bs := Nat.pos_of_ne_zero hchecks.cluster.1
  have htotal : totalSectors bs < 2 ^ 32 := readLE_lt bs 32 4
  have hstart : 2 ≤ dataStart bs := by
    have hfats : 0 < (bs 16).toNat * rd32 bs 36 :=
      Nat.mul_pos (Nat.pos_of_ne_zero hchecks.areas.2)
        (Nat.pos_of_ne_zero hchecks.sizes.1)
    have hreserved := Nat.pos_of_ne_zero hchecks.areas.1
    rw [dataStart]
    omega
  have hdata : dataStart bs + clusters bs * sectorsPerCluster bs ≤
      totalSectors bs := by
    have hwhole := Nat.div_mul_le_self (totalSectors bs - dataStart bs)
      (sectorsPerCluster bs)
    have hbelow := hchecks.start
    rw [clusters]
    omega
  have hcount : clusters bs + 2 < 2 ^ 32 := by
    have hle : clusters bs ≤ clusters bs * sectorsPerCluster bs :=
      Nat.le_mul_of_pos_right _ hspc
    omega
  have hroot := hchecks.root
  rw [add32, Nat.mod_eq_of_lt hcount] at hroot
  exact ⟨hspc, readLE_lt bs 14 2, hdata, htotal, hstart, hchecks.many,
    hchecks.covered, hroot, rfl⟩

theorem Geometry.count_lt (hgeometry : Geometry vol total) :
    vol.clusterCount + 2 < 2 ^ 32 := by
  have hdata := hgeometry.data
  have hstart := hgeometry.start
  have htotal := hgeometry.total_lt
  have hle : vol.clusterCount ≤ vol.clusterCount * vol.sectorsPerCluster :=
    Nat.le_mul_of_pos_right _ hgeometry.spc_pos
  omega

theorem Geometry.validCluster_iff (hgeometry : Geometry vol total) {c : Nat} :
    validCluster vol c = true ↔ 2 ≤ c ∧ c < vol.clusterCount + 2 := by
  rw [validCluster, add32, Nat.mod_eq_of_lt hgeometry.count_lt]
  simp

/-- The entry of cluster `c` in the first FAT and sector `s` of the cluster
are where the driver looks for them, on a volume of `total` sectors. -/
structure Exact (vol : Volume) (total c s : Nat) : Prop where
  entry : fatByteOff c = 4 * c
  inside : 4 * c + 4 ≤ sectorSize * vol.fatSectors
  entrySector : add32 vol.volumeLba (fatSector vol c) =
    vol.volumeLba + vol.reservedSectors + 4 * c / sectorSize
  sector : add32 vol.volumeLba (add32 (clusterSector vol c) s) =
    vol.volumeLba + vol.dataStart + (c - 2) * vol.sectorsPerCluster + s
  below : add32 vol.volumeLba (add32 (clusterSector vol c) s) <
    vol.volumeLba + total

theorem sub32_of_le {a b : Nat} (hle : b ≤ a) (hlt : a < 2 ^ 32) :
    sub32 a b = a - b := by
  rw [sub32]
  omega

/-- A cluster's sectors end before the next cluster begins. -/
theorem sector_le {count spc c s : Nat} (hc : 2 ≤ c) (hcount : c < count + 2)
    (hs : s < spc) : (c - 2) * spc + s < count * spc := by
  have hnext : (c - 2 + 1) * spc ≤ count * spc :=
    Nat.mul_le_mul_right spc (by omega)
  rw [Nat.add_mul, Nat.one_mul] at hnext
  omega

theorem Geometry.clusterSector_eq (hgeometry : Geometry vol total) {c s : Nat}
    (hvalid : validCluster vol c = true) (hs : s < vol.sectorsPerCluster) :
    add32 (clusterSector vol c) s =
      vol.dataStart + (c - 2) * vol.sectorsPerCluster + s := by
  obtain ⟨hc, hcount⟩ := hgeometry.validCluster_iff.1 hvalid
  have hcount_lt := hgeometry.count_lt
  have hsector := sector_le hc hcount hs
  have hdata := hgeometry.data
  have htotal := hgeometry.total_lt
  rw [clusterSector, sub32_of_le hc (by omega), mul32, add32, add32]
  omega

/-- What `Exact` asks of one cluster and sector, in whole numbers. -/
theorem Geometry.exact_iff (hgeometry : Geometry vol total)
    (hfat : vol.reservedSectors + vol.fatSectors ≤ vol.dataStart) {c s : Nat}
    (hvalid : validCluster vol c = true) (hs : s < vol.sectorsPerCluster) :
    Exact vol total c s ↔
      4 * c < 2 ^ 32 ∧
      vol.volumeLba + vol.dataStart + (c - 2) * vol.sectorsPerCluster + s <
        2 ^ 32 := by
  obtain ⟨hc, hcount⟩ := hgeometry.validCluster_iff.1 hvalid
  have haddress := hgeometry.clusterSector_eq hvalid hs
  have hsector := sector_le hc hcount hs
  have hdata := hgeometry.data
  have hcovered := hgeometry.covered
  constructor
  · intro hexact
    have hentry := hexact.entry
    have hlba := hexact.sector
    rw [fatByteOff, mul32] at hentry
    rw [add32] at hlba
    omega
  · rintro ⟨hentry, hlba⟩
    have hoff : fatByteOff c = 4 * c := by
      rw [fatByteOff, mul32]
      omega
    have hexact : add32 vol.volumeLba (add32 (clusterSector vol c) s) =
        vol.volumeLba + vol.dataStart + (c - 2) * vol.sectorsPerCluster +
          s := by
      rw [haddress, add32]
      omega
    refine ⟨hoff, ?_, ?_, hexact, by omega⟩
    · rw [sectorSize]
      omega
    · rw [fatSector, hoff, add32, add32, sectorSize]
      omega

theorem Accepted.fat_le (hchecks : Accepted bs) :
    rd16 bs 14 + rd32 bs 36 ≤ dataStart bs := by
  have hfats : rd32 bs 36 ≤ (bs 16).toNat * rd32 bs 36 :=
    Nat.le_mul_of_pos_left _ (Nat.pos_of_ne_zero hchecks.areas.2)
  rw [dataStart]
  omega

/-- The addresses of a mounted volume are all exact just when its FAT entries
and its data area can be addressed with 32 bits. -/
theorem mount_exact_iff {d d' : Driver} {reader : Reader} {bs : Memory}
    (hboot : (reader d.reads diskVolumeLba).2 = bs)
    (hmount : mount d (some reader) diskVolumeLba = (d', true)) :
    (∀ c s, validCluster d'.vol c = true → s < d'.vol.sectorsPerCluster →
      Exact d'.vol (totalSectors bs) c s) ↔
    clusters bs + 2 ≤ 2 ^ 30 ∧
      diskVolumeLba + dataStart bs + clusters bs * sectorsPerCluster bs ≤
        2 ^ 32 := by
  obtain ⟨_, hchecks, rfl⟩ := mount_eq_true_iff.1 hmount
  rw [Driver.mounted, hboot]
  rw [hboot] at hchecks
  have hgeometry : Geometry (volumeOf reader diskVolumeLba bs)
      (totalSectors bs) := hchecks.geometry
  have hspc : 0 < sectorsPerCluster bs := hgeometry.spc_pos
  have hmany := hchecks.many
  constructor
  · intro hexact
    have hvalid : validCluster (volumeOf reader diskVolumeLba bs)
        (clusters bs + 1) = true :=
      hgeometry.validCluster_iff.2 ⟨by omega, Nat.lt_succ_self _⟩
    have hlast : sectorsPerCluster bs - 1 < sectorsPerCluster bs := by omega
    obtain ⟨hentry, hlba⟩ := (hgeometry.exact_iff hchecks.fat_le hvalid hlast).1
      (hexact _ _ hvalid hlast)
    have hend : clusters bs * sectorsPerCluster bs =
        (clusters bs + 1 - 2) * sectorsPerCluster bs +
          sectorsPerCluster bs := by
      rw [← Nat.succ_mul]
      congr 1
      omega
    simp only [volumeOf] at hlba
    omega
  · rintro ⟨hentries, harea⟩ c s hvalid hs
    obtain ⟨hc, hcount⟩ := hgeometry.validCluster_iff.1 hvalid
    have hsector := sector_le hc hcount hs
    refine (hgeometry.exact_iff hchecks.fat_le hvalid hs).2 ⟨?_, ?_⟩
    · simp only [volumeOf] at hcount
      omega
    · simp only [volumeOf] at hsector ⊢
      omega

/-- The boot sector of a volume with one FAT and one sector a cluster. -/
def plainBoot (total fatSectors : Nat) : Memory :=
  let fields : List (Nat × Nat × Nat) :=
    [(11, 2, sectorSize), (13, 1, 1), (14, 2, 32), (16, 1, 1), (32, 4, total),
      (36, 4, fatSectors), (44, 4, 2), (510, 2, 0xAA55)]
  fields.foldl (fun mem (addr, width, value) =>
    store mem addr (leBytes width value)) fun _ => 0

def plainReader (total fatSectors : Nat) : Reader :=
  fun _ _ => (true, plainBoot total fatSectors)

/-- The static variables before the first call. -/
def Driver.initial : Driver :=
  ⟨Volume.unmounted, fun _ => 0, fun _ => 0, noSector, 0⟩

theorem mount_plain {total fatSectors : Nat}
    (hchecks : Accepted (plainBoot total fatSectors)) (lba : Nat) :
    mount Driver.initial (some (plainReader total fatSectors)) lba =
      (Driver.initial.mounted (plainReader total fatSectors) lba, true) :=
  mount_eq_true_iff.2 ⟨rfl, hchecks, rfl⟩

theorem accepted_small : Accepted (plainBoot 80000 700) := by
  constructor <;> decide +kernel

theorem accepted_large : Accepted (plainBoot (2 ^ 32 - 1) (2 ^ 25)) := by
  constructor <;> decide +kernel

/-- A volume of 40 MiB. -/
theorem mount_exact_small : ∃ d',
    mount Driver.initial (some (plainReader 80000 700)) diskVolumeLba =
      (d', true) ∧
    ∀ c s, validCluster d'.vol c = true → s < d'.vol.sectorsPerCluster →
      Exact d'.vol (totalSectors (plainBoot 80000 700)) c s :=
  ⟨_, mount_plain accepted_small _,
    (mount_exact_iff rfl (mount_plain accepted_small _)).2
      (by decide +kernel)⟩

/-- On a volume of 2 TiB the entry of cluster 2^30 is looked for at the start
of the FAT. -/
theorem mount_wraps_large : ∃ d',
    mount Driver.initial (some (plainReader (2 ^ 32 - 1) (2 ^ 25)))
      diskVolumeLba = (d', true) ∧
    validCluster d'.vol (2 ^ 30) = true ∧ 0 < d'.vol.sectorsPerCluster ∧
    fatByteOff (2 ^ 30) = 0 ∧
    ¬ Exact d'.vol (2 ^ 32 - 1) (2 ^ 30) 0 := by
  refine ⟨_, mount_plain accepted_large _, by decide +kernel, by decide +kernel,
    by decide +kernel, ?_⟩
  intro hexact
  have hentry := hexact.entry
  revert hentry
  decide +kernel

end Fat32

end VenomOS
