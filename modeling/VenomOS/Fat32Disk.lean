/-
What the driver's loops do when the reader serves a disk: its reads may fail,
but one that succeeds gives the sector of the disk.  The cache never holds
anything else than a sector of the FAT, and a walk sees the entries, and a read
copies the bytes, of the chain on the disk.
-/
import VenomOS.Fat32Walk

namespace VenomOS

namespace Fat32

open ByteMemory

abbrev Disk := Nat → Memory

/-- A read that succeeds gives the sector of the disk. -/
def Faithful (reader : Reader) (disk : Disk) : Prop :=
  ∀ n lba, (reader n lba).1 = true → (reader n lba).2 = disk lba

/-- No read fails. -/
def Flawless (reader : Reader) : Prop := ∀ n lba, (reader n lba).1 = true

section Disk

variable (vol : Volume) (disk : Disk)

/-- Sector `k` of the volume; the sum of the addresses is taken modulo
`2 ^ 32`, as the code does. -/
def volumeSector (k : Nat) : Memory := disk (add32 vol.volumeLba k)

/-- The entry at an offset of the first FAT, masked to 28 bits. -/
def fatEntryAt (off : Nat) : Nat :=
  rd32 (volumeSector vol disk (vol.reservedSectors + off / sectorSize))
    (off % sectorSize) % 2 ^ 28

/-- The entry of a cluster. -/
def fatEntry (c : Nat) : Nat := fatEntryAt vol disk (4 * c)

/-- Sector `s` of a cluster. -/
def dataSector (c s : Nat) : Memory :=
  volumeSector vol disk (vol.dataStart + (c - 2) * vol.sectorsPerCluster + s)

def clusterEntries (c : Nat) : List Entry :=
  (List.range vol.sectorsPerCluster).flatMap fun s =>
    entriesOf (dataSector vol disk c s)

def clusterBytes (c : Nat) : List UInt8 :=
  (List.range vol.sectorsPerCluster).flatMap fun s =>
    load (dataSector vol disk c s) 0 sectorSize

/-- The driver's volume is `vol`, and its cache is empty or a sector of it. -/
structure Consistent (d : Driver) : Prop where
  vol_eq : d.vol = vol
  cache : d.fatCacheSector ≠ noSector →
    d.fatCache = volumeSector vol disk d.fatCacheSector

/-- The reader serves the disk, and the driver finds the FAT entries `entry`
there. -/
structure Serves (total : Nat) (entry : Nat → Nat) : Prop where
  geometry : Geometry vol total
  faithful : Faithful vol.reader disk
  entries : ∀ c, validCluster vol c = true →
    fatEntryAt vol disk (fatByteOff c) = entry c

/-- What the driver makes of the entry of a cluster. -/
def link (entry : Nat → Nat) (c : Nat) : Nat := interpret vol c (entry c)

/-- The first clusters of the chain from `c`, as the driver follows it. -/
def followed (entry : Nat → Nat) (c n : Nat) : List Nat :=
  List.iterate (link vol entry) c n

end Disk

variable {vol : Volume} {disk : Disk} {d : Driver} {total c : Nat}
  {entry : Nat → Nat}

theorem Consistent.fetched (hd : Consistent vol disk d) (lba : Nat) :
    Consistent vol disk (d.fetched lba) :=
  ⟨hd.vol_eq, hd.cache⟩

theorem Serves.cacheFat (hserves : Serves vol disk total entry)
    (hd : Consistent vol disk d) {sector : Nat} (hsector : sector ≠ noSector) :
    Consistent vol disk (cacheFat d sector).1 ∧
    ((cacheFat d sector).2 = true →
      (cacheFat d sector).1.fatCache = volumeSector vol disk sector) ∧
    ((cacheFat d sector).2 = false → ¬ Flawless vol.reader) := by
  obtain ⟨rfl, hcache⟩ := hd
  rw [Fat32.cacheFat]
  split
  · dsimp only [readVolumeSector, Driver.request]
    split
    · next hok =>
        have hread := hserves.faithful _ _ hok
        exact ⟨⟨rfl, fun _ => hread⟩, fun _ => hread, by simp⟩
    · next hok =>
        exact ⟨⟨rfl, fun hne => absurd rfl hne⟩, by simp,
          fun _ hflawless => hok (hflawless _ _)⟩
  · next hhit =>
      rw [not_not] at hhit
      rw [hhit] at hcache
      exact ⟨⟨rfl, fun _ => by rw [hhit]; exact hcache hsector⟩,
        fun _ => hcache hsector, by simp⟩

theorem fatByteOff_lt (c : Nat) : fatByteOff c / sectorSize < 2 ^ 23 := by
  have hlt : fatByteOff c < 2 ^ 32 := Nat.mod_lt _ (by decide)
  rw [sectorSize]
  omega

theorem Geometry.fatSector_eq (hgeometry : Geometry vol total) (c : Nat) :
    fatSector vol c = vol.reservedSectors + fatByteOff c / sectorSize := by
  have hreserved := hgeometry.reserved_lt
  have hoff := fatByteOff_lt c
  rw [fatSector, add32, Nat.mod_eq_of_lt]
  exact Nat.lt_trans (Nat.add_lt_add hreserved hoff) (by decide)

/-- The entry of a valid cluster is inside the FAT. -/
theorem Geometry.fatByteOff_inside (hgeometry : Geometry vol total)
    (hvalid : validCluster vol c = true) :
    fatByteOff c / sectorSize < vol.fatSectors := by
  have hcount := (hgeometry.validCluster_iff.1 hvalid).2
  have hcovered := hgeometry.covered
  have hle : fatByteOff c ≤ c * 4 := Nat.mod_le _ _
  rw [sectorSize]
  omega

theorem Serves.nextCluster (hserves : Serves vol disk total entry)
    (hd : Consistent vol disk d) (hvalid : validCluster vol c = true) :
    Consistent vol disk (nextCluster d c).1 ∧
    ((nextCluster d c).2 = link vol entry c ∨
      (nextCluster d c).2 = noSector ∧ ¬ Flawless vol.reader) := by
  have hinside := hserves.geometry.fatByteOff_inside hvalid
  have hsector := hserves.geometry.fatSector_eq c
  have hne : fatSector vol c ≠ noSector := by
    have hreserved := hserves.geometry.reserved_lt
    have hoff := fatByteOff_lt c
    rw [hsector, noSector]
    omega
  obtain ⟨hcached, hhit, hmiss⟩ := hserves.cacheFat hd hne
  have hvol := hd.vol_eq
  rw [Fat32.nextCluster, hvol, if_neg (Nat.not_le.2 hinside)]
  dsimp only
  split
  · next hok =>
      refine ⟨hcached, Or.inl ?_⟩
      rw [hcached.vol_eq, hhit hok, link, ← hserves.entries c hvalid,
        fatEntryAt, ← hsector, ← Nat.and_two_pow_sub_one_eq_mod]
      rfl
  · next hok =>
      exact ⟨hcached, Or.inr ⟨rfl, hmiss (by simpa using hok)⟩⟩

section Walk

variable {σ : Type} {visit : Entry → σ → σ × Bool} {acc acc' : σ}

theorem scan_append (first second : List Entry) :
    scan visit (first ++ second) acc =
      if (scan visit first acc).2 then scan visit first acc
      else scan visit second (scan visit first acc).1 := by
  induction first generalizing acc with
  | nil => rfl
  | cons e rest ih =>
      rw [List.cons_append, scan, scan]
      split
      · rfl
      split
      · exact ih
      dsimp only
      split
      · rfl
      · exact ih

variable {n : Nat} {first : List Entry}

theorem scan_append_of_ended (hended : scan visit first acc = (acc', true))
    (second : List Entry) :
    scan visit (first ++ second) acc = (acc', true) := by
  rw [scan_append, hended]
  rfl

theorem scan_append_of_continues
    (hcontinues : scan visit first acc = (acc', false)) (second : List Entry) :
    scan visit (first ++ second) acc = scan visit second acc' := by
  rw [scan_append, hcontinues]
  rfl

theorem Serves.sectorLba_eq (hserves : Serves vol disk total entry) {s : Nat}
    (hvalid : validCluster vol c = true) (hs : s < vol.sectorsPerCluster) :
    disk (sectorLba vol c s) = dataSector vol disk c s := by
  rw [sectorLba, hserves.geometry.clusterSector_eq hvalid hs]
  rfl

/-- The entries of `left` sectors of a cluster from sector `s` on. -/
def sectorEntries (vol : Volume) (disk : Disk) (c s left : Nat) : List Entry :=
  (List.range' s left).flatMap fun s => entriesOf (dataSector vol disk c s)

theorem clusterEntries_eq :
    clusterEntries vol disk c =
      sectorEntries vol disk c 0 vol.sectorsPerCluster := by
  rw [clusterEntries, List.range_eq_range', sectorEntries]

theorem Serves.walkSectors (hserves : Serves vol disk total entry)
    (hvalid : validCluster vol c = true) {left s : Nat}
    (hd : Consistent vol disk d) (hs : s + left ≤ vol.sectorsPerCluster) :
    Consistent vol disk (walkSectors visit c left s d acc).1 ∧
    match (walkSectors visit c left s d acc).2 with
    | (acc', none) =>
        scan visit (sectorEntries vol disk c s left) acc = (acc', false)
    | (acc', some true) =>
        scan visit (sectorEntries vol disk c s left) acc = (acc', true)
    | (_, some false) => ¬ Flawless vol.reader := by
  induction left generalizing s d acc with
  | zero => exact ⟨hd, rfl⟩
  | succ left ih =>
      have hsector : ∀ ok, (vol.reader d.reads (sectorLba vol c s)).1 = ok →
          ok = true → (vol.reader d.reads (sectorLba vol c s)).2 =
            dataSector vol disk c s := by
        rintro ok hread rfl
        rw [hserves.faithful _ _ hread, hserves.sectorLba_eq hvalid (by omega)]
      rw [walkSectors_succ, hd.vol_eq, sectorEntries, List.range'_succ,
        List.flatMap_cons]
      dsimp only
      split
      · next hread =>
          rw [hsector _ hread rfl]
          split
          · next hended =>
              exact ⟨hd.fetched _, scan_append_of_ended
                (Prod.ext rfl hended) _⟩
          · next hcontinues =>
              have hnext : s + 1 + left ≤ vol.sectorsPerCluster := by omega
              refine ⟨(ih (hd.fetched _) hnext).1, ?_⟩
              rw [scan_append_of_continues (Prod.ext rfl
                (by simpa using hcontinues))]
              exact (ih (hd.fetched _) hnext).2
      · next hread =>
          exact ⟨hd.fetched _, fun hflawless => hread (hflawless _ _)⟩

/-- The entries of the first `n` clusters from `c` on. -/
def chainEntries (vol : Volume) (disk : Disk) (entry : Nat → Nat) (c n : Nat) :
    List Entry :=
  (followed vol entry c n).flatMap (clusterEntries vol disk)

/-- The first `n` clusters from `c` on are valid. -/
def Valid (vol : Volume) (entry : Nat → Nat) (c n : Nat) : Prop :=
  ∀ x ∈ followed vol entry c n, validCluster vol x = true

theorem valid_zero : Valid vol entry c 0 := by
  simp [Valid, followed]

theorem valid_succ :
    Valid vol entry c (n + 1) ↔
      validCluster vol c = true ∧ Valid vol entry (link vol entry c) n := by
  simp [Valid, followed, List.iterate]

theorem chainEntries_succ :
    chainEntries vol disk entry c (n + 1) =
      clusterEntries vol disk c ++
        chainEntries vol disk entry (link vol entry c) n := by
  simp [chainEntries, followed, List.iterate]

/-- A walk over the first `n` clusters comes to its end, with `acc'`. -/
structure Walked (vol : Volume) (disk : Disk) (entry : Nat → Nat)
    (visit : Entry → σ → σ × Bool) (c n : Nat) (acc acc' : σ) : Prop where
  valid : Valid vol entry c n
  ended : scan visit (chainEntries vol disk entry c n) acc = (acc', true) ∨
    scan visit (chainEntries vol disk entry c n) acc = (acc', false) ∧
      (link vol entry)^[n] c = chainEnd

theorem Walked.stop (hvalid : validCluster vol c = true)
    (hscan : scan visit (clusterEntries vol disk c) acc = (acc', true)) :
    Walked vol disk entry visit c 1 acc acc' := by
  refine ⟨valid_succ.2 ⟨hvalid, valid_zero⟩, Or.inl ?_⟩
  rw [chainEntries_succ]
  exact scan_append_of_ended hscan _

theorem walked_succ_iff {middle : σ}
    (hscan : scan visit (clusterEntries vol disk c) acc = (middle, false)) :
    Walked vol disk entry visit c (n + 1) acc acc' ↔
      validCluster vol c = true ∧
        Walked vol disk entry visit (link vol entry c) n middle acc' := by
  have hrest := scan_append_of_continues hscan
    (chainEntries vol disk entry (link vol entry c) n)
  constructor
  · rintro ⟨hvalid, hended⟩
    rw [chainEntries_succ, hrest] at hended
    exact ⟨(valid_succ.1 hvalid).1, (valid_succ.1 hvalid).2, hended⟩
  · rintro ⟨hvalid, hrestValid, hended⟩
    refine ⟨valid_succ.2 ⟨hvalid, hrestValid⟩, ?_⟩
    rw [chainEntries_succ, hrest]
    exact hended

theorem validCluster_chainEnd : validCluster vol chainEnd = false := rfl

/-- There are no clusters before a chain's end. -/
theorem Valid.eq_zero (hvalid : Valid vol entry chainEnd n) :
    n = 0 := by
  cases n with
  | zero => rfl
  | succ n => exact absurd (valid_succ.1 hvalid).1 (by simp [validCluster])

/-- A chain with clusters that are to be walked starts with one. -/
theorem Walked.pos (hwalked : Walked vol disk entry visit c n acc acc')
    (hc : c ≠ chainEnd) : ∃ m, n = m + 1 ∧ validCluster vol c = true := by
  cases n with
  | zero =>
      rcases hwalked.ended with hended | ⟨_, hend⟩
      · exact absurd (congrArg Prod.snd hended) Bool.false_ne_true
      · exact absurd hend hc
  | succ m => exact ⟨m, rfl, (valid_succ.1 hwalked.valid).1⟩

/-- A cluster where a walk stops is its last. -/
theorem Walked.eq_of_stop {result : σ}
    (hwalked : Walked vol disk entry visit c (n + 1) acc acc')
    (hscan : scan visit (clusterEntries vol disk c) acc = (result, true)) :
    acc' = result := by
  have hended := hwalked.ended
  rw [chainEntries_succ, scan_append_of_ended hscan] at hended
  rcases hended with hended | ⟨hended, _⟩
  · exact (congrArg Prod.fst hended).symm
  · exact absurd (congrArg Prod.snd hended).symm Bool.false_ne_true

theorem Geometry.validCluster_noSector (hgeometry : Geometry vol total) :
    validCluster vol noSector = false := by
  have hcount := hgeometry.count_lt
  rw [← Bool.not_eq_true, hgeometry.validCluster_iff, noSector]
  omega

/-- A walk can only go on through a proper link. -/
theorem Walked.ne_noSector (hgeometry : Geometry vol total)
    (hwalked : Walked vol disk entry visit c n acc acc') : c ≠ noSector := by
  rintro rfl
  obtain ⟨m, rfl, hvalid⟩ := hwalked.pos (by decide)
  rw [hgeometry.validCluster_noSector] at hvalid
  exact absurd hvalid (by decide)

theorem Serves.walkLoop (hserves : Serves vol disk total entry)
    {fuel steps : Nat} {walk : Walk σ} (hd : Consistent vol disk d)
    (hsteps : steps ≤ vol.clusterCount)
    (hwalk : walkLoop visit fuel c steps d acc = some walk) :
    Consistent vol disk walk.driver ∧
    (walk.ok = true → ∃ n, n + steps ≤ vol.clusterCount ∧
      Walked vol disk entry visit c n acc walk.acc) ∧
    (Flawless vol.reader → ∀ n acc', n + steps ≤ vol.clusterCount →
      Walked vol disk entry visit c n acc acc' →
      walk.ok = true ∧ walk.acc = acc') := by
  induction fuel generalizing c steps d acc walk with
  | zero => exact absurd hwalk (by simp [Fat32.walkLoop])
  | succ fuel ih =>
      have hcount := hserves.geometry.count_lt
      rw [Fat32.walkLoop, add32_one (by omega), hd.vol_eq] at hwalk
      split at hwalk
      · next hc =>
          subst hc
          obtain rfl := Option.some.inj hwalk
          refine ⟨hd, fun _ => ⟨0, by omega, ⟨valid_zero, Or.inr ⟨rfl, rfl⟩⟩⟩, ?_⟩
          rintro _ n acc' _ hwalked
          obtain rfl := hwalked.valid.eq_zero
          rcases hwalked.ended with hended | ⟨hended, _⟩
          · exact absurd (congrArg Prod.snd hended) Bool.false_ne_true
          · exact ⟨rfl, congrArg Prod.fst hended⟩
      next hc =>
        split at hwalk
        · next hbounds =>
            obtain rfl := Option.some.inj hwalk
            refine ⟨hd, by simp, ?_⟩
            rintro _ n acc' hn hwalked
            obtain ⟨m, rfl, hvalid⟩ := hwalked.pos hc
            rw [hvalid] at hbounds
            rcases hbounds with hbounds | hbounds
            · exact absurd hbounds (by decide)
            · omega
        next hbounds =>
          rw [not_or, Bool.not_eq_false, Nat.not_lt] at hbounds
          obtain ⟨hvalid, hnext⟩ := hbounds
          have hsectors := @Serves.walkSectors vol disk d total c entry σ visit
            acc hserves hvalid vol.sectorsPerCluster 0 hd (Nat.zero_add _).le
          rw [← clusterEntries_eq] at hsectors
          split at hwalk
          · next d₁ acc₁ ok hresult =>
              obtain rfl := Option.some.inj hwalk
              rw [hresult] at hsectors
              obtain ⟨hd₁, hscan⟩ := hsectors
              cases ok with
              | false =>
                  exact ⟨hd₁, by simp, fun hflawless => absurd hflawless hscan⟩
              | true =>
                  refine ⟨hd₁, fun _ => ⟨1, by omega, Walked.stop hvalid hscan⟩,
                    ?_⟩
                  rintro _ n acc' _ hwalked
                  obtain ⟨m, rfl, _⟩ := hwalked.pos hc
                  exact ⟨rfl, (hwalked.eq_of_stop hscan).symm⟩
          · next d₁ acc₁ hresult =>
              rw [hresult] at hsectors
              obtain ⟨hd₁, hscan⟩ := hsectors
              obtain ⟨hd₂, hlink⟩ := hserves.nextCluster hd₁ hvalid
              dsimp only at hwalk
              split at hwalk
              · next hlost =>
                  obtain rfl := Option.some.inj hwalk
                  refine ⟨hd₂, by simp, ?_⟩
                  rintro hflawless n acc' _ hwalked
                  rcases hlink with hlink | ⟨_, hfailed⟩
                  · obtain ⟨m, rfl, _⟩ := hwalked.pos hc
                    have hrest := ((walked_succ_iff hscan).1 hwalked).2
                    rw [← hlink] at hrest
                    exact absurd hlost (hrest.ne_noSector hserves.geometry)
                  · exact absurd hflawless hfailed
              · next hfound =>
                  have hlink : (Fat32.nextCluster d₁ c).2 = link vol entry c :=
                    hlink.resolve_right fun hlost => hfound hlost.1
                  rw [hlink] at hwalk
                  obtain ⟨rest, hrest, rfl⟩ := Option.map_eq_some_iff.1 hwalk
                  obtain ⟨hd₃, hsound, hcomplete⟩ := ih hd₂ hnext hrest
                  refine ⟨hd₃, ?_, ?_⟩
                  · intro hok
                    obtain ⟨n, hn, hwalked⟩ := hsound hok
                    exact ⟨n + 1, by omega,
                      (walked_succ_iff hscan).2 ⟨hvalid, hwalked⟩⟩
                  · intro hflawless n acc' hn hwalked
                    obtain ⟨m, rfl, _⟩ := hwalked.pos hc
                    exact hcomplete hflawless m acc' (by omega)
                      ((walked_succ_iff hscan).1 hwalked).2

end Walk

section Read

variable {dest dest' : Memory} {toRead done done' limit : Nat}
  {all first second : List UInt8}

/-- At most `limit` of the first bytes of `all` were copied to `dest`. -/
def Copied (all : List UInt8) (limit : Nat) (dest : Memory) (done : Nat)
    (dest' : Memory) (done' : Nat) : Prop :=
  ∃ bytes, bytes <+: all ∧ bytes.length ≤ limit ∧
    dest' = store dest done bytes ∧ done' = done + bytes.length

theorem Copied.refl : Copied all limit dest done dest done :=
  ⟨[], List.nil_prefix, Nat.zero_le _, store_nil.symm, rfl⟩

theorem Copied.append (hcopied : Copied first limit dest done dest' done') :
    Copied (first ++ second) limit dest done dest' done' := by
  obtain ⟨bytes, hfront, hcopied⟩ := hcopied
  exact ⟨bytes, hfront.trans (List.prefix_append _ _), hcopied⟩

/-- What is copied after all of `first` is the front of `second`. -/
theorem Copied.after {rest size : Nat} (hsize : first.length = size)
    (hcopied : Copied second rest (store dest done first) (done + size)
      dest' done')
    (hrest : size + rest ≤ limit) :
    Copied (first ++ second) limit dest done dest' done' := by
  subst hsize
  obtain ⟨bytes, hfront, hlength, rfl, rfl⟩ := hcopied
  refine ⟨first ++ bytes, ?_, ?_, store_store_append first bytes, ?_⟩
  · exact (List.prefix_append_right_inj first).2 hfront
  · rw [List.length_append]
    omega
  · rw [List.length_append, Nat.add_assoc]

theorem Copied.of_front (hfront : first <+: all)
    (hlength : first.length ≤ limit) :
    Copied all limit dest done (store dest done first) (done + first.length) :=
  ⟨first, hfront, hlength, rfl, rfl⟩

/-- As many bytes as there are is all of them. -/
theorem Copied.eq_store {size : Nat} (hsize : all.length = size)
    (hcopied : Copied all limit dest done dest' (done + size)) :
    dest' = store dest done all ∧ size ≤ limit := by
  obtain ⟨bytes, hfront, hlength, rfl, hdone⟩ := hcopied
  have hbytes : bytes = all := hfront.eq_of_length (by omega)
  subst hbytes
  exact ⟨rfl, by omega⟩

theorem load_front {mem : Memory} {count width : Nat} (hle : count ≤ width) :
    load mem 0 count <+: load mem 0 width := by
  obtain ⟨rest, rfl⟩ := Nat.exists_eq_add_of_le hle
  rw [load_append]
  exact List.prefix_append _ _

/-- The bytes of `left` sectors of a cluster from sector `s` on. -/
def sectorBytes (vol : Volume) (disk : Disk) (c s left : Nat) : List UInt8 :=
  (List.range' s left).flatMap fun s =>
    load (dataSector vol disk c s) 0 sectorSize

theorem clusterBytes_eq :
    clusterBytes vol disk c =
      sectorBytes vol disk c 0 vol.sectorsPerCluster := by
  rw [clusterBytes, List.range_eq_range', sectorBytes]

theorem sectorBytes_length {s left : Nat} :
    (sectorBytes vol disk c s left).length = left * sectorSize := by
  simp [sectorBytes, List.length_flatMap]

/-- The bytes of a cluster. -/
def clusterSize (vol : Volume) : Nat := vol.sectorsPerCluster * sectorSize

theorem clusterBytes_length :
    (clusterBytes vol disk c).length = clusterSize vol := by
  rw [clusterBytes_eq, sectorBytes_length, clusterSize]

theorem readSectors_done {left s : Nat} (hdone : ¬ done < toRead) :
    readSectors c toRead left s d dest done = (d, dest, done, true) := by
  cases left with
  | zero => rfl
  | succ left => rw [readSectors_succ]; exact if_neg hdone

theorem Serves.readSectors (hserves : Serves vol disk total entry)
    (hvalid : validCluster vol c = true) {left s : Nat}
    (hd : Consistent vol disk d) (hs : s + left ≤ vol.sectorsPerCluster)
    (hdone : done ≤ toRead) :
    let result := readSectors c toRead left s d dest done
    Consistent vol disk result.1 ∧
    Copied (sectorBytes vol disk c s left) (toRead - done) dest done
      result.2.1 result.2.2.1 ∧
    (result.2.2.2 = true →
      result.2.2.1 = min toRead (done + left * sectorSize)) ∧
    (result.2.2.2 = false → ¬ Flawless vol.reader) := by
  induction left generalizing s d dest done with
  | zero =>
      exact ⟨hd, Copied.refl, fun _ => by simp [readSectors, hdone],
        by simp [readSectors]⟩
  | succ left ih =>
      by_cases hmore : done < toRead
      swap
      · rw [readSectors_done hmore]
        refine ⟨hd, Copied.refl, fun _ => ?_, by simp⟩
        dsimp only
        omega
      rw [readSectors_succ, hd.vol_eq, sectorBytes, List.range'_succ,
        List.flatMap_cons]
      dsimp only
      rw [if_pos hmore]
      split
      swap
      · next hread =>
          exact ⟨hd.fetched _, Copied.refl, by simp,
            fun _ hflawless => hread (hflawless _ _)⟩
      next hread =>
        have hsector : (vol.reader d.reads (sectorLba vol c s)).2 =
            dataSector vol disk c s := by
          rw [hserves.faithful _ _ hread,
            hserves.sectorLba_eq hvalid (by omega)]
        rw [hsector]
        set sector := dataSector vol disk c s
        by_cases hlast : toRead - done ≤ sectorSize
        · rw [Nat.min_eq_left hlast, readSectors_done (by omega)]
          refine ⟨hd.fetched _, ?_, fun _ => ?_, by simp⟩
          · have hcopied : Copied (load sector 0 sectorSize) (toRead - done)
                dest done (store dest done (load sector 0 (toRead - done)))
                (done + (load sector 0 (toRead - done)).length) :=
              Copied.of_front (load_front hlast) load_length.le
            rw [load_length] at hcopied
            exact hcopied.append
          · dsimp only
            rw [Nat.succ_mul]
            omega
        · rw [Nat.min_eq_right (Nat.le_of_not_le hlast)]
          obtain ⟨hd', hcopied, hdone', hfailed⟩ := @ih
            (d.fetched (sectorLba vol c s))
            (store dest done (load sector 0 sectorSize)) (done + sectorSize)
            (s + 1) (hd.fetched _) (by omega) (by omega)
          refine ⟨hd', ?_, fun hok => ?_, hfailed⟩
          · exact hcopied.after load_length (by omega)
          · rw [hdone' hok, Nat.succ_mul]
            omega

/-- The bytes of the first `n` clusters from `c` on. -/
def chainBytes (vol : Volume) (disk : Disk) (entry : Nat → Nat) (c n : Nat) :
    List UInt8 :=
  (followed vol entry c n).flatMap (clusterBytes vol disk)

theorem chainBytes_succ {n : Nat} :
    chainBytes vol disk entry c (n + 1) =
      clusterBytes vol disk c ++
        chainBytes vol disk entry (link vol entry c) n := by
  simp [chainBytes, followed, List.iterate]

/-- What a read that needs `toRead` bytes leaves in the buffer and reports,
when it may still go through `bound` clusters. -/
structure ReadFrom (vol : Volume) (disk : Disk) (entry : Nat → Nat)
    (c bound toRead : Nat) (dest : Memory) (done : Nat) (result : ReadResult) :
    Prop where
  consistent : Consistent vol disk result.driver
  copied : ∃ n last, n ≤ bound ∧ Valid vol entry c n ∧
    Copied (chainBytes vol disk entry c n) (toRead - done) dest done
      result.dest last ∧
    (result.ok = true → last = toRead ∧ result.outBytesRead = toRead) ∧
    (result.ok = false → result.outBytesRead = last ∨ result.outBytesRead = 0)
  complete : Flawless vol.reader → ∀ n ≤ bound, Valid vol entry c n →
    toRead - done ≤ n * clusterSize vol → result.ok = true

variable {result : ReadResult}

/-- A read that copied one cluster and goes on at the next. -/
theorem ReadFrom.cons {bound : Nat} (hvalid : validCluster vol c = true)
    (hsize : done + clusterSize vol ≤ toRead)
    (hrest : ReadFrom vol disk entry (link vol entry c) bound toRead
      (store dest done (clusterBytes vol disk c)) (done + clusterSize vol)
      result) :
    ReadFrom vol disk entry c (bound + 1) toRead dest done result := by
  refine ⟨hrest.consistent, ?_, ?_⟩
  · obtain ⟨n, last, hn, hvalids, hcopied, hout⟩ := hrest.copied
    refine ⟨n + 1, last, by omega, valid_succ.2 ⟨hvalid, hvalids⟩, ?_, hout⟩
    rw [chainBytes_succ]
    exact hcopied.after clusterBytes_length (by omega)
  · intro hflawless n hn hvalids hlength
    cases n with
    | zero =>
        exact hrest.complete hflawless 0 (Nat.zero_le _) valid_zero (by omega)
    | succ n =>
        rw [Nat.succ_mul] at hlength
        exact hrest.complete hflawless n (by omega) (valid_succ.1 hvalids).2
          (by omega)

/-- A chain with more than one valid cluster goes on. -/
theorem Valid.link_proper {n : Nat} (hgeometry : Geometry vol total)
    (hvalid : Valid vol entry c (n + 2)) :
    link vol entry c ≠ chainEnd ∧ link vol entry c ≠ noSector := by
  have hnext := (valid_succ.1 (valid_succ.1 hvalid).2).1
  constructor
  · intro hend
    rw [hend, validCluster_chainEnd] at hnext
    exact absurd hnext Bool.false_ne_true
  · intro hlost
    rw [hlost, hgeometry.validCluster_noSector] at hnext
    exact absurd hnext Bool.false_ne_true

theorem Serves.readLoop (hserves : Serves vol disk total entry)
    {fuel steps : Nat} (hd : Consistent vol disk d)
    (hsteps : steps ≤ vol.clusterCount) (hdone : done ≤ toRead)
    (hread : readLoop toRead fuel c steps d dest done = some result) :
    ReadFrom vol disk entry c (vol.clusterCount - steps) toRead dest done
      result := by
  induction fuel generalizing c steps d dest done result with
  | zero => exact absurd hread (by simp [Fat32.readLoop])
  | succ fuel ih =>
      have hcount := hserves.geometry.count_lt
      rw [Fat32.readLoop, add32_one (by omega), hd.vol_eq] at hread
      split at hread
      swap
      · next hmore =>
          obtain rfl := Option.some.inj hread
          have hall : done = toRead := by omega
          exact ⟨hd, ⟨0, done, Nat.zero_le _, valid_zero, Copied.refl,
            fun _ => ⟨hall, hall⟩, by simp⟩, fun _ _ _ _ _ => rfl⟩
      next hmore =>
        split at hread
        · next hbounds =>
            obtain rfl := Option.some.inj hread
            refine ⟨hd, ⟨0, done, Nat.zero_le _, valid_zero, Copied.refl, by simp,
              fun _ => Or.inr rfl⟩, ?_⟩
            intro _ n hn hvalid hlength
            cases n with
            | zero => omega
            | succ n =>
                rw [(valid_succ.1 hvalid).1] at hbounds
                rcases hbounds with hbounds | hbounds
                · exact absurd hbounds (by decide)
                · omega
        next hbounds =>
          rw [not_or, Bool.not_eq_false, Nat.not_lt] at hbounds
          obtain ⟨hvalid, hnext⟩ := hbounds
          have hone : Valid vol entry c 1 := valid_succ.2 ⟨hvalid, valid_zero⟩
          have hsectors := @Serves.readSectors vol disk d total c entry dest
            toRead done hserves hvalid vol.sectorsPerCluster 0 hd
            (Nat.zero_add _).le hdone
          rw [← clusterBytes_eq, ← clusterSize] at hsectors
          split at hread
          · next d₁ dest₁ done₁ hresult =>
              obtain rfl := Option.some.inj hread
              rw [hresult] at hsectors
              obtain ⟨hd₁, hcopied, _, hfailed⟩ := hsectors
              refine ⟨hd₁, ⟨1, done₁, by omega, hone, ?_, by simp,
                fun _ => Or.inl rfl⟩, fun hflawless => absurd hflawless
                  (hfailed rfl)⟩
              rw [chainBytes_succ]
              exact hcopied.append
          · next d₁ dest₁ done₁ hresult =>
              rw [hresult] at hsectors
              obtain ⟨hd₁, hcopied, hall, _⟩ := hsectors
              have hall : done₁ = min toRead (done + clusterSize vol) := hall rfl
              split at hread
              · next hend =>
                  obtain rfl := Option.some.inj hread
                  have hend : done₁ = toRead := by omega
                  refine ⟨hd₁, ⟨1, done₁, by omega, hone, ?_,
                    fun _ => ⟨hend, hend⟩, by simp⟩, fun _ _ _ _ _ => rfl⟩
                  rw [chainBytes_succ]
                  exact hcopied.append
              · next hend =>
                  have hall : done₁ = done + clusterSize vol := by omega
                  subst hall
                  obtain ⟨rfl, hsize⟩ := hcopied.eq_store clusterBytes_length
                  obtain ⟨hd₂, hlink⟩ := hserves.nextCluster hd₁ hvalid
                  dsimp only at hread
                  split at hread
                  · next hlost =>
                      obtain rfl := Option.some.inj hread
                      refine ⟨hd₂, ⟨1, _, by omega, hone, ?_, by simp,
                        fun _ => Or.inl rfl⟩, ?_⟩
                      · rw [chainBytes_succ]
                        exact hcopied.append
                      · intro hflawless n _ hvalids hlength
                        have hlink := hlink.resolve_right
                          fun hfailed => hfailed.2 hflawless
                        rw [hlink] at hlost
                        rcases n with _ | _ | n
                        · omega
                        · omega
                        · have hproper := hvalids.link_proper hserves.geometry
                          exact absurd hlost (by tauto)
                  · next hfound =>
                      have hlink := hlink.resolve_right
                        fun hlost => hfound (Or.inr hlost.1)
                      rw [hlink] at hread
                      obtain ⟨rest, hrest, rfl⟩ :=
                        Option.map_eq_some_iff.1 hread
                      have hfrom := ih hd₂ hnext (by omega) hrest
                      have hbound : vol.clusterCount - steps =
                          vol.clusterCount - (steps + 1) + 1 := by omega
                      rw [hbound]
                      exact ReadFrom.cons hvalid (by omega)
                        ⟨hfrom.consistent, hfrom.copied, hfrom.complete⟩

end Read

end Fat32

end VenomOS
