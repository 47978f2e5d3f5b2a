/-
Walks over clusters come to an end whatever the reader answers: the number of
steps is bounded, and no read changes the volume that is mounted.
-/
import VenomOS.Fat32Mount
import VenomOS.Fat32Names

namespace VenomOS

namespace Fat32

open ByteMemory

variable {d : Driver} {c steps fuel left s toRead done : Nat} {dest : Memory}

section Sectors

variable {σ : Type} {visit : Entry → σ → σ × Bool} {acc : σ}

theorem walkSectors_vol :
    (walkSectors visit c left s d acc).1.vol = d.vol := by
  induction left generalizing s d acc with
  | zero => rfl
  | succ left ih =>
      rw [walkSectors_succ]
      dsimp only
      split
      · split
        · rfl
        · rw [ih, Driver.fetched]
      · rfl

end Sectors

theorem readSectors_succ :
    readSectors c toRead (left + 1) s d dest done =
      let lba := sectorLba d.vol c s
      let chunk := min (toRead - done) sectorSize
      if done < toRead then
        if (d.vol.reader d.reads lba).1 then
          readSectors c toRead left (s + 1) (d.fetched lba)
            (store dest done (load (d.vol.reader d.reads lba).2 0 chunk))
            (done + chunk)
        else (d.fetched lba, dest, done, false)
      else (d, dest, done, true) := by
  rw [readSectors]
  rfl

theorem readSectors_vol :
    (readSectors c toRead left s d dest done).1.vol = d.vol := by
  induction left generalizing s d dest done with
  | zero => rfl
  | succ left ih =>
      rw [readSectors_succ]
      dsimp only
      split
      · split
        · rw [ih, Driver.fetched]
        · rfl
      · rfl

theorem cacheFat_vol {sector : Nat} : (cacheFat d sector).1.vol = d.vol := by
  rw [cacheFat]
  split
  · dsimp only [readVolumeSector, Driver.request]
    split <;> rfl
  · rfl

theorem nextCluster_vol : (nextCluster d c).1.vol = d.vol := by
  rw [nextCluster]
  split
  · rfl
  · dsimp only
    split <;> exact cacheFat_vol

variable {σ : Type} {visit : Entry → σ → σ × Bool} {acc : σ}

theorem add32_one (hlt : steps + 1 < 2 ^ 32) : add32 steps 1 = steps + 1 :=
  Nat.mod_eq_of_lt hlt

theorem walkLoop_terminates (hcount : d.vol.clusterCount + 2 < 2 ^ 32)
    (hsteps : steps ≤ d.vol.clusterCount)
    (hfuel : d.vol.clusterCount < fuel + steps) :
    ∃ walk, walkLoop visit fuel c steps d acc = some walk ∧
      walk.driver.vol = d.vol ∧
      walk.visited.length + steps ≤ d.vol.clusterCount := by
  induction fuel generalizing c steps d acc with
  | zero => omega
  | succ fuel ih =>
      rw [walkLoop, add32_one (by omega)]
      split
      · exact ⟨_, rfl, rfl, by simpa using hsteps⟩
      split
      · exact ⟨_, rfl, rfl, by simpa using hsteps⟩
      next hbounds =>
        have hnext : steps + 1 ≤ d.vol.clusterCount := by
          rw [not_or] at hbounds
          omega
        have hone : [c].length + steps ≤ d.vol.clusterCount := by
          rw [List.length_singleton]
          omega
        have hvol : (walkSectors visit c d.vol.sectorsPerCluster 0 d
            acc).1.vol = d.vol := walkSectors_vol
        split
        · next hwalk =>
            rw [hwalk] at hvol
            exact ⟨_, rfl, hvol, hone⟩
        · next d₁ acc₁ hwalk =>
            rw [hwalk] at hvol
            have hvol₂ : (nextCluster d₁ c).1.vol = d.vol :=
              nextCluster_vol.trans hvol
            dsimp only
            split
            · exact ⟨_, rfl, hvol₂, hone⟩
            · rw [← hvol₂] at hcount hnext hfuel ⊢
              obtain ⟨walk, hwalk, hkept, hlength⟩ :=
                @ih (nextCluster d₁ c).1 (nextCluster d₁ c).2 (steps + 1) acc₁
                  hcount hnext (by omega)
              rw [hwalk]
              refine ⟨_, rfl, hkept, ?_⟩
              rw [List.length_cons]
              omega

theorem readLoop_terminates (hcount : d.vol.clusterCount + 2 < 2 ^ 32)
    (hsteps : steps ≤ d.vol.clusterCount)
    (hfuel : d.vol.clusterCount < fuel + steps) :
    ∃ result, readLoop toRead fuel c steps d dest done = some result ∧
      result.driver.vol = d.vol ∧
      result.visited.length + steps ≤ d.vol.clusterCount := by
  induction fuel generalizing c steps d dest done with
  | zero => omega
  | succ fuel ih =>
      rw [readLoop, add32_one (by omega)]
      split
      swap
      · exact ⟨_, rfl, rfl, by simpa using hsteps⟩
      split
      · exact ⟨_, rfl, rfl, by simpa using hsteps⟩
      next hbounds =>
        have hnext : steps + 1 ≤ d.vol.clusterCount := by
          rw [not_or] at hbounds
          omega
        have hone : [c].length + steps ≤ d.vol.clusterCount := by
          rw [List.length_singleton]
          omega
        have hvol : (readSectors c toRead d.vol.sectorsPerCluster 0 d dest
            done).1.vol = d.vol := readSectors_vol
        split
        · next hread =>
            rw [hread] at hvol
            exact ⟨_, rfl, hvol, hone⟩
        · next d₁ dest₁ done₁ hread =>
            rw [hread] at hvol
            have hvol₂ : (nextCluster d₁ c).1.vol = d.vol :=
              nextCluster_vol.trans hvol
            split
            · exact ⟨_, rfl, hvol, hone⟩
            · dsimp only
              split
              · exact ⟨_, rfl, hvol₂, hone⟩
              · rw [← hvol₂] at hcount hnext hfuel ⊢
                obtain ⟨result, hresult, hkept, hlength⟩ :=
                  @ih (nextCluster d₁ c).1 (nextCluster d₁ c).2 (steps + 1)
                    done₁ dest₁ hcount hnext (by omega)
                rw [hresult]
                refine ⟨_, rfl, hkept, ?_⟩
                rw [List.length_cons]
                omega

/-- The volume is one that `mount` accepted; the buffers hold anything. -/
def Mounted (d : Driver) : Prop :=
  ∃ before reader volumeLba after,
    mount before (some reader) volumeLba = (after, true) ∧ d.vol = after.vol

section

variable (hmounted : Mounted d)

include hmounted

theorem Mounted.geometry :
    ∃ total, Geometry d.vol total := by
  obtain ⟨before, reader, volumeLba, after, hmount, hvol⟩ := hmounted
  obtain ⟨_, hchecks, rfl⟩ := mount_eq_true_iff.1 hmount
  rw [hvol]
  exact ⟨_, hchecks.geometry⟩

theorem Mounted.count_lt :
    d.vol.clusterCount + 2 < 2 ^ 32 := by
  obtain ⟨total, hgeometry⟩ := hmounted.geometry
  exact hgeometry.count_lt

theorem Mounted.of_vol {d' : Driver} (hvol : d'.vol = d.vol) : Mounted d' := by
  rw [Mounted, hvol]
  exact hmounted

theorem Mounted.walkDir :
    ∃ walk, walkDir visit d c acc = some walk ∧
      walk.driver.vol = d.vol ∧
      walk.visited.length ≤ d.vol.clusterCount :=
  walkLoop_terminates hmounted.count_lt (Nat.zero_le _)
    (Nat.lt_trans (Nat.lt_add_of_pos_right (by decide)) hmounted.count_lt)

theorem Mounted.resolveParts (parts : List (List UInt8)) (cur : Found) :
    ∃ d' found, resolveParts parts cur d = some (d', found) ∧
      d'.vol = d.vol := by
  induction parts generalizing cur d with
  | nil => exact ⟨d, some cur, rfl, rfl⟩
  | cons part parts ih =>
      rw [Fat32.resolveParts]
      split
      · exact ⟨d, none, rfl, rfl⟩
      next want _ =>
        split
        swap
        · exact ⟨d, none, rfl, rfl⟩
        obtain ⟨walk, hwalk, hvol, _⟩ := @Mounted.walkDir d cur.firstCluster _
          (lookup want) none hmounted
        rw [hwalk]
        dsimp only
        split
        · next next _ _ =>
            obtain ⟨d', found, hparts, hkept⟩ := ih (hmounted.of_vol hvol)
              (enter walk.driver.vol next)
            exact ⟨d', found, hparts, hkept.trans hvol⟩
        · exact ⟨walk.driver, none, rfl, hvol⟩

theorem Mounted.resolve (path : Option (List UInt8)) :
    ∃ d' found, resolve d path = some (d', found) ∧ d'.vol = d.vol := by
  cases path with
  | none => exact ⟨d, none, rfl, rfl⟩
  | some path =>
      obtain ⟨total, hgeometry⟩ := hmounted.geometry
      rw [Fat32.resolve, if_pos hgeometry.ok]
      exact hmounted.resolveParts _ _

theorem Mounted.list (path : Option (List UInt8)) :
    ∃ d' infos ok, list d path = some (d', infos, ok) ∧ d'.vol = d.vol := by
  obtain ⟨d', found, hresolve, hvol⟩ := hmounted.resolve path
  rw [Fat32.list, hresolve]
  cases found with
  | none => exact ⟨d', [], false, rfl, hvol⟩
  | some dir =>
      dsimp only
      split
      · obtain ⟨walk, hwalk, hkept, _⟩ := @Mounted.walkDir d' dir.firstCluster _
          (fun e acc => (acc ++ [infoOf e], false)) [] (hmounted.of_vol hvol)
        rw [hwalk]
        exact ⟨_, _, _, rfl, hkept.trans hvol⟩
      · exact ⟨d', [], false, rfl, hvol⟩

theorem Mounted.fileSize (path : Option (List UInt8)) :
    ∃ d' size, fileSize d path = some (d', size) ∧ d'.vol = d.vol := by
  obtain ⟨d', found, hresolve, hvol⟩ := hmounted.resolve path
  rw [Fat32.fileSize, hresolve]
  cases found with
  | none => exact ⟨_, _, rfl, hvol⟩
  | some f => exact ⟨_, _, rfl, hvol⟩

theorem Mounted.read (path : Option (List UInt8)) (buffer : Memory)
    (capacity : Nat) :
    ∃ result, read d path buffer capacity = some result ∧
      result.driver.vol = d.vol ∧
      result.visited.length ≤ d.vol.clusterCount := by
  obtain ⟨d', found, hresolve, hvol⟩ := hmounted.resolve path
  rw [Fat32.read, hresolve]
  cases found with
  | none => exact ⟨_, rfl, hvol, Nat.zero_le _⟩
  | some f =>
      dsimp only
      split
      · exact ⟨_, rfl, hvol, Nat.zero_le _⟩
      · have hcount := hmounted.count_lt
        rw [← hvol] at hcount ⊢
        exact readLoop_terminates hcount (Nat.zero_le _)
          (Nat.lt_trans (Nat.lt_add_of_pos_right (by decide)) hcount)

end

/-- Every operation on a mounted volume returns, and a walk of a directory or
of a file goes through no more clusters than the volume has. -/
theorem operations_terminate {d : Driver} (hmounted : Mounted d)
    (path : Option (List UInt8)) :
    (∃ result, resolve d path = some result) ∧
    (∃ result, list d path = some result) ∧
    (∃ result, fileSize d path = some result) ∧
    (∀ buffer capacity, ∃ result, read d path buffer capacity = some result ∧
      result.visited.length ≤ d.vol.clusterCount) ∧
    ∀ (σ : Type) (visit : Entry → σ → σ × Bool) (cluster : Nat) (acc : σ),
      ∃ walk, walkDir visit d cluster acc = some walk ∧
        walk.visited.length ≤ d.vol.clusterCount := by
  refine ⟨?_, ?_, ?_, ?_, ?_⟩
  · obtain ⟨d', found, hresolve, _⟩ := hmounted.resolve path
    exact ⟨_, hresolve⟩
  · obtain ⟨d', infos, ok, hlist, _⟩ := hmounted.list path
    exact ⟨_, hlist⟩
  · obtain ⟨d', size, hsize, _⟩ := hmounted.fileSize path
    exact ⟨_, hsize⟩
  · intro buffer capacity
    obtain ⟨result, hread, _, hlength⟩ := hmounted.read path buffer capacity
    exact ⟨result, hread, hlength⟩
  · intro σ visit cluster acc
    obtain ⟨walk, hwalk, _, hlength⟩ := @Mounted.walkDir d cluster σ visit acc
      hmounted
    exact ⟨walk, hwalk, hlength⟩

end Fat32

end VenomOS
