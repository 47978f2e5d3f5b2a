/-
Directories that are listed and looked up again, and the links to a directory
itself and to its parent.
-/
import VenomOS.Fat32Read

namespace VenomOS

namespace Fat32

open ByteMemory

variable {vol : Volume} {disk : Disk} {d d' : Driver} {total c n : Nat}
  {entry : Nat → Nat} {e : Entry} {entries : List Entry}
  {base extension spelled : List UInt8}

/-- A printable character that is stored as it is. -/
def CanonicalChar (c : UInt8) : Prop :=
  0x21 ≤ c ∧ c ≤ 0x7E ∧ c ≠ dot ∧ c ≠ slash ∧
    ¬ (charCode 'a' ≤ c ∧ c ≤ charCode 'z')

instance (c : UInt8) : Decidable (CanonicalChar c) :=
  inferInstanceAs (Decidable (_ ∧ _ ∧ _ ∧ _ ∧ _))

/-- A name of up to eight characters and an extension of up to three. -/
structure CanonicalName (base extension : List UInt8) : Prop where
  base_pos : base ≠ []
  base_le : base.length ≤ 8
  extension_le : extension.length ≤ 3
  chars : ∀ c ∈ base ++ extension, CanonicalChar c

/-- The name as it is shown. -/
def shown (base extension : List UInt8) : List UInt8 :=
  base ++ if extension = [] then [] else dot :: extension

theorem CanonicalChar.ne_space {c : UInt8} (hc : CanonicalChar c) :
    c ≠ space := by
  rintro rfl
  exact absurd hc (by decide)

variable {path part field rest : List UInt8}

theorem padded_length {width : Nat} (hle : field.length ≤ width) :
    (padded width field).length = width := by
  rw [padded, List.length_append, List.length_replicate]
  omega

theorem trimmed_padded {width : Nat} (hspace : ∀ c ∈ field, c ≠ space) :
    trimmed (padded width field) = field := by
  have hall : ∀ c ∈ field, (fun c => c != space) c = true := by
    simpa using hspace
  rw [trimmed, padded, List.takeWhile_append_of_pos hall]
  cases width - field.length <;> simp [List.replicate_succ]

/-- The two fields of the 11 bytes of a canonical name. -/
theorem CanonicalName.fields (hname : CanonicalName base extension)
    (hbytes : load e 0 11 = padded 8 base ++ padded 3 extension) :
    load e 0 8 = padded 8 base ∧ load e 8 3 = padded 3 extension := by
  rw [load_append 8 3, Nat.zero_add] at hbytes
  refine List.append_inj hbytes ?_
  rw [load_length, padded_length hname.base_le]

theorem CanonicalName.shown_eq (hname : CanonicalName base extension)
    (hbytes : load e 0 11 = padded 8 base ++ padded 3 extension) :
    (infoOf e).name = shown base extension := by
  obtain ⟨hbase, hextension⟩ := hname.fields hbytes
  have hspace : ∀ c ∈ base ++ extension, c ≠ space :=
    fun c hc => (hname.chars c hc).ne_space
  have hfirst : e 8 = (padded 3 extension).headD 0 := by
    rw [← hextension]
    rfl
  rw [infoOf, hbase, hextension,
    trimmed_padded fun c hc => hspace c (List.mem_append_left _ hc),
    trimmed_padded fun c hc => hspace c (List.mem_append_right _ hc), hfirst,
    shown]
  cases extension with
  | nil => rfl
  | cons c rest =>
      have hc : c ≠ space := hspace c (by simp)
      simp [padded, hc]

theorem beforeDot_append_dot (hdot : dot ∉ base) :
    beforeDot (base ++ dot :: rest) = base := by
  induction base with
  | nil => exact beforeDot_cons_dot
  | cons c base ih =>
      rw [List.mem_cons, not_or] at hdot
      rw [List.cons_append, beforeDot_cons (Ne.symm hdot.1), ih hdot.2]

theorem afterDot_append_dot (hdot : dot ∉ base) :
    afterDot (base ++ dot :: rest) = rest := by
  induction base with
  | nil => rw [List.nil_append, afterDot, fromDot_cons_dot, List.tail_cons]
  | cons c base ih =>
      rw [List.mem_cons, not_or] at hdot
      rw [List.cons_append, afterDot, fromDot_cons (Ne.symm hdot.1)]
      exact ih hdot.2

theorem mem_map_upper_dot {part : List UInt8} :
    dot ∈ part.map upper ↔ dot ∈ part := by
  simp [upper_eq_dot_iff]

theorem CanonicalName.dot_notMem (hname : CanonicalName base extension) :
    dot ∉ base ∧ dot ∉ extension :=
  ⟨fun hdot => (hname.chars dot (List.mem_append_left _ hdot)).2.2.1 rfl,
    fun hdot => (hname.chars dot (List.mem_append_right _ hdot)).2.2.1 rfl⟩

/-- A canonical name is found again in every spelling. -/
theorem CanonicalName.toShortName (hname : CanonicalName base extension)
    (hspelled : spelled.map upper = shown base extension) :
    toShortName spelled = some (padded 8 base ++ padded 3 extension) := by
  obtain ⟨hbase, hextension⟩ := hname.dot_notMem
  rw [shown] at hspelled
  by_cases hnone : extension = []
  · subst hnone
    rw [if_pos rfl, List.append_nil] at hspelled
    have hdot : dot ∉ spelled := by
      rwa [← mem_map_upper_dot, hspelled]
    have hlength : spelled.length = base.length := by
      rw [← hspelled, List.length_map]
    have hpos : spelled ≠ [] := by
      rintro rfl
      exact hname.base_pos hspelled.symm
    rw [toShortName_of_notMem hdot, if_pos ⟨hpos, hlength ▸ hname.base_le⟩,
      nameField, hspelled, List.map_nil]
  · rw [if_neg hnone] at hspelled
    have hdot : dot ∈ spelled := by
      rw [← mem_map_upper_dot, hspelled]
      simp
    have hbefore : (beforeDot spelled).map upper = base := by
      rw [← beforeDot_map_upper, hspelled, beforeDot_append_dot hbase]
    have hafter : (afterDot spelled).map upper = extension := by
      rw [← afterDot_map_upper, hspelled, afterDot_append_dot hbase]
    have hpos : beforeDot spelled ≠ [] := by
      intro hnil
      rw [hnil] at hbefore
      exact hname.base_pos hbefore.symm
    have hlength : (beforeDot spelled).length ≤ 8 := by
      rw [← List.length_map upper, hbefore]
      exact hname.base_le
    have hrest : Extension (afterDot spelled) := by
      refine ⟨?_, ?_, ?_⟩
      · intro hnil
        rw [hnil] at hafter
        exact hnone hafter.symm
      · rwa [← mem_map_upper_dot, hafter]
      · rw [← List.length_map upper, hafter]
        exact hname.extension_le
    rw [toShortName_of_mem hdot, if_pos ⟨hpos, hlength, hrest⟩, nameField,
      hbefore, hafter]

theorem upper_slash : upper slash = slash := by decide

/-- A spelling of a canonical name is one part of a path. -/
theorem CanonicalName.pathParts (hname : CanonicalName base extension)
    (hspelled : spelled.map upper = shown base extension) :
    pathParts spelled = [spelled] := by
  have hpos : spelled ≠ [] := by
    rintro rfl
    exact hname.base_pos (List.append_eq_nil_iff.1 hspelled.symm).1
  refine pathParts_of_notMem hpos fun hslash => ?_
  have hmem : slash ∈ shown base extension := by
    rw [← hspelled, ← upper_slash]
    exact List.mem_map_of_mem hslash
  have hchar : slash ∈ base ++ extension := by
    rw [shown] at hmem
    split at hmem
    · simpa using Or.inl hmem
    · have hne : slash ≠ dot := by decide
      simpa [hne] using hmem
  exact (hname.chars slash hchar).2.2.2.1 rfl

/-- The first `n` clusters from `c` on are clusters of the volume with numbers
that a link can hold, none comes up twice, and the last is marked as such. -/
structure WholeChain (vol : Volume) (disk : Disk) (c n : Nat) : Prop where
  clusters : ∀ x ∈ clustersFrom (fatEntry vol disk) c n,
    validCluster vol x = true ∧ x < fatBad
  acyclic : (clustersFrom (fatEntry vol disk) c n).Nodup
  pos : 0 < n
  ends : fatEocMin ≤ (fatEntry vol disk)^[n] c

theorem clustersFrom_congr {other : Nat → Nat}
    (hsame : ∀ x ∈ clustersFrom entry c n, other x = entry x) :
    clustersFrom other c n = clustersFrom entry c n ∧
      other^[n] c = entry^[n] c := by
  induction n generalizing c with
  | zero => exact ⟨rfl, rfl⟩
  | succ n ih =>
      have hc : other c = entry c := hsame c List.mem_cons_self
      obtain ⟨hclusters, hlast⟩ := @ih (entry c) fun x hx =>
        hsame x (List.mem_cons_of_mem c hx)
      rw [Function.iterate_succ_apply, Function.iterate_succ_apply, hc]
      refine ⟨?_, hlast⟩
      rw [clustersFrom, clustersFrom, List.iterate, List.iterate, hc]
      exact congrArg (c :: ·) hclusters

/-- The driver's links end where the entries mark the end. -/
theorem Valid.link_end (hgeometry : Geometry vol total)
    (hvalid : Valid vol entry c (n + 1))
    (hends : fatEocMin ≤ entry^[n + 1] c) :
    (link vol entry)^[n + 1] c = chainEnd := by
  induction n generalizing c with
  | zero =>
      change interpret vol c (entry c) = chainEnd
      exact if_pos hends
  | succ n ih =>
      have hrest := (valid_succ.1 hvalid).2
      have hlink := (link_eq (valid_succ.1 hrest).1 hgeometry).1
      rw [Function.iterate_succ_apply] at hends ⊢
      rw [hlink] at hrest ⊢
      exact ih hrest hends

theorem WholeChain.driverEntry_eq (hchain : WholeChain vol disk c n) :
    clustersFrom (driverEntry vol disk) c n =
        clustersFrom (fatEntry vol disk) c n ∧
      (driverEntry vol disk)^[n] c = (fatEntry vol disk)^[n] c := by
  refine clustersFrom_congr fun x hx => ?_
  have hlt := (hchain.clusters x hx).2
  rw [fatBad] at hlt
  rw [driverEntry, fatByteOff_eq (by omega), fatEntry]

section

variable (hchain : WholeChain vol disk c n) (hgeometry : Geometry vol total)

include hchain hgeometry

theorem WholeChain.valid :
    Valid vol (driverEntry vol disk) c n := by
  rw [valid_iff_chain hgeometry]
  have hclusters := hchain.driverEntry_eq.1
  refine ⟨⟨?_, ?_⟩, ?_⟩
  · rw [hclusters]
    exact fun x hx => (hchain.clusters x hx).1
  · rw [hclusters]
    exact fun x hx => (hchain.clusters x (List.mem_of_mem_tail hx)).2
  · rw [hclusters]
    exact hchain.acyclic.isChain

theorem WholeChain.link_end :
    (link vol (driverEntry vol disk))^[n] c = chainEnd := by
  have hvalid := hchain.valid hgeometry
  have hends := hchain.ends
  rw [← hchain.driverEntry_eq.2] at hends
  obtain ⟨m, rfl⟩ := Nat.exists_eq_succ_of_ne_zero hchain.pos.ne'
  exact hvalid.link_end hgeometry hends

/-- A chain without a repetition is no longer than the volume. -/
theorem WholeChain.le_count : n ≤ vol.clusterCount := by
  have hsubset : clustersFrom (fatEntry vol disk) c n ⊆
      List.range' 2 vol.clusterCount := by
    intro x hx
    have hvalid := hgeometry.validCluster_iff.1 (hchain.clusters x hx).1
    rw [List.mem_range'_1]
    omega
  have hlength := (hchain.acyclic.subperm hsubset).length_le
  rwa [List.length_iterate, List.length_range'] at hlength

theorem WholeChain.chainEntries_eq :
    chainEntries vol disk (driverEntry vol disk) c n =
      directory vol disk (fatEntry vol disk) c n := by
  rw [chainEntries, (hchain.valid hgeometry).followed_eq hgeometry,
    hchain.driverEntry_eq.1, directory]

/-- A walk over a whole chain comes to its end. -/
theorem WholeChain.walked {σ : Type} {visit : Entry → σ → σ × Bool}
    {acc acc' : σ} {stop : Bool}
    (hscan : scan visit (directory vol disk (fatEntry vol disk) c n) acc =
      (acc', stop)) :
    Walked vol disk (driverEntry vol disk) visit c n acc acc' := by
  refine ⟨hchain.valid hgeometry, ?_⟩
  rw [hchain.chainEntries_eq hgeometry, hscan]
  cases stop with
  | true => exact Or.inl rfl
  | false => exact Or.inr ⟨rfl, hchain.link_end hgeometry⟩

end

/-- The live entries up to the end of a directory. -/
def liveEntries (entries : List Entry) : List Entry :=
  (entries.takeWhile fun e => e 0 != 0).filter fun e => !skipped e

def dotName : List UInt8 := padded 11 [dot]

def dotDotName : List UInt8 := padded 11 [dot, dot]

/-- Those that are not the links to the directory itself and to its parent. -/
def namedEntries (entries : List Entry) : List Entry :=
  (liveEntries entries).filter fun e =>
    load e 0 11 ≠ dotName ∧ load e 0 11 ≠ dotDotName

theorem scan_collect (entries : List Entry) (acc : List DirEntryInfo) :
    ∃ stop, scan (fun e acc => (acc ++ [infoOf e], false)) entries acc =
      (acc ++ (liveEntries entries).map infoOf, stop) := by
  induction entries generalizing acc with
  | nil => exact ⟨false, by simp [scan, liveEntries]⟩
  | cons e rest ih =>
      rw [scan]
      by_cases hend : e 0 = 0
      · exact ⟨true, by simp [hend, liveEntries]⟩
      · rw [if_neg hend]
        have hlive : liveEntries (e :: rest) =
            if skipped e then liveEntries rest else e :: liveEntries rest := by
          by_cases hskipped : skipped e = true <;>
            simp [liveEntries, hend, hskipped]
        rw [hlive]
        split
        · exact ih acc
        · obtain ⟨stop, hrest⟩ := ih (acc ++ [infoOf e])
          refine ⟨stop, ?_⟩
          simpa using hrest

theorem mem_namedEntries :
    e ∈ namedEntries entries ↔
      e ∈ (entries.takeWhile fun e => e 0 != 0) ∧ skipped e = false ∧
        load e 0 11 ≠ dotName ∧ load e 0 11 ≠ dotDotName := by
  simp only [namedEntries, liveEntries, List.mem_filter, Bool.not_eq_eq_eq_not,
    Bool.not_true, decide_eq_true_eq, and_assoc]

/-- Among distinct names, an entry is the first with its own. -/
theorem firstMatch_of_named (hnamed : e ∈ namedEntries entries)
    (hdistinct : ((namedEntries entries).map fun e => load e 0 11).Nodup) :
    FirstMatch (load e 0 11) entries e := by
  obtain ⟨hlive, hskipped, hother⟩ := mem_namedEntries.1 hnamed
  have hnonzero : ∀ x ∈ (entries.takeWhile fun e => e 0 != 0), x 0 ≠ 0 :=
    fun x hx => by simpa using List.mem_takeWhile_imp hx
  have hwhole : (entries.takeWhile fun e => e 0 != 0) ++
      (entries.dropWhile fun e => e 0 != 0) = entries :=
    List.takeWhile_append_dropWhile
  rw [namedEntries, liveEntries] at hdistinct
  obtain ⟨before, after, hsplit⟩ := List.append_of_mem hlive
  rw [hsplit] at hwhole hdistinct hnonzero
  refine ⟨before, after ++ entries.dropWhile fun e => e 0 != 0, ?_,
    ⟨hnonzero e (by simp), hskipped⟩, rfl, ?_⟩
  · rw [← List.cons_append, ← List.append_assoc]
    exact hwhole.symm
  · intro x hx
    refine ⟨hnonzero x (by simp [hx]), ?_⟩
    by_contra hsame
    rw [not_or, Bool.not_eq_true, not_not] at hsame
    rw [List.filter_append, List.filter_append, List.map_append] at hdistinct
    have hx' : x ∈ (before.filter fun e => !skipped e).filter fun e =>
        load e 0 11 ≠ dotName ∧ load e 0 11 ≠ dotDotName := by
      simpa [hx, hsame.1, hsame.2] using hother
    have he' : e ∈ ((e :: after).filter fun e => !skipped e).filter fun e =>
        load e 0 11 ≠ dotName ∧ load e 0 11 ≠ dotDotName := by
      simpa [hskipped] using hother
    exact (List.nodup_append.1 hdistinct).2.2 _ (List.mem_map_of_mem hx') _
      (List.mem_map_of_mem he') hsame.2

theorem resolveParts_append {first second : List (List UInt8)} {cur f : Found}
    (hfirst : resolveParts first cur d = some (d', some f)) :
    resolveParts (first ++ second) cur d = resolveParts second f d' := by
  induction first generalizing cur d with
  | nil =>
      obtain ⟨rfl, hf⟩ := Prod.mk.inj (Option.some.inj hfirst)
      obtain rfl := Option.some.inj hf
      rfl
  | cons part first ih =>
      rw [resolveParts] at hfirst
      rw [List.cons_append, resolveParts]
      split at hfirst
      · cases hfirst
      next want _ =>
        split at hfirst
        swap
        · cases hfirst
        next hdir =>
          rw [if_pos hdir]
          split at hfirst
          · cases hfirst
          next walk _ =>
            split at hfirst
            · exact ih hfirst
            · cases hfirst

theorem resolve_append {f : Found}
    (hresolve : resolve d (some path) = some (d', some f)) :
    resolve d (some (path ++ slash :: part)) =
      resolveParts (pathParts part) f d' := by
  rw [resolve] at hresolve ⊢
  split at hresolve
  · next hok =>
      rw [if_pos hok, pathParts_append, resolveParts_append hresolve]
  · cases hresolve

/-- A directory whose chain is whole and whose names are canonical and distinct
is listed entry by entry, and each name leads back to its entry. -/
theorem list_shows_what_opens {reader : Reader} {disk : Disk}
    {volumeLba n : Nat} {d d' : Driver} {path : List UInt8} {dir : Found}
    (hfaithful : Faithful reader disk) (hflawless : Flawless reader)
    (hreached : Reached reader volumeLba d)
    (hresolve : resolve d (some path) = some (d', some dir))
    (hdir : dir.isDir = true)
    (hchain : WholeChain d.vol disk dir.firstCluster n)
    {entries : List Entry}
    (hentries : directory d.vol disk (fatEntry d.vol disk) dir.firstCluster n =
      entries)
    (hnames : ∀ e ∈ namedEntries entries, ∃ base extension,
      CanonicalName base extension ∧
      load e 0 11 = padded 8 base ++ padded 3 extension)
    (hdistinct : ((namedEntries entries).map fun e => load e 0 11).Nodup) :
    (∃ after, list d (some path) =
      some (after, (liveEntries entries).map infoOf, true)) ∧
    ∀ e ∈ namedEntries entries, ∀ spelled : List UInt8,
      spelled.map upper = (infoOf e).name →
      ∃ after, resolve d (some (path ++ slash :: spelled)) =
        some (after, some (enter d.vol (foundOf e))) := by
  have hsteady := hreached.steady hfaithful
  obtain ⟨total, hserves⟩ := hsteady.serves
  have hgeometry := hserves.geometry
  rw [← hsteady.reader_eq] at hflawless
  have hd' := (hserves.resolve hsteady.consistent hresolve).1
  have hmounted' : Mounted d' := hsteady.mounted.of_vol hd'.vol_eq
  have hcount := hchain.le_count hgeometry
  constructor
  · obtain ⟨stop, hscan⟩ := scan_collect entries []
    obtain ⟨walk, hwalk, _⟩ := @Mounted.walkDir d' dir.firstCluster _
      (fun e acc => (acc ++ [infoOf e], false)) [] hmounted'
    rw [← hentries] at hscan
    obtain ⟨hok, hacc⟩ := (hserves.walkDir hd' hwalk).2.2 hflawless n hcount _
      (hchain.walked hgeometry hscan)
    refine ⟨walk.driver, ?_⟩
    rw [list, hresolve]
    dsimp only
    rw [if_pos hdir, hwalk, Option.map_some, hok, hacc, hentries,
      List.nil_append]
  · intro e he spelled hspelled
    obtain ⟨base, extension, hname, hbytes⟩ := hnames e he
    rw [hname.shown_eq hbytes] at hspelled
    have hscan := (firstMatch_of_named he hdistinct).scan
    rw [← hentries] at hscan
    obtain ⟨walk, hwalk, _⟩ := @Mounted.walkDir d' dir.firstCluster _
      (lookup (load e 0 11)) none hmounted'
    obtain ⟨hok, hacc⟩ := (hserves.walkDir hd' hwalk).2.2 hflawless n hcount _
      (hchain.walked hgeometry hscan)
    have hvol := (hserves.walkDir hd' hwalk).1.vol_eq
    refine ⟨walk.driver, ?_⟩
    rw [resolve_append hresolve, hname.pathParts hspelled, resolveParts,
      hname.toShortName hspelled, ← hbytes]
    dsimp only
    rw [if_pos hdir, hwalk]
    dsimp only
    rw [hok, hacc, hvol]
    rfl

/-- The names in the root directory of the sample. -/
theorem names_sample :
    (namedEntries (directory sampleDriver.vol sampleDisk
      (fatEntry sampleDriver.vol sampleDisk) 2 1)).map (fun e => load e 0 11) =
      [codesOf "HELLO   TXT", codesOf "LOOP       ",
        codesOf "SELF       "] := by
  decide +kernel

theorem wholeChain_sample : WholeChain sampleDriver.vol sampleDisk 2 1 := by
  refine ⟨?_, ?_, Nat.one_pos, ?_⟩ <;> decide +kernel

theorem canonical_sample {name : List UInt8}
    (hname : name ∈ [codesOf "HELLO   TXT", codesOf "LOOP       ",
      codesOf "SELF       "]) :
    ∃ base extension, CanonicalName base extension ∧
      name = padded 8 base ++ padded 3 extension := by
  simp only [List.mem_cons, List.not_mem_nil, or_false] at hname
  rcases hname with rfl | rfl | rfl
  · refine ⟨codesOf "HELLO", codesOf "TXT", ?_, by decide +kernel⟩
    constructor <;> decide +kernel
  · refine ⟨codesOf "LOOP", [], ?_, by decide +kernel⟩
    constructor <;> decide +kernel
  · refine ⟨codesOf "SELF", [], ?_, by decide +kernel⟩
    constructor <;> decide +kernel

theorem list_shows_what_opens_sample : ∃ after,
    list sampleDriver (some []) = some (after,
      (liveEntries (directory sampleDriver.vol sampleDisk
        (fatEntry sampleDriver.vol sampleDisk) 2 1)).map infoOf, true) := by
  have hresolve : resolve sampleDriver (some []) =
      some (sampleDriver, some ⟨2, 0, true⟩) := by rfl
  refine (list_shows_what_opens faithful_sample flawless_sample reached_sample
    hresolve rfl wholeChain_sample rfl ?_ ?_).1
  · intro e he
    refine canonical_sample ?_
    rw [← names_sample]
    exact List.mem_map_of_mem he
  · rw [names_sample]
    decide +kernel

/-- A part that is no name leads nowhere. -/
theorem resolveParts_eq_none {parts : List (List UInt8)} {part : List UInt8}
    {cur : Found} {found : Option Found} (hpart : part ∈ parts)
    (hname : toShortName part = none)
    (hparts : resolveParts parts cur d = some (d', found)) : found = none := by
  induction parts generalizing cur d with
  | nil => exact absurd hpart List.not_mem_nil
  | cons first parts ih =>
      have hnone : ∀ {d'' : Driver}, some (d'', none) = some (d', found) →
          found = none := by
        rintro d'' hresult
        exact (Prod.mk.inj (Option.some.inj hresult)).2.symm
      rw [resolveParts] at hparts
      split at hparts
      · exact hnone hparts
      next want hwant =>
        have hrest : part ∈ parts := by
          rcases List.mem_cons.1 hpart with rfl | hrest
          · exact absurd hwant (by simp [hname])
          · exact hrest
        split at hparts
        swap
        · exact hnone hparts
        split at hparts
        · cases hparts
        split at hparts
        · exact ih hrest hparts
        · exact hnone hparts

theorem resolve_ne_found {f : Found} (hparts : pathParts part = [part])
    (hname : toShortName part = none) :
    resolve d (some (path ++ slash :: part)) ≠ some (d', some f) := by
  intro hresolve
  rw [resolve] at hresolve
  split at hresolve
  · have hmem : part ∈ pathParts (path ++ slash :: part) := by
      rw [pathParts_append, hparts]
      simp
    cases resolveParts_eq_none hmem hname hresolve
  · cases hresolve

/-- The links to itself and to its parent lead somewhere only from what is no
subdirectory. -/
theorem parent_links_iff (d : Driver) (disk : Disk) (path name : List UInt8) :
    (∀ parent sub,
      Leads d.vol disk (fatEntry d.vol disk) (some path) parent →
      parent.isDir = true →
      Leads d.vol disk (fatEntry d.vol disk) (some (path ++ slash :: name))
        sub →
      sub.isDir = true →
      (∃ after, resolve d (some (path ++ slash :: name ++ slash ::
        [dot, dot])) = some (after, some parent)) ∧
      ∃ after, resolve d (some (path ++ slash :: name ++ slash :: [dot])) =
        some (after, some sub)) ↔
    ¬ ∃ parent sub,
      Leads d.vol disk (fatEntry d.vol disk) (some path) parent ∧
      parent.isDir = true ∧
      Leads d.vol disk (fatEntry d.vol disk) (some (path ++ slash :: name))
        sub ∧
      sub.isDir = true := by
  constructor
  · rintro hlinks ⟨parent, sub, hparent, hdir, hsub, hsubdir⟩
    obtain ⟨⟨after, hresolve⟩, _⟩ := hlinks parent sub hparent hdir hsub hsubdir
    exact resolve_ne_found (by decide) (by decide) hresolve
  · intro hnone parent sub hparent hdir hsub hsubdir
    exact absurd ⟨parent, sub, hparent, hdir, hsub, hsubdir⟩ hnone

/-- A volume with a subdirectory that starts with its two links. -/
def nestedDisk : Disk := fun lba =>
  if lba = diskVolumeLba then plainBoot 80000 700
  else if lba = diskVolumeLba + 32 then
    sectorOf ([0x0FFFFFF8, 0x0FFFFFFF, 0x0FFFFFFF, 0x0FFFFFFF].flatMap
      (leBytes 4))
  else if lba = diskVolumeLba + 732 then
    sectorOf (entryBytes "DOCS       " attrDirectory 3 0)
  else if lba = diskVolumeLba + 733 then
    sectorOf (entryBytes ".          " attrDirectory 3 0 ++
      entryBytes "..         " attrDirectory 0 0)
  else fun _ => 0

def nestedDriver : Driver :=
  Driver.initial.mounted (fun _ lba => (true, nestedDisk lba)) diskVolumeLba

theorem parent_links_rejected :
    mount Driver.initial (some fun _ lba => (true, nestedDisk lba))
      diskVolumeLba = (nestedDriver, true) ∧
    (resolve nestedDriver (some (codesOf "/"))).map Prod.snd =
      some (some ⟨2, 0, true⟩) ∧
    (resolve nestedDriver (some (codesOf "/DOCS"))).map Prod.snd =
      some (some ⟨3, 0, true⟩) ∧
    (resolve nestedDriver (some (codesOf "/DOCS/.."))).map Prod.snd =
      some none ∧
    (resolve nestedDriver (some (codesOf "/DOCS/."))).map Prod.snd =
      some none :=
  ⟨mount_eq_true_iff.2 ⟨rfl, accepted_small, rfl⟩, by decide +kernel,
    by decide +kernel, by decide +kernel, by decide +kernel⟩

end Fat32

end VenomOS
