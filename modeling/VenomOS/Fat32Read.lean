/-
Files as the disk has them: a path leads from directory to directory to the
first entry of its name, and a file's bytes are the clusters of its chain one
after the other.  `read` gives nothing else.
-/
import VenomOS.Fat32Disk

namespace VenomOS

namespace Fat32

open ByteMemory

variable {vol : Volume} {disk : Disk} {d d' : Driver} {total c n : Nat}
  {entry : Nat → Nat}

/-- The first `n` clusters from `c` on, by the entries. -/
abbrev clustersFrom (entry : Nat → Nat) (c n : Nat) : List Nat :=
  List.iterate entry c n

/-- They are clusters of the volume, and no entry on the way marks an end or a
bad cluster. -/
structure Chain (vol : Volume) (entry : Nat → Nat) (c n : Nat) : Prop where
  valid : ∀ x ∈ clustersFrom entry c n, validCluster vol x = true
  links : ∀ x ∈ (clustersFrom entry c n).tail, x < fatBad

theorem link_eq (hvalid : validCluster vol (link vol entry c) = true)
    (hgeometry : Geometry vol total) :
    link vol entry c = entry c ∧ entry c < fatBad ∧ entry c ≠ c := by
  have hlost := hgeometry.validCluster_noSector
  revert hvalid
  rw [link, interpret]
  split
  · intro hvalid
    exact absurd hvalid (by simp [validCluster])
  next hend =>
    split
    · intro hvalid
      rw [hlost] at hvalid
      exact absurd hvalid Bool.false_ne_true
    next hproper =>
      intro _
      rw [not_or, not_or] at hproper
      refine ⟨rfl, ?_, hproper.2.2⟩
      have hbad := hproper.1
      rw [fatEocMin] at hend
      rw [fatBad] at hbad ⊢
      omega

theorem Valid.followed_eq (hgeometry : Geometry vol total)
    (hvalid : Valid vol entry c n) :
    followed vol entry c n = clustersFrom entry c n := by
  induction n generalizing c with
  | zero => rfl
  | succ n ih =>
      have hrest := (valid_succ.1 hvalid).2
      change c :: followed vol entry (link vol entry c) n =
        c :: clustersFrom entry (entry c) n
      rw [ih hrest]
      cases n with
      | zero => rfl
      | succ n => rw [(link_eq (valid_succ.1 hrest).1 hgeometry).1]

theorem Valid.chain (hgeometry : Geometry vol total)
    (hvalid : Valid vol entry c n) : Chain vol entry c n := by
  refine ⟨?_, ?_⟩
  · rw [← hvalid.followed_eq hgeometry]
    exact hvalid
  · induction n generalizing c with
    | zero => simp
    | succ n ih =>
        have hrest := (valid_succ.1 hvalid).2
        cases n with
        | zero => simp
        | succ n =>
            obtain ⟨hlink, hproper, _⟩ :=
              link_eq (valid_succ.1 hrest).1 hgeometry
            rw [hlink] at hrest
            intro x hx
            rw [clustersFrom, List.iterate, List.tail_cons, List.iterate,
              List.mem_cons] at hx
            rcases hx with rfl | hx
            · exact hproper
            · exact ih hrest x hx

theorem chain_succ :
    Chain vol entry c (n + 1) ↔
      validCluster vol c = true ∧ (0 < n → entry c < fatBad) ∧
        Chain vol entry (entry c) n := by
  cases n with
  | zero =>
      refine ⟨fun hchain => ⟨hchain.valid c List.mem_cons_self, by simp,
        ⟨by simp, by simp⟩⟩, fun hchain => ⟨?_, by simp⟩⟩
      simpa [List.iterate] using hchain.1
  | succ n =>
      constructor
      · intro hchain
        refine ⟨hchain.valid c List.mem_cons_self,
          fun _ => hchain.links _ List.mem_cons_self, ?_, ?_⟩
        · exact fun x hx => hchain.valid x (List.mem_cons_of_mem c hx)
        · exact fun x hx => hchain.links x (List.mem_cons_of_mem _ hx)
      · rintro ⟨hc, hproper, hchain⟩
        refine ⟨fun x hx => ?_, fun x hx => ?_⟩
        · rcases List.mem_cons.1 hx with rfl | hx
          · exact hc
          · exact hchain.valid x hx
        · rcases List.mem_cons.1 hx with rfl | hx
          · exact hproper (Nat.succ_pos n)
          · exact hchain.links x hx

/-- The driver follows a proper link to another cluster. -/
theorem link_of_proper (hvalid : validCluster vol (entry c) = true)
    (hproper : entry c < fatBad) (hother : entry c ≠ c) :
    link vol entry c = entry c := by
  rw [link, interpret, if_neg, if_neg]
  · rw [hvalid]
    have hbad := Nat.ne_of_lt hproper
    tauto
  · rw [fatBad] at hproper
    rw [fatEocMin]
    omega

/-- The driver can follow a chain just when no cluster is its own successor. -/
theorem valid_iff_chain (hgeometry : Geometry vol total) :
    Valid vol entry c n ↔
      Chain vol entry c n ∧ (clustersFrom entry c n).IsChain (· ≠ ·) := by
  induction n generalizing c with
  | zero => exact ⟨fun _ => ⟨⟨by simp, by simp⟩, List.IsChain.nil⟩, fun _ => valid_zero⟩
  | succ n ih =>
      rw [valid_succ, chain_succ]
      cases n with
      | zero =>
          exact ⟨fun hvalid => ⟨⟨hvalid.1, by simp, ⟨by simp, by simp⟩⟩,
            List.IsChain.singleton c⟩, fun hchain => ⟨hchain.1.1, valid_zero⟩⟩
      | succ n =>
          constructor
          · rintro ⟨hc, hrest⟩
            obtain ⟨hlink, hproper, hother⟩ :=
              link_eq (valid_succ.1 hrest).1 hgeometry
            rw [hlink] at hrest
            obtain ⟨hchain, hmoves⟩ := ih.1 hrest
            exact ⟨⟨hc, fun _ => hproper, hchain⟩,
              List.isChain_cons_cons.2 ⟨Ne.symm hother, hmoves⟩⟩
          · rintro ⟨⟨hc, hproper, hchain⟩, hmoves⟩
            obtain ⟨hother, hmoves⟩ := List.isChain_cons_cons.1 hmoves
            rw [link_of_proper (hchain.valid _ List.mem_cons_self)
              (hproper (Nat.succ_pos n)) (Ne.symm hother)]
            exact ⟨hc, ih.2 ⟨hchain, hmoves⟩⟩

theorem Valid.mono {m : Nat} (hvalid : Valid vol entry c n) (hle : m ≤ n) :
    Valid vol entry c m := by
  intro x hx
  refine hvalid x ?_
  rw [followed, List.mem_iterate] at hx ⊢
  obtain ⟨k, hk, hx⟩ := hx
  exact ⟨k, by omega, hx⟩

variable {want : List UInt8} {e : Entry} {entries : List Entry} {f : Found}

/-- Neither the end of the directory nor skipped. -/
def Live (e : Entry) : Prop := e 0 ≠ 0 ∧ skipped e = false

/-- The first entry of a name. -/
def FirstMatch (want : List UInt8) (entries : List Entry) (e : Entry) : Prop :=
  ∃ before after, entries = before ++ e :: after ∧ Live e ∧
    load e 0 11 = want ∧
    ∀ x ∈ before, x 0 ≠ 0 ∧ (skipped x = true ∨ load x 0 11 ≠ want)

theorem FirstMatch.head (hlive : Live e) (hname : load e 0 11 = want) :
    FirstMatch want (e :: entries) e :=
  ⟨[], entries, rfl, hlive, hname, by simp⟩

theorem FirstMatch.cons {x : Entry} (hfirst : FirstMatch want entries e)
    (hx : x 0 ≠ 0 ∧ (skipped x = true ∨ load x 0 11 ≠ want)) :
    FirstMatch want (x :: entries) e := by
  obtain ⟨before, after, rfl, hlive, hname, hbefore⟩ := hfirst
  refine ⟨x :: before, after, rfl, hlive, hname, ?_⟩
  intro y hy
  rcases List.mem_cons.1 hy with rfl | hy
  · exact hx
  · exact hbefore y hy

theorem firstMatch_of_scan {stop : Bool}
    (hscan : scan (lookup want) entries none = (some f, stop)) :
    ∃ e, FirstMatch want entries e ∧ f = foundOf e := by
  induction entries with
  | nil => cases congrArg Prod.fst hscan
  | cons x rest ih =>
      rw [scan] at hscan
      split at hscan
      · cases congrArg Prod.fst hscan
      next hx =>
        split at hscan
        · next hskipped =>
            obtain ⟨e, hfirst, hf⟩ := ih hscan
            exact ⟨e, hfirst.cons ⟨hx, Or.inl hskipped⟩, hf⟩
        next hskipped =>
          by_cases hname : load x 0 11 = want
          · rw [lookup, if_pos hname] at hscan
            refine ⟨x, FirstMatch.head ⟨hx, by simpa using hskipped⟩ hname, ?_⟩
            exact (Option.some.inj (congrArg Prod.fst hscan)).symm
          · rw [lookup, if_neg hname] at hscan
            obtain ⟨e, hfirst, hf⟩ := ih hscan
            exact ⟨e, hfirst.cons ⟨hx, Or.inr hname⟩, hf⟩

theorem FirstMatch.scan (hfirst : FirstMatch want entries e) :
    scan (lookup want) entries none = (some (foundOf e), true) := by
  obtain ⟨before, after, rfl, hlive, hname, hbefore⟩ := hfirst
  induction before with
  | nil =>
      rw [List.nil_append, Fat32.scan, if_neg hlive.1, hlive.2, lookup,
        if_pos hname]
      rfl
  | cons x before ih =>
      obtain ⟨hx, hother⟩ := hbefore x List.mem_cons_self
      have hrest := ih fun y hy => hbefore y (List.mem_cons_of_mem x hy)
      rw [List.cons_append, Fat32.scan, if_neg hx]
      split
      · exact hrest
      next hskipped =>
        rw [lookup, if_neg (hother.resolve_left hskipped)]
        exact hrest

/-- The entries of the first `n` clusters of a directory. -/
def directory (vol : Volume) (disk : Disk) (entry : Nat → Nat) (c n : Nat) :
    List Entry :=
  (clustersFrom entry c n).flatMap (clusterEntries vol disk)

/-- A path leads from what `cur` describes to what `found` describes. -/
inductive Resolves (vol : Volume) (disk : Disk) (entry : Nat → Nat) :
    Found → List (List UInt8) → Found → Prop
  | here (cur : Found) : Resolves vol disk entry cur [] cur
  | enter {cur found : Found} {part want : List UInt8}
      {parts : List (List UInt8)} {n : Nat} {e : Entry}
      (hname : toShortName part = some want) (hdir : cur.isDir = true)
      (hchain : Chain vol entry cur.firstCluster n)
      (hfirst : FirstMatch want
        (directory vol disk entry cur.firstCluster n) e)
      (hrest : Resolves vol disk entry (enter vol (foundOf e)) parts found) :
      Resolves vol disk entry cur (part :: parts) found

theorem Serves.walkDir (hserves : Serves vol disk total entry)
    (hd : Consistent vol disk d) {σ : Type} {visit : Entry → σ → σ × Bool}
    {acc : σ} {walk : Walk σ} (hwalk : walkDir visit d c acc = some walk) :
    Consistent vol disk walk.driver ∧
    (walk.ok = true → ∃ n ≤ vol.clusterCount,
      Walked vol disk entry visit c n acc walk.acc) ∧
    (Flawless vol.reader → ∀ n ≤ vol.clusterCount, ∀ acc',
      Walked vol disk entry visit c n acc acc' →
      walk.ok = true ∧ walk.acc = acc') := by
  obtain ⟨hconsistent, hsound, hcomplete⟩ :=
    hserves.walkLoop hd (Nat.zero_le _) hwalk
  exact ⟨hconsistent, hsound, fun hflawless n hn acc' =>
    hcomplete hflawless n acc' hn⟩

theorem Serves.resolveParts (hserves : Serves vol disk total entry)
    (hd : Consistent vol disk d) {parts : List (List UInt8)} {cur : Found}
    {found : Option Found}
    (hparts : resolveParts parts cur d = some (d', found)) :
    Consistent vol disk d' ∧
      ∀ f, found = some f → Resolves vol disk entry cur parts f := by
  induction parts generalizing cur d with
  | nil =>
      obtain ⟨rfl, rfl⟩ := Prod.mk.inj (Option.some.inj hparts)
      refine ⟨hd, ?_⟩
      rintro f hf
      obtain rfl := Option.some.inj hf
      exact Resolves.here cur
  | cons part parts ih =>
      have hnone : ∀ {d'' : Driver}, Consistent vol disk d'' →
          some (d'', none) = some (d', found) → Consistent vol disk d' ∧
            ∀ f, found = some f →
              Resolves vol disk entry cur (part :: parts) f := by
        rintro d'' hd'' hresult
        obtain ⟨rfl, rfl⟩ := Prod.mk.inj (Option.some.inj hresult)
        exact ⟨hd'', by simp⟩
      rw [Fat32.resolveParts] at hparts
      split at hparts
      · exact hnone hd hparts
      next want hname =>
        split at hparts
        swap
        · exact hnone hd hparts
        next hdir =>
          split at hparts
          · cases hparts
          next walk hwalk =>
            obtain ⟨hd₁, hsound, _⟩ := hserves.walkDir hd hwalk
            split at hparts
            · next next hok hacc =>
                rw [hd₁.vol_eq] at hparts
                obtain ⟨hd₂, hresolves⟩ := ih hd₁ hparts
                refine ⟨hd₂, fun f hf => ?_⟩
                obtain ⟨n, _, hwalked⟩ := hsound hok
                rw [hacc] at hwalked
                have hscan : ∃ stop, scan (lookup want)
                    (chainEntries vol disk entry cur.firstCluster n) none =
                      (some next, stop) :=
                  hwalked.ended.elim (fun hended => ⟨_, hended⟩)
                    fun hended => ⟨_, hended.1⟩
                obtain ⟨stop, hscan⟩ := hscan
                obtain ⟨e, hfirst, rfl⟩ := firstMatch_of_scan hscan
                have hfollowed :=
                  hwalked.valid.followed_eq hserves.geometry
                rw [chainEntries, hfollowed] at hfirst
                exact Resolves.enter hname hdir
                  (hwalked.valid.chain hserves.geometry) hfirst
                  (hresolves f hf)
            · exact hnone hd₁ hparts

/-- What the driver takes as the entry of a cluster. -/
def driverEntry (vol : Volume) (disk : Disk) (c : Nat) : Nat :=
  fatEntryAt vol disk (fatByteOff c)

/-- The root directory. -/
def rootOf (vol : Volume) : Found := ⟨vol.rootCluster, 0, true⟩

/-- A path from the root. -/
def Leads (vol : Volume) (disk : Disk) (entry : Nat → Nat)
    (path : Option (List UInt8)) (f : Found) : Prop :=
  ∃ parts, path.map pathParts = some parts ∧
    Resolves vol disk entry (rootOf vol) parts f

section Operations

variable {path : Option (List UInt8)} {found : Option Found}

section

variable (hserves : Serves vol disk total entry) (hd : Consistent vol disk d)

include hserves hd

theorem Serves.resolve (hresolve : resolve d path = some (d', found)) :
    Consistent vol disk d' ∧
      ∀ f, found = some f → Leads vol disk entry path f := by
  cases path with
  | none =>
      obtain ⟨rfl, rfl⟩ := Prod.mk.inj (Option.some.inj hresolve)
      exact ⟨hd, by simp⟩
  | some path =>
      rw [Fat32.resolve, hd.vol_eq, if_pos hserves.geometry.ok] at hresolve
      obtain ⟨hd', hresolves⟩ := hserves.resolveParts hd hresolve
      exact ⟨hd', fun f hf => ⟨pathParts path, rfl, hresolves f hf⟩⟩

theorem Serves.list {infos : List DirEntryInfo} {ok : Bool}
    (hlist : list d path = some (d', infos, ok)) :
    Consistent vol disk d' := by
  rw [Fat32.list] at hlist
  split at hlist
  · cases hlist
  · next d₁ hresolve =>
      obtain ⟨rfl, _⟩ := Prod.mk.inj (Option.some.inj hlist)
      exact (hserves.resolve hd hresolve).1
  · next d₁ dir hresolve =>
      have hd₁ := (hserves.resolve hd hresolve).1
      split at hlist
      · obtain ⟨walk, hwalk, hresult⟩ := Option.map_eq_some_iff.1 hlist
        obtain ⟨rfl, _⟩ := Prod.mk.inj hresult
        exact (hserves.walkDir hd₁ hwalk).1
      · obtain ⟨rfl, _⟩ := Prod.mk.inj (Option.some.inj hlist)
        exact hd₁

theorem Serves.fileSize {size : Int}
    (hsize : fileSize d path = some (d', size)) : Consistent vol disk d' := by
  obtain ⟨⟨d₁, found⟩, hresolve, hresult⟩ := Option.map_eq_some_iff.1 hsize
  have hd₁ := (hserves.resolve hd hresolve).1
  cases found with
  | none =>
      obtain ⟨rfl, _⟩ := Prod.mk.inj hresult
      exact hd₁
  | some f =>
      obtain ⟨rfl, _⟩ := Prod.mk.inj hresult
      exact hd₁

/-- A read ends before its loop, or runs the loop on the file of the path. -/
theorem Serves.read {buffer : Memory} {capacity : Nat} {result : ReadResult}
    (hread : read d path buffer capacity = some result) :
    (Consistent vol disk result.driver ∧ result.dest = buffer ∧
      result.outBytesRead = 0 ∧ result.ok = false) ∨
    ∃ f, Leads vol disk entry path f ∧ f.isDir = false ∧
      (∃ d', Fat32.resolve d path = some (d', some f)) ∧
      ReadFrom vol disk entry f.firstCluster vol.clusterCount
        (min f.size capacity) buffer 0 result := by
  rw [Fat32.read] at hread
  split at hread
  · cases hread
  · next d₁ hresolve =>
      obtain rfl := Option.some.inj hread
      exact Or.inl ⟨(hserves.resolve hd hresolve).1, rfl, rfl, rfl⟩
  · next d₁ f hresolve =>
      obtain ⟨hd₁, hleads⟩ := hserves.resolve hd hresolve
      split at hread
      · obtain rfl := Option.some.inj hread
        exact Or.inl ⟨hd₁, rfl, rfl, rfl⟩
      · next hfile =>
          exact Or.inr ⟨f, hleads f rfl, by simpa using hfile, ⟨d₁, hresolve⟩,
            hserves.readLoop hd₁ (Nat.zero_le _) (Nat.zero_le _) hread⟩

end

end Operations

/-- The driver after a successful mount and any number of calls. -/
inductive Reached (reader : Reader) (volumeLba : Nat) : Driver → Prop
  | mount {before after : Driver}
      (hmount : mount before (some reader) volumeLba = (after, true)) :
      Reached reader volumeLba after
  | list {d d' : Driver} {path : Option (List UInt8)}
      {infos : List DirEntryInfo} {ok : Bool}
      (hd : Reached reader volumeLba d)
      (hlist : list d path = some (d', infos, ok)) :
      Reached reader volumeLba d'
  | fileSize {d d' : Driver} {path : Option (List UInt8)} {size : Int}
      (hd : Reached reader volumeLba d)
      (hsize : fileSize d path = some (d', size)) :
      Reached reader volumeLba d'
  | read {d : Driver} {path : Option (List UInt8)} {buffer : Memory}
      {capacity : Nat} {result : ReadResult}
      (hd : Reached reader volumeLba d)
      (hread : read d path buffer capacity = some result) :
      Reached reader volumeLba result.driver

/-- What holds of every driver reached. -/
structure Steady (reader : Reader) (disk : Disk) (d : Driver) : Prop where
  mounted : Mounted d
  serves : ∃ total, Serves d.vol disk total (driverEntry d.vol disk)
  consistent : Consistent d.vol disk d
  reader_eq : d.vol.reader = reader

theorem Steady.of_consistent {reader : Reader} (hsteady : Steady reader disk d)
    (hd' : Consistent d.vol disk d') : Steady reader disk d' := by
  have hvol := hd'.vol_eq
  refine ⟨hsteady.mounted.of_vol hvol, ?_, ?_, ?_⟩
  · rw [hvol]
    exact hsteady.serves
  · rw [hvol]
    exact hd'
  · rw [hvol]
    exact hsteady.reader_eq

theorem Reached.steady {reader : Reader} {volumeLba : Nat}
    (hfaithful : Faithful reader disk)
    (hreached : Reached reader volumeLba d) : Steady reader disk d := by
  induction hreached with
  | @mount before after hmount =>
      have hmounted : Mounted after := ⟨_, _, _, _, hmount, rfl⟩
      obtain ⟨_, hchecks, rfl⟩ := mount_eq_true_iff.1 hmount
      exact ⟨hmounted, ⟨_, hchecks.geometry, hfaithful, fun _ _ => rfl⟩,
        ⟨rfl, fun hne => absurd rfl hne⟩, rfl⟩
  | list _ hlist ih =>
      obtain ⟨total, hserves⟩ := ih.serves
      exact ih.of_consistent (hserves.list ih.consistent hlist)
  | fileSize _ hsize ih =>
      obtain ⟨total, hserves⟩ := ih.serves
      exact ih.of_consistent (hserves.fileSize ih.consistent hsize)
  | read _ hread ih =>
      obtain ⟨total, hserves⟩ := ih.serves
      refine ih.of_consistent ?_
      rcases hserves.read ih.consistent hread with hnone | ⟨f, _, _, _, hfrom⟩
      · exact hnone.1
      · exact hfrom.consistent

/-- The bytes of the first `n` clusters of a file. -/
def fileBytes (vol : Volume) (disk : Disk) (entry : Nat → Nat) (c n : Nat) :
    List UInt8 :=
  (clustersFrom entry c n).flatMap (clusterBytes vol disk)

/-- The first `count` bytes of the buffer are the first bytes of the clusters
of a chain on the disk. -/
def HoldsFile (vol : Volume) (disk : Disk) (entry : Nat → Nat) (c : Nat)
    (buffer : Memory) (count : Nat) : Prop :=
  ∃ n, Chain vol entry c n ∧
    load buffer 0 count <+: fileBytes vol disk entry c n

theorem fatByteOff_eq (hc : c < 2 ^ 30) : fatByteOff c = 4 * c := by
  rw [fatByteOff, mul32]
  omega

/-- On a volume with fewer than 2^28 clusters the driver finds every entry. -/
theorem Serves.exact (hserves : Serves vol disk total (driverEntry vol disk))
    (hclusters : vol.clusterCount < 2 ^ 28) :
    Serves vol disk total (fatEntry vol disk) := by
  refine ⟨hserves.geometry, hserves.faithful, fun c hvalid => ?_⟩
  have hcount := (hserves.geometry.validCluster_iff.1 hvalid).2
  rw [fatByteOff_eq (by omega), fatEntry]

variable {result : ReadResult}

theorem ReadFrom.holdsFile {buffer : Memory} {bound toRead : Nat}
    (hgeometry : Geometry vol total)
    (hfrom : ReadFrom vol disk entry c bound toRead buffer 0 result) :
    (∀ i, toRead ≤ i → result.dest i = buffer i) ∧
    (result.ok = true → result.outBytesRead = toRead ∧
      HoldsFile vol disk entry c result.dest result.outBytesRead) ∧
    (result.ok = false → result.outBytesRead = 0 ∨
      HoldsFile vol disk entry c result.dest result.outBytesRead) := by
  obtain ⟨n, last, _, hvalid, hcopied, htrue, hfalse⟩ := hfrom.copied
  obtain ⟨bytes, hfront, hlength, hdest, hlast⟩ := hcopied
  have hholds : HoldsFile vol disk entry c result.dest last := by
    refine ⟨n, hvalid.chain hgeometry, ?_⟩
    rw [hdest, hlast, Nat.zero_add, load_store_self, fileBytes,
      ← hvalid.followed_eq hgeometry]
    exact hfront
  refine ⟨fun i hi => ?_, fun hok => ?_, fun hok => ?_⟩
  · rw [hdest]
    exact store_outside (by omega)
  · obtain ⟨hend, hout⟩ := htrue hok
    rw [hout, ← hend]
    exact ⟨rfl, hholds⟩
  · rcases hfalse hok with hout | hout
    · rw [hout]
      exact Or.inr hholds
    · exact Or.inl hout

/-- After any history, a read gives bytes of the file's chain only, all of
them if it succeeds, and writes within the capacity. -/
theorem read_gives_file_bytes {reader : Reader} {disk : Disk}
    {volumeLba : Nat} {d : Driver} (hfaithful : Faithful reader disk)
    (hreached : Reached reader volumeLba d)
    (hclusters : d.vol.clusterCount < 2 ^ 28) (path : Option (List UInt8))
    (buffer : Memory) (capacity : Nat) :
    ∃ result, read d path buffer capacity = some result ∧
      (∀ i, capacity ≤ i → result.dest i = buffer i) ∧
      (result.ok = true → ∃ f,
        Leads d.vol disk (fatEntry d.vol disk) path f ∧ f.isDir = false ∧
        result.outBytesRead = min f.size capacity ∧
        HoldsFile d.vol disk (fatEntry d.vol disk) f.firstCluster result.dest
          result.outBytesRead) ∧
      (result.ok = false → result.outBytesRead = 0 ∨ ∃ f,
        Leads d.vol disk (fatEntry d.vol disk) path f ∧ f.isDir = false ∧
        HoldsFile d.vol disk (fatEntry d.vol disk) f.firstCluster result.dest
          result.outBytesRead) := by
  have hsteady := hreached.steady hfaithful
  obtain ⟨total, hserves⟩ := hsteady.serves
  have hserves := hserves.exact hclusters
  obtain ⟨result, hread, _⟩ := hsteady.mounted.read path buffer capacity
  refine ⟨result, hread, ?_⟩
  rcases hserves.read hsteady.consistent hread with
    ⟨_, hdest, hout, hok⟩ | ⟨f, hleads, hfile, _, hfrom⟩
  · rw [hdest, hout, hok]
    exact ⟨fun _ _ => rfl, by simp, fun _ => Or.inl rfl⟩
  · obtain ⟨houtside, htrue, hfalse⟩ := hfrom.holdsFile hserves.geometry
    refine ⟨fun i hi => houtside i (by omega), fun hok => ?_, fun hok => ?_⟩
    · exact ⟨f, hleads, hfile, htrue hok⟩
    · exact (hfalse hok).imp_right fun hholds => ⟨f, hleads, hfile, hholds⟩

/-- A directory entry with a name, attributes, a first cluster and a size. -/
def entryBytes (name : String) (attributes : UInt8) (cluster size : Nat) :
    List UInt8 :=
  codesOf name ++ attributes :: List.replicate 8 0 ++
    leBytes 2 (cluster / 2 ^ 16) ++ List.replicate 4 0 ++ leBytes 2 cluster ++
    leBytes 4 size

def sectorOf (bytes : List UInt8) : Memory := store (fun _ => 0) 0 bytes

/-- A volume whose root directory has a file of two clusters, one whose two
clusters lead to each other, and one whose cluster leads to itself. -/
def sampleDisk : Disk := fun lba =>
  if lba = diskVolumeLba then plainBoot 80000 700
  else if lba = diskVolumeLba + 32 then
    sectorOf ([0x0FFFFFF8, 0x0FFFFFFF, 0x0FFFFFFF, 4, 3, 6, 0x0FFFFFFF,
      7].flatMap (leBytes 4))
  else if lba = diskVolumeLba + 732 then
    sectorOf (entryBytes "VENOMVOL   " attrVolumeId 0 0 ++
      entryBytes "HELLO   TXT" 0x20 5 600 ++
      entryBytes "LOOP       " 0x20 3 1536 ++
      entryBytes "SELF       " 0x20 7 1024)
  else if lba = diskVolumeLba + 735 then sectorOf (codesOf "hello")
  else fun _ => 0

def sampleReader : Reader := fun _ lba => (true, sampleDisk lba)

def sampleDriver : Driver := Driver.initial.mounted sampleReader diskVolumeLba

theorem mount_sample :
    mount Driver.initial (some sampleReader) diskVolumeLba =
      (sampleDriver, true) :=
  mount_eq_true_iff.2 ⟨rfl, accepted_small, rfl⟩

theorem faithful_sample : Faithful sampleReader sampleDisk := fun _ _ _ => rfl

theorem reached_sample : Reached sampleReader diskVolumeLba sampleDriver :=
  Reached.mount mount_sample

theorem read_gives_file_bytes_sample : ∃ result,
    read sampleDriver (some (codesOf "hello.txt")) (fun _ => 0) 1024 =
      some result ∧ result.ok = true ∧ result.visited = [5, 6] ∧
    ∃ f, Leads sampleDriver.vol sampleDisk
      (fatEntry sampleDriver.vol sampleDisk) (some (codesOf "hello.txt")) f ∧
      result.outBytesRead = min f.size 1024 ∧
      HoldsFile sampleDriver.vol sampleDisk
        (fatEntry sampleDriver.vol sampleDisk) f.firstCluster result.dest
        result.outBytesRead := by
  obtain ⟨result, hread, _, htrue, _⟩ := read_gives_file_bytes faithful_sample
    reached_sample (by decide +kernel) (some (codesOf "hello.txt"))
    (fun _ => 0) 1024
  have hdone : (read sampleDriver (some (codesOf "hello.txt")) (fun _ => 0)
      1024).map (fun result => (result.ok, result.visited)) =
        some (true, [5, 6]) := by decide +kernel
  rw [hread] at hdone
  obtain ⟨hok, hvisited⟩ := Prod.mk.inj (Option.some.inj hdone)
  obtain ⟨f, hleads, _, hout, hholds⟩ := htrue hok
  exact ⟨result, hread, hok, hvisited, f, hleads, hout, hholds⟩

/-- The operations end on a chain that does not. -/
theorem operations_terminate_sample : ∃ result,
    read sampleDriver (some (codesOf "LOOP")) (fun _ => 0) 4096 =
      some result ∧ result.visited = [3, 4, 3] ∧
    result.visited.length ≤ sampleDriver.vol.clusterCount := by
  obtain ⟨_, _, _, hreads, _⟩ := operations_terminate
    ⟨_, _, _, _, mount_sample, rfl⟩ (some (codesOf "LOOP"))
  obtain ⟨result, hread, hlength⟩ := hreads (fun _ => 0) 4096
  have hvisited : (read sampleDriver (some (codesOf "LOOP")) (fun _ => 0)
      4096).map ReadResult.visited = some [3, 4, 3] := by decide +kernel
  rw [hread] at hvisited
  exact ⟨result, hread, Option.some.inj hvisited, hlength⟩

/-- How many clusters a read of `toRead` bytes goes through. -/
def clustersNeeded (vol : Volume) (toRead : Nat) : Nat :=
  (toRead + clusterSize vol - 1) / clusterSize vol

theorem Geometry.clusterSize_pos (hgeometry : Geometry vol total) :
    0 < clusterSize vol :=
  Nat.mul_pos hgeometry.spc_pos (by decide)

theorem Geometry.clustersNeeded_le_iff (hgeometry : Geometry vol total)
    {toRead : Nat} :
    clustersNeeded vol toRead ≤ n ↔ toRead ≤ n * clusterSize vol := by
  have hpos := hgeometry.clusterSize_pos
  rw [clustersNeeded, Nat.div_le_iff_le_mul_add_pred hpos,
    Nat.mul_comm n]
  omega

/-- Some cluster comes up twice among those that a read needs. -/
def Loops (vol : Volume) (disk : Disk) (c needed : Nat) : Prop :=
  ¬ (clustersFrom (fatEntry vol disk) c needed).Nodup

/-- No more clusters than the volume has, one linked to the next as the driver
finds the entries, and none linked to itself. -/
structure Servable (vol : Volume) (disk : Disk) (c needed : Nat) : Prop where
  few : needed ≤ vol.clusterCount
  chain : Chain vol (driverEntry vol disk) c needed
  moves : (clustersFrom (driverEntry vol disk) c needed).IsChain (· ≠ ·)

theorem chainBytes_length :
    (chainBytes vol disk entry c n).length = n * clusterSize vol := by
  induction n generalizing c with
  | zero => simp [chainBytes, followed]
  | succ n ih =>
      rw [chainBytes_succ, List.length_append, clusterBytes_length, ih,
        Nat.succ_mul, Nat.add_comm]

theorem Serves.ok_iff_servable
    (hserves : Serves vol disk total (driverEntry vol disk))
    (hflawless : Flawless vol.reader) {buffer : Memory} {toRead : Nat}
    (hfrom : ReadFrom vol disk (driverEntry vol disk) c vol.clusterCount
      toRead buffer 0 result) :
    result.ok = true ↔ Servable vol disk c (clustersNeeded vol toRead) := by
  have hgeometry := hserves.geometry
  constructor
  · intro hok
    obtain ⟨n, last, hn, hvalid, hcopied, htrue, _⟩ := hfrom.copied
    obtain ⟨bytes, hfront, _, _, hlast⟩ := hcopied
    have hlength := hfront.length_le
    rw [chainBytes_length] at hlength
    have hneeded : clustersNeeded vol toRead ≤ n := by
      rw [hgeometry.clustersNeeded_le_iff]
      have hend := (htrue hok).1
      omega
    obtain ⟨hchain, hmoves⟩ :=
      (valid_iff_chain hgeometry).1 (hvalid.mono hneeded)
    exact ⟨hneeded.trans hn, hchain, hmoves⟩
  · rintro ⟨hfew, hchain, hmoves⟩
    exact hfrom.complete hflawless _ hfew
      ((valid_iff_chain hgeometry).2 ⟨hchain, hmoves⟩)
      (hgeometry.clustersNeeded_le_iff.1 le_rfl)

/-- A loop is refused unless the driver can follow it cluster by cluster as
far as the read needs. -/
theorem loop_refused_iff {reader : Reader} {disk : Disk} {volumeLba : Nat}
    {d d' : Driver} {path : Option (List UInt8)} {f : Found}
    (hfaithful : Faithful reader disk) (hflawless : Flawless reader)
    (hreached : Reached reader volumeLba d)
    (hresolve : resolve d path = some (d', some f)) (hfile : f.isDir = false)
    (buffer : Memory) (capacity : Nat) :
    let needed := clustersNeeded d.vol (min f.size capacity)
    (Loops d.vol disk f.firstCluster needed →
      ∃ result, read d path buffer capacity = some result ∧
        result.ok = false) ↔
    ¬ (Loops d.vol disk f.firstCluster needed ∧
      Servable d.vol disk f.firstCluster needed) := by
  intro needed
  have hsteady := hreached.steady hfaithful
  obtain ⟨total, hserves⟩ := hsteady.serves
  rw [← hsteady.reader_eq] at hflawless
  obtain ⟨result, hread, _⟩ := hsteady.mounted.read path buffer capacity
  have hloop : readLoop (min f.size capacity) walkLimit f.firstCluster 0 d'
      buffer 0 = some result := by
    rw [Fat32.read, hresolve] at hread
    simpa [hfile] using hread
  have hd' := (hserves.resolve hsteady.consistent hresolve).1
  have hok := hserves.ok_iff_servable hflawless
    (hserves.readLoop hd' (Nat.zero_le _) (Nat.zero_le _) hloop)
  have hrefused : (∃ result, read d path buffer capacity = some result ∧
      result.ok = false) ↔
        ¬ Servable d.vol disk f.firstCluster needed := by
    rw [← hok, hread]
    simp
  rw [hrefused]
  tauto

theorem flawless_sample : Flawless sampleReader := fun _ _ => rfl

theorem resolve_sample {name : String} {f : Found}
    (hfound : (resolve sampleDriver (some (codesOf name))).map Prod.snd =
      some (some f)) :
    ∃ d', resolve sampleDriver (some (codesOf name)) = some (d', some f) := by
  obtain ⟨⟨d', found⟩, hresolve, hfound⟩ := Option.map_eq_some_iff.1 hfound
  obtain rfl : found = some f := hfound
  exact ⟨d', hresolve⟩

/-- A cluster that leads to itself is not served twice. -/
theorem loop_refused_self :
    Loops sampleDriver.vol sampleDisk 7
      (clustersNeeded sampleDriver.vol (min 1024 4096)) ∧
    ∃ result, read sampleDriver (some (codesOf "SELF")) (fun _ => 0) 4096 =
      some result ∧ result.ok = false := by
  have hfound : (resolve sampleDriver (some (codesOf "SELF"))).map Prod.snd =
      some (some ⟨7, 1024, false⟩) := by decide +kernel
  have hloops : Loops sampleDriver.vol sampleDisk 7
      (clustersNeeded sampleDriver.vol (min 1024 4096)) := by
    rw [Loops]
    decide +kernel
  obtain ⟨d', hresolve⟩ := resolve_sample hfound
  have hiff := loop_refused_iff faithful_sample flawless_sample reached_sample
    hresolve rfl (fun _ => 0) 4096
  refine ⟨hloops, hiff.mpr (fun hserved => ?_) hloops⟩
  exact absurd hserved.2.moves (by decide +kernel)

/-- The clusters 3 and 4 lead to each other and are served three times. -/
theorem loop_served : ∃ result,
    read sampleDriver (some (codesOf "LOOP")) (fun _ => 0) 4096 =
      some result ∧
    result.ok = true ∧ result.outBytesRead = 1536 ∧
    result.visited = [3, 4, 3] ∧
    (resolve sampleDriver (some (codesOf "LOOP"))).map Prod.snd =
      some (some ⟨3, 1536, false⟩) ∧
    Loops sampleDriver.vol sampleDisk 3
      (clustersNeeded sampleDriver.vol (min 1536 4096)) := by
  have hserved : (read sampleDriver (some (codesOf "LOOP")) (fun _ => 0)
      4096).map (fun result =>
        (result.ok, result.outBytesRead, result.visited)) =
      some (true, 1536, [3, 4, 3]) := by decide +kernel
  obtain ⟨result, hread, hserved⟩ := Option.map_eq_some_iff.1 hserved
  simp only [Prod.mk.injEq] at hserved
  refine ⟨result, hread, hserved.1, hserved.2.1, hserved.2.2, ?_, ?_⟩
  · decide +kernel
  · rw [Loops]
    decide +kernel

end Fat32

end VenomOS
