/-
The tree that the image builder makes of its arguments: what a later argument
does to an earlier one.
-/
import VenomOS.Mkfat32
import VenomOS.Mkfat32Names

namespace VenomOS

namespace Fat32

namespace Mkfat32

/-- What a name stands for. -/
inductive Node
  | file (content : List UInt8)
  | dir (sub : Dir)

/-- The first item of a name. -/
def Dir.find (name : List UInt8) : Dir → Option Node
  | nil => none
  | file other content rest =>
      if other = name then some (.file content) else find name rest
  | dir other sub rest =>
      if other = name then some (.dir sub) else find name rest

/-- Where a path leads. -/
def Node.follow : List (List UInt8) → Node → Option Node
  | [], node => some node
  | _ :: _, .file _ => none
  | name :: names, .dir tree => (tree.find name).bind (follow names)

variable {name other content : List UInt8} {names path : List (List UInt8)}
  {tree tree' : Dir} {change : Dir → Option Dir}

namespace Dir

theorem find_setFile_self :
    (tree.setFile name content).find name = some (.file content) := by
  induction tree with
  | nil => simp [setFile, find]
  | file other old rest ih | dir other sub rest _ ih =>
      rw [setFile]
      split
      · simp [find]
      next hother => rw [find, if_neg hother, ih]

theorem find_setFile_other (hother : other ≠ name) :
    (tree.setFile name content).find other = tree.find other := by
  induction tree with
  | nil => simp [setFile, find, Ne.symm hother]
  | file first old rest ih | dir first sub rest _ ih =>
      rw [setFile]
      split
      next hfirst =>
        rw [find, find, if_neg (Ne.symm hother), hfirst,
          if_neg (Ne.symm hother)]
      next => rw [find, find, ih]

/-- What is behind a name before and after a descent. -/
structure Descended (name : List UInt8) (change : Dir → Option Dir)
    (tree tree' : Dir) : Prop where
  found : ∃ sub sub', change sub = some sub' ∧
    tree'.find name = some (.dir sub') ∧
    (tree.find name = some (.dir sub) ∨ tree.find name = none ∧ sub = nil)
  others : ∀ other, other ≠ name → tree'.find other = tree.find other

/-- An item in front does not matter. -/
theorem Descended.of_rest {first : List UInt8} {node : Node}
    {rest rest' : Dir} (hfirst : first ≠ name)
    (hbefore : ∀ other, tree.find other =
      if first = other then some node else rest.find other)
    (hafter : ∀ other, tree'.find other =
      if first = other then some node else rest'.find other)
    (hdescended : Descended name change rest rest') :
    Descended name change tree tree' := by
  obtain ⟨⟨sub, sub', hchange, hfound, hold⟩, hothers⟩ := hdescended
  refine ⟨⟨sub, sub', hchange, ?_, ?_⟩, fun other hother => ?_⟩
  · rw [hafter, if_neg hfirst, hfound]
  · rw [hbefore, if_neg hfirst]
    exact hold
  · rw [hafter, hbefore, hothers other hother]

theorem descended_of_descend (hdescend : tree.descend name change = some tree') :
    Descended name change tree tree' := by
  induction tree generalizing tree' with
  | nil =>
      obtain ⟨sub', hchange, rfl⟩ := Option.map_eq_some_iff.1 hdescend
      refine ⟨⟨nil, sub', hchange, by simp [find], .inr ⟨rfl, rfl⟩⟩, ?_⟩
      intro other hother
      simp [find, Ne.symm hother]
  | file first old rest ih =>
      rw [descend] at hdescend
      split at hdescend
      · cases hdescend
      next hfirst =>
        obtain ⟨rest', hrest, rfl⟩ := Option.map_eq_some_iff.1 hdescend
        exact (ih hrest).of_rest hfirst (fun _ => rfl) fun _ => rfl
  | dir first sub rest _ ih =>
      rw [descend] at hdescend
      split at hdescend
      next hfirst =>
        obtain ⟨sub', hchange, rfl⟩ := Option.map_eq_some_iff.1 hdescend
        refine ⟨⟨sub, sub', hchange, by rw [find, if_pos hfirst],
          .inl (by rw [find, if_pos hfirst])⟩, ?_⟩
        intro other hother
        rw [find, find, hfirst, if_neg (Ne.symm hother),
          if_neg (Ne.symm hother)]
      next hfirst =>
        obtain ⟨rest', hrest, rfl⟩ := Option.map_eq_some_iff.1 hdescend
        exact (ih hrest).of_rest hfirst (fun _ => rfl) fun _ => rfl

theorem follow_insert_self
    (hinsert : tree.insert content names = some tree') :
    (Node.dir tree').follow names = some (.file content) := by
  induction names generalizing tree tree' with
  | nil => cases hinsert
  | cons name names ih =>
      cases names with
      | nil =>
          obtain rfl := Option.some.inj hinsert
          rw [Node.follow, find_setFile_self]
          rfl
      | cons next names =>
          obtain ⟨⟨sub, sub', hchange, hafter, _⟩, _⟩ :=
            descended_of_descend hinsert
          rw [Node.follow, hafter]
          exact ih hchange

/-- A file stays where it is unless a front part of its path becomes a
file. -/
theorem follow_insert_other
    (hinsert : tree.insert content names = some tree')
    {old : List UInt8} (hold : (Node.dir tree).follow path = some (.file old))
    (hfront : ¬ names <+: path) :
    (Node.dir tree').follow path = some (.file old) := by
  induction names generalizing tree tree' path with
  | nil => cases hinsert
  | cons name names ih =>
      cases path with
      | nil => cases hold
      | cons part path =>
          rw [List.cons_prefix_cons, not_and] at hfront
          cases names with
          | nil =>
              obtain rfl := Option.some.inj hinsert
              have hpart : part ≠ name := fun hpart =>
                hfront hpart.symm List.nil_prefix
              rw [Node.follow, find_setFile_other hpart]
              exact hold
          | cons next names =>
              obtain ⟨⟨sub, sub', hchange, hafter, hbefore⟩, hothers⟩ :=
                descended_of_descend hinsert
              by_cases hpart : part = name
              · subst hpart
                rw [Node.follow] at hold ⊢
                rcases hbefore with hbefore | ⟨hbefore, _⟩
                · rw [hbefore] at hold
                  rw [hafter]
                  exact ih hchange hold (hfront rfl)
                · rw [hbefore] at hold
                  cases hold
              · rw [Node.follow, hothers part hpart]
                exact hold

end Dir

/-- A front part of a path leads to a file. -/
def Node.Hides (path : List (List UInt8)) (node : Node) : Prop :=
  ∃ front content, front <+: path ∧ front ≠ path ∧
    node.follow front = some (.file content)

theorem hides_insert (hinsert : tree.insert content names = some tree')
    (hhides : (Node.dir tree).Hides path) :
    (Node.dir tree').Hides path := by
  obtain ⟨front, old, hfront, hne, hold⟩ := hhides
  by_cases hnames : names <+: front
  · refine ⟨names, content, hnames.trans hfront, ?_,
      Dir.follow_insert_self hinsert⟩
    rintro rfl
    exact hne (hfront.eq_of_length_le hnames.length_le)
  · exact ⟨front, old, hfront, hne,
      Dir.follow_insert_other hinsert hold hnames⟩

variable {spec : Spec} {specs before after : List Spec} {root : Dir}

theorem plant_cons_eq_some :
    plant (spec :: specs) tree = some root ↔
      ∃ tree', tree.insert spec.content spec.names = some tree' ∧
        plant specs tree' = some root := by
  rw [plant]
  cases tree.insert spec.content spec.names with
  | none => simp
  | some tree' => simp

theorem plant_append_eq_some :
    plant (before ++ after) tree = some root ↔
      ∃ tree', plant before tree = some tree' ∧
        plant after tree' = some root := by
  induction before generalizing tree with
  | nil => simp [plant]
  | cons spec before ih =>
      simp only [List.cons_append, plant_cons_eq_some, ih]
      constructor
      · rintro ⟨first, hfirst, second, hsecond, hrest⟩
        exact ⟨second, ⟨first, hfirst, hsecond⟩, hrest⟩
      · rintro ⟨second, ⟨first, hfirst, hsecond⟩, hrest⟩
        exact ⟨first, hfirst, second, hsecond, hrest⟩

theorem follow_plant (hplant : plant specs tree = some root)
    {old : List UInt8} (hold : (Node.dir tree).follow path = some (.file old))
    (hfront : ∀ spec ∈ specs, ¬ spec.names <+: path) :
    (Node.dir root).follow path = some (.file old) := by
  induction specs generalizing tree with
  | nil =>
      obtain rfl := Option.some.inj hplant
      exact hold
  | cons spec specs ih =>
      obtain ⟨tree', hinsert, hrest⟩ := plant_cons_eq_some.1 hplant
      exact ih hrest (Dir.follow_insert_other hinsert hold
        (hfront spec List.mem_cons_self))
        fun spec hspec => hfront spec (List.mem_cons_of_mem _ hspec)

theorem hides_plant (hplant : plant specs tree = some root)
    (hhides : (Node.dir tree).Hides path) :
    (Node.dir root).Hides path := by
  induction specs generalizing tree with
  | nil =>
      obtain rfl := Option.some.inj hplant
      exact hhides
  | cons spec specs ih =>
      obtain ⟨tree', hinsert, hrest⟩ := plant_cons_eq_some.1 hplant
      exact ih hrest (hides_insert hinsert hhides)

/-- No DEST is, up to case, a directory on the way to an earlier DEST. -/
def Kept (specs : List Spec) : Prop :=
  specs.Pairwise fun earlier later =>
    later.names <+: earlier.names → later.names = earlier.names

/-- The last argument of those whose DEST is the same up to case. -/
def IsLast (specs : List Spec) (spec : Spec) : Prop :=
  ∃ before after, specs = before ++ spec :: after ∧
    ∀ later ∈ after, later.names ≠ spec.names

theorem exists_isLast (hspec : ∃ spec ∈ specs, spec.names = names) :
    ∃ last, IsLast specs last ∧ last.names = names := by
  induction specs with
  | nil => simp at hspec
  | cons first specs ih =>
      by_cases hmore : ∃ spec ∈ specs, spec.names = names
      · obtain ⟨last, ⟨before, after, rfl, hafter⟩, hnames⟩ := ih hmore
        exact ⟨last, ⟨first :: before, after, rfl, hafter⟩, hnames⟩
      · obtain ⟨spec, hmem, hnames⟩ := hspec
        rcases List.mem_cons.1 hmem with rfl | hmem
        · refine ⟨spec, ⟨[], specs, rfl, fun later hlater hsame => ?_⟩, hnames⟩
          exact hmore ⟨later, hlater, hsame.trans hnames⟩
        · exact absurd ⟨spec, hmem, hnames⟩ hmore

/-- Where nothing is replaced, a path leads to its last file. -/
theorem follow_of_isLast (hplant : plant specs tree = some root)
    (hkept : Kept specs) (hlast : IsLast specs spec) :
    (Node.dir root).follow spec.names = some (.file spec.content) := by
  obtain ⟨before, after, rfl, hafter⟩ := hlast
  obtain ⟨tree₁, _, hplant⟩ := plant_append_eq_some.1 hplant
  obtain ⟨tree₂, hinsert, hplant⟩ := plant_cons_eq_some.1 hplant
  refine follow_plant hplant (Dir.follow_insert_self hinsert) ?_
  intro later hlater hfront
  have hpair := (List.pairwise_append.1 hkept).2.1
  exact hafter later hlater
    ((List.pairwise_cons.1 hpair).1 later hlater hfront)

/-- Where something is replaced, some path is hidden. -/
theorem kept_of_not_hides (hplant : plant specs tree = some root)
    (hnone : ∀ spec ∈ specs, ¬ (Node.dir root).Hides spec.names) :
    Kept specs := by
  induction specs generalizing tree with
  | nil => exact List.Pairwise.nil
  | cons first specs ih =>
      obtain ⟨tree₁, _, hplant⟩ := plant_cons_eq_some.1 hplant
      refine List.pairwise_cons.2 ⟨fun later hlater hfront => ?_,
        ih hplant fun spec hspec => hnone spec (List.mem_cons_of_mem _ hspec)⟩
      by_contra hne
      obtain ⟨before, after, rfl⟩ := List.append_of_mem hlater
      obtain ⟨tree₂, _, hplant⟩ := plant_append_eq_some.1 hplant
      obtain ⟨tree₃, hinsert, hplant⟩ := plant_cons_eq_some.1 hplant
      refine hnone first List.mem_cons_self (hides_plant hplant ?_)
      exact ⟨later.names, later.content, hfront, hne,
        Dir.follow_insert_self hinsert⟩

namespace Dir

/-- The names of the items. -/
def keys : Dir → List (List UInt8)
  | nil => []
  | file name _ rest => name :: rest.keys
  | dir name _ rest => name :: rest.keys

/-- No directory has a name twice, and all names are in order. -/
def Proper : Dir → Prop
  | nil => True
  | file name _ rest =>
      name ∉ rest.keys ∧ (∃ short, Named name short) ∧ rest.Proper
  | dir name sub rest =>
      name ∉ rest.keys ∧ (∃ short, Named name short) ∧ sub.Proper ∧
        rest.Proper

theorem find_eq_none_iff : tree.find name = none ↔ name ∉ tree.keys := by
  induction tree with
  | nil => simp [find, keys]
  | file other content rest ih | dir other sub rest _ ih =>
      rw [find, keys, List.mem_cons, not_or, ← ih]
      by_cases hother : other = name
      · simp [hother]
      · simp [hother, Ne.symm hother]

/-- What is found in a well-formed tree is well formed. -/
theorem Proper.of_find {node : Node} (hproper : tree.Proper)
    (hfind : tree.find name = some node) :
    (∃ short, Named name short) ∧
      ∀ sub, node = .dir sub → sub.Proper := by
  induction tree with
  | nil => cases hfind
  | file other content rest ih =>
      obtain ⟨_, hother, hrest⟩ := hproper
      rw [find] at hfind
      split at hfind
      next hsame =>
        subst hsame
        obtain rfl := Option.some.inj hfind
        exact ⟨hother, fun sub hsub => by cases hsub⟩
      next => exact ih hrest hfind
  | dir other inner rest _ ih =>
      obtain ⟨_, hother, hinner, hrest⟩ := hproper
      rw [find] at hfind
      split at hfind
      next hsame =>
        subst hsame
        obtain rfl := Option.some.inj hfind
        refine ⟨hother, fun sub hsub => ?_⟩
        obtain rfl := Node.dir.inj hsub
        exact hinner
      next => exact ih hrest hfind

theorem mem_keys_of_find (hself : tree'.find name ≠ none)
    (hothers : ∀ other, other ≠ name → tree'.find other = tree.find other) :
    other ∈ tree'.keys ↔ other = name ∨ other ∈ tree.keys := by
  rw [← not_iff_not, not_or, ← find_eq_none_iff, ← find_eq_none_iff]
  by_cases hother : other = name
  · simp [hother, hself]
  · simp [hother, hothers other hother]

theorem mem_keys_setFile :
    other ∈ (tree.setFile name content).keys ↔
      other = name ∨ other ∈ tree.keys :=
  mem_keys_of_find (by simp [find_setFile_self]) fun _ => find_setFile_other

theorem Descended.mem_keys (hdescended : Descended name change tree tree') :
    other ∈ tree'.keys ↔ other = name ∨ other ∈ tree.keys := by
  obtain ⟨⟨sub, sub', _, hafter, _⟩, hothers⟩ := hdescended
  exact mem_keys_of_find (by simp [hafter]) hothers

theorem Proper.setFile (hproper : tree.Proper)
    (hname : ∃ short, Named name short) :
    (tree.setFile name content).Proper := by
  induction tree with
  | nil => exact ⟨by simp [keys], hname, trivial⟩
  | file other old rest ih =>
      obtain ⟨hfresh, hother, hrest⟩ := hproper
      rw [Dir.setFile]
      split
      next hsame => exact ⟨hsame ▸ hfresh, hname, hrest⟩
      next hne =>
        refine ⟨?_, hother, ih hrest⟩
        rw [mem_keys_setFile, not_or]
        exact ⟨hne, hfresh⟩
  | dir other sub rest _ ih =>
      obtain ⟨hfresh, hother, hsub, hrest⟩ := hproper
      rw [Dir.setFile]
      split
      next hsame => exact ⟨hsame ▸ hfresh, hname, hrest⟩
      next hne =>
        refine ⟨?_, hother, hsub, ih hrest⟩
        rw [mem_keys_setFile, not_or]
        exact ⟨hne, hfresh⟩

theorem Proper.descend (hproper : tree.Proper)
    (hname : ∃ short, Named name short)
    (hchange : ∀ {sub sub' : Dir}, sub.Proper → change sub = some sub' →
      sub'.Proper)
    (hdescend : tree.descend name change = some tree') : tree'.Proper := by
  induction tree generalizing tree' with
  | nil =>
      obtain ⟨sub', hsub, rfl⟩ := Option.map_eq_some_iff.1 hdescend
      exact ⟨by simp [keys], hname, @hchange nil sub' trivial hsub, trivial⟩
  | file other old rest ih =>
      obtain ⟨hfresh, hother, hrest⟩ := hproper
      rw [Dir.descend] at hdescend
      split at hdescend
      · cases hdescend
      next hne =>
        obtain ⟨rest', hrest', rfl⟩ := Option.map_eq_some_iff.1 hdescend
        refine ⟨?_, hother, ih hrest hrest'⟩
        rw [(descended_of_descend hrest').mem_keys, not_or]
        exact ⟨hne, hfresh⟩
  | dir other sub rest _ ih =>
      obtain ⟨hfresh, hother, hsub, hrest⟩ := hproper
      rw [Dir.descend] at hdescend
      split at hdescend
      · obtain ⟨sub', hsub', rfl⟩ := Option.map_eq_some_iff.1 hdescend
        exact ⟨hfresh, hother, hchange hsub hsub', hrest⟩
      next hne =>
        obtain ⟨rest', hrest', rfl⟩ := Option.map_eq_some_iff.1 hdescend
        refine ⟨?_, hother, hsub, ih hrest hrest'⟩
        rw [(descended_of_descend hrest').mem_keys, not_or]
        exact ⟨hne, hfresh⟩

theorem Proper.insert (hproper : tree.Proper)
    (hnames : ∀ name ∈ names, ∃ short, Named name short)
    (hinsert : tree.insert content names = some tree') : tree'.Proper := by
  induction names generalizing tree tree' with
  | nil => cases hinsert
  | cons name names ih =>
      have hname := hnames name List.mem_cons_self
      cases names with
      | nil =>
          obtain rfl := Option.some.inj hinsert
          exact hproper.setFile hname
      | cons next names =>
          refine hproper.descend hname (fun hsub hsub' => ?_) hinsert
          exact ih hsub (fun name hmem =>
            hnames name (List.mem_cons_of_mem _ hmem)) hsub'

theorem Proper.plant (hproper : tree.Proper)
    (hnames : ∀ spec ∈ specs, ∀ name ∈ spec.names, ∃ short, Named name short)
    (hplant : plant specs tree = some root) : root.Proper := by
  induction specs generalizing tree with
  | nil =>
      obtain rfl := Option.some.inj hplant
      exact hproper
  | cons spec specs ih =>
      obtain ⟨tree', hinsert, hplant⟩ := plant_cons_eq_some.1 hplant
      exact ih (hproper.insert (hnames spec List.mem_cons_self) hinsert)
        (fun spec hspec => hnames spec (List.mem_cons_of_mem _ hspec)) hplant

end Dir

end Mkfat32

end Fat32

end VenomOS
