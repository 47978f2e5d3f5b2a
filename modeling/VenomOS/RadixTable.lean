/-
Radix tables.  A table is a frame of slots; a slot is empty, holds a leaf, or
links to the table that the next index selects.  Rights are met on the way
down, so a leaf counts for what it says only where every link above it allows
as much.
-/
import Mathlib

namespace RadixTable

universe u v w

variable {R : Type u} {D : Type v} {L : Type w}

inductive Slot (R : Type u) (D : Type v) where
  | empty
  | leaf (rights : R) (data : D)
  | link (rights : R) (frame : Nat)

abbrev Path := List Nat

/-- What the slots hold, by the path of a table, its frame and the index. -/
abbrev View (R : Type u) (D : Type v) := Path → Nat → Nat → Slot R D

/-- Follow indices down to a leaf and combine the rights met on the way.  The
indices that are left over select a place inside the leaf. -/
def gather (op : R → R → R) (view : View R D) :
    Path → Nat → Path → Option (R × D × Path)
  | _, _, [] => none
  | path, frame, i :: rest =>
      match view path frame i with
      | .empty => none
      | .leaf rights data => some (rights, data, rest)
      | .link rights next =>
          (gather op view (path ++ [i]) next rest).map fun found =>
            (op rights found.1, found.2)

/-- The leaf with the rights it states itself. -/
def find (view : View R D) (frame : Nat) (path : Path) :
    Option (R × D × Path) :=
  gather (fun _ leaf => leaf) view [] frame path

/-- The leaf with the rights that are left of it. -/
def walk [Min R] (view : View R D) (frame : Nat) (path : Path) :
    Option (R × D × Path) :=
  gather (· ⊓ ·) view [] frame path

/-- Rights are never lost on the way to a leaf. -/
def Exact [Min R] (view : View R D) (root : Nat) : Prop :=
  ∀ path, walk view root path = find view root path

variable {op : R → R → R} {view view' : View R D}

theorem gather_cons (op : R → R → R) (view : View R D) (path : Path)
    (frame i : Nat) (rest : Path) :
    gather op view path frame (i :: rest) =
      match view path frame i with
      | .empty => none
      | .leaf rights data => some (rights, data, rest)
      | .link rights next =>
          (gather op view (path ++ [i]) next rest).map fun found =>
            (op rights found.1, found.2) := rfl

theorem gather_last_link {path : Path} {frame i next : Nat} {rights : R}
    (hlink : view path frame i = .link rights next) (rest : Path) :
    gather (fun _ leaf => leaf) view path frame (i :: rest) =
      gather (fun _ leaf => leaf) view (path ++ [i]) next rest := by
  rw [gather_cons, hlink]
  simp

/-- A leaf that takes all indices lies behind a link, unless there is one
index only. -/
theorem link_of_gather_last {path rest : Path} {frame i : Nat} {rights : R}
    {data : D} (hrest : rest ≠ [])
    (hleaf : gather (fun _ leaf => leaf) view path frame (i :: rest) =
      some (rights, data, [])) :
    ∃ above next, view path frame i = .link above next ∧
      gather (fun _ leaf => leaf) view (path ++ [i]) next rest =
        some (rights, data, []) := by
  cases hslot : view path frame i with
  | empty => simp [gather_cons, hslot] at hleaf
  | leaf _ _ => simp [gather_cons, hslot, hrest] at hleaf
  | link above next =>
      rw [gather_last_link hslot] at hleaf
      exact ⟨above, next, rfl, hleaf⟩

/-- Which leaf is found does not depend on the rights. -/
theorem gather_snd (op op' : R → R → R) (view : View R D) (path : Path)
    (frame : Nat) (indices : Path) :
    (gather op view path frame indices).map Prod.snd =
      (gather op' view path frame indices).map Prod.snd := by
  induction indices generalizing path frame with
  | nil => rfl
  | cons i rest ih =>
      rw [gather_cons, gather_cons]
      cases view path frame i with
      | empty => rfl
      | leaf rights data => rfl
      | link rights next =>
          simpa [Option.map_map, Function.comp_def] using ih (path ++ [i]) next

/-- What is met is below what the leaf states. -/
theorem gather_inf_le [SemilatticeInf R] (path : Path) (frame : Nat)
    (indices : Path) {rights rights' : R} {data data' : D × Path}
    (hmet : gather (· ⊓ ·) view path frame indices = some (rights, data))
    (hstated : gather (fun _ leaf => leaf) view path frame indices =
      some (rights', data')) : rights ≤ rights' := by
  induction indices generalizing path frame rights rights' with
  | nil => cases hmet
  | cons i rest ih =>
      rw [gather_cons] at hmet hstated
      cases hslot : view path frame i with
      | empty => simp [hslot] at hmet
      | leaf _ _ =>
          simp only [hslot, Option.some.injEq, Prod.mk.injEq] at hmet hstated
          rw [← hmet.1, ← hstated.1]
      | link above next =>
          simp only [hslot, Option.map_eq_some_iff] at hmet hstated
          obtain ⟨⟨below, place⟩, hbelow, heq⟩ := hmet
          obtain ⟨⟨below', place'⟩, hbelow', heq'⟩ := hstated
          cases heq
          cases heq'
          exact inf_le_right.trans (ih _ _ hbelow hbelow')

/-- The links of a path lead to a table, and each allows what is needed. -/
def Leads [LE R] (view : View R D) (need : R) :
    Path → Nat → Path → Nat → Prop
  | _, frame, [], target => frame = target
  | path, frame, i :: rest, target => ∃ rights next,
      view path frame i = .link rights next ∧ need ≤ rights ∧
        Leads view need (path ++ [i]) next rest target

variable {path front : Path} {frame target : Nat} {tables : Path → Nat → Prop}
  {need : R}

theorem Leads.snoc [LE R] {need rights : R} {frame target next i : Nat}
    (hleads : Leads view need path frame front target)
    (hlink : view (path ++ front) target i = .link rights next)
    (hneed : need ≤ rights) :
    Leads view need path frame (front ++ [i]) next := by
  induction front generalizing path frame with
  | nil =>
      cases hleads
      rw [List.append_nil] at hlink
      exact ⟨rights, next, hlink, hneed, rfl⟩
  | cons j rest ih =>
      obtain ⟨rights', next', hfirst, hle, hrest⟩ := hleads
      refine ⟨rights', next', hfirst, hle, ih hrest ?_⟩
      rwa [List.append_assoc, List.singleton_append]

/-- Links that are seen in another view too lead to the same table. -/
theorem Leads.mono_view [LE R]
    (hleads : Leads view need path frame front target)
    (hlinks : ∀ path frame i rights next,
      view path frame i = .link rights next →
        view' path frame i = .link rights next) :
    Leads view' need path frame front target := by
  induction front generalizing path frame with
  | nil => exact hleads
  | cons i tail ih =>
      obtain ⟨rights, next, hlink, hneed, hrest⟩ := hleads
      exact ⟨rights, next, hlinks path frame i rights next hlink, hneed,
        ih hrest⟩

/-- The last link of a way. -/
theorem Leads.link_of_snoc [LE R] {frame table target i : Nat}
    (hlong : Leads view need path frame (front ++ [i]) target)
    (hshort : Leads view need path frame front table) :
    ∃ rights, view (path ++ front) table i = .link rights target := by
  induction front generalizing path frame with
  | nil =>
      cases hshort
      obtain ⟨rights, next, hlink, _, rfl⟩ := hlong
      rw [List.append_nil]
      exact ⟨rights, hlink⟩
  | cons j rest ih =>
      obtain ⟨_, next, hlink, _, hlong⟩ := hlong
      obtain ⟨_, next', hlink', _, hshort⟩ := hshort
      rw [hlink] at hlink'
      cases hlink'
      have hlast := ih hlong hshort
      rwa [List.append_assoc, List.singleton_append] at hlast

/-- Tables, each at the path it is used for, that no link leaves. -/
def Closed (view : View R D) (tables : Path → Nat → Prop) : Prop :=
  ∀ ⦃path frame i rights next⦄, tables path frame →
    view path frame i = .link rights next → tables (path ++ [i]) next

theorem Closed.leads [LE R] (hclosed : Closed view tables)
    (htable : tables path frame)
    (hleads : Leads view need path frame front target) :
    tables (path ++ front) target := by
  induction front generalizing path frame with
  | nil =>
      cases hleads
      rwa [List.append_nil]
  | cons i tail ih =>
      obtain ⟨rights, next, hlink, _, hrest⟩ := hleads
      have htarget := ih (hclosed htable hlink) hrest
      rwa [List.append_assoc, List.singleton_append] at htarget

/-- What is found below closed tables is read from these tables alone. -/
theorem Closed.gather_same (hclosed : Closed view tables)
    (hsame : ∀ {path frame i}, tables path frame →
      view' path frame i = view path frame i)
    {path : Path} {frame : Nat} (htable : tables path frame) (indices : Path) :
    gather op view' path frame indices = gather op view path frame indices := by
  induction indices generalizing path frame with
  | nil => rfl
  | cons i rest ih =>
      rw [gather_cons, gather_cons, hsame htable]
      cases hslot : view path frame i with
      | empty => rfl
      | leaf rights data => rfl
      | link rights next =>
          have hnext := ih (hclosed htable hslot)
          simp only [hnext]

theorem gather_last_of_leads [LE R]
    (hleads : Leads view need path frame front target) (rest : Path) :
    gather (fun _ leaf => leaf) view path frame (front ++ rest) =
      gather (fun _ leaf => leaf) view (path ++ front) target rest := by
  induction front generalizing path frame with
  | nil =>
      cases hleads
      simp
  | cons i tail ih =>
      obtain ⟨rights, next, hlink, _, hrest⟩ := hleads
      rw [List.cons_append, gather_cons, hlink]
      simp [ih hrest]

/-- Links that allow what a leaf states do not narrow it. -/
theorem gather_inf_of_leads [SemilatticeInf R]
    (hleads : Leads view need path frame front target) {rest : Path}
    (hleaf : ∀ found ∈ gather (· ⊓ ·) view (path ++ front) target rest,
      found.1 ≤ need) :
    gather (· ⊓ ·) view path frame (front ++ rest) =
      gather (· ⊓ ·) view (path ++ front) target rest := by
  induction front generalizing path frame with
  | nil =>
      cases hleads
      simp
  | cons i tail ih =>
      obtain ⟨rights, next, hlink, hneed, hrest⟩ := hleads
      have hpath : path ++ [i] ++ tail = path ++ i :: tail := by simp
      rw [List.cons_append, gather_cons, hlink]
      simp only
      rw [ih hrest (hpath.symm ▸ hleaf), hpath]
      refine Option.ext fun found => ?_
      simp only [Option.map_eq_some_iff]
      constructor
      · rintro ⟨inner, hinner, rfl⟩
        rw [inf_eq_right.mpr ((hleaf inner hinner).trans hneed)]
        exact hinner
      · intro hfound
        refine ⟨found, hfound, ?_⟩
        rw [inf_eq_right.mpr ((hleaf found hfound).trans hneed)]

/-- Names for tables: the path to each of them and the name of the table that
a slot links to.  An anchor is a table that is known by its frame and not by
the slot that links to it, such as a root or a table that trees share. -/
structure Scheme (L : Type w) where
  path : L → Path
  child : L → Nat → L
  anchor : L → Option Nat
  path_child : ∀ l i, path (child l i) = path l ++ [i]
  child_inj : ∀ {l l' i i'}, child l i = child l' i' →
    anchor (child l i) = none → l = l' ∧ i = i'

def Scheme.follow (scheme : Scheme L) (l : L) (indices : Path) : L :=
  indices.foldl scheme.child l

theorem Scheme.path_follow (scheme : Scheme L) (l : L) (indices : Path) :
    scheme.path (scheme.follow l indices) = scheme.path l ++ indices := by
  induction indices generalizing l with
  | nil => simp [follow]
  | cons i rest ih =>
      rw [follow, List.foldl_cons, ← follow, ih, scheme.path_child,
        List.append_assoc, List.singleton_append]

/-- No table at or below this one is an anchor. -/
def Scheme.Private (scheme : Scheme L) (l : L) : Prop :=
  ∀ indices, scheme.anchor (scheme.follow l indices) = none

theorem Scheme.Private.child {scheme : Scheme L} {l : L}
    (hprivate : scheme.Private l) (i : Nat) :
    scheme.Private (scheme.child l i) :=
  fun indices => hprivate (i :: indices)

/-- Every link goes to the table its slot names, every table but an anchor is
linked to, and anchors are where they belong; so a name has one table. -/
structure Labelled (scheme : Scheme L) (view : View R D)
    (label : Nat → Option L) : Prop where
  linked : ∀ {frame l i rights next}, label frame = some l →
    view (scheme.path l) frame i = .link rights next →
      label next = some (scheme.child l i)
  connected : ∀ {next l'}, label next = some l' → scheme.anchor l' = none →
    ∃ frame l i rights, l' = scheme.child l i ∧ label frame = some l ∧
      view (scheme.path l) frame i = .link rights next
  anchored : ∀ {frame l anchor}, label frame = some l →
    scheme.anchor l = some anchor → frame = anchor
  settled : ∀ {frame l i}, label frame = some l →
    view (scheme.path l) frame i = .empty → scheme.Private (scheme.child l i)

variable {scheme : Scheme L} {label : Nat → Option L}

/-- The views differ in one slot of the labelled tables. -/
def AgreeOff (scheme : Scheme L) (label : Nat → Option L)
    (view view' : View R D) (frame i : Nat) : Prop :=
  ∀ ⦃other l j⦄, label other = some l → other ≠ frame ∨ j ≠ i →
    view' (scheme.path l) other j = view (scheme.path l) other j

variable {frame i : Nat} {l : L}

theorem AgreeOff.cases (hagree : AgreeOff scheme label view view' frame i)
    (hframe : label frame = some l) {other : Nat} {l' : L}
    (hother : label other = some l') (j : Nat) :
    (other = frame ∧ j = i ∧ l' = l) ∨ ¬ (other = frame ∧ j = i) ∧
      view' (scheme.path l') other j = view (scheme.path l') other j := by
  by_cases hsame : other = frame ∧ j = i
  · obtain ⟨rfl, rfl⟩ := hsame
    exact .inl ⟨rfl, rfl, Option.some.inj (hother.symm.trans hframe)⟩
  · exact .inr ⟨hsame, hagree hother (not_and_or.mp hsame)⟩

/-- A link may allow more; nothing else changes. -/
def Widened [LE R] (slot slot' : Slot R D) : Prop :=
  slot' = slot ∨ ∃ rights rights' frame, slot = .link rights frame ∧
    slot' = .link rights' frame ∧ rights ≤ rights'

def Widens [LE R] (scheme : Scheme L) (label : Nat → Option L)
    (view view' : View R D) : Prop :=
  ∀ ⦃frame l i⦄, label frame = some l →
    Widened (view (scheme.path l) frame i) (view' (scheme.path l) frame i)

/-- A slot that leads to no leaf: it is empty, or links to an empty table. -/
def Barren (view : View R D) (path : Path) (frame i : Nat) : Prop :=
  view path frame i = .empty ∨ ∃ rights next,
    view path frame i = .link rights next ∧
      ∀ j, view (path ++ [i]) next j = .empty

theorem Barren.gather_eq {path : Path} (hbarren : Barren view path frame i)
    (rest : Path) : gather op view path frame (i :: rest) = none := by
  rw [gather_cons]
  rcases hbarren with hempty | ⟨rights, next, hlink, hempty⟩
  · rw [hempty]
  · rw [hlink]
    cases rest with
    | nil => rfl
    | cons j rest => simp [gather_cons, hempty]

theorem update_none_eq_some {next other : Nat}
    (hother : Function.update label next none other = some l) :
    label other = some l ∧ other ≠ next := by
  by_cases heq : other = next
  · rw [heq, Function.update_self] at hother
    cases hother
  · rw [Function.update_of_ne heq] at hother
    exact ⟨hother, heq⟩

section Labelled

variable (hlabelled : Labelled scheme view label)

include hlabelled

theorem Labelled.label_inj {frame' : Nat} (hframe : label frame = some l)
    (hframe' : label frame' = some l) : frame = frame' := by
  induction hlength : (scheme.path l).length generalizing frame frame' l with
  | zero =>
      cases hanchor : scheme.anchor l with
      | some anchor =>
          rw [hlabelled.anchored hframe hanchor,
            hlabelled.anchored hframe' hanchor]
      | none =>
          obtain ⟨_, l', i, _, rfl, _⟩ := hlabelled.connected hframe hanchor
          rw [scheme.path_child] at hlength
          simp at hlength
  | succ n ih =>
      cases hanchor : scheme.anchor l with
      | some anchor =>
          rw [hlabelled.anchored hframe hanchor,
            hlabelled.anchored hframe' hanchor]
      | none =>
          obtain ⟨above, l₁, i, _, rfl, habove, hlink⟩ :=
            hlabelled.connected hframe hanchor
          obtain ⟨above', l₂, i', _, hchild, habove', hlink'⟩ :=
            hlabelled.connected hframe' hanchor
          obtain ⟨rfl, rfl⟩ := scheme.child_inj hchild hanchor
          rw [scheme.path_child, List.length_append] at hlength
          have hsame := ih habove habove' (by simpa using hlength)
          rw [← hsame, hlink] at hlink'
          cases hlink'
          rfl

theorem Labelled.label_leads [LE R] {need : R} {front : Path} {target : Nat}
    (hframe : label frame = some l)
    (hleads : Leads view need (scheme.path l) frame front target) :
    label target = some (scheme.follow l front) := by
  induction front generalizing frame l with
  | nil =>
      cases hleads
      exact hframe
  | cons i rest ih =>
      obtain ⟨rights, next, hlink, _, hrest⟩ := hleads
      rw [← scheme.path_child] at hrest
      exact ih (hlabelled.linked hframe hlink) hrest

theorem Labelled.leads_mono [Preorder R]
    (hlinks : ∀ {frame l i rights next}, label frame = some l →
      view (scheme.path l) frame i = .link rights next →
        ∃ rights', view' (scheme.path l) frame i = .link rights' next ∧
          rights ≤ rights')
    {need : R} {front : Path} {target : Nat} (hframe : label frame = some l)
    (hleads : Leads view need (scheme.path l) frame front target) :
    Leads view' need (scheme.path l) frame front target := by
  induction front generalizing frame l with
  | nil => exact hleads
  | cons i rest ih =>
      obtain ⟨rights, next, hlink, hneed, hrest⟩ := hleads
      obtain ⟨rights', hlink', hle⟩ := hlinks hframe hlink
      rw [← scheme.path_child] at hrest
      refine ⟨rights', next, hlink', hneed.trans hle, ?_⟩
      rw [← scheme.path_child]
      exact ih (hlabelled.linked hframe hlink) hrest

theorem Labelled.gather_last_widens [LE R]
    (hwidens : Widens scheme label view view')
    (hframe : label frame = some l) (indices : Path) :
    gather (fun _ leaf => leaf) view' (scheme.path l) frame indices =
      gather (fun _ leaf => leaf) view (scheme.path l) frame indices := by
  induction indices generalizing frame l with
  | nil => rfl
  | cons i rest ih =>
      have hbelow : ∀ {rights next},
          view (scheme.path l) frame i = .link rights next →
          gather (fun _ leaf => leaf) view' (scheme.path l ++ [i]) next rest =
            gather (fun _ leaf => leaf) view (scheme.path l ++ [i]) next
              rest := by
        intro rights next hlink
        have hnext := ih (hlabelled.linked hframe hlink)
        rwa [scheme.path_child] at hnext
      rw [gather_cons, gather_cons]
      rcases hwidens hframe (i := i) with
        hsame | ⟨rights, rights', next, hslot, hslot', _⟩
      · rw [hsame]
        cases hslot : view (scheme.path l) frame i with
        | empty => rfl
        | leaf rights data => rfl
        | link rights next => simp only [hbelow hslot]
      · rw [hslot', hslot]
        simp only [hbelow hslot]

section Lattice

variable [SemilatticeInf R]

theorem Labelled.gather_inf_widens
    (hwidens : Widens scheme label view view')
    (hframe : label frame = some l) {indices : Path} {rights : R}
    {data : D × Path}
    (hmet : gather (· ⊓ ·) view (scheme.path l) frame indices =
      some (rights, data)) :
    ∃ rights', gather (· ⊓ ·) view' (scheme.path l) frame indices =
      some (rights', data) ∧ rights ≤ rights' := by
  induction indices generalizing frame l rights with
  | nil => cases hmet
  | cons i rest ih =>
      rw [gather_cons] at hmet ⊢
      have hlink : ∀ above above' next,
          view (scheme.path l) frame i = .link above next →
          (gather (· ⊓ ·) view (scheme.path l ++ [i]) next rest).map
            (fun found => (above ⊓ found.1, found.2)) =
              some (rights, data) → above ≤ above' →
          ∃ rights', (gather (· ⊓ ·) view' (scheme.path l ++ [i]) next
            rest).map (fun found => (above' ⊓ found.1, found.2)) =
              some (rights', data) ∧ rights ≤ rights' := by
        intro above above' next hslot hmap hle
        obtain ⟨⟨below, place⟩, hbelow, heq⟩ :=
          Option.map_eq_some_iff.mp hmap
        cases heq
        rw [← scheme.path_child] at hbelow ⊢
        obtain ⟨below', hbelow', hle'⟩ :=
          ih (hlabelled.linked hframe hslot) hbelow
        refine ⟨above' ⊓ below', ?_, inf_le_inf hle hle'⟩
        simp [hbelow']
      rcases hwidens hframe (i := i) with
        hsame | ⟨above, above', next, hslot, hslot', hle⟩
      · rw [hsame]
        cases hslot : view (scheme.path l) frame i with
        | empty => simp [hslot] at hmet
        | leaf r d =>
            rw [hslot] at hmet
            exact ⟨rights, hmet, le_rfl⟩
        | link above next =>
            rw [hslot] at hmet
            exact hlink above above next hslot hmet le_rfl
      · rw [hslot] at hmet
        rw [hslot']
        exact hlink above above' next hslot hmet hle

theorem Labelled.exact_widens
    (hwidens : Widens scheme label view view') {root : Nat}
    (hroot : label root = some l) (hpath : scheme.path l = [])
    (hexact : Exact view root) : Exact view' root := by
  intro path
  have hfind := hlabelled.gather_last_widens hwidens hroot path
  have hsnd := gather_snd (· ⊓ ·) (fun _ leaf : R => leaf) view' [] root path
  rw [hpath] at hfind
  change find view' root path = find view root path at hfind
  change (walk view' root path).map Prod.snd =
    (find view' root path).map Prod.snd at hsnd
  cases hstated : find view root path with
  | none =>
      rw [hfind, hstated] at hsnd ⊢
      simpa using hsnd
  | some found =>
      obtain ⟨rights, data⟩ := found
      have hmet : walk view root path = some (rights, data) :=
        (hexact path).trans hstated
      rw [walk, ← hpath] at hmet
      obtain ⟨rights', hmet', hle⟩ := hlabelled.gather_inf_widens hwidens
        hroot hmet
      rw [hpath] at hmet'
      have hstated' := hfind.trans hstated
      have hge := gather_inf_le [] root path hmet' hstated'
      rw [hstated', le_antisymm hle hge]
      exact hmet'

end Lattice

theorem Labelled.gather_same
    (hsame : ∀ {other l j}, label other = some l →
      view' (scheme.path l) other j = view (scheme.path l) other j)
    {start : Nat} (hstart : label start = some l) (indices : Path) :
    gather op view' (scheme.path l) start indices =
      gather op view (scheme.path l) start indices := by
  have hclosed : Closed view fun path frame =>
      ∃ l, label frame = some l ∧ scheme.path l = path := by
    rintro _ frame i rights next ⟨l, hlabel, rfl⟩ hlink
    exact ⟨_, hlabelled.linked hlabel hlink, scheme.path_child l i⟩
  refine hclosed.gather_same ?_ ⟨l, hstart, rfl⟩ indices
  rintro _ frame i ⟨l, hlabel, rfl⟩
  exact hsame hlabel

theorem Labelled.widens [LE R] (hwidens : Widens scheme label view view') :
    Labelled scheme view' label where
  linked := by
    intro frame l i rights next hframe hlink
    rcases hwidens hframe (i := i) with
      hsame | ⟨_, _, next', hslot, hslot', _⟩
    · exact hlabelled.linked hframe (hsame ▸ hlink)
    · rw [hlink] at hslot'
      cases hslot'
      exact hlabelled.linked hframe hslot
  connected := by
    intro next l' hnext hanchor
    obtain ⟨frame, l, i, rights, hchild, hframe, hlink⟩ :=
      hlabelled.connected hnext hanchor
    rcases hwidens hframe (i := i) with
      hsame | ⟨_, rights', next', hslot, hslot', _⟩
    · exact ⟨frame, l, i, rights, hchild, hframe, hsame.trans hlink⟩
    · rw [hlink] at hslot
      cases hslot
      exact ⟨frame, l, i, rights', hchild, hframe, hslot'⟩
  anchored := hlabelled.anchored
  settled := by
    intro frame l i hframe hempty
    rcases hwidens hframe (i := i) with
      hsame | ⟨_, _, _, _, hslot', _⟩
    · exact hlabelled.settled hframe (hsame ▸ hempty)
    · rw [hempty] at hslot'
      cases hslot'

section Store

variable {rights : R} {next : Nat} (hframe : label frame = some l)
  (hagree : AgreeOff scheme label view view' frame i)

include hframe hagree

/-- A way does not depend on the slots of the table it leads to, nor on
those further down. -/
theorem Labelled.leads_agreeOff [LE R] {need : R} {start target : Nat}
    {l' : L} {front : Path} (hstart : label start = some l')
    (hshort : (scheme.path l').length + front.length ≤
      (scheme.path l).length)
    (hleads : Leads view need (scheme.path l') start front target) :
    Leads view' need (scheme.path l') start front target := by
  induction front generalizing start l' with
  | nil => exact hleads
  | cons j rest ih =>
      obtain ⟨rights, next, hlink, hneed, hrest⟩ := hleads
      rw [List.length_cons] at hshort
      have hne : start ≠ frame := by
        rintro rfl
        rw [hframe] at hstart
        cases hstart
        omega
      rw [← scheme.path_child] at hrest
      refine ⟨rights, next, (hagree hstart (.inl hne)).trans hlink, hneed, ?_⟩
      rw [← scheme.path_child]
      refine ih (hlabelled.linked hstart hlink) ?_ hrest
      rw [scheme.path_child, List.length_append, List.length_singleton]
      omega

/-- A change of one slot matters only to the paths through it, and not to
these either if the slot leads to the same leaves. -/
theorem Labelled.gather_congr {start : Nat} {l' : L} {indices : Path}
    (hstart : label start = some l')
    (hslot : ∀ front rest, indices = front ++ i :: rest →
      scheme.follow l' front = l →
      gather op view' (scheme.path l) frame (i :: rest) =
        gather op view (scheme.path l) frame (i :: rest)) :
    gather op view' (scheme.path l') start indices =
      gather op view (scheme.path l') start indices := by
  induction indices generalizing start l' with
  | nil => rfl
  | cons j rest ih =>
      rcases hagree.cases hframe hstart j with ⟨rfl, rfl, rfl⟩ | ⟨_, hview⟩
      · exact hslot [] rest rfl rfl
      · rw [gather_cons, gather_cons, hview]
        cases hnext : view (scheme.path l') start j with
        | empty => rfl
        | leaf rights data => rfl
        | link rights next =>
            have hrest := ih (hlabelled.linked hstart hnext)
              fun front tail htail hfollow => hslot (j :: front) tail
                (by rw [htail, List.cons_append]) hfollow
            rw [scheme.path_child] at hrest
            simp only [hrest]

/-- A slot that holds no link gets a table without links. -/
theorem Labelled.create (hfresh : label next = none)
    (hslot : ∀ rights next, view (scheme.path l) frame i ≠ .link rights next)
    (hprivate : scheme.Private (scheme.child l i))
    (hslot' : view' (scheme.path l) frame i = .link rights next)
    (hnew : ∀ j rights next',
      view' (scheme.path l ++ [i]) next j ≠ .link rights next') :
    Labelled scheme view'
      (Function.update label next (some (scheme.child l i))) := by
  have hold : ∀ {other l'}, label other = some l' →
      Function.update label next (some (scheme.child l i)) other =
        some l' := by
    intro other l' hother
    rw [Function.update_of_ne _ _ _, hother]
    rintro rfl
    rw [hfresh] at hother
    cases hother
  refine ⟨?_, ?_, ?_, ?_⟩
  · intro other l' j rights' target hother hlink
    by_cases hisNew : other = next
    · rw [hisNew, Function.update_self] at hother
      cases hother
      rw [hisNew, scheme.path_child] at hlink
      exact absurd hlink (hnew j rights' target)
    · rw [Function.update_of_ne hisNew] at hother
      rcases hagree.cases hframe hother j with ⟨rfl, rfl, rfl⟩ | ⟨_, hview⟩
      · rw [hslot'] at hlink
        cases hlink
        exact Function.update_self ..
      · exact hold (hlabelled.linked hother (hview ▸ hlink))
  · intro target l' htarget hnone
    by_cases hisNew : target = next
    · rw [hisNew, Function.update_self] at htarget
      cases htarget
      exact ⟨frame, l, i, rights, rfl, hold hframe, hisNew ▸ hslot'⟩
    · rw [Function.update_of_ne hisNew] at htarget
      obtain ⟨other, l₁, j, rights', hchild, hother, hlink⟩ :=
        hlabelled.connected htarget hnone
      rcases hagree.cases hframe hother j with ⟨rfl, rfl, rfl⟩ | ⟨_, hview⟩
      · exact absurd hlink (hslot rights' target)
      · exact ⟨other, l₁, j, rights', hchild, hold hother, hview.trans hlink⟩
  · intro other l' anchor hother hsome
    by_cases hisNew : other = next
    · rw [hisNew, Function.update_self] at hother
      cases hother
      have hnone : scheme.anchor (scheme.child l i) = none := hprivate []
      rw [hnone] at hsome
      cases hsome
    · rw [Function.update_of_ne hisNew] at hother
      exact hlabelled.anchored hother hsome
  · intro other l' j hother hnone
    by_cases hisNew : other = next
    · rw [hisNew, Function.update_self] at hother
      cases hother
      exact hprivate.child j
    · rw [Function.update_of_ne hisNew] at hother
      rcases hagree.cases hframe hother j with ⟨rfl, rfl, rfl⟩ | ⟨_, hview⟩
      · exact hprivate
      · exact hlabelled.settled hother (hview ▸ hnone)

/-- A slot that holds no link before and after. -/
theorem Labelled.setLeaf
    (hslot : ∀ rights next, view (scheme.path l) frame i ≠ .link rights next)
    (hslot' : ∀ rights next,
      view' (scheme.path l) frame i ≠ .link rights next)
    (hprivate : scheme.Private (scheme.child l i)) :
    Labelled scheme view' label where
  linked := by
    intro other l' j rights next hother hlink
    rcases hagree.cases hframe hother j with ⟨rfl, rfl, rfl⟩ | ⟨_, hview⟩
    · exact absurd hlink (hslot' rights next)
    · exact hlabelled.linked hother (hview ▸ hlink)
  connected := by
    intro next l' hnext hnone
    obtain ⟨other, l₁, j, rights, hchild, hother, hlink⟩ :=
      hlabelled.connected hnext hnone
    rcases hagree.cases hframe hother j with ⟨rfl, rfl, rfl⟩ | ⟨_, hview⟩
    · exact absurd hlink (hslot rights next)
    · exact ⟨other, l₁, j, rights, hchild, hother, hview.trans hlink⟩
  anchored := hlabelled.anchored
  settled := by
    intro other l' j hother hempty
    rcases hagree.cases hframe hother j with ⟨rfl, rfl, rfl⟩ | ⟨_, hview⟩
    · exact hprivate
    · exact hlabelled.settled hother (hview ▸ hempty)

/-- A slot gives up a table that has become empty. -/
theorem Labelled.drop
    (hslot : view (scheme.path l) frame i = .link rights next)
    (hslot' : view' (scheme.path l) frame i = .empty)
    (hempty : ∀ j, view (scheme.path l ++ [i]) next j = .empty)
    (hanchor : scheme.anchor (scheme.child l i) = none) :
    Labelled scheme view' (Function.update label next none) := by
  have hnext := hlabelled.linked hframe hslot
  refine ⟨?_, ?_, fun hother hsome =>
    hlabelled.anchored (update_none_eq_some hother).1 hsome, ?_⟩
  · intro other l' j rights' target hafter hlink
    have hother := (update_none_eq_some hafter).1
    rcases hagree.cases hframe hother j with ⟨rfl, rfl, rfl⟩ | ⟨hoff, hview⟩
    · rw [hslot'] at hlink
      cases hlink
    · rw [hview] at hlink
      have htarget := hlabelled.linked hother hlink
      rw [Function.update_of_ne _ _ _, htarget]
      rintro rfl
      rw [hnext] at htarget
      obtain ⟨rfl, rfl⟩ := scheme.child_inj (Option.some.inj htarget)
        hanchor
      exact hoff ⟨hlabelled.label_inj hother hframe, rfl⟩
  · intro target l' htarget hnone
    obtain ⟨htarget, hne⟩ := update_none_eq_some htarget
    obtain ⟨other, l₁, j, rights', hchild, hother, hlink⟩ :=
      hlabelled.connected htarget hnone
    have hnotNext : other ≠ next := by
      rintro rfl
      rw [hnext] at hother
      cases hother
      rw [scheme.path_child, hempty] at hlink
      cases hlink
    rcases hagree.cases hframe hother j with ⟨rfl, rfl, rfl⟩ | ⟨_, hview⟩
    · rw [hslot] at hlink
      cases hlink
      exact absurd rfl hne
    · refine ⟨other, l₁, j, rights', hchild, ?_, hview.trans hlink⟩
      rw [Function.update_of_ne hnotNext, hother]
  · intro other l' j hafter hnone
    have hother := (update_none_eq_some hafter).1
    rcases hagree.cases hframe hother j with ⟨rfl, rfl, rfl⟩ | ⟨_, hview⟩
    · rintro (_ | ⟨k, rest⟩)
      · exact hanchor
      · refine hlabelled.settled hnext ?_ rest
        rw [scheme.path_child, hempty k]
    · exact hlabelled.settled hother (hview ▸ hnone)

theorem Labelled.gather_barren (hslot : Barren view (scheme.path l) frame i)
    (hslot' : Barren view' (scheme.path l) frame i)
    {start : Nat} {l' : L} (hstart : label start = some l') (indices : Path) :
    gather op view' (scheme.path l') start indices =
      gather op view (scheme.path l') start indices :=
  hlabelled.gather_congr hframe hagree hstart fun _ rest _ _ =>
    (hslot'.gather_eq rest).trans (hslot.gather_eq rest).symm

end Store

section Plant

variable {root table : Nat} {l₀ l₁ : L} {rights : R}

/-- A new tree: a root whose slot `i` links to a table, the other slots empty.
The table may link to tables that are there already. -/
theorem Labelled.plant (hroot : label root = none) (htable : label table = none)
    (hne : root ≠ table) (hchild : l₁ = scheme.child l₀ i)
    (hanchor : scheme.anchor l₀ = some root)
    (hanchor₁ : scheme.anchor l₁ = none)
    (hsame : ∀ {other l j}, label other = some l →
      view' (scheme.path l) other j = view (scheme.path l) other j)
    (hlink : view' (scheme.path l₀) root i = .link rights table)
    (hrest : ∀ j ≠ i, view' (scheme.path l₀) root j = .empty ∧
      scheme.Private (scheme.child l₀ j))
    (hslots : ∀ j, (view' (scheme.path l₁) table j = .empty ∧
        scheme.Private (scheme.child l₁ j)) ∨
      ∃ rights next, view' (scheme.path l₁) table j = .link rights next ∧
        label next = some (scheme.child l₁ j)) :
    Labelled scheme view' (Function.update
      (Function.update label root (some l₀)) table (some l₁)) := by
  have hold : ∀ {other l}, label other = some l → Function.update
      (Function.update label root (some l₀)) table (some l₁) other =
        some l := by
    intro other l hother
    have hneRoot : other ≠ root := by
      rintro rfl
      rw [hroot] at hother
      cases hother
    have hneTable : other ≠ table := by
      rintro rfl
      rw [htable] at hother
      cases hother
    rw [Function.update_of_ne hneTable, Function.update_of_ne hneRoot, hother]
  have hnewRoot : Function.update (Function.update label root (some l₀)) table
      (some l₁) root = some l₀ := by
    rw [Function.update_of_ne hne, Function.update_self]
  have hcases : ∀ {other l}, Function.update
      (Function.update label root (some l₀)) table (some l₁) other = some l →
        label other = some l ∨ (other = root ∧ l = l₀) ∨
          (other = table ∧ l = l₁) := by
    intro other l hother
    by_cases hisTable : other = table
    · rw [hisTable, Function.update_self] at hother
      cases hother
      exact .inr (.inr ⟨hisTable, rfl⟩)
    · rw [Function.update_of_ne hisTable] at hother
      by_cases hisRoot : other = root
      · rw [hisRoot, Function.update_self] at hother
        cases hother
        exact .inr (.inl ⟨hisRoot, rfl⟩)
      · rw [Function.update_of_ne hisRoot] at hother
        exact .inl hother
  refine ⟨?_, ?_, ?_, ?_⟩
  · intro other l j rights' next hother hnext
    rcases hcases hother with hother | ⟨rfl, rfl⟩ | ⟨rfl, rfl⟩
    · rw [hsame hother] at hnext
      exact hold (hlabelled.linked hother hnext)
    · by_cases hj : j = i
      · subst hj
        rw [hlink] at hnext
        cases hnext
        rw [Function.update_self, hchild]
      · rw [(hrest j hj).1] at hnext
        cases hnext
    · rcases hslots j with ⟨hempty, _⟩ | ⟨rights₁, next₁, hslot, hlabel⟩
      · rw [hempty] at hnext
        cases hnext
      · rw [hslot] at hnext
        cases hnext
        exact hold hlabel
  · intro next l' hnext hnone
    rcases hcases hnext with hnext | ⟨rfl, rfl⟩ | ⟨rfl, rfl⟩
    · obtain ⟨other, l, j, rights', hl', hother, hslot⟩ :=
        hlabelled.connected hnext hnone
      exact ⟨other, l, j, rights', hl', hold hother,
        (hsame hother).trans hslot⟩
    · rw [hanchor] at hnone
      cases hnone
    · exact ⟨root, l₀, i, rights, hchild, hnewRoot, hlink⟩
  · intro other l anchor hother hsome
    rcases hcases hother with hother | ⟨rfl, rfl⟩ | ⟨rfl, rfl⟩
    · exact hlabelled.anchored hother hsome
    · rw [hanchor] at hsome
      exact Option.some.inj hsome
    · rw [hanchor₁] at hsome
      cases hsome
  · intro other l j hother hempty
    rcases hcases hother with hother | ⟨rfl, rfl⟩ | ⟨rfl, rfl⟩
    · exact hlabelled.settled hother ((hsame hother).symm.trans hempty)
    · by_cases hj : j = i
      · subst hj
        rw [hlink] at hempty
        cases hempty
      · exact (hrest j hj).2
    · rcases hslots j with ⟨_, hprivate⟩ | ⟨_, _, hslot, _⟩
      · exact hprivate
      · rw [hslot] at hempty
        cases hempty

end Plant

end Labelled

end RadixTable
