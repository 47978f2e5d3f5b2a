/-
The names that the image builder and the kernel agree on: ASCII, without
spaces, and accepted by `to_short_name`.
-/
import VenomOS.Fat32List

namespace VenomOS

namespace Fat32

namespace Mkfat32

open ByteMemory (forall_byte)

variable {c : UInt8} {part other name name' short base extension : List UInt8}

theorem upper_upper (c : UInt8) : upper (upper c) = upper c := by
  refine @forall_byte (fun c => upper (upper c) = upper c) ?_ c
  decide +kernel

theorem upper_eq_space_iff : upper c = space ↔ c = space := by
  refine @forall_byte (fun c => upper c = space ↔ c = space) ?_ c
  decide +kernel

theorem upper_eq_slash_iff : upper c = slash ↔ c = slash := by
  refine @forall_byte (fun c => upper c = slash ↔ c = slash) ?_ c
  decide +kernel

theorem upper_eq_zero_iff : upper c = 0 ↔ c = 0 := by
  refine @forall_byte (fun c => upper c = 0 ↔ c = 0) ?_ c
  decide +kernel

theorem upper_lt (hc : c < 128) : upper c < 128 := by
  refine @forall_byte (fun c => c < 128 → upper c < 128) ?_ c hc
  decide +kernel

theorem map_upper_map_upper : (part.map upper).map upper = part.map upper := by
  simp [upper_upper]

theorem map_upper_shown :
    (shown base extension).map upper =
      shown (base.map upper) (extension.map upper) := by
  have hdot : upper dot = dot := upper_eq_dot_iff.2 rfl
  rw [shown, shown, List.map_append]
  by_cases hnone : extension = []
  · simp [hnone]
  · rw [if_neg hnone, if_neg (by simpa using hnone), List.map_cons, hdot]

theorem eq_beforeDot_append : part = beforeDot part ++ fromDot part :=
  (List.takeWhile_append_dropWhile).symm

theorem dot_notMem_beforeDot : dot ∉ beforeDot part := by
  intro hdot
  have hne := List.mem_takeWhile_imp hdot
  simp at hne

theorem toShortName_eq_some (hshort : toShortName part = some short) :
    ∃ base extension, part = shown base extension ∧ base ≠ [] ∧
      base.length ≤ 8 ∧ extension.length ≤ 3 ∧ dot ∉ base ∧
      short = nameField base extension := by
  by_cases hdot : dot ∈ part
  · rw [toShortName_of_mem hdot, Option.ite_none_right_eq_some] at hshort
    obtain ⟨⟨hbase, hlength, hextension, _, hlength'⟩, hshort⟩ := hshort
    refine ⟨beforeDot part, afterDot part, ?_, hbase, hlength, hlength',
      dot_notMem_beforeDot, (Option.some.inj hshort).symm⟩
    rw [shown, if_neg hextension, ← fromDot_eq_cons hdot]
    exact eq_beforeDot_append
  · rw [toShortName_of_notMem hdot, Option.ite_none_right_eq_some] at hshort
    obtain ⟨⟨hpart, hlength⟩, hshort⟩ := hshort
    refine ⟨part, [], ?_, hpart, hlength, by simp, hdot,
      (Option.some.inj hshort).symm⟩
    simp [shown]

theorem toShortName_map_upper :
    toShortName (part.map upper) = toShortName part := by
  have hfield : ∀ base extension : List UInt8,
      nameField (base.map upper) (extension.map upper) =
        nameField base extension := by
    intro base extension
    rw [nameField, nameField, map_upper_map_upper, map_upper_map_upper]
  by_cases hdot : dot ∈ part
  · rw [toShortName_of_mem hdot, toShortName_of_mem (mem_map_upper_dot.2 hdot),
      beforeDot_map_upper, afterDot_map_upper, hfield]
    refine if_congr ?_ rfl rfl
    simp [Extension, mem_map_upper_dot]
  · have hfield' := hfield part []
    rw [List.map_nil] at hfield'
    rw [toShortName_of_notMem hdot,
      toShortName_of_notMem (mt mem_map_upper_dot.1 hdot), hfield']
    simp

/-- Case makes no difference. -/
theorem toShortName_congr (hsame : part.map upper = other.map upper) :
    toShortName part = toShortName other := by
  rw [← toShortName_map_upper, hsame, toShortName_map_upper]

/-- Of a name without spaces the builder makes the same. -/
theorem shortName_of_toShortName (hspace : space ∉ part)
    (hshort : toShortName part = some short) : shortName part = some short := by
  refine shortName_eq_some_iff.2 ?_
  by_cases hdot : dot ∈ part
  · rw [toShortName_of_mem hdot, Option.ite_none_right_eq_some] at hshort
    obtain ⟨⟨hbase, hlength, _, _, hlength'⟩, hshort⟩ := hshort
    exact ⟨⟨hbase, hlength, hlength', hspace⟩, (Option.some.inj hshort).symm⟩
  · have hafter : afterDot part = [] := by
      rw [afterDot, fromDot_eq_nil_iff.2 hdot]
      rfl
    rw [toShortName_of_notMem hdot, Option.ite_none_right_eq_some] at hshort
    obtain ⟨⟨hpart, hlength⟩, hshort⟩ := hshort
    rw [hafter, beforeDot_of_notMem hdot]
    exact ⟨⟨hpart, hlength, by simp, hspace⟩, (Option.some.inj hshort).symm⟩

/-- A part of a DEST that both take. -/
structure Plain (part : List UInt8) : Prop where
  accepted : (toShortName part).isSome = true
  ascii : ∀ c ∈ part, c < 128
  noSpace : space ∉ part

/-- A name in upper case with its 11 bytes. -/
structure Named (name short : List UInt8) : Prop where
  fixed : name.map upper = name
  short_eq : toShortName name = some short
  ascii : ∀ c ∈ name, c < 128
  noSpace : space ∉ name
  noNul : 0 ∉ name

theorem Plain.named (hplain : Plain part) (hnul : 0 ∉ part) :
    ∃ short, Named (part.map upper) short := by
  obtain ⟨short, hshort⟩ := Option.isSome_iff_exists.1 hplain.accepted
  refine ⟨short, map_upper_map_upper, ?_, ?_, ?_, ?_⟩
  · rw [toShortName_map_upper, hshort]
  · intro c hc
    obtain ⟨c, hmem, rfl⟩ := List.mem_map.1 hc
    exact upper_lt (hplain.ascii c hmem)
  · intro hspace
    obtain ⟨c, hmem, hc⟩ := List.mem_map.1 hspace
    exact hplain.noSpace (upper_eq_space_iff.1 hc ▸ hmem)
  · intro hzero
    obtain ⟨c, hmem, hc⟩ := List.mem_map.1 hzero
    exact hnul (upper_eq_zero_iff.1 hc ▸ hmem)

theorem Named.shortName_eq (hnamed : Named name short) :
    shortName name = some short :=
  shortName_of_toShortName hnamed.noSpace hnamed.short_eq

/-- The name is found again in every spelling. -/
theorem Named.toShortName_eq (hnamed : Named name short)
    (hpart : part.map upper = name) : toShortName part = some short := by
  rw [← hnamed.short_eq]
  exact toShortName_congr (hpart.trans hnamed.fixed.symm)

/-- The name's own characters in its two fields. -/
theorem Named.fields (hnamed : Named name short) :
    ∃ base extension, name = shown base extension ∧
      short = padded 8 base ++ padded 3 extension ∧ base ≠ [] ∧
      base.length ≤ 8 ∧ extension.length ≤ 3 ∧ dot ∉ base := by
  obtain ⟨base, extension, hname, hbase, hlength, hlength', hdot, hshort⟩ :=
    toShortName_eq_some hnamed.short_eq
  refine ⟨base.map upper, extension.map upper, ?_, hshort, by simpa,
    by simpa, by simpa, mt mem_map_upper_dot.1 hdot⟩
  rw [← map_upper_shown, ← hname, hnamed.fixed]

theorem Named.notMem_space (hnamed : Named (shown base extension) short) :
    (∀ c ∈ base, c ≠ space) ∧ ∀ c ∈ extension, c ≠ space := by
  have hspace := hnamed.noSpace
  rw [shown, List.mem_append, not_or] at hspace
  refine ⟨fun c hc heq => hspace.1 (heq ▸ hc), fun c hc heq => ?_⟩
  have hnone : extension ≠ [] := List.ne_nil_of_mem hc
  rw [if_neg hnone] at hspace
  exact hspace.2 (List.mem_cons_of_mem _ (heq ▸ hc))

/-- Different names have different bytes. -/
theorem Named.inj (hnamed : Named name short) (hnamed' : Named name' short) :
    name = name' := by
  obtain ⟨base, extension, rfl, hshort, _, hlength, _, _⟩ := hnamed.fields
  obtain ⟨base', extension', rfl, hshort', _, hlength', _, _⟩ :=
    hnamed'.fields
  obtain ⟨hbase, hextension⟩ := List.append_inj (hshort.symm.trans hshort')
    (by rw [padded_length hlength, padded_length hlength'])
  obtain ⟨hspace, hspaces⟩ := hnamed.notMem_space
  obtain ⟨hspace', hspaces'⟩ := hnamed'.notMem_space
  have hbases := congrArg trimmed hbase
  have hextensions := congrArg trimmed hextension
  rw [trimmed_padded hspace, trimmed_padded hspace'] at hbases
  rw [trimmed_padded hspaces, trimmed_padded hspaces'] at hextensions
  rw [hbases, hextensions]

theorem Named.length (hnamed : Named name short) : short.length = 11 := by
  obtain ⟨base, extension, _, rfl, _, hlength, hlength', _⟩ := hnamed.fields
  rw [List.length_append, padded_length hlength, padded_length hlength']

/-- The first byte is no mark, and not that of the links to a directory
itself and to its parent. -/
theorem Named.first (hnamed : Named name short) :
    ∃ c rest, short = c :: rest ∧ c ≠ 0 ∧ c < 128 ∧ c ≠ dot := by
  obtain ⟨base, extension, hname, rfl, hbase, _, _, hdot⟩ := hnamed.fields
  cases base with
  | nil => exact absurd rfl hbase
  | cons c base =>
      have hmem : c ∈ name := by
        rw [hname, shown]
        simp
      refine ⟨c, _, rfl, ?_, hnamed.ascii c hmem, ?_⟩
      · rintro rfl
        exact hnamed.noNul hmem
      · rintro rfl
        exact hdot List.mem_cons_self

end Mkfat32

end Fat32

end VenomOS
