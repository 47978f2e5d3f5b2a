/-
The 8.3 names of the kernel and of tools/mkfat32.py, and how a path is cut into
its parts.
-/
import VenomOS.Fat32

namespace VenomOS

namespace Fat32

open ByteMemory

variable {c : UInt8} {part out base extension name : List UInt8}

/-- What is before the first dot. -/
def beforeDot (part : List UInt8) : List UInt8 :=
  part.takeWhile fun c => c != dot

/-- What is from the first dot on. -/
def fromDot (part : List UInt8) : List UInt8 :=
  part.dropWhile fun c => c != dot

/-- What is after the first dot. -/
def afterDot (part : List UInt8) : List UInt8 := (fromDot part).tail

theorem beforeDot_cons_dot : beforeDot (dot :: part) = [] := by
  simp [beforeDot]

theorem fromDot_cons_dot : fromDot (dot :: part) = dot :: part := by
  simp [fromDot]

theorem beforeDot_cons (hc : c ≠ dot) :
    beforeDot (c :: part) = c :: beforeDot part := by
  simp [beforeDot, hc]

theorem fromDot_cons (hc : c ≠ dot) : fromDot (c :: part) = fromDot part := by
  simp [fromDot, hc]

theorem fromDot_eq_nil_iff : fromDot part = [] ↔ dot ∉ part := by
  simp only [fromDot, List.dropWhile_eq_nil_iff, bne_iff_ne]
  exact ⟨fun hall hdot => hall dot hdot rfl,
    fun hdot c hc hcdot => hdot (hcdot ▸ hc)⟩

theorem beforeDot_of_notMem (hdot : dot ∉ part) : beforeDot part = part := by
  induction part with
  | nil => rfl
  | cons c rest ih =>
      rw [List.mem_cons, not_or] at hdot
      rw [beforeDot_cons (Ne.symm hdot.1), ih hdot.2]

theorem fromDot_eq_cons (hdot : dot ∈ part) :
    fromDot part = dot :: afterDot part := by
  induction part with
  | nil => simp at hdot
  | cons c rest ih =>
      by_cases hc : c = dot
      · rw [hc, afterDot, fromDot_cons_dot, List.tail_cons]
      · have hrest : dot ∈ rest := by simpa [Ne.symm hc] using hdot
        rw [afterDot, fromDot_cons hc]
        exact ih hrest

theorem takeBase_eq (hout : out.length ≤ 8) :
    takeBase out part =
      if out.length + (beforeDot part).length ≤ 8 then
        some (out ++ (beforeDot part).map upper, fromDot part)
      else none := by
  induction part generalizing out with
  | nil => simp [takeBase, beforeDot, fromDot, hout]
  | cons c rest ih =>
      rw [takeBase]
      by_cases hc : c = dot
      · rw [hc, if_pos rfl, beforeDot_cons_dot, fromDot_cons_dot]
        simp [hout]
      · rw [if_neg hc, beforeDot_cons hc, fromDot_cons hc]
        by_cases hfull : out.length ≥ 8
        · rw [if_pos hfull, if_neg]
          rw [List.length_cons]
          omega
        · rw [if_neg hfull, ih (by rw [List.length_append,
            List.length_singleton]; omega)]
          simp [Nat.add_assoc, Nat.add_comm 1]

theorem takeBase_nil :
    takeBase [] part =
      if (beforeDot part).length ≤ 8 then
        some ((beforeDot part).map upper, fromDot part)
      else none := by
  simpa using @takeBase_eq part [] (Nat.zero_le 8)

theorem takeExtension_eq (hout : out.length ≤ 3) :
    takeExtension out extension =
      if dot ∉ extension ∧ out.length + extension.length ≤ 3 then
        some (out ++ extension.map upper)
      else none := by
  induction extension generalizing out with
  | nil => simp [takeExtension, hout]
  | cons c rest ih =>
      rw [takeExtension]
      by_cases hc : c = dot ∨ out.length ≥ 3
      · rw [if_pos hc, if_neg]
        rintro ⟨hdot, hlength⟩
        rw [List.mem_cons, not_or] at hdot
        rw [List.length_cons] at hlength
        rcases hc with hc | hfull
        · exact hdot.1 hc.symm
        · omega
      · rw [if_neg hc]
        rw [not_or] at hc
        rw [ih (by rw [List.length_append, List.length_singleton]; omega)]
        simp [Nat.add_assoc, Nat.add_comm 1, Ne.symm hc.1]

theorem takeExtension_nil :
    takeExtension [] extension =
      if dot ∉ extension ∧ extension.length ≤ 3 then
        some (extension.map upper)
      else none := by
  simpa using @takeExtension_eq [] extension (Nat.zero_le 3)

/-- The 11 bytes of a name. -/
def nameField (base extension : List UInt8) : List UInt8 :=
  padded 8 (base.map upper) ++ padded 3 (extension.map upper)

/-- An extension that the kernel takes. -/
def Extension (extension : List UInt8) : Prop :=
  extension ≠ [] ∧ dot ∉ extension ∧ extension.length ≤ 3

instance : Decidable (Extension extension) :=
  inferInstanceAs (Decidable (_ ∧ _ ∧ _))

theorem toShortName_of_notMem (hdot : dot ∉ part) :
    toShortName part =
      if part ≠ [] ∧ part.length ≤ 8 then some (nameField part []) else none
    := by
  rw [toShortName, takeBase_nil, beforeDot_of_notMem hdot,
    fromDot_eq_nil_iff.2 hdot]
  cases part with
  | nil => rfl
  | cons c rest =>
      by_cases hlength : (c :: rest).length ≤ 8
      · rw [if_pos hlength, if_pos ⟨List.cons_ne_nil c rest, hlength⟩]
        rfl
      · rw [if_neg hlength, if_neg fun hname => hlength hname.2]

theorem toShortName_of_mem (hdot : dot ∈ part) :
    toShortName part =
      if beforeDot part ≠ [] ∧ (beforeDot part).length ≤ 8 ∧
          Extension (afterDot part) then
        some (nameField (beforeDot part) (afterDot part))
      else none := by
  rw [toShortName, takeBase_nil, fromDot_eq_cons hdot]
  cases hbase : beforeDot part with
  | nil => rfl
  | cons c rest =>
      by_cases hlength : (c :: rest).length ≤ 8
      · rw [if_pos hlength]
        cases hafter : afterDot part with
        | nil => rw [if_neg fun hname => hname.2.2.1 rfl]; rfl
        | cons e others =>
            simp only [List.map_cons, takeExtension_nil]
            by_cases hextension : Extension (e :: others)
            · rw [if_pos hextension.2,
                if_pos ⟨List.cons_ne_nil c rest, hlength, hextension⟩]
              rfl
            · rw [if_neg fun hname => hextension ⟨List.cons_ne_nil e others,
                hname⟩, if_neg fun hname => hextension hname.2.2]
              rfl
      · rw [if_neg hlength, if_neg fun hname => hlength hname.2.1]

theorem upper_eq_dot_iff : upper c = dot ↔ c = dot := by
  refine @forall_byte (fun c => upper c = dot ↔ c = dot) ?_ c
  decide +kernel

theorem beforeDot_map_upper :
    beforeDot (part.map upper) = (beforeDot part).map upper := by
  induction part with
  | nil => rfl
  | cons c rest ih =>
      rw [List.map_cons]
      by_cases hc : c = dot
      · rw [hc, upper_eq_dot_iff.2 rfl, beforeDot_cons_dot, beforeDot_cons_dot]
        rfl
      · rw [beforeDot_cons hc, beforeDot_cons (mt upper_eq_dot_iff.1 hc), ih,
          List.map_cons]

theorem afterDot_map_upper :
    afterDot (part.map upper) = (afterDot part).map upper := by
  induction part with
  | nil => rfl
  | cons c rest ih =>
      rw [List.map_cons, afterDot, afterDot]
      by_cases hc : c = dot
      · rw [hc, upper_eq_dot_iff.2 rfl, fromDot_cons_dot, fromDot_cons_dot]
        rfl
      · rw [fromDot_cons hc, fromDot_cons (mt upper_eq_dot_iff.1 hc)]
        exact ih

/-- `short_name` of tools/mkfat32.py, on the codes of ASCII characters. -/
def Mkfat32.shortName (part : List UInt8) : Option (List UInt8) :=
  let name := beforeDot (part.map upper)
  let ext := afterDot (part.map upper)
  if ¬ (1 ≤ name.length ∧ name.length ≤ 8 ∧ ext.length ≤ 3) ∨ space ∈ part then
    none
  else some (padded 8 name ++ padded 3 ext)

theorem Mkfat32.shortName_eq_some_iff :
    shortName part = some name ↔
      (beforeDot part ≠ [] ∧ (beforeDot part).length ≤ 8 ∧
        (afterDot part).length ≤ 3 ∧ space ∉ part) ∧
      name = nameField (beforeDot part) (afterDot part) := by
  rw [shortName, beforeDot_map_upper, afterDot_map_upper, List.length_map,
    List.length_map]
  simp only [Option.ite_none_left_eq_some, Option.some.injEq, not_or, not_not,
    Nat.one_le_iff_ne_zero, Ne, List.length_eq_zero_iff]
  rw [eq_comm (a := name), nameField]
  tauto

/-- Of the names that the builder takes, the kernel takes those without a dot
and those with something but no second dot after the first. -/
theorem toShortName_eq_shortName_iff {part name : List UInt8}
    (haccepted : Mkfat32.shortName part = some name) :
    toShortName part = some name ↔
      dot ∉ part ∨ afterDot part ≠ [] ∧ dot ∉ afterDot part := by
  obtain ⟨⟨hbase, hlength, hextension, _⟩, rfl⟩ :=
    Mkfat32.shortName_eq_some_iff.1 haccepted
  by_cases hdot : dot ∈ part
  · rw [toShortName_of_mem hdot, Option.ite_none_right_eq_some]
    constructor
    · rintro ⟨⟨_, _, hnonempty, hplain, _⟩, _⟩
      exact Or.inr ⟨hnonempty, hplain⟩
    · rintro (hnone | ⟨hnonempty, hplain⟩)
      · exact absurd hdot hnone
      · exact ⟨⟨hbase, hlength, hnonempty, hplain, hextension⟩, rfl⟩
  · have hafter : afterDot part = [] := by
      rw [afterDot, fromDot_eq_nil_iff.2 hdot]
      rfl
    rw [toShortName_of_notMem hdot, hafter, beforeDot_of_notMem hdot,
      Option.ite_none_right_eq_some]
    rw [beforeDot_of_notMem hdot] at hbase hlength
    exact ⟨fun _ => Or.inl hdot, fun _ => ⟨⟨hbase, hlength⟩, rfl⟩⟩

/-- The codes of a name. -/
def codesOf (text : String) : List UInt8 := text.toList.map charCode

theorem toShortName_eq_shortName_notes :
    Mkfat32.shortName (codesOf "notes.txt") =
      some (codesOf "NOTES   TXT") ∧
    toShortName (codesOf "notes.txt") = some (codesOf "NOTES   TXT") :=
  have haccepted : Mkfat32.shortName (codesOf "notes.txt") =
      some (codesOf "NOTES   TXT") := by decide +kernel
  ⟨haccepted, (toShortName_eq_shortName_iff haccepted).2 (by decide +kernel)⟩

theorem toShortName_rejects_dots :
    Mkfat32.shortName (codesOf "A.") = some (codesOf "A          ") ∧
    toShortName (codesOf "A.") = none ∧
    Mkfat32.shortName (codesOf "A.B.C") = some (codesOf "A       B.C") ∧
    toShortName (codesOf "A.B.C") = none := by
  decide +kernel

variable {path rest : List UInt8}

theorem splitSlash_ne_nil : splitSlash path ≠ [] := by
  cases path with
  | nil => simp [splitSlash]
  | cons c rest =>
      rw [splitSlash]
      split
      · simp
      · split <;> simp

theorem splitSlash_append :
    splitSlash (path ++ slash :: rest) = splitSlash path ++ splitSlash rest
    := by
  induction path with
  | nil => simp [splitSlash]
  | cons c path ih =>
      rw [List.cons_append, splitSlash, splitSlash, ih]
      by_cases hc : c = slash
      · rw [if_pos hc, if_pos hc, List.cons_append]
      · rw [if_neg hc, if_neg hc]
        cases hparts : splitSlash path with
        | nil => exact absurd hparts splitSlash_ne_nil
        | cons part parts => rfl

theorem splitSlash_of_notMem (hslash : slash ∉ part) :
    splitSlash part = [part] := by
  induction part with
  | nil => rfl
  | cons c rest ih =>
      rw [List.mem_cons, not_or] at hslash
      rw [splitSlash, if_neg (Ne.symm hslash.1), ih hslash.2]

theorem pathParts_append :
    pathParts (path ++ slash :: rest) = pathParts path ++ pathParts rest := by
  rw [pathParts, splitSlash_append, List.filter_append]
  rfl

/-- A name without a slash is one part. -/
theorem pathParts_of_notMem (hnonempty : part ≠ []) (hslash : slash ∉ part) :
    pathParts part = [part] := by
  rw [pathParts, splitSlash_of_notMem hslash]
  simp [hnonempty]

end Fat32

end VenomOS
