/-
build_initial_stack of kernel/process.cpp.  Two cursors fill the window: words
go up from the stack pointer, strings go up from a base above all the words.
-/
import VenomOS.Elf

namespace VenomOS

namespace Process

open ByteMemory Paging Elf

def stackGuardVirt : Nat := 0x7FFFE000

def stackVirt : Nat := 0x7FFFF000

def stackSize : Nat := 4 * 4096

def maxArgs : Int := 16

def maxEnvs : Int := 8

def maxArgBytes : Nat := 2048

/-- The bytes of a string in front of its terminator. -/
structure CString where
  bytes : List UInt8
  terminated : 0 ∉ bytes

/-- The string with its terminator. -/
def CString.stored (string : CString) : List UInt8 := string.bytes ++ [0]

/-- A pointer to an array of pointers to strings. -/
abbrev PointerArray := Option (Nat → Option CString)

/-- The string that entry `i` points to. -/
def entryOf (array : PointerArray) (i : Nat) : Option CString :=
  array.bind fun entries => entries i

/-- The first loops: the bytes of `left` strings from entry `i` on are added
to `total`. -/
def countStrings (array : PointerArray) : Nat → Nat → Nat → Option Nat
  | 0, _, total => some total
  | left + 1, i, total =>
      match entryOf array i with
      | none => none
      | some string =>
          let total := total + (string.bytes.length + 1)
          if total > maxArgBytes then none
          else countStrings array left (i + 1) total

/-- The window and the two cursors. -/
structure Layout where
  window : Memory
  strCursor : Nat
  wordCursor : Nat

def putWord (layout : Layout) (value : Nat) : Layout :=
  { layout with
    window :=
      store layout.window (layout.wordCursor - stackVirt) (leBytes 8 value)
    wordCursor := layout.wordCursor + 8 }

/-- Besides the layout, where the string starts. -/
def putString (layout : Layout) (string : CString) : Layout × Nat :=
  ({ layout with
      window :=
        store layout.window (layout.strCursor - stackVirt) string.stored
      strCursor := layout.strCursor + string.stored.length },
    layout.strCursor)

/-- The loops that store the strings and their addresses. -/
def putStrings (array : PointerArray) : Nat → Nat → Layout → Layout
  | 0, _, layout => layout
  | left + 1, i, layout =>
      match entryOf array i with
      | none => layout
      | some string =>
          let (layout, at_) := putString layout string
          putStrings array left (i + 1) (putWord layout at_)

def fillStack (window : Memory) (argc envc : Nat) (argv envp : PointerArray)
    (stringsBase sp : Nat) : Memory :=
  let top := stackVirt + stackSize
  let window := store window (sp - stackVirt) (List.replicate (top - sp) 0)
  let layout : Layout := ⟨window, stringsBase, sp⟩
  let layout := putWord layout argc
  let layout := putStrings argv argc 0 layout
  let layout := putWord layout 0
  let layout := putStrings envp envc 0 layout
  let layout := putWord layout 0
  let layout := putWord layout 0
  let layout := putWord layout 0
  layout.window

/-- The window and the stack pointer; without them the window stays as it
is. -/
def buildInitialStack (window : Memory) (windowSize : Nat) (argc : Int)
    (argv : PointerArray) (envc : Int) (envp : PointerArray) : Option (Memory × Nat) :=
  if argc < 0 ∨ envc < 0 ∨ argc > maxArgs ∨ envc > maxEnvs then none
  else if windowSize ≠ stackSize then none
  else if (argc > 0 ∧ argv.isNone) ∨ (envc > 0 ∧ envp.isNone) then none
  else
    let top := stackVirt + stackSize
    match countStrings argv argc.toNat 0 0 with
    | none => none
    | some argBytes =>
        match countStrings envp envc.toNat 0 argBytes with
        | none => none
        | some stringBytes =>
            let words := 1 + argc.toNat + 1 + envc.toNat + 1 + 2
            let pointerBytes := words * 8
            if stringBytes + pointerBytes + 16 > maxArgBytes then none
            else
              let stringsBase := top - stringBytes
              let sp := (stringsBase - pointerBytes) &&& not64 15
              some (fillStack window argc.toNat envc.toNat argv envp
                stringsBase sp, sp)

/-- A count and an array that stand for these strings, with no null pointer in
use. -/
structure Points (array : PointerArray) (count : Int)
    (strings : List CString) : Prop where
  length : (strings.length : Int) = count
  entry : ∀ i (hi : i < strings.length), entryOf array i = some strings[i]

def storedBytes (strings : List CString) : List UInt8 :=
  strings.flatMap CString.stored

def stringBytes (strings : List CString) : Nat := (storedBytes strings).length

@[simp]
theorem stored_length (string : CString) :
    string.stored.length = string.bytes.length + 1 := by
  simp [CString.stored]

@[simp]
theorem storedBytes_cons (string : CString) (strings : List CString) :
    storedBytes (string :: strings) = string.stored ++ storedBytes strings :=
  List.flatMap_cons

theorem storedBytes_append (first second : List CString) :
    storedBytes (first ++ second) = storedBytes first ++ storedBytes second :=
  List.flatMap_append

@[simp]
theorem stringBytes_cons (string : CString) (strings : List CString) :
    stringBytes (string :: strings) =
      string.bytes.length + 1 + stringBytes strings := by
  simp [stringBytes]

theorem stringBytes_append (first second : List CString) :
    stringBytes (first ++ second) = stringBytes first + stringBytes second := by
  simp [stringBytes, storedBytes_append]

variable {array : PointerArray} {strings : List CString} {left i total : Nat}

/-- The entries from `i` on point to these strings. -/
def PointsFrom (array : PointerArray) (i : Nat) (strings : List CString) :
    Prop :=
  ∀ k (hk : k < strings.length), entryOf array (i + k) = some strings[k]

theorem PointsFrom.head {string : CString}
    (hpoints : PointsFrom array i (string :: strings)) :
    entryOf array i = some string :=
  hpoints 0 (Nat.succ_pos _)

theorem PointsFrom.tail {string : CString}
    (hpoints : PointsFrom array i (string :: strings)) :
    PointsFrom array (i + 1) strings := fun k hk => by
  have hentry := hpoints (k + 1) (Nat.succ_lt_succ hk)
  rw [Nat.add_assoc, Nat.add_comm 1 k]
  exact hentry

theorem pointsFrom_cons {string : CString}
    (hhead : entryOf array i = some string)
    (htail : PointsFrom array (i + 1) strings) :
    PointsFrom array i (string :: strings) := by
  intro k hk
  cases k with
  | zero => exact hhead
  | succ k =>
      have hentry := htail k (Nat.lt_of_succ_lt_succ hk)
      rw [Nat.add_assoc, Nat.add_comm 1 k] at hentry
      exact hentry

/-- The count succeeds for strings that are all there and not too long. -/
theorem countStrings_eq_some {result : Nat} (htotal : total ≤ maxArgBytes) :
    countStrings array left i total = some result ↔ ∃ strings,
      strings.length = left ∧ PointsFrom array i strings ∧
      result = total + stringBytes strings ∧ result ≤ maxArgBytes := by
  induction left generalizing i total with
  | zero =>
      rw [countStrings, Option.some.injEq]
      refine ⟨fun hresult => ⟨[], rfl, by simp [PointsFrom], hresult.symm,
        hresult ▸ htotal⟩,
        ?_⟩
      rintro ⟨strings, hlength, _, hresult, _⟩
      rw [List.length_eq_zero_iff.mp hlength] at hresult
      exact hresult.symm
  | succ left ih =>
      rw [countStrings]
      cases hentry : entryOf array i with
      | none =>
          refine iff_of_false (by simp) ?_
          rintro ⟨strings, hlength, hpoints, _⟩
          obtain ⟨string, rest, rfl⟩ :=
            List.exists_cons_of_length_eq_add_one hlength
          rw [hpoints.head] at hentry
          cases hentry
      | some string =>
          dsimp only
          by_cases hlong : total + (string.bytes.length + 1) > maxArgBytes
          · rw [if_pos hlong]
            refine iff_of_false (by simp) ?_
            rintro ⟨strings, hlength, hpoints, hresult, hfits⟩
            obtain ⟨other, rest, rfl⟩ :=
              List.exists_cons_of_length_eq_add_one hlength
            rw [hpoints.head] at hentry
            cases hentry
            rw [stringBytes_cons] at hresult
            omega
          · rw [if_neg hlong, ih (Nat.not_lt.mp hlong)]
            constructor
            · rintro ⟨rest, hlength, hpoints, hresult, hfits⟩
              refine ⟨string :: rest, by simp [hlength],
                pointsFrom_cons hentry hpoints, ?_, hfits⟩
              rw [hresult, stringBytes_cons, Nat.add_assoc]
            · rintro ⟨strings, hlength, hpoints, hresult, hfits⟩
              obtain ⟨other, rest, rfl⟩ :=
                List.exists_cons_of_length_eq_add_one hlength
              rw [hpoints.head] at hentry
              cases hentry
              refine ⟨rest, by simpa using hlength, hpoints.tail, ?_, hfits⟩
              rw [hresult, stringBytes_cons, ← Nat.add_assoc]

/-- Where strings that lie one behind the other start. -/
def addresses : Nat → List CString → List Nat
  | _, [] => []
  | start, string :: strings =>
      start :: addresses (start + string.stored.length) strings

@[simp]
theorem addresses_length (start : Nat) (strings : List CString) :
    (addresses start strings).length = strings.length := by
  induction strings generalizing start with
  | nil => rfl
  | cons string strings ih => simp [addresses, ih]

/-- The words below and the bytes above that have been stored so far; the rest
of the window is as at the start. -/
structure Laid (start : Memory) (sp base : Nat) (words : List Nat)
    (bytes : List UInt8) (layout : Layout) : Prop where
  above : stackVirt ≤ sp
  room : sp + 8 * words.length ≤ base
  wordCursor : layout.wordCursor = sp + 8 * words.length
  strCursor : layout.strCursor = base + bytes.length
  wordsAt : ∀ i (hi : i < words.length),
    readLE layout.window (sp + 8 * i - stackVirt) 8 = words[i] % 2 ^ 64
  bytesAt : load layout.window (base - stackVirt) bytes.length = bytes
  other : ∀ offset,
    stackVirt + offset < sp ∨ base + bytes.length ≤ stackVirt + offset →
    layout.window offset = start offset

theorem putWord_strCursor (layout : Layout) (value : Nat) :
    (putWord layout value).strCursor = layout.strCursor := by
  cases layout
  rfl

theorem putString_wordCursor (layout : Layout) (string : CString) :
    (putString layout string).1.wordCursor = layout.wordCursor := by
  cases layout
  rfl

variable {start : Memory} {sp base : Nat} {words : List Nat}
  {bytes : List UInt8} {layout : Layout}

theorem Laid.putWord (hlaid : Laid start sp base words bytes layout)
    (value : Nat) (hroom : sp + 8 * (words.length + 1) ≤ base) :
    Laid start sp base (words ++ [value]) bytes (putWord layout value) := by
  have habove := hlaid.above
  have hcursor := hlaid.wordCursor
  refine
    { above := habove
      room := by simpa using hroom
      wordCursor := ?_
      strCursor := by rw [putWord_strCursor, hlaid.strCursor]
      wordsAt := fun i hi => ?_
      bytesAt := ?_
      other := fun offset hoffset => ?_ }
  · simp only [Process.putWord, hcursor, List.length_append,
      List.length_singleton]
    omega
  · simp only [Process.putWord, hcursor]
    by_cases hlast : i = words.length
    · subst hlast
      rw [readLE_store_leBytes]
      simp
    · have hlt : i < words.length := by
        simp only [List.length_append, List.length_singleton] at hi
        omega
      rw [readLE_store_outside (by omega), hlaid.wordsAt i hlt,
        List.getElem_append_left hlt]
  · simp only [Process.putWord, hcursor]
    rw [load_store_outside (by simp only [leBytes_length]; omega),
      hlaid.bytesAt]
  · simp only [Process.putWord, hcursor]
    rw [store_outside (by simp only [leBytes_length]; omega)]
    exact hlaid.other offset hoffset

theorem Laid.putString (hlaid : Laid start sp base words bytes layout)
    (string : CString) :
    Laid start sp base words (bytes ++ string.stored)
      (putString layout string).1 := by
  have habove := hlaid.above
  have hroom := hlaid.room
  have hcursor := hlaid.strCursor
  refine
    { above := habove
      room := hroom
      wordCursor := by rw [putString_wordCursor, hlaid.wordCursor]
      strCursor := ?_
      wordsAt := fun i hi => ?_
      bytesAt := ?_
      other := fun offset hoffset => ?_ }
  · simp only [Process.putString, hcursor, List.length_append, Nat.add_assoc]
  · simp only [Process.putString, hcursor]
    rw [readLE_store_outside (by omega), hlaid.wordsAt i hi]
  · simp only [Process.putString, hcursor]
    have hback : base + bytes.length - stackVirt =
        base - stackVirt + bytes.length := by omega
    rw [hback, List.length_append, load_append, load_store_self,
      load_store_outside (by omega), hlaid.bytesAt]
  · simp only [Process.putString, hcursor]
    rw [List.length_append] at hoffset
    rw [store_outside (by omega)]
    exact hlaid.other offset (by omega)

/-- A loop over an array stores its strings and their addresses. -/
theorem Laid.putStrings (hlaid : Laid start sp base words bytes layout)
    (hpoints : PointsFrom array i strings)
    (hroom : sp + 8 * (words.length + strings.length) ≤ base) :
    Laid start sp base
      (words ++ addresses (base + bytes.length) strings)
      (bytes ++ storedBytes strings)
      (putStrings array strings.length i layout) := by
  induction strings generalizing i words bytes layout with
  | nil => simpa [addresses, storedBytes, Process.putStrings] using hlaid
  | cons string strings ih =>
      simp only [List.length_cons] at hroom
      have hword := (hlaid.putString string).putWord (base + bytes.length)
        (by omega)
      have hrest := ih hword hpoints.tail (by
        simp only [List.length_append, List.length_singleton]
        omega)
      have hat : (Process.putString layout string).2 = base + bytes.length :=
        hlaid.strCursor
      rw [List.length_cons, Process.putStrings, hpoints.head]
      simp only [hat, addresses, storedBytes_cons]
      rw [List.length_append, ← Nat.add_assoc] at hrest
      simpa using hrest

/-- The words from an address on. -/
def loadWords (window : Memory) (addr count : Nat) : List Nat :=
  (List.range count).map fun i => readLE window (addr + 8 * i - stackVirt) 8

/-- A pointer above the words to a copy of the string inside the window. -/
structure Holds (window : Memory) (blockEnd ptr : Nat) (string : CString) :
    Prop where
  above : blockEnd ≤ ptr
  below : ptr + string.stored.length ≤ stackVirt + stackSize
  copy : load window (ptr - stackVirt) string.stored.length = string.stored

/-- One string ends before the next begins. -/
def Before (first second : Nat × CString) : Prop :=
  first.1 + first.2.stored.length ≤ second.1

theorem addresses_append (first second : Nat) (strings others : List CString)
    (hsecond : second = first + stringBytes strings) :
    addresses first (strings ++ others) =
      addresses first strings ++ addresses second others := by
  induction strings generalizing first with
  | nil => simp [addresses, hsecond, stringBytes, storedBytes]
  | cons string strings ih =>
      rw [stringBytes_cons] at hsecond
      simp only [List.cons_append, addresses, stored_length]
      rw [ih (first + (string.bytes.length + 1)) (by omega)]

theorem le_of_mem_addresses {first : Nat} {entry : Nat × CString}
    (hentry : entry ∈ (addresses first strings).zip strings) :
    first ≤ entry.1 ∧
      entry.1 + entry.2.stored.length ≤ first + stringBytes strings := by
  induction strings generalizing first with
  | nil => simp [addresses] at hentry
  | cons string strings ih =>
      rw [addresses, List.zip_cons_cons, List.mem_cons] at hentry
      rw [stringBytes_cons]
      rcases hentry with rfl | hentry
      · dsimp only
        rw [stored_length]
        exact ⟨le_rfl, by omega⟩
      · have hrest := ih hentry
        rw [stored_length] at hrest
        omega

theorem addresses_pairwise (first : Nat) (strings : List CString) :
    ((addresses first strings).zip strings).Pairwise Before := by
  induction strings generalizing first with
  | nil => exact .nil
  | cons string strings ih =>
      rw [addresses, List.zip_cons_cons, List.pairwise_cons]
      exact ⟨fun entry hentry => (le_of_mem_addresses hentry).1, ih _⟩

/-- Strings that were stored one behind the other are found at their
addresses. -/
theorem addresses_hold {window : Memory} {first blockEnd : Nat}
    (hload : load window (first - stackVirt) (stringBytes strings) =
      storedBytes strings) (hvirt : stackVirt ≤ first)
    (hblock : blockEnd ≤ first)
    (htop : first + stringBytes strings ≤ stackVirt + stackSize) :
    List.Forall₂ (Holds window blockEnd) (addresses first strings) strings := by
  induction strings generalizing first with
  | nil => exact .nil
  | cons string strings ih =>
      rw [stringBytes_cons] at hload htop
      rw [storedBytes_cons, load_append, ← stored_length] at hload
      obtain ⟨hhead, htail⟩ := List.append_inj hload load_length
      have hnext : first + string.stored.length - stackVirt =
          first - stackVirt + string.stored.length := by omega
      rw [stored_length] at hnext
      refine .cons ⟨hblock, by rw [stored_length]; omega, hhead⟩
        (ih ?_ (by omega) (by omega) (by rw [stored_length]; omega))
      rw [stored_length, hnext, ← stored_length]
      exact htail

theorem Laid.loadWords_eq (hlaid : Laid start sp base words bytes layout)
    (hwords : ∀ word ∈ words, word < 2 ^ 64) :
    loadWords layout.window sp words.length = words := by
  refine List.ext_getElem (by simp [loadWords]) fun i hi hi' => ?_
  simp only [loadWords, List.getElem_map, List.getElem_range]
  rw [hlaid.wordsAt i hi',
    Nat.mod_eq_of_lt (hwords _ (List.getElem_mem hi'))]

/-- The stack that a program finds: only the part from the stack pointer up was
written; it begins with the number of arguments, pointers to them and a null
pointer, pointers to the environment and a null pointer, and an empty auxiliary
vector. -/
structure Decodes (window window' : Memory) (sp : Nat)
    (args envs : List CString) : Prop where
  aligned : sp % 16 = 0
  low : stackVirt ≤ sp
  kept : ∀ offset, stackVirt + offset < sp ∨ stackSize ≤ offset →
    window' offset = window offset
  pointers : ∃ argPtrs envPtrs : List Nat,
    argPtrs.length = args.length ∧ envPtrs.length = envs.length ∧
    loadWords window' sp (args.length + envs.length + 5) =
      args.length :: argPtrs ++ 0 :: envPtrs ++ [0, 0, 0] ∧
    List.Forall₂ (Holds window' (sp + 8 * (args.length + envs.length + 5)))
      (argPtrs ++ envPtrs) (args ++ envs) ∧
    ((argPtrs ++ envPtrs).zip (args ++ envs)).Pairwise Before

variable {window : Memory} {argv envp : PointerArray}
  {args envs : List CString}

/-- What the loops leave in the window. -/
theorem fillStack_laid (hvirt : stackVirt ≤ sp)
    (hroom : sp + 8 * (args.length + envs.length + 5) ≤ base)
    (hargs : PointsFrom argv 0 args) (henvs : PointsFrom envp 0 envs) :
    ∃ layout : Layout,
      fillStack window args.length envs.length argv envp base sp =
        layout.window ∧
      Laid (store window (sp - stackVirt)
          (List.replicate (stackVirt + stackSize - sp) 0)) sp base
        (args.length :: addresses base args ++
          0 :: addresses (base + stringBytes args) envs ++ [0, 0, 0])
        (storedBytes (args ++ envs)) layout := by
  unfold fillStack
  dsimp only
  generalize store window (sp - stackVirt)
    (List.replicate (stackVirt + stackSize - sp) 0) = start
  have hempty : Laid start sp base [] [] ⟨start, base, sp⟩ :=
    ⟨hvirt, by simp only [List.length_nil]; omega, rfl, rfl, by simp, rfl,
      fun _ _ => rfl⟩
  have hargc := hempty.putWord args.length (by
    simp only [List.length_nil]
    omega)
  have hargv := hargc.putStrings hargs (by
    simp only [List.nil_append, List.length_singleton]
    omega)
  have hnull := hargv.putWord 0 (by
    simp only [List.nil_append, List.length_append, List.length_singleton,
      addresses_length]
    omega)
  have henvp := hnull.putStrings henvs (by
    simp only [List.nil_append, List.length_append, List.length_singleton,
      addresses_length]
    omega)
  have hend := henvp.putWord 0 (by
    simp only [List.nil_append, List.length_append, List.length_singleton,
      addresses_length]
    omega)
  have hkey := hend.putWord 0 (by
    simp only [List.nil_append, List.length_append, List.length_singleton,
      addresses_length]
    omega)
  have hvalue := hkey.putWord 0 (by
    simp only [List.nil_append, List.length_append, List.length_singleton,
      addresses_length]
    omega)
  refine ⟨_, rfl, ?_⟩
  rw [storedBytes_append, stringBytes]
  simpa using hvalue

/-- Arguments that the builder takes. -/
structure Fits (argc : Int) (argv : PointerArray) (envc : Int)
    (envp : PointerArray) (args envs : List CString) : Prop where
  argsAt : Points argv argc args
  envsAt : Points envp envc envs
  fewArgs : argc ≤ maxArgs
  fewEnvs : envc ≤ maxEnvs
  small : stringBytes (args ++ envs) + 8 * (args.length + envs.length + 5) +
    16 ≤ maxArgBytes

variable {argc envc : Int}

theorem Points.from_zero {count : Int} (hpoints : Points array count strings) :
    PointsFrom array 0 strings := fun k hk => by
  rw [Nat.zero_add]
  exact hpoints.entry k hk

/-- The stack pointer that leaves room for the strings and the words. -/
def stackPointer (args envs : List CString) : Nat :=
  (stackVirt + stackSize - stringBytes (args ++ envs) -
    8 * (args.length + envs.length + 5)) &&& not64 15

theorem Points.isSome {count : Int} (hpoints : Points array count strings)
    (hcount : count > 0) : array.isNone = false := by
  have hlength := hpoints.length
  have hentry := hpoints.entry 0 (by omega)
  cases array with
  | none => cases hentry
  | some entries => rfl

theorem Fits.buildInitialStack_eq (window : Memory)
    (hfits : Fits argc argv envc envp args envs) :
    buildInitialStack window stackSize argc argv envc envp =
      some (fillStack window args.length envs.length argv envp
        (stackVirt + stackSize - stringBytes (args ++ envs))
        (stackPointer args envs), stackPointer args envs) := by
  obtain ⟨hargs, henvs, hmaxArgs, hmaxEnvs, hsmall⟩ := hfits
  have hargc := hargs.length
  have henvc := henvs.length
  have hargcNat : argc.toNat = args.length := by omega
  have henvcNat : envc.toNat = envs.length := by omega
  have hbytes := stringBytes_append args envs
  have hargBytes : countStrings argv args.length 0 0 =
      some (stringBytes args) :=
    (countStrings_eq_some (by decide)).mpr
      ⟨args, rfl, hargs.from_zero, (Nat.zero_add _).symm, by omega⟩
  have hallBytes : countStrings envp envs.length 0 (stringBytes args) =
      some (stringBytes (args ++ envs)) :=
    (countStrings_eq_some (by omega)).mpr
      ⟨envs, rfl, henvs.from_zero, hbytes, by omega⟩
  have hnull : ¬ ((argc > 0 ∧ argv.isNone) ∨ (envc > 0 ∧ envp.isNone)) := by
    rintro (⟨hpos, hnone⟩ | ⟨hpos, hnone⟩)
    · rw [hargs.isSome hpos] at hnone
      cases hnone
    · rw [henvs.isSome hpos] at hnone
      cases hnone
  have hwords : (1 + args.length + 1 + envs.length + 1 + 2) * 8 =
      8 * (args.length + envs.length + 5) := by omega
  rw [buildInitialStack, if_neg (by omega), if_neg (by simp), if_neg hnull]
  simp only [hargcNat, henvcNat, hargBytes, hallBytes, hwords]
  rw [if_neg (by omega)]
  rfl

theorem fits_of_buildInitialStack {result : Memory × Nat}
    (hresult : buildInitialStack window stackSize argc argv envc envp =
      some result) : ∃ args envs, Fits argc argv envc envp args envs := by
  unfold buildInitialStack at hresult
  split at hresult
  · cases hresult
  rename_i hcounts
  rw [if_neg (by simp)] at hresult
  split at hresult
  · cases hresult
  dsimp only at hresult
  split at hresult
  · cases hresult
  rename_i argBytes hargBytes
  split at hresult
  · cases hresult
  rename_i bytes hbytes
  split at hresult
  · cases hresult
  rename_i hfits
  obtain ⟨args, hargc, hargs, rfl, hmax⟩ :=
    (countStrings_eq_some (by decide)).mp hargBytes
  obtain ⟨envs, henvc, henvs, rfl, _⟩ :=
    (countStrings_eq_some hmax).mp hbytes
  have hsum := stringBytes_append args envs
  refine ⟨args, envs, ⟨by omega, fun i hi => ?_⟩, ⟨by omega, fun i hi => ?_⟩,
    by omega, by omega, by omega⟩
  · rw [← hargs i hi, Nat.zero_add]
  · rw [← henvs i hi, Nat.zero_add]

theorem mem_addresses_le {first ptr : Nat}
    (hptr : ptr ∈ addresses first strings) :
    ptr ≤ first + stringBytes strings := by
  induction strings generalizing first with
  | nil => simp [addresses] at hptr
  | cons string strings ih =>
      rw [addresses, List.mem_cons] at hptr
      rw [stringBytes_cons]
      rcases hptr with rfl | hptr
      · omega
      · have hrest := ih hptr
        rw [stored_length] at hrest
        omega

theorem stackPointer_eq (args envs : List CString) :
    stackPointer args envs =
      (stackVirt + stackSize - stringBytes (args ++ envs) -
        8 * (args.length + envs.length + 5)) / 2 ^ 4 * 2 ^ 4 := by
  refine @and_not64_low _ 4 ?_
  simp only [stackVirt, stackSize]
  omega

/-- Where the words and the strings come to lie. -/
theorem stackPointer_bounds
    (hsmall : stringBytes (args ++ envs) +
      8 * (args.length + envs.length + 5) + 16 ≤ maxArgBytes) :
    stackPointer args envs % 16 = 0 ∧ stackVirt ≤ stackPointer args envs ∧
    stackPointer args envs + 8 * (args.length + envs.length + 5) ≤
      stackVirt + stackSize - stringBytes (args ++ envs) := by
  rw [stackPointer_eq]
  simp only [stackVirt, stackSize, maxArgBytes] at *
  omega

theorem fillStack_decodes (window : Memory) (hargs : PointsFrom argv 0 args)
    (henvs : PointsFrom envp 0 envs)
    (hsmall : stringBytes (args ++ envs) +
      8 * (args.length + envs.length + 5) + 16 ≤ maxArgBytes) :
    Decodes window
      (fillStack window args.length envs.length argv envp
        (stackVirt + stackSize - stringBytes (args ++ envs))
        (stackPointer args envs)) (stackPointer args envs) args envs := by
  obtain ⟨haligned, hvirt, hroom⟩ := stackPointer_bounds hsmall
  generalize stackPointer args envs = sp at haligned hvirt hroom ⊢
  have htop : stackVirt + stackSize - stringBytes (args ++ envs) +
      stringBytes (args ++ envs) = stackVirt + stackSize := by
    simp only [stackVirt, stackSize, maxArgBytes] at *
    omega
  generalize stackVirt + stackSize - stringBytes (args ++ envs) = base
    at hroom htop ⊢
  obtain ⟨layout, hfill, hlaid⟩ := @fillStack_laid sp base window argv envp
    args envs hvirt hroom hargs henvs
  rw [hfill]
  have hsum := stringBytes_append args envs
  refine ⟨haligned, hvirt, fun offset hoffset => ?_,
    addresses base args, addresses (base + stringBytes args) envs,
    addresses_length _ _, addresses_length _ _, ?_, ?_, ?_⟩
  · have hbytes : (storedBytes (args ++ envs)).length =
        stringBytes (args ++ envs) := rfl
    rw [hlaid.other offset (by omega), store_outside]
    rw [List.length_replicate]
    omega
  · have hlength : (args.length :: addresses base args ++
        0 :: addresses (base + stringBytes args) envs ++ [0, 0, 0]).length =
          args.length + envs.length + 5 := by
      simp only [List.length_append, List.length_cons, addresses_length,
        List.length_nil]
      omega
    rw [← hlength]
    refine hlaid.loadWords_eq fun word hword => ?_
    have hlimit : stackVirt + stackSize < 2 ^ 64 := by decide
    simp only [List.mem_append, List.mem_cons, List.not_mem_nil,
      or_false, or_self] at hword
    rcases hword with ((hword | hword) | hword | hword) | hword
    · simp only [maxArgBytes] at hsmall
      omega
    · have hle := mem_addresses_le hword
      omega
    · omega
    · have hle := mem_addresses_le hword
      omega
    · omega
  · rw [← addresses_append base (base + stringBytes args) args envs rfl]
    exact addresses_hold hlaid.bytesAt (by omega) hroom htop.le
  · rw [← addresses_append base (base + stringBytes args) args envs rfl]
    exact addresses_pairwise base (args ++ envs)

/-- The builder takes exactly the arguments that fit, and a program that is
started on the result finds them. -/
theorem buildInitialStack_encodes (window : Memory) (argc envc : Int)
    (argv envp : PointerArray) :
    ((buildInitialStack window stackSize argc argv envc envp).isSome = true ↔
      ∃ args envs, Fits argc argv envc envp args envs) ∧
    ∀ window' sp, buildInitialStack window stackSize argc argv envc envp =
        some (window', sp) →
      ∃ args envs, Points argv argc args ∧ Points envp envc envs ∧
        Decodes window window' sp args envs := by
  refine ⟨⟨fun hsome => ?_, ?_⟩, fun window' sp hbuild => ?_⟩
  · obtain ⟨result, hbuild⟩ := Option.isSome_iff_exists.mp hsome
    exact fits_of_buildInitialStack hbuild
  · rintro ⟨args, envs, hfits⟩
    rw [hfits.buildInitialStack_eq]
    rfl
  · obtain ⟨args, envs, hfits⟩ := fits_of_buildInitialStack hbuild
    rw [hfits.buildInitialStack_eq] at hbuild
    obtain ⟨rfl, rfl⟩ := Prod.mk.inj (Option.some.inj hbuild)
    exact ⟨args, envs, hfits.argsAt, hfits.envsAt, fillStack_decodes window
      hfits.argsAt.from_zero hfits.envsAt.from_zero hfits.small⟩

end Process

end VenomOS
