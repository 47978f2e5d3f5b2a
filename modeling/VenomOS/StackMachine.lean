/-
A machine with registers and a stack of 64-bit words in byte-addressed memory.
Words are pushed one below the other; what lists of pushes and pops do is
stated once for lists of any length.
-/
import VenomOS.ByteMemory

namespace StackMachine

open ByteMemory

def wordAt (mem : Memory) (addr : Nat) : UInt64 :=
  UInt64.ofNat (readLE mem addr 8)

def putWord (mem : Memory) (addr : Nat) (word : UInt64) : Memory :=
  store mem addr (leBytes 8 word.toNat)

/-- The words are in memory one after the other. -/
def Words (mem : Memory) : Nat → List UInt64 → Prop
  | _, [] => True
  | addr, word :: words => wordAt mem addr = word ∧ Words mem (addr + 8) words

section Words

variable {mem mem' : Memory} {addr other x : Nat} {word : UInt64}
  {words first second : List UInt64}

theorem wordAt_congr (hsame : ∀ i < 8, mem' (addr + i) = mem (addr + i)) :
    wordAt mem' addr = wordAt mem addr := by
  rw [wordAt, wordAt, readLE_congr hsame]

@[simp]
theorem wordAt_putWord : wordAt (putWord mem addr word) addr = word := by
  have hlt : word.toNat < 256 ^ 8 := word.toNat_lt
  rw [wordAt, putWord, readLE_store_leBytes, Nat.mod_eq_of_lt hlt,
    UInt64.ofNat_toNat]

theorem putWord_outside (hx : x < addr ∨ addr + 8 ≤ x) :
    putWord mem addr word x = mem x := by
  rw [putWord]
  exact store_outside (by rwa [leBytes_length])

theorem wordAt_putWord_apart (hapart : other + 8 ≤ addr ∨ addr + 8 ≤ other) :
    wordAt (putWord mem addr word) other = wordAt mem other := by
  apply wordAt_congr
  intro i hi
  exact putWord_outside (by omega)

theorem Words.congr (hwords : Words mem addr words)
    (hsame : ∀ x, addr ≤ x → x < addr + 8 * words.length → mem' x = mem x) :
    Words mem' addr words := by
  induction words generalizing addr with
  | nil => trivial
  | cons word words ih =>
      rw [List.length_cons] at hsame
      refine ⟨?_, ih hwords.2 fun x hx hlt => hsame x (by omega) (by omega)⟩
      rw [← hwords.1]
      apply wordAt_congr
      intro i hi
      exact hsame _ (by omega) (by omega)

theorem words_append :
    Words mem addr (first ++ second) ↔
      Words mem addr first ∧ Words mem (addr + 8 * first.length) second := by
  induction first generalizing addr with
  | nil => simp [Words]
  | cons word first ih =>
      have hnext : addr + 8 * (word :: first).length =
          addr + 8 + 8 * first.length := by
        rw [List.length_cons]
        omega
      rw [List.cons_append, Words, Words, ih, hnext, and_assoc]

end Words

structure Machine (R : Type) where
  regs : R → UInt64
  sp : UInt64
  mem : Memory

namespace Machine

variable {R : Type}

def push (m : Machine R) (word : UInt64) : Machine R :=
  { m with sp := m.sp - 8, mem := putWord m.mem (m.sp - 8).toNat word }

def top (m : Machine R) : UInt64 := wordAt m.mem m.sp.toNat

def drop (m : Machine R) (words : Nat) : Machine R :=
  { m with sp := m.sp + UInt64.ofNat (8 * words) }

def pop [DecidableEq R] (m : Machine R) (r : R) : Machine R :=
  { m.drop 1 with regs := Function.update m.regs r m.top }

def pushAll (m : Machine R) (words : List UInt64) : Machine R :=
  words.foldl push m

def popAll [DecidableEq R] (m : Machine R) (rs : List R) : Machine R :=
  rs.foldl pop m

variable {m : Machine R} {words : List UInt64} {word : UInt64}

theorem toNat_sp_push (hroom : 8 ≤ m.sp.toNat) :
    (m.push word).sp.toNat = m.sp.toNat - 8 := by
  rw [push]
  exact UInt64.toNat_sub_of_le m.sp 8 (UInt64.le_iff_toNat_le.2 hroom)

theorem toNat_sp_drop {count : Nat}
    (hroom : m.sp.toNat + 8 * count < 2 ^ 64) :
    (m.drop count).sp.toNat = m.sp.toNat + 8 * count := by
  rw [drop, UInt64.toNat_add, UInt64.toNat_ofNat',
    Nat.mod_eq_of_lt (by omega : 8 * count < 2 ^ 64), Nat.mod_eq_of_lt hroom]

theorem pushAll_append (first second : List UInt64) :
    m.pushAll (first ++ second) = (m.pushAll first).pushAll second :=
  List.foldl_append

theorem regs_pushAll : (m.pushAll words).regs = m.regs := by
  induction words generalizing m with
  | nil => rfl
  | cons word words ih => exact @ih (m.push word)

/-- What the machine is after pushes: the last word lies lowest. -/
structure Pushed (m : Machine R) (words : List UInt64) (m' : Machine R) :
    Prop where
  regs : m'.regs = m.regs
  sp : m'.sp.toNat + 8 * words.length = m.sp.toNat
  stored : Words m'.mem m'.sp.toNat words.reverse
  outside : ∀ x, x < m'.sp.toNat ∨ m.sp.toNat ≤ x → m'.mem x = m.mem x

/-- One more word, pushed before the others. -/
theorem Pushed.cons {m' : Machine R} (hroom : 8 ≤ m.sp.toNat)
    (hrest : Pushed (m.push word) words m') :
    Pushed m (word :: words) m' := by
  obtain ⟨hregs, hsp, hstored, houtside⟩ := hrest
  have hpush : (m.push word).sp.toNat = m.sp.toNat - 8 := toNat_sp_push hroom
  have hmem : (m.push word).mem =
      putWord m.mem (m.push word).sp.toNat word := rfl
  have hword : wordAt m'.mem (m.push word).sp.toNat = word := by
    have hsame : wordAt m'.mem (m.push word).sp.toNat =
        wordAt (m.push word).mem (m.push word).sp.toNat := by
      apply wordAt_congr
      intro i _
      exact houtside _ (Or.inr (Nat.le_add_right _ _))
    rw [hsame, hmem, wordAt_putWord]
  refine ⟨hregs, ?_, ?_, fun x hx => ?_⟩
  · rw [List.length_cons]
    omega
  · rw [List.reverse_cons, words_append, List.length_reverse, hsp]
    exact ⟨hstored, hword, trivial⟩
  · rw [houtside x (by omega), hmem]
    exact putWord_outside (by omega)

theorem pushed_pushAll (hroom : 8 * words.length ≤ m.sp.toNat) :
    Pushed m words (m.pushAll words) := by
  induction words generalizing m with
  | nil => exact ⟨rfl, rfl, trivial, fun _ _ => rfl⟩
  | cons word words ih =>
      rw [List.length_cons] at hroom
      have hsp : (m.push word).sp.toNat = m.sp.toNat - 8 :=
        toNat_sp_push (by omega)
      exact Pushed.cons (by omega) (ih (by omega))

/-- What the machine is after pops into different registers. -/
structure Popped (m : Machine R) (rs : List R) (words : List UInt64)
    (m' : Machine R) : Prop where
  mem : m'.mem = m.mem
  sp : m'.sp.toNat = m.sp.toNat + 8 * rs.length
  loaded : ∀ pair ∈ rs.zip words, m'.regs pair.1 = pair.2
  kept : ∀ r, r ∉ rs → m'.regs r = m.regs r

variable [DecidableEq R] {rs : List R}

/-- One more register, popped before the others. -/
theorem Popped.cons {m' : Machine R} {r : R} (hnot : r ∉ rs)
    (htop : m.top = word) (hroom : m.sp.toNat + 8 < 2 ^ 64)
    (hrest : Popped (m.pop r) rs words m') :
    Popped m (r :: rs) (word :: words) m' := by
  obtain ⟨hmem, hsp, hloaded, hkept⟩ := hrest
  have hpop : (m.pop r).sp.toNat = m.sp.toNat + 8 := toNat_sp_drop hroom
  have hregs : (m.pop r).regs = Function.update m.regs r word := by
    rw [← htop]
    rfl
  refine ⟨hmem, ?_, ?_, fun other hother => ?_⟩
  · rw [List.length_cons]
    omega
  · intro pair hpair
    rw [List.zip_cons_cons, List.mem_cons] at hpair
    rcases hpair with rfl | hpair
    · rw [hkept r hnot, hregs, Function.update_self]
    · exact hloaded pair hpair
  · rw [List.mem_cons, not_or] at hother
    rw [hkept other hother.2, hregs, Function.update_of_ne hother.1]

theorem popped_popAll (hdistinct : rs.Nodup)
    (hlength : rs.length = words.length)
    (hwords : Words m.mem m.sp.toNat words)
    (hroom : m.sp.toNat + 8 * rs.length < 2 ^ 64) :
    Popped m rs words (m.popAll rs) := by
  induction rs generalizing m words with
  | nil => exact ⟨rfl, rfl, by simp, fun _ _ => rfl⟩
  | cons r rs ih =>
      cases words with
      | nil => cases hlength
      | cons word words =>
          obtain ⟨hnot, hrs⟩ := List.nodup_cons.1 hdistinct
          rw [List.length_cons] at hroom
          have hsp : (m.pop r).sp.toNat = m.sp.toNat + 8 :=
            toNat_sp_drop (by omega)
          refine Popped.cons hnot hwords.1 (by omega) ?_
          refine ih hrs (Nat.succ.inj hlength) ?_ (by omega)
          rw [hsp]
          exact hwords.2

omit [DecidableEq R] in
/-- Registers popped from where their own values lie get these back. -/
theorem Popped.restores {m' : Machine R} {value : R → UInt64}
    (hpopped : Popped m rs (rs.map value) m') :
    ∀ r ∈ rs, m'.regs r = value r := by
  intro r hr
  refine hpopped.loaded (r, value r) ?_
  rw [List.zip_map_right, List.mem_map]
  refine ⟨(r, r), ?_, rfl⟩
  rw [List.zip_eq_zipWith, List.zipWith_self, List.mem_map]
  exact ⟨r, hr, rfl⟩

end Machine

end StackMachine
