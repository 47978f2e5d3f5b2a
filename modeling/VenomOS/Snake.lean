/-
The game of kernel/snake.cpp.  The loop that places the food has no bound of
its own; it ends because of how the generator of its random numbers works.
-/
import VenomOS.Congruential
import VenomOS.Keyboard
import VenomOS.Terminal

namespace VenomOS

namespace Snake

open Vga

def boardWidth : Nat := 50

def boardHeight : Nat := 17

def maxSegments : Nat := 128

def moveIntervalTicks : Nat := 3

structure Point where
  x : Int
  y : Int
deriving Repr, DecidableEq

inductive Direction where
  | up
  | down
  | left
  | right
deriving Repr, DecidableEq

/-- The variables of the game, and the screen that it is drawn on. -/
structure Game where
  body : Nat → Point
  food : Point
  length : Nat
  tickCount : Nat
  randomState : UInt32
  direction : Direction
  requestedDirection : Direction
  running : Bool
  screen : Terminal

def nextRandom (state : UInt32) : UInt32 := state * 1664525 + 1013904223

def isOpposite (first second : Direction) : Bool :=
  (first == .up && second == .down) || (first == .down && second == .up) ||
    (first == .left && second == .right) || (first == .right && second == .left)

/-- The point next to another one. -/
def advance (direction : Direction) (point : Point) : Point :=
  match direction with
  | .up => ⟨point.x, point.y - 1⟩
  | .down => ⟨point.x, point.y + 1⟩
  | .left => ⟨point.x - 1, point.y⟩
  | .right => ⟨point.x + 1, point.y⟩

/-- What two random numbers in a row say. -/
def foodAt (first second : UInt32) : Point :=
  ⟨1 + (first.toNat % boardWidth : Nat), 1 + (second.toNat % boardHeight : Nat)⟩

/-- The loop that moves the segments from `index` on down to the second. -/
def shift : Nat → (Nat → Point) → Nat → Point
  | 0, body => body
  | index + 1, body =>
      shift index (Function.update body (index + 1) (body index))

def title : List UInt8 :=
  "VenomOS Snake  |  Arrow keys: move  |  Esc: exit\n".toList.map
    ByteMemory.charCode

namespace Game

variable (game : Game)

def occupies (point : Point) (count : Nat) : Bool :=
  (List.range count).any fun index => game.body index = point

/-- The loop of spawn_food; if it is still going after `fuel` attempts, there
is no result. -/
def spawnFoodFrom : Nat → UInt32 → Option Game
  | 0, _ => none
  | fuel + 1, state =>
      let first := nextRandom state
      let second := nextRandom first
      let food := foodAt first second
      if game.occupies food game.length then spawnFoodFrom fuel second
      else some { game with food := food, randomState := second }

/-- After this many attempts the random numbers begin to repeat. -/
def attemptLimit : Nat := 2 ^ 32

def spawnFood : Option Game :=
  game.spawnFoodFrom attemptLimit game.randomState

/-- What is drawn at a place of the board or its border. -/
def character (x y : Nat) : UInt8 :=
  if x = 0 ∨ x = boardWidth + 1 ∨ y = 0 ∨ y = boardHeight + 1 then 0x23
  else if game.food = ⟨x, y⟩ then 0x2A
  else
    match (List.range game.length).find? fun index =>
        game.body index = ⟨x, y⟩ with
    | some index => if index = 0 then 0x40 else 0x6F
    | none => 0x20

def line (y : Nat) : List UInt8 :=
  (List.range (boardWidth + 2)).map (game.character · y) ++ [newline]

def render : Game :=
  let screen := game.screen.clear .lightGrey .black
  let screen := screen.setColor .lightGreen .black
  let screen := screen.print title
  { game with
    screen := (List.range (boardHeight + 2)).foldl (fun screen y =>
      screen.print (game.line y)) screen }

def start : Option Game :=
  let body := Function.update game.body 0 ⟨25, 9⟩
  let body := Function.update body 1 ⟨24, 9⟩
  let body := Function.update body 2 ⟨23, 9⟩
  let game :=
    { game with
      length := 3
      body := body
      direction := .right
      requestedDirection := .right
      tickCount := 0
      running := true }
  game.spawnFood.map render

/-- The direction that a key stands for. -/
def candidate (key : UInt8) : Option Direction :=
  if key = Keyboard.keyUp then some .up
  else if key = Keyboard.keyDown then some .down
  else if key = Keyboard.keyLeft then some .left
  else if key = Keyboard.keyRight then some .right
  else none

def handleKey (key : UInt8) : Game :=
  match candidate key with
  | none => game
  | some direction =>
      if !isOpposite game.direction direction then
        { game with requestedDirection := direction }
      else game

/-- The move itself. -/
def move : Option (Game × Bool) :=
  let game := { game with direction := game.requestedDirection }
  let next := advance game.direction (game.body 0)
  let ateFood := next = game.food
  let collisionCount := if ateFood then game.length else game.length - 1
  if next.x < 1 ∨ next.x > boardWidth ∨ next.y < 1 ∨ next.y > boardHeight ∨
      game.occupies next collisionCount then
    some ({ game with running := false }, false)
  else
    let newLength :=
      if ateFood ∧ game.length < maxSegments then game.length + 1
      else game.length
    let game :=
      { game with
        body := Function.update (shift (newLength - 1) game.body) 0 next
        length := newLength }
    let fed := if ateFood then game.spawnFood else some game
    fed.map fun game => (game.render, true)

def tick : Option (Game × Bool) :=
  if !game.running then some (game, false)
  else if game.tickCount + 1 < moveIntervalTicks then
    some ({ game with tickCount := game.tickCount + 1 }, true)
  else { game with tickCount := 0 }.move

end Game

section Random

open Function

theorem nextRandom_toNat (state : UInt32) :
    ((nextRandom state).toNat : Int) ≡
      Congruential.step 1664525 1013904223 state.toNat [ZMOD 2 ^ 32] := by
  have hvalue : (nextRandom state).toNat =
      (state.toNat * 1664525 + 1013904223) % 2 ^ 32 := by
    simp [nextRandom, UInt32.toNat_add, UInt32.toNat_mul]
  rw [hvalue, Congruential.step, mul_comm]
  push_cast
  exact Int.mod_modEq _ _

theorem iterate_nextRandom_toNat (state : UInt32) (n : Nat) :
    ((nextRandom^[n] state).toNat : Int) ≡
      (Congruential.step 1664525 1013904223)^[n] state.toNat [ZMOD 2 ^ 32] := by
  induction n generalizing state with
  | zero => rfl
  | succ n ih =>
      rw [iterate_succ_apply, iterate_succ_apply]
      exact (ih _).trans
        (Congruential.iterate_modEq (nextRandom_toNat state) n)

/-- Two steps at a time lead to every number that is odd or even like the
first. -/
theorem exists_iterate_eq {state target : UInt32}
    (hparity : state.toNat % 2 = target.toNat % 2) :
    ∃ n < 2 ^ 31, nextRandom^[2 * n] state = target := by
  have hmultiplier : (4 : Int) ∣ 1664525 - 1 := by decide
  have hincrement : Odd (1013904223 : Int) := by decide
  obtain ⟨n, hn, hreach⟩ := Congruential.exists_iterate_modEq hmultiplier
    hincrement 32 state.toNat target.toNat
  have hsteps := Congruential.iterate_modEq_two hmultiplier hincrement n
    state.toNat
  have hsame := hsteps.symm.trans (hreach.of_dvd (by decide))
  have heven : n = 2 * (n / 2) := by
    rw [Int.ModEq] at hsame
    omega
  refine ⟨n / 2, by omega, ?_⟩
  rw [← heven]
  refine UInt32.toNat_inj.mp ?_
  have hvalue := (iterate_nextRandom_toNat state n).trans hreach
  have hlt := (nextRandom^[n] state).toNat_lt
  have hlt' := target.toNat_lt
  rw [Int.ModEq, Int.emod_eq_of_lt (by omega) (by omega),
    Int.emod_eq_of_lt (by omega) (by omega)] at hvalue
  exact_mod_cast hvalue

/-- What an attempt draws whose first number is the given one. -/
def cellOf (first : UInt32) : Point := foodAt first (nextRandom first)

/-- The first number is always odd or always even, but either way there are
more cells than segments. -/
theorem nodup_cells : ∀ parity < 2, ((List.range 129).map fun k =>
    cellOf (UInt32.ofNat (parity + 2 * k))).Nodup := by
  decide +kernel

theorem exists_free_cell (points : List Point) (hpoints : points.length ≤ 128)
    (first : UInt32) :
    ∃ n < 2 ^ 31, cellOf (nextRandom^[2 * n] first) ∉ points := by
  have hnodup := nodup_cells (first.toNat % 2) (Nat.mod_lt _ (by decide))
  obtain ⟨cell, hcell, hfree⟩ : ∃ cell ∈ (List.range 129).map fun k =>
      cellOf (UInt32.ofNat (first.toNat % 2 + 2 * k)), cell ∉ points := by
    by_contra hall
    push Not at hall
    have hle := (hnodup.subperm hall).length_le
    rw [List.length_map, List.length_range] at hle
    omega
  obtain ⟨k, hk, rfl⟩ := List.mem_map.mp hcell
  have hparity : first.toNat % 2 =
      (UInt32.ofNat (first.toNat % 2 + 2 * k)).toNat % 2 := by
    rw [List.mem_range] at hk
    rw [UInt32.toNat_ofNat_of_lt' (by simp [UInt32.size]; omega)]
    omega
  obtain ⟨n, hn, hreach⟩ := exists_iterate_eq hparity
  exact ⟨n, hn, hreach ▸ hfree⟩

end Random

variable {game game' : Game} {point : Point} {count : Nat}

theorem occupies_eq_false : game.occupies point count = false ↔
    ∀ i < count, game.body i ≠ point := by
  simp [Game.occupies]

/-- What an attempt draws; every attempt takes two random numbers. -/
def Game.attempt (game : Game) (n : Nat) : Point :=
  cellOf (nextRandom^[2 * n + 1] game.randomState)

theorem iterate_two_more (n : Nat) (state : UInt32) :
    nextRandom^[n + 2] state = nextRandom^[n] (nextRandom (nextRandom state)) := by
  rw [Function.iterate_add_apply, Function.iterate_succ_apply,
    Function.iterate_one]

/-- One turn of the loop. -/
theorem spawnFoodFrom_succ (game : Game) (fuel : Nat) (state : UInt32) :
    game.spawnFoodFrom (fuel + 1) state =
      if game.occupies (cellOf (nextRandom state)) game.length then
        game.spawnFoodFrom fuel (nextRandom (nextRandom state))
      else some { game with
        food := cellOf (nextRandom state)
        randomState := nextRandom (nextRandom state) } := by
  rw [Game.spawnFoodFrom]
  rfl

/-- The loop ends at the first attempt that is free. -/
theorem spawnFoodFrom_eq {n fuel : Nat} {state : UInt32}
    (hbusy : ∀ k < n, game.occupies (cellOf (nextRandom^[2 * k + 1] state))
      game.length = true)
    (hfree : game.occupies (cellOf (nextRandom^[2 * n + 1] state))
      game.length = false) (hfuel : n < fuel) :
    game.spawnFoodFrom fuel state = some { game with
      food := cellOf (nextRandom^[2 * n + 1] state)
      randomState := nextRandom^[2 * n + 2] state } := by
  induction n generalizing fuel state with
  | zero =>
      obtain ⟨fuel, rfl⟩ := Nat.exists_eq_succ_of_ne_zero
        (Nat.ne_zero_of_lt hfuel)
      rw [Nat.mul_zero, Nat.zero_add, Function.iterate_one] at hfree
      rw [spawnFoodFrom_succ, hfree, Nat.mul_zero, Nat.zero_add, Nat.zero_add,
        Function.iterate_one, Function.iterate_succ_apply,
        Function.iterate_one]
      rfl
  | succ n ih =>
      obtain ⟨fuel, rfl⟩ := Nat.exists_eq_succ_of_ne_zero
        (Nat.ne_zero_of_lt hfuel)
      have hfirst := hbusy 0 (Nat.succ_pos _)
      rw [Nat.mul_zero, Nat.zero_add, Function.iterate_one] at hfirst
      have hshift : ∀ k, nextRandom^[2 * (k + 1) + 1] state =
          nextRandom^[2 * k + 1] (nextRandom (nextRandom state)) := fun k => by
        rw [Nat.mul_succ, Nat.add_right_comm, iterate_two_more]
      have hrest := @ih fuel (nextRandom (nextRandom state))
        (fun k hk => hshift k ▸ hbusy (k + 1) (Nat.succ_lt_succ hk))
        (hshift n ▸ hfree) (Nat.lt_of_succ_lt_succ hfuel)
      rw [spawnFoodFrom_succ, hfirst, if_pos rfl, hrest, hshift,
        iterate_two_more (2 * (n + 1)), Nat.mul_succ]

/-- The first attempt that is free. -/
theorem exists_free_attempt (hlength : game.length ≤ maxSegments) :
    ∃ n < 2 ^ 31, game.occupies (game.attempt n) game.length = false ∧
      ∀ k < n, game.occupies (game.attempt k) game.length = true := by
  obtain ⟨n, hn, hcell⟩ := exists_free_cell
    ((List.range game.length).map game.body)
    (by rwa [List.length_map, List.length_range])
    (nextRandom game.randomState)
  have hfree : game.occupies (game.attempt n) game.length = false := by
    refine occupies_eq_false.mpr fun i hi heq => hcell ?_
    rw [Game.attempt, Function.iterate_succ_apply] at heq
    exact heq ▸ List.mem_map_of_mem (List.mem_range.mpr hi)
  have hattempt : ∃ k, game.occupies (game.attempt k) game.length = false :=
    ⟨n, hfree⟩
  refine ⟨Nat.find hattempt, (Nat.find_le hfree).trans_lt hn,
    Nat.find_spec hattempt, fun k hk => ?_⟩
  exact Bool.of_not_eq_false (Nat.find_min hattempt hk)

/-- The loop always ends, with a cell that is free. -/
theorem spawnFood_terminates (game : Game)
    (hlength : game.length ≤ maxSegments) :
    ∃ n < 2 ^ 31, game.occupies (game.attempt n) game.length = false ∧
      ∀ fuel, n < fuel → game.spawnFoodFrom fuel game.randomState =
        some { game with
          food := game.attempt n
          randomState := nextRandom^[2 * n + 2] game.randomState } := by
  obtain ⟨n, hn, hfree, hbusy⟩ := exists_free_attempt hlength
  exact ⟨n, hn, hfree, fun fuel hfuel => spawnFoodFrom_eq hbusy hfree hfuel⟩

/-- The static initialisers. -/
def Game.boot : Game :=
  ⟨fun _ => ⟨0, 0⟩, ⟨0, 0⟩, 0, 0, 0x56E0BEEF, .right, .right, false,
    Terminal.boot fun _ => 0⟩

/-- A snake as long as can be, on three rows of the board. -/
def coiled : Game :=
  { Game.boot with
    body := fun i =>
      if i < 50 then ⟨i + 1, 6⟩
      else if i < 100 then ⟨100 - i, 7⟩
      else ⟨i - 99, 8⟩
    length := 128 }

theorem spawnFood_terminates_coiled :
    coiled.occupies (coiled.attempt 0) coiled.length = true ∧
    coiled.occupies (coiled.attempt 1) coiled.length = true ∧
    ∃ n < 2 ^ 31, coiled.occupies (coiled.attempt n) coiled.length = false ∧
      ∀ fuel, n < fuel → coiled.spawnFoodFrom fuel coiled.randomState =
        some { coiled with
          food := coiled.attempt n
          randomState := nextRandom^[2 * n + 2] coiled.randomState } :=
  ⟨by decide +kernel, by decide +kernel,
    spawnFood_terminates coiled (by decide)⟩

structure OnBoard (point : Point) : Prop where
  left : 1 ≤ point.x
  right : point.x ≤ boardWidth
  top : 1 ≤ point.y
  bottom : point.y ≤ boardHeight

/-- One step up, down, left or right apart. -/
def Adjacent (first second : Point) : Prop :=
  (first.x - second.x).natAbs + (first.y - second.y).natAbs = 1

/-- A snake on the board. -/
structure Lies (body : Nat → Point) (length : Nat) : Prop where
  min : 3 ≤ length
  max : length ≤ maxSegments
  onBoard : ∀ i < length, OnBoard (body i)
  adjacent : ∀ i, i + 1 < length → Adjacent (body i) (body (i + 1))
  distinct : ∀ i < length, ∀ j < length, body i = body j → i = j

/-- What holds of a running game: the snake does not run into its own second
segment, neither now nor after the next turn. -/
structure Sound (game : Game) : Prop where
  lies : Lies game.body game.length
  foodOnBoard : OnBoard game.food
  foodFree : ∀ i < game.length, game.body i ≠ game.food
  ahead : advance game.direction (game.body 0) ≠ game.body 1
  turns : advance game.requestedDirection (game.body 0) ≠ game.body 1

/-- The first segment lies where the second one was heading. -/
structure Playing (game : Game) : Prop where
  lies : Lies game.body game.length
  foodOnBoard : OnBoard game.food
  foodFree : ∀ i < game.length, game.body i ≠ game.food
  heading : game.body 0 = advance game.direction (game.body 1)
  turning : isOpposite game.direction game.requestedDirection = false

theorem isOpposite_self (direction : Direction) :
    isOpposite direction direction = false := by
  cases direction <;> rfl

theorem advance_advance_ne {first second : Direction}
    (hturn : isOpposite first second = false) (point : Point) :
    advance second (advance first point) ≠ point := by
  intro heq
  have hx := congrArg Point.x heq
  have hy := congrArg Point.y heq
  cases first <;> cases second <;> simp only [advance] at hx hy <;>
    first
    | omega
    | exact absurd hturn (by decide)

theorem Playing.sound (hplaying : Playing game) : Sound game where
  lies := hplaying.lies
  foodOnBoard := hplaying.foodOnBoard
  foodFree := hplaying.foodFree
  ahead := by
    rw [hplaying.heading]
    exact advance_advance_ne (isOpposite_self _) _
  turns := by
    rw [hplaying.heading]
    exact advance_advance_ne hplaying.turning _

theorem adjacent_advance (direction : Direction) (point : Point) :
    Adjacent (advance direction point) point := by
  cases direction <;> simp [Adjacent, advance]

variable {body : Nat → Point} {length n i : Nat} {next : Point}

theorem shift_apply (n : Nat) (body : Nat → Point) (i : Nat) :
    shift n body i = if 1 ≤ i ∧ i ≤ n then body (i - 1) else body i := by
  induction n generalizing body with
  | zero =>
      rw [if_neg (by omega)]
      rfl
  | succ n ih =>
      rw [shift, ih]
      by_cases hlast : i = n + 1
      · subst hlast
        rw [if_neg (by omega), if_pos (by omega), Function.update_self]
        rfl
      · rw [Function.update_of_ne hlast]
        by_cases hin : 1 ≤ i ∧ i ≤ n
        · rw [if_pos hin, if_pos (by omega),
            Function.update_of_ne (by omega)]
        · rw [if_neg hin, if_neg (by omega)]

/-- The segments after a move. -/
def pushed (next : Point) (length : Nat) (body : Nat → Point) : Nat → Point :=
  Function.update (shift (length - 1) body) 0 next

theorem pushed_zero : pushed next length body 0 = next :=
  Function.update_self ..

theorem pushed_succ (hi : i + 1 < length) :
    pushed next length body (i + 1) = body i := by
  rw [pushed, Function.update_of_ne (Nat.succ_ne_zero i), shift_apply,
    if_pos (by omega)]
  rfl

theorem Lies.push {newLength : Nat} (hlies : Lies body length)
    (hmin : length ≤ newLength) (hgrow : newLength ≤ length + 1)
    (hmax : newLength ≤ maxSegments) (hboard : OnBoard next)
    (hnext : Adjacent next (body 0))
    (hfree : ∀ i, i + 1 < newLength → body i ≠ next) :
    Lies (pushed next newLength body) newLength where
  min := hlies.min.trans hmin
  max := hmax
  onBoard i hi := by
    cases i with
    | zero => rwa [pushed_zero]
    | succ i =>
        rw [pushed_succ hi]
        exact hlies.onBoard i (by omega)
  adjacent i hi := by
    rw [pushed_succ hi]
    cases i with
    | zero => rwa [pushed_zero]
    | succ i =>
        rw [pushed_succ (by omega)]
        exact hlies.adjacent i (by omega)
  distinct i hi j hj heq := by
    cases i with
    | zero =>
        cases j with
        | zero => rfl
        | succ j =>
            rw [pushed_zero, pushed_succ hj] at heq
            exact absurd heq.symm (hfree j hj)
    | succ i =>
        cases j with
        | zero =>
            rw [pushed_zero, pushed_succ hi] at heq
            exact absurd heq (hfree i hi)
        | succ j =>
            rw [pushed_succ hi, pushed_succ hj] at heq
            rw [hlies.distinct i (by omega) j (by omega) heq]

theorem foodAt_onBoard (first second : UInt32) : OnBoard (foodAt first second) := by
  have hx := Nat.mod_lt first.toNat (by decide : boardWidth > 0)
  have hy := Nat.mod_lt second.toNat (by decide : boardHeight > 0)
  refine ⟨?_, ?_, ?_, ?_⟩ <;> simp only [foodAt] <;> omega

theorem spawnFood_spec (hlength : game.length ≤ maxSegments) :
    ∃ food state, game.spawnFood =
        some { game with food := food, randomState := state } ∧
      OnBoard food ∧ ∀ i < game.length, game.body i ≠ food := by
  obtain ⟨n, hn, hfree, hbusy⟩ := exists_free_attempt hlength
  refine ⟨_, _, spawnFoodFrom_eq hbusy hfree ?_, foodAt_onBoard _ _,
    occupies_eq_false.mp hfree⟩
  simp only [Game.attemptLimit]
  omega

theorem lies_start (body : Nat → Point) :
    Lies (Function.update (Function.update (Function.update body 0 ⟨25, 9⟩)
      1 ⟨24, 9⟩) 2 ⟨23, 9⟩) 3 := by
  generalize hstart : Function.update (Function.update (Function.update body
    0 ⟨25, 9⟩) 1 ⟨24, 9⟩) 2 ⟨23, 9⟩ = segments
  have hfirst : segments 0 = ⟨25, 9⟩ := hstart ▸ rfl
  have hsecond : segments 1 = ⟨24, 9⟩ := hstart ▸ rfl
  have hthird : segments 2 = ⟨23, 9⟩ := hstart ▸ rfl
  refine ⟨le_rfl, by decide, fun i hi => ?_, fun i hi => ?_,
    fun i hi j hj heq => ?_⟩
  · interval_cases i
    · rw [hfirst]
      exact ⟨by decide, by decide, by decide, by decide⟩
    · rw [hsecond]
      exact ⟨by decide, by decide, by decide, by decide⟩
    · rw [hthird]
      exact ⟨by decide, by decide, by decide, by decide⟩
  · have hcases : i = 0 ∨ i = 1 := by omega
    rcases hcases with rfl | rfl
    · rw [hfirst, hsecond]
      rfl
    · rw [hsecond, hthird]
      rfl
  · interval_cases i <;> interval_cases j <;>
      simp_all

theorem start_playing (game : Game) :
    ∃ game', game.start = some game' ∧ Playing game' := by
  unfold Game.start
  dsimp only
  have hlies := lies_start game.body
  generalize hbody : Function.update (Function.update (Function.update
    game.body 0 ⟨25, 9⟩) 1 ⟨24, 9⟩) 2 ⟨23, 9⟩ = body at hlies
  obtain ⟨food, state, hspawn, hboard, hfree⟩ := @spawnFood_spec
    { game with
      body := body
      length := 3
      tickCount := 0
      direction := .right
      requestedDirection := .right
      running := true } (show 3 ≤ maxSegments by decide)
  rw [hspawn]
  refine ⟨_, rfl, hlies, hboard, hfree, ?_, rfl⟩
  change body 0 = advance .right (body 1)
  rw [← hbody]
  rfl

theorem Playing.handleKey (hplaying : Playing game) (key : UInt8) :
    Playing (game.handleKey key) := by
  rw [Game.handleKey]
  split
  · exact hplaying
  · split
    · rename_i direction _ hturn
      exact ⟨hplaying.lies, hplaying.foodOnBoard, hplaying.foodFree,
        hplaying.heading, by simpa using hturn⟩
    · exact hplaying

/-- A step that did not go wrong. -/
theorem Playing.push (hplaying : Playing game) {newLength : Nat}
    (hnext : advance game.requestedDirection (game.body 0) = next)
    (hmin : game.length ≤ newLength) (hgrow : newLength ≤ game.length + 1)
    (hmax : newLength ≤ maxSegments) (hboard : OnBoard next)
    (hfree : ∀ i, i + 1 < newLength → game.body i ≠ next)
    {food : Point} (hfood : OnBoard food)
    (hfoodFree : ∀ i < newLength, pushed next newLength game.body i ≠ food)
    (state : UInt32) (screen : Terminal) :
    Playing { game with
      direction := game.requestedDirection
      body := pushed next newLength game.body
      length := newLength
      food := food
      randomState := state
      screen := screen } where
  lies := hplaying.lies.push hmin hgrow hmax hboard
    (hnext ▸ adjacent_advance _ _) hfree
  foodOnBoard := hfood
  foodFree := hfoodFree
  heading := by
    have hlength := hplaying.lies.min
    change pushed next newLength game.body 0 =
      advance game.requestedDirection (pushed next newLength game.body 1)
    rw [pushed_zero, pushed_succ (by omega), hnext]
  turning := isOpposite_self _

/-- A move ends the game or keeps it in order. -/
theorem Playing.move (hplaying : Playing game) :
    ∃ result, game.move = some result ∧
      (result.1.running = false ∨ Playing result.1) := by
  have hmin := hplaying.lies.min
  have hmax := hplaying.lies.max
  unfold Game.move
  dsimp only
  generalize hnext : advance game.requestedDirection (game.body 0) = next
  by_cases hate : next = game.food
  · subst hate
    simp only [if_true, true_and]
    split
    · refine ⟨_, rfl, .inl ?_⟩
      rfl
    rename_i hsafe
    simp only [not_or, Int.not_lt, gt_iff_lt, Bool.not_eq_true] at hsafe
    obtain ⟨hleft, hright, htop, hbottom, hclear⟩ := hsafe
    generalize hgrown : (if game.length < maxSegments then game.length + 1
      else game.length) = newLength
    have hnewLength : game.length ≤ newLength ∧ newLength ≤ game.length + 1 ∧
        newLength ≤ maxSegments := by
      split at hgrown <;> omega
    obtain ⟨hge, hle, hnewMax⟩ := hnewLength
    obtain ⟨food, state, hspawn, hfood, hfree⟩ := @spawnFood_spec
      { game with
        direction := game.requestedDirection
        body := pushed game.food newLength game.body
        length := newLength } hnewMax
    refine ⟨_, congrArg (Option.map _) hspawn, .inr ?_⟩
    refine hplaying.push hnext hge hle hnewMax
      ⟨hleft, hright, htop, hbottom⟩ (fun i hi => ?_) hfood hfree _ _
    exact occupies_eq_false.mp hclear i (by omega)
  · simp only [hate, if_false, false_and]
    split
    · refine ⟨_, rfl, .inl ?_⟩
      rfl
    rename_i hsafe
    simp only [not_or, Int.not_lt, gt_iff_lt, Bool.not_eq_true] at hsafe
    obtain ⟨hleft, hright, htop, hbottom, hclear⟩ := hsafe
    refine ⟨_, rfl, .inr ?_⟩
    refine hplaying.push hnext le_rfl (by omega) hmax
      ⟨hleft, hright, htop, hbottom⟩ (fun i hi => ?_) hplaying.foodOnBoard
      (fun i hi => ?_) _ _
    · exact occupies_eq_false.mp hclear i (by omega)
    · cases i with
      | zero =>
          rw [pushed_zero]
          exact hate
      | succ i =>
          rw [pushed_succ hi]
          exact hplaying.foodFree i (by omega)

theorem Playing.tick (hplaying : Playing game) :
    ∃ result, game.tick = some result ∧
      (result.1.running = false ∨ Playing result.1) := by
  rw [Game.tick]
  split
  · rename_i hstopped
    exact ⟨_, rfl, .inl (by simpa using hstopped)⟩
  split
  · exact ⟨_, rfl, .inr ⟨hplaying.lies, hplaying.foodOnBoard,
      hplaying.foodFree, hplaying.heading, hplaying.turning⟩⟩
  · have hreset : Playing { game with tickCount := 0 } :=
      ⟨hplaying.lies, hplaying.foodOnBoard, hplaying.foodFree,
        hplaying.heading, hplaying.turning⟩
    exact hreset.move

inductive Call where
  | handleKey (key : UInt8)
  | tick

def Game.perform (game : Game) : Call → Option Game
  | .handleKey key => some (game.handleKey key)
  | .tick => game.tick.map Prod.fst

def Game.performAll (game : Game) : List Call → Option Game
  | [] => some game
  | call :: rest => (game.perform call).bind fun game => game.performAll rest

theorem handleKey_running (key : UInt8) :
    (game.handleKey key).running = game.running := by
  rw [Game.handleKey]
  split
  · rfl
  · split <;> rfl

/-- A call neither hangs nor spoils a running game, and a game that is over
stays so. -/
theorem perform_spec (hgame : game.running = true → Playing game)
    (call : Call) : ∃ game', game.perform call = some game' ∧
      (game'.running = true → Playing game') := by
  cases call with
  | handleKey key =>
      refine ⟨_, rfl, fun hrunning => ?_⟩
      rw [handleKey_running] at hrunning
      exact (hgame hrunning).handleKey key
  | tick =>
      by_cases hrunning : game.running = true
      · obtain ⟨result, htick, hresult⟩ := (hgame hrunning).tick
        refine ⟨result.1, congrArg (Option.map Prod.fst) htick, fun hlater => ?_⟩
        refine hresult.resolve_left fun hover => ?_
        rw [hover] at hlater
        cases hlater
      · refine ⟨game, ?_, fun hlater => absurd hlater hrunning⟩
        simp [Game.perform, Game.tick, hrunning]

theorem performAll_spec (hgame : game.running = true → Playing game)
    (calls : List Call) : ∃ game', game.performAll calls = some game' ∧
      (game'.running = true → Playing game') := by
  induction calls generalizing game with
  | nil => exact ⟨game, rfl, hgame⟩
  | cons call rest ih =>
      obtain ⟨between, hcall, hbetween⟩ := perform_spec hgame call
      obtain ⟨game', hrest, hgame'⟩ := ih hbetween
      refine ⟨game', ?_, hgame'⟩
      rw [Game.performAll, hcall, Option.bind_some, hrest]

/-- Whatever keys are pressed, the game is in order for as long as it is
running. -/
theorem running_game_sound (game : Game) (calls : List Call) :
    ∃ game', (game.start.bind fun game => game.performAll calls) =
        some game' ∧ (game'.running = true → Sound game') := by
  obtain ⟨started, hstart, hplaying⟩ := start_playing game
  obtain ⟨game', hcalls, hgame'⟩ := performAll_spec (fun _ => hplaying) calls
  refine ⟨game', ?_, fun hrunning => (hgame' hrunning).sound⟩
  rw [hstart, Option.bind_some, hcalls]

end Snake

end VenomOS
