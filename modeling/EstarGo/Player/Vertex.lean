import EstarGo.Board.Game
import EstarGo.Board.Rules
import EstarGo.Player.Player

/-!
# The vertices of `play`

A vertex is a letter from A to T without I, in either case, followed by a number
of at most 19 that is not zero.  `play` does not check this: it computes an
action from the first character and from what `atoi` reads in the rest, and
leaves the refusal to `apply_move`.

## Main definitions

* `namedPoint` — the grammar: the point that a vertex names.
* `VertexRespected` — what the grammar promises of a text.
* `Harmless` — the texts that `play` treats so.

## Main results

* `vertexAction_of_namedPoint`: the action of a proper vertex is that of its
  point.
* `vertexRespected_iff`: when `play` treats a text as the grammar of vertices
  says.

## Design notes

Three things can go wrong with a text, and the condition names them.

* **A negative action** is a pass to `apply_move`, which appends two characters
  that are no token.
* **An action of a point that the text does not name** is accepted where the
  vendored board takes its coordinate.  That may be another point, or a
  coordinate past the arrays of the board: `A21` has the action 380, and the
  board reads the coordinate 442 of arrays of 441.
* **A proper vertex with a legal move** leaves no stone where the move is a
  suicide, and ends the process where an assertion of the board fails.

**The board is a parameter.**  The rules of Go are all that is assumed of it,
and they speak of points.  What it answers for other coordinates, and when it
stops, stands in the condition by the board's own two functions.
-/

namespace EstarGo

open Verif Verif.Go GoBoard

/-! ## The grammar -/

/-- The letters of the columns, without I, which is left out on Go boards.
Their places in the list are the columns' numbers. -/
def columnLetters : List Char := "ABCDEFGHJKLMNOPQRST".toList

/-- The number that digits denote. -/
def decimal (digits : List Char) : ℕ := digits.foldl (fun n c => n * 10 + (c.toNat - 48)) 0

/-- The point that a vertex names: row by number, column by letter.  This is the
grammar of the protocol, written down without looking at the parser of
`play`. -/
def namedPoint : List Char → Option Point
  | [] => none
  | letter :: digits =>
      if letter.toUpper ∈ columnLetters ∧ digits ≠ [] ∧ digits.all Char.isDigit = true ∧
          1 ≤ decimal digits ∧ decimal digits ≤ 19 then
        some (Fin.ofNat 19 (decimal digits - 1), Fin.ofNat 19 (columnLetters.idxOf letter.toUpper))
      else none

/-! ## The action of a vertex

What `atoi` reads of the digits of a vertex, and what the letter adds. -/

/-- A digit has the code of a digit. -/
theorem toNat_of_isDigit {c : Char} (h : c.isDigit = true) : 48 ≤ c.toNat ∧ c.toNat ≤ 57 := by
  simp only [Char.isDigit, Bool.and_eq_true, decide_eq_true_eq, UInt32.le_iff_toNat_le,
    ge_iff_le] at h
  exact h

/-- On digits only, `strtol` reads the number that they denote. -/
theorem strtolDigits_eq {digits : List Char} (h : digits.all Char.isDigit = true) (n : ℕ) :
    strtolDigits digits n =
      ((digits.foldl (fun n c => n * 10 + (c.toNat - 48)) n : ℕ) : ℤ) := by
  induction digits generalizing n with
  | nil => rfl
  | cons c digits ih =>
      rw [List.all_cons, Bool.and_eq_true] at h
      obtain ⟨hc, hdigits⟩ := h
      have hstep : (n : ℤ) * 10 + ((c.toNat : ℤ) - 48) = ((n * 10 + (c.toNat - 48) : ℕ) : ℤ) := by
        have := toNat_of_isDigit hc
        omega
      rw [strtolDigits, if_pos hc, hstep, ih hdigits, List.foldl_cons]

/-- A digit is no space, so nothing is skipped. -/
theorem isSpace_of_isDigit {c : Char} (h : c.isDigit = true) : isSpace c = false := by
  have hval := toNat_of_isDigit h
  have hne : c ≠ ' ' := by
    rintro rfl
    exact absurd h (by decide)
  simp only [isSpace, hne, decide_false, Bool.false_or, Bool.and_eq_false_iff,
    decide_eq_false_iff_not]
  omega

/-- An `int` keeps a small number. -/
theorem toInt_of_small {x : ℤ} (nonneg : 0 ≤ x) (lt : x < 2 ^ 31) : toInt x = x := by
  unfold toInt
  rw [Int.bmod_eq_of_le] <;> omega

theorem atoi_of_digits {digits : List Char} (ne : digits ≠ []) (h : digits.all Char.isDigit = true)
    (small : decimal digits ≤ 19) : atoi digits = decimal digits := by
  cases digits with
  | nil => exact absurd rfl ne
  | cons c rest =>
      have hc : c.isDigit = true := by
        rw [List.all_cons, Bool.and_eq_true] at h
        exact h.1
      have hsigned : strtolSigned (c :: rest) = (decimal (c :: rest) : ℤ) := by
        unfold strtolSigned
        split
        · next heq =>
            obtain ⟨rfl, -⟩ := List.cons.inj heq
            exact absurd hc (by decide)
        · next heq =>
            obtain ⟨rfl, -⟩ := List.cons.inj heq
            exact absurd hc (by decide)
        · exact strtolDigits_eq h 0
      have hread : strtol (c :: rest) = decimal (c :: rest) := by
        rw [strtol, List.dropWhile_cons_of_neg (by simp [isSpace_of_isDigit hc]), hsigned]
        omega
      rw [atoi, hread, toInt_of_small] <;> omega

/-- The column of a letter is its place among the letters. -/
theorem column_of_mem : ∀ c ∈ columnLetters,
    charValue c - 65 - (if charValue c > 73 then 1 else 0) = columnLetters.idxOf c := by
  have all : columnLetters.all (fun c => decide (charValue c - 65 -
      (if charValue c > 73 then 1 else 0) = columnLetters.idxOf c)) = true := by decide
  exact fun c hc => of_decide_eq_true (List.all_eq_true.mp all c hc)

/-- **The action of a proper vertex is that of its point.**  Letters may be
small or capital, and the number may have leading zeros; `atoi` reads it
whole. -/
theorem vertexAction_of_namedPoint {text : List Char} {p : Point} (h : namedPoint text = some p) :
    vertexAction text = pos p := by
  cases text with
  | nil => exact absurd h (by simp [namedPoint])
  | cons letter digits =>
      rw [namedPoint] at h
      split at h
      · next hproper =>
          obtain ⟨hletter, hne, hdigits, hone, hnineteen⟩ := hproper
          obtain rfl := Option.some.inj h
          have hcol := column_of_mem _ hletter
          have hlt : columnLetters.idxOf letter.toUpper < 19 := List.idxOf_lt_length_iff.mpr hletter
          have hatoi := atoi_of_digits hne hdigits hnineteen
          unfold vertexAction
          dsimp only [List.headD_cons, List.tail_cons]
          rw [hatoi, hcol]
          have hpos : ((decimal digits : ℤ) - 1) * 19 +
                (columnLetters.idxOf letter.toUpper : ℤ) =
              ((columnLetters.idxOf letter.toUpper % 19 +
                19 * ((decimal digits - 1) % 19) : ℕ) : ℤ) := by
            omega
          rw [hpos, toInt_of_small (by omega) (by omega)]
          rfl
      · exact absurd h (by simp)

/-! ## What `play` does with a vertex

The three outcomes, whatever the text is. -/

namespace Player

variable {B K : Type} [Field K] {P : Pachi B} {s : Player B K} {text : List Char}

/-- `play` takes the text for a vertex: there is a root, the rollouts have not
stopped, and the text is neither of the two words. -/
structure TakesVertex (s : Player B K) (text : List Char) : Prop where
  root : s.root.isSome = true
  going : s.stopRollout = false
  resign : strcasecmp text ['r', 'e', 's', 'i', 'g', 'n'] = false
  pass : strcasecmp text ['p', 'a', 's', 's'] = false

/-- Without a root, an assertion fails. -/
theorem play_of_root_eq_none (hroot : s.root = none) : s.play P text = none := by
  rw [play, hroot]
  rfl

/-- While the rollouts are stopped, `play` does nothing. -/
theorem play_of_stopRollout {root : ℕ} (hroot : s.root = some root)
    (stopped : s.stopRollout = true) : s.play P text = some s := by
  rw [play, hroot, Option.bind_some, if_pos stopped]

/-- A vertex whose action is refused ends the process. -/
theorem play_of_refused (takes : s.TakesVertex text)
    (refused : (applyMove P s.rootBoard (vertexAction text)).1 = false) :
    s.play P text = none := by
  obtain ⟨root, hroot⟩ := Option.isSome_iff_exists.mp takes.root
  have hmove : applyMove P s.rootBoard (vertexAction text) = (false, _) := Prod.ext refused rfl
  rw [play, hroot, Option.bind_some, if_neg (by simp [takes.going]),
    if_neg (by simp [takes.resign])]
  simp only [takes.pass, Bool.false_eq_true, if_false]
  rw [hmove]
  exact ite_self _

/-- So does one whose move an assertion of the board stops. -/
theorem play_of_stopped (takes : s.TakesVertex text)
    (stopped : s.rootBoard.withstands P (vertexAction text) = false) : s.play P text = none := by
  obtain ⟨root, hroot⟩ := Option.isSome_iff_exists.mp takes.root
  rw [play, hroot, Option.bind_some, if_neg (by simp [takes.going]),
    if_neg (by simp [takes.resign])]
  simp only [takes.pass, Bool.false_eq_true, if_false]
  rw [stopped]
  rfl

/-- A vertex is accepted with its action, and the board is the one `apply_move`
leaves. -/
theorem play_of_accepted (takes : s.TakesVertex text) {board : GoBoard B}
    (accepted : applyMove P s.rootBoard (vertexAction text) = (true, board))
    (withstood : s.rootBoard.withstands P (vertexAction text) = true) :
    ∃ s', s.play P text = some s' ∧ s'.rootBoard = board := by
  obtain ⟨root, hroot⟩ := Option.isSome_iff_exists.mp takes.root
  rw [play, hroot, Option.bind_some, if_neg (by simp [takes.going]),
    if_neg (by simp [takes.resign])]
  simp only [takes.pass, Bool.false_eq_true, if_false]
  rw [withstood, accepted, if_neg (by simp)]
  dsimp only
  split
  · exact ⟨_, rfl, rfl⟩
  · exact ⟨_, rfl, rfl⟩

end Player

/-! ## The grammar and the code

The vendored board is any that follows the rules of Go: nothing is known of the
coordinates that are no points, nor of when its assertions fail. -/

namespace Player

section

variable {B K : Type} [Field K] (P : Pachi B) (boardAt : B → Point → Option Color)

/-- The point is a legal move for the side to move.  `play` asks for no colour,
and a session drops the one that its command line gives. -/
def Legal (s : Player B K) (p : Point) : Prop :=
  P.isValidMove s.rootBoard.b s.rootBoard.getColor (coord p) = true

/-- The move removes its own stone: the group of the stone has no liberty after
the captures. -/
def Suicides (s : Player B K) (p : Point) : Prop :=
  ¬ HasLiberty adjacent (afterCapture adjacent Color.other (boardAt s.rootBoard.b)
    s.rootBoard.getColor p) s.rootBoard.getColor p

/-- The stone stands on the point, and no other stone is new. -/
structure Stands (s s' : Player B K) (p : Point) : Prop where
  there : boardAt s'.rootBoard.b p = some s.rootBoard.getColor
  only : ∀ q c, q ≠ p → boardAt s'.rootBoard.b q = some c → boardAt s.rootBoard.b q = some c

/-- What the grammar of vertices promises of a text: a stone where it names a
legal move, and no token where it does not. -/
structure VertexRespected (s : Player B K) (text : List Char) : Prop where
  /-- A stone is played exactly for a vertex that names a legal move. -/
  accepted : (∃ s', s.play P text = some s' ∧ boardAt s'.rootBoard.b ≠ boardAt s.rootBoard.b) ↔
    ∃ p, namedPoint text = some p ∧ s.Legal P p
  /-- It stands on the point that the vertex names. -/
  stands : ∀ p s', namedPoint text = some p → s.Legal P p → s.play P text = some s' →
    s.Stands boardAt s' p
  /-- Any other text leaves no token. -/
  refused : (¬ ∃ p, namedPoint text = some p ∧ s.Legal P p) →
    ∀ s', s.play P text = some s' → s'.rootBoard.history = s.rootBoard.history

/-- The vendored board allows the action of a text, and its assertions hold.
The coordinate may be one past the points of the board, about which the rules of
Go have nothing to say. -/
def Admits (s : Player B K) (text : List Char) : Prop :=
  let xy := ((vertexAction text).toNat % 19 + 1, (vertexAction text).toNat / 19 + 1)
  P.isValidMove s.rootBoard.b s.rootBoard.getColor xy = true ∧
    P.asserted (P.play s.rootBoard.b s.rootBoard.getColor xy) = true

/-- The texts that `play` treats so.

* A proper vertex: its move is not legal; or `play` goes on, the move is no
  suicide and no assertion of the board stops it.
* Any other text: `play` does nothing; or its action is no pass, and the board
  does not take the coordinate of the action, be it on the board, on its margin
  or past its arrays. -/
def Harmless (s : Player B K) (text : List Char) : Prop :=
  match namedPoint text with
  | some p => s.Legal P p → (s.root.isSome = true ∧ s.stopRollout = false) ∧
      ¬ s.Suicides boardAt p ∧
        P.asserted (P.play s.rootBoard.b s.rootBoard.getColor (coord p)) = true
  | none => (s.root.isSome = true ∧ s.stopRollout = false) → 0 ≤ vertexAction text ∧
      ¬ s.Admits P text

end

variable {B K : Type} [Field K] {P : Pachi B} {boardAt : B → Point → Option Color}
  {represents : B → Position Point Color → Prop} {s : Player B K} {text : List Char}

/-- A player without a root, or whose rollouts have stopped, changes nothing. -/
theorem play_of_idle (idle : ¬ (s.root.isSome = true ∧ s.stopRollout = false)) :
    s.play P text = none ∨ s.play P text = some s := by
  cases hroot : s.root with
  | none => exact .inl (play_of_root_eq_none hroot)
  | some root =>
      right
      refine play_of_stopRollout hroot ?_
      rw [hroot] at idle
      simpa using idle

/-- Nothing is promised of a player that changes nothing, but the refusal. -/
theorem vertexRespected_of_idle (idle : ¬ (s.root.isSome = true ∧ s.stopRollout = false)) :
    s.VertexRespected P boardAt text ↔ ¬ ∃ p, namedPoint text = some p ∧ s.Legal P p := by
  have unchanged (s' : Player B K) (h : s.play P text = some s') : s' = s := by
    have still : s.play P text = none ∨ s.play P text = some s := play_of_idle idle
    rcases still with hplay | hplay
    · exact absurd (hplay.symm.trans h) (by simp)
    · exact (Option.some.inj (hplay.symm.trans h)).symm
  have hnothing :
      ¬ ∃ s', s.play P text = some s' ∧ boardAt s'.rootBoard.b ≠ boardAt s.rootBoard.b := by
    rintro ⟨s', h, hne⟩
    exact hne (by rw [unchanged s' h])
  constructor
  · intro h hlegal
    exact hnothing (h.accepted.mpr hlegal)
  · intro h
    exact ⟨iff_of_false hnothing h, fun p s' hp hlegal => absurd ⟨p, hp, hlegal⟩ h,
      fun _ s' hs' => by rw [unchanged s' hs']⟩

/-- A text that names no legal move is treated rightly where `play` ends the
process. -/
theorem vertexRespected_of_none (nothing : s.play P text = none)
    (hnone : ¬ ∃ p, namedPoint text = some p ∧ s.Legal P p) :
    s.VertexRespected P boardAt text := by
  have unplayed (s' : Player B K) (h : s.play P text = some s') : False :=
    Option.some_ne_none _ (h.symm.trans nothing)
  exact ⟨iff_of_false (fun ⟨s', h, _⟩ => unplayed s' h) hnone,
    fun _ s' _ _ h => (unplayed s' h).elim, fun _ s' h => (unplayed s' h).elim⟩

/-- A text that is no vertex is treated rightly where `play` does not come to
its end: the history of an accepted move is longer. -/
theorem vertexRespected_of_malformed (takes : s.TakesVertex text)
    (malformed : namedPoint text = none) :
    s.VertexRespected P boardAt text ↔ ¬ ((applyMove P s.rootBoard (vertexAction text)).1 = true ∧
      s.rootBoard.withstands P (vertexAction text) = true) := by
  have hnone : ¬ ∃ p, namedPoint text = some p ∧ s.Legal P p := by
    rintro ⟨p, hp, -⟩
    exact absurd (malformed.symm.trans hp) (by simp)
  by_cases ended : (applyMove P s.rootBoard (vertexAction text)).1 = true ∧
      s.rootBoard.withstands P (vertexAction text) = true
  · obtain ⟨accepted, withstood⟩ := ended
    have hmove : applyMove P s.rootBoard (vertexAction text) =
        (true, (applyMove P s.rootBoard (vertexAction text)).2) := Prod.ext accepted rfl
    obtain ⟨s', hplay, hboard⟩ := play_of_accepted takes hmove withstood
    refine iff_of_false (fun h => ?_) (not_not_intro ⟨accepted, withstood⟩)
    have hhistory := h.refused hnone s' hplay
    rw [hboard, history_applyMove hmove] at hhistory
    have hlen := congrArg List.length hhistory
    rw [List.length_append, length_token] at hlen
    omega
  · refine iff_of_true (vertexRespected_of_none ?_ hnone) ended
    by_cases accepted : (applyMove P s.rootBoard (vertexAction text)).1 = true
    · exact play_of_stopped takes (Bool.not_eq_true _ ▸ fun h => ended ⟨accepted, h⟩)
    · exact play_of_refused takes (Bool.not_eq_true _ ▸ accepted)

omit [Field K] in
/-- What is admitted is applied, and the board withstands it. -/
theorem admits_iff (nonneg : 0 ≤ vertexAction text) :
    (applyMove P s.rootBoard (vertexAction text)).1 = true ∧
      s.rootBoard.withstands P (vertexAction text) = true ↔ s.Admits P text := by
  rw [applyMove_fst nonneg]
  exact and_congr_right fun valid => by rw [withstands_of_valid nonneg valid]

omit [Field K] in
theorem applyMove_of_named {p : Point} (named : namedPoint text = some p) :
    (applyMove P s.rootBoard (vertexAction text)).1 =
        P.isValidMove s.rootBoard.b s.rootBoard.getColor (coord p) ∧
      (s.Legal P p → (applyMove P s.rootBoard (vertexAction text)).2.b =
          P.play s.rootBoard.b s.rootBoard.getColor (coord p) ∧
        s.rootBoard.withstands P (vertexAction text) =
          P.asserted (P.play s.rootBoard.b s.rootBoard.getColor (coord p))) := by
  have haction := vertexAction_of_namedPoint named
  have hnonneg : 0 ≤ vertexAction text := haction ▸ Int.natCast_nonneg _
  have hcoord : ((vertexAction text).toNat % 19 + 1, (vertexAction text).toNat / 19 + 1) =
      coord p := by
    rw [haction, Int.toNat_natCast, coord_of_pos]
  refine ⟨by rw [applyMove_fst hnonneg, hcoord], fun legal => ?_⟩
  have valid : P.isValidMove s.rootBoard.b s.rootBoard.getColor
      ((vertexAction text).toNat % 19 + 1, (vertexAction text).toNat / 19 + 1) = true := by
    rw [hcoord]
    exact legal
  constructor
  · have hsucc : (applyMove P s.rootBoard (vertexAction text)).1 = true :=
      (applyMove_fst hnonneg).trans valid
    obtain ⟨board, hmove⟩ : ∃ board, applyMove P s.rootBoard (vertexAction text) = (true, board) :=
      ⟨_, Prod.ext hsucc rfl⟩
    obtain ⟨played, hplayed, rfl⟩ := applyMove_stone hnonneg hmove
    rw [hmove]
    have hb := _applyMove_b_of_valid valid
    rw [hplayed, hcoord] at hb
    exact hb
  · rw [withstands_of_valid hnonneg valid, hcoord]

/-- A vertex with a legal move is treated rightly where the stone stays and no
assertion stops the move. -/
theorem vertexRespected_of_legal (rules : FollowsRules P boardAt represents)
    {position : Position Point Color} (holds : represents s.rootBoard.b position)
    (takes : s.TakesVertex text) {p : Point} (named : namedPoint text = some p)
    (legal : s.Legal P p) :
    s.VertexRespected P boardAt text ↔ ¬ s.Suicides boardAt p ∧
      P.asserted (P.play s.rootBoard.b s.rootBoard.getColor (coord p)) = true := by
  obtain ⟨hsucc, happlied⟩ := applyMove_of_named (s := s) (P := P) named
  obtain ⟨hb, hstands⟩ := happlied legal
  have lawful := (rules.isValidMove holds _ p).mp legal
  have after := rules.stone (rules.play holds _ p lawful)
  have before : boardAt s.rootBoard.b = position.stone := funext (rules.stone holds)
  have hself : boardAt (P.play s.rootBoard.b s.rootBoard.getColor (coord p)) p =
      some s.rootBoard.getColor ↔ ¬ s.Suicides boardAt p := by
    rw [after, stone_play_self_iff (Color.other_ne _), ← before, Suicides, not_not]
  have unique (q : Point) (hq : namedPoint text = some q) : q = p :=
    (Option.some.inj (named.symm.trans hq)).symm
  by_cases withstood : s.rootBoard.withstands P (vertexAction text) = true
  · rw [and_iff_left (hstands ▸ withstood)]
    obtain ⟨board, hmove⟩ : ∃ board, applyMove P s.rootBoard (vertexAction text) = (true, board) :=
      ⟨_, Prod.ext (hsucc.trans legal) rfl⟩
    obtain ⟨s', hplay, hboard⟩ := play_of_accepted takes hmove withstood
    rw [hmove, ← hboard] at hb
    rw [← hb] at hself after
    constructor
    · intro h
      exact hself.mp (h.stands p s' named legal hplay).there
    · intro stays
      have there := hself.mpr stays
      refine ⟨iff_of_true ⟨s', hplay, fun same => ?_⟩ ⟨p, named, legal⟩, ?_,
        fun h => absurd ⟨p, named, legal⟩ h⟩
      · -- the point was empty
        rw [same, before, lawful.1] at there
        exact Option.some_ne_none _ there.symm
      · intro q t hq _ ht
        obtain rfl := unique q hq
        obtain rfl := Option.some.inj (hplay.symm.trans ht)
        refine ⟨there, fun u c hne hc => ?_⟩
        rw [after] at hc
        rw [before]
        exact stone_of_play hne hc
  · refine iff_of_false (fun h => ?_) fun h => withstood (hstands.trans h.2)
    obtain ⟨s', hplay, -⟩ := h.accepted.mpr ⟨p, named, legal⟩
    rw [play_of_stopped takes (Bool.not_eq_true _ ▸ withstood)] at hplay
    exact Option.some_ne_none _ hplay.symm

/-- A vertex whose move is not legal is treated rightly. -/
theorem vertexRespected_of_illegal (takes : s.TakesVertex text) {p : Point}
    (named : namedPoint text = some p) (illegal : ¬ s.Legal P p) :
    s.VertexRespected P boardAt text := by
  obtain ⟨hsucc, -⟩ := applyMove_of_named (s := s) (P := P) named
  refine vertexRespected_of_none
    (play_of_refused takes (hsucc.trans (Bool.not_eq_true _ ▸ illegal))) ?_
  rintro ⟨q, hq, hlegal⟩
  obtain rfl := Option.some.inj (named.symm.trans hq)
  exact illegal hlegal

/-- **The vertices of `play`.**  On any board that follows the rules, a text is
treated as the grammar says if and only if it is harmless. -/
theorem vertexRespected_iff (rules : FollowsRules P boardAt represents)
    {position : Position Point Color} (holds : represents s.rootBoard.b position)
    (resign : strcasecmp text ['r', 'e', 's', 'i', 'g', 'n'] = false)
    (pass : strcasecmp text ['p', 'a', 's', 's'] = false) :
    s.VertexRespected P boardAt text ↔ s.Harmless P boardAt text := by
  by_cases idle : ¬ (s.root.isSome = true ∧ s.stopRollout = false)
  · -- `play` does nothing, which is wrong for a legal move only
    rw [vertexRespected_of_idle idle]
    unfold Harmless
    cases named : namedPoint text with
    | none => exact iff_of_true (by rintro ⟨p, hp, -⟩; exact absurd hp (by simp)) (absurd · idle)
    | some p =>
        constructor
        · exact fun h hlegal => absurd ⟨p, rfl, hlegal⟩ h
        · rintro h ⟨q, hq, hlegal⟩
          obtain rfl := Option.some.inj hq
          exact idle (h hlegal).1
  · have busy := not_not.mp idle
    have takes : s.TakesVertex text := ⟨busy.1, busy.2, resign, pass⟩
    unfold Harmless
    cases named : namedPoint text with
    | none =>
        rw [vertexRespected_of_malformed takes named]
        dsimp only
        rw [imp_iff_right busy]
        by_cases nonneg : 0 ≤ vertexAction text
        · rw [admits_iff nonneg, and_iff_right nonneg]
        · -- a negative action is a pass
          rw [applyMove, if_neg nonneg, withstands_of_neg (not_le.mp nonneg)]
          exact iff_of_false (by simp) fun h => nonneg h.1
    | some p =>
        by_cases hlegal : s.Legal P p
        · rw [vertexRespected_of_legal rules holds takes named hlegal]
          dsimp only
          rw [imp_iff_right hlegal, and_iff_right busy]
        · exact iff_of_true (vertexRespected_of_illegal takes named hlegal)
            (absurd · hlegal)

/-- On the empty board a stone beside nothing stays. -/
theorem vertexRespected_newGame : newGame.VertexRespected pachi Stones.stoneOn "D4".toList := by
  have placed : newGame.rootBoard.b.WellPlaced := ⟨List.nodup_nil, by decide⟩
  refine (vertexRespected_iff pachi_followsRules (Stones.represents_position placed) (by decide)
    (by decide)).mpr ?_
  show newGame.Legal pachi (3, 3) → _ ∧ ¬ newGame.Suicides Stones.stoneOn (3, 3) ∧ _
  refine fun _ => ⟨⟨rfl, rfl⟩, not_not_intro ?_, by decide +kernel⟩
  exact hasLiberty_of_free (e := (3, 4)) (.inl ⟨rfl, .inl rfl⟩) rfl (by decide)

/-- The row zero is the row before the first one, so its action is negative, and
`apply_move` takes it for a move without a stone: `play` passes, with a token
that is none. -/
theorem not_vertexRespected_newGame :
    ¬ newGame.VertexRespected pachi Stones.stoneOn "A0".toList := by
  have takes : newGame.TakesVertex "A0".toList := ⟨rfl, rfl, by decide, by decide⟩
  rw [vertexRespected_of_malformed takes (by decide)]
  decide +kernel

end Player

end EstarGo
