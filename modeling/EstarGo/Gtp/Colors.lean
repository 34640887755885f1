import EstarGo.Gtp.Session
import EstarGo.Player.Vertex

/-!
# The colors of a session

`play` and `genmove` name a color, and neither uses it: a stone has the color
that the length of the history gives.  Between two `genmove` a pass is inserted,
so that they alternate; between two `play`, or a `play` and a `genmove`, nothing
is.

## Main definitions

* `InTurn` — a line that names the color to move.
* `ColorsRespected` — the stones that a line adds have the color it names.

## Main results

* `new_stone_color`: a move adds stones of the color to move only.
* `colors_respected`: where each command that may put a stone names the color to
  move, every stone has the color that its command names.
* `colors_not_respected`: a first move that names the wrong one.

## Design notes

**Stones on points.**  The statement is about the stones of the board before and
after a line, whatever the history says.  A move at a coordinate past the arrays
adds a token and no stone on a point.
-/

namespace EstarGo

open Verif Verif.Go GoBoard

/-! ## The stones of a move

A legal move of the abstract rules, with the color of its stone. -/

namespace Stones

variable {b b' : Stones} {k c : Color} {p q : Point}

/-- The stones alone say whether they are well placed. -/
theorem WellPlaced.of_eq (placed : b.WellPlaced) (same : b'.stones = b.stones) : b'.WellPlaced :=
  ⟨same ▸ placed.nodup, same ▸ placed.onBoard⟩

theorem stoneOn_of_eq (same : b'.stones = b.stones) (p : Point) : b'.stoneOn p = b.stoneOn p :=
  congrArg (List.lookup (index p)) same

/-- A new stone of a legal move stands on its point, and is the one played. -/
theorem color_of_stoneOn_play (placed : b.WellPlaced) (valid : b.isValidMove k (coord p) = true)
    (h : (b.play k (coord p)).stoneOn q = some c) (new : b.stoneOn q ≠ some c) : c = k := by
  have hrep := represents_position placed
  have hplay := represents_play hrep k p ((isValidMove_iff hrep k p).mp valid)
  rw [hplay.stone] at h
  by_cases here : q = p
  · subst here
    exact color_of_play k.other_ne h
  · exact absurd (stone_of_play here h) new

/-- A move within the arrays is at a point. -/
theorem exists_point {action : ℕ}
    (valid : b.isValidMove k (action % 19 + 1, action / 19 + 1) = true)
    (inside : coordXy (action % 19 + 1, action / 19 + 1) < boardMaxCoords) :
    ∃ p, pos p = action := by
  obtain ⟨p, hp⟩ := exists_index (onBoard_of_isValidMove valid inside).1
  rw [index_eq, coordXy] at hp
  refine ⟨p, ?_⟩
  unfold pos
  omega

end Stones

/-- The board is as it was, or one move on.  A handler changes the board of the
root by one accepted move at most, but for the pass that a `genmove` may imply
before it. -/
def GoBoard.MovesTo {B : Type} (P : Pachi B) (board board' : GoBoard B) : Prop :=
  board' = board ∨ ∃ action, applyMove P board action = (true, board')

section

variable {board board' : GoBoard Stones}

/-- `_apply_move` plays a legal stone, or none on a point. -/
theorem stone_of_accepted {action : ℕ} {k : Color}
    (h : _applyMove pachi board action k = (true, board')) :
    board'.b.stones = board.b.stones ∨ ∃ p, board.b.isValidMove k (coord p) = true ∧
      board'.b = board.b.play k (coord p) := by
  have valid : board.b.isValidMove k (action % 19 + 1, action / 19 + 1) = true :=
    congrArg Prod.fst h
  have hstone : (_applyMove pachi board action k).2.b =
      pachi.play board.b k (action % 19 + 1, action / 19 + 1) := _applyMove_b_of_valid valid
  rw [h] at hstone
  by_cases inside : Stones.coordXy (action % 19 + 1, action / 19 + 1) < boardMaxCoords
  · obtain ⟨p, rfl⟩ := Stones.exists_point valid inside
    rw [coord_of_pos] at valid hstone
    exact .inr ⟨p, valid, hstone⟩
  · rw [hstone]
    exact .inl (Stones.stones_play_of_outside (Nat.le_of_not_lt inside))

/-- An accepted move plays no stone, or a legal one of the color to move. -/
theorem b_of_applyMove {action : ℤ} (h : applyMove pachi board action = (true, board')) :
    board'.b.stones = board.b.stones ∨
      ∃ p, board.b.isValidMove board.getColor (coord p) = true ∧
        board'.b = board.b.play board.getColor (coord p) := by
  by_cases nonneg : 0 ≤ action
  · obtain ⟨played, hplayed, rfl⟩ := applyMove_stone nonneg h
    have moved := stone_of_accepted hplayed
    exact moved
  · left
    rw [applyMove_neg nonneg h]
    rfl

/-- A move leaves the stones well placed. -/
theorem wellPlaced_of_movesTo (placed : board.b.WellPlaced) (moves : MovesTo pachi board board') :
    board'.b.WellPlaced := by
  rcases moves with rfl | ⟨action, hmove⟩
  · exact placed
  · rcases b_of_applyMove hmove with same | ⟨p, valid, played⟩
    · exact placed.of_eq same
    · rw [played]
      exact Stones.wellPlaced_play placed valid

/-- The stones after a replay are well placed. -/
theorem wellPlaced_of_replay {step : ℕ} {history : List UInt8} (placed : board.b.WellPlaced)
    (h : replay pachi step history board = some board') : board'.b.WellPlaced := by
  fun_induction replay pachi step history board with
  | case1 step hi lo rest board ne nonneg next accepted ih =>
      refine ih ?_ h
      rcases stone_of_accepted accepted with same | ⟨p, valid, played⟩
      · exact placed.of_eq same
      · rw [played]
        exact Stones.wellPlaced_play placed valid
  | case2 => cases h
  | case3 => cases h
  | case4 step hi lo rest board pass ih => exact ih placed h
  | case5 =>
      obtain rfl := Option.some.inj h
      exact placed

/-- The stones of a game are well placed. -/
theorem wellPlaced_of_applyHistory {history : List UInt8}
    (h : applyHistory pachi (new pachi) history = some board) : board.b.WellPlaced := by
  unfold applyHistory at h
  split at h
  · have empty : ({ new pachi with history := history } : GoBoard Stones).b.WellPlaced :=
      ⟨List.nodup_nil, by simp [new, pachi]⟩
    exact wellPlaced_of_replay empty h
  · cases h

/-- **A new stone has the color to move.**  The other stones of the board after
a move were there before it, and whatever the command names, the wrapper reads
the color off its history. -/
theorem new_stone_color (placed : board.b.WellPlaced) (moves : MovesTo pachi board board')
    {p : Point} {c : Color} (there : board'.b.stoneOn p = some c)
    (new : board.b.stoneOn p ≠ some c) : c = board.getColor := by
  rcases moves with rfl | ⟨action, hmove⟩
  · exact absurd there new
  rcases b_of_applyMove hmove with same | ⟨q, valid, played⟩
  · rw [Stones.stoneOn_of_eq same] at there
    exact absurd there new
  · rw [played] at there
    exact Stones.color_of_stoneOn_play placed valid there new

end

/-! ## The moves of the commands

What `play` and `genmove` do to the board of the root. -/

section

variable {B K : Type} [Field K] {P : Pachi B}

/-- `play` passes, or moves, or does nothing. -/
theorem rootBoard_of_play {s s' : Player B K} {text : List Char} (h : s.play P text = some s') :
    (s.stopRollout = true ∧ s' = s) ∨
    ((strcasecmp text "resign".toList = true ∨ strcasecmp text "pass".toList = true) ∧
      s'.rootBoard = s.rootBoard.addMoveToHistory posPass) ∨
    ((strcasecmp text "resign".toList = false ∧ strcasecmp text "pass".toList = false) ∧
      ∃ action, applyMove P s.rootBoard action = (true, s'.rootBoard)) := by
  obtain ⟨root, -, h⟩ := Option.bind_eq_some_iff.mp h
  split at h
  · next stop => exact .inl ⟨stop, (Option.some.inj h).symm⟩
  right
  split at h
  · next resign =>
      obtain rfl := Option.some.inj h
      refine .inl ⟨.inl resign, ?_⟩
      rw [applyMove_pass]
      rfl
  next notResign =>
  dsimp only at h
  generalize haction : (if strcasecmp text ['p', 'a', 's', 's'] = true then posPass
    else vertexAction text) = action at h
  split at h
  · cases h
  split at h
  · cases h
  next board hmove =>
  have moved : s'.rootBoard = board := by
    split at h <;> obtain rfl := Option.some.inj h <;> rfl
  rw [moved]
  by_cases pass : strcasecmp text ['p', 'a', 's', 's'] = true
  · rw [← haction, if_pos pass, applyMove_pass] at hmove
    exact .inl ⟨.inr pass, (Prod.mk.inj hmove).2.symm⟩
  · exact .inr ⟨⟨by simpa using notResign, by simpa using pass⟩, _, hmove⟩

theorem movesTo_of_play {s s' : Player B K} {text : List Char} (h : s.play P text = some s') :
    MovesTo P s.rootBoard s'.rootBoard := by
  rcases rootBoard_of_play h with ⟨-, rfl⟩ | ⟨-, passed⟩ | ⟨-, moved⟩
  · exact .inl rfl
  · exact .inr ⟨posPass, by rw [applyMove_pass, passed]⟩
  · exact .inr moved

variable [LinearOrder K] {cfg : Settings K}

theorem movesTo_of_genApplyMove {s s' : Player B K} {text : List Char}
    (h : s.genApplyMove P cfg = some (text, s')) : MovesTo P s.rootBoard s'.rootBoard := by
  obtain ⟨root, -, h⟩ := Option.bind_eq_some_iff.mp h
  split at h
  · obtain ⟨-, rfl⟩ := Prod.mk.inj (Option.some.inj h)
    exact .inl rfl
  obtain ⟨res, -, h⟩ := Option.bind_eq_some_iff.mp h
  split at h
  · obtain ⟨-, rfl⟩ := Prod.mk.inj (Option.some.inj h)
    exact .inl rfl
  split at h
  · cases h
  split at h
  · cases h
  · next board hmove =>
      obtain ⟨-, rfl⟩ := Prod.mk.inj (Option.some.inj h)
      exact .inr ⟨_, hmove⟩

end

/-! ## The session

The guard, and that it is enough. -/

section

variable {K : Type} [Field K] [LinearOrder K] [FloorRing K] (cfg : GtpConfig Stones K)

/-- The color to move after a history of this length, as `get_color` has it. -/
def colorAfter (length : ℕ) : Color := if length % 4 / 2 = 0 then .black else .white

/-- The token names a color, if any, that is to move after a history of this
length. -/
def namesTurn (token : Option (List Char)) (length : ℕ) : Bool :=
  match token.bind namedColor with
  | none => true
  | some color => color = colorAfter length

/-- A `play` of a vertex names the color to move, and a `genmove` the one after
the pass that it may imply.  A line that names no color, or none that is known,
has nothing to respect. -/
def GTP.inTurn (g : GTP Stones K) (l : CommandLine K) : Bool :=
  match g.mctsPlayer, words l.text with
  | some e, name :: args =>
      match dispatch name with
      | some .play =>
          (args[1]?.any fun pos =>
            strcasecmp pos "resign".toList || strcasecmp pos "pass".toList) ||
              namesTurn args[0]? e.player.rootBoard.history.length
      | some .genmove =>
          namesTurn args[0]?
            (e.player.rootBoard.history.length + if g.isLcmdGenmove then 2 else 0)
      | _ => true
  | _, _ => true

/-- The guard on the colors that the commands name. -/
def InTurn : Except Fault (GTP Stones K) → CommandLine K → Prop
  | .ok g, l => g.inTurn l = true
  | .error _, _ => True

/-- An accepted `play` or `genmove` that names a color adds stones of this color
only.  Removed stones are not restricted: a capture takes those of the other
color. -/
def ColorsRespected : Except Fault (GTP Stones K) → CommandLine K → Prop
  | .ok g, l => ∀ g' command args color e e' p c,
      l.Calls command args → command = .play ∨ command = .genmove →
      args[0]?.bind namedColor = some color → g.processCmd pachi cfg l = .ok g' →
      g.mctsPlayer = some e → g'.mctsPlayer = some e' →
      e'.player.rootBoard.b.stoneOn p = some c → e.player.rootBoard.b.stoneOn p ≠ some c →
      c = color
  | .error _, _ => True

variable {cfg} {g g' : GTP Stones K} {l : CommandLine K} {e e' : Engine Stones K}

omit [LinearOrder K] [FloorRing K] in
/-- The implicit pass puts no stone, and takes the turn. -/
theorem rootBoard_of_implicitPass (h : g.implicitPass pachi e = .ok e') :
    e'.player.rootBoard.b = e.player.rootBoard.b ∧
      (e'.player.stopRollout = true ∨ e'.player.rootBoard.getColor =
        colorAfter (e.player.rootBoard.history.length + if g.isLcmdGenmove then 2 else 0)) := by
  unfold GTP.implicitPass at h
  split at h
  · next last =>
      rw [if_pos last]
      rcases rootBoard_of_play (Engine.play_eq_ok h).1 with
        ⟨stop, same⟩ | ⟨-, passed⟩ | ⟨⟨-, notPass⟩, -⟩
      · rw [same]
        exact ⟨rfl, .inl stop⟩
      · rw [passed]
        refine ⟨rfl, .inr ?_⟩
        show colorAfter (e.player.rootBoard.history ++ token posPass).length = _
        rw [List.length_append, length_token]
      · exact absurd notPass (by decide)
  · next notLast =>
      obtain rfl := Except.ok.inj h
      rw [if_neg notLast]
      exact ⟨rfl, .inr rfl⟩

omit [FloorRing K] in
/-- `gen_apply_move` moves on the board, unless the rollouts have stopped. -/
theorem movesTo_of_engine {P : Pachi Stones} {searched : List (Action K)} {text : List Char}
    (h : e.genApplyMove P cfg searched = .ok (text, e')) :
    (e.player.stopRollout = true ∧ e' = e) ∨ (e.player.stopRollout = false ∧
      MovesTo P e.player.rootBoard e'.player.rootBoard) := by
  rcases Engine.genApplyMove_eq_ok h with
    ⟨stop, -, same⟩ | ⟨e₁, stop, player, going, hrun, hgen, rfl⟩
  · exact .inl ⟨stop, same⟩
  · obtain ⟨-, -, -, same⟩ := Engine.runSearch_eq_ok hrun
    have moves := movesTo_of_genApplyMove hgen
    rw [same.rootBoard] at moves
    refine .inr ⟨going, ?_⟩
    cases stop <;> exact moves

/-- The stones of the session are well placed. -/
def Placed : Except Fault (GTP Stones K) → Prop
  | .ok g => ∀ e, g.mctsPlayer = some e → e.player.rootBoard.b.WellPlaced
  | .error _ => True

omit [FloorRing K] in
/-- Pondering and an implicit pass put no stone. -/
theorem placed_of_turn {e₁ e₂ : Engine Stones K} (hs : e.player.rootBoard.b.WellPlaced)
    (stopped : e.stopPondering pachi cfg l.pondered = .ok e₁)
    (passed : g.implicitPass pachi e₁ = .ok e₂) : e₂.player.rootBoard.b.WellPlaced := by
  obtain ⟨-, -, same, -⟩ := Engine.stopPondering_eq_ok stopped
  rw [(rootBoard_of_implicitPass passed).1, same.rootBoard]
  exact hs

omit [FloorRing K] in
/-- A line leaves the stones well placed, whatever it is. -/
theorem placed_of_responds (hs : Placed (.ok g)) (h : Responds pachi cfg g l g') :
    Placed (.ok g') := by
  cases h with
  | told => exact hs
  | timed e time response he =>
      intro e' he'
      obtain rfl := Option.some.inj he'
      exact hs e he
  | played e e₁ e₂ args pos response calls hpos he stopped hplay =>
      intro e' he'
      dsimp only at he'
      split at he'
      · cases he'
      · obtain rfl := Option.some.inj he'
        obtain ⟨-, -, same, -⟩ := Engine.stopPondering_eq_ok stopped
        refine wellPlaced_of_movesTo ?_ (movesTo_of_play (Engine.play_eq_ok hplay).1)
        rw [same.rootBoard]
        exact hs e he
  | moved e e₁ e₂ e₃ e₄ args sPos response calls he stopped passed hgen he₄ =>
      intro e' he'
      obtain rfl := Option.some.inj he'
      have placed := placed_of_turn (hs e he) stopped passed
      rw [player_of_pondering he₄]
      rcases movesTo_of_engine hgen with ⟨-, rfl⟩ | ⟨-, moves⟩
      · exact placed
      · exact wellPlaced_of_movesTo placed moves
  | quit => exact fun e he => absurd he (by simp)
  | cleared =>
      intro e' he'
      obtain rfl := Option.some.inj he'
      exact ⟨List.nodup_nil, fun s hs => absurd hs (by simp [Engine.new, Player.start, new, pachi])⟩

theorem placed_step {r t : Except Fault (GTP Stones K)} (hs : Placed r)
    (h : (gtpMachine pachi cfg).step r l = some t) : Placed t := by
  unfold gtpMachine at h
  dsimp only at h
  split at h
  · cases h
  · split at h
    · cases h
    · next g _ =>
        obtain rfl := Option.some.inj h
        cases answered : g.processCmd pachi cfg l with
        | error => trivial
        | ok g' => exact placed_of_responds hs (responds_of_processCmd answered)

omit [Field K] [LinearOrder K] [FloorRing K] in
theorem args_unique {c c' : Command} {args args' : List (List Char)} (h : l.Calls c args)
    (h' : l.Calls c' args') : c = c' ∧ args = args' := by
  obtain ⟨name, hwords, hc⟩ := h
  obtain ⟨name', hwords', hc'⟩ := h'
  obtain ⟨rfl, rfl⟩ := List.cons.inj (hwords.symm.trans hwords')
  exact ⟨Option.some.inj (hc.symm.trans hc'), rfl⟩

/-- A color that is named in turn is the one to move. -/
theorem eq_of_namesTurn {token : Option (List Char)} {length : ℕ} {color : Color}
    (named : token.bind namedColor = some color) (turn : namesTurn token length = true) :
    color = colorAfter length := by
  simpa [namesTurn, named] using turn

omit [FloorRing K] in
/-- A `play` that names the color to move is respected. -/
theorem color_of_played {e₁ e₂ : Engine Stones K} {args : List (List Char)} {pos : List Char}
    {color c : Color} {p : Point} (placed : e.player.rootBoard.b.WellPlaced)
    (calls : l.Calls .play args) (hpos : args[1]? = some pos) (he : g.mctsPlayer = some e)
    (stopped : e.stopPondering pachi cfg l.pondered = .ok e₁)
    (hplay : e₁.play pachi pos = .ok e₂) (turn : g.inTurn l = true)
    (named : args[0]?.bind namedColor = some color)
    (there : e₂.player.rootBoard.b.stoneOn p = some c)
    (new : e.player.rootBoard.b.stoneOn p ≠ some c) : c = color := by
  obtain ⟨name, hwords, hname⟩ := calls
  simp only [GTP.inTurn, he, hwords, hname] at turn
  obtain ⟨-, -, same, -⟩ := Engine.stopPondering_eq_ok stopped
  rw [← same.rootBoard] at placed new turn
  rcases rootBoard_of_play (Engine.play_eq_ok hplay).1 with
    ⟨-, rest⟩ | ⟨-, passed⟩ | ⟨⟨notResign, notPass⟩, moved⟩
  · rw [rest] at there
    exact absurd there new
  · rw [passed] at there
    exact absurd there new
  · rw [new_stone_color placed (.inr moved) there new]
    simp only [hpos, Option.any_some, notResign, notPass, Bool.or_self, Bool.false_or] at turn
    exact (eq_of_namesTurn named turn).symm

omit [FloorRing K] in
/-- A `genmove` that names the color to move, after the pass that it may imply,
is respected. -/
theorem color_of_moved {e₁ e₂ e₃ : Engine Stones K} {args : List (List Char)} {text : List Char}
    {color c : Color} {p : Point} (placed : e.player.rootBoard.b.WellPlaced)
    (calls : l.Calls .genmove args) (he : g.mctsPlayer = some e)
    (stopped : e.stopPondering pachi cfg l.pondered = .ok e₁)
    (passed : g.implicitPass pachi e₁ = .ok e₂)
    (hgen : e₂.genApplyMove pachi cfg l.searched = .ok (text, e₃)) (turn : g.inTurn l = true)
    (named : args[0]?.bind namedColor = some color)
    (there : e₃.player.rootBoard.b.stoneOn p = some c)
    (new : e.player.rootBoard.b.stoneOn p ≠ some c) : c = color := by
  obtain ⟨name, hwords, hname⟩ := calls
  simp only [GTP.inTurn, he, hwords, hname] at turn
  obtain ⟨-, -, same, -⟩ := Engine.stopPondering_eq_ok stopped
  obtain ⟨stones, color⟩ := rootBoard_of_implicitPass passed
  have placed := placed_of_turn placed stopped passed
  rw [← same.rootBoard, ← stones] at new
  rw [← same.rootBoard] at turn
  rcases movesTo_of_engine hgen with ⟨-, rfl⟩ | ⟨going, moves⟩
  · exact absurd there new
  · rw [new_stone_color placed moves there new, color.resolve_left (by simp [going])]
    exact (eq_of_namesTurn named turn).symm

/-- A command that names the color to move is respected. -/
theorem colorsRespected_of_inTurn {r : Except Fault (GTP Stones K)} (hs : Placed r)
    (turn : InTurn r l) : ColorsRespected cfg r l := by
  cases r with
  | error => trivial
  | ok g =>
  intro g' command args color e e' p c calls hcommand named answered he he' there new
  cases responds_of_processCmd answered with
  | told =>
      obtain rfl := Option.some.inj (he.symm.trans he')
      exact absurd there new
  | timed e₀ time response he₀ =>
      obtain rfl := Option.some.inj (he.symm.trans he₀)
      obtain rfl := Option.some.inj he'
      exact absurd there new
  | played e₀ e₁ e₂ args' pos response calls' hpos he₀ stopped hplay =>
      obtain rfl := Option.some.inj (he.symm.trans he₀)
      obtain ⟨-, rfl⟩ := args_unique calls calls'
      split at he'
      · cases he'
      obtain rfl := Option.some.inj he'
      exact color_of_played (hs e he) calls' hpos he stopped hplay turn named there new
  | moved e₀ e₁ e₂ e₃ e₄ args' sPos response calls' he₀ stopped passed hgen he₄ =>
      obtain rfl := Option.some.inj (he.symm.trans he₀)
      obtain ⟨-, rfl⟩ := args_unique calls calls'
      obtain rfl := Option.some.inj he'
      -- pondering starts on the board as it is
      rw [player_of_pondering he₄] at there
      exact color_of_moved (hs e he) calls' he stopped passed hgen turn named there new
  | quit => exact absurd he' (by simp)
  | cleared =>
      -- the new board is empty
      obtain rfl := Option.some.inj he'
      exact absurd there
        (by simp [Engine.new, Player.start, GoBoard.new, pachi, Stones.stoneOn, Stones.stoneAt])

/-- **Colors are respected in turn.**  In every session on a board that was
loaded, in which each line names the color to move, every stone has the color
that its command names. -/
theorem colors_respected {history : List UInt8} {board : GoBoard Stones}
    (replayed : applyHistory pachi (new pachi) history = some board) {ls : List (CommandLine K)}
    (turns : (gtpMachine pachi cfg).Guarded InTurn (.ok (GTP.start cfg board)) ls) :
    (gtpMachine pachi cfg).Guarded (ColorsRespected cfg) (.ok (GTP.start cfg board)) ls := by
  have start : Placed (.ok (GTP.start cfg board)) := by
    intro e he
    obtain rfl := Option.some.inj he
    exact wellPlaced_of_applyHistory replayed
  exact (gtpMachine pachi cfg).guarded_of_guarded placed_step colorsRespected_of_inTurn start turns

end

instance : ∀ (r : Except Fault (GTP Stones ℚ)) (l : CommandLine ℚ), Decidable (InTurn r l)
  | .ok g, l => inferInstanceAs (Decidable (g.inTurn l = true))
  | .error _, _ => .isTrue trivial

/-- A move of each side, and a pass.  The first one is the session's own answer,
after a search of one iteration. -/
def turnsSession : List (CommandLine ℚ) :=
  [⟨"genmove b".toList, [],
      [.select 1 9, .decide 0, .reply 0 (1 / 2) [⟨72, 3 / 5⟩, ⟨-1, 2 / 5⟩]]⟩,
    ⟨"play w C4".toList, [], []⟩, ⟨"play b pass".toList, [], []⟩, ⟨"play w D4".toList, [], []⟩]

/-- Two moves and a pass, in turn. -/
theorem colors_respected_turnsSession :
    (gtpMachine pachi shippedGtp).Guarded (ColorsRespected shippedGtp) (.ok newSession)
      turnsSession := by
  have replayed : applyHistory pachi (new pachi) [] = some (new pachi) := rfl
  exact colors_respected replayed (by decide +kernel)

/-- A first move that White is to play puts a black stone: the handler reads the
color into an array and never looks at it. -/
theorem colors_not_respected :
    ¬ (gtpMachine pachi shippedGtp).Guarded (ColorsRespected shippedGtp) (.ok newSession)
      [⟨"play w D4".toList, [], []⟩] := by
  intro respected
  have seen : ((newSession.processCmd pachi shippedGtp ⟨"play w D4".toList, [], []⟩).toOption.bind
      (·.mctsPlayer)).map (fun e => e.player.rootBoard.b.stoneOn (3, 3)) = some (some .black) := by
    decide +kernel
  obtain ⟨e', hplayer, there⟩ := Option.map_eq_some_iff.mp seen
  obtain ⟨g', answered, hplayer⟩ := Option.bind_eq_some_iff.mp hplayer
  cases answer : newSession.processCmd pachi shippedGtp ⟨"play w D4".toList, [], []⟩ with
  | error f =>
      rw [answer] at answered
      cases answered
  | ok g'' =>
      rw [answer] at answered
      obtain rfl := Option.some.inj answered
      have calls : (⟨"play w D4".toList, [], []⟩ : CommandLine ℚ).Calls .play
          ["w".toList, "D4".toList] := ⟨"play".toList, by decide +kernel, dispatch_text .play⟩
      have white := respected.1 _ _ _ .white _ e' (3, 3) .black calls (.inl rfl) (by decide) answer
        rfl hplayer there (by decide)
      cases white

end EstarGo
