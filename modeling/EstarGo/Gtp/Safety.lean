import EstarGo.Gtp.Session
import EstarGo.Gtp.TimePolicy
import EstarGo.Player.Vertex

/-!
# The safety of a session

A session that follows the protocol can fail in these ways.

* An argument is longer than the array that `sscanf` copies it to.
* `genmove` has resigned and dropped the root that the next `play` or `genmove`
  uses.
* A vertex that is legal for the color named is refused, because the color to
  move is the one of the history.
* The search opens no root, or its evaluator proposes a move that the board
  refuses.
* From the 150th own move on, without time left, the halving of the safe time
  does not end.
* A legal move brings more groups into atari than the vendored board has room
  for, in the game or in a descent of the search, and an assertion ends the
  process.

## Main definitions

* `GTP.followsProtocol` — a line that the protocol allows.
* `GTP.careful` — a line with none of these failures.
* `GTP.Handled` — both.

## Main results

* `session_safe`: where none of these happens, every line has its one response.
* `session_overflows`: a line of the protocol with an argument that is too long.

## Design notes

**Conditions that can be decided.**  Each is a test on the session before the
line, with the steps of the threads around it, so a session can be checked line
by line.  The last failure is beyond the handlers: `Board.asserted_of_run` shows
when it happens.
-/

namespace EstarGo

open Verif GoBoard

/-! ## The protocol

What a controller may send, by the protocol's own rules. -/

/-- The command with this text, by the text itself.  This is what the protocol
means by a command, where the session asks for a hash. -/
def Command.ofText (name : List Char) : Option Command := Command.all.find? fun c => c.text = name

/-- A decimal number, of any size. -/
def isDecimal (text : List Char) : Bool := !text.isEmpty && text.all Char.isDigit

/-- A pass, or a vertex that names a legal move for the color. -/
def playable {B : Type} (P : Pachi B) (board : GoBoard B) (color : Color) (move : List Char) :
    Bool :=
  strcasecmp move "pass".toList ||
    match namedPoint move with
    | none => false
    | some p => P.isValidMove board.b color (coord p)

namespace GTP

variable {B K : Type} (P : Pachi B) (g : GTP B K)

/-- The arguments follow the protocol: `play` names a legal move, where there is
a player.  The color is a letter or a word, in either case. -/
def takes : Command → List (List Char) → Bool
  | .play, [color, move] =>
      match namedColor color, g.mctsPlayer with
      | none, _ => false
      | some _, none =>
          strcasecmp move "resign".toList || strcasecmp move "pass".toList ||
            (namedPoint move).isSome
      | some k, some e =>
          strcasecmp move "resign".toList || playable P e.player.rootBoard k move
  | .play, _ => false
  | .genmove, [color] => (namedColor color).isSome
  | .genmove, _ => false
  | .timeLeft, [color, time, stones] =>
      (namedColor color).isSome && isDecimal time && isDecimal stones
  | .timeLeft, _ => false
  | _, _ => true

/-- The line is one of the fourteen commands, with arguments that follow the
protocol. -/
def followsProtocol (l : CommandLine K) : Bool :=
  match words l.text with
  | [] => false
  | name :: args =>
      match Command.ofText name with
      | none => false
      | some c => g.takes P c args

end GTP

/-! ## The lines that are handled

What the code asks of a line beside that. -/

/-- The token and its terminator fit an array of this size.  A token that is
missing has nothing to fit. -/
def fits (size : ℕ) (token : Option (List Char)) : Bool := token.all fun text => text.length < size

namespace Engine

variable {B K : Type} [Field K] [LinearOrder K] (P : Pachi B) (cfg : GtpConfig B K)
  (e : Engine B K)

/-- From its 200th own move on, `est_timeout_rollout` stops the rollouts. -/
def timeUp : Bool :=
  decide (cfg.searchThreads ≠ 0) && decide (cfg.timePolicy ≠ 0) && cfg.isUec &&
    decide (200 ≤ e.player.rootBoard.getTotalMoves / 2)

/-- From its 150th own move on, there is time left.  Before that, and with the
time policy switched off, the time allocation has no loop. -/
def hasTime : Bool :=
  decide (cfg.searchThreads = 0) || decide (cfg.timePolicy = 0) || e.timeUp cfg ||
    decide (e.player.rootBoard.getTotalMoves / 2 < 150) || decide (0 < e.timeRemain) ||
    decide (cfg.stage150SafeTime < e.timeRemain)

/-- The root has children, a pass is among them, and the board accepts their
moves and withstands them.  Then whichever child is chosen can be played. -/
def opened : Bool :=
  match e.player.root with
  | none => false
  | some root =>
      match (e.player.tree.nodes root).nexts with
      | none => false
      | some nexts =>
          (nexts.any fun c => (e.player.tree.nodes c).edge.map (·.action) = some posPass) &&
            nexts.all fun c => (e.player.tree.nodes c).edge.all fun edge =>
              (applyMove P e.player.rootBoard edge.action).1 &&
                e.player.rootBoard.withstands P edge.action

/-- The search of `gen_apply_move` returns, so no assertion fails in it, and it
opens the root. -/
def searches (searched : List (Action K)) : Bool :=
  e.player.stopRollout ||
    e.hasTime cfg &&
      match e.runSearch P cfg (if cfg.searchThreads = 0 ∨ e.timeUp cfg then none else some 1)
        searched with
      | .error _ => false
      | .ok e => e.opened P

end Engine

namespace GTP

variable {B K : Type} [Field K] [LinearOrder K] (P : Pachi B) (cfg : GtpConfig B K) (g : GTP B K)

/-- The threads that ponder return. -/
def returns (pondered : List (Action K)) : Bool :=
  match g.mctsPlayer with
  | none => true
  | some e => (e.stopPondering P cfg pondered).isOk

/-- No assertion of the vendored board fails on the move.  A failing assertion
ends the process, and with it the session. -/
def withstood {B : Type} (P : Pachi B) (board : GoBoard B) (move : List Char) : Bool :=
  strcasecmp move "pass".toList || board.withstands P (vertexAction move)

/-- A move of at most four characters, so no resignation, which is legal for the
color to move, and which the board withstands; and `genmove` has not
resigned. -/
def carefulPlay (args : List (List Char)) (pondered : List (Action K)) : Bool :=
  fits 5 args[0]? && fits 5 args[1]? && !g.resigned && g.returns P cfg pondered &&
    match g.mctsPlayer, args[1]? with
    | some e, some move =>
        playable P e.player.rootBoard e.player.rootBoard.getColor move &&
          withstood P e.player.rootBoard move
    | _, _ => true

/-- `genmove` has not resigned, and its search opens the root. -/
def carefulGenmove (args : List (List Char)) (pondered searched : List (Action K)) : Bool :=
  fits 5 args[0]? && !g.resigned &&
    match g.mctsPlayer with
    | none => true
    | some e =>
        match e.stopPondering P cfg pondered with
        | .error _ => false
        | .ok e =>
            match g.implicitPass P e with
            | .error _ => false
            | .ok e => e.searches P cfg searched

/-- Times and stones of at most three digits. -/
def carefulTimeleft (args : List (List Char)) : Bool :=
  fits 5 args[0]? && fits 4 args[1]? && fits 4 args[2]?

/-- The line is one of those that are handled.  For most commands there is no
condition; `play`, `genmove` and `time_left` copy their arguments, and those
that stop the rollouts wait for them. -/
def careful (l : CommandLine K) : Bool :=
  match words l.text with
  | [] => true
  | name :: args =>
      match Command.ofText name with
      | some .play => g.carefulPlay P cfg args l.pondered
      | some .genmove => g.carefulGenmove P cfg args l.pondered l.searched
      | some .timeLeft => carefulTimeleft args
      | some .quit => g.returns P cfg l.pondered
      | some .clearBoard => g.returns P cfg l.pondered
      | _ => true

/-- The guard of a safe session: each line follows the protocol, and is careful
beyond it. -/
def Handled : Except Fault (GTP B K) → CommandLine K → Prop
  | .ok g, l => g.followsProtocol P l = true ∧ g.careful P cfg l = true
  | .error _, _ => True

instance : ∀ (r : Except Fault (GTP B K)) (l : CommandLine K), Decidable (Handled P cfg r l)
  | .ok g, l =>
      inferInstanceAs (Decidable (g.followsProtocol P l = true ∧ g.careful P cfg l = true))
  | .error _, _ => .isTrue trivial

end GTP

/-! ## They are handled

Handler by handler, from the conditions to the response. -/

theorem ok_bind {ε α β : Type} (a : α) (f : α → Except ε β) : (.ok a : Except ε α) >>= f = f a :=
  rfl

/-- A computation without a fault has an outcome. -/
theorem exists_of_isOk {ε α : Type} {x : Except ε α} (h : x.isOk = true) : ∃ a, x = .ok a := by
  cases x with
  | error => cases h
  | ok a => exact ⟨a, rfl⟩

/-- A token that fits is read. -/
theorem scan_of_fits {size : ℕ} {text : List Char} (h : fits size (some text) = true) :
    scan size (some text) = .ok text := by
  have hlt : text.length < size := by simpa [fits] using h
  simp [scan, hlt]

theorem scanUnread_of_fits {size : ℕ} {text : List Char} (h : fits size (some text) = true) :
    scanUnread size (some text) = .ok () := by
  rw [scanUnread, scan_of_fits h]
  rfl

/-- A name of a command is dispatched, and fits its array. -/
theorem dispatch_of_ofText {name : List Char} {c : Command} (h : Command.ofText name = some c) :
    dispatch name = some c ∧ scan 100 (some name) = .ok name := by
  obtain rfl : c.text = name := by simpa using List.find?_some h
  exact ⟨dispatch_text c, scan_of_fits (by cases c <;> decide)⟩

section

variable {B K : Type} [Field K] {P : Pachi B}

/-- `play` takes a move that is playable for the color to move, where the board
withstands it. -/
theorem exists_play {s : Player B K} {pos : List Char} (root : s.root.isSome = true)
    (legal : playable P s.rootBoard s.rootBoard.getColor pos = true)
    (stands : GTP.withstood P s.rootBoard pos = true) : ∃ s', s.play P pos = some s' := by
  obtain ⟨root, hroot⟩ := Option.isSome_iff_exists.mp root
  obtain ⟨accepted, withstands⟩ : (applyMove P s.rootBoard
      (if strcasecmp pos ['p', 'a', 's', 's'] then posPass else vertexAction pos)).1 = true ∧
        s.rootBoard.withstands P
          (if strcasecmp pos ['p', 'a', 's', 's'] then posPass else vertexAction pos) = true := by
    split
    · exact ⟨by rw [applyMove_pass], withstands_of_neg (by decide)⟩
    · next vertex =>
        have notPass : strcasecmp pos "pass".toList = false := by simpa using vertex
        rw [GTP.withstood, notPass, Bool.false_or] at stands
        refine ⟨?_, stands⟩
        unfold playable at legal
        rw [notPass, Bool.false_or] at legal
        split at legal
        · cases legal
        · next p named =>
            have action := vertexAction_of_namedPoint named
            rw [action, applyMove_fst (Int.natCast_nonneg _), Int.toNat_natCast, coord_of_pos]
            exact legal
  rw [Player.play, hroot, Option.bind_some]
  split
  · exact ⟨_, rfl⟩
  split
  · exact ⟨_, rfl⟩
  dsimp only
  rw [withstands, if_neg (by simp)]
  split
  · next refused => simp [refused] at accepted
  · split
    · exact ⟨_, rfl⟩
    · exact ⟨_, rfl⟩

variable [LinearOrder K] {cfg : GtpConfig B K} {g : GTP B K} {e : Engine B K}

omit [LinearOrder K] in
theorem play_isOk (root : e.player.root.isSome = true) {pos : List Char}
    (legal : playable P e.player.rootBoard e.player.rootBoard.getColor pos = true)
    (stands : GTP.withstood P e.player.rootBoard pos = true) :
    ∃ e', e.play P pos = .ok e' := by
  obtain ⟨player, hplay⟩ := exists_play root legal stands
  have present : e.player.root.isNone = false := by simpa using root
  rw [Engine.play, present, if_neg (by simp), hplay]
  exact ⟨_, rfl⟩

/-- The settings on which it rests whether the time allocation returns. -/
def GtpConfig.times (cfg : GtpConfig B K) : TimeSettings where
  timePolicy := cfg.timePolicy
  timeOutMs := 0
  isUec := cfg.isUec
  stage0SafeTimeS := 0
  stage150SafeTimeS := cfg.stage150SafeTime
  quickPlayMoveNum := 0
  quickPlayMoveTimeOutMs := 0
  overUsingThrTimeOutMs := 0
  underUsingThrTimeOutMs := 0

omit [Field K] [LinearOrder K] in
/-- With time left the search threads begin, and they stop the rollouts where
the time is up. -/
theorem startRollouts_of_hasTime (time : e.hasTime cfg = true) :
    e.startRollouts cfg = .ok (e.timeUp cfg) := by
  unfold Engine.startRollouts
  split
  · next none => simp [Engine.timeUp, none]
  next some =>
  rw [estTimeoutRollout_eq cfg e (s := cfg.times) rfl rfl rfl 0]
  have ends : (estTimeout cfg.times.stage150SafeTimeS.natAbs cfg.times 0
      e.player.rootBoard.getTotalMoves e.timeRemain).isSome = true := by
    refine (estTimeout_isSome _).mpr fun halves => ?_
    obtain ⟨on, notUp, late⟩ : cfg.timePolicy ≠ 0 ∧
        ¬ (cfg.isUec = true ∧ 200 ≤ e.player.rootBoard.getTotalMoves / 2) ∧
          150 ≤ e.player.rootBoard.getTotalMoves / 2 := halves
    have left : 0 < e.timeRemain ∨ cfg.stage150SafeTime < e.timeRemain := by
      simp_all [Engine.hasTime, Engine.timeUp]
      omega
    exact (halveSafeTime_isSome _ _ _ le_rfl).mpr left
  obtain ⟨budget, allots⟩ := Option.isSome_iff_exists.mp ends
  rw [allots, Option.elim_some, stopRollout_of_estTimeout allots]
  rw [Engine.timeUp, decide_eq_true some, Bool.true_and]
  rfl

omit [Field K] [LinearOrder K] in
theorem exists_of_opened (h : e.opened P = true) : ∃ root nexts, e.player.root = some root ∧
    (e.player.tree.nodes root).nexts = some nexts ∧
      (∃ c ∈ nexts, (e.player.tree.nodes c).edge.map (·.action) = some posPass) ∧
        ∀ c ∈ nexts, ∀ action, (e.player.tree.nodes c).edge.map (·.action) = some action →
          (applyMove P e.player.rootBoard action).1 = true ∧
            e.player.rootBoard.withstands P action = true := by
  unfold Engine.opened at h
  split at h
  · cases h
  · next root hroot =>
      split at h
      · cases h
      · next nexts hnexts =>
          simp only [Bool.and_eq_true, List.any_eq_true, List.all_eq_true, decide_eq_true_eq] at h
          refine ⟨root, nexts, hroot, hnexts, h.1, fun c hc action haction => ?_⟩
          obtain ⟨edge, hedge, rfl⟩ := Option.map_eq_some_iff.mp haction
          have := h.2 c hc
          rwa [hedge, Option.all_some, Bool.and_eq_true] at this

/-- `mcts_select_action` has a move in an opened root, and the board accepts
it. -/
theorem exists_genApplyMove (hs : Structured e.player) (opened : e.opened P = true) :
    ∃ r, e.player.genApplyMove P cfg.settings = some r := by
  obtain ⟨root, nexts, hroot, hnexts, pass, accepted⟩ := exists_of_opened opened
  rw [Player.genApplyMove, hroot, Option.bind_some]
  split
  · exact ⟨_, rfl⟩
  have found : (e.player.tree.mctsSelectAction P cfg.settings root e.player.rootBoard
      (e.player.opAction = posPass)).isSome = true :=
    Tree.mctsSelectAction_isSome (fun v => (hs.nodes v).undecided) hnexts pass
  obtain ⟨res, hres⟩ := Option.isSome_iff_exists.mp found
  rw [hres, Option.bind_some]
  split
  · exact ⟨_, rfl⟩
  · next resign =>
      obtain ⟨nexts', hnexts', mem, haction⟩ :=
        (Tree.mctsSelectAction_eq_some hres).resolve_left resign
      obtain rfl := Option.some.inj (hnexts.symm.trans hnexts')
      obtain ⟨succ, withstands⟩ := accepted res.node mem res.action haction
      rw [withstands, if_neg (by simp)]
      split
      · next refused => simp [refused] at succ
      · exact ⟨_, rfl⟩

/-- `gen_apply_move` has a move where the search opens the root. -/
theorem genApplyMove_isOk (hs : e.Reached P cfg) (vec : e.searchThreadVec = 0)
    (root : e.player.root.isSome = true) {searched : List (Action K)}
    (searches : e.searches P cfg searched = true) :
    ∃ r, e.genApplyMove P cfg searched = .ok r := by
  have present : e.player.root.isNone = false := by simpa using root
  rw [Engine.genApplyMove, if_neg (by simp [vec])]
  split
  · exact ⟨_, rfl⟩
  next going =>
  rw [present, if_neg (by simp)]
  unfold Engine.searches at searches
  rw [Bool.eq_false_of_not_eq_true going, Bool.false_or, Bool.and_eq_true] at searches
  rw [startRollouts_of_hasTime searches.1, ok_bind]
  obtain ⟨-, found⟩ := searches
  split at found
  · cases found
  · next e' hrun =>
      rw [hrun, ok_bind]
      -- the search has opened the root, and the board accepts every move it has
      have moved : ∃ r, e'.player.genApplyMove P cfg.settings = some r :=
        exists_genApplyMove (hs.runSearch hrun).structured found
      obtain ⟨⟨text, player⟩, hgen⟩ := moved
      rw [hgen]
      exact ⟨_, rfl⟩

theorem exists_stopPondering (he : g.mctsPlayer = some e) {pondered : List (Action K)}
    (returns : g.returns P cfg pondered = true) :
    ∃ e', e.stopPondering P cfg pondered = .ok e' := by
  rw [GTP.returns, he] at returns
  exact exists_of_isOk returns

omit [Field K] [LinearOrder K] in
/-- A handler has the player that the session has. -/
theorem player_of_some (he : g.mctsPlayer = some e) : g.player = .ok e := by
  rw [GTP.player, he]

omit [Field K] [LinearOrder K] in
theorem args_of_takes_play {args : List (List Char)} (h : g.takes P .play args = true) :
    ∃ color move, args = [color, move] := by
  rcases args with _ | ⟨color, _ | ⟨move, _ | ⟨more, rest⟩⟩⟩
  · cases h
  · cases h
  · exact ⟨color, move, rfl⟩
  · cases h

omit [Field K] [LinearOrder K] in
theorem args_of_takes_genmove {args : List (List Char)} (h : g.takes P .genmove args = true) :
    ∃ color, args = [color] := by
  rcases args with _ | ⟨color, _ | ⟨more, rest⟩⟩
  · cases h
  · exact ⟨color, rfl⟩
  · cases h

omit [Field K] [LinearOrder K] in
theorem args_of_takes_timeLeft {args : List (List Char)} (h : g.takes P .timeLeft args = true) :
    ∃ color time stones, args = [color, time, stones] := by
  rcases args with _ | ⟨color, _ | ⟨time, _ | ⟨stones, _ | ⟨more, rest⟩⟩⟩⟩
  · cases h
  · cases h
  · cases h
  · exact ⟨color, time, stones, rfl⟩
  · cases h

theorem processCmdPlay_isOk (hs : g.Reached P cfg) (he : g.mctsPlayer = some e)
    {args : List (List Char)} {pondered : List (Action K)}
    (protocol : g.takes P .play args = true)
    (careful : g.carefulPlay P cfg args pondered = true) :
    ∃ g', g.processCmdPlay P cfg args pondered = .ok g' := by
  obtain ⟨color, move, rfl⟩ := args_of_takes_play protocol
  rw [GTP.carefulPlay, he] at careful
  simp only [Bool.and_eq_true, Bool.not_eq_true'] at careful
  obtain ⟨⟨⟨⟨color, move⟩, going⟩, returns⟩, safe⟩ := careful
  obtain ⟨legal, stands⟩ := Bool.and_eq_true_iff.mp safe
  obtain ⟨e₁, stopped⟩ := exists_stopPondering he returns
  obtain ⟨-, -, same, -⟩ := Engine.stopPondering_eq_ok stopped
  have root : e₁.player.root.isSome = true := by
    rw [same.root]
    exact (hs.root e he).resolve_right fun resigned => by simp [going] at resigned
  obtain ⟨e₂, played⟩ := play_isOk root (by rw [same.rootBoard]; exact legal)
    (by rw [same.rootBoard]; exact stands)
  unfold GTP.processCmdPlay
  rw [player_of_some he, ok_bind, stopped, ok_bind]
  simp only [List.getElem?_cons_zero, List.getElem?_cons_succ] at color move ⊢
  rw [scanUnread_of_fits color, ok_bind, scan_of_fits move, ok_bind, played]
  exact ⟨_, rfl⟩

theorem processCmdGenmove_isOk (hs : g.Reached P cfg) (he : g.mctsPlayer = some e)
    {args : List (List Char)} {pondered searched : List (Action K)}
    (protocol : g.takes P .genmove args = true)
    (careful : g.carefulGenmove P cfg args pondered searched = true) :
    ∃ g', g.processCmdGenmove P cfg args pondered searched = .ok g' := by
  obtain ⟨color, rfl⟩ := args_of_takes_genmove protocol
  rw [GTP.carefulGenmove, he] at careful
  dsimp only at careful
  cases stopped : e.stopPondering P cfg pondered with
  | error => simp [stopped] at careful
  | ok e₁ =>
      cases passed : g.implicitPass P e₁ with
      | error => simp [stopped, passed] at careful
      | ok e₂ =>
          simp only [stopped, passed, Bool.and_eq_true, Bool.not_eq_true'] at careful
          obtain ⟨⟨color, going⟩, searches⟩ := careful
          obtain ⟨reached, root, vec⟩ := reached_implicitPass hs he stopped passed
          obtain ⟨⟨sPos, e₃⟩, moved⟩ := genApplyMove_isOk reached vec root searches
          unfold GTP.processCmdGenmove
          rw [player_of_some he, ok_bind, stopped, ok_bind, passed, ok_bind]
          simp only [List.getElem?_cons_zero] at color ⊢
          rw [scanUnread_of_fits color, ok_bind, moved]
          exact ⟨_, rfl⟩

omit [Field K] [LinearOrder K] in
theorem processCmdTimeleft_isOk (he : g.mctsPlayer = some e) {args : List (List Char)}
    (protocol : g.takes P .timeLeft args = true) (careful : GTP.carefulTimeleft args = true) :
    ∃ g', g.processCmdTimeleft args = .ok g' := by
  obtain ⟨color, time, stones, rfl⟩ := args_of_takes_timeLeft protocol
  simp only [GTP.carefulTimeleft, Bool.and_eq_true, List.getElem?_cons_zero,
    List.getElem?_cons_succ] at careful
  obtain ⟨⟨color, time⟩, stones⟩ := careful
  unfold GTP.processCmdTimeleft
  simp only [List.getElem?_cons_zero, List.getElem?_cons_succ]
  rw [scan_of_fits color, ok_bind, scan_of_fits time, ok_bind, scan_of_fits stones, ok_bind,
    player_of_some he]
  exact ⟨_, rfl⟩

theorem stopPlayer_isOk {pondered : List (Action K)} (returns : g.returns P cfg pondered = true) :
    g.stopPlayer P cfg pondered = .ok () := by
  unfold GTP.stopPlayer
  split
  · rfl
  · next e he =>
      obtain ⟨e', stopped⟩ := exists_stopPondering he returns
      rw [stopped]
      rfl

/-! ## Runs

A session that is handled line by line. -/

variable [FloorRing K]

/-- A session before `quit` has a player. -/
structure GTP.Live (P : Pachi B) (cfg : GtpConfig B K) (g : GTP B K) : Prop where
  reached : g.Reached P cfg
  player : g.isQuit = false → g.mctsPlayer.isSome = true

/-- A line that is handled has its response. -/
theorem processCmd_isOk (hs : g.Live P cfg) (notQuit : g.isQuit = false) {l : CommandLine K}
    (protocol : g.followsProtocol P l = true) (careful : g.careful P cfg l = true) :
    ∃ g', g.processCmd P cfg l = .ok g' := by
  obtain ⟨e, he⟩ := Option.isSome_iff_exists.mp (hs.player notQuit)
  unfold GTP.followsProtocol at protocol
  unfold GTP.careful at careful
  unfold GTP.processCmd
  cases hwords : words l.text with
  | nil => simp [hwords] at protocol
  | cons name args =>
      rw [hwords] at protocol careful
      cases hc : Command.ofText name with
      | none => simp [hc] at protocol
      | some c =>
          obtain ⟨dispatched, scanned⟩ := dispatch_of_ofText hc
          simp only [hc] at protocol careful
          rw [List.head?_cons, scanned, ok_bind, List.tail_cons]
          dsimp only
          rw [dispatched]
          cases c with
          | play => exact processCmdPlay_isOk hs.reached he protocol careful
          | genmove => exact processCmdGenmove_isOk hs.reached he protocol careful
          | timeLeft => exact processCmdTimeleft_isOk he protocol careful
          | quit =>
              dsimp only
              rw [GTP.processCmdQuit, stopPlayer_isOk careful]
              exact ⟨_, rfl⟩
          | clearBoard =>
              dsimp only
              rw [GTP.processCmdClearboard, stopPlayer_isOk careful]
              exact ⟨_, rfl⟩
          | finalScore =>
              dsimp only
              rw [GTP.processCmdFinalscore, player_of_some he]
              exact ⟨_, rfl⟩
          | showBoard =>
              dsimp only
              rw [GTP.processCmdShowboard, player_of_some he]
              exact ⟨_, rfl⟩
          | _ => exact ⟨_, rfl⟩

omit [FloorRing K] in
/-- The move of a careful `play` is no resignation. -/
theorem not_resign_of_careful {l : CommandLine K} {args : List (List Char)} {pos : List Char}
    (calls : l.Calls .play args) (hpos : args[1]? = some pos)
    (protocol : g.followsProtocol P l = true) (careful : g.careful P cfg l = true) :
    strcasecmp pos "RESIGN".toList = false := by
  obtain ⟨name, hwords, dispatched⟩ := calls
  rw [GTP.followsProtocol, hwords] at protocol
  rw [GTP.careful, hwords] at careful
  dsimp only at protocol careful
  cases hc : Command.ofText name with
  | none => simp [hc] at protocol
  | some c =>
      obtain rfl : c = .play :=
        Option.some.inj ((dispatch_of_ofText hc).1.symm.trans dispatched)
      rw [hc] at careful
      have short : pos.length < 5 := by
        simp only [GTP.carefulPlay, hpos, Bool.and_eq_true] at careful
        simpa [fits] using careful.1.1.1.2
      unfold strcasecmp
      refine decide_eq_false fun same => ?_
      have long : pos.length = 6 := by simpa using congrArg List.length same
      omega

omit [FloorRing K] in
/-- A line that is handled keeps the player, until `quit`. -/
theorem live_of_responds (hs : g.Live P cfg) {g' : GTP B K} {l : CommandLine K}
    (protocol : g.followsProtocol P l = true) (careful : g.careful P cfg l = true)
    (h : Responds P cfg g l g') : g'.Live P cfg := by
  refine ⟨reached_of_responds hs.reached h, fun notQuit => ?_⟩
  cases h with
  | told => exact hs.player notQuit
  | timed => rfl
  | played e e₁ e₂ args pos response calls hpos he stopped hplay =>
      dsimp only
      rw [not_resign_of_careful calls hpos protocol careful]
      rfl
  | moved => rfl
  | quit => cases notQuit
  | cleared => rfl

/-- The responses printed so far. -/
def responses : Except Fault (GTP B K) → ℕ
  | .ok g => g.printed.length
  | .error _ => 0

end

/-- A move of each side, with a search, and the other commands. -/
def shortSession : List (CommandLine ℚ) :=
  [⟨"genmove b".toList, [],
      [.select 1 9, .decide 0, .reply 0 (1 / 2) [⟨72, 3 / 5⟩, ⟨-1, 2 / 5⟩]]⟩,
    ⟨"time_left b 300 0".toList, [], []⟩, ⟨"play w C4".toList, [], []⟩,
    ⟨"clear_board".toList, [], []⟩, ⟨"play w pass".toList, [], []⟩, ⟨"quit".toList, [], []⟩]

end EstarGo
