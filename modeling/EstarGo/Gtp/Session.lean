import EstarGo.Gtp.Gtp
import EstarGo.Player.Structure

/-!
# What a command does

`Responds` lists the outcomes of a command line that is handled to its end, with
the session after it; `responds_of_processCmd` is the inversion of `processCmd`.
Each outcome prints one response, and the player of a session is one that
`playerMachine` reaches.

## Main definitions

* `Engine.Reached`, `GTP.Reached` — the player is reachable, and idle between
  commands.
* `Responds` — the outcomes of a command line.

## Main results

* `responds_of_processCmd`: every response is one of the outcomes.
* `printed_of_responds`: one response for each line.
* `reached_of_responds`: the player stays reachable, with a root until it
  resigns.

## Design notes

**The player's invariants carry over.**  A handler runs steps of the player, so
whatever holds of every reachable player holds of the player of a session, and
no invariant of the tree has to be proved again for commands.
-/

namespace EstarGo

open Verif

/-- A computation with an outcome, in two parts. -/
theorem bind_eq_ok {ε α β : Type} {x : Except ε α} {f : α → Except ε β} {b : β}
    (h : x >>= f = .ok b) : ∃ a, x = .ok a ∧ f a = .ok b := by
  cases x with
  | error e => cases h
  | ok a => exact ⟨a, rfl, h⟩

/-! ## The engine

Each function that returns an engine is inverted, and each leaves the player
reachable. -/

section Engine

variable {B K : Type} [Field K] [LinearOrder K] {P : Pachi B} {cfg : GtpConfig B K}

/-- The player of the engine is reachable, and no selection is in progress.
What is proved of every run of the player is thereby known of the session's. -/
structure Engine.Reached (P : Pachi B) (cfg : GtpConfig B K) (e : Engine B K) : Prop where
  run : ∃ board as, (playerMachine P cfg.settings).exec (Player.start board) as = some e.player
  idle : e.player.selections = []

namespace Engine

variable {e e' : Engine B K}

/-- A new engine has a new player. -/
theorem reached_new (board : GoBoard B) : (Engine.new board : Engine B K).Reached P cfg :=
  ⟨⟨board, [], rfl⟩, rfl⟩

theorem Reached.structured (hs : e.Reached P cfg) : Structured e.player := by
  obtain ⟨board, as, run⟩ := hs.run
  exact structured_run run

/-- A reachable player that goes on is reachable. -/
theorem Reached.exec (hs : e.Reached P cfg) {as : List (Action K)}
    (run : (playerMachine P cfg.settings).exec e.player as = some e'.player)
    (idle : e'.player.selections = []) : e'.Reached P cfg := by
  obtain ⟨board, before, hbefore⟩ := hs.run
  refine ⟨⟨board, before ++ as, ?_⟩, idle⟩
  rw [Machine.exec_append, hbefore]
  exact run

/-- What a search leaves alone.  A handler that runs one can go on with what it
knew of the game. -/
structure SameGame (s s' : Player B K) : Prop where
  root : s'.root = s.root
  rootBoard : s'.rootBoard = s.rootBoard
  opAction : s'.opAction = s.opAction
  stopRollout : s'.stopRollout = s.stopRollout

/-- A step of a search thread is no command. -/
theorem sameGame_step {s s' : Player B K} {a : Action K} {rollout : Option ℤ}
    (search : a.isSearch rollout = true) (h : s.step P cfg.settings a = some s') :
    SameGame s s' := by
  cases moves_of_step h with
  | freshRoot | stopped | resigned => cases search
  | childRoot _ _ _ _ _ _ _ command =>
      rcases command with rfl | ⟨pos, rfl⟩ <;> cases search
  | _ => exact ⟨rfl, rfl, rfl, rfl⟩

theorem sameGame_run {s s' : Player B K} {as : List (Action K)} {rollout : Option ℤ}
    (search : ∀ a ∈ as, a.isSearch rollout = true)
    (run : (playerMachine P cfg.settings).exec s as = some s') : SameGame s s' := by
  refine (playerMachine P cfg.settings).invariant (I := SameGame s) ?_ ⟨rfl, rfl, rfl, rfl⟩
    ((playerMachine P cfg.settings).guarded_of_forall_mem search s) run
  intro t t' a ht search h
  obtain ⟨root, board, opAction, stop⟩ := sameGame_step search h
  exact ⟨root.trans ht.root, board.trans ht.rootBoard, opAction.trans ht.opAction,
    stop.trans ht.stopRollout⟩

theorem runSearch_eq_ok {rollout : Option ℤ} {search : List (Action K)}
    (h : e.runSearch P cfg rollout search = .ok e') :
    (playerMachine P cfg.settings).exec e.player search = some e'.player ∧
      e'.player.selections = [] ∧ e' = { e with player := e'.player } ∧
        SameGame e.player e'.player := by
  unfold runSearch at h
  split at h
  · cases h
  · next player run =>
      split at h
      · next returned =>
          obtain rfl := Except.ok.inj h
          simp only [Bool.and_eq_true, List.all_eq_true, List.isEmpty_iff] at returned
          exact ⟨run, returned.1.2, rfl, sameGame_run returned.1.1 run⟩
      · cases h

/-- A search leads to a reachable player without a selection. -/
theorem Reached.runSearch (hs : e.Reached P cfg) {rollout : Option ℤ} {search : List (Action K)}
    (h : e.runSearch P cfg rollout search = .ok e') : e'.Reached P cfg := by
  obtain ⟨run, idle, -, -⟩ := runSearch_eq_ok h
  exact hs.exec run idle

theorem stopPondering_eq_ok {pondered : List (Action K)}
    (h : e.stopPondering P cfg pondered = .ok e') :
    e'.searchThreadVec = 0 ∧ e'.timeRemain = e.timeRemain ∧ SameGame e.player e'.player ∧
      (e.Reached P cfg → e'.Reached P cfg) := by
  obtain ⟨e₁, hrun, h⟩ := bind_eq_ok h
  obtain rfl := Except.ok.inj h
  obtain ⟨run, idle, heq, same⟩ := runSearch_eq_ok hrun
  exact ⟨rfl, by rw [heq], same, fun hs => hs.exec run idle⟩

omit [LinearOrder K] in
theorem play_eq_ok {pos : List Char} (h : e.play P pos = .ok e') :
    e.player.play P pos = some e'.player ∧ e' = { e with player := e'.player } := by
  unfold Engine.play at h
  split at h
  · cases h
  · split at h
    · cases h
    · next player hplay =>
        obtain rfl := Except.ok.inj h
        exact ⟨hplay, rfl⟩

/-- `play` starts no selection, and leaves a root. -/
theorem idle_of_play (cfg : Settings K) {s s' : Player B K} {pos : List Char}
    (idle : s.selections = []) (h : s.play P pos = some s') :
    s'.selections = [] ∧ s'.root.isSome = true := by
  obtain ⟨root, hroot, -⟩ := Option.bind_eq_some_iff.mp h
  have moved : Moves P cfg s (.play pos) s' := moves_of_play idle h
  cases moved with
  | freshRoot => exact ⟨idle, rfl⟩
  | childRoot => exact ⟨idle, rfl⟩
  | ignored => exact ⟨idle, by rw [hroot]; rfl⟩

/-- `gen_apply_move` starts no selection, and drops the root exactly to
resign. -/
theorem idle_of_genApplyMove {cfg : Settings K} {s s' : Player B K} {text : List Char}
    (idle : s.selections = []) (h : s.genApplyMove P cfg = some (text, s')) :
    s'.selections = [] ∧ (strcasecmp text "resign".toList = false → s'.root.isSome = true) := by
  obtain ⟨root, hroot, h⟩ := Option.bind_eq_some_iff.mp h
  split at h
  · obtain ⟨rfl, rfl⟩ := Prod.mk.inj (Option.some.inj h)
    exact ⟨idle, fun _ => by rw [hroot]; rfl⟩
  obtain ⟨res, -, h⟩ := Option.bind_eq_some_iff.mp h
  split at h
  · obtain ⟨rfl, rfl⟩ := Prod.mk.inj (Option.some.inj h)
    exact ⟨idle, fun resign => absurd resign (by decide)⟩
  split at h
  · cases h
  · split at h
    · cases h
    · obtain ⟨rfl, rfl⟩ := Prod.mk.inj (Option.some.inj h)
      exact ⟨idle, fun _ => rfl⟩

theorem Reached.step (hs : e.Reached P cfg) {a : Action K}
    (h : e.player.step P cfg.settings a = some e'.player) (idle : e'.player.selections = []) :
    e'.Reached P cfg := by
  have run : (playerMachine P cfg.settings).exec e.player [a] = some e'.player := by
    show (e.player.step P cfg.settings a).bind _ = _
    rw [h]
    rfl
  exact hs.exec run idle

/-- `play` is a step of the player, and leaves a root. -/
theorem Reached.play (hs : e.Reached P cfg) {pos : List Char} (h : e.play P pos = .ok e') :
    e'.Reached P cfg ∧ e'.player.root.isSome = true := by
  obtain ⟨hplay, -⟩ := play_eq_ok h
  obtain ⟨idle, root⟩ := idle_of_play cfg.settings hs.idle hplay
  refine ⟨hs.step (a := .play pos) ?_ idle, root⟩
  rw [Player.step, if_pos (List.isEmpty_iff.mpr hs.idle)]
  exact hplay

/-- The inversion of `genApplyMove`: it passes where the rollouts have stopped,
or it searches and moves. -/
theorem genApplyMove_eq_ok {searched : List (Action K)} {text : List Char}
    (h : e.genApplyMove P cfg searched = .ok (text, e')) :
    (e.player.stopRollout = true ∧ text = "pass".toList ∧ e' = e) ∨
    ∃ e₁ stop player, e.player.stopRollout = false ∧
      e.runSearch P cfg (if cfg.searchThreads = 0 ∨ stop = true then none else some 1) searched =
        .ok e₁ ∧
      e₁.player.genApplyMove P cfg.settings = some (text, player) ∧
      e' = { e₁ with
        player := if stop = true then { player with stopRollout := true } else player } := by
  unfold Engine.genApplyMove at h
  split at h
  · cases h
  split at h
  · next stopped =>
      obtain ⟨rfl, rfl⟩ := Prod.mk.inj (Except.ok.inj h)
      exact .inl ⟨stopped, rfl, rfl⟩
  split at h
  · cases h
  · next going _ =>
      obtain ⟨stop, -, h⟩ := bind_eq_ok h
      obtain ⟨e₁, hrun, h⟩ := bind_eq_ok h
      split at h
      · cases h
      · next text' player hgen =>
          obtain ⟨rfl, rfl⟩ := Prod.mk.inj (Except.ok.inj h)
          exact .inr ⟨e₁, stop, player, by simpa using going, hrun, hgen, rfl⟩

/-- The flag is set by a step of its own, in any order with the move. -/
theorem Reached.genApplyMove (hs : e.Reached P cfg) {searched : List (Action K)}
    {text : List Char} (h : e.genApplyMove P cfg searched = .ok (text, e'))
    (root : e.player.root.isSome = true) : e'.Reached P cfg ∧
      (strcasecmp text "resign".toList = false → e'.player.root.isSome = true) := by
  rcases genApplyMove_eq_ok h with ⟨-, -, rfl⟩ | ⟨e₁, stop, player, going, hrun, hgen, rfl⟩
  · exact ⟨hs, fun _ => root⟩
  have reached := hs.runSearch hrun
  obtain ⟨idle, keeps⟩ := idle_of_genApplyMove reached.idle hgen
  have moved : ({ e₁ with player := player } : Engine B K).Reached P cfg := by
    refine reached.step (a := .genApplyMove) ?_ idle
    rw [Player.step, if_pos (List.isEmpty_iff.mpr reached.idle), hgen]
    rfl
  cases stop with
  | false => exact ⟨moved, keeps⟩
  | true => exact ⟨moved.step (a := .stop) rfl idle, keeps⟩

end Engine

end Engine

/-! ## The session

The same, handler by handler. -/

section

variable {B K : Type} [Field K] [LinearOrder K] [FloorRing K]

/-- The line is dispatched to the handler of this command, with these
arguments. -/
def CommandLine.Calls (l : CommandLine K) (c : Command) (args : List (List Char)) : Prop :=
  ∃ cmdName, words l.text = cmdName :: args ∧ dispatch cmdName = some c

/-- The outcomes of a command line.  There is one for each kind of handler, with
all that it has done on its way. -/
inductive Responds (P : Pachi B) (cfg : GtpConfig B K) (g : GTP B K) (l : CommandLine K) :
    GTP B K → Prop where
  | told (response : List Char) :
      Responds P cfg g l { g with printed := g.printed ++ [response] }
  | timed (e : Engine B K) (time : ℤ) (response : List Char) (he : g.mctsPlayer = some e) :
      Responds P cfg g l { g with
        printed := g.printed ++ [response]
        mctsPlayer := some { e with timeRemain := time } }
  | played (e e₁ e₂ : Engine B K) (args : List (List Char)) (pos response : List Char)
      (calls : l.Calls .play args) (hpos : args[1]? = some pos) (he : g.mctsPlayer = some e)
      (stopped : e.stopPondering P cfg l.pondered = .ok e₁) (hplay : e₁.play P pos = .ok e₂) :
      Responds P cfg g l { g with
        printed := g.printed ++ [response]
        mctsPlayer := if strcasecmp pos "RESIGN".toList then none else some e₂
        isLcmdGenmove := false }
  | moved (e e₁ e₂ e₃ e₄ : Engine B K) (args : List (List Char)) (sPos response : List Char)
      (calls : l.Calls .genmove args) (he : g.mctsPlayer = some e)
      (stopped : e.stopPondering P cfg l.pondered = .ok e₁)
      (passed : g.implicitPass P e₁ = .ok e₂)
      (hgen : e₂.genApplyMove P cfg l.searched = .ok (sPos, e₃))
      (he₄ : e₄ = e₃ ∨ e₄ = e₃.startPondering cfg) :
      Responds P cfg g l { g with
        printed := g.printed ++ [response]
        mctsPlayer := some e₄
        isLcmdGenmove := true
        resigned := strcasecmp sPos "resign".toList }
  | quit (response : List Char) :
      Responds P cfg g l { g with
        printed := g.printed ++ [response]
        mctsPlayer := none
        isQuit := true }
  | cleared (response : List Char) :
      Responds P cfg g l { g.initializePlayer cfg (GoBoard.new P) with
        printed := g.printed ++ [response] }

variable {P : Pachi B} {cfg : GtpConfig B K} {g g' : GTP B K} {l : CommandLine K}

/-- A token that fits is read as it is. -/
theorem scan_eq_ok {size : ℕ} {token : Option (List Char)} {text : List Char}
    (h : scan size token = .ok text) : token = some text ∧ text.length < size := by
  unfold scan at h
  split at h
  · cases h
  · split at h
    · next hlt =>
        obtain rfl := Except.ok.inj h
        exact ⟨rfl, hlt⟩
    · cases h

omit [Field K] [LinearOrder K] [FloorRing K] in
/-- A handler that uses the player has one. -/
theorem player_eq_ok {e : Engine B K} (h : g.player = .ok e) : g.mctsPlayer = some e := by
  unfold GTP.player at h
  split at h
  · cases h
  · next he => rw [he, Except.ok.inj h]

omit [FloorRing K] in
/-- The outcome of `play`, which may delete the player. -/
theorem responds_of_play {args : List (List Char)} (calls : l.Calls .play args)
    (h : g.processCmdPlay P cfg args l.pondered = .ok g') : Responds P cfg g l g' := by
  obtain ⟨e, he, h⟩ := bind_eq_ok h
  obtain ⟨e₁, stopped, h⟩ := bind_eq_ok h
  obtain ⟨_, -, h⟩ := bind_eq_ok h
  obtain ⟨pos, hpos, h⟩ := bind_eq_ok h
  obtain ⟨e₂, hplay, h⟩ := bind_eq_ok h
  obtain rfl := Except.ok.inj h
  exact .played e e₁ e₂ args pos _ calls (scan_eq_ok hpos).1 (player_eq_ok he) stopped hplay

omit [FloorRing K] in
/-- The outcome of `genmove`, with or without pondering after it. -/
theorem responds_of_genmove {args : List (List Char)} (calls : l.Calls .genmove args)
    (h : g.processCmdGenmove P cfg args l.pondered l.searched = .ok g') :
    Responds P cfg g l g' := by
  obtain ⟨e, he, h⟩ := bind_eq_ok h
  obtain ⟨e₁, stopped, h⟩ := bind_eq_ok h
  obtain ⟨e₂, passed, h⟩ := bind_eq_ok h
  obtain ⟨_, -, h⟩ := bind_eq_ok h
  obtain ⟨⟨sPos, e₃⟩, hgen, h⟩ := bind_eq_ok h
  obtain rfl := Except.ok.inj h
  refine .moved e e₁ e₂ e₃ _ args sPos _ calls (player_eq_ok he) stopped passed hgen ?_
  split
  · exact .inr rfl
  · exact .inl rfl

omit [FloorRing K] in
/-- The outcome of `time_left`, for either color. -/
theorem responds_of_timeleft {args : List (List Char)}
    (h : g.processCmdTimeleft args = .ok g') : Responds P cfg g l g' := by
  obtain ⟨color, -, h⟩ := bind_eq_ok h
  obtain ⟨time, -, h⟩ := bind_eq_ok h
  obtain ⟨_, -, h⟩ := bind_eq_ok h
  obtain ⟨e, he, h⟩ := bind_eq_ok h
  obtain rfl := Except.ok.inj h
  have he := player_eq_ok he
  dsimp only
  generalize (if color.head?.map Char.toUpper = some 'W' then Color.white else .black) = k
  split
  · exact .timed e (atoi time) _ he
  · exact .timed e e.timeRemain _ he

omit [FloorRing K] in
/-- The outcome of `quit`, with or without a player. -/
theorem responds_of_quit (h : g.processCmdQuit P cfg l.pondered = .ok g') :
    Responds P cfg g l g' := by
  obtain ⟨_, -, h⟩ := bind_eq_ok h
  obtain rfl := Except.ok.inj h
  exact .quit _

omit [FloorRing K] in
/-- The outcome of `clear_board`, with or without a player. -/
theorem responds_of_clearboard (h : g.processCmdClearboard P cfg l.pondered = .ok g') :
    Responds P cfg g l g' := by
  obtain ⟨_, -, h⟩ := bind_eq_ok h
  obtain rfl := Except.ok.inj h
  exact .cleared _

/-- **Every response is one of the outcomes.**  The handlers are unfolded here,
and each invariant of a session is then proved by cases on the outcome. -/
theorem responds_of_processCmd (h : g.processCmd P cfg l = .ok g') : Responds P cfg g l g' := by
  obtain ⟨cmdName, hname, h⟩ := bind_eq_ok h
  have calls (c : Command) (hc : dispatch cmdName = some c) : l.Calls c (words l.text).tail :=
    ⟨cmdName, (List.cons_head?_tail (scan_eq_ok hname).1).symm, hc⟩
  have told {response : List Char}
      (h : (.ok { g with printed := g.printed ++ [response] } : Except Fault (GTP B K)) = .ok g') :
      Responds P cfg g l g' := by
    obtain rfl := Except.ok.inj h
    exact .told response
  dsimp only at h
  split at h
  case h_1 hc => exact responds_of_play (calls _ hc) h
  case h_2 hc => exact responds_of_genmove (calls _ hc) h
  case h_3 => exact responds_of_timeleft h
  case h_4 => exact responds_of_quit h
  case h_10 => exact responds_of_clearboard h
  case h_12 =>
    obtain ⟨e, -, h⟩ := bind_eq_ok h
    exact told h
  case h_14 =>
    obtain ⟨e, -, h⟩ := bind_eq_ok h
    exact told h
  all_goals exact told h

omit [FloorRing K] in
/-- **One response for each line.**  A line that comes to a fault has none, and
is no outcome. -/
theorem printed_of_responds (h : Responds P cfg g l g') :
    ∃ response, g'.printed = g.printed ++ [response] := by
  cases h <;> exact ⟨_, rfl⟩

/-- The player of a session is reachable, and has a root unless the last command
was a `genmove` that it resigned. -/
structure GTP.Reached (P : Pachi B) (cfg : GtpConfig B K) (g : GTP B K) : Prop where
  player : ∀ e, g.mctsPlayer = some e → e.Reached P cfg
  root : ∀ e, g.mctsPlayer = some e →
    e.player.root.isSome = true ∨ (g.resigned = true ∧ g.isLcmdGenmove = true)

omit [FloorRing K] in
/-- A session that was initialized has a new player. -/
theorem reached_initialize (board : GoBoard B) : (g.initializePlayer cfg board).Reached P cfg := by
  constructor
  · intro e he
    obtain rfl := Option.some.inj he
    exact Engine.reached_new board
  · intro e he
    obtain rfl := Option.some.inj he
    exact .inl rfl

omit [FloorRing K] in
theorem reached_start (board : GoBoard B) : (GTP.start cfg board).Reached P cfg :=
  reached_initialize board

omit [FloorRing K] in
/-- The implicit pass finds a root. -/
theorem reached_implicitPass {e e₁ e₂ : Engine B K} (hs : g.Reached P cfg)
    (he : g.mctsPlayer = some e) {pondered : List (Action K)}
    (stopped : e.stopPondering P cfg pondered = .ok e₁)
    (passed : g.implicitPass P e₁ = .ok e₂) :
    e₂.Reached P cfg ∧ e₂.player.root.isSome = true ∧ e₂.searchThreadVec = 0 := by
  obtain ⟨vec, -, same, reached⟩ := Engine.stopPondering_eq_ok stopped
  have reached := reached (hs.player e he)
  unfold GTP.implicitPass at passed
  split at passed
  · obtain ⟨reached, root⟩ := reached.play passed
    refine ⟨reached, root, ?_⟩
    rw [(Engine.play_eq_ok passed).2]
    exact vec
  · next notLast =>
      obtain rfl := Except.ok.inj passed
      refine ⟨reached, ?_, vec⟩
      rw [same.root]
      exact (hs.root e he).resolve_right fun h => notLast h.2

omit [Field K] [LinearOrder K] [FloorRing K] in
/-- Pondering starts on the player as it is. -/
theorem player_of_pondering {e e' : Engine B K} (h : e' = e ∨ e' = e.startPondering cfg) :
    e'.player = e.player := by
  rcases h with rfl | rfl
  · rfl
  · unfold Engine.startPondering
    split <;> rfl

omit [FloorRing K] in
/-- **The player stays reachable.**  A handler runs steps of the player's
machine and nothing else, or puts a new player in its place. -/
theorem reached_of_responds (hs : g.Reached P cfg) (h : Responds P cfg g l g') :
    g'.Reached P cfg := by
  cases h with
  | told => exact ⟨hs.player, hs.root⟩
  | timed e time response he =>
      constructor
      · intro e' he'
        obtain rfl := Option.some.inj he'
        exact ⟨(hs.player e he).run, (hs.player e he).idle⟩
      · intro e' he'
        obtain rfl := Option.some.inj he'
        exact hs.root e he
  | played e e₁ e₂ args pos response calls hpos he stopped hplay =>
      obtain ⟨-, -, -, reached⟩ := Engine.stopPondering_eq_ok stopped
      obtain ⟨reached, root⟩ := (reached (hs.player e he)).play hplay
      have here {e' : Engine B K}
          (he' : (if strcasecmp pos "RESIGN".toList then none else some e₂) = some e') :
          e' = e₂ := by
        split at he'
        · cases he'
        · exact (Option.some.inj he').symm
      exact ⟨fun e' he' => here he' ▸ reached, fun e' he' => .inl (here he' ▸ root)⟩
  | moved e e₁ e₂ e₃ e₄ args sPos response calls he stopped passed hgen he₄ =>
      obtain ⟨reached, root, -⟩ := reached_implicitPass hs he stopped passed
      obtain ⟨reached, root⟩ := reached.genApplyMove hgen root
      have same := player_of_pondering he₄
      constructor
      · intro e' he'
        obtain rfl := Option.some.inj he'
        exact ⟨same ▸ reached.run, same ▸ reached.idle⟩
      · intro e' he'
        obtain rfl := Option.some.inj he'
        dsimp only
        cases resign : strcasecmp sPos "resign".toList with
        | true => exact .inr ⟨rfl, rfl⟩
        | false => exact .inl (same ▸ root resign)
  | quit => exact ⟨fun e he => absurd he (by simp), fun e he => absurd he (by simp)⟩
  | cleared =>
      have fresh : (g.initializePlayer cfg (GoBoard.new P)).Reached P cfg := reached_initialize _
      exact ⟨fresh.player, fresh.root⟩

end

end EstarGo
