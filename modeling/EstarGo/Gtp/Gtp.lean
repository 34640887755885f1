import EstarGo.Player.Player
import Mathlib.Algebra.Order.Floor.Defs
import Mathlib.Data.Rat.Floor

/-!
# The protocol

`class GTP`: a session reads command lines, hands each to the handler of its
command, and prints the responses.  What goes wrong in a handler is a `Fault`.

## Main definitions

* `GTP`, `GtpConfig` — a session and its configuration.
* `Engine` — the members of the player that a session reads.
* `processCmd` — one command line.
* `gtpMachine` — `run`: command lines until `quit`.

## Main results

* `dispatch_text`: each command is dispatched to its own handler.

## Design notes

**What the threads do is in the label.**  A command line comes with the steps of
the search threads around it: `pondered` since the last command that stops them,
and `searched` within `genmove`.  A handler that waits for the threads runs
these steps of the player, and fails where they do not end.

**Time.**  The time policy is modelled as far as it decides whether
`est_timeout_rollout` returns and whether it stops the rollouts.  How many
rollouts fit into the time is whatever the label says.

**Texts.**  Every response is printed as the source prints it, but for the text
of `showboard`, which is a parameter.
-/

namespace EstarGo

open Verif

/-- What goes wrong in a handler, by the access, the assertion or the loop that
fails.  A session that has come to a fault makes no further step. -/
inductive Fault where
  /-- A token and its terminator do not fit the array they are copied to. -/
  | overflow
  /-- A missing argument leaves an array uninitialised that is read. -/
  | missing
  /-- A null `mcts_player` is used. -/
  | nullPlayer
  /-- A null root is used. -/
  | nullRoot
  /-- An assertion of `play` or `gen_apply_move` fails. -/
  | assertion
  /-- The process ends within a move: on an illegal one, without one, or by an
  assertion of the vendored board. -/
  | exit
  /-- `est_timeout_rollout` does not return. -/
  | hang
  /-- The search threads do not return, or an assertion of the vendored board
  fails in a descent. -/
  | search
  deriving DecidableEq, Repr

/-! ## Commands

The switch, and the scanning of arguments. -/

/-- The commands of the switch, one for each case. -/
inductive Command where
  | play
  | genmove
  | timeLeft
  | quit
  | name
  | protocolVersion
  | version
  | listCommands
  | boardsize
  | clearBoard
  | komi
  | finalScore
  | timeSettings
  | showBoard
  deriving DecidableEq, Repr

namespace Command

/-- `GTP_CMD_PLAY` to `GTP_SHOW_BOARD`, the names of the commands. -/
def text : Command → List Char
  | play => "play".toList
  | genmove => "genmove".toList
  | timeLeft => "time_left".toList
  | quit => "quit".toList
  | name => "name".toList
  | protocolVersion => "protocol_version".toList
  | version => "version".toList
  | listCommands => "list_commands".toList
  | boardsize => "boardsize".toList
  | clearBoard => "clear_board".toList
  | komi => "komi".toList
  | finalScore => "final_score".toList
  | timeSettings => "time_settings".toList
  | showBoard => "showboard".toList

/-- The commands in the order of `list_commands`. -/
def all : List Command :=
  [play, genmove, timeLeft, quit, name, protocolVersion, version, listCommands, boardsize,
    clearBoard, komi, finalScore, timeSettings, showBoard]

end Command

/-- `prime`, of the hash of command names. -/
def hashPrime : UInt64 := 0x100000001B3

/-- `basis`, the hash of the empty text. -/
def hashBasis : UInt64 := 0xCBF29CE484222325

/-- `hash_` and `hash_compile_time`: a character is widened with its sign,
combined and multiplied.  On the bytes of a string they are loops of their own,
and the same function. -/
def hash_ (str : List Char) : UInt64 :=
  str.foldl (fun ret c => (ret ^^^ UInt64.ofInt (charValue c)) * hashPrime) hashBasis

/-- The switch of `process_cmd`, which compares hashes and no texts.  A text
that is no command but has the hash of one would come to its handler. -/
def dispatch (cmdName : List Char) : Option Command :=
  Command.all.find? fun c => hash_ c.text = hash_ cmdName

/-- Each command is dispatched to its own handler: the fourteen names have
different hashes. -/
theorem dispatch_text (c : Command) : dispatch c.text = some c := by
  cases c <;> decide +kernel

/-- The tokens that `sscanf` reads with `%s`, separated by blanks. -/
def words (line : List Char) : List (List Char) :=
  (line.splitOnP isSpace).filter (· ≠ [])

/-- `%s` into an array of a size, which must have room for the terminator.
`sscanf` is given no width, so a longer token is written past the end. -/
def scan (size : ℕ) (token : Option (List Char)) : Except Fault (List Char) :=
  match token with
  | none => .error .missing
  | some text => if text.length < size then .ok text else .error .overflow

/-- `%s` into an array that nothing reads.  A missing token does no harm there,
and one that is too long does. -/
def scanUnread (size : ℕ) (token : Option (List Char)) : Except Fault Unit :=
  match token with
  | none => .ok ()
  | some text => (scan size (some text)).map fun _ => ()

/-- The color a command names, in either case, by a letter or the word. -/
def namedColor (arg : List Char) : Option Color :=
  if strcasecmp arg "b".toList || strcasecmp arg "black".toList then some .black
  else if strcasecmp arg "w".toList || strcasecmp arg "white".toList then some .white
  else none

/-! ## The engine

What a session does with its player, beside the player's own steps. -/

/-- What a session reads of `Config`, the search threads and the text of a
board. -/
structure GtpConfig (B K : Type) where
  settings : Settings K
  searchThreads : ℕ
  gtpName : List Char
  gtpVersion : List Char
  isPondering : Bool
  timePolicy : ℤ
  isUec : Bool
  stage150SafeTime : ℤ
  /-- `print_board_buffer`. -/
  printBoard : GoBoard B → List Char

/-- The members of `MCTSPlayer` that a session reads: the player, the size of
`search_thread_vec`, and `time_remain`. -/
structure Engine (B K : Type) where
  player : Player B K
  searchThreadVec : ℕ
  timeRemain : ℤ

/-- The steps of search threads that call `rollout()` with this argument, or of
none. -/
def Action.isSearch {K : Type} (rollout : Option ℤ) : Action K → Bool
  | .select max _ => rollout = some max
  | .decide _ => true
  | .reply _ _ _ => true
  | .recycle _ => true
  | .play _ => false
  | .genApplyMove => false
  | .stop => false

/-- `while (time_remain <= safe_time) safe_time = safe_time / 2`; `none` where
it does not end in so many rounds. -/
def halveSafeTime (timeRemain : ℤ) : ℕ → ℤ → Option ℤ
  | 0, safeTime => if timeRemain ≤ safeTime then none else some safeTime
  | rounds + 1, safeTime =>
      if timeRemain ≤ safeTime then halveSafeTime timeRemain rounds (safeTime.tdiv 2)
      else some safeTime

namespace Engine

variable {B K : Type} [Field K] [LinearOrder K] (P : Pachi B) (cfg : GtpConfig B K)
  (e : Engine B K)

/-- A new `MCTSPlayer`, on the board after `apply_history`.  Its `time_remain`
is 600 seconds until the first `time_left`. -/
def new (board : GoBoard B) : Engine B K where
  player := Player.start board
  searchThreadVec := 0
  timeRemain := 600

/-- The search threads run until they return: no selection and no request is
left.  Where the given steps are no such search, the outcome is the fault of one
that does not end. -/
def runSearch (rollout : Option ℤ) (search : List (Action K)) : Except Fault (Engine B K) :=
  match (playerMachine P cfg.settings).exec e.player search with
  | none => .error .search
  | some player =>
      if search.all (Action.isSearch rollout) && player.selections.isEmpty &&
          player.requests.isEmpty then
        .ok { e with player := player }
      else .error .search

/-- `stop_pondering`, which waits for the threads that have pondered. -/
def stopPondering (pondered : List (Action K)) : Except Fault (Engine B K) := do
  let e' ← e.runSearch P cfg (if e.searchThreadVec = 0 then none else some (-1)) pondered
  return { e' with searchThreadVec := 0 }

/-- `start_pondering`, which adds threads to `search_thread_vec`.  It does
nothing once the rollouts are stopped. -/
def startPondering : Engine B K :=
  if e.player.stopRollout then e
  else { e with searchThreadVec := e.searchThreadVec + cfg.searchThreads }

/-- `est_timeout_rollout`: whether it sets `stop_rollout`, and whether it
returns. -/
def estTimeoutRollout : Except Fault Bool :=
  let nMymove := e.player.rootBoard.getTotalMoves / 2
  if cfg.timePolicy = 0 then .ok false
  else if cfg.isUec && 200 ≤ nMymove then .ok true
  else if 150 ≤ nMymove then
    match halveSafeTime e.timeRemain cfg.stage150SafeTime.natAbs cfg.stage150SafeTime with
    | none => .error .hang
    | some _ => .ok false
  else .ok false

/-- `play`, which asserts that there is a root.  A text that is no legal move
ends the process by `exit`. -/
def play (pos : List Char) : Except Fault (Engine B K) :=
  if e.player.root.isNone then .error .assertion
  else
    match e.player.play P pos with
    | none => .error .exit
    | some player => .ok { e with player := player }

/-- The calls of `est_timeout_rollout` by the search threads, of which there may
be none. -/
def startRollouts : Except Fault Bool :=
  if cfg.searchThreads = 0 then .ok false else e.estTimeoutRollout cfg

/-- `gen_apply_move`.  Where the rollouts are stopped their time is zero, and
nothing reads the flag before the next call. -/
def genApplyMove (searched : List (Action K)) : Except Fault (List Char × Engine B K) :=
  if e.searchThreadVec ≠ 0 then .error .assertion
  else if e.player.stopRollout then .ok ("pass".toList, e)
  else if e.player.root.isNone then .error .nullRoot
  else do
    let stop ← e.startRollouts cfg
    let e' ← e.runSearch P cfg (if cfg.searchThreads = 0 ∨ stop then none else some 1) searched
    match e'.player.genApplyMove P cfg.settings with
    | none => .error .exit
    | some (text, player) =>
        .ok (text, { e' with
          player := if stop then { player with stopRollout := true } else player })

end Engine

/-! ## The score

The number that `final_score` prints. -/

section Score

variable {K : Type} [Field K] [LinearOrder K] [FloorRing K]

/-- The nearest integer, and the even one of two: the rounding of `printf`. -/
def roundHalfEven (x : K) : ℤ :=
  let rest := x - ⌊x⌋
  if rest + rest < 1 then ⌊x⌋
  else if 1 < rest + rest then ⌊x⌋ + 1
  else if ⌊x⌋ % 2 = 0 then ⌊x⌋
  else ⌊x⌋ + 1

/-- `%.1f`, a number with one digit behind the point. -/
def fixed1 (x : K) : List Char :=
  let tenths := (roundHalfEven (((10 : ℕ) : K) * x)).natAbs
  let digits := (toString (tenths / 10)).toList ++ '.' :: (toString (tenths % 10)).toList
  if x < 0 then '-' :: digits else digits

/-- The text of `final_score` for `get_final_score`. -/
def finalScoreText (w : K) : List Char :=
  if 0 < w then "W+".toList ++ fixed1 w else "B+".toList ++ fixed1 (-w)

end Score

/-! ## The session

The members of the class, and its output. -/

/-- The members of `GTP`, whether `process_cmd` has returned true, what it has
printed, and a record: whether `genmove` has answered with a resignation since
the player was made. -/
structure GTP (B K : Type) where
  mctsPlayer : Option (Engine B K)
  isPondering : Bool
  isLcmdGenmove : Bool
  isQuit : Bool
  printed : List (List Char)
  resigned : Bool

/-- A command line, and what the search threads do around it.  The text is what
`fgets` has read. -/
structure CommandLine (K : Type) where
  text : List Char
  pondered : List (Action K)
  searched : List (Action K)

namespace GTP

variable {B K : Type} (g : GTP B K)

/-- `gtp_print`: a response after `= `. -/
def gtpPrint (s : List Char) : GTP B K :=
  { g with printed := g.printed ++ ["= ".toList ++ s ++ "\n\n".toList] }

/-- `gtp_print_err`: a response after `? `. -/
def gtpPrintErr (s : List Char) : GTP B K :=
  { g with printed := g.printed ++ ["? ".toList ++ s ++ "\n\n".toList] }

/-- The player that a handler uses. -/
def player : Except Fault (Engine B K) :=
  match g.mctsPlayer with
  | none => .error .nullPlayer
  | some e => .ok e

section

variable [Field K]

/-- `GTP::initialize`, on the board after `apply_history`. -/
def initializePlayer (cfg : GtpConfig B K) (board : GoBoard B) : GTP B K :=
  { g with
    mctsPlayer := some (Engine.new board)
    isPondering := cfg.isPondering
    isLcmdGenmove := false
    resigned := false }

/-- The session of `main`, after its `initialize`. -/
def start (cfg : GtpConfig B K) (board : GoBoard B) : GTP B K :=
  initializePlayer
    { mctsPlayer := none
      isPondering := false
      isLcmdGenmove := false
      isQuit := false
      printed := []
      resigned := false } cfg board

end

/-! ## The handlers

One for each command. -/

variable [Field K] [LinearOrder K] [FloorRing K] (P : Pachi B) (cfg : GtpConfig B K)

/-- The pass of the opponent that a second `genmove` implies. -/
def implicitPass (e : Engine B K) : Except Fault (Engine B K) :=
  if g.isLcmdGenmove then e.play P "PASS".toList else .ok e

/-- What is done to a player before it is deleted. -/
def stopPlayer (pondered : List (Action K)) : Except Fault Unit :=
  match g.mctsPlayer with
  | none => .ok ()
  | some e => (e.stopPondering P cfg pondered).map fun _ => ()

/-- `process_cmd_play`.  The color is scanned, and never read.  The move is read
into five characters, which is enough for any vertex and for `pass`, and not for
`resign`. -/
def processCmdPlay (args : List (List Char)) (pondered : List (Action K)) :
    Except Fault (GTP B K) := do
  let e ← g.player
  let e ← e.stopPondering P cfg pondered
  scanUnread 5 args[0]?
  let pos ← scan 5 args[1]?
  let e ← e.play P pos
  return { g.gtpPrint [] with
    mctsPlayer := if strcasecmp pos "RESIGN".toList then none else some e
    isLcmdGenmove := false }

/-- `process_cmd_genmove`.  After a `genmove` the opponent has passed, as far as
the code knows: a second one in a row plays a pass for him first. -/
def processCmdGenmove (args : List (List Char)) (pondered searched : List (Action K)) :
    Except Fault (GTP B K) := do
  let e ← g.player
  let e ← e.stopPondering P cfg pondered
  let e ← g.implicitPass P e
  scanUnread 5 args[0]?
  let (sPos, e) ← e.genApplyMove P cfg searched
  let resign := strcasecmp sPos "resign".toList
  return { g.gtpPrint sPos with
    mctsPlayer := some (if g.isPondering && !resign then e.startPondering cfg else e)
    isLcmdGenmove := true
    resigned := resign }

/-- `process_cmd_showboard`, the text of the root's board. -/
def processCmdShowboard : Except Fault (GTP B K) := do
  let e ← g.player
  return g.gtpPrint (cfg.printBoard e.player.rootBoard)

/-- `process_cmd_timeleft`: the time of the side to move, by the first letter of
the color. -/
def processCmdTimeleft (args : List (List Char)) : Except Fault (GTP B K) := do
  let color ← scan 5 args[0]?
  let time ← scan 4 args[1]?
  let _ ← scan 4 args[2]?
  let nPlayerColor : Color :=
    if color.head?.map Char.toUpper = some 'W' then .white else .black
  let e ← g.player
  let e := if nPlayerColor = e.player.rootBoard.getColor then { e with timeRemain := atoi time }
    else e
  return { g.gtpPrint [] with mctsPlayer := some e }

/-- `process_cmd_quit`: the player is deleted, and `run` returns. -/
def processCmdQuit (pondered : List (Action K)) : Except Fault (GTP B K) := do
  g.stopPlayer P cfg pondered
  return { g.gtpPrint [] with mctsPlayer := none, isQuit := true }

/-- `process_cmd_name`, from the configuration. -/
def processCmdName : GTP B K := g.gtpPrint cfg.gtpName

/-- `process_cmd_protocolversion`, a constant. -/
def processCmdProtocolversion : GTP B K := g.gtpPrint "2.0".toList

/-- `process_cmd_version`, from the configuration. -/
def processCmdVersion : GTP B K := g.gtpPrint cfg.gtpVersion

/-- `process_cmd_listcommands`: the names, one on each line. -/
def processCmdListcommands : GTP B K :=
  g.gtpPrint (Command.all.flatMap fun c => c.text ++ ['\n'])

/-- `process_cmd_boardsize`, which answers success whatever the size is. -/
def processCmdBoardsize : GTP B K := g.gtpPrint []

/-- `process_cmd_clearboard`: the player is deleted and made anew, on an empty
board and whatever the configuration says of pondering. -/
def processCmdClearboard (pondered : List (Action K)) : Except Fault (GTP B K) := do
  g.stopPlayer P cfg pondered
  return { (g.initializePlayer cfg (GoBoard.new P)).gtpPrint [] with isLcmdGenmove := false }

/-- `process_cmd_komi`, which changes nothing. -/
def processCmdKomi : GTP B K := g.gtpPrint []

/-- `process_cmd_finalscore`: the score of the root's board. -/
def processCmdFinalscore : Except Fault (GTP B K) := do
  let e ← g.player
  return g.gtpPrint (finalScoreText (e.player.rootBoard.getScoreBlack P cfg.settings.komi))

/-- `process_cmd_timesettings`, which changes nothing. -/
def processCmdTimesettings : GTP B K := g.gtpPrint []

/-- `process_cmd`: the first token is the command, the others are its
arguments. -/
def processCmd (l : CommandLine K) : Except Fault (GTP B K) := do
  let cmdName ← scan 100 (words l.text).head?
  let args := (words l.text).tail
  match dispatch cmdName with
  | some .play => g.processCmdPlay P cfg args l.pondered
  | some .genmove => g.processCmdGenmove P cfg args l.pondered l.searched
  | some .timeLeft => g.processCmdTimeleft args
  | some .quit => g.processCmdQuit P cfg l.pondered
  | some .name => return g.processCmdName cfg
  | some .protocolVersion => return g.processCmdProtocolversion
  | some .version => return g.processCmdVersion cfg
  | some .listCommands => return g.processCmdListcommands
  | some .boardsize => return g.processCmdBoardsize
  | some .clearBoard => g.processCmdClearboard P cfg l.pondered
  | some .komi => return g.processCmdKomi
  | some .finalScore => g.processCmdFinalscore P cfg
  | some .timeSettings => return g.processCmdTimesettings
  | some .showBoard => g.processCmdShowboard cfg
  | none => return g.gtpPrintErr "does not support this command.".toList

end GTP

/-- `run`: a line at a time, until `quit` or a fault.  The state is the session,
or the fault it has come to. -/
def gtpMachine {B K : Type} [Field K] [LinearOrder K] [FloorRing K] (P : Pachi B)
    (cfg : GtpConfig B K) : Machine (Except Fault (GTP B K)) (CommandLine K) where
  step r l :=
    match r with
    | .error _ => none
    | .ok g => if g.isQuit then none else some (g.processCmd P cfg l)

/-- What went wrong, if anything did. -/
def fault {B K : Type} : Except Fault (GTP B K) → Option Fault
  | .ok _ => none
  | .error f => some f

/-- The session of `conf/conf.ini`, whose fields keep their quotes.  The text of
a board is not modelled. -/
def shippedGtp : GtpConfig Stones ℚ where
  settings := shippedSettings
  searchThreads := 1
  gtpName := "\"eStarGo\"".toList
  gtpVersion := "\"1.0.0\"".toList
  isPondering := false
  timePolicy := 1
  isUec := false
  stage150SafeTime := 30
  printBoard := fun _ => []

/-- The session of a new game. -/
def newSession : GTP Stones ℚ := GTP.start shippedGtp (GoBoard.new pachi)

end EstarGo
