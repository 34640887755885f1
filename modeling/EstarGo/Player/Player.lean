import EstarGo.Board.Stones
import EstarGo.Lib.Machine
import EstarGo.Tree.Action
import EstarGo.Tree.Expand
import EstarGo.Tree.Select

/-!
# The player

`MCTSPlayer`: the root and its board, the iterations of `rollout()` between
their selection and the decision on the selected leaf, and the requests the
evaluator has not answered.  `Player.step` is one step of one thread; `play` and
`gen_apply_move` run when the search threads have returned, and replies arrive
in any order and at any time.

## Main definitions

* `Player` — the members of `MCTSPlayer` and the records the statements read.
* `serverEvaluate`, `evaluateCallback` — a request, and the callback on its
  reply.
* `play`, `genApplyMove` — the two commands.
* `Player.step`, `playerMachine` — one step, and all interleavings.

## Design notes

**Four kinds of steps.**  An iteration of `rollout()` is two steps, its
selection and the decision on its leaf; anything may come in between.  A
callback is one step, and so is a command.  What goes on inside of a descent or
of a callback while another thread runs is not in this machine; `InStep` and
`Means` cut those steps finer where that is what a result is about.

**The flag of a request.**  `server_evaluate` looks at `rq_sent` and then sets
it, without a lock.  The two are one step here, which is what a single search
thread does.  Two threads can both find it unset and ask twice.

**Re-rooting.**  A command drops the nodes that are not below the new root.
Freeing them, and the reset of the new root's father pointer, happen on a
detached thread: `recycle` expires one such pointer, at any later time.

**Records.**  `sent`, `counted` and `ghost` are no members of the source's
class.  They note which requests were sent, which iterations were counted, and
which position each node stands for, and no step looks at them.

**Assertions.**  A move is made on the vendored board, which ends the process
where one of its assertions fails.  A step that would do so is `none`, like one
that calls `exit`.
-/

namespace EstarGo

open Verif

/-- A request that `server_evaluate` sent, with the captures of its callback.
The history is what the evaluator is given. -/
structure Request where
  leaf : ℕ
  history : List UInt8
  minMax : ℤ
  trompTaylor : ℤ
  vl : ℤ
  deriving DecidableEq, Repr

/-- An iteration of `rollout()` between its selection and its decision: the
leaf, the board there and the argument of `rollout()`. -/
structure Selection (B : Type) where
  leaf : ℕ
  board : GoBoard B
  max : ℤ

/-- What a node stands for: the history when it became a root, or that of its
father and the token of its edge; and the board there, where the moves apply. -/
structure Ghost (B : Type) where
  history : List UInt8
  board : Option (GoBoard B)

/-- The members of `MCTSPlayer`, then records of what happened. -/
structure Player (B K : Type) where
  tree : Tree K
  /-- Reset by a resignation. -/
  root : Option ℕ
  rootBoard : GoBoard B
  opAction : ℤ
  stopRollout : Bool
  /-- The iterations that have selected a leaf and not yet decided on it. -/
  selections : List (Selection B)
  /-- The requests without a reply. -/
  requests : List Request
  /-- All the requests sent, in order. -/
  sent : List Request
  /-- The leaf of each iteration that `rollout_in_turn` counted. -/
  counted : List ℕ
  ghost : ℕ → Ghost B

/-- A step of the search threads, of the evaluator or of the commands. -/
inductive Action (K : Type) where
  /-- An iteration selects a leaf. -/
  | select (max rolloutRemain : ℤ)
  /-- The iteration at this index decides on its leaf. -/
  | decide (i : ℕ)
  /-- The request at this index is answered. -/
  | reply (i : ℕ) (value : K) (policy : List (PolicyItem K))
  | play (pos : List Char)
  | genApplyMove
  /-- A father pointer of a dropped node or of the root expires. -/
  | recycle (v : ℕ)
  /-- `est_timeout_rollout` sets `stop_rollout`. -/
  | stop
  deriving DecidableEq, Repr

variable {B K : Type}

/-- `is_repetition`, and that it was checked. -/
def Node.setRepetition (nd : Node K) (isRepetition : Bool) : Node K :=
  { nd with isRepetition := isRepetition, isRepetitionChecked := true }

/-- `invalid_visit++`. -/
def Node.visitAgain (nd : Node K) : Node K := { nd with invalidVisit := nd.invalidVisit + 1 }

/-- `rq_sent = true`. -/
def Node.send (nd : Node K) : Node K := { nd with rqSent := true }

/-- From here on `father.lock()` finds nothing. -/
def Node.expireFather (nd : Node K) : Node K := { nd with fatherExpired := true }

/-- The ghost of a child, one move further. -/
def Ghost.child (P : Pachi B) (g : Ghost B) (action : ℤ) : Ghost B where
  history := g.history ++ GoBoard.token action
  board := g.board.bind fun board =>
    match GoBoard.applyMove P board action with
    | (true, board) => some board
    | (false, _) => none

/-! ## Evaluation

The two ends of a request: what an iteration sends, and what the callback does
with the reply. -/

section

variable [Field K] [LinearOrder K]

/-- The request `server_evaluate` sends for a leaf.  The sign of its value is
that of the side to move there, and below depth 300 the value is the score of
the board. -/
def requestFor (P : Pachi B) (cfg : Settings K) (rootBoard curBoard : GoBoard B) (nd : Node K)
    (leaf : ℕ) (max : ℤ) : Request where
  leaf := leaf
  history := curBoard.history
  minMax := if curBoard.getColor ≠ rootBoard.getColor then -max else max
  trompTaylor :=
    if nd.depth > 300 then
      let tempMinMax := if rootBoard.getColor = .white then -max else max
      if curBoard.getScoreBlack P cfg.komi * tempMinMax > 0 then 1 else -1
    else 0
  vl := cfg.virtualLoss

namespace Player

variable (P : Pachi B) (cfg : Settings K) (s : Player B K)

/-- `server_evaluate`: ask for an evaluation of the leaf, unless one has been
asked for.  The source looks at `rq_sent` and then sets it, without a lock.
Here the two are one step, as they are in effect with one search thread; two
threads can both find it unset, and then ask twice. -/
def serverEvaluate (curBoard : GoBoard B) (leaf : ℕ) (max : ℤ) : Player B K :=
  let nd := s.tree.nodes leaf
  if nd.rqSent then
    { s with tree := s.tree.modify leaf Node.visitAgain }
  else
    let request := requestFor P cfg s.rootBoard curBoard nd leaf max
    { s with
      tree := s.tree.modify leaf Node.send
      counted := s.counted ++ [leaf]
      requests := s.requests ++ [request]
      sent := s.sent ++ [request] }

/-- The callback of a request: expand the leaf and back its value up.  The new
nodes get the ghosts of children. -/
def evaluateCallback (request : Request) (value : K) (policy : List (PolicyItem K)) :
    Player B K :=
  let items := keptItems cfg policy
  { s with
    tree := s.tree.answer request.leaf request.trompTaylor request.vl (value * request.minMax)
      items
    ghost := fun u =>
      if u < s.tree.next then s.ghost u
      else
        match items[u - s.tree.next]? with
        | some item => (s.ghost request.leaf).child P item.pos
        | none => s.ghost u }

/-- The rest of an iteration of `rollout()`, after its selection: mark a
repetition, back up a result, or ask. -/
def decideLeaf (sel : Selection B) : Player B K :=
  if sel.board.boardRepetition then
    { s with tree := s.tree.modify sel.leaf fun nd => nd.setRepetition true }
  else
    let s := { s with tree := s.tree.modify sel.leaf fun nd => nd.setRepetition false }
    let nd := s.tree.nodes sel.leaf
    if nd.result ≠ 0 ∨ nd.isTerminate then
      { s with
        counted := s.counted ++ [sel.leaf]
        tree := s.tree.mctsBackUpdate sel.leaf cfg.virtualLoss (nd.result : K) 0 }
    else s.serverEvaluate P cfg sel.board sel.leaf sel.max

/-! ## Commands

Texts come in as lists of characters, and numbers are read as the C library
reads them. -/

/-- A fresh root for the board, which drops the whole tree. -/
def newRoot (board : GoBoard B) : Player B K :=
  { s with
    tree := s.tree.alloc { Node.new none none with depth := board.getTotalMoves }
    root := some s.tree.next
    rootBoard := board
    ghost := fun u => if u = s.tree.next then ⟨board.history, some board⟩ else s.ghost u }

/-- The child of the root with this action, the first one. -/
def childWith (root : ℕ) (action : ℤ) : Option ℕ :=
  ((s.tree.nodes root).nexts.getD []).find? fun i =>
    (s.tree.nodes i).edge.map (·.action) = some action

end Player

/-- `strcasecmp(a, b) == 0`, by the letters in lower case. -/
def strcasecmp (a b : List Char) : Bool := a.map Char.toLower = b.map Char.toLower

/-- `isspace`: a space, or one of the controls from the tab to the carriage
return. -/
def isSpace (c : Char) : Bool := c = ' ' || (9 ≤ c.toNat && c.toNat ≤ 13)

/-- The digits `strtol` reads, up to the first other character. -/
def strtolDigits : List Char → ℤ → ℤ
  | [], acc => acc
  | c :: rest, acc => if c.isDigit then strtolDigits rest (acc * 10 + (c.toNat - 48)) else acc

/-- The number `strtol` reads, with its sign. -/
def strtolSigned : List Char → ℤ
  | '-' :: rest => -strtolDigits rest 0
  | '+' :: rest => strtolDigits rest 0
  | rest => strtolDigits rest 0

/-- `strtol(text, NULL, 10)`, which stops at the ends of `long`. -/
def strtol (text : List Char) : ℤ :=
  max (-2 ^ 63) (min (strtolSigned (text.dropWhile isSpace)) (2 ^ 63 - 1))

/-- `int` keeps 32 bits. -/
def toInt (x : ℤ) : ℤ := x.bmod (2 ^ 32)

/-- `atoi`: `(int) strtol`. -/
def atoi (text : List Char) : ℤ := toInt (strtol text)

/-- The value of a `char`, which is signed. -/
def charValue (c : Char) : ℤ := if c.toNat < 128 then c.toNat else c.toNat - 256

/-- The action of a vertex: a letter without I for the column, then the row.
Nothing is checked, and any text gives a number. -/
def vertexAction (pos : List Char) : ℤ :=
  let letter := charValue (pos.headD (Char.ofNat 0)).toUpper
  let row := atoi pos.tail - 1
  let col := letter - 65 - if letter > 73 then 1 else 0
  toInt (row * 19 + col)

/-- The text of an action in `gen_apply_move`, with a letter that skips I. -/
def actionText (action : ℤ) : List Char :=
  if action = GoBoard.posPass then ['p', 'a', 's', 's']
  else
    let row := action.tdiv 19
    let col := action.tmod 19
    Char.ofNat (65 + col + if col ≥ 8 then 1 else 0).toNat :: (toString (row + 1)).toList

namespace Player

variable (P : Pachi B) (cfg : Settings K) (s : Player B K)

/-- `play`; `none` where an assertion fails, here or in the vendored board, or
where the process exits on a refused move. -/
def play (pos : List Char) : Option (Player B K) :=
  s.root.bind fun root =>
    if s.stopRollout then some s
    else if strcasecmp pos ['r', 'e', 's', 'i', 'g', 'n'] then
      some (s.newRoot (GoBoard.applyMove P s.rootBoard GoBoard.posPass).2)
    else
      let action :=
        if strcasecmp pos ['p', 'a', 's', 's'] then GoBoard.posPass else vertexAction pos
      if !s.rootBoard.withstands P action then none
      else
        match GoBoard.applyMove P s.rootBoard action with
        | (false, _) => none
        | (true, board) =>
          let s := { s with opAction := action }
          match s.childWith root action with
          | none => some (s.newRoot board)
          | some child => some { s with root := some child, rootBoard := board }

/-- `gen_apply_move` after its search; `none` where the process exits, or where
an assertion of the vendored board fails. -/
def genApplyMove : Option (List Char × Player B K) :=
  s.root.bind fun root =>
    if s.stopRollout then some (['p', 'a', 's', 's'], s)
    else
      (s.tree.mctsSelectAction P cfg root s.rootBoard (s.opAction = GoBoard.posPass)).bind
        fun res =>
          if res.action = actionResign then
            some (['r', 'e', 's', 'i', 'g', 'n'], { s with root := none })
          else if !s.rootBoard.withstands P res.action then none
          else
            match GoBoard.applyMove P s.rootBoard res.action with
            | (false, _) => none
            | (true, board) =>
                some (actionText res.action, { s with root := some res.node, rootBoard := board })

/-- Whether a node is strictly below the root. -/
def belowRoot (v : ℕ) : Bool :=
  match s.root, s.tree.father v with
  | some root, some father => reaches s.tree.father father father root
  | _, _ => false

/-- One step; `none` where it waits or the process ends.  The moves of a descent
are made on a copy of the root's board, whose assertions end the process too. -/
def step : Action K → Option (Player B K)
  | .select max rolloutRemain =>
      s.root.bind fun root =>
        if (s.tree.nodes root).isTerminate then none
        else
          match s.tree.mctsSelectPathRoot P cfg root max s.rootBoard rolloutRemain with
          | .leaf t leaf board _ =>
              if P.asserted board.b then
                some { s with tree := t, selections := s.selections ++ [⟨leaf, board, max⟩] }
              else none
          | _ => none
  | .decide i =>
      s.selections[i]?.map fun sel =>
        { s with selections := s.selections.eraseIdx i }.decideLeaf P cfg sel
  | .reply i value policy =>
      s.requests[i]?.map fun request =>
        { s with requests := s.requests.eraseIdx i }.evaluateCallback P cfg request value policy
  | .play pos => if s.selections.isEmpty then s.play P pos else none
  | .genApplyMove =>
      if s.selections.isEmpty then (s.genApplyMove P cfg).map Prod.snd else none
  | .recycle v =>
      if s.belowRoot v then none
      else some { s with tree := s.tree.modify v Node.expireFather }
  | .stop => some { s with stopRollout := true }

end Player

/-- All the steps, in any order.  A run is a list of steps, each of which its
state allows. -/
def playerMachine (P : Pachi B) (cfg : Settings K) : Machine (Player B K) (Action K) where
  step s a := s.step P cfg a

/-- The constructor, on the board after `apply_history`. -/
def Player.start (board : GoBoard B) : Player B K where
  tree := {
    nodes := fun u => if u = 0 then { Node.new none none with depth := board.getTotalMoves }
      else Node.new none none
    next := 1 }
  root := some 0
  rootBoard := board
  opAction := 0
  stopRollout := false
  selections := []
  requests := []
  sent := []
  counted := []
  ghost := fun _ => ⟨board.history, some board⟩

omit [LinearOrder K] in
/-- The nodes of a new player are blank. -/
theorem Player.nodes_start (board : GoBoard B) (v : ℕ) :
    (Player.start board : Player B K).tree.nodes v =
      { Node.new none none with depth := if v = 0 then board.getTotalMoves else 0 } := by
  simp only [Player.start]
  split <;> rfl

omit [LinearOrder K] in
/-- A new player has a root and nothing else. -/
@[simp] theorem Player.father_start (board : GoBoard B) (v : ℕ) :
    (Player.start board : Player B K).tree.father v = none := by
  rw [Tree.father, nodes_start]
  rfl

end

/-! ## A new game

A run of a first search, its move and the answer to it. -/

/-- The player of a new game, as `Gtp` makes it. -/
def newGame : Player Stones ℚ := Player.start (GoBoard.new pachi)

/-- A search with two replies, its move, and an answer that was not
evaluated. -/
def searchedGame : List (Action ℚ) :=
  [.select 1 9, .decide 0, .reply 0 (1 / 2) [⟨72, 3 / 5⟩, ⟨-1, 2 / 5⟩], .select 1 8, .decide 0,
    .reply 0 (-1 / 2) [⟨60, 1 / 2⟩, ⟨-1, 1 / 2⟩], .genApplyMove, .play ['C', '4'], .select (-1) 9,
    .decide 0]

end EstarGo
