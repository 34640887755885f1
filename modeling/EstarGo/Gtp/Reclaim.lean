import EstarGo.Gtp.Pondering

/-!
# Background reclamation

`play` retires the old root through `tmp`, and `clear_board` the old player
through `tmp_mcts_player`.  Each leaves a detached thread that reads the slot
when it runs, not when it was made, so a later command may have filled the slot
anew.

What goes wrong then is one of three things.

* **A lost root.**  A thread of an earlier `play` runs `tmp.reset()` before the
  later `play` has swapped its new node in, and the root is null.
* **A lost player.**  A `clear_board` swaps while the thread of an earlier one
  still has to delete or to clear the slot, and one player is deleted twice and
  the other never.
* **Freed memory.**  A player is deleted while a thread of one of its `play`s
  has still to run, which then works on the members of the deleted player.

A run that does none of this is `Orderly`, and in it the reclamation is safe:
the slot holds a player exactly while the one thread that deletes it is pending,
and every thread that is left belongs to a player that is there.

## Main definitions

* `Reclaimed` — the reclamation is safe.
* `Orderly` — the steps that the slots and the players stand.
* `Slot`, `Slot.Holds` — how far the main thread is with a slot.
* `Live` — the threads that are left use players that are there.

## Main results

* `reclaimed_of_orderly`: the reclamation is safe in every orderly run.
* `not_reclaimed_of_delay`: each of the three orders breaks it.

## Design notes

**Two invariants.**  The slots go with what the main thread has left of its
handler, as the modes of `Pondering` do.  Which players the threads use does not
depend on the handler, and is an invariant beside that one.

**A resignation of `genmove`** resets the root and keeps the player, so the next
command finds none.  It is excluded, as it is elsewhere.
-/

namespace EstarGo

open Verif

/-- The statements of the thread that deletes a player. -/
def Recycle.isDelete : Recycle → Bool
  | .deleteTmp | .nullTmp => true
  | _ => false

/-- What the threads that delete a player have left, in the order of the
threads. -/
def Process.deleters (s : Process) : List Recycle := s.detached.filter Recycle.isDelete

/-- **The reclamation is safe.**  The current player and its root are there and
stay there, whatever the detached threads do, and each player is deleted once at
most, while no thread is left to use it. -/
structure Reclaimed (cfg : ThreadConfig) (s : Process) : Prop where
  /-- The current player is not deleted, and its root is there and not freed. -/
  current : ∀ p, s.mctsPlayer = some p → s.deleted p = 0 ∧
    ∃ n, s.nodes.cell (.root p) = some n ∧ n ∉ s.nodes.freed
  /-- A detached thread leaves both alone. -/
  kept : ∀ i s', s.step cfg (.recycle i) = some s' → s'.mctsPlayer = s.mctsPlayer ∧
    ∀ p, s.mctsPlayer = some p → s'.deleted p = s.deleted p ∧
      s'.nodes.cell (.root p) = s.nodes.cell (.root p)
  /-- No player is deleted twice. -/
  once : ∀ p, s.deleted p ≤ 1
  /-- Between two commands, what was retired is deleted or a detached thread can
  delete it. -/
  retired : s.todo = [] → ∀ p < s.made, s.mctsPlayer ≠ some p → s.deleted p = 1 ∨
    ∃ i s', s.detached[i]? = some .deleteTmp ∧ s.step cfg (.recycle i) = some s' ∧
      s'.deleted p = 1
  /-- No detached thread is left that uses a deleted player. -/
  live : ∀ p, s.pending p = true → s.deleted p = 0

/-- The steps that the slots and the players stand.

* The main thread: no `clear_board` swaps while a thread that deletes a player
  has statements left, and no player is deleted while a thread has still to use
  it.
* A detached thread: no `tmp.reset()` of the current player runs between its
  `tmp = NodePtr(new Node())` and its `root.swap(tmp)`, and no player is deleted
  while a thread has still to use it. -/
def Orderly (s : Process) : Event → Prop
  | .main => (s.todo.head? = some .swapPlayers → s.deleters = []) ∧
      (s.todo.head? = some .deletePlayer → ∀ p ∈ s.mctsPlayer, s.pending p = false)
  | .recycle i => (s.todo.head? = some .swapTmp → s.detached[i]? ≠ s.mctsPlayer.map .resetTmp) ∧
      (s.detached[i]? = some .deleteTmp → ∀ p ∈ s.tmpMctsPlayer, s.pending p = false)
  | _ => True

instance (s : Process) : DecidablePred (Orderly s)
  | .main => inferInstanceAs (Decidable ((s.todo.head? = some .swapPlayers → s.deleters = []) ∧
      (s.todo.head? = some .deletePlayer → ∀ p ∈ s.mctsPlayer, s.pending p = false)))
  | .recycle i => inferInstanceAs (Decidable
      ((s.todo.head? = some .swapTmp → s.detached[i]? ≠ s.mctsPlayer.map .resetTmp) ∧
        (s.detached[i]? = some .deleteTmp → ∀ p ∈ s.tmpMctsPlayer, s.pending p = false)))
  | .command _ | .start | .finish _ | .timeout _ => .isTrue trivial

/-! ## The slots

Where a retired root or player is, until it is freed. -/

/-- The player that a detached thread is about to delete.  With two such threads
it is no longer clear which of them deletes whom. -/
def Process.owed (s : Process) : Option ℕ :=
  if s.deleters = [.deleteTmp] then s.tmpMctsPlayer else none

/-- The current root is there, and every player but the current one and the one
still owed was deleted once.  Players that are not made yet were not deleted. -/
structure Ledger (owed : Option ℕ) (s : Process) : Prop where
  nodes : s.nodes.Sound
  root : ∀ p, s.mctsPlayer = some p → s.nodes.cell (.root p) ≠ none
  deleted : ∀ p, s.deleted p =
    if p < s.made ∧ s.mctsPlayer ≠ some p ∧ owed ≠ some p then 1 else 0

/-- One thread at most deletes a player, and without one the slot is empty.  So
a swap finds an empty slot if it waits for that thread. -/
structure Settled (s : Process) : Prop where
  ledger : Ledger s.owed s
  one : s.deleters.length ≤ 1
  idle : s.deleters = [] → s.tmpMctsPlayer = none

/-- How far the main thread is with a slot.  There are two of them, `tmp` in a
player and `tmp_mcts_player` in the session, and each is used to retire
something. -/
inductive Slot where
  /-- With none. -/
  | steady
  /-- `tmp` holds the new node. -/
  | fresh
  /-- `tmp_mcts_player` holds the old player, and no thread deletes it yet. -/
  | swapped
  /-- The old player is gone. -/
  | vacant

/-- What holds then. -/
def Slot.Holds : Slot → Process → Prop
  | .steady, s => Settled s
  | .fresh, s => Settled s ∧ ∀ p, s.mctsPlayer = some p → s.nodes.cell (.tmp p) ≠ none
  | .swapped, s => Ledger s.tmpMctsPlayer s ∧ s.deleters = [] ∧ s.mctsPlayer = none
  | .vacant, s => Settled s ∧ s.mctsPlayer = none

/-- The statements that leave the slots alone. -/
def Statement.plain : Statement → Bool
  | .newTmp | .swapTmp | .swapPlayers | .nullPlayer | .detachDelete | .newPlayer => false
  | .deletePlayer | .resetRoot | .genApplyMove .resign | .selectAction .resign => false
  | _ => true

/-- How a statement leads from one to the next.  A statement that is plain may
run anywhere, since it has to do with no slot. -/
inductive Statement.Moves : Slot → Statement → Slot → Prop where
  | newTmp : Moves .steady .newTmp .fresh
  | swapTmp : Moves .fresh .swapTmp .steady
  | swapPlayers : Moves .steady .swapPlayers .swapped
  | nullPlayer : Moves .swapped .nullPlayer .swapped
  | detachDelete : Moves .swapped .detachDelete .vacant
  | newPlayer : Moves .vacant .newPlayer .steady
  | deletePlayer : Moves .steady .deletePlayer .steady
  | plain {st : Statement} (h : st.plain = true) : Moves .steady st .steady

/-! ## Handlers

Each fills a slot and leaves a thread for it. -/

section Handlers

open Statement (Moves)

/-- Plain statements leave the slots alone. -/
theorem fits_plain {l : List Statement} (plain : ∀ st ∈ l, st.plain = true) :
    Fits Moves .steady l .steady :=
  .of_forall fun st hst => .plain (plain st hst)

/-- However many there are of one. -/
theorem fits_replicate {st : Statement} (plain : st.plain = true) (n : ℕ) :
    Fits Moves .steady (List.replicate n st) .steady :=
  fits_plain fun _ h => List.eq_of_mem_replicate h ▸ plain

/-- The rest of `play` fills `tmp` and empties it. -/
theorem fits_playBody (played : Played) : Fits Moves .steady (Process.playBody played) .steady := by
  have swap : Fits Moves .steady
      [.applyMove true, .newTmp, .swapTmp, .detachTmp, .setDepth] .steady :=
    .cons (.plain rfl) (.cons .newTmp (.cons .swapTmp (fits_plain (by decide))))
  cases played with
  | resign => exact swap
  | fresh => exact swap
  | illegal => exact fits_plain (by decide)
  | child => exact fits_plain (by decide)

/-- What a plain statement of the player puts in front of the rest. -/
theorem fits_of_plain {cfg : ThreadConfig} {s s' : Process} {st : Statement}
    {new : List Statement} {p : ℕ} (plain : st.plain = true)
    (h : s.execPlayer cfg p st = some (s', new)) : Fits Moves .steady new .steady := by
  cases Process.unfolds_of_execPlayer h with
  | none => exact .nil _
  | exit => exact .single (.plain rfl)
  | stop => exact .cons (.plain rfl) (.cons (.plain rfl) (.single (.plain rfl)))
  | wait => exact .single (.plain rfl)
  | play played => exact fits_playBody played
  | search answer =>
      have select : (Statement.selectAction answer).plain = true := by
        cases answer with
        | resign => cases plain
        | illegal => rfl
        | move => rfl
      exact (fits_replicate rfl _).append
        (.cons (.plain rfl) (.cons (.plain rfl) (.single (.plain select))))
  | answer answer =>
      cases answer with
      | resign => cases plain
      | illegal => exact fits_plain (by decide)
      | move => exact fits_plain (by decide)
  | ponder => exact fits_replicate rfl _

/-- **Every handler leads back**, but for the resignation of `genmove`, which
resets the root. -/
theorem moves_processCmd (cfg : ThreadConfig) (s : Process) {c : Call}
    (noResign : ∀ pass, c ≠ .genmove pass .resign) :
    Fits Moves .steady (s.processCmd cfg c) .steady ∨
      s.mctsPlayer = none ∧ Fits Moves .vacant (s.processCmd cfg c) .steady := by
  cases c with
  | play played =>
      refine .inl (.cons (.plain rfl) (.cons (.plain rfl) (Fits.append ?_ (.single (.plain rfl)))))
      split
      · exact .cons (.plain rfl) (.single .deletePlayer)
      · exact .nil _
  | genmove pass answer =>
      have plain : (Statement.genApplyMove answer).plain = true := by
        cases answer with
        | resign => exact absurd rfl (noResign pass)
        | illegal => rfl
        | move => rfl
      have implicit : Fits Moves .steady
          (if s.isLcmdGenmove then [.play pass] else []) .steady := by
        split
        · exact .single (.plain rfl)
        · exact .nil _
      refine .inl (.cons (.plain rfl) (implicit.append (.cons (.plain plain)
        (Fits.append ?_ (.single (.plain rfl))))))
      split
      · exact .single (.plain rfl)
      · exact .nil _
  | quit =>
      rw [Process.processCmd, Process.processCmdQuit]
      refine .inl (Fits.append ?_ (.single (.plain rfl)))
      split
      · exact .cons (.plain rfl) (.cons (.plain rfl) (.single .deletePlayer))
      · exact .nil _
  | clearBoard =>
      have made : Fits Moves .vacant [.newPlayer, .setLcmd false] .steady :=
        .cons .newPlayer (.single (.plain rfl))
      rw [Process.processCmd, Process.processCmdClearboard]
      cases s.mctsPlayer with
      | none => exact .inr ⟨rfl, made⟩
      | some p =>
          exact .inl (.cons (.plain rfl) (.cons .swapPlayers (.cons .nullPlayer
            (.cons .detachDelete made))))
  | other => exact .inl (.nil _)

end Handlers

/-! ## Steps

What may happen while the main thread is with a slot. -/

section Steps

variable {cfg : ThreadConfig} {s s' : Process}

/-- A step that retires nothing and leaves the current root there.  The root may
become another node, as it does when a move is played. -/
structure Spares (s s' : Process) : Prop where
  player : s'.mctsPlayer = s.mctsPlayer
  tmp : s'.tmpMctsPlayer = s.tmpMctsPlayer
  made : s'.made = s.made
  deleted : s'.deleted = s.deleted
  deleters : s'.deleters = s.deleters
  nodes : s.nodes.Sound → s'.nodes.Sound
  root : ∀ p, s.mctsPlayer = some p → s.nodes.cell (.root p) ≠ none →
    s'.nodes.cell (.root p) ≠ none

/-- Such a step keeps the ledger. -/
theorem Spares.ledger (h : Spares s s') {owed : Option ℕ} (hs : Ledger owed s) :
    Ledger owed s' where
  nodes := h.nodes hs.nodes
  root p hp := by
    rw [h.player] at hp
    exact h.root p hp (hs.root p hp)
  deleted p := by
    rw [h.deleted, h.made, h.player]
    exact hs.deleted p

theorem Spares.settled (h : Spares s s') (hs : Settled s) : Settled s' := by
  have owed : s'.owed = s.owed := by rw [Process.owed, Process.owed, h.deleters, h.tmp]
  refine ⟨owed ▸ h.ledger hs.ledger, h.deleters ▸ hs.one, fun none => ?_⟩
  rw [h.tmp]
  exact hs.idle (h.deleters ▸ none)

/-- While `tmp` holds the new node, it has to stay. -/
theorem Spares.holds (h : Spares s s') {m : Slot} (hs : m.Holds s)
    (fresh : m = .fresh → ∀ p, s.mctsPlayer = some p →
      s'.nodes.cell (.tmp p) = s.nodes.cell (.tmp p)) : m.Holds s' := by
  cases m with
  | steady => exact h.settled hs
  | fresh =>
      refine ⟨h.settled hs.1, fun p hp => ?_⟩
      rw [h.player] at hp
      rw [fresh rfl p hp]
      exact hs.2 p hp
  | swapped =>
      obtain ⟨ledger, deleters, player⟩ := hs
      exact ⟨h.tmp ▸ h.ledger ledger, h.deleters.trans deleters, h.player.trans player⟩
  | vacant => exact ⟨h.settled hs.1, h.player.trans hs.2⟩

/-- A step that changes none of it. -/
theorem Spares.of_eq (player : s'.mctsPlayer = s.mctsPlayer)
    (tmp : s'.tmpMctsPlayer = s.tmpMctsPlayer) (made : s'.made = s.made)
    (deleted : s'.deleted = s.deleted) (deleters : s'.deleters = s.deleters)
    (nodes : s'.nodes = s.nodes) : Spares s s' :=
  ⟨player, tmp, made, deleted, deleters, nodes ▸ id, fun _ _ => nodes ▸ id⟩

/-- A step that changes none of it. -/
theorem Slot.Holds.of_eq {m : Slot} (hs : m.Holds s) (player : s'.mctsPlayer = s.mctsPlayer)
    (tmp : s'.tmpMctsPlayer = s.tmpMctsPlayer) (made : s'.made = s.made)
    (deleted : s'.deleted = s.deleted) (deleters : s'.deleters = s.deleters)
    (nodes : s'.nodes = s.nodes) : m.Holds s' :=
  (Spares.of_eq player tmp made deleted deleters nodes).holds hs fun _ _ _ => by rw [nodes]

/-! ## The detached threads

They have two things to free, and use what the slot holds when they run. -/

/-- **What a detached thread does.**  It never touches the root of the current
player, whom it cannot delete.  The slot of that player it may empty, if it is
the thread for it. -/
structure Aside (s s' : Process) (r : Recycle) : Prop where
  player : s'.mctsPlayer = s.mctsPlayer
  made : s'.made = s.made
  nodes : s.nodes.Sound → s'.nodes.Sound
  root : ∀ p, s.mctsPlayer = some p → s'.nodes.cell (.root p) = s.nodes.cell (.root p)
  tmp : ∀ p, s.mctsPlayer = some p → r ≠ .resetTmp p →
    s'.nodes.cell (.tmp p) = s.nodes.cell (.tmp p)
  deleted : ∀ p, s.mctsPlayer = some p → s'.deleted p = s.deleted p

theorem aside_of_execRecycle {r : Recycle} {new : List Recycle} (tracked : Tracked s)
    (h : s.execRecycle r = some (s', new)) : Aside s s' r := by
  have destroys {q : ℕ} (hq : s.tmpMctsPlayer = some q) (f : Members → Members) :
      Aside s ((s.destroy q).modifyPlayer q f) r := by
    have apart {p : ℕ} (hp : s.mctsPlayer = some p) : p ≠ q := fun same =>
      tracked.apart q hq (same ▸ hp)
    refine ⟨rfl, rfl, fun sound => (sound.reset _).reset _, fun p hp => ?_, fun p hp _ => ?_,
      fun p hp => Function.update_of_ne (apart hp) ..⟩
    · exact (Owners.cell_reset_of_ne (by nofun)).trans
        (Owners.cell_reset_of_ne fun same => apart hp (Cell.root.inj same))
    · exact (Owners.cell_reset_of_ne fun same => apart hp (Cell.tmp.inj same)).trans
        (Owners.cell_reset_of_ne (by nofun))
  cases r with
  | resetTmp q =>
      cases h
      refine ⟨rfl, rfl, fun sound => sound.reset _, fun p _ => Owners.cell_reset_of_ne nofun,
        fun p _ other => Owners.cell_reset_of_ne fun same => other ?_, fun _ _ => rfl⟩
      rw [Cell.tmp.inj same]
  | resetChild q k | resetNode k =>
      cases h
      exact ⟨rfl, rfl, fun sound => sound.reset _, fun p _ => Owners.cell_reset_of_ne nofun,
        fun p _ _ => Owners.cell_reset_of_ne nofun, fun _ _ => rfl⟩
  | resetFather q =>
      simp only [Process.execRecycle] at h
      split at h <;> cases h
      exact ⟨rfl, rfl, id, fun _ _ => rfl, fun _ _ _ => rfl, fun _ _ => rfl⟩
  | nullTmp =>
      cases h
      exact ⟨rfl, rfl, id, fun _ _ => rfl, fun _ _ _ => rfl, fun _ _ => rfl⟩
  | deleteTmp =>
      obtain ⟨-, ⟨-, rfl⟩ | ⟨q, f, hq, rfl, -⟩⟩ := Process.cases_of_deleteTmp h
      · exact ⟨rfl, rfl, id, fun _ _ => rfl, fun _ _ _ => rfl, fun _ _ => rfl⟩
      · exact destroys hq f

/-- A list around one of its elements. -/
theorem take_append_cons_drop {r : Recycle} {i : ℕ} (hr : s.detached[i]? = some r) :
    s.detached = s.detached.take i ++ r :: s.detached.drop (i + 1) := by
  obtain ⟨hi, rfl⟩ := List.getElem?_eq_some_iff.mp hr
  rw [List.getElem_cons_drop, List.take_append_drop]

/-- What a thread that deletes a player does to the count. -/
theorem deleted_of_deleteTmp {new : List Recycle} (h : s.execRecycle .deleteTmp = some (s', new)) :
    new = [.nullTmp] ∧ s'.tmpMctsPlayer = s.tmpMctsPlayer ∧
      ∀ p, s'.deleted p = s.deleted p + if s.tmpMctsPlayer = some p then 1 else 0 := by
  obtain ⟨rfl, ⟨none, rfl⟩ | ⟨q, f, hq, rfl, -⟩⟩ := Process.cases_of_deleteTmp h
  · refine ⟨rfl, rfl, fun p => ?_⟩
    rw [none]
    rfl
  · refine ⟨rfl, rfl, fun p => ?_⟩
    rw [hq]
    by_cases same : p = q
    · rw [same, if_pos rfl]
      exact Function.update_self ..
    · rw [if_neg fun h => same (Option.some.inj h).symm]
      exact Function.update_of_ne same ..

/-- A thread that deletes no player leaves the slot alone, now and next. -/
theorem slot_of_execRecycle {r : Recycle} {new : List Recycle}
    (other : r.isDelete = false) (h : s.execRecycle r = some (s', new)) :
    s'.tmpMctsPlayer = s.tmpMctsPlayer ∧ s'.deleted = s.deleted ∧
      new.filter Recycle.isDelete = [] := by
  cases r with
  | deleteTmp | nullTmp => cases other
  | resetFather q =>
      simp only [Process.execRecycle] at h
      split at h <;> cases h
      exact ⟨rfl, rfl, rfl⟩
  | resetTmp | resetChild | resetNode =>
      cases h
      exact ⟨rfl, rfl, rfl⟩

/-- The only thread that deletes a player, and what it leaves. -/
theorem deleters_of_delete {r : Recycle} {i : ℕ} (one : s.deleters.length ≤ 1)
    (hr : s.detached[i]? = some r) (delete : r.isDelete = true) (new : List Recycle) :
    s.deleters = [r] ∧ (s.detached.take i ++ new ++ s.detached.drop (i + 1)).filter
      Recycle.isDelete = new.filter Recycle.isDelete := by
  have deleters : s.deleters = (s.detached.take i).filter Recycle.isDelete ++
      r :: (s.detached.drop (i + 1)).filter Recycle.isDelete := by
    rw [Process.deleters]
    conv_lhs => rw [take_append_cons_drop hr]
    rw [List.filter_append, List.filter_cons_of_pos delete]
  rw [deleters, List.length_append, List.length_cons] at one
  have before : (s.detached.take i).filter Recycle.isDelete = [] :=
    List.length_eq_zero_iff.mp (by omega)
  have after : (s.detached.drop (i + 1)).filter Recycle.isDelete = [] :=
    List.length_eq_zero_iff.mp (by omega)
  constructor
  · rw [deleters, before, after]
    rfl
  · rw [List.filter_append, List.filter_append, before, after, List.nil_append, List.append_nil]

/-- **A detached thread deletes or clears the slot.**  It is the only one, so
the slot still holds the player that the thread was made for. -/
theorem settled_of_delete {r : Recycle} {new : List Recycle} {i : ℕ} (tracked : Tracked s)
    (hs : Settled s) (hr : s.detached[i]? = some r) (delete : r.isDelete = true)
    (h : s.execRecycle r = some (s', new)) :
    Settled { s' with detached := s.detached.take i ++ new ++ s.detached.drop (i + 1) } := by
  obtain ⟨ledger, one, -⟩ := hs
  obtain ⟨deleters, left⟩ := deleters_of_delete one hr delete new
  generalize s.detached.take i ++ new ++ s.detached.drop (i + 1) = detached at left ⊢
  have aside := aside_of_execRecycle tracked h
  have root (p : ℕ) (hp : s'.mctsPlayer = some p) : s'.nodes.cell (.root p) ≠ none := by
    rw [aside.player] at hp
    rw [aside.root p hp]
    exact ledger.root p hp
  -- nobody is owed afterwards
  have settled (deleted : ∀ p, s'.deleted p = if p < s.made ∧ s.mctsPlayer ≠ some p then 1 else 0)
      (owed : { s' with detached := detached }.owed = none)
      (one : (detached.filter Recycle.isDelete).length ≤ 1)
      (idle : detached.filter Recycle.isDelete = [] → s'.tmpMctsPlayer = none) :
      Settled { s' with detached := detached } := by
    refine ⟨⟨aside.nodes ledger.nodes, root, fun p => ?_⟩, one, idle⟩
    rw [owed]
    simpa [aside.made, aside.player] using deleted p
  cases r with
  | resetTmp | resetChild | resetFather | resetNode => cases delete
  | deleteTmp =>
      -- the player that is owed is the one in the slot
      obtain ⟨rfl, tmp, deleted⟩ := deleted_of_deleteTmp h
      have owed : s.owed = s.tmpMctsPlayer := if_pos deleters
      refine settled (fun p => ?_) (if_neg ?_) (left ▸ Nat.le_refl 1) (fun none => ?_)
      · rw [deleted, ledger.deleted, owed]
        by_cases hq : s.tmpMctsPlayer = some p
        · simp [hq, tracked.apart p hq, tracked.tmp_lt p hq]
        · simp [hq]
      · rw [Process.deleters, left]
        decide
      · cases left.symm.trans none
  | nullTmp =>
      -- the player in the slot was deleted by the same thread
      cases h
      have owed : s.owed = none := if_neg (deleters ▸ by decide)
      refine settled (fun p => ?_) (ite_self _) (left ▸ Nat.zero_le 1) (fun _ => rfl)
      have deleted := ledger.deleted p
      rw [owed] at deleted
      simpa using deleted

/-- **The detached threads.**  Whatever the main thread is at, one of them
leaves what it relies on, but for a thread that resets the node which is about
to become the root. -/
theorem holds_of_recycle {m : Slot} {i : ℕ} {r : Recycle} {new : List Recycle} {s₁ : Process}
    (tracked : Tracked s) (hs : m.Holds s)
    (fresh : m = .fresh → s.detached[i]? ≠ s.mctsPlayer.map .resetTmp)
    (hr : s.detached[i]? = some r) (hexec : s.execRecycle r = some (s₁, new)) :
    m.Holds { s₁ with detached := s.detached.take i ++ new ++ s.detached.drop (i + 1) } := by
  have aside := aside_of_execRecycle tracked hexec
  have stays (hm : m = .fresh) (p : ℕ) (hp : s.mctsPlayer = some p) :
      s₁.nodes.cell (.tmp p) = s.nodes.cell (.tmp p) := by
    refine aside.tmp p hp fun same => fresh hm ?_
    rw [hr, hp, same]
    rfl
  cases delete : r.isDelete with
  | false =>
      obtain ⟨tmp, deleted, next⟩ := slot_of_execRecycle delete hexec
      have deleters : (s.detached.take i ++ new ++ s.detached.drop (i + 1)).filter
          Recycle.isDelete = s.deleters := by
        rw [Process.deleters]
        conv_rhs => rw [take_append_cons_drop hr]
        simp [delete, next]
      have spares : Spares s { s₁ with
          detached := s.detached.take i ++ new ++ s.detached.drop (i + 1) } :=
        ⟨aside.player, tmp, aside.made, deleted, deleters, aside.nodes, fun p hp hroot =>
          (aside.root p hp).trans_ne hroot⟩
      exact spares.holds hs stays
  | true =>
      have settled (hs : Settled s) := settled_of_delete tracked hs hr delete hexec
      cases m with
      | steady => exact settled hs
      | fresh =>
          refine ⟨settled hs.1, fun p hp => ?_⟩
          have hp : s.mctsPlayer = some p := aside.player.symm.trans hp
          exact (stays rfl p hp).trans_ne (hs.2 p hp)
      | swapped =>
          -- no thread deletes a player now
          have mem : r ∈ s.deleters :=
            List.mem_filter.mpr ⟨List.mem_of_getElem? hr, delete⟩
          rw [hs.2.1] at mem
          cases mem
      | vacant => exact ⟨settled hs.1, aside.player.trans hs.2⟩

/-! ## The main thread

Statement by statement. -/

/-- A thread that deletes no player is detached. -/
theorem deleters_detach {r : Recycle} (other : r.isDelete = false) :
    Process.deleters { s with detached := s.detached ++ [r] } = s.deleters := by
  simp [Process.deleters, other]

/-- **Plain statements of the current player.**  They swap nodes between the
cells of the player, so that the root is there after each of them. -/
theorem spares_of_plain {st : Statement} {new : List Statement} {p : ℕ} (plain : st.plain = true)
    (hp : s.mctsPlayer = some p) (h : s.execPlayer cfg p st = some (s', new)) : Spares s s' := by
  cases st with
  | newTmp | swapTmp | swapPlayers | nullPlayer | detachDelete | newPlayer | deletePlayer
    | resetRoot => cases plain
  | setLcmd | setQuit => cases h
  | swapChild =>
      simp only [Process.execPlayer] at h
      split at h <;> cases h
      refine ⟨rfl, rfl, rfl, rfl, rfl, fun sound => (sound.alloc _).swap _ _, fun q hq _ => ?_⟩
      obtain rfl := Option.some.inj (hp.symm.trans hq)
      simp only [Owners.cell_swap_left, Owners.cell_alloc_self]
      exact Option.some_ne_none _
  | detachTmp | detachChild | detachNode =>
      cases h
      exact .of_eq rfl rfl rfl rfl (deleters_detach rfl) rfl
  | wait i bound =>
      simp only [Process.execPlayer] at h
      split at h
      · cases h
        exact .of_eq rfl rfl rfl rfl rfl rfl
      · obtain ⟨future, -, h⟩ := Option.bind_eq_some_iff.mp h
        split at h <;> cases h
        exact .of_eq rfl rfl rfl rfl rfl rfl
  | stopPondering | play | applyMove | setDepth | genApplyMove | selectAction | startPondering =>
      simp only [Process.execPlayer] at h
      repeat' split at h
      all_goals
        cases h
        try exact .of_eq rfl rfl rfl rfl rfl rfl
  | clearVec | lowerExit | commit =>
      cases h
      exact .of_eq rfl rfl rfl rfl rfl rfl

/-- **`clear_board` retires its player.**  The slot is empty, so the current
player is null after the swap and the old one alone is owed. -/
theorem swapped_of_swapPlayers (hs : Settled s) (free : s.deleters = []) :
    Slot.swapped.Holds
      { s with mctsPlayer := s.tmpMctsPlayer, tmpMctsPlayer := s.mctsPlayer } := by
  have empty := hs.idle free
  have owed : s.owed = none := by rw [Process.owed, empty, ite_self]
  refine ⟨⟨hs.ledger.nodes, fun p hp => ?_, fun p => ?_⟩, free, empty⟩
  · cases empty.symm.trans hp
  · have deleted := hs.ledger.deleted p
    rw [owed] at deleted
    simpa [empty] using deleted

/-- The thread is there, and the old player is owed to it. -/
theorem vacant_of_detachDelete (hs : Slot.swapped.Holds s) :
    Slot.vacant.Holds { s with detached := s.detached ++ [.deleteTmp] } := by
  obtain ⟨ledger, free, player⟩ := hs
  have deleters : Process.deleters { s with detached := s.detached ++ [.deleteTmp] } =
      [.deleteTmp] := by
    rw [Process.deleters, List.filter_append]
    exact congrArg (· ++ [Recycle.deleteTmp]) free
  have owed : Process.owed { s with detached := s.detached ++ [.deleteTmp] } = s.tmpMctsPlayer :=
    if_pos deleters
  refine ⟨⟨⟨ledger.nodes, ledger.root, ?_⟩, ?_, fun none => ?_⟩, player⟩
  · rw [owed]
    exact ledger.deleted
  · rw [deleters]
    exact Nat.le_refl 1
  · cases deleters.symm.trans none

/-- A new player has a root. -/
theorem settled_of_newPlayer (hs : Slot.vacant.Holds s) : Settled s.initializePlayer := by
  obtain ⟨⟨ledger, one, idle⟩, vacant⟩ := hs
  refine ⟨⟨ledger.nodes.alloc _, fun p hp => ?_, fun p => ?_⟩, one, idle⟩
  · obtain rfl := Option.some.inj hp
    exact Owners.cell_alloc_self.trans_ne nofun
  · have deleted := ledger.deleted p
    have same : s.initializePlayer.owed = s.owed := rfl
    rw [same]
    simp only [Process.initializePlayer]
    grind

/-- A player that is deleted at once is owed to nobody. -/
theorem settled_of_deletePlayer {p : ℕ} (tracked : Tracked s) (hs : Settled s)
    (hp : s.mctsPlayer = some p) : Settled { s.destroy p with mctsPlayer := none } := by
  obtain ⟨ledger, one, idle⟩ := hs
  refine ⟨⟨(ledger.nodes.reset _).reset _, nofun, fun q => ?_⟩, one, idle⟩
  have same : Process.owed { s.destroy p with mctsPlayer := none } = s.owed := rfl
  have unowed : s.owed ≠ some p := by
    rw [Process.owed]
    split
    · exact fun hq => tracked.apart p hq hp
    · exact nofun
  have deleted := ledger.deleted q
  rw [same]
  by_cases hq : q = p
  · -- the player was not deleted before
    subst hq
    have once : (s.destroy q).deleted q = s.deleted q + 1 := Function.update_self ..
    have lt : q < (s.destroy q).made := tracked.player_lt q hp
    rw [hp, if_neg (by simp)] at deleted
    rw [if_pos ⟨lt, nofun, unowed⟩]
    exact once.trans (congrArg (· + 1) deleted)
  · have other : (s.destroy p).deleted q = s.deleted q := Function.update_of_ne hq ..
    have current : s.mctsPlayer ≠ some q := by
      rw [hp]
      exact fun h => hq (Option.some.inj h).symm
    have made : (s.destroy p).made = s.made := rfl
    simpa [current, made] using other.trans deleted

/-- **What a statement leads to.**  The condition is on one statement only, the
swap of the players: it has to find no thread that is still to delete one. -/
theorem moves_of_exec {m m' : Slot} {st : Statement} {new : List Statement} (tracked : Tracked s)
    (hs : m.Holds s) (moves : st.Moves m m') (orderly : st = .swapPlayers → s.deleters = [])
    (h : s.exec cfg st = some (s', new)) :
    ∃ m₁ : Slot, m₁.Holds s' ∧ Fits Statement.Moves m₁ new m' := by
  cases moves with
  | newTmp =>
      obtain ⟨p, hp, h⟩ := execPlayer_of_exec h rfl
      cases h
      have spares : Spares s { s with nodes := s.nodes.alloc (.tmp p) } :=
        ⟨rfl, rfl, rfl, rfl, rfl, fun sound => sound.alloc _, fun q _ hq =>
          (Owners.cell_alloc_of_ne (by nofun)).trans_ne hq⟩
      refine ⟨.fresh, ⟨spares.settled hs, fun q hq => ?_⟩, .nil _⟩
      obtain rfl := Option.some.inj (hp.symm.trans hq)
      exact Owners.cell_alloc_self.trans_ne nofun
  | swapTmp =>
      obtain ⟨p, hp, h⟩ := execPlayer_of_exec h rfl
      cases h
      have spares : Spares s { s with nodes := s.nodes.swap (.root p) (.tmp p) } := by
        refine ⟨rfl, rfl, rfl, rfl, rfl, fun sound => sound.swap _ _, fun q hq _ => ?_⟩
        obtain rfl := Option.some.inj (hp.symm.trans hq)
        exact Owners.cell_swap_left.trans_ne (hs.2 p hp)
      exact ⟨.steady, spares.settled hs.1, .nil _⟩
  | swapPlayers =>
      cases h
      exact ⟨.swapped, swapped_of_swapPlayers hs (orderly rfl), .nil _⟩
  | nullPlayer =>
      cases h
      obtain ⟨ledger, free, player⟩ := hs
      have same : { s with mctsPlayer := none } = s := by rw [← player]
      exact ⟨.swapped, same.symm ▸ ⟨ledger, free, player⟩, .nil _⟩
  | detachDelete =>
      cases h
      exact ⟨.vacant, vacant_of_detachDelete hs, .nil _⟩
  | newPlayer =>
      cases h
      exact ⟨.steady, settled_of_newPlayer hs, .nil _⟩
  | deletePlayer =>
      obtain ⟨p, hp, h⟩ := execPlayer_of_exec h rfl
      cases h
      exact ⟨.steady, settled_of_deletePlayer tracked hs hp, .nil _⟩
  | plain plain =>
      cases player : st.ofPlayer with
      | false =>
          refine ⟨.steady, Spares.settled ?_ hs, ?_⟩
          all_goals cases st with
            | swapPlayers | nullPlayer | detachDelete | newPlayer => cases plain
            | setLcmd | setQuit =>
                cases h
                first | exact .of_eq rfl rfl rfl rfl rfl rfl | exact .nil _
            | _ => cases player
      | true =>
          obtain ⟨p, hp, h⟩ := execPlayer_of_exec h player
          exact ⟨.steady, (spares_of_plain plain hp h).settled hs, fits_of_plain plain h⟩

/-! ## The players that threads use

The third thing that can go wrong. -/

/-- Every detached thread that is left uses a player that is there.  A thread of
`clear_board` uses the session, which is there to the end. -/
def Live (s : Process) : Prop := ∀ r ∈ s.detached, ∀ p, r.player = some p → s.deleted p = 0

/-- A thread is pending where one that uses the player is left. -/
theorem pending_iff {p : ℕ} : s.pending p = true ↔ ∃ r ∈ s.detached, r.player = some p := by
  simp [Process.pending]

/-- The deletion of a player that no thread has still to use. -/
theorem Live.destroy (hs : Live s) {q : ℕ} (unused : s.pending q = false) :
    ∀ r ∈ s.detached, ∀ p, r.player = some p → (s.destroy q).deleted p = 0 := by
  intro r hr p hp
  have other : p ≠ q := by
    rintro rfl
    exact Bool.false_ne_true (unused.symm.trans (pending_iff.mpr ⟨r, hr, hp⟩))
  exact (Function.update_of_ne other ..).trans (hs r hr p hp)

/-- **The main thread** detaches threads of the current player, who is not
deleted, and deletes only a player that no thread has still to use. -/
theorem live_of_exec {st : Statement} {new : List Statement} (hs : Live s)
    (current : ∀ p, s.mctsPlayer = some p → s.deleted p = 0)
    (unused : st = .deletePlayer → ∀ p ∈ s.mctsPlayer, s.pending p = false)
    (h : s.exec cfg st = some (s', new)) : Live s' := by
  have detach {p : ℕ} (hp : s.mctsPlayer = some p) (r : Recycle)
      (own : ∀ q, r.player = some q → q = p) :
      Live { s with detached := s.detached ++ [r] } := by
    intro r' hr' q hq
    rcases List.mem_append.mp hr' with hr' | hr'
    · exact hs r' hr' q hq
    · obtain rfl := List.mem_singleton.mp hr'
      exact own q hq ▸ current p hp
  cases player : st.ofPlayer with
  | false =>
      cases st with
      | detachDelete =>
          cases h
          intro r hr q hq
          rcases List.mem_append.mp hr with hr | hr
          · exact hs r hr q hq
          · obtain rfl := List.mem_singleton.mp hr
            cases hq
      | setLcmd | setQuit | swapPlayers | nullPlayer | newPlayer =>
          cases h
          exact hs
      | _ => cases player
  | true =>
      obtain ⟨p, hp, h⟩ := execPlayer_of_exec h player
      cases st with
      | setLcmd | setQuit | swapPlayers | nullPlayer | detachDelete | newPlayer => cases player
      | deletePlayer =>
          cases h
          exact hs.destroy (unused rfl p hp)
      | detachTmp | detachChild =>
          cases h
          exact detach hp _ fun q hq => (Option.some.inj hq).symm
      | detachNode =>
          cases h
          exact detach hp _ fun q hq => by cases hq
      | wait i bound =>
          simp only [Process.execPlayer] at h
          split at h
          · cases h
            exact hs
          · obtain ⟨future, -, h⟩ := Option.bind_eq_some_iff.mp h
            split at h <;> cases h
            exact hs
      | stopPondering | play | applyMove | setDepth | swapChild | genApplyMove | selectAction
        | startPondering =>
          simp only [Process.execPlayer] at h
          repeat' split at h
          all_goals
            cases h
            try exact hs
      | clearVec | lowerExit | newTmp | swapTmp | commit | resetRoot =>
          cases h
          exact hs

/-- **A detached thread** goes on with its own player, or deletes one that no
thread has still to use. -/
theorem live_of_recycle {i : ℕ} {r : Recycle} {new : List Recycle} {s₁ : Process} (hs : Live s)
    (unused : r = .deleteTmp → ∀ p ∈ s.tmpMctsPlayer, s.pending p = false)
    (hr : s.detached[i]? = some r) (h : s.execRecycle r = some (s₁, new)) :
    Live { s₁ with detached := s.detached.take i ++ new ++ s.detached.drop (i + 1) } := by
  -- what is left are threads that were there, or go on for the same player
  have left (own : ∀ r' ∈ new, ∀ p, r'.player = some p → r.player = some p)
      (kept : ∀ r' ∈ s.detached, ∀ p, r'.player = some p → s₁.deleted p = 0) :
      Live { s₁ with detached := s.detached.take i ++ new ++ s.detached.drop (i + 1) } := by
    intro r' hr' p hp
    rcases List.mem_append.mp hr' with hr' | hr'
    · rcases List.mem_append.mp hr' with hr' | hr'
      · exact kept r' (List.mem_of_mem_take hr') p hp
      · exact kept r (List.mem_of_getElem? hr) p (own r' hr' p hp)
    · exact kept r' (List.mem_of_mem_drop hr') p hp
  have none (r' : Recycle) (hr' : r' ∈ ([] : List Recycle)) (p : ℕ) (_ : r'.player = some p) :
      r.player = some p := by cases hr'
  cases r with
  | resetTmp | resetNode | nullTmp =>
      cases h
      exact left none hs
  | resetChild p k =>
      cases h
      refine left (fun r' hr' q hq => ?_) hs
      rw [List.mem_singleton.mp hr'] at hq
      exact hq
  | resetFather p =>
      simp only [Process.execRecycle] at h
      split at h <;> cases h
      exact left none hs
  | deleteTmp =>
      have own (r' : Recycle) (hr' : r' ∈ [Recycle.nullTmp]) (p : ℕ) (hp : r'.player = some p) :
          Recycle.deleteTmp.player = some p := by
        rw [List.mem_singleton.mp hr'] at hp
        cases hp
      obtain ⟨rfl, ⟨-, rfl⟩ | ⟨q, f, hq, rfl, -⟩⟩ := Process.cases_of_deleteTmp h
      · exact left own hs
      · exact left own (hs.destroy (unused rfl q hq))

/-! ## Runs

Orderly ones, without a resignation. -/

/-- The slots and the players in every orderly run.  The third part is about
memory that other threads still need, the second about pointers that are still
in use. -/
structure Reclaiming (s : Process) : Prop where
  exclusive : Exclusive s
  handled : ∃ m : Slot, m.Holds s ∧ Fits Statement.Moves m s.todo .steady
  live : Live s

/-- The current player is not deleted, wherever the main thread is. -/
theorem Slot.Holds.current {m : Slot} (hs : m.Holds s) :
    (∃ owed, Ledger owed s) ∧ ∀ p, s.mctsPlayer = some p → s.deleted p = 0 := by
  have ledger : ∃ owed, Ledger owed s := by
    cases m with
    | steady => exact ⟨_, hs.ledger⟩
    | fresh => exact ⟨_, hs.1.ledger⟩
    | swapped => exact ⟨_, hs.1⟩
    | vacant => exact ⟨_, hs.1.ledger⟩
  refine ⟨ledger, fun p hp => ?_⟩
  obtain ⟨owed, ledger⟩ := ledger
  rw [ledger.deleted, if_neg fun h => h.2.1 hp]

theorem reclaiming_step {e : Event} (hs : Reclaiming s)
    (guard : Orderly s e ∧ ∀ pass, e ≠ .command (.genmove pass .resign))
    (h : s.step cfg e = some s') : Reclaiming s' := by
  obtain ⟨exclusive, ⟨m, holds, handled⟩, live⟩ := hs
  have exclusive' := exclusive_step exclusive h
  obtain ⟨orderly, noResign⟩ := guard
  cases Process.does_of_step h with
  | command c idle =>
      rw [idle] at handled
      cases handled
      refine ⟨exclusive', ?_, live⟩
      rcases moves_processCmd cfg s (fun pass same => noResign pass (same ▸ rfl)) with
        moves | ⟨player, moves⟩
      · exact ⟨.steady, holds.of_eq rfl rfl rfl rfl rfl rfl, moves⟩
      · have vacant : Slot.vacant.Holds s := ⟨holds, player⟩
        exact ⟨.vacant, vacant.of_eq rfl rfl rfl rfl rfl rfl, moves⟩
  | main todo exec =>
      obtain ⟨swaps, deletes⟩ := orderly
      have next : s.todo.head? = some _ := congrArg List.head? todo
      rw [todo] at handled
      obtain ⟨m', moves, handled⟩ := handled.exists_of_cons
      obtain ⟨m₁, holds₁, fits⟩ := moves_of_exec exclusive.tracked holds moves
        (fun same => swaps (same ▸ next)) exec
      have live₁ := live_of_exec live holds.current.2 (fun same => deletes (same ▸ next)) exec
      exact ⟨exclusive', ⟨m₁, holds₁.of_eq rfl rfl rfl rfl rfl rfl, fits.append handled⟩, live₁⟩
  | worker => exact ⟨exclusive', ⟨m, holds.of_eq rfl rfl rfl rfl rfl rfl, handled⟩, live⟩
  | recycle thread exec =>
      obtain ⟨mode, flags, -⟩ := exclusive.handled
      have todo := (keeps_of_execRecycle exclusive.tracked flags.exit exec).2
      refine ⟨exclusive', ⟨m, holds_of_recycle exclusive.tracked holds ?_ thread exec,
        todo ▸ handled⟩, live_of_recycle live (fun same => ?_) thread exec⟩
      swap
      · exact orderly.2 (same ▸ thread)
      rintro rfl
      -- the new node is in `tmp`, so the swap is next
      refine orderly.1 ?_
      generalize s.todo = rest at handled ⊢
      cases handled with
      | cons moves rest =>
          cases moves
          rfl

/-- A new session has retired nothing. -/
theorem reclaiming_start : Reclaiming Process.start := by
  refine ⟨exclusive_start, ⟨.steady, ⟨⟨Owners.Sound.alloc ?_ _, fun p hp => ?_, fun p => ?_⟩,
    Nat.zero_le 1, fun _ => rfl⟩, .nil _⟩, fun r hr => by cases hr⟩
  · exact ⟨nofun, nofun, nofun⟩
  · obtain rfl := Option.some.inj hp
    exact Owners.cell_alloc_self.trans_ne nofun
  · have current (hp : p < 1) : Process.start.mctsPlayer = some p := by
      rw [Nat.lt_one_iff.mp hp]
      rfl
    rw [if_neg fun h => h.2.1 (current h.1)]
    rfl

/-- The player that is owed has one thread, which can delete it. -/
theorem Reclaiming.exists_delete (hs : Reclaiming s) {p : ℕ} (owed : s.owed = some p)
    (deleted : s.deleted p = 0) : ∃ i s', s.detached[i]? = some .deleteTmp ∧
      s.step cfg (.recycle i) = some s' ∧ s'.deleted p = 1 := by
  rw [Process.owed] at owed
  split at owed
  · next deleters =>
      have mem : Recycle.deleteTmp ∈ s.deleters := by
        rw [deleters]
        exact List.mem_singleton_self _
      obtain ⟨i, hi⟩ := List.getElem?_of_mem (List.mem_filter.mp mem).1
      obtain ⟨tracked, mode, flags, -⟩ := hs.exclusive
      have apart := tracked.apart p owed
      have lowered : ¬ (s.players p).isExitRollout = true := fun h => apart (flags.exit p h)
      have cleared : (s.players p).searchThreadVec = [] := by
        by_contra h
        exact apart (tracked.current p h)
      have exec : s.execRecycle .deleteTmp = some ((s.destroy p).modifyPlayer p fun m =>
          { m with searchThreadVec := [] }, [.nullTmp]) := by
        simp only [Process.execRecycle, owed, if_neg lowered, cleared]
        exact if_pos (List.forall_mem_nil _)
      have once : (s.destroy p).deleted p = s.deleted p + 1 := Function.update_self ..
      rw [deleted] at once
      exact ⟨i, _, hi, Option.bind_eq_some_iff.mpr
        ⟨_, hi, Option.map_eq_some_iff.mpr ⟨_, exec, rfl⟩⟩, once⟩
  · cases owed

/-- What the invariants say of a state. -/
theorem Reclaiming.reclaimed (hs : Reclaiming s) : Reclaimed cfg s := by
  obtain ⟨m, holds, handled⟩ := hs.handled
  obtain ⟨⟨owed, ledger⟩, current⟩ := holds.current
  refine ⟨fun p hp => ⟨current p hp, ?_⟩, fun i s' h => ?_, fun p => ?_,
    fun idle p lt other => ?_, fun p pending => ?_⟩
  · obtain ⟨n, hn⟩ := Option.ne_none_iff_exists'.mp (ledger.root p hp)
    exact ⟨n, hn, (ledger.nodes.live _ n hn).2⟩
  · cases Process.does_of_step h with
    | worker => exact ⟨rfl, fun p _ => ⟨rfl, rfl⟩⟩
    | recycle thread exec =>
        have aside := aside_of_execRecycle hs.exclusive.tracked exec
        exact ⟨aside.player, fun p hp => ⟨aside.deleted p hp, aside.root p hp⟩⟩
  · rw [ledger.deleted]
    split
    · exact Nat.le_refl 1
    · exact Nat.zero_le 1
  · rw [idle] at handled
    cases handled
    have deleted := holds.ledger.deleted p
    by_cases pending : s.owed = some p
    · refine .inr (hs.exists_delete pending ?_)
      rw [deleted, if_neg fun h => h.2.2 pending]
    · exact .inl (deleted.trans (if_pos ⟨lt, other, pending⟩))
  · obtain ⟨r, hr, hp⟩ := pending_iff.mp pending
    exact hs.live r hr p hp

end Steps

/-- `play`, `clear_board` while the thread of `play` is pending, then both
threads, that of `play` first. -/
def orderlyRun : List Event :=
  .command (.play .fresh) :: List.replicate 11 .main ++
    .command .clearBoard :: List.replicate 9 .main ++ [.recycle 0, .recycle 0, .recycle 0]

/-- A `play` whose new node is reset by the thread of the `play` before. -/
def lateReset : List Event :=
  .command (.play .fresh) :: List.replicate 11 .main ++
    .command (.play .fresh) :: List.replicate 7 .main ++ [.recycle 0, .main]

/-- Two `clear_board`, then their threads.  Each of them reads the slot as it is
when it runs, and both find the second player. -/
def lateDelete : List Event :=
  .command .clearBoard :: List.replicate 9 .main ++
    .command .clearBoard :: List.replicate 9 .main ++
      [.recycle 0, .recycle 1, .recycle 0, .recycle 0]

/-- `play`, `clear_board`, and the thread of `clear_board` before the one of
`play`. -/
def lateUse : List Event :=
  .command (.play .fresh) :: List.replicate 11 .main ++
    .command .clearBoard :: List.replicate 9 .main ++ [.recycle 1]

end EstarGo
