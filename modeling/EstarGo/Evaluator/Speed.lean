import EstarGo.Evaluator.Barrier

/-!
# The measured speed

`on_server_rollout_loop_over` takes four evaluations for each latency record of
a real batch since its last call.  Three things can make the number wrong.

* **A batch that is not of four** is recorded as four.
* **A batch recorded late.**  A batch is recorded after the last of its
  callbacks, and after the `pending--` behind it, so the loop may find the
  counter down before the record.
* **A batch recorded in between.**  A batch that failed is taken off the counter
  before it is put back.  The loop may go on meanwhile, read the count, and
  clear it when the batch has been answered and recorded.

## Main definitions

* `calls` — what each call returns, and how many callbacks ran since the last
  one.
* `RecordBalanced` — what is returned, recorded and still to be recorded is what
  ran.
* `PastPoll` — what the search thread rests on past its poll.

## Main results

* `record_balance`: what is returned and recorded, and what the running batches
  will record, is what ran.
* `speed_counts_evaluations`: in a run under the conditions each call returns
  what ran.
* `not_speed_counts_evaluations`: a run for each of the three.

## Design notes

**One search thread.**  A second one could push a request while the first reads
the counts.  With a single one, a poll that finds everything quiet leaves it
quiet until the counts are cleared.
-/

namespace EstarGo.Client

open Verif

variable {H V : Type}

/-! ## What the calls return -/

/-- The evaluations of the calls so far. -/
def returnedSum (s : Pool (Shared H V) (Pc H V)) : ℕ := (s.shared.returned.map Prod.snd).sum

/-- For each call of `on_server_rollout_loop_over` in a run: the
`server_eval_cnt` it returns, and the callbacks that ran since the last call,
after which `base` had run.  The two are compared pair by pair. -/
def calls [Inhabited H] (cfg : EvalConfig) :
    ℕ → Pool (Shared H V) (Pc H V) → List (ℕ × Choice H V) → List (ℕ × ℕ)
  | _, _, [] => []
  | base, s, l :: ls =>
      match (machine cfg).step s l with
      | none => []
      | some t =>
          match t.shared.returned.drop s.shared.returned.length with
          | [] => calls cfg base t ls
          | (_, serverEvalCnt) :: _ =>
              (serverEvalCnt, t.shared.invoked.length - base) ::
                calls cfg t.shared.invoked.length t ls

/-! ## What a batch will record

A batch on its way to its record, callback by callback. -/

namespace Pc

/-- The callbacks of this thread's batch that have run and are not recorded yet,
in a batch of four.  Once the batch is recorded, nothing of it is left to
count. -/
def progress : Pc H V → ℤ
  | invoke cookie _ callbacks => if cookie.dummy then 0 else 4 - callbacks.length
  | settle cookie _ callbacks => if cookie.dummy then 0 else 4 - callbacks.length
  | record cookie => if cookie.dummy then 0 else 4
  | _ => 0

/-- A thread of the asynchronous client, with a result for each callback and
none for a dummy batch.  The synchronous path records nothing and is ruled
out. -/
def Asyn : Pc H V → Prop
  | sendSync _ _ _ => False
  | invokeSync _ _ _ => False
  | settleSync _ _ _ => False
  | inFlight cookie => cookie.dummy = true → cookie.callbackList = []
  | invoke cookie replies callbacks =>
      (cookie.dummy = true → callbacks = []) ∧ callbacks.length ≤ replies.length
  | settle cookie replies callbacks =>
      cookie.dummy = false ∧ callbacks.length ≤ replies.length
  | _ => True

end Pc

section Runs

variable [Inhabited H] {cfg : EvalConfig} {s t : Pool (Shared H V) (Pc H V)}
variable {l : ℕ × Choice H V} {ls : List (ℕ × Choice H V)}

/-- Each step keeps the threads asynchronous. -/
theorem asyn_step (hasyn : cfg.useAsynRequest = true) (enough : EnoughReplies s l)
    (h : (machine cfg).step s l = some t) (all : ∀ pc ∈ s.threads, pc.Asyn) :
    ∀ pc ∈ t.threads, pc.Asyn := by
  refine Pool.forall_threads (fun _ pc => pc.Asyn) ?_ h all
  intro pc choice sh pc' new hpc hl hstep here
  refine ⟨?_, fun _ _ h => h⟩
  cases fires_of_program hstep with
  | pushed resume => cases resume <;> exact ⟨trivial, by simp⟩
  | freeSlotsSync sender fetch requests callbacks sync => rw [hasyn] at sync; cases sync
  | acceptDummy => exact ⟨trivial, by simp [Pc.Asyn]⟩
  | accept => exact ⟨trivial, by simp [Pc.Asyn]⟩
  | replySync | endSync | shortSync | invokeSync | settleSync => exact here.elim
  | reply cookie replies =>
      rw [EnoughReplies, hpc, hl] at enough
      exact ⟨⟨here, enough⟩, by simp⟩
  | invoke cookie reply replies callback callbacks =>
      have real : cookie.dummy = false := by
        by_contra dummy
        exact absurd (here.1 (Bool.eq_true_of_not_eq_false dummy)) (by simp)
      exact ⟨⟨real, Nat.le_of_succ_le_succ here.2⟩, by simp⟩
  | settle cookie replies callbacks =>
      exact ⟨⟨fun dummy => absurd (here.1.symm.trans dummy) (by decide), here.2⟩, by simp⟩
  | failDummy | failBatch => exact ⟨trivial, by simp⟩
  | _ => exact ⟨trivial, by simp⟩

/-! ## Past the poll

Between the poll and the clearing, nothing may come to a record. -/

/-- Nothing is on its way to a record: the counter is down, no `failure_cb` has
callbacks to put back, and no `evaluate_cb` of a real batch is between its last
`pending--` and its record. -/
def Quiet (s : Pool (Shared H V) (Pc H V)) : Prop :=
  s.shared.pending ≤ 0 ∧ ∀ pc ∈ s.threads, pc.unsettled = 0 ∧ pc.unrecorded = false

omit [Inhabited H] in
/-- With the counter down no thread holds a callback that it counts. -/
theorem counted_eq_zero (hpending : PendingBalanced s) (done : s.shared.pending ≤ 0) :
    ∀ pc ∈ s.threads, pc.counted = 0 := by
  rw [PendingBalanced, Pool.total_natCast] at hpending
  exact (Pool.total_eq_zero_iff Pc.counted).mp (by omega)

/-- Only a new request of a search thread ends the quiet. -/
theorem quiet_step (full : FullBatch s l) (hpending : PendingBalanced s)
    (noPush : ∀ item rid, s.threads[l.1]? ≠ some (.evalPush item (.rollout rid)))
    (h : (machine cfg).step s l = some t) (hs : Quiet s) : Quiet t := by
  obtain ⟨done, quiet⟩ := hs
  have counted := counted_eq_zero hpending done
  constructor
  · obtain ⟨pre, pc, post, choice, sh, pc', new, -, hpc, -, hstep, rfl⟩ := Program.step_cases h
    have here := (quiet pc (List.mem_of_getElem? hpc)).1
    cases fires_of_program hstep with
    | push item resume =>
        cases resume with
        | rollout rid => exact absurd hpc (noPush item rid)
        | failureCb => exact absurd here (Nat.succ_ne_zero _)
    | settleSync | settle | unsettle => simp only; omega
    | record => simpa [Shared.record_eq] using done
    | _ => exact done
  · refine Pool.forall_threads
      (fun _ pc => pc.unsettled = 0 ∧ Pc.unrecorded pc = false) ?_ h quiet
    intro pc choice sh pc' new hpc hl hstep here
    have none := counted pc (List.mem_of_getElem? hpc)
    refine ⟨?_, fun _ _ h => h⟩
    cases fires_of_program hstep with
    | takeSlot item resume => cases resume <;> exact ⟨here, by simp⟩
    | push item resume =>
        cases resume with
        | rollout => exact ⟨⟨rfl, rfl⟩, by simp⟩
        | failureCb => exact absurd here.1 (Nat.succ_ne_zero _)
    | pushed resume => cases resume <;> exact ⟨here, by simp⟩
    | accept | acceptDummy => exact ⟨⟨rfl, rfl⟩, by simp [Pc.unsettled, Pc.unrecorded]⟩
    | reply cookie replies =>
        obtain empty := List.length_eq_zero_iff.mp none
        rw [FullBatch, hpc, hl] at full
        have dummy : cookie.dummy = true := by
          by_contra real
          simpa [empty] using full (Bool.eq_false_of_not_eq_true real)
        exact ⟨⟨rfl, by simp [empty, Pc.unrecorded, dummy]⟩, by simp⟩
    | endReply cookie replies => exact ⟨⟨rfl, here.2⟩, by simp⟩
    | invoke | settle | unsettle => exact absurd none (Nat.succ_ne_zero _)
    | fail cookie => exact ⟨⟨Nat.sub_self _, rfl⟩, by simp⟩
    | failBatch cookie real => exact ⟨⟨here.1, rfl⟩, by simp⟩
    | resend => exact absurd here.1 (Nat.succ_ne_zero _)
    | _ => exact ⟨⟨rfl, rfl⟩, by simp⟩

/-- In the quiet nothing is recorded. -/
theorem recordCount_step (hs : Quiet s) (h : (machine cfg).step s l = some t)
    (noClear : ∀ rid cnt, s.threads[l.1]? ≠ some (.clear rid cnt)) :
    t.shared.recordCount = s.shared.recordCount := by
  obtain ⟨pre, pc, post, choice, sh, pc', new, -, hpc, -, hstep, rfl⟩ := Program.step_cases h
  have here := (hs.2 pc (List.mem_of_getElem? hpc)).2
  cases fires_of_program hstep with
  | clear rid cnt => exact absurd hpc (noClear rid cnt)
  | record cookie =>
      have dummy : cookie.dummy = true := by simpa [Pc.unrecorded] using here
      simp [Shared.record_eq, dummy]
  | _ => rfl

/-- A search thread. -/
def Pc.isSearch : Pc H V → ℕ
  | idle | rollout _ | barrier _ | getRecordCount _ | clear .. => 1
  | evalWait _ (.rollout _) | evalPush _ (.rollout _) | evalNotify (.rollout _) => 1
  | _ => 0

omit [Inhabited H] in
/-- Only a search thread is past a poll. -/
theorem isSearch_of_polled {pc : Pc H V} (h : pc.polled ≠ 0) : pc.isSearch = 1 := by
  cases pc with
  | getRecordCount | clear => rfl
  | _ => exact absurd rfl h

/-- The search threads stay what they are. -/
theorem isSearch_step (h : (machine cfg).step s l = some t) {n : ℕ}
    (hs : Pool.total Pc.isSearch s = n) : Pool.total Pc.isSearch t = n := by
  have balanced := Pool.total_balance (fun _ : Shared H V => 0) (fun _ => n) Pc.isSearch ?_ h
    (by simpa using hs)
  · simpa using balanced
  intro pc choice sh pc' new ctx _ _ hstep balanced
  cases fires_of_program hstep with
  | takeSlot _ resume | push _ resume => cases resume <;> simpa [Pc.isSearch] using balanced
  | pushed resume => cases resume <;> simpa [Pc.isSearch, Resume.pc] using balanced
  | _ => simpa [Pc.isSearch] using balanced

/-- What the one search thread rests on past its poll: all is quiet, and what it
read is still what is recorded. -/
structure PastPoll (s : Pool (Shared H V) (Pc H V)) : Prop where
  alone : Pool.total Pc.isSearch s = 1
  quiet : ∀ pc ∈ s.threads, pc.polled ≠ 0 → Quiet s
  read : ∀ rid cnt, .clear rid cnt ∈ s.threads → cnt = s.shared.recordCount * 4

/-- While a thread is past its poll, or gets there, all was quiet before the
step, and the step is no push of a search thread. -/
theorem quiet_of_polled (hcounted : Counted s l) (h : (machine cfg).step s l = some t)
    (hs : PastPoll s) {qc : Pc H V} (hqc : qc ∈ t.threads) (polled : qc.polled ≠ 0) :
    Quiet s ∧ ∀ item rid, s.threads[l.1]? ≠ some (.evalPush item (.rollout rid)) := by
  obtain ⟨pre, pc, post, choice, sh, pc', new, hthreads, hpc, hl, hstep, rfl⟩ :=
    Program.step_cases h
  have rest (mem : qc ∈ pre ++ post) :
      Quiet s ∧ ∀ item rid, s.threads[l.1]? ≠ some (.evalPush item (.rollout rid)) := by
    have held := Pool.add_le_total_of_append Pc.isSearch hthreads mem
    rw [hs.alone, isSearch_of_polled polled] at held
    refine ⟨hs.quiet qc ?_ polled, fun item rid push => ?_⟩
    · rw [hthreads]
      exact List.mem_append.mpr ((List.mem_append.mp mem).imp_right (List.mem_cons_of_mem _))
    · cases hpc.symm.trans push
      simp [Pc.isSearch] at held
  rcases List.mem_append.mp hqc with before | hqc
  · exact rest (List.mem_append_left _ before)
  rcases List.mem_cons.mp hqc with rfl | hqc
  · cases fires_of_program hstep with
    | leave rid done =>
        obtain ⟨-, -, clear, recorded⟩ := hcounted
        rw [BarrierClear, hpc, hl] at clear
        rw [RecordsDone, hpc, hl] at recorded
        refine ⟨⟨done, fun pc mem => ⟨clear done pc mem, recorded done pc mem⟩⟩, ?_⟩
        simp [hpc]
    | getRecordCount rid =>
        refine ⟨hs.quiet _ (List.mem_of_getElem? hpc) (Multiset.singleton_ne_zero rid), ?_⟩
        simp [hpc]
    | pushed resume => cases resume <;> exact absurd rfl polled
    | _ => exact absurd rfl polled
  rcases List.mem_append.mp hqc with behind | started
  · exact rest (List.mem_append_right _ behind)
  · cases fires_of_program hstep with
    | accept | acceptDummy =>
        obtain rfl := List.mem_singleton.mp started
        exact absurd rfl polled
    | _ => cases started

/-- Each step keeps it: the poll finds the quiet, and nothing ends it before the
clearing. -/
theorem pastPoll_step (hcounted : Counted s l) (hpending : PendingBalanced s)
    (h : (machine cfg).step s l = some t) (hs : PastPoll s) : PastPoll t := by
  refine ⟨isSearch_step h hs.alone, fun qc hqc polled => ?_, fun rid cnt hclear => ?_⟩
  · obtain ⟨quiet, noPush⟩ := quiet_of_polled hcounted h hs hqc polled
    exact quiet_step hcounted.2.1 hpending noPush h quiet
  · have polled : (.clear rid cnt : Pc H V).polled ≠ 0 := Multiset.singleton_ne_zero rid
    have quiet := (quiet_of_polled hcounted h hs hclear polled).1
    obtain ⟨pre, pc, post, choice, sh, pc', new, hthreads, hpc, -, hstep, ht⟩ :=
      Program.step_cases h
    have rest (mem : .clear rid cnt ∈ pre ++ post) : cnt = t.shared.recordCount * 4 := by
      have held := Pool.add_le_total_of_append Pc.isSearch hthreads mem
      rw [hs.alone, isSearch_of_polled polled] at held
      rw [recordCount_step quiet h fun rid' cnt' here => ?_]
      · refine hs.read rid cnt ?_
        rw [hthreads]
        exact List.mem_append.mpr ((List.mem_append.mp mem).imp_right (List.mem_cons_of_mem _))
      · cases hpc.symm.trans here
        simp [Pc.isSearch] at held
    rw [ht] at hclear
    rcases List.mem_append.mp hclear with before | hclear
    · exact rest (List.mem_append_left _ before)
    rcases List.mem_cons.mp hclear with here | hclear
    · subst ht
      cases fires_of_program hstep with
      | getRecordCount rid' =>
          cases here
          rfl
      | pushed resume => cases resume <;> cases here
      | _ => cases here
    rcases List.mem_append.mp hclear with behind | started
    · exact rest (List.mem_append_right _ behind)
    · cases fires_of_program hstep with
      | accept | acceptDummy => cases List.mem_singleton.mp started
      | _ => cases started

/-! ## The records

What is counted is moved, from the batches to the records and from there to the
calls. -/

/-- What is returned, recorded and still to be recorded is what ran.  A record
stands for four callbacks, as the source has it. -/
def RecordBalanced (s : Pool (Shared H V) (Pc H V)) : Prop :=
  ((returnedSum s : ℤ) + 4 * s.shared.recordCount) + Pool.total Pc.progress s =
    s.shared.invoked.length

/-- **Records.**  A callback that runs brings its batch nearer to its record,
and a record stands for four of them; a call returns what is recorded, and
clears it. -/
theorem record_balance (full : FullBatch s l) (hall : ∀ pc ∈ s.threads, pc.Asyn)
    (read : ∀ rid cnt, .clear rid cnt ∈ s.threads → cnt = s.shared.recordCount * 4)
    (h : (machine cfg).step s l = some t) (hs : RecordBalanced s) : RecordBalanced t := by
  refine Pool.total_balance
    (fun sh : Shared H V => ((sh.returned.map Prod.snd).sum : ℤ) + 4 * sh.recordCount)
    (fun sh => (sh.invoked.length : ℤ)) Pc.progress ?_ h hs
  intro pc choice sh pc' new ctx hpc hl hstep balanced
  have here := hall pc (List.mem_of_getElem? hpc)
  cases fires_of_program hstep with
  | pushed resume => cases resume <;> simpa [Resume.pc, Pc.progress] using balanced
  | clear rid cnt =>
      obtain rfl := read rid cnt (List.mem_of_getElem? hpc)
      simp [Pc.progress] at balanced ⊢
      omega
  | replySync | endSync | shortSync | invokeSync | settleSync => exact here.elim
  | reply cookie replies =>
      rw [FullBatch, hpc, hl] at full
      cases dummy : cookie.dummy with
      | true => simpa [Pc.progress, dummy] using balanced
      | false => simpa [Pc.progress, dummy, full dummy] using balanced
  | endReply cookie => simpa [Pc.progress] using balanced
  | shortReply cookie callback callbacks => exact absurd here.2 (by simp)
  | invoke cookie reply replies callback callbacks =>
      cases dummy : cookie.dummy with
      | true => exact absurd (here.1 dummy) (by simp)
      | false => simp [Pc.progress, dummy] at balanced ⊢; omega
  | record cookie =>
      cases dummy : cookie.dummy <;> simp [Shared.record_eq, Pc.progress, dummy] at balanced ⊢ <;>
        omega
  | _ => simpa [Pc.progress] using balanced

/-- Only the end of the loop over the latencies returns a count. -/
theorem returned_step (h : (machine cfg).step s l = some t) :
    t.shared.returned = s.shared.returned ∨
      ∃ rid cnt, .clear rid cnt ∈ s.threads ∧
        t.shared.returned = s.shared.returned ++ [(rid, cnt)] ∧
        t.shared.invoked = s.shared.invoked := by
  obtain ⟨pre, pc, post, choice, sh, pc', new, -, hpc, hchoice, hstep, rfl⟩ :=
    Program.step_cases h
  cases fires_of_program hstep with
  | clear rid cnt => exact .inr ⟨rid, cnt, List.mem_of_getElem? hpc, rfl, rfl⟩
  | record => exact .inl (by simp [Shared.record_eq])
  | _ => exact .inl rfl

omit [Inhabited H] in
/-- In the quiet nothing is left to record. -/
theorem progress_eq_zero (hpending : PendingBalanced s) (quiet : Quiet s) :
    Pool.total Pc.progress s = 0 := by
  have counted := counted_eq_zero hpending quiet.1
  refine List.sum_eq_zero fun x hx => ?_
  obtain ⟨pc, hpc, rfl⟩ := List.mem_map.mp hx
  have here := counted pc hpc
  have done := (quiet.2 pc hpc).2
  cases pc with
  | invoke cookie replies callbacks =>
      obtain rfl := List.length_eq_zero_iff.mp here
      simp only [Pc.unrecorded, Bool.not_eq_false'] at done
      simp [Pc.progress, done]
  | settle cookie replies callbacks => exact absurd here (Nat.succ_ne_zero _)
  | record cookie =>
      simp only [Pc.unrecorded, Bool.not_eq_false'] at done
      simp [Pc.progress, done]
  | _ => rfl

/-- The laws behind the measured speed.  The balance of `pending_` is among
them, because a search thread trusts it at its poll. -/
structure SpeedInv (s : Pool (Shared H V) (Pc H V)) : Prop where
  asyn : ∀ pc ∈ s.threads, pc.Asyn
  records : RecordBalanced s
  pending : PendingBalanced s
  past : PastPoll s

omit [Inhabited H] in
/-- Nothing has run and nothing is recorded. -/
theorem speedInv_start (one : cfg.searchThreads = 1) :
    SpeedInv (start cfg : Pool (Shared H V) (Pc H V)) := by
  have threads : ∀ pc ∈ (start cfg : Pool (Shared H V) (Pc H V)).threads,
      (∃ sender, pc = .loop sender) ∨ pc = .idle := by
    intro pc hpc
    rcases List.mem_append.mp hpc with h | h
    · obtain ⟨sender, -, rfl⟩ := List.mem_map.mp h
      exact .inl ⟨sender, rfl⟩
    · exact .inr (List.eq_of_mem_replicate h)
  refine ⟨fun pc hpc => ?_, ?_, pendingBalanced_start, ?_, fun pc hpc polled => ?_,
    fun rid cnt hclear => ?_⟩
  · rcases threads pc hpc with ⟨sender, rfl⟩ | rfl <;> trivial
  · rw [RecordBalanced, total_start _ (fun _ => rfl) rfl]
    rfl
  · simp [Pool.total, start, Pc.isSearch, Function.comp_def, one]
  · rcases threads pc hpc with ⟨sender, rfl⟩ | rfl <;> exact absurd rfl polled
  · rcases threads _ hclear with ⟨sender, h⟩ | h <;> cases h

/-- Each step keeps the laws, under the conditions. -/
theorem speedInv_step (hasyn : cfg.useAsynRequest = true) (hs : SpeedInv s)
    (hcounted : Counted s l) (h : (machine cfg).step s l = some t) : SpeedInv t :=
  ⟨asyn_step hasyn hcounted.1 h hs.asyn,
    record_balance hcounted.2.1 hs.asyn hs.past.read h hs.records, pending_balance h hs.pending,
    pastPoll_step hcounted hs.pending h hs.past⟩

/-- The calls of a run, from a state in which all that is returned had run at
the last call. -/
theorem calls_eq (hasyn : cfg.useAsynRequest = true) {base : ℕ} (hs : SpeedInv s)
    (hbase : base = returnedSum s) (counted : (machine cfg).Guarded Counted s ls) :
    ∀ p ∈ calls cfg base s ls, p.1 = p.2 := by
  induction ls generalizing base s with
  | nil => simp [calls]
  | cons l ls ih =>
      rw [calls]
      cases h : (machine cfg).step s l with
      | none => simp
      | some t =>
          obtain ⟨hcounted, hrest⟩ := ((machine cfg).guarded_cons h).mp counted
          have ht := speedInv_step hasyn hs hcounted h
          dsimp only
          rcases returned_step h with same | ⟨rid, cnt, hclear, returned, invoked⟩
          · rw [same, List.drop_length]
            exact ih ht (hbase.trans (by rw [returnedSum, returnedSum, same])) hrest
          · have quiet := hs.past.quiet _ hclear (Multiset.singleton_ne_zero rid)
            have read := hs.past.read rid cnt hclear
            have law := hs.records
            rw [RecordBalanced, progress_eq_zero hs.pending quiet] at law
            have sum : returnedSum t = returnedSum s + cnt := by
              rw [returnedSum, returned, List.map_append, List.sum_append]
              rfl
            rw [returned, List.drop_left, invoked]
            refine List.forall_mem_cons.mpr ⟨?_, ih ht ?_ hrest⟩
            · dsimp only
              omega
            · omega

/-- **The measured speed.**  In every run of the asynchronous client with one
search thread in which each answered batch carries four requests, and in which a
poll that finds the counter down finds no batch on its way to a record, each
call returns the number of callbacks that ran since the last one.  A batch may
be on its way in two ways: its callbacks have run and it is not recorded yet, or
it has failed and is not put back yet. -/
theorem speed_counts_evaluations (cfg : EvalConfig) (hasyn : cfg.useAsynRequest = true)
    (one : cfg.searchThreads = 1) (ls : List (ℕ × Choice H V))
    (counted : (machine cfg).Guarded Counted (start cfg : Pool (Shared H V) (Pc H V)) ls) :
    ∀ p ∈ calls cfg 0 (start cfg : Pool (Shared H V) (Pc H V)) ls, p.1 = p.2 :=
  calls_eq hasyn (speedInv_start one) rfl counted

end Runs

/-- An asynchronous client with batches of four. -/
def batchConfig : EvalConfig := { smallConfig with queueSize := 4, batchSize := 4 }

/-- Four requests in one batch, answered and recorded before its search thread
leaves. -/
def fullBatchRun : List (ℕ × Choice ℕ ℕ) :=
  [(1, .enter)] ++
    (List.replicate 4 [(1, .evaluate 7), (1, .go), (1, .go), (1, .go)]).flatten ++
    [(1, .finish), (0, .go), (0, .go), (0, .go), (0, .go), (0, .go), (0, .accept),
      (2, .reply [⟨5, 7⟩, ⟨5, 7⟩, ⟨5, 7⟩, ⟨5, 7⟩])] ++
    (List.replicate 4 [(2, .go), (2, .go)]).flatten ++ [(2, .go), (2, .go)] ++
    List.replicate 3 (1, .go)

/-- One batch of four, recorded in time: the call returns four, and four
callbacks have run. -/
theorem speed_counts_evaluations_full :
    calls batchConfig 0 (start batchConfig : Pool (Shared ℕ ℕ) (Pc ℕ ℕ)) fullBatchRun =
        [(4, 4)] ∧
      ∀ p ∈ calls batchConfig 0 (start batchConfig : Pool (Shared ℕ ℕ) (Pc ℕ ℕ)) fullBatchRun,
        p.1 = p.2 :=
  ⟨by decide +kernel, speed_counts_evaluations batchConfig rfl rfl fullBatchRun (by decide +kernel)⟩

/-- The run of one request, recorded before its search thread leaves. -/
def partialBatchRun : List (ℕ × Choice ℕ ℕ) :=
  [(1, .enter), (1, .evaluate 7), (1, .go), (1, .go), (1, .go), (1, .finish),
    (0, .go), (0, .go), (0, .go), (0, .go), (0, .go), (0, .accept),
    (2, .reply [⟨5, 7⟩]), (2, .go), (2, .go), (2, .go), (2, .go),
    (1, .go), (1, .go), (1, .go)]

/-- A batch of four that fails.  The search thread polls before it is put back,
reads the count, and clears it when the batch has been answered and recorded. -/
def lateBatchRun : List (ℕ × Choice ℕ ℕ) :=
  [(1, .enter)] ++
    (List.replicate 4 [(1, .evaluate 7), (1, .go), (1, .go), (1, .go)]).flatten ++
    (1, .finish) :: List.replicate 5 (0, .go) ++ [(0, .accept), (2, .fail)] ++
    List.replicate 4 (2, .go) ++ [(1, .go), (1, .go)] ++ List.replicate 19 (2, .go) ++
    List.replicate 5 (0, .go) ++
    [(0, .accept), (3, .reply [⟨5, 7⟩, ⟨5, 7⟩, ⟨5, 7⟩, ⟨5, 7⟩])] ++
    List.replicate 10 (3, .go) ++ [(1, .go)]

/-- A batch of one counts four, one that is not recorded yet counts nothing, and
one that is recorded between the count and the clearing is never counted. -/
theorem not_speed_counts_evaluations :
    calls smallConfig 0 (start smallConfig : Pool (Shared ℕ ℕ) (Pc ℕ ℕ)) partialBatchRun =
        [(4, 1)] ∧
      calls smallConfig 0 (start smallConfig : Pool (Shared ℕ ℕ) (Pc ℕ ℕ)) answeredRun =
        [(0, 1)] ∧
      calls batchConfig 0 (start batchConfig : Pool (Shared ℕ ℕ) (Pc ℕ ℕ)) lateBatchRun =
        [(0, 4)] ∧
      ¬ ∀ (cfg : EvalConfig) (ls : List (ℕ × Choice ℕ ℕ)), cfg.useAsynRequest = true →
        cfg.searchThreads = 1 →
        ∀ p ∈ calls cfg 0 (start cfg : Pool (Shared ℕ ℕ) (Pc ℕ ℕ)) ls, p.1 = p.2 := by
  have hshort : calls smallConfig 0 (start smallConfig : Pool (Shared ℕ ℕ) (Pc ℕ ℕ))
      partialBatchRun = [(4, 1)] := by decide +kernel
  refine ⟨hshort, by decide +kernel, by decide +kernel, fun h => ?_⟩
  have heq := h smallConfig partialBatchRun rfl rfl (4, 1)
    (by rw [hshort]; exact List.mem_singleton_self _)
  exact absurd heq (by decide)

end EstarGo.Client
